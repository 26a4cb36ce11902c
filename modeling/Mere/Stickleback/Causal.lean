import Mere.Base.Kahn
import Mere.Base.OrdMap
import Mere.Base.Spread
import Mere.Base.Word

/-!
# Causal projection

Operations name the operations they were written after: their author's previous one, and what the
author had seen of others.
-/

namespace Mere.Stickleback

open List Option Finset Std.ExtTreeMap Relation

variable {L : Type}

/-- One operation's place in its author's log, and what it was written after. -/
structure CausalEntry (L : Type) where
  operation : Bytes32
  author : Bytes32
  logId : L
  seqNum : Nat
  backlink : Option Bytes32
  parents : List Bytes32

def CausalEntry.dependencies (e : CausalEntry L) : Finset Bytes32 :=
  (e.backlink.toList ++ e.parents).toFinset

structure PendingCausalOperation where
  operation : Bytes32
  missing : List Bytes32
deriving DecidableEq

/-- The order is of indices into the `n` entries. -/
structure CausalProjection (n : Nat) where
  order : List (Fin n)
  pending : List PendingCausalOperation
deriving DecidableEq

inductive CausalError
  | parentLimit (actual maximum : Nat)
  | payloadLimit (actual maximum : Nat)
  | duplicateParent
  | selfParent
  | duplicateOperation
  | forkedSequence (seqNum : Nat)
  | cycle
  | sequenceExhausted
deriving DecidableEq

/-! ## Sequences -/

def CausalEntry.position (e : CausalEntry L) : Bytes32 ×ₗ L ×ₗ Nat :=
  toLex (e.author, toLex (e.logId, e.seqNum))

def validateSequencesFrom [LinearOrder L] (positions : OrdMap (Bytes32 ×ₗ L ×ₗ Nat) Bytes32) :
    List (CausalEntry L) → Except CausalError Unit
  | [] => .ok ()
  | e :: rest =>
    if positions[e.position]?.any (· ≠ e.operation) then .error (.forkedSequence e.seqNum)
    else validateSequencesFrom (positions.insert e.position e.operation) rest

def validateSequences [LinearOrder L] (entries : List (CausalEntry L)) : Except CausalError Unit :=
  validateSequencesFrom ∅ entries

/-- No author puts two operations at one place of a log. -/
def Unforked (entries : List (CausalEntry L)) : Prop :=
  ∀ a ∈ entries, ∀ b ∈ entries, a.position = b.position → a.operation = b.operation

instance decidableUnforked [DecidableEq L] (entries : List (CausalEntry L)) : Decidable (Unforked entries) := by
  unfold Unforked
  infer_instance

variable {e : CausalEntry L}

theorem unforked_cons {rest : List (CausalEntry L)} :
    Unforked (e :: rest) ↔
      (∀ b ∈ rest, e.position = b.position → e.operation = b.operation) ∧ Unforked rest := by
  constructor
  · intro h
    refine ⟨fun b hb => h e mem_cons_self b (mem_cons_of_mem _ hb), fun a ha b hb => ?_⟩
    exact h a (mem_cons_of_mem _ ha) b (mem_cons_of_mem _ hb)
  · rintro ⟨hfirst, hrest⟩ a ha b hb hpos
    rcases mem_cons.mp ha with rfl | ha'
    · rcases mem_cons.mp hb with rfl | hb'
      · rfl
      · exact hfirst b hb' hpos
    · rcases mem_cons.mp hb with rfl | hb'
      · exact (hfirst a ha' hpos.symm).symm
      · exact hrest a ha' b hb' hpos

variable {entries : List (CausalEntry L)}

theorem validateSequencesFrom_ok [LinearOrder L]
    {positions : OrdMap (Bytes32 ×ₗ L ×ₗ Nat) Bytes32} :
    validateSequencesFrom positions entries = .ok () ↔
      (∀ e ∈ entries, ∀ id, positions[e.position]? = some id → id = e.operation) ∧
        Unforked entries := by
  induction entries generalizing positions with
  | nil => simp [validateSequencesFrom, Unforked]
  | cons e rest ih =>
    rw [validateSequencesFrom, unforked_cons, List.forall_mem_cons]
    split
    · rename_i hany
      obtain ⟨id, hid, hne⟩ := (any_eq_true _ _).mp hany
      simp only [reduceCtorEq, false_iff]
      exact fun h => of_decide_eq_true hne (h.1.1 id hid)
    · rename_i hany
      have hfirst : ∀ id, positions[e.position]? = some id → id = e.operation := by
        intro id hid
        by_contra hne
        exact hany ((any_eq_true _ _).mpr ⟨id, hid, decide_eq_true hne⟩)
      rw [ih]
      simp only [OrdMap.getElem?_insert]
      constructor
      · rintro ⟨hrest, hforks⟩
        have hsame : ∀ b ∈ rest, e.position = b.position → e.operation = b.operation :=
          fun b hb hpos => hrest b hb e.operation (if_pos hpos)
        refine ⟨⟨hfirst, fun a ha id hid => ?_⟩, hsame, hforks⟩
        by_cases hpos : e.position = a.position
        · exact (hfirst id (hpos ▸ hid)).trans (hsame a ha hpos)
        · exact hrest a ha id ((if_neg hpos).trans hid)
      · rintro ⟨⟨-, hall⟩, hsame, hforks⟩
        refine ⟨fun a ha id hid => ?_, hforks⟩
        split at hid
        · rename_i hpos
          exact (some.inj hid) ▸ hsame a ha hpos
        · exact hall a ha id hid

theorem validateSequences_ok [LinearOrder L] :
    validateSequences entries = .ok () ↔ Unforked entries := by
  rw [validateSequences, validateSequencesFrom_ok]
  simp

/-! ## The projection -/

section Projection

variable (entries)

/-- The index by operation, or nothing if an operation is there twice. -/
def byHashFrom (byHash : OrdMap Bytes32 (Fin entries.length)) :
    List (Fin entries.length) → Except CausalError (OrdMap Bytes32 (Fin entries.length))
  | [] => .ok byHash
  | i :: rest =>
    if entries[i].operation ∈ byHash then .error .duplicateOperation
    else byHashFrom (byHash.insert entries[i].operation i) rest

variable (byHash : OrdMap Bytes32 (Fin entries.length))

def dependents (p : Fin entries.length) : List (Fin entries.length) :=
  (List.finRange entries.length).filter fun i =>
    (entries[i].dependencies.filter fun d => byHash[d]? = some p).Nonempty

def missingDependencies (i : Fin entries.length) : Finset Bytes32 :=
  entries[i].dependencies.filter fun d => byHash[d]? = none

def blocked : List (Fin entries.length) :=
  (List.finRange entries.length).filter fun i => (missingDependencies entries byHash i).Nonempty

def absent : Finset Bytes32 := Finset.univ.biUnion (missingDependencies entries byHash)

/-- What each entry's history lacks, once the blocked entries have passed it on. -/
def missing : Fin entries.length → Finset Bytes32 :=
  (settle (Spread.step (dependents entries byHash))
    ((blocked entries byHash).length + entries.length * (absent entries byHash).card)
    ⟨missingDependencies entries byHash, blocked entries byHash⟩).sets

def complete (i : Fin entries.length) : Bool := missing entries byHash i = ∅

def indegree (i : Fin entries.length) : Nat :=
  if complete entries byHash i then
    (entries[i].dependencies.filter fun d =>
      byHash[d]?.any (complete entries byHash) = true).card
  else 0

def pendingOf (i : Fin entries.length) : PendingCausalOperation :=
  ⟨entries[i].operation, (missing entries byHash i).sort (· ≤ ·)⟩

def CausalEntry.rank (e : CausalEntry L) : Bytes32 ×ₗ L ×ₗ Nat ×ₗ Bytes32 :=
  toLex (e.author, toLex (e.logId, toLex (e.seqNum, e.operation)))

def orderKey (i : Fin entries.length) : (Bytes32 ×ₗ L ×ₗ Nat ×ₗ Bytes32) ×ₗ Fin entries.length :=
  toLex (entries[i].rank, i)

def indexOfKey (key : (Bytes32 ×ₗ L ×ₗ Nat ×ₗ Bytes32) ×ₗ Fin entries.length) :
    Fin entries.length :=
  (ofLex key).2

variable [LinearOrder L]

def firstReady : Finset ((Bytes32 ×ₗ L ×ₗ Nat ×ₗ Bytes32) ×ₗ Fin entries.length) :=
  (Finset.univ.filter fun i =>
    complete entries byHash i = true ∧ indegree entries byHash i = 0).image (orderKey entries)

def causalOrder : List (Fin entries.length) :=
  (settle (Kahn.step (orderKey entries) (indexOfKey entries) (dependents entries byHash)
    (complete entries byHash)) entries.length
    ⟨firstReady entries byHash, indegree entries byHash, []⟩).order

def blockedTail : List (Fin entries.length) :=
  ((List.finRange entries.length).filter fun i => !complete entries byHash i).insertionSort
    fun i j => orderKey entries i ≤ orderKey entries j

def causalProjection : Except CausalError (CausalProjection entries.length) := do
  validateSequences entries
  let byHash ← byHashFrom entries ∅ (List.finRange entries.length)
  if (causalOrder entries byHash).length ≠
      (List.finRange entries.length).countP (complete entries byHash) then
    throw .cycle
  return ⟨causalOrder entries byHash, (blockedTail entries byHash).map (pendingOf entries byHash)⟩

end Projection

/-! ## Histories -/

section History

variable (entries)

/-- The operation `a` was written after `b`, next to it. -/
def Needs (a b : Bytes32) : Prop :=
  ∃ e ∈ entries, e.operation = a ∧ b ∈ e.dependencies

/-- Anything else in the history of `a`. -/
abbrev After (a b : Bytes32) : Prop := TransGen (Needs entries) a b

def Present (id : Bytes32) : Prop := ∃ e ∈ entries, e.operation = id

/-- The whole history of an entry is there. -/
def Complete (e : CausalEntry L) : Prop := ∀ d, After entries e.operation d → Present entries d

/-- Some entry with a whole history is in its own. -/
def Cyclic : Prop := ∃ e ∈ entries, Complete entries e ∧ After entries e.operation e.operation

/-- The entries with a whole history, each once and after all it names, and of every other one what
its history lacks. -/
structure ClosedOrder (p : CausalProjection entries.length) : Prop where
  once : p.order.Nodup
  complete : ∀ i, i ∈ p.order ↔ Complete entries entries[i]
  after : ∀ before i after, p.order = before ++ i :: after →
    ∀ d ∈ entries[i].dependencies, ∃ j ∈ before, entries[j].operation = d
  pending_once : (p.pending.map (·.operation)).Nodup
  pending : ∀ id, id ∈ p.pending.map (·.operation) ↔
    ∃ e ∈ entries, e.operation = id ∧ ¬Complete entries e
  missing_once : ∀ q ∈ p.pending, q.missing.Nodup
  missing : ∀ q ∈ p.pending, ∀ d, d ∈ q.missing ↔ After entries q.operation d ∧ ¬Present entries d

def CausalProjection.ids (p : CausalProjection entries.length) :
    List Bytes32 × List PendingCausalOperation :=
  (p.order.map fun i => entries[i].operation, p.pending)

end History

/-! ## The index -/

section Index

variable {byHash : OrdMap Bytes32 (Fin entries.length)}
  {is : List (Fin entries.length)}

/-- The index leads from each operation to its entry. -/
def Indexes (entries : List (CausalEntry L)) (byHash : OrdMap Bytes32 (Fin entries.length)) : Prop :=
  ∀ (id : Bytes32) (i : Fin entries.length), byHash[id]? = some i ↔ entries[i].operation = id

theorem byHashFrom_ok (hdistinct : (is.map fun i => entries[i].operation).Nodup)
    (hnew : ∀ i ∈ is, entries[i].operation ∉ byHash) :
    ∃ byHash', byHashFrom entries byHash is = .ok byHash' ∧
      ∀ id i, byHash'[id]? = some i ↔ byHash[id]? = some i ∨ i ∈ is ∧ entries[i].operation = id := by
  induction is generalizing byHash with
  | nil => exact ⟨byHash, rfl, by simp⟩
  | cons j rest ih =>
    rw [List.map_cons, List.nodup_cons] at hdistinct
    have hj := hnew j mem_cons_self
    have hnew' : ∀ i ∈ rest, entries[i].operation ∉ byHash.insert entries[j].operation j := by
      intro i hi hmem
      rw [Std.ExtTreeMap.mem_insert, compare_eq_iff_eq] at hmem
      rcases hmem with heq | hmem
      · exact hdistinct.1 (mem_map.mpr ⟨i, hi, heq.symm⟩)
      · exact hnew i (mem_cons_of_mem _ hi) hmem
    obtain ⟨byHash', hok, hspec⟩ := ih hdistinct.2 hnew'
    refine ⟨byHash', by rw [byHashFrom, if_neg hj, hok], fun id i => ?_⟩
    rw [hspec, OrdMap.getElem?_insert, List.mem_cons]
    by_cases heq : entries[j].operation = id
    · subst heq
      have hnone : byHash[entries[j].operation]? = none := getElem?_eq_none hj
      rw [if_pos rfl, hnone]
      constructor
      · rintro (h | h)
        · exact .inr ⟨.inl (some.inj h).symm, by rw [some.inj h]⟩
        · exact .inr ⟨.inr h.1, h.2⟩
      · rintro (h | ⟨rfl | hi, h⟩)
        · cases h
        · exact .inl rfl
        · exact .inr ⟨hi, h⟩
    · rw [if_neg heq]
      constructor
      · rintro (h | h)
        · exact .inl h
        · exact .inr ⟨.inr h.1, h.2⟩
      · rintro (h | ⟨rfl | hi, h⟩)
        · exact .inl h
        · exact absurd h heq
        · exact .inr ⟨hi, h⟩

theorem byHash_ok (hdistinct : (entries.map (·.operation)).Nodup) :
    ∃ byHash, byHashFrom entries ∅ (List.finRange entries.length) = .ok byHash ∧
      Indexes entries byHash := by
  have hmap : ((List.finRange entries.length).map fun i => entries[i].operation) =
      entries.map (·.operation) := by
    rw [← ofFn_eq_map]
    exact ofFn_getElem_eq_map entries (·.operation)
  rw [← hmap] at hdistinct
  obtain ⟨byHash, hok, hspec⟩ := byHashFrom_ok hdistinct fun i _ =>
    not_mem_empty (k := entries[i].operation)
  refine ⟨byHash, hok, fun id i => ?_⟩
  rw [hspec]
  simp

namespace Indexes

variable (h : Indexes entries byHash)

include h

theorem injective : Function.Injective fun i : Fin entries.length => entries[i].operation := by
  intro i j heq
  have hi := (h entries[i].operation i).mpr rfl
  have hj := (h entries[i].operation j).mpr heq.symm
  exact some.inj (hi.symm.trans hj)

variable {id : Bytes32} {i : Fin entries.length} {d : Bytes32} {j : Fin entries.length}

theorem present_iff : Present entries id ↔ ∃ i, byHash[id]? = some i := by
  constructor
  · rintro ⟨e, he, hid⟩
    obtain ⟨i, hi⟩ := get_of_mem he
    exact ⟨i, (h id i).mpr (hid ▸ congrArg CausalEntry.operation hi)⟩
  · rintro ⟨i, hi⟩
    exact ⟨entries[i], getElem_mem _, (h id i).mp hi⟩

theorem not_present_iff : ¬Present entries id ↔ byHash[id]? = none := by
  rw [h.present_iff, not_exists]
  exact eq_none_iff_forall_ne_some.symm

omit h in
/-- What is written after something is there itself. -/
theorem entry_of_after {a : Bytes32} (hafter : After entries a d) :
    ∃ i : Fin entries.length, entries[i].operation = a := by
  obtain ⟨c, ⟨e, he, hid, -⟩, -⟩ := TransGen.head'_iff.mp hafter
  obtain ⟨i, rfl⟩ := get_of_mem he
  exact ⟨i, hid⟩

theorem needs_iff :
    Needs entries entries[i].operation d ↔ d ∈ entries[i].dependencies := by
  constructor
  · rintro ⟨e, he, hid, hd⟩
    obtain ⟨j, hj⟩ := get_of_mem he
    have hij : j = i := h.injective ((congrArg CausalEntry.operation hj).trans hid)
    subst hij
    rw [← hj] at hd
    exact hd
  · exact fun hd => ⟨entries[i], getElem_mem _, rfl, hd⟩

theorem mem_dependents {p : Fin entries.length} :
    i ∈ dependents entries byHash p ↔ entries[p].operation ∈ entries[i].dependencies := by
  unfold dependents
  rw [mem_filter, decide_eq_true_iff]
  constructor
  · rintro ⟨-, d, hd⟩
    obtain ⟨hd, hp⟩ := Finset.mem_filter.mp hd
    exact (h d p).mp hp ▸ hd
  · intro hd
    exact ⟨mem_finRange i, _, mem_filter.mpr ⟨hd, (h _ p).mpr rfl⟩⟩

theorem mem_missingDependencies :
    d ∈ missingDependencies entries byHash i ↔
      Needs entries entries[i].operation d ∧ ¬Present entries d := by
  unfold missingDependencies
  rw [Finset.mem_filter, h.needs_iff, h.not_present_iff]

/-! ## What a history lacks -/

theorem reaches_of_passed {u : Fin entries.length}
    (hpath : ReflTransGen (fun u w => w ∈ dependents entries byHash u) u i) :
    ReflTransGen (Needs entries) entries[i].operation entries[u].operation := by
  induction hpath with
  | refl => exact .refl
  | tail _ hlink ih => exact .head (h.needs_iff.mpr (h.mem_dependents.mp hlink)) ih

theorem passed_of_after {a : Bytes32} (hafter : After entries a d) (hd : ¬Present entries d) :
    ∀ i, entries[i].operation = a → ∃ u, d ∈ missingDependencies entries byHash u ∧
      ReflTransGen (fun u w => w ∈ dependents entries byHash u) u i := by
  induction hafter using TransGen.head_induction_on with
  | single hneeds =>
    rintro i rfl
    exact ⟨i, h.mem_missingDependencies.mpr ⟨hneeds, hd⟩, .refl⟩
  | head hneeds hrest ih =>
    rintro i rfl
    obtain ⟨j, rfl⟩ := entry_of_after hrest
    obtain ⟨u, hu, hpath⟩ := ih j rfl
    exact ⟨u, hu, hpath.tail (h.mem_dependents.mpr (h.needs_iff.mp hneeds))⟩

theorem mem_missing :
    d ∈ missing entries byHash i ↔ After entries entries[i].operation d ∧ ¬Present entries d := by
  unfold missing
  have hstart : ∀ v, missingDependencies entries byHash v ⊆ absent entries byHash :=
    fun v => subset_biUnion_of_mem _ (mem_univ v)
  have hqueue : ∀ v, (missingDependencies entries byHash v).Nonempty → v ∈ blocked entries byHash :=
    fun v hv => mem_filter.mpr ⟨mem_finRange v, decide_eq_true hv⟩
  rw [Spread.mem_spread (fun _ w _ => mem_univ w) hstart hqueue
    (by rw [card_univ, Fintype.card_fin])]
  constructor
  · rintro ⟨u, hu, hpath⟩
    obtain ⟨hneeds, hd⟩ := h.mem_missingDependencies.mp hu
    exact ⟨TransGen.tail' (h.reaches_of_passed hpath) hneeds, hd⟩
  · exact fun ⟨hafter, hd⟩ => h.passed_of_after hafter hd i rfl

theorem complete_iff :
    complete entries byHash i = true ↔ Complete entries entries[i] := by
  unfold complete
  rw [decide_eq_true_iff, eq_empty_iff_forall_notMem]
  simp only [h.mem_missing, not_and, not_not]
  rfl

/-! ## The order -/

/-- The entries that the one at `i` names. -/
def namedBy (entries : List (CausalEntry L)) (i : Fin entries.length) : Finset (Fin entries.length) :=
  Finset.univ.filter fun j => entries[j].operation ∈ entries[i].dependencies

theorem mem_namedBy :
    j ∈ namedBy entries i ↔ Needs entries entries[i].operation entries[j].operation := by
  rw [h.needs_iff]
  simp [namedBy]

theorem complete_of_named (hi : Complete entries entries[i])
    (hj : j ∈ namedBy entries i) : Complete entries entries[j] :=
  fun d hd => hi d (TransGen.head (h.mem_namedBy.mp hj) hd)

theorem reads [LinearOrder L] : Kahn.Reads (orderKey entries) (indexOfKey entries)
    (dependents entries byHash) (complete entries byHash) (namedBy entries) where
  index_key _ := rfl
  dual i d := by rw [h.mem_dependents]; simp [namedBy]
  once _ := (nodup_finRange _).filter _
  closed _ hi _ hd := h.complete_iff.mpr (h.complete_of_named (h.complete_iff.mp hi) hd)

theorem indegree_eq (hi : complete entries byHash i = true) :
    indegree entries byHash i = (namedBy entries i).card := by
  have hhistory := h.complete_iff.mp hi
  have himage : (entries[i].dependencies.filter fun d =>
      byHash[d]?.any (complete entries byHash) = true) =
      (namedBy entries i).image fun j => entries[j].operation := by
    ext d
    rw [Finset.mem_filter, Finset.mem_image]
    constructor
    · rintro ⟨hd, hany⟩
      obtain ⟨j, hj, -⟩ := (any_eq_true _ _).mp hany
      have hj' := (h d j).mp hj
      exact ⟨j, h.mem_namedBy.mpr (h.needs_iff.mpr (hj' ▸ hd)), hj'⟩
    · rintro ⟨j, hj, rfl⟩
      refine ⟨h.needs_iff.mp (h.mem_namedBy.mp hj),
        (any_eq_true _ _).mpr ⟨j, (h _ j).mpr rfl, ?_⟩⟩
      exact h.complete_iff.mpr (h.complete_of_named hhistory hj)
  unfold indegree
  rw [if_pos hi, himage, card_image_of_injective _ h.injective]

theorem placing_start [LinearOrder L] :
    Kahn.Placing (orderKey entries) (complete entries byHash) (namedBy entries)
      ⟨firstReady entries byHash, indegree entries byHash, []⟩ := by
  refine ⟨.nil, fun d hd => ?_, fun k => ?_⟩
  · rw [filter_true_of_mem fun _ _ => not_mem_nil]
    exact h.indegree_eq hd
  · unfold firstReady
    rw [mem_image]
    refine exists_congr fun i => ?_
    rw [Kahn.placeable_iff h.reads, Finset.mem_filter, and_comm,
      filter_true_of_mem fun _ _ => not_mem_nil]
    refine and_congr_right fun _ => ⟨fun hi => ?_, fun hi => ?_⟩
    · exact ⟨hi.2.1, not_mem_nil, h.indegree_eq hi.2.1 ▸ hi.2.2⟩
    · exact ⟨mem_univ i, hi.1, (h.indegree_eq hi.1).trans hi.2.2⟩

/-- The loop's order takes the least of what may come next, until nothing may. -/
theorem causalOrder_greedy [LinearOrder L] :
    Greedy (fun i => complete entries byHash i = true) (fun i d => d ∈ namedBy entries i)
        (fun i j => orderKey entries i ≤ orderKey entries j) (causalOrder entries byHash) ∧
      ∀ i, ¬Kahn.Open (complete entries byHash) (namedBy entries) (causalOrder entries byHash) i := by
  have hcard : (Finset.univ : Finset (Fin entries.length)).card ≤ entries.length := by
    rw [card_univ, Fintype.card_fin]
  obtain ⟨hplacing, hstuck⟩ :=
    Kahn.placing_settle h.reads h.placing_start (fun i _ => mem_univ i) hcard
  exact ⟨hplacing.greedy, hstuck⟩

theorem after_iff :
    After entries entries[i].operation entries[j].operation ↔
      TransGen (fun i d => d ∈ namedBy entries i) i j := by
  constructor
  · intro hafter
    have hfrom : ∀ a, After entries a entries[j].operation → ∀ i, entries[i].operation = a →
        TransGen (fun i d => d ∈ namedBy entries i) i j := by
      intro a ha
      induction ha using TransGen.head_induction_on with
      | single hneeds =>
        rintro i rfl
        exact .single (h.mem_namedBy.mpr hneeds)
      | head hneeds hrest ih =>
        rintro i rfl
        obtain ⟨k, rfl⟩ := entry_of_after hrest
        exact .head (h.mem_namedBy.mpr hneeds) (ih k rfl)
    exact hfrom _ hafter i rfl
  · intro hpath
    exact hpath.lift (fun i : Fin entries.length => entries[i].operation)
      fun a b hb => h.mem_namedBy.mp hb

theorem mem_causalOrder_iff [LinearOrder L] (hacyclic : ¬Cyclic entries) (i : Fin entries.length) :
    i ∈ causalOrder entries byHash ↔ complete entries byHash i = true := by
  obtain ⟨hgreedy, hstuck⟩ := h.causalOrder_greedy
  refine ⟨hgreedy.nodes i, fun hi => ?_⟩
  by_contra hleft
  obtain ⟨k, hk, hcycle⟩ := Greedy.cyclic (Set.toFinite _) hstuck hi hleft
  exact hacyclic ⟨entries[k], getElem_mem _, h.complete_iff.mp hk, h.after_iff.mpr hcycle⟩

theorem not_cyclic [LinearOrder L]
    (hall : ∀ i, complete entries byHash i = true → i ∈ causalOrder entries byHash) :
    ¬Cyclic entries := by
  rintro ⟨e, he, hcomplete, hcycle⟩
  obtain ⟨i, rfl⟩ := get_of_mem he
  refine h.causalOrder_greedy.1.acyclic (fun a b ha hb => ?_) hall i ?_ (h.after_iff.mp hcycle)
  · exact h.reads.closed a ha b hb
  · exact h.complete_iff.mpr hcomplete

theorem length_causalOrder [LinearOrder L] :
    (causalOrder entries byHash).length ≠
        (List.finRange entries.length).countP (complete entries byHash) ↔ Cyclic entries := by
  have hgreedy := h.causalOrder_greedy.1
  have hcount : (List.finRange entries.length).countP (complete entries byHash) =
      (Finset.univ.filter fun i => complete entries byHash i = true).card := by
    rw [List.countP_eq_length_filter]
    congr 1
    simp
  have hlength : (causalOrder entries byHash).length =
      (causalOrder entries byHash).toFinset.card := (List.toFinset_card_of_nodup hgreedy.nodup).symm
  have hsub : (causalOrder entries byHash).toFinset ⊆
      Finset.univ.filter fun i => complete entries byHash i = true := fun i hi =>
    Finset.mem_filter.mpr ⟨Finset.mem_univ i, hgreedy.nodes i (List.mem_toFinset.mp hi)⟩
  rw [hcount, hlength, ← not_iff_not, not_not]
  constructor
  · intro heq
    have hsame := Finset.eq_of_subset_of_card_le hsub heq.ge
    refine h.not_cyclic fun i hi => List.mem_toFinset.mp ?_
    rw [hsame]
    exact Finset.mem_filter.mpr ⟨Finset.mem_univ i, hi⟩
  · intro hacyclic
    congr 1
    ext i
    rw [List.mem_toFinset, h.mem_causalOrder_iff hacyclic, Finset.mem_filter]
    exact (and_iff_right (Finset.mem_univ i)).symm

omit h in
theorem rank_le_of_orderKey_le [LinearOrder L]
    (hle : orderKey entries i ≤ orderKey entries j) : entries[i].rank ≤ entries[j].rank := by
  rcases Prod.Lex.le_iff.mp hle with hlt | ⟨heq, -⟩
  · exact hlt.le
  · exact heq.le

theorem eq_of_rank {a b : CausalEntry L} (ha : a ∈ entries) (hb : b ∈ entries)
    (hrank : a.rank = b.rank) : a = b := by
  have hid : a.operation = b.operation := congrArg (fun r => (ofLex (ofLex (ofLex r).2).2).2) hrank
  obtain ⟨i, rfl⟩ := get_of_mem ha
  obtain ⟨j, rfl⟩ := get_of_mem hb
  exact congrArg entries.get (h.injective hid)

theorem causalOrder_entries [LinearOrder L] :
    Greedy (fun e => e ∈ entries ∧ Complete entries e) (fun e d => d.operation ∈ e.dependencies)
      (fun e d => e.rank ≤ d.rank) ((causalOrder entries byHash).map fun i => entries[i]) := by
  refine h.causalOrder_greedy.1.map ?_ (fun e => ?_) (fun a b _ _ => ?_) fun a b _ _ hle => ?_
  · exact fun i j hij => h.injective (congrArg CausalEntry.operation hij)
  · constructor
    · rintro ⟨he, hcomplete⟩
      obtain ⟨i, rfl⟩ := get_of_mem he
      exact ⟨i, h.complete_iff.mpr hcomplete, rfl⟩
    · rintro ⟨i, hi, rfl⟩
      exact ⟨getElem_mem _, h.complete_iff.mp hi⟩
  · simp [namedBy]
  · exact rank_le_of_orderKey_le hle

/-! ## The blocked tail -/

theorem missing_pendingOf :
    d ∈ (pendingOf entries byHash i).missing ↔
      After entries entries[i].operation d ∧ ¬Present entries d := by
  unfold pendingOf
  rw [mem_sort, h.mem_missing]

omit h in
theorem nodup_blockedTail [LinearOrder L] : (blockedTail entries byHash).Nodup :=
  (perm_insertionSort _ _).nodup_iff.mpr ((nodup_finRange _).filter _)

theorem mem_blockedTail [LinearOrder L] :
    i ∈ blockedTail entries byHash ↔ ¬Complete entries entries[i] := by
  unfold blockedTail
  rw [← h.complete_iff]
  simp

omit h in
theorem mem_map_entries {P : CausalEntry L → Prop}
    (his : ∀ i, i ∈ is ↔ P entries[i]) (e : CausalEntry L) :
    e ∈ is.map (fun i => entries[i]) ↔ e ∈ entries ∧ P e := by
  rw [List.mem_map]
  constructor
  · rintro ⟨i, hi, rfl⟩
    exact ⟨List.getElem_mem _, (his i).mp hi⟩
  · rintro ⟨he, hP⟩
    obtain ⟨i, rfl⟩ := List.get_of_mem he
    exact ⟨i, (his i).mpr hP, rfl⟩

theorem mem_blockedTail_entries [LinearOrder L] :
    e ∈ (blockedTail entries byHash).map (fun i => entries[i]) ↔
      e ∈ entries ∧ ¬Complete entries e :=
  mem_map_entries (P := fun e => ¬Complete entries e) (fun _ => h.mem_blockedTail) e

omit h in
theorem sorted_blockedTail [LinearOrder L] :
    ((blockedTail entries byHash).map fun i => entries[i]).Pairwise
      (fun e d => e.rank ≤ d.rank) := by
  rw [pairwise_map]
  exact (pairwise_insertionSort _ _).imp rank_le_of_orderKey_le

end Indexes

/-! ## Stored in another order -/

section Perm

variable {entries' : List (CausalEntry L)} {byHash' : OrdMap Bytes32 (Fin entries'.length)}

section

variable (hperm : entries.Perm entries')
include hperm

theorem needs_perm : Needs entries = Needs entries' := by
  funext a b
  simp only [Needs, hperm.mem_iff]

theorem present_perm : Present entries = Present entries' := by
  funext a
  simp only [Present, hperm.mem_iff]

theorem complete_perm : Complete entries = Complete entries' := by
  funext e
  simp only [Complete, After, needs_perm hperm, present_perm hperm]

theorem cyclic_perm : Cyclic entries ↔ Cyclic entries' := by
  simp only [Cyclic, After, needs_perm hperm, complete_perm hperm, hperm.mem_iff]

end

variable (h : Indexes entries byHash)
include h

theorem Indexes.mem_causalOrder_entries [LinearOrder L] (hacyclic : ¬Cyclic entries) :
    e ∈ (causalOrder entries byHash).map (fun i => entries[i]) ↔ e ∈ entries ∧ Complete entries e :=
  mem_map_entries (fun i => (h.mem_causalOrder_iff hacyclic i).trans h.complete_iff) e

variable (h' : Indexes entries' byHash')
include h'

variable (hperm : entries.Perm entries')
include hperm

theorem causalOrder_perm [LinearOrder L] (hacyclic : ¬Cyclic entries) :
    (causalOrder entries byHash).map (fun i => entries[i]) =
      (causalOrder entries' byHash').map (fun i => entries'[i]) := by
  have hacyclic' : ¬Cyclic entries' := fun hcycle => hacyclic ((cyclic_perm hperm).mpr hcycle)
  have hgreedy := h.causalOrder_entries
  have hgreedy' := h'.causalOrder_entries
  rw [← complete_perm hperm] at hgreedy'
  simp only [← hperm.mem_iff] at hgreedy'
  refine hgreedy.eq_of_length (fun a b ha hb hab hba => ?_) hgreedy' ?_
  · exact h.eq_of_rank ha.1 hb.1 (le_antisymm hab hba)
  · refine ((perm_ext_iff_of_nodup hgreedy.nodup hgreedy'.nodup).mpr fun e => ?_).length_eq
    rw [h.mem_causalOrder_entries hacyclic, h'.mem_causalOrder_entries hacyclic', complete_perm hperm, hperm.mem_iff]

theorem blockedTail_perm [LinearOrder L] :
    (blockedTail entries byHash).map (fun i => entries[i]) =
      (blockedTail entries' byHash').map (fun i => entries'[i]) := by
  have hnodup : ((blockedTail entries byHash).map fun i => entries[i]).Nodup :=
    Indexes.nodup_blockedTail.map fun i j hij => h.injective (congrArg CausalEntry.operation hij)
  have hnodup' : ((blockedTail entries' byHash').map fun i => entries'[i]).Nodup :=
    Indexes.nodup_blockedTail.map fun i j hij => h'.injective (congrArg CausalEntry.operation hij)
  have hsame : ((blockedTail entries byHash).map fun i => entries[i]).Perm
      ((blockedTail entries' byHash').map fun i => entries'[i]) := by
    refine (perm_ext_iff_of_nodup hnodup hnodup').mpr fun e => ?_
    rw [h.mem_blockedTail_entries, h'.mem_blockedTail_entries, complete_perm hperm, hperm.mem_iff]
  refine hsame.eq_of_pairwise (fun a b ha hb hab hba => ?_) Indexes.sorted_blockedTail
    Indexes.sorted_blockedTail
  have ha' := (h.mem_blockedTail_entries.mp ha).1
  have hb' := (h.mem_blockedTail_entries.mp (hsame.mem_iff.mpr hb)).1
  exact h.eq_of_rank ha' hb' (le_antisymm hab hba)

theorem pendingOf_perm {i : Fin entries.length} {j : Fin entries'.length}
    (heq : entries[i] = entries'[j]) : pendingOf entries byHash i = pendingOf entries' byHash' j := by
  have hmissing : missing entries byHash i = missing entries' byHash' j := by
    ext d
    rw [h.mem_missing, h'.mem_missing, After, needs_perm hperm, present_perm hperm, heq]
  rw [pendingOf, pendingOf, hmissing, heq]

theorem pending_perm [LinearOrder L] :
    (blockedTail entries byHash).map (pendingOf entries byHash) =
      (blockedTail entries' byHash').map (pendingOf entries' byHash') := by
  have hpairs := forall₂_eq_eq_eq ▸ blockedTail_perm h h' hperm
  rw [forall₂_map_left_iff, forall₂_map_right_iff] at hpairs
  rw [← forall₂_eq_eq_eq, forall₂_map_left_iff, forall₂_map_right_iff]
  exact hpairs.imp fun i j hij => pendingOf_perm h h' hperm hij

end Perm

/-! ## The projection is the closed order -/

theorem Indexes.causalProjection_eq [LinearOrder L] (h : Indexes entries byHash)
    (hfork : Unforked entries)
    (hbyHash : byHashFrom entries ∅ (List.finRange entries.length) = .ok byHash) :
    (Cyclic entries → causalProjection entries = .error .cycle) ∧
      (¬Cyclic entries → causalProjection entries = .ok ⟨causalOrder entries byHash,
        (blockedTail entries byHash).map (pendingOf entries byHash)⟩) := by
  unfold causalProjection
  rw [validateSequences_ok.mpr hfork, hbyHash]
  constructor
  · intro hcyclic
    have hlength := h.length_causalOrder.mpr hcyclic
    simp only [bind, Except.bind]
    rw [if_pos hlength]
    rfl
  · intro hacyclic
    have hlength := fun hne => hacyclic (h.length_causalOrder.mp hne)
    simp only [bind, Except.bind]
    rw [if_neg hlength]
    rfl

theorem Indexes.closedOrder [LinearOrder L] (h : Indexes entries byHash)
    (hacyclic : ¬Cyclic entries) :
    ClosedOrder entries ⟨causalOrder entries byHash,
      (blockedTail entries byHash).map (pendingOf entries byHash)⟩ where
  once := h.causalOrder_greedy.1.nodup
  complete i := by rw [h.mem_causalOrder_iff hacyclic, h.complete_iff]
  after before i after heq d hd := by
    have hmem : i ∈ causalOrder entries byHash := by
      change causalOrder entries byHash = _ at heq
      rw [heq]
      exact List.mem_append_right _ List.mem_cons_self
    have hi : complete entries byHash i = true := (h.mem_causalOrder_iff hacyclic i).mp hmem
    obtain ⟨j, hj⟩ := h.present_iff.mp (h.complete_iff.mp hi d (.single (h.needs_iff.mpr hd)))
    obtain rfl := (h d j).mp hj
    have hnamed := h.mem_namedBy.mpr (h.needs_iff.mpr hd)
    exact ⟨j, h.causalOrder_greedy.1.deps_before heq j (h.reads.closed i hi j hnamed) hnamed, rfl⟩
  pending_once := by
    rw [List.map_map]
    exact nodup_blockedTail.map h.injective
  pending id := by
    rw [List.map_map, List.mem_map]
    constructor
    · rintro ⟨i, hi, rfl⟩
      exact ⟨entries[i], List.getElem_mem _, rfl, h.mem_blockedTail.mp hi⟩
    · rintro ⟨e, he, rfl, hpending⟩
      obtain ⟨i, rfl⟩ := List.get_of_mem he
      exact ⟨i, h.mem_blockedTail.mpr hpending, rfl⟩
  missing_once q hq := by
    obtain ⟨i, -, rfl⟩ := List.mem_map.mp hq
    exact Finset.sort_nodup _ _
  missing q hq d := by
    obtain ⟨i, -, rfl⟩ := List.mem_map.mp hq
    exact h.missing_pendingOf

end Index

/-- The projection fails if and only if a whole history has a cycle, and is else the closed order,
whichever way the entries are stored. -/
theorem causalProjection_closed [LinearOrder L] (entries : List (CausalEntry L))
    (hdistinct : (entries.map (·.operation)).Nodup) (hfork : Unforked entries) :
    (causalProjection entries = .error .cycle ↔ Cyclic entries) ∧
      (¬Cyclic entries → ∃ p, causalProjection entries = .ok p ∧ ClosedOrder entries p) ∧
      ∀ entries', entries.Perm entries' →
        (causalProjection entries').map (CausalProjection.ids entries') =
          (causalProjection entries).map (CausalProjection.ids entries) := by
  obtain ⟨byHash, hbyHash, h⟩ := byHash_ok hdistinct
  obtain ⟨hcycle, hok⟩ := h.causalProjection_eq hfork hbyHash
  refine ⟨⟨fun herror => ?_, hcycle⟩, fun hacyclic => ⟨_, hok hacyclic, h.closedOrder hacyclic⟩,
    fun entries' hperm => ?_⟩
  · by_contra hacyclic
    rw [hok hacyclic] at herror
    cases herror
  · have hdistinct' := ((hperm.map (·.operation)).nodup_iff).mp hdistinct
    have hfork' : Unforked entries' := fun a ha b hb =>
      hfork a (hperm.mem_iff.mpr ha) b (hperm.mem_iff.mpr hb)
    obtain ⟨byHash', hbyHash', h'⟩ := byHash_ok hdistinct'
    obtain ⟨hcycle', hok'⟩ := h'.causalProjection_eq hfork' hbyHash'
    by_cases hcyclic : Cyclic entries
    · rw [hcycle hcyclic, hcycle' ((cyclic_perm hperm).mp hcyclic)]
      rfl
    · have hcyclic' : ¬Cyclic entries' := fun hc => hcyclic ((cyclic_perm hperm).mpr hc)
      have horder := congrArg (List.map CausalEntry.operation) (causalOrder_perm h h' hperm hcyclic)
      rw [List.map_map, List.map_map] at horder
      rw [hok hcyclic, hok' hcyclic']
      exact congrArg Except.ok (Prod.ext horder.symm (pending_perm h h' hperm).symm)

def crossed : List (CausalEntry Nat) :=
  [⟨1, 1, 0, 0, none, [2]⟩, ⟨2, 2, 0, 0, none, [1]⟩, ⟨3, 3, 0, 0, none, []⟩]

theorem causalProjection_closed_crossed :
    (crossed.map (·.operation)).Nodup ∧ Unforked crossed ∧ Cyclic crossed := by
  have hdistinct : (crossed.map (·.operation)).Nodup := by decide
  have hfork : Unforked crossed := by decide
  exact ⟨hdistinct, hfork, (causalProjection_closed crossed hdistinct hfork).1.mp (by decide +kernel)⟩

end Mere.Stickleback
