import Mere.Gemot.Finality

/-!
# The constitution store

From `crates/moot/gemot/src/moot/constitution/store.rs` and the processing of one operation in
`crates/stickleback/src/processor.rs`.
-/

namespace Mere.Gemot

open List

variable {Clauses : Type} (hashing : Hashing Clauses)

/-! ## Accepting -/

inductive Reject where
  | wrongMoot | invalidConstitutionEvent | invalidRulesDigest | wrongFounder
  deriving DecidableEq

inductive ProcessError where
  | invalidOperation
  | rejected (reason : Reject)
  | missingPredecessor (seqNum : Nat)
  | staleOperation (seqNum frontier : Nat)
  | backlink
  deriving DecidableEq

inductive ConstitutionStoreError where
  | process (error : ProcessError)
  | malformed | alreadyFounded | staleRevision | unauthorized
  | notFounded
  deriving DecidableEq

structure ConstitutionStore (Clauses : Type) where
  mootId : Bytes32
  founder : Bytes32
  held : List (Operation Clauses) := []
  deriving DecidableEq

namespace ConstitutionStore

variable (s : ConstitutionStore Clauses) (op : Operation Clauses)

def operations : List (Operation Clauses) :=
  s.held.insertionSort
    (fun a b => a.author < b.author ∨ a.author = b.author ∧ a.seqNum ≤ b.seqNum)

def constitution : Option (Constitution Clauses) :=
  Constitution.fold hashing s.mootId s.founder s.operations

def hasOperation (hash : Bytes32) : Bool := s.held.any (·.hash == hash)

def latest (author : Bytes32) : Option (Operation Clauses) :=
  (s.held.filter (·.author = author)).argmax Operation.seqNum

/-- `ConstitutionPolicy::admit`. An admitted operation leaves its log's history alone. -/
def admits : Except Reject Unit :=
  if op.mootId ≠ s.mootId then .error .wrongMoot
  else match op.event with
    | none => .error .invalidConstitutionEvent
    | some event =>
      if !event.rulesAreBound hashing then .error .invalidRulesDigest
      else match event with
        | .genesis mootId founder _ _ _ _ _ =>
          if mootId = s.mootId ∧ founder = s.founder ∧ op.author = s.founder then .ok ()
          else .error .wrongFounder
        | .amended _ _ _ _ => .ok ()

def preflight : Except ProcessError Unit :=
  if !op.validates then .error .invalidOperation
  else if op.hash ≠ op.headerHash then .error .invalidOperation
  else (s.admits hashing op).mapError .rejected

def follows (previous op : Operation Clauses) : Bool :=
  op.author == previous.author && op.seqNum == previous.seqNum + 1 &&
    op.backlink == some previous.hash

def insert : ConstitutionStore Clauses := { s with held := s.held ++ [op] }

/-- Whether the operation was inserted, and the store after it. -/
def process : Except ProcessError Bool × ConstitutionStore Clauses :=
  match s.preflight hashing op with
  | .error refusal => (.error refusal, s)
  | .ok () =>
    if s.hasOperation op.hash then (.ok false, s)
    else match s.latest op.author with
      | some previous =>
        if op.seqNum ≤ previous.seqNum then
          (.error (.staleOperation op.seqNum previous.seqNum), s)
        else if follows previous op then (.ok true, s.insert op)
        else (.error .backlink, s)
      | none =>
        if op.seqNum = 0 then (.ok true, s.insert op)
        else (.error (.missingPredecessor op.seqNum), s)

def govern (current : Option (Constitution Clauses)) (author : Bytes32) :
    ConstitutionEvent Clauses → Except ConstitutionStoreError Unit
  | .genesis _ _ _ _ _ _ _ => if current.isNone then .ok () else .error .alreadyFounded
  | .amended previous _ _ _ =>
    match current with
    | none => .error .notFounded
    | some state =>
      if previous ≠ state.revision then .error .staleRevision
      else if !authorizeGoverned author state then .error .unauthorized
      else .ok ()

def accept : Except ConstitutionStoreError Bool × ConstitutionStore Clauses :=
  if s.hasOperation op.hash then (.ok false, s)
  else match op.event with
    | none => (.error .malformed, s)
    | some event =>
      match govern (s.constitution hashing) op.author event with
      | .error refusal => (.error refusal, s)
      | .ok () =>
        let result := s.process hashing op
        (result.1.mapError .process, result.2)

/-! ## What an acceptance takes -/

/-- The operation is next in its author's log. -/
def Fits : Prop := match s.latest op.author with
  | some previous => follows previous op = true
  | none => op.seqNum = 0

structure Acceptable : Prop where
  unheld : s.hasOperation op.hash = false
  admitted : s.preflight hashing op = .ok ()
  governed : ∃ event, op.event = some event ∧
    govern (s.constitution hashing) op.author event = .ok ()
  fits : s.Fits op

variable {hashing s op}
variable {previous : Operation Clauses} {author : Bytes32}
  {parentConstitution divergencePoint : Option Digest} {rules : ConstitutionRules Clauses}
  {rulesHash : Digest} {atMs : Nat} {current : Option (Constitution Clauses)}

theorem follows_iff : follows previous op = true ↔
    op.author = previous.author ∧ op.seqNum = previous.seqNum + 1 ∧
      op.backlink = some previous.hash := by
  simp [follows, and_assoc]

theorem process_of_fits (hunheld : s.hasOperation op.hash = false)
    (hadmitted : s.preflight hashing op = .ok ()) (hfits : s.Fits op) :
    s.process hashing op = (.ok true, s.insert op) := by
  unfold process
  unfold Fits at hfits
  rw [hadmitted]
  simp only [hunheld]
  cases hlatest : s.latest op.author with
  | none =>
    rw [hlatest] at hfits
    simp only [Bool.false_eq_true, if_false]
    rw [if_pos hfits]
  | some previous =>
    rw [hlatest] at hfits
    have hseq := (follows_iff.mp hfits).2.1
    simp only [Bool.false_eq_true, if_false]
    rw [if_neg (by omega), if_pos hfits]

theorem process_cases : (s.process hashing op).2 = s ∨
    (s.hasOperation op.hash = false ∧ s.preflight hashing op = .ok () ∧ s.Fits op) := by
  unfold process
  split
  · exact .inl rfl
  rename_i hadmitted
  split
  · exact .inl rfl
  rename_i hunheld
  unfold Fits
  split
  · split
    · exact .inl rfl
    split
    · rename_i hfollows
      exact .inr ⟨Bool.eq_false_iff.mpr hunheld, hadmitted, hfollows⟩
    · exact .inl rfl
  · split
    · rename_i hseq
      exact .inr ⟨Bool.eq_false_iff.mpr hunheld, hadmitted, hseq⟩
    · exact .inl rfl

theorem accept_of (h : s.Acceptable hashing op) : (s.accept hashing op).2 = s.insert op := by
  obtain ⟨event, hevent, hgovern⟩ := h.governed
  unfold accept
  rw [h.unheld, hevent]
  simp only [Bool.false_eq_true, if_false, hgovern]
  rw [process_of_fits h.unheld h.admitted h.fits]

theorem accept_cases : (s.accept hashing op).2 = s ∨ s.Acceptable hashing op := by
  unfold accept
  split
  · exact .inl rfl
  split
  · exact .inl rfl
  rename_i event hevent
  split
  · exact .inl rfl
  rename_i hgovern
  rcases @process_cases Clauses hashing s op with hsame | ⟨hunheld, hadmitted, hfits⟩
  · exact .inl hsame
  · exact .inr ⟨hunheld, hadmitted, ⟨event, hevent, hgovern⟩, hfits⟩

/-! ## The log of an author -/

theorem hasOperation_eq_false {hash : Bytes32} :
    s.hasOperation hash = false ↔ ∀ held ∈ s.held, held.hash ≠ hash := by
  simp [hasOperation]

theorem latest_some
    (h : s.latest author = some previous) : previous ∈ s.held ∧ previous.author = author ∧
      ∀ held ∈ s.held, held.author = author → held.seqNum ≤ previous.seqNum := by
  have hmem := mem_filter.mp (argmax_mem h)
  refine ⟨hmem.1, of_decide_eq_true hmem.2, fun held hheld hauthor => ?_⟩
  exact le_of_mem_argmax (mem_filter.mpr ⟨hheld, decide_eq_true hauthor⟩) h

theorem latest_none (h : s.latest author = none) :
    ∀ held ∈ s.held, held.author ≠ author := by
  intro held hheld hauthor
  have hempty := argmax_eq_none.mp h
  have hmem : held ∈ s.held.filter (·.author = author) :=
    mem_filter.mpr ⟨hheld, decide_eq_true hauthor⟩
  rw [hempty] at hmem
  exact not_mem_nil hmem

theorem Fits.seqNum_lt (h : s.Fits op) :
    ∀ held ∈ s.held, held.author = op.author → held.seqNum < op.seqNum := by
  intro held hheld hauthor
  unfold Fits at h
  cases hlatest : s.latest op.author with
  | none => exact absurd hauthor (latest_none hlatest held hheld)
  | some previous =>
    rw [hlatest] at h
    have hle := (latest_some hlatest).2.2 held hheld hauthor
    have hseq := (follows_iff.mp h).2.1
    omega

/-! ## The judgement -/

theorem preflight_ok (h : s.preflight hashing op = .ok ()) :
    verify op = true ∧ s.admits hashing op = .ok () := by
  unfold preflight at h
  split at h
  · cases h
  rename_i hvalidates
  split at h
  · cases h
  rename_i hhash
  cases hadmits : s.admits hashing op with
  | error reason =>
    rw [hadmits] at h
    cases h
  | ok _ =>
    refine ⟨?_, rfl⟩
    simp only [verify, Bool.and_eq_true, beq_iff_eq]
    exact ⟨by simpa using hvalidates, by simpa using hhash⟩

theorem founds_of_preflight (h : s.preflight hashing op = .ok ())
    {mootId founder : Bytes32}
    (hevent : op.event = some (.genesis mootId founder parentConstitution divergencePoint rules
      rulesHash atMs)) : ∃ start, Founds hashing s.mootId s.founder op start := by
  obtain ⟨hverify, hadmits⟩ := preflight_ok h
  unfold admits at hadmits
  rw [hevent] at hadmits
  split at hadmits
  · cases hadmits
  rename_i hmoot
  simp only at hadmits
  split at hadmits
  · cases hadmits
  rename_i hbound
  split at hadmits
  · rename_i hfounder
    obtain ⟨rfl, rfl, hauthor⟩ := hfounder
    have hrules : hashing.rules rules = rulesHash := by
      simpa [ConstitutionEvent.rulesAreBound, ConstitutionEvent.rules, ConstitutionEvent.rulesHash]
        using hbound
    exact ⟨_, not_not.mp hmoot, hverify, hauthor, _, _, _, _, hrules ▸ hevent, rfl⟩
  · cases hadmits

theorem govern_genesis
    {mootId founder : Bytes32} :
    govern current author (.genesis mootId founder parentConstitution divergencePoint rules rulesHash
      atMs) = .ok () ↔ current = none := by
  cases current <;> simp [govern]

theorem govern_amended
    {previous : Digest} :
    govern current author (.amended previous rules rulesHash atMs) = .ok () ↔
      ∃ state, current = some state ∧ previous = state.revision ∧
        authorizeGoverned author state = true := by
  cases current with
  | none => simp [govern]
  | some state =>
    by_cases hprevious : previous = state.revision <;>
      cases hauthorized : authorizeGoverned author state <;> simp [govern, hprevious, hauthorized]

/-! ## Stores that accepting makes -/

variable (hashing) in
inductive Grown (mootId founder : Bytes32) : List (Operation Clauses) → Prop
  | empty : Grown mootId founder []
  | insert {held : List (Operation Clauses)} {op : Operation Clauses} :
      Grown mootId founder held → Acceptable hashing ⟨mootId, founder, held⟩ op →
      Grown mootId founder (held ++ [op])

namespace Grown

variable {mootId founder : Bytes32} {held : List (Operation Clauses)}

variable (h : Grown hashing mootId founder held)
include h

theorem distinct :
    held.Pairwise (fun a b => a.hash ≠ b.hash) := by
  induction h with
  | empty => exact .nil
  | insert _ hop ih =>
    refine pairwise_append.mpr ⟨ih, pairwise_singleton _ _, fun a ha b hb => ?_⟩
    rw [mem_singleton.mp hb]
    exact hasOperation_eq_false.mp hop.unheld a ha

theorem logs :
    held.Pairwise (fun a b => a.author = b.author → a.seqNum < b.seqNum) := by
  induction h with
  | empty => exact .nil
  | insert _ hop ih =>
    refine pairwise_append.mpr ⟨ih, pairwise_singleton _ _, fun a ha b hb => ?_⟩
    rw [mem_singleton.mp hb]
    exact hop.fits.seqNum_lt a ha

theorem eq_of_seqNum {a b : Operation Clauses}
    (ha : a ∈ held) (hb : b ∈ held) (hauthor : a.author = b.author) (hseq : a.seqNum = b.seqNum) :
    a = b := by
  by_contra hne
  have hpairs : held.Pairwise (fun a b => a.author = b.author → a.seqNum ≠ b.seqNum) :=
    h.logs.imp fun hlt hauthor => (hlt hauthor).ne
  have : Std.Symm fun a b : Operation Clauses => a.author = b.author → a.seqNum ≠ b.seqNum :=
    ⟨fun _ _ hab hauthor => (hab hauthor.symm).symm⟩
  exact hpairs.forall ha hb hne hauthor hseq

theorem candidates_operations :
    candidates hashing mootId (operations ⟨mootId, founder, held⟩) = candidates hashing mootId held :=
  (candidates_congr (perm_insertionSort _ _).symm h.distinct).symm

theorem constitution_eq :
    constitution hashing ⟨mootId, founder, held⟩ = Constitution.fold hashing mootId founder held := by
  change Constitution.fold hashing mootId founder (operations ⟨mootId, founder, held⟩) = _
  unfold Constitution.fold founded
  rw [h.candidates_operations]

omit h in
theorem founded_cons {genesis : Operation Clauses} {rest : List (Operation Clauses)}
    {start : Constitution Clauses} (hfounds : Founds hashing mootId founder genesis start)
    (hrest : ∀ op ∈ rest, ∃ previous rules rulesHash atMs,
      op.event = some (.amended previous rules rulesHash atMs)) :
    founded hashing mootId founder (genesis :: rest) = some start := by
  refine founded_eq mem_cons_self hfounds fun op hop start' hfounds' => ?_
  rcases mem_cons.mp hop with rfl | hop
  · rfl
  · obtain ⟨_, _, _, _, hamended⟩ := hrest op hop
    obtain ⟨_, _, _, _, hgenesis, -⟩ := hfounds'.event
    rw [hamended] at hgenesis
    cases hgenesis

theorem founding : held = [] ∨
    ∃ genesis rest start, held = genesis :: rest ∧ Founds hashing mootId founder genesis start ∧
      ∀ op ∈ rest, ∃ previous rules rulesHash atMs,
        op.event = some (.amended previous rules rulesHash atMs) := by
  induction h with
  | empty => exact .inl rfl
  | @insert held op hgrown hop ih =>
    right
    obtain ⟨event, hevent, hgovern⟩ := hop.governed
    rcases ih with rfl | ⟨genesis, rest, start, rfl, hfounds, hrest⟩
    · cases event with
      | genesis =>
        obtain ⟨start, hfounds⟩ := founds_of_preflight hop.admitted hevent
        exact ⟨op, [], start, rfl, hfounds, nofun⟩
      | amended =>
        obtain ⟨state, hstate, -⟩ := govern_amended.mp hgovern
        cases hstate
    · refine ⟨genesis, rest ++ [op], start, rfl, hfounds, fun op' hop' => ?_⟩
      rcases mem_append.mp hop' with hop' | hop'
      · exact hrest op' hop'
      · rw [mem_singleton.mp hop']
        cases event with
        | genesis =>
          -- A founded store takes no other genesis.
          have hnone := govern_genesis.mp hgovern
          rw [hgrown.constitution_eq] at hnone
          unfold Constitution.fold at hnone
          rw [founded_cons hfounds hrest] at hnone
          cases hnone
        | amended previous rules rulesHash atMs => exact ⟨previous, rules, rulesHash, atMs, hevent⟩

end Grown

end ConstitutionStore

end Mere.Gemot
