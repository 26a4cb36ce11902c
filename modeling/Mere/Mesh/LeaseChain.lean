import Mere.Mesh.Lease

/-! # The lease chain

What one pending grant can do to a record, and from it the safety of the whole chain.
-/

namespace Mere.Mesh

open OrdMap GatheredLeases List Option

/-! ## Facts applied to one epoch -/

def ScanOk (e : LeaseEpoch) (s : Scan) : Prop :=
  (∀ b, s.newestHeartbeat = some b → e.covers b.1 = true) ∧
  (∀ b, s.earliestEnd = some b → e.covers b.1 = true ∧ b.2.2.atMs = b.1)

variable (e : LeaseEpoch) (s : Scan) (g : GatheredLeases)

theorem admits_covers (f : LeaseFact) (h : e.admits f = true) :
    e.covers f.atMs = true := by
  unfold LeaseEpoch.admits at h
  simp only [Bool.and_eq_true] at h
  exact h.2

theorem scanFact_ok (f : LeaseFact) (h : ScanOk e s) :
    ScanOk e (scanFact e s f) := by
  obtain ⟨hb, he⟩ := h
  unfold scanFact
  split
  · rename_i hadm
    have hcov := admits_covers e f hadm
    split
    · split
      · refine ⟨?_, he⟩
        intro b hb'
        simp only [some.injEq] at hb'
        subst hb'; exact hcov
      · exact ⟨hb, he⟩
    · rename_i fact hbody
      split
      · refine ⟨hb, ?_⟩
        intro b hb'
        simp only [some.injEq] at hb'
        subst hb'; exact ⟨hcov, f.dated fact hbody⟩
      · exact ⟨hb, he⟩
  · exact ⟨hb, he⟩

theorem scan_ok (e : LeaseEpoch) : ScanOk e (g.scan e) := by
  unfold GatheredLeases.scan
  have start : ScanOk e {} := ⟨by simp, by simp⟩
  generalize vals g.facts = facts
  generalize ({} : Scan) = s at start
  induction facts generalizing s with
  | nil => exact start
  | cons f facts ih => exact ih _ (scanFact_ok e s f start)

-- The fields a grant signs are never rewritten.
structure SameGrant (a b : LeaseEpoch) : Prop where
  epoch : b.epoch = a.epoch
  lease : b.lease = a.lease
  holder : b.holder = a.holder
  granted : b.grantedAtMs = a.grantedAtMs
  expires : b.expiresAtMs = a.expiresAtMs

theorem SameGrant.trans {a b c : LeaseEpoch} (h : SameGrant a b) (h' : SameGrant b c) :
    SameGrant a c :=
  ⟨h'.1.trans h.1, h'.2.trans h.2, h'.3.trans h.3, h'.4.trans h.4, h'.5.trans h.5⟩

theorem withHeartbeat_same (e : LeaseEpoch) : SameGrant e (withHeartbeat s e) := by
  unfold withHeartbeat
  split <;> exact ⟨rfl, rfl, rfl, rfl, rfl⟩

theorem withEnd_same (e : LeaseEpoch) : SameGrant e (withEnd s e) := by
  unfold withEnd
  split
  · split <;> exact ⟨rfl, rfl, rfl, rfl, rfl⟩
  · exact ⟨rfl, rfl, rfl, rfl, rfl⟩

theorem clampSeen_same : SameGrant e (clampSeen e) := by
  unfold clampSeen
  split <;> exact ⟨rfl, rfl, rfl, rfl, rfl⟩

theorem applyFactsTo_same (e : LeaseEpoch) : SameGrant e (g.applyFactsTo e) :=
  ((withHeartbeat_same _ e).trans (withEnd_same _ _)).trans (clampSeen_same _)

/-! ## One epoch -/

structure EpochOk (terms : LeaseTerms) (e : LeaseEpoch) : Prop where
  opens : e.grantedAtMs < e.expiresAtMs
  bounded : e.expiresAtMs - e.grantedAtMs ≤ terms.maxDurationMs
  seen : e.grantedAtMs ≤ e.lastSeenMs ∧ e.lastSeenMs ≤ e.expiresAtMs
  ends : ∀ f, e.ended = some f →
    e.grantedAtMs ≤ f.atMs ∧ f.atMs ≤ e.expiresAtMs ∧ e.lastSeenMs ≤ f.atMs

theorem covers_iff (t : Nat) :
    e.covers t = true ↔ e.grantedAtMs ≤ t ∧ t ≤ e.expiresAtMs := by
  simp [LeaseEpoch.covers]

theorem EpochOk.granted_le_boundary {terms : LeaseTerms} {e : LeaseEpoch} (h : EpochOk terms e) :
    e.grantedAtMs ≤ e.boundaryMs := by
  unfold LeaseEpoch.boundaryMs
  cases he : e.ended with
  | none => exact le_of_lt h.opens
  | some f => exact (h.ends f he).1

theorem withHeartbeat_seen (hs : ScanOk e s)
    (h : e.grantedAtMs ≤ e.lastSeenMs ∧ e.lastSeenMs ≤ e.expiresAtMs) :
    e.grantedAtMs ≤ (withHeartbeat s e).lastSeenMs ∧
      (withHeartbeat s e).lastSeenMs ≤ e.expiresAtMs := by
  unfold withHeartbeat
  split
  · rename_i atMs op progress hb
    have hc := (covers_iff e atMs).mp (hs.1 _ hb)
    simp only
    omega
  · exact h

theorem withEnd_ended (f : LeaseEnd) (hf : (withEnd s e).ended = some f) :
    e.ended = some f ∨ ∃ atMs op, s.earliestEnd = some (atMs, op, f) := by
  unfold withEnd at hf
  split at hf
  · rename_i atMs op fact he
    split at hf
    · simp only [some.injEq] at hf
      exact Or.inr ⟨atMs, op, by rw [he, hf]⟩
    · exact Or.inl hf
  · exact Or.inl hf

theorem applyFactsTo_ok (terms : LeaseTerms) (e : LeaseEpoch) (h : EpochOk terms e) :
    EpochOk terms (g.applyFactsTo e) := by
  have hs := scan_ok g e
  have hsame := applyFactsTo_same g e
  have hbeat := withHeartbeat_seen e (g.scan e) hs h.seen
  have hended : (withHeartbeat (g.scan e) e).ended = e.ended := by unfold withHeartbeat; split <;> rfl
  have hlast : (withEnd (g.scan e) (withHeartbeat (g.scan e) e)).lastSeenMs =
      (withHeartbeat (g.scan e) e).lastSeenMs := by
    unfold withEnd; split
    · split <;> rfl
    · rfl
  -- Whatever end the epoch now has, it lies in the window.
  have hend : ∀ f, (withEnd (g.scan e) (withHeartbeat (g.scan e) e)).ended = some f →
      e.grantedAtMs ≤ f.atMs ∧ f.atMs ≤ e.expiresAtMs := by
    intro f hf
    rcases withEnd_ended _ _ f hf with hold | ⟨atMs, op, hnew⟩
    · rw [hended] at hold
      exact ⟨(h.ends f hold).1, (h.ends f hold).2.1⟩
    · have hc := hs.2 _ hnew
      rw [covers_iff] at hc
      simp only at hc
      omega
  refine ⟨?_, ?_, ?_, ?_⟩
  · rw [hsame.granted, hsame.expires]; exact h.opens
  · rw [hsame.granted, hsame.expires]; exact h.bounded
  · rw [hsame.granted, hsame.expires]
    unfold GatheredLeases.applyFactsTo clampSeen
    simp only
    split
    · rename_i f hf
      have := hend f hf
      simp only
      omega
    · rw [hlast]; exact hbeat
  · rw [hsame.granted, hsame.expires]
    unfold GatheredLeases.applyFactsTo clampSeen
    simp only
    intro f hf
    split at hf
    · rename_i f' hf'
      rw [hf'] at hf
      obtain rfl := some.inj hf
      have := hend f' hf'
      simp only
      omega
    · rename_i hnone
      rw [hnone] at hf
      simp at hf

/-! ## One grant -/

structure Admitted (terms : LeaseTerms) (winnerFor : Nat → Nat → Option Bytes32)
    (r : LeaseRecord) (grant : GrantFact) (boundary : Nat) : Prop where
  next : r.nextEpoch = some (grant.epoch, boundary)
  after : boundary ≤ grant.grantedAtMs
  opens : grant.grantedAtMs < grant.expiresAtMs
  bounded : grant.expiresAtMs - grant.grantedAtMs ≤ terms.maxDurationMs
  winner : winnerFor boundary grant.grantedAtMs = some grant.author

section Grant

variable {g : GatheredLeases} {terms : LeaseTerms} {winnerFor : Nat → Nat → Option Bytes32}
variable {r : LeaseRecord} {grant : GrantFact}

theorem applyFacts_push (g : GatheredLeases) (r : LeaseRecord) (e : LeaseEpoch) :
    g.applyFacts (r.pushEpoch e) = ⟨r.epochs ++ [g.applyFactsTo e]⟩ := by
  simp [GatheredLeases.applyFacts, LeaseRecord.updateLast, LeaseRecord.pushEpoch]

theorem acceptsGrant_iff (r : LeaseRecord) (epoch grantedAtMs : Nat) :
    r.acceptsGrant epoch grantedAtMs = true ↔
      ∃ boundary, r.nextEpoch = some (epoch, boundary) ∧ boundary ≤ grantedAtMs := by
  unfold LeaseRecord.acceptsGrant
  cases h : r.nextEpoch with
  | none => simp
  | some p =>
    simp only [Bool.and_eq_true, decide_eq_true_eq, some.injEq]
    constructor
    · rintro ⟨rfl, hb⟩; exact ⟨p.2, rfl, hb⟩
    · rintro ⟨b, rfl, hb⟩; exact ⟨rfl, hb⟩

variable {boundary : Nat}

theorem tryGrant_of_admitted (h : Admitted terms winnerFor r grant boundary) :
    g.tryGrant terms winnerFor r grant = ⟨r.epochs ++ [g.applyFactsTo (openedBy grant)]⟩ := by
  have hacc : r.acceptsGrant grant.epoch grant.grantedAtMs = true :=
    (acceptsGrant_iff _ _ _).mpr ⟨boundary, h.next, h.after⟩
  have hwin : ¬ (grant.expiresAtMs ≤ grant.grantedAtMs ∨
      grant.expiresAtMs - grant.grantedAtMs > terms.maxDurationMs) := by
    have h1 := h.opens
    have h2 := h.bounded
    omega
  unfold GatheredLeases.tryGrant
  simp only [hacc, Bool.not_true, Bool.false_eq_true, if_false]
  rw [if_neg hwin, h.next]
  simp only [map_some, getD_some, h.winner, ne_eq, not_true_eq_false, if_false]
  exact applyFacts_push g r _

theorem tryGrant_of_not_admitted (h : ∀ boundary, ¬ Admitted terms winnerFor r grant boundary) :
    g.tryGrant terms winnerFor r grant = r := by
  unfold GatheredLeases.tryGrant
  split
  · rfl
  · rename_i hacc
    simp only [Bool.not_eq_true', Bool.not_eq_false] at hacc
    obtain ⟨boundary, hnext, hb⟩ := (acceptsGrant_iff _ _ _).mp hacc
    split
    · rfl
    · simp only [hnext, map_some, getD_some]
      split
      · rfl
      · rename_i hw
        exact absurd ⟨hnext, hb, by omega, by omega, by simpa using hw⟩ (h boundary)

theorem tryGrants_none (grants : List GrantFact)
    (h : ∀ grant ∈ grants, ∀ boundary, ¬ Admitted terms winnerFor r grant boundary) :
    grants.foldl (g.tryGrant terms winnerFor) r = r := by
  induction grants with
  | nil => rfl
  | cons grant grants ih =>
    rw [foldl_cons, tryGrant_of_not_admitted (h grant mem_cons_self)]
    exact ih (fun x hx => h x (mem_cons_of_mem _ hx))

/-- All that one round of the loop can do. -/
theorem tryGrant_cases (g : GatheredLeases) (terms : LeaseTerms)
    (winnerFor : Nat → Nat → Option Bytes32) (r : LeaseRecord) (grant : GrantFact) :
    g.tryGrant terms winnerFor r grant = r ∨
      ∃ boundary, Admitted terms winnerFor r grant boundary ∧
        g.tryGrant terms winnerFor r grant = ⟨r.epochs ++ [g.applyFactsTo (openedBy grant)]⟩ := by
  by_cases h : ∃ boundary, Admitted terms winnerFor r grant boundary
  · obtain ⟨boundary, hb⟩ := h
    exact Or.inr ⟨boundary, hb, tryGrant_of_admitted hb⟩
  · exact Or.inl (tryGrant_of_not_admitted (fun b hb => h ⟨b, hb⟩))

theorem openedBy_ok (h : Admitted terms winnerFor r grant boundary) :
    EpochOk terms (openedBy grant) := by
  refine ⟨h.opens, h.bounded, ⟨le_refl _, le_of_lt h.opens⟩, ?_⟩
  intro f hf
  simp [openedBy] at hf

/-! ## The whole chain -/

def startAfter (earlier : List LeaseEpoch) : Nat := earlier.head?.elim 0 LeaseEpoch.boundaryMs

def Chain (terms : LeaseTerms) (winnerFor : Nat → Nat → Option Bytes32) : List LeaseEpoch → Prop
  | [] => True
  | e :: earlier =>
    Chain terms winnerFor earlier ∧ EpochOk terms e ∧ e.epoch = earlier.length ∧
      (∀ last, earlier.head? = some last → last.isFinal = false) ∧
      startAfter earlier ≤ e.grantedAtMs ∧
      winnerFor (startAfter earlier) e.grantedAtMs = some e.holder

theorem nextEpoch_iff (r : LeaseRecord) (epoch boundary : Nat) :
    r.nextEpoch = some (epoch, boundary) ↔
      (∀ last, r.epochs.reverse.head? = some last → last.isFinal = false) ∧
      boundary = startAfter r.epochs.reverse ∧
      epoch = (r.epochs.reverse.head?.elim 0 (fun last => succ32 last.epoch)) := by
  unfold LeaseRecord.nextEpoch startAfter
  rw [← head?_reverse]
  cases r.epochs.reverse.head? with
  | none =>
    simp only [some.injEq, Prod.mk.injEq, elim_none]
    constructor
    · rintro ⟨rfl, rfl⟩; exact ⟨by simp, rfl, rfl⟩
    · rintro ⟨-, rfl, rfl⟩; exact ⟨rfl, rfl⟩
  | some last =>
    simp only [elim_some, some.injEq, forall_eq']
    cases last.isFinal with
    | true => simp
    | false =>
      simp only [Bool.false_eq_true, if_false, some.injEq, Prod.mk.injEq, true_and]
      constructor
      · rintro ⟨rfl, rfl⟩; exact ⟨rfl, rfl⟩
      · rintro ⟨rfl, rfl⟩; exact ⟨rfl, rfl⟩

variable {epochs : List LeaseEpoch}

theorem head_number (h : Chain terms winnerFor epochs) (last : LeaseEpoch)
    (hl : epochs.head? = some last) : last.epoch + 1 = epochs.length := by
  match epochs, hl with
  | e :: earlier, hl =>
    simp only [head?_cons, some.injEq] at hl
    subst hl
    simp [h.2.2.1]

theorem chain_push (h : Chain terms winnerFor r.epochs.reverse)
    (hadm : Admitted terms winnerFor r grant boundary)
    (hahead : ∀ last, r.epochs.reverse.head? = some last → last.epoch ≤ grant.epoch) :
    Chain terms winnerFor (r.epochs ++ [g.applyFactsTo (openedBy grant)]).reverse := by
  have hsame := applyFactsTo_same g (openedBy grant)
  obtain ⟨hopen, hb, hn⟩ := (nextEpoch_iff r grant.epoch boundary).mp hadm.next
  rw [reverse_append, reverse_singleton, singleton_append]
  refine ⟨h, applyFactsTo_ok g terms _ (openedBy_ok hadm), ?_, hopen, ?_, ?_⟩
  · rw [hsame.epoch]
    change grant.epoch = _
    cases hl : r.epochs.reverse.head? with
    | none =>
      rw [hl] at hn
      rw [head?_eq_none_iff.mp hl]
      exact hn
    | some last =>
      rw [hl] at hn
      have h1 := head_number h last hl
      have h2 := hahead last hl
      -- The pending grants are sorted, so the counter cannot have wrapped past this one.
      rcases succ32_cases last.epoch with hs | hs
      · simp only [elim_some] at hn; omega
      · simp only [elim_some] at hn; omega
  · rw [hsame.granted, ← hb]; exact hadm.after
  · rw [hsame.granted, hsame.holder, ← hb]; exact hadm.winner

end Grant

def Ahead (r : LeaseRecord) (grants : List GrantFact) : Prop :=
  ∀ last, r.epochs.reverse.head? = some last → ∀ x ∈ grants, last.epoch ≤ x.epoch

section Run

variable (g : GatheredLeases) (terms : LeaseTerms) (winnerFor : Nat → Nat → Option Bytes32)

theorem tryGrant_ahead (r : LeaseRecord) (grant : GrantFact) (rest : List GrantFact)
    (hsort : ∀ x ∈ rest, grant.epoch ≤ x.epoch) (h : Ahead r (grant :: rest)) :
    Ahead (g.tryGrant terms winnerFor r grant) rest := by
  intro last hl x hx
  rcases tryGrant_cases g terms winnerFor r grant with hr | ⟨b, hadm, hr⟩
  · rw [hr] at hl
    exact h last hl x (mem_cons_of_mem _ hx)
  · rw [hr] at hl
    simp only [reverse_append, reverse_singleton, singleton_append, head?_cons,
      some.injEq] at hl
    rw [← hl, (applyFactsTo_same g (openedBy grant)).epoch]
    exact hsort x hx

theorem grants_chain (grants : List GrantFact) (r : LeaseRecord)
    (hsort : grants.Pairwise (fun a b => a.epoch ≤ b.epoch)) (hahead : Ahead r grants)
    (h : Chain terms winnerFor r.epochs.reverse) :
    Chain terms winnerFor (grants.foldl (g.tryGrant terms winnerFor) r).epochs.reverse := by
  induction grants generalizing r with
  | nil => exact h
  | cons grant rest ih =>
    rw [pairwise_cons] at hsort
    apply ih _ hsort.2 (tryGrant_ahead g terms winnerFor r grant rest hsort.1 hahead)
    rcases tryGrant_cases g terms winnerFor r grant with hr | ⟨b, hadm, hr⟩
    · rw [hr]; exact h
    · rw [hr]
      exact chain_push h hadm (fun last hl => hahead last hl grant mem_cons_self)

instance : Std.Total grantLe := ⟨by
  intro a b
  unfold grantLe
  rcases lt_trichotomy a.epoch b.epoch with h | h | h
  · exact Or.inl (Or.inl h)
  · rcases lt_trichotomy a.grantedAtMs b.grantedAtMs with h' | h' | h'
    · exact Or.inl (Or.inr ⟨h, Or.inl h'⟩)
    · rcases le_total a.operation b.operation with h'' | h''
      · exact Or.inl (Or.inr ⟨h, Or.inr ⟨h', h''⟩⟩)
      · exact Or.inr (Or.inr ⟨h.symm, Or.inr ⟨h'.symm, h''⟩⟩)
    · exact Or.inr (Or.inr ⟨h.symm, Or.inl h'⟩)
  · exact Or.inr (Or.inl h)⟩

instance : IsTrans GrantFact grantLe := ⟨by
  intro a b c hab hbc
  unfold grantLe at *
  rcases hab with h1 | ⟨h1, h2 | ⟨h2, h3⟩⟩ <;> rcases hbc with k1 | ⟨k1, k2 | ⟨k2, k3⟩⟩
  all_goals first
    | (left; omega)
    | (right; exact ⟨by omega, Or.inl (by omega)⟩)
    | (right; exact ⟨by omega, Or.inr ⟨by omega, le_trans h3 k3⟩⟩)⟩

theorem grantLe_epoch {a b : GrantFact} (h : grantLe a b) : a.epoch ≤ b.epoch := by
  unfold grantLe at h; omega

theorem pending_sorted : g.pending.Pairwise (fun a b => a.epoch ≤ b.epoch) :=
  (pairwise_insertionSort grantLe _).imp grantLe_epoch

theorem mem_pending (x : GrantFact) : x ∈ g.pending ↔ x ∈ vals g.grants :=
  (perm_insertionSort grantLe _).mem_iff

theorem resolve_chain : Chain terms winnerFor (g.resolve {} terms winnerFor).epochs.reverse := by
  apply grants_chain _ _ _ _ _ (pending_sorted g)
  · intro last hl
    simp [GatheredLeases.applyFacts, LeaseRecord.updateLast] at hl
  · simp [GatheredLeases.applyFacts, LeaseRecord.updateLast, Chain]

end Run

/-! ## Reading the chain by number -/

section Read

variable {terms : LeaseTerms} {winnerFor : Nat → Nat → Option Bytes32}

theorem Chain.drop {newer : List LeaseEpoch} {rest : List LeaseEpoch}
    (h : Chain terms winnerFor (newer ++ rest)) : Chain terms winnerFor rest := by
  induction newer with
  | nil => exact h
  | cons e newer ih => exact ih h.1

variable {epochs : List LeaseEpoch} {i : Nat} {e}

theorem Chain.at (h : Chain terms winnerFor epochs.reverse) (he : epochs[i]? = some e) :
    Chain terms winnerFor (e :: (epochs.take i).reverse) := by
  obtain ⟨hi, rfl⟩ := List.getElem?_eq_some_iff.mp he
  have hsplit : epochs = epochs.take i ++ epochs[i] :: epochs.drop (i + 1) := by simp
  rw [hsplit, reverse_append, reverse_cons, append_assoc] at h
  exact h.drop

def startOf (epochs : List LeaseEpoch) : Nat → Nat
  | 0 => 0
  | i + 1 => epochs[i]?.elim 0 LeaseEpoch.boundaryMs

theorem startAfter_take (epochs : List LeaseEpoch) (i : Nat) (hi : i < epochs.length) :
    startAfter (epochs.take i).reverse = startOf epochs i := by
  unfold startAfter
  rw [head?_reverse]
  cases i with
  | zero => rfl
  | succ i =>
    rw [getLast?_take, startOf]
    simp [getElem?_eq_getElem (show i < epochs.length by omega)]

variable (h : Chain terms winnerFor epochs.reverse)
include h

theorem Chain.epoch_at (he : epochs[i]? = some e) :
    EpochOk terms e ∧ e.epoch = i ∧ startOf epochs i ≤ e.grantedAtMs ∧
      winnerFor (startOf epochs i) e.grantedAtMs = some e.holder := by
  obtain ⟨hi, -⟩ := List.getElem?_eq_some_iff.mp he
  obtain ⟨-, hok, hnum, -, hstart, hwin⟩ := h.at he
  rw [startAfter_take epochs i hi] at hstart hwin
  refine ⟨hok, ?_, hstart, hwin⟩
  rw [hnum, length_reverse, length_take]
  omega

theorem Chain.final_is_last (he : epochs[i]? = some e) (hf : e.isFinal = true) :
    i + 1 = epochs.length := by
  obtain ⟨hi, -⟩ := List.getElem?_eq_some_iff.mp he
  by_contra hne
  have hnext : epochs[i + 1]? = some epochs[i + 1] := getElem?_eq_getElem (by omega)
  obtain ⟨-, -, -, hopen, -, -⟩ := h.at hnext
  have := hopen e (by rw [head?_reverse, getLast?_take]; simp [he])
  rw [hf] at this
  simp at this

theorem Chain.split_final (he : e ∈ epochs) (hf : e.isFinal = true) :
    ∃ earlier, epochs = earlier ++ [e] ∧ ∀ x ∈ earlier, x.isFinal = false := by
  obtain ⟨i, hi⟩ := mem_iff_getElem?.mp he
  have hlast := h.final_is_last hi hf
  have hsplit : epochs = epochs.take i ++ [e] := by
    obtain ⟨hlt, rfl⟩ := List.getElem?_eq_some_iff.mp hi
    rw [← take_succ_eq_append_getElem hlt, hlast, take_length]
  refine ⟨epochs.take i, hsplit, ?_⟩
  intro x hx
  obtain ⟨j, hj⟩ := mem_iff_getElem?.mp hx
  rw [getElem?_take] at hj
  split at hj
  · by_contra hfx
    have := h.final_is_last hj (by simpa using hfx)
    omega
  · simp at hj

theorem Chain.boundary_le {j : Nat} {a b : LeaseEpoch} (hij : i < j) (ha : epochs[i]? = some a)
    (hb : epochs[j]? = some b) : a.boundaryMs ≤ b.grantedAtMs := by
  induction j generalizing b with
  | zero => omega
  | succ j ih =>
    obtain ⟨-, -, hstart, -⟩ := h.epoch_at hb
    obtain ⟨hj, -⟩ := List.getElem?_eq_some_iff.mp hb
    have hmid : epochs[j]? = some epochs[j] := getElem?_eq_getElem (by omega)
    rw [startOf, hmid, elim_some] at hstart
    rcases Nat.lt_or_ge i j with hlt | hge
    · have h1 := ih hlt hmid
      have h2 := (h.epoch_at hmid).1.granted_le_boundary
      omega
    · obtain rfl : i = j := by omega
      rw [hmid] at ha
      obtain rfl := some.inj ha
      exact hstart

end Read

/-! ## Resuming from a completed epoch -/

/-- The earliest end that the facts hold for the epoch is not a completion and comes before
the end that the epoch has. -/
def Reopens (e : LeaseEpoch) : Prop :=
  ∃ atMs op fact, (g.scan e).earliestEnd = some (atMs, op, fact) ∧ fact.isFinal = false ∧
    fact.atMs < e.boundaryMs

theorem clampSeen_ended : (clampSeen e).ended = e.ended := by
  unfold clampSeen
  split <;> rfl

theorem withHeartbeat_ended (e : LeaseEpoch) : (withHeartbeat s e).ended = e.ended := by
  unfold withHeartbeat
  split <;> rfl

variable {g : GatheredLeases} {e} {terms : LeaseTerms}
  {winnerFor : Nat → Nat → Option Bytes32}

theorem applyFactsTo_final (hf : e.isFinal = true)
    (h : ¬ Reopens g e) : (g.applyFactsTo e).isFinal = true := by
  cases hheld : e.ended with
  | none => simp [LeaseEpoch.isFinal, hheld] at hf
  | some held =>
    have hbound : e.boundaryMs = held.atMs := by rw [LeaseEpoch.boundaryMs, hheld]; rfl
    unfold GatheredLeases.applyFactsTo LeaseEpoch.isFinal
    rw [clampSeen_ended]
    unfold withEnd
    rw [withHeartbeat_ended, hheld]
    cases hend : (g.scan e).earliestEnd with
    | none =>
      simpa [withHeartbeat_ended, LeaseEpoch.isFinal] using hf
    | some earliest =>
      obtain ⟨atMs, op, fact⟩ := earliest
      by_cases hlt : fact.atMs < held.atMs
      · have hfinal : fact.isFinal = true := by
          by_contra hnot
          exact h ⟨atMs, op, fact, hend, by simpa using hnot, hbound ▸ hlt⟩
        simpa [hlt] using hfinal
      · simpa [hlt, withHeartbeat_ended, LeaseEpoch.isFinal] using hf

theorem resolve_completed (earlier : List LeaseEpoch)
    (hf : e.isFinal = true) (h : ¬ Reopens g e) :
    g.resolve ⟨earlier ++ [e]⟩ terms winnerFor = ⟨earlier ++ [g.applyFactsTo e]⟩ := by
  have happly : g.applyFacts ⟨earlier ++ [e]⟩ = ⟨earlier ++ [g.applyFactsTo e]⟩ :=
    applyFacts_push g ⟨earlier⟩ e
  unfold GatheredLeases.resolve
  rw [happly]
  apply tryGrants_none
  intro grant _ boundary hadm
  have hopen := ((nextEpoch_iff _ _ _).mp hadm.next).1 (g.applyFactsTo e) (by simp)
  rw [applyFactsTo_final hf h] at hopen
  simp at hopen

structure ChainSafe (terms : LeaseTerms) (winnerFor : Nat → Nat → Option Bytes32)
    (epochs : List LeaseEpoch) : Prop where
  numbered : ∀ (i : Nat) e, epochs[i]? = some e → e.epoch = i
  window : ∀ (i : Nat) e, epochs[i]? = some e →
    e.grantedAtMs < e.expiresAtMs ∧ e.expiresAtMs - e.grantedAtMs ≤ terms.maxDurationMs
  held_by_winner : ∀ (i : Nat) e, epochs[i]? = some e →
    winnerFor (startOf epochs i) e.grantedAtMs = some e.holder
  starts_after : ∀ (i : Nat) a b, epochs[i]? = some a → epochs[i + 1]? = some b →
    a.boundaryMs ≤ b.grantedAtMs
  seen_inside : ∀ (i : Nat) e, epochs[i]? = some e →
    e.grantedAtMs ≤ e.lastSeenMs ∧ e.lastSeenMs ≤ e.expiresAtMs
  ends_inside : ∀ (i : Nat) e, epochs[i]? = some e → ∀ f, e.ended = some f →
    e.grantedAtMs ≤ f.atMs ∧ f.atMs ≤ e.expiresAtMs ∧ e.lastSeenMs ≤ f.atMs
  completed_last : ∀ (i : Nat) e, epochs[i]? = some e → ∀ t, e.ended = some (.completed t) →
    i + 1 = epochs.length
  disjoint : ∀ (i j : Nat) a b, i ≠ j → epochs[i]? = some a → epochs[j]? = some b → ∀ t,
    ¬ ((a.grantedAtMs ≤ t ∧ t < a.boundaryMs) ∧ (b.grantedAtMs ≤ t ∧ t < b.boundaryMs))

theorem Chain.safe (h : Chain terms winnerFor epochs.reverse) :
    ChainSafe terms winnerFor epochs where
  numbered _ _ he := (h.epoch_at he).2.1
  window _ _ he := ⟨(h.epoch_at he).1.opens, (h.epoch_at he).1.bounded⟩
  held_by_winner _ _ he := (h.epoch_at he).2.2.2
  starts_after i _ _ ha hb := h.boundary_le (Nat.lt_succ_self i) ha hb
  seen_inside _ _ he := (h.epoch_at he).1.seen
  ends_inside _ _ he := (h.epoch_at he).1.ends
  completed_last _ e he t ht := by
    apply h.final_is_last he
    simp [LeaseEpoch.isFinal, ht, LeaseEnd.isFinal]
  disjoint i j a b hij ha hb t ht := by
    rcases Nat.lt_or_gt_of_ne hij with hlt | hgt
    · have := h.boundary_le hlt ha hb; omega
    · have := h.boundary_le hgt hb ha; omega

theorem lease_chain_safe (g : GatheredLeases) (terms : LeaseTerms)
    (winnerFor : Nat → Nat → Option Bytes32) :
    ChainSafe terms winnerFor (g.resolve {} terms winnerFor).epochs :=
  (resolve_chain g terms winnerFor).safe

end Mere.Mesh
