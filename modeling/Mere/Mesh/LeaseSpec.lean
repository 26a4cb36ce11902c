import Mere.Mesh.LeaseChain

/-!
# The chain that the signed facts determine

The epochs without a walk: epoch `n` is opened by the first grant numbered `n` that is good after
epoch `n - 1` ended.
-/

namespace Mere.Mesh

open OrdMap GatheredLeases List Option

section Spec

variable (g : GatheredLeases) (terms : LeaseTerms) (winnerFor : Nat → Nat → Option Bytes32)

structure Eligible (n boundary : Nat) (grant : GrantFact) : Prop where
  mem : grant ∈ vals g.grants
  number : grant.epoch = n
  after : boundary ≤ grant.grantedAtMs
  opens : grant.grantedAtMs < grant.expiresAtMs
  bounded : grant.expiresAtMs - grant.grantedAtMs ≤ terms.maxDurationMs
  winner : winnerFor boundary grant.grantedAtMs = some grant.author

def Opens (n boundary : Nat) (grant : GrantFact) : Prop :=
  Eligible g terms winnerFor n boundary grant ∧
    ∀ x, Eligible g terms winnerFor n boundary x → grantLe grant x

/-- Epoch `n`, with its holder's facts applied. The number is a `u32`. -/
inductive Determined : Nat → LeaseEpoch → Prop
  | first {grant : GrantFact} :
      Opens g terms winnerFor 0 0 grant → Determined 0 (g.applyFactsTo (openedBy grant))
  | next {n : Nat} {e : LeaseEpoch} {grant : GrantFact} :
      Determined n e → e.isFinal = false → n + 1 < 2 ^ 32 →
      Opens g terms winnerFor (n + 1) e.boundaryMs grant →
      Determined (n + 1) (g.applyFactsTo (openedBy grant))

end Spec

section Walk

variable {g : GatheredLeases} {terms : LeaseTerms} {winnerFor : Nat → Nat → Option Bytes32}
variable {r : LeaseRecord} {grant : GrantFact} {n boundary : Nat}

/-! ## One round -/

theorem nextEpoch_lt (h : r.nextEpoch = some (n, boundary)) : n < 2 ^ 32 := by
  obtain ⟨-, -, hn⟩ := (nextEpoch_iff _ _ _).mp h
  rw [hn]
  cases r.epochs.reverse.head? with
  | none => simp
  | some last => exact Nat.mod_lt _ (by decide)

/-- Short of the counter's range, the next number is the length of the chain. -/
theorem Chain.nextEpoch_iff (h : Chain terms winnerFor r.epochs.reverse)
    (hlen : r.epochs.length < 2 ^ 32) :
    r.nextEpoch = some (n, boundary) ↔
      (∀ last, r.epochs.reverse.head? = some last → last.isFinal = false) ∧
        boundary = startAfter r.epochs.reverse ∧ n = r.epochs.length := by
  rw [Mere.Mesh.nextEpoch_iff]
  have hnum : (r.epochs.reverse.head?.elim 0 (fun last => succ32 last.epoch)) = r.epochs.length := by
    cases hl : r.epochs.reverse.head? with
    | none =>
      simp_all
    | some last =>
      have hlast := head_number h last hl
      rw [length_reverse] at hlast
      rw [elim_some, succ32, hlast, Nat.mod_eq_of_lt hlen]
  rw [hnum]

theorem admitted_iff_eligible (hmem : grant ∈ vals g.grants)
    (hnext : r.nextEpoch = some (n, boundary)) :
    Admitted terms winnerFor r grant boundary ↔ Eligible g terms winnerFor n boundary grant := by
  constructor
  · intro h
    have heq := hnext.symm.trans h.next
    simp only [some.injEq, Prod.mk.injEq, and_true] at heq
    exact ⟨hmem, heq.symm, h.after, h.opens, h.bounded, h.winner⟩
  · intro h
    exact ⟨by rw [hnext, h.number], h.after, h.opens, h.bounded, h.winner⟩

/-- What the walk has built when `done` are behind it. Only a counter that wrapped could
number an epoch like a grant that was passed. -/
structure Walked (g : GatheredLeases) (terms : LeaseTerms)
    (winnerFor : Nat → Nat → Option Bytes32) (done : List GrantFact) (r : LeaseRecord) : Prop where
  chain : Chain terms winnerFor r.epochs.reverse
  sound : ∀ (n : Nat) e, r.epochs[n]? = some e → Determined g terms winnerFor n e
  passed : r.epochs.length < 2 ^ 32 → ∀ x ∈ done, ∀ b, ¬ Admitted terms winnerFor r x b

theorem Determined.push
    (hsound : ∀ (n : Nat) e, r.epochs[n]? = some e → Determined g terms winnerFor n e)
    (hopen : ∀ last, r.epochs.reverse.head? = some last → last.isFinal = false)
    (hlen : r.epochs.length < 2 ^ 32)
    (h : Opens g terms winnerFor r.epochs.length (startAfter r.epochs.reverse) grant) :
    Determined g terms winnerFor r.epochs.length (g.applyFactsTo (openedBy grant)) := by
  rcases eq_nil_or_concat r.epochs with hr | ⟨earlier, last, hr⟩
  · rw [hr] at h ⊢
    exact .first h
  · rw [concat_eq_append] at hr
    rw [hr] at hopen hlen h ⊢
    simp only [reverse_append, reverse_singleton, singleton_append, head?_cons,
      some.injEq, forall_eq', startAfter, elim_some, length_append,
      length_singleton] at hopen hlen h ⊢
    exact .next (hsound earlier.length last (by rw [hr]; simp)) hopen hlen h

theorem Admitted.number (hadm : Admitted terms winnerFor r grant boundary)
    (h : Chain terms winnerFor r.epochs.reverse)
    (hahead : ∀ last, r.epochs.reverse.head? = some last → last.epoch ≤ grant.epoch) :
    grant.epoch = r.epochs.length := by
  have hchain := chain_push (g := {}) h hadm hahead
  rw [reverse_append, reverse_singleton, singleton_append] at hchain
  have hnum := hchain.2.2.1
  rw [length_reverse] at hnum
  exact hnum

variable {done rest : List GrantFact}

section

variable (hpend : g.pending = done ++ grant :: rest)
include hpend

theorem pending_split :
    grant ∈ vals g.grants ∧ (∀ x ∈ done, grantLe x grant) ∧ ∀ x ∈ rest, grantLe grant x := by
  have hsorted : (done ++ grant :: rest).Pairwise grantLe := by
    rw [← hpend]
    exact pairwise_insertionSort grantLe _
  rw [pairwise_append, pairwise_cons] at hsorted
  refine ⟨?_, fun x hx => hsorted.2.2 x hx grant mem_cons_self, hsorted.2.1.1⟩
  rw [← mem_pending, hpend]
  simp

theorem Walked.opens (h : Walked g terms winnerFor done r) (hlen : r.epochs.length < 2 ^ 32)
    (hnum : grant.epoch = r.epochs.length) (hadm : Admitted terms winnerFor r grant boundary) :
    Opens g terms winnerFor r.epochs.length boundary grant := by
  obtain ⟨hmem, -, hafter⟩ := pending_split hpend
  have hnext : r.nextEpoch = some (r.epochs.length, boundary) := hnum ▸ hadm.next
  refine ⟨(admitted_iff_eligible hmem hnext).mp hadm, ?_⟩
  intro x hx
  have hmx := hx.mem
  rw [← mem_pending, hpend, mem_append, mem_cons] at hmx
  rcases hmx with hdone | rfl | hrest
  · exact absurd ((admitted_iff_eligible hx.mem hnext).mpr hx) (h.passed hlen x hdone boundary)
  · exact (Std.Total.total x x).elim id id
  · exact hafter x hrest

theorem Walked.step (h : Walked g terms winnerFor done r) (hahead : Ahead r (grant :: rest)) :
    Walked g terms winnerFor (done ++ [grant]) (g.tryGrant terms winnerFor r grant) := by
  by_cases hadm : ∃ b, Admitted terms winnerFor r grant b
  · obtain ⟨b, hadm⟩ := hadm
    have hlast := fun last hl => hahead last hl grant mem_cons_self
    have hnum := hadm.number h.chain hlast
    have hlen : r.epochs.length < 2 ^ 32 := hnum ▸ nextEpoch_lt hadm.next
    have hchain := chain_push (g := g) h.chain hadm hlast
    obtain ⟨hopen, rfl, -⟩ := (h.chain.nextEpoch_iff hlen).mp hadm.next
    rw [tryGrant_of_admitted hadm]
    refine ⟨hchain, ?_, ?_⟩
    · intro n e he
      rcases Nat.lt_or_ge n r.epochs.length with hlt | hge
      · rw [getElem?_append_left hlt] at he
        exact h.sound n e he
      · rw [getElem?_append_right hge, getElem?_singleton] at he
        split at he
        · obtain rfl := some.inj he
          obtain rfl : n = r.epochs.length := by omega
          exact .push h.sound hopen hlen (h.opens hpend hlen hnum hadm)
        · simp at he
    · -- The next number is above that of every grant passed so far.
      intro hlen' x hx b' hadm'
      obtain ⟨-, -, hn⟩ := (hchain.nextEpoch_iff hlen').mp hadm'.next
      rw [length_append, length_singleton] at hn
      have hle : x.epoch ≤ grant.epoch := by
        rcases mem_append.mp hx with hdone | hx
        · exact grantLe_epoch ((pending_split hpend).2.1 x hdone)
        · rw [mem_singleton.mp hx]
      omega
  · have hnone : ∀ b, ¬ Admitted terms winnerFor r grant b := fun b hb => hadm ⟨b, hb⟩
    rw [tryGrant_of_not_admitted hnone]
    refine ⟨h.chain, h.sound, ?_⟩
    intro hlen x hx
    rcases mem_append.mp hx with hdone | hx
    · exact h.passed hlen x hdone
    · rw [mem_singleton.mp hx]
      exact hnone

end

/-! ## The whole walk -/

theorem Walked.run (hpend : g.pending = done ++ rest)
    (h : Walked g terms winnerFor done r) (hahead : Ahead r rest) :
    Walked g terms winnerFor g.pending (rest.foldl (g.tryGrant terms winnerFor) r) := by
  induction rest generalizing done r with
  | nil =>
    rw [append_nil] at hpend
    exact hpend ▸ h
  | cons grant rest ih =>
    have hsorted := pending_sorted g
    rw [hpend, pairwise_append, pairwise_cons] at hsorted
    exact ih (by rw [hpend, append_assoc]; rfl) (h.step hpend hahead)
      (tryGrant_ahead g terms winnerFor r grant rest hsorted.2.1.1 hahead)

theorem walked_resolve (g : GatheredLeases) (terms : LeaseTerms)
    (winnerFor : Nat → Nat → Option Bytes32) :
    Walked g terms winnerFor g.pending (g.resolve {} terms winnerFor) := by
  have hempty : g.applyFacts {} = {} := rfl
  unfold GatheredLeases.resolve
  rw [hempty]
  refine Walked.run (nil_append _).symm ?_ ?_
  · exact ⟨trivial, fun n e he => by simp at he, fun _ x hx => by simp at hx⟩
  · intro last hl
    simp at hl

theorem Walked.stuck (h : Walked g terms winnerFor g.pending r) (hlen : r.epochs.length < 2 ^ 32)
    (hopen : ∀ last, r.epochs.reverse.head? = some last → last.isFinal = false)
    (grant : GrantFact) :
    ¬ Opens g terms winnerFor r.epochs.length (startAfter r.epochs.reverse) grant := by
  intro hopens
  have hnext := (h.chain.nextEpoch_iff hlen).mpr ⟨hopen, rfl, rfl⟩
  have hmem := hopens.1.mem
  exact h.passed hlen grant ((mem_pending g grant).mpr hmem) _
    ((admitted_iff_eligible hmem hnext).mpr hopens.1)

end Walk

/-! ## The epochs, and the walk -/

theorem grantLe_antisymm {a b : GrantFact} (hab : grantLe a b) (hba : grantLe b a) :
    a.operation = b.operation := by
  unfold grantLe at hab hba
  rcases hab with h1 | ⟨h1, h2 | ⟨h2, h3⟩⟩
  · omega
  · omega
  · rcases hba with k1 | ⟨k1, k2 | ⟨k2, k3⟩⟩
    · omega
    · omega
    · exact le_antisymm h3 k3

section Keyed

variable {g : GatheredLeases} {terms : LeaseTerms} {winnerFor : Nat → Nat → Option Bytes32}
  (hkeys : ∀ (k : Bytes32) (x : GrantFact), g.grants[k]? = some x → x.operation = k)
include hkeys

theorem vals_grants_inj {a b : GrantFact} (ha : a ∈ vals g.grants) (hb : b ∈ vals g.grants)
    (h : a.operation = b.operation) : a = b := by
  obtain ⟨k, hk⟩ := (mem_vals _ _).mp ha
  obtain ⟨k', hk'⟩ := (mem_vals _ _).mp hb
  have hkk : k = k' := by rw [← hkeys k a hk, ← hkeys k' b hk', h]
  rw [hkk, hk'] at hk
  exact (some.inj hk).symm

theorem Opens.unique {n boundary : Nat} {x y : GrantFact}
    (hx : Opens g terms winnerFor n boundary x)
    (hy : Opens g terms winnerFor n boundary y) : x = y :=
  vals_grants_inj hkeys hx.1.mem hy.1.mem (grantLe_antisymm (hx.2 y hy.1) (hy.2 x hx.1))

theorem Determined.unique {n : Nat} {e e' : LeaseEpoch} (h : Determined g terms winnerFor n e)
    (h' : Determined g terms winnerFor n e') : e = e' := by
  induction h generalizing e' with
  | first hopens =>
    cases h' with
    | first hopens' => rw [hopens.unique hkeys hopens']
  | next _ _ _ hopens ih =>
    cases h' with
    | next hprev _ _ hopens' =>
      obtain rfl := ih hprev
      rw [hopens.unique hkeys hopens']

theorem resolve_complete {n : Nat} {e : LeaseEpoch} (h : Determined g terms winnerFor n e) :
    (g.resolve {} terms winnerFor).epochs[n]? = some e := by
  have hwalk := walked_resolve g terms winnerFor
  generalize g.resolve {} terms winnerFor = r at hwalk ⊢
  have hfound : ∀ n e, Determined g terms winnerFor n e → n < r.epochs.length →
      r.epochs[n]? = some e := by
    intro n e he hn
    have hget := getElem?_eq_getElem hn
    rw [hget, (hwalk.sound n _ hget).unique hkeys he]
  apply hfound n e h
  -- A chain that ends before `n` would have taken the grant that opens its next epoch.
  induction h with
  | @first grant hopens =>
    by_contra hlen
    have hnil : r.epochs = [] := eq_nil_of_length_eq_zero (by omega)
    refine hwalk.stuck (by simp [hnil]) (by simp [hnil]) grant ?_
    rw [hnil]
    exact hopens
  | @next n e grant hprev hopen hn hopens ih =>
    by_contra hend
    have hlen : r.epochs.length = n + 1 := by omega
    have hlast : r.epochs.reverse.head? = some e := by
      rw [head?_reverse, getLast?_eq_getElem?, hlen]
      exact hfound n e hprev ih
    have hstart : startAfter r.epochs.reverse = e.boundaryMs := by rw [startAfter, hlast]; rfl
    refine hwalk.stuck (hlen ▸ hn) ?_ grant (hlen ▸ hstart ▸ hopens)
    rintro last hl
    obtain rfl := some.inj (hlast.symm.trans hl)
    exact hopen

theorem resolve_determined (n : Nat) (e : LeaseEpoch) :
    (g.resolve {} terms winnerFor).epochs[n]? = some e ↔ Determined g terms winnerFor n e :=
  ⟨(walked_resolve g terms winnerFor).sound n e, resolve_complete hkeys⟩

end Keyed

end Mere.Mesh
