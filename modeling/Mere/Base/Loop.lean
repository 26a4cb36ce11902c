import Mathlib

/-!
# Loops

A loop that goes from state to state until there is no next one: the states it passes, and the one
it stops at.
-/

namespace Mere

open List Option Finset Relation

variable {S K : Type} (step : S → Option S)

def settle : Nat → S → S
  | 0, s => s
  | n + 1, s =>
    match step s with
    | none => s
    | some s' => settle n s'

def trail : Nat → S → List S
  | 0, s => [s]
  | n + 1, s =>
    match step s with
    | none => [s]
    | some s' => s :: trail n s'

def Next (s s' : S) : Prop := step s = some s'

variable {step} {n m : Nat} {s s' : S}

theorem settle_none (h : step s = none) : settle step n s = s := by
  cases n with
  | zero => rfl
  | succ n => rw [settle, h]

theorem settle_some (h : step s = some s') : settle step (n + 1) s = settle step n s' := by
  rw [settle, h]

theorem trail_none (h : step s = none) : trail step n s = [s] := by
  cases n with
  | zero => rfl
  | succ n => rw [trail, h]

theorem trail_some (h : step s = some s') : trail step (n + 1) s = s :: trail step n s' := by
  rw [trail, h]

theorem getLast?_trail : (trail step n s).getLast? = some (settle step n s) := by
  induction n generalizing s with
  | zero => rfl
  | succ n ih =>
    cases h : step s with
    | none => rw [trail_none h, settle_none h]; rfl
    | some s' => rw [trail_some h, settle_some h, getLast?_cons, ih]; rfl

theorem head?_trail : (trail step n s).head? = some s := by
  cases n with
  | zero => rfl
  | succ n =>
    cases h : step s with
    | none => rw [trail_none h]; rfl
    | some s' => rw [trail_some h]; rfl

theorem singleton_isPrefix_trail : [s] <+: trail step n s := by
  obtain ⟨rest, hrest⟩ := head?_eq_some_iff.mp (@head?_trail S step n s)
  rw [hrest]
  exact prefix_append [s] rest

theorem mem_trail {a : S} (h : a ∈ trail step n s) : ReflTransGen (Next step) s a := by
  induction n generalizing s with
  | zero => exact List.mem_singleton.mp h ▸ .refl
  | succ n ih =>
    cases hs : step s with
    | none =>
      rw [trail_none hs, List.mem_singleton] at h
      exact h ▸ .refl
    | some s' =>
      rw [trail_some hs, List.mem_cons] at h
      rcases h with rfl | h
      · exact .refl
      · exact .head hs (ih h)

theorem settle_reaches : ReflTransGen (Next step) s (settle step n s) :=
  mem_trail (mem_of_getLast? getLast?_trail)

theorem reaches_settle {a : S} (h : a ∈ trail step n s) :
    ReflTransGen (Next step) a (settle step n s) := by
  induction n generalizing s with
  | zero => exact List.mem_singleton.mp h ▸ .refl
  | succ n ih =>
    cases hs : step s with
    | none =>
      rw [trail_none hs, List.mem_singleton] at h
      rw [settle_none hs, h]
    | some s' =>
      rw [trail_some hs, List.mem_cons] at h
      rw [settle_some hs]
      rcases h with rfl | h
      · exact .head hs settle_reaches
      · exact ih h

theorem pairwise_trail : (trail step n s).Pairwise (TransGen (Next step)) := by
  induction n generalizing s with
  | zero => exact pairwise_singleton _ _
  | succ n ih =>
    cases hs : step s with
    | none =>
      rw [trail_none hs]
      exact pairwise_singleton _ _
    | some s' =>
      rw [trail_some hs]
      exact pairwise_cons.mpr ⟨fun a ha => .head' hs (mem_trail ha), ih⟩

/-! ## Stopping -/

/-- Where the states that the loop leaves hold different keys, each in `keys`, it stops. -/
theorem step_settle (key : S → K)
    (hdistinct : ∀ a b, TransGen (Next step) a b → key a ≠ key b) [DecidableEq K]
    (keys : Finset K) (hkeys : ∀ a, ReflTransGen (Next step) s a → step a ≠ none →
      key a ∈ keys) (hn : keys.card ≤ n) : step (settle step n s) = none := by
  induction n generalizing s keys with
  | zero =>
    by_contra hstep
    have := hkeys s .refl hstep
    rw [card_eq_zero.mp (Nat.le_zero.mp hn)] at this
    exact absurd this (notMem_empty _)
  | succ n ih =>
    cases h : step s with
    | none => rwa [settle_none h]
    | some s' =>
      rw [settle_some h]
      have hmem := hkeys s .refl (by rw [h]; exact some_ne_none s')
      -- The key of `s` does not come again.
      refine ih (keys.erase (key s)) (fun a ha hstep => ?_) ?_
      · have hfrom : TransGen (Next step) s a := TransGen.head' h ha
        exact mem_erase.mpr ⟨(hdistinct s a hfrom).symm, hkeys a hfrom.to_reflTransGen hstep⟩
      · rw [card_erase_of_mem hmem]
        omega

theorem step_settle_of_measure {P : S → Prop} (measure : S → Nat)
    (hstep : ∀ a b, P a → step a = some b → P b ∧ measure b < measure a) (hs : P s)
    (hn : measure s ≤ n) : step (settle step n s) = none := by
  induction n generalizing s with
  | zero =>
    cases h : step s with
    | none => exact h
    | some s' =>
      have hlt := (hstep s s' hs h).2
      omega
  | succ n ih =>
    cases h : step s with
    | none => rwa [settle_none h]
    | some s' =>
      obtain ⟨hs', hlt⟩ := hstep s s' hs h
      rw [settle_some h]
      exact ih hs' (by omega)

theorem settle_keeps {P : S → Prop} (hstep : ∀ a b, P a → step a = some b → P b) (hs : P s) :
    P (settle step n s) := by
  have hreaches : ReflTransGen (Next step) s (settle step n s) := settle_reaches
  generalize settle step n s = last at hreaches
  induction hreaches with
  | refl => exact hs
  | tail _ hnext ih => exact hstep _ _ ih hnext

theorem trail_of_stopped (h : step (settle step n s) = none) (hm : n ≤ m) :
    trail step m s = trail step n s := by
  induction n generalizing s m with
  | zero => exact trail_none h
  | succ n ih =>
    cases hs : step s with
    | none => rw [trail_none hs, trail_none hs]
    | some s' =>
      obtain ⟨m, rfl⟩ : ∃ k, m = k + 1 := ⟨m - 1, by omega⟩
      rw [settle_some hs] at h
      rw [trail_some hs, trail_some hs, ih h (by omega)]

theorem settle_of_stopped (h : step (settle step n s) = none) (hm : n ≤ m) :
    settle step m s = settle step n s := by
  have hlast : (trail step m s).getLast? = some (settle step m s) := getLast?_trail
  rw [trail_of_stopped h hm, getLast?_trail] at hlast
  exact (some.inj hlast).symm

/-! ## Two loops -/

theorem trail_isPrefix {f g : S → Option S} (hn : n ≤ m)
    (h : ∀ a b, a ∈ trail f n s → a ∈ trail g m s → f a = some b → g a = some b) :
    trail f n s <+: trail g m s := by
  induction n generalizing s m with
  | zero => exact singleton_isPrefix_trail
  | succ n ih =>
    cases hf : f s with
    | none =>
      rw [trail_none hf]
      exact singleton_isPrefix_trail
    | some s' =>
      obtain ⟨m, rfl⟩ : ∃ k, m = k + 1 := ⟨m - 1, by omega⟩
      have hhead : s ∈ trail g (m + 1) s := singleton_isPrefix_trail.subset mem_cons_self
      rw [trail_some hf] at h ⊢
      have hg := h s s' mem_cons_self hhead hf
      rw [trail_some hg] at h ⊢
      refine (prefix_cons_inj s).mpr (ih (by omega) fun a b ha hb => ?_)
      exact h a b (mem_cons_of_mem s ha) (mem_cons_of_mem s hb)

/-- Two loops that stop, and that take the same step wherever they came the same way, are one. -/
theorem trail_eq {f g : S → Option S} (hf : f (settle f n s) = none) (hg : g (settle g m s) = none)
    (h : ∀ before a, before ++ [a] <+: trail f n s → before ++ [a] <+: trail g m s → f a = g a) :
    trail f n s = trail g m s := by
  induction n generalizing s m with
  | zero =>
    have hsame := h [] s singleton_isPrefix_trail singleton_isPrefix_trail
    have hs : f s = none := hf
    rw [trail_none hs, trail_none (hsame ▸ hs)]
  | succ n ih =>
    have hsame := h [] s singleton_isPrefix_trail singleton_isPrefix_trail
    cases hs : f s with
    | none => rw [trail_none hs, trail_none (hsame ▸ hs)]
    | some s' =>
      have hs' : g s = some s' := hsame ▸ hs
      cases m with
      | zero => exact absurd (hs'.symm.trans hg) (some_ne_none s')
      | succ m =>
        rw [settle_some hs] at hf
        rw [settle_some hs'] at hg
        rw [trail_some hs, trail_some hs'] at h ⊢
        refine congrArg (s :: ·) (ih hf hg fun before a hbefore hbefore' => ?_)
        exact h (s :: before) a ((prefix_cons_inj s).mpr hbefore)
          ((prefix_cons_inj s).mpr hbefore')

end Mere
