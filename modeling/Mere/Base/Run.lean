import Mathlib

/-!
# Runs

Runs of a machine that is given one input after another, each of them one its `allowed`
condition admits in the state it meets.
-/

namespace Mere

open List Option

variable {S A : Type}

inductive Reach (start : S) (step : S → A → Option S) (allowed : S → A → Prop) : S → Prop
  | start : Reach start step allowed start
  | next {s s' : S} {a : A} :
      Reach start step allowed s → allowed s a → step s a = some s' → Reach start step allowed s'

variable {start : S} {step : S → A → Option S} {allowed : S → A → Prop}

theorem Reach.invariant {P : S → Prop} {s : S} (h : Reach start step allowed s) (hstart : P start)
    (hstep : ∀ s s' a, P s → allowed s a → step s a = some s' → P s') : P s := by
  induction h with
  | start => exact hstart
  | next _ hallowed hnext ih => exact hstep _ _ _ ih hallowed hnext

/-- The state a list of inputs leads to. -/
def runs (step : S → A → Option S) : S → List A → Option S
  | s, [] => some s
  | s, a :: rest => (step s a).bind (fun s' => runs step s' rest)

theorem Reach.runs {inputs : List A} {s s' : S} (h : Reach start step allowed s)
    (hrun : Mere.runs step s inputs = some s') (hall : ∀ a ∈ inputs, ∀ s, allowed s a) :
    Reach start step allowed s' := by
  induction inputs generalizing s with
  | nil =>
    obtain rfl := some.inj hrun
    exact h
  | cons a rest ih =>
    obtain ⟨s₁, hstep, hrest⟩ := bind_eq_some_iff.mp hrun
    refine ih (h.next (hall a mem_cons_self s) hstep) hrest ?_
    exact fun b hb => hall b (mem_cons_of_mem _ hb)

theorem mem_mapM_ok {B Err : Type} {f : A → Except Err B} {xs : List A} {ys : List B}
    (h : xs.mapM f = .ok ys) : ∀ y ∈ ys, ∃ x ∈ xs, f x = .ok y := by
  induction xs generalizing ys with
  | nil =>
    cases h
    exact nofun
  | cons x rest ih =>
    rw [mapM_cons] at h
    cases hx : f x with
    | error => rw [hx] at h; cases h
    | ok y =>
      rw [hx] at h
      cases hrest : rest.mapM f with
      | error => rw [hrest] at h; cases h
      | ok ys' =>
        rw [hrest] at h
        cases h
        intro y' hy'
        rcases mem_cons.mp hy' with rfl | hy'
        · exact ⟨x, mem_cons_self, hx⟩
        · obtain ⟨x', hx', hok⟩ := ih hrest y' hy'
          exact ⟨x', mem_cons_of_mem _ hx', hok⟩

theorem keeps_of_chain {R : S → S → Prop} {P : S → Prop} (hR : ∀ s s', R s s' → P s → P s')
    {s s' : S} (h : Relation.ReflTransGen R s s') (hs : P s) : P s' := by
  induction h with
  | refl => exact hs
  | tail _ hlink ih => exact hR _ _ hlink ih

end Mere
