import Mathlib

/-!
# The first that is found

A list kept as a table: the entry that a key names is the first that has it.
-/

namespace Mere

open List

section First

def updateFirst {A : Type} (found : A → Bool) (change : A → A) : List A → List A
  | [] => []
  | a :: as => if found a then change a :: as else a :: updateFirst found change as

/-- The first that meets the condition changed, or a new one at the end. -/
def upsert {A : Type} (found : A → Bool) (change : A → A) (fresh : A) (as : List A) : List A :=
  if as.any found then updateFirst found change as else as ++ [fresh]

variable {A : Type} {found found' : A → Bool} {change change' : A → A} {fresh : A} {as : List A}
variable {other : A → Bool} {bs : List A} {fresh' : A}

theorem any_updateFirst (h : ∀ a, other (change a) = other a) :
    (updateFirst found change as).any other = as.any other := by
  induction as with
  | nil => rfl
  | cons a as ih =>
    unfold updateFirst
    split
    · simp [h]
    · simp [ih]

section

variable (h : ∀ a, found (change a) = found a)
include h

theorem find?_updateFirst :
    (updateFirst found change as).find? found = (as.find? found).map change := by
  induction as with
  | nil => rfl
  | cons a as ih =>
    unfold updateFirst
    by_cases ha : found a
    · rw [if_pos ha, find?_cons_of_pos (by rw [h, ha]), find?_cons_of_pos ha]
      rfl
    · rw [if_neg ha, find?_cons_of_neg ha, find?_cons_of_neg ha, ih]

omit h in
theorem filter_updateFirst (h : ∀ a, found a → other a = false)
    (h' : ∀ a, found a → other (change a) = false) :
    (updateFirst found change as).filter other = as.filter other := by
  induction as with
  | nil => rfl
  | cons a as ih =>
    unfold updateFirst
    by_cases ha : found a
    · rw [if_pos ha, filter_cons_of_neg (by rw [h' a ha]; exact Bool.false_ne_true),
        filter_cons_of_neg (by rw [h a ha]; exact Bool.false_ne_true)]
    · rw [if_neg ha, filter_cons, filter_cons, ih]

omit h in
theorem find?_updateFirst_other (h : ∀ a, found a → other a = false)
    (h' : ∀ a, found a → other (change a) = false) :
    (updateFirst found change as).find? other = as.find? other := by
  rw [← head?_filter, ← head?_filter, filter_updateFirst h h']

omit h in
theorem updateFirst_eq_self (h : ∀ a, as.find? found = some a → change a = a) :
    updateFirst found change as = as := by
  induction as with
  | nil => rfl
  | cons a as ih =>
    unfold updateFirst
    by_cases ha : found a
    · rw [if_pos ha, h a (find?_cons_of_pos ha)]
    · rw [if_neg ha, ih fun b hb => h b (by rw [find?_cons_of_neg ha, hb])]

theorem updateFirst_updateFirst (h' : ∀ a, change' (change a) = change' a) :
    updateFirst found change' (updateFirst found change as) = updateFirst found change' as := by
  induction as with
  | nil => rfl
  | cons a as ih =>
    by_cases ha : found a
    · rw [updateFirst, if_pos ha, updateFirst, if_pos (by rw [h, ha]), updateFirst, if_pos ha, h']
    · rw [updateFirst, if_neg ha, updateFirst, if_neg ha, updateFirst, if_neg ha, ih]

omit h in
theorem updateFirst_comm (hdisjoint : ∀ a, found a → found' a = false)
    (h : ∀ a, found' (change a) = found' a) (h' : ∀ a, found (change' a) = found a) :
    updateFirst found' change' (updateFirst found change as) =
      updateFirst found change (updateFirst found' change' as) := by
  induction as with
  | nil => rfl
  | cons a as ih =>
    by_cases ha : found a
    · have ha' : ¬ found' a := by rw [hdisjoint a ha]; exact Bool.false_ne_true
      have hchanged : ¬ found' (change a) := by rw [h]; exact ha'
      simp only [updateFirst, ha, ha', hchanged, if_true, if_false, Bool.false_eq_true]
    · by_cases ha' : found' a
      · have hchanged : ¬ found (change' a) := by rw [h']; exact ha
        simp only [updateFirst, ha, ha', hchanged, if_true, if_false, Bool.false_eq_true]
      · simp only [updateFirst, ha, ha', if_false, Bool.false_eq_true, ih]

omit h in
theorem updateFirst_append (h : as.any found = true) :
    updateFirst found change (as ++ bs) = updateFirst found change as ++ bs := by
  induction as with
  | nil => exact absurd h Bool.false_ne_true
  | cons a as ih =>
    by_cases ha : found a
    · rw [cons_append, updateFirst, if_pos ha, updateFirst, if_pos ha, cons_append]
    · have has : as.any found = true := by simpa [ha] using h
      rw [cons_append, updateFirst, if_neg ha, updateFirst, if_neg ha, cons_append,
        ih has]

omit h in
theorem updateFirst_append_of_not_any (h : ¬ as.any found = true) :
    updateFirst found change (as ++ bs) = as ++ updateFirst found change bs := by
  induction as with
  | nil => rfl
  | cons a as ih =>
    have ha : ¬ found a := fun ha => h (by simp [ha])
    have has : ¬ as.any found = true := fun has => h (by rw [any_cons, has, Bool.or_true])
    rw [cons_append, updateFirst, if_neg ha, ih has, cons_append]

/-! ## Upserts -/

theorem any_upsert (hfresh : found fresh = true) :
    (upsert found change fresh as).any found = true := by
  unfold upsert
  by_cases hany : as.any found = true
  · rw [if_pos hany, any_updateFirst h, hany]
  · rw [if_neg hany, any_append, any_cons, hfresh, Bool.true_or, Bool.or_true]

omit h in
theorem upsert_eq_self {a : A} (ha : as.find? found = some a) (h : change a = a) :
    upsert found change fresh as = as := by
  have hany : as.any found = true :=
    any_eq_true.mpr ⟨a, mem_of_find?_eq_some ha, find?_some ha⟩
  unfold upsert
  rw [if_pos hany, updateFirst_eq_self]
  intro b hb
  cases ha.symm.trans hb
  exact h

theorem upsert_upsert (h' : ∀ a, change' (change a) = change' a) (hfresh : found fresh = true)
    (hfresh' : change' fresh = fresh') :
    upsert found change' fresh' (upsert found change fresh as) =
      upsert found change' fresh' as := by
  have hany' : (upsert found change fresh as).any found = true := any_upsert h hfresh
  rw [upsert, if_pos hany']
  unfold upsert
  by_cases hany : as.any found = true
  · rw [if_pos hany, if_pos hany, updateFirst_updateFirst h h']
  · rw [if_neg hany, if_neg hany, updateFirst_append_of_not_any hany, updateFirst, if_pos hfresh,
      hfresh']

omit h in
theorem upsert_comm (hany : as.any found = true)
    (hdisjoint : ∀ a, found a → found' a = false) (h : ∀ a, found' (change a) = found' a)
    (h' : ∀ a, found (change' a) = found a) :
    upsert found' change' fresh' (upsert found change fresh as) =
      upsert found change fresh (upsert found' change' fresh' as) := by
  unfold upsert
  rw [if_pos hany, any_updateFirst h]
  by_cases hany' : as.any found' = true
  · rw [if_pos hany', if_pos hany', any_updateFirst h', if_pos hany,
      updateFirst_comm hdisjoint h h']
  · rw [if_neg hany', if_neg hany', any_append, hany, Bool.true_or, if_pos rfl,
      updateFirst_append hany]

theorem find?_upsert (hfresh : found fresh = true) :
    (upsert found change fresh as).find? found = some ((as.find? found).elim fresh change) := by
  unfold upsert
  by_cases hany : as.any found = true
  · rw [if_pos hany, find?_updateFirst h]
    obtain ⟨a, ha⟩ := Option.isSome_iff_exists.mp (by simpa using hany : (as.find? found).isSome)
    rw [ha]
    rfl
  · rw [if_neg hany]
    have hnone : as.find? found = none := by simpa using hany
    rw [find?_append, hnone, find?_cons_of_pos hfresh]
    rfl

end

theorem find?_upsert_other (h : ∀ a, found a → other a = false)
    (h' : ∀ a, found a → other (change a) = false) (hfresh : other fresh = false) :
    (upsert found change fresh as).find? other = as.find? other := by
  unfold upsert
  split
  · exact find?_updateFirst_other h h'
  · rw [find?_append, find?_cons_of_neg (by rw [hfresh]; exact Bool.false_ne_true)]
    simp

end First

end Mere
