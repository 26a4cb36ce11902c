import Mere.Muniment.Journal

/-!
# Causes and effects

One query walks the recorded links breadth first, the other passes over the log once. Both
answer the same relation: a non-empty chain of links.
-/

open Std (ExtTreeSet)

namespace Mere.Journal

open List Finset Relation

variable {T : Type} (j : Journal T) (seq : Nat)

/-! ## Causes -/

theorem parents_below_links :
    (j.parentsOf seq).length + ∑ i ∈ Finset.range seq, (j.parentsOf i).length ≤ j.links := by
  rw [add_comm, ← Finset.sum_range_succ]
  -- Past the end of the log nothing is recorded.
  have hzero : ∀ i ∈ Finset.range (seq + 1), i ∉ Finset.range j.len →
      (j.parentsOf i).length = 0 := by
    intro i _ hi
    rw [j.parentsOf_of_len_le (by simpa using hi)]
    rfl
  have hsplit := Finset.sum_filter_add_sum_filter_not (Finset.range (seq + 1))
    (fun i => i ∈ Finset.range j.len) (fun i => (j.parentsOf i).length)
  have hnone : ∑ i ∈ (Finset.range (seq + 1)).filter (fun i => i ∉ Finset.range j.len),
      (j.parentsOf i).length = 0 :=
    Finset.sum_eq_zero fun i hi => hzero i (Finset.mem_filter.mp hi).1 (Finset.mem_filter.mp hi).2
  rw [← hsplit, hnone, add_zero]
  exact Finset.sum_le_sum_of_subset fun i hi => (Finset.mem_filter.mp hi).2

theorem walkCauses_ends : ∃ order, j.walkCauses seq = some order := by
  refine breadth_ends (Finset.range seq) ?_ ?_ ?_
  · intro v hv w hw
    rw [Finset.mem_range] at hv ⊢
    exact lt_trans (j.lt_of_mem_parentsOf hw) hv
  · intro v hv
    exact Finset.mem_range.mpr (j.lt_of_mem_parentsOf hv)
  · simpa using j.parents_below_links seq

theorem causes_visited : Visited j.parentsOf seq (j.causes seq) := by
  obtain ⟨order, horder⟩ := j.walkCauses_ends seq
  rw [causes, horder]
  exact breadth_visited horder

theorem mem_causes (a b : Nat) : b ∈ j.causes a ↔ TransGen j.Cites a b :=
  ((j.causes_visited a).mem_iff b).trans (transGen_iff_links a b).symm

/-! ## Effects -/

theorem mem_reach (reached : ExtTreeSet Nat) (entry x : Nat) :
    x ∈ j.reach reached entry ↔
      x ∈ reached ∨ x = entry ∧ ∃ p, j.Cites entry p ∧ p ∈ reached := by
  have hany : (j.parentsOf entry).any (fun p => reached.contains p) = true ↔
      ∃ p, j.Cites entry p ∧ p ∈ reached := by
    simp only [any_eq_true, ExtTreeSet.contains_iff_mem, Cites]
  unfold reach
  split
  · rename_i h
    simp only [ExtTreeSet.mem_insert, compare_eq_iff_eq, hany.mp h, and_true]
    tauto
  · rename_i h
    rw [hany] at h
    simp [h]

theorem mem_foldl_reach (n x : Nat) :
    x ∈ (List.range' (seq + 1) n).foldl j.reach (ExtTreeSet.ofList [seq]) ↔
      x = seq ∨ x ≤ seq + n ∧ Relation.TransGen j.Cites x seq := by
  induction n generalizing x with
  | zero =>
    simp only [List.range'_zero, List.foldl_nil, ExtTreeSet.mem_ofList, List.contains_iff_mem,
      List.mem_singleton, add_zero]
    refine ⟨.inl, ?_⟩
    rintro (h | ⟨hle, h⟩)
    · exact h
    · exact absurd (j.lt_of_transGen h) (by omega)
  | succ n ih =>
    rw [List.range'_1_concat, List.foldl_append, List.foldl_cons, List.foldl_nil, mem_reach, ih]
    -- The entry of this round is reached where one of its causes is.
    have hentry : (∃ p, j.Cites (seq + 1 + n) p ∧
          p ∈ (List.range' (seq + 1) n).foldl j.reach (ExtTreeSet.ofList [seq])) ↔
        Relation.TransGen j.Cites (seq + 1 + n) seq := by
      rw [Relation.TransGen.head'_iff]
      refine exists_congr fun p => and_congr_right fun hp => ?_
      have hlt := j.lt_of_mem_parentsOf hp
      rw [ih, Relation.reflTransGen_iff_eq_or_transGen]
      constructor
      · rintro (h | ⟨_, h⟩)
        · exact .inl h.symm
        · exact .inr h
      · rintro (h | h)
        · exact .inl h.symm
        · exact .inr ⟨by omega, h⟩
    rw [hentry]
    constructor
    · rintro ((h | ⟨hle, h⟩) | ⟨rfl, h⟩)
      · exact .inl h
      · exact .inr ⟨by omega, h⟩
      · exact .inr ⟨by omega, h⟩
    · rintro (h | ⟨hle, h⟩)
      · exact .inl (.inl h)
      · by_cases hx : x = seq + 1 + n
        · exact .inr ⟨hx, hx ▸ h⟩
        · exact .inl (.inr ⟨by omega, h⟩)

theorem mem_effects (a b : Nat) : a ∈ j.effects b ↔ TransGen j.Cites a b := by
  unfold effects
  rw [ExtTreeSet.mem_toList, ExtTreeSet.mem_erase, mem_foldl_reach]
  simp only [ne_eq, compare_eq_iff_eq]
  constructor
  · rintro ⟨hne, h | ⟨_, h⟩⟩
    · exact absurd h.symm hne
    · exact h
  · intro h
    have hlt := j.lt_of_transGen h
    obtain ⟨c, hc, _⟩ := TransGen.head'_iff.mp h
    have hlen := j.lt_len_of_cites hc
    exact ⟨by omega, .inr ⟨by omega, h⟩⟩

theorem effects_ascending (b : Nat) : (j.effects b).Pairwise (· < ·) := by
  have h := ExtTreeSet.ordered_toList
    (t := ((List.range' (b + 1) (j.len - (b + 1))).foldl j.reach (ExtTreeSet.ofList [b])).erase b)
  exact h.imp fun hab => compare_lt_iff_lt.mp hab

/-! ## Duality -/

theorem concurrent_iff (a b : Nat) : j.concurrent a b = true ↔
    a ≠ b ∧ ¬ TransGen j.Cites b a ∧ ¬ TransGen j.Cites a b := by
  simp only [concurrent, Bool.and_eq_true, bne_iff_ne, Bool.not_eq_true', contains_eq_mem,
    decide_eq_false_iff_not, mem_causes, and_assoc]

end Mere.Journal
