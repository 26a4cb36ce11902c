import Mathlib

/-!
# Ordered maps

One value a key, walked in key order: what Rust calls a `BTreeMap`.
-/

open Std (ExtTreeMap)

namespace Mere

/-- A finite map over a linear order. Two maps with the same lookups are equal. -/
abbrev OrdMap (K V : Type) [LinearOrder K] := ExtTreeMap K V compare

namespace OrdMap

variable {K V : Type} [LinearOrder K] (m : OrdMap K V) (l : List (K × V)) (k : K) (v : V)

/-! ## Filling a map -/

def valuesAt (l : List (K × V)) (k : K) : List V :=
  l.filterMap (fun p => if p.1 = k then some p.2 else none)

theorem mem_valuesAt : v ∈ valuesAt l k ↔ (k, v) ∈ l := by
  simp only [valuesAt, List.mem_filterMap, Option.ite_none_right_eq_some, Option.some.injEq]
  constructor
  · rintro ⟨⟨a, b⟩, hmem, rfl, rfl⟩; exact hmem
  · intro h; exact ⟨(k, v), h, rfl, rfl⟩

theorem getElem?_insert (k' : K) (v : V) :
    (m.insert k v)[k']? = if k = k' then some v else m[k']? := by
  rw [ExtTreeMap.getElem?_insert]
  simp only [compare_eq_iff_eq]

theorem insert_insert (w : V) :
    (m.insert k v).insert k w = m.insert k w := by
  refine ExtTreeMap.ext_getElem? fun k' => ?_
  rw [getElem?_insert, getElem?_insert, getElem?_insert]
  split <;> rfl

theorem mem_of_getElem? {m : OrdMap K V} {k : K} {v : V} (h : m[k]? = some v) : k ∈ m := by
  rw [ExtTreeMap.mem_iff_isSome_getElem?, h]
  rfl

theorem getD_insert (k' : K) (v d : V) :
    (m.insert k v).getD k' d = if k = k' then v else m.getD k' d := by
  rw [ExtTreeMap.getD_insert]
  simp only [compare_eq_iff_eq]

theorem getD_update (k' : K) (d : V) (f : V → V) :
    (m.insert k (f (m.getD k d))).getD k' d = if k = k' then f (m.getD k' d) else m.getD k' d := by
  rw [getD_insert]
  split
  · rename_i h; rw [h]
  · rfl

theorem getElem?_insertMany :
    (m.insertMany l)[k]? = (valuesAt l k).getLast?.or m[k]? := by
  induction l using List.reverseRecOn with
  | nil => simp [valuesAt]
  | append_singleton l p ih =>
    rw [ExtTreeMap.insertMany_append, ExtTreeMap.insertMany_list_singleton, getElem?_insert]
    by_cases h : p.1 = k
    · simp [valuesAt, h]
    · simpa [valuesAt, h] using ih

variable {A W : Type}

theorem foldl_view {S : Type} (f : S → A → S) (π : S → OrdMap K V) (view : A → Option (K × V))
    (h : ∀ s a, π (f s a) = (view a).elim (π s) (fun p => (π s).insert p.1 p.2))
    (s : S) (l : List A) :
    π (l.foldl f s) = (π s).insertMany (l.filterMap view) := by
  induction l generalizing s with
  | nil => simp
  | cons a l ih =>
    rw [List.foldl_cons, ih, h]
    cases hv : view a with
    | none => simp [hv]
    | some p =>
      rw [List.filterMap_cons_some hv, ExtTreeMap.insertMany_cons]
      rfl

theorem valuesAt_length_le_one (h : (l.map Prod.fst).Nodup) :
    (valuesAt l k).length ≤ 1 := by
  induction l with
  | nil => simp [valuesAt]
  | cons p l ih =>
    rw [List.map_cons, List.nodup_cons] at h
    by_cases hp : p.1 = k
    · have hnone : valuesAt l k = [] := by
        rw [List.eq_nil_iff_forall_not_mem]
        intro v hv
        exact h.1 (List.mem_map.mpr ⟨(k, v), (mem_valuesAt l k v).mp hv, hp.symm⟩)
      have : valuesAt (p :: l) k = p.2 :: valuesAt l k := by simp [valuesAt, hp]
      rw [this, hnone]; simp
    · have : valuesAt (p :: l) k = valuesAt l k := by simp [valuesAt, hp]
      rw [this]; exact ih h.2

theorem perm_eq_of_length_le_one {l l' : List A} (h : l.Perm l') (hl : l.length ≤ 1) :
    l = l' := by
  match l, hl with
  | [], _ => exact (List.nil_perm.mp h).symm
  | [a], _ => exact List.singleton_perm.mp h

theorem insertMany_perm {l l' : List (K × V)} (h : l.Perm l')
    (hd : (l.map Prod.fst).Nodup) : m.insertMany l = m.insertMany l' := by
  apply ExtTreeMap.ext_getElem?
  intro k
  have hv : valuesAt l k = valuesAt l' k :=
    perm_eq_of_length_le_one (h.filterMap _) (valuesAt_length_le_one l k hd)
  rw [getElem?_insertMany, getElem?_insertMany, hv]

theorem map_getElem?_insertMany_perm {B : Type} {l l' : List (K × V)}
    (h : l'.Perm l) (k : K) (φ : V → B) (hφ : ∀ v w, (k, v) ∈ l → (k, w) ∈ l → φ v = φ w) :
    (m.insertMany l')[k]?.map φ = (m.insertMany l)[k]?.map φ := by
  have hp : (valuesAt l' k).Perm (valuesAt l k) := h.filterMap _
  rw [getElem?_insertMany, getElem?_insertMany]
  cases hv : (valuesAt l k).getLast? with
  | none =>
    rw [List.getLast?_eq_none_iff] at hv
    rw [hv, List.perm_nil] at hp
    rw [hp]; rfl
  | some w =>
    cases hv' : (valuesAt l' k).getLast? with
    | none =>
      rw [List.getLast?_eq_none_iff] at hv'
      rw [hv', List.nil_perm] at hp
      simp [hp] at hv
    | some v =>
      have hmem : v ∈ valuesAt l k := hp.subset (List.mem_of_getLast? hv')
      have := hφ v w ((mem_valuesAt l k v).mp hmem)
        ((mem_valuesAt l k w).mp (List.mem_of_getLast? hv))
      simp [this]

theorem getElem?_insertMany_filterMap_last
    (view : A → Option (K × V)) (l : List A) {a : A} {k : K} {v : V} (hv : view a = some (k, v)) :
    (m.insertMany ((l ++ [a]).filterMap view))[k]? = some v := by
  have hl : (l ++ [a]).filterMap view = l.filterMap view ++ [(k, v)] := by simp [hv]
  rw [hl, ExtTreeMap.insertMany_append, ExtTreeMap.insertMany_list_singleton, getElem?_insert,
    if_pos rfl]

theorem getElem?_insertMany_iff (hd : (l.map Prod.fst).Nodup) (hm : m[k]? = none) :
    (m.insertMany l)[k]? = some v ↔ (k, v) ∈ l := by
  rw [getElem?_insertMany, hm, Option.or_none, ← mem_valuesAt]
  have hl := valuesAt_length_le_one l k hd
  constructor
  · exact List.mem_of_getLast?
  · intro hv
    match hvs : valuesAt l k, hl with
    | [], _ => simp [hvs] at hv
    | [a], _ => rw [hvs] at hv; simp only [List.mem_singleton] at hv; simp [hv]

/-! ## Walking a map -/

def vals (m : OrdMap K V) : List V := m.toList.map Prod.snd

theorem mem_vals : v ∈ vals m ↔ ∃ k : K, m[k]? = some v := by
  simp only [vals, List.mem_map, Prod.exists, exists_eq_right,
    ExtTreeMap.mem_toList_iff_getElem?_eq_some]

theorem toList_sorted : m.toList.Pairwise (fun a b => a.1 < b.1) := by
  have h : m.toList.Pairwise (fun a b => compare a.1 b.1 = .lt) := ExtTreeMap.ordered_keys_toList
  exact h.imp (fun hab => compare_lt_iff_lt.mp hab)

theorem toList_keys_nodup : (m.toList.map Prod.fst).Nodup := by
  rw [List.Nodup, List.pairwise_map]
  exact (toList_sorted m).imp (fun h => ne_of_lt h)

theorem valuesAt_toList : valuesAt m.toList k = m[k]?.toList := by
  have hl := valuesAt_length_le_one m.toList k (toList_keys_nodup m)
  have hmem : ∀ v, v ∈ valuesAt m.toList k ↔ m[k]? = some v := by
    intro v
    rw [mem_valuesAt, ExtTreeMap.mem_toList_iff_getElem?_eq_some]
  match hv : valuesAt m.toList k, hl with
  | [], _ =>
    cases hk : m[k]? with
    | none => rfl
    | some v => have := (hmem v).mpr hk; simp [hv] at this
  | [v], _ =>
    have := (hmem v).mp (by simp [hv])
    simp [this]

theorem filterMap_vals_at (φ : V → Option W)
    (h : ∀ (k' : K) (v : V), m[k']? = some v → k' ≠ k → φ v = none) :
    (vals m).filterMap φ = (m[k]?.bind φ).toList := by
  have hwalk : (vals m).filterMap φ = (valuesAt m.toList k).filterMap φ := by
    unfold vals valuesAt
    rw [List.filterMap_map, List.filterMap_filterMap]
    apply List.filterMap_congr
    rintro ⟨k', v⟩ hmem
    rw [ExtTreeMap.mem_toList_iff_getElem?_eq_some] at hmem
    by_cases hk : k' = k
    · simp [hk]
    · simp [hk, h k' v hmem hk]
  rw [hwalk, valuesAt_toList]
  cases m[k]? with
  | none => rfl
  | some v => cases hv : φ v <;> simp [hv]

theorem getElem?_insertMany_vals (view : V → Option (K × W))
    (h : ∀ (k : K) (v : V) (p : K × W), m[k]? = some v → view v = some p → p.1 = k) (k : K) :
    ((∅ : OrdMap K W).insertMany ((vals m).filterMap view))[k]? =
      m[k]?.bind (fun v => (view v).map Prod.snd) := by
  rw [getElem?_insertMany]
  unfold valuesAt
  rw [List.filterMap_filterMap, filterMap_vals_at m k]
  · cases hk : m[k]? with
    | none => rfl
    | some v =>
      cases hv : view v with
      | none => simp [hv]
      | some p => simp [hv, h k v p hk hv]
  · intro k' v hk' hne
    cases hv : view v with
    | none => rfl
    | some p => simp [h k' v p hk' hv, hne]

theorem getElem?_insertMany_toList (f : K → V → Option W) (k : K) :
    ((∅ : OrdMap K W).insertMany
      (m.toList.filterMap fun p => (f p.1 p.2).map (p.1, ·)))[k]? = m[k]?.bind (f k) := by
  rw [getElem?_insertMany, ExtTreeMap.getElem?_empty, Option.or_none]
  have hwalk : valuesAt (m.toList.filterMap fun p => (f p.1 p.2).map (p.1, ·)) k =
      (valuesAt m.toList k).filterMap (f k) := by
    unfold valuesAt
    rw [List.filterMap_filterMap, List.filterMap_filterMap]
    apply List.filterMap_congr
    rintro ⟨k', v⟩ -
    by_cases hk : k' = k
    · subst hk
      cases hv : f k' v <;> simp [hv]
    · cases hv : f k' v <;> simp [hk]
  rw [hwalk, valuesAt_toList]
  cases m[k]? with
  | none => rfl
  | some v =>
    change ([v].filterMap (f k)).getLast? = f k v
    cases hv : f k v with
    | none => rw [List.filterMap_cons_none hv]; rfl
    | some w => rw [List.filterMap_cons_some hv]; rfl

theorem find_vals (p : V → Bool) (v : V) :
    (vals m).find? p = some v ↔
      ∃ k : K, m[k]? = some v ∧ p v = true ∧
        ∀ (k' : K) (v' : V), m[k']? = some v' → p v' = true → k ≤ k' := by
  rw [vals, List.find?_map, Option.map_eq_some_iff]
  simp only [List.find?_eq_some_iff_append, Function.comp_apply]
  have hs := toList_sorted m
  constructor
  · rintro ⟨⟨k, w⟩, ⟨hp, as, bs, hl, hn⟩, rfl⟩
    rw [hl, List.pairwise_append] at hs
    refine ⟨k, ?_, hp, ?_⟩
    · rw [← ExtTreeMap.mem_toList_iff_getElem?_eq_some, hl]; simp
    · intro k' v' hk' hp'
      rw [← ExtTreeMap.mem_toList_iff_getElem?_eq_some, hl, List.mem_append, List.mem_cons] at hk'
      rcases hk' with hk' | hk' | hk'
      · have := hn _ hk'; simp [hp'] at this
      · rw [Prod.mk.injEq] at hk'; exact le_of_eq hk'.1.symm
      · exact le_of_lt ((List.pairwise_cons.mp hs.2.1).1 _ hk')
  · rintro ⟨k, hk, hp, hmin⟩
    rw [← ExtTreeMap.mem_toList_iff_getElem?_eq_some] at hk
    obtain ⟨as, bs, hl⟩ := List.append_of_mem hk
    refine ⟨(k, v), ⟨hp, as, bs, hl, ?_⟩, rfl⟩
    intro a ha
    rw [hl, List.pairwise_append] at hs
    have hlt : a.1 < k := hs.2.2 a ha (k, v) List.mem_cons_self
    have hmem : (a.1, a.2) ∈ m.toList := by rw [hl]; exact List.mem_append_left _ ha
    rw [ExtTreeMap.mem_toList_iff_getElem?_eq_some] at hmem
    by_contra hc
    exact absurd (hmin a.1 a.2 hmem (by simpa using hc)) (not_le.mpr hlt)

theorem head_vals :
    (vals m).head? = some v ↔
      ∃ k : K, m[k]? = some v ∧ ∀ (k' : K) (v' : V), m[k']? = some v' → k ≤ k' := by
  have h : (vals m).head? = (vals m).find? (fun _ => true) := by
    cases vals m <;> simp
  rw [h, find_vals]
  simp

theorem head_vals_none :
    (vals m).head? = none ↔ ∀ k : K, m[k]? = none := by
  rw [List.head?_eq_none_iff, List.eq_nil_iff_forall_not_mem]
  simp only [mem_vals, not_exists]
  constructor
  · intro h k
    cases hk : m[k]? with
    | none => rfl
    | some v => exact absurd hk (h v k)
  · intro h v k; simp [h k]

theorem vals_insert_perm (h : m[k]? = none) :
    (vals (m.insert k v)).Perm (v :: vals m) := by
  have hp : (m.insert k v).toList.Perm ((k, v) :: m.toList) := by
    apply (List.perm_ext_iff_of_nodup ?_ ?_).mpr
    · rintro ⟨a, b⟩
      rw [List.mem_cons,
        ExtTreeMap.mem_toList_iff_getElem?_eq_some, getElem?_insert]
      by_cases hk : k = a
      · subst hk; simp [h, eq_comm]
      · simp [hk, Ne.symm hk]
    · exact List.Nodup.of_map _ (toList_keys_nodup _)
    · refine List.nodup_cons.mpr ⟨?_, List.Nodup.of_map _ (toList_keys_nodup _)⟩
      rw [ExtTreeMap.mem_toList_iff_getElem?_eq_some, h]; simp
  exact hp.map Prod.snd

end OrdMap

end Mere
