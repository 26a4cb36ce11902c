import Mere.Base.OrdMap

/-!
# Slot maps

A map that hands out its own keys and never hands out a key twice, also not after the key
was removed. Keys count up here; what a caller may rely on is `get_insert` and `get_next`.
-/

open Std (ExtTreeMap)

namespace Mere

structure SlotMap (V : Type) where
  slots : OrdMap Nat V := ∅
  next : Nat := 0
  /-- No key from `next` on was handed out. -/
  unused : ∀ k, next ≤ k → slots[k]? = none := by simp

namespace SlotMap

variable {V : Type} (m : SlotMap V)

def get (k : Nat) : Option V := m.slots[k]?

def contains (k : Nat) : Bool := (m.get k).isSome

def insert (v : V) : SlotMap V where
  slots := m.slots.insert m.next v
  next := m.next + 1
  unused := by
    intro k hk
    rw [OrdMap.getElem?_insert, if_neg (by omega)]
    exact m.unused k (by omega)

def modify (k : Nat) (f : V → V) : SlotMap V where
  slots := match m.slots[k]? with
    | some v => m.slots.insert k (f v)
    | none => m.slots
  next := m.next
  unused := by
    intro k' hk'
    cases hv : m.slots[k]? with
    | none => exact m.unused k' hk'
    | some v =>
      have hne : k ≠ k' := by
        rintro rfl
        rw [m.unused k hk'] at hv
        simp at hv
      simp only [OrdMap.getElem?_insert, if_neg hne]
      exact m.unused k' hk'

def remove (k : Nat) : SlotMap V where
  slots := m.slots.erase k
  next := m.next
  unused := by
    intro k' hk'
    rw [ExtTreeMap.getElem?_erase, m.unused k' hk']
    simp

def mapVals {W : Type} (f : V → W) : SlotMap W where
  slots := m.slots.map (fun _ v => f v)
  next := m.next
  unused := by
    intro k hk
    rw [ExtTreeMap.getElem?_map, m.unused k hk]
    rfl

def toList : List (Nat × V) := m.slots.toList

def size : Nat := m.toList.length

/-! ## Lookups -/

@[simp] theorem get_insert (v : V) (k : Nat) :
    (m.insert v).get k = if k = m.next then some v else m.get k := by
  change (m.slots.insert m.next v)[k]? = _
  rw [OrdMap.getElem?_insert]
  simp only [eq_comm]
  rfl

@[simp] theorem get_modify (k k' : Nat) (f : V → V) :
    (m.modify k f).get k' = if k' = k then (m.get k).map f else m.get k' := by
  change (match m.slots[k]? with
    | some v => m.slots.insert k (f v)
    | none => m.slots)[k']? = if k' = k then m.slots[k]?.map f else m.slots[k']?
  cases hv : m.slots[k]? with
  | none =>
    by_cases hk : k' = k
    · rw [if_pos hk, hk]; exact hv
    · rw [if_neg hk]
  | some v => simp only [OrdMap.getElem?_insert, Option.map_some, eq_comm]

@[simp] theorem get_remove (k k' : Nat) :
    (m.remove k).get k' = if k' = k then none else m.get k' := by
  change (m.slots.erase k)[k']? = _
  rw [ExtTreeMap.getElem?_erase]
  simp only [compare_eq_iff_eq]
  simp only [eq_comm]
  rfl

@[simp] theorem get_mapVals {W : Type} (f : V → W) (k : Nat) : (m.mapVals f).get k = (m.get k).map f :=
  ExtTreeMap.getElem?_map

@[simp] theorem get_empty (k : Nat) : ({} : SlotMap V).get k = none := ExtTreeMap.getElem?_empty

theorem get_next : m.get m.next = none := m.unused m.next le_rfl

variable {k : Nat} {v : V} (p : V → Bool)

theorem lt_next (h : m.get k = some v) : k < m.next := by
  by_contra hk
  have := m.unused k (by omega)
  change m.get k = none at this
  rw [h] at this
  simp at this

@[simp] theorem next_insert (v : V) : (m.insert v).next = m.next + 1 := rfl
theorem contains_iff : m.contains k = true ↔ ∃ v, m.get k = some v :=
  Option.isSome_iff_exists

theorem contains_of_get (h : m.get k = some v) : m.contains k = true :=
  m.contains_iff.mpr ⟨v, h⟩

@[simp] theorem contains_modify (k k' : Nat) (f : V → V) :
    (m.modify k f).contains k' = m.contains k' := by
  unfold contains
  rw [get_modify]
  split
  · subst k'; exact Option.isSome_map
  · rfl

theorem get_of_modify {k' : Nat} {f : V → V} {v' : V} (h : (m.modify k f).get k' = some v') :
    ∃ v, m.get k' = some v ∧ (k' = k ∧ v' = f v ∨ k' ≠ k ∧ v' = v) := by
  rw [get_modify] at h
  by_cases hk : k' = k
  · rw [if_pos hk] at h
    obtain ⟨v, hv, rfl⟩ := Option.map_eq_some_iff.mp h
    exact ⟨v, by rw [hk]; exact hv, .inl ⟨hk, rfl⟩⟩
  · rw [if_neg hk] at h
    exact ⟨v', h, .inr ⟨hk, rfl⟩⟩

theorem modify_of_none (h : m.get k = none) (f : V → V) : m.modify k f = m := by
  cases m with
  | mk slots next unused =>
    change slots[k]? = none at h
    simp only [modify, h]

theorem modify_of_fixed (h : m.get k = some v) (f : V → V) (hf : f v = v) :
    m.modify k f = m := by
  cases m with
  | mk slots next unused =>
    change slots[k]? = some v at h
    simp only [modify, h, hf, mk.injEq, and_true]
    apply ExtTreeMap.ext_getElem?
    intro k'
    rw [OrdMap.getElem?_insert]
    split
    · subst k'; exact h.symm
    · rfl

/-! ## Walks -/

theorem mem_toList (k : Nat) (v : V) : (k, v) ∈ m.toList ↔ m.get k = some v :=
  ExtTreeMap.mem_toList_iff_getElem?_eq_some

theorem nodup_toList : m.toList.Nodup := List.Nodup.of_map _ (OrdMap.toList_keys_nodup m.slots)

theorem nodup_keys : (m.toList.map Prod.fst).Nodup := OrdMap.toList_keys_nodup m.slots

theorem length_le_size {l : List Nat} (hd : l.Nodup) (h : ∀ k ∈ l, (m.get k).isSome) :
    l.length ≤ m.size := by
  have hsub : l ⊆ m.toList.map Prod.fst := by
    intro k hk
    obtain ⟨v, hv⟩ := Option.isSome_iff_exists.mp (h k hk)
    exact List.mem_map.mpr ⟨(k, v), (m.mem_toList k v).mpr hv, rfl⟩
  have := (List.subperm_of_subset hd hsub).length_le
  rwa [List.length_map] at this

def count (p : V → Bool) : Nat := m.toList.countP (fun q => p q.2)

theorem toList_insert (v : V) : (m.insert v).toList.Perm ((m.next, v) :: m.toList) := by
  apply (List.perm_ext_iff_of_nodup (nodup_toList _) ?_).mpr
  · rintro ⟨k, w⟩
    rw [mem_toList, List.mem_cons, mem_toList]
    by_cases hk : k = m.next
    · simp [hk, get_next, eq_comm]
    · simp [hk]
  · refine List.nodup_cons.mpr ⟨?_, m.nodup_toList⟩
    rw [mem_toList, get_next]
    simp

theorem count_insert (v : V) :
    (m.insert v).count p = m.count p + if p v then 1 else 0 := by
  unfold count
  rw [(m.toList_insert v).countP_eq, List.countP_cons]

theorem toList_remove (h : m.get k = some v) :
    m.toList.Perm ((k, v) :: (m.remove k).toList) := by
  apply (List.perm_ext_iff_of_nodup m.nodup_toList ?_).mpr
  · rintro ⟨k', w⟩
    rw [mem_toList, List.mem_cons, mem_toList]
    by_cases hk : k' = k
    · simp [hk, h, eq_comm]
    · simp [hk]
  · refine List.nodup_cons.mpr ⟨?_, nodup_toList _⟩
    rw [mem_toList]
    simp

theorem count_remove (h : m.get k = some v) :
    m.count p = (m.remove k).count p + if p v then 1 else 0 := by
  unfold count
  rw [(m.toList_remove h).countP_eq, List.countP_cons]

theorem count_eq_zero (h : ∀ k v, m.get k = some v → p v = false) :
    m.count p = 0 := by
  refine List.countP_eq_zero.mpr ?_
  rintro ⟨k, v⟩ hmem
  simp [h k v ((m.mem_toList k v).mp hmem)]

theorem count_congr {m' : SlotMap V}
    (h : ∀ k, (m'.get k).map p = (m.get k).map p) : m'.count p = m.count p := by
  have hkeys : ∀ m : SlotMap V, m.count p =
      ((m.toList.filter (fun q => p q.2)).map Prod.fst).length := by
    intro m
    rw [List.length_map, ← List.countP_eq_length_filter]
    rfl
  have hmem : ∀ (m : SlotMap V) (k : Nat), k ∈ (m.toList.filter (fun q => p q.2)).map Prod.fst ↔
      (m.get k).map p = some true := by
    intro m k
    simp only [List.mem_map, List.mem_filter, Prod.exists, exists_and_right, exists_eq_right,
      mem_toList, Option.map_eq_some_iff]
  rw [hkeys, hkeys]
  apply List.Perm.length_eq
  apply (List.perm_ext_iff_of_nodup ?_ ?_).mpr
  · intro k
    rw [hmem, hmem, h]
  · exact (nodup_keys _).sublist (List.Sublist.map _ List.filter_sublist)
  · exact (nodup_keys _).sublist (List.Sublist.map _ List.filter_sublist)

end SlotMap

/-- An order in which a table may be walked: none is promised. -/
structure Shuffle (A : Type) where
  order : List A → List A
  perm : ∀ l, (order l).Perm l

def Shuffle.same (A : Type) : Shuffle A := ⟨id, fun _ => .refl _⟩

end Mere
