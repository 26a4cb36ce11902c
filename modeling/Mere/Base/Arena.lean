import Mere.Base.OrdMap

/-!
# Hash tables and arenas

A table is a `HashMap`: one value a key, in no order a caller may rely on.
-/

open Std (ExtTreeMap)

namespace Mere

/-! ## Tables -/

abbrev Table (K V : Type) := AList (fun _ : K => V)

namespace Table

variable {K V : Type} [DecidableEq K]

theorem lookup_insert_if (t : Table K V) (k k' : K) (v : V) :
    (t.insert k v).lookup k' = if k' = k then some v else t.lookup k' := by
  split
  · rename_i h
    rw [h]
    exact AList.lookup_insert t
  · rename_i h
    exact AList.lookup_insert_ne h

theorem lookup_erase_if (t : Table K V) (k k' : K) :
    (t.erase k).lookup k' = if k' = k then none else t.lookup k' := by
  split
  · rename_i h
    rw [h]
    exact AList.lookup_erase k t
  · rename_i h
    exact AList.lookup_erase_ne h

theorem flatMap_at {R : Type} (t : Table K (List R)) {entries : List (Sigma fun _ : K => List R)}
    (h : entries.Perm t.entries) (k : K) :
    entries.flatMap (fun p => if p.1 = k then p.2 else []) = (t.lookup k).getD [] := by
  have hkeys : entries.NodupKeys := (List.perm_nodupKeys h).mpr t.nodupKeys
  have hlookup : t.lookup k = entries.dlookup k := (List.perm_dlookup k hkeys h).symm
  rw [hlookup]
  clear h hlookup
  induction entries with
  | nil => rfl
  | cons first entries ih =>
    obtain ⟨k', v⟩ := first
    rw [List.nodupKeys_cons] at hkeys
    rw [List.flatMap_cons, ih hkeys.2]
    by_cases hk : k' = k
    · subst hk
      rw [List.dlookup_eq_none.mpr hkeys.1]
      simp
    · rw [List.dlookup_cons_ne _ _ (Ne.symm hk)]
      simp [hk]

end Table

/-! ## Arenas -/

structure Arena (V : Type) where
  slots : OrdMap Nat V := ∅
  free : List Nat := []
  bound : Nat := 0
  vacant : ∀ k ∈ free, k < bound ∧ slots[k]? = none := by simp
  distinct : free.Nodup := by simp
  unused : ∀ k, bound ≤ k → slots[k]? = none := by simp

namespace Arena

variable {V : Type} (a : Arena V)

def empty : Arena V := {}

def get (k : Nat) : Option V := a.slots[k]?

def nextKey : Nat := a.free.headD a.bound

theorem get_nextKey : a.get a.nextKey = none := by
  unfold nextKey
  cases hfree : a.free with
  | nil => exact a.unused a.bound le_rfl
  | cons k free => exact (a.vacant k (by rw [hfree]; exact List.mem_cons_self)).2

theorem nextKey_not_mem_tail : a.nextKey ∉ a.free.tail := by
  unfold nextKey
  have := a.distinct
  cases hfree : a.free with
  | nil => simp
  | cons k free =>
    rw [hfree] at this
    exact (List.nodup_cons.mp this).1

def add (v : V) : Arena V where
  slots := a.slots.insert a.nextKey v
  free := a.free.tail
  bound := max a.bound (a.nextKey + 1)
  vacant := by
    intro k hk
    have hne : a.nextKey ≠ k := by
      rintro rfl
      exact a.nextKey_not_mem_tail hk
    have hold := a.vacant k (List.mem_of_mem_tail hk)
    rw [OrdMap.getElem?_insert, if_neg hne]
    exact ⟨lt_of_lt_of_le hold.1 (le_max_left _ _), hold.2⟩
  distinct := a.distinct.sublist a.free.tail_sublist
  unused := by
    intro k hk
    have hle := max_le_iff.mp hk
    rw [OrdMap.getElem?_insert, if_neg (by omega)]
    exact a.unused k hle.1

/-- A write through `node_weight_mut`: nothing happens at a key without a value. -/
def set (k : Nat) (v : V) : Arena V where
  slots := if (a.slots[k]?).isSome then a.slots.insert k v else a.slots
  free := a.free
  bound := a.bound
  vacant := by
    intro k' hk'
    have hold := a.vacant k' hk'
    split
    · rename_i h
      have hne : k ≠ k' := by
        rintro rfl
        rw [hold.2] at h
        cases h
      rw [OrdMap.getElem?_insert, if_neg hne]
      exact hold
    · exact hold
  distinct := a.distinct
  unused := by
    intro k' hk'
    have hold := a.unused k' hk'
    split
    · rename_i h
      have hne : k ≠ k' := by
        rintro rfl
        rw [hold] at h
        cases h
      rw [OrdMap.getElem?_insert, if_neg hne]
      exact hold
    · exact hold

def remove (k : Nat) : Arena V where
  slots := a.slots.erase k
  free := if (a.slots[k]?).isSome then k :: a.free else a.free
  bound := a.bound
  vacant := by
    intro k' hk'
    rw [ExtTreeMap.getElem?_erase]
    split at hk'
    · rename_i h
      rcases List.mem_cons.mp hk' with rfl | hk'
      · refine ⟨?_, by simp⟩
        by_contra hle
        rw [a.unused k' (Nat.not_lt.mp hle)] at h
        cases h
      · have hold := a.vacant k' hk'
        refine ⟨hold.1, ?_⟩
        rw [hold.2]
        exact ite_self none
    · have hold := a.vacant k' hk'
      refine ⟨hold.1, ?_⟩
      rw [hold.2]
      exact ite_self none
  distinct := by
    split
    · rename_i h
      refine List.nodup_cons.mpr ⟨?_, a.distinct⟩
      intro hk
      rw [(a.vacant k hk).2] at h
      cases h
    · exact a.distinct
  unused := by
    intro k' hk'
    rw [ExtTreeMap.getElem?_erase, a.unused k' hk']
    exact ite_self none

def removeAll (keys : List Nat) : Arena V := keys.foldl remove a

def toList : List (Nat × V) := a.slots.toList

/-! ## Lookups -/

theorem ext_of_parts {a b : Arena V} (hslots : a.slots = b.slots) (hfree : a.free = b.free)
    (hbound : a.bound = b.bound) : a = b := by
  obtain ⟨slots, free, bound, _, _, _⟩ := a
  obtain ⟨slots', free', bound', _, _, _⟩ := b
  obtain rfl : slots = slots' := hslots
  obtain rfl : free = free' := hfree
  obtain rfl : bound = bound' := hbound
  rfl

@[simp] theorem get_empty (k : Nat) : (empty : Arena V).get k = none := ExtTreeMap.getElem?_empty

@[simp] theorem get_add (v : V) (k : Nat) :
    (a.add v).get k = if k = a.nextKey then some v else a.get k := by
  change (a.slots.insert a.nextKey v)[k]? = _
  rw [OrdMap.getElem?_insert]
  simp only [eq_comm]
  rfl

theorem get_set {k : Nat} {w : V} (h : a.get k = some w) (v : V) (k' : Nat) :
    (a.set k v).get k' = if k' = k then some v else a.get k' := by
  change (if (a.slots[k]?).isSome then a.slots.insert k v else a.slots)[k']? = _
  change a.slots[k]? = some w at h
  rw [h, Option.isSome_some, if_pos rfl, OrdMap.getElem?_insert]
  simp only [eq_comm]
  rfl

@[simp] theorem get_remove (k k' : Nat) :
    (a.remove k).get k' = if k' = k then none else a.get k' := by
  change (a.slots.erase k)[k']? = _
  rw [ExtTreeMap.getElem?_erase]
  simp only [compare_eq_iff_eq]
  simp only [eq_comm]
  rfl

theorem set_set (k : Nat) (v w : V) : (a.set k v).set k w = a.set k w := by
  have hslots : ((a.set k v).set k w).slots = (a.set k w).slots := by
    change (if ((if (a.slots[k]?).isSome then a.slots.insert k v else a.slots)[k]?).isSome then
        (if (a.slots[k]?).isSome then a.slots.insert k v else a.slots).insert k w
      else (if (a.slots[k]?).isSome then a.slots.insert k v else a.slots)) =
        if (a.slots[k]?).isSome then a.slots.insert k w else a.slots
    cases h : a.slots[k]? with
    | none => simp [h]
    | some old =>
      simp only [Option.isSome_some, if_true, OrdMap.getElem?_insert]
      exact OrdMap.insert_insert a.slots k v w
  exact ext_of_parts hslots rfl rfl

theorem set_add (v w : V) : (a.add v).set a.nextKey w = a.add w := by
  have hslots : ((a.add v).set a.nextKey w).slots = (a.add w).slots := by
    change (if ((a.slots.insert a.nextKey v)[a.nextKey]?).isSome then
      (a.slots.insert a.nextKey v).insert a.nextKey w else a.slots.insert a.nextKey v) =
        a.slots.insert a.nextKey w
    rw [OrdMap.getElem?_insert, if_pos rfl]
    exact OrdMap.insert_insert a.slots a.nextKey v w
  exact ext_of_parts hslots rfl rfl

theorem get_removeAll (keys : List Nat) (k : Nat) :
    (a.removeAll keys).get k = if k ∈ keys then none else a.get k := by
  unfold removeAll
  induction keys generalizing a with
  | nil => simp
  | cons k' keys ih =>
    rw [List.foldl_cons, ih]
    by_cases hk : k = k'
    · simp [hk]
    · simp [hk]

theorem mem_toList (k : Nat) (v : V) : (k, v) ∈ a.toList ↔ a.get k = some v :=
  ExtTreeMap.mem_toList_iff_getElem?_eq_some

theorem nodup_keys : (a.toList.map Prod.fst).Nodup := OrdMap.toList_keys_nodup a.slots

end Arena

end Mere
