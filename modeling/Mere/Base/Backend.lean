import Mathlib

/-!
# A flat store

A store of typed values by key that takes its writes in batches. What it holds is its view: one
value or none at each key.
-/

namespace Mere

open List Function

variable {K : Type} {V : K → Type}

inductive WriteOp (V : K → Type)
  | put (key : K) (value : V key)
  | delete (key : K)

def WriteOp.key : WriteOp V → K
  | .put key _ => key
  | .delete key => key

abbrev View (V : K → Type) := (key : K) → Option (V key)

variable [DecidableEq K]

/-! ## Views -/

namespace View

def set (v : View V) : WriteOp V → View V
  | .put key value => Function.update v key (some value)
  | .delete key => Function.update v key none

def sets (v : View V) (writes : List (WriteOp V)) : View V := writes.foldl set v

variable {v : View V} {w : WriteOp V} {key key' : K} {value : V key}

@[simp] theorem set_put_self : v.set (.put key value) key = some value := update_self ..

theorem set_delete_apply : v.set (.delete key) key' = if key' = key then none else v key' := by
  by_cases h : key' = key
  · subst h
    rw [if_pos rfl]
    exact update_self ..
  · rw [if_neg h]
    exact update_of_ne h ..

@[simp] theorem set_delete_self : v.set (.delete key) key = none := update_self ..

theorem set_of_ne (h : key' ≠ w.key) : v.set w key' = v key' := by
  cases w with
  | put key value | delete key => exact update_of_ne h ..

theorem set_delete_of_none (h : v key = none) : v.set (.delete key) = v := by
  rw [set, ← h]
  exact update_eq_self key v

@[simp] theorem sets_nil : v.sets [] = v := rfl

variable {writes : List (WriteOp V)}

@[simp] theorem sets_cons :
    v.sets (w :: writes) = (v.set w).sets writes := rfl

@[simp] theorem sets_append {writes' : List (WriteOp V)} :
    v.sets (writes ++ writes') = (v.sets writes).sets writes' := foldl_append

theorem sets_of_forall_ne (h : ∀ w ∈ writes, key' ≠ w.key) :
    v.sets writes key' = v key' := by
  induction writes generalizing v with
  | nil => rfl
  | cons w writes ih =>
    rw [sets_cons, ih fun w' hw => h w' (mem_cons_of_mem _ hw),
      set_of_ne (h w mem_cons_self)]

theorem sets_deletes {keys : List K} :
    v.sets (keys.map .delete) key' = if key' ∈ keys then none else v key' := by
  induction keys generalizing v with
  | nil => simp
  | cons key keys ih =>
    rw [map_cons, sets_cons, ih, set_delete_apply]
    by_cases hkey : key' = key <;> by_cases hrest : key' ∈ keys <;> simp [hkey, hrest]

end View

/-! ## Stores -/

abbrev Backend (V : K → Type) := AList V

namespace Backend

variable (b : Backend V)

def get : View V := fun key => b.lookup key

def write : WriteOp V → Backend V
  | .put key value => b.insert key value
  | .delete key => b.erase key

def apply (writes : List (WriteOp V)) : Backend V := writes.foldl write b

variable {b}

theorem get_write (w : WriteOp V) : (b.write w).get = b.get.set w := by
  funext key
  cases w with
  | put key' value =>
    by_cases h : key = key'
    · subst h
      exact (AList.lookup_insert b).trans View.set_put_self.symm
    · rw [View.set_of_ne h]
      exact AList.lookup_insert_ne h
  | delete key' =>
    by_cases h : key = key'
    · subst h
      exact (AList.lookup_erase key b).trans View.set_delete_self.symm
    · rw [View.set_of_ne h]
      exact AList.lookup_erase_ne h

theorem get_apply (writes : List (WriteOp V)) : (b.apply writes).get = b.get.sets writes := by
  induction writes generalizing b with
  | nil => rfl
  | cons w writes ih =>
    rw [View.sets_cons, ← get_write]
    exact ih

theorem mem_keys_iff {key : K} : key ∈ b.keys ↔ b.get key ≠ none := by
  rw [get, Ne, AList.lookup_eq_none, not_not]
  exact Iff.rfl

end Backend

/-! ## Batches in the making -/

/-- The last decision for each key that was decided on: a value, or none. -/
abbrev Overlay (V : K → Type) := AList fun key => Option (V key)

namespace Overlay

variable (o : Overlay V)

def record : WriteOp V → Overlay V
  | .put key value => o.insert key (some value)
  | .delete key => o.insert key none

def onto (v : View V) : View V := fun key => (o.lookup key).getD (v key)

def writeOf (entry : Sigma fun key => Option (V key)) : WriteOp V :=
  match entry.2 with
  | some value => .put entry.1 value
  | none => .delete entry.1

def writes : List (WriteOp V) := o.entries.map writeOf

variable {o} {v : View V}

theorem onto_record (w : WriteOp V) : (o.record w).onto v = (o.onto v).set w := by
  funext key
  cases w with
  | put key' value =>
    by_cases h : key = key'
    · subst h
      rw [View.set_put_self, onto, record, AList.lookup_insert]
      rfl
    · rw [View.set_of_ne h, onto, record, AList.lookup_insert_ne h]
      rfl
  | delete key' =>
    by_cases h : key = key'
    · subst h
      rw [View.set_delete_self, onto, record, AList.lookup_insert]
      rfl
    · rw [View.set_of_ne h, onto, record, AList.lookup_insert_ne h]
      rfl

theorem onto_foldl_record (ws : List (WriteOp V)) :
    (ws.foldl record o).onto v = (o.onto v).sets ws := by
  induction ws generalizing o with
  | nil => rfl
  | cons w ws ih => rw [foldl_cons, ih, onto_record, View.sets_cons]

theorem sets_writes : v.sets o.writes = o.onto v := by
  obtain ⟨entries, hkeys⟩ := o
  have hgeneral : ∀ v : View V, ∀ key, v.sets (entries.map writeOf) key =
      ((entries.dlookup key).getD (v key)) := by
    induction entries with
    | nil => exact fun _ _ => rfl
    | cons entry rest ih =>
      intro v key
      obtain ⟨key', decision⟩ := entry
      rw [nodupKeys_cons] at hkeys
      rw [map_cons, View.sets_cons, ih hkeys.2]
      by_cases h : key = key'
      · subst h
        rw [dlookup_cons_eq, dlookup_eq_none.mpr hkeys.1]
        cases decision with
        | some value => exact View.set_put_self
        | none => exact View.set_delete_self
      · rw [dlookup_cons_ne _ _ h]
        congr 1
        cases decision with
        | some value | none => exact View.set_of_ne h
  exact funext fun key => hgeneral v key

end Overlay

end Mere
