import Mere.Base.SlotMap

/-!
# Numbering by position

Ids replaced by their positions in a walk, and positions read back against tables filled in
the order of the walk: the two directions of a relabelling.
-/

namespace Mere

open List Option

/-! ## Lookups that all succeed -/

theorem list_mapM_eq {A B : Type} {f : A → Option B} {g : A → B} {l : List A}
    (h : ∀ x ∈ l, f x = some (g x)) : l.mapM f = some (l.map g) := by
  induction l with
  | nil => rfl
  | cons x l ih =>
    rw [mapM_cons, h x mem_cons_self, ih (fun y hy => h y (mem_cons_of_mem _ hy))]
    rfl

theorem option_mapM_eq {A B : Type} {f : A → Option B} {g : A → B} {o : Option A}
    (h : ∀ x, o = some x → f x = some (g x)) : o.mapM f = some (o.map g) := by
  cases o with
  | none => rfl
  | some x =>
    change (f x).map some = _
    rw [h x rfl]
    rfl

/-! ## Positions -/

section
variable {V : Type} (walked : List (Nat × V))

def number (id : Nat) : Nat := (walked.map Prod.fst).idxOf id

variable {walked}

theorem idxOf?_number {id : Nat} (h : id ∈ walked.map Prod.fst) :
    (walked.map Prod.fst).idxOf? id = some (number walked id) := by
  obtain ⟨i, hi⟩ := isSome_iff_exists.mp (isSome_idxOf?.mpr h)
  rw [number, idxOf_eq_getD_idxOf?, hi]
  rfl

theorem number_lt {id : Nat} (h : id ∈ walked.map Prod.fst) : number walked id < walked.length := by
  have := idxOf_lt_length_of_mem h
  rwa [length_map] at this

variable (hd : (walked.map Prod.fst).Nodup)
include hd

theorem number_getElem {k : Nat} (hk : k < walked.length) :
    number walked (walked[k].1) = k := by
  have := hd.idxOf_getElem k (by simpa using hk)
  rwa [getElem_map] at this

theorem getElem?_number {id : Nat} {v : V}
    (h : (id, v) ∈ walked) : walked[number walked id]? = some (id, v) := by
  obtain ⟨k, hk, hget⟩ := getElem_of_mem h
  have hnum := number_getElem hd hk
  rw [hget] at hnum
  rw [hnum, getElem?_eq_getElem hk, hget]

theorem number_bijOn :
    Set.BijOn (number walked) {id | id ∈ walked.map Prod.fst} {k | k < walked.length} := by
  refine ⟨fun id hid => number_lt hid, ?_, ?_⟩
  · intro a ha b hb hab
    exact (idxOf_inj ha).mp hab
  · intro k hk
    exact ⟨walked[k].1, mem_map.mpr ⟨_, getElem_mem hk, rfl⟩, number_getElem hd hk⟩

end

/-! ## Tables filled in order -/

namespace SlotMap

variable {V : Type}

def insertAll (m : SlotMap V) (l : List V) : SlotMap V := l.foldl insert m

theorem get_insertAll (m : SlotMap V) (l : List V) (k : Nat) :
    (m.insertAll l).get k = if k < m.next then m.get k else l[k - m.next]? := by
  induction l generalizing m with
  | nil =>
    split
    · rfl
    · exact m.unused k (by omega)
  | cons v l ih =>
    refine (ih (m.insert v)).trans ?_
    rw [next_insert, get_insert]
    rcases Nat.lt_trichotomy k m.next with hk | rfl | hk
    · rw [if_pos (by omega), if_neg (by omega), if_pos hk]
    · rw [if_pos (by omega), if_pos rfl, if_neg (by omega), Nat.sub_self]
      rfl
    · rw [if_neg (by omega), if_neg (by omega)]
      obtain ⟨d, hd⟩ : ∃ d, k - m.next = d + 1 := ⟨k - m.next - 1, by omega⟩
      rw [hd, getElem?_cons_succ]
      congr 1
      omega

theorem get_insertAll_empty (l : List V) (k : Nat) : (insertAll {} l).get k = l[k]? := by
  rw [get_insertAll]
  rfl

end SlotMap

section
variable {K : Type} [DecidableEq K]

def indexAll : Nat → AList (fun _ : K => Nat) → List K → AList (fun _ : K => Nat)
  | _, index, [] => index
  | n, index, k :: rest => indexAll (n + 1) (index.insert k n) rest

theorem lookup_indexAll (n : Nat) (index : AList (fun _ : K => Nat)) (keys : List K)
    (hd : keys.Nodup) (k : K) : (indexAll n index keys).lookup k =
      if k ∈ keys then some (n + keys.idxOf k) else index.lookup k := by
  induction keys generalizing n index with
  | nil => simp [indexAll]
  | cons a keys ih =>
    obtain ⟨ha, hd⟩ := nodup_cons.mp hd
    rw [indexAll, ih (n + 1) _ hd]
    by_cases hk : k = a
    · subst hk
      simp [ha]
    · by_cases hmem : k ∈ keys
      · simp only [hmem, if_true, mem_cons, or_true, some.injEq,
          idxOf_cons_ne _ (Ne.symm hk)]
        omega
      · simp [hmem, hk]

end

end Mere
