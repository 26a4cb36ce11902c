import Mere.Base.Word
import Mere.Base.Breadth

/-!
# The append-only log and its causes

From `crates/eidetic/muniment/src/journal/log.rs`, `causal.rs` and `fork.rs`.
-/

open Std (ExtTreeSet)

namespace Mere

open List Option

structure LogId where
  text : Str
  deriving DecidableEq

structure Provenance where
  source : Option LogId
  forkedAt : Nat
  deriving DecidableEq

inductive CausalError where
  | unknownParent (cause : Nat)
  deriving DecidableEq

structure Journal (T : Type) where
  id : Option LogId := none
  provenance : Option Provenance := none
  entries : List T := []
  parents : List (List Nat) := []
  short : parents.length ≤ entries.length := by simp
  earlier : ∀ (i : Nat) (ps : List Nat), parents[i]? = some ps → ∀ p ∈ ps, p < i := by simp

namespace Journal

variable {T : Type}

def new : Journal T := {}

def withId (id : LogId) : Journal T := { id := some id }

variable (j : Journal T)

def len : Nat := j.entries.length

def nextSeq : Nat := j.entries.length

def parentsOf (seq : Nat) : List Nat := (j.parents[seq]?).getD []

def append (entry : T) : Journal T where
  id := j.id
  provenance := j.provenance
  entries := j.entries ++ [entry]
  parents := j.parents
  short := by
    have := j.short
    rw [length_append]
    omega
  earlier := j.earlier

def fromSeq (seq : Nat) : List T := j.entries.drop seq

def fork (newId : LogId) : Journal T where
  id := some newId
  provenance := some ⟨j.id, j.nextSeq⟩
  entries := j.entries
  parents := j.parents
  short := j.short
  earlier := j.earlier

/-- `resize_with(seq + 1, Vec::new)` where the list is too short, then the write at `seq`. -/
def placed (parents : List (List Nat)) (seq : Nat) (causes : List Nat) : List (List Nat) :=
  (parents ++ List.replicate (seq + 1 - parents.length) []).set seq causes

theorem getElem?_placed {parents : List (List Nat)} {seq i : Nat} {causes ps : List Nat}
    (h : (placed parents seq causes)[i]? = some ps) :
    i = seq ∧ ps = causes ∨ i ≠ seq ∧ (parents[i]? = some ps ∨ ps = []) := by
  unfold placed at h
  rw [getElem?_set] at h
  split at h
  · rename_i hi
    split at h
    · exact .inl ⟨hi.symm, (some.inj h).symm⟩
    · cases h
  · rename_i hi
    refine .inr ⟨Ne.symm hi, ?_⟩
    rw [getElem?_append] at h
    split at h
    · exact .inl h
    · rw [getElem?_replicate] at h
      split at h
      · exact .inr (some.inj h).symm
      · cases h

/-- Records causes for an entry that is there; its one caller passes nothing else. -/
def setParents (seq : Nat) (causes : List Nat) : Journal T :=
  if h : causes = [] ∨ ¬ (seq < j.entries.length ∧ ∀ c ∈ causes, c < seq) then j
  else
    { j with
      parents := placed j.parents seq causes
      short := by
        have := j.short
        have := (not_not.mp (not_or.mp h).2).1
        simp only [placed, length_set, length_append, length_replicate]
        omega
      earlier := by
        intro i ps hi p hp
        rcases getElem?_placed hi with ⟨rfl, rfl⟩ | ⟨_, hi | rfl⟩
        · exact (not_not.mp (not_or.mp h).2).2 p hp
        · exact j.earlier i ps hi p hp
        · cases hp }

def ascending (causes : List Nat) : List Nat := (ExtTreeSet.ofList causes compare).toList

/-- The first cause that is not there yet refuses the entry. -/
def appendCausedBy (causes : List Nat) (entry : T) : Except CausalError Nat × Journal T :=
  match causes.find? (fun cause => j.nextSeq ≤ cause) with
  | some cause => (.error (.unknownParent cause), j)
  | none => (.ok j.nextSeq, (j.append entry).setParents j.nextSeq (ascending causes))

/-! ## Walking the causes -/

/-- Enough rounds for every link to be queued once. -/
def links : Nat := ∑ i ∈ Finset.range j.len, (j.parentsOf i).length

/-- The queue starts with the causes of `seq`; `seen` is what `order` holds. -/
def walkCauses (seq : Nat) : Option (List Nat) := breadth j.parentsOf j.links (j.parentsOf seq) []

def causes (seq : Nat) : List Nat := (j.walkCauses seq).getD []

def reach (reached : ExtTreeSet Nat) (entry : Nat) : ExtTreeSet Nat :=
  if (j.parentsOf entry).any (fun p => reached.contains p) then reached.insert entry else reached

def effects (seq : Nat) : List Nat :=
  (((List.range' (seq + 1) (j.len - (seq + 1))).foldl j.reach (ExtTreeSet.ofList [seq])).erase
    seq).toList

def concurrent (a b : Nat) : Bool := a != b && !(j.causes b).contains a && !(j.causes a).contains b

/-! ## What the links are -/

def Cites (effect cause : Nat) : Prop := cause ∈ j.parentsOf effect

theorem lt_of_mem_parentsOf {i p : Nat} (h : p ∈ j.parentsOf i) : p < i := by
  unfold parentsOf at h
  cases hi : j.parents[i]? with
  | none => rw [hi] at h; cases h
  | some ps => rw [hi] at h; exact j.earlier i ps hi p h

theorem parentsOf_of_len_le {i : Nat} (h : j.len ≤ i) : j.parentsOf i = [] := by
  have : j.parents[i]? = none := getElem?_eq_none (le_trans j.short h)
  rw [parentsOf, this]
  rfl

theorem lt_len_of_cites {i p : Nat} (h : j.Cites i p) : i < j.len := by
  by_contra hi
  rw [Cites, j.parentsOf_of_len_le (Nat.not_lt.mp hi)] at h
  cases h

theorem lt_of_transGen {a b : Nat} (h : Relation.TransGen j.Cites a b) : b < a := by
  induction h with
  | single h => exact j.lt_of_mem_parentsOf h
  | tail _ h ih => exact lt_trans (j.lt_of_mem_parentsOf h) ih

/-! ## Appends -/

theorem ascending_congr {causes causes' : List Nat} (h : ∀ c, c ∈ causes ↔ c ∈ causes') :
    ascending causes = ascending causes' := by
  unfold ascending
  congr 1
  apply ExtTreeSet.ext_mem
  intro c
  rw [ExtTreeSet.mem_ofList, ExtTreeSet.mem_ofList, contains_iff_mem, contains_iff_mem, h]

theorem appendCausedBy_error {causes : List Nat} {entry : T} {e : CausalError}
    (h : (j.appendCausedBy causes entry).1 = .error e) : (j.appendCausedBy causes entry).2 = j := by
  unfold appendCausedBy at h ⊢
  split
  · rfl
  · rename_i hnone
    rw [hnone] at h
    cases h

theorem appendCausedBy_congr {causes causes' : List Nat} (entry : T)
    (h : ∀ c, c ∈ causes ↔ c ∈ causes') :
    (j.appendCausedBy causes entry).2 = (j.appendCausedBy causes' entry).2 := by
  have hfound : causes.find? (fun cause => j.nextSeq ≤ cause) = none ↔
      causes'.find? (fun cause => j.nextSeq ≤ cause) = none := by
    simp only [find?_eq_none, h]
  unfold appendCausedBy
  split
  · rename_i hc
    split
    · rfl
    · rename_i hc'
      rw [hfound.mpr hc'] at hc
      cases hc
  · rename_i hc
    rw [hfound.mp hc, ascending_congr h]

end Journal

end Mere
