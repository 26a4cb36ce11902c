import Mere.Base.OrdMap
import Mere.Base.Word

/-!
# Retirement

From `crates/system/pandect/src/athanor.rs` and `crates/eidetic/eidetic-core/src/deleted.rs`. The
recycle bin holds tombstones under the hashes of their contents.
-/

namespace Mere.Pandect

open OrdMap Std List

structure DeletedNode where
  nodeId : Str
  url : Str
  title : Option Str
  tags : List Str
  graphId : Option Str
  deletedAtMs : Nat
  nested : Option Str
  facets : Option Str
  deriving DecidableEq

abbrev Bin := OrdMap Bytes32 DeletedNode

def listDeleted (bin : Bin) : List DeletedNode :=
  (vals bin).insertionSort fun a b => b.deletedAtMs ≤ a.deletedAtMs

/-- The bin, and how many have been removed from it. -/
def deleteManifest (state : Bin × Nat) (id : Bytes32) : Bin × Nat :=
  (state.1.erase id, if id ∈ state.1 then state.2 + 1 else state.2)

def purgeDeleted (bin : Bin) (nodeId : Str) : Bin × Nat :=
  ((bin.toList.filter (·.2.nodeId = nodeId)).map (·.1)).foldl deleteManifest (bin, 0)

def proposeRetirement (deleted : List DeletedNode) (keepMs nowMs : Nat) : List Str :=
  (ExtTreeSet.ofList ((deleted.filter (·.deletedAtMs ≤ nowMs - keepMs)).map (·.nodeId))
    compare).toList

def retire (state : Bin × Nat) (nodeId : Str) : Bin × Nat :=
  let purged := purgeDeleted state.1 nodeId
  (purged.1, state.2 + purged.2)

def applyRetirement (bin : Bin) (nodeIds : List Str) : Bin × Nat := nodeIds.foldl retire (bin, 0)

variable (state : Bin × Nat)

theorem deleteManifests_spec (ids : List Bytes32) :
    (∀ k : Bytes32, (ids.foldl deleteManifest state).1[k]? =
        if k ∈ ids then none else state.1[k]?) ∧
      (ids.foldl deleteManifest state).2 + (ids.foldl deleteManifest state).1.size =
        state.2 + state.1.size := by
  induction ids generalizing state with
  | nil => simp
  | cons id ids ih =>
    obtain ⟨hget, hsize⟩ := ih (deleteManifest state id)
    constructor
    · intro k
      rw [foldl_cons, hget, deleteManifest, ExtTreeMap.getElem?_erase]
      by_cases hk : k = id
      · simp [hk]
      · simp [hk, Ne.symm hk]
    · rw [foldl_cons, hsize, deleteManifest]
      by_cases hid : id ∈ state.1
      · have hsome : state.1.size ≠ 0 := by
          intro hnone
          rw [ExtTreeMap.eq_empty_iff_size_eq_zero.mpr hnone] at hid
          exact ExtTreeMap.not_mem_empty hid
        simp only [ExtTreeMap.size_erase, ExtTreeMap.contains_iff_mem, hid, if_true]
        omega
      · simp [ExtTreeMap.size_erase, hid]

theorem retire_spec (nodeId : Str) :
    (∀ k : Bytes32, (retire state nodeId).1[k]? = state.1[k]?.filter (·.nodeId ≠ nodeId)) ∧
      (retire state nodeId).2 + (retire state nodeId).1.size = state.2 + state.1.size := by
  obtain ⟨hget, hsize⟩ := deleteManifests_spec (state.1, 0)
    ((state.1.toList.filter (·.2.nodeId = nodeId)).map (·.1))
  refine ⟨fun k => (hget k).trans ?_, ?_⟩
  · cases hk : state.1[k]? with
    | none => simp [hk]
    | some found => simp [hk, Option.filter]
  · dsimp only at hsize
    simp only [retire, purgeDeleted]
    omega

theorem applyRetirement_spec (nodeIds : List Str) :
    (∀ k : Bytes32, (nodeIds.foldl retire state).1[k]? =
        state.1[k]?.filter (·.nodeId ∉ nodeIds)) ∧
      (nodeIds.foldl retire state).2 + (nodeIds.foldl retire state).1.size =
        state.2 + state.1.size := by
  induction nodeIds generalizing state with
  | nil => exact ⟨fun k => by cases h : state.1[k]? <;> simp [h, Option.filter], rfl⟩
  | cons nodeId rest ih =>
    obtain ⟨hget, hsize⟩ := ih (retire state nodeId)
    obtain ⟨hretired, hcount⟩ := retire_spec state nodeId
    refine ⟨fun k => ?_, hsize.trans hcount⟩
    rw [foldl_cons, hget, hretired, Option.filter_filter]
    simp

/-- The count is of what went, and what stays is what is recent, unless a node with a tombstone that
has aged out has a recent one too. -/
theorem retirement_iff (bin : Bin) (keepMs nowMs : Nat) :
    let (left, retired) := applyRetirement bin (proposeRetirement (listDeleted bin) keepMs nowMs)
    retired + left.size = bin.size ∧
      ((∀ k : Bytes32, left[k]? = bin[k]?.filter (nowMs - keepMs < ·.deletedAtMs)) ↔
        ∀ a ∈ vals bin, ∀ b ∈ vals bin, a.nodeId = b.nodeId →
          a.deletedAtMs ≤ nowMs - keepMs → b.deletedAtMs ≤ nowMs - keepMs) := by
  obtain ⟨hget, hcount⟩ := applyRetirement_spec (bin, 0)
    (proposeRetirement (listDeleted bin) keepMs nowMs)
  have hproposed : ∀ nodeId, nodeId ∈ proposeRetirement (listDeleted bin) keepMs nowMs ↔
      ∃ a ∈ vals bin, a.deletedAtMs ≤ nowMs - keepMs ∧ a.nodeId = nodeId := by
    simp [proposeRetirement, listDeleted, ExtTreeSet.mem_ofList, and_assoc]
  refine ⟨hcount.trans (Nat.zero_add _), fun hkept a ha b hb hsame hold => ?_, fun halone k => ?_⟩
  · by_contra hrecent
    obtain ⟨k, hk⟩ := (mem_vals bin b).mp hb
    have hgone := (hget k).symm.trans (hkept k)
    have hmem := (hproposed b.nodeId).mpr ⟨a, ha, hold, hsame⟩
    simp [hk, hmem, Option.filter, Nat.lt_of_not_le hrecent] at hgone
  · refine (hget k).trans ?_
    cases hk : bin[k]? with
    | none => simp
    | some b =>
      have hb := (mem_vals bin b).mpr ⟨k, hk⟩
      have hiff : b.nodeId ∈ proposeRetirement (listDeleted bin) keepMs nowMs ↔
          b.deletedAtMs ≤ nowMs - keepMs := by
        rw [hproposed]
        constructor
        · rintro ⟨a, ha, hold, hsame⟩
          exact halone a ha b hb hsame hold
        · exact fun hold => ⟨b, hb, hold, rfl⟩
      simp [Option.filter, hiff]

def binned (deletedAtMs : Nat) : DeletedNode := ⟨[110], [], none, [], none, deletedAtMs, none, none⟩

/-- A node deleted long ago, restored, and deleted again just now is forgotten for good. -/
theorem retirement_forgets_recent :
    let bin : Bin := (∅ : Bin).insert 1 (binned 0) |>.insert 2 (binned 99)
    let (left, _) := applyRetirement bin (proposeRetirement (listDeleted bin) 10 100)
    bin[(2 : Bytes32)]? = some (binned 99) ∧ left[(2 : Bytes32)]? = none := by
  decide +kernel

end Mere.Pandect
