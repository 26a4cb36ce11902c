import Mere.Kernel.Node

/-!
# Import records in normal form

From `crates/graph/graph-kernel/src/graph/mod.rs`. Records are merged by id and sorted, the
memberships of a record are merged by node and sorted.
-/

namespace Mere.Kernel

open List

structure ImportRecordMembership where
  nodeId : Str
  suppressed : Bool
  deriving DecidableEq

structure ImportRecord where
  recordId : Str
  sourceId : Str
  sourceLabel : Str
  importedAtSecs : Nat
  memberships : List ImportRecordMembership
  deriving DecidableEq

/-! ## Memberships -/

def ImportRecordMembership.sortKey (m : ImportRecordMembership) : Str ×ₗ Bool :=
  toLex (m.nodeId, m.suppressed)

def mergeRuns (current : ImportRecordMembership) :
    List ImportRecordMembership → List ImportRecordMembership
  | [] => [current]
  | m :: rest =>
    if current.nodeId = m.nodeId then
      mergeRuns { current with suppressed := current.suppressed && m.suppressed } rest
    else current :: mergeRuns m rest

def mergeSorted : List ImportRecordMembership → List ImportRecordMembership
  | [] => []
  | m :: rest => mergeRuns m rest

def normalizeImportRecordMemberships (memberships : List ImportRecordMembership) :
    List ImportRecordMembership :=
  mergeSorted (memberships.insertionSort (fun a b => a.sortKey ≤ b.sortKey))

/-- One membership a node, in the order of the nodes' texts. -/
abbrev Ascending (memberships : List ImportRecordMembership) : Prop :=
  memberships.Pairwise (fun a b => a.nodeId < b.nodeId)

theorem nodeId_le_of_sortKey {a b : ImportRecordMembership} (h : a.sortKey ≤ b.sortKey) :
    a.nodeId ≤ b.nodeId := by
  rcases Prod.Lex.toLex_le_toLex.mp h with h | h
  · exact h.le
  · exact h.1.le

variable {current : ImportRecordMembership} {rest : List ImportRecordMembership}

theorem mergeRuns_bound
    {s : Str} (hc : s ≤ current.nodeId) (h : ∀ m ∈ rest, s ≤ m.nodeId) :
    ∀ m ∈ mergeRuns current rest, s ≤ m.nodeId := by
  induction rest generalizing current with
  | nil => simpa [mergeRuns] using hc
  | cons m rest ih =>
    have hrest : ∀ m' ∈ rest, s ≤ m'.nodeId := fun m' hm => h m' (mem_cons_of_mem _ hm)
    unfold mergeRuns
    split
    · exact ih hc hrest
    · intro m' hm'
      rcases mem_cons.mp hm' with rfl | hm'
      · exact hc
      · exact ih (h m mem_cons_self) hrest m' hm'

theorem mergeRuns_ascending
    (h : (current :: rest).Pairwise (fun a b => a.nodeId ≤ b.nodeId)) :
    Ascending (mergeRuns current rest) := by
  induction rest generalizing current with
  | nil => exact pairwise_singleton _ _
  | cons m rest ih =>
    obtain ⟨hc, hrest⟩ := pairwise_cons.mp h
    obtain ⟨hm, hrest'⟩ := pairwise_cons.mp hrest
    unfold mergeRuns
    split
    · refine ih (pairwise_cons.mpr ⟨fun m' hm' => ?_, hrest'⟩)
      exact hc m' (mem_cons_of_mem _ hm')
    · rename_i hne
      have hlt : current.nodeId < m.nodeId := lt_of_le_of_ne (hc m mem_cons_self) hne
      refine pairwise_cons.mpr ⟨fun m' hm' => ?_, ih hrest⟩
      exact hlt.trans_le (mergeRuns_bound le_rfl hm m' hm')

theorem normalizeMemberships_ascending (memberships : List ImportRecordMembership) :
    Ascending (normalizeImportRecordMemberships memberships) := by
  unfold normalizeImportRecordMemberships mergeSorted
  have hsorted : (memberships.insertionSort (fun a b => a.sortKey ≤ b.sortKey)).Pairwise
      (fun a b => a.nodeId ≤ b.nodeId) :=
    (pairwise_insertionSort _ memberships).imp nodeId_le_of_sortKey
  split
  · exact List.Pairwise.nil
  · rename_i heq
    rw [heq] at hsorted
    exact mergeRuns_ascending hsorted

/-! ## Records -/

def ImportRecord.sortKey (r : ImportRecord) : Str ×ₗ Nat ×ₗ Str :=
  toLex (r.sourceLabel, toLex (r.importedAtSecs, r.recordId))

/-- What a record that is there takes from another of its id. -/
def ImportRecord.absorb (entry record : ImportRecord) : ImportRecord :=
  { recordId := entry.recordId
    sourceId := if entry.sourceId.isEmpty then record.sourceId else entry.sourceId
    sourceLabel := if entry.sourceLabel.isEmpty then record.sourceLabel else entry.sourceLabel
    importedAtSecs :=
      if entry.importedAtSecs = 0 then record.importedAtSecs
      else if record.importedAtSecs ≠ 0 then min entry.importedAtSecs record.importedAtSecs
      else entry.importedAtSecs
    memberships := entry.memberships ++ record.memberships }

def ImportRecord.normalized (r : ImportRecord) : ImportRecord :=
  { r with memberships := normalizeImportRecordMemberships r.memberships }

/-- One record into the map of those before it. The map's order does not outlive the sort. -/
def mergeRecord (merged : List ImportRecord) (record : ImportRecord) : List ImportRecord :=
  if merged.any (fun r => r.recordId == record.recordId) then
    editFirst (fun r => r.recordId == record.recordId) (fun r => r.absorb record) merged
  else merged ++ [ImportRecord.absorb { record with memberships := [] } record]

section
variable (isBlank : Str → Bool)

def mergeRecords (records : List ImportRecord) : List ImportRecord :=
  records.foldl (fun merged record =>
    if isBlank record.recordId then merged else mergeRecord merged record.normalized) []

def normalizeImportRecords (records : List ImportRecord) : List ImportRecord :=
  ((mergeRecords isBlank records).map ImportRecord.normalized).insertionSort
    (fun a b => a.sortKey ≤ b.sortKey)

structure Normal (records : List ImportRecord) : Prop where
  ids : (records.map ImportRecord.recordId).Nodup
  named : ∀ r ∈ records, isBlank r.recordId = false
  members : ∀ r ∈ records, Ascending r.memberships
  sorted : records.Pairwise (fun a b => a.sortKey ≤ b.sortKey)

end

theorem editFirst_map {A B : Type} (p : A → Bool) (f : A → A) (g : A → B) (l : List A)
    (h : ∀ a, g (f a) = g a) : (editFirst p f l).map g = l.map g := by
  induction l with
  | nil => rfl
  | cons a l ih =>
    unfold editFirst
    split
    · rw [map_cons, map_cons, h]
    · rw [map_cons, map_cons, ih]

theorem ascending_editFirst {memberships : List ImportRecordMembership} (h : Ascending memberships)
    (p : ImportRecordMembership → Bool) (f : ImportRecordMembership → ImportRecordMembership)
    (hf : ∀ m, (f m).nodeId = m.nodeId) : Ascending (editFirst p f memberships) := by
  have hids : (memberships.map ImportRecordMembership.nodeId).Pairwise (· < ·) :=
    pairwise_map.mpr h
  rw [← editFirst_map p f _ memberships hf] at hids
  exact pairwise_map.mp hids

theorem mergeRecord_ids (merged : List ImportRecord) (record : ImportRecord) :
    (mergeRecord merged record).map ImportRecord.recordId =
      if merged.any (fun r => r.recordId == record.recordId) then merged.map ImportRecord.recordId
      else merged.map ImportRecord.recordId ++ [record.recordId] := by
  unfold mergeRecord
  split
  · exact editFirst_map _ _ _ _ fun r => rfl
  · rw [map_append]
    rfl

theorem mergeRecords_ids (isBlank : Str → Bool) (records : List ImportRecord) :
    ((mergeRecords isBlank records).map ImportRecord.recordId).Nodup ∧
      ∀ id ∈ (mergeRecords isBlank records).map ImportRecord.recordId, isBlank id = false := by
  suffices h : ∀ merged : List ImportRecord, (merged.map ImportRecord.recordId).Nodup →
      (∀ id ∈ merged.map ImportRecord.recordId, isBlank id = false) →
      ((records.foldl (fun merged record => if isBlank record.recordId then merged
        else mergeRecord merged record.normalized) merged).map ImportRecord.recordId).Nodup ∧
      ∀ id ∈ (records.foldl (fun merged record => if isBlank record.recordId then merged
        else mergeRecord merged record.normalized) merged).map ImportRecord.recordId,
        isBlank id = false from h [] nodup_nil (by simp)
  induction records with
  | nil => exact fun merged hd hb => ⟨hd, hb⟩
  | cons record records ih =>
    intro merged hd hb
    rw [foldl_cons]
    by_cases hblank : isBlank record.recordId = true
    · rw [if_pos hblank]
      exact ih merged hd hb
    · rw [if_neg hblank]
      apply ih
      · rw [mergeRecord_ids]
        split
        · exact hd
        · rename_i hnew
          refine nodup_append.mpr ⟨hd, nodup_singleton _, ?_⟩
          rintro id hid id' hid' rfl
          rw [mem_singleton] at hid'
          obtain ⟨r, hr, rfl⟩ := mem_map.mp hid
          exact hnew (any_eq_true.mpr ⟨r, hr, beq_iff_eq.mpr hid'⟩)
      · intro id hid
        rw [mergeRecord_ids] at hid
        split at hid
        · exact hb id hid
        · rcases mem_append.mp hid with hid | hid
          · exact hb id hid
          · rw [mem_singleton] at hid
            rw [hid]
            exact Bool.eq_false_iff.mpr hblank

theorem normal_normalizeImportRecords (isBlank : Str → Bool) (records : List ImportRecord) :
    Normal isBlank (normalizeImportRecords isBlank records) := by
  obtain ⟨hd, hb⟩ := mergeRecords_ids isBlank records
  have hperm := perm_insertionSort (fun a b : ImportRecord => a.sortKey ≤ b.sortKey)
    ((mergeRecords isBlank records).map ImportRecord.normalized)
  have hids : ((mergeRecords isBlank records).map ImportRecord.normalized).map ImportRecord.recordId
      = (mergeRecords isBlank records).map ImportRecord.recordId := by
    rw [map_map]
    rfl
  refine ⟨?_, ?_, ?_, pairwise_insertionSort _ _⟩
  · exact (hperm.map _).nodup_iff.mpr (hids ▸ hd)
  · intro r hr
    apply hb
    rw [← hids]
    exact mem_map_of_mem (hperm.mem_iff.mp hr)
  · intro r hr
    obtain ⟨r', -, rfl⟩ := mem_map.mp (hperm.mem_iff.mp hr)
    exact normalizeMemberships_ascending _

/-! ## Edits that keep the form -/

variable {isBlank : Str → Bool} {records : List ImportRecord}

theorem Normal.filter
    (h : Normal isBlank records) (p : ImportRecord → Bool) : Normal isBlank (records.filter p) where
  ids := h.ids.sublist (filter_sublist.map _)
  named r hr := h.named r (mem_filter.mp hr).1
  members r hr := h.members r (mem_filter.mp hr).1
  sorted := h.sorted.filter _

theorem Normal.map (h : Normal isBlank records)
    (f : ImportRecord → List ImportRecordMembership) (hf : ∀ r ∈ records, Ascending (f r)) :
    Normal isBlank (records.map fun r => { r with memberships := f r }) where
  ids := by
    rw [map_map]
    exact h.ids
  named := by
    intro r hr
    obtain ⟨r', hr', rfl⟩ := mem_map.mp hr
    exact h.named r' hr'
  members := by
    intro r hr
    obtain ⟨r', hr', rfl⟩ := mem_map.mp hr
    exact hf r' hr'
  sorted := pairwise_map.mpr h.sorted

end Mere.Kernel
