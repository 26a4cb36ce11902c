import Mere.Chartulary.View

/-!
# Runs of edits

What a list of edits does to a log-backed graph: to its view, where the connects bring ids that are
not in use, and to its counter, which only moves past ids of its own writer.
-/

namespace Mere.Chartulary

open List Option

variable {Id N E Value : Type} (edits : List (GraphEdit Id N E Value)) (writer : WriterId)
  (edits' : List (GraphEdit Id N E Value)) (n : Nat) (edit : GraphEdit Id N E Value)

/-! ## The ids that a run carries -/

theorem connectIds_cons (edits : List (GraphEdit Id N E Value)) :
    connectIds (edit :: edits) = (connectId edit).toList ++ connectIds edits := by
  unfold connectIds
  cases h : connectId edit with
  | none => rw [filterMap_cons_none h]; rfl
  | some id => rw [filterMap_cons_some h]; rfl

theorem connectIds_append :
    connectIds (edits ++ edits') = connectIds edits ++ connectIds edits' :=
  filterMap_append

theorem mem_connectIds (id : EdgeId) :
    id ∈ connectIds edits ↔ ∃ source target edge, .connect id source target edge ∈ edits := by
  unfold connectIds
  rw [mem_filterMap]
  constructor
  · rintro ⟨edit, hmem, hid⟩
    cases edit with
    | connect id' source target edge =>
      obtain rfl := some.inj hid
      exact ⟨source, target, edge, hmem⟩
    | _ => cases hid
  · rintro ⟨source, target, edge, hmem⟩
    exact ⟨_, hmem, rfl⟩

theorem editsOf_append (batches batches' : List (Batch Id N E Value)) :
    editsOf (batches ++ batches') = editsOf batches ++ editsOf batches' :=
  flatMap_append

/-! ## The counter -/

def passing (writer : WriterId) (n : Nat) (edit : GraphEdit Id N E Value) : Nat :=
  (mintedBy writer edit).elim n (max n)

theorem foldl_max (l : List Nat) : l.foldl max n = max n (l.foldl max 0) := by
  have hassoc : l.foldl max (max n 0) = max n (l.foldl max 0) := foldl_assoc
  rwa [Nat.max_zero] at hassoc

theorem frontier_append (edits edits' : List (GraphEdit Id N E Value)) :
    frontier writer (edits ++ edits') = max (frontier writer edits) (frontier writer edits') := by
  unfold frontier
  rw [filterMap_append, foldl_append, foldl_max]

theorem foldl_passing (edits : List (GraphEdit Id N E Value)) :
    edits.foldl (passing writer) n = max n (frontier writer edits) := by
  induction edits generalizing n with
  | nil => exact (Nat.max_zero n).symm
  | cons edit edits ih =>
    rw [foldl_cons, ih, frontier, frontier, passing]
    cases h : mintedBy writer edit with
    | none => rw [filterMap_cons_none h]; rfl
    | some m =>
      rw [filterMap_cons_some h, foldl_cons, foldl_max (max 0 m), Nat.zero_max,
        elim_some, max_assoc]

/-- The frontier lies past every id of the writer, and no further than it has to. -/
theorem frontier_le_iff (edits : List (GraphEdit Id N E Value)) (n : Nat) :
    frontier writer edits ≤ n ↔ ∀ id ∈ connectIds edits, id.writer = writer → id.counter < n := by
  induction edits with
  | nil => simp [frontier, connectIds]
  | cons edit edits ih =>
    have hcons : frontier writer (edit :: edits) = max (frontier writer [edit]) (frontier writer edits) :=
      frontier_append writer [edit] edits
    rw [hcons, max_le_iff, ih, connectIds_cons]
    simp only [mem_append, or_imp, forall_and]
    refine and_congr_left (fun _ => ?_)
    cases edit with
    | connect id source target edge =>
      by_cases hw : id.writer = writer
      · simp [frontier, mintedBy, connectId, hw]
      · simp [frontier, mintedBy, connectId, hw]
    | _ => exact iff_of_true (Nat.zero_le n) (by simp [connectId])

namespace View

/-- The connects of `edits` bring distinct ids, none of them in use. -/
structure Fresh (v : View Id N E Value) (edits : List (GraphEdit Id N E Value)) : Prop where
  distinct : (connectIds edits).Nodup
  unused : ∀ e ∈ connectIds edits, v.edges e = none

variable {edit} {edits} {e : EdgeId}

theorem Fresh.head {v : View Id N E Value} (h : v.Fresh (edit :: edits)) : v.Accepts edit := by
  cases edit with
  | connect id source target edge => exact h.unused id mem_cons_self
  | _ => trivial

theorem fresh_empty (h : (connectIds edits).Nodup) :
    (View.empty : View Id N E Value).Fresh edits :=
  ⟨h, fun _ _ => rfl⟩

variable [DecidableEq Id] [Identified N Id] {v : View Id N E Value}

theorem filter_true {α : Type} (o : Option α) : o.filter (fun _ => true) = o := by
  cases o <;> rfl

/-- An edit other than the connect of `e` leaves the edge, or takes it away. -/
def spares (e : EdgeId) (edge : Id × Id × E) : GraphEdit Id N E Value → Bool
  | .removeNode x => clear x edge
  | .disconnect id => e ≠ id
  | _ => true

theorem edges_apply (hne : connectId edit ≠ some e) :
    (v.apply edit).edges e = (v.edges e).filter (fun edge => spares e edge edit) := by
  cases edit with
  | insertNode node | derive x record => exact (filter_true _).symm
  | removeNode x => rfl
  | connect id source target edge =>
    refine Eq.trans ?_ (filter_true _).symm
    rw [apply_connect]
    exact if_neg (fun hc => hne (congrArg some hc.1.symm))
  | disconnect id =>
    change (if e = id then none else v.edges e) = (v.edges e).filter (fun _ => decide (e ≠ id))
    by_cases he : e = id
    · simp [he]
    · simp [he, filter_true]
  | setFacet x facet value => rw [apply_setFacet]; exact (filter_true _).symm
  | removeFacet x facet => rw [apply_removeFacet]; exact (filter_true _).symm

theorem edges_applyAll
    (hne : e ∉ connectIds edits) :
    (v.applyAll edits).edges e = (v.edges e).filter (fun edge => edits.all (spares e edge)) := by
  induction edits generalizing v with
  | nil => exact (filter_true _).symm
  | cons edit edits ih =>
    rw [connectIds_cons, mem_append, not_or, mem_toList] at hne
    refine (ih (v := v.apply edit) hne.2).trans ?_
    rw [edges_apply hne.1, Option.filter_filter]
    rfl

theorem edges_apply_eq_none (h : v.edges e = none)
    (hne : connectId edit ≠ some e) : (v.apply edit).edges e = none := by
  rw [edges_apply hne, h]
  rfl

theorem edges_applyAll_eq_none
    (h : v.edges e = none) (hne : e ∉ connectIds edits) : (v.applyAll edits).edges e = none := by
  rw [edges_applyAll hne, h]
  rfl

theorem Fresh.tail {edit : GraphEdit Id N E Value} {edits : List (GraphEdit Id N E Value)}
    (h : v.Fresh (edit :: edits)) : (v.apply edit).Fresh edits := by
  have hids := h.distinct
  rw [connectIds_cons] at hids
  refine ⟨hids.of_append_right, fun e he => edges_apply_eq_none (h.unused e ?_) ?_⟩
  · rw [connectIds_cons]
    exact mem_append_right _ he
  · intro hc
    exact disjoint_of_nodup_append hids (mem_toList.mpr hc) he

theorem Fresh.right {edits' : List (GraphEdit Id N E Value)} (h : v.Fresh (edits ++ edits')) :
    (v.applyAll edits).Fresh edits' := by
  have hids := h.distinct
  rw [connectIds_append] at hids
  refine ⟨hids.of_append_right, fun e he => edges_applyAll_eq_none (h.unused e ?_) ?_⟩
  · rw [connectIds_append]
    exact mem_append_right _ he
  · exact fun hc => disjoint_of_nodup_append hids hc he

theorem applyAll_append :
    v.applyAll (edits ++ edits') = (v.applyAll edits).applyAll edits' :=
  foldl_append

end View

namespace GraphLog

variable [DecidableEq Id] [Identified N Id] {g : GraphLog Id N E Value}
  (log : Journal (Batch Id N E Value))

/-! ## A run of edits -/

theorem Indexed.applyEdits (h : g.Indexed) {edits : List (GraphEdit Id N E Value)}
    (hfresh : g.view.Fresh edits) : (edits.foldl GraphLog.applyEdit g).Indexed ∧
      (edits.foldl GraphLog.applyEdit g).view = g.view.applyAll edits := by
  induction edits generalizing g with
  | nil => exact ⟨h, rfl⟩
  | cons edit edits ih =>
    have hview := view_applyEdit h hfresh.head
    have hnext := ih (h.applyEdit hfresh.head) (hview ▸ hfresh.tail)
    rw [hview] at hnext
    exact hnext

def stamped (g : GraphLog Id N E Value) (n : Nat) (log : Journal (Batch Id N E Value)) :
    GraphLog Id N E Value :=
  { g with nextEdge := n, log := log }

theorem link_stamped (id : EdgeId) (source target : Id)
    (edge : E) : (g.stamped n log).link id source target edge =
      (g.link id source target edge).stamped n log := by
  simp only [GraphLog.link, stamped]
  split <;> rfl

theorem link_writer (id : EdgeId) (source target : Id) (edge : E) :
    (g.link id source target edge).writer = g.writer := by
  simp only [GraphLog.link]
  split <;> rfl

theorem applyEdit_stamped : (g.stamped n log).applyEdit edit =
      (g.applyEdit edit).stamped (passing g.writer n edit) log := by
  cases edit with
  | insertNode node => rfl
  | derive x record => rfl
  | removeNode x => simp only [GraphLog.applyEdit, GraphLog.dropNode, stamped]; split <;> rfl
  | connect id source target edge =>
    have hw := link_writer (g := g) id source target edge
    rw [GraphLog.applyEdit, GraphLog.applyEdit, link_stamped, passed, passed, passing, mintedBy]
    by_cases hid : id.writer = g.writer
    · rw [if_pos (hid.trans hw.symm), if_pos hid]
      exact if_pos (hid.trans hw.symm)
    · have hne : id.writer ≠ (g.link id source target edge).writer := fun hc => hid (hc.trans hw)
      rw [if_neg hne, if_neg hid]
      exact if_neg hne
  | disconnect id => simp only [GraphLog.applyEdit, GraphLog.unlink, stamped]; split <;> rfl
  | setFacet x facet value | removeFacet x facet =>
    by_cases hx : (g.graph.keyOf x).isSome
    · simp [GraphLog.applyEdit, stamped, hx, passing, mintedBy]
    · simp [GraphLog.applyEdit, stamped, hx, passing, mintedBy]

theorem applyEdits_writer :
    (edits.foldl applyEdit g).writer = g.writer := by
  induction edits generalizing g with
  | nil => rfl
  | cons edit edits ih => exact ih.trans (applyEdit_writer edit)

theorem applyEdits_stamped
    (edits : List (GraphEdit Id N E Value)) : edits.foldl applyEdit (g.stamped n log) =
      (edits.foldl applyEdit g).stamped (max n (frontier g.writer edits)) log := by
  rw [← foldl_passing]
  induction edits generalizing g n with
  | nil => rfl
  | cons edit edits ih =>
    rw [foldl_cons, applyEdit_stamped, ih, applyEdit_writer]
    rfl

theorem applyEdits_nextEdge :
    (edits.foldl applyEdit g).nextEdge = max g.nextEdge (frontier g.writer edits) :=
  (congrArg GraphLog.nextEdge (applyEdits_stamped (g := g) g.nextEdge g.log edits) :)

theorem applyEdits_log :
    (edits.foldl applyEdit g).log = g.log :=
  (congrArg GraphLog.log (applyEdits_stamped (g := g) g.nextEdge g.log edits) :)

theorem foldl_applyBatch (batches : List (Batch Id N E Value)) :
    batches.foldl applyBatch g = (editsOf batches).foldl applyEdit g := by
  unfold editsOf
  rw [foldl_flatMap]
  rfl

/-! ## Replays -/

theorem indexed_empty :
    (forWriter ({} : GraphLog Id N E Value) writer).Indexed :=
  ⟨fun _ _ => ⟨nofun, nofun⟩, fun _ => rfl⟩

/-- A replay, of a journal in which no id is connected twice. -/
theorem replayForWriter_spec {log : Journal (Batch Id N E Value)}
    (h : (connectIds (editsOf log.entries)).Nodup) :
    (replayForWriter log writer).Indexed ∧
      (replayForWriter log writer).view = View.empty.applyAll (editsOf log.entries) := by
  unfold replayForWriter
  rw [foldl_applyBatch]
  obtain ⟨hindexed, hview⟩ := (indexed_empty writer).applyEdits (View.fresh_empty h)
  exact ⟨hindexed.congr rfl rfl rfl, hview⟩

theorem replayForWriter_counter (writer : WriterId) :
    (replayForWriter log writer).writer = writer ∧
      (replayForWriter log writer).nextEdge = frontier writer (editsOf log.entries) := by
  unfold replayForWriter
  rw [foldl_applyBatch]
  refine ⟨applyEdits_writer _, (applyEdits_nextEdge _).trans ?_⟩
  exact Nat.zero_max _

end GraphLog

end Mere.Chartulary
