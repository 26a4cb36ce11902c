import Mere.Chartulary.Graph
import Mere.Muniment.Journal

/-!
# The edit spine

From `crates/eidetic/chartulary/src/edit.rs`, `facet.rs` and `spine.rs`: a materialized graph and
the journal of batches that made it. A writer mints fewer than 2^64 edge ids.
-/

namespace Mere.Chartulary

/-! ## Edits -/

abbrev WriterId := Bytes32

def localWriter : WriterId := 0

structure EdgeId where
  writer : WriterId
  counter : Nat
  deriving DecidableEq

inductive DerivationKind where
  | copiedFrom | clippedFrom | generatedFrom | translatedFrom
  deriving DecidableEq

structure DerivationRecord (Id : Type) where
  sourceLog : LogId
  sourceNode : Id
  kind : DerivationKind
  deriving DecidableEq

abbrev FacetId := Str

structure Author where
  name : Str
  deriving DecidableEq

inductive GraphEdit (Id N E Value : Type) where
  | insertNode (node : N)
  | removeNode (id : Id)
  | connect (id : EdgeId) (source target : Id) (edge : E)
  | disconnect (id : EdgeId)
  | derive (node : Id) (record : DerivationRecord Id)
  | setFacet (node : Id) (facet : FacetId) (value : Value)
  | removeFacet (node : Id) (facet : FacetId)
  deriving DecidableEq

structure Batch (Id N E Value : Type) where
  author : Author
  edits : List (GraphEdit Id N E Value)
  deriving DecidableEq

/-! ## Facets -/

/-- The facets of each node; no code here walks either map. -/
structure FacetStore (Id Value : Type) where
  nodes : Table Id (Table FacetId Value) := ∅

namespace FacetStore

variable {Id Value : Type} [DecidableEq Id] (s : FacetStore Id Value)

def get (node : Id) (facet : FacetId) : Option Value := (s.nodes.lookup node).bind (·.lookup facet)

/-- `set` under `AcceptAll`, which refuses nothing. -/
def set (node : Id) (facet : FacetId) (value : Value) : FacetStore Id Value :=
  ⟨s.nodes.insert node (((s.nodes.lookup node).getD ∅).insert facet value)⟩

def remove (node : Id) (facet : FacetId) : FacetStore Id Value :=
  match s.nodes.lookup node with
  | none => s
  | some facets =>
    if (facets.erase facet).entries.isEmpty then ⟨s.nodes.erase node⟩
    else ⟨s.nodes.insert node (facets.erase facet)⟩

def removeNode (node : Id) : FacetStore Id Value := ⟨s.nodes.erase node⟩

theorem get_set (node x : Id) (facet f : FacetId) (value : Value) :
    (s.set node facet value).get x f =
      if x = node ∧ f = facet then some value else s.get x f := by
  change ((s.nodes.insert node _).lookup x).bind _ = _
  rw [Table.lookup_insert_if]
  by_cases hx : x = node
  · subst hx
    rw [if_pos rfl, Option.bind_some, Table.lookup_insert_if]
    by_cases hf : f = facet
    · simp [hf]
    · rw [if_neg hf, if_neg (by simp [hf])]
      unfold get
      cases s.nodes.lookup x with
      | none => rfl
      | some facets => rfl
  · rw [if_neg hx, if_neg (by simp [hx])]
    rfl

theorem get_remove (node x : Id) (facet f : FacetId) :
    (s.remove node facet).get x f = if x = node ∧ f = facet then none else s.get x f := by
  unfold remove
  split
  · rename_i hnone
    split
    · rename_i h
      rw [h.1]
      unfold get
      rw [hnone]
      rfl
    · rfl
  · rename_i facets hsome
    -- What is left at the node, whether or not the node is dropped with it.
    have hleft : ((facets.erase facet).lookup f) =
        if f = facet then none else facets.lookup f := Table.lookup_erase_if facets facet f
    have hget : s.get node f = facets.lookup f := by
      unfold get
      rw [hsome]
      rfl
    split
    · rename_i hempty
      change ((s.nodes.erase node).lookup x).bind _ = _
      rw [Table.lookup_erase_if]
      by_cases hx : x = node
      · subst hx
        rw [if_pos rfl, Option.bind_none, hget]
        have hnone : (facets.erase facet).lookup f = none := by
          rw [AList.lookup_eq_none, AList.mem_keys, AList.keys, List.isEmpty_iff.mp hempty]
          exact List.not_mem_nil
        rw [hleft] at hnone
        by_cases hf : f = facet
        · simp [hf]
        · rw [if_neg hf] at hnone
          rw [if_neg (by simp [hf]), hnone]
      · rw [if_neg hx, if_neg (by simp [hx])]
        rfl
    · change ((s.nodes.insert node _).lookup x).bind _ = _
      rw [Table.lookup_insert_if]
      by_cases hx : x = node
      · subst hx
        rw [if_pos rfl, Option.bind_some, hleft, hget]
        simp
      · rw [if_neg hx, if_neg (by simp [hx])]
        rfl

theorem get_removeNode (node x : Id) (f : FacetId) :
    (s.removeNode node).get x f = if x = node then none else s.get x f := by
  change ((s.nodes.erase node).lookup x).bind _ = _
  rw [Table.lookup_erase_if]
  split <;> rfl

end FacetStore

/-! ## The log-backed graph -/

structure GraphLog (Id N E Value : Type) [DecidableEq Id] [Identified N Id] where
  graph : Graph N E := .new
  log : Journal (Batch Id N E Value) := .new
  byEdgeId : Table EdgeId Nat := ∅
  byEdgeKey : Table Nat EdgeId := ∅
  derivations : Table Id (List (DerivationRecord Id)) := ∅
  facets : FacetStore Id Value := {}
  writer : WriterId := localWriter
  nextEdge : Nat := 0

def mintedBy {Id N E Value : Type} (writer : WriterId) : GraphEdit Id N E Value → Option Nat
  | .connect id _ _ _ => if id.writer = writer then some (id.counter + 1) else none
  | _ => none

def frontier {Id N E Value : Type} (writer : WriterId) (edits : List (GraphEdit Id N E Value)) : Nat :=
  (edits.filterMap (mintedBy writer)).foldl max 0

def editsOf {Id N E Value : Type} (batches : List (Batch Id N E Value)) :
    List (GraphEdit Id N E Value) :=
  batches.flatMap Batch.edits

namespace GraphLog

variable {Id N E Value : Type} [DecidableEq Id] [Identified N Id]

def withId (id : LogId) : GraphLog Id N E Value := { log := Journal.withId id }

variable (g : GraphLog Id N E Value)

/-- Says which replica this is; the counter is read off the journal, so that an edge that was
disconnected since still counts. -/
def forWriter (writer : WriterId) : GraphLog Id N E Value :=
  { g with writer := writer, nextEdge := frontier writer (editsOf g.log.entries) }

def revision : Nat := g.log.len

def edgeKey (id : EdgeId) : Option Nat := g.byEdgeId.lookup id

def derivationsOf (node : Id) : List (DerivationRecord Id) := (g.derivations.lookup node).getD []

def reap (index : Table EdgeId Nat × Table Nat EdgeId) (edgeKey : Nat) :
    Table EdgeId Nat × Table Nat EdgeId :=
  match index.2.lookup edgeKey with
  | some edgeId => (index.1.erase edgeId, index.2.erase edgeKey)
  | none => index

def dropNode (id : Id) : GraphLog Id N E Value :=
  match g.graph.keyOf id with
  | some key =>
    let index := (g.graph.incidentEdges key).foldl reap (g.byEdgeId, g.byEdgeKey)
    { g with graph := g.graph.remove key, byEdgeId := index.1, byEdgeKey := index.2 }
  | none => g

def link (id : EdgeId) (source target : Id) (edge : E) : GraphLog Id N E Value :=
  match g.graph.keyOf source, g.graph.keyOf target with
  | some s, some t =>
    { g with
      graph := g.graph.connect s t edge
      byEdgeId := g.byEdgeId.insert id g.graph.edges.nextKey
      byEdgeKey := g.byEdgeKey.insert g.graph.edges.nextKey id }
  | _, _ => g

/-- The counter passes every id of this writer, also that of an edge left out. -/
def passed (id : EdgeId) : GraphLog Id N E Value :=
  if id.writer = g.writer then { g with nextEdge := max g.nextEdge (id.counter + 1) } else g

def unlink (id : EdgeId) : GraphLog Id N E Value :=
  match g.byEdgeId.lookup id with
  | some key =>
    { g with
      byEdgeId := g.byEdgeId.erase id
      byEdgeKey := g.byEdgeKey.erase key
      graph := g.graph.disconnect key }
  | none => g

def applyEdit : GraphEdit Id N E Value → GraphLog Id N E Value
  | .insertNode node => { g with graph := g.graph.insert node }
  | .removeNode id =>
    let dropped := g.dropNode id
    { dropped with
      derivations := dropped.derivations.erase id, facets := dropped.facets.removeNode id }
  | .connect id source target edge => (g.link id source target edge).passed id
  | .disconnect id => g.unlink id
  | .derive node record =>
    { g with derivations := g.derivations.insert node (g.derivationsOf node ++ [record]) }
  | .setFacet node facet value =>
    if (g.graph.keyOf node).isSome then { g with facets := g.facets.set node facet value } else g
  | .removeFacet node facet =>
    if (g.graph.keyOf node).isSome then { g with facets := g.facets.remove node facet } else g

def applyBatch (batch : Batch Id N E Value) : GraphLog Id N E Value := batch.edits.foldl applyEdit g

def replayForWriter (log : Journal (Batch Id N E Value)) (writer : WriterId) : GraphLog Id N E Value :=
  { log.entries.foldl applyBatch (forWriter {} writer) with log := log }

def replay (log : Journal (Batch Id N E Value)) : GraphLog Id N E Value :=
  replayForWriter log localWriter

def fork (newId : LogId) : GraphLog Id N E Value := replay (g.log.fork newId)

end GraphLog

end Mere.Chartulary
