import Mere.Kernel.Graph

/-!
# Deltas and what is captured of them

From `crates/graph/graph-kernel/src/graph/apply.rs` and `capture.rs`. A live delta names nodes by
key; what it changed is captured as a delta that names them by id, with clock readings and minted
ids fixed. `none` is a panic of the navigation store, or a walk of it that does not end.
-/

namespace Mere.Kernel

variable {P : Platform}

structure Tick where
  nowMs : Nat
  nowSecs : Nat
  session : Nat
  nodeId : Uuid
  statementId : Str
  deriving DecidableEq

/-! ## The deltas -/

/-- The edits of one node that exist by key and by id. `V` is a facet value: JSON in a live
    delta, its text in a captured one. -/
inductive NodeEdit (P : Platform) (V : Type)
  | setNodeTitle (title : Str)
  | setNodeUrl (newUrl : Str)
  | setNodeImage (role : ImageRole) (image : ImageRef)
  | setNodeMimeHint (mimeHint : Option Str)
  | setNodeContent (content : Option Bytes32)
  | setNodeNested (nested : Option Str)
  | setNodePinned (isPinned : Bool)
  | setNodeFacet (facet : Str) (value : V)
  | removeNodeFacet (facet : Str)
  | appendFrameLayoutHint (hint : P.FrameLayoutHint)
  | removeFrameLayoutHint (hintIndex : Nat)
  | moveFrameLayoutHint (fromIndex toIndex : Nat)
  | setFrameSplitOfferSuppressed (suppressed : Bool)
  | updateNodeHistory (entries : List Str) (currentIndex : Nat)
  | insertNodeTag (tag : Str)
  | removeNodeTag (tag : Str)
  | setNodeBody (body : Option Str)
  | appendNodeProperty (property : NodeProperty)
  | addNodeClassification (classification : NodeClassification)
  | removeNodeClassification (scheme : ClassificationScheme) (value : Str)
  | setNodeClassificationStatus (scheme : ClassificationScheme) (value : Str)
      (status : ClassificationStatus)
  | setNodePrimaryClassification (scheme : ClassificationScheme) (value : Str)
  | recordNodeDerivation (derivation : NodeDerivation)
  | setNodeTagIconOverride (tag : Str) (icon : Option BadgeIcon)

structure PersistedField where
  id : Uuid
  name : Option Str
  definitionJson : Str
  extent : FieldExtent
  lifecycle : FieldLifecycle
  deriving DecidableEq

def persistedFieldFromField (field : Field P) : PersistedField :=
  { id := field.id, name := field.name, definitionJson := P.definitionText field.definition,
    extent := field.extent, lifecycle := field.lifecycle }

def fieldFromPersisted (field : PersistedField) : Option (Field P) :=
  (P.parseDefinition field.definitionJson).map fun definition =>
    { id := field.id, name := field.name, definition, extent := field.extent,
      lifecycle := field.lifecycle }

/-- The deltas that name what they change by stable ids. -/
inductive ReplayDelta (P : Platform) (V : Type)
  | addNodeWithIdIfMissing (id : Uuid) (url : Str)
  | removeNodeById (id : Uuid)
  | assertRelationByIds (source target : Uuid) (assertion : EdgeAssertion)
  | retractRelationsByIds (source target : Uuid) (selector : RelationSelector)
  | appendTraversalByIds (source target : Uuid) (trigger : NavigationTrigger) (timestampMs : Nat)
  | assertSemanticPredicateByIds (source target : Uuid) (predicate : Str)
  | setEdgeSemanticPredicateByIds (source target : Uuid) (predicate : Option Str)
  | editNodeById (id : Uuid) (edit : NodeEdit P V)
  | touchNodeLastVisitedById (id : Uuid) (timestampMs : Nat)
  | navigateNodeById (id : Uuid) (url : Str) (transition : Stemma.TransitionKind)
      (timestampMs lastSessionVisited : Nat)
  | branchHistoryByIds (child parent : Uuid)
  | nodeHistoryBackById (id : Uuid) (timestampMs : Nat)
  | nodeHistoryForwardById (id : Uuid) (timestampMs : Nat)
  | setImportRecords (importRecords : List ImportRecord)
  | addField (field : PersistedField)
  | setFieldLifecycleById (id : Uuid) (lifecycle : FieldLifecycle)
  | addCoupling (coupling : Coupling)
  | setFieldCouplingStrengthByFieldId (field : Uuid) (strength : F32)
  | retractCouplingById (id : Uuid)

abbrev CapturedDelta (P : Platform) := ReplayDelta P Str

inductive GraphDelta (P : Platform)
  | addNode (id : Option Uuid) (url : Str)
  | removeNode (key : Nat)
  | assertRelation (source target : Nat) (assertion : EdgeAssertion)
  | retractRelations (source target : Nat) (selector : RelationSelector)
  | appendTraversal (source target : Nat) (trigger : NavigationTrigger) (timestampMs : Option Nat)
  | assertSemanticPredicate (source target : Nat) (predicate : Str)
  | setEdgeSemanticPredicate (edge : Nat) (predicate : Option Str)
  | editNode (key : Nat) (edit : NodeEdit P P.Json)
  | touchNodeLastVisited (key : Nat)
  | navigateNode (key : Nat) (url : Str)
  | branchHistory (child parent : Nat)
  | nodeHistoryBack (key : Nat)
  | nodeHistoryForward (key : Nat)
  | setImportRecords (importRecords : List ImportRecord)
  | deleteImportRecord (recordId : Str)
  | setImportRecordMembershipSuppressed (recordId : Str) (key : Nat) (suppressed : Bool)
  | setNodeImportProvenance (key : Nat) (importProvenance : List NodeImportProvenance)
  | addField (field : Field P)
  | setFieldLifecycle (id : Uuid) (lifecycle : FieldLifecycle)
  | addCoupling (coupling : Coupling)
  | setFieldCouplingStrength (field : Uuid) (strength : F32)
  | retractCoupling (id : Uuid)
  | replay (delta : ReplayDelta P P.Json)

inductive GraphDeltaResult
  | nodeAdded (key : Nat)
  | nodeMaybeAdded (key : Option Nat)
  | edgeAdded (edge : Option Nat)
  | nodeRemoved (removed : Bool)
  | edgesRemoved (count : Nat)
  | traversalAppended (appended : Bool)
  | nodeMetadataUpdated (updated : Bool)
  | nodeUrlUpdated (old : Option Str)
  | historyStepped (url : Option Str)
  | fieldChanged (changed : Bool)
  | importRecordsUpdated (changed : Bool)
  | applied
  deriving DecidableEq

/-! ## Texts of facet values -/

namespace NodeEdit

/-- A facet value carried over, all else as it is; `none` where the value has no reading. -/
def traverse {V W : Type} (read : V → Option W) : NodeEdit P V → Option (NodeEdit P W)
  | setNodeTitle title => some (.setNodeTitle title)
  | setNodeUrl newUrl => some (.setNodeUrl newUrl)
  | setNodeImage role image => some (.setNodeImage role image)
  | setNodeMimeHint mimeHint => some (.setNodeMimeHint mimeHint)
  | setNodeContent content => some (.setNodeContent content)
  | setNodeNested nested => some (.setNodeNested nested)
  | setNodePinned isPinned => some (.setNodePinned isPinned)
  | setNodeFacet facet value => (read value).map (.setNodeFacet facet)
  | removeNodeFacet facet => some (.removeNodeFacet facet)
  | appendFrameLayoutHint hint => some (.appendFrameLayoutHint hint)
  | removeFrameLayoutHint hintIndex => some (.removeFrameLayoutHint hintIndex)
  | moveFrameLayoutHint fromIndex toIndex => some (.moveFrameLayoutHint fromIndex toIndex)
  | setFrameSplitOfferSuppressed suppressed => some (.setFrameSplitOfferSuppressed suppressed)
  | updateNodeHistory entries currentIndex => some (.updateNodeHistory entries currentIndex)
  | insertNodeTag tag => some (.insertNodeTag tag)
  | removeNodeTag tag => some (.removeNodeTag tag)
  | setNodeBody body => some (.setNodeBody body)
  | appendNodeProperty property => some (.appendNodeProperty property)
  | addNodeClassification classification => some (.addNodeClassification classification)
  | removeNodeClassification scheme value => some (.removeNodeClassification scheme value)
  | setNodeClassificationStatus scheme value status =>
    some (.setNodeClassificationStatus scheme value status)
  | setNodePrimaryClassification scheme value => some (.setNodePrimaryClassification scheme value)
  | recordNodeDerivation derivation => some (.recordNodeDerivation derivation)
  | setNodeTagIconOverride tag icon => some (.setNodeTagIconOverride tag icon)

end NodeEdit

namespace ReplayDelta

def traverse {V W : Type} (read : V → Option W) : ReplayDelta P V → Option (ReplayDelta P W)
  | addNodeWithIdIfMissing id url => some (.addNodeWithIdIfMissing id url)
  | removeNodeById id => some (.removeNodeById id)
  | assertRelationByIds source target assertion =>
    some (.assertRelationByIds source target assertion)
  | retractRelationsByIds source target selector =>
    some (.retractRelationsByIds source target selector)
  | appendTraversalByIds source target trigger timestampMs =>
    some (.appendTraversalByIds source target trigger timestampMs)
  | assertSemanticPredicateByIds source target predicate =>
    some (.assertSemanticPredicateByIds source target predicate)
  | setEdgeSemanticPredicateByIds source target predicate =>
    some (.setEdgeSemanticPredicateByIds source target predicate)
  | editNodeById id edit => (edit.traverse read).map (.editNodeById id)
  | touchNodeLastVisitedById id timestampMs => some (.touchNodeLastVisitedById id timestampMs)
  | navigateNodeById id url transition timestampMs lastSessionVisited =>
    some (.navigateNodeById id url transition timestampMs lastSessionVisited)
  | branchHistoryByIds child parent => some (.branchHistoryByIds child parent)
  | nodeHistoryBackById id timestampMs => some (.nodeHistoryBackById id timestampMs)
  | nodeHistoryForwardById id timestampMs => some (.nodeHistoryForwardById id timestampMs)
  | setImportRecords importRecords => some (.setImportRecords importRecords)
  | addField field => some (.addField field)
  | setFieldLifecycleById id lifecycle => some (.setFieldLifecycleById id lifecycle)
  | addCoupling coupling => some (.addCoupling coupling)
  | setFieldCouplingStrengthByFieldId field strength =>
    some (.setFieldCouplingStrengthByFieldId field strength)
  | retractCouplingById id => some (.retractCouplingById id)

/-- A delta as the hook is given it. -/
def captured (delta : ReplayDelta P P.Json) : Option (CapturedDelta P) :=
  delta.traverse fun value => some (P.jsonText value)

end ReplayDelta

/-- `CapturedDelta::replay_delta` -/
def CapturedDelta.replayDelta (delta : CapturedDelta P) : Option (ReplayDelta P P.Json) :=
  delta.traverse P.parseJson

/-! ## Applying them -/

/-- The graph after a step, what the step returns, and what the hook is given. -/
abbrev Applied (P : Platform) := Graph P × GraphDeltaResult × Option (CapturedDelta P)

namespace Graph

variable (g : Graph P)

/-- An edit of a node that is there, and whether it changed anything. -/
def applyEdit (key : Nat) : NodeEdit P P.Json → Option (Graph P × Bool)
  | .setNodeTitle title => some (g.setNodeTitle key title)
  | .setNodeUrl newUrl => some ((g.updateNodeUrl key newUrl).1, (g.updateNodeUrl key newUrl).2.isSome)
  | .setNodeImage role image => some (g.setNodeImage key role image)
  | .setNodeMimeHint mimeHint => some (g.setNodeMimeHint key mimeHint)
  | .setNodeContent content => some (g.setNodeContent key content)
  | .setNodeNested nested => some (g.setNodeNested key nested)
  | .setNodePinned isPinned => some (g.setNodePinned key isPinned)
  | .setNodeFacet facet value => some (g.setNodeFacet key facet value)
  | .removeNodeFacet facet => some (g.removeNodeFacet key facet)
  | .appendFrameLayoutHint hint => some (g.appendFrameLayoutHint key hint)
  | .removeFrameLayoutHint hintIndex => some (g.removeFrameLayoutHintAt key hintIndex)
  | .moveFrameLayoutHint fromIndex toIndex => some (g.moveFrameLayoutHint key fromIndex toIndex)
  | .setFrameSplitOfferSuppressed suppressed =>
    some (g.setFrameSplitOfferSuppressed key suppressed)
  | .updateNodeHistory entries currentIndex => g.setNodeHistoryState key entries currentIndex
  | .insertNodeTag tag => some (g.insertNodeTag key tag)
  | .removeNodeTag tag => some (g.removeNodeTag key tag)
  | .setNodeBody body => some (g.setNodeBody key body)
  | .appendNodeProperty property => some (g.appendNodeProperty key property)
  | .addNodeClassification classification => some (g.addNodeClassification key classification)
  | .removeNodeClassification scheme value => some (g.removeNodeClassification key scheme value)
  | .setNodeClassificationStatus scheme value status =>
    some (g.setNodeClassificationStatus key scheme value status)
  | .setNodePrimaryClassification scheme value =>
    some (g.setNodePrimaryClassification key scheme value)
  | .recordNodeDerivation derivation => some (g.recordDerivation key derivation)
  | .setNodeTagIconOverride tag icon => some (g.setNodeTagIconOverride key tag icon)

/-- What an edit returns: a URL edit the old URL, any other whether it changed something. -/
def editResult (key : Nat) (edit : NodeEdit P P.Json) (updated : Bool) : GraphDeltaResult :=
  match edit with
  | .setNodeUrl _ => .nodeUrlUpdated (if updated then (g.node key).map Node.url else none)
  | _ => .nodeMetadataUpdated updated

def capture (changed : Bool) (delta : ReplayDelta P P.Json) : Option (CapturedDelta P) :=
  if changed then delta.captured else none

def idsOf (source target : Nat) : Option (Uuid × Uuid) := do
  return ((← g.node source).id, (← g.node target).id)

def keysOf (source target : Uuid) : Option (Nat × Nat) := do
  return (← g.getNodeKeyById source, ← g.getNodeKeyById target)

def applyReplay (tick : Tick) (delta : ReplayDelta P P.Json) : Option (Applied P) :=
  match delta with
  | .addNodeWithIdIfMissing id url =>
    match g.replayAddNodeWithIdIfMissing id url tick.nowMs with
    | none => some (g, .nodeMaybeAdded none, none)
    | some added => some (added, .nodeMaybeAdded (some (g.keyFor id)), delta.captured)
  | .removeNodeById id =>
    match g.getNodeKeyById id with
    | none => some (g, .nodeRemoved false, none)
    | some key => some ((g.removeNode key).1, .nodeRemoved (g.removeNode key).2,
        capture (g.removeNode key).2 delta)
  | .assertRelationByIds source target assertion =>
    match g.keysOf source target with
    | none => some (g, .edgeAdded none, none)
    | some keys =>
      let done := g.assertRelation keys.1 keys.2 assertion tick.statementId
      some (done.1, .edgeAdded done.2, capture done.2.isSome delta)
  | .retractRelationsByIds source target selector =>
    match g.keysOf source target with
    | none => some (g, .edgesRemoved 0, none)
    | some keys =>
      let done := g.retractRelations keys.1 keys.2 selector
      some (done.1, .edgesRemoved done.2, capture (done.2 != 0) delta)
  | .appendTraversalByIds source target trigger timestampMs =>
    match g.keysOf source target with
    | none => some (g, .traversalAppended false, none)
    | some keys =>
      let done := g.pushTraversal keys.1 keys.2 ⟨timestampMs, trigger⟩
      some (done.1, .traversalAppended done.2, capture done.2 delta)
  | .assertSemanticPredicateByIds source target predicate =>
    match g.keysOf source target with
    | none => some (g, .edgeAdded none, none)
    | some keys =>
      let done := g.assertSemanticPredicate keys.1 keys.2 predicate tick.statementId
      some (done.1, .edgeAdded done.2, capture done.2.isSome delta)
  | .setEdgeSemanticPredicateByIds source target predicate =>
    match (g.keysOf source target).bind fun keys => g.inner.findEdge keys.1 keys.2 with
    | none => some (g, .nodeMetadataUpdated false, none)
    | some edge =>
      let done := g.setEdgeSemanticPredicate edge predicate tick.statementId
      some (done.1, .nodeMetadataUpdated done.2, capture done.2 delta)
  | .editNodeById id edit =>
    match g.getNodeKeyById id with
    | none => some (g, g.editResult 0 edit false, none)
    | some key => (g.applyEdit key edit).map fun done =>
        (done.1, g.editResult key edit done.2, capture done.2 delta)
  | .touchNodeLastVisitedById id timestampMs =>
    match g.getNodeKeyById id with
    | none => some (g, .nodeMetadataUpdated false, none)
    | some key =>
      let done := g.setNodeLastVisitedAtMs key timestampMs
      some (done.1, .nodeMetadataUpdated done.2, capture done.2 delta)
  | .navigateNodeById id url transition timestampMs lastSessionVisited =>
    match g.getNodeKeyById id with
    | none => some (g, .applied, none)
    | some key => (g.visitNode key id url transition timestampMs lastSessionVisited).map fun done =>
        (done, .applied, delta.captured)
  | .branchHistoryByIds child parent =>
    match g.keysOf child parent with
    | none => some (g, .applied, none)
    | some _ => (g.nav.spawn child parent).map fun nav =>
        ({ g with nav }, .applied, delta.captured)
  | .nodeHistoryBackById id timestampMs =>
    match g.getNodeKeyById id with
    | none => some (g, .historyStepped none, none)
    | some key => (g.nav.back id timestampMs).map fun stepped =>
        ((g.stepHistory key stepped).1, .historyStepped stepped.1, capture stepped.1.isSome delta)
  | .nodeHistoryForwardById id timestampMs =>
    match g.getNodeKeyById id with
    | none => some (g, .historyStepped none, none)
    | some key => (g.nav.forward id timestampMs).map fun stepped =>
        ((g.stepHistory key stepped).1, .historyStepped stepped.1, capture stepped.1.isSome delta)
  | .setImportRecords importRecords =>
    let done := g.setImportRecords importRecords
    some (done.1, .importRecordsUpdated done.2,
      capture done.2 (.setImportRecords done.1.importRecords))
  | .addField field =>
    match fieldFromPersisted field with
    | none => some (g, .fieldChanged false, none)
    | some parsed => some (g.addField parsed, .fieldChanged true, delta.captured)
  | .setFieldLifecycleById id lifecycle =>
    let done := g.setFieldLifecycle id lifecycle
    some (done.1, .fieldChanged done.2, capture done.2 delta)
  | .addCoupling coupling => some (g.addCoupling coupling, .fieldChanged true, delta.captured)
  | .setFieldCouplingStrengthByFieldId field strength =>
    let done := g.setFieldCouplingStrength field strength
    some (done.1, .fieldChanged done.2, capture done.2 delta)
  | .retractCouplingById id =>
    let done := g.retractCoupling id
    some (done.1, .fieldChanged done.2, capture done.2 delta)

def lastTraversal (source target : Nat) : Option Traversal :=
  (g.inner.link source target).bind fun payload => payload.traversals.getLast?

def applyGraphDelta (tick : Tick) (delta : GraphDelta P) : Option (Applied P) :=
  match delta with
  | .addNode id url =>
    let id := id.getD tick.nodeId
    some (g.addNodeWithId id url tick.nowMs, .nodeAdded (g.keyFor id),
      ReplayDelta.captured (.addNodeWithIdIfMissing id url))
  | .removeNode key =>
    let done := g.removeNode key
    some (done.1, .nodeRemoved done.2,
      (g.node key).bind fun node => capture done.2 (.removeNodeById node.id))
  | .assertRelation source target assertion =>
    let done := g.assertRelation source target assertion tick.statementId
    some (done.1, .edgeAdded done.2, (g.idsOf source target).bind fun ids =>
      capture done.2.isSome (.assertRelationByIds ids.1 ids.2 assertion))
  | .retractRelations source target selector =>
    let done := g.retractRelations source target selector
    some (done.1, .edgesRemoved done.2, (g.idsOf source target).bind fun ids =>
      capture (done.2 != 0) (.retractRelationsByIds ids.1 ids.2 selector))
  | .appendTraversal source target trigger timestampMs =>
    let done := g.pushTraversal source target ⟨timestampMs.getD tick.nowMs, trigger⟩
    some (done.1, .traversalAppended done.2, (g.idsOf source target).bind fun ids =>
      (done.1.lastTraversal source target).bind fun traversal =>
        capture done.2 (.appendTraversalByIds ids.1 ids.2 traversal.trigger traversal.timestampMs))
  | .assertSemanticPredicate source target predicate =>
    let done := g.assertSemanticPredicate source target predicate tick.statementId
    some (done.1, .edgeAdded done.2, (g.idsOf source target).bind fun ids =>
      capture done.2.isSome (.assertSemanticPredicateByIds ids.1 ids.2 predicate))
  | .setEdgeSemanticPredicate edge predicate =>
    let done := g.setEdgeSemanticPredicate edge predicate tick.statementId
    some (done.1, .nodeMetadataUpdated done.2,
      ((g.inner.edge edge).bind fun e => g.idsOf e.source e.target).bind fun ids =>
        capture done.2 (.setEdgeSemanticPredicateByIds ids.1 ids.2 predicate))
  | .editNode key edit =>
    match g.node key with
    | none => some (g, g.editResult key edit false, none)
    | some node => (g.applyEdit key edit).map fun done =>
        (done.1, g.editResult key edit done.2, capture done.2 (.editNodeById node.id edit))
  | .touchNodeLastVisited key =>
    let done := g.setNodeLastVisitedAtMs key tick.nowMs
    some (done.1, .nodeMetadataUpdated done.2, (g.node key).bind fun node =>
      (done.1.nodeLastVisited key).bind fun timestampMs =>
        capture done.2 (.touchNodeLastVisitedById node.id timestampMs))
  | .navigateNode key url =>
    match g.node key with
    | none => some (g, .applied, none)
    | some node => (g.visitNode key node.id url .urlTyped tick.nowMs tick.session).map fun done =>
        (done, .applied, ReplayDelta.captured
          (.navigateNodeById node.id url .urlTyped tick.nowMs tick.session))
  | .branchHistory child parent =>
    match g.idsOf child parent with
    | none => some (g, .applied, none)
    | some ids => (g.nav.spawn ids.1 ids.2).map fun nav =>
        ({ g with nav }, .applied, ReplayDelta.captured (.branchHistoryByIds ids.1 ids.2))
  | .nodeHistoryBack key =>
    match g.node key with
    | none => some (g, .historyStepped none, none)
    | some node => (g.nav.back node.id tick.nowMs).map fun stepped =>
        ((g.stepHistory key stepped).1, .historyStepped stepped.1,
          capture stepped.1.isSome (.nodeHistoryBackById node.id tick.nowMs))
  | .nodeHistoryForward key =>
    match g.node key with
    | none => some (g, .historyStepped none, none)
    | some node => (g.nav.forward node.id tick.nowMs).map fun stepped =>
        ((g.stepHistory key stepped).1, .historyStepped stepped.1,
          capture stepped.1.isSome (.nodeHistoryForwardById node.id tick.nowMs))
  | .setImportRecords importRecords => g.applyReplay tick (.setImportRecords importRecords)
  | .deleteImportRecord recordId =>
    let done := g.deleteImportRecord recordId
    some (done.1, .importRecordsUpdated done.2,
      capture done.2 (.setImportRecords done.1.importRecords))
  | .setImportRecordMembershipSuppressed recordId key suppressed =>
    let done := g.setImportRecordMembershipSuppressed recordId key suppressed
    some (done.1, .importRecordsUpdated done.2,
      capture done.2 (.setImportRecords done.1.importRecords))
  | .setNodeImportProvenance key importProvenance =>
    let done := g.setNodeImportProvenance key importProvenance tick.nowSecs
    some (done.1, .importRecordsUpdated done.2,
      capture done.2 (.setImportRecords done.1.importRecords))
  | .addField field =>
    some (g.addField field, .fieldChanged true,
      ReplayDelta.captured (.addField (persistedFieldFromField field)))
  | .setFieldLifecycle id lifecycle =>
    g.applyReplay tick (.setFieldLifecycleById id lifecycle)
  | .addCoupling coupling => g.applyReplay tick (.addCoupling coupling)
  | .setFieldCouplingStrength field strength =>
    g.applyReplay tick (.setFieldCouplingStrengthByFieldId field strength)
  | .retractCoupling id => g.applyReplay tick (.retractCouplingById id)
  | .replay delta => g.applyReplay tick delta

def apply (tick : Tick) (delta : GraphDelta P) : Option (Graph P) :=
  (g.applyGraphDelta tick delta).map Prod.fst

end Graph

end Mere.Kernel
