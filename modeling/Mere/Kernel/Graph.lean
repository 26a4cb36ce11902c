import Mere.Kernel.Imports

/-!
# The kernel graph and its mutators

From `crates/graph/graph-kernel/src/graph/`: `mod.rs`, `node_props.rs`, `node_facets.rs`,
`import_records.rs`, `field_ops.rs` and `edge_ops.rs`. The clock, the ids the process mints and the
session number are arguments. The revision counter is left out.
-/

open Std (ExtTreeMap)

namespace Mere.Kernel

abbrev Inner := Chartulary.Graph Node EdgePayload

abbrev NodeFacetStore (P : Platform) := OrdMap Uuid (OrdMap Str P.Json)

abbrev UrlIndex := OrdMap Str (List Nat)

structure Graph (P : Platform) where
  inner : Inner := .new
  facets : NodeFacetStore P := ∅
  urlToNodes : UrlIndex := ∅
  importRecords : List ImportRecord := []
  fields : OrdMap Uuid (Field P) := ∅
  couplings : OrdMap Uuid Coupling := ∅
  nav : SharedNavigationMemory := .empty

/-! ## The URL index -/

namespace UrlIndex

def keysAt (index : UrlIndex) (url : Str) : List Nat := index.getD url []

def push (index : UrlIndex) (url : Str) (key : Nat) : UrlIndex :=
  index.insert url (index.keysAt url ++ [key])

def drop (index : UrlIndex) (url : Str) (key : Nat) : UrlIndex :=
  match index[url]? with
  | none => index
  | some keys =>
    if (keys.filter (· != key)).isEmpty then index.erase url
    else index.insert url (keys.filter (· != key))

end UrlIndex

namespace Graph

variable {P : Platform} (g : Graph P) (key : Nat) (id : Uuid) (source target : Nat) (url : Str)

def node (key : Nat) : Option Node := g.inner.node key

def getNodeKeyById : Option Nat := g.inner.keyOf id

def nodes : List (Nat × Node) := g.inner.nodes.toList

def putNode (node : Node) : Graph P := { g with inner := g.inner.insert node }

/-! ## Facets -/

def facet (id : Uuid) (facet : Str) : Option P.Json := (g.facets[id]?).bind (·[facet]?)

variable (facet : Str)

def putFacet (value : P.Json) : Graph P :=
  { g with facets := g.facets.insert id ((g.facets.getD id ∅).insert facet value) }

/-- `FacetStore::remove`: a node without facets has no entry. -/
def eraseFacet : Graph P :=
  let kept := (g.facets.getD id ∅).erase facet
  { g with facets := if kept.isEmpty then g.facets.erase id else g.facets.insert id kept }

def setNodeFacet (value : P.Json) : Graph P × Bool :=
  match g.node key with
  | none => (g, false)
  | some node =>
    if g.facet node.id facet = some value then (g, false) else (g.putFacet node.id facet value, true)

def removeNodeFacet : Graph P × Bool :=
  match g.node key with
  | none => (g, false)
  | some node =>
    if (g.facet node.id facet).isSome then (g.eraseFacet node.id facet, true) else (g, false)

def nodeFacetOrDefault {T : Type} (codec : Codec P.Json T) (missing : T) (key : Nat) (facet : Str) : T :=
  ((g.node key).bind fun node => (g.facet node.id facet).bind codec.decode).getD missing

/-- The typed facet mutators: `edit` is `none` where the source returns `false` before it
    writes. -/
def editFacet {T : Type} (codec : Codec P.Json T) (missing : T) (key : Nat) (facet : Str)
    (edit : T → Option T) : Graph P × Bool :=
  if (g.node key).isNone then (g, false)
  else
    match edit (g.nodeFacetOrDefault codec missing key facet) with
    | none => (g, false)
    | some value => g.setNodeFacet key facet (codec.encode value)

def arrangementPin : Str := text "arrangement.pin"
def arrangementFrameLayout : Str := text "arrangement.frame-layout"
def arrangementSplitOfferSuppressed : Str := text "arrangement.split-offer-suppressed"
def presentationTags : Str := text "presentation.tags"
def visitHistory : Str := text "visit.history"
def provenanceImport : Str := text "provenance.import"
def provenanceDerivations : Str := text "provenance.derivations"
def semanticClassifications : Str := text "semantic.classifications"
def semanticProperties : Str := text "semantic.properties"

def setFlag (value : Bool) (current : Bool) : Option Bool :=
  if current = value then none else some value

def setNodePinned (isPinned : Bool) : Graph P × Bool :=
  g.editFacet P.flag false key arrangementPin (setFlag isPinned)

def setFrameSplitOfferSuppressed (suppressed : Bool) : Graph P × Bool :=
  g.editFacet P.flag false key arrangementSplitOfferSuppressed (setFlag suppressed)

def appendFrameLayoutHint (hint : P.FrameLayoutHint) : Graph P × Bool :=
  g.editFacet P.frameLayout [] key arrangementFrameLayout (fun hints => some (hints ++ [hint]))

def removeFrameLayoutHintAt (hintIndex : Nat) : Graph P × Bool :=
  g.editFacet P.frameLayout [] key arrangementFrameLayout (fun hints =>
    if hintIndex ≥ hints.length then none else some (hints.eraseIdx hintIndex))

def moveFrameLayoutHint (fromIndex toIndex : Nat) : Graph P × Bool :=
  g.editFacet P.frameLayout [] key arrangementFrameLayout (fun hints =>
    if fromIndex ≥ hints.length ∨ toIndex ≥ hints.length ∨ fromIndex = toIndex then none
    else (hints[fromIndex]?).map fun hint => (hints.eraseIdx fromIndex).insertIdx toIndex hint)

/-- The provenance of a property, refreshed where it changed. -/
def NodeProperty.refresh (property existing : NodeProperty) : NodeProperty :=
  { existing with
    provenanceIri := property.provenanceIri
    assertedAtMs := property.assertedAtMs }

def appendNodeProperty (property : NodeProperty) : Graph P × Bool :=
  g.editFacet P.properties [] key semanticProperties (fun properties =>
    match properties.find? (fun existing => existing.contentEq property) with
    | some existing =>
      if NodeProperty.refresh property existing = existing then none
      else some (editFirst (fun existing => existing.contentEq property)
        (NodeProperty.refresh property) properties)
    | none => some (properties ++ [property]))

def NodeClassification.isFor (scheme : ClassificationScheme) (value : Str) (c : NodeClassification) :
    Bool := c.scheme == scheme && c.value == value

def addNodeClassification (classification : NodeClassification) : Graph P × Bool :=
  g.editFacet P.classifications [] key semanticClassifications (fun classifications =>
    if classifications.any (NodeClassification.isFor classification.scheme classification.value) then
      none
    else some (classifications ++ [classification]))

def removeNodeClassification (scheme : ClassificationScheme) (value : Str) : Graph P × Bool :=
  g.editFacet P.classifications [] key semanticClassifications (fun classifications =>
    if classifications.any (NodeClassification.isFor scheme value) then
      some (classifications.filter (fun c => !NodeClassification.isFor scheme value c))
    else none)

def setNodeClassificationStatus (scheme : ClassificationScheme) (value : Str)
    (status : ClassificationStatus) : Graph P × Bool :=
  g.editFacet P.classifications [] key semanticClassifications (fun classifications =>
    if classifications.any (NodeClassification.isFor scheme value) then
      some (classifications.map (fun c =>
        if NodeClassification.isFor scheme value c then { c with status } else c))
    else none)

def setNodePrimaryClassification (scheme : ClassificationScheme) (value : Str) : Graph P × Bool :=
  g.editFacet P.classifications [] key semanticClassifications (fun classifications =>
    if classifications.any (NodeClassification.isFor scheme value) then
      some (classifications.map (fun c =>
        if c.scheme = scheme then { c with primary := c.value == value } else c))
    else none)

def recordDerivation (derivation : NodeDerivation) : Graph P × Bool :=
  g.editFacet P.derivations [] key provenanceDerivations (fun derivations =>
    if derivation ∈ derivations then none else some (derivations ++ [derivation]))

def setNodeTagIconOverride (tag : Str) (icon : Option BadgeIcon) : Graph P × Bool :=
  match g.node key with
  | none => (g, false)
  | some node =>
    if tag ∉ node.tags ∨ startsWith tag "#" ∨ startsWith tag "udc:" then (g, false)
    else
      g.editFacet P.tagPresentation {} key presentationTags (fun presentation =>
        match icon with
        | some icon =>
          if presentation.iconOverrides[tag]? = some icon then none
          else some { presentation with iconOverrides := presentation.iconOverrides.insert tag icon }
        | none =>
          if (presentation.iconOverrides[tag]?).isNone then none
          else some { presentation with iconOverrides := presentation.iconOverrides.erase tag })

def setNodeLastVisitedAtMs (timestampMs : Nat) : Graph P × Bool :=
  g.editFacet P.visitHistory {} key visitHistory (fun history =>
    some { history with lastVisitedMs := some timestampMs })

def setNodeLastSessionVisited (lastSessionVisited : Nat) : Graph P × Bool :=
  g.editFacet P.visitHistory {} key visitHistory (fun history =>
    if history.lastSessionVisited = lastSessionVisited then none
    else some { history with lastSessionVisited })

def nodeLastVisited : Option Nat :=
  if (g.node key).isNone then none
  else (g.nodeFacetOrDefault P.visitHistory {} key visitHistory).lastVisitedMs

/-! ## Fields of a node -/

/-- The mutators of one node: `edit` is `none` where the source returns `false`. -/
def editNode (edit : Node → Option Node) : Graph P × Bool :=
  match (g.node key).bind edit with
  | none => (g, false)
  | some node => (g.putNode node, true)

def setNodeTitle (title : Str) : Graph P × Bool :=
  g.editNode key (fun node => if node.title = title then none else some { node with title })

def setNodeImage (role : ImageRole) (image : ImageRef) : Graph P × Bool :=
  g.editNode key (fun node =>
    if node.images role = some image then none else some (node.setImage role (some image)))

def setNodeNested (nested : Option Str) : Graph P × Bool :=
  g.editNode key (fun node => if node.nested = nested then none else some { node with nested })

def setNodeMimeHint (mimeHint : Option Str) : Graph P × Bool :=
  g.editNode key (fun node =>
    if node.mediaType = mimeHint then none else some { node with mediaType := mimeHint })

def setNodeContent (content : Option Bytes32) : Graph P × Bool :=
  g.editNode key (fun node =>
    if node.content = content then none
    else some { node with content, body := if content.isSome then none else node.body })

def setNodeBody (body : Option Str) : Graph P × Bool :=
  g.editNode key (fun node =>
    if node.body = body ∧ ¬ (body.isSome ∧ node.content.isSome) then none
    else some { node with body, content := if body.isSome then none else node.content })

def insertNodeTag (tag : Str) : Graph P × Bool :=
  match g.editNode key (fun node =>
    if tag ∈ node.tags then none else some { node with tags := insert tag node.tags }) with
  | (_, false) => (g, false)
  | (g, true) =>
    ((g.editFacet P.tagPresentation {} key presentationTags (fun presentation =>
      if tag ∈ presentation.orderedTags then none
      else some { presentation with orderedTags := presentation.orderedTags ++ [tag] })).1, true)

def removeNodeTag (tag : Str) : Graph P × Bool :=
  match g.editNode key (fun node =>
    if tag ∈ node.tags then some { node with tags := node.tags.erase tag } else none) with
  | (_, false) => (g, false)
  | (g, true) =>
    ((g.editFacet P.tagPresentation {} key presentationTags (fun presentation =>
      some { orderedTags := presentation.orderedTags.filter (· != tag)
             iconOverrides := presentation.iconOverrides.erase tag })).1, true)

/-! ## Nodes and their URLs -/

def keyFor : Nat := (g.inner.keyOf id).getD g.inner.nodes.nextKey

def newNode : Node :=
  { id, primaryAddress := addressFromUrl P url, title := url, mediaType := P.detectMime url }

def addNodeWithId (nowMs : Nat) : Graph P :=
  { ((g.putNode (newNode (P := P) id url)).setNodeLastVisitedAtMs (g.keyFor id) nowMs).1 with
    urlToNodes := g.urlToNodes.push url (g.keyFor id) }

def replayAddNodeWithIdIfMissing (nowMs : Nat) : Option (Graph P) :=
  if (g.getNodeKeyById id).isSome then none else some (g.addNodeWithId id url nowMs)

def removeNode : Graph P × Bool :=
  match g.node key with
  | none => (g, false)
  | some node =>
    ({ g with
        inner := g.inner.remove key
        urlToNodes := node.addresses.foldl (fun index address => index.drop address.asUrlStr key)
          g.urlToNodes
        facets := g.facets.erase node.id
        importRecords :=
          (g.importRecords.map (fun record => { record with
            memberships := record.memberships.filter (fun m => m.nodeId != P.uuidText node.id) }))
          |>.filter (fun record => !record.memberships.isEmpty) },
      true)

/-- A different host drops the favicon. -/
def movedTo (newUrl : Str) (node : Node) : Node :=
  { node with
    primaryAddress := addressFromUrl P newUrl
    images :=
      if cachedHostFromUrl P node.url = cachedHostFromUrl P newUrl then node.images
      else Function.update node.images .favicon none }

def updateNodeUrl (newUrl : Str) : Graph P × Option Str :=
  match g.node key with
  | none => (g, none)
  | some node =>
    ({ g.putNode (movedTo (P := P) newUrl node) with
        urlToNodes := (g.urlToNodes.drop node.url key).push newUrl key },
      some node.url)

def getNodeByUrl : Option Nat :=
  ((g.urlToNodes[url]?).bind List.getLast?).filter fun key => (g.node key).isSome

/-- A visit stamped on the node: history, session and page. -/
def visitNode (transition : Stemma.TransitionKind) (timestampMs session : Nat) :
    Option (Graph P) := do
  let nav ← g.nav.recordVisit id url transition timestampMs
  return ((Graph.setNodeLastSessionVisited { g with nav } key session).1.updateNodeUrl key url).1

def stepHistory (stepped : Option Str × SharedNavigationMemory) : Graph P × Option Str :=
  match stepped with
  | (none, nav) => ({ g with nav }, none)
  | (some url, nav) => ((Graph.updateNodeUrl { g with nav } key url).1, some url)

def clampedIndex (entries : List Str) (index : Nat) : Nat :=
  if entries.isEmpty then 0 else min index (entries.length - 1)

def setNodeHistoryState (entries : List Str) (index : Nat) : Option (Graph P × Bool) :=
  match g.node key with
  | none => some (g, false)
  | some node => do
    let current ← g.nav.projection node.id
    if current = ⟨entries, clampedIndex entries index⟩ then return (g, false)
    let nav ← g.nav.remove node.id
    let nav ← nav.seedLinear node.id entries (clampedIndex entries index)
    return ({ g with nav }, true)

/-! ## Edges -/

def bucket : Inner × Nat :=
  match g.inner.findEdge source target with
  | some key => (g.inner, key)
  | none => (g.inner.connect source target {}, g.inner.edges.nextKey)

def payloadAt (inner : Inner) (key : Nat) : EdgePayload :=
  ((inner.edge key).map Chartulary.Edge.weight).getD {}

def writeBucket {A : Type} (source target : Nat) (write : EdgePayload → EdgePayload × A) :
    Option (Graph P × Nat × A) :=
  if (g.node source).isNone ∨ (g.node target).isNone then none
  else
    let found := g.bucket source target
    let written := write (payloadAt found.1 found.2)
    some ({ g with inner := found.1.setWeight found.2 written.1 }, found.2, written.2)

def writeSemantic (source target : Nat) (write : EdgePayload → EdgePayload × Bool) :
    Graph P × Option Nat :=
  match g.writeBucket source target write with
  | none => (g, none)
  | some (g, key, changed) => (g, if changed then some key else none)

def assertSemanticRelationInScope (source target : Nat) (subKind : SemanticSubKind)
    (label : Option Str) (graphScope : GraphScope) (mint : Str) : Graph P × Option Nat :=
  g.writeSemantic source target fun payload =>
    payload.assertSemanticRelationInScope subKind label graphScope mint

def assertSemanticPredicateInScope (source target : Nat) (predicate : Str)
    (graphScope : GraphScope) (mint : Str) : Graph P × Option Nat :=
  g.writeSemantic source target fun payload =>
    payload.assertSemanticPredicateInScope predicate graphScope mint

def assertSemanticPredicate (predicate mint : Str) : Graph P × Option Nat :=
  g.assertSemanticPredicateInScope source target predicate .default mint

def assertKind (assertion : EdgeAssertion) (mint : Str) : Graph P × Option Nat :=
  if (g.node source).isNone ∨ (g.node target).isNone then (g, none)
  else
    match g.inner.findEdge source target with
    | some key =>
      let written := (payloadAt g.inner key).assertRelation assertion mint
      ({ g with inner := g.inner.setWeight key written.1 }, if written.2 then some key else none)
    | none =>
      let written := EdgePayload.assertRelation {} assertion mint
      if written.2 then
        ({ g with inner := g.inner.connect source target written.1 }, some g.inner.edges.nextKey)
      else (g, none)

def assertRelation (assertion : EdgeAssertion) (mint : Str) : Graph P × Option Nat :=
  match assertion with
  | .semantic subKind label =>
    g.assertSemanticRelationInScope source target subKind label .default mint
  | assertion => g.assertKind source target assertion mint

def assertSemanticStatement (source target : Nat) (spec : SemanticStatementSpec) (mint : Str) :
    Option (Graph P × Nat × StatementAssert) :=
  g.writeBucket source target fun payload => payload.assertSemanticStatement spec mint

def assertPersistedSemanticStatement (source target : Nat) (statement : SemanticStatement) :
    Option (Graph P × Nat × Bool) :=
  g.writeBucket source target fun payload => payload.pushPersistedSemanticStatement statement

/-- A write that may leave the payload empty; the edge then goes. -/
def shrinkEdge (inner : Inner) (key : Nat) (write : EdgePayload → EdgePayload × Bool) :
    Inner × Bool :=
  match inner.edge key with
  | none => (inner, false)
  | some edge =>
    let written := write edge.weight
    if written.2 then
      if written.1.isEmpty then (inner.disconnect key, true)
      else (inner.setWeight key written.1, true)
    else (inner, false)

def retractSemanticStatement (source target : Nat) (statementId : Str) : Graph P × Bool :=
  match g.inner.findEdge source target with
  | none => (g, false)
  | some key =>
    let shrunk := shrinkEdge g.inner key fun payload => payload.retractSemanticStatement statementId
    ({ g with inner := shrunk.1 }, shrunk.2)

/-- The edges from one node to another that carry the selected relation, and how many of them
    it was taken from. -/
def retractRelations (selector : RelationSelector) : Graph P × Nat :=
  let keys := (g.inner.edges.toList.filter (fun p =>
    p.2.source == source && p.2.target == target && p.2.weight.hasRelation selector)).map Prod.fst
  let done := keys.foldl (fun (acc : Inner × Nat) key =>
    let shrunk := shrinkEdge acc.1 key fun payload => payload.retractRelation selector
    (shrunk.1, acc.2 + shrunk.2.toNat)) (g.inner, 0)
  ({ g with inner := done.1 }, done.2)

/-- The edge stays, also where this empties its payload. -/
def setEdgeSemanticPredicate (predicate : Option Str) (mint : Str) : Graph P × Bool :=
  match g.inner.edge key with
  | none => (g, false)
  | some edge =>
    ({ g with inner := g.inner.setWeight key (edge.weight.setSemanticPredicate predicate mint) }, true)

def pushTraversal (source target : Nat) (traversal : Traversal) : Graph P × Bool :=
  if source = target ∨ (g.node source).isNone ∨ (g.node target).isNone then (g, false)
  else
    match g.inner.findEdge source target with
    | some key =>
      ({ g with
          inner := g.inner.setWeight key ((payloadAt g.inner key).pushTraversal traversal) }, true)
    | none =>
      ({ g with
          inner := g.inner.connect source target (EdgePayload.pushTraversal {} traversal) }, true)

/-! ## Import records -/

def sortedProvenance (provenance : List NodeImportProvenance) : List NodeImportProvenance :=
  (provenance.insertionSort (fun a b =>
    (toLex (a.sourceId, a.sourceLabel) : Str ×ₗ Str) ≤ toLex (b.sourceId, b.sourceLabel))).dedup

def memberKey (m : ImportRecordMembership) : Option Nat :=
  if m.suppressed then none else (P.parseUuid m.nodeId).bind g.inner.keyOf

def recordedProvenance : List NodeImportProvenance :=
  sortedProvenance (g.importRecords.flatMap fun record =>
    (record.memberships.filter (fun m => g.memberKey m == some key)).map fun _ =>
      ⟨record.sourceId, record.sourceLabel⟩)

def syncNodeImportProvenanceFromRecords : Graph P :=
  (g.nodes.map Prod.fst).foldl (fun h key =>
    (h.setNodeFacet key provenanceImport
      (P.importProvenance.encode (g.recordedProvenance key))).1) g

def setImportRecords (importRecords : List ImportRecord) : Graph P × Bool :=
  let records := normalizeImportRecords P.isBlank importRecords
  if g.importRecords = records then (g, false)
  else (Graph.syncNodeImportProvenanceFromRecords { g with importRecords := records }, true)

def deleteImportRecord (recordId : Str) : Graph P × Bool :=
  if g.importRecords.any (fun record => record.recordId == recordId) then
    (Graph.syncNodeImportProvenanceFromRecords
      { g with importRecords := g.importRecords.filter (fun record => record.recordId != recordId) },
      true)
  else (g, false)

def suppressIn (recordId nodeId : Str) (suppressed : Bool) (record : ImportRecord) : ImportRecord :=
  { record with
    memberships :=
      if record.recordId = recordId then
        editFirst (fun m => m.nodeId == nodeId) (fun m => { m with suppressed }) record.memberships
      else record.memberships }

def setImportRecordMembershipSuppressed (recordId : Str) (key : Nat) (suppressed : Bool) :
    Graph P × Bool :=
  match g.node key with
  | none => (g, false)
  | some node =>
    let records := g.importRecords.map (suppressIn recordId (P.uuidText node.id) suppressed)
    if records = g.importRecords then (g, false)
    else (Graph.syncNodeImportProvenanceFromRecords { g with importRecords := records }, true)

def nodeImportProvenance : List NodeImportProvenance :=
  g.nodeFacetOrDefault P.importProvenance [] key provenanceImport

def recordMeta (source : NodeImportProvenance) (importedAtSecs : Nat) : Str × Nat :=
  match g.importRecords.reverse.find? (fun record =>
    record.sourceId == source.sourceId && record.sourceLabel == source.sourceLabel) with
  | some record => (record.recordId, record.importedAtSecs)
  | none => (text "import-record:" ++ source.sourceId, importedAtSecs)

def rebuiltRecords (importedAtSecs : Nat) : List ImportRecord :=
  let claims := g.nodes.flatMap fun p => (g.nodeImportProvenance p.1).map fun source =>
    (source, ImportRecordMembership.mk (P.uuidText p.2.id) false)
  (sortedProvenance (claims.map Prod.fst)).map fun source =>
    { recordId := (g.recordMeta source importedAtSecs).1
      sourceId := source.sourceId
      sourceLabel := source.sourceLabel
      importedAtSecs := (g.recordMeta source importedAtSecs).2
      memberships := (claims.filter (fun claim => claim.1 = source)).map Prod.snd }

def rebuildImportRecordsFromNodeProvenance (importedAtSecs : Nat) : Graph P :=
  Graph.syncNodeImportProvenanceFromRecords
    { g with importRecords := normalizeImportRecords P.isBlank (g.rebuiltRecords importedAtSecs) }

def setNodeImportProvenance (provenance : List NodeImportProvenance) (nowSecs : Nat) :
    Graph P × Bool :=
  if (g.node key).isNone then (g, false)
  else if g.nodeImportProvenance key = sortedProvenance provenance then (g, false)
  else
    ((g.setNodeFacet key provenanceImport
      (P.importProvenance.encode (sortedProvenance provenance))).1
      |>.rebuildImportRecordsFromNodeProvenance nowSecs, true)

/-! ## Fields and couplings -/

def addField (field : Field P) : Graph P := { g with fields := g.fields.insert field.id field }

def setFieldLifecycle (lifecycle : FieldLifecycle) : Graph P × Bool :=
  match g.fields[id]? with
  | none => (g, false)
  | some field => ({ g with fields := g.fields.insert id { field with lifecycle } }, true)

def addCoupling (coupling : Coupling) : Graph P :=
  { g with couplings := g.couplings.insert coupling.id coupling }

def retractCoupling : Graph P × Bool :=
  if (g.couplings[id]?).isSome then ({ g with couplings := g.couplings.erase id }, true)
  else (g, false)

def setFieldCouplingStrength (field : Uuid) (strength : F32) : Graph P × Bool :=
  ({ g with
      couplings := g.couplings.map fun _ coupling =>
        if coupling.field = field then { coupling with strength } else coupling },
    g.couplings.toList.any fun p => p.2.field == field)

end Graph

end Mere.Kernel
