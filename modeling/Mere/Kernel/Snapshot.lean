import Mere.Kernel.Delta

/-!
# Snapshots of the kernel graph

From `crates/graph/graph-kernel/src/graph/snapshot/` and `rebuild_derived_containment_relations`
of `query.rs`. Entries whose id does not parse are left out, and ids are ids. The legacy columns of
a node are facets that an old snapshot carried.
-/

namespace Mere.Kernel

variable {P : Platform}

/-! ## The records -/

structure PersistedNode (P : Platform) where
  nodeId : Uuid
  address : Address
  url : Str
  title : Str
  tags : Finset Str
  images : ImageRole → Option ImageRef
  mimeHint : Option Str
  body : Option Str
  nested : Option Str
  contentHash : Option Str
  tagPresentation : NodeTagPresentationState := {}
  importProvenance : List NodeImportProvenance := []
  classifications : List NodeClassification := []
  properties : List NodeProperty := []
  derivations : List NodeDerivation := []
  isPinned : Bool := false
  frameLayoutHints : List P.FrameLayoutHint := []
  frameSplitOfferSuppressed : Bool := false
  lastVisitedMs : Option Nat := none
  lastSessionVisited : Nat := 0

def PersistedNode.nodeUrl (pnode : PersistedNode P) : Str :=
  if pnode.address.asUrlStr.isEmpty then pnode.url else pnode.address.asUrlStr

def PersistedNode.restore (pnode : PersistedNode P) (node : Node) : Node :=
  let content := pnode.contentHash.bind P.hashFromHex
  { node with
    title := pnode.title
    tags := pnode.tags
    images := pnode.images
    mediaType := pnode.mimeHint
    nested := pnode.nested
    content
    body := if content.isSome then none else pnode.body }

/-- The legacy columns, each with the facet it goes to. -/
def PersistedNode.columns (pnode : PersistedNode P) : List (Str × P.Json) :=
  [(Graph.presentationTags, P.tagPresentation.encode pnode.tagPresentation),
    (Graph.provenanceImport, P.importProvenance.encode pnode.importProvenance),
    (Graph.semanticClassifications, P.classifications.encode pnode.classifications),
    (Graph.semanticProperties, P.properties.encode pnode.properties),
    (Graph.provenanceDerivations, P.derivations.encode pnode.derivations),
    (Graph.arrangementPin, P.flag.encode pnode.isPinned),
    (Graph.arrangementFrameLayout, P.frameLayout.encode pnode.frameLayoutHints),
    (Graph.arrangementSplitOfferSuppressed, P.flag.encode pnode.frameSplitOfferSuppressed)]

structure PersistedSemanticEdgeData where
  subKinds : List SemanticSubKind
  label : Option Str
  predicate : Option Str
  statements : List SemanticStatement
  deriving DecidableEq

inductive PersistedArrangementSubKind
  | live (subKind : ArrangementSubKind)
  | tabNeighbor | activeTab | pinnedInFrame
  deriving DecidableEq

structure PersistedEdge where
  fromNodeId : Uuid
  toNodeId : Uuid
  semantic : Option PersistedSemanticEdgeData
  traversal : Option TraversalData
  containment : Option (List ContainmentSubKind)
  arrangement : Option (List PersistedArrangementSubKind)
  imported : Option (List ImportedSubKind)
  provenance : Option (List ProvenanceSubKind)
  deriving DecidableEq

structure GraphSnapshot (P : Platform) where
  nodes : List (PersistedNode P)
  edges : List PersistedEdge
  importRecords : List ImportRecord
  timestampSecs : Nat
  fields : List PersistedField
  couplings : List Coupling
  navigation : SharedNavigationMemory

/-! ## Writing -/

def listed {S : Type} [DecidableEq S] (all : List S) (kinds : Finset S) : List S :=
  all.filter (· ∈ kinds)

def semanticSubKinds : List SemanticSubKind :=
  [.hyperlink, .userGrouped, .agentDerived, .cites, .quotes, .summarizes, .elaborates, .exampleOf,
    .supports, .contradicts, .questions, .sameEntityAs, .duplicateOf, .canonicalMirrorOf, .dependsOn,
    .blocks, .nextStep]

def arrangementSubKinds : List ArrangementSubKind := [.frameMember, .tileGroup, .splitPair]

def containmentSubKinds : List ContainmentSubKind :=
  [.urlPath, .domain, .fileSystem, .userFolder, .clipSource, .notebookSection, .collectionMember]

def importedSubKinds : List ImportedSubKind :=
  [.bookmarkFolder, .historyImport, .sessionImport, .rssMembership, .fileSystemImport,
    .archiveMembership, .sharedCollection]

def provenanceSubKinds : List ProvenanceSubKind :=
  [.clippedFrom, .excerptedFrom, .summarizedFrom, .translatedFrom, .rewrittenFrom, .generatedFrom,
    .extractedFrom, .importedFromSource, .copiedFrom]

def Node.persisted (node : Node) : PersistedNode P :=
  { nodeId := node.id, address := node.primaryAddress, url := node.url, title := node.title,
    tags := node.tags, images := node.images, mimeHint := node.mediaType, body := node.body,
    nested := node.nested, contentHash := node.content.map P.hashHex }

def SemanticData.persisted (data : SemanticData) : PersistedSemanticEdgeData :=
  { subKinds := listed semanticSubKinds data.subKinds, label := data.label,
    predicate := data.predicate, statements := data.statements }

def PersistedSemanticEdgeData.isWritten (data : PersistedSemanticEdgeData) : Bool :=
  !data.subKinds.isEmpty || data.label.isSome || data.predicate.isSome || !data.statements.isEmpty

def EdgePayload.persisted (payload : EdgePayload) (fromNodeId toNodeId : Uuid) : PersistedEdge :=
  { fromNodeId, toNodeId
    semantic := (payload.semantic.map SemanticData.persisted).filter (fun data => data.isWritten)
    traversal := payload.traversal
    containment := payload.containment.map (listed containmentSubKinds)
    arrangement := payload.arrangement.map fun kinds =>
      ((listed arrangementSubKinds kinds).filter (fun kind => kind.durability = .durable)).map
        PersistedArrangementSubKind.live
    imported := payload.imported.map (listed importedSubKinds)
    provenance := payload.provenance.map (listed provenanceSubKinds) }

namespace Graph

variable (g : Graph P) (key : Nat) (node : Node)

/-- Both ends of a live edge are live. -/
def persistedEdge (edge : Chartulary.Edge EdgePayload) : Option PersistedEdge :=
  (g.idsOf edge.source edge.target).map fun ids => edge.weight.persisted ids.1 ids.2

def toSnapshot (nowSecs : Nat) : GraphSnapshot P :=
  { nodes := g.nodes.map fun p => p.2.persisted
    edges := g.inner.edges.toList.filterMap fun p => g.persistedEdge p.2
    importRecords := g.importRecords
    timestampSecs := nowSecs
    fields := g.fields.toList.map fun p => persistedFieldFromField p.2
    couplings := g.couplings.toList.map Prod.snd
    navigation := g.nav }

/-! ## Derived containment -/

def clearDerived (inner : Inner) (key : Nat) : Inner :=
  (shrinkEdge inner key fun payload =>
    let path := payload.retractRelation (.containment .urlPath)
    let both := path.1.retractRelation (.containment .domain)
    (both.1, path.2 || both.2)).1

/-- The node of a host with the shortest path, of those the one of the least id. -/
def domainAnchor (host : Str) : Option (Nat × Nat × Uuid) :=
  g.nodes.foldl (fun best p =>
    match P.parseUrl p.2.url with
    | none => best
    | some parsed =>
      if parsed.host.map toAsciiLowercase = some host then
        match best with
        | none => some (p.1, parsed.depth, p.2.id)
        | some current =>
          if parsed.depth < current.2.1 ∨ (parsed.depth = current.2.1 ∧ p.2.id < current.2.2) then
            some (p.1, parsed.depth, p.2.id)
          else some current
      else best) none

def pathParent : Option (Nat × Nat) := do
  let parsed ← P.parseUrl node.url
  let parent ← g.getNodeByUrl (← parsed.parentUrl)
  if parent = key then none else some (key, parent)

def domainParent : Option (Nat × Nat) := do
  let parsed ← P.parseUrl node.url
  let anchor ← g.domainAnchor (toAsciiLowercase (← parsed.host))
  if anchor.1 = key then none else some (key, anchor.1)

/-- Containment asserted from each child to its container. No statement is minted. -/
def assertContainment (subKind : ContainmentSubKind) (g : Graph P) (edges : List (Nat × Nat)) :
    Graph P :=
  edges.foldl (fun g p => (g.assertRelation p.1 p.2 (.containment subKind) []).1) g

def rebuildDerivedContainmentRelations : Graph P :=
  let cleared : Graph P :=
    { g with inner := (g.inner.edges.toList.map Prod.fst).foldl clearDerived g.inner }
  assertContainment .domain
    (assertContainment .urlPath cleared (cleared.nodes.filterMap fun p => cleared.pathParent p.1 p.2))
    (cleared.nodes.filterMap fun p => cleared.domainParent p.1 p.2)

/-! ## Reading a node -/

def importColumns (pnode : PersistedNode P) (key : Nat) (g : Graph P) : Graph P :=
  let written := pnode.columns.foldl (fun g p => (g.setNodeFacet key p.1 p.2).1) g
  match pnode.lastVisitedMs with
  | some lastVisitedMs =>
    (written.setNodeFacet key visitHistory
      (P.visitHistory.encode ⟨some lastVisitedMs, pnode.lastSessionVisited⟩)).1
  | none =>
    if pnode.lastSessionVisited ≠ 0 then
      (written.setNodeLastSessionVisited key pnode.lastSessionVisited).1
    else written

/-- The page the history shows, unless there is none, it is empty or the node is a clip. -/
def restoredPage (current : Option Str) (node : Node) : Option Str :=
  current.filter fun url => !url.isEmpty && node.primaryAddress.addressKind != .graphshellClip

/-- The restored page over the stored one. The address is written before the index is asked to
    move the node. -/
def restorePage (url : Str) (g : Graph P) : Graph P :=
  ((g.putNode { node with mediaType := P.detectMime url, primaryAddress := addressFromUrl P url })
    |>.updateNodeUrl key url).1

def loadNode (nowMs : Nat) (g : Graph P) (pnode : PersistedNode P) : Option (Graph P) :=
  let key := g.keyFor pnode.nodeId
  let added := g.addNodeWithId pnode.nodeId (pnode.nodeUrl) nowMs
  let restored := importColumns pnode key
    (added.editNode key fun node => some (pnode.restore node)).1
  (restored.nav.currentUrl pnode.nodeId).map fun current =>
    match restored.node key with
    | none => restored
    | some node =>
      match restoredPage current node with
      | none => restored
      | some url => restorePage key node url restored

/-! ## Reading an edge -/

def writeEdge (source target : Nat) (write : EdgePayload → EdgePayload) (g : Graph P) : Graph P :=
  match g.writeBucket source target (fun payload => (write payload, ())) with
  | none => g
  | some (g, _) => g

def loadSemantic (source target : Nat) (mint : Nat → Str) (semantic : PersistedSemanticEdgeData)
    (g : Graph P) : Graph P :=
  if !semantic.statements.isEmpty then
    g.writeEdge source target fun payload => semantic.statements.foldl (fun payload statement =>
      (payload.pushPersistedSemanticStatement statement).1) payload
  else
    -- A snapshot from before statements: kinds and one label, and perhaps a predicate.
    let g := semantic.subKinds.zipIdx.foldl (fun g p =>
      (g.assertRelation source target (.semantic p.1 semantic.label) (mint p.2)).1) g
    if semantic.predicate.isSome then
      g.writeEdge source target fun payload =>
        payload.setSemanticPredicate semantic.predicate (mint semantic.subKinds.length)
    else g

def loadKinds {S : Type} (source target : Nat) (assertion : S → Option EdgeAssertion)
    (kinds : Option (List S)) (g : Graph P) : Graph P :=
  ((kinds.getD []).filterMap assertion).foldl (fun g assertion =>
    (g.assertRelation source target assertion []).1) g

def loadedContainment : ContainmentSubKind → Option EdgeAssertion
  | .urlPath => some (.containment .urlPath)
  | .domain => some (.containment .domain)
  | _ => none

def loadedArrangement : PersistedArrangementSubKind → Option EdgeAssertion
  | .live subKind => some (.arrangement subKind)
  | _ => none

def loadTraversal (source target : Nat) (traversal : Option TraversalData) (g : Graph P) : Graph P :=
  match traversal with
  | none => g
  | some data => g.writeEdge source target fun payload => { payload with traversal := some data }

/-- `mint` gives the ids that statements without one get. -/
def loadEdge (mint : Nat → Str) (g : Graph P) (pedge : PersistedEdge) : Graph P :=
  match g.keysOf pedge.fromNodeId pedge.toNodeId with
  | none => g
  | some (source, target) =>
    let g := match pedge.semantic with
      | none => g
      | some semantic => loadSemantic source target mint semantic g
    let g := loadKinds source target loadedArrangement pedge.arrangement g
    let g := loadKinds source target loadedContainment pedge.containment g
    let g := loadKinds source target (fun kind => some (.imported kind)) pedge.imported g
    let g := loadKinds source target (fun kind => some (.provenance kind)) pedge.provenance g
    loadTraversal source target pedge.traversal g

/-! ## Reading a snapshot -/

def loadFields (fields : List PersistedField) (g : Graph P) : Graph P :=
  fields.foldl (fun g field => match fieldFromPersisted field with
    | none => g
    | some field => g.addField field) g

def loadRecords (importRecords : List ImportRecord) (timestampSecs : Nat) (g : Graph P) : Graph P :=
  if importRecords.isEmpty then g.rebuildImportRecordsFromNodeProvenance timestampSecs
  else Graph.syncNodeImportProvenanceFromRecords
    { g with importRecords := normalizeImportRecords P.isBlank importRecords }

def fromSnapshot (nowMs : Nat) (mint : Nat → Nat → Str) (snapshot : GraphSnapshot P) :
    Option (Graph P) :=
  (snapshot.nodes.foldlM (loadNode nowMs) { nav := snapshot.navigation }).map fun g =>
    let g := snapshot.edges.zipIdx.foldl (fun g p => loadEdge (mint p.2) g p.1) g
    let g := loadFields snapshot.fields g
    let g := snapshot.couplings.foldl addCoupling g
    (loadRecords snapshot.importRecords snapshot.timestampSecs g).rebuildDerivedContainmentRelations

def overlayFacets (facets : NodeFacetStore P) : Graph P :=
  { g with
    facets := facets.toList.foldl (fun store p =>
      store.insert p.1 ((store.getD p.1 ∅).insertMany p.2.toList)) g.facets }

/-! ## Copies -/

/-- `copy_node_from_with_id`: content as it was, identity and clocks new, nothing borne. -/
def copyNodeFromWithId (id : Uuid) (source : Node) (sourceGraph : Option Str) (nowMs : Nat)
    (g : Graph P) : Graph P :=
  let key := g.keyFor id
  let derivation : NodeDerivation := ⟨.copiedFrom, P.uuidText source.id, sourceGraph⟩
  let copied := g.putNode { source with id, nested := none }
  let copied := (copied.setNodeFacet key provenanceDerivations (P.derivations.encode [derivation])).1
  let copied := (copied.setNodeFacet key visitHistory (P.visitHistory.encode ⟨some nowMs, 0⟩)).1
  { copied with urlToNodes := copied.urlToNodes.push source.url key }

end Graph

end Mere.Kernel
