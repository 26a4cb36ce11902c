import Mere.Kernel.Snapshot
import Mere.Kernel.Writes

/-!
# What loading a snapshot does

One lemma for each stage of `from_snapshot`: a node is put in once, with the columns it has at
the end; the stages after the nodes leave them alone.
-/

namespace Mere.Kernel

open List

variable {P : Platform} (pnode : PersistedNode P)

def PersistedNode.stored : Node :=
  pnode.restore (Graph.newNode (P := P) pnode.nodeId pnode.nodeUrl)

/-- The node a stored one is read back as, where the history shows `current`. -/
def PersistedNode.loaded (current : Option Str) : Node :=
  match Graph.restoredPage current pnode.stored with
  | none => pnode.stored
  | some url =>
    { pnode.stored with mediaType := P.detectMime url, primaryAddress := addressFromUrl P url }

theorem PersistedNode.loaded_id (current : Option Str) :
    (pnode.loaded current).id = pnode.nodeId := by
  unfold loaded
  split <;> rfl

namespace Graph

variable {g : Graph P} (node : Node)

/-! ## Nodes -/

theorem node_putNode (key : Nat) : (g.putNode node).node key =
    if key = g.keyFor node.id then some node else g.node key :=
  Chartulary.Graph.nodes_insert node key

theorem putNode_putNode (node' : Node) (h : node'.id = node.id) :
    (g.putNode node).putNode node' = g.putNode node' := by
  unfold putNode
  rw [Chartulary.Graph.insert_insert h]

theorem putNode_inner (node' : Node) (h : node'.id = node.id) :
    (g.putNode node).inner.insert node' = (g.putNode node').inner :=
  Chartulary.Graph.insert_insert h

theorem getNodeKeyById_putNode (id : Uuid) : (g.putNode node).getNodeKeyById id =
    if id = node.id then some (g.keyFor node.id) else g.getNodeKeyById id :=
  Chartulary.Graph.byId_insert node id

variable {key : Nat} {node}

theorem keyFor_of_node (h : g.node key = some node) :
    g.keyFor node.id = key := Chartulary.Graph.keyFor_of_get h

theorem addNodeWithId_eq (g : Graph P) (id : Uuid) (url : Str) (nowMs : Nat) :
    ∃ store, g.addNodeWithId id url nowMs = { g with
      inner := g.inner.insert (newNode (P := P) id url)
      facets := store
      urlToNodes := g.urlToNodes.push url (g.keyFor id) } := by
  obtain ⟨store, hstore⟩ := (g.putNode (newNode (P := P) id url)).editFacet_facets P.visitHistory {}
    (g.keyFor id) visitHistory (fun history => some { history with lastVisitedMs := some nowMs })
  refine ⟨store, ?_⟩
  unfold addNodeWithId setNodeLastVisitedAtMs
  rw [hstore]
  rfl

theorem importColumns_facets (key : Nat) (g : Graph P) :
    FacetsOnly g (importColumns pnode key g) := by
  have hcolumns : ∀ (columns : List (Str × P.Json)) (g : Graph P),
      FacetsOnly g (columns.foldl (fun g p => (g.setNodeFacet key p.1 p.2).1) g) := by
    intro columns
    induction columns with
    | nil => exact .refl
    | cons p columns ih => exact fun g => (g.setNodeFacet_facets key p.1 p.2).trans (ih _)
  have hwritten := hcolumns pnode.columns g
  unfold importColumns
  split
  · exact hwritten.trans (setNodeFacet_facets _ key _ _)
  · split
    · exact hwritten.trans (editFacet_facets _ _ _ _ _ _)
    · exact hwritten

theorem movedTo_self {url : Str} (h : node.primaryAddress = addressFromUrl P url) :
    movedTo (P := P) url node = node := by
  have hurl : node.url = url := by
    unfold Node.url
    rw [h, asUrlStr_addressFromUrl]
  unfold movedTo
  rw [hurl, if_pos rfl, ← h]

theorem restorePage_eq (hkey : g.node key = some node) (url : Str) :
    restorePage key node url g =
      { g.putNode { node with
          mediaType := P.detectMime url
          primaryAddress := addressFromUrl P url } with
        urlToNodes := (g.urlToNodes.drop url key).push url key } := by
  have hget : (g.putNode { node with
      mediaType := P.detectMime url
      primaryAddress := addressFromUrl P url }).node key = some { node with
        mediaType := P.detectMime url
        primaryAddress := addressFromUrl P url } := by
    rw [node_putNode, if_pos (keyFor_of_node hkey).symm]
  unfold restorePage updateNodeUrl
  rw [hget]
  dsimp only
  rw [movedTo_self rfl, putNode_putNode _ _ rfl]
  unfold Node.url
  rw [asUrlStr_addressFromUrl]
  rfl

def loadedIndex (current : Option Str) (key : Nat) (index : UrlIndex) : UrlIndex :=
  match restoredPage current pnode.stored with
  | none => index.push pnode.nodeUrl key
  | some url => ((index.push pnode.nodeUrl key).drop url key).push url key

theorem loadNode_eq (g : Graph P) (nowMs : Nat) (pnode : PersistedNode P) :
    ∃ store, loadNode nowMs g pnode = (g.nav.currentUrl pnode.nodeId).map fun current => { g with
      inner := g.inner.insert (pnode.loaded current)
      facets := store
      urlToNodes := loadedIndex pnode current (g.keyFor pnode.nodeId) g.urlToNodes } := by
  obtain ⟨store, hadd⟩ := g.addNodeWithId_eq pnode.nodeId pnode.nodeUrl nowMs
  set key := g.keyFor pnode.nodeId with hkey
  -- The columns are written over the node that was just added.
  have hedit : ((g.addNodeWithId pnode.nodeId pnode.nodeUrl nowMs).editNode key fun node =>
      some (pnode.restore node)).1 = { g with
        inner := g.inner.insert pnode.stored
        facets := store, urlToNodes := g.urlToNodes.push pnode.nodeUrl key } := by
    have hnode : (g.addNodeWithId pnode.nodeId pnode.nodeUrl nowMs).node key =
        some (newNode (P := P) pnode.nodeId pnode.nodeUrl) := by
      rw [hadd]
      exact (node_putNode _ key).trans (if_pos rfl)
    unfold editNode
    rw [hnode, hadd]
    have hput := g.putNode_inner (newNode (P := P) pnode.nodeId pnode.nodeUrl) pnode.stored rfl
    exact congrArg (fun inner => ({ g with
      inner, facets := store, urlToNodes := g.urlToNodes.push pnode.nodeUrl key } : Graph P)) hput
  obtain ⟨store', hcolumns⟩ := importColumns_facets pnode key { g with
    inner := g.inner.insert pnode.stored
    facets := store, urlToNodes := g.urlToNodes.push pnode.nodeUrl key }
  have hnode : ({ g with
      inner := g.inner.insert pnode.stored
      facets := store', urlToNodes := g.urlToNodes.push pnode.nodeUrl key } : Graph P).node key =
        some pnode.stored := (node_putNode pnode.stored key).trans (if_pos rfl)
  refine ⟨store', ?_⟩
  unfold loadNode
  dsimp only
  rw [hedit, hcolumns]
  refine congrArg (Option.map · (g.nav.currentUrl pnode.nodeId)) (funext fun current => ?_)
  rw [hnode]
  dsimp only
  unfold PersistedNode.loaded loadedIndex
  cases hpage : restoredPage current pnode.stored with
  | none => rfl
  | some url =>
    have hput := g.putNode_inner pnode.stored { pnode.stored with
      mediaType := P.detectMime url, primaryAddress := addressFromUrl P url } rfl
    dsimp only
    rw [restorePage_eq hnode]
    exact congrArg (fun inner => ({ g with
      inner, facets := store'
      urlToNodes := ((g.urlToNodes.push pnode.nodeUrl key).drop url key).push url key } : Graph P)) hput

structure NodesOnly (g g' : Graph P) : Prop where
  edges : g'.inner.edges = g.inner.edges
  nav : g'.nav = g.nav
  importRecords : g'.importRecords = g.importRecords
  fields : g'.fields = g.fields
  couplings : g'.couplings = g.couplings

theorem loadNodes_spec (nowMs : Nat) (pnodes : List (PersistedNode P)) (g : Graph P)
    (hids : (pnodes.map PersistedNode.nodeId).Nodup) (hpage : ∀ id, (g.nav.currentUrl id).isSome) :
    ∃ g', pnodes.foldlM (loadNode nowMs) g = some g' ∧ NodesOnly g g' ∧
      (∀ p ∈ pnodes, g'.inner.get p.nodeId = some (p.loaded (g.nav.currentUrl p.nodeId).join)) ∧
      ∀ id ∉ pnodes.map PersistedNode.nodeId, g'.inner.get id = g.inner.get id := by
  induction pnodes generalizing g with
  | nil => exact ⟨g, rfl, ⟨rfl, rfl, rfl, rfl, rfl⟩, nofun, fun _ _ => rfl⟩
  | cons pnode pnodes ih =>
    obtain ⟨hnew, hids⟩ := nodup_cons.mp hids
    obtain ⟨store, hload⟩ := loadNode_eq g nowMs pnode
    obtain ⟨current, hcurrent⟩ := Option.isSome_iff_exists.mp (hpage pnode.nodeId)
    rw [hcurrent] at hload
    have hget : ∀ id, (g.inner.insert (pnode.loaded current)).get id =
        if id = pnode.nodeId then some (pnode.loaded current) else g.inner.get id := by
      intro id
      rw [Chartulary.Graph.get_insert]
      change (if id = (pnode.loaded current).id then _ else _) = _
      rw [pnode.loaded_id]
    obtain ⟨g', hrest, honly, hloaded, hothers⟩ := ih { g with
      inner := g.inner.insert (pnode.loaded current), facets := store
      urlToNodes := loadedIndex pnode current (g.keyFor pnode.nodeId) g.urlToNodes } hids hpage
    refine ⟨g', ?_, ?_, ?_, ?_⟩
    · rw [foldlM_cons, hload]
      exact hrest
    · exact ⟨honly.edges.trans (Chartulary.Graph.edges_insert _ _), honly.nav, honly.importRecords,
        honly.fields, honly.couplings⟩
    · intro p hp
      rcases mem_cons.mp hp with rfl | hp
      · rw [hothers p.nodeId hnew]
        rw [hget, if_pos rfl, hcurrent]
        rfl
      · exact hloaded p hp
    · intro id hid
      rw [map_cons, mem_cons, not_or] at hid
      rw [hothers id hid.2]
      rw [hget, if_neg hid.1]

/-! ## Edges -/

def EdgesOnly (g g' : Graph P) : Prop :=
  ∃ inner : Inner, g' = { g with inner } ∧ inner.nodes = g.inner.nodes ∧ inner.byId = g.inner.byId

theorem EdgesOnly.refl (g : Graph P) : EdgesOnly g g := ⟨g.inner, rfl, rfl, rfl⟩

theorem EdgesOnly.trans {g g' g'' : Graph P} : EdgesOnly g g' → EdgesOnly g' g'' →
    EdgesOnly g g'' := by
  rintro ⟨inner, rfl, hnodes, hbyId⟩ ⟨inner', rfl, hnodes', hbyId'⟩
  exact ⟨inner', rfl, hnodes'.trans hnodes, hbyId'.trans hbyId⟩

theorem EdgesOnly.foldl {A : Type} {f : Graph P → A → Graph P} (h : ∀ g a, EdgesOnly g (f g a))
    (l : List A) (g : Graph P) : EdgesOnly g (l.foldl f g) := by
  induction l generalizing g with
  | nil => exact .refl g
  | cons a l ih => exact (h g a).trans (ih _)

theorem EdgesOnly.of_relinks {s t : Nat} {old : EdgePayload} {new : Option EdgePayload}
    {inner : Inner}
    (h : Relinks g.inner s t old new inner) : EdgesOnly g { g with inner } :=
  ⟨inner, rfl, h.nodes, h.byId⟩

theorem assertRelation_edges (g : Graph P) (s t : Nat) (assertion : EdgeAssertion) (mint : Str) :
    EdgesOnly g (g.assertRelation s t assertion mint).1 := by
  by_cases hlive : (g.node s).isNone ∨ (g.node t).isNone
  · rw [g.assertRelation_of_dead hlive]
    exact .refl g
  · obtain ⟨hs, ht⟩ := live_iff.mp hlive
    obtain ⟨inner, old, heq, hlink⟩ := g.assertRelation_relinks hs ht assertion
    rw [heq]
    exact .of_relinks hlink

theorem writeEdge_edges (s t : Nat) (write : EdgePayload → EdgePayload) (g : Graph P) :
    EdgesOnly g (writeEdge s t write g) := by
  unfold writeEdge
  split
  · exact .refl g
  · rename_i g' key hwrite
    obtain ⟨inner, old, rfl, _, hlink⟩ := writeBucket_relinks hwrite
    exact .of_relinks hlink

theorem loadSemantic_edges (s t : Nat) (mint : Nat → Str) (semantic : PersistedSemanticEdgeData)
    (g : Graph P) : EdgesOnly g (loadSemantic s t mint semantic g) := by
  unfold loadSemantic
  split
  · exact writeEdge_edges s t _ g
  · have hkinds := EdgesOnly.foldl (fun g (p : SemanticSubKind × Nat) =>
      g.assertRelation_edges s t (.semantic p.1 semantic.label) (mint p.2)) semantic.subKinds.zipIdx g
    split
    · exact hkinds.trans (writeEdge_edges s t _ _)
    · exact hkinds

theorem loadKinds_edges {S : Type} (s t : Nat) (assertion : S → Option EdgeAssertion)
    (kinds : Option (List S)) (g : Graph P) : EdgesOnly g (loadKinds s t assertion kinds g) :=
  .foldl (fun g a => g.assertRelation_edges s t a []) _ g

theorem loadTraversal_edges (s t : Nat) (traversal : Option TraversalData) (g : Graph P) :
    EdgesOnly g (loadTraversal s t traversal g) := by
  unfold loadTraversal
  split
  · exact .refl g
  · exact writeEdge_edges s t _ g

theorem loadEdge_edges (mint : Nat → Str) (g : Graph P) (pedge : PersistedEdge) :
    EdgesOnly g (loadEdge mint g pedge) := by
  unfold loadEdge
  split
  · exact .refl g
  · rename_i s t _
    refine EdgesOnly.trans ?_ (loadTraversal_edges s t _ _)
    refine EdgesOnly.trans ?_ (loadKinds_edges s t _ _ _)
    refine EdgesOnly.trans ?_ (loadKinds_edges s t _ _ _)
    refine EdgesOnly.trans ?_ (loadKinds_edges s t _ _ _)
    refine EdgesOnly.trans ?_ (loadKinds_edges s t _ _ _)
    split
    · exact .refl g
    · exact loadSemantic_edges s t mint _ g

theorem clearDerived_edges (keys : List Nat) (g : Graph P) :
    EdgesOnly g { g with inner := keys.foldl clearDerived g.inner } := by
  induction keys generalizing g with
  | nil => exact .refl g
  | cons key keys ih =>
    have hone : EdgesOnly g { g with inner := clearDerived g.inner key } := by
      unfold clearDerived
      rcases shrinkEdge_relinks g.inner key _ with hsame | ⟨s, t, old, _, hlink⟩
      · rw [hsame]
        exact .refl g
      · exact .of_relinks hlink
    exact hone.trans (ih { g with inner := clearDerived g.inner key })

theorem assertContainment_edges (subKind : ContainmentSubKind) (g : Graph P)
    (edges : List (Nat × Nat)) : EdgesOnly g (assertContainment subKind g edges) := by
  exact .foldl (fun g p => g.assertRelation_edges p.1 p.2 (.containment subKind) []) edges g

theorem rebuildDerivedContainmentRelations_edges (g : Graph P) :
    EdgesOnly g g.rebuildDerivedContainmentRelations :=
  (clearDerived_edges _ g).trans
    ((assertContainment_edges .urlPath _ _).trans (assertContainment_edges .domain _ _))

/-! ## The rest -/

theorem loadFields_eq (fields : List PersistedField) (g : Graph P) :
    loadFields fields g = { g with fields := (loadFields fields g).fields } := by
  unfold loadFields
  induction fields generalizing g with
  | nil => rfl
  | cons field fields ih =>
    rw [foldl_cons, ih]
    split <;> rfl

theorem addCouplings_eq (couplings : List Coupling) (g : Graph P) :
    couplings.foldl addCoupling g =
      { g with couplings := (couplings.foldl addCoupling g).couplings } := by
  induction couplings generalizing g with
  | nil => rfl
  | cons coupling couplings ih =>
    rw [foldl_cons, ih]
    rfl

theorem loadRecords_eq (importRecords : List ImportRecord) (timestampSecs : Nat) (g : Graph P) :
    ∃ store records, loadRecords importRecords timestampSecs g =
      { g with facets := store, importRecords := records } := by
  unfold loadRecords
  split
  · obtain ⟨store, hstore⟩ := syncNodeImportProvenanceFromRecords_facets { g with
      importRecords := normalizeImportRecords P.isBlank (g.rebuiltRecords timestampSecs) }
    exact ⟨store, _, hstore⟩
  · obtain ⟨store, hstore⟩ := syncNodeImportProvenanceFromRecords_facets { g with
      importRecords := normalizeImportRecords P.isBlank importRecords }
    exact ⟨store, _, hstore⟩

end Graph

end Mere.Kernel
