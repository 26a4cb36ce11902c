import Mere.Kernel.Loading

/-!
# The URL index

`url_to_nodes` is kept by hand beside the addresses of the nodes. It should be their inverse:
under a URL the keys of the nodes at it, each once, and no entry without a key.
-/

open Std (ExtTreeMap)

namespace Mere.Kernel

open Function (update_apply update_idem update_self)

variable {P : Platform} (url : Str)

/-! ## The inverse of a partial function -/

structure IndexOf (urls : Nat → Option Str) (index : UrlIndex) : Prop where
  mem : ∀ url key, key ∈ index.keysAt url ↔ urls key = some url
  once : ∀ url, (index.keysAt url).Nodup
  used : ∀ url : Str, index[url]? ≠ some []

namespace UrlIndex

variable (index : UrlIndex)

theorem keysAt_eq : index.keysAt url = (index[url]?).getD [] :=
  ExtTreeMap.getD_eq_getD_getElem?

theorem keysAt_push (key : Nat) (url' : Str) :
    (index.push url key).keysAt url' =
      if url = url' then index.keysAt url ++ [key] else index.keysAt url' :=
  OrdMap.getD_insert _ _ _ _ _

theorem getElem?_drop (key : Nat) (url' : Str) :
    (index.drop url key)[url']? = if url = url' then
      ((index[url]?).map (List.filter (· != key))).filter (fun keys => !keys.isEmpty)
    else index[url']? := by
  unfold drop
  split
  · rename_i hnone
    split
    · rename_i h
      rw [← h, hnone]
      rfl
    · rfl
  · rename_i keys hkeys
    rw [hkeys, Option.map_some]
    split
    · rename_i hempty
      rw [ExtTreeMap.getElem?_erase]
      simp only [compare_eq_iff_eq]
      split
      · rw [Option.filter_some, hempty]
        rfl
      · rfl
    · rename_i hempty
      rw [OrdMap.getElem?_insert]
      split
      · rw [Option.filter_some]
        simp [hempty]
      · rfl

theorem keysAt_drop (key : Nat) (url' : Str) :
    (index.drop url key).keysAt url' =
      if url = url' then (index.keysAt url).filter (· != key) else index.keysAt url' := by
  rw [keysAt_eq, keysAt_eq, keysAt_eq, getElem?_drop]
  split
  · cases index[url]? with
    | none => rfl
    | some keys =>
      rw [Option.map_some, Option.filter_some]
      split
      · rfl
      · rename_i h
        simpa using h
  · rfl

end UrlIndex

namespace IndexOf

variable {urls : Nat → Option Str} {index : UrlIndex}

theorem empty : IndexOf (fun _ => none) ∅ where
  mem url key := by simp [UrlIndex.keysAt_eq]
  once url := by simp [UrlIndex.keysAt_eq]
  used url := by simp

variable (h : IndexOf urls index)
include h

theorem push {key : Nat} (hkey : urls key = none) (url : Str) :
    IndexOf (Function.update urls key (some url)) (index.push url key) where
  mem url' key' := by
    rw [UrlIndex.keysAt_push, update_apply]
    by_cases hk : key' = key
    · subst hk
      have hnot : ∀ u, key' ∉ index.keysAt u := fun u hu => by
        rw [(h.mem u key').mp hu] at hkey
        cases hkey
      split <;> simp_all
    · rw [if_neg hk, ← h.mem]
      split <;> simp_all
  once url' := by
    rw [UrlIndex.keysAt_push]
    split
    · rw [List.nodup_append]
      refine ⟨h.once url, List.nodup_singleton key, ?_⟩
      rintro k hk _ hmem rfl
      obtain rfl := List.mem_singleton.mp hmem
      rw [(h.mem url k).mp hk] at hkey
      cases hkey
    · exact h.once url'
  used url' := by
    unfold UrlIndex.push
    rw [OrdMap.getElem?_insert]
    split
    · simp
    · exact h.used url'

theorem drop (key : Nat) (url : Str) (hkey : ∀ url', urls key = some url' → url' = url) :
    IndexOf (Function.update urls key none) (index.drop url key) where
  mem url' key' := by
    rw [UrlIndex.keysAt_drop, update_apply]
    by_cases hk : key' = key
    · subst hk
      rw [if_pos rfl]
      simp only [reduceCtorEq, iff_false]
      split
      · simp
      · rename_i hne
        intro hmem
        exact hne (hkey url' ((h.mem url' key').mp hmem)).symm
    · rw [if_neg hk, ← h.mem]
      split
      · rename_i hurl
        simp [hurl, hk]
      · rfl
  once url' := by
    rw [UrlIndex.keysAt_drop]
    split
    · exact (h.once url).filter _
    · exact h.once url'
  used url' := by
    rw [UrlIndex.getElem?_drop]
    split
    · intro hsome
      have := (Option.filter_eq_some_iff.mp hsome).2
      cases this
    · exact h.used url'

theorem drops {key : Nat} (hkey : urls key = none) (addresses : List Address) :
    IndexOf urls (addresses.foldl (fun index address => index.drop address.asUrlStr key) index) := by
  induction addresses generalizing index with
  | nil => exact h
  | cons address addresses ih =>
    have hdrop := h.drop key address.asUrlStr fun url hurl => by
      rw [hkey] at hurl
      cases hurl
    rw [Function.update_eq_self_iff.mpr hkey.symm] at hdrop
    exact ih hdrop

end IndexOf

namespace Graph

def urls (g : Graph P) (key : Nat) : Option Str := (g.node key).map Node.url

def UrlExact (g : Graph P) : Prop := IndexOf g.urls g.urlToNodes

variable {g g' : Graph P}

theorem urls_putNode (node : Node) :
    (g.putNode node).urls = Function.update g.urls (g.keyFor node.id) (some node.url) := by
  funext key
  unfold urls
  rw [node_putNode, update_apply]
  split <;> rfl

variable {key : Nat} {id : Uuid} {mint : Str} {pnode : PersistedNode P} {current : Option Str}
  {nowMs : Nat} {snapshot : GraphSnapshot P}

theorem urls_of_node {node : Node} (h : g.node key = some node) (url : Str)
    (hurl : g.urls key = some url) : url = node.url := by
  unfold urls at hurl
  rw [h] at hurl
  exact (Option.some.inj hurl).symm

theorem urls_putNode_self {node node' : Node} (h : g.node key = some node)
    (hid : node'.id = node.id) (hurl : node'.url = node.url) : (g.putNode node').urls = g.urls := by
  rw [urls_putNode, hid, keyFor_of_node h, hurl]
  refine Function.update_eq_self_iff.mpr ?_
  unfold urls
  rw [h]
  rfl

theorem urls_of_nodes (h : g'.inner.nodes = g.inner.nodes) : g'.urls = g.urls := by
  unfold urls node Chartulary.Graph.node
  rw [h]

theorem urls_keyFor_of_fresh (h : g.getNodeKeyById id = none) :
    g.urls (g.keyFor id) = none := by
  have hkey : g.keyFor id = g.inner.nodes.nextKey := Chartulary.Graph.keyFor_of_none h
  unfold urls node Chartulary.Graph.node
  rw [hkey, Arena.get_nextKey]
  rfl

theorem url_movedTo (node : Node) : (movedTo (P := P) url node).url = url :=
  asUrlStr_addressFromUrl P url

theorem UrlExact.put (h : UrlExact g) (hfresh : g.getNodeKeyById id = none) (node : Node)
    (hid : node.id = id) :
    IndexOf (g.putNode node).urls (g.urlToNodes.push node.url (g.keyFor id)) := by
  rw [urls_putNode, hid]
  exact IndexOf.push h (urls_keyFor_of_fresh hfresh) node.url

theorem Write.urlExact (hwrite : Write mint g g') (h : UrlExact g) : UrlExact g' := by
  cases hwrite with
  | facets store | records records _ | fields fields _ | couplings couplings _ | nav _ => exact h
  | @node key node node' hnode hkept =>
    unfold UrlExact
    have hurl : node'.url = node.url := congrArg Address.asUrlStr hkept.url
    rw [urls_putNode_self hnode hkept.id hurl]
    exact h
  | add id url hfresh =>
    have hput := h.put hfresh (newNode (P := P) id url) rfl
    rw [show (newNode (P := P) id url).url = url from asUrlStr_addressFromUrl P url] at hput
    exact hput
  | @move key node url hnode =>
    have hdrop := IndexOf.drop h key node.url (urls_of_node hnode)
    have hpush := hdrop.push (update_self _ _ _) url
    rw [update_idem] at hpush
    have hurls := urls_putNode (g := g) (movedTo (P := P) url node)
    rw [url_movedTo, show (movedTo (P := P) url node).id = node.id from rfl,
      keyFor_of_node hnode] at hurls
    change IndexOf (g.putNode (movedTo (P := P) url node)).urls _
    rw [hurls]
    exact hpush
  | @remove key node hnode =>
    have hdrop := IndexOf.drop h key node.url (urls_of_node hnode)
    have hurls : Graph.urls { g with inner := g.inner.remove key } =
        Function.update g.urls key none := by
      funext k
      rw [update_apply]
      change ((g.inner.remove key).nodes.get k).map Node.url = _
      rw [Chartulary.Graph.nodes_remove]
      split <;> rfl
    change IndexOf (Graph.urls { g with inner := g.inner.remove key }) _
    rw [hurls]
    exact hdrop.drops (update_self _ _ _) node.aliases
  | link _ hlink =>
    unfold UrlExact
    rw [urls_of_nodes hlink.nodes]
    exact h

theorem Writes.urlExact (hwrites : Writes mint g g') (h : UrlExact g) : UrlExact g' := by
  induction hwrites with
  | refl => exact h
  | tail _ hwrite ih => exact hwrite.urlExact ih

theorem UrlExact.of_same (h : UrlExact g) (hnodes : g'.inner.nodes = g.inner.nodes)
    (hindex : g'.urlToNodes = g.urlToNodes) : UrlExact g' := by
  unfold UrlExact
  rw [urls_of_nodes hnodes, hindex]
  exact h

theorem UrlExact.edgesOnly (h : UrlExact g) (hedges : EdgesOnly g g') : UrlExact g' := by
  obtain ⟨inner, rfl, hnodes, _⟩ := hedges
  exact h.of_same hnodes rfl

theorem UrlExact.apply {tick : Tick} {delta : GraphDelta P} (h : UrlExact g)
    (hfresh : ∀ id, delta.added tick = some id → g.getNodeKeyById id = none)
    (happly : g.apply tick delta = some g') : UrlExact g' := by
  cases apply_change happly with
  | writes hwrites => exact Writes.urlExact hwrites h
  | overwrite url hadded hold => exact absurd (hfresh _ hadded) hold
  | predicate _ =>
    unfold setEdgeSemanticPredicate
    split
    · exact h
    · exact h.of_same (Chartulary.Graph.setWeight_nodes _ _) rfl

theorem UrlExact.copyNodeFromWithId (h : UrlExact g) (hfresh : g.getNodeKeyById id = none)
    (source : Node) (sourceGraph : Option Str) (nowMs : Nat) :
    UrlExact (g.copyNodeFromWithId id source sourceGraph nowMs) := by
  have hput := h.put hfresh { source with id, nested := none } rfl
  have hfacets := ((g.putNode { source with id, nested := none }).setNodeFacet_facets (g.keyFor id)
    provenanceDerivations
    (P.derivations.encode [⟨.copiedFrom, P.uuidText source.id, sourceGraph⟩])).trans
      (setNodeFacet_facets _ (g.keyFor id) visitHistory (P.visitHistory.encode ⟨some nowMs, 0⟩))
  obtain ⟨store, hstore⟩ := hfacets
  unfold Graph.copyNodeFromWithId
  dsimp only
  rw [hstore]
  exact hput

/-! ## Loading -/

/-- What the history shows for a stored node is not a page its index would miss: there is none,
    it is empty, it is the stored URL, or the node is a clip, whose page is not restored. -/
def Settled (snapshot : GraphSnapshot P) (pnode : PersistedNode P) : Prop :=
  ∀ url, snapshot.navigation.currentUrl pnode.nodeId = some (some url) →
    url = [] ∨ url = pnode.nodeUrl ∨ (addressFromUrl P pnode.nodeUrl).addressKind = .graphshellClip

theorem url_stored (pnode : PersistedNode P) : pnode.stored.url = pnode.nodeUrl :=
  asUrlStr_addressFromUrl P pnode.nodeUrl

theorem restoredPage_of_settled
    (h : ∀ url, current = some url → url = [] ∨ url = pnode.nodeUrl ∨
      (addressFromUrl P pnode.nodeUrl).addressKind = .graphshellClip) :
    restoredPage current pnode.stored = none ∨
      restoredPage current pnode.stored = some pnode.nodeUrl := by
  cases current with
  | none => exact .inl rfl
  | some url =>
    have haddress : pnode.stored.primaryAddress = addressFromUrl P pnode.nodeUrl := rfl
    unfold restoredPage
    rw [Option.filter_some, haddress]
    rcases h url rfl with rfl | rfl | hclip
    · exact .inl rfl
    · split
      · exact .inr rfl
      · exact .inl rfl
    · rw [hclip]
      exact .inl (by simp)

theorem UrlExact.loadNode (h : UrlExact g)
    (hfresh : g.getNodeKeyById pnode.nodeId = none)
    (hpage : restoredPage current pnode.stored = none ∨
      restoredPage current pnode.stored = some pnode.nodeUrl) :
    IndexOf (g.putNode (pnode.loaded current)).urls
      (loadedIndex pnode current (g.keyFor pnode.nodeId) g.urlToNodes) := by
  unfold PersistedNode.loaded loadedIndex
  rcases hpage with hpage | hpage
  · rw [hpage]
    have hput := h.put hfresh pnode.stored rfl
    rw [url_stored] at hput
    exact hput
  · rw [hpage]
    have hput := IndexOf.push h (urls_keyFor_of_fresh hfresh) pnode.nodeUrl
    have hdrop := hput.drop (g.keyFor pnode.nodeId) pnode.nodeUrl fun url hurl => by
      rw [update_self] at hurl
      exact (Option.some.inj hurl).symm
    have hpush := hdrop.push (update_self _ _ _) pnode.nodeUrl
    rw [update_idem, update_idem] at hpush
    rw [urls_putNode]
    have hurl : Node.url { pnode.stored with
        mediaType := P.detectMime pnode.nodeUrl
        primaryAddress := addressFromUrl P pnode.nodeUrl } = pnode.nodeUrl :=
      asUrlStr_addressFromUrl P pnode.nodeUrl
    rw [hurl]
    exact hpush

theorem UrlExact.loadNodes {pnodes : List (PersistedNode P)}
    (h : UrlExact g) (hnav : g.nav = snapshot.navigation)
    (hids : (pnodes.map PersistedNode.nodeId).Nodup)
    (hfresh : ∀ pnode ∈ pnodes, g.getNodeKeyById pnode.nodeId = none)
    (hsettled : ∀ pnode ∈ pnodes, Settled snapshot pnode)
    (hload : pnodes.foldlM (Graph.loadNode nowMs) g = some g') : UrlExact g' := by
  induction pnodes generalizing g with
  | nil =>
    obtain rfl := Option.some.inj hload
    exact h
  | cons pnode pnodes ih =>
    obtain ⟨next, hnext, hrest⟩ := Option.bind_eq_some_iff.mp hload
    obtain ⟨store, heq⟩ := g.loadNode_eq nowMs pnode
    rw [heq] at hnext
    obtain ⟨current, hcurrent, rfl⟩ := Option.map_eq_some_iff.mp hnext
    rw [List.map_cons, List.nodup_cons] at hids
    have hpage : restoredPage current pnode.stored = none ∨
        restoredPage current pnode.stored = some pnode.nodeUrl :=
      restoredPage_of_settled fun url hurl => hsettled pnode List.mem_cons_self url
        (by rw [← hnav, hcurrent, hurl])
    have hexact := h.loadNode (hfresh pnode List.mem_cons_self) hpage
    have hlater : ∀ p ∈ pnodes, (g.putNode (pnode.loaded current)).getNodeKeyById p.nodeId = none := by
      intro p hp
      rw [getNodeKeyById_putNode, pnode.loaded_id, if_neg]
      · exact hfresh p (List.mem_cons_of_mem _ hp)
      · intro hsame
        exact hids.1 (List.mem_map.mpr ⟨p, hp, hsame⟩)
    exact @ih { g with
      inner := g.inner.insert (pnode.loaded current), facets := store
      urlToNodes := loadedIndex pnode current (g.keyFor pnode.nodeId) g.urlToNodes }
      hexact hnav hids.2 hlater (fun p hp => hsettled p (List.mem_cons_of_mem _ hp)) hrest

theorem urlExact_empty (nav : SharedNavigationMemory) : UrlExact ({ nav } : Graph P) := by
  exact IndexOf.empty

theorem urlExact_fromSnapshot {mint : Nat → Nat → Str}
    (hids : (snapshot.nodes.map PersistedNode.nodeId).Nodup)
    (hsettled : ∀ pnode ∈ snapshot.nodes, Settled snapshot pnode)
    (hload : fromSnapshot nowMs mint snapshot = some g) : UrlExact g := by
  obtain ⟨loaded, hloaded, rfl⟩ := Option.map_eq_some_iff.mp hload
  have hnodes : UrlExact loaded :=
    (urlExact_empty snapshot.navigation).loadNodes rfl hids (fun _ _ => rfl) hsettled hloaded
  have hedges := hnodes.edgesOnly (EdgesOnly.foldl
    (fun g (p : PersistedEdge × Nat) => loadEdge_edges (mint p.2) g p.1) snapshot.edges.zipIdx loaded)
  refine UrlExact.edgesOnly ?_ (rebuildDerivedContainmentRelations_edges _)
  obtain ⟨store, records, hrecords⟩ := loadRecords_eq snapshot.importRecords snapshot.timestampSecs
    (snapshot.couplings.foldl addCoupling (loadFields snapshot.fields
      (snapshot.edges.zipIdx.foldl (fun g p => loadEdge (mint p.2) g p.1) loaded)))
  rw [hrecords, addCouplings_eq, loadFields_eq]
  exact hedges

end Graph

/-! ## Runs -/

inductive GraphStep (P : Platform)
  | delta (tick : Tick) (delta : GraphDelta P)
  | copy (id : Uuid) (source : Node) (sourceGraph : Option Str) (nowMs : Nat)
  | load (nowMs : Nat) (mint : Nat → Nat → Str) (snapshot : GraphSnapshot P)

namespace GraphStep

def run (g : Graph P) : GraphStep P → Option (Graph P)
  | delta tick d => g.apply tick d
  | copy id source sourceGraph nowMs => some (g.copyNodeFromWithId id source sourceGraph nowMs)
  | load nowMs mint snapshot => Graph.fromSnapshot nowMs mint snapshot

/-- A node is not added over another of its id, and a snapshot does not store a node twice or at
    a URL that is not the page its history shows. -/
def KeepsIndex (g : Graph P) : GraphStep P → Prop
  | delta tick d => ∀ id, d.added tick = some id → g.getNodeKeyById id = none
  | copy id _ _ _ => g.getNodeKeyById id = none
  | load _ _ snapshot => (snapshot.nodes.map PersistedNode.nodeId).Nodup ∧
      ∀ pnode ∈ snapshot.nodes, Graph.Settled snapshot pnode

end GraphStep

theorem url_index_exact {g : Graph P} (h : Reach {} GraphStep.run GraphStep.KeepsIndex g) :
    g.UrlExact ∧ ∀ url key, g.getNodeByUrl url = some key →
      ∃ node, g.node key = some node ∧ node.url = url := by
  have hexact : g.UrlExact := by
    refine h.invariant (Graph.urlExact_empty _) fun g g' step hg hkeeps hrun => ?_
    cases step with
    | delta tick d => exact hg.apply hkeeps hrun
    | copy id source sourceGraph nowMs =>
      obtain rfl := Option.some.inj hrun
      exact hg.copyNodeFromWithId hkeeps source sourceGraph nowMs
    | load nowMs mint snapshot => exact Graph.urlExact_fromSnapshot hkeeps.1 hkeeps.2 hrun
  refine ⟨hexact, fun url key hkey => ?_⟩
  have hlast := (Option.filter_eq_some_iff.mp hkey).1
  obtain ⟨keys, hkeys, hmem⟩ := Option.bind_eq_some_iff.mp hlast
  have hin : key ∈ g.urlToNodes.keysAt url := by
    rw [UrlIndex.keysAt_eq, hkeys]
    exact List.mem_of_getLast? hmem
  exact Option.map_eq_some_iff.mp ((hexact.mem url key).mp hin)

/-- A node moved twice keeps its place in the index. -/
theorem url_index_exact_moved : ∃ g : Graph plainPlatform,
    Reach {} GraphStep.run GraphStep.KeepsIndex g ∧ g.UrlExact := by
  let tick : Tick := ⟨0, 0, 0, 0, []⟩
  let added : Graph plainPlatform := Graph.addNodeWithId {} 1 [97] 0
  let moved : Graph plainPlatform := (added.updateNodeUrl 0 [98]).1
  have hadded : Reach {} GraphStep.run GraphStep.KeepsIndex added := by
    refine .next .start (a := .delta tick (.addNode (some 1) [97])) ?_ rfl
    intro id _
    rfl
  have hmoved : Reach {} GraphStep.run GraphStep.KeepsIndex moved := by
    refine hadded.next (a := .delta tick (.replay (.editNodeById 1 (.setNodeUrl [98])))) ?_ ?_
    · intro id h
      cases h
    · rfl
  exact ⟨moved, hmoved, (url_index_exact hmoved).1⟩

theorem not_urlExact {g : Graph P} {key : Nat} {url url' : Str}
    (h : (g.urlToNodes.keysAt url, g.urls key) = ([key], some url')) (hne : url' ≠ url) :
    ¬ g.UrlExact := by
  intro hexact
  obtain ⟨hkeys, hurl⟩ := Prod.mk.inj h
  have hmem := (hexact.mem url key).mp (by rw [hkeys]; exact List.mem_singleton_self key)
  exact hne (Option.some.inj (hurl.symm.trans hmem))

/-- A node added over another of its id, and a node saved at a URL its history does not show and
    loaded again: the URL it left keeps its key. -/
theorem url_index_stale :
    (∃ g : Graph plainPlatform, runs GraphStep.run {}
        [.delta ⟨0, 0, 0, 0, []⟩ (.addNode (some 1) [97]),
          .delta ⟨0, 0, 0, 0, []⟩ (.addNode (some 1) [98])] = some g ∧ ¬ g.UrlExact) ∧
    ∃ g g' : Graph plainPlatform, runs GraphStep.run {}
        [.delta ⟨0, 0, 0, 0, []⟩ (.addNode (some 1) [97]),
          .delta ⟨0, 0, 0, 0, []⟩ (.navigateNode 0 [98]),
          .delta ⟨0, 0, 0, 0, []⟩ (.editNode 0 (.setNodeUrl [99]))] = some g ∧
      GraphStep.run g (.load 0 (fun _ _ => []) (g.toSnapshot 0)) = some g' ∧ ¬ g'.UrlExact := by
  constructor
  · have h : (runs (GraphStep.run (P := plainPlatform)) {}
        [.delta ⟨0, 0, 0, 0, []⟩ (.addNode (some 1) [97]),
          .delta ⟨0, 0, 0, 0, []⟩ (.addNode (some 1) [98])]).map
        (fun g => (g.urlToNodes.keysAt [97], g.urls 0)) = some ([0], some [98]) := by decide +kernel
    obtain ⟨g, hg, hstale⟩ := Option.map_eq_some_iff.mp h
    exact ⟨g, hg, not_urlExact hstale (by decide)⟩
  · have h : ((runs (GraphStep.run (P := plainPlatform)) {}
        [.delta ⟨0, 0, 0, 0, []⟩ (.addNode (some 1) [97]),
          .delta ⟨0, 0, 0, 0, []⟩ (.navigateNode 0 [98]),
          .delta ⟨0, 0, 0, 0, []⟩ (.editNode 0 (.setNodeUrl [99]))]).bind fun g =>
        (GraphStep.run g (.load 0 (fun _ _ => []) (g.toSnapshot 0))).map
          (fun g => (g.urlToNodes.keysAt [99], g.urls 0))) = some ([0], some [98]) := by
      decide +kernel
    obtain ⟨g, hg, hload⟩ := Option.bind_eq_some_iff.mp h
    obtain ⟨g', hg', hstale⟩ := Option.map_eq_some_iff.mp hload
    exact ⟨g, g', hg, hg', not_urlExact hstale (by decide)⟩

end Mere.Kernel
