import Mere.Kernel.Delta

/-!
# What one step writes

The writes of the mutators are listed once, so that an invariant over all deltas is a case for each
kind of write. Two do not fit the list: a node added over one with the same id, and the predicate of
an edge rewritten.
-/

open Std (ExtTreeMap)

namespace Mere.Kernel

variable {P : Platform}

/-! ## Payloads -/

namespace EdgePayload

inductive Move (mint : Str) (old : EdgePayload) : EdgePayload → Prop
  | statement (spec : SemanticStatementSpec) : Move mint old
      { old with semantic := some ((old.semantic.getD {}).assertStatement spec mint).1 }
  | drop (p : SemanticStatement → Bool) :
      Move mint old (old.shrinkSemantic fun data => data.dropStatements p).1
  | other {new : EdgePayload} : new.semantic = old.semantic → Move mint old new

variable {payload : EdgePayload}

theorem isEmpty_of_semantic (h : payload.hasSemantic = true) : payload.isEmpty = false := by
  unfold isEmpty
  simp [h]

theorem hasSemantic_of_statements {data : SemanticData} (h : payload.semantic = some data)
    (hne : data.statements ≠ []) : payload.hasSemantic = true := by
  unfold hasSemantic
  rw [h]
  simp [hne]

end EdgePayload

theorem editFirst_ne_nil {A : Type} (p : A → Bool) (f : A → A) {l : List A} (h : l ≠ []) :
    editFirst p f l ≠ [] := by
  cases l with
  | nil => exact absurd rfl h
  | cons a rest =>
    unfold editFirst
    split <;> exact List.cons_ne_nil _ _

theorem SemanticData.assertStatement_ne_nil (data : SemanticData) (spec : SemanticStatementSpec)
    (mint : Str) : (data.assertStatement spec mint).1.statements ≠ [] := by
  unfold assertStatement
  split
  · rename_i existing hfind
    have hne : data.statements ≠ [] := List.ne_nil_of_mem (List.mem_of_find?_eq_some hfind)
    split
    · exact hne
    · exact editFirst_ne_nil _ _ hne
  · exact List.append_ne_nil_of_right_ne_nil _ (List.cons_ne_nil _ _)

theorem hasKinds_insertKind {S : Type} [DecidableEq S] (kinds : Option (Finset S)) (kind : S) :
    hasKinds (insertKind kinds kind).1 = true := by
  unfold hasKinds insertKind
  simp

namespace EdgePayload

variable (payload : EdgePayload) (mint : Str)

theorem assertStatement_isEmpty (spec : SemanticStatementSpec) :
    isEmpty { payload with
      semantic := some ((payload.semantic.getD {}).assertStatement spec mint).1 } = false :=
  isEmpty_of_semantic (hasSemantic_of_statements rfl (SemanticData.assertStatement_ne_nil _ _ _))

theorem assertRelation_move (assertion : EdgeAssertion) :
    Move mint payload (payload.assertRelation assertion mint).1 ∧
      (payload.assertRelation assertion mint).1.isEmpty = false := by
  cases assertion with
  | semantic subKind label =>
    exact ⟨.statement _, payload.assertStatement_isEmpty mint _⟩
  | _ => exact ⟨.other rfl, by simp [isEmpty, assertRelation, hasKinds_insertKind]⟩

theorem retractRelation_move (selector : RelationSelector) :
    Move mint payload (payload.retractRelation selector).1 := by
  cases selector with
  | family family => cases family <;> exact .other rfl
  | semantic subKind => exact .drop _
  | _ => exact .other rfl

theorem pushTraversal_move (traversal : Traversal) :
    Move mint payload (payload.pushTraversal traversal) ∧
      (payload.pushTraversal traversal).isEmpty = false :=
  ⟨.other rfl, by simp [isEmpty, pushTraversal]⟩

end EdgePayload

/-! ## One bucket -/

/-- The payload from one node to another, `old` or none before, is `new` now. In a simple graph
    that is all that changed. -/
structure Relinks (inner : Inner) (s t : Nat) (old : EdgePayload) (new : Option EdgePayload)
    (inner' : Inner) : Prop where
  nodes : inner'.nodes = inner.nodes
  byId : inner'.byId = inner.byId
  simple : inner.Simple → inner'.Simple
  old : inner.Simple → (inner.link s t).getD {} = old
  link : inner.Simple → ∀ s' t',
    inner'.link s' t' = if s' = s ∧ t' = t then new else inner.link s' t'

namespace Relinks

open Chartulary.Graph

variable {inner : Inner} {s t k : Nat} {old : EdgePayload}

theorem setWeight (h : inner.edges.get k = some ⟨s, t, old⟩) (new : EdgePayload) :
    Relinks inner s t old (some new) (inner.setWeight k new) where
  nodes := setWeight_nodes k new
  byId := setWeight_byId k new
  simple hs := (hs.reslots_setWeight h new).simple hs
  old hs := by rw [hs.link_eq_some.mpr ⟨k, h⟩]; rfl
  link hs := (hs.reslots_setWeight h new).link hs

theorem disconnect (h : inner.edges.get k = some ⟨s, t, old⟩) :
    Relinks inner s t old none (inner.disconnect k) where
  nodes := rfl
  byId := rfl
  simple hs := (hs.reslots_disconnect h).simple hs
  old hs := by rw [hs.link_eq_some.mpr ⟨k, h⟩]; rfl
  link hs := (hs.reslots_disconnect h).link hs

theorem connect (hs : (inner.nodes.get s).isSome) (ht : (inner.nodes.get t).isSome)
    (h : inner.findEdge s t = none) (new : EdgePayload) :
    Relinks inner s t {} (some new) (inner.connect s t new) where
  nodes := connect_nodes s t new
  byId := connect_byId s t new
  simple := (reslots_connect hs ht h new).simple
  old _ := by rw [link_eq_none.mpr h]; rfl
  link := (reslots_connect hs ht h new).link

theorem connect_setWeight (hs : (inner.nodes.get s).isSome) (ht : (inner.nodes.get t).isSome)
    (h : inner.findEdge s t = none) (new : EdgePayload) :
    Relinks inner s t {} (some new)
      ((inner.connect s t {}).setWeight inner.edges.nextKey new) where
  nodes := (setWeight_nodes _ new).trans (connect_nodes s t _)
  byId := (setWeight_byId _ new).trans (connect_byId s t _)
  simple := (reslots_connect_setWeight hs ht h new).simple
  old _ := by rw [link_eq_none.mpr h]; rfl
  link := (reslots_connect_setWeight hs ht h new).link

end Relinks

namespace Graph

open EdgePayload (Move)

variable {s t : Nat} {A : Type} {g' : Graph P} {key : Nat} {id : Uuid} {done : Graph P × Bool}
  {inner : Inner} {write : EdgePayload → EdgePayload × Bool} {g : Graph P}

theorem live_iff :
    ¬ ((g.node s).isNone ∨ (g.node t).isNone) ↔ (g.node s).isSome ∧ (g.node t).isSome := by
  rw [not_or, Option.isNone_iff_eq_none, Option.isNone_iff_eq_none, ← ne_eq, ← ne_eq,
    ← Option.isSome_iff_ne_none, ← Option.isSome_iff_ne_none]

theorem writeBucket_of_live (g : Graph P) (hs : (g.node s).isSome)
    (ht : (g.node t).isSome) (write : EdgePayload → EdgePayload × A) :
    ∃ inner old key, g.writeBucket s t write = some ({ g with inner }, key, (write old).2) ∧
      Relinks g.inner s t old (some (write old).1) inner := by
  unfold writeBucket
  rw [if_neg (live_iff.mpr ⟨hs, ht⟩)]
  refine ⟨_, _, _, rfl, ?_⟩
  unfold bucket payloadAt
  cases hfind : g.inner.findEdge s t with
  | some key =>
    obtain ⟨w, _, hw⟩ := Chartulary.Graph.link_of_findEdge hfind
    simp only [Chartulary.Graph.edge, hw, Option.map_some, Option.getD_some]
    exact .setWeight hw _
  | none =>
    simp only [Chartulary.Graph.edge, Chartulary.Graph.get_connect_edge (g := g.inner) hs ht,
      if_true, Option.map_some, Option.getD_some]
    exact .connect_setWeight hs ht hfind _

theorem writeBucket_relinks {write : EdgePayload → EdgePayload × A} {a : A}
    (h : g.writeBucket s t write = some (g', key, a)) :
    ∃ inner old, g' = { g with inner } ∧ a = (write old).2 ∧
      Relinks g.inner s t old (some (write old).1) inner := by
  have hlive : (g.node s).isSome ∧ (g.node t).isSome := by
    unfold writeBucket at h
    split at h
    · cases h
    · rename_i hlive
      exact live_iff.mp hlive
  obtain ⟨inner, old, key', heq, hlink⟩ := g.writeBucket_of_live hlive.1 hlive.2 write
  obtain ⟨rfl, rfl, rfl⟩ := Option.some.inj (heq.symm.trans h)
  exact ⟨inner, old, rfl, rfl, hlink⟩

theorem shrinkEdge_relinks (inner : Inner) (key : Nat) (write : EdgePayload → EdgePayload × Bool) :
    (shrinkEdge inner key write).1 = inner ∨
      ∃ s t old, inner.edges.get key = some ⟨s, t, old⟩ ∧
        Relinks inner s t old (if (write old).1.isEmpty then none else some (write old).1)
          (shrinkEdge inner key write).1 := by
  unfold shrinkEdge
  cases hedge : inner.edge key with
  | none => exact .inl rfl
  | some edge =>
    obtain ⟨s, t, old⟩ := edge
    dsimp only
    split
    · refine .inr ⟨s, t, old, hedge, ?_⟩
      split
      · exact .disconnect hedge
      · exact .setWeight hedge _
    · exact .inl rfl

/-! ## The writes -/

/-- The node keeps its id and its URL, and does not come to have both a body and content. -/
structure NodeKept (node node' : Node) : Prop where
  id : node'.id = node.id
  url : node'.primaryAddress = node.primaryAddress
  body : (node.content = none ∨ node.body = none) → node'.content = none ∨ node'.body = none

/-- The navigation history after one call that changes it. -/
inductive NavMove (nav nav' : SharedNavigationMemory) : Prop
  | spawn (child parent : Uuid) : nav.spawn child parent = some nav' → NavMove nav nav'
  | visit (id : Uuid) (url : Str) (transition : Stemma.TransitionKind) (atMs : Nat) :
      nav.recordVisit id url transition atMs = some nav' → NavMove nav nav'
  | back (id : Uuid) (atMs : Nat) (page : Option Str) :
      nav.back id atMs = some (page, nav') → NavMove nav nav'
  | forward (id : Uuid) (atMs : Nat) (page : Option Str) :
      nav.forward id atMs = some (page, nav') → NavMove nav nav'
  | remove (id : Uuid) : nav.remove id = some nav' → NavMove nav nav'
  | seed (id : Uuid) (entries : List Str) (index : Nat) :
      nav.seedLinear id entries index = some nav' → NavMove nav nav'

def FieldsKeyed (fields : OrdMap Uuid (Field P)) : Prop :=
  ∀ (id : Uuid) (field : Field P), fields[id]? = some field → field.id = id

def CouplingsKeyed (couplings : OrdMap Uuid Coupling) : Prop :=
  ∀ (id : Uuid) (coupling : Coupling), couplings[id]? = some coupling → coupling.id = id

/-- One write to the graph; `mint` is the statement id the step has at hand. -/
inductive Write (mint : Str) (g : Graph P) : Graph P → Prop
  | facets (store : NodeFacetStore P) : Write mint g { g with facets := store }
  | records (records : List ImportRecord) :
      (Normal P.isBlank g.importRecords → Normal P.isBlank records) →
      Write mint g { g with importRecords := records }
  | fields (fields : OrdMap Uuid (Field P)) : (FieldsKeyed g.fields → FieldsKeyed fields) →
      Write mint g { g with fields }
  | couplings (couplings : OrdMap Uuid Coupling) :
      (CouplingsKeyed g.couplings → CouplingsKeyed couplings) → Write mint g { g with couplings }
  | nav {nav : SharedNavigationMemory} : NavMove g.nav nav → Write mint g { g with nav }
  | node {key : Nat} {node node' : Node} : g.node key = some node → NodeKept node node' →
      Write mint g (g.putNode node')
  | add (id : Uuid) (url : Str) : g.getNodeKeyById id = none →
      Write mint g { g.putNode (newNode (P := P) id url) with
        urlToNodes := g.urlToNodes.push url (g.keyFor id) }
  | move {key : Nat} {node : Node} (url : Str) : g.node key = some node →
      Write mint g { g.putNode (movedTo (P := P) url node) with
        urlToNodes := (g.urlToNodes.drop node.url key).push url key }
  | remove {key : Nat} {node : Node} : g.node key = some node →
      Write mint g { g with
        inner := g.inner.remove key
        urlToNodes := node.addresses.foldl (fun index address => index.drop address.asUrlStr key)
          g.urlToNodes }
  | link {s t : Nat} {old new : EdgePayload} {inner : Inner} : Move mint old new →
      Relinks g.inner s t old (if new.isEmpty then none else some new) inner →
      Write mint g { g with inner }

abbrev Writes (mint : Str) : Graph P → Graph P → Prop := Relation.ReflTransGen (Write mint)

/-! ## Facets -/

def FacetsOnly (g g' : Graph P) : Prop := ∃ store, g' = { g with facets := store }

theorem FacetsOnly.refl (g : Graph P) : FacetsOnly g g := ⟨g.facets, rfl⟩

theorem FacetsOnly.trans {g'' : Graph P} : FacetsOnly g g' → FacetsOnly g' g'' →
    FacetsOnly g g'' := by
  rintro ⟨_, rfl⟩ ⟨store, rfl⟩
  exact ⟨store, rfl⟩

variable {mint : Str} (g : Graph P)

theorem FacetsOnly.writes {g : Graph P} : FacetsOnly g g' → Writes mint g g' := by
  rintro ⟨store, rfl⟩
  exact .single (.facets store)

theorem setNodeFacet_facets (key : Nat) (facet : Str) (value : P.Json) :
    FacetsOnly g (g.setNodeFacet key facet value).1 := by
  unfold setNodeFacet
  split
  · exact .refl g
  · split
    · exact .refl g
    · exact ⟨_, rfl⟩

theorem removeNodeFacet_facets (key : Nat) (facet : Str) :
    FacetsOnly g (g.removeNodeFacet key facet).1 := by
  unfold removeNodeFacet
  split
  · exact .refl g
  · split
    · exact ⟨_, rfl⟩
    · exact .refl g

theorem editFacet_facets {T : Type} (codec : Codec P.Json T) (missing : T) (key : Nat) (facet : Str)
    (edit : T → Option T) : FacetsOnly g (g.editFacet codec missing key facet edit).1 := by
  unfold editFacet
  split
  · exact .refl g
  · split
    · exact .refl g
    · exact g.setNodeFacet_facets key facet _

theorem setNodeTagIconOverride_facets (key : Nat) (tag : Str) (icon : Option BadgeIcon) :
    FacetsOnly g (g.setNodeTagIconOverride key tag icon).1 := by
  unfold setNodeTagIconOverride
  split
  · exact .refl g
  · split
    · exact .refl g
    · exact g.editFacet_facets _ _ _ _ _

theorem syncNodeImportProvenanceFromRecords_facets :
    FacetsOnly g g.syncNodeImportProvenanceFromRecords := by
  suffices h : ∀ (keys : List Nat) (h : Graph P), FacetsOnly g h → FacetsOnly g
      (keys.foldl (fun h key => (h.setNodeFacet key provenanceImport
        (P.importProvenance.encode (g.recordedProvenance key))).1) h) from h _ g (.refl g)
  intro keys
  induction keys with
  | nil => exact fun h hh => hh
  | cons key keys ih => exact fun h hh => ih _ (hh.trans (h.setNodeFacet_facets key _ _))

/-! ## Nodes -/

theorem editNode_writes (key : Nat) {edit : Node → Option Node}
    (h : ∀ node node', edit node = some node' → NodeKept node node') :
    Writes mint g (g.editNode key edit).1 := by
  unfold editNode
  split
  · exact .refl
  · rename_i node' hedit
    obtain ⟨node, hnode, hnode'⟩ := Option.bind_eq_some_iff.mp hedit
    exact .single (.node hnode (h node node' hnode'))

theorem NodeKept.of_ite {node new node' : Node} {c : Prop} [Decidable c] (hkept : NodeKept node new)
    (h : (if c then none else some new) = some node') : NodeKept node node' := by
  split at h
  · cases h
  · obtain rfl := Option.some.inj h
    exact hkept

theorem setNodeContent_writes (key : Nat) (content : Option Bytes32) :
    Writes mint g (g.setNodeContent key content).1 := by
  refine g.editNode_writes key fun node _ => NodeKept.of_ite ⟨rfl, rfl, fun _ => ?_⟩
  cases content with
  | none => exact .inl rfl
  | some hash => exact .inr rfl

theorem setNodeBody_writes (key : Nat) (body : Option Str) :
    Writes mint g (g.setNodeBody key body).1 := by
  refine g.editNode_writes key fun node _ => NodeKept.of_ite ⟨rfl, rfl, fun _ => ?_⟩
  cases body with
  | none => exact .inr rfl
  | some text => exact .inl rfl

theorem insertNodeTag_writes (key : Nat) (tag : Str) :
    Writes mint g (g.insertNodeTag key tag).1 := by
  have hnode : Writes mint g (g.editNode key fun node =>
      if tag ∈ node.tags then none else some { node with tags := insert tag node.tags }).1 :=
    g.editNode_writes key fun _ _ => NodeKept.of_ite ⟨rfl, rfl, id⟩
  unfold insertNodeTag
  split
  · exact .refl
  · rename_i g' hg'
    rw [hg'] at hnode
    exact hnode.trans (g'.editFacet_facets _ _ _ _ _).writes

theorem removeNodeTag_writes (key : Nat) (tag : Str) :
    Writes mint g (g.removeNodeTag key tag).1 := by
  have hnode : Writes mint g (g.editNode key fun node =>
      if tag ∈ node.tags then some { node with tags := node.tags.erase tag } else none).1 := by
    refine g.editNode_writes key fun node node' h => ?_
    split at h
    · obtain rfl := Option.some.inj h
      exact ⟨rfl, rfl, id⟩
    · cases h
  unfold removeNodeTag
  split
  · exact .refl
  · rename_i g' hg'
    rw [hg'] at hnode
    exact hnode.trans (g'.editFacet_facets _ _ _ _ _).writes

theorem updateNodeUrl_writes (key : Nat) (url : Str) :
    Writes mint g (g.updateNodeUrl key url).1 := by
  unfold updateNodeUrl
  split
  · exact .refl
  · rename_i node hnode
    exact .single (.move url hnode)

theorem addNodeWithId_writes (h : g.getNodeKeyById id = none) (url : Str) (nowMs : Nat) :
    Writes mint g (g.addNodeWithId id url nowMs) := by
  obtain ⟨store, hstore⟩ := (g.putNode (newNode (P := P) id url)).editFacet_facets P.visitHistory {}
    (g.keyFor id) visitHistory (fun history => some { history with lastVisitedMs := some nowMs })
  have hadd : Write mint g _ := .add id url h
  refine .tail (.single hadd) ?_
  unfold addNodeWithId setNodeLastVisitedAtMs
  rw [hstore]
  exact .facets store

theorem removeNode_writes (key : Nat) : Writes mint g (g.removeNode key).1 := by
  unfold removeNode
  split
  · exact .refl
  · rename_i node hnode
    refine .tail (.tail (.single (.remove hnode)) (.facets (g.facets.erase node.id))) ?_
    refine .records _ fun hnormal => (hnormal.map _ fun record hrecord => ?_).filter _
    exact (hnormal.members record hrecord).filter _

/-! ## Navigation -/

theorem visitNode_writes {g : Graph P} {url : Str}
    {transition : Stemma.TransitionKind} {timestampMs session : Nat}
    (h : g.visitNode key id url transition timestampMs session = some g') : Writes mint g g' := by
  obtain ⟨nav, hnav, h⟩ := Option.bind_eq_some_iff.mp h
  obtain rfl := Option.some.inj h
  have hmove : Write mint g { g with nav } := .nav (.visit id url transition timestampMs hnav)
  exact ((Relation.ReflTransGen.single hmove).trans (editFacet_facets _ _ _ _ _ _).writes).trans
    (updateNodeUrl_writes _ _ _)

theorem stepHistory_writes (key : Nat) {page : Option Str} {nav : SharedNavigationMemory}
    (h : NavMove g.nav nav) : Writes mint g (g.stepHistory key (page, nav)).1 := by
  have hmove : Writes mint g { g with nav } := .single (.nav h)
  cases page with
  | none => exact hmove
  | some url => exact hmove.trans (updateNodeUrl_writes _ _ _)

theorem setNodeHistoryState_writes {g : Graph P} {entries : List Str} {index : Nat}
    (h : g.setNodeHistoryState key entries index = some done) :
    Writes mint g done.1 := by
  unfold setNodeHistoryState at h
  split at h
  · obtain rfl := Option.some.inj h
    exact .refl
  · rename_i node _
    obtain ⟨current, _, h⟩ := Option.bind_eq_some_iff.mp h
    split at h
    · obtain rfl := Option.some.inj h
      exact .refl
    · obtain ⟨nav, hnav, h⟩ := Option.bind_eq_some_iff.mp h
      obtain ⟨nav', hnav', h⟩ := Option.bind_eq_some_iff.mp h
      obtain rfl := Option.some.inj h
      have hremove : Write mint g { g with nav } := .nav (.remove node.id hnav)
      have hseed : Write mint { g with nav } { g with nav := nav' } := .nav (.seed _ _ _ hnav')
      exact .tail (.single hremove) hseed

/-! ## Edges -/

theorem Write.fill {g : Graph P} {old new : EdgePayload}
    (hmove : Move mint old new) (hne : new.isEmpty = false)
    (h : Relinks g.inner s t old (some new) inner) : Write mint g { g with inner } := by
  refine @Write.link P mint g s t old new inner hmove ?_
  rw [hne]
  exact h

theorem writeSemantic_writes
    (h : ∀ old, Move mint old (write old).1 ∧ (write old).1.isEmpty = false) :
    Writes mint g (g.writeSemantic s t write).1 := by
  unfold writeSemantic
  split
  · exact .refl
  · rename_i g' key changed hwrite
    obtain ⟨inner, old, rfl, _, hlink⟩ := writeBucket_relinks hwrite
    exact .single (.fill (h old).1 (h old).2 hlink)

theorem assertSemanticRelationInScope_writes (s t : Nat) (subKind : SemanticSubKind)
    (label : Option Str) (graphScope : GraphScope) :
    Writes mint g (g.assertSemanticRelationInScope s t subKind label graphScope mint).1 :=
  g.writeSemantic_writes fun old => ⟨.statement _, old.assertStatement_isEmpty mint _⟩

theorem assertSemanticPredicateInScope_writes (s t : Nat) (predicate : Str)
    (graphScope : GraphScope) :
    Writes mint g (g.assertSemanticPredicateInScope s t predicate graphScope mint).1 :=
  g.writeSemantic_writes fun old => ⟨.statement _, old.assertStatement_isEmpty mint _⟩

theorem assertSemanticStatement_writes {g : Graph P}
    {spec : SemanticStatementSpec} {answer : StatementAssert}
    (h : g.assertSemanticStatement s t spec mint = some (g', key, answer)) : Writes mint g g' := by
  obtain ⟨inner, old, rfl, _, hlink⟩ := writeBucket_relinks h
  exact .single (.fill (.statement spec) (old.assertStatement_isEmpty mint spec) hlink)

theorem relinks_of_found (write : EdgePayload → EdgePayload)
    (hs : (g.node s).isSome) (ht : (g.node t).isSome)
    (hinner : (∃ key, g.inner.findEdge s t = some key ∧
        inner = g.inner.setWeight key (write (payloadAt g.inner key))) ∨
      (g.inner.findEdge s t = none ∧ inner = g.inner.connect s t (write {}))) :
    ∃ old, Relinks g.inner s t old (some (write old)) inner := by
  rcases hinner with ⟨key, hfind, rfl⟩ | ⟨hfind, rfl⟩
  · obtain ⟨old, _, hold⟩ := Chartulary.Graph.link_of_findEdge hfind
    refine ⟨old, ?_⟩
    simp only [payloadAt, Chartulary.Graph.edge, hold, Option.map_some, Option.getD_some]
    exact .setWeight hold _
  · exact ⟨{}, .connect hs ht hfind _⟩

theorem assertRelation_relinks (hs : (g.node s).isSome) (ht : (g.node t).isSome)
    (assertion : EdgeAssertion) : ∃ inner old,
      (g.assertRelation s t assertion mint).1 = { g with inner } ∧
      Relinks g.inner s t old (some (old.assertRelation assertion mint).1) inner := by
  have hkind : ∀ assertion, (EdgePayload.assertRelation {} assertion mint).2 = true →
      ∃ inner old, (g.assertKind s t assertion mint).1 = { g with inner } ∧
        Relinks g.inner s t old (some (old.assertRelation assertion mint).1) inner := by
    intro assertion hnew
    unfold assertKind
    rw [if_neg (live_iff.mpr ⟨hs, ht⟩)]
    cases hfind : g.inner.findEdge s t with
    | some key =>
      obtain ⟨old, hlink⟩ := g.relinks_of_found (fun old => (old.assertRelation assertion mint).1)
        hs ht (.inl ⟨key, hfind, rfl⟩)
      exact ⟨_, old, rfl, hlink⟩
    | none =>
      obtain ⟨old, hlink⟩ := g.relinks_of_found (fun old => (old.assertRelation assertion mint).1)
        hs ht (.inr ⟨hfind, rfl⟩)
      rw [if_pos hnew]
      exact ⟨_, old, rfl, hlink⟩
  cases assertion with
  | semantic subKind label =>
    obtain ⟨inner, old, key, heq, hlink⟩ := g.writeBucket_of_live hs ht fun payload =>
      payload.assertSemanticRelationInScope subKind label .default mint
    refine ⟨inner, old, ?_, hlink⟩
    dsimp only [assertRelation, assertSemanticRelationInScope, writeSemantic]
    rw [heq]
  | _ => exact hkind _ (by simp [EdgePayload.assertRelation, insertKind])

theorem assertRelation_of_dead (h : (g.node s).isNone ∨ (g.node t).isNone)
    (assertion : EdgeAssertion) : (g.assertRelation s t assertion mint).1 = g := by
  cases assertion with
  | semantic subKind label =>
    dsimp only [assertRelation, assertSemanticRelationInScope, writeSemantic, writeBucket]
    rw [if_pos h]
  | _ => dsimp only [assertRelation, assertKind]; rw [if_pos h]

theorem assertRelation_writes (s t : Nat) (assertion : EdgeAssertion) :
    Writes mint g (g.assertRelation s t assertion mint).1 := by
  by_cases hlive : (g.node s).isNone ∨ (g.node t).isNone
  · rw [g.assertRelation_of_dead hlive]
  · obtain ⟨hs, ht⟩ := live_iff.mp hlive
    obtain ⟨inner, old, heq, hlink⟩ := g.assertRelation_relinks hs ht assertion
    rw [heq]
    obtain ⟨hmove, hne⟩ := old.assertRelation_move mint assertion
    exact .single (.fill hmove hne hlink)

theorem pushTraversal_writes (s t : Nat) (traversal : Traversal) :
    Writes mint g (g.pushTraversal s t traversal).1 := by
  have hfill : ∀ {inner}, (∃ old, Relinks g.inner s t old (some (old.pushTraversal traversal)) inner) →
      Writes mint g { g with inner } := by
    rintro inner ⟨old, hlink⟩
    obtain ⟨hmove, hne⟩ := old.pushTraversal_move mint traversal
    exact .single (.fill hmove hne hlink)
  unfold pushTraversal
  split
  · exact .refl
  · rename_i hlive
    rw [not_or] at hlive
    obtain ⟨hs, ht⟩ := live_iff.mp hlive.2
    split
    · rename_i key hfind
      exact hfill (g.relinks_of_found (·.pushTraversal traversal) hs ht (.inl ⟨key, hfind, rfl⟩))
    · rename_i hfind
      exact hfill (g.relinks_of_found (·.pushTraversal traversal) hs ht (.inr ⟨hfind, rfl⟩))

theorem shrinkEdge_writes (key : Nat)
    (h : ∀ old, Move mint old (write old).1) :
    Writes mint g { g with inner := (shrinkEdge g.inner key write).1 } := by
  rcases shrinkEdge_relinks g.inner key write with hsame | ⟨s, t, old, _, hlink⟩
  · rw [hsame]
  · exact .single (.link (h old) hlink)

theorem retractSemanticStatement_writes (s t : Nat) (statementId : Str) :
    Writes mint g (g.retractSemanticStatement s t statementId).1 := by
  unfold retractSemanticStatement
  split
  · exact .refl
  · exact g.shrinkEdge_writes _ fun old => .drop _

theorem retractRelations_writes (s t : Nat) (selector : RelationSelector) :
    Writes mint g (g.retractRelations s t selector).1 := by
  suffices h : ∀ (keys : List Nat) (acc : Inner × Nat), Writes mint g { g with inner := acc.1 } →
      Writes mint g { g with
        inner := (keys.foldl (fun (acc : Inner × Nat) key =>
          let shrunk := shrinkEdge acc.1 key fun payload => payload.retractRelation selector
          (shrunk.1, acc.2 + shrunk.2.toNat)) acc).1 } from h _ (g.inner, 0) .refl
  intro keys
  induction keys with
  | nil => exact fun acc h => h
  | cons key keys ih =>
    intro acc h
    refine ih _ (h.trans ?_)
    exact shrinkEdge_writes { g with inner := acc.1 } key fun old =>
      old.retractRelation_move mint selector

/-! ## Import records, fields and couplings -/

theorem sync_writes {records : List ImportRecord}
    (h : Normal P.isBlank g.importRecords → Normal P.isBlank records) :
    Writes mint g (Graph.syncNodeImportProvenanceFromRecords { g with importRecords := records }) := by
  have hrecords : Write mint g { g with importRecords := records } := .records records h
  exact (Relation.ReflTransGen.single hrecords).trans
    (syncNodeImportProvenanceFromRecords_facets _).writes

theorem setImportRecords_writes (importRecords : List ImportRecord) :
    Writes mint g (g.setImportRecords importRecords).1 := by
  unfold setImportRecords
  dsimp only
  split
  · exact .refl
  · exact g.sync_writes fun _ => normal_normalizeImportRecords P.isBlank importRecords

theorem deleteImportRecord_writes (recordId : Str) :
    Writes mint g (g.deleteImportRecord recordId).1 := by
  unfold deleteImportRecord
  split
  · exact g.sync_writes fun hnormal => hnormal.filter _
  · exact .refl

theorem setImportRecordMembershipSuppressed_writes (recordId : Str) (key : Nat)
    (suppressed : Bool) :
    Writes mint g (g.setImportRecordMembershipSuppressed recordId key suppressed).1 := by
  unfold setImportRecordMembershipSuppressed
  split
  · exact .refl
  · dsimp only
    split
    · exact .refl
    · refine g.sync_writes fun hnormal => hnormal.map _ fun record hrecord => ?_
      have hmembers := hnormal.members record hrecord
      split
      · exact ascending_editFirst hmembers _ _ fun _ => rfl
      · exact hmembers

theorem setNodeImportProvenance_writes (key : Nat) (provenance : List NodeImportProvenance)
    (nowSecs : Nat) : Writes mint g (g.setNodeImportProvenance key provenance nowSecs).1 := by
  unfold setNodeImportProvenance
  split
  · exact .refl
  · split
    · exact .refl
    · have hfacet := g.setNodeFacet_facets key provenanceImport
        (P.importProvenance.encode (sortedProvenance provenance))
      refine hfacet.writes.trans ?_
      exact sync_writes _ fun _ => normal_normalizeImportRecords P.isBlank _

theorem keyed_insert {V : Type} {m : OrdMap Uuid V} {key : V → Uuid} {id : Uuid} {v : V}
    (hkeyed : ∀ (id : Uuid) v, m[id]? = some v → key v = id) (hv : key v = id) (id' : Uuid) (w : V)
    (hw : (m.insert id v)[id']? = some w) : key w = id' := by
  rw [OrdMap.getElem?_insert] at hw
  split at hw
  · rename_i hid
    obtain rfl := Option.some.inj hw
    exact hv.trans hid
  · exact hkeyed id' w hw

theorem addField_writes (field : Field P) : Writes mint g (g.addField field) :=
  .single (.fields _ fun hkeyed => keyed_insert hkeyed rfl)

theorem setFieldLifecycle_writes (id : Uuid) (lifecycle : FieldLifecycle) :
    Writes mint g (g.setFieldLifecycle id lifecycle).1 := by
  unfold setFieldLifecycle
  split
  · exact .refl
  · rename_i field hfield
    exact .single (.fields _ fun hkeyed => keyed_insert hkeyed (hkeyed id field hfield))

theorem addCoupling_writes (coupling : Coupling) : Writes mint g (g.addCoupling coupling) :=
  .single (.couplings _ fun hkeyed => keyed_insert hkeyed rfl)

theorem retractCoupling_writes (id : Uuid) : Writes mint g (g.retractCoupling id).1 := by
  unfold retractCoupling
  split
  · refine .single (.couplings _ fun hkeyed id' found hfound => ?_)
    rw [ExtTreeMap.getElem?_erase] at hfound
    split at hfound
    · cases hfound
    · exact hkeyed id' found hfound
  · exact .refl

theorem setFieldCouplingStrength_writes (field : Uuid) (strength : F32) :
    Writes mint g (g.setFieldCouplingStrength field strength).1 := by
  refine .single (.couplings _ fun hkeyed id found hfound => ?_)
  rw [ExtTreeMap.getElem?_map] at hfound
  obtain ⟨coupling, hcoupling, rfl⟩ := Option.map_eq_some_iff.mp hfound
  split <;> exact hkeyed id coupling hcoupling

/-! ## A delta -/

theorem applyEdit_writes {g : Graph P} {edit : NodeEdit P P.Json}
    (h : g.applyEdit key edit = some done) : Writes mint g done.1 := by
  cases edit with
  | updateNodeHistory entries currentIndex => exact setNodeHistoryState_writes h
  | setNodeTitle _ | setNodeImage _ _ | setNodeMimeHint _ | setNodeNested _ =>
    cases h; exact g.editNode_writes key fun _ _ => NodeKept.of_ite ⟨rfl, rfl, id⟩
  | setNodeUrl newUrl => cases h; exact g.updateNodeUrl_writes key newUrl
  | setNodeContent content => cases h; exact g.setNodeContent_writes key content
  | insertNodeTag tag => cases h; exact g.insertNodeTag_writes key tag
  | removeNodeTag tag => cases h; exact g.removeNodeTag_writes key tag
  | setNodeBody body => cases h; exact g.setNodeBody_writes key body
  | setNodeFacet facet value => cases h; exact (g.setNodeFacet_facets key facet value).writes
  | removeNodeFacet facet => cases h; exact (g.removeNodeFacet_facets key facet).writes
  | setNodeTagIconOverride tag icon =>
    cases h; exact (g.setNodeTagIconOverride_facets key tag icon).writes
  | _ => cases h; exact (g.editFacet_facets _ _ _ _ _).writes

end Graph

def GraphDelta.added (tick : Tick) : GraphDelta P → Option Uuid
  | .addNode id _ => some (id.getD tick.nodeId)
  | _ => none

def GraphDelta.rewritten (g : Graph P) : GraphDelta P → Option (Nat × Option Str)
  | .setEdgeSemanticPredicate edge predicate => some (edge, predicate)
  | .replay (.setEdgeSemanticPredicateByIds source target predicate) =>
    ((g.keysOf source target).bind fun keys => g.inner.findEdge keys.1 keys.2).map (·, predicate)
  | _ => none

namespace Graph

inductive Change (tick : Tick) (g : Graph P) (delta : GraphDelta P) : Graph P → Prop
  | writes {g' : Graph P} : Writes tick.statementId g g' → Change tick g delta g'
  | overwrite {id : Uuid} (url : Str) : delta.added tick = some id →
      g.getNodeKeyById id ≠ none → Change tick g delta (g.addNodeWithId id url tick.nowMs)
  | predicate {edge : Nat} {predicate : Option Str} :
      delta.rewritten g = some (edge, predicate) →
      Change tick g delta (g.setEdgeSemanticPredicate edge predicate tick.statementId).1

variable {g : Graph P} {tick : Tick}
variable {applied : Applied P} {delta : GraphDelta P}

theorem applyReplay_change {delta : ReplayDelta P P.Json}
    (h : g.applyReplay tick delta = some applied) : Change tick g (.replay delta) applied.1 := by
  cases delta with
  | addNodeWithIdIfMissing id url =>
    dsimp only [applyReplay, replayAddNodeWithIdIfMissing] at h
    cases hid : g.getNodeKeyById id with
    | some key =>
      rw [hid] at h
      cases h
      exact .writes .refl
    | none =>
      rw [hid] at h
      cases h
      exact .writes (g.addNodeWithId_writes hid url tick.nowMs)
  | removeNodeById id =>
    dsimp only [applyReplay] at h
    split at h <;> cases h
    · exact .writes .refl
    · exact .writes (g.removeNode_writes _)
  | assertRelationByIds source target assertion =>
    dsimp only [applyReplay] at h
    split at h <;> cases h
    · exact .writes .refl
    · exact .writes (g.assertRelation_writes _ _ _)
  | retractRelationsByIds source target selector =>
    dsimp only [applyReplay] at h
    split at h <;> cases h
    · exact .writes .refl
    · exact .writes (g.retractRelations_writes _ _ _)
  | appendTraversalByIds source target trigger timestampMs =>
    dsimp only [applyReplay] at h
    split at h <;> cases h
    · exact .writes .refl
    · exact .writes (g.pushTraversal_writes _ _ _)
  | assertSemanticPredicateByIds source target predicate =>
    dsimp only [applyReplay] at h
    split at h <;> cases h
    · exact .writes .refl
    · exact .writes (g.assertSemanticPredicateInScope_writes _ _ _ _)
  | setEdgeSemanticPredicateByIds source target predicate =>
    dsimp only [applyReplay] at h
    split at h
    · cases h
      exact .writes .refl
    · rename_i edge hedge
      cases h
      refine .predicate ?_
      dsimp only [GraphDelta.rewritten]
      rw [hedge]
      rfl
  | editNodeById id edit =>
    dsimp only [applyReplay] at h
    split at h
    · cases h
      exact .writes .refl
    · obtain ⟨done, hdone, rfl⟩ := Option.map_eq_some_iff.mp h
      exact .writes (applyEdit_writes hdone)
  | touchNodeLastVisitedById id timestampMs =>
    dsimp only [applyReplay] at h
    split at h <;> cases h
    · exact .writes .refl
    · exact .writes (g.editFacet_facets _ _ _ _ _).writes
  | navigateNodeById id url transition timestampMs lastSessionVisited =>
    dsimp only [applyReplay] at h
    split at h
    · cases h
      exact .writes .refl
    · obtain ⟨done, hdone, rfl⟩ := Option.map_eq_some_iff.mp h
      exact .writes (visitNode_writes hdone)
  | branchHistoryByIds child parent =>
    dsimp only [applyReplay] at h
    split at h
    · cases h
      exact .writes .refl
    · obtain ⟨nav, hnav, rfl⟩ := Option.map_eq_some_iff.mp h
      exact .writes (.single (.nav (.spawn child parent hnav)))
  | nodeHistoryBackById id timestampMs =>
    dsimp only [applyReplay] at h
    split at h
    · cases h
      exact .writes .refl
    · obtain ⟨⟨page, nav⟩, hnav, rfl⟩ := Option.map_eq_some_iff.mp h
      exact .writes (g.stepHistory_writes _ (.back id timestampMs page hnav))
  | nodeHistoryForwardById id timestampMs =>
    dsimp only [applyReplay] at h
    split at h
    · cases h
      exact .writes .refl
    · obtain ⟨⟨page, nav⟩, hnav, rfl⟩ := Option.map_eq_some_iff.mp h
      exact .writes (g.stepHistory_writes _ (.forward id timestampMs page hnav))
  | setImportRecords importRecords => cases h; exact .writes (g.setImportRecords_writes _)
  | addField field =>
    dsimp only [applyReplay] at h
    split at h <;> cases h
    · exact .writes .refl
    · exact .writes (g.addField_writes _)
  | setFieldLifecycleById id lifecycle =>
    cases h; exact .writes (g.setFieldLifecycle_writes id lifecycle)
  | addCoupling coupling => cases h; exact .writes (g.addCoupling_writes coupling)
  | setFieldCouplingStrengthByFieldId field strength =>
    cases h; exact .writes (g.setFieldCouplingStrength_writes field strength)
  | retractCouplingById id => cases h; exact .writes (g.retractCoupling_writes id)

theorem applyGraphDelta_change
    (h : g.applyGraphDelta tick delta = some applied) : Change tick g delta applied.1 := by
  cases delta with
  | addNode id url =>
    cases h
    cases hid : g.getNodeKeyById (id.getD tick.nodeId) with
    | none => exact .writes (g.addNodeWithId_writes hid url tick.nowMs)
    | some key => exact .overwrite url rfl (by rw [hid]; exact nofun)
  | removeNode key => cases h; exact .writes (g.removeNode_writes key)
  | assertRelation source target assertion =>
    cases h; exact .writes (g.assertRelation_writes _ _ _)
  | retractRelations source target selector =>
    cases h; exact .writes (g.retractRelations_writes _ _ _)
  | appendTraversal source target trigger timestampMs =>
    cases h; exact .writes (g.pushTraversal_writes _ _ _)
  | assertSemanticPredicate source target predicate =>
    cases h; exact .writes (g.assertSemanticPredicateInScope_writes _ _ _ _)
  | setEdgeSemanticPredicate edge predicate => cases h; exact .predicate rfl
  | editNode key edit =>
    dsimp only [applyGraphDelta] at h
    split at h
    · cases h
      exact .writes .refl
    · obtain ⟨done, hdone, rfl⟩ := Option.map_eq_some_iff.mp h
      exact .writes (applyEdit_writes hdone)
  | touchNodeLastVisited key => cases h; exact .writes (g.editFacet_facets _ _ _ _ _).writes
  | navigateNode key url =>
    dsimp only [applyGraphDelta] at h
    split at h
    · cases h
      exact .writes .refl
    · obtain ⟨done, hdone, rfl⟩ := Option.map_eq_some_iff.mp h
      exact .writes (visitNode_writes hdone)
  | branchHistory child parent =>
    dsimp only [applyGraphDelta] at h
    split at h
    · cases h
      exact .writes .refl
    · obtain ⟨nav, hnav, rfl⟩ := Option.map_eq_some_iff.mp h
      exact .writes (.single (.nav (.spawn _ _ hnav)))
  | nodeHistoryBack key =>
    dsimp only [applyGraphDelta] at h
    split at h
    · cases h
      exact .writes .refl
    · obtain ⟨⟨page, nav⟩, hnav, rfl⟩ := Option.map_eq_some_iff.mp h
      exact .writes (g.stepHistory_writes _ (.back _ _ page hnav))
  | nodeHistoryForward key =>
    dsimp only [applyGraphDelta] at h
    split at h
    · cases h
      exact .writes .refl
    · obtain ⟨⟨page, nav⟩, hnav, rfl⟩ := Option.map_eq_some_iff.mp h
      exact .writes (g.stepHistory_writes _ (.forward _ _ page hnav))
  | setImportRecords importRecords => cases h; exact .writes (g.setImportRecords_writes _)
  | deleteImportRecord recordId => cases h; exact .writes (g.deleteImportRecord_writes recordId)
  | setImportRecordMembershipSuppressed recordId key suppressed =>
    cases h; exact .writes (g.setImportRecordMembershipSuppressed_writes recordId key suppressed)
  | setNodeImportProvenance key importProvenance =>
    cases h; exact .writes (g.setNodeImportProvenance_writes key importProvenance tick.nowSecs)
  | addField field => cases h; exact .writes (g.addField_writes field)
  | setFieldLifecycle id lifecycle => cases h; exact .writes (g.setFieldLifecycle_writes id lifecycle)
  | addCoupling coupling => cases h; exact .writes (g.addCoupling_writes coupling)
  | setFieldCouplingStrength field strength =>
    cases h; exact .writes (g.setFieldCouplingStrength_writes field strength)
  | retractCoupling id => cases h; exact .writes (g.retractCoupling_writes id)
  | replay delta => exact applyReplay_change h

theorem apply_change {g' : Graph P} (h : g.apply tick delta = some g') :
    Change tick g delta g' := by
  obtain ⟨applied, happlied, rfl⟩ := Option.map_eq_some_iff.mp h
  exact applyGraphDelta_change happlied

/-! ## Payloads that every write keeps -/

def bucketOf (g : Graph P) (s t : Nat) : EdgePayload := (g.inner.link s t).getD {}

structure Payloads (Q : EdgePayload → Prop) (g : Graph P) : Prop where
  simple : g.inner.Simple
  payload : ∀ s t w, g.inner.link s t = some w → Q w

theorem payloads_empty (Q : EdgePayload → Prop) : Payloads Q ({} : Graph P) where
  simple := .empty
  payload s t w h := by
    obtain ⟨key, hkey⟩ := (Chartulary.Graph.Simple.empty).link_eq_some.mp h
    exact nomatch (Arena.get_empty key).symm.trans hkey

namespace Payloads

variable {Q R : EdgePayload → Prop} {g' : Graph P}

theorem of_edges (h : g.Payloads Q) (hedges : g'.inner.edges = g.inner.edges) : g'.Payloads Q where
  simple := h.simple.of_edges hedges
  payload s t w hw := h.payload s t w ((Chartulary.Graph.link_of_edges hedges s t).symm.trans hw)

variable {new : Option EdgePayload} {inner : Inner}

theorem relinks (h : g.Payloads Q) {s t : Nat} {old : EdgePayload}
    (hlink : Relinks g.inner s t old new inner) (hnew : ∀ w, new = some w → Q w) :
    Payloads Q { g with inner } where
  simple := hlink.simple h.simple
  payload s' t' w hw := by
    rw [hlink.link h.simple] at hw
    split at hw
    · exact hnew w hw
    · exact h.payload s' t' w hw

theorem old (h : g.Payloads Q) (hempty : R {}) (hweak : ∀ w, Q w → R w) {s t : Nat}
    {old : EdgePayload} (hlink : Relinks g.inner s t old new inner) : R old := by
  rw [← hlink.old h.simple]
  cases hlinked : g.inner.link s t with
  | none => exact hempty
  | some w => exact hweak w (h.payload s t w hlinked)

theorem write (h : g.Payloads Q) (hempty : R {}) (hweak : ∀ w, Q w → R w)
    (hmove : ∀ old new, R old → EdgePayload.Move mint old new → new.isEmpty = false → Q new)
    (hwrite : Write mint g g') : g'.Payloads Q := by
  cases hwrite with
  | node _ _ | add _ _ _ | move _ _ => exact h.of_edges (Chartulary.Graph.edges_insert _ _)
  | @remove key node hnode =>
    have hlive : (g.inner.nodes.get key).isSome := by
      change (g.node key).isSome
      rw [hnode]
      rfl
    refine ⟨h.simple.remove key, fun s t w hw => ?_⟩
    rw [h.simple.link_remove hlive] at hw
    split at hw
    · cases hw
    · exact h.payload s t w hw
  | @link s t old new inner hmoved hlink =>
    refine h.relinks hlink fun w hw => ?_
    cases hnew : new.isEmpty with
    | true => simp [hnew] at hw
    | false =>
      obtain rfl : new = w := by simpa [hnew] using hw
      exact hmove old new (h.old hempty hweak hlink) hmoved hnew
  | _ => exact h.of_edges rfl

end Payloads

end Graph

end Mere.Kernel
