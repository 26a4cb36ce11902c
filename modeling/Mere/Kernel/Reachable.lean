import Mere.Kernel.History
import Mere.Kernel.Loading

/-!
# Graphs made by deltas

What holds in every graph that deltas make from an empty one, by the writes they are made of.
-/

open Std (ExtTreeMap)

namespace Mere.Kernel

variable {P : Platform}

def EdgePayload.Stated (payload : EdgePayload) : Prop :=
  ∀ data, payload.semantic = some data → data.statements ≠ []

theorem EdgePayload.stated_empty : Stated {} := nofun

theorem EdgePayload.Move.stated {mint : Str} {old new : EdgePayload} (h : Move mint old new)
    (hold : old.Stated) : new.Stated := by
  cases h with
  | statement spec =>
    intro data hdata
    obtain rfl := Option.some.inj hdata
    exact SemanticData.assertStatement_ne_nil _ _ _
  | drop p =>
    intro data hdata
    unfold shrinkSemantic at hdata
    split at hdata
    · exact hold data hdata
    · split at hdata
      · split at hdata
        · cases hdata
        · rename_i hstatements
          obtain rfl := Option.some.inj hdata
          simpa using hstatements
      · exact hold data hdata
  | other hsame => exact fun data hdata => hold data (hsame ▸ hdata)

theorem EdgePayload.stated_setSemanticPredicate {payload : EdgePayload} (h : payload.Stated)
    (predicate : Option Str) (mint : Str) : (payload.setSemanticPredicate predicate mint).Stated := by
  unfold setSemanticPredicate
  split
  · exact h
  · intro data hdata
    split at hdata
    · cases hdata
    · rename_i hstatements
      obtain rfl := Option.some.inj hdata
      simpa using hstatements
  · intro data hdata
    obtain rfl := Option.some.inj hdata
    exact List.cons_ne_nil _ _

namespace Graph

def step (g : Graph P) (p : Tick × GraphDelta P) : Option (Graph P) := g.apply p.1 p.2

/-- Made from an empty graph by deltas, at any clocks and with any minted ids. -/
def Reachable (g : Graph P) : Prop := Reach {} step (fun _ _ => True) g

structure Coherent (g : Graph P) : Prop where
  edges : g.Payloads EdgePayload.Stated
  nav : g.nav.Sound
  records : Normal P.isBlank g.importRecords
  fields : FieldsKeyed g.fields
  couplings : CouplingsKeyed g.couplings
  body : ∀ key node, g.node key = some node → node.content = none ∨ node.body = none

variable {g g' : Graph P}

theorem coherent_empty : Coherent ({} : Graph P) where
  edges := payloads_empty _
  nav := SharedNavigationMemory.sound_empty
  records := ⟨List.nodup_nil, nofun, nofun, .nil⟩
  fields _ _ h := nomatch (ExtTreeMap.getElem?_empty).symm.trans h
  couplings _ _ h := nomatch (ExtTreeMap.getElem?_empty).symm.trans h
  body key _ h := nomatch (Arena.get_empty key).symm.trans h

theorem body_putNode {node : Node} (hnode : node.content = none ∨ node.body = none)
    (h : ∀ key node, g.node key = some node → node.content = none ∨ node.body = none) {key : Nat}
    {found : Node} (hfound : (g.putNode node).node key = some found) :
    found.content = none ∨ found.body = none := by
  rw [node_putNode] at hfound
  split at hfound
  · obtain rfl := Option.some.inj hfound
    exact hnode
  · exact h key found hfound

theorem Coherent.write {mint : Str} (h : g.Coherent) (hwrite : Write mint g g') : g'.Coherent := by
  have hedges : g'.Payloads EdgePayload.Stated := h.edges.write EdgePayload.stated_empty
    (fun _ hw => hw) (fun _ _ hold hmove _ => hmove.stated hold) hwrite
  cases hwrite with
  | facets store => exact ⟨hedges, h.nav, h.records, h.fields, h.couplings, h.body⟩
  | records records hrecords =>
    exact ⟨hedges, h.nav, hrecords h.records, h.fields, h.couplings, h.body⟩
  | fields fields hfields => exact ⟨hedges, h.nav, h.records, hfields h.fields, h.couplings, h.body⟩
  | couplings couplings hcouplings =>
    exact ⟨hedges, h.nav, h.records, h.fields, hcouplings h.couplings, h.body⟩
  | nav hnav => exact ⟨hedges, h.nav.move hnav, h.records, h.fields, h.couplings, h.body⟩
  | @node key node node' hnode hkept =>
    exact ⟨hedges, h.nav, h.records, h.fields, h.couplings,
      fun _ _ => body_putNode (hkept.body (h.body key node hnode)) h.body⟩
  | add id url _ =>
    exact ⟨hedges, h.nav, h.records, h.fields, h.couplings,
      fun _ _ => body_putNode (.inl rfl) h.body⟩
  | @move key node url hnode =>
    have hmoved : (movedTo (P := P) url node).content = none ∨
        (movedTo (P := P) url node).body = none := h.body key node hnode
    exact ⟨hedges, h.nav, h.records, h.fields, h.couplings,
      fun _ _ => body_putNode hmoved h.body⟩
  | @remove key node _ =>
    refine ⟨hedges, h.nav, h.records, h.fields, h.couplings, fun k found hfound => ?_⟩
    change (g.inner.remove key).nodes.get k = some found at hfound
    rw [Chartulary.Graph.nodes_remove] at hfound
    split at hfound
    · cases hfound
    · exact h.body k found hfound
  | @link s t old new inner hmove hlink =>
    refine ⟨hedges, h.nav, h.records, h.fields, h.couplings, fun k found hfound => ?_⟩
    change inner.nodes.get k = some found at hfound
    rw [hlink.nodes] at hfound
    exact h.body k found hfound

theorem Coherent.apply (h : g.Coherent) {tick : Tick} {delta : GraphDelta P}
    (happly : g.apply tick delta = some g') : g'.Coherent := by
  cases apply_change happly with
  | writes hwrites =>
    exact keeps_of_chain (P := Coherent) (fun _ _ hwrite h => h.write hwrite) hwrites h
  | @overwrite id url _ _ =>
    obtain ⟨store, hadd⟩ := g.addNodeWithId_eq id url tick.nowMs
    rw [hadd]
    exact ⟨h.edges.of_edges (Chartulary.Graph.edges_insert _ _), h.nav, h.records, h.fields,
      h.couplings, fun _ _ => body_putNode (.inl rfl) h.body⟩
  | @predicate edge predicate _ =>
    unfold setEdgeSemanticPredicate
    cases hedge : g.inner.edge edge with
    | none => exact h
    | some e =>
      have hlinked := h.edges.payload _ _ _ (h.edges.simple.link_eq_some.mpr ⟨edge, hedge⟩)
      refine ⟨h.edges.relinks (.setWeight hedge _) ?_, h.nav, h.records, h.fields, h.couplings, ?_⟩
      · intro w hw
        obtain rfl := Option.some.inj hw
        exact EdgePayload.stated_setSemanticPredicate hlinked _ _
      · intro k found hfound
        change (g.inner.setWeight edge _).nodes.get k = some found at hfound
        rw [Chartulary.Graph.setWeight_nodes] at hfound
        exact h.body k found hfound

theorem Reachable.coherent (h : g.Reachable) : g.Coherent :=
  h.invariant coherent_empty fun _ _ _ hg _ hstep => hg.apply hstep

end Graph

end Mere.Kernel
