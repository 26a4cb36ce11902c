import Mere.Chartulary.Spine

/-!
# What a log-backed graph holds

The graph by identity, without its keys: nodes, edges under their ids, derivations and facets.
-/

namespace Mere.Chartulary

open Option

@[ext] structure View (Id N E Value : Type) where
  nodes : Id → Option N
  edges : EdgeId → Option (Id × Id × E)
  derivations : Id → List (DerivationRecord Id)
  facets : Id → FacetId → Option Value

namespace View

variable {Id N E Value : Type} [DecidableEq Id] [Identified N Id]

def empty : View Id N E Value := ⟨fun _ => none, fun _ => none, fun _ => [], fun _ _ => none⟩

variable (v : View Id N E Value)

def live (x : Id) : Bool := (v.nodes x).isSome

def clear (x : Id) (edge : Id × Id × E) : Bool := edge.1 ≠ x ∧ edge.2.1 ≠ x

def apply : GraphEdit Id N E Value → View Id N E Value
  | .insertNode node =>
    { v with nodes := fun y => if y = Identified.id node then some node else v.nodes y }
  | .removeNode x =>
    { nodes := fun y => if y = x then none else v.nodes y
      edges := fun e => (v.edges e).filter (clear x)
      derivations := fun y => if y = x then [] else v.derivations y
      facets := fun y f => if y = x then none else v.facets y f }
  | .connect id source target edge =>
    if v.live source && v.live target then
      { v with edges := fun e => if e = id then some (source, target, edge) else v.edges e }
    else v
  | .disconnect id => { v with edges := fun e => if e = id then none else v.edges e }
  | .derive x record =>
    { v with
      derivations := fun y => if y = x then v.derivations y ++ [record] else v.derivations y }
  | .setFacet x facet value =>
    if v.live x then
      { v with facets := fun y f => if y = x ∧ f = facet then some value else v.facets y f }
    else v
  | .removeFacet x facet =>
    if v.live x then
      { v with facets := fun y f => if y = x ∧ f = facet then none else v.facets y f }
    else v

def applyAll (edits : List (GraphEdit Id N E Value)) : View Id N E Value := edits.foldl apply v

section Parts

variable (id : EdgeId) (source target x : Id) (edge : E) (facet : FacetId) (value : Value)

theorem apply_connect : v.apply (.connect id source target edge) =
    { v with edges := fun e =>
        if e = id ∧ (v.live source && v.live target) = true then some (source, target, edge)
        else v.edges e } := by
  rw [apply]
  split
  all_goals
    rename_i hlive
    simp [hlive]

theorem apply_setFacet : v.apply (.setFacet x facet value) =
    { v with facets := fun y f =>
        if (y = x ∧ f = facet) ∧ v.live x = true then some value else v.facets y f } := by
  rw [apply]
  split
  all_goals
    rename_i hlive
    simp [hlive]

theorem apply_removeFacet : v.apply (.removeFacet x facet) =
    { v with facets := fun y f =>
        if (y = x ∧ f = facet) ∧ v.live x = true then none else v.facets y f } := by
  rw [apply]
  split
  all_goals
    rename_i hlive
    simp [hlive]

end Parts

/-- A connect brings an id that is not in use. -/
def Accepts : GraphEdit Id N E Value → Prop
  | .connect id _ _ _ => v.edges id = none
  | _ => True

end View

def connectId {Id N E Value : Type} : GraphEdit Id N E Value → Option EdgeId
  | .connect id _ _ _ => some id
  | _ => none

def connectIds {Id N E Value : Type} (edits : List (GraphEdit Id N E Value)) : List EdgeId :=
  edits.filterMap connectId

namespace GraphLog

variable {Id N E Value : Type} [DecidableEq Id] [Identified N Id] (g : GraphLog Id N E Value)

def view : View Id N E Value where
  nodes := g.graph.get
  edges := fun e => (g.byEdgeId.lookup e).bind g.graph.resolved
  derivations := g.derivationsOf
  facets := g.facets.get

/-- The two edge indexes are inverse to each other, onto the live edges. -/
structure Indexed : Prop where
  inverse : ∀ e k, g.byEdgeId.lookup e = some k ↔ g.byEdgeKey.lookup k = some e
  onto : ∀ k, (g.byEdgeKey.lookup k).isSome = (g.graph.edge k).isSome

variable {g}

theorem isSome_edge (k : Nat) : (g.graph.edge k).isSome = (g.graph.resolved k).isSome :=
  (g.graph.isSome_resolved k).symm

theorem Indexed.isSome_edges (h : g.Indexed) (e : EdgeId) :
    (g.view.edges e).isSome = (g.edgeKey e).isSome := by
  change ((g.byEdgeId.lookup e).bind g.graph.resolved).isSome = (g.byEdgeId.lookup e).isSome
  cases hk : g.byEdgeId.lookup e with
  | none => rfl
  | some k =>
    rw [bind_some, ← isSome_edge, ← h.onto, (h.inverse e k).mp hk]
    rfl

variable {e : EdgeId} {edit : GraphEdit Id N E Value} (index : Table EdgeId Nat × Table Nat EdgeId)

theorem Indexed.edgeKey_eq_none (h : g.Indexed) (he : g.view.edges e = none) :
    g.byEdgeId.lookup e = none := by
  have := h.isSome_edges e
  rw [he] at this
  simpa [edgeKey] using this.symm

theorem live_of_edges {s t : Id} {w : E} (h : g.view.edges e = some (s, t, w)) :
    g.view.live s = true ∧ g.view.live t = true := by
  obtain ⟨k, _, hk⟩ := bind_eq_some_iff.mp h
  exact g.graph.get_of_resolved hk

theorem live_eq (x : Id) : g.view.live x = (g.graph.keyOf x).isSome := (g.graph.isSome_keyOf x).symm

/-! ## Reaping -/

section

variable (h : ∀ e k, index.1.lookup e = some k ↔ index.2.lookup k = some e)
include h

theorem reap_spec (k₀ : Nat) (e : EdgeId) (k : Nat) :
    ((reap index k₀).1.lookup e = some k ↔ index.1.lookup e = some k ∧ k ≠ k₀) ∧
      ((reap index k₀).2.lookup k = some e ↔ index.1.lookup e = some k ∧ k ≠ k₀) := by
  unfold reap
  split
  · rename_i e₀ he₀
    rw [Table.lookup_erase_if, Table.lookup_erase_if]
    have hiff : index.1.lookup e = some k → (e = e₀ ↔ k = k₀) := by
      intro hek
      constructor
      · rintro rfl
        exact some.inj (hek.symm.trans ((h e k₀).mpr he₀))
      · rintro rfl
        exact some.inj (((h e k).mp hek).symm.trans he₀)
    constructor
    · split
      · rename_i he
        simp only [reduceCtorEq, false_iff, not_and, not_not]
        exact fun hek => (hiff hek).mp he
      · rename_i he
        exact ⟨fun hek => ⟨hek, fun hk => he ((hiff hek).mpr hk)⟩, And.left⟩
    · split
      · rename_i hk
        simp [hk]
      · rename_i hk
        rw [← h e k]
        exact ⟨fun hek => ⟨hek, hk⟩, And.left⟩
  · rename_i hnone
    rw [← h e k, and_self]
    refine ⟨fun hek => ⟨hek, ?_⟩, And.left⟩
    rintro rfl
    rw [(h e k).mp hek] at hnone
    cases hnone

theorem foldl_reap (keys : List Nat) (e : EdgeId) (k : Nat) :
    ((keys.foldl reap index).1.lookup e = some k ↔ index.1.lookup e = some k ∧ k ∉ keys) ∧
      ((keys.foldl reap index).2.lookup k = some e ↔ index.1.lookup e = some k ∧ k ∉ keys) := by
  induction keys generalizing index with
  | nil => simp [h]
  | cons k₀ keys ih =>
    have hstep : ∀ e k, (reap index k₀).1.lookup e = some k ↔
        (reap index k₀).2.lookup k = some e := by
      intro e k
      rw [(reap_spec index h k₀ e k).1, (reap_spec index h k₀ e k).2]
    have hnext := ih _ hstep
    rw [(reap_spec index h k₀ e k).1] at hnext
    simp only [List.foldl_cons, List.mem_cons, not_or, ← and_assoc]
    exact hnext

end

/-! ## One edit -/

variable (h : g.Indexed)
include h

/-- Keys that are not kept leave both indexes and the graph. -/
theorem Indexed.restrict {g' : GraphLog Id N E Value} {keep : Nat → Prop}
    (hindex : ∀ e k, (g'.byEdgeId.lookup e = some k ↔ g.byEdgeId.lookup e = some k ∧ keep k) ∧
      (g'.byEdgeKey.lookup k = some e ↔ g.byEdgeId.lookup e = some k ∧ keep k))
    (hlive : ∀ k, (g'.graph.resolved k).isSome = true ↔
      (g.graph.resolved k).isSome = true ∧ keep k) :
    g'.Indexed ∧ ∀ e, g'.view.edges e = (g.byEdgeId.lookup e).bind g'.graph.resolved := by
  refine ⟨⟨fun e k => (hindex e k).1.trans (hindex e k).2.symm, fun k => ?_⟩, fun e => ?_⟩
  · rw [isSome_edge, Bool.eq_iff_iff, hlive, ← isSome_edge, ← h.onto, isSome_iff_exists,
      isSome_iff_exists, ← exists_and_right]
    simp only [(hindex _ k).2, h.inverse]
  · change (g'.byEdgeId.lookup e).bind g'.graph.resolved = _
    ext p
    simp only [bind_eq_some_iff, (hindex e _).1]
    refine exists_congr fun k => ⟨fun hk => ⟨hk.1.1, hk.2⟩, fun hk => ⟨⟨hk.1, ?_⟩, hk.2⟩⟩
    exact ((hlive k).mp (isSome_of_eq_some hk.2)).2

theorem Indexed.dropNode (x : Id) :
    (g.dropNode x).Indexed ∧ (g.dropNode x).graph.get = (g.view.apply (.removeNode x)).nodes ∧
      (g.dropNode x).view.edges = (g.view.apply (.removeNode x)).edges := by
  unfold GraphLog.dropNode
  split
  · rename_i key hkey
    have hreap := foldl_reap (g.byEdgeId, g.byEdgeKey) h.inverse (g.graph.incidentEdges key)
    have hlive : ∀ k, ((g.graph.remove key).resolved k).isSome = true ↔
        (g.graph.resolved k).isSome = true ∧ k ∉ g.graph.incidentEdges key := by
      intro k
      -- A key stays in the index where its edge is not at `x`.
      rw [g.graph.resolved_remove hkey, g.graph.mem_incident_iff hkey]
      rcases g.graph.resolved k with _ | ⟨i, j, w⟩ <;> simp
    refine ⟨(h.restrict hreap hlive).1, funext (g.graph.get_remove hkey),
      funext fun e => ((h.restrict hreap hlive).2 e).trans ?_⟩
    change _ = Option.filter (View.clear x) ((g.byEdgeId.lookup e).bind g.graph.resolved)
    cases g.byEdgeId.lookup e with
    | none => rfl
    | some k => exact g.graph.resolved_remove hkey k
  · rename_i hkey
    -- Nothing is at a node that is not there.
    have hdead : g.view.live x = false := by rw [live_eq, hkey]; rfl
    refine ⟨h, ?_, ?_⟩
    · funext y
      change g.graph.get y = if y = x then none else g.graph.get y
      split
      · rename_i hy
        rw [hy]
        simpa [View.live, view] using hdead
      · rfl
    · funext e
      change g.view.edges e = (g.view.edges e).filter (View.clear x)
      cases he : g.view.edges e with
      | none => rfl
      | some p =>
        obtain ⟨hs, ht⟩ := live_of_edges (g := g) (e := e) he
        rw [filter_some, if_pos]
        refine decide_eq_true ⟨?_, ?_⟩
        · intro hc
          rw [hc, hdead] at hs
          cases hs
        · intro hc
          rw [hc, hdead] at ht
          cases ht

theorem Indexed.link {id : EdgeId} (source target : Id) (edge : E)
    (hfresh : g.view.edges id = none) : (g.link id source target edge).Indexed ∧
      (g.link id source target edge).graph.get = g.graph.get ∧
      (g.link id source target edge).view.edges =
        (g.view.apply (.connect id source target edge)).edges := by
  have hid := h.edgeKey_eq_none hfresh
  unfold GraphLog.link
  split
  · rename_i s t hs ht
    have hnew : g.byEdgeKey.lookup g.graph.edges.nextKey = none := by
      have := h.onto g.graph.edges.nextKey
      rw [isSome_edge, g.graph.resolved_nextKey] at this
      simpa using this
    have hends : (g.view.live source && g.view.live target) = true := by
      rw [live_eq, live_eq, hs, ht]
      rfl
    have hkey : ∀ k, g.byEdgeKey.lookup k ≠ some id := by simp [← h.inverse, hid]
    have hedge : ∀ e, g.byEdgeId.lookup e ≠ some g.graph.edges.nextKey := by simp [h.inverse, hnew]
    refine ⟨⟨fun e k => ?_, fun k => ?_⟩, ?_, ?_⟩
    · rw [Table.lookup_insert_if, Table.lookup_insert_if]
      by_cases he : e = id
      · by_cases hk : k = g.graph.edges.nextKey
        · simp [he, hk]
        · simp [he, hk, Ne.symm hk, hkey]
      · by_cases hk : k = g.graph.edges.nextKey
        · simp [he, hk, Ne.symm he, hedge]
        · simp [he, hk, h.inverse]
    · change ((g.byEdgeKey.insert _ id).lookup k).isSome = ((g.graph.connect s t edge).edges.get k).isSome
      rw [Table.lookup_insert_if, ← Graph.isSome_resolved, g.graph.resolved_connect hs ht]
      split
      · rfl
      · rw [h.onto, isSome_edge]
    · funext y
      exact g.graph.get_connect s t edge y
    · funext e
      rw [View.apply, if_pos hends]
      change ((g.byEdgeId.insert id _).lookup e).bind _ = if e = id then _ else _
      rw [Table.lookup_insert_if]
      split
      · rw [bind_some, g.graph.resolved_connect hs ht, if_pos rfl]
      · change _ = (g.byEdgeId.lookup e).bind g.graph.resolved
        cases hk : g.byEdgeId.lookup e with
        | none => rfl
        | some k =>
          have hne : k ≠ g.graph.edges.nextKey := fun heq => hedge e (heq ▸ hk)
          rw [bind_some, bind_some, g.graph.resolved_connect hs ht, if_neg hne]
  · rename_i hnone
    have hends : (g.view.live source && g.view.live target) = false := by
      rw [live_eq, live_eq, Bool.and_eq_false_iff]
      cases hs : g.graph.keyOf source with
      | none => exact .inl rfl
      | some s =>
        cases ht : g.graph.keyOf target with
        | none => exact .inr rfl
        | some t => exact absurd ht (hnone s t hs)
    refine ⟨h, rfl, ?_⟩
    rw [View.apply, hends]
    rfl

theorem Indexed.view_link {id : EdgeId} (source target : Id) (edge : E)
    (hfresh : g.view.edges id = none) :
    (g.link id source target edge).view = g.view.apply (.connect id source target edge) := by
  obtain ⟨_, hnodes, hedges⟩ := h.link source target edge hfresh
  have hkept : (g.link id source target edge).view.derivations = g.view.derivations ∧
      (g.link id source target edge).view.facets = g.view.facets := by
    unfold GraphLog.link
    split <;> exact ⟨rfl, rfl⟩
  refine View.ext ?_ hedges ?_ ?_
  · rw [View.apply_connect]
    exact hnodes
  · rw [View.apply_connect, hkept.1]
  · rw [View.apply_connect, hkept.2]

theorem Indexed.unlink (id : EdgeId) : (g.unlink id).Indexed ∧
    (g.unlink id).graph.get = g.graph.get ∧
      (g.unlink id).view.edges = (g.view.apply (.disconnect id)).edges := by
  unfold GraphLog.unlink
  split
  · rename_i key hkey
    have hreap : reap (g.byEdgeId, g.byEdgeKey) key =
        (g.byEdgeId.erase id, g.byEdgeKey.erase key) := by
      rw [reap, (h.inverse id key).mp hkey]
    have hindex := reap_spec (g.byEdgeId, g.byEdgeKey) h.inverse key
    rw [hreap] at hindex
    refine ⟨(h.restrict hindex ?_).1, rfl, funext fun e => ?_⟩
    · intro k
      simp only [g.graph.resolved_disconnect]
      by_cases hk : k = key <;> simp [hk]
    · change ((g.byEdgeId.erase id).lookup e).bind _ = if e = id then none else _
      have hleft := fun k => (hindex e k).1
      rw [Table.lookup_erase_if] at hleft ⊢
      split
      · rfl
      · rename_i he
        change _ = (g.byEdgeId.lookup e).bind g.graph.resolved
        cases hk : g.byEdgeId.lookup e with
        | none => rfl
        | some k =>
          have hne := ((hleft k).mp (by rw [if_neg he, hk])).2
          rw [bind_some, bind_some, g.graph.resolved_disconnect, if_neg hne]
  · rename_i hnone
    refine ⟨h, rfl, ?_⟩
    funext e
    change g.view.edges e = if e = id then none else g.view.edges e
    split
    · rename_i he
      rw [he]
      change (g.byEdgeId.lookup id).bind _ = none
      rw [hnone]
      rfl
    · rfl

theorem Indexed.congr {g' : GraphLog Id N E Value} (hgraph : g'.graph = g.graph)
    (hid : g'.byEdgeId = g.byEdgeId) (hkey : g'.byEdgeKey = g.byEdgeKey) : g'.Indexed :=
  ⟨by rw [hid, hkey]; exact h.inverse, by rw [hkey, hgraph]; exact h.onto⟩

omit h in
theorem applyEdit_writer (edit : GraphEdit Id N E Value) :
    (g.applyEdit edit).writer = g.writer := by
  cases edit with
  | insertNode node => rfl
  | derive x record => rfl
  | removeNode x => simp only [applyEdit, GraphLog.dropNode]; split <;> rfl
  | connect id source target edge =>
    have hlink : (g.link id source target edge).writer = g.writer := by
      unfold GraphLog.link
      split <;> rfl
    rw [applyEdit, passed]
    split
    · exact hlink
    · exact hlink
  | disconnect id => simp only [applyEdit, GraphLog.unlink]; split <;> rfl
  | setFacet x facet value | removeFacet x facet => simp only [applyEdit]; split <;> rfl

theorem Indexed.applyEdit (hfresh : g.view.Accepts edit) : (g.applyEdit edit).Indexed := by
  cases edit with
  | insertNode node =>
    refine ⟨h.inverse, fun k => (h.onto k).trans ?_⟩
    change (g.graph.edges.get k).isSome = ((g.graph.insert node).edges.get k).isSome
    rw [g.graph.edges_insert]
  | removeNode x => exact (h.dropNode x).1.congr rfl rfl rfl
  | connect id source target edge =>
    have hlink := (h.link source target edge hfresh).1
    rw [GraphLog.applyEdit, passed]
    split
    · exact hlink.congr rfl rfl rfl
    · exact hlink
  | disconnect id => exact (h.unlink id).1
  | derive x record => exact h.congr rfl rfl rfl
  | setFacet x facet value | removeFacet x facet =>
    rw [GraphLog.applyEdit]
    split
    · exact h.congr rfl rfl rfl
    · exact h

omit h in
theorem derivationsOf_insert (x y : Id) (records : List (DerivationRecord Id)) :
    ((g.derivations.insert x records).lookup y).getD [] =
      if y = x then records else g.derivationsOf y := by
  rw [Table.lookup_insert_if]
  split <;> rfl

omit h in
theorem derivationsOf_erase (x y : Id) :
    ((g.derivations.erase x).lookup y).getD [] = if y = x then [] else g.derivationsOf y := by
  rw [Table.lookup_erase_if]
  split <;> rfl

theorem view_applyEdit (hfresh : g.view.Accepts edit) : (g.applyEdit edit).view = g.view.apply edit := by
  cases edit with
  | insertNode node =>
    refine View.ext ?_ ?_ rfl rfl
    · funext y
      exact g.graph.get_insert node y
    · funext e
      change (g.byEdgeId.lookup e).bind _ = (g.byEdgeId.lookup e).bind _
      congr 1
      funext k
      exact g.graph.resolved_insert node k
  | removeNode x =>
    obtain ⟨_, hnodes, hedges⟩ := h.dropNode x
    have hkept : (g.dropNode x).derivations = g.derivations ∧ (g.dropNode x).facets = g.facets := by
      unfold GraphLog.dropNode
      split <;> exact ⟨rfl, rfl⟩
    refine View.ext hnodes hedges ?_ ?_
    · funext y
      change (((g.dropNode x).derivations.erase x).lookup y).getD [] = _
      rw [hkept.1]
      exact derivationsOf_erase x y
    · funext y f
      change ((g.dropNode x).facets.removeNode x).get y f = _
      rw [hkept.2]
      exact g.facets.get_removeNode x y f
  | connect id source target edge =>
    rw [← h.view_link source target edge hfresh, GraphLog.applyEdit, passed]
    split <;> rfl
  | disconnect id =>
    obtain ⟨_, hnodes, hedges⟩ := h.unlink id
    have hkept : (g.unlink id).view.derivations = g.view.derivations ∧
        (g.unlink id).view.facets = g.view.facets := by
      unfold GraphLog.unlink
      split <;> exact ⟨rfl, rfl⟩
    exact View.ext hnodes hedges hkept.1 hkept.2
  | derive x record =>
    refine View.ext rfl rfl ?_ rfl
    funext y
    refine (derivationsOf_insert x y _).trans ?_
    change _ = if y = x then g.derivationsOf y ++ [record] else g.derivationsOf y
    split
    · rename_i hy
      rw [hy]
    · rfl
  | setFacet x facet value =>
    rw [GraphLog.applyEdit, View.apply, live_eq]
    split
    · refine View.ext rfl rfl rfl ?_
      funext y f
      exact g.facets.get_set x y facet f value
    · rfl
  | removeFacet x facet =>
    rw [GraphLog.applyEdit, View.apply, live_eq]
    split
    · refine View.ext rfl rfl rfl ?_
      funext y f
      exact g.facets.get_remove x y facet f
    · rfl

end GraphLog

end Mere.Chartulary
