import Mere.Chartulary.Graph

/-!
# At most one edge from one node to another

A caller that looks for an edge before it adds one keeps the graph simple: the edges are then a
partial function of their ends.
-/

namespace Mere.Chartulary.Graph

open Option

variable {Id N E : Type} [DecidableEq Id] [Identified N Id] (g : Graph N E)

def findEdge (source target : Nat) : Option Nat :=
  (g.edges.toList.find? (fun p => p.2.source == source && p.2.target == target)).map Prod.fst

def setWeight (key : Nat) (weight : E) : Graph N E :=
  match h : g.edges.get key with
  | none => g
  | some e =>
    { g with
      edges := g.edges.set key ⟨e.source, e.target, weight⟩
      ends := by
        intro k e' he'
        rw [g.edges.get_set h] at he'
        split at he'
        · obtain rfl := some.inj he'
          exact g.ends key e h
        · exact g.ends k e' he' }

def link (source target : Nat) : Option E :=
  (g.findEdge source target).bind fun key => (g.edges.get key).map Edge.weight

structure Simple : Prop where
  unique : ∀ k k' e e', g.edges.get k = some e → g.edges.get k' = some e' → e.source = e'.source →
    e.target = e'.target → k = k'

variable {g}
variable {s t k : Nat} {g' : Graph N E} {key : Nat} {node : N} {e : Edge E} {old : E}

theorem findEdge_eq_none :
    g.findEdge s t = none ↔ ∀ k e, g.edges.get k = some e → ¬ (e.source = s ∧ e.target = t) := by
  unfold findEdge
  rw [map_eq_none_iff, List.find?_eq_none]
  constructor
  · intro h k e he
    simpa using h (k, e) ((g.edges.mem_toList k e).mpr he)
  · rintro h ⟨k, e⟩ hp
    simpa using h k e ((g.edges.mem_toList k e).mp hp)

theorem findEdge_get (h : g.findEdge s t = some k) :
    ∃ w, g.edges.get k = some ⟨s, t, w⟩ := by
  obtain ⟨⟨k', e⟩, hfind, rfl⟩ := map_eq_some_iff.mp h
  have hget := (g.edges.mem_toList k' e).mp (List.mem_of_find?_eq_some hfind)
  have hends := List.find?_some hfind
  simp only [Bool.and_eq_true, beq_iff_eq] at hends
  obtain ⟨s', t', w⟩ := e
  obtain ⟨rfl, rfl⟩ := hends
  exact ⟨w, hget⟩

theorem Simple.findEdge_eq_some (hg : g.Simple) :
    g.findEdge s t = some k ↔ ∃ w, g.edges.get k = some ⟨s, t, w⟩ := by
  constructor
  · exact findEdge_get
  · rintro ⟨w, hw⟩
    cases hfind : g.findEdge s t with
    | none => exact absurd ⟨rfl, rfl⟩ (findEdge_eq_none.mp hfind k _ hw)
    | some k' =>
      obtain ⟨w', hw'⟩ := findEdge_get hfind
      rw [hg.unique k' k _ _ hw' hw rfl rfl]

theorem Simple.link_eq_some (hg : g.Simple) {w : E} :
    g.link s t = some w ↔ ∃ k, g.edges.get k = some ⟨s, t, w⟩ := by
  unfold link
  rw [bind_eq_some_iff]
  constructor
  · rintro ⟨k, hk, hw⟩
    obtain ⟨w', hw'⟩ := findEdge_get hk
    rw [hw'] at hw
    obtain rfl := some.inj hw
    exact ⟨k, hw'⟩
  · rintro ⟨k, hk⟩
    exact ⟨k, hg.findEdge_eq_some.mpr ⟨w, hk⟩, by rw [hk]; rfl⟩

theorem link_eq_none : g.link s t = none ↔ g.findEdge s t = none := by
  unfold link
  cases hfind : g.findEdge s t with
  | none => simp
  | some k =>
    obtain ⟨w, hw⟩ := findEdge_get hfind
    simp [hw]

theorem link_of_findEdge (h : g.findEdge s t = some k) :
    ∃ w, g.link s t = some w ∧ g.edges.get k = some ⟨s, t, w⟩ := by
  obtain ⟨w, hw⟩ := findEdge_get h
  refine ⟨w, ?_, hw⟩
  unfold link
  rw [h, bind_some, hw]
  rfl

theorem link_ends (hg : g.Simple) {w : E} (h : g.link s t = some w) :
    (g.nodes.get s).isSome ∧ (g.nodes.get t).isSome := by
  obtain ⟨k, hk⟩ := hg.link_eq_some.mp h
  obtain ⟨⟨n, hn⟩, m, hm⟩ := g.ends k _ hk
  exact ⟨by rw [hn]; rfl, by rw [hm]; rfl⟩

theorem Simple.link_congr (hg : g.Simple) (hg' : g'.Simple)
    (h : ∀ w, (∃ k, g'.edges.get k = some ⟨s, t, w⟩) ↔ ∃ k, g.edges.get k = some ⟨s, t, w⟩) :
    g'.link s t = g.link s t := by
  apply Option.ext
  intro w
  rw [hg'.link_eq_some, hg.link_eq_some]
  exact h w

/-! ## Nodes by key -/

def keyFor (g : Graph N E) (i : Id) : Nat := (g.byId.lookup i).getD g.nodes.nextKey

theorem keyFor_of_some {i : Id} (h : g.byId.lookup i = some key) :
    g.keyFor i = key := by
  unfold keyFor
  rw [h]
  rfl

theorem keyFor_of_none {i : Id} (h : g.byId.lookup i = none) : g.keyFor i = g.nodes.nextKey := by
  unfold keyFor
  rw [h]
  rfl

theorem nodes_insert (node : N) (k : Nat) : (g.insert node).nodes.get k =
    if k = g.keyFor (Identified.id node) then some node else g.nodes.get k := by
  unfold insert
  split
  · rename_i key h
    obtain ⟨old, hold, _⟩ := (g.indexed _ key).mp h
    rw [keyFor_of_some h]
    exact g.nodes.get_set hold node k
  · rename_i h
    rw [keyFor_of_none h]
    exact g.nodes.get_add node k

theorem byId_insert (node : N) (i : Id) : (g.insert node).byId.lookup i =
    if i = Identified.id node then some (g.keyFor (Identified.id node)) else g.byId.lookup i := by
  unfold insert
  split
  · rename_i key h
    rw [keyFor_of_some h]
    split
    · rename_i hi
      rw [hi, h]
    · rfl
  · rename_i h
    rw [keyFor_of_none h]
    exact Table.lookup_insert_if _ _ _ _

theorem ext_of_parts {g : Graph N E} (hnodes : g.nodes = g'.nodes) (hedges : g.edges = g'.edges)
    (hbyId : g.byId = g'.byId) : g = g' := by
  obtain ⟨nodes, edges, byId, _, _⟩ := g
  obtain ⟨nodes', edges', byId', _, _⟩ := g'
  obtain rfl : nodes = nodes' := hnodes
  obtain rfl : edges = edges' := hedges
  obtain rfl : byId = byId' := hbyId
  rfl

theorem insert_of_some (h : g.byId.lookup (Identified.id node) = some key) :
    (g.insert node).nodes = g.nodes.set key node ∧ (g.insert node).byId = g.byId := by
  unfold insert
  split
  · rename_i key' h'
    obtain rfl := some.inj (h.symm.trans h')
    exact ⟨rfl, rfl⟩
  · rename_i h'
    rw [h] at h'
    cases h'

theorem insert_of_none (h : g.byId.lookup (Identified.id node) = none) :
    (g.insert node).nodes = g.nodes.add node ∧
      (g.insert node).byId = g.byId.insert (Identified.id node) g.nodes.nextKey := by
  unfold insert
  split
  · rename_i key' h'
    rw [h] at h'
    cases h'
  · exact ⟨rfl, rfl⟩

theorem insert_insert {node' : N} (h : Identified.id node' = Identified.id node) :
    (g.insert node).insert node' = g.insert node' := by
  have hkey : (g.insert node).byId.lookup (Identified.id node') =
      some (g.keyFor (Identified.id node)) := by
    rw [byId_insert, if_pos h]
  obtain ⟨hnodes, hbyId⟩ := insert_of_some hkey
  refine ext_of_parts ?_ (by simp only [edges_insert]) ?_
  · rw [hnodes]
    cases hold : g.byId.lookup (Identified.id node) with
    | some key =>
      rw [(insert_of_some hold).1, (insert_of_some (h ▸ hold)).1, keyFor_of_some hold,
        Arena.set_set]
    | none =>
      rw [(insert_of_none hold).1, (insert_of_none (h ▸ hold)).1, keyFor_of_none hold,
        Arena.set_add]
  · rw [hbyId]
    cases hold : g.byId.lookup (Identified.id node) with
    | some key => rw [(insert_of_some hold).2, (insert_of_some (h ▸ hold)).2]
    | none => rw [(insert_of_none hold).2, (insert_of_none (h ▸ hold)).2, h]

theorem keyFor_of_get {n : N} (h : g.nodes.get k = some n) :
    g.keyFor (Identified.id n) = k :=
  keyFor_of_some ((g.indexed _ k).mpr ⟨n, h, rfl⟩)

theorem nodes_remove (key k : Nat) :
    (g.remove key).nodes.get k = if k = key then none else g.nodes.get k := by
  unfold remove
  split
  · rename_i h
    split
    · rename_i hk
      rw [hk, h]
    · rfl
  · exact g.nodes.get_remove key k

/-! ## After each operation -/

theorem Simple.empty : ({} : Graph N E).Simple := ⟨fun k _ e _ h => by simp at h⟩

theorem Simple.of_edges (hg : g.Simple) (h : g'.edges = g.edges) : g'.Simple :=
  ⟨by rw [h]; exact hg.unique⟩

theorem link_of_edges (h : g'.edges = g.edges) (s t : Nat) :
    g'.link s t = g.link s t := by
  unfold link findEdge
  rw [h]

theorem connect_edges (hs : (g.nodes.get s).isSome) (ht : (g.nodes.get t).isSome) (w : E) :
    (g.connect s t w).edges = g.edges.add ⟨s, t, w⟩ := by
  unfold connect
  rw [dif_pos ⟨hs, ht⟩]

theorem connect_nodes (s t : Nat) (w : E) : (g.connect s t w).nodes = g.nodes := by
  unfold connect
  split <;> rfl

theorem connect_byId (s t : Nat) (w : E) : (g.connect s t w).byId = g.byId := by
  unfold connect
  split <;> rfl

/-- The one edge from `s` to `t`, if any, is under `k` in both graphs; the rest is the same. -/
structure Reslots (g g' : Graph N E) (k s t : Nat) (new : Option E) : Prop where
  get : ∀ k', g'.edges.get k' = if k' = k then new.map (⟨s, t, ·⟩) else g.edges.get k'
  alone : ∀ k' e, g.edges.get k' = some e → (k' = k ↔ e.source = s ∧ e.target = t)

namespace Reslots

variable {new : Option E} (h : Reslots g g' k s t new) (hg : g.Simple)

include h hg

theorem simple : g'.Simple := by
  constructor
  intro k₁ k₂ e₁ e₂ he₁ he₂ hsrc htgt
  rw [h.get] at he₁ he₂
  split at he₁ <;> split at he₂
  · rename_i hk₁ hk₂
    rw [hk₁, hk₂]
  · rename_i hk
    obtain ⟨w, -, rfl⟩ := map_eq_some_iff.mp he₁
    exact absurd ((h.alone k₂ e₂ he₂).mpr ⟨hsrc.symm, htgt.symm⟩) hk
  · rename_i hk _
    obtain ⟨w, -, rfl⟩ := map_eq_some_iff.mp he₂
    exact absurd ((h.alone k₁ e₁ he₁).mpr ⟨hsrc, htgt⟩) hk
  · exact hg.unique k₁ k₂ e₁ e₂ he₁ he₂ hsrc htgt

theorem link (s' t' : Nat) : g'.link s' t' = if s' = s ∧ t' = t then new else g.link s' t' := by
  have hg' := h.simple hg
  split
  · rename_i hst
    obtain ⟨rfl, rfl⟩ := hst
    cases hnew : new with
    | none =>
      rw [link_eq_none, findEdge_eq_none]
      intro k' e he hends
      rw [h.get, hnew] at he
      split at he
      · cases he
      · rename_i hne
        exact hne ((h.alone k' e he).mpr hends)
    | some w => exact hg'.link_eq_some.mpr ⟨k, by rw [h.get, if_pos rfl, hnew]; rfl⟩
  · rename_i hst
    refine hg.link_congr hg' fun w' => ⟨?_, ?_⟩
    · rintro ⟨k', hk'⟩
      rw [h.get] at hk'
      split at hk'
      · obtain ⟨w, -, heq⟩ := map_eq_some_iff.mp hk'
        cases heq
        exact absurd ⟨rfl, rfl⟩ hst
      · exact ⟨k', hk'⟩
    · rintro ⟨k', hk'⟩
      refine ⟨k', ?_⟩
      rw [h.get, if_neg fun hk => hst ((h.alone k' _ hk').mp hk)]
      exact hk'

end Reslots

theorem get_connect_edge (hs : (g.nodes.get s).isSome) (ht : (g.nodes.get t).isSome) (w : E)
    (k : Nat) : (g.connect s t w).edges.get k =
      if k = g.edges.nextKey then some ⟨s, t, w⟩ else g.edges.get k := by
  rw [connect_edges hs ht, Arena.get_add]

theorem reslots_connect (hs : (g.nodes.get s).isSome) (ht : (g.nodes.get t).isSome)
    (hnone : g.findEdge s t = none) (w : E) :
    Reslots g (g.connect s t w) g.edges.nextKey s t (some w) := by
  refine ⟨get_connect_edge hs ht w, fun k e he => ⟨?_, fun hends => ?_⟩⟩
  · rintro rfl
    rw [g.edges.get_nextKey] at he
    cases he
  · exact absurd hends (findEdge_eq_none.mp hnone k e he)

theorem setWeight_nodes (k : Nat) (w : E) : (g.setWeight k w).nodes = g.nodes := by
  unfold setWeight
  split <;> rfl

theorem setWeight_byId (k : Nat) (w : E) : (g.setWeight k w).byId = g.byId := by
  unfold setWeight
  split <;> rfl

theorem get_setWeight (h : g.edges.get k = some e) (w : E) (k' : Nat) :
    (g.setWeight k w).edges.get k' =
      if k' = k then some ⟨e.source, e.target, w⟩ else g.edges.get k' := by
  unfold setWeight
  split
  · rename_i hnone
    rw [h] at hnone
    cases hnone
  · rename_i e' he'
    obtain rfl := some.inj (h.symm.trans he')
    exact g.edges.get_set h _ k'

theorem Simple.reslots (hg : g.Simple) (h : g.edges.get k = some ⟨s, t, old⟩) {new : Option E}
    (hget : ∀ k', g'.edges.get k' = if k' = k then new.map (⟨s, t, ·⟩) else g.edges.get k') :
    Reslots g g' k s t new := by
  refine ⟨hget, fun k' e he => ⟨?_, fun hends => hg.unique k' k e _ he h hends.1 hends.2⟩⟩
  rintro rfl
  obtain rfl := some.inj (he.symm.trans h)
  exact ⟨rfl, rfl⟩

theorem Simple.reslots_setWeight (hg : g.Simple) (h : g.edges.get k = some ⟨s, t, old⟩) (w : E) :
    Reslots g (g.setWeight k w) k s t (some w) :=
  hg.reslots h (get_setWeight h w)

theorem reslots_connect_setWeight (hs : (g.nodes.get s).isSome) (ht : (g.nodes.get t).isSome)
    (hnone : g.findEdge s t = none) {w : E} (w' : E) :
    Reslots g ((g.connect s t w).setWeight g.edges.nextKey w') g.edges.nextKey s t (some w') := by
  refine ⟨fun k => ?_, (reslots_connect hs ht hnone w).alone⟩
  have hget : (g.connect s t w).edges.get g.edges.nextKey = some ⟨s, t, w⟩ := by
    rw [get_connect_edge hs ht, if_pos rfl]
  rw [get_setWeight hget, get_connect_edge hs ht]
  split <;> rfl

theorem Simple.fewer (hg : g.Simple)
    (h : ∀ k e, g'.edges.get k = some e → g.edges.get k = some e) : g'.Simple :=
  ⟨fun k k' e e' he he' => hg.unique k k' e e' (h k e he) (h k' e' he')⟩

theorem get_disconnect_edge (key k : Nat) :
    (g.disconnect key).edges.get k = if k = key then none else g.edges.get k :=
  g.edges.get_remove key k

theorem Simple.reslots_disconnect (hg : g.Simple) (h : g.edges.get k = some ⟨s, t, old⟩) :
    Reslots g (g.disconnect k) k s t none :=
  hg.reslots h (get_disconnect_edge k)

theorem get_remove_edge (hlive : (g.nodes.get key).isSome) (k : Nat) :
    (g.remove key).edges.get k = if k ∈ g.incidentEdges key then none else g.edges.get k := by
  obtain ⟨n, hn⟩ := isSome_iff_exists.mp hlive
  obtain ⟨_, hedges, _⟩ := g.remove_eq ((g.indexed (Identified.id n) key).mpr ⟨n, hn, rfl⟩)
  rw [hedges, g.edges.get_removeAll]

theorem remove_of_none (h : g.nodes.get key = none) : g.remove key = g := by
  unfold remove
  split
  · rfl
  · rename_i n hn
    rw [h] at hn
    cases hn

theorem Simple.remove (hg : g.Simple) (key : Nat) : (g.remove key).Simple := by
  cases hlive : g.nodes.get key with
  | none =>
    rw [remove_of_none hlive]
    exact hg
  | some n =>
    refine hg.fewer fun k e he => ?_
    rw [get_remove_edge (by rw [hlive]; rfl)] at he
    split at he
    · cases he
    · exact he

theorem Simple.link_remove (hg : g.Simple) (hlive : (g.nodes.get key).isSome) (s t : Nat) :
    (g.remove key).link s t = if s = key ∨ t = key then none else g.link s t := by
  have hg' := hg.remove key
  split
  · rename_i hst
    rw [link_eq_none, findEdge_eq_none]
    rintro k e he ⟨rfl, rfl⟩
    rw [get_remove_edge hlive] at he
    split at he
    · cases he
    · rename_i hmem
      exact hmem ((g.mem_incidentEdges key k).mpr ⟨e, he, hst⟩)
  · rename_i hst
    refine hg.link_congr hg' fun w => ⟨?_, ?_⟩
    · rintro ⟨k, hk⟩
      rw [get_remove_edge hlive] at hk
      split at hk
      · cases hk
      · exact ⟨k, hk⟩
    · rintro ⟨k, hk⟩
      refine ⟨k, ?_⟩
      rw [get_remove_edge hlive, if_neg]
      · exact hk
      · rw [mem_incidentEdges]
        rintro ⟨e, he, hend⟩
        rw [hk] at he
        obtain rfl := some.inj he
        exact hst hend

end Mere.Chartulary.Graph
