import Mere.Base.Arena
import Mere.Base.Word

/-!
# The graph and its identity index

From `crates/eidetic/chartulary/src/graph.rs` and `caps.rs`. Petgraph's stable graph is two arenas.
-/

namespace Mere.Chartulary

open Option

class Identified (N : Type) (Id : outParam Type) where
  id : N → Id

structure Container (Id : Type) where
  id : Id
  title : Str
  deriving DecidableEq

instance containerIdentified {Id : Type} : Identified (Container Id) Id := ⟨Container.id⟩

structure Edge (E : Type) where
  source : Nat
  target : Nat
  weight : E
  deriving DecidableEq

structure Graph (N E : Type) {Id : Type} [Identified N Id] [DecidableEq Id] where
  nodes : Arena N := .empty
  edges : Arena (Edge E) := .empty
  byId : Table Id Nat := ∅
  /-- The identity index holds exactly the live nodes. -/
  indexed : ∀ i k, byId.lookup i = some k ↔ ∃ n, nodes.get k = some n ∧ Identified.id n = i := by
    simp
  /-- Both ends of a live edge are live. -/
  ends : ∀ k e, edges.get k = some e →
    (∃ n, nodes.get e.source = some n) ∧ ∃ n, nodes.get e.target = some n := by simp

namespace Graph

variable {Id N E : Type} [DecidableEq Id] [Identified N Id] (g : Graph N E)

def new : Graph N E := {}

def keyOf (i : Id) : Option Nat := g.byId.lookup i

def node (key : Nat) : Option N := g.nodes.get key

def edge (key : Nat) : Option (Edge E) := g.edges.get key

def get (i : Id) : Option N := (g.keyOf i).bind g.node

variable {k : Nat} {x : Id} {key : Nat}

theorem key_unique {k' : Nat} {n n' : N} (h : g.nodes.get k = some n)
    (h' : g.nodes.get k' = some n') (hid : Identified.id n = Identified.id n') : k = k' := by
  have h₁ := (g.indexed (Identified.id n) k).mpr ⟨n, h, rfl⟩
  have h₂ := (g.indexed (Identified.id n) k').mpr ⟨n', h', hid.symm⟩
  exact some.inj (h₁.symm.trans h₂)

def insert (node : N) : Graph N E :=
  match h : g.byId.lookup (Identified.id node) with
  | some key =>
    { g with
      nodes := g.nodes.set key node
      indexed := by
        obtain ⟨old, hold, hid⟩ := (g.indexed _ key).mp h
        intro i k
        rw [g.indexed, g.nodes.get_set hold]
        by_cases hk : k = key
        · subst hk
          simp only [if_true, some.injEq, exists_eq_left', hold, hid]
        · rw [if_neg hk]
      ends := by
        obtain ⟨old, hold, _⟩ := (g.indexed _ key).mp h
        have hlive : ∀ k, (∃ n, g.nodes.get k = some n) → ∃ n, (g.nodes.set key node).get k = some n := by
          rintro k ⟨n, hn⟩
          rw [g.nodes.get_set hold]
          split
          · exact ⟨node, rfl⟩
          · exact ⟨n, hn⟩
        intro k e he
        exact ⟨hlive _ (g.ends k e he).1, hlive _ (g.ends k e he).2⟩ }
  | none =>
    { g with
      nodes := g.nodes.add node
      byId := g.byId.insert (Identified.id node) g.nodes.nextKey
      indexed := by
        intro i k
        rw [Table.lookup_insert_if, g.nodes.get_add]
        by_cases hi : i = Identified.id node
        · subst hi
          rw [if_pos rfl]
          constructor
          · rintro ⟨⟩
            exact ⟨node, by rw [if_pos rfl], rfl⟩
          · rintro ⟨n, hn, hid⟩
            split at hn
            · rename_i hk
              rw [hk]
            · have := (g.indexed _ k).mpr ⟨n, hn, hid⟩
              rw [h] at this
              cases this
        · rw [if_neg hi, g.indexed]
          by_cases hk : k = g.nodes.nextKey
          · subst hk
            simp only [g.nodes.get_nextKey, if_true, some.injEq, exists_eq_left',
              Ne.symm hi, iff_false]
            rintro ⟨n, hn, _⟩
            cases hn
          · rw [if_neg hk]
      ends := by
        have hlive : ∀ k, (∃ n, g.nodes.get k = some n) → ∃ n, (g.nodes.add node).get k = some n := by
          rintro k ⟨n, hn⟩
          rw [g.nodes.get_add]
          split
          · exact ⟨node, rfl⟩
          · exact ⟨n, hn⟩
        intro k e he
        exact ⟨hlive _ (g.ends k e he).1, hlive _ (g.ends k e he).2⟩ }

def incidentEdges (key : Nat) : List Nat :=
  (g.edges.toList.filter (fun p => p.2.source == key || p.2.target == key)).map Prod.fst

theorem mem_incidentEdges (key k : Nat) :
    k ∈ g.incidentEdges key ↔ ∃ e, g.edges.get k = some e ∧ (e.source = key ∨ e.target = key) := by
  simp only [incidentEdges, List.mem_map, List.mem_filter, Bool.or_eq_true, beq_iff_eq, Prod.exists,
    exists_and_right, exists_eq_right, Arena.mem_toList]

def remove (key : Nat) : Graph N E :=
  match h : g.nodes.get key with
  | none => g
  | some node =>
    { nodes := g.nodes.remove key
      edges := g.edges.removeAll (g.incidentEdges key)
      byId := g.byId.erase (Identified.id node)
      indexed := by
        intro i k
        rw [Table.lookup_erase_if, g.nodes.get_remove]
        by_cases hk : k = key
        · subst hk
          simp only [if_true, reduceCtorEq, false_and, exists_false, iff_false]
          split
          · simp
          · rename_i hi
            rw [g.indexed]
            rintro ⟨n, hn, hid⟩
            rw [h] at hn
            obtain rfl := some.inj hn
            exact hi hid.symm
        · rw [if_neg hk]
          split
          · rename_i hi
            simp only [reduceCtorEq, false_iff]
            rintro ⟨n, hn, hid⟩
            exact hk (g.key_unique hn h (hid.trans hi))
          · exact g.indexed i k
      ends := by
        intro k e he
        rw [g.edges.get_removeAll] at he
        split at he
        · cases he
        · rename_i hk
          rw [mem_incidentEdges] at hk
          have hs : e.source ≠ key := fun hs => hk ⟨e, he, .inl hs⟩
          have ht : e.target ≠ key := fun ht => hk ⟨e, he, .inr ht⟩
          rw [g.nodes.get_remove, g.nodes.get_remove, if_neg hs, if_neg ht]
          exact g.ends k e he }

/-- The new edge is at `edges.nextKey`; petgraph panics where an end is not live. -/
def connect (source target : Nat) (weight : E) : Graph N E :=
  if h : (g.nodes.get source).isSome ∧ (g.nodes.get target).isSome then
    { g with
      edges := g.edges.add ⟨source, target, weight⟩
      ends := by
        intro k e he
        rw [g.edges.get_add] at he
        split at he
        · obtain rfl := some.inj he
          exact ⟨isSome_iff_exists.mp h.1, isSome_iff_exists.mp h.2⟩
        · exact g.ends k e he }
  else g

def disconnect (key : Nat) : Graph N E :=
  { g with
    edges := g.edges.remove key
    ends := by
      intro k e he
      rw [g.edges.get_remove] at he
      split at he
      · cases he
      · exact g.ends k e he }

/-! ## What a graph says by identity -/

def resolved (key : Nat) : Option (Id × Id × E) :=
  (g.edges.get key).bind fun e => (g.nodes.get e.source).bind fun s =>
    (g.nodes.get e.target).map fun t => (Identified.id s, Identified.id t, e.weight)

theorem get_eq_some (i : Id) (n : N) :
    g.get i = some n ↔ Identified.id n = i ∧ ∃ k, g.nodes.get k = some n := by
  unfold get keyOf node
  rw [bind_eq_some_iff]
  constructor
  · rintro ⟨k, hk, hn⟩
    obtain ⟨n', hn', hid⟩ := (g.indexed i k).mp hk
    obtain rfl := some.inj (hn'.symm.trans hn)
    exact ⟨hid, k, hn⟩
  · rintro ⟨hid, k, hn⟩
    exact ⟨k, (g.indexed i k).mpr ⟨n, hn, hid⟩, hn⟩

theorem isSome_keyOf (i : Id) : (g.keyOf i).isSome = (g.get i).isSome := by
  unfold get
  cases hk : g.keyOf i with
  | none => rfl
  | some k =>
    obtain ⟨n, hn, _⟩ := (g.indexed i k).mp hk
    change true = (g.nodes.get k).isSome
    rw [hn]
    rfl

theorem resolved_eq_some (k : Nat) (i j : Id) (w : E) :
    g.resolved k = some (i, j, w) ↔ ∃ e s t, g.edges.get k = some e ∧
      g.nodes.get e.source = some s ∧ g.nodes.get e.target = some t ∧
      Identified.id s = i ∧ Identified.id t = j ∧ e.weight = w := by
  unfold resolved
  simp only [bind_eq_some_iff, map_eq_some_iff, Prod.mk.injEq]
  constructor
  · rintro ⟨e, he, s, hs, t, ht, hi, hj, hw⟩
    exact ⟨e, s, t, he, hs, ht, hi, hj, hw⟩
  · rintro ⟨e, s, t, he, hs, ht, hi, hj, hw⟩
    exact ⟨e, he, s, hs, t, ht, hi, hj, hw⟩

theorem isSome_resolved (k : Nat) : (g.resolved k).isSome = (g.edges.get k).isSome := by
  cases hk : g.edges.get k with
  | none => simp [resolved, hk]
  | some e =>
    obtain ⟨⟨s, hs⟩, t, ht⟩ := g.ends k e hk
    simp [resolved, hk, hs, ht]

theorem get_of_resolved {i j : Id} {w : E} (h : g.resolved k = some (i, j, w)) :
    (g.get i).isSome ∧ (g.get j).isSome := by
  obtain ⟨e, s, t, _, hs, ht, hi, hj, _⟩ := (g.resolved_eq_some k i j w).mp h
  rw [(g.get_eq_some i s).mpr ⟨hi, _, hs⟩, (g.get_eq_some j t).mpr ⟨hj, _, ht⟩]
  exact ⟨rfl, rfl⟩

theorem resolved_congr {g g' : Graph N E} (hedge : g'.edges.get k = g.edges.get k)
    (hid : ∀ key n, g.nodes.get key = some n →
      ∃ n', g'.nodes.get key = some n' ∧ Identified.id n' = Identified.id n) :
    g'.resolved k = g.resolved k := by
  cases hk : g.edges.get k with
  | none => simp [resolved, hedge, hk]
  | some e =>
    obtain ⟨⟨s, hs⟩, t, ht⟩ := g.ends k e hk
    obtain ⟨s', hs', his⟩ := hid _ s hs
    obtain ⟨t', ht', hit⟩ := hid _ t ht
    simp [resolved, hedge, hk, hs, ht, hs', ht', his, hit]

theorem mem_incident_iff (h : g.keyOf x = some key) (k : Nat) :
    k ∈ g.incidentEdges key ↔ ∃ i j w, g.resolved k = some (i, j, w) ∧ (i = x ∨ j = x) := by
  obtain ⟨n, hn, hx⟩ := (g.indexed x key).mp h
  rw [mem_incidentEdges]
  constructor
  · rintro ⟨e, he, hend⟩
    obtain ⟨⟨s, hs⟩, t, ht⟩ := g.ends k e he
    refine ⟨_, _, _, (g.resolved_eq_some k _ _ _).mpr ⟨e, s, t, he, hs, ht, rfl, rfl, rfl⟩, ?_⟩
    rcases hend with hend | hend
    · rw [hend, hn] at hs
      exact .inl ((some.inj hs) ▸ hx)
    · rw [hend, hn] at ht
      exact .inr ((some.inj ht) ▸ hx)
  · rintro ⟨i, j, w, hk, hend⟩
    obtain ⟨e, s, t, he, hs, ht, hi, hj, _⟩ := (g.resolved_eq_some k i j w).mp hk
    refine ⟨e, he, ?_⟩
    rcases hend with rfl | rfl
    · exact .inl (g.key_unique hs hn (hi.trans hx.symm))
    · exact .inr (g.key_unique ht hn (hj.trans hx.symm))

/-! ## Insertion -/

theorem get_insert (node : N) (i : Id) :
    (g.insert node).get i = if i = Identified.id node then some node else g.get i := by
  unfold insert
  split
  · rename_i key h
    obtain ⟨old, hold, hid⟩ := (g.indexed _ key).mp h
    change (g.byId.lookup i).bind (g.nodes.set key node).get = _
    split
    · rename_i hi
      rw [hi, h, bind_some, g.nodes.get_set hold, if_pos rfl]
    · rename_i hi
      unfold get keyOf
      cases hk : g.byId.lookup i with
      | none => rfl
      | some k =>
        obtain ⟨n, hn, hin⟩ := (g.indexed i k).mp hk
        have hne : k ≠ key := by
          rintro rfl
          obtain rfl := some.inj (hn.symm.trans hold)
          exact hi (hin.symm.trans hid)
        rw [bind_some, g.nodes.get_set hold, if_neg hne]
        rfl
  · change ((g.byId.insert (Identified.id node) g.nodes.nextKey).lookup i).bind
      (g.nodes.add node).get = _
    rw [Table.lookup_insert_if]
    split
    · rw [bind_some, g.nodes.get_add, if_pos rfl]
    · unfold get keyOf
      cases hk : g.byId.lookup i with
      | none => rfl
      | some k =>
        obtain ⟨n, hn, _⟩ := (g.indexed i k).mp hk
        have hne : k ≠ g.nodes.nextKey := by
          rintro rfl
          rw [g.nodes.get_nextKey] at hn
          cases hn
        rw [bind_some, g.nodes.get_add, if_neg hne]
        rfl

theorem edges_insert (node : N) : (g.insert node).edges = g.edges := by
  unfold insert
  split <;> rfl

theorem resolved_insert (node : N) (k : Nat) : (g.insert node).resolved k = g.resolved k := by
  apply resolved_congr
  · rw [edges_insert]
  · intro key n hn
    unfold insert
    split
    · rename_i known h
      obtain ⟨old, hold, hid⟩ := (g.indexed _ known).mp h
      rw [g.nodes.get_set hold]
      split
      · rename_i hkey
        subst hkey
        obtain rfl := some.inj (hn.symm.trans hold)
        exact ⟨node, rfl, hid.symm⟩
      · exact ⟨n, hn, rfl⟩
    · rw [g.nodes.get_add]
      split
      · rename_i hkey
        rw [hkey, g.nodes.get_nextKey] at hn
        cases hn
      · exact ⟨n, hn, rfl⟩

/-! ## Removal -/

theorem remove_eq (h : g.keyOf x = some key) :
    (g.remove key).nodes = g.nodes.remove key ∧
      (g.remove key).edges = g.edges.removeAll (g.incidentEdges key) ∧
      (g.remove key).byId = g.byId.erase x := by
  obtain ⟨n, hn, hx⟩ := (g.indexed x key).mp h
  unfold remove
  split
  · rename_i hnone
    rw [hn] at hnone
    cases hnone
  · rename_i node hnode
    obtain rfl := some.inj (hn.symm.trans hnode)
    exact ⟨rfl, rfl, congrArg g.byId.erase hx⟩

theorem get_remove (h : g.keyOf x = some key) (i : Id) :
    (g.remove key).get i = if i = x then none else g.get i := by
  obtain ⟨hnodes, _, hids⟩ := g.remove_eq h
  unfold get keyOf node
  rw [hids, hnodes, Table.lookup_erase_if]
  split
  · rfl
  · rename_i hi
    cases hk : g.byId.lookup i with
    | none => rfl
    | some k =>
      have hne : k ≠ key := by
        rintro rfl
        obtain ⟨n, hn, hin⟩ := (g.indexed i k).mp hk
        obtain ⟨n', hn', hx⟩ := (g.indexed x k).mp h
        obtain rfl := some.inj (hn.symm.trans hn')
        exact hi (hin.symm.trans hx)
      rw [bind_some, bind_some, g.nodes.get_remove, if_neg hne]

theorem resolved_remove (h : g.keyOf x = some key) (k : Nat) :
    (g.remove key).resolved k = (g.resolved k).filter (fun e => e.1 ≠ x ∧ e.2.1 ≠ x) := by
  obtain ⟨hnodes, hedges, _⟩ := g.remove_eq h
  obtain ⟨n, hn, hx⟩ := (g.indexed x key).mp h
  ext ⟨i, j, w⟩
  rw [filter_eq_some_iff, resolved_eq_some, resolved_eq_some, decide_eq_true_eq]
  simp only [hedges, hnodes, g.edges.get_removeAll, g.nodes.get_remove]
  constructor
  · rintro ⟨e, s, t, he, hs, ht, rfl, rfl, rfl⟩
    split_ifs at he hs ht with _ hsource htarget
    refine ⟨⟨e, s, t, he, hs, ht, rfl, rfl, rfl⟩, ?_, ?_⟩
    · exact fun hc => hsource (g.key_unique hs hn (hc.trans hx.symm))
    · exact fun hc => htarget (g.key_unique ht hn (hc.trans hx.symm))
  · rintro ⟨⟨e, s, t, he, hs, ht, rfl, rfl, rfl⟩, hi, hj⟩
    have hsource : e.source ≠ key := by
      rintro rfl
      exact hi (some.inj (hs.symm.trans hn) ▸ hx)
    have htarget : e.target ≠ key := by
      rintro rfl
      exact hj (some.inj (ht.symm.trans hn) ▸ hx)
    have hmem : k ∉ g.incidentEdges key := by
      rw [mem_incidentEdges, he]
      rintro ⟨e', ⟨⟩, hend⟩
      exact hend.elim hsource htarget
    refine ⟨e, s, t, ?_, ?_, ?_, rfl, rfl, rfl⟩
    · rw [if_neg hmem, he]
    · rw [if_neg hsource, hs]
    · rw [if_neg htarget, ht]

/-! ## Edges -/

theorem connect_eq {i j : Id} {s t : Nat} (hs : g.keyOf i = some s) (ht : g.keyOf j = some t)
    (w : E) :
    (g.connect s t w).nodes = g.nodes ∧ (g.connect s t w).byId = g.byId ∧
      (g.connect s t w).edges = g.edges.add ⟨s, t, w⟩ := by
  obtain ⟨n, hn, _⟩ := (g.indexed i s).mp hs
  obtain ⟨m, hm, _⟩ := (g.indexed j t).mp ht
  unfold connect
  rw [dif_pos (by rw [hn, hm]; exact ⟨rfl, rfl⟩)]
  exact ⟨rfl, rfl, rfl⟩

theorem get_connect (s t : Nat) (w : E) (i : Id) : (g.connect s t w).get i = g.get i := by
  unfold connect
  split <;> rfl

theorem resolved_connect {i j : Id} {s t : Nat} (hs : g.keyOf i = some s) (ht : g.keyOf j = some t)
    (w : E) (k : Nat) :
    (g.connect s t w).resolved k = if k = g.edges.nextKey then some (i, j, w) else g.resolved k := by
  obtain ⟨hnodes, _, hedges⟩ := g.connect_eq hs ht w
  obtain ⟨n, hn, hi⟩ := (g.indexed i s).mp hs
  obtain ⟨m, hm, hj⟩ := (g.indexed j t).mp ht
  unfold resolved
  rw [hedges, hnodes, g.edges.get_add]
  split
  · simp [hn, hm, hi, hj]
  · rfl

theorem resolved_disconnect (key k : Nat) :
    (g.disconnect key).resolved k = if k = key then none else g.resolved k := by
  change ((g.edges.remove key).get k).bind _ = _
  rw [g.edges.get_remove]
  split <;> rfl

theorem resolved_nextKey : g.resolved g.edges.nextKey = none := by
  unfold resolved
  rw [g.edges.get_nextKey]
  rfl

end Graph

end Mere.Chartulary
