import Mere.Chartulary.Commit
import Mere.Base.SlotMap

/-!
# Snapshots and checkpointed loads

From `crates/eidetic/chartulary/src/spine.rs`: loading a snapshot builds graph and indexes anew, and
the journal's tail is applied on top. The slots' codec gives back what was saved.
-/

namespace Mere.Chartulary

open List Option

variable {Id N E Value : Type}

structure Snapshot (Id N E Value : Type) where
  nodes : List N
  edges : List (EdgeId × Id × Id × E)
  derivations : List (Id × DerivationRecord Id)
  facets : FacetStore Id Value
  writer : WriterId
  nextEdge : Nat
  atSeq : Nat

/-- The orders in which the out-edges of a node and the derivations are walked: the graph and
the hash table promise none. -/
structure Walk (Id E : Type) where
  out : Nat → Shuffle (Nat × Edge E)
  derivations : Shuffle (Sigma fun _ : Id => List (DerivationRecord Id))

variable [DecidableEq Id] [Identified N Id] {edges : List (EdgeId × Id × Id × E)}

def Graph.outEdges (graph : Graph N E) (key : Nat) : List (Nat × Edge E) :=
  graph.edges.toList.filter (fun p => p.2.source == key)

namespace GraphLog

variable (g : GraphLog Id N E Value)

def edgeWalk (walk : Walk Id E) : List (Nat × Edge E) :=
  g.graph.nodes.toList.flatMap fun p => (walk.out p.1).order (g.graph.outEdges p.1)

def savedEdge (p : Nat × Edge E) : Option (EdgeId × Id × Id × E) :=
  (g.byEdgeKey.lookup p.1).bind fun id => (g.graph.nodes.get p.2.source).bind fun source =>
    (g.graph.nodes.get p.2.target).map fun target =>
      (id, Identified.id source, Identified.id target, p.2.weight)

def snapshot (walk : Walk Id E) : Snapshot Id N E Value where
  nodes := g.graph.nodes.toList.map Prod.snd
  edges := (g.edgeWalk walk).filterMap g.savedEdge
  derivations := (walk.derivations.order g.derivations.entries).flatMap fun p => p.2.map (p.1, ·)
  facets := g.facets
  writer := g.writer
  nextEdge := g.nextEdge
  atSeq := g.log.len

def restoreNode (node : N) : GraphLog Id N E Value := { g with graph := g.graph.insert node }

def restoreEdge (p : EdgeId × Id × Id × E) : GraphLog Id N E Value := g.link p.1 p.2.1 p.2.2.1 p.2.2.2

def restoreRecord (p : Id × DerivationRecord Id) : GraphLog Id N E Value :=
  { g with derivations := g.derivations.insert p.1 (g.derivationsOf p.1 ++ [p.2]) }

def restoreNodes (s : Snapshot Id N E Value) : GraphLog Id N E Value := s.nodes.foldl restoreNode {}

def fromSnapshot (s : Snapshot Id N E Value) : GraphLog Id N E Value × Nat :=
  let edges := s.edges.foldl restoreEdge (restoreNodes s)
  let records := s.derivations.foldl restoreRecord edges
  ({ records with facets := s.facets, writer := s.writer, nextEdge := s.nextEdge }, s.atSeq)

def loadCheckpointed (s : Option (Snapshot Id N E Value)) (log : Journal (Batch Id N E Value)) :
    GraphLog Id N E Value :=
  let start := s.elim ({}, 0) fromSnapshot
  { (log.fromSeq start.2).foldl applyBatch start.1 with log := log }

end GraphLog

/-! ## What a list of restored parts holds -/

namespace View

variable {v : View Id N E Value} (records : List (Id × DerivationRecord Id))

/-- The last node of an id stays. -/
theorem nodes_inserts (nodes : List N) (x : Id) : (v.applyAll (nodes.map .insertNode)).nodes x =
    (nodes.reverse.find? fun n => Identified.id n = x).or (v.nodes x) := by
  induction nodes generalizing v with
  | nil => simp [applyAll]
  | cons first nodes ih =>
    refine ih.trans ?_
    rw [reverse_cons, find?_append]
    by_cases hx : Identified.id first = x
    · simp [View.apply, hx]
    · simp [View.apply, hx, Ne.symm hx]

def reconnect (p : EdgeId × Id × Id × E) : GraphEdit Id N E Value := .connect p.1 p.2.1 p.2.2.1 p.2.2.2

theorem edges_reconnects (hids : (edges.map Prod.fst).Nodup)
    (hlive : ∀ p ∈ edges, v.live p.2.1 = true ∧ v.live p.2.2.1 = true) (e : EdgeId)
    (edge : Id × Id × E) : (v.applyAll (edges.map reconnect)).edges e = some edge ↔
      (e, edge) ∈ edges ∨ e ∉ edges.map Prod.fst ∧ v.edges e = some edge := by
  induction edges generalizing v with
  | nil => simp [applyAll]
  | cons first edges ih =>
    rw [map_cons, nodup_cons] at hids
    have hlive' : ∀ p ∈ edges, (v.apply (reconnect first)).live p.2.1 = true ∧
        (v.apply (reconnect first)).live p.2.2.1 = true := by
      intro p hp
      simpa [reconnect, live, apply_connect] using hlive p (mem_cons_of_mem _ hp)
    refine (ih hids.2 hlive').trans ?_
    obtain ⟨id, source, target, w⟩ := first
    have hends := hlive _ mem_cons_self
    have hstep : (v.apply (reconnect (id, source, target, w))).edges e =
        if e = id then some (source, target, w) else v.edges e := by
      unfold reconnect
      simp [apply_connect, hends]
    rw [hstep]
    by_cases he : e = id
    · subst he
      have hnot : (e, edge) ∉ edges := fun hmem => hids.1 (mem_map.mpr ⟨_, hmem, rfl⟩)
      simp [hids.1, hnot, eq_comm]
    · simp [he]

theorem derivations_derives (x : Id) :
    (v.applyAll (records.map fun p => .derive p.1 p.2)).derivations x =
      v.derivations x ++ records.filterMap (fun p => if p.1 = x then some p.2 else none) := by
  induction records generalizing v with
  | nil => simp [applyAll]
  | cons first records ih =>
    refine (ih (v := v.apply (.derive first.1 first.2))).trans ?_
    change (if x = first.1 then _ else _) ++ _ = _
    by_cases hx : first.1 = x
    · simp [hx]
    · simp [hx, Ne.symm hx]

theorem nodes_reconnects (edges : List (EdgeId × Id × Id × E)) :
    (v.applyAll (edges.map reconnect)).nodes = v.nodes ∧
      (v.applyAll (edges.map reconnect)).derivations = v.derivations := by
  induction edges generalizing v with
  | nil => exact ⟨rfl, rfl⟩
  | cons first edges ih =>
    obtain ⟨hn, hd⟩ := ih (v := v.apply (reconnect first))
    exact ⟨hn.trans (by rw [reconnect, apply_connect]), hd.trans (by rw [reconnect, apply_connect])⟩

theorem parts_derives :
    (v.applyAll (records.map fun p => .derive p.1 p.2)).nodes = v.nodes ∧
      (v.applyAll (records.map fun p => .derive p.1 p.2)).edges = v.edges := by
  induction records generalizing v with
  | nil => exact ⟨rfl, rfl⟩
  | cons first records ih => exact ih (v := v.apply (.derive first.1 first.2))

theorem parts_inserts (nodes : List N) :
    (v.applyAll (nodes.map .insertNode)).edges = v.edges ∧
      (v.applyAll (nodes.map .insertNode)).derivations = v.derivations := by
  induction nodes generalizing v with
  | nil => exact ⟨rfl, rfl⟩
  | cons first nodes ih => exact ih (v := v.apply (.insertNode first))

end View

namespace GraphLog

variable {g : GraphLog Id N E Value} (walk : Walk Id E)

/-! ## What a snapshot lists -/

theorem mem_outEdges (graph : Graph N E) (key : Nat) (p : Nat × Edge E) :
    p ∈ graph.outEdges key ↔ graph.edges.get p.1 = some p.2 ∧ p.2.source = key := by
  unfold Graph.outEdges
  rw [mem_filter, graph.edges.mem_toList, beq_iff_eq]

theorem mem_edgeWalk (p : Nat × Edge E) :
    p ∈ g.edgeWalk walk ↔ g.graph.edges.get p.1 = some p.2 := by
  unfold edgeWalk
  rw [mem_flatMap]
  constructor
  · rintro ⟨node, _, hp⟩
    rw [((walk.out node.1).perm _).mem_iff, mem_outEdges] at hp
    exact hp.1
  · intro hp
    obtain ⟨⟨source, hsource⟩, _⟩ := g.graph.ends p.1 p.2 hp
    refine ⟨(p.2.source, source), (g.graph.nodes.mem_toList _ _).mpr hsource, ?_⟩
    rw [((walk.out _).perm _).mem_iff, mem_outEdges]
    exact ⟨hp, rfl⟩

theorem pairwise_edgeWalk :
    (g.edgeWalk walk).Pairwise (fun p q => p.1 ≠ q.1) := by
  have hedges : g.graph.edges.toList.Pairwise (fun p q => p.1 ≠ q.1) :=
    pairwise_map.mp g.graph.edges.nodup_keys
  have hnodes : g.graph.nodes.toList.Pairwise (fun p q => p.1 ≠ q.1) :=
    pairwise_map.mp g.graph.nodes.nodup_keys
  unfold edgeWalk
  rw [pairwise_flatMap]
  constructor
  · intro node _
    exact (((walk.out node.1).perm _).pairwise_iff Ne.symm).mpr (hedges.sublist filter_sublist)
  · refine hnodes.imp ?_
    intro node node' hne p hp q hq hkey
    rw [((walk.out _).perm _).mem_iff, mem_outEdges] at hp hq
    rw [hkey, hq.1] at hp
    have hsame : q.2 = p.2 := some.inj hp.1
    exact hne (hp.2.symm.trans ((congrArg Edge.source hsame.symm).trans hq.2))

theorem savedEdge_eq_some (p : Nat × Edge E) (hp : g.graph.edges.get p.1 = some p.2) (e : EdgeId)
    (edge : Id × Id × E) : g.savedEdge p = some (e, edge) ↔
      g.byEdgeKey.lookup p.1 = some e ∧ g.graph.resolved p.1 = some edge := by
  obtain ⟨⟨source, hs⟩, target, ht⟩ := g.graph.ends p.1 p.2 hp
  unfold savedEdge Graph.resolved
  rw [hp, bind_some, hs, ht]
  cases hkey : g.byEdgeKey.lookup p.1 with
  | none => simp
  | some id => simp

theorem mem_saved (h : g.Indexed) (walk : Walk Id E) (e : EdgeId) (edge : Id × Id × E) :
    (e, edge) ∈ (g.snapshot walk).edges ↔ g.view.edges e = some edge := by
  change (e, edge) ∈ (g.edgeWalk walk).filterMap g.savedEdge ↔
    (g.byEdgeId.lookup e).bind g.graph.resolved = some edge
  rw [mem_filterMap, bind_eq_some_iff]
  constructor
  · rintro ⟨p, hp, hsaved⟩
    rw [mem_edgeWalk] at hp
    obtain ⟨hkey, hedge⟩ := (savedEdge_eq_some p hp e edge).mp hsaved
    exact ⟨p.1, (h.inverse e p.1).mpr hkey, hedge⟩
  · rintro ⟨key, hkey, hedge⟩
    have hlive := g.graph.isSome_resolved key
    rw [hedge] at hlive
    obtain ⟨record, hrecord⟩ := isSome_iff_exists.mp hlive.symm
    exact ⟨(key, record), (mem_edgeWalk walk _).mpr hrecord,
      (savedEdge_eq_some (key, record) hrecord e edge).mpr ⟨(h.inverse e key).mp hkey, hedge⟩⟩

theorem nodup_saved (h : g.Indexed) (walk : Walk Id E) :
    ((g.snapshot walk).edges.map Prod.fst).Nodup := by
  refine pairwise_map.mpr (pairwise_filterMap.mpr ?_)
  refine (pairwise_edgeWalk walk).imp_of_mem ?_
  rintro p q hp hq hne ⟨e, edge⟩ hpe ⟨e', edge'⟩ hqe heq
  rw [mem_edgeWalk] at hp hq
  have hkey := (h.inverse e p.1).mpr ((savedEdge_eq_some p hp e edge).mp hpe).1
  have hkey' := (h.inverse e' q.1).mpr ((savedEdge_eq_some q hq e' edge').mp hqe).1
  obtain rfl : e = e' := heq
  exact hne (some.inj (hkey.symm.trans hkey'))

theorem mem_saved_nodes (n : N) :
    n ∈ (g.snapshot walk).nodes ↔ ∃ k, g.graph.nodes.get k = some n := by
  change n ∈ g.graph.nodes.toList.map Prod.snd ↔ _
  simp only [List.mem_map, Prod.exists, exists_eq_right, Arena.mem_toList]

theorem saved_records (x : Id) : (g.snapshot walk).derivations.filterMap
    (fun p => if p.1 = x then some p.2 else none) = g.derivationsOf x := by
  have hone : ∀ p : Sigma fun _ : Id => List (DerivationRecord Id),
      (p.2.map (p.1, ·)).filterMap (fun q => if q.1 = x then some q.2 else none) =
        if p.1 = x then p.2 else [] := by
    intro p
    by_cases hp : p.1 = x
    · simp [hp]
    · simp [hp]
  change ((walk.derivations.order g.derivations.entries).flatMap fun p => p.2.map (p.1, ·)).filterMap _ = _
  rw [filterMap_flatMap, flatMap_congr fun p _ => hone p]
  exact g.derivations.flatMap_at (walk.derivations.perm _) x

/-! ## Loading -/

theorem Indexed.restoreEdges (h : g.Indexed)
    (hids : (edges.map Prod.fst).Nodup) (hunused : ∀ e ∈ edges.map Prod.fst, g.view.edges e = none) :
    (edges.foldl restoreEdge g).Indexed ∧
      (edges.foldl restoreEdge g).view = g.view.applyAll (edges.map View.reconnect) := by
  induction edges generalizing g with
  | nil => exact ⟨h, rfl⟩
  | cons first edges ih =>
    rw [map_cons, nodup_cons] at hids
    have hfresh := hunused first.1 mem_cons_self
    have hview := h.view_link first.2.1 first.2.2.1 first.2.2.2 hfresh
    have hnext := ih (g := g.restoreEdge first) (h.link first.2.1 first.2.2.1 first.2.2.2 hfresh).1
      hids.2 (by
        intro e he
        refine (congrFun (congrArg View.edges hview) e).trans ?_
        refine View.edges_apply_eq_none (hunused e (mem_cons_of_mem _ he)) ?_
        rintro ⟨⟩
        exact hids.1 he)
    refine ⟨hnext.1, hnext.2.trans ?_⟩
    exact congrArg (fun v => View.applyAll v (edges.map View.reconnect)) hview

theorem restoreNodes_spec (s : Snapshot Id N E Value) : (restoreNodes s).Indexed ∧
    (restoreNodes s).view = View.empty.applyAll (s.nodes.map .insertNode) := by
  have hids : (connectIds (s.nodes.map .insertNode : List (GraphEdit Id N E Value))).Nodup := by
    simp [connectIds, connectId, Function.comp_def]
  have hrun := sound_empty.indexed.applyEdits (View.fresh_empty hids)
  rw [foldl_map] at hrun
  exact hrun

theorem Indexed.restoreRecords (h : g.Indexed) (records : List (Id × DerivationRecord Id)) :
    (records.foldl restoreRecord g).Indexed ∧ (records.foldl restoreRecord g).view =
      g.view.applyAll (records.map fun p => .derive p.1 p.2) := by
  have hids : connectIds (records.map (fun p => .derive p.1 p.2) : List (GraphEdit Id N E Value)) =
      [] := by simp [connectIds, connectId]
  have hrun := h.applyEdits (⟨by rw [hids]; exact nodup_nil, by simp [hids]⟩ :
    g.view.Fresh (records.map fun p => .derive p.1 p.2))
  rw [foldl_map] at hrun
  exact hrun

theorem saved_nodes_ids : ∀ n ∈ (g.snapshot walk).nodes,
    ∀ m ∈ (g.snapshot walk).nodes, Identified.id n = Identified.id m → n = m := by
  intro n hn m hm hid
  obtain ⟨k, hk⟩ := (mem_saved_nodes walk n).mp hn
  obtain ⟨k', hk'⟩ := (mem_saved_nodes walk m).mp hm
  obtain rfl := g.graph.key_unique hk hk' hid
  exact some.inj (hk.symm.trans hk')

theorem restoreNodes_view : (restoreNodes (g.snapshot walk)).Indexed ∧
    (restoreNodes (g.snapshot walk)).view.nodes = g.view.nodes ∧
      (∀ e, (restoreNodes (g.snapshot walk)).view.edges e = none) ∧
        ∀ x, (restoreNodes (g.snapshot walk)).view.derivations x = [] := by
  obtain ⟨hindexed, hview⟩ := restoreNodes_spec (g.snapshot walk)
  refine ⟨hindexed, ?_, fun e => ?_, fun x => ?_⟩
  · funext x
    apply Option.ext
    intro n
    rw [hview, View.nodes_inserts, View.empty, or_none]
    refine Iff.trans ?_ (g.graph.get_eq_some x n).symm
    rw [← mem_saved_nodes walk, and_comm]
    have hfound : ∀ {m}, (g.snapshot walk).nodes.reverse.find? (fun n => Identified.id n = x) =
        some m → m ∈ (g.snapshot walk).nodes ∧ Identified.id m = x := fun hm =>
      ⟨mem_reverse.mp (mem_of_find?_eq_some hm), by simpa using find?_some hm⟩
    refine ⟨hfound, fun ⟨hmem, hid⟩ => ?_⟩
    obtain ⟨m, hm⟩ : ∃ m, (g.snapshot walk).nodes.reverse.find? (fun n => Identified.id n = x) =
        some m := by
      rw [← isSome_iff_exists, find?_isSome]
      exact ⟨n, mem_reverse.mpr hmem, by simpa using hid⟩
    obtain ⟨hmem', hid'⟩ := hfound hm
    rw [hm, saved_nodes_ids walk m hmem' n hmem (hid'.trans hid.symm)]
  · rw [hview, (View.parts_inserts _).1]
    rfl
  · rw [hview, (View.parts_inserts _).2]
    rfl

/-- Loading a snapshot gives back what was saved, under new keys. -/
theorem fromSnapshot_spec (h : g.Indexed) (walk : Walk Id E) :
    (fromSnapshot (g.snapshot walk)).1.Indexed ∧ (fromSnapshot (g.snapshot walk)).1.view = g.view := by
  obtain ⟨hindexed₁, hnodes₁, hedges₁, hrecords₁⟩ := restoreNodes_view (g := g) walk
  obtain ⟨hindexed₂, hview₂⟩ := hindexed₁.restoreEdges (nodup_saved h walk) (fun e _ => hedges₁ e)
  obtain ⟨hindexed₃, hview₃⟩ := hindexed₂.restoreRecords (g.snapshot walk).derivations
  have hlive : ∀ p ∈ (g.snapshot walk).edges,
      (restoreNodes (g.snapshot walk)).view.live p.2.1 = true ∧
        (restoreNodes (g.snapshot walk)).view.live p.2.2.1 = true := by
    intro p hp
    unfold View.live
    rw [hnodes₁]
    exact live_of_edges ((mem_saved h walk p.1 p.2).mp hp)
  refine ⟨hindexed₃.congr rfl rfl rfl, View.ext ?_ ?_ ?_ rfl⟩
  · refine (congrArg View.nodes hview₃).trans ?_
    rw [(View.parts_derives _).1, hview₂, (View.nodes_reconnects _).1, hnodes₁]
  · refine (congrArg View.edges hview₃).trans ?_
    rw [(View.parts_derives _).2, hview₂]
    funext e
    apply Option.ext
    intro edge
    refine (View.edges_reconnects (nodup_saved h walk) hlive e edge).trans ?_
    rw [mem_saved h, hedges₁]
    simp
  · refine (congrArg View.derivations hview₃).trans ?_
    funext x
    rw [View.derivations_derives, hview₂, (View.nodes_reconnects _).2, hrecords₁, saved_records]
    rfl

theorem Sound.loadCheckpointed {taken last : GraphLog Id N E Value} (htaken : taken.Sound)
    (hlast : last.Sound) (hgrown : taken.log.entries <+: last.log.entries)
    (hwriter : last.writer = taken.writer) (walk : Walk Id E) :
    (loadCheckpointed (some (taken.snapshot walk)) last.log).Sound ∧
      (loadCheckpointed (some (taken.snapshot walk)) last.log).writer = last.writer := by
  obtain ⟨hindexed, hview⟩ := fromSnapshot_spec htaken.indexed walk
  obtain ⟨tail, htail⟩ := hgrown
  have hdrop : last.log.fromSeq (taken.log.len) = tail := by
    change last.log.entries.drop taken.log.entries.length = tail
    rw [← htail, drop_left]
  have hedits : editsOf last.log.entries = editsOf taken.log.entries ++ editsOf tail := by
    rw [← htail, editsOf_append]
  have hfresh : (fromSnapshot (taken.snapshot walk)).1.view.Fresh (editsOf tail) := by
    rw [hview, htaken.replayed]
    refine View.Fresh.right ?_
    rw [← hedits]
    exact View.fresh_empty hlast.distinct
  have hrun := hindexed.applyEdits hfresh
  have hloaded : GraphLog.loadCheckpointed (some (taken.snapshot walk)) last.log =
      { (editsOf tail).foldl applyEdit (fromSnapshot (taken.snapshot walk)).1 with log := last.log } := by
    rw [← foldl_applyBatch, ← hdrop]
    rfl
  have hmine : ((editsOf tail).foldl applyEdit (fromSnapshot (taken.snapshot walk)).1).writer =
      taken.writer := applyEdits_writer _
  rw [hloaded]
  refine ⟨⟨hrun.1.congr rfl rfl rfl, hlast.distinct, ?_, ?_⟩, hmine.trans hwriter.symm⟩
  · refine hrun.2.trans ?_
    rw [hview, htaken.replayed, ← View.applyAll_append, ← hedits]
  · refine (applyEdits_nextEdge _).trans ?_
    refine Eq.trans ?_ (congrArg (frontier · (editsOf last.log.entries)) hmine).symm
    rw [hedits, frontier_append, ← htaken.counted]
    rfl

theorem Sound.unique {g' : GraphLog Id N E Value} (h : g.Sound) (h' : g'.Sound)
    (hlog : g'.log.entries = g.log.entries) (hwriter : g'.writer = g.writer) :
    g'.view = g.view ∧ g'.nextEdge = g.nextEdge := by
  rw [h'.replayed, h'.counted, h.replayed, h.counted, hlog, hwriter]
  exact ⟨rfl, rfl⟩

/-! ## A run with a snapshot in it -/

theorem submit_grows (submission : Submission Id N E Value) :
    g.log.entries <+: (g.submit submission).log.entries := by
  unfold GraphLog.submit
  rcases commitBatch_cases (g := g) submission.author submission.expected submission.specs with
    ⟨_, heq⟩ | ⟨_, heq⟩
  · rw [heq]
  · rw [heq]
    exact prefix_append _ _

theorem submitAll_grown (submissions : List (Submission Id N E Value)) :
    g.log.entries <+: (g.submitAll submissions).log.entries ∧
      (g.submitAll submissions).writer = g.writer := by
  induction submissions generalizing g with
  | nil => exact ⟨prefix_rfl, rfl⟩
  | cons submission submissions ih =>
    obtain ⟨hgrown, hwriter⟩ := ih (g := g.submit submission)
    exact ⟨(submit_grows submission).trans hgrown, hwriter.trans (submit_writer submission)⟩

def fresh (id : Option LogId) (writer : WriterId) : GraphLog Id N E Value :=
  forWriter { log := { Journal.new with id := id } } writer

theorem sound_fresh (id : Option LogId) (writer : WriterId) :
    (fresh id writer : GraphLog Id N E Value).Sound :=
  ⟨sound_empty.indexed.congr rfl rfl rfl, nodup_nil, rfl, rfl⟩

/-- Commits, accepted or refused, then a snapshot, then more commits: loading the snapshot with
the final journal gives what the full replay gives, and both edge indexes are inverse to each
other onto the live edges. -/
theorem checkpointed_eq_replay (id : Option LogId) (writer : WriterId)
    (before after : List (Submission Id N E Value)) (walk : Walk Id E) :
    let taken := (fresh id writer).submitAll before
    let log := (taken.submitAll after).log
    let loaded := loadCheckpointed (some (taken.snapshot walk)) log
    loaded.view = (replayForWriter log writer).view ∧
      loaded.nextEdge = (replayForWriter log writer).nextEdge ∧
      loaded.writer = (replayForWriter log writer).writer ∧ loaded.log = log ∧
      loaded.Indexed ∧ (replayForWriter log writer).Indexed := by
  intro taken log loaded
  have htaken : taken.Sound := (sound_fresh id writer).submitAll before
  have hlast : (taken.submitAll after).Sound := htaken.submitAll after
  obtain ⟨hgrown, hsame⟩ := submitAll_grown (g := taken) after
  have hmine : taken.writer = writer := (submitAll_grown (g := fresh id writer) before).2
  obtain ⟨hloaded, hwriter⟩ := htaken.loadCheckpointed hlast hgrown hsame walk
  have hfull := sound_replayForWriter writer hlast.distinct
  have hreplayer := (replayForWriter_counter log writer).1
  have hwriters : loaded.writer = (replayForWriter log writer).writer :=
    (hwriter.trans hsame).trans (hmine.trans hreplayer.symm)
  obtain ⟨hview, hnext⟩ := hfull.unique hloaded rfl hwriters
  exact ⟨hview, hnext, hwriters, rfl, hloaded.indexed, hfull.indexed⟩

/-! ## Every run -/

/-- Of two commits made against one revision at most one is accepted, whatever is submitted
between them. -/
theorem stale_refused (first later : Submission Id N E Value)
    (between : List (Submission Id N E Value)) (hstale : later.expected ≤ first.expected)
    (hfirst : (g.commitBatch first.author first.expected first.specs).1.isOk) :
    let g' := (g.submit first).submitAll between
    g'.commitBatch later.author later.expected later.specs =
      (.error (.revisionConflict g'.revision), g') := by
  intro g'
  apply commitBatch_conflict
  have hgrown : (g.submit first).revision ≤ g'.revision := (submitAll_grown between).1.length_le
  have hmade : (g.submit first).revision = g.revision + 1 ∧ first.expected = g.revision := by
    unfold GraphLog.submit
    rcases commitBatch_cases (g := g) first.author first.expected first.specs with
      ⟨_, heq⟩ | ⟨_, heq⟩
    · rw [heq] at hfirst
      cases hfirst
    · refine ⟨by rw [heq]; exact length_append, ?_⟩
      by_contra hne
      rw [commitBatch_conflict _ _ hne] at hfirst
      cases hfirst
  omega

def inserted (x : Nat) : Submission Nat (Container Nat) Nat Nat := ⟨⟨[]⟩, 0, [.insertNode ⟨x, []⟩]⟩

theorem stale_refused_inserted : ((submit {} (inserted 1)).commitBatch ⟨[]⟩ 0 (inserted 2).specs).1 =
    .error (.revisionConflict 1) :=
  congrArg Prod.fst (stale_refused (inserted 1) (inserted 2) [] le_rfl (by decide))

variable (id : Option LogId) (writer : WriterId) (submissions : List (Submission Id N E Value))

/-- A fork shows what its source shows, and never mints an id of their common history again. -/
theorem fork_faithful (later : List (Submission Id N E Value)) (newId : LogId) :
    let source : GraphLog Id N E Value := (fresh id writer).submitAll submissions
    let fork := source.fork newId
    fork.view = source.view ∧ fork.log.entries = source.log.entries ∧
      fork.log.provenance = some ⟨source.log.id, source.revision⟩ ∧
      (connectIds (editsOf (fork.submitAll later).log.entries)).Nodup := by
  intro source fork
  have hsource : source.Sound := (sound_fresh id writer).submitAll submissions
  have hfork : fork.Sound := sound_replayForWriter localWriter hsource.distinct
  exact ⟨hfork.replayed.trans hsource.replayed.symm, rfl, rfl, (hfork.submitAll later).distinct⟩

def Attended (v : View Id N E Value) : Prop := ∀ x f, (v.facets x f).isSome → v.live x

theorem Attended.apply {v : View Id N E Value} (h : Attended v) (edit : GraphEdit Id N E Value) :
    Attended (v.apply edit) := by
  intro x f
  have hx := h x f
  simp only [View.live] at hx ⊢
  cases edit with
  | insertNode | removeNode =>
    simp only [View.apply]
    grind
  | connect =>
    rw [View.apply_connect]
    exact hx
  | disconnect | derive => exact hx
  | setFacet | removeFacet =>
    simp only [View.apply_setFacet, View.apply_removeFacet, View.live]
    grind

/-- Facets and edges go with their nodes. -/
theorem no_orphans :
    let v : View Id N E Value := ((fresh id writer).submitAll submissions).view
    Attended v ∧ ∀ e s t w, v.edges e = some (s, t, w) → v.live s ∧ v.live t := by
  intro v
  refine ⟨?_, fun e s t w => live_of_edges⟩
  rw [show v = _ from ((sound_fresh id writer).submitAll submissions).replayed]
  exact foldlRecOn _ _ (fun _ _ h => nomatch h) fun _ h edit _ => Attended.apply h edit

end GraphLog

end Mere.Chartulary
