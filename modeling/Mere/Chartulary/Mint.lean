import Mere.Chartulary.Checkpoint
import Mere.Base.Run

/-!
# Edge ids across replicas

Replicas of one base journal, each with a writer id of its own, commit, restart from their journal
or from a snapshot, and replay what others committed.
-/

namespace Mere.Chartulary

open List Option Function

variable {Id N E Value R : Type} [DecidableEq Id] [Identified N Id]

/-! ## Replicas -/

structure Replica (Id N E Value : Type) [DecidableEq Id] [Identified N Id] where
  graph : GraphLog Id N E Value
  saved : List (Snapshot Id N E Value) := []

inductive Action (Id N E Value : Type) where
  | commit (submission : GraphLog.Submission Id N E Value)
  | forWriter
  | replay
  | snapshot (walk : Walk Id E)
  | load (index : Nat)
  | merge (log : Journal (Batch Id N E Value))
  /-- As `merge`, with the batches in a new order: no earlier snapshot counts such entries. -/
  | resort (log : Journal (Batch Id N E Value))

def Replica.act (writer : WriterId) (p : Replica Id N E Value) :
    Action Id N E Value → Option (Replica Id N E Value × List EdgeId)
  | .commit submission =>
    let result := p.graph.commitBatch submission.author submission.expected submission.specs
    some ({ p with graph := result.2 }, (result.1.toOption.map Committed.edges).getD [])
  | .forWriter => some ({ p with graph := p.graph.forWriter writer }, [])
  | .replay => some ({ p with graph := GraphLog.replayForWriter p.graph.log writer }, [])
  | .snapshot walk => some ({ p with saved := p.graph.snapshot walk :: p.saved }, [])
  | .load index => (p.saved[index]?).map fun s =>
    ({ p with graph := GraphLog.loadCheckpointed (some s) p.graph.log }, [])
  | .merge log => some ({ p with graph := GraphLog.replayForWriter log writer }, [])
  | .resort log => some ({ graph := GraphLog.replayForWriter log writer, saved := [] }, [])

/-- A merge loses no batch of the replica's journal. -/
def Replica.Allows (p : Replica Id N E Value) : Action Id N E Value → Prop
  | .merge log => p.graph.log.entries.Sublist log.entries
  | .resort log => ∀ batch ∈ p.graph.log.entries, batch ∈ log.entries
  | _ => True

structure World (Id N E Value R : Type) [DecidableEq Id] [Identified N Id] where
  replicas : R → Replica Id N E Value
  minted : List EdgeId := []

def World.start (writer : R ↪ WriterId) (base : Journal (Batch Id N E Value)) : World Id N E Value R where
  replicas r := { graph := GraphLog.replayForWriter base (writer r) }

variable [DecidableEq R]

def World.step (writer : R ↪ WriterId) (w : World Id N E Value R) (a : R × Action Id N E Value) :
    Option (World Id N E Value R) :=
  ((w.replicas a.1).act (writer a.1) a.2).map fun result =>
    ⟨Function.update w.replicas a.1 result.1, w.minted ++ result.2⟩

omit [DecidableEq R] in
def World.Allows (w : World Id N E Value R) (a : R × Action Id N E Value) : Prop :=
  (w.replicas a.1).Allows a.2

/-! ## One replica -/

structure Kept (writer : WriterId) (ids : List EdgeId) (p : Replica Id N E Value) : Prop where
  mine : p.graph.writer = writer
  journaled : ∀ e ∈ ids, e.writer = writer → e ∈ connectIds (editsOf p.graph.log.entries)
  ahead : ∀ e ∈ ids, e.writer = writer → e.counter < p.graph.nextEdge
  saved : ∀ s ∈ p.saved, s.writer = writer ∧ s.atSeq ≤ p.graph.log.entries.length ∧
    ∀ e ∈ ids, e.writer = writer → e.counter < s.nextEdge ∨
      e ∈ connectIds (editsOf (p.graph.log.entries.drop s.atSeq))

omit [DecidableEq Id] [Identified N Id] in
theorem connectIds_mono {batches batches' : List (Batch Id N E Value)}
    (h : ∀ batch ∈ batches, batch ∈ batches') {e : EdgeId} (he : e ∈ connectIds (editsOf batches)) :
    e ∈ connectIds (editsOf batches') := by
  rw [mem_connectIds] at he ⊢
  obtain ⟨source, target, edge, hmem⟩ := he
  obtain ⟨batch, hbatch, hedit⟩ := mem_flatMap.mp hmem
  exact ⟨source, target, edge, mem_flatMap.mpr ⟨batch, h batch hbatch, hedit⟩⟩

variable {writer : WriterId} {ids : List EdgeId} {p : Replica Id N E Value}

theorem Kept.others {new : List EdgeId}
    (h : Kept writer ids p) (hnew : ∀ e ∈ new, e.writer ≠ writer) : Kept writer (ids ++ new) p := by
  have hold : ∀ e ∈ ids ++ new, e.writer = writer → e ∈ ids := by
    intro e he hw
    exact (mem_append.mp he).resolve_right (fun hmem => hnew e hmem hw)
  refine ⟨h.mine, fun e he hw => h.journaled e (hold e he hw) hw,
    fun e he hw => h.ahead e (hold e he hw) hw, fun s hs => ?_⟩
  obtain ⟨hw, hlen, hids⟩ := h.saved s hs
  exact ⟨hw, hlen, fun e he hwe => hids e (hold e he hwe) hwe⟩

theorem Kept.replayed {log : Journal (Batch Id N E Value)}
    {saved : List (Snapshot Id N E Value)}
    (hids : ∀ e ∈ ids, e.writer = writer → e ∈ connectIds (editsOf log.entries))
    (hsaved : ∀ s ∈ saved, s.writer = writer ∧ s.atSeq ≤ log.entries.length ∧
      ∀ e ∈ ids, e.writer = writer → e.counter < s.nextEdge ∨
        e ∈ connectIds (editsOf (log.entries.drop s.atSeq))) :
    Kept writer ids { graph := GraphLog.replayForWriter log writer, saved := saved } := by
  obtain ⟨hwriter, hnext⟩ := GraphLog.replayForWriter_counter log writer
  refine ⟨hwriter, hids, fun e he hw => ?_, hsaved⟩
  rw [hnext]
  exact (frontier_le_iff writer _ _).mp le_rfl e (hids e he hw) hw

theorem Kept.committed
    (h : Kept writer ids p) (author : Author) (specs : List (EditSpec Id N E Value)) :
    Kept writer (ids ++ connectIds (lower p.graph.writer p.graph.nextEdge specs))
      { p with graph := p.graph.extended author (lower p.graph.writer p.graph.nextEdge specs) } := by
  have hlog : ∀ n ≤ p.graph.log.entries.length, editsOf ((p.graph.extended author
      (lower p.graph.writer p.graph.nextEdge specs)).log.entries.drop n) =
        editsOf (p.graph.log.entries.drop n) ++ lower p.graph.writer p.graph.nextEdge specs := by
    intro n hn
    change editsOf ((p.graph.log.entries ++ [_]).drop n) = _
    rw [drop_append_of_le_length hn]
    simp [editsOf]
  have hall := hlog 0 (Nat.zero_le _)
  rw [drop_zero] at hall
  have hnext : p.graph.nextEdge ≤
      (p.graph.extended author (lower p.graph.writer p.graph.nextEdge specs)).nextEdge := by
    change _ ≤ (List.foldl GraphLog.applyEdit p.graph _).nextEdge
    rw [GraphLog.applyEdits_nextEdge]
    exact le_max_left _ _
  refine ⟨(GraphLog.applyEdits_writer _).trans h.mine, ?_, ?_, ?_⟩
  · intro e he hw
    rw [hall, connectIds_append, mem_append]
    exact (mem_append.mp he).imp_left (fun hold => h.journaled e hold hw)
  · intro e he hw
    rcases mem_append.mp he with hold | hnew
    · exact lt_of_lt_of_le (h.ahead e hold hw) hnext
    · change e.counter < (List.foldl GraphLog.applyEdit p.graph _).nextEdge
      rw [GraphLog.applyEdits_nextEdge, max_frontier_lower]
      exact (mem_connectIds_lower hnew).2.2
  · intro s hs
    obtain ⟨hw, hlen, hids⟩ := h.saved s hs
    refine ⟨hw, hlen.trans ?_, fun e he hwe => ?_⟩
    · change _ ≤ (p.graph.log.entries ++ [_]).length
      rw [length_append]
      exact Nat.le_add_right _ _
    · rw [hlog s.atSeq hlen, connectIds_append, mem_append]
      rcases mem_append.mp he with hold | hnew
      · exact (hids e hold hwe).imp_right .inl
      · exact .inr (.inr hnew)

theorem Kept.act {new : List EdgeId} {p' : Replica Id N E Value}
    {a : Action Id N E Value} (h : Kept writer ids p) (hallows : p.Allows a)
    (hact : p.act writer a = some (p', new)) : Kept writer (ids ++ new) p' ∧ new.Nodup ∧
      ∀ e ∈ new, e.writer = writer ∧ e ∉ ids := by
  -- Everything but a commit mints nothing.
  have hnothing : ∀ {q : Replica Id N E Value}, some (q, []) = some (p', new) → Kept writer ids q →
      Kept writer (ids ++ new) p' ∧ new.Nodup ∧ ∀ e ∈ new, e.writer = writer ∧ e ∉ ids := by
    intro q heq hq
    obtain ⟨rfl, rfl⟩ := Prod.mk.inj (some.inj heq)
    rw [append_nil]
    exact ⟨hq, nodup_nil, nofun⟩
  cases a with
  | commit submission =>
    rcases GraphLog.commitBatch_cases (g := p.graph) submission.author submission.expected
      submission.specs with ⟨_, heq⟩ | ⟨_, heq⟩
    · rw [Replica.act, heq] at hact
      exact hnothing hact h
    · rw [Replica.act, heq] at hact
      obtain ⟨rfl, rfl⟩ := Prod.mk.inj (some.inj hact)
      refine ⟨h.committed _ _, nodup_connectIds_lower _ _ _, fun e he => ?_⟩
      obtain ⟨hw, hle, _⟩ := mem_connectIds_lower he
      rw [h.mine] at hw
      refine ⟨hw, fun hold => ?_⟩
      have := h.ahead e hold hw
      omega
  | forWriter =>
    refine hnothing hact ⟨rfl, h.journaled, fun e he hw => ?_, h.saved⟩
    exact (frontier_le_iff writer _ _).mp le_rfl e (h.journaled e he hw) hw
  | replay => exact hnothing hact (Kept.replayed h.journaled h.saved)
  | snapshot walk =>
    refine hnothing hact ⟨h.mine, h.journaled, h.ahead, fun s hs => ?_⟩
    rcases mem_cons.mp hs with rfl | hs
    · exact ⟨h.mine, le_rfl, fun e he hw => .inl (h.ahead e he hw)⟩
    · exact h.saved s hs
  | load index =>
    rw [Replica.act] at hact
    cases hs : p.saved[index]? with
    | none => rw [hs] at hact; cases hact
    | some s =>
      rw [hs] at hact
      obtain ⟨hw, _, hids⟩ := h.saved s (mem_of_getElem? hs)
      refine hnothing hact ⟨?_, h.journaled, fun e he hwe => ?_, h.saved⟩
      · change (List.foldl GraphLog.applyBatch (GraphLog.fromSnapshot s).1 _).writer = writer
        rw [GraphLog.foldl_applyBatch]
        exact (GraphLog.applyEdits_writer _).trans hw
      · change e.counter < (List.foldl GraphLog.applyBatch (GraphLog.fromSnapshot s).1 _).nextEdge
        rw [GraphLog.foldl_applyBatch, GraphLog.applyEdits_nextEdge]
        rcases hids e he hwe with hold | htail
        · exact lt_max_of_lt_left hold
        · refine lt_max_of_lt_right ((frontier_le_iff _ _ _).mp le_rfl e htail ?_)
          exact hwe.trans hw.symm
  | merge log =>
    have hsub : p.graph.log.entries.Sublist log.entries := hallows
    refine hnothing hact (Kept.replayed (fun e he hw => ?_) (fun s hs => ?_))
    · exact connectIds_mono (fun _ hmem => hsub.subset hmem) (h.journaled e he hw)
    · obtain ⟨hw, hlen, hids⟩ := h.saved s hs
      refine ⟨hw, hlen.trans hsub.length_le, fun e he hwe => (hids e he hwe).imp_right ?_⟩
      exact connectIds_mono (fun _ hmem => (hsub.drop s.atSeq).subset hmem)
  | resort log =>
    refine hnothing hact (Kept.replayed (fun e he hw => ?_) (fun _ hs => absurd hs not_mem_nil))
    exact connectIds_mono hallows (h.journaled e he hw)

/-! ## Every replica -/

structure World.Distinct (writer : R ↪ WriterId) (base : Journal (Batch Id N E Value))
    (w : World Id N E Value R) : Prop where
  kept : ∀ r, Kept (writer r) (connectIds (editsOf base.entries) ++ w.minted) (w.replicas r)
  nodup : w.minted.Nodup
  new : ∀ e ∈ w.minted, e ∉ connectIds (editsOf base.entries)

omit [DecidableEq R] in
theorem World.distinct_start (writer : R ↪ WriterId) (base : Journal (Batch Id N E Value)) :
    (World.start writer base).Distinct writer base := by
  refine ⟨fun r => ?_, nodup_nil, nofun⟩
  change Kept (writer r) (_ ++ []) _
  rw [append_nil]
  exact Kept.replayed (fun e he _ => he) (fun _ hs => absurd hs not_mem_nil)

theorem World.Distinct.step {writer : R ↪ WriterId} {base : Journal (Batch Id N E Value)}
    {w w' : World Id N E Value R} {a : R × Action Id N E Value} (h : w.Distinct writer base)
    (hallows : w.Allows a) (hstep : w.step writer a = some w') : w'.Distinct writer base := by
  obtain ⟨⟨p, new⟩, hact, rfl⟩ := map_eq_some_iff.mp hstep
  obtain ⟨hkept, hnodup, hfresh⟩ := (h.kept a.1).act hallows hact
  have hnot : ∀ e ∈ new, e ∉ connectIds (editsOf base.entries) ∧ e ∉ w.minted := by
    intro e he
    have := (hfresh e he).2
    rwa [mem_append, not_or] at this
  refine ⟨fun r => ?_, ?_, ?_⟩
  · change Kept (writer r) (_ ++ (w.minted ++ new)) (Function.update w.replicas a.1 p r)
    rw [← append_assoc]
    by_cases hr : r = a.1
    · subst hr
      rw [update_self]
      exact hkept
    · rw [update_of_ne hr]
      refine (h.kept r).others (fun e he hw => hr (writer.injective ?_))
      exact hw.symm.trans (hfresh e he).1
  · exact List.Nodup.append h.nodup hnodup (fun e hold he => (hnot e he).2 hold)
  · intro e he
    rcases mem_append.mp he with hold | he
    · exact h.new e hold
    · exact (hnot e he).1

def twoWriters : Bool ↪ WriterId := ⟨fun b => if b then 1 else 2, by decide⟩

def lone : Journal (Batch Nat (Container Nat) Nat Nat) :=
  .append .new ⟨⟨[]⟩, [.insertNode ⟨1, []⟩]⟩

def restarting : List (Bool × Action Nat (Container Nat) Nat Nat) :=
  [(true, .commit ⟨⟨[]⟩, 1, [.connect 1 1 7]⟩), (true, .snapshot ⟨fun _ => .same _, .same _⟩),
    (true, .load 0), (true, .commit ⟨⟨[]⟩, 2, [.connect 1 1 8]⟩),
    (false, .commit ⟨⟨[]⟩, 1, [.connect 1 1 9]⟩)]

end Mere.Chartulary
