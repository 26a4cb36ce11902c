import Mere.Chartulary.Replay

/-!
# The attributed commit

From `crates/eidetic/chartulary/src/commit.rs` and the single-spec mutators of `spine.rs`.
-/

namespace Mere.Chartulary

open List

/-! ## Specs -/

/-- An edit as a petitioner writes it: a connect has no id yet. -/
inductive EditSpec (Id N E Value : Type) where
  | insertNode (node : N)
  | removeNode (id : Id)
  | connect (source target : Id) (edge : E)
  | disconnect (id : EdgeId)
  | derive (node : Id) (record : DerivationRecord Id)
  | setFacet (node : Id) (facet : FacetId) (value : Value)
  | removeFacet (node : Id) (facet : FacetId)
  deriving DecidableEq

inductive CommitError (Id : Type) where
  | revisionConflict (current : Nat)
  | unknownNode (id : Id)
  | unknownEdge (id : EdgeId)
  deriving DecidableEq

structure Committed where
  batch : Nat
  edges : List EdgeId
  deriving DecidableEq

/-- What the earlier specs of a batch did, as the precheck keeps it. -/
structure Shadow (Id : Type) where
  added : Finset Id := ∅
  removed : Finset Id := ∅
  dropped : Finset EdgeId := ∅

section Lower

variable {Id N E Value : Type}

def EditSpec.mints : EditSpec Id N E Value → Nat
  | .connect _ _ _ => 1
  | _ => 0

def EditSpec.lower (writer : WriterId) (next : Nat) : EditSpec Id N E Value → GraphEdit Id N E Value
  | .insertNode node => .insertNode node
  | .removeNode id => .removeNode id
  | .connect source target edge => .connect ⟨writer, next⟩ source target edge
  | .disconnect id => .disconnect id
  | .derive node record => .derive node record
  | .setFacet node facet value => .setFacet node facet value
  | .removeFacet node facet => .removeFacet node facet

def lower (writer : WriterId) : Nat → List (EditSpec Id N E Value) → List (GraphEdit Id N E Value)
  | _, [] => []
  | next, spec :: specs => spec.lower writer next :: lower writer (next + spec.mints) specs

end Lower

namespace GraphLog

variable {Id N E Value : Type} [DecidableEq Id] [Identified N Id] (g : GraphLog Id N E Value)
  (author : Author)

/-! ## Committing -/

def present (shadow : Shadow Id) (x : Id) : Bool :=
  x ∉ shadow.removed ∧ (x ∈ shadow.added ∨ (g.graph.keyOf x).isSome)

def checkNode (shadow : Shadow Id) (x : Id) : Except (CommitError Id) (Shadow Id) :=
  if g.present shadow x then .ok shadow else .error (.unknownNode x)

def check (shadow : Shadow Id) : EditSpec Id N E Value → Except (CommitError Id) (Shadow Id)
  | .insertNode node =>
    .ok { shadow with
      removed := shadow.removed.erase (Identified.id node)
      added := insert (Identified.id node) shadow.added }
  | .removeNode x =>
    if g.present shadow x then
      .ok { shadow with added := shadow.added.erase x, removed := insert x shadow.removed }
    else .error (.unknownNode x)
  | .connect source target _ =>
    if g.present shadow source then g.checkNode shadow target else .error (.unknownNode source)
  | .disconnect id =>
    if id ∈ shadow.dropped ∨ (g.edgeKey id).isNone then .error (.unknownEdge id)
    else .ok { shadow with dropped := insert id shadow.dropped }
  | .derive x _ => g.checkNode shadow x
  | .setFacet x _ _ => g.checkNode shadow x
  | .removeFacet x _ => g.checkNode shadow x

def precheck (specs : List (EditSpec Id N E Value)) : Except (CommitError Id) (Shadow Id) :=
  specs.foldlM g.check {}

/-- The ids minted are those that the connects carry, in order. -/
def commitBatch (expected : Nat) (specs : List (EditSpec Id N E Value)) :
    Except (CommitError Id) Committed × GraphLog Id N E Value :=
  if expected ≠ g.revision then (.error (.revisionConflict g.revision), g)
  else
    match g.precheck specs with
    | .error refusal => (.error refusal, g)
    | .ok _ =>
      let edits := lower g.writer g.nextEdge specs
      let minted := connectIds edits
      let counted := { g with nextEdge := g.nextEdge + minted.length }
      let batch := ⟨author, edits⟩
      let applied := counted.applyBatch batch
      (.ok ⟨applied.log.nextSeq, minted⟩, { applied with log := applied.log.append batch })

def commitOne (spec : EditSpec Id N E Value) : Option Committed × GraphLog Id N E Value :=
  let result := g.commitBatch author g.revision [spec]
  (result.1.toOption, result.2)

structure Submission (Id N E Value : Type) where
  author : Author
  expected : Nat
  specs : List (EditSpec Id N E Value)

def submit (submission : Submission Id N E Value) : GraphLog Id N E Value :=
  (g.commitBatch submission.author submission.expected submission.specs).2

def submitAll (submissions : List (Submission Id N E Value)) : GraphLog Id N E Value :=
  submissions.foldl submit g

/-! ## What a commit leaves -/

def extended (edits : List (GraphEdit Id N E Value)) : GraphLog Id N E Value :=
  { edits.foldl applyEdit g with log := g.log.append ⟨author, edits⟩ }

end GraphLog

section Lower

variable {Id N E Value : Type} (writer : WriterId) (next : Nat)
  (specs : List (EditSpec Id N E Value))

theorem EditSpec.connectId_lower (spec : EditSpec Id N E Value) :
    (connectId (spec.lower writer next)).toList = (List.range' next spec.mints).map (EdgeId.mk writer) := by
  cases spec <;> rfl

theorem connectIds_lower :
    connectIds (lower writer next specs) =
      (List.range' next (specs.map EditSpec.mints).sum).map (EdgeId.mk writer) := by
  induction specs generalizing next with
  | nil => rfl
  | cons spec specs ih =>
    rw [lower, connectIds_cons, ih, EditSpec.connectId_lower, map_cons, sum_cons,
      ← map_append, range'_append_1]

theorem mem_connectIds_lower {writer : WriterId} {next : Nat} {specs : List (EditSpec Id N E Value)}
    {e : EdgeId} (h : e ∈ connectIds (lower writer next specs)) :
    e.writer = writer ∧ next ≤ e.counter ∧
      e.counter < next + (connectIds (lower writer next specs)).length := by
  rw [connectIds_lower] at h ⊢
  obtain ⟨n, hn, rfl⟩ := mem_map.mp h
  obtain ⟨hle, hlt⟩ := mem_range'_1.mp hn
  rw [length_map, length_range']
  exact ⟨rfl, hle, hlt⟩

theorem nodup_connectIds_lower :
    (connectIds (lower writer next specs)).Nodup := by
  rw [connectIds_lower]
  refine List.Nodup.map ?_ nodup_range'
  intro m n h
  exact congrArg EdgeId.counter h

theorem max_frontier_lower :
    max next (frontier writer (lower writer next specs)) =
      next + (connectIds (lower writer next specs)).length := by
  apply le_antisymm
  · refine max_le (Nat.le_add_right _ _) ((frontier_le_iff _ _ _).mpr ?_)
    intro e he _
    exact (mem_connectIds_lower he).2.2
  · -- The last id minted is below the frontier.
    rw [connectIds_lower, length_map, length_range']
    cases hk : (specs.map EditSpec.mints).sum with
    | zero => exact le_max_left _ _
    | succ k =>
      have hlast : EdgeId.mk writer (next + k) ∈ connectIds (lower writer next specs) := by
        rw [connectIds_lower]
        exact mem_map_of_mem (mem_range'_1.mpr ⟨Nat.le_add_right _ _, by omega⟩)
      have := (frontier_le_iff writer (lower writer next specs) _).mp le_rfl _ hlast rfl
      exact le_max_of_le_right this

theorem lower_append (specs' : List (EditSpec Id N E Value)) :
    lower writer next (specs ++ specs') = lower writer next specs ++
      lower writer (next + (connectIds (lower writer next specs)).length) specs' := by
  rw [connectIds_lower, length_map, length_range']
  induction specs generalizing next with
  | nil => rfl
  | cons spec specs ih =>
    rw [cons_append, lower, ih, lower, map_cons, sum_cons, cons_append, Nat.add_assoc]

end Lower

namespace GraphLog

variable {Id N E Value : Type} [DecidableEq Id] [Identified N Id] {g : GraphLog Id N E Value}

theorem applyEdits_counted (specs : List (EditSpec Id N E Value)) :
    (lower g.writer g.nextEdge specs).foldl applyEdit
        (g.stamped (g.nextEdge + (connectIds (lower g.writer g.nextEdge specs)).length) g.log) =
      (lower g.writer g.nextEdge specs).foldl applyEdit g := by
  rw [applyEdits_stamped, ← max_frontier_lower, max_assoc, max_self, ← applyEdits_nextEdge]
  exact congrArg (stamped _ _) (applyEdits_log _).symm

variable {specs : List (EditSpec Id N E Value)} (author : Author)

theorem commitBatch_ok {shadow : Shadow Id}
    (h : g.precheck specs = .ok shadow) : g.commitBatch author g.revision specs =
      (.ok ⟨g.revision, connectIds (lower g.writer g.nextEdge specs)⟩,
        g.extended author (lower g.writer g.nextEdge specs)) := by
  have happlied := congrArg (fun applied : GraphLog Id N E Value =>
    ((.ok ⟨applied.log.nextSeq, connectIds (lower g.writer g.nextEdge specs)⟩,
      { applied with log := applied.log.append ⟨author, lower g.writer g.nextEdge specs⟩ }) :
        Except (CommitError Id) Committed × GraphLog Id N E Value)) (applyEdits_counted (g := g) specs)
  unfold commitBatch
  rw [if_neg (not_not.mpr rfl), h]
  refine happlied.trans ?_
  simp only [applyEdits_log]
  rfl

theorem commitBatch_error {refusal : CommitError Id} (h : g.precheck specs = .error refusal) :
    g.commitBatch author g.revision specs = (.error refusal, g) := by
  unfold commitBatch
  rw [if_neg (not_not.mpr rfl), h]

theorem commitBatch_conflict {expected : Nat} (specs : List (EditSpec Id N E Value))
    (h : expected ≠ g.revision) :
    g.commitBatch author expected specs = (.error (.revisionConflict g.revision), g) :=
  if_pos h

theorem commitBatch_cases (expected : Nat) (specs : List (EditSpec Id N E Value)) :
    (∃ refusal, g.commitBatch author expected specs = (.error refusal, g)) ∨
      (∃ shadow, g.precheck specs = .ok shadow) ∧ g.commitBatch author expected specs =
        (.ok ⟨g.revision, connectIds (lower g.writer g.nextEdge specs)⟩,
          g.extended author (lower g.writer g.nextEdge specs)) := by
  by_cases hrev : expected = g.revision
  · subst hrev
    cases h : g.precheck specs with
    | error refusal => exact .inl ⟨refusal, commitBatch_error author h⟩
    | ok shadow => exact .inr ⟨⟨shadow, rfl⟩, commitBatch_ok author h⟩
  · exact .inl ⟨_, commitBatch_conflict author specs hrev⟩

theorem submit_writer (submission : Submission Id N E Value) :
    (g.submit submission).writer = g.writer := by
  unfold GraphLog.submit
  rcases commitBatch_cases (g := g) submission.author submission.expected submission.specs with
    ⟨_, heq⟩ | ⟨_, heq⟩
  · rw [heq]
  · rw [heq]
    exact applyEdits_writer _

/-! ## Logs that commits make -/

variable (g) in
/-- The log holds what a replay of its journal gives, and its counter is the journal's. -/
structure Sound : Prop where
  indexed : g.Indexed
  distinct : (connectIds (editsOf g.log.entries)).Nodup
  replayed : g.view = View.empty.applyAll (editsOf g.log.entries)
  counted : g.nextEdge = frontier g.writer (editsOf g.log.entries)

theorem Sound.journaled (h : g.Sound) {e : EdgeId} (he : (g.view.edges e).isSome) :
    e ∈ connectIds (editsOf g.log.entries) := by
  by_contra hnot
  rw [h.replayed, View.edges_applyAll_eq_none rfl hnot] at he
  cases he

theorem Sound.fresh (h : g.Sound) (specs : List (EditSpec Id N E Value)) :
    ∀ e ∈ connectIds (lower g.writer g.nextEdge specs), e ∉ connectIds (editsOf g.log.entries) := by
  intro e he hold
  obtain ⟨hw, hle, _⟩ := mem_connectIds_lower he
  have := (frontier_le_iff g.writer _ _).mp h.counted.ge e hold hw
  omega

theorem Sound.fresh_view (h : g.Sound) (specs : List (EditSpec Id N E Value)) :
    g.view.Fresh (lower g.writer g.nextEdge specs) := by
  refine ⟨nodup_connectIds_lower _ _ _, fun e he => ?_⟩
  rw [h.replayed]
  exact View.edges_applyAll_eq_none rfl (h.fresh specs e he)

theorem editsOf_extended (edits : List (GraphEdit Id N E Value)) :
    editsOf (g.extended author edits).log.entries = editsOf g.log.entries ++ edits := by
  change editsOf (g.log.entries ++ [⟨author, edits⟩]) = _
  simp [editsOf]

theorem Sound.extended (h : g.Sound) (author : Author) :
    (g.extended author (lower g.writer g.nextEdge specs)).Sound := by
  have hrun := h.indexed.applyEdits (h.fresh_view specs)
  refine ⟨hrun.1.congr rfl rfl rfl, ?_, ?_, ?_⟩
  · rw [editsOf_extended, connectIds_append]
    refine List.Nodup.append h.distinct (nodup_connectIds_lower _ _ _) ?_
    intro e hold hnew
    exact h.fresh specs e hnew hold
  · rw [editsOf_extended, View.applyAll_append, ← h.replayed]
    exact hrun.2
  · rw [editsOf_extended]
    change (List.foldl applyEdit g _).nextEdge = frontier (List.foldl applyEdit g _).writer _
    rw [applyEdits_nextEdge, applyEdits_writer, frontier_append, ← h.counted]

theorem Sound.commitBatch (h : g.Sound) (author : Author) (expected : Nat)
    (specs : List (EditSpec Id N E Value)) : (g.commitBatch author expected specs).2.Sound := by
  rcases commitBatch_cases (g := g) author expected specs with ⟨_, heq⟩ | ⟨_, heq⟩
  · rw [heq]
    exact h
  · rw [heq]
    exact h.extended author

theorem Sound.submitAll (h : g.Sound) (submissions : List (Submission Id N E Value)) :
    (g.submitAll submissions).Sound := by
  induction submissions generalizing g with
  | nil => exact h
  | cons submission submissions ih => exact ih (h.commitBatch _ _ _)

theorem sound_replayForWriter {log : Journal (Batch Id N E Value)} (writer : WriterId)
    (h : (connectIds (editsOf log.entries)).Nodup) : (replayForWriter log writer).Sound := by
  obtain ⟨hindexed, hview⟩ := replayForWriter_spec writer h
  obtain ⟨hwriter, hnext⟩ := replayForWriter_counter log writer
  refine ⟨hindexed, h, hview, ?_⟩
  rw [hwriter, hnext]
  rfl

theorem sound_empty : ({} : GraphLog Id N E Value).Sound :=
  have hnil : (connectIds (editsOf ({} : Journal (Batch Id N E Value)).entries)).Nodup := nodup_nil
  sound_replayForWriter localWriter hnil

end GraphLog

end Mere.Chartulary
