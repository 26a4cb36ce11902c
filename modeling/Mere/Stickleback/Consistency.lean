import Mere.Stickleback.Import

/-!
# Consistent indexes

Whole runs of a store: what the processor takes in, and what is pruned and deleted by hand.
-/

namespace Mere.Stickleback

open MunimentStore

variable {E L : Type} [LinearOrder L]

/-! ## Calls -/

inductive Intake (E : Type)
  | process (op : Operation E)
  | importDrop (drop : Bytes32) (records : List (DropRecord E))
  | resumeDrop (drop : Bytes32) (limits : DropLimits E)

inductive Call (E L : Type)
  | intake (policy : Policy E L) (given : Intake E)
  | discardDrop (drop : Bytes32)
  | pruneEntries (author : Bytes32) (logId : L) (untilSeq : Nat)
  | deleteOperation (id : Bytes32)
  | deletePayload (id : Bytes32)

variable (digest : Str → Bytes32) (policy : Policy E L) (b : MunimentStore E L)

def Intake.run : Intake E → MunimentStore E L
  | .process op => (MunimentStore.process digest policy b op).2
  | .importDrop drop records => (importDropRecords digest b policy drop records).2
  | .resumeDrop drop limits => (resumeStagedDrop digest b policy drop limits).2

def Intake.accepted : Intake E → List (Operation E × Admission L)
  | .process op => acceptedOf digest policy b op
  | .importDrop drop records => acceptedOfDrop digest policy b drop records
  | .resumeDrop drop limits => acceptedOfStaged digest policy b drop limits

def Call.run : Call E L → MunimentStore E L
  | .intake policy given => given.run digest policy b
  | .discardDrop drop => discardStagedDrop b drop
  | .pruneEntries author logId untilSeq => (MunimentStore.pruneEntries b author logId untilSeq).1
  | .deleteOperation id => (MunimentStore.deleteOperation b id).1
  | .deletePayload id => (deleteOperationPayload b id).1

/-- Distinct operations have distinct hashes: a hash is of the header that `headerOf` has for it. -/
def Intake.Known (headerOf : Bytes32 → Header E) : Intake E → Prop
  | .process op => headerOf op.header.hash = op.header
  | .importDrop _ records => ∀ record ∈ records, record.Known headerOf
  | .resumeDrop _ _ => True

def Call.Known (headerOf : Bytes32 → Header E) : Call E L → Prop
  | .intake _ given => given.Known headerOf
  | _ => True

/-- A single operation prunes nothing that it erases a body of. -/
def Intake.Tidy : Intake E → Prop
  | .process op => ∀ admission, policy op = .ok admission → Stickleback.Tidy (Backend.get b) op admission
  | _ => True

def Call.Tidy : Call E L → Prop
  | .intake policy given => given.Tidy policy b
  | _ => True

/-- Pointers and log entries lead to each other. -/
structure Consistent (b : MunimentStore E L) : Prop where
  pointer : ∀ id place, Backend.get b (.op id) = some place → ∃ header body,
    Backend.get b (.log place) = some (header, body) ∧ header.hash = id ∧
      header.place place.logId = place
  pointed : ∀ place header body, Backend.get b (.log place) = some (header, body) →
    Backend.get b (.op header.hash) = some place

/-! ## Runs -/

section Runs

variable {digest policy b} {headerOf : Bytes32 → Header E}

theorem intake_advances (hsound : Sound headerOf (Backend.get b))
    (hstaged : Staged (DropRecord.Known headerOf) (Backend.get b)) {given : Intake E}
    (hknown : given.Known headerOf) :
    Advances digest policy b (given.run digest policy b) (given.accepted digest policy b)
      (given.Tidy policy b ∧ Indexed headerOf (Backend.get b)) (DropRecord.Known headerOf) := by
  cases given with
  | process op => exact (process_advances hsound hknown).mono And.left fun _ => False.elim
  | importDrop drop records => exact (import_advances hsound hknown).mono And.right hknown
  | resumeDrop drop limits => exact (resume_advances hsound hstaged).mono And.right fun _ => id

theorem known_accepted (hsound : Sound headerOf (Backend.get b))
    (hstaged : Staged (DropRecord.Known headerOf) (Backend.get b)) {given : Intake E}
    (hknown : given.Known headerOf) :
    ∀ e ∈ given.accepted digest policy b, headerOf e.1.header.hash = e.1.header := by
  intro e he
  cases given with
  | process op =>
    rw [mem_acceptedOf he]
    exact hknown
  | importDrop drop records =>
    obtain ⟨body, hrecord⟩ := mem_acceptedOfDrop hsound he
    exact hknown _ hrecord _ body rfl
  | resumeDrop drop limits => exact mem_acceptedOfStaged hsound hstaged he

/-- A call that prunes or deletes by hand may remove, and nothing else. -/
def handScope : Scope E L :=
  ⟨fun _ _ => False, fun _ => True, fun _ _ => False, fun _ => False, fun _ => False⟩

theorem moves_hand (hsound : Sound headerOf (Backend.get b)) {call : Call E L}
    (hcall : ∀ policy given, call ≠ .intake policy given) :
    Moves handScope (Backend.get b) (Backend.get (call.run digest b)) := by
  cases call with
  | intake policy given => exact absurd rfl (hcall policy given)
  | discardDrop drop => exact moves_discard
  | pruneEntries author logId untilSeq =>
    unfold Call.run pruneEntries
    rw [Backend.get_apply]
    refine moves_prune nodup_prunedPlaces (fun _ _ => trivial) fun place hplace => ?_
    obtain ⟨⟨header, body⟩, hentry⟩ :=
      Option.ne_none_iff_exists'.mp (MunimentStore.mem_prunedPlaces.mp hplace).1
    exact ⟨header, body, hentry, .inl ⟨body, hentry⟩⟩
  | deleteOperation id => exact moves_deleteOperation hsound fun _ => trivial
  | deletePayload id => exact moves_deleteOperationPayload hsound

theorem moves_call (hsound : Sound headerOf (Backend.get b))
    (hstaged : Staged (DropRecord.Known headerOf) (Backend.get b)) {call : Call E L}
    (hknown : call.Known headerOf) :
    ∃ scope : Scope E L, scope.Known headerOf ∧
      (∀ record, scope.stages record → record.Known headerOf) ∧
      (call.Tidy b → Indexed headerOf (Backend.get b) → scope.Clean) ∧
      Moves scope (Backend.get b) (Backend.get (call.run digest b)) := by
  by_cases hcall : ∀ policy given, call ≠ .intake policy given
  · exact ⟨handScope, ⟨fun _ _ => False.elim, fun _ _ => False.elim, fun _ => False.elim⟩,
      fun _ => False.elim, fun _ _ => ⟨fun _ _ => id, fun _ => id⟩, moves_hand hsound hcall⟩
  · push Not at hcall
    obtain ⟨policy, given, rfl⟩ := hcall
    exact ⟨_, known_callScope hsound (known_accepted hsound hstaged hknown), fun _ => id,
      fun htidy hindexed => clean_callScope ⟨htidy, hindexed⟩,
      (intake_advances hsound hstaged hknown).moves⟩

/-- What holds in every state, tidy or not. -/
structure Grounded (headerOf : Bytes32 → Header E) (b : MunimentStore E L) : Prop where
  sound : Sound headerOf (Backend.get b)
  staged : Staged (DropRecord.Known headerOf) (Backend.get b)

theorem Grounded.call (h : Grounded headerOf b) {call : Call E L} (hknown : call.Known headerOf) :
    Grounded headerOf (call.run digest b) := by
  obtain ⟨scope, hscope, hstages, -, hmoves⟩ :=
    @moves_call _ _ _ digest b headerOf h.sound h.staged call hknown
  exact ⟨h.sound.moves hmoves hscope, h.staged.moves hmoves hstages⟩

theorem grounded_empty : Grounded headerOf (∅ : MunimentStore E L) :=
  ⟨(indexed_empty headerOf).toSound, nofun⟩

/-- What holds in every state of a tidy run. -/
structure Kept (headerOf : Bytes32 → Header E) (b : MunimentStore E L) : Prop where
  indexed : Indexed headerOf (Backend.get b)
  staged : Staged (DropRecord.Known headerOf) (Backend.get b)

theorem Kept.call (h : Kept headerOf b) {call : Call E L} (hknown : call.Known headerOf)
    (htidy : call.Tidy b) : Kept headerOf (call.run digest b) := by
  obtain ⟨scope, hscope, hstages, hclean, hmoves⟩ :=
    @moves_call _ _ _ digest b headerOf h.indexed.toSound h.staged call hknown
  exact ⟨h.indexed.moves hmoves hscope (hclean htidy h.indexed), h.staged.moves hmoves hstages⟩

theorem Kept.consistent (h : Kept headerOf b) : Consistent b := by
  refine ⟨fun id place hid => ?_, h.indexed.pointed⟩
  obtain ⟨header, body, hplace, hhash⟩ := h.indexed.pointer id place hid
  exact ⟨header, body, hplace, hhash, h.indexed.placed place header body hplace⟩

theorem kept_empty : Kept headerOf (∅ : MunimentStore E L) :=
  ⟨indexed_empty headerOf, nofun⟩

/-- What an accepted operation leaves is consistent just when it prunes nothing that it erases. -/
theorem Kept.process_iff (h : Kept headerOf b) {op : Operation E} {admission : Admission L}
    (hknown : headerOf op.header.hash = op.header)
    (haccepted : acceptedOf digest policy b op = [(op, admission)]) :
    Consistent (process digest policy b op).2 ↔ Tidy (Backend.get b) op admission := by
  obtain ⟨hjudged, hnew, hcontinues⟩ := acceptedOf_ok haccepted
  constructor
  · intro hconsistent
    by_contra huntidy
    rw [process_of_accepted haccepted] at hconsistent
    obtain ⟨place, header, body, hplace, hnone⟩ := orphan_commit h.indexed.toSound hknown
      (admissible_single h.indexed.toSound hjudged hnew hcontinues) hnew huntidy
    rw [hconsistent.pointed place header body hplace] at hnone
    cases hnone
  · intro htidy
    have hgiven : (Intake.process op).Tidy policy b := by
      intro admission' hpolicy
      rw [(preflight_ok hjudged).2] at hpolicy
      cases hpolicy
      exact htidy
    have hkept : Kept headerOf ((Call.intake policy (.process op)).run digest b) :=
      h.call hknown hgiven
    exact hkept.consistent

end Runs

/-- The states of a store that is called one call after the other from empty. -/
abbrev Reached (digest : Str → Bytes32) (headerOf : Bytes32 → Header E) :
    MunimentStore E L → Prop :=
  Reach ∅ (fun b call => some (Call.run digest b call))
    fun b call => call.Known headerOf ∧ call.Tidy b

theorem kept_of_reached {digest : Str → Bytes32} {headerOf : Bytes32 → Header E}
    {b : MunimentStore E L} (h : Reached digest headerOf b) : Kept headerOf b :=
  h.invariant kept_empty fun _ _ _ hkept hallowed hstep => by
    cases hstep
    exact hkept.call hallowed.1 hallowed.2

/-- In every run whose calls are tidy the indexes are consistent in every state, and an admission
that prunes leaves nothing of its log below it. One operation that is not tidy breaks them. -/
theorem indexes_consistent (digest : Str → Bytes32) (headerOf : Bytes32 → Header E)
    (b : MunimentStore E L) (h : Reached digest headerOf b) :
    Consistent b ∧
      (∀ policy (given : Intake E), given.Known headerOf → given.Tidy policy b →
        ∀ e ∈ given.accepted digest policy b, e.2.history.prunes = true →
          ∀ place : LogKey L, place.Below (placeOf e) →
            Backend.get (given.run digest policy b) (.log place) = none) ∧
      ∀ policy op admission, headerOf op.header.hash = op.header →
        acceptedOf digest policy b op = [(op, admission)] →
        (Consistent (process digest policy b op).2 ↔
          Tidy (Backend.get b) op admission) := by
  have hkept := kept_of_reached h
  refine ⟨hkept.consistent, fun policy given hknown htidy => ?_,
    fun policy op admission hknown haccepted => hkept.process_iff hknown haccepted⟩
  exact (intake_advances hkept.indexed.toSound hkept.staged hknown).pruned ⟨htidy, hkept.indexed⟩

/-! ## One operation that prunes what it erases -/

/-- The operations of one author: the first has a body, and the second prunes and erases it. -/
def written : Operation Unit := ⟨1, ⟨0, 0, none, some 9, 1, (), 1, true⟩, some [7]⟩

def purging : Operation Unit := ⟨2, ⟨0, 1, some 1, none, 0, (), 2, true⟩, none⟩

def purgePolicy : Policy Unit Nat := fun op =>
  .ok {
    target := ⟨0, 0⟩
    history := if op.hash = 2 then .pruneBeforeCurrent else .keep
    erasePayloads := if op.hash = 2 then [1] else [] }

def purgeHeaders (id : Bytes32) : Header Unit := if id = 1 then written.header else purging.header

def writtenStore : MunimentStore Unit Nat :=
  (MunimentStore.process (fun _ => 9) purgePolicy ∅ written).2

theorem reached_writtenStore : Reached (fun _ => 9) purgeHeaders writtenStore := by
  refine .next (a := .intake purgePolicy (.process written)) .start ⟨rfl, ?_⟩ rfl
  intro admission hpolicy hprunes
  cases hpolicy
  cases hprunes

theorem indexes_consistent_written : Consistent writtenStore ∧
    ¬Tidy (Backend.get writtenStore) purging ⟨⟨0, 0⟩, .pruneBeforeCurrent, [1]⟩ := by
  have h := indexes_consistent (fun _ => 9) purgeHeaders writtenStore reached_writtenStore
  refine ⟨h.1, fun htidy => ?_⟩
  exact htidy rfl 1 List.mem_cons_self ⟨0, 0, 0⟩ written.header [7] rfl rfl
    ⟨rfl, rfl, Nat.zero_lt_one⟩

theorem purging_orphans :
    (process (fun _ => 9) purgePolicy writtenStore purging).1 = .ok (.inserted 1 1) ∧
      ¬Consistent (process (fun _ => 9) purgePolicy writtenStore purging).2 ∧
      Backend.get (process (fun _ => 9) purgePolicy writtenStore purging).2
        (.log ⟨0, 0, 0⟩) ≠ none := by
  have horphan : Backend.get (process (fun _ => 9) purgePolicy writtenStore purging).2
      (.log ⟨0, 0, 0⟩) = some (written.header, none) := by decide +kernel
  have hpointer : Backend.get (process (fun _ => 9) purgePolicy writtenStore purging).2
      (.op 1) = none := by decide +kernel
  refine ⟨by decide +kernel, fun h => ?_, by exact Option.some_ne_none _⟩
  have hpointed := h.pointed _ _ _ horphan
  cases hpointed

end Mere.Stickleback
