import Mere.Stickleback.Consistency

/-!
# Erased payloads

An operation that is held when its payload is erased keeps its header and never has a body again.
-/

namespace Mere.Stickleback

open List Option

variable {E L : Type} [LinearOrder L]

def Settles (id : Bytes32) (logId : L) (policy : Policy E L) : Prop :=
  ∀ op admission, op.header.hash = id → policy op = .ok admission → admission.target.logId = logId

def intakes (digest : Str → Bytes32) (b : MunimentStore E L) (given : List (Policy E L × Intake E)) :
    MunimentStore E L :=
  given.foldl (fun b c => c.2.run digest c.1 b) b

def Reaches (v : Held E L) (place : LogKey L) : Prop :=
  ∃ place' : LogKey L, place'.author = place.author ∧ place'.logId = place.logId ∧
    place.seqNum ≤ place'.seqNum ∧ v (.log place') ≠ none

variable {digest : Str → Bytes32} {policy : Policy E L} {b b' : MunimentStore E L}
  {headerOf : Bytes32 → Header E} {accepted : List (Operation E × Admission L)} {tidy : Prop}
  {stages : DropRecord E → Prop} {place : LogKey L} {id : Bytes32}

/-! ## Logs go on -/

variable {e : Operation E × Admission L} {given : Intake E}

theorem Advances.kept_last (h : Advances digest policy b b' accepted tidy stages)
    (he : e ∈ accepted) : Reaches (Backend.get b') (placeOf e) := by
  classical
  -- One of the accepted operations of the log is the highest, and no other prunes it.
  have hself : e ∈ (accepted.filter fun e' => (placeOf e').author = (placeOf e).author ∧
      (placeOf e').logId = (placeOf e).logId).toFinset := by
    simp [he]
  obtain ⟨top, htop, hmax⟩ := Finset.exists_max_image _ (fun e' => (placeOf e').seqNum) ⟨e, hself⟩
  simp only [List.mem_toFinset, List.mem_filter, decide_eq_true_eq] at htop hmax
  refine ⟨placeOf top, htop.2.1, htop.2.2, hmax e ⟨he, rfl, rfl⟩, h.kept top htop.1 ?_⟩
  rintro ⟨e', he', -, hauthor, hlog, hlt⟩
  have hle := hmax e' ⟨he', hauthor.symm.trans htop.2.1, hlog.symm.trans htop.2.2⟩
  exact absurd hlt (Nat.not_lt.mpr hle)

theorem Reaches.advance (h : Reaches (Backend.get b) place)
    (hadvances : Advances digest policy b b' accepted tidy stages) :
    Reaches (Backend.get b') place := by
  obtain ⟨place', hauthor, hlog, hle, hplace⟩ := h
  by_cases hremoved : (callScope (Backend.get b) accepted tidy stages).removes place'
  · -- What prunes an entry is above it.
    obtain ⟨e, he, -, hbelow⟩ := hremoved
    obtain ⟨top, hauthor', hlog', hle', htop⟩ := hadvances.kept_last he
    exact ⟨top, hauthor'.trans (hbelow.1.symm.trans hauthor),
      hlog'.trans (hbelow.2.1.symm.trans hlog), hle.trans (hbelow.2.2.le.trans hle'), htop⟩
  · exact ⟨place', hauthor, hlog, hle, Moves.log_ne_none hadvances.moves hplace hremoved⟩

/-! ## Erased once -/

/-- The operation was erased when it was held at `place`. -/
structure Gone (headerOf : Bytes32 → Header E) (id : Bytes32) (place : LogKey L)
    (b : MunimentStore E L) : Prop extends Grounded headerOf b where
  placed : (headerOf id).place place.logId = place
  erased : Erased (Backend.get b) id
  reaches : Reaches (Backend.get b) place

theorem Gone.intake (h : Gone headerOf id place b)
    (hknown : given.Known headerOf) (hsettles : Settles id place.logId policy) :
    Gone headerOf id place (given.run digest policy b) := by
  have hadvances : Advances digest policy b (given.run digest policy b) _ _ _ :=
    intake_advances h.sound h.staged hknown
  have haccepted : ∀ e ∈ given.accepted digest policy b, headerOf e.1.header.hash = e.1.header :=
    known_accepted h.sound h.staged hknown
  have hgrounded : Grounded headerOf ((Call.intake policy given).run digest b) :=
    h.toGrounded.call hknown
  refine ⟨hgrounded, h.placed, h.erased.moves hadvances.moves h.sound
    (known_callScope h.sound haccepted) ?_, h.reaches.advance hadvances⟩
  -- The operation is not inserted again: its place is below what its log holds.
  rintro place' header ⟨e, he, rfl, -⟩ hid
  have hlogId := hsettles e.1 e.2 hid (preflight_ok (hadvances.admissible.judged e he)).2
  have hplace : placeOf e = place := by
    rw [placeOf, ← haccepted e he, hid, hlogId, h.placed]
  obtain ⟨top, hauthor, hlog, hle, htop⟩ := h.reaches
  have hbelow := hadvances.admissible.above e he top htop
    (hauthor.trans (congrArg LogKey.author hplace.symm))
    (hlog.trans (congrArg LogKey.logId hplace.symm))
  have hlt : top.seqNum < place.seqNum := hplace ▸ hbelow.2.2
  exact absurd hlt (Nat.not_lt.mpr hle)

theorem Gone.intakes (h : Gone headerOf id place b) {given : List (Policy E L × Intake E)}
    (hgiven : ∀ c ∈ given, c.2.Known headerOf ∧ Settles id place.logId c.1) :
    Gone headerOf id place (intakes digest b given) := by
  induction given generalizing b with
  | nil => exact h
  | cons c rest ih =>
    obtain ⟨hknown, hsettles⟩ := hgiven c mem_cons_self
    exact ih (h.intake hknown hsettles) fun c' hc' => hgiven c' (mem_cons_of_mem _ hc')

theorem gone_of_erased (h : Grounded headerOf b) (hknown : given.Known headerOf)
    {before after : List (Operation E × Admission L)}
    (haccepted : given.accepted digest policy b = before ++ e :: after)
    (hid : id ∈ e.2.erasePayloads)
    (hheld : Backend.get b (.op id) = some place ∨
      ∃ e' ∈ before, e'.1.header.hash = id ∧ placeOf e' = place) :
    Gone headerOf id place (given.run digest policy b) := by
  have hadvances : Advances digest policy b (given.run digest policy b) _ _ _ :=
    intake_advances h.sound h.staged hknown
  have hgrounded : Grounded headerOf ((Call.intake policy given).run digest b) := h.call hknown
  refine ⟨hgrounded, ?_, hadvances.erased before e after haccepted id hid ?_, ?_⟩
  · rcases hheld with hheld | ⟨e', he', rfl, rfl⟩
    · obtain ⟨header, body, hplace, rfl⟩ := h.sound.pointer id place hheld
      rw [h.sound.known place header body hplace]
      exact h.sound.placed place header body hplace
    · rw [known_accepted h.sound h.staged hknown e' (haccepted ▸ mem_append_left _ he')]
      rfl
  · rcases hheld with hheld | ⟨e', he', hhash, -⟩
    · exact .inl (by rw [hheld]; exact some_ne_none _)
    · exact .inr ⟨e', he', hhash⟩
  · rcases hheld with hheld | ⟨e', he', -, rfl⟩
    · obtain ⟨header, body, hplace, -⟩ := h.sound.pointer id place hheld
      have hreaches : Reaches (Backend.get b) place :=
        ⟨place, rfl, rfl, le_rfl, by rw [hplace]; exact some_ne_none _⟩
      exact hreaches.advance hadvances
    · refine hadvances.kept_last ?_
      rw [haccepted]
      exact mem_append_left _ he'

theorem Erased.getOperation (h : Erased (Backend.get b) id) {op : Operation E}
    (hop : MunimentStore.getOperation b id = some op) : op.body = none := by
  obtain ⟨place, hid, hop⟩ := bind_eq_some_iff.mp hop
  obtain ⟨⟨header, body⟩, hentry, rfl⟩ := map_eq_some_iff.mp hop
  exact h.bodiless place header body hid hentry

/-- Once an operation that is held at `place` has its payload erased, in a call of any store that was
built by calls of any kind, nothing that is taken in later gives it a body again, as long as the
policies leave it in its log. -/
theorem erasure_is_final (digest : Str → Bytes32) (headerOf : Bytes32 → Header E)
    (b : MunimentStore E L)
    (hb : Reach ∅ (fun b call => some (Call.run digest b call)) (fun _ call => call.Known headerOf) b)
    (policy : Policy E L) (given : Intake E) (hknown : given.Known headerOf)
    (before after : List (Operation E × Admission L)) (e : Operation E × Admission L)
    (haccepted : given.accepted digest policy b = before ++ e :: after) (id : Bytes32)
    (hid : id ∈ e.2.erasePayloads) (place : LogKey L)
    (hheld : Backend.get b (.op id) = some place ∨
      ∃ e' ∈ before, e'.1.header.hash = id ∧ placeOf e' = place)
    (later : List (Policy E L × Intake E))
    (hlater : ∀ c ∈ later, c.2.Known headerOf ∧ Settles id place.logId c.1) (op : Operation E)
    (hop : MunimentStore.getOperation (intakes digest (given.run digest policy b) later) id = some op) :
    op.body = none := by
  have hgrounded : Grounded headerOf b := hb.invariant grounded_empty fun _ _ _ h hcall hstep => by
    cases hstep
    exact h.call hcall
  have hgone := gone_of_erased hgrounded hknown haccepted hid hheld
  exact (hgone.intakes hlater).erased.getOperation hop

/-! ## Erased before it comes -/

def erasing : Operation Unit := ⟨2, ⟨1, 0, none, none, 0, (), 2, true⟩, none⟩

def erasePolicy : Policy Unit Nat := fun op =>
  .ok { target := ⟨0, 0⟩, erasePayloads := if op.hash = 2 then [1] else [] }

def eraseHeaders (id : Bytes32) : Header Unit := if id = 1 then written.header else erasing.header

theorem erasure_is_final_repeated : ∃ op, MunimentStore.getOperation
    (intakes (fun _ => 9) ((Intake.process erasing).run (fun _ => 9) erasePolicy writtenStore)
      [(erasePolicy, .process written)]) 1 = some op ∧ op.body = none := by
  refine ⟨⟨1, written.header, none⟩, by decide +kernel, ?_⟩
  refine erasure_is_final (fun _ => 9) eraseHeaders writtenStore
    (.next (a := .intake purgePolicy (.process written)) .start rfl rfl) erasePolicy
    (.process erasing) rfl [] [] (erasing, ⟨⟨0, 0⟩, .keep, [1]⟩) rfl 1 mem_cons_self ⟨0, 0, 0⟩
    (.inl rfl) [(erasePolicy, .process written)] ?_ ⟨1, written.header, none⟩ (by decide +kernel)
  intro c hc
  obtain rfl := mem_singleton.mp hc
  refine ⟨rfl, fun op admission hid hpolicy => ?_⟩
  cases hpolicy
  rfl

theorem written_after_erasing : MunimentStore.getOperation
    (intakes (fun _ => 9) ((Intake.process erasing).run (fun _ => 9) erasePolicy ∅)
      [(erasePolicy, .process written)]) 1 = some written := by
  decide +kernel

end Mere.Stickleback
