import Mere.Stickleback.Advance

/-!
# What a batch does

Read through its plan, a batch does what its operations would do one after the other.
-/

namespace Mere.Stickleback

open MunimentStore List Option

variable {E L : Type} [DecidableEq L] {p : PlannedOperation E L}

def BatchPlan.view (plan : BatchPlan E L) (b : MunimentStore E L) : Held E L :=
  plan.writes.onto (Backend.get b)

theorem view_record {plan : BatchPlan E L} {b : MunimentStore E L} (writes : List (Write E L)) :
    (plan.record writes).view b = (plan.view b).sets writes :=
  Overlay.onto_foldl_record writes

/-! ## Plans -/

/-- An operation of the plan, as `u` will be when it is applied. -/
structure Planned (u v : Held E L) (id : Bytes32) (p : PlannedOperation E L) : Prop where
  pointer : p.pointer = .op id
  hash : p.header.hash = id
  payloadRef : p.payloadRef = p.header.payloadHash.map (.payloadRef · id)
  free : u (.log p.logKey) = none
  new : u (.op id) = none
  entry : ∃ body, v (.log p.logKey) = some (p.header, body) ∧ p.hasBody = body.isSome

omit [DecidableEq L] in
theorem Planned.of_log {u v v' : Held E L} {id : Bytes32}
    (h : Planned u v id p) (hlog : v' (.log p.logKey) = v (.log p.logKey)) : Planned u v' id p :=
  { h with entry := hlog ▸ h.entry }

structure Planning (b : MunimentStore E L) (done : List (Operation E × Admission L))
    (plan : BatchPlan E L) : Prop where
  source : ∀ id p, plan.planned.lookup id = some p →
    ∃ e ∈ done, e.1.header.hash = id ∧ placeOf e = p.logKey
  kept : ∀ place header body, Backend.get b (.log place) = some (header, body) →
    plan.view b (.log place) = none ∨ ∃ body', plan.view b (.log place) = some (header, body')
  planned : ∀ id p, plan.planned.lookup id = some p → Planned (Backend.get b) (plan.view b) id p
  byLog : ∀ place id, (place, id) ∈ plan.byLog ↔
    ∃ p, plan.planned.lookup id = some p ∧ p.logKey = place
  nodup : plan.byLog.Nodup
  logs : ∀ place, plan.view b (.log place) ≠ none → Backend.get b (.log place) ≠ none ∨
    ∃ id p, plan.planned.lookup id = some p ∧ p.logKey = place
  ops : ∀ id place, plan.view b (.op id) = some place → Backend.get b (.op id) = some place ∨
    ∃ p, plan.planned.lookup id = some p ∧ p.logKey = place

variable {headerOf : Bytes32 → Header E} {b : MunimentStore E L} {scope : Scope E L}
  {done : List (Operation E × Admission L)} {plan : BatchPlan E L}

omit [DecidableEq L] in
theorem Planned.forgetRef {u v : Held E L} {id : Bytes32} (h : Planned u v id p) :
    (p.payloadRef.toList.map .delete : List (Write E L)) =
      forgetRef p.header.payloadHash p.header.hash := by
  rw [h.payloadRef, h.hash]
  cases p.header.payloadHash <;> rfl

theorem Planning.planned_inj (h : Planning b done plan) {id id' : Bytes32}
    {p' : PlannedOperation E L} (hp : plan.planned.lookup id = some p)
    (hp' : plan.planned.lookup id' = some p') (heq : p'.logKey = p.logKey) : id' = id := by
  obtain ⟨body, hentry, -⟩ := (h.planned id p hp).entry
  obtain ⟨body', hentry', -⟩ := (h.planned id' p' hp').entry
  rw [heq, hentry] at hentry'
  have hheader : p.header = p'.header := (Prod.mk.inj (some.inj hentry')).1
  rw [← (h.planned id' p' hp').hash, ← (h.planned id p hp).hash, hheader]

/-- The plan with more of the batch in it. -/
structure Plans (scope : Scope E L) (b : MunimentStore E L)
    (done : List (Operation E × Admission L)) (plan plan' : BatchPlan E L) : Prop where
  moves : Moves scope (plan.view b) (plan'.view b)
  planning : Planning b done plan'

theorem Planning.record (h : Planning b done plan) {writes : List (Write E L)}
    (hmoves : Moves scope (plan.view b) ((plan.view b).sets writes))
    (hplanned : ∀ id p, plan.planned.lookup id = some p →
      (plan.view b).sets writes (.log p.logKey) = plan.view b (.log p.logKey))
    (hlog : ∀ place header body, (plan.view b).sets writes (.log place) = some (header, body) →
      ∃ body', plan.view b (.log place) = some (header, body'))
    (hop : ∀ id place, (plan.view b).sets writes (.op id) = some place →
      plan.view b (.op id) = some place) : Plans scope b done plan (plan.record writes) := by
  refine ⟨by rwa [view_record], h.source, fun place header body hplace => ?_, fun id p hp => ?_,
    h.byLog, h.nodup, fun place hplace => ?_, fun id place hid => ?_⟩
  · rw [view_record]
    cases hafter : (plan.view b).sets writes (.log place) with
    | none => exact .inl rfl
    | some entry =>
      obtain ⟨body₁, hbefore⟩ := hlog place entry.1 entry.2 hafter
      rcases h.kept place header body hplace with hgone | ⟨body₂, hentry⟩
      · cases hgone.symm.trans hbefore
      · cases hentry.symm.trans hbefore
        exact .inr ⟨entry.2, rfl⟩
  · exact (h.planned id p hp).of_log (by rw [view_record, hplanned id p hp])
  · rw [view_record] at hplace
    obtain ⟨⟨header, body⟩, hafter⟩ := ne_none_iff_exists'.mp hplace
    obtain ⟨body', hbefore⟩ := hlog place header body hafter
    exact h.logs place (hbefore ▸ some_ne_none _)
  · rw [view_record] at hid
    exact h.ops id place (hop id place hid)

/-! ## Pruning -/

section Prune

variable {author : Bytes32} {logId : L} {untilSeq : Nat}
variable {place : LogKey L} {stale : LogKey L × Bytes32} {id : Bytes32}

variable (h : Planning b done plan)
include h

/-- What the store held and the batch has removed is led to by nothing, in a store that is indexed. -/
theorem Planning.remains (hindexed : Indexed headerOf (Backend.get b))
    (hv : Sound headerOf (plan.view b)) {header : Header E} {body : Option Str}
    (hplace : Backend.get b (.log place) = some (header, body))
    (hgone : plan.view b (.log place) = none) : plan.view b (.op header.hash) = none := by
  have hid := hindexed.pointed place header body hplace
  refine eq_none_iff_forall_ne_some.mpr fun place' hid' => ?_
  rcases h.ops header.hash place' hid' with hbefore | ⟨p, hp, -⟩
  · cases hid.symm.trans hbefore
    obtain ⟨header', body', hentry, -⟩ := hv.pointer _ _ hid'
    cases hgone.symm.trans hentry
  · cases (h.planned _ p hp).new.symm.trans hid

theorem Planning.prune_live
    (hremoves : ∀ place : LogKey L, place.author = author → place.logId = logId →
      place.seqNum < untilSeq → scope.removes place)
    (hremains : ∀ place header body, Backend.get b (.log place) = some (header, body) →
      plan.view b (.log place) = none →
      scope.unlinks header ∨ plan.view b (.op header.hash) = none) :
    Plans scope b done plan (plan.record (prefixPruneWrites b author logId untilSeq).1) := by
  have hheld : ∀ place ∈ prunedPlaces b author logId untilSeq,
      Backend.get b (.log place) ≠ none := fun p hp => (mem_prunedPlaces.mp hp).1
  refine h.record ?_ (fun id p hp => ?_) (fun place header body hplace => ?_) fun id place hid =>
    op_prune hheld hid
  · refine moves_prune nodup_prunedPlaces (fun place hplace => ?_) fun place hplace => ?_
    · obtain ⟨-, hauthor, hlog, hseq⟩ := mem_prunedPlaces.mp hplace
      exact hremoves place hauthor hlog hseq
    · obtain ⟨⟨header, body⟩, hentry⟩ := ne_none_iff_exists'.mp (hheld place hplace)
      refine ⟨header, body, hentry, ?_⟩
      rcases h.kept place header body hentry with hgone | hthere
      · exact .inr ⟨hgone, hremains place header body hentry hgone⟩
      · exact .inl hthere
  · exact (log_prune hheld _).trans (if_neg fun hmem => hheld _ hmem (h.planned id p hp).free)
  · unfold prefixPruneWrites at hplace
    rw [log_prune hheld] at hplace
    split_ifs at hplace
    exact ⟨body, hplace⟩

omit h in
theorem dropPlanned_eq
    (hp : plan.planned.lookup stale.2 = some p) :
    plan.dropPlanned stale =
      { plan.record ([.delete p.pointer, .delete (.log p.logKey)] ++ p.payloadRef.toList.map .delete) with
        planned := plan.planned.erase stale.2
        byLog := plan.byLog.filter (· ≠ stale) } := by
  unfold BatchPlan.dropPlanned
  rw [hp]

omit h in
theorem mem_byLog_drop
    (hp : plan.planned.lookup stale.2 = some p) (e : LogKey L × Bytes32) :
    e ∈ (plan.dropPlanned stale).byLog ↔ e ∈ plan.byLog ∧ e ≠ stale := by
  rw [dropPlanned_eq hp]
  simp only [mem_filter, decide_eq_true_eq]

theorem Planning.view_drop (hp : plan.planned.lookup id = some p) :
    (plan.dropPlanned (p.logKey, id)).view b = (plan.view b).sets (removal p.logKey p.header) := by
  have hplanned := h.planned id p hp
  rw [dropPlanned_eq hp, ← sets_deleteOperation, ← hplanned.forgetRef, hplanned.pointer,
    hplanned.hash]
  exact view_record _

theorem Planning.drop (hstale : (place, id) ∈ plan.byLog) (hremoves : scope.removes place) :
    Plans scope b done plan (plan.dropPlanned (place, id)) := by
  obtain ⟨p, hp, rfl⟩ := (h.byLog place id).mp hstale
  have hplanned := h.planned id p hp
  obtain ⟨body, hentry, -⟩ := hplanned.entry
  have hview := h.view_drop hp
  have hmove : Moves scope (plan.view b) ((plan.dropPlanned (p.logKey, id)).view b) := by
    rw [hview]
    exact .single (.remove hremoves hentry)
  have hlookup : ∀ id', (plan.dropPlanned (p.logKey, id)).planned.lookup id' =
      if id' = id then none else plan.planned.lookup id' := by
    intro id'
    rw [dropPlanned_eq hp]
    exact Table.lookup_erase_if plan.planned id id'
  refine ⟨hmove, fun id' p' hp' => ?_, fun place header body hbefore => ?_, fun id' p' hp' => ?_,
    fun place id' => ?_, ?_, fun place hheld => ?_, fun id' place hid' => ?_⟩
  · rw [hlookup] at hp'
    split_ifs at hp'
    exact h.source id' p' hp'
  · rw [hview, log_removal]
    split
    · exact .inl rfl
    · exact h.kept place header body hbefore
  · rw [hlookup] at hp'
    split_ifs at hp' with hne
    refine (h.planned id' p' hp').of_log ?_
    rw [hview, log_removal, if_neg fun heq => hne (h.planned_inj hp hp' heq)]
  · rw [mem_byLog_drop hp, h.byLog, hlookup]
    constructor
    · rintro ⟨⟨p', hp', rfl⟩, hne⟩
      have hid : id' ≠ id := by
        rintro rfl
        rw [hp] at hp'
        exact hne (by rw [some.inj hp'])
      exact ⟨p', by rw [if_neg hid, hp'], rfl⟩
    · rintro ⟨p', hp', rfl⟩
      split_ifs at hp' with hne
      exact ⟨⟨p', hp', rfl⟩, fun heq => hne (Prod.mk.inj heq).2⟩
  · rw [dropPlanned_eq hp]
    exact h.nodup.filter _
  · rw [hview, log_removal] at hheld
    split_ifs at hheld with hne
    · exact absurd rfl hheld
    · rcases h.logs place hheld with hbefore | ⟨id', p', hp', rfl⟩
      · exact .inl hbefore
      · refine .inr ⟨id', p', ?_, rfl⟩
        rw [hlookup, if_neg, hp']
        rintro rfl
        rw [hp] at hp'
        exact hne (by rw [some.inj hp'])
  · rw [hview, op_removal] at hid'
    split_ifs at hid' with hne
    refine (h.ops id' place hid').imp_right fun ⟨p', hp', heq⟩ => ⟨p', ?_, heq⟩
    rw [hlookup, if_neg, hp']
    rintro rfl
    exact hne hplanned.hash.symm

theorem Planning.drops {stale : List (LogKey L × Bytes32)}
    (hnodup : stale.Nodup) (hstale : ∀ e ∈ stale, e ∈ plan.byLog ∧ scope.removes e.1) :
    Plans scope b done plan (stale.foldl BatchPlan.dropPlanned plan) ∧
      (∀ e, e ∈ (stale.foldl BatchPlan.dropPlanned plan).byLog ↔ e ∈ plan.byLog ∧ e ∉ stale) ∧
      ∀ place, plan.view b (.log place) = none →
        (stale.foldl BatchPlan.dropPlanned plan).view b (.log place) = none := by
  induction stale generalizing plan with
  | nil => exact ⟨⟨.refl, h⟩, fun e => by simp, fun _ hnone => hnone⟩
  | cons e rest ih =>
    rw [List.nodup_cons] at hnodup
    obtain ⟨place, id⟩ := e
    obtain ⟨hmem, hremoves⟩ := hstale (place, id) List.mem_cons_self
    obtain ⟨hmove, hplanning⟩ := h.drop hmem hremoves
    obtain ⟨p, hp, rfl⟩ := (h.byLog place id).mp hmem
    have hbyLog : ∀ e, e ∈ (plan.dropPlanned (p.logKey, id)).byLog ↔
        e ∈ plan.byLog ∧ e ≠ (p.logKey, id) :=
      mem_byLog_drop hp
    obtain ⟨⟨hmoves, hend⟩, hleft, hgone⟩ := ih hplanning hnodup.2 fun e he => by
      obtain ⟨hmem', hremoves'⟩ := hstale e (List.mem_cons_of_mem _ he)
      exact ⟨(hbyLog e).mpr ⟨hmem', fun heq => hnodup.1 (heq ▸ he)⟩, hremoves'⟩
    refine ⟨⟨hmove.trans hmoves, hend⟩, fun e => ?_, fun place hnone => hgone place ?_⟩
    · rw [List.foldl_cons, hleft, hbyLog, List.mem_cons, not_or, and_assoc]
    · rw [h.view_drop hp, log_removal, hnone, ite_self]

theorem Planning.prune {entry : IndexedOperation E L}
    (hremoves : ∀ place : LogKey L, place.Below entry.place → scope.removes place)
    (hremains : ∀ place header body, Backend.get b (.log place) = some (header, body) →
      plan.view b (.log place) = none →
      scope.unlinks header ∨ plan.view b (.op header.hash) = none) :
    Plans scope b done plan (plan.planPruneWrites b entry) ∧
      ∀ place : LogKey L, place.Below entry.place →
        (plan.planPruneWrites b entry).view b (.log place) = none := by
  obtain ⟨hlive, hplanning⟩ := h.prune_live
    (fun place hauthor hlog hseq => hremoves place ⟨hauthor, hlog, hseq⟩) hremains
  have hstale : ∀ e, e ∈ (plan.record (prefixPruneWrites b
      entry.operation.header.verifyingKey entry.logId entry.operation.header.seqNum).1).stale
        entry.operation.header.verifyingKey entry.logId entry.operation.header.seqNum ↔
      e ∈ plan.byLog ∧ e.1.Below entry.place := by
    intro e
    unfold BatchPlan.stale
    rw [mem_filter, decide_eq_true_eq]
    exact Iff.rfl
  obtain ⟨⟨hmoves, hend⟩, hleft, hgone⟩ := hplanning.drops (hplanning.nodup.filter _) fun e he =>
    ⟨((hstale e).mp he).1, hremoves e.1 ((hstale e).mp he).2⟩
  refine ⟨⟨hlive.trans hmoves, hend⟩, fun place hbelow => ?_⟩
  by_contra hheld
  rcases hend.logs place hheld with hbefore | ⟨id, p, hp, rfl⟩
  · -- What the store holds there is removed first.
    refine hheld (hgone place ?_)
    rw [view_record]
    refine (log_prune (fun p hp => (mem_prunedPlaces.mp hp).1) place).trans (if_pos ?_)
    exact mem_prunedPlaces.mpr ⟨hbefore, hbelow⟩
  · have hmem := (hend.byLog p.logKey id).mpr ⟨p, hp, rfl⟩
    obtain ⟨hmem', hnot⟩ := (hleft _).mp hmem
    exact hnot ((hstale _).mpr ⟨hmem', hbelow⟩)

end Prune

/-! ## Erasing -/

section Erase

variable {id : Bytes32}
variable {place : LogKey L}

variable (h : Planning b done plan)
include h

theorem Planning.pointer {place' : LogKey L}
    (hnot : plan.planned.lookup id = none) (hid : Backend.get b (.op id) = some place)
    (hid' : plan.view b (.op id) = some place') : place' = place := by
  rcases h.ops id place' hid' with hbefore | ⟨p, hp, -⟩
  · exact some.inj (hbefore.symm.trans hid)
  · cases hnot.symm.trans hp

theorem Planning.strip {place : LogKey L} {header : Header E}
    {body : Option Str} (hplace : plan.view b (.log place) = some (header, body))
    (hother : ∀ id p, plan.planned.lookup id = some p → p.logKey ≠ place) :
    Plans scope b done plan (plan.record (stripping place header)) := by
  refine h.record (.single (.strip hplace)) (fun id p hp => ?_)
    (fun place' header' body' hafter => ?_) fun id place' hid => ?_
  · rw [log_stripping, if_neg (hother id p hp)]
  · rw [log_stripping] at hafter
    split_ifs at hafter with heq
    · cases hafter
      exact ⟨body, heq ▸ hplace⟩
    · exact ⟨body', hafter⟩
  · rwa [op_stripping] at hid

theorem Planning.forget {o : Option Bytes32} :
    Plans scope b done plan (plan.record (forgetRef o id)) := by
  refine h.record moves_forgetRef (fun id' p _ => log_forgetRef o)
    (fun place header body hplace => ⟨body, ?_⟩) fun id' place hid => ?_
  · rwa [log_forgetRef] at hplace
  · rwa [op_forgetRef] at hid

theorem Planning.erase_stored (hsound : Sound headerOf (Backend.get b))
    (hv : Sound headerOf (plan.view b)) (hnot : plan.planned.lookup id = none) :
    Plans scope b done plan (plan.eraseStored b id) ∧
      Erased ((plan.eraseStored b id).view b) id := by
  have hnone : plan.view b (.op id) = none →
      Plans scope b done plan plan ∧ Erased (plan.view b) id :=
    fun hid => ⟨⟨.refl, h⟩, erased_of_none hv hid⟩
  unfold BatchPlan.eraseStored logKeyFor
  cases hid : Backend.get b (.op id) with
  | none =>
    refine hnone (eq_none_iff_forall_ne_some.mpr fun place hid' => ?_)
    rcases h.ops id place hid' with hbefore | ⟨p, hp, -⟩
    · cases hid.symm.trans hbefore
    · cases hnot.symm.trans hp
  | some place =>
    obtain ⟨header, body₀, hstored, rfl⟩ := hsound.pointer id place hid
    simp only
    cases hplace : plan.writes.onto (Backend.get b) (.log place) with
    | none =>
      refine hnone (eq_none_iff_forall_ne_some.mpr fun place' hid' => ?_)
      obtain ⟨header', body', hentry, -⟩ := hv.pointer _ place' hid'
      rw [h.pointer hnot hid hid'] at hentry
      cases hplace.symm.trans hentry
    | some entry =>
      obtain ⟨header', body⟩ := entry
      have hentry : plan.view b (.log place) = some (header', body) := hplace
      have hheader : header' = header := by
        rcases h.kept place header body₀ hstored with hgone | ⟨body', hkept⟩
        · cases hgone.symm.trans hentry
        · cases hkept.symm.trans hentry
          rfl
      subst hheader
      have hother : ∀ id p, plan.planned.lookup id = some p → p.logKey ≠ place := by
        rintro id p hp rfl
        cases (h.planned id p hp).free.symm.trans hstored
      cases body with
      | none =>
        simp only [isSome_none, Bool.false_eq_true, if_false]
        refine ⟨h.forget, ?_⟩
        rw [view_record]
        exact erased_forgetRef hv hentry fun place' => h.pointer hnot hid
      | some bytes =>
        refine ⟨h.strip hentry hother, ?_⟩
        have herased := erased_stripping hv hentry fun place' => h.pointer hnot hid
        rw [← view_record] at herased
        exact herased

theorem Planning.planned_pointer (hp : plan.planned.lookup id = some p)
    (hid : plan.view b (.op id) = some place) : place = p.logKey := by
  rcases h.ops id place hid with hbefore | ⟨p', hp', rfl⟩
  · cases (h.planned id p hp).new.symm.trans hbefore
  · rw [some.inj (hp'.symm.trans hp)]

theorem Planning.strip_planned (hp : plan.planned.lookup id = some p) :
    Planning b done { plan.record (stripping p.logKey p.header) with
      planned := plan.planned.insert id { p with hasBody := false } } := by
  have hplanned := h.planned id p hp
  have hview : BatchPlan.view { plan.record (stripping p.logKey p.header) with
      planned := plan.planned.insert id { p with hasBody := false } } b =
      (plan.view b).sets (stripping p.logKey p.header) := view_record _
  have hlookup : ∀ id', (plan.planned.insert id { p with hasBody := false }).lookup id' =
      if id' = id then some { p with hasBody := false } else plan.planned.lookup id' :=
    fun id' => Table.lookup_insert_if plan.planned id id' _
  -- The operations planned, and where, are the same.
  have hsame : ∀ id' place, (∃ p', plan.planned.lookup id' = some p' ∧ p'.logKey = place) ↔
      ∃ p', (plan.planned.insert id { p with hasBody := false }).lookup id' = some p' ∧
        p'.logKey = place := by
    intro id' place
    rw [hlookup]
    by_cases heq : id' = id
    · subst heq
      simp [hp]
    · rw [if_neg heq]
  refine ⟨fun id' p' hp' => ?_, fun place header body' hplace => ?_, fun id' p' hp' => ?_,
    fun place id' => ?_, h.nodup, fun place hplace => ?_, fun id' place hid' => ?_⟩
  · obtain ⟨p₀, hp₀, heq⟩ := (hsame id' p'.logKey).mpr ⟨p', hp', rfl⟩
    exact heq ▸ h.source id' p₀ hp₀
  · rw [hview, log_stripping]
    split_ifs with heq
    · cases hplanned.free.symm.trans (heq ▸ hplace)
    · exact h.kept place header body' hplace
  · simp only [hlookup] at hp'
    rw [hview]
    split_ifs at hp' with heq
    · subst heq
      cases hp'
      exact { hplanned with entry := ⟨none, by rw [log_stripping, if_pos rfl], rfl⟩ }
    · refine (h.planned id' p' hp').of_log ?_
      rw [log_stripping, if_neg fun hsame => heq (h.planned_inj hp hp' hsame)]
  · exact (h.byLog place id').trans (hsame id' place)
  · rw [hview, log_stripping] at hplace
    split_ifs at hplace with heq
    · exact .inr ⟨id, (hsame id place).mp ⟨p, hp, heq.symm⟩⟩
    · rcases h.logs place hplace with hbefore | ⟨id', hin⟩
      · exact .inl hbefore
      · exact .inr ⟨id', (hsame id' place).mp hin⟩
  · rw [hview, op_stripping] at hid'
    exact (h.ops id' place hid').imp_right (hsame id' place).mp

theorem Planning.erase_planned (hv : Sound headerOf (plan.view b))
    (hp : plan.planned.lookup id = some p) :
    Plans scope b done plan (plan.erasePlanned id p) ∧
      Erased ((plan.erasePlanned id p).view b) id := by
  have hplanned := h.planned id p hp
  obtain ⟨body, hentry, hbody⟩ := hplanned.entry
  have hpointer : ∀ place, plan.view b (.op p.header.hash) = some place → place = p.logKey :=
    fun place hid => h.planned_pointer hp (hplanned.hash ▸ hid)
  unfold BatchPlan.erasePlanned
  rw [hplanned.forgetRef]
  split_ifs with hnone
  · have hview : BatchPlan.view { plan.record (stripping p.logKey p.header) with
        planned := plan.planned.insert id { p with hasBody := false } } b =
        (plan.view b).sets (stripping p.logKey p.header) := view_record _
    refine ⟨⟨?_, h.strip_planned hp⟩, ?_⟩
    · exact hview ▸ .single (.strip hentry)
    · have herased := hplanned.hash ▸ erased_stripping hv hentry hpointer
      exact hview ▸ herased
  · rw [hbody, Bool.not_eq_true, isSome_eq_false_iff, isNone_iff_eq_none] at hnone
    subst hnone
    refine ⟨h.forget, ?_⟩
    rw [view_record]
    have herased := erased_forgetRef hv hentry hpointer
    rwa [hplanned.hash] at herased ⊢

theorem Planning.erase (hsound : Sound headerOf (Backend.get b))
    (hv : Sound headerOf (plan.view b)) (id : Bytes32) :
    Plans scope b done plan (plan.planPayloadErasure b id) ∧
      Erased ((plan.planPayloadErasure b id).view b) id := by
  unfold BatchPlan.planPayloadErasure
  cases hp : plan.planned.lookup id with
  | some p => exact h.erase_planned hv hp
  | none =>
    simp only
    split
    · rename_i hdeleted
      refine ⟨⟨.refl, h⟩, erased_of_none hv ?_⟩
      unfold BatchPlan.view Overlay.onto
      rw [hdeleted]
      rfl
    · exact h.erase_stored hsound hv hp

theorem Planning.erases (hsound : Sound headerOf (Backend.get b))
    (hv : Sound headerOf (plan.view b)) (ids : List Bytes32) :
    (∀ scope, Moves scope (plan.view b)
        ((ids.foldl (fun plan id => plan.planPayloadErasure b id) plan).view b)) ∧
      Planning b done (ids.foldl (fun plan id => plan.planPayloadErasure b id) plan) ∧
      ∀ id ∈ ids, Erased ((ids.foldl (fun plan id => plan.planPayloadErasure b id) plan).view b) id := by
  induction ids generalizing plan with
  | nil => exact ⟨fun _ => .refl, h, nofun⟩
  | cons id rest ih =>
    have hfirst : ∀ scope, Moves scope (plan.view b) ((plan.planPayloadErasure b id).view b) :=
      fun _ => (h.erase hsound hv id).1.moves
    obtain ⟨⟨hquiet, hplanning⟩, hgone⟩ :=
      @Planning.erase _ _ _ _ _ Scope.empty _ _ h hsound hv id
    have hv' := hv.moves hquiet Scope.known_empty
    obtain ⟨hmoves, hend, herased⟩ := ih hplanning hv'
    refine ⟨fun scope => (hfirst scope).trans (hmoves scope), hend, fun id' hmem => ?_⟩
    rcases mem_cons.mp hmem with rfl | hmem
    · exact hgone.moves (hmoves Scope.empty) hv' Scope.known_empty fun _ _ => False.elim
    · exact herased id' hmem

end Erase

/-! ## Inserting -/

section Insert

variable {e : Operation E × Admission L}

theorem view_planOperation (hhash : e.1.hash = e.1.header.hash) :
    (plan.planOperation (indexed e)).view b =
      ((plan.view b).set (.put (.topic e.2.target.topic e.1.header.verifyingKey
        e.2.target.logId) ())).sets (insertion (placeOf e) e.1.header e.1.body) := by
  have hview : (plan.planOperation (indexed e)).view b = (plan.view b).sets
      (indexWrites e.2.target.topic e.1 e.2.target.logId) := view_record _
  rw [hview, indexWrites_eq hhash]
  rfl

theorem Planning.insert (h : Planning b done plan) (hhash : e.1.hash = e.1.header.hash)
    (hnew : Backend.get b (.op e.1.header.hash) = none)
    (hfree : Backend.get b (.log (placeOf e)) = none)
    (hother : ∀ e' ∈ done, e'.1.header.hash ≠ e.1.header.hash ∧ placeOf e' ≠ placeOf e)
    (hinserts : scope.inserts (placeOf e) e.1.header) :
    Plans scope b (done ++ [e]) plan (plan.planOperation (indexed e)) ∧
      ∀ place, (plan.planOperation (indexed e)).view b (.log place) =
        if place = placeOf e then some (e.1.header, e.1.body) else plan.view b (.log place) := by
  have haside : (WriteOp.put (.topic e.2.target.topic e.1.header.verifyingKey
      e.2.target.logId) () : Write E L).key.Aside := trivial
  have hlog : ∀ place, (plan.planOperation (indexed e)).view b (.log place) =
      if place = placeOf e then some (e.1.header, e.1.body) else plan.view b (.log place) := by
    intro place
    rw [view_planOperation hhash, log_insertion, (aside_set haside).1]
  have hop : ∀ id, (plan.planOperation (indexed e)).view b (.op id) =
      if id = e.1.header.hash then some (placeOf e) else plan.view b (.op id) := by
    intro id
    rw [view_planOperation hhash, op_insertion, (aside_set haside).2.1]
  have hbefore : ∀ id p, plan.planned.lookup id = some p →
      id ≠ e.1.header.hash ∧ p.logKey ≠ placeOf e := by
    intro id p hp
    obtain ⟨e', he', rfl, hplace⟩ := h.source id p hp
    exact hplace ▸ hother e' he'
  have hplace : plan.view b (.log (placeOf e)) = none := by
    by_contra hheld
    rcases h.logs _ hheld with hold | ⟨id, p, hp, heq⟩
    · exact hold hfree
    · exact (hbefore id p hp).2 heq
  have hid : plan.view b (.op e.1.header.hash) = none := by
    refine eq_none_iff_forall_ne_some.mpr fun place hid => ?_
    rcases h.ops _ place hid with hold | ⟨p, hp, -⟩
    · cases hnew.symm.trans hold
    · exact (hbefore _ p hp).1 rfl
  have hlookup : ∀ id, (plan.planOperation (indexed e)).planned.lookup id =
      if id = e.1.header.hash then
        some ⟨.op e.1.header.hash, placeOf e,
          e.1.header.payloadHash.map (.payloadRef · e.1.header.hash), e.1.header, e.1.body.isSome⟩
      else plan.planned.lookup id := by
    intro id
    unfold BatchPlan.planOperation
    simp only [indexed, hhash]
    exact Table.lookup_insert_if plan.planned _ id _
  have hstays : ∀ id p, plan.planned.lookup id = some p →
      (plan.planOperation (indexed e)).planned.lookup id = some p := fun id p hp => by
    rw [hlookup, if_neg (hbefore id p hp).1, hp]
  have hself : ∃ p, (plan.planOperation (indexed e)).planned.lookup e.1.header.hash = some p ∧
      p.logKey = placeOf e := ⟨_, (hlookup _).trans (if_pos rfl), rfl⟩
  refine ⟨⟨?_, fun id p hp => ?_, fun place header body hold => ?_, fun id p hp => ?_,
    fun place id => ?_, ?_, fun place hheld => ?_, fun id place hat => ?_⟩, hlog⟩
  · rw [view_planOperation hhash]
    refine .tail (.single (.aside ⟨haside, nofun⟩)) (.insert hinserts ?_ ?_ rfl)
    · rw [(aside_set haside).1, hplace]
    · rw [(aside_set haside).2.1, hid]
  · rw [hlookup] at hp
    split_ifs at hp with heq
    · cases hp
      exact ⟨e, mem_append_right _ (mem_singleton_self e), heq.symm, rfl⟩
    · obtain ⟨e', he', hsame⟩ := h.source id p hp
      exact ⟨e', mem_append_left _ he', hsame⟩
  · rw [hlog, if_neg]
    · exact h.kept place header body hold
    · rintro rfl
      cases hfree.symm.trans hold
  · rw [hlookup] at hp
    split_ifs at hp with heq
    · subst heq
      cases hp
      exact ⟨rfl, rfl, rfl, hfree, hnew, e.1.body, (hlog _).trans (if_pos rfl), rfl⟩
    · exact (h.planned id p hp).of_log (by rw [hlog, if_neg (hbefore id p hp).2])
  · change (place, id) ∈ (placeOf e, e.1.hash) :: plan.byLog ↔ _
    rw [mem_cons, Prod.mk.injEq, hhash, h.byLog]
    constructor
    · rintro (⟨rfl, rfl⟩ | ⟨p, hp, hplace'⟩)
      · exact hself
      · exact ⟨p, hstays id p hp, hplace'⟩
    · rintro ⟨p, hp, rfl⟩
      rw [hlookup] at hp
      split_ifs at hp with heq
      · cases hp
        exact .inl ⟨rfl, heq⟩
      · exact .inr ⟨p, hp, rfl⟩
  · refine nodup_cons.mpr ⟨fun hmem => ?_, h.nodup⟩
    obtain ⟨p, hp, heq⟩ := (h.byLog _ _).mp hmem
    exact (hbefore _ p hp).2 heq
  · rw [hlog] at hheld
    split_ifs at hheld with heq
    · exact .inr ⟨e.1.header.hash, heq ▸ hself⟩
    · exact (h.logs place hheld).imp_right fun ⟨id, p, hp, heq⟩ => ⟨id, p, hstays id p hp, heq⟩
  · rw [hop] at hat
    split_ifs at hat with heq
    · cases hat
      exact .inr (heq ▸ hself)
    · exact (h.ops id place hat).imp_right fun ⟨p, hp, heq⟩ => ⟨p, hstays id p hp, heq⟩

end Insert

/-! ## Whole batches -/

section Entries

variable {digest : Str → Bytes32} {policy : Policy E L} {e : Operation E × Admission L}
  {rest : List (Operation E × Admission L)}

abbrev batchScope (headerOf : Bytes32 → Header E) (b : MunimentStore E L)
    (entries : List (Operation E × Admission L)) : Scope E L :=
  callScope (Backend.get b) entries (Indexed headerOf (Backend.get b))

theorem known_entry (hsound : Sound headerOf (Backend.get b))
    (hknown : headerOf e.1.header.hash = e.1.header) : (batchScope headerOf b [e]).Known headerOf :=
  known_callScope hsound fun _ he => mem_singleton.mp he ▸ hknown

variable (h : Planning b done plan)
include h

variable (hsound : Sound headerOf (Backend.get b))
include hsound

variable (hv : Sound headerOf (plan.view b))
include hv

theorem Planning.effects (hknown : headerOf e.1.header.hash = e.1.header) :
    Plans (batchScope headerOf b [e]) b done plan (plan.planEffects b (indexed e)) ∧
      (e.2.history.prunes = true → ∀ place : LogKey L, place.Below (placeOf e) →
        (plan.planEffects b (indexed e)).view b (.log place) = none) ∧
      ∀ id ∈ e.2.erasePayloads, Erased ((plan.planEffects b (indexed e)).view b) id := by
  unfold BatchPlan.planEffects
  by_cases hprunes : e.2.history.prunes = true
  · rw [if_pos (show (indexed e).pruneBeforeCurrent = true from hprunes)]
    have hremoves : ∀ place : LogKey L, place.Below (indexed e).place →
        (batchScope headerOf b [e]).removes place :=
      fun place hbelow => ⟨e, mem_singleton_self e, hprunes, hbelow⟩
    obtain ⟨⟨hprune, hplanning⟩, hgone⟩ := h.prune hremoves fun place header body hplace hnone => by
      by_cases hindexed : Indexed headerOf (Backend.get b)
      · exact .inr (h.remains hindexed hv hplace hnone)
      · exact .inl ⟨hindexed, place, body, hplace⟩
    obtain ⟨herase, hend, herased⟩ :=
      hplanning.erases hsound (hv.moves hprune (known_entry hsound hknown)) e.2.erasePayloads
    refine ⟨⟨hprune.trans (herase _), hend⟩, fun _ place hbelow => ?_, herased⟩
    exact Moves.log_eq_none (herase Scope.empty) Scope.clean_empty (hgone place hbelow) fun _ => id
  · rw [if_neg (show ¬(indexed e).pruneBeforeCurrent = true from hprunes)]
    obtain ⟨herase, hend, herased⟩ := h.erases hsound hv e.2.erasePayloads
    exact ⟨⟨herase _, hend⟩, fun hprunes' => absurd hprunes' hprunes, herased⟩

theorem Planning.entry (hknown : headerOf e.1.header.hash = e.1.header)
    (hadmissible : Admissible digest policy (Backend.get b) (done ++ e :: rest)) :
    Plans (batchScope headerOf b [e]) b (done ++ [e]) plan
        ((plan.planEffects b (indexed e)).planOperation (indexed e)) ∧
      ((plan.planEffects b (indexed e)).planOperation (indexed e)).view b (.log (placeOf e)) ≠ none ∧
      (e.2.history.prunes = true → ∀ place : LogKey L, place.Below (placeOf e) →
        ((plan.planEffects b (indexed e)).planOperation (indexed e)).view b (.log place) = none) ∧
      ∀ id ∈ e.2.erasePayloads, e.1.header.hash ≠ id →
        Erased (((plan.planEffects b (indexed e)).planOperation (indexed e)).view b) id := by
  obtain ⟨⟨hmoves, hplanning⟩, hgone, herased⟩ := h.effects hsound hv hknown
  have hscope := known_entry hsound hknown
  have hmem : e ∈ done ++ e :: rest := mem_append_right _ mem_cons_self
  have hfree : Backend.get b (.log (placeOf e)) = none := by
    by_contra hplace
    exact absurd (hadmissible.above _ hmem _ hplace rfl rfl).2.2 (lt_irrefl _)
  have hother : ∀ e' ∈ done, e'.1.header.hash ≠ e.1.header.hash ∧ placeOf e' ≠ placeOf e := by
    intro e' he'
    refine ⟨(pairwise_append.mp hadmissible.distinct).2.2 e' he' e mem_cons_self,
      fun heq => ?_⟩
    have hbelow := (pairwise_append.mp hadmissible.rising).2.2 e' he' e mem_cons_self
      (by rw [heq]) (by rw [heq])
    rw [heq] at hbelow
    exact lt_irrefl _ hbelow.2.2
  have hinserts : (batchScope headerOf b [e]).inserts
      (placeOf e) e.1.header := ⟨e, mem_singleton_self e, rfl, rfl⟩
  obtain ⟨⟨hinsert, hend⟩, hlog⟩ := hplanning.insert (preflight_ok (hadmissible.judged e hmem)).1
    (hadmissible.new e hmem) hfree hother hinserts
  refine ⟨⟨hmoves.trans hinsert, hend⟩, ?_, fun hprunes place hbelow => ?_, fun id hid hne => ?_⟩
  · rw [hlog, if_pos rfl]
    exact some_ne_none _
  · rw [hlog, if_neg, hgone hprunes place hbelow]
    rintro rfl
    exact lt_irrefl _ hbelow.2.2
  · refine (herased id hid).moves hinsert (hv.moves hmoves hscope) hscope ?_
    rintro place header ⟨e', he', rfl, -⟩
    exact mem_singleton.mp he' ▸ hne

theorem Planning.entries {pointers : List Bytes32} {plan' : BatchPlan E L}
    (hadmissible : Admissible digest policy (Backend.get b) (done ++ rest))
    (hknown : ∀ e ∈ rest, headerOf e.1.header.hash = e.1.header)
    (hplan : planEntries b pointers plan (rest.map indexed) = .ok plan') :
    Moves (batchScope headerOf b rest) (plan.view b)
        (plan'.view b) ∧
      (∀ e ∈ rest, ¬(batchScope headerOf b rest).removes
        (placeOf e) → plan'.view b (.log (placeOf e)) ≠ none) ∧
      (Indexed headerOf (Backend.get b) → ∀ e ∈ rest, e.2.history.prunes = true →
        ∀ place : LogKey L, place.Below (placeOf e) → plan'.view b (.log place) = none) ∧
      ∀ before e after, rest = before ++ e :: after → ∀ id ∈ e.2.erasePayloads,
        Backend.get b (.op id) ≠ none ∨ (∃ e ∈ done ++ before, e.1.header.hash = id) →
        Erased (plan'.view b) id := by
  induction rest generalizing done plan pointers with
  | nil =>
    cases hplan
    exact ⟨.refl, nofun, nofun, fun before e after heq => absurd heq (by simp)⟩
  | cons e rest ih =>
    rw [map_cons, planEntries] at hplan
    split at hplan
    · cases hplan
    split at hplan
    · cases hplan
    obtain ⟨⟨hfirst, hplanning⟩, hthere, hgone, herased⟩ :=
      h.entry hsound hv (hknown e mem_cons_self) hadmissible
    have hscope := known_entry hsound (hknown e mem_cons_self)
    have hrest : ∀ e' ∈ rest, headerOf e'.1.header.hash = e'.1.header := fun e' he' =>
      hknown e' (mem_cons_of_mem _ he')
    have hscope' : (batchScope headerOf b rest).Known headerOf := known_callScope hsound hrest
    have hv' := hv.moves hfirst hscope
    rw [append_cons] at hadmissible
    obtain ⟨hmoves, hkept, hpruned, hends⟩ := ih hplanning hv' hadmissible hrest hplan
    have hself : e ∈ done ++ [e] := mem_append_right _ (mem_singleton_self e)
    have hhead : [e] ⊆ e :: rest := cons_subset_cons e (nil_subset rest)
    have htail : rest ⊆ e :: rest := subset_cons_self e rest
    refine ⟨(Moves.mono (within_callScope hhead) hfirst).trans
        (Moves.mono (within_callScope htail) hmoves),
      fun e' he' hstays => ?_, fun hindexed e' he' hprunes place hbelow => ?_,
      fun before e' after heq id hid hold => ?_⟩
    · have hstays' := fun hremoves => hstays ((within_callScope htail).removes _ hremoves)
      rcases mem_cons.mp he' with rfl | he'
      · exact Moves.log_ne_none hmoves hthere hstays'
      · exact hkept e' he' hstays'
    · rcases mem_cons.mp he' with rfl | he'
      · refine Moves.log_eq_none hmoves (clean_callScope hindexed) (hgone hprunes place hbelow) ?_
        -- What is still to come is above what was pruned.
        rintro header ⟨e₁, he₁, -, rfl⟩
        have habove := (pairwise_append.mp hadmissible.rising).2.2 e' hself e₁ he₁
          hbelow.1.symm hbelow.2.1.symm
        exact lt_asymm hbelow.2.2 habove.2.2
      · exact hpruned hindexed e' he' hprunes place hbelow
    · rcases before with _ | ⟨x, before⟩
      · obtain ⟨rfl, rfl⟩ := List.cons.inj heq
        rw [append_nil] at hold
        -- What was there already is not inserted again.
        have hother : ∀ e' ∈ e :: rest, e'.1.header.hash ≠ id := by
          rintro e' he' rfl
          have hmem : e' ∈ done ++ [e] ++ rest := by
            rw [← append_cons]
            exact mem_append_right _ he'
          rcases hold with hheld | ⟨e₁, he₁, heq⟩
          · exact hheld (hadmissible.new e' hmem)
          · rw [← append_cons] at hadmissible
            exact (pairwise_append.mp hadmissible.distinct).2.2 e₁ he₁ e' he' heq
        refine (herased id hid (hother e mem_cons_self)).moves hmoves hv' hscope' ?_
        rintro place header ⟨e', he', rfl, -⟩
        exact hother e' (mem_cons_of_mem _ he')
      · obtain ⟨rfl, hafter⟩ := List.cons.inj heq
        refine hends before e' after hafter id hid (hold.imp_right ?_)
        rintro ⟨e₁, he₁, hhash⟩
        exact ⟨e₁, by rwa [← append_cons], hhash⟩

end Entries

end Mere.Stickleback
