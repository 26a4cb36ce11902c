import Mere.Stickleback.Batch
import Mere.Stickleback.DropIo

/-!
# What a batch and a drop may bring

A batch is judged whole against the store before it, and then planned. A drop is staged, becomes a
batch, and takes its staging with it.
-/

namespace Mere.Stickleback

open MunimentStore List

variable {E L : Type} {digest : Str → Bytes32} {policy : Policy E L}
  {headerOf : Bytes32 → Header E} {leading : List (Write E L)}
  {prepared : List (Operation E × Admission L)} {accepted : List (Operation E × Admission L)}

/-! ## Judging -/

section Judge

variable [DecidableEq L] {b : MunimentStore E L}

/-- What has been judged so far: `accepted` may be inserted, and the frontiers are above it all. -/
structure Judging (digest : Str → Bytes32) (policy : Policy E L) (b : MunimentStore E L)
    (s : BatchState E L) : Prop where
  admissible : Admissible digest policy (Backend.get b) s.accepted
  seen : ∀ e ∈ s.accepted, e.1.hash ∈ s.seen
  frontier : ∀ place, Backend.get b (.log place) ≠ none ∨ (∃ e ∈ s.accepted, placeOf e = place) →
    ∃ op, s.frontier b place.author place.logId = some op ∧ place.seqNum ≤ op.header.seqNum
  writes : ∀ w ∈ s.hydrationWrites, Attaches (Backend.get b) w ∨ Quiet w

theorem Judging.init (hsound : Sound headerOf (Backend.get b))
    (hleading : ∀ w ∈ leading, Attaches (Backend.get b) w ∨ Quiet w) :
    Judging digest policy b { hydrationWrites := leading } := by
  refine ⟨⟨nofun, nofun, nofun, .nil, .nil⟩, nofun, ?_, hleading⟩
  rintro ⟨author, logId, seqNum⟩ (hplace | ⟨e, he, -⟩)
  · change ∃ op, getLatestEntry b author logId = some op ∧ _
    cases hlatest : getLatestEntry b author logId with
    | none => exact absurd (getLatestEntry_none hlatest seqNum) hplace
    | some previous =>
      exact ⟨previous, rfl, le_getLatestEntry hsound hlatest hplace⟩
  · cases he

variable {s s' : BatchState E L} {e : Operation E × Admission L}

variable (h : Judging digest policy b s)
include h

theorem Judging.pass (op : Operation E) :
    Judging digest policy b (s.pass op) :=
  ⟨h.admissible, fun e he => mem_cons_of_mem _ (h.seen e he), h.frontier, h.writes⟩

theorem Judging.hydrate (hsound : Sound headerOf (Backend.get b))
    {op : Operation E} (hs : s.hydrate digest b op = .ok s') :
    Judging digest policy b s' ∧ s'.accepted = s.accepted := by
  unfold BatchState.hydrate at hs
  split at hs
  · rename_i payloadHash body _ _
    cases hwrites : payloadAttachmentWrites digest b payloadHash body with
    | error => rw [hwrites] at hs; cases hs
    | ok result =>
      rw [hwrites] at hs
      cases hs
      obtain ⟨hadmissible, hseen, hfrontier, hbefore⟩ := h.pass op
      refine ⟨⟨hadmissible, hseen, hfrontier, fun w hw => ?_⟩, rfl⟩
      rcases mem_append.mp hw with hw | hw
      · exact hbefore w hw
      · exact .inl (attaches_of_payloadAttachmentWrites hsound hwrites w hw)
  · cases hs
    exact ⟨h.pass op, rfl⟩

omit h in
theorem frontier_take (author : Bytes32) (logId : L) :
    (s.take e.1 e.2).frontier b author logId =
      if author = (placeOf e).author ∧ logId = (placeOf e).logId then some e.1
      else s.frontier b author logId := by
  have hfrontiers : (s.take e.1 e.2).frontiers =
      s.frontiers.insert ((placeOf e).author, (placeOf e).logId) (some e.1) := rfl
  unfold BatchState.frontier
  rw [hfrontiers]
  by_cases heq : author = (placeOf e).author ∧ logId = (placeOf e).logId
  · rw [if_pos heq, heq.1, heq.2, AList.lookup_insert, Option.getD_some]
  · rw [if_neg heq, AList.lookup_insert_ne fun hkey => heq (Prod.mk.inj hkey)]

theorem Judging.take (hjudged : preflight digest policy e.1 = .ok e.2)
    (hunseen : e.1.hash ∉ s.seen) (hnew : hasOperation b e.1.hash = false)
    (hcontinues : continues (s.frontier b e.1.header.verifyingKey e.2.target.logId) e.1
      e.2.history = .ok ()) : Judging digest policy b (s.take e.1 e.2) := by
  have hhash := (preflight_ok hjudged).1
  have habove : ∀ place, Backend.get b (.log place) ≠ none ∨ (∃ e ∈ s.accepted, placeOf e = place) →
      place.author = (placeOf e).author → place.logId = (placeOf e).logId →
      place.Below (placeOf e) := by
    intro place hplace hauthor hlog
    obtain ⟨op, hfrontier, hle⟩ := h.frontier place hplace
    rw [hauthor, hlog] at hfrontier
    exact ⟨hauthor, hlog, hle.trans_lt (above_of_continues hcontinues hfrontier)⟩
  have haccepted : (s.take e.1 e.2).accepted = s.accepted ++ [e] := rfl
  refine ⟨⟨?_, ?_, ?_, ?_, ?_⟩, ?_, fun place hplace => ?_, h.writes⟩
  · intro e' he'
    rcases mem_append.mp he' with he' | he'
    · exact h.admissible.judged e' he'
    · exact mem_singleton.mp he' ▸ hjudged
  · intro e' he'
    rcases mem_append.mp he' with he' | he'
    · exact h.admissible.new e' he'
    · rw [mem_singleton.mp he', ← hhash]
      exact (hasOperation_eq_false _).mp hnew
  · intro e' he' place hplace hauthor hlog
    rcases mem_append.mp he' with he' | he'
    · exact h.admissible.above e' he' place hplace hauthor hlog
    · obtain rfl := mem_singleton.mp he'
      exact habove place (.inl hplace) hauthor hlog
  · refine pairwise_append.mpr ⟨h.admissible.rising, pairwise_singleton _ _, ?_⟩
    intro e₁ he₁ e₂ he₂ hauthor hlog
    obtain rfl := mem_singleton.mp he₂
    exact habove _ (.inr ⟨e₁, he₁, rfl⟩) hauthor hlog
  · refine pairwise_append.mpr ⟨h.admissible.distinct, pairwise_singleton _ _, ?_⟩
    intro e₁ he₁ e₂ he₂ heq
    obtain rfl := mem_singleton.mp he₂
    rw [← hhash, ← (preflight_ok (h.admissible.judged e₁ he₁)).1] at heq
    exact hunseen (heq ▸ h.seen e₁ he₁)
  · intro e' he'
    rcases mem_append.mp he' with he' | he'
    · exact mem_cons_of_mem _ (h.seen e' he')
    · exact mem_singleton.mp he' ▸ mem_cons_self
  · rw [frontier_take]
    split
    · rename_i hsame
      refine ⟨e.1, rfl, ?_⟩
      rcases hplace with hplace | ⟨e', he', rfl⟩
      · exact (habove place (.inl hplace) hsame.1 hsame.2).2.2.le
      · rcases mem_append.mp he' with he' | he'
        · exact (habove _ (.inr ⟨e', he', rfl⟩) hsame.1 hsame.2).2.2.le
        · exact mem_singleton.mp he' ▸ le_rfl
    · rename_i hother
      refine h.frontier place (hplace.imp_right ?_)
      rintro ⟨e', he', rfl⟩
      rcases mem_append.mp he' with he' | he'
      · exact ⟨e', he', rfl⟩
      · exact absurd ⟨by rw [mem_singleton.mp he'], by rw [mem_singleton.mp he']⟩ hother

theorem Judging.step (hsound : Sound headerOf (Backend.get b))
    (hjudged : preflight digest policy e.1 = .ok e.2) (hs : s.step digest b e = .ok s') :
    Judging digest policy b s' ∧ s'.accepted ⊆ s.accepted ++ [e] := by
  unfold BatchState.step at hs
  split at hs
  · cases hs
    exact ⟨⟨h.admissible, h.seen, h.frontier, h.writes⟩, subset_append_left _ _⟩
  rename_i hunseen
  split at hs
  · obtain ⟨hjudging, haccepted⟩ := h.hydrate hsound hs
    exact ⟨hjudging, haccepted ▸ subset_append_left _ _⟩
  · rename_i hnew
    split at hs
    · cases hs
    · rename_i hcontinues
      cases hs
      exact ⟨h.take hjudged hunseen (Bool.not_eq_true _ ▸ hnew) hcontinues, List.Subset.refl _⟩

theorem Judging.run (hsound : Sound headerOf (Backend.get b))
    (hjudged : ∀ e ∈ prepared, preflight digest policy e.1 = .ok e.2)
    (hs : s.run digest b prepared = .ok s') :
    Judging digest policy b s' ∧ s'.accepted ⊆ s.accepted ++ prepared := by
  induction prepared generalizing s with
  | nil =>
    cases hs
    exact ⟨h, subset_append_left _ _⟩
  | cons e rest ih =>
    rw [BatchState.run] at hs
    cases hstep : s.step digest b e with
    | error => rw [hstep] at hs; cases hs
    | ok s₁ =>
      rw [hstep] at hs
      obtain ⟨hjudging, hfirst⟩ := h.step hsound (hjudged e mem_cons_self) hstep
      obtain ⟨hend, hrest⟩ := ih hjudging (fun e' he' => hjudged e' (mem_cons_of_mem _ he')) hs
      refine ⟨hend, List.Subset.trans hrest ?_⟩
      rw [append_cons]
      exact append_subset.mpr ⟨List.Subset.trans hfirst (subset_append_left _ _),
        subset_append_right _ _⟩

end Judge

/-! ## Batches -/

theorem planning_leading [DecidableEq L] {b : MunimentStore E L}
    (hleading : ∀ w ∈ leading, Attaches (Backend.get b) w ∨ Quiet w) :
    Planning b [] (({} : BatchPlan E L).record leading) ∧ ∀ scope : Scope E L,
      Moves scope (Backend.get b) ((({} : BatchPlan E L).record leading).view b) := by
  have hview : (({} : BatchPlan E L).record leading).view b = (Backend.get b).sets leading :=
    view_record leading
  obtain ⟨hmoves, hsame⟩ := moves_leading (.refl (Backend.get b)) hleading
  refine ⟨⟨nofun, fun place header body hplace => ?_, nofun, fun place id => ?_, .nil,
    fun place hplace => ?_, fun id place hid => ?_⟩, ?_⟩
  · rw [hview]
    exact .inr (hsame.entry hplace)
  · exact ⟨nofun, fun ⟨_, hp, _⟩ => nomatch hp⟩
  · rw [hview] at hplace
    exact .inl (hsame.symm.log_ne_none hplace)
  · rw [hview, hsame.op] at hid
    exact .inl hid
  · rw [hview]
    exact fun scope => hmoves scope fun _ => False.elim

theorem applyBatch_advances [DecidableEq L] {b b' : MunimentStore E L}
    (hsound : Sound headerOf (Backend.get b)) {trailing : List (Write E L)}
    (hadmissible : Admissible digest policy (Backend.get b) accepted)
    (hknown : ∀ e ∈ accepted, headerOf e.1.header.hash = e.1.header)
    (hleading : ∀ w ∈ leading, Attaches (Backend.get b) w ∨ Quiet w)
    (htrailing : ∀ w ∈ trailing, Quiet w)
    (h : applyIndexedOperationBatch b (accepted.map indexed) leading trailing = .ok b') :
    Advances digest policy b b' accepted (Indexed headerOf (Backend.get b)) := by
  unfold applyIndexedOperationBatch at h
  cases hplan : planEntries b [] (({} : BatchPlan E L).record leading)
      (accepted.map indexed) with
  | error => rw [hplan] at h; cases h
  | ok plan =>
    rw [hplan] at h
    have hend : Backend.get b' = (plan.view b).sets trailing := by
      cases h
      rw [Backend.get_apply, Overlay.sets_writes]
      exact view_record trailing
    obtain ⟨hplanning, hlead⟩ := planning_leading hleading
    have hv := hsound.moves (hlead Scope.empty) Scope.known_empty
    obtain ⟨hmoves, hkept, hpruned, herased⟩ :=
      hplanning.entries hsound hv hadmissible hknown hplan
    have hv' := hv.moves hmoves (known_callScope hsound hknown)
    have htrail : ∀ scope : Scope E L, Moves scope (plan.view b) (Backend.get b') := fun scope =>
      hend ▸ (moves_leading (.refl (plan.view b)) fun w hw => .inr (htrailing w hw)).1 scope
        fun _ => False.elim
    refine ⟨hadmissible, (hlead _).trans (hmoves.trans (htrail _)), fun e he hstays => ?_,
      fun hindexed e he hprunes place hbelow => ?_, fun before e after heq id hid hold => ?_⟩
    · exact Moves.log_ne_none (htrail Scope.empty) (hkept e he hstays) id
    · exact Moves.log_eq_none (htrail Scope.empty) Scope.clean_empty
        (hpruned hindexed e he hprunes place hbelow) fun _ => id
    · exact (herased before e after heq id hid hold).moves (htrail Scope.empty) hv'
        Scope.known_empty fun _ _ => False.elim

section Run

variable [LinearOrder L] {b b' : MunimentStore E L} {ops : List (Operation E)}

theorem mem_prepare (h : prepare digest policy ops = .ok prepared) :
    ∀ e ∈ prepared, e.1 ∈ ops ∧ preflight digest policy e.1 = .ok e.2 := by
  unfold prepare at h
  cases hmap : ops.mapM fun op => (preflight digest policy op).map (op, ·) with
  | error => rw [hmap] at h; cases h
  | ok prepared' =>
    rw [hmap] at h
    cases h
    intro e he
    obtain ⟨op, hop, hok⟩ := mem_mapM_ok hmap e ((perm_insertionSort _ _).mem_iff.mp he)
    cases hjudged : preflight digest policy op with
    | error => rw [hjudged] at hok; cases hok
    | ok admission =>
      rw [hjudged] at hok
      cases hok
      exact ⟨hop, hjudged⟩

variable {s : BatchState E L}

theorem judgeBatch_ok (hsound : Sound headerOf (Backend.get b))
    (hleading : ∀ w ∈ leading, Attaches (Backend.get b) w ∨ Quiet w)
    (h : judgeBatch digest policy b ops leading = .ok s) :
    Judging digest policy b s ∧ ∀ e ∈ s.accepted, e.1 ∈ ops := by
  unfold judgeBatch at h
  cases hprepared : prepare digest policy ops with
  | error => rw [hprepared] at h; cases h
  | ok prepared =>
    rw [hprepared] at h
    obtain ⟨hjudging, haccepted⟩ := (Judging.init hsound hleading).run hsound
      (fun e he => (mem_prepare hprepared e he).2) h
    exact ⟨hjudging, fun e he => (mem_prepare hprepared e (haccepted he)).1⟩

theorem processBatch_advances (hsound : Sound headerOf (Backend.get b))
    (hknown : ∀ op ∈ ops, headerOf op.header.hash = op.header)
    {trailing : List (Write E L)} {outcome : BatchProcessOutcome}
    (hleading : ∀ w ∈ leading, Attaches (Backend.get b) w ∨ Quiet w)
    (htrailing : ∀ w ∈ trailing, Quiet w)
    (hjudge : judgeBatch digest policy b ops leading = .ok s)
    (h : processBatchAtomic digest policy b ops leading trailing = .ok (outcome, b')) :
    Advances digest policy b b' s.accepted (Indexed headerOf (Backend.get b)) := by
  unfold processBatchAtomic at h
  rw [hjudge] at h
  obtain ⟨hjudging, hmem⟩ := judgeBatch_ok hsound hleading hjudge
  cases happly : applyIndexedOperationBatch b (s.accepted.map indexed)
      s.hydrationWrites trailing with
  | error => simp only [happly] at h; cases h
  | ok b₁ =>
    simp only [happly] at h
    cases h
    exact applyBatch_advances hsound hjudging.admissible (fun e he => hknown e.1 (hmem e he))
      hjudging.writes htrailing happly

end Run

/-! ## Drops -/

def DropRecord.Known (headerOf : Bytes32 → Header E) (record : DropRecord E) : Prop :=
  ∀ header body, record = .operation (some header) body → headerOf header.hash = header

section Writes

variable [DecidableEq L] {b : MunimentStore E L}

omit [DecidableEq L] in
theorem quiet_delete {k : Key L} (hk : k.Aside) : Quiet (.delete k : Write E L) := ⟨hk, nofun⟩

variable {writes : List (Write E L)} {drop : Bytes32} {records : List (DropRecord E)}

theorem leading_of_payloadWrites {consumed : List Bytes32} {payload : Bytes32 × Str}
    (hsound : Sound headerOf (Backend.get b))
    (h : payloadWrites b consumed payload = .ok writes) :
    ∀ w ∈ writes, Attaches (Backend.get b) w ∨ Quiet w := by
  unfold payloadWrites at h
  cases hattach : attachmentWrites b payload.1 payload.2 with
  | error => rw [hattach] at h; cases h
  | ok result =>
    rw [hattach] at h
    have hattaches := attaches_of_attachmentWrites hsound hattach
    simp only at h
    split at h
    · cases h
      refine forall_mem_append.mpr ⟨fun w hw => .inl (hattaches w hw), ?_⟩
      exact forall_mem_singleton.mpr (.inr (quiet_delete trivial))
    · cases h
      refine forall_mem_append.mpr ⟨fun w hw => .inl (hattaches w hw), ?_⟩
      exact forall_mem_singleton.mpr (.inr ⟨trivial, nofun⟩)

theorem leading_of_leadingWrites (hsound : Sound headerOf (Backend.get b))
    {content : AssembledContent} {filled : List (Filled E)}
    (h : leadingWrites b content filled = .ok writes) :
    ∀ w ∈ writes, Attaches (Backend.get b) w ∨ Quiet w := by
  unfold leadingWrites at h
  cases hmap : content.payloads.mapM (payloadWrites b (filled.filterMap (·.consumedPayload))) with
  | error => rw [hmap] at h; cases h
  | ok payloads =>
    rw [hmap] at h
    cases h
    refine forall_mem_append.mpr ⟨forall_mem_append.mpr ⟨fun w hw => ?_, fun w hw => ?_⟩,
      fun w hw => ?_⟩
    · obtain ⟨payload, -, rfl⟩ := mem_map.mp hw
      exact .inr (quiet_delete trivial)
    · obtain ⟨writes, hwrites, hw⟩ := mem_flatten.mp hw
      obtain ⟨payload, -, hok⟩ := mem_mapM_ok hmap writes hwrites
      exact leading_of_payloadWrites hsound hok w hw
    · obtain ⟨blob, -, rfl⟩ := mem_map.mp hw
      exact .inr ⟨trivial, nofun⟩

omit [DecidableEq L] in
theorem quiet_discardWrites : ∀ w ∈ discardWrites b drop, Quiet w := by
  intro w hw
  obtain ⟨k, hk, rfl⟩ := mem_map.mp hw
  refine quiet_delete ?_
  have hstage := (mem_filter.mp hk).2
  cases k <;> trivial

omit [DecidableEq L] in
theorem beside_stageWrites :
    ∀ w ∈ stageWrites b drop records, Beside (· ∈ records) w := by
  unfold stageWrites
  refine forall_mem_append.mpr ⟨fun w hw => (quiet_discardWrites w hw).mono fun _ => False.elim,
    forall_mem_cons.mpr ⟨⟨trivial, nofun⟩, fun w hw => ?_⟩⟩
  obtain ⟨⟨record, i⟩, hmem, rfl⟩ := mem_map.mp hw
  refine ⟨trivial, fun drop' i' record' heq => ?_⟩
  cases heq
  exact fst_mem_of_mem_zipIdx hmem

omit [DecidableEq L] in
theorem quiet_finalWrites {operations : Nat} :
    ∀ w ∈ (finalWrites drop records operations : List (Write E L)), Quiet w := by
  unfold finalWrites
  refine forall_mem_append.mpr ⟨forall_mem_cons.mpr ⟨quiet_delete trivial, fun w hw => ?_⟩,
    forall_mem_singleton.mpr ⟨trivial, nofun⟩⟩
  obtain ⟨i, -, rfl⟩ := mem_map.mp hw
  exact quiet_delete trivial

omit [DecidableEq L] in
theorem mem_decodeOperations {ops : List (Operation E)}
    (h : decodeOperations records = .ok ops) :
    ∀ op ∈ ops, ∃ body, DropRecord.operation (some op.header) body ∈ records := by
  unfold decodeOperations at h
  cases hmap : records.mapM decodeOperationRecord with
  | error => rw [hmap] at h; cases h
  | ok decoded =>
    rw [hmap] at h
    cases h
    intro op hop
    obtain ⟨o, ho, hsome⟩ := mem_filterMap.mp hop
    obtain ⟨record, hrecord, hok⟩ := mem_mapM_ok hmap o ho
    obtain rfl : o = some op := hsome
    unfold decodeOperationRecord at hok
    split at hok
    · cases hok
    · cases hok
      exact ⟨_, hrecord⟩
    · cases hok

theorem header_fillBody {payloads : List (Bytes32 × Str)} {op : Operation E} {filled : Filled E}
    (h : fillBody digest b payloads op = .ok filled) : filled.operation.header = op.header := by
  unfold fillBody at h
  repeat' split at h
  all_goals cases h
  all_goals rfl

omit [DecidableEq L] in
theorem Attaches.same {u v : Held E L} {w : Write E L} (h : Attaches u w) (hsame : SameIndex u v) :
    Attaches v w := by
  obtain ⟨payload, id, place, header, body, bytes, href, hplace, rfl⟩ := h
  obtain ⟨body', hentry⟩ := hsame.entry hplace
  exact ⟨payload, id, place, header, body', bytes, (hsame.ref payload id).trans href, hentry, rfl⟩

end Writes

section Drop

variable [LinearOrder L] {b : MunimentStore E L} {drop : Bytes32} {records : List (DropRecord E)}

theorem prepareImport_ok (hsound : Sound headerOf (Backend.get b)) {ops : List (Operation E)}
    (h : prepareImport digest b policy records = .ok (ops, leading)) :
    (∀ op ∈ ops, ∃ body, DropRecord.operation (some op.header) body ∈ records) ∧
      ∀ w ∈ leading, Attaches (Backend.get b) w ∨ Quiet w := by
  unfold prepareImport at h
  cases hcontent : assembleContent digest records with
  | error => rw [hcontent] at h; cases h
  | ok content =>
    rw [hcontent] at h
    cases hdecode : decodeOperations records with
    | error => rw [hdecode] at h; cases h
    | ok decoded =>
      rw [hdecode] at h
      cases hfill : decoded.mapM (fillBody digest b content.payloads) with
      | error => simp only [hfill, bind, Except.bind] at h; cases h
      | ok filled =>
        simp only [hfill, bind, Except.bind] at h
        split at h
        · cases h
        cases hleading : leadingWrites b content filled with
        | error => rw [hleading] at h; cases h
        | ok writes =>
          rw [hleading] at h
          cases h
          refine ⟨fun op hop => ?_, leading_of_leadingWrites hsound hleading⟩
          obtain ⟨f, hf, rfl⟩ := mem_map.mp hop
          obtain ⟨op, hop, hok⟩ := mem_mapM_ok hfill f hf
          rw [header_fillBody hok]
          exact mem_decodeOperations hdecode op hop

def stagedStore (b : MunimentStore E L) (drop : Bytes32) (records : List (DropRecord E)) :
    MunimentStore E L :=
  Backend.apply b (stageWrites b drop records)

theorem moves_staged {scope : Scope E L} (hscope : ∀ record ∈ records, scope.stages record) :
    Moves scope (Backend.get b) (Backend.get (stagedStore b drop records)) ∧
      SameIndex (Backend.get b) (Backend.get (stagedStore b drop records)) := by
  unfold stagedStore
  rw [Backend.get_apply]
  exact (moves_leading (.refl _) fun w hw => .inr (beside_stageWrites w hw)).imp_left
    fun hmoves => hmoves scope hscope

theorem moves_discard {scope : Scope E L} :
    Moves scope (Backend.get b) (Backend.get (discardStagedDrop b drop)) := by
  unfold discardStagedDrop
  rw [Backend.get_apply]
  exact (moves_leading (.refl _) fun w hw => .inr (quiet_discardWrites w hw)).1 scope
    fun _ => False.elim

def acceptedOfDrop (digest : Str → Bytes32) (policy : Policy E L) (b : MunimentStore E L)
    (drop : Bytes32) (records : List (DropRecord E)) : List (Operation E × Admission L) :=
  match Backend.get b (.receipt drop) with
  | some _ => []
  | none =>
    match prepareImport digest b policy records with
    | .error _ => []
    | .ok (ops, leading) =>
      match processBatchAtomic digest policy (stagedStore b drop records) ops leading
          (finalWrites drop records ops.length) with
      | .error _ => []
      | .ok _ =>
        match judgeBatch digest policy (stagedStore b drop records) ops leading with
        | .error _ => []
        | .ok s => s.accepted

theorem Advances.of_staged {b' : MunimentStore E L} (hindexed : Indexed headerOf (Backend.get b) →
      Indexed headerOf (Backend.get (stagedStore b drop records)))
    (h : Advances digest policy (stagedStore b drop records) b' accepted
      (Indexed headerOf (Backend.get (stagedStore b drop records)))) :
    Advances digest policy b b' accepted (Indexed headerOf (Backend.get b)) (· ∈ records) := by
  obtain ⟨hadmissible, hmoves, hkept, hpruned, herased⟩ := h
  have hscope : ∀ record ∈ records,
      (callScope (Backend.get b) accepted (Indexed headerOf (Backend.get b)) (· ∈ records)).stages record :=
    fun _ => id
  obtain ⟨hstaging, hsame⟩ := @moves_staged _ _ _ b drop records _ hscope
  refine ⟨⟨hadmissible.judged, fun e he => ?_, fun e he place hplace => ?_, hadmissible.rising,
    hadmissible.distinct⟩, hstaging.trans (Moves.mono ⟨?_, ?_, ?_, ?_, ?_⟩ hmoves), hkept,
    fun htidy => hpruned (hindexed htidy), fun before e after heq id hid hold => ?_⟩
  · rw [← hsame.op]
    exact hadmissible.new e he
  · exact hadmissible.above e he place (hsame.log_ne_none hplace)
  · exact fun _ _ hinserts => hinserts
  · exact fun _ hremoves => hremoves
  · rintro place header ⟨hnot, body, hplace⟩
    exact ⟨fun h => hnot (hindexed h), hsame.symm.entry hplace⟩
  · rintro header ⟨hnot, place, body, hplace⟩
    exact ⟨fun h => hnot (hindexed h), place, hsame.symm.entry hplace⟩
  · exact fun _ => False.elim
  · refine herased before e after heq id hid (hold.imp_left fun hheld => ?_)
    rwa [hsame.op]

theorem import_advances (hsound : Sound headerOf (Backend.get b))
    (hknown : ∀ record ∈ records, record.Known headerOf) :
    Advances digest policy b (importDropRecords digest b policy drop records).2
      (acceptedOfDrop digest policy b drop records) (Indexed headerOf (Backend.get b))
      (· ∈ records) := by
  unfold importDropRecords acceptedOfDrop
  cases hreceipt : Backend.get b (.receipt drop) with
  | some receipt => exact advances_of_moves _ moves_discard
  | none =>
    cases hprepare : prepareImport digest b policy records with
    | error => exact advances_of_moves _ .refl
    | ok prepared =>
      obtain ⟨ops, leading⟩ := prepared
      obtain ⟨hops, hleading⟩ := prepareImport_ok hsound hprepare
      have hstaged : Backend.apply b (stageWrites b drop records) = stagedStore b drop records := rfl
      have hscope : ∀ accepted, ∀ record ∈ records, (callScope (Backend.get b) accepted
          (Indexed headerOf (Backend.get b)) (· ∈ records)).stages record := fun _ _ => id
      obtain ⟨hmoves, hsame⟩ := @moves_staged _ _ _ b drop records _ (hscope [])
      have hsound' := hsound.moves hmoves (known_callScope hsound nofun)
      have hindexed : Indexed headerOf (Backend.get b) →
          Indexed headerOf (Backend.get (stagedStore b drop records)) := fun h =>
        h.moves hmoves (known_callScope hsound nofun) (clean_callScope h)
      simp only [hstaged]
      cases hbatch : processBatchAtomic digest policy (stagedStore b drop records) ops
          leading (finalWrites drop records ops.length) with
      | error => exact advances_of_moves _ hmoves
      | ok result =>
        cases hjudge : judgeBatch digest policy (stagedStore b drop records) ops
            leading with
        | error =>
          unfold processBatchAtomic at hbatch
          rw [hjudge] at hbatch
          cases hbatch
        | ok s =>
          refine Advances.of_staged hindexed (processBatch_advances hsound' ?_ ?_ quiet_finalWrites
            hjudge hbatch)
          · intro op hop
            obtain ⟨body, hrecord⟩ := hops op hop
            exact hknown _ hrecord op.header body rfl
          · exact fun w hw => (hleading w hw).imp_left fun h => h.same hsame

variable {e : Operation E × Admission L}

theorem mem_acceptedOfDrop (hsound : Sound headerOf (Backend.get b))
    (h : e ∈ acceptedOfDrop digest policy b drop records) :
    ∃ body, DropRecord.operation (some e.1.header) body ∈ records := by
  unfold acceptedOfDrop at h
  split at h
  · cases h
  split at h
  · cases h
  rename_i ops leading hprepare
  split at h
  · cases h
  split at h
  · cases h
  rename_i s hjudge
  obtain ⟨hops, hleading⟩ := prepareImport_ok hsound hprepare
  obtain ⟨hmoves, hsame⟩ := @moves_staged _ _ _ b drop records ⟨fun _ _ => False, fun _ => False,
    fun _ _ => False, fun _ => False, (· ∈ records)⟩ fun _ => id
  have hsound' := hsound.moves hmoves ⟨fun _ _ => False.elim, fun _ _ => False.elim, fun _ => False.elim⟩
  have hmem := (judgeBatch_ok hsound' (fun w hw => (hleading w hw).imp_left fun h => h.same hsame)
    hjudge).2
  exact hops e.1 (hmem e h)

/-! ## Staged drops -/

variable {limits : DropLimits E}

def acceptedOfStaged (digest : Str → Bytes32) (policy : Policy E L) (b : MunimentStore E L)
    (drop : Bytes32) (limits : DropLimits E) : List (Operation E × Admission L) :=
  match Backend.get b (.stageMeta drop) with
  | none => []
  | some (stored, count) =>
    if stored ≠ drop then []
    else if limits.maxRecords < count then []
    else
      match (List.range count).mapM (readStaged b drop limits) with
      | .error _ => []
      | .ok records => acceptedOfDrop digest policy b drop records

theorem staged_of_readStaged {P : DropRecord E → Prop} (hstaged : Staged P (Backend.get b))
    {i : Nat}
    {record : DropRecord E} (h : readStaged b drop limits i = .ok record) : P record := by
  unfold readStaged at h
  split at h
  · cases h
  · rename_i hget
    split at h
    · cases h
    · cases h
      exact hstaged drop i record hget

theorem resume_advances (hsound : Sound headerOf (Backend.get b))
    (hstaged : Staged (DropRecord.Known headerOf) (Backend.get b)) :
    Advances digest policy b (resumeStagedDrop digest b policy drop limits).2
      (acceptedOfStaged digest policy b drop limits) (Indexed headerOf (Backend.get b))
      (DropRecord.Known headerOf) := by
  unfold resumeStagedDrop acceptedOfStaged
  cases hmeta : Backend.get b (.stageMeta drop) with
  | none => exact advances_of_moves _ .refl
  | some stage =>
    obtain ⟨stored, count⟩ := stage
    simp only
    split
    · exact advances_of_moves _ .refl
    split
    · exact advances_of_moves _ .refl
    cases hread : (List.range count).mapM (readStaged b drop limits) with
    | error => exact advances_of_moves _ .refl
    | ok records =>
      have hknown : ∀ record ∈ records, record.Known headerOf := by
        intro record hrecord
        obtain ⟨i, -, hok⟩ := mem_mapM_ok hread record hrecord
        exact staged_of_readStaged hstaged hok
      exact (import_advances hsound hknown).mono id hknown

theorem mem_acceptedOfStaged (hsound : Sound headerOf (Backend.get b))
    (hstaged : Staged (DropRecord.Known headerOf) (Backend.get b))
    (h : e ∈ acceptedOfStaged digest policy b drop limits) :
    headerOf e.1.header.hash = e.1.header := by
  unfold acceptedOfStaged at h
  split at h
  · cases h
  split at h
  · cases h
  split at h
  · cases h
  split at h
  · cases h
  rename_i hread
  obtain ⟨body, hrecord⟩ := mem_acceptedOfDrop hsound h
  obtain ⟨i, -, hok⟩ := mem_mapM_ok hread _ hrecord
  exact staged_of_readStaged hstaged hok _ body rfl

end Drop

end Mere.Stickleback
