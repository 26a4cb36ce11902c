import Mere.Stickleback.Paths
import Mere.Stickleback.Processor

/-!
# What an accepted operation does

A run of moves that inserts nothing but the operations accepted and removes nothing but what they
prune, for one operation and for a batch.
-/

namespace Mere.Stickleback

open MunimentStore List Option

variable {E L : Type}

def placeOf (e : Operation E × Admission L) : LogKey L := e.1.header.place e.2.target.logId

def LogKey.Below (place bound : LogKey L) : Prop :=
  place.author = bound.author ∧ place.logId = bound.logId ∧ place.seqNum < bound.seqNum

/-- What the acceptance of operations may do to a store `u`. -/
def callScope (u : Held E L) (accepted : List (Operation E × Admission L)) (tidy : Prop)
    (stages : DropRecord E → Prop := fun _ => False) : Scope E L where
  inserts place header := ∃ e ∈ accepted, header = e.1.header ∧ place = placeOf e
  removes place := ∃ e ∈ accepted, e.2.history.prunes = true ∧ place.Below (placeOf e)
  recalls place header := ¬tidy ∧ ∃ body, u (.log place) = some (header, body)
  unlinks header := ¬tidy ∧ ∃ place body, u (.log place) = some (header, body)
  stages := stages

variable {u : Held E L} {accepted : List (Operation E × Admission L)} {tidy : Prop}
  {stages : DropRecord E → Prop}

theorem clean_callScope (h : tidy) : (callScope u accepted tidy stages).Clean :=
  ⟨fun _ _ hrecalls => hrecalls.1 h, fun _ hunlinks => hunlinks.1 h⟩

theorem known_callScope {headerOf : Bytes32 → Header E}
    (hsound : Sound headerOf u)
    (hknown : ∀ e ∈ accepted, headerOf e.1.header.hash = e.1.header) :
    (callScope u accepted tidy stages).Known headerOf := by
  refine ⟨?_, ?_, ?_⟩
  · rintro place header ⟨e, he, rfl, -⟩
    exact hknown e he
  · rintro place header ⟨-, body, hplace⟩
    exact hsound.known place header body hplace
  · rintro header ⟨-, place, body, hplace⟩
    exact hsound.known place header body hplace

theorem within_callScope {accepted' : List (Operation E × Admission L)} (h : accepted ⊆ accepted') :
    (callScope u accepted tidy).Within (callScope u accepted' tidy) := by
  refine ⟨?_, ?_, fun _ _ => id, fun _ => id, fun _ => id⟩
  · rintro place header ⟨e, he, hat⟩
    exact ⟨e, h he, hat⟩
  · rintro place ⟨e, he, hbelow⟩
    exact ⟨e, h he, hbelow⟩

variable [DecidableEq L] (digest : Str → Bytes32) (policy : Policy E L)

/-- New operations, each log's in order and above what it holds. -/
structure Admissible (u : Held E L) (accepted : List (Operation E × Admission L)) : Prop where
  judged : ∀ e ∈ accepted, preflight digest policy e.1 = .ok e.2
  new : ∀ e ∈ accepted, u (.op e.1.header.hash) = none
  above : ∀ e ∈ accepted, ∀ place, u (.log place) ≠ none → place.author = (placeOf e).author →
    place.logId = (placeOf e).logId → place.Below (placeOf e)
  rising : accepted.Pairwise fun e e' => (placeOf e).author = (placeOf e').author →
    (placeOf e).logId = (placeOf e').logId → (placeOf e).Below (placeOf e')
  distinct : accepted.Pairwise fun e e' => e.1.header.hash ≠ e'.1.header.hash

structure Advances (b b' : MunimentStore E L) (accepted : List (Operation E × Admission L))
    (tidy : Prop) (stages : DropRecord E → Prop := fun _ => False) : Prop where
  admissible : Admissible digest policy (Backend.get b) accepted
  moves : Moves (callScope (Backend.get b) accepted tidy stages) (Backend.get b) (Backend.get b')
  kept : ∀ e ∈ accepted, ¬(callScope (Backend.get b) accepted tidy).removes (placeOf e) →
    Backend.get b' (.log (placeOf e)) ≠ none
  pruned : tidy → ∀ e ∈ accepted, e.2.history.prunes = true → ∀ place : LogKey L,
    place.Below (placeOf e) → Backend.get b' (.log place) = none
  erased : ∀ before e after, accepted = before ++ e :: after → ∀ id ∈ e.2.erasePayloads,
    Backend.get b (.op id) ≠ none ∨ (∃ e ∈ before, e.1.header.hash = id) →
    Erased (Backend.get b') id

variable {digest policy} {headerOf : Bytes32 → Header E} {b b' : MunimentStore E L} {op : Operation E} {admission : Admission L}

omit [DecidableEq L] in
theorem preflight_ok (h : preflight digest policy op = .ok admission) :
    op.hash = op.header.hash ∧ policy op = .ok admission := by
  unfold preflight at h
  split at h
  · cases h
  split at h
  · cases h
  · rename_i hhash
    refine ⟨not_not.mp hhash, ?_⟩
    cases hpolicy : policy op with
    | error => rw [hpolicy] at h; cases h
    | ok admission' => rw [hpolicy] at h; cases h; rfl

/-- Nothing is accepted, and the store is as it was but for what the indexes have no part in, or
for bodies that its references wait for. -/
theorem advances_of_moves (tidy : Prop)
    (h : Moves (callScope (Backend.get b) [] tidy stages) (Backend.get b) (Backend.get b')) :
    Advances digest policy b b' [] tidy stages where
  admissible := ⟨nofun, nofun, nofun, .nil, .nil⟩
  moves := h
  kept := nofun
  pruned := nofun
  erased before e after h := absurd h (by simp)

theorem Advances.mono {tidy' : Prop}
    {stages' : DropRecord E → Prop} (h : Advances digest policy b b' accepted tidy stages)
    (htidy : tidy' → tidy) (hle : ∀ record, stages record → stages' record) :
    Advances digest policy b b' accepted tidy' stages' := by
  have hwithin : (callScope (Backend.get b) accepted tidy stages).Within
      (callScope (Backend.get b) accepted tidy' stages') :=
    ⟨fun _ _ => id, fun _ => id, fun _ _ => And.imp_left (mt htidy), fun _ => And.imp_left (mt htidy),
      hle⟩
  exact ⟨h.admissible, Moves.mono hwithin h.moves, h.kept, fun h' => h.pruned (htidy h'), h.erased⟩

/-! ## One operation -/

def acceptedOf (digest : Str → Bytes32) (policy : Policy E L) (b : MunimentStore E L)
    (op : Operation E) : List (Operation E × Admission L) :=
  match preflight digest policy op with
  | .error _ => []
  | .ok admission =>
    if hasOperation b op.hash then []
    else
      match continues (getLatestEntry b op.header.verifyingKey admission.target.logId) op
          admission.history with
      | .error _ => []
      | .ok () => [(op, admission)]

theorem mem_acceptedOf {e : Operation E × Admission L} (h : e ∈ acceptedOf digest policy b op) :
    e.1 = op := by
  unfold acceptedOf at h
  split at h
  · cases h
  split at h
  · cases h
  split at h
  · cases h
  · rw [mem_singleton.mp h]

theorem acceptedOf_ok (h : acceptedOf digest policy b op = [(op, admission)]) :
    preflight digest policy op = .ok admission ∧ hasOperation b op.hash = false ∧
      continues (getLatestEntry b op.header.verifyingKey admission.target.logId) op
        admission.history = .ok () := by
  unfold acceptedOf at h
  split at h
  · cases h
  rename_i hjudged
  split at h
  · cases h
  rename_i hnew
  split at h
  · cases h
  · rename_i hcontinues
    cases h
    exact ⟨hjudged, Bool.not_eq_true _ ▸ hnew, hcontinues⟩

theorem process_of_accepted (h : acceptedOf digest policy b op = [(op, admission)]) :
    process digest policy b op = commit b op admission := by
  obtain ⟨hjudged, hnew, hcontinues⟩ := acceptedOf_ok h
  unfold process
  simp only [hjudged, hnew, hcontinues, Bool.false_eq_true, if_false]

/-- The admission prunes nothing that it erases a body of. -/
def Tidy (u : Held E L) (op : Operation E) (admission : Admission L) : Prop :=
  admission.history.prunes = true → ∀ id ∈ admission.erasePayloads, ∀ place header bytes,
    u (.op id) = some place → u (.log place) = some (header, some bytes) →
    ¬place.Below (placeOf (op, admission))

theorem above_of_continues {latest : Option (Operation E)} {history : HistoryAction}
    (h : continues latest op history = .ok ()) {previous : Operation E}
    (hlatest : latest = some previous) : previous.header.seqNum < op.header.seqNum := by
  subst hlatest
  unfold continues at h
  simp only at h
  split at h
  · cases h
  · rename_i hlt
    exact Nat.lt_of_not_le hlt

theorem hasOperation_eq_false (id : Bytes32) :
    hasOperation b id = false ↔ Backend.get b (.op id) = none := by
  exact isSome_eq_false_iff.trans isNone_iff_eq_none

theorem admissible_single (hsound : Sound headerOf (Backend.get b))
    (hjudged : preflight digest policy op = .ok admission)
    (hnew : hasOperation b op.hash = false)
    (hcontinues : continues (getLatestEntry b op.header.verifyingKey
      admission.target.logId) op admission.history = .ok ()) :
    Admissible digest policy (Backend.get b) [(op, admission)] := by
  refine ⟨?_, ?_, ?_, pairwise_singleton _ _, pairwise_singleton _ _⟩
  · rintro e he
    obtain rfl := mem_singleton.mp he
    exact hjudged
  · rintro e he
    obtain rfl := mem_singleton.mp he
    rw [← (preflight_ok hjudged).1]
    exact (hasOperation_eq_false op.hash).mp hnew
  · rintro e he ⟨author, logId, seqNum⟩ hplace hauthor hlog
    obtain rfl := mem_singleton.mp he
    refine ⟨hauthor, hlog, ?_⟩
    obtain rfl : author = op.header.verifyingKey := hauthor
    obtain rfl : logId = admission.target.logId := hlog
    cases hlatest : getLatestEntry b op.header.verifyingKey admission.target.logId with
    | none => exact absurd (getLatestEntry_none hlatest seqNum) hplace
    | some previous =>
      have hle := le_getLatestEntry hsound hlatest hplace
      exact hle.trans_lt (above_of_continues hcontinues hlatest)

def prunedView (b : MunimentStore E L) (op : Operation E) (admission : Admission L) : Held E L :=
  (Backend.get b).sets (if admission.history.prunes then
    (prefixPruneWrites b op.header.verifyingKey admission.target.logId
      op.header.seqNum).1 else [])

theorem log_prunedView (place : LogKey L) : prunedView b op admission (.log place) = none ↔
    Backend.get b (.log place) = none ∨
      admission.history.prunes = true ∧ place.Below (placeOf (op, admission)) := by
  unfold prunedView
  split
  · rename_i hprunes
    unfold prefixPruneWrites
    rw [log_prune fun p hp => (mem_prunedPlaces.mp hp).1, ite_eq_left_iff,
      mem_prunedPlaces]
    constructor
    · intro h
      by_cases hplace : Backend.get b (.log place) = none
      · exact .inl hplace
      · exact .inr ⟨hprunes, by_contra fun hbelow => hplace (h fun hin => hbelow hin.2)⟩
    · rintro (hplace | ⟨-, hbelow⟩) hout
      · exact hplace
      · exact by_contra fun hplace => hout ⟨hplace, hbelow⟩
  · rename_i hprunes
    simp [hprunes]

theorem moves_prunedView :
    Moves (callScope (Backend.get b) [(op, admission)] tidy) (Backend.get b)
      (prunedView b op admission) := by
  unfold prunedView
  split
  · rename_i hprunes
    refine moves_prune nodup_prunedPlaces (fun place hplace => ?_)
      fun place hplace => ?_
    · exact ⟨(op, admission), mem_singleton_self _, hprunes,
        (mem_prunedPlaces.mp hplace).2⟩
    · have hheld := (mem_prunedPlaces.mp hplace).1
      obtain ⟨⟨header, body⟩, hentry⟩ := ne_none_iff_exists'.mp hheld
      exact ⟨header, body, hentry, .inl ⟨body, hentry⟩⟩
  · exact .refl

theorem trimmed_prunedView : Trimmed (Backend.get b) (prunedView b op admission) := by
  unfold prunedView
  split
  · exact Trimmed.prune fun p hp => (mem_prunedPlaces.mp hp).1
  · exact Trimmed.refl _

def effectView (b : MunimentStore E L) (op : Operation E) (admission : Admission L) : Held E L :=
  (prunedView b op admission).sets
    (admission.erasePayloads.flatMap fun id => (eraseWrites b id).1)

theorem get_commit (hhash : op.hash = op.header.hash)
    (hnew : hasOperation b op.hash = false) :
    Backend.get (commit b op admission).2 =
      ((effectView b op admission).set
        (.put (.topic admission.target.topic op.header.verifyingKey admission.target.logId) ())).sets
          (insertion (placeOf (op, admission)) op.header op.body) := by
  unfold commit insertIndexedOperationWithEffects
  rw [hnew]
  simp only [Bool.false_eq_true, if_false]
  rw [Backend.get_apply, View.sets_append, indexWrites_eq hhash]
  unfold effectWrites
  rw [View.sets_append]
  rfl

abbrev commitScope (b : MunimentStore E L) (op : Operation E) (admission : Admission L) : Scope E L :=
  callScope (Backend.get b) [(op, admission)] (Tidy (Backend.get b) op admission)

variable (hsound : Sound headerOf (Backend.get b))
include hsound

theorem known_commitScope
    (hknown : headerOf op.header.hash = op.header) : (commitScope b op admission).Known headerOf :=
  known_callScope hsound fun _ he => mem_singleton.mp he ▸ hknown

omit hsound in
theorem moves_effectView (admission : Admission L) (hsound : Sound headerOf (Backend.get b))
    (hknown : headerOf op.header.hash = op.header) :
    Moves (commitScope b op admission) (prunedView b op admission) (effectView b op admission) ∧
      Trimmed (Backend.get b) (effectView b op admission) ∧
      ∀ id ∈ admission.erasePayloads, Backend.get b (.op id) ≠ none →
        (∀ place header, (commitScope b op admission).inserts place header → header.hash ≠ id) →
        Erased (effectView b op admission) id := by
  have hscope : (commitScope b op admission).Known headerOf := known_commitScope hsound hknown
  refine moves_erases hsound hscope (hsound.moves moves_prunedView hscope) trimmed_prunedView ?_
  intro id hid place header bytes hpointer hplace hgone
  rcases (log_prunedView place).mp hgone with hnone | ⟨hprunes, hbelow⟩
  · rw [hplace] at hnone
    cases hnone
  · exact ⟨fun htidy => htidy hprunes id hid place header bytes hpointer hplace hbelow, _, hplace⟩

variable (hknown : headerOf op.header.hash = op.header)
include hknown

section

variable (hadmissible : Admissible digest policy (Backend.get b) [(op, admission)])
include hadmissible

theorem advances_commit (hnew : hasOperation b op.hash = false) :
    Advances digest policy b (commit b op admission).2 [(op, admission)]
      (Tidy (Backend.get b) op admission) := by
  have hself : (op, admission) ∈ [(op, admission)] := mem_singleton_self _
  have hhash := (preflight_ok (hadmissible.judged _ hself)).1
  have hscope : (commitScope b op admission).Known headerOf := known_commitScope hsound hknown
  have hprune : Moves (commitScope b op admission) (Backend.get b) (prunedView b op admission) :=
    moves_prunedView
  obtain ⟨herase, htrimmed, herased⟩ := moves_effectView admission hsound hknown
  have hheld := hadmissible.new _ hself
  -- Nothing is at the operation's place, and it goes there.
  have hfree : Backend.get b (.log (placeOf (op, admission))) = none := by
    by_contra hplace
    exact absurd (hadmissible.above _ hself _ hplace rfl rfl).2.2 (lt_irrefl _)
  have hop : effectView b op admission (.op op.header.hash) = none :=
    eq_none_iff_forall_ne_some.mpr fun place h => by
      have hbefore := htrimmed.op _ place h
      rw [hheld] at hbefore
      cases hbefore
  have hinsert : Moves (commitScope b op admission) (effectView b op admission)
      (Backend.get (commit b op admission).2) := by
    have haside : (WriteOp.put (.topic admission.target.topic op.header.verifyingKey
        admission.target.logId) () : Write E L).key.Aside := trivial
    rw [get_commit hhash hnew]
    refine .tail (.single (.aside ⟨haside, nofun⟩)) (.insert ⟨_, hself, rfl, rfl⟩ ?_ ?_ rfl)
    · exact ((aside_set haside).1 _).trans (htrimmed.fresh _ hfree)
    · exact ((aside_set haside).2.1 _).trans hop
  refine ⟨hadmissible, hprune.trans (herase.trans hinsert), fun e he _ => ?_,
    fun htidy e he hprunes place hbelow => ?_, fun before e after heq id hmem hold => ?_⟩
  · obtain rfl := mem_singleton.mp he
    rw [get_commit hhash hnew, log_insertion, if_pos rfl]
    exact some_ne_none _
  · obtain rfl := mem_singleton.mp he
    refine Moves.log_eq_none (herase.trans hinsert) (clean_callScope htidy)
      ((log_prunedView place).mpr (.inr ⟨hprunes, hbelow⟩)) ?_
    rintro header ⟨e, he, -, rfl⟩
    obtain rfl := mem_singleton.mp he
    exact lt_irrefl _ hbelow.2.2
  · have hnil : before = [] := by
      rcases before with _ | ⟨x, rest⟩
      · rfl
      · simp at heq
    subst hnil
    obtain rfl : (op, admission) = e := (List.cons.inj heq).1
    have hheld' := hold.resolve_right (by rintro ⟨e, he, -⟩; cases he)
    have hother : ∀ place' header', (commitScope b op admission).inserts place' header' →
        header'.hash ≠ id := by
      rintro place' header' ⟨e, he, rfl, -⟩ hsame
      obtain rfl := mem_singleton.mp he
      exact hheld' (hsame ▸ hheld)
    exact (herased id hmem hheld' hother).moves hinsert
      (hsound.moves (hprune.trans herase) hscope) hscope hother

theorem orphan_commit
    (hnew : hasOperation b op.hash = false) (huntidy : ¬Tidy (Backend.get b) op admission) :
    ∃ place header body,
      Backend.get (commit b op admission).2 (.log place) = some (header, body) ∧
      Backend.get (commit b op admission).2 (.op header.hash) = none := by
  have hself : (op, admission) ∈ [(op, admission)] := mem_singleton_self _
  have hhash := (preflight_ok (hadmissible.judged _ hself)).1
  unfold Tidy at huntidy
  push Not at huntidy
  obtain ⟨hprunes, id, hmem, place, header, bytes, hid, hplace, hbelow⟩ := huntidy
  have hgone : prunedView b op admission (.log place) = none :=
    (log_prunedView place).mpr (.inr ⟨hprunes, hbelow⟩)
  have hscope : (commitScope b op admission).Known headerOf := known_commitScope hsound hknown
  have hv : Sound headerOf (prunedView b op admission) := hsound.moves moves_prunedView hscope
  obtain ⟨-, htrimmed, -⟩ := moves_effectView admission hsound hknown
  have haside : (WriteOp.put (.topic admission.target.topic op.header.verifyingKey
      admission.target.logId) () : Write E L).key.Aside := trivial
  obtain ⟨header', body', hentry, rfl⟩ := hsound.pointer id place hid
  rw [hplace] at hentry
  cases hentry
  -- The prune takes the pointer with the entry.
  have hop : prunedView b op admission (.op header.hash) = none := by
    refine eq_none_iff_forall_ne_some.mpr fun place' hid' => ?_
    have hbefore := trimmed_prunedView.op _ place' hid'
    rw [hid] at hbefore
    cases hbefore
    obtain ⟨header', body', hentry, -⟩ := hv.pointer _ _ hid'
    rw [hgone] at hentry
    cases hentry
  have hother : header.hash ≠ op.header.hash := by
    intro heq
    have hfresh := hadmissible.new _ hself
    rw [← heq, hid] at hfresh
    cases hfresh
  -- The erasure puts the entry back.
  have hback : effectView b op admission (.log place) ≠ none :=
    log_erases_of_body hsound hmem hid hplace
  obtain ⟨body', hentry, -⟩ := (htrimmed.entry place header _ hplace).resolve_left hback
  refine ⟨place, header, body', ?_, ?_⟩
  · rw [get_commit hhash hnew, log_insertion, if_neg, (aside_set haside).1, hentry]
    rintro rfl
    exact lt_irrefl _ hbelow.2.2
  · rw [get_commit hhash hnew, op_insertion, if_neg hother]
    exact (op_erases hsound).trans hop

end

omit hknown in
theorem moves_hydrate {scope : Scope E L} :
    Moves scope (Backend.get b) (Backend.get (hydrate digest b op).2) := by
  unfold hydrate
  split
  · rename_i payloadHash body _ _
    unfold attachPayload
    cases hwrites : payloadAttachmentWrites digest b payloadHash body with
    | error => exact .refl
    | ok result =>
      obtain ⟨writes, attached⟩ := result
      have hattaches := attaches_of_payloadAttachmentWrites hsound hwrites
      change Moves scope (Backend.get b) (Backend.get (Backend.apply b writes))
      rw [Backend.get_apply]
      exact (moves_leading (.refl _) fun w hw => .inl (hattaches w hw)).1 scope fun _ => id
  · exact .refl

theorem process_advances :
    Advances digest policy b (process digest policy b op).2
      (acceptedOf digest policy b op)
      (∀ admission, policy op = .ok admission → Tidy (Backend.get b) op admission) := by
  unfold process acceptedOf
  cases hjudged : preflight digest policy op with
  | error => exact advances_of_moves _ .refl
  | ok admission =>
    have hpolicy := (preflight_ok hjudged).2
    have htidy : (∀ admission, policy op = .ok admission → Tidy (Backend.get b) op admission) =
        Tidy (Backend.get b) op admission := by
      refine propext ⟨fun h => h admission hpolicy, fun h admission' hadmission => ?_⟩
      rw [hpolicy] at hadmission
      exact Except.ok.inj hadmission ▸ h
    rw [htidy]
    cases hnew : hasOperation b op.hash with
    | true =>
      exact advances_of_moves _ (moves_hydrate hsound)
    | false =>
      simp only [Bool.false_eq_true, if_false]
      cases hcontinues : continues (getLatestEntry b op.header.verifyingKey
          admission.target.logId) op admission.history with
      | error => exact advances_of_moves _ .refl
      | ok _ =>
        exact advances_commit hsound hknown (admissible_single hsound hjudged hnew hcontinues) hnew

end Mere.Stickleback
