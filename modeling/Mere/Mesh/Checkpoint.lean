import Mere.Mesh.Retention

/-!
# Checkpoint and tail against the full history

Two questions about a checkpoint: does finished work stay finished, and is the board after
the tail the one a full replay shows?
-/

namespace Mere.Mesh

open OrdMap Option
open List hiding getElem?_insert
open Std.ExtTreeMap hiding getElem?_insert

/-! ## Finished work -/

variable (post : Posted) (w : Bytes32) (r : Option ResultRecord)

theorem resolve_winner : (post.resolve w r).winner = some w := by
  unfold Posted.resolve
  split
  · rfl
  · split <;> rfl
  · rfl

theorem resolve_terminal (h : (post.resolve w r).isTerminal = true) :
    ∃ r', r = some r' ∧ (post.resolve w r).result = some (w, r') := by
  unfold Posted.resolve at h ⊢
  split at h
  · exact ⟨_, rfl, rfl⟩
  · split at h
    · rename_i hgood
      exact ⟨_, rfl, by rw [if_pos hgood]; rfl⟩
    · simp [JobState.isTerminal] at h
  · simp [JobState.isTerminal] at h

theorem resolve_none : post.resolve w none = .claimed w := by
  cases post.spec <;> rfl

theorem seedResults_getElem? (job : Job) (w : Bytes32) :
    (seedResults job)[w]? =
      job.state.result.bind (fun p => if p.1 = w then some p.2 else none) := by
  unfold seedResults seedResult
  rw [if_pos rfl]
  cases job.state.result with
  | none => rfl
  | some p =>
    rw [Option.toList_some, Std.ExtTreeMap.insertMany_list_singleton, getElem?_insert]
    rfl

theorem resolve_seed (job : Job) (w : Bytes32) (r : Option ResultRecord)
    (h : job.state = job.post.resolve w r) : job.post.resolve w (seedResults job)[w]? = job.state := by
  rw [seedResults_getElem?]
  by_cases ht : (job.post.resolve w r).isTerminal = true
  · obtain ⟨r', rfl, hres⟩ := resolve_terminal _ _ _ ht
    rw [h, hres, bind_some, if_pos rfl]
  · have hw := resolve_winner job.post w r
    rw [← h] at ht hw
    cases hs : job.state with
    | posted => simp [hs, JobState.winner] at hw
    | claimed w' =>
      simp only [hs, JobState.winner, some.injEq] at hw
      subst hw
      exact resolve_none _ _
    | done w' result | committed w' output => simp [hs, JobState.isTerminal] at ht

variable (f : JobFacts) {winnerFor : Nat → Nat → Option Bytes32}

theorem JobFacts.terminal_of_unleased (ht : f.terms = none) (h : f.state.isTerminal = true) :
    ∃ w r, f.state.winner = some w ∧ f.state = f.post.resolve w r := by
  have hs := f.state_of_unleased ht
  cases hw : f.winner with
  | none => rw [hs, hw] at h; simp [JobState.isTerminal] at h
  | some w =>
    rw [hw] at hs
    exact ⟨w, _, by rw [hs]; exact resolve_winner _ _ _, hs⟩

theorem JobFacts.terminal_of_leased (spec : JobSpec) (terms : LeaseTerms)
    (hs : f.post.spec = some spec) (ht : spec.lease = some terms) (h : f.state.isTerminal = true) :
    ∃ w o, f.state = .committed w o := by
  rw [f.state_of_leased spec terms hs ht] at h ⊢
  cases hc : f.leases.completedOutput f.lease with
  | some done => exact ⟨done.1, done.2, rfl⟩
  | none =>
    rw [hc] at h
    revert h
    cases f.lease.current <;> cases f.winner <;> simp [JobState.isTerminal]

theorem resumed_lease (mesh : Bytes32) (tail : List Operation) (job : Job) (spec : JobSpec)
    (hs : job.spec = some spec) (ht : spec.lease.isSome = true) :
    (resumed mesh tail job).lease =
      (leasesIn mesh tail job.id).resolve (some job.lease) spec (resumed mesh tail job).claims := by
  have hret : (resumed mesh tail job).retained.getD {} = job.lease := by
    change (if job.lease.isEmpty then none else some job.lease).getD {} = job.lease
    split
    · rename_i hempty
      have : job.lease.epochs = [] := isEmpty_iff.mp hempty
      exact congrArg LeaseRecord.mk this.symm
    · rfl
  obtain ⟨terms, ht⟩ := isSome_iff_exists.mp ht
  rw [JobFacts.lease_of_leased _ spec terms hs ht, hret]
  unfold GatheredJobLeases.resolve
  rw [ht]
  rfl

/-- The epoch that closed the job stays the closing one unless the tail reopens it. -/
theorem resumed_completed (g : GatheredJobLeases) {spec : JobSpec} {terms : LeaseTerms}
    (ht : spec.lease = some terms) (claims : OrdMap Bytes32 ClaimFact) {record : LeaseRecord}
    (hchain : Chain terms winnerFor record.epochs.reverse)
    {e : LeaseEpoch} (he : e ∈ record.epochs) (hf : e.isFinal = true)
    (hopen : ¬ Reopens (g.admitted spec) e) :
    ∀ holder output, g.completedOutput (g.resolve (some record) spec claims) = some (holder, output) ↔
      ∃ c, FirstCompletion g e c ∧ e.holder = holder ∧ c.output = output := by
  obtain ⟨earlier, hsplit, hearlier⟩ := hchain.split_final he hf
  obtain rfl : record = ⟨earlier ++ [e]⟩ := congrArg LeaseRecord.mk hsplit
  have hsame := applyFactsTo_same (g.admitted spec) e
  have hfind : (g.resolve (some ⟨earlier ++ [e]⟩) spec claims).epochs.find? LeaseEpoch.isFinal =
      some ((g.admitted spec).applyFactsTo e) := by
    unfold GatheredJobLeases.resolve
    rw [ht]
    change ((g.admitted spec).resolve ⟨earlier ++ [e]⟩ terms _).epochs.find? _ = _
    rw [resolve_completed earlier hf hopen]
    exact find_final_last hearlier (applyFactsTo_final hf hopen)
  intro holder output
  rw [completedOutput_iff, hfind]
  simp only [some.injEq, exists_and_left, exists_eq_left', FirstCompletion.congr hsame,
    hsame.holder]

/-- What the tail has to hold for a finished job to stay as it is. No result but the
winner's last one is read. On a leased job the output is looked up in the tail alone, so the
tail has to repeat the completion, and past an end that is dated before the completion the
chain has to close again. -/
structure TailKeeps (mesh : Bytes32) (tail : List Operation) (job : Job) : Prop where
  unleased : ∀ w r, job.spec.bind JobSpec.lease = none → job.state.winner = some w →
    (resultsIn mesh tail job.id)[w]? = some r → job.post.resolve w (some r) = job.state
  repeated : ∀ spec epoch, job.spec = some spec → spec.lease.isSome = true →
    epoch ∈ job.lease.epochs → epoch.isFinal = true →
    ¬ Reopens ((leasesIn mesh tail job.id).admitted spec) epoch →
    ∃ c, FirstCompletion (leasesIn mesh tail job.id) epoch c ∧
      job.state = .committed epoch.holder c.output
  reopened : ∀ spec epoch, job.spec = some spec → spec.lease.isSome = true →
    epoch ∈ job.lease.epochs → epoch.isFinal = true →
    Reopens ((leasesIn mesh tail job.id).admitted spec) epoch →
    ∃ next c,
      ((leasesIn mesh tail job.id).resolve (some job.lease) spec
        (resumed mesh tail job).claims).epochs.find? LeaseEpoch.isFinal = some next ∧
      FirstCompletion (leasesIn mesh tail job.id) next c ∧
      job.state = .committed next.holder c.output

section Finished

variable {mesh : Bytes32} {tail : List Operation} {f} {id : JobId}

theorem resumed_state_of_unleased (hz : ∀ op ∈ tail, op.hash ≠ 0) (ht : f.terms = none)
    (h : f.state.isTerminal = true) :
    (resumed mesh tail (f.job id)).state = f.state ↔ TailKeeps mesh tail (f.job id) := by
  obtain ⟨w, r, hw, hstate⟩ := f.terminal_of_unleased ht h
  have hs : (resumed mesh tail (f.job id)).state =
      f.post.resolve w ((resultsIn mesh tail id)[w]?.or (seedResults (f.job id))[w]?) := by
    rw [(resumed mesh tail (f.job id)).state_of_unleased ht,
      @resumed_winner tail mesh hz (f.job id) w hw, elim_some, resumed_results]
    rfl
  rw [hs]
  constructor
  · intro hkeep
    have hno : ∀ spec, (f.job id).spec = some spec → ¬ spec.lease.isSome = true := by
      intro spec hspec hsome
      change f.post.spec.bind JobSpec.lease = none at ht
      change f.post.spec = some spec at hspec
      rw [hspec, bind_some] at ht
      rw [ht] at hsome
      simp at hsome
    refine ⟨?_, fun spec _ hspec hsome => absurd hsome (hno spec hspec),
      fun spec _ hspec hsome => absurd hsome (hno spec hspec)⟩
    intro w' r' _ hw' hr'
    obtain rfl : w = w' := some.inj (hw.symm.trans hw')
    change (resultsIn mesh tail id)[w]? = some r' at hr'
    rw [hr'] at hkeep
    exact hkeep
  · intro hkeep
    cases hr : (resultsIn mesh tail id)[w]? with
    | none => exact resolve_seed (f.job id) w r hstate
    | some r' => exact hkeep.unleased w r' ht hw hr

theorem resumed_state_of_leased (spec : JobSpec) (terms : LeaseTerms)
    (hchain : Chain terms winnerFor f.lease.epochs.reverse)
    (hs : f.post.spec = some spec) (ht : spec.lease = some terms) (h : f.state.isTerminal = true) :
    (resumed mesh tail (f.job id)).state = f.state ↔ TailKeeps mesh tail (f.job id) := by
  obtain ⟨w, o, hstate⟩ := f.terminal_of_leased spec terms hs ht h
  have hsome : spec.lease.isSome = true := by rw [ht]; rfl
  have hclosed : ∀ e ∈ f.lease.epochs, e.isFinal = true →
      ¬ Reopens ((leasesIn mesh tail id).admitted spec) e → _ :=
    fun _ he hf => resumed_completed (leasesIn mesh tail id) ht
      (resumed mesh tail (f.job id)).claims hchain he hf
  rw [hstate, JobFacts.committed_iff_of_leased (resumed mesh tail (f.job id)) spec terms hs ht,
    resumed_lease mesh tail (f.job id) spec hs hsome]
  constructor
  · intro hdone
    refine ⟨?_, ?_, ?_⟩
    · intro w' r' hnone
      change f.post.spec.bind JobSpec.lease = none at hnone
      simp [hs, ht] at hnone
    · intro spec' e hspec' _ he hf hopen
      obtain rfl : spec = spec' := some.inj (hs.symm.trans hspec')
      obtain ⟨c, hc, rfl, rfl⟩ := (hclosed e he hf hopen w o).mp hdone
      exact ⟨c, hc, hstate⟩
    · intro spec' e hspec' _ _ _ _
      obtain rfl : spec = spec' := some.inj (hs.symm.trans hspec')
      obtain ⟨next, c, hfind, hc, rfl, rfl⟩ := (completedOutput_iff _ _ _ _).mp hdone
      exact ⟨next, c, hfind, hc, hstate⟩
  · intro hkeep
    obtain ⟨e, -, hfind, -⟩ := (completedOutput_iff _ _ _ _).mp
      ((f.committed_iff_of_leased spec terms hs ht w o).mp hstate)
    have he := mem_of_find?_eq_some hfind
    have hf := find?_some hfind
    by_cases hopen : Reopens ((leasesIn mesh tail id).admitted spec) e
    · obtain ⟨next, c, hnext, hc, hcommit⟩ := hkeep.reopened spec e hs hsome he hf hopen
      obtain ⟨rfl, rfl⟩ := JobState.committed.inj (hstate.symm.trans hcommit)
      exact (completedOutput_iff _ _ _ _).mpr ⟨next, c, hnext, hc, rfl, rfl⟩
    · obtain ⟨c, hc, hcommit⟩ := hkeep.repeated spec e hs hsome he hf hopen
      obtain ⟨rfl, rfl⟩ := JobState.committed.inj (hstate.symm.trans hcommit)
      exact (hclosed e he hf hopen _ _).mpr ⟨c, hc, rfl, rfl⟩

end Finished

def leasedEcho : List Operation :=
  [signed 7 10 1 0 (.jobPostedV2 (echoSpec (some minuteTerms)) 0 0),
    signed 7 11 2 0 (.jobClaimed 10 1), signed 7 12 2 1 (.leaseGranted 10 0 5 100),
    signed 7 13 2 2 (.jobCompletedUnderLease 10 12 (echoOutput 64) 50)]

section Append

variable (mesh : Bytes32) (ops tail : List Operation)

theorem getElem?_insertMany_view_append {V : Type} (view : Operation → Option (Bytes32 × V))
    (k : Bytes32) :
    ((∅ : OrdMap Bytes32 V).insertMany ((ops ++ tail).filterMap view))[k]? =
      ((∅ : OrdMap Bytes32 V).insertMany (tail.filterMap view))[k]?.or
        ((∅ : OrdMap Bytes32 V).insertMany (ops.filterMap view))[k]? := by
  rw [filterMap_append, insertMany_append]
  rw [getElem?_insertMany, getElem?_insertMany _ (tail.filterMap view)]
  simp

variable (id : JobId)

theorem postsIn_append :
    (postsIn mesh (ops ++ tail))[id]? = (postsIn mesh tail)[id]?.or (postsIn mesh ops)[id]? :=
  getElem?_insertMany_view_append ops tail (postOf mesh) id

theorem claimsIn_append (k : Bytes32) :
    (claimsIn mesh (ops ++ tail) id)[k]? =
      (claimsIn mesh tail id)[k]?.or (claimsIn mesh ops id)[k]? :=
  getElem?_insertMany_view_append ops tail (claimOn mesh id) k

theorem resultsIn_append (w : Bytes32) :
    (resultsIn mesh (ops ++ tail) id)[w]? =
      (resultsIn mesh tail id)[w]?.or (resultsIn mesh ops id)[w]? :=
  getElem?_insertMany_view_append ops tail (resultOn mesh id) w

end Append

def claimWinner (mesh : Bytes32) (ops : List Operation) (id : JobId) : Option Bytes32 :=
  (vals (claimsIn mesh ops id)).head?.map ClaimFact.author

/-- A frontier through the authors' logs, over work without leases, that no later claim
undercuts. -/
structure UnleasedSplit (mesh : Bytes32) (ops tail : List Operation) : Prop where
  hashes : ((ops ++ tail).map Operation.hash).Nodup
  nonzero : ∀ op ∈ ops ++ tail, op.hash ≠ 0
  prefixes : ∀ a ∈ ops, ∀ b ∈ tail, ∀ ea eb, eventFor mesh a = some ea → eventFor mesh b = some eb →
    a.author = b.author → ea.logId = eb.logId → a.seqNum < b.seqNum
  unleased : ∀ op ∈ ops ++ tail, ∀ id post, postOf mesh op = some (id, post) →
    post.spec.bind JobSpec.lease = none
  one_result : ∀ a ∈ ops ++ tail, ∀ b ∈ ops ++ tail, ∀ id author r r',
    resultOn mesh id a = some (author, r) → resultOn mesh id b = some (author, r') → a = b
  claims_later : ∀ (id : JobId), (postsIn mesh ops)[id]?.isSome → ∀ a ∈ ops,
    (claimOn mesh id a).isSome → ∀ b ∈ tail, (claimOn mesh id b).isSome →
    ∃ a' ∈ ops, (claimOn mesh id a').isSome ∧ a'.hash ≤ b.hash

/-- Nothing that the snapshot drops would have counted: a job posted after the frontier has
its winner there too, and no result below the frontier closes a job that is won above it. -/
structure NothingLost (mesh : Bytes32) (ops tail : List Operation) : Prop where
  claims : ∀ (id : JobId), (postsIn mesh ops)[id]? = none → (postsIn mesh tail)[id]?.isSome →
    claimWinner mesh (ops ++ tail) id = claimWinner mesh tail id
  results : ∀ (id : JobId) (post : Posted), (postsIn mesh (ops ++ tail))[id]? = some post →
    (postsIn mesh ops)[id]? = none ∨ claimWinner mesh ops id = none →
    ∀ w r, claimWinner mesh tail id = some w → (resultsIn mesh ops id)[w]? = some r →
    post.resolve w (some r) = .claimed w

namespace JobFacts

theorem job_eq_iff_of_unleased (g : JobFacts) (hp : f.post = g.post) (ht : f.terms = none)
    (id : JobId) : f.job id = g.job id ↔ f.state = g.state := by
  have ht' : g.terms = none := by unfold JobFacts.terms at ht ⊢; rw [← hp]; exact ht
  constructor
  · intro h
    exact congrArg Job.state h
  · intro h
    unfold JobFacts.job JobFacts.nextClaimants
    rw [f.lease_of_unleased ht, g.lease_of_unleased ht', ht, ht', hp, h]

theorem winner_of_unleased (ht : f.terms = none) : f.state.winner = f.winner := by
  rw [f.state_of_unleased ht]
  cases f.winner with
  | none => rfl
  | some w => exact resolve_winner _ _ _

end JobFacts

theorem mem_claimsIn {mesh : Bytes32} {ops' : List Operation}
    (hd : (ops'.map Operation.hash).Nodup) (id : JobId) (k : Bytes32) (c : ClaimFact) :
    (claimsIn mesh ops' id)[k]? = some c ↔ ∃ op ∈ ops', claimOn mesh id op = some (k, c) := by
  rw [claimsIn, getElem?_insertMany_iff _ _ _ _
    (keys_nodup _ (fun op _ _ => claimOn_key mesh id op) ops' hd) (by simp), mem_filterMap]

section Replay

variable {mesh : Bytes32} {ops tail : List Operation} {w : Bytes32} {post} (id : JobId)

theorem factsIn_state (ht : post.spec.bind JobSpec.lease = none) :
    (factsIn mesh ops id post).state = (claimWinner mesh ops id).elim .posted
      (fun w => post.resolve w (resultsIn mesh ops id)[w]?) :=
  (factsIn mesh ops id post).state_of_unleased ht

variable (h : UnleasedSplit mesh ops tail)
include h

theorem UnleasedSplit.identify : HashesIdentify (ops ++ tail) where
  inj := fun _ ha _ hb hab => inj_on_of_nodup_map h.hashes ha hb hab
  nonzero := h.nonzero

theorem UnleasedSplit.disjoint {a b : Operation} (ha : a ∈ ops) (hb : b ∈ tail) :
    a.hash ≠ b.hash := by
  have hn := h.hashes
  rw [map_append, nodup_append] at hn
  exact hn.2.2 a.hash (mem_map_of_mem ha) b.hash (mem_map_of_mem hb)

theorem result_below_only (id : JobId) {r : ResultRecord}
    (hr : (resultsIn mesh ops id)[w]? = some r) : (resultsIn mesh tail id)[w]? = none := by
  obtain ⟨a, ha, hva⟩ := mem_filterMap.mp (mem_of_getElem?_insertMany hr)
  cases ht : (resultsIn mesh tail id)[w]? with
  | none => rfl
  | some r' =>
    obtain ⟨b, hb, hvb⟩ := mem_filterMap.mp (mem_of_getElem?_insertMany ht)
    have hab := h.one_result a (mem_append_left _ ha) b (mem_append_right _ hb) id w r r'
      hva hvb
    exact absurd (congrArg Operation.hash hab) (h.disjoint ha hb)

theorem posted_unleased {id : JobId}
    (hp : (postsIn mesh (ops ++ tail))[id]? = some post) : post.spec.bind JobSpec.lease = none := by
  obtain ⟨op, hop, hview⟩ := mem_filterMap.mp (mem_of_getElem?_insertMany hp)
  exact h.unleased op hop id post hview

theorem tail_state_iff (id : JobId) (ht : post.spec.bind JobSpec.lease = none) :
    (factsIn mesh tail id post).state = (factsIn mesh (ops ++ tail) id post).state ↔
      claimWinner mesh (ops ++ tail) id = claimWinner mesh tail id ∧
        ∀ w r, claimWinner mesh tail id = some w → (resultsIn mesh ops id)[w]? = some r →
          post.resolve w (some r) = .claimed w := by
  constructor
  · intro heq
    have hwin : claimWinner mesh (ops ++ tail) id = claimWinner mesh tail id := by
      have := congrArg JobState.winner heq
      rw [(factsIn mesh tail id post).winner_of_unleased ht,
        (factsIn mesh (ops ++ tail) id post).winner_of_unleased ht] at this
      exact this.symm
    refine ⟨hwin, ?_⟩
    intro w r hw hr
    rw [factsIn_state id ht, factsIn_state id ht, hwin, hw, elim_some, elim_some, resultsIn_append,
      result_below_only h id hr, hr] at heq
    exact heq.symm
  · rintro ⟨hwin, hres⟩
    rw [factsIn_state id ht, factsIn_state id ht, hwin]
    cases hw : claimWinner mesh tail id with
    | none => rfl
    | some w =>
      rw [elim_some, elim_some, resultsIn_append]
      cases hr : (resultsIn mesh ops id)[w]? with
      | none => rw [or_none]
      | some r =>
        rw [result_below_only h id hr]
        exact (hres w r hw hr).symm

/-- Below the frontier the race is over. -/
theorem claimWinner_append (id : JobId) (hp : (postsIn mesh ops)[id]?.isSome)
    (hw : claimWinner mesh ops id = some w) : claimWinner mesh (ops ++ tail) id = some w := by
  have hdo : (ops.map Operation.hash).Nodup := by
    have := h.hashes
    rw [map_append] at this
    exact this.of_append_left
  unfold claimWinner at hw ⊢
  obtain ⟨c, hhead, rfl⟩ := map_eq_some_iff.mp hw
  obtain ⟨k, hk, hmin⟩ := (head_vals _ _).mp hhead
  obtain ⟨a, ha, hva⟩ := (mem_claimsIn hdo id k c).mp hk
  have hfull : (vals (claimsIn mesh (ops ++ tail) id)).head? = some c := by
    rw [head_vals]
    refine ⟨k, ?_, ?_⟩
    · rw [mem_claimsIn h.hashes]
      exact ⟨a, mem_append_left _ ha, hva⟩
    · intro k' c' hk'
      obtain ⟨b, hb, hvb⟩ := (mem_claimsIn h.hashes id k' c').mp hk'
      rcases mem_append.mp hb with hb | hb
      · exact hmin k' c' ((mem_claimsIn hdo id k' c').mpr ⟨b, hb, hvb⟩)
      · obtain ⟨a', ha', hsome, hle⟩ := h.claims_later id hp a ha (by simp [hva]) b hb (by simp [hvb])
        obtain ⟨⟨k'', c''⟩, hva'⟩ := isSome_iff_exists.mp hsome
        have hle' := hmin k'' c'' ((mem_claimsIn hdo id k'' c'').mpr ⟨a', ha', hva'⟩)
        rw [claimOn_key mesh id b hvb]
        rw [claimOn_key mesh id a' hva'] at hle'
        exact le_trans hle' hle
  rw [hfull, map_some]

theorem resumed_claimed (id : JobId) (hp : (postsIn mesh ops)[id]? = some post)
    (ht : post.spec.bind JobSpec.lease = none)
    (hw : claimWinner mesh ops id = some w) :
    (resumed mesh tail ((factsIn mesh ops id post).job id)).state =
      (factsIn mesh (ops ++ tail) id post).state := by
  have hbelow : (factsIn mesh ops id post).state = post.resolve w (resultsIn mesh ops id)[w]? := by
    rw [factsIn_state id ht, hw, elim_some]
  have hwin : (resumed mesh tail ((factsIn mesh ops id post).job id)).winner = some w := by
    apply resumed_winner (fun op hop => h.nonzero op (mem_append_right _ hop))
    change (factsIn mesh ops id post).state.winner = some w
    rw [hbelow, resolve_winner]
  rw [(resumed mesh tail ((factsIn mesh ops id post).job id)).state_of_unleased ht, hwin,
    factsIn_state id ht, claimWinner_append h id (by simp [hp]) hw, elim_some,
    elim_some, resumed_results, resultsIn_append]
  change post.resolve w ((resultsIn mesh tail id)[w]?.or _) = _
  cases (resultsIn mesh tail id)[w]? with
  | some r => rfl
  | none =>
    rw [none_or, none_or, ← hbelow]
    exact resolve_seed ((factsIn mesh ops id post).job id) w _ hbelow

omit h in
theorem claimsIn_of_no_winner (hw : claimWinner mesh ops id = none) (k : Bytes32) :
    (claimsIn mesh ops id)[k]? = none := by
  unfold claimWinner at hw
  rw [map_eq_none_iff, head_vals_none] at hw
  exact hw k

theorem resumed_unclaimed (id : JobId) (ht : post.spec.bind JobSpec.lease = none)
    (hw : claimWinner mesh ops id = none) :
    (resumed mesh tail ((factsIn mesh ops id post).job id)).state =
        (factsIn mesh (ops ++ tail) id post).state ↔
      ∀ w r, claimWinner mesh tail id = some w → (resultsIn mesh ops id)[w]? = some r →
        post.resolve w (some r) = .claimed w := by
  have hposted : (factsIn mesh ops id post).state = .posted := by
    rw [factsIn_state id ht, hw, elim_none]
  have hseed : ∀ job : Job, job.state = .posted → seedClaims job = ∅ ∧ seedResults job = ∅ := by
    intro job hjob
    unfold seedClaims seedResults seedClaim seedResult
    rw [if_pos rfl, if_pos rfl, hjob]
    exact ⟨rfl, rfl⟩
  have hclaims : claimWinner mesh (ops ++ tail) id = claimWinner mesh tail id := by
    have : claimsIn mesh (ops ++ tail) id = claimsIn mesh tail id := by
      apply Std.ExtTreeMap.ext_getElem?
      intro k
      rw [claimsIn_append, claimsIn_of_no_winner id hw, or_none]
    unfold claimWinner
    rw [this]
  have hstate : (resumed mesh tail ((factsIn mesh ops id post).job id)).state =
      (factsIn mesh tail id post).state := by
    obtain ⟨hc, hr⟩ := hseed ((factsIn mesh ops id post).job id) hposted
    rw [(resumed mesh tail ((factsIn mesh ops id post).job id)).state_of_unleased ht,
      (factsIn mesh tail id post).state_of_unleased ht]
    unfold JobFacts.winner resumed
    rw [hc, hr]
    rfl
  rw [hstate, tail_state_iff h id ht]
  simp [hclaims]

theorem replay_at (id : JobId) :
    (JobBoard.foldFromSnapshot mesh (.fromBoard (JobBoard.fold mesh ops)) tail).jobs[id]? =
        (JobBoard.fold mesh (ops ++ tail)).jobs[id]? ↔
      ((postsIn mesh ops)[id]? = none → (postsIn mesh tail)[id]?.isSome →
        claimWinner mesh (ops ++ tail) id = claimWinner mesh tail id) ∧
      ∀ post, (postsIn mesh (ops ++ tail))[id]? = some post →
        (postsIn mesh ops)[id]? = none ∨ claimWinner mesh ops id = none →
        ∀ w r, claimWinner mesh tail id = some w → (resultsIn mesh ops id)[w]? = some r →
        post.resolve w (some r) = .claimed w := by
  rw [fold_jobs]
  cases hp : (postsIn mesh ops)[id]? with
  | none =>
    have hfull : (postsIn mesh (ops ++ tail))[id]? = (postsIn mesh tail)[id]? := by
      rw [postsIn_append, hp, or_none]
    rw [hfull, resume_jobs mesh (fold_filed mesh ops), fold_jobs, hp, map_none]
    cases hq : (postsIn mesh tail)[id]? with
    | none => simp
    | some post =>
      have ht := posted_unleased h (hfull.trans hq)
      simp only [map_some, some.injEq]
      rw [JobFacts.job_eq_iff_of_unleased (factsIn mesh tail id post)
        (factsIn mesh (ops ++ tail) id post) rfl ht,
        tail_state_iff h id ht]
      simp
  | some post =>
    have hjob : (JobBoard.fold mesh ops).jobs[id]? = some ((factsIn mesh ops id post).job id) := by
      rw [fold_jobs, hp, map_some]
    have hfull : (postsIn mesh (ops ++ tail))[id]? = some post := by
      rw [postsIn_append, hp]
      cases hq : (postsIn mesh tail)[id]? with
      | none => rfl
      | some q => rw [post_unique h.identify hp hq]; rfl
    have ht := posted_unleased h hfull
    rw [resume_retained h.identify hjob, hfull, map_some, some.injEq,
      JobFacts.job_eq_iff_of_unleased (resumed mesh tail ((factsIn mesh ops id post).job id))
        (factsIn mesh (ops ++ tail) id post) rfl ht]
    cases hw : claimWinner mesh ops id with
    | some w => simp [resumed_claimed h id hp ht hw]
    | none =>
      rw [resumed_unclaimed h id ht hw]
      simp

theorem replay_iff :
    (JobBoard.foldFromSnapshot mesh (.fromBoard (JobBoard.fold mesh ops)) tail).jobs =
        (JobBoard.fold mesh (ops ++ tail)).jobs ↔ NothingLost mesh ops tail := by
  constructor
  · intro heq
    refine ⟨?_, ?_⟩
    · intro id
      exact ((replay_at h id).mp (by rw [heq])).1
    · intro id
      exact ((replay_at h id).mp (by rw [heq])).2
  · intro hn
    apply Std.ExtTreeMap.ext_getElem?
    intro id
    exact (replay_at h id).mpr ⟨hn.claims id, hn.results id⟩

end Replay

-- The claim is below the frontier, the post it names is not.
def claimBelow : List Operation := [signed 7 11 2 0 (.jobClaimed 10 1)]
def postAbove : List Operation := [signed 7 10 1 0 (.jobPosted .echo [1] 0 0)]

theorem mem_claimBelow {op : Operation} (h : op ∈ claimBelow ++ postAbove) :
    op = signed 7 11 2 0 (.jobClaimed 10 1) ∨ op = signed 7 10 1 0 (.jobPosted .echo [1] 0 0) := by
  simpa [claimBelow, postAbove] using h

theorem claimBelow_split : UnleasedSplit 7 claimBelow postAbove where
  hashes := by decide
  nonzero := by decide
  prefixes := by
    intro a ha b hb ea eb _ _ hauthor
    simp only [claimBelow, postAbove, mem_singleton] at ha hb
    subst ha hb
    exact absurd hauthor (by decide)
  unleased := by
    intro op hop id post hview
    rcases mem_claimBelow hop with rfl | rfl
    · simp [postOf] at hview
    · simp only [postOf, eventFor_signed, some.injEq, Prod.mk.injEq] at hview
      rw [← hview.2]
      rfl
  one_result := by
    intro a ha b hb id author r r' hra
    rcases mem_claimBelow ha with rfl | rfl <;> simp [resultOn] at hra
  claims_later := by
    intro id hposted
    have : postsIn 7 claimBelow = ∅ := by decide
    simp [this] at hposted

theorem replay_iff_claimBelow :
    UnleasedSplit 7 claimBelow postAbove ∧
      ((JobBoard.foldFromSnapshot 7 (.fromBoard (JobBoard.fold 7 claimBelow)) postAbove).jobs =
        (JobBoard.fold 7 (claimBelow ++ postAbove)).jobs ↔ NothingLost 7 claimBelow postAbove) :=
  ⟨claimBelow_split, replay_iff claimBelow_split⟩

theorem claim_lost :
    UnleasedSplit 7 claimBelow postAbove ∧
      (∀ op ∈ claimBelow ++ postAbove, (eventFor 7 op).isSome) ∧
      (JobBoard.foldFromSnapshot 7 (.fromBoard (JobBoard.fold 7 claimBelow)) postAbove).jobs[(10 : JobId)]?.map
        Job.state = some .posted ∧
      (JobBoard.fold 7 (claimBelow ++ postAbove)).jobs[(10 : JobId)]?.map Job.state =
        some (.claimed 2) := by
  refine ⟨claimBelow_split, ?_, ?_, ?_⟩ <;> decide

end Mere.Mesh
