import Mere.Mesh.Committed
import Mere.Mesh.Policy
import Mere.Mesh.Projection

/-!
# The worker's decision function

From `crates/mesh/mesh/src/worker.rs`: the ladder of `next_action`, and what each rung may
return.
-/

namespace Mere.Mesh

open OrdMap List Option

structure HostOffer where
  registry : ResourceRegistry
  facts : HostFacts
  policy : DevicePolicy
  conditions : DeviceConditions
  nowMs : Nat
  lease : LeasePolicy
  running : List JobId
  deriving DecidableEq

namespace HostOffer

def mustStop (offer : HostOffer) : Option ReclaimReason :=
  offer.policy.withholding offer.conditions

def accepting (offer : HostOffer) : Bool :=
  offer.mustStop.isNone && !offer.policy.atCapacity offer.conditions

def canRun (offer : HostOffer) (job : Job) : Bool :=
  match job.spec, job.kind with
  | some spec, _ => offer.policy.accepts spec && offer.registry.offers spec offer.facts
  | none, none => false
  | none, some kind =>
    job.payload.isSome &&
      (offer.registry.get (legacyResourceId kind)).any (fun d => d.requires.satisfiedBy offer.facts)

def isRunning (offer : HostOffer) (job : JobId) : Bool := offer.running.contains job

end HostOffer

inductive WorkerAction where
  | reclaim (job : JobId) (lease : LeaseId) (reason : ReclaimReason)
  | heartbeat (job : JobId) (lease : LeaseId)
  | grant (job : JobId) (epoch grantedAtMs expiresAtMs : Nat)
  | execute (job : JobId)
  | claim (job : JobId)
  | idle
  deriving DecidableEq

/-! ## The rungs

Each is the body of one loop over the jobs and their phases: what it returns, if it
returns there.
-/

section Rungs

variable (me : Bytes32) (offer : HostOffer) (p : Job × LeasePhase)

def reclaimRung (reason : ReclaimReason) (p : Job × LeasePhase) : Option WorkerAction :=
  if p.2.heldBy me && offer.isRunning p.1.id then
    p.2.lease.map (fun lease => .reclaim p.1.id lease reason)
  else none

def heartbeatRung : Option WorkerAction :=
  match p.2 with
  | .held _ lease _ _ lastSeenMs _ =>
    if p.2.heldBy me then
      match p.1.leaseTerms with
      | some terms =>
        if offer.nowMs ≥ satAdd lastSeenMs terms.heartbeatMs then some (.heartbeat p.1.id lease)
        else none
      | none => none
    else none
  | _ => none

/-- A leased job needs a live lease, an unleased one its claim. -/
def isMine : Bool :=
  match p.2 with
  | .unleased => p.1.state == .claimed me
  | phase => phase.heldBy me

def executeRung : Option WorkerAction :=
  if isMine me p && !offer.isRunning p.1.id && offer.canRun p.1 then some (.execute p.1.id)
  else none

def grantRung : Option WorkerAction :=
  match p.2.openEpoch, p.1.leaseTerms with
  | some epoch, some terms =>
    if p.1.nextHolder offer.nowMs == some me && offer.canRun p.1 then
      some (.grant p.1.id epoch offer.nowMs (satAdd offer.nowMs terms.maxDurationMs))
    else none
  | _, _ => none

def isOpen : Bool :=
  match p.2 with
  | .unleased => p.1.state == .posted
  | phase => phase.openEpoch.isSome && !p.1.hasClaimed me

def claimRung : Option WorkerAction :=
  if offer.canRun p.1 && isOpen me p then some (.claim p.1.id) else none

end Rungs

variable (board : JobBoard)

def phases (offer : HostOffer) : List (Job × LeasePhase) :=
  (vals board.jobs).map (fun job => (job, job.leaseAt offer.nowMs offer.lease))

def nextAction (me : Bytes32) (offer : HostOffer) : WorkerAction :=
  let jobs := phases board offer
  match offer.mustStop.bind (fun reason => jobs.findSome? (reclaimRung me offer reason)) with
  | some action => action
  | none =>
    match jobs.findSome? (heartbeatRung me offer) with
    | some action => action
    | none =>
      match jobs.findSome? (executeRung me offer) with
      | some action => action
      | none =>
        if !offer.accepting then .idle
        else match jobs.findSome? (grantRung me offer) with
          | some action => action
          | none => (jobs.findSome? (claimRung me offer)).getD .idle

/-! ## What each rung may return -/

section Returns

variable {me : Bytes32} {offer : HostOffer} {p : Job × LeasePhase} {action : WorkerAction}

variable {reason : ReclaimReason}

theorem reclaimRung_returns (h : reclaimRung me offer reason p = some action) :
    ∃ lease, action = .reclaim p.1.id lease reason := by
  unfold reclaimRung at h
  split at h
  · obtain ⟨lease, -, rfl⟩ := map_eq_some_iff.mp h
    exact ⟨lease, rfl⟩
  · simp at h

theorem heartbeatRung_returns (h : heartbeatRung me offer p = some action) :
    ∃ lease, action = .heartbeat p.1.id lease := by
  unfold heartbeatRung at h
  split at h
  · split at h
    · split at h
      · split at h
        · exact ⟨_, (some.inj h).symm⟩
        · simp at h
      · simp at h
    · simp at h
  · simp at h

theorem executeRung_returns (h : executeRung me offer p = some action) :
    action = .execute p.1.id ∧ isMine me p = true ∧ offer.isRunning p.1.id = false ∧
      offer.canRun p.1 = true := by
  unfold executeRung at h
  split at h
  · rename_i hc
    simp only [Bool.and_eq_true, Bool.not_eq_true'] at hc
    exact ⟨(some.inj h).symm, hc.1.1, hc.1.2, hc.2⟩
  · simp at h

theorem grantRung_returns (h : grantRung me offer p = some action) :
    ∃ epoch terms, p.2.openEpoch = some epoch ∧ p.1.leaseTerms = some terms ∧
      p.1.nextHolder offer.nowMs = some me ∧
      action = .grant p.1.id epoch offer.nowMs (satAdd offer.nowMs terms.maxDurationMs) := by
  unfold grantRung at h
  split at h
  · rename_i epoch terms he ht
    split at h
    · rename_i hc
      simp only [Bool.and_eq_true, beq_iff_eq] at hc
      exact ⟨epoch, terms, he, ht, hc.1, (some.inj h).symm⟩
    · simp at h
  · simp at h

theorem claimRung_returns (h : claimRung me offer p = some action) : action = .claim p.1.id := by
  unfold claimRung at h
  split at h
  · exact (some.inj h).symm
  · simp at h

end Returns

/-- Where an action comes from: the rung, and the job that it is about. -/
theorem nextAction_cases (me : Bytes32) (offer : HostOffer) :
    nextAction board me offer = .idle ∨
      ∃ p ∈ phases board offer,
        (∃ reason, offer.mustStop = some reason ∧
          reclaimRung me offer reason p = some (nextAction board me offer)) ∨
        heartbeatRung me offer p = some (nextAction board me offer) ∨
        executeRung me offer p = some (nextAction board me offer) ∨
        (offer.accepting = true ∧ (grantRung me offer p = some (nextAction board me offer) ∨
          claimRung me offer p = some (nextAction board me offer))) := by
  unfold nextAction
  simp only
  split
  · rename_i action h
    obtain ⟨reason, hr, hf⟩ := bind_eq_some_iff.mp h
    obtain ⟨p, hp, hq⟩ := exists_of_findSome?_eq_some hf
    exact .inr ⟨p, hp, .inl ⟨reason, hr, hq⟩⟩
  split
  · rename_i action h
    obtain ⟨p, hp, hq⟩ := exists_of_findSome?_eq_some h
    exact .inr ⟨p, hp, .inr (.inl hq)⟩
  split
  · rename_i action h
    obtain ⟨p, hp, hq⟩ := exists_of_findSome?_eq_some h
    exact .inr ⟨p, hp, .inr (.inr (.inl hq))⟩
  split
  · exact .inl rfl
  rename_i hacc
  simp only [Bool.not_eq_true, Bool.not_eq_false'] at hacc
  split
  · rename_i action h
    obtain ⟨p, hp, hq⟩ := exists_of_findSome?_eq_some h
    exact .inr ⟨p, hp, .inr (.inr (.inr ⟨hacc, .inl hq⟩))⟩
  · cases h : (phases board offer).findSome? (claimRung me offer) with
    | none => exact .inl rfl
    | some action =>
      obtain ⟨p, hp, hq⟩ := exists_of_findSome?_eq_some h
      exact .inr ⟨p, hp, .inr (.inr (.inr ⟨hacc, .inr hq⟩))⟩

/-! ## The owner's policy -/

/-- A job of the board that `me` may run without asking for more work: it holds a live lease
on it, or won its claim race where there are no leases. -/
def MayFinish (me : Bytes32) (offer : HostOffer) (id : JobId) : Prop :=
  ∃ job ∈ vals board.jobs, job.id = id ∧
    isMine me (job, job.leaseAt offer.nowMs offer.lease) = true ∧
    offer.isRunning id = false ∧ offer.canRun job = true

variable {board : JobBoard} {offer : HostOffer} {me : Bytes32}

theorem mem_phases {p : Job × LeasePhase} :
    p ∈ phases board offer ↔
      ∃ job ∈ vals board.jobs, p = (job, job.leaseAt offer.nowMs offer.lease) := by
  unfold phases
  rw [List.mem_map]
  constructor
  · rintro ⟨job, hj, rfl⟩; exact ⟨job, hj, rfl⟩
  · rintro ⟨job, hj, rfl⟩; exact ⟨job, hj, rfl⟩

theorem execute_mayFinish {id : JobId}
    (h : nextAction board me offer = .execute id) : MayFinish board me offer id := by
  rcases nextAction_cases board me offer with hi | ⟨p, hp, hc⟩
  · simp [h] at hi
  rw [h] at hc
  rcases hc with ⟨reason, -, hr⟩ | hb | he | ⟨-, hg | hc⟩
  · obtain ⟨lease, heq⟩ := reclaimRung_returns hr; simp at heq
  · obtain ⟨lease, heq⟩ := heartbeatRung_returns hb; simp at heq
  · obtain ⟨heq, hmine, hrun, hcan⟩ := executeRung_returns he
    obtain ⟨job, hj, rfl⟩ := mem_phases.mp hp
    simp only [WorkerAction.execute.injEq] at heq
    subst heq
    exact ⟨job, hj, rfl, hmine, hrun, hcan⟩
  · obtain ⟨_, _, -, -, -, heq⟩ := grantRung_returns hg; simp at heq
  · have heq := claimRung_returns hc; simp at heq

theorem accepting_of_new_work
    (h : (∃ id epoch grantedAtMs expiresAtMs,
        nextAction board me offer = .grant id epoch grantedAtMs expiresAtMs) ∨
      ∃ id, nextAction board me offer = .claim id) : offer.accepting = true := by
  rcases nextAction_cases board me offer with hi | ⟨p, -, hc⟩
  · simp [hi] at h
  rcases hc with ⟨reason, -, hr⟩ | hb | he | ⟨hacc, -⟩
  · obtain ⟨lease, heq⟩ := reclaimRung_returns hr; simp [heq] at h
  · obtain ⟨lease, heq⟩ := heartbeatRung_returns hb; simp [heq] at h
  · have heq := (executeRung_returns he).1; simp [heq] at h
  · exact hacc

theorem lease_of_heldBy {phase : LeasePhase} (h : phase.heldBy me = true) :
    phase.lease.isSome = true := by
  cases phase <;> simp_all [LeasePhase.heldBy, LeasePhase.lease]

theorem reclaims (hstop : offer.mustStop = some reason) {job : Job} (hj : job ∈ vals board.jobs)
    (hheld : (job.leaseAt offer.nowMs offer.lease).heldBy me = true)
    (hrun : offer.isRunning job.id = true) :
    ∃ id lease, nextAction board me offer = .reclaim id lease reason := by
  have hfound : ((phases board offer).findSome? (reclaimRung me offer reason)).isSome = true := by
    rw [findSome?_isSome_iff]
    refine ⟨_, mem_phases.mpr ⟨job, hj, rfl⟩, ?_⟩
    unfold reclaimRung
    rw [if_pos (by simp [hheld, hrun]), isSome_map]
    exact lease_of_heldBy hheld
  obtain ⟨action, haction⟩ := isSome_iff_exists.mp hfound
  have hnext : nextAction board me offer = action := by
    unfold nextAction
    simp only [hstop, bind_some, haction]
  obtain ⟨p, -, hp⟩ := exists_of_findSome?_eq_some haction
  obtain ⟨lease, rfl⟩ := reclaimRung_returns hp
  exact ⟨p.1.id, lease, hnext⟩

-- A laptop with its human at the keyboard, and an echo job it won before.
def echoHost : ResourceRegistry :=
  ⟨[⟨legacyResourceId .echo, ⟨[101, 47, 118, 49]⟩, ⟨0, .cpu⟩, .exactBytes⟩]⟩

def laptopInUse : HostOffer where
  registry := echoHost
  facts := ⟨4096, false⟩
  policy := .conservative
  conditions := DeviceConditions.spare.inUse
  nowMs := 2000
  lease := {}
  running := []

def wonEcho : List Operation :=
  [signed 7 10 1 0 (.jobPosted .echo [1] 0 0), signed 7 11 2 0 (.jobClaimed 10 1)]

end Mere.Mesh
