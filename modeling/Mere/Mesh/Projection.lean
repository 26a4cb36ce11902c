import Mere.Mesh.Board

/-!
# The lease projection: the one place where the time is asked

From `crates/mesh/mesh/src/projection.rs` and the methods of `Job` in `board.rs` that
take a clock reading.
-/

namespace Mere.Mesh

structure LeasePolicy where
  maxSkewMs : Nat := 60000
  deriving DecidableEq

inductive LapseReason where
  | expired | heartbeatSilence
  deriving DecidableEq

inductive LeasePhase where
  | unleased
  | openAt (epoch : Nat)
  | held (epoch : Nat) (lease : LeaseId) (holder : Bytes32) (expiresAtMs lastSeenMs : Nat)
      (progress : LeaseProgress)
  | released (epoch : Nat) (lease : LeaseId) (holder : Bytes32) (reason : ReleaseReason) (atMs : Nat)
  | reclaimed (epoch : Nat) (lease : LeaseId) (holder : Bytes32) (reason : ReclaimReason) (atMs : Nat)
  | lapsed (epoch : Nat) (lease : LeaseId) (holder : Bytes32) (reason : LapseReason)
  | done (epoch : Nat) (lease : LeaseId) (holder : Bytes32)
  deriving DecidableEq

namespace LeasePhase

def lease : LeasePhase → Option LeaseId
  | .unleased => none
  | .openAt _ => none
  | .held _ lease _ _ _ _ => some lease
  | .released _ lease _ _ _ => some lease
  | .reclaimed _ lease _ _ _ => some lease
  | .lapsed _ lease _ _ => some lease
  | .done _ lease _ => some lease

def heldBy (phase : LeasePhase) (me : Bytes32) : Bool :=
  match phase with
  | .held _ _ holder _ _ _ => holder == me
  | _ => false

def openEpoch : LeasePhase → Option Nat
  | .openAt epoch => some epoch
  | .released epoch _ _ _ _ => some (succ32 epoch)
  | .reclaimed epoch _ _ _ _ => some (succ32 epoch)
  | .lapsed epoch _ _ _ => some (succ32 epoch)
  | _ => none

end LeasePhase

/-- The phase of the epoch that stands at the observation time. -/
def LeaseEpoch.phaseAt (e : LeaseEpoch) (terms : LeaseTerms) (atMs skew : Nat) : LeasePhase :=
  match e.ended.filter (fun fact => decide (fact.atMs ≤ satAdd atMs skew)) with
  | some (.released reason t) => .released e.epoch e.lease e.holder reason t
  | some (.reclaimed reason t) => .reclaimed e.epoch e.lease e.holder reason t
  | some (.completed _) => .done e.epoch e.lease e.holder
  | none =>
    match e.lapseAt atMs terms skew with
    | some .expired => .lapsed e.epoch e.lease e.holder .expired
    | some .silent => .lapsed e.epoch e.lease e.holder .heartbeatSilence
    | none => .held e.epoch e.lease e.holder e.expiresAtMs e.lastSeenMs e.progress

/-- A grant dated beyond the skew window has not happened yet from here. -/
def phaseAt (record : LeaseRecord) (terms : Option LeaseTerms) (atMs : Nat) (policy : LeasePolicy) :
    LeasePhase :=
  match terms with
  | none => .unleased
  | some terms =>
    match record.epochs.reverse.find?
        (fun e => decide (e.grantedAtMs ≤ satAdd atMs policy.maxSkewMs)) with
    | none => .openAt 0
    | some e => e.phaseAt terms atMs policy.maxSkewMs

namespace Job

def leaseTerms (job : Job) : Option LeaseTerms := job.spec.bind JobSpec.lease

def leaseAt (job : Job) (atMs : Nat) (policy : LeasePolicy) : LeasePhase :=
  phaseAt job.lease job.leaseTerms atMs policy

def nextHolder (job : Job) (atMs : Nat) : Option Bytes32 :=
  (job.nextClaimants.find? (fun c => decide (c.atMs ≤ atMs))).map Claimant.author

def hasClaimed (job : Job) (me : Bytes32) : Bool :=
  job.nextClaimants.any (fun c => c.author == me)

end Job

/-! ## Open epochs -/

theorem LeaseEpoch.openEpoch_phaseAt (e : LeaseEpoch) (terms : LeaseTerms) (atMs skew n : Nat)
    (h : (e.phaseAt terms atMs skew).openEpoch = some n) : n = succ32 e.epoch := by
  unfold LeaseEpoch.phaseAt at h
  split at h
  · simpa [LeasePhase.openEpoch] using h.symm
  · simpa [LeasePhase.openEpoch] using h.symm
  · simp [LeasePhase.openEpoch] at h
  · split at h
    · simpa [LeasePhase.openEpoch] using h.symm
    · simpa [LeasePhase.openEpoch] using h.symm
    · simp [LeasePhase.openEpoch] at h

/-- The projection and the fold mean the same epoch, once the boundary of the record has passed. -/
theorem openEpoch_eq_nextEpoch (record : LeaseRecord) (terms : LeaseTerms) (atMs : Nat)
    (policy : LeasePolicy) (n next fromMs : Nat) (hu : atMs ≤ u64Max)
    (hopen : (phaseAt record (some terms) atMs policy).openEpoch = some n)
    (hnext : record.nextEpoch = some (next, fromMs)) (hfrom : fromMs ≤ atMs)
    (hgranted : ∀ last, record.epochs.getLast? = some last → last.grantedAtMs ≤ last.boundaryMs) :
    n = next := by
  unfold LeaseRecord.nextEpoch at hnext
  unfold phaseAt at hopen
  cases hlast : record.epochs.getLast? with
  | none =>
    rw [hlast] at hnext
    rw [List.getLast?_eq_none_iff.mp hlast] at hopen
    simp [LeasePhase.openEpoch] at hopen hnext
    omega
  | some last =>
    have hg := hgranted last hlast
    rw [hlast] at hnext
    simp only at hnext
    split at hnext
    · simp at hnext
    · obtain ⟨rfl, rfl⟩ := hnext
      -- The newest epoch is dated in the past, so it is the one the projection finds.
      have hle : last.grantedAtMs ≤ satAdd atMs policy.maxSkewMs :=
        le_trans (le_trans hg hfrom) (le_satAdd atMs _ hu)
      have hrev : record.epochs.reverse.head? = some last := by rw [List.head?_reverse, hlast]
      obtain ⟨older, hcons⟩ := List.head?_eq_some_iff.mp hrev
      rw [hcons, List.find?_cons_of_pos (by simpa using hle)] at hopen
      exact last.openEpoch_phaseAt terms atMs _ n hopen

end Mere.Mesh
