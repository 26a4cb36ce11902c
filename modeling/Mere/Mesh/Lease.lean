import Mere.Base.OrdMap
import Mere.Base.Word

/-!
# Leases: the facts a lending device signs, and what the fold keeps

From `crates/mesh/mesh/src/lease.rs`. Every rule compares one signed reading with another.
-/

namespace Mere.Mesh

open OrdMap

abbrev LeaseId := Bytes32

/-! ## The envelope -/

def maxLeaseDurationMs : Nat := 24 * 60 * 60 * 1000
def minHeartbeatMs : Nat := 1000
def maxMissAllowance : Nat := 60

structure LeaseTerms where
  maxDurationMs : Nat
  heartbeatMs : Nat
  missAllowance : Nat
  deriving DecidableEq

inductive LeaseTermsError where
  | duration (ms : Nat)
  | heartbeat (ms : Nat)
  | missAllowance (n : Nat)
  deriving DecidableEq

def LeaseTerms.validate (t : LeaseTerms) : Except LeaseTermsError Unit :=
  if t.maxDurationMs = 0 ∨ t.maxDurationMs > maxLeaseDurationMs then
    .error (.duration t.maxDurationMs)
  else if t.heartbeatMs < minHeartbeatMs ∨ t.heartbeatMs > t.maxDurationMs then
    .error (.heartbeat t.heartbeatMs)
  else if t.missAllowance = 0 ∨ t.missAllowance > maxMissAllowance then
    .error (.missAllowance t.missAllowance)
  else .ok ()

def LeaseTerms.silenceWindowMs (t : LeaseTerms) : Nat := satMul t.heartbeatMs t.missAllowance

theorem LeaseTerms.validate_pos (t : LeaseTerms) (h : t.validate = .ok ()) :
    0 < t.maxDurationMs := by
  unfold LeaseTerms.validate at h
  split at h
  · simp at h
  · omega

/-! ## Facts -/

inductive LeaseActivity where
  | fetching | preparing | running | checkpointing
  deriving DecidableEq

structure LeaseProgress where
  done : Nat := 0
  total : Nat := 0
  checkpointHeld : Bool := false
  activity : LeaseActivity := .running
  deriving DecidableEq

inductive ReleaseReason where
  | yielded | failed | inputUnavailable
  deriving DecidableEq

inductive ReclaimReason where
  | foregroundActivity | battery | thermal | network | quietHours | atCapacity | policyChange | manual
  deriving DecidableEq

inductive LeaseEnd where
  | released (reason : ReleaseReason) (atMs : Nat)
  | reclaimed (reason : ReclaimReason) (atMs : Nat)
  | completed (atMs : Nat)
  deriving DecidableEq

def LeaseEnd.atMs : LeaseEnd → Nat
  | .released _ atMs => atMs
  | .reclaimed _ atMs => atMs
  | .completed atMs => atMs

def LeaseEnd.isFinal : LeaseEnd → Bool
  | .completed _ => true
  | _ => false

structure GrantFact where
  operation : Bytes32
  author : Bytes32
  epoch : Nat
  grantedAtMs : Nat
  expiresAtMs : Nat
  deriving DecidableEq

inductive LeaseFactBody where
  | heartbeat (progress : LeaseProgress)
  | ended (fact : LeaseEnd)
  deriving DecidableEq

structure LeaseFact where
  operation : Bytes32
  author : Bytes32
  lease : LeaseId
  atMs : Nat
  body : LeaseFactBody
  dated : ∀ e, body = .ended e → e.atMs = atMs

def LeaseFact.heartbeat (operation author : Bytes32) (lease : LeaseId) (progress : LeaseProgress)
    (atMs : Nat) : LeaseFact :=
  ⟨operation, author, lease, atMs, .heartbeat progress, by simp⟩

def LeaseFact.ended (operation author : Bytes32) (lease : LeaseId) (fact : LeaseEnd) : LeaseFact :=
  ⟨operation, author, lease, fact.atMs, .ended fact, by rintro e h; cases h; rfl⟩

/-! ## Epochs -/

structure LeaseEpoch where
  epoch : Nat
  lease : LeaseId
  holder : Bytes32
  grantedAtMs : Nat
  expiresAtMs : Nat
  lastSeenMs : Nat
  progress : LeaseProgress
  ended : Option LeaseEnd
  deriving DecidableEq

/-- The signed instant at which the epoch stopped binding the job. -/
def LeaseEpoch.boundaryMs (e : LeaseEpoch) : Nat := e.ended.elim e.expiresAtMs LeaseEnd.atMs

def LeaseEpoch.covers (e : LeaseEpoch) (atMs : Nat) : Bool :=
  decide (e.grantedAtMs ≤ atMs) && decide (atMs ≤ e.expiresAtMs)

def LeaseEpoch.isFinal (e : LeaseEpoch) : Bool := e.ended.any LeaseEnd.isFinal

inductive LapseWindow where
  | expired | silent
  deriving DecidableEq

def LeaseEpoch.lapseAt (e : LeaseEpoch) (atMs : Nat) (terms : LeaseTerms) (skewMs : Nat) :
    Option LapseWindow :=
  if atMs ≥ satAdd e.expiresAtMs skewMs then some .expired
  else if atMs ≥ satAdd (satAdd e.lastSeenMs terms.silenceWindowMs) skewMs then some .silent
  else none

structure LeaseRecord where
  epochs : List LeaseEpoch := []
  deriving DecidableEq

namespace LeaseRecord

def isEmpty (r : LeaseRecord) : Bool := r.epochs.isEmpty

variable (r : LeaseRecord)

def current : Option LeaseEpoch := r.epochs.getLast?

def nextEpoch : Option (Nat × Nat) :=
  match r.epochs.getLast? with
  | none => some (0, 0)
  | some last => if last.isFinal then none else some (succ32 last.epoch, last.boundaryMs)

def acceptsGrant (epoch grantedAtMs : Nat) : Bool :=
  match r.nextEpoch with
  | some (next, boundary) => decide (epoch = next) && decide (boundary ≤ grantedAtMs)
  | none => false

def pushEpoch (e : LeaseEpoch) : LeaseRecord := ⟨r.epochs ++ [e]⟩

def updateLast (f : LeaseEpoch → LeaseEpoch) : LeaseRecord :=
  match r.epochs.getLast? with
  | none => r
  | some last => ⟨r.epochs.dropLast ++ [f last]⟩

end LeaseRecord

/-! ## The chain -/

structure GatheredLeases where
  grants : OrdMap Bytes32 GrantFact := ∅
  facts : OrdMap Bytes32 LeaseFact := ∅

def keyBefore (a b : Nat × Bytes32) : Prop := a.1 < b.1 ∨ (a.1 = b.1 ∧ a.2 < b.2)

instance (a b : Nat × Bytes32) : Decidable (keyBefore a b) :=
  inferInstanceAs (Decidable (_ ∨ _))

def grantLe (a b : GrantFact) : Prop :=
  a.epoch < b.epoch ∨ (a.epoch = b.epoch ∧
    (a.grantedAtMs < b.grantedAtMs ∨
      (a.grantedAtMs = b.grantedAtMs ∧ a.operation ≤ b.operation)))

instance : DecidableRel grantLe := fun _ _ => inferInstanceAs (Decidable (_ ∨ _))

def LeaseEpoch.admits (e : LeaseEpoch) (f : LeaseFact) : Bool :=
  decide (f.lease = e.lease) && decide (f.author = e.holder) && e.covers f.atMs

namespace GatheredLeases

structure Scan where
  newestHeartbeat : Option (Nat × Bytes32 × LeaseProgress) := none
  earliestEnd : Option (Nat × Bytes32 × LeaseEnd) := none

def scanFact (current : LeaseEpoch) (s : Scan) (f : LeaseFact) : Scan :=
  if current.admits f then
    match f.body with
    | .heartbeat progress =>
      if s.newestHeartbeat.all (fun b => keyBefore (b.1, b.2.1) (f.atMs, f.operation)) then
        { s with newestHeartbeat := some (f.atMs, f.operation, progress) }
      else s
    | .ended fact =>
      if s.earliestEnd.all (fun b => keyBefore (f.atMs, f.operation) (b.1, b.2.1)) then
        { s with earliestEnd := some (f.atMs, f.operation, fact) }
      else s
  else s

variable (g : GatheredLeases)

def scan (current : LeaseEpoch) : Scan :=
  (vals g.facts).foldl (scanFact current) {}

def withHeartbeat (s : Scan) (e : LeaseEpoch) : LeaseEpoch :=
  match s.newestHeartbeat with
  | some (atMs, _, progress) => { e with lastSeenMs := max e.lastSeenMs atMs, progress := progress }
  | none => e

def withEnd (s : Scan) (e : LeaseEpoch) : LeaseEpoch :=
  match s.earliestEnd with
  | some (_, _, fact) =>
    if e.ended.all (fun held => decide (fact.atMs < held.atMs)) then { e with ended := some fact }
    else e
  | none => e

def clampSeen (e : LeaseEpoch) : LeaseEpoch :=
  match e.ended with
  | some fact => { e with lastSeenMs := min e.lastSeenMs fact.atMs }
  | none => e

def applyFactsTo (current : LeaseEpoch) : LeaseEpoch :=
  let s := g.scan current
  clampSeen (withEnd s (withHeartbeat s current))

/-- `apply_facts`: only the newest epoch is touched. -/
def applyFacts (record : LeaseRecord) : LeaseRecord :=
  record.updateLast g.applyFactsTo

def openedBy (grant : GrantFact) : LeaseEpoch where
  epoch := grant.epoch
  lease := grant.operation
  holder := grant.author
  grantedAtMs := grant.grantedAtMs
  expiresAtMs := grant.expiresAtMs
  lastSeenMs := grant.grantedAtMs
  progress := {}
  ended := none

def tryGrant (terms : LeaseTerms) (winnerFor : Nat → Nat → Option Bytes32) (record : LeaseRecord)
    (grant : GrantFact) : LeaseRecord :=
  if !record.acceptsGrant grant.epoch grant.grantedAtMs then record
  else if grant.expiresAtMs ≤ grant.grantedAtMs ∨
      grant.expiresAtMs - grant.grantedAtMs > terms.maxDurationMs then record
  else
    let boundary := (record.nextEpoch.map Prod.snd).getD 0
    if winnerFor boundary grant.grantedAtMs ≠ some grant.author then record
    else g.applyFacts (record.pushEpoch (openedBy grant))

def pending : List GrantFact := (vals g.grants).insertionSort grantLe

def resolve (record : LeaseRecord) (terms : LeaseTerms) (winnerFor : Nat → Nat → Option Bytes32) :
    LeaseRecord :=
  g.pending.foldl (g.tryGrant terms winnerFor) (g.applyFacts record)

end GatheredLeases

end Mere.Mesh
