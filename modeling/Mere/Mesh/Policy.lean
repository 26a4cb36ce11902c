import Mere.Mesh.Wire

/-!
# What a device lends, and what it is doing right now

From `crates/mesh/mesh/src/policy.rs`, with the registry's answer to "do you offer this"
from `registry.rs`.
-/

namespace Mere.Mesh

/-! ## Conditions -/

inductive NetworkClass where
  | offline | metered | wifi | wired
  deriving DecidableEq

/-- Declaration order, coarsest link first. -/
def NetworkClass.rank : NetworkClass → Nat
  | .offline => 0
  | .metered => 1
  | .wifi => 2
  | .wired => 3

structure DeviceConditions where
  idleMs : Nat
  batteryPct : Nat
  onMains : Bool
  thermalC : Nat
  network : NetworkClass
  bandwidthInUseKbps : Nat
  localHour : Nat
  runningJobs : Nat
  deriving DecidableEq

def DeviceConditions.spare : DeviceConditions where
  idleMs := u64Max
  batteryPct := 100
  onMains := true
  thermalC := 40
  network := .wired
  bandwidthInUseKbps := 0
  localHour := 14
  runningJobs := 0

def DeviceConditions.inUse (c : DeviceConditions) : DeviceConditions := { c with idleMs := 0 }

/-! ## Policy -/

structure QuietHours where
  startHour : Nat
  endHour : Nat
  deriving DecidableEq

def QuietHours.contains (q : QuietHours) (hour : Nat) : Bool :=
  if q.startHour = q.endHour then true
  else if q.startHour < q.endHour then decide (hour ≥ q.startHour) && decide (hour < q.endHour)
  else decide (hour ≥ q.startHour) || decide (hour < q.endHour)

-- The grace window is the host's to spend: no decision here reads it, so it is left out.
structure DevicePolicy where
  minIdleMs : Nat
  minBatteryPct : Nat
  maxThermalC : Nat
  minNetwork : NetworkClass
  maxBandwidthInUseKbps : Nat
  quietHours : Option QuietHours
  maxConcurrentJobs : Nat
  allowedResources : List ResourceId
  acceptedCheckpoints : List CheckpointClass
  supervisesLeases : Bool
  deriving DecidableEq

namespace DevicePolicy

def permissive : DevicePolicy where
  minIdleMs := 0
  minBatteryPct := 0
  maxThermalC := 0
  minNetwork := .offline
  maxBandwidthInUseKbps := 0
  quietHours := none
  maxConcurrentJobs := 2 ^ 32 - 1
  allowedResources := []
  acceptedCheckpoints := []
  supervisesLeases := true

def conservative : DevicePolicy where
  minIdleMs := 120000
  minBatteryPct := 40
  maxThermalC := 85
  minNetwork := .wifi
  maxBandwidthInUseKbps := 0
  quietHours := some ⟨22, 8⟩
  maxConcurrentJobs := 1
  allowedResources := []
  acceptedCheckpoints := [.restart, .resumable]
  supervisesLeases := true

/-- Being full is a reason not to start a job, never one to abandon a job. -/
def atCapacity (p : DevicePolicy) (c : DeviceConditions) : Bool :=
  decide (c.runningJobs ≥ p.maxConcurrentJobs)

def withholding (p : DevicePolicy) (c : DeviceConditions) : Option ReclaimReason :=
  if c.idleMs < p.minIdleMs then some .foregroundActivity
  else if !c.onMains && decide (c.batteryPct < p.minBatteryPct) then some .battery
  else if decide (p.maxThermalC > 0) && decide (c.thermalC ≥ p.maxThermalC) then some .thermal
  else if c.network.rank < p.minNetwork.rank then some .network
  else if decide (p.maxBandwidthInUseKbps > 0) &&
      decide (c.bandwidthInUseKbps ≥ p.maxBandwidthInUseKbps) then some .network
  else if p.quietHours.any (fun hours => hours.contains c.localHour) then some .quietHours
  else none

def accepts (p : DevicePolicy) (spec : JobSpec) : Bool :=
  (p.supervisesLeases || spec.lease.isNone) &&
    (p.allowedResources.isEmpty || p.allowedResources.contains spec.resource) &&
    (p.acceptedCheckpoints.isEmpty || p.acceptedCheckpoints.contains spec.checkpoint)

end DevicePolicy

/-! ## Registry -/

structure ResourceDescriptor where
  resource : ResourceId
  implementation : ImplementationId
  requires : ResourceRequirements
  verification : VerificationClass
  deriving DecidableEq

structure ResourceRegistry where
  adapters : List ResourceDescriptor := []
  deriving DecidableEq

namespace ResourceRegistry

def get (r : ResourceRegistry) (resource : ResourceId) : Option ResourceDescriptor :=
  r.adapters.find? (fun d => d.resource == resource)

def offers (r : ResourceRegistry) (spec : JobSpec) (facts : HostFacts) : Bool :=
  match r.get spec.resource with
  | none => false
  | some d =>
    spec.requirements.satisfiedBy facts && d.requires.satisfiedBy facts &&
      d.verification.satisfies spec.determinism

end ResourceRegistry

end Mere.Mesh
