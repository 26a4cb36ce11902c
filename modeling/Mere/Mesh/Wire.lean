import Mere.Mesh.Spec

/-!
# Mesh events and the operations that carry them

From `crates/mesh/mesh/src/wire.rs`, `directory.rs` and the attestation of
`crates/dramatis/personae/src/provider.rs`. What p2panda and Ed25519 answer about a value is a field
of it.
-/

namespace Mere.Mesh

/-! ## Devices -/

def derivedKeyAttestationVersion : Nat := 1

structure DerivedKeyAttestation where
  formatVersion : Nat
  master : Bytes32
  derived : Bytes32
  signature : List UInt8
  /-- `Ed25519PublicKey::from_bytes` accepts `master`. -/
  masterIsKey : Bool
  /-- `Ed25519PublicKey::from_bytes` accepts `derived`. -/
  derivedIsKey : Bool
  /-- The signature is `master`'s over this statement and the mesh author salt. -/
  signed : Bool
  deriving DecidableEq

def DerivedKeyAttestation.masterPublicKey (a : DerivedKeyAttestation) : Option Bytes32 :=
  if a.masterIsKey then some a.master else none

def DerivedKeyAttestation.derivedPublicKey (a : DerivedKeyAttestation) : Option Bytes32 :=
  if a.derivedIsKey then some a.derived else none

def DerivedKeyAttestation.verify (a : DerivedKeyAttestation) : Bool :=
  a.formatVersion == derivedKeyAttestationVersion && a.masterPublicKey.isSome &&
    a.signature.length == 64 && a.signed

def attests (author : Bytes32) (a : DerivedKeyAttestation) : Bool :=
  a.derivedPublicKey == some author && a.verify

structure DeviceDirectory where
  devices : OrdMap Bytes32 Bytes32 := ∅
  deriving DecidableEq

def DeviceDirectory.admit (d : DeviceDirectory) (author : Bytes32) (a : DerivedKeyAttestation) :
    DeviceDirectory :=
  if !attests author a then d
  else match a.masterPublicKey with
    | some master => ⟨d.devices.insert author master⟩
    | none => d

/-! ## Events -/

inductive MeshLogId where
  | events | checkpoints
  deriving DecidableEq

inductive JobKind where
  | echo | blake3
  deriving DecidableEq

def legacyResourceId : JobKind → ResourceId
  | .echo => ⟨[109, 101, 115, 104, 46, 101, 99, 104, 111, 47, 118, 49]⟩
  | .blake3 => ⟨[109, 101, 115, 104, 46, 98, 108, 97, 107, 101, 51, 47, 118, 49]⟩

inductive MeshEvent where
  | jobPosted (kind : JobKind) (payload : List UInt8) (nonce atMs : Nat)
  | jobClaimed (job : Bytes32) (atMs : Nat)
  | jobDone (job : Bytes32) (result : List UInt8) (atMs : Nat)
  | jobPostedV2 (spec : JobSpec) (nonce atMs : Nat)
  | jobDoneV2 (job : Bytes32) (output : JobOutput) (atMs : Nat)
  | leaseGranted (job : Bytes32) (epoch grantedAtMs expiresAtMs : Nat)
  | leaseHeartbeat (job lease : Bytes32) (progress : LeaseProgress) (atMs : Nat)
  | leaseReleased (job lease : Bytes32) (reason : ReleaseReason) (atMs : Nat)
  | leaseRevokedByOwner (job lease : Bytes32) (reason : ReclaimReason) (atMs : Nat)
  | jobCompletedUnderLease (job lease : Bytes32) (output : JobOutput) (atMs : Nat)
  | deviceAttested (attestation : DerivedKeyAttestation)
  -- The board skips the two retention events, so what they carry is not modelled.
  | retentionCheckpoint
  | historyPruned
  deriving DecidableEq

def MeshEvent.logId : MeshEvent → MeshLogId
  | .retentionCheckpoint => .checkpoints
  | _ => .events

/-! ## Operations -/

inductive WireError where
  | missingBody | malformed
  deriving DecidableEq

/-- A signed body, decoded; `none` is CBOR that is no `MeshEvent`. -/
abbrev Body := Option MeshEvent

structure Operation where
  hash : Bytes32
  author : Bytes32
  seqNum : Nat
  meshId : Bytes32
  body : Option Body
  /-- What p2panda's `validate_operation` answers. -/
  validates : Bool
  /-- The digest of the header as it is. -/
  headerHash : Bytes32
  deriving DecidableEq

def fromOperation (op : Operation) : Except WireError (Bytes32 × MeshEvent) :=
  match op.body with
  | none => .error .missingBody
  | some none => .error .malformed
  | some (some event) => .ok (op.meshId, event)

def verify (op : Operation) : Bool := op.validates && op.hash == op.headerHash

def signed (mesh hash author : Bytes32) (seqNum : Nat) (event : MeshEvent) : Operation :=
  ⟨hash, author, seqNum, mesh, some (some event), true, hash⟩

def eventFor (mesh : Bytes32) (op : Operation) : Option MeshEvent :=
  if !verify op then none
  else match fromOperation op with
    | .error _ => none
    | .ok (id, event) => if id ≠ mesh then none else some event

@[simp] theorem eventFor_signed (mesh hash author : Bytes32) (seqNum : Nat) (event : MeshEvent) :
    eventFor mesh (signed mesh hash author seqNum event) = some event := by
  simp [eventFor, verify, signed, fromOperation]

end Mere.Mesh
