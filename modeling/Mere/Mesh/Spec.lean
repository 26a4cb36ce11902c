import Mere.Mesh.Lease

/-!
# Job specs and job outputs

From `crates/mesh/mesh/src/ident.rs`, `spec.rs` and `crates/system/proofs/src/lib.rs`.
-/

namespace Mere.Mesh

/-! ## Identifiers: `path '/' 'v' digits` -/

def maxIdentLen : Nat := 128

inductive IdentError where
  | empty
  | tooLong
  | shape (raw : Str)
  | segment (part : Str)
  | version (part : Str)
  deriving DecidableEq

def isAsciiLowercase (b : UInt8) : Bool := 0x61 ≤ b && b ≤ 0x7a
def isAsciiDigit (b : UInt8) : Bool := 0x30 ≤ b && b ≤ 0x39

-- The bytes of '-', '.', '/', '_' and 'v'.
def dash : UInt8 := 0x2d
def dot : UInt8 := 0x2e
def slash : UInt8 := 0x2f
def underscore : UInt8 := 0x5f
def letterV : UInt8 := 0x76

/-- `str::rsplit_once`: the text before and after the last `sep`. -/
def rsplitOnce (sep : UInt8) (s : Str) : Option (Str × Str) :=
  let back := s.reverse
  match back.dropWhile (· != sep) with
  | [] => none
  | _ :: path => some (path.reverse, (back.takeWhile (· != sep)).reverse)

def validSegment (segment : Str) : Bool :=
  let edge := fun b => isAsciiLowercase b || isAsciiDigit b
  match segment.head?, segment.getLast? with
  | some first, some last =>
    edge first && edge last && segment.all (fun b => edge b || b == dash || b == underscore)
  | _, _ => false

def validateVersion (version : Str) : Except IdentError Unit :=
  match version with
  | [] => .error (.version version)
  | b :: digits =>
    if b ≠ letterV then .error (.version version)
    else if digits.isEmpty || !digits.all isAsciiDigit then .error (.version version)
    else .ok ()

def validateIdent (raw : Str) : Except IdentError Unit :=
  if raw.isEmpty then .error .empty
  else if raw.length > maxIdentLen then .error .tooLong
  else match rsplitOnce slash raw with
    | none => .error (.shape raw)
    | some (path, version) =>
      if path.isEmpty then .error (.shape raw)
      else match (path.splitOn dot).find? (fun segment => !validSegment segment) with
        | some segment => .error (.segment segment)
        | none => validateVersion version

structure ResourceId where
  raw : Str
  deriving DecidableEq

structure ImplementationId where
  raw : Str
  deriving DecidableEq

def ResourceId.validate (id : ResourceId) : Except IdentError Unit := validateIdent id.raw
def ImplementationId.validate (id : ImplementationId) : Except IdentError Unit := validateIdent id.raw

/-! ## Blobs -/

inductive DigestAlg where
  | blake3 | p2pandaOperation | sha256 | william3
  deriving DecidableEq

structure Digest where
  alg : DigestAlg
  bytes : List UInt8
  deriving DecidableEq

def Digest.is32 (d : Digest) : Bool := d.bytes.length == 32

structure BlobRef where
  digest : Digest
  byteLen : Nat
  deriving DecidableEq

/-! ## Specs -/

def maxInputs : Nat := 32
def maxNameLen : Nat := 64
def maxOutputBytes : Nat := 64 * 1024 * 1024

structure JobInput where
  name : Str
  blob : BlobRef
  deriving DecidableEq

structure OutputGrant where
  name : Str
  maxBytes : Nat
  deriving DecidableEq

inductive ComputeClass where
  | cpu | gpu
  deriving DecidableEq

structure ResourceRequirements where
  memoryMib : Nat
  compute : ComputeClass
  deriving DecidableEq

structure HostFacts where
  memoryMib : Nat
  gpu : Bool
  deriving DecidableEq

def ResourceRequirements.satisfiedBy (r : ResourceRequirements) (host : HostFacts) : Bool :=
  decide (r.memoryMib ≤ host.memoryMib) &&
    match r.compute with
    | .cpu => true
    | .gpu => host.gpu

inductive DeterminismClass where
  | exact | tolerant | observed
  deriving DecidableEq

inductive CheckpointClass where
  | restart | resumable | nonInterruptible
  deriving DecidableEq

structure JobSpec where
  resource : ResourceId
  inputs : List JobInput
  output : OutputGrant
  requirements : ResourceRequirements
  determinism : DeterminismClass
  checkpoint : CheckpointClass
  lease : Option LeaseTerms
  deriving DecidableEq

inductive SpecError where
  | resource (e : IdentError)
  | tooManyInputs (n : Nat)
  | duplicateInput (name : Str)
  | malformedName (name : Str)
  | malformedInputDigest (name : Str)
  | oversizedGrant (bytes : Nat)
  | lease (e : LeaseTermsError)
  deriving DecidableEq

def validName (name : Str) : Bool :=
  match name with
  | [] => false
  | first :: _ =>
    decide (name.length ≤ maxNameLen) && (isAsciiLowercase first || isAsciiDigit first) &&
      name.all (fun b =>
        isAsciiLowercase b || isAsciiDigit b || b == dash || b == underscore || b == dot)

def validateName (name : Str) : Except SpecError Unit :=
  if validName name then .ok () else .error (.malformedName name)

def validateInputs (seen : List Str) : List JobInput → Except SpecError Unit
  | [] => .ok ()
  | input :: rest => do
    validateName input.name
    if input.name ∈ seen then throw (.duplicateInput input.name)
    if !input.blob.digest.is32 then throw (.malformedInputDigest input.name)
    validateInputs (input.name :: seen) rest

def JobSpec.validate (spec : JobSpec) : Except SpecError Unit := do
  spec.resource.validate.mapError .resource
  match spec.lease with
  | some terms => terms.validate.mapError .lease
  | none => pure ()
  if spec.inputs.length > maxInputs then throw (.tooManyInputs spec.inputs.length)
  validateInputs [] spec.inputs
  validateName spec.output.name
  if spec.output.maxBytes = 0 ∨ spec.output.maxBytes > maxOutputBytes then
    throw (.oversizedGrant spec.output.maxBytes)

theorem JobSpec.validate_lease (spec : JobSpec) (terms : LeaseTerms) (h : spec.validate = .ok ())
    (ht : spec.lease = some terms) : terms.validate = .ok () := by
  unfold JobSpec.validate at h
  rw [ht] at h
  cases hr : spec.resource.validate with
  | error e => simp [hr, Except.mapError, bind, Except.bind] at h
  | ok _ =>
    cases hv : terms.validate with
    | error e => simp [hr, hv, Except.mapError, bind, Except.bind] at h
    | ok _ => rfl

/-! ## Outputs -/

inductive VerificationClass where
  | exactBytes
  | tolerance (maxAbsErrorPpm : Nat)
  | producerOnly
  deriving DecidableEq

def VerificationClass.class : VerificationClass → DeterminismClass
  | .exactBytes => .exact
  | .tolerance _ => .tolerant
  | .producerOnly => .observed

def VerificationClass.satisfies (v : VerificationClass) (requested : DeterminismClass) : Bool :=
  match v.class, requested with
  | .exact, _ => true
  | .tolerant, .tolerant => true
  | .tolerant, .observed => true
  | .observed, .observed => true
  | _, _ => false

structure JobOutput where
  name : Str
  blob : BlobRef
  resource : ResourceId
  implementation : ImplementationId
  verification : VerificationClass
  deriving DecidableEq

inductive OutputError where
  | resource (e : IdentError)
  | implementation (e : IdentError)
  | malformedName (name : Str)
  | ungrantedName (name : Str)
  | wrongResource (id : ResourceId)
  | overGrant (bytes maxBytes : Nat)
  | malformedDigest
  | weakerThanAsked (declared asked : DeterminismClass)
  deriving DecidableEq

def JobOutput.validateSelf (o : JobOutput) : Except OutputError Unit := do
  o.resource.validate.mapError .resource
  o.implementation.validate.mapError .implementation
  (validateName o.name).mapError (fun _ => .malformedName o.name)
  if !o.blob.digest.is32 then throw .malformedDigest

def JobOutput.validateAgainst (o : JobOutput) (spec : JobSpec) : Except OutputError Unit := do
  o.validateSelf
  if o.name ≠ spec.output.name then throw (.ungrantedName o.name)
  if o.resource ≠ spec.resource then throw (.wrongResource o.resource)
  if o.blob.byteLen > spec.output.maxBytes then
    throw (.overGrant o.blob.byteLen spec.output.maxBytes)
  if !o.verification.satisfies spec.determinism then
    throw (.weakerThanAsked o.verification.class spec.determinism)

def JobOutput.honours (o : JobOutput) (spec : JobSpec) : Bool := (o.validateAgainst spec).isOk

end Mere.Mesh
