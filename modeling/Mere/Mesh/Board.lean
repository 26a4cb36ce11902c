import Mere.Mesh.Wire

/-!
# The job board: gather, then resolve

From `crates/mesh/mesh/src/fold.rs`, `board.rs` and the snapshot of `retention.rs`.
-/

namespace Mere.Mesh

open OrdMap

abbrev JobId := Bytes32

inductive JobState where
  | posted
  | claimed (winner : Bytes32)
  | done (winner : Bytes32) (result : List UInt8)
  | committed (winner : Bytes32) (output : JobOutput)
  deriving DecidableEq

def JobState.winner : JobState → Option Bytes32
  | .posted => none
  | .claimed w => some w
  | .done w _ => some w
  | .committed w _ => some w

def JobState.isTerminal : JobState → Bool
  | .done _ _ => true
  | .committed _ _ => true
  | _ => false

structure Claimant where
  author : Bytes32
  atMs : Nat
  deriving DecidableEq

structure Job where
  id : JobId
  kind : Option JobKind
  payload : Option (List UInt8)
  spec : Option JobSpec
  postedBy : Bytes32
  state : JobState
  lease : LeaseRecord
  nextClaimants : List Claimant
  deriving DecidableEq

structure JobBoard where
  jobs : OrdMap JobId Job := ∅
  devices : DeviceDirectory := {}
  deriving DecidableEq

structure JobBoardSnapshot where
  jobs : List Job := []
  deriving DecidableEq

def JobBoardSnapshot.fromBoard (board : JobBoard) : JobBoardSnapshot := ⟨vals board.jobs⟩

/-! ## What is gathered -/

structure Posted where
  kind : Option JobKind
  payload : Option (List UInt8)
  spec : Option JobSpec
  by_ : Bytes32
  deriving DecidableEq

inductive ResultRecord where
  | inline (result : List UInt8)
  | committed (output : JobOutput)
  deriving DecidableEq

structure ClaimFact where
  author : Bytes32
  atMs : Nat
  deriving DecidableEq

structure CompletionFact where
  author : Bytes32
  lease : LeaseId
  atMs : Nat
  output : JobOutput
  deriving DecidableEq

structure GatheredJobLeases where
  grants : OrdMap Bytes32 GrantFact := ∅
  facts : OrdMap Bytes32 LeaseFact := ∅
  completions : OrdMap Bytes32 CompletionFact := ∅

/-- The terminal state of an unleased job: the result has to answer the generation the job
was posted in, and a committed one has to honour the grant. -/
def Posted.resolve (post : Posted) (winner : Bytes32) (record : Option ResultRecord) : JobState :=
  match record, post.spec with
  | some (.inline result), none => .done winner result
  | some (.committed output), some spec =>
    if spec.lease.isNone && output.honours spec then .committed winner output
    else .claimed winner
  | _, _ => .claimed winner

namespace GatheredJobLeases

def completionEnd (operation : Bytes32) (c : CompletionFact) : LeaseFact :=
  .ended operation c.author c.lease (.completed c.atMs)

variable (g : GatheredJobLeases)

/-- The facts the chain sees: a completion that breaks the grant is not one of them. -/
def admitted (spec : JobSpec) : GatheredLeases where
  grants := g.grants
  facts := g.completions.toList.foldl
    (fun facts p => if p.2.output.honours spec then facts.insert p.1 (completionEnd p.1 p.2) else facts)
    g.facts

def winnerIn (claims : OrdMap Bytes32 ClaimFact) (fromMs untilMs : Nat) : Option Bytes32 :=
  ((vals claims).find? (fun c => decide (c.atMs ≥ fromMs) && decide (c.atMs ≤ untilMs))).map
    ClaimFact.author

def resolve (g : GatheredJobLeases) (base : Option LeaseRecord) (spec : JobSpec)
    (claims : OrdMap Bytes32 ClaimFact) : LeaseRecord :=
  match spec.lease with
  | none => {}
  | some terms => (g.admitted spec).resolve (base.getD {}) terms (winnerIn claims)

def completionOf (epoch : LeaseEpoch) : Option CompletionFact :=
  (vals g.completions).find? (fun c => c.lease == epoch.lease && c.author == epoch.holder)

def completedOutput (record : LeaseRecord) : Option (Bytes32 × JobOutput) :=
  match record.epochs.find? LeaseEpoch.isFinal with
  | none => none
  | some epoch => (g.completionOf epoch).map (fun c => (epoch.holder, c.output))

end GatheredJobLeases

structure Gathered where
  posted : OrdMap JobId Posted := ∅
  claims : OrdMap JobId (OrdMap Bytes32 ClaimFact) := ∅
  results : OrdMap JobId (OrdMap Bytes32 ResultRecord) := ∅
  leases : OrdMap JobId GatheredJobLeases := ∅
  retained : OrdMap JobId LeaseRecord := ∅
  devices : DeviceDirectory := {}

namespace Gathered

variable (g : Gathered) (job : JobId)

-- `entry(job).or_default()`, read and written.
def claimsOf : OrdMap Bytes32 ClaimFact := g.claims.getD job ∅
def resultsOf : OrdMap Bytes32 ResultRecord := g.results.getD job ∅
def leasesOf : GatheredJobLeases := g.leases.getD job {}

def addClaim (key : Bytes32) (c : ClaimFact) : Gathered :=
  { g with claims := g.claims.insert job ((g.claimsOf job).insert key c) }

def addResult (author : Bytes32) (r : ResultRecord) : Gathered :=
  { g with results := g.results.insert job ((g.resultsOf job).insert author r) }

def addGrant (f : GrantFact) : Gathered :=
  let l := g.leasesOf job
  { g with leases := g.leases.insert job { l with grants := l.grants.insert f.operation f } }

def addFact (f : LeaseFact) : Gathered :=
  let l := g.leasesOf job
  { g with leases := g.leases.insert job { l with facts := l.facts.insert f.operation f } }

def addCompletion (operation : Bytes32) (c : CompletionFact) : Gathered :=
  let l := g.leasesOf job
  { g with leases := g.leases.insert job { l with completions := l.completions.insert operation c } }

/-- One job of the accepted checkpoint. Its winner re-enters as a claim under the all-zero
key, which sorts before any real operation hash. -/
def seed (job : Job) : Gathered :=
  let g := { g with posted := g.posted.insert job.id ⟨job.kind, job.payload, job.spec, job.postedBy⟩ }
  let g := if job.lease.isEmpty then g
    else { g with retained := g.retained.insert job.id job.lease }
  let g := match job.state.winner with
    | some winner => g.addClaim job.id 0 ⟨winner, 0⟩
    | none => g
  match job.state with
  | .done winner result => g.addResult job.id winner (.inline result)
  | .committed winner output => g.addResult job.id winner (.committed output)
  | _ => g

def addEvent (hash author : Bytes32) : MeshEvent → Gathered
  | .jobPosted kind payload _ _ =>
    { g with posted := g.posted.insert hash ⟨some kind, some payload, none, author⟩ }
  | .jobPostedV2 spec _ _ =>
    if !spec.validate.isOk then g
    else { g with posted := g.posted.insert hash ⟨none, none, some spec, author⟩ }
  | .jobClaimed job atMs => g.addClaim job hash ⟨author, atMs⟩
  | .jobDone job result _ => g.addResult job author (.inline result)
  | .jobDoneV2 job output _ => g.addResult job author (.committed output)
  | .leaseGranted job epoch grantedAtMs expiresAtMs =>
    g.addGrant job ⟨hash, author, epoch, grantedAtMs, expiresAtMs⟩
  | .leaseHeartbeat job lease progress atMs =>
    g.addFact job (.heartbeat hash author lease progress atMs)
  | .leaseReleased job lease reason atMs =>
    g.addFact job (.ended hash author lease (.released reason atMs))
  | .leaseRevokedByOwner job lease reason atMs =>
    g.addFact job (.ended hash author lease (.reclaimed reason atMs))
  | .jobCompletedUnderLease job lease output atMs =>
    g.addCompletion job hash ⟨author, lease, atMs, output⟩
  | .deviceAttested attestation => { g with devices := g.devices.admit author attestation }
  | .retentionCheckpoint => g
  | .historyPruned => g

def addOp (mesh : Bytes32) (g : Gathered) (op : Operation) : Gathered :=
  match eventFor mesh op with
  | none => g
  | some event => g.addEvent op.hash op.author event

end Gathered

def gather (mesh : Bytes32) (snapshot : JobBoardSnapshot) (ops : List Operation) : Gathered :=
  ops.foldl (Gathered.addOp mesh) (snapshot.jobs.foldl Gathered.seed {})

/-! ## The resolve phase -/

structure JobFacts where
  post : Posted
  claims : OrdMap Bytes32 ClaimFact
  results : OrdMap Bytes32 ResultRecord
  leases : GatheredJobLeases
  retained : Option LeaseRecord

namespace JobFacts

variable (f : JobFacts)

def winner : Option Bytes32 := (vals f.claims).head?.map ClaimFact.author

def terms : Option LeaseTerms := f.post.spec.bind JobSpec.lease

def lease (f : JobFacts) : LeaseRecord :=
  match f.post.spec with
  | some spec => if spec.lease.isSome then f.leases.resolve f.retained spec f.claims else {}
  | none => {}

def nextClaimants : List Claimant :=
  match f.terms, f.lease.nextEpoch with
  | some _, some (_, fromMs) =>
    ((vals f.claims).filter (fun c => decide (c.atMs ≥ fromMs))).map (fun c => ⟨c.author, c.atMs⟩)
  | _, _ => []

def state : JobState :=
  match f.leases.completedOutput f.lease with
  | some (holder, output) => .committed holder output
  | none =>
    match f.lease.current, f.winner with
    | some epoch, _ => .claimed epoch.holder
    | none, none => .posted
    | none, some winner => f.post.resolve winner f.results[winner]?

def job (id : JobId) (f : JobFacts) : Job where
  id := id
  kind := f.post.kind
  payload := f.post.payload
  spec := f.post.spec
  postedBy := f.post.by_
  state := f.state
  lease := f.lease
  nextClaimants := f.nextClaimants

end JobFacts

def Gathered.factsOf (g : Gathered) (id : JobId) (post : Posted) : JobFacts where
  post := post
  claims := g.claimsOf id
  results := g.resultsOf id
  leases := g.leasesOf id
  retained := g.retained[id]?

namespace JobBoard

def foldFromSnapshot (mesh : Bytes32) (snapshot : JobBoardSnapshot) (ops : List Operation) :
    JobBoard :=
  let g := gather mesh snapshot ops
  { jobs := g.posted.map (fun id post => (g.factsOf id post).job id), devices := g.devices }

def fold (mesh : Bytes32) (ops : List Operation) : JobBoard := foldFromSnapshot mesh {} ops

end JobBoard

end Mere.Mesh
