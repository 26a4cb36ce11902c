import Mere.Base.Run
import Mere.Base.Word

/-!
# The approval broker

From `crates/dramatis/personae/src/signing.rs`. A native adapter asks `authorize` before it signs:
at once under the session policy, within a short idle window, or after a visible decision. Each step
is one section that holds the broker's lock, one clock reading before it, or one thing that happens
to a call that waits.
-/

namespace Mere.Personae

/-! ## Requests and policies -/

abbrev RequestId := Fin (2 ^ 128)

structure SigningRequest where
  requestId : RequestId
  profile : Str
  publicKeyFingerprint : Str
  operation : Str
  payloadDigest : Str
  adapter : Str
  requestedAtMs : Nat
  authenticatedRequester : Option Str := none
  authenticatedProcess : Option Str := none
  authenticatedTarget : Option Str := none
  sessionBinding : Option Str := none
  relatedObject : Option Str := none

inductive SigningPolicy where
  | session
  | shortTtl (idleSeconds : Nat)
  | perUse

inductive RememberApproval where
  | once
  | untilIdle

inductive SigningDecision where
  | approve (remember : RememberApproval)
  | deny

inductive ApprovalSource where
  | sessionPolicy
  | cachedShortTtl
  | userOnce
  | userUntilIdle

def RememberApproval.source : RememberApproval → ApprovalSource
  | .once => .userOnce
  | .untilIdle => .userUntilIdle

structure SigningAuthorization where
  request : SigningRequest
  policy : SigningPolicy
  source : ApprovalSource

inductive SigningFailureCode where
  | approvalChannelClosed
  | adapterFailure

inductive SigningRecordResult where
  | signed (signatureRef : Str)
  | denied
  | timedOut
  | failed (code : SigningFailureCode)

structure SigningRecord where
  request : SigningRequest
  policy : SigningPolicy
  approvalSource : Option ApprovalSource
  result : SigningRecordResult
  completedAtMs : Nat

inductive AuthorizationError where
  | denied
  | timedOut
  | brokerClosed

inductive DecisionError where
  | notPending
  | rememberNotAllowed
  | requestClosed

structure ApprovalCacheKey where
  profile : Str
  fingerprint : Str
  operation : Str
  adapter : Str
  requester : Option Str
  process : Option Str
  target : Option Str
  session : Option Str
deriving DecidableEq

def SigningRequest.cacheKey (request : SigningRequest) : ApprovalCacheKey where
  profile := request.profile
  fingerprint := request.publicKeyFingerprint
  operation := request.operation
  adapter := request.adapter
  requester := request.authenticatedRequester
  process := request.authenticatedProcess
  target := request.authenticatedTarget
  session := request.sessionBinding

/-! ## The broker -/

structure PendingEntry where
  request : SigningRequest
  policy : SigningPolicy
  expiresAtMs : Nat

structure BrokerState where
  pending : RequestId → Option PendingEntry := fun _ => none
  history : List SigningRecord := []
  shortTtl : ApprovalCacheKey → Option Nat := fun _ => none

def idleUntil (now idleSeconds : Nat) : Nat := satAdd now (satMul idleSeconds 1000)

theorem idleUntil_le (now idleSeconds : Nat) :
    idleUntil now idleSeconds ≤ now + idleSeconds * 1000 :=
  (Nat.min_le_left _ _).trans (Nat.add_le_add_left (Nat.min_le_left _ _) now)

namespace BrokerState

variable (state : BrokerState) (request : SigningRequest)

def unexpired (now : Nat) : ApprovalCacheKey → Option Nat :=
  fun key => (state.shortTtl key).filter (now < ·)

/-- The locked section of `authorize` under a short idle window: whether an approval stands, whose
window then begins anew. -/
def consult (idleSeconds now : Nat) : BrokerState × Bool :=
  let kept := state.unexpired now
  if (kept request.cacheKey).any (now < ·) then
    ({ state with
        shortTtl := Function.update kept request.cacheKey
          (some (idleUntil now idleSeconds)) }, true)
  else ({ state with shortTtl := kept }, false)

def enqueue (policy : SigningPolicy) (expiresAtMs : Nat) : BrokerState :=
  { state with
    pending := Function.update state.pending request.requestId
      (some ⟨request, policy, expiresAtMs⟩) }

def dequeue (id : RequestId) : BrokerState :=
  { state with pending := Function.update state.pending id none }

/-- The scope that `decide` refuses. -/
def remembersTooMuch : SigningPolicy → SigningDecision → Bool
  | .perUse, .approve .untilIdle | .session, .approve .untilIdle => true
  | _, _ => false

def window : SigningPolicy → SigningDecision → Option Nat
  | .shortTtl idleSeconds, .approve .untilIdle => some idleSeconds
  | _, _ => none

def remember (now : Nat) : Option Nat → BrokerState
  | some idleSeconds =>
    { state with
      shortTtl := Function.update state.shortTtl request.cacheKey
        (some (idleUntil now idleSeconds)) }
  | none => state

/-- `decide`, where `waiting` says whether the channel's receiver is still there. An approval is
remembered only after it was sent. -/
def decide (waiting : Bool) (now : Nat) (id : RequestId) (decision : SigningDecision) :
    BrokerState × Except DecisionError PendingEntry :=
  match state.pending id with
  | none => (state, .error .notPending)
  | some entry =>
    if remembersTooMuch entry.policy decision then (state, .error .rememberNotAllowed)
    else if !waiting then (state.dequeue id, .error .requestClosed)
    else ((state.dequeue id).remember entry.request now (window entry.policy decision), .ok entry)

def pushTerminalRecord (policy : SigningPolicy) (approvalSource : Option ApprovalSource)
    (result : SigningRecordResult) (now : Nat) : BrokerState :=
  { state with history := state.history ++ [⟨request, policy, approvalSource, result, now⟩] }

end BrokerState

/-! ## Calls -/

inductive Stage where
  /-- Under a short idle window, with the clock read and the lock not yet taken. -/
  | asking (now : Nat)
  /-- On its way to a visible decision. -/
  | opening
  | waiting
  /-- A decision was sent, and not yet taken from the channel. -/
  | decided (decision : SigningDecision)
  /-- The timer fired and the receiver is gone. -/
  | elapsed
  /-- The record of a refusal is still to be written. -/
  | closing (result : SigningRecordResult) (error : AuthorizationError)
  | done (result : Except AuthorizationError SigningAuthorization)
  /-- The adapter went away while it waited. -/
  | abandoned
  /-- The adapter went away with a decision in the channel. -/
  | uncollected (decision : SigningDecision)

def Stage.isWaiting : Stage → Bool
  | .waiting => true
  | _ => false

structure Call where
  request : SigningRequest
  policy : SigningPolicy
  stage : Stage

/-- What is written down of a run, for the statements below. The code keeps none of it. -/
inductive Happening where
  | approved (request : SigningRequest) (policy : SigningPolicy) (remember : RememberApproval)
      (at_ : Nat)
  | denied (id : RequestId)
  | timedOut (id : RequestId)
  | abandoned (id : RequestId)
  | authorized (authorization : SigningAuthorization) (at_ : Nat)
  | remembered (id : RequestId) (key : ApprovalCacheKey) (expires : Nat)

def Happening.id : Happening → RequestId
  | .approved request _ _ _ => request.requestId
  | .denied id | .timedOut id | .abandoned id | .remembered id _ _ => id
  | .authorized authorization _ => authorization.request.requestId

def decisionNews (entry : PendingEntry) (now : Nat) : SigningDecision → List Happening
  | .deny => [.denied entry.request.requestId]
  | .approve remember =>
    ((BrokerState.window entry.policy (.approve remember)).map fun idleSeconds =>
      Happening.remembered entry.request.requestId entry.request.cacheKey
        (idleUntil now idleSeconds)).toList ++
      [.approved entry.request entry.policy remember now]

/-- The broker with the calls on it. The log has the newest first. -/
structure System where
  clock : Nat := 0
  broker : BrokerState := {}
  calls : RequestId → Option Call := fun _ => none
  log : List Happening := []

namespace System

variable (s : System)

def setCall (request : SigningRequest) (policy : SigningPolicy) (stage : Stage) : System :=
  { s with calls := Function.update s.calls request.requestId (some ⟨request, policy, stage⟩) }

def setBroker (broker : BrokerState) : System := { s with broker }

def write (happening : Happening) : System := { s with log := happening :: s.log }

def authorized (authorization : SigningAuthorization) (now : Nat) : System :=
  (s.setCall authorization.request authorization.policy (.done (.ok authorization))).write
    (.authorized authorization now)

/-- `now` is read first; then the policy decides what else is done. -/
def authorize (request : SigningRequest) (policy : SigningPolicy) : System :=
  match policy with
  | .session => s.authorized ⟨request, policy, .sessionPolicy⟩ s.clock
  | .shortTtl _ => s.setCall request policy (.asking s.clock)
  | .perUse => s.setCall request policy .opening

def consult (request : SigningRequest) (idleSeconds now : Nat) : System :=
  match s.broker.consult request idleSeconds now with
  | (broker, true) =>
    ((s.setBroker broker).write
      (.remembered request.requestId request.cacheKey (idleUntil now idleSeconds))).authorized
        ⟨request, .shortTtl idleSeconds, .cachedShortTtl⟩ now
  | (broker, false) => (s.setBroker broker).setCall request (.shortTtl idleSeconds) .opening

/-- What `decide` answered with `Ok` is written down, and is in the channel. -/
def resolve (entry : PendingEntry) (decision : SigningDecision) : System :=
  { s.setCall entry.request entry.policy (.decided decision) with
    log := decisionNews entry s.clock decision ++ s.log }

def decide (id : RequestId) (decision : SigningDecision) : System :=
  match s.broker.decide ((s.calls id).any (·.stage.isWaiting)) s.clock id decision with
  | (broker, .error _) => s.setBroker broker
  | (broker, .ok entry) => (s.setBroker broker).resolve entry decision

end System

/-! ## Steps -/

inductive Event where
  | tick (now : Nat)
  | authorize (request : SigningRequest) (policy : SigningPolicy)
  | consult (id : RequestId)
  | enqueue (id : RequestId)
  | decide (id : RequestId) (decision : SigningDecision)
  /-- The waiting call takes the decision from the channel. -/
  | receive (id : RequestId)
  /-- The timer fires with nothing in the channel. -/
  | timeout (id : RequestId)
  | expire (id : RequestId)
  /-- The sender is gone with nothing in the channel. -/
  | close (id : RequestId)
  | finish (id : RequestId)
  /-- The adapter drops the call that waits. -/
  | abandon (id : RequestId)
  | complete (authorization : SigningAuthorization) (result : SigningRecordResult)

def Call.step (decisionTimeout : Nat) (s : System) (c : Call) : Event → Option System
  | .consult _ =>
    match c.policy, c.stage with
    | .shortTtl idleSeconds, .asking now => some (s.consult c.request idleSeconds now)
    | _, _ => none
  | .enqueue _ =>
    match c.stage with
    | .opening =>
      some ((s.setBroker (s.broker.enqueue c.request c.policy
        (satAdd s.clock decisionTimeout))).setCall c.request c.policy .waiting)
    | _ => none
  | .receive _ =>
    match c.stage with
    | .decided (.approve remember) =>
      some (s.authorized ⟨c.request, c.policy, remember.source⟩ s.clock)
    | .decided .deny => some (s.setCall c.request c.policy (.closing .denied .denied))
    | _ => none
  | .timeout _ =>
    match c.stage with
    | .waiting =>
      some ((s.setCall c.request c.policy .elapsed).write (.timedOut c.request.requestId))
    | _ => none
  | .expire _ =>
    match c.stage with
    | .elapsed =>
      some ((s.setBroker (s.broker.dequeue c.request.requestId)).setCall c.request c.policy
        (.closing .timedOut .timedOut))
    | _ => none
  | .close _ =>
    match c.stage with
    | .waiting =>
      if (s.broker.pending c.request.requestId).isNone then
        some ((s.setBroker (s.broker.dequeue c.request.requestId)).setCall c.request c.policy
          (.closing (.failed .approvalChannelClosed) .brokerClosed))
      else none
    | _ => none
  | .finish _ =>
    match c.stage with
    | .closing result error =>
      some ((s.setBroker (s.broker.pushTerminalRecord c.request c.policy none result
        s.clock)).setCall c.request c.policy (.done (.error error)))
    | _ => none
  | .abandon _ =>
    match c.stage with
    | .waiting =>
      some ((s.setCall c.request c.policy .abandoned).write (.abandoned c.request.requestId))
    | .decided decision => some (s.setCall c.request c.policy (.uncollected decision))
    | _ => none
  | _ => none

/-- Request ids are distinct, and the clock does not go back. -/
def System.step (decisionTimeout : Nat) (s : System) : Event → Option System
  | .tick now => if s.clock ≤ now then some { s with clock := now } else none
  | .authorize request policy =>
    if (s.calls request.requestId).isNone then some (s.authorize request policy) else none
  | .decide id decision => some (s.decide id decision)
  | .complete authorization result =>
    some (s.setBroker (s.broker.pushTerminalRecord authorization.request authorization.policy
      (some authorization.source) result s.clock))
  | event@(.consult id) | event@(.enqueue id) | event@(.receive id) | event@(.timeout id)
  | event@(.expire id) | event@(.close id) | event@(.finish id) | event@(.abandon id) =>
    (s.calls id).bind fun c => c.step decisionTimeout s event

def System.Reachable (decisionTimeout : Nat) : System → Prop :=
  Reach {} (System.step decisionTimeout) fun _ _ => True

end Mere.Personae
