import Mere.Stickleback.Store

/-!
# The operation processor

From `crates/stickleback/src/processor.rs`: one operation at a time, or many in one batch.
-/

namespace Mere.Stickleback

variable {E L : Type}

/-! ## Policies -/

structure StoreTarget (L : Type) where
  topic : Bytes32
  logId : L

inductive HistoryAction
  | keep
  | pruneBeforeCurrent
deriving DecidableEq

def HistoryAction.prunes : HistoryAction → Bool
  | .keep => false
  | .pruneBeforeCurrent => true

structure Admission (L : Type) where
  target : StoreTarget L
  history : HistoryAction := .keep
  erasePayloads : List Bytes32 := []

structure Reject where
  code : String
  detail : String
deriving DecidableEq

abbrev Policy (E L : Type) := Operation E → Except Reject (Admission L)

inductive ProcessOutcome
  | inserted (prunedEntries erasedPayloads : Nat)
  | hydratedPayload
  | duplicate
deriving DecidableEq

inductive ProcessError
  | invalidOperation
  | rejected (reject : Reject)
  | missingPredecessor (seqNum : Nat)
  | staleOperation (seqNum frontier : Nat)
  | backlink
  | store (error : StoreError)
deriving DecidableEq

variable (digest : Str → Bytes32) (policy : Policy E L)

def preflight (op : Operation E) : Except ProcessError (Admission L) :=
  if !validateOperation digest op then .error .invalidOperation
  else if op.hash ≠ op.header.hash then .error .invalidOperation
  else (policy op).mapError .rejected

def continues (latest : Option (Operation E)) (op : Operation E) (history : HistoryAction) :
    Except ProcessError Unit :=
  match latest with
  | some previous =>
    if op.header.seqNum ≤ previous.header.seqNum then
      .error (.staleOperation op.header.seqNum previous.header.seqNum)
    else if validatePrunableBacklink (some previous.header) op.header history.prunes then .ok ()
    else .error .backlink
  | none =>
    if op.header.seqNum = 0 then .ok ()
    else if history = .keep then .error (.missingPredecessor op.header.seqNum)
    else if validatePrunableBacklink none op.header history.prunes then .ok ()
    else .error .backlink

/-! ## One operation -/

namespace MunimentStore

variable [DecidableEq L] (b : MunimentStore E L)

/-- A repeated operation brings the body that its header waits for. -/
def hydrate (op : Operation E) : Except ProcessError ProcessOutcome × MunimentStore E L :=
  match op.header.payloadHash, op.body with
  | some payloadHash, some body =>
    match attachPayload digest b payloadHash body with
    | .error error => (.error (.store error), b)
    | .ok (b', attached) => (.ok (if 0 < attached then .hydratedPayload else .duplicate), b')
  | _, _ => (.ok .duplicate, b)

/-- What the admission of a new operation does. -/
def commit (op : Operation E) (admission : Admission L) :
    Except ProcessError ProcessOutcome × MunimentStore E L :=
  match insertIndexedOperationWithEffects b admission.target.topic op admission.target.logId
      admission.history.prunes admission.erasePayloads with
  | (b', true, pruned, erased) => (.ok (.inserted pruned erased), b')
  | (b', false, _, _) => (.ok .duplicate, b')

def process (op : Operation E) : Except ProcessError ProcessOutcome × MunimentStore E L :=
  match preflight digest policy op with
  | .error error => (.error error, b)
  | .ok admission =>
    if hasOperation b op.hash then hydrate digest b op
    else
      match continues (getLatestEntry b op.header.verifyingKey admission.target.logId) op
          admission.history with
      | .error error => (.error error, b)
      | .ok () => commit b op admission

end MunimentStore

/-! ## A batch -/

structure BatchProcessOutcome where
  inserted : Nat := 0
  duplicate : Nat := 0
  hydratedPayloads : Nat := 0

structure BatchState (E L : Type) where
  frontiers : Table (Bytes32 × L) (Option (Operation E)) := ∅
  seen : List Bytes32 := []
  accepted : List (Operation E × Admission L) := []
  hydrationWrites : List (Write E L)
  outcome : BatchProcessOutcome := {}

namespace BatchState

variable [DecidableEq L] (b : MunimentStore E L) (s : BatchState E L)

def pass (op : Operation E) : BatchState E L :=
  { s with
    seen := op.hash :: s.seen
    outcome := { s.outcome with duplicate := s.outcome.duplicate + 1 } }

/-- A repeated operation's body is attached with the batch. -/
def hydrate (op : Operation E) : Except ProcessError (BatchState E L) :=
  match op.header.payloadHash, op.body with
  | some payloadHash, some body =>
    match MunimentStore.payloadAttachmentWrites digest b payloadHash body with
    | .error error => .error (.store error)
    | .ok (writes, attached) =>
      .ok { s.pass op with
        hydrationWrites := s.hydrationWrites ++ writes
        outcome := { (s.pass op).outcome with
          hydratedPayloads := s.outcome.hydratedPayloads + attached } }
  | _, _ => .ok (s.pass op)

def frontier (author : Bytes32) (logId : L) : Option (Operation E) :=
  (s.frontiers.lookup (author, logId)).getD (MunimentStore.getLatestEntry b author logId)

def take (op : Operation E) (admission : Admission L) : BatchState E L :=
  { s with
    frontiers := s.frontiers.insert (op.header.verifyingKey, admission.target.logId) (some op)
    seen := op.hash :: s.seen
    accepted := s.accepted ++ [(op, admission)]
    outcome := { s.outcome with inserted := s.outcome.inserted + 1 } }

def step (entry : Operation E × Admission L) : Except ProcessError (BatchState E L) :=
  if entry.1.hash ∈ s.seen then
    .ok { s with outcome := { s.outcome with duplicate := s.outcome.duplicate + 1 } }
  else if MunimentStore.hasOperation b entry.1.hash then s.hydrate digest b entry.1
  else
    match continues (s.frontier b entry.1.header.verifyingKey entry.2.target.logId) entry.1
        entry.2.history with
    | .error error => .error error
    | .ok () => .ok (s.take entry.1 entry.2)

def run : BatchState E L → List (Operation E × Admission L) → Except ProcessError (BatchState E L)
  | s, [] => .ok s
  | s, entry :: rest =>
    match step digest b s entry with
    | .error error => .error error
    | .ok s' => run s' rest

end BatchState

def indexed (entry : Operation E × Admission L) : IndexedOperation E L where
  topic := entry.2.target.topic
  operation := entry.1
  logId := entry.2.target.logId
  pruneBeforeCurrent := entry.2.history.prunes
  erasePayloads := entry.2.erasePayloads

/-- The corpus with its admissions, each log in order. -/
def prepare [LinearOrder L] (ops : List (Operation E)) :
    Except ProcessError (List (Operation E × Admission L)) :=
  (ops.mapM fun op => (preflight digest policy op).map (op, ·)).map fun prepared =>
    prepared.insertionSort fun x y =>
      toLex (x.1.header.verifyingKey, toLex (x.2.target.logId, x.1.header.seqNum)) ≤
        toLex (y.1.header.verifyingKey, toLex (y.2.target.logId, y.1.header.seqNum))

namespace MunimentStore

variable [LinearOrder L] (b : MunimentStore E L)

/-- What the batch accepts, hydrates and counts, against the store before it. -/
def judgeBatch (ops : List (Operation E)) (leadingWrites : List (Write E L)) :
    Except ProcessError (BatchState E L) :=
  match prepare digest policy ops with
  | .error error => .error error
  | .ok prepared => BatchState.run digest b { hydrationWrites := leadingWrites } prepared

def processBatchAtomic (ops : List (Operation E)) (leadingWrites trailingWrites : List (Write E L)) :
    Except ProcessError (BatchProcessOutcome × MunimentStore E L) :=
  match judgeBatch digest policy b ops leadingWrites with
  | .error error => .error error
  | .ok s =>
    match applyIndexedOperationBatch b (s.accepted.map indexed) s.hydrationWrites trailingWrites with
    | .error error => .error (.store error)
    | .ok b' => .ok (s.outcome, b')

end MunimentStore

end Mere.Stickleback
