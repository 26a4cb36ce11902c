import Mere.Base.Arena
import Mere.Base.Backend
import Mere.Stickleback.Operation

/-!
# The operation store

From `crates/stickleback/src/store.rs`: operations by place, with an index by operation and one by
the payload that a header waits for.
-/

namespace Mere.Stickleback

variable {E L : Type}

/-! ## Keys -/

structure LogKey (L : Type) where
  author : Bytes32
  logId : L
  seqNum : Nat
deriving DecidableEq

inductive DropRecord (E : Type)
  /-- The header, where it decodes and is canonically encoded. -/
  | operation (header : Option (Header E)) (inlineBody : Option Str)
  | payloadChunk (payloadHash : Bytes32) (offset : Nat) (bytes : Str)
  | blobChunk (blobHash : Bytes32) (offset : Nat) (bytes : Str)
  | evidence

structure StoredDropReceipt where
  operationRecords : Nat
  nonOperationRecords : Nat

inductive Key (L : Type)
  | log (place : LogKey L)
  | op (hash : Bytes32)
  | topic (topic author : Bytes32) (logId : L)
  | payloadRef (payloadHash operationHash : Bytes32)
  | pendingPayload (payloadHash : Bytes32)
  | blob (hash : Bytes32)
  | stage (drop : Bytes32) (index : Nat)
  | stageMeta (drop : Bytes32)
  | receipt (drop : Bytes32)
deriving DecidableEq

abbrev Value (E : Type) {L : Type} : Key L → Type
  | .log _ => Header E × Option Str
  | .op _ => LogKey L
  | .topic _ _ _ => Unit
  | .payloadRef _ _ => LogKey L
  | .pendingPayload _ => Str
  | .blob _ => Str
  | .stage _ _ => DropRecord E
  | .stageMeta _ => Bytes32 × Nat
  | .receipt _ => StoredDropReceipt

abbrev Write (E L : Type) := WriteOp (Value E (L := L))

abbrev MunimentStore (E L : Type) := Backend (Value E (L := L))

inductive StoreError
  | codec (detail : String)
deriving DecidableEq

def Header.place (header : Header E) (logId : L) : LogKey L :=
  ⟨header.verifyingKey, logId, header.seqNum⟩

def decodeOp (entry : Header E × Option Str) : Operation E := ⟨entry.1.hash, entry.1, entry.2⟩

def forgetRef (payloadHash : Option Bytes32) (id : Bytes32) : List (Write E L) :=
  payloadHash.toList.map fun payload => .delete (.payloadRef payload id)

def seqIn [DecidableEq L] (author : Bytes32) (logId : L) : Key L → Option Nat
  | .log place => if place.author = author ∧ place.logId = logId then some place.seqNum else none
  | _ => none

def refOf (payloadHash : Bytes32) : Key L → Option Bytes32
  | .payloadRef payload operation => if payload = payloadHash then some operation else none
  | _ => none

namespace MunimentStore

variable [DecidableEq L] (digest : Str → Bytes32) (b : MunimentStore E L)

/-! ## Reading -/

variable (id payloadHash author : Bytes32) (logId : L) (bytes : Str) (untilSeq : Nat)

def logKeyFor : Option (LogKey L) := Backend.get b (.op id)

def logEntry (place : LogKey L) : Option (Header E × Option Str) := Backend.get b (.log place)

def getOperation : Option (Operation E) :=
  (logKeyFor b id).bind fun place => (logEntry b place).map decodeOp

def hasOperation : Bool := (logKeyFor b id).isSome

def seqNums : List Nat :=
  (b.keys.filterMap (seqIn author logId)).insertionSort (· ≤ ·)

def getLatestEntry : Option (Operation E) :=
  (seqNums b author logId).getLast?.bind fun seqNum =>
    (logEntry b ⟨author, logId, seqNum⟩).map decodeOp

def payloadRefs : List Bytes32 := b.keys.filterMap (refOf payloadHash)

/-! ## Pruning and deleting -/

def pruneWritesAt (place : LogKey L) : List (Write E L) :=
  match logEntry b place with
  | some (header, _) =>
    .delete (.op header.hash) :: forgetRef header.payloadHash header.hash ++ [.delete (.log place)]
  | none => [.delete (.log place)]

def prunedPlaces : List (LogKey L) :=
  ((seqNums b author logId).filter (· < untilSeq)).map (⟨author, logId, ·⟩)

def prefixPruneWrites : List (Write E L) × Nat :=
  ((prunedPlaces b author logId untilSeq).flatMap (pruneWritesAt b),
    (prunedPlaces b author logId untilSeq).length)

def pruneEntries : MunimentStore E L × Nat :=
  (Backend.apply b (prefixPruneWrites b author logId untilSeq).1,
    (prefixPruneWrites b author logId untilSeq).2)

def deleteOperation : MunimentStore E L × Bool :=
  match logKeyFor b id with
  | none => (b, false)
  | some place =>
    match logEntry b place with
    | none => (Backend.apply b [.delete (.op id), .delete (.log place)], true)
    | some (header, _) =>
      (Backend.apply b ([.delete (.op id), .delete (.log place)] ++ forgetRef header.payloadHash id),
        true)

def deleteOperationPayload : MunimentStore E L × Bool :=
  match logKeyFor b id with
  | none => (b, false)
  | some place =>
    match logEntry b place with
    | none => (b, false)
    | some (header, _) =>
      (Backend.apply b (.put (.log place) (header, none) :: forgetRef header.payloadHash id), true)

/-! ## Attaching payloads -/

def attachmentWrite (id : Bytes32) : Except StoreError (List (Write E L) × Nat) :=
  match Backend.get b (.payloadRef payloadHash id) with
  | none => .ok ([.delete (.payloadRef payloadHash id)], 0)
  | some place =>
    match logEntry b place with
    | none => .ok ([.delete (.payloadRef payloadHash id)], 0)
    | some (header, body) =>
      if header.payloadHash ≠ some payloadHash then
        .error (.codec "payload reference points at another digest")
      else if header.payloadSize ≠ bytes.length % 2 ^ 32 then
        .error (.codec "payload bytes do not match the signed size")
      else if body.isNone then .ok ([.put (.log place) (header, some bytes)], 1)
      else .ok ([], 0)

def attachmentWritesFrom (payloadHash : Bytes32) (bytes : Str) :
    List Bytes32 → Except StoreError (List (Write E L) × Nat)
  | [] => .ok ([], 0)
  | id :: rest =>
    match attachmentWrite b payloadHash bytes id with
    | .error error => .error error
    | .ok (writes, attached) =>
      (attachmentWritesFrom payloadHash bytes rest).map fun more =>
        (writes ++ more.1, attached + more.2)

/-- Writes that attach bytes to every header that waits for them, and how many there are. -/
def attachmentWrites : Except StoreError (List (Write E L) × Nat) :=
  attachmentWritesFrom b payloadHash bytes (payloadRefs b payloadHash)

def payloadAttachmentWrites : Except StoreError (List (Write E L) × Nat) :=
  if digest bytes ≠ payloadHash then .error (.codec "payload chunk-set has a false digest")
  else attachmentWrites b payloadHash bytes

def attachPayload : Except StoreError (MunimentStore E L × Nat) :=
  (payloadAttachmentWrites digest b payloadHash bytes).map fun result =>
    (Backend.apply b result.1, result.2)

/-! ## One operation -/

/-- Writes that erase one payload as the store stands, and how many bodies they drop. -/
def eraseWrites : List (Write E L) × Nat :=
  match logKeyFor b id with
  | none => ([], 0)
  | some place =>
    match logEntry b place with
    | none => ([], 0)
    | some (header, body) =>
      if body.isNone then (forgetRef header.payloadHash id, 0)
      else (forgetRef header.payloadHash id ++ [.put (.log place) (header, none)], 1)

def indexWrites (topic : Bytes32) (op : Operation E) (logId : L) : List (Write E L) :=
  [.put (.topic topic op.header.verifyingKey logId) (), .put (.log (op.header.place logId)) (op.header, op.body),
    .put (.op op.hash) (op.header.place logId)] ++
  op.header.payloadHash.toList.map fun payload => .put (.payloadRef payload op.hash) (op.header.place logId)

/-- What is pruned and what is erased are both read from the store before any of it is written. -/
def effectWrites (op : Operation E) (logId : L) (prunes : Bool) (erasePayloads : List Bytes32) :
    List (Write E L) :=
  (if prunes then (prefixPruneWrites b op.header.verifyingKey logId op.header.seqNum).1 else []) ++
    erasePayloads.flatMap fun id => (eraseWrites b id).1

/-- Whether the operation was inserted, with the entries pruned and the payloads erased. -/
def insertIndexedOperationWithEffects (topic : Bytes32) (op : Operation E) (logId : L)
    (prunes : Bool) (erasePayloads : List Bytes32) : MunimentStore E L × Bool × Nat × Nat :=
  if hasOperation b op.hash then (b, false, 0, 0)
  else
    (Backend.apply b (effectWrites b op logId prunes erasePayloads ++ indexWrites topic op logId), true,
      if prunes then (prefixPruneWrites b op.header.verifyingKey logId op.header.seqNum).2 else 0,
      (erasePayloads.map fun id => (eraseWrites b id).2).sum)

end MunimentStore

/-! ## A batch -/

structure IndexedOperation (E L : Type) where
  topic : Bytes32
  operation : Operation E
  logId : L
  pruneBeforeCurrent : Bool
  erasePayloads : List Bytes32

def IndexedOperation.place (entry : IndexedOperation E L) : LogKey L :=
  entry.operation.header.place entry.logId

structure PlannedOperation (E L : Type) where
  pointer : Key L
  logKey : LogKey L
  payloadRef : Option (Key L)
  header : Header E
  hasBody : Bool

/-- The writes so far, and the operations among them that a later one may prune or erase. -/
structure BatchPlan (E L : Type) where
  writes : Overlay (Value E (L := L)) := ∅
  planned : Table Bytes32 (PlannedOperation E L) := ∅
  byLog : List (LogKey L × Bytes32) := []

namespace BatchPlan

variable [DecidableEq L] (plan : BatchPlan E L)

def record (writes : List (Write E L)) : BatchPlan E L :=
  { plan with writes := writes.foldl Overlay.record plan.writes }

def dropPlanned (stale : LogKey L × Bytes32) : BatchPlan E L :=
  match plan.planned.lookup stale.2 with
  | none => { plan with byLog := plan.byLog.filter (· ≠ stale) }
  | some planned =>
    { plan.record ([.delete planned.pointer, .delete (.log planned.logKey)] ++
        planned.payloadRef.toList.map .delete) with
      planned := plan.planned.erase stale.2
      byLog := plan.byLog.filter (· ≠ stale) }

def stale (author : Bytes32) (logId : L) (untilSeq : Nat) : List (LogKey L × Bytes32) :=
  plan.byLog.filter fun e => e.1.author = author ∧ e.1.logId = logId ∧ e.1.seqNum < untilSeq

def prunePlanned (author : Bytes32) (logId : L) (untilSeq : Nat) : BatchPlan E L :=
  (plan.stale author logId untilSeq).foldl dropPlanned plan

def planOperation (entry : IndexedOperation E L) : BatchPlan E L :=
  { plan.record (MunimentStore.indexWrites entry.topic entry.operation entry.logId) with
    planned := plan.planned.insert entry.operation.hash
      { pointer := .op entry.operation.hash
        logKey := entry.place
        payloadRef := entry.operation.header.payloadHash.map (.payloadRef · entry.operation.hash)
        header := entry.operation.header
        hasBody := entry.operation.body.isSome }
    byLog := (entry.place, entry.operation.hash) :: plan.byLog }

variable (b : MunimentStore E L) (id : Bytes32)

def planPruneWrites (entry : IndexedOperation E L) : BatchPlan E L :=
  (plan.record (MunimentStore.prefixPruneWrites b entry.operation.header.verifyingKey entry.logId
    entry.operation.header.seqNum).1).prunePlanned entry.operation.header.verifyingKey entry.logId
    entry.operation.header.seqNum

/-- An operation of this batch is erased in the plan. -/
def erasePlanned (planned : PlannedOperation E L) : BatchPlan E L :=
  if planned.hasBody then
    { plan.record (planned.payloadRef.toList.map .delete ++
        [.put (.log planned.logKey) (planned.header, none)]) with
      planned := plan.planned.insert id { planned with hasBody := false } }
  else plan.record (planned.payloadRef.toList.map .delete)

/-- An operation of the store is erased as the plan leaves it. -/
def eraseStored : BatchPlan E L :=
  match MunimentStore.logKeyFor b id with
  | none => plan
  | some place =>
    match plan.writes.onto (Backend.get b) (.log place) with
    | none => plan
    | some (header, body) =>
      if body.isSome then
        plan.record (forgetRef header.payloadHash id ++ [.put (.log place) (header, none)])
      else plan.record (forgetRef header.payloadHash id)

def planPayloadErasure : BatchPlan E L :=
  match plan.planned.lookup id with
  | some planned => plan.erasePlanned id planned
  | none =>
    match plan.writes.lookup (.op id) with
    | some none => plan
    | _ => plan.eraseStored b id

def planEffects (entry : IndexedOperation E L) : BatchPlan E L :=
  entry.erasePayloads.foldl (fun plan id => plan.planPayloadErasure b id)
    (if entry.pruneBeforeCurrent then plan.planPruneWrites b entry else plan)

end BatchPlan

namespace MunimentStore

variable [DecidableEq L] (b : MunimentStore E L)

def planEntries : List Bytes32 → BatchPlan E L → List (IndexedOperation E L) →
    Except StoreError (BatchPlan E L)
  | _, plan, [] => .ok plan
  | pointers, plan, entry :: rest =>
    if entry.operation.hash ∈ pointers then
      .error (.codec "atomic operation batch contains a duplicate id")
    else if hasOperation b entry.operation.hash then
      .error (.codec "operation store changed after atomic batch validation")
    else
      planEntries (entry.operation.hash :: pointers) ((plan.planEffects b entry).planOperation entry) rest

def applyIndexedOperationBatch (entries : List (IndexedOperation E L))
    (leadingWrites trailingWrites : List (Write E L)) : Except StoreError (MunimentStore E L) :=
  (planEntries b [] (({} : BatchPlan E L).record leadingWrites) entries).map fun plan =>
    Backend.apply b (plan.record trailingWrites).writes.writes

end MunimentStore

end Mere.Stickleback
