import Mere.Stickleback.Processor

/-!
# Importing drops

From `crates/stickleback/src/drop_io.rs`: a drop's records bring operations, with or without their
bodies, and bodies in chunks.
-/

namespace Mere.Stickleback

variable {E L : Type} (digest : Str → Bytes32)

inductive ChunkKind
  | payload
  | blob

inductive DropIoError
  | process (error : ProcessError)
  | operationCodec
  | missingStage (drop : Bytes32)
  | falseStage
  | chunkLayout (kind : ChunkKind) (digest : Bytes32) (offset : Nat)
  | falseChunkDigest (kind : ChunkKind) (digest : Bytes32)
  | store (error : StoreError)
  | recordCount (actual maximum : Nat)
  | recordBytes

/-! ## Chunks -/

def joinChunks (kind : ChunkKind) (target : Bytes32) (expected : Nat) (bytes : Str) :
    List (Nat × Str) → Except DropIoError Str
  | [] => .ok bytes
  | (offset, chunk) :: rest =>
    if offset ≠ expected then .error (.chunkLayout kind target offset)
    else if u64Max < expected + chunk.length then .error (.chunkLayout kind target offset)
    else joinChunks kind target (expected + chunk.length) (bytes ++ chunk) rest

def assembleChunks (kind : ChunkKind) (target : Bytes32) (chunks : List (Nat × Str)) :
    Except DropIoError Str :=
  match joinChunks kind target 0 [] (chunks.insertionSort fun x y => x.1 ≤ y.1) with
  | .error error => .error error
  | .ok bytes => if digest bytes ≠ target then .error (.falseChunkDigest kind target) else .ok bytes

def chunkOf : ChunkKind → DropRecord E → Option (Bytes32 × Nat × Str)
  | .payload, .payloadChunk hash offset bytes => some (hash, offset, bytes)
  | .blob, .blobChunk hash offset bytes => some (hash, offset, bytes)
  | _, _ => none

def chunksOf (kind : ChunkKind) (records : List (DropRecord E)) : OrdMap Bytes32 (List (Nat × Str)) :=
  (records.filterMap (chunkOf kind)).foldl (fun m chunk =>
    m.insert chunk.1 (m.getD chunk.1 [] ++ [chunk.2])) ∅

/-- Each digest's bytes, in the order of the digests. -/
def assemble (kind : ChunkKind) (records : List (DropRecord E)) :
    Except DropIoError (List (Bytes32 × Str)) :=
  (chunksOf kind records).toList.mapM fun chunks =>
    (assembleChunks digest kind chunks.1 chunks.2).map (chunks.1, ·)

structure AssembledContent where
  payloads : List (Bytes32 × Str)
  blobs : List (Bytes32 × Str)

def assembleContent (records : List (DropRecord E)) : Except DropIoError AssembledContent := do
  let payloads ← assemble digest .payload records
  let blobs ← assemble digest .blob records
  return ⟨payloads, blobs⟩

/-! ## Operations -/

def decodeOperationRecord : DropRecord E → Except DropIoError (Option (Operation E))
  | .operation none _ => .error .operationCodec
  | .operation (some header) inlineBody => .ok (some ⟨header.hash, header, inlineBody⟩)
  | _ => .ok none

def decodeOperations (records : List (DropRecord E)) : Except DropIoError (List (Operation E)) :=
  (records.mapM decodeOperationRecord).map fun decoded => decoded.filterMap id

structure Filled (E : Type) where
  operation : Operation E
  consumedPayload : Option Bytes32 := none
  consumedPending : Option Bytes32 := none

section Writes

variable [DecidableEq L] (b : MunimentStore E L)

def fillBody (payloads : List (Bytes32 × Str)) (op : Operation E) : Except DropIoError (Filled E) :=
  match op.header.payloadHash with
  | none => .ok { operation := op }
  | some payloadHash =>
    match op.body, payloads.lookup payloadHash with
    | some _, some _ => .ok { operation := op, consumedPayload := some payloadHash }
    | some _, none => .ok { operation := op }
    | none, some bytes =>
      .ok { operation := { op with body := some bytes }, consumedPayload := some payloadHash }
    | none, none =>
      match Backend.get b (.pendingPayload payloadHash) with
      | none => .ok { operation := op }
      | some bytes =>
        if digest bytes ≠ payloadHash then .error (.falseChunkDigest .payload payloadHash)
        else .ok { operation := { op with body := some bytes }, consumedPending := some payloadHash }

/-! ## The writes around the batch -/

/-- The writes for one payload: to the headers that wait for it, and to what is kept for later. -/
def payloadWrites (consumed : List Bytes32) (payload : Bytes32 × Str) :
    Except DropIoError (List (Write E L)) :=
  match MunimentStore.attachmentWrites b payload.1 payload.2 with
  | .error error => .error (.store error)
  | .ok (writes, attached) =>
    if payload.1 ∈ consumed ∨ 0 < attached then
      .ok (writes ++ [.delete (.pendingPayload payload.1)])
    else .ok (writes ++ [.put (.pendingPayload payload.1) payload.2])

def leadingWrites (content : AssembledContent) (filled : List (Filled E)) :
    Except DropIoError (List (Write E L)) :=
  (content.payloads.mapM (payloadWrites b (filled.filterMap (·.consumedPayload)))).map fun writes =>
    (filled.filterMap (·.consumedPending)).dedup.map (fun payload => .delete (.pendingPayload payload)) ++
      writes.flatten ++ content.blobs.map fun blob => .put (.blob blob.1) blob.2

variable (drop : Bytes32) (records : List (DropRecord E))

def stageKeyOf : Key L → Bool
  | .stage d _ => d = drop
  | .stageMeta d => d = drop
  | _ => false

def discardWrites : List (Write E L) :=
  (b.keys.filter (stageKeyOf drop)).map .delete

def discardStagedDrop : MunimentStore E L :=
  Backend.apply b (discardWrites b drop)

def stageWrites : List (Write E L) :=
  discardWrites b drop ++ .put (.stageMeta drop) (drop, records.length) ::
    records.zipIdx.map fun record => .put (.stage drop record.2) record.1

def finalWrites (operations : Nat) : List (Write E L) :=
  (.delete (.stageMeta drop) :: (List.range records.length).map fun i => .delete (.stage drop i)) ++
    [.put (.receipt drop) ⟨operations, records.length - operations⟩]

end Writes

/-! ## Importing -/

structure DropImportReport where
  accepted : Nat
  duplicate : Nat
  hydratedPayloads : Nat
  nonOperationRecords : Nat
  receiptHit : Bool

variable [LinearOrder L] (b : MunimentStore E L) (policy : Policy E L)

/-- What is worked out before anything is written. -/
def prepareImport (records : List (DropRecord E)) :
    Except DropIoError (List (Operation E) × List (Write E L)) := do
  let content ← assembleContent digest records
  let operations ← decodeOperations records
  let filled ← operations.mapM (fillBody digest b content.payloads)
  let _ ← (filled.mapM fun f => preflight digest policy f.operation).mapError .process
  let leading ← leadingWrites b content filled
  return (filled.map (·.operation), leading)

def importDropRecords (drop : Bytes32) (records : List (DropRecord E)) :
    Except DropIoError DropImportReport × MunimentStore E L :=
  match Backend.get b (.receipt drop) with
  | some receipt =>
    (.ok ⟨0, receipt.operationRecords, 0, receipt.nonOperationRecords, true⟩, discardStagedDrop b drop)
  | none =>
    match prepareImport digest b policy records with
    | .error error => (.error error, b)
    | .ok (operations, leading) =>
      match MunimentStore.processBatchAtomic digest policy
          (Backend.apply b (stageWrites b drop records)) operations leading
          (finalWrites drop records operations.length) with
      | .error error => (.error (.process error), Backend.apply b (stageWrites b drop records))
      | .ok (outcome, b') =>
        (.ok ⟨outcome.inserted, outcome.duplicate, outcome.hydratedPayloads,
          records.length - operations.length, false⟩, b')

structure DropLimits (E : Type) where
  maxRecords : Nat
  /-- Whether the encoded record is within `max_record_bytes`. -/
  fits : DropRecord E → Bool

def readStaged (drop : Bytes32) (limits : DropLimits E) (index : Nat) :
    Except DropIoError (DropRecord E) :=
  match Backend.get b (.stage drop index) with
  | none => .error .falseStage
  | some record => if !limits.fits record then .error .recordBytes else .ok record

def resumeStagedDrop (drop : Bytes32) (limits : DropLimits E) :
    Except DropIoError DropImportReport × MunimentStore E L :=
  match Backend.get b (.stageMeta drop) with
  | none => (.error (.missingStage drop), b)
  | some (stored, count) =>
    if stored ≠ drop then (.error .falseStage, b)
    else if limits.maxRecords < count then (.error (.recordCount count limits.maxRecords), b)
    else
      match (List.range count).mapM (readStaged b drop limits) with
      | .error error => (.error error, b)
      | .ok records => importDropRecords digest b policy drop records

end Mere.Stickleback
