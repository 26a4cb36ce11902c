import Mere.Base.Interrupt
import Mere.Base.Word

/-!
# Sealed records and their freshness ledger

From `crates/dramatis/personae/src/{sealed_record_storage,sealed_record_storage/freshness}.rs`: one
record of an authoritative store.
-/

namespace Mere.Personae

/-! ## What is taken as given -/

structure SealedRecordEnvelope where
  version : Nat
  generation : Nat
  deleted : Bool
  nonce : Str
  ciphertext : Str

def nonceLen : Nat := 12

def RecordNonce := { nonce : Str // nonce.length = nonceLen }

/-- The codecs, the cipher under the store's key, and the digest. -/
structure Sealing (T D : Type) where
  parse : Str → Option SealedRecordEnvelope
  render : SealedRecordEnvelope → Str
  sealedShape : Str → Bool
  /-- Nonce, associated data and plaintext. -/
  encrypt : Str → Str → Str → Str
  decrypt : Str → Str → Str → Option Str
  encode : T → Str
  decode : Str → Option T
  /-- The digest of a file's bytes, and what stands for one where there is no file. -/
  digest : Option Str → D

structure Sealing.Lawful {T D : Type} (sealing : Sealing T D) : Prop where
  parse_render : ∀ envelope, sealing.parse (sealing.render envelope) = some envelope
  decrypt_encrypt : ∀ nonce aad plaintext,
    sealing.decrypt nonce aad (sealing.encrypt nonce aad plaintext) = some plaintext
  decode_encode : ∀ value, sealing.decode (sealing.encode value) = some value
  digest_injective : Function.Injective sealing.digest

/-! ## The ledger -/

structure RecordRevision (D : Type) where
  generation : Nat
  digest : D
  deleted : Bool
deriving DecidableEq

structure LedgerEntry (D : Type) where
  current : RecordRevision D
  pending : Option (RecordRevision D)

structure RecordDisk (D : Type) where
  record : Option Str
  ledger : Option (LedgerEntry D)

inductive RollbackDetail where
  | evidenceMissing
  | matchesNeither
  | notLatest
  | changedBeforeUpdate
  | changedBeforeCommit

inductive SealedError where
  | parse
  | unsupportedVersion (version : Nat)
  | nonceLength (length : Nat)
  | decrypt
  | tombstonePlaintext
  | decodePlaintext
  | rollback (detail : RollbackDetail)
  | nonConsecutive (next current : Nat)
  | notInitialized
  | lostEvidence
  | exhausted
  | inspect
  | update

section Ledger

variable {D : Type} [DecidableEq D]

def saveLedger (current : RecordRevision D) (pending : Option (RecordRevision D)) :
    Prog (RecordDisk D) SealedError Unit :=
  .write fun disk => { disk with ledger := some ⟨current, pending⟩ }

def reconcile (observed : RecordRevision D) (legacyOrAbsent : Bool) :
    Prog (RecordDisk D) SealedError (RecordRevision D) := do
  let disk ← Prog.read
  match disk.ledger with
  | none =>
    if !legacyOrAbsent then Prog.fail (.rollback .evidenceMissing)
    else do
      saveLedger observed none
      return observed
  | some entry =>
    match entry.pending with
    | some pending =>
      if observed = pending then do
        saveLedger pending none
        return pending
      else if observed = entry.current then do
        saveLedger entry.current none
        return entry.current
      else Prog.fail (.rollback .matchesNeither)
    | none =>
      if observed = entry.current then return entry.current
      else Prog.fail (.rollback .notLatest)

def prepare (current next : RecordRevision D) : Prog (RecordDisk D) SealedError Unit := do
  if next.generation ≠ satAdd current.generation 1 then
    Prog.fail (.nonConsecutive next.generation current.generation)
  else
    let disk ← Prog.read
    match disk.ledger with
    | none => Prog.fail .notInitialized
    | some entry =>
      if entry.current ≠ current ∨ entry.pending.isSome then
        Prog.fail (.rollback .changedBeforeUpdate)
      else saveLedger current (some next)

def commit (next : RecordRevision D) : Prog (RecordDisk D) SealedError Unit := do
  let disk ← Prog.read
  match disk.ledger with
  | none => Prog.fail .lostEvidence
  | some entry =>
    if entry.pending ≠ some next then Prog.fail (.rollback .changedBeforeCommit)
    else saveLedger next none

end Ledger

/-! ## The record -/

def legacySealedRecordFormatVersion : Nat := 1

def sealedRecordFormatVersion : Nat := 2

def decimal (n : Nat) : Str := (Nat.toDigits 10 n).map fun ch => UInt8.ofNat ch.toNat

def asciiBytes (text : String) : Str := text.toList.map fun ch => UInt8.ofNat ch.toNat

def envelopeAad (pathAad : Str) (version generation : Nat) (deleted : Bool) : Str :=
  if version = legacySealedRecordFormatVersion then pathAad
  else
    asciiBytes "personae/sealed-record/v" ++ decimal version ++ asciiBytes "/" ++
      decimal generation ++ asciiBytes "/" ++ asciiBytes (if deleted then "true" else "false") ++
      asciiBytes "/" ++ pathAad

inductive SealedRecordChange (T : Type) where
  | keep
  | replace (value : T)

namespace Sealing

variable {T D : Type} [DecidableEq D] (sealing : Sealing T D) (aad : Str)
  (envelope : SealedRecordEnvelope)

def revision (bytes : Option Str) (generation : Nat) (deleted : Bool) : RecordRevision D :=
  ⟨generation, sealing.digest bytes, deleted⟩

def isLegacy : Bool :=
  envelope.version = legacySealedRecordFormatVersion

def supported : Bool :=
  envelope.version = legacySealedRecordFormatVersion || envelope.version = sealedRecordFormatVersion

/-- The generation that is bound to an envelope. -/
def boundGeneration : Nat :=
  if isLegacy envelope then 0 else envelope.generation

def envelopeRevision (bytes : Str) (envelope : SealedRecordEnvelope) : RecordRevision D :=
  sealing.revision (some bytes) (boundGeneration envelope) envelope.deleted

/-- A tombstone is an empty plaintext. -/
def decodePlaintext (deleted : Bool) (plaintext : Str) : Except SealedError (Option T) :=
  if deleted then
    if plaintext ≠ [] then .error .tombstonePlaintext else .ok none
  else
    match sealing.decode plaintext with
    | none => .error .decodePlaintext
    | some value => .ok (some value)

def openEnvelope : Except SealedError (Option T) :=
  if envelope.nonce.length ≠ nonceLen then .error (.nonceLength envelope.nonce.length)
  else
    match sealing.decrypt envelope.nonce
        (envelopeAad aad envelope.version (boundGeneration envelope) envelope.deleted)
        envelope.ciphertext with
    | none => .error .decrypt
    | some plaintext => sealing.decodePlaintext envelope.deleted plaintext

/-- What a load makes of the file: the revision it observes, whether it may begin the ledger, and
the value. -/
def inspect : Option Str → Except SealedError (RecordRevision D × Bool × Option T)
  | none => .ok (sealing.revision none 0 true, true, none)
  | some bytes =>
    match sealing.parse bytes with
    | none => .error .parse
    | some envelope =>
      if !supported envelope then .error (.unsupportedVersion envelope.version)
      else
        match sealing.openEnvelope aad envelope with
        | .error error => .error error
        | .ok value => .ok (sealing.envelopeRevision bytes envelope, isLegacy envelope, value)

def loadRecord : Prog (RecordDisk D) SealedError (Option T) := do
  let disk ← Prog.read
  match sealing.inspect aad disk.record with
  | .error error => Prog.fail error
  | .ok (observed, legacyOrAbsent, value) => do
    let _ ← reconcile observed legacyOrAbsent
    return value

/-- What a write makes of the file. One from before sealing counts as none. -/
def observe : Option Str → Except SealedError (RecordRevision D × Bool)
  | none => .ok (sealing.revision none 0 true, true)
  | some bytes =>
    match sealing.parse bytes with
    | none =>
      if sealing.sealedShape bytes then .error .parse
      else .ok (sealing.revision none 0 true, true)
    | some envelope =>
      if !supported envelope then .error (.unsupportedVersion envelope.version)
      else .ok (sealing.envelopeRevision bytes envelope, isLegacy envelope)

def currentRevision : Prog (RecordDisk D) SealedError (RecordRevision D) := do
  let disk ← Prog.read
  match sealing.observe disk.record with
  | .error error => Prog.fail error
  | .ok (observed, legacyOrAbsent) => reconcile observed legacyOrAbsent

def sealEnvelope (generation : Nat) (deleted : Bool) (nonce : RecordNonce) (plaintext : Str) :
    SealedRecordEnvelope where
  version := sealedRecordFormatVersion
  generation := generation
  deleted := deleted
  nonce := nonce.1
  ciphertext := sealing.encrypt nonce.1
    (envelopeAad aad sealedRecordFormatVersion generation deleted) plaintext

def replaceAuthoritatively (current : RecordRevision D) (envelope : SealedRecordEnvelope) :
    Prog (RecordDisk D) SealedError Unit :=
  let bytes := sealing.render envelope
  match sealing.parse bytes with
  | none => Prog.fail .inspect
  | some parsed => do
    let next := sealing.revision (some bytes) parsed.generation parsed.deleted
    prepare current next
    Prog.write fun disk => { disk with record := some bytes }
    commit next

/-- What `save_record` and `delete_record` share. -/
def replaceRecord (deleted : Bool) (nonce : RecordNonce) (plaintext : Str) :
    Prog (RecordDisk D) SealedError Unit := do
  let current ← sealing.currentRevision
  if u64Max ≤ current.generation then Prog.fail .exhausted
  else
    sealing.replaceAuthoritatively current
      (sealing.sealEnvelope aad (current.generation + 1) deleted nonce plaintext)

def saveRecord (value : T) (nonce : RecordNonce) : Prog (RecordDisk D) SealedError Unit :=
  sealing.replaceRecord aad false nonce (sealing.encode value)

def deleteRecord (nonce : RecordNonce) : Prog (RecordDisk D) SealedError Unit :=
  sealing.replaceRecord aad true nonce []

/-- The closure sees the record, and answers an error or what to do. -/
def updateRecord (update : Option T → Option (SealedRecordChange T)) (nonce : RecordNonce) :
    Prog (RecordDisk D) SealedError Unit := do
  let current ← sealing.loadRecord aad
  match update current with
  | none => Prog.fail .update
  | some .keep => return ()
  | some (.replace value) => sealing.saveRecord aad value nonce

end Sealing

end Mere.Personae
