import Mere.Base.Run
import Mere.Personae.SealedRecords

/-!
# Records that cannot be rolled back

A stopped access leaves one of five: the disk as it was, or with the pending revision settled, or
with the next one prepared, written, or taken over.
-/

namespace Mere.Personae

open Prog List Option

variable {T D : Type} {revision : RecordRevision D}

/-! ## Settling -/

def RecordDisk.settle (disk : RecordDisk D) (revision : RecordRevision D) : RecordDisk D :=
  { disk with ledger := some ⟨revision, none⟩ }

/-- The revision is the current one or the one that was prepared. -/
def LedgerEntry.Matches (entry : LedgerEntry D) (revision : RecordRevision D) : Prop :=
  revision = entry.current ∨ entry.pending = some revision

/-- The program answers `a`, and at most settles the ledger on that revision. -/
def SettlesTo {A : Type} (p : Prog (RecordDisk D) SealedError A) (disk : RecordDisk D)
    (revision : RecordRevision D) (a : A) : Prop :=
  ∃ written, p disk = (written, .ok a) ∧ written.headD disk = disk.settle revision ∧
    ∀ s ∈ written, s = disk.settle revision

/-- The program refuses, and writes nothing. -/
def Refuses {A : Type} (p : Prog (RecordDisk D) SealedError A) (disk : RecordDisk D) : Prop :=
  ∃ error, p disk = ([], .error error)

theorem SettlesTo.answer {A : Type} {p : Prog (RecordDisk D) SealedError A} {disk : RecordDisk D}
    {a : A} (h : SettlesTo p disk revision a) :
    p.answer disk = .ok a := by
  obtain ⟨written, hrun, -⟩ := h
  exact answer_eq hrun

theorem SettlesTo.final {A : Type} {p : Prog (RecordDisk D) SealedError A} {disk : RecordDisk D}
    {a : A} (h : SettlesTo p disk revision a) :
    p.final disk = disk.settle revision := by
  obtain ⟨written, hrun, hhead, -⟩ := h
  exact (final_eq hrun).trans hhead

section Reconcile

variable [DecidableEq D] {disk : RecordDisk D} {entry : LedgerEntry D}
  {observed : RecordRevision D} {began : Bool}

theorem reconcile_settles (hledger : disk.ledger = some entry) (h : entry.Matches observed) :
    SettlesTo (reconcile observed began) disk observed observed := by
  obtain ⟨record, ledger⟩ := disk
  obtain ⟨current, pending⟩ := entry
  cases hledger
  unfold SettlesTo reconcile
  rw [read_bind]
  cases pending with
  | none =>
    have hcurrent : observed = current := by
      rcases h with h | h
      · exact h
      · cases h
    subst hcurrent
    refine ⟨[], ?_, rfl, nofun⟩
    simp only
    rfl
  | some pending =>
    refine ⟨[RecordDisk.settle ⟨record, some ⟨current, some pending⟩⟩ observed], ?_, rfl,
      fun s hs => mem_singleton.mp hs⟩
    simp only
    by_cases hpending : observed = pending
    · subst hpending
      rw [if_pos rfl]
      rfl
    · have hcurrent : observed = current := by
        rcases h with h | h
        · exact h
        · exact absurd (some.inj h).symm hpending
      subst hcurrent
      rw [if_neg hpending, if_pos rfl]
      rfl

theorem reconcile_refuses (hledger : disk.ledger = some entry) (h : ¬ entry.Matches observed) :
    Refuses (reconcile observed began) disk := by
  obtain ⟨record, ledger⟩ := disk
  obtain ⟨current, pending⟩ := entry
  cases hledger
  unfold Refuses reconcile
  rw [read_bind]
  have hcurrent : observed ≠ current := fun heq => h (.inl heq)
  cases pending with
  | none =>
    simp only
    rw [if_neg hcurrent]
    exact ⟨_, rfl⟩
  | some pending =>
    have hpending : observed ≠ pending := fun heq => h (.inr (congrArg some heq.symm))
    simp only
    rw [if_neg hpending, if_neg hcurrent]
    exact ⟨_, rfl⟩

end Reconcile

/-! ## Where an access can be stopped -/

section Access

variable (sealing : Sealing T D) (aad : Str)

/-- A write finds this revision in the file, and the ledger knows it. -/
def Settles (disk : RecordDisk D) (observed : RecordRevision D) : Prop :=
  ∃ began entry, sealing.observe disk.record = .ok (observed, began) ∧
    disk.ledger = some entry ∧ entry.Matches observed

/-- The disk that an access has left which attempts a write of that value, or none. -/
inductive Left (disk : RecordDisk D) (attempt : Option (Option T)) : RecordDisk D → Prop
  | untouched : Left disk attempt disk
  | settled {observed : RecordRevision D} (hobserved : Settles sealing disk observed) :
      Left disk attempt (disk.settle observed)
  | prepared {observed next : RecordRevision D} {bytes : Str} {value : Option T}
      (hobserved : Settles sealing disk observed)
      (hsealed : sealing.inspect aad (some bytes) = .ok (next, false, value))
      (hattempt : attempt = some value) :
      Left disk attempt ⟨disk.record, some ⟨observed, some next⟩⟩
  | written {observed next : RecordRevision D} {bytes : Str} {value : Option T}
      (hobserved : Settles sealing disk observed)
      (hsealed : sealing.inspect aad (some bytes) = .ok (next, false, value))
      (hattempt : attempt = some value) :
      Left disk attempt ⟨some bytes, some ⟨observed, some next⟩⟩
  | committed {next : RecordRevision D} {bytes : Str} {value : Option T}
      (hsealed : sealing.inspect aad (some bytes) = .ok (next, false, value))
      (hattempt : attempt = some value) :
      Left disk attempt ⟨some bytes, some ⟨next, none⟩⟩

/-- The disk after a write that went through. -/
def Committed (value : Option T) (disk : RecordDisk D) : Prop :=
  ∃ bytes next, sealing.inspect aad (some bytes) = .ok (next, false, value) ∧
    disk = ⟨some bytes, some ⟨next, none⟩⟩

/-- What an access does to a disk, stopped or not. -/
structure Effect {A : Type} (p : Prog (RecordDisk D) SealedError A) (disk : RecordDisk D)
    (attempt : Option (Option T)) : Prop where
  stops : ∀ s' ∈ p.stops disk, Left sealing aad disk attempt s'
  error : ∀ e, p.answer disk = .error e → Left sealing aad disk none (p.final disk)
  kept : attempt = none → Left sealing aad disk none (p.final disk)
  done : ∀ a value, p.answer disk = .ok a → attempt = some value →
    Committed sealing aad value (p.final disk)

variable {sealing aad} {disk : RecordDisk D} {observed : RecordRevision D}

theorem Sealing.inspect_ok {record : Option Str} {began : Bool}
    {value : Option T} (h : sealing.inspect aad record = .ok (observed, began, value)) :
    sealing.observe record = .ok (observed, began) ∧ observed.digest = sealing.digest record := by
  cases record with
  | none =>
    cases h
    exact ⟨rfl, rfl⟩
  | some bytes =>
    rw [inspect] at h
    rw [observe]
    cases hparse : sealing.parse bytes with
    | none => rw [hparse] at h; cases h
    | some envelope =>
      rw [hparse] at h
      simp only at h ⊢
      split at h
      · cases h
      rename_i hsupported
      rw [if_neg hsupported]
      cases hunseal : sealing.openEnvelope aad envelope with
      | error error => rw [hunseal] at h; cases h
      | ok found =>
        rw [hunseal] at h
        cases h
        exact ⟨rfl, rfl⟩

theorem Sealing.openEnvelope_eq {envelope : SealedRecordEnvelope} {plaintext : Str}
    (hnonce : envelope.nonce.length = nonceLen)
    (hdecrypt : sealing.decrypt envelope.nonce (envelopeAad aad envelope.version
      (boundGeneration envelope) envelope.deleted) envelope.ciphertext = some plaintext) :
    sealing.openEnvelope aad envelope = sealing.decodePlaintext envelope.deleted plaintext := by
  unfold openEnvelope
  rw [if_neg (not_not.mpr hnonce), hdecrypt]

theorem Sealing.Lawful.inspect_seal (hlawful : sealing.Lawful) {generation : Nat}
    {nonce : RecordNonce} {deleted : Bool} {plaintext : Str} {value : Option T}
    (hvalue : sealing.decodePlaintext deleted plaintext = .ok value) :
    sealing.inspect aad
        (some (sealing.render (sealing.sealEnvelope aad generation deleted nonce plaintext))) =
      .ok (sealing.revision
        (some (sealing.render (sealing.sealEnvelope aad generation deleted nonce plaintext)))
        generation deleted, false, value) := by
  have hopen : sealing.openEnvelope aad
      (sealing.sealEnvelope aad generation deleted nonce plaintext) = .ok value :=
    (openEnvelope_eq nonce.2 (hlawful.decrypt_encrypt _ _ _)).trans hvalue
  rw [inspect, hlawful.parse_render]
  simp only
  rw [hopen]
  rfl

/-! ## What each access does -/

variable [DecidableEq D] {entry : LedgerEntry D}

theorem loadRecord_settles {began : Bool} {value : Option T}
    (hinspect : sealing.inspect aad disk.record = .ok (observed, began, value))
    (hledger : disk.ledger = some entry) (hmatch : entry.Matches observed) :
    SettlesTo (sealing.loadRecord aad) disk observed value := by
  obtain ⟨written, hrun, hhead, hall⟩ :=
    @reconcile_settles D _ disk entry observed began hledger hmatch
  refine ⟨written, ?_, hhead, hall⟩
  unfold Sealing.loadRecord
  rw [read_bind, hinspect]
  simp only
  rw [bind_apply hrun]
  rfl

theorem currentRevision_settles {began : Bool}
    (hobserve : sealing.observe disk.record = .ok (observed, began))
    (hledger : disk.ledger = some entry) (hmatch : entry.Matches observed) :
    SettlesTo sealing.currentRevision disk observed observed := by
  unfold Sealing.currentRevision SettlesTo
  rw [read_bind, hobserve]
  exact reconcile_settles hledger hmatch

theorem loadRecord_cases (hledger : disk.ledger = some entry) :
    Refuses (sealing.loadRecord aad) disk ∨
      ∃ observed began value, sealing.inspect aad disk.record = .ok (observed, began, value) ∧
        entry.Matches observed ∧ SettlesTo (sealing.loadRecord aad) disk observed value := by
  cases hinspect : sealing.inspect aad disk.record with
  | error error =>
    refine .inl ⟨error, ?_⟩
    rw [Sealing.loadRecord, read_bind, hinspect]
    rfl
  | ok found =>
    obtain ⟨observed, began, value⟩ := found
    by_cases hmatch : entry.Matches observed
    · exact .inr ⟨observed, began, value, rfl, hmatch,
        loadRecord_settles hinspect hledger hmatch⟩
    · obtain ⟨error, hrun⟩ := @reconcile_refuses D _ disk entry observed began hledger hmatch
      refine .inl ⟨error, ?_⟩
      rw [Sealing.loadRecord, read_bind, hinspect]
      exact bind_apply_error hrun

theorem currentRevision_cases (hledger : disk.ledger = some entry) :
    Refuses sealing.currentRevision disk ∨
      ∃ observed, Settles sealing disk observed ∧
        SettlesTo sealing.currentRevision disk observed observed := by
  cases hobserve : sealing.observe disk.record with
  | error error =>
    refine .inl ⟨error, ?_⟩
    rw [Sealing.currentRevision, read_bind, hobserve]
    rfl
  | ok found =>
    obtain ⟨observed, began⟩ := found
    by_cases hmatch : entry.Matches observed
    · exact .inr ⟨observed, ⟨began, entry, hobserve, hledger, hmatch⟩,
        currentRevision_settles hobserve hledger hmatch⟩
    · unfold Sealing.currentRevision Refuses
      rw [read_bind, hobserve]
      exact .inl (reconcile_refuses hledger hmatch)

theorem replaceAuthoritatively_eq (hlawful : sealing.Lawful) {current : RecordRevision D}
    {envelope : SealedRecordEnvelope} {record : Option Str}
    (hgeneration : envelope.generation = current.generation + 1)
    (hroom : current.generation < u64Max) :
    let bytes := sealing.render envelope
    let next := sealing.revision (some bytes) envelope.generation envelope.deleted
    sealing.replaceAuthoritatively current envelope ⟨record, some ⟨current, none⟩⟩ =
      ([⟨some bytes, some ⟨next, none⟩⟩, ⟨some bytes, some ⟨current, some next⟩⟩,
        ⟨record, some ⟨current, some next⟩⟩], .ok ()) := by
  intro bytes next
  have hprepare : prepare current next ⟨record, some ⟨current, none⟩⟩ =
      ([⟨record, some ⟨current, some next⟩⟩], .ok ()) := by
    have hconsecutive : next.generation = satAdd current.generation 1 := by
      rw [satAdd_eq _ _ hroom]
      exact hgeneration
    unfold prepare
    rw [if_neg (not_not.mpr hconsecutive), read_bind]
    simp only
    rw [if_neg (by simp)]
    rfl
  have hcommit : commit next ⟨some bytes, some ⟨current, some next⟩⟩ =
      ([⟨some bytes, some ⟨next, none⟩⟩], .ok ()) := by
    unfold commit
    rw [read_bind]
    simp only
    rw [if_neg (by simp)]
    rfl
  unfold Sealing.replaceAuthoritatively
  rw [hlawful.parse_render]
  simp only
  rw [bind_apply hprepare]
  have hwrite : (Prog.write (E := SealedError)
      fun disk : RecordDisk D => { disk with record := some bytes })
      ⟨record, some ⟨current, some next⟩⟩ = ([⟨some bytes, some ⟨current, some next⟩⟩], .ok ()) :=
    rfl
  simp only [headD_cons]
  rw [bind_apply hwrite]
  simp only [headD_cons]
  rw [hcommit]
  rfl

section Effects

variable {A : Type} {p : Prog (RecordDisk D) SealedError A} {attempt : Option (Option T)}

omit [DecidableEq D] in
theorem Refuses.effect (h : Refuses p disk) : Effect sealing aad p disk attempt := by
  obtain ⟨error, hrun⟩ := h
  have hleft : Left sealing aad disk none (p.final disk) := by
    rw [final_eq hrun]
    exact .untouched
  refine ⟨fun s' hs' => ?_, fun e _ => hleft, fun _ => hleft, fun a value ha => ?_⟩
  · rw [stops_eq hrun] at hs'
    cases mem_singleton.mp hs'
    exact .untouched
  · rw [answer_eq hrun] at ha
    cases ha

omit [DecidableEq D] in
theorem SettlesTo.effect {a : A} (h : SettlesTo p disk observed a)
    (hsettles : Settles sealing disk observed) : Effect sealing aad p disk none := by
  refine ⟨fun s' hs' => ?_, fun e _ => h.final ▸ .settled hsettles,
    fun _ => h.final ▸ .settled hsettles, fun _ _ _ hattempt => nomatch hattempt⟩
  obtain ⟨written, hrun, -, hall⟩ := h
  rw [stops_eq hrun] at hs'
  rcases mem_append.mp hs' with hs' | hs'
  · exact hall s' hs' ▸ .settled hsettles
  · cases mem_singleton.mp hs'
    exact .untouched

end Effects

theorem loadRecord_effect (hledger : disk.ledger = some entry) :
    Effect sealing aad (sealing.loadRecord aad) disk none := by
  rcases loadRecord_cases hledger with hrefuses | ⟨observed, began, value, hinspect, hmatch, hrun⟩
  · exact hrefuses.effect
  · exact hrun.effect ⟨began, entry, (Sealing.inspect_ok hinspect).1, hledger, hmatch⟩

theorem replaceRecord_effect (hlawful : sealing.Lawful) (hledger : disk.ledger = some entry)
    {deleted : Bool} {nonce : RecordNonce} {plaintext : Str} {value : Option T}
    (hvalue : sealing.decodePlaintext deleted plaintext = .ok value) :
    Effect sealing aad (sealing.replaceRecord aad deleted nonce plaintext) disk (some value) := by
  rcases @currentRevision_cases T D sealing disk _ entry hledger with ⟨error, hrun⟩ |
    ⟨observed, hsettles, written, hrun, hhead, hall⟩
  · exact Refuses.effect ⟨error, bind_apply_error hrun⟩
  have hstep : sealing.replaceRecord aad deleted nonce plaintext disk = _ := bind_apply hrun
  rw [hhead] at hstep
  have hwritten : ∀ s' ∈ written ++ [disk], Left sealing aad disk (some value) s' := by
    intro s' hs'
    rcases mem_append.mp hs' with hs' | hs'
    · exact hall s' hs' ▸ .settled hsettles
    · cases mem_singleton.mp hs'
      exact .untouched
  by_cases hroom : u64Max ≤ observed.generation
  · -- The ledger may have been settled; nothing else is done.
    rw [if_pos hroom] at hstep
    have hfinal : (sealing.replaceRecord aad deleted nonce plaintext).final disk =
        disk.settle observed := (final_eq hstep).trans hhead
    refine ⟨fun s' hs' => ?_, fun e _ => hfinal ▸ .settled hsettles,
      fun hnone => (nomatch hnone), fun a value' ha => ?_⟩
    · rw [stops_eq hstep] at hs'
      exact hwritten s' hs'
    · rw [answer_eq hstep] at ha
      cases ha
  · rw [if_neg hroom] at hstep
    have hsealed := @Sealing.Lawful.inspect_seal T D sealing aad hlawful
      (observed.generation + 1) nonce deleted plaintext value hvalue
    have hreplace := @replaceAuthoritatively_eq T D sealing _ hlawful observed
      (sealing.sealEnvelope aad (observed.generation + 1) deleted nonce plaintext) disk.record rfl
      (Nat.lt_of_not_le hroom)
    change _ = ((sealing.replaceAuthoritatively observed _
      ⟨disk.record, some ⟨observed, none⟩⟩).1 ++ written,
      (sealing.replaceAuthoritatively observed _ ⟨disk.record, some ⟨observed, none⟩⟩).2) at hstep
    rw [hreplace] at hstep
    refine ⟨fun s' hs' => ?_, fun e he => ?_, fun hnone => (nomatch hnone),
      fun a value' _ hvalue' => ?_⟩
    · rw [stops_eq hstep, append_assoc] at hs'
      rcases mem_append.mp hs' with hs' | hs'
      · rcases mem_cons.mp hs' with rfl | hs'
        · exact .committed hsealed rfl
        rcases mem_cons.mp hs' with rfl | hs'
        · exact .written hsettles hsealed rfl
        · cases mem_singleton.mp hs'
          exact .prepared hsettles hsealed rfl
      · exact hwritten s' hs'
    · rw [answer_eq hstep] at he
      cases he
    · cases hvalue'
      exact ⟨_, _, hsealed, final_eq hstep⟩

variable {attempt : Option (Option T)}

omit [DecidableEq D] in
theorem Left.after_settle {s' : RecordDisk D} (hsettles : Settles sealing disk observed)
    (h : Left sealing aad (disk.settle observed) attempt s') :
    Left sealing aad disk attempt s' := by
  have hsame : ∀ observed', Settles sealing (disk.settle observed) observed' →
      observed' = observed := by
    rintro observed' ⟨began', entry', hobserve', -⟩
    obtain ⟨began, entry, hobserve, -⟩ := hsettles
    change sealing.observe disk.record = _ at hobserve'
    rw [hobserve] at hobserve'
    cases hobserve'
    rfl
  cases h with
  | untouched => exact .settled hsettles
  | settled hobserved =>
    cases hsame _ hobserved
    exact .settled hsettles
  | prepared hobserved hsealed hattempt =>
    cases hsame _ hobserved
    exact .prepared hsettles hsealed hattempt
  | written hobserved hsealed hattempt =>
    cases hsame _ hobserved
    exact .written hsettles hsealed hattempt
  | committed hsealed hattempt => exact .committed hsealed hattempt

def updateAttempt (update : Option T → Option (SealedRecordChange T)) :
    Except SealedError (Option T) → Option (Option T)
  | .error _ => none
  | .ok current =>
    match update current with
    | some (.replace value) => some (some value)
    | _ => none

theorem saveRecord_effect (hlawful : sealing.Lawful) (hledger : disk.ledger = some entry)
    (value : T) (nonce : RecordNonce) :
    Effect sealing aad (sealing.saveRecord aad value nonce) disk (some (some value)) := by
  refine replaceRecord_effect hlawful hledger ?_
  unfold Sealing.decodePlaintext
  rw [hlawful.decode_encode]
  rfl

theorem deleteRecord_effect (hlawful : sealing.Lawful) (hledger : disk.ledger = some entry)
    (nonce : RecordNonce) :
    Effect sealing aad (sealing.deleteRecord aad nonce) disk (some none) :=
  replaceRecord_effect hlawful hledger rfl

theorem updateRecord_effect (hlawful : sealing.Lawful) (hledger : disk.ledger = some entry)
    (update : Option T → Option (SealedRecordChange T)) (nonce : RecordNonce) :
    Effect sealing aad (sealing.updateRecord aad update nonce) disk
      (updateAttempt update ((sealing.loadRecord aad).answer disk)) := by
  rcases @loadRecord_cases T D sealing aad disk _ entry hledger with ⟨error, hrun⟩ |
    ⟨observed, began, current, hinspect, hmatch, hrun⟩
  · exact Refuses.effect ⟨error, bind_apply_error hrun⟩
  have hsettles : Settles sealing disk observed :=
    ⟨began, entry, (Sealing.inspect_ok hinspect).1, hledger, hmatch⟩
  have hload := @SettlesTo.effect T D sealing aad disk _ _ _ _ hrun hsettles
  have hanswer := hrun.answer
  have hfinal := hrun.final
  rw [hanswer]
  -- The rest of the update begins on the settled disk, and what it does there counts here.
  have hrest : ∀ {q : Option T → Prog (RecordDisk D) SealedError Unit} {attempt},
      Effect sealing aad (q current) (disk.settle observed) attempt →
      Effect sealing aad (sealing.loadRecord aad >>= q) disk attempt := by
    intro q attempt hq
    have hbind : (sealing.loadRecord aad >>= q).final disk =
        (q current).final (disk.settle observed) := by
      rw [final_bind_ok hanswer, hfinal]
    have hbind' : (sealing.loadRecord aad >>= q).answer disk =
        (q current).answer (disk.settle observed) := by
      rw [answer_bind_ok hanswer, hfinal]
    refine ⟨fun s' hs' => ?_, fun e he => ?_, fun hnone => ?_, fun a value ha hvalue => ?_⟩
    · rcases mem_stops_bind.mp hs' with hs' | ⟨a, ha, hs'⟩
      · cases hload.stops s' hs' with
        | untouched => exact .untouched
        | settled hobserved => exact .settled hobserved
        | prepared _ _ hattempt | written _ _ hattempt | committed _ hattempt => cases hattempt
      · rw [hanswer] at ha
        cases ha
        rw [hfinal] at hs'
        exact (hq.stops s' hs').after_settle hsettles
    · rw [hbind]
      exact (hq.error e (hbind' ▸ he)).after_settle hsettles
    · rw [hbind]
      exact (hq.kept hnone).after_settle hsettles
    · rw [hbind]
      exact hq.done a value (hbind' ▸ ha) hvalue
  refine hrest ?_
  cases hupdate : update current with
  | none => exact Refuses.effect ⟨.update, rfl⟩
  | some change =>
    cases change with
    | keep =>
      have hattempt : updateAttempt update (.ok current) = none := by
        rw [updateAttempt, hupdate]
      rw [hattempt]
      refine ⟨fun s' hs' => ?_, nofun, fun _ => .untouched, fun _ _ _ hnone => nomatch hnone⟩
      cases mem_singleton.mp hs'
      exact .untouched
    | replace value =>
      have hattempt : updateAttempt update (.ok current) = some (some value) := by
        rw [updateAttempt, hupdate]
      have hsettled : (disk.settle observed).ledger = some ⟨observed, none⟩ := rfl
      rw [hattempt]
      exact saveRecord_effect hlawful hsettled value nonce

end Access

/-! ## Runs -/

inductive RecordOp (T : Type) where
  | load
  | save (value : T) (nonce : RecordNonce)
  | update (revise : Option T → Option (SealedRecordChange T)) (nonce : RecordNonce)
  | delete (nonce : RecordNonce)

section Runs

variable [DecidableEq D] (sealing : Sealing T D) (aad : Str)

def RecordOp.prog : RecordOp T → Prog (RecordDisk D) SealedError Unit
  | .load => do
    let _ ← sealing.loadRecord aad
    return ()
  | .save value nonce => sealing.saveRecord aad value nonce
  | .update revise nonce => sealing.updateRecord aad revise nonce
  | .delete nonce => sealing.deleteRecord aad nonce

def RecordOp.attempt (disk : RecordDisk D) : RecordOp T → Option (Option T)
  | .load => none
  | .save value _ => some (some value)
  | .update revise _ => updateAttempt revise ((sealing.loadRecord aad).answer disk)
  | .delete _ => some none

/-- A disk, the value of the last write that returned, and those of the writes that were interrupted
since. -/
structure TrackedRecord (T D : Type) where
  disk : RecordDisk D
  settled : Option T
  later : List (Option T) := []

inductive RecordEvent (T : Type) where
  | run (op : RecordOp T)
  /-- The operation is stopped in one of its states, and nothing returns. -/
  | crash (op : RecordOp T) (k : Nat)
  /-- The file is replaced by anything, or removed. -/
  | tamper (record : Option Str)

/-- An operation that returns `Ok` settles what it attempted to write. -/
def returned (answer : Except SealedError Unit) (attempt : Option (Option T))
    (s : TrackedRecord T D) (disk : RecordDisk D) : TrackedRecord T D :=
  match answer, attempt with
  | .ok (), some value => ⟨disk, value, []⟩
  | _, _ => { s with disk }

variable (s : TrackedRecord T D)

def TrackedRecord.step : RecordEvent T → Option (TrackedRecord T D)
  | .run op =>
    some (returned ((op.prog sealing aad).answer s.disk) (op.attempt sealing aad s.disk) s
      ((op.prog sealing aad).final s.disk))
  | .crash op k =>
    ((op.prog sealing aad).stops s.disk)[k]?.map fun disk =>
      ⟨disk, s.settled, (op.attempt sealing aad s.disk).toList ++ s.later⟩
  | .tamper record => some { s with disk := { s.disk with record } }

def RecordEvent.honest : RecordEvent T → Bool
  | .tamper _ => false
  | _ => true

/-- A disk whose ledger knows the record that is there, and no other. -/
def Established (disk : RecordDisk D) (value : Option T) : Prop :=
  (∃ current, disk.ledger = some ⟨current, none⟩) ∧ (sealing.loadRecord aad).answer disk = .ok value

variable {sealing aad} {disk : RecordDisk D} {entry : LedgerEntry D} {value : Option T}

theorem RecordOp.effect (hlawful : sealing.Lawful) (hledger : disk.ledger = some entry)
    (op : RecordOp T) :
    Effect sealing aad (op.prog sealing aad) disk (op.attempt sealing aad disk) := by
  cases op with
  | save value nonce => exact saveRecord_effect hlawful hledger value nonce
  | update revise nonce => exact updateRecord_effect hlawful hledger revise nonce
  | delete nonce => exact deleteRecord_effect hlawful hledger nonce
  | load =>
    have hload := @loadRecord_effect T D sealing aad disk _ entry hledger
    have hstops : ∀ s' ∈ (RecordOp.prog sealing aad .load).stops disk,
        Left sealing aad disk none s' := by
      intro s' hs'
      rcases mem_stops_bind.mp hs' with hs' | ⟨a, ha, hs'⟩
      · exact hload.stops s' hs'
      · cases mem_singleton.mp hs'
        exact hload.stops _ final_mem_stops
    exact ⟨hstops, fun _ _ => hstops _ final_mem_stops, fun _ => hstops _ final_mem_stops,
      fun _ _ _ hnone => nomatch hnone⟩

/-! ## No load answers an older value -/

/-- The revision is of a value that may be answered. -/
def Known (sealing : Sealing T D) (aad : Str) (values : List (Option T))
    (revision : RecordRevision D) : Prop :=
  ∃ record began value, sealing.inspect aad record = .ok (revision, began, value) ∧ value ∈ values

def Fresh (sealing : Sealing T D) (aad : Str) (values : List (Option T)) (disk : RecordDisk D) :
    Prop :=
  ∃ entry, disk.ledger = some entry ∧
    ∀ revision, entry.Matches revision → Known sealing aad values revision

omit [DecidableEq D] in
theorem Known.mono {values values' : List (Option T)}
    (h : Known sealing aad values revision) (hsub : values ⊆ values') :
    Known sealing aad values' revision := by
  obtain ⟨record, began, value, hinspect, hmem⟩ := h
  exact ⟨record, began, value, hinspect, hsub hmem⟩

omit [DecidableEq D] in
theorem Fresh.left {values : List (Option T)} {s' : RecordDisk D}
    (h : Fresh sealing aad values disk) (hleft : Left sealing aad disk attempt s') :
    Fresh sealing aad (attempt.toList ++ values) s' := by
  obtain ⟨entry, hledger, hknown⟩ := h
  have hold : ∀ revision, entry.Matches revision →
      Known sealing aad (attempt.toList ++ values) revision :=
    fun revision hmatch => (hknown revision hmatch).mono (subset_append_right _ _)
  have hsettled : ∀ observed, Settles sealing disk observed →
      Known sealing aad (attempt.toList ++ values) observed := by
    rintro observed ⟨began, entry', -, hledger', hmatch⟩
    rw [hledger] at hledger'
    cases hledger'
    exact hold observed hmatch
  have hnext : ∀ {next : RecordRevision D} {bytes : Str} {value : Option T},
      sealing.inspect aad (some bytes) = .ok (next, false, value) → attempt = some value →
      Known sealing aad (attempt.toList ++ values) next := by
    intro next bytes value hsealed hattempt
    refine ⟨_, _, value, hsealed, mem_append_left _ ?_⟩
    rw [hattempt]
    exact mem_singleton_self value
  cases hleft with
  | untouched => exact ⟨entry, hledger, hold⟩
  | settled hobserved =>
    refine ⟨_, rfl, fun revision hmatch => ?_⟩
    rcases hmatch with rfl | hmatch
    · exact hsettled _ hobserved
    · cases hmatch
  | prepared hobserved hsealed hattempt | written hobserved hsealed hattempt =>
    refine ⟨_, rfl, fun revision hmatch => ?_⟩
    rcases hmatch with rfl | hmatch
    · exact hsettled _ hobserved
    · cases hmatch
      exact hnext hsealed hattempt
  | committed hsealed hattempt =>
    refine ⟨_, rfl, fun revision hmatch => ?_⟩
    rcases hmatch with rfl | hmatch
    · exact hnext hsealed hattempt
    · cases hmatch

omit [DecidableEq D] in
theorem Committed.fresh (h : Committed sealing aad value disk) :
    Fresh sealing aad [value] disk := by
  obtain ⟨bytes, next, hsealed, rfl⟩ := h
  refine ⟨_, rfl, fun revision hmatch => ?_⟩
  rcases hmatch with rfl | hmatch
  · exact ⟨_, _, value, hsealed, mem_singleton_self value⟩
  · cases hmatch

/-- The ledger knows the record that is there, which holds this value. -/
def Whole (sealing : Sealing T D) (aad : Str) (disk : RecordDisk D) (value : Option T) : Prop :=
  ∃ revision began entry, sealing.inspect aad disk.record = .ok (revision, began, value) ∧
    disk.ledger = some entry ∧ entry.Matches revision

theorem Whole.load (h : Whole sealing aad disk value) :
    (sealing.loadRecord aad).answer disk = .ok value := by
  obtain ⟨revision, began, entry, hinspect, hledger, hmatch⟩ := h
  exact (loadRecord_settles hinspect hledger hmatch).answer

theorem Whole.of_load (hledger : disk.ledger = some entry)
    (h : (sealing.loadRecord aad).answer disk = .ok value) : Whole sealing aad disk value := by
  rcases @loadRecord_cases T D sealing aad disk _ entry hledger with ⟨error, hrun⟩ |
    ⟨observed, began, found, hinspect, hmatch, hrun⟩
  · rw [answer_eq hrun] at h
    cases h
  · rw [hrun.answer] at h
    cases h
    exact ⟨observed, began, entry, hinspect, hledger, hmatch⟩

theorem Fresh.load (hlawful : sealing.Lawful) {values : List (Option T)}
    (h : Fresh sealing aad values disk) (hload : (sealing.loadRecord aad).answer disk = .ok value) :
    value ∈ values := by
  obtain ⟨entry, hledger, hknown⟩ := h
  obtain ⟨observed, began, entry', hinspect, hledger', hmatch⟩ := Whole.of_load hledger hload
  rw [hledger] at hledger'
  cases hledger'
  obtain ⟨record, began', value', hinspect', hmem⟩ := hknown observed hmatch
  have hdigest := (Sealing.inspect_ok hinspect).2.symm.trans (Sealing.inspect_ok hinspect').2
  rw [hlawful.digest_injective hdigest, hinspect'] at hinspect
  cases hinspect
  exact hmem

def TrackedRecord.values : List (Option T) := s.settled :: s.later

theorem TrackedRecord.fresh_step (hlawful : sealing.Lawful) {s s' : TrackedRecord T D}
    {event : RecordEvent T} (h : Fresh sealing aad s.values s.disk)
    (hstep : s.step sealing aad event = some s') : Fresh sealing aad s'.values s'.disk := by
  obtain ⟨entry, hledger, -⟩ := id h
  cases event with
  | tamper record =>
    cases hstep
    exact h
  | crash op k =>
    obtain ⟨disk, hdisk, rfl⟩ := map_eq_some_iff.mp hstep
    have hleft := (op.effect hlawful hledger).stops disk (mem_of_getElem? hdisk)
    obtain ⟨entry', hledger', hknown⟩ := h.left hleft
    refine ⟨entry', hledger', fun revision hmatch => (hknown revision hmatch).mono ?_⟩
    intro value hvalue
    simp only [TrackedRecord.values, mem_append, mem_cons] at hvalue ⊢
    tauto
  | run op =>
    cases hstep
    have heffect := @RecordOp.effect T D _ sealing aad s.disk entry hlawful hledger op
    unfold returned
    split
    · rename_i value hok hattempt
      exact (heffect.done _ value hok hattempt).fresh
    · rename_i hnot
      cases hok : (op.prog sealing aad).answer s.disk with
      | error e => exact h.left (heffect.error e hok)
      | ok u =>
        cases hattempt : op.attempt sealing aad s.disk with
        | none => exact h.left (heffect.kept hattempt)
        | some value => exact absurd hattempt (hnot value hok)

/-! ## Without tampering -/

omit [DecidableEq D] in
/-- Wherever an access is stopped, the record is whole: with the value before, or the one that was
to be written. -/
theorem Whole.left {before : Option T} {s' : RecordDisk D}
    (h : Whole sealing aad disk before) (hleft : Left sealing aad disk attempt s') :
    ∃ value, Whole sealing aad s' value ∧ (value = before ∨ attempt = some value) := by
  obtain ⟨revision, began, entry, hinspect, hledger, hmatch⟩ := h
  have hsame : ∀ observed, Settles sealing disk observed → observed = revision := by
    rintro observed ⟨began', entry', hobserve, -⟩
    rw [(Sealing.inspect_ok hinspect).1] at hobserve
    cases hobserve
    rfl
  cases hleft with
  | untouched => exact ⟨before, ⟨revision, began, entry, hinspect, hledger, hmatch⟩, .inl rfl⟩
  | settled hobserved | prepared hobserved hsealed hattempt =>
    cases hsame _ hobserved
    exact ⟨before, ⟨revision, began, _, hinspect, rfl, .inl rfl⟩, .inl rfl⟩
  | written hobserved hsealed hattempt =>
    exact ⟨_, ⟨_, _, _, hsealed, rfl, .inr rfl⟩, .inr hattempt⟩
  | committed hsealed hattempt =>
    exact ⟨_, ⟨_, _, _, hsealed, rfl, .inl rfl⟩, .inr hattempt⟩

theorem Whole.save (hlawful : sealing.Lawful) (h : Whole sealing aad disk value) :
    ∃ revision began, sealing.observe disk.record = .ok (revision, began) ∧
      sealing.currentRevision.answer disk = .ok revision ∧
      ∀ value nonce, (sealing.saveRecord aad value nonce).answer disk =
        if u64Max ≤ revision.generation then .error .exhausted else .ok () := by
  obtain ⟨revision, began, entry, hinspect, hledger, hmatch⟩ := h
  have hobserve := (Sealing.inspect_ok hinspect).1
  have hrun := currentRevision_settles hobserve hledger hmatch
  refine ⟨revision, began, hobserve, hrun.answer, fun value nonce => ?_⟩
  unfold Sealing.saveRecord Sealing.replaceRecord
  rw [answer_bind_ok hrun.answer, hrun.final]
  by_cases hroom : u64Max ≤ revision.generation
  · rw [if_pos hroom, if_pos hroom]
    rfl
  · rw [if_neg hroom, if_neg hroom]
    have hreplace := @replaceAuthoritatively_eq T D sealing _ hlawful revision
      (sealing.sealEnvelope aad (revision.generation + 1) false nonce (sealing.encode value))
      disk.record rfl (Nat.lt_of_not_le hroom)
    change (sealing.replaceAuthoritatively revision _ ⟨disk.record, some ⟨revision, none⟩⟩).2 = _
    rw [hreplace]

theorem TrackedRecord.whole_step (hlawful : sealing.Lawful) {s s' : TrackedRecord T D}
    {event : RecordEvent T} (h : Whole sealing aad s.disk value)
    (hhonest : event.honest = true) (hstep : s.step sealing aad event = some s') :
    ∃ value', Whole sealing aad s'.disk value' := by
  obtain ⟨-, -, entry, -, hledger, -⟩ := id h
  have hleft : ∃ attempt, Left sealing aad s.disk attempt s'.disk := by
    cases event with
    | tamper record => cases hhonest
    | crash op k =>
      obtain ⟨disk, hdisk, rfl⟩ := map_eq_some_iff.mp hstep
      exact ⟨_, (op.effect hlawful hledger).stops disk (mem_of_getElem? hdisk)⟩
    | run op =>
      have hdisk : s'.disk = (op.prog sealing aad).final s.disk := by
        cases hstep
        unfold returned
        split <;> rfl
      exact ⟨_, hdisk ▸ (op.effect hlawful hledger).stops _ final_mem_stops⟩
  obtain ⟨attempt, hleft⟩ := hleft
  obtain ⟨value', hwhole, -⟩ := h.left hleft
  exact ⟨value', hwhole⟩

/-- In every run, tampering with the file included, a load answers the value of the last write that
returned or of one that was interrupted since, if it answers at all. Without tampering, wherever an
operation is stopped, the next load answers the value before it or the one it was to write, and the
next save goes through unless the record's generations are used up. -/
theorem records_are_fresh (sealing : Sealing T D) (hlawful : sealing.Lawful) (aad : Str)
    (disk : RecordDisk D) (value : Option T) (hstart : Established sealing aad disk value) :
    (∀ s, Reach ⟨disk, value, []⟩ (TrackedRecord.step sealing aad) (fun _ _ => True) s →
      ∀ v, (sealing.loadRecord aad).answer s.disk = .ok v → v = s.settled ∨ v ∈ s.later) ∧
    ∀ s, Reach ⟨disk, value, []⟩ (TrackedRecord.step sealing aad)
        (fun _ event => event.honest = true) s →
      ∃ before, (sealing.loadRecord aad).answer s.disk = .ok before ∧
        ∀ (op : RecordOp T), ∀ stopped ∈ (op.prog sealing aad).stops s.disk,
          (∃ v, (sealing.loadRecord aad).answer stopped = .ok v ∧
            (v = before ∨ op.attempt sealing aad s.disk = some v)) ∧
          ∃ revision, sealing.currentRevision.answer stopped = .ok revision ∧
            (revision.generation < u64Max →
              ∀ v nonce, (sealing.saveRecord aad v nonce).answer stopped = .ok ()) := by
  obtain ⟨⟨current, hledger⟩, hload⟩ := hstart
  have hwhole := Whole.of_load hledger hload
  constructor
  · intro s hs v hv
    have hfresh : Fresh sealing aad s.values s.disk := by
      refine Reach.invariant (P := fun s => Fresh sealing aad s.values s.disk) hs ?_
        fun _ _ _ h _ hstep => TrackedRecord.fresh_step hlawful h hstep
      obtain ⟨revision, began, entry, hinspect, hledger', hmatch⟩ := hwhole
      rw [hledger] at hledger'
      cases hledger'
      refine ⟨_, hledger, fun found hfound => ?_⟩
      rcases hfound with rfl | hfound
      · rcases hmatch with rfl | hmatch
        · exact ⟨_, _, value, hinspect, mem_cons_self⟩
        · cases hmatch
      · cases hfound
    exact mem_cons.mp (hfresh.load hlawful hv)
  · intro s hs
    obtain ⟨before, hbefore⟩ : ∃ before, Whole sealing aad s.disk before :=
      Reach.invariant (P := fun s => ∃ before, Whole sealing aad s.disk before) hs ⟨value, hwhole⟩
        fun _ _ _ ⟨_, h⟩ hhonest hstep => TrackedRecord.whole_step hlawful h hhonest hstep
    obtain ⟨-, -, entry, -, hledger', -⟩ := id hbefore
    refine ⟨before, hbefore.load, fun op stopped hstopped => ?_⟩
    obtain ⟨v, hv, hvalue⟩ := hbefore.left ((op.effect hlawful hledger').stops stopped hstopped)
    obtain ⟨revision, -, -, hrevision, hsave⟩ := hv.save hlawful
    refine ⟨⟨v, hv.load, hvalue⟩, revision, hrevision, fun hroom v nonce => ?_⟩
    rw [hsave, if_neg (Nat.not_le.mpr hroom)]

end Runs

/-! ## A store of plain bytes -/

def unary (n : Nat) (rest : Str) : Str := List.replicate n 1 ++ 0 :: rest

def readUnary (bytes : Str) : Nat × Str :=
  ((bytes.takeWhile (· = 1)).length, (bytes.dropWhile (· = 1)).tail)

theorem readUnary_unary (n : Nat) (rest : Str) : readUnary (unary n rest) = (n, rest) := by
  unfold readUnary unary
  simp

/-- Envelopes with their numbers counted out, and a cipher that hides nothing. -/
def plainSealing : Sealing Str (Option Str) where
  parse bytes :=
    let version := readUnary bytes
    let generation := readUnary version.2
    let deleted := readUnary generation.2
    let length := readUnary deleted.2
    some ⟨version.1, generation.1, deleted.1 = 1, length.2.take length.1, length.2.drop length.1⟩
  render envelope :=
    unary envelope.version (unary envelope.generation (unary envelope.deleted.toNat
      (unary envelope.nonce.length (envelope.nonce ++ envelope.ciphertext))))
  sealedShape _ := true
  encrypt _ _ plaintext := plaintext
  decrypt _ _ ciphertext := some ciphertext
  encode value := value
  decode bytes := some bytes
  digest record := record

theorem plainSealing_lawful : plainSealing.Lawful where
  parse_render envelope := by
    obtain ⟨version, generation, deleted, nonce, ciphertext⟩ := envelope
    cases deleted <;> simp [plainSealing, readUnary_unary]
  decrypt_encrypt _ _ _ := rfl
  decode_encode _ := rfl
  digest_injective := Function.injective_id

theorem records_are_fresh_absent :
    Established plainSealing [] ⟨none, some ⟨⟨0, none, true⟩, none⟩⟩ none ∧
    ∀ s, Reach ⟨⟨none, some ⟨⟨0, none, true⟩, none⟩⟩, none, []⟩
        (TrackedRecord.step plainSealing []) (fun _ _ => True) s →
      ∀ v, (plainSealing.loadRecord []).answer s.disk = .ok v → v = s.settled ∨ v ∈ s.later :=
  ⟨⟨⟨_, rfl⟩, rfl⟩, (records_are_fresh plainSealing plainSealing_lawful []
    ⟨none, some ⟨⟨0, none, true⟩, none⟩⟩ none ⟨⟨_, rfl⟩, rfl⟩).1⟩

def lastNonce : RecordNonce := ⟨List.replicate 12 0, rfl⟩

def lastBytes : Str :=
  plainSealing.render (plainSealing.sealEnvelope [] u64Max false lastNonce [7])

/-- Its ledger entry is established, a load answers its value, and no save goes through. -/
theorem generations_used_up :
    Established plainSealing []
        ⟨some lastBytes, some ⟨plainSealing.revision (some lastBytes) u64Max false, none⟩⟩
        (some [7]) ∧
      ∀ value nonce, (plainSealing.saveRecord [] value nonce).answer
        ⟨some lastBytes, some ⟨plainSealing.revision (some lastBytes) u64Max false, none⟩⟩ =
          .error .exhausted := by
  have hinspect : plainSealing.inspect [] (some lastBytes) =
      .ok (plainSealing.revision (some lastBytes) u64Max false, false, some [7]) :=
    plainSealing_lawful.inspect_seal rfl
  have hwhole : Whole plainSealing []
      ⟨some lastBytes, some ⟨plainSealing.revision (some lastBytes) u64Max false, none⟩⟩
      (some [7]) := ⟨_, _, _, hinspect, rfl, .inl rfl⟩
  refine ⟨⟨⟨_, rfl⟩, hwhole.load⟩, fun value nonce => ?_⟩
  obtain ⟨revision, began, hobserve, -, hsave⟩ := hwhole.save plainSealing_lawful
  rw [(Sealing.inspect_ok hinspect).1] at hobserve
  cases hobserve
  rw [hsave]
  exact if_pos (le_refl u64Max)

end Mere.Personae
