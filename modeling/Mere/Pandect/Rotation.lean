import Mere.Base.Run
import Mere.Pandect.Revocation

/-!
# Who is given a rotated epoch

A revocation gives each persona whose private epochs the device held a new one, and wraps it for the
devices that remain.
-/

namespace Mere.Pandect

open Personae Notochord List Option Std.ExtTreeMap

namespace WalletPrimitives

variable (prims : WalletPrimitives)

/-- What the cipher keeps: a message opens under its own key, and to nothing else under any. -/
structure Authenticated : Prop where
  opens : ∀ key nonce aad message,
    prims.decrypt key nonce aad (prims.encrypt key nonce aad message) = some message
  only : ∀ key nonce aad message key' nonce' aad' message',
    prims.decrypt key' nonce' aad' (prims.encrypt key nonce aad message) = some message' →
      message' = message

def withdrawn (root : DataRoot) (certificate : SignedDelegationCertificate) : Bool :=
  (ledgerOf root).revokes prims.digest certificate.certificate

/-- The device may not read the persona's epochs, or no longer. -/
def Barred (root : DataRoot) (device : DeviceId) (persona : PersonaId) : Prop :=
  ∃ certificate, certAt root device (some persona) = some certificate ∧
    (prims.withdrawn root certificate ∨ requiresEpochMaterial certificate = false)

/-- The epoch is the persona's current one and reaches the devices that are entitled to it, and
neither the device that was revoked nor one that is barred. -/
structure Reaches (s : DataRoot) (device : DeviceId) (persona : PersonaId) (epoch : KeyEpochId)
    (secret : Str) : Prop where
  head : ∃ wallet, loadPersonaWallet s persona = some wallet ∧ wallet.privateEpochHead = epoch
  current : loadCurrentPrivateEpoch s persona = some ⟨epoch, secret⟩
  entitled : ∀ other ∈ remainingDevices (rosterOf s), ∀ key certificate,
    loadRemoteAuthWrappingKey s other = some key →
    certAt s other (some persona) = some certificate → requiresEpochMaterial certificate = true →
    prims.withdrawn s certificate = false →
    ∃ material, loadWrappedEpochRecord s (prims.certificateId certificate) =
        some ⟨prims.certificateId certificate, [material]⟩ ∧
      prims.unwrapPrivateEpochMaterial material persona epoch key = .ok secret
  closed : ∀ other, other = device ∨ prims.Barred s other persona → ∀ slot certificate record,
    certAt s other slot = some certificate →
    loadWrappedEpochRecord s (prims.certificateId certificate) = some record →
    ∀ material ∈ record.epochs, ∀ persona' epoch' key,
      prims.unwrapPrivateEpochMaterial material persona' epoch' key ≠ .ok secret

def otherSlots (device : DeviceId) (wallet : PersonaWalletManifest) : List CapabilitySlotRef :=
  wallet.capabilitySlots.filter fun slot => slot.slotId ≠ .deviceGrant device

structure Untouched (root s : DataRoot) (device : DeviceId) (rotated : List PersonaId) : Prop where
  certificates : ∀ other slot, certAt s other slot = certAt root other slot
  devices : (rosterOf s).devices = (rosterOf root).devices
  grantRefs : (identityWalletOf s).grantIndex = (identityWalletOf root).grantIndex ∧
    (identityWalletOf s).personas = (identityWalletOf root).personas
  /-- The wallets of personas that were not granted to the device. -/
  wallets : ∀ persona, persona ∉ personaCertsOf root device →
    loadPersonaWallet s persona = loadPersonaWallet root persona
  /-- In those that were, the slots of other devices and, if it is not rotated, the head. -/
  slots : ∀ persona wallet, loadPersonaWallet root persona = some wallet →
    ∃ wallet', loadPersonaWallet s persona = some wallet' ∧
      wallet'.chainRoot = wallet.chainRoot ∧ wallet'.roots = wallet.roots ∧
      otherSlots device wallet' = otherSlots device wallet ∧
      (persona ∉ rotated → wallet'.privateEpochHead = wallet.privateEpochHead)

/-! ## The statements -/

section Statements

variable {prims} {root : DataRoot} {device : DeviceId}
  {statements : List SignedDelegationRevocation}
variable {seed : Bytes32} {statement : SignedDelegationRevocation}

variable {certificate : SignedDelegationCertificate}

theorem revokeOne_ok (h : prims.revokeOne seed certificate = .ok statement) :
    statement.revocation.certificate = prims.certificateId certificate ∧
      statement.revocation.issuer = certificate.certificate.issuer ∧ statement.verify = true := by
  unfold revokeOne issueRevocation at h
  split at h
  · cases h
  rename_i hformed
  split at h
  · cases h
  rename_i hissuer
  cases h
  simp only [not_or, not_not, Bool.not_eq_true', Bool.not_eq_false] at hformed hissuer
  simp [SignedDelegationRevocation.verify, hformed, hissuer]

theorem revokeDeviceGrantSet_ok {set : DeviceGrantSet}
    (h : prims.revokeDeviceGrantSet seed set = .ok statements) :
    ∀ statement ∈ statements, ∃ certificate ∈ set.certificates,
      ∃ seed, prims.revokeOne seed certificate = .ok statement := by
  unfold revokeDeviceGrantSet at h
  cases hdevice : set.device.toList.mapM fun certificate => prims.revokeOne seed certificate with
  | error => rw [hdevice] at h; cases h
  | ok device =>
    rw [hdevice] at h
    cases hpersonas : set.personas.toList.mapM fun entry =>
        prims.revokeOne (prims.personaSeed seed entry.1) entry.2 with
    | error =>
      simp only [bind, Except.bind, hpersonas] at h
      cases h
    | ok personas =>
      simp only [bind, Except.bind, hpersonas] at h
      cases h
      intro statement hmem
      rcases mem_append.mp hmem with hmem | hmem
      · obtain ⟨certificate, hcert, hone⟩ := mem_mapM_ok hdevice statement hmem
        exact ⟨certificate, mem_append_left _ hcert, seed, hone⟩
      · obtain ⟨entry, hentry, hone⟩ := mem_mapM_ok hpersonas statement hmem
        refine ⟨entry.2, mem_append_right _ ?_, _, hone⟩
        exact (OrdMap.mem_vals _ _).mpr
          ⟨entry.1, mem_toList_iff_getElem?_eq_some.mp hentry⟩

theorem statement_of_prepared (h : prims.prepareRevocation root device = .ok statements)
    (hmem : statement ∈ statements) :
    ∃ slot certificate, certAt root device slot = some certificate ∧
      statement.revocation.certificate = prims.certificateId certificate := by
  obtain ⟨seed, -, hset⟩ := prepareRevocation_ok h
  obtain ⟨certificate, hcert, signer, hone⟩ := revokeDeviceGrantSet_ok hset statement hmem
  obtain ⟨slot, hslot⟩ := mem_certificates.mp hcert
  exact ⟨slot, certificate, hslot, (revokeOne_ok hone).1⟩

theorem prepared_of_ok {draw : Draw} {outcome : RemoteAuthRevocationOutcome}
    (h : (prims.revokeRemoteAuthDevice draw device).answer root = .ok outcome) :
    ∃ statements, prims.prepareRevocation root device = .ok statements := by
  cases hprepare : prims.prepareRevocation root device with
  | ok statements => exact ⟨statements, rfl⟩
  | error e =>
    have hdoes : (prims.revokeRemoteAuthDevice draw device).Does root [] (.error e) :=
      .read (.check_error hprepare)
    rw [hdoes.answer] at h
    cases h

end Statements

/-! ## Wrapping -/

section Wrapping

variable {prims} {persona persona' : PersonaId} {epoch epoch' : KeyEpochId}
  {secret secret' : Str} {key key' : Bytes32} {nonce : WrapNonce}

theorem wrappedKey_split {nonce : WrapNonce} {sealedKey : Str} :
    (nonce.1 ++ sealedKey).take wrapNonceLen = nonce.1 ∧
      (nonce.1 ++ sealedKey).drop wrapNonceLen = sealedKey := by
  exact ⟨take_left' nonce.2, drop_left' nonce.2⟩

theorem unwrap_wrap (hcipher : prims.Authenticated) :
    prims.unwrapPrivateEpochMaterial (prims.wrapPrivateEpochMaterial persona epoch secret key nonce)
      persona epoch key = .ok secret := by
  have hlength : ¬(nonce.1 ++ prims.encrypt key nonce.1 (wrappedEpochAad persona epoch)
      secret).length < wrapNonceLen := by
    rw [length_append]
    omega
  unfold unwrapPrivateEpochMaterial wrapPrivateEpochMaterial
  simp only [ne_eq, not_true_eq_false, if_false]
  rw [if_neg hlength, wrappedKey_split.1, wrappedKey_split.2, hcipher.opens]

theorem secret_of_unwrap_wrap (hcipher : prims.Authenticated)
    (h : prims.unwrapPrivateEpochMaterial
      (prims.wrapPrivateEpochMaterial persona epoch secret key nonce) persona' epoch' key' =
        .ok secret') : secret' = secret := by
  unfold unwrapPrivateEpochMaterial wrapPrivateEpochMaterial at h
  split at h
  · cases h
  split at h
  · cases h
  split at h
  · cases h
  rw [wrappedKey_split.2] at h
  split at h
  · cases h
  · rename_i hopened
    cases h
    exact hcipher.only _ _ _ _ _ _ _ _ hopened

end Wrapping

/-! ## After a revocation -/

section After

variable {prims} {root : DataRoot} {device other : DeviceId} {persona : PersonaId} {draw : Draw}
  {statements : List SignedDelegationRevocation} {certificate : SignedDelegationCertificate}

theorem mem_remainingDevices_revokedRoster :
    other ∈ remainingDevices (revokedRoster (rosterOf root) device) ↔
      other ∈ remainingDevices (rosterOf root) ∧ other ≠ device := by
  rw [mem_remainingDevices, mem_remainingDevices]
  unfold revokedRoster
  split
  · rename_i hrevoked
    constructor
    · rintro ⟨hother, hrecord⟩
      exact ⟨⟨hother, hrecord⟩, fun h => hother (h ▸ hrevoked)⟩
    · exact And.left
  · simp only [mem_append, mem_singleton, not_or]
    constructor
    · rintro ⟨⟨hother, hne⟩, hrecord⟩
      exact ⟨⟨hother, hrecord⟩, hne⟩
    · rintro ⟨⟨hother, hrecord⟩, hne⟩
      exact ⟨⟨hother, hne⟩, hrecord⟩

def revokedRoot (prims : WalletPrimitives) (root : DataRoot) (draw : Draw) (device : DeviceId)
    (statements : List SignedDelegationRevocation) : DataRoot :=
  prims.midway root draw device statements (prims.steps root device statements)

theorem ledgerOf_revokedRoot (hsound : Sound prims root) :
    ledgerOf (prims.revokedRoot root draw device statements) =
      (ledgerOf root).folds statements := by
  unfold ledgerOf
  rw [← RevocationLedger.load_foldRevocations]
  congr 1
  by_cases hfolded : 0 < (foldRevocations (root .revocations) statements).1
  · exact midway_of_mem hsound (fun _ h => h)
      (mem_steps.mpr (show Planned prims root device statements .ledger from hfolded)) rfl
  · have hsame : (foldRevocations (root .revocations) statements).2 = root .revocations := by
      exact if_neg hfolded
    rw [hsame]
    have hnot : RevocationStep.ledger ∉ prims.steps root device statements :=
      fun hstep => hfolded (mem_steps.mp hstep)
    exact midway_of_notMem hnot fun _ => fixed_step (.inl rfl)

variable {slot : Option PersonaId} {record : WrappedEpochRecord} {material : WrappedEpochMaterial}
  {persona' : PersonaId} {epoch : KeyEpochId} {key : Bytes32}

theorem withdrawn_revokedRoot (hsound : Sound prims root)
    (hprepared : prims.prepareRevocation root device = .ok statements) (hcert : certAt root other slot = some certificate)
    (hother : other ≠ device) :
    prims.withdrawn (prims.revokedRoot root draw device statements) certificate =
      prims.withdrawn root certificate := by
  unfold withdrawn
  rw [ledgerOf_revokedRoot hsound]
  refine RevocationLedger.revokes_folds_of_ne fun statement hstatement hid => ?_
  obtain ⟨slot', certificate', hcert', hid'⟩ := statement_of_prepared hprepared hstatement
  exact hother (hsound.distinct _ _ _ _ _ _ hcert' hcert (hid'.symm.trans hid)).1.symm

theorem rosterOf_revokedRoot (hsound : Sound prims root) :
    rosterOf (prims.revokedRoot root draw device statements) =
      revokedRoster (rosterOf root) device := by
  refine rosterOf_midway hsound (fun _ h => h) ?_
  by_cases hrevoked : device ∈ (rosterOf root).revoked
  · exact .inr hrevoked
  · exact .inl (mem_steps.mpr hrevoked)

theorem planned_wallet (h : prims.rotates root device persona = true) :
    Planned prims root device statements (.wallet persona) := by
  obtain ⟨certificate, hcert, -⟩ := rotates_iff.mp h
  refine ⟨OrdMap.mem_of_getElem? hcert, ?_⟩
  rw [h, Bool.or_true]

theorem closed_of_same (hfresh : Fresh prims root draw) {s : DataRoot} {id : Bytes32}
    (hsame : s (.epochRecord id) = root (.epochRecord id))
    (hload : loadWrappedEpochRecord s id = some record)
    (hmaterial : material ∈ record.epochs) :
    prims.unwrapPrivateEpochMaterial material persona' epoch key ≠ .ok (draw.secret persona) := by
  refine hfresh.unwrapped id record ?_ material hmaterial persona' epoch key persona
  rw [← hload, loadWrappedEpochRecord, ← hsame]
  rfl

theorem closed_device (hsound : Sound prims root) (hfresh : Fresh prims root draw)
    (hcert : certAt root device slot = some certificate)
    (hload : loadWrappedEpochRecord (prims.revokedRoot root draw device statements)
      (prims.certificateId certificate) = some record) (hmaterial : material ∈ record.epochs) :
    prims.unwrapPrivateEpochMaterial material persona' epoch key ≠ .ok (draw.secret persona) := by
  have hkept : ∀ persona, slot = some persona →
      .forget persona ∉ prims.steps root device statements := by
    rintro persona rfl hforget
    have hgone := @loadWrappedEpochRecord_midway_forget prims root draw device statements _ persona
      hsound (fun _ h => h) hforget
    rw [idAt, show (personaCertsOf root device)[persona]? = some certificate from hcert] at hgone
    exact some_ne_none _ (hload.symm.trans hgone)
  refine closed_of_same hfresh ?_ hload hmaterial
  refine epochRecord_midway_of_notMem hsound (fun _ h => h) hcert
    (fun persona h _ => hkept persona h) fun persona _ hrefresh => ?_
  exact ne_of_mem_remainingDevices (mem_steps.mp hrefresh).1 rfl

theorem planned_refresh (hrotates : prims.rotates root device persona = true)
    (hother : other ∈ remainingDevices (rosterOf root)) (hne : other ≠ device) {key : Bytes32}
    (hkey : loadRemoteAuthWrappingKey root other = some key)
    (hcert : certAt root other (some persona) = some certificate)
    (hread : requiresEpochMaterial certificate = true) :
    Planned prims root device statements (.refresh other persona) := by
  have hstored : (personaCertsOf root other)[persona]? = some certificate := hcert
  refine ⟨mem_remainingDevices_revokedRoster.mpr ⟨hother, hne⟩, hrotates, ?_⟩
  rw [reads, hkey, hstored]
  exact hread

theorem refreshed_record (hsound : Sound prims root) (hcipher : prims.Authenticated)
    {l : List RevocationStep} (hl : ∀ step ∈ l, step ∈ prims.steps root device statements)
    (hmem : .refresh other persona ∈ l) {key : Bytes32}
    (hkey : loadRemoteAuthWrappingKey root other = some key)
    (hcert : certAt root other (some persona) = some certificate) :
    ∃ material, loadWrappedEpochRecord (prims.midway root draw device statements l)
        (prims.certificateId certificate) = some ⟨prims.certificateId certificate, [material]⟩ ∧
      prims.unwrapPrivateEpochMaterial material persona (draw.epoch persona) key =
        .ok (draw.secret persona) := by
  have hstored : (personaCertsOf root other)[persona]? = some certificate := hcert
  have hrecord := @loadWrappedEpochRecord_midway_refresh prims root draw device statements l
    persona other hsound hl hmem
  rw [idAt, hstored] at hrecord
  refine ⟨_, hrecord, ?_⟩
  rw [refreshed, hkey]
  exact unwrap_wrap hcipher

/-- A device is still delegated and can open what it is sent, and its certificate for a persona
that is rotated is withdrawn. -/
def Lingers (prims : WalletPrimitives) (root : DataRoot) (device : DeviceId) : Prop :=
  ∃ other ∈ remainingDevices (rosterOf root), other ≠ device ∧
    (loadRemoteAuthWrappingKey root other).isSome ∧
    ∃ persona certificate, prims.rotates root device persona = true ∧
      certAt root other (some persona) = some certificate ∧
      requiresEpochMaterial certificate = true ∧ prims.withdrawn root certificate = true

variable (hsound : Sound prims root)
include hsound

theorem reaches_revokedRoot (hfresh : Fresh prims root draw) (hcipher : prims.Authenticated)
    (hprepared : prims.prepareRevocation root device = .ok statements)
    (hlingers : ¬prims.Lingers root device) (hrotates : prims.rotates root device persona = true) :
    prims.Reaches (prims.revokedRoot root draw device statements) device persona
      (draw.epoch persona) (draw.secret persona) := by
  have hrotating : prims.Rotating root draw device
      (prims.revokedRoot root draw device statements) := by
    refine rotating_midway hsound hfresh (fun _ h => h) fun persona hrotates => ?_
    exact ⟨mem_steps.mpr (planned_wallet hrotates), mem_steps.mpr hrotates⟩
  refine ⟨⟨_, loadPersonaWallet_midway hsound (fun _ h => h)
    (mem_steps.mpr (planned_wallet hrotates)), ?_⟩,
    hrotating.epochs persona (mem_rotated.mpr hrotates), ?_, ?_⟩
  · rw [hrotates]
    exact congrArg draw.epoch walletAt_personaId
  · intro other hother key certificate hkey hcert hread _
    rw [rosterOf_revokedRoot hsound, mem_remainingDevices_revokedRoster] at hother
    rw [hrotating.keys other hother.2] at hkey
    rw [revokedRoot, certAt_midway] at hcert
    exact refreshed_record hsound hcipher (fun _ h => h)
      (mem_steps.mpr (planned_refresh hrotates hother.1 hother.2 hkey hcert hread)) hkey hcert
  · intro other hbarred slot certificate record hcert hload material hmaterial persona' epoch' key
    rw [revokedRoot, certAt_midway] at hcert
    by_cases hdevice : other = device
    · subst hdevice
      exact closed_device hsound hfresh hcert hload hmaterial
    · by_cases hrefresh : ∃ persona'', slot = some persona'' ∧
          .refresh other persona'' ∈ prims.steps root device statements
      · -- It is refreshed, for another persona: for this one it is barred.
        obtain ⟨persona'', rfl, hrefresh⟩ := hrefresh
        obtain ⟨hremaining, -, hreads⟩ := mem_steps.mp hrefresh
        have hstored : (personaCertsOf root other)[persona'']? = some certificate := hcert
        have hrecord := @loadWrappedEpochRecord_midway_refresh prims root draw device statements _
          persona'' other hsound (fun _ h => h) hrefresh
        rw [idAt, hstored] at hrecord
        obtain rfl := some.inj (hload.symm.trans hrecord)
        rw [mem_singleton] at hmaterial
        subst hmaterial
        intro hopens
        obtain rfl := hfresh.apart (secret_of_unwrap_wrap hcipher hopens)
        obtain ⟨barred, hbarredcert, hwhy⟩ := hbarred.resolve_left hdevice
        rw [revokedRoot, certAt_midway, hcert] at hbarredcert
        obtain rfl := some.inj hbarredcert
        rw [reads, hstored, Bool.and_eq_true] at hreads
        rcases hwhy with hwhy | hwhy
        · rw [withdrawn_revokedRoot hsound hprepared hcert hdevice] at hwhy
          exact hlingers ⟨other, (mem_remainingDevices_revokedRoster.mp hremaining).1, hdevice,
            hreads.1, persona, certificate, hrotates, hcert, hreads.2, hwhy⟩
        · exact Bool.false_ne_true (hwhy.symm.trans hreads.2)
      · refine closed_of_same hfresh ?_ hload hmaterial
        exact epochRecord_midway_of_notMem hsound (fun _ h => h) hcert
          (fun _ _ h => absurd h hdevice) fun persona'' hslot h => hrefresh ⟨persona'', hslot, h⟩

theorem untouched_revokedRoot :
    Untouched root (prims.revokedRoot root draw device statements) device
      (prims.rotated root device) := by
  refine ⟨fun other slot => certAt_midway, ?_, ?_, ?_, ?_⟩
  · rw [rosterOf_revokedRoot hsound, revokedRoster]
    split <;> rfl
  · have hread : prims.revokedRoot root draw device statements .identityWallet =
        some { identityWalletOf root with
          deviceRosterRef :=
            some (prims.deviceRosterRef (revokedRoster (rosterOf root) device)) } :=
      midway_of_mem hsound (fun _ h => h)
        (mem_steps.mpr (show Planned prims root device statements .identity from trivial)) rfl
    rw [identityWalletOf, hread]
    exact ⟨rfl, rfl⟩
  · intro persona hpersona
    exact loadPersonaWallet_midway_of_notMem fun h => hpersona (mem_steps.mp h).1
  · intro persona wallet hwallet
    by_cases hmem : .wallet persona ∈ prims.steps root device statements
    · have hat : walletAt root persona = wallet := by
        rw [walletAt, hwallet]
        rfl
      refine ⟨_, loadPersonaWallet_midway hsound (fun _ h => h) hmem, ?_⟩
      rw [hat]
      refine ⟨rfl, rfl, ?_, fun hnot => ?_⟩
      · refine filter_updateFirst (fun slot h => ?_) fun slot h => ?_
        · simpa using h
        · simpa using h
      · rw [mem_rotated, Bool.not_eq_true] at hnot
        rw [hnot]
        rfl
    · refine ⟨wallet, ?_, rfl, rfl, rfl, fun _ => rfl⟩
      exact (loadPersonaWallet_midway_of_notMem hmem).trans hwallet

theorem leaks_of_lingers (hcipher : prims.Authenticated)
    (hprepared : prims.prepareRevocation root device = .ok statements)
    (hlingers : prims.Lingers root device) :
    ∃ persona, prims.rotates root device persona = true ∧
      ¬prims.Reaches (prims.revokedRoot root draw device statements) device persona
        (draw.epoch persona) (draw.secret persona) := by
  obtain ⟨other, hother, hne, hkey, persona, certificate, hrotates, hcert, hread, hwithdrawn⟩ :=
    hlingers
  refine ⟨persona, hrotates, fun hreaches => ?_⟩
  obtain ⟨key, hkey⟩ := isSome_iff_exists.mp hkey
  obtain ⟨material, hrecord, hopens⟩ := @refreshed_record prims root device other persona draw
    statements certificate hsound hcipher _ (fun _ h => h)
    (mem_steps.mpr (planned_refresh hrotates hother hne hkey hcert hread)) key hkey hcert
  have hafter : certAt (prims.revokedRoot root draw device statements) other (some persona) =
      some certificate := certAt_midway.trans hcert
  have hbarred : prims.Barred (prims.revokedRoot root draw device statements) other persona := by
    refine ⟨certificate, hafter, .inl ?_⟩
    rw [withdrawn_revokedRoot hsound hprepared hcert hne]
    exact hwithdrawn
  exact hreaches.closed other (.inr hbarred) (some persona) certificate _ hafter hrecord material
    mem_cons_self persona (draw.epoch persona) key hopens

end After

/-- A rotated epoch reaches the devices that are entitled to it and no others exactly if no device
that remains has a certificate for it that is withdrawn. -/
theorem rotated_epoch_reaches_entitled_iff (prims : WalletPrimitives) (root : DataRoot)
    (draw : Draw) (device : DeviceId) (outcome : RemoteAuthRevocationOutcome)
    (hcipher : prims.Authenticated) (hsound : Sound prims root) (hfresh : Fresh prims root draw)
    (hok : (prims.revokeRemoteAuthDevice draw device).answer root = .ok outcome) :
    ((∀ persona ∈ outcome.rotatedPersonas,
        prims.Reaches ((prims.revokeRemoteAuthDevice draw device).final root) device persona
          (draw.epoch persona) (draw.secret persona)) ∧
      Untouched root ((prims.revokeRemoteAuthDevice draw device).final root) device
        outcome.rotatedPersonas) ↔
      ¬prims.Lingers root device := by
  obtain ⟨statements, hprepared⟩ := prepared_of_ok hok
  have hdoes := revokeRemoteAuthDevice_does hsound hfresh hprepared
  have hfinal : (prims.revokeRemoteAuthDevice draw device).final root =
      prims.revokedRoot root draw device statements := hdoes.final
  have houtcome : outcome.rotatedPersonas = prims.rotated root device := by
    rw [hdoes.answer] at hok
    cases hok
    rfl
  rw [hfinal, houtcome]
  constructor
  · rintro ⟨hreaches, -⟩ hlingers
    obtain ⟨persona, hrotates, hnot⟩ :=
      @leaks_of_lingers prims root device draw statements hsound hcipher hprepared hlingers
    exact hnot (hreaches persona (mem_rotated.mpr hrotates))
  · intro hlingers
    exact ⟨fun persona hpersona => reaches_revokedRoot hsound hfresh hcipher hprepared hlingers
      (mem_rotated.mp hpersona), untouched_revokedRoot hsound⟩

end WalletPrimitives

/-! ## A wallet with two devices -/

theorem plainPrimitives_authenticated : plainPrimitives.Authenticated where
  opens _ _ _ _ := rfl
  only _ _ _ _ _ _ _ _ h := (some.inj h).symm

def readCertificate (device : DeviceId) : SignedDelegationCertificate where
  certificate :=
    { parent := .root 3007
      issuer := 3007
      subject := Fin.ofNat _ (40 + device.val)
      scope := deviceCapabilityScope device [actionPrivateRead]
      notBeforeMs := 100
      issuedAtMs := 100
      expiresAtMs := some 900
      remainingDelegationDepth := 0
      nonce := Fin.ofNat _ (device.val * 2 ^ 64 + 100) }
  attested := true
  master := some 3007
  signed := true

def pairedDevice (device : DeviceId) : DeviceRecord :=
  ⟨device, Fin.ofNat _ (40 + device.val), [], .remoteAuth, .hiddenClient, .none, some 0⟩

def readMaterial (device : DeviceId) : WrappedEpochMaterial :=
  plainPrimitives.wrapPrivateEpochMaterial 7 5 [0] (Fin.ofNat _ (10 + device.val)) blankNonce

def sharedRoot (revocations : List RevocationRecord) : DataRoot
  | .identitySeed => some 3
  | .deviceRoster => some ⟨[pairedDevice 1, pairedDevice 2], []⟩
  | .wrappingKeys => some [⟨1, none, 11⟩, ⟨2, none, 12⟩]
  | .revocations => some revocations
  | .personaCerts device =>
    if device = 1 ∨ device = 2 then
      some ((∅ : OrdMap PersonaId SignedDelegationCertificate).insert 7 (readCertificate device))
    else none
  | .epochRecord certificate =>
    if certificate = plainPrimitives.certificateId (readCertificate 1) then
      some ⟨⟨certificate, [readMaterial 1]⟩, rfl⟩
    else if certificate = plainPrimitives.certificateId (readCertificate 2) then
      some ⟨⟨certificate, [readMaterial 2]⟩, rfl⟩
    else none
  | .personaWallet persona => if persona = 7 then some ⟨⟨persona, 3007, 5, [], []⟩, rfl⟩ else none
  | .epochBridge persona => if persona = 7 then some ⟨⟨persona, [⟨5, [0]⟩]⟩, rfl⟩ else none
  | _ => none

def lengthDraw : Draw :=
  ⟨fun _ => 9, fun persona => List.replicate persona.val 1, fun _ _ => blankNonce⟩

section Shared

variable {revocations : List RevocationRecord}

theorem certAt_sharedRoot {device : DeviceId} {slot : Option PersonaId}
    (h : certAt (sharedRoot revocations) device slot = some certificate) :
    (device = 1 ∨ device = 2) ∧ slot = some 7 ∧ certificate = readCertificate device := by
  cases slot with
  | none => cases h
  | some persona =>
    by_cases hdevice : device = 1 ∨ device = 2
    · have hcerts : personaCertsOf (sharedRoot revocations) device =
          (∅ : OrdMap PersonaId SignedDelegationCertificate).insert 7 (readCertificate device) := by
        have hfile : sharedRoot revocations (.personaCerts device) = some _ := if_pos hdevice
        rw [personaCertsOf, hfile]
        rfl
      rw [certAt, hcerts, OrdMap.getElem?_insert] at h
      split at h
      · rename_i hpersona
        exact ⟨hdevice, congrArg some hpersona.symm, (some.inj h).symm⟩
      · cases h
    · have hcerts : personaCertsOf (sharedRoot revocations) device = ∅ := by
        have hfile : sharedRoot revocations (.personaCerts device) = none := if_neg hdevice
        rw [personaCertsOf, hfile]
        rfl
      rw [certAt, hcerts] at h
      cases h

theorem sharedRoot_sound : Sound plainPrimitives (sharedRoot revocations) where
  verified device slot certificate h := by
    obtain ⟨rfl | rfl, -, rfl⟩ := certAt_sharedRoot h <;> decide +kernel
  present device persona h := by
    obtain ⟨certificate, hcert⟩ := isSome_iff_exists.mp
      (isSome_getElem?_iff_mem.mpr h)
    have hslot : certAt (sharedRoot revocations) device (some persona) = some certificate := hcert
    obtain ⟨-, hpersona, -⟩ := certAt_sharedRoot hslot
    rw [some.inj hpersona]
    rfl
  distinct device device' slot slot' certificate certificate' h h' hid := by
    obtain ⟨hdevice, rfl, rfl⟩ := certAt_sharedRoot h
    obtain ⟨hdevice', rfl, rfl⟩ := certAt_sharedRoot h'
    refine ⟨?_, rfl⟩
    rcases hdevice with rfl | rfl <;> rcases hdevice' with rfl | rfl
    · rfl
    · exact absurd hid (by decide +kernel)
    · exact absurd hid (by decide +kernel)
    · rfl

theorem sharedRoot_fresh : Fresh plainPrimitives (sharedRoot revocations) lengthDraw where
  unstaged persona := by
    by_cases hpersona : persona = 7
    · subst hpersona
      rfl
    · have hfile : sharedRoot revocations (.epochBridge persona) = none := if_neg hpersona
      rw [bridgeOf, loadPersonaEpochBridge, hfile]
      rfl
  ahead persona wallet h := by
    by_cases hpersona : persona = 7
    · subst hpersona
      cases h
      decide
    · have hfile : sharedRoot revocations (.personaWallet persona) = none := if_neg hpersona
      rw [loadPersonaWallet, hfile] at h
      cases h
  unwrapped id record h material hmaterial persona epoch key persona' hopens := by
    have hread : ∃ device, material = readMaterial device := by
      rw [loadWrappedEpochRecord] at h
      by_cases hone : id = plainPrimitives.certificateId (readCertificate 1)
      · have hfile : sharedRoot revocations (.epochRecord id) = some _ := if_pos hone
        rw [hfile] at h
        cases h
        exact ⟨1, mem_singleton.mp hmaterial⟩
      · by_cases htwo : id = plainPrimitives.certificateId (readCertificate 2)
        · have hfile : sharedRoot revocations (.epochRecord id) = some _ :=
            (if_neg hone).trans (if_pos htwo)
          rw [hfile] at h
          cases h
          exact ⟨2, mem_singleton.mp hmaterial⟩
        · have hfile : sharedRoot revocations (.epochRecord id) = none :=
            (if_neg hone).trans (if_neg htwo)
          rw [hfile] at h
          cases h
    obtain ⟨device, rfl⟩ := hread
    have hsecret : List.replicate persona'.val (1 : UInt8) = [0] :=
      WalletPrimitives.secret_of_unwrap_wrap plainPrimitives_authenticated hopens
    have hone : (0 : UInt8) = 1 := by
      refine eq_of_mem_replicate (n := persona'.val) ?_
      rw [hsecret]
      exact mem_cons_self
    exact absurd hone (by decide)
  apart persona persona' h := by
    have hlength := congrArg List.length h
    change (List.replicate _ _).length = (List.replicate _ _).length at hlength
    rw [length_replicate, length_replicate] at hlength
    exact Fin.ext hlength

theorem sharedRoot_prepared : ∃ statements,
    plainPrimitives.prepareRevocation (sharedRoot revocations) 1 = .ok statements := by
  have hok : (plainPrimitives.prepareRevocation (sharedRoot []) 1).isOk = true := by decide +kernel
  have hsame : plainPrimitives.prepareRevocation (sharedRoot revocations) 1 =
      plainPrimitives.prepareRevocation (sharedRoot []) 1 := rfl
  rw [hsame]
  cases hprepare : plainPrimitives.prepareRevocation (sharedRoot []) 1 with
  | ok statements => exact ⟨statements, rfl⟩
  | error e => rw [hprepare] at hok; cases hok

theorem sharedRoot_revokes : ∃ outcome,
    (plainPrimitives.revokeRemoteAuthDevice lengthDraw 1).answer (sharedRoot revocations) =
      .ok outcome := by
  obtain ⟨statements, hprepared⟩ := @sharedRoot_prepared revocations
  exact ⟨_, (WalletPrimitives.revokeRemoteAuthDevice_does sharedRoot_sound sharedRoot_fresh
    hprepared).answer⟩

end Shared

/-- Where nothing is withdrawn yet, the new epoch reaches the other device and no one else. -/
theorem rotated_epoch_reaches_other_device : ∃ outcome,
    (plainPrimitives.revokeRemoteAuthDevice lengthDraw 1).answer (sharedRoot []) = .ok outcome ∧
      ((∀ persona ∈ outcome.rotatedPersonas,
          plainPrimitives.Reaches
            ((plainPrimitives.revokeRemoteAuthDevice lengthDraw 1).final (sharedRoot [])) 1 persona
            (lengthDraw.epoch persona) (lengthDraw.secret persona)) ∧
        WalletPrimitives.Untouched (sharedRoot [])
          ((plainPrimitives.revokeRemoteAuthDevice lengthDraw 1).final (sharedRoot [])) 1
          outcome.rotatedPersonas) := by
  obtain ⟨outcome, hok⟩ := @sharedRoot_revokes []
  refine ⟨outcome, hok, (WalletPrimitives.rotated_epoch_reaches_entitled_iff plainPrimitives
    (sharedRoot []) lengthDraw 1 outcome plainPrimitives_authenticated sharedRoot_sound
    sharedRoot_fresh hok).mpr ?_⟩
  rintro ⟨other, -, -, -, persona, certificate, -, -, -, hwithdrawn⟩
  cases hwithdrawn

/-- The ledger withdraws the certificate of device 2, which is still on the roster. -/
def withdrawnRoot : DataRoot :=
  sharedRoot [⟨plainPrimitives.certificateId (readCertificate 2), 3007⟩]

/-- Device 1 is revoked, and device 2 is given the new epoch though its certificate is withdrawn. -/
theorem rotated_epoch_reaches_withdrawn : Sound plainPrimitives withdrawnRoot ∧
    Fresh plainPrimitives withdrawnRoot lengthDraw ∧ ∃ outcome,
    (plainPrimitives.revokeRemoteAuthDevice lengthDraw 1).answer withdrawnRoot = .ok outcome ∧
      ∃ persona ∈ outcome.rotatedPersonas,
        ¬plainPrimitives.Reaches
          ((plainPrimitives.revokeRemoteAuthDevice lengthDraw 1).final withdrawnRoot) 1 persona
          (lengthDraw.epoch persona) (lengthDraw.secret persona) := by
  obtain ⟨statements, hprepared⟩ :=
    @sharedRoot_prepared [⟨plainPrimitives.certificateId (readCertificate 2), 3007⟩]
  have hdoes := WalletPrimitives.revokeRemoteAuthDevice_does sharedRoot_sound sharedRoot_fresh
    hprepared
  have hlingers : plainPrimitives.Lingers withdrawnRoot 1 :=
    ⟨2, by decide +kernel, by decide, rfl, 7, readCertificate 2, by decide +kernel,
      by decide +kernel, by decide +kernel, by decide +kernel⟩
  obtain ⟨persona, hrotates, hnot⟩ := @WalletPrimitives.leaks_of_lingers plainPrimitives
    withdrawnRoot 1 lengthDraw statements sharedRoot_sound plainPrimitives_authenticated hprepared
    hlingers
  refine ⟨sharedRoot_sound, sharedRoot_fresh, _, hdoes.answer, persona,
    WalletPrimitives.mem_rotated.mpr hrotates, ?_⟩
  rw [show (plainPrimitives.revokeRemoteAuthDevice lengthDraw 1).final withdrawnRoot =
    plainPrimitives.revokedRoot withdrawnRoot lengthDraw 1 statements from hdoes.final]
  exact hnot

end Mere.Pandect
