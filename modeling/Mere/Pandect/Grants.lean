import Mere.Pandect.Wallet

/-!
# Granting and revoking a device

From `crates/system/pandect/src/wallet_grant` and `crates/dramatis/personae/src/carry/grant`.
-/

namespace Mere.Pandect

open Personae Notochord

/-! ## What is taken as given -/

structure WalletPrimitives where
  /-- `DelegationCertificate::id`. -/
  digest : DelegationCertificate → Bytes32
  /-- The public key of the identity at a seed. -/
  publicKey : Bytes32 → Bytes32
  /-- The seed of the identity that is derived for a persona. -/
  personaSeed : Bytes32 → PersonaId → Bytes32
  /-- `CarryRef::of`. -/
  hash : Str → Bytes32
  rosterBytes : DeviceRoster → Str
  /-- The keyed hash under the blinding key of a wrapping key. -/
  blind : Bytes32 → Str → Bytes32
  /-- Key, nonce, associated data and message. -/
  encrypt : Bytes32 → Str → Str → Str → Str
  decrypt : Bytes32 → Str → Str → Str → Option Str

def wrapNonceLen : Nat := 24

abbrev WrapNonce := { nonce : Str // nonce.length = wrapNonceLen }

structure Draw where
  /-- `KeyEpochId::new`, once for each persona that is rotated. -/
  epoch : PersonaId → KeyEpochId
  secret : PersonaId → Str
  nonce : DeviceId → PersonaId → WrapNonce

/-! ## Scopes -/

/-- `mere.device`. -/
def deviceAuthorityDomain : Str := [109, 101, 114, 101, 46, 100, 101, 118, 105, 99, 101]

/-- `identity.act`. -/
def actionIdentityAct : Str := [105, 100, 101, 110, 116, 105, 116, 121, 46, 97, 99, 116]

/-- `private.read`. -/
def actionPrivateRead : Str := [112, 114, 105, 118, 97, 116, 101, 46, 114, 101, 97, 100]

def deviceCapabilityScope (device : DeviceId) (actions : List Str) : CapabilityScope where
  domain := deviceAuthorityDomain
  resource := uuidBytes device
  pathPrefix := [slash]
  actions := actions.toFinset

variable (certificate : SignedDelegationCertificate)

def certificateDeviceId : Option DeviceId :=
  uuidOfBytes certificate.certificate.scope.resource

def requiresEpochMaterial : Bool :=
  decide (actionPrivateRead ∈ certificate.certificate.scope.actions)

def isExpired (expiresAtMs : Option Nat) (nowMs : Nat) : Bool := expiresAtMs.any (· ≤ nowMs)

/-! ## Slots and references -/

/-- The slot's grant reference taken out, and whether there was one. -/
def clearSlot (slots : List CapabilitySlotRef) (device : DeviceId) :
    List CapabilitySlotRef × Bool :=
  (updateFirst (·.slotId = .deviceGrant device) (fun slot => { slot with grantRef := none }) slots,
    (slots.find? fun slot => slot.slotId = .deviceGrant device).any (·.grantRef.isSome))

def slotGrant (device : DeviceId) (grantRef : CarryRef) (wallet : PersonaWalletManifest) :
    PersonaWalletManifest :=
  { wallet with
    capabilitySlots := upsert (·.slotId = .deviceGrant device)
      (fun slot => { slot with grantRef := some grantRef }) ⟨.deviceGrant device, some grantRef⟩
      wallet.capabilitySlots }

def upsertPersonaCapabilitySlot (device : DeviceId) (grantRef : CarryRef) (persona : PersonaId) :
    WalletProg Unit := do
  let root ← Prog.read
  match loadPersonaWallet root persona with
  | none => Prog.fail (.personaWalletMissing persona)
  | some wallet => savePersonaWallet (slotGrant device grantRef wallet)

def upsertGrantIndex (wallet : IdentityWalletManifest) (device : DeviceId) (grantRef : CarryRef) :
    IdentityWalletManifest :=
  { wallet with
    grantIndex := upsert (·.deviceId = device)
      (fun known => { known with grantRef := some grantRef }) ⟨device, some grantRef⟩
      wallet.grantIndex }

def knowPersona (wallet : IdentityWalletManifest) (persona : PersonaId) : IdentityWalletManifest :=
  if persona ∈ wallet.personas then wallet
  else { wallet with personas := wallet.personas ++ [persona] }

variable (roster : DeviceRoster)

def upsertDeviceRecord (device : DeviceId) (key : DevicePublicKey) (label : Str)
    (exposure : DeviceExposure) (grantRef : CarryRef) : DeviceRoster :=
  { roster with
    devices := upsert (·.deviceId = device)
      (fun record =>
        { record with
          devicePubkey := key, label := label, mode := .remoteAuth, exposure := exposure,
          grantRef := some grantRef })
      ⟨device, key, label, .remoteAuth, exposure, .none, some grantRef⟩ roster.devices }

namespace WalletPrimitives

variable (prims : WalletPrimitives) (draw : Draw) (device : DeviceId) (persona : PersonaId)

def certificateId (certificate : SignedDelegationCertificate) : Bytes32 :=
  prims.digest certificate.certificate

def deviceRosterRef (roster : DeviceRoster) : CarryRef := prims.hash (prims.rosterBytes roster)

/-- The reference that stands for a whole set: the ids in it. -/
def deviceGrantSetRef (set : DeviceGrantSet) : CarryRef :=
  prims.hash <|
    set.device.elim [0] (fun certificate => 1 :: idBytes (prims.certificateId certificate)) ++
      set.personas.toList.flatMap fun entry =>
        uuidBytes entry.1 ++ idBytes (prims.certificateId entry.2)

/-- What an accepted grant leaves in the roster, the identity wallet and the personas' slots. -/
def recordGrant (roster : DeviceRoster) (device : DeviceId) (grantRef : CarryRef)
    (known slots : List PersonaId) : WalletProg Unit := do
  Prog.put ⟨.deviceRoster, some roster⟩
  let root ← Prog.read
  let wallet := upsertGrantIndex (known.foldl knowPersona (identityWalletOf root)) device grantRef
  Prog.put ⟨.identityWallet, some { wallet with
    deviceRosterRef := some (prims.deviceRosterRef roster) }⟩
  Prog.forEach (upsertPersonaCapabilitySlot device grantRef) slots

/-! ## Signing -/

def issueRevocation (seed : Bytes32) (revocation : DelegationRevocation) :
    Except DelegationError SignedDelegationRevocation :=
  if revocation.version ≠ revocationVersion ∨ !revocation.scope.isWellFormed then
    .error .malformedRevocation
  else if prims.publicKey seed ≠ revocation.issuer then .error .wrongIssuer
  else .ok ⟨revocation, true, some (prims.publicKey seed), true⟩

def revokeOne (seed : Bytes32) (certificate : SignedDelegationCertificate) :
    Except DelegationError SignedDelegationRevocation :=
  prims.issueRevocation seed
    { certificate := prims.certificateId certificate
      issuer := certificate.certificate.issuer
      scope := certificate.certificate.scope }

def revokeDeviceGrantSet (seed : Bytes32) (set : DeviceGrantSet) :
    Except DelegationError (List SignedDelegationRevocation) := do
  let device ← set.device.toList.mapM fun certificate => prims.revokeOne seed certificate
  let personas ← set.personas.toList.mapM fun entry =>
    prims.revokeOne (prims.personaSeed seed entry.1) entry.2
  return device ++ personas

/-! ## Wrapping -/

/-- `mere.wallet.private-epoch.v1`, the persona and the epoch. -/
def wrappedEpochAad (epoch : KeyEpochId) : Str :=
  [109, 101, 114, 101, 46, 119, 97, 108, 108, 101, 116, 46, 112, 114, 105, 118, 97, 116, 101, 45,
    101, 112, 111, 99, 104, 46, 118, 49] ++ uuidBytes persona ++ uuidBytes epoch

/-- `xchacha20poly1305-v1`. -/
def wrappedPrivateEpochFormatV1 : Str :=
  [120, 99, 104, 97, 99, 104, 97, 50, 48, 112, 111, 108, 121, 49, 51, 48, 53, 45, 118, 49]

def blindedEpochIndex (epoch : KeyEpochId) (key : Bytes32) : Bytes32 :=
  prims.blind key (wrappedEpochAad persona epoch)

def wrapPrivateEpochMaterial (epoch : KeyEpochId) (secret : Str) (key : Bytes32)
    (nonce : WrapNonce) : WrappedEpochMaterial where
  index := prims.blindedEpochIndex persona epoch key
  wrapFormat := wrappedPrivateEpochFormatV1
  wrappedKey := nonce.1 ++ prims.encrypt key nonce.1 (wrappedEpochAad persona epoch) secret

def unwrapPrivateEpochMaterial (material : WrappedEpochMaterial) (persona : PersonaId)
    (epoch : KeyEpochId) (key : Bytes32) : Except WrappedEpochError Str :=
  if material.index ≠ prims.blindedEpochIndex persona epoch key then .error .wrongEntry
  else if material.wrapFormat ≠ wrappedPrivateEpochFormatV1 then
    .error (.unsupportedWrapFormat material.wrapFormat)
  else if material.wrappedKey.length < wrapNonceLen then .error .invalidWrappedKeyLength
  else
    match prims.decrypt key (material.wrappedKey.take wrapNonceLen) (wrappedEpochAad persona epoch)
        (material.wrappedKey.drop wrapNonceLen) with
    | none => .error .decrypt
    | some secret => .ok secret

/-! ## Refreshing -/

def refreshPersona (key : Bytes32) (grant : DeviceGrantSet) (persona : PersonaId) :
    WalletProg Bool := do
  match grant.personas[persona]? with
  | none => return false
  | some certificate =>
    if !requiresEpochMaterial certificate then return false
    else
      let root ← Prog.read
      match loadCurrentPrivateEpoch root persona with
      | none => Prog.fail (.epochMissing persona)
      | some epoch => do
        -- The entries of the record that is there are cleared: the new one is all it holds.
        saveWrappedEpochRecord ⟨prims.certificateId certificate,
          [prims.wrapPrivateEpochMaterial persona epoch.epochId epoch.epochSecret key
            (draw.nonce device persona)]⟩
        return true

def refreshRemoteAuthPrivateReadGrant (rotated : List PersonaId) (device : DeviceId) :
    WalletProg (Option DeviceId) := do
  let root ← Prog.read
  match loadRemoteAuthWrappingKey root device with
  | none => return none
  | some key =>
    let grant := loadDeviceGrantSet root device
    if grant.isEmpty then return none
    else if !grant.certificates.all (·.verify) then Prog.fail (.certificatesUnverified device)
    else do
      let changed ← Prog.each (prims.refreshPersona draw device key grant) rotated
      return if changed.any id then some device else none

def remainingDevices : List DeviceId :=
  ((roster.devices.filter fun record => record.mode = .remoteAuth).filter fun record =>
    record.deviceId ∉ roster.revoked).map (·.deviceId)

def refreshRemoteAuthPrivateReadGrants (rotated : List PersonaId) :
    WalletProg (List DeviceId) := do
  if rotated.isEmpty then return []
  else
    let root ← Prog.read
    match root .identitySeed with
    | none => Prog.fail .seedMissing
    | some _ => do
      let refreshed ← Prog.each (prims.refreshRemoteAuthPrivateReadGrant draw rotated)
        (remainingDevices (rosterOf root))
      return refreshed.filterMap id

/-! ## Revoking -/

structure RemoteAuthRevocationOutcome where
  deviceId : DeviceId
  alreadyRevoked : Bool
  rotatedPersonas : List PersonaId
  refreshedDevices : List DeviceId
  statements : List SignedDelegationRevocation

/-- The persona's private epochs were shared with the holder of the certificate. -/
def exposed (root : DataRoot) (certificate : SignedDelegationCertificate) : Bool :=
  requiresEpochMaterial certificate &&
    (loadWrappedEpochRecord root (prims.certificateId certificate)).any (!·.epochs.isEmpty)

def cutWallet (rotates : Bool) (wallet : PersonaWalletManifest) : PersonaWalletManifest :=
  { wallet with
    capabilitySlots := (clearSlot wallet.capabilitySlots device).1
    privateEpochHead :=
      if rotates then draw.epoch wallet.personaId else wallet.privateEpochHead }

/-- One persona of `revoke_persona_grant_access`: itself if it was given a new epoch. -/
def revokePersona (entry : PersonaId × SignedDelegationCertificate) :
    WalletProg (Option PersonaId) := do
  let root ← Prog.read
  match loadPersonaWallet root entry.1 with
  | none => Prog.fail (.personaWalletMissing entry.1)
  | some wallet => do
    let rotates := prims.exposed root entry.2
    removeWrappedEpochRecord (prims.certificateId entry.2)
    Prog.when ((clearSlot wallet.capabilitySlots device).2 || rotates)
      (savePersonaWallet (cutWallet draw device rotates wallet))
    Prog.when rotates
      (ensurePersonaEpochBridge entry.1 (draw.epoch entry.1) (draw.secret entry.1))
    return if rotates then some entry.1 else none

def revokePersonaGrantAccess (grant : DeviceGrantSet) :
    WalletProg (List PersonaId) := do
  let rotated ← Prog.each (prims.revokePersona draw device) grant.personas.toList
  return rotated.filterMap id

/-- What is checked before anything is written: the statements to fold and the seed. -/
def prepareRevocation (root : DataRoot) (device : DeviceId) :
    Except WalletError (List SignedDelegationRevocation) :=
  let grant := loadDeviceGrantSet root device
  if grant.isEmpty then .error (.grantMissing device)
  else if !grant.certificates.all (·.verify) then .error .grantUnverified
  else
    match (rosterOf root).devices.find? fun record => record.deviceId = device with
    | none => .error (.rosterMissing device)
    | some record =>
      if record.mode = .copy then .error (.copyMode device)
      else
        match root .identitySeed with
        | none => .error .seedMissing
        | some seed => (prims.revokeDeviceGrantSet seed grant).mapError .delegation

def revokedRoster : DeviceRoster :=
  if device ∈ roster.revoked then roster
  else { roster with revoked := roster.revoked ++ [device] }

/-- The statements are the record; the roster and the identity wallet follow them. -/
def withdrawDevice (roster : DeviceRoster) (device : DeviceId)
    (statements : List SignedDelegationRevocation) : WalletProg Unit := do
  saveRevocations statements
  Prog.when (device ∉ roster.revoked)
    (Prog.put ⟨.deviceRoster, some (revokedRoster roster device)⟩)
  let root ← Prog.read
  Prog.put ⟨.identityWallet, some { identityWalletOf root with
    deviceRosterRef := some (prims.deviceRosterRef (revokedRoster roster device)) }⟩

def revokeRemoteAuthDevice :
    WalletProg RemoteAuthRevocationOutcome := do
  let root ← Prog.read
  let grant := loadDeviceGrantSet root device
  let statements ← Prog.ofExcept (prims.prepareRevocation root device)
  prims.withdrawDevice (rosterOf root) device statements
  let rotated ← prims.revokePersonaGrantAccess draw device grant
  removeRemoteAuthWrappingKey device
  let refreshed ← prims.refreshRemoteAuthPrivateReadGrants draw rotated
  return ⟨device, decide (device ∈ (rosterOf root).revoked), rotated, refreshed, statements⟩

end WalletPrimitives

/-! ## A plain choice of them -/

/-- Keys that are their seeds, and a cipher that hides nothing. -/
def plainPrimitives : WalletPrimitives where
  digest certificate :=
    Fin.ofNat _ (certificate.issuer.val * 2 ^ 128 + certificate.nonce.val)
  publicKey seed := seed
  personaSeed seed persona := Fin.ofNat _ (seed.val * 1000 + persona.val)
  hash bytes := Fin.ofNat _ bytes.length
  rosterBytes roster := roster.devices.map fun _ => 0
  blind key aad := Fin.ofNat _ (aad.foldl (fun n byte => n * 256 + byte.toNat) key.val)
  encrypt _ _ _ message := message
  decrypt _ _ _ message := some message

def blankNonce : WrapNonce := ⟨List.replicate 24 0, rfl⟩

end Mere.Pandect
