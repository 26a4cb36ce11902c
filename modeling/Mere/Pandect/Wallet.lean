import Mere.Base.Files
import Mere.Base.Upsert
import Mere.Notochord.Chain

/-!
# The files of a wallet

From `crates/system/pandect/src/wallet_store` and `crates/dramatis/personae/src/carry`. Key
derivation, the cipher and the hashes are functions that are given.
-/

namespace Mere.Pandect

open Personae Notochord List Option

/-! ## Names -/

abbrev DeviceId := Fin (2 ^ 128)

abbrev PersonaId := Fin (2 ^ 128)

abbrev KeyEpochId := Fin (2 ^ 128)

abbrev CarryRef := Bytes32

abbrev DevicePublicKey := Bytes32

/-- The 16 bytes of a uuid, first byte first. -/
def uuidBytes (id : Fin (2 ^ 128)) : List UInt8 :=
  (List.range 16).map fun i => UInt8.ofNat (id.val / 256 ^ (15 - i))

def uuidOfBytes (bytes : List UInt8) : Option (Fin (2 ^ 128)) :=
  if bytes.length = 16 then
    some (Fin.ofNat (2 ^ 128) (bytes.foldl (fun n byte => n * 256 + byte.toNat) 0))
  else none

/-! ## Records -/

inductive DeviceMode where
  | copy
  | remoteAuth
deriving DecidableEq

inductive DeviceExposure where
  | hiddenClient
  | exposedEgress

inductive CarriagePolicy where
  | none
  | leased (maxTtlMs : Nat) (graph : Bytes32)

structure DeviceRecord where
  deviceId : DeviceId
  devicePubkey : DevicePublicKey
  label : Str
  mode : DeviceMode
  exposure : DeviceExposure
  carriage : CarriagePolicy := .none
  grantRef : Option CarryRef

structure DeviceRoster where
  devices : List DeviceRecord := []
  revoked : List DeviceId := []

structure DeviceGrantRef where
  deviceId : DeviceId
  grantRef : Option CarryRef

structure IdentityWalletManifest where
  deviceRosterRef : Option CarryRef := none
  personas : List PersonaId := []
  grantIndex : List DeviceGrantRef := []

/-- A slot of the wallet's own, or the one that a device occupies: `device-grant:<device>`. -/
inductive SlotId where
  | named (text : Str)
  | deviceGrant (device : DeviceId)
deriving DecidableEq

structure CapabilitySlotRef where
  slotId : SlotId
  grantRef : Option CarryRef
deriving DecidableEq

structure PersonaWalletManifest where
  personaId : PersonaId
  chainRoot : Bytes32
  privateEpochHead : KeyEpochId
  /-- The refs into the persona's lanes and its epoch history, which no grant touches. -/
  roots : Str := []
  capabilitySlots : List CapabilitySlotRef := []
deriving DecidableEq

structure PrivateEpochRecord where
  epochId : KeyEpochId
  epochSecret : Str

structure PersonaEpochBridge where
  personaId : PersonaId
  epochs : List PrivateEpochRecord := []

def PersonaEpochBridge.secret (bridge : PersonaEpochBridge) (epoch : KeyEpochId) : Option Str :=
  (bridge.epochs.find? (·.epochId = epoch)).map (·.epochSecret)

structure RemoteAuthWrappingKeyRecord where
  deviceId : DeviceId
  ticketId : Option (Fin (2 ^ 128))
  wrappingKey : Bytes32

structure LocalDeviceIdentity where
  deviceId : DeviceId
  deviceSeed : Bytes32
  label : Str

structure WrappedEpochMaterial where
  index : Bytes32
  wrapFormat : Str
  wrappedKey : Str
deriving DecidableEq

structure WrappedEpochRecord where
  certificate : Bytes32
  epochs : List WrappedEpochMaterial := []
deriving DecidableEq

/-- Every certificate one device grant comprises. -/
structure DeviceGrantSet where
  device : Option SignedDelegationCertificate := none
  personas : OrdMap PersonaId SignedDelegationCertificate := ∅

namespace DeviceGrantSet

variable (set : DeviceGrantSet)

def certificates : List SignedDelegationCertificate := set.device.toList ++ OrdMap.vals set.personas

def isEmpty : Bool := set.device.isNone && set.personas.isEmpty

end DeviceGrantSet

/-! ## Files -/

inductive File where
  | identitySeed
  | identityWallet
  | deviceRoster
  | localDevice
  | wrappingKeys
  | revocations
  /-- `grants/<device>/device.cert`. -/
  | deviceCert (device : DeviceId)
  /-- The files `grants/<device>/<persona>.cert`. -/
  | personaCerts (device : DeviceId)
  | epochRecord (certificate : Bytes32)
  | personaWallet (persona : PersonaId)
  | epochBridge (persona : PersonaId)
deriving DecidableEq

/-- What a file can hold. One that is named after what is in it holds nothing else. -/
abbrev File.Content : File → Type
  | .identitySeed => Bytes32
  | .identityWallet => IdentityWalletManifest
  | .deviceRoster => DeviceRoster
  | .localDevice => LocalDeviceIdentity
  | .wrappingKeys => List RemoteAuthWrappingKeyRecord
  | .revocations => List RevocationRecord
  | .deviceCert _ => SignedDelegationCertificate
  | .personaCerts _ => OrdMap PersonaId SignedDelegationCertificate
  | .epochRecord certificate => { record : WrappedEpochRecord // record.certificate = certificate }
  | .personaWallet persona => { wallet : PersonaWalletManifest // wallet.personaId = persona }
  | .epochBridge persona => { bridge : PersonaEpochBridge // bridge.personaId = persona }

abbrev DataRoot := Files File.Content

abbrev DataPut := Put File.Content

inductive DelegationError where
  | malformedCertificate
  | malformedRevocation
  | wrongIssuer
deriving DecidableEq

inductive WrappedEpochError where
  | wrongEntry
  | unsupportedWrapFormat (format : Str)
  | invalidWrappedKeyLength
  | decrypt
deriving DecidableEq

inductive WalletError where
  | personaWalletMissing (persona : PersonaId)
  | carriageUnauthorized
  | epochUnauthorized (persona : PersonaId)
  | privateReadNeedsWrapped
  | privateReadNeedsPlaintext
  | deviceRevoked (device : DeviceId)
  | seedMissing
  | expiryMissing
  | expiryBeforeIssue (expires issued : Nat)
  | delegation (error : DelegationError)
  | emptyPairingSecret
  | ticketExpired (ticket : Fin (2 ^ 128))
  | grantMissing (device : DeviceId)
  | grantUnverified
  | certificatesUnverified (device : DeviceId)
  | rosterMissing (device : DeviceId)
  | copyMode (device : DeviceId)
  | epochMissing (persona : PersonaId)
  | noGrantCertificates
  | bundleUnverified
  | localDeviceMissing
  | otherDevice (device localDevice : DeviceId)
  | noDevice
  | otherSubject
  | grantExpired (device : DeviceId)
  | personasDiffer
  | wrappingKeyNeeded
  | epochUnopened (error : WrappedEpochError)
deriving DecidableEq

abbrev WalletProg := Prog DataRoot WalletError

/-! ## Reading -/

section Reading

variable (root : DataRoot)

def rosterOf : DeviceRoster := (root .deviceRoster).getD {}

def identityWalletOf : IdentityWalletManifest := (root .identityWallet).getD {}

variable (persona : PersonaId)

def loadPersonaWallet : Option PersonaWalletManifest :=
  (root (.personaWallet persona)).map Subtype.val

def loadPersonaEpochBridge : Option PersonaEpochBridge :=
  (root (.epochBridge persona)).map Subtype.val

def bridgeOf : PersonaEpochBridge :=
  (loadPersonaEpochBridge root persona).getD ⟨persona, []⟩

def loadWrappedEpochRecord (certificate : Bytes32) : Option WrappedEpochRecord :=
  (root (.epochRecord certificate)).map Subtype.val

variable (device : DeviceId)

def personaCertsOf : OrdMap PersonaId SignedDelegationCertificate :=
  (root (.personaCerts device)).getD ∅

def loadDeviceGrantSet : DeviceGrantSet :=
  ⟨root (.deviceCert device), personaCertsOf root device⟩

def loadCurrentPrivateEpoch : Option PrivateEpochRecord := do
  let wallet ← loadPersonaWallet root persona
  let bridge ← loadPersonaEpochBridge root persona
  bridge.epochs.find? fun epoch => epoch.epochId = wallet.privateEpochHead

def loadRemoteAuthWrappingKey : Option Bytes32 :=
  (((root .wrappingKeys).getD []).find? (·.deviceId = device)).map (·.wrappingKey)

end Reading

/-! ## Writing -/

def personaWalletPut (wallet : PersonaWalletManifest) : DataPut :=
  ⟨.personaWallet wallet.personaId, some ⟨wallet, rfl⟩⟩

def epochBridgePut (bridge : PersonaEpochBridge) : DataPut :=
  ⟨.epochBridge bridge.personaId, some ⟨bridge, rfl⟩⟩

def epochRecordPut (record : WrappedEpochRecord) : DataPut :=
  ⟨.epochRecord record.certificate, some ⟨record, rfl⟩⟩

def savePersonaWallet (wallet : PersonaWalletManifest) : WalletProg Unit :=
  .put (personaWalletPut wallet)

def savePersonaEpochBridge (bridge : PersonaEpochBridge) : WalletProg Unit :=
  .put (epochBridgePut bridge)

def saveWrappedEpochRecord (record : WrappedEpochRecord) : WalletProg Unit :=
  .put (epochRecordPut record)

def forgetRecordPut (certificate : Bytes32) : DataPut := ⟨.epochRecord certificate, none⟩

/-- A record that is not there is not removed. -/
def removeWrappedEpochRecord (certificate : Bytes32) : WalletProg Unit := do
  let root ← Prog.read
  Prog.when (root (.epochRecord certificate)).isSome (Prog.put (forgetRecordPut certificate))

variable (device : DeviceId)

def saveDeviceCertificate (persona : PersonaId) (certificate : SignedDelegationCertificate) :
    WalletProg Unit := do
  let root ← Prog.read
  Prog.put ⟨.personaCerts device, some ((personaCertsOf root device).insert persona certificate)⟩

def saveDeviceGrantSet (set : DeviceGrantSet) : WalletProg Unit := do
  Prog.forEach (fun certificate => Prog.put ⟨.deviceCert device, some certificate⟩)
    set.device.toList
  Prog.forEach (fun entry => saveDeviceCertificate device entry.1 entry.2) set.personas.toList

def ensurePersonaEpochBridge (persona : PersonaId) (epochId : KeyEpochId) (secret : Str) :
    WalletProg Unit := do
  let root ← Prog.read
  let bridge := bridgeOf root persona
  Prog.when (bridge.secret epochId = none)
    (savePersonaEpochBridge { bridge with epochs := bridge.epochs ++ [⟨epochId, secret⟩] })

def staged (bridge : PersonaEpochBridge) (epochId : KeyEpochId) (secret : Str) :
    PersonaEpochBridge :=
  { bridge with
    epochs := upsert (·.epochId = epochId) (fun epoch => { epoch with epochSecret := secret })
      ⟨epochId, secret⟩ bridge.epochs }

def stagePersonaPrivateEpoch (persona : PersonaId) (epochId : KeyEpochId) (secret : Str) :
    WalletProg Unit := do
  let root ← Prog.read
  let bridge := bridgeOf root persona
  Prog.when (bridge.secret epochId ≠ some secret)
    (savePersonaEpochBridge (staged bridge epochId secret))

def removeRemoteAuthWrappingKey : WalletProg Unit := do
  let root ← Prog.read
  let keys := (root .wrappingKeys).getD []
  let kept := keys.filter fun known => known.deviceId ≠ device
  Prog.when (kept.length ≠ keys.length) (Prog.put ⟨.wrappingKeys, some kept⟩)

def saveRevocations (statements : List SignedDelegationRevocation) : WalletProg Unit := do
  let root ← Prog.read
  let (accepted, ledger) := foldRevocations (root .revocations) statements
  Prog.when (0 < accepted) (Prog.put ⟨.revocations, ledger⟩)

def ledgerOf (root : DataRoot) : RevocationLedger := loadRevocationLedger (root .revocations)

/-! ## Staging -/

variable {bridge : PersonaEpochBridge} {epoch : KeyEpochId} {secret : Str}
  {epochs : List PrivateEpochRecord} {certificate : Bytes32}

theorem staged_eq_self
    (h : bridge.secret epoch = some secret) : staged bridge epoch secret = bridge := by
  obtain ⟨record, hfind, hsecret⟩ := map_eq_some_iff.mp h
  unfold staged
  rw [upsert_eq_self hfind]
  rw [← hsecret]

theorem staged_staged {secret' : Str} :
    staged (staged bridge epoch secret) epoch secret' = staged bridge epoch secret' := by
  exact congrArg (PersonaEpochBridge.mk bridge.personaId)
    (upsert_upsert (fun _ => rfl) (fun _ => rfl) (decide_eq_true rfl) rfl)

theorem staged_comm {epoch' : KeyEpochId}
    {secret' : Str} (hne : epoch ≠ epoch') (h : (bridge.secret epoch).isSome) :
    staged (staged bridge epoch secret) epoch' secret' =
      staged (staged bridge epoch' secret') epoch secret := by
  have hany : (bridge.epochs.any fun known => known.epochId = epoch) = true := by
    simpa [PersonaEpochBridge.secret] using h
  refine congrArg (PersonaEpochBridge.mk bridge.personaId)
    (upsert_comm hany (fun known hknown => ?_) (fun _ => rfl) fun _ => rfl)
  exact decide_eq_false fun h' => hne ((of_decide_eq_true hknown).symm.trans h')

theorem secret_staged :
    (staged bridge epoch secret).secret epoch = some secret := by
  have hfind : (staged bridge epoch secret).epochs.find? (·.epochId = epoch) =
      some ((bridge.epochs.find? (·.epochId = epoch)).elim ⟨epoch, secret⟩
        fun known => { known with epochSecret := secret }) := by
    apply find?_upsert
    · exact fun _ => rfl
    · exact decide_eq_true rfl
  unfold PersonaEpochBridge.secret
  rw [hfind]
  cases bridge.epochs.find? fun known => decide (known.epochId = epoch) <;> rfl

theorem secret_staged_other {epoch' : KeyEpochId} (hne : epoch' ≠ epoch) :
    (staged bridge epoch secret).secret epoch' = bridge.secret epoch' := by
  have hother : ∀ known : PrivateEpochRecord, decide (known.epochId = epoch) = true →
      decide (known.epochId = epoch') = false := by
    intro known hknown
    exact decide_eq_false fun h' => hne (h'.symm.trans (of_decide_eq_true hknown))
  have hfind : (staged bridge epoch secret).epochs.find? (·.epochId = epoch') =
      bridge.epochs.find? (·.epochId = epoch') := by
    apply find?_upsert_other
    · exact hother
    · exact hother
    · exact decide_eq_false hne.symm
  unfold PersonaEpochBridge.secret
  rw [hfind]

def stagedAll (bridge : PersonaEpochBridge) (epochs : List PrivateEpochRecord) :
    PersonaEpochBridge :=
  epochs.foldl (fun bridge epoch => staged bridge epoch.epochId epoch.epochSecret) bridge

/-- The secret that comes last for an epoch. -/
def lastSecret (epochs : List PrivateEpochRecord) (epoch : KeyEpochId) : Option Str :=
  (epochs.reverse.find? (·.epochId = epoch)).map (·.epochSecret)

theorem lastSecret_append {record : PrivateEpochRecord} : lastSecret (epochs ++ [record]) epoch =
      if record.epochId = epoch then some record.epochSecret else lastSecret epochs epoch := by
  unfold lastSecret
  by_cases h : record.epochId = epoch <;> simp [h]

theorem secret_stagedAll :
    (stagedAll bridge epochs).secret epoch =
      (lastSecret epochs epoch).or (bridge.secret epoch) := by
  induction epochs using List.reverseRecOn with
  | nil => rfl
  | append_singleton epochs record ih =>
    rw [lastSecret_append]
    unfold stagedAll
    rw [foldl_append]
    change (staged (stagedAll bridge epochs) _ _).secret epoch = _
    by_cases h : record.epochId = epoch
    · rw [if_pos h, h, secret_staged]
      rfl
    · rw [if_neg h, secret_staged_other (Ne.symm h), ih]

theorem stagedAll_staged (hlater : ∃ record ∈ epochs, record.epochId = epoch)
    (h : (bridge.secret epoch).isSome) :
    stagedAll (staged bridge epoch secret) epochs = stagedAll bridge epochs := by
  induction epochs generalizing bridge with
  | nil =>
    obtain ⟨record, hrecord, -⟩ := hlater
    exact absurd hrecord not_mem_nil
  | cons record epochs ih =>
    change stagedAll (staged (staged bridge epoch secret) record.epochId record.epochSecret)
      epochs = stagedAll (staged bridge record.epochId record.epochSecret) epochs
    by_cases hsame : record.epochId = epoch
    · rw [hsame, staged_staged]
    · rw [staged_comm (Ne.symm hsame) h]
      refine ih ?_ ?_
      · obtain ⟨later, hmem, hepoch⟩ := hlater
        rcases mem_cons.mp hmem with rfl | hmem
        · exact absurd hepoch hsame
        · exact ⟨later, hmem, hepoch⟩
      · rwa [secret_staged_other (Ne.symm hsame)]

theorem stagedAll_eq_self
    (h : ∀ epoch secret, lastSecret epochs epoch = some secret →
      bridge.secret epoch = some secret) : stagedAll bridge epochs = bridge := by
  induction epochs with
  | nil => rfl
  | cons record epochs ih =>
    change stagedAll (staged bridge record.epochId record.epochSecret) epochs = bridge
    have hcons : ∀ epoch secret, lastSecret epochs epoch = some secret →
        lastSecret (record :: epochs) epoch = some secret := by
      intro epoch secret hlast
      unfold lastSecret at hlast ⊢
      rw [reverse_cons, find?_append]
      obtain ⟨found, hfound, rfl⟩ := map_eq_some_iff.mp hlast
      rw [hfound]
      rfl
    have hrest : stagedAll bridge epochs = bridge := ih fun epoch secret hlast =>
      h epoch secret (hcons epoch secret hlast)
    by_cases hlater : ∃ later ∈ epochs, later.epochId = record.epochId
    · have hsome : (lastSecret epochs record.epochId).isSome := by
        obtain ⟨later, hmem, hepoch⟩ := hlater
        simp only [lastSecret, isSome_map, find?_isSome, mem_reverse]
        exact ⟨later, hmem, decide_eq_true hepoch⟩
      obtain ⟨secret, hsecret⟩ := isSome_iff_exists.mp hsome
      rw [stagedAll_staged hlater, hrest]
      rw [h _ _ (hcons _ _ hsecret)]
      rfl
    · rw [staged_eq_self, hrest]
      apply h
      have hnone : epochs.reverse.find? (·.epochId = record.epochId) = none := by
        rw [find?_eq_none]
        intro later hmem hepoch
        exact hlater ⟨later, mem_reverse.mp hmem, of_decide_eq_true hepoch⟩
      unfold lastSecret
      rw [reverse_cons, find?_append, hnone]
      simp

/-! ## What a write changes -/

section Puts

variable {root : DataRoot}
variable {wallet : PersonaWalletManifest} {persona : PersonaId} {record : WrappedEpochRecord}

theorem loadPersonaWallet_put
    (h : wallet.personaId = persona) :
    loadPersonaWallet (root.put (personaWalletPut wallet)) persona = some wallet := by
  subst h
  simp [loadPersonaWallet, personaWalletPut]

theorem loadPersonaWallet_put_other (h : wallet.personaId ≠ persona) :
    loadPersonaWallet (root.put (personaWalletPut wallet)) persona =
      loadPersonaWallet root persona := by
  unfold loadPersonaWallet
  rw [Files.put_other fun hfile => h (File.personaWallet.inj hfile).symm]

theorem loadPersonaEpochBridge_put {bridge : PersonaEpochBridge}
    (h : bridge.personaId = persona) :
    loadPersonaEpochBridge (root.put (epochBridgePut bridge)) persona = some bridge := by
  subst h
  simp [loadPersonaEpochBridge, epochBridgePut]

theorem loadWrappedEpochRecord_put (h : record.certificate = certificate) :
    loadWrappedEpochRecord (root.put (epochRecordPut record)) certificate = some record := by
  subst h
  simp [loadWrappedEpochRecord, epochRecordPut]

theorem loadWrappedEpochRecord_put_other (h : record.certificate ≠ certificate) :
    loadWrappedEpochRecord (root.put (epochRecordPut record)) certificate =
      loadWrappedEpochRecord root certificate := by
  unfold loadWrappedEpochRecord
  rw [Files.put_other fun hfile => h (File.epochRecord.inj hfile).symm]

theorem loadPersonaWallet_personaId
    (h : loadPersonaWallet root persona = some wallet) : wallet.personaId = persona := by
  obtain ⟨stored, -, rfl⟩ := map_eq_some_iff.mp h
  exact stored.2

theorem bridgeOf_personaId : (bridgeOf root persona).personaId = persona := by
  unfold bridgeOf loadPersonaEpochBridge
  cases root (.epochBridge persona) with
  | none => rfl
  | some stored => exact stored.2

theorem loadPersonaEpochBridge_of_secret {epoch : KeyEpochId} {secret : Str}
    (h : (bridgeOf root persona).secret epoch = some secret) :
    loadPersonaEpochBridge root persona = some (bridgeOf root persona) := by
  unfold bridgeOf at h ⊢
  cases hload : loadPersonaEpochBridge root persona with
  | none =>
    rw [hload] at h
    cases h
  | some bridge => rfl

end Puts

/-! ## What the saves come to -/

section Saves

variable {root : DataRoot}

theorem removeWrappedEpochRecord_does :
    (removeWrappedEpochRecord certificate).Does root
      (if (root (.epochRecord certificate)).isSome then [forgetRecordPut certificate] else [])
      (.ok ()) :=
  .read (.when fun _ => .put)

def certPuts (device : DeviceId) :
    OrdMap PersonaId SignedDelegationCertificate → List (PersonaId × SignedDelegationCertificate) →
      List DataPut
  | _, [] => []
  | certs, entry :: entries =>
    ⟨.personaCerts device, some (certs.insert entry.1 entry.2)⟩ ::
      certPuts device (certs.insert entry.1 entry.2) entries

def grantPuts (root : DataRoot) (device : DeviceId) (set : DeviceGrantSet) : List DataPut :=
  set.device.toList.map (fun certificate => ⟨.deviceCert device, some certificate⟩) ++
    certPuts device (personaCertsOf root device) set.personas.toList

variable {device : DeviceId} {entries : List (PersonaId × SignedDelegationCertificate)}
  {w : DataPut} {set : DeviceGrantSet}

theorem certPuts_file {certs : OrdMap PersonaId SignedDelegationCertificate}
    (hw : w ∈ certPuts device certs entries) : w.file = .personaCerts device := by
  induction entries generalizing certs with
  | nil => exact absurd hw not_mem_nil
  | cons entry entries ih =>
    rcases mem_cons.mp hw with rfl | hw
    · rfl
    · exact ih hw

theorem grantPuts_file
    (hw : w ∈ grantPuts root device set) :
    w.file = .deviceCert device ∨ w.file = .personaCerts device := by
  rcases mem_append.mp hw with hw | hw
  · obtain ⟨certificate, -, rfl⟩ := mem_map.mp hw
    exact .inl rfl
  · exact .inr (certPuts_file hw)

theorem saveDeviceCertificates_does {device : DeviceId}
    {entries : List (PersonaId × SignedDelegationCertificate)} :
    (Prog.forEach (fun entry => saveDeviceCertificate device entry.1 entry.2) entries).Does root
      (certPuts device (personaCertsOf root device) entries) (.ok ()) := by
  induction entries generalizing root with
  | nil => exact .pure
  | cons entry entries ih =>
    have hput : (saveDeviceCertificate device entry.1 entry.2).Does root
        [⟨.personaCerts device, some ((personaCertsOf root device).insert entry.1 entry.2)⟩]
        (.ok ()) := .read .put
    have hafter : personaCertsOf (root.puts [⟨.personaCerts device,
        some ((personaCertsOf root device).insert entry.1 entry.2)⟩]) device =
        (personaCertsOf root device).insert entry.1 entry.2 := by
      simp [personaCertsOf]
    have hrest := @ih (root.puts [⟨.personaCerts device,
      some ((personaCertsOf root device).insert entry.1 entry.2)⟩])
    rw [hafter] at hrest
    exact .bind hput hrest

theorem personaCertsOf_deviceCerts {device : DeviceId}
    {certificates : List SignedDelegationCertificate} :
    personaCertsOf (root.puts (certificates.map fun certificate =>
      (⟨.deviceCert device, some certificate⟩ : DataPut))) device = personaCertsOf root device := by
  unfold personaCertsOf
  rw [Files.puts_other]
  intro w hw
  obtain ⟨certificate, -, rfl⟩ := mem_map.mp hw
  exact nofun

theorem saveDeviceGrantSet_does :
    (saveDeviceGrantSet device set).Does root (grantPuts root device set) (.ok ()) := by
  have hdevice : (Prog.forEach (fun certificate =>
      Prog.put ⟨.deviceCert device, some certificate⟩) set.device.toList : WalletProg Unit).Does
      root (set.device.toList.flatMap fun certificate => [⟨.deviceCert device, some certificate⟩])
      (.ok ()) := .forEach fun _ _ _ => .put
  rw [← map_eq_flatMap] at hdevice
  have hrest := @saveDeviceCertificates_does (root.puts (set.device.toList.map fun certificate =>
    (⟨.deviceCert device, some certificate⟩ : DataPut))) device set.personas.toList
  rw [personaCertsOf_deviceCerts] at hrest
  exact .bind hdevice hrest

/-! ## What is there after them -/

theorem deviceCert_grantPuts :
    root.puts (grantPuts root device set) (.deviceCert device) =
      set.device.or (root (.deviceCert device)) := by
  have hcerts : ∀ w ∈ certPuts device (personaCertsOf root device) set.personas.toList,
      w.file ≠ .deviceCert device := by
    intro w hw
    rw [certPuts_file hw]
    exact nofun
  rw [grantPuts, Files.puts_append, Files.puts_other hcerts]
  cases set.device with
  | none => rfl
  | some certificate => exact Files.put_same

theorem personaCerts_certPuts :
    root.puts (certPuts device (personaCertsOf root device) entries) (.personaCerts device) =
      if entries = [] then root (.personaCerts device)
      else some ((personaCertsOf root device).insertMany entries) := by
  induction entries generalizing root with
  | nil => rfl
  | cons entry entries ih =>
    have hafter : personaCertsOf (root.put ⟨.personaCerts device,
        some ((personaCertsOf root device).insert entry.1 entry.2)⟩) device =
        (personaCertsOf root device).insert entry.1 entry.2 := by
      simp [personaCertsOf]
    have hrest := @ih (root.put ⟨.personaCerts device,
      some ((personaCertsOf root device).insert entry.1 entry.2)⟩)
    rw [hafter] at hrest
    rw [certPuts, Files.puts_cons, hrest, Std.ExtTreeMap.insertMany_cons]
    split
    · rename_i hnil
      rw [hnil]
      simp
    · rfl

theorem personaCerts_grantPuts :
    root.puts (grantPuts root device set) (.personaCerts device) =
      if set.personas.toList = [] then root (.personaCerts device)
      else some ((personaCertsOf root device).insertMany set.personas.toList) := by
  have hfile : root.puts (set.device.toList.map fun certificate =>
      (⟨.deviceCert device, some certificate⟩ : DataPut)) (.personaCerts device) =
      root (.personaCerts device) := by
    refine Files.puts_other fun w hw => ?_
    obtain ⟨certificate, -, rfl⟩ := mem_map.mp hw
    exact nofun
  have hcerts := @personaCertsOf_deviceCerts root device set.device.toList
  rw [grantPuts, Files.puts_append, ← hcerts, personaCerts_certPuts, hfile]

theorem personaCertsOf_grantPuts :
    personaCertsOf (root.puts (grantPuts root device set)) device =
      (personaCertsOf root device).insertMany set.personas.toList := by
  rw [personaCertsOf, personaCerts_grantPuts]
  split
  · rename_i hnil
    rw [hnil]
    simp [personaCertsOf]
  · rfl

end Saves

end Mere.Pandect
