import Mere.Notochord.Ledger
import Mere.Pandect.Grants

/-!
# What a revocation writes

In a wallet whose certificates verify, have ids of their own and belong to personas it knows, a
revocation that gets past its checks makes a list of writes that is known beforehand (`steps`).
-/

namespace Mere.Pandect

open Personae Notochord List Option Std.ExtTreeMap

/-! ## Wallets -/

/-- The certificate of a device for a persona, or the device's own. -/
def certAt (root : DataRoot) (device : DeviceId) : Option PersonaId →
    Option SignedDelegationCertificate
  | none => root (.deviceCert device)
  | some persona => (personaCertsOf root device)[persona]?

/-- What a wallet that issues its own grants keeps. -/
structure Sound (prims : WalletPrimitives) (root : DataRoot) : Prop where
  verified : ∀ device slot certificate, certAt root device slot = some certificate →
    certificate.verify = true
  present : ∀ device, ∀ persona ∈ personaCertsOf root device,
    (loadPersonaWallet root persona).isSome
  distinct : ∀ device device' slot slot' certificate certificate',
    certAt root device slot = some certificate → certAt root device' slot' = some certificate' →
    prims.certificateId certificate = prims.certificateId certificate' →
    device = device' ∧ slot = slot'

/-- The epochs and the secrets that are drawn are new. -/
structure Fresh (prims : WalletPrimitives) (root : DataRoot) (draw : Draw) : Prop where
  unstaged : ∀ persona, (bridgeOf root persona).secret (draw.epoch persona) = none
  ahead : ∀ persona wallet, loadPersonaWallet root persona = some wallet →
    wallet.privateEpochHead ≠ draw.epoch persona
  unwrapped : ∀ certificate record, loadWrappedEpochRecord root certificate = some record →
    ∀ material ∈ record.epochs, ∀ persona epoch key persona',
      prims.unwrapPrivateEpochMaterial material persona epoch key ≠ .ok (draw.secret persona')
  apart : Function.Injective draw.secret

/-! ## Steps -/

inductive RevocationStep where
  | ledger
  | roster
  | identity
  | forget (persona : PersonaId)
  | wallet (persona : PersonaId)
  | stage (persona : PersonaId)
  | key
  | refresh (device : DeviceId) (persona : PersonaId)
deriving DecidableEq

def RevocationStep.persona? : RevocationStep → Option PersonaId
  | .forget persona | .wallet persona | .stage persona | .refresh _ persona => some persona
  | .ledger | .roster | .identity | .key => none

namespace WalletPrimitives

variable (prims : WalletPrimitives) (root : DataRoot) (draw : Draw) (device : DeviceId)
  (persona : PersonaId) (statements : List SignedDelegationRevocation)

def idAt : Bytes32 :=
  (personaCertsOf root device)[persona]?.elim 0 prims.certificateId

def rotates : Bool :=
  (personaCertsOf root device)[persona]?.any (prims.exposed root)

def rotated : List PersonaId :=
  ((personaCertsOf root device).toList.filter fun entry => prims.exposed root entry.2).map (·.1)

def walletAt : PersonaWalletManifest :=
  (loadPersonaWallet root persona).getD ⟨persona, 0, 0, [], []⟩

def slotted : Bool :=
  (clearSlot (walletAt root persona).capabilitySlots device).2

def personaSteps (entry : PersonaId × SignedDelegationCertificate) : List RevocationStep :=
  (if (root (.epochRecord (prims.certificateId entry.2))).isSome then [.forget entry.1] else []) ++
    ((if slotted root device entry.1 || prims.exposed root entry.2 then [.wallet entry.1]
      else []) ++ (if prims.exposed root entry.2 then [.stage entry.1] else []))

/-- The device is given what is rotated: its key is retained and it may read. -/
def reads : Bool :=
  (loadRemoteAuthWrappingKey root device).isSome &&
    (personaCertsOf root device)[persona]?.any requiresEpochMaterial

def deviceSteps (rotated : List PersonaId) (device : DeviceId) : List RevocationStep :=
  rotated.flatMap fun persona => if reads root device persona then [.refresh device persona] else []

def keptKeys : List RemoteAuthWrappingKeyRecord :=
  ((root .wrappingKeys).getD []).filter fun known => known.deviceId ≠ device

def keySteps : List RevocationStep :=
  if (keptKeys root device).length ≠ ((root .wrappingKeys).getD []).length then [.key] else []

def openingSteps : List RevocationStep :=
  (if 0 < (foldRevocations (root .revocations) statements).1 then [.ledger] else []) ++
    ((if device ∉ (rosterOf root).revoked then [.roster] else []) ++ [.identity])

def refreshSteps : List RevocationStep :=
  (remainingDevices (revokedRoster (rosterOf root) device)).flatMap
    (deviceSteps root (prims.rotated root device))

def steps : List RevocationStep :=
  openingSteps root device statements ++
    ((personaCertsOf root device).toList.flatMap (prims.personaSteps root device) ++
      (keySteps root device ++ prims.refreshSteps root device))

def drawnBridge : PersonaEpochBridge :=
  { bridgeOf root persona with
    epochs := (bridgeOf root persona).epochs ++ [⟨draw.epoch persona, draw.secret persona⟩] }

def refreshed (device : DeviceId) (persona : PersonaId) : WrappedEpochMaterial :=
  prims.wrapPrivateEpochMaterial persona (draw.epoch persona) (draw.secret persona)
    ((loadRemoteAuthWrappingKey root device).getD 0) (draw.nonce device persona)

def stepPut : RevocationStep → DataPut
  | .ledger => ⟨.revocations, (foldRevocations (root .revocations) statements).2⟩
  | .roster => ⟨.deviceRoster, some (revokedRoster (rosterOf root) device)⟩
  | .identity => ⟨.identityWallet, some { identityWalletOf root with
      deviceRosterRef := some (prims.deviceRosterRef (revokedRoster (rosterOf root) device)) }⟩
  | .forget persona => forgetRecordPut (prims.idAt root device persona)
  | .wallet persona => personaWalletPut
      (cutWallet draw device (prims.rotates root device persona) (walletAt root persona))
  | .stage persona => epochBridgePut (drawnBridge root draw persona)
  | .key => ⟨.wrappingKeys, some (keptKeys root device)⟩
  | .refresh other persona =>
    epochRecordPut ⟨prims.idAt root other persona, [prims.refreshed root draw other persona]⟩

section Steps

variable {prims} {s : DataRoot} {root} {draw} {device}
  {statements : List SignedDelegationRevocation} {step : RevocationStep}
  {l : List RevocationStep} {persona : PersonaId}

theorem walletAt_personaId : (walletAt root persona).personaId = persona := by
  unfold walletAt
  cases h : loadPersonaWallet root persona with
  | none => rfl
  | some wallet => exact loadPersonaWallet_personaId h

/-! ## The file of a step -/

theorem personaWallet_step
    (h : (prims.stepPut root draw device statements step).file = .personaWallet persona) :
    step = .wallet persona := by
  cases step with
  | wallet other =>
    have hother : (walletAt root other).personaId = persona := File.personaWallet.inj h
    rw [walletAt_personaId] at hother
    rw [hother]
  | _ => cases h

theorem epochBridge_step
    (h : (prims.stepPut root draw device statements step).file = .epochBridge persona) :
    step = .stage persona := by
  cases step with
  | stage other =>
    have hother : (bridgeOf root other).personaId = persona := File.epochBridge.inj h
    rw [bridgeOf_personaId] at hother
    rw [hother]
  | _ => cases h

variable {certificate : Bytes32} {file : File} {other : DeviceId} {condition : Prop}
  {wallet : PersonaWalletManifest} {entry : PersonaId × SignedDelegationCertificate}
  {rotated : List PersonaId} {step' : RevocationStep}

theorem epochRecord_step
    (h : (prims.stepPut root draw device statements step).file = .epochRecord certificate) :
    (∃ persona, step = .forget persona ∧ prims.idAt root device persona = certificate) ∨
      ∃ other persona, step = .refresh other persona ∧
        prims.idAt root other persona = certificate := by
  cases step with
  | forget persona => exact .inl ⟨persona, rfl, File.epochRecord.inj h⟩
  | refresh other persona => exact .inr ⟨other, persona, rfl, File.epochRecord.inj h⟩
  | _ => cases h

theorem fixed_step (hfixed : step' = .ledger ∨ step' = .roster ∨ step' = .identity ∨ step' = .key)
    (h : (prims.stepPut root draw device statements step).file = (prims.stepPut root draw device statements step').file) :
    step = step' := by
  rcases hfixed with rfl | rfl | rfl | rfl <;> cases step <;> first | rfl | cases h

theorem grant_step :
    (prims.stepPut root draw device statements step).file ≠ .identitySeed ∧
      (prims.stepPut root draw device statements step).file ≠ .localDevice ∧
      (prims.stepPut root draw device statements step).file ≠ .deviceCert other ∧
      (prims.stepPut root draw device statements step).file ≠ .personaCerts other := by
  cases step <;> exact ⟨nofun, nofun, nofun, nofun⟩

theorem puts_steps_other
    (h : ∀ step ∈ l, (prims.stepPut root draw device statements step).file ≠ file) :
    s.puts (l.map (prims.stepPut root draw device statements)) file = s file := by
  refine Files.puts_other fun w hw => ?_
  obtain ⟨step, hstep, rfl⟩ := mem_map.mp hw
  exact h step hstep

theorem loadRemoteAuthWrappingKey_keptKeys {root s : DataRoot} {device : DeviceId}
    (hkeys : s .wrappingKeys = some (keptKeys root device) ∨
      s .wrappingKeys = root .wrappingKeys) (hother : other ≠ device) :
    loadRemoteAuthWrappingKey s other = loadRemoteAuthWrappingKey root other := by
  rcases hkeys with hkeys | hkeys
  · have hfind : (keptKeys root device).find? (·.deviceId = other) =
        ((root .wrappingKeys).getD []).find? (·.deviceId = other) := by
      unfold keptKeys
      rw [find?_filter]
      congr 1
      funext known
      by_cases h : known.deviceId = other <;> simp [h, hother]
    unfold loadRemoteAuthWrappingKey
    rw [hkeys, getD_some, hfind]
  · rw [loadRemoteAuthWrappingKey, hkeys, loadRemoteAuthWrappingKey]

theorem map_if_singleton {A B : Type} {f : A → B} {a : A}
    [Decidable condition] :
    (if condition then [a] else []).map f = if condition then [f a] else [] := by
  split <;> rfl

theorem mem_if_singleton {A : Type} {a b : A} [Decidable condition] :
    b ∈ (if condition then [a] else []) ↔ condition ∧ b = a := by
  split <;> simp [*]

/-! ## What the parts do -/

theorem withdrawDevice_does :
    (prims.withdrawDevice (rosterOf root) device statements).Does root
      ((openingSteps root device statements).map (prims.stepPut root draw device statements))
      (.ok ()) := by
  unfold openingSteps
  simp only [map_append, map_if_singleton]
  have hidentity : ∀ ws : List DataPut, (∀ w ∈ ws, w.file ≠ .identityWallet) →
      identityWalletOf (root.puts ws) = identityWalletOf root := by
    intro ws hws
    rw [identityWalletOf, Files.puts_other hws, identityWalletOf]
  refine .bind (.read (.when fun _ => .put)) (.bind (.when fun _ => .put) (.read ?_))
  rw [← Files.puts_append, hidentity]
  · exact .put
  · intro w hw
    rcases mem_append.mp hw with hw | hw
    all_goals
      rw [(mem_if_singleton.mp hw).2]
      exact nofun

theorem revokePersona_does {certificate : SignedDelegationCertificate}
    (hcert : (personaCertsOf root device)[persona]? = some certificate)
    (hwallet : loadPersonaWallet root persona = some wallet)
    (hsame : s (.personaWallet persona) = root (.personaWallet persona))
    (hrecord : s (.epochRecord (prims.certificateId certificate)) =
      root (.epochRecord (prims.certificateId certificate)))
    (hbridge : s (.epochBridge persona) = root (.epochBridge persona))
    (hfresh : (bridgeOf root persona).secret (draw.epoch persona) = none) :
    (prims.revokePersona draw device (persona, certificate)).Does s
      ((prims.personaSteps root device (persona, certificate)).map
        (prims.stepPut root draw device statements))
      (.ok (if prims.exposed root certificate then some persona else none)) := by
  have hload : loadPersonaWallet s persona = some wallet := by
    rw [loadPersonaWallet, hsame, ← loadPersonaWallet, hwallet]
  have hexposed : prims.exposed s certificate = prims.exposed root certificate := by
    unfold exposed loadWrappedEpochRecord
    rw [hrecord]
  have hid : prims.idAt root device persona = prims.certificateId certificate := by
    rw [idAt, hcert]
    rfl
  have hrotates : prims.rotates root device persona = prims.exposed root certificate := by
    rw [rotates, hcert]
    rfl
  have hat : walletAt root persona = wallet := by
    rw [walletAt, hwallet]
    rfl
  have hbridgeOf : ∀ ws : List DataPut, (∀ w ∈ ws, w.file ≠ .epochBridge persona) →
      bridgeOf (s.puts ws) persona = bridgeOf root persona := by
    intro ws hws
    rw [bridgeOf, loadPersonaEpochBridge, Files.puts_other hws, hbridge]
    rfl
  unfold personaSteps slotted
  simp only [map_append, map_if_singleton, stepPut, hid, hrotates, hat]
  refine .read ?_
  rw [hload]
  have hremove := @removeWrappedEpochRecord_does (prims.certificateId certificate) s
  rw [hrecord] at hremove
  rw [hexposed]
  refine .bind hremove (.bind (.when fun _ => .put) ?_)
  rw [← append_nil (if prims.exposed root certificate = true then [_] else [])]
  refine .bind (.when fun _ => .read ?_) .pure
  rw [← Files.puts_append, hbridgeOf]
  · exact .when_true hfresh .put
  · intro w hw
    rcases mem_append.mp hw with hw | hw
    all_goals simp [(mem_if_singleton.mp hw).2, forgetRecordPut, personaWalletPut]

theorem mem_personaSteps :
    step ∈ prims.personaSteps root device entry ↔
      ((root (.epochRecord (prims.certificateId entry.2))).isSome ∧ step = .forget entry.1) ∨
      ((slotted root device entry.1 || prims.exposed root entry.2) ∧ step = .wallet entry.1) ∨
      (prims.exposed root entry.2 ∧ step = .stage entry.1) := by
  unfold personaSteps
  rw [mem_append, mem_append, mem_if_singleton, mem_if_singleton, mem_if_singleton]

theorem persona?_of_mem_personaSteps (h : step ∈ prims.personaSteps root device entry) :
    step.persona? = some entry.1 := by
  rcases mem_personaSteps.mp h with ⟨-, rfl⟩ | ⟨-, rfl⟩ | ⟨-, rfl⟩ <;> rfl

theorem idAt_of_mem
    (h : entry ∈ (personaCertsOf root device).toList) :
    prims.idAt root device entry.1 = prims.certificateId entry.2 := by
  rw [idAt, mem_toList_iff_getElem?_eq_some.mp h]
  rfl

theorem revokePersonaGrantAccess_does (hsound : Sound prims root) (hfresh : Fresh prims root draw)
    (hwallet : ∀ persona, s (.personaWallet persona) = root (.personaWallet persona))
    (hrecord : ∀ certificate, s (.epochRecord certificate) = root (.epochRecord certificate))
    (hbridge : ∀ persona, s (.epochBridge persona) = root (.epochBridge persona)) :
    (prims.revokePersonaGrantAccess draw device (loadDeviceGrantSet root device)).Does s
      (((personaCertsOf root device).toList.flatMap (prims.personaSteps root device)).map
        (prims.stepPut root draw device statements))
      (.ok (prims.rotated root device)) := by
  have hloop : (Prog.each (prims.revokePersona draw device)
      (personaCertsOf root device).toList).Does s
      ((personaCertsOf root device).toList.flatMap fun entry =>
        (prims.personaSteps root device entry).map (prims.stepPut root draw device statements))
      (.ok ((personaCertsOf root device).toList.map fun entry =>
        if prims.exposed root entry.2 then some entry.1 else none)) := by
    refine .each fun before entry after hsplit => ?_
    obtain ⟨persona, certificate⟩ := entry
    have hmem : (persona, certificate) ∈ (personaCertsOf root device).toList := by
      rw [hsplit]
      exact mem_append_right _ mem_cons_self
    have hcert := mem_toList_iff_getElem?_eq_some.mp hmem
    obtain ⟨wallet, hload⟩ := isSome_iff_exists.mp
      (hsound.present device persona (OrdMap.mem_of_getElem? hcert))
    -- The personas before this one are others, and so are the files they write.
    have hbefore : ∀ entry ∈ before, entry ∈ (personaCertsOf root device).toList ∧
        entry.1 ≠ persona := by
      intro entry hentry
      have hnodup := OrdMap.toList_keys_nodup (personaCertsOf root device)
      rw [hsplit, map_append, nodup_append] at hnodup
      refine ⟨by rw [hsplit]; exact mem_append_left _ hentry, ?_⟩
      exact hnodup.2.2 entry.1 (mem_map_of_mem hentry) persona mem_cons_self
    rw [← map_flatMap]
    have hother : ∀ file : File, (∀ entry ∈ before, ∀ step ∈ prims.personaSteps root device entry,
        (prims.stepPut root draw device statements step).file ≠ file) →
        s.puts ((before.flatMap (prims.personaSteps root device)).map
          (prims.stepPut root draw device statements)) file = s file := by
      intro file h
      refine puts_steps_other fun step hstep => ?_
      obtain ⟨entry, hentry, hstep⟩ := mem_flatMap.mp hstep
      exact h entry hentry step hstep
    refine revokePersona_does hcert hload ?_ ?_ ?_ (hfresh.unstaged persona)
    · rw [hother _ fun entry hentry step hstep hfile => ?_, hwallet]
      rw [personaWallet_step hfile] at hstep
      exact (hbefore entry hentry).2 (some.inj (persona?_of_mem_personaSteps hstep)).symm
    · rw [hother _ fun entry hentry step hstep hfile => ?_, hrecord]
      obtain ⟨hstored, hne⟩ := hbefore entry hentry
      rcases epochRecord_step hfile with ⟨other, rfl, hid⟩ | ⟨other, persona', rfl, -⟩
      · obtain rfl := some.inj (persona?_of_mem_personaSteps hstep)
        rw [idAt_of_mem hstored] at hid
        have hslot := (hsound.distinct device device (some entry.1) (some persona) _ _
          (mem_toList_iff_getElem?_eq_some.mp hstored) hcert hid).2
        exact hne (some.inj hslot)
      · rw [mem_personaSteps] at hstep
        rcases hstep with ⟨-, h⟩ | ⟨-, h⟩ | ⟨-, h⟩ <;> cases h
    · rw [hother _ fun entry hentry step hstep hfile => ?_, hbridge]
      rw [epochBridge_step hfile] at hstep
      exact (hbefore entry hentry).2 (some.inj (persona?_of_mem_personaSteps hstep)).symm
  have hrotated : ((personaCertsOf root device).toList.map fun entry =>
      if prims.exposed root entry.2 then some entry.1 else none).filterMap id =
      prims.rotated root device := by
    unfold rotated
    rw [filterMap_map, ← filterMap_eq_filter, map_filterMap]
    congr 1
    funext entry
    by_cases h : prims.exposed root entry.2 <;> simp [h]
  rw [map_flatMap, ← append_nil (List.flatMap _ _), ← hrotated]
  exact .bind hloop .pure

theorem mem_certificates {certificate : SignedDelegationCertificate} :
    certificate ∈ (loadDeviceGrantSet root device).certificates ↔
      ∃ slot, certAt root device slot = some certificate := by
  unfold DeviceGrantSet.certificates loadDeviceGrantSet
  rw [mem_append, mem_toList, OrdMap.mem_vals]
  constructor
  · rintro (h | ⟨persona, h⟩)
    · exact ⟨none, h⟩
    · exact ⟨some persona, h⟩
  · rintro ⟨slot, h⟩
    cases slot with
    | none => exact .inl h
    | some persona => exact .inr ⟨persona, h⟩

/-! ## What is refreshed -/

/-- Where the files stand when the remaining devices are refreshed. -/
structure Rotating (prims : WalletPrimitives) (root : DataRoot) (draw : Draw) (device : DeviceId)
    (s : DataRoot) : Prop where
  certs : ∀ other, loadDeviceGrantSet s other = loadDeviceGrantSet root other
  keys : ∀ other, other ≠ device →
    loadRemoteAuthWrappingKey s other = loadRemoteAuthWrappingKey root other
  epochs : ∀ persona ∈ prims.rotated root device,
    loadCurrentPrivateEpoch s persona = some ⟨draw.epoch persona, draw.secret persona⟩

theorem Rotating.puts (h : prims.Rotating root draw device s) {ws : List DataPut}
    (hws : ∀ w ∈ ws, ∃ certificate, w.file = .epochRecord certificate) :
    prims.Rotating root draw device (s.puts ws) := by
  have hkeep : ∀ file : File, (∀ certificate, file ≠ .epochRecord certificate) →
      s.puts ws file = s file := by
    intro file hfile
    refine Files.puts_other fun w hw h' => ?_
    obtain ⟨certificate, hrecord⟩ := hws w hw
    exact hfile certificate (h'.symm.trans hrecord)
  refine ⟨fun other => ?_, fun other hother => ?_, fun persona hpersona => ?_⟩
  · rw [← h.certs other, loadDeviceGrantSet, personaCertsOf, hkeep (.deviceCert other) (by simp),
      hkeep (.personaCerts other) (by simp)]
    rfl
  · rw [← h.keys other hother, loadRemoteAuthWrappingKey, hkeep .wrappingKeys (by simp)]
    rfl
  · rw [← h.epochs persona hpersona, loadCurrentPrivateEpoch, loadPersonaWallet,
      loadPersonaEpochBridge, hkeep (.personaWallet persona) (by simp),
      hkeep (.epochBridge persona) (by simp)]
    rfl

theorem refreshPersona_does {key : Bytes32}
    (h : prims.Rotating root draw device s) (hpersona : persona ∈ prims.rotated root device)
    (hkey : loadRemoteAuthWrappingKey root other = some key) :
    (prims.refreshPersona draw other key (loadDeviceGrantSet root other) persona).Does s
      ((if reads root other persona then [.refresh other persona] else []).map
        (prims.stepPut root draw device statements)) (.ok (reads root other persona)) := by
  have hreads : reads root other persona =
      ((loadDeviceGrantSet root other).personas[persona]?).any requiresEpochMaterial := by
    rw [reads, hkey]
    rfl
  unfold refreshPersona
  rw [hreads]
  cases hcert : (loadDeviceGrantSet root other).personas[persona]? with
  | none => exact .pure
  | some certificate =>
    rw [any_some]
    cases hmaterial : requiresEpochMaterial certificate with
    | false =>
      simp only [hmaterial]
      exact .pure
    | true =>
      simp only [hmaterial]
      refine .read ?_
      rw [h.epochs persona hpersona]
      have hput : prims.stepPut root draw device statements (.refresh other persona) =
          epochRecordPut ⟨prims.certificateId certificate,
            [prims.wrapPrivateEpochMaterial persona (draw.epoch persona) (draw.secret persona) key
              (draw.nonce other persona)]⟩ := by
        have hid : prims.idAt root other persona = prims.certificateId certificate := by
          change ((loadDeviceGrantSet root other).personas[persona]?).elim 0 _ = _
          rw [hcert]
          rfl
        rw [stepPut, hid, refreshed, hkey]
        rfl
      rw [if_pos trivial, map_singleton, hput]
      exact .bind .put .pure

theorem deviceSteps_file {rotated : List PersonaId} {w : DataPut}
    (hw : w ∈ (deviceSteps root rotated other).map (prims.stepPut root draw device statements)) :
    ∃ certificate, w.file = .epochRecord certificate := by
  obtain ⟨step, hstep, rfl⟩ := mem_map.mp hw
  obtain ⟨persona, -, hstep⟩ := mem_flatMap.mp hstep
  rw [(mem_if_singleton.mp hstep).2]
  exact ⟨_, rfl⟩

theorem deviceSteps_of_no_key
    (h : ∀ persona, reads root other persona = false) : deviceSteps root rotated other = [] := by
  unfold deviceSteps
  rw [flatMap_eq_nil_iff]
  intro persona _
  rw [h persona]
  rfl

/-- The device itself, where it is given one of the epochs. -/
def refreshedDevice (root : DataRoot) (rotated : List PersonaId) (device : DeviceId) :
    Option DeviceId :=
  if (rotated.map (reads root device)).any id then some device else none

theorem refreshedDevice_of_no_key
    (h : ∀ persona, reads root other persona = false) :
    refreshedDevice root rotated other = none := by
  unfold refreshedDevice
  simp [h]

theorem refreshRemoteAuthPrivateReadGrant_does (hsound : Sound prims root)
    (h : prims.Rotating root draw device s) (hother : other ≠ device) :
    (prims.refreshRemoteAuthPrivateReadGrant draw (prims.rotated root device) other).Does s
      ((deviceSteps root (prims.rotated root device) other).map
        (prims.stepPut root draw device statements))
      (.ok (refreshedDevice root (prims.rotated root device) other)) := by
  cases hkey : loadRemoteAuthWrappingKey root other with
  | none =>
    have hnone : ∀ persona, reads root other persona = false := by
      intro persona
      rw [reads, hkey]
      rfl
    rw [deviceSteps_of_no_key hnone, refreshedDevice_of_no_key hnone]
    refine .read ?_
    rw [h.keys other hother, hkey]
    exact .pure
  | some key =>
    have hverify : (loadDeviceGrantSet root other).certificates.all (·.verify) = true := by
      rw [List.all_eq_true]
      intro certificate hcertificate
      obtain ⟨slot, hslot⟩ := mem_certificates.mp hcertificate
      exact hsound.verified other slot certificate hslot
    by_cases hempty : (loadDeviceGrantSet root other).isEmpty = true
    · have hnone : ∀ persona, reads root other persona = false := by
        intro persona
        have hcerts : personaCertsOf root other = ∅ := by
          exact isEmpty_iff.mp (Bool.and_eq_true_iff.mp hempty).2
        rw [reads, hcerts, hkey]
        rfl
      rw [deviceSteps_of_no_key hnone, refreshedDevice_of_no_key hnone]
      refine .read ?_
      rw [h.keys other hother, hkey]
      change Prog.Does (if (loadDeviceGrantSet s other).isEmpty = true then _ else _) _ _ _
      rw [h.certs other, if_pos hempty]
      exact .pure
    · have hloop : (Prog.each (prims.refreshPersona draw other key (loadDeviceGrantSet root other))
          (prims.rotated root device)).Does s
          ((deviceSteps root (prims.rotated root device) other).map
            (prims.stepPut root draw device statements))
          (.ok ((prims.rotated root device).map (reads root other))) := by
        unfold deviceSteps
        rw [map_flatMap]
        refine .each fun before persona after hsplit => ?_
        rw [← map_flatMap]
        refine refreshPersona_does (h.puts fun w hw => ?_) ?_ hkey
        · exact @deviceSteps_file prims root draw device statements other before w hw
        · rw [hsplit]
          exact mem_append_right _ mem_cons_self
      refine .read ?_
      rw [h.keys other hother, hkey]
      change Prog.Does (if (loadDeviceGrantSet s other).isEmpty = true then _ else
        if (!(loadDeviceGrantSet s other).certificates.all (·.verify)) = true then _ else _) _ _ _
      rw [h.certs other, if_neg hempty, hverify, Bool.not_true,
        ← append_nil (List.map _ (deviceSteps _ _ _))]
      exact .bind hloop .pure

theorem mem_revokedRoster : device ∈ (revokedRoster (rosterOf root) device).revoked := by
  unfold revokedRoster
  split
  · assumption
  · exact mem_append_right _ mem_cons_self

theorem mem_remainingDevices {roster : DeviceRoster} :
    other ∈ remainingDevices roster ↔
      other ∉ roster.revoked ∧
        ∃ record ∈ roster.devices, record.deviceId = other ∧ record.mode = .remoteAuth := by
  unfold remainingDevices
  simp only [List.mem_map, List.mem_filter, decide_eq_true_eq]
  constructor
  · rintro ⟨record, ⟨⟨hmem, hmode⟩, hrevoked⟩, rfl⟩
    exact ⟨hrevoked, record, hmem, rfl, hmode⟩
  · rintro ⟨hrevoked, record, hmem, rfl, hmode⟩
    exact ⟨record, ⟨⟨hmem, hmode⟩, hrevoked⟩, rfl⟩

theorem ne_of_mem_remainingDevices
    (h : other ∈ remainingDevices (revokedRoster (rosterOf root) device)) : other ≠ device := by
  rintro rfl
  exact (mem_remainingDevices.mp h).1 mem_revokedRoster

def refreshedDevices (prims : WalletPrimitives) (root : DataRoot) (device : DeviceId) :
    List DeviceId :=
  (remainingDevices (revokedRoster (rosterOf root) device)).filterMap
    (refreshedDevice root (prims.rotated root device))

theorem refreshRemoteAuthPrivateReadGrants_does (hsound : Sound prims root)
    (h : prims.Rotating root draw device s)
    (hroster : rosterOf s = revokedRoster (rosterOf root) device)
    (hseed : (s .identitySeed).isSome) :
    (prims.refreshRemoteAuthPrivateReadGrants draw (prims.rotated root device)).Does s
      ((prims.refreshSteps root device).map (prims.stepPut root draw device statements))
      (.ok (prims.refreshedDevices root device)) := by
  unfold refreshRemoteAuthPrivateReadGrants
  by_cases hempty : prims.rotated root device = []
  · have hsteps : prims.refreshSteps root device = [] := by
      unfold refreshSteps deviceSteps
      rw [hempty]
      simp
    have hnone : prims.refreshedDevices root device = [] := by
      unfold refreshedDevices refreshedDevice
      rw [hempty]
      simp
    rw [hsteps, hnone, hempty]
    exact .pure
  · obtain ⟨seed, hseed⟩ := isSome_iff_exists.mp hseed
    have hloop : (Prog.each (prims.refreshRemoteAuthPrivateReadGrant draw
        (prims.rotated root device))
        (remainingDevices (revokedRoster (rosterOf root) device))).Does s
        ((remainingDevices (revokedRoster (rosterOf root) device)).flatMap fun other =>
          (deviceSteps root (prims.rotated root device) other).map
            (prims.stepPut root draw device statements))
        (.ok ((remainingDevices (revokedRoster (rosterOf root) device)).map
          (refreshedDevice root (prims.rotated root device)))) := by
      refine .each fun before other after hsplit => ?_
      refine refreshRemoteAuthPrivateReadGrant_does hsound (h.puts fun w hw => ?_) ?_
      · obtain ⟨before', -, hw⟩ := mem_flatMap.mp hw
        exact deviceSteps_file hw
      · refine @ne_of_mem_remainingDevices root device other ?_
        rw [hsplit]
        exact mem_append_right _ mem_cons_self
    have hanswer : ((remainingDevices (revokedRoster (rosterOf root) device)).map
        (refreshedDevice root (prims.rotated root device))).filterMap id =
        prims.refreshedDevices root device := by
      rw [filterMap_map]
      rfl
    rw [if_neg (by simpa using hempty)]
    refine .read ?_
    rw [hseed, hroster, refreshSteps, map_flatMap, ← append_nil (List.flatMap _ _),
      ← hanswer]
    exact .bind hloop .pure

theorem removeRemoteAuthWrappingKey_does (hkeys : s .wrappingKeys = root .wrappingKeys) :
    (removeRemoteAuthWrappingKey device).Does s
      ((keySteps root device).map (prims.stepPut root draw device statements)) (.ok ()) := by
  unfold keySteps keptKeys
  rw [map_if_singleton]
  refine .read ?_
  rw [hkeys]
  exact .when fun _ => .put

/-! ## Which steps there are -/

/-- When a step is one of a revocation's. -/
def Planned (prims : WalletPrimitives) (root : DataRoot) (device : DeviceId)
    (statements : List SignedDelegationRevocation) : RevocationStep → Prop
  | .ledger => 0 < (foldRevocations (root .revocations) statements).1
  | .roster => device ∉ (rosterOf root).revoked
  | .identity => True
  | .forget persona => ∃ certificate, (personaCertsOf root device)[persona]? = some certificate ∧
      (root (.epochRecord (prims.certificateId certificate))).isSome
  | .wallet persona => persona ∈ personaCertsOf root device ∧
      (slotted root device persona || prims.rotates root device persona)
  | .stage persona => prims.rotates root device persona
  | .key => (keptKeys root device).length ≠ ((root .wrappingKeys).getD []).length
  | .refresh other persona =>
      other ∈ remainingDevices (revokedRoster (rosterOf root) device) ∧
        prims.rotates root device persona ∧ reads root other persona


theorem rotates_iff : prims.rotates root device persona = true ↔
    ∃ certificate, (personaCertsOf root device)[persona]? = some certificate ∧
      prims.exposed root certificate = true := any_eq_true _ _

theorem mem_rotated : persona ∈ prims.rotated root device ↔
    prims.rotates root device persona = true := by
  rw [rotates_iff, rotated, List.mem_map]
  constructor
  · rintro ⟨entry, hentry, rfl⟩
    obtain ⟨hmem, hexposed⟩ := List.mem_filter.mp hentry
    exact ⟨entry.2, Std.ExtTreeMap.mem_toList_iff_getElem?_eq_some.mp hmem, hexposed⟩
  · rintro ⟨certificate, hcert, hexposed⟩
    exact ⟨(persona, certificate), List.mem_filter.mpr
      ⟨Std.ExtTreeMap.mem_toList_iff_getElem?_eq_some.mpr hcert, hexposed⟩, rfl⟩

theorem mem_openingSteps : step ∈ openingSteps root device statements ↔
    (0 < (foldRevocations (root .revocations) statements).1 ∧ step = .ledger) ∨
      (device ∉ (rosterOf root).revoked ∧ step = .roster) ∨ step = .identity := by
  unfold openingSteps
  rw [mem_append, mem_append, mem_if_singleton, mem_if_singleton, mem_singleton]

theorem mem_keySteps : step ∈ keySteps root device ↔
    (keptKeys root device).length ≠ ((root .wrappingKeys).getD []).length ∧ step = .key :=
  mem_if_singleton

theorem mem_refreshSteps : step ∈ prims.refreshSteps root device ↔
    ∃ other persona, (other ∈ remainingDevices (revokedRoster (rosterOf root) device) ∧
      prims.rotates root device persona ∧ reads root other persona) ∧
      step = .refresh other persona := by
  unfold refreshSteps deviceSteps
  simp only [mem_flatMap, mem_if_singleton, mem_rotated]
  constructor
  · rintro ⟨other, hother, persona, hrotates, hreads, rfl⟩
    exact ⟨other, persona, ⟨hother, hrotates, hreads⟩, rfl⟩
  · rintro ⟨other, persona, ⟨hother, hrotates, hreads⟩, rfl⟩
    exact ⟨other, hother, persona, hrotates, hreads, rfl⟩

theorem mem_grantSteps :
    step ∈ (personaCertsOf root device).toList.flatMap (prims.personaSteps root device) ↔
      ∃ persona certificate, (personaCertsOf root device)[persona]? = some certificate ∧
        step ∈ prims.personaSteps root device (persona, certificate) := by
  simp only [mem_flatMap, Prod.exists, mem_toList_iff_getElem?_eq_some]

theorem mem_steps : step ∈ prims.steps root device statements ↔
    Planned prims root device statements step := by
  unfold steps
  rw [mem_append, mem_append, mem_append, mem_openingSteps, mem_keySteps,
    mem_refreshSteps, mem_grantSteps]
  simp only [mem_personaSteps]
  cases step with
  | wallet persona =>
    simp only [Planned, rotates, mem_iff_isSome_getElem?]
    cases hcert : (personaCertsOf root device)[persona]? <;> simp [hcert]
  | stage persona => simp [Planned, rotates_iff]
  | _ => simp [Planned]

/-! ## No two are to one file -/

theorem idAt_of_reads (h : reads root other persona = true) :
    ∃ certificate, certAt root other (some persona) = some certificate ∧
      prims.idAt root other persona = prims.certificateId certificate := by
  obtain ⟨certificate, hcert, -⟩ := (any_eq_true _ _).mp (Bool.and_eq_true_iff.mp h).2
  refine ⟨certificate, hcert, ?_⟩
  rw [idAt, hcert]
  rfl

theorem planned_epochRecord
    (h : Planned prims root device statements step)
    (hfile : (prims.stepPut root draw device statements step).file = .epochRecord certificate) :
    ∃ other persona signed, (step = .forget persona ∧ other = device ∨
        step = .refresh other persona ∧ other ≠ device) ∧
      certAt root other (some persona) = some signed ∧
      prims.certificateId signed = certificate := by
  rcases epochRecord_step hfile with ⟨persona, rfl, hid⟩ | ⟨other, persona, rfl, hid⟩
  · obtain ⟨signed, hcert, -⟩ := h
    rw [idAt, hcert] at hid
    exact ⟨device, persona, signed, .inl ⟨rfl, rfl⟩, hcert, hid⟩
  · obtain ⟨hremaining, -, hreads⟩ := h
    obtain ⟨signed, hcert, hat⟩ := @idAt_of_reads prims root persona other hreads
    exact ⟨other, persona, signed, .inr ⟨rfl, ne_of_mem_remainingDevices hremaining⟩, hcert,
      hat.symm.trans hid⟩

theorem step_eq_of_file (hsound : Sound prims root)
    (h : Planned prims root device statements step)
    (h' : Planned prims root device statements step')
    (hfile : (prims.stepPut root draw device statements step').file = (prims.stepPut root draw device statements step).file) :
    step' = step := by
  have hrecord : ∀ certificate,
      (prims.stepPut root draw device statements step).file = .epochRecord certificate →
      step' = step := by
    intro certificate hrecord
    obtain ⟨other, persona, signed, hstep, hcert, hid⟩ := planned_epochRecord h hrecord
    obtain ⟨other', persona', signed', hstep', hcert', hid'⟩ :=
      planned_epochRecord h' (hfile.trans hrecord)
    obtain ⟨rfl, hslot⟩ := hsound.distinct _ _ _ _ _ _ hcert hcert' (hid.trans hid'.symm)
    obtain rfl := some.inj hslot
    rcases hstep with ⟨rfl, rfl⟩ | ⟨rfl, hne⟩
    · rcases hstep' with ⟨rfl, -⟩ | ⟨-, hne⟩
      · rfl
      · exact absurd rfl hne
    · rcases hstep' with ⟨-, rfl⟩ | ⟨rfl, -⟩
      · exact absurd rfl hne
      · rfl
  cases step with
  | ledger => exact fixed_step (.inl rfl) hfile
  | roster => exact fixed_step (.inr (.inl rfl)) hfile
  | identity => exact fixed_step (.inr (.inr (.inl rfl))) hfile
  | forget persona | refresh other persona => exact hrecord _ rfl
  | wallet persona =>
    refine personaWallet_step (hfile.trans ?_)
    exact congrArg File.personaWallet walletAt_personaId
  | stage persona =>
    refine epochBridge_step (hfile.trans ?_)
    exact congrArg File.epochBridge bridgeOf_personaId
  | key => exact fixed_step (.inr (.inr (.inr rfl))) hfile

/-! ## Midway -/

def midway (prims : WalletPrimitives) (root : DataRoot) (draw : Draw) (device : DeviceId)
    (statements : List SignedDelegationRevocation) (l : List RevocationStep) : DataRoot :=
  root.puts (l.map (prims.stepPut root draw device statements))

theorem midway_of_mem (hsound : Sound prims root)
    (hl : ∀ step ∈ l, step ∈ prims.steps root device statements) {w : DataPut}
    (hstep : step ∈ l) (hw : prims.stepPut root draw device statements step = w) :
    prims.midway root draw device statements l w.file = w.content := by
  subst hw
  refine Files.puts_of_mem (mem_map_of_mem hstep) fun content hcontent => ?_
  obtain ⟨step', hstep', hput⟩ := mem_map.mp hcontent
  have hfile : (prims.stepPut root draw device statements step').file =
      (prims.stepPut root draw device statements step).file := by rw [hput]
  have heq : step' = step := step_eq_of_file hsound (mem_steps.mp (hl step hstep))
    (mem_steps.mp (hl step' hstep')) hfile
  rw [heq] at hput
  exact (eq_of_heq (Put.mk.inj hput).2).symm

theorem midway_other
    (h : ∀ step ∈ l, (prims.stepPut root draw device statements step).file ≠ file) :
    prims.midway root draw device statements l file = root file := puts_steps_other h

theorem midway_of_notMem (h : step ∉ l)
    (hfile : ∀ step', (prims.stepPut root draw device statements step').file = file →
      step' = step) : prims.midway root draw device statements l file = root file := by
  refine midway_other fun step' hstep' hto => h ?_
  rwa [← hfile step' hto]

/-! ### What is not touched -/

theorem personaCertsOf_midway :
    personaCertsOf (prims.midway root draw device statements l) other =
      personaCertsOf root other := by
  unfold personaCertsOf
  rw [midway_other fun _ _ => grant_step.2.2.2]

theorem certAt_midway {slot : Option PersonaId} :
    certAt (prims.midway root draw device statements l) other slot = certAt root other slot := by
  cases slot with
  | none => exact midway_other fun _ _ => grant_step.2.2.1
  | some persona => rw [certAt, certAt, personaCertsOf_midway]

theorem loadDeviceGrantSet_midway :
    loadDeviceGrantSet (prims.midway root draw device statements l) other =
      loadDeviceGrantSet root other := by
  unfold loadDeviceGrantSet
  rw [personaCertsOf_midway, midway_other fun _ _ => grant_step.2.2.1]

theorem identitySeed_midway :
    prims.midway root draw device statements l .identitySeed = root .identitySeed :=
  midway_other fun _ _ => (@grant_step _ _ _ _ _ _ device).1

/-! ### What is, for each persona and each device -/

theorem loadPersonaWallet_midway_of_notMem (h : .wallet persona ∉ l) :
    loadPersonaWallet (prims.midway root draw device statements l) persona =
      loadPersonaWallet root persona := by
  unfold loadPersonaWallet
  rw [midway_of_notMem h fun _ => personaWallet_step]

theorem bridgeOf_midway_of_notMem (h : .stage persona ∉ l) :
    bridgeOf (prims.midway root draw device statements l) persona = bridgeOf root persona := by
  unfold bridgeOf loadPersonaEpochBridge
  rw [midway_of_notMem h fun _ => epochBridge_step]

theorem loadPersonaWallet_of_put
    (h : s (personaWalletPut wallet).file = (personaWalletPut wallet).content)
    (hpersona : wallet.personaId = persona) : loadPersonaWallet s persona = some wallet := by
  subst hpersona
  change s (.personaWallet wallet.personaId) = _ at h
  rw [loadPersonaWallet, h]
  rfl

theorem loadPersonaEpochBridge_of_put {bridge : PersonaEpochBridge}
    (h : s (epochBridgePut bridge).file = (epochBridgePut bridge).content)
    (hpersona : bridge.personaId = persona) : loadPersonaEpochBridge s persona = some bridge := by
  subst hpersona
  change s (.epochBridge bridge.personaId) = _ at h
  rw [loadPersonaEpochBridge, h]
  rfl

theorem rosterOf_midway_of_notMem (h : .roster ∉ l) :
    rosterOf (prims.midway root draw device statements l) = rosterOf root := by
  have hread : prims.midway root draw device statements l .deviceRoster = root .deviceRoster :=
    midway_of_notMem h fun _ => fixed_step (.inr (.inl rfl))
  rw [rosterOf, hread, rosterOf]

section Reads

variable (hsound : Sound prims root) (hl : ∀ step ∈ l, step ∈ prims.steps root device statements)

include hsound hl

theorem loadPersonaWallet_midway (h : .wallet persona ∈ l) :
    loadPersonaWallet (prims.midway root draw device statements l) persona =
      some (cutWallet draw device (prims.rotates root device persona) (walletAt root persona)) :=
  loadPersonaWallet_of_put (midway_of_mem hsound hl h rfl) walletAt_personaId

theorem loadPersonaEpochBridge_midway (h : .stage persona ∈ l) :
    loadPersonaEpochBridge (prims.midway root draw device statements l) persona =
      some (drawnBridge root draw persona) :=
  loadPersonaEpochBridge_of_put (midway_of_mem hsound hl h rfl) bridgeOf_personaId

theorem loadWrappedEpochRecord_midway_forget (h : .forget persona ∈ l) :
    loadWrappedEpochRecord (prims.midway root draw device statements l)
      (prims.idAt root device persona) = none := by
  have hread : prims.midway root draw device statements l
      (.epochRecord (prims.idAt root device persona)) = none := midway_of_mem hsound hl h rfl
  rw [loadWrappedEpochRecord, hread]
  rfl

theorem loadWrappedEpochRecord_midway_refresh (h : .refresh other persona ∈ l) :
    loadWrappedEpochRecord (prims.midway root draw device statements l)
      (prims.idAt root other persona) =
        some ⟨prims.idAt root other persona, [prims.refreshed root draw other persona]⟩ := by
  have hread : prims.midway root draw device statements l
      (.epochRecord (prims.idAt root other persona)) = some ⟨⟨prims.idAt root other persona,
        [prims.refreshed root draw other persona]⟩, rfl⟩ := midway_of_mem hsound hl h rfl
  rw [loadWrappedEpochRecord, hread]
  rfl

theorem epochRecord_midway_of_notMem {slot : Option PersonaId}
    {certificate : SignedDelegationCertificate} (hcert : certAt root other slot = some certificate)
    (hforget : ∀ persona, slot = some persona → other = device → .forget persona ∉ l)
    (hrefresh : ∀ persona, slot = some persona → .refresh other persona ∉ l) :
    prims.midway root draw device statements l (.epochRecord (prims.certificateId certificate)) =
      root (.epochRecord (prims.certificateId certificate)) := by
  refine midway_other fun step hstep hfile => ?_
  obtain ⟨other', persona, signed, hwhich, hcert', hid⟩ :=
    planned_epochRecord (mem_steps.mp (hl step hstep)) hfile
  obtain ⟨rfl, rfl⟩ := hsound.distinct _ _ _ _ _ _ hcert' hcert hid
  rcases hwhich with ⟨rfl, rfl⟩ | ⟨rfl, -⟩
  · exact hforget persona rfl rfl hstep
  · exact hrefresh persona rfl hstep

theorem loadRemoteAuthWrappingKey_midway (hother : other ≠ device) :
    loadRemoteAuthWrappingKey (prims.midway root draw device statements l) other =
      loadRemoteAuthWrappingKey root other := by
  refine loadRemoteAuthWrappingKey_keptKeys ?_ hother
  by_cases h : .key ∈ l
  · exact .inl (midway_of_mem hsound hl h rfl)
  · exact .inr (midway_of_notMem h fun _ => fixed_step (.inr (.inr (.inr rfl))))

theorem rosterOf_midway (h : .roster ∈ l ∨ device ∈ (rosterOf root).revoked) :
    rosterOf (prims.midway root draw device statements l) =
      revokedRoster (rosterOf root) device := by
  by_cases hmem : .roster ∈ l
  · have hread : prims.midway root draw device statements l .deviceRoster =
        some (revokedRoster (rosterOf root) device) := midway_of_mem hsound hl hmem rfl
    rw [rosterOf, hread]
    rfl
  · rw [rosterOf_midway_of_notMem hmem, revokedRoster, if_pos (h.resolve_left hmem)]

end Reads

/-! ## The whole of it -/

theorem rotating_midway (hsound : Sound prims root) (hfresh : Fresh prims root draw)
    (hl : ∀ step ∈ l, step ∈ prims.steps root device statements)
    (hsteps : ∀ persona, prims.rotates root device persona →
      .wallet persona ∈ l ∧ .stage persona ∈ l) :
    prims.Rotating root draw device (prims.midway root draw device statements l) := by
  refine ⟨fun other => loadDeviceGrantSet_midway,
    fun other hother => loadRemoteAuthWrappingKey_midway hsound hl hother,
    fun persona hpersona => ?_⟩
  have hrotates := mem_rotated.mp hpersona
  obtain ⟨hwallet, hstage⟩ := hsteps persona hrotates
  have hhead : (cutWallet draw device true (walletAt root persona)).privateEpochHead =
      draw.epoch persona := congrArg draw.epoch walletAt_personaId
  have hnone : (bridgeOf root persona).epochs.find? (·.epochId = draw.epoch persona) = none :=
    map_eq_none_iff.mp (hfresh.unstaged persona)
  rw [loadCurrentPrivateEpoch, loadPersonaWallet_midway hsound hl hwallet,
    loadPersonaEpochBridge_midway hsound hl hstage, hrotates]
  change List.find? (fun epoch => epoch.epochId =
    (cutWallet draw device true (walletAt root persona)).privateEpochHead)
    (drawnBridge root draw persona).epochs = _
  rw [hhead, drawnBridge, find?_append, hnone]
  simp

theorem prepareRevocation_ok (h : prims.prepareRevocation root device = .ok statements) :
    ∃ seed, root .identitySeed = some seed ∧
      prims.revokeDeviceGrantSet seed (loadDeviceGrantSet root device) = .ok statements := by
  unfold prepareRevocation at h
  simp only at h
  split at h
  · cases h
  split at h
  · cases h
  split at h
  · cases h
  split at h
  · cases h
  split at h
  · cases h
  · rename_i seed hseed
    refine ⟨seed, hseed, ?_⟩
    cases hrevoke : prims.revokeDeviceGrantSet seed (loadDeviceGrantSet root device) with
    | error => rw [hrevoke] at h; cases h
    | ok signed => rw [hrevoke] at h; exact congrArg _ (Except.ok.inj h)

def cuttingSteps (prims : WalletPrimitives) (root : DataRoot) (device : DeviceId)
    (statements : List SignedDelegationRevocation) : List RevocationStep :=
  openingSteps root device statements ++
    ((personaCertsOf root device).toList.flatMap (prims.personaSteps root device) ++
      keySteps root device)

theorem steps_eq : prims.steps root device statements =
    prims.cuttingSteps root device statements ++ prims.refreshSteps root device := by
  unfold steps cuttingSteps
  rw [append_assoc, append_assoc]

theorem mem_cuttingSteps (h : Planned prims root device statements step)
    (hcut : ∀ other persona, step ≠ .refresh other persona) :
    step ∈ prims.cuttingSteps root device statements := by
  have hmem := mem_steps.mpr h
  rw [steps_eq, mem_append] at hmem
  rcases hmem with hmem | hmem
  · exact hmem
  · obtain ⟨other, persona, -, rfl⟩ := mem_refreshSteps.mp hmem
    exact absurd rfl (hcut other persona)

theorem revokeRemoteAuthDevice_does (hsound : Sound prims root) (hfresh : Fresh prims root draw)
    (hprepared : prims.prepareRevocation root device = .ok statements) :
    (prims.revokeRemoteAuthDevice draw device).Does root
      ((prims.steps root device statements).map (prims.stepPut root draw device statements))
      (.ok ⟨device, decide (device ∈ (rosterOf root).revoked), prims.rotated root device,
        prims.refreshedDevices root device, statements⟩) := by
  -- None of the steps before them is to a file that the parts decide from.
  have hother : ∀ file : File, file ≠ .revocations → file ≠ .deviceRoster →
      file ≠ .identityWallet → ∀ step ∈ openingSteps root device statements,
      (prims.stepPut root draw device statements step).file ≠ file := by
    intro file hrevocations hroster hidentity step hstep
    rcases mem_openingSteps.mp hstep with ⟨-, rfl⟩ | ⟨-, rfl⟩ | rfl
    · exact hrevocations.symm
    · exact hroster.symm
    · exact hidentity.symm
  have hkeys : prims.midway root draw device statements (openingSteps root device statements ++
      (personaCertsOf root device).toList.flatMap (prims.personaSteps root device))
      .wrappingKeys = root .wrappingKeys := by
    refine midway_of_notMem (fun hstep => ?_) fun _ => fixed_step (.inr (.inr (.inr rfl)))
    rcases mem_append.mp hstep with hstep | hstep
    · rcases mem_openingSteps.mp hstep with ⟨-, h⟩ | ⟨-, h⟩ | h <;> cases h
    · obtain ⟨_, _, -, hstep⟩ := mem_grantSteps.mp hstep
      rcases mem_personaSteps.mp hstep with ⟨-, h⟩ | ⟨-, h⟩ | ⟨-, h⟩ <;> cases h
  have hcutting : ∀ step ∈ prims.cuttingSteps root device statements,
      step ∈ prims.steps root device statements := by
    intro step hstep
    rw [steps_eq]
    exact mem_append_left _ hstep
  have hrotating : prims.Rotating root draw device (prims.midway root draw device statements
      (prims.cuttingSteps root device statements)) := by
    refine rotating_midway hsound hfresh hcutting fun persona hrotates => ⟨?_, ?_⟩
    · refine mem_cuttingSteps ⟨?_, ?_⟩ nofun
      · obtain ⟨certificate, hcert, -⟩ := rotates_iff.mp hrotates
        exact OrdMap.mem_of_getElem? hcert
      · rw [hrotates, Bool.or_true]
    · exact mem_cuttingSteps hrotates nofun
  have hroster : rosterOf (prims.midway root draw device statements
      (prims.cuttingSteps root device statements)) = revokedRoster (rosterOf root) device := by
    refine rosterOf_midway hsound hcutting ?_
    by_cases hrevoked : device ∈ (rosterOf root).revoked
    · exact .inr hrevoked
    · exact .inl (mem_cuttingSteps hrevoked nofun)
  have hseed : (prims.midway root draw device statements
      (prims.cuttingSteps root device statements) .identitySeed).isSome := by
    obtain ⟨seed, hseed, -⟩ := prepareRevocation_ok hprepared
    rw [identitySeed_midway, hseed]
    rfl
  have hmidway : ∀ l l' : List RevocationStep,
      (root.puts (l.map (prims.stepPut root draw device statements))).puts
        (l'.map (prims.stepPut root draw device statements)) =
        prims.midway root draw device statements (l ++ l') := by
    intro l l'
    rw [midway, map_append, Files.puts_append]
  unfold steps
  rw [map_append, map_append, map_append]
  refine .read (.check hprepared (.bind withdrawDevice_does
    (.bind (revokePersonaGrantAccess_does hsound hfresh ?_ ?_ ?_) (.bind
      (removeRemoteAuthWrappingKey_does ?_) ?_))))
  · exact fun persona => puts_steps_other (hother _ nofun nofun nofun)
  · exact fun certificate => puts_steps_other (hother _ nofun nofun nofun)
  · exact fun persona => puts_steps_other (hother _ nofun nofun nofun)
  · rw [hmidway]
    exact hkeys
  · rw [← append_nil ((prims.refreshSteps root device).map _)]
    rw [hmidway, midway, ← Files.puts_append, ← map_append, append_assoc]
    exact .bind (refreshRemoteAuthPrivateReadGrants_does hsound hrotating hroster hseed) .pure

end Steps

end WalletPrimitives

end Mere.Pandect
