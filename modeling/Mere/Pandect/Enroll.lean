import Mere.Pandect.Grants

/-!
# Enrolling a device

From `crates/system/pandect/src/wallet_grant/{enroll,validate}.rs`: a delegated device installs the
bundle its delegator hands it.
-/

namespace Mere.Pandect

open Personae Notochord List Option Std.ExtTreeMap

structure RemoteAuthEnrollmentBundle where
  grant : DeviceGrantSet
  epochs : List WrappedEpochRecord
  personaWallets : List PersonaWalletManifest

namespace RemoteAuthEnrollmentBundle

variable (bundle : RemoteAuthEnrollmentBundle)

def candidates : List (PersonaId × KeyEpochId) :=
  bundle.personaWallets.map fun wallet => (wallet.personaId, wallet.privateEpochHead)

def entries : List WrappedEpochMaterial := bundle.epochs.flatMap (·.epochs)

end RemoteAuthEnrollmentBundle

structure OpenedEpoch where
  persona : PersonaId
  epoch : KeyEpochId
  secret : Str

namespace WalletPrimitives

variable (prims : WalletPrimitives)

/-! ## Checking -/

/-- Every certificate addresses this device and names this holder. -/
def checkAddressed (own : LocalDeviceIdentity) :
    List SignedDelegationCertificate → Except WalletError Unit
  | [] => .ok ()
  | certificate :: certificates =>
    match certificateDeviceId certificate with
    | none => .error .noDevice
    | some device =>
      if device ≠ own.deviceId then .error (.otherDevice device own.deviceId)
      else if certificate.certificate.subject ≠ prims.publicKey own.deviceSeed then
        .error .otherSubject
      else checkAddressed own certificates

def earliestExpiry (set : DeviceGrantSet) : Option Nat :=
  (set.certificates.filterMap fun certificate => certificate.certificate.expiresAtMs).min?

def validateRemoteAuthEnrollmentBundle (root : DataRoot) (bundle : RemoteAuthEnrollmentBundle)
    (nowMs : Nat) : Except WalletError LocalDeviceIdentity :=
  if bundle.grant.isEmpty then .error .noGrantCertificates
  else if !bundle.grant.certificates.all (·.verify) then .error .bundleUnverified
  else
    match root .localDevice with
    | none => .error .localDeviceMissing
    | some own =>
      match prims.checkAddressed own bundle.grant.certificates with
      | .error error => .error error
      | .ok () =>
        if isExpired (earliestExpiry bundle.grant) nowMs then .error (.grantExpired own.deviceId)
        else if bundle.grant.personas.keys.toFinset ≠
            (bundle.personaWallets.map (·.personaId)).toFinset then
          .error .personasDiffer
        else .ok own

/-! ## Installing -/

/-- What becomes of one wrapped epoch: nothing if no candidate is at its index. -/
def openEntry (candidates : List (PersonaId × KeyEpochId)) (key : Bytes32)
    (entry : WrappedEpochMaterial) : Option (Except WrappedEpochError OpenedEpoch) :=
  (candidates.find? fun candidate =>
    entry.index = prims.blindedEpochIndex candidate.1 candidate.2 key).map fun candidate =>
      (prims.unwrapPrivateEpochMaterial entry candidate.1 candidate.2 key).map fun secret =>
        ⟨candidate.1, candidate.2, secret⟩

def restoreEntry (candidates : List (PersonaId × KeyEpochId)) (key : Bytes32)
    (entry : WrappedEpochMaterial) : WalletProg Unit :=
  match prims.openEntry candidates key entry with
  | none => pure ()
  | some (.error error) => Prog.fail (.epochUnopened error)
  | some (.ok opened) => stagePersonaPrivateEpoch opened.persona opened.epoch opened.secret

variable (bundle : RemoteAuthEnrollmentBundle)

variable (key : Option Bytes32)

def restoreBundle :
    WalletProg Unit := do
  if bundle.epochs.isEmpty then return ()
  else
    match key with
    | none => Prog.fail .wrappingKeyNeeded
    | some key => Prog.forEach (prims.restoreEntry bundle.candidates key) bundle.entries

def saveBundle (device : DeviceId) (bundle : RemoteAuthEnrollmentBundle) : WalletProg Unit := do
  saveDeviceGrantSet device bundle.grant
  Prog.forEach saveWrappedEpochRecord bundle.epochs
  Prog.forEach savePersonaWallet bundle.personaWallets

def installRemoteAuthEnrollmentBundle (nowMs : Nat) : WalletProg Unit := do
  let before ← Prog.read
  let own ← Prog.ofExcept (prims.validateRemoteAuthEnrollmentBundle before bundle nowMs)
  saveBundle own.deviceId bundle
  prims.restoreBundle bundle key
  let root ← Prog.read
  if own.deviceId ∈ (rosterOf root).revoked then Prog.fail (.deviceRevoked own.deviceId)
  else
    let grantRef := prims.deviceGrantSetRef bundle.grant
    prims.recordGrant (upsertDeviceRecord (rosterOf root) own.deviceId
      (prims.publicKey own.deviceSeed) own.label .hiddenClient grantRef) own.deviceId grantRef
      (bundle.personaWallets.map (·.personaId)) bundle.grant.personas.keys

end WalletPrimitives

/-! ## What staging writes -/

section Staging

variable {root : DataRoot} {opened : List OpenedEpoch} {persona : PersonaId}

def stagePut (root : DataRoot) (opened : OpenedEpoch) : List DataPut :=
  if (bridgeOf root opened.persona).secret opened.epoch ≠ some opened.secret then
    [epochBridgePut (staged (bridgeOf root opened.persona) opened.epoch opened.secret)]
  else []

def stagePuts (root : DataRoot) : List OpenedEpoch → List DataPut
  | [] => []
  | first :: rest => stagePut root first ++ stagePuts (root.puts (stagePut root first)) rest

variable {first : OpenedEpoch} {w : DataPut}

theorem stagePut_file (hw : w ∈ stagePut root first) :
    w.file = .epochBridge first.persona := by
  unfold stagePut at hw
  split at hw
  · rw [mem_singleton.mp hw]
    exact congrArg File.epochBridge bridgeOf_personaId
  · exact absurd hw not_mem_nil

theorem stagePuts_file (hw : w ∈ stagePuts root opened) :
    ∃ persona, w.file = .epochBridge persona := by
  induction opened generalizing root with
  | nil => exact absurd hw not_mem_nil
  | cons first rest ih =>
    rcases mem_append.mp hw with hw | hw
    · exact ⟨_, stagePut_file hw⟩
    · exact ih hw

theorem stagePersonaPrivateEpoch_does :
    (stagePersonaPrivateEpoch first.persona first.epoch first.secret).Does root
      (stagePut root first) (.ok ()) :=
  .read (.when fun _ => .put)

def epochsOf (persona : PersonaId) (opened : List OpenedEpoch) : List PrivateEpochRecord :=
  (opened.filter (·.persona = persona)).map fun first => ⟨first.epoch, first.secret⟩

theorem loadPersonaEpochBridge_stagePut {first : OpenedEpoch} :
    loadPersonaEpochBridge (root.puts (stagePut root first)) first.persona =
      some (staged (bridgeOf root first.persona) first.epoch first.secret) := by
  unfold stagePut
  split
  · exact loadPersonaEpochBridge_put bridgeOf_personaId
  · rename_i hsecret
    have hsecret := not_not.mp hsecret
    rw [staged_eq_self hsecret]
    exact loadPersonaEpochBridge_of_secret hsecret

theorem loadPersonaEpochBridge_stagePut_other {first : OpenedEpoch} (h : first.persona ≠ persona) :
    loadPersonaEpochBridge (root.puts (stagePut root first)) persona =
      loadPersonaEpochBridge root persona := by
  unfold loadPersonaEpochBridge
  rw [Files.puts_other]
  intro w hw
  rw [stagePut_file hw]
  exact fun hfile => h (File.epochBridge.inj hfile)

theorem loadPersonaEpochBridge_stagePuts :
    loadPersonaEpochBridge (root.puts (stagePuts root opened)) persona =
      if epochsOf persona opened = [] then loadPersonaEpochBridge root persona
      else some (stagedAll (bridgeOf root persona) (epochsOf persona opened)) := by
  induction opened generalizing root with
  | nil => rfl
  | cons first rest ih =>
    rw [stagePuts, Files.puts_append, ih]
    by_cases h : first.persona = persona
    · have hcons : epochsOf persona (first :: rest) =
          ⟨first.epoch, first.secret⟩ :: epochsOf persona rest := by
        simp [epochsOf, h]
      have hload := @loadPersonaEpochBridge_stagePut root first
      rw [h] at hload
      have hbridge : bridgeOf (root.puts (stagePut root first)) persona =
          staged (bridgeOf root persona) first.epoch first.secret := by
        rw [bridgeOf, hload]
        rfl
      rw [hcons, hload, hbridge]
      split
      · rename_i hnil
        rw [hnil]
        rfl
      · rfl
    · have hcons : epochsOf persona (first :: rest) = epochsOf persona rest := by
        simp [epochsOf, h]
      have hload := @loadPersonaEpochBridge_stagePut_other root persona first h
      have hbridge : bridgeOf (root.puts (stagePut root first)) persona =
          bridgeOf root persona := by
        rw [bridgeOf, hload]
        rfl
      rw [hcons, hload, hbridge]

theorem loadPersonaEpochBridge_stagePuts_iff :
    loadPersonaEpochBridge (root.puts (stagePuts root opened)) persona =
        loadPersonaEpochBridge root persona ↔
      ∀ epoch secret, lastSecret (epochsOf persona opened) epoch = some secret →
        (bridgeOf root persona).secret epoch = some secret := by
  rw [loadPersonaEpochBridge_stagePuts]
  by_cases hnil : epochsOf persona opened = []
  · rw [hnil]
    exact iff_of_true rfl nofun
  · rw [if_neg hnil]
    constructor
    · intro hload epoch secret hlast
      rw [bridgeOf, ← hload, getD_some, secret_stagedAll, hlast]
      rfl
    · intro hlast
      have hstored : ∃ epoch secret, (bridgeOf root persona).secret epoch = some secret := by
        obtain ⟨record, rest, hcons⟩ := exists_cons_of_ne_nil hnil
        have hsome : (lastSecret (epochsOf persona opened) record.epochId).isSome := by
          rw [hcons]
          simp only [lastSecret, isSome_map, find?_isSome, mem_reverse]
          exact ⟨record, mem_cons_self, decide_eq_true rfl⟩
        obtain ⟨secret, hsecret⟩ := isSome_iff_exists.mp hsome
        exact ⟨_, _, hlast _ _ hsecret⟩
      obtain ⟨epoch, secret, hsecret⟩ := hstored
      rw [stagedAll_eq_self hlast, loadPersonaEpochBridge_of_secret hsecret]

end Staging

/-! ## What installing writes -/

/-- What opened before the first that did not. -/
def openedFirst : List (Except WrappedEpochError OpenedEpoch) → List OpenedEpoch
  | .ok opened :: rest => opened :: openedFirst rest
  | _ => []

theorem upsertPersonaCapabilitySlots_does {root : DataRoot} {device : DeviceId}
    {grantRef : CarryRef} {personas : List PersonaId}
    (h : ∀ persona ∈ personas, (loadPersonaWallet root persona).isSome) :
    ∃ ws, (Prog.forEach (upsertPersonaCapabilitySlot device grantRef) personas).Does root ws
      (.ok ()) ∧ ∀ w ∈ ws, ∃ persona, w.file = .personaWallet persona := by
  induction personas generalizing root with
  | nil => exact ⟨[], .pure, nofun⟩
  | cons persona personas ih =>
    obtain ⟨wallet, hwallet⟩ := isSome_iff_exists.mp (h persona mem_cons_self)
    have hpersona : (slotGrant device grantRef wallet).personaId = persona :=
      (loadPersonaWallet_personaId hwallet : wallet.personaId = persona)
    have hslot : (upsertPersonaCapabilitySlot device grantRef persona).Does root
        [personaWalletPut (slotGrant device grantRef wallet)] (.ok ()) := by
      refine .read ?_
      rw [hwallet]
      exact .put
    have hthere : ∀ other ∈ personas, (loadPersonaWallet
        (root.puts [personaWalletPut (slotGrant device grantRef wallet)]) other).isSome := by
      intro other hother
      rw [Files.puts_cons, Files.puts_nil]
      by_cases hsame : persona = other
      · rw [loadPersonaWallet_put (hpersona.trans hsame)]
        rfl
      · rw [loadPersonaWallet_put_other (hpersona.trans_ne hsame)]
        exact h other (mem_cons_of_mem _ hother)
    obtain ⟨ws, hws, hfiles⟩ := ih hthere
    refine ⟨_, .bind hslot hws, fun w hw => ?_⟩
    rcases mem_append.mp hw with hw | hw
    · rw [mem_singleton.mp hw]
      exact ⟨_, rfl⟩
    · exact hfiles w hw

namespace WalletPrimitives

variable (prims : WalletPrimitives)

/-- What becomes of the bundle's wrapped epochs under a key, in the order they are tried. -/
def openings (bundle : RemoteAuthEnrollmentBundle) (key : Bytes32) :
    List (Except WrappedEpochError OpenedEpoch) :=
  bundle.entries.filterMap (prims.openEntry bundle.candidates key)

variable {prims} {root : DataRoot}

theorem restoreEntries_does {candidates : List (PersonaId × KeyEpochId)} {key : Bytes32}
    {entries : List WrappedEpochMaterial} :
    ∃ result, (Prog.forEach (prims.restoreEntry candidates key) entries).Does root
      (stagePuts root (openedFirst (entries.filterMap (prims.openEntry candidates key)))) result ∧
      (result = .ok () ↔
        ∀ error, .error error ∉ entries.filterMap (prims.openEntry candidates key)) := by
  induction entries generalizing root with
  | nil => exact ⟨_, .pure, iff_of_true rfl fun _ => not_mem_nil⟩
  | cons entry entries ih =>
    cases hopen : prims.openEntry candidates key entry with
    | none =>
      have hskip : (prims.restoreEntry candidates key entry).Does root [] (.ok ()) := by
        unfold restoreEntry
        rw [hopen]
        exact .pure
      rw [filterMap_cons_none hopen]
      obtain ⟨result, hdoes, hresult⟩ := @ih root
      exact ⟨result, .bind hskip hdoes, hresult⟩
    | some outcome =>
      rw [filterMap_cons_some hopen]
      cases outcome with
      | error error =>
        have hfail : (prims.restoreEntry candidates key entry).Does root []
            (.error (.epochUnopened error)) := by
          unfold restoreEntry
          rw [hopen]
          exact .fail
        exact ⟨_, .bind_error hfail, iff_of_false nofun fun h => h error mem_cons_self⟩
      | ok opened =>
        have hstage : (prims.restoreEntry candidates key entry).Does root (stagePut root opened)
            (.ok ()) := by
          unfold restoreEntry
          rw [hopen]
          exact stagePersonaPrivateEpoch_does
        obtain ⟨result, hdoes, hresult⟩ := @ih (root.puts (stagePut root opened))
        refine ⟨result, .bind hstage hdoes, hresult.trans (forall_congr' fun error => ?_)⟩
        rw [mem_cons]
        exact not_congr ⟨.inr, fun h => h.resolve_left nofun⟩

end WalletPrimitives

section Bundled

variable {root : DataRoot}

theorem loadWrappedEpochRecord_puts {records : List WrappedEpochRecord} {certificate : Bytes32} :
    loadWrappedEpochRecord (root.puts (records.map epochRecordPut)) certificate =
      (records.reverse.find? (·.certificate = certificate)).or
        (loadWrappedEpochRecord root certificate) :=
  Files.load_puts (loadWrappedEpochRecord · certificate)
    (fun _ _ h => loadWrappedEpochRecord_put (of_decide_eq_true h))
    fun _ _ h => loadWrappedEpochRecord_put_other (of_decide_eq_false h)

theorem loadPersonaWallet_puts {wallets : List PersonaWalletManifest} {persona : PersonaId} :
    loadPersonaWallet (root.puts (wallets.map personaWalletPut)) persona =
      (wallets.reverse.find? (·.personaId = persona)).or (loadPersonaWallet root persona) :=
  Files.load_puts (loadPersonaWallet · persona)
    (fun _ _ h => loadPersonaWallet_put (of_decide_eq_true h))
    fun _ _ h => loadPersonaWallet_put_other (of_decide_eq_false h)

def bundlePuts (root : DataRoot) (device : DeviceId) (bundle : RemoteAuthEnrollmentBundle) :
    List DataPut :=
  grantPuts root device bundle.grant ++
    (bundle.epochs.map epochRecordPut ++ bundle.personaWallets.map personaWalletPut)

end Bundled

namespace WalletPrimitives

variable (prims : WalletPrimitives) (bundle : RemoteAuthEnrollmentBundle)

/-- The epochs that are staged before a check fails, or altogether. -/
def openedNow (key : Option Bytes32) : List OpenedEpoch :=
  key.elim [] fun key => openedFirst (prims.openings bundle key)

/-- The wrapped epochs are not to be opened: there is no key, or one of them does not open. -/
def Unopenable (key : Option Bytes32) : Prop :=
  key.elim (bundle.epochs ≠ []) fun key => ∃ error, .error error ∈ prims.openings bundle key

/-- The bundle passes what is checked up front and is refused later. -/
def RefusedLate (root : DataRoot) (own : LocalDeviceIdentity)
    (bundle : RemoteAuthEnrollmentBundle) (key : Option Bytes32) : Prop :=
  prims.Unopenable bundle key ∨ own.deviceId ∈ (rosterOf root).revoked

variable {prims} {root : DataRoot} {bundle : RemoteAuthEnrollmentBundle} {key : Option Bytes32}
  {own : LocalDeviceIdentity} {nowMs : Nat}

theorem restoreBundle_does : ∃ result, (prims.restoreBundle bundle key).Does root
    (stagePuts root (prims.openedNow bundle key)) result ∧
      (result = .ok () ↔ ¬ prims.Unopenable bundle key) := by
  unfold restoreBundle openedNow Unopenable
  by_cases hepochs : bundle.epochs = []
  · have hentries : bundle.entries = [] := by
      unfold RemoteAuthEnrollmentBundle.entries
      rw [hepochs]
      rfl
    rw [hepochs]
    cases key with
    | none => exact ⟨_, .pure, iff_of_true rfl fun h => h rfl⟩
    | some key =>
      have hopenings : prims.openings bundle key = [] := by
        unfold openings
        rw [hentries]
        rfl
      simp only [elim_some, hopenings]
      refine ⟨_, .pure, iff_of_true rfl ?_⟩
      rintro ⟨error, herror⟩
      exact not_mem_nil herror
  · have hne : ¬ bundle.epochs.isEmpty = true := by rwa [List.isEmpty_iff]
    rw [if_neg hne]
    cases key with
    | none => exact ⟨_, .fail, iff_of_false nofun fun h => h hepochs⟩
    | some key =>
      obtain ⟨result, hdoes, hresult⟩ :=
        @restoreEntries_does prims root bundle.candidates key bundle.entries
      refine ⟨result, hdoes, hresult.trans ?_⟩
      exact ⟨fun h ⟨error, herror⟩ => h error herror, fun h error herror => h ⟨error, herror⟩⟩

variable {device : DeviceId} {file : File}

theorem saveBundle_does :
    (saveBundle device bundle).Does root (bundlePuts root device bundle) (.ok ()) := by
  unfold bundlePuts
  rw [map_eq_flatMap, map_eq_flatMap]
  exact .bind saveDeviceGrantSet_does
    (.bind (.forEach fun _ _ _ => .put) (.forEach fun _ _ _ => .put))

theorem validate_own (h : prims.validateRemoteAuthEnrollmentBundle root bundle nowMs = .ok own) :
    root .localDevice = some own ∧
      bundle.grant.personas.keys.toFinset = (bundle.personaWallets.map (·.personaId)).toFinset := by
  unfold validateRemoteAuthEnrollmentBundle at h
  split at h
  · cases h
  split at h
  · cases h
  split at h
  · cases h
  rename_i known hknown
  split at h
  · cases h
  split at h
  · cases h
  split at h
  · cases h
  rename_i hpersonas
  cases h
  exact ⟨hknown, not_not.mp hpersonas⟩

theorem bundlePuts_file {w : DataPut}
    (hw : w ∈ bundlePuts root device bundle) :
    w.file = .deviceCert device ∨ w.file = .personaCerts device ∨
      (∃ certificate, w.file = .epochRecord certificate) ∨
      ∃ persona, w.file = .personaWallet persona := by
  rcases mem_append.mp hw with hw | hw
  · rcases grantPuts_file hw with hw | hw
    · exact .inl hw
    · exact .inr (.inl hw)
  · rcases mem_append.mp hw with hw | hw
    · obtain ⟨record, -, rfl⟩ := mem_map.mp hw
      exact .inr (.inr (.inl ⟨_, rfl⟩))
    · obtain ⟨wallet, -, rfl⟩ := mem_map.mp hw
      exact .inr (.inr (.inr ⟨_, rfl⟩))

theorem puts_bundle_other
    (hcert : file ≠ .deviceCert device) (hcerts : file ≠ .personaCerts device)
    (hrecord : ∀ certificate, file ≠ .epochRecord certificate)
    (hwallet : ∀ persona, file ≠ .personaWallet persona) :
    root.puts (bundlePuts root device bundle) file = root file := by
  refine Files.puts_other fun w hw => ?_
  rcases bundlePuts_file hw with h | h | ⟨certificate, h⟩ | ⟨persona, h⟩
  · exact fun h' => hcert (h'.symm.trans h)
  · exact fun h' => hcerts (h'.symm.trans h)
  · exact fun h' => hrecord certificate (h'.symm.trans h)
  · exact fun h' => hwallet persona (h'.symm.trans h)

/-- Where the files stand when the late checks are done. -/
def lateFiles (prims : WalletPrimitives) (root : DataRoot) (device : DeviceId)
    (bundle : RemoteAuthEnrollmentBundle) (key : Option Bytes32) : DataRoot :=
  (root.puts (bundlePuts root device bundle)).puts
    (stagePuts (root.puts (bundlePuts root device bundle)) (prims.openedNow bundle key))

theorem lateFiles_of_not_bridge
    (h : ∀ persona, file ≠ .epochBridge persona) :
    prims.lateFiles root device bundle key file =
      root.puts (bundlePuts root device bundle) file := by
  refine Files.puts_other fun w hw => ?_
  obtain ⟨persona, hfile⟩ := stagePuts_file hw
  exact fun h' => h persona (h'.symm.trans hfile)

theorem rosterOf_lateFiles :
    rosterOf (prims.lateFiles root device bundle key) = rosterOf root := by
  have hlate : prims.lateFiles root device bundle key .deviceRoster =
      root.puts (bundlePuts root device bundle) .deviceRoster := lateFiles_of_not_bridge nofun
  have hsaved : root.puts (bundlePuts root device bundle) .deviceRoster = root .deviceRoster :=
    puts_bundle_other nofun nofun nofun nofun
  rw [rosterOf, hlate, hsaved, rosterOf]

variable (hvalid : prims.validateRemoteAuthEnrollmentBundle root bundle nowMs = .ok own)
include hvalid

theorem install_refused (hlate : prims.RefusedLate root own bundle key) :
    ∃ error, (prims.installRemoteAuthEnrollmentBundle bundle key nowMs).Does root
      (bundlePuts root own.deviceId bundle ++
        stagePuts (root.puts (bundlePuts root own.deviceId bundle)) (prims.openedNow bundle key))
      (.error error) := by
  obtain ⟨result, hrestore, hresult⟩ := @restoreBundle_does prims
    (root.puts (bundlePuts root own.deviceId bundle)) bundle key
  cases result with
  | error error =>
    exact ⟨error, .read (.check hvalid (.bind saveBundle_does (.bind_error hrestore)))⟩
  | ok =>
    have hrevoked : own.deviceId ∈
        (rosterOf (prims.lateFiles root own.deviceId bundle key)).revoked := by
      rw [rosterOf_lateFiles]
      exact hlate.resolve_left (hresult.mp rfl)
    rw [← append_nil (stagePuts _ _)]
    refine ⟨.deviceRevoked own.deviceId, .read (.check hvalid (.bind saveBundle_does
      (.bind hrestore (.read ?_))))⟩
    change Prog.Does (if own.deviceId ∈
      (rosterOf (prims.lateFiles root own.deviceId bundle key)).revoked then _ else _) _ _ _
    rw [if_pos hrevoked]
    exact .fail

omit hvalid in
theorem recordGrant_does {roster : DeviceRoster} {device : DeviceId} {grantRef : CarryRef}
    {known slots : List PersonaId}
    (h : ∀ persona ∈ slots, (loadPersonaWallet root persona).isSome) :
    ∃ ws, (prims.recordGrant roster device grantRef known slots).Does root ws (.ok ()) ∧
      ∀ w ∈ ws, w.file = .deviceRoster ∨ w.file = .identityWallet ∨
        ∃ persona, w.file = .personaWallet persona := by
  have hthere : ∀ wallet : IdentityWalletManifest, ∀ persona ∈ slots,
      (loadPersonaWallet (((root.puts [⟨.deviceRoster, some roster⟩])).puts
        [⟨.identityWallet, some wallet⟩]) persona).isSome := by
    intro wallet persona hpersona
    have hkeep : ((root.puts [⟨.deviceRoster, some roster⟩])).puts
        [⟨.identityWallet, some wallet⟩] (.personaWallet persona) =
        root (.personaWallet persona) := by
      exact Files.puts_other (by simp)
    exact h persona hpersona
  obtain ⟨ws, hws, hfiles⟩ := @upsertPersonaCapabilitySlots_does _ device grantRef slots (hthere _)
  refine ⟨_, .bind .put (.read (.bind .put hws)), fun w hw => ?_⟩
  rcases mem_append.mp hw with hw | hw
  · rw [mem_singleton.mp hw]
    exact .inl rfl
  rcases mem_append.mp hw with hw | hw
  · rw [mem_singleton.mp hw]
    exact .inr (.inl rfl)
  · exact .inr (.inr (hfiles w hw))

theorem install_accepted (hlate : ¬ prims.RefusedLate root own bundle key) :
    ∃ ws, (prims.installRemoteAuthEnrollmentBundle bundle key nowMs).Does root
      (bundlePuts root own.deviceId bundle ++
        (stagePuts (root.puts (bundlePuts root own.deviceId bundle)) (prims.openedNow bundle key) ++
          ws)) (.ok ()) ∧
      ∀ w ∈ ws, w.file = .deviceRoster ∨ w.file = .identityWallet ∨
        ∃ persona, w.file = .personaWallet persona := by
  obtain ⟨hopen, hrevoked⟩ := not_or.mp hlate
  obtain ⟨result, hrestore, hresult⟩ := @restoreBundle_does prims
    (root.puts (bundlePuts root own.deviceId bundle)) bundle key
  obtain rfl := hresult.mpr hopen
  have hwallets : ∀ persona ∈ bundle.grant.personas.keys,
      (loadPersonaWallet (prims.lateFiles root own.deviceId bundle key) persona).isSome := by
    intro persona hpersona
    have hbundled : persona ∈ (bundle.personaWallets.map (·.personaId)).toFinset := by
      rw [← (validate_own hvalid).2]
      exact mem_toFinset.mpr hpersona
    obtain ⟨wallet, hwallet, hid⟩ := mem_map.mp (mem_toFinset.mp hbundled)
    have hfile : prims.lateFiles root own.deviceId bundle key (.personaWallet persona) =
        root.puts (bundlePuts root own.deviceId bundle) (.personaWallet persona) :=
      lateFiles_of_not_bridge nofun
    have hfound : (bundle.personaWallets.reverse.find? (·.personaId = persona)).isSome := by
      rw [find?_isSome]
      exact ⟨wallet, mem_reverse.mpr hwallet, decide_eq_true hid⟩
    obtain ⟨found, hfound⟩ := isSome_iff_exists.mp hfound
    rw [loadPersonaWallet, hfile, bundlePuts, Files.puts_append, Files.puts_append]
    change (loadPersonaWallet (Files.puts _ (bundle.personaWallets.map personaWalletPut))
      persona).isSome
    rw [loadPersonaWallet_puts, hfound]
    rfl
  obtain ⟨ws, hws, hfiles⟩ := @recordGrant_does prims _
    (upsertDeviceRecord (rosterOf (prims.lateFiles root own.deviceId bundle key)) own.deviceId
      (prims.publicKey own.deviceSeed) own.label .hiddenClient
      (prims.deviceGrantSetRef bundle.grant)) own.deviceId
    (prims.deviceGrantSetRef bundle.grant) (bundle.personaWallets.map (·.personaId)) _ hwallets
  refine ⟨ws, .read (.check hvalid (.bind saveBundle_does (.bind hrestore (.read ?_)))), hfiles⟩
  change Prog.Does (if own.deviceId ∈
    (rosterOf (prims.lateFiles root own.deviceId bundle key)).revoked then _ else _) _ _ _
  rw [if_neg (by rwa [rosterOf_lateFiles])]
  exact hws

end WalletPrimitives

theorem or_eq_right_iff {A : Type} {x y : Option A} :
    x.or y = y ↔ ∀ a, x = some a → y = some a := by
  cases x <;> simp [eq_comm]

theorem or_eq_left_iff {A : Type} {x y : Option A} : x.or y = x ↔ (y.isSome → x.isSome) := by
  cases x <;> cases y <;> simp

theorem getElem?_insertMany_over {certs certs' : OrdMap PersonaId SignedDelegationCertificate}
    {persona : PersonaId} :
    (certs.insertMany certs'.toList)[persona]? = certs'[persona]?.or certs[persona]? := by
  rw [OrdMap.getElem?_insertMany, OrdMap.valuesAt_toList]
  cases certs'[persona]? <;> rfl

namespace WalletPrimitives

variable {prims : WalletPrimitives} {root : DataRoot} {bundle : RemoteAuthEnrollmentBundle}
  {key : Option Bytes32} {own : LocalDeviceIdentity} {nowMs : Nat} {device : DeviceId}

theorem lateFiles_grant {file : File}
    (h : file = .deviceCert device ∨ file = .personaCerts device) :
    prims.lateFiles root device bundle key file =
      root.puts (grantPuts root device bundle.grant) file := by
  have hbridge : ∀ persona, file ≠ .epochBridge persona := by
    rcases h with rfl | rfl <;> exact nofun
  rw [lateFiles_of_not_bridge hbridge, bundlePuts, Files.puts_append]
  refine Files.puts_other fun w hw => ?_
  rcases mem_append.mp hw with hw | hw
  · obtain ⟨record, -, rfl⟩ := mem_map.mp hw
    rcases h with rfl | rfl <;> exact nofun
  · obtain ⟨wallet, -, rfl⟩ := mem_map.mp hw
    rcases h with rfl | rfl <;> exact nofun

theorem loadDeviceGrantSet_lateFiles :
    loadDeviceGrantSet (prims.lateFiles root device bundle key) device =
      ⟨bundle.grant.device.or (root (.deviceCert device)),
        (personaCertsOf root device).insertMany bundle.grant.personas.toList⟩ := by
  have hcert : prims.lateFiles root device bundle key (.deviceCert device) =
      bundle.grant.device.or (root (.deviceCert device)) :=
    (lateFiles_grant (.inl rfl)).trans deviceCert_grantPuts
  have hcerts : personaCertsOf (prims.lateFiles root device bundle key) device =
      (personaCertsOf root device).insertMany bundle.grant.personas.toList := by
    rw [← personaCertsOf_grantPuts, personaCertsOf, lateFiles_grant (.inr rfl)]
    rfl
  rw [loadDeviceGrantSet, hcert, hcerts]

theorem personaCerts_lateFiles
    (h : ∀ (persona : PersonaId) (certificate : SignedDelegationCertificate),
      bundle.grant.personas[persona]? = some certificate →
        (personaCertsOf root device)[persona]? = some certificate) :
    prims.lateFiles root device bundle key (.personaCerts device) =
      root (.personaCerts device) := by
  rw [lateFiles_grant (.inr rfl), personaCerts_grantPuts]
  split
  · rfl
  · rename_i hne
    have hsame : (personaCertsOf root device).insertMany bundle.grant.personas.toList =
        personaCertsOf root device := by
      refine ext_getElem? fun persona => ?_
      rw [getElem?_insertMany_over]
      exact or_eq_right_iff.mpr (h persona)
    rw [hsame]
    obtain ⟨⟨persona, certificate⟩, rest, hcons⟩ := exists_cons_of_ne_nil hne
    have hentry : bundle.grant.personas[persona]? = some certificate := by
      rw [← mem_toList_iff_getElem?_eq_some, hcons]
      exact mem_cons_self
    have hstored := h persona certificate hentry
    cases hcerts : root (.personaCerts device) with
    | none =>
      rw [personaCertsOf, hcerts] at hstored
      simp at hstored
    | some certs =>
      rw [personaCertsOf, hcerts]
      rfl

theorem loadWrappedEpochRecord_lateFiles {certificate : Bytes32} :
    loadWrappedEpochRecord (prims.lateFiles root device bundle key) certificate =
      (bundle.epochs.reverse.find? (·.certificate = certificate)).or
        (loadWrappedEpochRecord root certificate) := by
  have hlate : prims.lateFiles root device bundle key (.epochRecord certificate) =
      (root.puts (grantPuts root device bundle.grant)).puts (bundle.epochs.map epochRecordPut)
        (.epochRecord certificate) := by
    have hnot : ∀ persona, File.epochRecord certificate ≠ .epochBridge persona := nofun
    rw [lateFiles_of_not_bridge hnot, bundlePuts, Files.puts_append, Files.puts_append]
    refine Files.puts_other fun w hw => ?_
    obtain ⟨wallet, -, rfl⟩ := mem_map.mp hw
    exact nofun
  have hgrant : root.puts (grantPuts root device bundle.grant) (.epochRecord certificate) =
      root (.epochRecord certificate) := by
    refine Files.puts_other fun w hw hfile => ?_
    rcases grantPuts_file hw with h | h <;> cases h.symm.trans hfile
  rw [loadWrappedEpochRecord, hlate]
  change loadWrappedEpochRecord _ certificate = _
  rw [loadWrappedEpochRecord_puts, loadWrappedEpochRecord, hgrant]
  rfl

theorem loadPersonaWallet_lateFiles {persona : PersonaId} :
    loadPersonaWallet (prims.lateFiles root device bundle key) persona =
      (bundle.personaWallets.reverse.find? (·.personaId = persona)).or
        (loadPersonaWallet root persona) := by
  have hsaved : (root.puts (grantPuts root device bundle.grant)).puts
      (bundle.epochs.map epochRecordPut) (.personaWallet persona) =
      root (.personaWallet persona) := by
    rw [← Files.puts_append]
    refine Files.puts_other fun w hw hfile => ?_
    rcases mem_append.mp hw with hw | hw
    · rcases grantPuts_file hw with h | h <;> cases h.symm.trans hfile
    · obtain ⟨record, -, rfl⟩ := mem_map.mp hw
      cases hfile
  have hnot : ∀ persona', File.personaWallet persona ≠ .epochBridge persona' := nofun
  rw [loadPersonaWallet, lateFiles_of_not_bridge hnot, bundlePuts, Files.puts_append,
    Files.puts_append]
  change loadPersonaWallet (Files.puts _ (bundle.personaWallets.map personaWalletPut)) persona = _
  rw [loadPersonaWallet_puts, loadPersonaWallet, hsaved]
  rfl

theorem loadPersonaEpochBridge_lateFiles {persona : PersonaId} :
    loadPersonaEpochBridge (prims.lateFiles root device bundle key) persona =
        loadPersonaEpochBridge root persona ↔
      ∀ epoch secret,
        lastSecret (epochsOf persona (prims.openedNow bundle key)) epoch = some secret →
        (bridgeOf root persona).secret epoch = some secret := by
  have hsaved : root.puts (bundlePuts root device bundle) (.epochBridge persona) =
      root (.epochBridge persona) := puts_bundle_other nofun nofun nofun nofun
  have hload : loadPersonaEpochBridge (root.puts (bundlePuts root device bundle)) persona =
      loadPersonaEpochBridge root persona := by
    rw [loadPersonaEpochBridge, hsaved, loadPersonaEpochBridge]
  have hbridge : bridgeOf (root.puts (bundlePuts root device bundle)) persona =
      bridgeOf root persona := by
    rw [bridgeOf, hload, bridgeOf]
  rw [← hbridge, ← loadPersonaEpochBridge_stagePuts_iff, hload]
  rfl

variable (prims root own bundle key) in
/-- Everything the bundle brings is what the files hold already. -/
structure Stored : Prop where
  device : ∀ certificate, bundle.grant.device = some certificate →
    root (.deviceCert own.deviceId) = some certificate
  personas : ∀ (persona : PersonaId) (certificate : SignedDelegationCertificate),
    bundle.grant.personas[persona]? = some certificate →
      (personaCertsOf root own.deviceId)[persona]? = some certificate
  epochs : ∀ certificate record,
    bundle.epochs.reverse.find? (·.certificate = certificate) = some record →
      loadWrappedEpochRecord root certificate = some record
  wallets : ∀ persona wallet,
    bundle.personaWallets.reverse.find? (·.personaId = persona) = some wallet →
      loadPersonaWallet root persona = some wallet
  staged : ∀ persona epoch secret,
    lastSecret (epochsOf persona (prims.openedNow bundle key)) epoch = some secret →
      (bridgeOf root persona).secret epoch = some secret

/-- A refusal that comes late leaves the files as they were only where they held it all. -/
theorem lateFiles_eq_iff : prims.lateFiles root own.deviceId bundle key = root ↔
    prims.Stored root bundle key own := by
  have hset := @loadDeviceGrantSet_lateFiles prims root bundle key own.deviceId
  constructor
  · intro h
    rw [h] at hset
    refine ⟨?_, ?_, ?_, ?_, ?_⟩
    · exact or_eq_right_iff.mp (congrArg DeviceGrantSet.device hset).symm
    · intro persona certificate hcert
      have hcerts : personaCertsOf root own.deviceId =
        (personaCertsOf root own.deviceId).insertMany bundle.grant.personas.toList :=
        congrArg DeviceGrantSet.personas hset
      rw [hcerts, getElem?_insertMany_over, hcert]
      rfl
    · intro certificate
      have hload := @loadWrappedEpochRecord_lateFiles prims root bundle key own.deviceId certificate
      rw [h] at hload
      exact or_eq_right_iff.mp hload.symm
    · intro persona
      have hload := @loadPersonaWallet_lateFiles prims root bundle key own.deviceId persona
      rw [h] at hload
      exact or_eq_right_iff.mp hload.symm
    · intro persona
      rw [← @loadPersonaEpochBridge_lateFiles prims root bundle key own.deviceId persona, h]
  · intro h
    have hother : ∀ file : File, (∀ persona, file ≠ .epochBridge persona) →
        file ≠ .deviceCert own.deviceId → file ≠ .personaCerts own.deviceId →
        (∀ certificate, file ≠ .epochRecord certificate) →
        (∀ persona, file ≠ .personaWallet persona) →
        prims.lateFiles root own.deviceId bundle key file = root file := fun file hb h1 h2 h3 h4 =>
      (lateFiles_of_not_bridge hb).trans (puts_bundle_other h1 h2 h3 h4)
    funext file
    cases file with
    | deviceCert device =>
      by_cases hdevice : device = own.deviceId
      · subst hdevice
        exact (congrArg DeviceGrantSet.device hset).trans (or_eq_right_iff.mpr h.device)
      · exact hother _ nofun (fun hfile => hdevice (File.deviceCert.inj hfile)) nofun nofun nofun
    | personaCerts device =>
      by_cases hdevice : device = own.deviceId
      · subst hdevice
        exact personaCerts_lateFiles h.personas
      · exact hother _ nofun nofun (fun hfile => hdevice (File.personaCerts.inj hfile)) nofun nofun
    | epochRecord certificate =>
      refine map_injective Subtype.val_injective ?_
      exact loadWrappedEpochRecord_lateFiles.trans (or_eq_right_iff.mpr (h.epochs certificate))
    | personaWallet persona =>
      refine map_injective Subtype.val_injective ?_
      exact loadPersonaWallet_lateFiles.trans (or_eq_right_iff.mpr (h.wallets persona))
    | epochBridge persona =>
      refine map_injective Subtype.val_injective ?_
      exact loadPersonaEpochBridge_lateFiles.mpr (h.staged persona)
    | _ => exact hother _ nofun nofun nofun nofun nofun

/-- Nothing is stored for the device that the bundle's grant would not replace. -/
structure Alone (root : DataRoot) (device : DeviceId) (grant : DeviceGrantSet) : Prop where
  ofDevice : grant.device = none → root (.deviceCert device) = none
  ofPersonas : ∀ persona ∈ personaCertsOf root device, persona ∈ grant.personas

theorem insertMany_eq_iff {certs certs' : OrdMap PersonaId SignedDelegationCertificate} :
    certs.insertMany certs'.toList = certs' ↔ ∀ persona ∈ certs, persona ∈ certs' := by
  simp only [mem_iff_isSome_getElem?, ← or_eq_left_iff, ← getElem?_insertMany_over]
  exact ⟨fun h _ => by rw [h], ext_getElem?⟩

theorem loadDeviceGrantSet_lateFiles_eq_iff :
    loadDeviceGrantSet (prims.lateFiles root device bundle key) device = bundle.grant ↔
      Alone root device bundle.grant := by
  have hdevice : bundle.grant.device.or (root (.deviceCert device)) = bundle.grant.device ↔
      (bundle.grant.device = none → root (.deviceCert device) = none) := by
    cases bundle.grant.device <;> simp
  rw [loadDeviceGrantSet_lateFiles]
  constructor
  · intro h
    exact ⟨hdevice.mp (congrArg DeviceGrantSet.device h),
      insertMany_eq_iff.mp (congrArg DeviceGrantSet.personas h)⟩
  · intro h
    rw [hdevice.mpr h.ofDevice, insertMany_eq_iff.mpr h.ofPersonas]

section

variable (hvalid : prims.validateRemoteAuthEnrollmentBundle root bundle nowMs = .ok own)
include hvalid

theorem refused_final (hlate : prims.RefusedLate root own bundle key) :
    (∃ error, (prims.installRemoteAuthEnrollmentBundle bundle key nowMs).answer root =
      .error error) ∧
      (prims.installRemoteAuthEnrollmentBundle bundle key nowMs).final root =
        prims.lateFiles root own.deviceId bundle key := by
  obtain ⟨error, hdoes⟩ := install_refused hvalid hlate
  refine ⟨⟨error, hdoes.answer⟩, ?_⟩
  rw [hdoes.final, Files.puts_append]
  rfl

theorem accepted_final (hlate : ¬ prims.RefusedLate root own bundle key) :
    (prims.installRemoteAuthEnrollmentBundle bundle key nowMs).answer root = .ok () ∧
      loadDeviceGrantSet
        ((prims.installRemoteAuthEnrollmentBundle bundle key nowMs).final root) own.deviceId =
        loadDeviceGrantSet (prims.lateFiles root own.deviceId bundle key) own.deviceId := by
  obtain ⟨ws, hdoes, hfiles⟩ := install_accepted hvalid hlate
  have hkeep : ∀ file : File, file ≠ .deviceRoster → file ≠ .identityWallet →
      (∀ persona, file ≠ .personaWallet persona) →
      (prims.installRemoteAuthEnrollmentBundle bundle key nowMs).final root file =
        prims.lateFiles root own.deviceId bundle key file := by
    intro file hroster hidentity hwallet
    rw [hdoes.final, Files.puts_append, Files.puts_append]
    refine Files.puts_other fun w hw => ?_
    rcases hfiles w hw with h | h | ⟨persona, h⟩
    · exact fun h' => hroster (h'.symm.trans h)
    · exact fun h' => hidentity (h'.symm.trans h)
    · exact fun h' => hwallet persona (h'.symm.trans h)
  have hcert := hkeep (.deviceCert own.deviceId) nofun nofun nofun
  have hcerts := hkeep (.personaCerts own.deviceId) nofun nofun nofun
  refine ⟨hdoes.answer, ?_⟩
  rw [loadDeviceGrantSet, personaCertsOf, hcert, hcerts]
  rfl

end

end WalletPrimitives

/-! ## A bundle without its key -/

def enrolledCertificate : SignedDelegationCertificate where
  certificate :=
    { parent := .root 3001
      issuer := 3001
      subject := 9
      scope := deviceCapabilityScope 5 [actionIdentityAct, actionPrivateRead]
      notBeforeMs := 10
      issuedAtMs := 10
      expiresAtMs := some 100
      remainingDelegationDepth := 0
      nonce := 4 }
  attested := true
  master := some 3001
  signed := true

def enrolledWallet : PersonaWalletManifest := ⟨1, 3001, 6, [], []⟩

def enrolmentBundle : RemoteAuthEnrollmentBundle where
  grant := ⟨none, (∅ : OrdMap PersonaId SignedDelegationCertificate).insert 1 enrolledCertificate⟩
  epochs := [⟨plainPrimitives.certificateId enrolledCertificate,
    [plainPrimitives.wrapPrivateEpochMaterial 1 6 [115] 77 blankNonce]⟩]
  personaWallets := [enrolledWallet]

def freshRoot : DataRoot := Files.put (fun _ => none) ⟨.localDevice, some ⟨5, 9, []⟩⟩

end Mere.Pandect
