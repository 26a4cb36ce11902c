import Mere.Pandect.Rotation

/-!
# A revocation that is stopped and called again

Called again it looks at the files as they stand: a persona is rotated if the device's epoch record
for it is there and is not empty.
-/

namespace Mere.Pandect

open Personae Notochord List Option

namespace WalletPrimitives

variable (prims : WalletPrimitives) (device : DeviceId)

def Holds (root : DataRoot) (persona : PersonaId) : Prop :=
  ∃ certificate record, certAt root device (some persona) = some certificate ∧
    loadWrappedEpochRecord root (prims.certificateId certificate) = some record ∧
    record.epochs ≠ []

def ReadsPrivate (root : DataRoot) (persona : PersonaId) : Prop :=
  ∀ certificate, certAt root device (some persona) = some certificate →
    requiresEpochMaterial certificate = true

/-- The persona is at another epoch than `head`, its secret is staged, and every other device that
may read it has an entry that opens to that secret. -/
def Finished (s : DataRoot) (persona : PersonaId) (head : KeyEpochId) : Prop :=
  ∃ wallet secret, loadPersonaWallet s persona = some wallet ∧ wallet.privateEpochHead ≠ head ∧
    (bridgeOf s persona).secret wallet.privateEpochHead = some secret ∧
    ∀ other ∈ remainingDevices (rosterOf s), other ≠ device → ∀ key certificate,
      loadRemoteAuthWrappingKey s other = some key →
      certAt s other (some persona) = some certificate →
      requiresEpochMaterial certificate = true →
      ∃ record, loadWrappedEpochRecord s (prims.certificateId certificate) = some record ∧
        ∃ material ∈ record.epochs, prims.unwrapPrivateEpochMaterial material persona
          wallet.privateEpochHead key = .ok secret

/-! ## Attempts -/

def stopped : DataRoot → List (Draw × Nat) → DataRoot
  | root, [] => root
  | root, (draw, count) :: attempts =>
    stopped ((prims.revokeRemoteAuthDevice draw device).cut root count) attempts

/-- Every attempt draws what is new to the wallet as it stands, and so does the last one. -/
def FreshDraws : DataRoot → List (Draw × Nat) → Draw → Prop
  | root, [], last => Fresh prims root last
  | root, (draw, count) :: attempts, last => Fresh prims root draw ∧
    FreshDraws ((prims.revokeRemoteAuthDevice draw device).cut root count) attempts last

/-- None of the attempts stops between the removal of the persona's record and the last of the
writes for the persona. -/
def StopsApart (statements : List SignedDelegationRevocation) (persona : PersonaId) :
    DataRoot → List (Draw × Nat) → Prop
  | _, [] => True
  | root, (draw, count) :: attempts =>
    (prims.rotates root device persona = true →
      .forget persona ∈ (prims.steps root device statements).take count →
      ∀ step ∈ prims.steps root device statements, step.persona? = some persona →
        step ∈ (prims.steps root device statements).take count) ∧
    StopsApart statements persona ((prims.revokeRemoteAuthDevice draw device).cut root count)
      attempts

/-! ## What stands midway -/

section Midway

variable {prims device} {root : DataRoot} {draw : Draw} {other : DeviceId} {persona : PersonaId}
  {statements : List SignedDelegationRevocation} {l : List RevocationStep} {head : KeyEpochId}

section

variable (hsound : Sound prims root)
include hsound

theorem cut_eq_midway (hfresh : Fresh prims root draw)
    (hprepared : prims.prepareRevocation root device = .ok statements) (count : Nat) :
    (prims.revokeRemoteAuthDevice draw device).cut root count =
      prims.midway root draw device statements
        ((prims.steps root device statements).take count) := by
  rw [(revokeRemoteAuthDevice_does hsound hfresh hprepared).cut, midway, map_take]

variable (hl : ∀ step ∈ l, step ∈ prims.steps root device statements)
include hl

theorem devices_midway :
    (rosterOf (prims.midway root draw device statements l)).devices =
      (rosterOf root).devices := by
  by_cases h : .roster ∈ l
  · rw [rosterOf_midway hsound hl (.inl h), revokedRoster]
    split <;> rfl
  · rw [rosterOf_midway_of_notMem h]

theorem mem_remainingDevices_midway (hother : other ≠ device) :
    other ∈ remainingDevices (rosterOf (prims.midway root draw device statements l)) ↔
      other ∈ remainingDevices (rosterOf root) := by
  by_cases h : .roster ∈ l
  · rw [rosterOf_midway hsound hl (.inl h), mem_remainingDevices_revokedRoster]
    exact and_iff_left hother
  · rw [rosterOf_midway_of_notMem h]

theorem prepareRevocation_midway :
    prims.prepareRevocation (prims.midway root draw device statements l) device =
      prims.prepareRevocation root device := by
  unfold prepareRevocation
  rw [loadDeviceGrantSet_midway, devices_midway hsound hl, identitySeed_midway]

theorem sound_midway :
    Sound prims (prims.midway root draw device statements l) where
  verified other slot certificate h := by
    rw [certAt_midway] at h
    exact hsound.verified other slot certificate h
  present other persona h := by
    rw [personaCertsOf_midway] at h
    by_cases hwallet : .wallet persona ∈ l
    · rw [loadPersonaWallet_midway hsound hl hwallet]
      rfl
    · rw [loadPersonaWallet_midway_of_notMem hwallet]
      exact hsound.present other persona h
  distinct other other' slot slot' certificate certificate' h h' := by
    rw [certAt_midway] at h h'
    exact hsound.distinct other other' slot slot' certificate certificate' h h'

end

variable {count : Nat} {step : RevocationStep} {s : DataRoot}

theorem mem_take_append {A : Type} {front back : List A} {x y : A}
    (hx : x ∈ (front ++ back).take count) (hlater : x ∉ front) (hy : y ∈ front) :
    y ∈ (front ++ back).take count := by
  rw [take_append] at hx ⊢
  rcases mem_append.mp hx with hx | hx
  · exact absurd (mem_of_mem_take hx) hlater
  · have hcount : front.length ≤ count := by
      by_contra hshort
      rw [Nat.sub_eq_zero_of_le (Nat.le_of_not_le hshort)] at hx
      exact absurd hx not_mem_nil
    rw [take_of_length_le hcount]
    exact mem_append_left _ hy

theorem forget_mem_take
    (hforget : Planned prims root device statements (.forget persona))
    (hpersona : step.persona? = some persona)
    (hstep : step ∈ (prims.steps root device statements).take count) :
    .forget persona ∈ (prims.steps root device statements).take count := by
  by_cases hsame : step = .forget persona
  · exact hsame ▸ hstep
  obtain ⟨certificate, hcert, hrecord⟩ := hforget
  have hentry := Std.ExtTreeMap.mem_toList_iff_getElem?_eq_some.mpr hcert
  obtain ⟨before, after, hsplit⟩ := append_of_mem hentry
  have hbefore : ∀ entry ∈ before, entry.1 ≠ persona := by
    intro entry hentry
    have hnodup := OrdMap.toList_keys_nodup (personaCertsOf root device)
    rw [hsplit, map_append, nodup_append] at hnodup
    exact hnodup.2.2 entry.1 (mem_map_of_mem hentry) persona mem_cons_self
  obtain ⟨back, hback⟩ : ∃ back, prims.steps root device statements =
      (openingSteps root device statements ++ (before.flatMap (prims.personaSteps root device) ++
        [.forget persona])) ++ back := by
    unfold steps
    rw [hsplit, flatMap_append, flatMap_cons, personaSteps, if_pos hrecord]
    simp only [append_assoc]
    exact ⟨_, rfl⟩
  rw [hback] at hstep ⊢
  refine mem_take_append hstep (fun hmem => ?_)
    (mem_append_right _ (mem_append_right _ mem_cons_self))
  rcases mem_append.mp hmem with hmem | hmem
  · rcases mem_openingSteps.mp hmem with ⟨-, rfl⟩ | ⟨-, rfl⟩ | rfl <;> cases hpersona
  rcases mem_append.mp hmem with hmem | hmem
  · obtain ⟨entry, hentry, hmem⟩ := mem_flatMap.mp hmem
    rw [persona?_of_mem_personaSteps hmem] at hpersona
    exact hbefore entry hentry (some.inj hpersona)
  · exact hsame (mem_singleton.mp hmem)

/-! ## One attempt -/

/-- What decides whether a persona is finished is the same in both. -/
structure SameFor (prims : WalletPrimitives) (device : DeviceId) (persona : PersonaId)
    (root s : DataRoot) : Prop where
  heads : (loadPersonaWallet s persona).map (·.privateEpochHead) =
    (loadPersonaWallet root persona).map (·.privateEpochHead)
  bridge : bridgeOf s persona = bridgeOf root persona
  remaining : ∀ other, other ≠ device →
    (other ∈ remainingDevices (rosterOf s) ↔ other ∈ remainingDevices (rosterOf root))
  keys : ∀ other, other ≠ device →
    loadRemoteAuthWrappingKey s other = loadRemoteAuthWrappingKey root other
  certs : ∀ other, certAt s other (some persona) = certAt root other (some persona)
  records : ∀ other certificate, other ≠ device →
    certAt root other (some persona) = some certificate →
    loadWrappedEpochRecord s (prims.certificateId certificate) =
      loadWrappedEpochRecord root (prims.certificateId certificate)

theorem SameFor.symm (h : SameFor prims device persona root s) :
    SameFor prims device persona s root where
  heads := h.heads.symm
  bridge := h.bridge.symm
  remaining other hother := (h.remaining other hother).symm
  keys other hother := (h.keys other hother).symm
  certs other := (h.certs other).symm
  records other certificate hother hcert :=
    (h.records other certificate hother ((h.certs other).symm.trans hcert)).symm

theorem SameFor.finished (h : SameFor prims device persona root s)
    (hfinished : prims.Finished device root persona head) :
    prims.Finished device s persona head := by
  obtain ⟨wallet, secret, hwallet, hhead, hsecret, hothers⟩ := hfinished
  have hheads := h.heads
  rw [hwallet, map_some, map_eq_some_iff] at hheads
  obtain ⟨wallet', hwallet', hsame⟩ := hheads
  refine ⟨wallet', secret, hwallet', ?_, ?_, ?_⟩
  · rw [hsame]
    exact hhead
  · rw [hsame, h.bridge]
    exact hsecret
  · intro other hother hne key certificate hkey hcert hread
    rw [h.remaining other hne] at hother
    rw [h.keys other hne] at hkey
    rw [h.certs other] at hcert
    rw [h.records other certificate hne hcert, hsame]
    exact hothers other hother hne key certificate hkey hcert hread

theorem sameFor_midway (hsound : Sound prims root)
    (hl : ∀ step ∈ l, step ∈ prims.steps root device statements)
    (hstays : prims.rotates root device persona = false) :
    SameFor prims device persona root (prims.midway root draw device statements l) where
  heads := by
    by_cases hwallet : .wallet persona ∈ l
    · obtain ⟨wallet, hload⟩ := isSome_iff_exists.mp
        (hsound.present device persona (mem_steps.mp (hl _ hwallet)).1)
      rw [loadPersonaWallet_midway hsound hl hwallet, hstays, walletAt, hload]
      rfl
    · rw [loadPersonaWallet_midway_of_notMem hwallet]
  bridge := by
    refine bridgeOf_midway_of_notMem fun h => ?_
    exact Bool.false_ne_true (hstays.symm.trans (mem_steps.mp (hl _ h)))
  remaining other hother := mem_remainingDevices_midway hsound hl hother
  keys other hother := loadRemoteAuthWrappingKey_midway hsound hl hother
  certs other := certAt_midway
  records other certificate hother hcert := by
    unfold loadWrappedEpochRecord
    rw [epochRecord_midway_of_notMem hsound hl hcert (fun _ _ h => absurd h hother)]
    intro persona' hslot hrefresh
    obtain rfl := some.inj hslot
    exact Bool.false_ne_true (hstays.symm.trans (mem_steps.mp (hl _ hrefresh)).2.1)

theorem rotates_midway (hsound : Sound prims root)
    (hl : ∀ step ∈ l, step ∈ prims.steps root device statements) :
    prims.rotates (prims.midway root draw device statements l) device persona =
      (prims.rotates root device persona && decide (.forget persona ∉ l)) := by
  unfold rotates
  rw [personaCertsOf_midway]
  cases hcert : (personaCertsOf root device)[persona]? with
  | none => rfl
  | some certificate =>
    rw [any_some, any_some, exposed, exposed]
    by_cases hforget : .forget persona ∈ l
    · have hgone := @loadWrappedEpochRecord_midway_forget prims root draw device statements l
        persona hsound hl hforget
      rw [idAt, hcert, elim_some] at hgone
      rw [hgone]
      simp [hforget]
    · have hsame : prims.midway root draw device statements l
          (.epochRecord (prims.certificateId certificate)) =
          root (.epochRecord (prims.certificateId certificate)) := by
        refine epochRecord_midway_of_notMem hsound hl
          (show certAt root device (some persona) = some certificate from hcert) ?_ ?_
        · intro persona' hslot _
          obtain rfl := some.inj hslot
          exact hforget
        · intro persona' _ hrefresh
          exact ne_of_mem_remainingDevices (mem_steps.mp (hl _ hrefresh)).1 rfl
      unfold loadWrappedEpochRecord
      rw [hsame]
      simp [hforget]

theorem planned_forget (h : prims.rotates root device persona = true) :
    Planned prims root device statements (.forget persona) := by
  obtain ⟨certificate, hcert, hexposed⟩ := rotates_iff.mp h
  refine ⟨certificate, hcert, ?_⟩
  unfold exposed loadWrappedEpochRecord at hexposed
  cases hrecord : root (.epochRecord (prims.certificateId certificate)) with
  | some record => rfl
  | none =>
    rw [hrecord] at hexposed
    simp at hexposed

theorem secret_drawnBridge (hfresh : Fresh prims root draw) :
    (drawnBridge root draw persona).secret (draw.epoch persona) = some (draw.secret persona) := by
  have hnone : (bridgeOf root persona).epochs.find? (·.epochId = draw.epoch persona) = none :=
    map_eq_none_iff.mp (hfresh.unstaged persona)
  rw [PersonaEpochBridge.secret, drawnBridge, find?_append, hnone]
  simp

theorem finished_of_all (hsound : Sound prims root) (hfresh : Fresh prims root draw)
    (hcipher : prims.Authenticated)
    (hl : ∀ step ∈ l, step ∈ prims.steps root device statements)
    (hrotates : prims.rotates root device persona = true)
    (hall : ∀ step ∈ prims.steps root device statements, step.persona? = some persona →
      step ∈ l) :
    prims.Finished device (prims.midway root draw device statements l) persona
      (walletAt root persona).privateEpochHead := by
  have hhead : (cutWallet draw device true (walletAt root persona)).privateEpochHead =
      draw.epoch persona := congrArg draw.epoch walletAt_personaId
  have hwallet : loadPersonaWallet (prims.midway root draw device statements l) persona = some _ :=
    loadPersonaWallet_midway hsound hl (hall _ (mem_steps.mpr (planned_wallet hrotates)) rfl)
  rw [hrotates] at hwallet
  refine ⟨_, draw.secret persona, hwallet, ?_, ?_, ?_⟩
  · rw [hhead]
    obtain ⟨certificate, hcert, -⟩ := rotates_iff.mp hrotates
    obtain ⟨wallet, hload⟩ := isSome_iff_exists.mp
      (hsound.present device persona (OrdMap.mem_of_getElem? hcert))
    rw [walletAt, hload]
    exact (hfresh.ahead persona wallet hload).symm
  · rw [hhead, bridgeOf, loadPersonaEpochBridge_midway hsound hl
      (hall _ (mem_steps.mpr hrotates) rfl)]
    exact secret_drawnBridge hfresh
  · intro other hother hne key certificate hkey hcert hread
    rw [mem_remainingDevices_midway hsound hl hne] at hother
    rw [loadRemoteAuthWrappingKey_midway hsound hl hne] at hkey
    rw [certAt_midway] at hcert
    have hrefresh := mem_steps.mpr
      (@planned_refresh prims root device other persona statements certificate hrotates hother hne
        key hkey hcert hread)
    obtain ⟨material, hrecord, hopens⟩ := @refreshed_record prims root device other persona draw
      statements certificate hsound hcipher l hl (hall _ hrefresh rfl) key hkey hcert
    rw [hhead]
    exact ⟨_, hrecord, material, mem_cons_self, hopens⟩

theorem all_of_finished (hsound : Sound prims root) (hfresh : Fresh prims root draw)
    (hl : ∀ step ∈ l, step ∈ prims.steps root device statements)
    (hrotates : prims.rotates root device persona = true) (hforget : .forget persona ∈ l)
    (hfinished : prims.Finished device (prims.midway root draw device statements l) persona
      (walletAt root persona).privateEpochHead) :
    ∀ step ∈ prims.steps root device statements, step.persona? = some persona → step ∈ l := by
  obtain ⟨wallet, secret, hwallet, hhead, hsecret, hothers⟩ := hfinished
  have hwritten : .wallet persona ∈ l := by
    by_contra hnot
    rw [loadPersonaWallet_midway_of_notMem hnot] at hwallet
    refine hhead ?_
    rw [walletAt, hwallet]
    rfl
  have hepoch : wallet.privateEpochHead = draw.epoch persona := by
    rw [loadPersonaWallet_midway hsound hl hwritten, hrotates] at hwallet
    rw [← some.inj hwallet]
    exact congrArg draw.epoch walletAt_personaId
  rw [hepoch] at hsecret hothers
  have hstaged : .stage persona ∈ l := by
    by_contra hnot
    rw [bridgeOf_midway_of_notMem hnot, hfresh.unstaged persona] at hsecret
    cases hsecret
  have hdrawn : secret = draw.secret persona := by
    rw [bridgeOf, loadPersonaEpochBridge_midway hsound hl hstaged, getD_some,
      secret_drawnBridge hfresh] at hsecret
    exact (some.inj hsecret).symm
  intro step hstep hpersona
  cases step with
  | forget persona' => cases hpersona; exact hforget
  | wallet persona' => cases hpersona; exact hwritten
  | stage persona' => cases hpersona; exact hstaged
  | refresh other persona' =>
    cases hpersona
    obtain ⟨hremaining, -, hreads⟩ := mem_steps.mp hstep
    obtain ⟨hother, hne⟩ := mem_remainingDevices_revokedRoster.mp hremaining
    rw [reads, Bool.and_eq_true] at hreads
    obtain ⟨key, hkey⟩ := isSome_iff_exists.mp hreads.1
    obtain ⟨certificate, hcert, hread⟩ := (any_eq_true _ _).mp hreads.2
    obtain ⟨record, hrecord, material, hmaterial, hopens⟩ := hothers other
      ((mem_remainingDevices_midway hsound hl hne).mpr hother) hne key certificate
      ((loadRemoteAuthWrappingKey_midway hsound hl hne).trans hkey)
      (certAt_midway.trans hcert) hread
    -- Left from before, the entry would have to open to a secret that is drawn now.
    by_contra hnot
    rw [hdrawn] at hopens
    refine closed_of_same hfresh ?_ hrecord hmaterial hopens
    refine epochRecord_midway_of_notMem hsound hl
      (show certAt root other (some persona) = some certificate from hcert)
      (fun _ _ h => absurd h hne) fun persona' hslot => ?_
    rw [← some.inj hslot]
    exact hnot
  | _ => cases hpersona

end Midway

/-! ## One attempt after the other -/

section Attempts

variable {prims device} {root : DataRoot} {last : Draw} {persona : PersonaId}
  {statements : List SignedDelegationRevocation} {attempts : List (Draw × Nat)} {head : KeyEpochId}

theorem last_attempt_ok (hsound : Sound prims root)
    (hprepared : prims.prepareRevocation root device = .ok statements)
    (hfresh : prims.FreshDraws device root attempts last) :
    ∃ outcome, (prims.revokeRemoteAuthDevice last device).answer
      (prims.stopped device root attempts) = .ok outcome := by
  induction attempts generalizing root with
  | nil => exact ⟨_, (revokeRemoteAuthDevice_does hsound hfresh hprepared).answer⟩
  | cons attempt attempts ih =>
    obtain ⟨draw, count⟩ := attempt
    obtain ⟨hdraw, hrest⟩ := hfresh
    have hcut := cut_eq_midway hsound hdraw hprepared count
    have htake : ∀ step ∈ (prims.steps root device statements).take count,
        step ∈ prims.steps root device statements := fun _ => mem_of_mem_take
    refine ih ?_ ?_ hrest
    · rw [hcut]
      exact sound_midway hsound htake
    · rw [hcut, prepareRevocation_midway hsound htake]
      exact hprepared

theorem finished_iff_of_stays (hsound : Sound prims root)
    (hprepared : prims.prepareRevocation root device = .ok statements)
    (hfresh : prims.FreshDraws device root attempts last)
    (hstays : prims.rotates root device persona = false) :
    (prims.Finished device ((prims.revokeRemoteAuthDevice last device).final
        (prims.stopped device root attempts)) persona head ↔
      prims.Finished device root persona head) ∧
    prims.StopsApart device statements persona root attempts := by
  induction attempts generalizing root with
  | nil =>
    have hfinal : (prims.revokeRemoteAuthDevice last device).final root =
        prims.revokedRoot root last device statements :=
      (revokeRemoteAuthDevice_does hsound hfresh hprepared).final
    have hsame : SameFor prims device persona root
        (prims.revokedRoot root last device statements) :=
      sameFor_midway hsound (fun _ h => h) hstays
    rw [stopped, hfinal]
    exact ⟨⟨hsame.symm.finished, hsame.finished⟩, trivial⟩
  | cons attempt attempts ih =>
    obtain ⟨draw, count⟩ := attempt
    obtain ⟨hdraw, hrest⟩ := hfresh
    have hcut := cut_eq_midway hsound hdraw hprepared count
    have htake : ∀ step ∈ (prims.steps root device statements).take count,
        step ∈ prims.steps root device statements := fun _ => mem_of_mem_take
    rw [hcut] at hrest
    rw [stopped, StopsApart, hcut]
    have hsame : SameFor prims device persona root (prims.midway root draw device statements
        ((prims.steps root device statements).take count)) := sameFor_midway hsound htake hstays
    obtain ⟨hiff, hapart⟩ := ih (sound_midway hsound htake)
      ((prepareRevocation_midway hsound htake).trans hprepared) hrest
      (by rw [rotates_midway hsound htake, hstays, Bool.false_and])
    refine ⟨hiff.trans ⟨hsame.symm.finished, hsame.finished⟩, fun hrotates => ?_, hapart⟩
    exact absurd (hstays.symm.trans hrotates) Bool.false_ne_true

/-- A persona that is to be rotated is finished exactly if no attempt stops among its writes. -/
theorem finished_iff_of_rotates (hcipher : prims.Authenticated) (hsound : Sound prims root)
    (hprepared : prims.prepareRevocation root device = .ok statements)
    (hfresh : prims.FreshDraws device root attempts last)
    (hrotates : prims.rotates root device persona = true) :
    prims.Finished device ((prims.revokeRemoteAuthDevice last device).final
        (prims.stopped device root attempts)) persona (walletAt root persona).privateEpochHead ↔
      prims.StopsApart device statements persona root attempts := by
  induction attempts generalizing root with
  | nil =>
    have hfinal : (prims.revokeRemoteAuthDevice last device).final root =
        prims.midway root last device statements (prims.steps root device statements) :=
      (revokeRemoteAuthDevice_does hsound hfresh hprepared).final
    rw [stopped, hfinal]
    exact iff_of_true (finished_of_all hsound hfresh hcipher (fun _ h => h) hrotates
      fun _ h _ => h) trivial
  | cons attempt attempts ih =>
    obtain ⟨draw, count⟩ := attempt
    obtain ⟨hdraw, hrest⟩ := hfresh
    have hcut := cut_eq_midway hsound hdraw hprepared count
    have htake : ∀ step ∈ (prims.steps root device statements).take count,
        step ∈ prims.steps root device statements := fun _ => mem_of_mem_take
    rw [stopped, StopsApart, hcut]
    rw [hcut] at hrest
    have hsound' := @sound_midway prims device root draw statements _ hsound htake
    have hprepared' := (@prepareRevocation_midway prims device root draw statements _ hsound
      htake).trans hprepared
    by_cases hforget : .forget persona ∈ (prims.steps root device statements).take count
    · -- From here on nothing changes for the persona.
      obtain ⟨hiff, hapart⟩ := @finished_iff_of_stays prims device _ last persona statements
        attempts (walletAt root persona).privateEpochHead hsound' hprepared' hrest
        (by rw [rotates_midway hsound htake, decide_eq_false (not_not.mpr hforget),
          Bool.and_false])
      rw [hiff]
      constructor
      · intro hfinished
        exact ⟨fun _ _ => all_of_finished hsound hdraw htake hrotates hforget hfinished, hapart⟩
      · rintro ⟨hall, -⟩
        exact finished_of_all hsound hdraw hcipher htake hrotates (hall hrotates hforget)
    · -- Nothing was written for the persona yet.
      have hwallet : loadPersonaWallet (prims.midway root draw device statements
          ((prims.steps root device statements).take count)) persona =
          loadPersonaWallet root persona := by
        refine loadPersonaWallet_midway_of_notMem fun h => hforget ?_
        exact forget_mem_take (planned_forget hrotates) rfl h
      have hih := ih hsound' hprepared' hrest
        (by rw [rotates_midway hsound htake, hrotates, decide_eq_true hforget, Bool.true_and])
      rw [walletAt, hwallet, ← walletAt] at hih
      rw [hih]
      exact ⟨fun hapart => ⟨fun _ h => absurd h hforget, hapart⟩, And.right⟩

end Attempts

theorem rotates_iff_of_holds {root : DataRoot} {persona : PersonaId}
    (h : prims.Holds device root persona) :
    prims.rotates root device persona = true ↔ ReadsPrivate device root persona := by
  obtain ⟨certificate, record, hcert, hrecord, hepochs⟩ := h
  have hstored : (personaCertsOf root device)[persona]? = some certificate := hcert
  have hsome : (!record.epochs.isEmpty) = true := by simpa using hepochs
  unfold rotates
  rw [hstored, any_some, exposed, hrecord, any_some, hsome, Bool.and_true]
  constructor
  · intro hread certificate' hcert'
    rw [hcert] at hcert'
    exact some.inj hcert' ▸ hread
  · intro hread
    exact hread certificate hcert

/-- A revocation that is stopped any number of times and called again until it succeeds rotates
every persona the device held exactly if the device's certificates let it read them all and no
attempt stops among the writes for one of them. -/
theorem stopped_revocation_finishes_iff (root : DataRoot) (attempts : List (Draw × Nat))
    (last : Draw) (statements : List SignedDelegationRevocation) (hcipher : prims.Authenticated)
    (hsound : Sound prims root) (hprepared : prims.prepareRevocation root device = .ok statements)
    (hfresh : prims.FreshDraws device root attempts last) :
    (∃ outcome, (prims.revokeRemoteAuthDevice last device).answer
      (prims.stopped device root attempts) = .ok outcome) ∧
    ((∀ persona, prims.Holds device root persona →
        prims.Finished device ((prims.revokeRemoteAuthDevice last device).final
          (prims.stopped device root attempts)) persona (walletAt root persona).privateEpochHead) ↔
      ∀ persona, prims.Holds device root persona → ReadsPrivate device root persona ∧
        prims.StopsApart device statements persona root attempts) := by
  refine ⟨last_attempt_ok hsound hprepared hfresh, forall_congr' fun persona => ?_⟩
  refine forall_congr' fun hholds => ?_
  rw [← rotates_iff_of_holds prims device hholds]
  cases hrotates : prims.rotates root device persona with
  | true =>
    rw [finished_iff_of_rotates hcipher hsound hprepared hfresh hrotates]
    exact ⟨fun hapart => ⟨rfl, hapart⟩, And.right⟩
  | false =>
    rw [(finished_iff_of_stays hsound hprepared hfresh hrotates).1]
    refine iff_of_false (fun hfinished => ?_) fun h => Bool.false_ne_true h.1
    obtain ⟨wallet, secret, hwallet, hhead, -⟩ := hfinished
    refine hhead ?_
    rw [walletAt, hwallet]
    rfl

end WalletPrimitives

/-- Stopped at its first write and called again, a revocation is finished. -/
theorem stopped_at_first_write_finishes :
    ∃ statements, plainPrimitives.prepareRevocation (sharedRoot []) 1 = .ok statements ∧
      ((∀ persona, plainPrimitives.Holds 1 (sharedRoot []) persona →
        plainPrimitives.Finished 1 ((plainPrimitives.revokeRemoteAuthDevice lengthDraw 1).final
          (plainPrimitives.stopped 1 (sharedRoot []) [(lengthDraw, 0)])) persona
          (WalletPrimitives.walletAt (sharedRoot []) persona).privateEpochHead) ↔
      ∀ persona, plainPrimitives.Holds 1 (sharedRoot []) persona →
        WalletPrimitives.ReadsPrivate 1 (sharedRoot []) persona ∧
        plainPrimitives.StopsApart 1 statements persona (sharedRoot []) [(lengthDraw, 0)]) := by
  obtain ⟨statements, hprepared⟩ := @sharedRoot_prepared []
  exact ⟨statements, hprepared, (WalletPrimitives.stopped_revocation_finishes_iff plainPrimitives 1
    (sharedRoot []) [(lengthDraw, 0)] lengthDraw statements plainPrimitives_authenticated
    sharedRoot_sound hprepared ⟨sharedRoot_fresh, sharedRoot_fresh⟩).2⟩

/-- The wallet after the call that follows a stop after four writes: the ledger, the roster, the
identity wallet and the removal of the record. -/
def retriedRoot : DataRoot :=
  (plainPrimitives.revokeRemoteAuthDevice lengthDraw 1).final
    (plainPrimitives.stopped 1 (sharedRoot []) [(lengthDraw, 4)])

/-- The call succeeds and the persona is still at the epoch whose secret the device has. -/
theorem stopped_revocation_keeps_epoch :
    plainPrimitives.Holds 1 (sharedRoot []) 7 ∧
      WalletPrimitives.ReadsPrivate 1 (sharedRoot []) 7 ∧
      ((plainPrimitives.revokeRemoteAuthDevice lengthDraw 1).answer
        (plainPrimitives.stopped 1 (sharedRoot []) [(lengthDraw, 4)])).isOk = true ∧
      ¬plainPrimitives.Finished 1 retriedRoot 7
        (WalletPrimitives.walletAt (sharedRoot []) 7).privateEpochHead := by
  have hcert : certAt (sharedRoot []) 1 (some 7) = some (readCertificate 1) := by decide +kernel
  refine ⟨⟨readCertificate 1,
    ⟨plainPrimitives.certificateId (readCertificate 1), [readMaterial 1]⟩, hcert,
    by decide +kernel, nofun⟩, ?_, by decide +kernel, ?_⟩
  · intro certificate hother
    rw [← some.inj hother]
    decide +kernel
  · rintro ⟨wallet, secret, hwallet, hhead, -⟩
    have hsame : (loadPersonaWallet retriedRoot 7).map (·.privateEpochHead) = some 5 := by
      decide +kernel
    rw [hwallet] at hsame
    exact hhead (some.inj hsame)

end Mere.Pandect
