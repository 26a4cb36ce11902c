import Mere.Base.OrdMap
import Mere.Base.Word

/-!
# The fold of a two-person call

An invitation and the terminal facts of a call are retained; all else is live control frames, each
with an expiry of its own.
-/

namespace Mere.Commons

abbrev CallId := Bytes32
abbrev SpaceId := Bytes32
abbrev ParticipantId := Bytes32

abbrev U64 := Fin (2 ^ 64)

instance u64NeZero : NeZero (2 ^ 64) := ⟨by decide⟩

def callWireVersion : UInt16 := 1

/-! ## The grammar -/

inductive CallFoldError where
  | unsupportedVersion (version : UInt16)
  | sameParticipant
  | invalidInvitationExpiry
  | invalidFrameExpiry
  | wrongCall
  | wrongSpace
  | foreignParticipant (participant : ParticipantId)
  | invalidRole
  | invalidAudioParameters
  | equivocation (participant : ParticipantId) (sequence : U64)
deriving DecidableEq

structure CallInvitation where
  version : UInt16
  callId : CallId
  spaceId : SpaceId
  owner : ParticipantId
  invitee : ParticipantId
  createdAtMs : U64
  expiresAtMs : U64

namespace CallInvitation

def participants (invitation : CallInvitation) : List ParticipantId :=
  [invitation.owner, invitation.invitee]

def validate (invitation : CallInvitation) : Except CallFoldError Unit :=
  if invitation.version ≠ callWireVersion then .error (.unsupportedVersion invitation.version)
  else if invitation.owner = invitation.invitee then .error .sameParticipant
  else if invitation.expiresAtMs ≤ invitation.createdAtMs then .error .invalidInvitationExpiry
  else .ok ()

def contains (invitation : CallInvitation) (participant : ParticipantId) : Bool :=
  participant = invitation.owner || participant = invitation.invitee

end CallInvitation

inductive CallTerminalReason where
  | missed
  | failed
  | declined
  | cancelled
  | ended
deriving DecidableEq

/-- The declaration order, by which reasons are compared. -/
def CallTerminalReason.index : CallTerminalReason → Nat
  | .missed => 0
  | .failed => 1
  | .declined => 2
  | .cancelled => 3
  | .ended => 4

inductive CallPhase where
  | inviting
  | ringing
  | connected
  | reconnecting
  | declined
  | missed
  | cancelled
  | failed
  | ended
deriving DecidableEq

def CallTerminalReason.phase : CallTerminalReason → CallPhase
  | .declined => .declined
  | .missed => .missed
  | .cancelled => .cancelled
  | .failed => .failed
  | .ended => .ended

def CallPhase.isTerminal : CallPhase → Bool
  | .inviting | .ringing | .connected | .reconnecting => false
  | .declined | .missed | .cancelled | .failed | .ended => true

structure CallTerminalFact where
  version : UInt16
  callId : CallId
  spaceId : SpaceId
  participant : ParticipantId
  reason : CallTerminalReason
  observedAtMs : U64

structure AudioParameters where
  codec : Str
  sampleRateHz : UInt32
  channels : UInt8
  frameDurationMs : UInt16
deriving DecidableEq

def codecByte (byte : UInt8) : Bool :=
  (48 ≤ byte && byte ≤ 57) || (65 ≤ byte && byte ≤ 90) || (97 ≤ byte && byte ≤ 122) ||
    byte = 45 || byte = 95 || byte = 46

def AudioParameters.validate (format : AudioParameters) : Bool :=
  !format.codec.isEmpty && format.codec.length ≤ 32 && format.codec.all codecByte &&
    0 < format.sampleRateHz && 0 < format.channels && 0 < format.frameDurationMs

inductive CallControl where
  | ring
  | accept
  | decline
  | cancel
  | leave
  | «end»
  | fail
  | reconnect
  | resume
  | mute (muted : Bool)
  | pushToTalk (transmitting : Bool)
  | offerAudio (formats : List AudioParameters)
  | selectAudio (format : AudioParameters)
deriving DecidableEq

def CallControl.terminalReason : CallControl → Option CallTerminalReason
  | .decline => some .declined
  | .cancel => some .cancelled
  | .leave | .end => some .ended
  | .fail => some .failed
  | .ring | .accept | .reconnect | .resume | .mute _ | .pushToTalk _ | .offerAudio _
  | .selectAudio _ => none

structure CallControlFrame where
  version : UInt16
  callId : CallId
  spaceId : SpaceId
  sender : ParticipantId
  sequence : U64
  expiresAtMs : U64
  control : CallControl
deriving DecidableEq

/-! ## Validation -/

def validateControl (invitation : CallInvitation) (sender : ParticipantId) :
    CallControl → Except CallFoldError Unit
  | .ring | .cancel | .end =>
    if sender ≠ invitation.owner then .error .invalidRole else .ok ()
  | .accept | .decline =>
    if sender ≠ invitation.invitee then .error .invalidRole else .ok ()
  | .offerAudio formats =>
    if formats.isEmpty || 16 < formats.length || formats.any (fun format => !format.validate) then
      .error .invalidAudioParameters
    else .ok ()
  | .selectAudio format =>
    if !format.validate then .error .invalidAudioParameters else .ok ()
  | .leave | .fail | .reconnect | .resume | .mute _ | .pushToTalk _ => .ok ()

def validateFrame (invitation : CallInvitation) (frame : CallControlFrame) :
    Except CallFoldError Unit :=
  if frame.version ≠ callWireVersion then .error (.unsupportedVersion frame.version)
  else if frame.callId ≠ invitation.callId then .error .wrongCall
  else if frame.spaceId ≠ invitation.spaceId then .error .wrongSpace
  else if !invitation.contains frame.sender then .error (.foreignParticipant frame.sender)
  else if frame.expiresAtMs ≤ invitation.createdAtMs then .error .invalidFrameExpiry
  else validateControl invitation frame.sender frame.control

def validateTerminal (invitation : CallInvitation) (terminal : CallTerminalFact) :
    Except CallFoldError Unit :=
  if terminal.version ≠ callWireVersion then .error (.unsupportedVersion terminal.version)
  else if terminal.callId ≠ invitation.callId then .error .wrongCall
  else if terminal.spaceId ≠ invitation.spaceId then .error .wrongSpace
  else if !invitation.contains terminal.participant then
    .error (.foreignParticipant terminal.participant)
  else
    match terminal.reason with
    | .declined | .missed =>
      if terminal.participant ≠ invitation.invitee then .error .invalidRole else .ok ()
    | .cancelled => if terminal.participant ≠ invitation.owner then .error .invalidRole else .ok ()
    | .failed | .ended => .ok ()

/-! ## What is shown -/

inductive TerminalSource where
  | retained
  | live (sequence : U64)
deriving DecidableEq

structure CallTerminalOutcome where
  participant : ParticipantId
  reason : CallTerminalReason
  source : TerminalSource
deriving DecidableEq

structure CallParticipantState where
  participant : ParticipantId
  latestSequence : Option U64 := none
  muted : Bool := false
  transmitting : Bool := false
  offeredAudio : List AudioParameters := []
  selectedAudio : Option AudioParameters := none
deriving DecidableEq

structure CallProjection where
  callId : CallId
  spaceId : SpaceId
  phase : CallPhase
  terminal : Option CallTerminalOutcome
  participants : List CallParticipantState
deriving DecidableEq

structure CallFoldDiagnostics where
  duplicateFrames : Nat := 0
  expiredFrames : Nat := 0
deriving DecidableEq

structure CallFold where
  projection : CallProjection
  diagnostics : CallFoldDiagnostics
deriving DecidableEq

/-! ## One participant's live state -/

inductive ParticipantPhase where
  | ringing
  | connected
  | reconnecting
deriving DecidableEq

structure ParticipantAccumulator where
  state : CallParticipantState
  phase : Option (U64 × ParticipantPhase) := none
  mute : Option (U64 × Bool) := none
  pushToTalk : Option (U64 × Bool) := none
  offeredAudio : Option (U64 × List AudioParameters) := none
  selectedAudio : Option (U64 × AudioParameters) := none

def replaceLatest {T : Type} (slot : Option (U64 × T)) (sequence : U64) (value : T) :
    Option (U64 × T) :=
  if slot.all (fun current => current.1 < sequence) then some (sequence, value) else slot

namespace ParticipantAccumulator

def new (participant : ParticipantId) : ParticipantAccumulator := { state := { participant } }

/-- `latest_sequence` moves with every frame, one slot with the control it carries. -/
def observe (acc : ParticipantAccumulator) (frame : CallControlFrame) : ParticipantAccumulator :=
  let latest := acc.state.latestSequence.elim frame.sequence (max · frame.sequence)
  let acc := { acc with state := { acc.state with latestSequence := some latest } }
  match frame.control with
  | .ring => { acc with phase := replaceLatest acc.phase frame.sequence .ringing }
  | .accept | .resume => { acc with phase := replaceLatest acc.phase frame.sequence .connected }
  | .reconnect => { acc with phase := replaceLatest acc.phase frame.sequence .reconnecting }
  | .mute muted => { acc with mute := replaceLatest acc.mute frame.sequence muted }
  | .pushToTalk transmitting =>
    { acc with pushToTalk := replaceLatest acc.pushToTalk frame.sequence transmitting }
  | .offerAudio formats =>
    { acc with offeredAudio := replaceLatest acc.offeredAudio frame.sequence formats }
  | .selectAudio format =>
    { acc with selectedAudio := replaceLatest acc.selectedAudio frame.sequence format }
  | .decline | .cancel | .leave | .end | .fail => acc

def finish (acc : ParticipantAccumulator) : CallParticipantState × Option ParticipantPhase :=
  ({ acc.state with
      muted := acc.mute.any (·.2)
      transmitting := acc.pushToTalk.any (·.2)
      offeredAudio := acc.offeredAudio.elim [] (·.2)
      selectedAudio := acc.selectedAudio.map (·.2) },
    acc.phase.map (·.2))

end ParticipantAccumulator

abbrev Accumulators := OrdMap ParticipantId ParticipantAccumulator

/-- `get_mut(&frame.sender)`, whose answer the code expects (`accumulators_present`). -/
def Accumulators.observe (participants : Accumulators) (frame : CallControlFrame) : Accumulators :=
  match participants[frame.sender]? with
  | some acc => participants.insert frame.sender (acc.observe frame)
  | none => participants

def Accumulators.new (invitation : CallInvitation) : Accumulators :=
  ((∅ : Accumulators).insert invitation.owner (.new invitation.owner)).insert invitation.invitee
    (.new invitation.invitee)

/-! ## Terminals -/

structure RankedTerminal where
  participant : ParticipantId
  reason : CallTerminalReason
  sequence : Option U64
  source : TerminalSource

namespace RankedTerminal

/-- The reason first, then the participant and the sequence; a retained fact has none, which is
below every sequence. -/
def rank (terminal : RankedTerminal) : Nat ×ₗ ParticipantId ×ₗ WithBot U64 :=
  toLex (terminal.reason.index, toLex (terminal.participant, terminal.sequence))

def outcome (terminal : RankedTerminal) : CallTerminalOutcome :=
  { participant := terminal.participant, reason := terminal.reason, source := terminal.source }

def ofFact (terminal : CallTerminalFact) : RankedTerminal :=
  { participant := terminal.participant, reason := terminal.reason, sequence := none,
    source := .retained }

def ofFrame (frame : CallControlFrame) (reason : CallTerminalReason) : RankedTerminal :=
  { participant := frame.sender, reason, sequence := some frame.sequence,
    source := .live frame.sequence }

end RankedTerminal

/-- `Iterator::max_by`: of several greatest elements, the last. -/
def maxByRank : List RankedTerminal → Option RankedTerminal
  | [] => none
  | terminal :: rest =>
    some (rest.foldl (fun best next => if next.rank < best.rank then best else next) terminal)

/-! ## The fold -/

abbrev Unique := OrdMap (ParticipantId ×ₗ U64) CallControlFrame

def CallControlFrame.key (frame : CallControlFrame) : ParticipantId ×ₗ U64 :=
  toLex (frame.sender, frame.sequence)

def uniqueFrames (invitation : CallInvitation) :
    List CallControlFrame → Unique → Nat → Except CallFoldError (Unique × Nat)
  | [], unique, duplicates => .ok (unique, duplicates)
  | frame :: rest, unique, duplicates =>
    match validateFrame invitation frame with
    | .error refusal => .error refusal
    | .ok () =>
      match unique[frame.key]? with
      | none => uniqueFrames invitation rest (unique.insert frame.key frame) duplicates
      | some held =>
        if held = frame then uniqueFrames invitation rest unique (duplicates + 1)
        else .error (.equivocation frame.sender frame.sequence)

def validateTerminals (invitation : CallInvitation) :
    List CallTerminalFact → Except CallFoldError Unit
  | [] => .ok ()
  | terminal :: rest =>
    match validateTerminal invitation terminal with
    | .error refusal => .error refusal
    | .ok () => validateTerminals invitation rest

def liveFrames (unique : Unique) (nowMs : U64) : List CallControlFrame :=
  unique.values.filter (fun frame => nowMs < frame.expiresAtMs)

def rankedTerminals (retained : List CallTerminalFact) (live : List CallControlFrame) :
    List RankedTerminal :=
  retained.map .ofFact ++
    live.filterMap (fun frame => frame.control.terminalReason.map (.ofFrame frame))

def callPhase (invitation : CallInvitation) (terminal : Option CallTerminalOutcome)
    (phases : List (Option ParticipantPhase)) (nowMs : U64) : CallPhase :=
  match terminal with
  | some terminal => terminal.reason.phase
  | none =>
    if phases.contains (some .reconnecting) then .reconnecting
    else if phases.contains (some .connected) then .connected
    else if invitation.expiresAtMs ≤ nowMs then .missed
    else if phases.contains (some .ringing) then .ringing
    else .inviting

def project (invitation : CallInvitation) (retained : List CallTerminalFact) (unique : Unique)
    (nowMs : U64) : CallProjection :=
  let live := liveFrames unique nowMs
  let terminal := (maxByRank (rankedTerminals retained live)).map (·.outcome)
  let state := live.filter (fun frame => frame.control.terminalReason.isNone)
  let accumulators :=
    if terminal.isNone then state.foldl Accumulators.observe (.new invitation)
    else .new invitation
  let finished := invitation.participants.map
    (fun participant => (accumulators.getD participant (.new participant)).finish)
  { callId := invitation.callId
    spaceId := invitation.spaceId
    phase := callPhase invitation terminal (finished.map (·.2)) nowMs
    terminal
    participants := finished.map (·.1) }

def foldCall (invitation : CallInvitation) (retainedTerminals : List CallTerminalFact)
    (frames : List CallControlFrame) (nowMs : U64) : Except CallFoldError CallFold := do
  invitation.validate
  let (unique, duplicates) ← uniqueFrames invitation frames ∅ 0
  validateTerminals invitation retainedTerminals
  return {
    projection := project invitation retainedTerminals unique nowMs
    diagnostics := {
      duplicateFrames := duplicates
      expiredFrames := (unique.values.filter (·.expiresAtMs ≤ nowMs)).length } }

/-! ## What a fold rests on -/

variable {invitation : CallInvitation} {frame : CallControlFrame} {frames : List CallControlFrame}
  {participant : ParticipantId} {retained : List CallTerminalFact} {nowMs : U64} {unique : Unique}

theorem foldCall_ok_iff {fold : CallFold} :
    foldCall invitation retained frames nowMs = .ok fold ↔
      invitation.validate = .ok () ∧ validateTerminals invitation retained = .ok () ∧
        ∃ unique duplicates, uniqueFrames invitation frames ∅ 0 = .ok (unique, duplicates) ∧
          fold = {
            projection := project invitation retained unique nowMs
            diagnostics := {
              duplicateFrames := duplicates
              expiredFrames := (unique.values.filter (·.expiresAtMs ≤ nowMs)).length } } := by
  unfold foldCall
  constructor
  · intro h
    cases hinvitation : invitation.validate with
    | error refusal => rw [hinvitation] at h; cases h
    | ok u =>
      rw [hinvitation] at h
      cases hunique : uniqueFrames invitation frames ∅ 0 with
      | error refusal => rw [hunique] at h; cases h
      | ok found =>
        rw [hunique] at h
        cases hretained : validateTerminals invitation retained with
        | error refusal => rw [hretained] at h; cases h
        | ok v =>
          rw [hretained] at h
          cases h
          exact ⟨rfl, rfl, found.1, found.2, rfl, rfl⟩
  · rintro ⟨hinvitation, hretained, unique, duplicates, hunique, rfl⟩
    rw [hinvitation, hunique]
    rw [hretained]
    rfl

theorem maxByRank_isSome {terminals : List RankedTerminal} :
    (maxByRank terminals).isSome ↔ terminals ≠ [] := by
  cases terminals with
  | nil => simp [maxByRank]
  | cons terminal rest => simp [maxByRank]

theorem project_terminal_isSome :
    (project invitation retained unique nowMs).terminal.isSome ↔
      retained ≠ [] ∨ ∃ frame ∈ liveFrames unique nowMs, frame.control.terminalReason.isSome := by
  have hranked : rankedTerminals retained (liveFrames unique nowMs) ≠ [] ↔
      retained ≠ [] ∨
        ∃ frame ∈ liveFrames unique nowMs, frame.control.terminalReason.isSome := by
    unfold rankedTerminals
    rw [Ne, List.append_eq_nil_iff, not_and_or, List.map_eq_nil_iff, List.filterMap_eq_nil_iff]
    refine or_congr Iff.rfl ?_
    push Not
    refine exists_congr fun frame => and_congr_right fun _ => ?_
    rw [Ne, Option.map_eq_none_iff, Option.isSome_iff_ne_none]
  rw [← hranked, ← maxByRank_isSome]
  simp [project]

theorem project_phase_isTerminal
    (h : (project invitation retained unique nowMs).terminal.isSome) :
    (project invitation retained unique nowMs).phase.isTerminal = true := by
  obtain ⟨outcome, houtcome⟩ := Option.isSome_iff_exists.mp h
  have hphase : (project invitation retained unique nowMs).phase = outcome.reason.phase := by
    change callPhase _ (project invitation retained unique nowMs).terminal _ _ = _
    rw [houtcome]
    rfl
  rw [hphase]
  cases outcome.reason <;> rfl

def lastMs : U64 := ⟨2 ^ 64 - 1, by decide⟩

theorem le_lastMs (nowMs : U64) : nowMs ≤ lastMs := by
  have := nowMs.isLt
  exact Nat.le_sub_one_of_lt this

theorem liveFrames_last (unique : Unique) : liveFrames unique lastMs = [] := by
  refine List.filter_eq_nil_iff.mpr fun frame _ => ?_
  simpa using le_lastMs frame.expiresAtMs

def placedCall : CallInvitation where
  version := 1
  callId := 7
  spaceId := 8
  owner := 1
  invitee := 2
  createdAtMs := 0
  expiresAtMs := 60000

def callFrame (sender : ParticipantId) (sequence expiresAtMs : U64) (control : CallControl) :
    CallControlFrame :=
  { version := 1, callId := 7, spaceId := 8, sender, sequence, expiresAtMs, control }

def declinedFact : CallTerminalFact where
  version := 1
  callId := 7
  spaceId := 8
  participant := 2
  reason := .declined
  observedAtMs := 5

end Mere.Commons
