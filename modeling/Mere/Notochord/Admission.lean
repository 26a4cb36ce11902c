import Mere.Base.Arena
import Mere.Notochord.Chain

/-!
# Admission to a session

From `crates/system/notochord/src/{types,facts,policy,handshake}.rs`.
-/

namespace Mere.Notochord

open Personae List Option

/-! ## What is asked and what is observed -/

def supportedWireVersion : Nat := 1

structure ProfileRef where
  id : Str
  revision : Nat

inductive TrafficClass where
  | control | interactive | background | transit
  deriving DecidableEq

structure RequestedAction where
  domain : Str
  path : Str
  action : Str
  deriving DecidableEq

structure SessionClaims where
  wireVersion : Nat
  network : Bytes32
  profile : ProfileRef
  action : RequestedAction
  class_ : TrafficClass
  subject : Bytes32
  delegations : List SignedDelegationCertificate

inductive DenyReason where
  | unsupportedWireVersion (requested supported : Nat)
  | unknownNetwork | profileNotAccepted | transitNotASession | serviceNotOffered
  | transportIdentityRequired | subjectNotTransportPeer | malformedHello | sessionProofInvalid
  | delegation (fault : ChainFault)
  | actionNotCovered | actionNotOffered | capacityExhausted
  deriving DecidableEq

inductive SessionDecision where
  | accept (class_ : TrafficClass)
  | deny (reason : DenyReason)
  deriving DecidableEq

structure HandshakeLimits where
  maxHelloBytes : Nat := 2048
  maxReplyBytes : Nat := 512
  maxCertificates : Nat := 4
  maxCertificateBytes : Nat := 2048
  maxDelegationDepth : Nat := 4
  deadlineMs : Nat := 10000

def HandshakeLimits.clamped (limits : HandshakeLimits) : HandshakeLimits where
  maxHelloBytes := min limits.maxHelloBytes 8192
  maxReplyBytes := min limits.maxReplyBytes 2048
  maxCertificates := min limits.maxCertificates 8
  maxCertificateBytes := min limits.maxCertificateBytes 4096
  maxDelegationDepth := min limits.maxDelegationDepth 8
  deadlineMs := min limits.deadlineMs 30000

/-- What a proof is bound to, as either end derives it. -/
structure ProofBinding where
  protocol : Str
  initiatorTransportIdentity : Option Bytes32
  sharedLink : Option Str

structure SessionFacts where
  protocol : Str
  authenticatedInitiator : Option Bytes32
  sharedLink : Option Str

def SessionFacts.proofBinding (facts : SessionFacts) : ProofBinding :=
  ⟨facts.protocol, facts.authenticatedInitiator, facts.sharedLink⟩

/-! ## The owner's policy -/

inductive ServiceAccess where
  | disabled | public_ | memberOnly
  deriving DecidableEq

structure ServiceRule where
  access : ServiceAccess
  domain : Str
  actions : Finset Str
  requireTransportIdentity : Bool
  maxSessions : Option Nat

def ServiceRule.offers (rule : ServiceRule) (action : RequestedAction) : Bool :=
  rule.domain == action.domain && decide (action.action ∈ rule.actions)

structure LocalNetworkPolicy where
  network : Bytes32
  acceptedProfiles : List ProfileRef
  trustedRoots : List TrustedRoot
  services : Table Str ServiceRule
  limits : HandshakeLimits

/-- The later one, of two of the same length. -/
def longerPath (best : Option (Str × ServiceRule)) (service : Str × ServiceRule) :
    Option (Str × ServiceRule) :=
  match best with
  | none => some service
  | some best => if best.1.length ≤ service.1.length then some service else some best

namespace LocalNetworkPolicy

variable (policy : LocalNetworkPolicy)

def acceptsProfile (profile : ProfileRef) : Bool :=
  policy.acceptedProfiles.any fun accepted =>
    accepted.id == profile.id && decide (accepted.revision ≤ profile.revision)

def serviceRule (path : Str) : Option ServiceRule :=
  (((policy.services.entries.map fun e => (e.1, e.2)).filter fun s => pathCovers s.1 path).foldl
    longerPath none).map Prod.snd

variable (digest : DelegationCertificate → Bytes32)

/-- What a member has to present, and that it covers the action. -/
def checkMember (claims : SessionClaims) (ledger : RevocationLedger) (nowMs : Nat) :
    Except DenyReason Unit :=
  match validateChain digest claims.delegations claims.subject policy.trustedRoots ledger
      (min policy.limits.maxDelegationDepth policy.limits.maxCertificates) nowMs with
  | .error fault => .error (.delegation fault)
  | .ok () =>
    if claims.delegations.getLast?.any fun leaf =>
        leaf.certificate.scope.domain == claims.action.domain &&
          leaf.certificate.scope.resource == idBytes claims.network &&
          leaf.certificate.covers claims.action.path claims.action.action nowMs
    then .ok ()
    else .error .actionNotCovered

def checkCapacity (rule : ServiceRule) (claims : SessionClaims) (activeSessions : Nat) :
    SessionDecision :=
  if rule.maxSessions.any (· ≤ activeSessions) then .deny .capacityExhausted
  else .accept claims.class_

def evaluate (facts : SessionFacts) (claims : SessionClaims) (ledger : RevocationLedger)
    (nowMs activeSessions : Nat) : SessionDecision :=
  if claims.wireVersion ≠ supportedWireVersion then
    .deny (.unsupportedWireVersion claims.wireVersion supportedWireVersion)
  else if claims.network ≠ policy.network then .deny .unknownNetwork
  else if !policy.acceptsProfile claims.profile then .deny .profileNotAccepted
  else if claims.class_ = .transit then .deny .transitNotASession
  else
    match policy.serviceRule claims.action.path with
    | none => .deny .serviceNotOffered
    | some rule =>
      if rule.access = .disabled then .deny .serviceNotOffered
      else if !rule.offers claims.action then .deny .actionNotOffered
      else if rule.requireTransportIdentity && facts.authenticatedInitiator.isNone then
        .deny .transportIdentityRequired
      else if facts.authenticatedInitiator.any (· ≠ claims.subject) then
        .deny .subjectNotTransportPeer
      else if rule.access = .memberOnly then
        match policy.checkMember digest claims ledger nowMs with
        | .error reason => .deny reason
        | .ok () => checkCapacity rule claims activeSessions
      else checkCapacity rule claims activeSessions

end LocalNetworkPolicy

/-! ## The handshake -/

structure SessionHello where
  version : Nat
  network : Bytes32
  profile : ProfileRef
  action : RequestedAction
  class_ : TrafficClass
  nonce : Bytes32
  subject : Bytes32
  /-- The session signer's attestation verifies under the salt of session signers. -/
  attested : Bool
  /-- The attested master and derived keys, where they are ones. -/
  master : Option Bytes32
  derived : Option Bytes32
  delegations : List SignedDelegationCertificate
  transcriptSignature : Str

/-- What is taken as given: certificate ids, the wire codec, the hash, and Ed25519. -/
structure Primitives where
  digest : DelegationCertificate → Bytes32
  parseHello : Str → Option SessionHello
  certificateSize : SignedDelegationCertificate → Option Nat
  hash : Str → Bytes32
  verifies : Bytes32 → Str → Str → Bool

inductive HandshakeError where
  | codec | tooLarge
  deriving DecidableEq

inductive SessionReply where
  | accept (sessionId : Bytes32) (class_ : TrafficClass) (limits : HandshakeLimits)
      (profileRevision : Nat)
  | reject (reason : DenyReason)

structure AdmittedPrincipal where
  subject : Bytes32
  class_ : TrafficClass
  sessionId : Bytes32
  action : RequestedAction
  deriving DecidableEq

def leBytes (width n : Nat) : Str := (List.range width).map fun i => UInt8.ofNat (n / 256 ^ i)

def pushBytes (value : Str) : Str := leBytes 8 value.length ++ value

def pushOption : Option Str → Str
  | some value => 1 :: pushBytes value
  | none => [0]

def classTag : TrafficClass → UInt8
  | .control => 0
  | .interactive => 1
  | .background => 2
  | .transit => 3

def transcriptDomain : Str :=
  "mere/network-policy/session-transcript/v1".toList.map fun ch => UInt8.ofNat ch.toNat

variable (prims : Primitives)

def transcript (hello : SessionHello) (binding : ProofBinding) : Str :=
  pushBytes transcriptDomain ++ leBytes 2 hello.version ++ idBytes hello.network ++
    pushBytes hello.profile.id ++ leBytes 4 hello.profile.revision ++ pushBytes binding.protocol ++
    pushBytes hello.action.domain ++ pushBytes hello.action.path ++ pushBytes hello.action.action ++
    [classTag hello.class_] ++ idBytes hello.nonce ++ idBytes hello.subject ++
    pushOption (binding.initiatorTransportIdentity.map idBytes) ++ pushOption binding.sharedLink ++
    leBytes 8 hello.delegations.length ++
    hello.delegations.flatMap fun signed => idBytes (prims.digest signed.certificate)

namespace SessionHello

def checkSizes (maxCertificateBytes : Nat) :
    List SignedDelegationCertificate → Except HandshakeError Unit
  | [] => .ok ()
  | signed :: rest =>
    match prims.certificateSize signed with
    | none => .error .codec
    | some size =>
      if maxCertificateBytes < size then .error .tooLarge
      else checkSizes maxCertificateBytes rest

def decode (bytes : Str) (limits : HandshakeLimits) : Except HandshakeError SessionHello :=
  if limits.clamped.maxHelloBytes < bytes.length then .error .tooLarge
  else
    match prims.parseHello bytes with
    | none => .error .codec
    | some hello =>
      if limits.clamped.maxCertificates < hello.delegations.length then .error .tooLarge
      else
        (checkSizes prims limits.clamped.maxCertificateBytes hello.delegations).map fun _ => hello

variable (hello : SessionHello)

def verifyProof (binding : ProofBinding) : Bool :=
  hello.attested && hello.master == some hello.subject &&
    hello.derived.any fun key => hello.transcriptSignature.length == 64 &&
      prims.verifies key (transcript prims hello binding) hello.transcriptSignature

def claims : SessionClaims where
  wireVersion := hello.version
  network := hello.network
  profile := hello.profile
  action := hello.action
  class_ := hello.class_
  subject := hello.subject
  delegations := hello.delegations

def sessionId (binding : ProofBinding) : Bytes32 := prims.hash (transcript prims hello binding)

end SessionHello

variable (policy : LocalNetworkPolicy) (ledger : RevocationLedger) (bytes : Str)
  (facts : SessionFacts) (nowMs activeSessions : Nat)

/-- The revision that the responder speaks. -/
def profileRevision (hello : SessionHello) : Nat :=
  ((policy.acceptedProfiles.find? fun accepted => accepted.id == hello.profile.id).map
    (·.revision)).getD hello.profile.revision

def respond : SessionReply × SessionDecision :=
  match SessionHello.decode prims bytes policy.limits.clamped with
  | .error _ => (.reject .malformedHello, .deny .malformedHello)
  | .ok hello =>
    if !hello.verifyProof prims facts.proofBinding then
      (.reject .sessionProofInvalid, .deny .sessionProofInvalid)
    else
      match policy.evaluate prims.digest facts hello.claims ledger nowMs activeSessions with
      | .accept class_ =>
        (.accept (hello.sessionId prims facts.proofBinding) class_ policy.limits.clamped
          (profileRevision policy hello), .accept class_)
      | .deny reason => (.reject reason, .deny reason)

/-- `admit`: who was admitted, beside the reply. -/
def admits : SessionReply × Except DenyReason AdmittedPrincipal :=
  match respond prims policy ledger bytes facts nowMs activeSessions with
  | (reply, .deny reason) => (reply, .error reason)
  | (reply, .accept class_) =>
    match SessionHello.decode prims bytes policy.limits.clamped with
    | .error _ => (reply, .error .malformedHello)
    | .ok hello =>
      (reply, .ok ⟨hello.subject, class_, hello.sessionId prims facts.proofBinding, hello.action⟩)

/-! ## What admission rests on -/

section Sound

variable {prims policy ledger bytes facts nowMs activeSessions}
  {digest : DelegationCertificate → Bytes32} {chain : List SignedDelegationCertificate}

theorem length_le_depth {first : SignedDelegationCertificate}
    (hlinks : (first :: chain).IsChain (Continues digest)) :
    (first :: chain).length ≤ first.certificate.remainingDelegationDepth + 1 := by
  induction chain generalizing first with
  | nil => exact Nat.le_add_left 1 _
  | cons child rest ih =>
    rw [isChain_cons_cons] at hlinks
    have hdepth := DelegationCertificate.attenuates_depth hlinks.1
    have hrest := ih hlinks.2
    rw [length_cons]
    omega

/-- A certificate of a chain for the network covers the action. -/
def Grants (network : Bytes32) (action : RequestedAction) (nowMs : Nat)
    (signed : SignedDelegationCertificate) : Prop :=
  signed.certificate.scope.domain = action.domain ∧
    signed.certificate.scope.resource = idBytes network ∧
    signed.certificate.covers action.path action.action nowMs = true

variable {network : Bytes32} {action : RequestedAction} {claims : SessionClaims}

theorem Grants.parent
    {parent child : SignedDelegationCertificate} (h : Grants network action nowMs child)
    (hlink : Continues digest parent child) : Grants network action nowMs parent :=
  ⟨(DelegationCertificate.attenuates_domain hlink).symm.trans h.1,
    (DelegationCertificate.attenuates_resource hlink).symm.trans h.2.1,
    DelegationCertificate.covers_of_attenuates hlink h.2.2⟩

theorem grants_of_leaf
    (hlinks : chain.IsChain (Continues digest))
    (hleaf : ∃ leaf ∈ chain.getLast?, Grants network action nowMs leaf) :
    ∀ s ∈ chain, Grants network action nowMs s := by
  obtain ⟨leaf, hlast, hgrants⟩ := hleaf
  refine hlinks.backwards_induction _ _ (fun parent child hlink h => h.parent hlink) fun hne => ?_
  rw [getLast?_eq_some_getLast hne] at hlast
  exact some.inj hlast ▸ hgrants

theorem checkMember_ok
    (h : policy.checkMember digest claims ledger nowMs = .ok ()) :
    ValidChain digest claims.delegations claims.subject policy.trustedRoots ledger
        (min policy.limits.maxDelegationDepth policy.limits.maxCertificates) nowMs ∧
      ∃ leaf ∈ claims.delegations.getLast?, Grants claims.network claims.action nowMs leaf := by
  unfold LocalNetworkPolicy.checkMember at h
  split at h
  · cases h
  rename_i hvalid
  split at h
  · rename_i hcovered
    refine ⟨validateChain_ok_iff.mp hvalid, ?_⟩
    obtain ⟨leaf, hleaf, hgrants⟩ := (any_eq_true _ _).mp hcovered
    simp only [Bool.and_eq_true, beq_iff_eq] at hgrants
    exact ⟨leaf, hleaf, hgrants.1.1, hgrants.1.2, hgrants.2⟩
  · cases h

theorem evaluate_accept {class_ : TrafficClass}
    (h : policy.evaluate digest facts claims ledger nowMs activeSessions = .accept class_)
    {rule : ServiceRule} (hrule : policy.serviceRule claims.action.path = some rule)
    (hmember : rule.access = .memberOnly) :
    claims.network = policy.network ∧
      (∀ initiator ∈ facts.authenticatedInitiator, initiator = claims.subject) ∧
      policy.checkMember digest claims ledger nowMs = .ok () := by
  unfold LocalNetworkPolicy.evaluate at h
  split at h
  · cases h
  split at h
  · cases h
  rename_i hnetwork
  split at h
  · cases h
  split at h
  · cases h
  rw [hrule] at h
  simp only [hmember] at h
  split at h
  · cases h
  split at h
  · cases h
  split at h
  · cases h
  split at h
  · cases h
  rename_i hinitiator
  cases hcheck : policy.checkMember digest claims ledger nowMs with
  | error => rw [hcheck] at h; cases h
  | ok _ =>
    refine ⟨not_not.mp hnetwork, fun initiator hmem => ?_, rfl⟩
    by_contra hne
    exact hinitiator ((any_eq_true _ _).mpr ⟨initiator, hmem, by simpa using hne⟩)

theorem admits_ok {principal : AdmittedPrincipal}
    (h : (admits prims policy ledger bytes facts nowMs activeSessions).2 = .ok principal) :
    ∃ hello class_, SessionHello.decode prims bytes policy.limits.clamped = .ok hello ∧
      hello.verifyProof prims facts.proofBinding = true ∧
      policy.evaluate prims.digest facts hello.claims ledger nowMs activeSessions = .accept class_ ∧
      principal = ⟨hello.subject, class_, hello.sessionId prims facts.proofBinding, hello.action⟩ := by
  unfold admits respond at h
  cases hdecode : SessionHello.decode prims bytes policy.limits.clamped with
  | error => rw [hdecode] at h; cases h
  | ok hello =>
    simp only [hdecode] at h
    cases hproof : hello.verifyProof prims facts.proofBinding with
    | false => rw [hproof] at h; cases h
    | true =>
      rw [hproof] at h
      cases hdecision : policy.evaluate prims.digest facts hello.claims ledger nowMs
          activeSessions with
      | deny reason => rw [hdecision] at h; cases h
      | accept class_ =>
        rw [hdecision] at h
        cases h
        exact ⟨hello, class_, rfl, hproof, hdecision, rfl⟩

/-- A member is admitted on a proof that fits the responder's own facts and on a chain from a trusted
root, every certificate of which covers the action. -/
theorem admits_sound (prims : Primitives) (policy : LocalNetworkPolicy) (ledger : RevocationLedger)
    (bytes : Str) (facts : SessionFacts) (nowMs activeSessions : Nat) (principal : AdmittedPrincipal)
    (h : (admits prims policy ledger bytes facts nowMs activeSessions).2 = .ok principal)
    (rule : ServiceRule) (hrule : policy.serviceRule principal.action.path = some rule)
    (hmember : rule.access = .memberOnly) :
    (∃ hello, SessionHello.decode prims bytes policy.limits.clamped = .ok hello ∧
      hello.verifyProof prims facts.proofBinding = true ∧ hello.subject = principal.subject ∧
      hello.action = principal.action) ∧
    (∀ initiator ∈ facts.authenticatedInitiator, initiator = principal.subject) ∧
    ∃ chain : List SignedDelegationCertificate,
      (∀ s ∈ chain, s.verify = true ∧ ledger.revokes prims.digest s.certificate = false) ∧
      chain.IsChain (Continues prims.digest) ∧
      (∃ first ∈ chain.head?, (∃ root ∈ policy.trustedRoots,
          first.certificate.parent = .root root.authority ∧ first.certificate.issuer = root.issuer) ∧
        chain.length ≤ first.certificate.remainingDelegationDepth + 1) ∧
      (∃ leaf ∈ chain.getLast?, leaf.certificate.subject = principal.subject) ∧
      chain.length ≤ policy.limits.maxDelegationDepth ∧
      chain.length ≤ policy.limits.maxCertificates ∧
      ∀ s ∈ chain, Grants policy.network principal.action nowMs s := by
  obtain ⟨hello, class_, hdecode, hproof, haccept, rfl⟩ := admits_ok h
  obtain ⟨hnetwork, hinitiator, hcheck⟩ := evaluate_accept haccept hrule hmember
  obtain ⟨hvalid, hleaf⟩ := checkMember_ok hcheck
  refine ⟨⟨hello, hdecode, hproof, rfl, rfl⟩, hinitiator, hello.delegations,
    fun s hs => ⟨hvalid.verified s hs, (hvalid.current s hs).unrevoked⟩, hvalid.links, ?_,
    hvalid.leaf, hvalid.depth.trans (min_le_left _ _), hvalid.depth.trans (min_le_right _ _),
    hnetwork ▸ grants_of_leaf hvalid.links hleaf⟩
  obtain ⟨first, hfirst, hroot⟩ := hvalid.rooted
  refine ⟨first, hfirst, hroot, ?_⟩
  obtain ⟨rest, hchain⟩ := head?_eq_some_iff.mp hfirst
  have hlinks := hvalid.links
  change hello.delegations.IsChain _ at hlinks
  change hello.delegations = first :: rest at hchain
  rw [hchain] at hlinks ⊢
  exact length_le_depth hlinks

end Sound

/-! ## A member of a network -/

def memberChain : List SignedDelegationCertificate :=
  [⟨{ parent := .root 7, issuer := 1, subject := 2, scope := ⟨[109], idBytes 5, [47, 97], {[99]}⟩
      notBeforeMs := 0, issuedAtMs := 0, expiresAtMs := none, remainingDelegationDepth := 1
      nonce := 0 }, true, some 1, true⟩,
    ⟨{ parent := .certificate 100, issuer := 2, subject := 9
       scope := ⟨[109], idBytes 5, [47, 97, 47, 98], {[99]}⟩, notBeforeMs := 1, issuedAtMs := 0
       expiresAtMs := some 50, remainingDelegationDepth := 0, nonce := 0 }, true, some 2, true⟩]

def memberHello : SessionHello where
  version := 1
  network := 5
  profile := ⟨[112], 1⟩
  action := ⟨[109], [47, 97, 47, 98], [99]⟩
  class_ := .interactive
  nonce := 0
  subject := 9
  attested := true
  master := some 9
  derived := some 10
  delegations := memberChain
  transcriptSignature := List.replicate 64 0

def memberPrimitives : Primitives where
  digest c := if c.issuer = 1 then 100 else 101
  parseHello _ := some memberHello
  certificateSize _ := some 200
  hash _ := 11
  verifies _ _ _ := true

def memberPolicy : LocalNetworkPolicy where
  network := 5
  acceptedProfiles := [⟨[112], 1⟩]
  trustedRoots := [⟨7, 1⟩]
  services := AList.insert [47, 97] ⟨.memberOnly, [109], {[99]}, true, none⟩ ∅
  limits := {}

theorem admits_sound_member :
    (admits memberPrimitives memberPolicy {} [] ⟨[], some 9, none⟩ 10 0).2 =
        .ok ⟨9, .interactive, 11, memberHello.action⟩ ∧
      ∃ chain : List SignedDelegationCertificate, chain.length ≤ 4 ∧
        ∀ s ∈ chain, Grants 5 memberHello.action 10 s := by
  have hadmitted : (admits memberPrimitives memberPolicy {} [] ⟨[], some 9, none⟩ 10 0).2 =
      .ok ⟨9, .interactive, 11, memberHello.action⟩ := by decide +kernel
  obtain ⟨-, -, chain, -, -, -, -, hdepth, -, hgrants⟩ := admits_sound memberPrimitives memberPolicy {}
    [] ⟨[], some 9, none⟩ 10 0 _ hadmitted ⟨.memberOnly, [109], {[99]}, true, none⟩ rfl rfl
  exact ⟨hadmitted, chain, hdepth, hgrants⟩

end Mere.Notochord
