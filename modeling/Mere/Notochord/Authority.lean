import Mere.Notochord.Admission

/-!
# Authority kept after admission

From `crates/system/notochord/src/{authority,io}.rs`: a session keeps the chain of its hello and
asks it again against later ledgers and clocks.
-/

namespace Mere.Notochord

open Personae List

/-! ## Sessions and what they keep -/

structure AdmittedSession where
  principal : AdmittedPrincipal
  claims : SessionClaims
  facts : SessionFacts
  limits : HandshakeLimits

/-- `admit_session` once the hello is read. The frame that was accepted is decoded again. -/
def admitSession (prims : Primitives) (policy : LocalNetworkPolicy) (ledger : RevocationLedger)
    (bytes : Str) (facts : SessionFacts) (nowMs activeSessions : Nat) :
    Except DenyReason AdmittedSession :=
  match (admits prims policy ledger bytes facts nowMs activeSessions).2 with
  | .error reason => .error reason
  | .ok principal =>
    match SessionHello.decode prims bytes policy.limits.clamped with
    | .error _ => .error .malformedHello
    | .ok hello => .ok ⟨principal, hello.claims, facts, policy.limits.clamped⟩

inductive AuthorityLapse where
  | expired (atMs : Nat)
  | revoked
  deriving DecidableEq

structure RetainedAuthority where
  principal : AdmittedPrincipal
  chain : List SignedDelegationCertificate

namespace RetainedAuthority

def fromAdmitted (session : AdmittedSession) : RetainedAuthority :=
  ⟨session.principal, session.claims.delegations⟩

variable (authority : RetainedAuthority)

def deadlineMs : Option Nat :=
  (authority.chain.filterMap fun signed => signed.certificate.expiresAtMs).min?

/-- A withdrawal outranks an expiry. -/
def lapse (digest : DelegationCertificate → Bytes32) (ledger : RevocationLedger) (nowMs : Nat) :
    Option AuthorityLapse :=
  if authority.chain.any fun signed => ledger.revokes digest signed.certificate then some .revoked
  else
    match authority.deadlineMs with
    | some deadline => if deadline < nowMs then some (.expired deadline) else none
    | none => none

def covers (path action : Str) (atMs : Nat) : Bool :=
  authority.chain.getLast?.any fun leaf => leaf.certificate.covers path action atMs

end RetainedAuthority

/-! ## What is asked again -/

section Later

variable {digest : DelegationCertificate → Bytes32} {authority : RetainedAuthority}
  {ledger : RevocationLedger} {nowMs : Nat}

theorem RetainedAuthority.le_deadlineMs_iff :
    (∀ deadline, authority.deadlineMs = some deadline → nowMs ≤ deadline) ↔
      ∀ signed ∈ authority.chain, signed.certificate.expiresAtMs.all (nowMs ≤ ·) = true := by
  have hexpiries : (∀ signed ∈ authority.chain,
        signed.certificate.expiresAtMs.all (nowMs ≤ ·) = true) ↔
      ∀ expires ∈ authority.chain.filterMap (fun signed => signed.certificate.expiresAtMs),
        nowMs ≤ expires := by
    simp only [mem_filterMap, forall_exists_index, and_imp, Option.all_eq_true,
      decide_eq_true_eq]
    exact ⟨fun h expires signed hmem heq => h signed hmem expires heq,
      fun h signed hmem expires heq => h expires signed hmem heq⟩
  rw [hexpiries]
  unfold RetainedAuthority.deadlineMs
  cases hmin : (authority.chain.filterMap fun signed => signed.certificate.expiresAtMs).min? with
  | none =>
    rw [min?_eq_none_iff] at hmin
    simp [hmin]
  | some deadline =>
    rw [min?_eq_some_iff] at hmin
    constructor
    · intro h expires hmem
      exact (h deadline rfl).trans (hmin.2 expires hmem)
    · intro h deadline' heq
      cases heq
      exact h deadline hmin.1

/-- An authority has not lapsed when none of its certificates is withdrawn or has expired. -/
theorem RetainedAuthority.lapse_eq_none_iff :
    authority.lapse digest ledger nowMs = none ↔
      ∀ signed ∈ authority.chain, ledger.revokes digest signed.certificate = false ∧
        signed.certificate.expiresAtMs.all (nowMs ≤ ·) = true := by
  rw [forall₂_and, ← le_deadlineMs_iff]
  unfold RetainedAuthority.lapse
  by_cases hrevoked : authority.chain.any fun signed => ledger.revokes digest signed.certificate
  · rw [if_pos hrevoked]
    simp only [any_eq_true] at hrevoked
    obtain ⟨signed, hmem, hyes⟩ := hrevoked
    refine ⟨nofun, fun h => ?_⟩
    rw [h.1 signed hmem] at hyes
    cases hyes
  · rw [if_neg hrevoked, and_iff_right]
    · cases authority.deadlineMs with
      | none => simp
      | some deadline => simp
    · rw [Bool.not_eq_true, any_eq_false] at hrevoked
      exact fun signed hmem => Bool.not_eq_true _ ▸ hrevoked signed hmem

variable {principal : AdmittedPrincipal}

theorem ValidChain.later {chain : List SignedDelegationCertificate} {subject : Bytes32}
    {trustedRoots : List TrustedRoot} {maxDepth thenMs : Nat} {ledger₀ : RevocationLedger}
    (h : ValidChain digest chain subject trustedRoots ledger₀ maxDepth thenMs)
    (hlater : thenMs ≤ nowMs)
    (hlapse : RetainedAuthority.lapse ⟨principal, chain⟩ digest ledger nowMs = none) :
    ValidChain digest chain subject trustedRoots ledger maxDepth nowMs := by
  rw [RetainedAuthority.lapse_eq_none_iff] at hlapse
  refine { h with current := fun signed hmem => ?_ }
  exact ⟨(hlapse signed hmem).1, (h.current signed hmem).begun.trans hlater, (hlapse signed hmem).2⟩

end Later

/-! ## Whose chain was checked -/

section Rule

variable {digest : DelegationCertificate → Bytes32} {policy : LocalNetworkPolicy}
  {facts : SessionFacts} {ledger : RevocationLedger} {nowMs activeSessions : Nat}
  {claims : SessionClaims} {rule : ServiceRule} {class_ : TrafficClass}

theorem evaluate_chain_free (hrule : policy.serviceRule claims.action.path = some rule)
    (hopen : rule.access ≠ .memberOnly) (chain : List SignedDelegationCertificate) :
    policy.evaluate digest facts { claims with delegations := chain } ledger nowMs activeSessions =
      policy.evaluate digest facts claims ledger nowMs activeSessions := by
  unfold LocalNetworkPolicy.evaluate
  simp only [hrule, if_neg hopen]
  rfl

/-- A certificate that anyone can make out: it names another certificate as the one above it. -/
def selfMade : SignedDelegationCertificate where
  certificate :=
    { parent := .certificate 0, issuer := 1, subject := 1
      scope := ⟨[109], [1], [47], {[99]}⟩, notBeforeMs := 0, issuedAtMs := 0, expiresAtMs := none
      remainingDelegationDepth := 0, nonce := 0 }
  attested := true
  master := some 1
  signed := true

theorem selfMade_covers (atMs : Nat) : selfMade.certificate.covers [47] [99] atMs = true := by
  have hformed : selfMade.certificate.isWellFormed = true := by decide
  have hpath : pathCovers selfMade.certificate.scope.pathPrefix [47] = true := by decide
  unfold DelegationCertificate.covers
  rw [hformed, hpath]
  simp [selfMade]

theorem selfMade_unlapsed {nowMs : Nat} :
    RetainedAuthority.lapse ⟨principal, [selfMade]⟩ digest {} nowMs = none := by
  rw [RetainedAuthority.lapse_eq_none_iff]
  intro signed hmem
  cases mem_singleton.mp hmem
  refine ⟨?_, rfl⟩
  rfl

theorem selfMade_refused (subject : Bytes32) (trustedRoots : List TrustedRoot)
    (ledger : RevocationLedger) (maxDepth nowMs : Nat) :
    validateChain digest [selfMade] subject trustedRoots ledger maxDepth nowMs ≠ .ok () := by
  intro h
  obtain ⟨first, hfirst, root, -, hparent, -⟩ := (validateChain_ok_iff.mp h).rooted
  cases hfirst
  cases hparent

theorem admitSession_ok {prims : Primitives} {bytes : Str} {session : AdmittedSession}
    (h : admitSession prims policy ledger bytes facts nowMs activeSessions = .ok session) :
    policy.evaluate prims.digest facts session.claims ledger nowMs activeSessions =
        .accept session.principal.class_ ∧
      session.principal.subject = session.claims.subject ∧
      session.principal.action = session.claims.action := by
  unfold admitSession at h
  cases hadmits : (admits prims policy ledger bytes facts nowMs activeSessions).2 with
  | error reason => rw [hadmits] at h; cases h
  | ok principal =>
    obtain ⟨hello, class_, hdecode, -, haccept, rfl⟩ := admits_ok hadmits
    simp only [hadmits, hdecode] at h
    cases h
    exact ⟨haccept, rfl, rfl⟩

def AdmittedSession.withChain (session : AdmittedSession)
    (chain : List SignedDelegationCertificate) : AdmittedSession :=
  { session with claims := { session.claims with delegations := chain } }

/-- Whatever chain a hello carried, the one that is kept was checked, exactly where the service asks
for membership. Any other rule accepts the session with every chain, and keeps it. -/
theorem retained_chain_valid_iff (prims : Primitives) (policy : LocalNetworkPolicy)
    (ledger₀ : RevocationLedger) (bytes : Str) (facts : SessionFacts) (thenMs activeSessions : Nat)
    (session : AdmittedSession)
    (h : admitSession prims policy ledger₀ bytes facts thenMs activeSessions = .ok session)
    (rule : ServiceRule) (hrule : policy.serviceRule session.principal.action.path = some rule) :
    (∀ chain, policy.evaluate prims.digest facts (session.withChain chain).claims ledger₀ thenMs
          activeSessions = .accept session.principal.class_ →
        ∀ path action ledger nowMs, thenMs ≤ nowMs →
          (RetainedAuthority.fromAdmitted (session.withChain chain)).covers path action nowMs =
            true →
          (RetainedAuthority.fromAdmitted (session.withChain chain)).lapse prims.digest ledger
            nowMs = none →
          validateChain prims.digest
            (RetainedAuthority.fromAdmitted (session.withChain chain)).chain
            session.principal.subject policy.trustedRoots ledger
            (min policy.limits.maxDelegationDepth policy.limits.maxCertificates) nowMs = .ok ()) ↔
      rule.access = .memberOnly := by
  obtain ⟨haccept, hsubject, haction⟩ := admitSession_ok h
  rw [haction] at hrule
  constructor
  · intro hvalid
    by_contra hopen
    have hkept := (evaluate_chain_free hrule hopen [selfMade]).trans haccept
    exact selfMade_refused _ _ _ _ _ (hvalid [selfMade] hkept [47] [99] {} thenMs le_rfl
      (selfMade_covers thenMs) selfMade_unlapsed)
  · intro hmember chain hchain path action ledger nowMs hlater _ hlapse
    obtain ⟨-, -, hcheck⟩ := evaluate_accept hchain hrule hmember
    have hvalid := (checkMember_ok hcheck).1
    change ValidChain _ chain session.claims.subject _ _ _ _ at hvalid
    rw [← hsubject] at hvalid
    exact validateChain_ok_iff.mpr (hvalid.later hlater hlapse)

end Rule

def memberSession : AdmittedSession where
  principal := ⟨9, .interactive, 11, memberHello.action⟩
  claims := memberHello.claims
  facts := ⟨[], some 9, none⟩
  limits := {}

theorem retained_chain_valid_member :
    admitSession memberPrimitives memberPolicy {} [] ⟨[], some 9, none⟩ 10 0 = .ok memberSession ∧
    ∀ path action ledger nowMs, 10 ≤ nowMs →
      (RetainedAuthority.fromAdmitted memberSession).covers path action nowMs = true →
      (RetainedAuthority.fromAdmitted memberSession).lapse memberPrimitives.digest ledger nowMs =
        none →
      validateChain memberPrimitives.digest memberChain 9 [⟨7, 1⟩] ledger 4 nowMs = .ok () :=
  ⟨rfl, (retained_chain_valid_iff memberPrimitives memberPolicy {} [] ⟨[], some 9, none⟩ 10 0
    memberSession rfl ⟨.memberOnly, [109], {[99]}, true, none⟩ rfl).mpr rfl memberChain
    (by decide +kernel)⟩

def openPolicy : LocalNetworkPolicy :=
  { memberPolicy with
    services := AList.insert [47, 97] ⟨.public_, [109], {[99]}, true, none⟩ ∅ }

def selfMadePrimitives : Primitives :=
  { memberPrimitives with
    parseHello := fun _ => some { memberHello with delegations := [selfMade] } }

/-- A hello with a certificate of its sender's own making is admitted to an open service. The
session then answers that its authority covers what the certificate says. -/
theorem self_made_chain_retained :
    ∃ session, admitSession selfMadePrimitives openPolicy {} [] ⟨[], some 9, none⟩ 10 0 =
        .ok session ∧
      (RetainedAuthority.fromAdmitted session).covers [47] [99] 10 = true ∧
      (RetainedAuthority.fromAdmitted session).lapse selfMadePrimitives.digest {} 10 = none ∧
      validateChain selfMadePrimitives.digest (RetainedAuthority.fromAdmitted session).chain
        session.principal.subject openPolicy.trustedRoots {} 4 10 = .error .untrustedRoot :=
  ⟨_, rfl, by decide, by decide +kernel, by decide +kernel⟩

end Mere.Notochord
