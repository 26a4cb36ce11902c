import Mere.Base.Arena
import Mere.Base.Run
import Mere.Gemot.Constitution
import Mere.Personae.Certificate

/-!
# Delegation beneath a constitution

From `crates/moot/gemot/src/moot/delegation.rs`: certificates that hand on what a grant of the
constitution gives.
-/

namespace Mere.Gemot

open Personae List Option Function

/-! ## Grants -/

structure CapabilityGrant where
  id : Bytes32
  subject : Bytes32
  pathPrefix : Str
  notBeforeMs : Nat
  expiresAtMs : Option Nat
  /-- How many certificates may stand below the grant, one under the other. -/
  delegationDepth : Nat
  deriving DecidableEq

/-- The one clause of the rules that is read here: the grants by their ids. -/
abbrev GrantRules := ConstitutionRules (Table Bytes32 CapabilityGrant)

/-- `moot`. -/
def mootDelegationDomain : Str := [109, 111, 111, 116]

/-- `act`. -/
def mootActAction : Str := [97, 99, 116]

def rootScope (root : CapabilityGrant) (mootId : Bytes32) : CapabilityScope where
  domain := mootDelegationDomain
  resource := idBytes mootId
  pathPrefix := root.pathPrefix
  actions := {mootActAction}

def attenuatesRoot (c : DelegationCertificate) (root : CapabilityGrant) (mootId : Bytes32) : Bool :=
  c.parent == .root root.id && c.issuer == root.subject &&
    c.scope.attenuates (rootScope root mootId) && decide (root.notBeforeMs ≤ c.notBeforeMs) &&
    expiryWithin c.expiresAtMs root.expiresAtMs && decide (0 < root.delegationDepth) &&
    decide (c.remainingDelegationDepth < root.delegationDepth)

def isMootScope (scope : CapabilityScope) (mootId : Bytes32) : Bool :=
  scope.domain == mootDelegationDomain && scope.resource == idBytes mootId

/-! ## Accepted statements -/

inductive MootDelegationError where
  | invalidSignature | wrongMoot | unknownRoot | unknownParent | inactiveParent | escalation
  | identifierCollision | unknownCertificate | wrongRevoker
  deriving DecidableEq

structure MootDelegations where
  certificates : Table Bytes32 SignedDelegationCertificate := ∅
  revoked : Finset Bytes32 := ∅

namespace MootDelegations

variable (digest : DelegationCertificate → Bytes32) (s : MootDelegations) (rules : GrantRules)
  (mootId : Bytes32)

def chainIsLive : Nat → Bytes32 → Option Bool
  | 0, _ => none
  | fuel + 1, id =>
    if id ∈ s.revoked then some false
    else match s.certificates.lookup id with
      | none => some false
      | some signed =>
        match signed.certificate.parent with
        | .root rootId =>
          some ((rules.clauses.lookup rootId).any (attenuatesRoot signed.certificate · mootId))
        | .certificate parent =>
          (chainIsLive fuel parent).map fun live => live &&
            (s.certificates.lookup parent).any (signed.certificate.attenuates ·.certificate digest)

/-- More certificates than are held are not looked at (`chain_ends`). -/
def isLive (id : Bytes32) : Bool :=
  chainIsLive digest s rules mootId (s.certificates.keys.length + 1) id == some true

/-- What the certificate hangs from lets it be. -/
def judge (c : DelegationCertificate) : Except MootDelegationError Unit :=
  match c.parent with
  | .root rootId =>
    match rules.clauses.lookup rootId with
    | none => .error .unknownRoot
    | some root => if attenuatesRoot c root mootId then .ok () else .error .escalation
  | .certificate parentId =>
    match s.certificates.lookup parentId with
    | none => .error .unknownParent
    | some parent =>
      if !s.isLive digest rules mootId parentId then .error .inactiveParent
      else if c.attenuates parent.certificate digest then .ok ()
      else .error .escalation

def acceptCertificate (signed : SignedDelegationCertificate) :
    Except MootDelegationError Bool × MootDelegations :=
  if !signed.verify then (.error .invalidSignature, s)
  else if !isMootScope signed.certificate.scope mootId then (.error .wrongMoot, s)
  else match s.judge digest rules mootId signed.certificate with
    | .error refusal => (.error refusal, s)
    | .ok () =>
      let id := digest signed.certificate
      match s.certificates.lookup id with
      | some existing =>
        if existing = signed then (.ok false, s) else (.error .identifierCollision, s)
      | none => (.ok true, { s with certificates := s.certificates.insert id signed })

def acceptRevocation (signed : SignedDelegationRevocation) :
    Except MootDelegationError Bool × MootDelegations :=
  if !signed.verify then (.error .invalidSignature, s)
  else match s.certificates.lookup signed.revocation.certificate with
    | none => (.error .unknownCertificate, s)
    | some target =>
      if target.certificate.issuer ≠ signed.revocation.issuer ∨
          target.certificate.scope ≠ signed.revocation.scope then
        (.error .wrongRevoker, s)
      else
        (.ok (decide (signed.revocation.certificate ∉ s.revoked)),
          { s with revoked := insert signed.revocation.certificate s.revoked })

def covers (subject : Bytes32) (path : Str) (atMs : Nat) : Bool :=
  s.certificates.entries.any fun entry =>
    entry.2.certificate.subject == subject && isMootScope entry.2.certificate.scope mootId &&
      entry.2.certificate.covers path mootActAction atMs && s.isLive digest rules mootId entry.1

/-! ## Runs -/

/-- A call, each with the rules and the Moot of its own moment. -/
inductive Call where
  | certificate (mootId : Bytes32) (rules : GrantRules) (signed : SignedDelegationCertificate)
  | revocation (signed : SignedDelegationRevocation)

def step : Call → Option MootDelegations
  | .certificate mootId rules signed => some (s.acceptCertificate digest rules mootId signed).2
  | .revocation signed => some (s.acceptRevocation signed).2

structure Sound : Prop where
  accepted : ∀ id signed, s.certificates.lookup id = some signed →
    signed.verify = true ∧ digest signed.certificate = id
  ranked : ∃ rank : Bytes32 → Nat, ∀ id signed, s.certificates.lookup id = some signed →
    rank id < s.certificates.keys.length ∧ ∀ parent, signed.certificate.parent = .certificate parent →
      rank parent < rank id ∧ (s.certificates.lookup parent).isSome

variable {digest s rules mootId}

theorem judge_certificate {c : DelegationCertificate} {parent : Bytes32}
    (h : s.judge digest rules mootId c = .ok ()) (hparent : c.parent = .certificate parent) :
    (s.certificates.lookup parent).isSome := by
  unfold judge at h
  rw [hparent] at h
  cases hlookup : s.certificates.lookup parent with
  | none =>
    simp only [hlookup] at h
    cases h
  | some _ => rfl

theorem acceptCertificate_cases (signed : SignedDelegationCertificate) :
    (s.acceptCertificate digest rules mootId signed).2 = s ∨
      (signed.verify = true ∧ s.judge digest rules mootId signed.certificate = .ok () ∧
        s.certificates.lookup (digest signed.certificate) = none ∧
        (s.acceptCertificate digest rules mootId signed).2 =
          { s with certificates := s.certificates.insert (digest signed.certificate) signed }) := by
  unfold acceptCertificate
  split
  · exact .inl rfl
  rename_i hverify
  split
  · exact .inl rfl
  split
  · exact .inl rfl
  rename_i hjudge
  simp only
  split
  · split <;> exact .inl rfl
  · rename_i hfree
    exact .inr ⟨by simpa using hverify, hjudge, hfree, rfl⟩

theorem certificates_acceptRevocation (signed : SignedDelegationRevocation) :
    (s.acceptRevocation signed).2.certificates = s.certificates := by
  unfold acceptRevocation
  split
  · rfl
  split
  · rfl
  split <;> rfl

theorem Sound.insert (h : s.Sound digest) {signed : SignedDelegationCertificate}
    (hverify : signed.verify = true)
    (hjudge : s.judge digest rules mootId signed.certificate = .ok ())
    (hfree : s.certificates.lookup (digest signed.certificate) = none) :
    Sound digest { s with certificates := s.certificates.insert (digest signed.certificate) signed } := by
  have hlookup (id : Bytes32) :=
    Table.lookup_insert_if s.certificates (digest signed.certificate) id signed
  have hlength : (s.certificates.insert (digest signed.certificate) signed).keys.length =
      s.certificates.keys.length + 1 := by
    rw [AList.keys_insert, length_cons, erase_of_not_mem]
    exact AList.lookup_eq_none.mp hfree
  obtain ⟨rank, hrank⟩ := h.ranked
  constructor
  · intro id c hc
    rw [hlookup] at hc
    split at hc
    · rename_i hid
      obtain rfl := some.inj hc
      exact ⟨hverify, hid.symm⟩
    · exact h.accepted id c hc
  · -- The new certificate comes after all others.
    refine ⟨Function.update rank (digest signed.certificate) s.certificates.keys.length, ?_⟩
    intro id c hc
    have hparents (parent : Bytes32) (hparent : (s.certificates.lookup parent).isSome) :
        parent ≠ digest signed.certificate := by
      rintro rfl
      rw [hfree] at hparent
      cases hparent
    have hheld (parent : Bytes32) (hparent : (s.certificates.lookup parent).isSome) :
        ((s.certificates.insert (digest signed.certificate) signed).lookup parent).isSome := by
      rw [hlookup, if_neg (hparents parent hparent)]
      exact hparent
    simp only [hlength]
    rw [hlookup] at hc
    split at hc
    · rename_i hid
      obtain rfl := some.inj hc
      subst hid
      rw [update_self]
      refine ⟨Nat.lt_succ_self _, fun parent hparent => ?_⟩
      have hsome := judge_certificate hjudge hparent
      obtain ⟨above, habove⟩ := isSome_iff_exists.mp hsome
      rw [update_of_ne (hparents parent hsome)]
      exact ⟨(hrank parent above habove).1, hheld parent hsome⟩
    · rename_i hid
      obtain ⟨hlt, hparent⟩ := hrank id c hc
      rw [update_of_ne hid]
      refine ⟨by omega, fun parent hc => ?_⟩
      obtain ⟨hbefore, hsome⟩ := hparent parent hc
      rw [update_of_ne (hparents parent hsome)]
      exact ⟨hbefore, hheld parent hsome⟩

theorem sound_of_reach (h : Reach {} (step digest) (fun _ _ => True) s) : s.Sound digest := by
  refine h.invariant ⟨fun _ _ hempty => (nomatch hempty), fun _ => 0, fun _ _ hempty => (nomatch hempty)⟩
    fun s s' call ih _ hstep => ?_
  cases call with
  | certificate mootId rules signed =>
    obtain rfl := some.inj hstep
    rcases @acceptCertificate_cases digest s rules mootId signed with hsame | ⟨hverify, hjudge, hfree, heq⟩
    · rwa [hsame]
    · rw [heq]
      exact ih.insert hverify hjudge hfree
  | revocation signed =>
    obtain rfl := some.inj hstep
    have hsame := certificates_acceptRevocation (s := s) signed
    exact ⟨by rw [hsame]; exact ih.accepted, by rw [hsame]; exact ih.ranked⟩

/-! ## The walk ends -/

variable {id : Bytes32}

theorem chainIsLive_revoked (h : id ∈ s.revoked) (fuel : Nat) :
    chainIsLive digest s rules mootId (fuel + 1) id = some false := by
  rw [chainIsLive, if_pos h]

theorem chainIsLive_none (h : s.certificates.lookup id = none) (fuel : Nat) :
    chainIsLive digest s rules mootId (fuel + 1) id = some false := by
  rw [chainIsLive, h]
  exact ite_self _

/-- Where the parents of what is held are held, each lower than its child, the walk ends. -/
theorem chainIsLive_of_rank {rank : Bytes32 → Nat}
    (hrank : ∀ id signed, s.certificates.lookup id = some signed →
      ∀ parent, signed.certificate.parent = .certificate parent → rank parent < rank id) (id : Bytes32) :
    ∃ live, ∀ fuel, rank id < fuel → chainIsLive digest s rules mootId fuel id = some live := by
  induction hn : rank id using Nat.strong_induction_on generalizing id with
  | _ n ih =>
    have hsucc {P : Nat → Prop} (h : ∀ fuel, n ≤ fuel → P (fuel + 1)) : ∀ fuel, n < fuel → P fuel := by
      rintro (_ | fuel) hfuel
      · exact absurd hfuel (Nat.not_lt_zero n)
      · exact h fuel (Nat.lt_succ_iff.mp hfuel)
    by_cases hrevoked : id ∈ s.revoked
    · exact ⟨false, hsucc fun fuel _ => chainIsLive_revoked hrevoked fuel⟩
    cases hlookup : s.certificates.lookup id with
    | none => exact ⟨false, hsucc fun fuel _ => chainIsLive_none hlookup fuel⟩
    | some signed =>
      cases hparent : signed.certificate.parent with
      | root rootId =>
        refine ⟨(rules.clauses.lookup rootId).any (attenuatesRoot signed.certificate · mootId),
          hsucc fun fuel _ => ?_⟩
        rw [chainIsLive, if_neg hrevoked]
        simp only [hlookup, hparent]
      | certificate parent =>
        have hbefore := hrank id signed hlookup parent hparent
        obtain ⟨live, hlive⟩ := ih (rank parent) (hn ▸ hbefore) parent rfl
        refine ⟨live && (s.certificates.lookup parent).any
          (signed.certificate.attenuates ·.certificate digest), hsucc fun fuel hfuel => ?_⟩
        rw [chainIsLive, if_neg hrevoked]
        simp only [hlookup, hparent, hlive fuel (by omega), map_some]

theorem Sound.chain_ends (h : s.Sound digest) (rules : GrantRules) (mootId id : Bytes32) :
    ∃ live, ∀ more, chainIsLive digest s rules mootId (s.certificates.keys.length + 1 + more) id =
      some live := by
  obtain ⟨rank, hrank⟩ := h.ranked
  cases hlookup : s.certificates.lookup id with
  | none =>
    refine ⟨false, fun more => ?_⟩
    rw [Nat.add_right_comm]
    exact chainIsLive_none hlookup _
  | some signed =>
    obtain ⟨live, hlive⟩ := @chainIsLive_of_rank digest s rules mootId rank
      (fun id signed hsigned parent hparent => ((hrank id signed hsigned).2 parent hparent).1) id
    have hlt := (hrank id signed hlookup).1
    exact ⟨live, fun more => hlive _ (by omega)⟩

/-! ## The chain that a live walk follows -/

variable (digest s rules mootId) in
inductive Descends (grant : CapabilityGrant) :
    List SignedDelegationCertificate → SignedDelegationCertificate → Prop
  | first {id : Bytes32} {signed : SignedDelegationCertificate} :
      rules.clauses.lookup grant.id = some grant → s.certificates.lookup id = some signed →
      id ∉ s.revoked → attenuatesRoot signed.certificate grant mootId = true →
      Descends grant [signed] signed
  | next {id : Bytes32} {parent signed : SignedDelegationCertificate}
      {chain : List SignedDelegationCertificate} :
      Descends grant chain parent → s.certificates.lookup id = some signed → id ∉ s.revoked →
      signed.certificate.attenuates parent.certificate digest = true →
      Descends grant (chain ++ [signed]) signed

theorem descends_of_chainIsLive {fuel : Nat}
    (h : chainIsLive digest s rules mootId fuel id = some true) :
    ∃ signed grant chain, s.certificates.lookup id = some signed ∧
      Descends digest s rules mootId grant chain signed := by
  induction fuel generalizing id with
  | zero => cases h
  | succ fuel ih =>
    simp only [chainIsLive] at h
    split at h
    · cases h
    rename_i hrevoked
    split at h
    · cases h
    rename_i signed hlookup
    split at h
    · rename_i rootId hparent
      obtain ⟨grant, hgrant, hattenuates⟩ := (any_eq_true _ _).mp (some.inj h)
      have hid : rootId = grant.id := by
        simp only [attenuatesRoot, Bool.and_eq_true, beq_iff_eq] at hattenuates
        exact DelegationParent.root.inj (hparent.symm.trans hattenuates.1.1.1.1.1.1)
      exact ⟨signed, grant, [signed], hlookup, .first (hid ▸ hgrant) hlookup hrevoked hattenuates⟩
    · obtain ⟨live, hlive, hboth⟩ := map_eq_some_iff.mp h
      obtain ⟨rfl, hattenuates⟩ := Bool.and_eq_true_iff.mp hboth
      obtain ⟨parent, grant, chain, hheld, hchain⟩ := ih hlive
      rw [hheld] at hattenuates
      exact ⟨signed, grant, chain ++ [signed], hlookup, .next hchain hlookup hrevoked hattenuates⟩

namespace Descends

variable {grant : CapabilityGrant} {chain : List SignedDelegationCertificate}
  {signed : SignedDelegationCertificate}

variable (h : Descends digest s rules mootId grant chain signed)
include h

theorem granted :
    rules.clauses.lookup grant.id = some grant := by
  induction h with
  | first hgrant _ _ _ => exact hgrant
  | next _ _ _ _ ih => exact ih

theorem getLast :
    chain.getLast? = some signed := by
  cases h with
  | first _ _ _ _ => rfl
  | next _ _ _ _ => exact getLast?_concat

theorem issued :
    ∃ first, chain.head? = some first ∧ first.certificate.issuer = grant.subject := by
  induction h with
  | first _ _ _ hattenuates =>
    simp only [attenuatesRoot, Bool.and_eq_true, beq_iff_eq] at hattenuates
    exact ⟨_, rfl, hattenuates.1.1.1.1.1.2⟩
  | next _ _ _ _ ih =>
    obtain ⟨first, hfirst, hissuer⟩ := ih
    refine ⟨first, ?_, hissuer⟩
    rw [head?_append, hfirst]
    rfl

theorem linked :
    chain.IsChain fun c below => below.certificate.issuer = c.certificate.subject := by
  induction h with
  | first _ _ _ _ => exact .singleton _
  | next hchain _ _ hattenuates ih =>
    refine isChain_append.mpr ⟨ih, .singleton _, fun above habove below hbelow => ?_⟩
    rw [hchain.getLast, mem_some] at habove
    rw [head?_cons, mem_some] at hbelow
    subst habove hbelow
    exact (DelegationCertificate.attenuates_link hattenuates).2

theorem held :
    ∀ c ∈ chain, ∃ id, s.certificates.lookup id = some c ∧ id ∉ s.revoked := by
  induction h with
  | first _ hlookup hrevoked _ =>
    intro c hc
    rw [mem_singleton.mp hc]
    exact ⟨_, hlookup, hrevoked⟩
  | next _ hlookup hrevoked _ ih =>
    intro c hc
    rcases mem_append.mp hc with hc | hc
    · exact ih c hc
    · rw [mem_singleton.mp hc]
      exact ⟨_, hlookup, hrevoked⟩

theorem length_add_le :
    chain.length + signed.certificate.remainingDelegationDepth ≤ grant.delegationDepth := by
  induction h with
  | first _ _ _ hattenuates =>
    simp only [attenuatesRoot, Bool.and_eq_true, decide_eq_true_eq] at hattenuates
    rw [length_singleton]
    omega
  | next _ _ _ hattenuates ih =>
    simp only [DelegationCertificate.attenuates, Bool.and_eq_true, decide_eq_true_eq] at hattenuates
    rw [length_append, length_singleton]
    omega

theorem covers {path : Str} {atMs : Nat}
    (hcovers : signed.certificate.covers path mootActAction atMs = true) :
    (∀ c ∈ chain, c.certificate.covers path mootActAction atMs = true) ∧
      pathCovers grant.pathPrefix path = true ∧ grant.notBeforeMs ≤ atMs ∧
      grant.expiresAtMs.all (atMs ≤ ·) = true := by
  induction h with
  | first _ _ _ hattenuates =>
    simp only [attenuatesRoot, CapabilityScope.attenuates, rootScope, Bool.and_eq_true,
      decide_eq_true_eq] at hattenuates
    obtain ⟨⟨⟨⟨⟨-, ⟨⟨-, hpath⟩, -⟩⟩, hstart⟩, hexpiry⟩, -⟩, -⟩ := hattenuates
    refine ⟨fun c hc => mem_singleton.mp hc ▸ hcovers, ?_⟩
    simp only [DelegationCertificate.covers, Bool.and_eq_true, decide_eq_true_eq] at hcovers
    obtain ⟨⟨⟨⟨-, hbegun⟩, hlive⟩, hbelow⟩, -⟩ := hcovers
    exact ⟨pathCovers_trans hpath hbelow, hstart.trans hbegun, expiryWithin_live hexpiry hlive⟩
  | next _ _ _ hattenuates ih =>
    obtain ⟨hchain, hgrant⟩ := ih (DelegationCertificate.covers_of_attenuates hattenuates hcovers)
    refine ⟨fun c hc => ?_, hgrant⟩
    rcases mem_append.mp hc with hc | hc
    · exact hchain c hc
    · exact mem_singleton.mp hc ▸ hcovers

end Descends

/-! ## Where coverage comes from -/

def InForce (notBeforeMs : Nat) (expiresAtMs : Option Nat) (atMs : Nat) : Prop :=
  notBeforeMs ≤ atMs ∧ ∀ expires, expiresAtMs = some expires → atMs ≤ expires

variable (digest s rules) in
/-- A grant of the rules came down to `subject` through certificates that were all accepted, are
not revoked, and are in force. -/
structure Conferred (subject : Bytes32) (path : Str) (atMs : Nat) (grant : CapabilityGrant)
    (chain : List SignedDelegationCertificate) : Prop where
  granted : rules.clauses.lookup grant.id = some grant
  issued : ∃ first, chain.head? = some first ∧ first.certificate.issuer = grant.subject
  linked : chain.IsChain fun c below => below.certificate.issuer = c.certificate.subject
  holder : ∃ last, chain.getLast? = some last ∧ last.certificate.subject = subject
  accepted : ∀ c ∈ chain, c.verify = true ∧
    s.certificates.lookup (digest c.certificate) = some c ∧ digest c.certificate ∉ s.revoked
  depth : chain.length ≤ grant.delegationDepth
  within : ∃ suffix, path = grant.pathPrefix ++ suffix ∧ (suffix = [] ∨ suffix.head? = some slash)
  live : InForce grant.notBeforeMs grant.expiresAtMs atMs ∧
    ∀ c ∈ chain, InForce c.certificate.notBeforeMs c.certificate.expiresAtMs atMs

theorem inForce_of_all {notBeforeMs : Nat} {expiresAtMs : Option Nat} {atMs : Nat}
    (hbegun : notBeforeMs ≤ atMs) (hlive : expiresAtMs.all (atMs ≤ ·) = true) :
    InForce notBeforeMs expiresAtMs atMs := by
  refine ⟨hbegun, fun expires hexpires => ?_⟩
  rw [hexpires] at hlive
  exact of_decide_eq_true hlive

theorem Sound.conferred (h : s.Sound digest) {subject : Bytes32} {path : Str} {atMs : Nat}
    (hcovers : s.covers digest rules mootId subject path atMs = true) :
    ∃ grant chain, s.Conferred digest rules subject path atMs grant chain := by
  obtain ⟨⟨id, signed⟩, hentry, hall⟩ := any_eq_true.mp hcovers
  simp only [isLive, Bool.and_eq_true, beq_iff_eq] at hall
  obtain ⟨⟨⟨hsubject, -⟩, hleaf⟩, hlive⟩ := hall
  obtain ⟨signed', grant, chain, hlookup, hchain⟩ := descends_of_chainIsLive hlive
  obtain rfl : signed = signed' := some.inj ((AList.mem_lookup_iff.mpr hentry).symm.trans hlookup)
  obtain ⟨hall, hpath, hbegun, hexpires⟩ := hchain.covers hleaf
  refine ⟨grant, chain, hchain.granted, hchain.issued, hchain.linked, ⟨signed, hchain.getLast, hsubject⟩,
    fun c hc => ?_, (Nat.le_add_right _ _).trans hchain.length_add_le, pathCovers_iff.mp hpath,
    inForce_of_all hbegun hexpires, fun c hc => ?_⟩
  · obtain ⟨id, hheld, hrevoked⟩ := hchain.held c hc
    obtain ⟨hverify, rfl⟩ := h.accepted id c hheld
    exact ⟨hverify, hheld, hrevoked⟩
  · have hcovers := hall c hc
    simp only [DelegationCertificate.covers, Bool.and_eq_true, decide_eq_true_eq] at hcovers
    exact inForce_of_all hcovers.1.1.1.2 hcovers.1.1.2

/-- Whatever was accepted, and under whatever rules, coverage comes from a grant of the rules in
force, and the walk that looks for it ends. -/
theorem authority_is_constitutional (digest : DelegationCertificate → Bytes32) (s : MootDelegations)
    (hrun : Reach {} (step digest) (fun _ _ => True) s) (rules : GrantRules) (mootId : Bytes32) :
    (∀ subject path atMs, s.covers digest rules mootId subject path atMs = true →
      ∃ grant chain, s.Conferred digest rules subject path atMs grant chain) ∧
    ∀ id, ∃ live, ∀ more,
      chainIsLive digest s rules mootId (s.certificates.keys.length + 1 + more) id = some live :=
  have hsound := sound_of_reach hrun
  ⟨fun _ _ _ hcovers => hsound.conferred hcovers, hsound.chain_ends rules mootId⟩

def twoDeep : GrantRules where
  amendment := .founderSigned
  clauses := (∅ : Table Bytes32 CapabilityGrant).insert 7 ⟨7, 1, [slash, 97], 0, some 100, 2⟩

def handsOn (parent : DelegationParent) (issuer subject nonce : Bytes32) (depth : Nat) :
    SignedDelegationCertificate where
  certificate :=
    { parent, issuer, subject, notBeforeMs := 0, issuedAtMs := 0, expiresAtMs := some 50, nonce,
      scope := ⟨mootDelegationDomain, idBytes 9, [slash, 97], {mootActAction}⟩,
      remainingDelegationDepth := depth }
  attested := true
  master := some issuer
  signed := true

def calls : List Call :=
  [.certificate 9 twoDeep (handsOn (.root 7) 1 2 10 1),
    .certificate 9 twoDeep (handsOn (.certificate 10) 2 3 11 0)]

/-- `3` acts at `/a/b` by the grant to `1`, through `2`. -/
theorem authority_is_constitutional_twoDeep :
    ∃ s : MootDelegations, runs (step DelegationCertificate.nonce) {} calls = some s ∧
      ∃ grant chain, s.Conferred DelegationCertificate.nonce twoDeep 3 [slash, 97, slash, 98] 20
        grant chain := by
  have hrun {s : MootDelegations} (hs : runs (step DelegationCertificate.nonce) {} calls = some s) :
      Reach {} (step DelegationCertificate.nonce) (fun _ _ => True) s :=
    Reach.start.runs hs fun _ _ _ => trivial
  refine ⟨_, rfl, ?_⟩
  exact (authority_is_constitutional DelegationCertificate.nonce _ (hrun rfl) twoDeep 9).1 _ _ _
    (by decide)

end MootDelegations

end Mere.Gemot
