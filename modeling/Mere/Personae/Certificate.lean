import Mere.Base.Word

/-!
# Delegation certificates

From `crates/dramatis/personae/src/delegation.rs`. A certificate's id is the digest of its signing
bytes. What the signature checks answer about a statement is a field of it.
-/

namespace Mere.Personae

/-! ## Paths -/

def slash : UInt8 := 47

/-- `path_covers`: the same path, or one below it at a slash boundary. -/
def pathCovers (above path : Str) : Bool :=
  path == above || (above.isPrefixOf? path).any (fun suffix => suffix.head? == some slash)

theorem pathCovers_iff {above path : Str} : pathCovers above path = true ↔
    ∃ suffix, path = above ++ suffix ∧ (suffix = [] ∨ suffix.head? = some slash) := by
  unfold pathCovers
  rw [Bool.or_eq_true, beq_iff_eq, Option.any_eq_true]
  constructor
  · rintro (rfl | ⟨suffix, hsuffix, hslash⟩)
    · exact ⟨[], (List.append_nil _).symm, .inl rfl⟩
    · exact ⟨suffix, (List.append_eq_of_isPrefixOf?_eq_some hsuffix).symm,
        .inr (beq_iff_eq.mp hslash)⟩
  · rintro ⟨suffix, rfl, rfl | hslash⟩
    · exact .inl (List.append_nil _)
    · exact .inr ⟨suffix, List.isPrefixOf?_eq_some_iff_append_eq.mpr rfl, beq_iff_eq.mpr hslash⟩

theorem pathCovers_trans {a b c : Str} (hab : pathCovers a b = true)
    (hbc : pathCovers b c = true) : pathCovers a c = true := by
  obtain ⟨s, rfl, hs⟩ := pathCovers_iff.mp hab
  obtain ⟨s', rfl, hs'⟩ := pathCovers_iff.mp hbc
  refine pathCovers_iff.mpr ⟨s ++ s', List.append_assoc a s s', ?_⟩
  rcases hs with rfl | hs
  · exact hs'
  · right
    rw [List.head?_append, hs]
    rfl

/-! ## Scopes -/

structure CapabilityScope where
  domain : Str
  resource : List UInt8
  pathPrefix : Str
  actions : Finset Str
  deriving DecidableEq

namespace CapabilityScope

def isWellFormed (s : CapabilityScope) : Bool :=
  !s.domain.isEmpty && !s.resource.isEmpty && !s.pathPrefix.isEmpty && decide (s.actions ≠ ∅) &&
    decide (∀ action ∈ s.actions, action ≠ [])

def attenuates (s parent : CapabilityScope) : Bool :=
  s.isWellFormed && parent.isWellFormed && s.domain == parent.domain &&
    s.resource == parent.resource && pathCovers parent.pathPrefix s.pathPrefix &&
    decide (s.actions ⊆ parent.actions)

end CapabilityScope

/-! ## Certificates -/

def certificateVersion : Nat := 1

inductive DelegationParent where
  | root (authority : Bytes32)
  | certificate (id : Bytes32)
  deriving DecidableEq

structure DelegationCertificate where
  version : Nat := certificateVersion
  parent : DelegationParent
  issuer : Bytes32
  subject : Bytes32
  scope : CapabilityScope
  notBeforeMs : Nat
  issuedAtMs : Nat
  expiresAtMs : Option Nat
  /-- How many more steps the subject may delegate. -/
  remainingDelegationDepth : Nat
  nonce : Bytes32
  deriving DecidableEq

def expiryWithin : Option Nat → Option Nat → Bool
  | _, none => true
  | some child, some parent => decide (child ≤ parent)
  | none, some _ => false

theorem expiryWithin_live {child parent : Option Nat} (h : expiryWithin child parent = true)
    {t : Nat} (hlive : child.all (t ≤ ·) = true) : parent.all (t ≤ ·) = true := by
  cases parent with
  | none => rfl
  | some parent =>
    cases child with
    | none => exact absurd h Bool.false_ne_true
    | some child => exact decide_eq_true ((of_decide_eq_true hlive).trans (of_decide_eq_true h))

namespace DelegationCertificate

variable (c parent : DelegationCertificate)

def isWellFormed : Bool :=
  c.version == certificateVersion && c.issuer != 0 && c.subject != 0 && c.scope.isWellFormed &&
    decide (c.issuedAtMs ≤ c.notBeforeMs) && c.expiresAtMs.all (c.notBeforeMs ≤ ·)

def attenuates (digest : DelegationCertificate → Bytes32) : Bool :=
  c.isWellFormed && parent.isWellFormed && c.parent == .certificate (digest parent) &&
    c.issuer == parent.subject && c.scope.attenuates parent.scope &&
    decide (parent.notBeforeMs ≤ c.notBeforeMs) && expiryWithin c.expiresAtMs parent.expiresAtMs &&
    decide (0 < parent.remainingDelegationDepth) &&
    decide (c.remainingDelegationDepth < parent.remainingDelegationDepth)

def covers (path action : Str) (atMs : Nat) : Bool :=
  c.isWellFormed && decide (c.notBeforeMs ≤ atMs) && c.expiresAtMs.all (atMs ≤ ·) &&
    pathCovers c.scope.pathPrefix path && decide (action ∈ c.scope.actions)

end DelegationCertificate

/-- A certificate with the attestation and the signature that came with it. -/
structure SignedDelegationCertificate where
  certificate : DelegationCertificate
  /-- The signer's attestation verifies under the salt of the certificate's scope. -/
  attested : Bool
  /-- The attestation's master key, where it is one. -/
  master : Option Bytes32
  /-- The attested key's signature over the signing bytes verifies. -/
  signed : Bool
  deriving DecidableEq

def SignedDelegationCertificate.verify (s : SignedDelegationCertificate) : Bool :=
  s.certificate.isWellFormed && s.attested && s.master == some s.certificate.issuer && s.signed

def idBytes (id : Bytes32) : List UInt8 :=
  (List.range 32).map fun i => UInt8.ofNat (id.val / 256 ^ (31 - i))

/-! ## Revocations -/

def revocationVersion : Nat := 1

structure DelegationRevocation where
  version : Nat := revocationVersion
  certificate : Bytes32
  issuer : Bytes32
  scope : CapabilityScope
  deriving DecidableEq

/-- A revocation with what the signature checks say about it. -/
structure SignedDelegationRevocation where
  revocation : DelegationRevocation
  attested : Bool
  master : Option Bytes32
  signed : Bool
  deriving DecidableEq

def SignedDelegationRevocation.verify (s : SignedDelegationRevocation) : Bool :=
  s.revocation.version == revocationVersion && s.revocation.scope.isWellFormed && s.attested &&
    s.master == some s.revocation.issuer && s.signed

/-! ## What a narrowing carries up -/

namespace DelegationCertificate

variable {c parent : DelegationCertificate} {digest : DelegationCertificate → Bytes32}

variable (h : c.attenuates parent digest = true)
include h

theorem attenuates_link :
    c.parent = .certificate (digest parent) ∧ c.issuer = parent.subject := by
  simp only [attenuates, Bool.and_eq_true, beq_iff_eq] at h
  exact ⟨h.1.1.1.1.1.1.2, h.1.1.1.1.1.2⟩

theorem attenuates_domain :
    c.scope.domain = parent.scope.domain := by
  simp only [attenuates, CapabilityScope.attenuates, Bool.and_eq_true, beq_iff_eq] at h
  exact h.1.1.1.1.2.1.1.1.2

theorem attenuates_resource :
    c.scope.resource = parent.scope.resource := by
  simp only [attenuates, CapabilityScope.attenuates, Bool.and_eq_true, beq_iff_eq] at h
  exact h.1.1.1.1.2.1.1.2

theorem attenuates_depth :
    c.remainingDelegationDepth < parent.remainingDelegationDepth := by
  simp only [attenuates, Bool.and_eq_true, decide_eq_true_eq] at h
  exact h.2

theorem covers_of_attenuates {path action : Str}
    {atMs : Nat} (hcovers : c.covers path action atMs = true) :
    parent.covers path action atMs = true := by
  simp only [attenuates, CapabilityScope.attenuates, Bool.and_eq_true, decide_eq_true_eq] at h
  obtain ⟨⟨⟨⟨⟨⟨⟨⟨-, hformed⟩, -⟩, -⟩, ⟨⟨-, hpath⟩, hactions⟩⟩, hstart⟩, hexpiry⟩, -⟩, -⟩ := h
  simp only [covers, Bool.and_eq_true, decide_eq_true_eq] at hcovers ⊢
  obtain ⟨⟨⟨⟨-, hbegun⟩, hlive⟩, hbelow⟩, haction⟩ := hcovers
  exact ⟨⟨⟨⟨hformed, hstart.trans hbegun⟩, expiryWithin_live hexpiry hlive⟩,
    pathCovers_trans hpath hbelow⟩, hactions haction⟩

end DelegationCertificate

end Mere.Personae
