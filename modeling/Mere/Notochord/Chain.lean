import Mere.Base.OrdMap
import Mere.Personae.Certificate

/-!
# Presented chains and withdrawn certificates

From `crates/system/notochord/src/chain.rs`, with the ledger of
`crates/system/pandect/src/wallet_grant/revocation.rs`.
-/

namespace Mere.Notochord

open Personae List

/-! ## The ledger -/

/-- The certificates that are recorded as withdrawn, with who withdrew them. -/
structure RevocationLedger where
  revoked : OrdMap Bytes32 Bytes32 := ∅

structure RevocationRecord where
  certificate : Bytes32
  issuer : Bytes32

namespace RevocationLedger

variable (ledger : RevocationLedger)

/-- Whether the statement verified, and the ledger with it. -/
def fold (statement : SignedDelegationRevocation) : RevocationLedger × Bool :=
  if !statement.verify then (ledger, false)
  else
    ({ revoked := ledger.revoked.insert statement.revocation.certificate
        statement.revocation.issuer }, true)

def revokes (digest : DelegationCertificate → Bytes32) (c : DelegationCertificate) : Bool :=
  ledger.revoked[digest c]? == some c.issuer

def serialize : List RevocationRecord := ledger.revoked.toList.map fun r => ⟨r.1, r.2⟩

def deserialize (records : List RevocationRecord) : RevocationLedger :=
  { revoked := records.foldl (fun revoked r => revoked.insert r.certificate r.issuer) ∅ }

def folds (statements : List SignedDelegationRevocation) : RevocationLedger :=
  statements.foldl (fun ledger statement => (ledger.fold statement).1) ledger

end RevocationLedger

/-! ## The wallet's copy -/

/-- `load_revocation_ledger`: no file is an empty ledger. -/
def loadRevocationLedger (file : Option (List RevocationRecord)) : RevocationLedger :=
  file.elim {} .deserialize

def foldCounting (acc : Nat × RevocationLedger) (statement : SignedDelegationRevocation) :
    Nat × RevocationLedger :=
  (if (acc.2.fold statement).2 then acc.1 + 1 else acc.1, (acc.2.fold statement).1)

/-- `fold_revocations`: how many statements were accepted, and the file after them. -/
def foldRevocations (file : Option (List RevocationRecord))
    (statements : List SignedDelegationRevocation) : Nat × Option (List RevocationRecord) :=
  match statements.foldl foldCounting (0, loadRevocationLedger file) with
  | (accepted, ledger) => (accepted, if 0 < accepted then some ledger.serialize else file)

/-! ## Chains -/

structure TrustedRoot where
  authority : Bytes32
  issuer : Bytes32
  deriving DecidableEq

inductive ChainFault where
  | empty | depthExceeded | badSignature | untrustedRoot | brokenLink | notAttenuated | revoked
  | notYetValid | expired | subjectMismatch
  deriving DecidableEq

def anchored (first : DelegationCertificate) (trustedRoots : List TrustedRoot) : Bool :=
  match first.parent with
  | .root authority =>
    trustedRoots.any fun root => root.authority == authority && root.issuer == first.issuer
  | .certificate _ => false

variable (digest : DelegationCertificate → Bytes32)

def checkLinks : List SignedDelegationCertificate → Except ChainFault Unit
  | parent :: child :: rest =>
    if child.certificate.parent ≠ .certificate (digest parent.certificate) ∨
        child.certificate.issuer ≠ parent.certificate.subject then .error .brokenLink
    else if !child.certificate.attenuates parent.certificate digest then .error .notAttenuated
    else checkLinks (child :: rest)
  | _ => .ok ()

def checkMembers (ledger : RevocationLedger) (nowMs : Nat) :
    List SignedDelegationCertificate → Except ChainFault Unit
  | [] => .ok ()
  | signed :: rest =>
    if ledger.revokes digest signed.certificate then .error .revoked
    else if nowMs < signed.certificate.notBeforeMs then .error .notYetValid
    else if signed.certificate.expiresAtMs.any (· < nowMs) then .error .expired
    else checkMembers ledger nowMs rest

/-- The chain comes root grant first, subject last. -/
def validateChain (chain : List SignedDelegationCertificate) (subject : Bytes32)
    (trustedRoots : List TrustedRoot) (ledger : RevocationLedger) (maxDepth nowMs : Nat) :
    Except ChainFault Unit :=
  match chain with
  | [] => .error .empty
  | first :: rest =>
    if maxDepth < (first :: rest).length then .error .depthExceeded
    else if (first :: rest).any (!·.verify) then .error .badSignature
    else if !anchored first.certificate trustedRoots then .error .untrustedRoot
    else do
      checkLinks digest (first :: rest)
      checkMembers digest ledger nowMs (first :: rest)
      if ((first :: rest).getLast (cons_ne_nil first rest)).certificate.subject ≠ subject then
        .error .subjectMismatch
      else .ok ()

/-! ## What a valid chain is -/

section Valid

variable {digest} {chain : List SignedDelegationCertificate} {ledger : RevocationLedger} {nowMs : Nat}

def Continues (digest : DelegationCertificate → Bytes32)
    (parent child : SignedDelegationCertificate) : Prop :=
  child.certificate.attenuates parent.certificate digest = true

theorem checkLinks_ok_iff : checkLinks digest chain = .ok () ↔ chain.IsChain
    (Continues digest) := by
  induction chain with
  | nil => exact ⟨fun _ => .nil, fun _ => rfl⟩
  | cons parent rest ih =>
    cases rest with
    | nil => exact ⟨fun _ => .singleton _, fun _ => rfl⟩
    | cons child rest =>
      rw [isChain_cons_cons, ← ih, checkLinks]
      constructor
      · intro h
        split at h
        · cases h
        split at h
        · cases h
        · rename_i hnot
          have hattenuates : child.certificate.attenuates parent.certificate digest = true := by
            simpa using hnot
          exact ⟨hattenuates, h⟩
      · rintro ⟨hattenuates, hrest⟩
        have hlink := DelegationCertificate.attenuates_link hattenuates
        change child.certificate.attenuates parent.certificate digest = true at hattenuates
        rw [if_neg (by simp [hlink]), if_neg (by simp [hattenuates])]
        exact hrest

structure Current (digest : DelegationCertificate → Bytes32) (ledger : RevocationLedger)
    (nowMs : Nat) (signed : SignedDelegationCertificate) : Prop where
  unrevoked : ledger.revokes digest signed.certificate = false
  begun : signed.certificate.notBeforeMs ≤ nowMs
  live : signed.certificate.expiresAtMs.all (nowMs ≤ ·) = true

theorem checkMembers_ok_iff :
    checkMembers digest ledger nowMs chain = .ok () ↔ ∀ s ∈ chain, Current digest ledger nowMs s := by
  induction chain with
  | nil => exact ⟨fun _ => nofun, fun _ => rfl⟩
  | cons signed rest ih =>
    rw [forall_mem_cons, ← ih, checkMembers]
    constructor
    · intro h
      split at h
      · cases h
      rename_i hrevoked
      split at h
      · cases h
      rename_i hbegun
      split at h
      · cases h
      · rename_i hlive
        refine ⟨⟨Bool.not_eq_true _ ▸ hrevoked, Nat.le_of_not_lt hbegun, ?_⟩, h⟩
        cases hexpires : signed.certificate.expiresAtMs with
        | none => rfl
        | some expires =>
          rw [hexpires] at hlive
          exact decide_eq_true (Nat.le_of_not_lt (by simpa using hlive))
    · rintro ⟨hcurrent, hrest⟩
      rw [if_neg (by rw [hcurrent.unrevoked]; exact Bool.false_ne_true),
        if_neg (Nat.not_lt.mpr hcurrent.begun), if_neg ?_, hrest]
      have hlive := hcurrent.live
      cases hexpires : signed.certificate.expiresAtMs with
      | none => exact Bool.false_ne_true
      | some expires =>
        rw [hexpires] at hlive
        simpa using hlive

structure ValidChain (digest : DelegationCertificate → Bytes32)
    (chain : List SignedDelegationCertificate) (subject : Bytes32) (trustedRoots : List TrustedRoot)
    (ledger : RevocationLedger) (maxDepth nowMs : Nat) : Prop where
  depth : chain.length ≤ maxDepth
  verified : ∀ s ∈ chain, s.verify = true
  rooted : ∃ first ∈ chain.head?, ∃ root ∈ trustedRoots,
    first.certificate.parent = .root root.authority ∧ first.certificate.issuer = root.issuer
  links : chain.IsChain (Continues digest)
  current : ∀ s ∈ chain, Current digest ledger nowMs s
  leaf : ∃ leaf ∈ chain.getLast?, leaf.certificate.subject = subject

variable {trustedRoots : List TrustedRoot}

theorem anchored_iff {first : DelegationCertificate} :
    anchored first trustedRoots = true ↔
      ∃ root ∈ trustedRoots, first.parent = .root root.authority ∧ first.issuer = root.issuer := by
  unfold anchored
  cases hparent : first.parent with
  | root authority =>
    simp only [any_eq_true, Bool.and_eq_true, beq_iff_eq, DelegationParent.root.injEq]
    exact exists_congr fun root => and_congr_right fun _ =>
      and_congr eq_comm eq_comm
  | certificate id =>
    exact ⟨nofun, fun ⟨root, _, hroot, _⟩ => nomatch hroot⟩

theorem validateChain_ok_iff {subject : Bytes32} {maxDepth : Nat} :
    validateChain digest chain subject trustedRoots ledger maxDepth nowMs = .ok () ↔
      ValidChain digest chain subject trustedRoots ledger maxDepth nowMs := by
  cases chain with
  | nil => exact ⟨nofun, fun h => by obtain ⟨first, hfirst, -⟩ := h.rooted; cases hfirst⟩
  | cons first rest =>
    have hlast : (first :: rest).getLast? = some ((first :: rest).getLast (cons_ne_nil _ _)) :=
      getLast?_eq_some_getLast _
    unfold validateChain
    simp only [bind, Except.bind]
    constructor
    · intro h
      split at h
      · cases h
      rename_i hdepth
      split at h
      · cases h
      rename_i hverified
      split at h
      · cases h
      rename_i hanchored
      cases hlinks : checkLinks digest (first :: rest) with
      | error => rw [hlinks] at h; cases h
      | ok _ =>
        rw [hlinks] at h
        cases hmembers : checkMembers digest ledger nowMs (first :: rest) with
        | error => rw [hmembers] at h; cases h
        | ok _ =>
          rw [hmembers] at h
          simp only at h
          split at h
          · cases h
          · rename_i hsubject
            rw [Bool.not_eq_true, any_eq_false] at hverified
            exact ⟨Nat.le_of_not_lt hdepth, fun s hs => by simpa using hverified s hs,
              ⟨first, rfl, anchored_iff.mp (by simpa using hanchored)⟩,
              checkLinks_ok_iff.mp hlinks, checkMembers_ok_iff.mp hmembers,
              ⟨_, hlast, not_not.mp hsubject⟩⟩
    · intro h
      obtain ⟨_, hfirst, hroot⟩ := h.rooted
      cases hfirst
      obtain ⟨leaf, hleaf, hsubject⟩ := h.leaf
      cases hleaf
      have hverified : (first :: rest).any (!·.verify) = false := by
        rw [any_eq_false]
        exact fun s hs => by simp [h.verified s hs]
      rw [if_neg (Nat.not_lt.mpr h.depth), if_neg (by rw [hverified]; exact Bool.false_ne_true),
        if_neg (by rw [anchored_iff.mpr hroot]; exact Bool.false_ne_true),
        checkLinks_ok_iff.mpr h.links, checkMembers_ok_iff.mpr h.current]
      exact if_neg (not_not.mpr hsubject)

end Valid

end Mere.Notochord
