import Mere.Notochord.Chain

/-!
# Withdrawn certificates stay withdrawn

The ledger keeps one withdrawal for each certificate id, the last one that verified.
-/

namespace Mere.Notochord

open Personae List Std.ExtTreeMap

namespace RevocationLedger

variable {digest : DelegationCertificate → Bytes32} {ledger : RevocationLedger}
  {statement : SignedDelegationRevocation} {c : DelegationCertificate}

/-! ## Saved and loaded -/

theorem revoked_deserialize (records : List RevocationRecord) :
    (deserialize records).revoked =
      (∅ : OrdMap Bytes32 Bytes32).insertMany (records.map fun r => (r.certificate, r.issuer)) := by
  unfold deserialize
  induction records using List.reverseRecOn with
  | nil => rfl
  | append_singleton records r ih =>
    simp only [foldl_append, foldl_cons, foldl_nil, map_append, map_cons,
      map_nil, insertMany_append, insertMany_list_singleton] at ih ⊢
    rw [ih]

theorem deserialize_serialize (ledger : RevocationLedger) :
    deserialize ledger.serialize = ledger := by
  have hrevoked : (deserialize ledger.serialize).revoked = ledger.revoked := by
    rw [revoked_deserialize]
    refine ext_getElem? fun k => ?_
    have hlist : ledger.serialize.map (fun r => (r.certificate, r.issuer)) = ledger.revoked.toList := by
      unfold serialize
      rw [List.map_map]
      exact map_id' _
    rw [hlist, OrdMap.getElem?_insertMany, OrdMap.valuesAt_toList]
    cases ledger.revoked[k]? <;> rfl
  calc deserialize ledger.serialize
      = ⟨(deserialize ledger.serialize).revoked⟩ := rfl
    _ = ledger := by rw [hrevoked]

theorem revoked_fold : (ledger.fold statement).1.revoked =
    if statement.verify then
      ledger.revoked.insert statement.revocation.certificate statement.revocation.issuer
    else ledger.revoked := by
  unfold fold
  cases statement.verify <;> rfl

theorem foldl_foldCounting (statements : List SignedDelegationRevocation) (n : Nat) :
    n ≤ (statements.foldl foldCounting (n, ledger)).1 ∧
      (statements.foldl foldCounting (n, ledger)).2 = ledger.folds statements ∧
      ((statements.foldl foldCounting (n, ledger)).1 = n → ledger.folds statements = ledger) := by
  induction statements generalizing ledger n with
  | nil => exact ⟨le_rfl, rfl, fun _ => rfl⟩
  | cons statement rest ih =>
    have hfolds : ledger.folds (statement :: rest) = (ledger.fold statement).1.folds rest := rfl
    rw [foldl_cons, hfolds]
    cases hverify : statement.verify with
    | false =>
      have hfold : ledger.fold statement = (ledger, false) := by
        unfold fold
        rw [hverify]
        rfl
      rw [foldCounting, hfold]
      exact ih n
    | true =>
      have hcounted : (ledger.fold statement).2 = true := by
        unfold fold
        rw [hverify]
        rfl
      rw [foldCounting, hcounted]
      obtain ⟨hle, hrest, -⟩ := @ih (ledger.fold statement).1 (n + 1)
      exact ⟨(Nat.le_succ n).trans hle, hrest,
        fun heq => absurd (hle.trans_eq heq) (Nat.not_succ_le_self n)⟩

theorem load_foldRevocations (file : Option (List RevocationRecord))
    (statements : List SignedDelegationRevocation) :
    loadRevocationLedger (foldRevocations file statements).2 =
      (loadRevocationLedger file).folds statements := by
  obtain ⟨-, hfolds, hnone⟩ := @foldl_foldCounting (loadRevocationLedger file) statements 0
  unfold foldRevocations
  simp only
  split
  · rw [← hfolds]
    exact deserialize_serialize _
  · rename_i hcount
    rw [hnone (Nat.eq_zero_of_not_pos hcount)]

theorem revokes_folds_of_ne {statements : List SignedDelegationRevocation}
    (h : ∀ statement ∈ statements, statement.revocation.certificate ≠ digest c) :
    (ledger.folds statements).revokes digest c = ledger.revokes digest c := by
  induction statements generalizing ledger with
  | nil => rfl
  | cons statement rest ih =>
    change ((ledger.fold statement).1.folds rest).revokes digest c = _
    rw [ih fun statement' hmem => h statement' (mem_cons_of_mem _ hmem)]
    unfold revokes
    rw [revoked_fold]
    split
    · rw [OrdMap.getElem?_insert, if_neg (h statement mem_cons_self)]
    · rfl

end RevocationLedger

/-! ## Runs -/

inductive LedgerStep where
  | fold (statement : SignedDelegationRevocation)
  | reload

def RevocationLedger.step (ledger : RevocationLedger) : LedgerStep → RevocationLedger
  | .fold statement => (ledger.fold statement).1
  | .reload => .deserialize ledger.serialize

def ledgerAfter (steps : List LedgerStep) : RevocationLedger := steps.foldl RevocationLedger.step {}

def LedgerStep.withdrawer (digest : DelegationCertificate → Bytes32) (c : DelegationCertificate) :
    LedgerStep → Option Bytes32
  | .fold statement =>
    if statement.verify ∧ statement.revocation.certificate = digest c then
      some statement.revocation.issuer
    else none
  | .reload => none

variable {digest : DelegationCertificate → Bytes32} {c : DelegationCertificate}

theorem getElem?_step (ledger : RevocationLedger) (step : LedgerStep) :
    (ledger.step step).revoked[digest c]? =
      (step.withdrawer digest c).or ledger.revoked[digest c]? := by
  cases step with
  | reload => rw [RevocationLedger.step, RevocationLedger.deserialize_serialize]; rfl
  | fold statement =>
    rw [RevocationLedger.step, RevocationLedger.revoked_fold, LedgerStep.withdrawer]
    cases statement.verify with
    | false => simp
    | true =>
      rw [if_pos rfl, OrdMap.getElem?_insert]
      by_cases heq : statement.revocation.certificate = digest c <;> simp [heq]

theorem getElem?_ledgerAfter (steps : List LedgerStep) :
    (ledgerAfter steps).revoked[digest c]? = (steps.filterMap (·.withdrawer digest c)).getLast? := by
  induction steps using List.reverseRecOn with
  | nil => exact getElem?_empty
  | append_singleton steps step ih =>
    have hlast : ledgerAfter (steps ++ [step]) = (ledgerAfter steps).step step := by
      simp [ledgerAfter]
    rw [hlast, getElem?_step, ih]
    cases hstep : step.withdrawer digest c with
    | none => simp [hstep]
    | some issuer => simp [hstep]

theorem revokes_ledgerAfter (steps : List LedgerStep) :
    (ledgerAfter steps).revokes digest c = true ↔
      (steps.filterMap (·.withdrawer digest c)).getLast? = some c.issuer := by
  unfold RevocationLedger.revokes
  rw [getElem?_ledgerAfter, beq_iff_eq]

def Withdrawn (digest : DelegationCertificate → Bytes32) (c : DelegationCertificate)
    (steps : List LedgerStep) : Prop :=
  ∃ step ∈ steps, step.withdrawer digest c = some c.issuer

/-- Nobody else withdraws the certificate once its issuer has. -/
def Unchallenged (digest : DelegationCertificate → Bytes32) (c : DelegationCertificate)
    (steps : List LedgerStep) : Prop :=
  steps.Pairwise fun step later => step.withdrawer digest c = some c.issuer →
    ∀ issuer ∈ later.withdrawer digest c, issuer = c.issuer

variable {steps : List LedgerStep}

theorem last_of_unchallenged (h : Unchallenged digest c steps)
    (hwithdrawn : Withdrawn digest c steps) :
    (steps.filterMap (·.withdrawer digest c)).getLast? = some c.issuer := by
  induction steps using List.reverseRecOn with
  | nil =>
    obtain ⟨step, hstep, -⟩ := hwithdrawn
    cases hstep
  | append_singleton steps step ih =>
    obtain ⟨hbefore, -, hlast⟩ := pairwise_append.mp h
    obtain ⟨first, hfirst, hissuer⟩ := hwithdrawn
    rw [filterMap_append, filterMap_cons, filterMap_nil]
    cases hstep : step.withdrawer digest c with
    | none =>
      simp only [append_nil]
      refine ih hbefore ⟨first, ?_, hissuer⟩
      rcases mem_append.mp hfirst with hfirst | hfirst
      · exact hfirst
      · rw [mem_singleton.mp hfirst, hstep] at hissuer
        cases hissuer
    | some issuer =>
      rw [getLast?_concat]
      rcases mem_append.mp hfirst with hfirst | hfirst
      · rw [hlast first hfirst step (mem_singleton_self step) hissuer issuer hstep]
      · rw [← hissuer, mem_singleton.mp hfirst, hstep]

theorem unchallenged_of_last
    (h : ∀ before after, steps = before ++ after → Withdrawn digest c before →
      (before.filterMap (·.withdrawer digest c)).getLast? = some c.issuer) :
    Unchallenged digest c steps := by
  induction steps using List.reverseRecOn with
  | nil => exact .nil
  | append_singleton steps step ih =>
    refine pairwise_append.mpr ⟨ih fun before after heq => ?_, pairwise_singleton _ _, ?_⟩
    · exact h before (after ++ [step]) (by rw [heq, append_assoc])
    · intro first hfirst last hlast hissuer issuer hstep
      obtain rfl := mem_singleton.mp hlast
      have hend := h (steps ++ [last]) [] (append_nil _).symm
        ⟨first, mem_append_left _ hfirst, hissuer⟩
      rw [filterMap_append, filterMap_cons, hstep, filterMap_nil,
        getLast?_concat] at hend
      exact Option.some.inj hend

/-- In a run of folds and reloads a certificate that the ledger revokes was withdrawn by its issuer
and is in no valid chain; and what the issuer has withdrawn is revoked in every later state just
when nobody else withdraws it afterwards. The wallet's file holds the same ledger. -/
theorem withdrawn_stays_withdrawn (digest : DelegationCertificate → Bytes32)
    (c : DelegationCertificate) (steps : List LedgerStep) :
    ((ledgerAfter steps).revokes digest c = true → Withdrawn digest c steps) ∧
      ((ledgerAfter steps).revokes digest c = true →
        ∀ chain subject trustedRoots maxDepth nowMs, (∃ s ∈ chain, s.certificate = c) →
          validateChain digest chain subject trustedRoots (ledgerAfter steps) maxDepth nowMs ≠
            .ok ()) ∧
      ((∀ before after, steps = before ++ after → Withdrawn digest c before →
          (ledgerAfter before).revokes digest c = true) ↔ Unchallenged digest c steps) ∧
      ∀ file statements, loadRevocationLedger (foldRevocations file statements).2 =
        (loadRevocationLedger file).folds statements := by
  refine ⟨fun h => ?_, fun h chain subject trustedRoots maxDepth nowMs hmem hok => ?_, ?_,
    RevocationLedger.load_foldRevocations⟩
  · rw [revokes_ledgerAfter] at h
    exact mem_filterMap.mp (mem_of_getLast? h)
  · obtain ⟨s, hs, rfl⟩ := hmem
    rw [((validateChain_ok_iff.mp hok).current s hs).unrevoked] at h
    exact Bool.false_ne_true h
  · simp only [revokes_ledgerAfter]
    refine ⟨unchallenged_of_last, fun h before after heq hwithdrawn => ?_⟩
    rw [heq] at h
    exact last_of_unchallenged (pairwise_append.mp h).1 hwithdrawn

/-! ## A stranger's withdrawal -/

def strangerScope : CapabilityScope := ⟨[109], [3], [47, 97], {[99]}⟩

def grantedCertificate : DelegationCertificate where
  parent := .root 7
  issuer := 1
  subject := 9
  scope := strangerScope
  notBeforeMs := 0
  issuedAtMs := 0
  expiresAtMs := none
  remainingDelegationDepth := 0
  nonce := 0

def withdrawalBy (issuer : Bytes32) : SignedDelegationRevocation :=
  ⟨⟨1, 8, issuer, strangerScope⟩, true, some issuer, true⟩

theorem stranger_restores : (withdrawalBy 1).verify = true ∧ (withdrawalBy 2).verify = true ∧
    (ledgerAfter [.fold (withdrawalBy 1)]).revokes (fun _ => 8) grantedCertificate = true ∧
    (ledgerAfter [.fold (withdrawalBy 1), .fold (withdrawalBy 2)]).revokes (fun _ => 8)
      grantedCertificate = false ∧
    validateChain (fun _ => 8) [⟨grantedCertificate, true, some 1, true⟩] 9 [⟨7, 1⟩]
      (ledgerAfter [.fold (withdrawalBy 1), .fold (withdrawalBy 2)]) 4 5 = .ok () := by
  refine ⟨by decide +kernel, by decide +kernel, by decide +kernel, by decide +kernel,
    by decide +kernel⟩

end Mere.Notochord
