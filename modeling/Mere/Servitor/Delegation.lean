import Mere.Base.Arena
import Mere.Base.Run
import Mere.Servitor.Capability

/-!
# Delegation to denizens

From `crates/servitor/src/delegation.rs`: coverage by a walk from a subject's certificate up to the
table's root authority.
-/

namespace Mere.Servitor

open Personae List Option Finset

/-! ## Capabilities as paths -/

/-- `mere.denizen`. -/
def denizenDomain : Str := [109, 101, 114, 101, 46, 100, 101, 110, 105, 122, 101, 110]

/-- A `%` and then a `/` become `%25` and `%2F`. -/
def encodeSegment (segment : Str) : Str :=
  (segment.flatMap fun b => if b = 37 then [37, 50, 53] else [b]).flatMap
    fun b => if b = slash then [37, 50, 70] else [b]

/-- `kind/a/b`, or `kind` alone without segments. -/
def kindPath (kind : Str) (segments : List Str) : Str :=
  if segments = [] then kind else kind ++ slash :: [slash].intercalate segments

/-- `power`, `scope` and `facet`. No segment is empty, so a scope's text is empty only at the root. -/
def capPath : Cap → Str
  | .power name => kindPath [112, 111, 119, 101, 114] [encodeSegment name]
  | .scope path => kindPath [115, 99, 111, 112, 101] path.segments
  | .facet space => kindPath [102, 97, 99, 101, 116] (space.segments.map encodeSegment)

/-- `read`, `write` and `delegate`. -/
def modeAction : Mode → Str
  | .read => [114, 101, 97, 100]
  | .write => [119, 114, 105, 116, 101]
  | .delegate => [100, 101, 108, 101, 103, 97, 116, 101]

/-! ## Covering paths -/

theorem intercalate_append {a b : List Str} (ha : a ≠ []) (hb : b ≠ []) :
    [slash].intercalate (a ++ b) = [slash].intercalate a ++ slash :: [slash].intercalate b := by
  induction a with
  | nil => exact absurd rfl ha
  | cons s a ih =>
    obtain ⟨first, b, rfl⟩ := exists_cons_of_ne_nil hb
    cases a with
    | nil => simp [intercalate_cons_cons]
    | cons s' a =>
      rw [cons_append, cons_append, intercalate_cons_cons, ← cons_append, ih (by simp)]
      simp

/-- Paths of segments without a slash cover one another as the segments do. -/
theorem pathCovers_intercalate {a b : List Str} (ha : a ≠ []) (hb : b ≠ [])
    (hplain : ∀ s ∈ a, slash ∉ s) (hplain' : ∀ s ∈ b, slash ∉ s) :
    pathCovers ([slash].intercalate a) ([slash].intercalate b) = true ↔ a <+: b := by
  rw [pathCovers_iff]
  constructor
  · rintro ⟨suffix, hpath, rfl | hslash⟩
    · rw [append_nil] at hpath
      rw [← splitOn_intercalate slash hplain ha, ← hpath,
        splitOn_intercalate slash hplain' hb]
    · obtain ⟨rest, rfl⟩ := head?_eq_some_iff.mp hslash
      have hne : rest.splitOn slash ≠ [] := splitOnP_ne_nil _ _
      have hjoin : [slash].intercalate (rest.splitOn slash) = rest := intercalate_splitOn slash
      rw [← hjoin, ← intercalate_append ha hne] at hpath
      refine ⟨rest.splitOn slash, ?_⟩
      rw [← splitOn_intercalate slash hplain' hb, hpath, splitOn_intercalate slash]
      · intro s hs
        exact (mem_append.mp hs).elim (hplain s) not_mem_of_mem_splitOn
      · simp [ha]
  · rintro ⟨rest, rfl⟩
    by_cases hrest : rest = []
    · exact ⟨[], by simp [hrest], .inl rfl⟩
    · exact ⟨_, intercalate_append ha hrest, .inr rfl⟩

/-! ## The escape -/

def encodeByte (b : UInt8) : Str :=
  if b = 37 then [37, 50, 53] else if b = slash then [37, 50, 70] else [b]

theorem encodeSegment_eq (segment : Str) : encodeSegment segment = segment.flatMap encodeByte := by
  rw [encodeSegment, flatMap_assoc]
  congr 1
  funext b
  unfold encodeByte
  split
  · rfl
  · simp

theorem slash_not_mem_encodeSegment (segment : Str) : slash ∉ encodeSegment segment := by
  rw [encodeSegment_eq, mem_flatMap]
  rintro ⟨b, -, hb⟩
  unfold encodeByte at hb
  split at hb
  · simp [slash] at hb
  · split at hb
    · simp [slash] at hb
    · rename_i hne
      exact hne (List.mem_singleton.mp hb).symm

theorem encodeByte_ne_nil (b : UInt8) : encodeByte b ≠ [] := by
  unfold encodeByte
  split_ifs <;> simp

theorem encodeByte_append {a b : UInt8} {x y : Str}
    (h : encodeByte a ++ x = encodeByte b ++ y) : a = b ∧ x = y := by
  unfold encodeByte at h
  split_ifs at h <;> simp_all

theorem encodeSegment_injective : Function.Injective encodeSegment := by
  intro s t h
  simp only [encodeSegment_eq] at h
  induction s generalizing t with
  | nil => cases t <;> simp_all [encodeByte_ne_nil]
  | cons a s ih =>
    cases t with
    | nil => simp [encodeByte_ne_nil] at h
    | cons b t =>
      obtain ⟨rfl, hrest⟩ := encodeByte_append (flatMap_cons ▸ flatMap_cons ▸ h)
      rw [ih hrest]

/-! ## The order of capabilities -/

def Cap.kind : Cap → Str
  | .power _ => [112, 111, 119, 101, 114]
  | .scope _ => [115, 99, 111, 112, 101]
  | .facet _ => [102, 97, 99, 101, 116]

def Cap.encoded : Cap → List Str
  | .power name => [encodeSegment name]
  | .scope path => path.segments
  | .facet space => space.segments.map encodeSegment

theorem capPath_eq (cap : Cap) : capPath cap = [slash].intercalate (cap.kind :: cap.encoded) := by
  have hkind : ∀ kind segments, kindPath kind segments = [slash].intercalate (kind :: segments) := by
    intro kind segments
    cases segments <;> simp [kindPath, intercalate_cons_cons]
  cases cap <;> exact hkind _ _

theorem Cap.encoded_plain (cap : Cap) : ∀ s ∈ cap.kind :: cap.encoded, slash ∉ s := by
  intro s hs
  rcases mem_cons.mp hs with rfl | hs
  · cases cap <;> simp [kind, slash]
  · cases cap with
    | power name => exact List.mem_singleton.mp hs ▸ slash_not_mem_encodeSegment name
    | scope path => exact path.plain s hs
    | facet space =>
      obtain ⟨segment, -, rfl⟩ := mem_map.mp hs
      exact slash_not_mem_encodeSegment segment

theorem Cap.covers_iff {a b : Cap} :
    a.covers b = true ↔ a.kind :: a.encoded <+: b.kind :: b.encoded := by
  cases a <;> cases b <;>
    simp [covers, kind, encoded, ScopePath.coversScope, Segments.covers_iff,
      encodeSegment_injective.eq_iff, prefix_map_iff_of_injective encodeSegment_injective]

theorem Cap.eq_of_encoded {a b : Cap} (h : a.kind :: a.encoded = b.kind :: b.encoded) : a = b := by
  cases a <;> cases b <;>
    simp_all [kind, encoded, encodeSegment_injective.eq_iff, Segments.ext_iff,
      (map_injective_iff.mpr encodeSegment_injective).eq_iff]

/-- Whatever text the capabilities were built of. -/
theorem pathCovers_capPath (a b : Cap) :
    (pathCovers (capPath a) (capPath b) = true ↔ a.covers b = true) ∧
      (capPath a = capPath b → a = b) ∧
      (pathCovers (capPath a) (capPath b) = true → a.kind = b.kind) := by
  have hcovers := pathCovers_intercalate (by simp) (by simp) a.encoded_plain b.encoded_plain
  rw [← capPath_eq, ← capPath_eq] at hcovers
  refine ⟨hcovers.trans Cap.covers_iff.symm, ?_, ?_⟩
  · intro heq
    rw [capPath_eq, capPath_eq] at heq
    have hsplit := congrArg (List.splitOn slash) heq
    rw [splitOn_intercalate slash a.encoded_plain (by simp),
      splitOn_intercalate slash b.encoded_plain (by simp)] at hsplit
    exact Cap.eq_of_encoded hsplit
  · intro h
    exact (cons_prefix_cons.mp (hcovers.mp h)).1

/-! ## The table -/

inductive ChainError where
  | badSignature (id : Bytes32)
  | missingParent (id : Bytes32)
  | notAttenuating (id : Bytes32)
  | wrongRoot (id : Bytes32)
  | revoked (id : Bytes32)
  | cycle (id : Bytes32)
  deriving DecidableEq

structure DelegationTable where
  root : Bytes32
  nowMs : Nat := 0
  certificates : Table Bytes32 SignedDelegationCertificate := ∅
  revoked : Finset Bytes32 := ∅

namespace DelegationTable

def new (root : Bytes32) : DelegationTable := { root }

variable (digest : DelegationCertificate → Bytes32) (t : DelegationTable)

def setNow (nowMs : Nat) : DelegationTable := { t with nowMs }

def adopt (signed : SignedDelegationCertificate) : DelegationTable :=
  { t with certificates := t.certificates.insert (digest signed.certificate) signed }

/-- Says whether the id was not revoked before. -/
def revoke (id : Bytes32) : Bool × DelegationTable :=
  (decide (id ∉ t.revoked), { t with revoked := insert id t.revoked })

def isRootGrant (subject : Subject) (signed : SignedDelegationCertificate) : Bool :=
  signed.certificate.subject == subject &&
    match signed.certificate.parent with
    | .root _ => true
    | .certificate _ => false

/-- What the root gave `subject` directly, and how many of it was not revoked before. -/
def revokeRootGrants (subject : Subject) : Nat × DelegationTable :=
  let ids := ((t.certificates.entries.map Sigma.snd).filter (isRootGrant subject)).map
    (fun signed => digest signed.certificate)
  ids.foldl (fun state id =>
    let (fresh, t) := state.2.revoke id
    (if fresh then state.1 + 1 else state.1, t)) (0, t)

/-- `seen` holds the ids passed on the way; `fuel` bounds how many more are looked at. -/
def verifyInner : Nat → Finset Bytes32 → SignedDelegationCertificate → Except ChainError Unit
  | 0, _, signed => .error (.cycle (digest signed.certificate))
  | fuel + 1, seen, signed =>
    let id := digest signed.certificate
    if id ∈ seen then .error (.cycle id)
    else if id ∈ t.revoked then .error (.revoked id)
    else if !signed.verify then .error (.badSignature id)
    else match signed.certificate.parent with
      | .root root => if root = t.root then .ok () else .error (.wrongRoot id)
      | .certificate parentId =>
        match t.certificates.lookup parentId with
        | none => .error (.missingParent parentId)
        | some parent =>
          if !signed.certificate.attenuates parent.certificate digest then
            .error (.notAttenuating id)
          else verifyInner fuel (insert id seen) parent

/-- Every certificate held and the one asked about is looked at once (`verifyInner_enough`). -/
def verifyChain (signed : SignedDelegationCertificate) : Except ChainError Unit :=
  verifyInner digest t (t.certificates.keys.length + 1) ∅ signed

/-- `covers_inner`. -/
def covers (subject : Subject) (needed : Cap) (mode : Mode) : Bool :=
  (t.certificates.entries.map Sigma.snd).any fun signed =>
    signed.certificate.subject == subject &&
      signed.certificate.covers (capPath needed) (modeAction mode) t.nowMs &&
      (verifyChain digest t signed).isOk

/-! ## The walk -/

/-- A walk of `verify_inner` that ends at the root, with the certificates it passes. -/
inductive Walk : SignedDelegationCertificate → List SignedDelegationCertificate → Prop
  | top {signed : SignedDelegationCertificate} :
      signed.verify = true → digest signed.certificate ∉ t.revoked →
      signed.certificate.parent = .root t.root → Walk signed [signed]
  | link {signed parent : SignedDelegationCertificate} {chain : List SignedDelegationCertificate} :
      signed.verify = true → digest signed.certificate ∉ t.revoked →
      signed.certificate.attenuates parent.certificate digest = true →
      t.certificates.lookup (digest parent.certificate) = some parent →
      Walk parent chain → Walk signed (signed :: chain)

variable {digest t}
variable {fuel : Nat} {seen : Finset Bytes32} {signed : SignedDelegationCertificate}

theorem walk_of_verifyInner (h : verifyInner digest t fuel seen signed = .ok ()) :
    ∃ chain, Walk digest t signed chain := by
  induction fuel generalizing seen signed with
  | zero => cases h
  | succ fuel ih =>
    simp only [verifyInner] at h
    split at h
    · cases h
    split at h
    · cases h
    rename_i hrevoked
    split at h
    · cases h
    rename_i hverify
    have hverify : signed.verify = true := by simpa using hverify
    split at h
    · rename_i root hparent
      split at h
      · rename_i hroot
        exact ⟨[signed], .top hverify hrevoked (hroot ▸ hparent)⟩
      · cases h
    · rename_i parentId hparent
      split at h
      · cases h
      rename_i parent hlookup
      split at h
      · cases h
      rename_i hattenuates
      have hattenuates : signed.certificate.attenuates parent.certificate digest = true := by
        simpa using hattenuates
      -- The parent is held under its own id, since the link names that id.
      have hid := (DelegationCertificate.attenuates_link hattenuates).1
      rw [hparent, DelegationParent.certificate.injEq] at hid
      obtain ⟨chain, hchain⟩ := ih h
      exact ⟨signed :: chain, .link hverify hrevoked hattenuates (hid ▸ hlookup) hchain⟩

/-- How many certificates a walk may still look at: those held and not seen, and its own. -/
def unseen (digest : DelegationCertificate → Bytes32) (t : DelegationTable) (seen : Finset Bytes32)
    (signed : SignedDelegationCertificate) : Nat :=
  (t.certificates.keys.toFinset \ seen).card +
    if digest signed.certificate ∈ t.certificates.keys then 0 else 1

theorem unseen_parent {parent : SignedDelegationCertificate}
    (hseen : digest signed.certificate ∉ seen)
    (hparent : digest parent.certificate ∈ t.certificates.keys) :
    unseen digest t (insert (digest signed.certificate) seen) parent < unseen digest t seen signed := by
  unfold unseen
  rw [sdiff_insert, if_pos hparent]
  split
  · rename_i hheld
    exact card_erase_lt_of_mem (mem_sdiff.mpr ⟨mem_toFinset.mpr hheld, hseen⟩)
  · exact Nat.lt_succ_of_le card_erase_le

theorem verifyInner_stable (hfuel : unseen digest t seen signed ≤ fuel) (more : Nat) :
    verifyInner digest t (fuel + more) seen signed = verifyInner digest t fuel seen signed := by
  induction fuel generalizing seen signed with
  | zero =>
    -- All that is held was seen, and this certificate is held.
    have hseen : digest signed.certificate ∈ seen := by
      unfold unseen at hfuel
      split at hfuel
      · rename_i hheld
        have hempty := card_eq_zero.mp (Nat.le_zero.mp hfuel)
        exact sdiff_eq_empty_iff_subset.mp hempty (mem_toFinset.mpr hheld)
      · omega
    cases more with
    | zero => rfl
    | succ more => simp only [verifyInner, if_pos hseen]
  | succ fuel ih =>
    rw [Nat.succ_add]
    simp only [verifyInner]
    split
    · rfl
    rename_i hseen
    split
    · rfl
    split
    · rfl
    split
    · rfl
    rename_i parentId hparent
    split
    · rfl
    rename_i parent hlookup
    split
    · rfl
    rename_i hattenuates
    have hattenuates : signed.certificate.attenuates parent.certificate digest = true := by
      simpa using hattenuates
    have hid := (DelegationCertificate.attenuates_link hattenuates).1
    rw [hparent, DelegationParent.certificate.injEq] at hid
    rw [hid] at hlookup
    have hheld := AList.mem_keys.mp (AList.lookup_isSome.mp (by rw [hlookup]; rfl))
    exact ih (Nat.le_of_lt_succ ((unseen_parent hseen hheld).trans_le hfuel))

variable (signed)

/-- The walk of the source has no bound; it ends within the one that `verifyChain` gives it. -/
theorem verifyInner_enough (more : Nat) :
    verifyInner digest t (t.certificates.keys.length + 1 + more) ∅ signed =
      verifyChain digest t signed := by
  refine verifyInner_stable ?_ more
  have hcard := toFinset_card_le t.certificates.keys
  unfold unseen
  rw [sdiff_empty]
  split <;> omega

/-! ## Where coverage comes from -/

variable (digest t) in
/-- The root gave `needed` at `mode`, and it came down to `subject` through certificates that are
all held, sound, wide enough and in force. -/
structure Conferred (subject : Subject) (needed : Cap) (mode : Mode)
    (chain : List SignedDelegationCertificate) : Prop where
  holder : ∃ first, chain.head? = some first ∧ first.certificate.subject = subject
  linked : chain.IsChain fun signed parent =>
    signed.certificate.parent = .certificate (digest parent.certificate) ∧
      signed.certificate.issuer = parent.certificate.subject
  rooted : ∃ last, chain.getLast? = some last ∧ last.certificate.parent = .root t.root ∧
    last.certificate.issuer = t.root
  held : ∀ signed ∈ chain, t.certificates.lookup (digest signed.certificate) = some signed
  sound : ∀ signed ∈ chain, signed.verify = true ∧ digest signed.certificate ∉ t.revoked
  wide : ∀ signed ∈ chain, signed.certificate.scope.domain = denizenDomain ∧
    pathCovers signed.certificate.scope.pathPrefix (capPath needed) = true ∧
    modeAction mode ∈ signed.certificate.scope.actions
  live : ∀ signed ∈ chain, signed.certificate.notBeforeMs ≤ t.nowMs ∧
    ∀ expires, signed.certificate.expiresAtMs = some expires → t.nowMs ≤ expires

variable (digest t) in
/-- What a table of certificates from careful issuers has. -/
structure Guarded : Prop where
  keyed : ∀ id signed, t.certificates.lookup id = some signed → digest signed.certificate = id
  rooted : ∀ id signed, t.certificates.lookup id = some signed → signed.verify = true →
    signed.certificate.parent = .root t.root →
    signed.certificate.issuer = t.root ∧ signed.certificate.scope.domain = denizenDomain

namespace Walk

variable {signed} {chain : List SignedDelegationCertificate}

variable (h : Walk digest t signed chain)
include h

theorem head : chain.head? = some signed := by
  cases h <;> rfl

theorem sound :
    ∀ c ∈ chain, c.verify = true ∧ digest c.certificate ∉ t.revoked := by
  induction h with
  | top hverify hrevoked _ => simp [hverify, hrevoked]
  | link hverify hrevoked _ _ _ ih =>
    intro c hc
    rcases mem_cons.mp hc with rfl | hc
    · exact ⟨hverify, hrevoked⟩
    · exact ih c hc

theorem held (hheld : t.certificates.lookup (digest signed.certificate) = some signed) :
    ∀ c ∈ chain, t.certificates.lookup (digest c.certificate) = some c := by
  induction h with
  | top _ _ _ => simp [hheld]
  | link _ _ _ hparent _ ih =>
    intro c hc
    rcases mem_cons.mp hc with rfl | hc
    · exact hheld
    · exact ih hparent c hc

theorem covers {path action : Str} {atMs : Nat}
    (hcovers : signed.certificate.covers path action atMs = true) :
    ∀ c ∈ chain, c.certificate.covers path action atMs = true := by
  induction h with
  | top _ _ _ => simp [hcovers]
  | link _ _ hattenuates _ _ ih =>
    intro c hc
    rcases mem_cons.mp hc with rfl | hc
    · exact hcovers
    · exact ih (DelegationCertificate.covers_of_attenuates hattenuates hcovers) c hc

theorem linked :
    chain.IsChain fun signed parent =>
      signed.certificate.parent = .certificate (digest parent.certificate) ∧
        signed.certificate.issuer = parent.certificate.subject := by
  induction h with
  | top _ _ _ => exact .singleton _
  | link _ _ hattenuates _ hwalk ih =>
    refine isChain_cons.mpr ⟨fun parent hparent => ?_, ih⟩
    rw [hwalk.head, mem_some] at hparent
    exact hparent ▸ DelegationCertificate.attenuates_link hattenuates

theorem last :
    ∃ last ∈ chain, chain.getLast? = some last ∧ last.certificate.parent = .root t.root := by
  induction h with
  | top _ _ hparent => exact ⟨_, List.mem_singleton_self _, rfl, hparent⟩
  | link _ _ _ _ hwalk ih =>
    obtain ⟨last, hmem, hlast, hparent⟩ := ih
    refine ⟨last, mem_cons_of_mem _ hmem, ?_, hparent⟩
    rw [getLast?_cons, hlast]
    rfl

theorem domain :
    ∀ c ∈ chain, c.certificate.scope.domain = signed.certificate.scope.domain := by
  induction h with
  | top _ _ _ => simp
  | link _ _ hattenuates _ _ ih =>
    intro c hc
    rcases mem_cons.mp hc with rfl | hc
    · rfl
    · rw [ih c hc, DelegationCertificate.attenuates_domain hattenuates]

end Walk

theorem Guarded.conferred (hguarded : t.Guarded digest) {subject : Subject} {needed : Cap}
    {mode : Mode} (h : t.covers digest subject needed mode = true) :
    ∃ chain, t.Conferred digest subject needed mode chain := by
  unfold DelegationTable.covers at h
  simp only [List.any_eq_true, List.mem_map, Bool.and_eq_true, beq_iff_eq] at h
  obtain ⟨signed, ⟨⟨id, _⟩, hentry, rfl⟩, ⟨hsubject, hcovers⟩, hchain⟩ := h
  rename_i signed
  have hlookup := AList.mem_lookup_iff.mpr hentry
  have hheld := hguarded.keyed id signed hlookup ▸ hlookup
  have hok : verifyChain digest t signed = .ok () := by
    cases hresult : verifyChain digest t signed with
    | ok _ => rfl
    | error error =>
      rw [hresult] at hchain
      cases hchain
  obtain ⟨chain, hwalk⟩ := walk_of_verifyInner hok
  obtain ⟨last, hmem, hlast, hparent⟩ := hwalk.last
  obtain ⟨hissuer, hdomain⟩ := hguarded.rooted _ last (hwalk.held hheld last hmem)
    (hwalk.sound last hmem).1 hparent
  have hin := hwalk.covers hcovers
  simp only [DelegationCertificate.covers, Bool.and_eq_true, decide_eq_true_eq] at hin
  refine ⟨chain, ⟨_, hwalk.head, hsubject⟩, hwalk.linked, ⟨last, hlast, hparent, hissuer⟩,
    hwalk.held hheld, hwalk.sound, fun c hc => ?_, fun c hc => ?_⟩
  · have hsame := (hwalk.domain c hc).trans (hwalk.domain last hmem).symm
    exact ⟨hsame.trans hdomain, (hin c hc).1.2, (hin c hc).2⟩
  · refine ⟨(hin c hc).1.1.1.2, fun expires hexpires => ?_⟩
    have hlive := (hin c hc).1.1.2
    rw [hexpires] at hlive
    exact of_decide_eq_true hlive

end DelegationTable

/-! ## Runs of a table -/

inductive TableOp where
  | adopt (signed : SignedDelegationCertificate)
  | revoke (id : Bytes32)
  | revokeRootGrants (subject : Subject)
  | setNow (nowMs : Nat)

namespace DelegationTable

variable (digest : DelegationCertificate → Bytes32)

def apply (t : DelegationTable) : TableOp → DelegationTable
  | .adopt signed => t.adopt digest signed
  | .revoke id => (t.revoke id).2
  | .revokeRootGrants subject => (t.revokeRootGrants digest subject).2
  | .setNow nowMs => t.setNow nowMs

def step (t : DelegationTable) (op : TableOp) : Option DelegationTable := some (t.apply digest op)

/-- A certificate adopted that verifies and names the root as its authority was issued by the
root, and for denizens. -/
def IssuedByRoot (t : DelegationTable) : TableOp → Prop
  | .adopt signed => signed.verify = true → signed.certificate.parent = .root t.root →
      signed.certificate.issuer = t.root ∧ signed.certificate.scope.domain = denizenDomain
  | _ => True

variable {digest} {t : DelegationTable}

theorem lookup_adopt (id : Bytes32) :
    (t.adopt digest signed).certificates.lookup id =
      if id = digest signed.certificate then some signed else t.certificates.lookup id :=
  Table.lookup_insert_if t.certificates (digest signed.certificate) id signed

theorem guarded_new (root : Bytes32) : (new root).Guarded digest :=
  ⟨fun _ _ h => (nomatch h), fun _ _ h => (nomatch h)⟩

theorem Guarded.congr {t' : DelegationTable} (h : t.Guarded digest) (hroot : t'.root = t.root)
    (hcertificates : t'.certificates = t.certificates) : t'.Guarded digest := by
  refine ⟨?_, ?_⟩
  · rw [hcertificates]
    exact h.keyed
  · rw [hcertificates, hroot]
    exact h.rooted

theorem revokeRootGrants_frame (subject : Subject) :
    (t.revokeRootGrants digest subject).2.root = t.root ∧
      (t.revokeRootGrants digest subject).2.certificates = t.certificates := by
  exact List.foldlRecOn _ _ (motive := fun state : Nat × DelegationTable =>
    state.2.root = t.root ∧ state.2.certificates = t.certificates) ⟨rfl, rfl⟩
    fun state h _ _ => h

theorem Guarded.apply (h : t.Guarded digest) {op : TableOp} (hop : t.IssuedByRoot op) :
    (t.apply digest op).Guarded digest := by
  cases op with
  | adopt signed =>
    constructor
    · intro id c hc
      change (t.adopt digest signed).certificates.lookup id = _ at hc
      rw [lookup_adopt] at hc
      split at hc
      · rename_i hid
        rw [← some.inj hc, hid]
      · exact h.keyed id c hc
    · intro id c hc
      change (t.adopt digest signed).certificates.lookup id = _ at hc
      rw [lookup_adopt] at hc
      split at hc
      · rw [← some.inj hc]
        exact hop
      · exact h.rooted id c hc
  | revoke id | setNow nowMs => exact h.congr rfl rfl
  | revokeRootGrants subject =>
    exact h.congr (revokeRootGrants_frame subject).1 (revokeRootGrants_frame subject).2

/-- Where every root certificate adopted is the root's own, coverage is the root's to give. -/
theorem covers_only_from_root (digest : DelegationCertificate → Bytes32) (root : Bytes32)
    (t : DelegationTable) (hrun : Reach (new root) (step digest) IssuedByRoot t)
    (subject : Subject) (needed : Cap) (mode : Mode)
    (hcovers : t.covers digest subject needed mode = true) :
    ∃ chain, t.Conferred digest subject needed mode chain := by
  have hguarded : t.Guarded digest := by
    refine hrun.invariant (guarded_new root) fun t t' op ht hop hnext => ?_
    obtain rfl := some.inj hnext
    exact ht.apply hop
  exact hguarded.conferred hcovers

/-! ## Certificates the root did not issue -/

def wholeScope : CapabilityScope where
  domain := denizenDomain
  resource := [1]
  pathPrefix := capPath (.scope .root)
  actions := {modeAction .read, modeAction .write, modeAction .delegate}

/-- `issuer` hands everything to `subject`; the nonce stands for the digest. -/
def handing (parent : DelegationParent) (issuer subject : Subject) (depth : Nat)
    (nonce : Bytes32) : SignedDelegationCertificate where
  certificate :=
    { parent, issuer, subject, scope := wholeScope, notBeforeMs := 0, issuedAtMs := 0,
      expiresAtMs := none, remainingDelegationDepth := depth, nonce }
  attested := true
  master := some issuer
  signed := true

/-- The root `1` installs `2`, who passes the hold on to `3`. -/
def installed : DelegationTable :=
  ((new 1).adopt (·.nonce) (handing (.root 1) 1 2 1 7)).adopt (·.nonce)
    (handing (.certificate 7) 2 3 0 8)

theorem covers_only_from_root_installed :
    ∃ chain, installed.Conferred (·.nonce) 3 (.scope .root) .write chain := by
  refine covers_only_from_root (·.nonce) 1 installed ?_ 3 (.scope .root) .write (by decide)
  have hfirst : (new 1).IssuedByRoot (.adopt (handing (.root 1) 1 2 1 7)) :=
    fun _ _ => ⟨rfl, rfl⟩
  have hsecond (t : DelegationTable) : t.IssuedByRoot (.adopt (handing (.certificate 7) 2 3 0 8)) :=
    fun _ h => nomatch h
  exact (Reach.start.next hfirst rfl).next (hsecond _) rfl

/-- `2` hands itself everything, in the name of the root `1`. -/
def forged : DelegationTable := (new 1).adopt (·.nonce) (handing (.root 1) 2 2 0 7)

theorem self_issued_root_covers :
    forged.covers (·.nonce) 2 (.scope .root) .delegate = true ∧
      ¬∃ chain, forged.Conferred (·.nonce) 2 (.scope .root) .delegate chain := by
  refine ⟨by decide, ?_⟩
  rintro ⟨chain, h⟩
  obtain ⟨last, hlast, -, hissuer⟩ := h.rooted
  have hheld := h.held last (mem_of_getLast? hlast)
  -- Nothing but the forged certificate is held.
  have hforged : last = handing (.root 1) 2 2 0 7 := by
    unfold forged at hheld
    rw [lookup_adopt] at hheld
    split at hheld
    · exact (some.inj hheld).symm
    · cases hheld
  rw [hforged] at hissuer
  exact absurd hissuer (by decide)

end DelegationTable

end Mere.Servitor
