import Mere.Base.Run
import Mere.Gemot.Constitution

/-!
# Law that was made lawfully

A constitution in force goes back to the founder's genesis by a chain of amendments, each signed by
as many as the law before it asked for.
-/

namespace Mere.Gemot

open List Option Finset Relation

variable {Clauses : Type} (signed : List (Signature Clauses)) (s : Signature Clauses)

/-! ## Counting -/

def supporters (signed : List (Signature Clauses)) (rulesHash : Digest) : Finset Bytes32 :=
  ((signed.filter (fun s => s.rulesHash = rulesHash)).map Signature.author).toFinset

theorem mem_supporters {signed : List (Signature Clauses)} {rulesHash : Digest} {actor : Bytes32} :
    actor ∈ supporters signed rulesHash ↔
      ∃ s ∈ signed, s.rulesHash = rulesHash ∧ s.author = actor := by
  simp [supporters, and_assoc]

structure Backed (signed : List (Signature Clauses)) (p : AmendmentProposal Clauses) : Prop where
  who : p.supporters = supporters signed p.rulesHash
  rules : ∃ s ∈ signed, s.rulesHash = p.rulesHash ∧ s.rules = p.rules
  canonical : ∃ s ∈ signed, s.rulesHash = p.rulesHash ∧ s.hash = p.canonical

structure Tally (signed : List (Signature Clauses)) (proposals : List (AmendmentProposal Clauses)) :
    Prop where
  distinct : (proposals.map AmendmentProposal.rulesHash).Nodup
  backed : ∀ p ∈ proposals, Backed signed p
  counted : ∀ s ∈ signed, s.rulesHash ∈ proposals.map AmendmentProposal.rulesHash

def AmendmentProposal.backed (p : AmendmentProposal Clauses) (s : Signature Clauses) :
    AmendmentProposal Clauses :=
  { p with canonical := min p.canonical s.hash, supporters := insert s.author p.supporters }

def AmendmentProposal.opened : AmendmentProposal Clauses :=
  ⟨s.hash, s.rules, s.rulesHash, {s.author}⟩

theorem propose_cases (proposals : List (AmendmentProposal Clauses)) (s : Signature Clauses) :
    (∃ before p after, proposals = before ++ p :: after ∧ p.rulesHash = s.rulesHash ∧
        propose proposals s = before ++ p.backed s :: after) ∨
      (∀ p ∈ proposals, p.rulesHash ≠ s.rulesHash) ∧
        propose proposals s = proposals ++ [.opened s] := by
  induction proposals with
  | nil => exact .inr ⟨nofun, rfl⟩
  | cons first proposals ih =>
    rw [propose]
    split
    · rename_i hsame
      exact .inl ⟨[], first, proposals, rfl, hsame, rfl⟩
    · rename_i hother
      rcases ih with ⟨before, p, after, rfl, hp, heq⟩ | ⟨hnone, heq⟩
      · exact .inl ⟨first :: before, p, after, rfl, hp, by rw [heq]; rfl⟩
      · refine .inr ⟨?_, by rw [heq]; rfl⟩
        intro p hp
        rcases mem_cons.mp hp with rfl | hp
        · exact hother
        · exact hnone p hp

theorem supporters_snoc (rulesHash : Digest) : supporters (signed ++ [s]) rulesHash =
      if s.rulesHash = rulesHash then insert s.author (supporters signed rulesHash)
      else supporters signed rulesHash := by
  unfold supporters
  split
  · rename_i hsame
    simp [hsame, union_comm]
  · rename_i hother
    simp [hother]

namespace Backed

variable {signed} {p : AmendmentProposal Clauses} {s : Signature Clauses}

theorem other (h : Backed signed p) (hne : p.rulesHash ≠ s.rulesHash) : Backed
    (signed ++ [s]) p := by
  obtain ⟨s₁, hs₁, hrules⟩ := h.rules
  obtain ⟨s₂, hs₂, hcanonical⟩ := h.canonical
  refine ⟨?_, ⟨s₁, mem_append_left _ hs₁, hrules⟩, s₂, mem_append_left _ hs₂, hcanonical⟩
  rw [supporters_snoc, if_neg hne.symm]
  exact h.who

theorem backed (h : Backed signed p) (hsame : p.rulesHash = s.rulesHash) :
    Backed (signed ++ [s]) (p.backed s) := by
  obtain ⟨s₁, hs₁, hrules⟩ := h.rules
  obtain ⟨s₂, hs₂, hcanonical⟩ := h.canonical
  refine ⟨?_, ⟨s₁, mem_append_left _ hs₁, hrules⟩, ?_⟩
  · change insert s.author p.supporters = supporters (signed ++ [s]) p.rulesHash
    rw [supporters_snoc, if_pos hsame.symm, h.who]
  · rcases le_total p.canonical s.hash with hle | hle
    · refine ⟨s₂, mem_append_left _ hs₂, hcanonical.1, ?_⟩
      exact hcanonical.2.trans (min_eq_left hle).symm
    · exact ⟨s, by simp, hsame.symm, (min_eq_right hle).symm⟩

end Backed

namespace Tally

variable {signed} {proposals : List (AmendmentProposal Clauses)}

theorem opened (h : Tally signed proposals) {s : Signature Clauses}
    (hnone : ∀ p ∈ proposals, p.rulesHash ≠ s.rulesHash) : Backed (signed ++ [s]) (.opened s) := by
  have hempty : supporters signed s.rulesHash = ∅ := by
    rw [eq_empty_iff_forall_notMem]
    intro actor hactor
    obtain ⟨s', hs', hhash, -⟩ := mem_supporters.mp hactor
    obtain ⟨p, hp, hsame⟩ := mem_map.mp (h.counted s' hs')
    exact hnone p hp (hsame.trans hhash)
  refine ⟨?_, ⟨s, by simp, rfl, rfl⟩, s, by simp, rfl, rfl⟩
  change {s.author} = supporters (signed ++ [s]) s.rulesHash
  rw [supporters_snoc, if_pos rfl, hempty]
  rfl

theorem propose (h : Tally signed proposals) (s : Signature Clauses) :
    Tally (signed ++ [s]) (propose proposals s) := by
  rcases propose_cases proposals s with ⟨before, p, after, rfl, hsame, heq⟩ | ⟨hnone, heq⟩
  · have hhashes : (before ++ p.backed s :: after).map AmendmentProposal.rulesHash =
        (before ++ p :: after).map AmendmentProposal.rulesHash := by
      rw [map_append, map_append]
      rfl
    rw [heq]
    refine ⟨hhashes ▸ h.distinct, fun q hq => ?_, fun s' hs' => ?_⟩
    · rcases mem_cons.mp (perm_middle.mem_iff.mp hq) with rfl | hq
      · exact (h.backed p (by simp)).backed hsame
      · -- The other proposals are of other rules.
        have hdistinct := h.distinct
        rw [List.map_append, List.map_cons, List.nodup_middle, ← List.map_append] at hdistinct
        have hmem : q ∈ before ++ p :: after := perm_middle.mem_iff.mpr (mem_cons_of_mem p hq)
        refine (h.backed q hmem).other fun hq' => ?_
        exact (nodup_cons.mp hdistinct).1 (hsame.trans hq'.symm ▸ mem_map_of_mem hq)
    · rw [hhashes]
      rcases mem_append.mp hs' with hs' | hs'
      · exact h.counted s' hs'
      · rw [List.mem_singleton.mp hs', ← hsame]
        exact mem_map_of_mem (by simp)
  · rw [heq]
    refine ⟨?_, fun q hq => ?_, fun s' hs' => ?_⟩
    · rw [map_append, nodup_append]
      refine ⟨h.distinct, nodup_singleton _, ?_⟩
      rintro hash hhash _ hopened rfl
      obtain ⟨p, hp, rfl⟩ := mem_map.mp hhash
      exact hnone p hp (List.mem_singleton.mp hopened)
    · rcases mem_append.mp hq with hq | hq
      · exact (h.backed q hq).other (hnone q hq)
      · rw [List.mem_singleton.mp hq]
        exact h.opened hnone
    · rw [map_append, mem_append]
      rcases mem_append.mp hs' with hs' | hs'
      · exact .inl (h.counted s' hs')
      · rw [List.mem_singleton.mp hs']
        exact .inr (List.mem_singleton_self _)

end Tally

theorem tally_foldl : Tally signed (signed.foldl propose []) := by
  induction signed using List.reverseRecOn with
  | nil => exact ⟨nodup_nil, nofun, nofun⟩
  | append_singleton signed s ih =>
    rw [foldl_append]
    exact ih.propose s

variable {threshold : Nat} {proposals : List (AmendmentProposal Clauses)}
  {p : AmendmentProposal Clauses} {op : Operation Clauses} {c : Candidate Clauses}
  {s : Signature Clauses} {ops' : List (Operation Clauses)} {cs : List (Candidate Clauses)}
  {next : Constitution Clauses} {founder : Bytes32} {start law : Constitution Clauses}

theorem mem_of_choose (h : choose threshold proposals = some p) :
    p ∈ proposals ∧ threshold ≤ p.supporters.card := by
  refine ⟨(perm_insertionSort _ proposals).mem_iff.mp (mem_of_find?_eq_some h), ?_⟩
  have henough := find?_some h
  exact of_decide_eq_true henough

theorem card_lt_of_choose
    (h : choose threshold proposals = none) : ∀ p ∈ proposals, p.supporters.card < threshold := by
  intro p hp
  have hmem := (perm_insertionSort (fun p q => p.canonical ≤ q.canonical) proposals).mem_iff.mpr hp
  have hsmall := find?_eq_none.mp h p hmem
  rw [decide_eq_true_eq] at hsmall
  exact Nat.lt_of_not_le hsmall

/-! ## Signatures -/

variable (hashing : Hashing Clauses) (mootId : Bytes32)

/-- The operation is a valid signature of `rules` against the revision of `state`, by somebody
whom the law of `state` lets sign. -/
structure Signs (state : Constitution Clauses) (op : Operation Clauses)
    (rules : ConstitutionRules Clauses) : Prop where
  moot : op.mootId = mootId
  verified : verify op = true
  signed : ∃ atMs, op.event = some (.amended state.revision rules (hashing.rules rules) atMs)
  permitted : state.rules.amendment.permits state.founder op.author = true

variable {hashing mootId} {ops : List (Operation Clauses)} {state : Constitution Clauses}

theorem candidate_eq_some :
    candidate hashing mootId op = some c ↔ op.mootId = mootId ∧ verify op = true ∧
      op.event = some c.event ∧ hashing.rules c.event.rules = c.event.rulesHash ∧
      c.hash = op.hash ∧ c.author = op.author := by
  unfold candidate
  constructor
  · intro h
    split at h
    · cases h
    rename_i hvalid
    rw [Bool.or_eq_true, decide_eq_true_eq, not_or, not_not, Bool.not_eq_true', Bool.not_eq_false]
      at hvalid
    obtain ⟨event, hevent, hbound⟩ := bind_eq_some_iff.mp h
    split at hbound
    · rename_i hrules
      obtain rfl := some.inj hbound
      exact ⟨hvalid.1, hvalid.2, hevent, beq_iff_eq.mp hrules, rfl, rfl⟩
    · cases hbound
  · rintro ⟨hmoot, hverify, hevent, hbound, hhash, hauthor⟩
    have hrules : c.event.rulesAreBound hashing = true := beq_iff_eq.mpr hbound
    rw [if_neg (by simp [hmoot, hverify]), hevent, bind_some, if_pos hrules, ← hhash, ← hauthor]

theorem mem_candidates : c ∈ candidates hashing mootId ops ↔
    ∃ op ∈ ops, candidate hashing mootId op = some c := by
  unfold candidates
  rw [(List.perm_insertionSort _ _).mem_iff, List.mem_filterMap]

theorem signature_eq_some :
    signature state c = some s ↔
      (∃ atMs, c.event = .amended state.revision s.rules s.rulesHash atMs) ∧
        authorizeGoverned c.author state = true ∧ s.hash = c.hash ∧ s.author = c.author := by
  unfold signature
  split
  · rename_i hevent
    refine ⟨nofun, ?_⟩
    rintro ⟨⟨atMs, hamended⟩, -⟩
    rw [hevent] at hamended
    cases hamended
  · rename_i previous rules rulesHash atMs hevent
    rw [hevent]
    constructor
    · intro h
      split at h
      · cases h
      rename_i hvalid
      rw [Bool.or_eq_true, decide_eq_true_eq, not_or, not_not, Bool.not_eq_true', Bool.not_eq_false]
        at hvalid
      obtain rfl := some.inj h
      exact ⟨⟨atMs, hvalid.1 ▸ rfl⟩, hvalid.2, rfl, rfl⟩
    · rintro ⟨⟨_, hamended⟩, hauthorized, hhash, hauthor⟩
      obtain ⟨rfl, rfl, rfl, -⟩ := ConstitutionEvent.amended.inj hamended
      rw [if_neg (by simp [hauthorized]), ← hhash, ← hauthor]

theorem mem_signed :
    s ∈ (candidates hashing mootId ops).filterMap (signature state) ↔
      ∃ op ∈ ops, Signs hashing mootId state op s.rules ∧ s.hash = op.hash ∧ s.author = op.author ∧
        s.rulesHash = hashing.rules s.rules := by
  rw [List.mem_filterMap]
  constructor
  · rintro ⟨c, hc, hs⟩
    obtain ⟨op, hop, hcandidate⟩ := mem_candidates.mp hc
    obtain ⟨hmoot, hverify, hevent, hbound, hhash, hauthor⟩ := candidate_eq_some.mp hcandidate
    obtain ⟨⟨atMs, hamended⟩, hauthorized, hhash', hauthor'⟩ := signature_eq_some.mp hs
    rw [hamended] at hevent hbound
    exact ⟨op, hop, ⟨hmoot, hverify, ⟨atMs, hbound ▸ hevent⟩, hauthor ▸ hauthorized⟩,
      hhash'.trans hhash, hauthor'.trans hauthor, hbound.symm⟩
  · rintro ⟨op, hop, ⟨hmoot, hverify, ⟨atMs, hevent⟩, hpermitted⟩, hhash, hauthor, hbound⟩
    refine ⟨⟨op.hash, op.author, .amended state.revision s.rules (hashing.rules s.rules) atMs⟩,
      mem_candidates.mpr ⟨op, hop, candidate_eq_some.mpr ⟨hmoot, hverify, hevent, rfl, rfl, rfl⟩⟩,
      signature_eq_some.mpr ⟨⟨atMs, by rw [hbound]⟩, hpermitted, hhash, hauthor⟩⟩

/-! ## The order of a corpus -/

theorem pairwise_candidates (h : ops.Pairwise (fun a b => a.hash ≠ b.hash)) :
    (candidates hashing mootId ops).Pairwise (fun a b => a.hash < b.hash) := by
  have hsorted : (candidates hashing mootId ops).Pairwise (fun a b => a.hash ≤ b.hash) := by
    exact pairwise_insertionSort _ _
  have hdistinct : (ops.filterMap (candidate hashing mootId)).Pairwise (fun a b => a.hash ≠ b.hash) := by
    refine List.Pairwise.filterMap _ (fun op op' hne c hc c' hc' => ?_) h
    obtain ⟨-, -, -, -, hhash, -⟩ := candidate_eq_some.mp hc
    obtain ⟨-, -, -, -, hhash', -⟩ := candidate_eq_some.mp hc'
    rwa [hhash, hhash']
  have hboth := ((perm_insertionSort (fun a b => a.hash ≤ b.hash) _).pairwise_iff
    fun hne => hne.symm).mpr hdistinct
  exact (hsorted.and hboth).imp fun hab => lt_of_le_of_ne hab.1 hab.2

theorem candidates_congr (hperm : ops.Perm ops')
    (h : ops.Pairwise (fun a b => a.hash ≠ b.hash)) :
    candidates hashing mootId ops = candidates hashing mootId ops' := by
  have h' := (hperm.pairwise_iff fun hne => hne.symm).mp h
  refine (pairwise_candidates h).eq_of_mem_iff (pairwise_candidates h') fun c => ?_
  simp only [mem_candidates, hperm.mem_iff]

/-- A round depends on the signatures it can count, and on nothing else. -/
theorem signed_congr
    (h : ops.Pairwise (fun a b => a.hash ≠ b.hash)) (h' : ops'.Pairwise (fun a b => a.hash ≠ b.hash))
    (hsame : ∀ op rules, Signs hashing mootId state op rules → (op ∈ ops ↔ op ∈ ops')) :
    (candidates hashing mootId ops).filterMap (signature state) =
      (candidates hashing mootId ops').filterMap (signature state) := by
  have hpairwise (l : List (Operation Clauses)) (hl : l.Pairwise (fun a b => a.hash ≠ b.hash)) :
      ((candidates hashing mootId l).filterMap (signature state)).Pairwise
        (fun a b => a.hash < b.hash) := by
    refine List.Pairwise.filterMap _ (fun c c' hlt s hs s' hs' => ?_) (pairwise_candidates hl)
    rwa [(signature_eq_some.mp hs).2.2.1, (signature_eq_some.mp hs').2.2.1]
  refine (hpairwise ops h).eq_of_mem_iff (hpairwise ops' h') fun s => ?_
  rw [mem_signed, mem_signed]
  constructor
  · rintro ⟨op, hop, hsigns, hrest⟩
    exact ⟨op, (hsame op s.rules hsigns).mp hop, hsigns, hrest⟩
  · rintro ⟨op, hop, hsigns, hrest⟩
    exact ⟨op, (hsame op s.rules hsigns).mpr hop, hsigns, hrest⟩

/-! ## One round -/

theorem acceptedAmendment_some
    (h : acceptedAmendment state cs = some p) :
    Backed (cs.filterMap (signature state)) p ∧
      state.rules.amendment.threshold ≤ p.supporters.card := by
  obtain ⟨hmem, henough⟩ := mem_of_choose h
  exact ⟨(tally_foldl _).backed p hmem, henough⟩

theorem acceptedAmendment_none
    (h : acceptedAmendment state cs = none)
    (hs : s ∈ cs.filterMap (signature state)) :
    (supporters (cs.filterMap (signature state)) s.rulesHash).card <
      state.rules.amendment.threshold := by
  obtain ⟨p, hp, hhash⟩ := mem_map.mp ((tally_foldl _).counted s hs)
  have hfew := card_lt_of_choose h p hp
  rwa [((tally_foldl _).backed p hp).who, hhash] at hfew

variable (hashing mootId ops) in
/-- `next` is `state` with rules that as many signed as the law of `state` asks for, all of them
let to sign by it and all of them against its revision. -/
def Enacted (state next : Constitution Clauses) : Prop :=
  ∃ (rules : ConstitutionRules Clauses) (signers : Finset Bytes32) (canonical : Operation Clauses),
    signers.Nonempty ∧ state.rules.amendment.threshold ≤ signers.card ∧
    (∀ actor ∈ signers, ∃ op ∈ ops, op.author = actor ∧ Signs hashing mootId state op rules) ∧
    canonical ∈ ops ∧ Signs hashing mootId state canonical rules ∧
    next = { state with
      rules := rules
      revision :=
        if state.rules.amendment.isQuorum then
          hashing.quorumRevision state.revision (hashing.rules rules)
        else p2pandaOperation canonical.hash }

def CollisionFree (hashing : Hashing Clauses) (ops : List (Operation Clauses)) : Prop :=
  ∀ op ∈ ops, ∀ op' ∈ ops, ∀ event ∈ op.event, ∀ event' ∈ op'.event,
    hashing.rules event.rules = hashing.rules event'.rules → event.rules = event'.rules

theorem Signs.rules_eq (hfree : CollisionFree hashing ops) {op' : Operation Clauses}
    (hop : op ∈ ops) (hop' : op' ∈ ops) {rules rules' : ConstitutionRules Clauses}
    (h : Signs hashing mootId state op rules) (h' : Signs hashing mootId state op' rules')
    (hsame : hashing.rules rules = hashing.rules rules') : rules = rules' := by
  obtain ⟨_, hevent⟩ := h.signed
  obtain ⟨_, hevent'⟩ := h'.signed
  exact hfree op hop op' hop' _ hevent _ hevent' hsame

theorem enacted_of_advance (hfree : CollisionFree hashing ops)
    (h : advance hashing (candidates hashing mootId ops) state = some next) :
    Enacted hashing mootId ops state next := by
  obtain ⟨p, haccepted, rfl⟩ := map_eq_some_iff.mp h
  obtain ⟨hbacked, henough⟩ := acceptedAmendment_some haccepted
  obtain ⟨s, hs, hhash, hrules⟩ := hbacked.rules
  obtain ⟨op, hop, hsigns, -, hauthor, hbound⟩ := mem_signed.mp hs
  rw [hrules] at hsigns hbound
  -- All signatures of the proposal are of the same rules, not only of the same hash.
  have hall (s' : Signature Clauses)
      (hs' : s' ∈ (candidates hashing mootId ops).filterMap (signature state))
      (hhash' : s'.rulesHash = p.rulesHash) : ∃ op ∈ ops, op.author = s'.author ∧
        op.hash = s'.hash ∧ Signs hashing mootId state op p.rules := by
    obtain ⟨op', hop', hsigns', hhash'', hauthor', hbound'⟩ := mem_signed.mp hs'
    have hsame := hsigns'.rules_eq hfree hop' hop hsigns
      ((hbound'.symm.trans hhash').trans (hhash.symm.trans hbound))
    exact ⟨op', hop', hauthor'.symm, hhash''.symm, hsame ▸ hsigns'⟩
  obtain ⟨s₁, hs₁, hhash₁, hcanonical⟩ := hbacked.canonical
  obtain ⟨op₁, hop₁, -, hop₁hash, hsigns₁⟩ := hall s₁ hs₁ hhash₁
  refine ⟨p.rules, p.supporters, op₁, ⟨s.author, ?_⟩, henough, fun actor hactor => ?_, hop₁, hsigns₁, ?_⟩
  · rw [hbacked.who]
    exact mem_supporters.mpr ⟨s, hs, hhash, rfl⟩
  · rw [hbacked.who] at hactor
    obtain ⟨s', hs', hhash', rfl⟩ := mem_supporters.mp hactor
    obtain ⟨op', hop', hauthor', -, hsigns'⟩ := hall s' hs' hhash'
    exact ⟨op', hop', hauthor', hsigns'⟩
  · rw [enact, hop₁hash, hcanonical, ← hhash, hbound]

theorem not_enacted_of_threshold {electorate : Finset Bytes32}
    (hrule : state.rules.amendment = .memberQuorum electorate threshold)
    (hthreshold : threshold = 0 ∨ electorate.card < threshold) (next : Constitution Clauses) :
    ¬Enacted hashing mootId ops state next := by
  rintro ⟨rules, signers, canonical, -, -, -, -, hsigns, -⟩
  have hpermitted := hsigns.permitted
  rw [hrule] at hpermitted
  simp only [AmendmentRule.permits, Bool.and_eq_true, decide_eq_true_eq] at hpermitted
  omega

/-! ## The loop -/

variable (hashing ops) in
def Leads (revision next : Digest) : Prop :=
  ∃ op ∈ ops, ∃ rules rulesHash atMs,
    op.event = some (.amended revision rules rulesHash atMs) ∧
      (next = p2pandaOperation op.hash ∨ next = hashing.quorumRevision revision rulesHash)

/-- No revision leads back to itself. -/
def Acyclic (hashing : Hashing Clauses) (ops : List (Operation Clauses)) : Prop :=
  ∀ revision, ¬TransGen (Leads hashing ops) revision revision

theorem leads_of_advance
    (h : advance hashing (candidates hashing mootId ops) state = some next) :
    Leads hashing ops state.revision next.revision := by
  obtain ⟨p, haccepted, rfl⟩ := map_eq_some_iff.mp h
  obtain ⟨s, hs, hhash, hcanonical⟩ := (acceptedAmendment_some haccepted).1.canonical
  obtain ⟨op, hop, hsigns, hop', -, hbound⟩ := mem_signed.mp hs
  obtain ⟨atMs, hevent⟩ := hsigns.signed
  refine ⟨op, hop, s.rules, hashing.rules s.rules, atMs, hevent, ?_⟩
  simp only [enact]
  split
  · exact .inr (by rw [← hbound, hhash])
  · exact .inl (by rw [← hop', hcanonical])

theorem revision_ne (hacyclic : Acyclic hashing ops) {a b : Constitution Clauses}
    (h : TransGen (Next (advance hashing (candidates hashing mootId ops))) a b) :
    a.revision ≠ b.revision := by
  intro hsame
  have hleads : TransGen (Leads hashing ops) a.revision b.revision :=
    TransGen.lift Constitution.revision (fun _ _ hstep => leads_of_advance hstep) a b h
  rw [hsame] at hleads
  exact hacyclic _ hleads

def ConstitutionEvent.previous : ConstitutionEvent Clauses → Option Digest
  | .genesis _ _ _ _ _ _ _ => none
  | .amended previous _ _ _ => some previous

/-- The loop stops: every round uses up the candidates of one revision. -/
theorem advance_settle (hacyclic : Acyclic hashing ops) (start : Constitution Clauses) {fuel : Nat}
    (hfuel : (candidates hashing mootId ops).length ≤ fuel) :
    advance hashing (candidates hashing mootId ops)
      (settle (advance hashing (candidates hashing mootId ops)) fuel start) = none := by
  refine step_settle Constitution.revision (fun _ _ => revision_ne hacyclic)
    ((candidates hashing mootId ops).filterMap fun c => c.event.previous).toFinset ?_ ?_
  · intro a _ hstep
    obtain ⟨next, hnext⟩ := ne_none_iff_exists'.mp hstep
    obtain ⟨p, haccepted, -⟩ := map_eq_some_iff.mp hnext
    obtain ⟨s, hs, -, -⟩ := (acceptedAmendment_some haccepted).1.rules
    obtain ⟨c, hc, hsigned⟩ := mem_filterMap.mp hs
    obtain ⟨⟨atMs, hevent⟩, -⟩ := signature_eq_some.mp hsigned
    exact mem_toFinset.mpr (mem_filterMap.mpr ⟨c, hc, by rw [hevent]; rfl⟩)
  · exact ((toFinset_card_le _).trans (length_filterMap_le _ _)).trans hfuel

variable (hashing mootId) in
/-- The operation is a valid genesis of the founder, and `start` is the constitution it gives. -/
structure Founds (founder : Bytes32) (op : Operation Clauses) (start : Constitution Clauses) : Prop where
  moot : op.mootId = mootId
  verified : verify op = true
  author : op.author = founder
  event : ∃ parentConstitution divergencePoint rules atMs,
    op.event = some (.genesis mootId founder parentConstitution divergencePoint rules
      (hashing.rules rules) atMs) ∧
    start = ⟨mootId, founder, parentConstitution, divergencePoint, rules, p2pandaOperation op.hash⟩

theorem establish_eq_some (hc : candidate hashing mootId op = some c)
    (h : establish mootId founder c = some start) : Founds hashing mootId founder op start := by
  obtain ⟨hmoot, hverify, hevent, hbound, hhash, hauthor⟩ := candidate_eq_some.mp hc
  unfold establish at h
  split at h
  · rename_i moot named parentConstitution divergencePoint rules rulesHash atMs hgenesis
    split at h
    · rename_i hfounder
      obtain ⟨rfl, rfl, hby⟩ := hfounder
      rw [hgenesis] at hevent hbound
      refine ⟨hmoot, hverify, hauthor.symm.trans hby,
        parentConstitution, divergencePoint, rules, atMs, hbound ▸ hevent, ?_⟩
      rw [← hhash]
      exact (some.inj h).symm
    · cases h
  · cases h

theorem founds_of_founded
    (h : founded hashing mootId founder ops = some start) :
    ∃ op ∈ ops, Founds hashing mootId founder op start := by
  obtain ⟨c, hc, hstart⟩ := exists_of_findSome?_eq_some h
  obtain ⟨op, hop, hcandidate⟩ := mem_candidates.mp hc
  exact ⟨op, hop, establish_eq_some hcandidate hstart⟩

theorem mem_history
    (h : law ∈ Constitution.history hashing mootId founder ops) :
    ∃ start, founded hashing mootId founder ops = some start ∧
      ReflTransGen (Next (advance hashing (candidates hashing mootId ops))) start law := by
  unfold Constitution.history at h
  cases hstart : founded hashing mootId founder ops with
  | none =>
    rw [hstart] at h
    cases h
  | some start =>
    rw [hstart] at h
    exact ⟨start, rfl, mem_trail h⟩

theorem founder_of_mem_history
    (h : law ∈ Constitution.history hashing mootId founder ops) : law.founder = founder := by
  obtain ⟨start, hstart, hreach⟩ := mem_history h
  obtain ⟨op, -, hfounds⟩ := founds_of_founded hstart
  refine keeps_of_chain (P := fun law => law.founder = founder) ?_ hreach ?_
  · intro state next hnext hstate
    obtain ⟨p, -, rfl⟩ := map_eq_some_iff.mp hnext
    exact hstate
  · obtain ⟨_, _, _, _, -, rfl⟩ := hfounds.event
    rfl

/-- The fold stops, and the law it stops at was made lawfully. -/
theorem law_is_legitimate (hashing : Hashing Clauses) (mootId founder : Bytes32)
    (ops : List (Operation Clauses)) (hfree : CollisionFree hashing ops)
    (hacyclic : Acyclic hashing ops) :
    (∀ start fuel, (candidates hashing mootId ops).length ≤ fuel →
      advance hashing (candidates hashing mootId ops)
          (settle (advance hashing (candidates hashing mootId ops)) fuel start) = none ∧
        settle (advance hashing (candidates hashing mootId ops)) fuel start =
          settle (advance hashing (candidates hashing mootId ops))
            (candidates hashing mootId ops).length start) ∧
    (∀ law, Constitution.fold hashing mootId founder ops = some law →
      ∃ genesis ∈ ops, ∃ start, Founds hashing mootId founder genesis start ∧
        ReflTransGen (Enacted hashing mootId ops) start law) ∧
    ∀ (state : Constitution Clauses) electorate threshold,
      state.rules.amendment = .memberQuorum electorate threshold →
      (threshold = 0 ∨ electorate.card < threshold) →
      ∀ next, ¬Enacted hashing mootId ops state next := by
  refine ⟨fun start fuel hfuel => ⟨advance_settle hacyclic start hfuel, ?_⟩, fun law hlaw => ?_, ?_⟩
  · exact settle_of_stopped (advance_settle hacyclic start le_rfl) hfuel
  · obtain ⟨start, hstart, rfl⟩ := map_eq_some_iff.mp hlaw
    obtain ⟨genesis, hgenesis, hfounds⟩ := founds_of_founded hstart
    refine ⟨genesis, hgenesis, start, hfounds, ?_⟩
    exact ReflTransGen.mono (fun _ _ hstep => enacted_of_advance hfree hstep) _ _ settle_reaches
  · intro state electorate threshold hrule hthreshold
    exact not_enacted_of_threshold hrule hthreshold

/-! ## A Moot of four -/

/-- Digests small enough to follow by hand. -/
def plainHashing : Hashing Bytes32 where
  rules := fun rules => ⟨.blake3, rules.clauses⟩
  quorumRevision := fun previous rulesHash => ⟨.blake3, previous.bytes + 16 * rulesHash.bytes⟩

def signedBy (author hash : Bytes32) (seqNum : Nat) (backlink : Option Bytes32)
    (event : ConstitutionEvent Bytes32) : Operation Bytes32 where
  hash := hash
  author := author
  seqNum := seqNum
  backlink := backlink
  mootId := 0
  event := some event
  validates := true
  headerHash := hash

def twoOfThree (clauses : Bytes32) : ConstitutionRules Bytes32 := ⟨.memberQuorum {2, 3, 4} 2, clauses⟩

def handover : Operation Bytes32 :=
  signedBy 1 1 0 none (.genesis 0 1 none none (twoOfThree 1) ⟨.blake3, 1⟩ 0)

def seconds (author hash : Bytes32) : Operation Bytes32 :=
  signedBy author hash 0 none (.amended (p2pandaOperation 1) (twoOfThree 2) ⟨.blake3, 2⟩ 0)

def thirds (author hash backlink : Bytes32) : Operation Bytes32 :=
  signedBy author hash 1 (some backlink) (.amended ⟨.blake3, 33⟩ (twoOfThree 3) ⟨.blake3, 3⟩ 0)

def fourMembers : List (Operation Bytes32) :=
  [handover, seconds 2 2, seconds 3 3, seconds 4 4, thirds 3 40 3, thirds 4 41 4]

theorem acyclic_of_rising {hashing : Hashing Clauses} {ops : List (Operation Clauses)}
    (h : ∀ op ∈ ops, ∀ event ∈ op.event, ∀ previous ∈ event.previous, previous.bytes < op.hash ∧
      previous.bytes < (hashing.quorumRevision previous event.rulesHash).bytes) :
    Acyclic hashing ops := by
  have hstep (revision next : Digest) (hleads : Leads hashing ops revision next) :
      revision.bytes < next.bytes := by
    obtain ⟨op, hop, rules, rulesHash, atMs, hevent, rfl | rfl⟩ := hleads
    · exact (h op hop _ hevent revision rfl).1
    · exact (h op hop _ hevent revision rfl).2
  intro revision hcycle
  have hrises : ∀ next, TransGen (Leads hashing ops) revision next →
      revision.bytes < next.bytes := by
    intro next hnext
    induction hnext with
    | single hleads => exact hstep _ _ hleads
    | tail _ hleads ih => exact ih.trans (hstep _ _ hleads)
  exact lt_irrefl _ (hrises revision hcycle)

theorem acyclic_fourMembers : Acyclic plainHashing fourMembers := acyclic_of_rising (by decide)

theorem collisionFree_fourMembers : CollisionFree plainHashing fourMembers := by
  unfold CollisionFree
  decide

theorem law_is_legitimate_fourMembers :
    ∃ genesis ∈ fourMembers, ∃ start, Founds plainHashing 0 1 genesis start ∧
      ReflTransGen (Enacted plainHashing 0 fourMembers) start
        ⟨0, 1, none, none, twoOfThree 3, ⟨.blake3, 81⟩⟩ :=
  (law_is_legitimate plainHashing 0 1 fourMembers collisionFree_fourMembers acyclic_fourMembers).2.1
    _ (by decide)

end Mere.Gemot
