import Mere.Gemot.Law

/-!
# Law that stays

Two quorums of one electorate share a member, and a member has signed one set of rules.
-/

namespace Mere.Gemot

open List Option Finset

variable {Clauses : Type} {hashing : Hashing Clauses} {mootId founder : Bytes32}
  {ops corpus : List (Operation Clauses)} {state : Constitution Clauses}

/-! ## Honest corpora -/

structure Amends (mootId : Bytes32) (op : Operation Clauses) (previous : Digest)
    (rules : ConstitutionRules Clauses) : Prop where
  moot : op.mootId = mootId
  verified : verify op = true
  amended : ∃ rulesHash atMs, op.event = some (.amended previous rules rulesHash atMs)

variable {op : Operation Clauses} {start : Constitution Clauses} {s : Signature Clauses}
  {p : AmendmentProposal Clauses}

theorem Signs.amends {rules : ConstitutionRules Clauses}
    (h : Signs hashing mootId state op rules) : Amends mootId op state.revision rules :=
  ⟨h.moot, h.verified, hashing.rules rules, h.signed⟩

def OneVote (mootId : Bytes32) (ops : List (Operation Clauses)) : Prop :=
  ∀ op ∈ ops, ∀ op' ∈ ops, op.author = op'.author → ∀ previous rules rules',
    Amends mootId op previous rules → Amends mootId op' previous rules' → rules = rules'

def Majorities (hashing : Hashing Clauses) (mootId founder : Bytes32)
    (ops : List (Operation Clauses)) : Prop :=
  ∀ law ∈ Constitution.history hashing mootId founder ops, ∀ electorate threshold,
    law.rules.amendment = .memberQuorum electorate threshold → electorate.card < 2 * threshold

def OneFounderAct (hashing : Hashing Clauses) (mootId founder : Bytes32)
    (ops : List (Operation Clauses)) : Prop :=
  ∀ law ∈ Constitution.history hashing mootId founder ops, law.rules.amendment = .founderSigned →
    ∀ op ∈ ops, ∀ op' ∈ ops, op.author = founder → op'.author = founder → ∀ rules rules',
      Amends mootId op law.revision rules → Amends mootId op' law.revision rules' → op.hash = op'.hash

/-! ## One founding -/

theorem Founds.unique {start' : Constitution Clauses}
    (h : Founds hashing mootId founder op start) (h' : Founds hashing mootId founder op start') :
    start = start' := by
  obtain ⟨_, _, _, _, hevent, rfl⟩ := h.event
  obtain ⟨_, _, _, _, hevent', rfl⟩ := h'.event
  have hsame := some.inj (hevent.symm.trans hevent')
  obtain ⟨-, -, rfl, rfl, rfl, -, -⟩ := ConstitutionEvent.genesis.inj hsame
  rfl

theorem Founds.founded_isSome (hop : op ∈ ops) (h : Founds hashing mootId founder op start) :
    (founded hashing mootId founder ops).isSome := by
  obtain ⟨parentConstitution, divergencePoint, rules, atMs, hevent, -⟩ := h.event
  have hcandidate : candidate hashing mootId op = some ⟨op.hash, op.author,
      .genesis mootId founder parentConstitution divergencePoint rules (hashing.rules rules) atMs⟩ :=
    candidate_eq_some.mpr ⟨h.moot, h.verified, hevent, rfl, rfl, rfl⟩
  refine findSome?_isSome_iff.mpr ⟨_, mem_candidates.mpr ⟨op, hop, hcandidate⟩, ?_⟩
  simp [establish, h.author]

theorem founded_eq {genesis : Operation Clauses} (hmem : genesis ∈ ops)
    (hfounds : Founds hashing mootId founder genesis start)
    (honly : ∀ op ∈ ops, ∀ start', Founds hashing mootId founder op start' → op = genesis) :
    founded hashing mootId founder ops = some start := by
  obtain ⟨start', hstart'⟩ := isSome_iff_exists.mp (hfounds.founded_isSome hmem)
  obtain ⟨op, hop, hfounds'⟩ := founds_of_founded hstart'
  rw [hstart', hfounds.unique (honly op hop start' hfounds' ▸ hfounds')]

/-! ## One round of two folds -/

theorem signed_subset (hsub : ops ⊆ corpus)
    (hs : s ∈ (candidates hashing mootId ops).filterMap (signature state)) :
    s ∈ (candidates hashing mootId corpus).filterMap (signature state) := by
  obtain ⟨op, hop, hrest⟩ := mem_signed.mp hs
  exact mem_signed.mpr ⟨op, hsub hop, hrest⟩

theorem supporters_subset_electorate {electorate : Finset Bytes32} {threshold : Nat}
    (hrule : state.rules.amendment = .memberQuorum electorate threshold) (rulesHash : Digest) :
    supporters ((candidates hashing mootId ops).filterMap (signature state)) rulesHash ⊆
      electorate := by
  intro actor hactor
  obtain ⟨s, hs, -, rfl⟩ := mem_supporters.mp hactor
  obtain ⟨op, -, hsigns, -, hauthor, -⟩ := mem_signed.mp hs
  have hpermitted := hsigns.permitted
  rw [hrule] at hpermitted
  simp only [AmendmentRule.permits, Bool.and_eq_true, decide_eq_true_eq] at hpermitted
  exact hauthor ▸ hpermitted.2

theorem exists_acceptedAmendment (hsub : ops ⊆ corpus)
    (h : acceptedAmendment state (candidates hashing mootId ops) = some p) :
    ∃ q, acceptedAmendment state (candidates hashing mootId corpus) = some q := by
  obtain ⟨hbacked, henough⟩ := acceptedAmendment_some h
  by_contra hnone
  rw [← ne_none_iff_exists', not_not] at hnone
  obtain ⟨s, hs, hhash, -⟩ := hbacked.rules
  have hfew := acceptedAmendment_none hnone (signed_subset hsub hs)
  have hmore : p.supporters ⊆ supporters
      ((candidates hashing mootId corpus).filterMap (signature state)) s.rulesHash := by
    intro actor hactor
    rw [hbacked.who] at hactor
    obtain ⟨s', hs', hhash', hauthor⟩ := mem_supporters.mp hactor
    exact mem_supporters.mpr ⟨s', signed_subset hsub hs', hhash'.trans hhash.symm, hauthor⟩
  have hcard := card_le_card hmore
  omega

theorem rulesHash_eq_of_author (hvote : OneVote mootId corpus) {s' : Signature Clauses}
    (hs : s ∈ (candidates hashing mootId corpus).filterMap (signature state))
    (hs' : s' ∈ (candidates hashing mootId corpus).filterMap (signature state))
    (hauthor : s.author = s'.author) : s.rulesHash = s'.rulesHash := by
  obtain ⟨op, hop, hsigns, -, hby, hbound⟩ := mem_signed.mp hs
  obtain ⟨op', hop', hsigns', -, hby', hbound'⟩ := mem_signed.mp hs'
  have hsame := hvote op hop op' hop' (hby.symm.trans (hauthor.trans hby')) state.revision s.rules
    s'.rules hsigns.amends hsigns'.amends
  rw [hbound, hbound', hsame]

theorem shared_author {q : AmendmentProposal Clauses}
    (hmajority : ∀ electorate threshold, state.rules.amendment = .memberQuorum electorate threshold →
      electorate.card < 2 * threshold)
    (hp : Backed ((candidates hashing mootId ops).filterMap (signature state)) p)
    (hpenough : state.rules.amendment.threshold ≤ p.supporters.card)
    (hq : Backed ((candidates hashing mootId corpus).filterMap (signature state)) q)
    (hqenough : state.rules.amendment.threshold ≤ q.supporters.card) :
    ∃ s ∈ (candidates hashing mootId ops).filterMap (signature state),
      ∃ s' ∈ (candidates hashing mootId corpus).filterMap (signature state),
        s.rulesHash = p.rulesHash ∧ s'.rulesHash = q.rulesHash ∧ s.author = s'.author := by
  cases hrule : state.rules.amendment with
  | founderSigned =>
    obtain ⟨s, hs, hhash, -⟩ := hp.rules
    obtain ⟨s', hs', hhash', -⟩ := hq.rules
    refine ⟨s, hs, s', hs', hhash, hhash', ?_⟩
    -- Nobody but the founder can have signed.
    obtain ⟨op, -, hsigns, -, hby, -⟩ := mem_signed.mp hs
    obtain ⟨op', -, hsigns', -, hby', -⟩ := mem_signed.mp hs'
    have hfounder := hsigns.permitted
    have hfounder' := hsigns'.permitted
    rw [hrule] at hfounder hfounder'
    rw [hby, hby', beq_iff_eq.mp hfounder, beq_iff_eq.mp hfounder']
  | memberQuorum electorate threshold =>
    have hless := hmajority electorate threshold hrule
    rw [hrule] at hpenough hqenough
    change threshold ≤ _ at hpenough hqenough
    have hpsub := hp.who ▸ supporters_subset_electorate hrule p.rulesHash
    have hqsub := hq.who ▸ supporters_subset_electorate hrule q.rulesHash
    obtain ⟨actor, hactor⟩ :=
      inter_nonempty_of_card_lt_card_add_card hpsub hqsub (by omega)
    rw [mem_inter, hp.who, hq.who] at hactor
    obtain ⟨s, hs, hhash, hauthor⟩ := mem_supporters.mp hactor.1
    obtain ⟨s', hs', hhash', hauthor'⟩ := mem_supporters.mp hactor.2
    exact ⟨s, hs, s', hs', hhash, hhash', hauthor.trans hauthor'.symm⟩

/-- Where one fold goes on, the fold of a larger corpus goes the same way. -/
theorem advance_of_subset (hsub : ops ⊆ corpus) (hfree : CollisionFree hashing corpus)
    (hvote : OneVote mootId corpus)
    (hmajority : ∀ electorate threshold, state.rules.amendment = .memberQuorum electorate threshold →
      electorate.card < 2 * threshold)
    (honce : state.rules.amendment = .founderSigned → ∀ op ∈ corpus, ∀ op' ∈ corpus,
      op.author = state.founder → op'.author = state.founder → ∀ rules rules',
      Amends mootId op state.revision rules → Amends mootId op' state.revision rules' →
        op.hash = op'.hash)
    {next : Constitution Clauses}
    (h : advance hashing (candidates hashing mootId ops) state = some next) :
    advance hashing (candidates hashing mootId corpus) state = some next := by
  obtain ⟨p, haccepted, rfl⟩ := map_eq_some_iff.mp h
  obtain ⟨q, hqaccepted⟩ := exists_acceptedAmendment hsub haccepted
  obtain ⟨hp, hpenough⟩ := acceptedAmendment_some haccepted
  obtain ⟨hq, hqenough⟩ := acceptedAmendment_some hqaccepted
  obtain ⟨s, hs, s', hs', hhash, hhash', hauthor⟩ := shared_author hmajority hp hpenough hq hqenough
  have hrulesHash : p.rulesHash = q.rulesHash := by
    rw [← hhash, ← hhash']
    exact rulesHash_eq_of_author hvote (signed_subset hsub hs) hs' hauthor
  have hrules : p.rules = q.rules := by
    obtain ⟨s₁, hs₁, hhash₁, hrules₁⟩ := hp.rules
    obtain ⟨s₂, hs₂, hhash₂, hrules₂⟩ := hq.rules
    obtain ⟨op₁, hop₁, hsigns₁, -, -, hbound₁⟩ := mem_signed.mp (signed_subset hsub hs₁)
    obtain ⟨op₂, hop₂, hsigns₂, -, -, hbound₂⟩ := mem_signed.mp hs₂
    rw [← hrules₁, ← hrules₂]
    refine hsigns₁.rules_eq hfree hop₁ hop₂ hsigns₂ ?_
    rw [← hbound₁, ← hbound₂, hhash₁, hhash₂, hrulesHash]
  have hrevision : (enact hashing state p).revision = (enact hashing state q).revision := by
    simp only [enact, hrulesHash]
    split
    · rfl
    · rename_i hquorum
      have hrule : state.rules.amendment = .founderSigned := by
        cases hrule : state.rules.amendment with
        | founderSigned => rfl
        | memberQuorum electorate threshold => exact absurd (by rw [hrule]; rfl) hquorum
      obtain ⟨s₁, hs₁, -, hcanonical₁⟩ := hp.canonical
      obtain ⟨s₂, hs₂, -, hcanonical₂⟩ := hq.canonical
      obtain ⟨op₁, hop₁, hsigns₁, hop₁hash, -, -⟩ := mem_signed.mp (signed_subset hsub hs₁)
      obtain ⟨op₂, hop₂, hsigns₂, hop₂hash, -, -⟩ := mem_signed.mp hs₂
      have hby₁ := hsigns₁.permitted
      have hby₂ := hsigns₂.permitted
      rw [hrule] at hby₁ hby₂
      have hsame := honce hrule op₁ hop₁ op₂ hop₂ (beq_iff_eq.mp hby₁) (beq_iff_eq.mp hby₂) _ _
        hsigns₁.amends hsigns₂.amends
      rw [← hcanonical₁, ← hcanonical₂, hop₁hash, hop₂hash, hsame]
  unfold advance
  rw [hqaccepted, map_some]
  simp only [enact] at hrevision ⊢
  rw [hrules, hrevision]

/-! ## The whole fold -/

theorem length_candidates_le (hnodup : ops.Nodup) (hsub : ops ⊆ corpus) :
    (candidates hashing mootId ops).length ≤ (candidates hashing mootId corpus).length := by
  unfold candidates
  rw [length_insertionSort, length_insertionSort]
  obtain ⟨l, hperm, hsublist⟩ := subperm_of_subset hnodup hsub
  rw [← (hperm.filterMap _).length_eq]
  exact (hsublist.filterMap _).length_le

/-- What a fold accepted stays accepted, with more operations. -/
theorem law_stays (hashing : Hashing Clauses) (mootId founder : Bytes32)
    (ops corpus : List (Operation Clauses)) (hnodup : ops.Nodup) (hsub : ops ⊆ corpus)
    (hfree : CollisionFree hashing corpus) (genesis : Operation Clauses) (start : Constitution Clauses)
    (hgenesis : genesis ∈ ops) (hfounds : Founds hashing mootId founder genesis start)
    (honly : ∀ op ∈ corpus, ∀ start', Founds hashing mootId founder op start' → op = genesis)
    (hvote : OneVote mootId corpus) (hmajorities : Majorities hashing mootId founder corpus)
    (honce : OneFounderAct hashing mootId founder corpus) :
    Constitution.history hashing mootId founder ops <+:
      Constitution.history hashing mootId founder corpus := by
  have hops := founded_eq hgenesis hfounds fun op hop => honly op (hsub hop)
  have hcorpus := founded_eq (hsub hgenesis) hfounds honly
  unfold Constitution.history
  rw [hops, hcorpus, map_some, map_some]
  refine trail_isPrefix (length_candidates_le hnodup hsub) fun law next _ hlaw hnext => ?_
  have hmem : law ∈ Constitution.history hashing mootId founder corpus := by
    unfold Constitution.history
    rw [hcorpus]
    exact hlaw
  refine advance_of_subset hsub hfree hvote (hmajorities law hmem) ?_ hnext
  rw [founder_of_mem_history hmem]
  exact honce law hmem

/-! ## A founder who signs twice -/

/-- The quorum of `2` and `3`, and `4` who agrees. -/
theorem law_stays_fourMembers :
    Constitution.history plainHashing 0 1 [handover, seconds 2 2, seconds 3 3] <+:
      Constitution.history plainHashing 0 1 [handover, seconds 2 2, seconds 3 3, seconds 4 4] := by
  have hauthor : ∀ op ∈ [handover, seconds 2 2, seconds 3 3, seconds 4 4],
      ∀ op' ∈ [handover, seconds 2 2, seconds 3 3, seconds 4 4], op.author = op'.author → op = op' := by
    decide
  have hquorum : ∀ law ∈ Constitution.history plainHashing 0 1
      [handover, seconds 2 2, seconds 3 3, seconds 4 4],
      law.rules.amendment = .memberQuorum {2, 3, 4} 2 := by
    decide
  refine law_stays plainHashing 0 1 _ _ (by decide) (by decide) (by unfold CollisionFree; decide)
    handover ⟨0, 1, none, none, twoOfThree 1, p2pandaOperation 1⟩ (by decide)
    ⟨rfl, rfl, rfl, none, none, twoOfThree 1, 0, rfl, rfl⟩ ?_ ?_ ?_ ?_
  · intro op hop start hfounds
    exact hauthor op hop handover (by decide) hfounds.author
  · intro op hop op' hop' hsame previous rules rules' hamends hamends'
    obtain rfl := hauthor op hop op' hop' hsame
    obtain ⟨_, _, hevent⟩ := hamends.amended
    obtain ⟨_, _, hevent'⟩ := hamends'.amended
    exact (ConstitutionEvent.amended.inj (some.inj (hevent.symm.trans hevent'))).2.1
  · intro law hlaw electorate threshold hrule
    rw [hquorum law hlaw] at hrule
    obtain ⟨rfl, rfl⟩ := AmendmentRule.memberQuorum.inj hrule
    decide
  · intro law hlaw hrule
    rw [hquorum law hlaw] at hrule
    cases hrule

def founderOnly (clauses : Bytes32) : ConstitutionRules Bytes32 := ⟨.founderSigned, clauses⟩

def foundation : Operation Bytes32 :=
  signedBy 1 1 0 none (.genesis 0 1 none none (founderOnly 1) ⟨.blake3, 1⟩ 0)

def amendment (hash : Bytes32) (seqNum : Nat) (backlink : Bytes32) (atMs : Nat) : Operation Bytes32 :=
  signedBy 1 hash seqNum (some backlink)
    (.amended (p2pandaOperation 1) (founderOnly 2) ⟨.blake3, 2⟩ atMs)

/-- The same rules signed again, by an operation of a lower hash, are another revision. -/
theorem repeated_act_moves_revision :
    OneVote 0 [foundation, amendment 9 1 1 0, amendment 5 2 9 1] ∧
      Majorities plainHashing 0 1 [foundation, amendment 9 1 1 0, amendment 5 2 9 1] ∧
      (∀ op ∈ [foundation, amendment 9 1 1 0, amendment 5 2 9 1], ∀ start,
        Founds plainHashing 0 1 op start → op = foundation) ∧
      ¬(Constitution.history plainHashing 0 1 [foundation, amendment 9 1 1 0]).map
          Constitution.revision <+:
        (Constitution.history plainHashing 0 1
          [foundation, amendment 9 1 1 0, amendment 5 2 9 1]).map Constitution.revision := by
  have hevents : ∀ op ∈ [foundation, amendment 9 1 1 0, amendment 5 2 9 1], ∀ event ∈ op.event,
      (event.previous = none → op = foundation) ∧
        (event.previous ≠ none → event.rules = founderOnly 2) := by
    decide
  refine ⟨?_, ?_, ?_, by decide⟩
  · intro op hop op' hop' _ previous rules rules' hamends hamends'
    obtain ⟨_, _, hevent⟩ := hamends.amended
    obtain ⟨_, _, hevent'⟩ := hamends'.amended
    have hrules := (hevents op hop _ hevent).2 (some_ne_none previous)
    exact hrules.trans ((hevents op' hop' _ hevent').2 (some_ne_none previous)).symm
  · intro law hlaw electorate threshold hrule
    have hfounder : ∀ law ∈ Constitution.history plainHashing 0 1
        [foundation, amendment 9 1 1 0, amendment 5 2 9 1], law.rules.amendment = .founderSigned := by
      decide
    rw [hfounder law hlaw] at hrule
    cases hrule
  · intro op hop start hfounds
    obtain ⟨_, _, _, _, hevent, -⟩ := hfounds.event
    exact (hevents op hop _ hevent).1 rfl

end Mere.Gemot
