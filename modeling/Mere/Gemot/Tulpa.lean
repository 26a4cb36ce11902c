import Mere.Base.Arena
import Mere.Base.Word

/-!
# Tulpa proposals

From `crates/moot/gemot/src/moot/tulpa.rs` and `crates/moot/mooting/src/recognition.rs`.
-/

namespace Mere.Gemot

open List Finset Std.ExtTreeMap
open Option hiding or_assoc

/-! ## Recognition -/

structure ElectorateSnapshot where
  groupId : Bytes32
  revision : Bytes32
  members : Finset Bytes32
  deriving DecidableEq

inductive RecognitionPolicy where
  | anyEligible
  | threshold (required : Nat)
  | fraction (numerator denominator minimum : Nat)
  | unanimous
  deriving DecidableEq

inductive RecognitionPolicyError where
  | zeroThreshold | invalidFraction | zeroMinimum
  deriving DecidableEq

def RecognitionPolicy.validate : RecognitionPolicy → Except RecognitionPolicyError Unit
  | .threshold 0 => .error .zeroThreshold
  | .fraction numerator denominator minimum =>
    if numerator = 0 ∨ denominator = 0 ∨ denominator < numerator then .error .invalidFraction
    else if minimum = 0 then .error .zeroMinimum
    else .ok ()
  | _ => .ok ()

structure RecognitionContext where
  policy : RecognitionPolicy
  electorate : ElectorateSnapshot
  deriving DecidableEq

structure RecognitionDecision where
  groupId : Bytes32
  electorateRevision : Bytes32
  electorateSize : Nat
  required : Nat
  eligibleEndorsements : Finset Bytes32
  ineligibleEndorsements : Finset Bytes32
  accepted : Bool
  deriving DecidableEq

namespace RecognitionContext

variable (context : RecognitionContext)

def required : Nat :=
  let electorateSize := context.electorate.members.card
  match context.policy with
  | .anyEligible => 1
  | .threshold required => required
  | .fraction numerator denominator minimum =>
    let scaled := satMul electorateSize numerator
    max (scaled / denominator + if scaled % denominator = 0 then 0 else 1) minimum
  | .unanimous => max electorateSize 1

def evaluate (endorsements : Finset Bytes32) : Except RecognitionPolicyError RecognitionDecision :=
  context.policy.validate.map fun _ =>
    { groupId := context.electorate.groupId
      electorateRevision := context.electorate.revision
      electorateSize := context.electorate.members.card
      required := context.required
      eligibleEndorsements := endorsements ∩ context.electorate.members
      ineligibleEndorsements := endorsements \ context.electorate.members
      accepted := decide (0 < context.electorate.members.card) &&
        decide (context.required ≤ (endorsements ∩ context.electorate.members).card) }

def recognizes (endorsements : Finset Bytes32) : Bool :=
  match context.evaluate endorsements with
  | .ok decision => decision.accepted
  | .error _ => false

variable {context} {endorsements : Finset Bytes32}

theorem recognizes_iff : context.recognizes endorsements = true ↔
    context.policy.validate = .ok () ∧ 0 < context.electorate.members.card ∧
      context.required ≤ (endorsements ∩ context.electorate.members).card := by
  unfold recognizes evaluate
  cases hvalid : context.policy.validate with
  | error refusal | ok _ => simp [Except.map]

theorem recognizes_mono {more : Finset Bytes32} (hsub : endorsements ⊆ more)
    (h : context.recognizes endorsements = true) : context.recognizes more = true := by
  obtain ⟨hvalid, hsize, hrequired⟩ := recognizes_iff.mp h
  have hmore := card_le_card (inter_subset_inter_right hsub
    (u := context.electorate.members))
  exact recognizes_iff.mpr ⟨hvalid, hsize, hrequired.trans hmore⟩

end RecognitionContext

/-! ## Facts -/

inductive TulpaProposal (Artifact : Type) where
  | adopt (tulpa version : Bytes32) (artifact : Artifact)
  | revoke (tulpa version : Bytes32)
  | rollback (tulpa toVersion : Bytes32)
  deriving DecidableEq

inductive TulpaEvent (Artifact : Type) where
  | proposed (proposal : Bytes32) (action : TulpaProposal Artifact)
      (recognition : RecognitionContext) (atMs : Nat)
  | endorsed (proposal : Bytes32) (atMs : Nat)
  deriving DecidableEq

structure TulpaFact (Artifact : Type) where
  operation : Bytes32
  author : Bytes32
  event : TulpaEvent Artifact
  deriving DecidableEq

structure ProposedFact (Artifact : Type) where
  operation : Bytes32
  action : TulpaProposal Artifact
  recognition : RecognitionContext
  atMs : Nat
  deriving DecidableEq

structure AdoptedTulpaVersion (Artifact : Type) where
  version : Bytes32
  artifact : Artifact
  proposal : Bytes32
  operation : Bytes32
  deriving DecidableEq

variable {Artifact : Type}

def TulpaFact.offer (fact : TulpaFact Artifact) : Option (Bytes32 × ProposedFact Artifact) :=
  match fact.event with
  | .proposed proposal action recognition atMs =>
    match recognition.policy.validate with
    | .ok () => some (proposal, ⟨fact.operation, action, recognition, atMs⟩)
    | .error _ => none
  | .endorsed _ _ => none

def TulpaFact.endorsement (fact : TulpaFact Artifact) : Option (Bytes32 × Bytes32) :=
  match fact.event with
  | .proposed _ _ _ _ => none
  | .endorsed proposal _ => some (proposal, fact.author)

/-! ## The fold -/

structure TulpaProjection (Artifact : Type) where
  facts : List (TulpaFact Artifact)
  decisions : OrdMap Bytes32 RecognitionDecision
  adopted : OrdMap Bytes32 (AdoptedTulpaVersion Artifact)
  revoked : Finset (Bytes32 × Bytes32)

def byOperation (facts : List (TulpaFact Artifact)) : List (TulpaFact Artifact) :=
  facts.insertionSort (fun a b => a.operation ≤ b.operation)

/-- The first offer for an id stays. -/
def addProposal (proposals : OrdMap Bytes32 (ProposedFact Artifact)) (fact : TulpaFact Artifact) :
    OrdMap Bytes32 (ProposedFact Artifact) :=
  match fact.offer with
  | some (proposal, proposed) => proposals.insertIfNew proposal proposed
  | none => proposals

def addEndorsement (endorsements : OrdMap Bytes32 (Finset Bytes32)) (fact : TulpaFact Artifact) :
    OrdMap Bytes32 (Finset Bytes32) :=
  match fact.endorsement with
  | some (proposal, author) =>
    endorsements.insert proposal (insert author (endorsements.getD proposal ∅))
  | none => endorsements

def gatherProposals (facts : List (TulpaFact Artifact)) : OrdMap Bytes32 (ProposedFact Artifact) :=
  facts.foldl addProposal ∅

def gatherEndorsements (facts : List (TulpaFact Artifact)) : OrdMap Bytes32 (Finset Bytes32) :=
  facts.foldl addEndorsement ∅

structure TulpaOption where
  atMs : Nat
  operation : Bytes32
  version : Bytes32
  proposal : Bytes32

def TulpaOption.le (a b : TulpaOption) : Prop :=
  a.atMs < b.atMs ∨ a.atMs = b.atMs ∧ a.operation ≤ b.operation

instance tulpaOptionDecidableLe (a b : TulpaOption) : Decidable (a.le b) :=
  inferInstanceAs (Decidable (_ ∨ _))

def revocations (accepted : List (Bytes32 × ProposedFact Artifact)) : Finset (Bytes32 × Bytes32) :=
  (accepted.filterMap fun entry =>
    match entry.2.action with
    | .revoke tulpa version => some (tulpa, version)
    | _ => none).toFinset

def adoptedVersions (accepted : List (Bytes32 × ProposedFact Artifact)) :
    Table (Bytes32 × Bytes32) (Artifact × Bytes32) :=
  accepted.foldl (fun versions entry =>
    match entry.2.action with
    | .adopt tulpa version artifact =>
      if (versions.lookup (tulpa, version)).isSome then versions
      else versions.insert (tulpa, version) (artifact, entry.1)
    | _ => versions) ∅

def tulpaOption (revoked : Finset (Bytes32 × Bytes32))
    (versions : Table (Bytes32 × Bytes32) (Artifact × Bytes32))
    (entry : Bytes32 × ProposedFact Artifact) : Option (Bytes32 × TulpaOption) :=
  match entry.2.action with
  | .adopt tulpa version _ =>
    if (tulpa, version) ∈ revoked then none
    else some (tulpa, ⟨entry.2.atMs, entry.2.operation, version, entry.1⟩)
  | .rollback tulpa toVersion =>
    if (tulpa, toVersion) ∈ revoked ∨ (versions.lookup (tulpa, toVersion)).isNone then none
    else some (tulpa, ⟨entry.2.atMs, entry.2.operation, toVersion, entry.1⟩)
  | .revoke _ _ => none

/-- The last option by time and then by operation. -/
def adoptedVersion (versions : Table (Bytes32 × Bytes32) (Artifact × Bytes32)) (tulpa : Bytes32)
    (options : List TulpaOption) : Option (AdoptedTulpaVersion Artifact) :=
  (options.insertionSort TulpaOption.le).getLast?.bind fun option =>
    (versions.lookup (tulpa, option.version)).map fun found =>
      ⟨option.version, found.1, option.proposal, option.operation⟩

def TulpaProjection.fold (facts : List (TulpaFact Artifact)) : TulpaProjection Artifact :=
  let facts := byOperation facts
  let proposals := gatherProposals facts
  let endorsements := gatherEndorsements facts
  let decisions := proposals.toList.filterMap fun entry =>
    (entry.2.recognition.evaluate (endorsements.getD entry.1 ∅)).toOption.map (entry.1, ·)
  let accepted := proposals.toList.filter fun entry =>
    entry.2.recognition.recognizes (endorsements.getD entry.1 ∅)
  let revoked := revocations accepted
  let versions := adoptedVersions accepted
  let candidates : OrdMap Bytes32 (List TulpaOption) :=
    (accepted.filterMap (tulpaOption revoked versions)).foldl (fun candidates entry =>
      candidates.insert entry.1 (candidates.getD entry.1 [] ++ [entry.2])) ∅
  let adopted := candidates.toList.filterMap fun entry =>
    (adoptedVersion versions entry.1 entry.2).map (entry.1, ·)
  { facts
    decisions := (∅ : OrdMap Bytes32 RecognitionDecision).insertMany decisions
    adopted := (∅ : OrdMap Bytes32 (AdoptedTulpaVersion Artifact)).insertMany adopted
    revoked }

def canonicalProposal (facts : List (TulpaFact Artifact)) (proposal : Bytes32) :
    Option (ProposedFact Artifact) :=
  (gatherProposals (byOperation facts))[proposal]?

def Recognized (facts : List (TulpaFact Artifact)) (proposal : Bytes32)
    (action : TulpaProposal Artifact) (recognition : RecognitionContext) : Prop :=
  (∃ decision, (TulpaProjection.fold facts).decisions[proposal]? = some decision ∧
    decision.accepted = true) ∧
  ∃ proposed, canonicalProposal facts proposal = some proposed ∧ proposed.action = action ∧
    proposed.recognition = recognition

/-! ## What the loops gather -/

variable {fact : TulpaFact Artifact} {proposal : Bytes32} {proposed : ProposedFact Artifact}
  {facts : List (TulpaFact Artifact)}

theorem offer_operation (h : fact.offer = some (proposal, proposed)) :
    proposed.operation = fact.operation := by
  unfold TulpaFact.offer at h
  split at h
  · split at h
    · obtain ⟨-, rfl⟩ := Prod.mk.inj (some.inj h)
      rfl
    · cases h
  · cases h

def offersOf (facts : List (TulpaFact Artifact)) (proposal : Bytes32) : List (ProposedFact Artifact) :=
  facts.filterMap fun fact => fact.offer.bind fun entry =>
    if entry.1 = proposal then some entry.2 else none

theorem mem_offersOf : proposed ∈ offersOf facts proposal ↔
      ∃ fact ∈ facts, fact.offer = some (proposal, proposed) := by
  simp only [offersOf, List.mem_filterMap, bind_eq_some_iff, ite_none_right_eq_some,
    some.injEq, Prod.exists]
  constructor
  · rintro ⟨fact, hfact, _, _, hoffer, rfl, rfl⟩
    exact ⟨fact, hfact, hoffer⟩
  · rintro ⟨fact, hfact, hoffer⟩
    exact ⟨fact, hfact, proposal, proposed, hoffer, rfl, rfl⟩

theorem getElem?_gatherProposals (facts : List (TulpaFact Artifact)) (proposal : Bytes32) :
    (gatherProposals facts)[proposal]? = (offersOf facts proposal).head? := by
  suffices hfrom : ∀ m : OrdMap Bytes32 (ProposedFact Artifact),
      (facts.foldl addProposal m)[proposal]? = m[proposal]?.or (offersOf facts proposal).head? by
    have hempty := hfrom ∅
    rwa [getElem?_empty] at hempty
  induction facts with
  | nil => intro m; simp [offersOf]
  | cons fact facts ih =>
    intro m
    rw [foldl_cons, ih]
    cases hoffer : fact.offer with
    | none => simp [offersOf, addProposal, hoffer]
    | some entry =>
      obtain ⟨id, proposed⟩ := entry
      simp only [addProposal, getElem?_insertIfNew, compare_eq_iff_eq, offersOf,
        filterMap_cons, hoffer, bind_some]
      by_cases hid : id = proposal
      · subst hid
        cases hm : m[id]? with
        | none =>
          have hnew : id ∉ m := by rw [mem_iff_isSome_getElem?, hm]; simp
          simp [hnew]
        | some held =>
          have hheld := OrdMap.mem_of_getElem? hm
          simp [hheld]
      · simp [hid]

theorem mem_gatherEndorsements {author : Bytes32} :
    author ∈ (gatherEndorsements facts).getD proposal ∅ ↔
      ∃ fact ∈ facts, fact.endorsement = some (proposal, author) := by
  suffices hfrom : ∀ m : OrdMap Bytes32 (Finset Bytes32),
      author ∈ (facts.foldl addEndorsement m).getD proposal ∅ ↔
        author ∈ m.getD proposal ∅ ∨ ∃ fact ∈ facts, fact.endorsement = some (proposal, author) by
    have hempty := hfrom ∅
    exact hempty.trans (or_iff_right (Finset.notMem_empty author))
  induction facts with
  | nil => simp
  | cons fact facts ih =>
    intro m
    rw [List.foldl_cons, ih]
    cases hendorsement : fact.endorsement with
    | none => simp [addEndorsement, hendorsement]
    | some entry =>
      obtain ⟨id, endorser⟩ := entry
      simp only [addEndorsement, hendorsement, OrdMap.getD_insert, List.mem_cons, exists_eq_or_imp,
        Option.some.injEq, Prod.mk.injEq]
      by_cases hid : id = proposal
      · subst hid
        simp only [if_true, Finset.mem_insert, true_and]
        rw [or_comm (a := author = endorser), or_assoc, eq_comm]
      · simp [hid]

/-! ## The canonical proposal -/

theorem mem_byOperation :
    fact ∈ byOperation facts ↔ fact ∈ facts :=
  (perm_insertionSort _ facts).mem_iff

theorem canonicalProposal_some (h : canonicalProposal facts proposal = some proposed) :
    (∃ fact ∈ facts, fact.offer = some (proposal, proposed)) ∧
      ∀ fact ∈ facts, ∀ other, fact.offer = some (proposal, other) →
        proposed.operation ≤ fact.operation := by
  unfold canonicalProposal at h
  rw [getElem?_gatherProposals] at h
  constructor
  · obtain ⟨fact, hfact, hoffer⟩ := mem_offersOf.mp (mem_of_head? h)
    exact ⟨fact, mem_byOperation.mp hfact, hoffer⟩
  · intro fact hfact other hoffer
    have hsorted : (byOperation facts).Pairwise (fun a b => a.operation ≤ b.operation) :=
      pairwise_insertionSort _ facts
    have hoffers : (offersOf (byOperation facts) proposal).Pairwise
        (fun a b => a.operation ≤ b.operation) := by
      refine List.Pairwise.filterMap _ (fun a b hab x hx y hy => ?_) hsorted
      obtain ⟨⟨_, x'⟩, hx', hxeq⟩ := bind_eq_some_iff.mp hx
      obtain ⟨⟨_, y'⟩, hy', hyeq⟩ := bind_eq_some_iff.mp hy
      obtain rfl := some.inj (ite_none_right_eq_some.mp hxeq).2
      obtain rfl := some.inj (ite_none_right_eq_some.mp hyeq).2
      rwa [offer_operation hx', offer_operation hy']
    have hother := mem_offersOf.mpr ⟨fact, mem_byOperation.mpr hfact, hoffer⟩
    rw [← offer_operation hoffer]
    obtain ⟨rest, hrest⟩ := head?_eq_some_iff.mp h
    rw [hrest] at hoffers hother
    rcases mem_cons.mp hother with rfl | hother
    · exact le_rfl
    · exact (pairwise_cons.mp hoffers).1 other hother

theorem canonicalProposal_isSome (hfact : fact ∈ facts)
    (hoffer : fact.offer = some (proposal, proposed)) :
    ∃ canonical, canonicalProposal facts proposal = some canonical := by
  have hmem := mem_offersOf.mpr ⟨fact, mem_byOperation.mpr hfact, hoffer⟩
  unfold canonicalProposal
  rw [getElem?_gatherProposals]
  obtain ⟨first, rest, heq⟩ := exists_cons_of_ne_nil (ne_nil_of_mem hmem)
  exact ⟨first, by rw [heq]; rfl⟩

theorem recognized_iff
    {action : TulpaProposal Artifact} {recognition : RecognitionContext} :
    Recognized facts proposal action recognition ↔
      ∃ proposed, canonicalProposal facts proposal = some proposed ∧ proposed.action = action ∧
        proposed.recognition = recognition ∧ recognition.recognizes
          ((gatherEndorsements (byOperation facts)).getD proposal ∅) = true := by
  have hdecisions : (TulpaProjection.fold facts).decisions[proposal]? =
      (canonicalProposal facts proposal).bind fun proposed => (proposed.recognition.evaluate
        ((gatherEndorsements (byOperation facts)).getD proposal ∅)).toOption :=
    OrdMap.getElem?_insertMany_toList (gatherProposals (byOperation facts)) (fun id proposed =>
      (proposed.recognition.evaluate
        ((gatherEndorsements (byOperation facts)).getD id ∅)).toOption) proposal
  unfold Recognized
  rw [hdecisions]
  constructor
  · rintro ⟨⟨decision, hdecision, haccepted⟩, proposed, hcanonical, haction, hrecognition⟩
    refine ⟨proposed, hcanonical, haction, hrecognition, ?_⟩
    rw [hcanonical, bind_some, hrecognition] at hdecision
    unfold RecognitionContext.recognizes
    cases hevaluate : recognition.evaluate
        ((gatherEndorsements (byOperation facts)).getD proposal ∅) with
    | error refusal =>
      rw [hevaluate] at hdecision
      cases hdecision
    | ok found =>
      rw [hevaluate] at hdecision
      obtain rfl : found = decision := some.inj hdecision
      exact haccepted
  · rintro ⟨proposed, hcanonical, haction, hrecognition, hrecognizes⟩
    refine ⟨?_, proposed, hcanonical, haction, hrecognition⟩
    rw [hcanonical, bind_some, hrecognition]
    unfold RecognitionContext.recognizes at hrecognizes
    cases hevaluate : recognition.evaluate
        ((gatherEndorsements (byOperation facts)).getD proposal ∅) with
    | error refusal =>
      rw [hevaluate] at hrecognizes
      cases hrecognizes
    | ok found =>
      rw [hevaluate] at hrecognizes
      exact ⟨found, rfl, hrecognizes⟩

/-- A recognised proposal stays what it is, until an earlier operation offers its id. -/
theorem recognition_stands (facts more : List (TulpaFact Artifact)) (hsub : facts ⊆ more)
    (hdistinct : (more.map TulpaFact.operation).Nodup) (proposal : Bytes32)
    (action : TulpaProposal Artifact) (recognition : RecognitionContext)
    (hfirst : ∀ fact ∈ more, fact.offer.any (fun entry => entry.1 = proposal) = true →
      ∃ earlier ∈ facts, earlier.offer.any (fun entry => entry.1 = proposal) = true ∧
        earlier.operation ≤ fact.operation)
    (h : Recognized facts proposal action recognition) :
    Recognized more proposal action recognition := by
  have hoffers {fact : TulpaFact Artifact} :
      fact.offer.any (fun entry => entry.1 = proposal) = true ↔
        ∃ proposed, fact.offer = some (proposal, proposed) := by
    cases hoffer : fact.offer with
    | none => simp
    | some entry => simp [Prod.ext_iff]
  obtain ⟨proposed, hcanonical, haction, hrecognition, hrecognizes⟩ := recognized_iff.mp h
  obtain ⟨⟨fact, hfact, hoffer⟩, hlowest⟩ := canonicalProposal_some hcanonical
  obtain ⟨canonical, hmore⟩ := canonicalProposal_isSome (hsub hfact) hoffer
  obtain ⟨⟨fact', hfact', hoffer'⟩, hlowest'⟩ := canonicalProposal_some hmore
  obtain ⟨earlier, hearlier, hsome, hle⟩ := hfirst fact' hfact' (hoffers.mpr ⟨canonical, hoffer'⟩)
  obtain ⟨_, hoffer''⟩ := hoffers.mp hsome
  -- Both canonical offers come before the other, so they are one operation and one fact.
  have hsame : fact.operation = fact'.operation := by
    refine le_antisymm ?_ ?_
    · rw [← offer_operation hoffer]
      exact (hlowest earlier hearlier _ hoffer'').trans hle
    · rw [← offer_operation hoffer']
      exact hlowest' fact (hsub hfact) proposed hoffer
  obtain rfl := inj_on_of_nodup_map hdistinct (hsub hfact) hfact' hsame
  obtain rfl : proposed = canonical := (Prod.mk.inj (some.inj (hoffer.symm.trans hoffer'))).2
  refine recognized_iff.mpr ⟨proposed, hmore, haction, hrecognition, ?_⟩
  refine RecognitionContext.recognizes_mono (fun author hauthor => ?_) hrecognizes
  obtain ⟨fact, hfact, hendorsement⟩ := mem_gatherEndorsements.mp hauthor
  exact mem_gatherEndorsements.mpr
    ⟨fact, mem_byOperation.mpr (hsub (mem_byOperation.mp hfact)), hendorsement⟩

/-! ## A Moot of one voter -/

def oneVoter : RecognitionContext := ⟨.anyEligible, ⟨0, 0, {2}⟩⟩

def offers (author operation artifact : Bytes32) : TulpaFact Bytes32 :=
  ⟨operation, author, .proposed 1 (.adopt 5 artifact artifact) oneVoter 0⟩

def endorses (author operation : Bytes32) : TulpaFact Bytes32 := ⟨operation, author, .endorsed 1 0⟩

theorem recognition_stands_oneVoter :
    Recognized [offers 2 10 7, endorses 2 11, endorses 3 12] 1 (.adopt 5 7 7) oneVoter := by
  refine recognition_stands [offers 2 10 7, endorses 2 11] _ (by decide) (by decide) 1 _ _
    (by decide) (recognized_iff.mpr ⟨⟨10, .adopt 5 7 7, oneVoter, 0⟩, rfl, rfl, rfl, by decide⟩)

/-- Whoever offers the id by a lower operation gets what was endorsed for another artifact. -/
theorem earlier_offer_takes_endorsements :
    Recognized [offers 2 10 7, endorses 2 11] 1 (.adopt 5 7 7) oneVoter ∧
      Recognized [offers 2 10 7, endorses 2 11, offers 3 4 8] 1 (.adopt 5 8 8) oneVoter ∧
      ¬Recognized [offers 2 10 7, endorses 2 11, offers 3 4 8] 1 (.adopt 5 7 7) oneVoter := by
  refine ⟨recognized_iff.mpr ⟨⟨10, .adopt 5 7 7, oneVoter, 0⟩, rfl, rfl, rfl, by decide⟩,
    recognized_iff.mpr ⟨⟨4, .adopt 5 8 8, oneVoter, 0⟩, rfl, rfl, rfl, by decide⟩, fun h => ?_⟩
  obtain ⟨proposed, hcanonical, haction, -, -⟩ := recognized_iff.mp h
  have hfound : canonicalProposal [offers 2 10 7, endorses 2 11, offers 3 4 8] 1 =
      some ⟨4, .adopt 5 8 8, oneVoter, 0⟩ := rfl
  obtain rfl := some.inj (hfound.symm.trans hcanonical)
  revert haction
  decide

end Mere.Gemot
