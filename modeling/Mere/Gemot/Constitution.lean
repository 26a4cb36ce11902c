import Mere.Base.Loop
import Mere.Base.Word

/-!
# The constitution of a Moot

From `crates/moot/gemot/src/moot/constitution/event.rs`, `wire.rs` and `fold.rs`. The digest of a
set of rules and the revision of a quorum's amendment are any functions, and the clauses of a
constitution any type.
-/

namespace Mere.Gemot

/-! ## Digests -/

inductive DigestAlg where
  | blake3 | p2pandaOperation | sha256 | william3
  deriving DecidableEq

/-- A digest that is not 32 bytes long is no revision, whatever it is. -/
structure Digest where
  alg : DigestAlg
  bytes : Bytes32
  deriving DecidableEq

def p2pandaOperation (hash : Bytes32) : Digest := ⟨.p2pandaOperation, hash⟩

/-! ## Events -/

inductive AmendmentRule where
  | founderSigned
  | memberQuorum (electorate : Finset Bytes32) (threshold : Nat)
  deriving DecidableEq

namespace AmendmentRule

def permits (founder actor : Bytes32) : AmendmentRule → Bool
  | founderSigned => actor == founder
  | memberQuorum electorate threshold =>
    decide (0 < threshold) && decide (threshold ≤ electorate.card) && decide (actor ∈ electorate)

def threshold : AmendmentRule → Nat
  | founderSigned => 1
  | memberQuorum _ threshold => threshold

def isQuorum : AmendmentRule → Bool
  | founderSigned => false
  | memberQuorum _ _ => true

end AmendmentRule

structure ConstitutionRules (Clauses : Type) where
  amendment : AmendmentRule
  clauses : Clauses
  deriving DecidableEq

inductive ConstitutionEvent (Clauses : Type) where
  | genesis (mootId founder : Bytes32) (parentConstitution divergencePoint : Option Digest)
      (rules : ConstitutionRules Clauses) (rulesHash : Digest) (atMs : Nat)
  | amended (previous : Digest) (rules : ConstitutionRules Clauses) (rulesHash : Digest) (atMs : Nat)
  deriving DecidableEq

structure Hashing (Clauses : Type) where
  rules : ConstitutionRules Clauses → Digest
  quorumRevision : Digest → Digest → Digest

variable {Clauses : Type} (hashing : Hashing Clauses)

namespace ConstitutionEvent

def rules : ConstitutionEvent Clauses → ConstitutionRules Clauses
  | genesis _ _ _ _ rules _ _ => rules
  | amended _ rules _ _ => rules

def rulesHash : ConstitutionEvent Clauses → Digest
  | genesis _ _ _ _ _ rulesHash _ => rulesHash
  | amended _ _ rulesHash _ => rulesHash

def rulesAreBound (event : ConstitutionEvent Clauses) : Bool :=
  hashing.rules event.rules == event.rulesHash

end ConstitutionEvent

/-! ## Operations -/

structure Operation (Clauses : Type) where
  hash : Bytes32
  author : Bytes32
  seqNum : Nat
  backlink : Option Bytes32
  mootId : Bytes32
  /-- What `from_operation` decodes. -/
  event : Option (ConstitutionEvent Clauses)
  /-- What p2panda's `validate_operation` answers. -/
  validates : Bool
  /-- The digest of the header as it is. -/
  headerHash : Bytes32
  deriving DecidableEq

def verify (op : Operation Clauses) : Bool := op.validates && op.hash == op.headerHash

/-! ## The fold -/

structure Constitution (Clauses : Type) where
  mootId : Bytes32
  founder : Bytes32
  parentConstitution : Option Digest
  divergencePoint : Option Digest
  rules : ConstitutionRules Clauses
  revision : Digest
  deriving DecidableEq

def authorizeGoverned (actor : Bytes32) (state : Constitution Clauses) : Bool :=
  state.rules.amendment.permits state.founder actor

structure Candidate (Clauses : Type) where
  hash : Bytes32
  author : Bytes32
  event : ConstitutionEvent Clauses
  deriving DecidableEq

def candidate (mootId : Bytes32) (op : Operation Clauses) : Option (Candidate Clauses) :=
  if op.mootId ≠ mootId || !verify op then none
  else op.event.bind fun event =>
    if event.rulesAreBound hashing then some ⟨op.hash, op.author, event⟩ else none

def candidates (mootId : Bytes32) (ops : List (Operation Clauses)) : List (Candidate Clauses) :=
  (ops.filterMap (candidate hashing mootId)).insertionSort (fun a b => a.hash ≤ b.hash)

/-- What somebody entitled to it signed against a revision. -/
structure Signature (Clauses : Type) where
  hash : Bytes32
  author : Bytes32
  rules : ConstitutionRules Clauses
  rulesHash : Digest
  deriving DecidableEq

variable (state : Constitution Clauses)

def signature (c : Candidate Clauses) : Option (Signature Clauses) :=
  match c.event with
  | .genesis _ _ _ _ _ _ _ => none
  | .amended previous rules rulesHash _ =>
    if previous ≠ state.revision || !authorizeGoverned c.author state then none
    else some ⟨c.hash, c.author, rules, rulesHash⟩

structure AmendmentProposal (Clauses : Type) where
  canonical : Bytes32
  rules : ConstitutionRules Clauses
  rulesHash : Digest
  supporters : Finset Bytes32

def propose : List (AmendmentProposal Clauses) → Signature Clauses → List (AmendmentProposal Clauses)
  | [], signed => [⟨signed.hash, signed.rules, signed.rulesHash, {signed.author}⟩]
  | proposal :: proposals, signed =>
    if proposal.rulesHash = signed.rulesHash then
      { proposal with
        canonical := min proposal.canonical signed.hash
        supporters := insert signed.author proposal.supporters } :: proposals
    else proposal :: propose proposals signed

def choose (threshold : Nat) (proposals : List (AmendmentProposal Clauses)) :
    Option (AmendmentProposal Clauses) :=
  (proposals.insertionSort (fun p q => p.canonical ≤ q.canonical)).find?
    (fun p => decide (threshold ≤ p.supporters.card))

def acceptedAmendment (candidates : List (Candidate Clauses)) :
    Option (AmendmentProposal Clauses) :=
  choose state.rules.amendment.threshold ((candidates.filterMap (signature state)).foldl propose [])

/-- A quorum's revision does not depend on who signed, a founder's is the operation. -/
def enact (proposal : AmendmentProposal Clauses) : Constitution Clauses :=
  { state with
    rules := proposal.rules
    revision :=
      if state.rules.amendment.isQuorum then
        hashing.quorumRevision state.revision proposal.rulesHash
      else p2pandaOperation proposal.canonical }

def advance (candidates : List (Candidate Clauses)) (state : Constitution Clauses) :
    Option (Constitution Clauses) :=
  (acceptedAmendment state candidates).map (enact hashing state)

def establish (mootId founder : Bytes32) (c : Candidate Clauses) : Option (Constitution Clauses) :=
  match c.event with
  | .genesis moot named parentConstitution divergencePoint rules _ _ =>
    if moot = mootId ∧ named = founder ∧ c.author = founder then
      some ⟨mootId, named, parentConstitution, divergencePoint, rules, p2pandaOperation c.hash⟩
    else none
  | .amended _ _ _ _ => none

def founded (mootId founder : Bytes32) (ops : List (Operation Clauses)) :
    Option (Constitution Clauses) :=
  (candidates hashing mootId ops).findSome? (establish mootId founder)

namespace Constitution

/-- As many rounds as there are candidates are enough (`advance_settle`). -/
def fold (mootId founder : Bytes32) (ops : List (Operation Clauses)) : Option (Constitution Clauses) :=
  (founded hashing mootId founder ops).map (settle (advance hashing (candidates hashing mootId ops))
    (candidates hashing mootId ops).length)

/-- The constitutions that the fold passes, from the genesis on. -/
def history (mootId founder : Bytes32) (ops : List (Operation Clauses)) : List (Constitution Clauses) :=
  ((founded hashing mootId founder ops).map (trail (advance hashing (candidates hashing mootId ops))
    (candidates hashing mootId ops).length)).getD []

theorem getLast?_history (mootId founder : Bytes32) (ops : List (Operation Clauses)) :
    (history hashing mootId founder ops).getLast? = fold hashing mootId founder ops := by
  unfold history fold
  cases founded hashing mootId founder ops with
  | none => rfl
  | some start => exact getLast?_trail

end Constitution

end Mere.Gemot
