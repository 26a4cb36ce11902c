import Mere.Base.Word

/-!
# Operations

What the crate takes from `p2panda_core`. An operation's id is the digest of its header. The body
may come apart from it.
-/

namespace Mere.Stickleback

variable {E : Type}

structure Header (E : Type) where
  verifyingKey : Bytes32
  seqNum : Nat
  backlink : Option Bytes32
  payloadHash : Option Bytes32
  payloadSize : Nat
  extensions : E
  hash : Bytes32
  /-- What p2panda's `validate_header` answers: version, signature and the fields' own rules. -/
  validates : Bool
deriving DecidableEq

structure Operation (E : Type) where
  hash : Bytes32
  header : Header E
  body : Option Str
deriving DecidableEq

variable (digest : Str → Bytes32)

/-- `validate_operation`: a body is the one that the header announces. -/
def validateOperation (op : Operation E) : Bool :=
  op.header.validates && op.body.all fun body =>
    op.header.payloadHash == some (digest body) && op.header.payloadSize == body.length

def validateBacklink (past header : Header E) : Bool :=
  past.verifyingKey == header.verifyingKey && header.seqNum == past.seqNum + 1 &&
    header.backlink == some past.hash

/-- `validate_prunable_backlink`: the head of a pruned log needs nothing before it. -/
def validatePrunableBacklink (past : Option (Header E)) (header : Header E) (prunes : Bool) : Bool :=
  if !prunes && 0 < header.seqNum then past.any (validateBacklink · header) else true

end Mere.Stickleback
