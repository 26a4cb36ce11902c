import Mere.Base.Arena
import Mere.Base.Ancestry

/-!
# The topology

From `topology.rs`. A walk that follows links is `none` where it would not end.
-/

namespace Mere.Forme

open Relation

variable {N : Type} [DecidableEq N]

structure TreeTopology (N : Type) where
  parent : Table N N
  children : Table N (List N)
  roots : List N
  insertionOrder : List N

namespace TreeTopology

def new : TreeTopology N := ⟨∅, ∅, [], []⟩

variable (t : TreeTopology N)

def parentOf (member : N) : Option N := t.parent.lookup member

def childrenOf (member : N) : List N := (t.children.lookup member).getD []

def contains (member : N) : Bool := member ∈ t.roots || (t.parentOf member).isSome

def hasChildren (member : N) : Bool := !(t.childrenOf member).isEmpty

def rounds : Nat := t.parent.keys.length

/-! ## Placing -/

/-- `entry(parent).or_default().push(child)`, beside the child's parent pointer. -/
def link (child parent : N) : TreeTopology N :=
  { t with
    parent := t.parent.insert child parent
    children := t.children.insert parent (t.childrenOf parent ++ [child]) }

def listed (member : N) : TreeTopology N :=
  if member ∈ t.insertionOrder then t
  else { t with insertionOrder := t.insertionOrder ++ [member] }

def attachChild (child parent : N) : Bool × TreeTopology N :=
  if child = parent ∨ t.contains child ∨ ¬ t.contains parent then (false, t)
  else (true, (t.link child parent).listed child)

def attachRoot (member : N) : Bool × TreeTopology N :=
  if t.contains member then (false, t)
  else
    (true, { t with
      roots := t.roots ++ [member]
      insertionOrder := t.insertionOrder ++ [member] })

def attachSibling (member siblingOf : N) : Bool × TreeTopology N :=
  if ¬ t.contains siblingOf then (false, t)
  else
    match t.parentOf siblingOf with
    | some parent => t.attachChild member parent
    | none => t.attachRoot member

def reattachChild (child parent : N) : TreeTopology N := (t.link child parent).listed child

/-! ## Taking out -/

def unlist (parent member : N) : TreeTopology N :=
  match t.children.lookup parent with
  | none => t
  | some siblings => { t with children := t.children.insert parent (siblings.filter (· ≠ member)) }

def detachFromParent (member : N) : TreeTopology N :=
  match t.parentOf member with
  | some parent => { t with parent := t.parent.erase member }.unlist parent member
  | none => { t with roots := t.roots.filter (· ≠ member) }

/-- `collect_descendants` puts each child out before what is below it. -/
def descendantsInclusive (member : N) : Option (List N) :=
  Ancestry.preorder t.childrenOf (fun _ node => node) t.rounds 0 member []

def forget (node : N) : TreeTopology N :=
  { t with
    parent := t.parent.erase node
    children := t.children.erase node
    insertionOrder := t.insertionOrder.filter (· ≠ node) }

def detach (member : N) : Option (List N × TreeTopology N) :=
  (t.descendantsInclusive member).map fun subtree =>
    (subtree, subtree.foldl forget (t.detachFromParent member))

def orphan (children : List N) : TreeTopology N :=
  { t with parent := children.foldl (fun parent child => parent.erase child) t.parent }

def detachSingle (member : N) : TreeTopology N :=
  match (t.detachFromParent member).children.lookup member with
  | none =>
    { t.detachFromParent member with
      insertionOrder := (t.detachFromParent member).insertionOrder.filter (· ≠ member) }
  | some children =>
    { t.detachFromParent member with
      insertionOrder := (t.detachFromParent member).insertionOrder.filter (· ≠ member)
      children := (t.detachFromParent member).children.erase member }.orphan children

def unlinked (member : N) : TreeTopology N :=
  match t.parentOf member with
  | some parent => { t with parent := t.parent.erase member }.unlist parent member
  | none => t

def rooted (member : N) : TreeTopology N :=
  if member ∈ t.roots then t else { t with roots := t.roots ++ [member] }

def promoteToRoot (member : N) : TreeTopology N :=
  if member ∈ t.insertionOrder then (t.unlinked member).rooted member else t

/-! ## Moving -/

/-- The walk up from `descendant`, which ends at `ancestor` or at a root. -/
def seeks (ancestor current : N) : Option N := (t.parentOf current).filter (· ≠ ancestor)

def isAncestorOf (ancestor descendant : N) : Option Bool :=
  if ancestor = descendant then some true
  else if (t.seeks ancestor (settle (t.seeks ancestor) t.rounds descendant)).isSome then none
  else
    some (decide
      (t.parentOf (settle (t.seeks ancestor) t.rounds descendant) = some ancestor))

def ancestors (member : N) : Option (List N) :=
  if (t.parentOf (settle t.parentOf t.rounds member)).isSome then none
  else some (trail t.parentOf t.rounds member).tail

def reparent (member newParent : N) : Option (Bool × TreeTopology N) :=
  if member = newParent ∨ ¬ t.contains member ∨ ¬ t.contains newParent then some (false, t)
  else
    (t.isAncestorOf member newParent).map fun cycle =>
      if cycle then (false, t) else (true, (t.detachFromParent member).link member newParent)

def reordered (children newOrder : List N) : List N :=
  newOrder.filter (· ∈ children) ++
    children.filter (fun child => child ∉ newOrder.filter (· ∈ children))

def reorderChildren (parent : N) (newOrder : List N) : TreeTopology N :=
  match t.children.lookup parent with
  | none => t
  | some children => { t with children := t.children.insert parent (reordered children newOrder) }

end TreeTopology

end Mere.Forme
