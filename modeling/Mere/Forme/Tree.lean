import Mere.Forme.Topology

/-!
# The graph tree

`GraphTree::apply` with all its actions. `keys` is the order a walk over the members map comes to
take.
-/

namespace Mere.Forme

variable {N : Type} [DecidableEq N]

/-! ## Members -/

/-- The bits of an `f32`, carried and not computed with. -/
abbrev F32 := UInt32

inductive Lifecycle
  | active
  | warm
  | cold

inductive Provenance (N : Type)
  | traversal (source : N) (edgeKind : Option String)
  | manual (source : Option N) (context : Option String)
  | anchor
  | derived (connection : Option N) (derivation : String)
  | agentDerived (confidence : F32) (agent : String) (source : Option N)
  | restored

inductive SplitDirection
  | horizontal
  | vertical

structure LayoutOverride where
  minWidth : Option F32
  minHeight : Option F32
  flexGrow : Option F32
  flexShrink : Option F32
  preferredSplit : Option SplitDirection
  splitRatio : Option F32

abbrev GraphletId := UInt32

structure MemberEntry (N : Type) where
  lifecycle : Lifecycle
  provenance : Provenance N
  graphletMembership : List GraphletId := []
  layoutOverride : Option LayoutOverride := none

inductive LayoutMode
  | treeStyleTabs
  | flatTabs
  | splitPanes

inductive ProjectionLens
  | traversal
  | arrangement
  | containment
  | semantic
  | recency
  | all

/-! ## Actions and what they answer -/

inductive FocusDirection
  | next
  | previous

inductive FocusCycleRegion
  | roots
  | branches
  | leaves

inductive NavAction (N : Type)
  | select (member : N)
  | activate (member : N)
  | dismiss (member : N)
  | toggleExpand (member : N)
  | reveal (member : N)
  | attach (member : N) (provenance : Provenance N)
  | detach (member : N) (recursive : Bool)
  | reparent (member newParent : N)
  | reorder (parent : N) (newOrder : List N)
  | setLifecycle (member : N) (lifecycle : Lifecycle)
  | setLayoutMode (mode : LayoutMode)
  | setLens (lens : ProjectionLens)
  | cycleFocus (direction : FocusDirection)
  | cycleFocusRegion (region : FocusCycleRegion)
  | setLayoutOverride (member : N) (layoutOverride : LayoutOverride)

inductive TreeIntent (N : Type)
  | selectionChanged (member : N)
  | requestActivation (member : N)
  | requestDismissal (member : N)
  | lensChanged (lens : ProjectionLens)
  | layoutModeChanged (mode : LayoutMode)
  | memberAttached (member : N)
  | memberDetached (member : N)

structure NavResult (N : Type) where
  intents : List (TreeIntent N)
  structureChanged : Bool
  sessionChanged : Bool

namespace NavResult

def empty : NavResult N := ⟨[], false, false⟩

def session (intents : List (TreeIntent N)) : NavResult N := ⟨intents, false, true⟩

def structural (intents : List (TreeIntent N)) : NavResult N := ⟨intents, true, true⟩

end NavResult

structure OwnedTreeRow (N : Type) where
  member : N
  depth : Nat
  isExpanded : Bool
  hasChildren : Bool
  isLastSibling : Bool
  graphletId : Option GraphletId

/-! ## The tree -/

structure GraphTree (N : Type) where
  members : Table N (MemberEntry N)
  topology : TreeTopology N
  activeLens : ProjectionLens
  active : Option N
  expanded : Finset N
  scrollAnchor : Option N
  layoutMode : LayoutMode

namespace GraphTree

def new (layout : LayoutMode) (lens : ProjectionLens) : GraphTree N where
  members := ∅
  topology := .new
  activeLens := lens
  active := none
  expanded := ∅
  scrollAnchor := none
  layoutMode := layout

variable (t : GraphTree N)

def contains (member : N) : Bool := (t.members.lookup member).isSome

def amend (member : N) (change : MemberEntry N → MemberEntry N) : GraphTree N :=
  match t.members.lookup member with
  | none => t
  | some entry => { t with members := t.members.insert member (change entry) }

/-! ### Rows -/

def isLastSibling (member : N) : Bool :=
  match t.topology.parentOf member with
  | some parent => (t.topology.childrenOf parent).getLast? = some member
  | none => t.topology.roots.getLast? = some member

def shown (member : N) : List N :=
  if t.topology.hasChildren member && member ∈ t.expanded then t.topology.childrenOf member else []

def row (depth : Nat) (member : N) : OwnedTreeRow N where
  member := member
  depth := depth
  isExpanded := member ∈ t.expanded && t.topology.hasChildren member
  hasChildren := t.topology.hasChildren member
  isLastSibling := t.isLastSibling member
  graphletId := (t.members.lookup member).bind (fun entry => entry.graphletMembership.head?)

def walkNode (rows : List (OwnedTreeRow N)) (member : N) : Option (List (OwnedTreeRow N)) :=
  Ancestry.preorder t.shown t.row t.topology.rounds 0 member rows

def visibleRows : Option (List (OwnedTreeRow N)) := t.topology.roots.foldlM t.walkNode []

/-! ### The actions -/

def applySelect (member : N) : GraphTree N × NavResult N :=
  if ¬ t.contains member then (t, .empty)
  else ({ t with active := some member }, .session [.selectionChanged member])

def applyActivate (member : N) : GraphTree N × NavResult N :=
  if ¬ t.contains member then (t, .empty)
  else
    ({ t.amend member (fun entry => { entry with lifecycle := .active }) with
        active := some member },
      .session [.requestActivation member, .selectionChanged member])

def applyDismiss (member : N) : GraphTree N × NavResult N :=
  if ¬ t.contains member then (t, .empty)
  else
    ({ t.amend member (fun entry => { entry with lifecycle := .cold }) with
        active := if t.active = some member then none else t.active },
      .session [.requestDismissal member])

def applyToggleExpand (member : N) : GraphTree N × NavResult N :=
  ({ t with
      expanded := if member ∈ t.expanded then t.expanded.erase member else insert member t.expanded },
    .session [])

def applyReveal (member : N) : Option (GraphTree N × NavResult N) :=
  if ¬ t.contains member then some (t, .empty)
  else
    (t.topology.ancestors member).map fun ancestors =>
      ({ t with
          expanded := ancestors.foldl (fun expanded ancestor => insert ancestor expanded) t.expanded
          scrollAnchor := some member },
        .session [])

def place (member : N) : Provenance N → Bool × TreeTopology N
  | .traversal source _ => t.topology.attachChild member source
  | .manual (some source) _ => t.topology.attachSibling member source
  | .derived (some connection) _ => t.topology.attachSibling member connection
  | .agentDerived _ _ (some source) => t.topology.attachSibling member source
  | .manual none _ | .anchor | .derived none _ | .agentDerived _ _ none | .restored =>
    t.topology.attachRoot member

def placed (member : N) (provenance : Provenance N) : TreeTopology N :=
  if (t.place member provenance).1 then (t.place member provenance).2
  else ((t.place member provenance).2.attachRoot member).2

def applyAttach (member : N) (provenance : Provenance N) : GraphTree N × NavResult N :=
  if t.contains member then (t, .empty)
  else
    ({ t with
        topology := t.placed member provenance
        members := t.members.insert member { lifecycle := .cold, provenance := provenance } },
      .structural [.memberAttached member])

def dropMember (node : N) : GraphTree N :=
  { t with members := t.members.erase node, expanded := t.expanded.erase node }

def adopt (parent : Option N) (topology : TreeTopology N) (child : N) : TreeTopology N :=
  match parent with
  | some parent => topology.reattachChild child parent
  | none => topology.promoteToRoot child

def detachSubtree (member : N) : Option (GraphTree N × List (TreeIntent N)) :=
  (t.topology.detach member).map fun detached =>
    ({ detached.1.foldl dropMember t with topology := detached.2 },
      detached.1.map TreeIntent.memberDetached)

def detachAlone (member : N) : GraphTree N × List (TreeIntent N) :=
  ({ t.dropMember member with
      topology := (t.topology.childrenOf member).foldl (adopt (t.topology.parentOf member))
        (t.topology.detachSingle member) },
    [.memberDetached member])

/-- An active member that was detached is cleared; the scroll anchor is not looked at. -/
def clearActive : GraphTree N :=
  { t with active := t.active.filter (fun active => t.contains active) }

def applyDetach (member : N) (recursive : Bool) : Option (GraphTree N × NavResult N) :=
  if ¬ t.contains member then some (t, .empty)
  else if recursive then
    (t.detachSubtree member).map fun detached =>
      (detached.1.clearActive, .structural detached.2)
  else
    some ((t.detachAlone member).1.clearActive, .structural (t.detachAlone member).2)

def applyReparent (member newParent : N) : Option (GraphTree N × NavResult N) :=
  if ¬ t.contains member ∨ ¬ t.contains newParent then some (t, .empty)
  else
    (t.topology.reparent member newParent).map fun reparented =>
      ({ t with topology := reparented.2 }, if reparented.1 then .structural [] else .empty)

def applyReorder (parent : N) (newOrder : List N) : GraphTree N × NavResult N :=
  if ¬ t.contains parent then (t, .empty)
  else ({ t with topology := t.topology.reorderChildren parent newOrder }, .structural [])

def applyAmend (member : N) (change : MemberEntry N → MemberEntry N) :
    GraphTree N × NavResult N :=
  (t.amend member change, if t.contains member then .session [] else .empty)

def applySetLifecycle (member : N) (lifecycle : Lifecycle) : GraphTree N × NavResult N :=
  t.applyAmend member (fun entry => { entry with lifecycle := lifecycle })

def applySetLayoutOverride (member : N) (layoutOverride : LayoutOverride) :
    GraphTree N × NavResult N :=
  t.applyAmend member (fun entry => { entry with layoutOverride := some layoutOverride })

def applySetLayoutMode (mode : LayoutMode) : GraphTree N × NavResult N :=
  ({ t with layoutMode := mode }, .session [.layoutModeChanged mode])

def applySetLens (lens : ProjectionLens) : GraphTree N × NavResult N :=
  ({ t with activeLens := lens }, .session [.lensChanged lens])

def currentIdx (candidates : List N) : Option Nat :=
  t.active.bind (fun active => candidates.findIdx? (· = active))

def focus (candidates : List N) (idx : Nat) : Option (GraphTree N × NavResult N) :=
  if candidates.isEmpty then some (t, .empty)
  else
    candidates[idx]?.map fun member =>
      ({ t with active := some member }, .session [.selectionChanged member])

def nextIdx (len : Nat) : Option Nat → FocusDirection → Nat
  | some idx, .next => (idx + 1) % len
  | some idx, .previous => if idx = 0 then len - 1 else idx - 1
  | none, _ => 0

def applyCycleFocus (direction : FocusDirection) : Option (GraphTree N × NavResult N) :=
  t.visibleRows.bind fun rows =>
    t.focus (rows.map (·.member))
      (nextIdx rows.length (t.currentIdx (rows.map (·.member))) direction)

def candidates (keys : List N) : FocusCycleRegion → List N
  | .roots => t.topology.roots
  | .branches => keys.filter (fun m => t.topology.hasChildren m)
  | .leaves => keys.filter (fun m => !t.topology.hasChildren m)

def applyCycleFocusRegion (keys : List N) (region : FocusCycleRegion) :
    Option (GraphTree N × NavResult N) :=
  t.focus (t.candidates keys region)
    (nextIdx (t.candidates keys region).length (t.currentIdx (t.candidates keys region)) .next)

def apply (keys : List N) : NavAction N → Option (GraphTree N × NavResult N)
  | .select member => some (t.applySelect member)
  | .activate member => some (t.applyActivate member)
  | .dismiss member => some (t.applyDismiss member)
  | .toggleExpand member => some (t.applyToggleExpand member)
  | .reveal member => t.applyReveal member
  | .attach member provenance => some (t.applyAttach member provenance)
  | .detach member recursive => t.applyDetach member recursive
  | .reparent member newParent => t.applyReparent member newParent
  | .reorder parent newOrder => some (t.applyReorder parent newOrder)
  | .setLifecycle member lifecycle => some (t.applySetLifecycle member lifecycle)
  | .setLayoutMode mode => some (t.applySetLayoutMode mode)
  | .setLens lens => some (t.applySetLens lens)
  | .cycleFocus direction => t.applyCycleFocus direction
  | .cycleFocusRegion region => t.applyCycleFocusRegion keys region
  | .setLayoutOverride member layoutOverride =>
    some (t.applySetLayoutOverride member layoutOverride)

end GraphTree

end Mere.Forme
