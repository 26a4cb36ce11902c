import Mere.Base.SlotMap
import Mere.Base.Forest

/-!
# The stemma

From `crates/eidetic/chartulary/src/stemma/mod.rs`. Entries are content identities, visits are
occurrences with a parent and children, owners are cursors over visits. Nothing reads the order of a
hash map except through a `Shuffle`.
-/

open Std (ExtTreeSet)

namespace Mere

namespace Stemma

abbrev EntryId := Nat
abbrev VisitId := Nat
abbrev OwnerId := Nat

inductive EntryPrivacy
  | localOnly
  | shareCandidate
  | shared
  deriving DecidableEq, Repr

inductive TransitionKind
  | linkClick
  | urlTyped
  | back
  | forward
  | reload
  | redirect
  | tabSpawn
  | restore
  | imported
  | unknown
  deriving DecidableEq, Repr

structure TransitionRecord where
  kind : TransitionKind
  atMs : Nat
  deriving DecidableEq, Repr

structure EntryRecord (K E : Type) where
  key : K
  payload : E
  firstSeenAtMs : Nat
  lastSeenAtMs : Nat
  visitCount : Nat
  privacy : EntryPrivacy
  deriving DecidableEq, Repr

structure OwnerBinding where
  forwardChild : Option VisitId
  lastAccessedAtMs : Nat
  deriving DecidableEq, Repr

structure VisitRecord (X : Type) where
  entry : EntryId
  parent : Option VisitId
  children : List VisitId
  createdAtMs : Nat
  context : X
  inbound : Option TransitionRecord
  bindings : OrdMap OwnerId OwnerBinding

structure OwnerRecord (O : Type) where
  identity : O
  origin : Option VisitId
  current : Option VisitId
  creator : Option OwnerId
  pendingOriginParent : Option VisitId
  ownedVisits : ExtTreeSet VisitId compare

inductive StemmaError
  | missingOwner (id : OwnerId)
  | missingEntry (id : EntryId)
  | missingVisit (id : VisitId)
  deriving DecidableEq, Repr

structure GcReport where
  deletedVisits : List VisitId
  deriving DecidableEq, Repr

end Stemma

open Stemma in
structure Stemma (K E O X : Type) where
  entries : SlotMap (EntryRecord K E) := {}
  visits : SlotMap (VisitRecord X) := {}
  owners : SlotMap (OwnerRecord O) := {}
  entryIndex : AList (fun _ : K => EntryId) := ∅
  ownerIndex : AList (fun _ : O => OwnerId) := ∅

namespace Stemma

variable {K E O X : Type}

def new : Stemma K E O X := {}

/-! ## Readers -/

def VisitRecord.link (visit : VisitRecord X) : Link VisitId := ⟨visit.parent, visit.children⟩

def nodes (s : Stemma K E O X) (v : VisitId) : Option (Link VisitId) :=
  (s.visits.get v).map VisitRecord.link

def current (s : Stemma K E O X) (ownerId : OwnerId) : Option VisitId :=
  (s.owners.get ownerId).bind OwnerRecord.current

def lists (s : Stemma K E O X) (v child : VisitId) : Bool :=
  (s.visits.get v).any (fun visit => visit.children.contains child)

def parentOf (s : Stemma K E O X) (v : VisitId) : Option VisitId :=
  (s.visits.get v).bind VisitRecord.parent

def bindingOf (s : Stemma K E O X) (v : VisitId) (ownerId : OwnerId) : Option OwnerBinding :=
  (s.visits.get v).bind (fun visit => visit.bindings[ownerId]?)

section
variable {s : Stemma K E O X} {v p : VisitId} {visit : VisitRecord X}

theorem nodes_of_get (h : s.visits.get v = some visit) : s.nodes v = some visit.link := by
  rw [nodes, h, Option.map_some]

theorem bindingOf_of_get (h : s.visits.get v = some visit) (ownerId : OwnerId) :
    s.bindingOf v ownerId = visit.bindings[ownerId]? := by
  rw [bindingOf, h, Option.bind_some]

theorem contains_iff_node : s.visits.contains v = true ↔ ∃ l, s.nodes v = some l := by
  unfold SlotMap.contains nodes
  cases s.visits.get v <;> simp

theorem parentOf_eq (s : Stemma K E O X) (v : VisitId) :
    s.parentOf v = (s.nodes v).bind Link.parent := by
  unfold parentOf nodes
  cases s.visits.get v <;> rfl

theorem parentOf_iff : s.parentOf v = some p ↔ ∃ l, s.nodes v = some l ∧ l.parent = some p := by
  rw [parentOf_eq]
  exact Option.bind_eq_some_iff

theorem lists_iff (s : Stemma K E O X) (v c : VisitId) :
    s.lists v c = true ↔ Forest.Child s.nodes v c := by
  unfold lists Forest.Child nodes
  cases s.visits.get v <;> simp [VisitRecord.link]

end

end Stemma

end Mere
