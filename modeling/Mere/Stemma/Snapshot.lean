import Mere.Stemma.Mutations

/-!
# Snapshots of a stemma

From `crates/eidetic/chartulary/src/stemma/snapshot.rs`: ids are replaced by positions in the walks
that made it. `none` stands for the panic of an index that is not there.
-/

open Std (ExtTreeSet)

namespace Mere.Stemma

variable {K E O X : Type}

structure EntrySnapshot (K E : Type) where
  key : K
  payload : E
  firstSeenAtMs : Nat
  lastSeenAtMs : Nat
  visitCount : Nat
  privacy : EntryPrivacy

structure BindingSnapshot where
  owner : Nat
  forwardChild : Option Nat
  lastAccessedAtMs : Nat

structure VisitSnapshot (X : Type) where
  entry : Nat
  parent : Option Nat
  children : List Nat
  createdAtMs : Nat
  context : X
  inbound : Option TransitionRecord
  bindings : List BindingSnapshot

structure OwnerSnapshot (O : Type) where
  identity : O
  origin : Option Nat
  current : Option Nat
  creator : Option Nat
  pendingOriginParent : Option Nat
  ownedVisits : List Nat

structure StemmaSnapshot (K E O X : Type) where
  entries : List (EntrySnapshot K E)
  visits : List (VisitSnapshot X)
  owners : List (OwnerSnapshot O)

/-! ## Taking one -/

/-- The order of each table walked: the three slot maps, the bindings of a visit, the visits
    of an owner. -/
structure Walk (K E O X : Type) where
  entries : Shuffle (EntryId × EntryRecord K E)
  visits : Shuffle (VisitId × VisitRecord X)
  owners : Shuffle (OwnerId × OwnerRecord O)
  bindings : VisitId → Shuffle (OwnerId × OwnerBinding)
  owned : OwnerId → Shuffle VisitId

abbrev Index := Nat → Option Nat

def indexOf {V : Type} (walked : List (Nat × V)) : Index := (walked.map Prod.fst).idxOf?

def EntryRecord.snapshot (entry : EntryRecord K E) : EntrySnapshot K E :=
  { key := entry.key, payload := entry.payload, firstSeenAtMs := entry.firstSeenAtMs,
    lastSeenAtMs := entry.lastSeenAtMs, visitCount := entry.visitCount, privacy := entry.privacy }

def OwnerBinding.snapshot (ownerIndex visitIndex : Index) (ownerId : OwnerId)
    (binding : OwnerBinding) : Option BindingSnapshot := do
  let owner ← ownerIndex ownerId
  let forwardChild ← binding.forwardChild.mapM visitIndex
  return { owner, forwardChild, lastAccessedAtMs := binding.lastAccessedAtMs }

def VisitRecord.snapshot (entryIndex visitIndex ownerIndex : Index)
    (order : Shuffle (OwnerId × OwnerBinding)) (visit : VisitRecord X) :
    Option (VisitSnapshot X) := do
  let entry ← entryIndex visit.entry
  let parent ← visit.parent.mapM visitIndex
  let children ← visit.children.mapM visitIndex
  let bindings ← (order.order visit.bindings.toList).mapM (fun q =>
    q.2.snapshot ownerIndex visitIndex q.1)
  return { entry, parent, children, createdAtMs := visit.createdAtMs, context := visit.context,
           inbound := visit.inbound, bindings }

def OwnerRecord.snapshot (visitIndex ownerIndex : Index) (order : Shuffle VisitId)
    (owner : OwnerRecord O) : Option (OwnerSnapshot O) := do
  let origin ← owner.origin.mapM visitIndex
  let current ← owner.current.mapM visitIndex
  let creator ← owner.creator.mapM ownerIndex
  let pendingOriginParent ← owner.pendingOriginParent.mapM visitIndex
  let ownedVisits ← (order.order owner.ownedVisits.toList).mapM visitIndex
  return { identity := owner.identity, origin, current, creator, pendingOriginParent, ownedVisits }

def toSnapshot (walk : Walk K E O X) (s : Stemma K E O X) : Option (StemmaSnapshot K E O X) := do
  let owners := walk.owners.order s.owners.toList
  let entries := walk.entries.order s.entries.toList
  let visits := walk.visits.order s.visits.toList
  let visitSnapshots ← visits.mapM (fun q =>
    q.2.snapshot (indexOf entries) (indexOf visits) (indexOf owners) (walk.bindings q.1))
  let ownerSnapshots ← owners.mapM (fun q =>
    q.2.snapshot (indexOf visits) (indexOf owners) (walk.owned q.1))
  return { entries := entries.map (fun q => q.2.snapshot), visits := visitSnapshots,
           owners := ownerSnapshots }

/-! ## Reading one back -/

/-- An owner as the first pass inserts it, pointing at nothing. -/
def OwnerSnapshot.blank (owner : OwnerSnapshot O) : OwnerRecord O :=
  { identity := owner.identity, origin := none, current := none, creator := none,
    pendingOriginParent := none, ownedVisits := ∅ }

/-- A visit as the first pass inserts it, with its entry and nothing else it points at. -/
def VisitSnapshot.blank (visit : VisitSnapshot X) (entryId : EntryId) : VisitRecord X :=
  { entry := entryId, parent := none, children := [], createdAtMs := visit.createdAtMs,
    context := visit.context, inbound := visit.inbound, bindings := ∅ }

section
variable [DecidableEq K] [DecidableEq O]

def addOwners (memory : Stemma K E O X) (ownerIds : List OwnerId) :
    List (OwnerSnapshot O) → Stemma K E O X × List OwnerId
  | [] => (memory, ownerIds)
  | owner :: rest =>
    let ownerId := memory.owners.next
    addOwners { memory with
      owners := memory.owners.insert owner.blank
      ownerIndex := memory.ownerIndex.insert owner.identity ownerId }
      (ownerIds ++ [ownerId]) rest

def EntrySnapshot.record (entry : EntrySnapshot K E) : EntryRecord K E :=
  { key := entry.key, payload := entry.payload, firstSeenAtMs := entry.firstSeenAtMs,
    lastSeenAtMs := entry.lastSeenAtMs, visitCount := entry.visitCount, privacy := entry.privacy }

def addEntries (memory : Stemma K E O X) (entryIds : List EntryId) :
    List (EntrySnapshot K E) → Stemma K E O X × List EntryId
  | [] => (memory, entryIds)
  | entry :: rest =>
    let entryId := memory.entries.next
    addEntries { memory with
      entries := memory.entries.insert entry.record
      entryIndex := memory.entryIndex.insert entry.key entryId }
      (entryIds ++ [entryId]) rest

end

def addVisits (entryIds : List EntryId) (memory : Stemma K E O X) (visitIds : List VisitId) :
    List (VisitSnapshot X) → Option (Stemma K E O X × List VisitId)
  | [] => some (memory, visitIds)
  | visit :: rest => do
    let entryId ← entryIds[visit.entry]?
    let visitId := memory.visits.next
    addVisits entryIds { memory with visits := memory.visits.insert (visit.blank entryId) }
      (visitIds ++ [visitId]) rest

def BindingSnapshot.record (ownerIds : List OwnerId) (visitIds : List VisitId)
    (binding : BindingSnapshot) : Option (OwnerId × OwnerBinding) := do
  let ownerId ← ownerIds[binding.owner]?
  let forwardChild ← binding.forwardChild.mapM (fun i => visitIds[i]?)
  return (ownerId, { forwardChild, lastAccessedAtMs := binding.lastAccessedAtMs })

def VisitSnapshot.links (ownerIds : List OwnerId) (visitIds : List VisitId) (visit : VisitSnapshot X) :
    Option (VisitRecord X → VisitRecord X) := do
  let parent ← visit.parent.mapM (fun i => visitIds[i]?)
  let children ← visit.children.mapM (fun i => visitIds[i]?)
  let bindings ← visit.bindings.mapM (BindingSnapshot.record ownerIds visitIds)
  return fun record => { record with
    parent, children
    bindings := (∅ : OrdMap _ _).insertMany bindings }

def OwnerSnapshot.links (ownerIds : List OwnerId) (visitIds : List VisitId) (owner : OwnerSnapshot O) :
    Option (OwnerRecord O → OwnerRecord O) := do
  let origin ← owner.origin.mapM (fun i => visitIds[i]?)
  let current ← owner.current.mapM (fun i => visitIds[i]?)
  let creator ← owner.creator.mapM (fun i => ownerIds[i]?)
  let pendingOriginParent ← owner.pendingOriginParent.mapM (fun i => visitIds[i]?)
  let ownedVisits ← owner.ownedVisits.mapM (fun i => visitIds[i]?)
  return fun record => { record with
    origin, current, creator, pendingOriginParent
    ownedVisits := ExtTreeSet.ofList ownedVisits compare }

/-- Second pass over a table: position by position, the record written through `get_mut`. -/
def linkAll {S V : Type} (ids : List Nat) (links : S → Option (V → V)) :
    List (S × Nat) → SlotMap V → Option (SlotMap V)
  | [], m => some m
  | (snapshot, idx) :: rest, m => do
    let id ← ids[idx]?
    let _ ← m.get id
    let write ← links snapshot
    linkAll ids links rest (m.modify id write)

def fromSnapshot [DecidableEq K] [DecidableEq O] (snapshot : StemmaSnapshot K E O X) :
    Option (Stemma K E O X) := do
  let (memory, ownerIds) := addOwners new [] snapshot.owners
  let (memory, entryIds) := addEntries memory [] snapshot.entries
  let (memory, visitIds) ← addVisits entryIds memory [] snapshot.visits
  let visits ← linkAll visitIds (VisitSnapshot.links ownerIds visitIds) snapshot.visits.zipIdx
    memory.visits
  let owners ← linkAll ownerIds (OwnerSnapshot.links ownerIds visitIds) snapshot.owners.zipIdx
    memory.owners
  return { memory with visits, owners }

end Mere.Stemma
