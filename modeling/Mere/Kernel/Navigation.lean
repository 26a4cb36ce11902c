import Mere.Base.Word
import Mere.Stemma.RoundTrip

/-!
# The navigation history of a graph

From `crates/graph/graph-kernel/src/graph/history.rs` and `queries.rs` of the stemma: one stemma for
the graph, an owner for each node, a snapshot that every operation reads in and writes back.
Writing back panics on a dangling id and following forward children does not end on a cycle: both
are `none` here.
-/

open Std (ExtTreeSet ExtTreeMap)

namespace Mere.Kernel

open Stemma

abbrev Uuid := Fin (2 ^ 128)

inductive NodeHistoryOwner
  | node (id : Uuid)
  deriving DecidableEq

abbrev Memory := Stemma Str Str NodeHistoryOwner Unit

structure NodeHistoryProjection where
  entries : List Str
  currentIndex : Nat
  deriving DecidableEq

/-! ## Paths of an owner -/

section
variable {K E O X : Type}

/-- The loop of `linear_history_visits_of_owner`: from a visit on, the forward children of the
    owner. A path without a repetition has at most as many visits as there are, and the child
    of the last one may be gone. -/
def forwardPath (s : Stemma K E O X) (ownerId : OwnerId) : Nat → VisitId → Option (List VisitId)
  | 0, _ => none
  | fuel + 1, cursor =>
    match (s.bindingOf cursor ownerId).bind OwnerBinding.forwardChild with
    | none => some [cursor]
    | some next => (forwardPath s ownerId fuel next).map (cursor :: ·)

def linearHistoryVisitsOfOwner (s : Stemma K E O X) (ownerId : OwnerId) :
    Option (Except StemmaError (List VisitId)) :=
  match s.owners.get ownerId with
  | none => some (.error (.missingOwner ownerId))
  | some owner =>
    match owner.origin with
    | none => some (.ok [])
    | some origin => (forwardPath s ownerId (s.visits.size + 2) origin).map .ok

def entryOfVisit (s : Stemma K E O X) (visitId : VisitId) : Except StemmaError EntryId :=
  match s.visits.get visitId with
  | some visit => .ok visit.entry
  | none => .error (.missingVisit visitId)

def linearHistoryEntriesOfOwner (s : Stemma K E O X) (ownerId : OwnerId) :
    Option (Except StemmaError (List EntryId)) :=
  (linearHistoryVisitsOfOwner s ownerId).map fun visits => do (← visits).mapM (entryOfVisit s)

def currentIndexOfOwner (s : Stemma K E O X) (ownerId : OwnerId) :
    Option (Except StemmaError (Option Nat)) :=
  match s.current ownerId with
  | none => some (.ok none)
  | some current => (linearHistoryVisitsOfOwner s ownerId).map fun visits =>
      visits.map (fun linear => linear.findIdx? (· == current))

end

/-! ## The shared memory -/

structure SharedNavigationMemory where
  snapshot : StemmaSnapshot Str Str NodeHistoryOwner Unit

namespace SharedNavigationMemory

def empty : SharedNavigationMemory := ⟨⟨[], [], []⟩⟩

variable (nav : SharedNavigationMemory)

def hydrate : Option Memory := fromSnapshot nav.snapshot

def store (memory : Memory) : Option SharedNavigationMemory :=
  (memory.toSnapshot inOrder).map SharedNavigationMemory.mk

def ownerIdByIdentity (memory : Memory) (node : Uuid) : Option OwnerId :=
  memory.ownerIndex.lookup (.node node)

def spawn (child parent : Uuid) : Option SharedNavigationMemory := do
  let memory ← nav.hydrate
  store (memory.ensureOwner (.node child) (ownerIdByIdentity memory parent)).2

def visitPage (memory : Memory) (owner : OwnerId) (url : Str) (transition : TransitionKind)
    (atMs : Nat) : Memory :=
  ((memory.resolveOrCreateEntry url url atMs .localOnly).2.visitEntry owner
    (memory.resolveOrCreateEntry url url atMs .localOnly).1 () transition atMs).2

def recordVisit (node : Uuid) (url : Str) (transition : TransitionKind) (atMs : Nat) :
    Option SharedNavigationMemory := do
  let memory ← nav.hydrate
  store (visitPage (memory.ensureOwner (.node node) none).2
    (memory.ensureOwner (.node node) none).1 url transition atMs)

def pageOf (memory : Memory) (visitId : VisitId) : Option Str :=
  ((memory.visits.get visitId).bind fun visit => memory.entries.get visit.entry).map
    EntryRecord.payload

/-- `back` and `forward` by one visit: the page revealed, or nothing and no change. -/
def step (move : Memory → OwnerId → Outcome Str Str NodeHistoryOwner Unit (Option VisitId))
    (node : Uuid) : Option (Option Str × SharedNavigationMemory) := do
  let memory ← nav.hydrate
  match ownerIdByIdentity memory node with
  | none => return (none, nav)
  | some owner =>
    match move memory owner with
    | (.ok (some moved), memory) => return (pageOf memory moved, ← store memory)
    | _ => return (none, nav)

def back (node : Uuid) (atMs : Nat) : Option (Option Str × SharedNavigationMemory) :=
  nav.step (fun memory owner => memory.back owner 1 atMs) node

def forward (node : Uuid) (atMs : Nat) : Option (Option Str × SharedNavigationMemory) :=
  nav.step (fun memory owner => memory.forward owner 1 atMs) node

def projectionOfOwner (memory : Memory) (owner : OwnerId) : Option NodeHistoryProjection := do
  let visits ← linearHistoryEntriesOfOwner memory owner
  let index ← currentIndexOfOwner memory owner
  return { entries := (visits.toOption.getD []).filterMap (fun entryId =>
             (memory.entries.get entryId).map EntryRecord.payload)
           currentIndex := (index.toOption.join).getD 0 }

def projection (node : Uuid) : Option NodeHistoryProjection := do
  let memory ← nav.hydrate
  match ownerIdByIdentity memory node with
  | none => return { entries := [], currentIndex := 0 }
  | some owner => projectionOfOwner memory owner

def currentUrl (node : Uuid) : Option (Option Str) :=
  (nav.projection node).map fun projection => projection.entries[projection.currentIndex]?

def remove (node : Uuid) : Option SharedNavigationMemory := do
  let memory ← nav.hydrate
  match ownerIdByIdentity memory node with
  | none => return nav
  | some owner =>
    let outcome ← memory.deleteOwner owner (.same _) (.same _)
    store outcome.2

def seedVisits (owner : OwnerId) : Memory → List (Str × Nat) → Memory
  | memory, [] => memory
  | memory, (url, idx) :: rest =>
    seedVisits owner
      (visitPage memory owner url (if idx = 0 then .urlTyped else .unknown) idx) rest

def seedLinear (node : Uuid) (entries : List Str) (currentIndex : Nat) :
    Option SharedNavigationMemory :=
  if entries.isEmpty then some nav
  else do
    let memory ← nav.hydrate
    let owner := (memory.ensureOwner (.node node) none).1
    let seeded := seedVisits owner (memory.ensureOwner (.node node) none).2 entries.zipIdx
    let stepsBack := entries.length - 1 - min currentIndex (entries.length - 1)
    store (if stepsBack > 0 then (seeded.back owner stepsBack entries.length).2 else seeded)

end SharedNavigationMemory

end Mere.Kernel
