import Mere.Stemma.Model

/-!
# The mutators of a stemma

From `crates/eidetic/chartulary/src/stemma/mutations.rs`. An error keeps what was written before it.
The outer `none` of `delete_owner` stands for a walk that would not end.
-/

open Std (ExtTreeSet)

namespace Mere.Stemma

variable {K E O X : Type} (s : Stemma K E O X) (ownerId : OwnerId) (visitId : VisitId) (atMs : Nat)

abbrev Outcome (K E O X A : Type) := Except StemmaError A × Stemma K E O X

/-! ## Bindings -/

/-- `bindings.entry(owner).or_insert(..)`, accessed now, then written to by the caller. -/
def VisitRecord.bind (visit : VisitRecord X) (ownerId : OwnerId) (atMs : Nat)
    (write : OwnerBinding → OwnerBinding) : VisitRecord X :=
  let binding := visit.bindings.getD ownerId ⟨none, atMs⟩
  { visit with
    bindings := visit.bindings.insert ownerId (write { binding with lastAccessedAtMs := atMs }) }

/-- The source hands out a mutable reference; `write` is what the caller does with it. -/
def ensureBinding (ownerId : OwnerId) (atMs : Nat) (write : OwnerBinding → OwnerBinding) :
    Option (Stemma K E O X) :=
  if s.visits.contains visitId then
    some { s with visits := s.visits.modify visitId (fun visit => visit.bind ownerId atMs write) }
  else
    none

def forwardTo (child : Option VisitId) (binding : OwnerBinding) : OwnerBinding :=
  { binding with forwardChild := child }

/-- `if let Some(binding) = self.ensure_binding(..) { binding.forward_child = Some(child) }` -/
def pointForward (ownerId : OwnerId) (child : VisitId) (atMs : Nat) : Stemma K E O X :=
  (s.ensureBinding visitId ownerId atMs (forwardTo (some child))).getD s

def OwnerRecord.enter (owner : OwnerRecord O) (visitId : VisitId) : OwnerRecord O :=
  { owner with current := some visitId, ownedVisits := owner.ownedVisits.insert visitId }

def bindOwnerToVisit : Outcome K E O X Unit :=
  if !s.owners.contains ownerId then
    (.error (.missingOwner ownerId), s)
  else if !s.visits.contains visitId then
    (.error (.missingVisit visitId), s)
  else
    match s.ensureBinding visitId ownerId atMs id with
    | none => (.error (.missingVisit visitId), s)
    | some s =>
      -- The owner was there at the first check, and no binding write removes one.
      (.ok (), { s with owners := s.owners.modify ownerId (fun owner => owner.enter visitId) })

/-! ## Owners and entries -/

def ensureOwner [DecidableEq O] (s : Stemma K E O X) (identity : O) (creator : Option OwnerId) :
    OwnerId × Stemma K E O X :=
  match s.ownerIndex.lookup identity with
  | some id => (id, s)
  | none =>
    let pendingOriginParent := creator.bind s.current
    let owner : OwnerRecord O :=
      { identity, origin := none, current := none, creator, pendingOriginParent, ownedVisits := ∅ }
    let id := s.owners.next
    (id, { s with
      owners := s.owners.insert owner
      ownerIndex := s.ownerIndex.insert identity id })

def resolveOrCreateEntry [DecidableEq K] (s : Stemma K E O X) (key : K) (payload : E) (atMs : Nat)
    (privacy : EntryPrivacy) : EntryId × Stemma K E O X :=
  match s.entryIndex.lookup key with
  | some id =>
    (id, { s with entries := s.entries.modify id (fun entry =>
      { entry with payload, lastSeenAtMs := atMs, privacy }) })
  | none =>
    let id := s.entries.next
    (id, { s with
      entries := s.entries.insert
        { key, payload, firstSeenAtMs := atMs, lastSeenAtMs := atMs, visitCount := 0, privacy }
      entryIndex := s.entryIndex.insert key id })

/-! ## Moving -/

def adoptVisit : Outcome K E O X VisitId :=
  if !s.owners.contains ownerId then
    (.error (.missingOwner ownerId), s)
  else if !s.visits.contains visitId then
    (.error (.missingVisit visitId), s)
  else
    let s := match s.current ownerId with
      | some currentId =>
        if s.lists currentId visitId then s.pointForward currentId ownerId visitId atMs else s
      | none => s
    match s.bindOwnerToVisit ownerId visitId atMs with
    | (.error e, s) => (.error e, s)
    | (.ok (), s) => (.ok visitId, s)

/-- Where an owner's next visit hangs: under its current visit, else under the parent it was
    spawned with, which is used up. -/
def takeParent : Option VisitId × Stemma K E O X :=
  match s.current ownerId with
  | some currentId => (some currentId, s)
  | none =>
    ((s.owners.get ownerId).bind OwnerRecord.pendingOriginParent,
      { s with owners := s.owners.modify ownerId (fun owner =>
        { owner with pendingOriginParent := none }) })

/-- The new visit, under its parent, which lists it last if it is there to list it. -/
def insertVisit (entryId : EntryId) (parent : Option VisitId) (context : X)
    (transition : TransitionKind) (atMs : Nat) : Stemma K E O X :=
  let visitId := s.visits.next
  let visits := s.visits.insert
    { entry := entryId, parent, children := [], createdAtMs := atMs, context,
      inbound := parent.map (fun _ => ⟨transition, atMs⟩), bindings := ∅ }
  match parent with
  | none => { s with visits }
  | some parentId =>
    { s with visits := visits.modify parentId (fun visit =>
      { visit with children := visit.children ++ [visitId] }) }

def setOrigin : Stemma K E O X :=
  { s with owners := s.owners.modify ownerId (fun owner =>
    if owner.origin.isNone then { owner with origin := some visitId } else owner) }

def countVisit (entryId : EntryId) (atMs : Nat) : Stemma K E O X :=
  { s with entries := s.entries.modify entryId (fun entry =>
    { entry with lastSeenAtMs := atMs, visitCount := entry.visitCount + 1 }) }

def visitEntry (entryId : EntryId) (context : X) (transition : TransitionKind) (atMs : Nat) :
    Outcome K E O X VisitId :=
  if !s.owners.contains ownerId then
    (.error (.missingOwner ownerId), s)
  else if !s.entries.contains entryId then
    (.error (.missingEntry entryId), s)
  else
    let (parent, s) := s.takeParent ownerId
    let visitId := s.visits.next
    let s := s.insertVisit entryId parent context transition atMs
    let s := match parent with
      | some parentId => s.pointForward parentId ownerId visitId atMs
      | none => s
    match s.bindOwnerToVisit ownerId visitId atMs with
    | (.error e, s) => (.error e, s)
    | (.ok (), s) => (.ok visitId, (s.setOrigin ownerId visitId).countVisit entryId atMs)

/-- `for _ in 0..n`: a round that finds nowhere to go breaks, one that fails returns. -/
def rounds (round : Stemma K E O X → Option (Outcome K E O X VisitId)) :
    Nat → Option VisitId → Stemma K E O X → Outcome K E O X (Option VisitId)
  | 0, movedTo, s => (.ok movedTo, s)
  | n + 1, movedTo, s =>
    match round s with
    | none => (.ok movedTo, s)
    | some (.error e, s) => (.error e, s)
    | some (.ok v, s) => rounds round n (some v) s

def backRound (s : Stemma K E O X) : Option (Outcome K E O X VisitId) :=
  match s.current ownerId with
  | none => none
  | some currentId =>
    match s.parentOf currentId with
    | none => none
    | some parentId =>
      let s := s.pointForward parentId ownerId currentId atMs
      match s.bindOwnerToVisit ownerId parentId atMs with
      | (.error e, s) => some (.error e, s)
      | (.ok (), s) => some (.ok parentId, s)

def forwardRound (s : Stemma K E O X) : Option (Outcome K E O X VisitId) :=
  match s.current ownerId with
  | none => none
  | some currentId =>
    match (s.bindingOf currentId ownerId).bind OwnerBinding.forwardChild with
    | none => none
    | some nextId =>
      match s.bindOwnerToVisit ownerId nextId atMs with
      | (.error e, s) => some (.error e, s)
      | (.ok (), s) => some (.ok nextId, s)

def back (steps atMs : Nat) : Outcome K E O X (Option VisitId) :=
  if !s.owners.contains ownerId then
    (.error (.missingOwner ownerId), s)
  else
    rounds (backRound ownerId atMs) (max steps 1) none s

def forward (steps atMs : Nat) : Outcome K E O X (Option VisitId) :=
  if !s.owners.contains ownerId then
    (.error (.missingOwner ownerId), s)
  else
    rounds (forwardRound ownerId atMs) (max steps 1) none s

/-! ## Starting over -/

/-- The owner's bindings off the given visits. The order of the visits is not seen afterwards. -/
def release (owned : List VisitId) : Stemma K E O X :=
  { s with visits := owned.foldl (fun visits visitId => visits.modify visitId (fun visit =>
    { visit with bindings := visit.bindings.erase ownerId })) s.visits }

def clearOwner : Stemma K E O X :=
  { s with owners := s.owners.modify ownerId (fun owner =>
    { owner with origin := none, current := none, pendingOriginParent := none, ownedVisits := ∅ }) }

def resetOwner (context : X) (atMs : Nat) : Outcome K E O X (Option VisitId) :=
  match s.owners.get ownerId with
  | none => (.error (.missingOwner ownerId), s)
  | some owner =>
    match owner.current with
    | none => (.ok none, s)
    | some currentId =>
      match s.visits.get currentId with
      | none => (.error (.missingVisit currentId), s)
      | some currentVisit =>
        let s := (s.release ownerId owner.ownedVisits.toList).clearOwner ownerId
        match s.visitEntry ownerId currentVisit.entry context .restore atMs with
        | (.error e, s) => (.error e, s)
        | (.ok resetVisit, s) =>
          (.ok (some resetVisit), { s with visits := s.visits.modify resetVisit (fun visit =>
            { visit with parent := none, inbound := none }) })

/-- One binding for each visit of the path, each forward to the next. -/
def bindPath (s : Stemma K E O X) (ownerId : OwnerId) (atMs : Nat) :
    List VisitId → Outcome K E O X Unit
  | [] => (.ok (), s)
  | visitId :: path =>
    match s.ensureBinding visitId ownerId atMs (forwardTo path.head?) with
    | none => (.error (.missingVisit visitId), s)
    | some s => s.bindPath ownerId atMs path

/-- Nowhere on an empty path; past its end the last visit. -/
def OwnerRecord.onPath (owner : OwnerRecord O) (path : List VisitId) (currentIndex : Nat) :
    OwnerRecord O :=
  { owner with
    origin := path.head?
    current := path[min currentIndex (path.length - 1)]?
    pendingOriginParent := none
    ownedVisits := ExtTreeSet.ofList path compare }

def rebindOwnerToPath (path : List VisitId) (currentIndex atMs : Nat) : Outcome K E O X Unit :=
  match s.owners.get ownerId with
  | none => (.error (.missingOwner ownerId), s)
  | some owner =>
    match path.find? (fun visitId => !s.visits.contains visitId) with
    | some visitId => (.error (.missingVisit visitId), s)
    | none =>
      match (s.release ownerId owner.ownedVisits.toList).bindPath ownerId atMs path with
      | (.error e, s) => (.error e, s)
      | (.ok (), s) =>
        (.ok (), { s with owners := s.owners.modify ownerId (fun owner =>
          owner.onPath path currentIndex) })

/-! ## Collecting -/

def rootOf : Option (Except StemmaError VisitId) :=
  (Forest.climb s.nodes (s.visits.size + 1) visitId).map (Except.mapError StemmaError.missingVisit)

def collectSubtree (rootId : VisitId) : Option (List VisitId) :=
  Forest.gather s.nodes s.visits.size [rootId] []

def branchIsOwnerless (rootId : VisitId) : Option Bool :=
  (s.collectSubtree rootId).map (fun subtree => subtree.all (fun visitId =>
    (s.visits.get visitId).all (fun visit => visit.bindings.isEmpty)))

def removeVisit (visit : VisitRecord X) : Stemma K E O X :=
  { s with
    visits := s.visits.remove visitId
    entries := s.entries.modify visit.entry (fun entry =>
      { entry with visitCount := entry.visitCount - 1 }) }

def removeVisits : List VisitId → List VisitId → Stemma K E O X → Outcome K E O X (List VisitId)
  | [], deleted, s => (.ok deleted, s)
  | visitId :: rest, deleted, s =>
    match s.visits.get visitId with
    | none => (.error (.missingVisit visitId), s)
    | some visit => removeVisits rest (deleted ++ [visitId]) (s.removeVisit visitId visit)

def deleteBranch (rootId : VisitId) (deleted : List VisitId) :
    Option (Outcome K E O X (List VisitId)) :=
  (s.collectSubtree rootId).map (fun subtree => removeVisits subtree.reverse deleted s)

def rootsOf (s : Stemma K E O X) : List VisitId → ExtTreeSet VisitId compare →
    Option (Except StemmaError (ExtTreeSet VisitId compare))
  | [], roots => some (.ok roots)
  | visitId :: rest, roots =>
    if s.visits.contains visitId then
      match s.rootOf visitId with
      | none => none
      | some (.error e) => some (.error e)
      | some (.ok root) => s.rootsOf rest (roots.insert root)
    else
      s.rootsOf rest roots

def collect : List VisitId → List VisitId → Stemma K E O X → Option (Outcome K E O X GcReport)
  | [], deleted, s => some (.ok ⟨deleted⟩, s)
  | root :: rest, deleted, s =>
    match s.branchIsOwnerless root with
    | none => none
    | some false => collect rest deleted s
    | some true =>
      match s.deleteBranch root deleted with
      | none => none
      | some (.error e, s) => some (.error e, s)
      | some (.ok deleted, s) => collect rest deleted s

def dropOwner [DecidableEq O] (s : Stemma K E O X) (ownerId : OwnerId) (identity : O) :
    Stemma K E O X :=
  { s with
    owners := s.owners.remove ownerId
    ownerIndex := s.ownerIndex.erase identity
    visits := s.visits.mapVals (fun visit =>
      { visit with bindings := visit.bindings.erase ownerId }) }

/-- `owned` and `roots` are the orders in which the two hash sets are walked. -/
def deleteOwner [DecidableEq O] (s : Stemma K E O X) (ownerId : OwnerId)
    (owned roots : Shuffle VisitId) : Option (Outcome K E O X GcReport) :=
  match s.owners.get ownerId with
  | none => some (.error (.missingOwner ownerId), s)
  | some owner =>
    let s := s.dropOwner ownerId owner.identity
    match s.rootsOf (owned.order owner.ownedVisits.toList) ∅ with
    | none => none
    | some (.error e) => some (.error e, s)
    | some (.ok found) => collect (roots.order found.toList) [] s

/-! ## Runs -/

inductive Op (K E O X : Type)
  | ensureOwner (identity : O) (creator : Option OwnerId)
  | resolveOrCreateEntry (key : K) (payload : E) (atMs : Nat) (privacy : EntryPrivacy)
  | adoptVisit (ownerId : OwnerId) (visitId : VisitId) (atMs : Nat)
  | visitEntry (ownerId : OwnerId) (entryId : EntryId) (context : X) (transition : TransitionKind)
      (atMs : Nat)
  | back (ownerId : OwnerId) (steps atMs : Nat)
  | forward (ownerId : OwnerId) (steps atMs : Nat)
  | deleteOwner (ownerId : OwnerId) (owned roots : Shuffle VisitId)
  | resetOwner (ownerId : OwnerId) (context : X) (atMs : Nat)
  | rebindOwnerToPath (ownerId : OwnerId) (path : List VisitId) (currentIndex atMs : Nat)

/-- The state a call leaves, whatever it returned; `none` if it does not return. -/
def apply [DecidableEq K] [DecidableEq O] (s : Stemma K E O X) : Op K E O X → Option (Stemma K E O X)
  | .ensureOwner identity creator => some (s.ensureOwner identity creator).2
  | .resolveOrCreateEntry key payload atMs privacy =>
    some (s.resolveOrCreateEntry key payload atMs privacy).2
  | .adoptVisit ownerId visitId atMs => some (s.adoptVisit ownerId visitId atMs).2
  | .visitEntry ownerId entryId context transition atMs =>
    some (s.visitEntry ownerId entryId context transition atMs).2
  | .back ownerId steps atMs => some (s.back ownerId steps atMs).2
  | .forward ownerId steps atMs => some (s.forward ownerId steps atMs).2
  | .deleteOwner ownerId owned roots => (s.deleteOwner ownerId owned roots).map Prod.snd
  | .resetOwner ownerId context atMs => some (s.resetOwner ownerId context atMs).2
  | .rebindOwnerToPath ownerId path currentIndex atMs =>
    some (s.rebindOwnerToPath ownerId path currentIndex atMs).2

end Mere.Stemma
