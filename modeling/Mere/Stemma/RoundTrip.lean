import Mere.Stemma.Snapshot
import Mere.Base.Numbering
import Mere.Base.Run

/-!
# Snapshots round trip

A stemma all of whose ids are live has a snapshot, whatever the order of the walks, and the
stemma read back from it is the same one up to the names of the ids.
-/

open Std (ExtTreeSet ExtTreeMap)

namespace Mere.Stemma

open List (map_map mem_map range range'_succ)
open Option (bind_some map_some)

variable {K E O X : Type} (s : Stemma K E O X)

structure Intact (s : Stemma K E O X) : Prop where
  entry : ∀ v visit, s.visits.get v = some visit → s.entries.contains visit.entry
  parent : ∀ v visit p, s.visits.get v = some visit → visit.parent = some p → s.visits.contains p
  child : ∀ v visit c, s.visits.get v = some visit → c ∈ visit.children → s.visits.contains c
  holder : ∀ v visit (o : OwnerId), s.visits.get v = some visit → o ∈ visit.bindings →
    s.owners.contains o
  forward : ∀ v visit (o : OwnerId) (b : OwnerBinding) f, s.visits.get v = some visit →
    visit.bindings[o]? = some b → b.forwardChild = some f → s.visits.contains f
  origin : ∀ o owner v, s.owners.get o = some owner → owner.origin = some v → s.visits.contains v
  current : ∀ o owner v, s.owners.get o = some owner → owner.current = some v → s.visits.contains v
  creator : ∀ o owner c, s.owners.get o = some owner → owner.creator = some c → s.owners.contains c
  pending : ∀ o owner v, s.owners.get o = some owner → owner.pendingOriginParent = some v →
    s.visits.contains v
  owned : ∀ o owner v, s.owners.get o = some owner → v ∈ owner.ownedVisits → s.visits.contains v

def VisitRecord.intact (visit : VisitRecord X) : Bool :=
  s.entries.contains visit.entry && visit.parent.all s.visits.contains &&
    visit.children.all s.visits.contains &&
    visit.bindings.toList.all (fun q =>
      s.owners.contains q.1 && q.2.forwardChild.all s.visits.contains)

def OwnerRecord.intact (owner : OwnerRecord O) : Bool :=
  owner.origin.all s.visits.contains && owner.current.all s.visits.contains &&
    owner.creator.all s.owners.contains && owner.pendingOriginParent.all s.visits.contains &&
    owner.ownedVisits.toList.all s.visits.contains

theorem intact_iff : Intact s ↔
    (∀ q ∈ s.visits.toList, q.2.intact s) ∧ ∀ q ∈ s.owners.toList, q.2.intact s := by
  simp only [VisitRecord.intact, OwnerRecord.intact, Bool.and_eq_true, List.all_eq_true,
    Option.all_eq_true, Prod.forall, SlotMap.mem_toList, ExtTreeMap.mem_toList_iff_getElem?_eq_some,
    ExtTreeSet.mem_toList]
  constructor
  · intro h
    refine ⟨fun v visit hv => ⟨⟨⟨h.entry v visit hv, fun p hp => h.parent v visit p hv hp⟩,
      fun c hc => h.child v visit c hv hc⟩, fun o b hb =>
      ⟨h.holder v visit o hv (OrdMap.mem_of_getElem? hb),
        fun f hf => h.forward v visit o b f hv hb hf⟩⟩, ?_⟩
    intro o owner ho
    exact ⟨⟨⟨⟨fun v hv => h.origin o owner v ho hv, fun v hv => h.current o owner v ho hv⟩,
      fun c hc => h.creator o owner c ho hc⟩, fun v hv => h.pending o owner v ho hv⟩,
      fun v hv => h.owned o owner v ho hv⟩
  · rintro ⟨hv, ho⟩
    constructor
    · exact fun v visit h => (hv v visit h).1.1.1
    · exact fun v visit p h hp => (hv v visit h).1.1.2 p hp
    · exact fun v visit c h hc => (hv v visit h).1.2 c hc
    · intro v visit o h hmem
      obtain ⟨b, hb⟩ := Option.isSome_iff_exists.mp (ExtTreeMap.mem_iff_isSome_getElem?.mp hmem)
      exact ((hv v visit h).2 o b hb).1
    · exact fun v visit o b f h hb hf => ((hv v visit h).2 o b hb).2 f hf
    · exact fun o owner v h hv => (ho o owner h).1.1.1.1 v hv
    · exact fun o owner v h hv => (ho o owner h).1.1.1.2 v hv
    · exact fun o owner c h hc => (ho o owner h).1.1.2 c hc
    · exact fun o owner v h hv => (ho o owner h).1.2 v hv
    · exact fun o owner v h hv => (ho o owner h).2 v hv

instance (s : Stemma K E O X) : Decidable (Intact s) := decidable_of_iff _ (intact_iff s).symm

/-! ## The snapshot -/

/-- A visit with its ids renamed by functions on numbers. -/
def VisitRecord.numbered (ε φ ω : Nat → Nat) (order : Shuffle (OwnerId × OwnerBinding))
    (visit : VisitRecord X) : VisitSnapshot X :=
  { entry := ε visit.entry, parent := visit.parent.map φ, children := visit.children.map φ,
    createdAtMs := visit.createdAtMs, context := visit.context, inbound := visit.inbound,
    bindings := (order.order visit.bindings.toList).map (fun q =>
      ⟨ω q.1, q.2.forwardChild.map φ, q.2.lastAccessedAtMs⟩) }

def OwnerRecord.numbered (φ ω : Nat → Nat) (order : Shuffle VisitId) (owner : OwnerRecord O) :
    OwnerSnapshot O :=
  { identity := owner.identity, origin := owner.origin.map φ, current := owner.current.map φ,
    creator := owner.creator.map ω, pendingOriginParent := owner.pendingOriginParent.map φ,
    ownedVisits := (order.order owner.ownedVisits.toList).map φ }

section
variable (walk : Walk K E O X) (s : Stemma K E O X)

def entryWalk : List (EntryId × EntryRecord K E) := walk.entries.order s.entries.toList
def visitWalk : List (VisitId × VisitRecord X) := walk.visits.order s.visits.toList
def ownerWalk : List (OwnerId × OwnerRecord O) := walk.owners.order s.owners.toList

def snapshotOf : StemmaSnapshot K E O X :=
  { entries := (entryWalk walk s).map (fun q => q.2.snapshot)
    visits := (visitWalk walk s).map (fun q => q.2.numbered (number (entryWalk walk s))
      (number (visitWalk walk s)) (number (ownerWalk walk s)) (walk.bindings q.1))
    owners := (ownerWalk walk s).map (fun q => q.2.numbered (number (visitWalk walk s))
      (number (ownerWalk walk s)) (walk.owned q.1)) }

end

variable {V : Type} {visit : VisitRecord X} {s : Stemma K E O X} (m : SlotMap V)
  (order : Shuffle (Nat × V))

theorem shuffle_spec :
    ((order.order m.toList).map Prod.fst).Nodup ∧
      (∀ k v, (k, v) ∈ order.order m.toList ↔ m.get k = some v) ∧
      ∀ k, k ∈ (order.order m.toList).map Prod.fst ↔ m.contains k := by
  have hmem : ∀ k v, (k, v) ∈ order.order m.toList ↔ m.get k = some v := fun k v => by
    rw [(order.perm m.toList).mem_iff, m.mem_toList]
  refine ⟨((order.perm m.toList).map Prod.fst).nodup_iff.mpr m.nodup_keys, hmem, ?_⟩
  intro k
  simp only [mem_map, Prod.exists, exists_and_right, exists_eq_right, hmem, SlotMap.contains,
    Option.isSome_iff_exists]

theorem indexOf_live {k : Nat} (h : m.contains k) :
    indexOf (order.order m.toList) k = some (number (order.order m.toList) k) :=
  idxOf?_number (((shuffle_spec m order).2.2 k).mpr h)

theorem binding_of_walk {order : Shuffle (OwnerId × OwnerBinding)}
    {q : OwnerId × OwnerBinding} (hq : q ∈ order.order visit.bindings.toList) :
    visit.bindings[q.1]? = some q.2 :=
  ExtTreeMap.mem_toList_iff_getElem?_eq_some.mp ((order.perm _).mem_iff.mp hq)

theorem visit_snapshot_eq (hs : Intact s) (walk : Walk K E O X) {v : VisitId}
    (hv : s.visits.get v = some visit) :
    visit.snapshot (indexOf (entryWalk walk s)) (indexOf (visitWalk walk s))
        (indexOf (ownerWalk walk s)) (walk.bindings v) =
      some (visit.numbered (number (entryWalk walk s)) (number (visitWalk walk s))
        (number (ownerWalk walk s)) (walk.bindings v)) := by
  have hvisits : ∀ {x}, s.visits.contains x → indexOf (visitWalk walk s) x = _ :=
    fun h => indexOf_live s.visits walk.visits h
  have hbindings : ∀ q ∈ (walk.bindings v).order visit.bindings.toList,
      q.2.snapshot (indexOf (ownerWalk walk s)) (indexOf (visitWalk walk s)) q.1 =
        some ⟨number (ownerWalk walk s) q.1, q.2.forwardChild.map (number (visitWalk walk s)),
          q.2.lastAccessedAtMs⟩ := by
    rintro ⟨o, b⟩ hq
    have hb := binding_of_walk hq
    have ho := hs.holder v visit o hv (OrdMap.mem_of_getElem? hb)
    simp only [OwnerBinding.snapshot, indexOf_live s.owners walk.owners ho, ownerWalk,
      option_mapM_eq (fun f hf => hvisits (hs.forward v visit o b f hv hb hf)), bind, pure,
      bind_some]
    rfl
  simp only [VisitRecord.snapshot, entryWalk,
    indexOf_live s.entries walk.entries (hs.entry v visit hv),
    option_mapM_eq (fun p hp => hvisits (hs.parent v visit p hv hp)),
    list_mapM_eq (fun c hc => hvisits (hs.child v visit c hv hc)), list_mapM_eq hbindings, bind, pure,
    bind_some]
  rfl

theorem owner_snapshot_eq (hs : Intact s) (walk : Walk K E O X) {o : OwnerId}
    {owner : OwnerRecord O} (ho : s.owners.get o = some owner) :
    owner.snapshot (indexOf (visitWalk walk s)) (indexOf (ownerWalk walk s)) (walk.owned o) =
      some (owner.numbered (number (visitWalk walk s)) (number (ownerWalk walk s))
        (walk.owned o)) := by
  have hvisits : ∀ {x}, s.visits.contains x → indexOf (visitWalk walk s) x = _ :=
    fun h => indexOf_live s.visits walk.visits h
  have howned : ∀ v ∈ (walk.owned o).order owner.ownedVisits.toList,
      indexOf (visitWalk walk s) v = _ := fun v hv =>
    hvisits (hs.owned o owner v ho
      (ExtTreeSet.mem_toList.mp (((walk.owned o).perm _).mem_iff.mp hv)))
  simp only [OwnerRecord.snapshot, ownerWalk,
    option_mapM_eq (fun v hv => hvisits (hs.origin o owner v ho hv)),
    option_mapM_eq (fun v hv => hvisits (hs.current o owner v ho hv)),
    option_mapM_eq (fun c hc => indexOf_live s.owners walk.owners (hs.creator o owner c ho hc)),
    option_mapM_eq (fun v hv => hvisits (hs.pending o owner v ho hv)),
    list_mapM_eq howned, bind, pure, bind_some]
  rfl

theorem toSnapshot_eq (hs : Intact s) (walk : Walk K E O X) :
    s.toSnapshot walk = some (snapshotOf walk s) := by
  have hvisits : ∀ q ∈ visitWalk walk s, _ := fun q hq =>
    visit_snapshot_eq hs walk (((shuffle_spec s.visits walk.visits).2.1 q.1 q.2).mp hq)
  have howners : ∀ q ∈ ownerWalk walk s, _ := fun q hq =>
    owner_snapshot_eq hs walk (((shuffle_spec s.owners walk.owners).2.1 q.1 q.2).mp hq)
  have hv := list_mapM_eq hvisits
  have ho := list_mapM_eq howners
  unfold visitWalk ownerWalk at hv ho
  unfold entryWalk at hv
  simp only [toSnapshot, hv, ho, bind, pure, bind_some]
  rfl

/-! ## The passes of reading back -/

section
variable [DecidableEq K] [DecidableEq O] (memory : Stemma K E O X)

omit [DecidableEq K] in
theorem addOwners_eq (ids : List OwnerId) (l : List (OwnerSnapshot O)) :
    addOwners memory ids l = ({ memory with
      owners := memory.owners.insertAll (l.map OwnerSnapshot.blank)
      ownerIndex := indexAll memory.owners.next memory.ownerIndex (l.map OwnerSnapshot.identity) },
      ids ++ List.range' memory.owners.next l.length) := by
  induction l generalizing memory ids with
  | nil => simp [addOwners, SlotMap.insertAll, indexAll]
  | cons owner l ih =>
    simp only [addOwners]
    rw [ih]
    simp [SlotMap.insertAll, indexAll, range'_succ]

omit [DecidableEq O] in
theorem addEntries_eq (ids : List EntryId) (l : List (EntrySnapshot K E)) :
    addEntries memory ids l = ({ memory with
      entries := memory.entries.insertAll (l.map EntrySnapshot.record)
      entryIndex := indexAll memory.entries.next memory.entryIndex (l.map EntrySnapshot.key) },
      ids ++ List.range' memory.entries.next l.length) := by
  induction l generalizing memory ids with
  | nil => simp [addEntries, SlotMap.insertAll, indexAll]
  | cons entry l ih =>
    simp only [addEntries]
    rw [ih]
    simp [SlotMap.insertAll, indexAll, range'_succ]

end

theorem addVisits_eq (entryIds : List EntryId) (memory : Stemma K E O X) (ids : List VisitId)
    (l : List (VisitSnapshot X)) (h : ∀ visit ∈ l, entryIds[visit.entry]? = some visit.entry) :
    addVisits entryIds memory ids l = some ({ memory with
      visits := memory.visits.insertAll (l.map (fun visit => visit.blank visit.entry)) },
      ids ++ List.range' memory.visits.next l.length) := by
  induction l generalizing memory ids with
  | nil => simp [addVisits, SlotMap.insertAll]
  | cons visit l ih =>
    simp only [addVisits, h visit List.mem_cons_self, bind, bind_some]
    rw [ih _ _ (fun v hv => h v (List.mem_cons_of_mem _ hv))]
    simp [SlotMap.insertAll, range'_succ]

theorem linkAll_spec {S V : Type} (ids : List Nat) {links : S → Option (V → V)} {W : S → V → V}
    (l : List S) (n : Nat) (m : SlotMap V) (hlinks : ∀ x ∈ l, links x = some (W x))
    (hids : ∀ k, n ≤ k → k < n + l.length → ids[k]? = some k ∧ m.contains k) :
    ∃ m', linkAll ids links (l.zipIdx n) m = some m' ∧
      ∀ k, m'.get k = if n ≤ k then (m.get k).map ((l[k - n]?).elim id W) else m.get k := by
  induction l generalizing n m with
  | nil => exact ⟨m, rfl, by simp⟩
  | cons x l ih =>
    obtain ⟨hid, hlive⟩ := hids n le_rfl (by simp)
    obtain ⟨v, hv⟩ := Option.isSome_iff_exists.mp hlive
    have hnext : ∀ k, n + 1 ≤ k → k < n + 1 + l.length →
        ids[k]? = some k ∧ (m.modify n (W x)).contains k := by
      intro k hk hlt
      obtain ⟨hid, hlive⟩ := hids k (by omega) (by simp only [List.length_cons]; omega)
      refine ⟨hid, ?_⟩
      rw [SlotMap.contains, SlotMap.get_modify, if_neg (by omega)]
      exact hlive
    obtain ⟨m', hrun, hget⟩ := ih (n + 1) (m.modify n (W x))
      (fun y hy => hlinks y (List.mem_cons_of_mem _ hy)) hnext
    refine ⟨m', ?_, ?_⟩
    · simp only [List.zipIdx_cons, linkAll, hid, hv, hlinks x List.mem_cons_self, bind,
        bind_some, hrun]
    · intro k
      rw [hget, SlotMap.get_modify]
      rcases Nat.lt_trichotomy k n with hk | rfl | hk
      · rw [if_neg (by omega), if_neg (by omega), if_neg (by omega)]
      · simp
      · obtain ⟨d, hd⟩ : ∃ d, k - n = d + 1 := ⟨k - n - 1, by omega⟩
        have hd' : k - (n + 1) = d := by omega
        rw [if_pos (by omega), if_neg (by omega), if_pos (by omega), hd, hd',
          List.getElem?_cons_succ]

/-! ## Records read back -/

def VisitRecord.renamed (ε φ ω : Nat → Nat) (order : Shuffle (OwnerId × OwnerBinding))
    (visit : VisitRecord X) : VisitRecord X :=
  { visit with
    entry := ε visit.entry
    parent := visit.parent.map φ
    children := visit.children.map φ
    bindings := (∅ : OrdMap _ _).insertMany ((order.order visit.bindings.toList).map (fun q =>
      (ω q.1, ⟨q.2.forwardChild.map φ, q.2.lastAccessedAtMs⟩))) }

def OwnerRecord.renamed (φ ω : Nat → Nat) (order : Shuffle VisitId) (owner : OwnerRecord O) :
    OwnerRecord O :=
  { identity := owner.identity
    origin := owner.origin.map φ
    current := owner.current.map φ
    creator := owner.creator.map ω
    pendingOriginParent := owner.pendingOriginParent.map φ
    ownedVisits := ExtTreeSet.ofList ((order.order owner.ownedVisits.toList).map φ) compare }

/-- What the second pass writes when every position is its own id. -/
def VisitSnapshot.write (visit : VisitSnapshot X) (record : VisitRecord X) : VisitRecord X :=
  { record with
    parent := visit.parent
    children := visit.children
    bindings := (∅ : OrdMap _ _).insertMany (visit.bindings.map (fun b =>
      (b.owner, ⟨b.forwardChild, b.lastAccessedAtMs⟩))) }

def OwnerSnapshot.write (owner : OwnerSnapshot O) (record : OwnerRecord O) : OwnerRecord O :=
  { record with
    origin := owner.origin
    current := owner.current
    creator := owner.creator
    pendingOriginParent := owner.pendingOriginParent
    ownedVisits := ExtTreeSet.ofList owner.ownedVisits compare }

theorem write_numbered (ε φ ω : Nat → Nat) (order : Shuffle (OwnerId × OwnerBinding))
    (visit : VisitRecord X) :
    (visit.numbered ε φ ω order).write
        ((visit.numbered ε φ ω order).blank (visit.numbered ε φ ω order).entry) =
      visit.renamed ε φ ω order := by
  simp only [VisitSnapshot.write, VisitSnapshot.blank, VisitRecord.numbered, VisitRecord.renamed,
    map_map, Function.comp_def]

theorem range_number {k : Nat} (h : m.contains k) :
    (range (order.order m.toList).length)[number (order.order m.toList) k]? =
      some (number (order.order m.toList) k) :=
  List.getElem?_range (number_lt (((shuffle_spec m order).2.2 k).mpr h))

theorem option_range_number {o : Option Nat} (h : ∀ k, o = some k → m.contains k) :
    (o.map (number (order.order m.toList))).mapM
        (fun i => (range (order.order m.toList).length)[i]?) =
      some (o.map (number (order.order m.toList))) := by
  rw [option_mapM_eq (g := id), Option.map_id]
  · rfl
  · intro i hi
    obtain ⟨k, hk, rfl⟩ := Option.map_eq_some_iff.mp hi
    exact range_number m order (h k hk)

theorem list_range_number {l : List Nat} (h : ∀ k ∈ l, m.contains k) :
    (l.map (number (order.order m.toList))).mapM
        (fun i => (range (order.order m.toList).length)[i]?) =
      some (l.map (number (order.order m.toList))) := by
  rw [list_mapM_eq (g := id), List.map_id]
  intro i hi
  obtain ⟨k, hk, rfl⟩ := List.mem_map.mp hi
  exact range_number m order (h k hk)

section
variable (hs : Intact s) (walk : Walk K E O X)

include hs

theorem visit_links_eq {v : VisitId} {visit : VisitRecord X} (hv : s.visits.get v = some visit) :
    (visit.numbered (number (entryWalk walk s)) (number (visitWalk walk s))
        (number (ownerWalk walk s)) (walk.bindings v)).links (range (ownerWalk walk s).length)
        (range (visitWalk walk s).length) =
      some (visit.numbered (number (entryWalk walk s)) (number (visitWalk walk s))
        (number (ownerWalk walk s)) (walk.bindings v)).write := by
  have hbindings : ∀ b ∈ ((walk.bindings v).order visit.bindings.toList).map (fun q =>
        (⟨number (ownerWalk walk s) q.1, q.2.forwardChild.map (number (visitWalk walk s)),
          q.2.lastAccessedAtMs⟩ : BindingSnapshot)),
      b.record (range (ownerWalk walk s).length) (range (visitWalk walk s).length) =
        some (b.owner, ⟨b.forwardChild, b.lastAccessedAtMs⟩) := by
    intro b hb
    obtain ⟨⟨o, binding⟩, hq, rfl⟩ := List.mem_map.mp hb
    have hget := binding_of_walk hq
    have ho := range_number s.owners walk.owners
      (hs.holder v visit o hv (OrdMap.mem_of_getElem? hget))
    have hforward := option_range_number s.visits walk.visits
      fun f hf => hs.forward v visit o binding f hv hget hf
    simp only [BindingSnapshot.record, visitWalk, ownerWalk, hforward, ho, bind, pure,
      bind_some]
  have hparent := option_range_number s.visits walk.visits fun p hp => hs.parent v visit p hv hp
  have hchildren := list_range_number s.visits walk.visits fun c hc => hs.child v visit c hv hc
  have hbindings := list_mapM_eq hbindings
  simp only [visitWalk, ownerWalk] at hbindings
  simp only [VisitSnapshot.links, VisitRecord.numbered, visitWalk, ownerWalk, hparent, hchildren,
    hbindings, bind, pure, bind_some]
  rfl

theorem owner_links_eq {o : OwnerId} {owner : OwnerRecord O} (ho : s.owners.get o = some owner) :
    (owner.numbered (number (visitWalk walk s)) (number (ownerWalk walk s)) (walk.owned o)).links
        (range (ownerWalk walk s).length) (range (visitWalk walk s).length) =
      some (owner.numbered (number (visitWalk walk s)) (number (ownerWalk walk s))
        (walk.owned o)).write := by
  have hvisits {p : Option VisitId} (hp : ∀ v, p = some v → s.visits.contains v) :=
    option_range_number s.visits walk.visits hp
  have howned := list_range_number s.visits walk.visits
    (l := (walk.owned o).order owner.ownedVisits.toList) fun v hv =>
      hs.owned o owner v ho (ExtTreeSet.mem_toList.mp (((walk.owned o).perm _).mem_iff.mp hv))
  simp only [OwnerSnapshot.links, OwnerRecord.numbered, visitWalk, ownerWalk, bind, pure,
    bind_some, hvisits (fun v h => hs.origin o owner v ho h),
    hvisits (fun v h => hs.current o owner v ho h),
    hvisits (fun v h => hs.pending o owner v ho h), howned,
    option_range_number s.owners walk.owners (fun c hc => hs.creator o owner c ho hc)]
  rfl

theorem fromSnapshot_spec [DecidableEq K] [DecidableEq O] :
    ∃ visits owners, fromSnapshot (snapshotOf walk s) = some
        { entries := SlotMap.insertAll {} ((entryWalk walk s).map Prod.snd)
          visits, owners
          entryIndex := indexAll 0 ∅ ((entryWalk walk s).map (fun q => q.2.key))
          ownerIndex := indexAll 0 ∅ ((ownerWalk walk s).map (fun q => q.2.identity)) } ∧
      (∀ k, visits.get k = ((visitWalk walk s)[k]?).map (fun q =>
        q.2.renamed (number (entryWalk walk s)) (number (visitWalk walk s))
          (number (ownerWalk walk s)) (walk.bindings q.1))) ∧
      ∀ k, owners.get k = ((ownerWalk walk s)[k]?).map (fun q =>
        q.2.renamed (number (visitWalk walk s)) (number (ownerWalk walk s)) (walk.owned q.1)) := by
  generalize hsnap : snapshotOf walk s = snap
  have hvlen : snap.visits.length = (visitWalk walk s).length := by rw [← hsnap]; simp [snapshotOf]
  have holen : snap.owners.length = (ownerWalk walk s).length := by rw [← hsnap]; simp [snapshotOf]
  have helen : snap.entries.length = (entryWalk walk s).length := by rw [← hsnap]; simp [snapshotOf]
  have hentries : ∀ visit ∈ snap.visits,
      (range (entryWalk walk s).length)[visit.entry]? = some visit.entry := by
    rw [← hsnap]
    intro visit hvisit
    obtain ⟨q, hq, rfl⟩ := List.mem_map.mp hvisit
    exact range_number s.entries walk.entries
      (hs.entry q.1 q.2 (((shuffle_spec s.visits walk.visits).2.1 q.1 q.2).mp hq))
  have hvlinks : ∀ visit ∈ snap.visits, visit.links (range (ownerWalk walk s).length)
      (range (visitWalk walk s).length) = some visit.write := by
    rw [← hsnap]
    intro visit hvisit
    obtain ⟨q, hq, rfl⟩ := List.mem_map.mp hvisit
    exact visit_links_eq hs walk (((shuffle_spec s.visits walk.visits).2.1 q.1 q.2).mp hq)
  have holinks : ∀ owner ∈ snap.owners, owner.links (range (ownerWalk walk s).length)
      (range (visitWalk walk s).length) = some owner.write := by
    rw [← hsnap]
    intro owner howner
    obtain ⟨q, hq, rfl⟩ := List.mem_map.mp howner
    exact owner_links_eq hs walk (((shuffle_spec s.owners walk.owners).2.1 q.1 q.2).mp hq)
  obtain ⟨visits, hvrun, hvget⟩ := linkAll_spec (range (visitWalk walk s).length)
    snap.visits 0 (SlotMap.insertAll {} (snap.visits.map (fun visit => visit.blank visit.entry)))
    hvlinks (by
      intro k _ hk
      rw [Nat.zero_add, hvlen] at hk
      rw [SlotMap.contains, SlotMap.get_insertAll_empty]
      simp [hvlen, hk])
  obtain ⟨owners, horun, hoget⟩ := linkAll_spec (range (ownerWalk walk s).length)
    snap.owners 0 (SlotMap.insertAll {} (snap.owners.map OwnerSnapshot.blank)) holinks (by
      intro k _ hk
      rw [Nat.zero_add, holen] at hk
      rw [SlotMap.contains, SlotMap.get_insertAll_empty]
      simp [holen, hk])
  refine ⟨visits, owners, ?_, ?_, ?_⟩
  · have hpasses := addVisits_eq (range (entryWalk walk s).length)
      (addEntries (addOwners (new : Stemma K E O X) [] snap.owners).1 [] snap.entries).1 []
      snap.visits hentries
    simp only [fromSnapshot, addOwners_eq, addEntries_eq, new, List.nil_append, ← List.range_eq_range',
      holen, helen, hvlen] at hpasses ⊢
    have hrecords : snap.entries.map EntrySnapshot.record = (entryWalk walk s).map Prod.snd := by
      rw [← hsnap, snapshotOf, map_map]
      rfl
    have hkeys : snap.entries.map EntrySnapshot.key = (entryWalk walk s).map (fun q => q.2.key) := by
      rw [← hsnap, snapshotOf, map_map]
      rfl
    have hnames : snap.owners.map OwnerSnapshot.identity =
        (ownerWalk walk s).map (fun q => q.2.identity) := by
      rw [← hsnap, snapshotOf, map_map]
      rfl
    rw [hpasses]
    simp only [bind, pure, bind_some, hvrun, horun, hrecords, hkeys, hnames]
  · intro k
    rw [hvget, SlotMap.get_insertAll_empty, ← hsnap]
    cases hk : (visitWalk walk s)[k]? with
    | none => simp [snapshotOf, hk]
    | some q => simp [snapshotOf, hk, write_numbered]
  · intro k
    rw [hoget, SlotMap.get_insertAll_empty, Nat.sub_zero, ← hsnap]
    cases hk : (ownerWalk walk s)[k]? with
    | none => simp [snapshotOf, hk]
    | some q =>
      simp only [snapshotOf, hk, List.getElem?_map, map_some, Option.elim_some]
      rfl

end

/-! ## The same stemma -/

/-- `visit'` is `visit` under the renamings. -/
structure VisitRecord.Carried (ε φ ω : Nat → Nat) (visit visit' : VisitRecord X) : Prop where
  entry : visit'.entry = ε visit.entry
  parent : visit'.parent = visit.parent.map φ
  children : visit'.children = visit.children.map φ
  createdAtMs : visit'.createdAtMs = visit.createdAtMs
  context : visit'.context = visit.context
  inbound : visit'.inbound = visit.inbound
  bindings : ∀ (o' : OwnerId) (b' : OwnerBinding), visit'.bindings[o']? = some b' ↔
    ∃ (o : OwnerId) (b : OwnerBinding), visit.bindings[o]? = some b ∧ o' = ω o ∧
      b' = ⟨b.forwardChild.map φ, b.lastAccessedAtMs⟩

structure OwnerRecord.Carried (φ ω : Nat → Nat) (owner owner' : OwnerRecord O) : Prop where
  identity : owner'.identity = owner.identity
  origin : owner'.origin = owner.origin.map φ
  current : owner'.current = owner.current.map φ
  creator : owner'.creator = owner.creator.map ω
  pendingOriginParent : owner'.pendingOriginParent = owner.pendingOriginParent.map φ
  ownedVisits : ∀ v', v' ∈ owner'.ownedVisits ↔ ∃ v ∈ owner.ownedVisits, v' = φ v

/-- The renamings `ε` of entries, `φ` of visits and `ω` of owners carry `s` to `s'`. -/
structure Isomorphic (ε φ ω : Nat → Nat) (s s' : Stemma K E O X) [DecidableEq K] [DecidableEq O] :
    Prop where
  entryIds : Set.BijOn ε {e | s.entries.contains e} {e | s'.entries.contains e}
  visitIds : Set.BijOn φ {v | s.visits.contains v} {v | s'.visits.contains v}
  ownerIds : Set.BijOn ω {o | s.owners.contains o} {o | s'.owners.contains o}
  entries : ∀ e entry, s.entries.get e = some entry → s'.entries.get (ε e) = some entry
  visits : ∀ v visit, s.visits.get v = some visit →
    ∃ visit', s'.visits.get (φ v) = some visit' ∧ visit.Carried ε φ ω visit'
  owners : ∀ o owner, s.owners.get o = some owner →
    ∃ owner', s'.owners.get (ω o) = some owner' ∧ owner.Carried φ ω owner'
  entryIndex : ∀ key, s'.entryIndex.lookup key = (s.entryIndex.lookup key).map ε
  ownerIndex : ∀ identity, s'.ownerIndex.lookup identity = (s.ownerIndex.lookup identity).map ω

/-- The two indexes are the maps from a key or an identity to the record that has it. -/
structure Indexed (s : Stemma K E O X) [DecidableEq K] [DecidableEq O] : Prop where
  entries : ∀ key e, s.entryIndex.lookup key = some e ↔
    ∃ entry, s.entries.get e = some entry ∧ entry.key = key
  owners : ∀ identity o, s.ownerIndex.lookup identity = some o ↔
    ∃ owner, s.owners.get o = some owner ∧ owner.identity = identity

theorem index_iff {A V : Type} [DecidableEq A] (m : SlotMap V) (key : V → A)
    (index : AList (fun _ : A => Nat)) :
    (∀ a k, index.lookup a = some k ↔ ∃ v, m.get k = some v ∧ key v = a) ↔
      (∀ q ∈ m.toList, index.lookup (key q.2) = some q.1) ∧
        ∀ q ∈ index.entries, (m.get q.2).any (fun v => decide (key v = q.1)) := by
  constructor
  · intro h
    refine ⟨?_, ?_⟩
    · rintro ⟨k, v⟩ hq
      exact (h (key v) k).mpr ⟨v, (m.mem_toList k v).mp hq, rfl⟩
    · rintro ⟨a, k⟩ hq
      obtain ⟨v, hv, hkey⟩ := (h a k).mp (AList.mem_lookup_iff.mpr hq)
      simp [hv, hkey]
  · rintro ⟨hto, hfrom⟩ a k
    constructor
    · intro hlook
      have hany := hfrom ⟨a, k⟩ (AList.mem_lookup_iff.mp hlook)
      rw [Option.any_eq_true_iff_get] at hany
      obtain ⟨hsome, hkey⟩ := hany
      exact ⟨_, (Option.some_get hsome).symm, of_decide_eq_true hkey⟩
    · rintro ⟨v, hv, rfl⟩
      exact hto (k, v) ((m.mem_toList k v).mpr hv)

instance [DecidableEq K] [DecidableEq O] (s : Stemma K E O X) : Decidable (Indexed s) :=
  decidable_of_iff (((∀ q ∈ s.entries.toList, s.entryIndex.lookup q.2.key = some q.1) ∧
      ∀ q ∈ s.entryIndex.entries, (s.entries.get q.2).any (fun v => decide (v.key = q.1))) ∧
    ((∀ q ∈ s.owners.toList, s.ownerIndex.lookup q.2.identity = some q.1) ∧
      ∀ q ∈ s.ownerIndex.entries, (s.owners.get q.2).any (fun v => decide (v.identity = q.1))))
    ⟨fun h => ⟨(index_iff _ _ _).mpr h.1, (index_iff _ _ _).mpr h.2⟩,
      fun h => ⟨(index_iff _ _ _).mp h.entries, (index_iff _ _ _).mp h.owners⟩⟩

theorem walk_bijOn {V W : Type} (m : SlotMap V) (order : Shuffle (Nat × V)) {m' : SlotMap W}
    {f : Nat × V → W} (h : ∀ k, m'.get k = ((order.order m.toList)[k]?).map f) :
    Set.BijOn (number (order.order m.toList)) {k | m.contains k} {k | m'.contains k} := by
  obtain ⟨hd, -, hkeys⟩ := shuffle_spec m order
  have hbij := number_bijOn hd
  have hdom : {k | k ∈ (order.order m.toList).map Prod.fst} = {k | (m.contains k : Prop)} :=
    Set.ext fun k => hkeys k
  have hran : {k | k < (order.order m.toList).length} = {k | (m'.contains k : Prop)} := by
    refine Set.ext fun k => ?_
    change k < _ ↔ (m'.get k).isSome = true
    rw [h]
    simp
  rwa [hdom, hran] at hbij

theorem walk_get {V W : Type} (m : SlotMap V) (order : Shuffle (Nat × V)) {m' : SlotMap W}
    {f : Nat × V → W} (h : ∀ k, m'.get k = ((order.order m.toList)[k]?).map f) {k : Nat} {v : V}
    (hv : m.get k = some v) : m'.get (number (order.order m.toList) k) = some (f (k, v)) := by
  obtain ⟨hd, hmem, -⟩ := shuffle_spec m order
  rw [h, getElem?_number hd ((hmem k v).mpr hv), map_some]

theorem walk_index {A V : Type} [DecidableEq A] (m : SlotMap V) (order : Shuffle (Nat × V))
    (key : V → A) (index : AList (fun _ : A => Nat))
    (hindex : ∀ a k, index.lookup a = some k ↔ ∃ v, m.get k = some v ∧ key v = a) (a : A) :
    (indexAll 0 ∅ ((order.order m.toList).map (fun q => key q.2))).lookup a =
      (index.lookup a).map (number (order.order m.toList)) := by
  obtain ⟨hd, hmem, -⟩ := shuffle_spec m order
  have hnodup : ((order.order m.toList).map (fun q => key q.2)).Nodup := by
    refine List.Nodup.map_on ?_ (List.Nodup.of_map _ hd)
    rintro ⟨k, v⟩ hq ⟨k', v'⟩ hq' heq
    have hk := (hindex (key v) k).mpr ⟨v, (hmem k v).mp hq, rfl⟩
    have hk' := (hindex (key v) k').mpr ⟨v', (hmem k' v').mp hq', heq.symm⟩
    obtain rfl := Option.some.inj (hk.symm.trans hk')
    rw [Option.some.inj (((hmem k v).mp hq).symm.trans ((hmem k v').mp hq'))]
  rw [lookup_indexAll 0 ∅ _ hnodup]
  cases hlook : index.lookup a with
  | none =>
    rw [if_neg, AList.lookup_empty, Option.map_none]
    intro hin
    obtain ⟨⟨k, v⟩, hq, hkey⟩ := List.mem_map.mp hin
    rw [(hindex a k).mpr ⟨v, (hmem k v).mp hq, hkey⟩] at hlook
    simp at hlook
  | some k =>
    obtain ⟨v, hv, rfl⟩ := (hindex a k).mp hlook
    have hat := getElem?_number hd ((hmem k v).mpr hv)
    obtain ⟨hlt, hget⟩ := List.getElem?_eq_some_iff.mp hat
    have hidx := hnodup.idxOf_getElem (number (order.order m.toList) k) (by simpa using hlt)
    rw [List.getElem_map, hget] at hidx
    have hin : key v ∈ (order.order m.toList).map (fun q => key q.2) :=
      List.mem_map.mpr ⟨(k, v), (hmem k v).mpr hv, rfl⟩
    rw [if_pos hin, hidx, Nat.zero_add, map_some]

theorem visit_carried {s : Stemma K E O X} (hs : Intact s) (walk : Walk K E O X) {v : VisitId}
    {visit : VisitRecord X} (hv : s.visits.get v = some visit) (ε φ : Nat → Nat) :
    visit.Carried ε φ (number (ownerWalk walk s))
      (visit.renamed ε φ (number (ownerWalk walk s)) (walk.bindings v)) := by
  refine ⟨rfl, rfl, rfl, rfl, rfl, rfl, ?_⟩
  intro o' b'
  have hperm := (walk.bindings v).perm visit.bindings.toList
  have hnodup : ((((walk.bindings v).order visit.bindings.toList).map (fun q =>
      ((number (ownerWalk walk s) q.1, ⟨q.2.forwardChild.map φ, q.2.lastAccessedAtMs⟩) :
        OwnerId × OwnerBinding))).map Prod.fst).Nodup := by
    have hkeys : (((walk.bindings v).order visit.bindings.toList).map Prod.fst).Nodup :=
      (hperm.map Prod.fst).nodup_iff.mpr (OrdMap.toList_keys_nodup visit.bindings)
    rw [map_map]
    change (((walk.bindings v).order visit.bindings.toList).map
      (number (ownerWalk walk s) ∘ Prod.fst)).Nodup
    rw [← map_map]
    refine List.Nodup.map_on ?_ hkeys
    intro a ha b _ hab
    have hlive : a ∈ (ownerWalk walk s).map Prod.fst := by
      obtain ⟨q, hq, rfl⟩ := List.mem_map.mp ha
      exact ((shuffle_spec s.owners walk.owners).2.2 q.1).mpr
        (hs.holder v visit q.1 hv (OrdMap.mem_of_getElem? (binding_of_walk hq)))
    exact (List.idxOf_inj hlive).mp hab
  refine (OrdMap.getElem?_insertMany_iff ∅ _ o' b' hnodup ExtTreeMap.getElem?_empty).trans ?_
  simp only [mem_map, hperm.mem_iff, Prod.exists, Prod.mk.injEq,
    ExtTreeMap.mem_toList_iff_getElem?_eq_some]
  exact ⟨fun ⟨o, b, h, ho, hb⟩ => ⟨o, b, h, ho.symm, hb.symm⟩,
    fun ⟨o, b, h, ho, hb⟩ => ⟨o, b, h, ho.symm, hb.symm⟩⟩

theorem owner_carried (owner : OwnerRecord O) (φ ω : Nat → Nat) (order : Shuffle VisitId) :
    owner.Carried φ ω (owner.renamed φ ω order) := by
  refine ⟨rfl, rfl, rfl, rfl, rfl, ?_⟩
  intro v'
  simp only [OwnerRecord.renamed, ExtTreeSet.mem_ofList, List.contains_iff_mem, mem_map,
    (order.perm _).mem_iff, ExtTreeSet.mem_toList]
  exact exists_congr fun v => and_congr_right fun _ => eq_comm

theorem snapshot_round_trip [DecidableEq K] [DecidableEq O] {s : Stemma K E O X} (hs : Intact s)
    (hi : Indexed s) (walk : Walk K E O X) :
    ∃ snapshot s', s.toSnapshot walk = some snapshot ∧ fromSnapshot snapshot = some s' ∧
      ∃ ε φ ω, Isomorphic ε φ ω s s' := by
  obtain ⟨visits, owners, hrun, hvisits, howners⟩ := fromSnapshot_spec hs walk
  have hentries : ∀ k, (SlotMap.insertAll {} ((entryWalk walk s).map Prod.snd)).get k =
      ((walk.entries.order s.entries.toList)[k]?).map Prod.snd := by
    intro k
    rw [SlotMap.get_insertAll_empty, List.getElem?_map]
    rfl
  refine ⟨_, _, toSnapshot_eq hs walk, hrun, number (entryWalk walk s), number (visitWalk walk s),
    number (ownerWalk walk s), ?_⟩
  refine ⟨walk_bijOn s.entries walk.entries hentries, walk_bijOn s.visits walk.visits hvisits,
    walk_bijOn s.owners walk.owners howners, ?_, ?_, ?_, ?_, ?_⟩
  · intro e entry he
    exact walk_get s.entries walk.entries hentries he
  · intro v visit hv
    exact ⟨_, walk_get s.visits walk.visits hvisits hv, visit_carried hs walk hv _ _⟩
  · intro o owner ho
    exact ⟨_, walk_get s.owners walk.owners howners ho, owner_carried owner _ _ _⟩
  · exact walk_index s.entries walk.entries EntryRecord.key s.entryIndex hi.entries
  · exact walk_index s.owners walk.owners OwnerRecord.identity s.ownerIndex hi.owners

def spawnedTree : List (Op String Unit String Unit) :=
  [.ensureOwner "x" none, .resolveOrCreateEntry "a" () 1 .localOnly,
    .resolveOrCreateEntry "b" () 2 .shared, .visitEntry 0 0 () .urlTyped 10,
    .ensureOwner "y" (some 0), .visitEntry 1 1 () .tabSpawn 30, .back 1 1 40]

def inOrder : Walk K E O X :=
  ⟨.same _, .same _, .same _, fun _ => .same _, fun _ => .same _⟩

theorem snapshot_round_trip_spawnedTree : ∃ s, runs apply new spawnedTree = some s ∧
    s.visits.size = 2 ∧ s.owners.size = 2 ∧
    ∃ snapshot s', s.toSnapshot inOrder = some snapshot ∧ fromSnapshot snapshot = some s' ∧
      ∃ ε φ ω, Isomorphic ε φ ω s s' :=
  ⟨_, rfl, by decide, by decide, snapshot_round_trip (by decide) (by decide) inOrder⟩

end Mere.Stemma
