import Mere.Stemma.Collect

/-!
# What a call can do

Every call on a stemma whose visits form a forest returns, and does one of six things. The
forest, and that owners point at what was a visit once, survive all of them.
-/

open Std (ExtTreeSet)

namespace Mere.Stemma

open Forest Option

variable {K E O X : Type} [DecidableEq K] [DecidableEq O]

def spawned (s : Stemma K E O X) (identity : O) (creator : Option OwnerId) : OwnerRecord O :=
  { identity, origin := none, current := none, creator, pendingOriginParent := creator.bind s.current,
    ownedVisits := ∅ }

inductive Change (s : Stemma K E O X) : Op K E O X → Stemma K E O X → Prop
  | moves {op : Op K E O X} {s' : Stemma K E O X} : Moves s s' → Change s op s'
  | owner {identity : O} {creator : Option OwnerId} : s.ownerIndex.lookup identity = none →
      Change s (.ensureOwner identity creator) { s with
        owners := s.owners.insert (s.spawned identity creator)
        ownerIndex := s.ownerIndex.insert identity s.owners.next }
  | refresh {op : Op K E O X} {id : EntryId} {f : EntryRecord K E → EntryRecord K E} :
      (∀ entry, (f entry).visitCount = entry.visitCount) →
      Change s op { s with entries := s.entries.modify id f }
  | entry {op : Op K E O X} {key : K} {entry : EntryRecord K E} : entry.visitCount = 0 →
      Change s op { s with
        entries := s.entries.insert entry
        entryIndex := s.entryIndex.insert key s.entries.next }
  | delete {ownerId : OwnerId} {owned roots : Shuffle VisitId} {owner : OwnerRecord O}
      {dead : VisitId → Prop} {s' : Stemma K E O X} : s.owners.get ownerId = some owner →
      Whole s.nodes dead → Pruned dead (s.dropOwner ownerId owner.identity) s' →
      (∀ v, dead v → s.Collectable ownerId owner v) →
      Change s (.deleteOwner ownerId owned roots) s'
  | rebind {ownerId : OwnerId} {path : List VisitId} {currentIndex atMs : Nat}
      {owner : OwnerRecord O} {visits : SlotMap (VisitRecord X)} :
      s.owners.get ownerId = some owner → (∀ v ∈ path, s.visits.contains v) →
      Rebound s.visits visits →
      (∀ v o, (o ≠ ownerId ∨ v ∉ path ∧ v ∉ owner.ownedVisits) →
        ({ s with visits } : Stemma K E O X).bindingOf v o = s.bindingOf v o) →
      (∀ v ∈ owner.ownedVisits, v ∉ path →
        ({ s with visits } : Stemma K E O X).bindingOf v ownerId = none) →
      (∀ v ∈ path, ∃ b, ({ s with visits } : Stemma K E O X).bindingOf v ownerId = some b ∧
        ∀ f, b.forwardChild = some f → f ∈ path) →
      Change s (.rebindOwnerToPath ownerId path currentIndex atMs) { s with
        visits
        owners := s.owners.modify ownerId (fun owner => owner.onPath path currentIndex) }

variable {s s' : Stemma K E O X} {op : Op K E O X}

theorem apply_change (hs : Rooted s) (op : Op K E O X) :
    ∃ s', s.apply op = some s' ∧ Change s op s' := by
  cases op with
  | ensureOwner identity creator =>
    refine ⟨_, rfl, ?_⟩
    unfold ensureOwner
    cases h : s.ownerIndex.lookup identity with
    | some id => exact .moves .refl
    | none => exact .owner h
  | resolveOrCreateEntry key payload atMs privacy =>
    refine ⟨_, rfl, ?_⟩
    unfold resolveOrCreateEntry
    cases s.entryIndex.lookup key with
    | some id => exact .refresh (fun _ => rfl)
    | none => exact .entry rfl
  | adoptVisit ownerId v atMs => exact ⟨_, rfl, .moves (adoptVisit_moves s ownerId v atMs)⟩
  | visitEntry ownerId e context transition atMs =>
    exact ⟨_, rfl, .moves (visitEntry_moves s ownerId e context transition atMs)⟩
  | back ownerId steps atMs => exact ⟨_, rfl, .moves (back_moves s ownerId steps atMs)⟩
  | forward ownerId steps atMs => exact ⟨_, rfl, .moves (forward_moves s ownerId steps atMs)⟩
  | resetOwner ownerId context atMs => exact ⟨_, rfl, .moves (resetOwner_moves s ownerId context atMs)⟩
  | deleteOwner ownerId owned roots =>
    cases h : s.owners.get ownerId with
    | none => exact ⟨s, by simp [apply, deleteOwner, h], .moves .refl⟩
    | some owner =>
      obtain ⟨res, s', dead, hrun, hwhole, hpruned, hdead⟩ := deleteOwner_pruned hs h owned roots
      exact ⟨s', by simp [apply, hrun], .delete h hwhole hpruned hdead⟩
  | rebindOwnerToPath ownerId path currentIndex atMs =>
    refine ⟨_, rfl, ?_⟩
    rcases rebindOwnerToPath_cases s ownerId path currentIndex atMs with
      ⟨e, h⟩ | ⟨owner, visits, howner, hlive, h, hbound, hother, hleft, hpath⟩
    · rw [h]; exact .moves .refl
    · rw [h]; exact .rebind howner hlive hbound hother hleft hpath

theorem apply_inv (hs : Rooted s)
    (h : s.apply op = some s') : Change s op s' := by
  obtain ⟨s'', hrun, hchange⟩ := apply_change hs op
  rw [h] at hrun
  rw [some.inj hrun]
  exact hchange

/-! ## The forest survives -/

omit [DecidableEq K] [DecidableEq O] in
theorem Rooted.moves (h : Rooted s ∧ Known s) (hm : Moves s s') :
    Rooted s' ∧ Known s' :=
  keeps_of_chain (P := fun s => Rooted s ∧ Known s)
    (fun _ _ hm h => ⟨h.1.move h.2 hm, h.2.move hm⟩) hm h

omit [DecidableEq K] [DecidableEq O] in
theorem Rooted.refresh (h : Rooted s) {id : EntryId}
    {f : EntryRecord K E → EntryRecord K E} (hf : ∀ entry, (f entry).visitCount = entry.visitCount) :
    Rooted { s with entries := s.entries.modify id f } := by
  refine ⟨h.linked, h.named, ?_, ?_⟩
  · intro v e hv
    rw [SlotMap.contains_modify]
    exact h.entry v e hv
  · intro e entry hentry
    obtain ⟨old, hold, ⟨rfl, rfl⟩ | ⟨-, rfl⟩⟩ := SlotMap.get_of_modify _ hentry
    · rw [hf]; exact h.counted e old hold
    · exact h.counted e entry hold

omit [DecidableEq O] in
theorem Rooted.addEntry (h : Rooted s) (key : K) {entry : EntryRecord K E}
    (hcount : entry.visitCount = 0) :
    Rooted { s with
      entries := s.entries.insert entry
      entryIndex := s.entryIndex.insert key s.entries.next } := by
  refine ⟨h.linked, h.named, ?_, ?_⟩
  · intro v e hv
    have he := h.entry v e hv
    simp only [SlotMap.contains, SlotMap.get_insert] at he ⊢
    split
    · rfl
    · exact he
  · intro e entry' hentry
    simp only [SlotMap.get_insert] at hentry
    split at hentry
    · -- No visit is of an entry that was not there.
      rename_i he
      obtain rfl := some.inj hentry
      rw [hcount]
      refine (SlotMap.count_eq_zero _ _ ?_).symm
      intro v visit hv
      have hlive := h.entry v visit.entry (by rw [entryOf, hv]; rfl)
      obtain ⟨old, hold⟩ := s.entries.contains_iff.mp hlive
      rw [beq_eq_false_iff_ne, he]
      exact (s.entries.lt_next hold).ne
    · exact h.counted e entry' hentry

theorem Rooted.change (h : Rooted s) (hk : Known s)
    (hc : Change s op s') : Rooted s' ∧ Known s' := by
  cases hc with
  | moves hm => exact Rooted.moves ⟨h, hk⟩ hm
  | @owner identity creator _ =>
    refine ⟨h.rebound (.refl _) rfl, ?_⟩
    intro o owner v howner hv
    simp only [SlotMap.get_insert] at howner
    split at howner
    · obtain rfl := some.inj howner
      rcases hv with hv | hv
      · simp [spawned] at hv
      · obtain ⟨c, -, hcur⟩ := bind_eq_some_iff.mp hv
        obtain ⟨cowner, hcowner, hcur⟩ := bind_eq_some_iff.mp hcur
        exact hk c cowner v hcowner (.inl hcur)
    · exact hk o owner v howner hv
  | refresh hf => exact ⟨h.refresh hf, hk⟩
  | entry hcount => exact ⟨h.addEntry _ hcount, hk⟩
  | @delete ownerId owned roots owner dead s' howner hwhole hpruned _ =>
    have hdrop := dropOwner_rebound s ownerId owner.identity
    refine ⟨Rooted.pruned (h.rebound hdrop rfl) (hdrop.nodes.symm ▸ hwhole) hpruned, ?_⟩
    refine hk.mono (hpruned.next.trans hdrop.next).ge ?_
    intro o owner' v howner' hv
    rw [hpruned.owners] at howner'
    simp only [dropOwner, SlotMap.get_remove] at howner'
    split at howner'
    · simp at howner'
    · exact .inr ⟨owner', howner', hv⟩
  | @rebind ownerId path currentIndex atMs owner visits howner hlive hbound _ _ _ =>
    refine ⟨h.rebound hbound rfl, hk.mono hbound.next.ge ?_⟩
    intro o owner' v howner' hv
    obtain ⟨old, hold, ⟨-, rfl⟩ | ⟨-, rfl⟩⟩ := SlotMap.get_of_modify _ howner'
    · rcases hv with hv | hv
      · refine .inl ?_
        rw [hbound.contains]
        exact hlive v (List.mem_of_getElem? hv)
      · simp [OwnerRecord.onPath] at hv
    · exact .inr ⟨owner', hold, hv⟩

omit [DecidableEq K] [DecidableEq O] in
theorem rooted_new : Rooted (new : Stemma K E O X) ∧ Known (new : Stemma K E O X) := by
  refine ⟨⟨⟨?_, ?_, ?_, ?_⟩, ?_, ?_, ?_⟩, ?_⟩
  · intro v l p lp h
    simp [nodes, new] at h
  · intro p lp c h
    simp [nodes, new] at h
  · intro p lp h
    simp [nodes, new] at h
  · intro v l h
    simp [nodes, new] at h
  · intro v p h
    simp [parentOf, new] at h
  · intro v e h
    simp [entryOf, new] at h
  · intro e entry h
    simp [new] at h
  · intro o owner v h
    simp [new] at h

end Mere.Stemma
