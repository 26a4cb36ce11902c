import Mere.Stemma.Mutations
import Mere.Base.Run

/-!
# What moving is made of

`adopt_visit`, `visit_entry`, `back`, `forward` and `reset_owner` are chains of five small
writes. What all five keep, these mutators keep.
-/

open Std (ExtTreeSet)

namespace Mere.Stemma

variable {K E O X : Type} (s : Stemma K E O X) (ownerId : OwnerId)

/-! ## The writes -/

def enterVisit (visitId : VisitId) (atMs : Nat) : Stemma K E O X :=
  { s with
    visits := s.visits.modify visitId (fun visit => visit.bind ownerId atMs id)
    owners := s.owners.modify ownerId (fun owner => owner.enter visitId) }

def growVisit (entryId : EntryId) (context : X) (transition : TransitionKind) (atMs : Nat) :
    Stemma K E O X :=
  let (parent, s) := s.takeParent ownerId
  (s.insertVisit entryId parent context transition atMs).countVisit entryId atMs

inductive Move (s : Stemma K E O X) : Stemma K E O X → Prop
  | point {ownerId : OwnerId} {v c : VisitId} {atMs : Nat} :
      s.owners.contains ownerId → (s.lists v c ∨ s.parentOf c = some v) →
      Move s (s.pointForward v ownerId c atMs)
  | enter {ownerId : OwnerId} {v : VisitId} {atMs : Nat} :
      s.owners.contains ownerId → s.visits.contains v → Move s (s.enterVisit ownerId v atMs)
  | grow {ownerId : OwnerId} {e : EntryId} {context : X} {transition : TransitionKind} {atMs : Nat} :
      s.owners.contains ownerId → s.entries.contains e →
      Move s (s.growVisit ownerId e context transition atMs)
  | origin {ownerId : OwnerId} {v : VisitId} :
      s.current ownerId = some v → Move s (s.setOrigin ownerId v)
  | clear {ownerId : OwnerId} {owner : OwnerRecord O} :
      s.owners.get ownerId = some owner →
      Move s ((s.release ownerId owner.ownedVisits.toList).clearOwner ownerId)

abbrev Moves (s' : Stemma K E O X) : Prop := Relation.ReflTransGen Move s s'

theorem pointForward_eq (v : VisitId) (ownerId : OwnerId) (c : VisitId) (atMs : Nat) :
    s.pointForward v ownerId c atMs =
      { s with visits := s.visits.modify v (fun visit =>
        visit.bind ownerId atMs (forwardTo (some c))) } := by
  unfold pointForward ensureBinding SlotMap.contains
  cases hv : s.visits.get v with
  | none => simp [SlotMap.modify_of_none _ hv]
  | some visit => simp

variable {s : Stemma K E O X} {ownerId : OwnerId} {v : VisitId} {atMs : Nat} {e : EntryId}

theorem bindOwnerToVisit_ok
    (ho : s.owners.contains ownerId) (hv : s.visits.contains v) (atMs : Nat) :
    s.bindOwnerToVisit ownerId v atMs = (.ok (), s.enterVisit ownerId v atMs) := by
  simp [bindOwnerToVisit, ensureBinding, ho, hv, enterVisit]

theorem bindOwnerToVisit_cases (s : Stemma K E O X) (ownerId : OwnerId) (v : VisitId) (atMs : Nat) :
    (s.owners.contains ownerId ∧ s.visits.contains v ∧
      s.bindOwnerToVisit ownerId v atMs = (.ok (), s.enterVisit ownerId v atMs)) ∨
    ∃ e, s.bindOwnerToVisit ownerId v atMs = (.error e, s) := by
  by_cases ho : s.owners.contains ownerId
  · by_cases hv : s.visits.contains v
    · exact .inl ⟨ho, hv, bindOwnerToVisit_ok ho hv atMs⟩
    · exact .inr ⟨_, by unfold bindOwnerToVisit; simp [ho, hv]; rfl⟩
  · exact .inr ⟨_, by unfold bindOwnerToVisit; simp [ho]; rfl⟩

theorem bindOwnerToVisit_moves (s : Stemma K E O X) (ownerId : OwnerId) (v : VisitId) (atMs : Nat) :
    Moves s (s.bindOwnerToVisit ownerId v atMs).2 := by
  rcases bindOwnerToVisit_cases s ownerId v atMs with ⟨ho, hv, h⟩ | ⟨e, h⟩
  · rw [h]
    exact .single (.enter ho hv)
  · rw [h]

theorem moves_bound {s₁ s' : Stemma K E O X}
    {r : Except StemmaError Unit} (h : Moves s s₁)
    (hb : s₁.bindOwnerToVisit ownerId v atMs = (r, s')) : Moves s s' := by
  have hbind := bindOwnerToVisit_moves s₁ ownerId v atMs
  rw [hb] at hbind
  exact h.trans hbind

/-! ## The mutators -/

theorem adoptVisit_moves (s : Stemma K E O X) (ownerId : OwnerId) (v : VisitId) (atMs : Nat) :
    Moves s (s.adoptVisit ownerId v atMs).2 := by
  unfold adoptVisit
  by_cases ho : s.owners.contains ownerId
  · by_cases hv : s.visits.contains v
    · simp only [ho, hv, Bool.not_true, Bool.false_eq_true, if_false]
      split <;> rename_i hb <;> refine moves_bound ?_ hb <;> split
      all_goals first
        | exact .refl
        | split
          · exact .single (.point ho (.inl (by assumption)))
          · exact .refl
    · simp [ho, hv, Relation.ReflTransGen.refl]
  · simp [ho, Relation.ReflTransGen.refl]

theorem rounds_moves {round : Stemma K E O X → Option (Outcome K E O X VisitId)}
    (hround : ∀ s r s', round s = some (r, s') → Moves s s') (n : Nat) (movedTo : Option VisitId)
    (s : Stemma K E O X) : Moves s (rounds round n movedTo s).2 := by
  induction n generalizing movedTo s with
  | zero => exact .refl
  | succ n ih =>
    unfold rounds
    split
    · exact .refl
    · exact hround _ _ _ (by assumption)
    · exact (hround _ _ _ (by assumption)).trans (ih _ _)

theorem backRound_moves (ownerId : OwnerId) (atMs : Nat) (s : Stemma K E O X)
    (r : Except StemmaError VisitId) (s' : Stemma K E O X)
    (h : backRound ownerId atMs s = some (r, s')) : Moves s s' := by
  unfold backRound at h
  cases hc : s.current ownerId with
  | none => simp [hc] at h
  | some currentId =>
    cases hp : s.parentOf currentId with
    | none => simp [hc, hp] at h
    | some parentId =>
      have ho : s.owners.contains ownerId := by
        obtain ⟨owner, howner, -⟩ := Option.bind_eq_some_iff.mp hc
        exact s.owners.contains_of_get howner
      have hpoint : Moves s (s.pointForward parentId ownerId currentId atMs) :=
        .single (.point ho (.inr hp))
      simp only [hc, hp] at h
      split at h <;> rename_i hb <;>
        obtain ⟨-, rfl⟩ := Prod.mk.inj (Option.some.inj h) <;> exact moves_bound hpoint hb

theorem forwardRound_moves (ownerId : OwnerId) (atMs : Nat) (s : Stemma K E O X)
    (r : Except StemmaError VisitId) (s' : Stemma K E O X)
    (h : forwardRound ownerId atMs s = some (r, s')) : Moves s s' := by
  unfold forwardRound at h
  cases hc : s.current ownerId with
  | none => simp [hc] at h
  | some currentId =>
    cases hn : (s.bindingOf currentId ownerId).bind OwnerBinding.forwardChild with
    | none => simp [hc, hn] at h
    | some nextId =>
      simp only [hc, hn] at h
      split at h <;> rename_i hb <;>
        obtain ⟨-, rfl⟩ := Prod.mk.inj (Option.some.inj h) <;> exact moves_bound .refl hb

theorem back_moves (s : Stemma K E O X) (ownerId : OwnerId) (steps atMs : Nat) :
    Moves s (s.back ownerId steps atMs).2 := by
  unfold back
  split
  · exact .refl
  · exact rounds_moves (backRound_moves ownerId atMs) _ _ _

theorem forward_moves (s : Stemma K E O X) (ownerId : OwnerId) (steps atMs : Nat) :
    Moves s (s.forward ownerId steps atMs).2 := by
  unfold forward
  split
  · exact .refl
  · exact rounds_moves (forwardRound_moves ownerId atMs) _ _ _

/-! ## New visits -/

def parentFor (s : Stemma K E O X) (ownerId : OwnerId) : Option VisitId := (s.takeParent ownerId).1

/-- The owner's binding on the parent of its new visit, if there is one. -/
def pointFrom (s : Stemma K E O X) (parent : Option VisitId) (ownerId : OwnerId) (c : VisitId)
    (atMs : Nat) : Stemma K E O X :=
  match parent with
  | some parentId => s.pointForward parentId ownerId c atMs
  | none => s

theorem pointFrom_eq (s : Stemma K E O X) (parent : Option VisitId) (ownerId : OwnerId)
    (c : VisitId)
    (atMs : Nat) : ∃ visits, s.pointFrom parent ownerId c atMs = { s with visits } ∧
      ∀ v, (visits.get v).isSome = (s.visits.get v).isSome := by
  cases parent with
  | none => exact ⟨s.visits, rfl, fun _ => rfl⟩
  | some p =>
    refine ⟨_, pointForward_eq s p ownerId c atMs, ?_⟩
    intro v
    rw [SlotMap.get_modify]
    split
    · subst v; exact Option.isSome_map
    · rfl

@[simp] theorem takeParent_visits (s : Stemma K E O X) (ownerId : OwnerId) :
    (s.takeParent ownerId).2.visits = s.visits := by
  unfold takeParent
  split <;> rfl

@[simp] theorem takeParent_entries (s : Stemma K E O X) (ownerId : OwnerId) :
    (s.takeParent ownerId).2.entries = s.entries := by
  unfold takeParent
  split <;> rfl

theorem takeParent_owner (s : Stemma K E O X) (ownerId : OwnerId) :
    (s.takeParent ownerId).2.owners.contains ownerId = s.owners.contains ownerId := by
  unfold takeParent
  split
  · rfl
  · exact SlotMap.contains_modify ..

@[simp] theorem insertVisit_owners (s : Stemma K E O X) (e : EntryId) (parent : Option VisitId)
    (context : X) (transition : TransitionKind) (atMs : Nat) :
    (s.insertVisit e parent context transition atMs).owners = s.owners := by
  unfold insertVisit
  split <;> rfl

theorem insertVisit_new (s : Stemma K E O X) (e : EntryId) (parent : Option VisitId)
    (context : X) (transition : TransitionKind) (atMs : Nat) :
    ∃ visit, (s.insertVisit e parent context transition atMs).visits.get s.visits.next = some visit ∧
      visit.parent = parent ∧ visit.inbound = parent.map (fun _ => ⟨transition, atMs⟩) := by
  cases parent with
  | none => exact ⟨_, by simp [insertVisit]; rfl, rfl, rfl⟩
  | some p =>
    by_cases hp : s.visits.next = p
    · exact ⟨_, by simp [insertVisit, hp]; rfl, rfl, rfl⟩
    · exact ⟨_, by simp [insertVisit, hp]; rfl, rfl, rfl⟩

/-- `visit_entry` with its count moved to the front: nothing in between reads an entry. -/
theorem visitEntry_ok
    (ho : s.owners.contains ownerId) (he : s.entries.contains e) (context : X)
    (transition : TransitionKind) (atMs : Nat) :
    s.visitEntry ownerId e context transition atMs = (.ok s.visits.next,
      ((((s.growVisit ownerId e context transition atMs).pointFrom (s.parentFor ownerId) ownerId
        s.visits.next atMs).enterVisit ownerId s.visits.next atMs).setOrigin ownerId
        s.visits.next)) := by
  generalize hg : (s.takeParent ownerId).2.insertVisit e (s.parentFor ownerId) context transition
    atMs = g
  generalize hpoint : g.pointFrom (s.parentFor ownerId) ownerId s.visits.next atMs = pointed
  have hgrow : s.growVisit ownerId e context transition atMs = g.countVisit e atMs := by
    rw [← hg]; rfl
  have hcount : (g.countVisit e atMs).pointFrom (s.parentFor ownerId) ownerId s.visits.next atMs =
      pointed.countVisit e atMs := by
    rw [← hpoint]
    cases s.parentFor ownerId with
    | none => rfl
    | some p => simp only [pointFrom, pointForward_eq, countVisit]
  obtain ⟨visits, hvisits, hlive⟩ := pointFrom_eq g (s.parentFor ownerId) ownerId s.visits.next atMs
  rw [hpoint] at hvisits
  have howner : pointed.owners.contains ownerId := by
    rw [hvisits, ← hg, insertVisit_owners, takeParent_owner]
    exact ho
  have hvisit : pointed.visits.contains s.visits.next := by
    obtain ⟨visit, hnew, -⟩ := insertVisit_new (s.takeParent ownerId).2 e (s.parentFor ownerId)
      context transition atMs
    rw [hg, takeParent_visits] at hnew
    rw [hvisits, SlotMap.contains, hlive, hnew]
    rfl
  rw [hgrow, hcount]
  unfold visitEntry
  simp only [ho, he, Bool.not_true, Bool.false_eq_true, if_false, takeParent_visits]
  have hok := bindOwnerToVisit_ok howner hvisit atMs
  rw [← hpoint, ← hg] at hok
  split <;> rename_i hb <;> have heq := hok.symm.trans hb
  · simp at heq
  · obtain ⟨-, rfl⟩ := Prod.mk.inj heq
    rw [hg, hpoint]
    rfl

theorem growVisit_owner (s : Stemma K E O X) (ownerId : OwnerId) (e : EntryId) (context : X)
    (transition : TransitionKind) (atMs : Nat) :
    (s.growVisit ownerId e context transition atMs).owners.contains ownerId =
      s.owners.contains ownerId := by
  rw [← takeParent_owner s ownerId, ← insertVisit_owners (s.takeParent ownerId).2 e
    (s.takeParent ownerId).1 context transition atMs]
  rfl

theorem growVisit_new (s : Stemma K E O X) (ownerId : OwnerId) (e : EntryId) (context : X)
    (transition : TransitionKind) (atMs : Nat) :
    ∃ visit, (s.growVisit ownerId e context transition atMs).visits.get s.visits.next = some visit ∧
      visit.parent = s.parentFor ownerId ∧
      visit.inbound = (s.parentFor ownerId).map (fun _ => ⟨transition, atMs⟩) := by
  have h := insertVisit_new (s.takeParent ownerId).2 e (s.parentFor ownerId) context transition atMs
  rw [takeParent_visits] at h
  exact h

theorem visitEntry_moves (s : Stemma K E O X) (ownerId : OwnerId) (e : EntryId) (context : X)
    (transition : TransitionKind) (atMs : Nat) :
    Moves s (s.visitEntry ownerId e context transition atMs).2 := by
  by_cases ho : s.owners.contains ownerId
  · by_cases he : s.entries.contains e
    · rw [visitEntry_ok ho he]
      obtain ⟨visit, hnew, hparent, -⟩ := growVisit_new s ownerId e context transition atMs
      have howner := (growVisit_owner s ownerId e context transition atMs).trans ho
      generalize hg : s.growVisit ownerId e context transition atMs = g at hnew howner
      have hgrow : Moves s g := by
        rw [← hg]
        exact .single (.grow ho he)
      have hpoint : Moves g (g.pointFrom (s.parentFor ownerId) ownerId s.visits.next atMs) := by
        cases hp : s.parentFor ownerId with
        | none => exact .refl
        | some p =>
          refine .single (.point howner (.inr ?_))
          simp [parentOf, hnew, hparent, hp]
      obtain ⟨visits, hvisits, hlive⟩ :=
        pointFrom_eq g (s.parentFor ownerId) ownerId s.visits.next atMs
      rw [hvisits] at hpoint ⊢
      have hvisit : visits.contains s.visits.next := by
        rw [SlotMap.contains, hlive, hnew]
        rfl
      refine ((hgrow.trans hpoint).tail (.enter howner hvisit)).tail (.origin ?_)
      obtain ⟨owner, hget⟩ := g.owners.contains_iff.mp howner
      simp [current, enterVisit, OwnerRecord.enter, hget]
    · simp [visitEntry, ho, he, Relation.ReflTransGen.refl]
  · simp [visitEntry, ho, Relation.ReflTransGen.refl]

/-! ## Starting over -/

theorem parentFor_clearOwner (s : Stemma K E O X) (ownerId : OwnerId) :
    (s.clearOwner ownerId).parentFor ownerId = none := by
  unfold parentFor takeParent current clearOwner
  cases h : s.owners.get ownerId <;> simp [h]

theorem visitEntry_rooted {s' : Stemma K E O X} {context : X}
    {transition : TransitionKind} (hp : s.parentFor ownerId = none)
    (h : s.visitEntry ownerId e context transition atMs = (.ok v, s')) :
    { s' with visits := s'.visits.modify v (fun visit =>
      { visit with parent := none, inbound := none }) } = s' := by
  by_cases ho : s.owners.contains ownerId
  · by_cases he : s.entries.contains e
    · rw [visitEntry_ok ho he, hp] at h
      obtain ⟨hv, rfl⟩ := Prod.mk.inj h
      obtain rfl := Except.ok.inj hv
      obtain ⟨visit, hnew, hparent, hinbound⟩ := growVisit_new s ownerId e context transition atMs
      rw [hp] at hparent hinbound
      rw [SlotMap.modify_of_fixed (v := visit.bind ownerId atMs id)]
      · simp [setOrigin, enterVisit, pointFrom, hnew]
      · simp [VisitRecord.bind, hparent, hinbound]
    · simp [visitEntry, ho, he] at h
  · simp [visitEntry, ho] at h

theorem resetOwner_moves (s : Stemma K E O X) (ownerId : OwnerId) (context : X) (atMs : Nat) :
    Moves s (s.resetOwner ownerId context atMs).2 := by
  unfold resetOwner
  cases howner : s.owners.get ownerId with
  | none => exact .refl
  | some owner =>
    cases hcurrent : owner.current with
    | none => simp [hcurrent, Relation.ReflTransGen.refl]
    | some currentId =>
      cases hvisit : s.visits.get currentId with
      | none => simp [hcurrent, hvisit, Relation.ReflTransGen.refl]
      | some visit =>
        simp only [hcurrent, hvisit]
        have hclear : Moves s ((s.release ownerId owner.ownedVisits.toList).clearOwner ownerId) :=
          .single (.clear howner)
        have hparent := parentFor_clearOwner (s.release ownerId owner.ownedVisits.toList) ownerId
        generalize (s.release ownerId owner.ownedVisits.toList).clearOwner ownerId = c at *
        have hmoves := visitEntry_moves c ownerId visit.entry context .restore atMs
        cases hres : c.visitEntry ownerId visit.entry context .restore atMs with
        | mk r s' =>
          rw [hres] at hmoves
          cases r with
          | error e => exact hclear.trans hmoves
          | ok v =>
            simp only
            rw [visitEntry_rooted hparent hres]
            exact hclear.trans hmoves

end Mere.Stemma
