import Mere.Stemma.Bindings

/-!
# The visit forest

Visits form a linked forest over known entries, and each entry counts its visits. Binding
writes do not touch any of this, a new visit is a new leaf.
-/

namespace Mere.Stemma

open Option

variable {K E O X : Type} (s : Stemma K E O X)

/-! ## The forest -/

def entryOf (v : VisitId) : Option EntryId :=
  (s.visits.get v).map VisitRecord.entry

def Counted : Prop :=
  ∀ e entry, s.entries.get e = some entry →
    entry.visitCount = s.visits.count (fun visit => visit.entry == e)

structure Rooted (s : Stemma K E O X) : Prop where
  linked : Forest.Linked s.nodes
  /-- Parents may be gone, but they were visits once. -/
  named : ∀ v p, s.parentOf v = some p → p < s.visits.next
  entry : ∀ v e, s.entryOf v = some e → s.entries.contains e
  counted : Counted s

/-- Where an owner stands or will start was a visit once. -/
def Known : Prop :=
  ∀ o owner v, s.owners.get o = some owner →
    (owner.current = some v ∨ owner.pendingOriginParent = some v) → v < s.visits.next

variable {s s' : Stemma K E O X}

theorem Rebound.nodes (h : Rebound s.visits s'.visits) :
    s'.nodes = s.nodes := funext fun v => h.map v VisitRecord.link (fun _ => rfl)

theorem Rooted.rebound (hs : Rooted s) (h : Rebound s.visits s'.visits)
    (he : s'.entries = s.entries) : Rooted s' := by
  refine ⟨?_, ?_, ?_, ?_⟩
  · rw [h.nodes]; exact hs.linked
  · intro v p hp
    rw [parentOf_eq, h.nodes, ← parentOf_eq] at hp
    rw [h.next]
    exact hs.named v p hp
  · intro v e hv
    rw [he]
    exact hs.entry v e ((h.map v VisitRecord.entry (fun _ => rfl)).symm.trans hv)
  · intro e entry hentry
    rw [he] at hentry
    rw [hs.counted e entry hentry]
    exact (SlotMap.count_congr _ _ (fun v => h.map v _ (fun _ => rfl))).symm

theorem pointed_child (hs : Rooted s) {v c : VisitId} (hv : s.visits.contains v)
    (hc : s.lists v c ∨ s.parentOf c = some v) : Forest.Child s.nodes v c := by
  rcases hc with hc | hc
  · exact (s.lists_iff v c).mp hc
  · obtain ⟨lv, hlv⟩ := contains_iff_node.mp hv
    obtain ⟨l, hl, hp⟩ := parentOf_iff.mp hc
    exact ⟨lv, hlv, hs.linked.listed c l v lv hl hp hlv⟩

/-! ## A new leaf -/

theorem Known.parentFor (hs : Known s) {ownerId : OwnerId} {p : VisitId}
    (h : s.parentFor ownerId = some p) : p < s.visits.next := by
  unfold Stemma.parentFor takeParent at h
  split at h
  · rename_i c hc
    obtain rfl := some.inj h
    obtain ⟨owner, howner, hcur⟩ := bind_eq_some_iff.mp hc
    exact hs ownerId owner c howner (.inl hcur)
  · obtain ⟨owner, howner, hpend⟩ := bind_eq_some_iff.mp h
    exact hs ownerId owner p howner (.inr hpend)

section
variable (s : Stemma K E O X) (e : EntryId) (parent : Option VisitId) (context : X)
  (transition : TransitionKind) (atMs : Nat)

@[simp] theorem insertVisit_next :
    (s.insertVisit e parent context transition atMs).visits.next = s.visits.next + 1 := by
  unfold insertVisit
  split <;> rfl

@[simp] theorem insertVisit_entries :
    (s.insertVisit e parent context transition atMs).entries = s.entries := by
  unfold insertVisit
  split <;> rfl

theorem insertVisit_grafted (h : Rooted s) (hp : ∀ p, parent = some p → p < s.visits.next) :
    Forest.Grafted s.nodes (s.insertVisit e parent context transition atMs).nodes s.visits.next
      parent := by
  have hne : parent ≠ some s.visits.next := fun h => lt_irrefl _ (hp _ h)
  refine ⟨?_, ?_, hne, ?_, ?_, ?_⟩
  · simp [nodes, SlotMap.get_next]
  · intro v l hv hparent
    exact lt_irrefl _ (h.named v s.visits.next (parentOf_iff.mpr ⟨l, hv, hparent⟩))
  · cases parent with
    | none => simp [nodes, insertVisit, VisitRecord.link]
    | some p =>
      have : s.visits.next ≠ p := fun h => hne (by rw [h])
      simp [nodes, insertVisit, VisitRecord.link, this]
  · intro v hv hother
    cases parent with
    | none => simp [nodes, insertVisit, hv]
    | some p =>
      have : v ≠ p := fun h => hother (by rw [h])
      simp [nodes, insertVisit, hv, this]
  · intro v hv hlists
    subst hlists
    simp [nodes, insertVisit, hv, map_map, Function.comp_def, VisitRecord.link]

theorem insertVisit_entryOf (v : VisitId) :
    (s.insertVisit e parent context transition atMs).entryOf v =
      if v = s.visits.next then some e else s.entryOf v := by
  cases parent with
  | none =>
    simp only [entryOf, insertVisit, SlotMap.get_insert]
    split <;> rfl
  | some p =>
    simp only [entryOf, insertVisit, SlotMap.get_modify, SlotMap.get_insert]
    by_cases hv : v = p
    · subst hv
      rw [if_pos rfl, map_map]
      split <;> rfl
    · rw [if_neg hv]
      split <;> rfl

theorem insertVisit_bindingOf (v : VisitId) (o : OwnerId) :
    (s.insertVisit e parent context transition atMs).bindingOf v o = s.bindingOf v o := by
  have hnew : (s.visits.get s.visits.next) = none := s.visits.get_next
  cases parent with
  | none => by_cases hv : v = s.visits.next <;> simp [bindingOf, insertVisit, hv, hnew]
  | some p =>
    by_cases hv : v = s.visits.next <;> by_cases hp : v = p <;>
      simp_all [bindingOf, insertVisit, bind_map]

theorem insertVisit_count (e' : EntryId) :
    (s.insertVisit e parent context transition atMs).visits.count (fun visit => visit.entry == e') =
      s.visits.count (fun visit => visit.entry == e') + if e = e' then 1 else 0 := by
  have hinsert : ∀ visit : VisitRecord X, visit.entry = e →
      (s.visits.insert visit).count (fun visit => visit.entry == e') =
        s.visits.count (fun visit => visit.entry == e') + if e = e' then 1 else 0 := by
    intro visit hv
    rw [SlotMap.count_insert, hv]
    simp only [beq_iff_eq]
  cases parent with
  | none => exact hinsert _ rfl
  | some p =>
    refine Eq.trans ?_ (hinsert
      ⟨e, some p, [], atMs, context, some ⟨transition, atMs⟩, ∅⟩ rfl)
    apply SlotMap.count_congr
    intro v
    simp only [insertVisit, map_some]
    rw [SlotMap.get_modify]
    split
    · subst v
      rw [map_map]
      rfl
    · rfl

end

theorem Rooted.grow {s : Stemma K E O X} (h : Rooted s) {e : EntryId} {parent : Option VisitId}
    (hp : ∀ p, parent = some p → p < s.visits.next) (he : s.entries.contains e) (context : X)
    (transition : TransitionKind) (atMs : Nat) :
    Rooted ((s.insertVisit e parent context transition atMs).countVisit e atMs) := by
  have hgraft := insertVisit_grafted s e parent context transition atMs h hp
  have hlive : ∀ e', s.entries.contains e' →
      ((s.insertVisit e parent context transition atMs).countVisit e atMs).entries.contains e' := by
    intro e' he'
    simp only [countVisit, insertVisit_entries, SlotMap.contains_modify]
    exact he'
  refine ⟨h.linked.graft hgraft, ?_, ?_, ?_⟩
  · intro v p hv
    change p < (s.insertVisit e parent context transition atMs).visits.next
    rw [insertVisit_next]
    apply Nat.lt_succ_of_lt
    obtain ⟨l, hl, hpar⟩ := parentOf_iff.mp hv
    by_cases hvn : v = s.visits.next
    · subst hvn
      change (s.insertVisit e parent context transition atMs).nodes _ = some l at hl
      rw [hgraft.leaf] at hl
      rw [← some.inj hl] at hpar
      exact hp p hpar
    · obtain ⟨l', hl', hpar', -⟩ := hgraft.back hl hvn
      exact h.named v p (parentOf_iff.mpr ⟨l', hl', hpar' ▸ hpar⟩)
  · intro v e' hv
    apply hlive
    change (s.insertVisit e parent context transition atMs).entryOf v = some e' at hv
    rw [insertVisit_entryOf] at hv
    split at hv
    · rw [← some.inj hv]; exact he
    · exact h.entry v e' hv
  · intro e' entry hentry
    change entry.visitCount = (s.insertVisit e parent context transition atMs).visits.count _
    rw [insertVisit_count]
    simp only [countVisit, insertVisit_entries, SlotMap.get_modify] at hentry
    by_cases hee : e' = e
    · subst hee
      rw [if_pos rfl] at hentry
      obtain ⟨old, hold, rfl⟩ := map_eq_some_iff.mp hentry
      simp [h.counted e' old hold]
    · rw [if_neg hee] at hentry
      simp [h.counted e' entry hentry, Ne.symm hee]

/-! ## Moves -/

theorem pointForward_rebound (s : Stemma K E O X) (v : VisitId) (ownerId : OwnerId) (c : VisitId)
    (atMs : Nat) : Rebound s.visits (s.pointForward v ownerId c atMs).visits := by
  rw [pointForward_eq]
  exact .modify _ _ (fun _ => rfl)

theorem enterVisit_rebound (s : Stemma K E O X) (ownerId : OwnerId) (v : VisitId) (atMs : Nat) :
    Rebound s.visits (s.enterVisit ownerId v atMs).visits := .modify _ _ (fun _ => rfl)

variable {s : Stemma K E O X}

theorem Rooted.takeParent (h : Rooted s) (ownerId : OwnerId) :
    Rooted (s.takeParent ownerId).2 :=
  h.rebound (by rw [takeParent_visits]; exact .refl _) (takeParent_entries s ownerId)

theorem Rooted.move {s s' : Stemma K E O X} (hk : Known s) (h : Rooted s) (hm : Move s s') :
    Rooted s' := by
  cases hm with
  | @point ownerId v c atMs _ _ =>
    refine h.rebound (pointForward_rebound s v ownerId c atMs) ?_
    rw [pointForward_eq]
  | @enter ownerId v atMs _ _ => exact h.rebound (enterVisit_rebound s ownerId v atMs) rfl
  | @grow ownerId e context transition atMs _ he =>
    apply (h.takeParent ownerId).grow
    · intro p hp
      rw [takeParent_visits]
      exact hk.parentFor hp
    · rw [takeParent_entries]
      exact he
  | origin _ => exact h.rebound (.refl _) rfl
  | @clear ownerId owner _ =>
    exact h.rebound (release_rebound s ownerId owner.ownedVisits.toList) rfl

theorem growVisit_grafted (h : Rooted s) (hk : Known s) (ownerId : OwnerId)
    (e : EntryId) (context : X) (transition : TransitionKind) (atMs : Nat) :
    Forest.Grafted s.nodes (s.growVisit ownerId e context transition atMs).nodes s.visits.next
      (s.parentFor ownerId) := by
  have hgraft := insertVisit_grafted (s.takeParent ownerId).2 e (s.parentFor ownerId) context
    transition atMs (h.takeParent ownerId) (by
      intro p hp
      rw [takeParent_visits]
      exact hk.parentFor hp)
  have hold : (s.takeParent ownerId).2.nodes = s.nodes := by
    unfold nodes
    rw [takeParent_visits]
  rw [hold, takeParent_visits] at hgraft
  exact hgraft

theorem growVisit_owners {ownerId : OwnerId} {e : EntryId} {context : X}
    {transition : TransitionKind} {atMs : Nat} (o : OwnerId) :
    (s.growVisit ownerId e context transition atMs).owners.get o = s.owners.get o ∨
      (s.growVisit ownerId e context transition atMs).owners.get o =
        (s.owners.get o).map (fun owner => { owner with pendingOriginParent := none }) := by
  have h : (s.growVisit ownerId e context transition atMs).owners =
      (s.takeParent ownerId).2.owners := insertVisit_owners ..
  rw [h]
  unfold Stemma.takeParent
  split
  · exact .inl rfl
  · by_cases ho : o = ownerId
    · subst ho
      exact .inr (by simp)
    · exact .inl (by simp [ho])

theorem growVisit_bindingOf (s : Stemma K E O X) (ownerId : OwnerId) (e : EntryId) (context : X)
    (transition : TransitionKind) (atMs : Nat) (v : VisitId) (o : OwnerId) :
    (s.growVisit ownerId e context transition atMs).bindingOf v o = s.bindingOf v o := by
  refine (insertVisit_bindingOf (s.takeParent ownerId).2 e (s.parentFor ownerId) context transition
    atMs v o).trans ?_
  rw [bindingOf, takeParent_visits]
  rfl

theorem Known.mono {s' : Stemma K E O X} (h : Known s) (hnext : s.visits.next ≤ s'.visits.next)
    (ho : ∀ o owner' v, s'.owners.get o = some owner' →
      (owner'.current = some v ∨ owner'.pendingOriginParent = some v) →
      s'.visits.contains v ∨ ∃ owner, s.owners.get o = some owner ∧
        (owner.current = some v ∨ owner.pendingOriginParent = some v)) : Known s' := by
  intro o owner' v howner hv
  rcases ho o owner' v howner hv with hlive | ⟨owner, hold, hv⟩
  · obtain ⟨visit, hvisit⟩ := SlotMap.contains_iff _ |>.mp hlive
    exact s'.visits.lt_next hvisit
  · exact lt_of_lt_of_le (h o owner v hold hv) hnext

theorem Known.move {s s' : Stemma K E O X} (h : Known s) (hm : Move s s') : Known s' := by
  cases hm with
  | @point ownerId v c atMs _ _ =>
    rw [pointForward_eq]
    exact h.mono le_rfl (fun o owner' v howner hv => .inr ⟨owner', howner, hv⟩)
  | @enter ownerId v atMs _ hv =>
    refine h.mono le_rfl ?_
    intro o owner' u howner hu
    obtain ⟨owner, hold, ⟨-, rfl⟩ | ⟨-, rfl⟩⟩ := SlotMap.get_of_modify _ howner
    · rcases hu with hu | hu
      · obtain rfl := some.inj hu
        exact .inl (by rw [enterVisit, SlotMap.contains_modify]; exact hv)
      · exact .inr ⟨owner, hold, .inr hu⟩
    · exact .inr ⟨owner', hold, hu⟩
  | @grow ownerId e context transition atMs _ _ =>
    refine h.mono ?_ ?_
    · change _ ≤ ((s.takeParent ownerId).2.insertVisit e _ context transition atMs).visits.next
      rw [insertVisit_next, takeParent_visits]
      omega
    · intro o owner' u howner hu
      change ((s.takeParent ownerId).2.insertVisit e _ context transition atMs).owners.get o =
        some owner' at howner
      rw [insertVisit_owners] at howner
      unfold Stemma.takeParent at howner
      split at howner
      · exact .inr ⟨owner', howner, hu⟩
      · obtain ⟨owner, hold, ⟨-, rfl⟩ | ⟨-, rfl⟩⟩ := SlotMap.get_of_modify _ howner
        · rcases hu with hu | hu
          · exact .inr ⟨owner, hold, .inl hu⟩
          · simp at hu
        · exact .inr ⟨owner', hold, hu⟩
  | @origin ownerId v _ =>
    refine h.mono le_rfl ?_
    intro o owner' u howner hu
    obtain ⟨owner, hold, ⟨-, rfl⟩ | ⟨-, rfl⟩⟩ := SlotMap.get_of_modify _ howner
    · refine .inr ⟨owner, hold, ?_⟩
      split at hu <;> exact hu
    · exact .inr ⟨owner', hold, hu⟩
  | @clear ownerId owner _ =>
    refine h.mono (release_rebound s ownerId owner.ownedVisits.toList).next.ge ?_
    intro o owner' u howner hu
    obtain ⟨old, hold, ⟨-, rfl⟩ | ⟨-, rfl⟩⟩ := SlotMap.get_of_modify _ howner
    · simp at hu
    · exact .inr ⟨owner', hold, hu⟩

end Mere.Stemma
