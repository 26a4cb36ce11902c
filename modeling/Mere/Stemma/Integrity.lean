import Mere.Stemma.Lineage
import Mere.Stemma.RoundTrip

/-!
# Referential integrity

Bindings hold trees. What is not held that way is an owner's creator and the parent it was spawned
with.
-/

open Std (ExtTreeSet ExtTreeMap)

namespace Mere.Stemma

open Forest List Option

variable {K E O X : Type}

structure Anchored (s : Stemma K E O X) : Prop where
  parents : ∀ v p, s.parentOf v = some p → s.visits.contains p
  holders : ∀ v o, (s.bindingOf v o).isSome → s.owners.contains o
  owned : ∀ o owner v, s.owners.get o = some owner → v ∈ owner.ownedVisits →
    (s.bindingOf v o).isSome
  stands : ∀ o owner v, s.owners.get o = some owner →
    (owner.origin = some v ∨ owner.current = some v) → v ∈ owner.ownedVisits
  forward : ∀ v o b f, s.bindingOf v o = some b → b.forwardChild = some f →
    Child s.nodes v f ∨
      ∃ owner, s.owners.get o = some owner ∧ v ∈ owner.ownedVisits ∧ f ∈ owner.ownedVisits
  creators : ∀ o owner c, s.owners.get o = some owner → owner.creator = some c → s.owners.contains c
  pendings : ∀ o owner p, s.owners.get o = some owner → owner.pendingOriginParent = some p →
    s.visits.contains p

variable {s : Stemma K E O X} {v : VisitId} {o : OwnerId} {s' : Stemma K E O X} {ownerId : OwnerId}
  {owner : OwnerRecord O}

theorem bound_live (h : (s.bindingOf v o).isSome) :
    s.visits.contains v := by
  obtain ⟨b, hb⟩ := isSome_iff_exists.mp h
  obtain ⟨visit, hv, -⟩ := bind_eq_some_iff.mp hb
  exact s.visits.contains_of_get hv

theorem Anchored.current_live (h : Anchored s)
    (hc : s.current o = some v) : s.visits.contains v := by
  obtain ⟨owner, ho, hcur⟩ := bind_eq_some_iff.mp hc
  exact bound_live (h.owned o owner v ho (h.stands o owner v ho (.inr hcur)))

theorem Anchored.parentFor_live (h : Anchored s) {p : VisitId}
    (hp : s.parentFor o = some p) : s.visits.contains p := by
  unfold parentFor takeParent at hp
  split at hp
  · rename_i c hc
    obtain rfl := some.inj hp
    exact h.current_live hc
  · obtain ⟨owner, ho, hpend⟩ := bind_eq_some_iff.mp hp
    exact h.pendings o owner p ho hpend

/-! ## All ids live -/

theorem Anchored.intact (h : Anchored s) (hs : Rooted s) : Intact s := by
  have hchild : ∀ {v c}, Child s.nodes v c → s.visits.contains c := by
    rintro v c ⟨l, hl, hmem⟩
    obtain ⟨lc, hlc, -⟩ := hs.linked.named v l c hl hmem
    exact contains_iff_node.mpr ⟨lc, hlc⟩
  constructor
  · exact fun v visit hv => hs.entry v visit.entry (by rw [entryOf, hv]; rfl)
  · exact fun v visit p hv hp => h.parents v p (by rw [parentOf, hv]; exact hp)
  · exact fun v visit c hv hc => hchild ⟨_, nodes_of_get hv, hc⟩
  · exact fun v visit o hv ho => h.holders v o (by
      rw [bindingOf_of_get hv, ← ExtTreeMap.mem_iff_isSome_getElem?]
      exact ho)
  · intro v visit o b f hv hb hf
    rcases h.forward v o b f ((bindingOf_of_get hv o).trans hb) hf with hc | ⟨owner, ho, -, hmem⟩
    · exact hchild hc
    · exact bound_live (h.owned o owner f ho hmem)
  · exact fun o owner v ho hv => bound_live (h.owned o owner v ho (h.stands o owner v ho (.inl hv)))
  · exact fun o owner v ho hv => bound_live (h.owned o owner v ho (h.stands o owner v ho (.inr hv)))
  · exact h.creators
  · exact h.pendings
  · exact fun o owner v ho hv => bound_live (h.owned o owner v ho hv)

theorem Anchored.known (h : Anchored s) : Known s := by
  intro o owner v ho hv
  have hlive : s.visits.contains v := by
    rcases hv with hv | hv
    · exact bound_live (h.owned o owner v ho (h.stands o owner v ho (.inr hv)))
    · exact h.pendings o owner v ho hv
  obtain ⟨visit, hvisit⟩ := s.visits.contains_iff.mp hlive
  exact s.visits.lt_next hvisit

/-! ## Moves -/

theorem Anchored.forward_own {b : OwnerBinding} {f : VisitId}
    (h : Anchored s) (hget : s.owners.get o = some owner) (hb : s.bindingOf v o = some b)
    (hf : b.forwardChild = some f) :
    Child s.nodes v f ∨ v ∈ owner.ownedVisits ∧ f ∈ owner.ownedVisits := by
  rcases h.forward v o b f hb hf with hc | ⟨old, hold, hmem⟩
  · exact .inl hc
  · rw [hget] at hold
    obtain rfl := some.inj hold
    exact .inr hmem

/-- Where only one owner's record and its bindings change, only they are looked at. -/
theorem Anchored.own {owner' : OwnerRecord O} (h : Anchored s)
    (hget : s.owners.get ownerId = some owner) (hv : Rebound s.visits s'.visits)
    (hbinding : ∀ v o, o ≠ ownerId → s'.bindingOf v o = s.bindingOf v o)
    (howners : ∀ o, s'.owners.get o = if o = ownerId then some owner' else s.owners.get o)
    (hcreator : owner'.creator = owner.creator)
    (hpending : owner'.pendingOriginParent = owner.pendingOriginParent ∨
      owner'.pendingOriginParent = none)
    (howned : ∀ v ∈ owner'.ownedVisits, (s'.bindingOf v ownerId).isSome)
    (hstands : ∀ v, owner'.origin = some v ∨ owner'.current = some v → v ∈ owner'.ownedVisits)
    (hforward : ∀ v b f, s'.bindingOf v ownerId = some b → b.forwardChild = some f →
      Child s.nodes v f ∨ v ∈ owner'.ownedVisits ∧ f ∈ owner'.ownedVisits) : Anchored s' := by
  have hcontains : ∀ o, s.owners.contains o → s'.owners.contains o := by
    intro o ho
    rw [SlotMap.contains, howners]
    split
    · rfl
    · exact ho
  have hrecord : ∀ o record, s'.owners.get o = some record →
      o = ownerId ∧ record = owner' ∨ o ≠ ownerId ∧ s.owners.get o = some record := by
    intro o record ho
    rw [howners] at ho
    split at ho
    · exact .inl ⟨by assumption, (some.inj ho).symm⟩
    · exact .inr ⟨by assumption, ho⟩
  refine ⟨?_, ?_, ?_, ?_, ?_, ?_, ?_⟩
  · intro v p hp
    rw [parentOf_eq, hv.nodes, ← parentOf_eq] at hp
    rw [hv.contains]
    exact h.parents v p hp
  · intro v o hb
    apply hcontains
    by_cases ho : o = ownerId
    · rw [ho]
      exact s.owners.contains_of_get hget
    · exact h.holders v o (hbinding v o ho ▸ hb)
  · intro o record v ho hmem
    rcases hrecord o record ho with ⟨rfl, rfl⟩ | ⟨hne, hold⟩
    · exact howned v hmem
    · rw [hbinding v o hne]
      exact h.owned o record v hold hmem
  · intro o record v ho hstand
    rcases hrecord o record ho with ⟨rfl, rfl⟩ | ⟨-, hold⟩
    · exact hstands v hstand
    · exact h.stands o record v hold hstand
  · intro v o b f hb hf
    rw [hv.nodes]
    by_cases ho : o = ownerId
    · subst ho
      refine (hforward v b f hb hf).imp_right fun hmem => ⟨owner', ?_, hmem⟩
      rw [howners, if_pos rfl]
    · rw [hbinding v o ho] at hb
      refine (h.forward v o b f hb hf).imp_right (Exists.imp fun record => And.imp_left ?_)
      rw [howners, if_neg ho]
      exact id
  · intro o record c ho hc
    apply hcontains
    rcases hrecord o record ho with ⟨rfl, rfl⟩ | ⟨-, hold⟩
    · exact h.creators o owner c hget (hcreator ▸ hc)
    · exact h.creators o record c hold hc
  · intro o record p ho hp
    rw [hv.contains]
    rcases hrecord o record ho with ⟨rfl, rfl⟩ | ⟨-, hold⟩
    · rcases hpending with hsame | hnone
      · exact h.pendings o owner p hget (hsame ▸ hp)
      · rw [hnone] at hp
        cases hp
    · exact h.pendings o record p hold hp

theorem get_modify_of_get
    (hget : s.owners.get ownerId = some owner) (write : OwnerRecord O → OwnerRecord O)
    (o : OwnerId) : (s.owners.modify ownerId write).get o =
      if o = ownerId then some (write owner) else s.owners.get o := by
  rw [SlotMap.get_modify, hget]
  rfl

theorem Anchored.point (h : Anchored s) (hs : Rooted s)
    {v c : VisitId} {atMs : Nat} (ho : s.owners.contains ownerId)
    (hc : s.lists v c ∨ s.parentOf c = some v) : Anchored (s.pointForward v ownerId c atMs) := by
  obtain ⟨owner, hget⟩ := s.owners.contains_iff.mp ho
  have hbinding := bindingOf_write s v ownerId atMs (forwardTo (some c))
  have hbound := pointForward_rebound s v ownerId c atMs
  rw [pointForward_eq] at hbound ⊢
  refine h.own hget hbound ?_ ?_ rfl (.inl rfl) ?_ (fun v => h.stands ownerId owner v hget) ?_
  · intro v' o hne
    rw [hbinding, if_neg fun hcond => hne hcond.2.1]
  · intro o
    split
    · rename_i heq
      rw [heq]
      exact hget
    · rfl
  · intro v' hmem
    rw [hbinding]
    split
    · rfl
    · exact h.owned ownerId owner v' hget hmem
  · intro v' b f hb hf
    rw [hbinding] at hb
    split at hb
    · rename_i hcond
      obtain ⟨rfl, -, hlive⟩ := hcond
      obtain rfl := some.inj hb
      obtain rfl := some.inj hf
      exact .inl (pointed_child hs hlive hc)
    · exact h.forward_own hget hb hf

theorem Anchored.enter (h : Anchored s) {v : VisitId}
    {atMs : Nat} (ho : s.owners.contains ownerId) (hv : s.visits.contains v) :
    Anchored (s.enterVisit ownerId v atMs) := by
  obtain ⟨owner, hget⟩ := s.owners.contains_iff.mp ho
  have hbinding : ∀ v' o, (s.enterVisit ownerId v atMs).bindingOf v' o = _ :=
    bindingOf_write s v ownerId atMs id
  have hmem : ∀ x, x ∈ (owner.enter v).ownedVisits ↔ v = x ∨ x ∈ owner.ownedVisits := by
    intro x
    rw [OwnerRecord.enter, ExtTreeSet.mem_insert, compare_eq_iff_eq]
  refine h.own hget (enterVisit_rebound s ownerId v atMs) ?_ (get_modify_of_get hget _) rfl
    (.inl rfl) ?_ ?_ ?_
  · intro v' o hne
    rw [hbinding, if_neg fun hcond => hne hcond.2.1]
  · intro x hx
    rw [hbinding]
    split
    · rfl
    · rename_i hcond
      rcases (hmem x).mp hx with rfl | hx
      · exact absurd ⟨rfl, rfl, hv⟩ hcond
      · exact h.owned ownerId owner x hget hx
  · rintro x (hx | hx)
    · exact (hmem x).mpr (.inr (h.stands ownerId owner x hget (.inl hx)))
    · exact (hmem x).mpr (.inl (some.inj hx))
  · intro v' b f hb hf
    have hold : ∃ b', s.bindingOf v' ownerId = some b' ∧ b'.forwardChild = some f := by
      rw [hbinding] at hb
      split at hb
      · rename_i hcond
        obtain ⟨rfl, -⟩ := hcond
        obtain rfl := some.inj hb
        cases hb' : s.bindingOf v' ownerId with
        | none => simp [hb'] at hf
        | some b' => exact ⟨b', rfl, by simpa [hb'] using hf⟩
      · exact ⟨b, hb, hf⟩
    obtain ⟨b', hb', hf'⟩ := hold
    refine (h.forward_own hget hb' hf').imp_right fun hboth => ?_
    exact ⟨(hmem v').mpr (.inr hboth.1), (hmem f).mpr (.inr hboth.2)⟩

theorem Anchored.grow (h : Anchored s) (hs : Rooted s)
    {e : EntryId} {context : X} {transition : TransitionKind} {atMs : Nat} :
    Anchored (s.growVisit ownerId e context transition atMs) := by
  have hgraft := growVisit_grafted hs h.known ownerId e context transition atMs
  have hbinding := growVisit_bindingOf s ownerId e context transition atMs
  generalize hg : s.growVisit ownerId e context transition atMs = g at hgraft hbinding
  have hlive : ∀ v, s.visits.contains v → g.visits.contains v := by
    intro v hv
    obtain ⟨l, hl⟩ := contains_iff_node.mp hv
    obtain ⟨l', hl', -⟩ := hgraft.old hl
    exact contains_iff_node.mpr ⟨l', hl'⟩
  have howner : ∀ o owner', g.owners.get o = some owner' → ∃ owner, s.owners.get o = some owner ∧
      (owner' = owner ∨ owner' = { owner with pendingOriginParent := none }) := by
    intro o owner' hget
    rw [← hg] at hget
    rcases growVisit_owners o with hsame | htaken
    · exact ⟨owner', hsame ▸ hget, .inl rfl⟩
    · obtain ⟨owner, hold, rfl⟩ := map_eq_some_iff.mp (htaken ▸ hget)
      exact ⟨owner, hold, .inr rfl⟩
  have hgrown : ∀ o owner, s.owners.get o = some owner → ∃ owner', g.owners.get o = some owner' ∧
      owner'.ownedVisits = owner.ownedVisits := by
    intro o owner hget
    rw [← hg]
    rcases growVisit_owners o with hsame | htaken
    · exact ⟨owner, hsame.trans hget, rfl⟩
    · exact ⟨{ owner with pendingOriginParent := none }, by rw [htaken, hget, map_some], rfl⟩
  have hcontains : ∀ o, s.owners.contains o → g.owners.contains o := by
    intro o ho
    obtain ⟨owner, hget⟩ := s.owners.contains_iff.mp ho
    obtain ⟨owner', hget', -⟩ := hgrown o owner hget
    exact g.owners.contains_of_get hget'
  refine ⟨?_, ?_, ?_, ?_, ?_, ?_, ?_⟩
  · intro v p hp
    apply hlive
    obtain ⟨l, hl, hpar⟩ := parentOf_iff.mp hp
    by_cases hv : v = s.visits.next
    · subst hv
      rw [hgraft.leaf] at hl
      rw [← some.inj hl] at hpar
      exact h.parentFor_live hpar
    · obtain ⟨l', hl', hpar', -⟩ := hgraft.back hl hv
      exact h.parents v p (parentOf_iff.mpr ⟨l', hl', hpar' ▸ hpar⟩)
  · intro v o hb
    rw [hbinding] at hb
    exact hcontains o (h.holders v o hb)
  · intro o owner' v hget hmem
    rw [hbinding]
    obtain ⟨owner, hold, rfl | rfl⟩ := howner o owner' hget
    · exact h.owned o owner' v hold hmem
    · exact h.owned o owner v hold hmem
  · intro o owner' v hget hv
    obtain ⟨owner, hold, rfl | rfl⟩ := howner o owner' hget
    · exact h.stands o owner' v hold hv
    · exact h.stands o owner v hold hv
  · intro v o b f hb hf
    rw [hbinding] at hb
    rcases h.forward v o b f hb hf with hc | ⟨owner, hget, hv, hf⟩
    · exact .inl (hgraft.child hc)
    · obtain ⟨owner', hget', hsame⟩ := hgrown o owner hget
      exact .inr ⟨owner', hget', hsame ▸ hv, hsame ▸ hf⟩
  · intro o owner' c hget hc
    apply hcontains
    obtain ⟨owner, hold, rfl | rfl⟩ := howner o owner' hget
    · exact h.creators o owner' c hold hc
    · exact h.creators o owner c hold hc
  · intro o owner' p hget hp
    apply hlive
    obtain ⟨owner, hold, rfl | rfl⟩ := howner o owner' hget
    · exact h.pendings o owner' p hold hp
    · simp at hp

theorem Anchored.setOrigin (h : Anchored s)
    (hv : s.current ownerId = some v) : Anchored (s.setOrigin ownerId v) := by
  obtain ⟨owner, hget, hcurrent⟩ := bind_eq_some_iff.mp hv
  have howners := get_modify_of_get hget fun owner =>
    if owner.origin.isNone then { owner with origin := some v } else owner
  have hstands := h.stands ownerId owner
  have howned := fun x => h.owned ownerId owner x hget
  have hforward := fun v b f => h.forward_own (v := v) (b := b) (f := f) hget
  by_cases hnone : owner.origin.isNone
  · simp only [if_pos hnone] at howners
    refine h.own hget (.refl _) (fun _ _ _ => rfl) howners rfl (.inl rfl) howned ?_ hforward
    rintro x (hx | hx)
    · -- The origin is where the owner stands.
      obtain rfl := some.inj hx
      exact hstands v hget (.inr hcurrent)
    · exact hstands x hget (.inr hx)
  · simp only [if_neg hnone] at howners
    exact h.own hget (.refl _) (fun _ _ _ => rfl) howners rfl (.inl rfl) howned
      (fun x => hstands x hget) hforward

theorem Anchored.clear (h : Anchored s) (hget : s.owners.get ownerId = some owner) :
    Anchored ((s.release ownerId owner.ownedVisits.toList).clearOwner ownerId) := by
  have hbinding : ∀ v o, ((s.release ownerId owner.ownedVisits.toList).clearOwner ownerId).bindingOf
      v o = _ := release_bindingOf s ownerId owner.ownedVisits.toList
  refine h.own hget (release_rebound s ownerId owner.ownedVisits.toList) ?_
    (get_modify_of_get hget _) rfl (.inr rfl) ?_ (by simp) ?_
  · intro v o hne
    rw [hbinding, if_neg fun hcond => hne hcond.1]
  · exact fun v hmem => absurd hmem ExtTreeSet.not_mem_empty
  · intro v b f hb hf
    rw [hbinding] at hb
    split at hb
    · cases hb
    · rename_i hkept
      refine (h.forward_own hget hb hf).imp_right fun hboth => ?_
      exact absurd ⟨rfl, ExtTreeSet.mem_toList.mpr hboth.1⟩ hkept

theorem Anchored.moves (h : Anchored s) (hs : Rooted s) (hm : Moves s s') :
    Anchored s' := by
  have hboth : Rooted s' ∧ Anchored s' := by
    refine keeps_of_chain (P := fun s => Rooted s ∧ Anchored s) ?_ hm ⟨hs, h⟩
    rintro s s' hmove ⟨hs, h⟩
    refine ⟨hs.move h.known hmove, ?_⟩
    cases hmove with
    | point ho hc => exact h.point hs ho hc
    | enter ho hv => exact h.enter ho hv
    | grow _ _ => exact h.grow hs
    | origin hv => exact h.setOrigin hv
    | clear hget => exact h.clear hget
  exact hboth.2

/-! ## Owners come and go -/

def SameTree (s : Stemma K E O X) (v w : VisitId) : Prop :=
  ∃ r, Below s.nodes r v ∧ Below s.nodes r w

/-- The calls that leave no creator and no spawn parent behind dangling: a new owner's creator
    is live, and an owner is deleted only if no other owner names it as creator, and the tree
    an other owner is to start under is not one the deletion takes down. -/
def Keeps [DecidableEq O] (s : Stemma K E O X) : Op K E O X → Prop
  | .ensureOwner identity creator =>
    (s.ownerIndex.lookup identity).isSome ∨ ∀ c, creator = some c → s.owners.contains c
  | .deleteOwner ownerId _ _ => ∀ owner, s.owners.get ownerId = some owner →
    ∀ o other, o ≠ ownerId → s.owners.get o = some other → other.creator ≠ some ownerId ∧
      ∀ p, other.pendingOriginParent = some p →
        (∃ u o', s.SameTree p u ∧ (s.bindingOf u o').isSome ∧ o' ≠ ownerId) ∨
          ∀ x ∈ owner.ownedVisits, ¬ s.SameTree p x
  | _ => True

variable [DecidableEq O]

theorem Anchored.spawn (h : Anchored s) {identity : O}
    {creator : Option OwnerId} (hcreator : ∀ c, creator = some c → s.owners.contains c) :
    Anchored { s with
      owners := s.owners.insert (s.spawned identity creator)
      ownerIndex := s.ownerIndex.insert identity s.owners.next } := by
  have hcontains : ∀ o, s.owners.contains o →
      (s.owners.insert (s.spawned identity creator)).contains o := by
    intro o ho
    simp only [SlotMap.contains, SlotMap.get_insert]
    split
    · rfl
    · exact ho
  have howner : ∀ o owner, (s.owners.insert (s.spawned identity creator)).get o = some owner →
      owner = s.spawned identity creator ∨ s.owners.get o = some owner := by
    intro o owner hget
    rw [SlotMap.get_insert] at hget
    split at hget
    · exact .inl (some.inj hget).symm
    · exact .inr hget
  refine ⟨h.parents, fun v o hb => hcontains o (h.holders v o hb), ?_, ?_, ?_, ?_, ?_⟩
  · intro o owner v hget hmem
    rcases howner o owner hget with rfl | hold
    · exact absurd hmem ExtTreeSet.not_mem_empty
    · exact h.owned o owner v hold hmem
  · intro o owner v hget hv
    rcases howner o owner hget with rfl | hold
    · simp [spawned] at hv
    · exact h.stands o owner v hold hv
  · intro v o b f hb hf
    rcases h.forward v o b f hb hf with hc | ⟨owner, hget, hv, hf'⟩
    · exact .inl hc
    · refine .inr ⟨owner, ?_, hv, hf'⟩
      have hne : o ≠ s.owners.next := (s.owners.lt_next hget).ne
      simp only [SlotMap.get_insert, if_neg hne, hget]
  · intro o owner c hget hc
    apply hcontains
    rcases howner o owner hget with rfl | hold
    · exact hcreator c hc
    · exact h.creators o owner c hold hc
  · intro o owner p hget hp
    rcases howner o owner hget with rfl | hold
    · obtain ⟨c, -, hcur⟩ := bind_eq_some_iff.mp hp
      exact h.current_live hcur
    · exact h.pendings o owner p hold hp

theorem Anchored.delete {s' : Stemma K E O X} (h : Anchored s) (hs : Rooted s)
    {owned roots : Shuffle VisitId} {dead : VisitId → Prop}
    (hget : s.owners.get ownerId = some owner)
    (hkeeps : s.Keeps (.deleteOwner ownerId owned roots)) (hwhole : Whole s.nodes dead)
    (hpruned : Pruned dead (s.dropOwner ownerId owner.identity) s')
    (hdead : ∀ v, dead v → s.Collectable ownerId owner v) : Anchored s' := by
  have hdrop := dropOwner_rebound s ownerId owner.identity
  have howner : ∀ o, s'.owners.get o = if o = ownerId then none else s.owners.get o := by
    intro o
    rw [hpruned.owners]
    exact SlotMap.get_remove _ _ _
  have hlive : ∀ v, ¬ dead v → s.visits.contains v → s'.visits.contains v := by
    intro v hv hcon
    rw [SlotMap.contains, hpruned.kept v hv]
    exact (hdrop.contains v).trans hcon
  have hnodes : ∀ v, ¬ dead v → s'.nodes v = s.nodes v := by
    intro v hv
    rw [(nodes_pruned hpruned).1 v hv, hdrop.nodes]
  have hbinding : ∀ {v o b}, s'.bindingOf v o = some b →
      ¬ dead v ∧ o ≠ ownerId ∧ s.bindingOf v o = some b := by
    intro v o b hb
    obtain ⟨hv, hb⟩ := hpruned.bindingOf hb
    rw [dropOwner_bindingOf] at hb
    split at hb
    · simp at hb
    · exact ⟨hv, by assumption, hb⟩
  -- A tree that someone else is bound to stays.
  have hstays : ∀ {v o}, (s.bindingOf v o).isSome → o ≠ ownerId → ¬ dead v := by
    intro v o hb hne hv
    obtain ⟨r, x, -, -, -, hrv, hall⟩ := hdead v hv
    exact hne (hall v o hrv hb)
  have hcontains : ∀ o, o ≠ ownerId → s.owners.contains o → s'.owners.contains o := by
    intro o hne ho
    rw [SlotMap.contains, howner, if_neg hne]
    exact ho
  have hother : ∀ {o other}, s'.owners.get o = some other →
      o ≠ ownerId ∧ s.owners.get o = some other := by
    intro o other ho
    rw [howner] at ho
    split at ho
    · simp at ho
    · exact ⟨by assumption, ho⟩
  refine ⟨?_, ?_, ?_, ?_, ?_, ?_, ?_⟩
  · intro v p hp
    obtain ⟨l, hl, hpar⟩ := parentOf_iff.mp hp
    have hv : ¬ dead v := by
      intro hv
      rw [(nodes_pruned hpruned).2 v hv] at hl
      simp at hl
    rw [hnodes v hv] at hl
    have hp' := h.parents v p (parentOf_iff.mpr ⟨l, hl, hpar⟩)
    refine hlive p (fun hpd => hv ?_) hp'
    obtain ⟨lp, hlp⟩ := contains_iff_node.mp hp'
    exact hwhole.down p v hpd ⟨lp, hlp, hs.linked.listed v l p lp hl hpar hlp⟩
  · intro v o hb
    obtain ⟨b, hb⟩ := isSome_iff_exists.mp hb
    obtain ⟨-, hne, hb⟩ := hbinding hb
    exact hcontains o hne (h.holders v o (by simp [hb]))
  · intro o other v ho hmem
    obtain ⟨hne, ho⟩ := hother ho
    have hb := h.owned o other v ho hmem
    have hkept : s'.bindingOf v o = (s.dropOwner ownerId owner.identity).bindingOf v o := by
      rw [bindingOf, bindingOf, hpruned.kept v (hstays hb hne)]
    rw [hkept, dropOwner_bindingOf, if_neg hne]
    exact hb
  · intro o other v ho
    exact h.stands o other v (hother ho).2
  · intro v o b f hb hf
    obtain ⟨hv, hne, hb⟩ := hbinding hb
    rcases h.forward v o b f hb hf with ⟨l, hl, hmem⟩ | ⟨other, ho, hmem⟩
    · exact .inl ⟨l, (hnodes v hv).trans hl, hmem⟩
    · exact .inr ⟨other, by rw [howner, if_neg hne]; exact ho, hmem⟩
  · intro o other c ho hc
    obtain ⟨hne, ho⟩ := hother ho
    refine hcontains c ?_ (h.creators o other c ho hc)
    rintro rfl
    exact (hkeeps owner hget o other hne ho).1 hc
  · intro o other p ho hp
    obtain ⟨hne, ho⟩ := hother ho
    refine hlive p ?_ (h.pendings o other p ho hp)
    intro hpd
    obtain ⟨r, x, ⟨lr, hlr, hroot⟩, hx, hrx, hrp, hall⟩ := hdead p hpd
    have htree := whole_below hs.linked hlr hroot
    rcases (hkeeps owner hget o other hne ho).2 p hp with ⟨u, o', ⟨q, hqp, hqu⟩, hb, hne'⟩ | hnone
    · exact hne' (hall u o' (htree.below (htree.above hs.linked hrp hqp) hqu) hb)
    · exact hnone x hx ⟨r, hrp, hrx⟩

omit [DecidableEq O] in
theorem Anchored.rebind (h : Anchored s) {path : List VisitId} {currentIndex : Nat}
    {visits : SlotMap (VisitRecord X)} (hget : s.owners.get ownerId = some owner)
    (hbound : Rebound s.visits visits)
    (hsame : ∀ v o, (o ≠ ownerId ∨ v ∉ path ∧ v ∉ owner.ownedVisits) →
      ({ s with visits } : Stemma K E O X).bindingOf v o = s.bindingOf v o)
    (hleft : ∀ v ∈ owner.ownedVisits, v ∉ path →
      ({ s with visits } : Stemma K E O X).bindingOf v ownerId = none)
    (hpath : ∀ v ∈ path, ∃ b, ({ s with visits } : Stemma K E O X).bindingOf v ownerId = some b ∧
      ∀ f, b.forwardChild = some f → f ∈ path) :
    Anchored { s with
      visits
      owners := s.owners.modify ownerId (fun owner => owner.onPath path currentIndex) } := by
  have hmem : ∀ v, v ∈ (owner.onPath path currentIndex).ownedVisits ↔ v ∈ path := by
    intro v
    simp only [OwnerRecord.onPath, ExtTreeSet.mem_ofList, contains_iff_mem]
  refine h.own hget hbound (fun v o hne => hsame v o (.inl hne)) (get_modify_of_get hget _) rfl
    (.inr rfl) ?_ ?_ ?_
  · intro v hv
    obtain ⟨b, hb, -⟩ := hpath v ((hmem v).mp hv)
    exact isSome_iff_exists.mpr ⟨b, hb⟩
  · rintro v (hv | hv)
    · exact (hmem v).mpr (mem_of_mem_head? hv)
    · exact (hmem v).mpr (mem_of_getElem? hv)
  · intro v b f hb hf
    by_cases hv : v ∈ path
    · obtain ⟨b', hb', hf'⟩ := hpath v hv
      obtain rfl := some.inj (hb'.symm.trans hb)
      exact .inr ⟨(hmem v).mpr hv, (hmem f).mpr (hf' f hf)⟩
    · -- Off the path an old binding stays only where the owner did not own the visit.
      by_cases hown : v ∈ owner.ownedVisits
      · cases (hleft v hown hv).symm.trans hb
      · have hold : s.bindingOf v ownerId = some b := (hsame v _ (.inr ⟨hv, hown⟩)).symm.trans hb
        exact (h.forward_own hget hold hf).imp_right fun hboth => absurd hboth.1 hown

/-! ## Every run -/

omit [DecidableEq O] in
theorem anchored_new : Anchored (new : Stemma K E O X) := by
  constructor <;> simp [parentOf, bindingOf, new]

variable [DecidableEq K]

theorem Anchored.change {op : Op K E O X} (h : Anchored s) (hs : Rooted s)
    (hkeeps : s.Keeps op) (hc : Change s op s') : Anchored s' := by
  cases hc with
  | moves hm => exact h.moves hs hm
  | owner hnew =>
    rcases hkeeps with hold | hcreator
    · rw [hnew] at hold
      simp at hold
    · exact h.spawn hcreator
  | refresh _ | entry _ =>
    exact ⟨h.parents, h.holders, h.owned, h.stands, h.forward, h.creators, h.pendings⟩
  | delete hget hwhole hpruned hdead => exact h.delete hs hget hkeeps hwhole hpruned hdead
  | rebind hget _ hbound hsame hleft hpath => exact h.rebind hget hbound hsame hleft hpath

theorem reach_anchored (h : Reach new apply Keeps s) : Rooted s ∧ Anchored s := by
  refine h.invariant (P := fun s => Rooted s ∧ Anchored s) ⟨rooted_new.1, anchored_new⟩ ?_
  rintro s s' op ⟨hs, ha⟩ hkeeps hstep
  have hc := apply_inv hs hstep
  exact ⟨(hs.change ha.known hc).1, ha.change hs hkeeps hc⟩

theorem ids_live {s : Stemma K E O X} (h : Reach new apply Keeps s) :
    Intact s ∧ ∀ walk, (s.toSnapshot walk).isSome := by
  obtain ⟨hs, ha⟩ := reach_anchored h
  have hi := ha.intact hs
  refine ⟨hi, fun walk => ?_⟩
  rw [toSnapshot_eq hi walk]
  rfl

def oneVisit : List (Op String Unit String Unit) :=
  [.ensureOwner "a" none, .resolveOrCreateEntry "p" () 1 .localOnly, .visitEntry 0 0 () .urlTyped 10]

/-- The spawned owner is deleted after a visit of its own; its creator stays. -/
theorem ids_live_spawnAndDelete : ∃ s₁ s₂ s₃ s₄ : Stemma String Unit String Unit,
    runs apply new oneVisit = some s₁ ∧ s₁.apply (.ensureOwner "c" (some 0)) = some s₂ ∧
    s₂.apply (.visitEntry 1 0 () .tabSpawn 20) = some s₃ ∧
    s₃.apply (.deleteOwner 1 (.same _) (.same _)) = some s₄ ∧ Reach new apply Keeps s₄ ∧
    Intact s₄ ∧ ∀ walk, (s₄.toSnapshot walk).isSome := by
  obtain ⟨s₁, h₁⟩ : ∃ s₁, runs apply new oneVisit = some s₁ := ⟨_, rfl⟩
  have hcreator : s₁.owners.contains 0 := by obtain rfl := some.inj h₁; decide
  obtain ⟨s₂, h₂⟩ : ∃ s₂, s₁.apply (.ensureOwner "c" (some 0)) = some s₂ := ⟨_, rfl⟩
  obtain ⟨s₃, h₃⟩ : ∃ s₃, s₂.apply (.visitEntry 1 0 () .tabSpawn 20) = some s₃ := ⟨_, rfl⟩
  obtain ⟨s₄, h₄⟩ : ∃ s₄, s₃.apply (.deleteOwner 1 (.same _) (.same _)) = some s₄ := by
    obtain rfl := some.inj h₁
    obtain rfl := some.inj h₂
    obtain rfl := some.inj h₃
    exact ⟨_, rfl⟩
  have hrun : Reach new apply Keeps s₁ := by
    refine Reach.start.runs h₁ ?_
    intro op hop s
    simp only [oneVisit, mem_cons, not_mem_nil, or_false] at hop
    rcases hop with rfl | rfl | rfl
    · exact .inr (by simp)
    · trivial
    · trivial
  -- The only other owner is the creator, who was not spawned and waits for no parent.
  have hdelete : s₃.Keeps (.deleteOwner 1 (.same _) (.same _)) := by
    have hnext : s₃.owners.next = 2 := by
      obtain rfl := some.inj h₁
      obtain rfl := some.inj h₂
      obtain rfl := some.inj h₃
      rfl
    have hzero : (s₃.owners.get 0).all (fun other =>
        other.creator.isNone && other.pendingOriginParent.isNone) := by
      obtain rfl := some.inj h₁
      obtain rfl := some.inj h₂
      obtain rfl := some.inj h₃
      decide
    intro owner _ o other hne ho
    have hlt := s₃.owners.lt_next ho
    rw [hnext] at hlt
    obtain rfl : o = 0 := Nat.lt_one_iff.mp (Nat.lt_of_le_of_ne (Nat.le_of_lt_succ hlt) hne)
    simp only [ho, all_some, Bool.and_eq_true, isNone_iff_eq_none] at hzero
    simp [hzero.1, hzero.2]
  have hspawn : s₁.Keeps (.ensureOwner "c" (some 0)) := .inr (by rintro c ⟨⟩; exact hcreator)
  have hvisit : s₂.Keeps (.visitEntry 1 0 () .tabSpawn 20) := trivial
  have hreach : Reach new apply Keeps s₄ :=
    ((hrun.next hspawn h₂).next hvisit h₃).next hdelete h₄
  exact ⟨s₁, s₂, s₃, s₄, h₁, h₂, h₃, h₄, hreach, ids_live hreach⟩

/-- The creator is deleted before the spawned owner has a visit: its tree goes, and with it
    the creator and the parent the spawned owner still names. -/
def deleteCreator : List (Op String Unit String Unit) :=
  [.ensureOwner "a" none, .resolveOrCreateEntry "p" () 1 .localOnly,
    .visitEntry 0 0 () .urlTyped 10, .ensureOwner "b" (some 0), .deleteOwner 0 (.same _) (.same _)]

theorem creator_dangles : ∃ s, Reach new apply (fun _ _ => True) s ∧
    runs apply new deleteCreator = some s ∧
    (s.owners.get 1).map OwnerRecord.creator = some (some 0) ∧ s.owners.contains 0 = false ∧
    (s.owners.get 1).map OwnerRecord.pendingOriginParent = some (some 0) ∧
    s.visits.contains 0 = false ∧ ¬ Intact s ∧ (s.toSnapshot inOrder).isNone := by
  obtain ⟨s, hrun⟩ : ∃ s, runs apply new deleteCreator = some s := ⟨_, rfl⟩
  refine ⟨s, Reach.start.runs hrun (fun _ _ _ => trivial), hrun, ?_⟩
  obtain rfl := some.inj hrun
  decide

end Mere.Stemma
