import Mere.Stemma.RoundTrip
import Mere.Stemma.Lineage

/-!
# Links that go up

Ids count up, a visit is made after its parent, and a forward child is a child.
-/

open Std (ExtTreeMap ExtTreeSet)

namespace Mere.Stemma

open SlotMap (get_insert get_modify get_remove)

variable {K E O X : Type}

structure Upward (s : Stemma K E O X) : Prop where
  parent : ∀ v l p, s.nodes v = some l → l.parent = some p → p < v
  child : ∀ v l c, s.nodes v = some l → c ∈ l.children → v < c
  forward : ∀ v o b c, s.bindingOf v o = some b → b.forwardChild = some c → v < c
  known : Known s

namespace Upward

variable {s s' : Stemma K E O X}

theorem new : Upward (new : Stemma K E O X) where
  parent v l p h := by simp [nodes, Stemma.new] at h
  child v l c h := by simp [nodes, Stemma.new] at h
  forward v o b c h := by simp [bindingOf, Stemma.new] at h
  known o owner v h := by simp [Stemma.new] at h

/-! ## Moves -/

variable (h : Upward s)
include h

theorem rebound (hrebound : Rebound s.visits s'.visits)
    (hforward : ∀ v o b c, s'.bindingOf v o = some b → b.forwardChild = some c → v < c)
    (hknown : Known s') : Upward s' where
  parent v l p hl hp := h.parent v l p (hrebound.nodes ▸ hl) hp
  child v l c hl hc := h.child v l c (hrebound.nodes ▸ hl) hc
  forward := hforward
  known := hknown

theorem pointed {v c : VisitId} (hc : s.lists v c ∨ s.parentOf c = some v) :
    v < c := by
  rcases hc with hc | hc
  · obtain ⟨l, hl, hmem⟩ := (s.lists_iff v c).mp hc
    exact h.child v l c hl hmem
  · obtain ⟨l, hl, hp⟩ := parentOf_iff.mp hc
    exact h.parent c l v hl hp

omit h in
theorem insertVisit_nodes (s : Stemma K E O X) (e : EntryId) {parent : Option VisitId} (context : X)
    (transition : TransitionKind) (atMs : Nat) (hp : ∀ p, parent = some p → p < s.visits.next)
    {v : VisitId} {l : Link VisitId}
    (h : (s.insertVisit e parent context transition atMs).nodes v = some l) :
    (v = s.visits.next ∧ l = ⟨parent, []⟩) ∨
      ∃ old, s.nodes v = some old ∧ l.parent = old.parent ∧
        ∀ c ∈ l.children, c ∈ old.children ∨ (parent = some v ∧ c = s.visits.next) := by
  have hnext : s.visits.get s.visits.next = none := s.visits.get_next
  cases parent with
  | none =>
    by_cases hv : v = s.visits.next
    · left
      simp [nodes, insertVisit, hv, VisitRecord.link] at h
      exact ⟨hv, h.symm⟩
    · right
      simp only [nodes, insertVisit, get_insert, if_neg hv] at h
      exact ⟨l, h, rfl, fun c hc => .inl hc⟩
  | some p =>
    have hlt := hp p rfl
    by_cases hv : v = s.visits.next
    · left
      have hne : ¬ s.visits.next = p := Nat.ne_of_gt hlt
      simp [nodes, insertVisit, hv, hne, VisitRecord.link] at h
      exact ⟨hv, h.symm⟩
    · right
      by_cases hvp : v = p
      · subst hvp
        simp only [nodes, insertVisit, get_modify, get_insert, if_true, if_neg hv,
          Option.map_map, Option.map_eq_some_iff] at h
        obtain ⟨visit, hvisit, rfl⟩ := h
        refine ⟨visit.link, nodes_of_get hvisit, rfl, fun c hc => ?_⟩
        rcases List.mem_append.mp hc with hc | hc
        · exact .inl hc
        · exact .inr ⟨rfl, List.mem_singleton.mp hc⟩
      · simp only [nodes, insertVisit, get_modify, get_insert, if_neg hv,
          if_neg hvp] at h
        exact ⟨l, h, rfl, fun c hc => .inl hc⟩

theorem move (hm : Move s s') : Upward s' := by
  have hknown := h.known.move hm
  cases hm with
  | @point ownerId v c atMs _ hc =>
    refine h.rebound (pointForward_rebound s v ownerId c atMs) ?_ hknown
    intro v' o b f hb hf
    rw [pointForward_eq, bindingOf_write] at hb
    split at hb
    · rename_i hcond
      obtain rfl := Option.some.inj hb
      obtain rfl := Option.some.inj hf
      rw [hcond.1]
      exact h.pointed hc
    · exact h.forward v' o b f hb hf
  | @enter ownerId v atMs _ _ =>
    refine h.rebound (enterVisit_rebound s ownerId v atMs) ?_ hknown
    intro v' o b f hb hf
    change Stemma.bindingOf { s with visits := s.visits.modify v _ } v' o = some b at hb
    rw [bindingOf_write] at hb
    split at hb
    · rename_i hcond
      obtain ⟨rfl, rfl, _⟩ := hcond
      obtain rfl := Option.some.inj hb
      cases hold : s.bindingOf v' o with
      | none => simp [hold] at hf
      | some b' => exact h.forward v' o b' f hold (by simpa [hold] using hf)
    · exact h.forward v' o b f hb hf
  | @grow ownerId e context transition atMs _ _ =>
    have hparent : ∀ p, s.parentFor ownerId = some p → p < s.visits.next := fun p hp =>
      h.known.parentFor hp
    -- The tree after it: either the new visit, or an old one that may have got it as a child.
    have hnodes : ∀ v l, (s.growVisit ownerId e context transition atMs).nodes v = some l → _ :=
      fun v l hl => insertVisit_nodes (s.takeParent ownerId).2 e context transition atMs
        (by rw [takeParent_visits]; exact hparent) hl
    refine ⟨?_, ?_, ?_, hknown⟩
    · intro v l p hl hp
      rcases hnodes v l hl with ⟨rfl, rfl⟩ | ⟨old, hold, hsame, _⟩
      · rw [takeParent_visits]
        exact hparent p hp
      · rw [nodes, takeParent_visits] at hold
        exact h.parent v old p hold (hsame ▸ hp)
    · intro v l c hl hc
      rcases hnodes v l hl with ⟨rfl, rfl⟩ | ⟨old, hold, _, hchildren⟩
      · exact absurd hc List.not_mem_nil
      · rw [nodes, takeParent_visits] at hold
        rcases hchildren c hc with hc | ⟨hp, rfl⟩
        · exact h.child v old c hold hc
        · rw [takeParent_visits]
          exact hparent v hp
    · intro v o b c hb hc
      rw [growVisit_bindingOf] at hb
      exact h.forward v o b c hb hc
  | origin _ => exact ⟨h.parent, h.child, h.forward, hknown⟩
  | @clear ownerId owner _ =>
    refine h.rebound (release_rebound s ownerId owner.ownedVisits.toList) ?_ hknown
    intro v o b f hb hf
    change (s.release ownerId owner.ownedVisits.toList).bindingOf v o = some b at hb
    rw [release_bindingOf] at hb
    split at hb
    · cases hb
    · exact h.forward v o b f hb hf

theorem moves (hm : Moves s s') : Upward s' :=
  keeps_of_chain (P := Upward) (fun _ _ hm h => h.move hm) hm h

/-! ## Owners, entries and what is taken away -/

theorem ensureOwner [DecidableEq O] (identity : O) (creator : Option OwnerId) :
    Upward (s.ensureOwner identity creator).2 := by
  unfold Stemma.ensureOwner
  split
  · exact h
  · refine ⟨h.parent, h.child, h.forward, ?_⟩
    intro o owner v howner hv
    rw [get_insert] at howner
    split at howner
    · obtain rfl := Option.some.inj howner
      rcases hv with hv | hv
      · cases hv
      · obtain ⟨c, -, hcurrent⟩ := Option.bind_eq_some_iff.mp hv
        obtain ⟨holder, hholder, hat⟩ := Option.bind_eq_some_iff.mp hcurrent
        exact h.known c holder v hholder (.inl hat)
    · exact h.known o owner v howner hv

theorem resolveOrCreateEntry [DecidableEq K] (key : K) (payload : E) (atMs : Nat)
    (privacy : EntryPrivacy) : Upward (s.resolveOrCreateEntry key payload atMs privacy).2 := by
  unfold Stemma.resolveOrCreateEntry
  split <;> exact ⟨h.parent, h.child, h.forward, h.known⟩

end Upward

/-- Visits, bindings and owners are taken away, the rest is as it was. -/
structure Shrunk (s s' : Stemma K E O X) : Prop where
  next : s'.visits.next = s.visits.next
  node : ∀ v l, s'.nodes v = some l → s.nodes v = some l
  binding : ∀ v o b, s'.bindingOf v o = some b → s.bindingOf v o = some b
  owner : ∀ o owner, s'.owners.get o = some owner → s.owners.get o = some owner

namespace Shrunk

variable {s s' s'' : Stemma K E O X}

theorem refl (s : Stemma K E O X) : Shrunk s s :=
  ⟨rfl, fun _ _ h => h, fun _ _ _ h => h, fun _ _ h => h⟩

theorem trans (h : Shrunk s s') (h' : Shrunk s' s'') : Shrunk s s'' where
  next := h'.next.trans h.next
  node v l hl := h.node v l (h'.node v l hl)
  binding v o b hb := h.binding v o b (h'.binding v o b hb)
  owner o owner ho := h.owner o owner (h'.owner o owner ho)

theorem removeVisit (s : Stemma K E O X) (v : VisitId) (visit : VisitRecord X) :
    Shrunk s (s.removeVisit v visit) where
  next := rfl
  node v' l hl := by
    simp only [nodes, Stemma.removeVisit, get_remove] at hl
    split at hl
    · cases hl
    · exact hl
  binding v' o b hb := by
    simp only [bindingOf, Stemma.removeVisit, get_remove] at hb
    split at hb
    · cases hb
    · exact hb
  owner _ _ ho := ho

theorem removeVisits (l deleted : List VisitId) (s : Stemma K E O X) :
    Shrunk s (Stemma.removeVisits l deleted s).2 := by
  induction l generalizing deleted s with
  | nil => exact .refl s
  | cons v rest ih =>
    unfold Stemma.removeVisits
    split
    · exact .refl s
    · exact (removeVisit s v _).trans (ih _ _)

variable {outcome : Outcome K E O X GcReport}

theorem collect (roots deleted : List VisitId) (s : Stemma K E O X)
    (h : Stemma.collect roots deleted s = some outcome) :
    Shrunk s outcome.2 := by
  induction roots generalizing deleted s with
  | nil =>
    obtain rfl := Option.some.inj h
    exact .refl s
  | cons root rest ih =>
    unfold Stemma.collect at h
    split at h
    · cases h
    · exact ih deleted s h
    · unfold deleteBranch at h
      cases hsub : s.collectSubtree root with
      | none => simp [hsub] at h
      | some subtree =>
        have hremoved := removeVisits subtree.reverse deleted s
        rw [hsub, Option.map_some] at h
        split at h
        · cases h
        · rename_i hout
          obtain rfl := Option.some.inj h
          rw [Option.some.inj hout] at hremoved
          exact hremoved
        · rename_i hout
          rw [Option.some.inj hout] at hremoved
          exact hremoved.trans (ih _ _ h)

theorem dropOwner [DecidableEq O] (s : Stemma K E O X) (ownerId : OwnerId) (identity : O) :
    Shrunk s (s.dropOwner ownerId identity) where
  next := rfl
  node v l hl := (dropOwner_rebound s ownerId identity).nodes ▸ hl
  binding v o b hb := by
    rw [dropOwner_bindingOf] at hb
    split at hb
    · cases hb
    · exact hb
  owner o owner ho := by
    simp only [Stemma.dropOwner, get_remove] at ho
    split at ho
    · cases ho
    · exact ho

theorem deleteOwner [DecidableEq O] {ownerId : OwnerId} {owned roots : Shuffle VisitId}
    (h : s.deleteOwner ownerId owned roots = some outcome) :
    Shrunk s outcome.2 := by
  unfold Stemma.deleteOwner at h
  split at h
  · obtain rfl := Option.some.inj h
    exact .refl s
  · rename_i owner _
    have hdrop := dropOwner s ownerId owner.identity
    dsimp only at h
    split at h
    · cases h
    · obtain rfl := Option.some.inj h
      exact hdrop
    · exact hdrop.trans (collect _ _ _ h)

end Shrunk

variable {s : Stemma K E O X} {V : Type}

theorem Upward.shrunk {s' : Stemma K E O X} (h : Upward s) (hs : Shrunk s s') : Upward s' where
  parent v l p hl hp := h.parent v l p (hs.node v l hl) hp
  child v l c hl hc := h.child v l c (hs.node v l hl) hc
  forward v o b c hb hc := h.forward v o b c (hs.binding v o b hb) hc
  known o owner v ho hv := hs.next ▸ h.known o owner v (hs.owner o owner ho) hv

/-! ## Saved and loaded -/

theorem isSome_of_mapM {A B : Type} {f : A → Option B} {l : List A} (h : (l.mapM f).isSome) :
    ∀ x ∈ l, (f x).isSome := by
  induction l with
  | nil => exact fun x hx => absurd hx List.not_mem_nil
  | cons a rest ih =>
    cases ha : f a with
    | none => simp [ha] at h
    | some b =>
      cases hrest : rest.mapM f with
      | none => simp [ha, hrest] at h
      | some bs =>
        intro x hx
        rcases List.mem_cons.mp hx with rfl | hx
        · rw [ha]; rfl
        · exact ih (by rw [hrest]; rfl) x hx

theorem isSome_of_option_mapM {A B : Type} {f : A → Option B} {o : Option A}
    (h : (o.mapM f).isSome) {x : A} (hx : o = some x) : (f x).isSome := by
  subst hx
  change ((f x).map some).isSome at h
  rwa [Option.isSome_map] at h

theorem contains_of_indexOf {m : SlotMap V} {order : Shuffle (Nat × V)} {k : Nat}
    (h : (indexOf (order.order m.toList) k).isSome) : m.contains k :=
  ((shuffle_spec m order).2.2 k).mp (List.isSome_idxOf?.mp h)

theorem intact_of_toSnapshot {walk : Walk K E O X}
    (h : (s.toSnapshot walk).isSome) : Intact s := by
  simp only [toSnapshot, bind, pure, Option.isSome_bind, Option.any_eq_true_iff_get] at h
  obtain ⟨hvisits, howners, -⟩ := h
  have hvisit : ∀ v visit, s.visits.get v = some visit → (visit.snapshot _ _ _ _).isSome :=
    fun v visit hv => isSome_of_mapM hvisits (v, visit)
      (((shuffle_spec s.visits walk.visits).2.1 v visit).mpr hv)
  have howner : ∀ o owner, s.owners.get o = some owner → (owner.snapshot _ _ _).isSome :=
    fun o owner ho => isSome_of_mapM howners (o, owner)
      (((shuffle_spec s.owners walk.owners).2.1 o owner).mpr ho)
  simp only [VisitRecord.snapshot, OwnerRecord.snapshot, bind, pure, Option.isSome_bind,
    Option.any_eq_true_iff_get] at hvisit howner
  have hbinding : ∀ v visit (o : OwnerId) (b : OwnerBinding), s.visits.get v = some visit →
      visit.bindings[o]? = some b → (b.snapshot (indexOf (ownerWalk walk s))
        (indexOf (visitWalk walk s)) o).isSome := by
    intro v visit o b hv hb
    obtain ⟨_, _, _, hbindings, _⟩ := hvisit v visit hv
    exact isSome_of_mapM hbindings (o, b) (((walk.bindings v).perm _).mem_iff.mpr
      (ExtTreeMap.mem_toList_iff_getElem?_eq_some.mpr hb))
  simp only [OwnerBinding.snapshot, bind, pure, Option.isSome_bind,
    Option.any_eq_true_iff_get] at hbinding
  constructor
  · intro v visit hv
    exact contains_of_indexOf (hvisit v visit hv).1
  · intro v visit p hv hp
    exact contains_of_indexOf (isSome_of_option_mapM (hvisit v visit hv).2.1 hp)
  · intro v visit c hv hc
    exact contains_of_indexOf (isSome_of_mapM (hvisit v visit hv).2.2.1 c hc)
  · intro v visit o hv ho
    obtain ⟨b, hb⟩ := Option.isSome_iff_exists.mp (ExtTreeMap.mem_iff_isSome_getElem?.mp ho)
    exact contains_of_indexOf (hbinding v visit o b hv hb).1
  · intro v visit o b f hv hb hf
    exact contains_of_indexOf (isSome_of_option_mapM (hbinding v visit o b hv hb).2.1 hf)
  · intro o owner v ho hv
    exact contains_of_indexOf (isSome_of_option_mapM (howner o owner ho).1 hv)
  · intro o owner v ho hv
    exact contains_of_indexOf (isSome_of_option_mapM (howner o owner ho).2.1 hv)
  · intro o owner c ho hc
    exact contains_of_indexOf (isSome_of_option_mapM (howner o owner ho).2.2.1 hc)
  · intro o owner v ho hv
    exact contains_of_indexOf (isSome_of_option_mapM (howner o owner ho).2.2.2.1 hv)
  · intro o owner v ho hv
    exact contains_of_indexOf (isSome_of_mapM (howner o owner ho).2.2.2.2.1 v
      (((walk.owned o).perm _).mem_iff.mpr (ExtTreeSet.mem_toList.mpr hv)))

theorem number_strictMono (m : SlotMap V) {a b : Nat} (ha : m.contains a)
    (hb : m.contains b) (hab : a < b) : number m.toList a < number m.toList b := by
  have hkeys : ∀ {k}, m.contains k → k ∈ m.toList.map Prod.fst := fun {k} hk =>
    ((shuffle_spec m (.same _)).2.2 k).mpr hk
  have hsorted : (m.toList.map Prod.fst).Pairwise (· < ·) := by
    have := ExtTreeMap.ordered_keys (t := m.slots)
    rw [← ExtTreeMap.map_fst_toList_eq_keys] at this
    exact this.imp fun h => Nat.compare_eq_lt.mp h
  by_contra hle
  rcases Nat.lt_or_eq_of_le (Nat.not_lt.mp hle) with hlt | heq
  · have hba := hsorted.rel_get_of_lt (a := ⟨_, List.idxOf_lt_length_of_mem (hkeys hb)⟩)
      (b := ⟨_, List.idxOf_lt_length_of_mem (hkeys ha)⟩) hlt
    rw [List.idxOf_get, List.idxOf_get] at hba
    omega
  · have := (List.idxOf_inj (hkeys hb)).mp heq
    omega

theorem Upward.fromSnapshot [DecidableEq K] [DecidableEq O] (hs : Intact s)
    (h : Upward s) : ∃ s', fromSnapshot (snapshotOf inOrder s) = some s' ∧ Upward s' := by
  obtain ⟨visits, owners, hrun, hvisits, howners⟩ := fromSnapshot_spec hs inOrder
  refine ⟨_, hrun, ?_⟩
  have hmono : ∀ {a b}, s.visits.contains a → s.visits.contains b → a < b →
      number (visitWalk inOrder s) a < number (visitWalk inOrder s) b :=
    fun ha hb hab => number_strictMono s.visits ha hb hab
  obtain ⟨hnodup, hlive, -⟩ := shuffle_spec s.visits inOrder.visits
  -- What is read back at a position is the visit that the walk has there.
  have hat : ∀ {k visit'}, visits.get k = some visit' → ∃ v visit, s.visits.get v = some visit ∧
      number (visitWalk inOrder s) v = k ∧ visit' = visit.renamed (number (entryWalk inOrder s))
        (number (visitWalk inOrder s)) (number (ownerWalk inOrder s))
        ((inOrder : Walk K E O X).bindings v) := by
    intro k visit' hget
    rw [hvisits] at hget
    obtain ⟨⟨v, visit⟩, hk, rfl⟩ := Option.map_eq_some_iff.mp hget
    obtain ⟨hlt, hq⟩ := List.getElem?_eq_some_iff.mp hk
    have hnumber : number (visitWalk inOrder s) (visitWalk inOrder s)[k].1 = k :=
      number_getElem hnodup hlt
    rw [hq] at hnumber
    exact ⟨v, visit, (hlive v visit).mp (List.mem_of_getElem? hk), hnumber, rfl⟩
  have hbound : ∀ {v}, s.visits.contains v → number (visitWalk inOrder s) v < visits.next := by
    intro v hv
    obtain ⟨visit', hvisit'⟩ := visits.contains_iff.mp
      ((walk_bijOn s.visits inOrder.visits hvisits).mapsTo hv)
    exact visits.lt_next hvisit'
  refine ⟨?_, ?_, ?_, ?_⟩
  · intro k l p hl hp
    obtain ⟨visit', hvisit', rfl⟩ := Option.map_eq_some_iff.mp hl
    obtain ⟨v, visit, hv, rfl, rfl⟩ := hat hvisit'
    obtain ⟨q, hq, rfl⟩ := Option.map_eq_some_iff.mp hp
    exact hmono (hs.parent v visit q hv hq) (s.visits.contains_of_get hv)
      (h.parent v _ q (nodes_of_get hv) hq)
  · intro k l c hl hc
    obtain ⟨visit', hvisit', rfl⟩ := Option.map_eq_some_iff.mp hl
    obtain ⟨v, visit, hv, rfl, rfl⟩ := hat hvisit'
    obtain ⟨d, hd, rfl⟩ := List.mem_map.mp hc
    exact hmono (s.visits.contains_of_get hv) (hs.child v visit d hv hd)
      (h.child v _ d (nodes_of_get hv) hd)
  · intro k o b c hb hc
    obtain ⟨visit', hvisit', hb'⟩ := Option.bind_eq_some_iff.mp hb
    obtain ⟨v, visit, hv, rfl, rfl⟩ := hat hvisit'
    obtain ⟨o', b', hold, -, rfl⟩ := ((visit_carried hs inOrder hv _ _).bindings o b).mp hb'
    obtain ⟨f, hf, rfl⟩ := Option.map_eq_some_iff.mp hc
    exact hmono (s.visits.contains_of_get hv) (hs.forward v visit o' b' f hv hold hf)
      (h.forward v o' b' f (by simp [bindingOf, hv, hold]) hf)
  · intro o owner v ho hv
    rw [howners] at ho
    obtain ⟨⟨o', owner'⟩, hk, rfl⟩ := Option.map_eq_some_iff.mp ho
    have howner := ((shuffle_spec s.owners inOrder.owners).2.1 o' owner').mp
      (List.mem_of_getElem? hk)
    rcases hv with hv | hv
    · obtain ⟨w, hw, rfl⟩ := Option.map_eq_some_iff.mp hv
      exact hbound (hs.current o' owner' w howner hw)
    · obtain ⟨w, hw, rfl⟩ := Option.map_eq_some_iff.mp hv
      exact hbound (hs.pending o' owner' w howner hw)

end Mere.Stemma
