import Mere.Stemma.Step

/-!
# The visit forest over whole runs

Without `rebind_owner_to_path`, a binding's forward child is a child of the bound visit.
-/

namespace Mere.Stemma

open Forest Option Relation

variable {K E O X : Type} [DecidableEq K] [DecidableEq O]

def ForwardIsChild (s : Stemma K E O X) : Prop :=
  ∀ v o b f, s.bindingOf v o = some b → b.forwardChild = some f → Child s.nodes v f

variable {s : Stemma K E O X} {allowed : Stemma K E O X → Op K E O X → Prop} {s' : Stemma K E O X}

omit [DecidableEq K] [DecidableEq O] in
theorem ForwardIsChild.mono (h : ForwardIsChild s)
    (hchild : ∀ v o b f, s'.bindingOf v o = some b → Child s.nodes v f → Child s'.nodes v f)
    (hb : ∀ v o b f, s'.bindingOf v o = some b → b.forwardChild = some f →
      Child s'.nodes v f ∨ ∃ b', s.bindingOf v o = some b' ∧ b'.forwardChild = some f) :
    ForwardIsChild s' := by
  intro v o b f hbind hf
  rcases hb v o b f hbind hf with hc | ⟨b', hb', hf'⟩
  · exact hc
  · exact hchild v o b f hbind (h v o b' f hb' hf')

omit [DecidableEq K] [DecidableEq O] in
theorem ForwardIsChild.move {s : Stemma K E O X} (hs : Rooted s) (hk : Known s)
    (h : ForwardIsChild s) (hm : Move s s') : ForwardIsChild s' := by
  cases hm with
  | @point ownerId v c atMs _ hc =>
    have hnodes := (pointForward_rebound s v ownerId c atMs).nodes
    refine h.mono (fun _ _ _ _ _ hch => hnodes ▸ hch) ?_
    intro v' o b f hb hf
    rw [pointForward_eq, bindingOf_write] at hb
    split at hb
    · rename_i hcond
      obtain ⟨rfl, rfl, hlive⟩ := hcond
      obtain rfl := some.inj hb
      obtain rfl := some.inj hf
      exact .inl (hnodes ▸ pointed_child hs hlive hc)
    · exact .inr ⟨b, hb, hf⟩
  | @enter ownerId v atMs _ _ =>
    have hnodes := (enterVisit_rebound s ownerId v atMs).nodes
    refine h.mono (fun _ _ _ _ _ hch => hnodes ▸ hch) ?_
    intro v' o b f hb hf
    change Stemma.bindingOf { s with visits := s.visits.modify v _ } v' o = some b at hb
    rw [bindingOf_write] at hb
    split at hb
    · rename_i hcond
      obtain ⟨rfl, rfl, hlive⟩ := hcond
      obtain rfl := some.inj hb
      cases hold : s.bindingOf v' o with
      | none => simp [hold] at hf
      | some b' => exact .inr ⟨b', rfl, by simpa [hold] using hf⟩
    · exact .inr ⟨b, hb, hf⟩
  | @grow ownerId e context transition atMs _ _ =>
    have hgraft := growVisit_grafted hs hk ownerId e context transition atMs
    refine h.mono (fun _ _ _ _ _ hch => hgraft.child hch) ?_
    intro v o b f hb hf
    rw [growVisit_bindingOf] at hb
    exact .inr ⟨b, hb, hf⟩
  | origin _ => exact h
  | @clear ownerId owner _ =>
    have hnodes := (release_rebound s ownerId owner.ownedVisits.toList).nodes
    refine h.mono (fun _ _ _ _ _ hch => hnodes ▸ hch) ?_
    intro v o b f hb hf
    change (s.release ownerId owner.ownedVisits.toList).bindingOf v o = some b at hb
    rw [release_bindingOf] at hb
    split at hb
    · simp at hb
    · exact .inr ⟨b, hb, hf⟩

/-- A call other than `rebind_owner_to_path`. -/
def Op.follows : Op K E O X → Bool
  | .rebindOwnerToPath .. => false
  | _ => true

theorem ForwardIsChild.change {op : Op K E O X} (hs : Rooted s)
    (hk : Known s) (h : ForwardIsChild s) (hop : op.follows) (hc : Change s op s') :
    ForwardIsChild s' := by
  cases hc with
  | moves hm =>
    have hall : Rooted s' ∧ Known s' ∧ ForwardIsChild s' :=
      keeps_of_chain (P := fun s => Rooted s ∧ Known s ∧ ForwardIsChild s)
        (fun _ _ hm h => ⟨h.1.move h.2.1 hm, h.2.1.move hm, h.2.2.move h.1 h.2.1 hm⟩) hm ⟨hs, hk, h⟩
    exact hall.2.2
  | owner _ | refresh _ | entry _ => exact h
  | @delete ownerId owned roots owner dead s' howner hwhole hpruned _ =>
    have hnodes := (dropOwner_rebound s ownerId owner.identity).nodes
    refine h.mono ?_ ?_
    · rintro v o b f hb ⟨l, hl, hmem⟩
      refine ⟨l, ?_, hmem⟩
      rw [(nodes_pruned hpruned).1 v (hpruned.bindingOf hb).1, hnodes]
      exact hl
    · intro v o b f hb hf
      have hb := (hpruned.bindingOf hb).2
      rw [dropOwner_bindingOf] at hb
      split at hb
      · simp at hb
      · exact .inr ⟨b, hb, hf⟩
  | rebind => simp [Op.follows] at hop

/-! ## Every run -/

theorem reach_rooted
    (h : Reach new apply allowed s) : Rooted s ∧ Known s := by
  refine h.invariant (P := fun s => Rooted s ∧ Known s) rooted_new ?_
  intro s s' op hs _ hstep
  exact hs.1.change hs.2 (apply_inv hs.1 hstep)

/-- No call hangs: the walks of `delete_owner` end in every state a run can reach. -/
theorem calls_return
    (h : Reach new apply allowed s) (op : Op K E O X) : ∃ s', s.apply op = some s' := by
  obtain ⟨s', hrun, -⟩ := apply_change (reach_rooted h).1 op
  exact ⟨s', hrun⟩

theorem reach_forward
    (h : Reach new apply (fun _ op => op.follows = true) s) : ForwardIsChild s := by
  have hall : Rooted s ∧ Known s ∧ ForwardIsChild s := by
    refine h.invariant (P := fun s => Rooted s ∧ Known s ∧ ForwardIsChild s)
      ⟨rooted_new.1, rooted_new.2, ?_⟩ ?_
    · intro v o b f hb
      simp [bindingOf, new] at hb
    · rintro s s' op ⟨hs, hk, hf⟩ hop hstep
      have hc := apply_inv hs hstep
      exact ⟨(hs.change hk hc).1, (hs.change hk hc).2, hf.change hs hk hop hc⟩
  exact hall.2.2

/-- What the visits of a stemma are when they are a forest. -/
structure VisitForest (s : Stemma K E O X) : Prop where
  parent_iff_listed : ∀ v p, s.parentOf v = some p ↔ s.lists p v
  children_nodup : ∀ v visit, s.visits.get v = some visit → visit.children.Nodup
  acyclic : ∀ v, ¬ TransGen (fun v p => s.parentOf v = some p) v v
  reaches_root : ∀ v, s.visits.contains v → ∃ r,
    ReflTransGen (fun v p => s.parentOf v = some p) v r ∧ s.visits.contains r ∧
      s.parentOf r = none
  forward_is_child : ∀ v visit (o : OwnerId) (b : OwnerBinding) f, s.visits.get v = some visit →
    visit.bindings[o]? = some b → b.forwardChild = some f → f ∈ visit.children
  visits_counted : ∀ e entry, s.entries.get e = some entry →
    entry.visitCount = s.visits.count (fun visit => visit.entry == e)

theorem visit_forest {s : Stemma K E O X} (h : Reach new apply (fun _ op => op.follows = true) s)
    (hlive : ∀ v p, s.parentOf v = some p → s.visits.contains p) : VisitForest s := by
  obtain ⟨hs, -⟩ := reach_rooted h
  have hup : (fun v p => s.parentOf v = some p) = Up s.nodes :=
    funext fun v => funext fun p => by rw [parentOf_eq, Up]
  refine ⟨?_, ?_, ?_, ?_, ?_, hs.counted⟩
  · intro v p
    rw [lists_iff]
    constructor
    · intro hp
      obtain ⟨lp, hlp⟩ := contains_iff_node.mp (hlive v p hp)
      obtain ⟨l, hl, hp⟩ := parentOf_iff.mp hp
      exact ⟨lp, hlp, hs.linked.listed v l p lp hl hp hlp⟩
    · rintro ⟨lp, hlp, hmem⟩
      exact parentOf_iff.mpr (hs.linked.named p lp v hlp hmem)
  · intro v visit hv
    exact hs.linked.nodup v _ (nodes_of_get hv)
  · intro v
    rw [hup]
    exact hs.linked.acyclic v
  · intro v hv
    obtain ⟨lv, hlv⟩ := contains_iff_node.mp hv
    obtain ⟨r, l, hpath, hl, hroot⟩ := (hs.linked.grounded v lv hlv).top_reached (by
      intro v p hp
      rw [Up, ← parentOf_eq] at hp
      exact contains_iff_node.mp (hlive v p hp))
    refine ⟨r, hup ▸ hpath, contains_iff_node.mpr ⟨l, hl⟩, ?_⟩
    rw [parentOf_eq, hl]
    exact hroot
  · intro v visit o b f hv hb hf
    obtain ⟨l, hl, hmem⟩ := reach_forward h v o b f ((bindingOf_of_get hv o).trans hb) hf
    rw [nodes_of_get hv] at hl
    rw [← some.inj hl] at hmem
    exact hmem

def sharedTree : List (Op String Unit String Unit) :=
  [.ensureOwner "x" none, .resolveOrCreateEntry "a" () 1 .localOnly,
    .resolveOrCreateEntry "b" () 2 .localOnly, .visitEntry 0 0 () .urlTyped 10,
    .visitEntry 0 1 () .linkClick 20, .ensureOwner "y" (some 0), .visitEntry 1 0 () .tabSpawn 30,
    .back 0 1 40, .visitEntry 0 1 () .linkClick 50]

theorem visit_forest_sharedTree : ∃ s, runs apply new sharedTree = some s ∧
    (∀ v p, s.parentOf v = some p → s.visits.contains p) ∧ VisitForest s ∧
    (s.visits.get 0).map VisitRecord.children = some [1, 3] ∧
    s.parentOf 2 = some 1 := by
  obtain ⟨s, hrun⟩ : ∃ s, runs apply new sharedTree = some s := ⟨_, rfl⟩
  have hlive : ∀ v p, s.parentOf v = some p → s.visits.contains p := by
    have hchecked : ∀ v < 4, (s.parentOf v).all (fun p => s.visits.contains p) := by
      obtain rfl := some.inj hrun
      decide
    intro v p hp
    obtain ⟨visit, hv, -⟩ := bind_eq_some_iff.mp hp
    have hnext : s.visits.next = 4 := by
      obtain rfl := some.inj hrun
      rfl
    simpa [hp] using hchecked v (hnext ▸ s.visits.lt_next hv)
  refine ⟨s, hrun, hlive, visit_forest (Reach.start.runs hrun ?_) hlive, ?_, ?_⟩
  · intro op hop _
    revert op
    decide
  · obtain rfl := some.inj hrun
    decide
  · obtain rfl := some.inj hrun
    decide

theorem calls_return_sharedTree : ∃ s, runs apply new sharedTree = some s ∧
    ∀ op, ∃ s', s.apply op = some s' := by
  obtain ⟨s, hrun⟩ : ∃ s, runs apply new sharedTree = some s := ⟨_, rfl⟩
  have hreach : Reach new apply (fun _ _ => True) s := .runs .start hrun fun _ _ _ => trivial
  exact ⟨s, hrun, calls_return hreach⟩

end Mere.Stemma
