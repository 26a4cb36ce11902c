import Mere.Forme.WellFormed

/-!
# Rows

The rows of a tree are a walk in preorder, and a reveal opens the way to a member. No row is read
off the scroll anchor, so a run may leave it behind.
-/

namespace Mere.Forme

open Relation Ancestry List Option

variable {N : Type} [DecidableEq N]

namespace TreeTopology

variable {t : TreeTopology N}

/-- The loop of `ancestors`, counting. -/
def depthOf (t : TreeTopology N) (member : N) : Option Nat :=
  (t.ancestors member).map List.length

def rank (t : TreeTopology N) (m : N) : Nat := (trail t.parentOf t.rounds m).tail.length

section

variable (h : t.Shaped)
include h

theorem Shaped.depthOf (m : N) : t.depthOf m = some (t.rank m) := by
  rw [TreeTopology.depthOf, h.ancestors]
  rfl

theorem Shaped.trail_parent {c p : N} (hp : t.parentOf c = some p) :
    trail t.parentOf t.rounds c = c :: trail t.parentOf t.rounds p := by
  have hstop := h.ends.stops _ parentOf_mem_keys card_keys_le c
  cases hn : t.rounds with
  | zero =>
    rw [hn] at hstop
    exact absurd (hp.symm.trans hstop) (some_ne_none p)
  | succ n =>
    rw [hn, settle_some hp] at hstop
    rw [trail_some hp, trail_of_stopped hstop (Nat.le_succ _)]

theorem Shaped.ranks : Ranks t.parentOf t.rank := by
  intro c p hp
  rw [rank, h.trail_parent hp, rank, tail_cons, length_tail]
  have hhead := @head?_trail N t.parentOf t.rounds p
  cases htrail : trail t.parentOf t.rounds p with
  | nil => rw [htrail] at hhead; cases hhead
  | cons => rfl

theorem Shaped.mem_trail {a b : N} (hpath : ReflTransGen (Next t.parentOf) a b) :
    b ∈ trail t.parentOf t.rounds a := by
  induction hpath using ReflTransGen.head_induction_on with
  | refl => exact mem_of_mem_head? head?_trail
  | head hstep _ ih =>
    rw [h.trail_parent hstep]
    exact mem_cons_of_mem _ ih

end

end TreeTopology

namespace GraphTree

/-- No reorder names a child twice. -/
def Distinct (t : GraphTree N) (turn : Turn N) : Prop :=
  t.Walked turn ∧ ∀ parent newOrder, turn.action = .reorder parent newOrder →
    (newOrder.filter (· ∈ t.topology.childrenOf parent)).Nodup

def unanchored (t : GraphTree N) : GraphTree N := { t with scrollAnchor := none }

variable {t t' : GraphTree N} {m : N}

theorem foldl_dropMember_unanchored (dead : List N) (t : GraphTree N) :
    dead.foldl dropMember t.unanchored = (dead.foldl dropMember t).unanchored := by
  induction dead generalizing t with
  | nil => rfl
  | cons node dead ih => exact ih (t.dropMember node)

theorem amend_unanchored (m : N) (change : MemberEntry N → MemberEntry N) :
    t.unanchored.amend m change = (t.amend m change).unanchored := by
  unfold amend
  split <;> rename_i h <;> simp [unanchored] at h ⊢ <;> simp [h]

omit [DecidableEq N] in
theorem focus_unanchored (candidates : List N) (idx : Nat) :
    (t.unanchored.focus candidates idx).map (·.1.unanchored) =
      (t.focus candidates idx).map (·.1.unanchored) := by
  unfold focus
  split
  · rfl
  · cases candidates[idx]? <;> rfl

/-- No action looks at the scroll anchor. -/
theorem apply_unanchored (keys : List N) (action : NavAction N) :
    (t.unanchored.apply keys action).map (·.1.unanchored) =
      (t.apply keys action).map (·.1.unanchored) := by
  have hcontains : ∀ m, t.unanchored.contains m = t.contains m := fun _ => rfl
  cases action with
  | toggleExpand | setLayoutMode | setLens => rfl
  | select m | activate m | dismiss m | reveal m | attach m | reorder m =>
    by_cases h : t.contains m <;>
      simp [apply, applySelect, applyActivate, applyDismiss, applyReveal, applyAttach, applyReorder,
        h, hcontains, amend_unanchored] <;> rfl
  | setLifecycle | setLayoutOverride =>
    simp only [apply, applySetLifecycle, applySetLayoutOverride, applyAmend, amend_unanchored]
    rfl
  | detach m recursive =>
    by_cases h : t.contains m
    · cases recursive <;>
        simp [apply, applyDetach, h, hcontains, detachSubtree, foldl_dropMember_unanchored] <;> rfl
    · simp [apply, applyDetach, h, hcontains]
      rfl
  | reparent m q =>
    by_cases hm : t.contains m <;> by_cases hq : t.contains q <;>
      simp [apply, applyReparent, hm, hq, hcontains] <;> rfl
  | cycleFocus =>
    change (t.visibleRows.bind _).map _ = (t.visibleRows.bind _).map _
    cases t.visibleRows with
    | none => rfl
    | some => exact focus_unanchored _ _
  | cycleFocusRegion => exact focus_unanchored _ _

theorem sound_unanchored {layout : LayoutMode} {lens : ProjectionLens}
    (h : Reach (new layout lens : GraphTree N) step Distinct t) : t.unanchored.Sound := by
  refine h.invariant (P := fun t => t.unanchored.Sound) (sound_new layout lens) ?_
  rintro s s' turn hs ⟨hkeys, horder⟩ hstep
  have hkeeps : s.unanchored.Keeps turn.action := by
    cases haction : turn.action with
    | reorder parent newOrder => exact horder parent newOrder haction
    | detach => exact nofun
    | _ => trivial
  obtain ⟨u, _, happly, hsound⟩ := hs.apply hkeys hkeeps
  obtain ⟨⟨_, _⟩, happly', rfl⟩ := map_eq_some_iff.mp hstep
  have hsame := apply_unanchored (t := s) turn.keys turn.action
  rw [happly, happly'] at hsame
  refine Eq.subst (motive := GraphTree.Sound) (some.inj hsame) ?_
  exact hsound.session rfl (fun _ => rfl) hsound.active nofun

/-! ## What the rows are -/

structure Rowed (t : GraphTree N) (rows : List (OwnedTreeRow N)) : Prop where
  nodup : (rows.map (·.member)).Nodup
  preorder : Walks t.shown t.row 0 t.topology.roots rows
  depth : ∀ row ∈ rows, t.topology.depthOf row.member = some row.depth
  last : ∀ row ∈ rows, row.isLastSibling = true ↔
    ((t.topology.parentOf row.member).elim t.topology.roots t.topology.childrenOf).getLast? =
      some row.member

theorem rowed (h : t.topology.Shaped) {rows : List (OwnedTreeRow N)}
    (hrows : Walks t.shown t.row 0 t.topology.roots rows) : t.Rowed rows := by
  have hnodup : ∀ p, (t.shown p).Nodup := by
    intro p
    unfold shown
    split
    · exact h.childrenNodup p
    · exact nodup_nil
  have hroot : ∀ r ∈ t.topology.roots, t.topology.rank r = 0 := by
    intro r hr
    rw [TreeTopology.rank, trail_none ((h.top r).mp hr).2]
    rfl
  obtain ⟨hdistinct, hrow⟩ := h.ranks.walks (fun p c hc => (h.agree p c).mp (mem_shown hc)) hnodup
    (·.member) (fun _ _ => rfl) hrows h.rootsNodup hroot
  refine ⟨hdistinct, hrows, fun row hmem => ?_, fun row hmem => ?_⟩
  · rw [h.depthOf, hrow row hmem]
    rfl
  · rw [hrow row hmem, GraphTree.row, isLastSibling]
    cases t.topology.parentOf row.member <;> simp

theorem mem_foldl_insert (nodes : List N) (expanded : Finset N) (x : N) :
    x ∈ nodes.foldl (fun expanded node => insert node expanded) expanded ↔
      x ∈ nodes ∨ x ∈ expanded := by
  induction nodes generalizing expanded with
  | nil => simp
  | cons node nodes ih =>
    rw [foldl_cons, ih, Finset.mem_insert, mem_cons]
    tauto

/-- What is expanded all the way up is shown. -/
theorem shown_of_expanded (h : t.topology.Shaped) (hm : m ∈ t.topology.insertionOrder)
    (hup : ∀ p, TransGen (Next t.topology.parentOf) m p → p ∈ t.expanded) :
    ∃ r ∈ t.topology.roots, ReflTransGen (Listed t.shown) r m := by
  induction m using h.ends.induction with
  | _ c ih =>
    cases hp : t.topology.parentOf c with
    | none => exact ⟨c, (h.top c).mpr ⟨hm, hp⟩, .refl⟩
    | some p =>
      obtain ⟨r, hr, hpath⟩ := ih p hp (h.held c p hp).2 fun q hq => hup q (.head hp hq)
      have hc : c ∈ t.topology.childrenOf p := (h.agree p c).mpr hp
      refine ⟨r, hr, .tail hpath ?_⟩
      have hshown : t.shown p = t.topology.childrenOf p := by
        rw [shown, if_pos]
        simp [TreeTopology.hasChildren, ne_nil_of_mem hc, hup p (.single hp)]
      rw [Listed, hshown]
      exact hc

/-- Every reveal returns, with the member in a row and the rows there were in the order they had. -/
theorem rows_reveal {layout : LayoutMode} {lens : ProjectionLens}
    (h : Reach (new layout lens : GraphTree N) step Distinct t) :
    ∃ rows, t.visibleRows = some rows ∧ t.Rowed rows ∧ ∀ m, t.contains m →
      ∃ t' result rows', t.applyReveal m = some (t', result) ∧ t'.visibleRows = some rows' ∧
        t'.Rowed rows' ∧ (∃ row ∈ rows', row.member = m) ∧
        (rows.map (·.member)).Sublist (rows'.map (·.member)) := by
  have hsound := sound_unanchored h
  obtain ⟨rows, hrows, hwalks⟩ := hsound.visibleRows
  refine ⟨rows, hrows, rowed (t := t) hsound.shaped hwalks, fun m hm => ?_⟩
  let t' : GraphTree N := { t with
    expanded := (trail t.topology.parentOf t.topology.rounds m).tail.foldl
      (fun expanded ancestor => insert ancestor expanded) t.expanded
    scrollAnchor := some m }
  have hexpanded : ∀ x, x ∈ t'.expanded ↔
      x ∈ (trail t.topology.parentOf t.topology.rounds m).tail ∨ x ∈ t.expanded :=
    mem_foldl_insert _ _
  have hsound' : t'.Sound := by
    refine hsound.session rfl (fun _ => rfl) hsound.active ?_
    rintro x ⟨⟩
    exact hm
  obtain ⟨rows', hrows', hwalks'⟩ := hsound'.visibleRows
  refine ⟨t', .session [], rows', ?_, hrows', rowed hsound'.shaped hwalks', ?_, ?_⟩
  · rw [applyReveal, if_neg (not_not.mpr hm), hsound'.shaped.ancestors m]
    rfl
  · have hup : ∀ p, TransGen (Next t.topology.parentOf) m p → p ∈ t'.expanded := by
      intro p hp
      obtain ⟨q, hq, hpath⟩ := TransGen.head'_iff.mp hp
      rw [hexpanded, hsound'.shaped.trail_parent hq]
      exact .inl (hsound'.shaped.mem_trail hpath)
    obtain ⟨r, hr, hpath⟩ := shown_of_expanded hsound'.shaped ((hsound'.members m).mpr hm) hup
    obtain ⟨depth, hmem⟩ := hwalks'.complete hr hpath
    exact ⟨_, hmem, rfl⟩
  · refine hwalks.sublist (·.member) ?_ (fun v => ?_) hwalks'
    · exact fun _ _ => rfl
    by_cases hv : v ∈ t.expanded
    · right
      have hv' := (hexpanded v).mpr (.inr hv)
      simp [shown, unanchored, hv, hv', t']
    · left
      simp [shown, unanchored, hv]

theorem rows_reveal_child : ∃ t result rows, rootAndChild.applyReveal 2 = some (t, result) ∧
    t.visibleRows = some rows ∧ ∃ row ∈ rows, row.member = 2 := by
  have hroot : Reach (new .treeStyleTabs .traversal) step Distinct rootOnly :=
    Reach.start.next (a := ⟨.attach 1 .anchor, []⟩) ⟨List.Perm.refl [], nofun⟩ rfl
  have hchild : Reach (new .treeStyleTabs .traversal) step Distinct rootAndChild :=
    hroot.next (a := ⟨.attach 2 (.traversal 1 none), [1]⟩) ⟨List.Perm.refl [1], nofun⟩ rfl
  obtain ⟨_, -, -, hreveal⟩ := rows_reveal hchild
  obtain ⟨t, result, rows, happly, hrows, -, hrow, -⟩ := hreveal 2 (by decide)
  exact ⟨t, result, rows, happly, hrows, hrow⟩

/-- After a reorder that names it twice, the child has two rows. -/
theorem reorder_doubles_row : ∃ t t' result rows,
    runs step (new .treeStyleTabs .traversal : GraphTree Nat)
      [⟨.attach 1 .anchor, []⟩, ⟨.attach 2 (.traversal 1 none), [1]⟩,
        ⟨.reorder 1 [2, 2], [2, 1]⟩] = some t ∧
    t.applyReveal 2 = some (t', result) ∧ t'.visibleRows = some rows ∧
      rows.map (·.member) = [1, 2, 2] :=
  ⟨_, _, _, _, rfl, rfl, rfl, rfl⟩

end GraphTree

end Mere.Forme
