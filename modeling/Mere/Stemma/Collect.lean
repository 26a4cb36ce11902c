import Mere.Stemma.Rooted

/-!
# Collection

`delete_owner` takes down the trees that hold a visit of the owner and no binding once the owner's
own are gone.
-/

open Std (ExtTreeSet)

namespace Mere.Stemma

open Forest List Option Std.ExtTreeMap

variable {K E O X : Type}

/-! ## Removing visits -/

/-- The visits in `dead` are gone, and every entry lost as many counts as visits. -/
structure Pruned (dead : VisitId → Prop) (s s' : Stemma K E O X) : Prop where
  owners : s'.owners = s.owners
  ownerIndex : s'.ownerIndex = s.ownerIndex
  entryIndex : s'.entryIndex = s.entryIndex
  next : s'.visits.next = s.visits.next
  kept : ∀ v, ¬ dead v → s'.visits.get v = s.visits.get v
  gone : ∀ v, dead v → s'.visits.get v = none
  entries : ∀ e, s'.entries.contains e = s.entries.contains e
  counted : Counted s → Counted s'

theorem Pruned.none (s : Stemma K E O X) : Pruned (fun _ => False) s s :=
  ⟨rfl, rfl, rfl, rfl, fun _ _ => rfl, fun _ h => h.elim, fun _ => rfl, id⟩

variable {dead : VisitId → Prop} {s s' : Stemma K E O X} {v r : VisitId} {dead' : VisitId → Prop}

theorem Pruned.trans {s'' : Stemma K E O X} (h : Pruned dead s s') (h' : Pruned dead' s' s'') :
    Pruned (fun v => dead v ∨ dead' v) s s'' where
  owners := h'.owners.trans h.owners
  ownerIndex := h'.ownerIndex.trans h.ownerIndex
  entryIndex := h'.entryIndex.trans h.entryIndex
  next := h'.next.trans h.next
  kept := fun v hv => (h'.kept v (fun hd => hv (.inr hd))).trans (h.kept v (fun hd => hv (.inl hd)))
  gone := by
    intro v hv
    by_cases hd : dead' v
    · exact h'.gone v hd
    · exact (h'.kept v hd).trans (h.gone v (hv.resolve_right hd))
  entries := fun e => (h'.entries e).trans (h.entries e)
  counted := fun hc => h'.counted (h.counted hc)

theorem Pruned.congr (h : Pruned dead s s') (hd : ∀ v, dead v ↔ dead' v) : Pruned dead' s s' := by
  obtain rfl : dead = dead' := funext fun v => propext (hd v)
  exact h

theorem removeVisit_pruned {visit : VisitRecord X}
    (hv : s.visits.get v = some visit) : Pruned (fun x => x = v) s (s.removeVisit v visit) where
  owners := rfl
  ownerIndex := rfl
  entryIndex := rfl
  next := rfl
  kept := fun x hx => by simp [removeVisit, hx]
  gone := fun x hx => by simp [removeVisit, hx]
  entries := fun e => SlotMap.contains_modify ..
  counted := by
    intro hc e entry hentry
    have hcount := s.visits.count_remove (fun visit => visit.entry == e) hv
    change entry.visitCount = (s.visits.remove v).count (fun visit => visit.entry == e)
    obtain ⟨old, hold, ⟨rfl, rfl⟩ | ⟨hne, rfl⟩⟩ := SlotMap.get_of_modify _ hentry
    · simp only [hc _ old hold, hcount, BEq.rfl, if_true]
      omega
    · rw [hc e entry hold, hcount]
      simp [Ne.symm hne]

theorem removeVisits_pruned (l deleted : List VisitId) (s : Stemma K E O X) (hnodup : l.Nodup)
    (hlive : ∀ v ∈ l, s.visits.contains v) :
    ∃ s', removeVisits l deleted s = (.ok (deleted ++ l), s') ∧ Pruned (fun v => v ∈ l) s s' := by
  induction l generalizing deleted s with
  | nil => exact ⟨s, by simp [removeVisits], (Pruned.none s).congr (by simp)⟩
  | cons v l ih =>
    obtain ⟨hvl, hnodup⟩ := nodup_cons.mp hnodup
    obtain ⟨visit, hv⟩ := s.visits.contains_iff.mp (hlive v mem_cons_self)
    have hfirst := removeVisit_pruned hv
    obtain ⟨s', hrun, hrest⟩ := ih (deleted ++ [v]) (s.removeVisit v visit) hnodup (by
      intro x hx
      have hne : x ≠ v := fun h => hvl (h ▸ hx)
      rw [SlotMap.contains, hfirst.kept x hne]
      exact hlive x (mem_cons_of_mem _ hx))
    refine ⟨s', ?_, (hfirst.trans hrest).congr (by simp)⟩
    simp only [removeVisits, hv, hrun, append_assoc, singleton_append]

/-! ## One tree -/

theorem nodes_pruned (h : Pruned dead s s') :
    (∀ v, ¬ dead v → s'.nodes v = s.nodes v) ∧ ∀ v, dead v → s'.nodes v = none :=
  ⟨fun v hv => by rw [nodes, h.kept v hv]; rfl, fun v hv => by rw [nodes, h.gone v hv]; rfl⟩

theorem Pruned.bindingOf (h : Pruned dead s s') {o : OwnerId} {b : OwnerBinding}
    (hb : s'.bindingOf v o = some b) :
    ¬ dead v ∧ s.bindingOf v o = some b := by
  by_cases hd : dead v
  · simp [Stemma.bindingOf, h.gone v hd] at hb
  · exact ⟨hd, by rw [Stemma.bindingOf, ← h.kept v hd]; exact hb⟩

theorem Rooted.pruned (hs : Rooted s)
    (hw : Whole s.nodes dead) (h : Pruned dead s s') : Rooted s' := by
  have hback : ∀ v visit, s'.visits.get v = some visit → s.visits.get v = some visit := by
    intro v visit hv
    by_cases hd : dead v
    · rw [h.gone v hd] at hv; simp at hv
    · exact (h.kept v hd) ▸ hv
  refine ⟨hs.linked.prune hw (nodes_pruned h).1 (nodes_pruned h).2, ?_, ?_, h.counted hs.counted⟩
  · intro v p hp
    obtain ⟨visit, hv, hp⟩ := bind_eq_some_iff.mp hp
    rw [h.next]
    exact hs.named v p (by rw [parentOf, hback v visit hv]; exact hp)
  · intro v e he
    obtain ⟨visit, hv, he⟩ := map_eq_some_iff.mp he
    rw [h.entries]
    exact hs.entry v e (by rw [entryOf, hback v visit hv, map_some, he])

theorem nodes_bounded (s : Stemma K E O X) : Bounded s.nodes s.visits.size := by
  intro l hnodup hlive
  refine s.visits.length_le_size hnodup ?_
  intro v hv
  exact contains_iff_node.mpr (hlive v hv)

def IsRoot (s : Stemma K E O X) (r : VisitId) : Prop := ∃ l, s.nodes r = some l ∧ l.parent = none

def Ownerless (s : Stemma K E O X) (r : VisitId) : Prop :=
  ∀ v visit, Below s.nodes r v → s.visits.get v = some visit → visit.bindings.isEmpty

theorem collectSubtree_root (hs : Rooted s) (hr : s.IsRoot r) :
    ∃ out, s.collectSubtree r = some out ∧ out.Nodup ∧ ∀ v, v ∈ out ↔ Below s.nodes r v := by
  obtain ⟨l, hl, hroot⟩ := hr
  exact gather_ends hs.linked s.nodes_bounded hl hroot

theorem below_live (hs : Rooted s) (hr : s.IsRoot r)
    (h : Below s.nodes r v) : s.visits.contains v := by
  refine contains_iff_node.mpr ?_
  rcases h.cases_tail with rfl | ⟨x, -, lx, hx, hmem⟩
  · exact hr.imp fun l hl => hl.1
  · obtain ⟨l, hl, -⟩ := hs.linked.named x lx v hx hmem
    exact ⟨l, hl⟩

theorem branchIsOwnerless_root (hs : Rooted s) (hr : s.IsRoot r) :
    ∃ b, s.branchIsOwnerless r = some b ∧ (b = true ↔ s.Ownerless r) := by
  obtain ⟨out, hout, -, hmem⟩ := collectSubtree_root hs hr
  refine ⟨_, by rw [branchIsOwnerless, hout, map_some], ?_⟩
  simp only [List.all_eq_true, hmem, Option.all_eq_true]
  exact ⟨fun h v visit hv hget => h v hv visit hget, fun h v hv visit hget => h v visit hv hget⟩

theorem deleteBranch_root (hs : Rooted s) (hr : s.IsRoot r)
    (deleted : List VisitId) :
    ∃ out s', s.deleteBranch r deleted = some (.ok (deleted ++ out), s') ∧
      Pruned (Below s.nodes r) s s' := by
  obtain ⟨out, hout, hnodup, hmem⟩ := collectSubtree_root hs hr
  obtain ⟨s', hrun, hpruned⟩ := removeVisits_pruned out.reverse deleted s (by simpa using hnodup) (by
    intro v hv
    exact below_live hs hr ((hmem v).mp (mem_reverse.mp hv)))
  refine ⟨out.reverse, s', ?_, hpruned.congr (by simp [hmem])⟩
  rw [deleteBranch, hout, map_some, hrun]

/-! ## Tree after tree -/

/-- In an ownerless tree below one of the roots. -/
def Doomed (s : Stemma K E O X) (roots : List VisitId) (v : VisitId) : Prop :=
  ∃ r ∈ roots, s.Ownerless r ∧ Below s.nodes r v

theorem doomed_whole (hs : Rooted s) {roots : List VisitId}
    (hroots : ∀ r ∈ roots, s.IsRoot r) : Whole s.nodes (s.Doomed roots) where
  up := by
    rintro v l p ⟨r, hr, ho, hb⟩ hl hp
    obtain ⟨lr, hlr, hroot⟩ := hroots r hr
    exact ⟨r, hr, ho, (whole_below hs.linked hlr hroot).up v l p hb hl hp⟩
  down := by
    rintro v c ⟨r, hr, ho, hb⟩ hc
    exact ⟨r, hr, ho, hb.tail hc⟩

theorem other_tree (hs : Rooted s) {r' : VisitId} (hr : s.IsRoot r)
    (hr' : s.IsRoot r') (hne : r' ≠ r) (h : Pruned (Below s.nodes r) s s') :
    s'.IsRoot r' ∧ (∀ v, Below s'.nodes r' v ↔ Below s.nodes r' v) ∧
      (s'.Ownerless r' ↔ s.Ownerless r') := by
  obtain ⟨lr, hlr, hroot⟩ := hr
  obtain ⟨l, hl, hroot'⟩ := hr'
  have hnot : ¬ Below s.nodes r r' :=
    fun hb => hne (root_eq_of_below hs.linked hl hroot' hb).symm
  have hwhole := whole_below hs.linked hlr hroot
  have hbelow : ∀ v, Below s'.nodes r' v ↔ Below s.nodes r' v := fun v =>
    below_prune hs.linked hwhole (nodes_pruned h).1 (nodes_pruned h).2 hnot
  have hkept : ∀ v, Below s.nodes r' v → s'.visits.get v = s.visits.get v := fun v hv =>
    h.kept v (fun hb => hnot (hwhole.above hs.linked hb hv))
  refine ⟨⟨l, ((nodes_pruned h).1 r' hnot).trans hl, hroot'⟩, hbelow, ?_⟩
  constructor
  · intro ho v visit hv hget
    exact ho v visit ((hbelow v).mpr hv) ((hkept v hv).trans hget)
  · intro ho v visit hv hget
    have hv := (hbelow v).mp hv
    exact ho v visit hv ((hkept v hv).symm.trans hget)

theorem collect_pruned (roots deleted : List VisitId) (s : Stemma K E O X) (hs : Rooted s)
    (hnodup : roots.Nodup) (hroots : ∀ r ∈ roots, s.IsRoot r) :
    ∃ report s', collect roots deleted s = some (.ok report, s') ∧
      Pruned (s.Doomed roots) s s' := by
  induction roots generalizing deleted s with
  | nil => exact ⟨⟨deleted⟩, s, rfl, (Pruned.none s).congr (by simp [Doomed])⟩
  | cons r roots ih =>
    obtain ⟨hr, hnodup⟩ := nodup_cons.mp hnodup
    have hroot := hroots r mem_cons_self
    have hrest : ∀ r' ∈ roots, s.IsRoot r' := fun r' hr' => hroots r' (mem_cons_of_mem _ hr')
    obtain ⟨b, hb, hownerless⟩ := branchIsOwnerless_root hs hroot
    cases b with
    | false =>
      have hnot : ¬ s.Ownerless r := by simpa using hownerless
      obtain ⟨report, s', hrun, hpruned⟩ := ih deleted s hs hnodup hrest
      refine ⟨report, s', by simp only [collect, hb, hrun], hpruned.congr ?_⟩
      intro v
      simp [Doomed, hnot]
    | true =>
      have hyes : s.Ownerless r := hownerless.mp rfl
      obtain ⟨out, s₁, hdelete, hfirst⟩ := deleteBranch_root hs hroot deleted
      have hwhole : Whole s.nodes (Below s.nodes r) := by
        obtain ⟨lr, hlr, htop⟩ := hroot
        exact whole_below hs.linked hlr htop
      have hother : ∀ r' ∈ roots, _ := fun r' hr' =>
        other_tree hs hroot (hrest r' hr') (fun h => hr (h ▸ hr')) hfirst
      obtain ⟨report, s', hrun, hpruned⟩ := ih (deleted ++ out) s₁ (hs.pruned hwhole hfirst) hnodup
        (fun r' hr' => (hother r' hr').1)
      refine ⟨report, s', by simp only [collect, hb, hdelete, hrun], ?_⟩
      refine (hfirst.trans hpruned).congr ?_
      intro v
      constructor
      · rintro (hv | ⟨r', hr', ho, hv⟩)
        · exact ⟨r, mem_cons_self, hyes, hv⟩
        · obtain ⟨-, hbelow, howner⟩ := hother r' hr'
          exact ⟨r', mem_cons_of_mem _ hr', howner.mp ho, (hbelow v).mp hv⟩
      · rintro ⟨r', hr', ho, hv⟩
        rcases mem_cons.mp hr' with rfl | hr'
        · exact .inl hv
        · obtain ⟨-, hbelow, howner⟩ := hother r' hr'
          exact .inr ⟨r', hr', howner.mpr ho, (hbelow v).mpr hv⟩

/-! ## Roots -/

theorem rootOf_ends (hs : Rooted s) (hv : s.visits.contains v) :
    ∃ res, s.rootOf v = some res ∧ ∀ r, res = .ok r → s.IsRoot r ∧ Below s.nodes r v := by
  obtain ⟨l, hl⟩ := contains_iff_node.mp hv
  obtain ⟨res, hres, hroot⟩ := climb_ends hs.linked s.nodes_bounded hl
  refine ⟨_, by rw [rootOf, hres, map_some], ?_⟩
  intro r hr
  cases res with
  | error e => simp [Except.mapError] at hr
  | ok r' =>
    obtain rfl : r' = r := by simpa [Except.mapError] using hr
    obtain ⟨hb, l, hl, hp⟩ := hroot r' rfl
    exact ⟨⟨l, hl, hp⟩, hb⟩

theorem rootsOf_ends (hs : Rooted s) (owned : List VisitId)
    (roots : ExtTreeSet VisitId compare) :
    ∃ res, s.rootsOf owned roots = some res ∧ ∀ found, res = .ok found → ∀ r, r ∈ found →
      r ∈ roots ∨ ∃ v ∈ owned, s.IsRoot r ∧ Below s.nodes r v := by
  induction owned generalizing roots with
  | nil =>
    refine ⟨.ok roots, rfl, ?_⟩
    intro found hfound r hr
    obtain rfl := Except.ok.inj hfound
    exact .inl hr
  | cons v owned ih =>
    have hlater : ∀ {roots : ExtTreeSet VisitId compare} {r : VisitId},
        (r ∈ roots ∨ ∃ x ∈ owned, s.IsRoot r ∧ Below s.nodes r x) →
        r ∈ roots ∨ ∃ x ∈ v :: owned, s.IsRoot r ∧ Below s.nodes r x := by
      rintro roots r (h | ⟨x, hx, h⟩)
      · exact .inl h
      · exact .inr ⟨x, mem_cons_of_mem _ hx, h⟩
    by_cases hv : s.visits.contains v
    · obtain ⟨res, hres, hroot⟩ := rootOf_ends hs hv
      cases res with
      | error e => exact ⟨.error e, by simp [rootsOf, hv, hres], by simp⟩
      | ok root =>
        obtain ⟨out, hout, hfound⟩ := ih (roots.insert root)
        refine ⟨out, by simp only [rootsOf, hv, if_true, hres, hout], ?_⟩
        intro found hok r hr
        rcases hlater (hfound found hok r hr) with h | h
        · rw [ExtTreeSet.mem_insert, compare_eq_iff_eq] at h
          rcases h with rfl | h
          · exact .inr ⟨v, mem_cons_self, hroot root rfl⟩
          · exact .inl h
        · exact .inr h
    · obtain ⟨out, hout, hfound⟩ := ih roots
      refine ⟨out, by simp only [rootsOf, hv, Bool.false_eq_true, if_false, hout], ?_⟩
      intro found hok r hr
      exact hlater (hfound found hok r hr)

/-! ## The whole collection -/

theorem dropOwner_rebound [DecidableEq O] (s : Stemma K E O X) (ownerId : OwnerId) (identity : O) :
    Rebound s.visits (s.dropOwner ownerId identity).visits := .mapVals _ (fun _ => rfl)

theorem dropOwner_bindingOf [DecidableEq O] (s : Stemma K E O X) (ownerId : OwnerId) (identity : O)
    (v : VisitId) (o : OwnerId) : (s.dropOwner ownerId identity).bindingOf v o =
      if o = ownerId then none else s.bindingOf v o := by
  simp only [dropOwner, bindingOf, SlotMap.get_mapVals]
  cases s.visits.get v with
  | none => simp
  | some visit =>
    by_cases ho : o = ownerId
    · simp [ho]
    · simp [ho, Ne.symm ho, getElem?_erase]

/-- In a tree with a visit of the owner, and bound by no one else. -/
def Collectable (s : Stemma K E O X) (ownerId : OwnerId) (owner : OwnerRecord O) (v : VisitId) :
    Prop :=
  ∃ r x, s.IsRoot r ∧ x ∈ owner.ownedVisits ∧ Below s.nodes r x ∧ Below s.nodes r v ∧
    ∀ u o, Below s.nodes r u → (s.bindingOf u o).isSome → o = ownerId

/-- Without its dangling part: `delete_owner` returns, and what it removes are whole trees. -/
theorem deleteOwner_pruned [DecidableEq O] (hs : Rooted s) {ownerId : OwnerId}
    {owner : OwnerRecord O} (howner : s.owners.get ownerId = some owner)
    (owned roots : Shuffle VisitId) :
    ∃ res s' dead, s.deleteOwner ownerId owned roots = some (res, s') ∧ Whole s.nodes dead ∧
      Pruned dead (s.dropOwner ownerId owner.identity) s' ∧
      ∀ v, dead v → s.Collectable ownerId owner v := by
  have hdrop := dropOwner_rebound s ownerId owner.identity
  have hbinding := dropOwner_bindingOf s ownerId owner.identity
  have hrooted : Rooted (s.dropOwner ownerId owner.identity) := hs.rebound hdrop rfl
  obtain ⟨res, hres, hfound⟩ := rootsOf_ends hrooted (owned.order owner.ownedVisits.toList) ∅
  cases res with
  | error e =>
    refine ⟨.error e, _, fun _ => False, by simp only [deleteOwner, howner, hres],
      ⟨fun _ _ _ h => h.elim, fun _ _ h => h.elim⟩, .none _, fun _ h => h.elim⟩
  | ok found =>
    have hroots : ∀ r ∈ roots.order found.toList,
        (s.dropOwner ownerId owner.identity).IsRoot r ∧ ∃ x ∈ owner.ownedVisits,
          Below (s.dropOwner ownerId owner.identity).nodes r x := by
      intro r hr
      have hmem := ExtTreeSet.mem_toList.mp ((roots.perm _).mem_iff.mp hr)
      rcases hfound found rfl r hmem with h | ⟨x, hx, hroot, hb⟩
      · exact absurd h ExtTreeSet.not_mem_empty
      · exact ⟨hroot, x, ExtTreeSet.mem_toList.mp ((owned.perm _).mem_iff.mp hx), hb⟩
    have hnodup : (roots.order found.toList).Nodup := by
      rw [(roots.perm _).nodup_iff]
      refine (ExtTreeSet.distinct_toList).imp ?_
      intro a b hne hab
      exact hne (compare_eq_iff_eq.mpr hab)
    obtain ⟨report, s', hrun, hpruned⟩ := collect_pruned (roots.order found.toList) [] _ hrooted
      hnodup (fun r hr => (hroots r hr).1)
    have hwhole := doomed_whole hrooted (fun r hr => (hroots r hr).1)
    refine ⟨.ok report, s', _, by simp only [deleteOwner, howner, hres, hrun],
      hdrop.nodes ▸ hwhole, hpruned, ?_⟩
    rintro v ⟨r, hr, hownerless, hv⟩
    obtain ⟨hroot, x, hx, hrx⟩ := hroots r hr
    unfold IsRoot Ownerless at *
    rw [hdrop.nodes] at *
    refine ⟨r, x, hroot, hx, hrx, hv, ?_⟩
    intro u o hu ho
    by_contra hne
    obtain ⟨b, hb⟩ := isSome_iff_exists.mp ho
    have hkept := hbinding u o
    rw [if_neg hne, hb] at hkept
    obtain ⟨visit, hvisit, hget⟩ := bind_eq_some_iff.mp hkept
    have hempty := hownerless u visit hu hvisit
    rw [Std.ExtTreeMap.isEmpty_iff] at hempty
    rw [hempty] at hget
    simp at hget

end Mere.Stemma
