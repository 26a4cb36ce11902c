import Mere.Base.Grove
import Mere.Forme.Tree

/-!
# What the operations do to the links

A topology whose links form a grove is left with links that do.
-/

namespace Mere.Forme.TreeTopology

open Relation Ancestry List Option

variable {N : Type} [DecidableEq N] {t : TreeTopology N} (p : N)

/-- The four structures agree. -/
def Shaped (t : TreeTopology N) : Prop :=
  Grove t.parentOf t.childrenOf t.roots t.insertionOrder

theorem Shaped.contains_iff (h : t.Shaped) (m : N) : t.contains m ↔ m ∈ t.insertionOrder := by
  rw [contains, Bool.or_eq_true, decide_eq_true_eq, isSome_iff_exists]
  constructor
  · rintro (hroot | ⟨p, hp⟩)
    · exact ((h.top m).mp hroot).1
    · exact (h.held m p hp).1
  · intro hm
    cases hp : t.parentOf m with
    | none => exact .inl ((h.top m).mpr ⟨hm, hp⟩)
    | some p => exact .inr ⟨p, rfl⟩

theorem shaped_new : (new : TreeTopology N).Shaped where
  agree := by simp [new, childrenOf, parentOf]
  childrenNodup := by simp [new, childrenOf]
  rootsNodup := nodup_nil
  orderNodup := nodup_nil
  top := by simp [new]
  held := by simp [new, parentOf]
  ends := ⟨fun m => ⟨_, by simp [new, parentOf]⟩⟩

/-! ## Links -/

theorem childrenOf_insert (q : N) (cs : List N) :
    ({ t with children := t.children.insert p cs } : TreeTopology N).childrenOf q =
      if q = p then cs else t.childrenOf q := by
  unfold childrenOf
  rw [Table.lookup_insert_if]
  split <;> rfl

theorem childrenOf_link (c p q : N) :
    (t.link c p).childrenOf q = if q = p then t.childrenOf p ++ [c] else t.childrenOf q :=
  childrenOf_insert p q _

theorem parentOf_link (c p x : N) :
    (t.link c p).parentOf x = if x = c then some p else t.parentOf x :=
  Table.lookup_insert_if t.parent c x p

/-- The list of one node edited, where it has one. -/
theorem relisted {t' : TreeTopology N} {edit : List N → List N} (hnil : edit [] = [])
    (h : t' = match t.children.lookup p with
      | none => t
      | some cs => { t with children := t.children.insert p (edit cs) }) :
    (∀ q, t'.childrenOf q = if q = p then edit (t.childrenOf p) else t.childrenOf q) ∧
      t'.parent = t.parent ∧ t'.roots = t.roots ∧ t'.insertionOrder = t.insertionOrder := by
  subst h
  cases hp : t.children.lookup p with
  | none =>
    refine ⟨fun q => ?_, rfl, rfl, rfl⟩
    by_cases hq : q = p
    · subst hq
      simp [childrenOf, hp, hnil]
    · exact (if_neg hq).symm
  | some cs =>
    refine ⟨fun q => (childrenOf_insert p q _).trans ?_, rfl, rfl, rfl⟩
    simp [childrenOf, hp]

theorem unlist_spec (m : N) : (∀ q, (t.unlist p m).childrenOf q =
      if q = p then (t.childrenOf p).filter (· ≠ m) else t.childrenOf q) ∧
    (t.unlist p m).parent = t.parent ∧ (t.unlist p m).roots = t.roots ∧
      (t.unlist p m).insertionOrder = t.insertionOrder :=
  relisted p filter_nil rfl

theorem parentOf_detachFromParent (m x : N) :
    (t.detachFromParent m).parentOf x = if x = m then none else t.parentOf x := by
  unfold detachFromParent
  split
  · rw [parentOf, (unlist_spec _ _).2.1]
    exact Table.lookup_erase_if t.parent m x
  · rename_i hm
    split
    · rename_i hx
      rw [hx]
      exact hm
    · rfl

theorem insertionOrder_detachFromParent (m : N) :
    (t.detachFromParent m).insertionOrder = t.insertionOrder := by
  unfold detachFromParent
  split
  · exact (unlist_spec _ _).2.2.2
  · rfl

variable {m q : N} {order : List N}

variable (h : t.Shaped)
include h

theorem Shaped.filter_children (hq : t.parentOf m ≠ some q) :
    (t.childrenOf q).filter (· ≠ m) = t.childrenOf q := by
  refine filter_eq_self.mpr fun c hc => ?_
  rw [decide_eq_true_eq]
  rintro rfl
  exact hq ((h.agree q c).mp hc)

theorem Shaped.filter_roots {p : N} (hm : t.parentOf m = some p) :
    t.roots.filter (· ≠ m) = t.roots := by
  refine filter_eq_self.mpr fun r hr => ?_
  rw [decide_eq_true_eq]
  rintro rfl
  rw [((h.top r).mp hr).2] at hm
  cases hm

theorem Shaped.childrenOf_detachFromParent (m q : N) :
    (t.detachFromParent m).childrenOf q = (t.childrenOf q).filter (· ≠ m) := by
  unfold detachFromParent
  split
  · rename_i p hp
    rw [(unlist_spec _ _).1]
    split
    · rename_i hq
      rw [hq]
      rfl
    · rename_i hq
      rw [h.filter_children fun hq' => hq (some.inj (hq'.symm.trans hp))]
      rfl
  · rename_i hp
    rw [h.filter_children (by rw [hp]; exact nofun)]
    rfl

theorem Shaped.roots_detachFromParent (m : N) :
    (t.detachFromParent m).roots = t.roots.filter (· ≠ m) := by
  unfold detachFromParent
  split
  · rename_i p hp
    rw [(unlist_spec _ _).2.2.1, h.filter_roots hp]
  · rfl

/-! ## Placing -/

section

variable (hm : m ∉ t.insertionOrder)
include hm

theorem Shaped.attachRoot :
    (t.attachRoot m).1 = true ∧ (t.attachRoot m).2.Shaped ∧
      (t.attachRoot m).2.insertionOrder = t.insertionOrder ++ [m] := by
  have hnew : ¬ t.contains m := fun hc => hm ((h.contains_iff m).mp hc)
  rw [TreeTopology.attachRoot, if_neg hnew]
  exact ⟨rfl, h.plant hm, rfl⟩

theorem Shaped.reattachChild_new (hq : q ∈ t.insertionOrder) :
    (t.reattachChild m q).Shaped ∧
      (t.reattachChild m q).insertionOrder = t.insertionOrder ++ [m] := by
  have hlisted : t.reattachChild m q =
      ⟨(t.link m q).parent, (t.link m q).children, t.roots, t.insertionOrder ++ [m]⟩ := if_neg hm
  have hgraft := h.graft hm hq
  rw [hlisted]
  refine ⟨?_, rfl⟩
  unfold Shaped
  convert hgraft using 1
  · funext x
    exact parentOf_link m q x
  · funext x
    exact childrenOf_link m q x

theorem Shaped.attachChild :
    (t.attachChild m q = (false, t)) ∨
      (t.attachChild m q).1 = true ∧ (t.attachChild m q).2.Shaped ∧
        (t.attachChild m q).2.insertionOrder = t.insertionOrder ++ [m] := by
  unfold TreeTopology.attachChild
  split
  · exact .inl rfl
  · rename_i hguard
    push Not at hguard
    exact .inr ⟨rfl, h.reattachChild_new hm ((h.contains_iff q).mp hguard.2.2)⟩

theorem Shaped.attachSibling {s : N} :
    (t.attachSibling m s = (false, t)) ∨
      (t.attachSibling m s).1 = true ∧ (t.attachSibling m s).2.Shaped ∧
        (t.attachSibling m s).2.insertionOrder = t.insertionOrder ++ [m] := by
  unfold TreeTopology.attachSibling
  split
  · exact .inl rfl
  · split
    · exact h.attachChild hm
    · exact .inr (h.attachRoot hm)

end

/-! ## Walking -/

omit h in
theorem parentOf_mem_keys (v : N) (hv : t.parentOf v ≠ none) : v ∈ t.parent.keys.toFinset := by
  rw [List.mem_toFinset]
  exact AList.lookup_isSome.mp (isSome_iff_ne_none.mpr hv)

omit h in
theorem card_keys_le : t.parent.keys.toFinset.card ≤ t.rounds := toFinset_card_le _

theorem Shaped.walk_ends {R : Type} {down : N → List N} (emit : Nat → N → R)
    (hdown : ∀ p c, c ∈ down p → c ∈ t.childrenOf p) (v : N) (out : List R) :
    ∃ part, preorder down emit t.rounds 0 v out = some (out ++ part) ∧
      Walks down emit 0 [v] part :=
  preorder_ends emit h.ends (fun p c hc => (h.agree p c).mp (hdown p c hc)) _
    parentOf_mem_keys card_keys_le 0 v out

theorem Shaped.descendantsInclusive (m : N) :
    ∃ subtree, t.descendantsInclusive m = some subtree ∧
      ∀ x, x ∈ subtree ↔ ReflTransGen (Next t.parentOf) x m := by
  obtain ⟨part, hpart, hwalks⟩ := h.walk_ends (fun _ node => node) (fun _ _ hc => hc) m []
  refine ⟨part, hpart, fun x => ?_⟩
  rw [← h.listed_iff]
  constructor
  · intro hx
    obtain ⟨_, c, ⟨v, hv, hc⟩, rfl⟩ := hwalks.sound x hx
    rwa [mem_singleton.mp hv] at hc
  · intro hx
    obtain ⟨_, hmem⟩ := hwalks.complete mem_cons_self hx
    exact hmem

theorem Shaped.ancestors (m : N) :
    t.ancestors m = some (trail t.parentOf t.rounds m).tail := by
  have hstop := h.ends.stops _ parentOf_mem_keys card_keys_le m
  rw [TreeTopology.ancestors, hstop]
  rfl

omit h in
theorem seeks_next {a x y : N} (h : Next (t.seeks a) x y) :
    Next t.parentOf x y ∧ y ≠ a := by
  obtain ⟨hy, hne⟩ := filter_eq_some_iff.mp h
  exact ⟨hy, of_decide_eq_true hne⟩

omit h in
theorem not_reaches_of_seeks {a x y : N} (hx : x ≠ a)
    (hpath : ReflTransGen (Next (t.seeks a)) x y) (hstop : t.seeks a y = none)
    (hmiss : t.parentOf y ≠ some a) : ¬ ReflTransGen (Next t.parentOf) x a := by
  induction hpath using ReflTransGen.head_induction_on with
  | refl =>
    intro hreach
    rcases hreach.cases_head with rfl | ⟨p, hp, -⟩
    · exact hx rfl
    · refine some_ne_none p (Eq.trans (Eq.symm ?_) hstop)
      refine filter_eq_some_iff.mpr ⟨hp, decide_eq_true ?_⟩
      rintro rfl
      exact hmiss hp
  | head hstep _ ih =>
    obtain ⟨hup, hne⟩ := seeks_next hstep
    intro hreach
    rcases hreach.cases_head with rfl | ⟨p, hp, hrest⟩
    · exact hx rfl
    · obtain rfl := some.inj (hp.symm.trans hup)
      exact ih hne hrest

theorem Shaped.isAncestorOf (a d : N) :
    ∃ answer, t.isAncestorOf a d = some answer ∧
      (answer = true ↔ ReflTransGen (Next t.parentOf) d a) := by
  unfold TreeTopology.isAncestorOf
  by_cases hself : a = d
  · rw [if_pos hself, hself]
    exact ⟨true, rfl, iff_of_true rfl .refl⟩
  · have hends : Ends (t.seeks a) := h.ends.shortcut fun c p hc => .single (seeks_next hc).1
    have hkeys : ∀ v, t.seeks a v ≠ none → v ∈ t.parent.keys.toFinset := by
      intro v hv
      refine parentOf_mem_keys v fun hnone => hv ?_
      rw [seeks, hnone]
      rfl
    have hstop := hends.stops _ hkeys card_keys_le d
    have hpath : ReflTransGen (Next (t.seeks a)) d (settle (t.seeks a) t.rounds d) := settle_reaches
    rw [if_neg hself, hstop]
    refine ⟨_, rfl, ?_⟩
    rw [decide_eq_true_eq]
    constructor
    · intro hmeets
      refine .tail (ReflTransGen.mono (fun _ _ hs => (seeks_next hs).1) _ _ hpath) hmeets
    · intro hreach
      by_contra hmiss
      exact not_reaches_of_seeks (Ne.symm hself) hpath hstop hmiss hreach

/-! ## Moving -/

theorem Shaped.moved (hm : m ∈ t.insertionOrder)
    (hq : q ∈ t.insertionOrder) (hpath : ¬ ReflTransGen (Next t.parentOf) q m) :
    ((t.detachFromParent m).link m q).Shaped := by
  have hmove := h.move hm hq hpath
  unfold Shaped
  convert hmove using 1
  · funext x
    rw [parentOf_link, parentOf_detachFromParent]
    grind
  · funext x
    rw [childrenOf_link, h.childrenOf_detachFromParent, h.childrenOf_detachFromParent]
  · exact h.roots_detachFromParent m
  · exact insertionOrder_detachFromParent m

theorem Shaped.reparent (m q : N) :
    ∃ moved t', t.reparent m q = some (moved, t') ∧ t'.Shaped ∧
      t'.insertionOrder = t.insertionOrder := by
  unfold TreeTopology.reparent
  split
  · exact ⟨false, t, rfl, h, rfl⟩
  · rename_i hguard
    push Not at hguard
    obtain ⟨-, hm, hq⟩ := hguard
    obtain ⟨cycle, hcycle, hiff⟩ := h.isAncestorOf m q
    rw [hcycle]
    cases cycle with
    | true => exact ⟨false, t, rfl, h, rfl⟩
    | false =>
      refine ⟨true, _, rfl, h.moved ((h.contains_iff m).mp hm) ((h.contains_iff q).mp hq) ?_, ?_⟩
      · intro hpath
        cases hiff.mpr hpath
      · exact insertionOrder_detachFromParent m

/-! ## Reordering -/

omit h in
theorem mem_reordered {cs : List N} (c : N) : c ∈ reordered cs order ↔ c ∈ cs := by
  simp only [reordered, mem_append, mem_filter, decide_eq_true_eq]
  tauto

omit h in
theorem reordered_nodup_iff {cs : List N} (h : cs.Nodup) :
    (reordered cs order).Nodup ↔ (order.filter (· ∈ cs)).Nodup := by
  unfold reordered
  rw [nodup_append]
  constructor
  · exact And.left
  · intro hfilter
    refine ⟨hfilter, h.filter _, ?_⟩
    rintro a ha b hb rfl
    rw [mem_filter, decide_eq_true_eq] at hb
    exact hb.2 ha

omit h in
theorem reorderChildren_spec (order : List N) :
    (∀ x, (t.reorderChildren p order).childrenOf x =
      if x = p then reordered (t.childrenOf p) order else t.childrenOf x) ∧
    (t.reorderChildren p order).parent = t.parent ∧ (t.reorderChildren p order).roots = t.roots ∧
      (t.reorderChildren p order).insertionOrder = t.insertionOrder :=
  relisted p (by simp [reordered]) rfl

theorem Shaped.reorderChildren {p : N}
    (hnodup : (order.filter (· ∈ t.childrenOf p)).Nodup) : (t.reorderChildren p order).Shaped := by
  have hperm : (reordered (t.childrenOf p) order).Perm (t.childrenOf p) :=
    (perm_ext_iff_of_nodup ((reordered_nodup_iff (h.childrenNodup p)).mpr hnodup)
      (h.childrenNodup p)).mpr mem_reordered
  obtain ⟨hchildren, hparent, hroots, horder⟩ := reorderChildren_spec (t := t) p order
  unfold Shaped
  convert h.relist hperm using 1
  · funext x
    rw [parentOf, hparent, parentOf]
  · exact funext hchildren

/-! ## Detaching a subtree -/

omit h in
theorem foldl_forget (dead : List N) (t : TreeTopology N) :
    (∀ x, (dead.foldl forget t).parentOf x = if x ∈ dead then none else t.parentOf x) ∧
      (∀ x, (dead.foldl forget t).childrenOf x = if x ∈ dead then [] else t.childrenOf x) ∧
      (dead.foldl forget t).roots = t.roots ∧
      (dead.foldl forget t).insertionOrder = t.insertionOrder.filter (· ∉ dead) := by
  induction dead generalizing t with
  | nil => simp
  | cons node dead ih =>
    have hparent : ∀ x, (t.forget node).parentOf x = if x = node then none else t.parentOf x :=
      fun x => Table.lookup_erase_if t.parent node x
    have hchildren : ∀ x, (t.forget node).childrenOf x =
        if x = node then [] else t.childrenOf x := by
      intro x
      rw [childrenOf, forget, Table.lookup_erase_if]
      split <;> rfl
    obtain ⟨hp, hc, hr, ho⟩ := ih (t.forget node)
    refine ⟨fun x => ?_, fun x => ?_, hr, ?_⟩
    · grind
    · grind
    · rw [List.foldl_cons, ho, forget, List.filter_filter]
      simp only [mem_cons, not_or, Bool.decide_and, Bool.and_comm]

theorem Shaped.detach (m : N) :
    ∃ subtree t', t.detach m = some (subtree, t') ∧ t'.Shaped ∧
      t'.insertionOrder = t.insertionOrder.filter (· ∉ subtree) ∧
      ∀ x, x ∈ subtree ↔ ReflTransGen (Next t.parentOf) x m := by
  obtain ⟨subtree, hsubtree, hmem⟩ := h.descendantsInclusive m
  obtain ⟨hp, hc, hr, ho⟩ := foldl_forget subtree (t.detachFromParent m)
  have hclosed : ∀ p c, p ∈ subtree → t.parentOf c = some p → c ∈ subtree :=
    fun p c hin hup => (hmem c).mpr (.head hup ((hmem p).mp hin))
  have hm : m ∈ subtree := (hmem m).mpr .refl
  -- Of the nodes below `m` only `m` itself has its parent outside.
  have hedge : ∀ p c, p ∉ subtree → t.parentOf c = some p → c ∈ subtree → c = m := by
    intro p c hout hup hin
    rcases ((hmem c).mp hin).cases_head with heq | ⟨q, hq, hrest⟩
    · exact heq
    · obtain rfl := some.inj (hq.symm.trans hup)
      exact absurd ((hmem q).mpr hrest) hout
  refine ⟨subtree, _, by rw [TreeTopology.detach, hsubtree]; rfl, ?_, ?_, hmem⟩
  · unfold Shaped
    convert h.cut hclosed using 1
    · funext x
      rw [hp x, parentOf_detachFromParent]
      grind
    · funext x
      rw [hc x, h.childrenOf_detachFromParent]
      split
      · rfl
      · rename_i hx
        refine filter_congr fun c hcx => ?_
        have hup := (h.agree x c).mp hcx
        rw [decide_eq_decide]
        exact ⟨fun hne hin => hne (hedge x c hx hup hin), fun hin heq => hin (heq ▸ hm)⟩
    · rw [hr, h.roots_detachFromParent]
      refine filter_congr fun r hroot => ?_
      rw [decide_eq_decide]
      refine ⟨fun hne hin => ?_, fun hin heq => hin (heq ▸ hm)⟩
      rcases ((hmem r).mp hin).cases_head with heq | ⟨q, hq, -⟩
      · exact hne heq
      · rw [Next, ((h.top r).mp hroot).2] at hq
        cases hq
    · rw [ho, insertionOrder_detachFromParent]
  · rw [ho, insertionOrder_detachFromParent]

/-! ## Detaching one member -/

omit h in
theorem lookup_foldl_erase (cs : List N) (parent : Table N N) (x : N) :
    (cs.foldl (fun parent child => parent.erase child) parent).lookup x =
      if x ∈ cs then none else parent.lookup x := by
  induction cs generalizing parent with
  | nil => simp
  | cons c cs ih =>
    rw [foldl_cons, ih, Table.lookup_erase_if]
    grind

theorem Shaped.detachSingle (m : N) :
    (∀ x, (t.detachSingle m).parentOf x =
      if x = m ∨ x ∈ t.childrenOf m then none else t.parentOf x) ∧
      (∀ x, (t.detachSingle m).childrenOf x =
        if x = m then [] else (t.childrenOf x).filter (· ≠ m)) ∧
      (t.detachSingle m).roots = t.roots.filter (· ≠ m) ∧
      (t.detachSingle m).insertionOrder = t.insertionOrder.filter (· ≠ m) := by
  have hself : m ∉ t.childrenOf m := fun hmem =>
    h.ends.acyclic m (.single ((h.agree m m).mp hmem))
  have hkept : (t.detachFromParent m).childrenOf m = t.childrenOf m := by
    rw [h.childrenOf_detachFromParent]
    refine h.filter_children fun hup => hself ((h.agree m m).mpr hup)
  unfold TreeTopology.detachSingle
  split
  · rename_i hnone
    have hleaf : t.childrenOf m = [] := by
      rw [← hkept, childrenOf, hnone]
      rfl
    refine ⟨fun x => ?_, fun x => ?_, h.roots_detachFromParent m, ?_⟩
    · refine Eq.trans (parentOf_detachFromParent m x) ?_
      grind
    · refine Eq.trans (h.childrenOf_detachFromParent m x) ?_
      grind
    · rw [insertionOrder_detachFromParent]
  · rename_i children hsome
    have hchildren : t.childrenOf m = children := by
      rw [← hkept, childrenOf, hsome]
      rfl
    refine ⟨fun x => ?_, fun x => ?_, h.roots_detachFromParent m, ?_⟩
    · refine Eq.trans (lookup_foldl_erase children _ x) ?_
      have := @parentOf_detachFromParent N _ t m x
      rw [parentOf] at this
      grind
    · have herase : ((t.detachFromParent m).children.erase m).lookup x =
          if x = m then none else (t.detachFromParent m).children.lookup x :=
        Table.lookup_erase_if _ m x
      have hold := h.childrenOf_detachFromParent m x
      unfold childrenOf at hold ⊢
      rw [orphan, herase]
      split
      · rfl
      · exact hold
    · rw [orphan, insertionOrder_detachFromParent]

omit h in
theorem foldl_reattachChild (cs : List N) (t : TreeTopology N)
    (hcs : ∀ c ∈ cs, c ∈ t.insertionOrder) :
    (∀ x, (cs.foldl (GraphTree.adopt (some p)) t).parentOf x =
      if x ∈ cs then some p else t.parentOf x) ∧
      (∀ x, (cs.foldl (GraphTree.adopt (some p)) t).childrenOf x =
        if x = p then t.childrenOf p ++ cs else t.childrenOf x) ∧
      (cs.foldl (GraphTree.adopt (some p)) t).roots = t.roots ∧
      (cs.foldl (GraphTree.adopt (some p)) t).insertionOrder = t.insertionOrder := by
  induction cs generalizing t with
  | nil => simp
  | cons c cs ih =>
    have hstep : GraphTree.adopt (some p) t c = t.link c p :=
      if_pos (hcs c mem_cons_self)
    obtain ⟨hp, hc, hr, ho⟩ := ih (t.link c p) fun c' hc' => hcs c' (mem_cons_of_mem c hc')
    rw [foldl_cons, hstep]
    refine ⟨fun x => ?_, fun x => ?_, hr, ho⟩
    · rw [hp x, parentOf_link]
      grind
    · rw [hc x, childrenOf_link, childrenOf_link, if_pos rfl, append_assoc]
      grind

omit h in
theorem foldl_promoteToRoot (cs : List N) (t : TreeTopology N)
    (hcs : ∀ c ∈ cs, c ∈ t.insertionOrder ∧ t.parentOf c = none ∧ c ∉ t.roots) (hnodup : cs.Nodup) :
    cs.foldl (GraphTree.adopt none) t = { t with roots := t.roots ++ cs } := by
  induction cs generalizing t with
  | nil => simp
  | cons c cs ih =>
    obtain ⟨hin, horphan, hnew⟩ := hcs c mem_cons_self
    have hunlinked : t.unlinked c = t := by
      rw [unlinked, horphan]
    have hstep : GraphTree.adopt none t c = { t with roots := t.roots ++ [c] } := by
      rw [GraphTree.adopt, promoteToRoot, if_pos hin, hunlinked, rooted, if_neg hnew]
    rw [nodup_cons] at hnodup
    rw [foldl_cons, hstep, ih _ ?_ hnodup.2, append_assoc]
    · rfl
    · intro c' hc'
      obtain ⟨hin', horphan', hnew'⟩ := hcs c' (mem_cons_of_mem c hc')
      refine ⟨hin', horphan', ?_⟩
      simp only [mem_append, mem_singleton, not_or]
      exact ⟨hnew', fun heq => hnodup.1 (heq ▸ hc')⟩

theorem Shaped.detachAlone (m : N) :
    ((t.childrenOf m).foldl (GraphTree.adopt (t.parentOf m)) (t.detachSingle m)).Shaped ∧
      ((t.childrenOf m).foldl (GraphTree.adopt (t.parentOf m))
        (t.detachSingle m)).insertionOrder = t.insertionOrder.filter (· ≠ m) := by
  obtain ⟨hp, hc, hr, ho⟩ := h.detachSingle m
  have hself : t.parentOf m ≠ some m := fun hcycle => h.ends.acyclic m (.single hcycle)
  have hin : ∀ c ∈ t.childrenOf m, c ∈ (t.detachSingle m).insertionOrder := by
    intro c hcm
    have hup := (h.agree m c).mp hcm
    rw [ho, mem_filter, decide_eq_true_eq]
    refine ⟨(h.held c m hup).1, ?_⟩
    rintro rfl
    exact hself hup
  have hsplice := h.splice m
  cases hup : t.parentOf m with
  | some p =>
    obtain ⟨hp', hc', hr', ho'⟩ := foldl_reattachChild p (t.childrenOf m) (t.detachSingle m) hin
    refine ⟨?_, ho'.trans ho⟩
    unfold Shaped
    rw [hup] at hsplice
    convert hsplice using 1
    · grind
    · funext x
      rw [hc' x, hc, hc x]
      have hpm : p ≠ m := by rintro rfl; exact hself hup
      by_cases hx : x = p
      · rw [if_pos hx, if_neg hpm, if_neg (hx ▸ hpm), if_pos (by rw [hx]), hx]
      · rw [if_neg hx, if_neg (fun heq => hx (some.inj heq).symm)]
        rw [h.filter_children fun heq => hx (some.inj (heq.symm.trans hup))]
    · rw [hr', hr, if_neg (some_ne_none p), h.filter_roots hup]
    · rw [ho', ho]
  | none =>
    have horphans : ∀ c ∈ t.childrenOf m, c ∈ (t.detachSingle m).insertionOrder ∧
        (t.detachSingle m).parentOf c = none ∧ c ∉ (t.detachSingle m).roots := by
      intro c hcm
      refine ⟨hin c hcm, by rw [hp c, if_pos (.inr hcm)], ?_⟩
      rw [hr, mem_filter]
      rintro ⟨hroot, -⟩
      exact some_ne_none m (((h.agree m c).mp hcm).symm.trans ((h.top c).mp hroot).2)
    rw [foldl_promoteToRoot _ _ horphans (h.childrenNodup m)]
    refine ⟨?_, ho⟩
    unfold Shaped
    rw [hup] at hsplice
    convert hsplice using 1
    · funext x
      refine Eq.trans (hp x) ?_
      grind
    · funext x
      refine Eq.trans (hc x) ?_
      rw [if_neg (some_ne_none x).symm]
      rw [h.filter_children (by rw [hup]; exact (some_ne_none x).symm)]
    · rw [if_pos rfl, hr]

end Mere.Forme.TreeTopology
