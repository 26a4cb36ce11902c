import Mere.Base.Run
import Mere.Forme.Surgery

/-!
# The tree stays a forest

Two actions may break it: a reorder whose list names a child twice, and a detach that takes out the
scroll anchor.
-/

namespace Mere.Forme

open Relation Ancestry List Option

variable {N : Type} [DecidableEq N]

/-! ## The property -/

structure TreeTopology.WellFormed (t : TreeTopology N) : Prop where
  agree : ∀ p c, c ∈ t.childrenOf p ↔ t.parentOf c = some p
  childrenNodup : ∀ p, (t.childrenOf p).Nodup
  rootsNodup : t.roots.Nodup
  acyclic : ∀ m, ¬ TransGen (fun c p => t.parentOf c = some p) m m
  roots : ∀ m, m ∈ t.roots ↔ t.contains m ∧ t.parentOf m = none
  orderNodup : t.insertionOrder.Nodup
  reachable : ∀ m, m ∈ t.insertionOrder ↔
    ∃ r ∈ t.roots, ReflTransGen (fun p c => c ∈ t.childrenOf p) r m

structure GraphTree.WellFormed (t : GraphTree N) : Prop where
  topology : t.topology.WellFormed
  members : ∀ m, t.topology.contains m ↔ t.contains m
  active : ∀ m, t.active = some m → t.contains m
  anchor : ∀ m, t.scrollAnchor = some m → t.contains m

theorem TreeTopology.Shaped.wellFormed {t : TreeTopology N} (h : t.Shaped) : t.WellFormed where
  agree := h.agree
  childrenNodup := h.childrenNodup
  rootsNodup := h.rootsNodup
  acyclic := h.ends.acyclic
  roots := by
    intro m
    rw [h.contains_iff]
    exact h.top m
  orderNodup := h.orderNodup
  reachable := h.mem_order_iff

structure Turn (N : Type) where
  action : NavAction N
  keys : List N

namespace GraphTree

variable (t : GraphTree N)

def step (turn : Turn N) : Option (GraphTree N) :=
  (t.apply turn.keys turn.action).map Prod.fst

/-- No reorder names a child twice, and no detach takes out the scroll anchor. -/
def Keeps : NavAction N → Prop
  | .reorder parent newOrder => (newOrder.filter (· ∈ t.topology.childrenOf parent)).Nodup
  | .detach member recursive =>
    ∀ anchor, t.scrollAnchor = some anchor →
      if recursive then t.topology.isAncestorOf member anchor = some false else anchor ≠ member
  | _ => True

def Walked (turn : Turn N) : Prop := turn.keys.Perm t.members.keys

def Allowed (turn : Turn N) : Prop := t.Walked turn ∧ t.Keeps turn.action

/-! ## One action -/

/-- What an action finds and leaves. -/
structure Sound (t : GraphTree N) : Prop where
  shaped : t.topology.Shaped
  members : ∀ m, m ∈ t.topology.insertionOrder ↔ t.contains m
  active : ∀ m, t.active = some m → t.contains m
  anchor : ∀ m, t.scrollAnchor = some m → t.contains m

variable {t : GraphTree N}

theorem Sound.wellFormed (h : t.Sound) : t.WellFormed where
  topology := h.shaped.wellFormed
  members := by
    intro m
    rw [h.shaped.contains_iff, h.members]
  active := h.active
  anchor := h.anchor

theorem sound_new (layout : LayoutMode) (lens : ProjectionLens) :
    (new layout lens : GraphTree N).Sound where
  shaped := TreeTopology.shaped_new
  members := by simp [new, TreeTopology.new, contains]
  active := nofun
  anchor := nofun

variable {t' : GraphTree N} {m : N} {recursive : Bool} {keys : List N} {action : NavAction N}

theorem Sound.session (h : t.Sound) (htopology : t'.topology = t.topology)
    (hmembers : ∀ m, t'.contains m = t.contains m)
    (hactive : ∀ m, t'.active = some m → t.contains m)
    (hanchor : ∀ m, t'.scrollAnchor = some m → t.contains m) : t'.Sound where
  shaped := htopology ▸ h.shaped
  members := by
    intro m
    rw [htopology, hmembers]
    exact h.members m
  active := by
    intro m hm
    rw [hmembers]
    exact hactive m hm
  anchor := by
    intro m hm
    rw [hmembers]
    exact hanchor m hm

theorem contains_amend (m : N) (change : MemberEntry N → MemberEntry N) (x : N) :
    (t.amend m change).contains x = t.contains x := by
  unfold amend
  split
  · rfl
  · rename_i entry hentry
    rw [contains, contains, Table.lookup_insert_if]
    split
    · rename_i hx
      rw [hx, hentry]
      rfl
    · rfl

theorem amend_frame (m : N) (change : MemberEntry N → MemberEntry N) :
    (t.amend m change).topology = t.topology ∧ (t.amend m change).active = t.active ∧
      (t.amend m change).scrollAnchor = t.scrollAnchor := by
  unfold amend
  split <;> exact ⟨rfl, rfl, rfl⟩

section

variable (h : t.Sound)
include h

theorem Sound.amend (m : N) (change : MemberEntry N → MemberEntry N)
    {active : Option N} (hactive : ∀ x, active = some x → t.contains x) :
    ({ t.amend m change with active := active } : GraphTree N).Sound := by
  obtain ⟨htopology, -, hanchor⟩ := amend_frame (t := t) m change
  refine h.session htopology (contains_amend m change) hactive ?_
  intro x hx
  exact h.anchor x (hanchor ▸ hx)

theorem Sound.applySelect (m : N) : (t.applySelect m).1.Sound := by
  unfold GraphTree.applySelect
  split
  · exact h
  · rename_i hm
    refine h.session rfl (fun _ => rfl) ?_ h.anchor
    intro x hx
    rw [← some.inj hx]
    exact not_not.mp hm

theorem Sound.applyActivate (m : N) : (t.applyActivate m).1.Sound := by
  unfold GraphTree.applyActivate
  split
  · exact h
  · rename_i hm
    refine h.amend m _ ?_
    intro x hx
    rw [← some.inj hx]
    exact not_not.mp hm

theorem Sound.applyDismiss (m : N) : (t.applyDismiss m).1.Sound := by
  unfold GraphTree.applyDismiss
  split
  · exact h
  · refine h.amend m _ ?_
    intro x hx
    split at hx
    · cases hx
    · exact h.active x hx

theorem Sound.applyAmend (m : N) (change : MemberEntry N → MemberEntry N) :
    (t.applyAmend m change).1.Sound := by
  obtain ⟨htopology, hactive, hanchor⟩ := amend_frame (t := t) m change
  refine h.session htopology (contains_amend m change) ?_ ?_
  · intro x hx
    exact h.active x (hactive ▸ hx)
  · intro x hx
    exact h.anchor x (hanchor ▸ hx)

theorem Sound.applyReveal (m : N) :
    ∃ t' r, t.applyReveal m = some (t', r) ∧ t'.Sound := by
  unfold GraphTree.applyReveal
  split
  · exact ⟨t, _, rfl, h⟩
  · rename_i hm
    rw [h.shaped.ancestors m]
    refine ⟨_, _, rfl, h.session rfl (fun _ => rfl) h.active ?_⟩
    intro x hx
    rw [← some.inj hx]
    exact not_not.mp hm

/-! ### Attaching -/

theorem Sound.place (hm : ¬ t.contains m) (provenance : Provenance N) :
    t.place m provenance = (false, t.topology) ∨
      (t.place m provenance).1 = true ∧ (t.place m provenance).2.Shaped ∧
        (t.place m provenance).2.insertionOrder = t.topology.insertionOrder ++ [m] := by
  have hnew : m ∉ t.topology.insertionOrder := fun hin => hm ((h.members m).mp hin)
  unfold GraphTree.place
  split
  · exact h.shaped.attachChild hnew
  · exact h.shaped.attachSibling hnew
  · exact h.shaped.attachSibling hnew
  · exact h.shaped.attachSibling hnew
  all_goals exact .inr (h.shaped.attachRoot hnew)

theorem Sound.placed (hm : ¬ t.contains m) (provenance : Provenance N) :
    (t.placed m provenance).Shaped ∧
      (t.placed m provenance).insertionOrder = t.topology.insertionOrder ++ [m] := by
  have hnew : m ∉ t.topology.insertionOrder := fun hin => hm ((h.members m).mp hin)
  unfold GraphTree.placed
  rcases h.place hm provenance with hfailed | ⟨hdone, hplaced⟩
  · rw [hfailed]
    exact (h.shaped.attachRoot hnew).2
  · rw [if_pos hdone]
    exact hplaced

theorem Sound.applyAttach (m : N) (provenance : Provenance N) :
    (t.applyAttach m provenance).1.Sound := by
  unfold GraphTree.applyAttach
  split
  · exact h
  · rename_i hm
    obtain ⟨hshaped, horder⟩ := h.placed hm provenance
    have hcontains : ∀ x, (x = m ∨ t.contains x = true) →
        ((t.members.insert m { lifecycle := .cold, provenance := provenance }).lookup x).isSome := by
      intro x hx
      rw [Table.lookup_insert_if]
      split
      · rfl
      · exact hx.resolve_left ‹_›
    refine ⟨hshaped, ?_, ?_, ?_⟩
    · intro x
      refine ⟨fun hx => hcontains x ?_, fun hx => ?_⟩
      · rw [horder, mem_append, mem_singleton, h.members] at hx
        exact hx.symm
      · rw [horder, mem_append, mem_singleton, h.members]
        unfold contains at hx
        rw [Table.lookup_insert_if] at hx
        split at hx
        · exact .inr ‹_›
        · exact .inl hx
    · exact fun x hx => hcontains x (.inr (h.active x hx))
    · exact fun x hx => hcontains x (.inr (h.anchor x hx))

end

/-! ### Detaching -/

theorem foldl_dropMember (dead : List N) (t : GraphTree N) :
    (∀ x, (dead.foldl dropMember t).members.lookup x =
      if x ∈ dead then none else t.members.lookup x) ∧
      (dead.foldl dropMember t).active = t.active ∧
      (dead.foldl dropMember t).scrollAnchor = t.scrollAnchor := by
  induction dead generalizing t with
  | nil => simp
  | cons node dead ih =>
    obtain ⟨hmembers, hactive, hanchor⟩ := ih (t.dropMember node)
    refine ⟨fun x => ?_, hactive, hanchor⟩
    rw [foldl_cons, hmembers x, dropMember, Table.lookup_erase_if]
    grind

def Taken (t : GraphTree N) (member : N) (recursive : Bool) (x : N) : Prop :=
  if recursive then ReflTransGen (Next t.topology.parentOf) x member else x = member

structure Detached (t : GraphTree N) (member : N) (recursive : Bool) (t' : GraphTree N) : Prop where
  shaped : t'.topology.Shaped
  order : ∀ x, x ∈ t'.topology.insertionOrder ↔
    x ∈ t.topology.insertionOrder ∧ ¬ t.Taken member recursive x
  contains : ∀ x, t'.contains x ↔ t.contains x ∧ ¬ t.Taken member recursive x
  active : ∀ x, t'.active = some x → t'.contains x
  anchor : t'.scrollAnchor = t.scrollAnchor

theorem active_clearActive (x : N) (hx : t.clearActive.active = some x) :
    t.clearActive.contains x :=
  (filter_eq_some_iff.mp hx).2

section

variable (h : t.Sound)
include h

theorem Sound.detachSubtree (m : N) :
    ∃ t' intents, t.detachSubtree m = some (t', intents) ∧ Detached t m true t'.clearActive := by
  obtain ⟨subtree, topology, hdetach, hshaped, horder, hmem⟩ := h.shaped.detach m
  obtain ⟨hmembers, -, hanchor⟩ := foldl_dropMember subtree t
  have htaken : ∀ x, x ∈ subtree ↔ t.Taken m true x := hmem
  refine ⟨{ subtree.foldl dropMember t with topology := topology },
    subtree.map TreeIntent.memberDetached, by rw [GraphTree.detachSubtree, hdetach]; rfl,
    hshaped, ?_, ?_, active_clearActive, hanchor⟩
  · intro x
    refine Iff.trans (Eq.to_iff (congrArg (x ∈ ·) horder)) ?_
    rw [mem_filter, decide_eq_true_eq, htaken]
  · intro x
    rw [← htaken]
    refine Iff.trans (b := ((subtree.foldl dropMember t).members.lookup x).isSome) Iff.rfl ?_
    rw [hmembers x]
    by_cases hx : x ∈ subtree <;> simp [hx, GraphTree.contains]

theorem Sound.detachAlone (m : N) :
    Detached t m false (t.detachAlone m).1.clearActive := by
  obtain ⟨hshaped, horder⟩ := h.shaped.detachAlone m
  refine ⟨hshaped, ?_, ?_, active_clearActive, rfl⟩
  · intro x
    refine Iff.trans (Eq.to_iff (congrArg (x ∈ ·) horder)) ?_
    rw [mem_filter, decide_eq_true_eq]
    rfl
  · intro x
    refine Iff.trans (b := ((t.members.erase m).lookup x).isSome) Iff.rfl ?_
    rw [Table.lookup_erase_if]
    by_cases hx : x = m <;> simp [hx, GraphTree.contains, Taken]

theorem Sound.detached (hd : Detached t m recursive t')
    (hkept : ∀ a, t.scrollAnchor = some a → ¬ t.Taken m recursive a) : t'.Sound where
  shaped := hd.shaped
  members := by
    intro x
    rw [hd.order, hd.contains, h.members]
  active := hd.active
  anchor := by
    intro a ha
    rw [hd.anchor] at ha
    exact (hd.contains a).mpr ⟨h.anchor a ha, hkept a ha⟩

theorem Sound.keeps_detach_iff :
    t.Keeps (.detach m recursive) ↔
      ∀ a, t.scrollAnchor = some a → ¬ t.Taken m recursive a := by
  refine forall_congr' fun a => imp_congr_right fun _ => ?_
  cases recursive with
  | false => exact Iff.rfl
  | true =>
    obtain ⟨answer, hanswer, hiff⟩ := h.shaped.isAncestorOf m a
    rw [hanswer, Taken, ← hiff]
    cases answer <;> simp

theorem Sound.not_taken (hm : ¬ t.contains m) (recursive : Bool) {a : N}
    (ha : t.scrollAnchor = some a) : ¬ t.Taken m recursive a := by
  intro htaken
  have hne : a ≠ m := by
    rintro rfl
    exact hm (h.anchor a ha)
  cases recursive with
  | false => exact hne htaken
  | true =>
    rcases ReflTransGen.cases_tail htaken with heq | ⟨c, -, hc⟩
    · exact hne heq.symm
    · exact hm ((h.members m).mp (h.shaped.held c m hc).2)

theorem Sound.applyDetach (m : N) (recursive : Bool) :
    ∃ t' r, t.applyDetach m recursive = some (t', r) ∧
      (t' = t ∧ ¬ t.contains m ∨ Detached t m recursive t') := by
  unfold GraphTree.applyDetach
  split
  · exact ⟨t, _, rfl, .inl ⟨rfl, ‹_›⟩⟩
  · cases recursive with
    | true =>
      obtain ⟨t', intents, hdetach, hd⟩ := h.detachSubtree m
      rw [hdetach]
      exact ⟨_, _, rfl, .inr hd⟩
    | false => exact ⟨_, _, rfl, .inr (h.detachAlone m)⟩

/-! ### Moving and reordering -/

theorem Sound.applyReparent (m q : N) :
    ∃ t' r, t.applyReparent m q = some (t', r) ∧ t'.Sound := by
  unfold GraphTree.applyReparent
  split
  · exact ⟨t, _, rfl, h⟩
  · obtain ⟨moved, topology, hreparent, hshaped, horder⟩ := h.shaped.reparent m q
    rw [hreparent]
    refine ⟨_, _, rfl, hshaped, ?_, h.active, h.anchor⟩
    intro x
    refine Iff.trans (horder ▸ Iff.rfl) (h.members x)

theorem Sound.applyReorder {p : N} {newOrder : List N}
    (hkeeps : t.Keeps (.reorder p newOrder)) : (t.applyReorder p newOrder).1.Sound := by
  unfold GraphTree.applyReorder
  split
  · exact h
  · refine ⟨h.shaped.reorderChildren hkeeps, ?_, h.active, h.anchor⟩
    intro x
    refine Iff.trans ?_ (h.members x)
    rw [(TreeTopology.reorderChildren_spec _ _).2.2.2]

/-! ### Focus -/

omit h in
theorem nextIdx_lt {len : Nat} {current : Option Nat} (hlen : 0 < len)
    (hcurrent : ∀ i, current = some i → i < len) (direction : FocusDirection) :
    nextIdx len current direction < len := by
  cases current with
  | none => exact hlen
  | some i =>
    have hi := hcurrent i rfl
    cases direction with
    | next => exact Nat.mod_lt _ hlen
    | previous =>
      change (if i = 0 then len - 1 else i - 1) < len
      split <;> omega

omit h in
theorem currentIdx_lt (candidates : List N) (i : Nat) (h : t.currentIdx candidates = some i) :
    i < candidates.length := by
  obtain ⟨active, -, hidx⟩ := bind_eq_some_iff.mp h
  exact (findIdx?_eq_some_iff_getElem.mp hidx).1

theorem Sound.focus {candidates : List N} (hin : ∀ m ∈ candidates, t.contains m)
    (direction : FocusDirection) :
    ∃ t' r, t.focus candidates (nextIdx candidates.length (t.currentIdx candidates) direction) =
      some (t', r) ∧ t'.Sound := by
  unfold GraphTree.focus
  split
  · exact ⟨t, _, rfl, h⟩
  · rename_i hne
    have hlen : 0 < candidates.length := by
      rw [length_pos_iff]
      simpa using hne
    have hlt := nextIdx_lt hlen (currentIdx_lt (t := t) candidates) direction
    rw [getElem?_eq_getElem hlt]
    refine ⟨_, _, rfl, h.session rfl (fun _ => rfl) ?_ h.anchor⟩
    intro m hm
    rw [← some.inj hm]
    exact hin _ (getElem_mem hlt)

omit h in
theorem mem_shown {p c : N} (hc : c ∈ t.shown p) : c ∈ t.topology.childrenOf p := by
  unfold shown at hc
  split at hc
  · exact hc
  · cases hc

theorem Sound.visibleRows :
    ∃ rows, t.visibleRows = some rows ∧ Walks t.shown t.row 0 t.topology.roots rows :=
  foldlM_walks (f := t.walkNode)
    (fun r _ out => h.shaped.walk_ends t.row (fun _ _ => mem_shown) r out) []

theorem Sound.contains_of_row {rows : List (OwnedTreeRow N)}
    (hrows : Walks t.shown t.row 0 t.topology.roots rows) :
    ∀ row ∈ rows, t.contains row.member := by
  intro row hrow
  obtain ⟨_, c, ⟨r, hr, hc⟩, rfl⟩ := hrows.sound row hrow
  refine (h.members c).mp ((h.shaped.mem_order_iff c).mpr ⟨r, hr, ?_⟩)
  exact ReflTransGen.mono (fun _ _ => mem_shown) _ _ hc

theorem Sound.applyCycleFocus (direction : FocusDirection) :
    ∃ t' r, t.applyCycleFocus direction = some (t', r) ∧ t'.Sound := by
  obtain ⟨rows, hrows, hwalks⟩ := h.visibleRows
  have hmembers : ∀ m ∈ rows.map (·.member), t.contains m := by
    intro m hm
    obtain ⟨row, hrow, rfl⟩ := mem_map.mp hm
    exact h.contains_of_row hwalks row hrow
  obtain ⟨t', r, hfocus, hsound⟩ := h.focus hmembers direction
  refine ⟨t', r, ?_, hsound⟩
  rw [length_map] at hfocus
  rw [GraphTree.applyCycleFocus, hrows]
  exact hfocus

theorem Sound.applyCycleFocusRegion (hkeys : keys.Perm t.members.keys) (region : FocusCycleRegion) :
    ∃ t' r, t.applyCycleFocusRegion keys region = some (t', r) ∧ t'.Sound := by
  have hkey : ∀ m ∈ keys, t.contains m := by
    intro m hm
    rw [hkeys.mem_iff] at hm
    exact AList.lookup_isSome.mpr hm
  refine h.focus ?_ .next
  intro m hm
  cases region with
  | roots => exact (h.members m).mp ((h.shaped.top m).mp hm).1
  | branches | leaves => exact hkey m (mem_filter.mp hm).1

/-! ## Every action -/

theorem Sound.apply (hkeys : keys.Perm t.members.keys) (hkeeps : t.Keeps action) :
    ∃ t' r, t.apply keys action = some (t', r) ∧ t'.Sound := by
  cases action with
  | select m => exact ⟨_, _, rfl, h.applySelect m⟩
  | activate m => exact ⟨_, _, rfl, h.applyActivate m⟩
  | dismiss m => exact ⟨_, _, rfl, h.applyDismiss m⟩
  | toggleExpand m | setLayoutMode mode | setLens lens =>
    exact ⟨_, _, rfl, h.session rfl (fun _ => rfl) h.active h.anchor⟩
  | reveal m => exact h.applyReveal m
  | attach m provenance => exact ⟨_, _, rfl, h.applyAttach m provenance⟩
  | detach m recursive =>
    obtain ⟨t', r, hdetach, ⟨rfl, -⟩ | hd⟩ := h.applyDetach m recursive
    · exact ⟨_, r, hdetach, h⟩
    · exact ⟨t', r, hdetach, h.detached hd (h.keeps_detach_iff.mp hkeeps)⟩
  | reparent m q => exact h.applyReparent m q
  | reorder p newOrder => exact ⟨_, _, rfl, h.applyReorder hkeeps⟩
  | setLifecycle m lifecycle | setLayoutOverride m layoutOverride =>
    exact ⟨_, _, rfl, h.applyAmend m _⟩
  | cycleFocus direction => exact h.applyCycleFocus direction
  | cycleFocusRegion region => exact h.applyCycleFocusRegion hkeys region

theorem Sound.broken (keys : List N) (hbreaks : ¬ t.Keeps action) :
    ∃ t' r, t.apply keys action = some (t', r) ∧ ¬ t'.WellFormed := by
  cases action with
  | reorder p newOrder =>
    have hp : t.contains p := by
      by_contra hp
      have hempty : t.topology.childrenOf p = [] :=
        (h.shaped.none_of_not_mem fun hin => hp ((h.members p).mp hin)).2.1
      exact hbreaks (by simp [Keeps, hempty])
    refine ⟨_, _, congrArg some (if_neg (not_not.mpr hp)), fun hwf => hbreaks ?_⟩
    have hnodup := hwf.topology.childrenNodup p
    rw [(TreeTopology.reorderChildren_spec _ _).1, if_pos rfl] at hnodup
    exact (TreeTopology.reordered_nodup_iff (h.shaped.childrenNodup p)).mp hnodup
  | detach m recursive =>
    rw [h.keeps_detach_iff] at hbreaks
    push Not at hbreaks
    obtain ⟨a, ha, htaken⟩ := hbreaks
    obtain ⟨t', r, hdetach, ⟨-, hm⟩ | hd⟩ := h.applyDetach m recursive
    · exact absurd htaken (h.not_taken hm recursive ha)
    · refine ⟨t', r, hdetach, fun hwf => ?_⟩
      have hin := hwf.anchor a (hd.anchor.trans ha)
      exact ((hd.contains a).mp hin).2 htaken
  | _ => exact absurd trivial hbreaks

end

/-! ## Every run -/

theorem sound_reach {layout : LayoutMode} {lens : ProjectionLens}
    (h : Reach (new layout lens : GraphTree N) step Allowed t) : t.Sound := by
  refine h.invariant (sound_new layout lens) ?_
  rintro s s' turn hs ⟨hkeys, hkeeps⟩ hstep
  obtain ⟨t', r, happly, hsound⟩ := hs.apply hkeys hkeeps
  rw [step, happly] at hstep
  obtain rfl := some.inj hstep
  exact hsound

/-- Every action returns, and leaves a well formed tree exactly where the condition holds. -/
theorem wellFormed_step_iff {layout : LayoutMode} {lens : ProjectionLens}
    (h : Reach (new layout lens : GraphTree N) step Allowed t) :
    t.WellFormed ∧ ∀ turn, t.Walked turn →
      ∃ t', t.step turn = some t' ∧ (t'.WellFormed ↔ t.Keeps turn.action) := by
  have hsound := sound_reach h
  refine ⟨hsound.wellFormed, fun turn hkeys => ?_⟩
  by_cases hkeeps : t.Keeps turn.action
  · obtain ⟨t', r, happly, hsound'⟩ := hsound.apply hkeys hkeeps
    exact ⟨t', by rw [step, happly]; rfl, iff_of_true hsound'.wellFormed hkeeps⟩
  · obtain ⟨t', r, happly, hbroken⟩ := hsound.broken turn.keys hkeeps
    exact ⟨t', by rw [step, happly]; rfl, iff_of_false hbroken hkeeps⟩

def rootOnly : GraphTree Nat :=
  ((new .treeStyleTabs .traversal : GraphTree Nat).applyAttach 1 .anchor).1

def rootAndChild : GraphTree Nat := (rootOnly.applyAttach 2 (.traversal 1 none)).1

theorem wellFormed_step_iff_child :
    rootAndChild.topology.childrenOf 1 = [2] ∧ rootAndChild.WellFormed := by
  have hroot : Reach (new .treeStyleTabs .traversal) step Allowed rootOnly :=
    Reach.start.next (a := ⟨.attach 1 .anchor, []⟩) ⟨List.Perm.refl [], trivial⟩ rfl
  have hchild : Reach (new .treeStyleTabs .traversal) step Allowed rootAndChild :=
    hroot.next (a := ⟨.attach 2 (.traversal 1 none), [1]⟩) ⟨List.Perm.refl [1], trivial⟩ rfl
  exact ⟨by decide, (wellFormed_step_iff hchild).1⟩

/-- A child listed twice after a reorder, and a scroll anchor that names nobody after a detach. -/
theorem reorder_and_detach_break :
    (∃ t, runs step (new .treeStyleTabs .traversal : GraphTree Nat)
      [⟨.attach 1 .anchor, []⟩, ⟨.attach 2 (.traversal 1 none), [1]⟩,
        ⟨.reorder 1 [2, 2], [2, 1]⟩] = some t ∧ ¬ t.WellFormed) ∧
    ∃ t, runs step (new .treeStyleTabs .traversal : GraphTree Nat)
      [⟨.attach 1 .anchor, []⟩, ⟨.reveal 1, [1]⟩, ⟨.detach 1 false, [1]⟩] = some t ∧
        ¬ t.WellFormed := by
  refine ⟨⟨_, rfl, fun h => ?_⟩, _, rfl, fun h => ?_⟩
  · have hnodup := h.topology.childrenNodup 1
    revert hnodup
    decide
  · have hanchor := h.anchor 1 rfl
    revert hanchor
    decide

end GraphTree

end Mere.Forme
