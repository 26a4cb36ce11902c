import Mere.Base.Loop

/-!
# Passing sets on

Every node of a graph holds a set and passes it to the nodes it leads to, in the order of a queue of
those whose set has grown.
-/

namespace Mere

open List Option Finset Relation

variable {V R : Type} [DecidableEq V] [DecidableEq R]

structure Spread (V R : Type) where
  sets : V → Finset R
  queue : List V

namespace Spread

def pass (roots : Finset R) (s : Spread V R) (w : V) : Spread V R where
  sets := Function.update s.sets w (s.sets w ∪ roots)
  queue := if (s.sets w ∪ roots).card ≠ (s.sets w).card then s.queue ++ [w] else s.queue

variable (next : V → List V)

def step (s : Spread V R) : Option (Spread V R) :=
  match s.queue with
  | [] => none
  | v :: rest => some ((next v).foldl (pass (s.sets v)) { s with queue := rest })

/-! ## One node's turn -/

variable {roots : Finset R} {s s' : Spread V R}

theorem sets_pass (w v : V) :
    (s.pass roots w).sets v = if v = w then s.sets w ∪ roots else s.sets v :=
  Function.update_apply _ _ _ _

theorem subset_pass (w v : V) : s.sets v ⊆ (s.pass roots w).sets v := by
  rw [sets_pass]
  split
  · rename_i h
    rw [h]
    exact subset_union_left
  · exact Finset.Subset.refl _

theorem mem_queue_pass {w v : V}
    (h : v ∈ s.queue ∨ (s.pass roots w).sets v ≠ s.sets v) : v ∈ (s.pass roots w).queue := by
  unfold pass
  rcases h with h | h
  · split
    · exact mem_append_left _ h
    · exact h
  · rw [sets_pass] at h
    split at h
    · rename_i hvw
      rw [hvw, if_pos fun hcard => h ?_]
      · exact List.mem_append_right _ (List.mem_singleton_self w)
      · rw [hvw]
        exact (eq_of_subset_of_card_le subset_union_left hcard.le).symm
    · exact absurd rfl h

structure Passed (roots : Finset R) (ws : List V) (s s' : Spread V R) : Prop where
  grows : ∀ v, s.sets v ⊆ s'.sets v
  takes : ∀ w ∈ ws, roots ⊆ s'.sets w
  only : ∀ v, ∀ r ∈ s'.sets v, r ∈ s.sets v ∨ r ∈ roots ∧ v ∈ ws
  queued : ∀ v, v ∈ s.queue ∨ s'.sets v ≠ s.sets v → v ∈ s'.queue

theorem passed_foldl (roots : Finset R) (ws : List V) (s : Spread V R) :
    Passed roots ws s (ws.foldl (pass roots) s) := by
  induction ws generalizing s with
  | nil =>
    exact ⟨fun _ => Finset.Subset.refl _, nofun, fun _ _ h => .inl h, by simp⟩
  | cons w ws ih =>
    have h := ih (s.pass roots w)
    rw [foldl_cons]
    refine ⟨fun v => (subset_pass w v).trans (h.grows v), fun v hv => ?_, fun v r hr => ?_,
      fun v hv => ?_⟩
    · rcases mem_cons.mp hv with rfl | hv
      · refine Finset.Subset.trans ?_ (h.grows v)
        rw [sets_pass, if_pos rfl]
        exact subset_union_right
      · exact h.takes v hv
    · rcases h.only v r hr with hr | ⟨hr, hv⟩
      · rw [sets_pass] at hr
        split at hr
        · rename_i hvw
          rcases mem_union.mp hr with hr | hr
          · exact .inl (hvw ▸ hr)
          · exact .inr ⟨hr, hvw ▸ mem_cons_self⟩
        · exact .inl hr
      · exact .inr ⟨hr, mem_cons_of_mem _ hv⟩
    · by_cases hsame : (ws.foldl (pass roots) (s.pass roots w)).sets v = (s.pass roots w).sets v
      · rw [hsame] at hv
        exact h.queued v (.inl (mem_queue_pass hv))
      · exact h.queued v (.inr hsame)

/-! ## The whole run -/

variable (start : V → Finset R)

/-- Where the loop is: what a node holds came to it, and who is not queued has passed it on. -/
structure Spreading (s : Spread V R) : Prop where
  begun : ∀ v, start v ⊆ s.sets v
  came : ∀ v, ∀ r ∈ s.sets v, ∃ u, r ∈ start u ∧ ReflTransGen (fun u w => w ∈ next u) u v
  passed : ∀ v, v ∉ s.queue → ∀ w ∈ next v, s.sets v ⊆ s.sets w

variable {next start}

theorem Spreading.step (h : Spreading next start s) (hstep : s.step next = some s') :
    Spreading next start s' := by
  obtain ⟨sets, queue⟩ := s
  cases queue with
  | nil => cases hstep
  | cons v rest =>
    obtain rfl := some.inj hstep
    have hturn := passed_foldl (sets v) (next v) ⟨sets, rest⟩
    refine ⟨fun u => (h.begun u).trans (hturn.grows u), fun u r hr => ?_, fun u hu w hw => ?_⟩
    · rcases hturn.only u r hr with hr | ⟨hr, hu⟩
      · exact h.came u r hr
      · obtain ⟨origin, horigin, hreach⟩ := h.came v r hr
        exact ⟨origin, horigin, hreach.tail hu⟩
    · have hsame : (List.foldl (pass (sets v)) ⟨sets, rest⟩ (next v)).sets u = sets u := by
        by_contra hne
        exact hu (hturn.queued u (.inr hne))
      rw [hsame]
      by_cases huv : u = v
      · subst huv
        exact hturn.takes w hw
      · have hold : u ∉ v :: rest := by
          rw [List.mem_cons, not_or]
          exact ⟨huv, fun hmem => hu (hturn.queued u (.inl hmem))⟩
        exact (h.passed u hold w hw).trans (hturn.grows w)

theorem Spreading.mem_iff (h : Spreading next start s) (hstopped : s.step next = none) (v : V)
    (r : R) :
    r ∈ s.sets v ↔ ∃ u, r ∈ start u ∧ ReflTransGen (fun u w => w ∈ next u) u v := by
  refine ⟨h.came v r, ?_⟩
  rintro ⟨u, hr, hreach⟩
  have hempty : s.queue = [] := by
    cases hqueue : s.queue with
    | nil => rfl
    | cons v rest =>
      unfold Spread.step at hstopped
      rw [hqueue] at hstopped
      cases hstopped
  induction hreach with
  | refl => exact h.begun u hr
  | tail _ hlink ih => exact h.passed _ (by rw [hempty]; exact not_mem_nil) _ hlink ih

/-! ## It ends -/

section Ends

variable (nodes : Finset V) (bound : Finset R)

/-- What is queued and what the sets can still grow by. -/
def measure (s : Spread V R) : Nat :=
  s.queue.length + ∑ v ∈ nodes, (bound.card - (s.sets v).card)

variable {nodes bound}

theorem measure_pass (hs : ∀ v, s.sets v ⊆ bound) (hroots : roots ⊆ bound) {w : V}
    (hw : w ∈ nodes) :
    (s.pass roots w).measure nodes bound ≤ s.measure nodes bound ∧
      ∀ v, (s.pass roots w).sets v ⊆ bound := by
  refine ⟨?_, fun v => ?_⟩
  · unfold measure
    rw [← add_sum_erase _ _ hw, ← add_sum_erase _ _ hw]
    have hothers : ∑ v ∈ nodes.erase w, (bound.card - ((s.pass roots w).sets v).card) =
        ∑ v ∈ nodes.erase w, (bound.card - (s.sets v).card) :=
      sum_congr rfl fun v hv => by rw [sets_pass, if_neg (ne_of_mem_erase hv)]
    rw [hothers, sets_pass, if_pos rfl]
    have hle := card_le_card (@subset_union_left R _ (s.sets w) roots)
    have hmax := card_le_card (union_subset (hs w) hroots)
    unfold pass
    simp only
    split
    · rw [length_append, length_singleton]
      omega
    · omega
  · rw [sets_pass]
    split
    · exact union_subset (hs w) hroots
    · exact hs v

theorem measure_foldl (hs : ∀ v, s.sets v ⊆ bound) (hroots : roots ⊆ bound) {ws : List V}
    (hws : ∀ w ∈ ws, w ∈ nodes) :
    (ws.foldl (pass roots) s).measure nodes bound ≤ s.measure nodes bound ∧
      ∀ v, (ws.foldl (pass roots) s).sets v ⊆ bound := by
  induction ws generalizing s with
  | nil => exact ⟨le_rfl, hs⟩
  | cons w ws ih =>
    obtain ⟨hle, hbound⟩ := measure_pass hs hroots (hws w mem_cons_self)
    obtain ⟨hle', hbound'⟩ := ih hbound fun v hv => hws v (mem_cons_of_mem _ hv)
    exact ⟨hle'.trans hle, hbound'⟩

theorem measure_step (hnext : ∀ v, ∀ w ∈ next v, w ∈ nodes) (hs : ∀ v, s.sets v ⊆ bound)
    (hstep : s.step next = some s') :
    (∀ v, s'.sets v ⊆ bound) ∧ s'.measure nodes bound < s.measure nodes bound := by
  obtain ⟨sets, queue⟩ := s
  cases queue with
  | nil => cases hstep
  | cons v rest =>
    obtain rfl := some.inj hstep
    obtain ⟨hle, hbound⟩ := measure_foldl (s := ⟨sets, rest⟩) hs (hs v) (hnext v)
    refine ⟨hbound, hle.trans_lt ?_⟩
    simp [measure]

theorem mem_spread {fuel : Nat} {queue : List V} (hnext : ∀ v, ∀ w ∈ next v, w ∈ nodes)
    (hstart : ∀ v, start v ⊆ bound) (hqueue : ∀ v, (start v).Nonempty → v ∈ queue)
    (hfuel : queue.length + nodes.card * bound.card ≤ fuel) (v : V) (r : R) :
    r ∈ (settle (step next) fuel ⟨start, queue⟩).sets v ↔
      ∃ u, r ∈ start u ∧ ReflTransGen (fun u w => w ∈ next u) u v := by
  have hspreading : Spreading next start ⟨start, queue⟩ := by
    refine ⟨fun _ => Finset.Subset.refl _, fun v r hr => ⟨v, hr, .refl⟩, fun v hv w _ => ?_⟩
    have hempty : start v = ∅ := not_nonempty_iff_eq_empty.mp fun hne => hv (hqueue v hne)
    change start v ⊆ start w
    rw [hempty]
    exact empty_subset _
  have hstopped := step_settle_of_measure (P := fun s : Spread V R => ∀ v, s.sets v ⊆ bound)
    (measure nodes bound) (fun a b ha hab => measure_step hnext ha hab)
    (s := ⟨start, queue⟩) hstart (n := fuel) <| by
      refine le_trans ?_ hfuel
      refine Nat.add_le_add_left ?_ _
      exact sum_le_card_nsmul _ _ _ fun v _ => Nat.sub_le _ _
  exact (settle_keeps (fun a b ha hab => ha.step hab) hspreading).mem_iff hstopped v r

end Ends

end Spread

end Mere
