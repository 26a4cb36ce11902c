import Mere.Base.Loop

/-!
# Ordering by dependencies

A greedy order puts next, of all nodes whose dependencies are placed, the least. There is one at
most (`Greedy.eq_of_length`).
-/

namespace Mere

open List Finset Relation

/-! ## Greedy orders -/

section Greedy

variable {J : Type} (C : J → Prop) (dep le : J → J → Prop)

structure Placeable (placed : List J) (j : J) : Prop where
  node : C j
  unplaced : j ∉ placed
  deps : ∀ d, C d → dep j d → d ∈ placed

inductive Greedy : List J → Prop
  | nil : Greedy []
  | snoc {placed : List J} {j : J} : Greedy placed → Placeable C dep placed j →
      (∀ k, Placeable C dep placed k → le j k) → Greedy (placed ++ [j])

namespace Greedy

variable {C dep le} {l l' : List J}

section

variable (h : Greedy C dep le l)
include h

theorem nodes : ∀ j ∈ l, C j := by
  induction h with
  | nil => exact nofun
  | snoc _ hj _ ih =>
    intro k hk
    rcases mem_append.mp hk with hk | hk
    · exact ih k hk
    · exact List.mem_singleton.mp hk ▸ hj.node

theorem nodup : l.Nodup := by
  induction h with
  | nil => exact nodup_nil
  | snoc _ hj _ ih => exact nodup_append.mpr ⟨ih, nodup_singleton _, fun a ha b hb =>
      List.mem_singleton.mp hb ▸ fun heq => hj.unplaced (heq ▸ ha)⟩

theorem of_isPrefix {before : List J} {j : J} (hbefore : before ++ [j] <+: l) :
    Greedy C dep le before ∧ Placeable C dep before j ∧ ∀ k, Placeable C dep before k → le j k := by
  induction h with
  | nil => exact absurd (prefix_nil.mp hbefore) (by simp)
  | snoc hplaced hj hleast ih =>
    rcases prefix_concat_iff.mp hbefore with heq | hbefore
    · obtain ⟨rfl, hsame⟩ := append_inj' heq rfl
      obtain rfl := singleton_inj.mp hsame
      exact ⟨hplaced, hj, hleast⟩
    · exact ih hbefore

theorem deps_before {before after : List J} {j : J}
    (heq : l = before ++ j :: after) : ∀ d, C d → dep j d → d ∈ before :=
  (h.of_isPrefix ⟨after, by rw [heq]; simp⟩).2.1.deps

omit h in
theorem isPrefix (hanti : ∀ a b, C a → C b → le a b → le b a → a = b) (h : Greedy C dep le l)
    (h' : Greedy C dep le l') (hlength : l.length ≤ l'.length) : l <+: l' := by
  induction h with
  | nil => exact nil_prefix
  | @snoc placed j hplaced hj hleast ih =>
    rw [length_append] at hlength
    obtain ⟨rest, rfl⟩ := ih (by omega)
    cases rest with
    | nil => simp at hlength
    | cons k rest =>
      have hbefore : placed ++ [k] <+: placed ++ k :: rest := ⟨rest, by simp⟩
      obtain ⟨-, hk, hleast'⟩ := h'.of_isPrefix hbefore
      obtain rfl := hanti j k hj.node hk.node (hleast k hk) (hleast' j hj)
      exact ⟨rest, by simp⟩

omit h in
theorem eq_of_length (hanti : ∀ a b, C a → C b → le a b → le b a → a = b) (h : Greedy C dep le l)
    (h' : Greedy C dep le l') (hlength : l.length = l'.length) : l = l' :=
  (h.isPrefix hanti h' hlength.le).eq_of_length hlength

theorem acyclic (hclosed : ∀ a b, C a → dep a b → C b)
    (hall : ∀ j, C j → j ∈ l) (j : J) (hj : C j) : ¬TransGen dep j j := by
  intro hcycle
  have hlater : ∀ k, TransGen dep j k → ∀ before after, l = before ++ j :: after →
      k ∈ before := by
    intro k hk before after heq
    have hsub {a b : J} (ha : a ∈ before) (hab : dep a b) : b ∈ before := by
      obtain ⟨x, y, rfl⟩ := append_of_mem ha
      have hsplit : l = x ++ a :: (y ++ j :: after) := by rw [heq]; simp
      have ha : C a := h.nodes a (by rw [hsplit]; simp)
      exact mem_append_left _ (h.deps_before hsplit b (hclosed a b ha hab) hab)
    induction hk with
    | single hjk => exact h.deps_before heq _ (hclosed j _ hj hjk) hjk
    | tail _ hlink ih => exact hsub ih hlink
  obtain ⟨before, after, heq⟩ := append_of_mem (hall j hj)
  have hmem := hlater j hcycle before after heq
  have hnodup := heq ▸ h.nodup
  exact (nodup_append.mp hnodup).2.2 j hmem j mem_cons_self rfl

end

theorem cyclic (hfinite : {j | C j}.Finite)
    (hstuck : ∀ j, ¬Placeable C dep l j) {j : J} (hj : C j) (hleft : j ∉ l) :
    ∃ k, C k ∧ TransGen dep k k := by
  by_contra hnone
  push Not at hnone
  have hfin : Finite {j // C j ∧ j ∉ l} := (hfinite.subset fun j hj => hj.1).to_subtype
  let r : {j // C j ∧ j ∉ l} → {j // C j ∧ j ∉ l} → Prop :=
    fun a b => TransGen dep b.1 a.1
  have : Std.Irrefl r := ⟨fun a ha => hnone a.1 a.2.1 ha⟩
  obtain ⟨a, -, hleast⟩ := (Finite.wellFounded_of_trans_of_irrefl r).has_min Set.univ ⟨⟨j, hj, hleft⟩, trivial⟩
  refine hstuck a.1 ⟨a.2.1, a.2.2, fun d hd hdep => ?_⟩
  by_contra hdleft
  exact hleast ⟨d, hd, hdleft⟩ trivial (.single hdep)

theorem map {I : Type} {D : I → Prop} {dep' le' : I → I → Prop} {m : List I} {f : I → J}
    (h : Greedy D dep' le' m) (hf : Function.Injective f) (hC : ∀ j, C j ↔ ∃ i, D i ∧ f i = j)
    (hdep : ∀ a b, D a → D b → (dep (f a) (f b) ↔ dep' a b))
    (hle : ∀ a b, D a → D b → le' a b → le (f a) (f b)) : Greedy C dep le (m.map f) := by
  have hplaceable {placed : List I} {i : I} :
      Placeable C dep (placed.map f) (f i) ↔ Placeable D dep' placed i := by
    constructor
    · intro hi
      obtain ⟨i', hi', heq⟩ := (hC (f i)).mp hi.node
      obtain rfl := hf heq
      refine ⟨hi', fun hmem => hi.unplaced (mem_map_of_mem hmem), fun d hd hid => ?_⟩
      have hmem := hi.deps (f d) ((hC _).mpr ⟨d, hd, rfl⟩) ((hdep i' d hi' hd).mpr hid)
      exact (mem_map_of_injective hf).mp hmem
    · intro hi
      refine ⟨(hC _).mpr ⟨i, hi.node, rfl⟩,
        fun hmem => hi.unplaced ((mem_map_of_injective hf).mp hmem), fun d hd hid => ?_⟩
      obtain ⟨d, hd', rfl⟩ := (hC d).mp hd
      exact mem_map_of_mem (hi.deps d hd' ((hdep i d hi.node hd').mp hid))
  induction h with
  | nil => exact .nil
  | @snoc placed i _ hi hleast ih =>
    rw [map_append]
    refine .snoc ih (hplaceable.mpr hi) fun k hk => ?_
    obtain ⟨k, hk', rfl⟩ := (hC k).mp hk.node
    exact hle i k hi.node hk' (hleast k (hplaceable.mp hk))

end Greedy

end Greedy

/-! ## Kahn's loop -/

section Kahn

variable {I K : Type} [DecidableEq I] [LinearOrder K]

structure Kahn (I K : Type) where
  ready : Finset K
  indegree : I → Nat
  order : List I

namespace Kahn

variable (key : I → K) (index : K → I) (dependents : I → List I) (complete : I → Bool)

def release (s : Kahn I K) (d : I) : Kahn I K :=
  if !complete d then s
  else
    { s with
      indegree := Function.update s.indegree d (s.indegree d - 1)
      ready := if s.indegree d - 1 = 0 then insert (key d) s.ready else s.ready }

def step (s : Kahn I K) : Option (Kahn I K) :=
  if h : s.ready.Nonempty then
    some ((dependents (index (s.ready.min' h))).foldl (release key complete)
      { s with ready := s.ready.erase (s.ready.min' h), order := s.order ++ [index (s.ready.min' h)] })
  else none

variable {key index dependents complete} {s s' : Kahn I K}

theorem indegree_release (d e : I) : (release key complete s d).indegree e =
    if e = d ∧ complete d = true then s.indegree e - 1 else s.indegree e := by
  unfold release
  by_cases he : e = d
  · subst he
    cases complete e <;> simp
  · cases complete d <;> simp [he]

theorem mem_ready_release (d : I) (k : K) : k ∈ (release key complete s d).ready ↔
    k ∈ s.ready ∨ complete d = true ∧ s.indegree d - 1 = 0 ∧ key d = k := by
  unfold release
  cases complete d
  · simp
  · by_cases hzero : s.indegree d - 1 = 0
    · simp [hzero, or_comm, eq_comm]
    · simp [hzero]

theorem release_foldl {ds : List I} (hds : ds.Nodup) (s : Kahn I K) :
    let s' := ds.foldl (release key complete) s
    s'.order = s.order ∧
      (∀ d, s'.indegree d =
        if d ∈ ds ∧ complete d = true then s.indegree d - 1 else s.indegree d) ∧
      ∀ k, k ∈ s'.ready ↔ k ∈ s.ready ∨
        ∃ d ∈ ds, complete d = true ∧ s.indegree d - 1 = 0 ∧ key d = k := by
  induction ds generalizing s with
  | nil => simp
  | cons d ds ih =>
    obtain ⟨hnot, hds⟩ := nodup_cons.mp hds
    obtain ⟨horder, hindegree, hready⟩ := ih hds (release key complete s d)
    rw [foldl_cons]
    refine ⟨?_, fun e => ?_, fun k => ?_⟩
    · rw [horder]
      unfold release
      split <;> rfl
    · rw [hindegree, indegree_release]
      by_cases he : e = d
      · subst he
        simp [hnot]
      · simp [he]
    · have hothers : (∃ e ∈ ds, complete e = true ∧
          (release key complete s d).indegree e - 1 = 0 ∧ key e = k) ↔
          ∃ e ∈ ds, complete e = true ∧ s.indegree e - 1 = 0 ∧ key e = k := by
        refine exists_congr fun e => and_congr_right fun he => ?_
        rw [indegree_release, if_neg fun heq : e = d ∧ _ => hnot (heq.1 ▸ he)]
      rw [hready, mem_ready_release, hothers, exists_mem_cons_iff, or_assoc]

/-! ## What the loop keeps -/

structure Reads (key : I → K) (index : K → I) (dependents : I → List I) (complete : I → Bool)
    (deps : I → Finset I) : Prop where
  index_key : ∀ i, index (key i) = i
  dual : ∀ i d, d ∈ dependents i ↔ i ∈ deps d
  once : ∀ i, (dependents i).Nodup
  closed : ∀ i, complete i = true → ∀ d ∈ deps i, complete d = true

variable {deps : I → Finset I}

abbrev Open (complete : I → Bool) (deps : I → Finset I) : List I → I → Prop :=
  Placeable (fun i => complete i = true) fun i d => d ∈ deps i

/-- The order so far is greedy, and the counts and the ready set are about it. -/
structure Placing (key : I → K) (complete : I → Bool) (deps : I → Finset I) (s : Kahn I K) : Prop where
  greedy : Greedy (fun i => complete i = true) (fun i d => d ∈ deps i) (fun i j => key i ≤ key j) s.order
  counts : ∀ d, complete d = true → s.indegree d = ((deps d).filter (· ∉ s.order)).card
  ready : ∀ k, k ∈ s.ready ↔ ∃ i, key i = k ∧ Open complete deps s.order i

variable (hreads : Reads key index dependents complete deps)
include hreads

omit [LinearOrder K] in
theorem placeable_iff {order : List I} {i : I} :
    Open complete deps order i ↔
      complete i = true ∧ i ∉ order ∧ ((deps i).filter (· ∉ order)).card = 0 := by
  rw [card_eq_zero, filter_eq_empty_iff]
  constructor
  · rintro ⟨hnode, hunplaced, hdeps⟩
    exact ⟨hnode, hunplaced, fun d hd => not_not.mpr (hdeps d (hreads.closed i hnode d hd) hd)⟩
  · rintro ⟨hnode, hunplaced, hdeps⟩
    exact ⟨hnode, hunplaced, fun d _ hd => not_not.mp (hdeps hd)⟩

omit hreads in
theorem filter_snoc {order : List I} {i d : I} (hi : i ∉ order) :
    ((deps d).filter (· ∉ order ++ [i])).card =
      if i ∈ deps d then ((deps d).filter (· ∉ order)).card - 1 else ((deps d).filter (· ∉ order)).card := by
  have herase : (deps d).filter (· ∉ order ++ [i]) = ((deps d).filter (· ∉ order)).erase i := by
    ext e
    simp only [Finset.mem_filter, List.mem_append, List.mem_singleton, not_or, Finset.mem_erase]
    tauto
  rw [herase]
  split
  · rename_i hmem
    exact Finset.card_erase_of_mem (Finset.mem_filter.mpr ⟨hmem, hi⟩)
  · rename_i hmem
    rw [Finset.erase_eq_of_notMem fun h => hmem (Finset.mem_filter.mp h).1]

theorem Placing.step
    (h : Placing key complete deps s) (hstep : s.step key index dependents complete = some s') :
    Placing key complete deps s' ∧ s'.order.length = s.order.length + 1 := by
  unfold Kahn.step at hstep
  split at hstep
  case isFalse => cases hstep
  rename_i hne
  obtain rfl := Option.some.inj hstep
  obtain ⟨i, hkey, hi⟩ := (h.ready _).mp (s.ready.min'_mem hne)
  have hindex : index (s.ready.min' hne) = i := by rw [← hkey, hreads.index_key]
  rw [hindex]
  have hleast : ∀ j, Open complete deps s.order j → key i ≤ key j := by
    intro j hj
    rw [hkey]
    exact s.ready.min'_le _ ((h.ready _).mpr ⟨j, rfl, hj⟩)
  have hinj : Function.Injective key := Function.LeftInverse.injective hreads.index_key
  obtain ⟨horder, hindegree, hready⟩ := @release_foldl I K _ _ key complete _ (hreads.once i)
    { s with ready := s.ready.erase (s.ready.min' hne), order := s.order ++ [i] }
  have hcounts : ∀ d, complete d = true →
      (List.foldl (release key complete) { s with
        ready := s.ready.erase (s.ready.min' hne), order := s.order ++ [i] }
        (dependents i)).indegree d = ((deps d).filter (· ∉ s.order ++ [i])).card := by
    intro d hd
    rw [hindegree, filter_snoc hi.unplaced, ← h.counts d hd]
    simp [hreads.dual, hd]
  refine ⟨⟨?_, ?_, fun k => ?_⟩, ?_⟩
  · rw [horder]
    exact .snoc h.greedy hi hleast
  · rw [horder]
    exact hcounts
  · rw [horder, hready, mem_erase, h.ready, ← hkey]
    constructor
    · rintro (⟨hne, j, rfl, hj⟩ | ⟨d, hd, hcomplete, hzero, rfl⟩)
      · refine ⟨j, rfl, hj.node, ?_, fun e he hmem => mem_append_left _ (hj.deps e he hmem)⟩
        intro hmem
        rcases mem_append.mp hmem with hmem | hmem
        · exact hj.unplaced hmem
        · exact hne (congrArg key (List.mem_singleton.mp hmem))
      · refine ⟨d, rfl, (placeable_iff hreads).mpr ⟨hcomplete, ?_, ?_⟩⟩
        · intro hmem
          have hdep := (hreads.dual i d).mp hd
          rcases mem_append.mp hmem with hmem | hmem
          · -- What is placed had all its dependencies placed, and `i` was not.
            obtain ⟨before, after, heq⟩ := append_of_mem hmem
            have hbefore := h.greedy.deps_before heq i hi.node hdep
            exact hi.unplaced (heq ▸ mem_append_left _ hbefore)
          · obtain rfl := List.mem_singleton.mp hmem
            exact hi.unplaced (hi.deps d hi.node hdep)
        · rw [filter_snoc hi.unplaced, if_pos ((hreads.dual i d).mp hd), ← h.counts d hcomplete]
          exact hzero
    · rintro ⟨j, rfl, hj⟩
      obtain ⟨hcomplete, hunplaced, hzero⟩ := (placeable_iff hreads).mp hj
      rw [List.mem_append, not_or, List.mem_singleton] at hunplaced
      rw [filter_snoc hi.unplaced] at hzero
      split at hzero
      · rename_i hdep
        refine .inr ⟨j, (hreads.dual i j).mpr hdep, hcomplete, ?_, rfl⟩
        rw [← h.counts j hcomplete] at hzero
        exact hzero
      · refine .inl ⟨fun heq => hunplaced.2 (hinj heq), j, rfl, ?_⟩
        exact (placeable_iff hreads).mpr ⟨hcomplete, hunplaced.1, hzero⟩
  · rw [horder, length_append, length_singleton]

omit hreads in
theorem Placing.not_placeable_of_stopped (h : Placing key complete deps s)
    (hstopped : s.step key index dependents complete = none) (i : I) :
    ¬Open complete deps s.order i := by
  intro hi
  have hne : s.ready.Nonempty := ⟨key i, (h.ready _).mpr ⟨i, rfl, hi⟩⟩
  unfold Kahn.step at hstopped
  rw [dif_pos hne] at hstopped
  cases hstopped

theorem placing_settle
    (h : Placing key complete deps s) {nodes : Finset I} (hnodes : ∀ i, complete i = true → i ∈ nodes)
    {n : Nat} (hn : nodes.card ≤ n) :
    Placing key complete deps (settle (Kahn.step key index dependents complete) n s) ∧
      ∀ i, ¬Open complete deps (settle (Kahn.step key index dependents complete) n s).order i := by
  have hkeeps : Placing key complete deps (settle (Kahn.step key index dependents complete) n s) :=
    settle_keeps (fun _ _ ha hstep => (ha.step hreads hstep).1) h
  have hstopped : (settle (Kahn.step key index dependents complete) n s).step key index dependents
      complete = none := by
    refine step_settle_of_measure (P := Placing key complete deps)
      (fun s => nodes.card - s.order.length) (fun a b ha hstep => ?_) h (by omega)
    obtain ⟨hb, hlength⟩ := ha.step hreads hstep
    have hsub : b.order.toFinset ⊆ nodes := fun i hi =>
      hnodes i (hb.greedy.nodes i (mem_toFinset.mp hi))
    have hle := card_le_card hsub
    rw [toFinset_card_of_nodup hb.greedy.nodup] at hle
    exact ⟨hb, by omega⟩
  exact ⟨hkeeps, hkeeps.not_placeable_of_stopped hstopped⟩

end Kahn

end Kahn

end Mere
