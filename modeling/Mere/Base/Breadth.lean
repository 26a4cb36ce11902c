import Mathlib

/-!
# Breadth-first walks

A walk sees what a non-empty chain of links reaches, each once, nearest first.
-/

namespace Mere

open List Option

section
variable {V : Type} (next : V → List V)

def Links : Nat → V → V → Prop
  | 0, v, w => v = w
  | n + 1, v, w => ∃ u, Links n v u ∧ w ∈ next u

/-- `n` is the length of the shortest non-empty chain. -/
structure Away (s v : V) (n : Nat) : Prop where
  chain : Links next n s v
  pos : 0 < n
  least : ∀ m, 0 < m → Links next m s v → n ≤ m

variable {next}

theorem transGen_iff_links (s v : V) :
    Relation.TransGen (fun u w => w ∈ next u) s v ↔ ∃ n, 0 < n ∧ Links next n s v := by
  constructor
  · intro h
    induction h with
    | single h => exact ⟨1, Nat.one_pos, s, rfl, h⟩
    | tail _ hlink ih =>
      obtain ⟨n, _, hn⟩ := ih
      exact ⟨n + 1, Nat.succ_pos n, _, hn, hlink⟩
  · rintro ⟨n, hpos, hn⟩
    induction n generalizing v with
    | zero => exact absurd hpos (Nat.lt_irrefl 0)
    | succ n ih =>
      obtain ⟨u, hu, hv⟩ := hn
      rcases Nat.eq_zero_or_pos n with rfl | hn
      · obtain rfl : s = u := hu
        exact .single hv
      · exact (ih u hn hu).tail hv

/-- What a walk from `s` has seen when its queue is empty. -/
structure Visited (next : V → List V) (s : V) (order : List V) : Prop where
  nodup : order.Nodup
  mem_iff : ∀ v, v ∈ order ↔ ∃ n, 0 < n ∧ Links next n s v
  ranked : ∀ v ∈ order, ∃ n, Away next s v n
  nearest : order.Pairwise (fun u v => ∀ m n, Away next s u m → Away next s v n → m ≤ n)

/-- A walk on its way: what is `k` links away is seen, `cur` is what is left of the next
level, `nxt` what the level after it holds so far. -/
structure Sweep (next : V → List V) (s : V) (k : Nat) (cur nxt order : List V) : Prop where
  cur_links : ∀ v ∈ cur, Links next (k + 1) s v
  nxt_links : ∀ v ∈ nxt, Links next (k + 2) s v
  seen : ∀ v m, 0 < m → m ≤ k → Links next m s v → v ∈ order
  level : ∀ v, Links next (k + 1) s v → v ∈ order ∨ v ∈ cur
  closed : ∀ u ∈ order, ∀ w ∈ next u, w ∈ order ∨ w ∈ cur ∨ w ∈ nxt
  nodup : order.Nodup
  ranked : ∀ v ∈ order, ∃ n, n ≤ k + 1 ∧ Away next s v n
  nearest : order.Pairwise (fun u v => ∀ m n, Away next s u m → Away next s v n → m ≤ n)

variable {s v : V} {k : Nat} {nxt order : List V}

theorem Away.unique {m n : Nat} (hm : Away next s v m) (hn : Away next s v n) : m = n :=
  Nat.le_antisymm (hm.least n hn.pos hn.chain) (hn.least m hm.pos hm.chain)

theorem Sweep.start (s : V) : Sweep next s 0 (next s) [] [] where
  cur_links := fun v hv => ⟨s, rfl, hv⟩
  nxt_links := by simp
  seen := fun v m hpos hle => absurd hle (by omega)
  level := by
    rintro v ⟨u, rfl, hv⟩
    exact .inr hv
  closed := by simp
  nodup := nodup_nil
  ranked := by simp
  nearest := List.Pairwise.nil

theorem Sweep.shift (h : Sweep next s k [] nxt order) :
    Sweep next s (k + 1) nxt [] order where
  cur_links := h.nxt_links
  nxt_links := by simp
  seen := by
    intro v m hpos hle hlinks
    rcases Nat.lt_or_ge k m with hk | hk
    · obtain rfl : m = k + 1 := by omega
      exact (h.level v hlinks).resolve_right not_mem_nil
    · exact h.seen v m hpos hk hlinks
  level := by
    rintro v ⟨u, hu, hv⟩
    have hseen := (h.level u hu).resolve_right not_mem_nil
    rcases h.closed u hseen v hv with hv | hv | hv
    · exact .inl hv
    · exact absurd hv not_mem_nil
    · exact .inr hv
  closed := by
    intro u hu w hw
    rcases h.closed u hu w hw with hw | hw | hw
    · exact .inl hw
    · exact absurd hw not_mem_nil
    · exact .inr (.inl hw)
  nodup := h.nodup
  ranked := by
    intro v hv
    obtain ⟨n, hn, haway⟩ := h.ranked v hv
    exact ⟨n, by omega, haway⟩
  nearest := h.nearest

variable {cur : List V}

theorem Sweep.pass
    (h : Sweep next s k (v :: cur) nxt order) (hv : v ∈ order) : Sweep next s k cur nxt order where
  cur_links := fun w hw => h.cur_links w (mem_cons_of_mem _ hw)
  nxt_links := h.nxt_links
  seen := h.seen
  level := by
    intro w hw
    rcases h.level w hw with hw | hw
    · exact .inl hw
    · rcases mem_cons.mp hw with rfl | hw
      · exact .inl hv
      · exact .inr hw
  closed := by
    intro u hu w hw
    rcases h.closed u hu w hw with hw | hw | hw
    · exact .inl hw
    · rcases mem_cons.mp hw with rfl | hw
      · exact .inl hv
      · exact .inr (.inl hw)
    · exact .inr (.inr hw)
  nodup := h.nodup
  ranked := h.ranked
  nearest := h.nearest

theorem Sweep.away
    (h : Sweep next s k (v :: cur) nxt order) (hv : v ∉ order) : Away next s v (k + 1) where
  chain := h.cur_links v mem_cons_self
  pos := Nat.succ_pos k
  least := by
    intro m hpos hlinks
    by_contra hlt
    exact hv (h.seen v m hpos (by omega) hlinks)

theorem Sweep.visit (h : Sweep next s k (v :: cur) nxt order) (hv : v ∉ order) :
    Sweep next s k cur (nxt ++ next v) (order ++ [v]) where
  cur_links := fun w hw => h.cur_links w (mem_cons_of_mem _ hw)
  nxt_links := by
    intro w hw
    rcases mem_append.mp hw with hw | hw
    · exact h.nxt_links w hw
    · exact ⟨v, h.cur_links v mem_cons_self, hw⟩
  seen := fun w m hpos hle hlinks => mem_append_left _ (h.seen w m hpos hle hlinks)
  level := by
    intro w hw
    rcases h.level w hw with hw | hw
    · exact .inl (mem_append_left _ hw)
    · rcases mem_cons.mp hw with rfl | hw
      · exact .inl (mem_append_right _ (mem_singleton_self w))
      · exact .inr hw
  closed := by
    intro u hu w hw
    rcases mem_append.mp hu with hu | hu
    · rcases h.closed u hu w hw with hw | hw | hw
      · exact .inl (mem_append_left _ hw)
      · rcases mem_cons.mp hw with rfl | hw
        · exact .inl (mem_append_right _ (mem_singleton_self w))
        · exact .inr (.inl hw)
      · exact .inr (.inr (mem_append_left _ hw))
    · obtain rfl := mem_singleton.mp hu
      exact .inr (.inr (mem_append_right _ hw))
  nodup := by
    rw [nodup_append]
    refine ⟨h.nodup, nodup_singleton v, ?_⟩
    rintro a ha b hb rfl
    exact hv (mem_singleton.mp hb ▸ ha)
  ranked := by
    intro w hw
    rcases mem_append.mp hw with hw | hw
    · exact h.ranked w hw
    · obtain rfl := mem_singleton.mp hw
      exact ⟨k + 1, le_rfl, h.away hv⟩
  nearest := by
    rw [pairwise_append]
    refine ⟨h.nearest, pairwise_singleton _ v, ?_⟩
    intro u hu w hw m n hm hn
    obtain rfl := mem_singleton.mp hw
    obtain ⟨m', hle, hm'⟩ := h.ranked u hu
    rw [hm.unique hm', hn.unique (h.away hv)]
    exact hle

theorem Sweep.visited (h : Sweep next s k [] [] order) :
    Visited next s order where
  nodup := h.nodup
  mem_iff := by
    intro v
    constructor
    · intro hv
      obtain ⟨n, _, hn⟩ := h.ranked v hv
      exact ⟨n, hn.pos, hn.chain⟩
    · rintro ⟨n, hpos, hlinks⟩
      -- Every link out of what is seen stays in what is seen.
      induction n generalizing v with
      | zero => exact absurd hpos (Nat.lt_irrefl 0)
      | succ n ih =>
        by_cases hn : n + 1 ≤ k
        · exact h.seen v (n + 1) hpos hn hlinks
        rcases Nat.eq_zero_or_pos n with rfl | hpos
        · obtain rfl : k = 0 := by omega
          exact (h.level v hlinks).resolve_right not_mem_nil
        · obtain ⟨u, hu, hv⟩ := hlinks
          rcases h.closed u (ih u hpos hu) v hv with hv | hv | hv
          · exact hv
          · exact absurd hv not_mem_nil
          · exact absurd hv not_mem_nil
  ranked := by
    intro v hv
    obtain ⟨n, _, hn⟩ := h.ranked v hv
    exact ⟨n, hn⟩
  nearest := h.nearest

end

/-! ## The walk -/

section
variable {V : Type} [DecidableEq V] (next : V → List V)

/-- `none` when the fuel runs out with the queue not empty. -/
def breadth : Nat → List V → List V → Option (List V)
  | _, [], order => some order
  | 0, _ :: _, _ => none
  | fuel + 1, v :: queue, order =>
    if v ∈ order then breadth fuel queue order
    else breadth fuel (queue ++ next v) (order ++ [v])

variable {next}

theorem Sweep.walk {s : V} {fuel k : Nat} {nxt order result : List V}
    (h : Sweep next s k cur nxt order) (hrun : breadth next fuel (cur ++ nxt) order = some result) :
    Visited next s result := by
  induction fuel generalizing k cur nxt order with
  | zero =>
    cases hq : cur ++ nxt with
    | cons v queue => rw [hq] at hrun; simp [breadth] at hrun
    | nil =>
      obtain ⟨rfl, rfl⟩ := append_eq_nil_iff.mp hq
      simp only [append_nil, breadth, some.injEq] at hrun
      exact hrun ▸ h.visited
  | succ fuel ih =>
    have hstep : ∀ {k : Nat} {v : V} {cur nxt : List V}, Sweep next s k (v :: cur) nxt order →
        breadth next (fuel + 1) ((v :: cur) ++ nxt) order = some result →
        Visited next s result := by
      intro k v cur nxt h hrun
      rw [cons_append, breadth] at hrun
      split at hrun
      · rename_i hv
        exact ih (h.pass hv) hrun
      · rename_i hv
        rw [append_assoc] at hrun
        exact ih (h.visit hv) hrun
    cases cur with
    | cons v cur => exact hstep h hrun
    | nil =>
      cases nxt with
      | nil =>
        simp only [append_nil, breadth, some.injEq] at hrun
        exact hrun ▸ h.visited
      | cons v nxt =>
        refine hstep h.shift ?_
        rwa [append_nil]

theorem breadth_visited {s : V} {fuel : Nat} {result : List V}
    (h : breadth next fuel (next s) [] = some result) : Visited next s result := by
  have hrun : breadth next fuel (next s ++ []) [] = some result := by rwa [append_nil]
  exact (Sweep.start s).walk hrun

/-- Each round takes one from the queue, and what is queued are the links out of what is seen
for the first time. -/
theorem breadth_ends (all : Finset V) (hall : ∀ v ∈ all, ∀ w ∈ next v, w ∈ all) {fuel : Nat}
    {queue order : List V} (hqueue : ∀ v ∈ queue, v ∈ all)
    (hfuel : queue.length + ∑ v ∈ all.filter (fun v => v ∉ order), (next v).length ≤ fuel) :
    ∃ result, breadth next fuel queue order = some result := by
  induction fuel generalizing queue order with
  | zero =>
    have : queue = [] := eq_nil_of_length_eq_zero (by omega)
    exact ⟨order, by rw [this, breadth]⟩
  | succ fuel ih =>
    cases queue with
    | nil => exact ⟨order, by rw [breadth]⟩
    | cons v queue =>
      rw [breadth]
      rw [length_cons] at hfuel
      have hqueue' : ∀ w ∈ queue, w ∈ all := fun w hw => hqueue w (mem_cons_of_mem _ hw)
      split
      · exact ih hqueue' (by omega)
      · rename_i hv
        have hmem : v ∈ all := hqueue v mem_cons_self
        refine ih ?_ ?_
        · intro w hw
          rcases mem_append.mp hw with hw | hw
          · exact hqueue' w hw
          · exact hall v hmem w hw
        · have hsplit : all.filter (fun w => w ∉ order) =
              insert v (all.filter (fun w => w ∉ order ++ [v])) := by
            ext w
            by_cases hw : w = v
            · simp [hw, hmem, hv]
            · simp [hw]
          rw [hsplit, Finset.sum_insert (by simp)] at hfuel
          rw [length_append]
          omega

end

end Mere
