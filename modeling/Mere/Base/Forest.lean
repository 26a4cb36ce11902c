import Mathlib

/-!
# Linked forests

Nodes that name their parent and list their children. A parent may be gone (a loose node); apart
from that the two directions agree and every way up ends.
-/

namespace Mere

open List Option Relation

structure Link (V : Type) where
  parent : Option V
  children : List V

namespace Forest

variable {V : Type}

inductive Grounded (t : V → Option (Link V)) : V → Prop
  | top {v l} : t v = some l → l.parent = none → Grounded t v
  | loose {v l p} : t v = some l → l.parent = some p → t p = none → Grounded t v
  | under {v l p} : t v = some l → l.parent = some p → Grounded t p → Grounded t v

structure Linked (t : V → Option (Link V)) : Prop where
  listed : ∀ v l p lp, t v = some l → l.parent = some p → t p = some lp → v ∈ lp.children
  named : ∀ p lp c, t p = some lp → c ∈ lp.children → ∃ l, t c = some l ∧ l.parent = some p
  nodup : ∀ p lp, t p = some lp → lp.children.Nodup
  grounded : ∀ v l, t v = some l → Grounded t v

def Child (t : V → Option (Link V)) (p c : V) : Prop := ∃ lp, t p = some lp ∧ c ∈ lp.children

def Below (t : V → Option (Link V)) (r v : V) : Prop := ReflTransGen (Child t) r v

variable {t : V → Option (Link V)}
variable {v : V} {l : Link V} {n : Nat} {r : V} {lr : Link V} {dead : V → Prop}
  {t' : V → Option (Link V)} {new : V} {parent : Option V}

theorem Grounded.live (h : Grounded t v) : ∃ l, t v = some l := by
  cases h with
  | top hv _ | loose hv _ _ | under hv _ _ => exact ⟨_, hv⟩

theorem Linked.parent_eq (hl : Linked t) {p : V} (h : Child t p v)
    (hv : t v = some l) : l.parent = some p := by
  obtain ⟨lp, hlp, hmem⟩ := h
  obtain ⟨l', hv', hp⟩ := hl.named p lp v hlp hmem
  rw [hv] at hv'
  rw [some.inj hv']
  exact hp

def Up (t : V → Option (Link V)) (v p : V) : Prop := (t v).bind Link.parent = some p

theorem Grounded.acc (h : Grounded t v) : Acc (fun p v => Up t v p) v := by
  induction h with
  | @top v l hv hp =>
    refine ⟨_, fun p hup => ?_⟩
    simp [Up, hv, hp] at hup
  | @loose v l p hv hp hgone =>
    refine ⟨_, fun q hup => ?_⟩
    obtain rfl : p = q := by simpa [Up, hv, hp] using hup
    exact ⟨_, fun q hup => by simp [Up, hgone] at hup⟩
  | @under v l p hv hp _ ih =>
    refine ⟨_, fun q hup => ?_⟩
    obtain rfl : p = q := by simpa [Up, hv, hp] using hup
    exact ih

theorem Linked.acyclic (hl : Linked t) (v : V) : ¬ TransGen (Up t) v v := by
  intro hcycle
  have hwf : WellFounded (fun p v => Up t v p) := by
    refine ⟨fun v => ?_⟩
    cases hv : t v with
    | none => exact ⟨_, fun p hup => by simp [Up, hv] at hup⟩
    | some l => exact (hl.grounded v l hv).acc
  have hback := TransGen.swap _ _ hcycle
  exact hwf.transGen.asymmetric v v hback hback

theorem Linked.not_below (hl : Linked t) {c : V} (hc : Child t v c) : ¬ Below t c v := by
  have hup : ∀ p c, Child t p c → Up t c p := by
    rintro p c ⟨lp, hlp, hmem⟩
    obtain ⟨l, hl, hp⟩ := hl.named p lp c hlp hmem
    rw [Up, hl]
    exact hp
  intro hb
  exact hl.acyclic c (.head' (hup v c hc) (ReflTransGen.mono hup _ _ hb).swap)

theorem Grounded.top_reached (h : Grounded t v)
    (hlive : ∀ v p, Up t v p → ∃ l, t p = some l) :
    ∃ r l, ReflTransGen (Up t) v r ∧ t r = some l ∧ l.parent = none := by
  induction h with
  | @top v l hv hp => exact ⟨v, l, .refl, hv, hp⟩
  | @loose v l p hv hp hgone =>
    obtain ⟨lp, hlp⟩ := hlive v p (by simp [Up, hv, hp])
    rw [hgone] at hlp
    simp at hlp
  | @under v l p hv hp _ ih =>
    obtain ⟨r, lr, hpath, hr⟩ := ih
    exact ⟨r, lr, .head (by simp [Up, hv, hp]) hpath, hr⟩

/-! ## Up -/

def climb (t : V → Option (Link V)) : Nat → V → Option (Except V V)
  | 0, _ => none
  | n + 1, v =>
    match t v with
    | none => some (.error v)
    | some l =>
      match l.parent with
      | none => some (.ok v)
      | some p => climb t n p

/-- The way up from a grounded node: distinct live nodes, the last of them the root or loose. -/
theorem climb_path (hl : Linked t) (h : Grounded t v) :
    ∃ (path : List V) (res : Except V V), path.Nodup ∧ (∀ x ∈ path, ∃ l, t x = some l) ∧
      (∀ x ∈ path, Below t x v) ∧ (∀ fuel, path.length < fuel → climb t fuel v = some res) ∧
      (∀ r, res = .ok r → r ∈ path ∧ ∃ l, t r = some l ∧ l.parent = none) := by
  induction h with
  | @top v l hv hp =>
    refine ⟨[v], .ok v, by simp, by simp [hv], ?_, ?_, ?_⟩
    · intro x hx
      rw [mem_singleton.mp hx]
      exact .refl
    · intro fuel hf
      obtain ⟨n, rfl⟩ : ∃ n, fuel = n + 1 := ⟨fuel - 1, by omega⟩
      simp [climb, hv, hp]
    · intro r hr
      cases hr
      exact ⟨by simp, l, hv, hp⟩
  | @loose v l p hv hp hgone =>
    refine ⟨[v], .error p, by simp, by simp [hv], ?_, ?_, by simp⟩
    · intro x hx
      rw [mem_singleton.mp hx]
      exact .refl
    · intro fuel hf
      obtain ⟨n, rfl⟩ : ∃ n, fuel = n + 2 := ⟨fuel - 2, by simp at hf; omega⟩
      simp [climb, hv, hp, hgone]
  | @under v l p hv hp hg ih =>
    obtain ⟨path, res, hnodup, hlive, hbelow, hclimb, hroot⟩ := ih
    obtain ⟨lp, hlp⟩ := hg.live
    have hchild : Child t p v := ⟨lp, hlp, hl.listed v l p lp hv hp hlp⟩
    have hfresh : v ∉ path := fun hmem => hl.not_below hchild (hbelow v hmem)
    refine ⟨v :: path, res, nodup_cons.mpr ⟨hfresh, hnodup⟩, ?_, ?_, ?_, ?_⟩
    · intro x hx
      rcases mem_cons.mp hx with rfl | hx
      · exact ⟨l, hv⟩
      · exact hlive x hx
    · intro x hx
      rcases mem_cons.mp hx with rfl | hx
      · exact .refl
      · exact (hbelow x hx).tail hchild
    · intro fuel hf
      obtain ⟨n, rfl⟩ : ∃ n, fuel = n + 1 := ⟨fuel - 1, by omega⟩
      simp only [climb, hv, hp]
      exact hclimb n (by simpa using hf)
    · intro r hr
      obtain ⟨hmem, hr⟩ := hroot r hr
      exact ⟨mem_cons_of_mem _ hmem, hr⟩

def Bounded (t : V → Option (Link V)) (n : Nat) : Prop :=
  ∀ l : List V, l.Nodup → (∀ x ∈ l, ∃ k, t x = some k) → l.length ≤ n

/-- With one more round than there are nodes the climb ends, and what it finds is a root. -/
theorem climb_ends (hl : Linked t) (hn : Bounded t n)
    (hv : t v = some l) :
    ∃ res, climb t (n + 1) v = some res ∧
      ∀ r, res = .ok r → Below t r v ∧ ∃ l, t r = some l ∧ l.parent = none := by
  obtain ⟨path, res, hnodup, hlive, hbelow, hclimb, hroot⟩ := climb_path hl (hl.grounded v l hv)
  refine ⟨res, hclimb _ (Nat.lt_succ_of_le (hn path hnodup hlive)), ?_⟩
  intro r hr
  obtain ⟨hmem, hr⟩ := hroot r hr
  exact ⟨hbelow r hmem, hr⟩

/-! ## Down -/

def gather (t : V → Option (Link V)) : Nat → List V → List V → Option (List V)
  | _, [], out => some out
  | 0, _ :: _, _ => none
  | n + 1, v :: stack, out =>
    match t v with
    | none => gather t n stack out
    | some l => gather t n (l.children ++ stack) (out ++ [v])

structure Walking (t : V → Option (Link V)) (r : V) (stack out : List V) : Prop where
  nodup : (out ++ stack).Nodup
  live : ∀ x ∈ out ++ stack, ∃ l, t x = some l
  below : ∀ x ∈ out ++ stack, Below t r x
  under : ∀ x ∈ out ++ stack, x = r ∨ ∃ p ∈ out, Child t p x
  closed : ∀ x ∈ out, ∀ c, Child t x c → c ∈ out ++ stack
  start : r ∈ out ++ stack

theorem Walking.step (hl : Linked t) (hr : t r = some lr)
    (hroot : lr.parent = none) {stack out : List V} (h : Walking t r (v :: stack) out)
    (hv : t v = some l) : Walking t r (l.children ++ stack) (out ++ [v]) := by
  have hvout : v ∉ out := by
    have := (nodup_append.mp h.nodup).2.2
    exact fun hmem => this v hmem v mem_cons_self rfl
  have hchild : ∀ c ∈ l.children, Child t v c := fun c hc => ⟨l, hv, hc⟩
  -- A child seen before would have been listed by a node that is out already.
  have hnew : ∀ c ∈ l.children, c ∉ out ++ v :: stack := by
    intro c hc hmem
    obtain ⟨lc, hlc, hpc⟩ := hl.named v l c hv hc
    rcases h.under c hmem with rfl | ⟨p, hp, hpchild⟩
    · rw [hr] at hlc
      rw [some.inj hlc, hpc] at hroot
      simp at hroot
    · rw [hl.parent_eq hpchild hlc] at hpc
      obtain rfl := some.inj hpc
      exact hvout hp
  have hmem : ∀ x, x ∈ (out ++ [v]) ++ (l.children ++ stack) ↔
      x ∈ l.children ∨ x ∈ out ++ v :: stack := by
    simp only [mem_append, mem_cons, not_mem_nil, or_false]
    tauto
  refine ⟨?_, ?_, ?_, ?_, ?_, ?_⟩
  · have hperm := (perm_append_comm_assoc l.children out (v :: stack)).trans
      (perm_middle.append_left out)
    rw [← append_cons, ← hperm.nodup_iff, nodup_append]
    refine ⟨hl.nodup v l hv, h.nodup, ?_⟩
    rintro c hc x hx rfl
    exact hnew c hc hx
  · intro x hx
    rcases (hmem x).mp hx with hx | hx
    · obtain ⟨lc, hlc, -⟩ := hl.named v l x hv hx
      exact ⟨lc, hlc⟩
    · exact h.live x hx
  · intro x hx
    rcases (hmem x).mp hx with hx | hx
    · exact (h.below v (by simp)).tail (hchild x hx)
    · exact h.below x hx
  · intro x hx
    rcases (hmem x).mp hx with hx | hx
    · exact .inr ⟨v, by simp, hchild x hx⟩
    · rcases h.under x hx with rfl | ⟨p, hp, hc⟩
      · exact .inl rfl
      · exact .inr ⟨p, by simp [hp], hc⟩
  · intro x hx c hc
    rw [hmem]
    rcases mem_append.mp hx with hx | hx
    · exact .inr (h.closed x hx c hc)
    · rw [mem_singleton.mp hx] at hc
      obtain ⟨l', hl', hcl'⟩ := hc
      rw [hv] at hl'
      rw [← some.inj hl'] at hcl'
      exact .inl hcl'
  · exact (hmem r).mpr (.inr h.start)

theorem Walking.ends (hl : Linked t) (hn : Bounded t n)
    (hr : t r = some lr) (hroot : lr.parent = none) (fuel : Nat) (stack out : List V)
    (h : Walking t r stack out) (hfuel : n ≤ fuel + out.length) :
    ∃ res, gather t fuel stack out = some res ∧ Walking t r [] res := by
  induction fuel generalizing stack out with
  | zero =>
    cases stack with
    | nil => exact ⟨out, by simp [gather], h⟩
    | cons v stack =>
      have := hn (out ++ v :: stack) h.nodup h.live
      simp at this hfuel
      omega
  | succ fuel ih =>
    cases stack with
    | nil => exact ⟨out, by simp [gather], h⟩
    | cons v stack =>
      obtain ⟨l, hv⟩ := h.live v (by simp)
      simp only [gather, hv]
      apply ih _ _ (h.step hl hr hroot hv)
      simp
      omega

/-- The walk from a root sees its whole tree, each node once. -/
theorem gather_ends (hl : Linked t) (hn : Bounded t n)
    (hr : t r = some lr) (hroot : lr.parent = none) :
    ∃ out, gather t n [r] [] = some out ∧ out.Nodup ∧ ∀ v, v ∈ out ↔ Below t r v := by
  have start : Walking t r [r] [] :=
    ⟨by simp, by simp [hr], by simp [Below, ReflTransGen.refl], by simp, by simp, by simp⟩
  obtain ⟨out, hout, hw⟩ := start.ends hl hn hr hroot n [r] [] (by simp)
  refine ⟨out, hout, by simpa using hw.nodup, ?_⟩
  intro v
  constructor
  · intro hv
    exact hw.below v (by simpa using hv)
  · intro hv
    induction hv with
    | refl => simpa using hw.start
    | tail _ hc ih => simpa using hw.closed _ ih _ hc

/-! ## Cutting trees down -/

structure Whole (t : V → Option (Link V)) (dead : V → Prop) : Prop where
  up : ∀ v l p, dead v → t v = some l → l.parent = some p → dead p
  down : ∀ v c, dead v → Child t v c → dead c

theorem whole_below (hl : Linked t) (hr : t r = some lr)
    (hroot : lr.parent = none) : Whole t (Below t r) where
  up := by
    intro v l p hv hlv hp
    rcases hv.cases_tail with rfl | ⟨x, hx, hc⟩
    · rw [hr] at hlv
      rw [← some.inj hlv, hroot] at hp
      simp at hp
    · rw [hl.parent_eq hc hlv] at hp
      rw [← some.inj hp]
      exact hx
  down := fun _ _ hv hc => hv.tail hc

theorem Whole.below (h : Whole t dead) {w : V} (hv : dead v) (hb : Below t v w) :
    dead w := by
  induction hb with
  | refl => exact hv
  | tail _ hc ih => exact h.down _ _ ih hc

theorem Whole.above (hl : Linked t) (h : Whole t dead) {w : V} (hw : dead w)
    (hb : Below t v w) : dead v := by
  induction hb with
  | refl => exact hw
  | tail _ hc ih =>
    obtain ⟨lp, hlp, hmem⟩ := hc
    obtain ⟨l, hv, hp⟩ := hl.named _ lp _ hlp hmem
    exact ih (h.up _ l _ hw hv hp)

theorem Linked.prune (hl : Linked t) (hd : Whole t dead)
    (hkeep : ∀ v, ¬ dead v → t' v = t v) (hcut : ∀ v, dead v → t' v = none) : Linked t' := by
  have hback : ∀ v l, t' v = some l → ¬ dead v ∧ t v = some l := by
    intro v l hv
    by_cases hdead : dead v
    · rw [hcut v hdead] at hv; simp at hv
    · exact ⟨hdead, (hkeep v hdead) ▸ hv⟩
  have hground : ∀ v, Grounded t v → ¬ dead v → Grounded t' v := by
    intro v hg
    induction hg with
    | @top v l hv hp => intro hnd; exact .top ((hkeep v hnd).trans hv) hp
    | @loose v l p hv hp hgone =>
      intro hnd
      refine .loose ((hkeep v hnd).trans hv) hp ?_
      by_cases hpd : dead p
      · exact hcut p hpd
      · exact (hkeep p hpd).trans hgone
    | @under v l p hv hp hg ih =>
      intro hnd
      refine .under ((hkeep v hnd).trans hv) hp (ih ?_)
      intro hpd
      obtain ⟨lp, hlp⟩ := hg.live
      exact hnd (hd.down p v hpd ⟨lp, hlp, hl.listed v l p lp hv hp hlp⟩)
  refine ⟨?_, ?_, ?_, ?_⟩
  · intro v l p lp hv hp hlp
    exact hl.listed v l p lp (hback v l hv).2 hp (hback p lp hlp).2
  · intro p lp c hlp hc
    obtain ⟨hnd, hlp'⟩ := hback p lp hlp
    obtain ⟨l, hlc, hp⟩ := hl.named p lp c hlp' hc
    refine ⟨l, ?_, hp⟩
    rw [hkeep c ?_]
    · exact hlc
    · exact fun hdc => hnd (hd.up c l p hdc hlc hp)
  · intro p lp hlp
    exact hl.nodup p lp (hback p lp hlp).2
  · intro v l hv
    obtain ⟨hnd, hv'⟩ := hback v l hv
    exact hground v (hl.grounded v l hv') hnd

theorem below_prune (hl : Linked t) (hd : Whole t dead)
    (hkeep : ∀ v, ¬ dead v → t' v = t v) (hcut : ∀ v, dead v → t' v = none)
    (hr : ¬ dead r) : Below t' r v ↔ Below t r v := by
  constructor
  · intro h
    refine ReflTransGen.mono ?_ _ _ h
    rintro x y ⟨l, hx, hmem⟩
    by_cases hdead : dead x
    · rw [hcut x hdead] at hx; simp at hx
    · exact ⟨l, (hkeep x hdead) ▸ hx, hmem⟩
  · intro h
    induction h with
    | refl => exact .refl
    | @tail x y hx hc ih =>
      obtain ⟨l, hlx, hmem⟩ := hc
      have hdead : ¬ dead x := fun hdx => hr (hd.above hl hdx hx)
      exact ih.tail ⟨l, (hkeep x hdead).trans hlx, hmem⟩

theorem root_eq_of_below (hl : Linked t) {r' : V} (hr : t r = some l)
    (hroot : l.parent = none) (h : Below t r' r) : r' = r := by
  rcases h.cases_tail with rfl | ⟨x, -, hc⟩
  · rfl
  · rw [hl.parent_eq hc hr] at hroot
    simp at hroot

/-! ## Adding a leaf -/

/-- A new node under `parent`, which lists it last if it is there to list it. -/
structure Grafted (t t' : V → Option (Link V)) (new : V) (parent : Option V) : Prop where
  fresh : t new = none
  unnamed : ∀ v l, t v = some l → l.parent ≠ some new
  ne : parent ≠ some new
  leaf : t' new = some ⟨parent, []⟩
  other : ∀ v, v ≠ new → parent ≠ some v → t' v = t v
  lists : ∀ v, v ≠ new → parent = some v →
    t' v = (t v).map (fun l => { l with children := l.children ++ [new] })

theorem Grafted.old
    (h : Grafted t t' new parent) (hv : t v = some l) :
    ∃ l', t' v = some l' ∧ l'.parent = l.parent ∧
      ((parent ≠ some v ∧ l'.children = l.children) ∨
        (parent = some v ∧ l'.children = l.children ++ [new])) := by
  have hne : v ≠ new := by rintro rfl; rw [h.fresh] at hv; simp at hv
  by_cases hp : parent = some v
  · refine ⟨{ l with children := l.children ++ [new] }, ?_, rfl, .inr ⟨hp, rfl⟩⟩
    rw [h.lists v hne hp, hv, map_some]
  · exact ⟨l, by rw [h.other v hne hp, hv], rfl, .inl ⟨hp, rfl⟩⟩

theorem Grafted.back
    (h : Grafted t t' new parent) {l' : Link V} (hv : t' v = some l') (hne : v ≠ new) :
    ∃ l, t v = some l ∧ l'.parent = l.parent ∧
      ((parent ≠ some v ∧ l'.children = l.children) ∨
        (parent = some v ∧ l'.children = l.children ++ [new])) := by
  cases htv : t v with
  | none =>
    by_cases hp : parent = some v
    · rw [h.lists v hne hp, htv] at hv; simp at hv
    · rw [h.other v hne hp, htv] at hv; simp at hv
  | some l =>
    obtain ⟨l'', hv'', hcase⟩ := h.old htv
    rw [hv] at hv''
    obtain rfl := some.inj hv''
    exact ⟨l, rfl, hcase⟩

theorem Grafted.child
    (h : Grafted t t' new parent) {p c : V} (hc : Child t p c) : Child t' p c := by
  obtain ⟨l, hp, hmem⟩ := hc
  obtain ⟨l', hp', -, ⟨-, hch⟩ | ⟨-, hch⟩⟩ := h.old hp
  · exact ⟨l', hp', by rw [hch]; exact hmem⟩
  · exact ⟨l', hp', by rw [hch]; exact mem_append_left _ hmem⟩

theorem Linked.graft (hl : Linked t)
    (h : Grafted t t' new parent) : Linked t' := by
  have hnone : ∀ p, p ≠ new → t p = none → t' p = none := by
    intro p hne hp
    cases hp' : t' p with
    | none => rfl
    | some l' =>
      obtain ⟨l, hl', -⟩ := h.back hp' hne
      rw [hp] at hl'
      simp at hl'
  have hground : ∀ v, Grounded t v → Grounded t' v := by
    intro v hg
    induction hg with
    | @top v l hv hp =>
      obtain ⟨l', hv', hp', -⟩ := h.old hv
      exact .top hv' (hp'.trans hp)
    | @loose v l p hv hp hgone =>
      obtain ⟨l', hv', hp', -⟩ := h.old hv
      refine .loose hv' (hp'.trans hp) (hnone p ?_ hgone)
      rintro rfl
      exact h.unnamed v l hv hp
    | @under v l p hv hp _ ih =>
      obtain ⟨l', hv', hp', -⟩ := h.old hv
      exact .under hv' (hp'.trans hp) ih
  refine ⟨?_, ?_, ?_, ?_⟩
  · intro v l p lp hv hp hlp
    by_cases hvn : v = new
    · subst hvn
      rw [h.leaf] at hv
      obtain rfl := some.inj hv
      have hpn : p ≠ v := by rintro rfl; exact h.ne hp
      obtain ⟨lp', -, -, hc | hc⟩ := h.back hlp hpn
      · exact absurd hp hc.1
      · rw [hc.2]; simp
    · obtain ⟨lv, htv, hpv, -⟩ := h.back hv hvn
      rw [hpv] at hp
      have hpn : p ≠ new := by rintro rfl; exact h.unnamed v lv htv hp
      obtain ⟨lp', htp, -, hc⟩ := h.back hlp hpn
      have := hl.listed v lv p lp' htv hp htp
      rcases hc with ⟨-, hc⟩ | ⟨-, hc⟩ <;> rw [hc] <;> simp [this]
  · intro p lp c hlp hc
    by_cases hpn : p = new
    · subst hpn
      rw [h.leaf] at hlp
      obtain rfl := some.inj hlp
      simp at hc
    · obtain ⟨lp', htp, -, hcase⟩ := h.back hlp hpn
      have hold : c ∈ lp'.children → ∃ l, t' c = some l ∧ l.parent = some p := by
        intro hc
        obtain ⟨lc, htc, hpc⟩ := hl.named p lp' c htp hc
        obtain ⟨lc', htc', hpc', -⟩ := h.old htc
        exact ⟨lc', htc', hpc'.trans hpc⟩
      rcases hcase with ⟨-, hch⟩ | ⟨hpar, hch⟩
      · rw [hch] at hc
        exact hold hc
      · rw [hch, mem_append, mem_singleton] at hc
        rcases hc with hc | rfl
        · exact hold hc
        · exact ⟨_, h.leaf, hpar⟩
  · intro p lp hlp
    by_cases hpn : p = new
    · subst hpn
      rw [h.leaf] at hlp
      obtain rfl := some.inj hlp
      simp
    · obtain ⟨lp', htp, -, ⟨-, hch⟩ | ⟨-, hch⟩⟩ := h.back hlp hpn
      · rw [hch]; exact hl.nodup p lp' htp
      · rw [hch, nodup_append]
        refine ⟨hl.nodup p lp' htp, by simp, ?_⟩
        rintro c hc x hx rfl
        rw [mem_singleton.mp hx] at hc
        obtain ⟨l, hlnew, -⟩ := hl.named p lp' new htp hc
        rw [h.fresh] at hlnew
        simp at hlnew
  · intro v l hv
    by_cases hvn : v = new
    · subst hvn
      rw [h.leaf] at hv
      cases hp : parent with
      | none => exact .top h.leaf hp
      | some p =>
        have hpn : p ≠ v := by rintro rfl; exact h.ne hp
        cases htp : t p with
        | none => exact .loose h.leaf hp (hnone p hpn htp)
        | some lp => exact .under h.leaf hp (hground p (hl.grounded p lp htp))
    · obtain ⟨lv, htv, -⟩ := h.back hv hvn
      exact hground v (hl.grounded v lv htv)

end Forest

end Mere
