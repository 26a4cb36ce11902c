import Mere.Base.Ancestry

/-!
# Groves

A grove is a forest held redundantly: each node's parent, each node's children in order, the roots
in order, and every node in the order it came.
-/

namespace Mere

open Relation Ancestry

structure Grove {N : Type} (up : N → Option N) (down : N → List N) (roots order : List N) :
    Prop where
  agree : ∀ p c, c ∈ down p ↔ up c = some p
  childrenNodup : ∀ p, (down p).Nodup
  rootsNodup : roots.Nodup
  orderNodup : order.Nodup
  top : ∀ m, m ∈ roots ↔ m ∈ order ∧ up m = none
  held : ∀ c p, up c = some p → c ∈ order ∧ p ∈ order
  ends : Ends up

namespace Grove

variable {N : Type} {up : N → Option N} {down : N → List N} {roots order : List N}

variable (h : Grove up down roots order)
include h

theorem none_of_not_mem {m : N} (hm : m ∉ order) :
    up m = none ∧ down m = [] ∧ m ∉ roots := by
  refine ⟨?_, ?_, fun hroot => hm ((h.top m).mp hroot).1⟩
  · cases hup : up m with
    | none => rfl
    | some p => exact absurd (h.held m p hup).1 hm
  · refine List.eq_nil_iff_forall_not_mem.mpr fun c hc => ?_
    exact hm (h.held c m ((h.agree m c).mp hc)).2

theorem listed_iff {p c : N} :
    ReflTransGen (Listed down) p c ↔ ReflTransGen (Next up) c p := by
  have hstep : Listed down = Function.swap (Next up) := by
    funext p c
    exact propext (h.agree p c)
  rw [hstep, ← reflTransGen_swap]

theorem mem_order_iff (m : N) :
    m ∈ order ↔ ∃ r ∈ roots, ReflTransGen (Listed down) r m := by
  constructor
  · intro hm
    obtain ⟨r, hr, htop⟩ := h.ends.top m
    refine ⟨r, (h.top r).mpr ⟨?_, htop⟩, h.listed_iff.mpr hr⟩
    rcases hr.cases_tail with rfl | ⟨c, -, hc⟩
    · exact hm
    · exact (h.held c r hc).2
  · rintro ⟨r, hr, hm⟩
    rcases hm.cases_tail with rfl | ⟨p, -, hp⟩
    · exact ((h.top m).mp hr).1
    · exact (h.held m p ((h.agree p m).mp hp)).1

theorem plant {m : N} (hm : m ∉ order) :
    Grove up down (roots ++ [m]) (order ++ [m]) := by
  obtain ⟨hup, -, hroot⟩ := h.none_of_not_mem hm
  refine ⟨h.agree, h.childrenNodup, ?_, ?_, ?_, ?_, h.ends⟩
  · exact h.rootsNodup.append (List.nodup_singleton m) (by simpa using hroot)
  · exact h.orderNodup.append (List.nodup_singleton m) (by simpa using hm)
  · intro x
    have := h.top x
    grind
  · intro c p hc
    have := h.held c p hc
    simp [this]

variable [DecidableEq N]

theorem graft {m q : N} (hm : m ∉ order) (hq : q ∈ order) :
    Grove (fun x => if x = m then some q else up x)
      (fun x => if x = q then down q ++ [m] else down x) roots (order ++ [m]) := by
  obtain ⟨hup, hdown, hroot⟩ := h.none_of_not_mem hm
  have hne : q ≠ m := by rintro rfl; exact hm hq
  refine ⟨?_, ?_, h.rootsNodup, ?_, ?_, ?_, ?_⟩
  · intro p c
    have := h.agree p c
    grind
  · intro p
    have hqm := h.agree q m
    have hnodup := h.childrenNodup
    grind
  · exact h.orderNodup.append (List.nodup_singleton m) (by simpa using hm)
  · intro x
    have := h.top x
    grind
  · intro c p hc
    have := h.held c p
    grind
  · refine h.ends.redirect (m := m) (q := q) ?_ (by simp) ?_
    · intro hpath
      rcases hpath.cases_tail with heq | ⟨c, -, hc⟩
      · exact hne heq.symm
      · exact hm (h.held c m hc).2
    · intro c hc
      simp [hc]

theorem move {m q : N} (hm : m ∈ order) (hq : q ∈ order) (hpath : ¬ ReflTransGen (Next up) q m) :
    Grove (fun x => if x = m then some q else up x)
      (fun x => if x = q then (down q).filter (· ≠ m) ++ [m] else (down x).filter (· ≠ m))
      (roots.filter (· ≠ m)) order := by
  refine ⟨?_, ?_, h.rootsNodup.filter _, h.orderNodup, ?_, ?_, ?_⟩
  · intro p c
    have := h.agree p c
    grind
  · intro p
    have hnodup := h.childrenNodup
    grind
  · intro x
    have := h.top x
    grind
  · intro c p hc
    have := h.held c p
    grind
  · refine h.ends.redirect hpath (by simp) ?_
    intro c hc
    simp [hc]

theorem cut {dead : List N} (hclosed : ∀ p c, p ∈ dead → up c = some p → c ∈ dead) :
    Grove (fun x => if x ∈ dead then none else up x)
      (fun x => if x ∈ dead then [] else (down x).filter (· ∉ dead))
      (roots.filter (· ∉ dead)) (order.filter (· ∉ dead)) := by
  refine ⟨?_, ?_, h.rootsNodup.filter _, h.orderNodup.filter _, ?_, ?_, ?_⟩
  · intro p c
    have := h.agree p c
    grind
  · intro p
    have hfiltered := (h.childrenNodup p).filter (· ∉ dead)
    grind
  · intro x
    have := h.top x
    grind
  · intro c p hc
    have := h.held c p
    grind
  · refine h.ends.shortcut fun c p hc => ?_
    split at hc
    · cases hc
    · exact .single hc

theorem splice (m : N) :
    Grove (fun x => if x = m then none else if x ∈ down m then up m else up x)
      (fun x => if x = m then [] else
        if up m = some x then (down x).filter (· ≠ m) ++ down m else down x)
      (if up m = none then roots.filter (· ≠ m) ++ down m else roots)
      (order.filter (· ≠ m)) := by
  have hself : up m ≠ some m := fun hcycle => h.ends.acyclic m (.single hcycle)
  refine ⟨?_, ?_, ?_, h.orderNodup.filter _, ?_, ?_, ?_⟩
  · intro p c
    have := h.agree p c
    have := h.agree m c
    grind
  · intro p
    have hnodup := h.childrenNodup
    have hagree := h.agree
    grind
  · have hnodup := h.childrenNodup m
    have hagree := h.agree m
    have htop := h.top
    have hroots := h.rootsNodup
    grind
  · intro x
    have := h.top x
    have := h.agree m x
    have := h.held x
    grind
  · intro c p hc
    have := h.held c p
    have hheld := h.held m p
    have := h.agree m c
    have := h.held c m
    grind
  · refine h.ends.shortcut fun c p hc => ?_
    split at hc
    · cases hc
    · split at hc
      · rename_i hchild
        exact .head ((h.agree m c).mp hchild) (.single hc)
      · exact .single hc

theorem relist {q : N} {cs : List N} (hcs : cs.Perm (down q)) :
    Grove up (fun x => if x = q then cs else down x) roots order := by
  refine ⟨?_, ?_, h.rootsNodup, h.orderNodup, h.top, h.held, h.ends⟩
  · intro p c
    have := h.agree p c
    grind
  · intro p
    have := h.childrenNodup
    grind

end Grove

end Mere
