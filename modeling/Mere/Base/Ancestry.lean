import Mere.Base.Loop

/-!
# Parent maps

`up` gives the parent of a node and `down` lists its children.
-/

namespace Mere.Ancestry

open Relation List Option Finset

variable {N : Type} {up up' : N → Option N} {down : N → List N} {R : Type}

def Ends (up : N → Option N) : Prop := WellFounded (fun p c => up c = some p)

theorem Ends.acyclic (h : Ends up) (v : N) : ¬ TransGen (Next up) v v := by
  intro hcycle
  have hback := TransGen.swap _ _ hcycle
  exact h.transGen.asymmetric v v hback hback

theorem Ends.shortcut (h : Ends up) (hstep : ∀ c p, up' c = some p → TransGen (Next up) c p) :
    Ends up' := by
  refine Subrelation.wf ?_ h.transGen
  intro p c hc
  exact TransGen.swap _ _ (hstep c p hc)

theorem Ends.redirect (h : Ends up) {m q : N} (hq : ¬ ReflTransGen (Next up) q m)
    (hm : up' m = some q) (hother : ∀ c, c ≠ m → up' c = up c) : Ends up' := by
  -- A way up that does not pass `m` is the old one.
  have hclear : ∀ v, ¬ ReflTransGen (Next up) v m → Acc (fun p c => up' c = some p) v := by
    intro v
    induction v using h.induction with
    | _ v ih =>
      intro hv
      refine ⟨_, fun p hp => ?_⟩
      rw [hother v (by rintro rfl; exact hv .refl)] at hp
      exact ih p hp fun hpm => hv (.head hp hpm)
  have hmoved : Acc (fun p c => up' c = some p) m := by
    refine ⟨_, fun p hp => ?_⟩
    obtain rfl : q = p := some.inj (hm.symm.trans hp)
    exact hclear q hq
  refine ⟨fun v => ?_⟩
  induction v using h.induction with
  | _ v ih =>
    by_cases hv : v = m
    · rw [hv]
      exact hmoved
    · refine ⟨_, fun p hp => ih p ?_⟩
      rwa [hother v hv] at hp

theorem Ends.top (h : Ends up) (v : N) : ∃ r, ReflTransGen (Next up) v r ∧ up r = none := by
  induction v using h.induction with
  | _ v ih =>
    cases hv : up v with
    | none => exact ⟨v, .refl, hv⟩
    | some p =>
      obtain ⟨r, hr, htop⟩ := ih p hv
      exact ⟨r, .head hv hr, htop⟩

theorem Ends.stops [DecidableEq N] (h : Ends up) (keys : Finset N)
    (hkeys : ∀ v, up v ≠ none → v ∈ keys) {n : Nat} (hn : keys.card ≤ n) (v : N) :
    up (settle up n v) = none := by
  refine step_settle id ?_ keys (fun a _ ha => hkeys a ha) hn
  rintro a b hab rfl
  exact h.acyclic a hab

/-! ## Down -/

/-- Depth first, a node before what is below it, if the fuel goes as deep as the nodes do. -/
def preorder {R : Type} (down : N → List N) (emit : Nat → N → R) :
    Nat → Nat → N → List R → Option (List R)
  | 0, depth, v, out => if (down v).isEmpty then some (out ++ [emit depth v]) else none
  | fuel + 1, depth, v, out =>
    (down v).foldlM (fun out c => preorder down emit fuel (depth + 1) c out)
      (out ++ [emit depth v])

def Listed (down : N → List N) (p c : N) : Prop := c ∈ down p

/-- The walk of a forest, a node before what is below it and that before the next node. -/
inductive Walks (down : N → List N) (emit : Nat → N → R) : Nat → List N → List R → Prop
  | nil {depth : Nat} : Walks down emit depth [] []
  | cons {depth : Nat} {v : N} {vs : List N} {below rest : List R} :
      Walks down emit (depth + 1) (down v) below → Walks down emit depth vs rest →
      Walks down emit depth (v :: vs) (emit depth v :: (below ++ rest))

variable {emit : Nat → N → R} {depth : Nat} {vs : List N} {part : List R}

theorem foldlM_walks {f : List R → N → Option (List R)}
    (h : ∀ v ∈ vs, ∀ out, ∃ part, f out v = some (out ++ part) ∧ Walks down emit depth [v] part)
    (out : List R) :
    ∃ rest, vs.foldlM f out = some (out ++ rest) ∧ Walks down emit depth vs rest := by
  induction vs generalizing out with
  | nil => exact ⟨[], by simp, .nil⟩
  | cons v vs ih =>
    obtain ⟨part, hpart, hwalks⟩ := h v mem_cons_self out
    obtain ⟨rest, hrest, hwalks'⟩ := ih (fun v hv => h v (mem_cons_of_mem _ hv)) (out ++ part)
    refine ⟨part ++ rest, by simp [hpart, hrest], ?_⟩
    cases hwalks with
    | cons hbelow hnil =>
      cases hnil
      rw [append_nil]
      exact .cons hbelow hwalks'

theorem Walks.sound (h : Walks down emit depth vs part) :
    ∀ r ∈ part, ∃ depth c, (∃ v ∈ vs, ReflTransGen (Listed down) v c) ∧ r = emit depth c := by
  induction h with
  | nil => exact nofun
  | @cons depth v vs below rest _ _ ihbelow ihrest =>
    intro r hr
    rcases mem_cons.mp hr with rfl | hr
    · exact ⟨depth, v, ⟨v, mem_cons_self, .refl⟩, rfl⟩
    rcases mem_append.mp hr with hr | hr
    · obtain ⟨d, c, ⟨w, hw, hc⟩, rfl⟩ := ihbelow r hr
      exact ⟨d, c, ⟨v, mem_cons_self, .head hw hc⟩, rfl⟩
    · obtain ⟨d, c, ⟨w, hw, hc⟩, rfl⟩ := ihrest r hr
      exact ⟨d, c, ⟨w, mem_cons_of_mem _ hw, hc⟩, rfl⟩

theorem Walks.complete (h : Walks down emit depth vs part) {v c : N} (hv : v ∈ vs)
    (hc : ReflTransGen (Listed down) v c) : ∃ depth, emit depth c ∈ part := by
  induction h generalizing v with
  | nil => cases hv
  | @cons depth w vs below rest _ _ ihbelow ihrest =>
    rcases mem_cons.mp hv with rfl | hv
    · rcases hc.cases_head with rfl | ⟨w, hw, hc⟩
      · exact ⟨depth, mem_cons_self⟩
      · obtain ⟨d, hd⟩ := ihbelow hw hc
        exact ⟨d, mem_cons_of_mem _ (mem_append_left _ hd)⟩
    · obtain ⟨d, hd⟩ := ihrest hv hc
      exact ⟨d, mem_cons_of_mem _ (mem_append_right _ hd)⟩

theorem fresh_child (h : Ends up) (hdown : ∀ p c, c ∈ down p → up c = some p) {keys : Finset N}
    (hkeys : ∀ v, up v ≠ none → v ∈ keys) {v : N} {path : Finset N}
    (habove : ∀ x ∈ path, ReflTransGen (Next up) v x) {c : N} (hc : c ∈ down v) :
    c ∈ keys ∧ c ∉ path := by
  have hup := hdown v c hc
  refine ⟨hkeys c (by rw [hup]; exact some_ne_none v), fun hmem => ?_⟩
  exact h.acyclic c (.head' hup (habove c hmem))

/-- The walk down ends: every level takes a node of `keys` that no level above it took, and
`path` holds those taken. -/
theorem preorder_ends_below [DecidableEq N] (emit : Nat → N → R) (h : Ends up)
    (hdown : ∀ p c, c ∈ down p → up c = some p) (keys : Finset N)
    (hkeys : ∀ v, up v ≠ none → v ∈ keys) (fuel depth : Nat) (v : N) (out : List R)
    (path : Finset N) (hpath : path ⊆ keys) (habove : ∀ x ∈ path, ReflTransGen (Next up) v x)
    (hfuel : keys.card ≤ fuel + path.card) :
    ∃ part, preorder down emit fuel depth v out = some (out ++ part) ∧
      Walks down emit depth [v] part := by
  induction fuel generalizing depth v out path with
  | zero =>
    have hall : path = keys := eq_of_subset_of_card_le hpath (by omega)
    have hnone : down v = [] := by
      refine eq_nil_iff_forall_not_mem.mpr fun c hc => ?_
      obtain ⟨hin, hout⟩ := fresh_child h hdown hkeys habove hc
      rw [hall] at hout
      exact hout hin
    have hleaf : Walks down emit (depth + 1) (down v) [] := by
      rw [hnone]
      exact .nil
    exact ⟨[emit depth v], by rw [preorder, hnone]; rfl, .cons hleaf .nil⟩
  | succ fuel ih =>
    have hchildren : ∀ c ∈ down v, ∀ out : List R,
        ∃ part, preorder down emit fuel (depth + 1) c out = some (out ++ part) ∧
          Walks down emit (depth + 1) [c] part := by
      intro c hc out
      obtain ⟨hin, hnew⟩ := fresh_child h hdown hkeys habove hc
      have hinsert : insert c path ⊆ keys := insert_subset hin hpath
      have hbelow : ∀ x ∈ insert c path, ReflTransGen (Next up) c x := by
        intro x hx
        rcases mem_insert.mp hx with rfl | hx
        · exact .refl
        · exact .head (hdown v c hc) (habove x hx)
      refine ih (depth + 1) c out (insert c path) hinsert hbelow ?_
      rw [card_insert_of_notMem hnew]
      omega
    obtain ⟨rest, hrest, hwalks⟩ := foldlM_walks hchildren (out ++ [emit depth v])
    refine ⟨emit depth v :: (rest ++ []), ?_, .cons hwalks .nil⟩
    rw [preorder, hrest, append_nil, append_assoc]
    rfl

theorem preorder_ends [DecidableEq N] (emit : Nat → N → R) (h : Ends up)
    (hdown : ∀ p c, c ∈ down p → up c = some p) (keys : Finset N)
    (hkeys : ∀ v, up v ≠ none → v ∈ keys) {fuel : Nat} (hfuel : keys.card ≤ fuel) (depth : Nat)
    (v : N) (out : List R) :
    ∃ part, preorder down emit fuel depth v out = some (out ++ part) ∧
      Walks down emit depth [v] part :=
  preorder_ends_below emit h hdown keys hkeys fuel depth v out ∅ (empty_subset keys)
    nofun (by rwa [card_empty])

/-! ## Ranks -/

def Ranks (up : N → Option N) (rank : N → Nat) : Prop :=
  ∀ c p, up c = some p → rank c = rank p + 1

section

variable {rank : N → Nat} (h : Ranks up rank)
include h

theorem Ranks.le {a b : N} (hpath : ReflTransGen (Next up) a b) : rank b ≤ rank a := by
  induction hpath with
  | refl => rfl
  | tail _ hstep ih =>
    have := h _ _ hstep
    omega

theorem Ranks.unique {a b c : N} (ha : ReflTransGen (Next up) c a)
    (hb : ReflTransGen (Next up) c b) (hrank : rank a = rank b) : a = b := by
  have hfun : Relator.RightUnique (Next up) := fun _ _ _ h₁ h₂ => some.inj (h₁.symm.trans h₂)
  wlog hab : ReflTransGen (Next up) a b generalizing a b
  · have hba := (ReflTransGen.total_of_right_unique hfun ha hb).resolve_left hab
    exact (this hb ha hrank.symm hba).symm
  rcases hab.cases_head with rfl | ⟨p, hp, hpb⟩
  · rfl
  · have := h _ _ hp
    have := h.le hpb
    omega

/-- Two nodes of one rank have nothing below them in common, so no node comes twice. -/
theorem Ranks.walks (hdown : ∀ p c, c ∈ down p → up c = some p) (hnodup : ∀ p, (down p).Nodup)
    (key : R → N) (hkey : ∀ depth c, key (emit depth c) = c) (hwalks : Walks down emit depth vs part)
    (hvs : vs.Nodup) (hrank : ∀ v ∈ vs, rank v = depth) :
    (part.map key).Nodup ∧ ∀ r ∈ part, r = emit (rank (key r)) (key r) := by
  have habove : ∀ {depth vs part}, Walks down emit depth vs part → ∀ c ∈ part.map key,
      ∃ v ∈ vs, ReflTransGen (Next up) c v := by
    intro depth vs part hwalks c hc
    obtain ⟨r, hr, rfl⟩ := mem_map.mp hc
    obtain ⟨_, c, ⟨v, hv, hpath⟩, rfl⟩ := hwalks.sound r hr
    rw [hkey]
    exact ⟨v, hv, reflTransGen_swap.mp (ReflTransGen.mono (fun p c => hdown p c) _ _ hpath)⟩
  induction hwalks with
  | nil => exact ⟨nodup_nil, nofun⟩
  | @cons depth v vs below rest hbelow hrest ihbelow ihrest =>
    obtain ⟨hv, hvs⟩ := nodup_cons.mp hvs
    have hdepth := hrank v mem_cons_self
    obtain ⟨hnodupBelow, heqBelow⟩ := ihbelow (hnodup v) fun w hw => by
      rw [h _ _ (hdown v w hw), hdepth]
    obtain ⟨hnodupRest, heqRest⟩ := ihrest hvs fun w hw => hrank w (mem_cons_of_mem _ hw)
    have hout : ∀ c, ReflTransGen (Next up) c v → c ∉ rest.map key := by
      intro c hc hmem
      obtain ⟨w, hw, hcw⟩ := habove hrest c hmem
      have hsame := h.unique hc hcw (hdepth.trans (hrank w (mem_cons_of_mem _ hw)).symm)
      exact hv (hsame ▸ hw)
    have hin : ∀ c ∈ below.map key, ∃ w, up w = some v ∧ ReflTransGen (Next up) c w := by
      intro c hc
      obtain ⟨w, hw, hcw⟩ := habove hbelow c hc
      exact ⟨w, hdown v w hw, hcw⟩
    rw [List.map_cons, List.map_append, hkey]
    constructor
    · refine nodup_cons.mpr ⟨fun hmem => ?_, nodup_append.mpr ⟨hnodupBelow, hnodupRest, ?_⟩⟩
      · rcases mem_append.mp hmem with hmem | hmem
        · obtain ⟨w, hw, hvw⟩ := hin v hmem
          have := h _ _ hw
          have := h.le hvw
          omega
        · exact hout v .refl hmem
      · rintro c hc _ hc' rfl
        obtain ⟨w, hw, hcw⟩ := hin c hc
        exact hout c (.tail hcw hw) hc'
    · intro r hr
      rcases mem_cons.mp hr with rfl | hr
      · rw [hkey, hdepth]
      · rcases mem_append.mp hr with hr | hr
        · exact heqBelow r hr
        · exact heqRest r hr

end

theorem Walks.sublist {down' : N → List N} {emit' : Nat → N → R} {part' : List R} (key : R → N)
    (hkey : ∀ depth c, key (emit depth c) = key (emit' depth c))
    (hsub : ∀ v, down v = [] ∨ down v = down' v) (h : Walks down emit depth vs part)
    (h' : Walks down' emit' depth vs part') : (part.map key).Sublist (part'.map key) := by
  induction h generalizing part' with
  | nil => exact nil_sublist _
  | @cons depth v vs below rest hbelow _ ihbelow ihrest =>
    cases h' with
    | cons hbelow' hrest' =>
      rw [List.map_cons, List.map_cons, List.map_append, List.map_append, hkey]
      refine .cons_cons _ (.append ?_ (ihrest hrest'))
      rcases hsub v with hnil | heq
      · rw [hnil] at hbelow
        cases hbelow
        exact nil_sublist _
      · rw [← heq] at hbelow'
        exact ihbelow hbelow'

end Mere.Ancestry
