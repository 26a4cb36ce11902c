import Mere.Chartulary.OneByOne

/-!
# Two tails in either order

Two replicas of one base journal commit apart, and the tails are replayed one after the other.
-/

namespace Mere.Chartulary

open List Option

variable {Id N E Value : Type} {edits : List (GraphEdit Id N E Value)}
  {edit : GraphEdit Id N E Value}

def InsertFree (edits : List (GraphEdit Id N E Value)) : Prop := ∀ node, .insertNode node ∉ edits

def FacetEdited (edits : List (GraphEdit Id N E Value)) (x : Id) (facet : FacetId) : Prop :=
  .removeFacet x facet ∈ edits ∨ ∃ value, .setFacet x facet value ∈ edits

def Derived (edits : List (GraphEdit Id N E Value)) (x : Id) : Prop := ∃ record, .derive x record ∈ edits

theorem InsertFree.head (h : InsertFree (edit :: edits)) (node : N) : edit ≠ .insertNode node :=
  fun hc => h node (hc ▸ mem_cons_self)

theorem InsertFree.tail (h : InsertFree (edit :: edits)) : InsertFree edits :=
  fun node hmem => h node (mem_cons_of_mem _ hmem)

variable [DecidableEq Id] (edits)

def removes (x : Id) : GraphEdit Id N E Value → Bool
  | .removeNode y => decide (y = x)
  | _ => false

def keeps (edits : List (GraphEdit Id N E Value)) (x : Id) : Bool :=
  edits.all fun edit => !removes x edit

theorem keeps_eq_false (x : Id) :
    keeps edits x = false ↔ .removeNode x ∈ edits := by
  unfold keeps
  rw [List.all_eq_false]
  constructor
  · rintro ⟨edit, hmem, hedit⟩
    cases edit with
    | removeNode y =>
      have hy : y = x := by simpa [removes] using hedit
      exact hy ▸ hmem
    | _ => simp [removes] at hedit
  · intro hmem
    exact ⟨_, hmem, by simp [removes]⟩

theorem keeps_cons (edit : GraphEdit Id N E Value) (edits : List (GraphEdit Id N E Value))
    (x : Id) :
    keeps (edit :: edits) x = (!removes x edit && keeps edits x) :=
  rfl

def keepsEnds (keep : Id → Bool) (edge : Id × Id × E) : Bool := keep edge.1 && keep edge.2.1

variable [Identified N Id]

namespace View

/-! ## What a tail does to what it does not edit -/

variable {v v' : View Id N E Value}
variable {edits} {e : EdgeId} {x : Id} {f : FacetId}
  {keep : Id → Bool}

omit [Identified N Id] in
/-- What every edit either takes with the node or leaves alone. -/
theorem foldl_kept {S A : Type} {act : S → GraphEdit Id N E Value → S} {gone : A} (get : S → A)
    (h : ∀ s, ∀ edit ∈ edits, get (act s edit) = if removes x edit then gone else get s) (s : S) :
    get (edits.foldl act s) = if keeps edits x then get s else gone := by
  induction edits generalizing s with
  | nil => rfl
  | cons edit edits ih =>
    rw [foldl_cons, ih fun s edit hmem => h s edit (mem_cons_of_mem _ hmem),
      h s edit mem_cons_self, keeps_cons]
    cases removes x edit <;> cases keeps edits x <;> rfl

theorem nodes_applyAll (h : InsertFree edits) (x : Id) :
    (v.applyAll edits).nodes x = if keeps edits x then v.nodes x else none := by
  refine foldl_kept (fun v : View Id N E Value => v.nodes x) (fun v edit hmem => ?_) v
  cases edit with
  | insertNode node => exact absurd hmem (h node)
  | removeNode y => simp [View.apply, removes, eq_comm]
  | disconnect id | derive y record => rfl
  | _ => simp [apply_connect, apply_setFacet, apply_removeFacet, removes]

theorem live_applyAll (h : InsertFree edits) (x : Id) :
    (v.applyAll edits).live x = (keeps edits x && v.live x) := by
  unfold live
  rw [nodes_applyAll h]
  cases keeps edits x <;> rfl

omit [Identified N Id] in
theorem all_spares
    (hdis : .disconnect e ∉ edits) (edge : Id × Id × E) :
    edits.all (spares e edge) = keepsEnds (keeps edits) edge := by
  induction edits with
  | nil => rfl
  | cons edit edits ih =>
    have hstep : spares e edge edit = (!removes edge.1 edit && !removes edge.2.1 edit) := by
      cases edit with
      | removeNode x =>
        by_cases hs : edge.1 = x
        · simp [spares, clear, removes, hs]
        · by_cases ht : edge.2.1 = x
          · simp [spares, clear, removes, ht]
          · simp [spares, clear, removes, hs, ht, Ne.symm hs, Ne.symm ht]
      | disconnect id =>
        have hne : e ≠ id := fun hc => hdis (hc ▸ mem_cons_self)
        simp [spares, removes, hne]
      | _ => rfl
    rw [all_cons, hstep, ih (fun hmem => hdis (mem_cons_of_mem _ hmem))]
    simp only [keepsEnds, keeps_cons]
    cases removes edge.1 edit <;> cases removes edge.2.1 edit <;> simp

theorem facets_applyAll
    (h : ¬ FacetEdited edits x f) :
    (v.applyAll edits).facets x f = if keeps edits x then v.facets x f else none := by
  refine foldl_kept (fun v : View Id N E Value => v.facets x f) (fun v edit hmem => ?_) v
  cases edit with
  | insertNode node | disconnect id | derive y record => rfl
  | removeNode y => simp [View.apply, removes, eq_comm]
  | connect id source target edge => rw [apply_connect]; rfl
  | setFacet y facet value =>
    rw [apply_setFacet]
    refine if_neg ?_
    rintro ⟨⟨rfl, rfl⟩, _⟩
    exact h (.inr ⟨value, hmem⟩)
  | removeFacet y facet =>
    rw [apply_removeFacet]
    refine if_neg ?_
    rintro ⟨⟨rfl, rfl⟩, _⟩
    exact h (.inl hmem)

/-! ## What a tail makes of a view with nodes taken out -/

def Thinned (keep : Id → Bool) (v v' : View Id N E Value) : Prop :=
  ∀ x, v'.nodes x = if keep x then v.nodes x else none

section

variable (h : Thinned keep v v')
include h

omit [DecidableEq Id] [Identified N Id] in
theorem Thinned.live (x : Id) :
    v'.live x = (keep x && v.live x) := by
  unfold View.live
  rw [h]
  cases keep x <;> rfl

theorem Thinned.apply
    (hins : ∀ node, edit ≠ .insertNode node) : Thinned keep (v.apply edit) (v'.apply edit) := by
  intro x
  cases edit with
  | insertNode node => exact absurd rfl (hins node)
  | removeNode y =>
    simp only [View.apply]
    split
    · exact (ite_self none).symm
    · exact h x
  | disconnect id | derive y record => exact h x
  | _ => simpa only [apply_connect, apply_setFacet, apply_removeFacet] using h x

theorem Thinned.edges_apply (he : v'.edges e = (v.edges e).filter (keepsEnds keep))
    (hfresh : connectId edit = some e → v.edges e = none) :
    (v'.apply edit).edges e = ((v.apply edit).edges e).filter (keepsEnds keep) := by
  by_cases hid : connectId edit = some e
  · have hnone := hfresh hid
    cases edit with
    | connect id source target edge =>
      obtain rfl := some.inj hid
      have hends : (some (source, target, edge)).filter (keepsEnds keep) =
          if (keep source && keep target) = true then some (source, target, edge) else none :=
        filter_some
      simp only [apply_connect, h.live, he, hnone]
      cases v.live source <;> cases v.live target <;> simp [hends]
    | _ => cases hid
  · rw [View.edges_apply hid, View.edges_apply hid, he, Option.filter_filter, Option.filter_filter]
    congr 1
    funext edge
    exact Bool.and_comm _ _

theorem Thinned.facets_apply (hf : v'.facets x f = if keep x then v.facets x f else none) :
    (v'.apply edit).facets x f = if keep x then (v.apply edit).facets x f else none := by
  cases edit with
  | insertNode node | disconnect id | derive y record => exact hf
  | removeNode y =>
    simp only [View.apply]
    split
    · exact (ite_self none).symm
    · exact hf
  | connect id source target edge => simpa only [apply_connect] using hf
  | setFacet y facet _ | removeFacet y facet =>
    simp only [apply_setFacet, apply_removeFacet, h.live, hf]
    by_cases hxy : x = y ∧ f = facet
    · obtain ⟨rfl, rfl⟩ := hxy
      cases keep x <;> cases v.live x <;> simp
    · simp [hxy]

theorem Thinned.edges_applyAll (he : v'.edges e = (v.edges e).filter (keepsEnds keep))
    (hins : InsertFree edits) (hfresh : v.Fresh edits) :
    (v'.applyAll edits).edges e = ((v.applyAll edits).edges e).filter (keepsEnds keep) := by
  induction edits generalizing v v' with
  | nil => exact he
  | cons edit edits ih =>
    refine ih (h.apply hins.head) (h.edges_apply he ?_) hins.tail hfresh.tail
    intro hid
    refine hfresh.unused e ?_
    rw [connectIds_cons, hid]
    exact mem_cons_self

theorem Thinned.facets_applyAll
    (hf : v'.facets x f = if keep x then v.facets x f else none) (hins : InsertFree edits) :
    (v'.applyAll edits).facets x f = if keep x then (v.applyAll edits).facets x f else none := by
  induction edits generalizing v v' with
  | nil => exact hf
  | cons edit edits ih => exact ih (h.apply hins.head) (h.facets_apply hf) hins.tail

end

/-! ## Swapping two tails -/

section Swap

variable {a b : List (GraphEdit Id N E Value)}

variable (ha : InsertFree a)
include ha

variable (hb : InsertFree b)
include hb

theorem nodes_swap :
    ((v.applyAll a).applyAll b).nodes = ((v.applyAll b).applyAll a).nodes := by
  funext x
  rw [nodes_applyAll hb, nodes_applyAll ha, nodes_applyAll ha, nodes_applyAll hb]
  cases keeps a x <;> cases keeps b x <;> rfl

theorem edges_swap_of (hfresh : v.Fresh a) {e : EdgeId}
    (hid : e ∉ connectIds b) (hdis : .disconnect e ∉ b) :
    ((v.applyAll a).applyAll b).edges e = ((v.applyAll b).applyAll a).edges e := by
  have hthin : ∀ w : View Id N E Value,
      (w.applyAll b).edges e = (w.edges e).filter (keepsEnds (keeps b)) := by
    intro w
    rw [View.edges_applyAll hid]
    congr 1
    funext edge
    exact all_spares hdis edge
  rw [hthin]
  exact (Thinned.edges_applyAll (nodes_applyAll hb) (hthin v) ha hfresh).symm

theorem edges_swap (hfresha : v.Fresh a)
    (hfreshb : v.Fresh b) (hids : ∀ e ∈ connectIds a, e ∉ connectIds b)
    (hdisa : ∀ e, .disconnect e ∈ a → e ∉ connectIds b)
    (hdisb : ∀ e, .disconnect e ∈ b → e ∉ connectIds a) :
    ((v.applyAll a).applyAll b).edges = ((v.applyAll b).applyAll a).edges := by
  funext e
  by_cases hea : e ∈ connectIds a
  · exact edges_swap_of ha hb hfresha (hids e hea) (fun hmem => hdisb e hmem hea)
  · by_cases heb : e ∈ connectIds b
    · exact (edges_swap_of hb ha hfreshb hea (fun hmem => hdisa e hmem heb)).symm
    · rw [View.edges_applyAll heb, View.edges_applyAll hea, View.edges_applyAll hea,
        View.edges_applyAll heb, Option.filter_filter, Option.filter_filter]
      congr 1
      funext edge
      exact Bool.and_comm _ _

theorem facets_swap_of {x : Id} {f : FacetId} (h : ¬ FacetEdited b x f) :
    ((v.applyAll a).applyAll b).facets x f = ((v.applyAll b).applyAll a).facets x f := by
  rw [facets_applyAll h]
  exact (Thinned.facets_applyAll (nodes_applyAll hb) (facets_applyAll h) ha).symm

theorem facets_swap (h : ∀ x f, FacetEdited a x f → ¬ FacetEdited b x f) :
    ((v.applyAll a).applyAll b).facets = ((v.applyAll b).applyAll a).facets := by
  funext x f
  by_cases hb' : FacetEdited b x f
  · exact (facets_swap_of hb ha (fun ha' => h x f ha' hb')).symm
  · exact facets_swap_of ha hb hb'

end Swap

/-! ## Derivations -/

omit [Identified N Id] in
/-- What an edit makes of the records of `x`; it looks at nothing else. -/
def recorded (x : Id) (records : List (DerivationRecord Id)) :
    GraphEdit Id N E Value → List (DerivationRecord Id)
  | .removeNode y => if y = x then [] else records
  | .derive y record => if y = x then records ++ [record] else records
  | _ => records

theorem derivations_applyAll (x : Id) :
    (v.applyAll edits).derivations x = edits.foldl (recorded x) (v.derivations x) := by
  induction edits generalizing v with
  | nil => rfl
  | cons edit edits ih =>
    have hstep : (v.apply edit).derivations x = recorded x (v.derivations x) edit := by
      cases edit with
      | removeNode y | derive y record => simp [View.apply, recorded, eq_comm]
      | insertNode node | disconnect id => rfl
      | _ => simp [apply_connect, apply_setFacet, apply_removeFacet, recorded]
    rw [foldl_cons, ← hstep]
    exact ih

omit [Identified N Id] in
theorem foldl_recorded_underived
    (h : ¬ Derived edits x) (records : List (DerivationRecord Id)) :
    edits.foldl (recorded x) records = if keeps edits x then records else [] := by
  refine foldl_kept id (fun records edit hmem => ?_) records
  cases edit with
  | removeNode y => simp [recorded, removes]
  | derive y record =>
    refine if_neg ?_
    rintro rfl
    exact h ⟨record, hmem⟩
  | _ => rfl

omit [Identified N Id] in
theorem foldl_recorded_kept
    (h : keeps edits x = true) (records : List (DerivationRecord Id)) :
    edits.foldl (recorded x) records = [] ↔ records = [] ∧ ¬ Derived edits x := by
  induction edits generalizing records with
  | nil => simp [Derived]
  | cons edit edits ih =>
    rw [keeps_cons, Bool.and_eq_true, Bool.not_eq_true'] at h
    have hderived : Derived (edit :: edits) x ↔ (∃ record, edit = .derive x record) ∨ Derived edits x := by
      simp [Derived, exists_or, eq_comm]
    rw [foldl_cons, ih h.2, hderived, not_or, ← and_assoc]
    refine and_congr_left (fun _ => ?_)
    cases edit with
    | removeNode y =>
      have hy : y ≠ x := by simpa [removes] using h.1
      simp [recorded, hy]
    | derive y record =>
      by_cases hy : y = x
      · simp [recorded, hy]
      · simp [recorded, hy]
    | _ => simp [recorded]

/-- Every derive is for a node that is live by then. -/
def Grounded : View Id N E Value → List (GraphEdit Id N E Value) → Prop
  | _, [] => True
  | v, edit :: edits =>
    (∀ x record, edit = .derive x record → v.live x = true) ∧ Grounded (v.apply edit) edits

theorem grounded_append (v : View Id N E Value) (edits edits' : List (GraphEdit Id N E Value)) :
    Grounded v (edits ++ edits') ↔ Grounded v edits ∧ Grounded (v.applyAll edits) edits' := by
  induction edits generalizing v with
  | nil => exact (and_iff_right trivial).symm
  | cons edit edits ih =>
    rw [cons_append, Grounded, Grounded, ih, and_assoc]
    rfl

theorem Grounded.live (h : Grounded v edits)
    (hins : InsertFree edits) (hx : Derived edits x) : v.live x = true := by
  induction edits generalizing v with
  | nil =>
    obtain ⟨record, hmem⟩ := hx
    cases hmem
  | cons edit edits ih =>
    obtain ⟨record, hmem⟩ := hx
    rcases mem_cons.mp hmem with rfl | hmem
    · exact h.1 x record rfl
    · have hlater := ih h.2 hins.tail ⟨record, hmem⟩
      have hone : InsertFree [edit] := by
        intro node hnode
        exact hins.head node (mem_singleton.mp hnode).symm
      have hnow := live_applyAll (v := v) hone x
      rw [show (v.applyAll [edit]).live x = true from hlater] at hnow
      exact (Bool.and_eq_true_iff.mp hnow.symm).2

theorem Grounded.foldl_recorded (h : Grounded v edits)
    (hins : InsertFree edits) (hx : keeps edits x = false)
    (records : List (DerivationRecord Id)) : edits.foldl (recorded x) records = [] := by
  induction edits generalizing v records with
  | nil => cases hx
  | cons edit edits ih =>
    rw [foldl_cons]
    cases hk : keeps edits x with
    | false => exact ih h.2 hins.tail hk _
    | true =>
      rw [keeps_cons, hk] at hx
      cases edit with
      | removeNode y =>
        obtain rfl : y = x := by simpa [removes] using hx
        have hdead : (v.apply (.removeNode y)).live y = false := by simp [View.live, View.apply]
        have hnone : ¬ Derived edits y := by
          intro hd
          rw [h.2.live hins.tail hd] at hdead
          cases hdead
        rw [foldl_recorded_kept hk]
        exact ⟨by simp [recorded], hnone⟩
      | _ => cases hx

omit [Identified N Id] in
def Heeds (a b : List (GraphEdit Id N E Value)) : Prop :=
  ∀ x, Derived a x → .removeNode x ∈ b → .removeNode x ∈ a

theorem derivations_swap_of {a b : List (GraphEdit Id N E Value)} (ha : InsertFree a)
    (hground : Grounded v a) (h : ¬ Derived b x) :
    ((v.applyAll a).applyAll b).derivations x = ((v.applyAll b).applyAll a).derivations x ↔
      (Derived a x → .removeNode x ∈ b → .removeNode x ∈ a) := by
  simp only [derivations_applyAll, foldl_recorded_underived h]
  rw [← keeps_eq_false b, ← keeps_eq_false a]
  cases hb : keeps b x with
  | true => simp
  | false =>
    cases hkeep : keeps a x with
    | true => simp [foldl_recorded_kept hkeep]
    | false => simp [hground.foldl_recorded ha hkeep]

theorem derivations_swap {a b : List (GraphEdit Id N E Value)} (ha : InsertFree a)
    (hb : InsertFree b) (hgrounda : Grounded v a) (hgroundb : Grounded v b)
    (h : ∀ x, Derived a x → ¬ Derived b x) :
    ((v.applyAll a).applyAll b).derivations = ((v.applyAll b).applyAll a).derivations ↔
      Heeds a b ∧ Heeds b a := by
  rw [funext_iff]
  unfold Heeds
  rw [← forall_and]
  refine forall_congr' (fun x => ?_)
  by_cases hbx : Derived b x
  · have hax : ¬ Derived a x := fun hax => h x hax hbx
    rw [eq_comm, derivations_swap_of hb hgroundb hax]
    exact (and_iff_right (fun hc => absurd hc hax)).symm
  · rw [derivations_swap_of ha hgrounda hbx]
    exact (and_iff_left (fun hc => absurd hc hbx)).symm

end View

namespace GraphLog

variable {g : GraphLog Id N E Value}

/-! ## What commits put into a tail -/

variable {specs : List (EditSpec Id N E Value)} {e : EdgeId} {writer : WriterId}
  {base tail : List (Batch Id N E Value)}

theorem Follows.grounded {earlier : List (EditSpec Id N E Value)} {shadow shadow' : Shadow Id}
    (h : g.Follows earlier shadow) (hrun : specs.foldlM g.check shadow = .ok shadow') :
    View.Grounded (g.view.applyAll (lower g.writer g.nextEdge earlier)) (lower g.writer
      (g.nextEdge + (connectIds (lower g.writer g.nextEdge earlier)).length) specs) := by
  induction specs generalizing earlier shadow with
  | nil => trivial
  | cons spec specs ih =>
    rw [foldlM_cons] at hrun
    cases hcheck : g.check shadow spec with
    | error refusal => rw [hcheck] at hrun; cases hrun
    | ok next =>
      rw [hcheck] at hrun
      have hlater := ih (h.check hcheck) hrun
      have hcut : ∀ n, lower g.writer n (spec :: specs) = spec.lower g.writer n ::
          lower g.writer (n + (connectIds (lower g.writer n [spec])).length) specs :=
        fun n => lower_append g.writer n [spec] specs
      rw [lower_append, View.applyAll_append, connectIds_append, length_append,
        ← Nat.add_assoc] at hlater
      rw [hcut]
      refine ⟨?_, hlater⟩
      intro x record hedit
      rw [← h.nodes]
      cases spec with
      | derive y record' =>
        obtain ⟨rfl, _⟩ := GraphEdit.derive.inj hedit
        exact (checkNode_ok hcheck).1
      | _ => cases hedit

theorem disconnect_known {shadow shadow' : Shadow Id}
    (hrun : specs.foldlM g.check shadow = .ok shadow') (he : .disconnect e ∈ specs) :
    (g.edgeKey e).isSome = true := by
  induction specs generalizing shadow with
  | nil => cases he
  | cons spec specs ih =>
    rw [foldlM_cons] at hrun
    cases hcheck : g.check shadow spec with
    | error refusal => rw [hcheck] at hrun; cases hrun
    | ok next =>
      rw [hcheck] at hrun
      rcases mem_cons.mp he with rfl | he
      · rw [check] at hcheck
        split at hcheck
        · cases hcheck
        · rename_i hlive
          simpa [isSome_iff_ne_none] using (not_or.mp hlive).2
      · exact ih hrun he

omit [DecidableEq Id] [Identified N Id] in
theorem mem_disconnect_lower {next : Nat} (h : .disconnect e ∈ lower writer next specs) :
    .disconnect e ∈ specs := by
  induction specs generalizing next with
  | nil => cases h
  | cons spec specs ih =>
    rcases mem_cons.mp h with hhead | htail
    · cases spec with
      | disconnect id =>
        obtain rfl := GraphEdit.disconnect.inj hhead
        exact mem_cons_self
      | _ => cases hhead
    · exact mem_cons_of_mem _ (ih htail)

structure Apart (base : List (Batch Id N E Value)) (writer : WriterId)
    (tail : List (Batch Id N E Value)) : Prop where
  own : ∀ e ∈ connectIds (editsOf tail), e.writer = writer
  distinct : (connectIds (editsOf (base ++ tail))).Nodup
  known : ∀ e, .disconnect e ∈ editsOf tail → e ∈ connectIds (editsOf (base ++ tail))
  grounded : (View.empty.applyAll (editsOf base)).Grounded (editsOf tail)

theorem Apart.submit (hsound : g.Sound)
    (hentries : g.log.entries = base ++ tail) (h : Apart base g.writer tail)
    (submission : Submission Id N E Value) :
    ∃ tail', (g.submit submission).log.entries = base ++ tail' ∧ Apart base g.writer tail' := by
  have hsound' : (g.submit submission).Sound := hsound.commitBatch _ _ _
  unfold GraphLog.submit at hsound' ⊢
  rcases commitBatch_cases (g := g) submission.author submission.expected submission.specs with
    ⟨_, heq⟩ | ⟨⟨shadow, hpre⟩, heq⟩
  · rw [heq]
    exact ⟨tail, hentries, h⟩
  · rw [heq] at hsound' ⊢
    have hview : g.view = (View.empty.applyAll (editsOf base)).applyAll (editsOf tail) := by
      rw [hsound.replayed, hentries, editsOf_append, View.applyAll_append]
    have hedits : editsOf (tail ++ [⟨submission.author, lower g.writer g.nextEdge submission.specs⟩]) =
        editsOf tail ++ lower g.writer g.nextEdge submission.specs := by
      simp [editsOf]
    have hlog : (g.extended submission.author (lower g.writer g.nextEdge submission.specs)).log.entries =
        base ++ (tail ++ [⟨submission.author, lower g.writer g.nextEdge submission.specs⟩]) := by
      rw [← append_assoc, ← hentries]
      rfl
    refine ⟨_, hlog, ⟨?_, hlog ▸ hsound'.distinct, ?_, ?_⟩⟩
    · intro e he
      rw [hedits, connectIds_append, mem_append] at he
      rcases he with he | he
      · exact h.own e he
      · exact (mem_connectIds_lower he).1
    · intro e he
      rw [hedits, mem_append] at he
      rw [← append_assoc, editsOf_append, connectIds_append]
      refine mem_append_left _ ?_
      rcases he with he | he
      · exact h.known e he
      · have hkey := disconnect_known hpre (mem_disconnect_lower he)
        rw [← hsound.indexed.isSome_edges] at hkey
        exact hentries ▸ hsound.journaled hkey
    · rw [hedits, View.grounded_append]
      refine ⟨h.grounded, ?_⟩
      rw [← hview]
      exact follows_nil.grounded hpre

theorem Apart.submitAll (hsound : g.Sound)
    (hentries : g.log.entries = base ++ tail) (h : Apart base g.writer tail)
    (submissions : List (Submission Id N E Value)) :
    ∃ tail', (g.submitAll submissions).log.entries = base ++ tail' ∧ Apart base g.writer tail' := by
  induction submissions generalizing g tail with
  | nil => exact ⟨tail, hentries, h⟩
  | cons submission submissions ih =>
    obtain ⟨tail', hentries', h'⟩ := h.submit hsound hentries submission
    rw [← submit_writer submission] at h' ⊢
    exact ih (hsound.commitBatch _ _ _) hentries' h'

theorem apart_of_submitAll {base : Journal (Batch Id N E Value)}
    (hbase : (connectIds (editsOf base.entries)).Nodup)
    (submissions : List (Submission Id N E Value))
    (h : ((replayForWriter base writer).submitAll submissions).log.entries = base.entries ++ tail) :
    Apart base.entries writer tail := by
  have hwriter := (replayForWriter_counter base writer).1
  have hstart : Apart base.entries (replayForWriter base writer).writer [] := by
    refine ⟨nofun, ?_, nofun, trivial⟩
    rwa [append_nil]
  obtain ⟨tail', htail, hapart⟩ := hstart.submitAll (sound_replayForWriter writer hbase)
    (append_nil _).symm submissions
  rw [hwriter] at hapart
  rwa [append_cancel_left (h.symm.trans htail)]

/-! ## The two orders -/

theorem Apart.fresh
    (h : Apart base writer tail) : (View.empty.applyAll (editsOf base)).Fresh (editsOf tail) := by
  have hids := h.distinct
  rw [editsOf_append, connectIds_append] at hids
  refine ⟨hids.of_append_right, fun e he => View.edges_applyAll_eq_none rfl ?_⟩
  exact fun hbase => disjoint_of_nodup_append hids hbase he

theorem Apart.strange {a b : List (Batch Id N E Value)} {wa wb : WriterId}
    (ha : Apart base wa a) (hb : Apart base wb b) (hw : wa ≠ wb) :
    (∀ e ∈ connectIds (editsOf a), e ∉ connectIds (editsOf b)) ∧
      ∀ e, .disconnect e ∈ editsOf a → e ∉ connectIds (editsOf b) := by
  have hown : ∀ e ∈ connectIds (editsOf a), e ∉ connectIds (editsOf b) :=
    fun e hea heb => hw ((ha.own e hea).symm.trans (hb.own e heb))
  refine ⟨hown, fun e hdis heb => ?_⟩
  have hknown := ha.known e hdis
  rw [editsOf_append, connectIds_append, mem_append] at hknown
  rcases hknown with hbase | hea
  · have hids := hb.distinct
    rw [editsOf_append, connectIds_append] at hids
    exact disjoint_of_nodup_append hids hbase heb
  · exact hown e hea heb

theorem Apart.view_merged {a b : List (Batch Id N E Value)} {wa wb : WriterId}
    (ha : Apart base wa a) (hb : Apart base wb b) (hw : wa ≠ wb)
    {merged : Journal (Batch Id N E Value)} (h : merged.entries = base ++ a ++ b) (writer : WriterId) :
    (replayForWriter merged writer).view =
      ((View.empty.applyAll (editsOf base)).applyAll (editsOf a)).applyAll (editsOf b) := by
  have hnodup : (connectIds (editsOf merged.entries)).Nodup := by
    rw [h, editsOf_append, connectIds_append]
    refine List.Nodup.append ha.distinct hb.fresh.distinct ?_
    intro e hleft heb
    rw [editsOf_append, connectIds_append, mem_append] at hleft
    rcases hleft with hbase | hea
    · have hids := hb.distinct
      rw [editsOf_append, connectIds_append] at hids
      exact disjoint_of_nodup_append hids hbase heb
    · exact (ha.strange hb hw).1 e hea heb
  rw [(replayForWriter_spec writer hnodup).2, h, editsOf_append, editsOf_append,
    View.applyAll_append, View.applyAll_append]

/-- Two tails committed apart, with no insert, on disjoint facets and with derives on disjoint
nodes: replaying them in either order gives the same nodes, edges, facets and derivations
exactly where a node that one tail derives and the other removes is removed by both. -/
theorem removal_wins_iff (base : Journal (Batch Id N E Value))
    (hbase : (connectIds (editsOf base.entries)).Nodup) {wa wb : WriterId} (hw : wa ≠ wb)
    (sa sb : List (Submission Id N E Value)) {a b : List (Batch Id N E Value)}
    (ha : ((replayForWriter base wa).submitAll sa).log.entries = base.entries ++ a)
    (hb : ((replayForWriter base wb).submitAll sb).log.entries = base.entries ++ b)
    (hinsa : InsertFree (editsOf a)) (hinsb : InsertFree (editsOf b))
    (hfacets : ∀ x f, FacetEdited (editsOf a) x f → ¬ FacetEdited (editsOf b) x f)
    (hderive : ∀ x, Derived (editsOf a) x → ¬ Derived (editsOf b) x)
    {ab ba : Journal (Batch Id N E Value)} (hab : ab.entries = base.entries ++ a ++ b)
    (hba : ba.entries = base.entries ++ b ++ a) (writer : WriterId) :
    (replayForWriter ab writer).view = (replayForWriter ba writer).view ↔
      View.Heeds (editsOf a) (editsOf b) ∧ View.Heeds (editsOf b) (editsOf a) := by
  have haparta := apart_of_submitAll hbase sa ha
  have hapartb := apart_of_submitAll hbase sb hb
  rw [haparta.view_merged hapartb hw hab, hapartb.view_merged haparta hw.symm hba,
    ← View.derivations_swap hinsa hinsb haparta.grounded hapartb.grounded hderive]
  obtain ⟨hids, hdisa⟩ := haparta.strange hapartb hw
  obtain ⟨_, hdisb⟩ := hapartb.strange haparta hw.symm
  constructor
  · exact fun heq => congrArg View.derivations heq
  · intro hderivations
    exact View.ext (View.nodes_swap hinsa hinsb)
      (View.edges_swap hinsa hinsb haparta.fresh hapartb.fresh hids hdisa hdisb) hderivations
      (View.facets_swap hinsa hinsb hfacets)

def seed : Journal (Batch Nat (Container Nat) Nat Nat) :=
  .append .new ⟨⟨[]⟩, [.insertNode ⟨1, []⟩]⟩

def origin : DerivationRecord Nat := ⟨⟨[]⟩, 5, .copiedFrom⟩

def removing : List (Batch Nat (Container Nat) Nat Nat) := [⟨⟨[]⟩, [.removeNode 1]⟩]

def recordingRemoved : List (Batch Nat (Container Nat) Nat Nat) :=
  [⟨⟨[]⟩, [.derive 1 origin, .removeNode 1]⟩]

theorem removal_wins_both :
    (replayForWriter { entries := seed.entries ++ removing ++ recordingRemoved } localWriter).view =
      (replayForWriter { entries := seed.entries ++ recordingRemoved ++ removing } localWriter).view := by
  refine (removal_wins_iff seed nodup_nil (show (1 : WriterId) ≠ 2 by decide)
    [⟨⟨[]⟩, 1, [.removeNode 1]⟩] [⟨⟨[]⟩, 1, [.derive 1 origin, .removeNode 1]⟩] (by decide) (by decide)
    ?_ ?_ ?_ ?_ rfl rfl localWriter).mpr ⟨?_, ?_⟩
  · simp [InsertFree, editsOf, removing]
  · simp [InsertFree, editsOf, recordingRemoved]
  · simp [FacetEdited, editsOf, removing]
  · simp [Derived, editsOf, removing]
  · simp [View.Heeds, Derived, editsOf, removing]
  · simp [View.Heeds, Derived, editsOf, removing, recordingRemoved]

def recording : List (Batch Nat (Container Nat) Nat Nat) := [⟨⟨[]⟩, [.derive 1 origin]⟩]

/-- The record of a removed node comes back where it is replayed after the removal. -/
theorem derive_outlives_removal :
    ((replayForWriter seed 1).submitAll [⟨⟨[]⟩, 1, [.removeNode 1]⟩]).log.entries =
      seed.entries ++ removing ∧
    ((replayForWriter seed 2).submitAll [⟨⟨[]⟩, 1, [.derive 1 origin]⟩]).log.entries =
      seed.entries ++ recording ∧
    (replayForWriter { entries := seed.entries ++ removing ++ recording } localWriter).derivationsOf 1 =
      [origin] ∧
    (replayForWriter { entries := seed.entries ++ recording ++ removing } localWriter).derivationsOf 1 =
      [] :=
  ⟨by decide, by decide, by decide, by decide⟩

end GraphLog

end Mere.Chartulary
