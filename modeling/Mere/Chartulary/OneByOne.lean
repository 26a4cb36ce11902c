import Mere.Chartulary.Commit

/-!
# A batch against its specs one at a time

The precheck of a batch runs on a shadow of the graph, while specs committed one at a time are each
checked against the graph itself.
-/

namespace Mere.Chartulary

open List Option

variable {Id N E Value : Type}

def View.Allows (v : View Id N E Value) : EditSpec Id N E Value → Prop
  | .insertNode _ => True
  | .removeNode x => v.live x = true
  | .connect source target _ => v.live source = true ∧ v.live target = true
  | .disconnect id => (v.edges id).isSome = true
  | .derive x _ => v.live x = true
  | .setFacet x _ _ => v.live x = true
  | .removeFacet x _ => v.live x = true

variable [DecidableEq Id] [Identified N Id]

namespace GraphLog

/-- Each spec at the revision then current; the first refusal ends it. -/
def commitEach (author : Author) : GraphLog Id N E Value → List (EditSpec Id N E Value) →
    Option (GraphLog Id N E Value)
  | g, [] => some g
  | g, spec :: specs =>
    let result := g.commitOne author spec
    if result.1.isSome then commitEach author result.2 specs else none

variable (g : GraphLog Id N E Value)

def materialized : GraphLog Id N E Value := { g with log := .new }

/-- No edge is disconnected after an end of it was removed in the same batch. -/
def Untorn (specs : List (EditSpec Id N E Value)) : Prop :=
  ∀ earlier e later, specs = earlier ++ .disconnect e :: later →
    ∀ x, .removeNode x ∈ earlier → ∀ edge, g.view.edges e = some edge → View.clear x edge = true

variable {g}

theorem present_empty (x : Id) : g.present {} x = g.view.live x := by
  rw [live_eq]
  simp [present]

/-! ## The shadow -/

variable (g) in
structure Follows (earlier : List (EditSpec Id N E Value)) (shadow : Shadow Id) : Prop where
  nodes : ∀ x, g.present shadow x =
    (g.view.applyAll (lower g.writer g.nextEdge earlier)).live x
  dropped : ∀ e, e ∈ shadow.dropped ↔ .disconnect e ∈ earlier

theorem follows_nil : g.Follows [] {} :=
  ⟨present_empty, by simp⟩

def liveAfter (live : Bool) (y : Id) : EditSpec Id N E Value → Bool
  | .insertNode node => decide (y = Identified.id node) || live
  | .removeNode x => decide (y ≠ x) && live
  | _ => live

theorem live_apply_lower (v : View Id N E Value) (writer : WriterId) (next : Nat)
    (spec : EditSpec Id N E Value) (y : Id) :
    (v.apply (spec.lower writer next)).live y = liveAfter (v.live y) y spec := by
  cases spec with
  | insertNode node =>
    change (if y = Identified.id node then some node else v.nodes y).isSome = _
    by_cases hy : y = Identified.id node
    · simp [hy, liveAfter]
    · simp [hy, liveAfter, View.live]
  | removeNode x =>
    change (if y = x then none else v.nodes y).isSome = _
    by_cases hy : y = x
    · simp [hy, liveAfter]
    · simp [hy, liveAfter, View.live]
  | connect source target edge | setFacet x facet value | removeFacet x facet =>
    simp [EditSpec.lower, liveAfter, View.live, View.apply_connect, View.apply_setFacet,
      View.apply_removeFacet]
  | disconnect id | derive x record => rfl

variable {shadow : Shadow Id} {earlier : List (EditSpec Id N E Value)}
  {spec : EditSpec Id N E Value}

theorem checkNode_ok {shadow' : Shadow Id} {x : Id} (h : g.checkNode shadow x = .ok shadow') :
    g.present shadow x = true ∧ shadow' = shadow := by
  unfold checkNode at h
  split at h
  · rename_i hx
    exact ⟨hx, (Except.ok.inj h).symm⟩
  · cases h

theorem Follows.check {shadow' : Shadow Id} (h : g.Follows earlier shadow)
    (hc : g.check shadow spec = .ok shadow') : g.Follows (earlier ++ [spec]) shadow' := by
  have hlive : ∀ y, (g.view.applyAll (lower g.writer g.nextEdge (earlier ++ [spec]))).live y =
      liveAfter ((g.view.applyAll (lower g.writer g.nextEdge earlier)).live y) y spec := by
    intro y
    rw [lower_append, View.applyAll_append]
    exact live_apply_lower _ _ _ spec y
  -- Specs that only ask for a node change neither side.
  have hsame : shadow' = shadow → (∀ y, (g.view.applyAll (lower g.writer g.nextEdge
      (earlier ++ [spec]))).live y = (g.view.applyAll (lower g.writer g.nextEdge earlier)).live y) →
      (∀ e, spec ≠ .disconnect e) → g.Follows (earlier ++ [spec]) shadow' := by
    rintro rfl hy hd
    refine ⟨fun y => (h.nodes y).trans (hy y).symm, fun e => (h.dropped e).trans ?_⟩
    rw [mem_append, mem_singleton]
    exact ⟨.inl, fun hm => hm.resolve_right (fun he => hd e he.symm)⟩
  cases spec with
  | insertNode node =>
    obtain rfl := Except.ok.inj hc
    refine ⟨fun y => ?_, fun e => ?_⟩
    · rw [hlive, ← h.nodes]
      by_cases hy : y = Identified.id node
      · simp [present, liveAfter, hy]
      · simp [present, liveAfter, hy]
    · simp [h.dropped]
  | removeNode x =>
    rw [GraphLog.check] at hc
    split at hc
    · obtain rfl := Except.ok.inj hc
      refine ⟨fun y => ?_, fun e => ?_⟩
      · rw [hlive, ← h.nodes]
        by_cases hy : y = x
        · simp [present, liveAfter, hy]
        · simp [present, liveAfter, hy]
      · simp [h.dropped]
    · cases hc
  | connect source target edge =>
    rw [GraphLog.check] at hc
    split at hc
    · exact hsame (checkNode_ok hc).2 hlive nofun
    · cases hc
  | disconnect id =>
    rw [GraphLog.check] at hc
    split at hc
    · cases hc
    · obtain rfl := Except.ok.inj hc
      refine ⟨fun y => (h.nodes y).trans (hlive y).symm, fun e => ?_⟩
      simp [h.dropped, or_comm]
  | derive x record | setFacet x facet value | removeFacet x facet =>
    exact hsame (checkNode_ok hc).2 hlive nofun

omit [Identified N Id] in
theorem all_spares_lower (writer : WriterId) (next : Nat) (specs : List (EditSpec Id N E Value))
    (e : EdgeId) (edge : Id × Id × E) : (lower writer next specs).all (View.spares e edge) = true ↔
      .disconnect e ∉ specs ∧ ∀ x, .removeNode x ∈ specs → View.clear x edge = true := by
  induction specs generalizing next with
  | nil => simp [lower]
  | cons spec specs ih =>
    rw [lower, all_cons, Bool.and_eq_true, ih]
    cases spec with
    | removeNode x =>
      simp only [EditSpec.lower, View.spares, mem_cons, reduceCtorEq, false_or,
        EditSpec.removeNode.injEq, forall_eq_or_imp]
      exact and_left_comm
    | disconnect id =>
      simp only [EditSpec.lower, View.spares, mem_cons, reduceCtorEq, false_or, not_or,
        EditSpec.disconnect.injEq, decide_eq_true_eq]
      exact and_assoc.symm
    | _ => simp [EditSpec.lower, View.spares]

/-- The shadow passes a spec exactly where the graph allows it, but for an edge whose end was
removed. -/
theorem Follows.check_iff (hindexed : g.Indexed) (h : g.Follows earlier shadow)
    (hown : ∀ e, spec = .disconnect e → e ∉ connectIds (lower g.writer g.nextEdge earlier)) :
    ((∃ shadow', g.check shadow spec = .ok shadow') ∧
        ∀ e, spec = .disconnect e → ∀ x, .removeNode x ∈ earlier →
          ∀ edge, g.view.edges e = some edge → View.clear x edge = true) ↔
      (g.view.applyAll (lower g.writer g.nextEdge earlier)).Allows spec := by
  have hnode : ∀ x, (∃ shadow', g.checkNode shadow x = .ok shadow') ↔
      (g.view.applyAll (lower g.writer g.nextEdge earlier)).live x = true := by
    intro x
    rw [← h.nodes, checkNode]
    split_ifs with hx
    · exact iff_of_true ⟨_, rfl⟩ hx
    · exact iff_of_false (by simp) hx
  cases spec with
  | insertNode node => exact iff_of_true ⟨⟨_, rfl⟩, by simp⟩ trivial
  | removeNode x =>
    rw [GraphLog.check, View.Allows, ← h.nodes, and_iff_left (by simp)]
    split_ifs with hx
    · exact iff_of_true ⟨_, rfl⟩ hx
    · exact iff_of_false (by simp) hx
  | connect source target edge =>
    rw [GraphLog.check, View.Allows, ← h.nodes, ← hnode target]
    split_ifs with hs
    · rw [hs]
      simp
    · exact iff_of_false (by simp) (fun hc => hs hc.1)
  | disconnect id =>
    have hdropped := h.dropped id
    rw [GraphLog.check, View.Allows, View.edges_applyAll (hown id rfl), isSome_iff_exists]
    simp only [filter_eq_some_iff, all_spares_lower]
    have hkey := hindexed.isSome_edges id
    cases hedge : g.view.edges id with
    | none =>
      rw [hedge] at hkey
      have hnone : (g.edgeKey id).isNone = true := by simpa using hkey.symm
      rw [if_pos (.inr hnone)]
      exact iff_of_false (by simp) (by simp)
    | some edge =>
      rw [hedge] at hkey
      have hsome : ¬ (g.edgeKey id).isNone = true := by simp [← not_isSome, ← hkey]
      by_cases hd : id ∈ shadow.dropped
      · rw [if_pos (.inl hd)]
        refine iff_of_false (by simp) ?_
        rintro ⟨_, _, hnot, _⟩
        exact hnot (hdropped.mp hd)
      · rw [if_neg (not_or.mpr ⟨hd, hsome⟩)]
        constructor
        · rintro ⟨_, hclear⟩
          exact ⟨edge, rfl, fun hm => hd (hdropped.mpr hm), fun x hx => hclear id rfl x hx edge hedge⟩
        · rintro ⟨edge', ⟨⟩, _, hclear⟩
          refine ⟨⟨_, rfl⟩, ?_⟩
          rintro e ⟨⟩ x hx edge' hedge'
          obtain rfl := some.inj (hedge.symm.trans hedge')
          exact hclear x hx
  | derive x record | setFacet x facet value | removeFacet x facet =>
    exact (and_iff_left (by simp)).trans (hnode x)

/-! ## One spec -/

theorem check_empty (h : g.Indexed) (spec : EditSpec Id N E Value) :
    (∃ shadow, g.check {} spec = .ok shadow) ↔ g.view.Allows spec := by
  have hiff := follows_nil.check_iff h (fun e (_ : spec = .disconnect e) => not_mem_nil)
  simpa [lower, View.applyAll] using hiff

theorem precheck_single (spec : EditSpec Id N E Value) : g.precheck [spec] = g.check {} spec := by
  unfold precheck
  rw [foldlM_cons]
  cases g.check {} spec <;> rfl

theorem commitOne_spec (h : g.Indexed) (author : Author) (spec : EditSpec Id N E Value) :
    ((g.commitOne author spec).1.isSome = true ↔ g.view.Allows spec) ∧
      (g.view.Allows spec →
        (g.commitOne author spec).2 = g.extended author [spec.lower g.writer g.nextEdge]) := by
  rw [← check_empty h, ← precheck_single]
  unfold commitOne
  cases hc : g.precheck [spec] with
  | error refusal =>
    rw [commitBatch_error author hc]
    exact ⟨iff_of_false nofun nofun, nofun⟩
  | ok shadow =>
    rw [commitBatch_ok author hc]
    exact ⟨iff_of_true rfl ⟨shadow, rfl⟩, fun _ => rfl⟩

/-! ## All specs -/

theorem materialized_applyEdits (edits : List (GraphEdit Id N E Value)) :
    (edits.foldl applyEdit g).materialized = edits.foldl applyEdit g.materialized := by
  have hrun := applyEdits_stamped (g := g) g.nextEdge {} edits
  rw [← applyEdits_nextEdge] at hrun
  exact hrun.symm

theorem extended_counter (author : Author) (specs : List (EditSpec Id N E Value)) :
    (g.extended author (lower g.writer g.nextEdge specs)).writer = g.writer ∧
      (g.extended author (lower g.writer g.nextEdge specs)).nextEdge =
        g.nextEdge + (connectIds (lower g.writer g.nextEdge specs)).length := by
  rw [← max_frontier_lower]
  exact ⟨applyEdits_writer _, applyEdits_nextEdge _⟩

theorem commitOne_cases (author : Author) (spec : EditSpec Id N E Value)
    (h : (g.commitOne author spec).1.isSome = true) :
    (g.commitOne author spec).2 = g.extended author (lower g.writer g.nextEdge [spec]) := by
  unfold commitOne at h ⊢
  rcases commitBatch_cases (g := g) author g.revision [spec] with ⟨_, heq⟩ | ⟨_, heq⟩
  · rw [heq] at h
    cases h
  · rw [heq]

theorem commitEach_materialized {author : Author} {specs : List (EditSpec Id N E Value)}
    {g' : GraphLog Id N E Value} (h : g.commitEach author specs = some g') :
    g'.materialized = (lower g.writer g.nextEdge specs).foldl applyEdit g.materialized := by
  induction specs generalizing g with
  | nil =>
    obtain rfl := some.inj h
    rfl
  | cons spec specs ih =>
    rw [commitEach] at h
    split at h
    · rename_i hone
      rw [commitOne_cases author spec hone] at h
      obtain ⟨hw, hn⟩ := extended_counter (g := g) author [spec]
      have hnext := ih h
      rw [hw, hn] at hnext
      rw [← singleton_append, lower_append, foldl_append, ← materialized_applyEdits]
      exact hnext
    · cases h

variable (g) in
def UntornAfter (earlier specs : List (EditSpec Id N E Value)) : Prop :=
  ∀ mid e later, specs = mid ++ .disconnect e :: later →
    ∀ x, .removeNode x ∈ earlier ++ mid → ∀ edge, g.view.edges e = some edge →
      View.clear x edge = true

theorem untornAfter_cons (earlier specs : List (EditSpec Id N E Value))
    (spec : EditSpec Id N E Value) :
    g.UntornAfter earlier (spec :: specs) ↔
      (∀ e, spec = .disconnect e → ∀ x, .removeNode x ∈ earlier →
        ∀ edge, g.view.edges e = some edge → View.clear x edge = true) ∧
      g.UntornAfter (earlier ++ [spec]) specs := by
  constructor
  · intro h
    refine ⟨fun e he x hx => ?_, fun mid e later hspecs x hx => ?_⟩
    · exact h [] e specs (by rw [he]; rfl) x (by rwa [append_nil])
    · exact h (spec :: mid) e later (by rw [hspecs]; rfl) x (by simpa using hx)
  · rintro ⟨hhead, htail⟩ mid e later hspecs x hx
    cases mid with
    | nil =>
      obtain ⟨he, _⟩ := List.cons.inj hspecs
      exact hhead e he x (by rwa [append_nil] at hx)
    | cons first mid =>
      obtain ⟨rfl, hrest⟩ := List.cons.inj hspecs
      exact htail mid e later hrest x (by simpa using hx)

theorem Follows.commitEach_isSome
    {cur : GraphLog Id N E Value} (hsound : g.Sound) (hcur : cur.Sound)
    (h : g.Follows earlier shadow) (author : Author) (specs : List (EditSpec Id N E Value))
    (hsame : cur.materialized = ((lower g.writer g.nextEdge earlier).foldl applyEdit g).materialized)
    (hown : ∀ e, .disconnect e ∈ specs →
      e ∉ connectIds (lower g.writer g.nextEdge (earlier ++ specs))) :
    ((∃ shadow', specs.foldlM g.check shadow = .ok shadow') ∧ g.UntornAfter earlier specs) ↔
      (cur.commitEach author specs).isSome = true := by
  induction specs generalizing earlier shadow cur with
  | nil =>
    refine iff_of_true ⟨⟨shadow, rfl⟩, ?_⟩ rfl
    intro mid e later hnil
    simp at hnil
  | cons spec specs ih =>
    have hview : cur.view = g.view.applyAll (lower g.writer g.nextEdge earlier) :=
      (congrArg view hsame).trans (hsound.indexed.applyEdits (hsound.fresh_view earlier)).2
    have hhead : ∀ e, spec = .disconnect e →
        e ∉ connectIds (lower g.writer g.nextEdge earlier) := by
      rintro e rfl hmem
      refine hown e mem_cons_self ?_
      rw [lower_append, connectIds_append]
      exact mem_append_left _ hmem
    have hstep := h.check_iff hsound.indexed hhead
    obtain ⟨hone, hres⟩ := commitOne_spec hcur.indexed author spec
    rw [← hview] at hstep
    rw [untornAfter_cons, commitEach]
    by_cases hallows : cur.view.Allows spec
    · obtain ⟨⟨shadow', hcheck⟩, htorn⟩ := hstep.mpr hallows
      have hwriter : cur.writer = g.writer :=
        (congrArg GraphLog.writer hsame).trans (applyEdits_writer _)
      have hnext : cur.nextEdge = g.nextEdge + (connectIds (lower g.writer g.nextEdge earlier)).length := by
        rw [← max_frontier_lower, ← applyEdits_nextEdge]
        exact (congrArg GraphLog.nextEdge hsame :)
      have hnow : (cur.commitOne author spec).2.materialized =
          ((lower g.writer g.nextEdge (earlier ++ [spec])).foldl applyEdit g).materialized := by
        rw [hres hallows, lower_append, foldl_append, materialized_applyEdits, ← hsame, ← hnext,
          ← hwriter]
        exact materialized_applyEdits _
      have hsound' : (cur.commitOne author spec).2.Sound := hcur.commitBatch author _ _
      have hlater := ih hsound' (h.check hcheck) hnow (by
        intro e he
        rw [append_assoc]
        exact hown e (mem_cons_of_mem _ he))
      rw [if_pos (hone.mpr hallows), ← hlater, foldlM_cons, hcheck]
      exact and_congr_right (fun _ => and_iff_right htorn)
    · rw [if_neg (fun hc => hallows (hone.mp hc))]
      refine iff_of_false ?_ nofun
      rintro ⟨⟨shadow', hrun⟩, htorn, _⟩
      rw [foldlM_cons] at hrun
      cases hcheck : g.check shadow spec with
      | error refusal =>
        rw [hcheck] at hrun
        cases hrun
      | ok next => exact hallows (hstep.mp ⟨⟨next, hcheck⟩, htorn⟩)

/-- A batch at the current revision against its specs one at a time, where no disconnect names
an id that the batch mints. A refused batch changes nothing, and one spec at least is refused.
An accepted one is matched spec by spec, with the same graph, indexes, derivations, facets and
counter, exactly where no edge is disconnected after an end of it was removed. -/
theorem commitBatch_simulates (hsound : g.Sound) (author : Author)
    (specs : List (EditSpec Id N E Value))
    (hown : ∀ e, .disconnect e ∈ specs → e ∉ connectIds (lower g.writer g.nextEdge specs)) :
    (∀ refusal, (g.commitBatch author g.revision specs).1 = .error refusal →
      (g.commitBatch author g.revision specs).2 = g ∧ g.commitEach author specs = none) ∧
    (∀ receipt, (g.commitBatch author g.revision specs).1 = .ok receipt →
      ((∃ g', g.commitEach author specs = some g' ∧
          g'.materialized = (g.commitBatch author g.revision specs).2.materialized) ↔
        g.Untorn specs)) := by
  have hiff := follows_nil.commitEach_isSome hsound hsound author specs rfl hown
  cases hpre : g.precheck specs with
  | error refusal =>
    rw [commitBatch_error author hpre]
    refine ⟨fun _ _ => ⟨rfl, ?_⟩, nofun⟩
    rw [← not_isSome_iff_eq_none, ← hiff]
    rintro ⟨⟨shadow, hrun⟩, _⟩
    rw [precheck, hrun] at hpre
    cases hpre
  | ok shadow =>
    rw [commitBatch_ok author hpre]
    refine ⟨nofun, fun _ _ => ?_⟩
    have hclean : g.UntornAfter [] specs ↔ (g.commitEach author specs).isSome = true :=
      (and_iff_right ⟨shadow, hpre⟩).symm.trans hiff
    constructor
    · rintro ⟨g', hg', _⟩
      exact hclean.mpr (by rw [hg']; rfl)
    · intro huntorn
      obtain ⟨g', hg'⟩ := isSome_iff_exists.mp (hclean.mp huntorn)
      refine ⟨g', hg', ?_⟩
      rw [commitEach_materialized hg', ← materialized_applyEdits]
      rfl

def pair : GraphLog Nat (Container Nat) Nat Nat :=
  (commitBatch {} ⟨[]⟩ 0 [.insertNode ⟨1, []⟩, .insertNode ⟨2, []⟩, .connect 1 2 7]).2

theorem sound_pair : pair.Sound := sound_empty.commitBatch _ _ _

def severed : List (EditSpec Nat (Container Nat) Nat Nat) :=
  [.disconnect ⟨localWriter, 0⟩, .removeNode 1]

theorem untorn_severed : pair.Untorn severed := by
  intro earlier e later hspecs x hx
  cases earlier with
  | nil => cases hx
  | cons first earlier =>
    -- The one disconnect is the first spec.
    obtain ⟨_, hrest⟩ := List.cons.inj hspecs
    cases earlier with
    | nil => cases hrest
    | cons second earlier => cases earlier <;> cases hrest

theorem commitBatch_simulates_pair :
    ∃ g', pair.commitEach ⟨[]⟩ severed = some g' ∧
      g'.materialized = (pair.commitBatch ⟨[]⟩ pair.revision severed).2.materialized :=
  ((commitBatch_simulates sound_pair ⟨[]⟩ severed (fun _ _ => not_mem_nil)).2 ⟨1, []⟩
    (by decide)).mpr untorn_severed

def torn : List (EditSpec Nat (Container Nat) Nat Nat) :=
  [.removeNode 1, .disconnect ⟨localWriter, 0⟩]

/-- The batch removes a node and then disconnects an edge that went with it: it is accepted,
though its second spec alone is refused by then. -/
theorem commitBatch_torn :
    pair.Sound ∧ (∀ e, .disconnect e ∈ torn → e ∉ connectIds (lower pair.writer pair.nextEdge torn)) ∧
    (pair.commitBatch ⟨[]⟩ pair.revision torn).1 = .ok ⟨1, []⟩ ∧
    (pair.commitEach ⟨[]⟩ torn).isNone = true :=
  ⟨sound_pair, fun _ _ => not_mem_nil, by decide, by decide⟩

end GraphLog

end Mere.Chartulary
