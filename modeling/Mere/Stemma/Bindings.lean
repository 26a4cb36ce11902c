import Mere.Stemma.Moves

/-!
# Bindings

Most writes touch bindings and nothing else of a visit (`Rebound`). `bindingOf` after each of
them, and what `rebind_owner_to_path` leaves.
-/

open Std (ExtTreeSet)

namespace Mere.Stemma

open List Option Std.ExtTreeMap

variable {K E O X : Type} (s : Stemma K E O X) (ownerId : OwnerId)

/-! ## Nothing else -/

def VisitRecord.bare (visit : VisitRecord X) : VisitRecord X := { visit with bindings := ∅ }

/-- The two tables differ in bindings alone. -/
structure Rebound (m m' : SlotMap (VisitRecord X)) : Prop where
  next : m'.next = m.next
  bare : ∀ v, (m'.get v).map VisitRecord.bare = (m.get v).map VisitRecord.bare

namespace Rebound

variable {m m' m'' : SlotMap (VisitRecord X)}

theorem refl (m : SlotMap (VisitRecord X)) : Rebound m m := ⟨rfl, fun _ => rfl⟩

theorem trans (h : Rebound m m') (h' : Rebound m' m'') : Rebound m m'' :=
  ⟨h'.next.trans h.next, fun v => (h'.bare v).trans (h.bare v)⟩

variable {f : VisitRecord X → VisitRecord X}

theorem modify (m : SlotMap (VisitRecord X)) (v : VisitId)
    (hf : ∀ visit, (f visit).bare = visit.bare) : Rebound m (m.modify v f) := by
  refine ⟨rfl, fun v' => ?_⟩
  rw [SlotMap.get_modify]
  split
  · subst v'
    rw [Option.map_map]
    exact congrArg (fun g => (m.get v).map g) (funext hf)
  · rfl

theorem mapVals (m : SlotMap (VisitRecord X))
    (hf : ∀ visit, (f visit).bare = visit.bare) : Rebound m (m.mapVals f) := by
  refine ⟨rfl, fun v => ?_⟩
  rw [SlotMap.get_mapVals, Option.map_map]
  exact congrArg (fun g => (m.get v).map g) (funext hf)

theorem map {A : Type} (h : Rebound m m') (v : VisitId) (f : VisitRecord X → A)
    (hf : ∀ visit, f visit.bare = f visit) : (m'.get v).map f = (m.get v).map f := by
  have hcomp : f ∘ VisitRecord.bare = f := funext hf
  calc (m'.get v).map f = ((m'.get v).map VisitRecord.bare).map f := by rw [Option.map_map, hcomp]
    _ = ((m.get v).map VisitRecord.bare).map f := by rw [h.bare]
    _ = (m.get v).map f := by rw [Option.map_map, hcomp]

theorem contains (h : Rebound m m') (v : VisitId) : m'.contains v = m.contains v := by
  have := congrArg Option.isSome (h.bare v)
  simp only [isSome_map] at this
  exact this

end Rebound

theorem release_rebound (owned : List VisitId) :
    Rebound s.visits (s.release ownerId owned).visits := by
  unfold release
  generalize s.visits = m
  induction owned generalizing m with
  | nil => exact .refl m
  | cons v owned ih =>
    refine Rebound.trans ?_ (ih _)
    exact Rebound.modify m v (fun _ => rfl)

/-! ## Who is bound -/

theorem bindingOf_write (v : VisitId) (ownerId : OwnerId) (atMs : Nat)
    (write : OwnerBinding → OwnerBinding) (v' : VisitId) (o : OwnerId) :
    ({ s with visits := s.visits.modify v (fun visit => visit.bind ownerId atMs write) } :
        Stemma K E O X).bindingOf v' o =
      if v' = v ∧ o = ownerId ∧ s.visits.contains v then
        some (write { (s.bindingOf v ownerId).getD ⟨none, atMs⟩ with lastAccessedAtMs := atMs })
      else s.bindingOf v' o := by
  by_cases hv : v' = v
  · subst hv
    cases hget : s.visits.get v' with
    | none => simp [bindingOf, SlotMap.contains, hget]
    | some visit =>
      by_cases ho : o = ownerId
      · subst ho
        simp [bindingOf, SlotMap.contains, hget, VisitRecord.bind,
          getD_eq_getD_getElem?]
      · simp [bindingOf, hget, VisitRecord.bind, OrdMap.getElem?_insert, ho, Ne.symm ho]
  · simp [bindingOf, hv]

theorem release_bindingOf (owned : List VisitId) (v : VisitId)
    (o : OwnerId) : (s.release ownerId owned).bindingOf v o =
      if o = ownerId ∧ v ∈ owned then none else s.bindingOf v o := by
  unfold release bindingOf
  generalize s.visits = m
  induction owned generalizing m with
  | nil => simp
  | cons u owned ih =>
    rw [foldl_cons, ih, SlotMap.get_modify]
    by_cases hv : v = u
    · subst hv
      cases m.get v with
      | none => simp
      | some visit =>
        by_cases ho : o = ownerId
        · subst ho; simp
        · simp [ho, Ne.symm ho, getElem?_erase]
    · simp [hv]

theorem bindPath_spec (atMs : Nat) (path : List VisitId) (s : Stemma K E O X)
    (hlive : ∀ v ∈ path, s.visits.contains v) :
    ∃ visits, s.bindPath ownerId atMs path = (.ok (), { s with visits }) ∧
      Rebound s.visits visits ∧
      (∀ v o, (o ≠ ownerId ∨ v ∉ path) →
        ({ s with visits } : Stemma K E O X).bindingOf v o = s.bindingOf v o) ∧
      ∀ v ∈ path, ∃ b, ({ s with visits } : Stemma K E O X).bindingOf v ownerId = some b ∧
        ∀ f, b.forwardChild = some f → f ∈ path := by
  induction path generalizing s with
  | nil => exact ⟨s.visits, rfl, .refl _, fun _ _ _ => rfl, by simp⟩
  | cons u path ih =>
    generalize hm : s.visits.modify u (fun visit =>
      visit.bind ownerId atMs (forwardTo path.head?)) = m
    have hfirst : Rebound s.visits m := by rw [← hm]; exact .modify _ _ (fun _ => rfl)
    obtain ⟨visits, hrun, hrest, hother, hpath⟩ := ih { s with visits := m } (by
      intro v hv
      rw [hfirst.contains]
      exact hlive v (mem_cons_of_mem _ hv))
    have hu := hlive u mem_cons_self
    refine ⟨visits, ?_, hfirst.trans hrest, ?_, ?_⟩
    · simp only [bindPath, ensureBinding, hu, if_true, hm, hrun]
    · intro v o h
      have hstep : ({ s with visits := m } : Stemma K E O X).bindingOf v o = s.bindingOf v o := by
        simp only [bindingOf, ← hm, SlotMap.get_modify]
        by_cases hv : v = u
        · subst hv
          have ho : o ≠ ownerId := h.resolve_right (by simp)
          rw [if_pos rfl]
          cases s.visits.get v with
          | none => rfl
          | some visit => simp [VisitRecord.bind, OrdMap.getElem?_insert, Ne.symm ho]
        · rw [if_neg hv]
      rw [hother v o (h.imp_right fun h hmem => h (mem_cons_of_mem _ hmem)), hstep]
    · intro v hv
      by_cases hmem : v ∈ path
      · obtain ⟨b, hb, hf⟩ := hpath v hmem
        exact ⟨b, hb, fun f h => mem_cons_of_mem _ (hf f h)⟩
      · obtain rfl : v = u := (mem_cons.mp hv).resolve_right hmem
        rw [hother v ownerId (.inr hmem)]
        obtain ⟨visit, hvisit⟩ := s.visits.contains_iff.mp hu
        simp only [bindingOf, ← hm, SlotMap.get_modify, if_true, hvisit, map_some,
          bind_some, VisitRecord.bind, OrdMap.getElem?_insert]
        refine ⟨_, rfl, ?_⟩
        intro f hf
        exact mem_cons_of_mem _ (mem_of_mem_head? hf)

theorem rebindOwnerToPath_cases (path : List VisitId) (currentIndex atMs : Nat) :
    (∃ e, s.rebindOwnerToPath ownerId path currentIndex atMs = (.error e, s)) ∨
    ∃ owner visits, s.owners.get ownerId = some owner ∧ (∀ v ∈ path, s.visits.contains v) ∧
      s.rebindOwnerToPath ownerId path currentIndex atMs = (.ok (), { s with
        visits
        owners := s.owners.modify ownerId (fun owner => owner.onPath path currentIndex) }) ∧
      Rebound s.visits visits ∧
      (∀ v o, (o ≠ ownerId ∨ v ∉ path ∧ v ∉ owner.ownedVisits) →
        ({ s with visits } : Stemma K E O X).bindingOf v o = s.bindingOf v o) ∧
      (∀ v ∈ owner.ownedVisits, v ∉ path →
        ({ s with visits } : Stemma K E O X).bindingOf v ownerId = none) ∧
      ∀ v ∈ path, ∃ b, ({ s with visits } : Stemma K E O X).bindingOf v ownerId = some b ∧
        ∀ f, b.forwardChild = some f → f ∈ path := by
  unfold rebindOwnerToPath
  cases howner : s.owners.get ownerId with
  | none => exact .inl ⟨_, rfl⟩
  | some owner =>
    cases hfind : path.find? (fun v => !s.visits.contains v) with
    | some v => exact .inl ⟨_, rfl⟩
    | none =>
      have hlive : ∀ v ∈ path, s.visits.contains v := by simpa using find?_eq_none.mp hfind
      have hrelease := release_rebound s ownerId owner.ownedVisits.toList
      obtain ⟨visits, hrun, hbound, hother, hpath⟩ := bindPath_spec ownerId atMs path
        (s.release ownerId owner.ownedVisits.toList) (by
          intro v hv
          rw [hrelease.contains]
          exact hlive v hv)
      refine .inr ⟨owner, visits, rfl, hlive, ?_, hrelease.trans hbound, ?_, ?_, hpath⟩
      · simp only [hrun]
        rfl
      · intro v o h
        have hkeep : o ≠ ownerId ∨ v ∉ path := h.imp_right And.left
        refine (hother v o hkeep).trans ?_
        rw [release_bindingOf, if_neg]
        rintro ⟨rfl, hmem⟩
        exact (h.resolve_left (by simp)).2 (ExtTreeSet.mem_toList.mp hmem)
      · intro v hv hout
        refine (hother v ownerId (.inr hout)).trans ?_
        rw [release_bindingOf, if_pos ⟨rfl, ExtTreeSet.mem_toList.mpr hv⟩]

end Mere.Stemma
