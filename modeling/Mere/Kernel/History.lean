import Mere.Kernel.Writes
import Mere.Stemma.Upward

/-!
# The history can always be read

The navigation of a graph is a snapshot that every call reads in, changes and writes back.
-/

namespace Mere.Kernel

open Stemma List Option Finset

/-! ## Paths end -/

section
variable {K E O X : Type}

def liveFrom (s : Stemma K E O X) (v : VisitId) : Finset VisitId :=
  (s.visits.toList.map Prod.fst).toFinset.filter (v ≤ ·)

theorem liveFrom_card_le (s : Stemma K E O X) (v : VisitId) :
    (liveFrom s v).card ≤ s.visits.size := by
  calc (liveFrom s v).card ≤ (s.visits.toList.map Prod.fst).toFinset.card :=
        card_filter_le _ _
    _ ≤ (s.visits.toList.map Prod.fst).length := toFinset_card_le _
    _ = s.visits.size := length_map _

variable {s : Stemma K E O X}

theorem liveFrom_card_lt {v next : VisitId} (hv : s.visits.contains v)
    (hlt : v < next) : (liveFrom s next).card < (liveFrom s v).card := by
  have hmem : v ∈ s.visits.toList.map Prod.fst := by
    obtain ⟨visit, hvisit⟩ := s.visits.contains_iff.mp hv
    exact mem_map.mpr ⟨(v, visit), (s.visits.mem_toList v visit).mpr hvisit, rfl⟩
  apply card_lt_card
  refine (ssubset_iff_of_subset ?_).mpr ⟨v, ?_, ?_⟩
  · exact monotone_filter_right _ fun k _ hk => hlt.le.trans hk
  · exact mem_filter.mpr ⟨mem_toFinset.mpr hmem, le_refl v⟩
  · exact fun h => absurd (Finset.mem_filter.mp h).2 (not_le.mpr hlt)

/-- Each visit on the way is live and below the next, so the loop is done before it has met
    more visits than there are. -/
theorem forwardPath_isSome (h : Upward s) (ownerId : OwnerId) :
    ∀ (fuel : Nat) (cursor : VisitId), (liveFrom s cursor).card < fuel →
      (forwardPath s ownerId fuel cursor).isSome
  | 0, _, hfuel => absurd hfuel (Nat.not_lt_zero _)
  | fuel + 1, cursor, hfuel => by
    unfold forwardPath
    split
    · rfl
    · rename_i next hnext
      obtain ⟨binding, hbinding, hforward⟩ := bind_eq_some_iff.mp hnext
      have hlive : s.visits.contains cursor := by
        obtain ⟨visit, hvisit, -⟩ := bind_eq_some_iff.mp hbinding
        exact s.visits.contains_of_get hvisit
      have hless := liveFrom_card_lt hlive (h.forward cursor ownerId binding next hbinding hforward)
      rw [isSome_map]
      exact forwardPath_isSome h ownerId fuel next (by omega)

theorem linearHistoryVisitsOfOwner_isSome (h : Upward s)
    (ownerId : OwnerId) : (linearHistoryVisitsOfOwner s ownerId).isSome := by
  unfold linearHistoryVisitsOfOwner
  split
  · rfl
  · split
    · rfl
    · rename_i origin _
      rw [isSome_map]
      have := liveFrom_card_le s origin
      exact forwardPath_isSome h ownerId _ origin (by omega)

end

/-! ## The shared memory -/

namespace SharedNavigationMemory

def Sound (nav : SharedNavigationMemory) : Prop :=
  ∃ memory : Memory, Intact memory ∧ Upward memory ∧ nav.snapshot = snapshotOf inOrder memory

theorem sound_empty : Sound empty := ⟨Stemma.new, by decide +kernel, Upward.new, rfl⟩

variable {nav nav' : SharedNavigationMemory}

theorem Sound.hydrate (h : Sound nav) : ∃ memory, nav.hydrate = some memory ∧ Upward memory := by
  obtain ⟨memory, hintact, hup, hsnapshot⟩ := h
  unfold SharedNavigationMemory.hydrate
  rw [hsnapshot]
  exact hup.fromSnapshot hintact

variable {memory : Memory}

theorem Sound.of_store (hup : Upward memory) (h : store memory = some nav') :
    Sound nav' := by
  obtain ⟨snapshot, hsnapshot, rfl⟩ := map_eq_some_iff.mp h
  have hintact : Intact memory := intact_of_toSnapshot (by rw [hsnapshot]; rfl)
  rw [toSnapshot_eq hintact] at hsnapshot
  exact ⟨memory, hintact, hup, (some.inj hsnapshot).symm⟩

theorem upward_visitPage (h : Upward memory) (owner : OwnerId) (url : Str)
    (transition : TransitionKind) (atMs : Nat) :
    Upward (visitPage memory owner url transition atMs) :=
  (h.resolveOrCreateEntry url url atMs .localOnly).moves (visitEntry_moves _ _ _ _ _ _)

theorem upward_seedVisits (owner : OwnerId) (pages : List (Str × Nat))
    (h : Upward memory) : Upward (seedVisits owner memory pages) := by
  induction pages generalizing memory with
  | nil => exact h
  | cons page rest ih => exact ih (upward_visitPage h owner page.1 _ page.2)

theorem Sound.step
    {move : Memory → OwnerId → Outcome Str Str NodeHistoryOwner Unit (Option VisitId)}
    (hmove : ∀ memory owner, Moves memory (move memory owner).2) (h : Sound nav) {node : Uuid}
    {page : Option Str} (hstep : nav.step move node = some (page, nav')) : Sound nav' := by
  obtain ⟨memory, hmemory, hup⟩ := h.hydrate
  simp only [SharedNavigationMemory.step, hmemory, bind, pure, bind_some] at hstep
  split at hstep
  · cases hstep
    exact h
  · rename_i owner _
    have hup' := hup.moves (hmove memory owner)
    split at hstep
    · rename_i hmoved
      rw [hmoved] at hup'
      obtain ⟨_, hstored, hpair⟩ := bind_eq_some_iff.mp hstep
      cases hpair
      exact .of_store hup' hstored
    · cases hstep
      exact h

theorem Sound.move (h : Sound nav) (hmove : Graph.NavMove nav nav') : Sound nav' := by
  obtain ⟨memory, hmemory, hup⟩ := h.hydrate
  cases hmove with
  | spawn child parent hnav =>
    simp only [SharedNavigationMemory.spawn, hmemory, bind, bind_some] at hnav
    exact .of_store (hup.ensureOwner _ _) hnav
  | visit id url transition atMs hnav =>
    simp only [recordVisit, hmemory, bind, bind_some] at hnav
    exact .of_store (upward_visitPage (hup.ensureOwner _ _) _ _ _ _) hnav
  | back id atMs page hnav => exact h.step (fun memory owner => back_moves memory owner 1 atMs) hnav
  | forward id atMs page hnav =>
    exact h.step (fun memory owner => forward_moves memory owner 1 atMs) hnav
  | remove id hnav =>
    simp only [SharedNavigationMemory.remove, hmemory, bind, pure, bind_some] at hnav
    split at hnav
    · cases hnav
      exact h
    · obtain ⟨outcome, hdeleted, hstored⟩ := bind_eq_some_iff.mp hnav
      exact .of_store (hup.shrunk (.deleteOwner hdeleted)) hstored
  | seed id entries index hnav =>
    unfold seedLinear at hnav
    split at hnav
    · cases hnav
      exact h
    · simp only [hmemory, bind, bind_some] at hnav
      have hseeded := upward_seedVisits (memory.ensureOwner (.node id) none).1 entries.zipIdx
        (hup.ensureOwner (.node id) none)
      refine .of_store ?_ hnav
      split
      · exact hseeded.moves (back_moves _ _ _ _)
      · exact hseeded

theorem projectionOfOwner_isSome (h : Upward memory) (owner : OwnerId) :
    (projectionOfOwner memory owner).isSome := by
  obtain ⟨visits, hvisits⟩ := isSome_iff_exists.mp
    (linearHistoryVisitsOfOwner_isSome h owner)
  unfold projectionOfOwner linearHistoryEntriesOfOwner currentIndexOfOwner
  cases hcurrent : memory.current owner <;> simp [hvisits]

theorem Sound.projection_isSome (h : Sound nav) (node : Uuid) : (nav.projection node).isSome := by
  obtain ⟨memory, hmemory, hup⟩ := h.hydrate
  unfold projection
  simp only [hmemory, bind, pure, bind_some]
  split
  · rfl
  · exact projectionOfOwner_isSome hup _

theorem Sound.currentUrl_isSome (h : Sound nav) (node : Uuid) : (nav.currentUrl node).isSome := by
  unfold currentUrl
  rw [isSome_map]
  exact h.projection_isSome node

end SharedNavigationMemory

end Mere.Kernel
