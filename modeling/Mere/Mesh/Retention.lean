import Mere.Mesh.Committed

/-!
# Resuming from a checkpoint

`JobBoardSnapshot::from_board` keeps resolved jobs only. Here is what each of them puts back
into the gather maps, and what the tail then resolves to.
-/

namespace Mere.Mesh

open OrdMap List Option Std.ExtTreeMap

/-! ## What one retained job seeds -/

def Job.post (job : Job) : Posted := ⟨job.kind, job.payload, job.spec, job.postedBy⟩

def JobState.result : JobState → Option (Bytes32 × ResultRecord)
  | .done winner result => some (winner, .inline result)
  | .committed winner output => some (winner, .committed output)
  | _ => none

section Seed

variable (g : Gathered) (job : Job)

theorem posted_seed : (g.seed job).posted = g.posted.insert job.id job.post := by
  unfold Gathered.seed
  cases job.state <;> simp only [JobState.winner] <;> split <;> rfl

theorem retained_seed :
    (g.seed job).retained =
      if job.lease.isEmpty then g.retained else g.retained.insert job.id job.lease := by
  unfold Gathered.seed
  cases job.state <;> simp only [JobState.winner] <;> split <;> rfl

theorem leasesOf_seed (id : JobId) : (g.seed job).leasesOf id = g.leasesOf id := by
  unfold Gathered.seed
  cases job.state <;> simp only [JobState.winner] <;> split <;> rfl

theorem devices_seed : (g.seed job).devices = g.devices := by
  unfold Gathered.seed
  cases job.state <;> simp only [JobState.winner] <;> split <;> rfl

def seedClaim (id : JobId) (job : Job) : Option (Bytes32 × ClaimFact) :=
  if job.id = id then job.state.winner.map (fun w => (0, ⟨w, 0⟩)) else none

omit job in
theorem claimsOf_addResult (j id : JobId) (author : Bytes32) (r : ResultRecord) :
    (g.addResult j author r).claimsOf id = g.claimsOf id := rfl

theorem claimsOf_seed (id : JobId) :
    (g.seed job).claimsOf id =
      (seedClaim id job).elim (g.claimsOf id) (fun p => (g.claimsOf id).insert p.1 p.2) := by
  have hadd : ∀ (g' : Gathered) (w : Bytes32), g'.claims = g.claims →
      (g'.addClaim job.id 0 ⟨w, 0⟩).claimsOf id =
        if job.id = id then (g.claimsOf id).insert 0 ⟨w, 0⟩ else g.claimsOf id := by
    intro g' w hg'
    rw [claimsOf_addClaim, Gathered.claimsOf, hg']
    rfl
  unfold Gathered.seed seedClaim
  cases job.state with
  | posted => simp only [JobState.winner]; split <;> split <;> rfl
  | claimed w =>
    simp only [JobState.winner]
    rw [hadd _ w (by split <;> rfl)]
    split <;> rfl
  | done w r | committed w o =>
    simp only [JobState.winner]
    rw [claimsOf_addResult, hadd _ w (by split <;> rfl)]
    split <;> rfl

def seedResult (id : JobId) (job : Job) : Option (Bytes32 × ResultRecord) :=
  if job.id = id then job.state.result else none

theorem resultsOf_seed (id : JobId) :
    (g.seed job).resultsOf id =
      (seedResult id job).elim (g.resultsOf id) (fun p => (g.resultsOf id).insert p.1 p.2) := by
  have hadd : ∀ (g' : Gathered) (w : Bytes32) (r : ResultRecord), g'.results = g.results →
      (g'.addResult job.id w r).resultsOf id =
        if job.id = id then (g.resultsOf id).insert w r else g.resultsOf id := by
    intro g' w r hg'
    rw [resultsOf_addResult, Gathered.resultsOf, hg']
    rfl
  unfold Gathered.seed seedResult
  cases job.state with
  | posted | claimed w => simp only [JobState.winner]; split <;> split <;> rfl
  | done w r | committed w o =>
    simp only [JobState.winner]
    rw [hadd _ w _ (by split <;> rfl)]
    split <;> rfl

end Seed

/-! ## What a whole snapshot seeds -/

section Seeded

variable {board : JobBoard} (hf : board.Filed) (id : JobId)

def seeded (board : JobBoard) : Gathered :=
  (JobBoardSnapshot.fromBoard board).jobs.foldl Gathered.seed {}

include hf in
theorem seeded_posted : (seeded board).posted[id]? = board.jobs[id]?.map Job.post := by
  have h := foldl_view Gathered.seed Gathered.posted (fun job => some (job.id, job.post))
    posted_seed {} (vals board.jobs)
  change (seeded board).posted = _ at h
  rw [h]
  change ((∅ : OrdMap JobId Posted).insertMany _)[id]? = _
  rw [getElem?_insertMany_vals]
  · cases board.jobs[id]? <;> rfl
  · intro k job p hk hp
    cases hp
    exact hf k job hk

include hf in
theorem seeded_retained :
    (seeded board).retained[id]? =
      board.jobs[id]?.bind (fun job => if job.lease.isEmpty then none else some job.lease) := by
  have h := foldl_view Gathered.seed Gathered.retained
    (fun job => if job.lease.isEmpty then none else some (job.id, job.lease))
    (fun g job => by rw [retained_seed]; split <;> rfl) {} (vals board.jobs)
  change (seeded board).retained = _ at h
  rw [h]
  change ((∅ : OrdMap JobId LeaseRecord).insertMany _)[id]? = _
  rw [getElem?_insertMany_vals]
  · cases board.jobs[id]? with
    | none => rfl
    | some job => simp only [bind_some]; split <;> rfl
  · intro k job p hk hp
    split at hp
    · simp at hp
    · cases hp
      exact hf k job hk

/-- What no job of a snapshot changes is as it was before the first. -/
theorem seeded_untouched {B : Type} (π : Gathered → B) (h : ∀ g job, π (g.seed job) = π g) :
    π (seeded board) = π {} := by
  unfold seeded
  generalize (JobBoardSnapshot.fromBoard board).jobs = jobs
  generalize ({} : Gathered) = g
  induction jobs generalizing g with
  | nil => rfl
  | cons job jobs ih => exact (ih _).trans (h g job)

theorem seeded_leases : (seeded board).leasesOf id = {} :=
  seeded_untouched (fun g => g.leasesOf id) fun g job => leasesOf_seed g job id

def seedClaims (job : Job) : OrdMap Bytes32 ClaimFact :=
  (∅ : OrdMap _ _).insertMany (seedClaim job.id job).toList

def seedResults (job : Job) : OrdMap Bytes32 ResultRecord :=
  (∅ : OrdMap _ _).insertMany (seedResult job.id job).toList

include hf in
theorem seeded_view {W : Type} (π : Gathered → OrdMap Bytes32 W)
    (view : JobId → Job → Option (Bytes32 × W))
    (hstep : ∀ g job, π (g.seed job) = (view id job).elim (π g) (fun p => (π g).insert p.1 p.2))
    (hempty : π {} = ∅) (hother : ∀ job : Job, job.id ≠ id → view id job = none) :
    π (seeded board) =
      board.jobs[id]?.elim ∅ fun job => (∅ : OrdMap _ _).insertMany (view job.id job).toList := by
  have h : π (seeded board) = (π {}).insertMany ((vals board.jobs).filterMap (view id)) :=
    foldl_view Gathered.seed π (view id) hstep {} (vals board.jobs)
  rw [h, hempty, filterMap_vals_at board.jobs id]
  · cases hk : board.jobs[id]? with
    | none => rfl
    | some job =>
      obtain rfl := hf id job hk
      rfl
  · intro k job hk hne
    exact hother job (by rw [hf k job hk]; exact hne)

include hf in
theorem seeded_claims : (seeded board).claimsOf id = board.jobs[id]?.elim ∅ seedClaims :=
  seeded_view hf id (fun g => g.claimsOf id) seedClaim (fun g job => claimsOf_seed g job id)
    getD_empty fun _ h => if_neg h

include hf in
theorem seeded_results : (seeded board).resultsOf id = board.jobs[id]?.elim ∅ seedResults :=
  seeded_view hf id (fun g => g.resultsOf id) seedResult (fun g job => resultsOf_seed g job id)
    getD_empty fun _ h => if_neg h

end Seeded

/-! ## The board that a tail resumes -/

/-- What a retained job is resolved from, once the tail is gathered over it. -/
def resumed (mesh : Bytes32) (tail : List Operation) (job : Job) : JobFacts where
  post := job.post
  claims := (seedClaims job).insertMany (tail.filterMap (claimOn mesh job.id))
  results := (seedResults job).insertMany (tail.filterMap (resultOn mesh job.id))
  leases := leasesIn mesh tail job.id
  retained := if job.lease.isEmpty then none else some job.lease

variable (mesh : Bytes32)

theorem resume_jobs {board : JobBoard} (hf : board.Filed) (tail : List Operation) (id : JobId) :
    (JobBoard.foldFromSnapshot mesh (.fromBoard board) tail).jobs[id]? =
      match board.jobs[id]? with
      | some job =>
        some ({ resumed mesh tail job with post := (postsIn mesh tail)[id]?.getD job.post }.job id)
      | none => (postsIn mesh tail)[id]?.map (fun post => (factsIn mesh tail id post).job id) := by
  rw [jobs_getElem?]
  have hg : gather mesh (.fromBoard board) tail = tail.foldl (Gathered.addOp mesh) (seeded board) :=
    rfl
  have hposted : (gather mesh (.fromBoard board) tail).posted[id]? =
      (postsIn mesh tail)[id]?.or (board.jobs[id]?.map Job.post) := by
    rw [hg, posted_addOps, getElem?_insertMany, seeded_posted hf, postsIn, getElem?_insertMany]
    simp
  have hfacts : ∀ post, (gather mesh (.fromBoard board) tail).factsOf id post =
      board.jobs[id]?.elim (factsIn mesh tail id post)
        (fun job => { resumed mesh tail job with post := post }) := by
    intro post
    unfold Gathered.factsOf
    rw [hg, claimsOf_addOps, resultsOf_addOps, leasesOf_addOps _ _ _ _ (seeded_leases id),
      retained_addOps, seeded_claims hf, seeded_results hf, seeded_retained hf]
    cases hk : board.jobs[id]? with
    | none => rfl
    | some job =>
      obtain rfl := hf id job hk
      rfl
  rw [hposted]
  simp only [hfacts]
  cases board.jobs[id]? with
  | none => rw [map_none, or_none]; rfl
  | some job =>
    cases (postsIn mesh tail)[id]? <;> rfl

/-! ## Hashes -/

/-- What a digest promises: it names one operation, and no operation digests to zero. -/
structure HashesIdentify (ops : List Operation) : Prop where
  inj : ∀ a ∈ ops, ∀ b ∈ ops, a.hash = b.hash → a = b
  nonzero : ∀ op ∈ ops, op.hash ≠ 0

variable {mesh} {id : JobId} {tail : List Operation}

theorem post_unique {ops : List Operation} (h : HashesIdentify (ops ++ tail)) {p q : Posted}
    (hp : (postsIn mesh ops)[id]? = some p) (hq : (postsIn mesh tail)[id]? = some q) : p = q := by
  obtain ⟨a, ha, hpa⟩ := mem_filterMap.mp (mem_of_getElem?_insertMany hp)
  obtain ⟨b, hb, hqb⟩ := mem_filterMap.mp (mem_of_getElem?_insertMany hq)
  have hab : a = b := by
    apply h.inj a (mem_append_left _ ha) b (mem_append_right _ hb)
    rw [← postOf_key mesh a hpa, ← postOf_key mesh b hqb]
  rw [hab, hqb] at hpa
  simpa using hpa.symm

theorem resume_retained {ops : List Operation} (h : HashesIdentify (ops ++ tail)) {job : Job}
    (hjob : (JobBoard.fold mesh ops).jobs[id]? = some job) :
    (JobBoard.foldFromSnapshot mesh (.fromBoard (JobBoard.fold mesh ops)) tail).jobs[id]? =
      some ((resumed mesh tail job).job id) := by
  rw [resume_jobs mesh (fold_filed mesh ops), hjob]
  have hpost : (postsIn mesh tail)[id]?.getD job.post = job.post := by
    rw [fold_jobs, map_eq_some_iff] at hjob
    obtain ⟨post, hp, rfl⟩ := hjob
    cases hq : (postsIn mesh tail)[id]? with
    | none => rfl
    | some q => exact (post_unique h hp hq).symm
  simp only [hpost]
  rfl

theorem resumed_winner {mesh : Bytes32} (h : ∀ op ∈ tail, op.hash ≠ 0)
    {job : Job} {w : Bytes32} (hw : job.state.winner = some w) :
    (resumed mesh tail job).winner = some w := by
  have hzero : (resumed mesh tail job).claims[(0 : Bytes32)]? = some ⟨w, 0⟩ := by
    change ((seedClaims job).insertMany _)[(0 : Bytes32)]? = _
    rw [getElem?_insertMany]
    have hnone : valuesAt (tail.filterMap (claimOn mesh job.id)) 0 = [] := by
      rw [eq_nil_iff_forall_not_mem]
      intro c hc
      obtain ⟨op, hop, hview⟩ := mem_filterMap.mp ((mem_valuesAt _ _ _).mp hc)
      exact h op hop (claimOn_key mesh job.id op hview).symm
    rw [hnone]
    simp [seedClaims, seedClaim, hw]
  have hhead : (vals (resumed mesh tail job).claims).head? = some ⟨w, 0⟩ := by
    rw [head_vals]
    exact ⟨0, hzero, fun k _ _ => Fin.zero_le k⟩
  unfold JobFacts.winner
  rw [hhead, map_some]

theorem resumed_results (tail : List Operation) (job : Job) (w : Bytes32) :
    (resumed mesh tail job).results[w]? =
      (resultsIn mesh tail job.id)[w]?.or (seedResults job)[w]? := by
  change ((seedResults job).insertMany _)[w]? = _
  rw [getElem?_insertMany, resultsIn, getElem?_insertMany]
  simp

/-! ## The device directory -/

def DeviceDirectory.masterOf (d : DeviceDirectory) (author : Bytes32) : Option Bytes32 :=
  d.devices[author]?

def IsAttestation (mesh : Bytes32) (op : Operation) : Prop :=
  ∃ a, eventFor mesh op = some (.deviceAttested a)

theorem resume_devices (board : JobBoard) (tail : List Operation) :
    (JobBoard.foldFromSnapshot mesh (.fromBoard board) tail).devices = ⟨mastersIn mesh tail⟩ := by
  have h := devices_addOps mesh (seeded board) tail
  rw [seeded_untouched Gathered.devices devices_seed] at h
  exact congrArg DeviceDirectory.mk h

theorem attestedBy_eq_some {op : Operation} {p : Bytes32 × Bytes32}
    (h : attestedBy mesh op = some p) : p.1 = op.author ∧ IsAttestation mesh op := by
  unfold attestedBy at h
  split at h
  · rename_i a hevent
    split at h
    · obtain ⟨master, -, rfl⟩ := map_eq_some_iff.mp h
      exact ⟨rfl, a, hevent⟩
    · cases h
  · cases h

/-- A snapshot holds no directory: after a checkpoint only the devices that attest in the tail are
known. -/
theorem directory_kept_iff (mesh : Bytes32) (ops tail : List Operation) :
    (∀ author master, (JobBoard.fold mesh ops).devices.masterOf author = some master →
      (∀ op ∈ tail, op.author = author → ¬ IsAttestation mesh op) →
      (JobBoard.foldFromSnapshot mesh (.fromBoard (JobBoard.fold mesh ops)) tail).devices.masterOf
        author = some master) ↔
      ∀ op ∈ ops, (attestedBy mesh op).isSome →
        ∃ op' ∈ tail, op'.author = op.author ∧ IsAttestation mesh op' := by
  rw [fold_devices, resume_devices]
  constructor
  · intro h op hop hsome
    by_contra hnone
    obtain ⟨p, hp⟩ := isSome_iff_exists.mp hsome
    obtain ⟨hauthor, -⟩ := attestedBy_eq_some hp
    have hlast : ∃ master, (mastersIn mesh ops)[p.1]? = some master := by
      have hmem := (mem_valuesAt _ p.1 p.2).mpr (mem_filterMap.mpr ⟨op, hop, hp⟩)
      rw [mastersIn, getElem?_insertMany, getLast?_eq_some_getLast (ne_nil_of_mem hmem)]
      exact ⟨_, rfl⟩
    obtain ⟨master, hmaster⟩ := hlast
    have hkept := h p.1 master hmaster fun op' hop' ha hat =>
      hnone ⟨op', hop', ha.trans hauthor, hat⟩
    obtain ⟨op', hop', hp'⟩ := mem_filterMap.mp (mem_of_getElem?_insertMany hkept)
    obtain ⟨ha, hat⟩ := attestedBy_eq_some hp'
    exact hnone ⟨op', hop', ha.symm.trans hauthor, hat⟩
  · intro h author master hmaster hsilent
    obtain ⟨op, hop, hp⟩ := mem_filterMap.mp (mem_of_getElem?_insertMany hmaster)
    obtain ⟨op', hop', ha, hat⟩ := h op hop (by rw [hp]; rfl)
    exact absurd hat (hsilent op' hop' (ha.trans (attestedBy_eq_some hp).1.symm))

theorem directory_lost :
    let attested := [signed 7 10 2 0 (.deviceAttested
      ⟨1, 1, 2, List.replicate 64 0, true, true, true⟩)]
    (JobBoard.fold 7 attested).devices.masterOf 2 = some 1 ∧
      (JobBoard.foldFromSnapshot 7 (.fromBoard (JobBoard.fold 7 attested)) []).devices.masterOf 2 =
        none := by
  decide +kernel

end Mere.Mesh
