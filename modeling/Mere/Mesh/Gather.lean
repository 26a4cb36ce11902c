import Mere.Mesh.Board

/-!
# What each operation writes

Every map of the gather phase is `insertMany` of the pairs that the operations write to
it, one view of an operation for each map.
-/

namespace Mere.Mesh

open OrdMap List Option

/-! ## Views of an operation -/

def postOf (mesh : Bytes32) (op : Operation) : Option (JobId × Posted) :=
  match eventFor mesh op with
  | some (.jobPosted kind payload _ _) => some (op.hash, ⟨some kind, some payload, none, op.author⟩)
  | some (.jobPostedV2 spec _ _) =>
    if spec.validate.isOk then some (op.hash, ⟨none, none, some spec, op.author⟩) else none
  | _ => none

def claimOn (mesh : Bytes32) (job : JobId) (op : Operation) : Option (Bytes32 × ClaimFact) :=
  match eventFor mesh op with
  | some (.jobClaimed j atMs) => if j = job then some (op.hash, ⟨op.author, atMs⟩) else none
  | _ => none

def resultOn (mesh : Bytes32) (job : JobId) (op : Operation) : Option (Bytes32 × ResultRecord) :=
  match eventFor mesh op with
  | some (.jobDone j result _) => if j = job then some (op.author, .inline result) else none
  | some (.jobDoneV2 j output _) => if j = job then some (op.author, .committed output) else none
  | _ => none

def grantOn (mesh : Bytes32) (job : JobId) (op : Operation) : Option (Bytes32 × GrantFact) :=
  match eventFor mesh op with
  | some (.leaseGranted j epoch grantedAtMs expiresAtMs) =>
    if j = job then some (op.hash, ⟨op.hash, op.author, epoch, grantedAtMs, expiresAtMs⟩) else none
  | _ => none

def factOn (mesh : Bytes32) (job : JobId) (op : Operation) : Option (Bytes32 × LeaseFact) :=
  match eventFor mesh op with
  | some (.leaseHeartbeat j lease progress atMs) =>
    if j = job then some (op.hash, .heartbeat op.hash op.author lease progress atMs) else none
  | some (.leaseReleased j lease reason atMs) =>
    if j = job then some (op.hash, .ended op.hash op.author lease (.released reason atMs)) else none
  | some (.leaseRevokedByOwner j lease reason atMs) =>
    if j = job then some (op.hash, .ended op.hash op.author lease (.reclaimed reason atMs)) else none
  | _ => none

def completionOn (mesh : Bytes32) (job : JobId) (op : Operation) :
    Option (Bytes32 × CompletionFact) :=
  match eventFor mesh op with
  | some (.jobCompletedUnderLease j lease output atMs) =>
    if j = job then some (op.hash, ⟨op.author, lease, atMs, output⟩) else none
  | _ => none

def attestedBy (mesh : Bytes32) (op : Operation) : Option (Bytes32 × Bytes32) :=
  match eventFor mesh op with
  | some (.deviceAttested a) =>
    if attests op.author a then a.masterPublicKey.map (fun master => (op.author, master)) else none
  | _ => none

/-! ## One operation -/

section Step

variable (mesh : Bytes32) (job : JobId) (g : Gathered) (op : Operation) (j : JobId)

theorem claimsOf_addClaim (key : Bytes32) (c : ClaimFact) :
    (g.addClaim j key c).claimsOf job =
      if j = job then (g.claimsOf job).insert key c else g.claimsOf job :=
  getD_update g.claims j job ∅ (fun m => m.insert key c)

theorem resultsOf_addResult (author : Bytes32) (r : ResultRecord) :
    (g.addResult j author r).resultsOf job =
      if j = job then (g.resultsOf job).insert author r else g.resultsOf job :=
  getD_update g.results j job ∅ (fun m => m.insert author r)

theorem leasesOf_addGrant (f : GrantFact) :
    (g.addGrant j f).leasesOf job =
      if j = job then { g.leasesOf job with grants := (g.leasesOf job).grants.insert f.operation f }
      else g.leasesOf job :=
  getD_update g.leases j job {} (fun l => { l with grants := l.grants.insert f.operation f })

theorem leasesOf_addFact (f : LeaseFact) :
    (g.addFact j f).leasesOf job =
      if j = job then { g.leasesOf job with facts := (g.leasesOf job).facts.insert f.operation f }
      else g.leasesOf job :=
  getD_update g.leases j job {} (fun l => { l with facts := l.facts.insert f.operation f })

theorem leasesOf_addCompletion (key : Bytes32) (c : CompletionFact) :
    (g.addCompletion j key c).leasesOf job =
      if j = job then
        { g.leasesOf job with completions := (g.leasesOf job).completions.insert key c }
      else g.leasesOf job :=
  getD_update g.leases j job {} (fun l => { l with completions := l.completions.insert key c })

/-- The maps about one job, with the three of its leases written together. -/
theorem maps_addOp :
    (g.addOp mesh op).posted = (postOf mesh op).elim g.posted (fun p => g.posted.insert p.1 p.2) ∧
    (g.addOp mesh op).claimsOf job =
      (claimOn mesh job op).elim (g.claimsOf job) (fun p => (g.claimsOf job).insert p.1 p.2) ∧
    (g.addOp mesh op).resultsOf job =
      (resultOn mesh job op).elim (g.resultsOf job) (fun p => (g.resultsOf job).insert p.1 p.2) ∧
    (g.addOp mesh op).leasesOf job =
      { grants := (grantOn mesh job op).elim (g.leasesOf job).grants
          (fun p => (g.leasesOf job).grants.insert p.1 p.2)
        facts := (factOn mesh job op).elim (g.leasesOf job).facts
          (fun p => (g.leasesOf job).facts.insert p.1 p.2)
        completions := (completionOn mesh job op).elim (g.leasesOf job).completions
          (fun p => (g.leasesOf job).completions.insert p.1 p.2) } ∧
    (g.addOp mesh op).devices.devices =
      (attestedBy mesh op).elim g.devices.devices (fun p => g.devices.devices.insert p.1 p.2) ∧
    (g.addOp mesh op).retained = g.retained := by
  unfold Gathered.addOp postOf claimOn resultOn grantOn factOn completionOn attestedBy
  cases eventFor mesh op with
  | none => exact ⟨rfl, rfl, rfl, rfl, rfl, rfl⟩
  | some event =>
    cases event with
    | jobPostedV2 spec nonce atMs =>
      cases h : spec.validate.isOk <;>
        simp [Gathered.addEvent, h, Gathered.claimsOf, Gathered.resultsOf, Gathered.leasesOf]
    | jobClaimed j atMs =>
      refine ⟨rfl, ?_, rfl, rfl, rfl, rfl⟩
      simp only [Gathered.addEvent, claimsOf_addClaim]
      split <;> rfl
    | jobDone j result atMs | jobDoneV2 j output atMs =>
      refine ⟨rfl, rfl, ?_, rfl, rfl, rfl⟩
      simp only [Gathered.addEvent, resultsOf_addResult]
      split <;> rfl
    | leaseGranted j epoch grantedAtMs expiresAtMs =>
      refine ⟨rfl, rfl, rfl, ?_, rfl, rfl⟩
      simp only [Gathered.addEvent, leasesOf_addGrant]
      split <;> rfl
    | leaseHeartbeat j lease progress atMs | leaseReleased j lease reason atMs
    | leaseRevokedByOwner j lease reason atMs =>
      refine ⟨rfl, rfl, rfl, ?_, rfl, rfl⟩
      simp only [Gathered.addEvent, leasesOf_addFact]
      split <;> rfl
    | jobCompletedUnderLease j lease output atMs =>
      refine ⟨rfl, rfl, rfl, ?_, rfl, rfl⟩
      simp only [Gathered.addEvent, leasesOf_addCompletion]
      split <;> rfl
    | deviceAttested a =>
      refine ⟨rfl, rfl, rfl, rfl, ?_, ?_⟩ <;> simp only [Gathered.addEvent, DeviceDirectory.admit]
      cases attests op.author a with
      | false => rfl
      | true => cases a.masterPublicKey <;> rfl
    | _ => exact ⟨rfl, rfl, rfl, rfl, rfl, rfl⟩

end Step

/-! ## A list of operations -/

section Run

variable (mesh : Bytes32) (job : JobId) (g : Gathered) (ops : List Operation)

theorem posted_addOps :
    (ops.foldl (Gathered.addOp mesh) g).posted = g.posted.insertMany (ops.filterMap (postOf mesh)) :=
  foldl_view _ Gathered.posted _ (fun g op => (maps_addOp mesh 0 g op).1) g ops

theorem claimsOf_addOps :
    (ops.foldl (Gathered.addOp mesh) g).claimsOf job =
      (g.claimsOf job).insertMany (ops.filterMap (claimOn mesh job)) :=
  foldl_view _ (fun g => g.claimsOf job) _ (fun g op => (maps_addOp mesh job g op).2.1) g ops

theorem resultsOf_addOps :
    (ops.foldl (Gathered.addOp mesh) g).resultsOf job =
      (g.resultsOf job).insertMany (ops.filterMap (resultOn mesh job)) :=
  foldl_view _ (fun g => g.resultsOf job) _ (fun g op => (maps_addOp mesh job g op).2.2.1) g ops

theorem grants_addOps :
    ((ops.foldl (Gathered.addOp mesh) g).leasesOf job).grants =
      (g.leasesOf job).grants.insertMany (ops.filterMap (grantOn mesh job)) :=
  foldl_view _ (fun g => (g.leasesOf job).grants) _
    (fun g op => congrArg GatheredJobLeases.grants (maps_addOp mesh job g op).2.2.2.1) g ops

theorem facts_addOps :
    ((ops.foldl (Gathered.addOp mesh) g).leasesOf job).facts =
      (g.leasesOf job).facts.insertMany (ops.filterMap (factOn mesh job)) :=
  foldl_view _ (fun g => (g.leasesOf job).facts) _
    (fun g op => congrArg GatheredJobLeases.facts (maps_addOp mesh job g op).2.2.2.1) g ops

theorem completions_addOps :
    ((ops.foldl (Gathered.addOp mesh) g).leasesOf job).completions =
      (g.leasesOf job).completions.insertMany (ops.filterMap (completionOn mesh job)) :=
  foldl_view _ (fun g => (g.leasesOf job).completions) _
    (fun g op => congrArg GatheredJobLeases.completions (maps_addOp mesh job g op).2.2.2.1) g ops

theorem devices_addOps :
    (ops.foldl (Gathered.addOp mesh) g).devices.devices =
      g.devices.devices.insertMany (ops.filterMap (attestedBy mesh)) :=
  foldl_view _ (fun g => g.devices.devices) _ (fun g op => (maps_addOp mesh 0 g op).2.2.2.2.1) g ops

theorem retained_addOps : (ops.foldl (Gathered.addOp mesh) g).retained = g.retained := by
  induction ops generalizing g with
  | nil => rfl
  | cons op ops ih => rw [foldl_cons, ih, (maps_addOp mesh 0 g op).2.2.2.2.2]

end Run

/-! ## Keys -/

section Keys

variable (mesh : Bytes32) (job : JobId) (op : Operation)

theorem postOf_key {k : JobId} {v : Posted} (h : postOf mesh op = some (k, v)) : k = op.hash := by
  unfold postOf at h
  split at h
  · simp_all
  · split at h <;> simp_all
  · simp at h

variable {k : Bytes32}

theorem claimOn_key {v : ClaimFact} (h : claimOn mesh job op = some (k, v)) :
    k = op.hash := by
  unfold claimOn at h
  split at h
  · split at h <;> simp_all
  · simp at h

theorem grantOn_key {v : GrantFact} (h : grantOn mesh job op = some (k, v)) :
    k = op.hash ∧ v.operation = op.hash ∧ v.author = op.author := by
  unfold grantOn at h
  split at h
  · split at h
    · obtain ⟨rfl, rfl⟩ := h
      exact ⟨rfl, rfl, rfl⟩
    · simp at h
  · simp at h

theorem factOn_key {v : LeaseFact} (h : factOn mesh job op = some (k, v)) :
    k = op.hash := by
  unfold factOn at h
  split at h
  · split at h <;> simp_all
  · split at h <;> simp_all
  · split at h <;> simp_all
  · simp at h

theorem completionOn_key {v : CompletionFact}
    (h : completionOn mesh job op = some (k, v)) : k = op.hash := by
  unfold completionOn at h
  split at h
  · split at h <;> simp_all
  · simp at h

theorem keys_nodup {V : Type} (view : Operation → Option (Bytes32 × V))
    (hk : ∀ op k v, view op = some (k, v) → k = op.hash) (ops : List Operation)
    (h : (ops.map Operation.hash).Nodup) : ((ops.filterMap view).map Prod.fst).Nodup := by
  have hsub : ((ops.filterMap view).map Prod.fst).Sublist (ops.map Operation.hash) := by
    clear h
    induction ops with
    | nil => simp
    | cons op ops ih =>
      cases hv : view op with
      | none => rw [filterMap_cons_none hv]; exact ih.cons _
      | some p =>
        rw [filterMap_cons_some hv, map_cons, hk op p.1 p.2 hv]
        exact ih.cons_cons _
  exact hsub.nodup h

end Keys

/-! ## Reading the board

The maps a whole list of operations writes, and the board they resolve to.
-/

section Read

variable (mesh : Bytes32) (ops : List Operation)

def postsIn : OrdMap JobId Posted := (∅ : OrdMap _ _).insertMany (ops.filterMap (postOf mesh))

def mastersIn : OrdMap Bytes32 Bytes32 := (∅ : OrdMap _ _).insertMany (ops.filterMap (attestedBy mesh))

variable (id : JobId)

def claimsIn : OrdMap Bytes32 ClaimFact :=
  (∅ : OrdMap _ _).insertMany (ops.filterMap (claimOn mesh id))

def resultsIn : OrdMap Bytes32 ResultRecord :=
  (∅ : OrdMap _ _).insertMany (ops.filterMap (resultOn mesh id))

def leasesIn : GatheredJobLeases where
  grants := (∅ : OrdMap _ _).insertMany (ops.filterMap (grantOn mesh id))
  facts := (∅ : OrdMap _ _).insertMany (ops.filterMap (factOn mesh id))
  completions := (∅ : OrdMap _ _).insertMany (ops.filterMap (completionOn mesh id))

def factsIn (post : Posted) : JobFacts where
  post := post
  claims := claimsIn mesh ops id
  results := resultsIn mesh ops id
  leases := leasesIn mesh ops id
  retained := none

theorem leasesOf_addOps (g : Gathered) (h : g.leasesOf id = {}) :
    (ops.foldl (Gathered.addOp mesh) g).leasesOf id = leasesIn mesh ops id := by
  have hg := grants_addOps mesh id g ops
  have hf := facts_addOps mesh id g ops
  have hc := completions_addOps mesh id g ops
  rw [h] at hg hf hc
  cases hl : (ops.foldl (Gathered.addOp mesh) g).leasesOf id
  rw [hl] at hg hf hc
  subst hg hf hc
  rfl

theorem gather_facts (post : Posted) :
    (gather mesh {} ops).factsOf id post = factsIn mesh ops id post := by
  unfold Gathered.factsOf factsIn gather
  rw [claimsOf_addOps, resultsOf_addOps, leasesOf_addOps _ _ _ _ rfl, retained_addOps]
  rfl

theorem jobs_getElem? (snapshot : JobBoardSnapshot) :
    (JobBoard.foldFromSnapshot mesh snapshot ops).jobs[id]? =
      (gather mesh snapshot ops).posted[id]?.map
        (fun post => ((gather mesh snapshot ops).factsOf id post).job id) :=
  Std.ExtTreeMap.getElem?_map

theorem fold_jobs :
    (JobBoard.fold mesh ops).jobs[id]? =
      (postsIn mesh ops)[id]?.map (fun post => (factsIn mesh ops id post).job id) := by
  unfold JobBoard.fold
  rw [jobs_getElem?]
  have hp : (gather mesh {} ops).posted = postsIn mesh ops := posted_addOps mesh {} ops
  simp only [gather_facts, hp]

theorem fold_devices : (JobBoard.fold mesh ops).devices = ⟨mastersIn mesh ops⟩ := by
  have h := devices_addOps mesh {} ops
  exact congrArg DeviceDirectory.mk h

end Read

def JobBoard.Filed (board : JobBoard) : Prop :=
  ∀ (id : JobId) (job : Job), board.jobs[id]? = some job → job.id = id

theorem fold_filed (mesh : Bytes32) (ops : List Operation) : (JobBoard.fold mesh ops).Filed := by
  intro id job h
  rw [fold_jobs, map_eq_some_iff] at h
  obtain ⟨post, -, rfl⟩ := h
  rfl

namespace JobFacts

variable (f : JobFacts)

theorem state_congr {f g : JobFacts}
    (hc : f.leases.completedOutput f.lease = g.leases.completedOutput g.lease)
    (hl : f.lease.current = g.lease.current) (hw : f.winner = g.winner)
    (hr : ∀ w, g.winner = some w → f.post.resolve w f.results[w]? = g.post.resolve w g.results[w]?) :
    f.state = g.state := by
  unfold JobFacts.state
  rw [hc, hl, hw]
  cases g.leases.completedOutput g.lease with
  | some done => rfl
  | none =>
    cases g.lease.current with
    | some epoch => rfl
    | none =>
      cases hw' : g.winner with
      | none => rfl
      | some w => exact hr w hw'

theorem lease_of_unleased (h : f.terms = none) : f.lease = {} := by
  unfold JobFacts.lease
  unfold JobFacts.terms at h
  cases hs : f.post.spec with
  | none => rfl
  | some spec =>
    rw [hs, bind_some] at h
    simp [h]

theorem lease_of_leased (spec : JobSpec) (terms : LeaseTerms) (hs : f.post.spec = some spec)
    (ht : spec.lease = some terms) :
    f.lease = (f.leases.admitted spec).resolve (f.retained.getD {}) terms
      (GatheredJobLeases.winnerIn f.claims) := by
  unfold JobFacts.lease GatheredJobLeases.resolve
  simp [hs, ht]

theorem state_of_unleased (h : f.terms = none) :
    f.state = f.winner.elim .posted (fun w => f.post.resolve w f.results[w]?) := by
  unfold JobFacts.state
  rw [f.lease_of_unleased h]
  cases f.winner <;> rfl

theorem resolve_leased (post : Posted) (spec : JobSpec) (terms : LeaseTerms) (w : Bytes32)
    (r : Option ResultRecord) (hs : post.spec = some spec) (ht : spec.lease = some terms) :
    post.resolve w r = .claimed w := by
  unfold Posted.resolve
  rw [hs]
  match r with
  | none => rfl
  | some (.inline _) => rfl
  | some (.committed output) => simp [ht]

theorem state_of_leased (spec : JobSpec) (terms : LeaseTerms) (hs : f.post.spec = some spec)
    (ht : spec.lease = some terms) :
    f.state = match f.leases.completedOutput f.lease with
      | some (holder, output) => .committed holder output
      | none => match f.lease.current, f.winner with
        | some epoch, _ => .claimed epoch.holder
        | none, none => .posted
        | none, some w => .claimed w := by
  unfold JobFacts.state
  cases f.leases.completedOutput f.lease with
  | some done => rfl
  | none =>
    cases f.lease.current with
    | some epoch => rfl
    | none =>
      cases f.winner with
      | none => rfl
      | some w => exact resolve_leased f.post spec terms w _ hs ht

end JobFacts

end Mere.Mesh
