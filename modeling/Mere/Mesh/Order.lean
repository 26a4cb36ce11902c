import Mere.Mesh.Gather

/-!
# Does the order of the operations matter?

Two maps are keyed by author, the results of a job and the device directory, and there the last
write wins.
-/

namespace Mere.Mesh

open OrdMap List Option Std.ExtTreeMap

/-! ## The maps keyed by hash -/

section Perm

variable (mesh : Bytes32) {ops ops' : List Operation} (hp : ops'.Perm ops)
  (hd : (ops.map Operation.hash).Nodup)
include hp hd

theorem insertMany_view_perm {V : Type} (view : Operation → Option (Bytes32 × V))
    (hk : ∀ op k v, view op = some (k, v) → k = op.hash) (m : OrdMap Bytes32 V) :
    m.insertMany (ops'.filterMap view) = m.insertMany (ops.filterMap view) := by
  symm
  apply insertMany_perm m (hp.symm.filterMap view)
  exact keys_nodup view hk ops hd

theorem postsIn_perm : postsIn mesh ops' = postsIn mesh ops :=
  insertMany_view_perm hp hd _ (fun op _ _ => postOf_key mesh op) _

theorem claimsIn_perm (id : JobId) : claimsIn mesh ops' id = claimsIn mesh ops id :=
  insertMany_view_perm hp hd _ (fun op _ _ => claimOn_key mesh id op) _

theorem leasesIn_perm (id : JobId) : leasesIn mesh ops' id = leasesIn mesh ops id := by
  unfold leasesIn
  rw [insertMany_view_perm hp hd _ (fun op _ _ h => (grantOn_key mesh id op h).1),
    insertMany_view_perm hp hd _ (fun op _ _ => factOn_key mesh id op),
    insertMany_view_perm hp hd _ (fun op _ _ => completionOn_key mesh id op)]

theorem factsIn_perm (id : JobId) (post : Posted) :
    factsIn mesh ops' id post =
      { factsIn mesh ops id post with results := resultsIn mesh ops' id } := by
  unfold factsIn
  rw [claimsIn_perm mesh hp hd, leasesIn_perm mesh hp hd]

end Perm

theorem JobFacts.job_with_results (f : JobFacts) (id : JobId)
    (results : OrdMap Bytes32 ResultRecord)
    (h : ∀ w, f.winner = some w → f.post.resolve w results[w]? = f.post.resolve w f.results[w]?) :
    { f with results := results }.job id = f.job id := by
  have hs : { f with results := results }.state = f.state :=
    state_congr rfl rfl rfl h
  unfold JobFacts.job
  rw [hs]
  rfl

/-! ## The maps keyed by author -/

/-- No write to a map keyed by author can be told from another: the results of a claim
winner close the job alike, and an author is attested to one master. -/
structure OrderFree (mesh : Bytes32) (ops : List Operation) : Prop where
  results : ∀ id post winner r r', (postsIn mesh ops)[id]? = some post →
    (factsIn mesh ops id post).winner = some winner →
    (winner, r) ∈ ops.filterMap (resultOn mesh id) →
    (winner, r') ∈ ops.filterMap (resultOn mesh id) →
    post.resolve winner (some r) = post.resolve winner (some r')
  masters : ∀ author m m', (author, m) ∈ ops.filterMap (attestedBy mesh) →
    (author, m') ∈ ops.filterMap (attestedBy mesh) → m = m'

-- Moving one operation to the end shows the board in which its write is the one that counts.
theorem perm_last {ops : List Operation} {op : Operation} (hop : op ∈ ops) :
    (ops.erase op ++ [op]).Perm ops :=
  (perm_append_singleton op (ops.erase op)).trans (perm_cons_erase hop).symm

section Fold

variable (mesh : Bytes32) (ops : List Operation) (hd : (ops.map Operation.hash).Nodup)
include hd

theorem fold_perm_of_orderFree (h : OrderFree mesh ops) {ops' : List Operation}
    (hp : ops'.Perm ops) : JobBoard.fold mesh ops' = JobBoard.fold mesh ops := by
  have hjobs : (JobBoard.fold mesh ops').jobs = (JobBoard.fold mesh ops).jobs := by
    apply Std.ExtTreeMap.ext_getElem?
    intro id
    rw [fold_jobs, fold_jobs, postsIn_perm mesh hp hd]
    cases hpost : (postsIn mesh ops)[id]? with
    | none => rfl
    | some post =>
      rw [map_some, map_some, factsIn_perm mesh hp hd, JobFacts.job_with_results]
      intro w hw
      have hlast := map_getElem?_insertMany_perm ∅ (hp.filterMap (resultOn mesh id)) w
        (fun r => post.resolve w (some r))
        (fun r r' hr hr' => h.results id post w r r' hpost hw hr hr')
      change (resultsIn mesh ops' id)[w]?.map _ = (resultsIn mesh ops id)[w]?.map _ at hlast
      change post.resolve w (resultsIn mesh ops' id)[w]? = post.resolve w (resultsIn mesh ops id)[w]?
      cases ha : (resultsIn mesh ops' id)[w]? <;> cases hb : (resultsIn mesh ops id)[w]? <;>
        simp_all
  have hmasters : mastersIn mesh ops' = mastersIn mesh ops := by
    apply Std.ExtTreeMap.ext_getElem?
    intro author
    have hlast := map_getElem?_insertMany_perm ∅ (hp.filterMap (attestedBy mesh)) author
      id (h.masters author)
    rw [map_id_apply, map_id_apply] at hlast
    exact hlast
  cases hb : JobBoard.fold mesh ops'
  cases hb' : JobBoard.fold mesh ops
  have hdev' := fold_devices mesh ops'
  have hdev := fold_devices mesh ops
  simp_all

theorem orderFree_of_fold_perm
    (h : ∀ ops' : List Operation, ops'.Perm ops → JobBoard.fold mesh ops' = JobBoard.fold mesh ops) :
    OrderFree mesh ops where
  results := by
    intro id post w r r' hpost hw hr hr'
    by_cases hterms : post.spec.bind JobSpec.lease = none
    · have hstate : ∀ r₁, (w, r₁) ∈ ops.filterMap (resultOn mesh id) →
          post.resolve w (some r₁) = (factsIn mesh ops id post).state := by
        intro r₁ h₁
        obtain ⟨op, hop, hview⟩ := mem_filterMap.mp h₁
        have hp := perm_last hop
        have hjobs := congrArg (fun b => b.jobs[id]?.map Job.state) (h _ hp)
        simp only [fold_jobs, postsIn_perm mesh hp hd, hpost, map_some,
          factsIn_perm mesh hp hd, some.injEq] at hjobs
        change JobFacts.state _ = (factsIn mesh ops id post).state at hjobs
        let f := { factsIn mesh ops id post with
          results := resultsIn mesh (ops.erase op ++ [op]) id }
        have hf : f.state = f.winner.elim .posted (fun w => post.resolve w f.results[w]?) :=
          f.state_of_unleased hterms
        have hres : f.results[w]? = some r₁ := getElem?_insertMany_filterMap_last ∅ _ _ hview
        rw [← hjobs, hf, show f.winner = some w from hw, elim_some, hres]
      rw [hstate r hr, hstate r' hr']
    · obtain ⟨terms, hbind⟩ := ne_none_iff_exists'.mp hterms
      obtain ⟨spec, hs, ht⟩ := bind_eq_some_iff.mp hbind
      rw [JobFacts.resolve_leased post spec terms w _ hs ht,
        JobFacts.resolve_leased post spec terms w _ hs ht]
  masters := by
    intro author m m' hm hm'
    have hmaster : ∀ m₁, (author, m₁) ∈ ops.filterMap (attestedBy mesh) →
        (mastersIn mesh ops)[author]? = some m₁ := by
      intro m₁ h₁
      obtain ⟨op, hop, hview⟩ := mem_filterMap.mp h₁
      have hdev := congrArg (fun b => b.devices.devices[author]?) (h _ (perm_last hop))
      simp only [fold_devices] at hdev
      rw [← hdev]
      exact getElem?_insertMany_filterMap_last ∅ _ _ hview
    have := (hmaster m hm).symm.trans (hmaster m' hm')
    simpa using this

theorem fold_perm_iff :
    (∀ ops' : List Operation, ops'.Perm ops → JobBoard.fold mesh ops' = JobBoard.fold mesh ops) ↔
      OrderFree mesh ops :=
  ⟨orderFree_of_fold_perm mesh ops hd, fun h _ hp => fold_perm_of_orderFree mesh ops hd h hp⟩

end Fold

def twoResults : List Operation :=
  [signed 7 10 1 0 (.jobPosted .echo [1] 0 0), signed 7 11 2 0 (.jobClaimed 10 1),
    signed 7 12 2 1 (.jobDone 10 [1] 2), signed 7 13 2 2 (.jobDone 10 [2] 2)]

theorem fold_perm_iff_twoResults :
    (twoResults.map Operation.hash).Nodup ∧
      ((∀ ops' : List Operation, ops'.Perm twoResults →
        JobBoard.fold 7 ops' = JobBoard.fold 7 twoResults) ↔ OrderFree 7 twoResults) :=
  ⟨by decide, fold_perm_iff 7 twoResults (by decide)⟩

theorem fold_order_matters :
    (∀ op ∈ twoResults, (eventFor 7 op).isSome) ∧ (twoResults.map Operation.hash).Nodup ∧
      twoResults.reverse.Perm twoResults ∧
      JobBoard.fold 7 twoResults.reverse ≠ JobBoard.fold 7 twoResults :=
  ⟨by decide, by decide, reverse_perm _, by decide⟩

end Mere.Mesh
