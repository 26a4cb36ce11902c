import Mere.Mesh.Worker

/-!
# A worker's grant, as the fold reads it

The worker takes the epoch from the projection at its own clock, the fold takes it from the signed
boundaries.
-/

namespace Mere.Mesh

open OrdMap GatheredLeases List Option Std.ExtTreeMap

/-! ## Runs over pending grants -/

section Run

variable (g : GatheredLeases) (terms : LeaseTerms) (winnerFor : Nat → Nat → Option Bytes32)

theorem tryGrants_extend (grants : List GrantFact) (r : LeaseRecord) :
    ∃ later, (grants.foldl (g.tryGrant terms winnerFor) r).epochs = r.epochs ++ later ∧
      ∀ e ∈ later, ∃ grant ∈ grants, e = g.applyFactsTo (openedBy grant) := by
  induction grants generalizing r with
  | nil => exact ⟨[], by simp⟩
  | cons grant grants ih =>
    rw [foldl_cons]
    obtain ⟨later, hl, hfrom⟩ := ih (g.tryGrant terms winnerFor r grant)
    rcases tryGrant_cases g terms winnerFor r grant with hr | ⟨boundary, -, hr⟩
    · refine ⟨later, by rw [hl, hr], ?_⟩
      intro e he
      obtain ⟨x, hx, hex⟩ := hfrom e he
      exact ⟨x, mem_cons_of_mem _ hx, hex⟩
    · refine ⟨g.applyFactsTo (openedBy grant) :: later, by rw [hl, hr]; simp, ?_⟩
      intro e he
      rcases mem_cons.mp he with rfl | he
      · exact ⟨grant, mem_cons_self, rfl⟩
      · obtain ⟨x, hx, hex⟩ := hfrom e he
        exact ⟨x, mem_cons_of_mem _ hx, hex⟩

end Run

theorem applyFactsTo_unnamed (g : GatheredLeases) (new : GrantFact)
    (h : ∀ f ∈ vals g.facts, f.lease ≠ new.operation) :
    g.applyFactsTo (openedBy new) = openedBy new := by
  have hscan : g.scan (openedBy new) = {} := by
    unfold GatheredLeases.scan
    generalize vals g.facts = facts at h
    induction facts with
    | nil => rfl
    | cons f facts ih =>
      have hf : (openedBy new).admits f = false := by
        unfold LeaseEpoch.admits
        simp [openedBy, h f mem_cons_self]
      rw [foldl_cons, scanFact, hf]
      exact ih (fun x hx => h x (mem_cons_of_mem _ hx))
  unfold GatheredLeases.applyFactsTo
  rw [hscan]
  rfl

/-! ## One more grant -/

section Insert

variable {g : GatheredLeases} {new : GrantFact}
  (hkeys : ∀ (k : Bytes32) (x : GrantFact), g.grants[k]? = some x → x.operation = k)
  (hfresh : g.grants[new.operation]? = none)

def withGrant (g : GatheredLeases) (new : GrantFact) : GatheredLeases :=
  { g with grants := g.grants.insert new.operation new }

include hkeys hfresh in
/-- The new grant stands somewhere in the order, and moves none of the others. -/
theorem pending_withGrant :
    ∃ before after, (withGrant g new).pending = before ++ new :: after ∧
      g.pending = before ++ after ∧ ∀ x ∈ after, grantLe new x := by
  have hperm : (withGrant g new).pending.Perm (new :: vals g.grants) :=
    (perm_insertionSort grantLe _).trans (vals_insert_perm g.grants new.operation new hfresh)
  have hsorted : (withGrant g new).pending.Pairwise grantLe := pairwise_insertionSort grantLe _
  obtain ⟨before, after, hsplit⟩ := append_of_mem (hperm.mem_iff.mpr mem_cons_self)
  rw [hsplit] at hperm hsorted
  have hrest : (before ++ after).Perm (vals g.grants) :=
    (perm_cons new).mp (perm_middle.symm.trans hperm)
  have hold : g.pending.Perm (vals g.grants) := perm_insertionSort grantLe _
  rw [pairwise_append, pairwise_cons] at hsorted
  refine ⟨before, after, hsplit, ?_, hsorted.2.1.1⟩
  have hanti : ∀ a b, a ∈ g.pending → b ∈ before ++ after → grantLe a b → grantLe b a → a = b := by
    intro a b ha hb hab hba
    exact vals_grants_inj hkeys (hold.mem_iff.mp ha) (hrest.mem_iff.mp hb) (grantLe_antisymm hab hba)
  have hsorted' : (before ++ after).Pairwise grantLe := by
    rw [pairwise_append]
    exact ⟨hsorted.1, hsorted.2.1.2, fun a ha b hb => hsorted.2.2 a ha b (mem_cons_of_mem _ hb)⟩
  exact List.Perm.eq_of_pairwise hanti (pairwise_insertionSort grantLe _) hsorted'
    (hold.trans hrest.symm)

variable {terms : LeaseTerms} {winnerFor : Nat → Nat → Option Bytes32}

/-- The grants after the new one opened nothing while it was missing: they would have used its
number. -/
theorem tryGrants_before {before after : List GrantFact} {boundary : Nat}
    (hsplit : g.pending = before ++ after) (hafter : ∀ x ∈ after, grantLe new x)
    (hnext : (g.resolve {} terms winnerFor).nextEpoch = some (new.epoch, boundary))
    (hsmall : (g.resolve {} terms winnerFor).epochs.length < 2 ^ 32) :
    before.foldl (g.tryGrant terms winnerFor) (g.applyFacts {}) = g.resolve {} terms winnerFor := by
  have hchain := resolve_chain g terms winnerFor
  have hres : g.resolve {} terms winnerFor =
      after.foldl (g.tryGrant terms winnerFor)
        (before.foldl (g.tryGrant terms winnerFor) (g.applyFacts {})) := by
    unfold GatheredLeases.resolve
    rw [hsplit, foldl_append]
  obtain ⟨later, hl, hfrom⟩ := tryGrants_extend g terms winnerFor after
    (before.foldl (g.tryGrant terms winnerFor) (g.applyFacts {}))
  rw [← hres] at hl
  cases hcase : later.getLast? with
  | none =>
    rw [getLast?_eq_none_iff] at hcase
    rw [hcase, append_nil] at hl
    cases hb : before.foldl (g.tryGrant terms winnerFor) (g.applyFacts {})
    cases hr : g.resolve {} terms winnerFor
    rw [hb, hr] at hl
    exact congrArg LeaseRecord.mk hl.symm
  | some e =>
    obtain ⟨x, hx, rfl⟩ := hfrom e (mem_of_getLast? hcase)
    have hlast : (g.resolve {} terms winnerFor).epochs.getLast? =
        some (g.applyFactsTo (openedBy x)) := by
      rw [hl, getLast?_append, hcase]
      rfl
    have hnum := head_number hchain _ (by rw [head?_reverse, hlast])
    have hepoch : (g.applyFactsTo (openedBy x)).epoch = x.epoch := (applyFactsTo_same g _).epoch
    have hle := grantLe_epoch (hafter x hx)
    have hsucc : new.epoch = succ32 (g.applyFactsTo (openedBy x)).epoch := by
      have := (nextEpoch_iff _ _ _).mp hnext
      rw [head?_reverse, hlast] at this
      exact this.2.2
    rw [length_reverse] at hnum
    unfold succ32 at hsucc
    omega

include hkeys hfresh in
theorem resolve_withGrant {boundary : Nat}
    (hunnamed : ∀ f ∈ vals g.facts, f.lease ≠ new.operation)
    (hnew : Admitted terms winnerFor (g.resolve {} terms winnerFor) new boundary)
    (hsmall : (g.resolve {} terms winnerFor).epochs.length < 2 ^ 32) :
    ∃ later, ((withGrant g new).resolve {} terms winnerFor).epochs =
        (g.resolve {} terms winnerFor).epochs ++ openedBy new :: later ∧
      ((∀ x ∈ vals g.grants, x.epoch = succ32 new.epoch → x.grantedAtMs < new.expiresAtMs) →
        later = []) := by
  obtain ⟨before, after, hsplit, hold, hafter⟩ := pending_withGrant hkeys hfresh
  have hrun : (withGrant g new).resolve {} terms winnerFor =
      after.foldl (g.tryGrant terms winnerFor)
        ⟨(g.resolve {} terms winnerFor).epochs ++ [openedBy new]⟩ := by
    have hbefore := tryGrants_before hold hafter hnew.next hsmall
    have hstep := tryGrant_of_admitted (g := g) hnew
    rw [applyFactsTo_unnamed g new hunnamed] at hstep
    rw [← hstep, ← hbefore]
    unfold GatheredLeases.resolve
    rw [hsplit, foldl_append, foldl_cons]
    rfl
  rw [hrun]
  obtain ⟨later, hl, -⟩ := tryGrants_extend g terms winnerFor after
    ⟨(g.resolve {} terms winnerFor).epochs ++ [openedBy new]⟩
  refine ⟨later, by rw [hl]; simp, ?_⟩
  intro hnone
  rw [tryGrants_none] at hl
  · simpa using hl
  · intro x hx boundary' hadm
    have hnext : (⟨(g.resolve {} terms winnerFor).epochs ++ [openedBy new]⟩ : LeaseRecord).nextEpoch =
        some (succ32 new.epoch, new.expiresAtMs) := by
      unfold LeaseRecord.nextEpoch
      rw [getLast?_append]
      rfl
    have heq := hnext.symm.trans hadm.next
    simp only [some.injEq, Prod.mk.injEq] at heq
    have hmem : x ∈ vals g.grants := by
      rw [← mem_pending, hold]
      exact mem_append_right _ hx
    have hlt := hnone x hmem heq.1.symm
    have hge := hadm.after
    omega

end Insert

/-! ## One more operation -/

def MeshEvent.namedLease : MeshEvent → Option LeaseId
  | .leaseHeartbeat _ lease _ _ => some lease
  | .leaseReleased _ lease _ _ => some lease
  | .leaseRevokedByOwner _ lease _ _ => some lease
  | .jobCompletedUnderLease _ lease _ _ => some lease
  | _ => none

def FreshIn (mesh : Bytes32) (ops : List Operation) (hash : Bytes32) : Prop :=
  ∀ op ∈ ops, op.hash ≠ hash ∧ ∀ event, eventFor mesh op = some event → event.namedLease ≠ some hash

section Board

variable {mesh : Bytes32} {ops : List Operation} {id : JobId} {hash : Bytes32}
variable {op : Operation}

theorem factOn_named {k : Bytes32} {f : LeaseFact}
    (h : factOn mesh id op = some (k, f)) :
    ∃ event, eventFor mesh op = some event ∧ event.namedLease = some f.lease := by
  unfold factOn at h
  split at h
  all_goals first
    | (rename_i he
       split at h
       · obtain ⟨-, rfl⟩ := h
         exact ⟨_, he, rfl⟩
       · simp at h)
    | simp at h

theorem admitted_facts (g : GatheredJobLeases) (spec : JobSpec) :
    (g.admitted spec).facts =
      g.facts.insertMany (g.completions.toList.filterMap
        (fun p => if p.2.output.honours spec then some (p.1, GatheredJobLeases.completionEnd p.1 p.2)
          else none)) := by
  apply foldl_view _ (fun m => m)
  intro m p
  split <;> rfl

theorem unnamed_facts (hfresh : FreshIn mesh ops hash) (spec : JobSpec) :
    ∀ f ∈ vals ((leasesIn mesh ops id).admitted spec).facts, f.lease ≠ hash := by
  intro f hf hlease
  obtain ⟨k, hk⟩ := (mem_vals _ _).mp hf
  rw [admitted_facts, getElem?_insertMany, or_eq_some_iff] at hk
  rcases hk with hk | ⟨-, hk⟩
  · obtain ⟨p, hp, hview⟩ := mem_filterMap.mp ((mem_valuesAt _ _ _).mp (mem_of_getLast? hk))
    split at hview
    · obtain ⟨-, rfl⟩ := hview
      rw [mem_toList_iff_getElem?_eq_some] at hp
      obtain ⟨op, hop, hc⟩ := mem_filterMap.mp (mem_of_getElem?_insertMany hp)
      exact (hfresh op hop).2 _ (completionOn_event hc).2 (congrArg some hlease)
    · simp at hview
  · obtain ⟨op, hop, hfact⟩ := mem_filterMap.mp (mem_of_getElem?_insertMany hk)
    obtain ⟨event, he, hname⟩ := factOn_named hfact
    exact (hfresh op hop).2 event he (hname.trans (congrArg some hlease))

theorem grants_fresh (hfresh : FreshIn mesh ops hash) :
    (leasesIn mesh ops id).grants[hash]? = none := by
  cases h : (leasesIn mesh ops id).grants[hash]? with
  | none => rfl
  | some x =>
    obtain ⟨op, hop, hview⟩ := mem_filterMap.mp (mem_of_getElem?_insertMany h)
    exact absurd (grantOn_key mesh id op hview).1.symm (hfresh op hop).1

theorem factsIn_grant {epoch grantedAtMs expiresAtMs : Nat}
    (hev : eventFor mesh op = some (.leaseGranted id epoch grantedAtMs expiresAtMs)) (post : Posted) :
    factsIn mesh (ops ++ [op]) id post =
      { factsIn mesh ops id post with
        leases := { leasesIn mesh ops id with
          grants := (leasesIn mesh ops id).grants.insert op.hash
            ⟨op.hash, op.author, epoch, grantedAtMs, expiresAtMs⟩ } } := by
  unfold factsIn claimsIn resultsIn leasesIn
  simp only [filterMap_append, insertMany_append, filterMap_cons,
    filterMap_nil, claimOn, resultOn, grantOn, factOn, completionOn, hev, if_true,
    insertMany_nil, insertMany_list_singleton]

theorem postsIn_grant {epoch grantedAtMs expiresAtMs : Nat}
    (hev : eventFor mesh op = some (.leaseGranted id epoch grantedAtMs expiresAtMs)) :
    postsIn mesh (ops ++ [op]) = postsIn mesh ops := by
  unfold postsIn
  simp only [filterMap_append, insertMany_append, filterMap_cons,
    filterMap_nil, postOf, hev, insertMany_nil]

end Board

/-! ## The worker's grant -/

/-- `next_holder` is the winner that the fold will compute for a grant dated now. -/
theorem nextHolder_wins (f : JobFacts) (id : JobId) (nowMs : Nat) (me : Bytes32)
    (h : (f.job id).nextHolder nowMs = some me) :
    ∃ next fromMs, f.lease.nextEpoch = some (next, fromMs) ∧ fromMs ≤ nowMs ∧
      GatheredJobLeases.winnerIn f.claims fromMs nowMs = some me := by
  change (f.nextClaimants.find? _).map _ = _ at h
  unfold JobFacts.nextClaimants at h
  split at h
  · rename_i _ next fromMs _ hnext
    rw [find?_map, find?_filter] at h
    simp only [Option.map_map, Function.comp_def, decide_eq_true_eq, Bool.decide_and] at h
    obtain ⟨c, hfind, hauthor⟩ := map_eq_some_iff.mp h
    have hc := List.find?_some hfind
    simp only [Bool.and_eq_true, decide_eq_true_eq] at hc
    refine ⟨next, fromMs, hnext, by omega, ?_⟩
    unfold GatheredJobLeases.winnerIn
    rw [hfind]
    exact congrArg some hauthor
  · simp at h

variable {mesh : Bytes32} {ops : List Operation} {id : JobId}

theorem post_valid {post : Posted}
    {spec : JobSpec} (h : (postsIn mesh ops)[id]? = some post) (hs : post.spec = some spec) :
    spec.validate = .ok () := by
  obtain ⟨op, -, hview⟩ := mem_filterMap.mp (mem_of_getElem?_insertMany h)
  unfold postOf at hview
  split at hview
  · simp only [some.injEq, Prod.mk.injEq] at hview
    simp [← hview.2] at hs
  · rename_i spec' _ _ _
    split at hview
    · rename_i hok
      simp only [some.injEq, Prod.mk.injEq] at hview
      rw [← hview.2] at hs
      obtain rfl := some.inj hs
      cases hv : spec'.validate with
      | ok _ => rfl
      | error e => simp [hv, Except.isOk, Except.toBool] at hok
    · simp at hview
  · simp at hview

theorem grant_of_nextAction {me : Bytes32} {offer : HostOffer} {epoch grantedAtMs expiresAtMs : Nat}
    (h : nextAction (JobBoard.fold mesh ops) me offer = .grant id epoch grantedAtMs expiresAtMs) :
    ∃ post spec terms, (postsIn mesh ops)[id]? = some post ∧ post.spec = some spec ∧
      spec.lease = some terms ∧ grantedAtMs = offer.nowMs ∧
      expiresAtMs = satAdd offer.nowMs terms.maxDurationMs ∧
      ((factsIn mesh ops id post).job id).nextHolder offer.nowMs = some me ∧
      (phaseAt (factsIn mesh ops id post).lease (some terms) offer.nowMs offer.lease).openEpoch =
        some epoch := by
  rcases nextAction_cases (JobBoard.fold mesh ops) me offer with hi | ⟨p, hp, hc⟩
  · simp [h] at hi
  rw [h] at hc
  rcases hc with ⟨reason, -, hr⟩ | hb | he | ⟨-, hg | hc⟩
  · obtain ⟨lease, heq⟩ := reclaimRung_returns hr; simp at heq
  · obtain ⟨lease, heq⟩ := heartbeatRung_returns hb; simp at heq
  · have heq := (executeRung_returns he).1; simp at heq
  · obtain ⟨n, terms, hopen, hterms, hholder, heq⟩ := grantRung_returns hg
    obtain ⟨job, hj, rfl⟩ := mem_phases.mp hp
    obtain ⟨k, hk⟩ := (mem_vals _ _).mp hj
    obtain rfl := fold_filed mesh ops k job hk
    rw [fold_jobs, map_eq_some_iff] at hk
    obtain ⟨post, hpost, hjob⟩ := hk
    obtain ⟨rfl, rfl, rfl, rfl⟩ := heq
    obtain ⟨spec, hs, ht⟩ := bind_eq_some_iff.mp hterms
    rw [← hjob] at hs hopen hholder
    refine ⟨post, spec, terms, hpost, hs, ht, rfl, rfl, hholder, ?_⟩
    have hterms' : ((factsIn mesh ops job.id post).job job.id).leaseTerms = some terms := by
      rw [hjob]; exact hterms
    unfold Job.leaseAt at hopen
    rw [hterms'] at hopen
    exact hopen
  · have heq := claimRung_returns hc; simp at heq

def idleDesktop : HostOffer where
  registry := echoHost
  facts := ⟨4096, false⟩
  policy := .permissive
  conditions := .spare
  nowMs := 5
  lease := {}
  running := []

def claimedEcho : List Operation :=
  [signed 7 10 1 0 (.jobPostedV2 (echoSpec (some minuteTerms)) 0 0),
    signed 7 11 2 0 (.jobClaimed 10 1)]

-- Author 3 signs epoch 1 ahead of time, and claims inside the window that epoch 0 will leave.
def futureGrant : List Operation :=
  claimedEcho ++
    [signed 7 12 3 0 (.jobClaimed 10 150000), signed 7 13 3 1 (.leaseGranted 10 1 200000 230000)]

def desktopGrant : Operation := signed 7 14 2 1 (.leaseGranted 10 0 5 60005)

theorem futureGrant_fresh : FreshIn 7 futureGrant 14 := by
  intro op hop
  simp only [futureGrant, claimedEcho, cons_append, nil_append, mem_cons,
    not_mem_nil, or_false] at hop
  rcases hop with rfl | rfl | rfl | rfl <;>
    exact ⟨by decide, by intro event h; cases h; decide⟩

end Mere.Mesh
