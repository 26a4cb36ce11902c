import Mere.Mesh.Gather
import Mere.Mesh.LeaseSpec

/-!
# What a committed job shows

The output of a leased job is looked up among all the completions of the closing epoch's holder.
-/

namespace Mere.Mesh

open OrdMap List Option

theorem JobOutput.honours_iff (o : JobOutput) (spec : JobSpec) :
    o.honours spec = true ↔ o.validateAgainst spec = .ok () := by
  unfold JobOutput.honours
  cases o.validateAgainst spec <;> simp [Except.isOk, Except.toBool]

/-! ## From the maps back to the operations -/

section Source

variable {mesh : Bytes32} {ops : List Operation} {id : JobId}

theorem mem_of_getElem?_insertMany {V : Type} {l : List (Bytes32 × V)} {k : Bytes32} {v : V}
    (h : ((∅ : OrdMap Bytes32 V).insertMany l)[k]? = some v) : (k, v) ∈ l := by
  rw [getElem?_insertMany, Std.ExtTreeMap.getElem?_empty, or_none] at h
  exact (mem_valuesAt l k v).mp (mem_of_getLast? h)

theorem resultOn_committed {op : Operation} {author : Bytes32} {output : JobOutput}
    (h : resultOn mesh id op = some (author, .committed output)) :
    op.author = author ∧ ∃ atMs, eventFor mesh op = some (.jobDoneV2 id output atMs) := by
  unfold resultOn at h
  split at h
  · split at h <;> simp at h
  · rename_i j o atMs he
    split at h
    · rename_i hj
      obtain ⟨rfl, rfl⟩ := h
      subst hj
      exact ⟨rfl, atMs, he⟩
    · simp at h
  · simp at h

theorem completionOn_event {op : Operation} {key : Bytes32} {c : CompletionFact}
    (h : completionOn mesh id op = some (key, c)) :
    op.author = c.author ∧
      eventFor mesh op = some (.jobCompletedUnderLease id c.lease c.output c.atMs) := by
  unfold completionOn at h
  split at h
  · rename_i j lease output atMs he
    split at h
    · rename_i hj
      obtain ⟨-, rfl⟩ := h
      subst hj
      exact ⟨rfl, he⟩
    · simp at h
  · simp at h

theorem grants_keyed (k : Bytes32) (x : GrantFact)
    (h : (leasesIn mesh ops id).grants[k]? = some x) : x.operation = k := by
  obtain ⟨op, -, hview⟩ := mem_filterMap.mp (mem_of_getElem?_insertMany h)
  obtain ⟨hk, hop, -⟩ := grantOn_key mesh id op hview
  rw [hop, hk]

end Source

/-! ## The closing epoch -/

/-- The completion is the holder's and names the epoch's lease. Its date and its output are
not looked at. -/
def CompletionFact.Under (c : CompletionFact) (epoch : LeaseEpoch) : Prop :=
  c.lease = epoch.lease ∧ c.author = epoch.holder

def FirstCompletion (g : GatheredJobLeases) (epoch : LeaseEpoch) (c : CompletionFact) : Prop :=
  ∃ hash : Bytes32, g.completions[hash]? = some c ∧ c.Under epoch ∧
    ∀ (hash' : Bytes32) c', g.completions[hash']? = some c' → c'.Under epoch → hash ≤ hash'

theorem completionOf_iff (g : GatheredJobLeases) (epoch : LeaseEpoch) (c : CompletionFact) :
    g.completionOf epoch = some c ↔ FirstCompletion g epoch c := by
  unfold GatheredJobLeases.completionOf FirstCompletion CompletionFact.Under
  rw [find_vals]
  simp only [Bool.and_eq_true, beq_iff_eq]

theorem FirstCompletion.congr {g : GatheredJobLeases} {a b : LeaseEpoch} (h : SameGrant a b)
    (c : CompletionFact) : FirstCompletion g b c ↔ FirstCompletion g a c := by
  unfold FirstCompletion CompletionFact.Under
  rw [h.lease, h.holder]

theorem completedOutput_iff (g : GatheredJobLeases) (r : LeaseRecord) (holder : Bytes32)
    (output : JobOutput) :
    g.completedOutput r = some (holder, output) ↔
      ∃ epoch c, r.epochs.find? LeaseEpoch.isFinal = some epoch ∧ FirstCompletion g epoch c ∧
        epoch.holder = holder ∧ c.output = output := by
  simp only [← completionOf_iff]
  unfold GatheredJobLeases.completedOutput
  cases r.epochs.find? LeaseEpoch.isFinal with
  | none => simp
  | some epoch => simp

theorem JobFacts.committed_iff_of_leased (f : JobFacts) (spec : JobSpec) (terms : LeaseTerms)
    (hs : f.post.spec = some spec) (ht : spec.lease = some terms) (winner : Bytes32)
    (output : JobOutput) :
    f.state = .committed winner output ↔ f.leases.completedOutput f.lease = some (winner, output) := by
  rw [f.state_of_leased spec terms hs ht]
  cases f.leases.completedOutput f.lease with
  | some done => simp [Prod.ext_iff]
  | none => cases f.lease.current <;> cases f.winner <;> simp

theorem find_final_last {earlier : List LeaseEpoch} {e : LeaseEpoch}
    (h : ∀ x ∈ earlier, x.isFinal = false) (hf : e.isFinal = true) :
    (earlier ++ [e]).find? LeaseEpoch.isFinal = some e := by
  have hnone : earlier.find? LeaseEpoch.isFinal = none :=
    find?_eq_none.mpr (fun x hx => by simp [h x hx])
  rw [find?_append, hnone, none_or, find?_singleton, if_pos hf]

theorem Chain.find_final {terms : LeaseTerms} {winnerFor : Nat → Nat → Option Bytes32}
    {epochs : List LeaseEpoch} (h : Chain terms winnerFor epochs.reverse) {e : LeaseEpoch}
    (he : e ∈ epochs) (hf : e.isFinal = true) : epochs.find? LeaseEpoch.isFinal = some e := by
  obtain ⟨earlier, rfl, hopen⟩ := h.split_final he hf
  exact find_final_last hopen hf

section Leased

variable (mesh : Bytes32) (ops : List Operation) (id : JobId) {post : Posted} {spec : JobSpec}
  {terms : LeaseTerms} (hs : post.spec = some spec) (ht : spec.lease = some terms)
include hs ht

theorem factsIn_chain :
    Chain terms (GatheredJobLeases.winnerIn (claimsIn mesh ops id))
      (factsIn mesh ops id post).lease.epochs.reverse := by
  rw [JobFacts.lease_of_leased _ spec terms hs ht]
  exact resolve_chain _ _ _

theorem factsIn_determined (epoch : LeaseEpoch) :
    epoch ∈ (factsIn mesh ops id post).lease.epochs ↔
      ∃ n, Determined ((leasesIn mesh ops id).admitted spec) terms
        (GatheredJobLeases.winnerIn (claimsIn mesh ops id)) n epoch := by
  rw [JobFacts.lease_of_leased _ spec terms hs ht, mem_iff_getElem?]
  exact exists_congr (fun n => resolve_determined grants_keyed n epoch)

end Leased

/-! ## Committed states -/

/-- The list holds a completion for the epoch: its holder's, under its lease, inside its window. -/
def CompletedBy (mesh : Bytes32) (ops : List Operation) (id : JobId) (epoch : LeaseEpoch)
    (output : JobOutput) : Prop :=
  ∃ op ∈ ops, ∃ atMs, op.author = epoch.holder ∧ epoch.covers atMs = true ∧
    eventFor mesh op = some (.jobCompletedUnderLease id epoch.lease output atMs)

structure Honoured (mesh : Bytes32) (ops : List Operation) (job : Job) (winner : Bytes32)
    (output : JobOutput) (spec : JobSpec) : Prop where
  spec_eq : job.spec = some spec
  honours : output.validateAgainst spec = .ok ()
  unleased : spec.lease = none →
    ∃ op ∈ ops, op.author = winner ∧ ∃ atMs, eventFor mesh op = some (.jobDoneV2 job.id output atMs)
  leased : spec.lease.isSome = true →
    ∃ epoch ∈ job.lease.epochs, epoch.isFinal = true ∧ epoch.holder = winner ∧
      CompletedBy mesh ops job.id epoch output

/-- The first completion that a closing epoch's holder signed under its lease is one that
closes it, or repeats the output of one that does. -/
def FirstCompletionCounts (mesh : Bytes32) (ops : List Operation) : Prop :=
  ∀ id post spec terms n epoch c, (postsIn mesh ops)[id]? = some post → post.spec = some spec →
    spec.lease = some terms →
    Determined ((leasesIn mesh ops id).admitted spec) terms
      (GatheredJobLeases.winnerIn (claimsIn mesh ops id)) n epoch →
    epoch.isFinal = true → FirstCompletion (leasesIn mesh ops id) epoch c →
    c.output.validateAgainst spec = .ok () ∧ CompletedBy mesh ops id epoch c.output

section Fold

variable (mesh : Bytes32) (ops : List Operation)
variable {id : JobId} {post : Posted}

theorem unleased_honoured {winner : Bytes32} {output : JobOutput}
    (ht : post.spec.bind JobSpec.lease = none)
    (hstate : (factsIn mesh ops id post).state = .committed winner output) :
    ∃ spec, Honoured mesh ops ((factsIn mesh ops id post).job id) winner output spec := by
  have hu := (factsIn mesh ops id post).state_of_unleased ht
  rw [hu] at hstate
  cases hw : (factsIn mesh ops id post).winner with
  | none => rw [hw] at hstate; simp at hstate
  | some w =>
    rw [hw] at hstate
    change post.resolve w (resultsIn mesh ops id)[w]? = _ at hstate
    unfold Posted.resolve at hstate
    split at hstate
    · simp at hstate
    · rename_i o spec hres hspec
      split at hstate
      · rename_i hgood
        simp only [JobState.committed.injEq] at hstate
        obtain ⟨rfl, rfl⟩ := hstate
        simp only [Bool.and_eq_true, isNone_iff_eq_none] at hgood
        obtain ⟨op, hop, hview⟩ := mem_filterMap.mp (mem_of_getElem?_insertMany hres)
        obtain ⟨hauthor, hevent⟩ := resultOn_committed hview
        refine ⟨spec, hspec, (o.honours_iff spec).mp hgood.2, fun _ => ⟨op, hop, hauthor, hevent⟩, ?_⟩
        intro h
        simp [hgood.1] at h
      · simp at hstate
    · simp at hstate

theorem leased_state {spec : JobSpec} {terms : LeaseTerms}
    (hs : post.spec = some spec) (ht : spec.lease = some terms) (winner : Bytes32)
    (output : JobOutput) :
    (factsIn mesh ops id post).state = .committed winner output ↔
      ∃ epoch ∈ (factsIn mesh ops id post).lease.epochs, epoch.isFinal = true ∧
        epoch.holder = winner ∧
        ∃ c, FirstCompletion (leasesIn mesh ops id) epoch c ∧ c.output = output := by
  have hstate := (factsIn mesh ops id post).committed_iff_of_leased spec terms hs ht winner output
  rw [hstate, completedOutput_iff]
  constructor
  · rintro ⟨epoch, c, hfind, hc, hh, ho⟩
    exact ⟨epoch, mem_of_find?_eq_some hfind, find?_some hfind, hh, c, hc, ho⟩
  · rintro ⟨epoch, hmem, hf, hh, c, hc, ho⟩
    exact ⟨epoch, c, (factsIn_chain mesh ops id hs ht).find_final hmem hf, hc, hh, ho⟩

theorem committed_honoured_iff :
    (∀ (id : JobId) job winner output, (JobBoard.fold mesh ops).jobs[id]? = some job →
      job.state = .committed winner output → ∃ spec, Honoured mesh ops job winner output spec) ↔
      FirstCompletionCounts mesh ops := by
  constructor
  · intro h id post spec terms n epoch c hpost hs ht hdet hf hc
    have hmem := (factsIn_determined mesh ops id hs ht epoch).mpr ⟨n, hdet⟩
    have hstate := (leased_state mesh ops hs ht epoch.holder c.output).mpr
      ⟨epoch, hmem, hf, rfl, c, hc, rfl⟩
    have hjob : (JobBoard.fold mesh ops).jobs[id]? = some ((factsIn mesh ops id post).job id) := by
      rw [fold_jobs, hpost, map_some]
    obtain ⟨spec', hon⟩ := h id _ epoch.holder c.output hjob hstate
    obtain rfl : spec = spec' := some.inj (hs.symm.trans hon.spec_eq)
    obtain ⟨epoch', hmem', hf', -, hdone⟩ := hon.leased (by rw [ht]; rfl)
    have hchain := factsIn_chain mesh ops id hs ht
    have heq := (hchain.find_final hmem hf).symm.trans (hchain.find_final hmem' hf')
    obtain rfl := some.inj heq
    exact ⟨hon.honours, hdone⟩
  · intro h id job winner output hjob hstate
    rw [fold_jobs, map_eq_some_iff] at hjob
    obtain ⟨post, hpost, rfl⟩ := hjob
    cases hterms : post.spec.bind JobSpec.lease with
    | none => exact unleased_honoured mesh ops hterms hstate
    | some terms =>
      obtain ⟨spec, hs, ht⟩ := bind_eq_some_iff.mp hterms
      obtain ⟨epoch, hmem, hf, hh, c, hc, rfl⟩ := (leased_state mesh ops hs ht winner output).mp hstate
      obtain ⟨n, hdet⟩ := (factsIn_determined mesh ops id hs ht epoch).mp hmem
      obtain ⟨hgood, hdone⟩ := h id post spec terms n epoch c hpost hs ht hdet hf hc
      refine ⟨spec, hs, hgood, ?_, fun _ => ⟨epoch, hmem, hf, hh, hdone⟩⟩
      intro hnone
      simp [ht] at hnone

end Fold

/-! ## A completion that breaks the grant, signed beside one that keeps it -/

def echoSpec (lease : Option LeaseTerms) : JobSpec :=
  ⟨legacyResourceId .echo, [], ⟨[111], 64⟩, ⟨0, .cpu⟩, .exact, .restart, lease⟩

def echoOutput (byteLen : Nat) : JobOutput :=
  ⟨[111], ⟨⟨.blake3, List.replicate 32 0⟩, byteLen⟩, legacyResourceId .echo,
    ⟨[101, 47, 118, 49]⟩, .exactBytes⟩

def minuteTerms : LeaseTerms := ⟨60000, 10000, 3⟩

def twoCompletions : List Operation :=
  [signed 7 10 1 0 (.jobPostedV2 (echoSpec (some minuteTerms)) 0 0),
    signed 7 11 2 0 (.jobClaimed 10 1), signed 7 12 2 1 (.leaseGranted 10 0 5 100),
    signed 7 14 2 2 (.jobCompletedUnderLease 10 12 (echoOutput 64) 50),
    signed 7 13 2 3 (.jobCompletedUnderLease 10 12 (echoOutput 65) 50)]

theorem committed_breaks_grant :
    (∀ op ∈ twoCompletions, (eventFor 7 op).isSome) ∧
      (JobBoard.fold 7 twoCompletions).jobs[(10 : JobId)]?.map (fun job => (job.spec, job.state)) =
        some (some (echoSpec (some minuteTerms)), .committed 2 (echoOutput 65)) ∧
      (echoOutput 65).validateAgainst (echoSpec (some minuteTerms)) = .error (.overGrant 65 64) := by
  refine ⟨?_, ?_, ?_⟩ <;> decide

end Mere.Mesh
