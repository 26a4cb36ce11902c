import Mere.Gemot.Store

/-!
# Stores that hear the same

A store refuses what it cannot place yet and is offered it again. Two stores that were offered the
same operations until nothing more was accepted hold the same law, as long as nothing came late.
-/

namespace Mere.Gemot

open List Option

variable {Clauses : Type} {hashing : Hashing Clauses} {mootId founder : Bytes32}
  {ops corpus held : List (Operation Clauses)} {s : ConstitutionStore Clauses}

theorem Acyclic.mono (hsub : ops ⊆ corpus) (h : Acyclic hashing corpus) : Acyclic hashing ops := by
  intro revision hcycle
  refine h revision (Relation.TransGen.mono ?_ _ _ hcycle)
  rintro _ _ ⟨op, hop, hrest⟩
  exact ⟨op, hsub hop, hrest⟩

theorem pairwise_history (hacyclic : Acyclic hashing ops) :
    (Constitution.history hashing mootId founder ops).Pairwise (fun a b => a.revision ≠ b.revision) := by
  unfold Constitution.history
  cases founded hashing mootId founder ops with
  | none => exact .nil
  | some start => exact pairwise_trail.imp fun h => revision_ne hacyclic h

theorem history_of_founded {start : Constitution Clauses}
    (h : founded hashing mootId founder ops = some start) :
    Constitution.history hashing mootId founder ops =
      trail (advance hashing (candidates hashing mootId ops))
        (candidates hashing mootId ops).length start := by
  unfold Constitution.history
  rw [h, map_some, getD_some]

theorem advance_congr {state : Constitution Clauses}
    (h : ops.Pairwise (fun a b => a.hash ≠ b.hash))
    (h' : corpus.Pairwise (fun a b => a.hash ≠ b.hash))
    (hsame : ∀ op rules, Signs hashing mootId state op rules → (op ∈ ops ↔ op ∈ corpus)) :
    advance hashing (candidates hashing mootId ops) state =
      advance hashing (candidates hashing mootId corpus) state := by
  unfold advance acceptedAmendment
  rw [signed_congr h h' hsame]

theorem isPrefix_unique {α β : Type} {key : α → β} {l before before' : List α} {a a' : α}
    (hl : l.Pairwise (fun a b => key a ≠ key b)) (h : before ++ [a] <+: l)
    (h' : before' ++ [a'] <+: l) (hkey : key a = key a') : before ++ [a] = before' ++ [a'] := by
  have hlonger {x y : List α} {b b' : α} (hxy : x ++ [b] <+: y ++ [b']) (hy : y ++ [b'] <+: l)
      (hb : key b = key b') : x ++ [b] = y ++ [b'] := by
    rcases prefix_concat_iff.mp hxy with heq | hx
    · exact heq
    · have hpairs := pairwise_append.mp (hl.sublist hy.sublist)
      exact absurd hb (hpairs.2.2 b (hx.subset (by simp)) b' (by simp))
  rcases prefix_or_prefix_of_prefix h h' with hle | hle
  · exact hlonger hle h' hkey
  · exact (hlonger hle h hkey.symm).symm

namespace ConstitutionStore

namespace Grown

variable {before : List (Operation Clauses)} {op : Operation Clauses}

variable (h : Grown hashing mootId founder held)
include h

theorem of_isPrefix (hbefore : before ++ [op] <+: held) :
    Grown hashing mootId founder before ∧ Acceptable hashing ⟨mootId, founder, before⟩ op := by
  induction h with
  | empty => exact absurd (prefix_nil.mp hbefore) (by simp)
  | insert hgrown hop ih =>
    rcases prefix_concat_iff.mp hbefore with heq | hbefore
    · obtain ⟨rfl, hsame⟩ := append_inj' heq rfl
      obtain rfl := singleton_inj.mp hsame
      exact ⟨hgrown, hop⟩
    · exact ih hbefore

theorem amends_last (hne : held ≠ []) (hop : Acceptable hashing ⟨mootId, founder, held⟩ op) :
    ∃ law rules rulesHash atMs,
      (Constitution.history hashing mootId founder held).getLast? = some law ∧
      op.event = some (.amended law.revision rules rulesHash atMs) ∧
      authorizeGoverned op.author law = true := by
  rcases (Grown.insert h hop).founding with hempty | ⟨genesis, rest, start, heq, -, hrest⟩
  · exact absurd hempty (by simp)
  obtain ⟨first, tail, rfl⟩ := exists_cons_of_ne_nil hne
  obtain ⟨rfl, rfl⟩ := List.cons.inj heq
  obtain ⟨previous, rules, rulesHash, atMs, hevent⟩ := hrest op (by simp)
  obtain ⟨event, hevent', hgovern⟩ := hop.governed
  obtain rfl := some.inj (hevent.symm.trans hevent')
  obtain ⟨law, hlaw, rfl, hauthorized⟩ := govern_amended.mp hgovern
  refine ⟨law, rules, rulesHash, atMs, ?_, hevent, hauthorized⟩
  rw [Constitution.getLast?_history, ← h.constitution_eq, hlaw]

variable {rest : List (Operation Clauses)}

theorem founded_eq_some {genesis : Operation Clauses} (hheld : held = genesis :: rest) :
    ∃ start, Founds hashing mootId founder genesis start ∧
      founded hashing mootId founder held = some start := by
  subst hheld
  rcases h.founding with hempty | ⟨_, _, start, heq, hfounds, hrest⟩
  · cases hempty
  · obtain ⟨rfl, rfl⟩ := List.cons.inj heq
    exact ⟨start, hfounds, founded_cons hfounds hrest⟩

theorem history_insert
    (hop : Acceptable hashing ⟨mootId, founder, held⟩ op) (hacyclic : Acyclic hashing held) :
    Constitution.history hashing mootId founder held <+:
      Constitution.history hashing mootId founder (held ++ [op]) := by
  have hgrown := Grown.insert h hop
  cases hheld : held with
  | nil => exact nil_prefix
  | cons genesis rest =>
    rw [← hheld]
    obtain ⟨law, rules, rulesHash, atMs, hlast, hevent, -⟩ :=
      h.amends_last (by rw [hheld]; exact cons_ne_nil _ _) hop
    obtain ⟨start, hfounds, hstart⟩ := h.founded_eq_some hheld
    obtain ⟨start', hfounds', hstart'⟩ := hgrown.founded_eq_some (by rw [hheld]; rfl)
    obtain rfl := hfounds.unique hfounds'
    rw [history_of_founded hstart] at hlast ⊢
    rw [history_of_founded hstart']
    rw [getLast?_trail, some.injEq] at hlast
    have hnodup : held.Nodup := h.distinct.imp fun hne heq => hne (congrArg Operation.hash heq)
    have hlength := @length_candidates_le _ hashing mootId _ _ hnodup
      (subset_append_left held [op])
    refine trail_isPrefix hlength fun state next hstate _ hnext => ?_
    -- A law that was left is not the last one, so the new operation is not about it.
    have hbefore : state.revision ≠ law.revision := by
      rw [← hlast]
      have hreaches := reaches_settle hstate
      rcases Relation.reflTransGen_iff_eq_or_transGen.mp hreaches with heq | htrans
      · have hstopped := advance_settle hacyclic start
          (le_refl (candidates hashing mootId held).length)
        rw [heq, hnext] at hstopped
        cases hstopped
      · exact revision_ne hacyclic htrans
    rw [← hnext]
    refine (advance_congr h.distinct hgrown.distinct fun op' rules' hsigns => ?_).symm
    refine ⟨fun hop' => mem_append_left _ hop', fun hop' => ?_⟩
    rcases mem_append.mp hop' with hop' | hop'
    · exact hop'
    · obtain ⟨atMs', hevent'⟩ := hsigns.signed
      rw [mem_singleton.mp hop', hevent] at hevent'
      exact absurd (ConstitutionEvent.amended.inj (some.inj hevent')).1.symm hbefore

theorem history_mono (hacyclic : Acyclic hashing held) (hbefore : before <+: held) :
    Constitution.history hashing mootId founder before <+:
      Constitution.history hashing mootId founder held := by
  induction h with
  | empty =>
    rw [prefix_nil.mp hbefore]
  | @insert held op hgrown hop ih =>
    have hacyclic' := hacyclic.mono (subset_append_left held [op])
    rcases prefix_concat_iff.mp hbefore with rfl | hbefore
    · exact prefix_rfl
    · exact (ih hacyclic' hbefore).trans (hgrown.history_insert hop hacyclic')

end Grown

/-! ## Late deliveries -/

variable (hashing) in
/-- The store is founded already, or has left the law that the event amends. -/
def passed (s : ConstitutionStore Clauses) (author : Bytes32) : ConstitutionEvent Clauses → Bool
  | .genesis _ _ _ _ _ _ _ => (s.constitution hashing).isSome
  | .amended previous _ _ _ =>
    (Constitution.history hashing s.mootId s.founder s.held).dropLast.any fun law =>
      law.revision = previous ∧ authorizeGoverned author law

variable (hashing) in
/-- The operation is sound, but the store will never accept it: it has passed it, or holds
another operation at that place of the author's log. -/
def Late (s : ConstitutionStore Clauses) (op : Operation Clauses) : Prop :=
  s.hasOperation op.hash = false ∧ s.preflight hashing op = .ok () ∧
    (op.event.any (s.passed hashing op.author) = true ∨
      ∃ held ∈ s.held, held.author = op.author ∧ op.seqNum ≤ held.seqNum)

instance decidableLate (s : ConstitutionStore Clauses) (op : Operation Clauses) :
    Decidable (Late hashing s op) := inferInstanceAs (Decidable (_ ∧ _))

variable (hashing) in
def deliver (s : ConstitutionStore Clauses) (op : Operation Clauses) :
    Option (ConstitutionStore Clauses) :=
  some (s.accept hashing op).2

variable (hashing) in
def OnTime (ops : List (Operation Clauses)) (s : ConstitutionStore Clauses)
    (op : Operation Clauses) : Prop :=
  op ∈ ops ∧ ¬Late hashing s op

variable (hashing) in
/-- Everything was offered once more, on time, and nothing was accepted. -/
def Settled (ops : List (Operation Clauses)) (s : ConstitutionStore Clauses) : Prop :=
  ∀ op ∈ ops, OnTime hashing ops s op ∧ (s.accept hashing op).2 = s

theorem Settled.not_acceptable (h : Settled hashing ops s)
    {op : Operation Clauses} (hop : op ∈ ops) : ¬s.Acceptable hashing op := by
  intro hacceptable
  have hsame := (h op hop).2
  rw [accept_of hacceptable] at hsame
  have hlength := congrArg (fun s : ConstitutionStore Clauses => s.held.length) hsame
  simp [insert] at hlength

structure Rested (hashing : Hashing Clauses) (mootId founder : Bytes32)
    (ops held : List (Operation Clauses)) : Prop where
  grown : Grown hashing mootId founder held
  sub : held ⊆ ops
  settled : Settled hashing ops ⟨mootId, founder, held⟩

/-! ## Two stores -/

section Two

variable {held₁ held₂ before : List (Operation Clauses)} {op : Operation Clauses}
  (hhash : ∀ a ∈ ops, ∀ b ∈ ops, a.hash = b.hash → a = b)

theorem Fits.of_subset (h : Fits ⟨mootId, founder, before⟩ op) (hsub : before ⊆ held)
    (hgrown : Grown hashing mootId founder held)
    (hlate : ∀ a ∈ held, a.author = op.author → a.seqNum < op.seqNum) :
    Fits ⟨mootId, founder, held⟩ op := by
  unfold Fits at h ⊢
  cases hlatest : latest ⟨mootId, founder, held⟩ op.author with
  | none =>
    cases hbefore : latest ⟨mootId, founder, before⟩ op.author with
    | none =>
      rw [hbefore] at h
      exact h
    | some previous =>
      obtain ⟨hmem, hauthor, -⟩ := latest_some hbefore
      exact absurd hauthor (latest_none hlatest previous (hsub hmem))
  | some last =>
    obtain ⟨hlast, hauthor, hmax⟩ := latest_some hlatest
    have hlt := hlate last hlast hauthor
    cases hbefore : latest ⟨mootId, founder, before⟩ op.author with
    | none =>
      rw [hbefore] at h
      omega
    | some previous =>
      rw [hbefore] at h
      obtain ⟨hmem, hauthor', -⟩ := latest_some hbefore
      have hle := hmax previous (hsub hmem) hauthor'
      have hseq := (follows_iff.mp h).2.1
      have hsame := hgrown.eq_of_seqNum hlast (hsub hmem) (hauthor.trans hauthor'.symm) (by omega)
      rwa [hsame]

include hhash in
/-- An operation that one store accepted is held by the other, if that one holds all that came
before it and came the same way. -/
theorem Rested.accepted (h : Rested hashing mootId founder ops held)
    (hgrown : Grown hashing mootId founder before) (hsub : before ⊆ held)
    (hhistory : Constitution.history hashing mootId founder before <+:
      Constitution.history hashing mootId founder held)
    (hop : Acceptable hashing ⟨mootId, founder, before⟩ op) (hmem : op ∈ ops) : op ∈ held := by
  by_contra hnot
  have hunheld : hasOperation ⟨mootId, founder, held⟩ op.hash = false := by
    rw [hasOperation_eq_false]
    intro a ha heq
    exact hnot (hhash a (h.sub ha) op hmem heq ▸ ha)
  have hadmitted : preflight hashing ⟨mootId, founder, held⟩ op = .ok () := hop.admitted
  have hontime : ¬Late hashing ⟨mootId, founder, held⟩ op := (h.settled op hmem).1.2
  have hfits : Fits ⟨mootId, founder, held⟩ op := by
    refine hop.fits.of_subset hsub h.grown fun a ha hauthor => ?_
    by_contra hge
    exact hontime ⟨hunheld, hadmitted, .inr ⟨a, ha, hauthor, by omega⟩⟩
  obtain ⟨event, hevent, hgovern⟩ := hop.governed
  suffices hlaw : govern (constitution hashing ⟨mootId, founder, held⟩) op.author event = .ok () by
    exact h.settled.not_acceptable hmem ⟨hunheld, hadmitted, ⟨event, hevent, hlaw⟩, hfits⟩
  cases event with
  | genesis =>
    refine govern_genesis.mpr (not_isSome_iff_eq_none.mp fun hsome => ?_)
    refine hontime ⟨hunheld, hadmitted, .inl ?_⟩
    rw [hevent]
    exact hsome
  | amended previous rules rulesHash atMs =>
    obtain ⟨law, hlaw, rfl, hauthorized⟩ := govern_amended.mp hgovern
    rw [hgrown.constitution_eq, ← Constitution.getLast?_history] at hlaw
    obtain ⟨passed, hpassed⟩ := getLast?_eq_some_iff.mp hlaw
    obtain ⟨after, hafter⟩ := hhistory
    rw [hpassed] at hafter
    -- The law that the operation amends is the last one here too, or the operation is late.
    rcases eq_nil_or_concat after with rfl | ⟨between, last, rfl⟩
    · refine govern_amended.mpr ⟨law, ?_, rfl, hauthorized⟩
      rw [h.grown.constitution_eq, ← Constitution.getLast?_history, ← hafter]
      simp
    · refine absurd ⟨hunheld, hadmitted, .inl ?_⟩ hontime
      have hpast : law ∈ (Constitution.history hashing mootId founder held).dropLast := by
        rw [← hafter, concat_eq_append, ← append_assoc, dropLast_concat]
        simp
      rw [hevent]
      exact any_eq_true.mpr ⟨law, hpast, decide_eq_true ⟨rfl, hauthorized⟩⟩

include hhash in
theorem Rested.holds (h₁ : Rested hashing mootId founder ops held₁)
    (h₂ : Rested hashing mootId founder ops held₂) (hacyclic : Acyclic hashing ops)
    (hbefore : before <+: held₂)
    (hhistory : Constitution.history hashing mootId founder before <+:
      Constitution.history hashing mootId founder held₁) : before ⊆ held₁ := by
  induction before using List.reverseRecOn with
  | nil => exact nil_subset held₁
  | append_singleton before op ih =>
    obtain ⟨hgrown, hop⟩ := h₂.grown.of_isPrefix hbefore
    have hsub : before ++ [op] ⊆ ops := fun _ ha => h₂.sub (hbefore.subset ha)
    have hhistory' := (hgrown.history_insert hop
      (hacyclic.mono fun a ha => hsub (mem_append_left _ ha))).trans hhistory
    have hearlier := ih ((prefix_append before [op]).trans hbefore) hhistory'
    have hmem := h₁.accepted hhash hgrown hearlier hhistory' hop (hsub (by simp))
    exact append_subset.mpr ⟨hearlier, cons_subset.mpr ⟨hmem, nil_subset held₁⟩⟩

include hhash in
theorem Rested.first_mem {genesis : Operation Clauses}
    (h₁ : Rested hashing mootId founder ops held₁)
    (h₂ : Rested hashing mootId founder ops (genesis :: rest)) : genesis ∈ held₁ := by
  obtain ⟨hgrown, hop⟩ := h₂.grown.of_isPrefix (prefix_append ([] ++ [genesis]) rest)
  exact h₁.accepted hhash hgrown (nil_subset held₁) nil_prefix hop
    (h₂.sub mem_cons_self)

include hhash in
/-- Two stores that came the same way to a law hold the same signatures against it. -/
theorem Rested.signers (h₁ : Rested hashing mootId founder ops held₁)
    (h₂ : Rested hashing mootId founder ops held₂) (hacyclic : Acyclic hashing ops)
    {passed : List (Constitution Clauses)} {law : Constitution Clauses}
    (hhistory₁ : passed ++ [law] <+: Constitution.history hashing mootId founder held₁)
    (hhistory₂ : passed ++ [law] <+: Constitution.history hashing mootId founder held₂)
    {rules : ConstitutionRules Clauses} (hsigns : Signs hashing mootId law op rules)
    (hmem : op ∈ held₂) : op ∈ held₁ := by
  obtain ⟨before, after, rfl⟩ := append_of_mem hmem
  have hbefore : before ++ [op] <+: before ++ op :: after := ⟨after, by simp⟩
  have hearlier := (prefix_append before [op]).trans hbefore
  obtain ⟨hgrown, hop⟩ := h₂.grown.of_isPrefix hbefore
  obtain ⟨atMs, hsigned⟩ := hsigns.signed
  obtain ⟨event, hevent, hgovern⟩ := hop.governed
  obtain rfl := some.inj (hsigned.symm.trans hevent)
  obtain ⟨last, hlast, hrevision, -⟩ := govern_amended.mp hgovern
  rw [hgrown.constitution_eq, ← Constitution.getLast?_history] at hlast
  obtain ⟨passed', hpassed'⟩ := getLast?_eq_some_iff.mp hlast
  have hacyclic' := hacyclic.mono h₂.sub
  have hmono := h₂.grown.history_mono hacyclic' hearlier
  rw [hpassed'] at hmono
  have hsame := isPrefix_unique (pairwise_history hacyclic') hhistory₂ hmono hrevision
  rw [hsame, ← hpassed'] at hhistory₁
  have hsub := h₁.holds hhash h₂ hacyclic hearlier hhistory₁
  exact h₁.accepted hhash hgrown hsub hhistory₁ hop (h₂.sub hmem)

include hhash in
theorem Rested.history_eq (h₁ : Rested hashing mootId founder ops held₁)
    (h₂ : Rested hashing mootId founder ops held₂) (hacyclic : Acyclic hashing ops) :
    Constitution.history hashing mootId founder held₁ =
      Constitution.history hashing mootId founder held₂ := by
  rcases h₁.grown.founding with rfl | ⟨genesis, rest, start, rfl, hfounds, hrest⟩
  · cases held₂ with
    | nil => rfl
    | cons genesis rest => exact absurd (h₁.first_mem hhash h₂) not_mem_nil
  have hmem := h₂.first_mem hhash h₁
  rcases h₂.grown.founding with rfl | ⟨genesis', rest', start', rfl, hfounds', hrest'⟩
  · exact absurd hmem not_mem_nil
  obtain rfl : genesis = genesis' := by
    refine (mem_cons.mp hmem).resolve_right fun hmem => ?_
    obtain ⟨_, _, _, _, hamended⟩ := hrest' genesis hmem
    obtain ⟨_, _, _, _, hgenesis, -⟩ := hfounds.event
    rw [hamended] at hgenesis
    cases hgenesis
  obtain rfl := hfounds.unique hfounds'
  have hstart₁ := history_of_founded (Grown.founded_cons hfounds hrest)
  have hstart₂ := history_of_founded (Grown.founded_cons hfounds hrest')
  rw [hstart₁, hstart₂]
  refine trail_eq (advance_settle (hacyclic.mono h₁.sub) start le_rfl)
    (advance_settle (hacyclic.mono h₂.sub) start le_rfl) fun passed law hpassed₁ hpassed₂ => ?_
  rw [← hstart₁] at hpassed₁
  rw [← hstart₂] at hpassed₂
  refine advance_congr h₁.grown.distinct h₂.grown.distinct fun op rules hsigns => ⟨?_, ?_⟩
  · exact h₂.signers hhash h₁ hacyclic hpassed₂ hpassed₁ hsigns
  · exact h₁.signers hhash h₂ hacyclic hpassed₁ hpassed₂ hsigns

end Two

/-! ## Runs -/

theorem Grown.of_reach (h : Reach ⟨mootId, founder, []⟩ (deliver hashing) (OnTime hashing ops) s) :
    ∃ held, s = ⟨mootId, founder, held⟩ ∧ Grown hashing mootId founder held ∧ held ⊆ ops := by
  refine h.invariant (P := fun s => ∃ held, s = ⟨mootId, founder, held⟩ ∧
    Grown hashing mootId founder held ∧ held ⊆ ops) ⟨[], rfl, .empty, nil_subset ops⟩
    fun s s' op ih hontime hstep => ?_
  obtain ⟨held, rfl, hgrown, hsub⟩ := ih
  obtain rfl := some.inj hstep
  rcases @accept_cases Clauses hashing ⟨mootId, founder, held⟩ op with hsame | hop
  · exact ⟨held, hsame, hgrown, hsub⟩
  · refine ⟨held ++ [op], accept_of hop, hgrown.insert hop, ?_⟩
    exact append_subset.mpr ⟨hsub, cons_subset.mpr ⟨hontime.1, nil_subset ops⟩⟩

/-- Two stores that heard the same operations, none of them late, until neither accepted another
are under one law. -/
theorem stores_converge (hashing : Hashing Clauses) (mootId founder : Bytes32)
    (ops : List (Operation Clauses)) (hhash : ∀ a ∈ ops, ∀ b ∈ ops, a.hash = b.hash → a = b)
    (hacyclic : Acyclic hashing ops) (s₁ s₂ : ConstitutionStore Clauses)
    (hrun₁ : Reach ⟨mootId, founder, []⟩ (deliver hashing) (OnTime hashing ops) s₁)
    (hrun₂ : Reach ⟨mootId, founder, []⟩ (deliver hashing) (OnTime hashing ops) s₂)
    (hsettled₁ : Settled hashing ops s₁) (hsettled₂ : Settled hashing ops s₂) :
    s₁.constitution hashing = s₂.constitution hashing := by
  obtain ⟨held₁, rfl, hgrown₁, hsub₁⟩ := Grown.of_reach hrun₁
  obtain ⟨held₂, rfl, hgrown₂, hsub₂⟩ := Grown.of_reach hrun₂
  have hhistory := Rested.history_eq hhash ⟨hgrown₁, hsub₁, hsettled₁⟩ ⟨hgrown₂, hsub₂, hsettled₂⟩
    hacyclic
  rw [hgrown₁.constitution_eq, hgrown₂.constitution_eq, ← Constitution.getLast?_history, hhistory,
    Constitution.getLast?_history]

/-- The three that make the clauses `2` law, heard in two orders. -/
theorem stores_converge_handover :
    constitution plainHashing ⟨0, 1, [handover, seconds 2 2, seconds 3 3]⟩ =
      constitution plainHashing ⟨0, 1, [handover, seconds 3 3, seconds 2 2]⟩ := by
  refine stores_converge plainHashing 0 1 [handover, seconds 2 2, seconds 3 3] (by decide)
    (acyclic_of_rising (by decide)) _ _ ?_ ?_ (by unfold Settled OnTime; decide)
    (by unfold Settled OnTime; decide)
  · exact .next (.next (.next .start (a := handover) (by unfold OnTime; decide) rfl)
      (a := seconds 2 2) (by unfold OnTime; decide) rfl)
      (a := seconds 3 3) (by unfold OnTime; decide) rfl
  · exact .next (.next (.next .start (a := handover) (by unfold OnTime; decide) rfl)
      (a := seconds 3 3) (by unfold OnTime; decide) rfl)
      (a := seconds 2 2) (by unfold OnTime; decide) rfl

/-- The third signature for the clauses `2` is refused wherever it comes last. Its author's next
one is then refused as well, and a store where that author came last never gets to the
clauses `3`. -/
theorem late_signature_splits_stores :
    ∃ order₁ order₂ s₁ s₂, order₁.Perm fourMembers ∧ order₂.Perm fourMembers ∧
      order₁.Pairwise (fun a b => a.author = b.author → a.seqNum < b.seqNum) ∧
      order₂.Pairwise (fun a b => a.author = b.author → a.seqNum < b.seqNum) ∧
      (∀ op ∈ fourMembers, verify op = true) ∧
      runs (deliver plainHashing) ⟨0, 1, []⟩ order₁ = some s₁ ∧
      runs (deliver plainHashing) ⟨0, 1, []⟩ order₂ = some s₂ ∧
      (∀ op ∈ fourMembers, (s₁.accept plainHashing op).2 = s₁ ∧ (s₂.accept plainHashing op).2 = s₂) ∧
      (s₁.constitution plainHashing).map Constitution.revision = some ⟨.blake3, 33⟩ ∧
      (s₂.constitution plainHashing).map Constitution.revision = some ⟨.blake3, 81⟩ := by
  refine ⟨[handover, seconds 2 2, seconds 3 3, seconds 4 4, thirds 3 40 3, thirds 4 41 4],
    [handover, seconds 3 3, seconds 4 4, seconds 2 2, thirds 3 40 3, thirds 4 41 4],
    ⟨0, 1, [handover, seconds 2 2, seconds 3 3, thirds 3 40 3]⟩,
    ⟨0, 1, [handover, seconds 3 3, seconds 4 4, thirds 3 40 3, thirds 4 41 4]⟩, ?_⟩
  decide

end ConstitutionStore

end Mere.Gemot
