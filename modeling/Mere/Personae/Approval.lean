import Mere.Personae.Signing

/-!
# No signature without a standing approval

Over every interleaving of calls on one broker: a decision for that very request, or an approval
until idle that has been used again and again within its window.
-/

namespace Mere.Personae

open BrokerState List Option Function

/-! ## What stands -/

/-- An approval until idle and the authorizations that have used it since, newest first. Each came
less than an idle window after the one before it. -/
inductive Standing (key : ApprovalCacheKey) : List Happening → Nat → Nat → Prop
  | approved {request : SigningRequest} {idleSeconds now : Nat} (hkey : request.cacheKey = key) :
      Standing key [.approved request (.shortTtl idleSeconds) .untilIdle now] now idleSeconds
  | again {links : List Happening} {before idleSeconds : Nat} {request : SigningRequest}
      {idleSeconds' now : Nat} (hbefore : Standing key links before idleSeconds)
      (hwithin : now < before + idleSeconds * 1000) (hkey : request.cacheKey = key) :
      Standing key
        (.authorized ⟨request, .shortTtl idleSeconds', .cachedShortTtl⟩ now :: links) now
        idleSeconds'

/-- What must have happened before an authorization. -/
structure Grounded (older : List Happening) (a : SigningAuthorization) (now : Nat) : Prop where
  perUse : a.policy = .perUse → ∃ t, Happening.approved a.request .perUse .once t ∈ older
  cached : a.source = .cachedShortTtl → ∃ links idleSeconds, links.Sublist older ∧
    Standing a.request.cacheKey (.authorized a now :: links) now idleSeconds
  first : ∀ a' t, Happening.authorized a' t ∈ older → a'.request.requestId ≠ a.request.requestId

def AllGrounded : List Happening → Prop
  | [] => True
  | .authorized a now :: older => Grounded older a now ∧ AllGrounded older
  | _ :: older => AllGrounded older

def Fits (c : Call) : Happening → Prop
  | .approved request policy remember _ =>
    request = c.request ∧ policy = c.policy ∧
      (c.stage = .decided (.approve remember) ∨ c.stage = .uncollected (.approve remember) ∨
        c.stage = .done (.ok ⟨c.request, c.policy, remember.source⟩))
  | .denied _ =>
    c.stage = .decided .deny ∨ c.stage = .uncollected .deny ∨ c.stage = .closing .denied .denied ∨
      c.stage = .done (.error .denied)
  | .timedOut _ =>
    c.stage = .elapsed ∨ c.stage = .closing .timedOut .timedOut ∨ c.stage = .done (.error .timedOut)
  | .abandoned _ => c.stage = .abandoned
  | .authorized a _ => c.stage = .done (.ok a)
  | .remembered _ _ _ =>
    c.stage = .decided (.approve .untilIdle) ∨ c.stage = .uncollected (.approve .untilIdle) ∨
      c.stage = .done (.ok ⟨c.request, c.policy, .userUntilIdle⟩) ∨
      c.stage = .done (.ok ⟨c.request, c.policy, .cachedShortTtl⟩)

/-- Every entry of the cache is one that a call put there, and that a standing approval backs. -/
def Backed (s : System) : Prop :=
  ∀ key expires, s.broker.shortTtl key = some expires →
    (∃ id, Happening.remembered id key expires ∈ s.log) ∧
    ∃ links before idleSeconds, Standing key links before idleSeconds ∧ links.Sublist s.log ∧
      expires = idleUntil before idleSeconds

structure System.Sound (s : System) : Prop where
  named : ∀ id c, s.calls id = some c → c.request.requestId = id
  entries : ∀ id entry, s.broker.pending id = some entry →
    ∃ c, s.calls id = some c ∧ entry.request = c.request ∧ entry.policy = c.policy
  told : ∀ id c remember, s.calls id = some c → c.stage = .decided (.approve remember) →
    (∃ t, Happening.approved c.request c.policy remember t ∈ s.log) ∧
      (c.policy = .perUse → remember = .once)
  returned : ∀ id c a, s.calls id = some c → c.stage = .done (.ok a) →
    a.request = c.request ∧ ∃ t, Happening.authorized a t ∈ s.log
  fits : ∀ h ∈ s.log, ∃ c, s.calls h.id = some c ∧ Fits c h
  grounded : AllGrounded s.log
  backed : Backed s

theorem System.sound_empty : ({} : System).Sound where
  named := by
    intro _ _ h
    cases h
  entries := by
    intro _ _ h
    cases h
  told := by
    intro _ _ _ h
    cases h
  returned := by
    intro _ _ _ h
    cases h
  fits _ h := absurd h not_mem_nil
  grounded := trivial
  backed := by
    intro _ _ h
    cases h

structure Moves (s s' : System) (c' : Call) (news : List Happening) : Prop where
  calls : s'.calls = Function.update s.calls c'.request.requestId (some c')
  log : s'.log = news ++ s.log
  same : ∀ c, s.calls c'.request.requestId = some c → c.request = c'.request ∧ c.policy = c'.policy
  keeps : ∀ c h, s.calls c'.request.requestId = some c → Fits c h → Fits c' h
  news_fit : ∀ h ∈ news, h.id = c'.request.requestId ∧ Fits c' h
  told : ∀ remember, c'.stage = .decided (.approve remember) →
    (∃ t, Happening.approved c'.request c'.policy remember t ∈ news) ∧
      (c'.policy = .perUse → remember = .once)
  returned : ∀ a, c'.stage = .done (.ok a) →
    a.request = c'.request ∧ ∃ t, Happening.authorized a t ∈ news
  pending : ∀ id entry, s'.broker.pending id = some entry → s.broker.pending id = some entry ∨
    id = c'.request.requestId ∧ entry.request = c'.request ∧ entry.policy = c'.policy

section Steps

variable {s s' : System} {c c' : Call} {news : List Happening} {decisionTimeout : Nat}

theorem Moves.called (hm : Moves s s' c' news) {id : RequestId} (hc : s'.calls id = some c) :
    id = c'.request.requestId ∧ c' = c ∨ s.calls id = some c := by
  rw [hm.calls, update_apply] at hc
  split_ifs at hc with hid
  · exact .inl ⟨hid, some.inj hc⟩
  · exact .inr hc

theorem System.only {id : RequestId} (hc : s.calls id = some c) (p : Call → Prop) (h : p c)
    (c₀ : Call) (hc₀ : s.calls id = some c₀) : p c₀ :=
  some.inj (hc.symm.trans hc₀) ▸ h

section

variable (h : s.Sound)
include h

theorem System.Sound.moves (hm : Moves s s' c' news) (hgrounded : AllGrounded s'.log)
    (hbacked : Backed s') : s'.Sound where
  named id c hc := by
    rcases hm.called hc with ⟨rfl, rfl⟩ | hc
    · rfl
    · exact h.named id c hc
  entries id entry hentry := by
    rw [hm.calls]
    by_cases hid : id = c'.request.requestId
    · subst hid
      rw [update_self]
      rcases hm.pending _ entry hentry with hold | ⟨-, hrequest, hpolicy⟩
      · obtain ⟨c, hc, hrequest, hpolicy⟩ := h.entries _ entry hold
        obtain ⟨hrequest', hpolicy'⟩ := hm.same c hc
        exact ⟨c', rfl, hrequest.trans hrequest', hpolicy.trans hpolicy'⟩
      · exact ⟨c', rfl, hrequest, hpolicy⟩
    · rw [update_of_ne hid]
      rcases hm.pending id entry hentry with hold | ⟨heq, -⟩
      · exact h.entries id entry hold
      · exact absurd heq hid
  told id c remember hc hstage := by
    rw [hm.log]
    rcases hm.called hc with ⟨rfl, rfl⟩ | hc
    · obtain ⟨⟨t, ht⟩, honce⟩ := hm.told remember hstage
      exact ⟨⟨t, mem_append_left _ ht⟩, honce⟩
    · obtain ⟨⟨t, ht⟩, honce⟩ := h.told id c remember hc hstage
      exact ⟨⟨t, mem_append_right _ ht⟩, honce⟩
  returned id c a hc hstage := by
    rw [hm.log]
    rcases hm.called hc with ⟨rfl, rfl⟩ | hc
    · obtain ⟨hrequest, t, ht⟩ := hm.returned a hstage
      exact ⟨hrequest, t, mem_append_left _ ht⟩
    · obtain ⟨hrequest, t, ht⟩ := h.returned id c a hc hstage
      exact ⟨hrequest, t, mem_append_right _ ht⟩
  fits x hx := by
    rw [hm.calls]
    rw [hm.log, mem_append] at hx
    rcases hx with hx | hx
    · obtain ⟨hid, hfits⟩ := hm.news_fit x hx
      exact ⟨c', by rw [hid, update_self], hfits⟩
    · obtain ⟨c, hc, hfits⟩ := h.fits x hx
      by_cases hid : x.id = c'.request.requestId
      · rw [hid] at hc ⊢
        exact ⟨c', update_self _ _ _, hm.keeps c x hc hfits⟩
      · exact ⟨c, by rw [update_of_ne hid, hc], hfits⟩
  grounded := hgrounded
  backed := hbacked

theorem System.Sound.still (hcalls : s'.calls = s.calls) (hlog : s'.log = s.log)
    (hpending : ∀ id entry, s'.broker.pending id = some entry → s.broker.pending id = some entry)
    (hcache : s'.broker.shortTtl = s.broker.shortTtl) : s'.Sound where
  named := hcalls ▸ h.named
  entries id entry hentry := hcalls ▸ h.entries id entry (hpending id entry hentry)
  told := hcalls ▸ hlog ▸ h.told
  returned := hcalls ▸ hlog ▸ h.returned
  fits := hcalls ▸ hlog ▸ h.fits
  grounded := hlog ▸ h.grounded
  backed := by
    unfold Backed
    rw [hcache, hlog]
    exact h.backed

omit h in
theorem Backed.mono (h : Backed s) (hlog : s'.log = news ++ s.log)
    (hcache : ∀ key expires, s'.broker.shortTtl key = some expires →
      s.broker.shortTtl key = some expires ∨
        (∃ id, Happening.remembered id key expires ∈ s'.log) ∧
        ∃ links before idleSeconds, Standing key links before idleSeconds ∧
          links.Sublist s'.log ∧ expires = idleUntil before idleSeconds) : Backed s' := by
  intro key expires hexpires
  rcases hcache key expires hexpires with hold | hnew
  · obtain ⟨⟨id, hid⟩, links, before, idleSeconds, hstanding, hsub, heq⟩ := h key expires hold
    rw [hlog]
    exact ⟨⟨id, mem_append_right _ hid⟩, links, before, idleSeconds, hstanding,
      hsub.trans (sublist_append_right _ _), heq⟩
  · exact hnew

variable {id : RequestId} {x : Happening} {now : Nat} {request : SigningRequest}
  {policy : SigningPolicy} {state : BrokerState} {idleSeconds : Nat} {broker : BrokerState}
  {decision : SigningDecision} {entry : PendingEntry} {event : Event}

theorem System.Sound.none_authorized
    (hopen : ∀ c a, s.calls id = some c → c.stage ≠ .done (.ok a)) (a : SigningAuthorization)
    (t : Nat) (hmem : Happening.authorized a t ∈ s.log) : a.request.requestId ≠ id := by
  rintro rfl
  obtain ⟨c, hc, hfits⟩ := h.fits _ hmem
  exact hopen c a hc hfits

/-! ## Each step -/

theorem System.Sound.turn (hc : s.calls c.request.requestId = some c)
    {stage : Stage} {broker : BrokerState} (hnews : ∀ x ∈ news, x.id = c.request.requestId ∧
      Fits ⟨c.request, c.policy, stage⟩ x ∧ ∀ a t, x ≠ .authorized a t)
    (hkeeps : ∀ x, Fits c x → Fits ⟨c.request, c.policy, stage⟩ x)
    (hplain : ∀ remember a, stage ≠ .decided (.approve remember) ∧ stage ≠ .done (.ok a))
    (hpending : ∀ id entry, broker.pending id = some entry → s.broker.pending id = some entry ∨
      id = c.request.requestId ∧ entry.request = c.request ∧ entry.policy = c.policy)
    (hcache : broker.shortTtl = s.broker.shortTtl) (hs' : s' = { s with
      broker := broker
      calls := Function.update s.calls c.request.requestId (some ⟨c.request, c.policy, stage⟩)
      log := news ++ s.log }) : s'.Sound := by
  subst hs'
  have hgrounded : AllGrounded (news ++ s.log) := by
    induction news with
    | nil => exact h.grounded
    | cons x news ih =>
      have hrest := ih fun y hy => hnews y (mem_cons_of_mem _ hy)
      cases x with
      | authorized a t => exact absurd rfl ((hnews _ mem_cons_self).2.2 a t)
      | _ => exact hrest
  have hm : Moves s { s with
      broker := broker
      calls := Function.update s.calls c.request.requestId (some ⟨c.request, c.policy, stage⟩)
      log := news ++ s.log } ⟨c.request, c.policy, stage⟩ news := by
    refine ⟨rfl, rfl, s.only hc _ ⟨rfl, rfl⟩, fun c₀ x => s.only hc (Fits · x → _) (hkeeps x) c₀,
      ?_, ?_, ?_, hpending⟩
    · exact fun x hx => ⟨(hnews x hx).1, (hnews x hx).2.1⟩
    · exact fun remember hstage =>
        absurd hstage (hplain remember ⟨c.request, c.policy, .userOnce⟩).1
    · exact fun a hstage => absurd hstage (hplain .once a).2
  exact h.moves hm hgrounded
    (h.backed.mono rfl fun key expires hexpires => .inl (hcache ▸ hexpires))

omit h in
theorem Fits.waiting (hstage : c.stage = .waiting ∨ c.stage = .opening ∨
    ∃ now, c.stage = .asking now) : ¬ Fits c x := by
  rcases hstage with hstage | hstage | ⟨now, hstage⟩ <;> cases x <;> simp [Fits, hstage]

theorem System.Sound.authorized {a : SigningAuthorization}
    (hsame : ∀ c, s.calls a.request.requestId = some c →
      c.request = a.request ∧ c.policy = a.policy)
    (hkeeps : ∀ c x, s.calls a.request.requestId = some c → Fits c x →
      Fits ⟨a.request, a.policy, .done (.ok a)⟩ x)
    (hopen : ∀ c a', s.calls a.request.requestId = some c → c.stage ≠ .done (.ok a'))
    (hperUse : a.policy = .perUse → ∃ t, Happening.approved a.request .perUse .once t ∈ s.log)
    (hcached : a.source = .cachedShortTtl → ∃ links idleSeconds, links.Sublist s.log ∧
      Standing a.request.cacheKey (.authorized a now :: links) now idleSeconds) :
    (s.authorized a now).Sound := by
  have hm : Moves s (s.authorized a now) ⟨a.request, a.policy, .done (.ok a)⟩
      [.authorized a now] := by
    refine ⟨rfl, rfl, hsame, hkeeps, ?_, ?_, ?_, fun _ _ hentry => .inl hentry⟩
    · intro x hx
      cases mem_singleton.mp hx
      exact ⟨rfl, rfl⟩
    · intro remember hstage
      cases hstage
    · intro a' hstage
      cases hstage
      exact ⟨rfl, now, mem_singleton_self _⟩
  exact h.moves hm ⟨⟨hperUse, hcached, h.none_authorized hopen⟩, h.grounded⟩
    (h.backed.mono hm.log fun _ _ => .inl)

theorem System.Sound.authorize
    (hfresh : s.calls request.requestId = none) : (s.authorize request policy).Sound := by
  have hnone : ∀ c, s.calls request.requestId ≠ some c := by
    intro c hc
    rw [hfresh] at hc
    cases hc
  have hbegin : ∀ stage, (∀ remember a, stage ≠ .decided (.approve remember) ∧
      stage ≠ .done (.ok a)) → (s.setCall request policy stage).Sound := by
    intro stage hplain
    have hm : Moves s (s.setCall request policy stage) ⟨request, policy, stage⟩ [] :=
      ⟨rfl, rfl, fun c hc => absurd hc (hnone c), fun c _ hc => absurd hc (hnone c), nofun,
        fun remember hstage => absurd hstage (hplain remember ⟨request, policy, .userOnce⟩).1,
        fun a hstage => absurd hstage (hplain .once a).2, fun _ _ hentry => .inl hentry⟩
    exact h.moves hm h.grounded (h.backed.mono hm.log fun _ _ => .inl)
  cases policy with
  | session =>
    exact h.authorized (fun c hc => absurd hc (hnone c)) (fun c _ hc => absurd hc (hnone c))
      (fun c _ hc => absurd hc (hnone c)) nofun nofun
  | shortTtl idleSeconds | perUse => exact hbegin _ fun _ _ => ⟨nofun, nofun⟩

omit h in
theorem BrokerState.unexpired_some {expires : Nat}
    {key : ApprovalCacheKey} (h : state.unexpired now key = some expires) :
    state.shortTtl key = some expires ∧ now < expires := by
  obtain ⟨hold, hlive⟩ := filter_eq_some_iff.mp h
  exact ⟨hold, of_decide_eq_true hlive⟩

section

variable (hc : s.calls request.requestId = some ⟨request, .shortTtl idleSeconds, .asking now⟩)
include hc

theorem System.Sound.consulted {expires : Nat}
    (hexpires : s.broker.unexpired now request.cacheKey = some expires)
    (hs' : s' = ((s.setBroker { s.broker with
        shortTtl := Function.update (s.broker.unexpired now) request.cacheKey
          (some (idleUntil now idleSeconds)) }).write
      (.remembered request.requestId request.cacheKey (idleUntil now idleSeconds))).authorized
        ⟨request, .shortTtl idleSeconds, .cachedShortTtl⟩ now) : s'.Sound := by
  obtain ⟨hold, hwithin⟩ := unexpired_some hexpires
  obtain ⟨-, links, before, idleSeconds', hstanding, hsub, rfl⟩ :=
    h.backed request.cacheKey expires hold
  have hagain : Standing request.cacheKey
      (.authorized ⟨request, .shortTtl idleSeconds, .cachedShortTtl⟩ now :: links) now
      idleSeconds :=
    hstanding.again (hwithin.trans_le (idleUntil_le _ _)) rfl
  have hm : Moves s s' ⟨request, .shortTtl idleSeconds,
      .done (.ok ⟨request, .shortTtl idleSeconds, .cachedShortTtl⟩)⟩
      [.authorized ⟨request, .shortTtl idleSeconds, .cachedShortTtl⟩ now,
        .remembered request.requestId request.cacheKey (idleUntil now idleSeconds)] := by
    subst hs'
    refine ⟨rfl, rfl, s.only hc _ ⟨rfl, rfl⟩, fun c₀ x => s.only hc (Fits · x → _) ?_ c₀, ?_,
      nofun, ?_, fun _ _ hentry => .inl hentry⟩
    · exact fun hfits => absurd hfits (Fits.waiting (.inr (.inr ⟨now, rfl⟩)))
    · intro x hx
      rcases mem_cons.mp hx with rfl | hx
      · exact ⟨rfl, rfl⟩
      · cases mem_singleton.mp hx
        exact ⟨rfl, .inr (.inr (.inr rfl))⟩
    · intro a hstage
      cases hstage
      exact ⟨rfl, now, mem_cons_self⟩
  have hfirst : ∀ a t, Happening.authorized a t ∈ s.log →
      a.request.requestId ≠ request.requestId :=
    h.none_authorized fun c₀ a => s.only hc (·.stage ≠ .done (.ok a)) nofun c₀
  have hgrounded : AllGrounded s'.log := by
    subst hs'
    refine ⟨⟨nofun, fun _ => ⟨links, idleSeconds, hsub.cons _, hagain⟩, fun a' t hmem => ?_⟩,
      h.grounded⟩
    rcases mem_cons.mp hmem with heq | hmem
    · cases heq
    · exact hfirst a' t hmem
  have hbacked : Backed s' := by
    refine h.backed.mono hm.log fun key expires hkey => ?_
    rw [hm.log]
    subst hs'
    change Function.update (s.broker.unexpired now) request.cacheKey
      (some (idleUntil now idleSeconds)) key = some expires at hkey
    rw [update_apply] at hkey
    split_ifs at hkey with heq
    · subst heq
      cases hkey
      exact .inr ⟨⟨request.requestId, by simp⟩, _, now, idleSeconds, hagain,
        (hsub.cons _).cons_cons _, rfl⟩
    · exact .inl (unexpired_some hkey).1
  exact h.moves hm hgrounded hbacked

theorem System.Sound.consult :
    (s.consult request idleSeconds now).Sound := by
  unfold System.consult BrokerState.consult
  by_cases hlive : (s.broker.unexpired now request.cacheKey).any (now < ·)
  · rw [if_pos hlive]
    obtain ⟨expires, hexpires, -⟩ := (any_eq_true _ _).mp hlive
    exact h.consulted hc hexpires rfl
  · rw [if_neg hlive]
    have hm : Moves s ((s.setBroker { s.broker with shortTtl := s.broker.unexpired now }).setCall
        request (.shortTtl idleSeconds) .opening)
        ⟨request, .shortTtl idleSeconds, .opening⟩ [] := by
      refine ⟨rfl, rfl, s.only hc _ ⟨rfl, rfl⟩, fun c₀ x => s.only hc (Fits · x → _) ?_ c₀,
        nofun, nofun, nofun, fun _ _ hentry => .inl hentry⟩
      exact fun hfits => absurd hfits (Fits.waiting (.inr (.inr ⟨now, rfl⟩)))
    exact h.moves hm h.grounded
      (h.backed.mono hm.log fun _ _ hkey => .inl (unexpired_some hkey).1)

end

omit h in
theorem BrokerState.decide_ok {waiting : Bool}
    (h : state.decide waiting now id decision = (broker, .ok entry)) :
    state.pending id = some entry ∧ remembersTooMuch entry.policy decision = false ∧
      waiting = true ∧
      broker = (state.dequeue id).remember entry.request now (window entry.policy decision) := by
  unfold decide at h
  cases hentry : state.pending id with
  | none => rw [hentry] at h; cases h
  | some found =>
    rw [hentry] at h
    simp only at h
    split at h
    · cases h
    rename_i hallowed
    split at h
    · cases h
    rename_i hwaiting
    cases h
    exact ⟨rfl, by simpa using hallowed, by simpa using hwaiting, rfl⟩

omit h in
theorem BrokerState.decide_error {waiting : Bool} {error : DecisionError}
    (h : state.decide waiting now id decision = (broker, .error error)) :
    broker = state ∨ broker = state.dequeue id := by
  unfold decide at h
  cases hentry : state.pending id with
  | none =>
    rw [hentry] at h
    cases h
    exact .inl rfl
  | some found =>
    rw [hentry] at h
    simp only at h
    split at h
    · cases h
      exact .inl rfl
    split at h
    · cases h
      exact .inr rfl
    · cases h

omit h in
theorem BrokerState.pending_dequeue {id' : RequestId}
    (h : (state.dequeue id).pending id' = some entry) : state.pending id' = some entry := by
  change Function.update state.pending id none id' = some entry at h
  rw [update_apply] at h
  split_ifs at h
  exact h

omit h in
theorem BrokerState.window_some (h : window policy decision = some idleSeconds) :
    policy = .shortTtl idleSeconds ∧ decision = .approve .untilIdle := by
  cases policy <;> cases decision
  all_goals try cases h
  rename_i remember
  cases remember
  · cases h
  · cases h
    exact ⟨rfl, rfl⟩

theorem System.Sound.decided_backed
    (hbroker : s'.broker = (s.broker.dequeue id).remember entry.request s.clock
      (window entry.policy decision))
    (hlog : s'.log = decisionNews entry s.clock decision ++ s.log) : Backed s' := by
  cases hwindow : window entry.policy decision with
  | none =>
    rw [hwindow] at hbroker
    exact h.backed.mono hlog fun key expires hkey => .inl (by rw [hbroker] at hkey; exact hkey)
  | some idleSeconds =>
    obtain ⟨hpolicy, rfl⟩ := window_some hwindow
    rw [hwindow] at hbroker
    rw [decisionNews, hwindow] at hlog
    refine h.backed.mono hlog fun key expires hkey => ?_
    rw [hlog]
    rw [hbroker] at hkey
    change Function.update s.broker.shortTtl entry.request.cacheKey
      (some (idleUntil s.clock idleSeconds)) key = some expires at hkey
    rw [update_apply] at hkey
    split_ifs at hkey with heq
    · subst heq
      cases hkey
      refine .inr ⟨⟨entry.request.requestId, by simp⟩,
        [.approved entry.request (.shortTtl idleSeconds) .untilIdle s.clock], s.clock, idleSeconds,
        .approved rfl, ?_, rfl⟩
      rw [hpolicy]
      exact List.Sublist.cons _ (List.Sublist.cons_cons _ (nil_sublist _))
    · exact .inl hkey

omit h in
theorem BrokerState.pending_remember (state : BrokerState) (request : SigningRequest) (now : Nat)
    (opened : Option Nat) : (state.remember request now opened).pending = state.pending := by
  cases opened <;> rfl

omit h in
theorem decisionNews_fit (h : x ∈ decisionNews entry now decision) :
    x.id = entry.request.requestId ∧ Fits ⟨entry.request, entry.policy, .decided decision⟩ x := by
  cases decision with
  | deny =>
    cases mem_singleton.mp h
    exact ⟨rfl, .inl rfl⟩
  | approve remember =>
    rcases mem_append.mp h with h | h
    · obtain ⟨idleSeconds, hwindow, rfl⟩ := map_eq_some_iff.mp (mem_toList.mp h)
      obtain ⟨-, hdecision⟩ := window_some hwindow
      cases hdecision
      exact ⟨rfl, .inl rfl⟩
    · cases mem_singleton.mp h
      exact ⟨rfl, rfl, rfl, .inl rfl⟩

omit h in
theorem decisionNews_grounded
    {older : List Happening} (h : AllGrounded older) :
    AllGrounded (decisionNews entry now decision ++ older) := by
  cases decision with
  | deny => exact h
  | approve remember =>
    rw [decisionNews]
    cases window entry.policy (.approve remember) <;> exact h

theorem System.Sound.decided
    (hdecide : s.broker.decide ((s.calls id).any (·.stage.isWaiting)) s.clock id decision =
      (broker, .ok entry)) : ((s.setBroker broker).resolve entry decision).Sound := by
  obtain ⟨hentry, hallowed, hwaiting, rfl⟩ := decide_ok hdecide
  obtain ⟨c, hc, hrequest, hpolicy⟩ := h.entries id entry hentry
  have hid := h.named id c hc
  have hstage : c.stage = .waiting := by
    rw [hc] at hwaiting
    change c.stage.isWaiting = true at hwaiting
    unfold Stage.isWaiting at hwaiting
    split at hwaiting
    · assumption
    · cases hwaiting
  rw [← hid, ← hrequest] at hc
  have hm : Moves s ((s.setBroker ((s.broker.dequeue id).remember entry.request s.clock
      (window entry.policy decision))).resolve entry decision)
      ⟨entry.request, entry.policy, .decided decision⟩ (decisionNews entry s.clock decision) := by
    refine ⟨rfl, rfl, s.only hc _ ⟨hrequest.symm, hpolicy.symm⟩,
      fun c₀ x => s.only hc (Fits · x → _) ?_ c₀, fun x hx => decisionNews_fit hx, ?_, nofun, ?_⟩
    · exact fun hfits => absurd hfits (Fits.waiting (.inl hstage))
    · intro remember hremember
      cases hremember
      refine ⟨⟨s.clock, by simp [decisionNews]⟩, fun hperUse => ?_⟩
      change entry.policy = .perUse at hperUse
      rw [hperUse] at hallowed
      cases remember
      · rfl
      · cases hallowed
    · intro id' entry' hentry'
      change ((s.broker.dequeue id).remember _ _ _).pending id' = some entry' at hentry'
      rw [pending_remember] at hentry'
      exact .inl (pending_dequeue hentry')
  exact h.moves hm (decisionNews_grounded h.grounded) (h.decided_backed rfl rfl)

theorem System.Sound.decide (id : RequestId) (decision : SigningDecision) :
    (s.decide id decision).Sound := by
  unfold System.decide
  cases hdecide : s.broker.decide ((s.calls id).any (·.stage.isWaiting)) s.clock id decision with
  | mk broker answer =>
    cases answer with
    | ok entry => exact h.decided hdecide
    | error error =>
      refine h.still rfl rfl ?_ ?_
      · rcases decide_error hdecide with rfl | rfl
        · exact fun _ _ hentry => hentry
        · exact fun _ _ hentry => pending_dequeue hentry
      · rcases decide_error hdecide with rfl | rfl <;> rfl

theorem System.Sound.receive {remember : RememberApproval}
    (hc : s.calls c.request.requestId = some c) (hstage : c.stage = .decided (.approve remember)) :
    (s.authorized ⟨c.request, c.policy, remember.source⟩ s.clock).Sound := by
  obtain ⟨⟨t, htold⟩, honce⟩ := h.told _ c remember hc hstage
  refine h.authorized (s.only hc _ ⟨rfl, rfl⟩)
    (fun c₀ x => s.only hc (Fits · x → _) (fun hfits => ?_) c₀)
    (fun c₀ a => s.only hc (·.stage ≠ _) (fun hdone => ?_) c₀) ?_ ?_
  · cases x with
    | approved request policy remember' at_ =>
      obtain ⟨rfl, rfl, hdecided | hdecided | hdecided⟩ := hfits
      · rw [hstage] at hdecided
        cases hdecided
        exact ⟨rfl, rfl, .inr (.inr rfl)⟩
      · rw [hstage] at hdecided
        cases hdecided
      · rw [hstage] at hdecided
        cases hdecided
    | remembered id key expires =>
      rcases hfits with hdecided | hdecided | hdecided | hdecided
      · rw [hstage] at hdecided
        cases hdecided
        exact .inr (.inr (.inl rfl))
      all_goals rw [hstage] at hdecided; cases hdecided
    | _ => simp [Fits, hstage] at hfits
  · rw [hstage] at hdone
    cases hdone
  · intro hperUse
    change c.policy = .perUse at hperUse
    rw [honce hperUse, hperUse] at htold
    exact ⟨t, htold⟩
  · intro hsource
    cases remember <;> cases hsource

theorem Call.step_sound (hc : s.calls c.request.requestId = some c)
    (hstep : c.step decisionTimeout s event = some s') : s'.Sound := by
  have hwaiting : c.stage = .waiting → ∀ {stage : Stage} x, Fits c x →
      Fits ⟨c.request, c.policy, stage⟩ x :=
    fun hstage _ x hfits => absurd hfits (Fits.waiting (.inl hstage))
  cases event with
  | consult id =>
    simp only [Call.step] at hstep
    split at hstep
    · rename_i idleSeconds now hpolicy hstage
      cases hstep
      refine h.consult (hc.trans ?_)
      rw [← hpolicy, ← hstage]
    · cases hstep
  | enqueue id =>
    simp only [Call.step] at hstep
    split at hstep
    · rename_i hstage
      cases hstep
      refine @System.Sound.turn s _ c [] h hc .waiting (s.broker.enqueue c.request c.policy
        (satAdd s.clock decisionTimeout)) nofun ?_ (fun _ _ => ⟨nofun, nofun⟩) ?_ rfl rfl
      · exact fun x hfits => absurd hfits (Fits.waiting (.inr (.inl hstage)))
      · intro id' entry hentry
        change Function.update s.broker.pending c.request.requestId (some ⟨c.request, c.policy, _⟩)
          id' = some entry at hentry
        rw [update_apply] at hentry
        split_ifs at hentry with hid
        · cases hentry
          exact .inr ⟨hid, rfl, rfl⟩
        · exact .inl hentry
    · cases hstep
  | receive id =>
    simp only [Call.step] at hstep
    split at hstep
    · rename_i remember hstage
      cases hstep
      exact h.receive hc hstage
    · rename_i hstage
      cases hstep
      refine @System.Sound.turn s _ c [] h hc (.closing .denied .denied) s.broker nofun ?_
        (fun _ _ => ⟨nofun, nofun⟩) (fun _ _ hentry => .inl hentry) rfl rfl
      intro x hfits
      cases x with
      | denied id => exact .inr (.inr (.inl rfl))
      | _ => simp [Fits, hstage] at hfits
    · cases hstep
  | timeout id =>
    simp only [Call.step] at hstep
    split at hstep
    · rename_i hstage
      cases hstep
      refine @System.Sound.turn s _ c [.timedOut c.request.requestId] h hc .elapsed s.broker ?_
        (hwaiting hstage) (fun _ _ => ⟨nofun, nofun⟩) (fun _ _ hentry => .inl hentry) rfl rfl
      intro x hx
      cases mem_singleton.mp hx
      exact ⟨rfl, .inl rfl, nofun⟩
    · cases hstep
  | expire id =>
    simp only [Call.step] at hstep
    split at hstep
    · rename_i hstage
      cases hstep
      refine @System.Sound.turn s _ c [] h hc (.closing .timedOut .timedOut) _ nofun ?_
        (fun _ _ => ⟨nofun, nofun⟩) (fun _ _ hentry => .inl (pending_dequeue hentry))
        rfl rfl
      intro x hfits
      cases x with
      | timedOut id => exact .inr (.inl rfl)
      | _ => simp [Fits, hstage] at hfits
    · cases hstep
  | close id =>
    simp only [Call.step] at hstep
    split at hstep
    · rename_i hstage
      split at hstep
      · cases hstep
        exact @System.Sound.turn s _ c [] h hc (.closing (.failed .approvalChannelClosed)
          .brokerClosed) _ nofun (hwaiting hstage) (fun _ _ => ⟨nofun, nofun⟩)
          (fun _ _ hentry => .inl (pending_dequeue hentry)) rfl rfl
      · cases hstep
    · cases hstep
  | finish id =>
    simp only [Call.step] at hstep
    split at hstep
    · rename_i result error hstage
      cases hstep
      refine @System.Sound.turn s _ c [] h hc (.done (.error error))
        (s.broker.pushTerminalRecord c.request c.policy none result s.clock) nofun ?_
        (fun _ _ => ⟨nofun, nofun⟩) (fun _ _ hentry => .inl hentry) rfl rfl
      intro x hfits
      cases x with
      | denied id =>
        simp only [Fits, hstage, reduceCtorEq, false_or, or_false, Stage.closing.injEq] at hfits
        exact .inr (.inr (.inr (by rw [hfits.2])))
      | timedOut id =>
        simp only [Fits, hstage, reduceCtorEq, false_or, or_false, Stage.closing.injEq] at hfits
        exact .inr (.inr (by rw [hfits.2]))
      | _ => simp [Fits, hstage] at hfits
    · cases hstep
  | abandon id =>
    simp only [Call.step] at hstep
    split at hstep
    · rename_i hstage
      cases hstep
      refine @System.Sound.turn s _ c [.abandoned c.request.requestId] h hc .abandoned s.broker ?_
        (hwaiting hstage) (fun _ _ => ⟨nofun, nofun⟩) (fun _ _ hentry => .inl hentry) rfl rfl
      intro x hx
      cases mem_singleton.mp hx
      exact ⟨rfl, rfl, nofun⟩
    · rename_i decision hstage
      cases hstep
      refine @System.Sound.turn s _ c [] h hc (.uncollected decision) s.broker nofun ?_
        (fun _ _ => ⟨nofun, nofun⟩) (fun _ _ hentry => .inl hentry) rfl rfl
      intro x hfits
      cases x <;> simp_all [Fits]
    · cases hstep
  | tick now | authorize request policy | decide id decision | complete authorization result =>
    cases hstep

theorem System.Sound.step (hstep : s.step decisionTimeout event = some s') : s'.Sound := by
  have hcall : ∀ id event, ((s.calls id).bind fun c => c.step decisionTimeout s event) = some s' →
      s'.Sound := by
    intro id event hstep
    obtain ⟨c, hc, hstep'⟩ := bind_eq_some_iff.mp hstep
    rw [← h.named id c hc] at hc
    exact c.step_sound h hc hstep'
  cases event with
  | tick now =>
    simp only [System.step, ite_none_right_eq_some, some.injEq] at hstep
    obtain ⟨-, rfl⟩ := hstep
    exact h.still rfl rfl (fun _ _ hentry => hentry) rfl
  | authorize request policy =>
    simp only [System.step, ite_none_right_eq_some, some.injEq,
      isNone_iff_eq_none] at hstep
    obtain ⟨hfresh, rfl⟩ := hstep
    exact h.authorize hfresh
  | decide id decision =>
    cases hstep
    exact h.decide id decision
  | complete authorization result =>
    cases hstep
    exact h.still rfl rfl (fun _ _ hentry => hentry) rfl
  | consult id | enqueue id | receive id | timeout id | expire id | close id | finish id
  | abandon id => exact hcall id _ hstep

end

theorem System.Reachable.sound (h : s.Reachable decisionTimeout) : s.Sound :=
  Reach.invariant h System.sound_empty fun _ _ _ hsound _ hstep => hsound.step hstep

end Steps

/-! ## No signature without a standing approval -/

def Happening.authorizes (id : RequestId) : Happening → Bool
  | .authorized a _ => a.request.requestId = id
  | _ => false

theorem AllGrounded.at {a : SigningAuthorization} {now : Nat} {newer older : List Happening}
    (h : AllGrounded (newer ++ .authorized a now :: older)) : Grounded older a now := by
  induction newer with
  | nil => exact h.1
  | cons x newer ih =>
    cases x with
    | authorized a' t => exact ih h.2
    | _ => exact ih h

theorem AllGrounded.once {log : List Happening} (h : AllGrounded log) (id : RequestId) :
    (log.filter (·.authorizes id)).length ≤ 1 := by
  induction log with
  | nil => exact Nat.zero_le 1
  | cons x older ih =>
    cases x with
    | authorized a now =>
      by_cases hid : a.request.requestId = id
      · subst hid
        have hnone : older.filter (·.authorizes a.request.requestId) = [] := by
          refine filter_eq_nil_iff.mpr fun y hy hauthorizes => ?_
          cases y with
          | authorized a' t => exact h.1.first a' t hy (of_decide_eq_true hauthorizes)
          | _ => cases hauthorizes
        rw [filter_cons, hnone]
        split <;> simp
      · rw [filter_cons_of_neg (by simpa [Happening.authorizes] using hid)]
        exact ih h.2
    | _ => exact ih h

/-- A request that was refused, or given up while it waited. -/
def Refused (log : List Happening) (id : RequestId) : Prop :=
  Happening.denied id ∈ log ∨ Happening.timedOut id ∈ log ∨ Happening.abandoned id ∈ log

theorem System.Sound.refused {s : System} (h : s.Sound) {id : RequestId}
    (hrefused : Refused s.log id) :
    (∀ a t, Happening.authorized a t ∈ s.log → a.request.requestId ≠ id) ∧
      ∀ key expires, Happening.remembered id key expires ∉ s.log := by
  have hstage : ∃ c, s.calls id = some c ∧ ¬ (∃ a, c.stage = .done (.ok a)) ∧
      ∀ remember, c.stage ≠ .decided (.approve remember) ∧
        c.stage ≠ .uncollected (.approve remember) := by
    rcases hrefused with hmem | hmem | hmem
    all_goals
      obtain ⟨c, hc, hfits⟩ := h.fits _ hmem
      refine ⟨c, hc, ?_⟩
    · rcases hfits with hfits | hfits | hfits | hfits <;> simp [hfits]
    · rcases hfits with hfits | hfits | hfits <;> simp [hfits]
    · have hfits : c.stage = .abandoned := hfits
      simp [hfits]
  obtain ⟨c, hc, hnone, hundecided⟩ := hstage
  constructor
  · exact h.none_authorized fun c₀ a => s.only hc (·.stage ≠ _) (fun hdone => hnone ⟨a, hdone⟩) c₀
  · intro key expires hmem
    obtain ⟨c₀, hc₀, hfits⟩ := h.fits _ hmem
    change s.calls id = some c₀ at hc₀
    rw [hc] at hc₀
    cases hc₀
    rcases hfits with hfits | hfits | hfits | hfits
    · exact (hundecided _).1 hfits
    · exact (hundecided _).2 hfits
    · exact hnone ⟨_, hfits⟩
    · exact hnone ⟨_, hfits⟩

def sshRequest (id : RequestId) (payloadDigest : Str) : SigningRequest where
  requestId := id
  profile := [114]
  publicKeyFingerprint := [107]
  operation := [115]
  payloadDigest := payloadDigest
  adapter := [97]
  requestedAtMs := 0

/-- The first request is approved until idle; the second, ten seconds later, asks nobody. -/
def rememberedRun : List Event :=
  [.tick 5000, .authorize (sshRequest 1 [1]) (.shortTtl 60), .consult 1, .enqueue 1,
    .decide 1 (.approve .untilIdle), .receive 1, .tick 15000,
    .authorize (sshRequest 2 [2]) (.shortTtl 60), .consult 2]

end Mere.Personae
