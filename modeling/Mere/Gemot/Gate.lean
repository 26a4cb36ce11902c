import Mere.Base.Word

/-!
# The gate

From `crates/moot/gemot/src/moot/standing/gate.rs`: whether a moot's policy lets a persona act.
-/

namespace Mere.Gemot

open List

structure GateConfig where
  postingThreshold : Int
  rateLimit : Nat
  rateWindowMs : Nat

structure StandingFacts where
  score : Int := 0
  recentActionMs : List Nat := []
  vouched : Bool := false
  isMember : Bool := false

inductive DenyReason where
  | noCapability | belowThreshold | notAMember | rateLimited
  deriving DecidableEq

inductive GateDecision where
  | allow
  | deny (reason : DenyReason)
  deriving DecidableEq

inductive Policy where
  | openWithFloor (config : GateConfig)
  | vouchedOrScore (config : GateConfig)
  | membersOnly (rateLimit rateWindowMs : Nat)

namespace Policy

def rateLimit : Policy → Nat
  | .openWithFloor config | .vouchedOrScore config => config.rateLimit
  | .membersOnly rateLimit _ => rateLimit

def rateWindowMs : Policy → Nat
  | .openWithFloor config | .vouchedOrScore config => config.rateWindowMs
  | .membersOnly _ rateWindowMs => rateWindowMs

/-- The preset's own admission rule. -/
def refuse (facts : StandingFacts) : Policy → Option DenyReason
  | .openWithFloor config =>
    if facts.score < config.postingThreshold then some .belowThreshold else none
  | .vouchedOrScore config =>
    if facts.score < config.postingThreshold && !facts.vouched then some .belowThreshold else none
  | .membersOnly _ _ => if !facts.isMember then some .notAMember else none

end Policy

/-- The recent actions that count against the limit, before `as u32`. -/
def StandingFacts.inWindow (facts : StandingFacts) (nowMs rateWindowMs : Nat) : Nat :=
  facts.recentActionMs.countP fun t => nowMs - t < rateWindowMs

def authorize (policy : Policy) (capCovers : Bool) (facts : StandingFacts) (nowMs : Nat) :
    GateDecision :=
  if !capCovers then .deny .noCapability
  else match policy.refuse facts with
    | some reason => .deny reason
    | none =>
      if policy.rateLimit ≤ facts.inWindow nowMs policy.rateWindowMs % 2 ^ 32 then
        .deny .rateLimited
      else .allow

variable {policy : Policy}

theorem lt_rateLimit_of_allow {capCovers : Bool} {facts : StandingFacts} {nowMs : Nat}
    (h : authorize policy capCovers facts nowMs = .allow) :
    facts.inWindow nowMs policy.rateWindowMs % 2 ^ 32 < policy.rateLimit := by
  unfold authorize at h
  split at h
  · cases h
  split at h
  · cases h
  split at h
  · cases h
  · omega

/-! ## Runs -/

structure GateCall where
  capCovers : Bool
  facts : StandingFacts
  nowMs : Nat

/-- The times of the calls that were allowed. -/
def allowedTimes (policy : Policy) (calls : List GateCall) : List Nat :=
  (calls.filter fun c => authorize policy c.capCovers c.facts c.nowMs = .allow).map (·.nowMs)

/-- Calls about one persona, the last one first: the clock does not go back, and each call is shown
every action allowed before it. -/
def Recorded (policy : Policy) : List GateCall → Prop
  | [] => True
  | call :: earlier => (∀ c ∈ earlier, c.nowMs ≤ call.nowMs) ∧
    (allowedTimes policy earlier).Subperm call.facts.recentActionMs ∧ Recorded policy earlier

def allowedWithin (policy : Policy) (calls : List GateCall) (t : Nat) : Nat :=
  (allowedTimes policy calls).countP fun a => t ≤ a ∧ a < t + policy.rateWindowMs

theorem allowedWithin_le_inWindow {call : GateCall} {earlier : List GateCall} {t : Nat}
    (h : Recorded policy (call :: earlier)) (ht : call.nowMs < t + policy.rateWindowMs) :
    allowedWithin policy earlier t ≤ call.facts.inWindow call.nowMs policy.rateWindowMs := by
  obtain ⟨horder, hshown, -⟩ := h
  refine le_trans (countP_mono_left ?_) (hshown.countP_le _)
  intro a ha hin
  obtain ⟨c, hc, rfl⟩ := mem_map.mp ha
  simp only [decide_eq_true_eq] at hin ⊢
  omega

/-- While fewer than `2 ^ 32` of the actions shown lie in the window of any call. -/
theorem allowedWithin_le_rateLimit (policy : Policy) (calls : List GateCall)
    (h : Recorded policy calls)
    (hfew : ∀ c ∈ calls, c.facts.inWindow c.nowMs policy.rateWindowMs < 2 ^ 32) (t : Nat) :
    allowedWithin policy calls t ≤ policy.rateLimit := by
  induction calls with
  | nil => exact Nat.zero_le _
  | cons call earlier ih =>
    have hearlier := ih h.2.2 fun c hc => hfew c (mem_cons_of_mem _ hc)
    unfold allowedWithin allowedTimes at hearlier ⊢
    rw [filter_cons]
    split
    · rename_i hallow
      rw [map_cons, countP_cons]
      split
      · rename_i hin
        -- The call counted every allowed action that shares an interval with it.
        have hcount := allowedWithin_le_inWindow h (by simp at hin; exact hin.2)
        have hlimit := lt_rateLimit_of_allow (of_decide_eq_true hallow)
        rw [Nat.mod_eq_of_lt (hfew call mem_cons_self)] at hlimit
        exact Nat.succ_le_of_lt (lt_of_le_of_lt hcount hlimit)
      · exact hearlier
    · exact hearlier

def memberCall (recentActionMs : List Nat) : GateCall :=
  { capCovers := true, facts := { recentActionMs, isMember := true }, nowMs := 0 }

theorem allowedWithin_two_calls :
    allowedWithin (.membersOnly 1 5) [memberCall [0], memberCall []] 0 ≤ 1 := by
  refine allowedWithin_le_rateLimit _ [memberCall [0], memberCall []] ⟨by decide, ?_, ?_⟩ ?_ 0
  · exact singleton_subperm_iff.mpr mem_cons_self
  · simp [Recorded, allowedTimes]
  · decide

/-- `2 ^ 32` recent actions count as none. -/
theorem rate_limit_overrun : ∃ (policy : Policy) (calls : List GateCall) (t : Nat),
    policy.rateLimit < 2 ^ 32 ∧ 0 < policy.rateWindowMs ∧ Recorded policy calls ∧
      policy.rateLimit < allowedWithin policy calls t := by
  obtain ⟨n, hn, hwrap⟩ : ∃ n, n ≠ 0 ∧ n % 4294967296 = 0 :=
    ⟨4294967296, by decide, by decide⟩
  have hfirst : allowedTimes (.membersOnly 1 1) [memberCall []] = [0] := by decide
  have hboth : allowedTimes (.membersOnly 1 1) [memberCall (List.replicate n 0), memberCall []] =
      [0, 0] := by
    simp [allowedTimes, authorize, Policy.refuse, memberCall, StandingFacts.inWindow,
      countP_replicate, Policy.rateLimit, Policy.rateWindowMs, hwrap]
  refine ⟨.membersOnly 1 1, [memberCall (List.replicate n 0), memberCall []], 0,
    by decide, by decide, ⟨by simp [memberCall], ?_, by simp [Recorded, allowedTimes]⟩, ?_⟩
  · rw [hfirst, singleton_subperm_iff]
    exact mem_replicate.mpr ⟨hn, rfl⟩
  · rw [allowedWithin, hboth]
    decide

end Mere.Gemot
