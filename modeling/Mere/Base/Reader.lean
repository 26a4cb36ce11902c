import Mathlib

/-!
# Reading forward

A reader is exact for an encoding if it reads a value just where the bytes begin with the value's
encoding.
-/

namespace Mere

abbrev Reader (E A : Type) := StateT (List UInt8) (Except E) A

namespace Reader

variable {E A B : Type} {p : Reader E A} {bytes rest : List UInt8} {a a' : A} {b : B}
  {encode : A → List UInt8}

def Exact (p : Reader E A) (encode : A → List UInt8) (Valid : A → Prop) : Prop :=
  ∀ bytes a rest, p bytes = .ok (a, rest) ↔ Valid a ∧ bytes = encode a ++ rest

theorem pure_ok : (pure a : Reader E A) bytes = .ok (a', rest) ↔ a = a' ∧ bytes = rest := by
  change Except.ok (a, bytes) = .ok (a', rest) ↔ _
  rw [Except.ok.injEq, Prod.mk.injEq]

theorem throw_ok {e : E} : ¬ (throw e : Reader E A) bytes = .ok (a, rest) := nofun

theorem bind_ok {q : A → Reader E B} : (p >>= q) bytes = .ok (b, rest) ↔
    ∃ a mid, p bytes = .ok (a, mid) ∧ q a mid = .ok (b, rest) := by
  change (p bytes >>= fun r => q r.1 r.2) = .ok (b, rest) ↔ _
  cases p bytes with
  | error e => exact iff_of_false nofun (by simp)
  | ok r => exact ⟨fun h => ⟨r.1, r.2, rfl, h⟩, by rintro ⟨a, mid, h, hq⟩; cases h; exact hq⟩

/-! ## What the readers are made of -/

def take (short : E) (len : Nat) : Reader E (List UInt8) := fun bytes =>
  if len ≤ bytes.length then .ok (bytes.take len, bytes.drop len) else .error short

theorem exact_take (short : E) (len : Nat) : Exact (take short len) id (·.length = len) := by
  intro bytes raw rest
  unfold take
  constructor
  · intro h
    split at h
    · rename_i hlen
      cases h
      exact ⟨List.length_take_of_le hlen, (List.take_append_drop len bytes).symm⟩
    · cases h
  · rintro ⟨rfl, rfl⟩
    simp

theorem guard_ok {refused : Prop} [Decidable refused] {e : E} :
    (if refused then throw e else p) bytes = .ok (a, rest) ↔ ¬ refused ∧ p bytes = .ok (a, rest) := by
  split <;> simp [*, throw_ok]

theorem Exact.guard {Valid : A → Prop} (h : Exact p encode Valid)
    {refused : A → Prop} [DecidablePred refused] {e : A → E} :
    Exact (p >>= fun a => if refused a then throw (e a) else pure a) encode
      fun a => Valid a ∧ ¬ refused a := by
  intro bytes a rest
  simp only [bind_ok, guard_ok, pure_ok, h _ _ _]
  constructor
  · rintro ⟨a, _, ⟨hvalid, rfl⟩, hpassed, rfl, rfl⟩
    exact ⟨⟨hvalid, hpassed⟩, rfl⟩
  · rintro ⟨⟨hvalid, hpassed⟩, rfl⟩
    exact ⟨a, rest, ⟨hvalid, rfl⟩, hpassed, rfl, rfl⟩

theorem run'_ok : StateT.run' p bytes = .ok a ↔ ∃ rest, p bytes = .ok (a, rest) := by
  unfold StateT.run'
  cases p bytes with
  | error e => simp [Functor.map, Except.map]
  | ok found => simp [Functor.map, Except.map, Prod.ext_iff]

/-- So many bytes, if they are a value's. -/
def takeAs (short : E) (len : Nat) (parse : List UInt8 → Option A) (unread : E) : Reader E A := do
  match parse (← take short len) with
  | some a => return a
  | none => throw unread

theorem exact_takeAs {short unread : E} {len : Nat} {parse : List UInt8 → Option A}
    (h : ∀ raw a, parse raw = some a ↔ raw = encode a) :
    Exact (takeAs short len parse unread) encode fun a => (encode a).length = len := by
  intro bytes a rest
  simp only [takeAs, bind_ok, exact_take _ _ _ _ _]
  constructor
  · rintro ⟨raw, mid, ⟨rfl, rfl⟩, hread⟩
    cases hparse : parse raw with
    | none =>
      rw [hparse] at hread
      exact absurd hread throw_ok
    | some found =>
      rw [hparse] at hread
      obtain ⟨rfl, rfl⟩ := pure_ok.mp hread
      obtain rfl := (h raw found).mp hparse
      exact ⟨rfl, rfl⟩
  · rintro ⟨rfl, rfl⟩
    refine ⟨encode a, rest, ⟨rfl, rfl⟩, ?_⟩
    rw [(h _ a).mpr rfl]
    rfl

/-- So many in a row, each told its place. -/
def each (read : Nat → Reader E A) : Nat → Nat → Reader E (List A)
  | _, 0 => pure []
  | index, count + 1 => do
    let a ← read index
    let rest ← each read (index + 1) count
    return a :: rest

theorem exact_each {read : Nat → Reader E A} {Valid : A → Prop}
    (h : ∀ index, Exact (read index) encode Valid) (index count : Nat) :
    Exact (each read index count) (·.flatMap encode)
      fun l => l.length = count ∧ ∀ a ∈ l, Valid a := by
  induction count generalizing index with
  | zero =>
    intro bytes l rest
    rw [each, pure_ok]
    constructor
    · rintro ⟨rfl, rfl⟩
      simp
    · rintro ⟨⟨hlen, -⟩, rfl⟩
      rw [List.length_eq_zero_iff.mp hlen]
      exact ⟨rfl, rfl⟩
  | succ count ih =>
    intro bytes l rest
    simp only [each, bind_ok, pure_ok, h index _ _ _, ih (index + 1) _ _ _]
    constructor
    · rintro ⟨a, _, ⟨ha, rfl⟩, l, _, ⟨⟨rfl, hl⟩, rfl⟩, rfl, rfl⟩
      simpa [ha] using hl
    · rintro ⟨⟨hlen, hl⟩, rfl⟩
      cases l with
      | nil => cases hlen
      | cons a l =>
        rw [List.forall_mem_cons] at hl
        exact ⟨a, _, ⟨hl.1, by simp⟩, l, rest, ⟨⟨Nat.succ.inj hlen, hl.2⟩, rfl⟩, rfl, rfl⟩

end Reader

end Mere
