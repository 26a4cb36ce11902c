import Mathlib

/-!
# Programs that can be stopped

What a program does is the list of the states it has written, newest first, and how it ended.
-/

namespace Mere

def Prog (S E A : Type) := S → List S × Except E A

namespace Prog

variable {S E A B : Type}

def final (p : Prog S E A) (s : S) : S := (p s).1.headD s

def answer (p : Prog S E A) (s : S) : Except E A := (p s).2

def stops (p : Prog S E A) (s : S) : List S := (p s).1 ++ [s]

def ret (a : A) : Prog S E A := fun _ => ([], .ok a)

def fail (e : E) : Prog S E A := fun _ => ([], .error e)

def read : Prog S E S := fun s => ([], .ok s)

def write (f : S → S) : Prog S E Unit := fun s => ([f s], .ok ())

def andThen (p : Prog S E A) (q : A → Prog S E B) : Prog S E B := fun s =>
  match (p s).2 with
  | .error e => ((p s).1, .error e)
  | .ok a => ((q a (p.final s)).1 ++ (p s).1, (q a (p.final s)).2)

instance progMonad : Monad (Prog S E) where
  pure := ret
  bind := andThen

variable {p : Prog S E A} {q : A → Prog S E B} {s s' : S} {a : A} {e : E}

/-! ## One step -/

theorem final_mem_stops : p.final s ∈ p.stops s := by
  unfold final stops
  cases (p s).1 <;> simp

section Written

variable {written : List S} {r : Except E A}

theorem final_eq (h : p s = (written, r)) : p.final s = written.headD s := by rw [final, h]

theorem answer_eq (h : p s = (written, r)) : p.answer s = r := by rw [answer, h]

theorem stops_eq (h : p s = (written, r)) : p.stops s = written ++ [s] := by rw [stops, h]

end Written

/-! ## One after the other -/

theorem bind_apply {written : List S} (h : p s = (written, .ok a)) :
    (p >>= q) s = ((q a (written.headD s)).1 ++ written, (q a (written.headD s)).2) := by
  change andThen p q s = _
  unfold andThen final
  rw [h]

theorem bind_apply_error {written : List S} (h : p s = (written, .error e)) :
    (p >>= q) s = (written, .error e) := by
  change andThen p q s = _
  unfold andThen
  rw [h]

theorem answer_bind_ok (h : p.answer s = .ok a) :
    (p >>= q).answer s = (q a).answer (p.final s) := by
  change (andThen p q s).2 = _
  unfold andThen
  change (p s).2 = .ok a at h
  rw [h]
  rfl

theorem final_bind_ok (h : p.answer s = .ok a) : (p >>= q).final s = (q a).final (p.final s) := by
  change (andThen p q s).1.headD s = _
  unfold andThen
  change (p s).2 = .ok a at h
  rw [h]
  change ((q a (p.final s)).1 ++ (p s).1).headD s = (q a (p.final s)).1.headD (p.final s)
  cases (q a (p.final s)).1 <;> rfl

@[simp] theorem read_bind {q : S → Prog S E B} : (read >>= q) s = q s s := by
  change ((q s s).1 ++ [], (q s s).2) = _
  rw [List.append_nil]

theorem mem_stops_bind : s' ∈ (p >>= q).stops s ↔
    s' ∈ p.stops s ∨ ∃ a, p.answer s = .ok a ∧ s' ∈ (q a).stops (p.final s) := by
  change s' ∈ (andThen p q s).1 ++ [s] ↔ _
  unfold andThen stops
  cases h : (p s).2 with
  | error e =>
    refine ⟨.inl, ?_⟩
    rintro (hs' | ⟨a, ha, -⟩)
    · exact hs'
    · change (p s).2 = .ok a at ha
      rw [h] at ha
      cases ha
  | ok a =>
    have hfinal : p.final s ∈ (p s).1 ++ [s] := final_mem_stops
    rw [List.append_assoc, List.mem_append]
    constructor
    · rintro (hs' | hs')
      · exact .inr ⟨a, h, List.mem_append_left _ hs'⟩
      · exact .inl hs'
    · rintro (hs' | ⟨a', ha', hs'⟩)
      · exact .inr hs'
      · change (p s).2 = .ok a' at ha'
        rw [h] at ha'
        cases ha'
        rcases List.mem_append.mp hs' with hs' | hs'
        · exact .inl hs'
        · cases List.mem_singleton.mp hs'
          exact .inr hfinal

end Prog

end Mere
