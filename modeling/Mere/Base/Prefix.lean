import Mathlib

/-!
# Encodings read off the front

Whatever follows it, a value's encoding does not begin like another's.
-/

namespace Mere

open List

variable {A : Type} {encode : A → List UInt8} {Valid : A → Prop} {s t : List UInt8}

def PrefixFree (encode : A → List UInt8) (Valid : A → Prop) : Prop :=
  ∀ ⦃a b : A⦄ ⦃s t : List UInt8⦄, Valid a → Valid b → encode a ++ s = encode b ++ t →
    a = b ∧ s = t

namespace PrefixFree

theorem of_length {n : Nat} (hlen : ∀ a, (encode a).length = n)
    (hinj : ∀ a b, Valid a → Valid b → encode a = encode b → a = b) : PrefixFree encode Valid := by
  intro a b s t ha hb h
  obtain ⟨hfirst, hrest⟩ := append_inj h (by rw [hlen, hlen])
  exact ⟨hinj a b ha hb hfirst, hrest⟩

/-- The bytes themselves, after their number. -/
theorem counted {size : Nat → List UInt8} {Small : Nat → Prop} (h : PrefixFree size Small) :
    PrefixFree (fun bytes : List UInt8 => size bytes.length ++ bytes) (Small ·.length) := by
  intro a b s t ha hb heq
  simp only [append_assoc] at heq
  obtain ⟨hlen, hrest⟩ := h ha hb heq
  exact append_inj hrest hlen

theorem flatMap (h : PrefixFree encode Valid) (hne : ∀ a, encode a ≠ []) {l l' : List A}
    (hl : ∀ a ∈ l, Valid a) (hl' : ∀ a ∈ l', Valid a)
    (heq : l.flatMap encode ++ s = l'.flatMap encode) :
    ∃ left, l' = l ++ left ∧ s = left.flatMap encode := by
  induction l generalizing l' with
  | nil => exact ⟨l', rfl, heq⟩
  | cons a l ih =>
    cases l' with
    | nil => exact absurd (append_eq_nil_iff.mp (append_eq_nil_iff.mp heq).1).1 (hne a)
    | cons b l' =>
      rw [flatMap_cons, flatMap_cons, append_assoc] at heq
      obtain ⟨rfl, hrest⟩ := h (hl a mem_cons_self) (hl' b mem_cons_self) heq
      obtain ⟨left, rfl, hleft⟩ := ih (fun c hc => hl c (mem_cons_of_mem _ hc))
        (fun c hc => hl' c (mem_cons_of_mem _ hc)) hrest
      exact ⟨left, rfl, hleft⟩

end PrefixFree

/-- A number below `256 ^ width` is told by so many of its bytes. -/
theorem eq_of_bytes (width : Nat) {n m : Nat} (hn : n < 256 ^ width) (hm : m < 256 ^ width)
    (h : ∀ i < width, UInt8.ofNat (n / 256 ^ i) = UInt8.ofNat (m / 256 ^ i)) : n = m := by
  induction width generalizing n m with
  | zero => omega
  | succ width ih =>
    have hlow : n % 256 = m % 256 := by
      have := congrArg UInt8.toNat (h 0 (Nat.zero_lt_succ width))
      simpa using this
    have hhigh : n / 256 = m / 256 := by
      rw [pow_succ] at hn hm
      refine ih (Nat.div_lt_of_lt_mul (by omega)) (Nat.div_lt_of_lt_mul (by omega)) fun i hi => ?_
      have := h (i + 1) (Nat.succ_lt_succ hi)
      rwa [pow_succ', ← Nat.div_div_eq_div_mul, ← Nat.div_div_eq_div_mul] at this
    omega

end Mere
