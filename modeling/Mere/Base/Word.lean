import Mathlib

/-! # Fixed-width values

Counters and clock readings are `Nat`, with the wrap or the saturation of the Rust type
written where the code does arithmetic on them.
-/

namespace Mere

/-- A `[u8; 32]` as one number, first byte on top: byte order is number order. -/
abbrev Bytes32 := Fin (2 ^ 256)

-- What the maps keyed by a hash ask of its order, found once.
instance bytes32NeZero : NeZero (2 ^ 256) := ⟨by decide⟩
instance bytes32TransCmp : Std.TransCmp (@compare Bytes32 LinearOrder.toOrd) := inferInstance
instance bytes32LawfulEqCmp : Std.LawfulEqCmp (@compare Bytes32 LinearOrder.toOrd) := inferInstance
instance bytes32LawfulBEq : LawfulBEq Bytes32 := inferInstance

instance uuidNeZero : NeZero (2 ^ 128) := ⟨by decide⟩
instance uuidTransCmp : Std.TransCmp (@compare (Fin (2 ^ 128)) LinearOrder.toOrd) := inferInstance
instance uuidLawfulEqCmp : Std.LawfulEqCmp (@compare (Fin (2 ^ 128)) LinearOrder.toOrd) :=
  inferInstance
instance uuidLawfulBEq : LawfulBEq (Fin (2 ^ 128)) := inferInstance

/-- A Rust `str` as its UTF-8 bytes. -/
abbrev Str := List UInt8

instance strLawfulBEq : LawfulBEq Str := inferInstance

def u64Max : Nat := 2 ^ 64 - 1

/-- `u64::saturating_add`. -/
def satAdd (a b : Nat) : Nat := min (a + b) u64Max

/-- `u64::saturating_mul`. -/
def satMul (a b : Nat) : Nat := min (a * b) u64Max

/-- `+ 1` on a `u32`. -/
def succ32 (n : Nat) : Nat := (n + 1) % 2 ^ 32

theorem le_satAdd (a b : Nat) (h : a ≤ u64Max) : a ≤ satAdd a b := by
  unfold satAdd; omega

theorem satAdd_eq (a b : Nat) (h : a + b ≤ u64Max) : satAdd a b = a + b := by
  unfold satAdd; omega

theorem succ32_cases (n : Nat) : succ32 n = n + 1 ∨ succ32 n < n := by
  unfold succ32
  omega

end Mere
