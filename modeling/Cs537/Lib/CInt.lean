import Mathlib.Data.Int.Notation
import Mathlib.Algebra.Order.Ring.Int

/-! # Machine integers as wrapped integers

A value of type `int` is an integer; arithmetic on it is exact arithmetic followed by the wrap of the
compiled code. Nothing happens inside the range.
-/

namespace Cs537.Lib

/-- The bit pattern of a 32-bit value. -/
@[irreducible]
def uint32 (x : ℤ) : ℕ := (x % 2 ^ 32).toNat

/-- The bit pattern of a 64-bit value. -/
@[irreducible]
def uint64 (x : ℤ) : ℕ := (x % 2 ^ 64).toNat

/-- The value a 32-bit `int` takes when the exact result is `x`. -/
@[irreducible]
def int32 (x : ℤ) : ℤ := if uint32 x < 2 ^ 31 then uint32 x else uint32 x - 2 ^ 32

/-- The value a 64-bit `long` takes when the exact result is `x`. -/
@[irreducible]
def int64 (x : ℤ) : ℤ := if uint64 x < 2 ^ 63 then uint64 x else uint64 x - 2 ^ 64

theorem int32_eq {x : ℤ} (low : -2 ^ 31 ≤ x) (high : x < 2 ^ 31) : int32 x = x := by
  unfold int32 uint32
  split_ifs <;> omega

theorem int64_eq {x : ℤ} (low : -2 ^ 63 ≤ x) (high : x < 2 ^ 63) : int64 x = x := by
  unfold int64 uint64
  split_ifs <;> omega

theorem uint32_lt (x : ℤ) : uint32 x < 2 ^ 32 := by
  unfold uint32
  omega

theorem uint64_lt (x : ℤ) : uint64 x < 2 ^ 64 := by
  unfold uint64
  omega

theorem uint64_eq {x : ℤ} (low : 0 ≤ x) (high : x < 2 ^ 64) : (uint64 x : ℤ) = x := by
  unfold uint64
  omega

theorem int64_lt (x : ℤ) : int64 x < 2 ^ 63 := by
  have := uint64_lt x
  unfold int64
  split_ifs <;> omega

theorem int32_ge (x : ℤ) : -2 ^ 31 ≤ int32 x := by
  unfold int32
  split_ifs <;> omega

/-- The wrap takes off a multiple of 2^32. -/
theorem int32_wrap (x : ℤ) : ∃ q : ℤ, int32 x = x - 2 ^ 32 * q ∧ int32 x < 2 ^ 31 := by
  unfold int32 uint32
  split_ifs
  · exact ⟨x / 2 ^ 32, by omega, by omega⟩
  · exact ⟨x / 2 ^ 32 + 1, by omega, by omega⟩

theorem int64_add_uint64 (x y : ℤ) : int64 (x + uint64 y) = int64 (x + y) := by
  have same : uint64 (x + uint64 y) = uint64 (x + y) := by
    unfold uint64
    omega
  unfold int64
  rw [same]

theorem int32_uint32 (x : ℤ) : int32 (uint32 x) = int32 x := by
  have same : uint32 (uint32 x) = uint32 x := by
    have := uint32_lt x
    rw [uint32]
    omega
  unfold int32
  rw [same]

theorem int64_uint64 (x : ℤ) : int64 (uint64 x) = int64 x := by
  have same : uint64 (uint64 x) = uint64 x := by
    have := uint64_lt x
    rw [uint64]
    omega
  unfold int64
  rw [same]

end Cs537.Lib
