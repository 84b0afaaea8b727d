import Mathlib.Algebra.Ring.Int.Defs
import Mathlib.Tactic.Common

/-!
# C's integer types

The value that a conversion to a fixed-width type gives, for 32-bit `int` and `uint32_t` and 64-bit
`size_t`.  Arithmetic on `int` is arithmetic on integers followed by `int32`; a comparison between
`int` and an unsigned type converts the `int` first.
-/

set_option autoImplicit false

/-- The value as an `int`, wrapping around. -/
def int32 (x : ℤ) : ℤ := (x + 2 ^ 31) % 2 ^ 32 - 2 ^ 31

/-- The value as a `uint32_t`. -/
def uint32 (x : ℤ) : ℤ := x % 2 ^ 32

/-- The value as a `size_t`. -/
def sizeT (x : ℤ) : ℤ := x % 2 ^ 64

section

variable {x y : ℤ}

theorem int32_of_range (h : -2 ^ 31 ≤ x) (h' : x < 2 ^ 31) : int32 x = x := by
  rw [int32]
  omega

theorem uint32_of_range (h : 0 ≤ x) (h' : x < 2 ^ 32) : uint32 x = x := by
  rw [uint32]
  omega

theorem sizeT_of_range (h : 0 ≤ x) (h' : x < 2 ^ 64) : sizeT x = x := by
  rw [sizeT]
  omega

/-- Wrapping around on the way does not show in the end. -/
theorem uint32_int32_add : uint32 (int32 (int32 x + int32 y)) = uint32 (x + y) := by
  simp only [uint32, int32]
  omega

end
