import Mathlib.Tactic.Common
import Mathlib.Tactic.Ring

/-!
# 32-bit integers of C

Values of `int` and `uint32_t` as numbers, with the conversions between them.
As long as a value fits, a conversion leaves it alone.
-/

namespace MyOs.Word

/-- The conversion to `uint32_t`. -/
def toU32 (x : Int) : Nat := (x % 2 ^ 32).toNat

/-- The conversion to `int`. -/
def toI32 (x : Int) : Int := x.bmod (2 ^ 32)

theorem toU32_eq {x : Int} {n : Nat} (h : x = n) (hn : n < 2 ^ 32) : toU32 x = n := by
  unfold toU32
  omega

theorem toI32_eq {x : Int} {n : Nat} (h : x = n) (hn : n < 2 ^ 31) : toI32 x = n := by
  subst h
  unfold toI32
  rw [Int.bmod_eq_of_le_mul_two] <;> omega

theorem toU32_lt (x : Int) : toU32 x < 2 ^ 32 := by
  unfold toU32
  omega

theorem le_toI32 (x : Int) : -2 ^ 31 ≤ toI32 x := Int.le_bmod (by decide)

theorem toI32_lt (x : Int) : toI32 x < 2 ^ 31 := Int.bmod_lt (by decide)

/-- A value of `int` is itself. -/
theorem toI32_of_int {x : Int} (hlo : -2 ^ 31 ≤ x) (hhi : x < 2 ^ 31) : toI32 x = x := by
  unfold toI32
  rw [Int.bmod_eq_of_le_mul_two] <;> omega

/-- The conversion takes off a multiple of `2 ^ 32`. -/
theorem exists_toI32 (x : Int) : ∃ k, toI32 x = x - 2 ^ 32 * k :=
  ⟨x.bdiv (2 ^ 32), Int.bmod_eq_self_sub_mul_bdiv x (2 ^ 32)⟩

/-- Arithmetic that has wrapped around before wraps around to the same value. -/
@[simp] theorem toI32_sub_toI32 (x y : Int) : toI32 (toI32 x - y) = toI32 (x - y) :=
  Int.bmod_sub_bmod

@[simp] theorem toI32_add_toI32 (x y : Int) : toI32 (toI32 x + toI32 y) = toI32 (x + y) := by
  unfold toI32
  rw [Int.bmod_add_bmod, Int.add_bmod_bmod]

theorem toI32_mul_add (x m y : Int) : toI32 (toI32 x * m + y) = toI32 (x * m + y) := by
  obtain ⟨k, hk⟩ := exists_toI32 x
  have heq : toI32 x * m + y = x * m + y + 2 ^ 32 * (-k * m) := by
    rw [hk]
    ring
  rw [heq]
  exact Int.add_mul_bmod_self_left _ (2 ^ 32) _

end MyOs.Word
