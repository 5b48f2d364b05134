import Mathlib.Data.Nat.Bitwise
import Mathlib.Data.Nat.Size
import Mathlib.Tactic.Common

/-!
# Bit tricks on words

Two idioms of C on `w`-bit words, in arithmetic terms: clearing the low bits with
a mask rounds down to a multiple of a power of two (`and_mask`), and smearing the
highest set bit downwards gives one less than the next power of two
(`Window.eq_two_pow_sub_one`).
-/

namespace MyOs.Bits

/-! ## Masks -/

/-- Bits of the mask that keeps positions `k` to `w - 1`. -/
theorem testBit_mask {w k i : Nat} (hk : k ≤ w) :
    (2 ^ w - 2 ^ k).testBit i = (decide (k ≤ i) && decide (i < w)) := by
  have hpow : 2 ^ k ≤ 2 ^ w := Nat.pow_le_pow_right (by omega) hk
  have hpos : 0 < 2 ^ k := Nat.two_pow_pos k
  rw [show 2 ^ w - 2 ^ k = 2 ^ w - ((2 ^ k - 1) + 1) by omega,
    Nat.testBit_two_pow_sub_succ (by omega), Nat.testBit_two_pow_sub_one]
  by_cases hi : i < k
  · simp [hi, show ¬ k ≤ i by omega]
  · simp [hi, show k ≤ i by omega]

/-- **Masking rounds down** to a multiple of `2 ^ k`. -/
theorem and_mask {w k a : Nat} (ha : a < 2 ^ w) (hk : k ≤ w) :
    a &&& (2 ^ w - 2 ^ k) = a / 2 ^ k * 2 ^ k := by
  apply Nat.eq_of_testBit_eq
  intro i
  rw [Nat.testBit_and, testBit_mask hk, Nat.testBit_mul_two_pow, Nat.testBit_div_two_pow]
  by_cases hi : k ≤ i
  · rw [Nat.sub_add_cancel hi]
    by_cases hw : i < w
    · simp [hi, hw]
    · have hlt : a < 2 ^ i := lt_of_lt_of_le ha (Nat.pow_le_pow_right (by omega) (by omega))
      simp [hw, Nat.testBit_lt_two_pow hlt]
  · simp [hi]

/-! ## Smearing the highest bit -/

/-- Bit `i` of `x` says whether `y` has a set bit among the `w` bits from `i` on. -/
def Window (w y x : Nat) : Prop := ∀ i, x.testBit i = true ↔ ∃ j < w, y.testBit (i + j) = true

theorem Window.one (y : Nat) : Window 1 y y := by
  intro i
  constructor
  · intro h
    exact ⟨0, by omega, h⟩
  · rintro ⟨j, hj, h⟩
    obtain rfl : j = 0 := by omega
    exact h

/-- Or-ing a word with itself shifted by `s` widens the window by `s`. -/
theorem Window.smear {w y x s : Nat} (h : Window w y x) (hs : s ≤ w) :
    Window (w + s) y (x ||| x >>> s) := by
  intro i
  rw [Nat.testBit_or, Nat.testBit_shiftRight, Bool.or_eq_true, h i, h (s + i)]
  constructor
  · rintro (⟨j, hj, hbit⟩ | ⟨j, hj, hbit⟩)
    · exact ⟨j, by omega, hbit⟩
    · exact ⟨s + j, by omega, by rwa [show i + (s + j) = s + i + j by omega]⟩
  · rintro ⟨j, hj, hbit⟩
    by_cases hjw : j < w
    · exact .inl ⟨j, hjw, hbit⟩
    · exact .inr ⟨j - s, by omega, by rwa [show s + i + (j - s) = i + j by omega]⟩

/-- **A full window** fills every bit below the highest one. -/
theorem Window.eq_two_pow_sub_one {w y x : Nat} (h : Window w y x) (hy : y < 2 ^ w) :
    x = 2 ^ y.size - 1 := by
  apply Nat.eq_of_testBit_eq
  intro i
  rw [Nat.testBit_two_pow_sub_one, Bool.eq_iff_iff, h i, decide_eq_true_eq, Nat.lt_size]
  constructor
  · rintro ⟨j, -, hbit⟩
    exact le_trans (Nat.pow_le_pow_right (by omega) (by omega)) (Nat.ge_two_pow_of_testBit hbit)
  · intro hle
    -- the highest set bit of `y` is at or above `i`
    obtain ⟨j, hj, hbit⟩ := Nat.exists_ge_and_testBit_of_ge_two_pow hle
    have hjw : j < w := by
      by_contra hcon
      have hlt : y < 2 ^ j := lt_of_lt_of_le hy (Nat.pow_le_pow_right (by omega) (by omega))
      rw [Nat.testBit_lt_two_pow hlt] at hbit
      exact absurd hbit (by decide)
    exact ⟨j - i, by omega, by rwa [show i + (j - i) = j by omega]⟩

/-- The powers of two are the fixed points of rounding up to one. -/
theorem size_two_pow_sub_one (j : Nat) : (2 ^ j - 1).size = j := by
  apply le_antisymm
  · exact Nat.size_le.2 (by have := Nat.two_pow_pos j; omega)
  · cases j with
    | zero => omega
    | succ j =>
      refine Nat.lt_size.2 ?_
      have := Nat.two_pow_pos j
      rw [pow_succ]
      omega

end MyOs.Bits
