import Mathlib.Data.Rat.Floor
import Mathlib.Algebra.Order.BigOperators.Group.Finset
import Mathlib.Algebra.BigOperators.Field
import Mathlib.Algebra.BigOperators.Ring.Finset
import Mathlib.Algebra.Order.Field.Basic
import Mathlib.Tactic.FieldSimp

/-!
# Rounded shares

A total is split into nonnegative parts, and each part gets its share of `c`, rounded
down: every share is between 0 and `c`, and all of them together are at most `c`.
-/

namespace MyOs.Shares

variable {α : Type*} {parts s : Finset α} {w : α → ℚ} {a : α} {c : ℕ}

/-- The share of a part of size `x`. -/
def share (c : ℕ) (x tot : ℚ) : Int := ⌊c * x / tot⌋

theorem share_nonneg {x tot : ℚ} (hx : 0 ≤ x) (htot : 0 ≤ tot) : 0 ≤ share c x tot :=
  Int.floor_nonneg.2 (div_nonneg (mul_nonneg (Nat.cast_nonneg c) hx) htot)

theorem share_le {x tot : ℚ} (hx : x ≤ tot) (htot : 0 < tot) : share c x tot ≤ c := by
  have hle : (c : ℚ) * x / tot ≤ c := by
    rw [div_le_iff₀ htot]
    exact mul_le_mul_of_nonneg_left hx (Nat.cast_nonneg c)
  have hfloor : ((share c x tot : Int) : ℚ) ≤ (c : Int) := (Int.floor_le _).trans (mod_cast hle)
  exact_mod_cast hfloor

theorem part_le_sum (hw : ∀ a ∈ parts, 0 ≤ w a) (ha : a ∈ parts) : w a ≤ ∑ b ∈ parts, w b :=
  Finset.single_le_sum hw ha

/-- **Rounded shares.** Those of some of the parts add up to at most `c`. -/
theorem sum_share_le (hw : ∀ a ∈ parts, 0 ≤ w a) (hpos : 0 < ∑ a ∈ parts, w a)
    (hs : s ⊆ parts) : ∑ a ∈ s, share c (w a) (∑ b ∈ parts, w b) ≤ c := by
  have hle : ((∑ a ∈ s, share c (w a) (∑ b ∈ parts, w b) : Int) : ℚ) ≤ (c : Int) := by
    calc ((∑ a ∈ s, share c (w a) (∑ b ∈ parts, w b) : Int) : ℚ)
        = ∑ a ∈ s, ((share c (w a) (∑ b ∈ parts, w b) : Int) : ℚ) := Int.cast_sum _ _
      _ ≤ ∑ a ∈ s, (c : ℚ) * w a / ∑ b ∈ parts, w b :=
          Finset.sum_le_sum fun a _ => Int.floor_le _
      _ = (c : ℚ) * (∑ a ∈ s, w a) / ∑ b ∈ parts, w b := by
          rw [Finset.mul_sum, Finset.sum_div]
      _ ≤ (c : ℚ) * (∑ a ∈ parts, w a) / ∑ b ∈ parts, w b := by
          have hsub : ∑ a ∈ s, w a ≤ ∑ a ∈ parts, w a :=
            Finset.sum_le_sum_of_subset_of_nonneg hs fun a ha _ => hw a ha
          gcongr
      _ = (c : Int) := by
          rw [mul_div_assoc, div_self hpos.ne', mul_one, Int.cast_natCast]
  exact_mod_cast hle

end MyOs.Shares
