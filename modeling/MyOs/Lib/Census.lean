import Mathlib.Data.Finset.Card
import Mathlib.Data.Fintype.Basic
import Mathlib.Logic.Function.Basic
import Mathlib.Tactic.Common

/-!
# Counting threads

How many of finitely many threads stand at a control point of some kind, and how
the number changes when one thread moves.
-/

namespace MyOs.Census

variable {ι α : Type*} [Fintype ι] [DecidableEq ι] {p : α → Bool} {f : ι → α} {t : ι} {x : α}

/-- The number of threads at a control point with `p`. -/
def census (p : α → Bool) (f : ι → α) : Nat := (Finset.univ.filter fun i => p (f i) = true).card

/-- The other threads with `p`. -/
theorem census_eq (p : α → Bool) (f : ι → α) (t : ι) :
    census p f = (Finset.univ.filter fun i => i ≠ t ∧ p (f i) = true).card + (p (f t)).toNat := by
  unfold census
  by_cases ht : p (f t) = true
  · have hsplit : (Finset.univ.filter fun i => p (f i) = true) =
        insert t (Finset.univ.filter fun i => i ≠ t ∧ p (f i) = true) := by
      ext i
      by_cases hi : i = t <;> simp [hi, ht]
    rw [hsplit, Finset.card_insert_of_notMem (by simp), ht]
    rfl
  · have hsame : (Finset.univ.filter fun i => p (f i) = true) =
        Finset.univ.filter fun i => i ≠ t ∧ p (f i) = true := by
      ext i
      by_cases hi : i = t <;> simp [hi, ht]
    rw [hsame, Bool.eq_false_of_not_eq_true ht]
    rfl

/-- **One thread moves.** -/
theorem census_update :
    census p (Function.update f t x) + (p (f t)).toNat = census p f + (p x).toNat := by
  rw [census_eq p (Function.update f t x) t, census_eq p f t, Function.update_self]
  have hsame : (Finset.univ.filter fun i => i ≠ t ∧ p (Function.update f t x i) = true) =
      Finset.univ.filter fun i => i ≠ t ∧ p (f i) = true := by
    ext i
    by_cases hi : i = t <;> simp [hi]
  rw [hsame]
  omega

/-- A thread that stands there is counted. -/
theorem census_pos (h : p (f t) = true) : 0 < census p f := by
  rw [census_eq p f t, h]
  exact Nat.succ_pos _

omit [DecidableEq ι] in
theorem census_eq_zero (h : ∀ i, p (f i) = false) : census p f = 0 := by
  unfold census
  simp [h]

end MyOs.Census
