import Mathlib.Tactic.Common
import Mathlib.Tactic.Ring

/-!
# Long division by bits

The bits of the numerator are taken from the highest one down. What has been taken so far has
been divided: it is a multiple of the denominator and a remainder.

* `Divided.step` — one bit more.
* `Divided.quotient_eq`, `Divided.remainder_eq` — **at the end** these are quotient and remainder.
-/

namespace MyOs.LongDivision

/-- The numerator without its `k` low bits has been divided. -/
structure Divided (n d k q r : Nat) : Prop where
  eq : n / 2 ^ k = q * d + r
  lt : r < d

variable {n d k q r : Nat}

/-- The bit that comes next. -/
theorem div_two_pow (n k : Nat) : n / 2 ^ k = 2 * (n / 2 ^ (k + 1)) + n / 2 ^ k % 2 := by
  rw [pow_succ, ← Nat.div_div_eq_div_mul]
  omega

/-- The remainder with the next bit is less than twice the denominator. -/
theorem Divided.next_lt (h : Divided n d (k + 1) q r) : 2 * r + n / 2 ^ k % 2 < 2 * d := by
  have hlt := h.lt
  omega

/-- **One bit more**: the denominator goes into the remainder or it does not. -/
theorem Divided.step (h : Divided n d (k + 1) q r) :
    if d ≤ 2 * r + n / 2 ^ k % 2 then Divided n d k (2 * q + 1) (2 * r + n / 2 ^ k % 2 - d)
    else Divided n d k (2 * q) (2 * r + n / 2 ^ k % 2) := by
  have hlt := h.next_lt
  have heq : n / 2 ^ k = 2 * (q * d) + (2 * r + n / 2 ^ k % 2) := by
    rw [div_two_pow n k, h.eq]
    omega
  by_cases hle : d ≤ 2 * r + n / 2 ^ k % 2
  · rw [if_pos hle]
    refine ⟨?_, by omega⟩
    have hmul : (2 * q + 1) * d = 2 * (q * d) + d := by ring
    omega
  · rw [if_neg hle]
    refine ⟨?_, by omega⟩
    rw [Nat.mul_assoc]
    exact heq

/-- **All bits**: the quotient. -/
theorem Divided.quotient_eq (h : Divided n d 0 q r) : n / d = q := by
  have heq := h.eq
  have hlt := h.lt
  rw [pow_zero, Nat.div_one] at heq
  rw [heq, Nat.mul_comm, Nat.mul_add_div (by omega), Nat.div_eq_of_lt hlt, Nat.add_zero]

/-- **All bits**: the remainder. -/
theorem Divided.remainder_eq (h : Divided n d 0 q r) : n % d = r := by
  have heq := h.eq
  rw [pow_zero, Nat.div_one] at heq
  rw [heq, Nat.mul_comm, Nat.mul_add_mod, Nat.mod_eq_of_lt h.lt]

/-- The bits that are taken at once, when these are fewer than the denominator has. -/
theorem Divided.start (h : n / 2 ^ k < d) : Divided n d k 0 (n / 2 ^ k) :=
  ⟨by rw [Nat.zero_mul, Nat.zero_add], h⟩

end MyOs.LongDivision
