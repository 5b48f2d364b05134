import MyOs.Klib.Printf

/-!
# What sitoa writes

`sitoa` writes the padding, then the sign, then the digits, and the padding is counted
from the digits alone. The digits are those of the number in its base, and they always
fit into `tmp`. A width that has wrapped around `int` makes the padding wrap, too.

* `tmpDigits_eq` — the digits.
* `fillLoop_eq` — the padding.
* `sitoa_eq` — the whole text.
* `padding_eq_iff`, `padding_ne_pred` — how much padding a written width gives.
-/

namespace MyOs.Klib

open MyOs.Word

variable {buf : List Char} {num b nd : Nat} {width : Int} {fill : Char} {flags : Flags}

-- ---------------------------------------------------------------------------
-- Digits
-- ---------------------------------------------------------------------------

theorem remChar_eq {rem : Nat} (h : rem < 16) : remChar rem = Nat.digitChar rem := by
  have hall : ∀ r < 16, remChar r = Nat.digitChar r := by decide
  exact hall rem h

/-- The digits come in reverse, as long as they fit. -/
theorem tmpDigits_eq (room : Nat) (hlo : 2 ≤ b) (hhi : b ≤ 16) (h : num < b ^ (room + 1)) :
    tmpDigits b (room + 1) num = .ok (Nat.toDigits b num).reverse := by
  induction room generalizing num with
  | zero =>
    rw [Nat.zero_add, Nat.pow_one] at h
    rw [tmpDigits, Nat.div_eq_of_lt h, Nat.mod_eq_of_lt h, remChar_eq (by omega),
      Nat.toDigits_of_lt_base h]
    rfl
  | succ room ih =>
    have hmod : num % b < 16 := Nat.lt_of_lt_of_le (Nat.mod_lt _ (by omega)) hhi
    rw [tmpDigits, remChar_eq hmod]
    by_cases hlt : num < b
    · rw [Nat.div_eq_of_lt hlt, Nat.mod_eq_of_lt hlt, Nat.toDigits_of_lt_base hlt]
      rfl
    · have hdiv : num / b ≠ 0 := by
        rw [Nat.div_ne_zero_iff]
        omega
      have hrest : num / b < b ^ (room + 1) := by
        rw [Nat.div_lt_iff_lt_mul (by omega), ← Nat.pow_succ]
        exact h
      rw [ih hrest, Nat.toDigits_of_base_le (by omega) (Nat.le_of_not_lt hlt), List.reverse_append]
      simp [hdiv]

/-- The base that `sitoa` takes from its flags. -/
def Flags.base (flags : Flags) : Nat := if flags.base2 then 2 else if flags.base10 then 10 else 16

/-- The digits of a number, for the flags. -/
def Flags.digits (flags : Flags) (num : Nat) : List Char := Nat.toDigits flags.base num

theorem base_bounds (flags : Flags) : 2 ≤ flags.base ∧ flags.base ≤ 16 := by
  unfold Flags.base
  split
  · decide
  · split <;> decide

/-- **`tmp` is large enough.** -/
theorem tmpDigits_flags (h : num < 2 ^ 32) :
    tmpDigits flags.base tmpSz num = .ok (flags.digits num).reverse := by
  obtain ⟨hlo, hhi⟩ := base_bounds flags
  exact tmpDigits_eq 31 hlo hhi (Nat.lt_of_lt_of_le h (Nat.pow_le_pow_left hlo 32))

-- ---------------------------------------------------------------------------
-- Padding
-- ---------------------------------------------------------------------------

/-- How often `0 <= --width` holds. -/
def fillCount (width : Int) : Nat := (toI32 (width - 1) + 1).toNat

theorem fillCount_succ (h : 0 ≤ toI32 (width - 1)) :
    fillCount width = fillCount (toI32 (width - 1)) + 1 := by
  have hpred := toI32_pred h
  unfold fillCount
  omega

theorem fillCount_zero (h : ¬ 0 ≤ toI32 (width - 1)) : fillCount width = 0 := by
  unfold fillCount
  omega

/-- **The loop** fills as long as the width that is left is not negative. -/
theorem fillLoop_eq :
    fillLoop fill buf width = buf ++ List.replicate (fillCount width) fill := by
  induction buf, width using fillLoop.induct fill with
  | case1 buf width h ih =>
    rw [fillLoop, dif_pos h, ih, fillCount_succ h, List.replicate_succ, List.append_assoc,
      List.singleton_append]
  | case2 buf width h =>
    rw [fillLoop, dif_neg h, fillCount_zero h, List.replicate_zero, List.append_nil]

/-- The padding of `nd` digits in a width. -/
def padding (width : Int) (nd : Nat) : Nat := fillCount (toI32 (width - nd))

/-- What `sitoa` writes. -/
def numText (num : Nat) (width : Int) (flags : Flags) : List Char :=
  List.replicate (padding width (flags.digits num).length) (if flags.fillZero then '0' else ' ') ++
    (if flags.putMinus then ['-'] else if flags.putPlus then ['+'] else []) ++ flags.digits num

/-- **`sitoa`.** -/
theorem sitoa_eq (h : num < 2 ^ 32) :
    sitoa buf num width flags = .ok (buf ++ numText num width flags) := by
  have hbase : (if flags.base2 then 2 else if flags.base10 then 10 else 16) = flags.base := rfl
  unfold sitoa
  simp only [hbase, tmpDigits_flags h, ok_bind, fillLoop_eq, List.length_reverse,
    List.reverse_reverse, pure_eq_ok]
  unfold numText padding
  by_cases hminus : flags.putMinus
  · simp [hminus]
  · by_cases hplus : flags.putPlus
    · simp [hminus, hplus]
    · simp [hminus, hplus]

-- ---------------------------------------------------------------------------
-- The padding of a written width
-- ---------------------------------------------------------------------------

theorem padding_toI32 (w nd : Nat) :
    padding (toI32 w) nd = (toI32 (w - nd - 1) + 1).toNat := by
  unfold padding fillCount
  rw [toI32_sub_toI32, Int.sub_sub, toI32_sub_toI32, ← Int.sub_sub]

/-- A written width is filled up, unless it is so large that it wraps around. -/
theorem padding_eq_iff {w : Nat} (hnd : nd ≤ 32) :
    padding (toI32 w) nd = w - nd ↔ w ≤ nd + 2 ^ 31 := by
  have hlo := le_toI32 (w - nd - 1)
  have hhi := toI32_lt (w - nd - 1)
  obtain ⟨k, hk⟩ := exists_toI32 (w - nd - 1)
  rw [padding_toI32]
  omega

/-- The padding is never one less than what is missing. -/
theorem padding_ne_pred (w nd : Nat) (h : nd < w) :
    padding (toI32 w) nd ≠ w - nd - 1 := by
  have hlo := le_toI32 (w - nd - 1)
  have hhi := toI32_lt (w - nd - 1)
  obtain ⟨k, hk⟩ := exists_toI32 (w - nd - 1)
  rw [padding_toI32]
  omega

end MyOs.Klib
