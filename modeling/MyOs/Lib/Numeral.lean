import Mathlib.Data.Nat.Digits.Lemmas

/-!
# Numerals

How a number is written in a base: its digits, the most significant one first, and no zero
in front of another digit. There is exactly one such list, and the texts of `Nat.toDigits`
show it.

* `isNumeral_numeral`, `IsNumeral.eq_numeral` — there is one numeral for a number.
* `numeral_length_le` — how long it is.
* `toDigits_eq` — the text of a number.
-/

namespace MyOs.Numeral

variable {b n : Nat} {ds : List Nat}

/-- The digits stand for the number in the base. -/
structure IsNumeral (b n : Nat) (ds : List Nat) : Prop where
  ne_nil : ds ≠ []
  lt : ∀ d ∈ ds, d < b
  value : Nat.ofDigits b ds.reverse = n
  leading : ∀ rest, ds = 0 :: rest → rest = []

def numeral (b n : Nat) : List Nat := if n = 0 then [0] else (Nat.digits b n).reverse

theorem numeral_of_ne_zero (h : n ≠ 0) : numeral b n = (Nat.digits b n).reverse := if_neg h

theorem isNumeral_numeral (hb : 1 < b) (n : Nat) : IsNumeral b n (numeral b n) := by
  by_cases hn : n = 0
  · subst hn
    refine ⟨List.cons_ne_nil 0 [], fun d hd => ?_, rfl, fun rest h => (List.cons.inj h).2.symm⟩
    rw [List.mem_singleton.1 hd]
    omega
  · rw [numeral_of_ne_zero hn]
    refine ⟨?_, fun d hd => ?_, ?_, fun rest h => ?_⟩
    · rw [ne_eq, List.reverse_eq_nil_iff]
      exact Nat.digits_ne_nil_iff_ne_zero.2 hn
    · exact Nat.digits_lt_base hb (List.mem_reverse.1 hd)
    · rw [List.reverse_reverse, Nat.ofDigits_digits]
    · -- the last digit of `Nat.digits` is not zero
      have hlast := Nat.getLast_digit_ne_zero b hn
      have hzero : (Nat.digits b n).getLast (Nat.digits_ne_nil_iff_ne_zero.2 hn) = 0 := by
        rw [List.getLast_eq_head_reverse]
        simp only [h, List.head_cons]
      exact absurd hzero hlast

/-- **There is one numeral** for a number. -/
theorem IsNumeral.eq_numeral (hb : 1 < b) (h : IsNumeral b n ds) : ds = numeral b n := by
  obtain ⟨hne, hlt, rfl, hleading⟩ := h
  obtain ⟨d, rest, rfl⟩ := List.exists_cons_of_ne_nil hne
  by_cases hd : d = 0
  · subst hd
    obtain rfl := hleading rest rfl
    rfl
  · have hdigits : Nat.digits b (Nat.ofDigits b (d :: rest).reverse) = (d :: rest).reverse := by
      refine Nat.digits_ofDigits b hb _ (fun x hx => hlt x (List.mem_reverse.1 hx)) fun hnil => ?_
      simpa using hd
    have hn : Nat.ofDigits b (d :: rest).reverse ≠ 0 := by
      intro hzero
      rw [hzero, Nat.digits_zero] at hdigits
      simp at hdigits
    rw [numeral_of_ne_zero hn, hdigits, List.reverse_reverse]

theorem numeral_length_le {k : Nat} (hb : 1 < b) (hk : 0 < k) (h : n < b ^ k) :
    (numeral b n).length ≤ k := by
  unfold numeral
  split
  · exact hk
  · rw [List.length_reverse, Nat.digits_length_le_iff hb]
    exact h

/-- **The text** of a number shows its numeral. -/
theorem toDigits_eq (hb : 1 < b) (n : Nat) :
    Nat.toDigits b n = (numeral b n).map Nat.digitChar := by
  induction n using Nat.strongRecOn with
  | ind n ih =>
    by_cases hlt : n < b
    · rw [Nat.toDigits_of_lt_base hlt]
      by_cases hn : n = 0
      · subst hn
        rfl
      · rw [numeral_of_ne_zero hn, Nat.digits_of_lt b n hn hlt]
        rfl
    · have hdiv : n / b ≠ 0 := by
        rw [Nat.div_ne_zero_iff]
        omega
      have hsplit : numeral b n = numeral b (n / b) ++ [n % b] := by
        rw [numeral_of_ne_zero (by omega), numeral_of_ne_zero hdiv, Nat.digits_def' hb (by omega),
          List.reverse_cons]
      rw [Nat.toDigits_of_base_le hb (Nat.le_of_not_lt hlt), hsplit,
        ih (n / b) (Nat.div_lt_self (by omega) hb), List.map_append]
      rfl

end MyOs.Numeral
