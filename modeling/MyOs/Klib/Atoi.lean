import MyOs.Klib.Standard

/-!
# atoi against %d

`atoi` skips blanks and reads digits. It has no case for a sign, so of what `%d` writes it
reads the nonnegative numbers only: padding is blanks or leading zeros, and the digits
give the number back.

* `atoiLoop_eq` — the digits are read in base 10, modulo `2 ^ 32`.
* `atoi_padded` — padding does not matter.
* `atoi_sprintf_iff` — **`atoi` undoes `%d`** exactly for the nonnegative numbers.
-/

namespace MyOs.Klib

open MyOs.Word

variable {s : List Char} {c : Char}

-- ---------------------------------------------------------------------------
-- Reading digits
-- ---------------------------------------------------------------------------

theorem isDigit_iff : c.isDigit = true ↔ 48 ≤ c.toNat ∧ c.toNat ≤ 57 := by
  simp only [Char.isDigit, Bool.and_eq_true, decide_eq_true_eq]
  exact Iff.rfl

theorem isDigit_iff_le : c.isDigit = true ↔ '0' ≤ c ∧ c ≤ '9' := by
  rw [isDigit_iff]
  exact Iff.rfl

/-- **The digits**, read behind the value `x`. -/
theorem atoiLoop_eq (x : Nat) (h : ∀ c ∈ s, c.isDigit = true) :
    atoiLoop (toI32 x) s = toI32 (Nat.ofDigitChars 10 s x) := by
  induction s generalizing x with
  | nil => rfl
  | cons c s ih =>
    have hc := h c List.mem_cons_self
    obtain ⟨hlo, -⟩ := isDigit_iff.1 hc
    have hnext : toI32 (toI32 x * 10 + c.toNat - 48) =
        toI32 ((10 * x + (c.toNat - '0'.toNat) : Nat) : Int) := by
      rw [show toI32 x * 10 + c.toNat - 48 = toI32 x * 10 + (c.toNat - 48) by omega, toI32_mul_add]
      congr 1
      show _ = ((10 * x + (c.toNat - 48) : Nat) : Int)
      omega
    rw [atoiLoop, if_pos (isDigit_iff_le.1 hc), hnext,
      ih _ fun c' hc' => h c' (List.mem_cons_of_mem c hc'), Nat.ofDigitChars_cons]

theorem atoi_of_ne (h : ∀ c, s.head? = some c → c ≠ ' ') : atoi s = atoiLoop 0 s := by
  cases s with
  | nil => rfl
  | cons c s => exact if_neg (h c rfl)

theorem atoi_blanks (p : Nat) : atoi (List.replicate p ' ' ++ s) = atoi s := by
  induction p with
  | zero => rfl
  | succ p ih => exact ih

/-- Padding does not matter, blanks or zeros. -/
theorem atoi_padded (z : Bool) (p : Nat) (h : ∀ c, s.head? = some c → c ≠ ' ') :
    atoi (List.replicate p (if z then '0' else ' ') ++ s) = atoiLoop 0 s := by
  cases z with
  | false =>
    rw [if_neg Bool.false_ne_true, atoi_blanks, atoi_of_ne h]
  | true =>
    rw [if_pos rfl, atoi_of_ne]
    · induction p with
      | zero => rfl
      | succ p ih => exact ih
    · intro c hc
      cases p with
      | zero => exact h c hc
      | succ p =>
        obtain rfl : '0' = c := Option.some.inj hc
        decide

-- ---------------------------------------------------------------------------
-- `"%<w>d"`
-- ---------------------------------------------------------------------------

/-- Digits between the `%` and the conversion. -/
theorem exists_spec (h : ∀ c ∈ s, c.isDigit = true) :
    ∃ spec : List SpecChar, spec.map SpecChar.char = s ∧ hasPlus spec = false := by
  induction s with
  | nil => exact ⟨[], rfl, rfl⟩
  | cons c s ih =>
    obtain ⟨spec, hspec, hplus⟩ := ih fun c' hc' => h c' (List.mem_cons_of_mem c hc')
    obtain ⟨hlo, hhi⟩ := isDigit_iff.1 (h c List.mem_cons_self)
    refine ⟨.digit ⟨c.toNat - 48, by omega⟩ :: spec, ?_, by simpa [hasPlus] using hplus⟩
    have hchar : Nat.digitChar (c.toNat - 48) = c := by
      apply Char.toNat_inj.1
      rw [Nat.toNat_digitChar_of_lt_ten (by omega)]
      omega
    rw [List.map_cons, hspec, SpecChar.char, hchar]

/-- The directive with a field width, and what it writes. -/
theorem sprintf_width (n : CInt) (w : Nat) : ∃ (z : Bool) (p : Nat) (r : Int),
    vsprintf ('%' :: (Nat.toDigits 10 w ++ ['d'])) [.int n] =
      .ok (List.replicate p (if z then '0' else ' ') ++
        (signText false n.val ++ Nat.toDigits 10 n.val.natAbs) ++ ['\x00'], r) := by
  obtain ⟨spec, hspec, hplus⟩ := exists_spec (s := Nat.toDigits 10 w) fun c hc =>
    Nat.isDigit_of_mem_toDigits (by decide) (by decide) hc
  obtain ⟨z, htext, -⟩ := (IntDirective.d n).convText_eq spec
  have hrun := ((IntDirective.d n).prints spec).vsprintf
  have hfmt : formatText [.directive spec .d] = '%' :: (Nat.toDigits 10 w ++ ['d']) := by
    rw [formatText, List.flatMap_singleton, Item.text, hspec]
    rfl
  rw [htext, hplus, List.append_assoc (List.replicate _ _), IntDirective.conv, hfmt] at hrun
  exact ⟨z, _, _, hrun⟩

/-- What `atoi` reads of it. -/
theorem atoi_number (z : Bool) (p : Nat) (n : CInt) :
    atoi (List.replicate p (if z then '0' else ' ') ++
      (signText false n.val ++ Nat.toDigits 10 n.val.natAbs)) = if n.val < 0 then 0 else n.val := by
  have hdigit : ∀ c ∈ Nat.toDigits 10 n.val.natAbs, c.isDigit = true := fun c hc =>
    Nat.isDigit_of_mem_toDigits (by decide) (by decide) hc
  by_cases hneg : n.val < 0
  · -- the sign ends the number before it starts
    rw [signText, if_pos hneg, if_pos hneg, atoi_padded]
    · rfl
    · intro c hc
      obtain rfl : '-' = c := Option.some.inj hc
      decide
  · rw [signText, if_neg hneg, if_neg hneg, if_neg Bool.false_ne_true, List.nil_append, atoi_padded]
    · have hread := atoiLoop_eq 0 hdigit
      rw [Nat.ofDigitChars_ten_toDigits] at hread
      refine hread.trans ?_
      have habs : ((n.val.natAbs : Nat) : Int) = n.val := by omega
      rw [habs]
      exact toI32_of_int n.property.1 n.property.2
    · rintro c hc rfl
      have hblank := hdigit ' ' (List.mem_of_mem_head? hc)
      revert hblank
      decide

/-- **`atoi` undoes `%d`** exactly for the nonnegative numbers, with any field width. -/
theorem atoi_sprintf_iff (n : CInt) (w : Nat) :
    (∃ s r, vsprintf ('%' :: (Nat.toDigits 10 w ++ ['d'])) [.int n] = .ok (s ++ ['\x00'], r) ∧
      atoi s = n.val) ↔ 0 ≤ n.val := by
  obtain ⟨z, p, r, hrun⟩ := sprintf_width n w
  have hread := atoi_number z p n
  constructor
  · rintro ⟨s, r', hrun', hs⟩
    rw [hrun] at hrun'
    rw [List.append_cancel_right (Prod.mk.inj (Except.ok.inj hrun')).1, hs] at hread
    split at hread
    · omega
    · omega
  · intro hnonneg
    rw [if_neg (Int.not_lt.2 hnonneg)] at hread
    exact ⟨_, r, hrun, hread⟩

/-- -5 comes back as 0. -/
theorem not_atoi_sprintf :
    ¬ ∀ (n : CInt) (w : Nat), ∃ s r,
      vsprintf ('%' :: (Nat.toDigits 10 w ++ ['d'])) [.int n] = .ok (s ++ ['\x00'], r) ∧
        atoi s = n.val := by
  intro hall
  obtain ⟨s, r, hrun, hs⟩ := hall ⟨-5, by decide⟩ 1
  obtain ⟨z, p, r', hrun'⟩ := sprintf_width ⟨-5, by decide⟩ 1
  rw [hrun] at hrun'
  rw [List.append_cancel_right (Prod.mk.inj (Except.ok.inj hrun')).1, atoi_number] at hs
  revert hs
  decide

end MyOs.Klib
