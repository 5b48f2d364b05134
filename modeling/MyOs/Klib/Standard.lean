import Mathlib.Data.List.Induction
import MyOs.Klib.Formats

/-!
# Integers as the C standard prints them

The C standard puts spaces in front of the sign, zeros behind it, counts the sign as a
part of the width, and has no `+` for unsigned numbers. `sitoa` puts all padding in front
of the sign, does not count it, and writes a `+` for every conversion.

* `specRun_eq` — the width and the flags that a directive is read as.
* `numText_eq_stdText_iff` — the text of a number against the standard's.
* `vsprintf_standard_iff` — **the text is the standard's** exactly if no sign is printed, or the
  number fills the width already.
-/

namespace MyOs.Klib

open MyOs.Word

variable {spec : List SpecChar} {b w nd num : Nat} {n : Int} {flags : Flags}

-- ---------------------------------------------------------------------------
-- Directives
-- ---------------------------------------------------------------------------

/-- The value of a sequence of digits, behind `w`. -/
def digitsValue (w : Nat) (ds : List (Fin 10)) : Nat := ds.foldl (fun w d => w * 10 + d.val) w

/-- The field width that is written in a directive. -/
def specWidth (spec : List SpecChar) : Nat := digitsValue 0 (spec.filterMap SpecChar.digit?)

theorem digitsValue_eq_zero {ds : List (Fin 10)} (h : digitsValue w ds = 0) :
    w = 0 ∧ ∀ d ∈ ds, d = 0 := by
  induction ds generalizing w with
  | nil => exact ⟨h, nofun⟩
  | cons d ds ih =>
    obtain ⟨hw, hds⟩ := ih (w := w * 10 + d.val) h
    refine ⟨by omega, fun e he => ?_⟩
    rcases List.mem_cons.1 he with rfl | he
    · exact Fin.ext (by simp only [Fin.val_zero]; omega)
    · exact hds e he

theorem specWidth_digit (d : Fin 10) :
    specWidth (spec ++ [.digit d]) = specWidth spec * 10 + d.val := by
  unfold specWidth digitsValue
  rw [List.filterMap_append, List.foldl_append]
  rfl

theorem hasPlus_digit (d : Fin 10) : hasPlus (spec ++ [.digit d]) = hasPlus spec := by
  simp [hasPlus]

/-- The first digit is the last one, or was there before. A digit that comes when the width is
still zero comes first, or behind a `0`. -/
theorem hasZero_digit (d : Fin 10) : hasZero (spec ++ [.digit d]) =
    if d = 0 ∧ specWidth spec = 0 then true else hasZero spec := by
  unfold hasZero specWidth
  rw [List.filterMap_append]
  cases hds : spec.filterMap SpecChar.digit? with
  | nil => simp [digitsValue, SpecChar.digit?]
  | cons e ds =>
    by_cases hd : d = 0 ∧ digitsValue 0 (e :: ds) = 0
    · have he : e = 0 := (digitsValue_eq_zero hd.2).2 e List.mem_cons_self
      simp [hd, he]
    · simp [hd]

theorem specRun_append (c : SpecChar) : specRun (spec ++ [c]) = specStep (specRun spec) c := by
  unfold specRun
  rw [List.foldl_append, List.foldl_cons, List.foldl_nil]

/-- **What a directive is read as.** The width is the written one, as an `int`, and so is the
flag `0` as long as the width does not wrap around. -/
theorem specRun_eq (spec : List SpecChar) :
    (specRun spec).1 = toI32 (specWidth spec) ∧
      ∃ z, (specRun spec).2 = { fillZero := z, putPlus := hasPlus spec } ∧
        (specWidth spec < 2 ^ 32 → z = hasZero spec) := by
  induction spec using List.reverseRecOn with
  | nil => exact ⟨rfl, false, rfl, fun _ => rfl⟩
  | append_singleton spec c ih =>
    obtain ⟨hwidth, z, hflags, hz⟩ := ih
    rw [specRun_append]
    cases c with
    | plus =>
      have hdigits : (spec ++ [SpecChar.plus]).filterMap SpecChar.digit? =
          spec.filterMap SpecChar.digit? := by
        rw [List.filterMap_append]
        exact List.append_nil _
      refine ⟨?_, z, ?_, ?_⟩
      · rw [specWidth, hdigits]
        exact hwidth
      · simp [specStep, hflags, hasPlus]
      · rw [specWidth, hasZero, hdigits]
        exact hz
    | digit d =>
      refine ⟨?_, (if d = 0 ∧ (specRun spec).1 = 0 then true else z), ?_, fun hlt => ?_⟩
      · rw [specWidth_digit, specStep, hwidth]
        push_cast
        exact toI32_mul_add (specWidth spec) 10 d.val
      · rw [specStep, hflags, hasPlus_digit]
        split
        · rfl
        · rfl
      · -- the width before is smaller, so it is zero only if it is written so
        rw [specWidth_digit] at hlt
        obtain ⟨k, hk⟩ := exists_toI32 (specWidth spec)
        have hlo := le_toI32 (specWidth spec)
        have hhi := toI32_lt (specWidth spec)
        have hzero : (specRun spec).1 = 0 ↔ specWidth spec = 0 := by
          rw [hwidth]
          omega
        simp only [hasZero_digit, hzero, hz (show specWidth spec < 2 ^ 32 by omega)]

-- ---------------------------------------------------------------------------
-- The standard
-- ---------------------------------------------------------------------------

/-- The sign of a number. -/
def signText (plus : Bool) (n : Int) : List Char :=
  if n < 0 then ['-'] else if plus then ['+'] else []

/-- **What the C standard prints** for a number: at least `w` characters, filled with zeros between
the sign and the digits, or with spaces in front of the sign. -/
def stdText (b : Nat) (plus zero : Bool) (w : Nat) (n : Int) : List Char :=
  let digits := Nat.toDigits b n.natAbs
  let sign := signText plus n
  let pad := w - (sign.length + digits.length)
  if zero then sign ++ List.replicate pad '0' ++ digits
  else List.replicate pad ' ' ++ sign ++ digits

theorem length_signText (plus : Bool) (n : Int) :
    (signText plus n).length = if n < 0 ∨ plus = true then 1 else 0 := by
  unfold signText
  by_cases hneg : n < 0
  · simp [hneg]
  · cases plus <;> simp [hneg]

theorem signText_of_not {plus : Bool} {n : Int} (h : ¬ (n < 0 ∨ plus = true)) :
    signText plus n = [] := by
  rw [← List.length_eq_zero_iff, length_signText, if_neg h]

/-- The text has the width, or the length of the number with its sign. -/
theorem length_stdText (b : Nat) (plus zero : Bool) (w : Nat) (n : Int) :
    (stdText b plus zero w n).length =
      max w ((signText plus n).length + (Nat.toDigits b n.natAbs).length) := by
  unfold stdText
  cases zero with
  | true =>
    simp only [if_true, List.length_append, List.length_replicate]
    omega
  | false =>
    simp only [Bool.false_eq_true, if_false, List.length_append, List.length_replicate]
    omega

/-- A conversion of an integer with its argument. -/
inductive IntDirective
  | d (n : CInt)
  | u (n : CUnsigned)
  | x (n : CUnsigned)

namespace IntDirective

def conv : IntDirective → Conv
  | .d _ => .d
  | .u _ => .u
  | .x _ => .x

def arg : IntDirective → Arg
  | .d n => .int n
  | .u n => .unsigned n
  | .x n => .unsigned n

def value : IntDirective → Int
  | .d n => n.val
  | .u n => n.val
  | .x n => n.val

def base : IntDirective → Nat
  | .d _ => 10
  | .u _ => 10
  | .x _ => 16

/-- The conversion is a signed one. -/
def signed : IntDirective → Bool
  | .d _ => true
  | .u _ => false
  | .x _ => false

/-- The digits of the number. -/
def digits (dir : IntDirective) : List Char := Nat.toDigits dir.base dir.value.natAbs

/-- The text of the standard; `+` is for signed conversions. -/
def std (dir : IntDirective) (spec : List SpecChar) : List Char :=
  stdText dir.base (dir.signed && hasPlus spec) (hasZero spec) (specWidth spec) dir.value

/-- `sitoa` writes a sign. -/
def putsSign (dir : IntDirective) (spec : List SpecChar) : Prop :=
  dir.value < 0 ∨ hasPlus spec = true

end IntDirective

/-- When the text is the standard's: no sign is written, and the width does not wrap around; or
the sign of a signed conversion, of a number that fills the width without it. -/
def PrintsStandard (spec : List SpecChar) (dir : IntDirective) : Prop :=
  (¬ dir.putsSign spec ∧ specWidth spec ≤ dir.digits.length + 2 ^ 31) ∨
    (dir.putsSign spec ∧ dir.signed = true ∧ specWidth spec ≤ dir.digits.length)

-- ---------------------------------------------------------------------------
-- What `vsprintf` prints
-- ---------------------------------------------------------------------------

/-- The number that `%d` passes to `sitoa`, also for the smallest `int`. -/
theorem toU32_natAbs (n : CInt) :
    toU32 (if n.val < 0 then toI32 (-n.val) else n.val) = n.val.natAbs := by
  obtain ⟨n, hlo, hhi⟩ := n
  obtain ⟨k, hk⟩ := exists_toI32 (-n)
  unfold toU32
  dsimp only
  split
  · omega
  · omega

namespace IntDirective

variable {dir : IntDirective}

theorem natAbs_lt (dir : IntDirective) : dir.value.natAbs < 2 ^ 32 := by
  cases dir with
  | d n =>
    obtain ⟨n, hlo, hhi⟩ := n
    simp only [value]
    omega
  | u n => exact n.isLt
  | x n => exact n.isLt

theorem length_digits_le (dir : IntDirective) : dir.digits.length ≤ 32 := by
  have hbase : 2 ≤ dir.base := by cases dir <;> simp [base]
  rw [digits, Nat.length_toDigits_le_iff (by omega) (by decide)]
  exact Nat.lt_of_lt_of_le dir.natAbs_lt (Nat.pow_le_pow_left hbase 32)

theorem signed_of_neg (h : dir.value < 0) : dir.signed = true := by
  cases dir with
  | d n => rfl
  | u n => exact absurd h (Int.not_lt.2 (Int.natCast_nonneg _))
  | x n => exact absurd h (Int.not_lt.2 (Int.natCast_nonneg _))

/-- **The text of `sitoa`**: the padding of the digits, the sign, the digits. -/
theorem convText_eq (dir : IntDirective) (spec : List SpecChar) :
    ∃ z, convText (specRun spec).1 (specRun spec).2 dir.conv (some dir.arg) =
        List.replicate (padding (toI32 (specWidth spec)) dir.digits.length)
          (if z then '0' else ' ') ++ signText (hasPlus spec) dir.value ++ dir.digits ∧
      (specWidth spec < 2 ^ 32 → z = hasZero spec) := by
  obtain ⟨hwidth, z, hflags, hz⟩ := specRun_eq spec
  refine ⟨z, ?_, hz⟩
  rw [hwidth, hflags]
  cases dir with
  | d n =>
    simp only [conv, arg, convText, numText, toU32_natAbs, Flags.digits, Flags.base, digits, base,
      value, signText]
    by_cases hneg : n.val < 0
    · simp [hneg]
    · simp [hneg]
  | u n =>
    have hnonneg : ¬ ((n.val : Nat) : Int) < 0 := Int.not_lt.2 (Int.natCast_nonneg _)
    simp [conv, arg, convText, numText, Flags.digits, Flags.base, digits, base, value, signText,
      hnonneg]
  | x n =>
    have hnonneg : ¬ ((n.val : Nat) : Int) < 0 := Int.not_lt.2 (Int.natCast_nonneg _)
    simp [conv, arg, convText, numText, Flags.digits, Flags.base, digits, base, value, signText,
      hnonneg]

/-- The sign of the standard. -/
def stdSign (dir : IntDirective) (spec : List SpecChar) : List Char :=
  signText (dir.signed && hasPlus spec) dir.value

theorem std_eq (dir : IntDirective) (spec : List SpecChar) : dir.std spec =
    if hasZero spec then
      dir.stdSign spec ++ List.replicate
        (specWidth spec - ((dir.stdSign spec).length + dir.digits.length)) '0' ++ dir.digits
    else List.replicate (specWidth spec - ((dir.stdSign spec).length + dir.digits.length)) ' ' ++
      dir.stdSign spec ++ dir.digits := rfl

theorem length_std (dir : IntDirective) (spec : List SpecChar) : (dir.std spec).length =
    max (specWidth spec) ((dir.stdSign spec).length + dir.digits.length) := length_stdText ..

theorem stdSign_of_signed (h : dir.signed = true) :
    dir.stdSign spec = signText (hasPlus spec) dir.value := by rw [stdSign, h, Bool.true_and]

theorem stdSign_of_unsigned (h : dir.signed = false) : dir.stdSign spec = [] := by
  rw [stdSign, h, Bool.false_and, signText, if_neg fun hneg => by simp [signed_of_neg hneg] at h]
  rfl

theorem stdSign_of_not (h : ¬ dir.putsSign spec) : dir.stdSign spec = [] :=
  signText_of_not fun hs => h (hs.imp_right fun hp => (Bool.and_eq_true_iff.1 hp).2)

/-- **The text is the standard's.** In all other cases the lengths differ already. -/
theorem convText_eq_std_iff (dir : IntDirective) (spec : List SpecChar) :
    convText (specRun spec).1 (specRun spec).2 dir.conv (some dir.arg) = dir.std spec ↔
      PrintsStandard spec dir := by
  obtain ⟨z, htext, hz⟩ := dir.convText_eq spec
  have hnd := dir.length_digits_le
  have hfull := padding_eq_iff (w := specWidth spec) hnd
  rw [htext]
  constructor
  · intro heq
    have hlen := congrArg List.length heq
    rw [length_std] at hlen
    simp only [List.length_append, List.length_replicate] at hlen
    by_cases hsign : dir.putsSign spec
    · -- the padding does not leave room for the sign
      have hne := padding_ne_pred (specWidth spec) dir.digits.length
      have hone : (signText (hasPlus spec) dir.value).length = 1 :=
        (length_signText ..).trans (if_pos hsign)
      cases hsigned : dir.signed with
      | true =>
        rw [stdSign_of_signed hsigned, hone] at hlen
        exact .inr ⟨hsign, hsigned, by omega⟩
      | false =>
        rw [stdSign_of_unsigned hsigned, hone, List.length_nil] at hlen
        omega
    · rw [stdSign_of_not hsign, signText_of_not hsign, List.length_nil] at hlen
      exact .inl ⟨hsign, by omega⟩
  · rintro (⟨hsign, hw⟩ | ⟨hsign, hsigned, hw⟩)
    · rw [std_eq, stdSign_of_not hsign, signText_of_not hsign, hfull.2 hw, hz (by omega)]
      cases hasZero spec <;> simp
    · -- there is nothing to pad
      have hpad : specWidth spec - ((dir.stdSign spec).length + dir.digits.length) = 0 := by omega
      rw [std_eq, hpad, stdSign_of_signed hsigned, hfull.2 (by omega), Nat.sub_eq_zero_of_le hw]
      cases hasZero spec <;> simp

theorem prints (dir : IntDirective) (spec : List SpecChar) : Prints [.directive spec dir.conv]
    [dir.arg] (convText (specRun spec).1 (specRun spec).2 dir.conv (some dir.arg)) :=
  prints_directive spec (some dir.arg) (by cases dir <;> rfl)

theorem vsprintf_std_iff (dir : IntDirective) (spec : List SpecChar) :
    (∃ r, vsprintf (formatText [.directive spec dir.conv]) [dir.arg] =
      .ok (dir.std spec ++ ['\x00'], r)) ↔
    convText (specRun spec).1 (specRun spec).2 dir.conv (some dir.arg) = dir.std spec := by
  rw [(dir.prints spec).vsprintf]
  constructor
  · rintro ⟨r, h⟩
    exact List.append_cancel_right (Prod.mk.inj (Except.ok.inj h)).1
  · intro h
    exact ⟨_, by rw [h]⟩

end IntDirective

/-- **The text is the standard's**, for `%d`, `%u` and `%x` with any flags, width and argument,
exactly if no sign is written, or the sign of `%d` in front of a number that fills the width. -/
theorem vsprintf_standard_iff (spec : List SpecChar) (dir : IntDirective) :
    (∃ r, vsprintf (formatText [.directive spec dir.conv]) [dir.arg] =
      .ok (dir.std spec ++ ['\x00'], r)) ↔ PrintsStandard spec dir :=
  (dir.vsprintf_std_iff spec).trans (dir.convText_eq_std_iff spec)

/-- `"%5d"` of -3 has six characters. -/
theorem not_vsprintf_standard :
    ¬ ∀ (spec : List SpecChar) (dir : IntDirective),
      ∃ r, vsprintf (formatText [.directive spec dir.conv]) [dir.arg] =
        .ok (dir.std spec ++ ['\x00'], r) := by
  intro hall
  have hstd := hall [.digit 5] (.d ⟨-3, by decide⟩)
  rw [IntDirective.vsprintf_std_iff, IntDirective.convText_eq_std_iff] at hstd
  rcases hstd with ⟨hsign, -⟩ | ⟨-, -, hw⟩
  · exact hsign (.inl (by decide))
  · revert hw
    decide

end MyOs.Klib
