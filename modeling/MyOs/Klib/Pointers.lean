import MyOs.Klib.Numbers
import MyOs.Lib.Buffer
import MyOs.Lib.Numeral

/-!
# sitoa and its pointers

`sitoa` once more, with its pointers. `tmp` is filled from its start on, the last digit first,
and `p` stands behind the last one written; then `p` goes back to the start while `buf` goes
forward. Pointers are indices, into `tmp` and into memory, and an index outside of `tmp` is a
failure. In base 2 a number may have 32 digits, which is all that `tmp` has room for.

* `tmpLoop_eq`, `fillLoop_eq`, `copyLoop_eq` — the loops.
* `sitoa_eq` — what is written, and the pointer that is returned.
* `sitoa_digits` — **without a width and a sign it is the numeral** in the base.
-/

namespace MyOs.Klib.Pointers

open MyOs.Buffer MyOs.Numeral MyOs.Word

-- ---------------------------------------------------------------------------
-- `sitoa`
-- ---------------------------------------------------------------------------

/-- The loop that divides: `p` stands behind what has been written to `tmp`. -/
def tmpLoop (base num : Nat) (tmp : Nat → Char) (p : Nat) : PrintResult ((Nat → Char) × Nat) :=
  if p < tmpSz then
    let tmp := Function.update tmp p (remChar (num % base))
    if num / base ≠ 0 then tmpLoop base (num / base) tmp (p + 1) else .ok (tmp, p + 1)
  else .error .tmpOverflow
termination_by tmpSz - p

/-- The loop that fills up to the width. -/
def fillLoop (fill : Char) (mem : Nat → Char) (buf : Nat) (width : Int) : (Nat → Char) × Nat :=
  if _h : 0 ≤ toI32 (width - 1) then
    fillLoop fill (Function.update mem buf fill) (buf + 1) (toI32 (width - 1))
  else (mem, buf)
termination_by (toI32 (width - 1) + 1).toNat
decreasing_by
  rw [toI32_pred _h]
  omega

/-- The loop that copies the digits, `do *(buf++) = *(--p); while (tmp < p);`. -/
def copyLoop (tmp : Nat → Char) : Nat → (Nat → Char) → Nat → PrintResult ((Nat → Char) × Nat)
  | 0, _, _ => .error .tmpOverflow
  | p + 1, mem, buf =>
    let mem := Function.update mem buf (tmp p)
    if 0 < p then copyLoop tmp p mem (buf + 1) else .ok (mem, buf + 1)

/-- `sitoa`: memory behind it, and the pointer that it returns. `tmp` is what is found on the
stack. -/
def sitoa (mem tmp : Nat → Char) (buf num : Nat) (width : Int) (flags : Flags) :
    PrintResult ((Nat → Char) × Nat) := do
  let base := if flags.base2 then 2 else if flags.base10 then 10 else 16
  let (tmp, p) ← tmpLoop base num tmp 0
  let width := toI32 (width - p)
  let fill := if flags.fillZero then '0' else ' '
  let (mem, buf) := fillLoop fill mem buf width
  let (mem, buf) :=
    if flags.putMinus then (Function.update mem buf '-', buf + 1)
    else if flags.putPlus then (Function.update mem buf '+', buf + 1)
    else (mem, buf)
  copyLoop tmp p mem buf

-- ---------------------------------------------------------------------------
-- The loops
-- ---------------------------------------------------------------------------

variable {mem tmp : Nat → Char} {buf num base p room : Nat} {width : Int} {fill : Char}
  {flags : Flags} {cs : List Char}

/-- The digits stand in `tmp`. -/
theorem tmpLoop_eq (hroom : p + room = tmpSz) (h : tmpDigits base room num = .ok cs) :
    tmpLoop base num tmp p = .ok (write tmp p cs, p + cs.length) := by
  induction room generalizing num tmp p cs with
  | zero => cases h
  | succ room ih =>
    rw [tmpLoop, if_pos (by omega)]
    rw [tmpDigits] at h
    by_cases hdiv : num / base ≠ 0
    · simp only [if_pos hdiv] at h ⊢
      obtain ⟨rest, hrest, hcs⟩ := bind_eq_ok.1 h
      obtain rfl := Except.ok.inj hcs
      rw [ih (by omega) hrest, write, List.length_cons, Nat.add_assoc p, Nat.add_comm 1]
    · simp only [if_neg hdiv] at h ⊢
      obtain rfl := Except.ok.inj h
      rfl

/-- The padding stands in memory. -/
theorem fillLoop_eq : fillLoop fill mem buf width
    = (write mem buf (List.replicate (fillCount width) fill), buf + fillCount width) := by
  induction mem, buf, width using fillLoop.induct fill with
  | case1 mem buf width h ih =>
    rw [fillLoop, dif_pos h, ih, fillCount_succ h, List.replicate_succ, write, Nat.add_assoc,
      Nat.add_comm 1]
  | case2 mem buf width h =>
    rw [fillLoop, dif_neg h, fillCount_zero h]
    rfl

/-- The digits stand in memory, the last one of `tmp` first. -/
theorem copyLoop_eq (p : Nat) (mem : Nat → Char) (buf : Nat) : copyLoop tmp (p + 1) mem buf
    = .ok (write mem buf ((List.range (p + 1)).map tmp).reverse, buf + (p + 1)) := by
  induction p generalizing mem buf with
  | zero => rfl
  | succ p ih =>
    rw [copyLoop]
    simp only [Nat.zero_lt_succ, if_true]
    rw [ih, List.range_succ (n := p + 1), List.map_append, List.reverse_append, List.map_singleton,
      List.reverse_singleton, List.singleton_append, write]
    congr 2
    omega

-- ---------------------------------------------------------------------------
-- What is written
-- ---------------------------------------------------------------------------

/-- **`sitoa`** writes its text to memory, and returns the end of it. -/
theorem sitoa_eq (mem tmp : Nat → Char) (buf : Nat) (h : num < 2 ^ 32) (width : Int)
    (flags : Flags) : sitoa mem tmp buf num width flags
      = .ok (write mem buf (numText num width flags), buf + (numText num width flags).length) := by
  have hbase : (if flags.base2 then 2 else if flags.base10 then 10 else 16) = flags.base := rfl
  have htmp : tmpLoop flags.base num tmp 0
      = .ok (write tmp 0 (flags.digits num).reverse, (flags.digits num).length) := by
    rw [tmpLoop_eq (Nat.zero_add tmpSz) (tmpDigits_flags h), Nat.zero_add, List.length_reverse]
  obtain ⟨p, hp⟩ : ∃ p, (flags.digits num).length = p + 1 :=
    ⟨_, (Nat.succ_pred_eq_of_pos (List.length_pos_iff.2 Nat.toDigits_ne_nil)).symm⟩
  have hcopied : ((List.range (p + 1)).map (write tmp 0 (flags.digits num).reverse)).reverse
      = flags.digits num := by
    rw [← hp, ← List.length_reverse, map_write, List.reverse_reverse]
  obtain ⟨pad, hpad⟩ : ∃ pad, List.replicate (padding width (flags.digits num).length)
      (if flags.fillZero then '0' else ' ') = pad := ⟨_, rfl⟩
  obtain ⟨sign, hsign⟩ : ∃ sign,
      (if flags.putMinus then ['-'] else if flags.putPlus then ['+'] else []) = sign := ⟨_, rfl⟩
  have hfill : fillLoop (if flags.fillZero then '0' else ' ') mem buf
      (toI32 (width - (flags.digits num).length)) = (write mem buf pad, buf + pad.length) := by
    rw [fillLoop_eq, ← hpad, List.length_replicate]
    rfl
  have hput : ∀ (mem : Nat → Char) (buf : Nat),
      (if flags.putMinus then (Function.update mem buf '-', buf + 1)
        else if flags.putPlus then (Function.update mem buf '+', buf + 1) else (mem, buf))
        = (write mem buf sign, buf + sign.length) := by
    intro mem buf
    rw [← hsign]
    cases flags.putMinus <;> cases flags.putPlus <;> rfl
  rw [sitoa, hbase, htmp, ok_bind]
  simp only [hfill, hput]
  have htext : numText num width flags = pad ++ sign ++ flags.digits num := by
    rw [numText, hpad, hsign]
  rw [htext, write_append, write_append, hp, copyLoop_eq, hcopied]
  simp only [List.length_append, Nat.add_assoc, hp]

/-- The digits of all bases. -/
def digitText (d : Nat) : Char := "0123456789abcdef".toList.getD d ' '

/-- **Without a width and a sign** `sitoa` writes the numeral of its number in the base, and
returns the end of it; `tmp` has room for it. -/
theorem sitoa_digits (mem tmp : Nat → Char) (buf : Nat) (num : CUnsigned)
    (fillZero base2 base10 : Bool) :
    let flags : Flags := { fillZero, base2, base10 }
    ∃ ds, IsNumeral flags.base num ds ∧ (∀ ds', IsNumeral flags.base num ds' → ds' = ds) ∧
      ds.length ≤ tmpSz ∧
      sitoa mem tmp buf num 0 flags = .ok (write mem buf (ds.map digitText), buf + ds.length) := by
  intro flags
  obtain ⟨hlo, hhi⟩ := base_bounds flags
  have hnumeral := isNumeral_numeral (b := flags.base) hlo num
  have hshow : ∀ d < 16, Nat.digitChar d = digitText d := by decide
  have hdigits : flags.digits num = (numeral flags.base num).map digitText := by
    rw [Flags.digits, toDigits_eq hlo]
    exact List.map_congr_left fun d hd => hshow d ((hnumeral.lt d hd).trans_le hhi)
  have hlength : (numeral flags.base num).length ≤ tmpSz :=
    numeral_length_le hlo (by decide) (num.isLt.trans_le (Nat.pow_le_pow_left hlo 32))
  have hpadding : padding 0 (flags.digits num).length = 0 := by
    rw [hdigits, List.length_map]
    have hzero := (padding_eq_iff (w := 0) hlength).2 (Nat.zero_le _)
    rwa [Nat.zero_sub] at hzero
  have htext : numText num 0 flags = (numeral flags.base num).map digitText := by
    rw [numText, hpadding, ← hdigits]
    rfl
  refine ⟨numeral flags.base num, hnumeral, fun ds' h => h.eq_numeral hlo, hlength, ?_⟩
  rw [sitoa_eq mem tmp buf num.isLt, htext, List.length_map]

end MyOs.Klib.Pointers
