import MyOs.Lib.Fallible
import MyOs.Lib.Word

/-!
# klib — vsprintf and atoi

The model of `sitoa` and `vsprintf` of `klib/src/stdio.c`, and of `atoi` of
`klib/src/stdlib.c`. A C string is the list of its characters before the `'\0'`, and the
pointers into the output are replaced by what has been written so far. `int` and
`unsigned int` have 32 bits, and their arithmetic wraps around. The arguments of a call
carry their types: an argument that is missing or of another type is a failure, and so is
a failed assertion or a digit behind the end of `tmp`.
-/

namespace MyOs.Klib

open MyOs.Word

-- ---------------------------------------------------------------------------
-- Values and failures
-- ---------------------------------------------------------------------------

/-- `int`. -/
abbrev CInt := { n : Int // -2 ^ 31 ≤ n ∧ n < 2 ^ 31 }

/-- `unsigned int`. -/
abbrev CUnsigned := Fin (2 ^ 32)

/-- What a `const char *` points to. -/
abbrev CString := { s : List Char // '\x00' ∉ s }

inductive Arg
  | int (n : CInt)
  | unsigned (n : CUnsigned)
  | str (p : Option CString)
  deriving DecidableEq

inductive PrintFault
  | assertFailed
  | tmpOverflow
  | badArg
  deriving DecidableEq, Repr

abbrev PrintResult := Except PrintFault

/-- `enum flag_itoa`. -/
structure Flags where
  fillZero : Bool := false
  putPlus : Bool := false
  putMinus : Bool := false
  base2 : Bool := false
  base10 : Bool := false
  deriving DecidableEq

-- ---------------------------------------------------------------------------
-- `sitoa`
-- ---------------------------------------------------------------------------

/-- `sizeof(tmp)`. -/
def tmpSz : Nat := 32

/-- The character of a digit. -/
def remChar (rem : Nat) : Char :=
  if rem ≤ 9 then Char.ofNat (rem + 48) else Char.ofNat (rem + 97 - 10)

/-- The loop that writes the digits to `tmp`, the last one first, with `room` characters left. -/
def tmpDigits (base : Nat) : Nat → Nat → PrintResult (List Char)
  | 0, _ => .error .tmpOverflow
  | room + 1, num =>
    let c := remChar (num % base)
    if num / base ≠ 0 then do
      let rest ← tmpDigits base room (num / base)
      return c :: rest
    else return [c]

/-- The width that is left gets smaller. -/
theorem toI32_pred {width : Int} (h : 0 ≤ toI32 (width - 1)) :
    toI32 (toI32 (width - 1) - 1) = toI32 (width - 1) - 1 := by
  have hlt := toI32_lt (width - 1)
  exact toI32_of_int (by omega) (by omega)

/-- The loop that fills up to the width. -/
def fillLoop (fill : Char) (buf : List Char) (width : Int) : List Char :=
  if _h : 0 ≤ toI32 (width - 1) then fillLoop fill (buf ++ [fill]) (toI32 (width - 1)) else buf
termination_by (toI32 (width - 1) + 1).toNat
decreasing_by
  rw [toI32_pred _h]
  omega

/-- `sitoa`. `buf` is what has been written before. -/
def sitoa (buf : List Char) (num : Nat) (width : Int) (flags : Flags) :
    PrintResult (List Char) := do
  let base := if flags.base2 then 2 else if flags.base10 then 10 else 16
  let tmp ← tmpDigits base tmpSz num
  let width := toI32 (width - tmp.length)
  let fill := if flags.fillZero then '0' else ' '
  let buf := fillLoop fill buf width
  let buf :=
    if flags.putMinus then buf ++ ['-']
    else if flags.putPlus then buf ++ ['+']
    else buf
  return buf ++ tmp.reverse

-- ---------------------------------------------------------------------------
-- `vsprintf`
-- ---------------------------------------------------------------------------

/-- `va_arg(ap, int)`, with the arguments behind it. -/
def vaInt : List Arg → PrintResult (Int × List Arg)
  | .int n :: ap => .ok (n.val, ap)
  | _ => .error .badArg

/-- `va_arg(ap, unsigned int)`. -/
def vaUnsigned : List Arg → PrintResult (Nat × List Arg)
  | .unsigned n :: ap => .ok (n.val, ap)
  | _ => .error .badArg

/-- `va_arg(ap, const char *)`. -/
def vaStr : List Arg → PrintResult (Option CString × List Arg)
  | .str p :: ap => .ok (p, ap)
  | _ => .error .badArg

/-- The conversion of an `int` to `char`. -/
def toCChar (n : Int) : Char := Char.ofNat (n % 256).toNat

mutual

/-- The loop of `vsprintf`. `out` is what has been written before. -/
def vsprintfLoop : List Char → List Char → List Arg → PrintResult (List Char)
  | [], out, _ => .ok out
  | c :: fmt, out, ap =>
    if c ≠ '%' then vsprintfLoop fmt (out ++ [c]) ap
    else redoSpec fmt out 0 {} ap

/-- From `redo_spec` on. -/
def redoSpec : List Char → List Char → Int → Flags → List Arg → PrintResult (List Char)
  | [], _, _, _, _ => .error .assertFailed
  | c :: fmt, out, width, flags, ap =>
    match c with
    | '%' => vsprintfLoop fmt (out ++ [c]) ap
    | 'c' => do
      let (n, ap) ← vaInt ap
      vsprintfLoop fmt (out ++ [toCChar n]) ap
    | 'd' => do
      let (num, ap) ← vaInt ap
      let flags := if num < 0 then { flags with putMinus := true } else flags
      let num := if num < 0 then toI32 (-num) else num
      let out ← sitoa out (toU32 num) width { flags with base10 := true }
      vsprintfLoop fmt out ap
    | 'u' => do
      let (num, ap) ← vaUnsigned ap
      let out ← sitoa out num width { flags with base10 := true }
      vsprintfLoop fmt out ap
    | 'p' => do
      let (num, ap) ← vaUnsigned ap
      let out ← sitoa out num 12 { flags with fillZero := true }
      vsprintfLoop fmt out ap
    | 'x' => do
      let (num, ap) ← vaUnsigned ap
      let out ← sitoa out num width flags
      vsprintfLoop fmt out ap
    | 'b' => do
      let (num, ap) ← vaUnsigned ap
      let out ← sitoa out num width { flags with base2 := true }
      vsprintfLoop fmt out ap
    | 's' => do
      let (p, ap) ← vaStr ap
      match p with
      | some s => vsprintfLoop fmt (out ++ s.val) ap
      | none => vsprintfLoop fmt out ap
    | '0' =>
      let flags := if width = 0 then { flags with fillZero := true } else flags
      redoSpec fmt out (toI32 (width * 10)) flags ap
    | '+' => redoSpec fmt out width { flags with putPlus := true } ap
    | c =>
      if '1' ≤ c ∧ c ≤ '9' then
        redoSpec fmt out (toI32 (width * 10 + c.toNat - 48)) flags ap
      else .error .assertFailed

end

/-- `vsprintf`: what it writes, and its return value. -/
def vsprintf (fmt : List Char) (ap : List Arg) : PrintResult (List Char × Int) := do
  let out ← vsprintfLoop fmt [] ap
  return (out ++ ['\x00'], toI32 out.length)

-- ---------------------------------------------------------------------------
-- `atoi`
-- ---------------------------------------------------------------------------

/-- The loop over the digits. -/
def atoiLoop (x : Int) : List Char → Int
  | [] => x
  | c :: nptr =>
    if '0' ≤ c ∧ c ≤ '9' then atoiLoop (toI32 (x * 10 + c.toNat - 48)) nptr else x

def atoi : List Char → Int
  | [] => 0
  | c :: nptr => if c = ' ' then atoi nptr else atoiLoop 0 (c :: nptr)

end MyOs.Klib
