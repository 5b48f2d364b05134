import Mathlib.Data.Finset.Card
import Mathlib.Data.Rat.Floor
import Mathlib.Algebra.Order.Ring.Rat
import Mathlib.Algebra.BigOperators.Group.Finset.Basic
import MyOs.Lib.ExchangeSort
import MyOs.Lib.Fallible

/-!
# sperf — the table of system calls

The model of the table in `sperf/sperf.c`. Times are exact rationals in place of `float`,
and a failed assertion, a division by zero and a conversion to `int` that does not fit
are failures. The output of `call_print_top5` is the list of its lines; what it writes
behind them for the terminal is left out, and so are the pipe, the parser of the lines of
strace and the clock.
-/

namespace MyOs.Sperf

-- ---------------------------------------------------------------------------
-- State and failures
-- ---------------------------------------------------------------------------

/-- A C string: what stands before its `'\0'`. -/
structure Name where
  chars : List UInt8
  no_nul : 0 ∉ chars
  deriving DecidableEq

/-- `CALL_SZ`. -/
def callSz : Nat := 1000

/-- `call_t`. -/
structure Call where
  name : Option Name
  us : ℚ
  deriving DecidableEq

/-- `Calls`. -/
abbrev Calls := Fin callSz → Call

/-- `memset(Calls, 0, sizeof(Calls))`. -/
def Calls.init : Calls := fun _ => { name := none, us := 0 }

inductive Fault
  | assertFailed
  | divByZero
  | intRange
  deriving DecidableEq, Repr

abbrev Result := Except Fault

/-- A line of the report. -/
structure Line where
  name : Name
  ratio : Int
  deriving DecidableEq

-- ---------------------------------------------------------------------------
-- Functions
-- ---------------------------------------------------------------------------

/-- The loop of `call_add`, from `i` on. -/
def callAddFrom (calls : Calls) (name : Name) (us : ℚ) (i : Nat) : Result Calls :=
  if hi : i < callSz then
    let call := calls ⟨i, hi⟩
    match call.name with
    | some name' =>
      if name' = name then
        .ok (Function.update calls ⟨i, hi⟩ { call with us := call.us + us })
      else callAddFrom calls name us (i + 1)
    | none => .ok (Function.update calls ⟨i, hi⟩ { name := some name, us })
  else .error .assertFailed
termination_by callSz - i

def callAdd (calls : Calls) (name : Name) (us : ℚ) : Result Calls := callAddFrom calls name us 0

/-- Two nested loops, that exchange two entries when the later one has the larger time. -/
def callSort (calls : Calls) : Calls := ExchangeSort.sortFrom Call.us calls 0

/-- The loop that sums up `tot`, from `i` on. -/
def callTotFrom (calls : Calls) (tot : ℚ) (i : Nat) : ℚ :=
  if hi : i < callSz then
    let call := calls ⟨i, hi⟩
    callTotFrom calls (if call.name ≠ none then tot + call.us else tot) (i + 1)
  else tot
termination_by callSz - i

def callTot (calls : Calls) : ℚ := callTotFrom calls 0 0

/-- The conversion to `int`, which drops the fraction. -/
def toInt (x : ℚ) : Result Int :=
  let n := if 0 ≤ x then ⌊x⌋ else ⌈x⌉
  if -2 ^ 31 ≤ n ∧ n < 2 ^ 31 then .ok n else .error .intRange

/-- `(int)(us * 100 / tot)`. -/
def callRatio (us tot : ℚ) : Result Int :=
  if tot = 0 then .error .divByZero else toInt (us * 100 / tot)

/-- The loop that prints, from `i` on. -/
def printFrom (calls : Calls) (tot : ℚ) (i : Nat) : Result (List Line) :=
  if hi : i < 5 then
    let call := calls ⟨i, Nat.lt_trans hi (by decide)⟩
    match call.name with
    | none => .ok []
    | some name => do
      let ratio ← callRatio call.us tot
      let lines ← printFrom calls tot (i + 1)
      return { name, ratio } :: lines
  else .ok []
termination_by 5 - i

def callPrintTop5 (calls : Calls) : Result (Calls × List Line) := do
  let calls := callSort calls
  let lines ← printFrom calls (callTot calls) 0
  return (calls, lines)

-- ---------------------------------------------------------------------------
-- Runs
-- ---------------------------------------------------------------------------

/-- A call of `main`. -/
inductive Op
  | add (name : Name) (us : ℚ)
  | print
  deriving DecidableEq

def exec (calls : Calls) : Op → Result Calls
  | .add name us => callAdd calls name us
  | .print => do
    let (calls, _) ← callPrintTop5 calls
    return calls

def run (calls : Calls) (ops : List Op) : Result Calls := ops.foldlM exec calls

-- ---------------------------------------------------------------------------
-- What has been added
-- ---------------------------------------------------------------------------

def Op.name? : Op → Option Name
  | .add name _ => some name
  | .print => none

/-- What the call adds to the time of `name`. -/
def Op.time (name : Name) : Op → ℚ
  | .add name' us => if name' = name then us else 0
  | .print => 0

/-- The names that have been added. -/
def names (ops : List Op) : Finset Name := (ops.filterMap Op.name?).toFinset

/-- The time that has been added for `name`. -/
def total (ops : List Op) (name : Name) : ℚ := (ops.map (Op.time name)).sum

/-- The time that has been added for all names. -/
def grandTotal (ops : List Op) : ℚ := ∑ name ∈ names ops, total ops name

/-- Every time is positive, and the names fit into the table. -/
structure Admissible (ops : List Op) : Prop where
  pos : ∀ name us, .add name us ∈ ops → 0 < us
  fits : (names ops).card ≤ callSz

/-- The table says what has been added: its named entries are its first ones, one for each
name, with the time of that name. -/
structure Exact (ops : List Op) (calls : Calls) : Prop where
  named_iff : ∀ i, (calls i).name ≠ none ↔ i.val < (names ops).card
  distinct : ∀ i j name, (calls i).name = some name → (calls j).name = some name → i = j
  mem_iff : ∀ name, name ∈ names ops ↔ ∃ i, (calls i).name = some name
  us_eq : ∀ i name, (calls i).name = some name → (calls i).us = total ops name

/-- The report shows the names with the most time. -/
structure TopFive (ops : List Op) (lines : List Line) : Prop where
  length_eq : lines.length = min 5 (names ops).card
  distinct : (lines.map Line.name).Nodup
  mem : ∀ line ∈ lines, line.name ∈ names ops
  sorted : lines.Pairwise fun line line' => total ops line'.name ≤ total ops line.name
  top : ∀ line ∈ lines, ∀ name ∈ names ops, name ∉ lines.map Line.name →
    total ops name ≤ total ops line.name
  ratio_eq : ∀ line ∈ lines, line.ratio = ⌊100 * total ops line.name / grandTotal ops⌋
  ratio_mem : ∀ line ∈ lines, 0 ≤ line.ratio ∧ line.ratio ≤ 100
  ratio_sum : (lines.map Line.ratio).sum ≤ 100

end MyOs.Sperf
