import MyOs.Lib.Fallible

/-!
# crepl — the interactive C session

The model of `crepl/crepl.c`. What gcc accepts is a parameter `ok` on source texts, and a
source text is the list of its lines; `libcrepl.so` is the source it has been built from.
What the program prints and the calls into the library are left out, and so are failures
of files and processes. A string that is longer than its buffer is a failure.
-/

namespace MyOs.Crepl

abbrev Line := List Char

abbrev Source := List Line

-- ---------------------------------------------------------------------------
-- State and failures
-- ---------------------------------------------------------------------------

inductive Fault
  | bufferOverflow
  deriving DecidableEq, Repr

abbrev Result := Except Fault

/-- The file `filename`, `libcrepl.so`, and `nexp`. -/
structure Session where
  file : Source
  lib : Option Source
  nexp : Nat
  deriving DecidableEq

/-- The session after `mkstemp`, with the library of an earlier one. -/
def start (lib : Option Source) : Session := { file := [], lib, nexp := 0 }

-- ---------------------------------------------------------------------------
-- Functions
-- ---------------------------------------------------------------------------

/-- A line that starts with `int `, behind blanks. -/
def isFunc (str : Line) : Bool :=
  match str.dropWhile (· = ' ') with
  | 'i' :: 'n' :: 't' :: ' ' :: _ => true
  | _ => false

/-- The line compiles alone. -/
def isValid (ok : Source → Bool) (line : Line) : Bool := ok [line]

/-- gcc replaces the library, or leaves it when it fails. -/
def build (ok : Source → Bool) (s : Session) : Session :=
  if ok s.file then { s with lib := some s.file } else s

def funcHandler (ok : Source → Bool) (s : Session) (line : Line) : Session × Bool :=
  if isValid ok line then
    let s := { s with file := s.file ++ [line] }
    (build ok s, true)
  else (s, false)

/-- `sizeof(expr)`. -/
def exprSz : Nat := 1024

def wrapperName (nexp : Nat) : Line := "__expr_wrapper_".toList ++ Nat.toDigits 10 nexp

/-- `expr`: `int name(){return line;}`. -/
def wrapper (nexp : Nat) (line : Line) : Line :=
  "int ".toList ++ wrapperName nexp ++ "()\x7breturn ".toList ++ line ++ ";\x7d".toList

/-- `expr_handler`, with what `func_handler` has returned to it. -/
def exprHandler (ok : Source → Bool) (s : Session) (line : Line) : Result (Session × Bool) :=
  let expr := wrapper s.nexp line
  let s := { s with nexp := s.nexp + 1 }
  if expr.length < exprSz then .ok (funcHandler ok s expr) else .error .bufferOverflow

-- ---------------------------------------------------------------------------
-- Sessions
-- ---------------------------------------------------------------------------

/-- A line, with the handler that gets it. -/
inductive Command
  | func (line : Line)
  | expr (line : Line)
  deriving DecidableEq

/-- `main` chooses the handler. -/
def dispatch (line : Line) : Command := if isFunc line then .func line else .expr line

/-- The text that the handler passes to gcc. -/
def Command.text (nexp : Nat) : Command → Line
  | .func line => line
  | .expr line => wrapper nexp line

def exec (ok : Source → Bool) (s : Session) : Command → Result (Session × Bool)
  | .func line => .ok (funcHandler ok s line)
  | .expr line => exprHandler ok s line

/-- The session behind some commands. -/
def run (ok : Source → Bool) (s : Session) (commands : List Command) : Result Session :=
  commands.foldlM (fun s c => do
    let (s, _) ← exec ok s c
    return s) s

/-- The loop of `main`. -/
def mainLoop (ok : Source → Bool) (s : Session) (lines : List Line) : Result Session :=
  run ok s (lines.map dispatch)

-- ---------------------------------------------------------------------------
-- The contract of `func_handler`
-- ---------------------------------------------------------------------------

/-- A call with the text `text` that has returned `ret`: on success the library is that of
the source with the text, on failure nothing has changed. -/
structure CallSound (ok : Source → Bool) (s : Session) (text : Line) (s' : Session) (ret : Bool) :
    Prop where
  success : ret = true →
    s'.file = s.file ++ [text] ∧ ok s'.file = true ∧ s'.lib = some s'.file
  failure : ret = false → s'.file = s.file ∧ s'.lib = s.lib

/-- Every call of the session succeeds or fails as it should. -/
def Sound (ok : Source → Bool) (s : Session) : List Command → Prop
  | [] => True
  | c :: commands => ∃ s' ret, exec ok s c = .ok (s', ret) ∧
      CallSound ok s (c.text s.nexp) s' ret ∧ Sound ok s' commands

/-- The text of a command fits into its buffer. -/
def Command.Fits (nexp : Nat) : Command → Prop
  | .func _ => True
  | .expr line => (wrapper nexp line).length < exprSz

/-- gcc accepts the whole source with the text if it accepts the text alone. -/
def Agrees (ok : Source → Bool) (s : Session) (text : Line) : Prop :=
  ok [text] = true → ok (s.file ++ [text]) = true

/-- At every command of the session the two checks of gcc agree. -/
def AllAgree (ok : Source → Bool) (s : Session) : List Command → Prop
  | [] => True
  | c :: commands => c.Fits s.nexp ∧ Agrees ok s (c.text s.nexp) ∧
      ∀ s' ret, exec ok s c = .ok (s', ret) → AllAgree ok s' commands

end MyOs.Crepl
