import MyOs.Lib.Fallible
import MyOs.Lib.SelectionSort
import MyOs.Lib.Word

/-!
# pstree — the tree of processes

The model of `pstree/pstree.c`. A C string is the list of its characters before the `'\0'`,
a field of `malloc`ed memory that has not been written is `none`, and what is printed is
a text. A failed assertion, a string behind the end of its buffer, an entry behind the end
of `pro` and the use of a field that has not been written are failures. The recursion of
`print_pro` is bounded by `fuel`.

`fscanf`, `atoi` and `strncpy` do what the C standard says in the C locale; a number that
does not fit into an `int`, which the standard leaves open, wraps around. The options and
the text of `--version` are left out.
-/

namespace MyOs.Pstree

open MyOs.Word

-- ---------------------------------------------------------------------------
-- State and failures
-- ---------------------------------------------------------------------------

inductive Fault
  | assertFailed
  | bufferOverflow
  | heapOverflow
  | uninitialised
  deriving DecidableEq, Repr

abbrev Result := Except Fault

/-- `struct process`. -/
structure Process where
  pid : Int
  name : List Char
  ppid : Int
  deriving DecidableEq

/-- A `struct process` in memory. -/
structure Entry where
  pid : Option Int
  name : Option (List Char)
  ppid : Option Int
  deriving DecidableEq

/-- What `malloc` leaves. -/
def Entry.fresh : Entry := { pid := none, name := none, ppid := none }

/-- Each field has been written. -/
def Entry.process? (e : Entry) : Option Process := do
  let pid ← e.pid
  let name ← e.name
  let ppid ← e.ppid
  return { pid, name, ppid }

/-- An array of `struct process`. -/
structure Pro where
  size : Nat
  entry : Nat → Entry

/-- `malloc`. -/
def Pro.fresh (size : Nat) : Pro where
  size
  entry _ := .fresh

def Pro.get (pro : Pro) (i : Nat) : Result Entry :=
  if i < pro.size then .ok (pro.entry i) else .error .heapOverflow

def Pro.set (pro : Pro) (i : Nat) (e : Entry) : Pro :=
  { pro with entry := Function.update pro.entry i e }

-- ---------------------------------------------------------------------------
-- The C library
-- ---------------------------------------------------------------------------

def isSpace (c : Char) : Bool := c = ' ' ∨ ('\t' ≤ c ∧ c ≤ '\r')

/-- A directive of white space. -/
def skipSpace (text : List Char) : List Char := text.dropWhile isSpace

/-- The sign of a number, and what stands behind it. -/
def scanSign : List Char → Int × List Char
  | '-' :: text => (-1, text)
  | '+' :: text => (1, text)
  | text => (1, text)

/-- `%d`. -/
def scanInt (text : List Char) : Option (Int × List Char) :=
  let (sign, text) := scanSign (skipSpace text)
  let digits := text.takeWhile Char.isDigit
  if digits = [] then none
  else some (toI32 (sign * Nat.ofDigitChars 10 digits 0), text.dropWhile Char.isDigit)

/-- `%s`. -/
def scanWord (text : List Char) : Option (List Char × List Char) :=
  let text := skipSpace text
  let word := text.takeWhile (!isSpace ·)
  if word = [] then none else some (word, text.dropWhile (!isSpace ·))

/-- ` %c`. -/
def scanChar (text : List Char) : Option (Char × List Char) :=
  match skipSpace text with
  | [] => none
  | c :: text => some (c, text)

def atoi (nptr : List Char) : Int :=
  match scanInt nptr with
  | some (n, _) => n
  | none => 0

/-- What `fscanf(fp, "%d %s %c %d", ..)` has read before it fails. -/
def fscanf (text : List Char) : Entry :=
  match scanInt text with
  | none => .fresh
  | some (pid, text) =>
    match scanWord text with
    | none => { pid := some pid, name := none, ppid := none }
    | some (name, text) =>
      match scanChar text with
      | none => { pid := some pid, name := some name, ppid := none }
      | some (_, text) =>
        match scanInt text with
        | none => { pid := some pid, name := some name, ppid := none }
        | some (ppid, _) => { pid := some pid, name := some name, ppid := some ppid }

/-- `sizeof(name)`, `sizeof(tmp)` and `sizeof(stat_name)`. -/
def bufSz : Nat := 64

/-- A string is put into a buffer. -/
def store (s : List Char) : Result (List Char) :=
  if s.length < bufSz then .ok s else .error .bufferOverflow

def strcat (dst src : List Char) : Result (List Char) := store (dst ++ src)

/-- `strncpy` into a buffer of zeros: it writes `n` characters. -/
def strncpy (src : List Char) (n : Nat) : Result (List Char) :=
  if n < bufSz then .ok (src.take n) else .error .bufferOverflow

/-- The conversion to `size_t`. -/
def toSize (x : Int) : Nat := (x % 2 ^ 64).toNat

-- ---------------------------------------------------------------------------
-- `get_pnum_load`
-- ---------------------------------------------------------------------------

/-- `rm_paren`. -/
def rmParen (dst : List Char) : Result (List Char) := do
  let len : Int := dst.length
  let tmp ← strncpy (dst.drop 1) (toSize (len - 2))
  store tmp

/-- What one pass over `/proc` sees: the names that `readdir` returns, if `opendir` succeeds,
and what `fopen` finds under a path when its turn comes. -/
structure Proc where
  dir : Option (List (List Char))
  fopen : List Char → Option (List Char)

/-- `"/proc/"`. -/
def procDir : List Char := ['/', 'p', 'r', 'o', 'c', '/']

/-- `"/stat"`. -/
def statFile : List Char := ['/', 's', 't', 'a', 't']

/-- `stat_name`. -/
def statName (dName : List Char) : Result (List Char) := do
  let path ← strcat procDir dName
  strcat path statFile

/-- The name behind `fscanf`. -/
def finishName (showPid : Bool) (dName name : List Char) : Result (List Char) := do
  let name ← rmParen name
  if showPid then do
    let name ← strcat name ['(']
    let name ← strcat name dName
    strcat name [')']
  else return name

/-- The fields that `fscanf` has read replace those in memory; the name has to fit. -/
def Entry.scan (e read : Entry) : Result Entry := do
  let name ← match read.name with
    | some name => do
      let name ← store name
      pure (some name)
    | none => pure e.name
  return { pid := read.pid.or e.pid, name, ppid := read.ppid.or e.ppid }

/-- The file of one process is read into its entry. -/
def Entry.load (e : Entry) (showPid : Bool) (dName text : List Char) : Result Entry := do
  let e ← e.scan (fscanf text)
  match e.name with
  | some name => do
    let name ← finishName showPid dName name
    return { e with name := some name }
  | none => .error .uninitialised

/-- The file of one process is opened. -/
def openStat (p : Proc) (dName : List Char) : Result (List Char) := do
  let path ← statName dName
  match p.fopen path with
  | some text => return text
  | none => .error .assertFailed

/-- One process is loaded into `pro[num]`. -/
def loadEntry (showPid : Bool) (p : Proc) (pro : Pro) (num : Nat) (dName : List Char) :
    Result Pro := do
  let text ← openStat p dName
  let e ← pro.get num
  let e ← e.load showPid dName text
  return pro.set num e

/-- `enum {PNUM, LOAD}`. -/
inductive Mode
  | pnum
  | load
  deriving DecidableEq

/-- The loop over the directory. -/
def dirLoop (mode : Mode) (showPid : Bool) (p : Proc) :
    List (List Char) → Nat → Pro → Result (Nat × Pro)
  | [], num, pro => .ok (num, pro)
  | dName :: dir, num, pro =>
    if atoi dName ≠ 0 then
      match mode with
      | .load => do
        let pro ← loadEntry showPid p pro num dName
        dirLoop mode showPid p dir (num + 1) pro
      | .pnum => dirLoop mode showPid p dir (num + 1) pro
    else dirLoop mode showPid p dir num pro

/-- `get_pnum_load`. -/
def getPnumLoad (mode : Mode) (showPid : Bool) (p : Proc) (pro : Pro) : Result (Nat × Pro) :=
  match p.dir with
  | some dir => dirLoop mode showPid p dir 0 pro
  | none => .ok (0, pro)

-- ---------------------------------------------------------------------------
-- `pro_sort` and `print_pro`
-- ---------------------------------------------------------------------------

/-- A table of `n` processes. -/
abbrev Table (n : Nat) := Fin n → Process

/-- `pro_sort`. -/
def proSort {n : Nat} (pro : Table n) : Table n := SelectionSort.sortFrom Process.pid pro 0

/-- `put_tab`. -/
def putTab (n : Nat) : List Char := List.replicate (2 * n) ' '

/-- What a loop prints. -/
def forEach {α : Type*} : List α → (α → Option (List Char)) → Option (List Char)
  | [], _ => some []
  | x :: xs, body => do
    let out ← body x
    let rest ← forEach xs body
    return out ++ rest

/-- `print_pro`; `none` when `fuel` calls are not enough. -/
def printPro {n : Nat} (pro : Table n) : Nat → Int → Nat → Option (List Char)
  | 0, _, _ => none
  | fuel + 1, id, depth =>
    forEach (List.finRange n) fun i =>
      if (pro i).pid = id then do
        let below ← forEach (List.finRange n) fun j =>
          if (pro j).ppid = id then printPro pro fuel (pro j).pid (depth + 1) else some []
        return putTab depth ++ (pro i).name ++ ['\n'] ++ below
      else some []

-- ---------------------------------------------------------------------------
-- `main`
-- ---------------------------------------------------------------------------

/-- The first `n` entries, when they have all been written. -/
def Pro.table? (pro : Pro) (n : Nat) : Option (Table n) :=
  if h : ∀ i : Fin n, (pro.entry i).process?.isSome then
    some fun i => (pro.entry i).process?.get (h i)
  else none

/-- `main`: the two passes see `p₁` and `p₂`. -/
def pstree (showPid numSort : Bool) (p₁ p₂ : Proc) (fuel : Nat) :
    Result (Option (List Char)) := do
  let (pnum, _) ← getPnumLoad .pnum showPid p₁ (Pro.fresh 0)
  let (_, pro) ← getPnumLoad .load showPid p₂ (Pro.fresh (pnum + 5))
  match pro.table? pnum with
  | some table => return printPro (if numSort then proSort table else table) fuel 1 0
  | none => .error .uninitialised

end MyOs.Pstree
