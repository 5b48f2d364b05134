import MyOs.Lib.Ring
import MyOs.Lib.Transition
import MyOs.Console.Definitions

/-!
# tty — the cooked queue

The model of the line discipline in `kernel/src/dev/dev_tty.c`: `tty_enqueue` and
`tty_pop_back` on the ring of characters, `tty_cook` and `tty_read` on top of it. The
pointers of `struct tty_queue` are offsets from `buf`. The end of a line is a `'\0'`
in the ring, and the semaphore `cooked` counts the lines.

A body under `tty->lock` is one step, and passing `cooked` is another one. `keys`,
`reads` and `passes` are no part of the code: the characters that have been cooked, the
reads that have taken place, and how often `cooked` has been passed.
-/

namespace MyOs.Console

open MyOs.Transition

-- ---------------------------------------------------------------------------
-- The queue
-- ---------------------------------------------------------------------------

/-- `TTY_COOK_BUF_SZ`. -/
def ttyCookBufSz : Nat := 1024

/-- `struct tty_queue`; `end` is `TTY_COOK_BUF_SZ`. -/
structure TtyQueue where
  buf : Nat → UInt8
  front : Nat
  rear : Nat

/-- The calls of `panic`. -/
inductive Panic
  | ttyQueueFull
  deriving DecidableEq, Repr

def Panic.text : Panic → String
  | .ttyQueueFull => "tty queue full"

/-- A pointer moves on, from `end` back to `buf`. -/
def wrap (pos : Nat) : Nat := if pos + 1 = ttyCookBufSz then 0 else pos + 1

def ttyEnqueue (q : TtyQueue) (ch : UInt8) : Except Panic TtyQueue :=
  let q := { q with buf := Function.update q.buf q.rear ch, rear := wrap q.rear }
  if q.rear = q.front then .error .ttyQueueFull
  else return { q with buf := Function.update q.buf q.rear nul }

/-- `tty_pop_back`, with its return value. -/
def ttyPopBack (q : TtyQueue) : TtyQueue × Nat :=
  if q.front ≠ ttyCookBufSz then
    let pos := if q.rear = 0 then ttyCookBufSz else q.rear
    if q.buf (pos - 1) ≠ nul then
      ({ q with rear := pos - 1, buf := Function.update q.buf (pos - 1) nul }, 0)
    else (q, 1)
  else (q, 1)

/-- `tty_cook` between `sem_wait` and `sem_signal` of the lock: the queue, the value of
`cooked`, and the return value. -/
def ttyCook (q : TtyQueue) (cooked : Nat) (ch : UInt8) : Except Panic (TtyQueue × Nat × Nat) :=
  if ch = newline then do
    let q ← ttyEnqueue q ch
    let q ← ttyEnqueue q nul
    return (q, cooked + 1, 0)
  else if ch = backspace then
    let (q, ret) := ttyPopBack q
    return (q, cooked, ret)
  else do
    let q ← ttyEnqueue q ch
    return (q, cooked, 0)

/-- The loop of `tty_read`. `out` are the bytes in the caller's buffer, `nread` of them. -/
def ttyReadLoop (count : Int) : Nat → TtyQueue → List UInt8 → Option (TtyQueue × List UInt8)
  | 0, _, _ => none
  | fuel + 1, q, out =>
    let ch := q.buf q.front
    let out := if (out.length : Int) < count ∧ ch ≠ nul then out ++ [ch] else out
    let q := { q with front := wrap q.front }
    if ch = nul then some (q, out) else ttyReadLoop count fuel q out

/-- `tty_read` between `sem_wait` and `sem_signal` of the lock. -/
def ttyRead (q : TtyQueue) (count : Int) : Option (TtyQueue × List UInt8) :=
  ttyReadLoop count ttyCookBufSz q []

/-- The queue of `tty_init`, with the buffer it has got. -/
def ttyInitQueue (buf : Nat → UInt8) : TtyQueue := { buf, front := 0, rear := 0 }

-- ---------------------------------------------------------------------------
-- Lines
-- ---------------------------------------------------------------------------

/-- Complete lines and the line that is being typed. -/
structure Text where
  lines : List (List UInt8)
  cur : List UInt8
  deriving DecidableEq

/-- What a key does to the text. -/
def Text.key (text : Text) (ch : UInt8) : Text :=
  if ch = newline then { lines := text.lines ++ [text.cur ++ [newline]], cur := [] }
  else if ch = backspace then { text with cur := text.cur.dropLast }
  else { text with cur := text.cur ++ [ch] }

/-- The text that a sequence of keys makes. -/
def edit (keys : List UInt8) : Text := keys.foldl Text.key ⟨[], []⟩

/-- What `tty_read` of `count` bytes delivers of a line: the first `min(count, length)`
characters, and none when `count` is negative. -/
def delivered (count : Int) (line : List UInt8) : List UInt8 := line.take count.toNat

-- ---------------------------------------------------------------------------
-- The machine
-- ---------------------------------------------------------------------------

/-- Where a task is: outside of `tty_read`, or behind `sem_wait(&tty->cooked)`, the
`pass`-th to be there. -/
inductive Pc
  | idle
  | passed (pass : Nat) (count : Int)
  deriving DecidableEq

def Pc.isPassed : Pc → Bool
  | .idle => false
  | .passed _ _ => true

/-- A `tty_read` whose body has run. -/
structure Read where
  pass : Nat
  count : Int
  out : List UInt8
  deriving DecidableEq

structure Sys (n : Nat) where
  q : TtyQueue
  cooked : Nat
  pc : Fin n → Pc
  keys : List UInt8
  reads : List Read
  passes : Nat

inductive Label (n : Nat)
  | cook (ch : UInt8)
  | pass (t : Fin n) (count : Int)
  | read (t : Fin n)

/-- **One step**: a character is cooked, a reader passes the semaphore, or the body of
its `tty_read` runs. There is no step from a panic on. -/
inductive Step {n : Nat} : Sys n → Label n → Sys n → Prop
  | cook {S : Sys n} {ch : UInt8} {q : TtyQueue} {cooked ret : Nat} : ch ≠ nul →
      ttyCook S.q S.cooked ch = .ok (q, cooked, ret) →
      Step S (.cook ch) { S with q, cooked, keys := S.keys ++ [ch] }
  | pass {S : Sys n} {t : Fin n} {count : Int} : S.pc t = .idle → 0 < S.cooked →
      Step S (.pass t count) { S with
        cooked := S.cooked - 1
        pc := Function.update S.pc t (.passed S.passes count)
        passes := S.passes + 1 }
  | read {S : Sys n} {t : Fin n} {pass : Nat} {count : Int} {q : TtyQueue} {out : List UInt8} :
      S.pc t = .passed pass count → ttyRead S.q count = some (q, out) →
      Step S (.read t) { S with
        q
        pc := Function.update S.pc t .idle
        reads := S.reads ++ [⟨pass, count, out⟩] }

/-- `tty_init` with a buffer of zeros. -/
def Init {n : Nat} (S : Sys n) : Prop :=
  S.q = ttyInitQueue (fun _ => nul) ∧ S.cooked = 0 ∧ (∀ t, S.pc t = .idle) ∧ S.keys = [] ∧
    S.reads = [] ∧ S.passes = 0

/-- The states of all interleavings without a panic. -/
def Reachable {n : Nat} : Sys n → Prop := Reach Init Step

end MyOs.Console
