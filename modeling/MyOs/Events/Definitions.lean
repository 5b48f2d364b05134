import MyOs.Lib.Census
import MyOs.Lib.Ring
import MyOs.Lib.Transition

/-!
# input — the queue of input events

The model of `push_event` and `pop_event` in `kernel/src/dev/dev_input.c`. Any
number of tasks call them; every statement is a step, and the steps of different
tasks interleave freely, but for the spin lock, which one task holds at a time, and
the semaphore, which a task passes when its value is positive. `sem_wait` and
`sem_signal` are outside of the lock.

`pushed` and `popped` are no part of the code: the events in the order in which the
critical sections have put them into the queue and taken them out.
-/

namespace MyOs.Events

open MyOs.Census MyOs.Ring MyOs.Transition

/-- `NEVENTS`. -/
def nEvents : Nat := 128

/-- `struct input_event`. -/
structure InputEvent where
  ctrl : Nat
  alt : Nat
  data : Nat
  deriving DecidableEq, Repr

/-- The queue of `input_t`. -/
structure Input where
  events : Nat → InputEvent
  front : Nat
  rear : Nat

/-- `is_empty`. -/
def isEmpty (q : Input) : Bool := q.rear == q.front

/-- The calls of `panic_on`. -/
inductive Panic
  | full
  | empty
  deriving DecidableEq, Repr

def Panic.text : Panic → String
  | .full => "input queue full"
  | .empty => "input queue empty"

-- ---------------------------------------------------------------------------
-- Control points
-- ---------------------------------------------------------------------------

/-- The statement a task is in front of, with its local variables. -/
inductive Pc
  | idle
  -- push_event
  | lockPush (ev : InputEvent)
  | store (ev : InputEvent)
  | advance (ev : InputEvent)
  | checkFull
  | unlockPush
  | signal
  -- pop_event
  | wait
  | lockPop
  | checkEmpty
  | take
  | load (idx : Nat)
  | unlockPop (ret : InputEvent)
  | ret (ret : InputEvent)
  deriving DecidableEq

/-- Between `spin_lock` and `spin_unlock`. -/
def Pc.holds : Pc → Bool
  | .store _ | .advance _ | .checkFull | .unlockPush => true
  | .checkEmpty | .take | .load _ | .unlockPop _ => true
  | _ => false

/-- Behind `sem_wait`, the event not yet taken. -/
def Pc.passed : Pc → Bool
  | .lockPop | .checkEmpty | .take => true
  | _ => false

/-- The event is in the queue, `sem_signal` still to come. -/
def Pc.unsignalled : Pc → Bool
  | .checkFull | .unlockPush | .signal => true
  | _ => false

/-- The slot whose event a task has taken and not yet read. -/
def Pc.loads : Pc → Option Nat
  | .load idx => some idx
  | _ => none

-- ---------------------------------------------------------------------------
-- The machine
-- ---------------------------------------------------------------------------

/-- `input_t` with its lock and semaphore, `n` tasks, a panic, and the history. -/
structure Sys (n : Nat) where
  q : Input
  lock : Option (Fin n)
  eventSem : Nat
  pc : Fin n → Pc
  halted : Option Panic
  pushed : List InputEvent
  popped : List InputEvent

variable {n : Nat}

/-- The task `t` goes on to `pc`. -/
def Sys.goto (S : Sys n) (t : Fin n) (pc : Pc) : Sys n :=
  { S with pc := Function.update S.pc t pc }

/-- What the task `t` does next; `none` when it has to wait. Outside of the two
functions it stays where it is. -/
def next (S : Sys n) (t : Fin n) : Option (Sys n) :=
  match S.pc t with
  | .idle => some S
  | .lockPush ev =>
    if S.lock = none then some ({ S with lock := some t }.goto t (.store ev)) else none
  | .store ev =>
    some ({ S with q := { S.q with events := Function.update S.q.events S.q.rear ev } }.goto t
      (.advance ev))
  | .advance ev =>
    some ({ S with
      q := { S.q with rear := (S.q.rear + 1) % nEvents }
      pushed := S.pushed ++ [ev] }.goto t .checkFull)
  | .checkFull =>
    if isEmpty S.q = true then some { S with halted := some .full } else some (S.goto t .unlockPush)
  | .unlockPush => some ({ S with lock := none }.goto t .signal)
  | .signal => some ({ S with eventSem := S.eventSem + 1 }.goto t .idle)
  | .wait =>
    if 0 < S.eventSem then some ({ S with eventSem := S.eventSem - 1 }.goto t .lockPop) else none
  | .lockPop => if S.lock = none then some ({ S with lock := some t }.goto t .checkEmpty) else none
  | .checkEmpty =>
    if isEmpty S.q = true then some { S with halted := some .empty } else some (S.goto t .take)
  | .take =>
    some ({ S with q := { S.q with front := (S.q.front + 1) % nEvents } }.goto t (.load S.q.front))
  | .load idx =>
    some ({ S with popped := S.popped ++ [S.q.events idx] }.goto t (.unlockPop (S.q.events idx)))
  | .unlockPop ret => some ({ S with lock := none }.goto t (.ret ret))
  | .ret _ => some S

inductive Label (n : Nat)
  | pushEvent (t : Fin n) (ev : InputEvent)
  | popEvent (t : Fin n)
  | exec (t : Fin n)
  | ret (t : Fin n)

/-- **One step**: a task calls, goes on in its call, or leaves it. A panic halts the
machine. -/
inductive Step : Sys n → Label n → Sys n → Prop
  | pushEvent {S : Sys n} {t : Fin n} {ev : InputEvent} : S.halted = none → S.pc t = .idle →
      Step S (.pushEvent t ev) (S.goto t (.lockPush ev))
  | popEvent {S : Sys n} {t : Fin n} : S.halted = none → S.pc t = .idle →
      Step S (.popEvent t) (S.goto t .wait)
  | exec {S S' : Sys n} {t : Fin n} : S.halted = none → next S t = some S' → Step S (.exec t) S'
  | ret {S : Sys n} {t : Fin n} {ev : InputEvent} : S.halted = none → S.pc t = .ret ev →
      Step S (.ret t) (S.goto t .idle)

/-- `input_init`, no task in a call. The fresh `events` hold anything. -/
def Init (S : Sys n) : Prop :=
  S.q.front = 0 ∧ S.q.rear = 0 ∧ S.lock = none ∧ S.eventSem = 0 ∧ (∀ t, S.pc t = .idle) ∧
    S.halted = none ∧ S.pushed = [] ∧ S.popped = []

/-- No push makes the number of outstanding events exceed `NEVENTS - 1`. -/
def Fits (S : Sys n) : Label n → Prop
  | .exec t => ∀ ev, S.pc t = .advance ev → S.pushed.length + 1 ≤ S.popped.length + (nEvents - 1)
  | _ => True

/-- The states of all interleavings in which every push fits. -/
def Reachable : Sys n → Prop := Reach Init (Restrict Step fun S a _ => Fits S a)

end MyOs.Events
