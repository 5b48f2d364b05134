import MyOs.Lib.Transition
import MyOs.Lib.CyclicScan
import Mathlib.Logic.Function.Basic

/-!
# libco — coroutines on one stack switcher

The model of `libco/co.c`. A coroutine object is a `struct co`; `setjmp` and
the stack switch are modelled by saving and resuming a *continuation*: a
`jmp_buf` holds the point where the coroutine goes on after its `co_yield`
returns. There are three such points, since `co_yield` is called from three
places (`Cont`).

The coroutines' own code is arbitrary: whenever the current coroutine runs its
own code (`Pc.run .user`), any of `co_start`, `co_yield`, `co_wait` and return
may come next (`Step`). The programs considered wait on each coroutine at most
once and never on themselves; `main`'s return ends the process, so it has no
step.

`entered` and `pending` are history variables: no code reads them.
-/

namespace MyOs.Libco

open MyOs.Transition MyOs.CyclicScan

/-! ## Coroutine objects -/

/-- `MAXCO`. -/
def maxCo : Nat := 128 + 8

/-- The address of a `struct co`. Pointers that may be `NULL` are options. -/
abbrev Handle := Nat

/-- `&co_main`. -/
def coMain : Handle := 0

/-- `enum co_status`. -/
inductive CoStatus
  | new
  | running
  | waiting
  | dead
  deriving DecidableEq, Repr

/-- Where a coroutine goes on when its `co_yield` returns: in its own code, at
the loop test of `co_wait(co)`, or at the `assert(0)` behind the final yield. -/
inductive Cont
  | user
  | coWait (co : Handle)
  | exit
  deriving DecidableEq, Repr

/-- `struct co`. `context` is the `jmp_buf`, `none` until the first `setjmp`.
`entered` counts the calls of `func(arg)`; `pending` is the return point of the
most recent `co_yield` as long as it has not been resumed. -/
structure Co where
  status : CoStatus
  waiter : Option Handle
  context : Option Cont
  entered : Nat
  pending : Option Cont
  deriving DecidableEq, Repr

/-- What the running coroutine does next: go on at a continuation, call
`co_yield` (returning to the given point), or control is lost. -/
inductive Pc
  | run (k : Cont)
  | coYield (k : Cont)
  | lost
  deriving DecidableEq, Repr

/-- The globals of `co.c`, the objects `malloc` has handed out, and the control
point of the running coroutine. -/
structure State where
  obj : Handle → Co
  allocated : List Handle
  pool : Nat → Option Handle
  current : Handle
  id : Nat
  pc : Pc

/-- `co_main` runs, alone in slot 0. -/
def State.start : State where
  obj _ := ⟨.running, none, none, 1, none⟩
  allocated := []
  pool i := if i = 0 then some coMain else none
  current := coMain
  id := 0
  pc := .run .user

namespace State

/-- Write the object at `c`. -/
def modify (s : State) (c : Handle) (f : Co → Co) : State :=
  { s with obj := Function.update s.obj c (f (s.obj c)) }

def setStatus (s : State) (c : Handle) (v : CoStatus) : State :=
  s.modify c fun o => { o with status := v }

def status (s : State) (c : Handle) : CoStatus := (s.obj c).status

/-- The first slot of `POOL` whose entry is `v`. -/
def findSlot (s : State) (v : Option Handle) : Option Nat :=
  (List.range maxCo).find? fun i => s.pool i = v

/-- `POOL[i] = v` at the slot a search loop stopped at, if it found one. -/
def setSlot (s : State) (i : Option Nat) (v : Option Handle) : State :=
  match i with
  | some i => { s with pool := Function.update s.pool i v }
  | none => s

end State

/-! ## The functions of `co.c` -/

/-- `co_start`: `c` is what `malloc` returned. The new coroutine is put into the
first empty slot of `POOL`; the loop ends silently when there is none. -/
def coStart (s : State) (c : Handle) : State :=
  let s := s.modify c fun o =>
    { o with waiter := none, status := .new, entered := 0, pending := none }
  let s := { s with allocated := c :: s.allocated }
  s.setSlot (s.findSlot none) (some c)

/-- `co_wait` up to its loop. -/
def coWait (s : State) (co : Handle) : State :=
  let s := s.modify co fun o => { o with waiter := some s.current }
  let s := s.setStatus s.current .waiting
  { s with pc := .run (.coWait co) }

/-- One loop test of `co_wait`: yield once more, or clear the slot of the dead
coroutine, free it and run on. -/
def coWaitLoop (s : State) (co : Handle) : State :=
  if s.status co ≠ .dead then { s with pc := .coYield (.coWait co) }
  else
    let s := s.setSlot (s.findSlot (some co)) none
    let s := { s with allocated := s.allocated.erase co }
    let s := s.setStatus s.current .running
    { s with pc := .run .user }

/-- The test of `fd_next` on slot `i`. -/
def schedulable (s : State) (i : Nat) : Bool :=
  match s.pool i with
  | some c => s.status c = .running ∨ s.status c = .new
  | none => false

/-- `fd_next`, its `while (1)` cut after `fuel` iterations: the new `id`. -/
def fdNext (s : State) (fuel : Nat) : Option Nat :=
  scan maxCo (schedulable s) fuel s.id

/-- `setjmp(current->context)` of a `co_yield` that returns to `k`. -/
def setjmp (s : State) (k : Cont) : State :=
  s.modify s.current fun o => { o with context := some k, pending := some k }

/-- `co_yield` after `fd_next` has chosen slot `i`: resume a running coroutine
with `longjmp`, or enter a new one on its own stack. -/
def coSwitch (s : State) (k : Cont) (i : Nat) : State :=
  match s.pool i with
  | none => { s with id := i, pc := .lost }
  | some c =>
    match s.status c with
    | .running =>
      { s.modify c (fun o => { o with pending := none }) with
        id := i
        current := c
        pc := match (s.obj c).context with
          | some k => .run k
          | none => .lost }
    | .new =>
      { s.modify c (fun o =>
          { o with status := .running, entered := o.entered + 1, pending := none }) with
        id := i
        current := c
        pc := .run .user }
    -- neither branch of `co_yield`: it returns to its caller
    | _ => { s with id := i, pc := .run k }

/-- The tail of `co_yield` after `func(arg)` has returned, up to the final
`co_yield`: mark the coroutine dead and wake its waiter. -/
def coExit (s : State) : State :=
  let s := s.setStatus s.current .dead
  let s := match (s.obj s.current).waiter with
    | some w => s.setStatus w .running
    | none => s
  { s with pc := .coYield .exit }

/-! ## Programs -/

/-- What happens in a step. -/
inductive Event
  | start (co : Handle)
  | yield
  | wait (co : Handle)
  | ret
  | test
  | switch (co : Handle)
  deriving DecidableEq, Repr

/-- One step of a program. `malloc` returns any block that is not in use, so
the address of a reaped coroutine may come back. -/
inductive Step : State → Event → State → Prop
  | start {s : State} {c : Handle} : s.pc = .run .user → c ≠ coMain → c ∉ s.allocated →
      Step s (.start c) (coStart s c)
  | yield {s : State} : s.pc = .run .user → Step s .yield { s with pc := .coYield .user }
  | wait {s : State} {co : Handle} : s.pc = .run .user → co ∈ s.allocated → co ≠ s.current →
      (s.obj co).waiter = none → Step s (.wait co) (coWait s co)
  | ret {s : State} : s.pc = .run .user → s.current ≠ coMain → Step s .ret (coExit s)
  | test {s : State} {co : Handle} : s.pc = .run (.coWait co) → Step s .test (coWaitLoop s co)
  | switch {s : State} {k : Cont} {fuel i : Nat} {c : Handle} : s.pc = .coYield k →
      fdNext (setjmp s k) fuel = some i → s.pool i = some c →
      Step s (.switch c) (coSwitch (setjmp s k) k i)

/-- The states of all runs of all programs. -/
abbrev Reachable : State → Prop := Reach (fun s => s = State.start) Step

/-- A `co_start` finds fewer than `MAXCO - 1` un-reaped coroutines besides `main`. -/
def Room (s : State) : Event → Prop
  | .start _ => s.allocated.length < maxCo - 1
  | _ => True

/-- The states of the runs with at most `MAXCO - 1` un-reaped coroutines besides `main`. -/
abbrev ReachableWithin : State → Prop :=
  Reach (fun s => s = State.start) (Restrict Step fun s e _ => Room s e)

/-! ## Observations -/

/-- `main` or a coroutine that has been started and not yet reaped. -/
def Live (s : State) (c : Handle) : Prop := c = coMain ∨ c ∈ s.allocated

/-- Where `c` goes on: from the control point for the running coroutine, from
its pending `co_yield` for any other. -/
def State.at (s : State) (c : Handle) : Option Cont :=
  if c = s.current then
    match s.pc with
    | .run k => some k
    | .coYield k => some k
    | .lost => none
  else (s.obj c).pending

/-- `c` has called `co_yield` and has not been resumed. -/
def Yielded (s : State) (c : Handle) : Prop :=
  c = s.current → ∃ k, s.pc = .coYield k

/-- `x` is inside `co_wait(y)`. -/
def InWait (s : State) (x y : Handle) : Prop := s.at x = some (.coWait y)

/-- `func` of `y` has returned: `y` stands behind its final `co_yield`. -/
def Returned (s : State) (y : Handle) : Prop := s.at y = some .exit

/-- `x` waits for `y`, whose function has not returned yet. -/
def WaitsFor (s : State) (x y : Handle) : Prop := InWait s x y ∧ ¬ Returned s y

/-- `c` sits in a slot of `POOL`. -/
def InPool (s : State) (c : Handle) : Prop := ∃ i < maxCo, s.pool i = some c

end MyOs.Libco
