import MyOs.Lib.Transition
import MyOs.Pmm.Init

/-!
# Threads

Any number of threads call `kalloc` and `kfree`; a step runs one thread through
its next critical section (`exec`), and steps of different threads interleave
freely. Between calls a client writes what it likes into blocks that are live. A
failed assertion halts the machine.

A block is live from the return of its `kalloc` until the critical section of its
`kfree`. Each call of `kalloc` names the CPU it runs on, so threads may share a
CPU or move between calls.
-/

namespace MyOs.Pmm

open MyOs.Memory MyOs.Transition

/-! ## Control points -/

/-- Where a thread is: in front of the next critical section of its call, or at
the return of `kalloc` with the block `p` of `r` bytes (`p = 0` for `NULL`). -/
inductive Pc
  | idle
  | kalloc (cpu size : Nat)
  | slabAlloc (slab size : Nat)
  | readNext (slab size : Nat)
  | addSlab (prev size : Nat)
  | newSlab (slab size : Nat)
  | gAlloc (npage : Nat)
  | kfree (p : Nat)
  | sFree (p : Nat)
  | gFree (p : Nat)
  | ret (p r : Nat)
  deriving DecidableEq

/-- The block a thread is about to free. -/
def Pc.freeing : Pc → Option Nat
  | .kfree p | .sFree p | .gFree p => some p
  | _ => none

/-- The loop test of `S_alloc`: the next slab, or the growth of the chain. -/
def sAllocNext (prev slab size : Nat) : Result Pc :=
  if slab ≠ 0 then return .slabAlloc slab size
  else do
    check (prev ≠ 0 ∧ slab = 0)
    return .addSlab prev size

/-- A thread runs up to the end of its next critical section. -/
def exec (P : Platform) (s : State) : Pc → Result (State × Pc)
  | .idle => return (s, .idle)
  | .kalloc cpu size =>
    if size > maxAlloc then return (s, .ret 0 0) else
    if kallocSize size ≤ 4096 then do
      let (size, slab) ← sAllocHead P s cpu (kallocSize size)
      let pc ← sAllocNext 0 slab size
      return (s, pc)
    else return (s, .gAlloc (kallocPages (kallocSize size)))
  | .slabAlloc slab size => do
    let (s, p) ← slabAlloc s slab size
    if p ≠ 0 then return (s, .ret p size) else return (s, .readNext slab size)
  | .readNext slab size => do
    let (s, next) ← readNext s slab
    let pc ← sAllocNext slab next size
    return (s, pc)
  | .addSlab prev size => do
    let (s, newSlab) ← addSlab s prev
    if newSlab = 0 then return (s, .ret 0 0) else return (s, .newSlab newSlab size)
  | .newSlab slab size => do
    let (s, p) ← slabAlloc s slab size
    check (p ≠ 0)
    return (s, .ret p size)
  | .gAlloc npage => do
    let (s, p) ← gAlloc s npage false
    return (s, .ret p (npage * gpageSz))
  | .kfree p => do
    let slab ← kfreeHead s p
    return (s, if slab = true then .sFree p else .gFree p)
  | .sFree p => do
    let s ← sFree s p
    return (s, .idle)
  | .gFree p => do
    let s ← gFree s p
    return (s, .idle)
  | .ret p r => return (s, .ret p r)

/-! ## The machine -/

abbrev Tid := Nat

/-- Memory and globals, the threads, the live blocks with their reserved bytes, and
whether an assertion has failed. -/
structure Sys where
  pmm : State
  pc : Tid → Pc
  live : Nat → Option Nat
  halted : Option Fault

inductive Label
  | kalloc (t : Tid) (cpu size : Nat)
  | kfree (t : Tid) (p : Nat)
  | write (p : Nat)
  | exec (t : Tid)
  | ret (t : Tid)

/-- The block whose critical section of `kfree` a thread runs. -/
def Pc.frees : Pc → Option Nat
  | .sFree p | .gFree p => some p
  | _ => none

/-- The live blocks after a thread has run from `pc`. -/
def release (pc : Pc) (live : Nat → Option Nat) : Nat → Option Nat := fun q =>
  if pc.frees = some q then none else live q

/-- **One step.** -/
inductive Step (P : Platform) : Sys → Label → Sys → Prop
  | kalloc {S : Sys} {t : Tid} {cpu size : Nat} : S.halted = none → S.pc t = .idle →
      cpu < P.cpuCount →
      Step P S (.kalloc t cpu size) { S with pc := Function.update S.pc t (.kalloc cpu size) }
  | kfree {S : Sys} {t : Tid} {p r : Nat} : S.halted = none → S.pc t = .idle →
      S.live p = some r → (∀ u, (S.pc u).freeing ≠ some p) →
      Step P S (.kfree t p) { S with pc := Function.update S.pc t (.kfree p) }
  | write {S : Sys} {p r : Nat} {m' : Mem} : S.halted = none → S.live p = some r →
      OnlyIn S.pmm.mem m' p (p + r) →
      Step P S (.write p) { S with pmm := { S.pmm with mem := m' } }
  | exec {S : Sys} {t : Tid} {s' : State} {pc' : Pc} : S.halted = none →
      exec P S.pmm (S.pc t) = .ok (s', pc') →
      Step P S (.exec t) { S with
        pmm := s', pc := Function.update S.pc t pc', live := release (S.pc t) S.live }
  | halt {S : Sys} {t : Tid} {e : Fault} : S.halted = none →
      Pmm.exec P S.pmm (S.pc t) = .error e →
      Step P S (.exec t) { S with halted := some e }
  | ret {S : Sys} {t : Tid} {p r : Nat} : S.halted = none → S.pc t = .ret p r →
      Step P S (.ret t) { S with
        pc := Function.update S.pc t .idle
        live := if p = 0 then S.live else Function.update S.live p (some r) }

/-- The start: `pmm_init` has run, no thread has called yet. -/
def Init (P : Platform) (S : Sys) : Prop :=
  (∃ m, pmmInit P m = .ok S.pmm) ∧ (∀ t, S.pc t = .idle) ∧ (∀ p, S.live p = none) ∧
    S.halted = none

/-- The states of all interleavings. -/
def Reachable (P : Platform) : Sys → Prop := Reach (Init P) (Step P)

end MyOs.Pmm
