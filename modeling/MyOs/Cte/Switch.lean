import MyOs.Cte.Trap64
import MyOs.Cte.Iret32
import MyOs.Lib.Transition

/-!
# Switching between threads

One processor and its threads, each with a stack of its own for the kernel. A thread runs, it
is interrupted, the handler picks a thread, and `__am_irq_handle` goes on with that one. What
the two ports promise is collected in `Port`; the rest is for both of them.

* `Step.kept` — a step changes the registers of no thread but the one that runs.
* `run_kept` — **every thread goes on where it was interrupted**, however many interrupts and
  other threads are in between.
-/

namespace MyOs.Cte

open MyOs.Memory MyOs.Words MyOs.Transition

-- ---------------------------------------------------------------------------
-- What a thread sees
-- ---------------------------------------------------------------------------

/-- The registers of a thread. `rest` are those that no one but the thread looks at. -/
structure View (w : Nat) where
  cr3 : Word w
  sp0 : Word w
  sp : Word w
  cs : BitVec 16
  rest : List (Word w)

variable {w : Nat}

/-- The selector of the kernel's code. -/
def kernelCs : BitVec 16 := BitVec.ofNat 16 (ksel segKcode)

def View.User (v : View w) : Prop := v.cs.toNat % 4 = 3

/-- A thread without a page table goes on with the one that it finds. -/
def View.takeOver (v : View w) (cr3 sp0 : Word w) : View w :=
  if v.cr3 = 0 then { v with cr3 := cr3, sp0 := sp0 } else v

theorem View.takeOver_cs (v : View w) (cr3 sp0 : Word w) : (v.takeOver cr3 sp0).cs = v.cs := by
  unfold takeOver
  split <;> rfl

theorem View.takeOver_sp (v : View w) (cr3 sp0 : Word w) : (v.takeOver cr3 sp0).sp = v.sp := by
  unfold takeOver
  split <;> rfl

theorem View.takeOver_self (v : View w) : v.takeOver v.cr3 v.sp0 = v := ite_self _

theorem View.takeOver_of_ne {v : View w} (h : v.cr3 ≠ 0) (cr3 sp0 : Word w) :
    v.takeOver cr3 sp0 = v := if_neg h

theorem View.takeOver_takeOver (v : View w) (cr3 sp0 cr3' sp0' : Word w) :
    ∃ a b, (v.takeOver cr3 sp0).takeOver cr3' sp0' = v.takeOver a b := by
  by_cases hv : v.cr3 = 0
  · by_cases hcr3 : cr3 = 0
    · refine ⟨cr3', sp0', ?_⟩
      rw [takeOver, takeOver, takeOver, if_pos hv, if_pos hv, if_pos hcr3]
    · refine ⟨cr3, sp0, View.takeOver_of_ne ?_ _ _⟩
      rw [takeOver, if_pos hv]
      exact hcr3
  · refine ⟨cr3, sp0, View.takeOver_of_ne ?_ _ _⟩
    rw [View.takeOver_of_ne hv]
    exact hv

/-- The registers in a context. Of a selector there are 16 bits. -/
def Context64.view (x : Context64) : View 8 :=
  ⟨x.cr3, x.rsp0, x.rsp, x.cs.setWidth 16, [x.rax, x.rbx, x.rcx, x.rdx, x.rbp, x.rsi, x.rdi, x.r8,
    x.r9, x.r10, x.r11, x.r12, x.r13, x.r14, x.r15, x.rip, x.rflags, (x.ss.setWidth 16).setWidth _]⟩

def Context32.view (x : Context32) : View 4 :=
  ⟨x.cr3, x.esp0, x.esp, x.cs.setWidth 16, [(x.ds.setWidth 16).setWidth _, x.eax, x.ebx, x.ecx,
    x.edx, x.esi, x.edi, x.ebp, x.eip, x.eflags]⟩

-- ---------------------------------------------------------------------------
-- The ports
-- ---------------------------------------------------------------------------

/-- Where the stack of an interrupt ends. -/
def stackOf (c : Cpu w) : Nat := (if c.user then c.sp0 else c.reg .sp).toNat

/-- The event that the handler is given. -/
def Trap.event (t : Trap w) (c : Cpu w) : Event w :=
  eventOf (irqOf t.vector) (t.errcode.getD 0) c.cr2

/-- A context that can be resumed: the user's, or the kernel's with a stack pointer behind it. -/
def Resumable (size : Nat) (a : Nat) (v : View w) : Prop :=
  (v.cs = kernelCs ∧ a + size ≤ v.sp.toNat) ∨ v.User

/-- The entry and the return of a port. The frame of an interrupt lies between `top c - room` and
`top c`, and the context is at `frame c`. -/
structure Stubs (w : Nat) where
  size : Nat
  room : Nat
  top : Cpu w → Nat
  frame : Cpu w → Nat
  contextAt : Mem → Nat → View w
  contextOf : Cpu w → View w
  enter : Trap w → Cpu w → Word w × Cpu w
  interrupt : Handler w → Trap w → Cpu w → Except String (Cpu w)

/-- **What the stubs promise**, when there is room on the stack: the handler is given the context of
the interrupted code, and the context that it returns is what runs afterwards. -/
structure Stubs.Laws (p : Stubs w) : Prop where
  contextOf_cr3 : ∀ c, (p.contextOf c).cr3 = c.cr3
  contextOf_sp0 : ∀ c, (p.contextOf c).sp0 = c.sp0
  contextOf_sp : ∀ c, (p.contextOf c).sp = c.reg .sp
  contextOf_cs : ∀ c, (p.contextOf c).cs = c.cs
  contextOf_mem : ∀ c m, p.contextOf (c.withMem m) = p.contextOf c
  contextAt_same : ∀ {m m' a}, Same m m' a (a + p.size) → p.contextAt m' a = p.contextAt m a
  top_le : ∀ c, p.top c ≤ stackOf c
  le_top : ∀ c, stackOf c ≤ p.top c + 15
  le_frame : ∀ c, p.room ≤ p.top c → p.top c - p.room ≤ p.frame c
  frame_le : ∀ c, p.room ≤ p.top c → p.frame c + p.size ≤ p.top c
  saves : ∀ t c, c.user ∨ c.cs = kernelCs → p.room ≤ p.top c →
    (p.enter t c).1.toNat = p.frame c ∧
      p.contextAt (p.enter t c).2.mem (p.frame c) = p.contextOf c ∧
      OnlyIn c.mem (p.enter t c).2.mem (p.top c - p.room) (p.top c)
  restores : ∀ h t c ret c₂, c.user ∨ c.cs = kernelCs → p.room ≤ p.top c →
    h (t.event c) (p.enter t c).1 (p.enter t c).2 = (ret, c₂) →
    c₂.reg .sp = (p.enter t c).2.reg .sp → ret ≠ 0 → ret.toNat + p.size ≤ 2 ^ (8 * w) →
    ret.toNat + p.size ≤ p.top c - p.room ∨ p.frame c ≤ ret.toNat →
    Resumable p.size ret.toNat (p.contextAt c₂.mem ret.toNat) →
    ∃ c', p.interrupt h t c = .ok c' ∧
      p.contextOf c' = (p.contextAt c₂.mem ret.toNat).takeOver c₂.cr3 c₂.sp0 ∧
      ∀ x, x < p.top c - p.room ∨ p.frame c ≤ x →
        (p.contextAt c₂.mem ret.toNat).User ∨
          x + p.size < (p.contextAt c₂.mem ret.toNat).sp.toNat ∨
          (p.contextAt c₂.mem ret.toNat).sp.toNat ≤ x → c'.mem x = c₂.mem x

structure Port (w : Nat) extends Stubs w where
  laws : toStubs.Laws

-- ---------------------------------------------------------------------------
-- Threads
-- ---------------------------------------------------------------------------

/-- The stacks for the kernel, one for each thread. -/
structure Stacks (p : Port w) (ι : Type) where
  start : ι → Nat
  stop : ι → Nat
  start_pos : ∀ t, 0 < start t
  roomy : ∀ t, start t + p.room + 15 ≤ stop t
  stop_le : ∀ t, stop t ≤ 2 ^ (8 * w)
  apart : ∀ {t u}, t ≠ u → stop t ≤ start u ∨ stop u ≤ start t

/-- The processor, the thread that runs, and where the contexts of the others are. -/
structure Sys (w : Nat) (ι : Type) where
  cpu : Cpu w
  running : ι
  saved : ι → Option (Word w)

inductive Label (ι : Type)
  | own
  | create (t : ι)
  | interrupt (t : ι)

variable {ι : Type} [DecidableEq ι] {p : Port w} {A : Stacks p ι} {s s' : Sys w ι} {t : ι}

/-- The registers of a thread. -/
def Sys.thread (p : Port w) (s : Sys w ι) (t : ι) : Option (View w) :=
  if t = s.running then some (p.contextOf s.cpu)
  else (s.saved t).map fun a => p.contextAt s.cpu.mem a.toNat

/-- The context `v` of the thread `t` lies at `a` on its stack. The kernel's threads go on on their
stack, and the user's come back to it. -/
structure Parked (A : Stacks p ι) (m : Mem) (t : ι) (a : Word w) (v : View w) : Prop where
  start_le : A.start t ≤ a.toNat
  le_stop : a.toNat + p.size ≤ A.stop t
  context : p.contextAt m a.toNat = v
  resumable : Resumable p.size a.toNat v
  home : (v.cs = kernelCs ∧ v.sp.toNat ≤ A.stop t) ∨
    (v.User ∧ v.cr3 ≠ 0 ∧ v.sp0.toNat = A.stop t)

/-- The context `v` of a new thread is made at `a`. -/
def Created (A : Stacks p ι) (t : ι) (c c' : Cpu w) (a : Word w) (v : View w) : Prop :=
  ∃ m, c' = c.withMem m ∧ OnlyIn c.mem m (A.start t) (A.stop t) ∧ Parked A m t a v

/-- A step of the thread that runs, at any of its instructions. It keeps away from the stacks of the
others, and does not change its ring. -/
structure Own (A : Stacks p ι) (s : Sys w ι) (c : Cpu w) : Prop where
  others : ∀ t a, s.saved t = some a → Same s.cpu.mem c.mem (A.start t) (A.stop t)
  cs : c.cs = s.cpu.cs
  sp0 : c.sp0 = s.cpu.sp0
  cr3 : c.cr3 ≠ 0

/-- **The handler** returns the context of the thread `t`, which may be the interrupted one. -/
structure Serves (A : Stacks p ι) (s : Sys w ι) (h : Handler w) (trap : Trap w) (t : ι)
    (ret : Word w) (c : Cpu w) : Prop where
  call : h (trap.event s.cpu) (p.enter trap s.cpu).1 (p.enter trap s.cpu).2 = (ret, c)
  picks : Function.update s.saved s.running (some (p.enter trap s.cpu).1) t = some ret
  sp : c.reg .sp = (p.enter trap s.cpu).2.reg .sp
  cr3 : c.cr3 ≠ 0
  own : Same (p.enter trap s.cpu).2.mem c.mem (p.frame s.cpu) (p.frame s.cpu + p.size)
  others : ∀ u a, s.saved u = some a →
    Same (p.enter trap s.cpu).2.mem c.mem (A.start u) (A.stop u)

/-- The kernel is interrupted with room on its stack. -/
def HasRoom (A : Stacks p ι) (s : Sys w ι) : Prop :=
  ¬ s.cpu.user → A.start s.running + p.room + 15 ≤ (s.cpu.reg .sp).toNat ∧
    (s.cpu.reg .sp).toNat ≤ A.stop s.running

/-- **One step.** -/
inductive Step (A : Stacks p ι) : Sys w ι → Label ι → Sys w ι → Prop
  | own {s : Sys w ι} {c : Cpu w} (h : Own A s c) : Step A s .own { s with cpu := c }
  | create {s : Sys w ι} {t : ι} {c : Cpu w} {a : Word w} {v : View w} (hne : t ≠ s.running)
      (hnew : s.saved t = none) (h : Created A t s.cpu c a v) :
      Step A s (.create t) ⟨c, s.running, Function.update s.saved t (some a)⟩
  | interrupt {s : Sys w ι} {h : Handler w} {trap : Trap w} {t : ι} {ret : Word w} {c c' : Cpu w}
      (hroom : HasRoom A s) (hserves : Serves A s h trap t ret c)
      (hok : p.interrupt h trap s.cpu = .ok c') :
      Step A s (.interrupt t) ⟨c', t, Function.update (Function.update s.saved s.running
        (some (p.enter trap s.cpu).1)) t none⟩

/-- What holds between the steps. -/
structure Ok (A : Stacks p ι) (s : Sys w ι) : Prop where
  cr3 : s.cpu.cr3 ≠ 0
  mode : s.cpu.cs = kernelCs ∨ (s.cpu.user ∧ s.cpu.sp0.toNat = A.stop s.running)
  saved : ∀ t a, s.saved t = some a →
    t ≠ s.running ∧ Parked A s.cpu.mem t a (p.contextAt s.cpu.mem a.toNat)

-- ---------------------------------------------------------------------------
-- One step
-- ---------------------------------------------------------------------------

theorem Sys.thread_running (s : Sys w ι) : s.thread p s.running = some (p.contextOf s.cpu) :=
  if_pos rfl

theorem Sys.thread_saved {a : Word w} (h : t ≠ s.running) (hs : s.saved t = some a) :
    s.thread p t = some (p.contextAt s.cpu.mem a.toNat) := by
  rw [thread, if_neg h, hs]
  rfl

omit [DecidableEq ι] in
/-- What is parked stays, as long as its bytes do. -/
theorem Parked.same {m m' : Mem} {a : Word w} {v : View w} (h : Parked A m t a v)
    (hsame : Same m m' a.toNat (a.toNat + p.size)) : Parked A m' t a v :=
  { h with context := (p.laws.contextAt_same hsame).trans h.context }

omit [DecidableEq ι] in
theorem Parked.same_stack {m m' : Mem} {a : Word w} {v : View w} (h : Parked A m t a v)
    (hsame : Same m m' (A.start t) (A.stop t)) : Parked A m' t a v :=
  h.same (hsame.sub h.start_le h.le_stop)

omit [DecidableEq ι] in
/-- **An interrupt is taken on the thread's own stack**, from either ring. -/
theorem Ok.top_within (hok : Ok A s) (hroom : HasRoom A s) :
    A.start s.running + p.room ≤ p.top s.cpu ∧ p.top s.cpu ≤ A.stop s.running := by
  have hlow := p.laws.le_top s.cpu
  have hhigh := p.laws.top_le s.cpu
  have hroomy := A.roomy s.running
  by_cases huser : s.cpu.user
  · have hsp0 : s.cpu.sp0.toNat = A.stop s.running := by
      rcases hok.mode with hcs | ⟨-, hsp0⟩
      · exfalso
        have hthree : s.cpu.cs.toNat % 4 = 3 := huser
        rw [hcs] at hthree
        revert hthree
        decide
      · exact hsp0
    rw [stackOf, if_pos huser] at hlow hhigh
    omega
  · obtain ⟨hstart, hstop⟩ := hroom huser
    rw [stackOf, if_neg huser] at hlow hhigh
    omega

/-- In the state that the handler leaves, every thread is parked, the interrupted one included. -/
theorem Ok.parked {h : Handler w} {trap : Trap w} {ret : Word w} {c : Cpu w} (hok : Ok A s)
    (hroom : HasRoom A s) (hserves : Serves A s h trap t ret c) {u : ι} {a : Word w}
    (ha : Function.update s.saved s.running (some (p.enter trap s.cpu).1) u = some a) :
    ∃ v, s.thread p u = some v ∧ Parked A c.mem u a v := by
  obtain ⟨hstart, hstop⟩ := hok.top_within hroom
  have htop : p.room ≤ p.top s.cpu := by omega
  obtain ⟨htf, hcontext, honly⟩ := p.laws.saves trap s.cpu (hok.mode.symm.imp_left And.left) htop
  have hframe := p.laws.le_frame s.cpu htop
  have hsize := p.laws.frame_le s.cpu htop
  by_cases hu : u = s.running
  · subst hu
    rw [Function.update_self] at ha
    cases ha
    refine ⟨_, s.thread_running, ?_, ?_, ?_, ?_, ?_⟩
    · omega
    · omega
    · rw [htf, p.laws.contextAt_same hserves.own, hcontext]
    · rcases hok.mode with hcs | ⟨huser, -⟩
      · refine .inl ⟨(p.laws.contextOf_cs s.cpu).trans hcs, ?_⟩
        have hkernel : ¬ s.cpu.user := by
          rw [Cpu.user, hcs]
          decide
        have hhigh := p.laws.top_le s.cpu
        rw [stackOf, if_neg hkernel] at hhigh
        rw [p.laws.contextOf_sp]
        omega
      · refine .inr ?_
        rw [View.User, p.laws.contextOf_cs]
        exact huser
    · rcases hok.mode with hcs | ⟨huser, hsp0⟩
      · refine .inl ⟨(p.laws.contextOf_cs s.cpu).trans hcs, ?_⟩
        have hkernel : ¬ s.cpu.user := by
          rw [Cpu.user, hcs]
          decide
        rw [p.laws.contextOf_sp]
        exact (hroom hkernel).2
      · refine .inr ⟨?_, ?_, ?_⟩
        · rw [View.User, p.laws.contextOf_cs]
          exact huser
        · rw [p.laws.contextOf_cr3]
          exact hok.cr3
        · rw [p.laws.contextOf_sp0, hsp0]
  · rw [Function.update_of_ne hu] at ha
    obtain ⟨-, hparked⟩ := hok.saved u a ha
    refine ⟨_, Sys.thread_saved hu ha, hparked.same_stack ?_⟩
    have hsame := honly.same (a := A.start u) (b := A.stop u) (by
      rcases A.apart hu with hle | hle
      · exact .inl (by omega)
      · exact .inr (by omega))
    exact hsame.trans (hserves.others u a ha)

/-- What the return from an interrupt leaves of the other threads. -/
theorem Ok.leaves {h : Handler w} {trap : Trap w} {ret : Word w} {c : Cpu w} (hok : Ok A s)
    (hroom : HasRoom A s) (hserves : Serves A s h trap t ret c) :
    ∃ c' v, p.interrupt h trap s.cpu = .ok c' ∧ s.thread p t = some v ∧
      Parked A c.mem t ret v ∧ p.contextOf c' = v.takeOver c.cr3 c.sp0 ∧
      ∀ u a, u ≠ t → Function.update s.saved s.running (some (p.enter trap s.cpu).1) u = some a →
        Same c.mem c'.mem a.toNat (a.toNat + p.size) := by
  obtain ⟨hstart, hstop⟩ := hok.top_within hroom
  have htop : p.room ≤ p.top s.cpu := by omega
  have hmode := hok.mode.symm.imp_left And.left
  obtain ⟨htf, -, -⟩ := p.laws.saves trap s.cpu hmode htop
  have hframe := p.laws.le_frame s.cpu htop
  have hsize := p.laws.frame_le s.cpu htop
  -- a parked context is not in the part of the running stack that is used from now on
  have hclear : ∀ u a, Function.update s.saved s.running (some (p.enter trap s.cpu).1) u = some a →
      a.toNat + p.size ≤ p.top s.cpu - p.room ∨ p.frame s.cpu ≤ a.toNat := by
    intro u a ha
    obtain ⟨v, -, hparked⟩ := hok.parked hroom hserves ha
    have hlow := hparked.start_le
    have hhigh := hparked.le_stop
    by_cases hu : u = s.running
    · subst hu
      rw [Function.update_self] at ha
      cases ha
      exact .inr htf.ge
    · rcases A.apart hu with hle | hle
      · exact .inl (by omega)
      · exact .inr (by omega)
  obtain ⟨v, hv, hparked⟩ := hok.parked hroom hserves hserves.picks
  have hlow := hparked.start_le
  have hhigh := hparked.le_stop
  have hpos := A.start_pos t
  have hlimit := A.stop_le t
  have hret : ret ≠ 0 := by
    intro hzero
    rw [hzero] at hlow
    change A.start t ≤ 0 at hlow
    omega
  obtain ⟨c', hinterrupt, hcontext, hmem⟩ := p.laws.restores h trap s.cpu ret c hmode htop
    hserves.call hserves.sp hret (by omega) (hclear t ret hserves.picks) (by
      rw [hparked.context]
      exact hparked.resumable)
  rw [hparked.context] at hcontext hmem
  refine ⟨c', v, hinterrupt, hv, hparked, hcontext, ?_⟩
  intro u a hu ha x hx hx'
  obtain ⟨v', -, hother⟩ := hok.parked hroom hserves ha
  have hlow' := hother.start_le
  have hhigh' := hother.le_stop
  refine hmem x ?_ ?_
  · rcases hclear u a ha with hle | hle
    · exact .inl (by omega)
    · exact .inr (by omega)
  · rcases hparked.resumable with ⟨-, hsp⟩ | huser
    · rcases hparked.home with ⟨-, hsp'⟩ | ⟨huser, -⟩
      · rcases A.apart hu with hle | hle
        · exact .inr (.inl (by omega))
        · exact .inr (.inr (by omega))
      · exact .inl huser
    · exact .inl huser

/-- The registers of a thread are kept, but for what it takes over without a page table. -/
def Keeps (p : Port w) (s s' : Sys w ι) (u : ι) : Prop :=
  ∀ v, s.thread p u = some v → ∃ cr3 sp0, s'.thread p u = some (v.takeOver cr3 sp0)

theorem Keeps.of_eq {u : ι} (h : s'.thread p u = s.thread p u) : Keeps p s s' u := by
  intro v hv
  refine ⟨v.cr3, v.sp0, ?_⟩
  rw [View.takeOver_self, h, hv]

theorem Keeps.trans {s'' : Sys w ι} {u : ι} (h : Keeps p s s' u) (h' : Keeps p s' s'' u) :
    Keeps p s s'' u := by
  intro v hv
  obtain ⟨cr3, sp0, hv'⟩ := h v hv
  obtain ⟨cr3', sp0', hv''⟩ := h' _ hv'
  obtain ⟨x, y, hxy⟩ := v.takeOver_takeOver cr3 sp0 cr3' sp0'
  exact ⟨x, y, hv''.trans (congrArg some hxy)⟩

/-- A thread that is not running is the same as long as its stack is. -/
theorem Ok.thread_same (hok : Ok A s) {u : ι} (hu : u ≠ s.running)
    (hsaved : s'.saved u = s.saved u) (hrunning : s'.running = s.running)
    (hsame : ∀ a, s.saved u = some a → Same s.cpu.mem s'.cpu.mem (A.start u) (A.stop u)) :
    s'.thread p u = s.thread p u := by
  rw [Sys.thread, Sys.thread, hrunning, if_neg hu, if_neg hu, hsaved]
  cases ha : s.saved u with
  | none => rfl
  | some a =>
    obtain ⟨-, hparked⟩ := hok.saved u a ha
    exact congrArg some
      (p.laws.contextAt_same ((hsame a ha).sub hparked.start_le hparked.le_stop))

omit [DecidableEq ι] in
/-- A parked thread is parked in the state behind a step that keeps its stack. -/
theorem Ok.parked_same (hok : Ok A s) {m : Mem} {u : ι} {a : Word w} (ha : s.saved u = some a)
    (hsame : Same s.cpu.mem m (A.start u) (A.stop u)) :
    Parked A m u a (p.contextAt m a.toNat) := by
  obtain ⟨-, hparked⟩ := hok.saved u a ha
  rw [p.laws.contextAt_same (hsame.sub hparked.start_le hparked.le_stop)]
  exact hparked.same_stack hsame

theorem Own.kept {c : Cpu w} (hown : Own A s c) (hok : Ok A s) :
    Ok A { s with cpu := c } ∧ ∀ u, u ≠ s.running → Keeps p s { s with cpu := c } u := by
  refine ⟨⟨hown.cr3, ?_, fun u a ha => ?_⟩, fun u hu => ?_⟩
  · rcases hok.mode with hcs | ⟨huser, hsp0⟩
    · exact .inl (hown.cs.trans hcs)
    · refine .inr ⟨?_, (congrArg BitVec.toNat hown.sp0).trans hsp0⟩
      rw [Cpu.user, hown.cs]
      exact huser
  · exact ⟨(hok.saved u a ha).1, hok.parked_same ha (hown.others u a ha)⟩
  · exact .of_eq (hok.thread_same hu rfl rfl (hown.others u))

/-- A new thread changes nothing for the others. -/
theorem create_kept {c : Cpu w} {a : Word w} {v : View w} (hok : Ok A s) (hne : t ≠ s.running)
    (hnew : s.saved t = none) (h : Created A t s.cpu c a v) :
    Ok A ⟨c, s.running, Function.update s.saved t (some a)⟩ ∧
      ∀ u, Keeps p s ⟨c, s.running, Function.update s.saved t (some a)⟩ u := by
  obtain ⟨m, rfl, honly, hparked⟩ := h
  have hstack : ∀ u, u ≠ t → Same s.cpu.mem m (A.start u) (A.stop u) := fun u hu =>
    honly.same (A.apart hu)
  refine ⟨⟨hok.cr3, hok.mode, fun u b hb => ?_⟩, fun u => ?_⟩
  · have hb : Function.update s.saved t (some a) u = some b := hb
    by_cases hu : u = t
    · subst hu
      rw [Function.update_self] at hb
      cases hb
      refine ⟨hne, ?_⟩
      change Parked A m u a (p.contextAt m a.toNat)
      rw [hparked.context]
      exact hparked
    · rw [Function.update_of_ne hu] at hb
      exact ⟨(hok.saved u b hb).1, hok.parked_same hb (hstack u hu)⟩
  · by_cases hrun : u = s.running
    · subst hrun
      refine .of_eq ?_
      rw [Sys.thread_running, Sys.thread, if_pos rfl, p.laws.contextOf_mem]
    · by_cases hu : u = t
      · subst hu
        intro v' hv'
        rw [Sys.thread, if_neg hrun, hnew] at hv'
        cases hv'
      · exact .of_eq (hok.thread_same hrun (Function.update_of_ne hu _ _) rfl
          fun _ _ => hstack u hu)

/-- **An interrupt** keeps the registers of all threads; only another one may run behind it. -/
theorem interrupt_kept {h : Handler w} {trap : Trap w} {ret : Word w} {c c' : Cpu w}
    (hok : Ok A s) (hroom : HasRoom A s) (hserves : Serves A s h trap t ret c)
    (hres : p.interrupt h trap s.cpu = .ok c') :
    Ok A ⟨c', t, Function.update (Function.update s.saved s.running
        (some (p.enter trap s.cpu).1)) t none⟩ ∧
      ∀ u, Keeps p s ⟨c', t, Function.update (Function.update s.saved s.running
        (some (p.enter trap s.cpu).1)) t none⟩ u := by
  obtain ⟨d, v, hd, hv, hparked, hcontext, hsame⟩ := hok.leaves hroom hserves
  obtain rfl : d = c' := by
    rw [hd] at hres
    exact Except.ok.inj hres
  generalize hsaved : Function.update s.saved s.running (some (p.enter trap s.cpu).1) = saved
    at hsame
  have hothers : ∀ u a, u ≠ t → saved u = some a →
      ∃ v, s.thread p u = some v ∧ Parked A d.mem u a v := by
    intro u a hu ha
    obtain ⟨v', hv', hother⟩ := hok.parked hroom hserves (by rw [hsaved, ha])
    exact ⟨v', hv', hother.same (hsame u a hu ha)⟩
  refine ⟨⟨?_, ?_, fun u a ha => ?_⟩, fun u v' hv' => ?_⟩
  · change d.cr3 ≠ 0
    rw [← p.laws.contextOf_cr3, hcontext]
    by_cases hv0 : v.cr3 = 0
    · rw [View.takeOver, if_pos hv0]
      exact hserves.cr3
    · rw [View.takeOver_of_ne hv0]
      exact hv0
  · change d.cs = kernelCs ∨ (d.cs.toNat % 4 = 3 ∧ d.sp0.toNat = A.stop t)
    rw [← p.laws.contextOf_cs d, ← p.laws.contextOf_sp0 d, hcontext]
    rcases hparked.home with ⟨hcs, -⟩ | ⟨huser, hcr3, hsp0⟩
    · exact .inl ((View.takeOver_cs _ _ _).trans hcs)
    · rw [View.takeOver_of_ne hcr3]
      exact .inr ⟨huser, hsp0⟩
  · have ha : Function.update saved t none u = some a := ha
    by_cases hu : u = t
    · rw [hu, Function.update_self] at ha
      cases ha
    · rw [Function.update_of_ne hu] at ha
      obtain ⟨v', -, hother⟩ := hothers u a hu ha
      refine ⟨hu, ?_⟩
      change Parked A d.mem u a (p.contextAt d.mem a.toNat)
      rw [hother.context]
      exact hother
  · by_cases hu : u = t
    · subst hu
      rw [hv] at hv'
      cases hv'
      exact ⟨c.cr3, c.sp0, (Sys.thread_running _).trans (congrArg some hcontext)⟩
    · obtain ⟨a, ha⟩ : ∃ a, saved u = some a := by
        rw [← hsaved]
        by_cases hrun : u = s.running
        · exact ⟨_, by rw [hrun, Function.update_self]⟩
        · rw [Sys.thread, if_neg hrun] at hv'
          obtain ⟨a, ha, -⟩ := Option.map_eq_some_iff.1 hv'
          exact ⟨a, by rw [Function.update_of_ne hrun, ha]⟩
      obtain ⟨v'', hv'', hother⟩ := hothers u a hu ha
      rw [hv'] at hv''
      cases hv''
      refine ⟨v'.cr3, v'.sp0, ?_⟩
      have ha' : Function.update saved t none u = some a := by
        rw [Function.update_of_ne hu, ha]
      rw [View.takeOver_self]
      exact (Sys.thread_saved hu ha').trans (congrArg some hother.context)

/-- **A step keeps the registers** of every thread that does not run on its own. -/
theorem Step.kept {l : Label ι} (h : Step A s l s') (hok : Ok A s) :
    Ok A s' ∧ ∀ u, (l = .own → s.running ≠ u) → Keeps p s s' u := by
  cases h with
  | own hown =>
    obtain ⟨hok', hkeeps⟩ := hown.kept hok
    exact ⟨hok', fun u hu => hkeeps u (hu rfl).symm⟩
  | create hne hnew hcreated =>
    obtain ⟨hok', hkeeps⟩ := create_kept hok hne hnew hcreated
    exact ⟨hok', fun u _ => hkeeps u⟩
  | interrupt hroom hserves hres =>
    obtain ⟨hok', hkeeps⟩ := interrupt_kept hok hroom hserves hres
    exact ⟨hok', fun u _ => hkeeps u⟩

-- ---------------------------------------------------------------------------
-- Runs
-- ---------------------------------------------------------------------------

/-- Over a run in which a thread executes no instruction of its own, its registers are kept. -/
theorem run_kept {tr : List (Sys w ι × Label ι)} (h : Run (Step A) s tr s') (hok : Ok A s) :
    Ok A s' ∧ ∀ u, (∀ e ∈ tr, e.2 = .own → e.1.running ≠ u) → Keeps p s s' u := by
  induction h with
  | nil s => exact ⟨hok, fun u _ => .of_eq rfl⟩
  | cons hstep _ ih =>
    obtain ⟨hok₁, hkept⟩ := hstep.kept hok
    obtain ⟨hok', hrest⟩ := ih hok₁
    refine ⟨hok', fun u hidle => ?_⟩
    exact (hkept u (hidle _ List.mem_cons_self)).trans
      (hrest u fun e he => hidle e (List.mem_cons_of_mem _ he))

/-- The handler's choice always gets to run. -/
theorem Ok.resumes {h : Handler w} {trap : Trap w} {ret : Word w} {c : Cpu w} (hok : Ok A s)
    (hroom : HasRoom A s) (hserves : Serves A s h trap t ret c) :
    ∃ c', p.interrupt h trap s.cpu = .ok c' := by
  obtain ⟨c', -, hres, -⟩ := hok.leaves hroom hserves
  exact ⟨c', hres⟩

/-- **Any parked thread can be resumed**, by an interrupt of whatever runs. -/
theorem Ok.exists_interrupt (hok : Ok A s) (hroom : HasRoom A s) (trap : Trap w) {a : Word w}
    (ha : s.saved t = some a) : ∃ s', Step A s (.interrupt t) s' ∧ s'.running = t := by
  obtain ⟨hne, -⟩ := hok.saved t a ha
  have hserves : Serves A s (fun _ _ c => (a, { c with cr3 := s.cpu.cr3 })) trap t a
      { (p.enter trap s.cpu).2 with cr3 := s.cpu.cr3 } := by
    refine ⟨rfl, ?_, rfl, hok.cr3, fun _ _ _ => rfl, fun _ _ _ _ _ _ => rfl⟩
    rw [Function.update_of_ne hne, ha]
  obtain ⟨c', hres⟩ := hok.resumes hroom hserves
  exact ⟨_, .interrupt hroom hserves hres, rfl⟩

/-- What a new thread finds when it runs for the first time. -/
theorem created_kept {c : Cpu w} {a : Word w} {v : View w} {tr : List (Sys w ι × Label ι)}
    (hok : Ok A s) (hne : t ≠ s.running) (hnew : s.saved t = none)
    (hcreated : Created A t s.cpu c a v)
    (h : Run (Step A) ⟨c, s.running, Function.update s.saved t (some a)⟩ tr s')
    (hidle : ∀ e ∈ tr, e.2 = .own → e.1.running ≠ t) (hrun : s'.running = t) :
    ∃ cr3 sp0, p.contextOf s'.cpu = v.takeOver cr3 sp0 := by
  obtain ⟨hok₁, -⟩ := create_kept hok hne hnew hcreated
  obtain ⟨-, hkept⟩ := run_kept h hok₁
  obtain ⟨m, rfl, -, hparked⟩ := hcreated
  have hthread : (⟨s.cpu.withMem m, s.running, Function.update s.saved t (some a)⟩ :
      Sys w ι).thread p t = some v := by
    have hsaved : Function.update s.saved t (some a) t = some a := Function.update_self ..
    rw [Sys.thread, if_neg hne]
    change Option.map _ (Function.update s.saved t (some a) t) = _
    rw [hsaved]
    exact congrArg some hparked.context
  obtain ⟨cr3, sp0, hv⟩ := hkept t hidle v hthread
  rw [← hrun, Sys.thread_running] at hv
  exact ⟨cr3, sp0, Option.some.inj hv⟩

end MyOs.Cte
