import MyOs.Cte.Create

/-!
# Threads

What the interrupts and the first contexts come to, on both ports.

* `threads_kept64`, `threads_kept32` — **no interrupt changes the registers of a thread**.
* `kthread64`, `kthread32` — **a new thread of the kernel** calls its function.
* `uthread64`, `uthread32` — **a new thread of the user** starts in ring 3.
-/

namespace MyOs.Cte

open MyOs.Memory MyOs.Words MyOs.Transition

variable {w : Nat}

-- ---------------------------------------------------------------------------
-- A machine with two stacks
-- ---------------------------------------------------------------------------

theorem yield_known : (none : Option (Word w)).isSome = (irqs.lookup 0x81 == some false) := rfl

/-- `yield`. -/
def yield : Trap w := ⟨0x81, none, yield_known⟩

def sampleStart (t : Bool) : Nat := if t then 0x2000 else 0x1000

def sampleStop (t : Bool) : Nat := if t then 0x3000 else 0x2000

theorem sample_pos (t : Bool) : 0 < sampleStart t := by
  cases t <;> decide

theorem sample_roomy {n : Nat} (hn : n ≤ 0xf00) (t : Bool) :
    sampleStart t + n + 15 ≤ sampleStop t := by
  cases t
  · change 0x1000 + n + 15 ≤ 0x2000
    omega
  · change 0x2000 + n + 15 ≤ 0x3000
    omega

theorem sample_le {n : Nat} (hn : 0x3000 ≤ n) (t : Bool) : sampleStop t ≤ n := by
  cases t
  · change 0x2000 ≤ n
    omega
  · exact hn

theorem sample_apart {t u : Bool} (h : t ≠ u) :
    sampleStop t ≤ sampleStart u ∨ sampleStop u ≤ sampleStart t := by
  cases t <;> cases u <;> first | exact absurd rfl h | decide

def sampleStacks (p : Port w) (hroom : p.room ≤ 0xf00) (hw : 0x3000 ≤ 2 ^ (8 * w)) :
    Stacks p Bool where
  start := sampleStart
  stop := sampleStop
  start_pos := sample_pos
  roomy := sample_roomy hroom
  stop_le := sample_le hw
  apart := sample_apart

/-- One thread runs in the kernel, on an empty stack. -/
def sampleSys (w : Nat) : Sys w Bool where
  cpu := ⟨fun _ => BitVec.ofNat _ 0x2000, 0, 0, kernelCs, fun _ => 0, 0, BitVec.ofNat _ 0x9000, 0,
    0, fun _ => 0⟩
  running := false
  saved := fun _ => none

theorem sample_ok {p : Port w} (A : Stacks p Bool) (hcr3 : BitVec.ofNat (8 * w) 0x9000 ≠ 0) :
    Ok A (sampleSys w) := by
  refine ⟨hcr3, .inl rfl, fun t a h => ?_⟩
  cases h

/-- The other thread is made and gets to run. -/
theorem sample_run {p : Port w} {hroom : p.room ≤ 0xf00} {hw : 0x3000 ≤ 2 ^ (8 * w)} {c : Cpu w}
    {a : Word w} {v : View w} (hcr3 : BitVec.ofNat (8 * w) 0x9000 ≠ 0)
    (h : Created (sampleStacks p hroom hw) true (sampleSys w).cpu c a v) :
    ∃ s', Step (sampleStacks p hroom hw) (sampleSys w) (.create true)
        ⟨c, false, Function.update (fun _ => none) true (some a)⟩ ∧
      Step (sampleStacks p hroom hw) ⟨c, false, Function.update (fun _ => none) true (some a)⟩
        (.interrupt true) s' ∧ s'.running = true := by
  have hne : true ≠ (sampleSys w).running := show true ≠ false by decide
  obtain ⟨hok, -⟩ := create_kept (sample_ok _ hcr3) hne rfl h
  have hspace : HasRoom (sampleStacks p hroom hw)
      ⟨c, false, Function.update (fun _ => none) true (some a)⟩ := by
    obtain ⟨m, rfl, -, -⟩ := h
    intro _
    have hsp : (BitVec.ofNat (8 * w) 0x2000).toNat = 0x2000 := toNat_ofNat_of_lt (by omega)
    change 0x1000 + p.room + 15 ≤ (BitVec.ofNat (8 * w) 0x2000).toNat ∧
      (BitVec.ofNat (8 * w) 0x2000).toNat ≤ 0x2000
    omega
  obtain ⟨s', hstep, hrun⟩ := hok.exists_interrupt hspace yield (Function.update_self ..)
  exact ⟨s', .create hne rfl h, hstep, hrun⟩

-- ---------------------------------------------------------------------------
-- x86_64
-- ---------------------------------------------------------------------------

section X8664

theorem room64 : (port64 0x100000).room ≤ 0xf00 := show 240 ≤ 0xf00 by decide

theorem cr3_64 : BitVec.ofNat (8 * 8) 0x9000 ≠ 0 := by decide

theorem stop_64 : (0x3000 : Word 8).toNat = sampleStop true := by decide

theorem space64 : 0x3000 ≤ 2 ^ (8 * 8) := by decide

def stacks64 : Stacks (port64 0x100000) Bool := sampleStacks _ room64 space64

variable {ι : Type} [DecidableEq ι] {t : ι} {amIret start stop entry arg ptr uvmEnd : Word 8}
  {A : Stacks (port64 amIret) ι} {s s' : Sys 8 ι} {tr : List (Sys 8 ι × Label ι)}

/-- **Threads on x86_64.** Over any run, a thread that executes nothing keeps its registers, and the
next interrupt comes back to the thread that the handler picks. -/
theorem threads_kept64 (h : Run (Step A) s tr s') (hok : Ok A s) :
    (∀ t, (∀ e ∈ tr, e.2 = .own → e.1.running ≠ t) → Keeps (port64 amIret) s s' t) ∧
      ∀ handler trap t ret c, HasRoom A s' → Serves A s' handler trap t ret c →
        ∃ c', interrupt64 amIret handler trap s'.cpu = .ok c' := by
  obtain ⟨hok', hkept⟩ := run_kept h hok
  exact ⟨hkept, fun _ _ _ _ _ hroom hserves => hok'.resumes hroom hserves⟩

/-- A second thread is made and gets to run; the first one keeps its registers. -/
theorem threads_kept64_sample : ∃ s' : Sys 8 Bool, s'.running = true ∧
    Keeps (port64 0x100000) (sampleSys 8) s' false := by
  obtain ⟨s', hcreate, hinterrupt, hrun⟩ := sample_run cr3_64
    (kcontext64_created (A := stacks64) (t := true)
      0x100020 0x3000 0x100030 7 stop_64 (sampleSys 8).cpu)
  refine ⟨s', hrun, (threads_kept64 (.cons hcreate (.cons hinterrupt (.nil s')))
    (sample_ok _ cr3_64)).1 false ?_⟩
  simp

/-- `__am_kcontext_start`. -/
def kcontextStart64 (panicOnReturn : Word 8) (c : Cpu 8) : Cpu 8 :=
  { c.push panicOnReturn with ip := c.reg .si }

theorem at_push (c : Cpu w) (v : Word w) : (c.push v).at_ ((c.push v).reg .sp) = v := by
  have hput := congrFun (words_store (m := c.mem) (a := (c.reg .sp - BitVec.ofNat _ w).toNat)
    (j := 0) v) 0
  rw [Function.update_self] at hput
  exact hput

/-- **A new thread of the kernel.** When it runs for the first time, whatever has happened in
between, `__am_kcontext_start` calls `entry` with `arg` on an empty stack; `entry` must not
return. -/
theorem kthread64 (panicOnReturn : Word 8) (hok : Ok A s) (hne : t ≠ s.running)
    (hnew : s.saved t = none) (hstop : stop.toNat = A.stop t)
    (h : Run (Step A) ⟨(kcontext64 start stop entry arg s.cpu).2, s.running,
      Function.update s.saved t (some (kcontext64 start stop entry arg s.cpu).1)⟩ tr s')
    (hidle : ∀ e ∈ tr, e.2 = .own → e.1.running ≠ t) (hrun : s'.running = t) :
    s'.cpu.ip = start ∧ ¬ s'.cpu.user ∧ s'.cpu.flags = BitVec.ofNat _ flIf ∧
      ∃ c, kcontextStart64 panicOnReturn s'.cpu = c ∧ c.ip = entry ∧ c.reg .di = arg ∧
        c.reg .sp = stop - BitVec.ofNat _ 8 ∧ c.at_ (c.reg .sp) = panicOnReturn := by
  obtain ⟨cr3, sp0, hv⟩ := created_kept hok hne hnew
    (kcontext64_created start stop entry arg hstop s.cpu) h hidle hrun
  rw [View.takeOver, if_pos rfl] at hv
  have hv : (contextOf64 s'.cpu).view = _ := hv
  simp only [Context64.view, contextOf64, View.mk.injEq, List.cons.injEq] at hv
  obtain ⟨-, -, hsp, hcs, -, -, -, -, -, hsi, hdi, -, -, -, -, -, -, -, -, hip, hflags, -⟩ := hv
  have hcs : s'.cpu.cs = kernelCs := (setWidth_selector 64 (by decide) _).symm.trans hcs
  have hpush : (s'.cpu.push panicOnReturn).reg .sp = stop - BitVec.ofNat _ 8 := by
    rw [← hsp]
    rfl
  refine ⟨hip, ?_, hflags, _, rfl, hsi, hdi, hpush, at_push _ _⟩
  rw [Cpu.user, hcs]
  decide

theorem kthread64_sample : ∃ s' : Sys 8 Bool,
    s'.cpu.ip = 0x100020 ∧ (kcontextStart64 0x100040 s'.cpu).ip = 0x100030 := by
  have hcreated := kcontext64_created (A := stacks64) (t := true)
    0x100020 0x3000 0x100030 7 stop_64 (sampleSys 8).cpu
  obtain ⟨s', -, hinterrupt, hrun⟩ := sample_run cr3_64 hcreated
  obtain ⟨hip, -, -, c, rfl, hentry, -⟩ := kthread64 0x100040 (sample_ok _ cr3_64)
    (show true ≠ false by decide) rfl stop_64 (.cons hinterrupt (.nil s')) (by simp) hrun
  exact ⟨s', hip, hentry⟩

/-- **A new thread of the user.** When it runs for the first time, it is in ring 3 at `entry`, in
its own address space with an empty stack, and comes back to its own stack for the kernel. -/
theorem uthread64 (hok : Ok A s) (hne : t ≠ s.running) (hnew : s.saved t = none)
    (hstop : stop.toNat = A.stop t) (hptr : ptr ≠ 0)
    (h : Run (Step A) ⟨(ucontext64 ptr uvmEnd stop entry s.cpu).2, s.running,
      Function.update s.saved t (some (ucontext64 ptr uvmEnd stop entry s.cpu).1)⟩ tr s')
    (hidle : ∀ e ∈ tr, e.2 = .own → e.1.running ≠ t) (hrun : s'.running = t) :
    s'.cpu.user ∧ s'.cpu.ip = entry ∧ s'.cpu.reg .sp = uvmEnd ∧ s'.cpu.cr3 = ptr ∧
      s'.cpu.sp0.toNat = A.stop t ∧ s'.cpu.flags = BitVec.ofNat _ flIf ∧
      ∀ r ≠ Reg.sp, s'.cpu.reg r = 0 := by
  obtain ⟨cr3, sp0, hv⟩ := created_kept hok hne hnew
    (ucontext64_created ptr uvmEnd stop entry hptr hstop s.cpu) h hidle hrun
  rw [View.takeOver_of_ne hptr] at hv
  have hv : (contextOf64 s'.cpu).view = _ := hv
  simp only [Context64.view, contextOf64, View.mk.injEq, List.cons.injEq] at hv
  obtain ⟨hcr3, hsp0, hsp, hcs, hax, hbx, hcx, hdx, hbp, hsi, hdi, h8, h9, h10, h11, h12, h13, h14,
    h15, hip, hflags, -⟩ := hv
  have hcs : s'.cpu.cs = BitVec.ofNat _ (usel segUcode) :=
    (setWidth_selector 64 (by decide) _).symm.trans hcs
  refine ⟨?_, hip, hsp, hcr3, ?_, hflags, fun r hr => ?_⟩
  · rw [Cpu.user, hcs]
    exact userCs
  · rw [hsp0, hstop]
  · cases r
    case sp => exact absurd rfl hr
    all_goals assumption

theorem uthread64_sample : ∃ s' : Sys 8 Bool,
    s'.cpu.user ∧ s'.cpu.ip = 0x40000000 ∧ s'.cpu.cr3 = 0xa000 := by
  have hcreated := ucontext64_created (A := stacks64) (t := true)
    0xa000 0x80000000 0x3000 0x40000000 (by decide) stop_64 (sampleSys 8).cpu
  obtain ⟨s', -, hinterrupt, hrun⟩ := sample_run cr3_64 hcreated
  obtain ⟨huser, hip, -, hptr, -⟩ := uthread64 (sample_ok _ cr3_64)
    (show true ≠ false by decide) rfl stop_64 (by decide) (.cons hinterrupt (.nil s')) (by simp)
    hrun
  exact ⟨s', huser, hip, hptr⟩

end X8664

-- ---------------------------------------------------------------------------
-- x86
-- ---------------------------------------------------------------------------

section X86

theorem room32 : (port32 0x100000 0x100010).room ≤ 0xf00 := show 104 ≤ 0xf00 by decide

theorem cr3_32 : BitVec.ofNat (8 * 4) 0x9000 ≠ 0 := by decide

theorem stop_32 : (0x3000 : Word 4).toNat = sampleStop true := by decide

theorem space32 : 0x3000 ≤ 2 ^ (8 * 4) := by decide

def stacks32 : Stacks (port32 0x100000 0x100010) Bool := sampleStacks _ room32 space32

variable {ι : Type} [DecidableEq ι] {t : ι} {amIret back start stop entry arg ptr uvmEnd : Word 4}
  {A : Stacks (port32 amIret back) ι} {s s' : Sys 4 ι} {tr : List (Sys 4 ι × Label ι)}

/-- **Threads on x86**, where the return to the kernel copies the end of the context. -/
theorem threads_kept32 (h : Run (Step A) s tr s') (hok : Ok A s) :
    (∀ t, (∀ e ∈ tr, e.2 = .own → e.1.running ≠ t) → Keeps (port32 amIret back) s s' t) ∧
      ∀ handler trap t ret c, HasRoom A s' → Serves A s' handler trap t ret c →
        ∃ c', interrupt32 amIret back handler trap s'.cpu = .ok c' := by
  obtain ⟨hok', hkept⟩ := run_kept h hok
  exact ⟨hkept, fun _ _ _ _ _ hroom hserves => hok'.resumes hroom hserves⟩

/-- A second thread is made and gets to run; the first one keeps its registers. -/
theorem threads_kept32_sample : ∃ s' : Sys 4 Bool, s'.running = true ∧
    Keeps (port32 0x100000 0x100010) (sampleSys 4) s' false := by
  obtain ⟨s', hcreate, hinterrupt, hrun⟩ := sample_run cr3_32
    (kcontext32_created (A := stacks32) (t := true)
      0x100020 0x3000 0x100030 7 stop_32 (sampleSys 4).cpu)
  refine ⟨s', hrun, (threads_kept32 (.cons hcreate (.cons hinterrupt (.nil s')))
    (sample_ok _ cr3_32)).1 false ?_⟩
  simp

/-- `__am_kcontext_start`. The argument is passed on the stack. -/
def kcontextStart32 (panicOnReturn : Word 4) (c : Cpu 4) : Cpu 4 :=
  { (c.push (c.reg .ax)).push panicOnReturn with ip := c.reg .bx }

/-- The last two words on a stack. -/
theorem push_push {c : Cpu 4} (h : 8 ≤ (c.reg .sp).toNat) (u v : Word 4) :
    ((c.push u).push v).field (((c.push u).push v).reg .sp) 0 = v ∧
      ((c.push u).push v).field (((c.push u).push v).reg .sp) 1 = u ∧
      (((c.push u).push v).reg .sp).toNat = (c.reg .sp).toNat - 8 := by
  obtain ⟨a, ha⟩ : ∃ a, (c.reg .sp).toNat = a + 8 := ⟨(c.reg .sp).toNat - 8, by omega⟩
  obtain ⟨sp₁, m₁, hpush₁, hsp₁, hwords₁, -⟩ := push_spec (a := a) (k := 1) (v := u) (c := c) ha
  obtain ⟨sp₂, m₂, hpush₂, hsp₂, hwords₂, -⟩ := push_spec (a := a) (k := 0) (v := v)
    (c := c.push u) (by rw [hpush₁, Cpu.withMem_reg, Cpu.setReg_reg, Function.update_self, hsp₁])
  have hsp : ((c.push u).push v).reg .sp = sp₂ := by
    rw [hpush₂, Cpu.withMem_reg, Cpu.setReg_reg, Function.update_self]
  have hfield : ∀ i, ((c.push u).push v).field sp₂ i
      = Function.update (Function.update (words 4 c.mem a) 1 u) 0 v i := by
    intro i
    rw [Cpu.field, hpush₂, Cpu.withMem_mem, hsp₂, Nat.mul_zero, Nat.add_zero, hwords₂, hpush₁,
      Cpu.withMem_mem, hwords₁]
  rw [hsp, hfield, hfield]
  exact ⟨rfl, rfl, by omega⟩

/-- **A new thread of the kernel.** -/
theorem kthread32 (panicOnReturn : Word 4) (hok : Ok A s) (hne : t ≠ s.running)
    (hnew : s.saved t = none) (hstop : stop.toNat = A.stop t)
    (h : Run (Step A) ⟨(kcontext32 start stop entry arg s.cpu).2, s.running,
      Function.update s.saved t (some (kcontext32 start stop entry arg s.cpu).1)⟩ tr s')
    (hidle : ∀ e ∈ tr, e.2 = .own → e.1.running ≠ t) (hrun : s'.running = t) :
    s'.cpu.ip = start ∧ ¬ s'.cpu.user ∧ s'.cpu.flags = BitVec.ofNat _ flIf ∧
      s'.cpu.seg .ds = BitVec.ofNat _ (ksel segKdata) ∧
      ∃ c, kcontextStart32 panicOnReturn s'.cpu = c ∧ c.ip = entry ∧
        (c.reg .sp).toNat = A.stop t - 8 ∧ c.field (c.reg .sp) 0 = panicOnReturn ∧
        c.field (c.reg .sp) 1 = arg := by
  obtain ⟨cr3, sp0, hv⟩ := created_kept hok hne hnew
    (kcontext32_created start stop entry arg hstop s.cpu) h hidle hrun
  rw [View.takeOver, if_pos rfl] at hv
  have hv : (contextOf32 s'.cpu).view = _ := hv
  simp only [Context32.view, contextOf32, View.mk.injEq, List.cons.injEq, setWidth_low16] at hv
  obtain ⟨-, -, hsp, hcs, hds, hax, hbx, -, -, -, -, -, hip, hflags, -⟩ := hv
  have hcs : s'.cpu.cs = kernelCs := (setWidth_selector 32 (by decide) _).symm.trans hcs
  have hds : s'.cpu.seg .ds = BitVec.ofNat _ (ksel segKdata) :=
    (setWidth_selector 32 (by decide) _).symm.trans (congrArg (BitVec.setWidth 16) hds)
  have hroomy : A.start t + 104 + 15 ≤ A.stop t := A.roomy t
  obtain ⟨hret, harg, hend⟩ := push_push (c := s'.cpu) (by rw [hsp]; omega) (s'.cpu.reg .ax)
    panicOnReturn
  refine ⟨hip, ?_, hflags, hds, _, rfl, hbx, ?_, hret, harg.trans hax⟩
  · rw [Cpu.user, hcs]
    decide
  · rw [← hstop, ← hsp]
    exact hend

theorem kthread32_sample : ∃ s' : Sys 4 Bool,
    s'.cpu.ip = 0x100020 ∧ (kcontextStart32 0x100040 s'.cpu).ip = 0x100030 := by
  have hcreated := kcontext32_created (A := stacks32) (t := true)
    0x100020 0x3000 0x100030 7 stop_32 (sampleSys 4).cpu
  obtain ⟨s', -, hinterrupt, hrun⟩ := sample_run cr3_32 hcreated
  obtain ⟨hip, -, -, -, c, rfl, hentry, -⟩ := kthread32 0x100040 (sample_ok _ cr3_32)
    (show true ≠ false by decide) rfl stop_32 (.cons hinterrupt (.nil s')) (by simp) hrun
  exact ⟨s', hip, hentry⟩

/-- **A new thread of the user.** -/
theorem uthread32 (hok : Ok A s) (hne : t ≠ s.running) (hnew : s.saved t = none)
    (hstop : stop.toNat = A.stop t) (hptr : ptr ≠ 0)
    (h : Run (Step A) ⟨(ucontext32 ptr uvmEnd stop entry s.cpu).2, s.running,
      Function.update s.saved t (some (ucontext32 ptr uvmEnd stop entry s.cpu).1)⟩ tr s')
    (hidle : ∀ e ∈ tr, e.2 = .own → e.1.running ≠ t) (hrun : s'.running = t) :
    s'.cpu.user ∧ s'.cpu.ip = entry ∧ s'.cpu.reg .sp = uvmEnd ∧ s'.cpu.cr3 = ptr ∧
      s'.cpu.sp0.toNat = A.stop t ∧ s'.cpu.flags = BitVec.ofNat _ flIf ∧
      s'.cpu.seg .ds = BitVec.ofNat _ (usel segUdata) ∧
      ∀ r ∈ [Reg.ax, .bx, .cx, .dx, .si, .di, .bp], s'.cpu.reg r = 0 := by
  obtain ⟨cr3, sp0, hv⟩ := created_kept hok hne hnew
    (ucontext32_created ptr uvmEnd stop entry hptr hstop s.cpu) h hidle hrun
  rw [View.takeOver_of_ne hptr] at hv
  have hv : (contextOf32 s'.cpu).view = _ := hv
  simp only [Context32.view, contextOf32, View.mk.injEq, List.cons.injEq, setWidth_low16] at hv
  obtain ⟨hcr3, hsp0, hsp, hcs, hds, hax, hbx, hcx, hdx, hsi, hdi, hbp, hip, hflags, -⟩ := hv
  have hcs : s'.cpu.cs = BitVec.ofNat _ (usel segUcode) :=
    (setWidth_selector 32 (by decide) _).symm.trans hcs
  have hds : s'.cpu.seg .ds = BitVec.ofNat _ (usel segUdata) :=
    (setWidth_selector 32 (by decide) _).symm.trans (congrArg (BitVec.setWidth 16) hds)
  refine ⟨?_, hip, hsp, hcr3, ?_, hflags, hds, ?_⟩
  · rw [Cpu.user, hcs]
    exact userCs
  · rw [hsp0, hstop]
  · simp only [List.forall_mem_cons, hax, hbx, hcx, hdx, hsi, hdi, hbp, true_and]
    exact fun r hr => absurd hr List.not_mem_nil

theorem uthread32_sample : ∃ s' : Sys 4 Bool,
    s'.cpu.user ∧ s'.cpu.ip = 0x40000000 ∧ s'.cpu.cr3 = 0xa000 := by
  have hcreated := ucontext32_created (A := stacks32) (t := true)
    0xa000 0x80000000 0x3000 0x40000000 (by decide) stop_32 (sampleSys 4).cpu
  obtain ⟨s', -, hinterrupt, hrun⟩ := sample_run cr3_32 hcreated
  obtain ⟨huser, hip, -, hptr, -⟩ := uthread32 (sample_ok _ cr3_32)
    (show true ≠ false by decide) rfl stop_32 (by decide) (.cons hinterrupt (.nil s')) (by simp)
    hrun
  exact ⟨s', huser, hip, hptr⟩

end X86

end MyOs.Cte
