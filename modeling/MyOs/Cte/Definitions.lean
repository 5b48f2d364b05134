import MyOs.Lib.Words

/-!
# cte — interrupts and contexts

The model of `abstract-machine/am/src/x86/qemu/cte.c`, of `trap64.S` and `trap32.S`, and of
`ucontext` in `vme.c`, for both word sizes. The assembly is a list of instructions of a small
machine; of the arithmetic flags nothing is modelled, since nothing reads them. What the
processor does on its own (delivering an interrupt, `iret`) is stated beside the stubs.

The handler is a parameter: it is given the event, the context and the machine, and returns
a context and the machine as it leaves it, so everything it does to memory is its own. The
acknowledgement to the local APIC is left out.

An interrupt is one step, from its delivery to the `iret`: that another one comes in before
the `cli` of the entry point is not modelled. And a `Trap` is one whose error code the stubs
know about (`Trap.known`): for an exception that pushes one and has no entry point of its own,
such as 17 (alignment check), `__am_irqall` would push another and take the frame for a wrong
one, and these vectors are left out.
-/

namespace MyOs.Cte

open MyOs.Memory MyOs.Words

-- ---------------------------------------------------------------------------
-- The processor
-- ---------------------------------------------------------------------------

/-- The general registers, without the letter for their width. -/
inductive Reg
  | ax | bx | cx | dx | bp | si | di | sp | r8 | r9 | r10 | r11 | r12 | r13 | r14 | r15
deriving DecidableEq

/-- The segment registers that the stubs load. -/
inductive Seg
  | ds | es | ss
deriving DecidableEq

structure Cpu (w : Nat) where
  reg : Reg → Word w
  ip : Word w
  flags : Word w
  cs : BitVec 16
  seg : Seg → BitVec 16
  cr2 : Word w
  cr3 : Word w
  /-- `CPU->tss.rsp0`, `CPU->tss.esp0`. -/
  sp0 : Word w
  /-- `CPU->tss.ss0`. -/
  ss0 : BitVec 16
  mem : Mem

variable {w : Nat}

/-- `FL_IF`. -/
def flIf : Nat := 0x200

/-- `KSEL`. -/
def ksel (seg : Nat) : Nat := seg * 8

/-- `USEL`. -/
def usel (seg : Nat) : Nat := seg * 8 + 3

/-- `SEG_KCODE`. -/
def segKcode : Nat := 1

/-- `SEG_KDATA`. -/
def segKdata : Nat := 2

/-- `SEG_UCODE`. -/
def segUcode : Nat := 3

/-- `SEG_UDATA`. -/
def segUdata : Nat := 4

namespace Cpu

def setReg (c : Cpu w) (r : Reg) (v : Word w) : Cpu w :=
  { c with reg := Function.update c.reg r v }

def setSeg (c : Cpu w) (s : Seg) (v : BitVec 16) : Cpu w :=
  { c with seg := Function.update c.seg s v }

/-- The word at an address. -/
def at_ (c : Cpu w) (a : Word w) : Word w := words w c.mem a.toNat 0

def put (c : Cpu w) (a v : Word w) : Cpu w := { c with mem := store c.mem a.toNat w v.toNat }

def push (c : Cpu w) (v : Word w) : Cpu w :=
  (c.setReg .sp (c.reg .sp - BitVec.ofNat _ w)).put (c.reg .sp - BitVec.ofNat _ w) v

def pop (c : Cpu w) (r : Reg) : Cpu w :=
  (c.setReg .sp (c.reg .sp + BitVec.ofNat _ w)).setReg r (c.at_ (c.reg .sp))

/-- A field of a struct, by position. -/
def field (c : Cpu w) (p : Word w) (i : Nat) : Word w := words w c.mem p.toNat i

def setField (c : Cpu w) (p : Word w) (i : Nat) (v : Word w) : Cpu w :=
  { c with mem := store c.mem (p.toNat + w * i) w v.toNat }

/-- The interrupted code is the user's. -/
def user (c : Cpu w) : Prop := c.cs.toNat % 4 = 3

instance (c : Cpu w) : Decidable c.user := Nat.decEq _ _

end Cpu

/-- Instructions, with the operands in the order of the source. -/
inductive Instr (w : Nat)
  | cli
  | push (r : Reg)
  | pushImm (v : Word w)
  | pop (r : Reg)
  | add (n : Nat) (r : Reg)
  | sub (n : Nat) (r : Reg)
  | mov (src dst : Reg)
  /-- `mov disp(base), dst` -/
  | load (disp : Nat) (base dst : Reg)
  /-- `mov src, -disp(base)` -/
  | store (src : Reg) (disp : Nat) (base : Reg)
  /-- `lea -disp(base), dst` -/
  | lea (disp : Nat) (base dst : Reg)
  /-- `movw seg, dst` -/
  | movFrom (s : Seg) (dst : Reg)
  /-- `movw src, seg` -/
  | movTo (src : Reg) (s : Seg)
  /-- `movw imm, dst` -/
  | movImm (v : BitVec 16) (dst : Reg)

/-- A write to the low half-word of a register. -/
def low16 (v : Word w) (x : BitVec 16) : Word w :=
  BitVec.ofNat _ (v.toNat / 2 ^ 16 * 2 ^ 16 + x.toNat)

def Instr.step (c : Cpu w) : Instr w → Cpu w
  | .cli => { c with flags := c.flags &&& ~~~BitVec.ofNat _ flIf }
  | .push r => c.push (c.reg r)
  | .pushImm v => c.push v
  | .pop r => c.pop r
  | .add n r => c.setReg r (c.reg r + BitVec.ofNat _ n)
  | .sub n r => c.setReg r (c.reg r - BitVec.ofNat _ n)
  | .mov src dst => c.setReg dst (c.reg src)
  | .load disp base dst => c.setReg dst (c.at_ (c.reg base + BitVec.ofNat _ disp))
  | .store src disp base => c.put (c.reg base - BitVec.ofNat _ disp) (c.reg src)
  | .lea disp base dst => c.setReg dst (c.reg base - BitVec.ofNat _ disp)
  | .movFrom s dst => c.setReg dst (low16 (c.reg dst) (c.seg s))
  | .movTo src s => c.setSeg s ((c.reg src).setWidth 16)
  | .movImm v dst => c.setReg dst (low16 (c.reg dst) v)

def exec (p : List (Instr w)) (c : Cpu w) : Cpu w := p.foldl Instr.step c

-- ---------------------------------------------------------------------------
-- Events
-- ---------------------------------------------------------------------------

inductive EventKind
  | null | yield | syscall | pagefault | error | irqTimer | irqIodev
deriving DecidableEq, Repr

structure Event (w : Nat) where
  event : EventKind
  cause : Word w
  ref : Word w
  msg : String
deriving DecidableEq

/-- `MMAP_NONE`, `MMAP_READ`, `MMAP_WRITE`. -/
def mmapNone : Nat := 0

def mmapRead : Nat := 1

def mmapWrite : Nat := 2

/-- The cause of a page fault. -/
def faultCause (errcode : Word w) : Word w :=
  (if errcode &&& 1 ≠ 0 then BitVec.ofNat _ mmapNone else 0) |||
    (if errcode &&& 2 ≠ 0 then BitVec.ofNat _ mmapWrite else BitVec.ofNat _ mmapRead)

/-- The `switch` of `__am_irq_handle`. -/
def eventOf (irq errcode cr2 : Word w) : Event w :=
  match irq.toNat with
  | 32 => ⟨.irqTimer, 0, 0, "timer interrupt (lapic)"⟩
  | 33 => ⟨.irqIodev, 0, 0, "I/O device IRQ1 (keyboard)"⟩
  | 36 => ⟨.irqIodev, 0, 0, "I/O device IRQ4 (COM1)"⟩
  | 0x80 => ⟨.syscall, 0, 0, "int $0x80 system call"⟩
  | 0x81 => ⟨.yield, 0, 0, "int $0x81 yield"⟩
  | 0 => ⟨.error, 0, 0, "DE #0 divide by zero"⟩
  | 6 => ⟨.error, 0, 0, "UD #6 invalid opcode"⟩
  | 7 => ⟨.error, 0, 0, "NM #7 coprocessor error"⟩
  | 8 => ⟨.error, 0, 0, "DF #8 double fault"⟩
  | 10 => ⟨.error, 0, 0, "TS #10 invalid TSS"⟩
  | 11 => ⟨.error, 0, 0, "NP #11 segment/gate not present"⟩
  | 12 => ⟨.error, 0, 0, "SS #12 stack fault"⟩
  | 13 => ⟨.error, 0, 0, "GP #13, general protection fault"⟩
  | 14 => ⟨.pagefault, faultCause errcode, cr2, "PF #14, page fault, @cause: PROT_XXX"⟩
  | _ => ⟨.error, errcode, 0, "unrecognized interrupt/exception"⟩

/-- The handler gets the event and the context and returns a context. -/
abbrev Handler (w : Nat) := Event w → Word w → Cpu w → Word w × Cpu w

-- ---------------------------------------------------------------------------
-- Entry points
-- ---------------------------------------------------------------------------

/-- `IRQS`: the vectors with an entry point of their own, and whether they push no error code. -/
def irqs : List (Nat × Bool) :=
  [(0, true), (1, true), (2, true), (3, true), (4, true), (5, true), (6, true), (7, true),
    (8, false), (9, true), (10, false), (11, false), (12, false), (13, false), (14, false),
    (15, true), (16, true), (19, true), (31, true), (32, true), (33, true), (34, true),
    (35, true), (36, true), (37, true), (38, true), (39, true), (40, true), (41, true),
    (42, true), (43, true), (44, true), (45, true), (46, true), (47, true), (128, true),
    (129, true)]

/-- What `tf->irq` says about a vector. The others share `__am_irqall`. -/
def irqOf (v : Nat) : Word w :=
  if (irqs.lookup v).isSome then BitVec.ofNat _ v else BitVec.ofInt _ (-1)

/-- The entry point of a vector, up to the jump to `trap`. -/
def entryOf (v : Nat) : List (Instr w) :=
  match irqs.lookup v with
  | some true => [.cli, .pushImm 0, .pushImm (BitVec.ofNat _ v)]
  | some false => [.cli, .pushImm (BitVec.ofNat _ v)]
  | none => [.cli, .pushImm 0, .pushImm (BitVec.ofInt _ (-1))]

/-- An interrupt or exception: its vector, and the error code if the processor pushes one. -/
structure Trap (w : Nat) where
  vector : Nat
  errcode : Option (Word w)
  /-- The table knows which exceptions come with an error code. -/
  known : errcode.isSome = (irqs.lookup vector == some false)

end MyOs.Cte
