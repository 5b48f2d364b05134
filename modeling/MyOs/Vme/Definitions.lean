import MyOs.Lib.Fallible
import MyOs.Lib.Memory
import MyOs.Lib.Radix

/-!
# vme — virtual memory

The model of `abstract-machine/am/src/x86/qemu/vme.c`. Page tables lie in byte memory, an
entry is a little-endian word, and a pointer is an address. An `AddrSpace` is the address of
its struct. The client's `pgalloc` and `pgfree` are parameters with a state of their own, and
they may write to memory. A failed `panic_on` is a failure, one for each message.

The levels of the page tables and the areas of the address space are those of a
configuration, and both configurations of the source are given. `vme_init` is left out: the
kernel page table is where `kpt` says.
-/

namespace MyOs.Vme

open MyOs.Memory MyOs.Radix

-- ---------------------------------------------------------------------------
-- Constants
-- ---------------------------------------------------------------------------

/-- `PTE_P`. -/
def pteP : Nat := 0x001

/-- `PTE_W`. -/
def pteW : Nat := 0x002

/-- `PTE_U`. -/
def pteU : Nat := 0x004

/-- `PTE_PS`. -/
def ptePS : Nat := 0x080

/-- `MMAP_NONE`. -/
def mmapNone : Nat := 0

/-- `MMAP_WRITE`. -/
def mmapWrite : Nat := 2

-- ---------------------------------------------------------------------------
-- The configuration
-- ---------------------------------------------------------------------------

/-- `struct ptinfo`. -/
structure PtInfo where
  mask : Nat
  shift : Nat
  bits : Nat
  deriving DecidableEq

def PtInfo.field (info : PtInfo) : Field := ⟨info.shift, info.bits⟩

/-- `struct vm_area`. -/
structure VmArea where
  start : Nat
  stop : Nat
  kernel : Bool
  deriving DecidableEq

def indexof (addr : Nat) (info : PtInfo) : Nat := (addr &&& info.mask) >>> info.shift

/-- The addresses of a loop from `cur` up to `stop`, modulo the size of the address space. -/
def visited (size step stop : Nat) : Nat → Nat → Option (List Nat)
  | 0, _ => none
  | fuel + 1, cur =>
    if cur = stop then some []
    else (visited size step stop fuel ((cur + step) % size)).map (cur :: ·)

/-- The loop over an area of the kernel, by the entries of the first level. -/
def kernelAddrs (wordSz : Nat) (top : PtInfo) (area : VmArea) : Option (List Nat) :=
  if area.kernel then
    visited (2 ^ (8 * wordSz)) (2 ^ top.shift) area.stop (2 ^ top.bits + 1) area.start
  else some []

/-- `mmu` and `vm_areas`. The tables of all levels fill a page, the levels cut the address into
consecutive fields, and the user area shares no entry of the first level with the kernel. -/
structure Mmu where
  /-- `sizeof(uintptr_t)`. -/
  wordSz : Nat
  pgbits : Nat
  cr3 : PtInfo
  top : PtInfo
  rest : List PtInfo
  uvm : VmArea
  others : List VmArea
  wordSz_pos : 0 < wordSz
  flags_lt : 8 ≤ pgbits
  rest_ne_nil : rest ≠ []
  cr3_eq : cr3 = ⟨0, 0, 0⟩
  table_eq : ∀ info ∈ top :: rest, wordSz * 2 ^ info.bits = 2 ^ pgbits
  mask_eq : ∀ info ∈ top :: rest, info.mask = 2 ^ (info.shift + info.bits) - 2 ^ info.shift
  fields : Fields pgbits (top.shift + top.bits) ((top :: rest).map PtInfo.field)
  word_le : top.shift + top.bits ≤ 8 * wordSz
  uvm_user : uvm.kernel = false
  uvm_le : uvm.stop ≤ 2 ^ (top.shift + top.bits)
  loops_end : ∀ area ∈ others, (kernelAddrs wordSz top area).isSome
  apart : ∀ va, uvm.start ≤ va → va < uvm.stop →
    ∀ area ∈ others, ∀ cur ∈ (kernelAddrs wordSz top area).getD [],
      indexof va top ≠ indexof cur top

namespace Mmu

/-- `mmu.pgsize`. -/
def pgsize (c : Mmu) : Nat := 2 ^ c.pgbits

/-- The levels below `CR3`. -/
def levels (c : Mmu) : List PtInfo := c.top :: c.rest

/-- `mmu.pgtables`. -/
def pgtables (c : Mmu) : List PtInfo := c.cr3 :: c.levels

/-- `vm_areas`. -/
def vmAreas (c : Mmu) : List VmArea := c.uvm :: c.others

/-- Where `pt[index]` stands. -/
def at_ (c : Mmu) (pt index : Nat) : Nat := pt + c.wordSz * index

def baseof (c : Mmu) (addr : Nat) : Nat := addr &&& (2 ^ (8 * c.wordSz) - c.pgsize)

/-- `&as->area.start`. -/
def startOf (c : Mmu) (as : Nat) : Nat := as + c.wordSz

/-- `&as->area.end`. -/
def endOf (c : Mmu) (as : Nat) : Nat := as + 2 * c.wordSz

/-- `&as->ptr`. -/
def ptrOf (c : Mmu) (as : Nat) : Nat := as + 3 * c.wordSz

/-- `sizeof(AddrSpace)`. -/
def spaceSz (c : Mmu) : Nat := 4 * c.wordSz

end Mmu

-- ---------------------------------------------------------------------------
-- State and failures
-- ---------------------------------------------------------------------------

/-- Which `panic_on` has halted the machine. `hang` stands for a loop that has no end. -/
inductive Fault
  | cannotAllocate
  | invalidAddress
  | nonPageBoundary
  | notMapped
  | remapping
  | bug
  | hang
  deriving DecidableEq, Repr

abbrev Result := Except Fault

/-- `pgalloc` and `pgfree`, on memory and on a state of their own. -/
structure Pager (α : Type) where
  pgalloc : Mem → α → Option (Nat × Mem × α)
  pgfree : Nat → Mem → α → Mem × α

structure State (α : Type) where
  mem : Mem
  heap : α
  kpt : Nat

variable {α : Type} (pg : Pager α) (c : Mmu)

def State.entry (s : State α) (a : Nat) : Nat := load s.mem a c.wordSz

def State.setEntry (s : State α) (a v : Nat) : State α :=
  { s with mem := store s.mem a c.wordSz v }

-- ---------------------------------------------------------------------------
-- Page tables
-- ---------------------------------------------------------------------------

/-- The loop of `pgallocz`. -/
def clear (base : Nat) : Nat → Mem → Mem
  | 0, m => m
  | n + 1, m => store (clear base n m) (c.at_ base n) c.wordSz 0

def pgallocz (s : State α) : Result (Nat × State α) :=
  match pg.pgalloc s.mem s.heap with
  | none => .error .cannotAllocate
  | some (base, mem, heap) =>
    .ok (base, { s with mem := clear c base (c.pgsize / c.wordSz) mem, heap })

/-- The loop of `ptwalk`, from a table of the first of the levels on. -/
def ptwalkLoop (addr flags : Nat) : List PtInfo → Nat → State α → Result (Nat × State α)
  | [], _, _ => .error .bug
  | [info], cur, s => .ok (c.at_ cur (indexof addr info), s)
  | info :: infos, cur, s => do
    let slot := c.at_ cur (indexof addr info)
    if s.entry c slot &&& pteP = 0 then do
      let (nextPage, s) ← pgallocz pg c s
      ptwalkLoop addr flags infos nextPage (s.setEntry c slot (nextPage ||| pteP ||| flags))
    else ptwalkLoop addr flags infos (c.baseof (s.entry c slot)) s

/-- `ptwalk`: where the entry for `addr` stands. -/
def ptwalk (as addr flags : Nat) (s : State α) : Result (Nat × State α) :=
  ptwalkLoop pg c addr flags c.pgtables (c.ptrOf as) s

/-- `teardown`, from a table of the first of the levels on. -/
def teardown : List PtInfo → Nat → Nat → State α → State α
  | [], _, _, s => s
  | info :: infos, level, pt, s =>
    let s := (List.range (2 ^ info.bits)).foldl (fun s index =>
      let e := s.entry c (c.at_ pt index)
      if e &&& pteP ≠ 0 ∧ e &&& pteU ≠ 0 then teardown infos (level + 1) (c.baseof e) s
      else s) s
    if 1 ≤ level then
      let (mem, heap) := pg.pgfree pt s.mem s.heap
      { s with mem, heap }
    else s

-- ---------------------------------------------------------------------------
-- Address spaces
-- ---------------------------------------------------------------------------

/-- The loops of `protect`: the entries for the kernel are copied. -/
def copyKernel (upt : Nat) : List VmArea → State α → Result (State α)
  | [], s => .ok s
  | area :: areas, s =>
    match kernelAddrs c.wordSz c.top area with
    | none => .error .hang
    | some curs =>
      copyKernel upt areas (curs.foldl (fun s cur =>
        let index := indexof cur c.top
        s.setEntry c (c.at_ upt index) (s.entry c (c.at_ s.kpt index))) s)

def protect (as : Nat) (s : State α) : Result (State α) := do
  let (upt, s) ← pgallocz pg c s
  let s ← copyKernel c upt c.vmAreas s
  let s := { s with mem := store s.mem as 4 c.pgsize }
  let s := s.setEntry c (c.startOf as) c.uvm.start
  let s := s.setEntry c (c.endOf as) c.uvm.stop
  return s.setEntry c (c.ptrOf as) (upt ||| pteP ||| pteU)

def unprotect (as : Nat) (s : State α) : State α := teardown pg c c.pgtables 0 (c.ptrOf as) s

def map (as va pa prot : Nat) (s : State α) : Result (State α) :=
  if ¬ (c.uvm.start ≤ va ∧ va < c.uvm.stop) then .error .invalidAddress
  else if va ≠ c.baseof va ∨ pa ≠ c.baseof pa then .error .nonPageBoundary
  else do
    let (ptentry, s) ← ptwalk pg c as va (pteW ||| pteU) s
    let s ← if prot = mmapNone then
        if s.entry c ptentry &&& pteP = 0 then .error .notMapped
        else .ok (s.setEntry c ptentry 0)
      else
        if s.entry c ptentry &&& pteP ≠ 0 then .error .remapping
        else .ok (s.setEntry c ptentry
          (pa ||| pteP ||| pteU ||| if prot &&& mmapWrite ≠ 0 then pteW else 0))
    let (_, s) ← ptwalk pg c as va (pteW ||| pteU) s
    return s

-- ---------------------------------------------------------------------------
-- The two configurations
-- ---------------------------------------------------------------------------

theorem indexof_eq {info : PtInfo}
    (h : info.mask = 2 ^ (info.shift + info.bits) - 2 ^ info.shift) (addr : Nat) :
    indexof addr info = info.field.digit addr := by
  rw [indexof, h]
  exact and_mask_shiftRight info.field addr

/-- No entry of the first table is both the user's and the kernel's. -/
theorem apart_x86_64 (va : Nat) (hlo : 0x100000000000 ≤ va) (hhi : va < 0x108000000000) :
    ∀ area ∈ [(⟨0x000000000000, 0x008000000000, true⟩ : VmArea)],
      ∀ cur ∈ (kernelAddrs 8 ⟨0xff8000000000, 39, 9⟩ area).getD [],
        indexof va ⟨0xff8000000000, 39, 9⟩ ≠ indexof cur ⟨0xff8000000000, 39, 9⟩ := by
  have hkernel : ∀ area ∈ [(⟨0x000000000000, 0x008000000000, true⟩ : VmArea)],
      ∀ cur ∈ (kernelAddrs 8 ⟨0xff8000000000, 39, 9⟩ area).getD [],
        indexof cur ⟨0xff8000000000, 39, 9⟩ < 32 := by decide
  have huser : 32 ≤ indexof va ⟨0xff8000000000, 39, 9⟩ := by
    rw [indexof_eq (by decide)]
    simp only [PtInfo.field, Field.digit]
    omega
  exact fun area harea cur hcur => ((hkernel area harea cur hcur).trans_le huser).ne'

/-- The configuration for `__x86_64__`. -/
def x86_64 : Mmu where
  wordSz := 8
  pgbits := 12
  cr3 := ⟨0x000000000000, 0, 0⟩
  top := ⟨0xff8000000000, 39, 9⟩
  rest := [⟨0x007fc0000000, 30, 9⟩, ⟨0x00003fe00000, 21, 9⟩, ⟨0x0000001ff000, 12, 9⟩]
  uvm := ⟨0x100000000000, 0x108000000000, false⟩
  others := [⟨0x000000000000, 0x008000000000, true⟩]
  wordSz_pos := by decide
  flags_lt := Nat.le_of_ble_eq_true rfl
  rest_ne_nil := by decide
  cr3_eq := rfl
  table_eq := by decide
  mask_eq := by decide
  fields := by decide
  word_le := by decide
  uvm_user := rfl
  uvm_le := by decide
  loops_end := by decide
  apart := apart_x86_64

/-- No entry of the first table is both the user's and the kernel's. -/
theorem apart_i386 (va : Nat) (hlo : 0x40000000 ≤ va) (hhi : va < 0x80000000) :
    ∀ area ∈ [(⟨0x00000000, 0x40000000, true⟩ : VmArea), ⟨0xfd000000, 0x00000000, true⟩],
      ∀ cur ∈ (kernelAddrs 4 ⟨0xffc00000, 22, 10⟩ area).getD [],
        indexof va ⟨0xffc00000, 22, 10⟩ ≠ indexof cur ⟨0xffc00000, 22, 10⟩ := by
  have hkernel : ∀ area ∈ [(⟨0x00000000, 0x40000000, true⟩ : VmArea),
      ⟨0xfd000000, 0x00000000, true⟩], ∀ cur ∈ (kernelAddrs 4 ⟨0xffc00000, 22, 10⟩ area).getD [],
        indexof cur ⟨0xffc00000, 22, 10⟩ < 256 ∨ 512 ≤ indexof cur ⟨0xffc00000, 22, 10⟩ := by
    decide +kernel
  have huser : 256 ≤ indexof va ⟨0xffc00000, 22, 10⟩ ∧
      indexof va ⟨0xffc00000, 22, 10⟩ < 512 := by
    rw [indexof_eq (by decide)]
    simp only [PtInfo.field, Field.digit]
    omega
  intro area harea cur hcur heq
  have hout := hkernel area harea cur hcur
  omega

/-- The configuration for 32 bits. -/
def i386 : Mmu where
  wordSz := 4
  pgbits := 12
  cr3 := ⟨0x00000000, 0, 0⟩
  top := ⟨0xffc00000, 22, 10⟩
  rest := [⟨0x003ff000, 12, 10⟩]
  uvm := ⟨0x40000000, 0x80000000, false⟩
  others := [⟨0x00000000, 0x40000000, true⟩, ⟨0xfd000000, 0x00000000, true⟩]
  wordSz_pos := by decide
  flags_lt := Nat.le_of_ble_eq_true rfl
  rest_ne_nil := by decide
  cr3_eq := rfl
  table_eq := by decide
  mask_eq := by decide
  fields := by decide
  word_le := by decide
  uvm_user := rfl
  uvm_le := by decide
  loops_end := by decide +kernel
  apart := apart_i386

end MyOs.Vme
