import MyOs.Lib.Extent
import MyOs.Lib.Memory
import MyOs.Lib.Word

/-!
# boot — loading the kernel

The model of `boot/main.c`: from the disk to memory, sector by sector. Addresses have 32 bits. A
program header is read from memory when its turn comes, so a segment may have overwritten it. A
loop that has no end has no result.

The loader itself is not part of the memory it loads to: its code at `0x7c00`, its stack and the
boot record at `0x7000` are memory like any other here, and nothing keeps a segment clear of them.
On the machine a segment that is loaded there overwrites the running loader.

* `copyFromDisk_eq` — what is copied are whole sectors.
* `loadElf_eq` — the segments are loaded one after the other.
* `loadKernel_spec` — **every segment is where it should be**, its file part and its zeroes, and
  nothing else has changed.
-/

namespace MyOs.Boot

open MyOs.Memory MyOs.Extent MyOs.Word

-- ---------------------------------------------------------------------------
-- Sectors
-- ---------------------------------------------------------------------------

/-- `SECTSIZE`. -/
def sectSize : Nat := 512

/-- `ARGSIZE`. -/
def argSize : Nat := 1024

/-- `BOOTREC_ADDR`. -/
def bootrecAddr : Nat := 0x07000

/-- `MAINARG_ADDR`. -/
def mainargAddr : Nat := 0x10000

/-- `elf32` and `elf64`. -/
def elfAddr : Nat := 0x8000

/-- `EM_X86_64`. -/
def emX86_64 : Nat := 62

/-- The number of the sector that the controller finds in its registers. -/
def lba (sect : Nat) : Nat :=
  sect % 256 + (sect >>> 8 % 256) * 2 ^ 8 + (sect >>> 16 % 256) * 2 ^ 16
    + ((sect >>> 24 ||| 0xE0) % 16) * 2 ^ 24

/-- `read_disk`. -/
def readDisk (disk : Mem) (buf sect : Nat) (m : Mem) : Mem :=
  copy m buf disk (sectSize * lba sect) sectSize

/-- The loop of `copy_from_disk`. -/
def copyLoop (disk : Mem) (ed : Nat) : Nat → Nat → Nat → Mem → Option Mem
  | 0, _, _, _ => none
  | fuel + 1, cur, sect, m =>
    if cur < ed then
      copyLoop disk ed fuel ((cur + sectSize) % 2 ^ 32) ((sect + 1) % 2 ^ 32)
        (readDisk disk cur sect m)
    else some m

/-- As many rounds as there are sectors in memory: after these the loop goes round. -/
def copyFuel : Nat := 2 ^ 23 + 1

/-- `copy_from_disk`. -/
def copyFromDisk (disk : Mem) (buf nbytes : Nat) (offset : Int) (m : Mem) : Option Mem :=
  copyLoop disk ((buf + nbytes) % 2 ^ 32) copyFuel (buf / sectSize * sectSize)
    (toU32 (offset.tdiv sectSize + (argSize / sectSize : Nat) + 1)) m

-- ---------------------------------------------------------------------------
-- Segments
-- ---------------------------------------------------------------------------

/-- The arguments of `load_program`. -/
structure Segment where
  filesz : Nat
  memsz : Nat
  paddr : Nat
  offset : Nat
  deriving DecidableEq

/-- The loop of `load_program`. -/
def clearBss : Nat → Nat → Mem → Mem
  | 0, _, m => m
  | n + 1, bss, m => clearBss n ((bss + 1) % 2 ^ 32) (Function.update m bss 0)

/-- `load_program`. -/
def loadProgram (disk : Mem) (g : Segment) (m : Mem) : Option Mem :=
  (copyFromDisk disk g.paddr g.filesz (toI32 g.offset) m).map
    (clearBss ((2 ^ 32 + g.memsz - g.filesz) % 2 ^ 32) ((g.paddr + g.filesz) % 2 ^ 32))

/-- Where `Elf32_Ehdr` and `Elf32_Phdr`, or `Elf64_Ehdr` and `Elf64_Phdr`, have their fields. -/
structure ElfLayout where
  word : Nat
  entry : Nat
  phoff : Nat
  phnum : Nat
  phSize : Nat
  offset : Nat
  paddr : Nat
  filesz : Nat
  memsz : Nat

def elf32 : ElfLayout where
  word := 4
  entry := 24
  phoff := 28
  phnum := 44
  phSize := 32
  offset := 4
  paddr := 12
  filesz := 16
  memsz := 20

def elf64 : ElfLayout where
  word := 8
  entry := 24
  phoff := 32
  phnum := 56
  phSize := 56
  offset := 8
  paddr := 24
  filesz := 32
  memsz := 40

/-- `e_machine`, of the header at `elf`. -/
def machineOf (m : Mem) (elf : Nat) : Nat := load m (elf + 18) 2

namespace ElfLayout

variable (E : ElfLayout)

/-- A field as a `uint32_t`. -/
def field (m : Mem) (base pos : Nat) : Nat := load m (base + pos) E.word % 2 ^ 32

/-- The program header at `ph`. -/
def segmentAt (m : Mem) (ph : Nat) : Segment where
  filesz := E.field m ph E.filesz
  memsz := E.field m ph E.memsz
  paddr := E.field m ph E.paddr
  offset := E.field m ph E.offset

/-- The loop of `load_elf64` and `load_elf32`. The index has no more values than `e_phnum`. -/
def loadLoop (disk : Mem) : Nat → Nat → Nat → Mem → Option Mem
  | 0, _, _, m => some m
  | fuel + 1, i, ph, m =>
    if i < load m (elfAddr + E.phnum) 2 then do
      let m ← loadProgram disk (E.segmentAt m ph) m
      loadLoop disk fuel (i + 1) ((ph + E.phSize) % 2 ^ 32) m
    else some m

/-- `load_elf64` and `load_elf32`. -/
def loadElf (disk m : Mem) : Option Mem :=
  E.loadLoop disk (2 ^ 16) 0 ((elfAddr + E.field m elfAddr E.phoff) % 2 ^ 32) m

end ElfLayout

def loadElf64 (disk m : Mem) : Option Mem := elf64.loadElf disk m

def loadElf32 (disk m : Mem) : Option Mem := elf32.loadElf disk m

/-- What `load_kernel` loads on the boot processor. -/
def loadImage (disk m : Mem) : Option Mem := do
  let m ← copyFromDisk disk mainargAddr 1024 (-1024) m
  let m ← copyFromDisk disk elfAddr 4096 0 m
  if machineOf m elfAddr = emX86_64 then loadElf64 disk m else loadElf32 disk m

/-- The address that `load_kernel` jumps to. -/
def jumpAddr (m : Mem) : Nat :=
  if machineOf m elfAddr = emX86_64 then elf64.field m elfAddr elf64.entry
  else elf32.field m elfAddr elf32.entry

/-- `load_kernel`: memory, and the address it jumps to. -/
def loadKernel (disk m : Mem) : Option (Mem × Nat) :=
  (if load m (bootrecAddr + 4) 4 = 0 then loadImage disk m else some m).map fun m => (m, jumpAddr m)

-- ---------------------------------------------------------------------------
-- Copying
-- ---------------------------------------------------------------------------

variable {disk m m' : Mem} {sect ed buf nbytes off n x : Nat}

/-- The registers hold the number of the sector. -/
theorem lba_eq (h : sect < 2 ^ 28) : lba sect = sect := by
  have hor : (sect >>> 24 ||| 0xE0) % 16 = sect >>> 24 := by
    have hlt : sect >>> 24 < 16 := by
      rw [Nat.shiftRight_eq_div_pow]
      omega
    generalize sect >>> 24 = y at hlt
    decide +revert
  rw [lba, hor, Nat.shiftRight_eq_div_pow, Nat.shiftRight_eq_div_pow, Nat.shiftRight_eq_div_pow]
  omega

/-- The loop copies the sectors up to the one that holds the last byte. -/
theorem copyLoop_eq {fuel c : Nat} (hend : 512 * (c + n) < 2 ^ 32) (hsect : sect + n ≤ 2 ^ 28)
    (hlo : n ≠ 0 → 512 * (c + n) < ed + 512) (hhi : ed ≤ 512 * (c + n)) (hfuel : n < fuel) :
    copyLoop disk ed fuel (512 * c) sect m
      = some (copy m (512 * c) disk (512 * sect) (512 * n)) := by
  induction n generalizing fuel c sect m with
  | zero =>
    obtain ⟨fuel, rfl⟩ := Nat.exists_eq_add_of_lt hfuel
    rw [copyLoop, if_neg (by omega), Nat.mul_zero, copy_zero]
  | succ n ih =>
    obtain ⟨fuel, rfl⟩ := Nat.exists_eq_add_of_lt hfuel
    have hcur : (512 * c + sectSize) % 2 ^ 32 = 512 * (c + 1) := by
      unfold sectSize
      omega
    have hnext : (sect + 1) % 2 ^ 32 = sect + 1 := Nat.mod_eq_of_lt (by omega)
    have hlt : 512 * c < ed := by
      have hlo' := hlo (Nat.succ_ne_zero n)
      omega
    rw [copyLoop, if_pos hlt, hcur, hnext, readDisk, lba_eq (by omega),
      ih (by omega) (by omega) (fun _ => by have hlo' := hlo (Nat.succ_ne_zero n); omega) (by omega)
        (by omega)]
    rw [show 512 * (c + 1) = 512 * c + sectSize from rfl,
      show 512 * (sect + 1) = sectSize * sect + sectSize from rfl,
      show 512 * sect = sectSize * sect from rfl,
      copy_append, show 512 * (n + 1) = sectSize + 512 * n by unfold sectSize; omega]

/-- **What is copied** are the sectors with the bytes in question. -/
theorem copyFromDisk_eq {offset : Int} {k : Nat} (hbuf : buf + nbytes + 512 ≤ 2 ^ 32)
    (hk : offset.tdiv 512 + 3 = k) (hsect : k + 2 ^ 23 ≤ 2 ^ 28) :
    copyFromDisk disk buf nbytes offset m
      = some (copy m (buf / 512 * 512) disk (512 * k)
          ((buf + nbytes + 511) / 512 * 512 - buf / 512 * 512)) := by
  have hed : (buf + nbytes) % 2 ^ 32 = buf + nbytes := Nat.mod_eq_of_lt (by omega)
  have hsect' : toU32 (offset.tdiv sectSize + (argSize / sectSize : Nat) + 1) = k := by
    apply toU32_eq _ (by omega)
    rw [← hk]
    show offset.tdiv 512 + ((2 : Nat) : Int) + 1 = offset.tdiv 512 + 3
    omega
  rw [copyFromDisk, hed, hsect', show buf / sectSize * sectSize = 512 * (buf / 512) by
    rw [Nat.mul_comm]; rfl,
    copyLoop_eq (n := (buf + nbytes + 511) / 512 - buf / 512) (by omega) (by omega)
      (fun hne => by omega) (by omega) (by unfold copyFuel; omega)]
  congr 2
  · omega
  · omega

-- ---------------------------------------------------------------------------
-- One segment
-- ---------------------------------------------------------------------------

/-- The file behind the boot sector and the arguments. -/
def fileOf (disk : Mem) : Mem := fun j => disk (1536 + j)

/-- From where on the memory changes when a segment is loaded, and up to where. -/
def Segment.lo (g : Segment) : Nat := g.paddr / 512 * 512

def Segment.hi (g : Segment) : Nat :=
  max ((g.paddr + g.filesz + 511) / 512 * 512) (g.paddr + g.memsz)

/-- A segment that lies in memory, at the same place in its sector as in the file. It keeps clear of
the headers. -/
structure Segment.Fits (g : Segment) : Prop where
  filesz_le : g.filesz ≤ g.memsz
  le : g.paddr + g.memsz + 512 ≤ 2 ^ 32
  offset_lt : g.offset < 2 ^ 31
  congr : g.paddr % 512 = g.offset % 512
  clear : g.hi ≤ elfAddr ∨ elfAddr + 4096 ≤ g.lo

/-- The memory holds the segment. -/
def Segment.Loaded (g : Segment) (file m : Mem) : Prop :=
  ∀ k < g.memsz, m (g.paddr + k) = if k < g.filesz then file (g.offset + k) else 0

variable {g : Segment}

theorem clearBss_eq {bss : Nat} (h : bss + n < 2 ^ 32) (x : Nat) :
    clearBss n bss m x = if bss ≤ x ∧ x < bss + n then 0 else m x := by
  induction n generalizing bss m with
  | zero => rw [clearBss, if_neg (by omega)]
  | succ n ih =>
    rw [clearBss, Nat.mod_eq_of_lt (by omega), ih (by omega)]
    by_cases hx : x = bss
    · subst hx
      rw [if_neg (by omega), if_pos (by omega), Function.update_self]
    · rw [Function.update_of_ne hx]
      by_cases hin : bss + 1 ≤ x ∧ x < bss + 1 + n
      · rw [if_pos hin, if_pos (by omega)]
      · rw [if_neg hin, if_neg (by omega)]

/-- **`load_program`** loads its segment, and changes nothing beyond its sectors and its zeroes. -/
theorem Segment.Fits.load (h : g.Fits) (disk m : Mem) :
    ∃ m', loadProgram disk g m = some m' ∧ g.Loaded (fileOf disk) m' ∧
      ∀ x, x < g.lo ∨ g.hi ≤ x → m' x = m x := by
  obtain ⟨hfilesz, hle, hoffset, hcongr, -⟩ := h
  have hoff : toI32 g.offset = g.offset := toI32_eq rfl hoffset
  have htdiv : (g.offset : Int).tdiv 512 + 3 = (g.offset / 512 + 3 : Nat) := by
    rw [Int.tdiv_eq_ediv_of_nonneg (Int.natCast_nonneg _)]
    omega
  have hbss : (2 ^ 32 + g.memsz - g.filesz) % 2 ^ 32 = g.memsz - g.filesz := by omega
  have hstart : (g.paddr + g.filesz) % 2 ^ 32 = g.paddr + g.filesz := Nat.mod_eq_of_lt (by omega)
  rw [loadProgram, hoff, copyFromDisk_eq (by omega) htdiv (by omega), hbss, hstart]
  refine ⟨_, rfl, fun k hk => ?_, fun x hx => ?_⟩
  · rw [clearBss_eq (by omega)]
    by_cases hfile : k < g.filesz
    · rw [if_neg (by omega), if_pos hfile, copy_inside (by omega) (by omega)]
      exact congrArg disk (by omega)
    · rw [if_pos (by omega), if_neg hfile]
  · unfold Segment.lo Segment.hi at hx
    rw [clearBss_eq (by omega), if_neg (by omega), copy_outside (by omega)]

-- ---------------------------------------------------------------------------
-- The program headers
-- ---------------------------------------------------------------------------

namespace ElfLayout

variable (E : ElfLayout)

def phnumOf (file : Mem) : Nat := Memory.load file E.phnum 2

/-- The segments of a file. -/
def segment (file : Mem) (i : Nat) : Segment :=
  E.segmentAt file (E.field file 0 E.phoff + i * E.phSize)

/-- A file that can be loaded: the headers are in its first 4096 bytes, and no segment is loaded
over one before it. -/
structure Loadable (file : Mem) : Prop where
  headers : E.field file 0 E.phoff + E.phnumOf file * E.phSize ≤ 4096
  fits : ∀ i < E.phnumOf file, (E.segment file i).Fits
  apart : ∀ i j, i < j → j < E.phnumOf file → (E.segment file j).hi ≤ (E.segment file i).paddr ∨
    (E.segment file i).paddr + (E.segment file i).memsz ≤ (E.segment file j).lo

/-- The fields lie within the headers. -/
structure Layout : Prop where
  phoff : E.phoff + E.word ≤ 4096
  phnum : E.phnum + 2 ≤ 4096
  entry : E.entry + E.word ≤ 4096
  offset : E.offset + E.word ≤ E.phSize
  paddr : E.paddr + E.word ≤ E.phSize
  filesz : E.filesz + E.word ≤ E.phSize
  memsz : E.memsz + E.word ≤ E.phSize

theorem layout_elf32 : elf32.Layout := by
  constructor <;> decide

theorem layout_elf64 : elf64.Layout := by
  constructor <;> decide

/-- The headers of the file are in memory. -/
def Header (file m : Mem) : Prop := ∀ x < 4096, m (elfAddr + x) = file x

variable {E} {file : Mem}

theorem load_header (h : Header file m) {a k : Nat} (hle : a + k ≤ 4096) :
    Memory.load m (elfAddr + a) k = Memory.load file a k := by
  refine load_eq_load fun i hi => ?_
  have hbyte := h (a + i) (by omega)
  rwa [← Nat.add_assoc] at hbyte

theorem field_header (h : Header file m) (base : Nat) {pos : Nat}
    (hle : base + pos + E.word ≤ 4096) :
    E.field m (elfAddr + base) pos = E.field file base pos := by
  rw [field, field, Nat.add_assoc, load_header h hle]

/-- The program header that is read is that of the file. -/
theorem segmentAt_header (hE : E.Layout) (h : Header file m) {base : Nat}
    (hle : base + E.phSize ≤ 4096) : E.segmentAt m (elfAddr + base) = E.segmentAt file base := by
  obtain ⟨-, -, -, hoffset, hpaddr, hfilesz, hmemsz⟩ := hE
  rw [segmentAt, segmentAt, field_header h _ (by omega), field_header h _ (by omega),
    field_header h _ (by omega), field_header h _ (by omega)]

/-- **The loop**: the segments from `i` on are loaded, and those before them stay. -/
theorem loadLoop_spec (hE : E.Layout) (hload : E.Loadable (fileOf disk)) {fuel i r : Nat}
    (hcount : i + r = E.phnumOf (fileOf disk)) (hfuel : r ≤ fuel)
    (hheader : Header (fileOf disk) m)
    (hloaded : ∀ j < i, (E.segment (fileOf disk) j).Loaded (fileOf disk) m) :
    ∃ m', E.loadLoop disk fuel i (elfAddr + (E.field (fileOf disk) 0 E.phoff + i * E.phSize)) m
        = some m' ∧ Header (fileOf disk) m' ∧
      (∀ j < E.phnumOf (fileOf disk), (E.segment (fileOf disk) j).Loaded (fileOf disk) m') ∧
      ∀ x, (∀ j < E.phnumOf (fileOf disk),
        x < (E.segment (fileOf disk) j).lo ∨ (E.segment (fileOf disk) j).hi ≤ x) → m' x = m x := by
  have hphnum : ∀ m, Header (fileOf disk) m →
      Memory.load m (elfAddr + E.phnum) 2 = E.phnumOf (fileOf disk) :=
    fun m hm => load_header hm hE.phnum
  induction r generalizing fuel i m with
  | zero =>
    refine ⟨m, ?_, hheader, fun j hj => hloaded j (by omega), fun x _ => rfl⟩
    cases fuel with
    | zero => rfl
    | succ fuel => rw [loadLoop, hphnum m hheader, if_neg (by omega)]
  | succ r ih =>
    obtain ⟨fuel, rfl⟩ := Nat.exists_eq_add_of_lt hfuel
    have hi : i < E.phnumOf (fileOf disk) := by omega
    have hheaders := hload.headers
    have hmul : (i + 1) * E.phSize ≤ E.phnumOf (fileOf disk) * E.phSize := Nat.mul_le_mul_right _ hi
    rw [Nat.add_one_mul] at hmul
    have hfits := hload.fits i hi
    obtain ⟨m₁, hm₁, hthis, hframe⟩ := hfits.load disk m
    have hheader₁ : Header (fileOf disk) m₁ := by
      intro x hx
      have hclear := hfits.clear
      rw [hframe _ (by omega)]
      exact hheader x hx
    have hloaded₁ : ∀ j < i + 1, (E.segment (fileOf disk) j).Loaded (fileOf disk) m₁ := by
      intro j hj
      rcases Nat.lt_succ_iff_lt_or_eq.1 hj with hlt | rfl
      · intro k hk
        have hapart := hload.apart j i hlt hi
        rw [hframe _ (by omega)]
        exact hloaded j hlt k hk
      · exact hthis
    obtain ⟨m', hm', hheader', hall, hrest⟩ := @ih m₁ (r + fuel) (i + 1) (by omega) (by omega)
      hheader₁ hloaded₁
    refine ⟨m', ?_, hheader', hall, fun x hx => (hrest x hx).trans (hframe x (hx i hi))⟩
    have hnext : (elfAddr + (E.field (fileOf disk) 0 E.phoff + i * E.phSize) + E.phSize) % 2 ^ 32
        = elfAddr + (E.field (fileOf disk) 0 E.phoff + (i + 1) * E.phSize) := by
      rw [Nat.add_one_mul]
      unfold elfAddr
      omega
    rw [loadLoop, hphnum m hheader, if_pos hi, segmentAt_header hE hheader (by omega),
      show E.segmentAt (fileOf disk) _ = E.segment (fileOf disk) i from rfl, hm₁, hnext]
    exact hm'

end ElfLayout

-- ---------------------------------------------------------------------------
-- load_kernel
-- ---------------------------------------------------------------------------

/-- The layout that the file's machine asks for. -/
def layoutOf (file : Mem) : ElfLayout := if machineOf file 0 = emX86_64 then elf64 else elf32

/-- The address that the file asks to be entered at. -/
def entryOf (file : Mem) : Nat := (layoutOf file).field file 0 (layoutOf file).entry

theorem layout_layoutOf (file : Mem) : (layoutOf file).Layout := by
  unfold layoutOf
  split
  · exact ElfLayout.layout_elf64
  · exact ElfLayout.layout_elf32

theorem machineOf_header {file : Mem} (h : ElfLayout.Header file m) :
    machineOf m elfAddr = machineOf file 0 := by
  rw [machineOf, ElfLayout.load_header h (by decide), machineOf, Nat.zero_add]

/-- The end of `load_kernel`, with the headers in memory. -/
theorem jumpAddr_header {file : Mem} (h : ElfLayout.Header file m) : jumpAddr m = entryOf file := by
  rw [jumpAddr, machineOf_header h, entryOf, layoutOf]
  split
  · exact ElfLayout.field_header h 0 ElfLayout.layout_elf64.entry
  · exact ElfLayout.field_header h 0 ElfLayout.layout_elf32.entry

/-- **The kernel is loaded.** The boot processor finds every segment of the file in its place, with
its zeroes, and the argument string; the rest of memory is as it was. The other processors, which
find the headers in memory, enter the kernel at the same address. -/
theorem loadKernel_spec (disk m : Mem) (hboot : load m (bootrecAddr + 4) 4 = 0)
    (hload : (layoutOf (fileOf disk)).Loadable (fileOf disk)) :
    ∃ m', loadKernel disk m = some (m', entryOf (fileOf disk)) ∧
      (∀ i < (layoutOf (fileOf disk)).phnumOf (fileOf disk),
        ((layoutOf (fileOf disk)).segment (fileOf disk) i).Loaded (fileOf disk) m') ∧
      (∀ x, (∀ i < (layoutOf (fileOf disk)).phnumOf (fileOf disk),
          x < ((layoutOf (fileOf disk)).segment (fileOf disk) i).lo ∨
          ((layoutOf (fileOf disk)).segment (fileOf disk) i).hi ≤ x) →
        m' x = if elfAddr ≤ x ∧ x < elfAddr + 4096 then fileOf disk (x - elfAddr)
          else if mainargAddr ≤ x ∧ x < mainargAddr + argSize then disk (512 + (x - mainargAddr))
          else m x) ∧
      ∀ m₂, ElfLayout.Header (fileOf disk) m₂ → load m₂ (bootrecAddr + 4) 4 ≠ 0 →
        loadKernel disk m₂ = some (m₂, entryOf (fileOf disk)) := by
  have hargs : copyFromDisk disk mainargAddr 1024 (-1024) m
      = some (copy m mainargAddr disk 512 argSize) :=
    copyFromDisk_eq (k := 1) (by decide) (by decide) (by decide)
  have helf : copyFromDisk disk elfAddr 4096 0 (copy m mainargAddr disk 512 argSize)
      = some (copy (copy m mainargAddr disk 512 argSize) elfAddr disk 1536 4096) :=
    copyFromDisk_eq (k := 3) (by decide) (by decide) (by decide)
  generalize hm₁ : copy (copy m mainargAddr disk 512 argSize) elfAddr disk 1536 4096 = m₁ at helf
  have hheader : ElfLayout.Header (fileOf disk) m₁ := by
    intro x hx
    rw [← hm₁, copy_inside (by omega) (by omega), Nat.add_sub_cancel_left]
    rfl
  have hE := layout_layoutOf (fileOf disk)
  have hcount : (layoutOf (fileOf disk)).phnumOf (fileOf disk) ≤ 2 ^ 16 := by
    have hlt := load_lt (fileOf disk) 2 (layoutOf (fileOf disk)).phnum
    unfold ElfLayout.phnumOf
    omega
  obtain ⟨m', hm', hheader', hall, hframe⟩ := ElfLayout.loadLoop_spec hE hload (Nat.zero_add _)
    hcount hheader (fun j hj => absurd hj (Nat.not_lt_zero j))
  have hphoff : ∀ E : ElfLayout, E.Layout → E.field (fileOf disk) 0 E.phoff ≤ 4096 →
      (elfAddr + E.field m₁ elfAddr E.phoff) % 2 ^ 32
        = elfAddr + E.field (fileOf disk) 0 E.phoff := by
    intro E hE hle
    have hfield : E.field m₁ elfAddr E.phoff = E.field (fileOf disk) 0 E.phoff :=
      ElfLayout.field_header hheader 0 (by have hphoff := hE.phoff; omega)
    rw [hfield]
    unfold elfAddr
    omega
  have hle : (layoutOf (fileOf disk)).field (fileOf disk) 0 (layoutOf (fileOf disk)).phoff ≤ 4096 :=
    (Nat.le_add_right _ _).trans hload.headers
  have hrun : (if machineOf m₁ elfAddr = emX86_64 then loadElf64 disk m₁ else loadElf32 disk m₁)
      = some m' := by
    rw [Nat.zero_mul, Nat.add_zero, ← hphoff _ hE hle] at hm'
    rw [machineOf_header hheader, ← hm']
    unfold layoutOf loadElf64 loadElf32 ElfLayout.loadElf
    split
    · rfl
    · rfl
  refine ⟨m', ?_, hall, fun x hx => ?_, fun m₂ hm₂ hap => ?_⟩
  · rw [loadKernel, if_pos hboot, loadImage, hargs, Option.bind_eq_bind, Option.bind_some, helf,
      Option.bind_some, hrun, Option.map_some, jumpAddr_header hheader']
  · rw [hframe x hx, ← hm₁]
    by_cases hin : elfAddr ≤ x ∧ x < elfAddr + 4096
    · rw [if_pos hin, copy_inside hin.1 hin.2]
      rfl
    · rw [if_neg hin, copy_outside (by omega)]
      rfl
  · rw [loadKernel, if_neg hap, Option.map_some, jumpAddr_header hm₂]

/-- A file with two segments, the second one with zeroes behind it. -/
def sampleDisk : Mem := fun x =>
  [(18, 2, 62), (24, 8, 0x1000b0), (32, 8, 64), (56, 2, 2), (72, 8, 0xb0), (88, 8, 0x1000b0),
    (96, 8, 0x300), (104, 8, 0x300), (128, 8, 0x600), (144, 8, 0x100600), (152, 8, 0x10),
    (160, 8, 0x2000)].foldl (fun m (field : Nat × Nat × Nat) => store m field.1 field.2.1 field.2.2)
    (fun _ => 0x90) (x - 1536)

theorem loadable_sampleDisk : (layoutOf (fileOf sampleDisk)).Loadable (fileOf sampleDisk) := by
  have hlayout : layoutOf (fileOf sampleDisk) = elf64 := if_pos (by decide)
  have hphnum : elf64.phnumOf (fileOf sampleDisk) = 2 := by decide
  rw [hlayout]
  refine ⟨by decide, fun i hi => ?_, fun i j hij hj => ?_⟩
  · obtain rfl | rfl : i = 0 ∨ i = 1 := by omega
    · constructor <;> decide
    · constructor <;> decide
  · obtain ⟨rfl, rfl⟩ : i = 0 ∧ j = 1 := by omega
    exact .inr (by decide)

theorem loadKernel_spec_sample : ∃ m', loadKernel sampleDisk (fun _ => 0) = some (m', 0x1000b0) ∧
    m' 0x10060f = 0x90 ∧ m' 0x100610 = 0 := by
  obtain ⟨m', hrun, hall, -, -⟩ := loadKernel_spec sampleDisk (fun _ => 0) (by decide)
    loadable_sampleDisk
  have hsecond := hall 1 (by decide)
  have hsegment : (layoutOf (fileOf sampleDisk)).segment (fileOf sampleDisk) 1
      = ⟨0x10, 0x2000, 0x100600, 0x600⟩ := by decide
  have hentry : entryOf (fileOf sampleDisk) = 0x1000b0 := by decide
  rw [hsegment] at hsecond
  rw [hentry] at hrun
  have hlast := hsecond 0xf (by decide)
  have hzero := hsecond 0x10 (by decide)
  rw [if_pos (by decide)] at hlast
  rw [if_neg (by decide)] at hzero
  exact ⟨m', hrun, hlast.trans (by decide), hzero⟩

end MyOs.Boot
