import Mathlib.Logic.Function.Basic
import MyOs.Vme.Definitions

/-!
# vme — where the page tables are

What the client promises of its pages, and the state of memory that the operations keep:
every table of every address space is a page of its own, and each of its entries is what the
address space says.

* `Pager.Laws` — what `pgalloc` and `pgfree` are relied on for.
* `Scene` — the memory before the first address space: the structs, and the kernel's table.
* `Placed`, `Rep` — **the invariant**: where the tables are, and what they hold.
-/

namespace MyOs.Vme

open MyOs.Memory MyOs.Radix

variable {α : Type}

-- ---------------------------------------------------------------------------
-- Pages
-- ---------------------------------------------------------------------------

/-- The bytes of a page. -/
def Mmu.inPage (c : Mmu) (p x : Nat) : Prop := p ≤ x ∧ x < p + c.pgsize

/-- A page of a physical memory whose addresses have `phys` bits. -/
structure Mmu.IsPage (c : Mmu) (phys p : Nat) : Prop where
  aligned : c.pgsize ∣ p
  le : p + c.pgsize ≤ 2 ^ phys

/-- What the client promises of its `pgalloc` and `pgfree`: a page that has been handed out is
let alone until it is given back. -/
structure Pager.Laws (pg : Pager α) (c : Mmu) where
  /-- The bits of a physical address. -/
  phys : Nat
  /-- The client's own data are in order. -/
  ok : Mem → α → Prop
  /-- The pages that have been handed out. -/
  live : α → Nat → Prop
  /-- The bytes that the client may use. -/
  owns : α → Nat → Prop
  phys_le : phys ≤ 8 * c.wordSz
  ok_congr : ∀ {m m' h}, ok m h → (∀ x, owns h x → m' x = m x) → ok m' h
  alloc : ∀ {m h p m' h'}, ok m h → pg.pgalloc m h = some (p, m', h') →
    ok m' h' ∧ c.IsPage phys p ∧ ¬ live h p ∧ (∀ q, live h' q ↔ live h q ∨ q = p) ∧
      (∀ x, c.inPage p x → owns h x) ∧ (∀ x, owns h' x → owns h x ∧ ¬ c.inPage p x) ∧
      ∀ x, ¬ owns h x → m' x = m x
  free : ∀ {m h p m' h'}, ok m h → live h p → pg.pgfree p m h = (m', h') →
    ok m' h' ∧ (∀ q, live h' q ↔ live h q ∧ q ≠ p) ∧
      (∀ x, owns h' x → owns h x ∨ c.inPage p x) ∧
      ∀ x, ¬ owns h x → ¬ c.inPage p x → m' x = m x

namespace Mmu

variable {c : Mmu}

theorem pgsize_pos (c : Mmu) : 0 < c.pgsize := Nat.two_pow_pos _

/-- The index of an entry of a table. -/
def Fits (c : Mmu) (i : Nat) : Prop := c.wordSz * (i + 1) ≤ c.pgsize

theorem fits_of_mem {info : PtInfo} (hinfo : info ∈ c.levels) {i : Nat} (hi : i < 2 ^ info.bits) :
    c.Fits i := by
  have htable := c.table_eq info hinfo
  exact (Nat.mul_le_mul_left _ hi).trans htable.le

/-- An entry lies in its page. -/
theorem Fits.inPage {i p x : Nat} (h : c.Fits i) (hlo : c.at_ p i ≤ x)
    (hhi : x < c.at_ p i + c.wordSz) : c.inPage p x := by
  have hsum : c.wordSz * (i + 1) = c.wordSz * i + c.wordSz := Nat.mul_succ _ _
  unfold Fits at h
  unfold at_ at hlo hhi
  exact ⟨by omega, by omega⟩

/-- Two pages have no byte in common. -/
theorem inPage_apart {phys phys' p q x : Nat} (hp : c.IsPage phys p) (hq : c.IsPage phys' q)
    (hpx : c.inPage p x) (hqx : c.inPage q x) : p = q := by
  obtain ⟨a, rfl⟩ := hp.aligned
  obtain ⟨b, rfl⟩ := hq.aligned
  have hdiv : ∀ n, c.inPage (c.pgsize * n) x → x / c.pgsize = n := fun n hx =>
    Nat.div_eq_of_lt_le (by rw [Nat.mul_comm]; exact hx.1)
      (by rw [Nat.mul_comm, Nat.mul_succ]; exact hx.2)
  rw [← hdiv a hpx, ← hdiv b hqx]

/-- Two entries of one table, or of two. -/
theorem at_apart {phys phys' p q i j : Nat} (hp : c.IsPage phys p) (hq : c.IsPage phys' q)
    (hi : c.Fits i) (hj : c.Fits j) (hne : p ≠ q ∨ i ≠ j) :
    c.at_ p i + c.wordSz ≤ c.at_ q j ∨ c.at_ q j + c.wordSz ≤ c.at_ p i := by
  have hword := c.wordSz_pos
  by_contra hcon
  -- a byte that both entries have
  obtain ⟨x, hpx, hpx', hqx, hqx'⟩ : ∃ x, c.at_ p i ≤ x ∧ x < c.at_ p i + c.wordSz ∧
      c.at_ q j ≤ x ∧ x < c.at_ q j + c.wordSz :=
    ⟨max (c.at_ p i) (c.at_ q j), by omega, by omega, by omega, by omega⟩
  obtain rfl := inPage_apart hp hq (hi.inPage hpx hpx') (hj.inPage hqx hqx')
  rcases hne with hne | hne
  · exact hne rfl
  rcases Nat.lt_or_gt_of_ne hne with hlt | hlt
  · have hmul := Nat.mul_le_mul_left c.wordSz (Nat.succ_le_of_lt hlt)
    rw [Nat.succ_eq_add_one, Nat.mul_succ] at hmul
    unfold at_ at hcon
    omega
  · have hmul := Nat.mul_le_mul_left c.wordSz (Nat.succ_le_of_lt hlt)
    rw [Nat.succ_eq_add_one, Nat.mul_succ] at hmul
    unfold at_ at hcon
    omega

end Mmu

-- ---------------------------------------------------------------------------
-- Entries
-- ---------------------------------------------------------------------------

/-- What stands in a table for the next one. -/
def tableWord : Option Nat → Nat
  | none => 0
  | some q => q ||| pteP ||| (pteW ||| pteU)

/-- What stands in the last table for a page, and for whether it may be written. -/
def leafWord : Option (Nat × Bool) → Nat
  | none => 0
  | some (pa, write) => pa ||| pteP ||| pteU ||| if write then pteW else 0

section Words

variable {c : Mmu} {phys p flags b : Nat}

/-- The flags stand below the address of a page. -/
theorem or_eq_add (hp : c.pgsize ∣ p) (hflags : flags < c.pgsize) : p ||| flags = p + flags := by
  obtain ⟨a, rfl⟩ := hp
  exact (Nat.two_pow_add_eq_or_of_lt hflags a).symm

theorem or_lt (hp : c.IsPage phys p) (hflags : flags < c.pgsize) : p ||| flags < 2 ^ phys := by
  have hle := hp.le
  rw [or_eq_add hp.aligned hflags]
  omega

theorem baseof_or (hp : c.IsPage phys p) (hphys : phys ≤ 8 * c.wordSz) (hflags : flags < c.pgsize) :
    c.baseof (p ||| flags) = p := by
  have hlt := (or_lt hp hflags).trans_le (Nat.pow_le_pow_right (by omega) hphys)
  obtain ⟨a, rfl⟩ := hp.aligned
  have hpgbits : c.pgbits ≤ 8 * c.wordSz := by
    have hle := c.fields.le
    have hword := c.word_le
    omega
  have hmask := Bits.and_mask hlt hpgbits
  rw [or_eq_add (Nat.dvd_mul_right _ _) hflags] at hmask ⊢
  rw [Mmu.baseof, Mmu.pgsize] at *
  rw [hmask, Nat.mul_add_div (Nat.two_pow_pos _), Nat.div_eq_of_lt hflags, Nat.add_zero,
    Nat.mul_comm]

/-- A flag of an entry. -/
theorem or_and (hp : c.pgsize ∣ p) (hb : b < c.pgsize) : (p ||| flags) &&& b = flags &&& b := by
  have hzero : p &&& b = 0 := by
    obtain ⟨a, rfl⟩ := hp
    apply Nat.eq_of_testBit_eq
    intro i
    rw [Nat.testBit_and, Mmu.pgsize, Nat.testBit_two_pow_mul, Nat.zero_testBit]
    by_cases hi : c.pgbits ≤ i
    · rw [Nat.testBit_lt_two_pow (hb.trans_le (Nat.pow_le_pow_right (by omega) hi)), Bool.and_false]
    · simp [hi]
  rw [Nat.and_or_distrib_right, hzero, Nat.zero_or]

theorem lt_pgsize (c : Mmu) (hb : b < 2 ^ 8) : b < c.pgsize :=
  hb.trans_le (Nat.pow_le_pow_right (by omega) c.flags_lt)

end Words

-- ---------------------------------------------------------------------------
-- The scene
-- ---------------------------------------------------------------------------

/-- A user page is mapped to a page, which may be written or not. -/
abbrev Space := Nat → Option (Nat × Bool)

/-- The address spaces that are there, by the addresses of their structs. -/
abbrev Spaces := Nat → Option Space

/-- The tables of the address spaces, by the indices that lead to them from the first level. -/
abbrev Tables := Nat × List Nat → Option Nat

/-- The entries of the first level that belong to the kernel. -/
def Mmu.kernelIdx (c : Mmu) : List Nat :=
  c.others.flatMap fun area => ((kernelAddrs c.wordSz c.top area).getD []).map (indexof · c.top)

/-- The indices that the levels `done` read from an address. -/
def pathOf (va : Nat) (done : List PtInfo) : List Nat := done.map (indexof va)

/-- The memory before the first address space is made. The structs and the kernel's table lie
apart from each other and from what the client may use for pages. -/
structure Scene {pg : Pager α} {c : Mmu} (L : pg.Laws c) where
  boot : State α
  structs : Nat → Prop
  outer : Nat → Prop
  ok : L.ok boot.mem boot.heap
  owned : ∀ x, L.owns boot.heap x → ¬ outer x
  structs_outer : ∀ as x, structs as → as ≤ x → x < as + c.spaceSz → outer x
  structs_apart : ∀ as as', structs as → structs as' → as ≠ as' →
    as + c.spaceSz ≤ as' ∨ as' + c.spaceSz ≤ as
  kernel_outer : ∀ x, c.inPage boot.kpt x → outer x
  kernel_apart : ∀ as x, structs as → c.inPage boot.kpt x → x < as ∨ as + c.spaceSz ≤ x
  kernel_page : c.IsPage L.phys boot.kpt
  /-- The kernel's pages are not for the user. -/
  supervisor : ∀ i ∈ c.kernelIdx, boot.entry c (c.at_ boot.kpt i) &&& pteU = 0

-- ---------------------------------------------------------------------------
-- The invariant
-- ---------------------------------------------------------------------------

/-- What the kernel's own table holds. -/
def Scene.kernelEntry {pg : Pager α} {c : Mmu} {L : pg.Laws c} (E : Scene L) (i : Nat) : Nat :=
  E.boot.entry c (c.at_ E.boot.kpt i)

/-- What the address space `as` says about the entry `i` of the table behind `path`, with the
levels `infos` below it. -/
def word (c : Mmu) (kernel : Nat → Nat) (T : Tables) (f : Space) (as : Nat) (path : List Nat)
    (infos : List PtInfo) (i : Nat) : Nat :=
  match infos with
  | [] => leafWord (f (ofDigits (c.levels.map PtInfo.field) (path ++ [i])))
  | _ :: _ => if path = [] ∧ i ∈ c.kernelIdx then kernel i else tableWord (T (as, path ++ [i]))

variable {pg : Pager α} {c : Mmu} {L : pg.Laws c}

/-- **Where the tables are**: each on a page of its own, which the client has handed out. -/
structure Placed (E : Scene L) (s : State α) (T : Tables) : Prop where
  kpt : s.kpt = E.boot.kpt
  ok : L.ok s.mem s.heap
  owned : ∀ x, L.owns s.heap x → ¬ E.outer x
  same : ∀ x, E.outer x → (∀ as, E.structs as → x < as ∨ as + c.spaceSz ≤ x) →
    s.mem x = E.boot.mem x
  live : ∀ p, L.live s.heap p ↔ L.live E.boot.heap p ∨ ∃ a, T a = some p
  fresh : ∀ a p, T a = some p → ¬ L.live E.boot.heap p
  page : ∀ a p, T a = some p → c.IsPage L.phys p
  apart : ∀ a p x, T a = some p → c.inPage p x → ¬ L.owns s.heap x ∧ ¬ E.outer x
  inj : ∀ a b p, T a = some p → T b = some p → a = b
  closed : ∀ as path i q, T (as, path ++ [i]) = some q → ∃ p, T (as, path) = some p
  made : ∀ as path p, T (as, path) = some p → ∃ va done infos, c.levels = done ++ infos ∧
    infos ≠ [] ∧ path = pathOf va done ∧ (path ≠ [] → c.uvm.start ≤ va ∧ va < c.uvm.stop)

/-- **What the tables hold**: for each address space that is there what it says. -/
structure Rep (E : Scene L) (s : State α) (T : Tables) (σ : Spaces) : Prop
    extends Placed E s T where
  structs : ∀ as f, σ as = some f → E.structs as
  root : ∀ as, (∃ p, T (as, []) = some p) ↔ ∃ f, σ as = some f
  user : ∀ as f va pa write, σ as = some f → f va = some (pa, write) →
    (c.uvm.start ≤ va ∧ va < c.uvm.stop) ∧ c.pgsize ∣ va ∧ c.IsPage L.phys pa
  mapped : ∀ as f va done infos, σ as = some f → f va ≠ none → c.levels = done ++ infos →
    infos ≠ [] → ∃ p, T (as, pathOf va done) = some p
  ptr : ∀ as p, T (as, []) = some p → s.entry c (c.ptrOf as) = p ||| pteP ||| pteU
  words : ∀ as f path p done info infos i, T (as, path) = some p → σ as = some f →
    c.levels = done ++ info :: infos → done.length = path.length → i < 2 ^ info.bits →
    s.entry c (c.at_ p i)
      = word c E.kernelEntry T f as path infos i

end MyOs.Vme
