import MyOs.Lib.Memory
import MyOs.Pmm.Rounding

/-!
# klib — malloc

The model of `malloc` of `klib/src/stdlib.c`, over byte memory with 64-bit addresses. A
failed assertion ends the run. The break pointer only grows, so the blocks are disjoint,
as long as neither the rounded size nor the new break wraps around; the assertion looks at
the new break alone and does not notice that it has.

Every address can be written to. On a machine the loop that clears a block behind a break
that has moved back, as in `malloc(16); malloc(2^64 - 8)`, runs into memory that is not
there and faults; the break has moved back by then, and here the call returns.

* `zeroFrom_aligned` — the loop that clears a block comes to its end.
* `malloc_eq` — what a call that returns does.
* `malloc_sound` — one call.
* `malloc_sound_iff` — **blocks are disjoint, zero and inside the heap** exactly if no size
  wraps around.
-/

namespace MyOs.Klib

open MyOs.Memory
open MyOs.Pmm (roundUp)

-- ---------------------------------------------------------------------------
-- State and functions
-- ---------------------------------------------------------------------------

/-- `heap`, with pointers of 64 bits. -/
structure Heap where
  start : Nat
  stop : Nat
  start_lt : start < 2 ^ 64
  stop_lt : stop < 2 ^ 64

/-- `hbrk`, `is_malloc_reset` and memory. -/
structure MallocState where
  hbrk : Nat
  isMallocReset : Bool
  mem : Mem

def MallocState.init (mem : Mem) : MallocState := { hbrk := 0, isMallocReset := false, mem }

inductive MallocFault
  | assertFailed
  | diverges
  deriving DecidableEq, Repr

def mallocReset (H : Heap) (s : MallocState) : MallocState :=
  { s with hbrk := roundUp H.start 8 }

/-- The loop that clears a block, from `p` on. It ends when `p` meets `brk`. -/
def zeroFrom (brk : Nat) : Nat → Mem → Nat → Except MallocFault Mem
  | 0, _, _ => .error .diverges
  | fuel + 1, m, p =>
    if p = brk then .ok m
    else zeroFrom brk fuel (store m p 8 0) ((p + 8) % 2 ^ 64)

/-- Enough for every loop that ends: `p` comes back after that many rounds. -/
def zeroFuel : Nat := 2 ^ 61

/-- `malloc`. -/
def malloc (H : Heap) (s : MallocState) (size : Nat) : Except MallocFault (Nat × MallocState) := do
  let s := if s.isMallocReset then s else mallocReset H { s with isMallocReset := true }
  let size := roundUp size 8
  let old := s.hbrk
  let hbrk := (s.hbrk + size) % 2 ^ 64
  if H.start ≤ hbrk ∧ hbrk < H.stop then
    let mem ← zeroFrom hbrk zeroFuel s.mem old
    return (old, { s with hbrk, mem })
  else .error .assertFailed

-- ---------------------------------------------------------------------------
-- The contract of a call
-- ---------------------------------------------------------------------------

/-- A block: where it starts, and its size. -/
abbrev Block := Nat × Nat

/-- A call that has returned `p` for `size` bytes, with `blocks` handed out before. -/
structure MallocSound (H : Heap) (s : MallocState) (blocks : List Block) (size p : Nat)
    (s' : MallocState) : Prop where
  aligned : 8 ∣ p
  start_le : H.start ≤ p
  le_stop : p + size ≤ H.stop
  disjoint : ∀ b ∈ blocks, b.1 + b.2 ≤ p ∨ p + size ≤ b.1
  zero : ∀ x, p ≤ x → x < p + size → s'.mem x = 0
  grows : s.hbrk ≤ s'.hbrk

/-- What memory holds at a call, and the size that is asked for. -/
abbrev Request := Mem × Nat

/-- Every call that returns is sound. -/
def AllMallocSound (H : Heap) (s : MallocState) (blocks : List Block) : List Request → Prop
  | [] => True
  | (mem, size) :: rest => ∀ p s', malloc H { s with mem } size = .ok (p, s') →
      MallocSound H { s with mem } blocks size p s' ∧
      AllMallocSound H s' ((p, size) :: blocks) rest

/-- The break that the call starts from. -/
def MallocState.brk (H : Heap) (s : MallocState) : Nat :=
  if s.isMallocReset then s.hbrk else roundUp H.start 8

/-- Neither the rounded size nor the new break wraps around. -/
def MallocFits (H : Heap) (s : MallocState) (size : Nat) : Prop :=
  size ≤ 2 ^ 64 - 8 ∧ s.brk H + roundUp size 8 < 2 ^ 64

/-- The size of every call that returns fits. -/
def AllMallocFit (H : Heap) (s : MallocState) : List Request → Prop
  | [] => True
  | (mem, size) :: rest => ∀ p s', malloc H { s with mem } size = .ok (p, s') →
      MallocFits H s size ∧ AllMallocFit H s' rest

variable {H : Heap} {s s' : MallocState} {blocks : List Block} {size p brk : Nat} {m m' : Mem}

-- ---------------------------------------------------------------------------
-- Rounding
-- ---------------------------------------------------------------------------

theorem roundUp_eight (a : Nat) : roundUp a 8 = (a + 7) % 2 ^ 64 / 8 * 8 := by
  unfold roundUp
  exact Bits.and_mask (w := 64) (k := 3) (Nat.mod_lt _ (by decide)) (by decide)

theorem roundUp_eight_le (h : size ≤ 2 ^ 64 - 8) : size ≤ roundUp size 8 := by
  rw [roundUp_eight]
  omega

/-- A size beyond the last multiple of 8 becomes 0. -/
theorem roundUp_eight_wrap (h : ¬ size ≤ 2 ^ 64 - 8) (hsize : size < 2 ^ 64) :
    roundUp size 8 = 0 := by
  rw [roundUp_eight]
  omega

theorem dvd_roundUp_eight (a : Nat) : 8 ∣ roundUp a 8 := by
  rw [roundUp_eight]
  exact Nat.dvd_mul_left _ _

theorem roundUp_eight_lt (a : Nat) : roundUp a 8 < 2 ^ 64 := by
  rw [roundUp_eight]
  omega

-- ---------------------------------------------------------------------------
-- The loop
-- ---------------------------------------------------------------------------

/-- Without wrapping around, the loop clears the words up to `brk`. -/
theorem zeroFrom_eq (fuel n : Nat) (hn : n < fuel) (hbrk : p + 8 * n < 2 ^ 64) :
    ∃ m', zeroFrom (p + 8 * n) fuel m p = .ok m' ∧ OnlyIn m m' p (p + 8 * n) ∧
      ∀ x, p ≤ x → x < p + 8 * n → m' x = 0 := by
  induction n generalizing m p fuel with
  | zero =>
    obtain ⟨fuel, rfl⟩ := Nat.exists_eq_succ_of_ne_zero (Nat.ne_of_gt hn)
    exact ⟨m, if_pos rfl, OnlyIn.refl _ _ _, fun x hl hu => by omega⟩
  | succ n ih =>
    obtain ⟨fuel, rfl⟩ := Nat.exists_eq_succ_of_ne_zero (Nat.ne_of_gt (Nat.lt_of_le_of_lt
      (Nat.zero_le _) hn))
    obtain ⟨m', hrun, honly, hzero⟩ := ih (m := store m p 8 0) (p := p + 8) fuel
      (by omega) (by omega)
    have hnext : p + 8 + 8 * n = p + 8 * (n + 1) := by omega
    rw [hnext] at hrun honly hzero
    refine ⟨m', ?_, ?_, fun x hl hu => ?_⟩
    · rw [zeroFrom, if_neg (by omega), Nat.mod_eq_of_lt (by omega)]
      exact hrun
    · exact (onlyIn_store.mono le_rfl (by omega)).trans (honly.mono (by omega) le_rfl)
    · by_cases hx : x < p + 8
      · -- the first word has been cleared here, and is left alone behind
        rw [honly x (.inl hx), store, if_pos ⟨hl, hx⟩, Nat.zero_div]
        rfl
      · exact hzero x (not_lt.1 hx) hu

/-- **The loop ends**, also when it wraps around: both pointers are multiples of 8. -/
theorem zeroFrom_aligned (fuel n : Nat) (hn : n < fuel) (hp : p < 2 ^ 64)
    (hbrk : (p + 8 * n) % 2 ^ 64 = brk) : ∃ m', zeroFrom brk fuel m p = .ok m' := by
  induction n generalizing m p fuel with
  | zero =>
    obtain ⟨fuel, rfl⟩ := Nat.exists_eq_succ_of_ne_zero (Nat.ne_of_gt hn)
    exact ⟨m, if_pos (by omega)⟩
  | succ n ih =>
    obtain ⟨fuel, rfl⟩ := Nat.exists_eq_succ_of_ne_zero (Nat.ne_of_gt (Nat.lt_of_le_of_lt
      (Nat.zero_le _) hn))
    rw [zeroFrom]
    split
    · exact ⟨m, rfl⟩
    · exact ih fuel (by omega) (Nat.mod_lt _ (by decide)) (by omega)

-- ---------------------------------------------------------------------------
-- One call
-- ---------------------------------------------------------------------------

/-- What a call that returns has done. -/
structure Returned (H : Heap) (s : MallocState) (size p : Nat) (s' : MallocState) : Prop where
  p_eq : p = s.brk H
  hbrk_eq : s'.hbrk = (p + roundUp size 8) % 2 ^ 64
  start_le : H.start ≤ s'.hbrk
  lt_stop : s'.hbrk < H.stop
  reset : s'.isMallocReset = true
  zeroed : zeroFrom s'.hbrk zeroFuel s.mem p = .ok s'.mem

/-- The call in one equation: it starts from the break, which the first call sets. -/
theorem malloc_unfold : malloc H s size =
    if H.start ≤ (s.brk H + roundUp size 8) % 2 ^ 64 ∧
        (s.brk H + roundUp size 8) % 2 ^ 64 < H.stop then do
      let mem ← zeroFrom ((s.brk H + roundUp size 8) % 2 ^ 64) zeroFuel s.mem (s.brk H)
      return (s.brk H, { hbrk := (s.brk H + roundUp size 8) % 2 ^ 64, isMallocReset := true, mem })
    else .error .assertFailed := by
  obtain ⟨hbrk, isMallocReset, mem⟩ := s
  cases isMallocReset with
  | true => rfl
  | false => rfl

theorem malloc_eq (h : malloc H s size = .ok (p, s')) : Returned H s size p s' := by
  rw [malloc_unfold] at h
  split at h
  · next hin =>
    obtain ⟨mem, hzero, hret⟩ := bind_eq_ok.1 h
    obtain ⟨rfl, rfl⟩ := Prod.mk.inj (Except.ok.inj hret)
    exact ⟨rfl, rfl, hin.1, hin.2, rfl, hzero⟩
  · cases h

/-- What holds between the calls: the break is a multiple of 8 inside the heap, and all
blocks end before it. -/
structure MallocKept (H : Heap) (s : MallocState) (blocks : List Block) : Prop where
  start_le : s.isMallocReset = true → H.start ≤ s.hbrk
  lt_stop : s.isMallocReset = true → s.hbrk < H.stop
  dvd : s.isMallocReset = true → 8 ∣ s.hbrk
  before : ∀ b ∈ blocks, b.1 + b.2 ≤ s.hbrk
  first : s.isMallocReset = false → s.hbrk = 0 ∧ blocks = []

theorem MallocKept.init : MallocKept H (MallocState.init m) [] :=
  ⟨nofun, nofun, nofun, fun _ hb => absurd hb List.not_mem_nil, fun _ => ⟨rfl, rfl⟩⟩

/-- The client may write to memory between the calls. -/
theorem MallocKept.client (h : MallocKept H s blocks) : MallocKept H { s with mem := m } blocks :=
  ⟨h.start_le, h.lt_stop, h.dvd, h.before, h.first⟩

/-- The break of the first call is the start of the heap, rounded up. -/
theorem MallocKept.brk_cases (h : MallocKept H s blocks) :
    (s.isMallocReset = true ∧ s.brk H = s.hbrk) ∨ (s.hbrk = 0 ∧ s.brk H = roundUp H.start 8) := by
  unfold MallocState.brk
  cases hreset : s.isMallocReset with
  | true => exact .inl ⟨rfl, rfl⟩
  | false => exact .inr ⟨(h.first hreset).1, rfl⟩

theorem MallocKept.dvd_brk (h : MallocKept H s blocks) : 8 ∣ s.brk H := by
  rcases h.brk_cases with ⟨hreset, heq⟩ | ⟨-, heq⟩
  · rw [heq]
    exact h.dvd hreset
  · rw [heq]
    exact dvd_roundUp_eight _

theorem MallocKept.brk_lt (h : MallocKept H s blocks) : s.brk H < 2 ^ 64 := by
  rcases h.brk_cases with ⟨hreset, heq⟩ | ⟨-, heq⟩
  · rw [heq]
    exact Nat.lt_trans (h.lt_stop hreset) H.stop_lt
  · rw [heq]
    exact roundUp_eight_lt _

theorem MallocKept.hbrk_le_brk (h : MallocKept H s blocks) : s.hbrk ≤ s.brk H := by
  rcases h.brk_cases with ⟨-, heq⟩ | ⟨hzero, -⟩
  · exact heq.ge
  · rw [hzero]
    exact Nat.zero_le _

/-- A call whose assertion holds returns: both pointers are multiples of 8, so the loop ends. -/
theorem MallocKept.returns (h : MallocKept H s blocks) (size : Nat)
    (hstart : H.start ≤ (s.brk H + roundUp size 8) % 2 ^ 64)
    (hstop : (s.brk H + roundUp size 8) % 2 ^ 64 < H.stop) :
    ∃ s', malloc H s size = .ok (s.brk H, s') := by
  have hlt' := roundUp_eight_lt size
  obtain ⟨n, hn⟩ := dvd_roundUp_eight size
  obtain ⟨m', hm'⟩ := zeroFrom_aligned (m := s.mem) (p := s.brk H) zeroFuel n
    (by unfold zeroFuel; omega) h.brk_lt rfl
  refine ⟨{ hbrk := (s.brk H + roundUp size 8) % 2 ^ 64, isMallocReset := true, mem := m' }, ?_⟩
  rw [malloc_unfold, if_pos ⟨hstart, hstop⟩, hn, hm']
  rfl

/-- A call never hangs, it fails by its assertion only. -/
theorem malloc_error {e : MallocFault} (h : MallocKept H s blocks)
    (herr : malloc H s size = .error e) : e = .assertFailed := by
  by_cases hin : H.start ≤ (s.brk H + roundUp size 8) % 2 ^ 64 ∧
      (s.brk H + roundUp size 8) % 2 ^ 64 < H.stop
  · obtain ⟨s', hs'⟩ := h.returns size hin.1 hin.2
    rw [hs'] at herr
    cases herr
  · rw [malloc_unfold, if_neg hin] at herr
    exact (Except.error.inj herr).symm

/-- Also in the first call, since no multiple of 8 follows a start that wraps around. -/
theorem MallocKept.start_le_brk (h : MallocKept H s blocks) (hret : Returned H s size p s')
    (hroom : s.brk H + roundUp size 8 < 2 ^ 64) : H.start ≤ s.brk H := by
  have hdvd := h.dvd_brk
  have hdvd' := dvd_roundUp_eight size
  have hstart := hret.start_le
  rw [hret.hbrk_eq, hret.p_eq, Nat.mod_eq_of_lt hroom] at hstart
  rcases h.brk_cases with ⟨hreset, heq⟩ | ⟨-, heq⟩
  · rw [heq]
    exact h.start_le hreset
  · rw [heq] at hstart hroom ⊢
    refine roundUp_eight_le ?_
    by_contra hwrap
    have hzero := roundUp_eight_wrap hwrap H.start_lt
    omega

/-- **One call** that fits is sound, and keeps the invariant. -/
theorem malloc_sound (h : MallocKept H s blocks) (hfits : MallocFits H s size)
    (hret : Returned H s size p s') :
    MallocSound H s blocks size p s' ∧ MallocKept H s' ((p, size) :: blocks) := by
  obtain ⟨hsize, hroom⟩ := hfits
  have hle := roundUp_eight_le hsize
  have hstart := h.start_le_brk hret hroom
  have hdvd := h.dvd_brk
  have hdvd' := dvd_roundUp_eight size
  have hmono := h.hbrk_le_brk
  rw [← hret.p_eq] at hroom hstart hdvd hmono
  have hbrk : s'.hbrk = p + roundUp size 8 := by rw [hret.hbrk_eq, Nat.mod_eq_of_lt hroom]
  have hstop := hret.lt_stop
  have hbefore : ∀ b ∈ blocks, b.1 + b.2 ≤ p := fun b hb => (h.before b hb).trans hmono
  have hzero : ∀ x, p ≤ x → x < p + roundUp size 8 → s'.mem x = 0 := by
    obtain ⟨n, hn⟩ := hdvd'
    obtain ⟨m', hm', -, hzero⟩ := zeroFrom_eq (m := s.mem) (p := p) zeroFuel n
      (by unfold zeroFuel; omega) (hn ▸ hroom)
    have hrun := hret.zeroed
    rw [hbrk, hn, hm'] at hrun
    rw [hn, ← Except.ok.inj hrun]
    exact hzero
  constructor
  · exact ⟨hdvd, hstart, by omega, fun b hb => .inl (hbefore b hb),
      fun x hl hu => hzero x hl (by omega), by omega⟩
  · refine ⟨fun _ => by omega, fun _ => hstop, fun _ => ?_, fun b hb => ?_, fun hno => ?_⟩
    · rw [hbrk]
      exact Nat.dvd_add hdvd hdvd'
    · rcases List.mem_cons.1 hb with rfl | hb
      · show p + size ≤ s'.hbrk
        omega
      · have := hbefore b hb
        omega
    · rw [hret.reset] at hno
      cases hno

/-- A call that does not fit is not sound for every content of memory: it reserves nothing, or it
moves the break back. -/
theorem not_sound_of_not_fits (h : MallocKept H s blocks) (hsize : size < 2 ^ 64)
    (hfits : ¬ MallocFits H s size) (hret : Returned H { s with mem := fun _ => 1 } size p s') :
    ¬ MallocSound H { s with mem := fun _ => 1 } blocks size p s' := by
  intro hsound
  have hp : p = s.brk H := hret.p_eq
  have hbrk := hret.hbrk_eq
  have hdvd := h.dvd_brk
  have hlt := h.brk_lt
  have hstop := hsound.le_stop
  have hstart := hret.start_le
  have hgrows : s.hbrk ≤ s'.hbrk := hsound.grows
  have hlast := H.stop_lt
  rw [← hp] at hdvd hlt
  by_cases hbig : size ≤ 2 ^ 64 - 8
  · -- the break wraps around: it goes back, in the first call to a place before the heap
    have hwrap : 2 ^ 64 ≤ p + roundUp size 8 := by
      by_contra hroom
      exact hfits ⟨hbig, hp ▸ not_le.1 hroom⟩
    have hround : roundUp size 8 ≤ 2 ^ 64 - 8 := by
      rw [roundUp_eight]
      omega
    have hback : s'.hbrk + 8 ≤ p := by omega
    rcases h.brk_cases with ⟨-, heq⟩ | ⟨-, heq⟩
    · omega
    · rw [← hp, roundUp_eight] at heq
      omega
  · -- the size becomes 0, so nothing is cleared
    have hzero := roundUp_eight_wrap hbig hsize
    have hp0 : p = 0 := by omega
    have hmem := hret.zeroed
    rw [hbrk, hzero, Nat.add_zero, Nat.mod_eq_of_lt hlt] at hmem
    have hsame : s'.mem = fun _ => 1 := by
      unfold zeroFuel at hmem
      rw [show 2 ^ 61 = (2 ^ 61 - 1) + 1 by rfl, zeroFrom, if_pos rfl] at hmem
      exact (Except.ok.inj hmem).symm
    have hbyte := hsound.zero p le_rfl (by omega)
    rw [hsame] at hbyte
    simp at hbyte

-- ---------------------------------------------------------------------------
-- Runs
-- ---------------------------------------------------------------------------

/-- Calls that fit are sound. -/
theorem allMallocSound_of_fit (h : MallocKept H s blocks) :
    ∀ requests : List Request, AllMallocFit H s requests → AllMallocSound H s blocks requests := by
  intro requests
  induction requests generalizing s blocks with
  | nil => exact fun _ => trivial
  | cons request rest ih =>
    obtain ⟨mem, size⟩ := request
    intro hfit p s' hrun
    obtain ⟨hfits, hrest⟩ := hfit p s' hrun
    obtain ⟨hsound, hkept⟩ := malloc_sound (h.client (m := mem)) hfits (malloc_eq hrun)
    exact ⟨hsound, ih hkept hrest⟩

/-- Calls that are sound whatever memory holds fit. -/
theorem allMallocFit_of_sound (h : MallocKept H s blocks) (sizes : List Nat)
    (hsizes : ∀ size ∈ sizes, size < 2 ^ 64)
    (hsound : ∀ requests : List Request, requests.map Prod.snd = sizes →
      AllMallocSound H s blocks requests) :
    ∀ requests : List Request, requests.map Prod.snd = sizes → AllMallocFit H s requests := by
  induction sizes generalizing s blocks with
  | nil =>
    intro requests hreq
    rw [List.map_eq_nil_iff.1 hreq]
    trivial
  | cons size sizes ih =>
    intro requests hreq
    obtain ⟨⟨mem, size'⟩, rest, rfl, heq, hrest⟩ := List.map_eq_cons_iff.1 hreq
    obtain rfl : size' = size := heq
    have hsize : size' < 2 ^ 64 := hsizes size' List.mem_cons_self
    intro p s' hrun
    have hret := malloc_eq hrun
    have hfits : MallocFits H s size' := by
      -- with every byte set, a call that does not fit gives itself away
      by_contra hfits
      have hstart := hret.start_le
      have hstop := hret.lt_stop
      rw [hret.hbrk_eq, hret.p_eq] at hstart hstop
      obtain ⟨s'', hrun'⟩ := (h.client (m := fun _ => 1)).returns size' hstart hstop
      have hhead := hsound ((fun _ => 1, size') :: rest) (by rw [List.map_cons, hrest]) _ _ hrun'
      exact not_sound_of_not_fits h hsize hfits (malloc_eq hrun') hhead.1
    have hkept := (malloc_sound (h.client (m := mem)) hfits hret).2
    refine ⟨hfits, ih hkept (fun sz hsz => hsizes sz (List.mem_cons_of_mem _ hsz)) ?_ rest hrest⟩
    intro requests hsizes'
    have hall := hsound ((mem, size') :: requests) (by rw [List.map_cons, hsizes'])
    exact (hall p s' hrun).2

/-- **Disjoint, zero, inside the heap.** For any heap and any sizes, all calls that return are
sound whatever memory holds at the calls exactly if all sizes fit. A call whose break wraps
around returns here, where a machine may fault while it clears the block. -/
theorem malloc_sound_iff (H : Heap) (sizes : List Nat) (hsizes : ∀ size ∈ sizes, size < 2 ^ 64)
    (m : Mem) :
    (∀ requests : List Request, requests.map Prod.snd = sizes →
      AllMallocSound H (MallocState.init m) [] requests) ↔
    (∀ requests : List Request, requests.map Prod.snd = sizes →
      AllMallocFit H (MallocState.init m) requests) :=
  ⟨allMallocFit_of_sound MallocKept.init sizes hsizes,
    fun hfit requests hreq => allMallocSound_of_fit MallocKept.init requests (hfit requests hreq)⟩

/-- A heap of the emulator. -/
def sampleHeap : Heap :=
  { start := 0x300000, stop := 0x8000000, start_lt := by decide, stop_lt := by decide }

theorem malloc_sound_iff_sample :
    (∀ requests : List Request, requests.map Prod.snd = [24, 2 ^ 64 - 8] →
      AllMallocSound sampleHeap (MallocState.init fun _ => 0) [] requests) ↔
    (∀ requests : List Request, requests.map Prod.snd = [24, 2 ^ 64 - 8] →
      AllMallocFit sampleHeap (MallocState.init fun _ => 0) requests) :=
  malloc_sound_iff sampleHeap [24, 2 ^ 64 - 8] (by decide) fun _ => 0

/-- A size of `2 ^ 64 - 1` is rounded to 0: the block is handed out, and nothing is reserved. -/
theorem malloc_not_sound :
    ¬ ∀ (H : Heap) (m : Mem) (requests : List Request), (∀ r ∈ requests, r.2 < 2 ^ 64) →
      AllMallocSound H (MallocState.init m) [] requests := by
  intro hall
  have hkept : MallocKept sampleHeap (MallocState.init fun _ => 0) [] := MallocKept.init
  obtain ⟨s', hrun⟩ := hkept.returns (2 ^ 64 - 1) (by decide) (by decide)
  have hsound := hall sampleHeap (fun _ => 0) [(fun _ => 0, 2 ^ 64 - 1)] (by decide) _ s' hrun
  exact absurd hsound.1.le_stop (by decide)

end MyOs.Klib
