import MyOs.Pmm.Safety
import MyOs.Pmm.Sequential

/-!
# Running out of memory

`kalloc` always returns in a sequential run, and it returns `NULL` only when
there is nothing to hand out; then the state is what it was before the call, down
to every lock word.

* `kalloc_null` — a failed call changes nothing and has a reason.
-/

namespace MyOs.Pmm

open MyOs.LinkedList MyOs.FreeChunks MyOs.Transition

/-- Every slot of the page at `b` is live. -/
def SlotsLive (S : Seq) (b : Nat) : Prop := ∀ q, IsSlot S.pmm b q → ∃ r, S.live q = some r

/-- All pages are allocated. -/
def NoPageFree (s : State) : Prop := ∀ i, i < s.nMeta → s.isAlloc i = true

/-- `n` free managed pages from an address that is a multiple of their size. -/
def FreeAlignedRun (s : State) (n : Nat) : Prop :=
  ∃ c, c + n ≤ s.nMeta ∧ n * gpageSz ∣ s.gStart + c * gpageSz ∧
    ∀ i, i < n → s.isAlloc (c + i) = false

/-- Why a request cannot be met. -/
inductive OutOfMemory (S : Seq) (cpu size : Nat) : Prop
  | tooBig : size > maxAlloc → OutOfMemory S cpu size
  | slabs {k : Nat} : kallocSize size ≤ 4096 → getSlabIndex (kallocSize size) = .ok k →
      (∀ b, OnChain S.pmm cpu k b → SlotsLive S b) → NoPageFree S.pmm → OutOfMemory S cpu size
  | pages : 4096 < kallocSize size → ¬ FreeAlignedRun S.pmm (kallocPages (kallocSize size)) →
      OutOfMemory S cpu size

variable {P : Platform} {L : Layout} {S : Seq} {H : Heap} {cpu size : Nat}

/-- What is exhausted in the heap is out of memory in the state. -/
theorem SeqAt.outOfMemory (h : SeqAt P L S H) (hcpu : cpu < P.cpuCount)
    (hex : Exhausted L H cpu size) : OutOfMemory S cpu size := by
  have hR := h.rep
  have hle := L.nMeta_le
  cases hex with
  | tooBig hbig => exact .tooBig hbig
  | @slabs k hsize hsz hk hfull =>
    refine .slabs (by rw [hsz]; exact slotSz_le hk) (by rw [hsz]; exact getSlabIndex_slotSz hk)
      (fun b hon q hslot => ?_) fun i hi => ?_
    · obtain ⟨i, rfl, hu⟩ := hon.exists_page hR ((h.chained cpu k).2 ⟨hcpu, hk⟩)
      obtain ⟨-, -, hsp⟩ := hR.slab i cpu k hu
      have hnil := hfull.1 i ((hR.mem_chain cpu k i).2 hu)
      have ht : Taken L H q (slotSz k) := .slot hu ((isSlot_iff hsp).1 hslot) (by
        rw [hnil]
        exact not_covers_nil)
      exact ⟨_, (h.live q _).2 ht⟩
    · rw [hR.globals.nMeta] at hi
      have hnot := mt (hR.isAlloc_iff (i := i) (by omega)).1 (hfull.2 i hi)
      exact Bool.eq_true_of_not_eq_false hnot
  | pages hsize hlarge hnone =>
    refine .pages hlarge ?_
    rintro ⟨c, hlast, hal, hfree⟩
    rw [hR.globals.nMeta] at hlast
    rw [hR.globals.gStart] at hal
    have hpos := kallocPages_pos (kallocSize size)
    exact hnone c (by omega) (by omega) hal ((hR.free_iff (by omega)).1 hfree)

/-- **A call of `kalloc` returns, and fails only for a reason**: when it returns
`NULL`, the whole state is unchanged, and the request is too big, or its slabs are
full and no page is free, or no aligned run of managed pages is free. -/
theorem kalloc_null (P : Platform) (hroom : P.nMeta + 255 ≤ metaSz) (S : Seq)
    (hr : SeqReachable P S) (cpu size : Nat) (hcpu : cpu < P.cpuCount) :
    ∃ s' p, kalloc P S.pmm cpu size = .ok (s', p) ∧
      (p = 0 → s' = S.pmm ∧ OutOfMemory S cpu size) := by
  obtain ⟨H, h⟩ := seqAt_of_reachable hroom hr
  rcases kalloc_spec h.rep h.chained hcpu (decided_kallocPages hroom) with
    ⟨s', p, H', hrun, -, -, hallot⟩ | ⟨hex, hrun⟩
  · exact ⟨s', p, hrun, fun hp => absurd hp hallot.ne_zero⟩
  · exact ⟨S.pmm, 0, hrun, fun _ => ⟨rfl, h.outOfMemory hcpu hex⟩⟩

/-- A heap of 20 pages has no 16 MiB block. -/
theorem kalloc_null_maxAlloc : ∃ S, SeqReachable (.sample 20) S ∧
    kalloc (.sample 20) S.pmm 0 maxAlloc = .ok (S.pmm, 0) ∧ OutOfMemory S 0 maxAlloc := by
  obtain ⟨s, hs, -⟩ := exists_boot (P := .sample 20) (by decide) (le_refl _) (by decide) fun _ => 0
  have hr : SeqReachable (.sample 20) ⟨s, fun _ => none⟩ := .init ⟨⟨_, hs⟩, fun _ => rfl⟩
  obtain ⟨H, h⟩ := seqAt_of_reachable (by decide) hr
  have hnull : kalloc (.sample 20) s 0 maxAlloc = .ok (s, 0) := by
    have hcall : kalloc (.sample 20) s 0 maxAlloc = gAlloc s (2 ^ 8) false := by
      unfold kalloc
      rw [if_neg (by decide), if_neg (by decide)]
      rfl
    rw [hcall]
    have hcases := h.rep.gAlloc_block (e := 8) (le_refl _) (decided_of_lim (by decide) (by decide))
    rcases hcases with ⟨f, m', hf, -, hal, -⟩ | ⟨-, hrun⟩
    · -- no page address is a multiple of 16 MiB
      have hbase : (Platform.sample 20).base = 0x1030000 := by decide
      have hlt : f < 20 := hf
      have hdvd : 2 ^ 8 * gpageSz ∣ (Platform.sample 20).base + f * gpageSz := hal
      rw [hbase] at hdvd
      unfold gpageSz at hdvd
      omega
    · exact hrun
  obtain ⟨s', p, hrun, himp⟩ := kalloc_null (.sample 20) (by decide) _ hr 0 maxAlloc (by decide)
  have heq := hrun.symm.trans hnull
  cases heq
  exact ⟨_, hr, hnull, (himp rfl).2⟩

end MyOs.Pmm
