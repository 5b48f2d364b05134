import MyOs.Pmm.Safety
import MyOs.Pmm.Sequential

/-!
# The page map

`Meta[i].is_alloc`, `is_slab` and `end` against the live blocks and the chains of
slab pages. Blocks above 4096 bytes are page runs, the others are slots, so the
reserved size of a block tells which allocator it comes from
(`reserved_le_iff`).

* `SeqAt.use_block`, `SeqAt.use_slab` — what a page is used for, in terms of the
  blocks and the chains.
* `page_map_exact` — the map is exact, `kfree` goes back to the allocator of its
  block, and `G_free` clears the pages of its block and no others.
-/

namespace MyOs.Pmm

open MyOs.Memory MyOs.LinkedList MyOs.Transition

-- ---------------------------------------------------------------------------
-- Pages, runs and slab pages
-- ---------------------------------------------------------------------------

/-- The address of page `i`. -/
def State.pageAddr (s : State) (i : Nat) : Nat := s.gStart + i * gpageSz

/-- Page `i` has a byte of the live page run `p` of `r` bytes. -/
structure InRun (S : Seq) (i p r : Nat) : Prop where
  live : S.live p = some r
  run : 4096 < r
  low : p < S.pmm.pageAddr i + gpageSz
  high : S.pmm.pageAddr i < p + r

/-- Page `i` is a slab page. -/
def OnSlab (P : Platform) (s : State) (i : Nat) : Prop :=
  ∃ c k, c < P.cpuCount ∧ k < slabSize ∧ OnChain s c k (s.pageAddr i)

/-- **The entry of page `i` is exact.** -/
structure EntryExact (P : Platform) (S : Seq) (i : Nat) : Prop where
  isAlloc : S.pmm.isAlloc i = true ↔ (∃! b : Nat × Nat, InRun S i b.1 b.2) ∨ OnSlab P S.pmm i
  unique : ∀ p r p' r', InRun S i p r → InRun S i p' r' → p = p' ∧ r = r'
  run : ∀ p r, InRun S i p r → S.pmm.isSlab i = false ∧ S.pmm.metaEnd i = p + r ∧
    p ≤ S.pmm.pageAddr i ∧ S.pmm.pageAddr i + gpageSz ≤ p + r
  slab : OnSlab P S.pmm i → S.pmm.isSlab i = true

variable {P : Platform} {L : Layout} {S : Seq} {H : Heap} {i p r c k : Nat}

/-- **The size tells the allocator**: `kalloc` reserves at most 4096 bytes exactly when
it calls `S_alloc`. -/
theorem reserved_le_iff (size : Nat) : reserved size ≤ 4096 ↔ kallocSize size ≤ 4096 := by
  unfold reserved
  split
  · rfl
  · rename_i hlarge
    have hpages : 1 * gpageSz ≤ kallocPages (kallocSize size) * gpageSz :=
      Nat.mul_le_mul_right _ (kallocPages_pos _)
    unfold gpageSz at hpages ⊢
    omega

-- ---------------------------------------------------------------------------
-- The use of a page
-- ---------------------------------------------------------------------------

theorem SeqAt.pageAddr (h : SeqAt P L S H) (i : Nat) : S.pmm.pageAddr i = L.page i := by
  rw [State.pageAddr, h.rep.globals.gStart, Layout.page]

/-- A page of a live run is used for it. -/
theorem SeqAt.use_block (h : SeqAt P L S H) :
    InRun S i p r ↔ ∃ f n, H.use i = .block f n ∧ p = L.page f ∧ r = n * gpageSz := by
  have hR := h.rep
  constructor
  · rintro ⟨hlive, hlarge, hlow, hhigh⟩
    rw [h.pageAddr] at hlow hhigh
    cases (h.live p r).1 hlive with
    | @slot j c k _ hu _ _ =>
      have := slotSz_le (hR.slab j c k hu).2.1
      omega
    | @run f n hu =>
      obtain ⟨-, -, hrun⟩ := hR.run f f n hu
      rw [← L.page_add] at hhigh
      rw [← L.page_succ] at hlow
      have hfi := L.page_lt_iff.1 hlow
      have hin := L.page_lt_iff.1 hhigh
      exact ⟨f, n, hrun.all i (by omega) hin, rfl, rfl⟩
  · rintro ⟨f, n, hu, rfl, rfl⟩
    obtain ⟨hfi, hin, hrun⟩ := hR.run i f n hu
    have hpos := Nat.mul_le_mul_right gpageSz hrun.pos
    refine ⟨(h.live _ _).2 (.run (hrun.all f (le_refl f) (by omega))), ?_, ?_, ?_⟩
    · unfold gpageSz at hpos ⊢
      omega
    · rw [h.pageAddr]
      have := L.page_mono hfi
      unfold gpageSz
      omega
    · rw [h.pageAddr, ← L.page_add]
      exact L.page_lt_iff.2 hin

/-- A page of a chain is used for slabs. -/
theorem SeqAt.use_slab (h : SeqAt P L S H) :
    OnSlab P S.pmm i ↔ ∃ c k, H.use i = .slab c k := by
  unfold OnSlab
  rw [h.pageAddr]
  constructor
  · rintro ⟨c, k, hc, hk, hon⟩
    obtain ⟨j, hj, hu⟩ := hon.exists_page h.rep ((h.chained c k).2 ⟨hc, hk⟩)
    obtain rfl := L.page_inj hj
    exact ⟨c, k, hu⟩
  · rintro ⟨c, k, hu⟩
    have hmem := (h.rep.mem_chain c k i).2 hu
    have hne := List.ne_nil_of_mem hmem
    obtain ⟨hc, hk⟩ := (h.chained c k).1 hne
    exact ⟨c, k, hc, hk, _, h.rep.chain c k hne, List.mem_map_of_mem hmem⟩

theorem SeqAt.entryExact (h : SeqAt P L S H) (hi : i < L.nMeta) : EntryExact P S i := by
  have hR := h.rep
  have hle := L.nMeta_le
  have hentry := hR.entry i (by omega)
  have hunique : ∀ p r p' r', InRun S i p r → InRun S i p' r' → p = p' ∧ r = r' := by
    intro p r p' r' hrun hrun'
    obtain ⟨f, n, hu, rfl, rfl⟩ := h.use_block.1 hrun
    obtain ⟨f', n', hu', rfl, rfl⟩ := h.use_block.1 hrun'
    rw [hu] at hu'
    cases hu'
    exact ⟨rfl, rfl⟩
  refine ⟨⟨fun halloc => ?_, fun hcase => ?_⟩, hunique, fun p r hrun => ?_, fun hslab => ?_⟩
  · cases hu : H.use i with
    | free =>
      rw [(hR.isAlloc_iff (by omega)).2 hu] at halloc
      cases halloc
    | slab c k => exact .inr (h.use_slab.2 ⟨c, k, hu⟩)
    | block f n =>
      have hrun := h.use_block.2 ⟨f, n, hu, rfl, rfl⟩
      exact .inl ⟨(_, _), hrun, fun b hb =>
        Prod.ext (hunique _ _ _ _ hb hrun).1 (hunique _ _ _ _ hb hrun).2⟩
    | junk =>
      have := hR.junk i hu
      omega
  · refine Bool.eq_true_of_not_eq_false fun hfree => ?_
    have hu := (hR.isAlloc_iff (by omega)).1 hfree
    rcases hcase with ⟨b, hrun, -⟩ | hslab
    · obtain ⟨f, n, hu', -⟩ := h.use_block.1 hrun
      rw [hu] at hu'
      cases hu'
    · obtain ⟨c, k, hu'⟩ := h.use_slab.1 hslab
      rw [hu] at hu'
      cases hu'
  · obtain ⟨f, n, hu, rfl, rfl⟩ := h.use_block.1 hrun
    obtain ⟨hfi, hin, -⟩ := hR.run i f n hu
    rw [hu] at hentry
    unfold State.isSlab State.metaEnd State.get
    rw [hR.globals.metaAt, bne_eq_false_iff_eq, h.pageAddr, ← L.page_add]
    refine ⟨hentry.2.1, hentry.2.2, L.page_mono hfi, ?_⟩
    rw [← L.page_succ]
    exact L.page_mono hin
  · obtain ⟨c, k, hu⟩ := h.use_slab.1 hslab
    rw [hu] at hentry
    unfold State.isSlab State.get
    rw [hR.globals.metaAt, bne_iff_ne]
    exact hentry.2

-- ---------------------------------------------------------------------------
-- Giving blocks back
-- ---------------------------------------------------------------------------

/-- `kfree` of a slot is `S_free`, and of a page run `G_free`. -/
theorem SeqAt.kfree_eq (h : SeqAt P L S H) (hlive : S.live p = some r) :
    Pmm.kfree S.pmm p = if r ≤ 4096 then sFree S.pmm p else Pmm.gFree S.pmm p := by
  have hR := h.rep
  have ht := (h.live p r).1 hlive
  unfold Pmm.kfree
  rcases kfreeHead_taken hR ht with ⟨hhead, hnot, -⟩ | ⟨hhead, f, n, rfl, hu⟩
  · rw [hhead, ok_bind, if_pos rfl]
    cases ht with
    | @slot i c k _ hu _ _ => rw [if_pos (slotSz_le (hR.slab i c k hu).2.1)]
    | @run f n hu => exact absurd rfl (hnot f)
  · rw [hhead, ok_bind, if_neg (by simp)]
    have hrun : InRun S f (L.page f) (n * gpageSz) := h.use_block.2 ⟨f, n, hu, rfl, rfl⟩
    obtain rfl : r = n * gpageSz := Option.some.inj (hlive.symm.trans hrun.live)
    rw [if_neg (Nat.not_le.2 hrun.run)]

/-- **`G_free`** clears the pages of the run. -/
theorem SeqAt.gFree (h : SeqAt P L S H) (hlive : S.live p = some r) (hlarge : 4096 < r) :
    ∃ s', Pmm.gFree S.pmm p = .ok s' ∧ ∀ i, i < L.lim →
      (s'.isAlloc i = true ↔ S.pmm.isAlloc i = true ∧ ¬ InRun S i p r) := by
  have hR := h.rep
  cases (h.live p r).1 hlive with
  | @slot i c k _ hu _ _ =>
    have := slotSz_le (hR.slab i c k hu).2.1
    omega
  | @run f n hu =>
    obtain ⟨m', hres, hR', -⟩ := hR.gFree_block hu
    obtain ⟨-, -, hrun⟩ := hR.run f f n hu
    refine ⟨_, hres, fun i hi => ?_⟩
    have hnew := hR'.isAlloc_iff hi
    have hold := hR.isAlloc_iff hi
    rw [← Bool.not_eq_false, ← Bool.not_eq_false, hnew, hold, h.use_block]
    show ¬ (if f ≤ i ∧ i < f + n then PageUse.free else H.use i) = .free ↔ _
    by_cases hin : f ≤ i ∧ i < f + n
    · rw [if_pos hin]
      exact ⟨fun hne => absurd rfl hne,
        fun hand => absurd ⟨f, n, hrun.all i hin.1 hin.2, rfl, rfl⟩ hand.2⟩
    · rw [if_neg hin]
      refine ⟨fun hne => ⟨hne, ?_⟩, fun hand => hand.1⟩
      rintro ⟨f', n', hu', hpage, hlen⟩
      obtain ⟨hfi, hif, -⟩ := hR.run i f' n' hu'
      obtain rfl := L.page_inj hpage
      obtain rfl := Nat.eq_of_mul_eq_mul_right (by decide : 0 < gpageSz) hlen
      exact hin ⟨hfi, hif⟩

-- ---------------------------------------------------------------------------
-- The map
-- ---------------------------------------------------------------------------

/-- **The page map is exact.** A managed page is allocated when it is part of one live
run, or a slab page, and its entry says which; no block is handed out twice; `kfree` of a
live block goes to the allocator that `kalloc` has called for it; `G_free` clears exactly
the pages of its block; and without live blocks the slab pages are what is left. -/
theorem page_map_exact (P : Platform) (hroom : P.nMeta + 255 ≤ metaSz) (S : Seq)
    (hr : SeqReachable P S) :
    (∀ i, i < S.pmm.nMeta → EntryExact P S i) ∧
      (∀ size, reserved size ≤ 4096 ↔ kallocSize size ≤ 4096) ∧
      (∀ cpu size s' p, cpu < P.cpuCount → kalloc P S.pmm cpu size = .ok (s', p) → p ≠ 0 →
        S.live p = none ∧ ∀ q r, S.live q = some r → p + reserved size ≤ q ∨ q + r ≤ p) ∧
      (∀ p r, S.live p = some r →
        kfree S.pmm p = if r ≤ 4096 then sFree S.pmm p else gFree S.pmm p) ∧
      (∀ p r, S.live p = some r → 4096 < r → ∃ s', gFree S.pmm p = .ok s' ∧
        ∀ i, i < metaSz → (s'.isAlloc i = true ↔ S.pmm.isAlloc i = true ∧ ¬ InRun S i p r)) ∧
      ((∀ p, S.live p = none) →
        ∀ i, i < S.pmm.nMeta → (S.pmm.isAlloc i = true ↔ OnSlab P S.pmm i)) := by
  obtain ⟨H, h⟩ := seqAt_of_reachable hroom hr
  have hexact : ∀ i, i < S.pmm.nMeta → EntryExact P S i := fun i hi => by
    rw [h.rep.globals.nMeta] at hi
    exact h.entryExact hi
  refine ⟨hexact, reserved_le_iff, fun cpu size s' p hcpu hcall hp => ?_, fun p r => h.kfree_eq,
    fun p r => h.gFree, fun hnone i hi => ?_⟩
  · exact h.kalloc_fresh hcpu (fun hsize hlarge => decided_kallocPages hroom hsize hlarge) hcall hp
  rw [(hexact i hi).isAlloc]
  refine or_iff_right ?_
  rintro ⟨b, hrun, -⟩
  exact absurd (hrun.live.symm.trans (hnone b.1)) nofun

/-- With a run of two pages live, on a heap of 20 pages: `kfree` is `G_free`, which clears
exactly these pages. -/
theorem page_map_exact_run : ∃ S p, SeqReachable (.sample 20) S ∧ S.live p = some 131072 ∧
    (∀ i, i < S.pmm.nMeta → EntryExact (.sample 20) S i) ∧
    kfree S.pmm p = gFree S.pmm p ∧ ∃ s', gFree S.pmm p = .ok s' ∧
      ∀ i, i < metaSz → (s'.isAlloc i = true ↔ S.pmm.isAlloc i = true ∧ ¬ InRun S i p 131072) := by
  obtain ⟨s, s', p, hinit, -, -, hcall, hp⟩ :=
    exists_run_call (show (Platform.sample 20).nMeta ≤ metaSz by decide) (le_refl _)
  have hr := Reach.step (.init hinit) (SeqStep.kalloc (by decide) hcall)
  have hres : reserved 131072 = 131072 := by decide
  rw [if_neg hp, hres] at hr
  obtain ⟨S, hS⟩ : ∃ S : Seq, S = ⟨s', Function.update (fun _ => none) p (some 131072)⟩ :=
    ⟨_, rfl⟩
  rw [← hS] at hr
  have hlive : S.live p = some 131072 := by
    simp [hS]
  obtain ⟨hexact, -, -, hkfree, hgFree, -⟩ := page_map_exact (.sample 20) (by decide) S hr
  refine ⟨S, p, hr, hlive, hexact, ?_, hgFree p _ hlive (by decide)⟩
  rw [hkfree p _ hlive, if_neg (by decide)]

end MyOs.Pmm
