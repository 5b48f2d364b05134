import MyOs.Pmm.Machine

/-!
# What a thread can do

The steps of a thread on heaps (`Move`): the abstract counterpart of `exec`, with
one constructor for each way a critical section can end. `exec_move` connects the
two, and says exactly when a critical section fails: in `add_slab`, when the page
to extend is no longer the last one, and after it, when the new page has no free
slot any more (`Ready`).
-/

namespace MyOs.Pmm

open MyOs.Memory MyOs.LinkedList MyOs.FreeChunks

/-! ## Moves -/

/-- A thread goes from `pc` to `pc'` and the heap from `H` to `H'`. -/
inductive Move (L : Layout) (H : Heap) : Pc → Heap → Pc → Prop
  | idle : Move L H .idle H .idle
  | ret {p r : Nat} : Move L H (.ret p r) H (.ret p r)
  -- `kalloc`
  | tooBig {cpu size : Nat} : size > maxAlloc → Move L H (.kalloc cpu size) H (.ret 0 0)
  | head {cpu size i k : Nat} {l : List Nat} : size ≤ maxAlloc → kallocSize size = slotSz k →
      k < slabSize → H.chain cpu k = i :: l →
      Move L H (.kalloc cpu size) H (.slabAlloc (L.page i) (slotSz k))
  | pages {cpu size e : Nat} : size ≤ maxAlloc → kallocSize size > 4096 → e ≤ 8 →
      kallocPages (kallocSize size) = 2 ^ e → Move L H (.kalloc cpu size) H (.gAlloc (2 ^ e))
  -- `S_alloc`
  | full {i c k : Nat} : H.use i = .slab c k → H.free i = [] →
      Move L H (.slabAlloc (L.page i) (slotSz k)) H (.readNext (L.page i) (slotSz k))
  | pop {i c k p : Nat} : H.use i = .slab c k → H.free i ≠ [] →
      Allots L H (H.setFree i (pop (slotSz k) (H.free i))) p (slotSz k) →
      Move L H (.slabAlloc (L.page i) (slotSz k)) (H.setFree i (pop (slotSz k) (H.free i)))
        (.ret p (slotSz k))
  | next {i j c k : Nat} : H.use i = .slab c k → H.use j = .slab c k →
      Move L H (.readNext (L.page i) (slotSz k)) H (.slabAlloc (L.page j) (slotSz k))
  | last {i c k : Nat} {l : List Nat} : H.chain c k = l ++ [i] →
      Move L H (.readNext (L.page i) (slotSz k)) H (.addSlab (L.page i) (slotSz k))
  | noPage {i k : Nat} : (∀ d, d < L.nMeta → H.use d ≠ .free) →
      Move L H (.addSlab (L.page i) (slotSz k)) H (.ret 0 0)
  | grow {i j c k : Nat} {l : List Nat} : H.chain c k = l ++ [i] → k < slabSize → j < L.nMeta →
      H.use j = .free →
      Move L H (.addSlab (L.page i) (slotSz k)) (H.link c k j (fullChunks (L.page j) k))
        (.newSlab (L.page j) (slotSz k))
  | popNew {i c k p : Nat} : H.use i = .slab c k → H.free i ≠ [] →
      Allots L H (H.setFree i (pop (slotSz k) (H.free i))) p (slotSz k) →
      Move L H (.newSlab (L.page i) (slotSz k)) (H.setFree i (pop (slotSz k) (H.free i)))
        (.ret p (slotSz k))
  -- `G_alloc`
  | run {f e : Nat} : e ≤ 8 → f < L.nMeta → FreeRun H f (2 ^ e) →
      Allots L H (H.addRun f (2 ^ e)) (L.page f) (2 ^ e * gpageSz) →
      Move L H (.gAlloc (2 ^ e)) (H.addRun f (2 ^ e)) (.ret (L.page f) (2 ^ e * gpageSz))
  | noRun {n : Nat} : Move L H (.gAlloc n) H (.ret 0 (n * gpageSz))
  -- `kfree`
  | slabBlock {p : Nat} : (∀ f, p ≠ L.page f) → Move L H (.kfree p) H (.sFree p)
  | pageBlock {f : Nat} : Move L H (.kfree (L.page f)) H (.gFree (L.page f))
  | push {i c k p : Nat} {nodes : List (Nat × Nat)} : H.use i = .slab c k → nodes ≠ [] →
      Releases L H (H.setFree i nodes) p → Move L H (.sFree p) (H.setFree i nodes) .idle
  | clear {f n : Nat} : H.use f = .block f n → Releases L H (H.delRun f n) (L.page f) →
      Move L H (.gFree (L.page f)) (H.delRun f n) .idle

/-- What the arguments at a control point mean: a managed slab page of the size
asked for, a number of pages, the kind of the block to free. -/
def PcOk (P : Platform) (L : Layout) (H : Heap) : Pc → Prop
  | .kalloc cpu _ => cpu < P.cpuCount
  | .slabAlloc slab size | .readNext slab size | .addSlab slab size | .newSlab slab size =>
    ∃ i c k, slab = L.page i ∧ size = slotSz k ∧ H.use i = .slab c k
  | .gAlloc n => ∃ e, e ≤ 8 ∧ n = 2 ^ e
  | .sFree p => ∀ f, p ≠ L.page f
  | .gFree p => ∃ f, p = L.page f
  | _ => True

/-- **The growth of a chain is not disturbed**: at `add_slab` the page to extend is
still the last one or no page is left, at the second `slab_alloc` the new page
still has a free slot. -/
def Ready (s : State) : Pc → Prop
  | .addSlab prev _ => s.next prev = 0 ∨ ∀ i, i < s.nMeta → s.isAlloc i = true
  | .newSlab slab _ => s.nHead slab ≠ 0
  | _ => True

/-- Every CPU has its chains, with at least one page each, and there are no others. -/
def Chained (P : Platform) (H : Heap) : Prop :=
  ∀ c k, H.chain c k ≠ [] ↔ c < P.cpuCount ∧ k < slabSize

/-- `exec` makes a move. -/
def Moves (P : Platform) (L : Layout) (s : State) (H : Heap) (pc : Pc) : Prop :=
  ∃ s' H' pc', exec P s pc = .ok (s', pc') ∧ Rep L s' H' ∧ Move L H pc H' pc'

variable {P : Platform} {L : Layout} {s : State} {H H' : Heap}
  {i c k p r cpu size n : Nat} {pc pc' : Pc}

/-! ## `kalloc` up to its first critical section -/

theorem sAllocHead_slotSz (hk : k < slabSize) (hcpu : cpu < P.cpuCount) :
    sAllocHead P s cpu (slotSz k) = .ok (slotSz k, s.slab cpu k) := by
  unfold sAllocHead
  rw [getSlabIndex_slotSz hk, ok_bind, check_pos hcpu, ok_bind, nextPower2_slotSz hk]
  simp only [check_pos (slotSz_pos k).ne', ok_bind]
  rfl

theorem sAllocNext_page (prev : Nat) :
    sAllocNext prev (L.page i) size = .ok (.slabAlloc (L.page i) size) :=
  if_pos (L.page_pos i).ne'

/-- The class of a request up to 4096 bytes, and the pages of a bigger one. -/
theorem kallocSize_cases (h : size ≤ maxAlloc) :
    (∃ k, k < slabSize ∧ kallocSize size = slotSz k ∧ kallocSize size ≤ 4096) ∨
      (kallocSize size > 4096 ∧ ∃ e, e ≤ 8 ∧ kallocPages (kallocSize size) = 2 ^ e) := by
  obtain ⟨j, hj, hj', hsz, -⟩ := kallocSize_spec h
  by_cases hsmall : kallocSize size ≤ 4096
  · obtain ⟨k, hk, hkj⟩ := exists_slotSz hj (by rwa [← hsz])
    exact .inl ⟨k, hk, hsz.trans hkj, hsmall⟩
  · have hlt : 12 < j := by
      by_contra hcon
      have : 2 ^ j ≤ 2 ^ 12 := Nat.pow_le_pow_right (by omega) (by omega)
      omega
    obtain ⟨e, he, hpages⟩ := kallocPages_two_pow hlt hj'
    exact .inr ⟨by omega, e, he, by rw [hsz, hpages]⟩

/-- A request of a slab class goes to the first page of its chain. -/
theorem exec_kalloc {l : List Nat} (hR : Rep L s H) (hcpu : cpu < P.cpuCount)
    (hsize : size ≤ maxAlloc) (hk : k < slabSize) (hsz : kallocSize size = slotSz k)
    (hlist : H.chain cpu k = i :: l) :
    exec P s (.kalloc cpu size) = .ok (s, .slabAlloc (L.page i) (slotSz k)) := by
  have hsmall : slotSz k ≤ 4096 := slotSz_le hk
  have hhead : s.slab cpu k = L.page i := by
    have hlink := hR.chain cpu k (by rw [hlist]; simp)
    rw [hlist] at hlink
    exact hlink.1
  rw [exec, if_neg (Nat.not_lt.2 hsize), hsz, if_pos hsmall, sAllocHead_slotSz hk hcpu, ok_bind]
  simp only [hhead, sAllocNext_page]
  rfl

theorem kalloc_move (hR : Rep L s H) (hch : Chained P H) (hcpu : cpu < P.cpuCount) :
    Moves P L s H (.kalloc cpu size) := by
  by_cases hbig : size > maxAlloc
  · exact ⟨s, H, .ret 0 0, if_pos hbig, hR, .tooBig hbig⟩
  · have hsize := Nat.not_lt.1 hbig
    rcases kallocSize_cases hsize with ⟨k, hk, hsz, -⟩ | ⟨hlarge, e, he, hpages⟩
    · match hlist : H.chain cpu k, (hch cpu k).2 ⟨hcpu, hk⟩ with
      | i :: l, _ =>
        exact ⟨s, H, _, exec_kalloc hR hcpu hsize hk hsz hlist, hR, .head hsize hsz hk hlist⟩
    · refine ⟨s, H, .gAlloc (2 ^ e), ?_, hR, .pages hsize hlarge he hpages⟩
      rw [exec, if_neg hbig, if_neg (Nat.not_le.2 hlarge), hpages]
      rfl

/-! ## `S_alloc` -/

/-- A slot is never at address 0. -/
theorem Allots.ne_zero (h : Allots L H H' p r) : p ≠ 0 :=
  ((h.taken p r).2 (.inr ⟨rfl, rfl⟩)).ne_zero

/-- `slab_alloc` on a page without free slots. -/
theorem exec_slabAlloc_nil (hR : Rep L s H) (hu : H.use i = .slab c k) (hnil : H.free i = []) :
    exec P s (.slabAlloc (L.page i) (slotSz k)) = .ok (s, .readNext (L.page i) (slotSz k)) := by
  obtain ⟨-, -, hsp⟩ := hR.slab i c k hu
  rw [hnil] at hsp
  rw [exec, slabAlloc_nil hsp, ok_bind]
  rfl

/-- `slab_alloc` on a page with a free slot. -/
theorem exec_slabAlloc_pop (hR : Rep L s H) (hu : H.use i = .slab c k) (hfree : H.free i ≠ []) :
    ∃ p s', exec P s (.slabAlloc (L.page i) (slotSz k)) = .ok (s', .ret p (slotSz k)) ∧
      Rep L s' (H.setFree i (pop (slotSz k) (H.free i))) ∧
      Allots L H (H.setFree i (pop (slotSz k) (H.free i))) p (slotSz k) := by
  rcases hR.slabAlloc_slot hu with ⟨hnil, -⟩ | ⟨p, n, l, m', -, hrun, -, hR', hallot⟩
  · exact absurd hnil hfree
  · refine ⟨p, _, ?_, hR', hallot⟩
    rw [exec, hrun, ok_bind]
    simp only [if_pos hallot.ne_zero]
    rfl

theorem slabAlloc_move (hR : Rep L s H) (hu : H.use i = .slab c k) :
    Moves P L s H (.slabAlloc (L.page i) (slotSz k)) := by
  by_cases hnil : H.free i = []
  · exact ⟨s, H, _, exec_slabAlloc_nil hR hu hnil, hR, .full hu hnil⟩
  · obtain ⟨p, s', hexec, hR', hallot⟩ := exec_slabAlloc_pop (P := P) hR hu hnil
    exact ⟨s', _, _, hexec, hR', .pop hu hnil hallot⟩

/-- The locked read of `next` at the end of a chain. -/
theorem exec_readNext_last {l : List Nat} (hR : Rep L s H) (hu : H.use i = .slab c k)
    (hlast : H.chain c k = l ++ [i]) :
    exec P s (.readNext (L.page i) (slotSz k)) = .ok (s, .addSlab (L.page i) (slotSz k)) := by
  obtain ⟨-, -, hsp⟩ := hR.slab i c k hu
  have hnext : s.next (L.page i) = 0 := (hR.next_eq_zero_iff hu).2 ⟨l, hlast⟩
  rw [exec, readNext_spec hsp, ok_bind]
  simp only [hnext, sAllocNext]
  rw [if_neg (by omega), check_pos ⟨(L.page_pos i).ne', trivial⟩]
  rfl

theorem readNext_move (hR : Rep L s H) (hu : H.use i = .slab c k) :
    Moves P L s H (.readNext (L.page i) (slotSz k)) := by
  obtain ⟨-, -, hsp⟩ := hR.slab i c k hu
  obtain ⟨l₁, l₂, hsplit⟩ := List.append_of_mem ((hR.mem_chain c k i).2 hu)
  match l₂, hsplit with
  | [], hsplit => exact ⟨s, H, _, exec_readNext_last hR hu hsplit, hR, .last hsplit⟩
  | j :: l, hsplit =>
    have hnext := hR.next_of_cons hsplit
    have huj : H.use j = .slab c k := (hR.mem_chain c k j).1 (by rw [hsplit]; simp)
    refine ⟨s, H, _, ?_, hR, .next hu huj⟩
    rw [exec, readNext_spec hsp, ok_bind]
    simp only [hnext, sAllocNext_page]
    rfl

/-- All managed pages are allocated. -/
theorem Rep.isAlloc_all_iff (hR : Rep L s H) :
    (∀ d, d < s.nMeta → s.isAlloc d = true) ↔ ∀ d, d < L.nMeta → H.use d ≠ .free := by
  have hle := L.nMeta_le
  rw [hR.globals.nMeta]
  refine forall₂_congr fun d hd => ?_
  rw [← Bool.not_eq_false, hR.isAlloc_iff (by omega)]

/-- What `Ready` says about the heap. -/
theorem Rep.ready_addSlab (hR : Rep L s H) (hu : H.use i = .slab c k) :
    Ready s (.addSlab (L.page i) size) ↔
      (∃ l, H.chain c k = l ++ [i]) ∨ ∀ d, d < L.nMeta → H.use d ≠ .free := by
  show _ ∨ _ ↔ _
  rw [hR.next_eq_zero_iff hu, hR.isAlloc_all_iff]

theorem Rep.ready_newSlab (hR : Rep L s H) (hu : H.use i = .slab c k) :
    Ready s (.newSlab (L.page i) size) ↔ H.free i ≠ [] := by
  obtain ⟨-, -, hsp⟩ := hR.slab i c k hu
  have hlist := hsp.list
  show load s.mem (L.page i) 8 ≠ 0 ↔ _
  match hfree : H.free i, hlist with
  | [], hlist => exact ⟨fun h => absurd hlist h, fun h => absurd rfl h⟩
  | a :: l, hlist =>
    exact ⟨fun _ => by simp, fun _ => by rw [hlist.1]; exact hlist.2.1⟩

/-- What `add_slab` comes to: no page is left, or somebody has extended the chain and its
assertion fails, or a page is put behind the last one. -/
theorem exec_addSlab (hR : Rep L s H) (hu : H.use i = .slab c k) :
    ((∀ d, d < L.nMeta → H.use d ≠ .free) ∧
        exec P s (.addSlab (L.page i) (slotSz k)) = .ok (s, .ret 0 0)) ∨
      ∃ j, j < L.nMeta ∧ H.use j = .free ∧
        ((s.next (L.page i) ≠ 0 ∧
            exec P s (.addSlab (L.page i) (slotSz k)) = .error .assertion) ∨
          ∃ s' l, H.chain c k = l ++ [i] ∧
            exec P s (.addSlab (L.page i) (slotSz k)) =
              .ok (s', .newSlab (L.page j) (slotSz k)) ∧
            Rep L s' (H.link c k j (fullChunks (L.page j) k))) := by
  rcases addSlab_spec hR hu with ⟨hfull, hrun⟩ | ⟨j, hj, hfree, hcase⟩
  · refine .inl ⟨hfull, ?_⟩
    rw [exec, hrun, ok_bind]
    rfl
  · rcases hcase with ⟨hnext, hrun⟩ | ⟨hnext, m', hrun, hgrown⟩
    · exact .inr ⟨j, hj, hfree, .inl ⟨hnext, by rw [exec, hrun, error_bind]⟩⟩
    · obtain ⟨l, hlast⟩ := (hR.next_eq_zero_iff hu).1 hnext
      refine .inr ⟨j, hj, hfree, .inr ⟨_, l, hlast, ?_, hR.of_grown hu hj hfree hnext hgrown⟩⟩
      rw [exec, hrun, ok_bind]
      simp only [if_neg (L.page_pos j).ne']
      rfl

/-- `add_slab` grows the chain unless it is disturbed. -/
theorem addSlab_move (hR : Rep L s H) (hu : H.use i = .slab c k) :
    (Ready s (.addSlab (L.page i) (slotSz k)) ∧ Moves P L s H (.addSlab (L.page i) (slotSz k))) ∨
      (¬ Ready s (.addSlab (L.page i) (slotSz k)) ∧
        exec P s (.addSlab (L.page i) (slotSz k)) = .error .assertion) := by
  obtain ⟨-, hk, -⟩ := hR.slab i c k hu
  rw [hR.ready_addSlab hu]
  rcases exec_addSlab (P := P) hR hu with
    ⟨hfull, hrun⟩ | ⟨j, hj, hfree, ⟨hnext, herr⟩ | ⟨s', l, hlast, hrun, hR'⟩⟩
  · exact .inl ⟨.inr hfull, s, H, _, hrun, hR, .noPage hfull⟩
  · refine .inr ⟨?_, herr⟩
    rintro (hlast | hfull)
    · exact hnext ((hR.next_eq_zero_iff hu).2 hlast)
    · exact hfull j hj hfree
  · exact .inl ⟨.inl ⟨l, hlast⟩, s', _, _, hrun, hR', .grow hlast hk hj hfree⟩

/-- The second `slab_alloc` finds a slot unless others took them all. -/
theorem newSlab_move (hR : Rep L s H) (hu : H.use i = .slab c k) :
    (Ready s (.newSlab (L.page i) (slotSz k)) ∧ Moves P L s H (.newSlab (L.page i) (slotSz k))) ∨
      (¬ Ready s (.newSlab (L.page i) (slotSz k)) ∧
        exec P s (.newSlab (L.page i) (slotSz k)) = .error .assertion) := by
  rw [hR.ready_newSlab hu]
  rcases hR.slabAlloc_slot hu with ⟨hnil, hrun⟩ | ⟨p, n, l, m', hcons, hrun, -, hR', hallot⟩
  · refine .inr ⟨fun hne => hne hnil, ?_⟩
    rw [exec, hrun, ok_bind]
    rfl
  · have hfree : H.free i ≠ [] := by
      rw [hcons]
      exact List.cons_ne_nil _ _
    refine .inl ⟨hfree, _, _, _, ?_, hR', .popNew hu hfree hallot⟩
    rw [exec, hrun, ok_bind]
    simp only [check_pos hallot.ne_zero, ok_bind]
    rfl

/-! ## `G_alloc` and `kfree` -/

theorem gAlloc_move {e : Nat} (hR : Rep L s H) (he : e ≤ 8) (hdec : Decided L s (2 ^ e)) :
    Moves P L s H (.gAlloc (2 ^ e)) := by
  rcases hR.gAlloc_block he hdec with ⟨f, m', hf, -, -, hfree, -, hrun, hR', hallot⟩ | ⟨-, hrun⟩
  · refine ⟨_, _, _, ?_, hR', .run he hf hfree hallot⟩
    rw [exec, hrun, ok_bind]
    rfl
  · refine ⟨s, H, _, ?_, hR, .noRun⟩
    rw [exec, hrun, ok_bind]
    rfl

/-- The checks of `kfree` on a managed page. -/
theorem kfreeHead_page (hR : Rep L s H) (hi : i < L.nMeta) (hlo : L.page i ≤ p)
    (hhi : p < L.page i + gpageSz) (hpage : s.isSlab i = true ∨ p = L.page i) :
    kfreeHead s p = .ok (s.isSlab i) := by
  have hpos := L.page_pos i
  have hend := L.page_end hi
  have hround : roundDown p gpageSz = L.page i :=
    roundDown_page (L.page_dvd i) hlo hhi (by omega)
  have hidx := getMetaIndex_page hR.globals (i := i) (by omega)
  have hcheck : (0 : Int) ≤ (i : Int) ∧ (i : Int) < s.nMeta := by
    rw [hR.globals.nMeta]
    omega
  unfold kfreeHead
  rw [check_pos (by omega : p ≠ 0), ok_bind]
  simp only [hround, hidx, ok_bind, check_pos hcheck, Int.toNat_natCast,
    check_pos (hR.starts i hi)]
  by_cases hslab : s.isSlab i = true
  · rw [if_pos hslab, hslab]
    rfl
  · have hp : L.page i = p := by
      rcases hpage with h | h
      · exact absurd h hslab
      · exact h.symm
    rw [if_neg hslab, check_pos hp, ok_bind, Bool.eq_false_of_not_eq_true hslab]
    rfl

/-- **`kfree` finds out what kind of block it has got.** -/
theorem kfreeHead_taken (hR : Rep L s H) (ht : Taken L H p r) :
    (kfreeHead s p = .ok true ∧ (∀ f, p ≠ L.page f) ∧ ∃ i c k, H.use i = .slab c k ∧
        Slot (L.page i) k p ∧ ¬ Covers (slotSz k) (H.free i) p) ∨
      (kfreeHead s p = .ok false ∧ ∃ f n, p = L.page f ∧ H.use f = .block f n) := by
  have hle := L.nMeta_le
  have hg : gpageSz = 65536 := rfl
  cases ht with
  | @slot i c k _ hu hslot hnot =>
    obtain ⟨hi, -, -⟩ := hR.slab i c k hu
    have hlow := hslot.low'
    have hhigh := hslot.high
    have hpos := slotSz_pos k
    have hentry := hR.entry i (by omega)
    rw [hu] at hentry
    have hslab : s.isSlab i = true := by
      unfold State.isSlab State.get
      rw [hR.globals.metaAt, bne_iff_ne]
      exact hentry.2
    have hhead := kfreeHead_page hR hi (p := p) (by omega) (by omega) (.inl hslab)
    refine .inl ⟨by rw [hhead, hslab], fun f hf => ?_, i, c, k, hu, hslot, hnot⟩
    -- a slot lies behind the header of its page
    have := L.page_unique (x := p) (i := i) (j := f) (by omega) (by omega) (by omega) (by omega)
    subst this
    omega
  | @run f n hu =>
    obtain ⟨-, -, hrun⟩ := hR.run f f n hu
    have hf := hrun.first
    have hentry := hR.entry f (by omega)
    rw [hu] at hentry
    have hslab : s.isSlab f = false := by
      unfold State.isSlab State.get
      rw [hR.globals.metaAt, bne_eq_false_iff_eq]
      exact hentry.2.1
    have hhead := kfreeHead_page hR hf (p := L.page f) (le_refl _) (by omega) (.inr rfl)
    exact .inr ⟨by rw [hhead, hslab], f, n, rfl, hu⟩

theorem kfree_move (hR : Rep L s H) (ht : Taken L H p r) : Moves P L s H (.kfree p) := by
  rcases kfreeHead_taken hR ht with ⟨hhead, hp, -⟩ | ⟨hhead, f, n, rfl, -⟩
  · refine ⟨s, H, .sFree p, ?_, hR, .slabBlock hp⟩
    rw [exec, hhead, ok_bind]
    rfl
  · refine ⟨s, H, .gFree (L.page f), ?_, hR, .pageBlock⟩
    rw [exec, hhead, ok_bind]
    rfl

theorem sFree_move (hR : Rep L s H) (ht : Taken L H p r) (hp : ∀ f, p ≠ L.page f) :
    Moves P L s H (.sFree p) := by
  rcases kfreeHead_taken hR ht with ⟨-, -, i, c, k, hu, hslot, hnot⟩ | ⟨-, f, n, rfl, -⟩
  · obtain ⟨m', nodes, hrun, hne, hR', hrel⟩ := hR.sFree_slot hu hslot hnot
    refine ⟨_, _, _, ?_, hR', .push hu hne hrel⟩
    rw [exec, hrun, ok_bind]
    rfl
  · exact absurd rfl (hp f)

theorem gFree_move (hR : Rep L s H) (ht : Taken L H p r) (hp : ∃ f, p = L.page f) :
    Moves P L s H (.gFree p) := by
  obtain ⟨f, hf⟩ := hp
  rcases kfreeHead_taken hR ht with ⟨-, hnot, -⟩ | ⟨-, f', n, rfl, hu⟩
  · exact absurd hf (hnot f)
  · obtain ⟨m', hrun, hR', hrel⟩ := hR.gFree_block hu
    refine ⟨_, _, _, ?_, hR', .clear hu hrel⟩
    rw [exec, hrun, ok_bind]
    rfl

/-! ## All control points -/

/-- **A thread makes a move exactly when it is not disturbed**; otherwise an
assertion fails. -/
theorem exec_move (hR : Rep L s H) (hch : Chained P H) (hok : PcOk P L H pc)
    (hfreeing : ∀ p, pc.freeing = some p → ∃ r, Taken L H p r)
    (hdec : ∀ n, pc = .gAlloc n → Decided L s n) :
    (Ready s pc ∧ Moves P L s H pc) ∨ (¬ Ready s pc ∧ exec P s pc = .error .assertion) := by
  cases pc with
  | idle => exact .inl ⟨trivial, s, H, .idle, rfl, hR, .idle⟩
  | kalloc cpu size => exact .inl ⟨trivial, kalloc_move hR hch hok⟩
  | slabAlloc slab size =>
    obtain ⟨i, c, k, rfl, rfl, hu⟩ := hok
    exact .inl ⟨trivial, slabAlloc_move hR hu⟩
  | readNext slab size =>
    obtain ⟨i, c, k, rfl, rfl, hu⟩ := hok
    exact .inl ⟨trivial, readNext_move hR hu⟩
  | addSlab prev size =>
    obtain ⟨i, c, k, rfl, rfl, hu⟩ := hok
    exact addSlab_move hR hu
  | newSlab slab size =>
    obtain ⟨i, c, k, rfl, rfl, hu⟩ := hok
    exact newSlab_move hR hu
  | gAlloc n =>
    obtain ⟨e, he, rfl⟩ := hok
    exact .inl ⟨trivial, gAlloc_move hR he (hdec _ rfl)⟩
  | kfree p =>
    obtain ⟨r, ht⟩ := hfreeing p rfl
    exact .inl ⟨trivial, kfree_move hR ht⟩
  | sFree p =>
    obtain ⟨r, ht⟩ := hfreeing p rfl
    exact .inl ⟨trivial, sFree_move hR ht hok⟩
  | gFree p =>
    obtain ⟨r, ht⟩ := hfreeing p rfl
    exact .inl ⟨trivial, gFree_move hR ht hok⟩
  | ret p r => exact .inl ⟨trivial, s, H, .ret p r, rfl, hR, .ret⟩

end MyOs.Pmm
