import MyOs.Pmm.Heap

/-!
# The critical sections on represented heaps

One lemma for each critical section of `pmm.c`: on a state that represents a
heap it does not fail, the new state represents a heap again, and the blocks
handed out have changed by the expected one.

* `Rep.slabAlloc_slot`, `Rep.sFree_slot` — a slot is taken or given back.
* `Rep.gAlloc_block`, `Rep.gFree_block` — a page run is taken or given back.
* `addSlab_spec`, `Rep.of_grown` — a chain gets a page; `add_slab` fails exactly
  when it got a page and the one it extends is no longer the last.
-/

namespace MyOs.Pmm

open MyOs.Memory MyOs.LinkedList MyOs.FreeChunks

variable {L : Layout} {s : State} {H H' : Heap} {m' : Mem} {i j c k f n e p q r : Nat}
  {nodes : List (Nat × Nat)}

/-! ## Changes of a heap -/

def Heap.setFree (H : Heap) (i : Nat) (nodes : List (Nat × Nat)) : Heap :=
  { H with free := Function.update H.free i nodes }

def Heap.addRun (H : Heap) (f n : Nat) : Heap :=
  { H with use := fun i => if f ≤ i ∧ i < f + n then .block f n else H.use i }

def Heap.delRun (H : Heap) (f n : Nat) : Heap :=
  { H with use := fun i => if f ≤ i ∧ i < f + n then .free else H.use i }

/-- Page `j`, with the free chunks `nodes`, becomes the last page of chain `c`, `k`. -/
def Heap.link (H : Heap) (c k j : Nat) (nodes : List (Nat × Nat)) : Heap where
  use := Function.update H.use j (.slab c k)
  free := Function.update H.free j nodes
  chain := fun c' k' => if c' = c ∧ k' = k then H.chain c k ++ [j] else H.chain c' k'

/-- `H'` has the block `p` of `r` bytes handed out in addition. -/
structure Allots (L : Layout) (H H' : Heap) (p r : Nat) : Prop where
  taken : ∀ q r', Taken L H' q r' ↔ Taken L H q r' ∨ q = p ∧ r' = r
  fresh : ∀ r', ¬ Taken L H p r'

/-- `H'` no longer has the block `p` handed out. -/
def Releases (L : Layout) (H H' : Heap) (p : Nat) : Prop :=
  ∀ q r, Taken L H' q r ↔ Taken L H q r ∧ q ≠ p

/-- `H` and `H'` have the same blocks handed out. -/
def Keeps (L : Layout) (H H' : Heap) : Prop := ∀ q r, Taken L H' q r ↔ Taken L H q r

@[simp] theorem setFree_use : (H.setFree i nodes).use = H.use := rfl

@[simp] theorem setFree_chain : (H.setFree i nodes).chain = H.chain := rfl

theorem setFree_free_self : (H.setFree i nodes).free i = nodes := Function.update_self _ _ _

theorem setFree_free_of_ne (h : j ≠ i) : (H.setFree i nodes).free j = H.free j :=
  Function.update_of_ne h _ _

/-- A slot is handed out exactly when its slab page does not list it as free. -/
theorem taken_slot_iff (hR : Rep L s H) (hu : H.use i = .slab c k) (hslot : Slot (L.page i) k p) :
    Taken L H p r ↔ ¬ Covers (slotSz k) (H.free i) p ∧ r = slotSz k := by
  have hlow := hslot.low'
  have hhigh := hslot.high
  have hpos := slotSz_pos k
  constructor
  · intro ht
    have hr := ht.pos hR
    obtain ⟨j, hj, hj', hcase⟩ := ht.byte hR (le_refl p) (by omega)
    obtain rfl := L.page_unique (i := i) (by omega) (by omega) hj hj'
    rcases hcase with ⟨c', k', hu', -, hnot, hr⟩ | ⟨f, n, hu', -⟩
    · rw [hu] at hu'
      cases hu'
      exact ⟨hnot, hr⟩
    · rw [hu] at hu'
      cases hu'
  · rintro ⟨hnot, rfl⟩
    exact .slot hu hslot hnot

/-! ## Slots -/

/-- A slab page whose free list changes. -/
theorem Rep.setFree (hR : Rep L s H) (hu : H.use i = .slab c k)
    (honly : OnlyIn s.mem m' (L.page i) (L.page i + gpageSz))
    (hnext : Same s.mem m' (L.page i + 8) (L.page i + 16))
    (hsp : SlabPage m' (L.page i) k nodes) :
    Rep L { s with mem := m' } (H.setFree i nodes) := by
  have hlim := L.lim_le
  have htable : ∀ j, j < L.lim → Same s.mem m' (L.entry j) (L.entry (j + 1)) := fun j hj =>
    honly.same (.inl (L.entry_le_page (by omega) i))
  refine ⟨hR.globals.with_mem m' s.gLock, hR.gLock, hR.starts.of_same hR.globals ?_, ?_, ?_,
    hR.junk, ?_, hR.mem_chain, ?_⟩
  · intro j hj
    have hle := L.nMeta_le
    rw [← Nat.add_zero (L.entry j)]
    exact load_entry (htable j (by omega)) (by omega)
  · exact fun j hj => (hR.entry j hj).of_same (htable j hj)
  · intro j f n hj
    obtain ⟨hfj, hjf, hrun⟩ := hR.run j f n hj
    exact ⟨hfj, hjf, hrun.pos, hrun.le, hrun.first, hrun.last, hrun.aligned, hrun.all⟩
  · intro j c' k' hj
    obtain ⟨hlt, hk', hpage⟩ := hR.slab j c' k' hj
    refine ⟨hlt, hk', ?_⟩
    by_cases hji : j = i
    · subst hji
      rw [setFree_use, hu] at hj
      cases hj
      rw [setFree_free_self]
      exact hsp
    · rw [setFree_free_of_ne hji]
      have := L.page_apart hji
      exact hpage.of_same (honly.same (by omega))
  · intro c' k' hne
    refine (hR.chain c' k' hne).congr fun a ha => ?_
    obtain ⟨j, -, rfl⟩ := List.mem_map.1 ha
    refine next_of_same ?_
    by_cases hji : j = i
    · rw [hji]
      exact hnext
    · have hg : gpageSz = 65536 := rfl
      have := L.page_apart hji
      exact honly.same (by omega)

/-- Blocks elsewhere do not see the free list of a slab page. -/
theorem taken_setFree_of_not_slot (hu : H.use i = .slab c k) (h : ¬ Slot (L.page i) k q) :
    Taken L (H.setFree i nodes) q r ↔ Taken L H q r := by
  -- a slot of another page keeps its free list, a run has none
  have hother : ∀ j c' k', H.use j = .slab c' k' → Slot (L.page j) k' q → j ≠ i := by
    rintro j c' k' hj hslot rfl
    rw [hu] at hj
    cases hj
    exact h hslot
  constructor
  · intro ht
    cases ht with
    | @slot j c' k' _ hj hslot hnot =>
      rw [setFree_free_of_ne (hother j c' k' hj hslot)] at hnot
      exact .slot hj hslot hnot
    | run hf => exact .run hf
  · intro ht
    cases ht with
    | @slot j c' k' _ hj hslot hnot =>
      have hfree : (H.setFree i nodes).free j = H.free j :=
        setFree_free_of_ne (hother j c' k' hj hslot)
      rw [← hfree] at hnot
      exact .slot hj hslot hnot
    | run hf => exact .run hf

/-- **`slab_alloc`**: the page has no free slot, or its first one is handed out. -/
theorem Rep.slabAlloc_slot (hR : Rep L s H) (hu : H.use i = .slab c k) :
    (H.free i = [] ∧ slabAlloc s (L.page i) (slotSz k) = .ok (s, 0)) ∨
      ∃ p n l m', H.free i = (p, n) :: l ∧
        slabAlloc s (L.page i) (slotSz k) = .ok ({ s with mem := m' }, p) ∧
        Slot (L.page i) k p ∧
        Rep L { s with mem := m' } (H.setFree i (pop (slotSz k) (H.free i))) ∧
        Allots L H (H.setFree i (pop (slotSz k) (H.free i))) p (slotSz k) := by
  obtain ⟨hi, hk, hsp⟩ := hR.slab i c k hu
  have hend := L.page_end hi
  match hfree : H.free i, hsp with
  | [], hsp => exact .inl ⟨rfl, slabAlloc_nil hsp⟩
  | (a, n) :: l, hsp =>
    obtain ⟨m', hrun, hsp', honly, hnext⟩ := slabAlloc_cons hk hsp (by omega)
    have hR' := hR.setFree hu honly hnext hsp'
    -- the first slot of the first chunk
    have hslot : Slot (L.page i) k a := by
      obtain ⟨hlo, hdvd, -, -, hhi⟩ := hsp.chunks.each (a, n) List.mem_cons_self
      have hle := hsp.chunks.le_length (c := (a, n)) List.mem_cons_self
      simp only at hlo hdvd hhi hle
      exact ⟨hlo, by omega, hdvd⟩
    have hcov : Covers (slotSz k) (H.free i) a := by
      have hle := hsp.chunks.le_length (c := (a, n)) List.mem_cons_self
      rw [hfree]
      exact covers_cons.2 (.inl ⟨le_refl a, by simp only at hle; omega⟩)
    refine .inr ⟨a, n, l, m', rfl, hrun, hslot, hR', fun q r' => ?_, fun r' ht => ?_⟩
    · by_cases hq : Slot (L.page i) k q
      · rw [taken_slot_iff hR' hu hq, taken_slot_iff hR hu hq, setFree_free_self, hfree,
          covers_pop hsp.chunks (slotSz_pos k) hq.dvd]
        tauto
      · rw [taken_setFree_of_not_slot hu hq]
        constructor
        · exact .inl
        · rintro (ht | ⟨rfl, -⟩)
          · exact ht
          · exact absurd hslot hq
    · exact ((taken_slot_iff hR hu hslot).1 ht).1 hcov

/-- **`S_free`**: a slot that is handed out is given back. -/
theorem Rep.sFree_slot (hR : Rep L s H) (hu : H.use i = .slab c k) (hslot : Slot (L.page i) k p)
    (hnot : ¬ Covers (slotSz k) (H.free i) p) :
    ∃ m' nodes, sFree s p = .ok { s with mem := m' } ∧ nodes ≠ [] ∧
      Rep L { s with mem := m' } (H.setFree i nodes) ∧ Releases L H (H.setFree i nodes) p := by
  obtain ⟨hi, hk, hsp⟩ := hR.slab i c k hu
  have hend := L.page_end hi
  obtain ⟨m', l₁, l₂, hsplit, hrun, hsp', honly, hnext⟩ :=
    sFree_spec (L.page_dvd i) (by omega) hslot hsp hnot
  have hR' := hR.setFree hu honly hnext hsp'
  refine ⟨m', _, hrun, by simp, hR', fun q r => ?_⟩
  by_cases hq : Slot (L.page i) k q
  · rw [taken_slot_iff hR' hu hq, taken_slot_iff hR hu hq, setFree_free_self, covers_insert, hsplit]
    tauto
  · rw [taken_setFree_of_not_slot hu hq]
    constructor
    · exact fun ht => ⟨ht, fun hqp => hq (hqp ▸ hslot)⟩
    · exact fun ht => ht.1

/-! ## Page runs -/

/-- All pages of the run are free. -/
def FreeRun (H : Heap) (c n : Nat) : Prop := ∀ i, i < n → H.use (c + i) = .free

/-- The scan of `G_alloc` comes to an end within the described entries: a
candidate that reaches behind them has an allocated page before, unless the scan
stops at an earlier one. -/
def Decided (L : Layout) (s : State) (n : Nat) : Prop :=
  ∀ c, c < L.nMeta → L.Aligned n c → (∀ d, d < c → L.Aligned n d → ¬ Free s d n) →
    L.lim < c + n → ∃ i, i < n ∧ c + i < L.lim ∧ s.isAlloc (c + i) = true

/-- With 255 described entries behind the managed ones no candidate reaches further. -/
theorem decided_of_lim (h : L.nMeta + 255 ≤ L.lim) (hn : n ≤ 256) : Decided L s n :=
  fun c hc _ _ hlim => by omega

/-- A single page is always described. -/
theorem decided_one : Decided L s 1 := fun c hc _ _ hlim => by
  have := L.nMeta_le
  omega

/-- A table change within a run of entries, with the heap's use of these pages. -/
theorem Rep.with_use (hR : Rep L s H) (hfree : H'.free = H.free) (hchain : H'.chain = H.chain)
    (hlast : c + n ≤ L.lim) (honly : OnlyIn s.mem m' (L.entry c) (L.entry (c + n)))
    (hstart : ∀ i, i < n → load m' (L.entry (c + i)) 8 = load s.mem (L.entry (c + i)) 8)
    (hentry : ∀ i, i < n → EntryOk L m' (c + i) (H'.use (c + i)))
    (hsame : ∀ i, i < c ∨ c + n ≤ i → H'.use i = H.use i)
    (hslab : ∀ i cpu k, H'.use i = .slab cpu k ↔ H.use i = .slab cpu k)
    (hrun : ∀ i f n', H'.use i = .block f n' → f ≤ i ∧ i < f + n' ∧ Run L H' f n')
    (hjunk : ∀ i, H'.use i = .junk → L.nMeta ≤ i) :
    Rep L { s with mem := m' } H' := by
  have hlim := L.lim_le
  have hbase : L.entry (c + n) ≤ L.base := by
    have := L.entry_le_page (i := c + n) (by omega) 0
    unfold Layout.page at this
    omega
  have htable : ∀ j, j < c ∨ c + n ≤ j → Same s.mem m' (L.entry j) (L.entry (j + 1)) := by
    intro j hj
    refine honly.same ?_
    rw [L.entry_succ]
    rcases hj with hj | hj
    · exact .inl (L.entry_lt hj)
    · rcases Nat.eq_or_lt_of_le hj with rfl | hlt
      · exact .inr (le_refl _)
      · have := L.entry_lt hlt
        exact .inr (by omega)
  have hpages : ∀ j, Same s.mem m' (L.page j) (L.page j + gpageSz) := fun j =>
    honly.same (.inr (by unfold Layout.page; omega))
  refine ⟨hR.globals.with_mem m' s.gLock, hR.gLock, hR.starts.of_same hR.globals ?_, ?_, hrun,
    hjunk, ?_, ?_, ?_⟩
  · intro j hj
    by_cases hin : c ≤ j ∧ j < c + n
    · obtain ⟨d, rfl⟩ := Nat.exists_eq_add_of_le hin.1
      exact hstart d (by omega)
    · rw [← Nat.add_zero (L.entry j)]
      exact load_entry (htable j (by omega)) (by omega)
  · intro j hj
    by_cases hin : c ≤ j ∧ j < c + n
    · obtain ⟨d, rfl⟩ := Nat.exists_eq_add_of_le hin.1
      exact hentry d (by omega)
    · rw [hsame j (by omega)]
      exact (hR.entry j hj).of_same (htable j (by omega))
  · intro j c' k' hj
    obtain ⟨hlt, hk', hpage⟩ := hR.slab j c' k' ((hslab j c' k').1 hj)
    rw [hfree]
    exact ⟨hlt, hk', hpage.of_same (hpages j)⟩
  · rw [hchain]
    exact fun c' k' j => (hR.mem_chain c' k' j).trans (hslab j c' k').symm
  · rw [hchain]
    intro c' k' hne
    refine (hR.chain c' k' hne).congr fun a ha => ?_
    obtain ⟨j, -, rfl⟩ := List.mem_map.1 ha
    have hg : gpageSz = 65536 := rfl
    exact next_of_same ((hpages j).sub (by omega) (by omega))

/-- Marking a free run hands it out. -/
theorem Rep.addRun (hR : Rep L s H) (hpos : 0 < n) (hn : n ≤ 256) (hc : c < L.nMeta)
    (hlast : c + n ≤ L.lim) (hal : L.Aligned n c) (hfree : FreeRun H c n)
    (honly : OnlyIn s.mem m' (L.entry c) (L.entry (c + n)))
    (hmark : ∀ i, i < n → Marked L false (L.page (c + n)) s.mem m' (c + i)) :
    Rep L { s with mem := m' } (H.addRun c n) ∧
      Allots L H (H.addRun c n) (L.page c) (n * gpageSz) := by
  have hin : ∀ i, c ≤ i → i < c + n → H.use i = .free := fun i hi hi' => by
    obtain ⟨d, rfl⟩ := Nat.exists_eq_add_of_le hi
    exact hfree d (by omega)
  have hnew : ∀ i, c ≤ i → i < c + n → (H.addRun c n).use i = .block c n :=
    fun i hi hi' => if_pos ⟨hi, hi'⟩
  have hold : ∀ i, ¬ (c ≤ i ∧ i < c + n) → (H.addRun c n).use i = H.use i := fun i hi => if_neg hi
  -- what was in use stays, and nothing else but the run is new
  have hkeep : ∀ i u, H.use i = u → u ≠ .free → (H.addRun c n).use i = u := by
    intro i u hu hne
    rw [hold i fun h => hne (hu ▸ hin i h.1 h.2)]
    exact hu
  have hback : ∀ i u, (H.addRun c n).use i = u → u ≠ .block c n → H.use i = u := by
    intro i u hu hne
    by_cases hi : c ≤ i ∧ i < c + n
    · rw [hnew i hi.1 hi.2] at hu
      exact absurd hu.symm hne
    · rw [hold i hi] at hu
      exact hu
  constructor
  · refine hR.with_use rfl rfl hlast honly (fun i hi => (hmark i hi).start) (fun i hi => ?_)
      (fun i hi => hold i (by omega)) (fun i cpu k => ?_) (fun i f n' hi => ?_)
      (fun i hi => hR.junk i (hback i _ hi (by simp)))
    · have hm := hmark i hi
      rw [hnew (c + i) (by omega) (by omega)]
      refine ⟨by rw [hm.isAlloc]; decide, ?_, hm.fin⟩
      rw [hm.isSlab]
      rfl
    · exact ⟨fun hi => hback i _ hi (by simp), fun hi => hkeep i _ hi (by simp)⟩
    · by_cases hci : c ≤ i ∧ i < c + n
      · rw [hnew i hci.1 hci.2] at hi
        cases hi
        exact ⟨hci.1, hci.2, hpos, hn, hc, hlast, hal, hnew⟩
      · rw [hold i hci] at hi
        obtain ⟨hfi, hif, hrun⟩ := hR.run i f n' hi
        exact ⟨hfi, hif, hrun.pos, hrun.le, hrun.first, hrun.last, hrun.aligned,
          fun j hj hj' => hkeep j _ (hrun.all j hj hj') (by simp)⟩
  · refine ⟨fun q r' => ⟨fun ht => ?_, fun ht => ?_⟩, fun r' ht => ?_⟩
    · cases ht with
      | @slot j c' k' _ hj hslot hnot => exact .inl (.slot (hback j _ hj (by simp)) hslot hnot)
      | @run f n' hf =>
        by_cases hfn : PageUse.block f n' = .block c n
        · cases hfn
          exact .inr ⟨rfl, rfl⟩
        · exact .inl (.run (hback f _ hf hfn))
    · rcases ht with ht | ⟨rfl, rfl⟩
      · cases ht with
        | @slot j c' k' _ hj hslot hnot =>
          exact .slot (hkeep j _ hj (by simp)) hslot hnot
        | @run f n' hf => exact .run (hkeep f _ hf (by simp))
      · exact .run (hnew c (le_refl c) (by omega))
    · obtain ⟨j, hj, hj', hcase⟩ := ht.byte hR (le_refl _) (by have := ht.pos hR; omega)
      have hg : gpageSz = 65536 := rfl
      obtain rfl := L.page_unique (le_refl (L.page c)) (by omega) hj hj'
      rcases hcase with ⟨c', k', hu, -⟩ | ⟨f, n', hu, -⟩ <;>
        rw [hin c (le_refl c) (by omega)] at hu <;> cases hu

/-- **`G_alloc`** for a block: the first free aligned run is handed out, or there
is none among the described pages. -/
theorem Rep.gAlloc_block (hR : Rep L s H) (he : e ≤ 8) (hdec : Decided L s (2 ^ e)) :
    (∃ f m', f < L.nMeta ∧ f + 2 ^ e ≤ L.lim ∧ L.Aligned (2 ^ e) f ∧ FreeRun H f (2 ^ e) ∧
        (∀ d, d < f → L.Aligned (2 ^ e) d → ¬ FreeRun H d (2 ^ e)) ∧
        gAlloc s (2 ^ e) false = .ok ({ s with mem := m' }, L.page f) ∧
        Rep L { s with mem := m' } (H.addRun f (2 ^ e)) ∧
        Allots L H (H.addRun f (2 ^ e)) (L.page f) (2 ^ e * gpageSz)) ∨
      ((∀ d, d < L.nMeta → d + 2 ^ e ≤ L.lim → L.Aligned (2 ^ e) d → ¬ FreeRun H d (2 ^ e)) ∧
        gAlloc s (2 ^ e) false = .ok (s, 0)) := by
  have hn : 2 ^ e ≤ 256 := Nat.pow_le_pow_right (n := 2) (by omega) he
  have hpos : 0 < 2 ^ e := Nat.two_pow_pos e
  have hle := L.nMeta_le
  rcases gAlloc_spec hR.globals hR.starts hR.gLock he false with
    ⟨f, m', hf, hal, hfree, hfirst, hrun, honly, hmark⟩ | ⟨hnone, hrun⟩
  · -- earlier candidates end before this one starts, so they are described
    have hfirst' : ∀ d, d < f → L.Aligned (2 ^ e) d → ¬ FreeRun H d (2 ^ e) := by
      intro d hd hdal hdfree
      have := hdal.le hal hd
      exact hfirst d hd hdal ((hR.free_iff (by omega)).2 hdfree)
    have hlast : f + 2 ^ e ≤ L.lim := by
      by_contra hcon
      obtain ⟨i, hi, hlim, halloc⟩ := hdec f hf hal hfirst (by omega)
      rw [hfree i hi] at halloc
      cases halloc
    have hfree' : FreeRun H f (2 ^ e) := (hR.free_iff hlast).1 hfree
    obtain ⟨hR', hallot⟩ := hR.addRun hpos hn hf hlast hal hfree' honly hmark
    exact .inl ⟨f, m', hf, hlast, hal, hfree', hfirst', hrun, hR', hallot⟩
  · exact .inr ⟨fun d hd hlast hal hfree => hnone d hd hal ((hR.free_iff hlast).2 hfree), hrun⟩

/-- **`G_free`**: a run that is handed out is given back. -/
theorem Rep.gFree_block (hR : Rep L s H) (hu : H.use f = .block f n) :
    ∃ m', gFree s (L.page f) = .ok { s with mem := m' } ∧
      Rep L { s with mem := m' } (H.delRun f n) ∧ Releases L H (H.delRun f n) (L.page f) := by
  obtain ⟨-, -, hrun⟩ := hR.run f f n hu
  have hfields : ∀ i, i < n → s.isAlloc (f + i) = true ∧ s.isSlab (f + i) = false ∧
      s.metaEnd (f + i) = L.page (f + n) := by
    intro i hi
    have hlast := hrun.last
    have hentry := hR.entry (f + i) (by omega)
    rw [hrun.all (f + i) (by omega) (by omega)] at hentry
    obtain ⟨halloc, hslab, hfin⟩ := hentry
    unfold State.isAlloc State.isSlab State.metaEnd State.get
    rw [hR.globals.metaAt, bne_iff_ne, bne_eq_false_iff_eq]
    exact ⟨halloc, hslab, hfin⟩
  obtain ⟨m', hres, honly, hclear⟩ := gFree_spec hR.globals hR.gLock hrun.first
    (hR.starts f hrun.first) hrun.pos hrun.le hfields
  have hnew : ∀ i, f ≤ i → i < f + n → (H.delRun f n).use i = .free :=
    fun i hi hi' => if_pos ⟨hi, hi'⟩
  have hold : ∀ i, ¬ (f ≤ i ∧ i < f + n) → (H.delRun f n).use i = H.use i := fun i hi => if_neg hi
  -- what is in use and not this run stays
  have hkeep : ∀ i u, H.use i = u → u ≠ .block f n → (H.delRun f n).use i = u := by
    intro i u hu hne
    rw [hold i fun h => hne (hu ▸ hrun.all i h.1 h.2)]
    exact hu
  have hback : ∀ i u, (H.delRun f n).use i = u → u ≠ .free → H.use i = u := by
    intro i u hu hne
    by_cases hi : f ≤ i ∧ i < f + n
    · rw [hnew i hi.1 hi.2] at hu
      exact absurd hu.symm hne
    · rw [hold i hi] at hu
      exact hu
  have hout : ∀ i f' n', (H.delRun f n).use i = .block f' n' → ¬ (f' = f ∧ n' = n) := by
    rintro i f' n' hi ⟨rfl, rfl⟩
    obtain ⟨hfi, hif, -⟩ := hR.run i f' n' (hback i _ hi (by simp))
    rw [hnew i hfi hif] at hi
    cases hi
  refine ⟨m', hres, ?_, fun q r => ⟨fun ht => ?_, fun ht => ?_⟩⟩
  · refine hR.with_use rfl rfl hrun.last honly (fun i hi => (hclear i hi).start) (fun i hi => ?_)
      (fun i hi => hold i (by omega)) (fun i cpu k => ?_) (fun i f' n' hi => ?_)
      (fun i hi => hR.junk i (hback i _ hi (by simp)))
    · rw [hnew (f + i) (by omega) (by omega)]
      exact (hclear i hi).isAlloc
    · exact ⟨fun hi => hback i _ hi (by simp), fun hi => hkeep i _ hi (by simp)⟩
    · have hne := hout i f' n' hi
      obtain ⟨hfi, hif, hrun'⟩ := hR.run i f' n' (hback i _ hi (by simp))
      exact ⟨hfi, hif, hrun'.pos, hrun'.le, hrun'.first, hrun'.last, hrun'.aligned,
        fun j hj hj' => hkeep j _ (hrun'.all j hj hj') (by simpa using hne)⟩
  · cases ht with
    | @slot j c' k' _ hj hslot hnot =>
      have hj' := hback j _ hj (by simp)
      refine ⟨.slot hj' hslot hnot, fun heq => ?_⟩
      have hlow := hslot.low'
      have hhigh := hslot.high
      have hg : gpageSz = 65536 := rfl
      obtain rfl := L.page_unique (x := q) (i := j) (j := f) (by omega)
        (by have := slotSz_pos k'; omega) (by omega) (by omega)
      rw [hu] at hj'
      cases hj'
    | @run f' n' hf =>
      have hne := hout f' f' n' hf
      have hf' := hback f' _ hf (by simp)
      refine ⟨.run hf', fun heq => ?_⟩
      obtain rfl := L.page_inj heq
      rw [hu] at hf'
      cases hf'
      exact hne ⟨rfl, rfl⟩
  · obtain ⟨ht, hne⟩ := ht
    cases ht with
    | @slot j c' k' _ hj hslot hnot => exact .slot (hkeep j _ hj (by simp)) hslot hnot
    | @run f' n' hf =>
      refine .run (hkeep f' _ hf fun heq => hne ?_)
      cases heq
      rfl

/-! ## Growing a chain -/

/-- The new page of a chain has nothing handed out yet. -/
theorem keeps_link (hk : k < slabSize) (hj : j < L.nMeta) (hfree : H.use j = .free) :
    Keeps L H (H.link c k j (fullChunks (L.page j) k)) := by
  have hold : ∀ i, i ≠ j → (H.link c k j (fullChunks (L.page j) k)).use i = H.use i ∧
      (H.link c k j (fullChunks (L.page j) k)).free i = H.free i :=
    fun i hi => ⟨Function.update_of_ne hi _ _, Function.update_of_ne hi _ _⟩
  have hnew : (H.link c k j (fullChunks (L.page j) k)).use j = .slab c k :=
    Function.update_self _ _ _
  have hne : ∀ i u, H.use i = u → u ≠ .free → i ≠ j := by
    rintro i u hu hu' rfl
    exact hu' (hu ▸ hfree)
  intro q r
  constructor
  · intro ht
    cases ht with
    | @slot i c' k' _ hi hslot hnot =>
      by_cases hij : i = j
      · subst hij
        rw [hnew] at hi
        cases hi
        have hfull : (H.link c k i (fullChunks (L.page i) k)).free i = fullChunks (L.page i) k :=
          Function.update_self _ _ _
        rw [hfull] at hnot
        exact absurd (covers_full hk (L.page_dvd i) (L.page_end hj) hslot) hnot
      · rw [(hold i hij).1] at hi
        rw [(hold i hij).2] at hnot
        exact .slot hi hslot hnot
    | @run f n hf =>
      by_cases hfj : f = j
      · subst hfj
        rw [hnew] at hf
        cases hf
      · rw [(hold f hfj).1] at hf
        exact .run hf
  · intro ht
    cases ht with
    | @slot i c' k' _ hi hslot hnot =>
      have hij := hne i _ hi (by simp)
      exact .slot ((hold i hij).1.trans hi) hslot (by rwa [(hold i hij).2])
    | @run f n hf => exact .run ((hold f (hne f _ hf (by simp))).1.trans hf)

/-- A free page becomes the last slab page of a chain. -/
theorem Rep.link {s' : State} (hR : Rep L s H) (hk : k < slabSize) (hj : j < L.nMeta)
    (hfree : H.use j = .free) (hG : Globals L s') (hlock : s'.gLock = 0)
    (htable : ∀ i, i < L.lim → i ≠ j → Same s.mem s'.mem (L.entry i) (L.entry (i + 1)))
    (hmark : Marked L true (L.page (j + 1)) s.mem s'.mem j)
    (hpages : ∀ i c' k', H.use i = .slab c' k' → SlabPage s'.mem (L.page i) k' (H.free i))
    (hnew : SlabPage s'.mem (L.page j) k nodes)
    (hchain : ∀ c' k', (H.link c k j nodes).chain c' k' ≠ [] →
      Linked s'.next 0 (s'.slab c' k') (((H.link c k j nodes).chain c' k').map L.page)) :
    Rep L s' (H.link c k j nodes) := by
  have hle := L.nMeta_le
  have huse : (H.link c k j nodes).use j = .slab c k := Function.update_self _ _ _
  have hold : ∀ i, i ≠ j → (H.link c k j nodes).use i = H.use i :=
    fun i hi => Function.update_of_ne hi _ _
  have hne : ∀ i u, H.use i = u → u ≠ .free → i ≠ j := by
    rintro i u hu hu' rfl
    exact hu' (hu ▸ hfree)
  refine ⟨hG, hlock, fun i hi => ?_, fun i hi => ?_, fun i f n hi => ?_, fun i hi => ?_,
    fun i c' k' hi => ?_, fun c' k' i => ?_, hchain⟩
  · have hstart := hR.starts i hi
    unfold State.metaStart State.get at hstart ⊢
    rw [hR.globals.metaAt] at hstart
    rw [hG.metaAt, ← hstart]
    by_cases hij : i = j
    · rw [hij]
      exact hmark.start
    · rw [← Nat.add_zero (L.entry i)]
      exact load_entry (htable i (by omega) hij) (by omega)
  · by_cases hij : i = j
    · rw [hij, huse]
      exact ⟨by rw [hmark.isAlloc]; decide, by rw [hmark.isSlab]; decide⟩
    · rw [hold i hij]
      exact (hR.entry i hi).of_same (htable i hi hij)
  · have hij : i ≠ j := by
      rintro rfl
      rw [huse] at hi
      cases hi
    rw [hold i hij] at hi
    obtain ⟨hfi, hif, hrun⟩ := hR.run i f n hi
    refine ⟨hfi, hif, hrun.pos, hrun.le, hrun.first, hrun.last, hrun.aligned, fun d hd hd' => ?_⟩
    have hu := hrun.all d hd hd'
    rw [hold d (hne d _ hu (by simp))]
    exact hu
  · have hij : i ≠ j := by
      rintro rfl
      rw [huse] at hi
      cases hi
    rw [hold i hij] at hi
    exact hR.junk i hi
  · by_cases hij : i = j
    · subst hij
      rw [huse] at hi
      cases hi
      refine ⟨hj, hk, ?_⟩
      rw [show (H.link c k i nodes).free i = nodes from Function.update_self _ _ _]
      exact hnew
    · rw [hold i hij] at hi
      obtain ⟨hlt, hk', -⟩ := hR.slab i c' k' hi
      refine ⟨hlt, hk', ?_⟩
      rw [show (H.link c k j nodes).free i = H.free i from Function.update_of_ne hij _ _]
      exact hpages i c' k' hi
  · by_cases hij : i = j
    · subst hij
      rw [huse]
      by_cases hck : c' = c ∧ k' = k
      · obtain ⟨rfl, rfl⟩ := hck
        simp [Heap.link]
      · have hnot : i ∉ H.chain c' k' := fun hmem => by
          rw [hR.mem_chain, hfree] at hmem
          cases hmem
        simp only [Heap.link, if_neg hck]
        constructor
        · exact fun hmem => absurd hmem hnot
        · intro heq
          cases heq
          exact absurd ⟨rfl, rfl⟩ hck
    · rw [hold i hij, ← hR.mem_chain]
      by_cases hck : c' = c ∧ k' = k
      · obtain ⟨rfl, rfl⟩ := hck
        simp [Heap.link, hij]
      · simp only [Heap.link, if_neg hck]

/-- The chain whose last page gets a successor. -/
theorem linked_link (hR : Rep L s H) (hu : H.use i = .slab c k) (hlast : s.next (L.page i) = 0)
    (next' : Nat → Nat) (hnew : next' (L.page i) = L.page j)
    (hend : next' (L.page j) = 0)
    (hsame : ∀ d, H.use d ≠ .free → d ≠ i → next' (L.page d) = s.next (L.page d)) {c' k' : Nat}
    (hne : (H.link c k j nodes).chain c' k' ≠ []) :
    Linked next' 0 (s.slab c' k') (((H.link c k j nodes).chain c' k').map L.page) := by
  have hfresh : ∀ d c₀ k₀, d ∈ H.chain c₀ k₀ → H.use d ≠ .free ∧ H.use d = .slab c₀ k₀ :=
    fun d c₀ k₀ hd => by
      have hd' := (hR.mem_chain c₀ k₀ d).1 hd
      exact ⟨by rw [hd']; simp, hd'⟩
  by_cases hck : c' = c ∧ k' = k
  · obtain ⟨rfl, rfl⟩ := hck
    have hmem : i ∈ H.chain c' k' := (hR.mem_chain c' k' i).2 hu
    have hold := hR.chain c' k' (List.ne_nil_of_mem hmem)
    have hsplit : (H.link c' k' j nodes).chain c' k' = H.chain c' k' ++ [j] := by simp [Heap.link]
    rw [hsplit]
    match hch : H.chain c' k', hmem, hold with
    | d :: l, hmem, hold =>
      rw [List.map_cons] at hold
      obtain ⟨hstart, hpos, htail⟩ := id hold
      rw [hstart] at hold ⊢
      -- the extended page is the last of the list
      have hlast' : L.page i = (l.map L.page).getLastD (L.page d) :=
        hold.eq_getLastD (List.mem_map_of_mem hmem) hlast
      rw [List.cons_append, List.map_cons, List.map_append, List.map_cons, List.map_nil]
      refine ⟨rfl, hpos, Linked.insert (by rwa [List.append_nil]) ?_ (L.page_pos j).ne'
        (by rw [← hlast', hnew]) hend fun a ha hne => ?_⟩
      · rw [List.append_nil]
        exact hold.nodup
      · rw [List.append_nil, ← List.map_cons] at ha
        obtain ⟨d', hd', rfl⟩ := List.mem_map.1 ha
        refine hsame d' (hfresh d' c' k' (hch ▸ hd')).1 fun heq => hne ?_
        rw [heq, hlast']
  · have hother : (H.link c k j nodes).chain c' k' = H.chain c' k' := by simp [Heap.link, hck]
    rw [hother] at hne ⊢
    refine (hR.chain c' k' hne).congr fun a ha => ?_
    obtain ⟨d, hd, rfl⟩ := List.mem_map.1 ha
    obtain ⟨hused, hd'⟩ := hfresh d c' k' hd
    refine hsame d hused fun heq => hck ?_
    rw [heq, hu] at hd'
    cases hd'
    exact ⟨rfl, rfl⟩

/-- Memory after page `j` has been made the successor of page `i`: the entry and
the page `j` are new, page `i` has another `next`, all else is as before. -/
structure Grown (L : Layout) (m m' : Mem) (i j k : Nat) : Prop where
  same : ∀ lo hi, hi ≤ L.entry j ∨ L.entry (j + 1) ≤ lo →
    hi ≤ L.page j ∨ L.page j + gpageSz ≤ lo → hi ≤ L.page i + 8 ∨ L.page i + 16 ≤ lo →
    hi ≤ L.page i + 24 ∨ L.page i + 28 ≤ lo → Same m m' lo hi
  mark : Marked L true (L.page (j + 1)) m m' j
  lk : load m' (L.page i + 24) 4 = 0
  link : load m' (L.page i + 8) 8 = L.page j
  fresh : SlabPage m' (L.page j) k (fullChunks (L.page j) k)
  last : load m' (L.page j + 8) 8 = 0

/-- A described entry is off every page. -/
theorem Layout.entry_le (L : Layout) (hj : j < L.lim) (i : Nat) : L.entry (j + 1) ≤ L.page i := by
  have hlim := L.lim_le
  exact L.entry_le_page (by omega) i

/-- What `add_slab` returns, and the memory it leaves. -/
theorem addSlab_spec (hR : Rep L s H) (hu : H.use i = .slab c k) :
    ((∀ d, d < L.nMeta → H.use d ≠ .free) ∧ addSlab s (L.page i) = .ok (s, 0)) ∨
      ∃ j, j < L.nMeta ∧ H.use j = .free ∧
        ((s.next (L.page i) ≠ 0 ∧ addSlab s (L.page i) = .error .assertion) ∨
          (s.next (L.page i) = 0 ∧ ∃ m',
            addSlab s (L.page i) = .ok ({ s with mem := m' }, L.page j) ∧
            Grown L s.mem m' i j k)) := by
  obtain ⟨hi, hk, hsp⟩ := hR.slab i c k hu
  have hle := L.nMeta_le
  have hg : gpageSz = 65536 := rfl
  have hipos := L.page_pos i
  -- `add_slab` holds the lock of page `i` while it asks for a page
  obtain ⟨s₁, hs₁⟩ : ∃ s₁, s₁ = s.setLk (L.page i) 1 := ⟨_, rfl⟩
  have hmem₁ : s₁.mem = store s.mem (L.page i + 24) 4 1 := by rw [hs₁]; rfl
  have hG₁ : Globals L s₁ := by rw [hs₁]; exact hR.globals.with_mem _ s.gLock
  have htable₁ : ∀ d, d < L.lim → Same s.mem s₁.mem (L.entry d) (L.entry (d + 1)) := fun d hd => by
    have := L.entry_le hd i
    rw [hmem₁]
    exact same_store (.inr (by omega))
  have hS₁ : Starts L s₁ := by
    rw [hs₁]
    refine hR.starts.of_same hR.globals fun d hd => ?_
    rw [← Nat.add_zero (L.entry d), ← hmem₁]
    exact load_entry (htable₁ d (by omega)) (by omega)
  have halloc₁ : ∀ d, d < L.lim → s₁.isAlloc d = s.isAlloc d := fun d hd => by
    unfold State.isAlloc State.get
    rw [hG₁.metaAt, hR.globals.metaAt, load_entry (htable₁ d hd) (by omega)]
  have hgLock₁ : s₁.gLock = 0 := by rw [hs₁, gLock_setLk, hR.gLock]
  have hlock : spinLock s (L.page i) = .ok s₁ := by rw [hs₁]; exact spinLock_free hsp.lk
  have hunlock : spinUnlock s₁ (L.page i) = s := by rw [hs₁]; exact spinUnlock_setLk hsp.lk
  rcases gAlloc_one hG₁ hS₁ hgLock₁ with
    ⟨j, m₂, hj, hjfree, -, hrun, honly₂, hmark₂⟩ | ⟨hnone, hrun⟩
  · have hjuse : H.use j = .free := by
      rw [halloc₁ j (by omega)] at hjfree
      exact (hR.isAlloc_iff (by omega)).1 hjfree
    have hij : i ≠ j := by
      rintro rfl
      rw [hu] at hjuse
      cases hjuse
    have hapart := L.page_apart hij
    have hjpos := L.page_pos j
    have hjend := L.page_end hj
    have hjentry := L.entry_le (j := j) (by omega) i
    have hjentry' := L.entry_le (j := j) (by omega) j
    -- the new page is initialised with the slot size of page `i`
    have hsz : State.sz { s₁ with mem := m₂ } (L.page i) = slotSz k := by
      have hload : load m₂ (L.page i + 16) 8 = load s₁.mem (L.page i + 16) 8 :=
        (honly₂.same (.inr (by omega))).load
      rw [hmem₁, load_store_of_disjoint (by omega)] at hload
      exact hload.trans hsp.sz
    obtain ⟨m₃, hinit, hsp₃, hnext₃, honly₃⟩ :=
      slabInit_spec (s := { s₁ with mem := m₂ }) hk (L.page_dvd j) hjpos hjend
    -- the bytes that stay as they were up to here
    have hsame₃ : ∀ lo hi, hi ≤ L.entry j ∨ L.entry (j + 1) ≤ lo →
        hi ≤ L.page j ∨ L.page j + gpageSz ≤ lo →
        hi ≤ L.page i + 24 ∨ L.page i + 28 ≤ lo → Same s.mem m₃ lo hi := by
      intro lo hi h₁ h₂ h₃
      have hfirst : Same s.mem s₁.mem lo hi := by
        rw [hmem₁]
        exact same_store (by omega)
      exact (hfirst.trans (honly₂.same h₁)).trans (honly₃.same h₂)
    have hnext : State.next { s₁ with mem := m₃ } (L.page i) = s.next (L.page i) :=
      (hsame₃ _ _ (by omega) (by omega) (by omega)).load
    have hsteps : addSlab s (L.page i) =
        check (s.next (L.page i) = 0) >>= fun _ =>
          .ok (spinUnlock (State.setNext { s₁ with mem := m₃ } (L.page i) (L.page j)) (L.page i),
            L.page j) := by
      unfold addSlab
      rw [check_pos hipos.ne', ok_bind, hlock, ok_bind, hrun, ok_bind]
      simp only [if_neg hjpos.ne', hsz, hinit, ok_bind, hnext]
      rfl
    refine .inr ⟨j, hj, hjuse, ?_⟩
    by_cases hlast : s.next (L.page i) = 0
    · -- the link and the unlocking
      obtain ⟨m', hm'⟩ : ∃ m',
          m' = store (store m₃ (L.page i + 8) 8 (L.page j)) (L.page i + 24) 4 0 :=
        ⟨_, rfl⟩
      have hsame : ∀ lo hi, hi ≤ L.page i + 8 ∨ L.page i + 16 ≤ lo →
          hi ≤ L.page i + 24 ∨ L.page i + 28 ≤ lo → Same m₃ m' lo hi := by
        intro lo hi h₁ h₂
        rw [hm']
        exact (same_store (by omega)).trans (same_store (by omega))
      have hkeep : Same m₂ m' (L.entry j) (L.entry (j + 1)) :=
        (honly₃.same (.inl (by omega))).trans (hsame _ _ (by omega) (by omega))
      refine .inr ⟨hlast, m', ?_, ⟨fun lo hi h₁ h₂ h₃ h₄ => ?_, ⟨?_, ?_, ?_, ?_⟩, ?_, ?_, ?_, ?_⟩⟩
      · rw [hsteps, check_pos hlast, ok_bind, hm', hs₁, spinUnlock_setNext]
      · exact (hsame₃ lo hi h₁ h₂ h₄).trans (hsame lo hi h₃ h₄)
      · rw [load_entry hkeep (by omega), hmark₂.isAlloc]
      · rw [load_entry hkeep (by omega), hmark₂.isSlab]
      · rw [load_entry hkeep (by omega), hmark₂.fin]
      · have hstart := hmark₂.start
        rw [← Nat.add_zero (L.entry j)] at hstart ⊢
        rw [load_entry hkeep (by omega), hstart, load_entry (htable₁ j (by omega)) (by omega)]
      · rw [hm']
        exact load_store (by decide)
      · rw [hm', load_store_of_disjoint (by omega)]
        exact load_store (by omega)
      · exact hsp₃.of_same (hsame _ _ (by omega) (by omega))
      · rw [(hsame _ _ (by omega) (by omega)).load, hnext₃]
    · exact .inl ⟨hlast, by rw [hsteps, check_neg hlast, error_bind]⟩
  · refine .inl ⟨fun d hd hfree => ?_, ?_⟩
    · have hd' := (hR.isAlloc_iff (i := d) (by omega)).2 hfree
      rw [← halloc₁ d (by omega), hnone d hd] at hd'
      cases hd'
    · unfold addSlab
      rw [check_pos hipos.ne', ok_bind, hlock, ok_bind, hrun, ok_bind]
      simp only [hunlock]
      rfl

/-- A grown chain is represented. -/
theorem Rep.of_grown (hR : Rep L s H) (hu : H.use i = .slab c k) (hj : j < L.nMeta)
    (hfree : H.use j = .free) (hlast : s.next (L.page i) = 0) (hgrown : Grown L s.mem m' i j k) :
    Rep L { s with mem := m' } (H.link c k j (fullChunks (L.page j) k)) := by
  obtain ⟨hi, hk, -⟩ := hR.slab i c k hu
  have hle := L.nMeta_le
  have hg : gpageSz = 65536 := rfl
  -- a page in use other than `i` is as before
  have hother : ∀ d, H.use d ≠ .free → d ≠ i → Same s.mem m' (L.page d) (L.page d + gpageSz) := by
    intro d hd hdi
    have hdj : d ≠ j := by
      rintro rfl
      exact hd hfree
    have hdj' := L.page_apart hdj
    have hdi' := L.page_apart hdi
    have hdentry := L.entry_le (j := j) (by omega) d
    exact hgrown.same _ _ (by omega) (by omega) (by omega) (by omega)
  refine hR.link hk hj hfree (hR.globals.with_mem _ s.gLock) hR.gLock
    (fun d hd hdj => ?_) hgrown.mark (fun d c' k' hd => ?_) hgrown.fresh fun c' k' hne => ?_
  · have hdi := L.entry_le hd i
    have hdj' := L.entry_le hd j
    have hor : L.entry (d + 1) ≤ L.entry j ∨ L.entry (j + 1) ≤ L.entry d := by
      rw [L.entry_succ, L.entry_succ]
      rcases Nat.lt_or_gt_of_ne hdj with hlt | hlt
      · exact .inl (L.entry_lt hlt)
      · exact .inr (L.entry_lt hlt)
    exact hgrown.same _ _ hor (by omega) (by omega) (by omega)
  · obtain ⟨-, -, hspd⟩ := hR.slab d c' k' hd
    by_cases hdi : d = i
    · subst hdi
      have hdj : d ≠ j := by
        rintro rfl
        rw [hfree] at hd
        cases hd
      have hdj' := L.page_apart hdj
      have hdentry := L.entry_le (j := j) (by omega) d
      refine hspd.frame ?_ ?_ hgrown.lk fun x hx => ?_
      · exact hgrown.same _ _ (by omega) (by omega) (by omega) (by omega)
      · exact hgrown.same _ _ (by omega) (by omega) (by omega) (by omega)
      · have := hspd.node hx
        exact hgrown.same _ _ (by omega) (by omega) (by omega) (by omega)
    · exact hspd.of_same (hother d (by rw [hd]; simp) hdi)
  · refine linked_link hR hu hlast (State.next { s with mem := m' }) hgrown.link hgrown.last
      (fun d hd hdi => ?_) hne
    exact next_of_same ((hother d hd hdi).sub (by omega) (by omega))

end MyOs.Pmm
