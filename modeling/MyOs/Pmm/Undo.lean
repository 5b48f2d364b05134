import MyOs.Pmm.FreeList
import MyOs.Pmm.PageMap

/-!
# Freeing undoes allocating

A block that is handed out and given back at once leaves the chunk it was carved from
split, and maybe a slab page more. The free pages and the free slots do not see the
split.

* `Restored` — the free pages, the chains and the free slots are those of before, up to
  one new slab page.
* `kfree_undoes_kalloc` — **`kfree` undoes `kalloc`**, and the next request of the class
  gets the same block.
-/

namespace MyOs.Pmm

open MyOs.Memory MyOs.LinkedList MyOs.FreeChunks MyOs.Transition

-- ---------------------------------------------------------------------------
-- Up to the split of a chunk
-- ---------------------------------------------------------------------------

/-- The addresses of the free managed pages. -/
def State.freePages (s : State) : Set Nat :=
  {a | ∃ i, i < s.nMeta ∧ s.isAlloc i = false ∧ a = s.pageAddr i}

/-- **Free pages, chains and free slots are restored.** `new` is the page that the chain
`Slab[cpu][k]` has got, if any. -/
structure Restored (P : Platform) (s s' : State) (cpu k : Nat) (new : Option Nat) : Prop where
  isFree : ∀ b ∈ new, b ∈ s.freePages
  freePages : s'.freePages = s.freePages \ {b | b ∈ new}
  chain : ∀ c j l, c < P.cpuCount → j < slabSize → Linked s.next 0 (s.slab c j) l →
    Linked s'.next 0 (s'.slab c j) (if c = cpu ∧ j = k then l ++ new.toList else l)
  freeSlots : ∀ c j b, c < P.cpuCount → j < slabSize → OnChain s c j b →
    freeSlots s' b j = freeSlots s b j
  fresh : ∀ b ∈ new, Pmm.freeSlots s' b k = {q | Slot b k q}

/-- Two heaps with the same pages, chains and free slots. -/
structure Heap.Alike (L : Layout) (H H' : Heap) : Prop where
  use : H'.use = H.use
  chain : H'.chain = H.chain
  covers : ∀ i c k q, H.use i = .slab c k → Slot (L.page i) k q →
    (Covers (slotSz k) (H'.free i) q ↔ Covers (slotSz k) (H.free i) q)

variable {P : Platform} {L : Layout} {S : Seq} {s s' s₁ : State} {H H' H₁ H₂ : Heap}
  {c k i j p q r cpu size n : Nat} {l : List (Nat × Nat)} {res : Result (State × Nat)}

theorem Keeps.alike (hR : Rep L s H) (hR' : Rep L s' H') (h : Keeps L H H')
    (huse : H'.use = H.use) (hchain : H'.chain = H.chain) : H.Alike L H' := by
  refine ⟨huse, hchain, fun i c k q hu hslot => ?_⟩
  have hu' : H'.use i = .slab c k := by rw [huse, hu]
  have hkeep := h q (slotSz k)
  rw [taken_slot_iff hR' hu' hslot, taken_slot_iff hR hu hslot] at hkeep
  exact not_iff_not.1 ((and_iff_left rfl).symm.trans (hkeep.trans (and_iff_left rfl)))

/-- A block that is handed out and given back. -/
theorem Allots.keeps (h : Allots L H H₁ p r) (hrel : Releases L H₁ H₂ p) : Keeps L H H₂ := by
  intro q r'
  rw [hrel q r', h.taken q r']
  constructor
  · rintro ⟨ht | ⟨rfl, -⟩, hne⟩
    · exact ht
    · exact absurd rfl hne
  · intro ht
    exact ⟨.inl ht, fun hq => h.fresh r' (hq ▸ ht)⟩

-- ---------------------------------------------------------------------------
-- The first free slot
-- ---------------------------------------------------------------------------

/-- The first slot of a free list is the least slot it covers. -/
theorem Rep.isLeast_head (hR : Rep L s H) (hu : H.use i = .slab c k)
    (hfree : H.free i = (p, n) :: l) :
    IsLeast {q | Slot (L.page i) k q ∧ Covers (slotSz k) (H.free i) q} p := by
  obtain ⟨-, -, hsp⟩ := hR.slab i c k hu
  have hchunks := hsp.chunks
  rw [hfree] at hchunks ⊢
  obtain ⟨hlo, hdvd, -, -, hhi⟩ := hchunks.each (p, n) List.mem_cons_self
  have hle := hchunks.le_length (c := (p, n)) List.mem_cons_self
  simp only at hlo hdvd hhi hle
  refine ⟨⟨⟨hlo, by omega, hdvd⟩, covers_cons.2 (.inl ⟨le_refl p, by omega⟩)⟩, ?_⟩
  rintro q ⟨-, d, hd, hdq, -⟩
  rcases List.mem_cons.1 hd with rfl | hd
  · exact hdq
  · have := (List.pairwise_cons.1 hchunks.sorted).1 d hd
    simp only at this
    omega

/-- A free list is empty when it covers no slot. -/
theorem Rep.free_eq_nil (hR : Rep L s H) (hu : H.use i = .slab c k)
    (h : ∀ q, Slot (L.page i) k q → ¬ Covers (slotSz k) (H.free i) q) : H.free i = [] := by
  match hfree : H.free i with
  | [] => rfl
  | (p, n) :: l =>
    obtain ⟨⟨hslot, hcov⟩, -⟩ := hR.isLeast_head hu hfree
    exact absurd hcov (h p hslot)

theorem Heap.Alike.free_eq_nil (halike : H.Alike L H') (hR' : Rep L s' H')
    (hu : H.use i = .slab c k) (hfree : H.free i = []) : H'.free i = [] := by
  have hu' : H'.use i = .slab c k := by rw [halike.use, hu]
  refine hR'.free_eq_nil hu' fun q hslot hcov => ?_
  rw [halike.covers i c k q hu hslot, hfree] at hcov
  exact not_covers_nil hcov

/-- The first free slot of a chain is the same. -/
theorem FirstFree.alike (h : FirstFree H c k i p) (halike : H.Alike L H') (hR : Rep L s H)
    (hR' : Rep L s' H') : FirstFree H' c k i p := by
  obtain ⟨hne, l₁, l₂, hsplit, hfull⟩ := List.find?_eq_some_iff_append.1 h.page
  obtain ⟨n, l, hfree⟩ := h.slot
  have hmem : ∀ j, j ∈ H.chain c k → H.use j = .slab c k := fun j => (hR.mem_chain c k j).1
  rw [hsplit] at hmem
  have hu := hmem i (by simp)
  have hu' : H'.use i = .slab c k := by rw [halike.use, hu]
  have hleast := hR.isLeast_head hu hfree
  have hsame : {q | Slot (L.page i) k q ∧ Covers (slotSz k) (H'.free i) q} =
      {q | Slot (L.page i) k q ∧ Covers (slotSz k) (H.free i) q} :=
    Set.ext fun q => and_congr_right fun hslot => halike.covers i c k q hu hslot
  match hfree' : H'.free i with
  | [] =>
    rw [← hsame, hfree'] at hleast
    exact absurd hleast.1.2 not_covers_nil
  | (p', n') :: l' =>
    have hleast' := hR'.isLeast_head hu' hfree'
    rw [hsame] at hleast'
    obtain rfl := hleast.unique hleast'
    refine firstFree_of_split (by rw [halike.chain, hsplit]) (fun j hj => ?_) hfree'
    have hnil : H.free j = [] := by simpa using hfull j hj
    exact halike.free_eq_nil hR' (hmem j (by simp [hj])) hnil

theorem FirstFree.unique (h : FirstFree H c k i p) (h' : FirstFree H c k j q) : p = q := by
  have hpage : some i = some j := h.page.symm.trans h'.page
  cases hpage
  obtain ⟨n, l, hfree⟩ := h.slot
  obtain ⟨n', l', hfree'⟩ := h'.slot
  rw [hfree] at hfree'
  cases hfree'
  rfl

/-- With a free slot in the chain it is that one which is handed out. -/
theorem ServesSlot.first (h : ServesSlot P L H c k res) (hfirst : FirstFree H c k i p) :
    ∃ s', res = .ok (s', p) := by
  obtain ⟨s₁, H₁, i', p', m', hoffers, -, -, hfirst', -, -, hres, -⟩ := h
  cases hoffers with
  | here =>
    rw [hfirst.unique hfirst']
    exact ⟨_, hres⟩
  | grown hfull hj hfree =>
    obtain ⟨n, l, hcons⟩ := hfirst.slot
    have hnil := hfull i (List.mem_of_find?_eq_some hfirst.page)
    rw [hcons] at hnil
    cases hnil

-- ---------------------------------------------------------------------------
-- What the state shows of the heap
-- ---------------------------------------------------------------------------

theorem Rep.pageAddr (hR : Rep L s H) (i : Nat) : s.pageAddr i = L.page i := by
  rw [State.pageAddr, hR.globals.gStart, Layout.page]

theorem Rep.freePages (hR : Rep L s H) :
    s.freePages = {a | ∃ i, i < L.nMeta ∧ H.use i = .free ∧ a = L.page i} := by
  have hle := L.nMeta_le
  ext a
  show (∃ i, i < s.nMeta ∧ s.isAlloc i = false ∧ a = s.pageAddr i) ↔ _
  rw [hR.globals.nMeta]
  refine exists_congr fun i => and_congr_right fun hi => ?_
  rw [hR.isAlloc_iff (by omega), hR.pageAddr]

theorem Rep.freeSlots (hR : Rep L s H) (hu : H.use i = .slab c k) :
    Pmm.freeSlots s (L.page i) k =
      {q | Slot (L.page i) k q ∧ Covers (slotSz k) (H.free i) q} :=
  Set.ext fun _ => (hR.slab i c k hu).2.2.mem_freeSlots

/-- The chain is the one of the heap. -/
theorem Rep.linked_iff {m : List Nat} (hR : Rep L s H) (hne : H.chain c k ≠ []) :
    Linked s.next 0 (s.slab c k) m ↔ m = (H.chain c k).map L.page := by
  constructor
  · exact fun h => h.unique (hR.chain c k hne)
  · rintro rfl
    exact hR.chain c k hne

/-- Nothing has been added to the chain. -/
theorem Heap.Alike.restored (halike : H.Alike L H') (hR : Rep L s H) (hR' : Rep L s' H')
    (hch : Chained P H) (cpu k : Nat) : Restored P s s' cpu k none := by
  refine ⟨nofun, ?_, fun c j l hc hj hl => ?_, fun c j b hc hj hon => ?_, nofun⟩
  · rw [hR'.freePages, hR.freePages, halike.use]
    exact Set.ext fun a => ⟨fun ha => ⟨ha, nofun⟩, fun ha => ha.1⟩
  · have hne := (hch c j).2 ⟨hc, hj⟩
    rw [Option.toList_none, List.append_nil, ite_self,
      hR'.linked_iff (by rw [halike.chain]; exact hne), halike.chain]
    exact (hR.linked_iff hne).1 hl
  · obtain ⟨i, rfl, hu⟩ := hon.exists_page hR ((hch c j).2 ⟨hc, hj⟩)
    rw [hR.freeSlots hu, hR'.freeSlots (by rw [halike.use, hu])]
    exact Set.ext fun q => and_congr_right fun hslot => halike.covers i c j q hu hslot

/-- The chain has got page `j`. -/
theorem Heap.Alike.restored_link (halike : (H.link c k j (fullChunks (L.page j) k)).Alike L H')
    (hR : Rep L s H) (hR' : Rep L s' H') (hch : Chained P H) (hk : k < slabSize)
    (hj : j < L.nMeta) (hfree : H.use j = .free) : Restored P s s' c k (some (L.page j)) := by
  have huse : H'.use = Function.update H.use j (.slab c k) := halike.use
  have hold : ∀ i, i ≠ j → H'.use i = H.use i := fun i hi => by
    rw [huse, Function.update_of_ne hi]
  have huj : H'.use j = .slab c k := by rw [huse, Function.update_self]
  have hslab : ∀ i c' k', H.use i = .slab c' k' → i ≠ j := by
    rintro i c' k' hu rfl
    rw [hu] at hfree
    cases hfree
  refine ⟨?_, ?_, fun c' j' l hc hj' hl => ?_, fun c' j' b hc hj' hon => ?_, ?_⟩
  · rintro b ⟨⟩
    rw [hR.freePages]
    exact ⟨j, hj, hfree, rfl⟩
  · rw [hR'.freePages, hR.freePages]
    ext a
    constructor
    · rintro ⟨i, hi, hu, rfl⟩
      have hij : i ≠ j := by
        rintro rfl
        rw [huj] at hu
        cases hu
      refine ⟨⟨i, hi, (hold i hij).symm.trans hu, rfl⟩, fun hmem => hij ?_⟩
      exact (L.page_inj (Option.some.inj hmem)).symm
    · rintro ⟨⟨i, hi, hu, rfl⟩, hne⟩
      have hij : i ≠ j := by
        rintro rfl
        exact hne rfl
      exact ⟨i, hi, (hold i hij).trans hu, rfl⟩
  · have hne := (hch c' j').2 ⟨hc, hj'⟩
    rw [(hR.linked_iff hne).1 hl]
    have hchain : H'.chain c' j' =
        if c' = c ∧ j' = k then H.chain c k ++ [j] else H.chain c' j' := by rw [halike.chain]; rfl
    by_cases hck : c' = c ∧ j' = k
    · rw [if_pos hck] at hchain ⊢
      rw [hR'.linked_iff (by rw [hchain]; simp), hchain, hck.1, hck.2, List.map_append]
      rfl
    · rw [if_neg hck] at hchain ⊢
      rw [hR'.linked_iff (by rw [hchain]; exact hne), hchain]
  · obtain ⟨i, rfl, hu⟩ := hon.exists_page hR ((hch c' j').2 ⟨hc, hj'⟩)
    have hij := hslab i c' j' hu
    have hu₁ : (H.link c k j (fullChunks (L.page j) k)).use i = .slab c' j' :=
      (Function.update_of_ne hij _ _).trans hu
    have hfree₁ : (H.link c k j (fullChunks (L.page j) k)).free i = H.free i :=
      Function.update_of_ne hij _ _
    rw [hR.freeSlots hu, hR'.freeSlots ((hold i hij).trans hu), ← hfree₁]
    exact Set.ext fun q => and_congr_right fun hslot => halike.covers i c' j' q hu₁ hslot
  · rintro b ⟨⟩
    have hu₁ : (H.link c k j (fullChunks (L.page j) k)).use j = .slab c k :=
      Function.update_self _ _ _
    have hfree₁ : (H.link c k j (fullChunks (L.page j) k)).free j = fullChunks (L.page j) k :=
      Function.update_self _ _ _
    rw [hR'.freeSlots huj]
    refine Set.ext fun q => and_iff_left_of_imp fun hslot => ?_
    rw [halike.covers j c k q hu₁ hslot, hfree₁]
    exact covers_full hk (L.page_dvd j) (L.page_end hj) hslot

theorem Offers.restored (h : Offers L H c k H₁) (halike : H₁.Alike L H') (hR : Rep L s H)
    (hR' : Rep L s' H') (hch : Chained P H) (hk : k < slabSize) :
    ∃ new, Restored P s s' c k new := by
  cases h with
  | here => exact ⟨none, halike.restored hR hR' hch c k⟩
  | grown _ hj hfree => exact ⟨_, halike.restored_link hR hR' hch hk hj hfree⟩

-- ---------------------------------------------------------------------------
-- Slots and page runs
-- ---------------------------------------------------------------------------

theorem kfree_undoes_sAlloc (hR : Rep L s H) (hch : Chained P H) (hcpu : cpu < P.cpuCount)
    (hk : k < slabSize) (hcall : sAlloc P s cpu (slotSz k) = .ok (s₁, p)) (hp : p ≠ 0) :
    ∃ s₂, kfree s₁ p = .ok s₂ ∧ (∃ new, Restored P s s₂ cpu k new) ∧
      ∃ s₃, sAlloc P s₂ cpu (slotSz k) = .ok (s₃, p) := by
  rcases sAlloc_spec hR hch hcpu hk with hserve | ⟨-, hrun⟩
  · obtain ⟨s₀, H₁, i, p', m', hoffers, hR₁, hch₁, hfirst, hu, hslot, hres, hR', hallot⟩ := hserve
    rw [hcall] at hres
    cases hres
    -- the slot is given back
    have htaken := (hallot.taken p (slotSz k)).2 (.inr ⟨rfl, rfl⟩)
    have hnot := ((taken_slot_iff hR' hu hslot).1 htaken).1
    obtain ⟨m₂, nodes, hfree, hR₂, hrel⟩ := kfree_slot hR' hu hslot hnot
    have halike := (hallot.keeps hrel).alike hR₁ hR₂ rfl rfl
    refine ⟨_, hfree, hoffers.restored halike hR hR₂ hch hk, ?_⟩
    -- and is the first free one again
    have hfirst₂ := hfirst.alike halike hR₁ hR₂
    rcases sAlloc_spec hR₂ hch₁ hcpu hk with hserve | ⟨hfull, -⟩
    · exact hserve.first hfirst₂
    · obtain ⟨n, l, hcons⟩ := hfirst₂.slot
      rw [hfull.1 i (List.mem_of_find?_eq_some hfirst₂.page)] at hcons
      cases hcons
  · rw [hcall] at hrun
    cases hrun
    exact absurd rfl hp

theorem kfree_undoes_gAlloc {e : Nat} (hR : Rep L s H) (hch : Chained P H) (he : e ≤ 8)
    (hdec : ∀ s, Decided L s (2 ^ e)) (hcall : gAlloc s (2 ^ e) false = .ok (s₁, p)) (hp : p ≠ 0) :
    ∃ s₂, kfree s₁ p = .ok s₂ ∧ (∀ cpu k, Restored P s s₂ cpu k none) ∧
      ∃ s₃, gAlloc s₂ (2 ^ e) false = .ok (s₃, p) := by
  rcases hR.gAlloc_block he (hdec s) with
    ⟨f, m', hf, hlast, hal, hrun, hfirst, hres, hR₁, hallot⟩ | ⟨-, hres⟩
  · rw [hcall] at hres
    cases hres
    have hu : (H.addRun f (2 ^ e)).use f = .block f (2 ^ e) :=
      if_pos ⟨le_refl f, Nat.lt_add_of_pos_right (Nat.two_pow_pos e)⟩
    obtain ⟨m₂, hfree, hR₂, hrel⟩ := kfree_run hR₁ hu
    have huse : ((H.addRun f (2 ^ e)).delRun f (2 ^ e)).use = H.use := by
      funext i
      show (if f ≤ i ∧ i < f + 2 ^ e then PageUse.free
        else if f ≤ i ∧ i < f + 2 ^ e then .block f (2 ^ e) else H.use i) = H.use i
      by_cases hi : f ≤ i ∧ i < f + 2 ^ e
      · obtain ⟨d, rfl⟩ := Nat.exists_eq_add_of_le hi.1
        rw [if_pos hi, hrun d (by omega)]
      · rw [if_neg hi, if_neg hi]
    have hruns : ∀ d, FreeRun ((H.addRun f (2 ^ e)).delRun f (2 ^ e)) d (2 ^ e) ↔
        FreeRun H d (2 ^ e) := fun d => by
      unfold FreeRun
      rw [huse]
    have halike := (hallot.keeps hrel).alike hR hR₂ huse rfl
    refine ⟨_, hfree, halike.restored hR hR₂ hch, ?_⟩
    -- the first free run is the one that has been given back
    rcases hR₂.gAlloc_block he (hdec _) with
      ⟨f', m₃, -, -, hal', hrun', hfirst', hres', -⟩ | ⟨hnone, -⟩
    · rw [hruns] at hrun'
      rcases Nat.lt_trichotomy f' f with hlt | heq | hlt
      · exact absurd hrun' (hfirst f' hlt hal')
      · rw [heq] at hres'
        exact ⟨_, hres'⟩
      · exact absurd ((hruns f).2 hrun) (hfirst' f hlt hal)
    · exact absurd ((hruns f).2 hrun) (hnone f hf hlast hal)
  · rw [hcall] at hres
    cases hres
    exact absurd rfl hp

-- ---------------------------------------------------------------------------
-- `kalloc` and `kfree`
-- ---------------------------------------------------------------------------

/-- The class of a request is what it reserves: a slot or a page run. -/
theorem reserved_cases (hsize : size ≤ maxAlloc) :
    (∃ k, k < slabSize ∧ reserved size = slotSz k) ∨
      ∃ e, e ≤ 8 ∧ reserved size = 2 ^ e * gpageSz := by
  unfold reserved
  rcases kallocSize_cases hsize with ⟨k, hk, hsz, hsmall⟩ | ⟨hlarge, e, he, hpages⟩
  · exact .inl ⟨k, hk, by rw [if_pos hsmall, hsz]⟩
  · exact .inr ⟨e, he, by rw [if_neg (Nat.not_le.2 hlarge), hpages]⟩

theorem kalloc_eq_sAlloc (hsize : size ≤ maxAlloc) (hk : k < slabSize)
    (hres : reserved size = slotSz k) : kalloc P s cpu size = sAlloc P s cpu (slotSz k) := by
  have hsmall : kallocSize size ≤ 4096 := by
    rw [← reserved_le_iff, hres]
    exact slotSz_le hk
  rw [reserved, if_pos hsmall] at hres
  rw [kalloc, if_neg (Nat.not_lt.2 hsize), if_pos hsmall, hres]

theorem kalloc_eq_gAlloc (hsize : size ≤ maxAlloc) (hn : 0 < n)
    (hres : reserved size = n * gpageSz) : kalloc P s cpu size = gAlloc s n false := by
  have hlarge : ¬ kallocSize size ≤ 4096 := by
    rw [← reserved_le_iff, hres]
    unfold gpageSz
    omega
  rw [reserved, if_neg hlarge] at hres
  rw [kalloc, if_neg (Nat.not_lt.2 hsize), if_neg hlarge,
    Nat.eq_of_mul_eq_mul_right (by decide) hres]

/-- **`kfree` undoes `kalloc`.** When a block is given back at once, the free pages, the
chains and the free slots of all slabs are what they were, but for one slab page that the
chain of the request may have got; and any request that reserves the same gets the block
again. -/
theorem kfree_undoes_kalloc (P : Platform) (hroom : P.nMeta + 255 ≤ metaSz) (S : Seq)
    (hr : SeqReachable P S) (cpu size : Nat) (hcpu : cpu < P.cpuCount) (hsize : size ≤ maxAlloc)
    (s₁ : State) (p : Nat) (hcall : kalloc P S.pmm cpu size = .ok (s₁, p)) (hp : p ≠ 0) :
    ∃ s₂, kfree s₁ p = .ok s₂ ∧
      (∃ k new, (new ≠ none → reserved size = slotSz k) ∧ Restored P S.pmm s₂ cpu k new) ∧
      ∀ size', size' ≤ maxAlloc → reserved size' = reserved size →
        ∃ s₃, kalloc P s₂ cpu size' = .ok (s₃, p) := by
  obtain ⟨H, h⟩ := seqAt_of_reachable hroom hr
  rcases reserved_cases hsize with ⟨k, hk, hres⟩ | ⟨e, he, hres⟩
  · rw [kalloc_eq_sAlloc hsize hk hres] at hcall
    obtain ⟨s₂, hfree, ⟨new, hrest⟩, hagain⟩ :=
      kfree_undoes_sAlloc h.rep h.chained hcpu hk hcall hp
    refine ⟨s₂, hfree, ⟨k, new, fun _ => hres, hrest⟩, fun size' hsize' hsame => ?_⟩
    rw [kalloc_eq_sAlloc hsize' hk (hsame.trans hres)]
    exact hagain
  · have hn := Nat.two_pow_pos e
    rw [kalloc_eq_gAlloc hsize hn hres] at hcall
    obtain ⟨s₂, hfree, hrest, hagain⟩ := kfree_undoes_gAlloc h.rep h.chained he
      (fun s => decided_of_lim hroom (Nat.pow_le_pow_right (n := 2) (by omega) he)) hcall hp
    refine ⟨s₂, hfree, ⟨0, none, fun hnew => absurd rfl hnew, hrest cpu 0⟩,
      fun size' hsize' hsame => ?_⟩
    rw [kalloc_eq_gAlloc hsize' hn (hsame.trans hres)]
    exact hagain

/-- At boot, on a heap of 20 pages: 100 bytes given back at once are handed out again for
a request of 128. -/
theorem kfree_undoes_kalloc_boot : ∃ s s₁ s₂ p, SeqReachable (.sample 20) ⟨s, fun _ => none⟩ ∧
    kalloc (.sample 20) s 0 100 = .ok (s₁, p) ∧ p ≠ 0 ∧ kfree s₁ p = .ok s₂ ∧
    (∃ k new, (new ≠ none → reserved 100 = slotSz k) ∧ Restored (.sample 20) s s₂ 0 k new) ∧
    ∃ s₃, kalloc (.sample 20) s₂ 0 128 = .ok (s₃, p) := by
  obtain ⟨s, hs, -⟩ := exists_boot (P := .sample 20) (by decide) (le_refl _) (by decide) fun _ => 0
  have hinit : SeqInit (.sample 20) ⟨s, fun _ => none⟩ := ⟨⟨_, hs⟩, fun _ => rfl⟩
  have hcpu : 0 < (Platform.sample 20).cpuCount := by decide
  have hserves : ∃ s₁ p, kalloc (.sample 20) s 0 100 = .ok (s₁, p) ∧ p ≠ 0 := by
    obtain ⟨k, hk, hres⟩ : ∃ k, k < slabSize ∧ reserved 100 = slotSz k := ⟨3, by decide, by decide⟩
    -- the last page is free
    obtain ⟨H, h, hpage⟩ : ∃ H, SeqAt (.sample 20) ((Platform.sample 20).layout 20 (le_refl _)
        (by decide)) ⟨s, fun _ => none⟩ H ∧ H.use 19 = .free := by
      obtain ⟨m, h⟩ := seqAt_of_init (le_refl _) (by decide) hinit
      exact ⟨_, h, rfl⟩
    rw [kalloc_eq_sAlloc (by decide) hk hres]
    rcases sAlloc_spec h.rep h.chained hcpu hk with hserve | ⟨hfull, -⟩
    · obtain ⟨s₁, p, H', hrun, -, -, hallot⟩ := hserve.serves hk
      exact ⟨s₁, p, hrun, hallot.ne_zero⟩
    · exact absurd hpage (hfull.2 19 (by decide))
  obtain ⟨s₁, p, hcall, hp⟩ := hserves
  obtain ⟨s₂, hfree, hrest, hagain⟩ := kfree_undoes_kalloc (.sample 20) (by decide) _
    (.init hinit) 0 100 hcpu (by decide) s₁ p hcall hp
  exact ⟨s, s₁, s₂, p, .init hinit, hcall, hp, hfree, hrest, hagain 128 (by decide) (by decide)⟩

end MyOs.Pmm
