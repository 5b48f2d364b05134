import Mathlib.Data.Finset.Card
import MyOs.Pmm.Invariant

/-!
# Whole calls

`kalloc` and `kfree` as functions, one call after the other.

* `kalloc_spec` — a call hands out a block of the reserved size, or there is
  nothing to hand out and nothing changes.
* `kfree_spec` — a call takes the block back.
* `SeqAt.kalloc`, `SeqAt.kfree`, `SeqAt.write` — the invariant of sequential runs.
-/

namespace MyOs.Pmm

open MyOs.Memory MyOs.LinkedList MyOs.FreeChunks MyOs.Transition

/-! ## Sequential runs -/

/-- The bytes `kalloc` reserves for a request: a slot, or whole pages. -/
def reserved (size : Nat) : Nat :=
  if kallocSize size ≤ 4096 then kallocSize size else kallocPages (kallocSize size) * gpageSz

/-- Memory and globals, and the live blocks with their reserved bytes. -/
structure Seq where
  pmm : State
  live : Nat → Option Nat

inductive Call
  | kalloc (cpu size : Nat)
  | kfree (p : Nat)
  | write (p : Nat)

/-- A call that returns, or a write of the client into a live block. -/
inductive SeqStep (P : Platform) : Seq → Call → Seq → Prop
  | kalloc {S : Seq} {cpu size p : Nat} {s' : State} : cpu < P.cpuCount →
      kalloc P S.pmm cpu size = .ok (s', p) →
      SeqStep P S (.kalloc cpu size)
        ⟨s', if p = 0 then S.live else Function.update S.live p (some (reserved size))⟩
  | kfree {S : Seq} {p r : Nat} {s' : State} : S.live p = some r → kfree S.pmm p = .ok s' →
      SeqStep P S (.kfree p) ⟨s', Function.update S.live p none⟩
  | write {S : Seq} {p r : Nat} {m' : Mem} : S.live p = some r →
      OnlyIn S.pmm.mem m' p (p + r) →
      SeqStep P S (.write p) ⟨{ S.pmm with mem := m' }, S.live⟩

def SeqInit (P : Platform) (S : Seq) : Prop :=
  (∃ m, pmmInit P m = .ok S.pmm) ∧ ∀ p, S.live p = none

/-- The states of all sequential runs. -/
def SeqReachable (P : Platform) : Seq → Prop := Reach (SeqInit P) (SeqStep P)

variable {P : Platform} {L : Layout} {S : Seq} {s s' : State} {H : Heap} {c k i p r cpu size : Nat}

/-! ## `S_alloc` -/

/-- The call hands out a block of `r` bytes. -/
def Serves (P : Platform) (L : Layout) (H : Heap) (r : Nat) (res : Result (State × Nat)) : Prop :=
  ∃ s' p H', res = .ok (s', p) ∧ Rep L s' H' ∧ Chained P H' ∧ Allots L H H' p r

/-- No slot is left in the chain, and no page to extend it. -/
def SlabsFull (L : Layout) (H : Heap) (c k : Nat) : Prop :=
  (∀ j, j ∈ H.chain c k → H.free j = []) ∧ ∀ d, d < L.nMeta → H.use d ≠ .free

theorem Allots.of_keeps {H₁ H₂ : Heap} (hkeep : Keeps L H H₁) (h : Allots L H₁ H₂ p r) :
    Allots L H H₂ p r := by
  refine ⟨fun q r' => ?_, fun r' ht => h.fresh r' ((hkeep p r').2 ht)⟩
  rw [h.taken q r', hkeep q r']

/-- Page `i` is the first one of the chain with a free slot, and `p` is its first slot. -/
structure FirstFree (H : Heap) (c k i p : Nat) : Prop where
  page : (H.chain c k).find? (fun j => !(H.free j).isEmpty) = some i
  slot : ∃ n l, H.free i = (p, n) :: l

/-- The heaps the request can be served from: as it is, and, if no slot is left in the
chain, with a page more. -/
inductive Offers (L : Layout) (H : Heap) (c k : Nat) : Heap → Prop
  | here : Offers L H c k H
  | grown {j : Nat} : (∀ i, i ∈ H.chain c k → H.free i = []) → j < L.nMeta → H.use j = .free →
      Offers L H c k (H.link c k j (fullChunks (L.page j) k))

/-- The call hands out the first free slot of the chain. -/
def ServesSlot (P : Platform) (L : Layout) (H : Heap) (c k : Nat) (res : Result (State × Nat)) :
    Prop :=
  ∃ s₁ H₁ i p m', Offers L H c k H₁ ∧ Rep L s₁ H₁ ∧ Chained P H₁ ∧ FirstFree H₁ c k i p ∧
    H₁.use i = .slab c k ∧ Slot (L.page i) k p ∧ res = .ok ({ s₁ with mem := m' }, p) ∧
    Rep L { s₁ with mem := m' } (H₁.setFree i (pop (slotSz k) (H₁.free i))) ∧
    Allots L H₁ (H₁.setFree i (pop (slotSz k) (H₁.free i))) p (slotSz k)

/-- A chain that has grown has the same blocks handed out. -/
theorem Offers.keeps {H₁ : Heap} (hk : k < slabSize) (h : Offers L H c k H₁) : Keeps L H H₁ := by
  cases h with
  | here => exact fun q r => Iff.rfl
  | grown _ hj hfree => exact keeps_link hk hj hfree

theorem ServesSlot.serves {res : Result (State × Nat)} (hk : k < slabSize)
    (h : ServesSlot P L H c k res) : Serves P L H (slotSz k) res := by
  obtain ⟨s₁, H₁, i, p, m', hoffers, -, hch, -, -, -, hres, hR', hallot⟩ := h
  exact ⟨_, p, _, hres, hR', hch, hallot.of_keeps (hoffers.keeps hk)⟩

/-- The first page with a free slot, behind full ones. -/
theorem firstFree_of_split {l₁ l₂ : List Nat} (hsplit : H.chain c k = l₁ ++ i :: l₂)
    (hfull : ∀ j, j ∈ l₁ → H.free j = []) {n : Nat} {l : List (Nat × Nat)}
    (hfree : H.free i = (p, n) :: l) : FirstFree H c k i p := by
  refine ⟨List.find?_eq_some_iff_append.2 ⟨by rw [hfree]; rfl, l₁, l₂, hsplit, fun j hj => ?_⟩,
    n, l, hfree⟩
  rw [hfull j hj]
  rfl

/-- The end of the chain: it grows by a page, and the request gets its first slot. -/
theorem sAllocLoop_last (fuel : Nat) {l : List Nat} (hR : Rep L s H) (hch : Chained P H)
    (hlast : H.chain c k = l ++ [i]) (hall : ∀ d, d ∈ H.chain c k → H.free d = []) :
    ServesSlot P L H c k (sAllocLoop (slotSz k) (fuel + 1) s (L.page i) 0) ∨
      ((∀ d, d < L.nMeta → H.use d ≠ .free) ∧
        sAllocLoop (slotSz k) (fuel + 1) s (L.page i) 0 = .ok (s, 0)) := by
  have hu : H.use i = .slab c k := (hR.mem_chain c k i).1 (by rw [hlast]; simp)
  have hnext : s.next (L.page i) = 0 := (hR.next_eq_zero_iff hu).2 ⟨l, hlast⟩
  rw [sAllocLoop, if_neg (by simp), check_pos ⟨(L.page_pos i).ne', rfl⟩, ok_bind]
  rcases addSlab_spec hR hu with ⟨hfull, hrun⟩ | ⟨j, hj, hjfree, ⟨hne, -⟩ | ⟨-, m', hrun, hgrown⟩⟩
  · refine .inr ⟨hfull, ?_⟩
    rw [hrun, ok_bind]
    rfl
  · exact absurd hnext hne
  · -- all slots of the new page are free
    have hR' := hR.of_grown hu hj hjfree hnext hgrown
    have hch' : Chained P (H.link c k j (fullChunks (L.page j) k)) :=
      hch.link (by rw [hlast]; simp)
    have hoffers := Offers.grown hall hj hjfree
    obtain ⟨H', hH'⟩ : ∃ H', H' = H.link c k j (fullChunks (L.page j) k) := ⟨_, rfl⟩
    have huj : H'.use j = .slab c k := by
      rw [hH']
      exact Function.update_self _ _ _
    have hfree : H'.free j = fullChunks (L.page j) k := by
      rw [hH']
      exact Function.update_self _ _ _
    have hchain : H'.chain c k = H.chain c k ++ j :: [] := by
      rw [hH']
      exact if_pos ⟨rfl, rfl⟩
    have hold : ∀ d, d ∈ H.chain c k → H'.free d = [] := fun d hd => by
      have hdj : d ≠ j := by
        rintro rfl
        rw [(hR.mem_chain c k d).1 hd] at hjfree
        cases hjfree
      rw [← hall d hd, hH']
      exact Function.update_of_ne hdj _ _
    rw [← hH'] at hR' hch' hoffers
    rcases hR'.slabAlloc_slot huj with ⟨hnil, -⟩ | ⟨p, n, l', m'', hcons, hpop, hslot, hR'', hallot⟩
    · rw [hfree] at hnil
      exact absurd hnil (List.cons_ne_nil _ _)
    · refine .inl ⟨_, H', j, p, m'', hoffers, hR', hch', firstFree_of_split hchain hold hcons,
        huj, hslot, ?_, hR'', hallot⟩
      rw [hrun, ok_bind]
      simp only [if_neg (L.page_pos j).ne', hpop, ok_bind, check_pos hallot.ne_zero]
      rfl

/-- The loop of `S_alloc` from page `i` of the chain on: the pages before it are full. -/
theorem sAllocLoop_spec (hR : Rep L s H) (hch : Chained P H) :
    ∀ (l₂ l₁ : List Nat) (i fuel prev : Nat), H.chain c k = l₁ ++ i :: l₂ →
      (∀ j, j ∈ l₁ → H.free j = []) → l₂.length + 2 ≤ fuel →
      ServesSlot P L H c k (sAllocLoop (slotSz k) fuel s prev (L.page i)) ∨
        (SlabsFull L H c k ∧ sAllocLoop (slotSz k) fuel s prev (L.page i) = .ok (s, 0))
  | _, _, _, 0, _, _, _, hfuel => by omega
  | l₂, l₁, i, fuel + 1, prev, hsplit, hfull, hfuel => by
    have hu : H.use i = .slab c k := (hR.mem_chain c k i).1 (by rw [hsplit]; simp)
    obtain ⟨-, -, hsp⟩ := hR.slab i c k hu
    rw [sAllocLoop, if_pos (L.page_pos i).ne']
    rcases hR.slabAlloc_slot hu with ⟨hnil, hrun⟩ | ⟨p, n, l, m', hcons, hrun, hslot, hR', hallot⟩
    · have hfull' : ∀ j, j ∈ l₁ ++ [i] → H.free j = [] := fun j hj => by
        rcases List.mem_append.1 hj with hj | hj
        · exact hfull j hj
        · rwa [List.mem_singleton.1 hj]
      have hnext := hR.next_of_split hsplit
      rw [hrun, ok_bind]
      simp only [ne_eq, not_true_eq_false, if_false, readNext_spec hsp, ok_bind, hnext]
      match l₂, hsplit, hfuel with
      | [], hsplit, hfuel =>
        obtain ⟨fuel, rfl⟩ : ∃ d, fuel = d + 1 := ⟨fuel - 1, by simp at hfuel; omega⟩
        rw [← hsplit] at hfull'
        rcases sAllocLoop_last fuel hR hch hsplit hfull' with hserve | ⟨hnone, hres⟩
        · exact .inl hserve
        · exact .inr ⟨⟨hfull', hnone⟩, hres⟩
      | j :: l, hsplit, hfuel =>
        rw [List.append_cons] at hsplit
        rw [List.map_cons, List.headD_cons]
        exact sAllocLoop_spec hR hch l (l₁ ++ [i]) j fuel _ hsplit hfull' (by simp at hfuel; omega)
    · refine .inl ⟨s, H, i, p, m', .here, hR, hch, firstFree_of_split hsplit hfull hcons, hu,
        hslot, ?_, hR', hallot⟩
      rw [hrun, ok_bind]
      simp only [if_pos hallot.ne_zero]
      rfl

/-- A chain has no more pages than the table has entries. -/
theorem Rep.chain_length_le (hR : Rep L s H) (c k : Nat) : (H.chain c k).length ≤ metaSz := by
  have hsub : (H.chain c k).toFinset ⊆ Finset.range metaSz := fun i hi => by
    obtain ⟨hlt, -⟩ := hR.slab i c k ((hR.mem_chain c k i).1 (List.mem_toFinset.1 hi))
    have := L.nMeta_le
    have := L.lim_le
    exact Finset.mem_range.2 (by omega)
  have hcard := Finset.card_le_card hsub
  rwa [List.toFinset_card_of_nodup (hR.chain_nodup c k), Finset.card_range] at hcard

/-- **`S_alloc`** hands out the first free slot of the chain, or all slabs are full and
nothing changes. -/
theorem sAlloc_spec (hR : Rep L s H) (hch : Chained P H) (hcpu : cpu < P.cpuCount)
    (hk : k < slabSize) :
    ServesSlot P L H cpu k (sAlloc P s cpu (slotSz k)) ∨
      (SlabsFull L H cpu k ∧ sAlloc P s cpu (slotSz k) = .ok (s, 0)) := by
  match hlist : H.chain cpu k, (hch cpu k).2 ⟨hcpu, hk⟩ with
  | i :: l, _ =>
    have hlen := hR.chain_length_le cpu k
    have hhead : s.slab cpu k = L.page i := by
      have hlink := hR.chain cpu k (by rw [hlist]; simp)
      rw [hlist] at hlink
      exact hlink.1
    rw [hlist, List.length_cons] at hlen
    unfold sAlloc
    rw [sAllocHead_slotSz hk hcpu, ok_bind]
    simp only [hhead]
    exact sAllocLoop_spec hR hch l [] i _ 0 hlist
      (fun j hj => (List.not_mem_nil hj).elim) (by omega)

/-! ## `kalloc` and `kfree` -/

/-- Why nothing can be handed out: the request is too big, its slabs are full and
no page is left, or no described run of pages is free. -/
inductive Exhausted (L : Layout) (H : Heap) (cpu size : Nat) : Prop
  | tooBig : size > maxAlloc → Exhausted L H cpu size
  | slabs {k : Nat} : size ≤ maxAlloc → kallocSize size = slotSz k → k < slabSize →
      SlabsFull L H cpu k → Exhausted L H cpu size
  | pages : size ≤ maxAlloc → 4096 < kallocSize size →
      (∀ d, d < L.nMeta → d + kallocPages (kallocSize size) ≤ L.lim →
        L.Aligned (kallocPages (kallocSize size)) d →
        ¬ FreeRun H d (kallocPages (kallocSize size))) →
      Exhausted L H cpu size

/-- **A call of `kalloc`** hands out a block of the reserved size, or nothing is
there and nothing changes. -/
theorem kalloc_spec (hR : Rep L s H) (hch : Chained P H) (hcpu : cpu < P.cpuCount)
    (hdec : size ≤ maxAlloc → 4096 < kallocSize size →
      Decided L s (kallocPages (kallocSize size))) :
    Serves P L H (reserved size) (kalloc P s cpu size) ∨
      (Exhausted L H cpu size ∧ kalloc P s cpu size = .ok (s, 0)) := by
  by_cases hbig : size > maxAlloc
  · exact .inr ⟨.tooBig hbig, if_pos hbig⟩
  have hsize := Nat.not_lt.1 hbig
  unfold kalloc reserved
  rw [if_neg hbig]
  rcases kallocSize_cases hsize with ⟨k, hk, hsz, hsmall⟩ | ⟨hlarge, e, he, hpages⟩
  · rw [if_pos hsmall, if_pos hsmall, hsz]
    rcases sAlloc_spec hR hch hcpu hk with hserve | ⟨hfull, hres⟩
    · exact .inl (hserve.serves hk)
    · exact .inr ⟨.slabs hsize hsz hk hfull, hres⟩
  · rw [if_neg (Nat.not_le.2 hlarge), if_neg (Nat.not_le.2 hlarge)]
    have hdec' := hdec hsize hlarge
    rw [hpages] at hdec' ⊢
    rcases hR.gAlloc_block he hdec' with ⟨f, m', -, -, -, -, -, hrun, hR', hallot⟩ | ⟨hnone, hrun⟩
    · exact .inl ⟨_, _, _, hrun, hR', hch, hallot⟩
    · exact .inr ⟨.pages hsize hlarge (by rw [hpages]; exact hnone), hrun⟩

/-- `kfree` of a slot. -/
theorem kfree_slot (hR : Rep L s H) (hu : H.use i = .slab c k) (hslot : Slot (L.page i) k p)
    (hnot : ¬ Covers (slotSz k) (H.free i) p) :
    ∃ m' nodes, kfree s p = .ok { s with mem := m' } ∧
      Rep L { s with mem := m' } (H.setFree i nodes) ∧ Releases L H (H.setFree i nodes) p := by
  rcases kfreeHead_taken hR (.slot hu hslot hnot) with ⟨hhead, -⟩ | ⟨-, f, n, hp, huf⟩
  · obtain ⟨m', nodes, hrun, -, hR', hrel⟩ := hR.sFree_slot hu hslot hnot
    refine ⟨m', nodes, ?_, hR', hrel⟩
    unfold kfree
    rw [hhead, ok_bind, if_pos rfl, hrun]
  · -- a slot is not the start of a run
    have hlow := hslot.low'
    have hhigh := hslot.high
    have hpos := slotSz_pos k
    have hg : gpageSz = 65536 := rfl
    obtain rfl := L.page_unique (x := p) (i := i) (j := f) (by omega) (by omega) (by omega)
      (by omega)
    rw [hu] at huf
    cases huf

/-- `kfree` of a page run. -/
theorem kfree_run {f n : Nat} (hR : Rep L s H) (hu : H.use f = .block f n) :
    ∃ m', kfree s (L.page f) = .ok { s with mem := m' } ∧
      Rep L { s with mem := m' } (H.delRun f n) ∧ Releases L H (H.delRun f n) (L.page f) := by
  rcases kfreeHead_taken hR (.run hu) with ⟨-, hnot, -⟩ | ⟨hhead, -⟩
  · exact absurd rfl (hnot f)
  · obtain ⟨m', hrun, hR', hrel⟩ := hR.gFree_block hu
    refine ⟨m', ?_, hR', hrel⟩
    unfold kfree
    rw [hhead, ok_bind, if_neg (by simp), hrun]

/-- **A call of `kfree`** takes the block back. -/
theorem kfree_spec (hR : Rep L s H) (hch : Chained P H) (ht : Taken L H p r) :
    ∃ s' H', kfree s p = .ok s' ∧ Rep L s' H' ∧ Chained P H' ∧ Releases L H H' p := by
  cases ht with
  | slot hu hslot hnot =>
    obtain ⟨m', nodes, hrun, hR', hrel⟩ := kfree_slot hR hu hslot hnot
    exact ⟨_, _, hrun, hR', hch, hrel⟩
  | run hu =>
    obtain ⟨m', hrun, hR', hrel⟩ := kfree_run hR hu
    exact ⟨_, _, hrun, hR', hch, hrel⟩

/-! ## The invariant -/

/-- The memory represents a heap, and its blocks that are handed out are the live ones. -/
structure SeqAt (P : Platform) (L : Layout) (S : Seq) (H : Heap) : Prop where
  rep : Rep L S.pmm H
  chained : Chained P H
  live : ∀ p r, S.live p = some r ↔ Taken L H p r

theorem SeqAt.kalloc (h : SeqAt P L S H) (hcpu : cpu < P.cpuCount)
    (hdec : size ≤ maxAlloc → 4096 < kallocSize size →
      Decided L S.pmm (kallocPages (kallocSize size)))
    (hcall : Pmm.kalloc P S.pmm cpu size = .ok (s', p)) :
    ∃ H', SeqAt P L ⟨s', if p = 0 then S.live else Function.update S.live p (some (reserved size))⟩
      H' := by
  rcases kalloc_spec h.rep h.chained hcpu hdec with
      ⟨s₁, p₁, H', hrun, hR', hch', hallot⟩ | ⟨-, hrun⟩
  · rw [hcall] at hrun
    cases hrun
    refine ⟨H', hR', hch', fun q r => ?_⟩
    rw [if_neg hallot.ne_zero, hallot.taken q r]
    show Function.update S.live p (some (reserved size)) q = some r ↔ _
    by_cases hq : q = p
    · rw [hq, Function.update_self]
      constructor
      · intro heq
        cases heq
        exact .inr ⟨rfl, rfl⟩
      · rintro (ht | ⟨-, rfl⟩)
        · exact absurd ht (hallot.fresh r)
        · rfl
    · rw [Function.update_of_ne hq, h.live q r]
      exact ⟨.inl, fun hor => hor.resolve_right fun heq => hq heq.1⟩
  · rw [hcall] at hrun
    cases hrun
    rw [if_pos rfl]
    exact ⟨H, h⟩

theorem SeqAt.kfree (h : SeqAt P L S H) (hlive : S.live p = some r)
    (hcall : Pmm.kfree S.pmm p = .ok s') :
    ∃ H', SeqAt P L ⟨s', Function.update S.live p none⟩ H' := by
  obtain ⟨s₁, H', hrun, hR', hch', hrel⟩ := kfree_spec h.rep h.chained ((h.live p r).1 hlive)
  rw [hcall] at hrun
  cases hrun
  refine ⟨H', hR', hch', fun q r' => ?_⟩
  rw [hrel q r']
  show Function.update S.live p none q = some r' ↔ _
  by_cases hq : q = p
  · rw [hq, Function.update_self]
    exact ⟨nofun, fun ⟨_, hne⟩ => absurd rfl hne⟩
  · rw [Function.update_of_ne hq, h.live q r']
    exact ⟨fun ht => ⟨ht, hq⟩, fun ht => ht.1⟩

theorem SeqAt.write {m' : Mem} (h : SeqAt P L S H) (hlive : S.live p = some r)
    (honly : OnlyIn S.pmm.mem m' p (p + r)) :
    SeqAt P L ⟨{ S.pmm with mem := m' }, S.live⟩ H :=
  ⟨h.rep.write ((h.live p r).1 hlive) honly, h.chained, h.live⟩

theorem seqAt_of_init {lim : Nat} (h : P.nMeta ≤ lim) (h' : lim ≤ metaSz) (hinit : SeqInit P S) :
    ∃ m, SeqAt P (P.layout lim h h') S
      (Heap.boot (P.layout lim h h') m (slabSize * P.cpuCount)) := by
  obtain ⟨hm, hlive⟩ := hinit
  obtain ⟨-, m, hinv⟩ := invAt_of_init (S := ⟨S.pmm, fun _ => .idle, S.live, none⟩) h h'
    ⟨hm, fun _ => rfl, hlive, rfl⟩
  refine ⟨m, hinv.rep, hinv.chained, fun p r => ?_⟩
  rw [hlive]
  exact ⟨nofun, fun ht => absurd ht (not_taken_boot hinv.rep)⟩

/-- **A block that `kalloc` hands out** is not live and shares no byte with a live one. -/
theorem SeqAt.kalloc_fresh (h : SeqAt P L S H) (hcpu : cpu < P.cpuCount)
    (hdec : size ≤ maxAlloc → 4096 < kallocSize size →
      Decided L S.pmm (kallocPages (kallocSize size)))
    (hcall : Pmm.kalloc P S.pmm cpu size = .ok (s', p)) (hp : p ≠ 0) :
    S.live p = none ∧ ∀ q r, S.live q = some r → p + reserved size ≤ q ∨ q + r ≤ p := by
  rcases kalloc_spec h.rep h.chained hcpu hdec with
      ⟨s₁, p₁, H', hrun, hR', -, hallot⟩ | ⟨-, hrun⟩
  · rw [hcall] at hrun
    cases hrun
    have hfresh : ∀ r, S.live p ≠ some r := fun r hlive =>
      hallot.fresh r ((h.live p r).1 hlive)
    refine ⟨Option.eq_none_iff_forall_ne_some.2 hfresh, fun q r hq => ?_⟩
    refine ((hallot.taken p _).2 (.inr ⟨rfl, rfl⟩)).disjoint hR'
      ((hallot.taken q r).2 (.inl ((h.live q r).1 hq))) ?_
    rintro rfl
    exact hfresh r hq
  · rw [hcall] at hrun
    cases hrun
    exact absurd rfl hp

/-- With room in the table every scan is decided. -/
theorem decided_kallocPages (hroom : P.nMeta + 255 ≤ metaSz) (hsize : size ≤ maxAlloc)
    (hlarge : 4096 < kallocSize size) :
    Decided (P.roomy hroom) s (kallocPages (kallocSize size)) := by
  rcases kallocSize_cases hsize with ⟨k, -, -, hsmall⟩ | ⟨-, e, he, hpages⟩
  · omega
  · rw [hpages]
    exact decided_of_lim hroom (Nat.pow_le_pow_right (n := 2) (by omega) he)

/-- With room in the table every step keeps the invariant. -/
theorem seqAt_of_reachable (hroom : P.nMeta + 255 ≤ metaSz) (hr : SeqReachable P S) :
    ∃ H, SeqAt P (P.roomy hroom) S H := by
  refine Reach.invariant (I := fun S => ∃ H, SeqAt P (P.roomy hroom) S H) ?_ ?_ hr
  · intro S hinit
    obtain ⟨m, h⟩ := seqAt_of_init _ _ hinit
    exact ⟨_, h⟩
  · rintro S a S' - ⟨H, h⟩ hstep
    cases hstep with
    | kalloc hcpu hcall =>
      exact h.kalloc hcpu (fun hsize hlarge => decided_kallocPages hroom hsize hlarge) hcall
    | kfree hlive hcall => exact h.kfree hlive hcall
    | write hlive honly => exact ⟨H, h.write hlive honly⟩

/-! ## A request for two pages -/

/-- The first request for two pages on a heap of 20 pages gets a run, however many
entries behind the managed ones are described. -/
theorem exists_run_call {lim : Nat} (h : (Platform.sample 20).nMeta ≤ lim) (h' : lim ≤ metaSz) :
    ∃ (s s' : State) (p : Nat), SeqInit (.sample 20) ⟨s, fun _ => none⟩ ∧
      Globals ((Platform.sample 20).layout lim h h') s ∧
      Decided ((Platform.sample 20).layout lim h h') s 2 ∧
      kalloc (.sample 20) s 0 131072 = .ok (s', p) ∧ p ≠ 0 := by
  obtain ⟨s, hs, -⟩ := exists_boot (P := .sample 20) (by decide) h h' fun _ => 0
  have hinit : SeqInit (.sample 20) ⟨s, fun _ => none⟩ := ⟨⟨_, hs⟩, fun _ => rfl⟩
  obtain ⟨m, hat⟩ := seqAt_of_init h h' hinit
  obtain ⟨L, hL⟩ : ∃ L, L = (Platform.sample 20).layout lim h h' := ⟨_, rfl⟩
  rw [← hL] at hat ⊢
  have hnMeta : L.nMeta = 20 := by
    rw [hL]
    exact (show (Platform.sample 20).nMeta = 20 by decide)
  have hbase : L.base = 0x1030000 := by
    rw [hL]
    exact (show (Platform.sample 20).base = 0x1030000 by decide)
  have hle := L.nMeta_le
  have haligned : L.Aligned 2 9 := by
    rw [Layout.Aligned, Layout.page, hbase]
    decide
  -- pages 9 and 10 are free
  have hfree : FreeRun (Heap.boot L m (slabSize * (Platform.sample 20).cpuCount)) 9 2 :=
    fun i hi => by
      have hnine : slabSize * (Platform.sample 20).cpuCount = 9 := rfl
      exact boot_use_free (by omega) (by omega)
  have hdec : Decided L s 2 := by
    intro c hc hal hnone hcross
    by_cases hlow : c ≤ 9
    · omega
    · exact absurd ((hat.rep.free_iff (by omega)).2 hfree) (hnone 9 (by omega) haligned)
  have hpages : kallocPages (kallocSize 131072) = 2 := by decide
  have hdec' : 131072 ≤ maxAlloc → 4096 < kallocSize 131072 →
      Decided L s (kallocPages (kallocSize 131072)) := by
    intro _ _
    rw [hpages]
    exact hdec
  rcases kalloc_spec hat.rep hat.chained (show 0 < _ by decide) hdec' with
      ⟨s', p, H', hrun, -, -, hallot⟩ | ⟨hnone, -⟩
  · exact ⟨s, s', p, hinit, hat.rep.globals, hdec, hrun, hallot.ne_zero⟩
  · cases hnone with
    | tooBig hbig => exact absurd hbig (by decide)
    | slabs _ hsz hk _ =>
      have hsmall : kallocSize 131072 ≤ 4096 := by
        rw [hsz]
        exact slotSz_le hk
      exact absurd hsmall (by decide)
    | pages _ _ hnone =>
      rw [hpages] at hnone
      exact absurd hfree (hnone 9 (by omega) (by omega) haligned)

end MyOs.Pmm
