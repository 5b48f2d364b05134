import MyOs.Pmm.Pages
import MyOs.Pmm.Slab

/-!
# What the heap is used for

The abstract view of a heap: what each page is used for, the free chunks of each
slab page, and the slab pages of each chain in order (`Heap`). `Rep L s H` says
that the state `s` of the code represents `H`: the `Meta` entries agree with the
use of the pages, every slab page is intact, every chain is a `NULL`-terminated
list. `Taken` are the blocks that have been handed out in such a heap.

* `Taken.disjoint` — two blocks that are handed out share no byte.
* `Rep.write` — writes into a block that is handed out leave the
  representation alone.
-/

namespace MyOs.Pmm

open MyOs.Memory MyOs.LinkedList MyOs.FreeChunks

/-! ## Heaps -/

/-- The use of a page: free, a slab page of `Slab[cpu][k]`, or part of the run of
`n` pages from `first` on. `junk` is a page behind the heap whose table entry,
never initialised, reads as allocated. -/
inductive PageUse
  | free
  | slab (cpu k : Nat)
  | block (first n : Nat)
  | junk
  deriving DecidableEq

/-- Pages and chains by index: the use of each page, the free chunks of each slab
page, and the pages of each chain. -/
structure Heap where
  use : Nat → PageUse
  free : Nat → List (Nat × Nat)
  chain : Nat → Nat → List Nat

/-- Entry `i` of the table says what the page is used for. -/
def EntryOk (L : Layout) (m : Mem) (i : Nat) : PageUse → Prop
  | .free => load m (L.entry i + 16) 1 = 0
  | .slab _ _ => load m (L.entry i + 16) 1 ≠ 0 ∧ load m (L.entry i + 17) 1 ≠ 0
  | .block f n => load m (L.entry i + 16) 1 ≠ 0 ∧ load m (L.entry i + 17) 1 = 0 ∧
      load m (L.entry i + 8) 8 = L.page (f + n)
  | .junk => load m (L.entry i + 16) 1 ≠ 0

/-- A run of pages that has been handed out. -/
structure Run (L : Layout) (H : Heap) (f n : Nat) : Prop where
  pos : 0 < n
  le : n ≤ 256
  first : f < L.nMeta
  last : f + n ≤ L.lim
  aligned : L.Aligned n f
  all : ∀ i, f ≤ i → i < f + n → H.use i = .block f n

/-- **The state represents the heap.** -/
structure Rep (L : Layout) (s : State) (H : Heap) : Prop where
  globals : Globals L s
  gLock : s.gLock = 0
  starts : Starts L s
  entry : ∀ i, i < L.lim → EntryOk L s.mem i (H.use i)
  run : ∀ i f n, H.use i = .block f n → f ≤ i ∧ i < f + n ∧ Run L H f n
  junk : ∀ i, H.use i = .junk → L.nMeta ≤ i
  slab : ∀ i c k, H.use i = .slab c k →
    i < L.nMeta ∧ k < slabSize ∧ SlabPage s.mem (L.page i) k (H.free i)
  mem_chain : ∀ c k i, i ∈ H.chain c k ↔ H.use i = .slab c k
  chain : ∀ c k, H.chain c k ≠ [] →
    Linked s.next 0 (s.slab c k) ((H.chain c k).map L.page)

/-- The blocks of a heap that have been handed out, with the bytes they reserve:
slots that are not free, and page runs. -/
inductive Taken (L : Layout) (H : Heap) : Nat → Nat → Prop
  | slot {i c k p : Nat} : H.use i = .slab c k → Slot (L.page i) k p →
      ¬ Covers (slotSz k) (H.free i) p → Taken L H p (slotSz k)
  | run {f n : Nat} : H.use f = .block f n → Taken L H (L.page f) (n * gpageSz)

variable {L : Layout} {s : State} {H : Heap} {m' : Mem} {i j c k f n p q r r' x : Nat}

/-! ## Pages are apart -/

/-- The page an address lies in. -/
theorem Layout.page_unique (hi : L.page i ≤ x) (hi' : x < L.page i + gpageSz)
    (hj : L.page j ≤ x) (hj' : x < L.page j + gpageSz) : i = j := by
  rcases Nat.lt_trichotomy i j with hlt | heq | hlt
  · have := L.page_lt hlt
    omega
  · exact heq
  · have := L.page_lt hlt
    omega

theorem Layout.page_apart (h : i ≠ j) :
    L.page i + gpageSz ≤ L.page j ∨ L.page j + gpageSz ≤ L.page i := by
  rcases Nat.lt_or_gt_of_ne h with hlt | hlt
  · exact .inl (L.page_lt hlt)
  · exact .inr (L.page_lt hlt)

/-- The page of a run that an address of the run lies in. -/
theorem Layout.exists_page (hlo : L.page f ≤ x) (hhi : x < L.page (f + n)) :
    ∃ j, f ≤ j ∧ j < f + n ∧ L.page j ≤ x ∧ x < L.page j + gpageSz := by
  have hg : 0 < gpageSz := by decide
  obtain ⟨d, hd⟩ := Nat.exists_eq_add_of_le hlo
  have hdiv := Nat.div_add_mod d gpageSz
  have hmod := Nat.mod_lt d hg
  have hpage := L.page_add f (d / gpageSz)
  rw [Nat.mul_comm] at hdiv
  refine ⟨f + d / gpageSz, Nat.le_add_right _ _, ?_, by omega, by omega⟩
  exact L.page_lt_iff.1 (by omega)

/-- Managed pages end inside a word, with room to spare. -/
theorem Layout.page_end (L : Layout) (h : i < L.nMeta) :
    L.page i + gpageSz + 4096 ≤ 2 ^ 64 := by
  have hlt := L.page_lt_word (i := i + 2) (by omega)
  rw [L.page_add] at hlt
  unfold gpageSz at *
  omega

theorem Slot.low' (h : Slot p k q) : p + 28 ≤ q := h.low

/-! ## Blocks -/

/-- Every byte of a block lies in a page whose use names the block. -/
theorem Taken.byte (hR : Rep L s H) (h : Taken L H p r) (hlo : p ≤ x) (hhi : x < p + r) :
    ∃ j, L.page j ≤ x ∧ x < L.page j + gpageSz ∧
      ((∃ c k, H.use j = .slab c k ∧ Slot (L.page j) k p ∧
          ¬ Covers (slotSz k) (H.free j) p ∧ r = slotSz k) ∨
        ∃ f n, H.use j = .block f n ∧ p = L.page f ∧ r = n * gpageSz) := by
  cases h with
  | @slot i c k _ hu hslot hnot =>
    have hlow := hslot.low'
    have hhigh := hslot.high
    exact ⟨i, by omega, by omega, .inl ⟨c, k, hu, hslot, hnot, rfl⟩⟩
  | @run f n hu =>
    obtain ⟨-, -, hrun⟩ := hR.run f f n hu
    rw [← L.page_add] at hhi
    obtain ⟨j, hfj, hj, hjx, hjx'⟩ := L.exists_page hlo hhi
    exact ⟨j, hjx, hjx', .inr ⟨f, n, hrun.all j hfj hj, rfl, rfl⟩⟩

/-- **Two blocks that share a byte are the same block.** -/
theorem Taken.eq_of_byte (hR : Rep L s H) (h : Taken L H p r) (h' : Taken L H q r')
    (hp : p ≤ x) (hp' : x < p + r) (hq : q ≤ x) (hq' : x < q + r') : p = q ∧ r = r' := by
  obtain ⟨i, hi, hi', hcase⟩ := h.byte hR hp hp'
  obtain ⟨j, hj, hj', hcase'⟩ := h'.byte hR hq hq'
  obtain rfl := L.page_unique hi hi' hj hj'
  rcases hcase with ⟨c, k, hu, hslot, -, rfl⟩ | ⟨f, n, hu, rfl, rfl⟩ <;>
    rcases hcase' with ⟨c', k', hu', hslot', -, rfl⟩ | ⟨f', n', hu', rfl, rfl⟩ <;>
    rw [hu] at hu'
  · cases hu'
    refine ⟨?_, rfl⟩
    rcases Nat.lt_trichotomy p q with hlt | heq | hlt
    · have := add_le_of_dvd hslot.dvd hslot'.dvd hlt
      omega
    · exact heq
    · have := add_le_of_dvd hslot'.dvd hslot.dvd hlt
      omega
  · cases hu'
  · cases hu'
  · cases hu'
    exact ⟨rfl, rfl⟩

theorem Taken.pos (hR : Rep L s H) (h : Taken L H p r) : 0 < r := by
  cases h with
  | slot => exact slotSz_pos _
  | @run f n hu =>
    obtain ⟨-, -, hrun⟩ := hR.run f f n hu
    exact Nat.mul_pos hrun.pos (by decide)

/-- **Blocks are disjoint.** -/
theorem Taken.disjoint (hR : Rep L s H) (h : Taken L H p r) (h' : Taken L H q r') (hne : p ≠ q) :
    p + r ≤ q ∨ q + r' ≤ p := by
  have hr := h.pos hR
  have hr' := h'.pos hR
  by_contra hcon
  rcases Nat.le_total p q with hle | hle
  · exact hne (h.eq_of_byte hR h' hle (by omega) (le_refl q) (by omega)).1
  · exact hne (h.eq_of_byte hR h' (le_refl p) (by omega) hle (by omega)).1

/-- Blocks lie behind the table. -/
theorem Taken.base_le (h : Taken L H p r) : L.base ≤ p := by
  have hpage : ∀ i, L.base ≤ L.page i := fun i => Nat.le_add_right _ _
  cases h with
  | @slot i _ _ _ _ hslot _ =>
    have := hpage i
    have := hslot.low'
    omega
  | @run f _ _ => exact hpage f

theorem Layout.base_pos (L : Layout) : 0 < L.base := by
  have := L.page_pos 0
  unfold Layout.page at this
  omega

theorem Taken.ne_zero (h : Taken L H p r) : p ≠ 0 := by
  have := h.base_le
  have := L.base_pos
  omega

/-! ## The table -/

/-- An entry is free exactly when its page is. -/
theorem Rep.isAlloc_iff (hR : Rep L s H) (hi : i < L.lim) :
    s.isAlloc i = false ↔ H.use i = .free := by
  have hentry := hR.entry i hi
  have halloc : s.isAlloc i = false ↔ load s.mem (L.entry i + 16) 1 = 0 := by
    unfold State.isAlloc State.get
    rw [hR.globals.metaAt, bne_eq_false_iff_eq]
  rw [halloc]
  cases hu : H.use i with
  | free =>
    rw [hu] at hentry
    exact ⟨fun _ => rfl, fun _ => hentry⟩
  | slab c k =>
    rw [hu] at hentry
    exact ⟨fun h => absurd h hentry.1, fun h => by cases h⟩
  | block f n =>
    rw [hu] at hentry
    exact ⟨fun h => absurd h hentry.1, fun h => by cases h⟩
  | junk =>
    rw [hu] at hentry
    exact ⟨fun h => absurd h hentry, fun h => by cases h⟩

theorem Rep.free_iff (hR : Rep L s H) (h : c + n ≤ L.lim) :
    Free s c n ↔ ∀ i, i < n → H.use (c + i) = .free := by
  constructor
  · exact fun hfree i hi => (hR.isAlloc_iff (by omega)).1 (hfree i hi)
  · exact fun hfree i hi => (hR.isAlloc_iff (by omega)).2 (hfree i hi)

/-- An entry whose bytes are the same. -/
theorem EntryOk.of_same {m : Mem} {u : PageUse} (h : EntryOk L m i u)
    (hsame : Same m m' (L.entry i) (L.entry (i + 1))) : EntryOk L m' i u := by
  cases u with
  | free => exact (load_entry hsame (by omega)).trans h
  | slab c k =>
    exact ⟨by rw [load_entry hsame (by omega)]; exact h.1,
      by rw [load_entry hsame (by omega)]; exact h.2⟩
  | block f n =>
    exact ⟨by rw [load_entry hsame (by omega)]; exact h.1,
      by rw [load_entry hsame (by omega)]; exact h.2.1,
      by rw [load_entry hsame (by omega)]; exact h.2.2⟩
  | junk =>
    show load m' (L.entry i + 16) 1 ≠ 0
    rw [load_entry hsame (by omega)]
    exact h

theorem Starts.of_same (hG : Globals L s) (h : Starts L s)
    (hsame : ∀ i, i < L.nMeta → load m' (L.entry i) 8 = load s.mem (L.entry i) 8) :
    Starts L { s with mem := m' } := by
  intro i hi
  have hstart := h i hi
  unfold State.metaStart State.get at hstart ⊢
  rw [(hG.with_mem m' s.gLock).metaAt i, hsame i hi, ← hG.metaAt]
  exact hstart

/-! ## Chains -/

/-- The link of a page of a chain leads to what follows it. -/
theorem Rep.next_of_split {l₁ l₂ : List Nat} (hR : Rep L s H) (h : H.chain c k = l₁ ++ i :: l₂) :
    s.next (L.page i) = (l₂.map L.page).headD 0 := by
  have hlink := hR.chain c k (by rw [h]; simp)
  rw [h, List.map_append, List.map_cons] at hlink
  exact hlink.drop.2.2.eq_headD

theorem Rep.next_of_cons {l₁ l₂ : List Nat} (hR : Rep L s H)
    (h : H.chain c k = l₁ ++ i :: j :: l₂) : s.next (L.page i) = L.page j := by
  rw [hR.next_of_split h, List.map_cons, List.headD_cons]

/-- A page without successor is the last of its chain. -/
theorem Rep.next_eq_zero_iff (hR : Rep L s H) (hu : H.use i = .slab c k) :
    s.next (L.page i) = 0 ↔ ∃ l, H.chain c k = l ++ [i] := by
  constructor
  · intro hlast
    obtain ⟨l₁, l₂, hsplit⟩ := List.append_of_mem ((hR.mem_chain c k i).2 hu)
    match l₂, hsplit with
    | [], hsplit => exact ⟨l₁, hsplit⟩
    | j :: _, hsplit => exact absurd ((hR.next_of_cons hsplit).symm.trans hlast) (L.page_pos j).ne'
  · rintro ⟨l, hsplit⟩
    exact hR.next_of_split hsplit

theorem Rep.chain_nodup (hR : Rep L s H) (c k : Nat) : (H.chain c k).Nodup := by
  by_cases hne : H.chain c k = []
  · rw [hne]
    exact List.nodup_nil
  · exact (hR.chain c k hne).nodup.of_map _

/-! ## Frames -/

/-- The `next` field of a page is outside of what changes. -/
theorem next_of_same (hsame : Same s.mem m' (L.page i + 8) (L.page i + 16)) :
    State.next { s with mem := m' } (L.page i) = s.next (L.page i) :=
  hsame.load

/-- **Writes into a block that is handed out** leave the representation alone. -/
theorem Rep.write (hR : Rep L s H) (ht : Taken L H p r) (honly : OnlyIn s.mem m' p (p + r)) :
    Rep L { s with mem := m' } H := by
  have hbase := ht.base_le
  -- the table is in front of the block
  have htable : ∀ i, i < L.lim → Same s.mem m' (L.entry i) (L.entry (i + 1)) := fun i hi => by
    have hlim := L.lim_le
    have hle : L.entry (i + 1) ≤ L.base := by
      have := L.entry_le_page (i := i + 1) (by omega) 0
      unfold Layout.page at this
      omega
    exact honly.same (.inl (by omega))
  -- a slab page is apart from the block, or the block is one of its slots
  have hpage : ∀ i c k, H.use i = .slab c k → SlabPage s.mem (L.page i) k (H.free i) →
      SlabPage m' (L.page i) k (H.free i) ∧ Same s.mem m' (L.page i + 8) (L.page i + 16) := by
    intro i c k hu hsp
    have hg : gpageSz = 65536 := rfl
    cases ht with
    | @slot j c' k' _ hu' hslot hnot =>
      have hlow := hslot.low'
      have hhigh := hslot.high
      by_cases hij : i = j
      · subst hij
        rw [hu] at hu'
        cases hu'
        exact ⟨hsp.of_slot hslot hnot honly, honly.same (.inl (by omega))⟩
      · have hsame : Same s.mem m' (L.page i) (L.page i + gpageSz) := by
          have := L.page_apart hij
          exact honly.same (by omega)
        exact ⟨hsp.of_same hsame, hsame.sub (by omega) (by omega)⟩
    | @run f n hu' =>
      obtain ⟨-, -, hrun⟩ := hR.run f f n hu'
      have hsame : Same s.mem m' (L.page i) (L.page i + gpageSz) := by
        rw [← L.page_add] at honly
        by_cases hif : i < f
        · have := L.page_lt hif
          exact honly.same (.inl (by omega))
        · by_cases hifn : i < f + n
          · rw [hrun.all i (by omega) hifn] at hu
            cases hu
          · have := L.page_mono (Nat.not_lt.1 hifn)
            exact honly.same (.inr (by omega))
      exact ⟨hsp.of_same hsame, hsame.sub (by omega) (by omega)⟩
  refine ⟨hR.globals.with_mem m' s.gLock, hR.gLock, hR.starts.of_same hR.globals ?_, ?_, hR.run,
    hR.junk, ?_, hR.mem_chain, ?_⟩
  · intro i hi
    have hle := L.nMeta_le
    rw [← Nat.add_zero (L.entry i)]
    exact load_entry (htable i (by omega)) (by omega)
  · exact fun i hi => (hR.entry i hi).of_same (htable i hi)
  · intro i c k hu
    obtain ⟨hi, hk, hsp⟩ := hR.slab i c k hu
    exact ⟨hi, hk, (hpage i c k hu hsp).1⟩
  · intro c k hne
    refine (hR.chain c k hne).congr fun a ha => ?_
    obtain ⟨i, hi, rfl⟩ := List.mem_map.1 ha
    have hu := (hR.mem_chain c k i).1 hi
    exact next_of_same (hpage i c k hu (hR.slab i c k hu).2.2).2

end MyOs.Pmm
