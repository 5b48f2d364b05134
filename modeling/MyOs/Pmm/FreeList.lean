import Mathlib.Order.Bounds.Basic
import MyOs.Lib.Transition
import MyOs.Pmm.Slab

/-!
# The free list of a slab is a set of slots

One slab page from its `slab_init` on, under any sequence of `slab_alloc`, `S_free`
of live slots, writes of the clients into live slots, and changes elsewhere. The
free list then stands for a set, the slots that are not live, and the functions are
the operations of that set.

* `FreeListOk` — the shape of the list: increasing, apart, aligned, in the page, and
  of single slots but for its last node.
* `slabAt_of_reachable` — the invariant of all sequences.
* `slab_refines_set` — `slab_alloc` takes the least free slot, `S_free` adds its
  argument, and the free slots are the slots that are not live.
-/

namespace MyOs.Pmm

open MyOs.Memory MyOs.LinkedList MyOs.FreeChunks MyOs.Transition

-- ---------------------------------------------------------------------------
-- What the list says
-- ---------------------------------------------------------------------------

/-- `l` are the nodes of the free list of the class `k` page at `b`. -/
structure FreeListOk (s : State) (b k : Nat) (l : List Nat) : Prop where
  list : Linked s.nodeNext 0 (s.nHead b) l
  increasing : l.Pairwise (· < ·)
  disjoint : l.Pairwise fun a a' => a + s.nodeSize a ≤ a'
  aligned : ∀ a ∈ l, slotSz k ∣ a
  size : ∀ a ∈ l, 0 < s.nodeSize a ∧ slotSz k ∣ s.nodeSize a
  inside : ∀ a ∈ l, b + payloadOff ≤ a ∧ a + s.nodeSize a ≤ b + gpageSz
  single : ∀ a ∈ l.dropLast, s.nodeSize a = slotSz k

/-- The slots that the nodes of the free list cover. -/
def freeSlots (s : State) (b k : Nat) : Set Nat :=
  {p | Slot b k p ∧ ∃ l, Linked s.nodeNext 0 (s.nHead b) l ∧
    ∃ a ∈ l, a ≤ p ∧ p + slotSz k ≤ a + s.nodeSize a}

-- ---------------------------------------------------------------------------
-- Sequences of calls
-- ---------------------------------------------------------------------------

/-- Memory and globals, and the live slots of the page. -/
structure SlabSeq where
  pmm : State
  live : Finset Nat

inductive SlabCall
  | slabAlloc
  | sFree (p : Nat)
  | write (p : Nat)
  | elsewhere

/-- A call that returns, a write of the client into a live slot, or any change of
memory outside of the page. -/
inductive SlabStep (b k : Nat) : SlabSeq → SlabCall → SlabSeq → Prop
  | slabAlloc {S : SlabSeq} {s' : State} {p : Nat} :
      slabAlloc S.pmm b (slotSz k) = .ok (s', p) →
      SlabStep b k S .slabAlloc ⟨s', if p = 0 then S.live else insert p S.live⟩
  | sFree {S : SlabSeq} {s' : State} {p : Nat} : p ∈ S.live → sFree S.pmm p = .ok s' →
      SlabStep b k S (.sFree p) ⟨s', S.live.erase p⟩
  | write {S : SlabSeq} {m' : Mem} {p : Nat} : p ∈ S.live →
      OnlyIn S.pmm.mem m' p (p + slotSz k) →
      SlabStep b k S (.write p) ⟨{ S.pmm with mem := m' }, S.live⟩
  | elsewhere {S : SlabSeq} {s' : State} : Same S.pmm.mem s'.mem b (b + gpageSz) →
      SlabStep b k S .elsewhere ⟨s', S.live⟩

/-- `slab_init` has just been called. -/
def SlabInit (b k : Nat) (S : SlabSeq) : Prop :=
  (∃ s, slabInit s b (slotSz k) = .ok S.pmm) ∧ S.live = ∅

/-- The states of all sequences. -/
def SlabReachable (b k : Nat) : SlabSeq → Prop := Reach (SlabInit b k) (SlabStep b k)

/-- `b` is the address of a page in the heap. -/
structure IsPage (b : Nat) : Prop where
  dvd : gpageSz ∣ b
  pos : 0 < b
  word : b + gpageSz ≤ 2 ^ 47

variable {S S' : SlabSeq} {s s' : State} {b k p q : Nat} {nodes : List (Nat × Nat)}

-- ---------------------------------------------------------------------------
-- The invariant
-- ---------------------------------------------------------------------------

/-- The free list is `nodes`, and covers the slots that are not live. -/
structure SlabAt (b k : Nat) (S : SlabSeq) (nodes : List (Nat × Nat)) : Prop where
  page : SlabPage S.pmm.mem b k nodes
  carved : Carved (slotSz k) (b + gpageSz) nodes
  slot : ∀ p ∈ S.live, Slot b k p
  covers : ∀ p, Slot b k p → (Covers (slotSz k) nodes p ↔ p ∉ S.live)

theorem IsPage.end_le (hb : IsPage b) : b + gpageSz + 4096 ≤ 2 ^ 64 := by
  have := hb.word
  omega

theorem slabAt_init (hk : k < slabSize) (hb : IsPage b) (h : SlabInit b k S) :
    SlabAt b k S (fullChunks b k) := by
  obtain ⟨⟨s, hrun⟩, hlive⟩ := h
  obtain ⟨m', hrun', hpage, -, -⟩ := slabInit_spec (s := s) hk hb.dvd hb.pos hb.end_le
  obtain hpmm := Except.ok.inj (hrun.symm.trans hrun')
  refine ⟨by rw [hpmm]; exact hpage, fun c hc _ => ?_, fun p hp => ?_, fun p hp => ?_⟩
  · obtain rfl := List.mem_singleton.1 hc
    obtain ⟨-, -, -, -, hle⟩ := hpage.chunks.each _ hc
    obtain ⟨-, -, hlt, -⟩ := firstSlot hk hb.dvd hb.end_le
    have hsz := slotSz_le hk
    have hg : gpageSz = 65536 := rfl
    simp only
    omega
  · rw [hlive] at hp
    exact absurd hp (Finset.notMem_empty p)
  · rw [hlive]
    exact ⟨fun _ => Finset.notMem_empty p, fun _ => covers_full hk hb.dvd hb.end_le hp⟩

/-- The first slot of the list is the least free slot. -/
theorem SlabAt.head {a n : Nat} {l : List (Nat × Nat)} (h : SlabAt b k S ((a, n) :: l)) :
    Slot b k a ∧ a ∉ S.live ∧ ∀ q, Slot b k q → q ∉ S.live → a ≤ q := by
  obtain ⟨hlo, hdvd, -, -, hhi⟩ := h.page.chunks.each (a, n) List.mem_cons_self
  have hle := h.page.chunks.le_length (c := (a, n)) List.mem_cons_self
  simp only at hlo hdvd hhi hle
  have hslot : Slot b k a := ⟨hlo, by omega, hdvd⟩
  refine ⟨hslot, (h.covers a hslot).1 ⟨(a, n), List.mem_cons_self, by simp only; omega,
    by simp only; omega⟩, fun q hq hfree => ?_⟩
  obtain ⟨c, hc, hcq, -⟩ := (h.covers q hq).2 hfree
  rcases List.mem_cons.1 hc with rfl | hc
  · exact hcq
  · have := (List.pairwise_cons.1 h.page.chunks.sorted).1 c hc
    simp only at this
    omega

/-- **`slab_alloc`** at an empty list, and at one with a first node. -/
theorem SlabAt.slabAlloc (hk : k < slabSize) (hb : IsPage b) (h : SlabAt b k S nodes) :
    (nodes = [] ∧ slabAlloc S.pmm b (slotSz k) = .ok (S.pmm, 0)) ∨
      ∃ s' a n l, nodes = (a, n) :: l ∧ slabAlloc S.pmm b (slotSz k) = .ok (s', a) ∧ a ≠ 0 ∧
        SlabAt b k ⟨s', insert a S.live⟩ (pop (slotSz k) nodes) := by
  match nodes, h with
  | [], h => exact .inl ⟨rfl, slabAlloc_nil h.page⟩
  | (a, n) :: l, h =>
    obtain ⟨m', hrun, hpage, -, -⟩ := slabAlloc_cons hk h.page (by have := hb.end_le; omega)
    obtain ⟨hslot, hfree, -⟩ := h.head
    have hne : a ≠ 0 := by
      have := hslot.low
      have := hb.pos
      omega
    refine .inr ⟨_, a, n, l, rfl, hrun, hne, hpage, h.carved.pop h.page.chunks, fun p hp => ?_,
      fun p hp => ?_⟩
    · rcases Finset.mem_insert.1 hp with rfl | hp
      · exact hslot
      · exact h.slot p hp
    · rw [covers_pop h.page.chunks (slotSz_pos k) hp.dvd, h.covers p hp, Finset.mem_insert, not_or]
      exact and_comm

/-- **`S_free`** of a live slot. -/
theorem SlabAt.sFree (hb : IsPage b) (h : SlabAt b k S nodes) (hp : p ∈ S.live) :
    ∃ s' nodes', sFree S.pmm p = .ok s' ∧ SlabAt b k ⟨s', S.live.erase p⟩ nodes' := by
  have hslot := h.slot p hp
  have hnot : ¬ Covers (slotSz k) nodes p := fun hcov => (h.covers p hslot).1 hcov hp
  obtain ⟨m', l₁, l₂, rfl, hrun, hpage, -, -⟩ :=
    sFree_spec hb.dvd (by have := hb.end_le; omega) hslot h.page hnot
  refine ⟨_, _, hrun, hpage, h.carved.insert, fun q hq => h.slot q (Finset.mem_of_mem_erase hq),
    fun q hq => ?_⟩
  rw [covers_insert, h.covers q hq, Finset.mem_erase, not_and_or, not_not]

theorem SlabAt.write {m' : Mem} (h : SlabAt b k S nodes) (hp : p ∈ S.live)
    (honly : OnlyIn S.pmm.mem m' p (p + slotSz k)) :
    SlabAt b k ⟨{ S.pmm with mem := m' }, S.live⟩ nodes := by
  have hslot := h.slot p hp
  have hnot : ¬ Covers (slotSz k) nodes p := fun hcov => (h.covers p hslot).1 hcov hp
  exact ⟨h.page.of_slot hslot hnot honly, h.carved, h.slot, h.covers⟩

/-- **Every sequence keeps the invariant.** -/
theorem slabAt_of_reachable (hk : k < slabSize) (hb : IsPage b) (h : SlabReachable b k S) :
    ∃ nodes, SlabAt b k S nodes := by
  refine Reach.invariant (I := fun S => ∃ nodes, SlabAt b k S nodes) ?_ ?_ h
  · intro S hinit
    exact ⟨_, slabAt_init hk hb hinit⟩
  · rintro S a S' - ⟨nodes, hS⟩ hstep
    cases hstep with
    | slabAlloc hcall =>
      rcases hS.slabAlloc hk hb with ⟨-, hrun⟩ | ⟨s', a, n, l, -, hrun, hne, hS'⟩
      · cases hcall.symm.trans hrun
        exact ⟨nodes, hS⟩
      · cases hcall.symm.trans hrun
        rw [if_neg hne]
        exact ⟨_, hS'⟩
    | sFree hp hcall =>
      obtain ⟨s', nodes', hrun, hS'⟩ := hS.sFree hb hp
      cases hcall.symm.trans hrun
      exact ⟨nodes', hS'⟩
    | write hp honly => exact ⟨nodes, hS.write hp honly⟩
    | elsewhere hsame => exact ⟨nodes, hS.page.of_same hsame, hS.carved, hS.slot, hS.covers⟩

-- ---------------------------------------------------------------------------
-- The list in terms of the state
-- ---------------------------------------------------------------------------

theorem SlabAt.freeListOk (h : SlabAt b k S nodes) :
    FreeListOk S.pmm b k (nodes.map Prod.fst) := by
  have hsize : ∀ c ∈ nodes, S.pmm.nodeSize c.1 = c.2 := h.page.sizes
  have heach := h.page.chunks.each
  have hdisjoint : nodes.Pairwise fun c d => c.1 + S.pmm.nodeSize c.1 ≤ d.1 :=
    h.page.chunks.sorted.imp_of_mem fun hc _ hcd => by rwa [hsize _ hc]
  refine ⟨h.page.list, List.pairwise_map.2 ?_, List.pairwise_map.2 hdisjoint, ?_, ?_, ?_, ?_⟩
  · refine h.page.chunks.sorted.imp_of_mem fun {c d} hc _ hcd => ?_
    obtain ⟨-, -, -, hpos, -⟩ := heach c hc
    omega
  · intro a ha
    obtain ⟨c, hc, rfl⟩ := List.mem_map.1 ha
    exact (heach c hc).2.1
  · intro a ha
    obtain ⟨c, hc, rfl⟩ := List.mem_map.1 ha
    obtain ⟨-, -, hdvd, hpos, -⟩ := heach c hc
    rw [hsize c hc]
    exact ⟨hpos, hdvd⟩
  · intro a ha
    obtain ⟨c, hc, rfl⟩ := List.mem_map.1 ha
    obtain ⟨hlo, -, -, -, hhi⟩ := heach c hc
    rw [hsize c hc]
    exact ⟨hlo, hhi⟩
  · intro a ha
    rw [← List.map_dropLast] at ha
    obtain ⟨c, hc, rfl⟩ := List.mem_map.1 ha
    rw [hsize c (List.dropLast_subset _ hc)]
    exact h.carved.dropLast h.page.chunks hc

/-- The free slots are the slots that the chunks cover. -/
theorem SlabPage.mem_freeSlots (h : SlabPage s.mem b k nodes) :
    p ∈ freeSlots s b k ↔ Slot b k p ∧ Covers (slotSz k) nodes p := by
  have hsize : ∀ c ∈ nodes, s.nodeSize c.1 = c.2 := h.sizes
  constructor
  · rintro ⟨hslot, l, hl, a, ha, hle, hfit⟩
    obtain rfl := hl.unique h.list
    obtain ⟨c, hc, rfl⟩ := List.mem_map.1 ha
    rw [hsize c hc] at hfit
    exact ⟨hslot, c, hc, hle, hfit⟩
  · rintro ⟨hslot, c, hc, hle, hfit⟩
    exact ⟨hslot, _, h.list, c.1, List.mem_map_of_mem hc, hle, by rwa [hsize c hc]⟩

/-- **The free slots are the slots that are not live.** -/
theorem SlabAt.mem_freeSlots (h : SlabAt b k S nodes) :
    p ∈ freeSlots S.pmm b k ↔ Slot b k p ∧ p ∉ S.live := by
  rw [h.page.mem_freeSlots]
  exact and_congr_right fun hslot => h.covers p hslot

-- ---------------------------------------------------------------------------
-- The refinement
-- ---------------------------------------------------------------------------

/-- **The free list refines a set of slots.** After any sequence of calls its nodes
cover the slots that are not live; `slab_alloc` takes the least of them, or there is
none and nothing changes; `S_free` of a live slot adds it and no other. -/
theorem slab_refines_set (hk : k < slabSize) (hb : IsPage b) (h : SlabReachable b k S) :
    (∃ l, FreeListOk S.pmm b k l) ∧
      freeSlots S.pmm b k = {p | Slot b k p ∧ p ∉ S.live} ∧
      (∃ s' p, slabAlloc S.pmm b (slotSz k) = .ok (s', p) ∧
        (p = 0 ↔ ∀ q, Slot b k q → q ∈ S.live) ∧
        (p = 0 → s' = S.pmm) ∧
        (p ≠ 0 → IsLeast (freeSlots S.pmm b k) p ∧
          freeSlots s' b k = freeSlots S.pmm b k \ {p})) ∧
      ∀ p ∈ S.live, ∃ s', sFree S.pmm p = .ok s' ∧ p ∉ freeSlots S.pmm b k ∧
        freeSlots s' b k = insert p (freeSlots S.pmm b k) := by
  obtain ⟨nodes, hS⟩ := slabAt_of_reachable hk hb h
  refine ⟨⟨_, hS.freeListOk⟩, Set.ext fun p => hS.mem_freeSlots, ?_, fun p hp => ?_⟩
  · rcases hS.slabAlloc hk hb with ⟨rfl, hrun⟩ | ⟨s', a, n, l, rfl, hrun, hne, hS'⟩
    · refine ⟨S.pmm, 0, hrun, ⟨fun _ q hq => ?_, fun _ => rfl⟩, fun _ => rfl,
        fun h0 => absurd rfl h0⟩
      by_contra hfree
      exact not_covers_nil ((hS.covers q hq).2 hfree)
    · obtain ⟨hslot, hfree, hleast⟩ := hS.head
      refine ⟨s', a, hrun, ⟨fun h0 => absurd h0 hne, fun hall => absurd (hall a hslot) hfree⟩,
        fun h0 => absurd h0 hne, fun _ => ⟨⟨hS.mem_freeSlots.2 ⟨hslot, hfree⟩, fun q hq => ?_⟩, ?_⟩⟩
      · obtain ⟨hq, hqfree⟩ := hS.mem_freeSlots.1 hq
        exact hleast q hq hqfree
      · ext q
        rw [hS'.mem_freeSlots, Set.mem_sdiff, hS.mem_freeSlots, Set.mem_singleton_iff,
          Finset.mem_insert, not_or, and_assoc, and_comm (a := q ∉ S.live)]
  · obtain ⟨s', nodes', hrun, hS'⟩ := hS.sFree hb hp
    refine ⟨s', hrun, fun hmem => (hS.mem_freeSlots.1 hmem).2 hp, ?_⟩
    ext q
    rw [hS'.mem_freeSlots, Set.mem_insert_iff, hS.mem_freeSlots, Finset.mem_erase, not_and_or,
      not_not]
    constructor
    · rintro ⟨hslot, rfl | hfree⟩
      · exact .inl rfl
      · exact .inr ⟨hslot, hfree⟩
    · rintro (rfl | ⟨hslot, hfree⟩)
      · exact ⟨hS.slot q hp, .inl rfl⟩
      · exact ⟨hslot, .inr hfree⟩

/-- The first `slab_alloc` of the 16-byte page at `0x10000` returns its first slot. -/
theorem slab_refines_set_first : ∃ s s' : State, slabInit s 65536 16 = .ok s' ∧
    ∃ s'', slabAlloc s' 65536 16 = .ok (s'', 65568) := by
  have hb : IsPage 65536 := ⟨by decide, by decide, by decide⟩
  have hk : 0 < slabSize := by decide
  obtain ⟨m', hinit, -⟩ :=
    slabInit_spec (s := boot fun _ => 0) hk hb.dvd hb.pos hb.end_le
  obtain ⟨-, hfree, ⟨s'', p, hrun, hnull, -, hleast⟩, -⟩ :=
    slab_refines_set (S := ⟨_, ∅⟩) hk hb (.init ⟨⟨_, hinit⟩, rfl⟩)
  have hslot : Slot 65536 0 65568 := ⟨by decide, by decide, by decide⟩
  have hne : p ≠ 0 := fun h0 => Finset.notMem_empty _ (hnull.1 h0 65568 hslot)
  obtain ⟨⟨⟨⟨hlow, -, hdvd⟩, -⟩, hmin⟩, -⟩ := hleast hne
  -- 65568 is free, and no smaller multiple of 16 lies behind the header
  have hle : p ≤ 65568 := hmin (by
    rw [hfree]
    exact ⟨hslot, Finset.notMem_empty _⟩)
  have hlow' : 65536 + 28 ≤ p := hlow
  have hdvd' : 16 ∣ p := hdvd
  obtain rfl : p = 65568 := by omega
  exact ⟨_, _, hinit, s'', hrun⟩

end MyOs.Pmm
