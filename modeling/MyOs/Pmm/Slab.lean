import MyOs.Pmm.Rounding
import MyOs.Lib.LinkedList
import MyOs.Lib.FreeChunks

/-!
# Slab pages

One page of one slab class: its header and the free list threaded through its
free slots (`SlabPage`), and what the critical sections of `slab_alloc`,
`S_free` and `slab_init` make of them. Each changes bytes of its own page only.

* `slabAlloc_nil` / `slabAlloc_cons` — the first free slot is taken, or there is
  none and nothing changes.
* `sFree_spec` — the slot goes back in address order.
* `slabInit_spec` — all slots of a new slab page are free.
-/

namespace MyOs.Pmm

open MyOs.Memory MyOs.LinkedList MyOs.FreeChunks

variable {s : State} {m m' : Mem} {b k p a n : Nat} {nodes l : List (Nat × Nat)}

/-! ## Slots and the free list -/

/-- `p` is a slot of the class `k` page at `b`. -/
structure Slot (b k p : Nat) : Prop where
  low : b + payloadOff ≤ p
  high : p + slotSz k ≤ b + gpageSz
  dvd : slotSz k ∣ p

/-- The header and the free list of the class `k` page at `b`, unlocked: the
list is `nodes`, with the size each node records. -/
structure SlabPage (m : Mem) (b k : Nat) (nodes : List (Nat × Nat)) : Prop where
  lk : load m (b + 24) 4 = 0
  sz : load m (b + 16) 8 = slotSz k
  list : Linked (fun a => load m a 8) 0 (load m b 8) (nodes.map Prod.fst)
  sizes : ∀ c ∈ nodes, load m (c.1 + 8) 8 = c.2
  chunks : Chunks (slotSz k) (b + payloadOff) (b + gpageSz) nodes

/-- Where a node is, and that its two fields lie inside its chunk. -/
theorem SlabPage.node (h : SlabPage m b k nodes) {c : Nat × Nat} (hc : c ∈ nodes) :
    b + 28 ≤ c.1 ∧ c.1 + 16 ≤ c.1 + c.2 ∧ c.1 + c.2 ≤ b + gpageSz := by
  obtain ⟨hlo, -, -, -, hhi⟩ := h.chunks.each c hc
  have hlen := h.chunks.le_length hc
  have hsz := nodeBytes_le_slotSz k
  unfold payloadOff at hlo
  omega

/-- **Frame.** The list head, the slot size, the lock and the nodes are all that
the description depends on. -/
theorem SlabPage.frame (h : SlabPage m b k nodes) (hhead : Same m m' b (b + 8))
    (hsz : Same m m' (b + 16) (b + 24)) (hlk : load m' (b + 24) 4 = 0)
    (hnodes : ∀ c ∈ nodes, Same m m' c.1 (c.1 + 16)) : SlabPage m' b k nodes := by
  refine ⟨hlk, ?_, ?_, fun c hc => ?_, h.chunks⟩
  · rw [(hsz.sub (by omega) (by omega)).load, h.sz]
  · rw [hhead.load]
    refine h.list.congr fun x hx => ?_
    obtain ⟨c, hc, rfl⟩ := List.mem_map.1 hx
    exact ((hnodes c hc).sub (le_refl _) (by omega)).load
  · rw [((hnodes c hc).sub (by omega) (by omega)).load, h.sizes c hc]

/-- A write that stays off the page. -/
theorem SlabPage.of_same (h : SlabPage m b k nodes) (hsame : Same m m' b (b + gpageSz)) :
    SlabPage m' b k nodes := by
  have hg : gpageSz = 65536 := rfl
  refine h.frame (hsame.sub (by omega) (by omega)) (hsame.sub (by omega) (by omega)) ?_
    fun c hc => ?_
  · rw [(hsame.sub (by omega) (by omega)).load, h.lk]
  · have := h.node hc
    exact hsame.sub (by omega) (by omega)

/-- **A write into a slot that is not free** leaves header and free list alone. -/
theorem SlabPage.of_slot (h : SlabPage m b k nodes) (hslot : Slot b k p)
    (hnot : ¬ Covers (slotSz k) nodes p) (honly : OnlyIn m m' p (p + slotSz k)) :
    SlabPage m' b k nodes := by
  have hlow := hslot.low
  unfold payloadOff at hlow
  refine h.frame (honly.same (.inl (by omega))) (honly.same (.inl (by omega))) ?_ fun c hc => ?_
  · rw [(honly.same (.inl (by omega))).load, h.lk]
  · have := h.node hc
    have := h.chunks.apart hslot.dvd hnot hc
    exact honly.same (by omega)

/-! ## Locking -/

/-- Locking and unlocking a free lock leaves no trace. -/
theorem spinUnlock_setLk (h : s.lk b = 0) : spinUnlock (s.setLk b 1) b = s := by
  have hmem : store (store s.mem (b + 24) 4 1) (b + 24) 4 0 = s.mem := by
    unfold State.lk State.get at h
    rw [store_store]
    conv_lhs => rw [← h]
    exact store_load
  unfold spinUnlock State.setLk State.put
  rw [hmem]

@[simp] theorem gLock_setLk {v : Nat} : (s.setLk b v).gLock = s.gLock := rfl

/-- The link to a new page and the unlocking, over the memory `m` that the call has left. -/
theorem spinUnlock_setNext (m : Mem) {v ret : Nat} :
    spinUnlock (State.setNext { s.setLk b v with mem := m } b ret) b =
      { s with mem := store (store m (b + 8) 8 ret) (b + 24) 4 0 } := rfl

theorem spinLock_free (h : s.lk b = 0) : spinLock s b = .ok (s.setLk b 1) := if_pos h

/-- The locked read of `next` changes nothing. -/
theorem readNext_spec (h : SlabPage s.mem b k nodes) : readNext s b = .ok (s, s.next b) := by
  have hlk : s.lk b = 0 := h.lk
  have hnext : (s.setLk b 1).next b = s.next b := load_store_of_disjoint (by omega)
  unfold readNext
  rw [spinLock_free hlk, ok_bind]
  simp only [hnext, spinUnlock_setLk hlk]
  rfl

/-! ## `slab_alloc` -/

theorem slabAlloc_nil (h : SlabPage s.mem b k []) : slabAlloc s b (slotSz k) = .ok (s, 0) := by
  have hlk : s.lk b = 0 := h.lk
  have hnode : (s.setLk b 1).nHead b = 0 :=
    (load_store_of_disjoint (by omega)).trans h.list
  have htake : slabTake (s.setLk b 1) b (slotSz k) = .ok (s.setLk b 1) := by
    unfold slabTake
    simp only [hnode]
    rfl
  have hdown : roundDown 0 (slotSz k) = 0 := Nat.zero_and _
  unfold slabAlloc
  rw [spinLock_free hlk, ok_bind]
  simp only [htake, ok_bind, hnode, check_pos hdown, spinUnlock_setLk hlk]
  rfl

/-- What `slab_alloc` does to memory between lock and unlock: the node list loses
its first slot. -/
theorem slabTake_cons (h : SlabPage s.mem b k ((a, n) :: l))
    (hb : b + gpageSz ≤ 2 ^ 64) :
    ∃ m', slabTake (s.setLk b 1) b (slotSz k) = .ok { s with mem := m' } ∧
      OnlyIn s.mem m' b (b + gpageSz) ∧ Same s.mem m' (b + 8) (b + 24) ∧
      Linked (fun x => load m' x 8) 0 (load m' b 8) ((pop (slotSz k) ((a, n) :: l)).map Prod.fst) ∧
      ∀ c ∈ pop (slotSz k) ((a, n) :: l), load m' (c.1 + 8) 8 = c.2 := by
  have hnode := h.node (c := (a, n)) List.mem_cons_self
  have hsz16 := nodeBytes_le_slotSz k
  simp only at hnode
  obtain ⟨hhead, hane, hlist⟩ := h.list
  -- the later nodes lie behind the first chunk
  have hlater : ∀ c ∈ l, a + n ≤ c.1 ∧ c.1 + 16 ≤ b + gpageSz := fun c hc => by
    have := h.node (List.mem_cons_of_mem _ hc)
    exact ⟨(List.pairwise_cons.1 h.chunks.sorted).1 c hc, by omega⟩
  have hsizes : ∀ c ∈ l, load s.mem (c.1 + 8) 8 = c.2 :=
    fun c hc => h.sizes c (List.mem_cons_of_mem _ hc)
  have hword : ∀ x, load s.mem x 8 < 256 ^ 8 := fun x => load_lt _ _ _
  have hnHead : (s.setLk b 1).nHead b = a := (load_store_of_disjoint (by omega)).trans hhead
  have hnext : (s.setLk b 1).nodeNext a = load s.mem a 8 := load_store_of_disjoint (by omega)
  have hsize : (s.setLk b 1).nodeSize a = n :=
    (load_store_of_disjoint (by omega)).trans (h.sizes (a, n) List.mem_cons_self)
  unfold slabTake
  simp only [hnHead, hsize]
  rw [if_pos hane, pop]
  by_cases hn : n = slotSz k
  · -- the chunk is one slot: the list goes on behind it
    rw [if_pos hn, if_pos hn, hnext]
    refine ⟨_, rfl, ?_, ?_, ?_, ?_⟩ <;> simp only [State.setLk, State.put]
    · exact ((OnlyIn.refl _ _ _).store (by omega) (by omega)).store (by omega) (by omega)
    · exact (same_store (.inr (by omega))).trans (same_store (.inl (by omega)))
    · rw [load_store (hword a)]
      refine hlist.congr fun x hx => ?_
      obtain ⟨c, hc, rfl⟩ := List.mem_map.1 hx
      have := hlater c hc
      rw [load_store_of_disjoint (by omega), load_store_of_disjoint (by omega)]
    · intro c hc
      have := hlater c hc
      rw [load_store_of_disjoint (by omega), load_store_of_disjoint (by omega), hsizes c hc]
  · -- the chunk is longer: its rest becomes the first node
    have hrest : slotSz k + slotSz k ≤ n := by
      obtain ⟨-, ha, hdvd, -, -⟩ := h.chunks.each (a, n) List.mem_cons_self
      have hle := h.chunks.le_length (c := (a, n)) List.mem_cons_self
      exact add_le_of_dvd (Nat.dvd_refl _) hdvd (by simp only at hle; omega)
    have hnext' : ((s.setLk b 1).setNodeSize (a + slotSz k) (n - slotSz k)).nodeNext a =
        load s.mem a 8 := (load_store_of_disjoint (by omega)).trans hnext
    rw [if_neg hn, if_neg hn, check_pos (by omega), ok_bind, hnext']
    refine ⟨_, rfl, ?_, ?_, ?_, ?_⟩ <;>
      simp only [State.setLk, State.setNodeSize, State.setNodeNext, State.put]
    · exact ((((OnlyIn.refl _ _ _).store (by omega) (by omega)).store (by omega) (by omega)).store
        (by omega) (by omega)).store (by omega) (by omega)
    · exact (((same_store (.inr (by omega))).trans (same_store (.inr (by omega)))).trans
        (same_store (.inr (by omega)))).trans (same_store (.inl (by omega)))
    · rw [load_store (show a + slotSz k < 256 ^ 8 by omega)]
      refine ⟨rfl, by simp only; omega, ?_⟩
      beta_reduce
      rw [load_store_of_disjoint (by omega), load_store (hword a)]
      refine hlist.congr fun x hx => ?_
      obtain ⟨c, hc, rfl⟩ := List.mem_map.1 hx
      have := hlater c hc
      rw [load_store_of_disjoint (by omega), load_store_of_disjoint (by omega),
        load_store_of_disjoint (by omega), load_store_of_disjoint (by omega)]
    · intro c hc
      rcases List.mem_cons.1 hc with rfl | hc
      · rw [load_store_of_disjoint (by simp only; omega),
          load_store_of_disjoint (by simp only; omega),
          load_store (show n - slotSz k < 256 ^ 8 by omega)]
      · have := hlater c hc
        rw [load_store_of_disjoint (by omega), load_store_of_disjoint (by omega),
          load_store_of_disjoint (by omega), load_store_of_disjoint (by omega), hsizes c hc]

/-- **`slab_alloc`** takes the first free slot. -/
theorem slabAlloc_cons (hk : k < slabSize) (h : SlabPage s.mem b k ((a, n) :: l))
    (hb : b + gpageSz ≤ 2 ^ 64) :
    ∃ m', slabAlloc s b (slotSz k) = .ok ({ s with mem := m' }, a) ∧
      SlabPage m' b k (pop (slotSz k) ((a, n) :: l)) ∧
      OnlyIn s.mem m' b (b + gpageSz) ∧ Same s.mem m' (b + 8) (b + 16) := by
  obtain ⟨m', htake, honly, hsame, hlist, hsizes⟩ := slabTake_cons h hb
  have hchunks := chunks_pop h.chunks
  have hnode := h.node (c := (a, n)) List.mem_cons_self
  simp only at hnode
  have hnHead : (s.setLk b 1).nHead b = a := (load_store_of_disjoint (by omega)).trans h.list.1
  have hdown : roundDown a (slotSz k) = a :=
    roundDown_eq_self (by omega) (by unfold slabSize at hk; omega)
      (h.chunks.each (a, n) List.mem_cons_self).2.1
  refine ⟨store m' (b + 24) 4 0, ?_, ⟨?_, ?_, ?_, ?_, hchunks⟩, ?_, ?_⟩
  · unfold slabAlloc
    rw [spinLock_free h.lk, ok_bind]
    simp only [htake, ok_bind, hnHead, check_pos hdown]
    rfl
  · exact load_store (by decide)
  · rw [load_store_of_disjoint (by omega), (hsame.sub (by omega) (by omega)).load, h.sz]
  · rw [load_store_of_disjoint (by omega)]
    refine hlist.congr fun x hx => load_store_of_disjoint ?_
    obtain ⟨c, hc, rfl⟩ := List.mem_map.1 hx
    have hlo := (hchunks.each c hc).1
    unfold payloadOff at hlo
    omega
  · intro c hc
    have hlo := (hchunks.each c hc).1
    unfold payloadOff at hlo
    rw [load_store_of_disjoint (by omega), hsizes c hc]
  · exact honly.store (by omega) (by unfold gpageSz; omega)
  · exact (hsame.sub (by omega) (by omega)).trans (same_store (.inr (by omega)))

/-! ## `S_free` -/

/-- The walk of `S_free`: `node` is linked behind the last element below it. `x`
is the address of the link the walk has come along. -/
theorem sFreeLoop_spec {b node : Nat} : ∀ (l : List Nat) (fuel prev x head : Nat),
    Linked (fun a => load s.mem a 8) 0 head l → l.length < fuel → node ∉ l →
    (prev = 0 ∧ x = b ∧ l ≠ [] ∨ prev ≠ 0 ∧ x = prev) →
    ∃ l₁ l₂, l = l₁ ++ l₂ ∧ (∀ a ∈ l₁, a < node) ∧ (∀ a, l₂.head? = some a → node < a) ∧
      sFreeLoop b node fuel s prev head =
        .ok ((s.put node 8 (l₂.headD 0)).put (l₁.getLastD x) 8 node)
  | _, 0, _, _, _, _, hfuel, _, _ => by omega
  | [], fuel + 1, prev, x, head, hlist, _, _, hx => by
    rcases hx with ⟨-, -, hne⟩ | ⟨hprev, rfl⟩
    · exact absurd rfl hne
    · refine ⟨[], [], rfl, by simp, by simp, ?_⟩
      have hnil : ¬ head ≠ 0 := not_not.2 hlist
      rw [sFreeLoop, if_neg hnil]
      simp only [deref_ok hprev, ok_bind]
      rfl
  | a :: l, fuel + 1, prev, x, head, hlist, hfuel, hnode, hx => by
    obtain ⟨rfl, hane, htail⟩ := hlist
    rw [sFreeLoop, if_pos hane]
    by_cases hle : node ≤ head
    · have hne : node ≠ head := fun h => hnode (h ▸ List.mem_cons_self)
      refine ⟨[], head :: l, rfl, by simp, ?_, ?_⟩
      · rintro a ha
        obtain rfl : head = a := Option.some.inj ha
        omega
      · rw [if_pos hle, check_pos hne, ok_bind]
        rcases hx with ⟨rfl, rfl, -⟩ | ⟨hprev, rfl⟩
        · rw [if_pos rfl]
          rfl
        · rw [if_neg hprev]
          rfl
    · -- `node` belongs further down
      obtain ⟨l₁, l₂, rfl, hbelow, habove, hrun⟩ :=
        sFreeLoop_spec l fuel head head (s.nodeNext head) htail
          (by simpa using hfuel) (fun h => hnode (List.mem_cons_of_mem _ h)) (.inr ⟨hane, rfl⟩)
      refine ⟨head :: l₁, l₂, rfl, fun a ha => ?_, habove, ?_⟩
      · rcases List.mem_cons.1 ha with rfl | ha
        · omega
        · exact hbelow a ha
      · rw [if_neg hle, hrun, List.getLastD_cons]

/-- What `S_free` does to memory, in one expression for both of its branches. -/
theorem sFree_eq (hb : gpageSz ∣ b) (hword : b + gpageSz ≤ 2 ^ 64) (hslot : Slot b k p)
    (h : SlabPage s.mem b k nodes) (hnot : ¬ Covers (slotSz k) nodes p) :
    ∃ l₁ l₂ m', nodes = l₁ ++ l₂ ∧ (∀ c ∈ l₁, c.1 < p) ∧
      (∀ c, l₂.head? = some c → p < c.1) ∧ sFree s p = .ok { s with mem := m' } ∧
      store (store (store (store (store s.mem (b + 24) 4 1) (p + 8) 8 (slotSz k))
        p 8 ((l₂.map Prod.fst).headD 0)) ((l₁.map Prod.fst).getLastD b) 8 p) (b + 24) 4 0 = m' := by
  have hsz16 := nodeBytes_le_slotSz k
  have hlow := hslot.low
  have hhigh := hslot.high
  unfold payloadOff at hlow
  have hpage : roundDown p gpageSz = b := roundDown_page hb (by omega) (by omega) (by omega)
  -- the state the walk starts in
  let m₀ := store (store (store s.mem (b + 24) 4 1) (p + 8) 8 (slotSz k)) p 8 0
  have hsz : (s.setLk b 1).sz b = slotSz k := (load_store_of_disjoint (by omega)).trans h.sz
  have hsep : ∀ c ∈ nodes, p + 16 ≤ c.1 ∨ c.1 + 16 ≤ p := fun c hc => by
    have := h.node hc
    have := h.chunks.apart hslot.dvd hnot hc
    omega
  have hhead : load m₀ b 8 = load s.mem b 8 := by
    rw [load_store_of_disjoint (by omega), load_store_of_disjoint (by omega),
      load_store_of_disjoint (by omega)]
  have hlist : Linked (fun a => load m₀ a 8) 0 (load m₀ b 8) (nodes.map Prod.fst) := by
    rw [hhead]
    refine h.list.congr fun x hx => ?_
    obtain ⟨c, hc, rfl⟩ := List.mem_map.1 hx
    have := h.node hc
    have := hsep c hc
    rw [load_store_of_disjoint (by omega), load_store_of_disjoint (by omega),
      load_store_of_disjoint (by omega)]
  have hfuel : (nodes.map Prod.fst).length < gpageSz / nodeBytes + 1 := by
    have hle := h.chunks.length_mul_le
    have : nodes.length * 16 ≤ nodes.length * slotSz k := Nat.mul_le_mul_left _ hsz16
    rw [List.length_map]
    unfold gpageSz nodeBytes payloadOff at *
    omega
  have hfresh : p ∉ nodes.map Prod.fst := fun hmem => by
    obtain ⟨c, hc, hcp⟩ := List.mem_map.1 hmem
    have := hsep c hc
    omega
  have hstart : sFree s p = (if load m₀ b 8 = 0 then .ok (spinUnlock
        (State.setNHead { s with mem := m₀ } b p) b)
      else sFreeLoop b p (gpageSz / nodeBytes + 1) { s with mem := m₀ } 0 (load m₀ b 8) >>=
        fun s => .ok (spinUnlock s b)) := by
    unfold sFree
    have hlock : spinLock s b = .ok (s.setLk b 1) := spinLock_free h.lk
    rw [check_pos (by decide), ok_bind]
    simp only [hpage, hlock, ok_bind, hsz]
    rfl
  rw [hstart]
  match nodes, h, hnot, hlist, hfuel, hfresh with
  | [], h, _, hlist, _, _ =>
    refine ⟨[], [], _, rfl, by simp, by simp, ?_, rfl⟩
    have hnil : load m₀ b 8 = 0 := hlist
    rw [if_pos hnil]
    rfl
  | d :: nodes, h, _, hlist, hfuel, hfresh =>
    obtain ⟨a₁, a₂, hsplit, hbelow, habove, hrun⟩ :=
      sFreeLoop_spec (b := b) (s := { s with mem := m₀ }) _ _ 0 b _ hlist hfuel hfresh
        (.inl ⟨rfl, rfl, by simp⟩)
    obtain ⟨l₁, l₂, hl, rfl, rfl⟩ := List.map_eq_append_iff.1 hsplit
    have hne : load m₀ b 8 ≠ 0 := by
      rw [hlist.1]
      exact hlist.2.1
    refine ⟨l₁, l₂, _, hl, fun c hc => hbelow _ (List.mem_map_of_mem hc), fun c hc => ?_, ?_, rfl⟩
    · exact habove c.1 (by rw [List.head?_map, hc]; rfl)
    · rw [if_neg hne, hrun, ok_bind]
      simp only [spinUnlock, State.setLk, State.put, m₀]
      rw [store_store]

/-- **`S_free`** puts the slot back between the chunks below and above it. -/
theorem sFree_spec (hb : gpageSz ∣ b) (hword : b + gpageSz ≤ 2 ^ 64)
    (hslot : Slot b k p) (h : SlabPage s.mem b k nodes) (hnot : ¬ Covers (slotSz k) nodes p) :
    ∃ m' l₁ l₂, nodes = l₁ ++ l₂ ∧ sFree s p = .ok { s with mem := m' } ∧
      SlabPage m' b k (l₁ ++ (p, slotSz k) :: l₂) ∧
      OnlyIn s.mem m' b (b + gpageSz) ∧ Same s.mem m' (b + 8) (b + 16) := by
  obtain ⟨l₁, l₂, m', rfl, hbelow, habove, hrun, hm'⟩ := sFree_eq hb hword hslot h hnot
  have hsz16 := nodeBytes_le_slotSz k
  have hlow := hslot.low
  have hhigh := hslot.high
  unfold payloadOff at hlow
  -- the link that is redirected to the new node is the header's or a node's
  obtain ⟨x, hxdef⟩ : ∃ x, x = (l₁.map Prod.fst).getLastD b := ⟨_, rfl⟩
  have hx : x = b ∨ ∃ d ∈ l₁ ++ l₂, d.1 = x := by
    have hmem := List.getLastD_mem_cons (l := l₁.map Prod.fst) (a := b)
    rw [← hxdef] at hmem
    rcases List.mem_cons.1 hmem with hxb | hmem
    · exact .inl hxb
    · obtain ⟨d, hd, hdx⟩ := List.mem_map.1 hmem
      exact .inr ⟨d, List.mem_append_left _ hd, hdx⟩
  have hsep : ∀ c ∈ l₁ ++ l₂, p + 16 ≤ c.1 ∨ c.1 + 16 ≤ p := fun c hc => by
    have := h.node hc
    have := h.chunks.apart hslot.dvd hnot hc
    omega
  have hxsep : ∀ c ∈ l₁ ++ l₂, c.1 = x ∨ c.1 + 16 ≤ x ∨ x + 16 ≤ c.1 := fun c hc => by
    have := h.node hc
    rcases hx with rfl | ⟨d, hd, rfl⟩
    · omega
    · have := h.node hd
      by_cases hcd : c = d
      · exact .inl (by rw [hcd])
      · have := h.chunks.apart_of_ne hc hd hcd
        omega
  have hxp : x + 16 ≤ p ∨ p + 16 ≤ x := by
    rcases hx with rfl | ⟨d, hd, rfl⟩
    · omega
    · have := hsep d hd
      omega
  have hxpage : b ≤ x ∧ x + 16 ≤ b + gpageSz ∧ (x = b ∨ b + 28 ≤ x) := by
    rcases hx with rfl | ⟨d, hd, rfl⟩
    · omega
    · have := h.node hd
      omega
  rw [← hxdef] at hm'
  have hnext : (l₂.map Prod.fst).headD 0 < 256 ^ 8 := by
    match l₂ with
    | [] => simp
    | c :: l₂ =>
      have := h.node (List.mem_append_right l₁ List.mem_cons_self)
      simp only [List.map_cons, List.headD_cons]
      omega
  refine ⟨m', l₁, l₂, rfl, hrun, ⟨?_, ?_, ?_, fun c hc => ?_, ?_⟩, ?_, ?_⟩
  · rw [← hm', load_store (by decide)]
  · rw [← hm', load_store_of_disjoint (by omega), load_store_of_disjoint (by omega),
      load_store_of_disjoint (by omega), load_store_of_disjoint (by omega),
      load_store_of_disjoint (by omega), h.sz]
  · rw [List.map_append, List.map_cons]
    have hlist : Linked (fun a => load s.mem a 8) 0 ((fun a => load s.mem a 8) b)
        (l₁.map Prod.fst ++ l₂.map Prod.fst) := by
      rw [← List.map_append]
      exact h.list
    refine Linked.insert hlist ?_ (by simp only; omega) ?_ ?_
      fun a ha hax => ?_
    · refine List.nodup_cons.2 ⟨fun hmem => ?_, hlist.nodup⟩
      rw [← List.map_append] at hmem
      obtain ⟨c, hc, hcb⟩ := List.mem_map.1 hmem
      have := h.node hc
      omega
    · rw [← hxdef, ← hm', load_store_of_disjoint (by omega), load_store (by omega)]
    · rw [← hm', load_store_of_disjoint (by omega), load_store_of_disjoint (by omega),
        load_store hnext]
    · rw [← hxdef] at hax
      rw [← List.map_append] at ha
      have hasep : (a = b ∨ b + 28 ≤ a) ∧ (a + 16 ≤ x ∨ x + 16 ≤ a) ∧
          (p + 16 ≤ a ∨ a + 16 ≤ p) := by
        rcases List.mem_cons.1 ha with rfl | ha
        · omega
        · obtain ⟨c, hc, rfl⟩ := List.mem_map.1 ha
          have := h.node hc
          have := hsep c hc
          have := hxsep c hc
          omega
      rw [← hm', load_store_of_disjoint (by omega), load_store_of_disjoint (by omega),
        load_store_of_disjoint (by omega), load_store_of_disjoint (by omega),
        load_store_of_disjoint (by omega)]
  · rcases List.mem_append.1 hc with hc | hc
    · have hc' := List.mem_append_left l₂ hc
      have := h.node hc'
      have := hsep c hc'
      have := hxsep c hc'
      rw [← hm', load_store_of_disjoint (by omega), load_store_of_disjoint (by omega),
        load_store_of_disjoint (by omega), load_store_of_disjoint (by omega),
        load_store_of_disjoint (by omega), h.sizes c hc']
    · rcases List.mem_cons.1 hc with rfl | hc
      · simp only
        rw [← hm', load_store_of_disjoint (by omega), load_store_of_disjoint (by omega),
          load_store_of_disjoint (by omega), load_store (show slotSz k < 256 ^ 8 by omega)]
      · have hc' := List.mem_append_right l₁ hc
        have := h.node hc'
        have := hsep c hc'
        have := hxsep c hc'
        rw [← hm', load_store_of_disjoint (by omega), load_store_of_disjoint (by omega),
          load_store_of_disjoint (by omega), load_store_of_disjoint (by omega),
          load_store_of_disjoint (by omega), h.sizes c hc']
  · refine chunks_insert h.chunks (slotSz_pos k) hslot.dvd hslot.low hslot.high hnot hbelow ?_
    -- the chunks above `p` are sorted behind the first of them
    intro c hc
    match l₂, habove, hc with
    | d :: l₂, habove, hc =>
      have hd := habove d rfl
      rcases List.mem_cons.1 hc with rfl | hc
      · omega
      · have hsorted := (List.pairwise_append.1 h.chunks.sorted).2.1
        have := (List.pairwise_cons.1 hsorted).1 c hc
        omega
  · rw [← hm']
    exact (((((OnlyIn.refl _ _ _).store (by omega) (by omega)).store (by omega) (by omega)).store
      (by omega) (by omega)).store (by omega) (by omega)).store (by omega) (by omega)
  · rw [← hm']
    exact ((((same_store (.inr (by omega))).trans (same_store (.inr (by omega)))).trans
      (same_store (.inr (by omega)))).trans (same_store (by omega))).trans
      (same_store (.inr (by omega)))

/-! ## `slab_init` -/

/-- The free list of a slab page none of whose slots is taken. -/
def fullChunks (b k : Nat) : List (Nat × Nat) :=
  let first := roundUp (b + payloadOff) (slotSz k)
  [(first, b + gpageSz - first)]

/-- The first slot of a slab page, and the bytes its first node records. -/
theorem firstSlot (hk : k < slabSize) (hb : gpageSz ∣ b) (hword : b + gpageSz + 4096 ≤ 2 ^ 64) :
    slotSz k ∣ roundUp (b + payloadOff) (slotSz k) ∧
      b + 28 ≤ roundUp (b + payloadOff) (slotSz k) ∧
      roundUp (b + payloadOff) (slotSz k) < b + 28 + slotSz k ∧
      roundDown (b + gpageSz - (b + payloadOff)) (slotSz k) =
        b + gpageSz - roundUp (b + payloadOff) (slotSz k) := by
  have hsz : slotSz k ≤ 4096 := slotSz_le hk
  have hk9 : k < 9 := hk
  have hpage : slotSz k ∣ b + gpageSz :=
    Nat.dvd_add ((slotSz_dvd_gpageSz hk).trans hb) (slotSz_dvd_gpageSz hk)
  have hg : gpageSz = 65536 := rfl
  obtain ⟨hdvd, hlow, hhigh⟩ := roundUp_two_pow (a := b + payloadOff) (k := k + 4)
    (by rw [← slotSz]; unfold payloadOff; omega) (by omega)
  rw [← slotSz] at hdvd hlow hhigh
  unfold payloadOff at *
  refine ⟨hdvd, hlow, hhigh, ?_⟩
  -- both sides are the last multiple of the slot size not above the payload's length
  have hdown : roundDown (b + gpageSz - (b + 28)) (slotSz k) = 65508 / slotSz k * slotSz k := by
    rw [hg, show b + 65536 - (b + 28) = 65508 by omega]
    exact roundDown_two_pow (by decide) (by omega)
  have hrest : slotSz k ∣ b + gpageSz - roundUp (b + 28) (slotSz k) := Nat.dvd_sub hpage hdvd
  obtain ⟨q, hq⟩ := hrest
  rw [hdown, hq, Nat.mul_comm (slotSz k) q]
  congr 1
  rw [Nat.div_eq_iff (slotSz_pos k)]
  rw [Nat.mul_comm] at hq
  omega

theorem chunks_full (hk : k < slabSize) (hb : gpageSz ∣ b) (hword : b + gpageSz + 4096 ≤ 2 ^ 64) :
    Chunks (slotSz k) (b + payloadOff) (b + gpageSz) (fullChunks b k) := by
  obtain ⟨hdvd, hlow, hhigh, -⟩ := firstSlot hk hb hword
  have hsz : slotSz k ≤ 4096 := slotSz_le hk
  have hpage : slotSz k ∣ b + gpageSz :=
    Nat.dvd_add ((slotSz_dvd_gpageSz hk).trans hb) (slotSz_dvd_gpageSz hk)
  have hg : gpageSz = 65536 := rfl
  exact Chunks.singleton hlow hdvd (Nat.dvd_sub hpage hdvd) (by omega) (by omega)

/-- Every slot of a fresh slab page is free. -/
theorem covers_full (hk : k < slabSize) (hb : gpageSz ∣ b) (hword : b + gpageSz + 4096 ≤ 2 ^ 64)
    (hslot : Slot b k p) : Covers (slotSz k) (fullChunks b k) p := by
  obtain ⟨hdvd, hlow, hhigh, -⟩ := firstSlot hk hb hword
  have hsz : slotSz k ≤ 4096 := slotSz_le hk
  have hg : gpageSz = 65536 := rfl
  have hp := hslot.low
  have hp' := hslot.high
  unfold payloadOff at hp
  refine covers_cons.2 (.inl ⟨?_, ?_⟩)
  · by_contra hcon
    have := add_le_of_dvd hslot.dvd hdvd (Nat.not_le.1 hcon)
    omega
  · omega

/-- **`slab_init`** makes a slab page all of whose slots are free, and the last
of its chain. -/
theorem slabInit_spec (hk : k < slabSize) (hb : gpageSz ∣ b) (hpos : 0 < b)
    (hword : b + gpageSz + 4096 ≤ 2 ^ 64) :
    ∃ m', slabInit s b (slotSz k) = .ok { s with mem := m' } ∧
      SlabPage m' b k (fullChunks b k) ∧ load m' (b + 8) 8 = 0 ∧
      OnlyIn s.mem m' b (b + gpageSz) := by
  obtain ⟨-, hlow, hhigh, hlen⟩ := firstSlot hk hb hword
  have hsz : slotSz k ≤ 4096 := slotSz_le hk
  have hg : gpageSz = 65536 := rfl
  obtain ⟨first, hfirst⟩ : ∃ x, x = roundUp (b + payloadOff) (slotSz k) := ⟨_, rfl⟩
  rw [← hfirst] at hlow hhigh hlen
  -- the six writes, in the order of the source
  obtain ⟨m', hm'⟩ : ∃ m', m' = store (store (store (store (store (store
    s.mem (b + 24) 4 0) (b + 16) 8 (slotSz k)) b 8 first) (b + 8) 8 0) first 8 0)
    (first + 8) 8 (b + gpageSz - first) := ⟨_, rfl⟩
  have hrun : slabInit s b (slotSz k) = .ok { s with mem := m' } := by
    have hhead : ∀ s' : State, ((s'.setNHead b first).setNext b 0).nHead b = first := fun s' => by
      simp only [State.setNHead, State.setNext, State.nHead, State.get, State.put]
      rw [load_store_of_disjoint (by omega), load_store (by omega)]
    unfold slabInit
    rw [deref_ok (by omega), ok_bind]
    simp only [← hfirst, hhead, hlen, hm']
    rfl
  refine ⟨m', hrun, ⟨?_, ?_, ?_, fun c hc => ?_, chunks_full hk hb hword⟩, ?_, ?_⟩ <;>
    rw [hm']
  · rw [load_store_of_disjoint (by omega), load_store_of_disjoint (by omega),
      load_store_of_disjoint (by omega), load_store_of_disjoint (by omega),
      load_store_of_disjoint (by omega), load_store (by decide)]
  · rw [load_store_of_disjoint (by omega), load_store_of_disjoint (by omega),
      load_store_of_disjoint (by omega), load_store_of_disjoint (by omega),
      load_store (by omega)]
  · rw [load_store_of_disjoint (by omega), load_store_of_disjoint (by omega),
      load_store_of_disjoint (by omega), load_store (by omega)]
    refine ⟨hfirst, by simp only; omega, ?_⟩
    simp only [← hfirst]
    show load _ _ _ = 0
    rw [load_store_of_disjoint (by omega), load_store (by decide)]
  · obtain rfl := List.mem_singleton.1 hc
    simp only [← hfirst]
    rw [load_store (by omega)]
  · rw [load_store_of_disjoint (by omega), load_store_of_disjoint (by omega),
      load_store (by decide)]
  · exact ((((((OnlyIn.refl _ _ _).store (by omega) (by omega)).store (by omega) (by omega)).store
      (by omega) (by omega)).store (by omega) (by omega)).store (by omega) (by omega)).store
      (by omega) (by omega)

end MyOs.Pmm
