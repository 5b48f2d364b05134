import MyOs.Pmm.Invariant

/-!
# Memory safety under concurrency

What the invariant means for the memory itself, said without heaps: by the lists
that can be followed from `Slab[cpu][k]` and from the slab headers
(`MemorySafe`).

* `memorySafe_of_reachable` — every reachable state is memory safe.
-/

namespace MyOs.Pmm

open MyOs.Memory MyOs.LinkedList MyOs.FreeChunks MyOs.Transition

/-! ## The allocator's bytes -/

/-- `b` is a page of the chain `Slab[c][k]`. -/
def OnChain (s : State) (c k b : Nat) : Prop := ∃ l, Linked s.next 0 (s.slab c k) l ∧ b ∈ l

/-- `a` is a node of the free list of the page at `b`. -/
def OnFreeList (s : State) (b a : Nat) : Prop := ∃ l, Linked s.nodeNext 0 (s.nHead b) l ∧ a ∈ l

/-- The bytes that belong to the allocator: the `Meta` table, and the header and
the free-list nodes of every linked slab page. -/
inductive MetaByte (P : Platform) (s : State) (x : Nat) : Prop
  | table : s.Meta ≤ x → x < s.Meta + metaBytes * metaSz → MetaByte P s x
  | header {c k b : Nat} : c < P.cpuCount → k < slabSize → OnChain s c k b → b ≤ x →
      x < b + payloadOff → MetaByte P s x
  | node {c k b a : Nat} : c < P.cpuCount → k < slabSize → OnChain s c k b → OnFreeList s b a →
      a ≤ x → x < a + nodeBytes → MetaByte P s x

/-- `p` is a slot of the page at `b`, whose header has the slot size. -/
structure IsSlot (s : State) (b p : Nat) : Prop where
  low : b + payloadOff ≤ p
  high : p + s.sz b ≤ b + gpageSz
  dvd : s.sz b ∣ p

/-- A node of the free list of the page at `b` covers `p`. -/
def SlotFree (s : State) (b p : Nat) : Prop := ∃ a, OnFreeList s b a ∧ a ≤ p ∧ p < a + s.nodeSize a

def SlotLive (S : Sys) (p : Nat) : Prop := ∃ r, S.live p = some r

/-- A thread has popped `p` and not returned it yet. -/
def SlotHeld (S : Sys) (p : Nat) : Prop := ∃ t r, S.pc t = .ret p r

def ExactlyOne (a b c : Prop) : Prop := (a ∧ ¬ b ∧ ¬ c) ∨ (¬ a ∧ b ∧ ¬ c) ∨ (¬ a ∧ ¬ b ∧ c)

/-- **Memory safety** of a state of the machine: of the live blocks, of the slots of
slab pages, and of the blocks that threads are about to return, which are neither live
nor in the hand of another thread. -/
structure MemorySafe (P : Platform) (S : Sys) : Prop where
  chain : ∀ c k, c < P.cpuCount → k < slabSize →
    ∃ l, l ≠ [] ∧ Linked S.pmm.next 0 (S.pmm.slab c k) l
  freeList : ∀ c k b, c < P.cpuCount → k < slabSize → OnChain S.pmm c k b →
    ∃ l, Linked S.pmm.nodeNext 0 (S.pmm.nHead b) l
  disjoint : ∀ p q r r', S.live p = some r → S.live q = some r' → p ≠ q → p + r ≤ q ∨ q + r' ≤ p
  apart : ∀ p r x, S.live p = some r → p ≤ x → x < p + r → ¬ MetaByte P S.pmm x
  write : ∀ p r m', S.live p = some r → OnlyIn S.pmm.mem m' p (p + r) →
    ∀ x, MetaByte P S.pmm x → m' x = S.pmm.mem x
  slot : ∀ c k b p, c < P.cpuCount → k < slabSize → OnChain S.pmm c k b → IsSlot S.pmm b p →
    ExactlyOne (SlotLive S p) (SlotFree S.pmm b p) (SlotHeld S p)
  held : ∀ t p r, S.pc t = .ret p r → p ≠ 0 →
    S.live p = none ∧ ∀ u r', S.pc u = .ret p r' → u = t
  held_disjoint : ∀ t p r q r', S.pc t = .ret p r → p ≠ 0 → S.live q = some r' →
    p + r ≤ q ∨ q + r' ≤ p
  held_apart : ∀ t p r x, S.pc t = .ret p r → p ≠ 0 → p ≤ x → x < p + r → ¬ MetaByte P S.pmm x

variable {P : Platform} {L : Layout} {S : Sys} {s : State} {H : Heap} {i c k b p r x : Nat}

/-! ## From lists to heaps -/

/-- The pages of a chain are its slab pages. -/
theorem OnChain.exists_page (hR : Rep L s H) (hne : H.chain c k ≠ []) (h : OnChain s c k b) :
    ∃ i, b = L.page i ∧ H.use i = .slab c k := by
  obtain ⟨l, hl, hb⟩ := h
  rw [hl.unique (hR.chain c k hne)] at hb
  obtain ⟨i, hi, rfl⟩ := List.mem_map.1 hb
  exact ⟨i, rfl, (hR.mem_chain c k i).1 hi⟩

/-- The nodes of a free list are its chunks. -/
theorem OnFreeList.exists_chunk {a : Nat} (hsp : SlabPage s.mem b k (H.free i))
    (h : OnFreeList s b a) : ∃ n, (a, n) ∈ H.free i ∧ s.nodeSize a = n := by
  obtain ⟨l, hl, ha⟩ := h
  rw [hl.unique hsp.list] at ha
  obtain ⟨c, hc, rfl⟩ := List.mem_map.1 ha
  exact ⟨c.2, hc, hsp.sizes c hc⟩

/-- A slot is in the free list exactly when a chunk covers it. -/
theorem slotFree_iff (hsp : SlabPage s.mem b k (H.free i)) (hslot : Slot b k p) :
    SlotFree s b p ↔ Covers (slotSz k) (H.free i) p := by
  constructor
  · rintro ⟨a, ha, hlo, hhi⟩
    obtain ⟨n, hmem, hn⟩ := ha.exists_chunk hsp
    obtain ⟨-, hdvd, hdvd', -, -⟩ := hsp.chunks.each (a, n) hmem
    rw [hn] at hhi
    exact ⟨(a, n), hmem, hlo, add_le_of_dvd hslot.dvd (Nat.dvd_add hdvd hdvd') hhi⟩
  · rintro ⟨⟨a, n⟩, hmem, hlo, hhi⟩
    have hpos := slotSz_pos k
    have hsize : s.nodeSize a = n := hsp.sizes (a, n) hmem
    refine ⟨a, ⟨_, hsp.list, List.mem_map_of_mem hmem⟩, hlo, ?_⟩
    rw [hsize]
    simp only at hhi
    omega

theorem isSlot_iff (hsp : SlabPage s.mem b k (H.free i)) : IsSlot s b p ↔ Slot b k p := by
  have hsz : s.sz b = slotSz k := hsp.sz
  constructor
  · rintro ⟨hlow, hhigh, hdvd⟩
    rw [hsz] at hhigh hdvd
    exact ⟨hlow, hhigh, hdvd⟩
  · rintro ⟨hlow, hhigh, hdvd⟩
    refine ⟨hlow, ?_, ?_⟩
    · rwa [hsz]
    · rwa [hsz]

/-! ## Blocks and the allocator's bytes -/

/-- **Blocks have none of the allocator's bytes.** -/
theorem Taken.not_metaByte (hR : Rep L s H) (hch : Chained P H) (ht : Taken L H p r) (hlo : p ≤ x)
    (hhi : x < p + r) : ¬ MetaByte P s x := by
  have hg : gpageSz = 65536 := rfl
  have hpay : payloadOff = 28 := rfl
  -- a byte of a slab page belongs to one of its slots that is not free
  have hslab : ∀ i c k, H.use i = .slab c k → L.page i ≤ x → x < L.page i + gpageSz →
      Slot (L.page i) k p ∧ ¬ Covers (slotSz k) (H.free i) p ∧ r = slotSz k := by
    intro i c k hu hix hix'
    obtain ⟨j, hj, hj', hcase⟩ := ht.byte hR hlo hhi
    obtain rfl := L.page_unique hix hix' hj hj'
    rcases hcase with ⟨c', k', hu', hslot, hnot, hr⟩ | ⟨f, n, hu', -⟩
    · rw [hu] at hu'
      cases hu'
      exact ⟨hslot, hnot, hr⟩
    · rw [hu] at hu'
      cases hu'
  intro hmeta
  cases hmeta with
  | table hx hx' =>
    have hbase := ht.base_le
    have htable := L.table
    rw [hR.globals.Meta] at hx hx'
    omega
  | header hc hk hon hx hx' =>
    obtain ⟨i, rfl, hu⟩ := hon.exists_page hR ((hch _ _).2 ⟨hc, hk⟩)
    obtain ⟨hslot, -, -⟩ := hslab i _ _ hu hx (by omega)
    have hlow := hslot.low'
    omega
  | @node c k b a hc hk hon hfree hx hx' =>
    obtain ⟨i, rfl, hu⟩ := hon.exists_page hR ((hch _ _).2 ⟨hc, hk⟩)
    obtain ⟨-, -, hsp⟩ := hR.slab i c k hu
    obtain ⟨n, hmem, -⟩ := hfree.exists_chunk hsp
    have hnode := hsp.node hmem
    have hbytes : nodeBytes = 16 := rfl
    simp only at hnode
    obtain ⟨hslot, hnot, hr⟩ := hslab i c k hu (by omega) (by omega)
    have hapart := hsp.chunks.apart hslot.dvd hnot hmem
    simp only at hapart
    omega

/-- **Every slot has one owner**: a client, the free list, or a thread. -/
theorem InvAt.slot_owner (h : InvAt P L S H) (hu : H.use i = .slab c k)
    (hslot : Slot (L.page i) k p) :
    ExactlyOne (SlotLive S p) (SlotFree S.pmm (L.page i) p) (SlotHeld S p) := by
  obtain ⟨-, -, hsp⟩ := h.rep.slab i c k hu
  have hp : p ≠ 0 := by
    have := hslot.low'
    omega
  have hheld : ∀ t r, S.pc t = .ret p r → Pc.held (S.pc t) = some (p, r) := fun t r hpc => by
    rw [hpc]
    exact held_ret hp
  have hiff : ∀ r, Taken L H p r ↔ ¬ Covers (slotSz k) (H.free i) p ∧ r = slotSz k :=
    fun r => taken_slot_iff h.rep hu hslot
  unfold ExactlyOne
  rw [slotFree_iff hsp hslot]
  by_cases hcov : Covers (slotSz k) (H.free i) p
  · -- a free slot is not handed out, so nobody has it
    refine .inr (.inl ⟨?_, hcov, ?_⟩)
    · rintro ⟨r, hr⟩
      exact ((hiff r).1 (h.owned.live_taken p r hr)).1 hcov
    · rintro ⟨t, r, hpc⟩
      exact ((hiff r).1 (h.owned.held_taken t p r (hheld t r hpc))).1 hcov
  · rcases h.owned.owner p (slotSz k) ((hiff _).2 ⟨hcov, rfl⟩) with hlive | ⟨t, ht⟩
    · refine .inl ⟨⟨_, hlive⟩, hcov, ?_⟩
      rintro ⟨u, r, hpc⟩
      exact h.owned.live_not_held u p _ r hlive (hheld u r hpc)
    · refine .inr (.inr ⟨?_, hcov, ?_⟩)
      · rintro ⟨r, hr⟩
        exact h.owned.live_not_held t p r _ hr ht
      · rw [Function.comp_apply] at ht
        cases hpc : S.pc t with
        | ret q r =>
          rw [hpc] at ht
          by_cases hq : q = 0
          · rw [hq] at ht
            cases ht
          · rw [held_ret hq] at ht
            cases ht
            exact ⟨t, _, hpc⟩
        | _ =>
          rw [hpc] at ht
          cases ht

/-! ## All runs -/

theorem InvAt.memorySafe (h : InvAt P L S H) : MemorySafe P S := by
  have htaken := h.owned.live_taken
  have hheld : ∀ t p r, S.pc t = .ret p r → p ≠ 0 → (Pc.held ∘ S.pc) t = some (p, r) :=
    fun t p r hpc hp => by
      rw [Function.comp_apply, hpc]
      exact held_ret hp
  have hfresh : ∀ t p r, S.pc t = .ret p r → p ≠ 0 → S.live p = none := fun t p r hpc hp => by
    refine Option.eq_none_iff_forall_ne_some.2 fun r' hlive => ?_
    exact h.owned.live_not_held t p r' r hlive (hheld t p r hpc hp)
  have hpage : ∀ c k b, c < P.cpuCount → k < slabSize → OnChain S.pmm c k b →
      ∃ i, b = L.page i ∧ H.use i = .slab c k :=
    fun c k b hc hk hon => hon.exists_page h.rep ((h.chained c k).2 ⟨hc, hk⟩)
  refine ⟨fun c k hc hk => ?_, fun c k b hc hk hon => ?_, fun p q r r' hp hq => ?_,
    fun p r x hp => ?_, fun p r m' hp honly x hx => ?_, fun c k b p hc hk hon hslot => ?_,
    fun t p r hpc hp => ?_, fun t p r q r' hpc hp hq => ?_, fun t p r x hpc hp => ?_⟩
  · have hne := (h.chained c k).2 ⟨hc, hk⟩
    exact ⟨_, by simpa using hne, h.rep.chain c k hne⟩
  · obtain ⟨i, rfl, hu⟩ := hpage c k b hc hk hon
    obtain ⟨-, -, hsp⟩ := h.rep.slab i c k hu
    exact ⟨_, hsp.list⟩
  · exact (htaken p r hp).disjoint h.rep (htaken q r' hq)
  · exact (htaken p r hp).not_metaByte h.rep h.chained
  · refine honly x ?_
    by_contra hcon
    exact (htaken p r hp).not_metaByte h.rep h.chained (by omega) (by omega) hx
  · obtain ⟨i, rfl, hu⟩ := hpage c k b hc hk hon
    obtain ⟨-, -, hsp⟩ := h.rep.slab i c k hu
    exact h.slot_owner hu ((isSlot_iff hsp).1 hslot)
  · refine ⟨hfresh t p r hpc hp, fun u r' hpc' => ?_⟩
    exact h.owned.held_unique u t p r' r (hheld u p r' hpc' hp) (hheld t p r hpc hp)
  · refine (h.owned.held_taken t p r (hheld t p r hpc hp)).disjoint h.rep (htaken q r' hq) ?_
    rintro rfl
    rw [hfresh t p r hpc hp] at hq
    cases hq
  · exact (h.owned.held_taken t p r (hheld t p r hpc hp)).not_metaByte h.rep h.chained

/-- **Memory safety.** Whatever the threads do and however their critical sections
interleave: live blocks are disjoint from each other and from the allocator's
bytes, every slot has exactly one owner, and so has every block on its way to a client. -/
theorem memorySafe_of_reachable (P : Platform) (hroom : P.nMeta + 255 ≤ metaSz) (S : Sys)
    (hr : Reachable P S) : MemorySafe P S := by
  obtain ⟨H, h⟩ := invAt_of_reachable hroom hr
  exact h.memorySafe

/-- Two threads have a block each, of 16 and of 32 bytes, on a heap of 20 pages. -/
theorem memorySafe_kalloc : ∃ S p q, Reachable (.sample 20) S ∧ p ≠ q ∧ S.live p = some 16 ∧
    S.live q = some 32 ∧ (p + 16 ≤ q ∨ q + 32 ≤ p) ∧ MemorySafe (.sample 20) S := by
  obtain ⟨-, s, -, live, p, q, h, -, hp, hq, hpq, -⟩ := exists_two_blocks (P := .sample 20)
    (fun _ _ _ => True) (by decide) (by decide) (by decide) (show 0 < _ by decide) trivial trivial
  have hr : Reachable (.sample 20) ⟨s, fun _ => .idle, live, none⟩ := h.of_restrict
  have hsafe := memorySafe_of_reachable _ (by decide) _ hr
  exact ⟨_, p, q, hr, hpq, hp, hq, hsafe.disjoint p q 16 32 hp hq hpq, hsafe⟩

end MyOs.Pmm
