import MyOs.Pmm.Safety
import MyOs.Pmm.Sequential

/-!
# Alignment and capacity

What a caller of `kalloc` may rely on: the block starts at a multiple of the least
power of two that covers the request and 16 bytes, and is at least that long. Both
allocators check the alignment of what they return, so this holds in every state
the machine can be in, whatever has happened to its memory.

* `ForRequest` / `exec_forRequest` — a call goes on with the size it was made for.
* `kalloc_guarantee` — the guarantee for every thread that is about to return.
-/

namespace MyOs.Pmm

open MyOs.Memory MyOs.LinkedList MyOs.Transition

variable {P : Platform} {L : Layout} {H : Heap} {s s' : State} {pc pc' : Pc}
  {j e p r c k size sz slab cpu npage : Nat}

-- ---------------------------------------------------------------------------
-- Sizes
-- ---------------------------------------------------------------------------

/-- The reserved bytes are a multiple of the size `kalloc` works with. -/
theorem kallocSize_dvd_reserved (h : size ≤ maxAlloc) :
    kallocSize size ∣ reserved size ∧ kallocSize size ≤ reserved size := by
  obtain ⟨j, -, hj, hsz, -⟩ := kallocSize_spec h
  unfold reserved
  split
  · exact ⟨Nat.dvd_refl _, le_refl _⟩
  · suffices hdvd : kallocSize size ∣ kallocPages (kallocSize size) * gpageSz by
      have hpos : 0 < gpageSz := by decide
      exact ⟨hdvd, Nat.le_of_dvd (Nat.mul_pos (kallocPages_pos _) hpos) hdvd⟩
    rw [hsz]
    unfold kallocPages
    dsimp only
    split
    · -- less than a page: one page
      rename_i hzero
      rw [Nat.one_mul, gpageSz_eq]
      refine Nat.pow_dvd_pow 2 ?_
      by_contra hcon
      have : 2 ^ 16 ≤ 2 ^ j := Nat.pow_le_pow_right (by omega) (by omega)
      rw [gpageSz_eq] at hzero
      omega
    · rename_i hone
      rw [gpageSz_eq] at hone ⊢
      have h16 : 16 ≤ j := by
        by_contra hcon
        exact hone (Nat.div_eq_of_lt (Nat.pow_lt_pow_right (by omega) (by omega)))
      rw [Nat.div_mul_cancel (Nat.pow_dvd_pow 2 h16)]

-- ---------------------------------------------------------------------------
-- The two allocators check what they return
-- ---------------------------------------------------------------------------

theorem slabAlloc_dvd (hj : j ≤ 64) (h : slabAlloc s slab (2 ^ j) = .ok (s', p)) : 2 ^ j ∣ p := by
  unfold slabAlloc at h
  obtain ⟨s₁, -, h⟩ := bind_eq_ok.1 h
  obtain ⟨s₂, -, h⟩ := bind_eq_ok.1 h
  obtain ⟨u, hcheck, h⟩ := bind_eq_ok.1 h
  cases h
  exact dvd_of_roundDown hj (check_eq_ok.1 hcheck)

/-- Induction on the candidates of the scan. -/
theorem gAllocLoop_dvd {isSlab : Bool} (hj : j ≤ 64) : ∀ (fuel : Nat) (s : State) (tryRet : Nat),
    gAllocLoop (2 ^ j) isSlab fuel s tryRet = .ok (s', p) → 2 ^ j ∣ p
  | 0, _, _, h => nomatch h
  | fuel + 1, s, tryRet, h => by
    rw [gAllocLoop] at h
    obtain ⟨valid, -, h⟩ := bind_eq_ok.1 h
    split at h
    · cases h
      exact Nat.dvd_zero _
    · obtain ⟨found, -, h⟩ := bind_eq_ok.1 h
      split at h
      · obtain ⟨s₁, -, h⟩ := bind_eq_ok.1 h
        obtain ⟨u, hcheck, h⟩ := bind_eq_ok.1 h
        cases h
        exact dvd_of_roundDown hj (check_eq_ok.1 hcheck)
      · exact gAllocLoop_dvd hj fuel s _ h

theorem gAlloc_dvd {isSlab : Bool} (he : e ≤ 48) (h : gAlloc s (2 ^ e) isSlab = .ok (s', p)) :
    2 ^ e * gpageSz ∣ p := by
  unfold gAlloc at h
  obtain ⟨s₁, -, h⟩ := bind_eq_ok.1 h
  rw [gpageSz_eq, ← pow_add] at h ⊢
  exact gAllocLoop_dvd (by omega) _ _ _ h

-- ---------------------------------------------------------------------------
-- The size of a call
-- ---------------------------------------------------------------------------

/-- A control point of a `kalloc` that was called for `size` bytes, or of no `kalloc`. -/
def ForRequest (size : Nat) : Pc → Prop
  | .kalloc _ sz => sz = size
  | .slabAlloc _ sz | .readNext _ sz | .addSlab _ sz | .newSlab _ sz =>
    size ≤ maxAlloc ∧ kallocSize size ≤ 4096 ∧ sz = kallocSize size
  | .gAlloc npage =>
    size ≤ maxAlloc ∧ 4096 < kallocSize size ∧ npage = kallocPages (kallocSize size)
  | .ret p r => p ≠ 0 → size ≤ maxAlloc ∧ r = reserved size ∧ reserved size ∣ p
  | _ => True

/-- The loop test of `S_alloc` passes the size on. -/
theorem sAllocNext_forRequest {prev : Nat} (hsize : size ≤ maxAlloc)
    (hsmall : kallocSize size ≤ 4096)
    (h : sAllocNext prev slab (kallocSize size) = .ok pc') : ForRequest size pc' := by
  unfold sAllocNext at h
  split at h
  · cases h
    exact ⟨hsize, hsmall, rfl⟩
  · obtain ⟨u, -, h⟩ := bind_eq_ok.1 h
    cases h
    exact ⟨hsize, hsmall, rfl⟩

/-- A slot of the size `kalloc` works with is as long as reserved, and aligned. -/
theorem forRequest_slot (hsize : size ≤ maxAlloc) (hsmall : kallocSize size ≤ 4096)
    (h : slabAlloc s slab (kallocSize size) = .ok (s', p)) :
    ForRequest size (.ret p (kallocSize size)) := by
  obtain ⟨j, -, hj, hsz, -⟩ := kallocSize_spec hsize
  have hres : reserved size = kallocSize size := if_pos hsmall
  refine fun _ => ⟨hsize, hres.symm, ?_⟩
  rw [hres, hsz]
  rw [hsz] at h
  exact slabAlloc_dvd (by omega) h

/-- Pages, too. -/
theorem forRequest_pages (hsize : size ≤ maxAlloc) (hlarge : 4096 < kallocSize size)
    (h : gAlloc s (kallocPages (kallocSize size)) false = .ok (s', p)) :
    ForRequest size (.ret p (kallocPages (kallocSize size) * gpageSz)) := by
  have hres : reserved size = kallocPages (kallocSize size) * gpageSz :=
    if_neg (Nat.not_le.2 hlarge)
  refine fun _ => ⟨hsize, hres.symm, ?_⟩
  rcases kallocSize_cases hsize with ⟨k, -, -, hsmall⟩ | ⟨-, e, he, hpages⟩
  · omega
  · rw [hres, hpages]
    rw [hpages] at h
    exact gAlloc_dvd (by omega) h

/-- `S_alloc` works with the same size. -/
theorem sAllocHead_size {cpu sz : Nat} (hsize : size ≤ maxAlloc)
    (h : sAllocHead P s cpu (kallocSize size) = .ok (sz, slab)) : sz = kallocSize size := by
  unfold sAllocHead at h
  obtain ⟨id, -, h⟩ := bind_eq_ok.1 h
  obtain ⟨u, -, h⟩ := bind_eq_ok.1 h
  obtain ⟨u', -, h⟩ := bind_eq_ok.1 h
  obtain ⟨j, -, hj, hsz, -⟩ := kallocSize_spec hsize
  rw [hsz, nextPower2_two_pow (by omega)] at h
  cases h
  exact hsz.symm

/-- **A call goes on with its size**, in every state that memory can be in. -/
theorem exec_forRequest (h : ForRequest size pc) (hexec : exec P s pc = .ok (s', pc')) :
    ForRequest size pc' := by
  cases pc with
  | kalloc cpu sz =>
    obtain rfl : sz = size := h
    rw [exec] at hexec
    split at hexec
    · cases hexec
      exact fun hne => absurd rfl hne
    · rename_i hbig
      have hsize := Nat.not_lt.1 hbig
      split at hexec
      · rename_i hsmall
        obtain ⟨⟨sz', slab⟩, hhead, hexec⟩ := bind_eq_ok.1 hexec
        obtain ⟨pc₁, hnext, hexec⟩ := bind_eq_ok.1 hexec
        cases hexec
        rw [sAllocHead_size hsize hhead] at hnext
        exact sAllocNext_forRequest hsize hsmall hnext
      · rename_i hlarge
        cases hexec
        exact ⟨hsize, Nat.not_le.1 hlarge, rfl⟩
  | slabAlloc slab sz =>
    obtain ⟨hsize, hsmall, rfl⟩ := h
    obtain ⟨⟨s₁, p⟩, hcall, hexec⟩ := bind_eq_ok.1 hexec
    dsimp only at hexec
    split at hexec
    · cases hexec
      exact forRequest_slot hsize hsmall hcall
    · cases hexec
      exact ⟨hsize, hsmall, rfl⟩
  | readNext slab sz =>
    obtain ⟨hsize, hsmall, rfl⟩ := h
    obtain ⟨⟨s₁, next⟩, -, hexec⟩ := bind_eq_ok.1 hexec
    obtain ⟨pc₁, hnext, hexec⟩ := bind_eq_ok.1 hexec
    cases hexec
    exact sAllocNext_forRequest hsize hsmall hnext
  | addSlab prev sz =>
    obtain ⟨hsize, hsmall, rfl⟩ := h
    obtain ⟨⟨s₁, newSlab⟩, -, hexec⟩ := bind_eq_ok.1 hexec
    dsimp only at hexec
    split at hexec
    · cases hexec
      exact fun hne => absurd rfl hne
    · cases hexec
      exact ⟨hsize, hsmall, rfl⟩
  | newSlab slab sz =>
    obtain ⟨hsize, hsmall, rfl⟩ := h
    obtain ⟨⟨s₁, p⟩, hcall, hexec⟩ := bind_eq_ok.1 hexec
    obtain ⟨u, -, hexec⟩ := bind_eq_ok.1 hexec
    cases hexec
    exact forRequest_slot hsize hsmall hcall
  | gAlloc npage =>
    obtain ⟨hsize, hlarge, rfl⟩ := h
    obtain ⟨⟨s₁, p⟩, hcall, hexec⟩ := bind_eq_ok.1 hexec
    cases hexec
    exact forRequest_pages hsize hlarge hcall
  | ret p r =>
    cases hexec
    exact h
  | idle =>
    cases hexec
    trivial
  | kfree p =>
    obtain ⟨slab, -, hexec⟩ := bind_eq_ok.1 hexec
    cases hexec
    split <;> trivial
  | sFree p =>
    obtain ⟨s₁, -, hexec⟩ := bind_eq_ok.1 hexec
    cases hexec
    trivial
  | gFree p =>
    obtain ⟨s₁, -, hexec⟩ := bind_eq_ok.1 hexec
    cases hexec
    trivial

-- ---------------------------------------------------------------------------
-- Threads and their requests
-- ---------------------------------------------------------------------------

/-- The machine, and the size each thread has asked for last. -/
structure Requests where
  sys : Sys
  size : Tid → Nat

/-- What a step adds to the requests. -/
def Label.request : Label → (Tid → Nat) → Tid → Nat
  | .kalloc t _ size, req => Function.update req t size
  | _, req => req

def RequestStep (P : Platform) (R : Requests) (a : Label) (R' : Requests) : Prop :=
  Step P R.sys a R'.sys ∧ R'.size = a.request R.size

/-- The states of all interleavings, with the requests that have led there. -/
def RequestReachable (P : Platform) : Requests → Prop :=
  Reach (fun R => Init P R.sys) (RequestStep P)

variable {R R' : Requests} {t : Tid}

theorem RequestReachable.sys (h : RequestReachable P R) : Reachable P R.sys := by
  induction h with
  | init hinit => exact .init hinit
  | step _ hstep ih => exact .step ih hstep.1

/-- A thread moves on inside of its call, the others stay. -/
theorem forRequest_update {pcs : Tid → Pc} {req : Tid → Nat} (h : ∀ u, ForRequest (req u) (pcs u))
    (hpc : ForRequest (req t) pc') (u : Tid) :
    ForRequest (req u) (Function.update pcs t pc' u) := by
  by_cases hut : u = t
  · rw [hut, Function.update_self]
    exact hpc
  · rw [Function.update_of_ne hut]
    exact h u

theorem forRequest_step {a : Label} (h : ∀ u, ForRequest (R.size u) (R.sys.pc u))
    (hstep : RequestStep P R a R') (u : Tid) : ForRequest (R'.size u) (R'.sys.pc u) := by
  obtain ⟨S', req'⟩ := R'
  obtain ⟨hstep, rfl⟩ := hstep
  cases hstep with
  | @kalloc t cpu size _ _ _ =>
    show ForRequest (Function.update R.size t size u) (Function.update R.sys.pc t _ u)
    by_cases hut : u = t
    · rw [hut, Function.update_self, Function.update_self]
      exact rfl
    · rw [Function.update_of_ne hut, Function.update_of_ne hut]
      exact h u
  | @kfree t p r => exact forRequest_update h (show ForRequest (R.size t) (.kfree p) from trivial) u
  | write => exact h u
  | @exec t s' pc' _ hexec => exact forRequest_update h (exec_forRequest (h t) hexec) u
  | halt => exact h u
  | @ret t => exact forRequest_update h (show ForRequest (R.size t) .idle from trivial) u

theorem forRequest_of_reachable (h : RequestReachable P R) (t : Tid) :
    ForRequest (R.size t) (R.sys.pc t) := by
  revert t
  refine Reach.invariant (I := fun R => ∀ t, ForRequest (R.size t) (R.sys.pc t)) ?_ ?_ h
  · rintro R ⟨-, hidle, -, -⟩ t
    rw [hidle]
    trivial
  · exact fun R a R' _ hR hstep => forRequest_step hR hstep

-- ---------------------------------------------------------------------------
-- The range of a block
-- ---------------------------------------------------------------------------

/-- What is reserved at `p`: a slot of a slab page of its class, or whole pages whose
entries name the block. -/
inductive ReservedAt (P : Platform) (s : State) (p r : Nat) : Prop
  | slot {c k b : Nat} : c < P.cpuCount → getSlabIndex r = .ok k → OnChain s c k b →
      IsSlot s b p → s.sz b = r → ReservedAt P s p r
  | pages {i n : Nat} : p = s.gStart + i * gpageSz → r = n * gpageSz →
      (∀ d, d < n → s.isAlloc (i + d) = true ∧ s.isSlab (i + d) = false ∧
        s.metaEnd (i + d) = p + r) → ReservedAt P s p r

theorem Taken.reservedAt (hR : Rep L s H) (hch : Chained P H) (ht : Taken L H p r) :
    ReservedAt P s p r := by
  cases ht with
  | @slot i c k _ hu hslot _ =>
    obtain ⟨-, hk, hsp⟩ := hR.slab i c k hu
    have hmem := (hR.mem_chain c k i).2 hu
    have hne := List.ne_nil_of_mem hmem
    exact .slot ((hch c k).1 hne).1 (getSlabIndex_slotSz hk)
      ⟨_, hR.chain c k hne, List.mem_map_of_mem hmem⟩ ((isSlot_iff hsp).2 hslot) hsp.sz
  | @run f n hu =>
    obtain ⟨-, -, hrun⟩ := hR.run f f n hu
    refine .pages (i := f) (by rw [hR.globals.gStart]; rfl) rfl fun d hd => ?_
    have hlast := hrun.last
    have hentry := hR.entry (f + d) (by omega)
    rw [hrun.all (f + d) (by omega) (by omega)] at hentry
    unfold State.isAlloc State.isSlab State.metaEnd State.get
    rw [hR.globals.metaAt, bne_iff_ne, bne_eq_false_iff_eq, ← L.page_add]
    exact hentry

-- ---------------------------------------------------------------------------
-- The guarantee
-- ---------------------------------------------------------------------------

/-- **Alignment and capacity of every block.** Whenever a thread is about to return `p`
from a `kalloc` for `size` bytes, the request is not above `MAX_ALLOC`; `p` is a
multiple of the least power of two that covers the request and 16 bytes; and as many
bytes are reserved: a slot of that size, or whole pages. -/
theorem kalloc_guarantee (P : Platform) (R : Requests) (hr : RequestReachable P R) (t : Tid)
    (p r : Nat) (hpc : R.sys.pc t = .ret p r) (hp : p ≠ 0) :
    R.size t ≤ maxAlloc ∧
      ∃ n, IsLeast {n | (∃ j, n = 2 ^ j) ∧ max (R.size t) 16 ≤ n} n ∧ n ∣ p ∧ n ≤ r ∧
        r = (if n ≤ 4096 then n else kallocPages n * gpageSz) ∧
        (P.nMeta + 255 ≤ metaSz → ReservedAt P R.sys.pmm p r) := by
  have hreq := forRequest_of_reachable hr t
  rw [hpc] at hreq
  obtain ⟨hsize, rfl, hdvd⟩ := hreq hp
  obtain ⟨hmul, hle⟩ := kallocSize_dvd_reserved hsize
  refine ⟨hsize, kallocSize (R.size t), kallocSize_isLeast hsize, hmul.trans hdvd, hle, rfl,
    fun hroom => ?_⟩
  obtain ⟨H, hinv⟩ := invAt_of_reachable hroom hr.sys
  refine (hinv.owned.held_taken t p _ ?_).reservedAt hinv.rep hinv.chained
  rw [Function.comp_apply, hpc]
  exact held_ret hp

theorem RequestReachable.exec {pcs : Tid → Pc} {live : Nat → Option Nat} {req : Tid → Nat}
    (h : RequestReachable P ⟨⟨s, pcs, live, none⟩, req⟩) (hpc : pcs t = pc)
    (hexec : Pmm.exec P s pc = .ok (s', pc')) :
    RequestReachable P ⟨⟨s', Function.update pcs t pc', release pc live, none⟩, req⟩ := by
  subst hpc
  exact .step h (a := .exec t) ⟨.exec rfl hexec, rfl⟩

/-- A call that nobody interferes with and that finds a slot in the first page of its
chain. -/
theorem exists_ret {i : Nat} {l : List Nat} {pcs : Tid → Pc} {live : Nat → Option Nat}
    {req : Tid → Nat} (h : RequestReachable P ⟨⟨s, pcs, live, none⟩, req⟩) (hR : Rep L s H)
    (hidle : pcs t = .idle) (hcpu : cpu < P.cpuCount) (hsize : size ≤ maxAlloc)
    (hk : k < slabSize) (hsz : kallocSize size = slotSz k) (hlist : H.chain cpu k = i :: l)
    (hfree : H.free i ≠ []) :
    ∃ R p, RequestReachable P R ∧ R.size t = size ∧ R.sys.pc t = .ret p (slotSz k) ∧ p ≠ 0 := by
  have hu : H.use i = .slab cpu k := (hR.mem_chain cpu k i).1 (by rw [hlist]; simp)
  obtain ⟨p, s', hpop, -, hallot⟩ := exec_slabAlloc_pop (P := P) hR hu hfree
  have hcall := exec_kalloc hR hcpu hsize hk hsz hlist
  have h₁ : RequestReachable P
      ⟨⟨s, Function.update pcs t (.kalloc cpu size), live, none⟩, Function.update req t size⟩ :=
    .step h (a := .kalloc t cpu size) ⟨.kalloc rfl hidle hcpu, rfl⟩
  have h₂ := h₁.exec (Function.update_self ..) hcall
  have h₃ := h₂.exec (Function.update_self ..) hpop
  exact ⟨_, p, h₃, Function.update_self .., Function.update_self .., hallot.ne_zero⟩

/-- A `kalloc` of 20 bytes on a heap of 20 pages returns a slot of 32 bytes. -/
theorem kalloc_guarantee_slot : ∃ R p, RequestReachable (.sample 20) R ∧ R.size 0 = 20 ∧
    R.sys.pc 0 = .ret p 32 ∧ 32 ∣ p ∧ ReservedAt (.sample 20) R.sys.pmm p 32 := by
  obtain ⟨s, hs, hR⟩ := exists_boot (P := .sample 20) (by decide) (show _ ≤ metaSz by decide)
    (le_refl _) fun _ => 0
  have h : RequestReachable (.sample 20) ⟨⟨s, fun _ => .idle, fun _ => none, none⟩, fun _ => 0⟩ :=
    .init ⟨⟨_, hs⟩, fun _ => rfl, fun _ => rfl, rfl⟩
  have hret := exists_ret (t := 0) (k := 1) (i := 1) (l := []) h hR rfl
    (show 0 < (Platform.sample 20).cpuCount by decide) (show 20 ≤ maxAlloc by decide)
    (by decide) (by decide) rfl (by simp [Heap.boot, fullChunks])
  obtain ⟨R, p, hr, hsize, hpc, hp⟩ := hret
  have hguarantee := kalloc_guarantee _ R hr 0 p 32 hpc hp
  obtain ⟨n, -, hdvd, hle, hres, hreserved⟩ := hguarantee.2
  have hn : n = 32 := by
    rw [if_pos (by omega)] at hres
    exact hres.symm
  rw [hn] at hdvd
  exact ⟨R, p, hr, hsize, hpc, hdvd, hreserved (by decide)⟩

end MyOs.Pmm
