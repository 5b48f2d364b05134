import MyOs.Pmm.Operations

/-!
# Initialisation

`meta_init` accepts a heap with fewer than `META_SZ` pages and describes each of
them as free; `S_init` then takes one page for each chain, in order. The table
entries behind the managed pages keep what memory held at boot.

* `pmmInit_spec` — `pmm_init` succeeds exactly when the heap is accepted and has
  a page for each chain, and leaves the heap `Heap.boot`.
-/

namespace MyOs.Pmm

open MyOs.Memory MyOs.LinkedList MyOs.FreeChunks

/-! ## The managed pages -/

namespace Platform

/-- `G_start`. -/
def base (P : Platform) : Nat := roundUp (P.heapStart + metaBytes * metaSz) gpageSz

/-- The number of whole pages between `G_start` and the end of the heap. -/
def nMeta (P : Platform) : Nat := (P.heapEnd - P.base) / gpageSz

variable (P : Platform)

theorem base_spec : gpageSz ∣ P.base ∧ P.heapStart + metaBytes * metaSz ≤ P.base ∧
    P.base < P.heapStart + metaBytes * metaSz + gpageSz := by
  have hstart := P.heapStart_le
  have hend := P.heapEnd_le
  have htable : metaBytes * metaSz = 196608 := rfl
  unfold base
  rw [gpageSz_eq]
  exact roundUp_two_pow (by omega) (by omega)

/-- Page `i` ends behind the heap exactly when it is not managed. -/
theorem heapEnd_lt_iff (i : Nat) : P.heapEnd < P.base + (i + 1) * gpageSz ↔ P.nMeta ≤ i := by
  unfold nMeta
  rw [← Nat.lt_succ_iff, Nat.div_lt_iff_lt_mul (by decide)]
  have hpos : 0 < (i + 1) * gpageSz := Nat.mul_pos (by omega) (by decide)
  rw [Nat.succ_eq_add_one]
  omega

/-- The managed pages lie in the heap. -/
theorem nMeta_mul_le (h : 0 < P.nMeta) : P.base + P.nMeta * gpageSz ≤ P.heapEnd := by
  by_contra hcon
  have hlt : P.heapEnd < P.base + (P.nMeta - 1 + 1) * gpageSz := by
    rw [Nat.sub_add_cancel h]
    omega
  have := (P.heapEnd_lt_iff (P.nMeta - 1)).1 hlt
  omega

/-- The layout of an accepted heap, described up to entry `lim`. -/
def layout (lim : Nat) (h : P.nMeta ≤ lim) (h' : lim ≤ metaSz) : Layout where
  metaBase := P.heapStart
  base := P.base
  nMeta := P.nMeta
  lim := lim
  aligned := P.base_spec.1
  table := P.base_spec.2.1
  nMeta_le := h
  lim_le := h'
  top := by
    obtain ⟨-, -, hhigh⟩ := P.base_spec
    have hstart := P.heapStart_le
    have hend := P.heapEnd_le
    have htable : metaBytes * metaSz = 196608 := rfl
    have hg : gpageSz = 65536 := rfl
    have hmax : maxAlloc = 16777216 := rfl
    rcases Nat.eq_zero_or_pos P.nMeta with hzero | hpos
    · rw [hzero, Nat.zero_mul]
      omega
    · have := P.nMeta_mul_le hpos
      omega

end Platform

variable {P : Platform} {s : State} {m : Mem} {lim : Nat}

/-! ## `meta_init` -/

/-- Without room in the table `meta_init` reaches its `assert(0)`. -/
theorem metaInitLoop_reject (hg : s.gStart = P.base) (hbig : metaSz ≤ P.nMeta) :
    ∀ n i, i + n = metaSz → metaInitLoop P n i s = .error .assertion := by
  intro n
  induction n generalizing s with
  | zero => intro i _; rfl
  | succ n ih =>
    intro i hi
    have hend := P.heapEnd_le
    have hwrap : (s.gStart + (i + 1) * gpageSz) % 2 ^ 64 ≤ P.heapEnd := by
      refine (Nat.mod_le _ _).trans ?_
      rw [hg]
      by_contra hcon
      have := (P.heapEnd_lt_iff i).1 (by omega)
      omega
    rw [metaInitLoop, if_neg (by omega)]
    dsimp only
    refine ih ?_ (i + 1) (by omega)
    exact hg

/-- **`meta_init`** from entry `i` on: the entries up to `nMeta` describe free pages. -/
theorem metaInitLoop_spec (h : P.nMeta ≤ lim) (h' : lim ≤ metaSz)
    (hM : s.Meta = P.heapStart) (hg : s.gStart = P.base)
    (hacc : P.nMeta < metaSz) : ∀ n i, i + n = metaSz → i ≤ P.nMeta →
      ∃ m', metaInitLoop P n i s = .ok { s with mem := m', nMeta := P.nMeta } ∧
        OnlyIn s.mem m' ((P.layout lim h h').entry i) ((P.layout lim h h').entry P.nMeta) ∧
        ∀ d, i ≤ d → d < P.nMeta →
          load m' ((P.layout lim h h').entry d) 8 = (P.layout lim h h').page d ∧
          load m' ((P.layout lim h h').entry d + 16) 1 = 0 := by
  intro n
  induction n generalizing s with
  | zero => intro i hi hle; omega
  | succ n ih =>
    intro i hi hle
    obtain ⟨L, hL⟩ : ∃ L, L = P.layout lim h h' := ⟨_, rfl⟩
    obtain ⟨-, -, hhigh⟩ := P.base_spec
    have hstart := P.heapStart_le
    have hend := P.heapEnd_le
    have htable : metaBytes * metaSz = 196608 := rfl
    have hsz : metaSz = 8192 := rfl
    have hgv : gpageSz = 65536 := rfl
    have hmul : (i + 1) * gpageSz = (i + 1) * 65536 := rfl
    have hmul' : i * gpageSz = i * 65536 := rfl
    have hwrap : (s.gStart + (i + 1) * gpageSz) % 2 ^ 64 = P.base + (i + 1) * gpageSz := by
      rw [hg]
      exact Nat.mod_eq_of_lt (by omega)
    have hpage : (s.gStart + i * gpageSz) % 2 ^ 64 = L.page i := by
      rw [hg, hL]
      exact Nat.mod_eq_of_lt (by omega)
    rw [metaInitLoop, hwrap, ← hL]
    by_cases hlast : P.nMeta ≤ i
    · obtain rfl : i = P.nMeta := by omega
      rw [if_pos ((P.heapEnd_lt_iff _).2 hlast)]
      exact ⟨s.mem, rfl, OnlyIn.refl _ _ _, fun d hd hd' => by omega⟩
    · rw [if_neg (fun hcon => hlast ((P.heapEnd_lt_iff i).1 hcon))]
      -- entry `i` gets its four fields, the rest of the loop leaves it alone
      have hat : s.Meta + metaBytes * i = L.entry i := by
        rw [hM, hL]
        rfl
      have hword : L.page i < 2 ^ 64 := by
        rw [← hpage]
        exact Nat.mod_lt _ (by decide)
      obtain ⟨m₁, hm₁⟩ : ∃ m₁, m₁ = store (store (store (store s.mem (L.entry i) 8 (L.page i))
        (L.entry i + 8) 8 0) (L.entry i + 16) 1 0) (L.entry i + 17) 1 0 := ⟨_, rfl⟩
      obtain ⟨m', hrun, honly, hdone⟩ :=
        ih (s := { s with mem := m₁ }) hM hg (i + 1) (by omega) (by omega)
      rw [← hL] at honly hdone
      have hnext := L.entry_succ i
      have hmono : L.entry (i + 1) ≤ L.entry P.nMeta := by
        rcases Nat.eq_or_lt_of_le (show i + 1 ≤ P.nMeta by omega) with heq | hlt
        · rw [heq]
        · have := L.entry_lt hlt
          omega
      refine ⟨m', ?_, ?_, fun d hd hd' => ?_⟩
      · rw [← hrun, hm₁]
        simp only [State.setMetaStart, State.setMetaEnd, State.setIsAlloc, State.setIsSlab,
          State.put,
          State.metaAt, hat, hpage]
        rfl
      · have hone : OnlyIn s.mem m₁ (L.entry i) (L.entry P.nMeta) := by
          rw [hm₁]
          exact ((((OnlyIn.refl _ _ _).store (by omega) (by omega)).store (by omega)
            (by omega)).store (by omega) (by omega)).store (by omega) (by omega)
        exact hone.trans (honly.mono (by omega) (le_refl _))
      · rcases Nat.eq_or_lt_of_le hd with rfl | hlt
        · have hkeep : Same m₁ m' (L.entry i) (L.entry (i + 1)) := honly.same (.inl (le_refl _))
          constructor
          · rw [← Nat.add_zero (L.entry i), load_entry hkeep (by omega), Nat.add_zero, hm₁,
              load_store_of_disjoint (by omega), load_store_of_disjoint (by omega),
              load_store_of_disjoint (by omega), load_store (by omega)]
          · rw [load_entry hkeep (by omega), hm₁, load_store_of_disjoint (by omega),
              load_store (by decide)]
        · exact hdone d hlt hd'

/-! ## The heap after initialisation -/

/-- The heap when the first `t` chains have their page: chain `k` of CPU `c` has
page `9 * c + k`, the other managed pages are free. Entries behind the heap say
what memory `m` held at boot. -/
def Heap.boot (L : Layout) (m : Mem) (t : Nat) : Heap where
  use := fun i =>
    if i < t then .slab (i / slabSize) (i % slabSize)
    else if L.nMeta ≤ i ∧ load m (L.entry i + 16) 1 ≠ 0 then .junk else .free
  free := fun i => fullChunks (L.page i) (i % slabSize)
  chain := fun c k => if k < slabSize ∧ slabSize * c + k < t then [slabSize * c + k] else []

theorem boot_use_old {L : Layout} {m : Mem} {t i : Nat} (hi : i < t) :
    (Heap.boot L m t).use i = .slab (i / slabSize) (i % slabSize) := by
  simp only [Heap.boot, if_pos hi]

theorem boot_use_behind {L : Layout} {m : Mem} {t i : Nat} (hi : ¬ i < t) :
    (Heap.boot L m t).use i =
      if L.nMeta ≤ i ∧ load m (L.entry i + 16) 1 ≠ 0 then .junk else .free := by
  simp only [Heap.boot, if_neg hi]

theorem boot_use_free {L : Layout} {m : Mem} {t i : Nat} (hi : ¬ i < t) (hm : i < L.nMeta) :
    (Heap.boot L m t).use i = .free := by
  rw [boot_use_behind hi, if_neg (fun hcon => absurd hcon.1 (by omega))]

/-- After `meta_init` no page is in use. -/
theorem rep_metaInit (h : P.nMeta ≤ lim) (h' : lim ≤ metaSz) (hacc : P.nMeta < metaSz) :
    ∃ s, gInit P (boot m) = .ok s ∧
      Rep (P.layout lim h h') s (Heap.boot (P.layout lim h h') m 0) := by
  obtain ⟨s₀, hs₀⟩ : ∃ s₀ : State, s₀ = { boot m with Meta := P.heapStart, gStart := P.base } :=
    ⟨_, rfl⟩
  have hmem : s₀.mem = m := by rw [hs₀]; rfl
  have hM : s₀.Meta = P.heapStart := by rw [hs₀]
  have hg : s₀.gStart = P.base := by rw [hs₀]
  have hlock : s₀.gLock = 0 := by rw [hs₀]; rfl
  obtain ⟨m', hrun, honly, hdone⟩ :=
    metaInitLoop_spec h h' hM hg hacc metaSz 0 (by omega) (by omega)
  have hinit : gInit P (boot m) = metaInitLoop P metaSz 0 s₀ := by rw [hs₀]; rfl
  rw [← hinit] at hrun
  rw [hmem] at honly
  obtain ⟨L, hL⟩ : ∃ L, L = P.layout lim h h' := ⟨_, rfl⟩
  rw [← hL] at honly hdone ⊢
  have hnMeta : L.nMeta = P.nMeta := by rw [hL]; rfl
  have hG : Globals L { s₀ with mem := m', nMeta := P.nMeta } := by
    rw [hL]
    exact ⟨hM, hg, rfl⟩
  refine ⟨_, hrun, hG, hlock, fun i hi => ?_, fun i hi => ?_, fun i f n hu => ?_, fun i hu => ?_,
    fun i c k hu => ?_, fun c k i => ?_, fun c k hne => ?_⟩
  · rw [hnMeta] at hi
    unfold State.metaStart State.get
    rw [hG.metaAt]
    exact (hdone i (by omega) hi).1
  · by_cases him : i < L.nMeta
    · rw [boot_use_free (by omega) him]
      exact (hdone i (by omega) (by omega)).2
    · -- behind the managed entries memory is as it was
      have hle : L.entry P.nMeta ≤ L.entry i := by
        rcases Nat.eq_or_lt_of_le (show P.nMeta ≤ i by omega) with heq | hlt
        · rw [heq]
        · have := L.entry_lt hlt
          omega
      have hsame : load m' (L.entry i + 16) 1 = load m (L.entry i + 16) 1 :=
        (honly.same (.inr (by omega))).load
      rw [boot_use_behind (by omega)]
      by_cases hz : load m (L.entry i + 16) 1 ≠ 0
      · rw [if_pos ⟨by omega, hz⟩]
        show load m' (L.entry i + 16) 1 ≠ 0
        rwa [hsame]
      · rw [if_neg (fun hcon => hz hcon.2)]
        show load m' (L.entry i + 16) 1 = 0
        rw [hsame]
        omega
  · rw [boot_use_behind (by omega)] at hu
    split at hu <;> cases hu
  · rw [boot_use_behind (by omega)] at hu
    split at hu
    · omega
    · cases hu
  · rw [boot_use_behind (by omega)] at hu
    split at hu <;> cases hu
  · rw [boot_use_behind (by omega)]
    simp only [Heap.boot]
    rw [if_neg (by omega)]
    constructor
    · intro hmem
      cases hmem
    · intro hu
      split at hu <;> cases hu
  · refine absurd ?_ hne
    simp only [Heap.boot]
    rw [if_neg (by omega)]

/-! ## `S_init` -/

variable {L : Layout} {t i j : Nat}

/-- The page of chain `j` of CPU `i` is linked. -/
theorem boot_link (hj : j < slabSize) (ht : t = slabSize * i + j) :
    (Heap.boot L m t).link i j t (fullChunks (L.page t) j) = Heap.boot L m (t + 1) := by
  have hsz : slabSize = 9 := rfl
  have hmul : ∀ x, slabSize * x = 9 * x := fun _ => rfl
  have hi := hmul i
  have hdiv : t / slabSize = i := by
    rw [hsz]
    omega
  have hmod : t % slabSize = j := by
    rw [hsz]
    omega
  simp only [Heap.link, Heap.boot, Heap.mk.injEq]
  refine ⟨funext fun d => ?_, funext fun d => ?_, funext fun c => funext fun k => ?_⟩
  · by_cases hd : d = t
    · subst hd
      rw [Function.update_self, if_pos (by omega), hdiv, hmod]
    · rw [Function.update_of_ne hd]
      by_cases hlt : d < t
      · rw [if_pos hlt, if_pos (by omega)]
      · rw [if_neg hlt, if_neg (show ¬ d < t + 1 by omega)]
  · by_cases hd : d = t
    · subst hd
      rw [Function.update_self, hmod]
    · rw [Function.update_of_ne hd]
  · have hc := hmul c
    by_cases hck : c = i ∧ k = j
    · obtain ⟨rfl, rfl⟩ := hck
      rw [if_pos ⟨rfl, rfl⟩, if_neg (by omega), if_pos ⟨hj, by omega⟩, ← ht]
      rfl
    · rw [if_neg hck]
      by_cases hold : k < slabSize ∧ slabSize * c + k < t
      · rw [if_pos hold, if_pos ⟨hold.1, by omega⟩]
      · rw [if_neg hold, if_neg (by omega)]

/-- **One round of `S_init`** takes the next page, or dereferences `NULL`. -/
theorem sInitOne_spec (hR : Rep L s (Heap.boot L m t)) (hj : j < slabSize)
    (ht : t = slabSize * i + j) (hle : t ≤ L.nMeta) :
    (t < L.nMeta ∧ ∃ s', sInitOne i j s = .ok s' ∧ Rep L s' (Heap.boot L m (t + 1))) ∨
      (t = L.nMeta ∧ sInitOne i j s = .error .nullDeref) := by
  have hnMeta := L.nMeta_le
  have hg : gpageSz = 65536 := rfl
  have hfree : ∀ d, d < L.nMeta → (s.isAlloc d = false ↔ ¬ d < t) := fun d hd => by
    rw [hR.isAlloc_iff (by omega)]
    constructor
    · intro hu hlt
      rw [boot_use_old hlt] at hu
      cases hu
    · exact fun hlt => boot_use_free hlt hd
  rcases gAlloc_one hR.globals hR.starts hR.gLock with
    ⟨d, m₂, hd, hdfree, hfirst, hrun, honly, hmark⟩ | ⟨hnone, hrun⟩
  · -- the first free page is the next one
    have hdt : d = t := by
      have hge := (hfree d hd).1 hdfree
      rcases Nat.lt_or_ge t d with hlt | hge'
      · have hused := hfirst t hlt
        rw [(hfree t (by omega)).2 (by omega)] at hused
        cases hused
      · omega
    subst hdt
    have hpos := L.page_pos d
    have hend := L.page_end hd
    have hentry := L.entry_le (j := d) (by omega)
    obtain ⟨s₁, hs₁⟩ : ∃ s₁ : State, s₁ = { s with
        mem := m₂, slab := fun c k => if c = i ∧ k = j then L.page d else s.slab c k } := ⟨_, rfl⟩
    obtain ⟨m', hinit, hsp, hnext, honly'⟩ := slabInit_spec (s := s₁) hj (L.page_dvd d) hpos hend
    have hmem₁ : s₁.mem = m₂ := by rw [hs₁]
    rw [hmem₁] at honly'
    have hkeep : Same m₂ m' (L.entry d) (L.entry (d + 1)) := honly'.same (.inl (hentry d))
    refine .inl ⟨hd, { s₁ with mem := m' }, ?_, ?_⟩
    · unfold sInitOne
      rw [hrun, ok_bind]
      simp only
      rw [one_shiftLeft_eq_slotSz, ← hinit, hs₁]
    · rw [← boot_link hj ht]
      refine hR.link hj hd (boot_use_free (by omega) hd) ?_ ?_ (fun x hx hxd => ?_) ⟨?_, ?_, ?_, ?_⟩
        (fun x c' k' hx => ?_) hsp fun c' k' hne => ?_
      · rw [hs₁]
        exact ⟨hR.globals.Meta, hR.globals.gStart, hR.globals.nMeta⟩
      · rw [hs₁]
        exact hR.gLock
      · have hxp := L.entry_le hx d
        have hor : L.entry (x + 1) ≤ L.entry d ∨ L.entry (d + 1) ≤ L.entry x := by
          rw [L.entry_succ, L.entry_succ]
          rcases Nat.lt_or_gt_of_ne hxd with hlt | hlt
          · exact .inl (L.entry_lt hlt)
          · exact .inr (L.entry_lt hlt)
        exact (honly.same hor).trans (honly'.same (.inl hxp))
      · rw [load_entry hkeep (by omega), hmark.isAlloc]
      · rw [load_entry hkeep (by omega), hmark.isSlab]
      · rw [load_entry hkeep (by omega), hmark.fin]
      · rw [← Nat.add_zero (L.entry d), load_entry hkeep (by omega), Nat.add_zero, hmark.start]
      · obtain ⟨-, -, hspx⟩ := hR.slab x c' k' hx
        have hxd : x ≠ d := by
          rintro rfl
          rw [boot_use_free (by omega) hd] at hx
          cases hx
        have hapart := L.page_apart hxd
        exact hspx.of_same ((honly.same (.inr (hentry x))).trans (honly'.same (by omega)))
      · rw [boot_link hj ht] at hne ⊢
        have hlist : (Heap.boot L m (d + 1)).chain c' k' = [slabSize * c' + k'] := by
          by_contra hcon
          refine hne ?_
          simp only [Heap.boot] at hcon ⊢
          split
          · rename_i hck
            rw [if_pos hck] at hcon
            exact absurd rfl hcon
          · rfl
        have hck : k' < slabSize ∧ slabSize * c' + k' < d + 1 := by
          by_contra hcon
          refine hne ?_
          simp only [Heap.boot, if_neg hcon]
        rw [hlist, List.map_cons, List.map_nil]
        by_cases hnew : c' = i ∧ k' = j
        · obtain ⟨rfl, rfl⟩ := hnew
          rw [← ht, hs₁]
          simp only [and_self, if_true]
          exact ⟨rfl, hpos.ne', hnext⟩
        · -- an older chain has its page below the new one
          have hmul : ∀ x, slabSize * x = 9 * x := fun _ => rfl
          have hsz : slabSize = 9 := rfl
          have hc := hmul c'
          have hi := hmul i
          have hold : (Heap.boot L m d).chain c' k' = [slabSize * c' + k'] := by
            simp only [Heap.boot]
            rw [if_pos ⟨hck.1, by omega⟩]
          have hlink := hR.chain c' k' (by rw [hold]; simp)
          rw [hold, List.map_cons, List.map_nil] at hlink
          have hslab : s₁.slab c' k' = s.slab c' k' := by
            rw [hs₁]
            exact if_neg hnew
          have hxd : slabSize * c' + k' ≠ d := by omega
          have hapart := L.page_apart hxd
          show Linked _ 0 (s₁.slab c' k') _
          rw [hslab]
          refine hlink.congr fun a ha => ?_
          obtain rfl := List.mem_singleton.1 ha
          have hsame : Same s.mem m'
              (L.page (slabSize * c' + k') + 8) (L.page (slabSize * c' + k') + 16) := by
            have := hentry (slabSize * c' + k')
            exact (honly.same (.inr (by omega))).trans (honly'.same (by omega))
          exact hsame.load
  · -- no page is left
    have hge : ¬ t < L.nMeta := fun hlt => by
      have hused := hnone t hlt
      rw [(hfree t hlt).2 (by omega)] at hused
      cases hused
    refine .inr ⟨by omega, ?_⟩
    unfold sInitOne
    rw [hrun, ok_bind]
    rfl

/-- The rounds of one CPU. -/
theorem sInitLoop_spec (hR : Rep L s (Heap.boot L m (slabSize * i)))
    (hle : slabSize * i ≤ L.nMeta) :
    ∀ j, j ≤ slabSize →
      (slabSize * i + j ≤ L.nMeta ∧
        ∃ s', forLoop (sInitOne i) j s = .ok s' ∧ Rep L s' (Heap.boot L m (slabSize * i + j))) ∨
      (L.nMeta < slabSize * i + j ∧ forLoop (sInitOne i) j s = .error .nullDeref)
  | 0, _ => .inl ⟨hle, s, rfl, hR⟩
  | j + 1, hj => by
    rw [forLoop]
    rcases sInitLoop_spec hR hle j (by omega) with ⟨hle', s', hrun, hR'⟩ | ⟨hlt, hrun⟩
    · rw [hrun, ok_bind]
      rcases sInitOne_spec hR' (by omega) rfl hle' with ⟨hlt, s'', hrun', hR''⟩ | ⟨heq, hrun'⟩
      · exact .inl ⟨hlt, s'', hrun', hR''⟩
      · exact .inr ⟨by omega, hrun'⟩
    · rw [hrun, error_bind]
      exact .inr ⟨by omega, rfl⟩

/-- The rounds of all CPUs. -/
theorem sInit_spec (hR : Rep L s (Heap.boot L m 0)) : ∀ n,
    (slabSize * n ≤ L.nMeta ∧ ∃ s', forLoop (fun i => forLoop (sInitOne i) slabSize) n s = .ok s' ∧
        Rep L s' (Heap.boot L m (slabSize * n))) ∨
      (L.nMeta < slabSize * n ∧
        forLoop (fun i => forLoop (sInitOne i) slabSize) n s = .error .nullDeref)
  | 0 => .inl ⟨by omega, s, rfl, hR⟩
  | n + 1 => by
    rw [forLoop, Nat.mul_add, Nat.mul_one]
    rcases sInit_spec hR n with ⟨hle, s', hrun, hR'⟩ | ⟨hlt, hrun⟩
    · rw [hrun, ok_bind]
      exact sInitLoop_spec hR' hle slabSize (le_refl _)
    · rw [hrun, error_bind]
      exact .inr ⟨by omega, rfl⟩

/-- Whether `pmm_init` accepts the heap: there is room in the table and a page for
every chain. -/
def Platform.Accepted (P : Platform) : Prop :=
  P.nMeta < metaSz ∧ slabSize * P.cpuCount ≤ P.nMeta

instance (P : Platform) : Decidable P.Accepted := inferInstanceAs (Decidable (_ ∧ _))

theorem pmmInit_reject (h : metaSz ≤ P.nMeta) (m : Mem) : pmmInit P m = .error .assertion := by
  have hrej : gInit P (boot m) = .error .assertion :=
    metaInitLoop_reject (s := { boot m with Meta := P.heapStart, gStart := P.base }) rfl h metaSz 0
      (by omega)
  unfold pmmInit
  rw [hrej, error_bind]

/-- **`pmm_init`** succeeds exactly on accepted heaps, and then gives every chain
its first page. -/
theorem pmmInit_spec (h : P.nMeta ≤ lim) (h' : lim ≤ metaSz) (m : Mem) :
    (P.Accepted ∧ ∃ s, pmmInit P m = .ok s ∧ Rep (P.layout lim h h') s
        (Heap.boot (P.layout lim h h') m (slabSize * P.cpuCount))) ∨
      (¬ P.Accepted ∧ ∃ e, pmmInit P m = .error e) := by
  by_cases hacc : P.nMeta < metaSz
  · obtain ⟨s, hrun, hR⟩ := rep_metaInit (m := m) h h' hacc
    have hR' : Rep (P.layout lim h h') { s with nSlab := P.cpuCount } _ :=
      ⟨⟨hR.globals.Meta, hR.globals.gStart, hR.globals.nMeta⟩,
        hR.gLock, hR.starts, hR.entry, hR.run,
        hR.junk, hR.slab, hR.mem_chain, hR.chain⟩
    have hinit : pmmInit P m = forLoop (fun i => forLoop (sInitOne i) slabSize) P.cpuCount
        { s with nSlab := P.cpuCount } := by
      unfold pmmInit
      rw [hrun, ok_bind]
      rfl
    rw [hinit]
    rcases sInit_spec hR' P.cpuCount with ⟨hle, s', hrun', hR''⟩ | ⟨hlt, hrun'⟩
    · exact .inl ⟨⟨hacc, hle⟩, s', hrun', hR''⟩
    · refine .inr ⟨fun hcon => absurd hcon.2 ?_, _, hrun'⟩
      exact Nat.not_le.2 hlt
  · exact .inr ⟨fun hcon => hacc hcon.1, .assertion, pmmInit_reject (Nat.not_lt.1 hacc) m⟩

/-- The state after `pmm_init` on an accepted heap. -/
theorem exists_boot (hacc : P.Accepted) (h : P.nMeta ≤ lim) (h' : lim ≤ metaSz) (m : Mem) :
    ∃ s, pmmInit P m = .ok s ∧ Rep (P.layout lim h h') s
      (Heap.boot (P.layout lim h h') m (slabSize * P.cpuCount)) := by
  rcases pmmInit_spec h h' m with ⟨-, hrun⟩ | ⟨hrej, -⟩
  · exact hrun
  · exact absurd hacc hrej

theorem accepted_of_pmmInit (hinit : pmmInit P m = .ok s) : P.Accepted := by
  by_cases hroom : P.nMeta ≤ metaSz
  · rcases pmmInit_spec (le_refl _) hroom m with ⟨hacc, -⟩ | ⟨-, e, herr⟩
    · exact hacc
    · rw [hinit] at herr
      cases herr
  · rw [pmmInit_reject (by omega)] at hinit
    cases hinit

end MyOs.Pmm
