import MyOs.Pmm.Sequential

/-!
# Staying inside the heap

`G_alloc` checks the start of a candidate run only, and `try_alloc` then reads the
table entries of the whole run: of a run that crosses the end of the managed pages
also those behind them, which nobody has initialised.

* `contained_of_fits` — as long as no scan gets to such a run with all its
  managed pages free, every block lies inside the managed pages; and a call stays
  inside the table if and only if that holds.
* `block_behind_heap` — on a heap of 10 pages the first request for two pages
  gets the last page and the one behind the heap.
-/

namespace MyOs.Pmm

open MyOs.Memory MyOs.FreeChunks MyOs.Transition

/-! ## The entries of the table a call touches -/

/-- The loop of `try_alloc` from entry `i` on: up to the first allocated one. -/
def tryAllocReads (s : State) : Nat → Nat → List Nat
  | _, 0 => []
  | i, n + 1 => i :: if s.isAlloc i = true then [] else tryAllocReads s (i + 1) n

/-- The entries `try_alloc` reads and `slow_alloc` writes in the scan of `G_alloc`. -/
def gAllocLoopTouches (sz : Nat) : Nat → State → Nat → List Nat
  | 0, _, _ => []
  | fuel + 1, s, tryRet =>
    match isValidRet s tryRet, getMetaIndex s tryRet, tryAlloc s tryRet sz with
    | .ok true, .ok id, .ok found =>
      tryAllocReads s id.toNat (sz / gpageSz) ++
        if found = true then (List.range (sz / gpageSz)).map (id.toNat + ·)
        else gAllocLoopTouches sz fuel s ((tryRet + sz) % 2 ^ 64)
    | _, _, _ => []

def gAllocTouches (s : State) (npage : Nat) : List Nat :=
  gAllocLoopTouches (npage * gpageSz) (metaSz + 1) s (roundUp s.gStart (npage * gpageSz))

def gFreeTouches (s : State) (ptr : Nat) : List Nat :=
  match getMetaIndex s ptr with
  | .ok id =>
    let nPg := toInt (((s.metaEnd id.toNat : Int) - ptr).tdiv gpageSz)
    (List.range nPg.toNat).map (id.toNat + ·)
  | .error _ => []

/-- The entries a call touches in `G_alloc` and `G_free`. A slab request scans for
one page, when its chain has to grow. -/
def Call.touches (S : Seq) : Call → List Nat
  | .kalloc _ size =>
    if size > maxAlloc then []
    else if kallocSize size ≤ 4096 then gAllocTouches S.pmm 1
    else gAllocTouches S.pmm (kallocPages (kallocSize size))
  | .kfree p => if kfreeHead S.pmm p = .ok false then gFreeTouches S.pmm p else []
  | .write _ => []

/-! ## The property and its condition -/

/-- **Every block lies inside the managed pages**, and these in the heap. -/
def Contained (P : Platform) (S : Seq) : Prop :=
  ∀ p r, S.live p = some r → S.pmm.gStart ≤ p ∧
    p + r ≤ S.pmm.gStart + S.pmm.nMeta * gpageSz ∧
    S.pmm.gStart + S.pmm.nMeta * gpageSz ≤ P.heapEnd

/-- The scan for `n` pages ends before it leaves the managed pages: when a candidate
crosses their end, an earlier one is free, or one of its managed pages is taken. -/
def Fits (s : State) (n : Nat) : Prop :=
  ∀ c, c < s.nMeta → s.nMeta < c + n → n * gpageSz ∣ s.gStart + c * gpageSz →
    (∃ d, d < c ∧ n * gpageSz ∣ s.gStart + d * gpageSz ∧ Free s d n) ∨
      ∃ i, c ≤ i ∧ i < s.nMeta ∧ s.isAlloc i = true

/-- Requests for pages are made in states where their scan fits. -/
def CallFits (S : Seq) : Call → Prop
  | .kalloc _ size =>
    size ≤ maxAlloc → 4096 < kallocSize size → Fits S.pmm (kallocPages (kallocSize size))
  | _ => True

variable {P : Platform} {L : Layout} {S S' : Seq} {s : State} {H : Heap} {c e n p r N : Nat}

/-- The condition in terms of the layout whose last described entry is the last
managed one. -/
theorem fits_iff_decided (hG : Globals L s) (hlim : L.lim = L.nMeta) :
    Fits s n ↔ Decided L s n := by
  unfold Fits Decided
  rw [hG.nMeta, hG.gStart, hlim]
  constructor
  · intro hfits c hc hal hnone hcross
    rcases hfits c hc hcross hal with ⟨d, hd, hdal, hfree⟩ | ⟨i, hci, hi, halloc⟩
    · exact absurd hfree (hnone d hd hdal)
    · refine ⟨i - c, by omega, by omega, ?_⟩
      rw [Nat.add_sub_cancel' hci]
      exact halloc
  · intro hdec c hc hcross hal
    by_cases hearly : ∃ d, d < c ∧ L.Aligned n d ∧ Free s d n
    · exact .inl hearly
    · obtain ⟨i, -, hi, halloc⟩ :=
        hdec c hc hal (fun d hd hdal hfree => hearly ⟨d, hd, hdal, hfree⟩) hcross
      exact .inr ⟨c + i, by omega, hi, halloc⟩

/-! ## Scans -/

/-- `try_alloc` stays below `N` when its run does or when it meets an allocated
page there. -/
theorem tryAllocReads_lt_iff (hc : c ≤ N) : (∀ i, i ∈ tryAllocReads s c n → i < N) ↔
    c + n ≤ N ∨ ∃ i, i < n ∧ c + i < N ∧ s.isAlloc (c + i) = true := by
  induction n generalizing c with
  | zero => exact ⟨fun _ => .inl hc, fun _ _ hi => (List.not_mem_nil hi).elim⟩
  | succ n ih =>
    rw [tryAllocReads]
    by_cases halloc : s.isAlloc c = true
    · rw [if_pos halloc]
      constructor
      · intro hlt
        have := hlt c List.mem_cons_self
        exact .inr ⟨0, by omega, by omega, halloc⟩
      · intro hor i hi
        rw [List.mem_singleton.1 hi]
        rcases hor with hle | ⟨j, -, hj, -⟩ <;> omega
    · rw [if_neg halloc]
      constructor
      · intro hlt
        have hcN := hlt c List.mem_cons_self
        rcases (ih (by omega)).1 fun i hi => hlt i (List.mem_cons_of_mem _ hi) with
          hle | ⟨i, hi, hiN, hia⟩
        · exact .inl (by omega)
        · refine .inr ⟨i + 1, by omega, by omega, ?_⟩
          rwa [Nat.add_right_comm, Nat.add_assoc] at hia
      · intro hor i hi
        have hrest : c + 1 + n ≤ N ∨ ∃ i, i < n ∧ c + 1 + i < N ∧ s.isAlloc (c + 1 + i) = true := by
          rcases hor with hle | ⟨j, hj, hjN, hja⟩
          · exact .inl (by omega)
          · -- the allocated page is not the first one
            have hj0 : j ≠ 0 := by
              rintro rfl
              exact halloc hja
            obtain ⟨j, rfl⟩ := Nat.exists_eq_succ_of_ne_zero hj0
            refine .inr ⟨j, by omega, by omega, ?_⟩
            rwa [Nat.add_right_comm, Nat.add_assoc]
        have hcN : c < N := by
          rcases hrest with hle | ⟨j, -, hj, -⟩ <;> omega
        rcases List.mem_cons.1 hi with rfl | hi
        · exact hcN
        · exact (ih (by omega)).2 hrest i hi

/-- From candidate `c` on, every crossing candidate the scan gets to has an
allocated managed page. -/
def DecidedFrom (L : Layout) (s : State) (n c : Nat) : Prop :=
  ∀ c', c ≤ c' → c' < L.nMeta → L.Aligned n c' →
    (∀ d, c ≤ d → d < c' → L.Aligned n d → ¬ Free s d n) → L.nMeta < c' + n →
    ∃ i, i < n ∧ c' + i < L.nMeta ∧ s.isAlloc (c' + i) = true

/-- A candidate that is taken is decided by itself, and then the scan goes on. -/
theorem decidedFrom_add_iff (hal : L.Aligned n c) (hc : c < L.nMeta) (hnot : ¬ Free s c n) :
    DecidedFrom L s n c ↔
      (c + n ≤ L.nMeta ∨ ∃ i, i < n ∧ c + i < L.nMeta ∧ s.isAlloc (c + i) = true) ∧
        DecidedFrom L s n (c + n) := by
  have hskip : ∀ d, c ≤ d → d < c + n → L.Aligned n d → d = c := by
    intro d hcd hd hdal
    rcases Nat.lt_or_eq_of_le hcd with hlt | heq
    · have := hal.le hdal hlt
      omega
    · exact heq.symm
  constructor
  · intro hdec
    refine ⟨?_, fun c' hcc' hc' hal' hnone hcross => hdec c' (by omega) hc' hal' ?_ hcross⟩
    · by_cases hcross : L.nMeta < c + n
      · exact .inr (hdec c (le_refl c) hc hal (fun d _ _ => by omega) hcross)
      · exact .inl (Nat.not_lt.1 hcross)
    · intro d hcd hd hdal
      by_cases hdn : d < c + n
      · rwa [hskip d hcd hdn hdal]
      · exact hnone d (by omega) hd hdal
  · rintro ⟨hself, hrest⟩ c' hcc' hc' hal' hnone hcross
    by_cases hcn : c' < c + n
    · obtain rfl := hskip c' hcc' hcn hal'
      exact hself.resolve_left (by omega)
    · exact hrest c' (by omega) hc' hal' (fun d hd => hnone d (by omega)) hcross

/-- The scan from candidate `c` on stays inside the managed entries if and only if
it is decided there. -/
theorem gAllocLoopTouches_lt_iff (hG : Globals L s) (hS : Starts L s) (he : e ≤ 8) (fuel : Nat)
    (hal : L.Aligned (2 ^ e) c) (hc : c < L.nMeta + 256) (hfuel : L.nMeta < c + fuel) :
    (∀ i, i ∈ gAllocLoopTouches (2 ^ e * gpageSz) fuel s (L.page c) → i < L.nMeta) ↔
      DecidedFrom L s (2 ^ e) c := by
  induction fuel generalizing c with
  | zero =>
    exact ⟨fun _ c' hcc' hc' => by omega, fun _ _ hi => (List.not_mem_nil hi).elim⟩
  | succ fuel ih =>
    have hpos : 0 < 2 ^ e := Nat.two_pow_pos e
    have hn : 2 ^ e ≤ 256 := Nat.pow_le_pow_right (n := 2) (by omega) he
    have hpages : 2 ^ e * gpageSz / gpageSz = 2 ^ e := Nat.mul_div_cancel _ (by decide)
    rw [gAllocLoopTouches, isValidRet_page hG hc, getMetaIndex_page hG hc, hpages]
    by_cases hvalid : c < L.nMeta
    · rw [decide_eq_true hvalid]
      rcases tryAlloc_page hG hS hvalid he hal with ⟨hfree, htry⟩ | ⟨hnot, htry⟩
      · -- a free candidate ends the scan, and is touched as a whole
        have hnone : ¬ ∃ i, i < 2 ^ e ∧ c + i < L.nMeta ∧ s.isAlloc (c + i) = true := by
          rintro ⟨i, hi, -, halloc⟩
          rw [hfree i hi] at halloc
          cases halloc
        have hfits : DecidedFrom L s (2 ^ e) c ↔ c + 2 ^ e ≤ L.nMeta := by
          constructor
          · intro hdec
            by_contra hcon
            exact hnone (hdec c (le_refl c) hvalid hal (fun d _ _ => by omega) (by omega))
          · intro hle c' hcc' hc' hal' hbefore hcross
            rcases Nat.lt_or_eq_of_le hcc' with hlt | rfl
            · exact absurd hfree (hbefore c (le_refl c) hlt hal)
            · omega
        have hreads := tryAllocReads_lt_iff (s := s) (n := 2 ^ e) (Nat.le_of_lt hvalid)
        rw [htry, hfits]
        simp only [if_true, Int.toNat_natCast]
        constructor
        · intro hlt
          exact (hreads.1 fun i hi => hlt i (List.mem_append_left _ hi)).resolve_right hnone
        · intro hle i hi
          rcases List.mem_append.1 hi with hi | hi
          · exact hreads.2 (.inl hle) i hi
          · obtain ⟨d, hd, rfl⟩ := List.mem_map.1 hi
            have := List.mem_range.1 hd
            omega
      · -- behind a taken candidate the scan goes on
        have hnext : (L.page c + 2 ^ e * gpageSz) % 2 ^ 64 = L.page (c + 2 ^ e) := by
          rw [← L.page_add]
          exact Nat.mod_eq_of_lt (L.page_lt_word (by omega))
        have hrest := ih hal.add (by omega) (by omega)
        rw [htry, decidedFrom_add_iff hal hvalid hnot, ← hrest,
          ← tryAllocReads_lt_iff (Nat.le_of_lt hvalid)]
        simp only [Bool.false_eq_true, if_false, Int.toNat_natCast, hnext, List.mem_append]
        exact ⟨fun h => ⟨fun i hi => h i (.inl hi), fun i hi => h i (.inr hi)⟩,
          fun h i hi => hi.elim (h.1 i) (h.2 i)⟩
    · rw [decide_eq_false hvalid]
      exact ⟨fun _ c' hcc' hc' => by omega, fun _ _ hi => (List.not_mem_nil hi).elim⟩

/-- **`G_alloc` stays inside the managed entries** if and only if its scan is decided. -/
theorem gAllocTouches_lt_iff (hG : Globals L s) (hS : Starts L s) (he : e ≤ 8)
    (hlim : L.lim = L.nMeta) :
    (∀ i, i ∈ gAllocTouches s (2 ^ e) → i < L.nMeta) ↔ Decided L s (2 ^ e) := by
  obtain ⟨c₀, hpage, hal, hc₀, hfirst⟩ := exists_firstCandidate L he
  have hn : 2 ^ e ≤ 256 := Nat.pow_le_pow_right (n := 2) (by omega) he
  have hle := L.nMeta_le
  have hlim' := L.lim_le
  unfold gAllocTouches
  rw [hG.gStart, ← hpage, gAllocLoopTouches_lt_iff hG hS he _ hal (by omega) (by omega)]
  unfold DecidedFrom Decided
  rw [hlim]
  constructor
  · intro hdec c hc hcal hnone
    exact hdec c (hfirst c hcal) hc hcal fun d _ => hnone d
  · intro hdec c hc₀ hc hcal hnone
    exact hdec c hc hcal fun d hd hdal => hnone d (hfirst d hdal) hd hdal

theorem gFreeTouches_of_index {p f : Nat} (h : getMetaIndex s p = .ok (f : Int)) :
    gFreeTouches s p =
      (List.range (toInt (((s.metaEnd f : Int) - p).tdiv gpageSz)).toNat).map (f + ·) := by
  unfold gFreeTouches
  rw [h]
  simp only [Int.toNat_natCast]

/-- A run that is given back lies inside the managed pages. -/
theorem gFreeTouches_lt {f : Nat} (hR : Rep L s H) (hlim : L.lim = L.nMeta)
    (hu : H.use f = .block f n) : ∀ i, i ∈ gFreeTouches s (L.page f) → i < L.nMeta := by
  obtain ⟨-, -, hrun⟩ := hR.run f f n hu
  have hlast := hrun.last
  have hfirst := hrun.first
  have hentry := hR.entry f (by omega)
  rw [hu] at hentry
  have hend : s.metaEnd f = L.page (f + n) := by
    unfold State.metaEnd State.get
    rw [hR.globals.metaAt]
    exact hentry.2.2
  intro i hi
  rw [gFreeTouches_of_index (getMetaIndex_page hR.globals (i := f) (by omega)), hend,
    L.page_count f hrun.le, Int.toNat_natCast] at hi
  obtain ⟨d, hd, rfl⟩ := List.mem_map.1 hi
  have := List.mem_range.1 hd
  omega

/-! ## Runs -/

theorem SeqAt.contained {hle : P.nMeta ≤ P.nMeta} {hlim : P.nMeta ≤ metaSz}
    (h : SeqAt P (P.layout P.nMeta hle hlim) S H) : Contained P S := by
  obtain ⟨L, hL⟩ : ∃ L, L = P.layout P.nMeta hle hlim := ⟨_, rfl⟩
  have hlast : L.lim = L.nMeta := by rw [hL]; rfl
  have hbase : L.base = P.base := by rw [hL]; rfl
  have hnMeta : L.nMeta = P.nMeta := by rw [hL]; rfl
  rw [← hL] at h
  have hpage : ∀ i, L.base ≤ L.page i := fun i => Nat.le_add_right _ _
  intro p r hp
  -- the block ends before page `nMeta`
  obtain ⟨hpos, hend⟩ : 0 < L.nMeta ∧ p + r ≤ L.page L.nMeta := by
    have ht := (h.live p r).1 hp
    cases ht with
    | @slot i c k _ hu hslot _ =>
      obtain ⟨hi, -, -⟩ := h.rep.slab i c k hu
      have := L.page_lt hi
      have hhigh := hslot.high
      exact ⟨by omega, by omega⟩
    | @run f n hu =>
      obtain ⟨-, -, hrun⟩ := h.rep.run f f n hu
      have hf := hrun.first
      have hlim' := hrun.last
      rw [← L.page_add]
      exact ⟨by omega, L.page_mono (by omega)⟩
  have hheap := P.nMeta_mul_le (by omega)
  rw [h.rep.globals.gStart, h.rep.globals.nMeta]
  refine ⟨((h.live p r).1 hp).base_le, hend, ?_⟩
  rwa [hbase, hnMeta]

/-- **A call stays inside the managed entries** if and only if its scan fits. -/
theorem SeqAt.touches_lt_iff {a : Call} (h : SeqAt P L S H) (hlim : L.lim = L.nMeta)
    (hstep : SeqStep P S a S') :
    (∀ i, i ∈ a.touches S → i < S.pmm.nMeta) ↔ CallFits S a := by
  have hR := h.rep
  rw [hR.globals.nMeta]
  have hscan : ∀ e, e ≤ 8 → ((∀ i, i ∈ gAllocTouches S.pmm (2 ^ e) → i < L.nMeta) ↔
      Fits S.pmm (2 ^ e)) := fun e he => by
    rw [gAllocTouches_lt_iff hR.globals hR.starts he hlim, fits_iff_decided hR.globals hlim]
  cases hstep with
  | @kalloc cpu size p s' _ _ =>
    simp only [Call.touches, CallFits]
    by_cases hbig : size > maxAlloc
    · rw [if_pos hbig]
      exact ⟨fun _ hsize => absurd hbig (Nat.not_lt.2 hsize),
        fun _ i hi => (List.not_mem_nil hi).elim⟩
    · have hsize := Nat.not_lt.1 hbig
      rw [if_neg hbig]
      rcases kallocSize_cases hsize with ⟨k, -, -, hsmall⟩ | ⟨hlarge, e, he, hpages⟩
      · -- a single page always fits
        rw [if_pos hsmall]
        refine ⟨fun _ _ hlarge => absurd hsmall (Nat.not_le.2 hlarge), fun _ => ?_⟩
        exact (hscan 0 (by omega)).2 ((fits_iff_decided hR.globals hlim).2 decided_one)
      · rw [if_neg (Nat.not_le.2 hlarge), hpages, hscan e he]
        exact ⟨fun hfits _ _ => hfits, fun hfits => hfits hsize hlarge⟩
  | @kfree p r s' hlive _ =>
    refine ⟨fun _ => trivial, fun _ => ?_⟩
    simp only [Call.touches]
    rcases kfreeHead_taken hR ((h.live p r).1 hlive) with ⟨hhead, -⟩ | ⟨hhead, f, n, rfl, hu⟩
    · rw [if_neg (by rw [hhead]; simp)]
      exact fun i hi => (List.not_mem_nil hi).elim
    · rw [if_pos hhead]
      exact gFreeTouches_lt hR hlim hu
  | write _ _ => exact ⟨fun _ => trivial, fun _ i hi => (List.not_mem_nil hi).elim⟩

/-- **Containment.** In every run whose requests fit, every block lies inside the
managed pages; and from each state of such a run a call touches managed entries
only if and only if it fits. -/
theorem contained_of_fits (P : Platform) (S : Seq)
    (hr : Reach (SeqInit P) (Restrict (SeqStep P) fun S a _ => CallFits S a) S) :
    Contained P S ∧ ∀ a S', SeqStep P S a S' →
      ((∀ i, i ∈ a.touches S → i < S.pmm.nMeta) ↔ CallFits S a) := by
  have hacc : P.Accepted := by
    refine Reach.invariant (I := fun _ => P.Accepted) ?_ ?_ hr
    · rintro S ⟨⟨m, hm⟩, -⟩
      exact accepted_of_pmmInit hm
    · exact fun _ _ _ _ h _ => h
  have hlim : P.nMeta ≤ metaSz := Nat.le_of_lt hacc.1
  have hinv : ∃ H, SeqAt P (P.layout P.nMeta (le_refl _) hlim) S H := by
    refine Reach.invariant (I := fun S => ∃ H, SeqAt P (P.layout P.nMeta (le_refl _) hlim) S H)
      ?_ ?_ hr
    · intro S hinit
      obtain ⟨m, h⟩ := seqAt_of_init (le_refl _) hlim hinit
      exact ⟨_, h⟩
    · rintro S a S' - ⟨H, h⟩ ⟨hstep, hfits⟩
      cases hstep with
      | kalloc hcpu hcall =>
        exact h.kalloc hcpu (fun hsize hlarge =>
          (fits_iff_decided h.rep.globals rfl).1 (hfits hsize hlarge)) hcall
      | kfree hlive hcall => exact h.kfree hlive hcall
      | write hlive honly => exact ⟨H, h.write hlive honly⟩
  obtain ⟨H, h⟩ := hinv
  exact ⟨h.contained, fun a S' hstep => h.touches_lt_iff rfl hstep⟩

/-- After a request for two pages on a heap of 20 pages, whose last page starts a
candidate that crosses the end. -/
theorem contained_sample : ∃ S, Reach (SeqInit (.sample 20))
      (Restrict (SeqStep (.sample 20)) fun S a _ => CallFits S a) S ∧
    (∃ p, S.live p = some 131072) ∧ Contained (.sample 20) S := by
  obtain ⟨s, s', p, hinit, hG, hdec, hcall, hp⟩ :=
    exists_run_call (show _ ≤ (Platform.sample 20).nMeta from le_refl _) (by decide)
  have hfits : CallFits ⟨s, fun _ => none⟩ (.kalloc 0 131072) := fun _ _ => by
    rw [show kallocPages (kallocSize 131072) = 2 by decide]
    exact (fits_iff_decided hG rfl).2 hdec
  have hinit' : Reach (SeqInit (.sample 20))
      (Restrict (SeqStep (.sample 20)) fun S a _ => CallFits S a) ⟨s, fun _ => none⟩ := .init hinit
  have hr := hinit'.step ⟨.kalloc (by decide) hcall, hfits⟩
  have hres : reserved 131072 = 131072 := by decide
  rw [if_neg hp, hres] at hr
  exact ⟨_, hr, ⟨p, by simp⟩, (contained_of_fits _ _ hr).1⟩

/-! ## Beyond the end of the heap -/

/-- **The first request for two pages on a heap of 10 pages** gets the last page,
which is free, and the one behind the heap. -/
theorem block_behind_heap : ∃ S p, SeqReachable (.sample 10) S ∧ S.live p = some 131072 ∧
    (Platform.sample 10).heapEnd < p + 131072 ∧ ¬ Contained (.sample 10) S := by
  obtain ⟨L, hL⟩ : ∃ L, L = (Platform.sample 10).layout metaSz (by decide) (le_refl _) := ⟨_, rfl⟩
  obtain ⟨s, hs, hR⟩ := exists_boot (P := .sample 10) (by decide)
    (show _ ≤ metaSz by decide) (le_refl _) fun _ => 0
  have hr : SeqReachable (.sample 10) ⟨s, fun _ => none⟩ := .init ⟨⟨_, hs⟩, fun _ => rfl⟩
  have hcall : kalloc (.sample 10) s 0 131072 = gAlloc s (2 ^ 1) false := by
    unfold kalloc
    rw [if_neg (by decide), if_neg (by decide)]
    rfl
  rw [← hL] at hR
  have hnMeta : L.nMeta = 10 := by rw [hL]; decide
  have hlim : L.lim = 8192 := by rw [hL]; rfl
  have hpage : ∀ i, L.page i = 0x1030000 + i * 65536 := fun i => by
    have hbase : L.base = 0x1030000 := by rw [hL]; decide
    rw [Layout.page, hbase]
    rfl
  have hend : (Platform.sample 10).heapEnd < L.page 9 + 131072 := by
    rw [hpage]
    decide
  have hnine : slabSize * (Platform.sample 10).cpuCount = 9 := rfl
  have hres : reserved 131072 = 131072 := by decide
  rw [hnine] at hR
  have hcases := hR.gAlloc_block (e := 1) (by omega) (decided_of_lim (by omega) (by omega))
  rcases hcases with ⟨f, m', hf, -, -, hfree, -, hrun, -, -⟩ | ⟨hnone, -⟩
  · -- the only free page is the last one
    have hf9 : f = 9 := by
      have hold : ¬ f < 9 := fun hlt => by
        have hu := hfree 0 (by omega)
        rw [Nat.add_zero, boot_use_old hlt] at hu
        cases hu
      omega
    subst hf9
    have hr' := hr.step (.kalloc (by decide) (hcall.trans hrun))
    rw [if_neg (L.page_pos 9).ne', hres] at hr'
    refine ⟨_, L.page 9, hr', by simp, hend, fun hcon => ?_⟩
    obtain ⟨-, hle, hle'⟩ := hcon (L.page 9) 131072 (by simp)
    omega
  · -- both pages count as free: memory is zero behind the table
    refine absurd (fun i hi => ?_) (hnone 9 (by omega) (by omega) ?_)
    · rw [boot_use_behind (by omega), if_neg fun hne => hne.2 rfl]
    · rw [Layout.Aligned, hpage]
      decide

end MyOs.Pmm
