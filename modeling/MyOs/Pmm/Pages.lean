import MyOs.Pmm.Rounding

/-!
# Page runs

What the page level of the allocator computes, for any contents of the `Meta`
table: `G_alloc` returns the first aligned run of free entries that starts at a
managed page, and marks it; `G_free` clears the run that starts at its argument.

* `gAlloc_spec` — the first free run is found and marked, or there is none and
  nothing changes.
* `gFree_spec` — the run is cleared.

`Layout` collects the addresses `meta_init` has settled, with the facts that
keep address arithmetic inside a word.
-/

namespace MyOs.Pmm

open MyOs.Memory

/-! ## Layout -/

/-- Where the `Meta` table and the pages are. `lim` is the number of table
entries the description of a state speaks about; the pages from `nMeta` on lie
behind the heap. -/
structure Layout where
  metaBase : Nat
  base : Nat
  nMeta : Nat
  lim : Nat
  aligned : gpageSz ∣ base
  table : metaBase + metaBytes * metaSz ≤ base
  nMeta_le : nMeta ≤ lim
  lim_le : lim ≤ metaSz
  top : base + nMeta * gpageSz + maxAlloc ≤ 2 ^ 64

/-- The address of page `i`. -/
def Layout.page (L : Layout) (i : Nat) : Nat := L.base + i * gpageSz

/-- The address of `Meta[i]`. -/
def Layout.entry (L : Layout) (i : Nat) : Nat := L.metaBase + metaBytes * i

/-- The globals hold the layout. -/
structure Globals (L : Layout) (s : State) : Prop where
  Meta : s.Meta = L.metaBase
  gStart : s.gStart = L.base
  nMeta : s.nMeta = L.nMeta

variable {L : Layout} {s : State} {i j c e n : Nat}

theorem Globals.metaAt (h : Globals L s) (i : Nat) : s.metaAt i = L.entry i := by
  rw [State.metaAt, h.Meta, Layout.entry]

/-- Changing memory or the lock keeps the globals. -/
theorem Globals.with_mem (h : Globals L s) (m : Mem) (g : Nat) :
    Globals L { s with mem := m, gLock := g } :=
  ⟨h.Meta, h.gStart, h.nMeta⟩

namespace Layout

theorem page_dvd (L : Layout) (i : Nat) : gpageSz ∣ L.page i :=
  Nat.dvd_add L.aligned (Nat.dvd_mul_left _ _)

theorem page_add (L : Layout) (i n : Nat) : L.page (i + n) = L.page i + n * gpageSz := by
  rw [page, page, Nat.add_mul, Nat.add_assoc]

theorem page_succ (L : Layout) (i : Nat) : L.page (i + 1) = L.page i + gpageSz := by
  rw [page_add, Nat.one_mul]

theorem page_mono (L : Layout) (h : i ≤ j) : L.page i ≤ L.page j :=
  Nat.add_le_add_left (Nat.mul_le_mul_right _ h) _

theorem page_lt (L : Layout) (h : i < j) : L.page i + gpageSz ≤ L.page j := by
  rw [← page_succ]
  exact L.page_mono h

theorem page_lt_iff (L : Layout) : L.page i < L.page j ↔ i < j := by
  constructor
  · intro h
    by_contra hcon
    exact absurd (L.page_mono (Nat.not_lt.1 hcon)) (by omega)
  · intro h
    have := L.page_lt h
    unfold gpageSz at this
    omega

theorem page_inj (L : Layout) (h : L.page i = L.page j) : i = j := by
  rcases Nat.lt_trichotomy i j with hlt | heq | hlt
  · have := L.page_lt_iff.2 hlt
    omega
  · exact heq
  · have := L.page_lt_iff.2 hlt
    omega

theorem entry_succ (L : Layout) (i : Nat) : L.entry (i + 1) = L.entry i + 24 := by
  unfold entry metaBytes
  omega

theorem entry_lt (L : Layout) (h : i < j) : L.entry i + 24 ≤ L.entry j := by
  unfold entry metaBytes
  omega

/-- The table ends in front of the first page. -/
theorem entry_le_page (L : Layout) (h : i ≤ metaSz) (j : Nat) : L.entry i ≤ L.page j := by
  have htable := L.table
  have : metaBytes * i ≤ metaBytes * metaSz := Nat.mul_le_mul_left _ h
  unfold entry page
  omega

theorem page_pos (L : Layout) (i : Nat) : 0 < L.page i := by
  have htable := L.table
  unfold page
  unfold metaBytes metaSz at htable
  omega

/-- Pages up to a largest run behind the last managed one have addresses. -/
theorem page_lt_word (L : Layout) (h : i < L.nMeta + 256) : L.page i < 2 ^ 64 := by
  have htop := L.top
  have hle : L.page i + gpageSz ≤ L.page (L.nMeta + 256) := L.page_lt h
  rw [page_add] at hle
  rw [show maxAlloc = 256 * gpageSz by decide] at htop
  unfold page at *
  unfold gpageSz at *
  omega

theorem roundDown_page (L : Layout) (h : i < L.nMeta + 256) :
    roundDown (L.page i) gpageSz = L.page i := by
  have hdvd := L.page_dvd i
  rw [gpageSz_eq] at hdvd ⊢
  exact roundDown_eq_self (L.page_lt_word h) (by omega) hdvd

end Layout

/-! ## The entries a run covers -/

/-- The entries of a run are not allocated. -/
def Free (s : State) (c n : Nat) : Prop := ∀ i, i < n → s.isAlloc (c + i) = false

/-- A run of `n` pages may start at `c`: its address is a multiple of its size. -/
def Layout.Aligned (L : Layout) (n c : Nat) : Prop := n * gpageSz ∣ L.page c

/-- What `meta_init` has left in the `start` fields. -/
def Starts (L : Layout) (s : State) : Prop := ∀ i, i < L.nMeta → s.metaStart i = L.page i

theorem toInt_natCast (h : n < 2 ^ 31) : toInt (n : Int) = n := by
  unfold toInt
  exact Int.bmod_eq_of_le (by omega) (by omega)

theorem getMetaIndex_page (hG : Globals L s) (h : i < L.nMeta + 256) :
    getMetaIndex s (L.page i) = .ok (i : Int) := by
  have hdiv : ((L.page i : Int) - s.gStart).tdiv gpageSz = i := by
    rw [hG.gStart, Layout.page]
    push_cast
    rw [add_sub_cancel_left]
    exact Int.mul_tdiv_cancel _ (by decide)
  have hlim := L.lim_le
  have hle := L.nMeta_le
  unfold metaSz at hlim
  unfold getMetaIndex
  rw [check_pos (L.roundDown_page h), ok_bind, hdiv, toInt_natCast (by omega)]
  rfl

theorem isValidRet_page (hG : Globals L s) (h : c < L.nMeta + 256) :
    isValidRet s (L.page c) = .ok (decide (c < L.nMeta)) := by
  have hend : (s.gStart + s.nMeta * gpageSz) % 2 ^ 64 = L.page L.nMeta := by
    rw [hG.gStart, hG.nMeta]
    exact Nat.mod_eq_of_lt (L.page_lt_word (by omega))
  have hlow : ¬ L.page c < s.gStart := by
    rw [hG.gStart, Layout.page]
    omega
  have hpos := L.page_pos c
  unfold isValidRet
  rw [check_pos (by omega), ok_bind, if_neg hlow, hend]
  by_cases hc : c < L.nMeta
  · have := L.page_lt_iff.2 hc
    have hidx : 0 ≤ (c : Int) ∧ (c : Int) < s.nMeta := by
      rw [hG.nMeta]
      omega
    rw [if_neg (by omega), getMetaIndex_page hG h, ok_bind, check_pos hidx,
      ok_bind, decide_eq_true hc]
    rfl
  · have := L.page_mono (Nat.not_lt.1 hc)
    rw [if_pos (by omega), decide_eq_false hc]
    rfl

/-- `try_alloc` tests the run. -/
theorem tryAlloc_page (hG : Globals L s) (hS : Starts L s) (hc : c < L.nMeta) (he : e ≤ 8)
    (hal : L.Aligned (2 ^ e) c) :
    (Free s c (2 ^ e) ∧ tryAlloc s (L.page c) (2 ^ e * gpageSz) = .ok true) ∨
      (¬ Free s c (2 ^ e) ∧ tryAlloc s (L.page c) (2 ^ e * gpageSz) = .ok false) := by
  have hsz : 2 ^ e * gpageSz = 2 ^ (e + 16) := by rw [gpageSz_eq, pow_add]
  have hword : L.page c < 2 ^ 64 := L.page_lt_word (by omega)
  have hdown : roundDown (L.page c) (2 ^ e * gpageSz) = L.page c := by
    unfold Layout.Aligned at hal
    rw [hsz] at hal ⊢
    exact roundDown_eq_self hword (by omega) hal
  have hup : roundUp (2 ^ e * gpageSz) gpageSz = 2 ^ e * gpageSz := by
    have hle : 2 ^ (e + 16) ≤ 2 ^ 24 := Nat.pow_le_pow_right (by omega) (by omega)
    rw [hsz, gpageSz_eq]
    exact roundUp_eq_self (by omega) (by omega) (Nat.pow_dvd_pow 2 (by omega))
  have hpos : 2 ^ e * gpageSz > 0 := by
    rw [hsz]
    exact Nat.two_pow_pos _
  have hidx : 0 ≤ (c : Int) ∧ (c : Int) < s.nMeta := by
    rw [hG.nMeta]
    omega
  have hdiv : 2 ^ e * gpageSz / gpageSz = 2 ^ e := Nat.mul_div_cancel _ (by decide)
  have hrun : tryAlloc s (L.page c) (2 ^ e * gpageSz) =
      if (List.range (2 ^ e)).any fun i => s.isAlloc (c + i) then .ok false
      else check (s.isAlloc c = false) >>= fun _ => .ok true := by
    unfold tryAlloc
    rw [check_pos hdown, ok_bind, check_pos ⟨hpos, hup⟩, ok_bind, isValidRet_page hG (by omega),
      ok_bind, check_pos (decide_eq_true hc), ok_bind, getMetaIndex_page hG (by omega), ok_bind,
      check_pos hidx, ok_bind, Int.toNat_natCast, check_pos (hS c hc), ok_bind, hdiv]
    rfl
  rw [hrun]
  by_cases hany : ((List.range (2 ^ e)).any fun i => s.isAlloc (c + i)) = true
  · refine .inr ⟨fun hfree => ?_, if_pos hany⟩
    obtain ⟨i, hi, halloc⟩ := List.any_eq_true.1 hany
    rw [hfree i (List.mem_range.1 hi)] at halloc
    cases halloc
  · have hfree : Free s c (2 ^ e) := by
      intro i hi
      by_contra hcon
      exact hany (List.any_eq_true.2 ⟨i, List.mem_range.2 hi, by simpa using hcon⟩)
    have hzero : s.isAlloc c = false := hfree 0 (Nat.two_pow_pos e)
    exact .inl ⟨hfree, by rw [if_neg hany, check_pos hzero, ok_bind]⟩

/-! ## Loops over the entries of a run -/

/-- A loop whose round `i` rewrites entry `c + i` only. `Q` is what a round
establishes about its entry, stated so that only that entry's bytes matter. -/
theorem forLoop_entries {body : Nat → State → Result State} {Q : Mem → Nat → Prop} {s : State}
    (hQ : ∀ m m' i, Q m i → Same m m' (L.entry i) (L.entry (i + 1)) → Q m' i) :
    ∀ n, (∀ i m, i < n → Same s.mem m (L.entry (c + i)) (L.entry (c + i + 1)) →
        ∃ m', body i { s with mem := m } = .ok { s with mem := m' } ∧
          OnlyIn m m' (L.entry (c + i)) (L.entry (c + i + 1)) ∧ Q m' (c + i)) →
      ∃ m', forLoop body n s = .ok { s with mem := m' } ∧
        OnlyIn s.mem m' (L.entry c) (L.entry (c + n)) ∧ ∀ i, i < n → Q m' (c + i)
  | 0, _ => ⟨s.mem, rfl, OnlyIn.refl _ _ _, fun _ hi => absurd hi (by omega)⟩
  | n + 1, hbody => by
    obtain ⟨m, hrun, honly, hdone⟩ :=
      forLoop_entries hQ n fun i m hi => hbody i m (by omega)
    have hnext : L.entry c + 24 * n = L.entry (c + n) := by
      unfold Layout.entry metaBytes
      omega
    obtain ⟨m', hrun', honly', hq⟩ := hbody n m (by omega) (honly.same (.inr (le_refl _)))
    refine ⟨m', ?_, ?_, fun i hi => ?_⟩
    · rw [forLoop, hrun, ok_bind, hrun']
    · rw [show c + (n + 1) = c + n + 1 by omega, L.entry_succ]
      rw [L.entry_succ] at honly'
      exact (honly.mono (le_refl _) (by omega)).trans (honly'.mono (by omega) (le_refl _))
    · rcases Nat.lt_succ_iff_lt_or_eq.1 hi with hlt | rfl
      · refine hQ m m' (c + i) (hdone i hlt) (honly'.same (.inl ?_))
        rw [L.entry_succ]
        exact L.entry_lt (by omega)
      · exact hq

/-! ## Marking and clearing a run -/

/-- `m'` has entry `i` allocated, with the given kind and end, and its `start` as in `m`. -/
structure Marked (L : Layout) (isSlab : Bool) (fin : Nat) (m m' : Mem) (i : Nat) : Prop where
  isAlloc : load m' (L.entry i + 16) 1 = 1
  isSlab : load m' (L.entry i + 17) 1 = isSlab.toNat
  fin : load m' (L.entry i + 8) 8 = fin
  start : load m' (L.entry i) 8 = load m (L.entry i) 8

/-- `m'` has entry `i` not allocated, and its `start` as in `m`. -/
structure Cleared (L : Layout) (m m' : Mem) (i : Nat) : Prop where
  isAlloc : load m' (L.entry i + 16) 1 = 0
  start : load m' (L.entry i) 8 = load m (L.entry i) 8

/-- A field of an entry whose bytes are the same. -/
theorem load_entry {m m' : Mem} {off k : Nat} (h : Same m m' (L.entry i) (L.entry (i + 1)))
    (hoff : off + k ≤ 24) : load m' (L.entry i + off) k = load m (L.entry i + off) k := by
  rw [L.entry_succ] at h
  exact (h.sub (by omega) (by omega)).load

theorem slowAlloc_spec (hG : Globals L s) (hc : c < L.nMeta) (hpos : 0 < n) (hn : n ≤ 256)
    (hfree : Free s c n) (isSlab : Bool) :
    ∃ m', slowAlloc s (L.page c) (n * gpageSz) isSlab = .ok { s with mem := m' } ∧
      OnlyIn s.mem m' (L.entry c) (L.entry (c + n)) ∧
      ∀ i, i < n → Marked L isSlab (L.page (c + n)) s.mem m' (c + i) := by
  have hidx : 0 ≤ (c : Int) ∧ (c : Int) < s.nMeta := by
    rw [hG.nMeta]
    omega
  have hend : (L.page c + n * gpageSz) % 2 ^ 64 = L.page (c + n) := by
    rw [← L.page_add]
    exact Nat.mod_eq_of_lt (L.page_lt_word (by omega))
  have hdiv : n * gpageSz / gpageSz = n := Nat.mul_div_cancel _ (by decide)
  have hzero : s.isAlloc c = false := hfree 0 hpos
  unfold slowAlloc
  rw [getMetaIndex_page hG (by omega), ok_bind, check_pos hidx, ok_bind, Int.toNat_natCast,
    check_pos hzero, ok_bind, hend, hdiv]
  refine forLoop_entries (Q := fun m' k => Marked L isSlab (L.page (c + n)) s.mem m' k) ?_ n
    fun i m hi hsame => ?_
  · intro m m' k hmark h
    exact ⟨by rw [load_entry h (by omega), hmark.isAlloc],
      by rw [load_entry h (by omega), hmark.isSlab],
      by rw [load_entry h (by omega), hmark.fin],
      by rw [← Nat.add_zero (L.entry k), load_entry h (by omega), Nat.add_zero, hmark.start]⟩
  · -- round `i` writes three fields of entry `c + i`
    have hnot : State.isAlloc { s with mem := m } (c + i) = false := by
      have hwas := hfree i hi
      unfold State.isAlloc State.get at hwas ⊢
      rw [hG.metaAt] at hwas
      rw [(hG.with_mem m s.gLock).metaAt (c + i), load_entry hsame (by omega)]
      exact hwas
    have hat : s.Meta + metaBytes * (c + i) = L.entry (c + i) := hG.metaAt _
    rw [check_pos hnot, ok_bind]
    refine ⟨_, rfl, ?_, ?_, ?_, ?_, ?_⟩ <;>
      simp only [State.setIsAlloc, State.setIsSlab, State.put, State.metaAt, hat]
    · rw [L.entry_succ]
      exact (((OnlyIn.refl m _ _).store (by omega) (by omega)).store (by omega) (by omega)).store
        (by omega) (by omega)
    · rw [load_store_of_disjoint (by omega), load_store_of_disjoint (by omega),
        load_store (by decide)]
      rfl
    · rw [load_store_of_disjoint (by omega), load_store (by cases isSlab <;> decide)]
    · rw [load_store (L.page_lt_word (by omega))]
    · rw [load_store_of_disjoint (by omega), load_store_of_disjoint (by omega),
        load_store_of_disjoint (by omega), ← Nat.add_zero (L.entry (c + i)),
        load_entry hsame (by omega)]

/-! ## `G_alloc` -/

/-- Two run starts are a run apart. -/
theorem Layout.Aligned.le {c' : Nat} (h : L.Aligned n c) (h' : L.Aligned n c') (hlt : c < c') :
    c + n ≤ c' := by
  obtain ⟨q, hq⟩ := h
  obtain ⟨q', hq'⟩ := h'
  have hpage := L.page_lt_iff.2 hlt
  rw [hq, hq'] at hpage
  have hqq : q + 1 ≤ q' := Nat.lt_of_mul_lt_mul_left hpage
  have hstep : n * gpageSz * (q + 1) ≤ n * gpageSz * q' := Nat.mul_le_mul_left _ hqq
  rw [Nat.mul_add, Nat.mul_one, ← hq, ← hq', ← L.page_add] at hstep
  by_contra hcon
  exact absurd (L.page_lt_iff.2 (Nat.not_le.1 hcon)) (by omega)

theorem Layout.Aligned.add (h : L.Aligned n c) : L.Aligned n (c + n) := by
  unfold Layout.Aligned at *
  rw [L.page_add]
  exact Nat.dvd_add h (Nat.dvd_refl _)

/-- The scan from candidate `c` on. -/
theorem gAllocLoop_spec (hG : Globals L s) (hS : Starts L s) (he : e ≤ 8) (isSlab : Bool)
    (fuel : Nat) (hal : L.Aligned (2 ^ e) c) (hc : c < L.nMeta + 256) (hfuel : L.nMeta < c + fuel)
    (hfuel' : 0 < fuel) :
      (∃ c' m', c ≤ c' ∧ c' < L.nMeta ∧ L.Aligned (2 ^ e) c' ∧ Free s c' (2 ^ e) ∧
          (∀ d, c ≤ d → d < c' → L.Aligned (2 ^ e) d → ¬ Free s d (2 ^ e)) ∧
          gAllocLoop (2 ^ e * gpageSz) isSlab fuel s (L.page c) =
            .ok ({ s with mem := m', gLock := 0 }, L.page c') ∧
          OnlyIn s.mem m' (L.entry c') (L.entry (c' + 2 ^ e)) ∧
          ∀ i, i < 2 ^ e → Marked L isSlab (L.page (c' + 2 ^ e)) s.mem m' (c' + i)) ∨
        ((∀ d, c ≤ d → d < L.nMeta → L.Aligned (2 ^ e) d → ¬ Free s d (2 ^ e)) ∧
          gAllocLoop (2 ^ e * gpageSz) isSlab fuel s (L.page c) =
            .ok ({ s with gLock := 0 }, 0)) := by
  induction fuel generalizing c with
  | zero => omega
  | succ fuel ih =>
    have hpos : 0 < 2 ^ e := Nat.two_pow_pos e
    have hn : 2 ^ e ≤ 256 := Nat.pow_le_pow_right (n := 2) (by omega) he
    rw [gAllocLoop, isValidRet_page hG hc, ok_bind]
    by_cases hvalid : c < L.nMeta
    · rw [decide_eq_true hvalid, if_neg (by decide)]
      rcases tryAlloc_page hG hS hvalid he hal with ⟨hfree, htry⟩ | ⟨hnot, htry⟩
      · -- the candidate is free
        obtain ⟨m', hslow, honly, hmark⟩ := slowAlloc_spec hG hvalid hpos hn hfree isSlab
        have hdown : roundDown (L.page c) (2 ^ e * gpageSz) = L.page c := by
          unfold Layout.Aligned at hal
          rw [gpageSz_eq, ← pow_add] at hal ⊢
          exact roundDown_eq_self (L.page_lt_word hc) (by omega) hal
        refine .inl ⟨c, m', le_refl c, hvalid, hal, hfree, fun d hcd hdc => ?_, ?_, honly, hmark⟩
        · omega
        · rw [htry, ok_bind, if_pos rfl, hslow, ok_bind]
          simp only [check_pos hdown, ok_bind]
          rfl
      · -- the candidate is taken: go on behind it
        have hnext : (L.page c + 2 ^ e * gpageSz) % 2 ^ 64 = L.page (c + 2 ^ e) := by
          rw [← L.page_add]
          exact Nat.mod_eq_of_lt (L.page_lt_word (by omega))
        rw [htry, ok_bind, if_neg (by decide), hnext]
        -- no other candidate starts inside this one
        have hskip : ∀ d, c ≤ d → d < c + 2 ^ e → L.Aligned (2 ^ e) d → ¬ Free s d (2 ^ e) := by
          intro d hcd hd hdal
          rcases Nat.lt_or_eq_of_le hcd with hlt | rfl
          · have := hal.le hdal hlt
            omega
          · exact hnot
        rcases ih hal.add (by omega) (by omega) (by omega) with
          ⟨c', m', hcc', hc', hal', hfree, hfirst, hrun, hrest⟩ | ⟨hnone, hrun⟩
        · refine .inl ⟨c', m', by omega, hc', hal', hfree, fun d hcd hd hdal => ?_, hrun, hrest⟩
          by_cases hdn : d < c + 2 ^ e
          · exact hskip d hcd hdn hdal
          · exact hfirst d (by omega) hd hdal
        · refine .inr ⟨fun d hcd hd hdal => ?_, hrun⟩
          by_cases hdn : d < c + 2 ^ e
          · exact hskip d hcd hdn hdal
          · exact hnone d (by omega) hd hdal
    · rw [decide_eq_false hvalid, if_pos rfl]
      exact .inr ⟨fun d hcd hd => absurd hd (by omega), rfl⟩

/-- The first candidate of `G_alloc`. -/
theorem exists_firstCandidate (L : Layout) (he : e ≤ 8) :
    ∃ c, L.page c = roundUp L.base (2 ^ e * gpageSz) ∧ L.Aligned (2 ^ e) c ∧ c < 2 ^ e ∧
      ∀ d, L.Aligned (2 ^ e) d → c ≤ d := by
  have hsz : 2 ^ e * gpageSz = 2 ^ (e + 16) := by rw [gpageSz_eq, pow_add]
  have hle : 2 ^ (e + 16) ≤ maxAlloc := by
    rw [show maxAlloc = 2 ^ 24 by decide]
    exact Nat.pow_le_pow_right (by omega) (by omega)
  have htop := L.top
  obtain ⟨hdvd, hlow, hhigh⟩ := roundUp_two_pow (a := L.base) (k := e + 16) (by omega) (by omega)
  rw [← hsz] at hdvd hlow hhigh
  -- a multiple of the run size is a page address
  obtain ⟨c, hc⟩ : ∃ c, roundUp L.base (2 ^ e * gpageSz) = L.page c := by
    obtain ⟨q, hq⟩ := Nat.dvd_sub ((Nat.dvd_mul_left gpageSz (2 ^ e)).trans hdvd) L.aligned
    exact ⟨q, by rw [Layout.page, Nat.mul_comm q, ← hq]; omega⟩
  have hbase : L.base = L.page 0 := by
    unfold Layout.page
    omega
  refine ⟨c, hc.symm, by rwa [Layout.Aligned, ← hc], ?_, fun d hd => ?_⟩
  · rw [hc, hbase, ← L.page_add, Nat.zero_add] at hhigh
    exact L.page_lt_iff.1 hhigh
  · by_contra hcon
    have hdc := Layout.Aligned.le hd
      (by rwa [Layout.Aligned, ← hc] : L.Aligned (2 ^ e) c) (by omega)
    rw [hc, hbase] at hhigh
    have := L.page_mono hdc
    rw [L.page_add] at this
    have : L.page 0 ≤ L.page d := L.page_mono (by omega)
    omega

/-- **`G_alloc`** takes the first free aligned run that starts at a managed page;
if there is none it returns `NULL` and the state is as before. -/
theorem gAlloc_spec (hG : Globals L s) (hS : Starts L s) (hlock : s.gLock = 0) (he : e ≤ 8)
    (isSlab : Bool) :
    (∃ c m', c < L.nMeta ∧ L.Aligned (2 ^ e) c ∧ Free s c (2 ^ e) ∧
        (∀ d, d < c → L.Aligned (2 ^ e) d → ¬ Free s d (2 ^ e)) ∧
        gAlloc s (2 ^ e) isSlab = .ok ({ s with mem := m' }, L.page c) ∧
        OnlyIn s.mem m' (L.entry c) (L.entry (c + 2 ^ e)) ∧
        ∀ i, i < 2 ^ e → Marked L isSlab (L.page (c + 2 ^ e)) s.mem m' (c + i)) ∨
      ((∀ d, d < L.nMeta → L.Aligned (2 ^ e) d → ¬ Free s d (2 ^ e)) ∧
        gAlloc s (2 ^ e) isSlab = .ok (s, 0)) := by
  obtain ⟨c₀, hpage, hal, hc₀, hfirst⟩ := exists_firstCandidate L he
  have hn : 2 ^ e ≤ 256 := Nat.pow_le_pow_right (n := 2) (by omega) he
  have hnMeta := L.nMeta_le
  have hlim := L.lim_le
  have hunlock : ∀ m, ({ s with mem := m, gLock := 0 } : State) = { s with mem := m } := by
    intro m
    rw [← hlock]
  have hrun : gAlloc s (2 ^ e) isSlab =
      gAllocLoop (2 ^ e * gpageSz) isSlab (metaSz + 1) { s with gLock := 1 } (L.page c₀) := by
    unfold gAlloc spinLockG
    rw [if_pos hlock, ok_bind, hpage, hG.gStart]
  rw [hrun]
  rcases gAllocLoop_spec (s := { s with gLock := 1 }) (hG.with_mem s.mem 1) hS he isSlab
      (metaSz + 1) hal (by omega) (by omega) (by omega) with
    ⟨c, m', -, hc, hcal, hfree, hbefore, hres, honly, hmark⟩ | ⟨hnone, hres⟩
  · refine .inl ⟨c, m', hc, hcal, hfree, fun d hd hdal => hbefore d (hfirst d hdal) hd hdal, ?_,
      honly, hmark⟩
    rw [hres, ← hunlock]
  · refine .inr ⟨fun d hd hdal => hnone d (hfirst d hdal) hd hdal, ?_⟩
    rw [hres]
    exact congrArg (fun t => Except.ok (t, 0)) (hunlock s.mem)

/-- `G_alloc` for one slab page: every page is aligned, so the first free one is taken. -/
theorem gAlloc_one (hG : Globals L s) (hS : Starts L s) (hlock : s.gLock = 0) :
    (∃ j m', j < L.nMeta ∧ s.isAlloc j = false ∧ (∀ d, d < j → s.isAlloc d = true) ∧
        gAlloc s 1 true = .ok ({ s with mem := m' }, L.page j) ∧
        OnlyIn s.mem m' (L.entry j) (L.entry (j + 1)) ∧
        Marked L true (L.page (j + 1)) s.mem m' j) ∨
      ((∀ d, d < L.nMeta → s.isAlloc d = true) ∧ gAlloc s 1 true = .ok (s, 0)) := by
  have hal : ∀ d, L.Aligned (2 ^ 0) d := fun d => by
    rw [Layout.Aligned, pow_zero, Nat.one_mul]
    exact L.page_dvd d
  have htaken : ∀ d, ¬ Free s d (2 ^ 0) → s.isAlloc d = true := fun d hnot => by
    by_contra hcon
    refine hnot fun i hi => ?_
    obtain rfl : i = 0 := by omega
    simpa using hcon
  rcases gAlloc_spec hG hS hlock (e := 0) (by omega) true with
    ⟨j, m', hj, -, hfree, hfirst, hrun, honly, hmark⟩ | ⟨hnone, hrun⟩
  · exact .inl ⟨j, m', hj, hfree 0 (by omega), fun d hd => htaken d (hfirst d hd (hal d)), hrun,
      honly, hmark 0 (by omega)⟩
  · exact .inr ⟨fun d hd => htaken d (hnone d hd (hal d)), hrun⟩

/-! ## `G_free` -/

/-- The number of pages `G_free` computes from the two ends of a run. -/
theorem Layout.page_count (L : Layout) (c : Nat) (hn : n ≤ 256) :
    toInt (((L.page (c + n) : Int) - L.page c).tdiv gpageSz) = n := by
  have hdiv : ((L.page (c + n) : Int) - L.page c).tdiv gpageSz = n := by
    rw [L.page_add]
    push_cast
    rw [add_sub_cancel_left]
    exact Int.mul_tdiv_cancel _ (by decide)
  rw [hdiv, toInt_natCast (by omega)]

/-- **`G_free`** clears the run at its argument. -/
theorem gFree_spec (hG : Globals L s) (hlock : s.gLock = 0) (hc : c < L.nMeta)
    (hstart : s.metaStart c = L.page c) (hpos : 0 < n) (hn : n ≤ 256)
    (hrun : ∀ i, i < n → s.isAlloc (c + i) = true ∧ s.isSlab (c + i) = false ∧
      s.metaEnd (c + i) = L.page (c + n)) :
    ∃ m', gFree s (L.page c) = .ok { s with mem := m' } ∧
      OnlyIn s.mem m' (L.entry c) (L.entry (c + n)) ∧
      ∀ i, i < n → Cleared L s.mem m' (c + i) := by
  have hG' : Globals L { s with gLock := 1 } := hG.with_mem s.mem 1
  have hidx : 0 ≤ (c : Int) ∧ (c : Int) < s.nMeta := by
    rw [hG.nMeta]
    omega
  have hend : s.metaEnd c = L.page (c + n) := (hrun 0 hpos).2.2
  have hcount := L.page_count c hn
  have hloop : ∃ m', forLoop (fun i s => do
        check (s.isAlloc (c + i) = true)
        check (s.isSlab (c + i) = false)
        check (s.metaEnd (c + i) = L.page (c + n))
        let s := s.setIsAlloc (c + i) false
        return s.setMetaEnd (c + i) 0) n { s with gLock := 1 } =
          .ok { { s with gLock := 1 } with mem := m' } ∧
      OnlyIn s.mem m' (L.entry c) (L.entry (c + n)) ∧
      ∀ i, i < n → Cleared L s.mem m' (c + i) := by
    refine forLoop_entries (Q := fun m' k => Cleared L s.mem m' k) ?_ n fun i m hi hsame => ?_
    · intro m m' k hcl h
      exact ⟨by rw [load_entry h (by omega), hcl.isAlloc],
        by rw [← Nat.add_zero (L.entry k), load_entry h (by omega), Nat.add_zero, hcl.start]⟩
    · -- the entry has not been touched before round `i`
      obtain ⟨halloc, hslab, hfin⟩ := hrun i hi
      have hat : s.Meta + metaBytes * (c + i) = L.entry (c + i) := hG.metaAt _
      simp only [State.isAlloc, State.isSlab, State.metaEnd, State.get, State.metaAt, hat]
        at halloc hslab hfin
      simp only [State.isAlloc, State.isSlab, State.metaEnd, State.get, State.metaAt, hat,
        load_entry hsame (show 16 + 1 ≤ 24 by omega), load_entry hsame (show 17 + 1 ≤ 24 by omega),
        load_entry hsame (show 8 + 8 ≤ 24 by omega), check_pos halloc, check_pos hslab,
        check_pos hfin, ok_bind]
      refine ⟨_, rfl, ?_, ?_, ?_⟩ <;>
        simp only [State.setIsAlloc, State.put, State.metaAt, hat]
      · rw [L.entry_succ]
        exact ((OnlyIn.refl m _ _).store (by omega) (by omega)).store (by omega) (by omega)
      · rw [load_store_of_disjoint (by omega), load_store (by decide)]
        rfl
      · rw [load_store_of_disjoint (by omega), load_store_of_disjoint (by omega),
          ← Nat.add_zero (L.entry (c + i)), load_entry hsame (by omega)]
  obtain ⟨m', hres, honly, hcl⟩ := hloop
  refine ⟨m', ?_, honly, hcl⟩
  have hne : L.page (c + n) ≠ 0 := (L.page_pos _).ne'
  have hstart' : State.metaStart { s with gLock := 1 } c = L.page c := hstart
  have hend' : State.metaEnd { s with gLock := 1 } c = L.page (c + n) := hend
  unfold gFree spinLockG
  rw [if_pos hlock, ok_bind, check_pos (L.roundDown_page (by omega)), ok_bind,
    getMetaIndex_page hG' (by omega), ok_bind, check_pos hidx, ok_bind, Int.toNat_natCast,
    check_pos hstart', ok_bind]
  simp only [hend', hcount, check_pos hne, ok_bind, Int.toNat_natCast, hres, spinUnlockG]
  rw [← hlock]
  rfl

end MyOs.Pmm
