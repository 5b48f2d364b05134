import MyOs.Pmm.Init

/-!
# The page area

What `meta_init` makes of the heap area, whatever memory holds and wherever the area starts
and ends: the pages behind the table are counted from the first multiple of the page size,
and the last one ends at the end of the area or in front of it. The table has `META_SZ`
entries, and the loop comes to an end only at a page that does not fit, so an area with a
page for each entry halts it.

* `holdsPages_iff` — how many pages fit behind the table.
* `metaInit_pageArea` — **`meta_init` halts, or lays out the page area**.
-/

namespace MyOs.Pmm

open MyOs.Memory

variable {P : Platform} {s : State}

-- ---------------------------------------------------------------------------
-- The pages of an area
-- ---------------------------------------------------------------------------

/-- The area holds `n` pages behind the table. -/
def HoldsPages (P : Platform) (n : Nat) : Prop :=
  ∃ a, gpageSz ∣ a ∧ P.heapStart + metaBytes * metaSz ≤ a ∧ a + n * gpageSz ≤ P.heapEnd

/-- No page starts between the table and `G_start`. -/
theorem base_le {a : Nat} (hdvd : gpageSz ∣ a) (hle : P.heapStart + metaBytes * metaSz ≤ a) :
    P.base ≤ a := by
  obtain ⟨hbase, -, hlt⟩ := P.base_spec
  obtain ⟨k, hk⟩ := hbase
  obtain ⟨m, rfl⟩ := hdvd
  rw [hk] at hlt ⊢
  have hlt' : gpageSz * k < gpageSz * (m + 1) := by
    rw [Nat.mul_succ]
    omega
  exact Nat.mul_le_mul_left gpageSz (Nat.lt_succ_iff.1 (Nat.lt_of_mul_lt_mul_left hlt'))

theorem holdsPages_iff {n : Nat} (hn : 0 < n) : HoldsPages P n ↔ n ≤ P.nMeta := by
  have hpos : 0 < gpageSz := by decide
  have hsize : 0 < n * gpageSz := Nat.mul_pos hn hpos
  obtain ⟨hdvd, hlow, -⟩ := P.base_spec
  rw [Platform.nMeta, Nat.le_div_iff_mul_le hpos]
  constructor
  · rintro ⟨a, ha, hle, hend⟩
    have hbase := base_le ha hle
    omega
  · intro hle
    exact ⟨P.base, hdvd, hlow, by omega⟩

-- ---------------------------------------------------------------------------
-- What `meta_init` leaves
-- ---------------------------------------------------------------------------

/-- The pages are numbered from `G_start`: as many as fit, each with its start in the table and
free, and `get_meta_index` is the inverse of the numbering. -/
structure IsPageArea (P : Platform) (s : State) : Prop where
  aligned : gpageSz ∣ s.gStart
  behind : P.heapStart + metaBytes * metaSz ≤ s.gStart
  first : s.gStart < P.heapStart + metaBytes * metaSz + gpageSz
  nMeta : s.nMeta = (P.heapEnd - s.gStart) / gpageSz
  entries : ∀ i < s.nMeta, s.metaStart i = s.gStart + i * gpageSz ∧ s.isAlloc i = false
  index : ∀ i < s.nMeta, getMetaIndex s (s.gStart + i * gpageSz) = .ok (i : Int)
  page : ∀ p, gpageSz ∣ p → s.gStart ≤ p → p < s.gStart + s.nMeta * gpageSz →
    ∃ i < s.nMeta, getMetaIndex s p = .ok (i : Int) ∧ s.metaStart i = p

/-- A state with the layout of the area, and a table that says so. -/
theorem isPageArea_of_globals {L : Layout} (hG : Globals L s) (hbase : L.base = P.base)
    (hn : L.nMeta = P.nMeta)
    (hentries : ∀ i < L.nMeta, s.metaStart i = L.page i ∧ s.isAlloc i = false) :
    IsPageArea P s := by
  obtain ⟨hdvd, hlow, hhigh⟩ := P.base_spec
  have hpage : ∀ i, s.gStart + i * gpageSz = L.page i := fun i => by rw [hG.gStart, Layout.page]
  have hindex : ∀ i < s.nMeta, getMetaIndex s (s.gStart + i * gpageSz) = .ok (i : Int) := by
    intro i hi
    rw [hG.nMeta] at hi
    rw [hpage]
    exact getMetaIndex_page hG (by omega)
  have hstart : ∀ i < s.nMeta, s.metaStart i = s.gStart + i * gpageSz := by
    intro i hi
    rw [hG.nMeta] at hi
    rw [hpage]
    exact (hentries i hi).1
  refine ⟨?_, ?_, ?_, ?_, fun i hi => ⟨hstart i hi, ?_⟩, hindex, fun p hp hle hlt => ?_⟩
  · rw [hG.gStart, hbase]
    exact hdvd
  · rw [hG.gStart, hbase]
    exact hlow
  · rw [hG.gStart, hbase]
    exact hhigh
  · rw [hG.nMeta, hG.gStart, hn, hbase]
    rfl
  · rw [hG.nMeta] at hi
    exact (hentries i hi).2
  · -- the distance from `G_start` is a number of pages
    have haligned : gpageSz ∣ s.gStart := by
      rw [hG.gStart]
      exact L.aligned
    obtain ⟨i, hi⟩ := Nat.dvd_sub hp haligned
    rw [Nat.mul_comm] at hi
    obtain rfl : p = s.gStart + i * gpageSz := by omega
    have hlt' : i < s.nMeta :=
      Nat.lt_of_mul_lt_mul_right (a := gpageSz) (Nat.lt_of_add_lt_add_left hlt)
    exact ⟨i, hlt', hindex i hlt', hstart i hlt'⟩

/-- **`meta_init`** halts on an area with a page for each entry of the table, and lays out the
page area of any other. -/
theorem metaInit_pageArea (P : Platform) (s : State) :
    HoldsPages P metaSz ∧ metaInit P s = .error .assertion ∨
      ¬ HoldsPages P metaSz ∧ ∃ s', metaInit P s = .ok s' ∧ IsPageArea P s' := by
  obtain ⟨s₀, hs₀⟩ : ∃ s₀ : State, s₀ = { s with Meta := P.heapStart, gStart := P.base } :=
    ⟨_, rfl⟩
  have hM : s₀.Meta = P.heapStart := by rw [hs₀]
  have hg : s₀.gStart = P.base := by rw [hs₀]
  have hinit : metaInit P s = metaInitLoop P metaSz 0 s₀ := by
    rw [hs₀]
    rfl
  rw [holdsPages_iff (by decide), hinit]
  rcases Nat.lt_or_ge P.nMeta metaSz with hacc | hbig
  · refine .inr ⟨Nat.not_le.2 hacc, ?_⟩
    obtain ⟨m', hrun, -, hdone⟩ :=
      metaInitLoop_spec (le_refl P.nMeta) hacc.le hM hg hacc metaSz 0 (by omega) (by omega)
    obtain ⟨L, hL⟩ : ∃ L, L = P.layout P.nMeta (le_refl _) hacc.le := ⟨_, rfl⟩
    rw [← hL] at hdone
    have hn : L.nMeta = P.nMeta := by
      rw [hL]
      rfl
    have hG : Globals L { s₀ with mem := m', nMeta := P.nMeta } := by
      rw [hL]
      exact ⟨hM, hg, rfl⟩
    refine ⟨_, hrun, isPageArea_of_globals hG (by rw [hL]; rfl) hn fun i hi => ?_⟩
    rw [hn] at hi
    obtain ⟨hstart, halloc⟩ := hdone i (Nat.zero_le i) hi
    rw [State.metaStart, State.isAlloc, State.get, State.get, hG.metaAt]
    exact ⟨hstart, by simpa using halloc⟩
  · exact .inl ⟨hbig, metaInitLoop_reject hg hbig metaSz 0 (by omega)⟩

end MyOs.Pmm
