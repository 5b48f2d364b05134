import Mathlib.Data.List.Pairwise
import Mathlib.Algebra.Order.Group.Nat
import Mathlib.Tactic.Common
import Mathlib.Tactic.Ring

/-!
# Free chunks of a slotted region

A region is cut into slots of `sz` bytes at multiples of `sz`. Its free slots are
kept as a list of chunks `(start, length)` in address order, each covering one or
more slots (`Chunks`). Two operations change it: `pop` takes the first slot of
the first chunk, and a freed slot is inserted between the chunks below and above
it (`chunks_insert`). What each does to the set of covered slots is
`covers_pop` and `covers_insert`. As long as slots come back one by one, only the
last chunk can be longer than a slot (`Carved`).
-/

namespace MyOs.FreeChunks

variable {sz lo hi p q a n : Nat} {l l₁ l₂ : List (Nat × Nat)}

/-- Two multiples of `sz` in order are `sz` apart. -/
theorem add_le_of_dvd (hp : sz ∣ p) (hq : sz ∣ q) (h : p < q) : p + sz ≤ q := by
  have hle : sz ≤ q - p := Nat.le_of_dvd (by omega) (Nat.dvd_sub hq hp)
  omega

/-- `l` lists disjoint chunks of whole slots between `lo` and `hi`, in address order. -/
structure Chunks (sz lo hi : Nat) (l : List (Nat × Nat)) : Prop where
  each : ∀ c ∈ l, lo ≤ c.1 ∧ sz ∣ c.1 ∧ sz ∣ c.2 ∧ 0 < c.2 ∧ c.1 + c.2 ≤ hi
  sorted : l.Pairwise fun c d => c.1 + c.2 ≤ d.1

/-- The slot at `p` lies in one of the chunks. -/
def Covers (sz : Nat) (l : List (Nat × Nat)) (p : Nat) : Prop :=
  ∃ c ∈ l, c.1 ≤ p ∧ p + sz ≤ c.1 + c.2

/-- Take the first slot of the first chunk. -/
def pop (sz : Nat) : List (Nat × Nat) → List (Nat × Nat)
  | [] => []
  | (a, n) :: l => if n = sz then l else (a + sz, n - sz) :: l

theorem not_covers_nil : ¬ Covers sz [] p := by
  rintro ⟨c, hc, -⟩
  cases hc

theorem covers_cons : Covers sz ((a, n) :: l) p ↔ (a ≤ p ∧ p + sz ≤ a + n) ∨ Covers sz l p := by
  constructor
  · rintro ⟨c, hc, h⟩
    rcases List.mem_cons.1 hc with rfl | hc
    · exact .inl h
    · exact .inr ⟨c, hc, h⟩
  · rintro (h | ⟨c, hc, h⟩)
    · exact ⟨(a, n), List.mem_cons_self, h⟩
    · exact ⟨c, List.mem_cons_of_mem _ hc, h⟩

theorem Chunks.singleton (hlo : lo ≤ a) (ha : sz ∣ a) (hn : sz ∣ n) (hpos : 0 < n)
    (hhi : a + n ≤ hi) : Chunks sz lo hi [(a, n)] := by
  refine ⟨fun c hc => ?_, List.pairwise_singleton _ _⟩
  obtain rfl := List.mem_singleton.1 hc
  exact ⟨hlo, ha, hn, hpos, hhi⟩

theorem Chunks.tail (h : Chunks sz lo hi ((a, n) :: l)) : Chunks sz lo hi l :=
  ⟨fun c hc => h.each c (List.mem_cons_of_mem _ hc), (List.pairwise_cons.1 h.sorted).2⟩

/-- A chunk holds at least one slot. -/
theorem Chunks.le_length (h : Chunks sz lo hi l) {c : Nat × Nat} (hc : c ∈ l) : sz ≤ c.2 := by
  obtain ⟨-, -, hdvd, hpos, -⟩ := h.each c hc
  exact Nat.le_of_dvd hpos hdvd

/-- A slot that is not covered is apart from every chunk. -/
theorem Chunks.apart (h : Chunks sz lo hi l) (hp : sz ∣ p) (hnot : ¬ Covers sz l p)
    {c : Nat × Nat} (hc : c ∈ l) : p + sz ≤ c.1 ∨ c.1 + c.2 ≤ p := by
  obtain ⟨-, ha, hn, -, -⟩ := h.each c hc
  by_contra hcon
  refine hnot ⟨c, hc, ?_, ?_⟩
  · by_contra hlt
    have := add_le_of_dvd hp ha (by omega)
    omega
  · exact add_le_of_dvd hp (Nat.dvd_add ha hn) (by omega)

/-- Distinct chunks are apart. -/
theorem Chunks.apart_of_ne (h : Chunks sz lo hi l) {c d : Nat × Nat} (hc : c ∈ l) (hd : d ∈ l)
    (hne : c ≠ d) : c.1 + c.2 ≤ d.1 ∨ d.1 + d.2 ≤ c.1 := by
  let R : Nat × Nat → Nat × Nat → Prop := fun c d => c.1 + c.2 ≤ d.1 ∨ d.1 + d.2 ≤ c.1
  have : Std.Symm R := ⟨fun _ _ => Or.symm⟩
  have hR : l.Pairwise R := h.sorted.imp fun hcd => .inl hcd
  exact hR.forall hc hd hne

/-- The chunks have room for at most as many slots as the region. -/
theorem Chunks.length_mul_le : ∀ {l : List (Nat × Nat)} {lo : Nat}, Chunks sz lo hi l →
    l.length * sz ≤ hi - lo
  | [], _, _ => by simp
  | (a, n) :: l, lo, h => by
    obtain ⟨hlo, -, -, -, hhi⟩ := h.each (a, n) List.mem_cons_self
    have hsz : sz ≤ n := h.le_length (c := (a, n)) List.mem_cons_self
    have htail : Chunks sz (a + n) hi l := by
      refine ⟨fun c hc => ?_, h.tail.sorted⟩
      obtain ⟨-, hrest⟩ := h.tail.each c hc
      exact ⟨(List.pairwise_cons.1 h.sorted).1 c hc, hrest⟩
    have hle := htail.length_mul_le
    simp only at hlo hhi
    rw [List.length_cons, Nat.add_mul, Nat.one_mul]
    omega

/-! ## Taking the first slot -/

theorem chunks_pop (h : Chunks sz lo hi l) : Chunks sz lo hi (pop sz l) := by
  match l, h with
  | [], h => exact h
  | (a, n) :: l, h =>
    rw [pop]
    by_cases hn : n = sz
    · rw [if_pos hn]
      exact h.tail
    · rw [if_neg hn]
      obtain ⟨hlo, ha, hdvd, hpos, hhi⟩ := h.each (a, n) List.mem_cons_self
      have hsz : sz ≤ n := h.le_length (c := (a, n)) List.mem_cons_self
      obtain ⟨hhead, htail⟩ := List.pairwise_cons.1 h.sorted
      simp only at hlo ha hdvd hpos hhi hhead
      refine ⟨fun c hc => ?_, List.pairwise_cons.2 ⟨fun c hc => ?_, htail⟩⟩
      · rcases List.mem_cons.1 hc with rfl | hc
        · exact ⟨by omega, Nat.dvd_add_self_right.2 ha, Nat.dvd_sub hdvd (Nat.dvd_refl sz),
            by omega, by omega⟩
        · exact h.tail.each c hc
      · have := hhead c hc
        simp only
        omega

/-- `pop` uncovers exactly the slot it takes. -/
theorem covers_pop (h : Chunks sz lo hi ((a, n) :: l)) (hsz : 0 < sz) (hp : sz ∣ p) :
    Covers sz (pop sz ((a, n) :: l)) p ↔ Covers sz ((a, n) :: l) p ∧ p ≠ a := by
  obtain ⟨-, ha, hn, hpos, -⟩ := h.each (a, n) List.mem_cons_self
  have hle : sz ≤ n := h.le_length (c := (a, n)) List.mem_cons_self
  simp only at ha hn hpos
  -- the later chunks start behind the first one
  have hlater : Covers sz l p → p ≠ a := by
    rintro ⟨c, hc, hcp, -⟩
    have := (List.pairwise_cons.1 h.sorted).1 c hc
    simp only at this
    omega
  have hstep : a < p → a + sz ≤ p := add_le_of_dvd ha hp
  rw [covers_cons, pop]
  by_cases hnsz : n = sz
  · rw [if_pos hnsz]
    constructor
    · exact fun hcov => ⟨.inr hcov, hlater hcov⟩
    · rintro ⟨⟨hap, hfit⟩ | hcov, hne⟩
      · omega
      · exact hcov
  · rw [if_neg hnsz, covers_cons]
    constructor
    · rintro (⟨hap, hfit⟩ | hcov)
      · exact ⟨.inl (by omega), by omega⟩
      · exact ⟨.inr hcov, hlater hcov⟩
    · rintro ⟨⟨hap, hfit⟩ | hcov, hne⟩
      · exact .inl (by omega)
      · exact .inr hcov

/-! ## Giving a slot back -/

/-- A slot that no chunk covers goes between the chunks below and above it. -/
theorem chunks_insert (h : Chunks sz lo hi (l₁ ++ l₂)) (hsz : 0 < sz) (hp : sz ∣ p)
    (hlo : lo ≤ p) (hhi : p + sz ≤ hi) (hnot : ¬ Covers sz (l₁ ++ l₂) p)
    (hbelow : ∀ c ∈ l₁, c.1 < p) (habove : ∀ c ∈ l₂, p ≤ c.1) :
    Chunks sz lo hi (l₁ ++ (p, sz) :: l₂) := by
  refine ⟨fun c hc => ?_, ?_⟩
  · rcases List.mem_append.1 hc with hc | hc
    · exact h.each c (List.mem_append_left _ hc)
    · rcases List.mem_cons.1 hc with rfl | hc
      · exact ⟨hlo, hp, Nat.dvd_refl sz, hsz, hhi⟩
      · exact h.each c (List.mem_append_right _ hc)
  · obtain ⟨hs₁, hs₂, hs⟩ := List.pairwise_append.1 h.sorted
    refine List.pairwise_append.2 ⟨hs₁, List.pairwise_cons.2 ⟨fun d hd => ?_, hs₂⟩,
      fun c hc d hd => ?_⟩
    · have := h.apart hp hnot (List.mem_append_right _ hd)
      have := habove d hd
      have := h.le_length (List.mem_append_right l₁ hd)
      simp only
      omega
    · rcases List.mem_cons.1 hd with rfl | hd
      · have := h.apart hp hnot (List.mem_append_left _ hc)
        have := hbelow c hc
        simp only
        omega
      · exact hs c hc d hd

/-- Inserting covers exactly one slot more. -/
theorem covers_insert :
    Covers sz (l₁ ++ (p, sz) :: l₂) q ↔ q = p ∨ Covers sz (l₁ ++ l₂) q := by
  constructor
  · rintro ⟨c, hc, hle, hfit⟩
    rcases List.mem_append.1 hc with hc | hc
    · exact .inr ⟨c, List.mem_append_left _ hc, hle, hfit⟩
    · rcases List.mem_cons.1 hc with rfl | hc
      · exact .inl (by simp only at hle hfit; omega)
      · exact .inr ⟨c, List.mem_append_right _ hc, hle, hfit⟩
  · rintro (rfl | ⟨c, hc, hcov⟩)
    · exact ⟨(q, sz), by simp, by simp, by simp⟩
    · refine ⟨c, ?_, hcov⟩
      rcases List.mem_append.1 hc with hc | hc
      · exact List.mem_append_left _ hc
      · exact List.mem_append_right _ (List.mem_cons_of_mem _ hc)

/-! ## The uncarved rest -/

/-- A chunk of more than one slot is the rest of the region. -/
def Carved (sz hi : Nat) (l : List (Nat × Nat)) : Prop :=
  ∀ c ∈ l, c.2 ≠ sz → c.1 + c.2 = hi

theorem Carved.pop (h : Carved sz hi l) (hc : Chunks sz lo hi l) : Carved sz hi (pop sz l) := by
  match l, h, hc with
  | [], h, _ => exact h
  | (a, n) :: l, h, hc =>
    have hle : sz ≤ n := hc.le_length (c := (a, n)) List.mem_cons_self
    rw [FreeChunks.pop]
    by_cases hn : n = sz
    · rw [if_pos hn]
      exact fun c hmem => h c (List.mem_cons_of_mem _ hmem)
    · rw [if_neg hn]
      intro c hmem hne
      rcases List.mem_cons.1 hmem with rfl | hmem
      · have hend : a + n = hi := h (a, n) List.mem_cons_self hn
        simp only
        omega
      · exact h c (List.mem_cons_of_mem _ hmem) hne

theorem Carved.insert (h : Carved sz hi (l₁ ++ l₂)) : Carved sz hi (l₁ ++ (p, sz) :: l₂) := by
  intro c hmem hne
  rcases List.mem_append.1 hmem with hmem | hmem
  · exact h c (List.mem_append_left _ hmem) hne
  · rcases List.mem_cons.1 hmem with rfl | hmem
    · exact absurd rfl hne
    · exact h c (List.mem_append_right _ hmem) hne

/-- **Only the last chunk** can be longer than one slot. -/
theorem Carved.dropLast (h : Carved sz hi l) (hc : Chunks sz lo hi l) {c : Nat × Nat}
    (hmem : c ∈ l.dropLast) : c.2 = sz := by
  by_contra hne
  -- behind the rest of the region there is no room for the last chunk
  have hnil : l ≠ [] := by
    rintro rfl
    cases hmem
  have hsplit := List.dropLast_concat_getLast hnil
  have hend := h c (List.dropLast_subset l hmem) hne
  have hsorted := hc.sorted
  rw [← hsplit] at hsorted
  have hapart := (List.pairwise_append.1 hsorted).2.2 c hmem _ List.mem_cons_self
  obtain ⟨-, -, -, hpos, hle⟩ := hc.each _ (List.getLast_mem hnil)
  omega

end MyOs.FreeChunks
