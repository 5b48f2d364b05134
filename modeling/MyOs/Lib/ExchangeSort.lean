import Mathlib.Logic.Equiv.Basic
import Mathlib.Order.Fin.Basic
import Mathlib.Tactic.Common

/-!
# Exchange sort

The sort with two nested loops over an array, as a function on its indices: entry `i` is
compared with every later one, and the two change places when the later one has the
larger key. Behind the loops the keys do not increase, and the entries are the old ones
in some order.

* `sweep_perm`, `sweep_le` — one run of the inner loop.
* `sortFrom_perm` — the entries are permuted.
* `sortFrom_antitone` — the keys do not increase.
-/

namespace MyOs.ExchangeSort

variable {n : Nat} {α κ : Type*} [LinearOrder κ]

-- ---------------------------------------------------------------------------
-- The loops
-- ---------------------------------------------------------------------------

/-- The entries `i` and `j` change places when the key of `j` is the larger one. -/
def exchange (key : α → κ) (a : Fin n → α) (i j : Fin n) : Fin n → α :=
  if key (a i) < key (a j) then a ∘ Equiv.swap i j else a

/-- The inner loop, from `j` on. -/
def sweep (key : α → κ) (i : Fin n) (a : Fin n → α) (j : Nat) : Fin n → α :=
  if hj : j < n then sweep key i (exchange key a i ⟨j, hj⟩) (j + 1) else a
termination_by n - j

/-- The outer loop, from `i` on. -/
def sortFrom (key : α → κ) (a : Fin n → α) (i : Nat) : Fin n → α :=
  if hi : i < n then sortFrom key (sweep key ⟨i, hi⟩ a (i + 1)) (i + 1) else a
termination_by n - i

variable {key : α → κ} {a : Fin n → α} {i j k l : Fin n}

-- ---------------------------------------------------------------------------
-- Permutations that leave the front alone
-- ---------------------------------------------------------------------------

/-- `b` has the entries of `a` in another order, those before `i` in their places. -/
def Rearranged (i : Nat) (a b : Fin n → α) : Prop :=
  ∃ σ : Equiv.Perm (Fin n), b = a ∘ σ ∧ ∀ k : Fin n, k.val < i → σ k = k

theorem Rearranged.refl (i : Nat) (a : Fin n → α) : Rearranged i a a :=
  ⟨Equiv.refl _, rfl, fun _ _ => rfl⟩

theorem Rearranged.trans {i : Nat} {a b c : Fin n → α} (h : Rearranged i a b)
    (h' : Rearranged i b c) : Rearranged i a c := by
  obtain ⟨σ, rfl, hσ⟩ := h
  obtain ⟨τ, rfl, hτ⟩ := h'
  refine ⟨τ.trans σ, rfl, fun k hk => ?_⟩
  rw [Equiv.trans_apply, hτ k hk, hσ k hk]

theorem Rearranged.mono {i i' : Nat} {a b : Fin n → α} (h : Rearranged i a b) (hle : i' ≤ i) :
    Rearranged i' a b := by
  obtain ⟨σ, hb, hσ⟩ := h
  exact ⟨σ, hb, fun k hk => hσ k (Nat.lt_of_lt_of_le hk hle)⟩

theorem Rearranged.front {i : Nat} {a b : Fin n → α} (h : Rearranged i a b) (hk : k.val < i) :
    b k = a k := by
  obtain ⟨σ, rfl, hσ⟩ := h
  rw [Function.comp_apply, hσ k hk]

/-- An entry behind `k` comes from behind `k`. -/
theorem Rearranged.behind {i : Nat} {a b : Fin n → α} (h : Rearranged i a b) (hk : k.val < i)
    (hkl : k < l) : ∃ l', k < l' ∧ b l = a l' := by
  obtain ⟨σ, rfl, hσ⟩ := h
  refine ⟨σ l, ?_, rfl⟩
  by_contra hle
  -- then `σ l` stands in its own place, so it is `l`
  have hfix : σ (σ l) = σ l := hσ _ (Nat.lt_of_le_of_lt (not_lt.1 hle) hk)
  exact hle (hkl.trans_eq (σ.injective hfix).symm)

theorem exchange_perm (hij : i < j) : Rearranged i a (exchange key a i j) := by
  unfold exchange
  split
  · refine ⟨Equiv.swap i j, rfl, fun k hk => ?_⟩
    have hki : k < i := hk
    exact Equiv.swap_apply_of_ne_of_ne (ne_of_lt hki) (ne_of_lt (hki.trans hij))
  · exact .refl _ a

-- ---------------------------------------------------------------------------
-- The inner loop
-- ---------------------------------------------------------------------------

theorem sweep_perm (j : Nat) (hij : i.val < j) : Rearranged i a (sweep key i a j) := by
  induction a, j using sweep.induct key i with
  | case1 a j hj ih =>
    rw [sweep, dif_pos hj]
    exact (exchange_perm hij).trans (ih (Nat.lt_succ_of_lt hij))
  | case2 a j hj =>
    rw [sweep, dif_neg hj]
    exact .refl _ a

/-- The entry at `i` becomes the larger one of the two, and no other entry grows. -/
theorem exchange_le (hij : i < j) (hl : ∀ l, i < l → l < j → key (a l) ≤ key (a i)) (hil : i < l)
    (hlj : l ≤ j) : key (exchange key a i j l) ≤ key (exchange key a i j i) := by
  unfold exchange
  split
  · next hlt =>
    rw [Function.comp_apply, Function.comp_apply, Equiv.swap_apply_left]
    rcases hlj.lt_or_eq with hlt' | rfl
    · rw [Equiv.swap_apply_of_ne_of_ne (ne_of_gt hil) (ne_of_lt hlt')]
      exact (hl l hil hlt').trans hlt.le
    · rw [Equiv.swap_apply_right]
      exact hlt.le
  · next hge =>
    rcases hlj.lt_or_eq with hlt' | rfl
    · exact hl l hil hlt'
    · exact not_lt.1 hge

/-- **Inner loop.** No later entry has a larger key than the entry at `i`. -/
theorem sweep_le (j : Nat) (hij : i.val < j)
    (hl : ∀ l, i < l → l.val < j → key (a l) ≤ key (a i)) (hil : i < l) :
    key (sweep key i a j l) ≤ key (sweep key i a j i) := by
  induction a, j using sweep.induct key i with
  | case1 a j hj ih =>
    rw [sweep, dif_pos hj]
    refine ih (Nat.lt_succ_of_lt hij) fun l' hil' hlj' => ?_
    exact exchange_le (j := ⟨j, hj⟩) hij (fun l'' h h' => hl l'' h h') hil'
      (Nat.le_of_lt_succ hlj')
  | case2 a j hj =>
    rw [sweep, dif_neg hj]
    exact hl l hil (Nat.lt_of_lt_of_le l.isLt (not_lt.1 hj))

-- ---------------------------------------------------------------------------
-- The outer loop
-- ---------------------------------------------------------------------------

/-- The entries before `i` have keys that no later entry exceeds. -/
def Leading (key : α → κ) (i : Nat) (a : Fin n → α) : Prop :=
  ∀ k l : Fin n, k.val < i → k < l → key (a l) ≤ key (a k)

theorem Leading.sweep (h : Leading key i a) : Leading key (i + 1) (sweep key i a (i + 1)) := by
  have hperm : Rearranged i a (ExchangeSort.sweep key i a (i + 1)) :=
    sweep_perm _ (Nat.lt_succ_self _)
  intro k l hk hkl
  rcases Nat.lt_succ_iff_lt_or_eq.1 hk with hki | hki
  · obtain ⟨l', hl', heq⟩ := hperm.behind hki hkl
    rw [heq, hperm.front hki]
    exact h k l' hki hl'
  · obtain rfl : k = i := Fin.ext hki
    refine sweep_le _ (Nat.lt_succ_self _) (fun l' hil' hlt => ?_) hkl
    have : k.val < l'.val := hil'
    omega

theorem sortFrom_perm (key : α → κ) (a : Fin n → α) (i : Nat) :
    Rearranged i a (sortFrom key a i) := by
  induction a, i using sortFrom.induct key with
  | case1 a i hi ih =>
    rw [sortFrom, dif_pos hi]
    have hsweep : Rearranged i a (sweep key ⟨i, hi⟩ a (i + 1)) :=
      sweep_perm (i := ⟨i, hi⟩) (i + 1) (Nat.lt_succ_self i)
    exact hsweep.trans (ih.mono (Nat.le_succ i))
  | case2 a i hi =>
    rw [sortFrom, dif_neg hi]
    exact .refl _ a

theorem sortFrom_leading (i : Nat) (h : Leading key i a) : Leading key n (sortFrom key a i) := by
  induction a, i using sortFrom.induct key with
  | case1 a i hi ih =>
    rw [sortFrom, dif_pos hi]
    exact ih (Leading.sweep (i := ⟨i, hi⟩) h)
  | case2 a i hi =>
    rw [sortFrom, dif_neg hi]
    exact fun k l _ hkl => h k l (Nat.lt_of_lt_of_le k.isLt (not_lt.1 hi)) hkl

/-- **Exchange sort.** The keys do not increase. -/
theorem sortFrom_antitone : Antitone fun k => key (sortFrom key a 0 k) := by
  intro k l hkl
  rcases hkl.lt_or_eq with hlt | rfl
  · exact sortFrom_leading 0 (fun k l hk _ => absurd hk (Nat.not_lt_zero _)) k l k.isLt hlt
  · exact le_rfl

end MyOs.ExchangeSort
