import Mathlib.Order.WellFounded
import MyOs.Lib.ExchangeSort

/-!
# Selection sort

The sort that puts the first smallest of the entries from `i` on into the place `i`, for each
`i` in turn. Behind the loops the keys do not decrease, and the entries are the old ones
in some order; so with distinct keys the result does not depend on the old order.

* `minFrom_le` — the inner loop finds a smallest entry.
* `sortFrom_perm`, `sortFrom_monotone` — the entries are permuted, the keys do not decrease.
* `sortFrom_eq_of_perm` — **the order of the entries does not matter**.
-/

namespace MyOs.SelectionSort

open MyOs.ExchangeSort (Rearranged)

variable {n : Nat} {α κ : Type*} [LinearOrder κ]

-- ---------------------------------------------------------------------------
-- The loops
-- ---------------------------------------------------------------------------

/-- The inner loop, from `j` on: the index of the smallest entry so far is `m`. -/
def minFrom (key : α → κ) (a : Fin n → α) (m : Fin n) (j : Nat) : Fin n :=
  if hj : j < n then minFrom key a (if key (a ⟨j, hj⟩) < key (a m) then ⟨j, hj⟩ else m) (j + 1)
  else m
termination_by n - j

/-- The outer loop, from `i` on. -/
def sortFrom (key : α → κ) (a : Fin n → α) (i : Nat) : Fin n → α :=
  if hi : i < n then
    sortFrom key (a ∘ Equiv.swap ⟨i, hi⟩ (minFrom key a ⟨i, hi⟩ i)) (i + 1)
  else a
termination_by n - i

variable {key : α → κ} {a : Fin n → α} {i m l : Fin n}

-- ---------------------------------------------------------------------------
-- The inner loop
-- ---------------------------------------------------------------------------

/-- The smallest entry is not in front of the loop. -/
theorem le_minFrom (j : Nat) (hm : i ≤ m) (hj : i.val ≤ j) : i ≤ minFrom key a m j := by
  induction m, j using minFrom.induct key a with
  | case1 m j hlt ih =>
    rw [minFrom, dif_pos hlt]
    refine ih ?_ (Nat.le_succ_of_le hj)
    split
    · exact hj
    · exact hm
  | case2 m j hlt =>
    rw [minFrom, dif_neg hlt]
    exact hm

/-- **The inner loop** finds an entry that no entry undercuts. -/
theorem minFrom_le (j : Nat) (hl : ∀ l, i ≤ l → l.val < j → key (a m) ≤ key (a l)) (hil : i ≤ l) :
    key (a (minFrom key a m j)) ≤ key (a l) := by
  induction m, j using minFrom.induct key a with
  | case1 m j hj ih =>
    rw [minFrom, dif_pos hj]
    refine ih fun l' hil' hlj' => ?_
    rcases Nat.lt_succ_iff_lt_or_eq.1 hlj' with hlt | heq
    · have hle := hl l' hil' hlt
      split
      · next hlt' => exact hlt'.le.trans hle
      · exact hle
    · obtain rfl : l' = ⟨j, hj⟩ := Fin.ext heq
      split
      · exact le_rfl
      · next hge => exact not_lt.1 hge
  | case2 m j hj =>
    rw [minFrom, dif_neg hj]
    exact hl l hil (Nat.lt_of_lt_of_le l.isLt (not_lt.1 hj))

-- ---------------------------------------------------------------------------
-- The outer loop
-- ---------------------------------------------------------------------------

theorem swap_perm (him : i ≤ m) : Rearranged i a (a ∘ Equiv.swap i m) := by
  refine ⟨Equiv.swap i m, rfl, fun k hk => ?_⟩
  have hki : k < i := hk
  exact Equiv.swap_apply_of_ne_of_ne (ne_of_lt hki) (ne_of_lt (hki.trans_le him))

/-- The entries before `i` have keys that no later entry undercuts. -/
def Leading (key : α → κ) (i : Nat) (a : Fin n → α) : Prop :=
  ∀ k l : Fin n, k.val < i → k < l → key (a k) ≤ key (a l)

/-- The smallest entry takes the place `i`. -/
theorem Leading.select (h : Leading key i a) :
    Leading key (i + 1) (a ∘ Equiv.swap i (minFrom key a i i)) := by
  have hmin : i ≤ minFrom key a i i := le_minFrom _ le_rfl le_rfl
  have hperm : Rearranged i a (a ∘ Equiv.swap i (minFrom key a i i)) := swap_perm hmin
  intro k l hk hkl
  rcases Nat.lt_succ_iff_lt_or_eq.1 hk with hki | hki
  · obtain ⟨l', hl', heq⟩ := hperm.behind hki hkl
    rw [heq, hperm.front hki]
    exact h k l' hki hl'
  · obtain rfl : k = i := Fin.ext hki
    rw [Function.comp_apply, Function.comp_apply, Equiv.swap_apply_left]
    refine minFrom_le _ (fun l' hkl' hlt => absurd hlt (Nat.not_lt.2 hkl')) ?_
    -- what has come to `l` was behind `k`, or at `k`
    by_cases hlm : l = minFrom key a k k
    · rw [hlm, Equiv.swap_apply_right]
    · rw [Equiv.swap_apply_of_ne_of_ne (ne_of_gt hkl) hlm]
      exact hkl.le

theorem sortFrom_perm (key : α → κ) (a : Fin n → α) (i : Nat) :
    Rearranged i a (sortFrom key a i) := by
  induction a, i using sortFrom.induct key with
  | case1 a i hi ih =>
    rw [sortFrom, dif_pos hi]
    have hmin : (⟨i, hi⟩ : Fin n) ≤ minFrom key a ⟨i, hi⟩ i := le_minFrom _ le_rfl le_rfl
    exact (swap_perm hmin).trans (ih.mono (Nat.le_succ i))
  | case2 a i hi =>
    rw [sortFrom, dif_neg hi]
    exact .refl _ a

theorem sortFrom_leading (i : Nat) (h : Leading key i a) : Leading key n (sortFrom key a i) := by
  induction a, i using sortFrom.induct key with
  | case1 a i hi ih =>
    rw [sortFrom, dif_pos hi]
    exact ih (Leading.select (i := ⟨i, hi⟩) h)
  | case2 a i hi =>
    rw [sortFrom, dif_neg hi]
    exact fun k l _ hkl => h k l (Nat.lt_of_lt_of_le k.isLt (not_lt.1 hi)) hkl

/-- **Selection sort.** The keys do not decrease. -/
theorem sortFrom_monotone : Monotone fun k => key (sortFrom key a 0 k) := by
  intro k l hkl
  rcases hkl.lt_or_eq with hlt | rfl
  · exact sortFrom_leading 0 (fun k l hk _ => absurd hk (Nat.not_lt_zero _)) k l k.isLt hlt
  · exact le_rfl

/-- Distinct keys increase. -/
theorem sortFrom_strictMono (hinj : Function.Injective (key ∘ a)) :
    StrictMono fun k => key (sortFrom key a 0 k) := by
  obtain ⟨σ, hσ, -⟩ := sortFrom_perm key a 0
  refine sortFrom_monotone.strictMono_of_injective fun k l hkl => ?_
  rw [hσ] at hkl
  exact σ.injective (hinj hkl)

/-- **The order of the entries does not matter** when their keys are distinct. -/
theorem sortFrom_eq_of_perm (hinj : Function.Injective (key ∘ a)) (σ : Equiv.Perm (Fin n)) :
    sortFrom key (a ∘ σ) 0 = sortFrom key a 0 := by
  obtain ⟨τ, hτ, -⟩ := sortFrom_perm key a 0
  obtain ⟨τ', hτ', -⟩ := sortFrom_perm key (a ∘ σ) 0
  have hinj' : Function.Injective (key ∘ a ∘ σ) := hinj.comp σ.injective
  have hrange : ∀ (b : Fin n → α) (τ : Equiv.Perm (Fin n)), b = a ∘ τ →
      Set.range (fun k => key (b k)) = Set.range (key ∘ a) := by
    rintro b τ rfl
    exact τ.surjective.range_comp (key ∘ a)
  -- both results list the same keys, in increasing order
  have hkeys : (fun k => key (sortFrom key (a ∘ σ) 0 k)) = fun k => key (sortFrom key a 0 k) := by
    refine ((sortFrom_strictMono hinj').range_inj (sortFrom_strictMono hinj)).1 ?_
    rw [hrange _ τ hτ, hrange _ (τ'.trans σ) hτ']
  funext k
  have hkey : key (a (σ (τ' k))) = key (a (τ k)) := by
    have := congrFun hkeys k
    rw [hτ, hτ'] at this
    exact this
  have hplace : σ (τ' k) = τ k := hinj hkey
  rw [hτ, hτ', Function.comp_apply, Function.comp_apply, Function.comp_apply, hplace]

end MyOs.SelectionSort
