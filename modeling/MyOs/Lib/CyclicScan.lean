import Mathlib.Data.List.Chain
import Mathlib.Data.Nat.ModEq
import Mathlib.Tactic.Common

/-!
# Cyclic scans

A scan over the indices `0 … n - 1` that starts after a given index, wraps
around, and stops at the first index that satisfies a test. Two facts about it
carry a round-robin scheduler:

* `scan_eq_some` / `scan_isSome` — the scan stops within `n` probes when some
  index passes, and it stops at the first one in cyclic order;
* `Scans.alternates` — along a sequence of scans, each starting where the last
  one stopped, two indices that always pass are hit alternately.
-/

namespace MyOs.CyclicScan

/-- `k` steps after `i` on the cycle of length `n`. -/
def advance (n i k : Nat) : Nat := (i + k) % n

/-- Probe `i + 1, i + 2, …` (mod `n`), at most `fuel` indices. -/
def scan (n : Nat) (p : Nat → Bool) : Nat → Nat → Option Nat
  | 0, _ => none
  | fuel + 1, i =>
    let i := (i + 1) % n
    if p i then some i else scan n p fuel i

/-- `j` is the first index after `i`, in cyclic order, that satisfies `P`. -/
def First (n : Nat) (P : Nat → Prop) (i j : Nat) : Prop :=
  P j ∧ ∃ k, 1 ≤ k ∧ k ≤ n ∧ j = advance n i k ∧ ∀ m, 1 ≤ m → m < k → ¬ P (advance n i m)

theorem advance_add (n i k m : Nat) : advance n (advance n i k) m = advance n i (k + m) := by
  simp [advance, Nat.add_assoc]

theorem advance_lt {n : Nat} (hn : 0 < n) (i k : Nat) : advance n i k < n := Nat.mod_lt _ hn

/-- Every index of the cycle is ahead of `i` by some `k` between `1` and `n`. -/
theorem exists_advance {n : Nat} {i p : Nat} (hi : i < n) (hp : p < n) :
    ∃ k, 1 ≤ k ∧ k ≤ n ∧ p = advance n i k := by
  by_cases h : i < p
  · exact ⟨p - i, by omega, by omega, by rw [advance, show i + (p - i) = p by omega,
      Nat.mod_eq_of_lt hp]⟩
  · refine ⟨p + n - i, by omega, by omega, ?_⟩
    rw [advance, show i + (p + n - i) = p + n by omega, Nat.add_mod_right, Nat.mod_eq_of_lt hp]

/-- The offset of an index ahead of `i` is unique. -/
theorem advance_inj {n i k m : Nat} (hk : 1 ≤ k) (hkn : k ≤ n) (hm : 1 ≤ m) (hmn : m ≤ n)
    (h : advance n i k = advance n i m) : k = m := by
  have hmod : k % n = m % n := Nat.ModEq.add_left_cancel (Nat.ModEq.refl i) h
  rcases Nat.lt_or_eq_of_le hkn with hlt | rfl
  · rcases Nat.lt_or_eq_of_le hmn with hlt' | rfl
    · rwa [Nat.mod_eq_of_lt hlt, Nat.mod_eq_of_lt hlt'] at hmod
    · rw [Nat.mod_eq_of_lt hlt, Nat.mod_self] at hmod
      omega
  · rcases Nat.lt_or_eq_of_le hmn with hlt' | rfl
    · rw [Nat.mod_eq_of_lt hlt', Nat.mod_self] at hmod
      omega
    · rfl

/-! ## The scan finds the first index -/

/-- What a successful scan returns: the first passing offset within the fuel. -/
theorem scan_eq_some {n : Nat} {p : Nat → Bool} {fuel i j : Nat}
    (h : scan n p fuel i = some j) :
    p j = true ∧ ∃ k, 1 ≤ k ∧ k ≤ fuel ∧ j = advance n i k ∧
      ∀ m, 1 ≤ m → m < k → p (advance n i m) = false := by
  induction fuel generalizing i with
  | zero => simp [scan] at h
  | succ fuel ih =>
    simp only [scan] at h
    split at h
    · rename_i hp
      obtain rfl := Option.some.inj h
      exact ⟨hp, 1, le_rfl, by omega, rfl, fun m h1 h2 => by omega⟩
    · rename_i hp
      obtain ⟨hj, k, hk, hkf, rfl, hfirst⟩ := ih h
      have hstep : ∀ m, advance n ((i + 1) % n) m = advance n i (1 + m) :=
        fun m => advance_add n i 1 m
      refine ⟨hj, k + 1, by omega, by omega, by rw [hstep, Nat.add_comm], fun m h1 h2 => ?_⟩
      by_cases hm : m = 1
      · subst hm
        simpa [advance] using hp
      · have := hfirst (m - 1) (by omega) (by omega)
        rwa [hstep, show 1 + (m - 1) = m by omega] at this

/-- The scan succeeds within `n` probes when some index passes. -/
theorem scan_isSome {n : Nat} {p : Nat → Bool} {fuel i k : Nat} (hk : 1 ≤ k) (hkf : k ≤ fuel)
    (hp : p (advance n i k) = true) : ∃ j, scan n p fuel i = some j := by
  induction fuel generalizing i k with
  | zero => omega
  | succ fuel ih =>
    simp only [scan]
    split
    · exact ⟨_, rfl⟩
    · rename_i hnp
      have hk1 : k ≠ 1 := by
        rintro rfl
        exact hnp hp
      refine ih (k := k - 1) (by omega) (by omega) ?_
      have : advance n ((i + 1) % n) (k - 1) = advance n i (1 + (k - 1)) :=
        advance_add n i 1 (k - 1)
      rwa [this, show 1 + (k - 1) = k by omega]

/-- More fuel does not change where a scan stops. -/
theorem scan_mono {n : Nat} {p : Nat → Bool} {fuel fuel' i j : Nat} (hle : fuel ≤ fuel')
    (h : scan n p fuel i = some j) : scan n p fuel' i = some j := by
  induction fuel generalizing fuel' i with
  | zero => simp [scan] at h
  | succ fuel ih =>
    obtain ⟨f, rfl⟩ : ∃ f, fuel' = f + 1 := ⟨fuel' - 1, by omega⟩
    simp only [scan] at h ⊢
    split at h
    · rename_i hp
      rwa [if_pos hp]
    · rename_i hp
      rw [if_neg hp]
      exact ih (by omega) h

/-- A successful scan from an index of the cycle stops within one round, at the
first passing index. -/
theorem scan_first {n : Nat} {p : Nat → Bool} {fuel i j : Nat} (hi : i < n)
    (h : scan n p fuel i = some j) : First n (fun m => p m = true) i j := by
  obtain ⟨hj, k, hk, -, rfl, hfirst⟩ := scan_eq_some h
  refine ⟨hj, k, hk, ?_, rfl, fun m h1 h2 => by simp [hfirst m h1 h2]⟩
  -- past a whole round the scan would have seen this index before
  by_contra hkn
  obtain ⟨k', h1, h2, hk'⟩ := exists_advance hi (advance_lt (by omega) i k)
  have := hfirst k' h1 (by omega)
  rw [← hk', hj] at this
  exact absurd this (by simp)

/-! ## Alternation -/

/-- A sequence of scans: each starts at the index where the last one stopped.
The test may change from one scan to the next. -/
def Scans (n : Nat) : Nat → List ((Nat → Prop) × Nat) → Prop
  | _, [] => True
  | i, (P, j) :: rest => First n P i j ∧ Scans n j rest

/-- The stops at `p` or `q` among the stops of a sequence of scans. -/
def hits (p q : Nat) (l : List ((Nat → Prop) × Nat)) : List Nat :=
  (l.map Prod.snd).filter fun j => j = p ∨ j = q

theorem hits_comm (p q : Nat) (l : List ((Nat → Prop) × Nat)) : hits p q l = hits q p l := by
  simp only [hits, or_comm]

theorem hits_cons (p q : Nat) (x : (Nat → Prop) × Nat) (l : List ((Nat → Prop) × Nat)) :
    hits p q (x :: l) = if x.2 = p ∨ x.2 = q then x.2 :: hits p q l else hits p q l := by
  simp [hits, List.filter_cons]

/-- `q` is ahead of `i` before `p` is. -/
def Before (n i q p : Nat) : Prop :=
  ∃ a b, 1 ≤ a ∧ a < b ∧ b ≤ n ∧ q = advance n i a ∧ p = advance n i b

theorem before_of_hit {n p q : Nat} (hp : p < n) (hq : q < n) (hne : p ≠ q) :
    Before n p q p := by
  obtain ⟨a, h1, h2, ha⟩ := exists_advance hp hq
  have hn : p = advance n p n := by rw [advance, Nat.add_mod_right, Nat.mod_eq_of_lt hp]
  refine ⟨a, n, h1, lt_of_le_of_ne h2 ?_, le_rfl, ha, hn⟩
  rintro rfl
  exact hne (hn.trans ha.symm)

/-- A scan that stops at neither `p` nor `q` keeps their order; one that stops at
either stops at the nearer one. -/
theorem First.step_before {n : Nat} {P : Nat → Prop} {i j p q : Nat}
    (hb : Before n i q p) (hq : P q) (h : First n P i j) : j = q ∨ (j ≠ p ∧ Before n j q p) := by
  obtain ⟨-, k, hk, hkn, rfl, hfirst⟩ := h
  obtain ⟨a, b, ha, hab, hbn, rfl, rfl⟩ := hb
  have hka : k ≤ a := by
    by_contra hlt
    exact hfirst a ha (by omega) hq
  rcases Nat.lt_or_eq_of_le hka with hlt | rfl
  · refine Or.inr ⟨fun h => ?_, a - k, b - k, by omega, by omega, by omega, ?_, ?_⟩
    · have := advance_inj hk hkn (by omega) hbn h
      omega
    · rw [advance_add, show k + (a - k) = a by omega]
    · rw [advance_add, show k + (b - k) = b by omega]
  · exact Or.inl rfl

/-- After a stop at `p`, the next stop at `p` or `q` is at `q`. -/
theorem Scans.next_of_before {n : Nat} {i p q : Nat} (hp : p < n) (hq : q < n) (hne : p ≠ q) :
    ∀ {l : List ((Nat → Prop) × Nat)}, Before n i q p → Scans n i l →
      (∀ x ∈ l, x.1 p ∧ x.1 q) →
      List.IsChain (· ≠ ·) (p :: hits p q l) := by
  intro l
  induction l generalizing i p q with
  | nil => intro _ _ _; simp [hits]
  | cons x rest ih =>
    obtain ⟨P, j⟩ := x
    intro hb hs hall
    obtain ⟨hfirst, hrest⟩ := hs
    have hPq : P q := (hall _ (List.mem_cons_self ..)).2
    have hall' : ∀ x ∈ rest, x.1 p ∧ x.1 q := fun x hx => hall x (List.mem_cons_of_mem _ hx)
    rcases hfirst.step_before hb hPq with rfl | ⟨hjp, hb'⟩
    · -- the nearer index is hit: from here the two swap their roles
      have hswap := ih hq hp hne.symm (before_of_hit hq hp hne.symm) hrest
        fun x hx => (hall' x hx).symm
      rw [hits_comm] at hswap
      rw [hits_cons, if_pos (Or.inr rfl)]
      exact List.isChain_cons_cons.mpr ⟨hne, hswap⟩
    · by_cases hjq : j = q
      · obtain ⟨a, b, ha, hab, hbn, hqa, hpb⟩ := hb'
        -- `q` ahead of itself only after a whole round, past which `p` cannot be
        have hself : q = advance n q n := by
          rw [advance, Nat.add_mod_right, Nat.mod_eq_of_lt hq]
        rw [hjq] at hqa
        have := advance_inj (n := n) (i := q) ha (by omega) (by omega) le_rfl (hqa.symm.trans hself)
        omega
      · rw [hits_cons, if_neg (by simp [hjp, hjq])]
        exact ih hp hq hne hb' hrest hall'

/-- **Alternation.** Along a sequence of scans, two distinct indices that pass
every test are hit alternately. -/
theorem Scans.alternates {n : Nat} {p q : Nat} (hp : p < n) (hq : q < n) (hne : p ≠ q) :
    ∀ {l : List ((Nat → Prop) × Nat)} {i : Nat}, Scans n i l → (∀ x ∈ l, x.1 p ∧ x.1 q) →
      List.IsChain (· ≠ ·) (hits p q l) := by
  intro l
  induction l with
  | nil => intro i _ _; simp [hits]
  | cons x rest ih =>
    obtain ⟨P, j⟩ := x
    intro i hs hall
    have hall' : ∀ x ∈ rest, x.1 p ∧ x.1 q := fun x hx => hall x (List.mem_cons_of_mem _ hx)
    by_cases hj : j = p ∨ j = q
    · rw [hits_cons, if_pos hj]
      rcases hj with rfl | rfl
      · exact Scans.next_of_before hp hq hne (before_of_hit hp hq hne) hs.2 hall'
      · rw [hits_comm]
        exact Scans.next_of_before hq hp hne.symm (before_of_hit hq hp hne.symm) hs.2
          fun x hx => (hall' x hx).symm
    · rw [hits_cons, if_neg hj]
      exact ih hs.2 hall'

end MyOs.CyclicScan
