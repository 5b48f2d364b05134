import Mathlib.Data.List.Induction
import Mathlib.Tactic.Common

/-!
# Copying between flat arrays

An array is a function from positions to elements, and `copy` is what `memcpy`
does: `n` elements of one array replace those of another. A range that is copied
piece by piece is copied as a whole (`copy_append`), and after any number of copies a
position holds what the latest copy that covers it has put there (`copyAll_eq`).
-/

namespace MyOs.Extent

variable {α : Type*} {dst dst' src src' : Nat → α} {d s m n a : Nat}

-- ---------------------------------------------------------------------------
-- Copies
-- ---------------------------------------------------------------------------

/-- `dst` with the `n` elements of `src` from `s` on copied to `d`. -/
def copy (dst : Nat → α) (d : Nat) (src : Nat → α) (s n : Nat) : Nat → α := fun a =>
  if d ≤ a ∧ a < d + n then src (s + (a - d)) else dst a

theorem copy_inside (hlo : d ≤ a) (hhi : a < d + n) : copy dst d src s n a = src (s + (a - d)) :=
  if_pos ⟨hlo, hhi⟩

/-- Everything else is unchanged. -/
theorem copy_outside (h : a < d ∨ d + n ≤ a) : copy dst d src s n a = dst a :=
  if_neg (by omega)

@[simp] theorem copy_zero : copy dst d src s 0 = dst := by
  funext a
  exact copy_outside (by omega)

/-- Only the elements that are copied matter. -/
theorem copy_congr {k : Nat} (h : ∀ i < n, src (s + i) = src' (k + i)) :
    copy dst d src s n = copy dst d src' k n := by
  funext a
  by_cases hin : d ≤ a ∧ a < d + n
  · rw [copy_inside hin.1 hin.2, copy_inside hin.1 hin.2]
    exact h (a - d) (by omega)
  · rw [copy_outside (by omega), copy_outside (by omega)]

/-- **Two adjacent pieces** make one copy. -/
theorem copy_append :
    copy (copy dst d src s m) (d + m) src (s + m) n = copy dst d src s (m + n) := by
  funext a
  by_cases hin : d ≤ a ∧ a < d + (m + n)
  · rw [copy_inside hin.1 hin.2]
    by_cases hm : a < d + m
    · rw [copy_outside (.inl hm), copy_inside hin.1 hm]
    · rw [copy_inside (by omega) (by omega)]
      congr 1
      omega
  · rw [copy_outside (by omega), copy_outside (by omega), copy_outside (by omega)]

-- ---------------------------------------------------------------------------
-- Sequences of copies
-- ---------------------------------------------------------------------------

/-- `n` elements of `src` that are to replace those from `d` on. -/
structure Patch (α : Type*) where
  d : Nat
  n : Nat
  src : Nat → α

def Patch.Covers (p : Patch α) (a : Nat) : Prop := p.d ≤ a ∧ a < p.d + p.n

instance (p : Patch α) (a : Nat) : Decidable (p.Covers a) :=
  inferInstanceAs (Decidable (_ ∧ _))

def Patch.apply (p : Patch α) (dst : Nat → α) : Nat → α := copy dst p.d p.src 0 p.n

/-- Apply the patches one after the other. -/
def copyAll (dst : Nat → α) (l : List (Patch α)) : Nat → α :=
  l.foldl (fun dst p => p.apply dst) dst

/-- The last patch that covers a position. -/
def latest (l : List (Patch α)) (a : Nat) : Option (Patch α) :=
  l.reverse.find? fun p => decide (p.Covers a)

/-- **A position holds what the latest patch that covers it has put there.** -/
theorem copyAll_eq (dst : Nat → α) (l : List (Patch α)) (a : Nat) :
    copyAll dst l a = (latest l a).elim (dst a) fun p => p.src (a - p.d) := by
  induction l using List.reverseRecOn with
  | nil => rfl
  | append_singleton l p ih =>
    have hlast : copyAll dst (l ++ [p]) = p.apply (copyAll dst l) := by
      rw [copyAll, List.foldl_append]
      rfl
    rw [hlast, latest, List.reverse_append, List.reverse_singleton, List.singleton_append,
      List.find?_cons]
    by_cases hp : p.Covers a
    · rw [decide_eq_true hp]
      show copy _ p.d p.src 0 p.n a = _
      rw [copy_inside hp.1 hp.2, Nat.zero_add]
      rfl
    · rw [decide_eq_false hp]
      show copy _ p.d p.src 0 p.n a = _
      rw [copy_outside (by unfold Patch.Covers at hp; omega), ih]
      rfl

end MyOs.Extent
