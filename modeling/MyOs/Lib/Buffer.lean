import Mathlib.Logic.Function.Basic
import Mathlib.Data.List.Basic

/-!
# Writing into memory

A text written into memory, one cell after the other.

* `write_append` — one text behind the other.
* `write_getElem`, `write_of_lt`, `write_of_le` — what is found in memory then.
-/

namespace MyOs.Buffer

variable {α : Type*} {m : Nat → α} {a : Nat} {s t : List α}

/-- The text is written to the cells from `a` on. -/
def write (m : Nat → α) (a : Nat) : List α → Nat → α
  | [] => m
  | c :: s => write (Function.update m a c) (a + 1) s

theorem write_append : write m a (s ++ t) = write (write m a s) (a + s.length) t := by
  induction s generalizing m a with
  | nil => rfl
  | cons c s ih =>
    rw [List.cons_append, write, ih, write, List.length_cons, Nat.add_assoc, Nat.add_comm 1]

theorem write_of_lt {x : Nat} (h : x < a) : write m a s x = m x := by
  induction s generalizing m a with
  | nil => rfl
  | cons c s ih => rw [write, ih (by omega), Function.update_of_ne (by omega)]

theorem write_of_le {x : Nat} (h : a + s.length ≤ x) : write m a s x = m x := by
  induction s generalizing m a with
  | nil => rfl
  | cons c s ih =>
    rw [List.length_cons] at h
    rw [write, ih (by omega), Function.update_of_ne (by omega)]

theorem write_getElem {i : Nat} (h : i < s.length) : write m a s (a + i) = s[i] := by
  induction s generalizing m a i with
  | nil => exact absurd h (Nat.not_lt_zero i)
  | cons c s ih =>
    cases i with
    | zero => rw [write, write_of_lt (by omega), Nat.add_zero, Function.update_self,
        List.getElem_cons_zero]
    | succ i =>
      rw [List.length_cons] at h
      rw [write, List.getElem_cons_succ, show a + (i + 1) = a + 1 + i by omega, ih (by omega)]

/-- The text is found again. -/
theorem map_write (m : Nat → α) (s : List α) : (List.range s.length).map (write m 0 s) = s := by
  refine List.ext_getElem (by simp) fun i hi hi' => ?_
  rw [List.getElem_map, List.getElem_range, ← write_getElem (m := m) (a := 0) hi', Nat.zero_add]

end MyOs.Buffer
