import Mathlib.Data.List.Basic
import Mathlib.Data.Nat.ModEq
import Mathlib.Logic.Function.Basic
import Mathlib.Tactic.Common

/-!
# Ring buffers

`window N buf i k` are the `k` elements of a ring of `N` slots from slot `i` on.
A push writes behind the window (`window_push`), a pop moves its front
(`window_pop`), and writes elsewhere leave it alone (`window_update`).
-/

namespace MyOs.Ring

variable {α : Type*} {N i j k m : Nat} {buf : Nat → α} {a : α}

/-- The slot `k` places behind slot `i`. -/
def slot (N i k : Nat) : Nat := (i + k) % N

/-- The `k` elements from slot `i` on. -/
def window (N : Nat) (buf : Nat → α) (i k : Nat) : List α :=
  (List.range k).map fun m => buf (slot N i m)

-- ---------------------------------------------------------------------------
-- Slots
-- ---------------------------------------------------------------------------

theorem slot_lt (hN : 0 < N) : slot N i k < N := Nat.mod_lt _ hN

theorem slot_zero (hi : i < N) : slot N i 0 = i := Nat.mod_eq_of_lt hi

/-- One slot further, by the test of a wrap. -/
theorem slot_one (hi : i < N) : slot N i 1 = if i + 1 = N then 0 else i + 1 := by
  unfold slot
  split
  · rename_i h
    rw [h, Nat.mod_self]
  · exact Nat.mod_eq_of_lt (by omega)

@[simp] theorem slot_slot : slot N (slot N i k) m = slot N i (k + m) := by
  unfold slot
  rw [Nat.mod_add_mod, Nat.add_assoc]

/-- Less than one round apart, slots are different. -/
theorem slot_inj (hk : k < N) (hm : m < N) (h : slot N i k = slot N i m) : k = m := by
  have hmod : k % N = m % N := Nat.ModEq.add_left_cancel' i h
  rwa [Nat.mod_eq_of_lt hk, Nat.mod_eq_of_lt hm] at hmod

/-- The distance between two slots of a window. -/
theorem slot_dist (hi : i < N) (hk : k < N) : (slot N i k + N - i) % N = k := by
  unfold slot
  by_cases h : i + k < N
  · rw [Nat.mod_eq_of_lt h, show i + k + N - i = k + N by omega, Nat.add_mod_right,
      Nat.mod_eq_of_lt hk]
  · have hwrap : (i + k) % N = i + k - N := by
      rw [Nat.mod_eq_sub_mod (by omega), Nat.mod_eq_of_lt (by omega)]
    rw [hwrap, show i + k - N + N - i = k by omega, Nat.mod_eq_of_lt hk]

-- ---------------------------------------------------------------------------
-- Windows
-- ---------------------------------------------------------------------------

@[simp] theorem length_window : (window N buf i k).length = k := by simp [window]

/-- The last element of a window. -/
theorem window_succ : window N buf i (k + 1) = window N buf i k ++ [buf (slot N i k)] := by
  simp [window, List.range_succ]

/-- The first element of a window. -/
theorem window_pop (hi : i < N) :
    window N buf i (k + 1) = buf i :: window N buf (slot N i 1) k := by
  simp only [window, List.range_succ_eq_map, List.map_cons, List.map_map, slot_zero hi]
  congr 1
  apply List.map_congr_left
  intro m _
  simp [Function.comp_apply, Nat.add_comm]

theorem window_add :
    window N buf i (k + m) = window N buf i k ++ window N buf (slot N i k) m := by
  simp [window, List.range_add, Function.comp_def]

/-- The window depends on its slots only. -/
theorem window_congr {buf' : Nat → α} (h : ∀ m, m < k → buf' (slot N i m) = buf (slot N i m)) :
    window N buf' i k = window N buf i k :=
  List.map_congr_left fun m hm => h m (List.mem_range.1 hm)

/-- A write outside of the window. -/
theorem window_update (h : ∀ m, m < k → slot N i m ≠ j) :
    window N (Function.update buf j a) i k = window N buf i k :=
  window_congr fun m hm => Function.update_of_ne (h m hm) a buf

/-- **A push**: the element is written behind the window. -/
theorem window_push (hk : k < N) :
    window N (Function.update buf (slot N i k) a) i (k + 1) = window N buf i k ++ [a] := by
  rw [window_succ, Function.update_self, window_update]
  exact fun m hm h => absurd (slot_inj (by omega) hk h) (by omega)

end MyOs.Ring
