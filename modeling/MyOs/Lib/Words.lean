import MyOs.Lib.Buffer
import MyOs.Lib.Memory
import Mathlib.Algebra.Group.Nat.Defs

/-!
# Words of a block of memory

The words from an address on, as a function of their index. A store in place changes the word
at one index and nothing else, so a record or a stack in byte memory is an array, and what was
stored in it is found by comparing indices.

* `words_store` — a store in place is an update of one word.
* `words_same` — a word depends on its own bytes only.
* `words_copyDown` — words that are copied upwards, the last one first, arrive as they were.
-/

namespace MyOs.Words

open MyOs.Memory MyOs.Buffer

/-- A machine word of `w` bytes. -/
abbrev Word (w : Nat) := BitVec (8 * w)

variable {w a i j k n : Nat} {m m' : Mem}

/-- The words at `a`, by index. -/
def words (w : Nat) (m : Mem) (a i : Nat) : Word w := BitVec.ofNat _ (load m (a + w * i) w)

theorem toNat_lt (v : Word w) : v.toNat < 256 ^ w := by
  have hlt := v.isLt
  rwa [Nat.pow_mul] at hlt

/-- What is stored is found. -/
theorem ofNat_load_store (v : Word w) :
    BitVec.ofNat (8 * w) (load (store m a w v.toNat) a w) = v := by
  rw [load_store (toNat_lt v), BitVec.ofNat_toNat, BitVec.setWidth_eq]

/-- Words at different indices do not overlap. -/
theorem mul_add_le_mul (h : i < j) : w * i + w ≤ w * j := by
  rw [← Nat.mul_succ]
  exact Nat.mul_le_mul_left w h

/-- **A store in place** changes one word. -/
theorem words_store (v : Word w) :
    words w (store m (a + w * j) w v.toNat) a = Function.update (words w m a) j v := by
  funext i
  by_cases h : i = j
  · subst h
    rw [Function.update_self]
    exact ofNat_load_store v
  · rw [Function.update_of_ne h, words, load_store_of_disjoint]
    · rfl
    · rcases Nat.lt_or_gt_of_ne h with hlt | hlt
      · have hle := mul_add_le_mul (w := w) hlt
        exact .inr (by omega)
      · have hle := mul_add_le_mul (w := w) hlt
        exact .inl (by omega)

/-- A word depends on its own bytes only. -/
theorem words_same (h : Same m m' a (a + w * n)) (hi : i < n) : words w m' a i = words w m a i := by
  have hle := mul_add_le_mul (w := w) hi
  have hsame : Same m m' (a + w * i) (a + w * i + w) := h.sub (by omega) (by omega)
  rw [words, hsame.load]
  rfl

/-- The words from an index on. -/
theorem words_add : words w m (a + w * k) i = words w m a (k + i) := by
  rw [words, words, Nat.mul_add, Nat.add_assoc]

-- ---------------------------------------------------------------------------
-- Copying
-- ---------------------------------------------------------------------------

/-- The first `n` words at `a` are copied to `b`, the last one first. -/
def copyDown (w a b : Nat) : Nat → Mem → Mem
  | 0, m => m
  | n + 1, m => copyDown w a b n (store m (b + w * n) w (words w m a n).toNat)

theorem copyDown_onlyIn (a b n : Nat) (m : Mem) :
    OnlyIn m (copyDown w a b n m) b (b + w * n) := by
  induction n generalizing m with
  | zero => exact OnlyIn.refl m _ _
  | succ n ih =>
    rw [Nat.mul_succ, ← Nat.add_assoc]
    refine OnlyIn.trans ?_ ((ih _).mono (Nat.le_refl _) (Nat.le_add_right _ _))
    exact onlyIn_store.mono (by omega) (Nat.le_refl _)

/-- **Copying upwards** from the last word down does not overwrite what is still to be read. -/
theorem words_copyDown {b : Nat} (h : a ≤ b ∨ b + w * n ≤ a) (hi : i < n) :
    words w (copyDown w a b n m) b i = words w m a i := by
  induction n generalizing m i with
  | zero => exact absurd hi (Nat.not_lt_zero i)
  | succ n ih =>
    rw [Nat.mul_succ] at h
    rcases Nat.lt_succ_iff_lt_or_eq.1 hi with hlt | rfl
    · have hle := mul_add_le_mul (w := w) hlt
      rw [copyDown, ih (by omega) hlt, words, load_store_of_disjoint (by omega)]
      rfl
    · rw [copyDown, words, ((copyDown_onlyIn a b i _).same (.inr (Nat.le_refl _))).load]
      exact ofNat_load_store _

end MyOs.Words
