import Mathlib.Order.Bounds.Basic
import MyOs.Pmm.Definitions
import MyOs.Lib.Bits
import MyOs.Lib.Fallible

/-!
# Sizes and rounding

The bit arithmetic of `pmm.c` in arithmetic terms: `ROUNDDOWN` and `ROUNDUP` at a
power of two, `nextPower_2`, and what `kalloc` makes of a requested size. A size
class `k` has slots of `slotSz k` bytes.

* `kallocSize_spec` — `kalloc` works with a power of two that covers the request.
* `getSlabIndex_slotSz` — the class of a slot size.
-/

namespace MyOs.Pmm

open MyOs.Bits

/-! ## Running fallible code -/

theorem check_pos {p : Prop} [Decidable p] (h : p) : check p = .ok () := if_pos h

theorem check_neg {p : Prop} [Decidable p] (h : ¬ p) : check p = .error .assertion := if_neg h

theorem check_eq_ok {p : Prop} [Decidable p] {u : Unit} : check p = .ok u ↔ p := by
  unfold check
  split
  · exact ⟨fun _ => ‹p›, fun _ => rfl⟩
  · exact ⟨nofun, fun h => absurd h ‹¬ p›⟩

theorem deref_ok {p : Nat} (h : p ≠ 0) : deref p = .ok () := if_neg h

/-! ## Rounding -/

theorem gpageSz_eq : gpageSz = 2 ^ 16 := by decide

theorem roundDown_two_pow {a k : Nat} (ha : a < 2 ^ 64) (hk : k ≤ 64) :
    roundDown a (2 ^ k) = a / 2 ^ k * 2 ^ k :=
  and_mask ha hk

theorem roundDown_eq_self {a k : Nat} (ha : a < 2 ^ 64) (hk : k ≤ 64) (h : 2 ^ k ∣ a) :
    roundDown a (2 ^ k) = a := by
  rw [roundDown_two_pow ha hk, Nat.div_mul_cancel h]

/-- What `ROUNDDOWN` leaves alone is a multiple. -/
theorem dvd_of_roundDown {a k : Nat} (hk : k ≤ 64) (h : roundDown a (2 ^ k) = a) : 2 ^ k ∣ a := by
  have hpos : 0 < 2 ^ k := Nat.two_pow_pos k
  have hlt : a < 2 ^ 64 := by
    have hle : roundDown a (2 ^ k) ≤ 2 ^ 64 - 2 ^ k := Nat.and_le_right
    omega
  rw [← h, roundDown_two_pow hlt hk]
  exact Nat.dvd_mul_left _ _

/-- Rounding an address of a page down gives the page. -/
theorem roundDown_page {a b : Nat} (hb : gpageSz ∣ b) (hle : b ≤ a) (hlt : a < b + gpageSz)
    (ha : a < 2 ^ 64) : roundDown a gpageSz = b := by
  rw [gpageSz_eq] at *
  rw [roundDown_two_pow ha (by omega)]
  obtain ⟨q, rfl⟩ := hb
  omega

/-- `ROUNDUP` gives the first multiple of a power of two that is not below `a`. -/
theorem roundUp_two_pow {a k : Nat} (ha : a + 2 ^ k ≤ 2 ^ 64) (hk : k ≤ 64) :
    2 ^ k ∣ roundUp a (2 ^ k) ∧ a ≤ roundUp a (2 ^ k) ∧ roundUp a (2 ^ k) < a + 2 ^ k := by
  have hpos : 0 < 2 ^ k := Nat.two_pow_pos k
  have hlt : a + 2 ^ k - 1 < 2 ^ 64 := by omega
  have heq : roundUp a (2 ^ k) = (a + 2 ^ k - 1) / 2 ^ k * 2 ^ k := by
    unfold roundUp
    rw [Nat.mod_eq_of_lt hlt]
    exact and_mask hlt hk
  rw [heq]
  refine ⟨Nat.dvd_mul_left _ _, ?_, ?_⟩
  · have := Nat.lt_div_mul_add (a := a + 2 ^ k - 1) hpos
    omega
  · have := Nat.div_mul_le_self (a + 2 ^ k - 1) (2 ^ k)
    omega

theorem roundUp_eq_self {a k : Nat} (ha : a + 2 ^ k ≤ 2 ^ 64) (hk : k ≤ 64) (h : 2 ^ k ∣ a) :
    roundUp a (2 ^ k) = a := by
  obtain ⟨hdvd, hle, hlt⟩ := roundUp_two_pow ha hk
  obtain ⟨x, hx⟩ := hdvd
  obtain ⟨y, rfl⟩ := h
  rw [hx] at hle hlt ⊢
  have hpos : 0 < 2 ^ k := Nat.two_pow_pos k
  have hyx : y ≤ x := Nat.le_of_mul_le_mul_left hle hpos
  have hxy : x < y + 1 := Nat.lt_of_mul_lt_mul_left (a := 2 ^ k) (by rw [Nat.mul_add]; omega)
  rw [show x = y by omega]

/-! ## The next power of two -/

/-- `nextPower_2` up to `2 ^ 31`: the least power of two that is not below `x`. -/
theorem nextPower2_eq {x : Nat} (hpos : 0 < x) (hx : x ≤ 2 ^ 31) :
    nextPower2 x = 2 ^ (x - 1).size := by
  have hsub : (x + (2 ^ 64 - 1)) % 2 ^ 64 = x - 1 := by omega
  -- after the five rounds every bit below the highest one is set
  have hwin := ((((Window.one (x - 1)).smear (s := 1) (by omega)).smear (s := 2) (by omega)).smear
    (s := 4) (by omega)).smear (s := 8) (by omega) |>.smear (s := 16) (by omega)
  have hfull := hwin.eq_two_pow_sub_one (by omega)
  have hsize : (x - 1).size ≤ 31 := Nat.size_le.2 (by omega)
  have hle : 2 ^ (x - 1).size ≤ 2 ^ 31 := Nat.pow_le_pow_right (by omega) hsize
  have hone : 0 < 2 ^ (x - 1).size := Nat.two_pow_pos _
  unfold nextPower2
  simp only [hsub]
  rw [hfull]
  omega

theorem nextPower2_zero : nextPower2 0 = 0 := by decide

/-- Powers of two are left alone. -/
theorem nextPower2_two_pow {j : Nat} (hj : j ≤ 31) : nextPower2 (2 ^ j) = 2 ^ j := by
  rw [nextPower2_eq (Nat.two_pow_pos j) (Nat.pow_le_pow_right (by omega) hj),
    size_two_pow_sub_one]

/-- **The size `kalloc` works with** is a power of two that covers the request. -/
theorem kallocSize_spec {size : Nat} (h : size ≤ maxAlloc) :
    ∃ j, 4 ≤ j ∧ j ≤ 24 ∧ kallocSize size = 2 ^ j ∧ size ≤ 2 ^ j := by
  have hmax : maxAlloc = 2 ^ 24 := by decide
  unfold kallocSize
  by_cases hsmall : nextPower2 size < 16
  · refine ⟨4, le_refl 4, by omega, if_pos hsmall, ?_⟩
    by_contra hcon
    rw [nextPower2_eq (by omega) (by omega)] at hsmall
    have : size - 1 < 2 ^ (size - 1).size := Nat.lt_size_self _
    omega
  · have hpos : 0 < size := by
      rcases Nat.eq_zero_or_pos size with rfl | hpos
      · rw [nextPower2_zero] at hsmall
        omega
      · exact hpos
    rw [nextPower2_eq hpos (by omega)] at hsmall ⊢
    refine ⟨(size - 1).size, ?_, Nat.size_le.2 (by omega), if_neg hsmall, ?_⟩
    · by_contra hcon
      have : 2 ^ (size - 1).size ≤ 2 ^ 3 := Nat.pow_le_pow_right (by omega) (by omega)
      omega
    · have : size - 1 < 2 ^ (size - 1).size := Nat.lt_size_self _
      omega

/-- **No smaller power of two covers the request** and 16 bytes. -/
theorem kallocSize_isLeast {size : Nat} (h : size ≤ maxAlloc) :
    IsLeast {n | (∃ j, n = 2 ^ j) ∧ max size 16 ≤ n} (kallocSize size) := by
  have hmax : maxAlloc = 2 ^ 24 := by decide
  obtain ⟨j, hj, -, hsz, hle⟩ := kallocSize_spec h
  have h16 : 2 ^ 4 ≤ 2 ^ j := Nat.pow_le_pow_right (by omega) hj
  refine ⟨⟨⟨j, hsz⟩, by rw [hsz]; omega⟩, ?_⟩
  rintro n ⟨⟨i, rfl⟩, hn⟩
  unfold kallocSize
  dsimp only
  split
  · omega
  · rcases Nat.eq_zero_or_pos size with rfl | hpos
    · rw [nextPower2_zero]
      omega
    · rw [nextPower2_eq hpos (by omega)]
      exact Nat.pow_le_pow_right (by omega) (Nat.size_le.2 (by omega))

/-- The pages of a request of `2 ^ j` bytes above 4096. -/
theorem kallocPages_two_pow {j : Nat} (h : 12 < j) (hj : j ≤ 24) :
    ∃ e, e ≤ 8 ∧ kallocPages (2 ^ j) = 2 ^ e := by
  unfold kallocPages
  by_cases hpage : j < 16
  · have hlt : 2 ^ j < 2 ^ 16 := Nat.pow_lt_pow_right (by omega) hpage
    refine ⟨0, by omega, ?_⟩
    rw [gpageSz_eq, Nat.div_eq_of_lt hlt]
    rfl
  · refine ⟨j - 16, by omega, ?_⟩
    rw [gpageSz_eq, Nat.pow_div (by omega) (by omega)]
    exact if_neg (Nat.two_pow_pos _).ne'

theorem kallocPages_pos (size : Nat) : 0 < kallocPages size := by
  unfold kallocPages
  dsimp only
  split
  · exact Nat.one_pos
  · exact Nat.pos_of_ne_zero ‹_›

/-! ## Size classes -/

/-- The slot size of class `k`. -/
def slotSz (k : Nat) : Nat := 2 ^ (k + 4)

theorem one_shiftLeft_eq_slotSz (k : Nat) : 1 <<< (k + 4) = slotSz k := Nat.one_shiftLeft _

theorem slotSz_pos (k : Nat) : 0 < slotSz k := Nat.two_pow_pos _

theorem nodeBytes_le_slotSz (k : Nat) : 16 ≤ slotSz k :=
  Nat.pow_le_pow_right (n := 2) (by omega) (show 4 ≤ k + 4 by omega)

theorem slotSz_le {k : Nat} (hk : k < slabSize) : slotSz k ≤ 4096 :=
  Nat.pow_le_pow_right (n := 2) (by omega) (show k + 4 ≤ 12 by unfold slabSize at hk; omega)

theorem slotSz_dvd_gpageSz {k : Nat} (hk : k < slabSize) : slotSz k ∣ gpageSz := by
  rw [gpageSz_eq]
  exact Nat.pow_dvd_pow 2 (show k + 4 ≤ 16 by unfold slabSize at hk; omega)

/-- A power of two between 16 and 4096 is a slot size. -/
theorem exists_slotSz {j : Nat} (hj : 4 ≤ j) (h : 2 ^ j ≤ 4096) :
    ∃ k, k < slabSize ∧ 2 ^ j = slotSz k := by
  have hle : j ≤ 12 := by
    by_contra hcon
    have : 2 ^ 13 ≤ 2 ^ j := Nat.pow_le_pow_right (by omega) (by omega)
    omega
  exact ⟨j - 4, by unfold slabSize; omega, by rw [slotSz, Nat.sub_add_cancel hj]⟩

theorem nextPower2_slotSz {k : Nat} (hk : k < slabSize) : nextPower2 (slotSz k) = slotSz k :=
  nextPower2_two_pow (by unfold slabSize at hk; omega)

theorem slabIndexLoop_slotSz : ∀ k fuel index : Nat, k < fuel →
    slabIndexLoop fuel (slotSz k) index = .ok (index + k)
  | _, 0, _, h => by omega
  | 0, fuel + 1, index, _ => rfl
  | k + 1, fuel + 1, index, h => by
    have hbig : slotSz (k + 1) > 16 := by
      have := nodeBytes_le_slotSz k
      rw [slotSz, show k + 1 + 4 = k + 4 + 1 by omega, pow_succ]
      unfold slotSz at this
      omega
    have hhalf : slotSz (k + 1) >>> 1 = slotSz k := by
      rw [slotSz, show k + 1 + 4 = k + 4 + 1 by omega, pow_succ, Nat.shiftRight_eq_div_pow]
      exact Nat.mul_div_cancel _ (by omega)
    rw [slabIndexLoop, if_pos hbig, hhalf, slabIndexLoop_slotSz k fuel (index + 1) (by omega),
      Nat.add_right_comm, Nat.add_assoc]

/-- **The class of a slot size.** -/
theorem getSlabIndex_slotSz {k : Nat} (hk : k < slabSize) : getSlabIndex (slotSz k) = .ok k := by
  unfold getSlabIndex
  rw [check_pos (nextPower2_slotSz hk).symm, ok_bind,
    slabIndexLoop_slotSz k 64 0 (by unfold slabSize at hk; omega), ok_bind, Nat.zero_add,
    check_pos hk]
  rfl

end MyOs.Pmm
