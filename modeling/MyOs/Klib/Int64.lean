import Mathlib.Algebra.Group.Nat.Defs
import MyOs.Lib.LongDivision
import MyOs.Lib.Word

/-!
# klib — 64-bit division on a 32-bit machine

The model of `klib/src/int64.c`: division of 64-bit numbers by their 32-bit words, and the
functions that count zeros at either end of a word. What C leaves undefined (a shift by the
width of the word, a division by zero) has no result.

* `all_shr`, `all_lost` — a number shifted word by word.
* `Dividing`, `Dividing.loop` — **the loop of `__udivmoddi4`** is a long division.
-/

namespace MyOs.Klib

open MyOs.Word MyOs.LongDivision

-- ---------------------------------------------------------------------------
-- Words
-- ---------------------------------------------------------------------------

/-- `udwords`. -/
structure Udwords where
  low : Nat
  high : Nat
  deriving DecidableEq

def Udwords.all (x : Udwords) : Nat := x.high * 2 ^ 32 + x.low

def Udwords.ofAll (a : Nat) : Udwords := ⟨a % 2 ^ 32, a / 2 ^ 32⟩

/-- `x << k`. -/
def shl (x k : Nat) : Option Nat := if k < 32 then some (x <<< k % 2 ^ 32) else none

/-- `x >> k`. -/
def shr (x k : Nat) : Option Nat := if k < 32 then some (x >>> k) else none

/-- `x / y`. -/
def quot (x y : Nat) : Option Nat := if y = 0 then none else some (x / y)

/-- `x % y`. -/
def rem (x y : Nat) : Option Nat := if y = 0 then none else some (x % y)

/-- `__builtin_clz`. -/
def builtinClz (x : Nat) : Option Nat := if x = 0 then none else some (31 - x.log2)

/-- `__builtin_ctz`. -/
def builtinCtz (x : Nat) : Option Nat := (List.range 32).find? x.testBit

-- ---------------------------------------------------------------------------
-- __udivmoddi4
-- ---------------------------------------------------------------------------

/-- A special case with quotient and remainder, or `sr`, `q` and `r` in front of the loop. -/
inductive Start
  | done (q r : Nat)
  | loop (sr : Nat) (q r : Udwords)

/-- `__udivmoddi4` up to its loop. -/
def udivmoddi4Start (n d : Udwords) : Option Start :=
  if n.high = 0 then
    if d.high = 0 then do return .done (← quot n.low d.low) (← rem n.low d.low)
    else some (.done 0 n.low)
  else if d.low = 0 then
    if d.high = 0 then do return .done (← quot n.high d.low) (← rem n.high d.low)
    else if n.low = 0 then do
      return .done (← quot n.high d.high) (Udwords.all ⟨0, ← rem n.high d.high⟩)
    else if d.high &&& (d.high - 1) = 0 then do
      return .done (← shr n.high (← builtinCtz d.high))
        (Udwords.all ⟨n.low, n.high &&& (d.high - 1)⟩)
    else do
      let sr := toU32 ((← builtinClz d.high : Nat) - (← builtinClz n.high : Nat))
      if 32 - 2 < sr then some (.done 0 n.all)
      else do
        let sr := sr + 1
        return .loop sr ⟨0, ← shl n.low (32 - sr)⟩
          ⟨(← shl n.high (32 - sr)) ||| (← shr n.low sr), ← shr n.high sr⟩
  else if d.high = 0 then
    if d.low &&& (d.low - 1) = 0 then
      if d.low = 1 then some (.done n.all (n.low &&& (d.low - 1)))
      else do
        let sr ← builtinCtz d.low
        return .done
          (Udwords.all ⟨(← shl n.high (32 - sr)) ||| (← shr n.low sr), ← shr n.high sr⟩)
          (n.low &&& (d.low - 1))
    else do
      let sr := toU32 (1 + 32 + (← builtinClz d.low : Nat) - (← builtinClz n.high : Nat))
      if sr = 32 then some (.loop sr ⟨0, n.low⟩ ⟨n.high, 0⟩)
      else if sr < 32 then do
        return .loop sr ⟨0, ← shl n.low (32 - sr)⟩
          ⟨(← shl n.high (32 - sr)) ||| (← shr n.low sr), ← shr n.high sr⟩
      else do
        return .loop sr
          ⟨← shl n.low (64 - sr), (← shl n.high (64 - sr)) ||| (← shr n.low (sr - 32))⟩
          ⟨← shr n.high (sr - 32), 0⟩
  else do
    let sr := toU32 ((← builtinClz d.high : Nat) - (← builtinClz n.high : Nat))
    if 32 - 1 < sr then some (.done 0 n.all)
    else do
      let sr := sr + 1
      if sr = 32 then some (.loop sr ⟨0, n.low⟩ ⟨n.high, 0⟩)
      else
        return .loop sr ⟨0, ← shl n.low (32 - sr)⟩
          ⟨(← shl n.high (32 - sr)) ||| (← shr n.low sr), ← shr n.high sr⟩

/-- `x << 1`, with a bit from the right. -/
def shiftIn (x : Udwords) (bit : Nat) : Udwords :=
  ⟨x.low <<< 1 % 2 ^ 32 ||| bit, x.high <<< 1 % 2 ^ 32 ||| x.low >>> (32 - 1)⟩

/-- `(d - r - 1) >> 63`: all bits are the sign. -/
def signOf (d r : Nat) : Nat :=
  if (2 ^ 64 + d - r - 1) % 2 ^ 64 < 2 ^ 63 then 0 else 2 ^ 64 - 1

/-- `x - y`, in 64 bits. -/
def sub64 (x y : Nat) : Nat := (2 ^ 64 + x - y) % 2 ^ 64

/-- One round of the loop of `__udivmoddi4`: `q`, `r` and `carry` behind it. -/
def divRound (d q r : Udwords) (carry : Nat) : Udwords × Udwords × Nat :=
  let r := shiftIn r (q.high >>> (32 - 1))
  let q := shiftIn q carry
  let s := signOf d.all r.all
  (q, .ofAll (sub64 r.all (d.all &&& s)), s &&& 1)

/-- The loop of `__udivmoddi4`. -/
def divLoop (d : Udwords) : Nat → Udwords × Udwords × Nat → Udwords × Udwords × Nat
  | 0, x => x
  | sr + 1, (q, r, carry) => divLoop d sr (divRound d q r carry)

/-- `__udivmoddi4`, with what it leaves in `*rem`. -/
def udivmoddi4 (a b : Nat) : Option (Nat × Nat) :=
  match udivmoddi4Start (.ofAll a) (.ofAll b) with
  | none => none
  | some (.done q r) => some (q, r)
  | some (.loop sr q r) =>
    let (q, r, carry) := divLoop (.ofAll b) sr (q, r, 0)
    some (q.all <<< 1 % 2 ^ 64 ||| carry, r.all)

-- ---------------------------------------------------------------------------
-- Quotient and remainder
-- ---------------------------------------------------------------------------

/-- `(x ^ s) - s` with `s = x >> 63`. -/
def negateIf (s x : BitVec 64) : BitVec 64 := (x ^^^ s) - s

/-- `__udivdi3`. -/
def udivdi3 (a b : BitVec 64) : Option (BitVec 64) :=
  (udivmoddi4 a.toNat b.toNat).map fun (q, _) => .ofNat 64 q

/-- `__umoddi3`. -/
def umoddi3 (a b : BitVec 64) : Option (BitVec 64) :=
  (udivmoddi4 a.toNat b.toNat).map fun (_, r) => .ofNat 64 r

/-- `__divdi3`. -/
def divdi3 (a b : BitVec 64) : Option (BitVec 64) :=
  let sA := a.sshiftRight 63
  let sB := b.sshiftRight 63
  let a := negateIf sA a
  let b := negateIf sB b
  let sA := sA ^^^ sB
  (udivmoddi4 a.toNat b.toNat).map fun (q, _) => negateIf sA (.ofNat 64 q)

/-- `__divmoddi4`, with what it leaves in `*rem`. -/
def divmoddi4 (a b : BitVec 64) : Option (BitVec 64 × BitVec 64) :=
  (divdi3 a b).map fun d => (d, a - d * b)

/-- `__moddi3`. -/
def moddi3 (a b : BitVec 64) : Option (BitVec 64) :=
  let b := negateIf (b.sshiftRight 63) b
  let s := a.sshiftRight 63
  let a := negateIf s a
  (udivmoddi4 a.toNat b.toNat).map fun (_, r) => negateIf s (.ofNat 64 r)

-- ---------------------------------------------------------------------------
-- Shifts
-- ---------------------------------------------------------------------------

section Shifts

variable {x y a b k sr n d q r : Nat}

theorem shl_eq (hk : k < 32) : shl x k = some (x * 2 ^ k % 2 ^ 32) := by
  rw [shl, if_pos hk, Nat.shiftLeft_eq]

theorem shr_eq (hk : k < 32) : shr x k = some (x / 2 ^ k) := by
  rw [shr, if_pos hk, Nat.shiftRight_eq_div_pow]

theorem Udwords.all_ofAll (a : Nat) : (Udwords.ofAll a).all = a := by
  simp only [Udwords.ofAll, Udwords.all]
  omega

theorem Udwords.ofAll_low_lt (a : Nat) : (Udwords.ofAll a).low < 2 ^ 32 := Nat.mod_lt _ (by decide)

theorem Udwords.ofAll_high_lt (ha : a < 2 ^ 64) : (Udwords.ofAll a).high < 2 ^ 32 := by
  simp only [Udwords.ofAll]
  omega

/-- One bit goes into the lowest place. -/
theorem or_bit (hb : b < 2) : x <<< 1 % 2 ^ 32 ||| b = x * 2 % 2 ^ 32 + b := by
  have heven : x * 2 % 2 ^ 32 = 2 ^ 1 * (x % 2 ^ 31) := by omega
  rw [Nat.shiftLeft_eq, pow_one, heven]
  exact (Nat.two_pow_add_eq_or_of_lt hb _).symm

/-- The word between two words, `k` bits below the boundary. -/
theorem or_funnel (hk : k ≤ 32) (hy : y < 2 ^ 32) :
    x * 2 ^ (32 - k) % 2 ^ 32 ||| y / 2 ^ k = x % 2 ^ k * 2 ^ (32 - k) + y / 2 ^ k := by
  have hsplit : 2 ^ 32 = 2 ^ k * 2 ^ (32 - k) := by
    rw [← pow_add, Nat.add_sub_cancel' hk]
  have hlt : y / 2 ^ k < 2 ^ (32 - k) := by
    rw [Nat.div_lt_iff_lt_mul (Nat.two_pow_pos k), Nat.mul_comm, ← hsplit]
    exact hy
  rw [hsplit, Nat.mul_mod_mul_right, Nat.mul_comm]
  exact (Nat.two_pow_add_eq_or_of_lt hlt _).symm

theorem funnel_lt (hk : k ≤ 32) (hy : y < 2 ^ 32) :
    x % 2 ^ k * 2 ^ (32 - k) + y / 2 ^ k < 2 ^ 32 := by
  have hsplit : 2 ^ 32 = 2 ^ k * 2 ^ (32 - k) := by
    rw [← pow_add, Nat.add_sub_cancel' hk]
  have hlow : y / 2 ^ k < 2 ^ (32 - k) := by
    rw [Nat.div_lt_iff_lt_mul (Nat.two_pow_pos k), Nat.mul_comm, ← hsplit]
    exact hy
  have hhigh : (x % 2 ^ k + 1) * 2 ^ (32 - k) ≤ 2 ^ k * 2 ^ (32 - k) :=
    Nat.mul_le_mul_right _ (Nat.mod_lt _ (Nat.two_pow_pos k))
  rw [Nat.add_one_mul] at hhigh
  omega

/-- `x >> k`, by words. -/
theorem all_shr (x : Udwords) (hk : k ≤ 32) :
    Udwords.all ⟨x.high % 2 ^ k * 2 ^ (32 - k) + x.low / 2 ^ k, x.high / 2 ^ k⟩
      = x.all / 2 ^ k := by
  have hsplit : 2 ^ 32 = 2 ^ k * 2 ^ (32 - k) := by
    rw [← pow_add, Nat.add_sub_cancel' hk]
  have hall : x.all = 2 ^ k * (x.high * 2 ^ (32 - k)) + x.low := by
    rw [Udwords.all, hsplit]
    ring
  have hhigh := Nat.div_add_mod x.high (2 ^ k)
  rw [hall, Nat.mul_add_div (Nat.two_pow_pos k), Udwords.all]
  simp only
  rw [hsplit]
  calc x.high / 2 ^ k * (2 ^ k * 2 ^ (32 - k)) + (x.high % 2 ^ k * 2 ^ (32 - k) + x.low / 2 ^ k)
      = (2 ^ k * (x.high / 2 ^ k) + x.high % 2 ^ k) * 2 ^ (32 - k) + x.low / 2 ^ k := by ring
    _ = x.high * 2 ^ (32 - k) + x.low / 2 ^ k := by rw [hhigh]

/-- The bits that `x >> k` loses, at the top of a word. -/
theorem all_lost (x : Udwords) (hk : k ≤ 32) :
    Udwords.all ⟨0, x.low * 2 ^ (32 - k) % 2 ^ 32⟩ = x.all % 2 ^ k * 2 ^ (64 - k) := by
  have hsplit : 2 ^ 32 = 2 ^ k * 2 ^ (32 - k) := by
    rw [← pow_add, Nat.add_sub_cancel' hk]
  have hdouble : 2 ^ (64 - k) = 2 ^ (32 - k) * 2 ^ 32 := by
    rw [← pow_add]
    congr 1
    omega
  have hmod : x.all % 2 ^ k = x.low % 2 ^ k := by
    rw [Udwords.all, hsplit, ← Nat.mul_assoc, Nat.mul_comm x.high, Nat.mul_assoc,
      Nat.mul_add_mod]
  rw [hmod, hdouble, Udwords.all, Nat.add_zero]
  simp only
  rw [hsplit, Nat.mul_mod_mul_right, Nat.mul_assoc]

/-- The same by more than a word. -/
theorem all_lost_word (x : Udwords) (hx : x.low < 2 ^ 32) (hk : k ≤ 32) :
    Udwords.all ⟨x.low * 2 ^ (32 - k) % 2 ^ 32, x.high % 2 ^ k * 2 ^ (32 - k) + x.low / 2 ^ k⟩
      = x.all % 2 ^ (32 + k) * 2 ^ (64 - (32 + k)) := by
  have hsplit : 2 ^ 32 = 2 ^ k * 2 ^ (32 - k) := by
    rw [← pow_add, Nat.add_sub_cancel' hk]
  have hmod : x.all % 2 ^ (32 + k) = x.high % 2 ^ k * 2 ^ 32 + x.low := by
    have hall : x.all = x.low + 2 ^ 32 * x.high := by
      rw [Udwords.all]
      ring
    rw [pow_add, Nat.mod_mul, hall, Nat.add_mul_mod_self_left, Nat.mod_eq_of_lt hx,
      Nat.add_mul_div_left _ _ (by decide), Nat.div_eq_of_lt hx, Nat.zero_add]
    ring
  have hlow := Nat.div_add_mod x.low (2 ^ k)
  have hpow : 64 - (32 + k) = 32 - k := by omega
  rw [hmod, hpow, Udwords.all]
  simp only
  rw [hsplit, Nat.mul_mod_mul_right]
  calc (x.high % 2 ^ k * 2 ^ (32 - k) + x.low / 2 ^ k) * (2 ^ k * 2 ^ (32 - k))
        + x.low % 2 ^ k * 2 ^ (32 - k)
      = (x.high % 2 ^ k * (2 ^ k * 2 ^ (32 - k))
          + (2 ^ k * (x.low / 2 ^ k) + x.low % 2 ^ k)) * 2 ^ (32 - k) := by ring
    _ = (x.high % 2 ^ k * (2 ^ k * 2 ^ (32 - k)) + x.low) * 2 ^ (32 - k) := by rw [hlow]

end Shifts

-- ---------------------------------------------------------------------------
-- The loop
-- ---------------------------------------------------------------------------

section Loop

variable {n k q carry bit : Nat} {x d qs rs : Udwords}

theorem shiftIn_all (hlow : x.low < 2 ^ 32) (hbit : bit < 2) :
    (shiftIn x bit).all = (2 * x.all + bit) % 2 ^ 64 := by
  have hhigh : x.low >>> (32 - 1) < 2 := by
    rw [Nat.shiftRight_eq_div_pow]
    omega
  simp only [shiftIn, Udwords.all]
  rw [or_bit hbit, or_bit hhigh, Nat.shiftRight_eq_div_pow]
  omega

theorem shiftIn_low_lt (hbit : bit < 2) : (shiftIn x bit).low < 2 ^ 32 := by
  simp only [shiftIn]
  rw [or_bit hbit]
  omega

/-- In front of the loop, `k` bits are still to be taken. What has been taken gives the quotient `q`
so far, whose last bit is in `carry`; the bits to be taken stand at the top of `qs`. -/
structure Dividing (n : Nat) (d : Udwords) (k q : Nat) (qs rs : Udwords) (carry : Nat) : Prop where
  divided : Divided n d.all k q rs.all
  le : k ≤ 64
  bits : qs.all = n % 2 ^ k * 2 ^ (64 - k) + q / 2
  carry_eq : carry = q % 2
  qs_low : qs.low < 2 ^ 32
  qs_high : qs.high < 2 ^ 32
  rs_low : rs.low < 2 ^ 32
  num_lt : n < 2 ^ 64
  den_lt : d.all < 2 ^ 64
  /-- The sign of `d - r - 1` is the right one. -/
  small : d.all ≤ 2 ^ 63 ∨ k ≤ 1 ∧ 2 ^ 63 ≤ n

/-- The quotient so far leaves room for the bits still to be taken. -/
theorem Dividing.quotient_lt (h : Dividing n d k q qs rs carry) : q < 2 ^ (64 - k) := by
  have hdivided := h.divided
  have hpos : 1 ≤ d.all := by
    have hlt := hdivided.lt
    omega
  have hle : q ≤ n / 2 ^ k := by
    rw [hdivided.eq]
    exact (Nat.le_mul_of_pos_right q hpos).trans (Nat.le_add_right _ _)
  refine hle.trans_lt ?_
  rw [Nat.div_lt_iff_lt_mul (Nat.two_pow_pos k), ← pow_add, Nat.sub_add_cancel h.le]
  exact h.num_lt

/-- The next bit is the highest one of `qs`. -/
theorem Dividing.next_bit (h : Dividing n d (k + 1) q qs rs carry) :
    qs.high >>> (32 - 1) = n / 2 ^ k % 2 ∧ (2 * qs.all + carry) % 2 ^ 64
      = n % 2 ^ k * 2 ^ (64 - k) + q := by
  have hroom := h.quotient_lt
  have hle := h.le
  have hpow : 64 - k = (64 - (k + 1)) + 1 := by omega
  have hsplit : n % 2 ^ (k + 1) = n % 2 ^ k + 2 ^ k * (n / 2 ^ k % 2) := by
    rw [pow_succ, Nat.mod_mul]
  have htop : 2 ^ k * 2 ^ (64 - k) = 2 ^ 64 := by
    rw [← pow_add, Nat.add_sub_cancel' (by omega)]
  have hmod : n % 2 ^ k < 2 ^ k := Nat.mod_lt _ (Nat.two_pow_pos k)
  -- twice `qs`, with the carry
  have htwice : 2 * qs.all + carry = n / 2 ^ k % 2 * 2 ^ 64 + (n % 2 ^ k * 2 ^ (64 - k) + q) := by
    have hq : 2 * (q / 2) + carry = q := by
      rw [h.carry_eq]
      omega
    calc 2 * qs.all + carry
        = n % 2 ^ (k + 1) * (2 ^ (64 - (k + 1)) * 2) + (2 * (q / 2) + carry) := by
          rw [h.bits]
          ring
      _ = (n % 2 ^ k + 2 ^ k * (n / 2 ^ k % 2)) * 2 ^ (64 - k) + q := by
          rw [hq, hsplit, hpow, ← pow_succ]
      _ = n / 2 ^ k % 2 * (2 ^ k * 2 ^ (64 - k)) + (n % 2 ^ k * 2 ^ (64 - k) + q) := by ring
      _ = _ := by rw [htop]
  have hrest : n % 2 ^ k * 2 ^ (64 - k) + q < 2 ^ 64 := by
    have hmul : (n % 2 ^ k + 1) * 2 ^ (64 - k) ≤ 2 ^ k * 2 ^ (64 - k) := Nat.mul_le_mul_right _ hmod
    have hgrow : 2 ^ (64 - (k + 1)) ≤ 2 ^ (64 - k) := Nat.pow_le_pow_right (by omega) (by omega)
    rw [htop, Nat.add_one_mul] at hmul
    omega
  constructor
  · have hcarry : carry < 2 := by
      rw [h.carry_eq]
      exact Nat.mod_lt _ (by decide)
    have hbits := h.qs_low
    rw [Nat.shiftRight_eq_div_pow]
    rw [Udwords.all] at htwice
    omega
  · rw [htwice, Nat.mul_add_mod_of_lt hrest]

/-- The remainder with the next bit fits, and the sign of the difference to `d` is its top bit. -/
theorem Dividing.sign (h : Dividing n d (k + 1) q qs rs carry) :
    2 * rs.all + n / 2 ^ k % 2 < 2 ^ 64 ∧
    ((2 ^ 64 + d.all - (2 * rs.all + n / 2 ^ k % 2) - 1) % 2 ^ 64 < 2 ^ 63 ↔
      ¬ d.all ≤ 2 * rs.all + n / 2 ^ k % 2) := by
  have hnext := h.divided.next_lt
  have hden := h.den_lt
  have hnum := h.num_lt
  rcases Nat.lt_or_ge (2 ^ 63) d.all with hlarge | hsmall
  · -- one bit is left, and the remainder with it is the whole of `n`
    rcases h.small with hle | ⟨hk, htop⟩
    · omega
    obtain rfl : k = 0 := by omega
    have heq := h.divided.eq
    rw [zero_add, pow_one] at heq
    have hq : q = 0 := by
      by_contra hne
      have hmul : d.all ≤ q * d.all := Nat.le_mul_of_pos_left _ (by omega)
      omega
    rw [hq, Nat.zero_mul, Nat.zero_add] at heq
    rw [pow_zero, Nat.div_one]
    omega
  · omega

/-- **One round** of the loop. -/
theorem Dividing.step (h : Dividing n d (k + 1) q qs rs carry) :
    ∃ q' qs' rs' carry', Dividing n d k q' qs' rs' carry' ∧
      divRound d qs rs carry = (qs', rs', carry') := by
  obtain ⟨hbit, htwice⟩ := h.next_bit
  obtain ⟨hfits, hsign⟩ := h.sign
  have hcarry : carry < 2 := by
    rw [h.carry_eq]
    exact Nat.mod_lt _ (by decide)
  have hbit_lt : qs.high >>> (32 - 1) < 2 := by
    rw [hbit]
    exact Nat.mod_lt _ (by decide)
  have hrs : (shiftIn rs (qs.high >>> (32 - 1))).all = 2 * rs.all + n / 2 ^ k % 2 := by
    rw [shiftIn_all h.rs_low hbit_lt, hbit, Nat.mod_eq_of_lt hfits]
  have hqs : (shiftIn qs carry).all = n % 2 ^ k * 2 ^ (64 - k) + q := by
    rw [shiftIn_all h.qs_low hcarry, htwice]
  have hhigh : (shiftIn qs carry).high < 2 ^ 32 := by
    have hup : qs.low >>> (32 - 1) < 2 := by
      have hlow := h.qs_low
      rw [Nat.shiftRight_eq_div_pow]
      omega
    simp only [shiftIn]
    rw [or_bit hup]
    omega
  have hle := h.le
  have hsmall : d.all ≤ 2 ^ 63 ∨ k ≤ 1 ∧ 2 ^ 63 ≤ n := by
    rcases h.small with hle | ⟨hk, htop⟩
    · exact .inl hle
    · exact .inr ⟨by omega, htop⟩
  have hstep := h.divided.step
  unfold divRound
  simp only [hrs]
  by_cases hge : d.all ≤ 2 * rs.all + n / 2 ^ k % 2
  · rw [if_pos hge] at hstep
    rw [signOf, if_neg fun hcon => hsign.1 hcon hge]
    have hden : d.all &&& (2 ^ 64 - 1) = d.all := by
      rw [Nat.and_two_pow_sub_one_eq_mod, Nat.mod_eq_of_lt h.den_lt]
    have hsub : sub64 (2 * rs.all + n / 2 ^ k % 2) d.all
        = 2 * rs.all + n / 2 ^ k % 2 - d.all := by
      rw [sub64]
      omega
    rw [hden, hsub]
    refine ⟨2 * q + 1, _, _, _, ⟨?_, by omega, ?_, ?_, shiftIn_low_lt hcarry, hhigh,
      Udwords.ofAll_low_lt _, h.num_lt, h.den_lt, hsmall⟩, rfl⟩
    · rw [Udwords.all_ofAll]
      exact hstep
    · rw [hqs]
      omega
    · have hone : (2 ^ 64 - 1) &&& 1 = 1 := by decide
      rw [hone]
      omega
  · rw [if_neg hge] at hstep
    rw [signOf, if_pos (hsign.2 hge), Nat.and_zero, Nat.zero_and]
    have hsub : sub64 (2 * rs.all + n / 2 ^ k % 2) 0 = 2 * rs.all + n / 2 ^ k % 2 := by
      rw [sub64]
      omega
    rw [hsub]
    refine ⟨2 * q, _, _, _, ⟨?_, by omega, ?_, ?_, shiftIn_low_lt hcarry, hhigh,
      Udwords.ofAll_low_lt _, h.num_lt, h.den_lt, hsmall⟩, rfl⟩
    · rw [Udwords.all_ofAll]
      exact hstep
    · rw [hqs]
      omega
    · omega

/-- **The loop** comes to quotient and remainder. -/
theorem Dividing.loop (h : Dividing n d k q qs rs carry) :
    ∃ qs' rs' carry', divLoop d k (qs, rs, carry) = (qs', rs', carry') ∧
      qs'.all <<< 1 % 2 ^ 64 ||| carry' = n / d.all ∧ rs'.all = n % d.all := by
  induction k generalizing q qs rs carry with
  | zero =>
    have hroom := h.quotient_lt
    have hbits := h.bits
    rw [pow_zero, Nat.mod_one, Nat.zero_mul, Nat.zero_add] at hbits
    refine ⟨qs, rs, carry, rfl, ?_, h.divided.remainder_eq.symm⟩
    have heven : qs.all <<< 1 % 2 ^ 64 = 2 ^ 1 * (q / 2) := by
      rw [Nat.shiftLeft_eq, hbits]
      omega
    have hcarry : carry < 2 ^ 1 := by
      rw [h.carry_eq]
      exact Nat.mod_lt _ (by decide)
    rw [heven, ← Nat.two_pow_add_eq_or_of_lt hcarry, h.carry_eq, h.divided.quotient_eq]
    omega
  | succ k ih =>
    obtain ⟨q', qs', rs', carry', hnext, hrun⟩ := h.step
    rw [divLoop, hrun]
    exact ih hnext

end Loop

end MyOs.Klib
