import MyOs.Klib.Int64

/-!
# klib — 64-bit division is division

What stands in front of the loop of `__udivmoddi4`, and the functions that call it.

* `starts_long`, `starts_short` — the numerator is moved so far that less than the denominator is
  left.
* `udivdi3_umoddi3_eq` — **unsigned division** with remainder.
* `divdi3_moddi3_eq` — **signed division** with remainder, truncated.
-/

namespace MyOs.Klib

open MyOs.Word MyOs.LongDivision

-- ---------------------------------------------------------------------------
-- In front of the loop
-- ---------------------------------------------------------------------------

section Starting

variable {a b k x y : Nat}

theorem log2_lt_32 (hx : x ≠ 0) (h : x < 2 ^ 32) : x.log2 < 32 := (Nat.log2_lt hx).2 h

/-- The difference of two counts of zeros. It has wrapped around when the first number is longer. -/
theorem toU32_clz_sub (hx : x.log2 < 32) (hy : y.log2 < 32) :
    toU32 ((31 - x.log2 : Nat) - (31 - y.log2 : Nat))
      = if x.log2 ≤ y.log2 then y.log2 - x.log2 else 2 ^ 32 + y.log2 - x.log2 := by
  rw [toU32]
  split
  · omega
  · omega

theorem builtinClz_eq (hx : x ≠ 0) : builtinClz x = some (31 - x.log2) := if_neg hx

theorem builtinCtz_two_pow (hk : k < 32) : builtinCtz (2 ^ k) = some k := by
  rw [builtinCtz, List.find?_range_eq_some]
  refine ⟨Nat.testBit_two_pow_self, List.mem_range.2 hk, fun j hj => ?_⟩
  rw [Nat.testBit_two_pow_of_ne (by omega)]
  rfl

/-- A shorter number is less. -/
theorem lt_of_log2_lt (hx : x ≠ 0) (hy : y ≠ 0) (h : y.log2 < x.log2) : y < x :=
  ((Nat.log2_lt hy).1 h).trans_le (Nat.log2_self_le hx)

theorem exists_eq_two_pow (hx : x ≠ 0) (hlt : x < 2 ^ 32) (h : x &&& (x - 1) = 0) :
    ∃ k < 32, x = 2 ^ k := by
  obtain ⟨k, rfl⟩ := (Nat.and_sub_one_eq_zero_iff_isPowerOfTwo hx).1 h
  exact ⟨k, (Nat.pow_lt_pow_iff_right (by decide)).1 hlt, rfl⟩

/-- A number that is no power of two has more than one bit. -/
theorem log2_pos_of_and_ne_zero (hx : x ≠ 0) (h : x &&& (x - 1) ≠ 0) : 0 < x.log2 := by
  rw [Nat.pos_iff_ne_zero]
  intro hzero
  have hlt := (Nat.log2_lt (k := 1) hx).1 (by omega)
  obtain rfl : x = 1 := by omega
  exact h rfl

/-- `q` and `r` in front of the loop. -/
theorem dividing_start (ha : a < 2 ^ 64) (hb : b < 2 ^ 64) (hk : k ≤ 32) (hlt : a / 2 ^ k < b)
    (hsmall : b ≤ 2 ^ 63 ∨ k ≤ 1 ∧ 2 ^ 63 ≤ a) :
    Dividing a (.ofAll b) k 0 ⟨0, (Udwords.ofAll a).low * 2 ^ (32 - k) % 2 ^ 32⟩
      ⟨(Udwords.ofAll a).high % 2 ^ k * 2 ^ (32 - k) + (Udwords.ofAll a).low / 2 ^ k,
        (Udwords.ofAll a).high / 2 ^ k⟩ 0 := by
  have hrs := all_shr (.ofAll a) hk
  have hqs := all_lost (.ofAll a) hk
  rw [Udwords.all_ofAll] at hrs hqs
  refine ⟨?_, by omega, hqs, rfl, Nat.two_pow_pos 32, Nat.mod_lt _ (by decide),
    funnel_lt hk (Udwords.ofAll_low_lt a), ha, ?_, ?_⟩
  · rw [Udwords.all_ofAll, hrs]
    exact Divided.start hlt
  · rw [Udwords.all_ofAll]
    exact hb
  · rw [Udwords.all_ofAll]
    exact hsmall

/-- The same by a word. -/
theorem dividing_start_32 (ha : a < 2 ^ 64) (hb : b < 2 ^ 64) (hlt : a / 2 ^ 32 < b)
    (hsmall : b ≤ 2 ^ 63) :
    Dividing a (.ofAll b) 32 0 ⟨0, (Udwords.ofAll a).low⟩ ⟨(Udwords.ofAll a).high, 0⟩ 0 := by
  have hlow := Udwords.ofAll_low_lt a
  have hhigh := Udwords.ofAll_high_lt ha
  have hstart := dividing_start ha hb (Nat.le_refl 32) hlt (.inl hsmall)
  rw [Nat.sub_self, pow_zero, Nat.mul_one, Nat.mul_one, Nat.mod_eq_of_lt hlow,
    Nat.mod_eq_of_lt hhigh, Nat.div_eq_of_lt hlow, Nat.div_eq_of_lt hhigh, Nat.add_zero] at hstart
  exact hstart

/-- The same by more than a word. -/
theorem dividing_start_word (ha : a < 2 ^ 64) (hb : b ≤ 2 ^ 63) (hk : k ≤ 32)
    (hlt : a / 2 ^ (32 + k) < b) :
    Dividing a (.ofAll b) (32 + k) 0
      ⟨(Udwords.ofAll a).low * 2 ^ (32 - k) % 2 ^ 32,
        (Udwords.ofAll a).high % 2 ^ k * 2 ^ (32 - k) + (Udwords.ofAll a).low / 2 ^ k⟩
      ⟨(Udwords.ofAll a).high / 2 ^ k, 0⟩ 0 := by
  have hqs := all_lost_word (.ofAll a) (Udwords.ofAll_low_lt a) hk
  rw [Udwords.all_ofAll] at hqs
  have hrs : Udwords.all ⟨(Udwords.ofAll a).high / 2 ^ k, 0⟩ = a / 2 ^ (32 + k) := by
    rw [pow_add, ← Nat.div_div_eq_div_mul, Udwords.all, Nat.zero_mul, Nat.zero_add]
    rfl
  refine ⟨?_, by omega, hqs, rfl, Nat.mod_lt _ (by decide),
    funnel_lt hk (Udwords.ofAll_low_lt a),
    (Nat.div_le_self _ _).trans_lt (Udwords.ofAll_high_lt ha), ha, ?_, ?_⟩
  · rw [Udwords.all_ofAll, hrs]
    exact Divided.start hlt
  · rw [Udwords.all_ofAll]
    omega
  · rw [Udwords.all_ofAll]
    exact .inl hb

end Starting

-- ---------------------------------------------------------------------------
-- __udivmoddi4
-- ---------------------------------------------------------------------------

/-- What is in front of the loop: a result, or a numerator whose upper bits are divided. -/
def Starts (a b : Nat) : Option Start → Prop
  | none => b = 0
  | some (.done q r) => b ≠ 0 ∧ q = a / b ∧ r = a % b
  | some (.loop sr q r) => Dividing a (.ofAll b) sr 0 q r 0

section Cases

variable {a b nl nh dl dh : Nat}

/-- Both numbers have two words: how far the numerator is moved. -/
theorem starts_long (ha : a < 2 ^ 64) (hnh : a / 2 ^ 32 ≠ 0) (hdh : b / 2 ^ 32 ≠ 0)
    (hle : (b / 2 ^ 32).log2 ≤ (a / 2 ^ 32).log2) :
    a / 2 ^ ((a / 2 ^ 32).log2 - (b / 2 ^ 32).log2 + 1) < b ∧
    (b ≤ 2 ^ 63 ∨ (a / 2 ^ 32).log2 - (b / 2 ^ 32).log2 + 1 ≤ 1 ∧ 2 ^ 63 ≤ a) := by
  have hself := Nat.log2_self_le hdh
  have hlt : a / 2 ^ 32 < 2 ^ ((a / 2 ^ 32).log2 + 1) := Nat.lt_log2_self
  have hnlt := log2_lt_32 hnh (by omega)
  have hdtop : 2 ^ 31 ≤ b / 2 ^ 32 → 31 ≤ (b / 2 ^ 32).log2 := (Nat.le_log2 hdh).2
  have hntop : 31 ≤ (a / 2 ^ 32).log2 → 2 ^ 31 ≤ a / 2 ^ 32 := (Nat.le_log2 hnh).1
  generalize (a / 2 ^ 32).log2 = ln at hle hlt hnlt hntop ⊢
  generalize (b / 2 ^ 32).log2 = ld at hle hself hdtop ⊢
  constructor
  · have hprod : 2 ^ 32 * 2 ^ ld * 2 ^ (ln - ld + 1) = 2 ^ 32 * 2 ^ (ln + 1) := by
      rw [Nat.mul_assoc, ← pow_add]
      congr 2
      omega
    have hdiv : a / 2 ^ (ln - ld + 1) < 2 ^ 32 * 2 ^ ld := by
      rw [Nat.div_lt_iff_lt_mul (Nat.two_pow_pos _), hprod]
      omega
    omega
  · by_cases hsmall : b ≤ 2 ^ 63
    · exact .inl hsmall
    · have hld := hdtop (by omega)
      have hnh := hntop (by omega)
      exact .inr ⟨by omega, by omega⟩

/-- The denominator has one word: how far the numerator is moved. -/
theorem starts_short (hb : b ≠ 0) (hblt : b < 2 ^ 32) :
    a / 2 ^ (33 + (a / 2 ^ 32).log2 - b.log2) < b := by
  have hself := Nat.log2_self_le hb
  have hlog := log2_lt_32 hb hblt
  have hlt : a / 2 ^ 32 < 2 ^ ((a / 2 ^ 32).log2 + 1) := Nat.lt_log2_self
  generalize (a / 2 ^ 32).log2 = ln at hlt ⊢
  have hprod : 2 ^ b.log2 * 2 ^ (33 + ln - b.log2) = 2 ^ 32 * 2 ^ (ln + 1) := by
    rw [← pow_add, ← pow_add]
    congr 1
    omega
  have hdiv : a / 2 ^ (33 + ln - b.log2) < 2 ^ b.log2 := by
    rw [Nat.div_lt_iff_lt_mul (Nat.two_pow_pos _), hprod]
    omega
  omega

/-- The numerator has one word. -/
theorem start_of_high_eq_zero (ha : a / 2 ^ 32 = 0) :
    Starts a b (udivmoddi4Start (.ofAll a) (.ofAll b)) := by
  have hlow : a % 2 ^ 32 = a := by omega
  rw [udivmoddi4Start, if_pos (show (Udwords.ofAll a).high = 0 from ha)]
  simp only [Udwords.ofAll, hlow]
  by_cases hdh : b / 2 ^ 32 = 0
  · have hdl : b % 2 ^ 32 = b := by omega
    rw [if_pos hdh, hdl]
    by_cases hb : b = 0
    · rw [quot, if_pos hb]
      exact hb
    · rw [quot, rem, if_neg hb, if_neg hb]
      exact ⟨hb, rfl, rfl⟩
  · rw [if_neg hdh]
    exact ⟨by omega, (Nat.div_eq_of_lt (by omega)).symm, (Nat.mod_eq_of_lt (by omega)).symm⟩

/-- The denominator is a multiple of a whole word. -/
theorem start_of_low_eq_zero (ha : a < 2 ^ 64) (hb : b < 2 ^ 64) (hnh : a / 2 ^ 32 ≠ 0)
    (hdl : b % 2 ^ 32 = 0) : Starts a b (udivmoddi4Start (.ofAll a) (.ofAll b)) := by
  have hbeq : b = 2 ^ 32 * (b / 2 ^ 32) := by omega
  have hnhlt : a / 2 ^ 32 < 2 ^ 32 := by omega
  have hdhlt : b / 2 ^ 32 < 2 ^ 32 := by omega
  have hquot : a / b = a / 2 ^ 32 / (b / 2 ^ 32) := by
    rw [Nat.div_div_eq_div_mul, ← hbeq]
  have hrem : a % b = a / 2 ^ 32 % (b / 2 ^ 32) * 2 ^ 32 + a % 2 ^ 32 := by
    conv_lhs => rw [hbeq, Nat.mod_mul]
    ring
  rw [udivmoddi4Start, if_neg (show (Udwords.ofAll a).high ≠ 0 from hnh),
    if_pos (show (Udwords.ofAll b).low = 0 from hdl)]
  simp only [show (Udwords.ofAll b).high = b / 2 ^ 32 from rfl,
    show (Udwords.ofAll b).low = b % 2 ^ 32 from rfl,
    show (Udwords.ofAll a).high = a / 2 ^ 32 from rfl]
  by_cases hdh : b / 2 ^ 32 = 0
  · rw [if_pos hdh, hdl]
    exact (by omega : b = 0)
  rw [if_neg hdh]
  have hb0 : b ≠ 0 := by omega
  by_cases hnl : (Udwords.ofAll a).low = 0
  · have hnl' : a % 2 ^ 32 = 0 := hnl
    rw [if_pos hnl, quot, rem, if_neg hdh, if_neg hdh]
    refine ⟨hb0, hquot.symm, ?_⟩
    rw [hrem, hnl']
    rfl
  rw [if_neg hnl]
  by_cases hpow : b / 2 ^ 32 &&& (b / 2 ^ 32 - 1) = 0
  · obtain ⟨k, hk, hdk⟩ := exists_eq_two_pow hdh hdhlt hpow
    rw [if_pos hpow, hdk, builtinCtz_two_pow hk]
    simp only [Option.pure_def, Option.bind_eq_bind, Option.bind_some, shr_eq hk]
    refine ⟨hb0, ?_, ?_⟩
    · rw [hquot, hdk]
    · rw [hrem, hdk, Nat.and_two_pow_sub_one_eq_mod]
      rfl
  · rw [if_neg hpow, builtinClz_eq hdh, builtinClz_eq hnh]
    simp only [Option.pure_def, Option.bind_eq_bind, Option.bind_some]
    have hnlog := log2_lt_32 hnh hnhlt
    have hdlog := log2_lt_32 hdh hdhlt
    have hdpos := log2_pos_of_and_ne_zero hdh hpow
    rw [toU32_clz_sub hdlog hnlog]
    by_cases hle : (b / 2 ^ 32).log2 ≤ (a / 2 ^ 32).log2
    · obtain ⟨hlt, hsmall⟩ := starts_long ha hnh hdh hle
      have hstart := dividing_start ha hb (by omega) hlt hsmall
      rw [if_pos hle, if_neg (by omega), shl_eq (by omega), shl_eq (by omega), shr_eq (by omega),
        shr_eq (by omega)]
      simp only [Option.bind_some]
      rw [or_funnel (by omega) (Udwords.ofAll_low_lt a)]
      exact hstart
    · have hless := lt_of_log2_lt hdh hnh (by omega)
      rw [if_neg hle, if_pos (by omega), Udwords.all_ofAll]
      exact ⟨hb0, (Nat.div_eq_of_lt (by omega)).symm, (Nat.mod_eq_of_lt (by omega)).symm⟩

/-- The denominator has one word. -/
theorem start_of_word (ha : a < 2 ^ 64) (hb : b < 2 ^ 32) (hnh : a / 2 ^ 32 ≠ 0) (hb0 : b ≠ 0) :
    Starts a b (udivmoddi4Start (.ofAll a) (.ofAll b)) := by
  have hnhlt : a / 2 ^ 32 < 2 ^ 32 := by omega
  have hdl : (Udwords.ofAll b).low = b := Nat.mod_eq_of_lt hb
  have hdh : (Udwords.ofAll b).high = 0 := Nat.div_eq_of_lt hb
  rw [udivmoddi4Start, if_neg (show (Udwords.ofAll a).high ≠ 0 from hnh), if_neg (by rwa [hdl]),
    if_pos hdh, hdl]
  by_cases hpow : b &&& (b - 1) = 0
  · obtain ⟨k, hk, hbk⟩ := exists_eq_two_pow hb0 hb hpow
    have hrem : (Udwords.ofAll a).low &&& (b - 1) = a % b := by
      rw [hbk, Nat.and_two_pow_sub_one_eq_mod]
      exact Nat.mod_mod_of_dvd a (Nat.pow_dvd_pow 2 (by omega))
    rw [if_pos hpow, hrem]
    by_cases hone : b = 1
    · rw [if_pos hone, Udwords.all_ofAll, hone]
      exact ⟨by decide, (Nat.div_one a).symm, rfl⟩
    · rw [if_neg hone]
      have hkpos : k ≠ 0 := by
        rintro rfl
        exact hone hbk
      rw [show builtinCtz b = some k by rw [hbk]; exact builtinCtz_two_pow hk]
      simp only [Option.pure_def, Option.bind_eq_bind, Option.bind_some]
      rw [shl_eq (by omega), shr_eq hk, shr_eq hk]
      simp only [Option.bind_some]
      rw [or_funnel (by omega) (Udwords.ofAll_low_lt a), all_shr (.ofAll a) (by omega),
        Udwords.all_ofAll]
      exact ⟨hb0, by rw [hbk], rfl⟩
  · rw [if_neg hpow, builtinClz_eq hb0, builtinClz_eq (show (Udwords.ofAll a).high ≠ 0 from hnh)]
    simp only [Option.pure_def, Option.bind_eq_bind, Option.bind_some,
      show (Udwords.ofAll a).high = a / 2 ^ 32 from rfl]
    have hnlog := log2_lt_32 hnh hnhlt
    have hdlog := log2_lt_32 hb0 hb
    have hdpos := log2_pos_of_and_ne_zero hb0 hpow
    have hlt := starts_short (a := a) hb0 hb
    have hsr : toU32 (1 + 32 + (31 - b.log2 : Nat) - (31 - (a / 2 ^ 32).log2 : Nat))
        = 33 + (a / 2 ^ 32).log2 - b.log2 := by
      rw [toU32]
      omega
    have hb63 : b ≤ 2 ^ 63 := by omega
    have hlo : 0 < 33 + (a / 2 ^ 32).log2 - b.log2 := by omega
    have hhi : 33 + (a / 2 ^ 32).log2 - b.log2 < 64 := by omega
    rw [hsr]
    generalize 33 + (a / 2 ^ 32).log2 - b.log2 = sr at hlt hlo hhi ⊢
    rcases Nat.lt_trichotomy sr 32 with hless | rfl | hmore
    · have hstart := dividing_start ha (by omega) (by omega) hlt (.inl hb63)
      rw [if_neg (by omega), if_pos hless, shl_eq (by omega), shl_eq (by omega), shr_eq hless,
        shr_eq hless]
      simp only [Option.bind_some]
      rw [or_funnel (by omega) (Udwords.ofAll_low_lt a)]
      exact hstart
    · rw [if_pos rfl]
      exact dividing_start_32 ha (by omega) hlt hb63
    · obtain ⟨k, rfl⟩ := Nat.exists_eq_add_of_le (show 32 ≤ sr by omega)
      have hstart := dividing_start_word ha hb63 (by omega) hlt
      rw [if_neg (by omega), if_neg (by omega), show 64 - (32 + k) = 32 - k by omega,
        Nat.add_sub_cancel_left, shl_eq (by omega), shl_eq (by omega), shr_eq (by omega),
        shr_eq (by omega)]
      simp only [Option.bind_some]
      rw [← show a / 2 ^ 32 = (Udwords.ofAll a).high from rfl] at hstart
      rw [or_funnel (by omega) (Udwords.ofAll_low_lt a)]
      exact hstart

/-- Both have two words. -/
theorem start_of_long (ha : a < 2 ^ 64) (hb : b < 2 ^ 64) (hnh : a / 2 ^ 32 ≠ 0)
    (hdl : b % 2 ^ 32 ≠ 0) (hdh : b / 2 ^ 32 ≠ 0) :
    Starts a b (udivmoddi4Start (.ofAll a) (.ofAll b)) := by
  have hnlog := log2_lt_32 hnh (by omega)
  have hdlog := log2_lt_32 hdh (by omega)
  rw [udivmoddi4Start, if_neg (show (Udwords.ofAll a).high ≠ 0 from hnh),
    if_neg (show (Udwords.ofAll b).low ≠ 0 from hdl),
    if_neg (show (Udwords.ofAll b).high ≠ 0 from hdh),
    builtinClz_eq (show (Udwords.ofAll a).high ≠ 0 from hnh),
    builtinClz_eq (show (Udwords.ofAll b).high ≠ 0 from hdh)]
  simp only [Option.pure_def, Option.bind_eq_bind, Option.bind_some,
    show (Udwords.ofAll a).high = a / 2 ^ 32 from rfl,
    show (Udwords.ofAll b).high = b / 2 ^ 32 from rfl]
  rw [toU32_clz_sub hdlog hnlog]
  by_cases hle : (b / 2 ^ 32).log2 ≤ (a / 2 ^ 32).log2
  · obtain ⟨hlt, hsmall⟩ := starts_long ha hnh hdh hle
    have hstart := dividing_start ha hb (by omega) hlt hsmall
    rw [if_pos hle, if_neg (by omega)]
    by_cases hword : (a / 2 ^ 32).log2 - (b / 2 ^ 32).log2 + 1 = 32
    · rw [hword] at hlt hsmall
      rw [if_pos hword, hword]
      exact dividing_start_32 ha hb hlt (by omega)
    · rw [if_neg hword, shl_eq (by omega), shl_eq (by omega), shr_eq (by omega), shr_eq (by omega)]
      simp only [Option.bind_some]
      rw [or_funnel (by omega) (Udwords.ofAll_low_lt a)]
      exact hstart
  · have hless := lt_of_log2_lt hdh hnh (by omega)
    rw [if_neg hle, if_pos (by omega), Udwords.all_ofAll]
    exact ⟨by omega, (Nat.div_eq_of_lt (by omega)).symm, (Nat.mod_eq_of_lt (by omega)).symm⟩

end Cases

/-- **`__udivmoddi4`** is division with remainder. -/
theorem udivmoddi4_toNat (a b : BitVec 64) : udivmoddi4 a.toNat b.toNat
    = if b = 0 then none else some (a.toNat / b.toNat, a.toNat % b.toNat) := by
  have hstarts : Starts a.toNat b.toNat
      (udivmoddi4Start (.ofAll a.toNat) (.ofAll b.toNat)) := by
    by_cases hnh : a.toNat / 2 ^ 32 = 0
    · exact start_of_high_eq_zero hnh
    by_cases hdl : b.toNat % 2 ^ 32 = 0
    · exact start_of_low_eq_zero a.isLt b.isLt hnh hdl
    by_cases hdh : b.toNat / 2 ^ 32 = 0
    · exact start_of_word a.isLt (by omega) hnh (by omega)
    · exact start_of_long a.isLt b.isLt hnh hdl hdh
  have hzero : b = 0 ↔ b.toNat = 0 := BitVec.toNat_inj.symm
  rw [udivmoddi4]
  cases hstart : udivmoddi4Start (.ofAll a.toNat) (.ofAll b.toNat) with
  | none =>
    rw [hstart] at hstarts
    rw [if_pos (hzero.2 hstarts)]
  | some start =>
    rw [hstart] at hstarts
    cases start with
    | done q r =>
      obtain ⟨hb, rfl, rfl⟩ := hstarts
      rw [if_neg fun hcon => hb (hzero.1 hcon)]
    | loop sr q r =>
      have hdividing : Dividing a.toNat (.ofAll b.toNat) sr 0 q r 0 := hstarts
      have hpos := hdividing.divided.lt
      rw [Udwords.all_ofAll] at hpos
      obtain ⟨q', r', carry, hrun, hquot, hrem⟩ := hdividing.loop
      rw [Udwords.all_ofAll] at hquot hrem
      rw [if_neg fun hcon => absurd (hzero.1 hcon) (by omega)]
      simp only [hrun, hquot, hrem]

-- ---------------------------------------------------------------------------
-- Signed division
-- ---------------------------------------------------------------------------

section Signed

/-- `x >> 63` has the sign in all bits. -/
theorem sshiftRight_63 (x : BitVec 64) :
    x.sshiftRight 63 = if x.msb then BitVec.allOnes 64 else 0#64 := by
  apply BitVec.eq_of_getLsbD_eq
  intro i hi
  have hle : ¬ 64 ≤ i := by omega
  have hbit : (if 63 + i < 64 then x.getLsbD (63 + i) else x.msb) = x.msb := by
    by_cases hi0 : i = 0
    · subst hi0
      rfl
    · rw [if_neg (by omega)]
  rw [BitVec.getLsbD_sshiftRight, hbit, decide_eq_false hle, Bool.not_false, Bool.true_and]
  cases x.msb with
  | false => rw [if_neg Bool.false_ne_true, BitVec.getLsbD_zero]
  | true => rw [if_pos rfl, BitVec.getLsbD_allOnes, decide_eq_true hi]

/-- Negation, when the sign says so. -/
theorem negateIf_ite (s : Bool) (x : BitVec 64) :
    negateIf (if s then BitVec.allOnes 64 else 0#64) x = if s then -x else x := by
  cases s with
  | false =>
    rw [if_neg Bool.false_ne_true, if_neg Bool.false_ne_true, negateIf, BitVec.xor_zero]
    exact BitVec.sub_zero x
  | true =>
    have hones : BitVec.allOnes 64 = -1 := by decide
    rw [if_pos rfl, if_pos rfl, negateIf, BitVec.xor_allOnes, BitVec.neg_eq_not_add, hones,
      BitVec.sub_neg]
    rfl

/-- The sign of a quotient. -/
theorem ite_xor_ite (s t : Bool) :
    (if s then BitVec.allOnes 64 else 0#64) ^^^ (if t then BitVec.allOnes 64 else 0#64)
      = if s ^^ t then BitVec.allOnes 64 else 0#64 := by
  cases s <;> cases t <;> decide

theorem udivmoddi4_udiv (a b : BitVec 64) : udivmoddi4 a.toNat b.toNat
    = if b = 0 then none else some ((a / b).toNat, (a % b).toNat) := by
  rw [udivmoddi4_toNat, BitVec.toNat_udiv, BitVec.toNat_umod]

theorem ite_neg_eq_zero (s : Bool) (b : BitVec 64) : (if s then -b else b) = 0 ↔ b = 0 := by
  cases s with
  | false => exact Iff.rfl
  | true => exact BitVec.neg_eq_zero_iff

/-- `__divdi3` divides the absolute values. -/
theorem divdi3_sdiv (a b : BitVec 64) :
    divdi3 a b = if b = 0 then none else some (a.sdiv b) := by
  simp only [divdi3, sshiftRight_63, negateIf_ite, ite_xor_ite, udivmoddi4_udiv, ite_neg_eq_zero]
  by_cases hb : b = 0
  · rw [if_pos hb, if_pos hb]
    rfl
  · rw [if_neg hb, if_neg hb, Option.map_some, BitVec.ofNat_toNat, BitVec.setWidth_eq,
      BitVec.sdiv_eq]
    cases a.msb <;> cases b.msb <;> rfl

/-- `__moddi3` gives the remainder the sign of the numerator. -/
theorem moddi3_srem (a b : BitVec 64) :
    moddi3 a b = if b = 0 then none else some (a.srem b) := by
  simp only [moddi3, sshiftRight_63, negateIf_ite, udivmoddi4_udiv, ite_neg_eq_zero]
  by_cases hb : b = 0
  · rw [if_pos hb, if_pos hb]
    rfl
  · rw [if_neg hb, if_neg hb, Option.map_some, BitVec.ofNat_toNat, BitVec.setWidth_eq,
      BitVec.srem_eq]
    cases a.msb <;> cases b.msb <;> rfl

/-- What `__divmoddi4` computes is the remainder, also where the quotient wraps around. -/
theorem sub_sdiv_mul (a b : BitVec 64) : a - a.sdiv b * b = a.srem b := by
  apply BitVec.eq_of_toInt_eq
  have hrem : a.toInt - a.toInt.tdiv b.toInt * b.toInt = a.toInt.tmod b.toInt := by
    rw [Int.tmod_def, Int.mul_comm]
  rw [BitVec.toInt_sub, BitVec.toInt_mul, BitVec.toInt_sdiv, Int.bmod_mul_bmod, Int.sub_bmod_bmod,
    hrem, ← BitVec.toInt_srem, BitVec.toInt_bmod_cancel]

end Signed

/-- **Unsigned division**: no operation of it is undefined, except for the division by zero. -/
theorem udivdi3_umoddi3_eq (a b : BitVec 64) :
    udivdi3 a b = (if b = 0 then none else some (a / b)) ∧
    umoddi3 a b = if b = 0 then none else some (a % b) := by
  rw [udivdi3, umoddi3, udivmoddi4_udiv]
  by_cases hb : b = 0
  · rw [if_pos hb, if_pos hb, if_pos hb]
    exact ⟨rfl, rfl⟩
  · have hback : ∀ x : BitVec 64, BitVec.ofNat 64 x.toNat = x := fun x => by
      rw [BitVec.ofNat_toNat, BitVec.setWidth_eq]
    rw [if_neg hb, if_neg hb, if_neg hb]
    exact ⟨congrArg some (hback (a / b)), congrArg some (hback (a % b))⟩

/-- **Signed division**: the quotient is truncated and the remainder has the sign of the numerator.
The quotient alone wraps around, when the least number is divided by `-1`. -/
theorem divdi3_moddi3_eq (a b : BitVec 64) :
    if b = 0 then divdi3 a b = none ∧ moddi3 a b = none ∧ divmoddi4 a b = none
    else ∃ q r, divdi3 a b = some q ∧ moddi3 a b = some r ∧ divmoddi4 a b = some (q, r) ∧
      q.toInt = (a.toInt.tdiv b.toInt).bmod (2 ^ 64) ∧ r.toInt = a.toInt.tmod b.toInt := by
  rw [divmoddi4, divdi3_sdiv, moddi3_srem]
  by_cases hb : b = 0
  · rw [if_pos hb, if_pos hb, if_pos hb]
    exact ⟨rfl, rfl, rfl⟩
  · rw [if_neg hb, if_neg hb, if_neg hb]
    refine ⟨a.sdiv b, a.srem b, rfl, rfl, ?_, BitVec.toInt_sdiv a b, BitVec.toInt_srem a b⟩
    rw [Option.map_some, sub_sdiv_mul]

end MyOs.Klib
