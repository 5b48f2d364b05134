import MyOs.Lib.Bits

/-!
# Bit fields of an address

An address is cut into consecutive fields of bits, from a highest bit down to a lowest one,
as the levels of a page table do. The sequence of the fields says which addresses agree
between these two bits, and a mask with a shift reads one field.

* `and_mask_shiftRight` — a mask and a shift read a field.
* `Fields.digits_eq_iff` — **the fields determine the address** between the two bits.
* `ofDigits_digits`, `digits_ofDigits` — an address and its fields, back and forth.
-/

namespace MyOs.Radix

/-- A field: its lowest bit, and how many bits it has. -/
structure Field where
  shift : Nat
  bits : Nat
  deriving DecidableEq

/-- What stands in a field. -/
def Field.digit (f : Field) (x : Nat) : Nat := x / 2 ^ f.shift % 2 ^ f.bits

theorem Field.digit_lt (f : Field) (x : Nat) : f.digit x < 2 ^ f.bits :=
  Nat.mod_lt _ (Nat.two_pow_pos _)

/-- The fields follow one another, from the bit `hi` down to the bit `lo`. -/
def Fields (lo : Nat) : Nat → List Field → Prop
  | hi, [] => hi = lo
  | hi, f :: fs => hi = f.shift + f.bits ∧ Fields lo f.shift fs

instance decidableFields (lo : Nat) : ∀ (hi : Nat) (fs : List Field), Decidable (Fields lo hi fs)
  | hi, [] => inferInstanceAs (Decidable (hi = lo))
  | hi, f :: fs =>
    have := decidableFields lo f.shift fs
    inferInstanceAs (Decidable (hi = f.shift + f.bits ∧ Fields lo f.shift fs))

/-- What stands in each of the fields. -/
def digits (fs : List Field) (x : Nat) : List Nat := fs.map fun f => f.digit x

variable {fs : List Field} {lo hi x y : Nat}

theorem Fields.le (h : Fields lo hi fs) : lo ≤ hi := by
  induction fs generalizing hi with
  | nil => exact Nat.le_of_eq h.symm
  | cons f fs ih =>
    have hle := ih h.2
    have hhi := h.1
    omega

/-- A field and what is below it. -/
theorem mod_two_pow_add (x s b : Nat) :
    x % 2 ^ (s + b) = x % 2 ^ s + 2 ^ s * (x / 2 ^ s % 2 ^ b) := by
  rw [pow_add, Nat.mod_mul]

/-- **The fields determine the address** between the two bits. -/
theorem Fields.digits_eq_iff (h : Fields lo hi fs) :
    digits fs x = digits fs y ↔ x % 2 ^ hi / 2 ^ lo = y % 2 ^ hi / 2 ^ lo := by
  induction fs generalizing hi with
  | nil =>
    obtain rfl : hi = lo := h
    have hpos := Nat.two_pow_pos hi
    rw [Nat.div_eq_of_lt (Nat.mod_lt x hpos), Nat.div_eq_of_lt (Nat.mod_lt y hpos)]
    exact iff_of_true rfl rfl
  | cons f fs ih =>
    obtain ⟨rfl, hfs⟩ := h
    obtain ⟨d, hd⟩ := Nat.exists_eq_add_of_le hfs.le
    -- above `lo`, the address is its top field and the rest below that
    have hsplit : ∀ z, z % 2 ^ (f.shift + f.bits) / 2 ^ lo
        = z % 2 ^ f.shift / 2 ^ lo + 2 ^ d * f.digit z := by
      intro z
      rw [mod_two_pow_add, hd, pow_add, Nat.mul_assoc,
        Nat.add_mul_div_left _ _ (Nat.two_pow_pos lo), Field.digit, hd, pow_add]
    have hlt : ∀ z, z % 2 ^ f.shift / 2 ^ lo < 2 ^ d := by
      intro z
      rw [Nat.div_lt_iff_lt_mul (Nat.two_pow_pos lo), ← pow_add, Nat.add_comm, ← hd]
      exact Nat.mod_lt z (Nat.two_pow_pos _)
    rw [digits, digits, List.map_cons, List.map_cons, List.cons.injEq, hsplit, hsplit]
    change _ ∧ digits fs x = digits fs y ↔ _
    rw [ih hfs]
    constructor
    · rintro ⟨hdigit, hrest⟩
      rw [hdigit, hrest]
    · intro heq
      have hmod := congrArg (· % 2 ^ d) heq
      have hdiv := congrArg (· / 2 ^ d) heq
      simp only [Nat.add_mul_mod_self_left, Nat.mod_eq_of_lt (hlt _)] at hmod
      simp only [Nat.add_mul_div_left _ _ (Nat.two_pow_pos d), Nat.div_eq_of_lt (hlt _),
        Nat.zero_add] at hdiv
      exact ⟨hdiv, hmod⟩

/-- The digits stand in the fields. There may be fewer digits than fields. -/
def Digits : List Field → List Nat → Prop
  | _, [] => True
  | [], _ :: _ => False
  | f :: fs, d :: ds => d < 2 ^ f.bits ∧ Digits fs ds

/-- The address with the digits in its fields. -/
def ofDigits : List Field → List Nat → Nat
  | f :: fs, d :: ds => d * 2 ^ f.shift + ofDigits fs ds
  | _, _ => 0

theorem Digits.nil (fs : List Field) : Digits fs [] := by
  cases fs <;> trivial

/-- The upper fields of an address, and a digit for the next one. -/
theorem Digits.append (fs : List Field) (f : Field) (gs : List Field) (x : Nat) {d : Nat}
    (hd : d < 2 ^ f.bits) : Digits (fs ++ f :: gs) (digits fs x ++ [d]) := by
  induction fs with
  | nil => exact ⟨hd, Digits.nil gs⟩
  | cons g fs ih => exact ⟨g.digit_lt x, ih⟩

theorem Digits.ofDigits_lt {ds : List Nat} (h : Fields lo hi fs) (hds : Digits fs ds) :
    ofDigits fs ds < 2 ^ hi := by
  induction fs generalizing hi ds with
  | nil => cases ds <;> exact Nat.two_pow_pos _
  | cons f fs ih =>
    cases ds with
    | nil => exact Nat.two_pow_pos _
    | cons d ds =>
      obtain ⟨rfl, hfs⟩ := h
      have hrest := ih hfs hds.2
      have hdigit : (d + 1) * 2 ^ f.shift ≤ 2 ^ f.bits * 2 ^ f.shift :=
        Nat.mul_le_mul_right _ hds.1
      rw [ofDigits, pow_add, Nat.mul_comm (2 ^ f.shift)]
      rw [Nat.add_one_mul] at hdigit
      omega

/-- **The address with the fields of an address**: what is below the last field is gone. -/
theorem ofDigits_digits (h : Fields lo hi fs) (x : Nat) :
    ofDigits fs (digits fs x) = x % 2 ^ hi / 2 ^ lo * 2 ^ lo := by
  induction fs generalizing hi with
  | nil =>
    obtain rfl : hi = lo := h
    rw [Nat.div_eq_of_lt (Nat.mod_lt x (Nat.two_pow_pos _)), Nat.zero_mul]
    rfl
  | cons f fs ih =>
    obtain ⟨rfl, hfs⟩ := h
    obtain ⟨d, hd⟩ := Nat.exists_eq_add_of_le hfs.le
    change f.digit x * 2 ^ f.shift + ofDigits fs (digits fs x) = _
    have htop : 2 ^ f.shift * (x / 2 ^ f.shift % 2 ^ f.bits) = 2 ^ lo * (2 ^ d * f.digit x) := by
      rw [← Nat.mul_assoc, ← pow_add, ← hd, Field.digit]
    rw [ih hfs, mod_two_pow_add, htop, Nat.add_mul_div_left _ _ (Nat.two_pow_pos lo),
      Nat.add_mul, Nat.add_comm, Nat.mul_comm (2 ^ d), Nat.mul_assoc, ← pow_add, Nat.add_comm d,
      ← hd]

/-- **The fields of the address with given digits** are these digits. -/
theorem digits_ofDigits {ds : List Nat} (h : Fields lo hi fs) (hds : Digits fs ds)
    (hlen : ds.length = fs.length) : digits fs (ofDigits fs ds) = ds := by
  induction fs generalizing hi ds with
  | nil =>
    obtain rfl : ds = [] := List.length_eq_zero_iff.1 hlen
    rfl
  | cons f fs ih =>
    cases ds with
    | nil => cases hlen
    | cons d ds =>
      obtain ⟨rfl, hfs⟩ := h
      have hlow : ofDigits fs ds < 2 ^ f.shift := hds.2.ofDigits_lt hfs
      have hhead : f.digit (ofDigits (f :: fs) (d :: ds)) = d := by
        rw [Field.digit, ofDigits, Nat.add_comm, Nat.add_mul_div_right _ _ (Nat.two_pow_pos _),
          Nat.div_eq_of_lt hlow, Nat.zero_add, Nat.mod_eq_of_lt hds.1]
      -- the lower fields do not see the top digit
      have htail : digits fs (ofDigits (f :: fs) (d :: ds)) = digits fs (ofDigits fs ds) := by
        rw [hfs.digits_eq_iff, ofDigits, Nat.add_comm, Nat.add_mul_mod_self_right]
      rw [digits, List.map_cons, hhead]
      exact congrArg (d :: ·) (htail.trans (ih hfs hds.2 (Nat.succ.inj hlen)))

/-- **A mask and a shift** read a field. -/
theorem and_mask_shiftRight (f : Field) (x : Nat) :
    (x &&& (2 ^ (f.shift + f.bits) - 2 ^ f.shift)) >>> f.shift = f.digit x := by
  apply Nat.eq_of_testBit_eq
  intro i
  rw [Nat.testBit_shiftRight, Nat.testBit_and, Bits.testBit_mask (Nat.le_add_right _ _),
    Field.digit, Nat.testBit_mod_two_pow, Nat.testBit_div_two_pow]
  have hbits : f.shift + i < f.shift + f.bits ↔ i < f.bits := Nat.add_lt_add_iff_left
  rw [Nat.add_comm i]
  by_cases hi : i < f.bits
  · simp [hi]
  · simp [hi]

end MyOs.Radix
