import Mathlib.Tactic.Common
import Mathlib.Tactic.Ring

/-!
# Byte memory

Memory is a function from addresses to bytes, and words are stored in it in
little-endian order. Two facts do most of the work: a load reads back what was
stored in place (`load_store`), and a store elsewhere is not seen
(`load_store_of_disjoint`). `Same` says that two memories agree on a range of
addresses, `OnlyIn` that they agree everywhere else; every frame condition is
stated with these two.
-/

namespace MyOs.Memory

/-- Bytes by address. -/
abbrev Mem := Nat → UInt8

/-- The `n`-byte little-endian word at `a`. -/
def load (m : Mem) (a : Nat) : Nat → Nat
  | 0 => 0
  | n + 1 => (m a).toNat + 256 * load m (a + 1) n

/-- Store the low `n` bytes of `v` at `a`. -/
def store (m : Mem) (a n v : Nat) : Mem := fun x =>
  if a ≤ x ∧ x < a + n then UInt8.ofNat (v / 256 ^ (x - a)) else m x

/-- `m'` agrees with `m` on the addresses from `lo` up to `hi`. -/
def Same (m m' : Mem) (lo hi : Nat) : Prop := ∀ x, lo ≤ x → x < hi → m' x = m x

variable {m m' m'' : Mem} {a b n k v w lo hi : Nat}

/-! ## Agreement on a range -/

theorem Same.trans (h : Same m m' lo hi) (h' : Same m' m'' lo hi) : Same m m'' lo hi :=
  fun x hl hu => (h' x hl hu).trans (h x hl hu)

theorem Same.sub (h : Same m m' lo hi) (hl : lo ≤ a) (hu : b ≤ hi) : Same m m' a b :=
  fun x hx hx' => h x (by omega) (by omega)

/-- Between `m` and `m'` only bytes from `lo` up to `hi` have changed. -/
def OnlyIn (m m' : Mem) (lo hi : Nat) : Prop := ∀ x, x < lo ∨ hi ≤ x → m' x = m x

theorem OnlyIn.refl (m : Mem) (lo hi : Nat) : OnlyIn m m lo hi := fun _ _ => rfl

theorem OnlyIn.trans (h : OnlyIn m m' lo hi) (h' : OnlyIn m' m'' lo hi) : OnlyIn m m'' lo hi :=
  fun x hx => (h' x hx).trans (h x hx)

theorem OnlyIn.mono (h : OnlyIn m m' a b) (hl : lo ≤ a) (hu : b ≤ hi) : OnlyIn m m' lo hi :=
  fun x hx => h x (by omega)

/-- A range apart from the changed bytes is the same. -/
theorem OnlyIn.same (h : OnlyIn m m' lo hi) (hd : b ≤ lo ∨ hi ≤ a) : Same m m' a b :=
  fun x hl hu => h x (by omega)

theorem onlyIn_store : OnlyIn m (store m a n v) a (a + n) :=
  fun _ hx => if_neg (by omega)

/-- A store inside the range. -/
theorem OnlyIn.store (h : OnlyIn m m' lo hi) (hl : lo ≤ a) (hu : a + n ≤ hi) :
    OnlyIn m (store m' a n v) lo hi :=
  h.trans (onlyIn_store.mono hl hu)

/-- A store leaves every range alone that it does not touch. -/
theorem same_store (h : a + n ≤ lo ∨ hi ≤ a) : Same m (store m a n v) lo hi := by
  intro x hl hu
  exact if_neg (by omega)

/-! ## Loads -/

/-- A load depends on its own bytes only. -/
theorem Same.load : ∀ {n a : Nat}, Same m m' a (a + n) → load m' a n = load m a n
  | 0, _, _ => rfl
  | n + 1, a, h => by
    have htail : Same m m' (a + 1) (a + 1 + n) := h.sub (by omega) (by omega)
    rw [Memory.load, Memory.load, h a (by omega) (by omega), htail.load]

/-- Words of the same bytes, wherever they stand. -/
theorem load_eq_load : ∀ {n a b : Nat}, (∀ i < n, m' (b + i) = m (a + i)) → load m' b n = load m a n
  | 0, _, _, _ => rfl
  | n + 1, a, b, h => by
    have hhead := h 0 (Nat.succ_pos n)
    have htail := load_eq_load (a := a + 1) (b := b + 1) fun i hi => by
      have hbyte := h (i + 1) (Nat.succ_lt_succ hi)
      rwa [← Nat.add_assoc, ← Nat.add_assoc, Nat.add_right_comm, Nat.add_right_comm a] at hbyte
    rw [Memory.load, Memory.load, htail]
    exact congrArg (·.toNat + _) hhead

theorem load_lt (m : Mem) : ∀ n a : Nat, load m a n < 256 ^ n
  | 0, _ => by simp [load]
  | n + 1, a => by
    have hbyte : (m a).toNat < 256 := (m a).toNat_lt
    have htail := load_lt m n (a + 1)
    rw [load, pow_succ]
    omega

/-- Byte `i` of a loaded word is byte `i` of memory. -/
theorem load_div (m : Mem) : ∀ n a i : Nat, i < n → load m a n / 256 ^ i % 256 = (m (a + i)).toNat
  | 0, _, _, h => by omega
  | n + 1, a, 0, _ => by
    have hbyte : (m a).toNat < 256 := (m a).toNat_lt
    show ((m a).toNat + 256 * load m (a + 1) n) / 256 ^ 0 % 256 = (m a).toNat
    omega
  | n + 1, a, i + 1, h => by
    have hbyte : (m a).toNat < 256 := (m a).toNat_lt
    have hdrop : ((m a).toNat + 256 * load m (a + 1) n) / 256 = load m (a + 1) n := by omega
    rw [load, pow_succ', ← Nat.div_div_eq_div_mul, hdrop, load_div m n (a + 1) i (by omega)]
    congr 2
    omega

/-- **Load after store**, in place. -/
theorem load_store_mod (m : Mem) : ∀ n a v : Nat, load (store m a n v) a n = v % 256 ^ n
  | 0, _, _ => by rw [load, pow_zero, Nat.mod_one]
  | n + 1, a, v => by
    -- past the first byte the store is a store of the remaining bytes
    have htail : Same (store m (a + 1) n (v / 256)) (store m a (n + 1) v) (a + 1) (a + 1 + n) := by
      intro x hl hu
      unfold store
      rw [if_pos (by omega), if_pos (by omega), Nat.div_div_eq_div_mul, ← pow_succ']
      congr 3
      omega
    have hhead : (store m a (n + 1) v a).toNat = v % 256 := by
      unfold store
      rw [if_pos (by omega), Nat.sub_self, pow_zero, Nat.div_one, UInt8.toNat_ofNat']
    rw [load, hhead, htail.load, load_store_mod m n (a + 1) (v / 256), pow_succ',
      Nat.mod_mul]

/-- **Load after store**, in place, of a value that fits. -/
theorem load_store (h : v < 256 ^ n) : load (store m a n v) a n = v := by
  rw [load_store_mod, Nat.mod_eq_of_lt h]

/-- **Load after store**, elsewhere. -/
theorem load_store_of_disjoint (h : b + k ≤ a ∨ a + n ≤ b) :
    load (store m b k v) a n = load m a n :=
  (same_store h).load

/-! ## Stores -/

/-- The later store in place is the one that counts. -/
theorem store_store : store (store m a n v) a n w = store m a n w := by
  funext x
  unfold store
  by_cases hx : a ≤ x ∧ x < a + n
  · rw [if_pos hx, if_pos hx]
  · rw [if_neg hx, if_neg hx, if_neg hx]

/-- Storing what is there already changes nothing. -/
theorem store_load : store m a n (load m a n) = m := by
  funext x
  unfold store
  by_cases hx : a ≤ x ∧ x < a + n
  · have hbyte := load_div m n a (x - a) (by omega)
    rw [Nat.add_sub_cancel' hx.1] at hbyte
    rw [if_pos hx, ← UInt8.toNat_inj, UInt8.toNat_ofNat', hbyte]
  · rw [if_neg hx]

end MyOs.Memory
