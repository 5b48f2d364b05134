import MyOs.Lib.Memory
import Mathlib.Logic.Function.Basic

/-!
# Strings

The model of `abstract-machine/klib/src/string.c`. Loops that look for a `'\0'` are cut after
`fuel` rounds.

* `strcpy_iff`, `strcat_iff` — when copying comes to an end, and what it leaves.
* `strcmp_order`, `memcmp_order` — the sign is that of the lexicographic order.
* `memcpy_forward` — copying onto itself repeats the first bytes.
-/

namespace MyOs.Klib

open MyOs.Memory

-- ---------------------------------------------------------------------------
-- The source
-- ---------------------------------------------------------------------------

/-- The loop of `strlen`, from `len` on. -/
def strlenLoop (m : Mem) (s : Nat) : Nat → Nat → Option Nat
  | 0, _ => none
  | fuel + 1, len => if m (s + len) = 0 then some len else strlenLoop m s fuel (len + 1)

def strlen (fuel : Nat) (m : Mem) (s : Nat) : Option Nat := strlenLoop m s fuel 0

/-- The loop that `strcpy` and `strcat` end with, from `i` on, with the `'\0'` behind it. -/
def strcpyLoop (dst src : Nat) : Nat → Nat → Mem → Option Mem
  | 0, _, _ => none
  | fuel + 1, i, m =>
    if m (src + i) = 0 then some (Function.update m (dst + i) 0)
    else strcpyLoop dst src fuel (i + 1) (Function.update m (dst + i) (m (src + i)))

/-- `strcpy`: the result, and memory behind it. -/
def strcpy (fuel : Nat) (m : Mem) (dst src : Nat) : Option (Nat × Mem) :=
  (strcpyLoop dst src fuel 0 m).map (dst, ·)

def strcat (fuel : Nat) (m : Mem) (dst src : Nat) : Option (Nat × Mem) := do
  let destLen ← strlen fuel m dst
  let m' ← strcpyLoop (dst + destLen) src fuel 0 m
  return (dst, m')

def strcmp (m : Mem) : Nat → Nat → Nat → Option Int
  | 0, _, _ => none
  | fuel + 1, s₁, s₂ =>
    if m s₁ ≠ 0 ∧ m s₁ = m s₂ then strcmp m fuel (s₁ + 1) (s₂ + 1)
    else some ((m s₁).toNat - (m s₂).toNat)

/-- The loop of `memcpy` for `k` bytes, from `i` on. -/
def memcpyLoop (out inp : Nat) : Nat → Nat → Mem → Mem
  | 0, _, m => m
  | k + 1, i, m => memcpyLoop out inp k (i + 1) (Function.update m (out + i) (m (inp + i)))

/-- `memcpy`. Its counter is an `int`, which does not count any further. -/
def memcpy (m : Mem) (out inp n : Nat) : Option (Nat × Mem) :=
  if n < 2 ^ 31 then some (out, memcpyLoop out inp n 0 m) else none

/-- The loop of `memcmp` for the bytes that are left. -/
def memcmpLoop (m : Mem) : Nat → Nat → Nat → Int
  | 0, _, _ => 0
  | n + 1, p, q =>
    if m p ≠ m q then (if m p < m q then -1 else 1) else memcmpLoop m n (p + 1) (q + 1)

def memcmp (m : Mem) (s₁ s₂ n : Nat) : Int := if s₁ = s₂ then 0 else memcmpLoop m n s₁ s₂

-- ---------------------------------------------------------------------------
-- Strings in memory
-- ---------------------------------------------------------------------------

/-- The characters from `a` on, with a `'\0'` behind them. -/
def CStr (m : Mem) (a : Nat) : List UInt8 → Prop
  | [] => m a = 0
  | x :: s => x ≠ 0 ∧ m a = x ∧ CStr m (a + 1) s

/-- The `n` bytes from `a` on. -/
def bytes (m : Mem) (a : Nat) : Nat → List UInt8
  | 0 => []
  | n + 1 => m a :: bytes m (a + 1) n

variable {m m' : Mem} {a dst src fuel i n : Nat} {s t : List UInt8}

theorem CStr.same (h : CStr m a s) (hsame : Same m m' a (a + s.length + 1)) : CStr m' a s := by
  induction s generalizing a with
  | nil => exact (hsame a (Nat.le_refl a) (Nat.lt_succ_self _)).trans h
  | cons x s ih =>
    obtain ⟨hx, hhead, htail⟩ := h
    rw [List.length_cons] at hsame
    refine ⟨hx, (hsame a (Nat.le_refl a) (by omega)).trans hhead, ih htail ?_⟩
    exact hsame.sub (by omega) (by omega)

theorem CStr.ne_zero (h : CStr m a s) {k : Nat} (hk : k < s.length) : m (a + k) ≠ 0 := by
  induction s generalizing a k with
  | nil => cases hk
  | cons x s ih =>
    obtain ⟨hx, hhead, htail⟩ := h
    cases k with
    | zero => rwa [Nat.add_zero, hhead]
    | succ k =>
      rw [← Nat.add_assoc, Nat.add_right_comm]
      exact ih htail (Nat.lt_of_succ_lt_succ hk)

/-- A string is put behind another one. -/
theorem CStr.append (h : CStr m a s) (hsame : Same m m' a (a + s.length))
    (ht : CStr m' (a + s.length) t) : CStr m' a (s ++ t) := by
  induction s generalizing a with
  | nil => exact ht
  | cons x s ih =>
    obtain ⟨hx, hhead, htail⟩ := h
    rw [List.length_cons] at hsame ht
    refine ⟨hx, (hsame a (Nat.le_refl a) (by omega)).trans hhead, ih htail ?_ ?_⟩
    · exact hsame.sub (by omega) (by omega)
    · rwa [Nat.add_assoc, Nat.add_comm 1]

theorem strlenLoop_eq (h : CStr m (a + i) s) (hfuel : s.length < fuel) :
    strlenLoop m a fuel i = some (i + s.length) := by
  induction s generalizing fuel i with
  | nil =>
    obtain ⟨fuel, rfl⟩ := Nat.exists_eq_succ_of_ne_zero (Nat.ne_of_gt hfuel)
    exact if_pos h
  | cons x s ih =>
    obtain ⟨hx, hhead, htail⟩ := h
    rw [List.length_cons] at hfuel ⊢
    obtain ⟨fuel, rfl⟩ := Nat.exists_eq_succ_of_ne_zero (show fuel ≠ 0 by omega)
    rw [strlenLoop, if_neg (by rwa [hhead]), ih htail (by omega)]
    congr 1
    omega

/-- The end of a string is not found in fewer rounds. -/
theorem strlenLoop_none (h : CStr m (a + i) s) (hfuel : fuel ≤ s.length) :
    strlenLoop m a fuel i = none := by
  induction s generalizing fuel i with
  | nil =>
    rw [Nat.le_zero.1 hfuel]
    rfl
  | cons x s ih =>
    obtain ⟨hx, hhead, htail⟩ := h
    cases fuel with
    | zero => rfl
    | succ fuel =>
      rw [strlenLoop, if_neg (by rwa [hhead])]
      exact ih htail (Nat.le_of_succ_le_succ hfuel)

-- ---------------------------------------------------------------------------
-- Copying strings
-- ---------------------------------------------------------------------------

/-- **Copying downwards, or from below**, does not overwrite what is still to be read. -/
theorem strcpyLoop_apart (hs : CStr m (src + i) s) (hfuel : s.length < fuel)
    (h : dst ≤ src ∨ src + i + s.length < dst) :
    ∃ m', strcpyLoop dst src fuel i m = some m' ∧ CStr m' (dst + i) s ∧
      OnlyIn m m' (dst + i) (dst + i + s.length + 1) := by
  induction s generalizing fuel i m with
  | nil =>
    obtain ⟨fuel, rfl⟩ := Nat.exists_eq_succ_of_ne_zero (Nat.ne_of_gt hfuel)
    refine ⟨_, if_pos hs, Function.update_self .., fun x hx => Function.update_of_ne ?_ _ _⟩
    rw [List.length_nil] at hx
    omega
  | cons x s ih =>
    obtain ⟨hx, hhead, htail⟩ := hs
    rw [List.length_cons] at hfuel h
    obtain ⟨fuel, rfl⟩ := Nat.exists_eq_succ_of_ne_zero (show fuel ≠ 0 by omega)
    have hrest : CStr (Function.update m (dst + i) (m (src + i))) (src + (i + 1)) s :=
      htail.same fun y hy hy' => Function.update_of_ne (by omega) _ _
    obtain ⟨m', hloop, hcopy, honly⟩ := ih hrest (show s.length < fuel by omega) (by omega)
    refine ⟨m', (if_neg (by rwa [hhead])).trans hloop, ⟨hx, ?_, hcopy⟩, fun y hy => ?_⟩
    · rw [honly (dst + i) (by omega), Function.update_self, hhead]
    · rw [List.length_cons] at hy
      rw [honly y (by omega), Function.update_of_ne (by omega)]

/-- **Copying into the string that is read** never comes to its end. -/
theorem strcpyLoop_overlap {d : Nat} (hd : 0 < d) (h : ∀ k < d + i, m (src + k) ≠ 0) :
    strcpyLoop (src + d) src fuel i m = none := by
  induction fuel generalizing i m with
  | zero => rfl
  | succ fuel ih =>
    rw [strcpyLoop, if_neg (h i (by omega))]
    refine ih fun k hk => ?_
    by_cases hlast : k = d + i
    · rw [hlast, ← Nat.add_assoc, Function.update_self]
      exact h i (by omega)
    · rw [Function.update_of_ne (by omega)]
      exact h k (by omega)

/-- **`strcpy`** comes to an end if and only if the destination is not inside of the source, and
then it has copied the string and changed nothing else. -/
theorem strcpy_iff (hs : CStr m src s) :
    if dst ≤ src ∨ src + s.length < dst then
      ∀ fuel, s.length < fuel → ∃ m', strcpy fuel m dst src = some (dst, m') ∧ CStr m' dst s ∧
        OnlyIn m m' dst (dst + s.length + 1)
    else ∀ fuel, strcpy fuel m dst src = none := by
  by_cases h : dst ≤ src ∨ src + s.length < dst
  · rw [if_pos h]
    intro fuel hfuel
    obtain ⟨m', hloop, hcopy⟩ := strcpyLoop_apart (i := 0) hs hfuel h
    exact ⟨m', congrArg (Option.map (dst, ·)) hloop, hcopy⟩
  · rw [if_neg h]
    intro fuel
    obtain ⟨d, rfl⟩ : ∃ d, dst = src + d := ⟨dst - src, by omega⟩
    rw [strcpy, strcpyLoop_overlap (by omega) fun k hk => hs.ne_zero (by omega)]
    rfl

/-- `"ab"` at 16. -/
def sampleMem : Mem := fun x => if x = 16 then 97 else if x = 17 then 98 else 0

theorem sampleMem_cstr : CStr sampleMem 16 [97, 98] := by
  refine ⟨by decide, rfl, by decide, rfl, rfl⟩

/-- Copied onto its second character, the string has no end. -/
theorem strcpy_iff_sample : strcpy 1000000 sampleMem 17 16 = none := by
  have hspec := @strcpy_iff sampleMem 17 16 [97, 98] sampleMem_cstr
  rw [if_neg (by decide)] at hspec
  exact hspec 1000000

/-- **`strcat`** comes to an end if and only if the end of the first string is not inside of the
second one; in particular, it never does when a string is put behind itself. -/
theorem strcat_iff (hs : CStr m dst s) (ht : CStr m src t) :
    if dst + s.length ≤ src ∨ src + t.length < dst + s.length then
      ∀ fuel, s.length < fuel → t.length < fuel → ∃ m', strcat fuel m dst src = some (dst, m') ∧
        CStr m' dst (s ++ t) ∧ OnlyIn m m' (dst + s.length) (dst + s.length + t.length + 1)
    else ∀ fuel, strcat fuel m dst src = none := by
  have hlen : ∀ fuel, s.length < fuel → strlen fuel m dst = some s.length := by
    intro fuel hfuel
    rw [strlen, strlenLoop_eq (i := 0) hs hfuel, Nat.zero_add]
  by_cases h : dst + s.length ≤ src ∨ src + t.length < dst + s.length
  · rw [if_pos h]
    intro fuel hfuel hfuel'
    obtain ⟨m', hloop, hcopy, honly⟩ := strcpyLoop_apart (i := 0) ht hfuel' h
    refine ⟨m', ?_, hs.append (honly.same (.inl (Nat.le_refl _))) hcopy, honly⟩
    rw [strcat, hlen fuel hfuel, Option.bind_eq_bind, Option.bind_some, hloop]
    rfl
  · rw [if_neg h]
    intro fuel
    obtain ⟨d, hd⟩ : ∃ d, dst + s.length = src + d := ⟨dst + s.length - src, by omega⟩
    by_cases hfuel : s.length < fuel
    · rw [strcat, hlen fuel hfuel, Option.bind_eq_bind, Option.bind_some, hd,
        strcpyLoop_overlap (by omega) fun k hk => ht.ne_zero (by omega)]
      rfl
    · -- not even the length is found
      have hnone : strlen fuel m dst = none := strlenLoop_none hs (by omega)
      rw [strcat, hnone]
      rfl

/-- A string is put behind itself. -/
theorem strcat_iff_sample : strcat 1000000 sampleMem 16 16 = none := by
  have hspec := strcat_iff sampleMem_cstr sampleMem_cstr
  rw [if_neg (by decide)] at hspec
  exact hspec 1000000

-- ---------------------------------------------------------------------------
-- Comparing
-- ---------------------------------------------------------------------------

/-- **`strcmp`** orders strings by their first difference, as unsigned bytes. -/
theorem strcmp_order {p q : Nat} (hs : CStr m p s) (ht : CStr m q t) (hfuel : s.length < fuel) :
    ∃ r, strcmp m fuel p q = some r ∧ (r < 0 ↔ s < t) ∧ (r = 0 ↔ s = t) := by
  induction s generalizing t p q fuel with
  | nil =>
    obtain ⟨fuel, rfl⟩ := Nat.exists_eq_succ_of_ne_zero (Nat.ne_of_gt hfuel)
    have hp : m p = 0 := hs
    refine ⟨_, if_neg fun h => h.1 hp, ?_⟩
    rw [hp]
    cases t with
    | nil =>
      have hq : m q = 0 := ht
      rw [hq]
      exact ⟨⟨fun h => absurd h (by decide), fun h => absurd h (List.not_lt_nil _)⟩,
        ⟨fun _ => rfl, fun _ => by decide⟩⟩
    | cons y t =>
      obtain ⟨hy, hq, -⟩ := ht
      have hpos : 0 < y.toNat := Nat.pos_of_ne_zero fun h => hy (UInt8.toNat_inj.1 h)
      rw [hq, UInt8.toNat_zero]
      exact ⟨⟨fun _ => List.nil_lt_cons y t, fun _ => by omega⟩,
        ⟨fun h => absurd h (by omega), fun h => by cases h⟩⟩
  | cons x s ih =>
    obtain ⟨hx, hp, hs⟩ := hs
    rw [List.length_cons] at hfuel
    obtain ⟨fuel, rfl⟩ := Nat.exists_eq_succ_of_ne_zero (show fuel ≠ 0 by omega)
    cases t with
    | nil =>
      have hq : m q = 0 := ht
      have hpos : 0 < x.toNat := Nat.pos_of_ne_zero fun h => hx (UInt8.toNat_inj.1 h)
      refine ⟨_, if_neg fun h => hx (hp ▸ h.2.trans hq), ?_⟩
      rw [hp, hq, UInt8.toNat_zero]
      exact ⟨⟨fun h => absurd h (by omega), fun h => absurd h (List.not_lt_nil _)⟩,
        ⟨fun h => absurd h (by omega), fun h => by cases h⟩⟩
    | cons y t =>
      obtain ⟨hy, hq, ht⟩ := ht
      by_cases hxy : x = y
      · subst hxy
        obtain ⟨r, hr, hlt, heq⟩ := ih hs ht (show s.length < fuel by omega)
        refine ⟨r, (if_pos ⟨by rwa [hp], hp.trans hq.symm⟩).trans hr, ?_, ?_⟩
        · rw [hlt, List.cons_lt_cons_iff]
          exact ⟨fun h => .inr ⟨rfl, h⟩, fun h => h.elim (fun h => absurd h (UInt8.lt_irrefl x))
            And.right⟩
        · rw [heq, List.cons.injEq]
          exact ⟨fun h => ⟨rfl, h⟩, And.right⟩
      · have hne : x.toNat ≠ y.toNat := fun h => hxy (UInt8.toNat_inj.1 h)
        refine ⟨_, if_neg fun h => hxy (hp ▸ h.2.trans hq), ?_⟩
        rw [hp, hq, List.cons_lt_cons_iff, List.cons.injEq, UInt8.lt_iff_toNat_lt]
        exact ⟨⟨fun h => .inl (by omega), fun h => h.elim (fun h => by omega)
          fun h => absurd h.1 hxy⟩, ⟨fun h => absurd h (by omega), fun h => absurd h.1 hxy⟩⟩

theorem strcmp_order_sample : ∃ r, strcmp sampleMem 3 16 17 = some r ∧ r < 0 := by
  have hb : CStr sampleMem 17 [98] := ⟨by decide, rfl, rfl⟩
  obtain ⟨r, hr, hlt, -⟩ := strcmp_order sampleMem_cstr hb (show 2 < 3 by decide)
  exact ⟨r, hr, hlt.2 (by decide)⟩

theorem memcmpLoop_order (m : Mem) (p q n : Nat) :
    (memcmpLoop m n p q = -1 ↔ bytes m p n < bytes m q n) ∧
      (memcmpLoop m n p q = 0 ↔ bytes m p n = bytes m q n) ∧
      (memcmpLoop m n p q = 1 ↔ bytes m q n < bytes m p n) := by
  induction n generalizing p q with
  | zero =>
    rw [memcmpLoop, bytes, bytes]
    exact ⟨⟨fun h => absurd h (by decide), fun h => absurd h (List.not_lt_nil _)⟩,
      ⟨fun _ => rfl, fun _ => rfl⟩,
      ⟨fun h => absurd h (by decide), fun h => absurd h (List.not_lt_nil _)⟩⟩
  | succ n ih =>
    rw [memcmpLoop, bytes, bytes, List.cons_lt_cons_iff, List.cons_lt_cons_iff, List.cons.injEq]
    by_cases heq : m p = m q
    · obtain ⟨hlt, hsame, hgt⟩ := ih (p + 1) (q + 1)
      rw [if_neg (not_not.2 heq), hlt, hsame, hgt, heq]
      have hirrefl := UInt8.lt_irrefl (m q)
      refine ⟨⟨fun h => .inr ⟨rfl, h⟩, fun h => ?_⟩, ⟨fun h => ⟨rfl, h⟩, And.right⟩,
        ⟨fun h => .inr ⟨rfl, h⟩, fun h => ?_⟩⟩
      · exact h.elim (fun h => absurd h hirrefl) And.right
      · exact h.elim (fun h => absurd h hirrefl) And.right
    · have hne : (m p).toNat ≠ (m q).toNat := fun h => heq (UInt8.toNat_inj.1 h)
      have hiff : m p < m q ↔ (m p).toNat < (m q).toNat := UInt8.lt_iff_toNat_lt
      have hiff' : m q < m p ↔ (m q).toNat < (m p).toNat := UInt8.lt_iff_toNat_lt
      rw [if_pos heq]
      by_cases hlt : m p < m q
      · have hnot : ¬ m q < m p := fun h => by
          have hless := hiff.1 hlt
          have hmore := hiff'.1 h
          omega
        rw [if_pos hlt]
        exact ⟨⟨fun _ => .inl hlt, fun _ => rfl⟩,
          ⟨fun h => absurd h (by decide), fun h => absurd h.1 heq⟩,
          ⟨fun h => absurd h (by decide), fun h => h.elim (fun h => absurd h hnot)
            fun h => absurd h.1.symm heq⟩⟩
      · have hgt : m q < m p := hiff'.2 (by
          have hle := mt hiff.2 hlt
          omega)
        rw [if_neg hlt]
        exact ⟨⟨fun h => absurd h (by decide), fun h => h.elim (fun h => absurd h hlt)
            fun h => absurd h.1 heq⟩,
          ⟨fun h => absurd h (by decide), fun h => absurd h.1 heq⟩,
          ⟨fun _ => .inl hgt, fun _ => rfl⟩⟩

/-- **`memcmp`** orders blocks of bytes lexicographically. -/
theorem memcmp_order (m : Mem) (p q n : Nat) :
    (memcmp m p q n = -1 ↔ bytes m p n < bytes m q n) ∧
      (memcmp m p q n = 0 ↔ bytes m p n = bytes m q n) ∧
      (memcmp m p q n = 1 ↔ bytes m q n < bytes m p n) := by
  have hloop := memcmpLoop_order m p q n
  by_cases heq : p = q
  · subst heq
    have hzero : memcmpLoop m n p p = 0 := hloop.2.1.2 rfl
    rw [hzero] at hloop
    rw [memcmp, if_pos rfl]
    exact hloop
  · rw [memcmp, if_neg heq]
    exact hloop

-- ---------------------------------------------------------------------------
-- Copying blocks
-- ---------------------------------------------------------------------------

/-- What `memcpy` puts behind `out`: a destination that starts inside of the source gets the bytes
in front of it again and again. -/
def copied (m : Mem) (out inp j : Nat) : UInt8 :=
  if inp < out then m (inp + j % (out - inp)) else m (inp + j)

theorem memcpyLoop_spec {m₀ : Mem} (out inp k : Nat)
    (hdone : ∀ j < i, m (out + j) = copied m₀ out inp j)
    (hrest : ∀ x, x < out ∨ out + i ≤ x → m x = m₀ x) :
    (∀ j < i + k, memcpyLoop out inp k i m (out + j) = copied m₀ out inp j) ∧
      OnlyIn m₀ (memcpyLoop out inp k i m) out (out + (i + k)) := by
  induction k generalizing i m with
  | zero => exact ⟨hdone, fun x hx => hrest x (by omega)⟩
  | succ k ih =>
    have hbyte : m (inp + i) = copied m₀ out inp i := by
      by_cases hlt : inp < out
      · rw [copied, if_pos hlt]
        by_cases hi : i < out - inp
        · rw [Nat.mod_eq_of_lt hi, hrest _ (by omega)]
        · -- the byte has been written to in this very loop
          have hback : inp + i = out + (i - (out - inp)) := by omega
          have hmod : i % (out - inp) = (i - (out - inp)) % (out - inp) :=
            Nat.mod_eq_sub_mod (Nat.le_of_not_lt hi)
          rw [hback, hdone _ (by omega), copied, if_pos hlt, hmod]
      · rw [copied, if_neg hlt, hrest _ (by omega)]
    obtain ⟨hall, honly⟩ := @ih (Function.update m (out + i) (m (inp + i))) (i + 1)
      (fun j hj => by
        by_cases hlast : j = i
        · rw [hlast, Function.update_self, hbyte]
        · rw [Function.update_of_ne (by omega), hdone j (by omega)])
      (fun x hx => by rw [Function.update_of_ne (by omega), hrest x (by omega)])
    rw [Nat.add_right_comm] at hall honly
    exact ⟨hall, honly⟩

/-- **`memcpy`**, also where the blocks overlap. -/
theorem memcpy_forward (m : Mem) (out inp : Nat) (hn : n < 2 ^ 31) :
    ∃ m', memcpy m out inp n = some (out, m') ∧
      (∀ j < n, m' (out + j) = copied m out inp j) ∧ OnlyIn m m' out (out + n) := by
  obtain ⟨hall, honly⟩ := memcpyLoop_spec (i := 0) out inp n
    (fun j hj => absurd hj (Nat.not_lt_zero j)) fun (x : Nat) _ => (rfl : m x = m x)
  rw [Nat.zero_add] at hall honly
  exact ⟨_, if_pos hn, hall, honly⟩

/-- The bytes `ab` fill the next four. -/
theorem memcpy_forward_sample : ∃ m', memcpy sampleMem 18 16 4 = some (18, m') ∧
    m' 20 = 97 ∧ m' 21 = 98 := by
  obtain ⟨m', hrun, hcopied, -⟩ := memcpy_forward sampleMem 18 16 (show 4 < 2 ^ 31 by decide)
  exact ⟨m', hrun, (hcopied 2 (by decide)).trans (by decide),
    (hcopied 3 (by decide)).trans (by decide)⟩

end MyOs.Klib
