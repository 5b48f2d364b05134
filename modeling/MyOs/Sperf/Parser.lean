import MyOs.Sperf.Definitions
import MyOs.Lib.Word

/-!
# sperf — the parser of the lines of strace

The model of `get_name` and `get_us` in `sperf/sperf.c`. A read outside of the line and a
write behind the end of a buffer are failures. A buffer is the list of what has been
written, so its length is the index of the next write; `pos` is an `int`, which takes a
length modulo `2 ^ 32` and wraps around.

* `nameLoop_eq`, `getName_eq` — the name is what stands before the first `(`.
* `ltScan_pass`, `ltScan_stop` — the scan for the `<` passes other characters and stops at one.
* `usLoop_eq`, `usLoop_wraps`, `usLoop_of_neg` — the copy behind it, whose index may wrap around.
-/

namespace MyOs.Sperf

open MyOs.Word

-- ---------------------------------------------------------------------------
-- Reads and writes
-- ---------------------------------------------------------------------------

/-- `NAME_SZ`. -/
def nameSz : Nat := 100

/-- `sizeof(us)`. -/
def usSz : Nat := 512

inductive ParseFault
  | lineRange
  | nameRange
  | usRange
  deriving DecidableEq, Repr

abbrev ParseResult := Except ParseFault

def Name.strlen (line : Name) : Nat := line.chars.length

/-- `line[i]`. -/
def Name.read (line : Name) (i : Int) : ParseResult UInt8 :=
  if 0 ≤ i ∧ i ≤ line.strlen then .ok (line.chars.getD i.toNat 0) else .error .lineRange

/-- The next index of a buffer of `sz` characters is inside of it. -/
def storable (sz : Nat) (e : ParseFault) (buf : List UInt8) : ParseResult Unit :=
  if buf.length < sz then .ok () else .error e

/-- The conversion to `size_t`. -/
def toSize (x : Int) : Nat := (x % 2 ^ 64).toNat

-- ---------------------------------------------------------------------------
-- `get_name`
-- ---------------------------------------------------------------------------

/-- The loop of `get_name`; `len` is the length of `name`. -/
def nameLoop (line : Name) (name : List UInt8) : ParseResult (List UInt8) :=
  if _h : name.length < line.strlen ∧ name.length < nameSz then do
    let c ← line.read name.length
    if c ≠ '('.toUInt8 then do
      storable nameSz .nameRange name
      nameLoop line (name ++ [c])
    else return name
  else return name
termination_by nameSz - name.length
decreasing_by
  rw [List.length_append, List.length_singleton]
  omega

/-- `get_name`: the string in `name`, or `none` for `-1`. -/
def getName (line : Name) : ParseResult (Option (List UInt8)) := do
  let name ← nameLoop line []
  if name.length = line.strlen ∨ name.length = nameSz then return none else do
    storable nameSz .nameRange name
    return some name

-- ---------------------------------------------------------------------------
-- `get_us`
-- ---------------------------------------------------------------------------

/-- The loop that looks for the last `<`, from `pos` down. -/
def ltScan (line : Name) (pos : Int) : ParseResult Int :=
  if _h : 0 ≤ pos then do
    let c ← line.read pos
    if c ≠ '<'.toUInt8 then ltScan line (pos - 1) else return pos
  else return pos
termination_by (pos + 1).toNat

/-- The loop that copies up to the `>`; `i` is the length of `us`. -/
def usLoop (line : Name) (pos : Int) (us : List UInt8) : ParseResult (Int × List UInt8) :=
  if _h : toSize pos < line.strlen ∧ us.length < usSz then do
    let c ← line.read pos
    if c ≠ '>'.toUInt8 then do
      storable usSz .usRange us
      usLoop line (toI32 (pos + 1)) (us ++ [c])
    else return (pos, us)
  else return (pos, us)
termination_by usSz - us.length
decreasing_by
  rw [List.length_append, List.length_singleton]
  omega

/-- `get_us`: the text that it passes to `atof`, or `none` when it returns 0 without. -/
def getUs (line : Name) : ParseResult (Option (List UInt8)) := do
  let pos ← ltScan line (toI32 (line.strlen - 1))
  let c ← line.read pos
  if c ≠ '<'.toUInt8 then return none else do
    let (pos, us) ← usLoop line (toI32 (pos + 1)) []
    let c ← line.read pos
    if c ≠ '>'.toUInt8 ∨ us.length = usSz then return none else do
      storable usSz .usRange us
      return some us

variable {line : Name} {pre post rest name us : List UInt8} {c : UInt8} {pos : Int}

theorem storable_of_lt {sz : Nat} {e : ParseFault} {buf : List UInt8} (h : buf.length < sz) :
    storable sz e buf = .ok () := if_pos h

theorem strlen_of_split (h : line.chars = pre ++ c :: post) :
    line.strlen = pre.length + post.length + 1 := by
  unfold Name.strlen
  rw [h, List.length_append, List.length_cons, ← Nat.add_assoc]

theorem read_of_split (h : line.chars = pre ++ c :: post) : line.read pre.length = .ok c := by
  have hlen := strlen_of_split h
  unfold Name.read
  rw [if_pos ⟨Int.natCast_nonneg _, by omega⟩, h]
  simp

theorem read_end (line : Name) : line.read line.strlen = .ok 0 := by
  unfold Name.read
  rw [if_pos ⟨Int.natCast_nonneg _, le_rfl⟩]
  simp [Name.strlen]

theorem read_of_neg (h : pos < 0) : line.read pos = .error .lineRange :=
  if_neg fun hrange => absurd hrange.1 (Int.not_le.2 h)

-- ---------------------------------------------------------------------------
-- The name
-- ---------------------------------------------------------------------------

/-- **The loop of `get_name`** stops at a `(`, at the end of the line, or at the end of `name`. -/
theorem nameLoop_eq (h : line.chars = name ++ rest) (hle : name.length ≤ nameSz) :
    nameLoop line name =
      .ok (name ++ (rest.take (nameSz - name.length)).takeWhile (· ≠ '('.toUInt8)) := by
  induction rest generalizing name with
  | nil =>
    have hend : ¬ (name.length < line.strlen ∧ name.length < nameSz) := by
      unfold Name.strlen
      rw [h, List.append_nil]
      exact fun hlt => absurd hlt.1 (Nat.lt_irrefl _)
    rw [nameLoop, dif_neg hend]
    simp
  | cons c rest ih =>
    by_cases hroom : name.length < nameSz
    · have hin : name.length < line.strlen := by
        have hstrlen := strlen_of_split h
        omega
      obtain ⟨d, hd⟩ : ∃ d, nameSz - name.length = d + 1 := ⟨nameSz - name.length - 1, by omega⟩
      rw [nameLoop, dif_pos ⟨hin, hroom⟩, read_of_split h, ok_bind, hd, List.take_succ_cons]
      by_cases hc : c ≠ '('.toUInt8
      · have hlen : (name ++ [c]).length = name.length + 1 := List.length_append
        have hd' : nameSz - (name ++ [c]).length = d := by omega
        have hsplit : line.chars = (name ++ [c]) ++ rest := by rw [h, List.append_cons]
        rw [if_pos hc, storable_of_lt hroom, ok_bind, ih hsplit (by omega), hd',
          List.takeWhile_cons_of_pos (by simpa using hc), List.append_assoc,
          List.singleton_append]
      · rw [if_neg hc, List.takeWhile_cons_of_neg (by simpa using hc), List.append_nil]
        rfl
    · rw [nameLoop, dif_neg fun hlt => hroom hlt.2, Nat.sub_eq_zero_of_le (Nat.le_of_not_lt hroom)]
      simp

/-- The name of the call in a line: what stands before the first `(`. -/
def callName (line : Name) : Option (List UInt8) :=
  let name := line.chars.takeWhile (· ≠ '('.toUInt8)
  if name.length < line.strlen ∧ name.length < nameSz then some name else none

/-- **`get_name`.** -/
theorem getName_eq (line : Name) : getName line = .ok (callName line) := by
  obtain ⟨t, ht⟩ : ∃ t, t = line.chars.takeWhile (· ≠ '('.toUInt8) := ⟨_, rfl⟩
  have hle : t.length ≤ line.strlen := by
    rw [ht]
    exact (List.takeWhile_prefix _).length_le
  have hloop : nameLoop line [] = .ok (t.take nameSz) := by
    rw [nameLoop_eq (List.nil_append _).symm (Nat.zero_le _), ht, List.take_takeWhile]
    rfl
  unfold getName callName
  rw [hloop, ok_bind, ← ht, List.length_take]
  dsimp only
  by_cases hroom : t.length < nameSz
  · rw [Nat.min_eq_right hroom.le, List.take_of_length_le hroom.le]
    by_cases hend : t.length = line.strlen
    · rw [if_pos (.inl hend), if_neg fun h => absurd hend h.1.ne]
      rfl
    · rw [if_neg (not_or.2 ⟨hend, hroom.ne⟩), if_pos ⟨Nat.lt_of_le_of_ne hle hend, hroom⟩,
        storable_of_lt hroom]
      rfl
  · rw [Nat.min_eq_left (Nat.le_of_not_lt hroom), if_pos (.inr rfl), if_neg fun h => hroom h.2]
    rfl

-- ---------------------------------------------------------------------------
-- The scan for the last `<`
-- ---------------------------------------------------------------------------

theorem ltScan_of_neg (h : pos < 0) : ltScan line pos = .ok pos := by
  rw [ltScan, dif_neg (Int.not_le.2 h)]
  rfl

/-- **The scan** passes over what is not a `<`, from its last character down. -/
theorem ltScan_pass (pre mid post : List UInt8) (h : line.chars = pre ++ mid ++ post)
    (hmid : '<'.toUInt8 ∉ mid) :
    ltScan line (pre.length + mid.length - 1) = ltScan line (pre.length - 1) := by
  induction mid using List.reverseRecOn generalizing post with
  | nil => simp
  | append_singleton mid c ih =>
    have hc : c ≠ '<'.toUInt8 := fun heq => hmid (by simp [heq])
    have hpos : (pre.length : Int) + (mid ++ [c]).length - 1 = (pre ++ mid).length := by
      rw [List.length_append, List.length_append, List.length_singleton]
      omega
    have hsplit : line.chars = (pre ++ mid) ++ c :: post := by simpa using h
    rw [hpos, ltScan, dif_pos (Int.natCast_nonneg _), read_of_split hsplit, ok_bind, if_pos hc,
      List.length_append, Int.natCast_add]
    exact ih (c :: post) (by simpa using h) fun hmem => hmid (List.mem_append_left _ hmem)

/-- The scan stops at a `<`. -/
theorem ltScan_stop (h : line.chars = pre ++ '<'.toUInt8 :: post) :
    ltScan line pre.length = .ok pre.length := by
  rw [ltScan, dif_pos (Int.natCast_nonneg _), read_of_split h, ok_bind, if_neg (by simp)]
  rfl

-- ---------------------------------------------------------------------------
-- The copy up to the `>`
-- ---------------------------------------------------------------------------

theorem toSize_natCast {n : Nat} (h : n < 2 ^ 31) : toSize n = n := by
  unfold toSize
  omega

/-- The characters that the copy takes. -/
def usSpan (us rest : List UInt8) : List UInt8 :=
  (rest.take (usSz - us.length)).takeWhile (· ≠ '>'.toUInt8)

theorem usSpan_pass (hroom : us.length < usSz) (hc : c ≠ '>'.toUInt8) :
    usSpan us (c :: rest) = c :: usSpan (us ++ [c]) rest := by
  obtain ⟨d, hd⟩ : ∃ d, usSz - us.length = d + 1 := ⟨usSz - us.length - 1, by omega⟩
  have hlen : (us ++ [c]).length = us.length + 1 := List.length_append
  unfold usSpan
  rw [hd, List.take_succ_cons, List.takeWhile_cons_of_pos (by simpa using hc),
    show usSz - (us ++ [c]).length = d by omega]

theorem usSpan_stop (h : ¬ us.length < usSz ∨ c = '>'.toUInt8) : usSpan us (c :: rest) = [] := by
  unfold usSpan
  rcases h with hfull | rfl
  · rw [Nat.sub_eq_zero_of_le (Nat.le_of_not_lt hfull), List.take_zero, List.takeWhile_nil]
  · cases usSz - us.length with
    | zero => rfl
    | succ d => simp

/-- One round of the copy. -/
theorem usLoop_pass (h : line.chars = pre ++ c :: rest) (hpos : pre.length < 2 ^ 31)
    (hroom : us.length < usSz) (hc : c ≠ '>'.toUInt8) :
    usLoop line pre.length us = usLoop line (toI32 ((pre ++ [c]).length : Nat)) (us ++ [c]) := by
  have hin : pre.length < line.strlen := by
    have hstrlen := strlen_of_split h
    omega
  rw [usLoop, dif_pos ⟨by rwa [toSize_natCast hpos], hroom⟩, read_of_split h, ok_bind, if_pos hc,
    storable_of_lt hroom, ok_bind, List.length_append, List.length_singleton, Int.natCast_add]
  rfl

/-- Behind the last round nothing changes. -/
theorem usLoop_stop (h : line.chars = pre ++ rest) (hpos : pre.length < 2 ^ 31)
    (hstop : usSpan us rest = []) : usLoop line pre.length us = .ok (pre.length, us) := by
  by_cases hin : pre.length < line.strlen ∧ us.length < usSz
  · rw [usLoop, dif_pos ⟨by rw [toSize_natCast hpos]; exact hin.1, hin.2⟩]
    match rest, h, hstop with
    | [], h, _ =>
      unfold Name.strlen at hin
      rw [h, List.append_nil] at hin
      exact absurd hin.1 (Nat.lt_irrefl _)
    | c :: rest, h, hstop =>
      have hc : ¬ c ≠ '>'.toUInt8 := fun hc => by
        rw [usSpan_pass hin.2 hc] at hstop
        cases hstop
      rw [read_of_split h, ok_bind, if_neg hc]
      rfl
  · rw [usLoop, dif_neg (by rwa [toSize_natCast hpos])]
    rfl

/-- A negative index ends the copy, or is read. -/
theorem usLoop_of_neg (h : pos < 0) :
    usLoop line pos us = .error .lineRange ∨ usLoop line pos us = .ok (pos, us) := by
  rw [usLoop]
  split
  · exact .inl (by rw [read_of_neg h, error_bind])
  · exact .inr rfl

/-- **The copy** takes its characters, as long as the index does not wrap around. -/
theorem usLoop_eq (h : line.chars = pre ++ rest)
    (hpos : pre.length + (usSpan us rest).length < 2 ^ 31) :
    usLoop line pre.length us =
      .ok ((pre.length + (usSpan us rest).length : Nat), us ++ usSpan us rest) := by
  induction rest generalizing pre us with
  | nil =>
    have hnil : usSpan us [] = [] := by simp [usSpan]
    rw [hnil] at hpos ⊢
    simpa using usLoop_stop h hpos hnil
  | cons c rest ih =>
    by_cases hpass : us.length < usSz ∧ c ≠ '>'.toUInt8
    · obtain ⟨hroom, hc⟩ := hpass
      have hlen : (pre ++ [c]).length = pre.length + 1 := List.length_append
      have hsplit : line.chars = (pre ++ [c]) ++ rest := by rw [h, List.append_cons]
      rw [usSpan_pass hroom hc, List.length_cons] at hpos ⊢
      rw [usLoop_pass h (by omega) hroom hc, toI32_eq rfl (by omega), ih hsplit (by omega), hlen,
        List.append_assoc, List.singleton_append, Nat.add_right_comm, ← Nat.add_assoc]
    · have hnil : usSpan us (c :: rest) = [] := usSpan_stop (by tauto)
      rw [hnil] at hpos ⊢
      simpa using usLoop_stop h hpos hnil

/-- An index that wraps around leaves the line. -/
theorem usLoop_wraps (h : line.chars = pre ++ rest) (hlt : pre.length < 2 ^ 31)
    (hpos : 2 ^ 31 ≤ pre.length + (usSpan us rest).length) :
    usLoop line pre.length us = .error .lineRange ∨
      ∃ pos us', pos < 0 ∧ usLoop line pre.length us = .ok (pos, us') := by
  induction rest generalizing pre us with
  | nil =>
    have hnil : usSpan us [] = [] := by simp [usSpan]
    rw [hnil] at hpos
    exact absurd hpos (Nat.not_le.2 hlt)
  | cons c rest ih =>
    by_cases hpass : us.length < usSz ∧ c ≠ '>'.toUInt8
    · obtain ⟨hroom, hc⟩ := hpass
      have hlen : (pre ++ [c]).length = pre.length + 1 := List.length_append
      have hsplit : line.chars = (pre ++ [c]) ++ rest := by rw [h, List.append_cons]
      rw [usSpan_pass hroom hc, List.length_cons] at hpos
      rw [usLoop_pass h hlt hroom hc]
      by_cases hlt' : (pre ++ [c]).length < 2 ^ 31
      · rw [toI32_eq rfl hlt']
        exact ih hsplit hlt' (by omega)
      · -- this round has made the index `2 ^ 31`
        have hneg : toI32 ((pre ++ [c]).length : Nat) < 0 := by
          rw [show (pre ++ [c]).length = 2 ^ 31 by omega]
          decide
        exact (usLoop_of_neg hneg).imp_right fun hend => ⟨_, _, hneg, hend⟩
    · rw [usSpan_stop (by tauto)] at hpos
      exact absurd hpos (Nat.not_le.2 hlt)

end MyOs.Sperf
