import MyOs.Lib.Split
import MyOs.Sperf.Parser

/-!
# sperf — the fields of a line

What the parser does with every line. `get_us` takes `strlen(line) - 1` as an `int` and
looks for a `<` from there down; when there is none, it still reads the character at the
index it has come to, which is in front of the line. So the condition for its safety is
that the scan stops at a `<`, and for the right time that this is the `<` of the time. A
line that is shorter than `2 ^ 31` is scanned from its end, so there the first one just
says that it contains a `<`, and the second one always holds.

* `getUs_eq`, `getUs_fails` — what `get_us` does.
* `scannable_iff_of_short` — short lines.
* `parser_safe_iff` — **the parser stays inside of its buffers exactly when the scan stops**.
* `parser_right_iff` — **the fields are the right ones exactly when it stops in front of the
  time**.
-/

namespace MyOs.Sperf

open MyOs.Split MyOs.Word

variable {line : Name} {pre post pre' post' : List UInt8}

-- ---------------------------------------------------------------------------
-- Where the scan stops
-- ---------------------------------------------------------------------------

/-- The index at which the scan for the `<` starts. -/
def usStart (line : Name) : Int := toI32 (line.strlen - 1)

/-- The scan stops at the `<` between `pre` and `post`: it is the last one up to the start. -/
structure StopsAt (line : Name) (pre post : List UInt8) : Prop where
  split : line.chars = pre ++ '<'.toUInt8 :: post
  le : pre.length ≤ usStart line
  last : '<'.toUInt8 ∉ post.take (usStart line - pre.length).toNat

/-- The scan stops, and the index of the copy behind it does not wrap around. -/
def Scannable (line : Name) : Prop :=
  ∃ pre post, StopsAt line pre post ∧ pre.length + 1 + (usSpan [] post).length < 2 ^ 31

/-- The text in front of the first `>`, when there is one and the text fits into `us`. -/
def timeField (post : List UInt8) : Option (List UInt8) :=
  let t := post.takeWhile (· ≠ '>'.toUInt8)
  if '>'.toUInt8 ∈ post ∧ t.length < usSz then some t else none

/-- The start is inside of the line, or negative. -/
theorem usStart_lt (line : Name) : usStart line < line.strlen := by
  have hlo := le_toI32 (line.strlen - 1)
  have hhi := toI32_lt (line.strlen - 1)
  obtain ⟨k, hk⟩ := exists_toI32 (line.strlen - 1)
  unfold usStart
  omega

theorem usStart_of_short (h : line.strlen < 2 ^ 31) : usStart line = line.strlen - 1 :=
  toI32_of_int (by omega) (by omega)

theorem length_take_usStart {n : Nat} (h : usStart line + 1 = n) :
    (line.chars.take n).length = n := by
  have hlt := usStart_lt line
  unfold Name.strlen at hlt
  rw [List.length_take]
  omega

/-- **The scan** comes to the `<` at which it stops. -/
theorem StopsAt.ltScan_eq (h : StopsAt line pre post) :
    ltScan line (usStart line) = .ok pre.length := by
  have hlt := usStart_lt line
  have hle := h.le
  have hstrlen := strlen_of_split h.split
  obtain ⟨m, hm⟩ : ∃ m, m = (usStart line - pre.length).toNat := ⟨_, rfl⟩
  have hlen : (post.take m).length = m := by
    rw [List.length_take]
    omega
  have hsplit : line.chars = (pre ++ ['<'.toUInt8]) ++ post.take m ++ post.drop m := by
    rw [List.append_assoc, List.take_append_drop, List.append_assoc, List.singleton_append, h.split]
  have hpass := ltScan_pass _ _ _ hsplit (by rw [hm]; exact h.last)
  rw [List.length_append, List.length_singleton, hlen] at hpass
  rw [show usStart line = ((pre.length + 1 : Nat) : Int) + m - 1 by omega, hpass,
    show ((pre.length + 1 : Nat) : Int) - 1 = pre.length by omega]
  exact ltScan_stop h.split

/-- A `<` up to the start makes the scan stop. -/
theorem exists_stopsAt {n : Nat} (hn : usStart line + 1 = n)
    (hmem : '<'.toUInt8 ∈ line.chars.take n) : ∃ pre post, StopsAt line pre post := by
  have hlen := length_take_usStart hn
  obtain ⟨pre, mid, hsplit, hmid⟩ := exists_last_split hmem
  have hn' : n = pre.length + (mid.length + 1) := by
    rw [← hlen, hsplit, List.length_append, List.length_cons]
  have hchars : line.chars = pre ++ '<'.toUInt8 :: (mid ++ line.chars.drop n) := by
    rw [← List.cons_append, ← List.append_assoc, ← hsplit, List.take_append_drop]
  refine ⟨pre, _, hchars, by omega, ?_⟩
  rw [show (usStart line - pre.length).toNat = mid.length by omega, List.take_left]
  exact hmid

/-- Without one, the scan passes the start of the line. -/
theorem ltScan_passes (h : ∀ pre post, ¬ StopsAt line pre post) :
    ∃ pos, pos < 0 ∧ ltScan line (usStart line) = .ok pos := by
  rcases lt_or_ge (usStart line) 0 with hneg | hstart
  · exact ⟨_, hneg, ltScan_of_neg hneg⟩
  · obtain ⟨n, hn⟩ : ∃ n : Nat, usStart line + 1 = n := ⟨(usStart line + 1).toNat, by omega⟩
    have hmem : '<'.toUInt8 ∉ line.chars.take n := fun hmem => by
      obtain ⟨pre, post, hstop⟩ := exists_stopsAt hn hmem
      exact h pre post hstop
    have hchars : line.chars = [] ++ line.chars.take n ++ line.chars.drop n := by simp
    have hpass := ltScan_pass [] (line.chars.take n) (line.chars.drop n) hchars hmem
    rw [length_take_usStart hn, List.length_nil] at hpass
    refine ⟨-1, by decide, ?_⟩
    rw [show usStart line = ((0 : Nat) : Int) + n - 1 by omega, hpass]
    exact ltScan_of_neg (by decide)

-- ---------------------------------------------------------------------------
-- `get_us`
-- ---------------------------------------------------------------------------

theorem usSpan_nil (post : List UInt8) :
    usSpan [] post = (post.takeWhile (· ≠ '>'.toUInt8)).take usSz :=
  List.take_takeWhile.symm

/-- What is read behind the copy. -/
theorem read_behind (h : line.chars = pre ++ '<'.toUInt8 :: post) :
    ∃ c, line.read (pre.length + 1 + (usSpan [] post).length : Nat) = .ok c ∧
      ((c ≠ '>'.toUInt8 ∨ (usSpan [] post).length = usSz) ↔
        ¬ ('>'.toUInt8 ∈ post ∧ (post.takeWhile (· ≠ '>'.toUInt8)).length < usSz)) := by
  obtain ⟨t, ht⟩ : ∃ t, t = post.takeWhile (· ≠ '>'.toUInt8) := ⟨_, rfl⟩
  have hspan : usSpan [] post = t.take usSz := by rw [usSpan_nil, ht]
  rw [hspan, ← ht]
  by_cases hroom : t.length < usSz
  · rw [List.take_of_length_le hroom.le]
    by_cases hmem : '>'.toUInt8 ∈ post
    · obtain ⟨rest, hpost⟩ := takeWhile_of_mem hmem
      rw [← ht] at hpost
      have hsplit : line.chars = (pre ++ '<'.toUInt8 :: t) ++ '>'.toUInt8 :: rest := by
        rw [h, List.append_assoc, List.cons_append, ← hpost]
      have hlen : (pre ++ '<'.toUInt8 :: t).length = pre.length + 1 + t.length := by
        rw [List.length_append, List.length_cons]
        omega
      refine ⟨_, by rw [← hlen]; exact read_of_split hsplit, ?_⟩
      simp [hmem, hroom, hroom.ne]
    · -- the copy has come to the end of the line
      have hend : pre.length + 1 + t.length = line.strlen := by
        rw [ht, takeWhile_of_not_mem hmem, strlen_of_split h]
        omega
      exact ⟨0, by rw [hend]; exact read_end line,
        iff_of_true (.inl (by decide)) fun h => hmem h.1⟩
  · have hfull : (t.take usSz).length = usSz := by
      rw [List.length_take]
      omega
    have hle : t.length ≤ post.length := by
      rw [ht]
      exact (List.takeWhile_prefix _).length_le
    have hin : pre.length + 1 + usSz ≤ line.strlen := by
      rw [strlen_of_split h]
      omega
    rw [hfull]
    exact ⟨_, if_pos ⟨Int.natCast_nonneg _, by omega⟩, iff_of_true (.inr rfl) fun h => hroom h.2⟩

/-- **`get_us`** behind a scan that stops. -/
theorem getUs_eq (h : StopsAt line pre post)
    (hlt : pre.length + 1 + (usSpan [] post).length < 2 ^ 31) :
    getUs line = .ok (timeField post) := by
  have hsplit : line.chars = (pre ++ ['<'.toUInt8]) ++ post := by simp [h.split]
  have hlen : (pre ++ ['<'.toUInt8]).length = pre.length + 1 := List.length_append
  have hcopy := usLoop_eq hsplit
    (show (pre ++ ['<'.toUInt8]).length + (usSpan [] post).length < 2 ^ 31 by omega)
  obtain ⟨c, hread, hc⟩ := read_behind h.split
  rw [hlen, List.nil_append] at hcopy
  have hnext : toI32 (pre.length + 1) = (pre.length + 1 : Nat) := toI32_eq rfl (by omega)
  have hstart : ltScan line (toI32 (line.strlen - 1)) = .ok (pre.length : Int) := h.ltScan_eq
  unfold getUs timeField
  rw [hstart, ok_bind, read_of_split h.split, ok_bind, if_neg (by simp), hnext, hcopy, ok_bind]
  dsimp only
  rw [hread, ok_bind]
  by_cases hfield : '>'.toUInt8 ∈ post ∧ (post.takeWhile (· ≠ '>'.toUInt8)).length < usSz
  · have hspan : usSpan [] post = post.takeWhile (· ≠ '>'.toUInt8) := by
      rw [usSpan_nil, List.take_of_length_le hfield.2.le]
    rw [if_neg fun h => hc.1 h hfield, if_pos hfield, hspan, storable_of_lt hfield.2]
    rfl
  · rw [if_pos (hc.2 hfield), if_neg hfield]
    rfl

/-- **`get_us`** behind a scan that does not stop reads outside of the line. -/
theorem getUs_fails (h : ¬ Scannable line) : getUs line = .error .lineRange := by
  unfold getUs
  by_cases hstop : ∃ pre post, StopsAt line pre post
  · obtain ⟨pre, post, hstop⟩ := hstop
    have hsplit : line.chars = (pre ++ ['<'.toUInt8]) ++ post := by simp [hstop.split]
    have hlen : (pre ++ ['<'.toUInt8]).length = pre.length + 1 := List.length_append
    have hwraps : 2 ^ 31 ≤ pre.length + 1 + (usSpan [] post).length :=
      Nat.le_of_not_lt fun hlt => h ⟨pre, post, hstop, hlt⟩
    have hstart : ltScan line (toI32 (line.strlen - 1)) = .ok (pre.length : Int) := hstop.ltScan_eq
    rw [hstart, ok_bind, read_of_split hstop.split, ok_bind, if_neg (by simp)]
    -- the copy starts behind the `<`, with an index that may have wrapped around already
    have hcopy : usLoop line (toI32 (pre.length + 1)) [] = .error .lineRange ∨
        ∃ pos us, pos < 0 ∧ usLoop line (toI32 (pre.length + 1)) [] = .ok (pos, us) := by
      by_cases hlt : pre.length + 1 < 2 ^ 31
      · have hnext : toI32 (pre.length + 1) = (pre.length + 1 : Nat) := toI32_eq rfl hlt
        rw [hnext, ← hlen]
        exact usLoop_wraps hsplit (by omega) (by omega)
      · have hle := hstop.le
        have hhi := toI32_lt (line.strlen - 1)
        have hneg : toI32 (pre.length + 1) < 0 := by
          unfold usStart at hle
          rw [show (pre.length : Int) + 1 = 2 ^ 31 by omega]
          decide
        exact (usLoop_of_neg hneg).imp_right fun hend => ⟨_, _, hneg, hend⟩
    rcases hcopy with herr | ⟨pos, us, hneg, hend⟩
    · rw [herr, error_bind]
    · rw [hend, ok_bind]
      dsimp only
      rw [read_of_neg hneg, error_bind]
  · obtain ⟨pos, hneg, hscan⟩ := ltScan_passes fun pre post h => hstop ⟨pre, post, h⟩
    have hstart : ltScan line (toI32 (line.strlen - 1)) = .ok pos := hscan
    rw [hstart, ok_bind, read_of_neg hneg, error_bind]

-- ---------------------------------------------------------------------------
-- Short lines
-- ---------------------------------------------------------------------------

/-- A line shorter than `2 ^ 31` is scanned from its end. -/
theorem stopsAt_of_short (h : line.strlen < 2 ^ 31)
    (hsplit : line.chars = pre ++ '<'.toUInt8 :: post) (hlast : '<'.toUInt8 ∉ post) :
    StopsAt line pre post := by
  have hstart := usStart_of_short h
  have hstrlen := strlen_of_split hsplit
  exact ⟨hsplit, by omega, fun hmem => hlast (List.mem_of_mem_take hmem)⟩

/-- The copy ends inside of the line. -/
theorem span_le (hsplit : line.chars = pre ++ '<'.toUInt8 :: post) :
    pre.length + 1 + (usSpan [] post).length ≤ line.strlen := by
  have hle : (usSpan [] post).length ≤ post.length := by
    rw [usSpan_nil, List.length_take]
    exact (Nat.min_le_right _ _).trans (List.takeWhile_prefix _).length_le
  have hstrlen := strlen_of_split hsplit
  omega

/-- **Short lines** are scannable when they contain a `<`. -/
theorem scannable_iff_of_short (h : line.strlen < 2 ^ 31) :
    Scannable line ↔ '<'.toUInt8 ∈ line.chars := by
  constructor
  · rintro ⟨pre, post, hstop, -⟩
    rw [hstop.split]
    exact List.mem_append_right _ List.mem_cons_self
  · intro hmem
    obtain ⟨pre, post, hsplit, hlast⟩ := exists_last_split hmem
    exact ⟨pre, post, stopsAt_of_short h hsplit hlast, (span_le hsplit).trans_lt h⟩

-- ---------------------------------------------------------------------------
-- Memory safety
-- ---------------------------------------------------------------------------

/-- No read leaves the line, and no write leaves a buffer. -/
def ParserSafe (line : Name) : Prop :=
  (∃ name, getName line = .ok name) ∧ ∃ us, getUs line = .ok us

/-- **The parser is memory safe** exactly when the scan for the `<` stops. -/
theorem parser_safe_iff (line : Name) : ParserSafe line ↔ Scannable line := by
  constructor
  · rintro ⟨-, us, hus⟩
    by_contra hnot
    rw [getUs_fails hnot] at hus
    cases hus
  · rintro ⟨pre, post, hstop, hlt⟩
    exact ⟨⟨_, getName_eq line⟩, ⟨_, getUs_eq hstop hlt⟩⟩

/-- A line of strace without a time. -/
def exitLine : Name := ⟨"exit_group(0) = ?\n".toList.map Char.toUInt8, by decide⟩

/-- `exit_group(0) = ?` is read in front of its start. -/
theorem not_parser_safe : ¬ ∀ line, ParserSafe line := by
  intro hall
  have hnot : ¬ Scannable exitLine := fun hscan =>
    absurd ((scannable_iff_of_short (by decide)).1 hscan) (by decide)
  obtain ⟨-, us, hus⟩ := hall exitLine
  rw [getUs_fails hnot] at hus
  cases hus

-- ---------------------------------------------------------------------------
-- The right fields
-- ---------------------------------------------------------------------------

theorem timeField_eq_some_iff {t : List UInt8} : timeField post = some t ↔
    (∃ rest, post = t ++ '>'.toUInt8 :: rest) ∧ '>'.toUInt8 ∉ t ∧ t.length < usSz := by
  unfold timeField
  constructor
  · intro h
    obtain ⟨⟨hmem, hlt⟩, ht⟩ := Option.ite_none_right_eq_some.1 h
    obtain rfl := Option.some.inj ht
    exact ⟨takeWhile_of_mem hmem, not_mem_takeWhile, hlt⟩
  · rintro ⟨⟨rest, rfl⟩, hnot, hlt⟩
    simp only [takeWhile_split hnot]
    exact if_pos ⟨by simp, hlt⟩

/-- The name that `get_name` finds. -/
theorem callName_eq_some_iff {name : List UInt8} : callName line = some name ↔
    (∃ rest, line.chars = name ++ '('.toUInt8 :: rest) ∧ '('.toUInt8 ∉ name ∧
      name.length < nameSz := by
  unfold callName Name.strlen
  constructor
  · intro h
    obtain ⟨⟨hend, hlt⟩, hname⟩ := Option.ite_none_right_eq_some.1 h
    obtain rfl := Option.some.inj hname
    have hmem : '('.toUInt8 ∈ line.chars := by
      by_contra hnot
      rw [takeWhile_of_not_mem hnot] at hend
      exact absurd hend (Nat.lt_irrefl _)
    exact ⟨takeWhile_of_mem hmem, not_mem_takeWhile, hlt⟩
  · rintro ⟨⟨rest, hrest⟩, hnot, hlt⟩
    simp only [hrest, takeWhile_split hnot]
    exact if_pos ⟨by simp, hlt⟩

/-- `t` stands between the last `<` of the line and the first `>` behind it. -/
def Enclosed (line : Name) (t : List UInt8) : Prop :=
  ∃ pre post, line.chars = pre ++ '<'.toUInt8 :: post ∧ '<'.toUInt8 ∉ post ∧
    (∃ rest, post = t ++ '>'.toUInt8 :: rest) ∧ '>'.toUInt8 ∉ t

/-- The name is what stands before the first `(`, when that comes in time, and `atof` gets what
stands behind the last `<`, when it ends with a `>` in time. -/
structure FieldsRight (line : Name) : Prop where
  name_iff : (∃ name, getName line = .ok (some name)) ↔
    ∃ k, k < nameSz ∧ line.chars[k]? = some '('.toUInt8
  name_eq : ∀ name, getName line = .ok (some name) →
    ∃ k, k < nameSz ∧ line.chars[k]? = some '('.toUInt8 ∧
      (∀ j, j < k → line.chars[j]? ≠ some '('.toUInt8) ∧ name = line.chars.take k
  name_returns : ∃ r, getName line = .ok r
  us_some : ∀ t, Enclosed line t → t.length < usSz → getUs line = .ok (some t)
  us_none : (∀ t, Enclosed line t → usSz ≤ t.length) → getUs line = .ok none

/-- The scan stops, and behind the `<` stands the field that stands behind the last `<`. -/
def FieldReached (line : Name) : Prop :=
  ∃ pre post, StopsAt line pre post ∧ pre.length + 1 + (usSpan [] post).length < 2 ^ 31 ∧
    ∀ pre' post', line.chars = pre' ++ '<'.toUInt8 :: post' → '<'.toUInt8 ∉ post' →
      timeField post = timeField post'

/-- The name is always right. -/
theorem name_right (line : Name) :
    ((∃ name, getName line = .ok (some name)) ↔
      ∃ k, k < nameSz ∧ line.chars[k]? = some '('.toUInt8) ∧
    ∀ name, getName line = .ok (some name) →
      ∃ k, k < nameSz ∧ line.chars[k]? = some '('.toUInt8 ∧
        (∀ j, j < k → line.chars[j]? ≠ some '('.toUInt8) ∧ name = line.chars.take k := by
  have hfound : ∀ name, getName line = .ok (some name) →
      ∃ k, k < nameSz ∧ line.chars[k]? = some '('.toUInt8 ∧
        (∀ j, j < k → line.chars[j]? ≠ some '('.toUInt8) ∧ name = line.chars.take k := by
    intro name hname
    rw [getName_eq] at hname
    obtain ⟨⟨rest, hrest⟩, hnot, hlt⟩ := callName_eq_some_iff.1 (Except.ok.inj hname)
    rw [hrest]
    refine ⟨name.length, hlt, by simp, fun j hj hget => hnot ?_, by simp⟩
    rw [List.getElem?_append_left hj] at hget
    exact List.mem_of_getElem? hget
  refine ⟨⟨fun ⟨name, hname⟩ => ?_, fun ⟨k, hk, hget⟩ => ?_⟩, hfound⟩
  · obtain ⟨k, hk, hget, -⟩ := hfound name hname
    exact ⟨k, hk, hget⟩
  · obtain ⟨name, rest, hrest, hnot⟩ := List.eq_append_cons_of_mem (List.mem_of_getElem? hget)
    have hle : name.length ≤ k := by
      by_contra hlt
      rw [hrest, List.getElem?_append_left (Nat.lt_of_not_le hlt)] at hget
      exact hnot (List.mem_of_getElem? hget)
    refine ⟨name, ?_⟩
    rw [getName_eq, callName_eq_some_iff.2 ⟨⟨rest, hrest⟩, hnot, by omega⟩]

/-- The field behind the last `<` is the one that the line encloses. -/
theorem timeField_right (hsplit : line.chars = pre ++ '<'.toUInt8 :: post)
    (hlast : '<'.toUInt8 ∉ post) {r : Option (List UInt8)} :
    ((∀ t, Enclosed line t → t.length < usSz → r = some t) ∧
      ((∀ t, Enclosed line t → usSz ≤ t.length) → r = none)) ↔ r = timeField post := by
  have henclosed : ∀ t, Enclosed line t ∧ t.length < usSz ↔ timeField post = some t := by
    intro t
    rw [timeField_eq_some_iff]
    constructor
    · rintro ⟨⟨pre', post', hsplit', hlast', hrest, hnot⟩, hlt⟩
      obtain rfl := last_split_inj (hsplit'.symm.trans hsplit) hlast' hlast
      exact ⟨hrest, hnot, hlt⟩
    · exact fun ⟨hrest, hnot, hlt⟩ => ⟨⟨pre, post, hsplit, hlast, hrest, hnot⟩, hlt⟩
  constructor
  · rintro ⟨hsome, hnone⟩
    cases hfield : timeField post with
    | none =>
      refine hnone fun t ht => Nat.le_of_not_lt fun hlt => ?_
      rw [(henclosed t).1 ⟨ht, hlt⟩] at hfield
      cases hfield
    | some t =>
      obtain ⟨ht, hlt⟩ := (henclosed t).2 hfield
      exact hsome t ht hlt
  · rintro rfl
    refine ⟨fun t ht hlt => (henclosed t).1 ⟨ht, hlt⟩, fun hall => ?_⟩
    cases hfield : timeField post with
    | none => rfl
    | some t =>
      obtain ⟨ht, hlt⟩ := (henclosed t).2 hfield
      exact absurd hlt (Nat.not_lt.2 (hall t ht))

/-- **The fields are the right ones** exactly when the scan comes to the field of the last `<`. -/
theorem parser_right_iff (hlt : '<'.toUInt8 ∈ line.chars) :
    FieldsRight line ↔ FieldReached line := by
  obtain ⟨pre', post', hsplit', hlast'⟩ := exists_last_split hlt
  constructor
  · intro h
    -- what is asked for is a result, so the scan stops
    have hus : ∃ r, getUs line = .ok r := by
      by_cases hfits : ∃ t, Enclosed line t ∧ t.length < usSz
      · obtain ⟨t, ht, hshort⟩ := hfits
        exact ⟨_, h.us_some t ht hshort⟩
      · exact ⟨_, h.us_none fun t ht => Nat.le_of_not_lt fun hshort => hfits ⟨t, ht, hshort⟩⟩
    obtain ⟨r, hr⟩ := hus
    have hscan : Scannable line := by
      by_contra hnot
      rw [getUs_fails hnot] at hr
      cases hr
    obtain ⟨pre, post, hstop, hwrap⟩ := hscan
    have hres := getUs_eq hstop hwrap
    refine ⟨pre, post, hstop, hwrap, fun pre'' post'' hsplit hlast => ?_⟩
    refine (timeField_right hsplit hlast).1 ⟨fun t ht hshort => ?_, fun hall => ?_⟩
    · exact Except.ok.inj (hres.symm.trans (h.us_some t ht hshort))
    · exact Except.ok.inj (hres.symm.trans (h.us_none hall))
  · rintro ⟨pre, post, hstop, hwrap, hfield⟩
    obtain ⟨hname_iff, hname_eq⟩ := name_right line
    have hres := getUs_eq hstop hwrap
    obtain ⟨hsome, hnone⟩ := (timeField_right hsplit' hlast').2 (hfield pre' post' hsplit' hlast')
    refine ⟨hname_iff, hname_eq, ⟨_, getName_eq line⟩, fun t ht hshort => ?_, fun hall => ?_⟩
    · rw [hres, hsome t ht hshort]
    · rw [hres, hnone hall]

/-- **Short lines** are always read as they should be. -/
theorem fieldReached_of_short (h : line.strlen < 2 ^ 31) (hlt : '<'.toUInt8 ∈ line.chars) :
    FieldReached line := by
  obtain ⟨pre, post, hsplit, hlast⟩ := exists_last_split hlt
  refine ⟨pre, post, stopsAt_of_short h hsplit hlast, (span_le hsplit).trans_lt h, ?_⟩
  intro pre' post' hsplit' hlast'
  rw [last_split_inj (hsplit.symm.trans hsplit') hlast hlast']

/-- `write(1, "<a>", 3) = 3 <0.000021>`. -/
theorem parser_right_sample :
    FieldsRight ⟨"write(1, \"<a>\", 3) = 3 <0.000021>\n".toList.map Char.toUInt8, by decide⟩ :=
  (parser_right_iff (by decide)).2 (fieldReached_of_short (by decide) (by decide))

/-- The line of a call with a string of `n` characters. -/
def writeLine (n : Nat) : Name where
  chars := ("write(1, \"".toList.map Char.toUInt8 ++ List.replicate n 'a'.toUInt8) ++
    '<'.toUInt8 :: "0.000021>\n".toList.map Char.toUInt8
  no_nul := by
    intro hmem
    rcases List.mem_append.1 hmem with hmem | hmem
    · rcases List.mem_append.1 hmem with hmem | hmem
      · exact absurd hmem (by decide)
      · exact absurd (List.eq_of_mem_replicate hmem) (by decide)
    · exact absurd hmem (by decide)

theorem strlen_writeLine (n : Nat) : (writeLine n).strlen = n + 21 := by
  unfold Name.strlen writeLine
  rw [List.length_append, List.length_append, List.length_replicate]
  have htexts : ("write(1, \"".toList.map Char.toUInt8).length = 10 ∧
      ('<'.toUInt8 :: "0.000021>\n".toList.map Char.toUInt8).length = 11 := by decide
  omega

/-- `get_us` reads far in front of a line that is longer than an `int` can say. -/
theorem not_parser_right : ¬ ∀ line : Name, '<'.toUInt8 ∈ line.chars → FieldsRight line := by
  intro hall
  have hneg : ∀ n, n = 2 ^ 31 → usStart (writeLine n) < 0 := by
    intro n hn
    unfold usStart
    rw [strlen_writeLine, hn]
    decide
  have hfails : ∀ n, n = 2 ^ 31 → getUs (writeLine n) = .error .lineRange := by
    intro n hn
    have hstart := hneg n hn
    refine getUs_fails fun ⟨pre, _, hstop, _⟩ => ?_
    have := hstop.le
    omega
  have hreads : ∀ n, ∃ t, getUs (writeLine n) = .ok (some t) := by
    intro n
    have hfield : timeField ("0.000021>\n".toList.map Char.toUInt8) =
        some ("0.000021".toList.map Char.toUInt8) := by decide
    obtain ⟨hrest, hnot, hshort⟩ := timeField_eq_some_iff.1 hfield
    have hright := hall (writeLine n) (List.mem_append_right _ List.mem_cons_self)
    exact ⟨_, hright.us_some _ ⟨_, _, rfl, by decide, hrest, hnot⟩ hshort⟩
  obtain ⟨t, ht⟩ := hreads (2 ^ 31)
  rw [hfails _ rfl] at ht
  cases ht

end MyOs.Sperf
