import MyOs.Console.Definitions

/-!
# The grid

What the functions on the grid compute, for a cursor inside of it: none of their
accesses is out of range, and the result is written out for each of the branches of
`tty_putc`.

* `Tty.marks` / `ttyMarkLine_eq`, `ttyMarkAll_eq` — marks as a list of cells.
* `Tty.scrolled` / `ttyUpdScrollup_eq` — the grid after a scroll.
* `ttyPutc_cr`, `ttyPutc_backsp`, `ttyPutc_newline`, `ttyPutc_char` — `tty_putc`.
-/

namespace MyOs.Console

open MyOs.Extent

variable {tty : Tty} {i j p k : Nat} {l l' : List Nat} {ch : UInt8} {c : Character}

-- ---------------------------------------------------------------------------
-- Marks
-- ---------------------------------------------------------------------------

/-- The grid with the cells of `l` marked. -/
def Tty.marks (tty : Tty) (l : List Nat) : Tty :=
  { tty with dirty := fun i => if i ∈ l then true else tty.dirty i }

@[simp] theorem marks_size : (tty.marks l).size = tty.size := rfl

@[simp] theorem marks_cursor : (tty.marks l).cursor = tty.cursor := rfl

theorem marks_dirty : (tty.marks l).dirty i = true ↔ i ∈ l ∨ tty.dirty i = true := by
  show (if i ∈ l then true else tty.dirty i) = true ↔ _
  split
  · rename_i hmem
    exact ⟨fun _ => .inl hmem, fun _ => rfl⟩
  · rename_i hmem
    exact ⟨.inr, fun h => h.resolve_left hmem⟩

theorem marks_marks : (tty.marks l).marks l' = tty.marks (l ++ l') := by
  unfold Tty.marks
  congr 1
  funext i
  show (if i ∈ l' then true else if i ∈ l then true else tty.dirty i) =
    if i ∈ l ++ l' then true else tty.dirty i
  by_cases hl' : i ∈ l'
  · rw [if_pos hl', if_pos (List.mem_append_right l hl')]
  · rw [if_neg hl']
    by_cases hl : i ∈ l
    · rw [if_pos hl, if_pos (List.mem_append_left l' hl)]
    · rw [if_neg hl, if_neg (fun hmem => (List.mem_append.1 hmem).elim hl hl')]

theorem ttyMark_eq (h : i < tty.size) : ttyMark tty i = .ok (tty.marks [i]) := by
  unfold ttyMark
  rw [if_pos h]
  show Except.ok _ = Except.ok _
  congr 2
  funext j
  by_cases hj : j = i
  · rw [hj, Function.update_self, if_pos (List.mem_singleton_self i)]
  · rw [Function.update_of_ne hj, if_neg (fun hmem => hj (List.mem_singleton.1 hmem))]

/-- A loop of `tty_mark`s. -/
theorem foldlM_ttyMark (h : ∀ i ∈ l, i < tty.size) : l.foldlM ttyMark tty = .ok (tty.marks l) := by
  induction l generalizing tty with
  | nil => rfl
  | cons i l ih =>
    have hl : ∀ j ∈ l, j < (tty.marks [i]).size := fun j hj => h j (List.mem_cons_of_mem i hj)
    rw [List.foldlM_cons, ttyMark_eq (h i List.mem_cons_self), ok_bind, ih hl, marks_marks]
    rfl

theorem ttyMarkAll_eq : ttyMarkAll tty = .ok (tty.marks (List.range tty.size)) :=
  foldlM_ttyMark fun _ hi => List.mem_range.1 hi

/-- The cells of the row of cell `p`. -/
def Tty.row (tty : Tty) (p : Nat) : List Nat :=
  (List.range tty.columns).map fun i => p - p % tty.columns + i

/-- The cells of a row have its number. -/
theorem mem_row (hcol : 0 < tty.columns) :
    i ∈ tty.row p ↔ i / tty.columns = p / tty.columns := by
  have hstart : p - p % tty.columns = p / tty.columns * tty.columns := by
    have := Nat.div_add_mod' p tty.columns
    omega
  unfold Tty.row
  rw [List.mem_map, hstart]
  constructor
  · rintro ⟨x, hx, rfl⟩
    rw [Nat.mul_comm, Nat.mul_add_div hcol, Nat.div_eq_of_lt (List.mem_range.1 hx), Nat.add_zero]
  · intro heq
    refine ⟨i % tty.columns, List.mem_range.2 (Nat.mod_lt i hcol), ?_⟩
    rw [← heq]
    exact Nat.div_add_mod' i tty.columns

/-- A cell is in range when its row is. -/
theorem lt_size_iff (hcol : 0 < tty.columns) : i < tty.size ↔ i / tty.columns < tty.lines := by
  rw [Nat.div_lt_iff_lt_mul hcol, Nat.mul_comm, Tty.size]

theorem columns_pos (h : i < tty.size) : 0 < tty.columns :=
  Nat.pos_of_mul_pos_right (Nat.zero_lt_of_lt h)

theorem ttyMarkLine_eq (h : p < tty.size) : ttyMarkLine tty p = .ok (tty.marks (tty.row p)) := by
  have hcol := columns_pos h
  have hrow : ∀ i ∈ tty.row p, i < tty.size := fun i hi => by
    rw [lt_size_iff hcol, (mem_row hcol).1 hi]
    exact (lt_size_iff hcol).1 h
  unfold ttyMarkLine
  rw [← foldlM_ttyMark hrow, Tty.row, List.foldlM_map]

-- ---------------------------------------------------------------------------
-- Scrolling
-- ---------------------------------------------------------------------------

theorem store_eq (h : i < tty.size) :
    tty.store i c = .ok { tty with buf := Function.update tty.buf i c } := if_pos h

/-- The grid with `c` in the `n` cells from the cursor on. -/
def Tty.filled (tty : Tty) (n : Nat) (c : Character) : Tty :=
  { tty with buf := fun a => if tty.cursor ≤ a ∧ a < tty.cursor + n then c else tty.buf a }

/-- A loop of stores from the cursor on. -/
theorem foldlM_store (tty : Tty) (c : Character) (n : Nat) (h : tty.cursor + n ≤ tty.size) :
    (List.range n).foldlM (fun tty i => tty.store (tty.cursor + i) c) tty =
      .ok (tty.filled n c) := by
  induction n with
  | zero =>
    have hnone : (fun a => if tty.cursor ≤ a ∧ a < tty.cursor + 0 then c else tty.buf a) =
        tty.buf := funext fun a => if_neg (by omega)
    unfold Tty.filled
    rw [hnone]
    rfl
  | succ n ih =>
    have hlast : (tty.filled n c).cursor + n < (tty.filled n c).size := h
    rw [List.range_succ, List.foldlM_append, ih (by omega), ok_bind, List.foldlM_cons,
      store_eq hlast, ok_bind, List.foldlM_nil]
    unfold Tty.filled
    show Except.ok _ = Except.ok _
    congr 2
    funext a
    dsimp only
    by_cases ha : a = tty.cursor + n
    · rw [ha, Function.update_self, if_pos (by omega)]
    · rw [Function.update_of_ne ha]
      by_cases hin : tty.cursor ≤ a ∧ a < tty.cursor + n
      · rw [if_pos hin, if_pos (by omega)]
      · rw [if_neg hin, if_neg (by omega)]

/-- The grid one row further up, with a blank last row. -/
def Tty.scrolled (tty : Tty) : Tty where
  display := tty.display
  lines := tty.lines
  columns := tty.columns
  buf := fun i =>
    if i < tty.columns * (tty.lines - 1) then tty.buf (tty.columns + i)
    else if i < tty.size then ttyDefaultch else tty.buf i
  cursor := tty.size - tty.columns
  dirty := fun i =>
    if i < tty.columns * (tty.lines - 1) then tty.dirty (tty.columns + i) else tty.dirty i

@[simp] theorem scrolled_size : tty.scrolled.size = tty.size := rfl

/-- **`tty_upd_scrollup`**, with the cursor behind the last row. -/
theorem ttyUpdScrollup_eq (hlines : 0 < tty.lines) (h : tty.cursor = tty.size) :
    ttyUpdScrollup tty = .ok tty.scrolled := by
  have hsize : tty.columns * (tty.lines - 1) + tty.columns = tty.size := by
    rw [← Nat.mul_succ, Nat.succ_eq_add_one, Nat.sub_add_cancel hlines, Tty.size]
  have hback : back tty.cursor tty.columns = .ok (tty.size - tty.columns) := by
    rw [h]
    exact if_pos (by omega)
  obtain ⟨moved, hmoved⟩ : ∃ t : Tty, t = { tty with
    buf := copy tty.buf 0 tty.buf tty.columns (tty.columns * (tty.lines - 1))
    dirty := copy tty.dirty 0 tty.dirty tty.columns (tty.columns * (tty.lines - 1))
    cursor := tty.size - tty.columns } := ⟨_, rfl⟩
  have hcursor : moved.cursor + tty.columns = tty.size := by
    rw [hmoved]
    show tty.size - tty.columns + tty.columns = tty.size
    omega
  have hfill := foldlM_store moved ttyDefaultch tty.columns (by
    have hsize' : moved.size = tty.size := by rw [hmoved]; rfl
    omega)
  unfold ttyUpdScrollup inRange
  dsimp only
  rw [if_pos (by omega), ok_bind, hback, ok_bind]
  rw [hmoved] at hfill
  refine hfill.trans ?_
  unfold Tty.filled
  unfold Tty.scrolled
  congr 2
  · -- the rows that have moved, and the blank one
    funext i
    dsimp only
    by_cases hmove : i < tty.columns * (tty.lines - 1)
    · rw [if_pos hmove, if_neg (by omega), copy_inside (Nat.zero_le i) (by omega), Nat.sub_zero]
    · rw [if_neg hmove]
      by_cases hin : i < tty.size
      · rw [if_pos hin, if_pos (by omega)]
      · rw [if_neg hin, if_neg (by omega), copy_outside (by omega)]
  · funext i
    dsimp only
    by_cases hmove : i < tty.columns * (tty.lines - 1)
    · rw [if_pos hmove, copy_inside (Nat.zero_le i) (by omega), Nat.sub_zero]
    · rw [if_neg hmove, copy_outside (by omega)]

-- ---------------------------------------------------------------------------
-- `tty_putc`
-- ---------------------------------------------------------------------------

/-- The start of the row of the cursor. -/
def Tty.start (tty : Tty) : Nat := tty.cursor - tty.cursor % tty.columns

/-- The cursor at `p`. -/
def Tty.moved (tty : Tty) (p : Nat) : Tty := { tty with cursor := p }

@[simp] theorem moved_size : (tty.moved p).size = tty.size := rfl

/-- The cursor back by one, over a blank. -/
def Tty.erased (tty : Tty) : Tty :=
  { tty with
    cursor := tty.cursor - 1
    buf := Function.update tty.buf (tty.cursor - 1)
      { tty.buf (tty.cursor - 1) with ch := nul } }

@[simp] theorem erased_cursor : tty.erased.cursor = tty.cursor - 1 := rfl

/-- The character at the cursor, which moves on. -/
def Tty.put (tty : Tty) (ch : UInt8) : Tty :=
  { tty with
    cursor := tty.cursor + 1
    buf := Function.update tty.buf tty.cursor { tty.buf tty.cursor with ch } }

@[simp] theorem put_size : (tty.put ch).size = tty.size := rfl

@[simp] theorem put_cursor : (tty.put ch).cursor = tty.cursor + 1 := rfl

theorem start_lt (h : tty.cursor < tty.size) : tty.start < tty.size :=
  Nat.lt_of_le_of_lt (Nat.sub_le tty.cursor (tty.cursor % tty.columns)) h

theorem lines_pos (h : i < tty.size) : 0 < tty.lines :=
  Nat.pos_of_mul_pos_left (Nat.zero_lt_of_lt h)

/-- `'\r'`. -/
theorem ttyPutc_cr (h : tty.cursor < tty.size) :
    ttyPutc tty carriageReturn = .ok ((tty.moved tty.start).marks (tty.row tty.start)) := by
  have hstart : tty.start < (tty.moved tty.start).size := start_lt h
  unfold ttyPutc
  rw [if_pos rfl]
  exact ttyMarkLine_eq hstart

theorem ttyUpdBacksp_eq (h : tty.cursor < tty.size) :
    ttyUpdBacksp tty = .ok (if 0 < tty.cursor then tty.erased else tty) := by
  have hprev : tty.cursor - 1 < (tty.moved (tty.cursor - 1)).size :=
    Nat.lt_of_le_of_lt (Nat.sub_le tty.cursor 1) h
  unfold ttyUpdBacksp
  split
  · exact store_eq hprev
  · rfl

/-- `'\b'`: at the origin nothing but the marks changes. -/
theorem ttyPutc_backsp (hsize : 2 ≤ tty.size) (h : tty.cursor < tty.size) :
    ttyPutc tty backspace =
      .ok (if 0 < tty.cursor then tty.erased.marks [tty.cursor - 1, tty.cursor]
        else tty.marks [0, 1]) := by
  unfold ttyPutc
  rw [if_neg (by decide), if_pos rfl, ttyUpdBacksp_eq h, ok_bind]
  by_cases hpos : 0 < tty.cursor
  · have hprev : tty.cursor - 1 < tty.erased.size :=
      Nat.lt_of_le_of_lt (Nat.sub_le tty.cursor 1) h
    have hhere : tty.cursor < (tty.erased.marks [tty.cursor - 1]).size := h
    rw [if_pos hpos, if_pos hpos, erased_cursor, ttyMark_eq hprev, ok_bind, marks_cursor,
      erased_cursor, Nat.sub_add_cancel hpos, ttyMark_eq hhere, marks_marks]
    rfl
  · have hzero : tty.cursor = 0 := by omega
    have hone : 0 + 1 < (tty.marks [0]).size := hsize
    rw [if_neg hpos, if_neg hpos, ttyMark_eq h, ok_bind, marks_cursor, hzero,
      ttyMark_eq hone, marks_marks]
    rfl

/-- On a grid of one cell a backspace marks a cell that is not there. -/
theorem ttyPutc_backsp_error (hsize : tty.size < 2) (h : tty.cursor < tty.size) :
    ttyPutc tty backspace = .error .outOfRange := by
  have hnext : ¬ tty.cursor + 1 < (tty.marks [tty.cursor]).size := by
    rw [marks_size]
    omega
  unfold ttyPutc
  rw [if_neg (by decide), if_pos rfl, ttyUpdBacksp_eq h, ok_bind, if_neg (by omega), ttyMark_eq h,
    ok_bind, marks_cursor]
  exact if_neg hnext

/-- The next row, or the end. -/
theorem start_add_columns (h : tty.cursor < tty.size) :
    tty.start + tty.columns = tty.size ∨ tty.start + tty.columns < tty.size := by
  have hcol := columns_pos h
  have hstart : tty.start = tty.cursor / tty.columns * tty.columns := by
    have := Nat.div_add_mod' tty.cursor tty.columns
    unfold Tty.start
    omega
  have hrow : tty.cursor / tty.columns + 1 ≤ tty.lines := (lt_size_iff hcol).1 h
  have hle := Nat.mul_le_mul_right tty.columns hrow
  rw [Nat.add_mul, Nat.one_mul, ← hstart, Nat.mul_comm tty.lines, ← Tty.size] at hle
  exact Nat.eq_or_lt_of_le hle

/-- What is left to do when the cursor has reached the end. -/
theorem scroll_eq (hlines : 0 < tty.lines) (h : tty.cursor = tty.size) :
    (ttyUpdScrollup tty >>= ttyMarkAll) = .ok (tty.scrolled.marks (List.range tty.size)) := by
  rw [ttyUpdScrollup_eq hlines h, ok_bind, ttyMarkAll_eq, scrolled_size]

theorem back_eq (h : k ≤ p) : back p k = .ok (p - k) := if_pos h

/-- `'\n'`. -/
theorem ttyPutc_newline (h : tty.cursor < tty.size) :
    ttyPutc tty newline =
      .ok (if tty.start + tty.columns = tty.size then
        (tty.moved tty.size).scrolled.marks (List.range tty.size)
      else
        (tty.moved (tty.start + tty.columns)).marks
          (tty.row tty.start ++ tty.row (tty.start + tty.columns))) := by
  have hlf : ttyUpdLf (ttyUpdCr tty) = tty.moved (tty.start + tty.columns) := rfl
  have hcursor : (tty.moved (tty.start + tty.columns)).cursor = tty.start + tty.columns := rfl
  unfold ttyPutc
  rw [if_neg (by decide), if_neg (by decide), if_pos rfl, hlf]
  dsimp only
  rw [hcursor, moved_size]
  by_cases hend : tty.start + tty.columns = tty.size
  · rw [if_pos hend, if_pos hend, hend]
    exact scroll_eq (lines_pos (show tty.cursor < (tty.moved tty.size).size from h)) rfl
  · have hlt : tty.start + tty.columns < tty.size := (start_add_columns h).resolve_left hend
    have habove : tty.start < (tty.moved (tty.start + tty.columns)).size := start_lt h
    rw [if_neg hend, if_neg hend]
    change (back (tty.start + tty.columns) tty.columns >>= _) = _
    rw [back_eq (Nat.le_add_left _ _), Nat.add_sub_cancel, ok_bind, ttyMarkLine_eq habove, ok_bind]
    have hbelow := ttyMarkLine_eq
      (show tty.start + tty.columns <
        ((tty.moved (tty.start + tty.columns)).marks (tty.row tty.start)).size from hlt)
    rw [marks_marks] at hbelow
    exact hbelow

/-- An ordinary character. -/
theorem ttyPutc_char (h : tty.cursor < tty.size) (hcr : ch ≠ carriageReturn)
    (hbs : ch ≠ backspace) (hnl : ch ≠ newline) :
    ttyPutc tty ch =
      .ok (if tty.cursor + 1 = tty.size then
        (tty.put ch).scrolled.marks (List.range tty.size)
      else (tty.put ch).marks [tty.cursor, tty.cursor + 1]) := by
  have hput : ttyUpdPutc tty ch = .ok (tty.put ch) := by
    unfold ttyUpdPutc
    rw [store_eq h]
    rfl
  unfold ttyPutc
  rw [if_neg hcr, if_neg hbs, if_neg hnl, hput, ok_bind, put_cursor, put_size]
  by_cases hend : tty.cursor + 1 = tty.size
  · rw [if_pos hend, if_pos hend]
    exact scroll_eq (lines_pos (show tty.cursor < (tty.put ch).size from h)) hend
  · have hprev : tty.cursor < (tty.put ch).size := h
    have hnext : tty.cursor + 1 < ((tty.put ch).marks [tty.cursor]).size := by
      rw [marks_size, put_size]
      omega
    rw [if_neg hend, if_neg hend, back_eq (Nat.le_add_left _ _), Nat.add_sub_cancel, ok_bind,
      ttyMark_eq hprev, ok_bind, marks_cursor, put_cursor, ttyMark_eq hnext, marks_marks]
    rfl

end MyOs.Console
