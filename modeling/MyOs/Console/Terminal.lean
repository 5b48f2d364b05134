import MyOs.Console.Grid

/-!
# The reference terminal

A screen has rows and columns, and its cursor is always on it. What the console does with
flat pointers is what this terminal does in two dimensions: the cell in column `c` of row
`r` is the one at `r * columns + c`, and so is the cursor.

* `Screen.feed` — what the terminal does with a byte.
* `ttyPutc_shows` — **one byte**.
* `ttyPuts_shows` — **the console implements the terminal**, for all bytes.
-/

namespace MyOs.Console

-- ---------------------------------------------------------------------------
-- The terminal
-- ---------------------------------------------------------------------------

/-- A screen, with its cursor. -/
structure Screen (lines columns : Nat) where
  cell : Fin lines → Fin columns → UInt8
  row : Fin lines
  col : Fin columns

namespace Screen

variable {lines columns : Nat}

/-- The blank screen with the cursor at the origin. -/
def blank (hlines : 0 < lines) (hcolumns : 0 < columns) : Screen lines columns where
  cell := fun _ _ => nul
  row := ⟨0, hlines⟩
  col := ⟨0, hcolumns⟩

/-- `ch` in the cell at the cursor. -/
def write (s : Screen lines columns) (ch : UInt8) : Screen lines columns :=
  { s with cell := fun r c => if r = s.row ∧ c = s.col then ch else s.cell r c }

/-- The first row is gone, the others move up, and the last one is blank. -/
def scroll (s : Screen lines columns) : Screen lines columns :=
  { s with cell := fun r c => if h : r.val + 1 < lines then s.cell ⟨r.val + 1, h⟩ c else nul }

/-- To column 0. -/
def cr (s : Screen lines columns) : Screen lines columns :=
  { s with col := ⟨0, Nat.zero_lt_of_lt s.col.isLt⟩ }

/-- To column 0 of the next row. -/
def nextLine (s : Screen lines columns) : Screen lines columns :=
  if h : s.row.val + 1 < lines then { s.cr with row := ⟨s.row.val + 1, h⟩ } else s.cr.scroll

/-- To the next cell. -/
def advance (s : Screen lines columns) : Screen lines columns :=
  if h : s.col.val + 1 < columns then { s with col := ⟨s.col.val + 1, h⟩ } else s.nextLine

/-- To the cell before, but not before the origin. -/
def stepBack (s : Screen lines columns) : Screen lines columns :=
  if 0 < s.col.val then
    { s with col := ⟨s.col.val - 1, Nat.lt_of_le_of_lt (Nat.sub_le _ _) s.col.isLt⟩ }
  else
    { s with
      row := ⟨s.row.val - 1, Nat.lt_of_le_of_lt (Nat.sub_le _ _) s.row.isLt⟩
      col := ⟨columns - 1, Nat.sub_lt (Nat.zero_lt_of_lt s.col.isLt) Nat.one_pos⟩ }

/-- The cursor is at the origin. -/
def AtOrigin (s : Screen lines columns) : Prop := s.row.val = 0 ∧ s.col.val = 0

instance (s : Screen lines columns) : Decidable s.AtOrigin :=
  inferInstanceAs (Decidable (s.row.val = 0 ∧ s.col.val = 0))

/-- **A byte.** -/
def feed (s : Screen lines columns) (ch : UInt8) : Screen lines columns :=
  if ch = carriageReturn then s.cr
  else if ch = newline then s.nextLine
  else if ch = backspace then if s.AtOrigin then s else s.stepBack.write nul
  else (s.write ch).advance

end Screen

-- ---------------------------------------------------------------------------
-- What the console shows
-- ---------------------------------------------------------------------------

/-- `tty_init`, with the cleared grid. -/
def ttyInit (display lines columns : Nat) : Tty :=
  { display, lines, columns, buf := fun _ => ttyDefaultch, cursor := 0, dirty := fun _ => false }

variable {lines columns : Nat} {tty tty' : Tty} {s s' : Screen lines columns} {ch : UInt8}

/-- The grid and the cursor of the console are those of the screen. -/
structure Shows (tty : Tty) (s : Screen lines columns) : Prop where
  lines_eq : tty.lines = lines
  columns_eq : tty.columns = columns
  cursor_eq : tty.cursor = s.row.val * columns + s.col.val
  buf_eq : ∀ (r : Fin lines) (c : Fin columns),
    tty.buf (r.val * columns + c.val) = { metadata := 0, ch := s.cell r c }

theorem shows_init (display : Nat) (hlines : 0 < lines) (hcolumns : 0 < columns) :
    Shows (ttyInit display lines columns) (Screen.blank hlines hcolumns) := by
  refine ⟨rfl, rfl, ?_, fun r c => rfl⟩
  show 0 = 0 * columns + 0
  omega

theorem Shows.size_eq (h : Shows tty s) : tty.size = lines * columns := by
  rw [Tty.size, h.lines_eq, h.columns_eq, Nat.mul_comm]

/-- A cell of the screen is a cell of the grid. -/
theorem cell_lt (r : Fin lines) (c : Fin columns) : r.val * columns + c.val < lines * columns := by
  have hrow : (r.val + 1) * columns ≤ lines * columns := Nat.mul_le_mul_right columns r.isLt
  rw [Nat.add_mul, Nat.one_mul] at hrow
  have := c.isLt
  omega

/-- Different cells of the screen are different cells of the grid. -/
theorem cell_inj {r r' : Fin lines} {c c' : Fin columns}
    (h : r.val * columns + c.val = r'.val * columns + c'.val) : r = r' ∧ c = c' := by
  have hpos : 0 < columns := Nat.zero_lt_of_lt c.isLt
  have hdiv : ∀ (x y : Nat), y < columns → (x * columns + y) / columns = x := fun x y hy => by
    rw [Nat.mul_comm, Nat.mul_add_div hpos, Nat.div_eq_of_lt hy, Nat.add_zero]
  have hrow : r.val = r'.val := by
    rw [← hdiv r.val c.val c.isLt, h, hdiv r'.val c'.val c'.isLt]
  refine ⟨Fin.ext hrow, Fin.ext ?_⟩
  rw [hrow] at h
  omega

theorem Shows.cursor_lt (h : Shows tty s) : tty.cursor < tty.size := by
  rw [h.cursor_eq, h.size_eq]
  exact cell_lt s.row s.col

theorem Shows.start_eq (h : Shows tty s) : tty.start = s.row.val * columns := by
  have hmod : (s.row.val * columns + s.col.val) % columns = s.col.val := by
    rw [Nat.mul_comm, Nat.mul_add_mod, Nat.mod_eq_of_lt s.col.isLt]
  rw [Tty.start, h.cursor_eq, h.columns_eq, hmod, Nat.add_sub_cancel]

-- ---------------------------------------------------------------------------
-- One operation
-- ---------------------------------------------------------------------------

/-- Marks are not shown. -/
theorem Shows.marks (h : Shows tty s) (l : List Nat) : Shows (tty.marks l) s :=
  ⟨h.lines_eq, h.columns_eq, h.cursor_eq, h.buf_eq⟩

/-- The cursor moves. -/
theorem Shows.moved (h : Shows tty s) {p : Nat} (hcell : s'.cell = s.cell)
    (hp : p = s'.row.val * columns + s'.col.val) : Shows (tty.moved p) s' :=
  ⟨h.lines_eq, h.columns_eq, hp, fun r c => by rw [hcell]; exact h.buf_eq r c⟩

theorem Shows.cr (h : Shows tty s) : Shows (tty.moved tty.start) s.cr :=
  h.moved rfl h.start_eq

/-- The grid with `ch` at the cursor. -/
def Tty.written (tty : Tty) (ch : UInt8) : Tty :=
  { tty with buf := Function.update tty.buf tty.cursor { tty.buf tty.cursor with ch } }

theorem Shows.write (h : Shows tty s) (ch : UInt8) : Shows (tty.written ch) (s.write ch) := by
  refine ⟨h.lines_eq, h.columns_eq, h.cursor_eq, fun r c => ?_⟩
  show Function.update tty.buf tty.cursor { tty.buf tty.cursor with ch } _ =
    { metadata := 0, ch := if r = s.row ∧ c = s.col then ch else s.cell r c }
  by_cases hcell : r = s.row ∧ c = s.col
  · rw [if_pos hcell, hcell.1, hcell.2, ← h.cursor_eq, Function.update_self, h.cursor_eq,
      h.buf_eq s.row s.col]
  · have hne : r.val * columns + c.val ≠ tty.cursor := by
      rw [h.cursor_eq]
      exact fun heq => hcell (cell_inj heq)
    rw [if_neg hcell, Function.update_of_ne hne, h.buf_eq r c]

/-- The rows move up in one piece. -/
theorem Shows.scroll (h : Shows tty s) (hlast : ¬ s.row.val + 1 < lines) (p : Nat) :
    Shows (tty.moved p).scrolled s.cr.scroll := by
  have hcursor : lines * columns - columns = s.row.val * columns := by
    have hrow : lines = s.row.val + 1 := by
      have := s.row.isLt
      omega
    have hlines : lines * columns = (s.row.val + 1) * columns := congrArg (· * columns) hrow
    rw [hlines, Nat.add_mul, Nat.one_mul, Nat.add_sub_cancel]
  refine ⟨h.lines_eq, h.columns_eq, ?_, fun r c => ?_⟩
  · show tty.size - tty.columns = s.row.val * columns + 0
    rw [h.size_eq, h.columns_eq, hcursor, Nat.add_zero]
  · show (if r.val * columns + c.val < tty.columns * (tty.lines - 1) then
        tty.buf (tty.columns + (r.val * columns + c.val))
      else if r.val * columns + c.val < tty.size then ttyDefaultch
      else tty.buf (r.val * columns + c.val)) =
      { metadata := 0, ch := if hr : r.val + 1 < lines then s.cell ⟨r.val + 1, hr⟩ c else nul }
    have hmove : tty.columns * (tty.lines - 1) = lines * columns - columns := by
      rw [h.columns_eq, h.lines_eq, Nat.mul_comm, Nat.sub_mul, Nat.one_mul]
    rw [hmove, h.size_eq, h.columns_eq]
    by_cases hr : r.val + 1 < lines
    · -- the cell below
      have hbelow := h.buf_eq ⟨r.val + 1, hr⟩ c
      have hlt := cell_lt ⟨r.val + 1, hr⟩ c
      rw [show (r.val + 1) * columns + c.val = columns + (r.val * columns + c.val) by
        rw [Nat.add_mul]
        omega] at hbelow hlt
      rw [if_pos (by omega), dif_pos hr, hbelow]
    · have hrow : r.val = s.row.val := by
        have := r.isLt
        have := s.row.isLt
        omega
      have hlt := cell_lt r c
      rw [hcursor, ← hrow, if_neg (by omega), if_pos hlt, dif_neg hr]
      rfl

/-- The cursor is behind the last row exactly when there is no next row. -/
theorem Shows.end_iff (h : Shows tty s) :
    tty.start + tty.columns = tty.size ↔ ¬ s.row.val + 1 < lines := by
  have hpos : 0 < columns := Nat.zero_lt_of_lt s.col.isLt
  rw [h.start_eq, h.columns_eq, h.size_eq, ← Nat.succ_mul,
    Nat.mul_left_inj (Nat.pos_iff_ne_zero.1 hpos)]
  have := s.row.isLt
  omega

/-- To the next row. -/
theorem Shows.nextLine (h : Shows tty s) :
    Shows (if tty.start + tty.columns = tty.size then (tty.moved tty.size).scrolled
      else tty.moved (tty.start + tty.columns)) s.nextLine := by
  unfold Screen.nextLine
  by_cases hrow : s.row.val + 1 < lines
  · rw [dif_pos hrow, if_neg (fun hend => h.end_iff.1 hend hrow)]
    refine h.moved rfl ?_
    show tty.start + tty.columns = (s.row.val + 1) * columns + 0
    rw [h.start_eq, h.columns_eq, Nat.add_mul, Nat.one_mul, Nat.add_zero]
  · rw [dif_neg hrow, if_pos (h.end_iff.2 hrow)]
    exact h.scroll hrow tty.size

/-- To the next cell. -/
theorem Shows.advance (h : Shows tty s) :
    Shows (if tty.cursor + 1 = tty.size then (tty.moved tty.size).scrolled
      else tty.moved (tty.cursor + 1)) s.advance := by
  unfold Screen.advance
  by_cases hcol : s.col.val + 1 < columns
  · have hlt := cell_lt s.row ⟨s.col.val + 1, hcol⟩
    rw [dif_pos hcol, if_neg (by
      rw [h.cursor_eq, h.size_eq]
      exact Nat.ne_of_lt hlt)]
    exact h.moved rfl (congrArg (· + 1) h.cursor_eq)
  · -- the cursor was in the last column
    have hnext : tty.cursor + 1 = tty.start + tty.columns := by
      have := s.col.isLt
      rw [h.cursor_eq, h.start_eq, h.columns_eq]
      omega
    rw [dif_neg hcol, hnext]
    exact h.nextLine

theorem Shows.cursor_pos (h : Shows tty s) : 0 < tty.cursor ↔ ¬ s.AtOrigin := by
  have hpos : 0 < columns := Nat.zero_lt_of_lt s.col.isLt
  have hrow : s.row.val * columns = 0 ↔ s.row.val = 0 := by
    rw [Nat.mul_eq_zero]
    omega
  rw [h.cursor_eq, Screen.AtOrigin, ← hrow]
  omega

/-- To the cell before. -/
theorem Shows.stepBack (h : Shows tty s) (horigin : ¬ s.AtOrigin) :
    Shows (tty.moved (tty.cursor - 1)) s.stepBack := by
  have hcursor := h.cursor_eq
  have hcursorPos := h.cursor_pos.2 horigin
  unfold Screen.stepBack
  by_cases hcol : 0 < s.col.val
  · rw [if_pos hcol]
    refine h.moved rfl ?_
    show tty.cursor - 1 = s.row.val * columns + (s.col.val - 1)
    omega
  · -- to the last column of the row above
    have hrow : 0 < s.row.val := by
      refine Nat.pos_of_ne_zero fun hzero => ?_
      rw [hzero, Nat.zero_mul] at hcursor
      omega
    obtain ⟨r, hr⟩ := Nat.exists_eq_succ_of_ne_zero (Nat.pos_iff_ne_zero.1 hrow)
    have hcolumns : 0 < columns := Nat.zero_lt_of_lt s.col.isLt
    rw [if_neg hcol]
    refine h.moved rfl ?_
    show tty.cursor - 1 = (s.row.val - 1) * columns + (columns - 1)
    rw [hr, Nat.succ_mul] at hcursor
    rw [hr, Nat.succ_sub_one]
    omega

-- ---------------------------------------------------------------------------
-- All bytes
-- ---------------------------------------------------------------------------

/-- **One byte.** -/
theorem ttyPutc_shows (hcells : 2 ≤ lines * columns) (h : Shows tty s) (ch : UInt8) :
    ∃ tty', ttyPutc tty ch = .ok tty' ∧ Shows tty' (s.feed ch) := by
  have hlt := h.cursor_lt
  unfold Screen.feed
  by_cases hcr : ch = carriageReturn
  · rw [if_pos hcr, hcr]
    exact ⟨_, ttyPutc_cr hlt, h.cr.marks _⟩
  rw [if_neg hcr]
  by_cases hnl : ch = newline
  · rw [if_pos hnl, hnl]
    refine ⟨_, ttyPutc_newline hlt, ?_⟩
    have hnext := h.nextLine
    by_cases hend : tty.start + tty.columns = tty.size
    · rw [if_pos hend] at hnext ⊢
      exact hnext.marks _
    · rw [if_neg hend] at hnext ⊢
      exact hnext.marks _
  rw [if_neg hnl]
  by_cases hbs : ch = backspace
  · rw [if_pos hbs, hbs]
    have hsize : 2 ≤ tty.size := by rwa [h.size_eq]
    refine ⟨_, ttyPutc_backsp hsize hlt, ?_⟩
    by_cases horigin : s.AtOrigin
    · rw [if_pos horigin, if_neg (fun hpos => h.cursor_pos.1 hpos horigin)]
      exact h.marks _
    · rw [if_neg horigin, if_pos (h.cursor_pos.2 horigin)]
      exact ((h.stepBack horigin).write nul).marks _
  rw [if_neg hbs]
  refine ⟨_, ttyPutc_char hlt hcr hbs hnl, ?_⟩
  have hnext := (h.write ch).advance
  have hcursor : (tty.written ch).cursor = tty.cursor := rfl
  have hsize : (tty.written ch).size = tty.size := rfl
  rw [hcursor, hsize] at hnext
  by_cases hend : tty.cursor + 1 = tty.size
  · rw [if_pos hend] at hnext ⊢
    exact hnext.marks _
  · rw [if_neg hend] at hnext ⊢
    exact hnext.marks _

/-- All bytes, from any screen. -/
theorem ttyPuts_shows_from (hcells : 2 ≤ lines * columns) (h : Shows tty s) (bytes : List UInt8) :
    ∃ tty', ttyPuts tty bytes = .ok tty' ∧ Shows tty' (bytes.foldl Screen.feed s) := by
  induction bytes generalizing tty s with
  | nil => exact ⟨tty, rfl, h⟩
  | cons ch bytes ih =>
    obtain ⟨tty₁, hput, h₁⟩ := ttyPutc_shows hcells h ch
    obtain ⟨tty₂, hputs, h₂⟩ := ih h₁
    refine ⟨tty₂, ?_, h₂⟩
    unfold ttyPuts
    rw [List.foldlM_cons, hput, ok_bind]
    exact hputs

/-- **The console implements the terminal.** After any bytes no access has been out of range,
the cursor is in the grid, and the grid and the cursor are those of the screen. -/
theorem ttyPuts_shows (display : Nat) (hlines : 1 ≤ lines) (hcolumns : 1 ≤ columns)
    (hcells : 2 ≤ lines * columns) (bytes : List UInt8) :
    ∃ tty, ttyPuts (ttyInit display lines columns) bytes = .ok tty ∧ tty.cursor < tty.size ∧
      Shows tty (bytes.foldl Screen.feed (Screen.blank hlines hcolumns)) := by
  obtain ⟨tty, hputs, h⟩ := ttyPuts_shows_from hcells (shows_init display hlines hcolumns) bytes
  exact ⟨tty, hputs, h.cursor_lt, h⟩

/-- Two rows of three columns: the second row is full, so that the first one goes. -/
theorem ttyPuts_shows_sample :
    ∃ tty, ttyPuts (ttyInit 0 2 3) [97, newline, 98, 99, 100, backspace, 101] = .ok tty ∧
      tty.cursor < tty.size ∧
      Shows tty ([97, newline, 98, 99, 100, backspace, 101].foldl Screen.feed
        (Screen.blank (by decide) (by decide) : Screen 2 3)) :=
  ttyPuts_shows 0 (by decide) (by decide) (by decide) _

end MyOs.Console
