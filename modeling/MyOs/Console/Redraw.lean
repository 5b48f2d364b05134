import MyOs.Console.Render

/-!
# Incremental redraws

`tty_write` and the blinking of the cursor draw dirty cells only. On a grid that fits
into `struct sprite` the screen is what a full redraw would draw, after every render of
every sequence of these steps.

* `run_settled` — a step leaves a screen that shows the whole grid.
* `redraw_after_steps` — the incremental screen is that of a full redraw.
* `redraw_of_wide` — which it is not on a line of more than 8192 columns.
-/

namespace MyOs.Console

variable {s : Picture} {tty : Tty} {showCursor showCursor' changed : Bool} {fb : Fb} {i : Nat}
  {buf : List UInt8}

-- ---------------------------------------------------------------------------
-- Steps
-- ---------------------------------------------------------------------------

/-- A grid, `show_cursor`, and the frame buffer. -/
structure Picture where
  tty : Tty
  showCursor : Bool
  fb : Fb

namespace Picture

def render (s : Picture) : Result Picture := do
  let (tty, fb) ← ttyRender s.tty s.showCursor s.fb
  return { s with tty, fb }

/-- `tty_mark_all` and `tty_render`. -/
def redraw (s : Picture) : Result Picture := do
  let tty ← ttyMarkAll s.tty
  render { s with tty }

def write (s : Picture) (buf : List UInt8) : Result Picture := do
  let (tty, fb) ← ttyWrite s.tty s.showCursor s.fb buf
  return { s with tty, fb }

/-- The last lines of the loop of `dev_tty_task`. -/
def blink (s : Picture) (changed : Bool) : Result Picture := do
  let s := { s with showCursor := !s.showCursor || changed }
  let tty ← ttyMark s.tty s.tty.cursor
  write { s with tty } []

end Picture

inductive Op
  | write (buf : List UInt8)
  | blink (changed : Bool)

def Op.run (s : Picture) : Op → Result Picture
  | .write buf => s.write buf
  | .blink changed => s.blink changed

-- ---------------------------------------------------------------------------
-- The invariant
-- ---------------------------------------------------------------------------

/-- The screen shows the whole grid. -/
structure Picture.Settled (s : Picture) : Prop where
  two_le : 2 ≤ s.tty.size
  cursor_lt : s.tty.cursor < s.tty.size
  fits : s.tty.Fits
  shown : ∀ i < s.tty.size, s.tty.Shown s.showCursor s.fb i

theorem render_settled (htwo : 2 ≤ s.tty.size) (hcursor : s.tty.cursor < s.tty.size)
    (hfits : s.tty.Fits) (h : s.tty.UpToDate s.showCursor s.fb) :
    ∃ s', s.render = .ok s' ∧ s'.Settled := by
  refine ⟨{ s with tty := s.tty.cleared, fb := s.tty.rendered s.showCursor s.fb }, ?_, ?_⟩
  · unfold Picture.render
    rw [ttyRender_eq]
    rfl
  · exact ⟨htwo, hcursor, hfits.cleared, shown_of_upToDate hfits h⟩

/-- **A full redraw** shows everything, whatever the screen has been before. -/
theorem redraw_settled (htwo : 2 ≤ s.tty.size) (hcursor : s.tty.cursor < s.tty.size)
    (hfits : s.tty.Fits) : ∃ s', s.redraw = .ok s' ∧ s'.Settled := by
  unfold Picture.redraw
  rw [ttyMarkAll_eq, ok_bind]
  refine render_settled htwo hcursor hfits.marks fun i hi => .inl ?_
  exact marks_dirty.2 (.inl (List.mem_range.2 hi))

theorem write_settled (htwo : 2 ≤ s.tty.size) (hcursor : s.tty.cursor < s.tty.size)
    (hfits : s.tty.Fits) (h : s.tty.UpToDate s.showCursor s.fb) (buf : List UInt8) :
    ∃ s', s.write buf = .ok s' ∧ s'.Settled := by
  obtain ⟨tty', hputs, hkept⟩ := ttyPuts_kept htwo hcursor buf
  have hwrite : s.write buf = Picture.render { s with tty := tty' } := by
    unfold Picture.write ttyWrite
    rw [hputs, ok_bind]
    rfl
  rw [hwrite]
  exact render_settled (hkept.size_eq ▸ htwo) hkept.cursor_lt (hkept.fits hfits)
    (hkept.upToDate h)

/-- Only the cell of the cursor depends on `show_cursor`. -/
theorem shown_of_ne_cursor (hne : i ≠ tty.cursor) (h : tty.Shown showCursor fb i) :
    tty.Shown showCursor' fb i := by
  have hdraw : tty.draw showCursor' i = tty.draw showCursor i := by
    unfold Tty.draw
    rw [if_neg (fun hcur => hne hcur.1), if_neg (fun hcur => hne hcur.1)]
  unfold Tty.Shown at h ⊢
  rwa [hdraw]

theorem blink_settled (h : s.Settled) (changed : Bool) :
    ∃ s', s.blink changed = .ok s' ∧ s'.Settled := by
  unfold Picture.blink
  dsimp only
  rw [ttyMark_eq h.cursor_lt, ok_bind]
  have hmarked : (s.tty.marks [s.tty.cursor]).UpToDate (!s.showCursor || changed) s.fb := by
    intro i hi
    by_cases hcur : i = s.tty.cursor
    · exact .inl (marks_dirty.2 (.inl (List.mem_singleton.2 hcur)))
    · exact .inr (shown_of_ne_cursor hcur (h.shown i hi))
  exact write_settled
    (s := ⟨s.tty.marks [s.tty.cursor], !s.showCursor || changed, s.fb⟩)
    h.two_le h.cursor_lt h.fits.marks hmarked []

/-- **One step.** -/
theorem run_settled (h : s.Settled) (op : Op) : ∃ s', Op.run s op = .ok s' ∧ s'.Settled := by
  cases op with
  | write buf =>
    exact write_settled h.two_le h.cursor_lt h.fits (fun i hi => .inr (h.shown i hi)) buf
  | blink changed => exact blink_settled h changed

theorem foldlM_run_settled (h : s.Settled) (ops : List Op) :
    ∃ s', ops.foldlM Op.run s = .ok s' ∧ s'.Settled := by
  induction ops generalizing s with
  | nil => exact ⟨s, rfl, h⟩
  | cons op ops ih =>
    obtain ⟨s', hrun, hs'⟩ := run_settled h op
    rw [List.foldlM_cons, hrun, ok_bind]
    exact ih hs'

theorem redraw_eq :
    s.redraw = .ok { s with
      tty := (s.tty.marks (List.range s.tty.size)).cleared
      fb := (s.tty.marks (List.range s.tty.size)).rendered s.showCursor s.fb } := by
  unfold Picture.redraw Picture.render
  rw [ttyMarkAll_eq, ok_bind, ttyRender_eq]
  rfl

/-- A full redraw of a settled picture changes nothing on the screen. -/
theorem redraw_of_settled (h : s.Settled) : ∃ s', s.redraw = .ok s' ∧ s'.fb = s.fb :=
  ⟨_, redraw_eq, render_of_shown h.fits.marks h.shown⟩

-- ---------------------------------------------------------------------------
-- Incremental and full redraws
-- ---------------------------------------------------------------------------

/--
**The incremental screen is that of a full redraw**, after any sequence of writes and
blinks that starts with a full redraw; this also covers a grid that is not on the current
display. Every further write marks each cell it changes, and those the cursor
enters or leaves.
-/
theorem redraw_after_steps (htwo : 2 ≤ s.tty.size) (hcursor : s.tty.cursor < s.tty.size)
    (hfits : s.tty.Fits) (ops : List Op) :
    ∃ s' s'', s.redraw = .ok s' ∧ ops.foldlM Op.run s' = .ok s'' ∧
      (∃ full, s''.redraw = .ok full ∧ full.fb = s''.fb) ∧
      ∀ buf, ∃ tty', ttyPuts s''.tty buf = .ok tty' ∧ Kept s''.tty tty' := by
  obtain ⟨s', hredraw, hs'⟩ := redraw_settled htwo hcursor hfits
  obtain ⟨s'', hrun, hs''⟩ := foldlM_run_settled hs' ops
  refine ⟨s', s'', hredraw, hrun, redraw_of_settled hs'', fun buf => ?_⟩
  exact ttyPuts_kept hs''.two_le hs''.cursor_lt buf

/-- A blank console of `columns` by `lines` on the first display. -/
def blank (columns lines : Nat) : Picture where
  tty := {
    display := 0
    lines := lines
    columns := columns
    buf := fun _ => ttyDefaultch
    cursor := 0
    dirty := fun _ => false }
  showCursor := true
  fb := { current := 0, screen := fun _ => 0 }

/-- A welcome on 80 columns, with a blink of the cursor. -/
theorem redraw_after_steps_welcome :
    ∃ s' s'', (blank 80 25).redraw = .ok s' ∧
      [Op.write [201, 205, 8, 10, 13], .blink false].foldlM Op.run s' = .ok s'' ∧
      (∃ full, s''.redraw = .ok full ∧ full.fb = s''.fb) ∧
      ∀ buf, ∃ tty', ttyPuts s''.tty buf = .ok tty' ∧ Kept s''.tty tty' :=
  redraw_after_steps (s := blank 80 25) (by decide) (by decide) ⟨by decide, by decide⟩ _

-- ---------------------------------------------------------------------------
-- A line of more than 8192 columns
-- ---------------------------------------------------------------------------

/-- The last sprites of a grid of one line are those of its last cell. -/
theorem sprites_of_line {n : Nat} (hlines : tty.lines = 1) (hcolumns : tty.columns = n + 1) :
    ∃ front, tty.sprites showCursor = front ++ tty.cellSprites showCursor 0 n := by
  refine ⟨(List.range n).flatMap fun x => tty.cellSprites showCursor 0 x, ?_⟩
  unfold Tty.sprites
  rw [hlines, hcolumns, List.range_one, List.flatMap_singleton, List.range_succ,
    List.flatMap_append, List.flatMap_singleton]

/-- Cell 8192 of a line is drawn over cell 0. -/
theorem rendered_of_wide (hlines : tty.lines = 1) (hcolumns : tty.columns = 8193)
    (hdirty : tty.dirty 8192 = true) (hdisplay : tty.display % 2 ^ 4 = fb.current) :
    (tty.rendered showCursor fb).screen (0, 0) = tty.draw showCursor 8192 * 2 + 1 := by
  obtain ⟨front, hfront⟩ : ∃ front, tty.sprites showCursor =
    front ++ tty.cellSprites showCursor 0 8192 := sprites_of_line hlines hcolumns
  have hlast : 8192 < tty.columns := by omega
  have hcell : 0 * tty.columns + 8192 = 8192 := by omega
  unfold Tty.rendered
  rw [hfront, List.foldl_append]
  refine foldl_fbDraw_screen ?_ (.inr ⟨tty.tile showCursor 8192 0, ?_, ?_, ?_⟩)
  · intro sp hmem _ hp
    obtain ⟨-, b, hb, rfl⟩ := (mem_cellSprites hlast).1 hmem
    rw [hcell] at hp ⊢
    have hy : (8192 / tty.columns * 16 + 8 * b) % 2 ^ 16 = 0 := (Prod.mk.inj hp).2
    rw [hcolumns] at hy
    obtain rfl : b = 0 := by omega
    exact tile_texture (by decide)
  · refine (mem_cellSprites hlast).2 ⟨?_, 0, by decide, ?_⟩
    · rwa [hcell]
    · rw [hcell]
  · refine (draws_tile (by decide)).2 ?_
    rwa [foldl_fbDraw_current]
  · simp [Tty.tile, sprite, hcolumns]

/-- With the first two cells marked, cell 0 is seen. -/
theorem rendered_of_first (hlines : tty.lines = 1) (hcolumns : tty.columns = 8193)
    (hdirty : ∀ i < tty.size, tty.dirty i = true ↔ i ∈ [0, 1])
    (hdisplay : tty.display % 2 ^ 4 = fb.current) :
    (tty.rendered showCursor fb).screen (0, 0) = tty.draw showCursor 0 * 2 + 1 := by
  have hpos : 0 < tty.size := by
    unfold Tty.size
    rw [hlines, hcolumns]
    decide
  refine foldl_fbDraw_screen ?_ (.inr ⟨tty.tile showCursor 0 0, ?_, ?_, ?_⟩)
  · intro sp hmem _ hp
    obtain ⟨i, hi, hmarked, b, hb, rfl⟩ := mem_sprites.1 hmem
    have hx : i % tty.columns * 8 % 2 ^ 16 = 0 := (Prod.mk.inj hp).1
    have hy : (i / tty.columns * 16 + 8 * b) % 2 ^ 16 = 0 := (Prod.mk.inj hp).2
    have hfirst : i = 0 ∨ i = 1 := by
      obtain rfl | hone := List.mem_cons.1 ((hdirty i hi).1 hmarked)
      · exact .inl rfl
      · exact .inr (List.mem_singleton.1 hone)
    rw [hcolumns] at hx hy
    obtain rfl : i = 0 := by omega
    obtain rfl : b = 0 := by omega
    exact tile_texture (by decide)
  · exact mem_sprites.2 ⟨0, hpos, (hdirty 0 hpos).2 List.mem_cons_self, 0, by decide, rfl⟩
  · exact (draws_tile (by decide)).2 hdisplay
  · simp [Tty.tile, sprite, hcolumns]

/-- One character inside of a line. -/
theorem write_char_eq {ch : UInt8} (h : s.tty.cursor + 1 < s.tty.size)
    (hcr : ch ≠ carriageReturn) (hbs : ch ≠ backspace) (hnl : ch ≠ newline) :
    s.write [ch] = .ok { s with
      tty := ((s.tty.put ch).marks [s.tty.cursor, s.tty.cursor + 1]).cleared
      fb := ((s.tty.put ch).marks [s.tty.cursor, s.tty.cursor + 1]).rendered
        s.showCursor s.fb } := by
  have hputs : ttyPuts s.tty [ch] =
      .ok ((s.tty.put ch).marks [s.tty.cursor, s.tty.cursor + 1]) := by
    unfold ttyPuts
    rw [List.foldlM_cons, ttyPutc_char (Nat.lt_of_succ_lt h) hcr hbs hnl,
      if_neg (Nat.ne_of_lt h), ok_bind]
    rfl
  unfold Picture.write ttyWrite
  rw [hputs, ok_bind, ttyRender_eq]
  rfl

/-- The letter `'a'` at the start of a wide line is seen after the write, and a full redraw
draws the blank of the last cell over it. -/
theorem write_of_wide (hlines : s.tty.lines = 1) (hcolumns : s.tty.columns = 8193)
    (hcursor : s.tty.cursor = 0) (hclean : ∀ i < s.tty.size, s.tty.dirty i = false)
    (hblank : (s.tty.buf 8192).ch = nul) (hdisplay : s.tty.display % 2 ^ 4 = s.fb.current) :
    ∃ s' full, s.write [97] = .ok s' ∧ s'.redraw = .ok full ∧
      s'.fb.screen (0, 0) = 195 ∧ full.fb.screen (0, 0) = 1 := by
  have hsize : s.tty.size = 8193 := by
    unfold Tty.size
    rw [hlines, hcolumns]
  have hroom : s.tty.cursor + 1 < s.tty.size := by omega
  -- cell 0 holds the letter, and the cursor is behind it
  have hletter : (s.tty.put 97).draw s.showCursor 0 = 97 := by
    have hch : ((s.tty.put 97).buf 0).ch = 97 := by
      show (Function.update s.tty.buf s.tty.cursor _ 0).ch = 97
      rw [hcursor, Function.update_self]
    unfold Tty.draw
    rw [put_cursor, if_neg (fun h => Nat.zero_ne_add_one _ h.1), hch]
    decide
  have hlast : (s.tty.put 97).draw s.showCursor 8192 = 0 := by
    have hch : ((s.tty.put 97).buf 8192).ch = nul := by
      show (Function.update s.tty.buf s.tty.cursor _ 8192).ch = nul
      rw [Function.update_of_ne (by omega)]
      exact hblank
    unfold Tty.draw
    rw [put_cursor, if_neg (fun h => by omega), hch]
    decide
  obtain ⟨written, hwritten⟩ : ∃ t : Tty,
      t = (s.tty.put 97).marks [s.tty.cursor, s.tty.cursor + 1] := ⟨_, rfl⟩
  obtain ⟨full, hfull⟩ : ∃ t : Tty,
      t = written.cleared.marks (List.range written.cleared.size) := ⟨_, rfl⟩
  have hmarked : ∀ i < written.size, written.dirty i = true ↔ i ∈ [0, 1] := by
    rw [hwritten]
    intro i hi
    have hclean' : (s.tty.put 97).dirty i = false := hclean i hi
    rw [marks_dirty, hcursor, hclean']
    exact ⟨fun h => h.resolve_right (by decide), .inl⟩
  have hmarked' : full.dirty 8192 = true := by
    rw [hfull, hwritten]
    exact marks_dirty.2 (.inl (List.mem_range.2 (show 8192 < s.tty.size by omega)))
  have hseen : (written.rendered s.showCursor s.fb).screen (0, 0) = 195 := by
    rw [rendered_of_first (by rw [hwritten]; exact hlines) (by rw [hwritten]; exact hcolumns)
      hmarked (by rw [hwritten]; exact hdisplay), hwritten]
    exact congrArg (fun d => d * 2 + 1) hletter
  have hcovered : (full.rendered s.showCursor (written.rendered s.showCursor s.fb)).screen (0, 0) =
      1 := by
    rw [rendered_of_wide (by rw [hfull, hwritten]; exact hlines)
      (by rw [hfull, hwritten]; exact hcolumns) hmarked'
      (by rw [hfull, hwritten, rendered_current]; exact hdisplay), hfull, hwritten]
    exact congrArg (fun d => d * 2 + 1) hlast
  have hwrite : s.write [97] = .ok { s with
      tty := written.cleared, fb := written.rendered s.showCursor s.fb } := by
    rw [hwritten]
    exact write_char_eq hroom (by decide) (by decide) (by decide)
  refine ⟨_, _, hwrite, redraw_eq, hseen, ?_⟩
  rw [hfull] at hcovered
  exact hcovered

theorem redraw_write_of_wide (hlines : s.tty.lines = 1) (hcolumns : s.tty.columns = 8193)
    (hcursor : s.tty.cursor = 0) (hblank : (s.tty.buf 8192).ch = nul)
    (hdisplay : s.tty.display % 2 ^ 4 = s.fb.current) :
    ∃ s' s'' full, s.redraw = .ok s' ∧ Op.run s' (.write [97]) = .ok s'' ∧
      s''.redraw = .ok full ∧ s''.fb.screen (0, 0) = 195 ∧ full.fb.screen (0, 0) = 1 := by
  obtain ⟨s'', full, hwrite, hredraw, hs'', hfull⟩ := write_of_wide
    (s := { s with
      tty := (s.tty.marks (List.range s.tty.size)).cleared
      fb := (s.tty.marks (List.range s.tty.size)).rendered s.showCursor s.fb })
    hlines hcolumns hcursor (fun i hi => cleared_dirty hi) hblank
    (hdisplay.trans rendered_current.symm)
  exact ⟨_, s'', full, redraw_eq, hwrite, hredraw, hs'', hfull⟩

/-- The screen after a write is not that of a full redraw. -/
theorem redraw_of_wide :
    2 ≤ (blank 8193 1).tty.size ∧ (blank 8193 1).tty.cursor < (blank 8193 1).tty.size ∧
      (blank 8193 1).fb.current = (blank 8193 1).tty.display ∧
      ∃ s s' full, (blank 8193 1).redraw = .ok s ∧ Op.run s (.write [97]) = .ok s' ∧
        s'.redraw = .ok full ∧ s'.fb.screen (0, 0) = 195 ∧ full.fb.screen (0, 0) = 1 :=
  ⟨by decide, by decide, rfl, redraw_write_of_wide rfl rfl rfl rfl rfl⟩

end MyOs.Console
