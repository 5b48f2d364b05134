import MyOs.Console.Grid

/-!
# What `tty_putc` marks

A cell that is not marked afterwards was not marked before, shows the same character,
and the cursor neither came nor went (`Kept`). Every branch of `tty_putc` keeps
this, and so does the loop of `tty_write`.

* `ttyPutc_kept` — one character: wraps, backspaces and scrolls.
* `ttyPuts_kept` — a whole buffer.
* `kept_of_ttyPuts` — the same on a grid of one cell, where a backspace fails.
-/

namespace MyOs.Console

variable {tty tty' tty'' : Tty} {i p : Nat} {l : List Nat} {ch : UInt8} {buf : List UInt8}

-- ---------------------------------------------------------------------------
-- Unmarked cells
-- ---------------------------------------------------------------------------

/-- `tty'` has all marks it needs to be drawn over `tty`. -/
structure Kept (tty tty' : Tty) : Prop where
  display_eq : tty'.display = tty.display
  lines_eq : tty'.lines = tty.lines
  columns_eq : tty'.columns = tty.columns
  cursor_lt : tty'.cursor < tty'.size
  unmarked : ∀ i < tty.size, tty'.dirty i = false →
    tty.dirty i = false ∧ (tty'.buf i).ch = (tty.buf i).ch ∧ (i = tty'.cursor ↔ i = tty.cursor)

theorem Kept.size_eq (h : Kept tty tty') : tty'.size = tty.size := by
  unfold Tty.size
  rw [h.columns_eq, h.lines_eq]

theorem Kept.refl (h : tty.cursor < tty.size) : Kept tty tty :=
  ⟨rfl, rfl, rfl, h, fun _ _ hclean => ⟨hclean, rfl, Iff.rfl⟩⟩

theorem Kept.trans (h : Kept tty tty') (h' : Kept tty' tty'') : Kept tty tty'' where
  display_eq := h'.display_eq.trans h.display_eq
  lines_eq := h'.lines_eq.trans h.lines_eq
  columns_eq := h'.columns_eq.trans h.columns_eq
  cursor_lt := h'.cursor_lt
  unmarked i hi hclean := by
    obtain ⟨hclean', hch', hcur'⟩ := h'.unmarked i (h.size_eq ▸ hi) hclean
    obtain ⟨hclean'', hch, hcur⟩ := h.unmarked i hi hclean'
    exact ⟨hclean'', hch'.trans hch, hcur'.trans hcur⟩

/-- Marks on top of a change that leaves the marks alone. -/
theorem kept_marks (hdisplay : tty'.display = tty.display) (hlines : tty'.lines = tty.lines)
    (hcolumns : tty'.columns = tty.columns) (hcursor : tty'.cursor < tty.size)
    (hdirty : ∀ i < tty.size, i ∉ l → tty'.dirty i = tty.dirty i)
    (hch : ∀ i < tty.size, i ∉ l → (tty'.buf i).ch = (tty.buf i).ch)
    (hcur : ∀ i < tty.size, i ∉ l → (i = tty'.cursor ↔ i = tty.cursor)) :
    Kept tty (tty'.marks l) where
  display_eq := hdisplay
  lines_eq := hlines
  columns_eq := hcolumns
  cursor_lt := by
    rw [marks_cursor, marks_size, Tty.size, hcolumns, hlines]
    exact hcursor
  unmarked i hi hclean := by
    have hnot : ¬ (i ∈ l ∨ tty'.dirty i = true) := fun h => by
      rw [marks_dirty.2 h] at hclean
      exact absurd hclean (by decide)
    have hout : i ∉ l := fun h => hnot (.inl h)
    have hbefore : tty'.dirty i = false := Bool.eq_false_iff.2 fun h => hnot (.inr h)
    exact ⟨hdirty i hi hout ▸ hbefore, hch i hi hout, hcur i hi hout⟩

/-- With all cells marked there is nothing left to show. -/
theorem kept_marks_all (hdisplay : tty'.display = tty.display) (hlines : tty'.lines = tty.lines)
    (hcolumns : tty'.columns = tty.columns) (hcursor : tty'.cursor < tty.size) :
    Kept tty (tty'.marks (List.range tty.size)) :=
  kept_marks hdisplay hlines hcolumns hcursor
    (fun _ hi hout => absurd (List.mem_range.2 hi) hout)
    (fun _ hi hout => absurd (List.mem_range.2 hi) hout)
    (fun _ hi hout => absurd (List.mem_range.2 hi) hout)

-- ---------------------------------------------------------------------------
-- `tty_putc`
-- ---------------------------------------------------------------------------

/-- The cursor is in its row, and so is the start of it. -/
theorem cursor_mem_row (h : tty.cursor < tty.size) :
    tty.cursor ∈ tty.row tty.start ∧ tty.start ∈ tty.row tty.start := by
  have hcol := columns_pos h
  refine ⟨(mem_row hcol).2 ?_, (mem_row hcol).2 rfl⟩
  have hstart : tty.start = tty.columns * (tty.cursor / tty.columns) := by
    have := Nat.div_add_mod tty.cursor tty.columns
    unfold Tty.start
    omega
  rw [hstart, Nat.mul_div_cancel_left _ hcol]

theorem cr_kept (h : tty.cursor < tty.size) :
    Kept tty ((tty.moved tty.start).marks (tty.row tty.start)) := by
  obtain ⟨hcursor, hstart⟩ := cursor_mem_row h
  refine kept_marks rfl rfl rfl (start_lt h) (fun _ _ _ => rfl) (fun _ _ _ => rfl) ?_
  intro i hi hout
  exact ⟨fun heq => absurd (heq ▸ hstart) hout, fun heq => absurd (heq ▸ hcursor) hout⟩

theorem ne_of_not_mem_pair {k : Nat} (h : i ∉ [p, k]) : i ≠ p ∧ i ≠ k := by
  rwa [List.mem_cons, List.mem_singleton, not_or] at h

/-- A backspace across the start of a line marks the end of the line above. -/
theorem backsp_kept (h : tty.cursor < tty.size) :
    Kept tty (tty.erased.marks [tty.cursor - 1, tty.cursor]) := by
  refine kept_marks rfl rfl rfl (Nat.lt_of_le_of_lt (Nat.sub_le _ _) h) (fun _ _ _ => rfl) ?_ ?_
  · intro i hi hout
    exact congrArg Character.ch (Function.update_of_ne (ne_of_not_mem_pair hout).1 _ _)
  · intro i hi hout
    obtain ⟨hprev, hhere⟩ := ne_of_not_mem_pair hout
    exact ⟨fun heq => absurd heq hprev, fun heq => absurd heq hhere⟩

/-- A scroll leaves the cursor at the start of the last row. -/
theorem scrolled_kept (h : tty.cursor < tty.size) (hdisplay : tty'.display = tty.display)
    (hlines : tty'.lines = tty.lines) (hcolumns : tty'.columns = tty.columns) :
    Kept tty (tty'.scrolled.marks (List.range tty.size)) := by
  have hsize : tty'.size = tty.size := by
    unfold Tty.size
    rw [hcolumns, hlines]
  have hcursor : tty'.scrolled.cursor = tty.size - tty.columns := by
    show tty'.size - tty'.columns = _
    rw [hsize, hcolumns]
  refine kept_marks_all hdisplay hlines hcolumns ?_
  rw [hcursor]
  exact Nat.sub_lt (Nat.zero_lt_of_lt h) (columns_pos h)

theorem newline_kept (h : tty.cursor < tty.size) (hlt : tty.start + tty.columns < tty.size) :
    Kept tty ((tty.moved (tty.start + tty.columns)).marks
      (tty.row tty.start ++ tty.row (tty.start + tty.columns))) := by
  have hcursor := (cursor_mem_row h).1
  have hnext : tty.start + tty.columns ∈ tty.row (tty.start + tty.columns) :=
    (mem_row (columns_pos h)).2 rfl
  refine kept_marks rfl rfl rfl hlt (fun _ _ _ => rfl) (fun _ _ _ => rfl) ?_
  intro i hi hout
  exact ⟨fun heq => absurd (List.mem_append_right _ (heq ▸ hnext)) hout,
    fun heq => absurd (List.mem_append_left _ (heq ▸ hcursor)) hout⟩

theorem char_kept (hlt : tty.cursor + 1 < tty.size) :
    Kept tty ((tty.put ch).marks [tty.cursor, tty.cursor + 1]) := by
  refine kept_marks rfl rfl rfl hlt (fun _ _ _ => rfl) ?_ ?_
  · intro i hi hout
    exact congrArg Character.ch (Function.update_of_ne (ne_of_not_mem_pair hout).1 _ _)
  · intro i hi hout
    obtain ⟨hhere, hnext⟩ := ne_of_not_mem_pair hout
    exact ⟨fun heq => absurd heq hnext, fun heq => absurd heq hhere⟩

/-- **`tty_putc`** marks what it changes. -/
theorem ttyPutc_kept (hsize : ch = backspace → 2 ≤ tty.size) (h : tty.cursor < tty.size) :
    ∃ tty', ttyPutc tty ch = .ok tty' ∧ Kept tty tty' := by
  by_cases hcr : ch = carriageReturn
  · rw [hcr]
    exact ⟨_, ttyPutc_cr h, cr_kept h⟩
  by_cases hbs : ch = backspace
  · rw [hbs]
    refine ⟨_, ttyPutc_backsp (hsize hbs) h, ?_⟩
    split
    · exact backsp_kept h
    · exact kept_marks rfl rfl rfl h (fun _ _ _ => rfl) (fun _ _ _ => rfl) (fun _ _ _ => Iff.rfl)
  by_cases hnl : ch = newline
  · rw [hnl]
    refine ⟨_, ttyPutc_newline h, ?_⟩
    split
    · exact scrolled_kept h rfl rfl rfl
    · rename_i hend
      exact newline_kept h ((start_add_columns h).resolve_left hend)
  · refine ⟨_, ttyPutc_char h hcr hbs hnl, ?_⟩
    split
    · exact scrolled_kept h rfl rfl rfl
    · rename_i hend
      exact char_kept (by omega)

/-- **The loop of `tty_write`** marks what it changes. -/
theorem ttyPuts_kept (hsize : 2 ≤ tty.size) (h : tty.cursor < tty.size) (buf : List UInt8) :
    ∃ tty', ttyPuts tty buf = .ok tty' ∧ Kept tty tty' := by
  induction buf generalizing tty with
  | nil => exact ⟨tty, rfl, .refl h⟩
  | cons ch buf ih =>
    obtain ⟨tty', hputc, hkept⟩ := ttyPutc_kept (fun _ => hsize) h
    obtain ⟨tty'', hputs, hkept'⟩ := ih (hkept.size_eq ▸ hsize) hkept.cursor_lt
    refine ⟨tty'', ?_, hkept.trans hkept'⟩
    unfold ttyPuts
    rw [List.foldlM_cons, hputc, ok_bind]
    exact hputs

/-- On a grid of one cell, too, unless it fails. -/
theorem kept_of_ttyPutc (h : tty.cursor < tty.size) (hputc : ttyPutc tty ch = .ok tty') :
    Kept tty tty' := by
  by_cases hsize : ch = backspace → 2 ≤ tty.size
  · obtain ⟨tty'', hputc', hkept⟩ := ttyPutc_kept hsize h
    rwa [Except.ok.inj (hputc.symm.trans hputc')]
  · obtain ⟨hbs, hsmall⟩ := Classical.not_imp.1 hsize
    rw [hbs, ttyPutc_backsp_error (by omega) h] at hputc
    cases hputc

theorem kept_of_ttyPuts (h : tty.cursor < tty.size) (hputs : ttyPuts tty buf = .ok tty') :
    Kept tty tty' := by
  induction buf generalizing tty with
  | nil =>
    cases hputs
    exact .refl h
  | cons ch buf ih =>
    unfold ttyPuts at hputs
    rw [List.foldlM_cons] at hputs
    obtain ⟨tty'', hputc, hrest⟩ := bind_eq_ok.1 hputs
    have hkept := kept_of_ttyPutc h hputc
    exact hkept.trans (ih hkept.cursor_lt hrest)

end MyOs.Console
