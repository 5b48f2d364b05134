import MyOs.Console.Marking

/-!
# What `tty_render` draws

The sprites of a grid are the two tiles of each of its dirty cells (`mem_sprites`). On a
grid that fits into the fields of `struct sprite` two tiles never meet, so a cell that is
drawn is seen (`shown_of_upToDate`), and a cell that is already shown may be drawn
again without a trace (`render_of_shown`).
-/

namespace MyOs.Console

variable {tty tty' : Tty} {showCursor : Bool} {fb : Fb} {sp : Sprite} {l : List Sprite}
  {i j b v x y : Nat} {p : Nat × Nat}

-- ---------------------------------------------------------------------------
-- Sprites
-- ---------------------------------------------------------------------------

/-- The sprite of one half of cell `i`, the upper one for `b = 0`. -/
def Tty.tile (tty : Tty) (showCursor : Bool) (i b : Nat) : Sprite :=
  sprite (i % tty.columns * 8) (i / tty.columns * 16 + 8 * b) tty.display
    (tty.draw showCursor i * 2 + 1 + b)

theorem cellSprites_eq (hx : x < tty.columns) :
    tty.cellSprites showCursor y x =
      if tty.dirty (y * tty.columns + x) = true then
        [tty.tile showCursor (y * tty.columns + x) 0, tty.tile showCursor (y * tty.columns + x) 1]
      else [] := by
  have hmod : (y * tty.columns + x) % tty.columns = x := by
    rw [Nat.mul_comm, Nat.mul_add_mod, Nat.mod_eq_of_lt hx]
  have hdiv : (y * tty.columns + x) / tty.columns = y := by
    rw [Nat.mul_comm, Nat.mul_add_div (Nat.zero_lt_of_lt hx), Nat.div_eq_of_lt hx, Nat.add_zero]
  unfold Tty.cellSprites Tty.tile
  rw [hmod, hdiv]
  rfl

theorem mem_cellSprites (hx : x < tty.columns) :
    sp ∈ tty.cellSprites showCursor y x ↔
      tty.dirty (y * tty.columns + x) = true ∧
        ∃ b < 2, sp = tty.tile showCursor (y * tty.columns + x) b := by
  rw [cellSprites_eq hx]
  split
  · rename_i hdirty
    rw [List.mem_cons, List.mem_singleton]
    constructor
    · rintro (rfl | rfl)
      · exact ⟨hdirty, 0, by decide, rfl⟩
      · exact ⟨hdirty, 1, by decide, rfl⟩
    · rintro ⟨-, b, hb, rfl⟩
      obtain rfl | rfl : b = 0 ∨ b = 1 := by omega
      · exact .inl rfl
      · exact .inr rfl
  · rename_i hclean
    exact ⟨fun hmem => absurd hmem List.not_mem_nil, fun h => absurd h.1 hclean⟩

/-- **The sprites of a grid** are the tiles of its dirty cells. -/
theorem mem_sprites :
    sp ∈ tty.sprites showCursor ↔
      ∃ i < tty.size, tty.dirty i = true ∧ ∃ b < 2, sp = tty.tile showCursor i b := by
  unfold Tty.sprites
  rw [List.mem_flatMap]
  constructor
  · rintro ⟨y, hy, hmem⟩
    obtain ⟨x, hx, hcell⟩ := List.mem_flatMap.1 hmem
    rw [List.mem_range] at hx hy
    have hcol : 0 < tty.columns := Nat.zero_lt_of_lt hx
    refine ⟨y * tty.columns + x, (lt_size_iff hcol).2 ?_, (mem_cellSprites hx).1 hcell⟩
    rwa [Nat.mul_comm, Nat.mul_add_div hcol, Nat.div_eq_of_lt hx, Nat.add_zero]
  · rintro ⟨i, hi, hcell⟩
    have hcol := columns_pos hi
    have hx : i % tty.columns < tty.columns := Nat.mod_lt i hcol
    refine ⟨i / tty.columns, List.mem_range.2 ((lt_size_iff hcol).1 hi), ?_⟩
    refine List.mem_flatMap.2 ⟨i % tty.columns, List.mem_range.2 hx, (mem_cellSprites hx).2 ?_⟩
    rwa [Nat.div_add_mod']

theorem flatMap_length_le {α β : Type*} {l : List α} {f : α → List β} {n : Nat}
    (h : ∀ a ∈ l, (f a).length ≤ n) : (l.flatMap f).length ≤ l.length * n := by
  induction l with
  | nil => exact Nat.zero_le _
  | cons a l ih =>
    have ha := h a List.mem_cons_self
    have hl := ih fun a' hmem => h a' (List.mem_cons_of_mem a hmem)
    rw [List.flatMap_cons, List.length_append, List.length_cons, Nat.succ_mul]
    omega

/-- `sp_buf` has room for all of them. -/
theorem sprites_length_le : (tty.sprites showCursor).length ≤ tty.size * 2 := by
  have hcell : ∀ y, ∀ x ∈ List.range tty.columns,
      (tty.cellSprites showCursor y x).length ≤ 2 := by
    intro y x hx
    rw [cellSprites_eq (List.mem_range.1 hx)]
    split
    · exact Nat.le_refl 2
    · exact Nat.zero_le 2
  have hrow : ∀ y ∈ List.range tty.lines, ((List.range tty.columns).flatMap fun x =>
      tty.cellSprites showCursor y x).length ≤ tty.columns * 2 := by
    intro y _
    have hle := flatMap_length_le (hcell y)
    rwa [List.length_range] at hle
  calc (tty.sprites showCursor).length
      ≤ (List.range tty.lines).length * (tty.columns * 2) := flatMap_length_le hrow
    _ = tty.size * 2 := by
      rw [List.length_range, ← Nat.mul_assoc, Nat.mul_comm tty.lines, Tty.size]

-- ---------------------------------------------------------------------------
-- The frame buffer
-- ---------------------------------------------------------------------------

/-- `fb_write` draws the sprite. -/
def Fb.Draws (fb : Fb) (sp : Sprite) : Prop := sp.texture > 0 ∧ sp.display = fb.current

instance (fb : Fb) (sp : Sprite) : Decidable (fb.Draws sp) :=
  inferInstanceAs (Decidable (_ ∧ _))

theorem fbDraw_current : (fbDraw fb sp).current = fb.current := by
  unfold fbDraw
  split
  · rfl
  · rfl

theorem foldl_fbDraw_current : (l.foldl fbDraw fb).current = fb.current := by
  induction l generalizing fb with
  | nil => rfl
  | cons sp l ih => exact ih.trans fbDraw_current

theorem fbDraw_screen :
    (fbDraw fb sp).screen p = if fb.Draws sp ∧ (sp.x, sp.y) = p then sp.texture
      else fb.screen p := by
  unfold fbDraw Fb.Draws
  by_cases hdraw : sp.texture > 0 ∧ sp.display = fb.current
  · rw [if_pos hdraw]
    by_cases hp : (sp.x, sp.y) = p
    · rw [if_pos ⟨hdraw, hp⟩, ← hp]
      exact Function.update_self ..
    · rw [if_neg (fun h => hp h.2)]
      exact Function.update_of_ne (Ne.symm hp) ..
  · rw [if_neg hdraw, if_neg (fun h => hdraw h.1)]

/-- When all sprites at a position agree, it shows what they say as soon as one of them is
drawn, or if it did before. -/
theorem foldl_fbDraw_screen (hagree : ∀ sp ∈ l, fb.Draws sp → (sp.x, sp.y) = p → sp.texture = v)
    (h : fb.screen p = v ∨ ∃ sp ∈ l, fb.Draws sp ∧ (sp.x, sp.y) = p) :
    (l.foldl fbDraw fb).screen p = v := by
  induction l generalizing fb with
  | nil => exact h.resolve_right fun ⟨sp, hmem, _⟩ => absurd hmem List.not_mem_nil
  | cons sp l ih =>
    have hcurrent : ∀ sp', (fbDraw fb sp).Draws sp' ↔ fb.Draws sp' := fun sp' => by
      unfold Fb.Draws
      rw [fbDraw_current]
    refine ih (fun sp' hmem hdraw => ?_) ?_
    · exact hagree sp' (List.mem_cons_of_mem sp hmem) ((hcurrent sp').1 hdraw)
    · rw [fbDraw_screen]
      split
      · rename_i hhere
        exact .inl (hagree sp List.mem_cons_self hhere.1 hhere.2)
      · rename_i hnot
        obtain hbefore | ⟨sp', hmem, hdraw, hp⟩ := h
        · exact .inl hbefore
        · obtain rfl | hmem := List.mem_cons.1 hmem
          · exact absurd ⟨hdraw, hp⟩ hnot
          · exact .inr ⟨sp', hmem, (hcurrent sp').2 hdraw, hp⟩

/-- Sprites that are already shown leave no trace. -/
theorem foldl_fbDraw_idle (h : ∀ sp ∈ l, fb.Draws sp → fb.screen (sp.x, sp.y) = sp.texture) :
    l.foldl fbDraw fb = fb := by
  induction l generalizing fb with
  | nil => rfl
  | cons sp l ih =>
    have hidle : fbDraw fb sp = fb := by
      unfold fbDraw
      split
      · rename_i hdraw
        rw [← h sp List.mem_cons_self hdraw, Function.update_eq_self]
      · rfl
    rw [List.foldl_cons, hidle]
    exact ih fun sp' hmem => h sp' (List.mem_cons_of_mem sp hmem)

-- ---------------------------------------------------------------------------
-- Places
-- ---------------------------------------------------------------------------

/-- The positions of the grid fit into 16 bits. -/
structure Tty.Fits (tty : Tty) : Prop where
  columns_le : tty.columns ≤ 8192
  lines_le : tty.lines ≤ 4096

theorem Tty.Fits.marks {l : List Nat} (h : tty.Fits) : (tty.marks l).Fits :=
  ⟨h.columns_le, h.lines_le⟩

/-- Where one half of cell `i` belongs. -/
def Tty.place (tty : Tty) (i b : Nat) : Nat × Nat :=
  (i % tty.columns * 8, i / tty.columns * 16 + 8 * b)

theorem tile_place (hfits : tty.Fits) (hi : i < tty.size) (hb : b < 2) :
    ((tty.tile showCursor i b).x, (tty.tile showCursor i b).y) = tty.place i b := by
  have hcol := columns_pos hi
  have hx := Nat.mod_lt i hcol
  have hy := (lt_size_iff hcol).1 hi
  obtain ⟨hcolumns, hlines⟩ := hfits
  unfold Tty.tile sprite Tty.place
  rw [Nat.mod_eq_of_lt (show i % tty.columns * 8 < 2 ^ 16 by omega),
    Nat.mod_eq_of_lt (show i / tty.columns * 16 + 8 * b < 2 ^ 16 by omega)]

/-- **Two tiles never meet.** -/
theorem place_inj {b' : Nat} (hb : b < 2) (hb' : b' < 2) (h : tty.place i b = tty.place j b') :
    i = j ∧ b = b' := by
  obtain ⟨hx, hy⟩ := Prod.mk.inj h
  have hmod : i % tty.columns = j % tty.columns := by omega
  have hdiv : i / tty.columns = j / tty.columns := by omega
  refine ⟨?_, by omega⟩
  rw [← Nat.div_add_mod i tty.columns, hdiv, hmod, Nat.div_add_mod]

theorem tile_texture (hb : b < 2) :
    (tty.tile showCursor i b).texture = tty.draw showCursor i * 2 + 1 + b := by
  have hdraw : tty.draw showCursor i < 256 := by
    unfold Tty.draw
    split
    · decide
    · exact (tty.buf i).ch.toNat_lt
  exact Nat.mod_eq_of_lt (by omega)

theorem draws_tile (hb : b < 2) :
    fb.Draws (tty.tile showCursor i b) ↔ tty.display % 2 ^ 4 = fb.current := by
  unfold Fb.Draws
  rw [tile_texture hb]
  exact ⟨fun h => h.2, fun h => ⟨by omega, h⟩⟩

-- ---------------------------------------------------------------------------
-- `tty_render`
-- ---------------------------------------------------------------------------

/-- The grid without marks. -/
def Tty.cleared (tty : Tty) : Tty :=
  { tty with dirty := fun i => if i < tty.size then false else tty.dirty i }

theorem cleared_dirty (hi : i < tty.size) : tty.cleared.dirty i = false := if_pos hi

theorem Tty.Fits.cleared (h : tty.Fits) : tty.cleared.Fits := ⟨h.columns_le, h.lines_le⟩

/-- What `tty_render` sends to the frame buffer. -/
def Tty.rendered (tty : Tty) (showCursor : Bool) (fb : Fb) : Fb :=
  (tty.sprites showCursor).foldl fbDraw fb

theorem ttyRender_eq :
    ttyRender tty showCursor fb = .ok (tty.cleared, tty.rendered showCursor fb) := by
  unfold ttyRender inRange
  dsimp only
  rw [if_pos sprites_length_le, ok_bind]
  rfl

@[simp] theorem rendered_current : (tty.rendered showCursor fb).current = fb.current :=
  foldl_fbDraw_current

/-- The screen shows cell `i`, if it shows this display at all. -/
def Tty.Shown (tty : Tty) (showCursor : Bool) (fb : Fb) (i : Nat) : Prop :=
  tty.display % 2 ^ 4 = fb.current →
    ∀ b < 2, fb.screen (tty.place i b) = tty.draw showCursor i * 2 + 1 + b

/-- Every cell is shown, or marked. -/
def Tty.UpToDate (tty : Tty) (showCursor : Bool) (fb : Fb) : Prop :=
  ∀ i < tty.size, tty.dirty i = true ∨ tty.Shown showCursor fb i

/-- **A render of an up-to-date grid** shows all of it. -/
theorem shown_of_upToDate (hfits : tty.Fits) (h : tty.UpToDate showCursor fb) :
    ∀ i < tty.size, tty.Shown showCursor (tty.rendered showCursor fb) i := by
  intro i hi hdisplay b hb
  rw [rendered_current] at hdisplay
  refine foldl_fbDraw_screen ?_ ?_
  · -- the only sprite at this place is the tile of the cell itself
    intro sp hmem _ hp
    obtain ⟨j, hj, -, b', hb', rfl⟩ := mem_sprites.1 hmem
    rw [tile_place hfits hj hb'] at hp
    obtain ⟨rfl, rfl⟩ := place_inj hb' hb hp
    exact tile_texture hb
  · obtain hdirty | hshown := h i hi
    · refine .inr ⟨tty.tile showCursor i b, mem_sprites.2 ⟨i, hi, hdirty, b, hb, rfl⟩, ?_, ?_⟩
      · exact (draws_tile hb).2 hdisplay
      · exact tile_place hfits hi hb
    · exact .inl (hshown hdisplay b hb)

/-- **A render of a shown grid** leaves no trace, whatever is marked. -/
theorem render_of_shown (hfits : tty.Fits) (h : ∀ i < tty.size, tty.Shown showCursor fb i) :
    tty.rendered showCursor fb = fb := by
  refine foldl_fbDraw_idle fun sp hmem hdraw => ?_
  obtain ⟨i, hi, -, b, hb, rfl⟩ := mem_sprites.1 hmem
  rw [tile_place hfits hi hb, tile_texture hb]
  exact h i hi ((draws_tile hb).1 hdraw) b hb

/-- What has marked its changes is still up to date. -/
theorem Kept.upToDate (hkept : Kept tty tty') (h : tty.UpToDate showCursor fb) :
    tty'.UpToDate showCursor fb := by
  intro i hi
  by_cases hdirty : tty'.dirty i = true
  · exact .inl hdirty
  · rw [hkept.size_eq] at hi
    obtain ⟨hclean, hch, hcursor⟩ := hkept.unmarked i hi (Bool.eq_false_iff.2 hdirty)
    have hshown : tty.Shown showCursor fb i := by
      refine (h i hi).resolve_left ?_
      rw [hclean]
      decide
    have hdraw : tty'.draw showCursor i = tty.draw showCursor i := by
      unfold Tty.draw
      simp only [hch, hcursor]
    refine .inr ?_
    unfold Tty.Shown Tty.place at hshown ⊢
    rwa [hkept.display_eq, hkept.columns_eq, hdraw]

theorem Kept.fits (hkept : Kept tty tty') (h : tty.Fits) : tty'.Fits :=
  ⟨hkept.columns_eq ▸ h.columns_le, hkept.lines_eq ▸ h.lines_le⟩

end MyOs.Console
