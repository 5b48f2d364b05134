import MyOs.Lib.Transition
import MyOs.Console.Render

/-!
# Switching consoles

`dev_tty_task` brings a console to the front: it marks all cells without the lock, makes
the display current, and writes the empty string. Any number of other tasks may be in a
`tty_write` of the same console meanwhile. A section under the lock is one step, and so are
a `tty_mark` of `tty_mark_all` and the write of the `display_info`; `show_cursor` is left
alone by the others.

`drawn` is no part of the code: the sprites that have been drawn since the display became
current.

* `inv_step` — the invariant of runs.
* `seen_of_marked` — every cell has been drawn as long as all marks are still there when
  the display becomes current, and an undisturbed rest of the switch draws it only then.
* `switch_loses_cells` — the render of another task takes the marks away.
-/

namespace MyOs.Console.Switch

open MyOs.Transition

variable {n : Nat} {showCursor : Bool} {i : Nat} {buf : List UInt8} {t : Fin n}

-- ---------------------------------------------------------------------------
-- The machine
-- ---------------------------------------------------------------------------

/-- The next step of the switch. -/
inductive Switcher
  | mark (i : Nat)
  | info
  | puts
  | render
  | done
  deriving DecidableEq

/-- The display has become current. -/
def Switcher.isCurrent : Switcher → Bool
  | .mark _ => false
  | .info => false
  | _ => true

/-- Where another task is: outside of `tty_write`, or before one of its two sections. -/
inductive Task
  | idle
  | puts (buf : List UInt8)
  | render
  deriving DecidableEq

structure Sys (n : Nat) where
  tty : Tty
  fb : Fb
  switcher : Switcher
  task : Fin n → Task
  drawn : List Sprite

variable {S S' : Sys n}

namespace Sys

/-- The first section of `tty_write`. -/
def puts (S : Sys n) (buf : List UInt8) : Result (Sys n) := do
  let tty ← ttyPuts S.tty buf
  return { S with tty }

/-- The section of `tty_render`. -/
def render (showCursor : Bool) (S : Sys n) : Result (Sys n) := do
  let (tty, fb) ← ttyRender S.tty showCursor S.fb
  let drawn := S.drawn ++ (S.tty.sprites showCursor).filter fun sp => decide (S.fb.Draws sp)
  return { S with tty, fb, drawn }

/-- The next step of the switch. -/
def switch (showCursor : Bool) (S : Sys n) : Result (Sys n) :=
  match S.switcher with
  | .mark i =>
    if i < S.tty.size then do
      let tty ← ttyMark S.tty i
      return { S with tty, switcher := .mark (i + 1) }
    else return { S with switcher := .info }
  | .info => return { S with
      fb := fbWrite S.fb (.info S.tty.display), switcher := .puts, drawn := [] }
  | .puts => do
    let S ← S.puts []
    return { S with switcher := .render }
  | .render => do
    let S ← S.render showCursor
    return { S with switcher := .done }
  | .done => return S

end Sys

inductive Label (n : Nat)
  | switch
  | call (t : Fin n) (buf : List UInt8)
  | run (t : Fin n)

/-- **One step.** -/
inductive Step (showCursor : Bool) : Sys n → Label n → Sys n → Prop
  | switch {S S' : Sys n} : S.switcher ≠ .done → S.switch showCursor = .ok S' →
      Step showCursor S .switch S'
  | call {S : Sys n} {t : Fin n} {buf : List UInt8} : S.task t = .idle →
      Step showCursor S (.call t buf) { S with task := Function.update S.task t (.puts buf) }
  | puts {S S' : Sys n} {t : Fin n} {buf : List UInt8} : S.task t = .puts buf →
      S.puts buf = .ok S' →
      Step showCursor S (.run t) { S' with task := Function.update S'.task t .render }
  | render {S S' : Sys n} {t : Fin n} : S.task t = .render → S.render showCursor = .ok S' →
      Step showCursor S (.run t) { S' with task := Function.update S'.task t .idle }

/-- The start of a switch, with the other tasks anywhere in their calls. -/
structure Init (S : Sys n) : Prop where
  switcher_eq : S.switcher = .mark 0
  cursor_lt : S.tty.cursor < S.tty.size
  fits : S.tty.Fits
  display_lt : S.tty.display < 2 ^ 4

def Reachable (showCursor : Bool) : Sys n → Prop := Reach Init (Step showCursor)

-- ---------------------------------------------------------------------------
-- The property and its condition
-- ---------------------------------------------------------------------------

/-- The switch and all writes have completed. -/
def Complete (S : Sys n) : Prop := S.switcher = .done ∧ ∀ t, S.task t = .idle

/-- Cell `i` has been drawn since the display became current. -/
def Drawn (S : Sys n) (i : Nat) : Prop :=
  ∀ b < 2, ∃ sp ∈ S.drawn, (sp.x, sp.y) = S.tty.place i b

/-- **Every cell has been drawn**, and the screen shows the buffer. -/
def Seen (showCursor : Bool) (S : Sys n) : Prop :=
  ∀ i < S.tty.size, Drawn S i ∧
    ∀ b < 2, S.fb.screen (S.tty.place i b) = S.tty.draw showCursor i * 2 + 1 + b

/-- When the step makes the display current, every cell is still marked. -/
def Marked (S : Sys n) (a : Label n) : Prop :=
  a = .switch → S.switcher = .info → ∀ i < S.tty.size, S.tty.dirty i = true

theorem marked_of_ne {a : Label n} (h : S.switcher ≠ .info) : Marked S a :=
  fun _ hinfo => absurd hinfo h

-- ---------------------------------------------------------------------------
-- Sections
-- ---------------------------------------------------------------------------

/-- The console can be drawn. -/
structure Sound (tty : Tty) : Prop where
  cursor_lt : tty.cursor < tty.size
  fits : tty.Fits
  display_lt : tty.display < 2 ^ 4

theorem Sound.kept {tty tty' : Tty} (h : Sound tty) (hkept : Kept tty tty') : Sound tty' :=
  ⟨hkept.cursor_lt, hkept.fits h.fits, hkept.display_eq ▸ h.display_lt⟩

theorem Sound.cleared {tty : Tty} (h : Sound tty) : Sound tty.cleared :=
  ⟨h.cursor_lt, h.fits.cleared, h.display_lt⟩

theorem Sound.marks {tty : Tty} {l : List Nat} (h : Sound tty) : Sound (tty.marks l) :=
  ⟨h.cursor_lt, h.fits.marks, h.display_lt⟩

/-- Every cell is marked, or has been drawn and is shown. -/
structure Covered (showCursor : Bool) (S : Sys n) : Prop where
  current : S.tty.display = S.fb.current
  drawn : ∀ i < S.tty.size, S.tty.dirty i = true ∨ Drawn S i
  upToDate : S.tty.UpToDate showCursor S.fb

/-- The first section, when it does not fail. -/
theorem puts_cases (h : Sound S.tty) (hputs : S.puts buf = .ok S') :
    ∃ tty, S' = { S with tty } ∧ Kept S.tty tty := by
  obtain ⟨tty, hloop, hS'⟩ := bind_eq_ok.1 hputs
  exact ⟨tty, (Except.ok.inj hS').symm, kept_of_ttyPuts h.cursor_lt hloop⟩

/-- It fails on a grid of one cell only. -/
theorem exists_puts (h : Sound S.tty) (hsize : 2 ≤ S.tty.size) (buf : List UInt8) :
    ∃ S', S.puts buf = .ok S' := by
  obtain ⟨tty, hputs, -⟩ := ttyPuts_kept hsize h.cursor_lt buf
  unfold Sys.puts
  rw [hputs]
  exact ⟨_, rfl⟩

theorem Covered.puts {tty : Tty} (h : Covered showCursor S) (hkept : Kept S.tty tty) :
    Covered showCursor { S with tty } := by
  refine ⟨hkept.display_eq.trans h.current, fun i hi => ?_, hkept.upToDate h.upToDate⟩
  by_cases hdirty : tty.dirty i = true
  · exact .inl hdirty
  · have hi' : i < S.tty.size := hkept.size_eq ▸ hi
    have hclean := (hkept.unmarked i hi' (Bool.eq_false_iff.2 hdirty)).1
    have hdrawn : Drawn S i := (h.drawn i hi').resolve_left fun hmark => by
      rw [hclean] at hmark
      exact absurd hmark (by decide)
    refine .inr ?_
    unfold Drawn Tty.place at hdrawn ⊢
    rwa [hkept.columns_eq]

/-- The state behind `tty_render`. -/
def Sys.rendered (showCursor : Bool) (S : Sys n) : Sys n :=
  { S with
    tty := S.tty.cleared
    fb := S.tty.rendered showCursor S.fb
    drawn := S.drawn ++ (S.tty.sprites showCursor).filter fun sp => decide (S.fb.Draws sp) }

theorem render_eq : S.render showCursor = .ok (S.rendered showCursor) := by
  unfold Sys.render
  rw [ttyRender_eq]
  rfl

/-- **A render draws the marked cells** of the current display. -/
theorem drawn_rendered (h : Sound S.tty) (hcurrent : S.tty.display = S.fb.current)
    (hi : i < S.tty.size) :
    Drawn (S.rendered showCursor) i ↔ Drawn S i ∨ S.tty.dirty i = true := by
  have hdisplay : S.tty.display % 2 ^ 4 = S.fb.current := by
    rw [Nat.mod_eq_of_lt h.display_lt, hcurrent]
  constructor
  · intro hdrawn
    by_cases hdirty : S.tty.dirty i = true
    · exact .inr hdirty
    · refine .inl fun b hb => ?_
      obtain ⟨sp, hmem, hp⟩ := hdrawn b hb
      obtain hbefore | hnow := List.mem_append.1 hmem
      · exact ⟨sp, hbefore, hp⟩
      · -- a sprite at this place would be a tile of cell `i`
        obtain ⟨j, hj, hmark, b', hb', rfl⟩ := mem_sprites.1 (List.mem_filter.1 hnow).1
        rw [tile_place h.fits hj hb'] at hp
        obtain ⟨rfl, -⟩ := place_inj hb' hb hp
        exact absurd hmark hdirty
  · rintro (hbefore | hdirty)
    · intro b hb
      obtain ⟨sp, hmem, hp⟩ := hbefore b hb
      exact ⟨sp, List.mem_append_left _ hmem, hp⟩
    · intro b hb
      refine ⟨S.tty.tile showCursor i b, List.mem_append_right _ ?_, tile_place h.fits hi hb⟩
      refine List.mem_filter.2 ⟨mem_sprites.2 ⟨i, hi, hdirty, b, hb, rfl⟩, ?_⟩
      exact decide_eq_true ((draws_tile hb).2 hdisplay)

/-- **The section of `tty_render`** shows what is covered. -/
theorem Covered.render (h : Covered showCursor S) (hs : Sound S.tty) :
    Seen showCursor (S.rendered showCursor) := by
  intro i hi
  refine ⟨(drawn_rendered hs h.current hi).2 (h.drawn i hi).symm, ?_⟩
  refine shown_of_upToDate hs.fits h.upToDate i hi ?_
  rw [rendered_current, ← h.current, Nat.mod_eq_of_lt hs.display_lt]

theorem Seen.covered (h : Seen showCursor S) (hcurrent : S.tty.display = S.fb.current) :
    Covered showCursor S :=
  ⟨hcurrent, fun i hi => .inr (h i hi).1, fun i hi => .inr fun _ => (h i hi).2⟩

-- ---------------------------------------------------------------------------
-- The invariant
-- ---------------------------------------------------------------------------

/-- **The invariant** of runs that keep the marks until the display is current. -/
structure Inv (showCursor : Bool) (S : Sys n) : Prop where
  sound : Sound S.tty
  covered : S.switcher.isCurrent = true → Covered showCursor S
  seen : S.switcher = .done → (∀ t, S.task t ≠ .render) → Seen showCursor S

theorem inv_init (h : Init S) : Inv showCursor S := by
  refine ⟨⟨h.cursor_lt, h.fits, h.display_lt⟩, fun hcur => ?_, fun hdone => ?_⟩
  · rw [h.switcher_eq] at hcur
    cases hcur
  · rw [h.switcher_eq] at hdone
    cases hdone

theorem fbWrite_info_current {fb : Fb} {current : Nat} :
    (fbWrite fb (.info current)).current = current := by
  unfold fbWrite
  dsimp only
  split
  · rfl
  · rename_i heq
    exact not_not.1 heq

/-- What a step of the switch does. -/
inductive Moves (showCursor : Bool) (S : Sys n) : Sys n → Prop
  | mark {i : Nat} : S.switcher = .mark i → i < S.tty.size →
      Moves showCursor S { S with tty := S.tty.marks [i], switcher := .mark (i + 1) }
  | marked {i : Nat} : S.switcher = .mark i → Moves showCursor S { S with switcher := .info }
  | info {fb : Fb} : S.switcher = .info → fb.current = S.tty.display →
      Moves showCursor S { S with fb, switcher := .puts, drawn := [] }
  | puts : S.switcher = .puts → Moves showCursor S { S with switcher := .render }
  | render : S.switcher = .render →
      Moves showCursor S { S.rendered showCursor with switcher := .done }

theorem switch_moves (hnot : S.switcher ≠ .done) :
    ∃ S', S.switch showCursor = .ok S' ∧ Moves showCursor S S' := by
  unfold Sys.switch
  cases hpc : S.switcher with
  | mark i =>
    dsimp only
    split
    · rename_i hi
      rw [ttyMark_eq hi]
      exact ⟨_, rfl, .mark hpc hi⟩
    · exact ⟨_, rfl, .marked hpc⟩
  | info => exact ⟨_, rfl, .info hpc fbWrite_info_current⟩
  | puts => exact ⟨_, rfl, .puts hpc⟩
  | render =>
    dsimp only
    rw [render_eq]
    exact ⟨_, rfl, .render hpc⟩
  | done => exact absurd hpc hnot

/-- **A step of the switch.** -/
theorem Inv.moves (h : Inv showCursor S) (hmarked : Marked S .switch)
    (hmoves : Moves showCursor S S') : Inv showCursor S' := by
  cases hmoves with
  | mark hpc hi => exact ⟨h.sound.marks, nofun, nofun⟩
  | marked hpc => exact ⟨h.sound, nofun, nofun⟩
  | info hpc hcurrent =>
    have hall := hmarked rfl hpc
    exact ⟨h.sound, fun _ => ⟨hcurrent.symm, fun i hi => .inl (hall i hi),
      fun i hi => .inl (hall i hi)⟩, nofun⟩
  | puts hpc =>
    have hcov := h.covered (by rw [hpc]; rfl)
    exact ⟨h.sound, fun _ => { hcov with }, nofun⟩
  | render hpc =>
    have hcov := h.covered (by rw [hpc]; rfl)
    have hseen : Seen showCursor (S.rendered showCursor) := hcov.render h.sound
    have hcurrent : (S.rendered showCursor).tty.display = (S.rendered showCursor).fb.current :=
      hcov.current.trans rendered_current.symm
    exact ⟨h.sound.cleared, fun _ => { hseen.covered hcurrent with }, fun _ _ => hseen⟩

/-- **A section of another task.** -/
theorem Inv.puts {tty : Tty} (h : Inv showCursor S) (hkept : Kept S.tty tty) :
    Inv showCursor { S with tty, task := Function.update S.task t .render } where
  sound := h.sound.kept hkept
  covered hcur := { (h.covered hcur).puts hkept with }
  seen _ hidle := absurd (Function.update_self t Task.render S.task) (hidle t)

theorem Inv.render (h : Inv showCursor S) :
    Inv showCursor { S.rendered showCursor with task := Function.update S.task t .idle } := by
  have hseen : S.switcher.isCurrent = true → Seen showCursor (S.rendered showCursor) :=
    fun hcur => (h.covered hcur).render h.sound
  refine ⟨h.sound.cleared, fun hcur => ?_, fun hdone _ => ?_⟩
  · have hcurrent : (S.rendered showCursor).tty.display = (S.rendered showCursor).fb.current :=
      (h.covered hcur).current.trans rendered_current.symm
    exact { (hseen hcur).covered hcurrent with }
  · refine hseen ?_
    rw [show S.switcher = .done from hdone]
    rfl

theorem Inv.call (h : Inv showCursor S) (hidle : S.task t = .idle) :
    Inv showCursor { S with task := Function.update S.task t (.puts buf) } := by
  refine ⟨h.sound, fun hcur => { h.covered hcur with }, fun hdone hnone => h.seen hdone ?_⟩
  intro u hu
  by_cases hut : u = t
  · rw [hut, hidle] at hu
    cases hu
  · exact hnone u ((Function.update_of_ne hut _ _).trans hu)

/-- **One step.** -/
theorem inv_step {a : Label n} (h : Inv showCursor S) (hstep : Step showCursor S a S')
    (hmarked : Marked S a) : Inv showCursor S' := by
  cases hstep with
  | switch hnot hswitch =>
    obtain ⟨S'', hswitch', hmoves⟩ : ∃ S'', S.switch showCursor = .ok S'' ∧
      Moves showCursor S S'' := switch_moves hnot
    obtain rfl : S'' = S' := Except.ok.inj (hswitch'.symm.trans hswitch)
    exact h.moves hmarked hmoves
  | call hidle => exact h.call hidle
  | puts hpc hputs =>
    obtain ⟨tty, rfl, hkept⟩ := puts_cases h.sound hputs
    exact h.puts hkept
  | render hpc hrender =>
    obtain rfl := Except.ok.inj (render_eq.symm.trans hrender)
    exact h.render

-- ---------------------------------------------------------------------------
-- Switches that lose nothing
-- ---------------------------------------------------------------------------

/-- The rest of a switch, when no other task runs: it draws the cells that were marked when
the display became current. -/
theorem switch_undisturbed (h : Sound S.tty) (hinfo : S.switcher = .info) :
    ∃ S₁ S₂ S₃, Step showCursor S .switch S₁ ∧ Step showCursor S₁ .switch S₂ ∧
      Step showCursor S₂ .switch S₃ ∧ S₃.switcher = .done ∧
      (Seen showCursor S₃ ↔ ∀ i < S.tty.size, S.tty.dirty i = true) := by
  obtain ⟨S₁, hS₁⟩ : ∃ S₁ : Sys n, S₁ = { S with
    fb := fbWrite S.fb (.info S.tty.display), switcher := .puts, drawn := [] } := ⟨_, rfl⟩
  have htty : S₁.tty = S.tty := by rw [hS₁]
  have hcurrent : S₁.tty.display = S₁.fb.current := by
    rw [hS₁]
    exact fbWrite_info_current.symm
  have hsound : Sound S₁.tty := by rwa [htty]
  have hinfo' : S.switch showCursor = .ok S₁ := by
    unfold Sys.switch
    rw [hinfo, hS₁]
    rfl
  have hputs : S₁.switch showCursor = .ok { S₁ with switcher := .render } := by
    unfold Sys.switch
    rw [hS₁]
    rfl
  have hrender : Sys.switch showCursor { S₁ with switcher := .render } =
      .ok { S₁.rendered showCursor with switcher := .done } := by
    unfold Sys.switch
    dsimp only
    rw [render_eq]
    rfl
  refine ⟨S₁, _, _, .switch (by rw [hinfo]; nofun) hinfo', .switch (by rw [hS₁]; nofun) hputs,
    .switch nofun hrender, rfl, fun hseen i hi => ?_, fun hall => ?_⟩
  · have hi' : i < S₁.tty.size := by rwa [htty]
    obtain hbefore | hdirty := (drawn_rendered hsound hcurrent hi').1 (hseen i hi').1
    · -- nothing has been drawn before
      obtain ⟨sp, hmem, -⟩ := hbefore 0 (by decide)
      rw [hS₁] at hmem
      cases hmem
    · rwa [htty] at hdirty
  · have hcov : Covered showCursor S₁ := by
      rw [← htty] at hall
      exact ⟨hcurrent, fun i hi => .inl (hall i hi), fun i hi => .inl (hall i hi)⟩
    exact hcov.render hsound

/--
**Switching consoles loses no update** in runs that keep the marks until the display is
current: once the switch and the writes have completed, every cell has been drawn
since, and the screen shows the buffer. No section fails on a grid of two cells or more;
and from the write of the `display_info` on, a switch that no other task disturbs draws
every cell if and only if all of them were still marked.
-/
theorem seen_of_marked (showCursor : Bool) (S : Sys n)
    (hr : Reach Init (Restrict (Step showCursor) fun S a _ => Marked S a) S) :
    (Complete S → Seen showCursor S) ∧
    (S.switcher ≠ .done → ∃ S', Step showCursor S .switch S') ∧
    (2 ≤ S.tty.size → ∀ t, S.task t ≠ .idle → ∃ S', Step showCursor S (.run t) S') ∧
    (S.switcher = .info →
      ∃ S₁ S₂ S₃, Step showCursor S .switch S₁ ∧ Step showCursor S₁ .switch S₂ ∧
        Step showCursor S₂ .switch S₃ ∧ S₃.switcher = .done ∧
        (Seen showCursor S₃ ↔ Marked S .switch)) := by
  have hinv : Inv showCursor S := by
    refine hr.invariant (fun S h => inv_init h) ?_
    intro S a S' _ h hstep
    exact inv_step h hstep.1 hstep.2
  refine ⟨fun hdone => ?_, fun hnot => ?_, fun hsize t hbusy => ?_, fun hinfo => ?_⟩
  · refine hinv.seen hdone.1 fun t hrender => ?_
    rw [hdone.2 t] at hrender
    cases hrender
  · obtain ⟨S', hswitch, -⟩ := switch_moves hnot
    exact ⟨S', .switch hnot hswitch⟩
  · cases hpc : S.task t with
    | idle => exact absurd hpc hbusy
    | puts buf =>
      obtain ⟨S', hputs⟩ := exists_puts hinv.sound hsize buf
      exact ⟨_, .puts hpc hputs⟩
    | render => exact ⟨_, .render hpc render_eq⟩
  · obtain ⟨S₁, S₂, S₃, h₁, h₂, h₃, hdone, hseen⟩ := switch_undisturbed hinv.sound hinfo
    exact ⟨S₁, S₂, S₃, h₁, h₂, h₃, hdone, hseen.trans ⟨fun h _ _ => h, fun h => h rfl hinfo⟩⟩

-- ---------------------------------------------------------------------------
-- A lost update
-- ---------------------------------------------------------------------------

/-- A console of two cells with an `'x'`, behind the first display, and one other task. -/
def behind : Sys 1 where
  tty := {
    display := 1
    lines := 1
    columns := 2
    buf := fun i => if i = 0 then { metadata := 0, ch := 120 } else ttyDefaultch
    cursor := 1
    dirty := fun _ => false }
  fb := { current := 0, screen := fun _ => 0 }
  switcher := .mark 0
  task := fun _ => .idle
  drawn := []

theorem init_behind : Init behind := ⟨rfl, by decide, ⟨by decide, by decide⟩, by decide⟩

/-- Another task replaces the `'x'` by a `'y'` while the cells are marked, and renders when the
display is current. -/
theorem seen_of_marked_behind : ∃ S : Sys 1, Complete S ∧ S.tty.size = 2 ∧
    (S.tty.buf 0).ch = 121 ∧ Seen true S := by
  have h₀ : Reach Init (Restrict (Step true) fun S a _ => Marked S a) behind := .init init_behind
  have h₁ := h₀.step (a := .call 0 [8, 121]) ⟨.call rfl, marked_of_ne (by decide)⟩
  have h₂ := h₁.step (a := .switch) ⟨.switch (by decide) rfl, marked_of_ne (by decide)⟩
  have h₃ := h₂.step (a := .run 0) ⟨.puts rfl rfl, marked_of_ne (by decide)⟩
  have h₄ := h₃.step (a := .switch) ⟨.switch (by decide) rfl, marked_of_ne (by decide)⟩
  have h₅ := h₄.step (a := .switch) ⟨.switch (by decide) rfl, marked_of_ne (by decide)⟩
  have h₆ := h₅.step (a := .switch) ⟨.switch (by decide) rfl, fun _ _ => by decide⟩
  have h₇ := h₆.step (a := .run 0) ⟨.render rfl rfl, marked_of_ne (by decide)⟩
  have h₈ := h₇.step (a := .switch) ⟨.switch (by decide) rfl, marked_of_ne (by decide)⟩
  have h₉ := h₈.step (a := .switch) ⟨.switch (by decide) rfl, marked_of_ne (by decide)⟩
  have hidle : ∀ t : Fin 1, t = 0 := fun t => Subsingleton.elim t 0
  exact ⟨_, ⟨rfl, fun t => by rw [hidle t]; rfl⟩, rfl, rfl,
    (seen_of_marked true _ h₉).1 ⟨rfl, fun t => by rw [hidle t]; rfl⟩⟩

/-- **A switch loses its cells.** Another task renders behind `tty_mark_all` and before the
display is current: it takes the marks away, and its sprites are dropped. The switch and the
write complete, and nothing has been drawn. -/
theorem switch_loses_cells : ∃ S : Sys 1, Reachable true S ∧ Complete S ∧ S.drawn = [] ∧
    S.fb.current = S.tty.display ∧ S.fb.screen = behind.fb.screen ∧ ¬ Seen true S := by
  have h₀ : Reachable true behind := .init init_behind
  have h₁ := h₀.step (a := .call 0 []) (.call rfl)
  have h₂ := h₁.step (a := .run 0) (.puts rfl rfl)
  have h₃ := h₂.step (a := .switch) (.switch (by decide) rfl)
  have h₄ := h₃.step (a := .switch) (.switch (by decide) rfl)
  have h₅ := h₄.step (a := .switch) (.switch (by decide) rfl)
  have h₆ := h₅.step (a := .run 0) (.render rfl rfl)
  have h₇ := h₆.step (a := .switch) (.switch (by decide) rfl)
  have h₈ := h₇.step (a := .switch) (.switch (by decide) rfl)
  have h₉ := h₈.step (a := .switch) (.switch (by decide) rfl)
  refine ⟨_, h₉, ⟨rfl, fun t => ?_⟩, rfl, rfl, rfl, fun hseen => ?_⟩
  · rw [Subsingleton.elim t 0]
    rfl
  · obtain ⟨sp, hmem, -⟩ := (hseen 0 (by decide)).1 0 (by decide)
    cases hmem

end MyOs.Console.Switch
