import Mathlib.Data.Int.ModEq
import MyOs.Am.Keys
import MyOs.Lib.Transition
import MyOs.Lib.Word

/-!
# amgame — the craft

The model of `init_ct`, `print_key` and `update_ct`. The coordinates are signed and the
distance is not, so `(ct.y - dis) % h` is computed in `uint32_t`: a craft that leaves the
screen at its upper or left edge comes back `2 ^ 32` further on, which is the same place on
the torus only if the size of the screen divides `2 ^ 32`. The other two edges are far from
any overflow. What is printed is left out.

* `stepForward_eq`, `stepBack_eq` — the two expressions in integers.
* `onTorus_iff` — **the craft moves on a torus exactly when the subtraction does not wrap**,
  or wraps to the same place.
* `game_inScreen` — the craft never leaves the screen.
* `game_onTorus` — a screen whose sizes divide `2 ^ 32` is a torus in every run.
-/

namespace MyOs.Amgame

open MyOs.Am MyOs.Transition MyOs.Word

-- ---------------------------------------------------------------------------
-- The game
-- ---------------------------------------------------------------------------

inductive Direction
  | up
  | down
  | left
  | right
  deriving DecidableEq

/-- `struct craft`. -/
structure Craft where
  x : Int
  y : Int
  w : Int
  h : Int
  direction : Direction
  color : Nat
  deriving DecidableEq

/-- The size of the screen. -/
structure Screen where
  w : Int
  h : Int
  w_pos : 0 < w
  w_lt : w < 2 ^ 31
  h_pos : 0 < h
  h_lt : h < 2 ^ 31

/-- `SIDE`. -/
def side : Int := 16

/-- `init_ct`. -/
def initCt (scr : Screen) : Craft where
  x := scr.w / 2
  y := scr.h / 2
  w := side * 2
  h := side * 2
  direction := .right
  color := 0xffffff

/-- `print_key`; `none` when it halts. -/
def printKey (event : KeyReport) (ct : Craft) : Option Craft :=
  if event.keycode ≠ .none ∧ event.keydown then
    match event.keycode with
    | .escape => none
    | .k | .up => some { ct with direction := .up }
    | .j | .down => some { ct with direction := .down }
    | .h | .left => some { ct with direction := .left }
    | .l | .right => some { ct with direction := .right }
    | _ => some ct
  else some ct

/-- `new_tm - old_tm`. -/
def elapsed (oldTm newTm : Nat) : Nat := toU32 ((newTm : Int) - oldTm)

/-- `dis`. -/
def distance (elapsed : Nat) : Nat := toU32 ((elapsed : Int) * 50) / 1000000

/-- `(c + dis) % size`. -/
def stepForward (c : Int) (dis : Nat) (size : Int) : Int :=
  toI32 ((toU32 (c + dis) % toU32 size : Nat) : Int)

/-- `(c - dis) % size`. -/
def stepBack (c : Int) (dis : Nat) (size : Int) : Int :=
  toI32 ((toU32 (c - dis) % toU32 size : Nat) : Int)

/-- The `switch` of `update_ct`. -/
def move (scr : Screen) (dis : Nat) (ct : Craft) : Craft :=
  match ct.direction with
  | .up => { ct with y := stepBack ct.y dis scr.h }
  | .down => { ct with y := stepForward ct.y dis scr.h }
  | .right => { ct with x := stepForward ct.x dis scr.w }
  | .left => { ct with x := stepBack ct.x dis scr.w }

/-- The craft, and `old_tm`. -/
structure Game where
  ct : Craft
  oldTm : Nat

/-- `update_ct`, `us` microseconds after the start. -/
def updateCt (scr : Screen) (us : Nat) (g : Game) : Game :=
  let newTm := toU32 us
  if elapsed g.oldTm newTm < 50000 then g
  else { ct := move scr (distance (elapsed g.oldTm newTm)) g.ct, oldTm := newTm }

-- ---------------------------------------------------------------------------
-- The expressions
-- ---------------------------------------------------------------------------

variable {c size : Int} {dis : Nat}

theorem distance_lt (elapsed : Nat) : distance elapsed < 2 ^ 31 := by
  have hlt := toU32_lt ((elapsed : Int) * 50)
  unfold distance
  omega

/-- The remainder fits into an `int`. -/
theorem toI32_mod {n : Nat} (hpos : 0 < size) (hlt : size < 2 ^ 31) :
    toI32 ((n % toU32 size : Nat) : Int) = (n : Int) % size := by
  obtain ⟨m, rfl⟩ := Int.eq_ofNat_of_zero_le hpos.le
  have hm : toU32 (m : Int) = m := toU32_eq rfl (by omega)
  have hmod : n % m < m := Nat.mod_lt n (by omega)
  rw [hm, toI32_eq rfl (by omega), Int.natCast_emod]

/-- **Forward** nothing wraps. -/
theorem stepForward_eq (hc : 0 ≤ c) (hcs : c < size) (hlt : size < 2 ^ 31) (hdis : dis < 2 ^ 31) :
    stepForward c dis size = (c + dis) % size := by
  have hsum : toU32 (c + dis) = (c + dis).toNat := toU32_eq (by omega) (by omega)
  rw [stepForward, toI32_mod (by omega) hlt, hsum, Int.toNat_of_nonneg (by omega)]

/-- **Back** the difference wraps when it is negative. -/
theorem stepBack_eq (hc : 0 ≤ c) (hcs : c < size) (hlt : size < 2 ^ 31) (hdis : dis < 2 ^ 31) :
    stepBack c dis size = (if (dis : Int) ≤ c then c - dis else c - dis + 2 ^ 32) % size := by
  rw [stepBack, toI32_mod (by omega) hlt]
  congr 1
  unfold toU32
  split <;> omega

/-- Back is on the torus when nothing wraps, or the wrapping is a round about it. -/
theorem stepBack_modEq_iff (hc : 0 ≤ c) (hcs : c < size) (hlt : size < 2 ^ 31)
    (hdis : dis < 2 ^ 31) :
    stepBack c dis size ≡ c - dis [ZMOD size] ↔ (dis : Int) ≤ c ∨ size ∣ 2 ^ 32 := by
  rw [stepBack_eq hc hcs hlt hdis]
  split
  · next hle => exact ⟨fun _ => .inl hle, fun _ => Int.mod_modEq _ _⟩
  · next hgt =>
    have hmod : (c - dis + 2 ^ 32) % size ≡ c - dis + 2 ^ 32 [ZMOD size] := Int.mod_modEq _ _
    have hround : c - dis ≡ c - dis + 2 ^ 32 [ZMOD size] ↔ size ∣ 2 ^ 32 := by
      rw [Int.modEq_iff_dvd, add_sub_cancel_left]
    constructor
    · exact fun h => .inr (hround.1 (h.symm.trans hmod))
    · exact fun h => hmod.trans (hround.2 (h.resolve_left hgt)).symm

theorem stepForward_modEq (hc : 0 ≤ c) (hcs : c < size) (hlt : size < 2 ^ 31)
    (hdis : dis < 2 ^ 31) : stepForward c dis size ≡ c + dis [ZMOD size] := by
  rw [stepForward_eq hc hcs hlt hdis]
  exact Int.mod_modEq _ _

/-- Neither of them leaves the screen. -/
theorem stepForward_range (hpos : 0 < size) (hlt : size < 2 ^ 31) (c : Int) (dis : Nat) :
    0 ≤ stepForward c dis size ∧ stepForward c dis size < size := by
  rw [stepForward, toI32_mod hpos hlt]
  exact ⟨Int.emod_nonneg _ hpos.ne', Int.emod_lt_of_pos _ hpos⟩

theorem stepBack_range (hpos : 0 < size) (hlt : size < 2 ^ 31) (c : Int) (dis : Nat) :
    0 ≤ stepBack c dis size ∧ stepBack c dis size < size := by
  rw [stepBack, toI32_mod hpos hlt]
  exact ⟨Int.emod_nonneg _ hpos.ne', Int.emod_lt_of_pos _ hpos⟩

/-- There and back again, when the way there was on the torus. -/
theorem stepForward_stepBack (hc : 0 ≤ c) (hcs : c < size) (hlt : size < 2 ^ 31)
    (hdis : dis < 2 ^ 31) (h : stepBack c dis size ≡ c - dis [ZMOD size]) :
    stepForward (stepBack c dis size) dis size = c := by
  obtain ⟨hlo, hhi⟩ := stepBack_range (hc.trans_lt hcs) hlt c dis
  have hsum : stepBack c dis size + dis ≡ c [ZMOD size] := by
    have hadd := h.add_right (dis : Int)
    rwa [sub_add_cancel] at hadd
  rw [stepForward_eq hlo hhi hlt hdis, hsum.eq, Int.emod_eq_of_lt hc hcs]

-- ---------------------------------------------------------------------------
-- The torus
-- ---------------------------------------------------------------------------

/-- The craft is on the screen. -/
structure InScreen (scr : Screen) (ct : Craft) : Prop where
  x_nonneg : 0 ≤ ct.x
  x_lt : ct.x < scr.w
  y_nonneg : 0 ≤ ct.y
  y_lt : ct.y < scr.h

/-- One step to the right, and one step down. -/
def Direction.dx : Direction → Int
  | .left => -1
  | .right => 1
  | _ => 0

def Direction.dy : Direction → Int
  | .up => -1
  | .down => 1
  | _ => 0

def Direction.opposite : Direction → Direction
  | .up => .down
  | .down => .up
  | .left => .right
  | .right => .left

/-- The craft moves by `dis` on a torus of the size of the screen: it stays on the screen, its
coordinates are the right ones modulo its size, and up and down, or left and right, takes it
back to where it was. -/
structure OnTorus (scr : Screen) (ct : Craft) (dis : Nat) : Prop where
  inScreen : InScreen scr (move scr dis ct)
  x : (move scr dis ct).x ≡ ct.x + ct.direction.dx * dis [ZMOD scr.w]
  y : (move scr dis ct).y ≡ ct.y + ct.direction.dy * dis [ZMOD scr.h]
  back : ct.direction = .up ∨ ct.direction = .left →
    let ct' := { move scr dis ct with direction := ct.direction.opposite }
    (move scr dis ct').x = ct.x ∧ (move scr dis ct').y = ct.y

/-- The subtraction does not wrap around, or by a multiple of the size. -/
def NoWrap (scr : Screen) (ct : Craft) (dis : Nat) : Prop :=
  match ct.direction with
  | .up => (dis : Int) ≤ ct.y ∨ scr.h ∣ 2 ^ 32
  | .left => (dis : Int) ≤ ct.x ∨ scr.w ∣ 2 ^ 32
  | .down | .right => True

variable {scr : Screen} {ct : Craft}

-- What the step does, direction by direction.

theorem move_up (h : ct.direction = .up) (dis : Nat) :
    move scr dis ct = { ct with y := stepBack ct.y dis scr.h } := by
  rw [move, h]

theorem move_down (h : ct.direction = .down) (dis : Nat) :
    move scr dis ct = { ct with y := stepForward ct.y dis scr.h } := by
  rw [move, h]

theorem move_left (h : ct.direction = .left) (dis : Nat) :
    move scr dis ct = { ct with x := stepBack ct.x dis scr.w } := by
  rw [move, h]

theorem move_right (h : ct.direction = .right) (dis : Nat) :
    move scr dis ct = { ct with x := stepForward ct.x dis scr.w } := by
  rw [move, h]

theorem InScreen.set_x (h : InScreen scr ct) (hc : 0 ≤ c ∧ c < scr.w) :
    InScreen scr { ct with x := c } := ⟨hc.1, hc.2, h.y_nonneg, h.y_lt⟩

theorem InScreen.set_y (h : InScreen scr ct) (hc : 0 ≤ c ∧ c < scr.h) :
    InScreen scr { ct with y := c } := ⟨h.x_nonneg, h.x_lt, hc.1, hc.2⟩

/-- No step leaves the screen. -/
theorem InScreen.move (h : InScreen scr ct) (dis : Nat) : InScreen scr (move scr dis ct) := by
  cases hdir : ct.direction with
  | up =>
    rw [move_up hdir]
    exact h.set_y (stepBack_range scr.h_pos scr.h_lt ct.y dis)
  | down =>
    rw [move_down hdir]
    exact h.set_y (stepForward_range scr.h_pos scr.h_lt ct.y dis)
  | left =>
    rw [move_left hdir]
    exact h.set_x (stepBack_range scr.w_pos scr.w_lt ct.x dis)
  | right =>
    rw [move_right hdir]
    exact h.set_x (stepForward_range scr.w_pos scr.w_lt ct.x dis)

/-- A step is on the torus when the subtraction does not go wrong. -/
theorem onTorus_iff_noWrap (h : InScreen scr ct) (hdis : dis < 2 ^ 31) :
    OnTorus scr ct dis ↔ NoWrap scr ct dis := by
  have hin := h.move dis
  have hy := stepBack_modEq_iff h.y_nonneg h.y_lt scr.h_lt hdis
  have hx := stepBack_modEq_iff h.x_nonneg h.x_lt scr.w_lt hdis
  cases hdir : ct.direction with
  | up =>
    simp only [NoWrap, hdir]
    rw [← hy]
    constructor
    · intro ht
      simpa [move_up hdir, hdir, Direction.dy, ← sub_eq_add_neg] using ht.y
    · intro hmod
      refine ⟨hin, ?_, ?_, fun _ => ?_⟩
      · simp [move_up hdir, hdir, Direction.dx]
      · simpa [move_up hdir, hdir, Direction.dy, ← sub_eq_add_neg] using hmod
      · simp [hdir, Direction.opposite, move,
          stepForward_stepBack h.y_nonneg h.y_lt scr.h_lt hdis hmod]
  | down =>
    simp only [NoWrap, hdir, iff_true]
    refine ⟨hin, ?_, ?_, fun hd => ?_⟩
    · simp [move_down hdir, hdir, Direction.dx]
    · simpa [move_down hdir, hdir, Direction.dy] using
        stepForward_modEq h.y_nonneg h.y_lt scr.h_lt hdis
    · rcases hd with hd | hd <;> simp [hdir] at hd
  | left =>
    simp only [NoWrap, hdir]
    rw [← hx]
    constructor
    · intro ht
      simpa [move_left hdir, hdir, Direction.dx, ← sub_eq_add_neg] using ht.x
    · intro hmod
      refine ⟨hin, ?_, ?_, fun _ => ?_⟩
      · simpa [move_left hdir, hdir, Direction.dx, ← sub_eq_add_neg] using hmod
      · simp [move_left hdir, hdir, Direction.dy]
      · simp [hdir, Direction.opposite, move,
          stepForward_stepBack h.x_nonneg h.x_lt scr.w_lt hdis hmod]
  | right =>
    simp only [NoWrap, hdir, iff_true]
    refine ⟨hin, ?_, ?_, fun hd => ?_⟩
    · simpa [move_right hdir, hdir, Direction.dx] using
        stepForward_modEq h.x_nonneg h.x_lt scr.w_lt hdis
    · simp [move_right hdir, hdir, Direction.dy]
    · rcases hd with hd | hd <;> simp [hdir] at hd

/-- **The craft moves on a torus** exactly when the subtraction does not go wrong, whatever the
clock shows. -/
theorem onTorus_iff (scr : Screen) (ct : Craft) (h : InScreen scr ct) (oldTm newTm : Nat) :
    OnTorus scr ct (distance (elapsed oldTm newTm)) ↔
      NoWrap scr ct (distance (elapsed oldTm newTm)) := onTorus_iff_noWrap h (distance_lt _)

/-- A screen as the emulator has it. -/
def vga : Screen where
  w := 640
  h := 480
  w_pos := by decide
  w_lt := by decide
  h_pos := by decide
  h_lt := by decide

/-- Up and left from the start, far from the edges. -/
theorem onTorus_vga :
    OnTorus vga { initCt vga with direction := .up } (distance (elapsed 0 50000)) ∧
      OnTorus vga { initCt vga with direction := .left } (distance (elapsed 0 50000)) :=
  ⟨(onTorus_iff vga { initCt vga with direction := .up }
      ⟨by decide, by decide, by decide, by decide⟩ 0 50000).2 (Or.inl (by decide)),
    (onTorus_iff vga { initCt vga with direction := .left }
      ⟨by decide, by decide, by decide, by decide⟩ 0 50000).2 (Or.inl (by decide))⟩

/-- Two steps up from the upper edge lead into the middle of the screen. -/
theorem not_onTorus : ∃ scr ct oldTm newTm, InScreen scr ct ∧ 50000 ≤ elapsed oldTm newTm ∧
    (move scr (distance (elapsed oldTm newTm)) ct).y = 254 ∧
    ¬ OnTorus scr ct (distance (elapsed oldTm newTm)) := by
  have hdir : ({ initCt vga with y := 0, direction := .up } : Craft).direction = .up := rfl
  have hdis : distance (elapsed 0 50000) = 2 := by decide
  refine ⟨vga, { initCt vga with y := 0, direction := .up }, 0, 50000,
    ⟨by decide, by decide, by decide, by decide⟩, by decide, ?_, fun h => ?_⟩
  · rw [hdis, move_up hdir]
    decide
  · have hy := h.y
    rw [hdis, move_up hdir] at hy
    exact absurd hy (by decide)

-- ---------------------------------------------------------------------------
-- Runs
-- ---------------------------------------------------------------------------

/-- A key, or the clock. -/
inductive Label
  | key (event : KeyReport)
  | tick (us : Nat)

/-- A call of `print_key` or of `update_ct` in the loop of `main`. -/
inductive Step (scr : Screen) : Game → Label → Game → Prop
  | key {g : Game} {event : KeyReport} {ct : Craft} :
      printKey event g.ct = some ct → Step scr g (.key event) { g with ct }
  | tick (g : Game) (us : Nat) : Step scr g (.tick us) (updateCt scr us g)

/-- The game starts with `init_ct`, and with any time. -/
def Init (scr : Screen) (g : Game) : Prop := g.ct = initCt scr

theorem initCt_inScreen (scr : Screen) : InScreen scr (initCt scr) := by
  obtain ⟨w, h, hw, -, hh, -⟩ := scr
  constructor <;> dsimp only [initCt] <;> omega

/-- A key turns the craft. -/
theorem printKey_eq {event : KeyReport} {ct' : Craft} (h : printKey event ct = some ct') :
    ∃ d, ct' = { ct with direction := d } := by
  unfold printKey at h
  split at h
  · split at h
    · cases h
    all_goals exact ⟨_, (Option.some.inj h).symm⟩
  · exact ⟨_, (Option.some.inj h).symm⟩

/-- **The craft never leaves the screen.** -/
theorem game_inScreen {g : Game} (h : Reach (Init scr) (Step scr) g) : InScreen scr g.ct := by
  refine h.invariant (I := fun g => InScreen scr g.ct) (fun g hg => ?_) fun g a g' _ hg hs => ?_
  · rw [hg]
    exact initCt_inScreen scr
  · cases hs with
    | key hkey =>
      obtain ⟨d, rfl⟩ := printKey_eq hkey
      exact ⟨hg.x_nonneg, hg.x_lt, hg.y_nonneg, hg.y_lt⟩
    | tick us =>
      unfold updateCt
      dsimp only
      split
      · exact hg
      · exact hg.move _

/-- **A screen whose sizes divide `2 ^ 32`** is a torus at each step of every run. -/
theorem game_onTorus {g : Game} (h : Reach (Init scr) (Step scr) g) (hw : scr.w ∣ 2 ^ 32)
    (hh : scr.h ∣ 2 ^ 32) (us : Nat) :
    OnTorus scr g.ct (distance (elapsed g.oldTm (toU32 us))) := by
  refine (onTorus_iff_noWrap (game_inScreen h) (distance_lt _)).2 ?_
  unfold NoWrap
  split
  · exact .inr hh
  · exact .inr hw
  · trivial
  · trivial

end MyOs.Amgame
