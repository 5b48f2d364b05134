import Mathlib.Algebra.Group.Nat.Defs
import Mathlib.Data.Bool.Basic
import MyOs.Lib.Extent
import MyOs.Lib.Fallible

/-!
# tty — the console

The model of the grid of `kernel/src/dev/dev_tty.c` and of the sprites it sends to the
frame buffer (`kernel/src/dev/dev_video.c`). The pointers `buf`, `cursor` and `end` are
offsets from `buf`, and every access to `buf`, `dirty` and `sp_buf` checks its range.
`memmove` does what the C standard says.

The frame buffer is what has been drawn last at each position: all sprites are tiles of
8 by 8 pixels at multiples of 8. `fb_write` of textures is left out, the font is loaded
before the consoles start.
-/

namespace MyOs.Console

open MyOs.Extent

-- ---------------------------------------------------------------------------
-- Characters
-- ---------------------------------------------------------------------------

/-- `'\0'`. -/
def nul : UInt8 := 0

/-- `'\b'`. -/
def backspace : UInt8 := 8

/-- `'\n'`. -/
def newline : UInt8 := 10

/-- `'\r'`. -/
def carriageReturn : UInt8 := 13

/-- `struct character`. -/
structure Character where
  metadata : UInt32
  ch : UInt8
  deriving DecidableEq

def ttyDefaultch : Character := { metadata := 0, ch := nul }

-- ---------------------------------------------------------------------------
-- State and failures
-- ---------------------------------------------------------------------------

/-- An access outside of an array, or a pointer in front of it. -/
inductive Fault
  | outOfRange
  deriving DecidableEq, Repr

abbrev Result := Except Fault

/-- The grid of `tty_t`. -/
structure Tty where
  display : Nat
  lines : Nat
  columns : Nat
  buf : Nat → Character
  cursor : Nat
  dirty : Nat → Bool

namespace Tty

/-- `tty->size`, and `tty->end`. -/
def size (tty : Tty) : Nat := tty.columns * tty.lines

/-- `tty->buf[i] = c`. -/
def store (tty : Tty) (i : Nat) (c : Character) : Result Tty :=
  if i < tty.size then return { tty with buf := Function.update tty.buf i c }
  else .error .outOfRange

end Tty

def inRange (p : Prop) [Decidable p] : Result Unit := if p then .ok () else .error .outOfRange

/-- `p - k` for a pointer into the grid. -/
def back (p k : Nat) : Result Nat := if k ≤ p then .ok (p - k) else .error .outOfRange

-- ---------------------------------------------------------------------------
-- State changes
-- ---------------------------------------------------------------------------

def ttyUpdScrollup (tty : Tty) : Result Tty := do
  let moveSz := tty.columns * (tty.lines - 1)
  inRange (tty.columns + moveSz ≤ tty.size)
  let tty := { tty with
    buf := copy tty.buf 0 tty.buf tty.columns moveSz
    dirty := copy tty.dirty 0 tty.dirty tty.columns moveSz }
  let cursor ← back tty.cursor tty.columns
  let tty := { tty with cursor }
  (List.range tty.columns).foldlM (fun tty i => tty.store (tty.cursor + i) ttyDefaultch) tty

def ttyUpdCr (tty : Tty) : Tty :=
  let x := tty.cursor % tty.columns
  { tty with cursor := tty.cursor - x }

def ttyUpdLf (tty : Tty) : Tty := { tty with cursor := tty.cursor + tty.columns }

def ttyUpdBacksp (tty : Tty) : Result Tty :=
  if tty.cursor > 0 then
    let tty := { tty with cursor := tty.cursor - 1 }
    tty.store tty.cursor { tty.buf tty.cursor with ch := nul }
  else return tty

def ttyUpdPutc (tty : Tty) (ch : UInt8) : Result Tty := do
  let tty ← tty.store tty.cursor { tty.buf tty.cursor with ch }
  return { tty with cursor := tty.cursor + 1 }

-- ---------------------------------------------------------------------------
-- Marks
-- ---------------------------------------------------------------------------

def ttyMark (tty : Tty) (ch : Nat) : Result Tty :=
  if ch < tty.size then return { tty with dirty := Function.update tty.dirty ch true }
  else .error .outOfRange

def ttyMarkLine (tty : Tty) (ch : Nat) : Result Tty :=
  let x := ch % tty.columns
  (List.range tty.columns).foldlM (fun tty i => ttyMark tty (ch - x + i)) tty

def ttyMarkAll (tty : Tty) : Result Tty := (List.range tty.size).foldlM ttyMark tty

-- ---------------------------------------------------------------------------
-- `tty_putc`
-- ---------------------------------------------------------------------------

def ttyPutc (tty : Tty) (ch : UInt8) : Result Tty :=
  if ch = carriageReturn then
    let tty := ttyUpdCr tty
    ttyMarkLine tty tty.cursor
  else if ch = backspace then do
    let tty ← ttyUpdBacksp tty
    let tty ← ttyMark tty tty.cursor
    ttyMark tty (tty.cursor + 1)
  else if ch = newline then
    let tty := ttyUpdLf (ttyUpdCr tty)
    if tty.cursor = tty.size then do
      let tty ← ttyUpdScrollup tty
      ttyMarkAll tty
    else do
      let above ← back tty.cursor tty.columns
      let tty ← ttyMarkLine tty above
      ttyMarkLine tty tty.cursor
  else do
    let tty ← ttyUpdPutc tty ch
    if tty.cursor = tty.size then do
      let tty ← ttyUpdScrollup tty
      ttyMarkAll tty
    else do
      let last ← back tty.cursor 1
      let tty ← ttyMark tty last
      ttyMark tty tty.cursor

-- ---------------------------------------------------------------------------
-- The frame buffer
-- ---------------------------------------------------------------------------

/-- `struct sprite`. -/
structure Sprite where
  texture : Nat
  x : Nat
  y : Nat
  display : Nat
  z : Nat
  deriving DecidableEq

/-- A sprite, with the widths of its fields. -/
def sprite (x y display texture : Nat) : Sprite where
  texture := texture % 2 ^ 16
  x := x % 2 ^ 16
  y := y % 2 ^ 16
  display := display % 2 ^ 4
  z := 0

/-- The current display, and the texture that has been drawn last at each position. -/
structure Fb where
  current : Nat
  screen : Nat × Nat → Nat

/-- What is written to the device `fb`: a `struct display_info`, or sprites. -/
inductive FbData
  | info (current : Nat)
  | sprites (l : List Sprite)

/-- One round of the loop of `fb_write`. -/
def fbDraw (fb : Fb) (sp : Sprite) : Fb :=
  if sp.texture > 0 ∧ sp.display = fb.current then
    { fb with screen := Function.update fb.screen (sp.x, sp.y) sp.texture }
  else fb

def fbWrite (fb : Fb) : FbData → Fb
  | .info current => if fb.current ≠ current then { fb with current } else fb
  | .sprites l => l.foldl fbDraw fb

-- ---------------------------------------------------------------------------
-- `tty_render`
-- ---------------------------------------------------------------------------

/-- `draw` for the cell at `i`. -/
def Tty.draw (tty : Tty) (showCursor : Bool) (i : Nat) : Nat :=
  if i = tty.cursor ∧ showCursor = true then 0xdb else (tty.buf i).ch.toNat

/-- The sprites of the cell in column `x` of row `y`. -/
def Tty.cellSprites (tty : Tty) (showCursor : Bool) (y x : Nat) : List Sprite :=
  let i := y * tty.columns + x
  if tty.dirty i = true then
    [sprite (x * 8) (y * 16) tty.display (tty.draw showCursor i * 2 + 1),
      sprite (x * 8) (y * 16 + 8) tty.display (tty.draw showCursor i * 2 + 2)]
  else []

/-- The sprites of all dirty cells, in the order of the grid. -/
def Tty.sprites (tty : Tty) (showCursor : Bool) : List Sprite :=
  (List.range tty.lines).flatMap fun y =>
    (List.range tty.columns).flatMap fun x => tty.cellSprites showCursor y x

def ttyRender (tty : Tty) (showCursor : Bool) (fb : Fb) : Result (Tty × Fb) := do
  let sp := tty.sprites showCursor
  inRange (sp.length ≤ tty.size * 2)
  let fb := fbWrite fb (.sprites sp)
  return ({ tty with dirty := fun i => if i < tty.size then false else tty.dirty i }, fb)

-- ---------------------------------------------------------------------------
-- `tty_write`
-- ---------------------------------------------------------------------------

/-- The first section of `tty_write`, under the lock. -/
def ttyPuts (tty : Tty) (buf : List UInt8) : Result Tty := buf.foldlM ttyPutc tty

def ttyWrite (tty : Tty) (showCursor : Bool) (fb : Fb) (buf : List UInt8) : Result (Tty × Fb) := do
  let tty ← ttyPuts tty buf
  ttyRender tty showCursor fb

end MyOs.Console
