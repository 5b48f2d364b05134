import Mathlib.Tactic.Common

/-!
# The keyboard of the abstract machine

The keys of `amdev.h`, and what `AM_INPUT_KEYBRD` reports about them. A key that is held
may be reported again, and a key may be reported as up that was never down.
-/

namespace MyOs.Am

/-- `AM_KEY_NONE` and `AM_KEYS`. -/
inductive Key
  | none
  | escape | f1 | f2 | f3 | f4 | f5 | f6 | f7 | f8 | f9 | f10 | f11 | f12
  | grave | k1 | k2 | k3 | k4 | k5 | k6 | k7 | k8 | k9 | k0 | minus | equals | backspace
  | tab | q | w | e | r | t | y | u | i | o | p | leftbracket | rightbracket | backslash
  | capslock | a | s | d | f | g | h | j | k | l | semicolon | apostrophe | return
  | lshift | z | x | c | v | b | n | m | comma | period | slash | rshift
  | lctrl | application | lalt | space | ralt | rctrl
  | up | down | left | right | insert | delete | home | «end» | pageup | pagedown
  deriving DecidableEq

/-- `AM_INPUT_KEYBRD_T`. -/
structure KeyReport where
  keydown : Bool
  keycode : Key
  deriving DecidableEq

end MyOs.Am
