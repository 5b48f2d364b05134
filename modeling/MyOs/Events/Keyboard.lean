import MyOs.Am.Keys
import MyOs.Events.Definitions

/-!
# input — the keyboard

The model of `input_keydown` in `kernel/src/dev/dev_input.c`, which turns what the keyboard
reports into events, with its `keymap` and the part of `input_init` that it depends on. The
flags are words of `int`; `pushed` are the calls of `push_event`, whose queue is the subject of
`Events.Queue`.

Against it stands a map from the history of the reports: which keys are held, and whether
CapsLock is on. The flags follow the history step by step, but `input_init` never clears
them, and `pmm->alloc` leaves memory as it is.

* `inputKeydown_down`, `inputKeydown_capslock` — what one report does to the flags.
* `Tracks.step` — the flags follow the history, and the event is that of the history.
* `keyboard_iff` — **the events reflect the keys exactly when the flags have been clear** at the
  start.
-/

namespace MyOs.Events

open MyOs.Am

-- ---------------------------------------------------------------------------
-- `input_t`
-- ---------------------------------------------------------------------------

/-- The flags of `input_t`. -/
structure Flags where
  capslock : BitVec 32
  shiftDown : Fin 2 → BitVec 32
  ctrlDown : Fin 2 → BitVec 32
  altDown : Fin 2 → BitVec 32

/-- `input_t` but for the lock and the semaphore. -/
structure InputDev where
  queue : Input
  flags : Flags

/-- `input_init`, on what `pmm->alloc` has left for the device and for its events. -/
def inputInit (mem : InputDev) (events : Nat → InputEvent) : InputDev :=
  { mem with queue := { events, front := 0, rear := 0 } }

/-- `event`: the fields have 1, 1 and 16 bits. -/
def event (ctrl alt : BitVec 32) (data : Nat) : InputEvent where
  ctrl := ctrl.toNat % 2
  alt := alt.toNat % 2
  data := data % 2 ^ 16

/-- `keymap`: what a key stands for, and what it stands for with Shift. -/
def keymap : Key → Char × Char
  | .k0 => ('0', ')')
  | .k1 => ('1', '!')
  | .k2 => ('2', '@')
  | .k3 => ('3', '#')
  | .k4 => ('4', '$')
  | .k5 => ('5', '%')
  | .k6 => ('6', '^')
  | .k7 => ('7', '&')
  | .k8 => ('8', '*')
  | .k9 => ('9', '(')
  | .a => ('a', 'A')
  | .b => ('b', 'B')
  | .c => ('c', 'C')
  | .d => ('d', 'D')
  | .e => ('e', 'E')
  | .f => ('f', 'F')
  | .g => ('g', 'G')
  | .h => ('h', 'H')
  | .i => ('i', 'I')
  | .j => ('j', 'J')
  | .k => ('k', 'K')
  | .l => ('l', 'L')
  | .m => ('m', 'M')
  | .n => ('n', 'N')
  | .o => ('o', 'O')
  | .p => ('p', 'P')
  | .q => ('q', 'Q')
  | .r => ('r', 'R')
  | .s => ('s', 'S')
  | .t => ('t', 'T')
  | .u => ('u', 'U')
  | .v => ('v', 'V')
  | .w => ('w', 'W')
  | .x => ('x', 'X')
  | .y => ('y', 'Y')
  | .z => ('z', 'Z')
  | .grave => ('\x60', '~')
  | .minus => ('-', '_')
  | .equals => ('=', '+')
  | .leftbracket => ('[', '\x7b')
  | .rightbracket => (']', '\x7d')
  | .backslash => ('\\', '|')
  | .semicolon => (';', ':')
  | .apostrophe => ('\x27', '\x22')
  | .return => ('\n', '\n')
  | .comma => (',', '<')
  | .period => ('.', '>')
  | .slash => ('/', '?')
  | .space => (' ', ' ')
  | .backspace => ('\x08', '\x08')
  | _ => ('\x00', '\x00')

-- ---------------------------------------------------------------------------
-- `input_keydown`
-- ---------------------------------------------------------------------------

/-- A condition as an `int`. -/
def word (b : Bool) : BitVec 32 := if b then 1 else 0

/-- `x || y` of two `int`. -/
def orInt (x y : BitVec 32) : BitVec 32 := word (x ≠ 0 || y ≠ 0)

/-- The `default` of the first `switch`: a key that is not a modifier has come down. -/
def keyEvent (kb : Flags) (keycode : Key) : Option InputEvent :=
  let ch := (keymap keycode).1.toNat
  if ch ≠ 0 then
    let shift := orInt (kb.shiftDown 0) (kb.shiftDown 1)
    let ctrl := orInt (kb.ctrlDown 0) (kb.ctrlDown 1)
    let alt := orInt (kb.altDown 0) (kb.altDown 1)
    if ctrl ≠ 0 ∨ alt ≠ 0 then some (event ctrl alt ch)
    else
      let shift := if 'a'.toNat ≤ ch ∧ ch ≤ 'z'.toNat then shift ^^^ kb.capslock else shift
      if shift ≠ 0 then some (event 0 0 (keymap keycode).2.toNat)
      else some (event 0 0 ch)
  else none

/-- `input_keydown`: the flags behind it, and the event that it pushes. -/
def inputKeydown (kb : Flags) (key : KeyReport) : Flags × Option InputEvent :=
  if key.keydown then
    match key.keycode with
    | .capslock => ({ kb with capslock := kb.capslock ^^^ 1 }, none)
    | .lctrl => ({ kb with ctrlDown := Function.update kb.ctrlDown 0 1 }, none)
    | .rctrl => ({ kb with ctrlDown := Function.update kb.ctrlDown 1 1 }, none)
    | .lalt => ({ kb with altDown := Function.update kb.altDown 0 1 }, none)
    | .ralt => ({ kb with altDown := Function.update kb.altDown 1 1 }, none)
    | .lshift => ({ kb with shiftDown := Function.update kb.shiftDown 0 1 }, none)
    | .rshift => ({ kb with shiftDown := Function.update kb.shiftDown 1 1 }, none)
    | keycode => (kb, keyEvent kb keycode)
  else
    match key.keycode with
    | .lctrl => ({ kb with ctrlDown := Function.update kb.ctrlDown 0 0 }, none)
    | .rctrl => ({ kb with ctrlDown := Function.update kb.ctrlDown 1 0 }, none)
    | .lalt => ({ kb with altDown := Function.update kb.altDown 0 0 }, none)
    | .ralt => ({ kb with altDown := Function.update kb.altDown 1 0 }, none)
    | .lshift => ({ kb with shiftDown := Function.update kb.shiftDown 0 0 }, none)
    | .rshift => ({ kb with shiftDown := Function.update kb.shiftDown 1 0 }, none)
    | _ => (kb, none)

/-- The events that a sequence of reports pushes. -/
def pushed (kb : Flags) : List KeyReport → List InputEvent
  | [] => []
  | key :: keys => (inputKeydown kb key).2.toList ++ pushed (inputKeydown kb key).1 keys

-- ---------------------------------------------------------------------------
-- The history
-- ---------------------------------------------------------------------------

/-- The keys that are held down for their effect on other keys. -/
inductive Held
  | shift
  | ctrl
  | alt
  deriving DecidableEq

/-- The left one and the right one. -/
def Held.key : Held → Fin 2 → Key
  | .shift, 0 => .lshift
  | .shift, 1 => .rshift
  | .ctrl, 0 => .lctrl
  | .ctrl, 1 => .rctrl
  | .alt, 0 => .lalt
  | .alt, 1 => .ralt

/-- The last report about the key has been a key-down. -/
def isHeld (past : List KeyReport) (keycode : Key) : Bool :=
  (past.reverse.find? (·.keycode = keycode)).any (·.keydown)

/-- One of the two is held. -/
def eitherHeld (past : List KeyReport) (m : Held) : Bool :=
  isHeld past (m.key 0) || isHeld past (m.key 1)

/-- CapsLock has come down an odd number of times. -/
def capsOn (past : List KeyReport) : Bool := past.count ⟨true, .capslock⟩ % 2 = 1

def isModifier : Key → Bool
  | .capslock | .lshift | .rshift | .lctrl | .rctrl | .lalt | .ralt => true
  | _ => false

def isLetter (keycode : Key) : Bool := 'a' ≤ (keymap keycode).1 ∧ (keymap keycode).1 ≤ 'z'

/-- The event that a report should push, behind the reports `past`. -/
def refEvent (past : List KeyReport) (key : KeyReport) : Option InputEvent :=
  if key.keydown ∧ ¬ isModifier key.keycode ∧ (keymap key.keycode).1 ≠ '\x00' then
    let ctrl := eitherHeld past .ctrl
    let alt := eitherHeld past .alt
    let shifted := eitherHeld past .shift ^^ (isLetter key.keycode && capsOn past)
    let ch := if !(ctrl || alt) && shifted then (keymap key.keycode).2 else (keymap key.keycode).1
    some { ctrl := ctrl.toNat, alt := alt.toNat, data := ch.toNat }
  else none

/-- The events that the reports should push, behind the reports `past`. -/
def reference (past : List KeyReport) : List KeyReport → List InputEvent
  | [] => []
  | key :: keys => (refEvent past key).toList ++ reference (past ++ [key]) keys

variable {kb : Flags} {past : List KeyReport} {key : KeyReport} {keycode : Key}

theorem isHeld_snoc (past : List KeyReport) (key : KeyReport) (keycode : Key) :
    isHeld (past ++ [key]) keycode
      = if key.keycode = keycode then key.keydown else isHeld past keycode := by
  unfold isHeld
  rw [List.reverse_append, List.reverse_singleton, List.singleton_append, List.find?_cons]
  by_cases h : key.keycode = keycode
  · simp [h]
  · simp [h]

theorem capsOn_snoc (past : List KeyReport) (key : KeyReport) :
    capsOn (past ++ [key]) = (capsOn past ^^ decide (key = ⟨true, .capslock⟩)) := by
  unfold capsOn
  rw [List.count_append, List.count_singleton]
  by_cases h : key = ⟨true, .capslock⟩
  · simp only [h, decide_true, Bool.xor_true, BEq.rfl, if_true]
    rw [← decide_not]
    refine decide_eq_decide.2 ?_
    omega
  · simp [h]

-- ---------------------------------------------------------------------------
-- One report
-- ---------------------------------------------------------------------------

/-- The flag of a key that is held. -/
def Flags.down (kb : Flags) : Held → Fin 2 → BitVec 32
  | .shift => kb.shiftDown
  | .ctrl => kb.ctrlDown
  | .alt => kb.altDown

/-- A key that is not a modifier leaves the flags alone. -/
theorem inputKeydown_plain (h : isModifier keycode = false) (kb : Flags) (keydown : Bool) :
    inputKeydown kb ⟨keydown, keycode⟩ = (kb, if keydown then keyEvent kb keycode else none) := by
  cases keydown <;> cases keycode <;> first | rfl | cases h

/-- **The flags of the held keys** behind a report. -/
theorem inputKeydown_down (kb : Flags) (key : KeyReport) (m : Held) (i : Fin 2) :
    (inputKeydown kb key).1.down m i
      = if key.keycode = m.key i then word key.keydown else kb.down m i := by
  obtain ⟨keydown, keycode⟩ := key
  by_cases hmod : isModifier keycode = true
  · have hi : i = 0 ∨ i = 1 := by omega
    unfold isModifier at hmod
    split at hmod <;> cases keydown <;> cases m <;> rcases hi with rfl | rfl <;> try rfl
    all_goals cases hmod
  · have hne : keycode ≠ m.key i := by
      rintro rfl
      have hi : i = 0 ∨ i = 1 := by omega
      cases m <;> rcases hi with rfl | rfl <;> exact hmod rfl
    rw [inputKeydown_plain (by simpa using hmod), if_neg hne]

/-- **CapsLock** behind a report. -/
theorem inputKeydown_capslock (kb : Flags) (key : KeyReport) :
    (inputKeydown kb key).1.capslock
      = kb.capslock ^^^ word (decide (key = ⟨true, .capslock⟩)) := by
  obtain ⟨keydown, keycode⟩ := key
  by_cases h : (⟨keydown, keycode⟩ : KeyReport) = ⟨true, .capslock⟩
  · rw [h]
    rfl
  · have hxor : kb.capslock ^^^ word false = kb.capslock := BitVec.xor_zero
    rw [decide_eq_false h, hxor]
    unfold inputKeydown
    cases keydown with
    | true =>
      dsimp only
      rw [if_pos rfl]
      split <;> first | rfl | exact absurd rfl h
    | false =>
      dsimp only
      rw [if_neg (by decide)]
      split <;> rfl

-- ---------------------------------------------------------------------------
-- The flags and the history
-- ---------------------------------------------------------------------------

/-- The flags are those of the history. -/
structure Tracks (kb : Flags) (past : List KeyReport) : Prop where
  down : ∀ m i, kb.down m i = word (isHeld past (m.key i))
  capslock : kb.capslock = word (capsOn past)

theorem word_xor (a b : Bool) : word a ^^^ word b = word (a ^^ b) := by
  cases a <;> cases b <;> rfl

theorem orInt_word (a b : Bool) : orInt (word a) (word b) = word (a || b) := by
  cases a <;> cases b <;> rfl

theorem word_ne_zero {b : Bool} : word b ≠ 0 ↔ b = true := by
  cases b <;> decide

/-- The characters fit into the field of an event. -/
theorem keymap_lt (keycode : Key) :
    (keymap keycode).1.toNat < 2 ^ 16 ∧ (keymap keycode).2.toNat < 2 ^ 16 := by
  cases keycode <;> decide

theorem event_word (ctrl alt : Bool) {data : Nat} (h : data < 2 ^ 16) :
    event (word ctrl) (word alt) data = ⟨ctrl.toNat, alt.toNat, data⟩ := by
  rw [event, Nat.mod_eq_of_lt h]
  cases ctrl <;> cases alt <;> rfl

/-- With Control or Alt the key pushes its plain character. -/
theorem keyEvent_of_held (hch : (keymap keycode).1.toNat ≠ 0)
    (h : orInt (kb.ctrlDown 0) (kb.ctrlDown 1) ≠ 0 ∨ orInt (kb.altDown 0) (kb.altDown 1) ≠ 0) :
    keyEvent kb keycode = some (event (orInt (kb.ctrlDown 0) (kb.ctrlDown 1))
      (orInt (kb.altDown 0) (kb.altDown 1)) (keymap keycode).1.toNat) := by
  unfold keyEvent
  dsimp only
  rw [if_pos hch, if_pos h]

/-- `shift`, behind the `^=` for letters. -/
def shiftOf (kb : Flags) (keycode : Key) : BitVec 32 :=
  if 'a'.toNat ≤ (keymap keycode).1.toNat ∧ (keymap keycode).1.toNat ≤ 'z'.toNat then
    orInt (kb.shiftDown 0) (kb.shiftDown 1) ^^^ kb.capslock
  else orInt (kb.shiftDown 0) (kb.shiftDown 1)

/-- Without Control and Alt, Shift selects the character. -/
theorem keyEvent_of_free (hch : (keymap keycode).1.toNat ≠ 0)
    (hctrl : orInt (kb.ctrlDown 0) (kb.ctrlDown 1) = 0)
    (halt : orInt (kb.altDown 0) (kb.altDown 1) = 0) :
    keyEvent kb keycode = some (event 0 0 (if shiftOf kb keycode ≠ 0 then
      (keymap keycode).2.toNat else (keymap keycode).1.toNat)) := by
  unfold keyEvent
  dsimp only
  rw [if_pos hch, if_neg (by rw [hctrl, halt]; decide), ← shiftOf]
  split <;> rfl

/-- **The event** of a key that has come down is that of the history. -/
theorem Tracks.keyEvent (h : Tracks kb past) (hmod : isModifier keycode = false) :
    keyEvent kb keycode = refEvent past ⟨true, keycode⟩ := by
  obtain ⟨hlow, hhigh⟩ := keymap_lt keycode
  have hshift : orInt (kb.shiftDown 0) (kb.shiftDown 1) = word (eitherHeld past .shift) := by
    rw [eitherHeld, ← orInt_word, ← h.down, ← h.down]
    rfl
  have hctrl : orInt (kb.ctrlDown 0) (kb.ctrlDown 1) = word (eitherHeld past .ctrl) := by
    rw [eitherHeld, ← orInt_word, ← h.down, ← h.down]
    rfl
  have halt : orInt (kb.altDown 0) (kb.altDown 1) = word (eitherHeld past .alt) := by
    rw [eitherHeld, ← orInt_word, ← h.down, ← h.down]
    rfl
  have hletter : ('a'.toNat ≤ (keymap keycode).1.toNat ∧ (keymap keycode).1.toNat ≤ 'z'.toNat)
      ↔ isLetter keycode = true := (decide_eq_true_iff (p := 'a' ≤ _ ∧ _ ≤ 'z')).symm
  by_cases hch : (keymap keycode).1 = '\x00'
  · simp [MyOs.Events.keyEvent, refEvent, hch]
  have hch' : (keymap keycode).1.toNat ≠ 0 := fun h0 => hch (Char.toNat_inj.1 h0)
  rw [refEvent, if_pos ⟨rfl, by rw [hmod]; decide, hch⟩]
  dsimp only
  by_cases hheld : (eitherHeld past .ctrl || eitherHeld past .alt) = true
  · have hcond : orInt (kb.ctrlDown 0) (kb.ctrlDown 1) ≠ 0 ∨
        orInt (kb.altDown 0) (kb.altDown 1) ≠ 0 := by
      rwa [hctrl, halt, word_ne_zero, word_ne_zero, ← Bool.or_eq_true]
    rw [keyEvent_of_held hch' hcond, hctrl, halt, event_word _ _ hlow, hheld]
    rfl
  · obtain ⟨hc, ha⟩ : eitherHeld past .ctrl = false ∧ eitherHeld past .alt = false := by
      simpa using hheld
    rw [hc] at hctrl
    rw [ha] at halt
    have hshifted : shiftOf kb keycode
        = word (eitherHeld past .shift ^^ (isLetter keycode && capsOn past)) := by
      rw [shiftOf, if_congr hletter rfl rfl, hshift, h.capslock]
      cases isLetter keycode with
      | true => rw [if_pos rfl, word_xor, Bool.true_and]
      | false => rw [if_neg (by decide), Bool.false_and, Bool.xor_false]
    rw [keyEvent_of_free hch' hctrl halt, hshifted, hc, ha]
    cases (eitherHeld past .shift ^^ (isLetter keycode && capsOn past)) with
    | true => exact congrArg some (event_word false false hhigh)
    | false => exact congrArg some (event_word false false hlow)

/-- **One report** keeps the flags those of the history, and pushes the event of the history. -/
theorem Tracks.step (h : Tracks kb past) (key : KeyReport) :
    (inputKeydown kb key).2 = refEvent past key ∧
      Tracks (inputKeydown kb key).1 (past ++ [key]) := by
  refine ⟨?_, fun m i => ?_, ?_⟩
  · obtain ⟨keydown, keycode⟩ := key
    by_cases hmod : isModifier keycode = true
    · have hnone : refEvent past ⟨keydown, keycode⟩ = none := by
        rw [refEvent, if_neg]
        simp [hmod]
      rw [hnone]
      unfold isModifier at hmod
      split at hmod <;> cases keydown <;> first | rfl | cases hmod
    · have hmod' : isModifier keycode = false := by simpa using hmod
      rw [inputKeydown_plain hmod']
      cases keydown with
      | true => exact h.keyEvent hmod'
      | false => rfl
  · rw [inputKeydown_down, isHeld_snoc, h.down]
    split <;> rfl
  · rw [inputKeydown_capslock, capsOn_snoc, h.capslock, word_xor]

/-- The events of a run are those of its history. -/
theorem Tracks.pushed_eq (h : Tracks kb past) (keys : List KeyReport) :
    pushed kb keys = reference past keys := by
  induction keys generalizing kb past with
  | nil => rfl
  | cons key keys ih =>
    obtain ⟨hevent, hflags⟩ := h.step key
    rw [pushed, reference, hevent, ih hflags]

-- ---------------------------------------------------------------------------
-- The start
-- ---------------------------------------------------------------------------

/-- No flag is set. -/
structure Flags.Clear (kb : Flags) : Prop where
  capslock : kb.capslock = 0
  down : ∀ m i, kb.down m i = 0

theorem Flags.Clear.tracks (h : kb.Clear) : Tracks kb [] :=
  ⟨fun m i => h.down m i, h.capslock⟩

theorem orInt_cases (x y : BitVec 32) : orInt x y = 0 ∧ x = 0 ∧ y = 0 ∨ orInt x y = 1 := by
  unfold orInt
  by_cases hx : x = 0
  · by_cases hy : y = 0
    · subst hx hy
      exact .inl ⟨rfl, rfl, rfl⟩
    · rw [decide_eq_true hy, Bool.or_true]
      exact .inr rfl
  · rw [decide_eq_true hx, Bool.true_or]
    exact .inr rfl

theorem orInt_toNat (x y : BitVec 32) : (orInt x y).toNat % 2 = 0 ↔ orInt x y = 0 := by
  rcases orInt_cases x y with ⟨h, -, -⟩ | h
  · rw [h]
    decide
  · rw [h]
    decide

theorem orInt_eq_zero {x y : BitVec 32} (h : orInt x y = 0) : x = 0 ∧ y = 0 := by
  rcases orInt_cases x y with ⟨-, hxy⟩ | hone
  · exact hxy
  · rw [hone] at h
    cases h

/-- An event without Control and Alt comes from a key that is pressed without them. -/
theorem free_of_keyEvent {data : Nat} (hch : (keymap keycode).1.toNat ≠ 0)
    (h : keyEvent kb keycode = some ⟨0, 0, data⟩) :
    orInt (kb.ctrlDown 0) (kb.ctrlDown 1) = 0 ∧ orInt (kb.altDown 0) (kb.altDown 1) = 0 := by
  by_contra hheld
  rw [not_and_or] at hheld
  rw [keyEvent_of_held hch hheld, Option.some.injEq, event, InputEvent.mk.injEq, orInt_toNat,
    orInt_toNat] at h
  exact hheld.elim (absurd h.1) (absurd h.2.1)

/-- What the keys `1` and `A` show when no other key has been touched. -/
theorem clear_of_keyEvent (hone : keyEvent kb .k1 = some ⟨0, 0, '1'.toNat⟩)
    (ha : keyEvent kb .a = some ⟨0, 0, 'a'.toNat⟩) : kb.Clear := by
  obtain ⟨hctrl, halt⟩ := free_of_keyEvent (by decide) hone
  rw [keyEvent_of_free (by decide) hctrl halt] at hone ha
  -- Shift would show in the event of `1`, and then CapsLock in that of `A`
  have hshift : shiftOf kb .k1 = 0 := by
    by_contra hne
    rw [if_pos hne] at hone
    revert hone
    decide
  have hcaps : shiftOf kb .a = 0 := by
    by_contra hne
    rw [if_pos hne] at ha
    revert ha
    decide
  rw [shiftOf, if_neg (by decide)] at hshift
  rw [shiftOf, if_pos (by decide), hshift] at hcaps
  obtain ⟨hs0, hs1⟩ := orInt_eq_zero hshift
  obtain ⟨hc0, hc1⟩ := orInt_eq_zero hctrl
  obtain ⟨ha0, ha1⟩ := orInt_eq_zero halt
  refine ⟨BitVec.zero_xor.symm.trans hcaps, fun m i => ?_⟩
  have hi : i = 0 ∨ i = 1 := by omega
  cases m with
  | shift => rcases hi with rfl | rfl <;> assumption
  | ctrl => rcases hi with rfl | rfl <;> assumption
  | alt => rcases hi with rfl | rfl <;> assumption

/-- **Keyboard events reflect the keys** exactly when `pmm->alloc` has left all flags clear. -/
theorem keyboard_iff (mem : InputDev) (events : Nat → InputEvent) :
    (∀ keys, pushed (inputInit mem events).flags keys = reference [] keys) ↔ mem.flags.Clear := by
  constructor
  · intro h
    have hone : (keyEvent mem.flags .k1).toList ++ [] = [⟨0, 0, '1'.toNat⟩] := h [⟨true, .k1⟩]
    have ha : (keyEvent mem.flags .a).toList ++ [] = [⟨0, 0, 'a'.toNat⟩] := h [⟨true, .a⟩]
    rw [List.append_nil, Option.toList_eq_singleton_iff] at hone ha
    exact clear_of_keyEvent hone ha
  · exact fun hclear keys => hclear.tracks.pushed_eq keys

/-- CapsLock is on when nobody has touched it. -/
theorem not_keyboard : ∃ mem events keys,
    pushed (inputInit mem events).flags keys ≠ reference [] keys := by
  refine ⟨⟨⟨fun _ => ⟨0, 0, 0⟩, 0, 0⟩, ⟨1, fun _ => 0, fun _ => 0, fun _ => 0⟩⟩,
    fun _ => ⟨0, 0, 0⟩, [⟨true, .a⟩], ?_⟩
  decide

end MyOs.Events
