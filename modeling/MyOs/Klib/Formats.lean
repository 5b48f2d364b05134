import MyOs.Klib.Numbers

/-!
# Formats

A format is a list of items: ordinary characters, and directives, which are a `%`, some
characters of `+0123456789` and a conversion. Behind an item the loop of `vsprintf` goes
on as from the start, with the arguments that are left: nothing is kept of its width and
flags.

* `redoSpec_spec` — the width and the flags of a directive.
* `redoSpec_conv` — a conversion writes its text and takes its argument.
* `exists_prints` — a format with its arguments.
* `vsprintf_append` — **`vsprintf` is compositional**.
-/

namespace MyOs.Klib

open MyOs.Word

-- ---------------------------------------------------------------------------
-- The grammar
-- ---------------------------------------------------------------------------

/-- A character between the `%` and the conversion. -/
inductive SpecChar
  | plus
  | digit (d : Fin 10)
  deriving DecidableEq

def SpecChar.char : SpecChar → Char
  | .plus => '+'
  | .digit d => Nat.digitChar d

def SpecChar.digit? : SpecChar → Option (Fin 10)
  | .plus => none
  | .digit d => some d

/-- The directive has the flag `0`: its first digit is one. -/
def hasZero (spec : List SpecChar) : Bool := (spec.filterMap SpecChar.digit?).head? = some 0

/-- The directive has the flag `+`. -/
def hasPlus (spec : List SpecChar) : Bool := SpecChar.plus ∈ spec

inductive Conv
  | percent
  | c
  | d
  | u
  | p
  | x
  | b
  | s
  deriving DecidableEq

def Conv.char : Conv → Char
  | .percent => '%'
  | .c => 'c'
  | .d => 'd'
  | .u => 'u'
  | .p => 'p'
  | .x => 'x'
  | .b => 'b'
  | .s => 's'

inductive Item
  | ordinary (c : Char) (h : c ≠ '%' ∧ c ≠ '\x00')
  | directive (spec : List SpecChar) (conv : Conv)

def Item.text : Item → List Char
  | .ordinary c _ => [c]
  | .directive spec conv => '%' :: (spec.map SpecChar.char ++ [conv.char])

def formatText (f : List Item) : List Char := f.flatMap Item.text

/-- The type of an argument. -/
inductive Kind
  | int
  | unsigned
  | str
  deriving DecidableEq

def Arg.kind : Arg → Kind
  | .int _ => .int
  | .unsigned _ => .unsigned
  | .str _ => .str

/-- The type of the argument that a conversion takes. -/
def Conv.kind? : Conv → Option Kind
  | .percent => none
  | .c => some .int
  | .d => some .int
  | .u => some .unsigned
  | .p => some .unsigned
  | .x => some .unsigned
  | .b => some .unsigned
  | .s => some .str

def Item.kind? : Item → Option Kind
  | .ordinary _ _ => none
  | .directive _ conv => conv.kind?

/-- The arguments match the directives. -/
def Matches (f : List Item) (ap : List Arg) : Prop := f.filterMap Item.kind? = ap.map Arg.kind

variable {f g : List Item} {a b ap : List Arg} {fmt out o o' : List Char} {spec : List SpecChar}
  {conv : Conv} {width : Int} {flags : Flags}

-- ---------------------------------------------------------------------------
-- One directive
-- ---------------------------------------------------------------------------

/-- What a character does to the width and the flags. -/
def specStep (s : Int × Flags) : SpecChar → Int × Flags
  | .plus => (s.1, { s.2 with putPlus := true })
  | .digit d =>
    (toI32 (s.1 * 10 + d.val),
      if d = 0 ∧ s.1 = 0 then { s.2 with fillZero := true } else s.2)

/-- The width and the flags of a directive. -/
def specRun (spec : List SpecChar) : Int × Flags := spec.foldl specStep (0, {})

theorem redoSpec_digit {c : Char} (hlo : '1' ≤ c) (hhi : c ≤ '9') :
    redoSpec (c :: fmt) out width flags ap =
      redoSpec fmt out (toI32 (width * 10 + c.toNat - 48)) flags ap := by
  rw [redoSpec]
  · exact if_pos ⟨hlo, hhi⟩
  -- the characters of the other cases are not between '1' and '9'
  all_goals
    rintro rfl
    revert hlo hhi
    decide

theorem digitChar_bounds {d : Nat} (hpos : 0 < d) (hlt : d < 10) :
    '1' ≤ Nat.digitChar d ∧ Nat.digitChar d ≤ '9' := by
  have hall : ∀ d < 10, 0 < d → '1' ≤ Nat.digitChar d ∧ Nat.digitChar d ≤ '9' := by decide
  exact hall d hlt hpos

theorem redoSpec_char (c : SpecChar) : redoSpec (c.char :: fmt) out width flags ap =
    redoSpec fmt out (specStep (width, flags) c).1 (specStep (width, flags) c).2 ap := by
  cases c with
  | plus => rfl
  | digit d =>
    by_cases hd : d = 0
    · subst hd
      rw [show (SpecChar.digit 0).char = '0' from rfl, redoSpec]
      simp [specStep]
    · have hpos : 0 < d.val := Nat.pos_of_ne_zero fun h => hd (Fin.ext h)
      obtain ⟨hlo, hhi⟩ := digitChar_bounds hpos d.isLt
      rw [SpecChar.char, redoSpec_digit hlo hhi, Nat.toNat_digitChar_of_lt_ten d.isLt, specStep,
        if_neg fun h => hd h.1]
      congr 2
      omega

theorem redoSpec_spec : redoSpec (spec.map SpecChar.char ++ fmt) out width flags ap =
    redoSpec fmt out (spec.foldl specStep (width, flags)).1
      (spec.foldl specStep (width, flags)).2 ap := by
  induction spec generalizing width flags with
  | nil => rfl
  | cons c spec ih =>
    rw [List.map_cons, List.cons_append, redoSpec_char, ih, List.foldl_cons]

/-- What a conversion writes. -/
def convText (width : Int) (flags : Flags) : Conv → Option Arg → List Char
  | .percent, _ => ['%']
  | .c, some (.int n) => [toCChar n]
  | .d, some (.int n) =>
    numText (toU32 (if n.val < 0 then toI32 (-n.val) else n.val)) width
      { flags with putMinus := n.val < 0 ∨ flags.putMinus, base10 := true }
  | .u, some (.unsigned n) => numText n width { flags with base10 := true }
  | .p, some (.unsigned n) => numText n 12 { flags with fillZero := true }
  | .x, some (.unsigned n) => numText n width flags
  | .b, some (.unsigned n) => numText n width { flags with base2 := true }
  | .s, some (.str (some s)) => s.val
  | _, _ => []

theorem kind_int {arg : Option Arg} (h : some Kind.int = arg.map Arg.kind) :
    ∃ n, arg = some (.int n) := by
  cases arg with
  | none => cases h
  | some a =>
    cases a with
    | int n => exact ⟨n, rfl⟩
    | unsigned n => cases h
    | str p => cases h

theorem kind_unsigned {arg : Option Arg} (h : some Kind.unsigned = arg.map Arg.kind) :
    ∃ n, arg = some (.unsigned n) := by
  cases arg with
  | none => cases h
  | some a =>
    cases a with
    | int n => cases h
    | unsigned n => exact ⟨n, rfl⟩
    | str p => cases h

theorem kind_str {arg : Option Arg} (h : some Kind.str = arg.map Arg.kind) :
    ∃ p, arg = some (.str p) := by
  cases arg with
  | none => cases h
  | some a =>
    cases a with
    | int n => cases h
    | unsigned n => cases h
    | str p => exact ⟨p, rfl⟩

/-- **A conversion** writes its text and takes its argument, and the loop goes on behind it. -/
theorem redoSpec_conv {arg : Option Arg} (h : conv.kind? = arg.map Arg.kind) :
    redoSpec (conv.char :: fmt) out width flags (arg.toList ++ ap) =
      vsprintfLoop fmt (out ++ convText width flags conv arg) ap := by
  cases conv with
  | percent =>
    cases arg with
    | none => rfl
    | some a => cases h
  | c =>
    obtain ⟨n, rfl⟩ := kind_int h
    rfl
  | d =>
    obtain ⟨n, rfl⟩ := kind_int h
    simp only [Conv.char, redoSpec, Option.toList_some, List.singleton_append, vaInt, ok_bind,
      sitoa_eq (toU32_lt _), convText]
    by_cases hneg : n.val < 0
    · simp [hneg]
    · simp [hneg]
  -- these differ in the width and the flags only
  | u | p | x | b =>
    obtain ⟨n, rfl⟩ := kind_unsigned h
    simp only [Conv.char, redoSpec, Option.toList_some, List.singleton_append, vaUnsigned, ok_bind,
      sitoa_eq n.isLt, convText]
  | s =>
    obtain ⟨p, rfl⟩ := kind_str h
    cases p with
    | none =>
      simp only [Conv.char, redoSpec, Option.toList_some, List.singleton_append, vaStr, ok_bind,
        convText, List.append_nil]
    | some s => rfl

-- ---------------------------------------------------------------------------
-- A format with its arguments
-- ---------------------------------------------------------------------------

/-- The format `f` with the arguments `a` writes `o`, wherever it stands: the loop goes on behind
it with what follows. -/
def Prints (f : List Item) (a : List Arg) (o : List Char) : Prop :=
  ∀ fmt out ap, vsprintfLoop (formatText f ++ fmt) out (a ++ ap) = vsprintfLoop fmt (out ++ o) ap

theorem Prints.nil : Prints [] [] [] := fun fmt out ap => by simp [formatText]

theorem Prints.append (h : Prints f a o) (h' : Prints g b o') :
    Prints (f ++ g) (a ++ b) (o ++ o') := by
  intro fmt out ap
  have htext : formatText (f ++ g) = formatText f ++ formatText g := List.flatMap_append
  rw [htext, List.append_assoc, List.append_assoc, h, h', List.append_assoc]

theorem prints_ordinary {c : Char} (h : c ≠ '%' ∧ c ≠ '\x00') :
    Prints [.ordinary c h] [] [c] := by
  intro fmt out ap
  rw [formatText, List.flatMap_singleton, Item.text, List.singleton_append, vsprintfLoop,
    if_pos h.1, List.nil_append]

theorem prints_directive (spec : List SpecChar) (arg : Option Arg)
    (h : conv.kind? = arg.map Arg.kind) :
    Prints [.directive spec conv] arg.toList
      (convText (specRun spec).1 (specRun spec).2 conv arg) := by
  intro fmt out ap
  rw [formatText, List.flatMap_singleton, Item.text, List.cons_append, List.append_assoc,
    vsprintfLoop, if_neg (by decide), redoSpec_spec, List.singleton_append, redoSpec_conv h]
  rfl

/-- **Every format** of the grammar prints, with matching arguments. -/
theorem exists_prints (h : Matches f a) : ∃ o, Prints f a o := by
  induction f generalizing a with
  | nil =>
    obtain rfl : a = [] := List.map_eq_nil_iff.1 h.symm
    exact ⟨[], Prints.nil⟩
  | cons item f ih =>
    cases item with
    | ordinary c hc =>
      obtain ⟨o, ho⟩ := ih (a := a) h
      exact ⟨_, (prints_ordinary hc).append ho⟩
    | directive spec conv =>
      unfold Matches at h
      cases hkind : conv.kind? with
      | none =>
        rw [List.filterMap_cons_none (show (Item.directive spec conv).kind? = none from hkind)] at h
        obtain ⟨o, ho⟩ := ih h
        exact ⟨_, (prints_directive spec none hkind).append ho⟩
      | some k =>
        rw [List.filterMap_cons_some (show (Item.directive spec conv).kind? = some k from hkind)]
          at h
        obtain ⟨arg, a', rfl, harg, hrest⟩ := List.map_eq_cons_iff.1 h.symm
        obtain ⟨o, ho⟩ := ih hrest.symm
        have hkind' : conv.kind? = (some arg).map Arg.kind := by rw [hkind, ← harg]; rfl
        exact ⟨_, (prints_directive spec (some arg) hkind').append ho⟩

theorem Prints.vsprintf (h : Prints f a o) :
    Klib.vsprintf (formatText f) a = .ok (o ++ ['\x00'], toI32 o.length) := by
  have hloop := h [] [] []
  rw [List.append_nil, List.append_nil, List.nil_append] at hloop
  rw [Klib.vsprintf, hloop]
  rfl

/-- **`vsprintf` is compositional.** No assertion fails, the output of `f` is followed by that of
`g`, and the return values add up. -/
theorem vsprintf_append (hf : Matches f a) (hg : Matches g b) :
    ∃ o o' r r', vsprintf (formatText f) a = .ok (o ++ ['\x00'], r) ∧
      vsprintf (formatText g) b = .ok (o' ++ ['\x00'], r') ∧
      vsprintf (formatText f ++ formatText g) (a ++ b) =
        .ok (o ++ o' ++ ['\x00'], toI32 (r + r')) ∧
      (((o ++ o').length : Int) < 2 ^ 31 → toI32 (r + r') = r + r') := by
  obtain ⟨o, ho⟩ := exists_prints hf
  obtain ⟨o', ho'⟩ := exists_prints hg
  have hboth := (ho.append ho').vsprintf
  rw [formatText, List.flatMap_append, List.length_append] at hboth
  refine ⟨o, o', _, _, ho.vsprintf, ho'.vsprintf, ?_, fun hlt => ?_⟩
  · rw [toI32_add_toI32]
    exact_mod_cast hboth
  · rw [List.length_append] at hlt
    rw [toI32_add_toI32, toI32_of_int (by omega) (by omega), toI32_of_int (by omega) (by omega),
      toI32_of_int (by omega) (by omega)]

/-- `"%+d,"` and `"%03x"`. -/
theorem vsprintf_append_sample :
    ∃ o o' r r',
      vsprintf (formatText [.directive [.plus] .d, .ordinary ',' (by decide)])
        [.int ⟨7, by decide⟩] = .ok (o ++ ['\x00'], r) ∧
      vsprintf (formatText [.directive [.digit 0, .digit 3] .x]) [.unsigned 10] =
        .ok (o' ++ ['\x00'], r') ∧
      vsprintf (formatText [.directive [.plus] .d, .ordinary ',' (by decide)] ++
          formatText [.directive [.digit 0, .digit 3] .x])
        ([.int ⟨7, by decide⟩] ++ [.unsigned 10]) =
        .ok (o ++ o' ++ ['\x00'], toI32 (r + r')) ∧
      (((o ++ o').length : Int) < 2 ^ 31 → toI32 (r + r') = r + r') :=
  vsprintf_append rfl rfl

end MyOs.Klib
