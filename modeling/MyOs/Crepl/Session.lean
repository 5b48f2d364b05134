import MyOs.Crepl.Definitions

/-!
# Sessions

`func_handler` compiles a line alone, and then builds the library from the whole source
without looking at the result. A call does what it reports as long as the two
compilations agree, and only then.

* `funcHandler_eq` — what a call does.
* `exec_sound_iff` — one command.
* `session_sound_iff` — whole sessions: every call is sound if and only if gcc agrees with
  itself at every line, and then the library is that of the accumulated source.
* `lib_of_spoiled` — a source that no line repairs leaves the library behind for good.
* `session_spoiled` — a function that is entered twice makes such a source.
-/

namespace MyOs.Crepl

variable {ok : Source → Bool} {s s' : Session} {line text : Line} {c : Command}
  {commands : List Command} {ret : Bool}

-- ---------------------------------------------------------------------------
-- One call
-- ---------------------------------------------------------------------------

theorem build_file : (build ok s).file = s.file := by
  unfold build
  split
  · rfl
  · rfl

/-- A text that gcc rejects alone changes nothing. -/
theorem funcHandler_invalid (h : ok [line] = false) : funcHandler ok s line = (s, false) := by
  unfold funcHandler isValid
  rw [h]
  rfl

theorem funcHandler_valid (h : ok [line] = true) :
    funcHandler ok s line = (build ok { s with file := s.file ++ [line] }, true) := by
  unfold funcHandler isValid
  rw [h]
  rfl

/-- **One call of `func_handler`** is sound if and only if the two compilations agree. -/
theorem funcHandler_sound_iff :
    CallSound ok s line (funcHandler ok s line).1 (funcHandler ok s line).2 ↔
      Agrees ok s line := by
  cases hvalid : ok [line] with
  | false =>
    rw [funcHandler_invalid hvalid]
    refine ⟨fun _ h => ?_, fun _ => ⟨nofun, fun _ => ⟨rfl, rfl⟩⟩⟩
    rw [hvalid] at h
    cases h
  | true =>
    rw [funcHandler_valid hvalid]
    constructor
    · intro hsound _
      obtain ⟨hfile, hok, -⟩ := hsound.success rfl
      rwa [hfile] at hok
    · intro hagrees
      have hok := hagrees hvalid
      refine ⟨fun _ => ?_, nofun⟩
      unfold build
      rw [if_pos hok]
      exact ⟨rfl, hok, rfl⟩

/-- The state that `func_handler` starts from: `expr_handler` has counted. -/
def Command.enter (s : Session) : Command → Session
  | .func _ => s
  | .expr _ => { s with nexp := s.nexp + 1 }

theorem exec_eq (h : c.Fits s.nexp) :
    exec ok s c = .ok (funcHandler ok (c.enter s) (c.text s.nexp)) := by
  cases c with
  | func line => rfl
  | expr line => exact if_pos h

theorem fits_of_exec {r : Session × Bool} (h : exec ok s c = .ok r) : c.Fits s.nexp := by
  cases c with
  | func line => trivial
  | expr line =>
    by_cases hfits : (wrapper s.nexp line).length < exprSz
    · exact hfits
    · have herror : exec ok s (.expr line) = .error .bufferOverflow := if_neg hfits
      rw [herror] at h
      cases h

theorem enter_file : (c.enter s).file = s.file := by
  cases c with
  | func line => rfl
  | expr line => rfl

theorem enter_lib : (c.enter s).lib = s.lib := by
  cases c with
  | func line => rfl
  | expr line => rfl

/-- **One command.** -/
theorem exec_sound_iff :
    (∃ s' ret, exec ok s c = .ok (s', ret) ∧ CallSound ok s (c.text s.nexp) s' ret) ↔
      c.Fits s.nexp ∧ Agrees ok s (c.text s.nexp) := by
  have hcall : CallSound ok s (c.text s.nexp)
      (funcHandler ok (c.enter s) (c.text s.nexp)).1
      (funcHandler ok (c.enter s) (c.text s.nexp)).2 ↔ Agrees ok s (c.text s.nexp) := by
    have hiff : CallSound ok (c.enter s) (c.text s.nexp) _ _ ↔ Agrees ok (c.enter s) _ :=
      funcHandler_sound_iff
    unfold Agrees at hiff ⊢
    rw [enter_file] at hiff
    rw [← hiff]
    constructor
    · rintro ⟨hsuccess, hfailure⟩
      refine ⟨?_, ?_⟩
      · rwa [enter_file]
      · rwa [enter_file, enter_lib]
    · rintro ⟨hsuccess, hfailure⟩
      rw [enter_file] at hsuccess hfailure
      rw [enter_lib] at hfailure
      exact ⟨hsuccess, hfailure⟩
  constructor
  · rintro ⟨s', ret, hexec, hsound⟩
    have hfits := fits_of_exec hexec
    rw [exec_eq hfits] at hexec
    rw [Except.ok.inj hexec] at hcall
    exact ⟨hfits, hcall.1 hsound⟩
  · rintro ⟨hfits, hagrees⟩
    exact ⟨_, _, exec_eq hfits, hcall.2 hagrees⟩

-- ---------------------------------------------------------------------------
-- Whole sessions
-- ---------------------------------------------------------------------------

theorem run_cons {r : Session × Bool} (h : exec ok s c = .ok r) :
    run ok s (c :: commands) = run ok r.1 commands := by
  unfold run
  rw [List.foldlM_cons, h]
  rfl

theorem sound_iff_allAgree : Sound ok s commands ↔ AllAgree ok s commands := by
  induction commands generalizing s with
  | nil => exact Iff.rfl
  | cons c commands ih =>
    constructor
    · rintro ⟨s', ret, hexec, hsound, hrest⟩
      obtain ⟨hfits, hagrees⟩ := exec_sound_iff.1 ⟨s', ret, hexec, hsound⟩
      refine ⟨hfits, hagrees, fun s'' ret' hexec' => ?_⟩
      cases Except.ok.inj (hexec.symm.trans hexec')
      exact ih.1 hrest
    · rintro ⟨hfits, hagrees, hrest⟩
      obtain ⟨s', ret, hexec, hsound⟩ := exec_sound_iff.2 ⟨hfits, hagrees⟩
      exact ⟨s', ret, hexec, hsound, ih.2 (hrest s' ret hexec)⟩

/-- The library is that of the source, unless nothing has been accepted yet. -/
def Valid (ok : Source → Bool) (lib : Option Source) (s : Session) : Prop :=
  (s.file = [] ∧ s.lib = lib) ∨ (ok s.file = true ∧ s.lib = some s.file)

/-- One sound call keeps the library up to date. -/
theorem CallSound.valid {lib : Option Source} (h : CallSound ok s text s' ret)
    (hvalid : Valid ok lib s) : Valid ok lib s' := by
  cases ret with
  | true =>
    obtain ⟨-, hok, hlib⟩ := h.success rfl
    exact .inr ⟨hok, hlib⟩
  | false =>
    obtain ⟨hfile, hlib⟩ := h.failure rfl
    unfold Valid
    rwa [hfile, hlib]

theorem Sound.run {lib : Option Source} (h : Sound ok s commands) (hvalid : Valid ok lib s) :
    ∃ s', run ok s commands = .ok s' ∧ Valid ok lib s' := by
  induction commands generalizing s with
  | nil => exact ⟨s, rfl, hvalid⟩
  | cons c commands ih =>
    obtain ⟨s', ret, hexec, hsound, hrest⟩ := h
    rw [run_cons hexec]
    exact ih hrest (hsound.valid hvalid)

/--
**The accumulated program stays valid** in the sessions in which gcc agrees with itself at
every line, and in no other: every call succeeds with a library that is built from the
whole source, or fails and changes nothing. At the end of such a session the source
compiles, and the library is built from it.
-/
theorem session_sound_iff (ok : Source → Bool) (lib : Option Source) (commands : List Command) :
    (Sound ok (start lib) commands ↔ AllAgree ok (start lib) commands) ∧
      (AllAgree ok (start lib) commands →
        ∃ s, run ok (start lib) commands = .ok s ∧ Valid ok lib s) :=
  ⟨sound_iff_allAgree, fun h => (sound_iff_allAgree.2 h).run (.inl ⟨rfl, rfl⟩)⟩

-- ---------------------------------------------------------------------------
-- Spoiled sources
-- ---------------------------------------------------------------------------

/-- A call never takes a line away, and replaces the library by the whole source only. -/
theorem exec_extends {r : Session × Bool} (h : exec ok s c = .ok r) :
    (∃ more, r.1.file = s.file ++ more) ∧ (ok r.1.file = false → r.1.lib = s.lib) := by
  have hfits := fits_of_exec h
  rw [exec_eq hfits] at h
  rw [← Except.ok.inj h, ← enter_file (s := s) (c := c), ← enter_lib (s := s) (c := c)]
  cases hvalid : ok [c.text s.nexp] with
  | false =>
    rw [funcHandler_invalid hvalid]
    exact ⟨⟨[], (List.append_nil _).symm⟩, fun _ => rfl⟩
  | true =>
    rw [funcHandler_valid hvalid]
    refine ⟨⟨[c.text s.nexp], build_file⟩, fun hbad => ?_⟩
    rw [build_file] at hbad
    unfold build
    rw [hbad]
    rfl

/-- **A spoiled source**: when no continuation repairs it, the library stays what it is for
the rest of the session, whatever is entered. -/
theorem lib_of_spoiled (hspoiled : ∀ more, ok (s.file ++ more) = false)
    (h : run ok s commands = .ok s') : ok s'.file = false ∧ s'.lib = s.lib := by
  induction commands generalizing s with
  | nil =>
    cases h
    have hnow := hspoiled []
    rw [List.append_nil] at hnow
    exact ⟨hnow, rfl⟩
  | cons c commands ih =>
    cases hexec : exec ok s c with
    | error e =>
      unfold run at h
      rw [List.foldlM_cons, hexec] at h
      cases h
    | ok r =>
      obtain ⟨⟨more, hmore⟩, hlib⟩ := exec_extends hexec
      rw [run_cons hexec] at h
      have hspoiled' : ∀ more', ok (r.1.file ++ more') = false := fun more' => by
        rw [hmore, List.append_assoc]
        exact hspoiled (more ++ more')
      have hbad : ok r.1.file = false := by
        rw [hmore]
        exact hspoiled more
      obtain ⟨hend, hkept⟩ := ih hspoiled' h
      exact ⟨hend, hkept.trans (hlib hbad)⟩

/-- `int f(){}`. -/
def intF : Line := ['i', 'n', 't', ' ', 'f', '(', ')', '{', '}']

/-- Nothing is defined twice. -/
def noRepeat (src : Source) : Bool := decide src.Nodup

/-- **One line spoils a session.** The second `int f(){}` compiles alone and is reported as a
success, but the source does not compile any more, and no later line is ever built. -/
theorem session_spoiled : ∃ s, mainLoop noRepeat (start none) [intF, intF] = .ok s ∧
    funcHandler noRepeat ⟨[intF], some [intF], 0⟩ intF = (s, true) ∧
    noRepeat s.file = false ∧ s.lib = some [intF] ∧
    (∀ lines s', mainLoop noRepeat s lines = .ok s' →
      noRepeat s'.file = false ∧ s'.lib = some [intF]) ∧
    ¬ Sound noRepeat (start none) [.func intF, .func intF] := by
  have hspoiled : ∀ more : Source, noRepeat ([intF, intF] ++ more) = false := by
    intro more
    refine decide_eq_false fun hnodup => ?_
    exact (List.nodup_cons.1 hnodup).1 List.mem_cons_self
  refine ⟨⟨[intF, intF], some [intF], 0⟩, by decide, by decide, by decide, rfl, ?_, ?_⟩
  · intro lines s' hrun
    exact lib_of_spoiled hspoiled hrun
  · intro hsound
    have hsecond := (sound_iff_allAgree.1 hsound).2.2 _ _ rfl
    exact absurd (hsecond.2.1 (by decide)) (by decide)

end MyOs.Crepl
