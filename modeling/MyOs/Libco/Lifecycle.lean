import MyOs.Libco.Pool

/-!
# libco — life cycle and wake-ups

What the invariant says about every run of every program:

* `lifeCycle_of_reachable` — a coroutine is entered at most once, its status
  moves `CO_NEW → CO_RUNNING → (CO_WAITING → CO_RUNNING)* → CO_DEAD`, a dead or
  freed one is never made current, and every `longjmp` resumes the continuation
  its target saved in its most recent `co_yield`;
* `wakeUp_of_reachable` — a coroutine that has yielded is `CO_WAITING` exactly
  while it is inside `co_wait` of one whose function has not returned; `co_wait`
  records its caller, and returns exactly by reaping that one.
-/

namespace MyOs.Libco

open MyOs.Transition MyOs.CyclicScan

/-! ## Status moves -/

/-- The moves of a coroutine's status. -/
inductive Moves : CoStatus → CoStatus → Prop
  | enter : Moves .new .running
  | wait : Moves .running .waiting
  | wake : Moves .waiting .running
  | die : Moves .running .dead

/-- **Step lemma.** A step leaves the status of a live coroutine alone or makes
one move. -/
theorem Inv.status_moves {s s' : State} {e : Event} (h : Inv s) (hs : Step s e s')
    {c : Handle} (hc : Live s c) :
    s'.status c = s.status c ∨ Moves (s.status c) (s'.status c) := by
  cases hs with
  | start hpc hmain hfresh =>
    rename_i d
    have hcd : c ≠ d := by
      rintro rfl
      exact hc.elim hmain hfresh
    exact Or.inl (by rw [State.status, coStart_obj hcd, State.status])
  | yield => exact Or.inl rfl
  | wait hpc hco hne hw =>
    have hrun := (h.co _ h.current_live).user (by simp [State.at, hpc])
    simp only [State.status, coWait_obj]
    by_cases hcc : c = s.current
    · subst hcc
      rw [if_pos rfl, hrun]
      exact Or.inr .wait
    · exact Or.inl (if_neg hcc)
  | ret hpc hmain =>
    have hat : s.at s.current = some .user := by simp [State.at, hpc]
    have hrun := (h.co _ h.current_live).user hat
    simp only [State.status, coExit_obj]
    by_cases hw : (s.obj s.current).waiter = some c
    · rw [if_pos hw, (h.waiter_of_user hat hw).2.2.2]
      exact Or.inr .wake
    · rw [if_neg hw]
      by_cases hcc : c = s.current
      · subst hcc
        rw [if_pos rfl, hrun]
        exact Or.inr .die
      · exact Or.inl (if_neg hcc)
  | test hpc =>
    rename_i co
    by_cases hdead : s.status co = .dead
    · simp only [State.status, reap_obj hdead]
      by_cases hcc : c = s.current
      · -- the caller is still marked waiting when it never had to yield
        subst hcc
        have hat : s.at s.current = some (.coWait co) := by simp [State.at, hpc]
        obtain ⟨-, -, -, hst, -, -⟩ := (h.co _ h.current_live).wait co hat
        rw [if_pos rfl]
        rcases hst with hst | hst
        · rw [hst]
          exact Or.inr .wake
        · exact Or.inl hst.symm
      · exact Or.inl (if_neg hcc)
    · exact Or.inl (by rw [coWaitLoop, if_pos hdead]; rfl)
  | switch hpc hfd hp =>
    rename_i k fuel i d
    obtain ⟨-, hl, hst⟩ := h.switch_target hfd hp
    obtain ⟨-, -, -, -, -, hobj, hrun, -⟩ := h.switch_spec hpc hp hl hst
    by_cases hcd : c = d
    · subst hcd
      rw [hrun]
      rcases hst with hst | hst
      · exact Or.inl hst.symm
      · rw [hst]
        exact Or.inr .enter
    · exact Or.inl (by rw [State.status, hobj c hcd]; exact setjmp_status s k c)

/-- Only a switch changes the current coroutine. -/
theorem current_step {s s' : State} {e : Event} (hs : Step s e s') :
    s'.current = s.current ∨ ∃ c, e = .switch c := by
  cases hs with
  | start => exact Or.inl (by simp [coStart])
  | yield => exact Or.inl rfl
  | wait => exact Or.inl rfl
  | ret => exact Or.inl (coExit_fields s).2.2.1
  | test =>
    rename_i co hpc
    by_cases hdead : s.status co = .dead
    · exact Or.inl (by rw [coWaitLoop_of_dead hdead]; simp)
    · exact Or.inl (by rw [coWaitLoop, if_pos hdead])
  | switch => exact Or.inr ⟨_, rfl⟩

/-! ## Life cycle -/

/-- The life-cycle laws in one state and over the steps that leave it. -/
structure LifeCycle (s : State) : Prop where
  entered_once : ∀ c, Live s c → (s.obj c).entered ≤ 1
  starts_new : ∀ c s', Step s (.start c) s' → s'.status c = .new ∧ (s'.obj c).entered = 0
  status_moves : ∀ e s', Step s e s' → ∀ c, Live s c →
    s'.status c = s.status c ∨ Moves (s.status c) (s'.status c)
  current_step : ∀ e s', Step s e s' → s'.current = s.current ∨ ∃ c, e = .switch c
  current_alive : ∀ c s', Step s (.switch c) s' →
    s'.current = c ∧ Live s c ∧ s.status c ≠ .dead
  assert_unreachable : s.pc ≠ .run .exit
  in_control : s.pc ≠ .lost
  yield_current : ∀ k, s.pc = .coYield k → s.pool s.id = some s.current
  longjmp : ∀ k fuel i c, s.pc = .coYield k → fdNext (setjmp s k) fuel = some i →
    s.pool i = some c → s.status c = .running →
    ∃ k', ((setjmp s k).obj c).context = some k' ∧ ((setjmp s k).obj c).pending = some k' ∧
      (coSwitch (setjmp s k) k i).pc = .run k' ∧
      ((coSwitch (setjmp s k) k i).obj c).pending = none

/-- **Coroutine life cycle.** -/
theorem lifeCycle_of_reachable {s : State} (hr : Reachable s) : LifeCycle s := by
  have h := inv_of_reachable hr
  refine ⟨?_, ?_, fun e s' hs c hc => h.status_moves hs hc, fun e s' hs => current_step hs, ?_,
    h.control.2, h.control.1, fun _ _ => h.id_current, ?_⟩
  · intro c hc
    cases hat : s.at c with
    | none => simp [((h.co c hc).fresh hat).2]
    | some k => simp [((h.co c hc).saved k hat).1]
  · intro c s' hs
    cases hs
    simp [State.status, coStart]
  · intro c s' hs
    cases hs with
    | switch hpc hfd hp =>
      obtain ⟨-, hl, hst⟩ := h.switch_target hfd hp
      refine ⟨(h.switch_spec hpc hp hl hst).2.2.1, hl, ?_⟩
      rcases hst with hst | hst <;> simp [hst]
  · intro k fuel i c hpc hfd hp hrun
    obtain ⟨-, hl, -⟩ := h.switch_target hfd hp
    obtain ⟨k', -, -, hctx, hpend⟩ := h.switch_context hpc hl hrun
    refine ⟨k', hctx, hpend, ?_⟩
    simp [coSwitch, hp, hrun, hctx]

/-! ## A wait from its start to its end -/

/-- `main` has started a coroutine and has called `co_wait` on it. -/
def waitCalled : State := coWait (startMany 1) 1

/-- The coroutine has been entered; `main` is inside `co_wait`. -/
def waitEntered : State :=
  coSwitch (setjmp (coWaitLoop waitCalled 1) (.coWait 1)) (.coWait 1) 1

/-- The coroutine has returned; `main` is resumed inside `co_wait`. -/
def waitResumed : State := coSwitch (setjmp (coExit waitEntered) .exit) .exit 0

theorem waitEntered_reachable : ReachableWithin waitEntered := by
  have h₁ : ReachableWithin (startMany 1) := .step (.init rfl)
    ⟨.start rfl (Nat.succ_ne_zero 0) (List.not_mem_nil), by simp [Room, State.start, maxCo]⟩
  have h₂ : ReachableWithin waitCalled := h₁.step
    ⟨.wait rfl (show 1 ∈ (startMany 1).allocated by decide) (by decide) (by decide), trivial⟩
  have h₃ : ReachableWithin (coWaitLoop waitCalled 1) := h₂.step ⟨.test rfl, trivial⟩
  exact h₃.step ⟨@Step.switch _ _ 1 _ _ rfl (by decide) rfl, trivial⟩

theorem waitResumed_reachable : ReachableWithin waitResumed := by
  have h₁ : ReachableWithin (coExit waitEntered) :=
    waitEntered_reachable.step ⟨.ret rfl (by decide), trivial⟩
  exact h₁.step ⟨@Step.switch _ _ maxCo _ _ rfl (by decide) rfl, trivial⟩

/-- The coroutine runs, returns, and `main` comes back from `co_wait`. -/
theorem lifeCycle_waitRun : LifeCycle waitEntered ∧ LifeCycle waitResumed ∧
    LifeCycle (coWaitLoop waitResumed 1) := by
  have h := waitResumed_reachable.of_restrict
  exact ⟨lifeCycle_of_reachable waitEntered_reachable.of_restrict, lifeCycle_of_reachable h,
    lifeCycle_of_reachable (h.step (.test rfl))⟩

/-! ## Wake-ups -/

/-- A coroutine leaves `co_wait(y)` only in the loop test that finds `y` dead. -/
theorem Inv.leave_wait {s s' : State} {e : Event} (h : Inv s) (hs : Step s e s') {x y : Handle}
    (hx : Live s x) (hw : InWait s x y) (hn : ¬ InWait s' x y) :
    s.pc = .run (.coWait y) ∧ x = s.current ∧ s.status y = .dead ∧ s' = coWaitLoop s y := by
  -- while the current coroutine runs its own code, whoever waits is another one
  have huser : s.pc = .run .user → x ≠ s.current := by
    rintro hpc rfl
    simp [InWait, State.at, hpc] at hw
  cases hs with
  | start hpc hmain hfresh =>
    rename_i c
    have hxc : x ≠ c := by
      rintro rfl
      exact hx.elim hmain hfresh
    exact absurd ((coStart_at hxc).trans hw) hn
  | yield hpc =>
    refine absurd ?_ hn
    rw [InWait, State.at, if_neg (huser hpc)] at *
    exact hw
  | wait hpc => exact absurd ((coWait_at (huser hpc)).trans hw) hn
  | ret hpc => exact absurd ((coExit_at (huser hpc)).trans hw) hn
  | test hpc =>
    rename_i co
    by_cases hdead : s.status co = .dead
    · by_cases hxc : x = s.current
      · have hat : s.at x = some (.coWait co) := by simp [State.at, hxc, hpc]
        have hwy : s.at x = some (.coWait y) := hw
        obtain rfl : co = y := by
          have := hat.symm.trans hwy
          simpa using this
        exact ⟨hpc, hxc, hdead, rfl⟩
      · exact absurd ((reap_at hdead hxc).trans hw) hn
    · refine absurd ?_ hn
      rw [coWaitLoop, if_pos hdead]
      simp only [InWait, State.at, hpc] at hw ⊢
      exact hw
  | switch hpc hfd hp =>
    rename_i k fuel i c
    obtain ⟨-, hl, hst⟩ := h.switch_target hfd hp
    by_cases hxc : x = c
    · subst hxc
      obtain ⟨-, -, hcur, -, ⟨k', hpc', -, hrun, -⟩, -⟩ := h.switch_spec hpc hp hl hst
      have hrn : s.status x = .running := by
        rcases hst with hst | hst
        · exact hst
        · obtain ⟨-, -, -, hstw, -, -⟩ := (h.co x hx).wait y hw
          have hst' : (s.obj x).status = .new := hst
          rcases hstw with hstw | hstw <;> simp [hstw] at hst'
      refine absurd ?_ hn
      have hk' : s.at x = some k' := hrun hrn
      have hwy : s.at x = some (.coWait y) := hw
      rw [hk'] at hwy
      simpa [InWait, State.at, hcur, hpc'] using hwy
    · exact absurd ((h.switch_at hpc hp hl hst hxc).trans hw) hn

/-- A function returns only in the step that marks its coroutine dead. -/
theorem Inv.return_step {s s' : State} {e : Event} (h : Inv s) (hs : Step s e s') {y : Handle}
    (hy : Live s y) (hn : ¬ Returned s y) (hr : Returned s' y) :
    s.pc = .run .user ∧ y = s.current ∧ s' = coExit s := by
  cases hs with
  | start hpc hmain hfresh =>
    rename_i c
    have hyc : y ≠ c := by
      rintro rfl
      exact hy.elim hmain hfresh
    exact absurd ((coStart_at hyc).symm.trans hr) hn
  | yield hpc =>
    refine absurd ?_ hn
    simp only [Returned, State.at, hpc] at hr ⊢
    exact hr
  | wait hpc =>
    by_cases hyc : y = s.current
    · simp [Returned, State.at, coWait, hyc] at hr
    · exact absurd ((coWait_at hyc).symm.trans hr) hn
  | ret hpc =>
    by_cases hyc : y = s.current
    · exact ⟨hpc, hyc, rfl⟩
    · exact absurd ((coExit_at hyc).symm.trans hr) hn
  | test hpc =>
    rename_i co
    by_cases hdead : s.status co = .dead
    · by_cases hyc : y = s.current
      · rw [coWaitLoop_of_dead hdead] at hr
        simp [Returned, State.at, hyc] at hr
      · exact absurd ((reap_at hdead hyc).symm.trans hr) hn
    · refine absurd ?_ hn
      rw [coWaitLoop, if_pos hdead] at hr
      simp only [Returned, State.at, hpc] at hr ⊢
      exact hr
  | switch hpc hfd hp =>
    rename_i k fuel i c
    obtain ⟨-, hl, hst⟩ := h.switch_target hfd hp
    by_cases hyc : y = c
    · subst hyc
      obtain ⟨-, -, hcur, -, ⟨k', hpc', hexit, -⟩, -⟩ := h.switch_spec hpc hp hl hst
      simp only [Returned, State.at, hcur, hpc', if_true, Option.some.injEq] at hr
      exact absurd hr hexit
    · exact absurd ((h.switch_at hpc hp hl hst hyc).symm.trans hr) hn

/-- Reaping clears the slot of the dead coroutine and no other. -/
theorem reap_pool {s : State} {y : Handle} (hin : InPool s y) (hdead : s.status y = .dead) :
    ∃ i < maxCo, s.pool i = some y ∧ (coWaitLoop s y).pool = Function.update s.pool i none := by
  obtain ⟨i, hi⟩ := findSlot_of_inPool hin
  obtain ⟨hlt, hp⟩ := findSlot_eq_some hi
  refine ⟨i, hlt, hp, ?_⟩
  rw [coWaitLoop_of_dead hdead, hi]
  rfl

/-- The wake-up laws in one state and over the steps that leave it: what a call of
`co_wait` records, when its loop ends, and what the end of a function does. -/
structure WakeUp (s : State) : Prop where
  enters : ∀ s' y, Step s (.wait y) s' →
    InWait s' s.current y ∧ (s'.obj y).waiter = some s.current ∧
    s'.status s.current = .waiting ∧ s'.allocated = s.allocated ∧ s'.pool = s.pool
  tests : ∀ s' y, Step s .test s' → InWait s s.current y →
    (¬ InWait s' s.current y ↔ Returned s y)
  ends : ∀ s', Step s .ret s' → Returned s' s.current ∧ s'.status s.current = .dead
  waiting_iff : ∀ x, Live s x → Yielded s x →
    (s.status x = .waiting ↔ ∃ y, WaitsFor s x y)
  recorded : ∀ x y, Live s x → WaitsFor s x y → (s.obj y).waiter = some x
  returns : ∀ e s' x y, Live s x → Step s e s' → InWait s x y → ¬ InWait s' x y →
    Returned s y ∧ x = s.current ∧ s'.pc = .run .user ∧ s'.status x = .running ∧
    s'.allocated = s.allocated.erase y ∧ y ∉ s'.allocated ∧
    ∃ i < maxCo, s.pool i = some y ∧ s'.pool = Function.update s.pool i none
  wakes : ∀ e s' y w, Live s y → Step s e s' → ¬ Returned s y → Returned s' y →
    (s.obj y).waiter = some w → s'.status w = .running ∧ InPool s' w

/-- **What a call of `co_wait` records**: its caller as the waiter, and that the
caller waits. Nothing is freed and no slot is cleared yet. -/
theorem enter_wait {s s' : State} {y : Handle} (hs : Step s (.wait y) s') :
    InWait s' s.current y ∧ (s'.obj y).waiter = some s.current ∧
      s'.status s.current = .waiting ∧ s'.allocated = s.allocated ∧ s'.pool = s.pool := by
  cases hs with
  | wait =>
    refine ⟨by simp [InWait, State.at, coWait], ?_, ?_, rfl, rfl⟩
    · rw [coWait_obj, if_pos rfl]
    · rw [State.status, coWait_obj, if_pos rfl]

/-- The loop of `co_wait(y)` ends with the test that finds `y` returned. -/
theorem Inv.test_wait {s s' : State} {y : Handle} (h : Inv s) (hs : Step s .test s')
    (hw : InWait s s.current y) : ¬ InWait s' s.current y ↔ Returned s y := by
  obtain ⟨hy, -⟩ := (h.co _ h.current_live).wait y hw
  rw [h.returned_iff (Or.inr hy)]
  constructor
  · intro hn
    exact (h.leave_wait hs h.current_live hw hn).2.2.1
  · intro hdead
    cases hs with
    | test hpc =>
      rename_i co
      obtain rfl : co = y := by simpa [InWait, State.at, hpc] using hw
      rw [coWaitLoop_of_dead hdead]
      simp [InWait, State.at]

/-- A function that returns leaves its coroutine dead, behind its final `co_yield`. -/
theorem ret_returned {s s' : State} (h : Inv s) (hs : Step s .ret s') :
    Returned s' s.current ∧ s'.status s.current = .dead := by
  cases hs with
  | ret hpc =>
    have hw : (s.obj s.current).waiter ≠ some s.current := fun hw => by
      have hat : s.at s.current = some .user := by simp [State.at, hpc]
      rw [(h.waiter _ h.current_live _ hw).1] at hat
      cases hat
    obtain ⟨-, -, hcur, -, hexit⟩ := coExit_fields s
    refine ⟨by simp [Returned, State.at, hcur, hexit], ?_⟩
    rw [State.status, coExit_obj, if_neg hw, if_pos rfl]

/-- **No lost and no premature wake-up.** -/
theorem wakeUp_of_reachable {s : State} (hr : ReachableWithin s) : WakeUp s := by
  have h := inv_of_reachableWithin hr
  refine ⟨fun _ _ => enter_wait, fun _ _ => h.test_wait, fun _ => ret_returned h, ?_, ?_, ?_, ?_⟩
  · intro x hx hyl
    constructor
    · intro hst
      have hst : (s.obj x).status = .waiting := hst
      have hco := h.co x hx
      cases hat : s.at x with
      | none => simp [(hco.fresh hat).1] at hst
      | some k =>
        cases k with
        | user => simp [hco.user hat] at hst
        | exit => simp [(hco.exit hat).1] at hst
        | coWait y =>
          obtain ⟨hy, -, -, -, -, hd⟩ := hco.wait y hat
          refine ⟨y, hat, fun hret => ?_⟩
          have hdead := (h.returned_iff (Or.inr hy)).mp hret
          simp [hd hyl hdead] at hst
    · rintro ⟨y, hat, hret⟩
      obtain ⟨hy, -, -, -, hw, -⟩ := (h.co x hx).wait y hat
      exact hw fun hdead => hret ((h.returned_iff (Or.inr hy)).mpr hdead)
  · rintro x y hx ⟨hat, -⟩
    exact ((h.co x hx).wait y hat).2.2.1
  · intro e s' x y hx hs hw hn
    obtain ⟨hpc, rfl, hdead, rfl⟩ := h.leave_wait hs hx hw hn
    obtain ⟨hy, -⟩ := (h.co _ hx).wait y hw
    have hyl : Live s y := Or.inr hy
    have halloc : (coWaitLoop s y).allocated = s.allocated.erase y := by
      rw [coWaitLoop_of_dead hdead]
    refine ⟨(h.returned_iff hyl).mpr hdead, rfl, by rw [coWaitLoop_of_dead hdead],
      by simp [State.status, reap_obj hdead], halloc, ?_,
      reap_pool (inPool_of_live hr y hyl) hdead⟩
    rw [halloc]
    exact fun hm => (h.nodup.mem_erase_iff.mp hm).1 rfl
  · intro e s' y w hy hs hn hret hw
    obtain ⟨hpc, rfl, rfl⟩ := h.return_step hs hy hn hret
    obtain ⟨-, hl, -⟩ := h.waiter_of_user (by simp [State.at, hpc]) hw
    refine ⟨by simp [State.status, coExit_obj, hw], ?_⟩
    rw [InPool, (coExit_fields s).2.1]
    exact inPool_of_live hr w hl

/-- `main` waits for the coroutine it has started, and then its wait ends. -/
theorem wakeUp_waitRun : WakeUp waitEntered ∧ InWait waitEntered coMain 1 ∧
    WakeUp waitResumed ∧ InWait waitResumed coMain 1 ∧
    WakeUp (coWaitLoop waitResumed 1) ∧ ¬ InWait (coWaitLoop waitResumed 1) coMain 1 :=
  ⟨wakeUp_of_reachable waitEntered_reachable, rfl,
    wakeUp_of_reachable waitResumed_reachable, rfl,
    wakeUp_of_reachable (waitResumed_reachable.step ⟨.test rfl, trivial⟩), by
      unfold InWait
      decide⟩

end MyOs.Libco
