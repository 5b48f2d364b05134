import MyOs.Libco.Pool
import Mathlib.Tactic.FinCases

/-!
# libco — the scheduler

`fd_next` is a cyclic scan of `POOL` from the persistent `id`.

* `fdNext_terminates` — in every run within capacity whose waits-for relation
  stays acyclic, the scan finds a runnable coroutine within `MAXCO` iterations.
  The argument follows the waits-for relation from `main`: it ends, and it ends
  at a coroutine that is neither waiting nor dead.
* `resumptions_alternate` — two coroutines that stay in `POOL` and are runnable
  at every scheduling decision of an interval are resumed alternately in it.
-/

namespace MyOs.Libco

open MyOs.Transition MyOs.CyclicScan

/-! ## Termination of `fd_next` -/

/-- The states of the runs within capacity whose waits-for relation stays acyclic. -/
abbrev ReachableAcyclic : State → Prop :=
  Reach (fun s => s = State.start)
    (Restrict Step fun s e s' => Room s e ∧ Acyclic (WaitsFor s'))

theorem acyclic_start : Acyclic (WaitsFor State.start) := by
  intro x hx
  obtain ⟨y, hxy, -⟩ := Relation.TransGen.head'_iff.mp hx
  have hat := hxy.1
  simp only [InWait, State.at, State.start] at hat
  by_cases hm : x = coMain <;> simp [hm] at hat

theorem acyclic_of_reachable {s : State} (h : ReachableAcyclic s) : Acyclic (WaitsFor s) := by
  cases h with
  | init h0 => exact h0 ▸ acyclic_start
  | step _ hs => exact hs.2.2

theorem within_of_reachableAcyclic {s : State} (h : ReachableAcyclic s) : ReachableWithin s :=
  h.mono fun _ _ _ hs => ⟨hs.1, hs.2.1⟩

/-- What waits, waits for a live coroutine, and it is itself live. -/
theorem Inv.live_of_waitsFor {s : State} (h : Inv s) {x y : Handle} (hx : Live s x)
    (hw : WaitsFor s x y) : Live s y :=
  Or.inr ((h.co x hx).wait y hw.1).1

/-- At a call of `co_yield`, a live coroutine that waits for nobody is runnable,
unless it is dead. -/
theorem Inv.runnable_of_terminal {s : State} {k : Cont} (h : Inv s) (hpc : s.pc = .coYield k)
    {c : Handle} (hc : Live s c) (hterm : ∀ y, ¬ WaitsFor s c y) (hdead : ¬ Returned s c) :
    s.status c = .running ∨ s.status c = .new := by
  have hco := h.co c hc
  cases hat : s.at c with
  | none => exact Or.inr (hco.fresh hat).1
  | some k' =>
    cases k' with
    | user => exact Or.inl (hco.user hat)
    | exit => exact absurd hat hdead
    | coWait y =>
      -- it has yielded inside `co_wait(y)`, and `y` is dead: it has been woken up
      obtain ⟨hy, -, -, -, -, hrun⟩ := hco.wait y hat
      have hret : Returned s y := by
        by_contra hn
        exact hterm y ⟨hat, hn⟩
      exact Or.inl (hrun (fun _ => ⟨k, hpc⟩) ((h.returned_iff (Or.inr hy)).mp hret))

/-- **Some slot is runnable.** The waits-for relation leads from `main` to a
coroutine that waits for nobody and has not returned. -/
theorem Inv.exists_schedulable {s : State} {k : Cont} (h : Inv s) (hpc : s.pc = .coYield k)
    (hin : ∀ c, Live s c → InPool s c) (hac : Acyclic (WaitsFor s)) :
    ∃ i < maxCo, schedulable s i = true := by
  let R : Handle → Handle → Prop := fun x y => Live s x ∧ WaitsFor s x y
  have hR : Acyclic R := fun x hx =>
    hac x (hx.lift id fun _ _ hr => hr.2)
  obtain ⟨z, hz, hterm⟩ := exists_terminal hR (S := {y | Live s y})
    ((liveSet s).finite_toSet.subset fun y hy => mem_liveSet.mpr hy)
    (fun x y hr => h.live_of_waitsFor hr.1 hr.2) coMain
  -- the end of the chain is live and has not returned: `main` never returns, and
  -- every other element is waited for by its predecessor
  have hend : Live s z ∧ ¬ Returned s z := by
    rcases Relation.ReflTransGen.cases_tail hz with hz | ⟨y, -, hyz⟩
    · rw [hz]
      refine ⟨h.live_main, fun hr => ?_⟩
      exact ((h.co _ h.live_main).exit hr).2 rfl
    · exact ⟨h.live_of_waitsFor hyz.1 hyz.2, hyz.2.2⟩
  obtain ⟨i, hi, hp⟩ := hin z hend.1
  refine ⟨i, hi, (schedulable_iff hp).mpr ?_⟩
  exact h.runnable_of_terminal hpc hend.1 (fun y hy => hterm y ⟨hend.1, hy⟩) hend.2

/-- **`fd_next` never hangs.** At every call of `fd_next` some slot is runnable,
and the loop stops within `MAXCO` iterations at the first runnable slot behind
the old `id` in cyclic order, whatever further fuel it is given. -/
theorem fdNext_terminates {s : State} {k : Cont} (hr : ReachableAcyclic s)
    (hpc : s.pc = .coYield k) :
    (∃ i < maxCo, schedulable (setjmp s k) i = true) ∧
    ∃ i, First maxCo (fun j => schedulable (setjmp s k) j = true) s.id i ∧
      ∀ fuel, maxCo ≤ fuel → fdNext (setjmp s k) fuel = some i := by
  have hw := within_of_reachableAcyclic hr
  have h := inv_of_reachableWithin hw
  obtain ⟨i, hi, hs⟩ := h.exists_schedulable hpc (inPool_of_live hw) (acyclic_of_reachable hr)
  rw [setjmp_schedulable]
  refine ⟨⟨i, hi, hs⟩, ?_⟩
  obtain ⟨n, hn1, hn, rfl⟩ := exists_advance h.id_lt hi
  obtain ⟨j, hj⟩ := scan_isSome (p := schedulable s) hn1 hn hs
  refine ⟨j, scan_first h.id_lt hj, fun fuel hfuel => ?_⟩
  rw [fdNext, setjmp_schedulable]
  exact scan_mono hfuel hj

/-- `main` yields with one new coroutine in the table. -/
theorem fdNext_terminates_startMany_one :
    ∃ i, First maxCo (fun j => schedulable
        (setjmp { startMany 1 with pc := .coYield .user } .user) j = true) 0 i ∧
      ∀ fuel, maxCo ≤ fuel →
        fdNext (setjmp { startMany 1 with pc := .coYield .user } .user) fuel = some i := by
  have hnone : ∀ s : State, (∀ x y, ¬ InWait s x y) → Acyclic (WaitsFor s) := by
    intro s hs x hx
    obtain ⟨y, hxy, -⟩ := Relation.TransGen.head'_iff.mp hx
    exact hs x y hxy.1
  have hwait : ∀ x y, ¬ InWait (startMany 1) x y := by
    intro x y
    simp only [InWait, State.at, startMany, coStart, setSlot_current, setSlot_pc, setSlot_obj,
      modify_current, modify_pc, modify_obj, State.start]
    split
    · simp
    · split <;> simp
  have hwait' : ∀ x y, ¬ InWait { startMany 1 with pc := .coYield .user } x y := by
    intro x y
    have := hwait x y
    simp only [InWait, State.at] at this ⊢
    split
    · simp
    · rename_i hx
      rw [if_neg hx] at this
      exact this
  have hr : ReachableAcyclic { startMany 1 with pc := .coYield .user } :=
    .step (.step (.init rfl) ⟨.start rfl (Nat.succ_ne_zero 0) (List.not_mem_nil),
      by simp [Room, State.start, maxCo], hnone _ hwait⟩) ⟨.yield rfl, trivial, hnone _ hwait'⟩
  exact (fdNext_terminates hr rfl).2

/-! ## Round robin -/

/-- The coroutines that the scheduling decisions of a run resume or enter. -/
def resumed (tr : List (State × Event)) : List Handle :=
  tr.filterMap fun x => match x.2 with
    | .switch c => some c
    | _ => none

/-- `c` is runnable: `fd_next` would stop at its slot. -/
def Runnable (s : State) (c : Handle) : Prop := s.status c = .running ∨ s.status c = .new

/-- The scans of a run: the slots of two coroutines that stay in the table do
not move, and the stops at these slots are the resumptions of the two. -/
theorem scans_of_run {s s' : State} {tr : List (State × Event)} (hrun : Run Step s tr s')
    {c d : Handle} {i j : Nat} (hi : i < maxCo) (hj : j < maxCo) (hinv : Inv s)
    (hc : s.pool i = some c) (hd : s.pool j = some d)
    (hstay : ∀ x ∈ tr, InPool x.1 c ∧ InPool x.1 d) (hend : InPool s' c ∧ InPool s' d)
    (hrunnable : ∀ x ∈ tr, ∀ e, x.2 = .switch e → Runnable x.1 c ∧ Runnable x.1 d) :
    ∃ l, Scans maxCo s.id l ∧ (∀ x ∈ l, x.1 i ∧ x.1 j) ∧
      (hits i j l).map (fun m => if m = i then c else d) =
        (resumed tr).filter fun e => e = c ∨ e = d := by
  induction hrun with
  | nil s => exact ⟨[], trivial, by simp, by simp [hits, resumed]⟩
  | cons hs hrest ih =>
    rename_i s s1 s2 e tr
    have hnext : InPool s1 c ∧ InPool s1 d := by
      cases hrest with
      | nil => exact hend
      | cons hs' hrest' => exact hstay _ (List.mem_cons_of_mem _ (List.mem_cons_self ..))
    obtain ⟨l, hl, hpass, hmap⟩ := ih (hinv.step hs) (hinv.slot_stable hs hi hc hnext.1)
      (hinv.slot_stable hs hj hd hnext.2) (fun x hx => hstay x (List.mem_cons_of_mem _ hx)) hend
      (fun x hx => hrunnable x (List.mem_cons_of_mem _ hx))
    by_cases hsw : ∃ f, e = .switch f
    · -- a scheduling decision: one more scan
      obtain ⟨f, rfl⟩ := hsw
      obtain ⟨hrc, hrd⟩ := hrunnable _ (List.mem_cons_self ..) f rfl
      cases hs with
      | switch hpc hfd hp =>
        rename_i k fuel m
        obtain ⟨hm, hlive, hst⟩ := hinv.switch_target hfd hp
        obtain ⟨-, -, -, hid, -⟩ := hinv.switch_spec hpc hp hlive hst
        rw [hid] at hl
        refine ⟨((fun n => schedulable s n = true), m) :: l, ⟨?_, hl⟩, ?_, ?_⟩
        · rw [fdNext, setjmp_schedulable] at hfd
          exact scan_first hinv.id_lt hfd
        · intro x hx
          rcases List.mem_cons.mp hx with rfl | hx
          · exact ⟨(schedulable_iff hc).mpr hrc, (schedulable_iff hd).mpr hrd⟩
          · exact hpass x hx
        · have hmi : m = i ↔ f = c := by
            constructor
            · rintro rfl
              exact Option.some.inj (hp.symm.trans hc)
            · rintro rfl
              exact hinv.pool_inj m hm i hi f hp hc
          have hmj : m = j ↔ f = d := by
            constructor
            · rintro rfl
              exact Option.some.inj (hp.symm.trans hd)
            · rintro rfl
              exact hinv.pool_inj m hm j hj f hp hd
          have hres : resumed ((s, Event.switch f) :: tr) = f :: resumed tr := rfl
          rw [hits_cons, hres, List.filter_cons]
          by_cases hfc : f = c
          · simp [hmi.mpr hfc, hfc, hmap]
          · by_cases hfd' : f = d
            · have hne : j ≠ i := by
                rintro rfl
                exact hfc (hfd'.trans (Option.some.inj (hd.symm.trans hc)))
              simp [hmj.mpr hfd', hne, hfd', hmap]
            · have h1 : ¬ (m = i ∨ m = j) := by
                rw [hmi, hmj]
                tauto
              simp [h1, hfc, hfd', hmap]
    · -- any other step leaves `id` alone
      have hid : s1.id = s.id := by
        cases hs with
        | start => simp [coStart]
        | yield => rfl
        | wait => rfl
        | ret => exact (coExit_fields s).2.2.2.1
        | test =>
          rename_i co hpc
          by_cases hdead : s.status co = .dead
          · rw [coWaitLoop_of_dead hdead]
            simp
          · rw [coWaitLoop, if_pos hdead]
        | switch => exact absurd ⟨_, rfl⟩ hsw
      have hres : resumed ((s, e) :: tr) = resumed tr := by
        cases e with
        | switch f => exact absurd ⟨f, rfl⟩ hsw
        | _ => rfl
      exact ⟨l, hid ▸ hl, hpass, by rw [hres]; exact hmap⟩

/-- **Strict round robin.** In an interval of a run in which two coroutines stay
in `POOL` and are runnable at every scheduling decision, `fd_next` resumes them
alternately. -/
theorem resumptions_alternate {s s' : State} {tr : List (State × Event)} {c d : Handle}
    (hr : Reachable s) (hrun : Run Step s tr s') (hne : c ≠ d)
    (hstay : ∀ x ∈ tr, InPool x.1 c ∧ InPool x.1 d) (hend : InPool s' c ∧ InPool s' d)
    (hrunnable : ∀ x ∈ tr, ∀ e, x.2 = .switch e → Runnable x.1 c ∧ Runnable x.1 d) :
    List.IsChain (· ≠ ·) ((resumed tr).filter fun e => e = c ∨ e = d) := by
  have hinv := inv_of_reachable hr
  have hstart : InPool s c ∧ InPool s d := by
    cases hrun with
    | nil => exact hend
    | cons hs hrest => exact hstay _ (List.mem_cons_self ..)
  obtain ⟨⟨i, hi, hc⟩, ⟨j, hj, hd⟩⟩ := hstart
  have hij : i ≠ j := by
    rintro rfl
    exact hne (Option.some.inj (hc.symm.trans hd))
  obtain ⟨l, hl, hpass, hmap⟩ := scans_of_run hrun hi hj hinv hc hd hstay hend hrunnable
  have halt := Scans.alternates hi hj hij hl hpass
  rw [← hmap, List.isChain_map]
  -- the two slots name different coroutines, so alternation carries over
  refine halt.imp_of_mem_imp fun m n hm hn hmn => ?_
  have hmem : ∀ m ∈ hits i j l, m = i ∨ m = j := by
    intro m hm
    simpa using (List.mem_filter.mp hm).2
  rcases hmem m hm with rfl | rfl <;> rcases hmem n hn with rfl | rfl
  · exact absurd rfl hmn
  · simpa [Ne.symm hmn] using hne
  · simpa [hmn] using hne.symm
  · exact absurd rfl hmn

/-- `main` and one coroutine yield to each other once. -/
theorem resumptions_alternate_yields :
    let s₁ := startMany 1
    let y₁ : State := { s₁ with pc := .coYield .user }
    let s₂ := coSwitch (setjmp y₁ .user) .user 1
    let y₂ : State := { s₂ with pc := .coYield .user }
    List.IsChain (· ≠ ·) ((resumed [(s₁, .yield), (y₁, .switch 1), (s₂, .yield),
      (y₂, .switch coMain)]).filter fun e => e = coMain ∨ e = 1) := by
  intro s₁ y₁ s₂ y₂
  have hpool : ∀ i, s₁.pool i = if i = 1 then some 1 else if i = 0 then some coMain else none := by
    intro i
    have hf : State.start.findSlot none = some 1 := by decide
    simp only [s₁, startMany, coStart_pool, hf, Option.some.injEq, eq_comm (a := 1)]
    rfl
  have hboth : ∀ s : State, s.pool = s₁.pool → InPool s coMain ∧ InPool s 1 := fun s hs =>
    ⟨⟨0, by decide, by rw [hs, hpool]; rfl⟩, ⟨1, by decide, by rw [hs, hpool]; rfl⟩⟩
  have hswitch₁ : Step y₁ (.switch 1) s₂ :=
    .switch rfl (show fdNext (setjmp y₁ .user) 1 = some 1 by decide) (by decide)
  have hswitch₂ : Step y₂ (.switch coMain) (coSwitch (setjmp y₂ .user) .user 0) :=
    .switch rfl (show fdNext (setjmp y₂ .user) maxCo = some 0 by decide +kernel) (by decide)
  refine resumptions_alternate (startMany_spec 1).1
    (.cons (.yield rfl) (.cons hswitch₁ (.cons (.yield rfl) (.cons hswitch₂ (.nil _))))) (by decide)
    ?_ (hboth _ rfl) ?_
  · intro x hx
    fin_cases hx <;> exact hboth _ rfl
  · intro x hx e he
    fin_cases hx
    · simp at he
    · exact ⟨Or.inl (by decide), Or.inr (by decide)⟩
    · simp at he
    · exact ⟨Or.inl (by decide), Or.inl (by decide)⟩

end MyOs.Libco
