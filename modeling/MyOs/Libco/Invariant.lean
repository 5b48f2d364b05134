import MyOs.Libco.Definitions
import Mathlib.Tactic.Common

/-!
# libco — the invariant of every run

`Inv` ties the three globals of `co.c` to the per-coroutine data: `POOL` holds
live coroutines, each at most once, `main` in slot 0 and the current one in slot
`id`; the status of each live coroutine is the one its continuation calls for
(`CoInv`); and a coroutine is recorded as a waiter exactly while it is inside
the corresponding `co_wait`. `Inv` is kept by every step, with no bound on the
number of coroutines.
-/

namespace MyOs.Libco

open MyOs.Transition MyOs.CyclicScan

/-! ## Reading through the updates -/

section Updates

variable (s : State) (c d : Handle) (f : Co → Co)

@[simp] theorem modify_obj :
    (s.modify c f).obj d = if d = c then f (s.obj c) else s.obj d := by
  simp only [State.modify, Function.update_apply]

@[simp] theorem modify_allocated : (s.modify c f).allocated = s.allocated := rfl
@[simp] theorem modify_pool : (s.modify c f).pool = s.pool := rfl
@[simp] theorem modify_current : (s.modify c f).current = s.current := rfl
@[simp] theorem modify_id : (s.modify c f).id = s.id := rfl
@[simp] theorem modify_pc : (s.modify c f).pc = s.pc := rfl

variable (v : CoStatus)

@[simp] theorem setStatus_obj :
    (s.setStatus c v).obj d = if d = c then { s.obj c with status := v } else s.obj d :=
  modify_obj ..

@[simp] theorem setStatus_allocated : (s.setStatus c v).allocated = s.allocated := rfl
@[simp] theorem setStatus_pool : (s.setStatus c v).pool = s.pool := rfl
@[simp] theorem setStatus_current : (s.setStatus c v).current = s.current := rfl
@[simp] theorem setStatus_id : (s.setStatus c v).id = s.id := rfl
@[simp] theorem setStatus_pc : (s.setStatus c v).pc = s.pc := rfl

end Updates

section Slots

variable (s : State) (i : Option Nat) (v : Option Handle)

@[simp] theorem setSlot_obj : (s.setSlot i v).obj = s.obj := by cases i <;> rfl
@[simp] theorem setSlot_allocated : (s.setSlot i v).allocated = s.allocated := by cases i <;> rfl
@[simp] theorem setSlot_current : (s.setSlot i v).current = s.current := by cases i <;> rfl
@[simp] theorem setSlot_id : (s.setSlot i v).id = s.id := by cases i <;> rfl
@[simp] theorem setSlot_pc : (s.setSlot i v).pc = s.pc := by cases i <;> rfl

theorem setSlot_pool (j : Nat) :
    (s.setSlot i v).pool j = if i = some j then v else s.pool j := by
  cases i with
  | none => simp [State.setSlot]
  | some i => simp [State.setSlot, Function.update_apply, eq_comm]

end Slots

/-- A search loop over `POOL` stops at a slot that holds what it looks for. -/
theorem findSlot_eq_some {s : State} {v : Option Handle} {i : Nat}
    (h : s.findSlot v = some i) : i < maxCo ∧ s.pool i = v := by
  have hmem := List.mem_of_find?_eq_some h
  have hp := List.find?_some h
  exact ⟨List.mem_range.mp hmem, of_decide_eq_true hp⟩

/-- It runs to the end only when no slot holds it. -/
theorem findSlot_eq_none {s : State} {v : Option Handle} (h : s.findSlot v = none) :
    ∀ i < maxCo, s.pool i ≠ v := by
  intro i hi heq
  have := List.find?_eq_none.mp h i (List.mem_range.mpr hi)
  exact this (decide_eq_true heq)

/-! ## What each operation changes -/

theorem coStart_obj {s : State} {c d : Handle} (hd : d ≠ c) : (coStart s c).obj d = s.obj d := by
  simp [coStart, hd]

theorem coStart_allocated (s : State) (c : Handle) :
    (coStart s c).allocated = c :: s.allocated := by
  simp [coStart]

theorem coWait_obj (s : State) (co d : Handle) : (coWait s co).obj d =
    { s.obj d with
      status := if d = s.current then .waiting else (s.obj d).status
      waiter := if d = co then some s.current else (s.obj d).waiter } := by
  by_cases hd : d = s.current
  · subst hd
    by_cases hdc : s.current = co
    · subst hdc
      simp [coWait]
    · simp [coWait, hdc]
  · by_cases hdc : d = co
    · subst hdc
      simp [coWait, hd]
    · simp [coWait, hd, hdc]

/-- `co_wait` behind its loop, as one update. -/
theorem coWaitLoop_of_dead {s : State} {co : Handle} (hdead : s.status co = .dead) :
    coWaitLoop s co =
      { ((s.setSlot (s.findSlot (some co)) none).setStatus s.current .running) with
        allocated := s.allocated.erase co
        pc := .run .user } := by
  simp only [coWaitLoop, hdead, ne_eq, not_true_eq_false, if_false]
  simp [State.setStatus, State.modify]

theorem coExit_obj (s : State) (d : Handle) : (coExit s).obj d =
    { s.obj d with
      status := if (s.obj s.current).waiter = some d then .running
        else if d = s.current then .dead else (s.obj d).status } := by
  cases hwait : (s.obj s.current).waiter with
  | none =>
    by_cases hd : d = s.current
    · subst hd
      simp [coExit, hwait]
    · simp [coExit, hwait, hd]
  | some w =>
    by_cases hdw : d = w
    · subst hdw
      by_cases hd : d = s.current
      · subst hd
        simp [coExit, hwait]
      · simp [coExit, hwait, hd]
    · by_cases hd : d = s.current
      · subst hd
        simp [coExit, hwait, hdw, Ne.symm hdw]
      · simp [coExit, hwait, hd, hdw, Ne.symm hdw]

theorem coExit_fields (s : State) : (coExit s).allocated = s.allocated ∧
    (coExit s).pool = s.pool ∧ (coExit s).current = s.current ∧ (coExit s).id = s.id ∧
    (coExit s).pc = .coYield .exit := by
  cases hwait : (s.obj s.current).waiter <;> simp [coExit, hwait]

theorem coStart_at {s : State} {c d : Handle} (hd : d ≠ c) : (coStart s c).at d = s.at d := by
  simp [State.at, coStart, hd]

theorem coWait_at {s : State} {co d : Handle} (hd : d ≠ s.current) :
    (coWait s co).at d = s.at d := by
  have hcur : (coWait s co).current = s.current := rfl
  simp only [State.at, hcur, if_neg hd, coWait_obj]

theorem reap_obj {s : State} {co : Handle} (hdead : s.status co = .dead) (d : Handle) :
    (coWaitLoop s co).obj d =
      { s.obj d with status := if d = s.current then .running else (s.obj d).status } := by
  rw [coWaitLoop_of_dead hdead]
  by_cases hd : d = s.current
  · subst hd
    simp
  · simp [hd]

theorem reap_at {s : State} {co d : Handle} (hdead : s.status co = .dead) (hd : d ≠ s.current) :
    (coWaitLoop s co).at d = s.at d := by
  have hcur : (coWaitLoop s co).current = s.current := by rw [coWaitLoop_of_dead hdead]; simp
  simp only [State.at, hcur, if_neg hd, reap_obj hdead]

theorem coExit_at {s : State} {d : Handle} (hd : d ≠ s.current) : (coExit s).at d = s.at d := by
  simp only [State.at, (coExit_fields s).2.2.1, if_neg hd, coExit_obj]

/-! ## The invariant -/

/-- What a live coroutine's continuation says about its object. -/
structure CoInv (s : State) (c : Handle) : Prop where
  fresh : s.at c = none → (s.obj c).status = .new ∧ (s.obj c).entered = 0
  saved : ∀ k, s.at c = some k →
    (s.obj c).entered = 1 ∧ (c ≠ s.current → (s.obj c).context = some k)
  user : s.at c = some .user → (s.obj c).status = .running
  exit : s.at c = some .exit → (s.obj c).status = .dead ∧ c ≠ coMain
  wait : ∀ y, s.at c = some (.coWait y) →
    y ∈ s.allocated ∧ y ≠ c ∧ (s.obj y).waiter = some c ∧
    ((s.obj c).status = .waiting ∨ (s.obj c).status = .running) ∧
    ((s.obj y).status ≠ .dead → (s.obj c).status = .waiting) ∧
    (Yielded s c → (s.obj y).status = .dead → (s.obj c).status = .running)

structure Inv (s : State) : Prop where
  nodup : s.allocated.Nodup
  main_fresh : coMain ∉ s.allocated
  pool_live : ∀ i < maxCo, ∀ c, s.pool i = some c → Live s c
  pool_inj : ∀ i < maxCo, ∀ j < maxCo, ∀ c, s.pool i = some c → s.pool j = some c → i = j
  pool_main : s.pool 0 = some coMain
  id_lt : s.id < maxCo
  id_current : s.pool s.id = some s.current
  control : s.pc ≠ .lost ∧ s.pc ≠ .run .exit
  testing : ∀ y, s.pc = .coYield (.coWait y) → (s.obj y).status ≠ .dead
  co : ∀ c, Live s c → CoInv s c
  waiter : ∀ y, Live s y → ∀ x, (s.obj y).waiter = some x → s.at x = some (.coWait y) ∧ Live s x

namespace Inv

variable {s : State}

theorem current_live (h : Inv s) : Live s s.current := h.pool_live _ h.id_lt _ h.id_current

theorem live_main (_ : Inv s) : Live s coMain := Or.inl rfl

/-- A function has returned exactly when its coroutine is dead. -/
theorem returned_iff (h : Inv s) {y : Handle} (hy : Live s y) :
    Returned s y ↔ s.status y = .dead := by
  have hco := h.co y hy
  refine ⟨fun hr => (hco.exit hr).1, fun hdead => ?_⟩
  have hdead : (s.obj y).status = .dead := hdead
  cases hat : s.at y with
  | none => simp [(hco.fresh hat).1] at hdead
  | some k =>
    cases k with
    | user => simp [hco.user hat] at hdead
    | coWait z =>
      obtain ⟨-, -, -, hst, -, -⟩ := hco.wait z hat
      rcases hst with hst | hst <;> simp [hst] at hdead
    | exit => exact hat

end Inv

theorem inv_start : Inv State.start := by
  have hat : State.start.at coMain = some .user := by simp [State.at, State.start]
  have hlive : ∀ c, Live State.start c → c = coMain := by
    rintro c (rfl | hc)
    · rfl
    · simp [State.start] at hc
  have hpool : ∀ i c, State.start.pool i = some c → i = 0 ∧ c = coMain := by
    intro i c h
    simp only [State.start] at h
    split at h
    · exact ⟨by assumption, (Option.some.inj h).symm⟩
    · simp at h
  refine ⟨List.nodup_nil, by simp [State.start], ?_, ?_, rfl, by decide, rfl, ?_, ?_, ?_, ?_⟩
  · intro i _ c h
    exact Or.inl (hpool i c h).2
  · intro i _ j _ c hi hj
    rw [(hpool i c hi).1, (hpool j c hj).1]
  · simp [State.start]
  · simp [State.start]
  · intro c hc
    obtain rfl := hlive c hc
    constructor <;> simp [hat] <;> simp [State.start]
  · intro y _ x hx
    simp [State.start] at hx

/-! ## Every step keeps the invariant -/

/-- The control point moves while every continuation stays what it was. -/
theorem Inv.of_pc {s : State} {k : Cont} (h : Inv s) (hk : s.at s.current = some k)
    (hcur : ∀ y, k = .coWait y → (s.obj y).status ≠ .dead) :
    Inv { s with pc := .coYield k } := by
  have hat : ∀ c, State.at { s with pc := .coYield k } c = s.at c := by
    intro c
    by_cases hc : c = s.current
    · subst hc
      rw [hk]
      simp [State.at]
    · simp [State.at, hc]
  refine { h with control := by simp, testing := ?_, co := ?_, waiter := ?_ }
  · intro y hy
    exact hcur y (by simpa using hy)
  · intro c hc
    have hco := h.co c hc
    refine ⟨hat c ▸ hco.fresh, hat c ▸ hco.saved, hat c ▸ hco.user, hat c ▸ hco.exit, ?_⟩
    intro y hy
    rw [hat c] at hy
    obtain ⟨h1, h2, h3, h4, h5, h6⟩ := hco.wait y hy
    refine ⟨h1, h2, h3, h4, h5, fun _ hdead => ?_⟩
    by_cases hcc : c = s.current
    · subst hcc
      rw [hk] at hy
      exact absurd hdead (hcur y (Option.some.inj hy))
    · exact h6 (fun h => absurd h hcc) hdead
  · intro y hy x hx
    rw [hat x]
    exact h.waiter y hy x hx

theorem inv_yield {s : State} (h : Inv s) (hpc : s.pc = .run .user) :
    Inv { s with pc := .coYield .user } :=
  h.of_pc (by simp [State.at, hpc]) (by simp)

theorem inv_coStart {s : State} {c : Handle} (h : Inv s) (hpc : s.pc = .run .user)
    (hmain : c ≠ coMain) (hfresh : c ∉ s.allocated) : Inv (coStart s c) := by
  have hnl : ¬ Live s c := by
    rintro (h | h)
    · exact hmain h
    · exact hfresh h
  have hcur : s.current ≠ c := by
    rintro rfl
    exact hnl h.current_live
  -- the slot found was empty, so it is neither slot 0 nor slot `id`
  have hslot : ∀ i d, s.pool i = some d → (coStart s c).pool i = some d := by
    intro i d hd
    simp only [coStart, setSlot_pool]
    split
    · rename_i hi
      have := (findSlot_eq_some hi).2
      simp only [modify_pool] at this
      rw [hd] at this
      simp at this
    · exact hd
  have hslot' : ∀ i d, (coStart s c).pool i = some d → s.pool i = some d ∨ d = c := by
    intro i d hd
    simp only [coStart, setSlot_pool] at hd
    split at hd
    · exact Or.inr (Option.some.inj hd).symm
    · exact Or.inl hd
  have hobj : ∀ d, d ≠ c → (coStart s c).obj d = s.obj d := fun d hd => coStart_obj hd
  have hat : ∀ d, d ≠ c → (coStart s c).at d = s.at d := fun d hd => coStart_at hd
  have halloc := coStart_allocated s c
  have hlive : ∀ d, Live (coStart s c) d ↔ Live s d ∨ d = c := by
    intro d
    simp only [Live, halloc, List.mem_cons]
    tauto
  have hatc : (coStart s c).at c = none := by
    simp [State.at, coStart, Ne.symm hcur]
  refine ⟨?_, ?_, ?_, ?_, hslot _ _ h.pool_main,
    by simpa [coStart] using h.id_lt, ?_, ?_, ?_, ?_, ?_⟩
  · rw [halloc]
    exact List.nodup_cons.mpr ⟨hfresh, h.nodup⟩
  · rw [halloc, List.mem_cons]
    rintro (heq | hmem)
    · exact hmain heq.symm
    · exact h.main_fresh hmem
  · intro i hi d hd
    rw [hlive]
    rcases hslot' i d hd with hd | rfl
    · exact Or.inl (h.pool_live i hi d hd)
    · exact Or.inr rfl
  · -- the new entry is the only one that holds `c`
    intro i hi j hj d hdi hdj
    simp only [coStart, setSlot_pool] at hdi hdj
    split at hdi <;> split at hdj
    · rename_i h1 h2
      exact Option.some.inj (h1.symm.trans h2)
    · obtain rfl := Option.some.inj hdi
      exact absurd (h.pool_live j hj _ hdj) hnl
    · obtain rfl := Option.some.inj hdj
      exact absurd (h.pool_live i hi _ hdi) hnl
    · exact h.pool_inj i hi j hj d hdi hdj
  · have := hslot _ _ h.id_current
    simpa [coStart] using this
  · simpa [coStart] using h.control
  · intro y hy
    simp [coStart, hpc] at hy
  · intro d hd
    rcases (hlive d).mp hd with hld | rfl
    · have hdc : d ≠ c := by
        rintro rfl
        exact hnl hld
      have hco := h.co d hld
      refine ⟨?_, ?_, ?_, ?_, ?_⟩ <;> rw [hat d hdc, hobj d hdc]
      · exact hco.fresh
      · simpa [coStart] using hco.saved
      · exact hco.user
      · exact hco.exit
      · intro y hy
        obtain ⟨h1, h2, h3, h4, h5, h6⟩ := hco.wait y hy
        have hyc : y ≠ c := by
          rintro rfl
          exact hfresh h1
        rw [hobj y hyc, halloc]
        refine ⟨List.mem_cons_of_mem _ h1, h2, h3, h4, h5, ?_⟩
        simpa [Yielded, coStart] using h6
    · refine ⟨fun _ => by simp [coStart], ?_, ?_, ?_, ?_⟩ <;> simp [hatc]
  · intro y hy x hx
    rcases (hlive y).mp hy with hly | rfl
    · have hyc : y ≠ c := by
        rintro rfl
        exact hnl hly
      rw [hobj y hyc] at hx
      obtain ⟨hxat, hxl⟩ := h.waiter y hly x hx
      have hxc : x ≠ c := by
        rintro rfl
        exact hnl hxl
      exact ⟨by rw [hat x hxc]; exact hxat, (hlive x).mpr (Or.inl hxl)⟩
    · simp [coStart] at hx

/-- No live coroutine is recorded as waited for by one that runs its own code. -/
theorem Inv.no_waiter_of_user {s : State} (h : Inv s) {x : Handle} (hx : s.at x = some .user)
    {y : Handle} (hy : Live s y) : (s.obj y).waiter ≠ some x := by
  intro hw
  have := (h.waiter y hy x hw).1
  rw [hx] at this
  simp at this

theorem inv_coWait {s : State} {co : Handle} (h : Inv s) (hpc : s.pc = .run .user)
    (hco : co ∈ s.allocated) (hne : co ≠ s.current) (hw : (s.obj co).waiter = none) :
    Inv (coWait s co) := by
  have hatcur : s.at s.current = some .user := by simp [State.at, hpc]
  have hrun : (s.obj s.current).status = .running := (h.co _ h.current_live).user hatcur
  have hobj := coWait_obj s co
  have hatc : (coWait s co).at s.current = some (.coWait co) := by simp [State.at, coWait]
  have hat : ∀ d, d ≠ s.current → (coWait s co).at d = s.at d := fun d hd => coWait_at hd
  have hlive : ∀ d, Live (coWait s co) d ↔ Live s d := fun d => Iff.rfl
  have hdead : ∀ d, Live s d →
      (((coWait s co).obj d).status = .dead ↔ (s.obj d).status = .dead) := by
    intro d _
    rw [hobj]
    by_cases hd : d = s.current
    · subst hd
      simp [hrun]
    · simp [hd]
  refine ⟨h.nodup, h.main_fresh, h.pool_live, h.pool_inj, h.pool_main, h.id_lt, h.id_current,
    by simp [coWait], by simp [coWait], ?_, ?_⟩
  · intro d hd
    by_cases hdc : d = s.current
    · -- the caller is now inside `co_wait(co)`
      subst hdc
      have hent := ((h.co _ hd).saved _ hatcur).1
      refine ⟨?_, ?_, ?_, ?_, ?_⟩ <;> rw [hatc]
      · simp
      · intro k _
        exact ⟨by rw [hobj]; exact hent, fun hn => absurd rfl hn⟩
      · simp
      · simp
      · intro y hy
        obtain rfl : co = y := by simpa using hy
        refine ⟨hco, hne, by simp [hobj], Or.inl (by simp [hobj]), fun _ => by simp [hobj], ?_⟩
        intro hyl
        obtain ⟨k, hk⟩ := hyl rfl
        simp [coWait] at hk
    · have hcoi := h.co d hd
      have hstat : ((coWait s co).obj d).status = (s.obj d).status := by simp [hobj, hdc]
      refine ⟨?_, ?_, ?_, ?_, ?_⟩ <;> rw [hat d hdc]
      · intro hn
        exact ⟨hstat.trans (hcoi.fresh hn).1, by rw [hobj]; exact (hcoi.fresh hn).2⟩
      · intro k hk
        have := hcoi.saved k hk
        exact ⟨by rw [hobj]; exact this.1, fun hn => by rw [hobj]; exact this.2 hn⟩
      · exact fun hu => hstat.trans (hcoi.user hu)
      · exact fun he => ⟨hstat.trans (hcoi.exit he).1, (hcoi.exit he).2⟩
      · intro y hy
        obtain ⟨h1, h2, h3, h4, h5, h6⟩ := hcoi.wait y hy
        have hyco : y ≠ co := by
          rintro rfl
          rw [hw] at h3
          simp at h3
        have hyd := hdead y (Or.inr h1)
        rw [hstat]
        refine ⟨h1, h2, by rw [hobj]; simpa [hyco] using h3, h4, fun hn => h5 (mt hyd.mpr hn), ?_⟩
        exact fun _ hd => h6 (fun h => absurd h hdc) (hyd.mp hd)
  · intro y hy x hx
    by_cases hyco : y = co
    · subst hyco
      obtain rfl : s.current = x := by simpa [hobj] using hx
      exact ⟨hatc, h.current_live⟩
    · have hx' : (s.obj y).waiter = some x := by simpa [hobj, hyco] using hx
      have hxc : x ≠ s.current := by
        rintro rfl
        exact h.no_waiter_of_user hatcur hy hx'
      obtain ⟨hxat, hxl⟩ := h.waiter y hy x hx'
      exact ⟨by rw [hat x hxc]; exact hxat, hxl⟩

/-- A coroutine in `POOL` is found by the search for it. -/
theorem findSlot_of_inPool {s : State} {c : Handle} (hc : InPool s c) :
    ∃ i, s.findSlot (some c) = some i := by
  obtain ⟨i, hi, hp⟩ := hc
  cases hf : s.findSlot (some c) with
  | some j => exact ⟨j, rfl⟩
  | none => exact absurd hp (findSlot_eq_none hf i hi)

/-- The entry of `y` is cleared and no other slot changes. -/
theorem Inv.clear_pool {s : State} (h : Inv s) (y : Handle) :
    ∀ i < maxCo, ∀ d, (s.setSlot (s.findSlot (some y)) none).pool i = some d ↔
      s.pool i = some d ∧ d ≠ y := by
  intro i hi d
  rw [setSlot_pool]
  split
  · rename_i hf
    have hy := (findSlot_eq_some hf).2
    constructor
    · intro h
      simp at h
    · rintro ⟨hd, hne⟩
      exact absurd (Option.some.inj (hd.symm.trans hy)) hne
  · rename_i hf
    refine ⟨fun hd => ⟨hd, ?_⟩, fun hd => hd.1⟩
    rintro rfl
    obtain ⟨j, hj⟩ := findSlot_of_inPool ⟨i, hi, hd⟩
    obtain ⟨hjlt, hjp⟩ := findSlot_eq_some hj
    rw [h.pool_inj i hi j hjlt d hd hjp] at hf
    exact hf hj

theorem inv_reap {s : State} {y : Handle} (h : Inv s) (hpc : s.pc = .run (.coWait y))
    (hdead : s.status y = .dead) : Inv (coWaitLoop s y) := by
  have hatcur : s.at s.current = some (.coWait y) := by simp [State.at, hpc]
  obtain ⟨hy, hne, hyw, -, -, -⟩ := (h.co _ h.current_live).wait y hatcur
  have hyl : Live s y := Or.inr hy
  -- the reaped coroutine stands behind its final yield, so it waits for nobody
  have hyexit : s.at y = some .exit := (h.returned_iff hyl).mpr hdead
  have hyne : y ≠ coMain := ((h.co y hyl).exit hyexit).2
  have heq := coWaitLoop_of_dead hdead
  have hobj := reap_obj hdead
  have hcur : (coWaitLoop s y).current = s.current := by rw [heq]; simp
  have hpc' : (coWaitLoop s y).pc = .run .user := by rw [heq]
  have halloc : (coWaitLoop s y).allocated = s.allocated.erase y := by rw [heq]
  have hpool : ∀ i < maxCo, ∀ d, (coWaitLoop s y).pool i = some d ↔ s.pool i = some d ∧ d ≠ y := by
    intro i hi d
    rw [heq]
    exact h.clear_pool y i hi d
  have hlive : ∀ d, Live (coWaitLoop s y) d ↔ Live s d ∧ d ≠ y := by
    intro d
    simp only [Live, halloc, h.nodup.mem_erase_iff]
    constructor
    · rintro (rfl | ⟨hd, hd'⟩)
      · exact ⟨Or.inl rfl, hyne.symm⟩
      · exact ⟨Or.inr hd', hd⟩
    · rintro ⟨rfl | hd, hd'⟩
      · exact Or.inl rfl
      · exact Or.inr ⟨hd', hd⟩
  have hatc : (coWaitLoop s y).at s.current = some .user := by simp [State.at, hcur, hpc']
  have hat : ∀ d, d ≠ s.current → (coWaitLoop s y).at d = s.at d := fun d hd => reap_at hdead hd
  -- nobody but the caller waits for the reaped coroutine
  have honly : ∀ d, Live s d → s.at d = some (.coWait y) → d = s.current := by
    intro d hd hdat
    have := ((h.co d hd).wait y hdat).2.2.1
    exact Option.some.inj (this.symm.trans hyw)
  have hid : (coWaitLoop s y).id = s.id := by rw [heq]; simp
  refine ⟨?_, ?_, ?_, ?_, ?_, by rw [hid]; exact h.id_lt,
    ?_, by simp [hpc'], by simp [hpc'], ?_, ?_⟩
  · rw [halloc]
    exact h.nodup.erase y
  · rw [halloc]
    exact fun hm => h.main_fresh (List.mem_of_mem_erase hm)
  · intro i hi d hd
    obtain ⟨hd, hdy⟩ := (hpool i hi d).mp hd
    exact (hlive d).mpr ⟨h.pool_live i hi d hd, hdy⟩
  · intro i hi j hj d hdi hdj
    exact h.pool_inj i hi j hj d ((hpool i hi d).mp hdi).1 ((hpool j hj d).mp hdj).1
  · exact (hpool 0 (by decide) _).mpr ⟨h.pool_main, hyne.symm⟩
  · rw [hid, hcur]
    exact (hpool _ h.id_lt _).mpr ⟨h.id_current, hne.symm⟩
  · intro d hd'
    obtain ⟨hd, hdy⟩ := (hlive d).mp hd'
    have hcoi := h.co d hd
    by_cases hdc : d = s.current
    · subst hdc
      have hent := (hcoi.saved _ hatcur).1
      refine ⟨?_, ?_, ?_, ?_, ?_⟩ <;> rw [hatc]
      · simp
      · intro k _
        exact ⟨by rw [hobj]; exact hent, fun hn => absurd hcur.symm hn⟩
      · intro _
        simp [hobj]
      · simp
      · simp
    · have hstat : ((coWaitLoop s y).obj d).status = (s.obj d).status := by simp [hobj, hdc]
      refine ⟨?_, ?_, ?_, ?_, ?_⟩ <;> rw [hat d hdc]
      · intro hn
        exact ⟨hstat.trans (hcoi.fresh hn).1, by rw [hobj]; exact (hcoi.fresh hn).2⟩
      · intro k hk
        have := hcoi.saved k hk
        exact ⟨by rw [hobj]; exact this.1, fun _ => by rw [hobj]; exact this.2 hdc⟩
      · exact fun hu => hstat.trans (hcoi.user hu)
      · exact fun he => ⟨hstat.trans (hcoi.exit he).1, (hcoi.exit he).2⟩
      · intro z hz
        obtain ⟨h1, h2, h3, h4, h5, h6⟩ := hcoi.wait z hz
        have hzy : z ≠ y := fun hzy => hdc (honly d hd (hzy ▸ hz))
        have hzd : ((coWaitLoop s y).obj z).status = .dead ↔ (s.obj z).status = .dead := by
          rw [hobj]
          by_cases hzc : z = s.current
          · subst hzc
            have hst := (hcoi.wait _ hz).2.2.2.2.1
            obtain ⟨-, -, -, hcst, -, -⟩ := (h.co _ h.current_live).wait y hatcur
            rcases hcst with hcst | hcst <;> simp [hcst]
          · simp [hzc]
        rw [hstat, halloc, hobj z]
        refine ⟨(h.nodup.mem_erase_iff).mpr ⟨hzy, h1⟩, h2, h3, h4, ?_, ?_⟩
        · rw [← hobj z]
          exact fun hn => h5 (mt hzd.mpr hn)
        · rw [← hobj z]
          exact fun _ hzd' => h6 (fun h => absurd h hdc) (hzd.mp hzd')
  · intro z hz x hx
    obtain ⟨hz, hzy⟩ := (hlive z).mp hz
    have hx' : (s.obj z).waiter = some x := by rw [hobj] at hx; exact hx
    obtain ⟨hxat, hxl⟩ := h.waiter z hz x hx'
    have hxc : x ≠ s.current := by
      rintro rfl
      rw [hatcur] at hxat
      exact hzy (by simpa using hxat.symm)
    have hxy : x ≠ y := by
      rintro rfl
      rw [hyexit] at hxat
      simp at hxat
    exact ⟨by rw [hat x hxc]; exact hxat, (hlive x).mpr ⟨hxl, hxy⟩⟩

theorem inv_coWaitLoop {s : State} {y : Handle} (h : Inv s) (hpc : s.pc = .run (.coWait y)) :
    Inv (coWaitLoop s y) := by
  by_cases hdead : s.status y = .dead
  · exact inv_reap h hpc hdead
  · rw [coWaitLoop, if_pos hdead]
    refine h.of_pc (by simp [State.at, hpc]) fun z hz => ?_
    obtain rfl : y = z := by simpa using hz
    exact hdead

/-- The waiter of a coroutine that runs its own code is another one, asleep in
`co_wait`. -/
theorem Inv.waiter_of_user {s : State} (h : Inv s) (hcur : s.at s.current = some .user)
    {w : Handle} (hw : (s.obj s.current).waiter = some w) :
    w ≠ s.current ∧ Live s w ∧ s.at w = some (.coWait s.current) ∧
      (s.obj w).status = .waiting := by
  obtain ⟨hat, hl⟩ := h.waiter _ h.current_live w hw
  have hne : w ≠ s.current := by
    rintro rfl
    rw [hcur] at hat
    simp at hat
  obtain ⟨-, -, -, -, hst, -⟩ := (h.co w hl).wait _ hat
  refine ⟨hne, hl, hat, hst ?_⟩
  rw [(h.co _ h.current_live).user hcur]
  simp

theorem inv_coExit {s : State} (h : Inv s) (hpc : s.pc = .run .user) (hmain : s.current ≠ coMain) :
    Inv (coExit s) := by
  have hatcur : s.at s.current = some .user := by simp [State.at, hpc]
  have hcurl := h.current_live
  have hw : ∀ w, (s.obj s.current).waiter = some w → _ := fun w hw => h.waiter_of_user hatcur hw
  have hnw : (s.obj s.current).waiter ≠ some s.current := fun hn => (hw _ hn).1 rfl
  have hobj := coExit_obj s
  obtain ⟨halloc, hpool, hcur, hid, hpc'⟩ := coExit_fields s
  have hlive : ∀ d, Live (coExit s) d ↔ Live s d := by simp [Live, halloc]
  have hatc : (coExit s).at s.current = some .exit := by simp [State.at, hcur, hpc']
  have hat : ∀ d, d ≠ s.current → (coExit s).at d = s.at d := fun d hd => coExit_at hd
  -- only the current coroutine dies
  have hdead : ∀ d, ((coExit s).obj d).status = .dead ↔
      (s.obj d).status = .dead ∨ d = s.current := by
    intro d
    rw [hobj]
    by_cases hd : d = s.current
    · simp [hd, hnw]
    · by_cases hdw : (s.obj s.current).waiter = some d
      · simp [hd, hdw, (hw d hdw).2.2.2]
      · simp [hd, hdw]
  refine ⟨?_, ?_, ?_, ?_, ?_, ?_, ?_, by simp [hpc'], by simp [hpc'], ?_, ?_⟩
  · rw [halloc]; exact h.nodup
  · rw [halloc]; exact h.main_fresh
  · intro i hi d hd
    rw [hpool] at hd
    exact (hlive d).mpr (h.pool_live i hi d hd)
  · rw [hpool]; exact h.pool_inj
  · rw [hpool]; exact h.pool_main
  · rw [hid]; exact h.id_lt
  · rw [hpool, hid, hcur]; exact h.id_current
  · intro d hd'
    have hd := (hlive d).mp hd'
    have hcoi := h.co d hd
    by_cases hdc : d = s.current
    · subst hdc
      have hent := (hcoi.saved _ hatcur).1
      refine ⟨?_, ?_, ?_, ?_, ?_⟩ <;> rw [hatc]
      · simp
      · intro k _
        exact ⟨by rw [hobj]; exact hent, fun hn => absurd hcur.symm hn⟩
      · simp
      · exact fun _ => ⟨by simp [hobj, hnw], hmain⟩
      · simp
    · -- another coroutine keeps its status unless it is the one woken up
      have hstat : s.at d ≠ some (.coWait s.current) →
          ((coExit s).obj d).status = (s.obj d).status := by
        intro hnw
        have : (s.obj s.current).waiter ≠ some d := fun hwd => hnw (hw d hwd).2.2.1
        simp [hobj, hdc, this]
      refine ⟨?_, ?_, ?_, ?_, ?_⟩ <;> rw [hat d hdc]
      · intro hn
        exact ⟨(hstat (by simp [hn])).trans (hcoi.fresh hn).1,
          by rw [hobj]; exact (hcoi.fresh hn).2⟩
      · intro k hk
        have := hcoi.saved k hk
        exact ⟨by rw [hobj]; exact this.1, fun _ => by rw [hobj]; exact this.2 hdc⟩
      · exact fun hu => (hstat (by simp [hu])).trans (hcoi.user hu)
      · exact fun he => ⟨(hstat (by simp [he])).trans (hcoi.exit he).1, (hcoi.exit he).2⟩
      · intro z hz
        obtain ⟨h1, h2, h3, h4, h5, h6⟩ := hcoi.wait z hz
        rw [halloc]
        refine ⟨h1, h2, by rw [hobj]; exact h3, ?_⟩
        by_cases hzc : z = s.current
        · -- `d` is the waiter of the coroutine that just died
          subst hzc
          have hrun : ((coExit s).obj d).status = .running := by simp [hobj, h3]
          have hzd := (hdead s.current).mpr (Or.inr rfl)
          exact ⟨Or.inr hrun, fun hn => absurd hzd hn, fun _ _ => hrun⟩
        · have hst := hstat (by rw [hz]; simpa using hzc)
          have hzd := hdead z
          simp only [hzc, or_false] at hzd
          rw [hst]
          exact ⟨h4, fun hn => h5 (mt hzd.mpr hn),
            fun _ hd => h6 (fun h => absurd h hdc) (hzd.mp hd)⟩
  · intro z hz x hx
    have hx' : (s.obj z).waiter = some x := by rw [hobj] at hx; exact hx
    have hxc : x ≠ s.current := by
      rintro rfl
      exact h.no_waiter_of_user hatcur ((hlive z).mp hz) hx'
    obtain ⟨hxat, hxl⟩ := h.waiter z ((hlive z).mp hz) x hx'
    exact ⟨by rw [hat x hxc]; exact hxat, (hlive x).mpr hxl⟩

/-! ### The switch -/

theorem fdNext_spec {s : State} {fuel i : Nat} (h : fdNext s fuel = some i) :
    schedulable s i = true := (scan_eq_some h).1

theorem schedulable_iff {s : State} {i : Nat} {c : Handle} (hp : s.pool i = some c) :
    schedulable s i = true ↔ s.status c = .running ∨ s.status c = .new := by
  simp [schedulable, hp]

theorem setjmp_obj (s : State) (k : Cont) (d : Handle) : (setjmp s k).obj d =
    if d = s.current then { s.obj d with context := some k, pending := some k } else s.obj d := by
  rw [setjmp, modify_obj]
  split
  · rename_i h
    rw [h]
  · rfl

@[simp] theorem setjmp_status (s : State) (k : Cont) (d : Handle) :
    (setjmp s k).status d = s.status d := by
  rw [State.status, setjmp_obj]
  split <;> rfl

@[simp] theorem setjmp_pool (s : State) (k : Cont) : (setjmp s k).pool = s.pool := rfl
@[simp] theorem setjmp_id (s : State) (k : Cont) : (setjmp s k).id = s.id := rfl

@[simp] theorem setjmp_schedulable (s : State) (k : Cont) :
    schedulable (setjmp s k) = schedulable s := by
  funext i
  simp [schedulable]

/-- The coroutine `fd_next` has chosen is live, and running or new. -/
theorem Inv.switch_target {s : State} {k : Cont} {fuel i : Nat} {c : Handle} (h : Inv s)
    (hfd : fdNext (setjmp s k) fuel = some i) (hp : s.pool i = some c) :
    i < maxCo ∧ Live s c ∧ (s.status c = .running ∨ s.status c = .new) := by
  have hi : i < maxCo := by
    obtain ⟨-, n, -, -, rfl, -⟩ := scan_eq_some hfd
    exact advance_lt (by decide) _ _
  have hs := fdNext_spec hfd
  rw [setjmp_schedulable, schedulable_iff hp] at hs
  exact ⟨hi, h.pool_live i hi c hp, hs⟩

/-- A running coroutine that is not current, or current at its `co_yield`, has
the continuation it goes on at stored in its `jmp_buf`. -/
theorem Inv.switch_context {s : State} {k : Cont} {c : Handle} (h : Inv s)
    (hpc : s.pc = .coYield k) (hl : Live s c) (hrun : s.status c = .running) :
    ∃ k', s.at c = some k' ∧ k' ≠ .exit ∧ ((setjmp s k).obj c).context = some k' ∧
      ((setjmp s k).obj c).pending = some k' := by
  have hco := h.co c hl
  cases hat : s.at c with
  | none => exact absurd ((hco.fresh hat).1.symm.trans hrun) (by simp)
  | some k' =>
    have hexit : k' ≠ .exit := by
      rintro rfl
      exact absurd ((hco.exit hat).1.symm.trans hrun) (by simp)
    refine ⟨k', rfl, hexit, ?_⟩
    rw [setjmp_obj]
    by_cases hc : c = s.current
    · have hk : s.at c = some k := by simp [State.at, hc, hpc]
      have hkk : k = k' := Option.some.inj (hk.symm.trans hat)
      simp [hc, hkk]
    · have hpend : (s.obj c).pending = some k' := by
        rw [State.at, if_neg hc] at hat
        exact hat
      simp [hc, hpend, (hco.saved k' hat).2 hc]

/-- What a switch does: `c` becomes current and runs from where it stood, or
from its entry point when it is new; everything else only gains the saved
context of the coroutine that yielded. -/
theorem Inv.switch_spec {s : State} {k : Cont} {i : Nat} {c : Handle} (h : Inv s)
    (hpc : s.pc = .coYield k) (hp : s.pool i = some c) (hl : Live s c)
    (hst : s.status c = .running ∨ s.status c = .new) :
    let s' := coSwitch (setjmp s k) k i
    s'.allocated = s.allocated ∧ s'.pool = s.pool ∧ s'.current = c ∧ s'.id = i ∧
    (∃ k', s'.pc = .run k' ∧ k' ≠ .exit ∧
      (s.status c = .running → s.at c = some k') ∧ (s.status c = .new → k' = .user)) ∧
    (∀ d, d ≠ c → s'.obj d = (setjmp s k).obj d) ∧
    s'.status c = .running ∧ (s'.obj c).waiter = (s.obj c).waiter ∧
    (s'.obj c).entered = (s.obj c).entered + (if s.status c = .new then 1 else 0) ∧
    (s'.obj c).context = ((setjmp s k).obj c).context := by
  have hent : ((setjmp s k).obj c).entered = (s.obj c).entered := by
    rw [setjmp_obj]
    split <;> rfl
  have hwait : ((setjmp s k).obj c).waiter = (s.obj c).waiter := by
    rw [setjmp_obj]
    split <;> rfl
  have hstc : ((setjmp s k).obj c).status = s.status c := setjmp_status s k c
  rcases hst with hst | hst
  · obtain ⟨k', hat, hexit, hctx, -⟩ := h.switch_context hpc hl hst
    have heq : coSwitch (setjmp s k) k i =
        { (setjmp s k).modify c (fun o => { o with pending := none }) with
          id := i, current := c, pc := .run k' } := by
      simp only [coSwitch, setjmp_pool, hp, setjmp_status, hst, hctx]
    rw [heq]
    refine ⟨rfl, rfl, rfl, rfl, ⟨k', rfl, hexit, fun _ => hat, fun hn => ?_⟩, ?_, ?_, ?_, ?_, ?_⟩
    · exact absurd (hst.symm.trans hn) (by simp)
    · intro d hd
      simp [hd]
    · simpa [State.status, hstc] using hst
    · simp [hwait]
    · simp [hent, hst]
    · simp
  · have heq : coSwitch (setjmp s k) k i =
        { (setjmp s k).modify c (fun o =>
            { o with status := .running, entered := o.entered + 1, pending := none }) with
          id := i, current := c, pc := .run .user } := by
      simp only [coSwitch, setjmp_pool, hp, setjmp_status, hst]
    rw [heq]
    refine ⟨rfl, rfl, rfl, rfl, ⟨.user, rfl, by simp, fun hr => ?_, fun _ => rfl⟩,
      ?_, ?_, ?_, ?_, ?_⟩
    · exact absurd (hst.symm.trans hr) (by simp)
    · intro d hd
      simp [hd]
    · simp [State.status]
    · simp [hwait]
    · simp [hent, hst]
    · simp

/-- Every other coroutine stays where it was, the one that yielded included. -/
theorem Inv.switch_at {s : State} {k : Cont} {i : Nat} {c d : Handle} (h : Inv s)
    (hpc : s.pc = .coYield k) (hp : s.pool i = some c) (hl : Live s c)
    (hst : s.status c = .running ∨ s.status c = .new) (hd : d ≠ c) :
    (coSwitch (setjmp s k) k i).at d = s.at d := by
  obtain ⟨-, -, hcur, -, -, hobj, -⟩ := h.switch_spec hpc hp hl hst
  have hatk : s.at s.current = some k := by simp [State.at, hpc]
  rw [State.at, hcur, if_neg hd, hobj d hd, setjmp_obj]
  by_cases hdc : d = s.current
  · rw [if_pos hdc, hdc, hatk]
  · rw [if_neg hdc, State.at, if_neg hdc]

theorem inv_coSwitch {s : State} {k : Cont} {fuel i : Nat} {c : Handle} (h : Inv s)
    (hpc : s.pc = .coYield k) (hfd : fdNext (setjmp s k) fuel = some i)
    (hp : s.pool i = some c) : Inv (coSwitch (setjmp s k) k i) := by
  obtain ⟨hi, hl, hst⟩ := h.switch_target hfd hp
  obtain ⟨halloc, hpool, hcur, hid, ⟨k', hpc', hexit, hrun, hnew⟩, hobj, hstc, hwc, hent, hctx⟩ :=
    h.switch_spec hpc hp hl hst
  set s' := coSwitch (setjmp s k) k i with hs'
  have hlive : ∀ d, Live s' d ↔ Live s d := by simp [Live, halloc]
  have hatc : s'.at c = some k' := by simp [State.at, hcur, hpc']
  have hatk : s.at s.current = some k := by simp [State.at, hpc]
  have hat : ∀ d, d ≠ c → s'.at d = s.at d := fun d hd => h.switch_at hpc hp hl hst hd
  have hwaiter : ∀ d, (s'.obj d).waiter = (s.obj d).waiter := by
    intro d
    by_cases hd : d = c
    · rw [hd]
      exact hwc
    · rw [hobj d hd, setjmp_obj]
      split <;> rfl
  have hstd : ∀ d, d ≠ c → (s'.obj d).status = (s.obj d).status := by
    intro d hd
    rw [hobj d hd]
    exact setjmp_status s k d
  have hdead : ∀ d, (s'.obj d).status = .dead ↔ (s.obj d).status = .dead := by
    intro d
    by_cases hd : d = c
    · have h1 : (s'.obj c).status = .running := hstc
      have h2 : (s.obj c).status = .running ∨ (s.obj c).status = .new := hst
      rw [hd, h1]
      rcases h2 with h2 | h2 <;> simp [h2]
    · rw [hstd d hd]
  refine ⟨by rw [halloc]; exact h.nodup, by rw [halloc]; exact h.main_fresh, ?_,
    by rw [hpool]; exact h.pool_inj, by rw [hpool]; exact h.pool_main, by rw [hid]; exact hi,
    by rw [hpool, hid, hcur]; exact hp, by simp [hpc', hexit], by simp [hpc'], ?_, ?_⟩
  · intro j hj d hd
    rw [hpool] at hd
    exact (hlive d).mpr (h.pool_live j hj d hd)
  · intro d hd'
    have hd := (hlive d).mp hd'
    have hcoi := h.co d hd
    by_cases hdc : d = c
    · subst hdc
      have hone : (s'.obj d).entered = 1 := by
        rw [hent]
        rcases hst with hst | hst
        · simp [hst, (hcoi.saved k' (hrun hst)).1]
        · cases hat : s.at d with
          | none => simp [hst, (hcoi.fresh hat).2]
          | some k0 =>
            -- a new coroutine has no continuation
            exfalso
            have hst0 : (s.obj d).status = .new := hst
            cases k0 with
            | user => simp [hcoi.user hat] at hst0
            | exit => simp [(hcoi.exit hat).1] at hst0
            | coWait y =>
              obtain ⟨-, -, -, hw, -, -⟩ := hcoi.wait y hat
              rcases hw with hw | hw <;> simp [hw] at hst0
      refine ⟨?_, ?_, ?_, ?_, ?_⟩ <;> rw [hatc]
      · simp
      · exact fun k _ => ⟨hone, fun hn => absurd hcur.symm hn⟩
      · exact fun _ => hstc
      · exact fun he => absurd (Option.some.inj he) hexit
      · intro y hy
        obtain rfl := Option.some.inj hy
        have hrn : s.status d = .running := by
          rcases hst with hst | hst
          · exact hst
          · exact absurd (hnew hst) (by simp)
        obtain ⟨h1, h2, h3, h4, h5, -⟩ := hcoi.wait y (hrun hrn)
        have hrn' : (s.obj d).status = .running := hrn
        refine ⟨by rw [halloc]; exact h1, h2, by rw [hwaiter]; exact h3, Or.inr hstc, ?_, ?_⟩
        · intro hn
          have := h5 (mt (hdead y).mpr hn)
          rw [hrn'] at this
          simp at this
        · intro hyl
          obtain ⟨k0, hk0⟩ := hyl hcur.symm
          rw [hpc'] at hk0
          simp at hk0
    · have hyl : Yielded s d := fun _ => ⟨k, hpc⟩
      have he : (s'.obj d).entered = (s.obj d).entered := by
        rw [hobj d hdc, setjmp_obj]
        split <;> rfl
      refine ⟨?_, ?_, ?_, ?_, ?_⟩ <;> rw [hat d hdc]
      · exact fun hn => ⟨(hstd d hdc).trans (hcoi.fresh hn).1, he.trans (hcoi.fresh hn).2⟩
      · intro k0 hk0
        refine ⟨he.trans (hcoi.saved k0 hk0).1, fun _ => ?_⟩
        rw [hobj d hdc, setjmp_obj]
        by_cases hdcur : d = s.current
        · rw [if_pos hdcur]
          rw [hdcur, hatk] at hk0
          exact hk0
        · rw [if_neg hdcur]
          exact (hcoi.saved k0 hk0).2 hdcur
      · exact fun hu => (hstd d hdc).trans (hcoi.user hu)
      · exact fun he => ⟨(hstd d hdc).trans (hcoi.exit he).1, (hcoi.exit he).2⟩
      · intro y hy
        obtain ⟨h1, h2, h3, h4, h5, h6⟩ := hcoi.wait y hy
        rw [hstd d hdc, halloc]
        exact ⟨h1, h2, by rw [hwaiter]; exact h3, h4, fun hn => h5 (mt (hdead y).mpr hn),
          fun _ hyd => h6 hyl ((hdead y).mp hyd)⟩
  · intro y hy x hx
    rw [hwaiter] at hx
    obtain ⟨hxat, hxl⟩ := h.waiter y ((hlive y).mp hy) x hx
    refine ⟨?_, (hlive x).mpr hxl⟩
    by_cases hxc : x = c
    · subst hxc
      rw [hatc]
      -- `x` waits, so it is not new
      have hrn : s.status x = .running := by
        rcases hst with hst | hst
        · exact hst
        · obtain ⟨-, -, -, hw, -, -⟩ := (h.co x hxl).wait y hxat
          have hst' : (s.obj x).status = .new := hst
          rcases hw with hw | hw <;> simp [hw] at hst'
      rw [← hrun hrn]
      exact hxat
    · rw [hat x hxc]
      exact hxat

/-! ## Every run -/

/-- **One step keeps the invariant.** -/
theorem Inv.step {s s' : State} {e : Event} (h : Inv s) (hs : Step s e s') : Inv s' := by
  cases hs with
  | start hpc hmain hfresh => exact inv_coStart h hpc hmain hfresh
  | yield hpc => exact inv_yield h hpc
  | wait hpc hco hne hw => exact inv_coWait h hpc hco hne hw
  | ret hpc hmain => exact inv_coExit h hpc hmain
  | test hpc => exact inv_coWaitLoop h hpc
  | switch hpc hfd hp => exact inv_coSwitch h hpc hfd hp

/-- **Every reachable state satisfies the invariant.** -/
theorem inv_of_reachable {s : State} (h : Reachable s) : Inv s :=
  Reach.invariant (fun _ h0 => h0 ▸ inv_start) (fun _ _ _ _ hi hs => hi.step hs) h

end MyOs.Libco
