import MyOs.Libco.Invariant
import Mathlib.Data.Finset.Card
import Mathlib.Data.List.Nodup

/-!
# libco — the coroutine table

`POOL` is exact (`PoolExact`) when every live coroutine sits in exactly one slot
and every slot that is not empty holds a live coroutine. `co_start` keeps the
table exact as long as it finds an empty slot, which a counting argument turns
into a bound on the un-reaped coroutines:

* `poolExact_iff_room` — in every run whose `co_start`s find fewer than
  `MAXCO - 1` un-reaped coroutines the table is exact in every state, and a
  step keeps it exact if and only if it meets that bound;
* `co_start_loses_coroutine` — the `MAXCO`th `co_start` in a row returns a
  coroutine that no slot holds.
-/

namespace MyOs.Libco

open MyOs.Transition

/-- Every live coroutine is in exactly one slot, where `fd_next` finds it when
it is runnable, and every entry is a live coroutine. -/
structure PoolExact (s : State) : Prop where
  occupies : ∀ c, Live s c → ∃! i, i < maxCo ∧ s.pool i = some c
  distinct : ∀ i < maxCo, ∀ j < maxCo, ∀ c, s.pool i = some c → s.pool j = some c → i = j
  live : ∀ i < maxCo, ∀ c, s.pool i = some c → Live s c
  scheduled : ∀ c, Live s c → s.status c = .running ∨ s.status c = .new →
    ∃ i < maxCo, s.pool i = some c ∧ schedulable s i = true

/-- Under the invariant, the table is exact once no live coroutine is missing. -/
theorem Inv.poolExact {s : State} (h : Inv s) (hin : ∀ c, Live s c → InPool s c) :
    PoolExact s := by
  refine ⟨fun c hc => ?_, h.pool_inj, h.pool_live, fun c hc hst => ?_⟩
  · obtain ⟨i, hi, hp⟩ := hin c hc
    exact ⟨i, ⟨hi, hp⟩, fun j hj => h.pool_inj j hj.1 i hi c hj.2 hp⟩
  · obtain ⟨i, hi, hp⟩ := hin c hc
    exact ⟨i, hi, hp, (schedulable_iff hp).mpr hst⟩

/-! ## Counting -/

/-- The live coroutines as a finite set. -/
def liveSet (s : State) : Finset Handle := insert coMain s.allocated.toFinset

theorem mem_liveSet {s : State} {c : Handle} : c ∈ liveSet s ↔ Live s c := by
  simp [liveSet, Live]

theorem Inv.card_liveSet {s : State} (h : Inv s) : (liveSet s).card = s.allocated.length + 1 := by
  rw [liveSet, Finset.card_insert_of_notMem (by simpa using h.main_fresh),
    List.toFinset_card_of_nodup h.nodup]

/-- A table without an empty slot holds `MAXCO` different live coroutines. -/
theorem Inv.length_of_full {s : State} (h : Inv s) (hfull : s.findSlot none = none) :
    maxCo ≤ s.allocated.length + 1 := by
  have hsome : ∀ i < maxCo, ∃ c, s.pool i = some c := fun i hi =>
    Option.ne_none_iff_exists'.mp (findSlot_eq_none hfull i hi)
  have hcard := Finset.card_le_card_of_injOn (s := Finset.range maxCo) (t := liveSet s)
    (fun i => (s.pool i).getD coMain) ?maps ?inj
  case maps =>
    intro i hi
    have hi' : i < maxCo := by simpa using hi
    obtain ⟨c, hc⟩ := hsome i hi'
    simpa [hc] using mem_liveSet.mpr (h.pool_live i hi' c hc)
  case inj =>
    intro i hi j hj hij
    have hi' : i < maxCo := by simpa using hi
    have hj' : j < maxCo := by simpa using hj
    obtain ⟨c, hc⟩ := hsome i hi'
    obtain ⟨d, hd⟩ := hsome j hj'
    have hcd : c = d := by simpa [hc, hd] using hij
    exact h.pool_inj i hi' j hj' c hc (hcd ▸ hd)
  rw [Finset.card_range, h.card_liveSet] at hcard
  exact hcard

/-- An exact table has a slot for every live coroutine. -/
theorem PoolExact.length_lt {s : State} (he : PoolExact s) (h : Inv s) :
    s.allocated.length < maxCo := by
  have hslot : ∀ c, ∃ i, Live s c → i < maxCo ∧ s.pool i = some c := by
    intro c
    by_cases hc : Live s c
    · obtain ⟨i, hi, -⟩ := he.occupies c hc
      exact ⟨i, fun _ => hi⟩
    · exact ⟨0, fun h => absurd h hc⟩
  choose slot hslot using hslot
  have hcard := Finset.card_le_card_of_injOn (s := liveSet s) (t := Finset.range maxCo) slot
    ?maps ?inj
  case maps =>
    intro c hc
    simpa using (hslot c (mem_liveSet.mp hc)).1
  case inj =>
    intro c hc d hd hcd
    have h1 := (hslot c (mem_liveSet.mp hc)).2
    have h2 := (hslot d (mem_liveSet.mp hd)).2
    rw [hcd, h2] at h1
    exact (Option.some.inj h1).symm
  rw [Finset.card_range, h.card_liveSet] at hcard
  omega

/-! ## Steps -/

/-- `co_start` writes the slot it found, if any, and no other. -/
theorem coStart_pool (s : State) (c : Handle) (j : Nat) :
    (coStart s c).pool j = if s.findSlot none = some j then some c else s.pool j := by
  have heq : coStart s c = State.setSlot { s.modify c (fun o =>
      { o with waiter := none, status := .new, entered := 0, pending := none }) with
      allocated := c :: s.allocated } (s.findSlot none) (some c) := rfl
  rw [heq, setSlot_pool]
  rfl

/-- A step other than a reap keeps every entry of the table. -/
theorem Inv.pool_step {s s' : State} {e : Event} (h : Inv s) (hs : Step s e s')
    {i : Nat} (hi : i < maxCo) {c : Handle} (hp : s.pool i = some c) :
    s'.pool i = some c ∨ (¬ Live s' c ∧ ¬ InPool s' c) := by
  cases hs with
  | start hpc hmain hfresh =>
    -- the slot found is empty, so it is not the one that holds `c`
    refine Or.inl ?_
    rw [coStart_pool, if_neg]
    · exact hp
    · intro hf
      rw [(findSlot_eq_some hf).2] at hp
      simp at hp
  | yield => exact Or.inl hp
  | wait => exact Or.inl hp
  | ret => exact Or.inl (by rw [(coExit_fields s).2.1]; exact hp)
  | test hpc =>
    rename_i co
    by_cases hdead : s.status co = .dead
    · have hpool : ∀ j < maxCo, ∀ d,
          (coWaitLoop s co).pool j = some d ↔ s.pool j = some d ∧ d ≠ co := by
        intro j hj d
        rw [coWaitLoop_of_dead hdead]
        exact h.clear_pool co j hj d
      by_cases hc : c = co
      · refine Or.inr ⟨?_, ?_⟩
        · subst hc
          have hat : s.at s.current = some (.coWait c) := by simp [State.at, hpc]
          have hmem := ((h.co _ h.current_live).wait c hat).1
          rintro (rfl | hl)
          · exact h.main_fresh hmem
          · rw [coWaitLoop_of_dead hdead] at hl
            exact (h.nodup.mem_erase_iff.mp hl).1 rfl
        · rintro ⟨j, hj, hd⟩
          exact ((hpool j hj c).mp hd).2 hc
      · exact Or.inl ((hpool i hi c).mpr ⟨hp, hc⟩)
    · exact Or.inl (by rw [coWaitLoop, if_pos hdead]; exact hp)
  | switch hpc hfd hp' =>
    rename_i k fuel j d
    obtain ⟨-, hl, hst⟩ := h.switch_target hfd hp'
    exact Or.inl (by rw [(h.switch_spec hpc hp' hl hst).2.1]; exact hp)

/-- A coroutine that stays in the table stays in its slot. -/
theorem Inv.slot_stable {s s' : State} {e : Event} (h : Inv s) (hs : Step s e s')
    {i : Nat} (hi : i < maxCo) {c : Handle} (hp : s.pool i = some c) (hin : InPool s' c) :
    s'.pool i = some c :=
  (h.pool_step hs hi hp).resolve_right fun hn => hn.2 hin

/-- Live coroutines are old ones, or the one just started. -/
theorem live_step {s s' : State} {e : Event} (h : Inv s) (hs : Step s e s') {c : Handle}
    (hc : Live s' c) : Live s c ∨ e = .start c := by
  cases hs with
  | start hpc hmain hfresh =>
    rename_i d
    rcases hc with hc | hc
    · exact Or.inl (Or.inl hc)
    · rw [coStart_allocated, List.mem_cons] at hc
      rcases hc with rfl | hc
      · exact Or.inr rfl
      · exact Or.inl (Or.inr hc)
  | yield => exact Or.inl hc
  | wait => exact Or.inl hc
  | ret => exact Or.inl (by rw [Live, (coExit_fields s).1] at hc; exact hc)
  | test hpc =>
    rename_i co
    refine Or.inl (hc.imp_right fun hc => ?_)
    by_cases hdead : s.status co = .dead
    · rw [coWaitLoop_of_dead hdead] at hc
      exact List.mem_of_mem_erase hc
    · rw [coWaitLoop, if_pos hdead] at hc
      exact hc
  | switch hpc hfd hp =>
    obtain ⟨-, hl, hst⟩ := h.switch_target hfd hp
    exact Or.inl (by rw [Live, (h.switch_spec hpc hp hl hst).1] at hc; exact hc)

/-- **Step lemma.** A step that meets the bound keeps every live coroutine in
the table. -/
theorem Inv.inPool_step {s s' : State} {e : Event} (h : Inv s) (hs : Step s e s')
    (hroom : Room s e) (hin : ∀ c, Live s c → InPool s c) : ∀ c, Live s' c → InPool s' c := by
  intro c hc
  rcases live_step h hs hc with hl | rfl
  · obtain ⟨i, hi, hp⟩ := hin c hl
    rcases h.pool_step hs hi hp with hp' | ⟨hn, -⟩
    · exact ⟨i, hi, hp'⟩
    · exact absurd hc hn
  · cases hs with
    | start hpc hmain hfresh =>
      -- fewer than `MAXCO` live coroutines leave a slot empty
      cases hf : s.findSlot none with
      | none =>
        have := h.length_of_full hf
        simp only [Room] at hroom
        omega
      | some i => exact ⟨i, (findSlot_eq_some hf).1, by rw [coStart_pool, if_pos hf]⟩

theorem inv_of_reachableWithin {s : State} (h : ReachableWithin s) : Inv s :=
  inv_of_reachable h.of_restrict

/-- **Run lemma.** Within the bound no live coroutine is missing from the table. -/
theorem inPool_of_live {s : State} (h : ReachableWithin s) : ∀ c, Live s c → InPool s c := by
  refine Reach.invariant (I := fun s => ∀ c, Live s c → InPool s c) ?_ ?_ h
  · rintro _ rfl c (rfl | hc)
    · exact ⟨0, by decide, rfl⟩
    · simp [State.start] at hc
  · intro s e s' hr hin hs
    exact (inv_of_reachableWithin hr).inPool_step hs.1 hs.2 hin

/-- **`co_start` never loses a coroutine, within the bound and only there.** -/
theorem poolExact_iff_room (s : State) (hr : ReachableWithin s) :
    PoolExact s ∧ ∀ e s', Step s e s' → (PoolExact s' ↔ Room s e) := by
  have hinv := inv_of_reachableWithin hr
  refine ⟨hinv.poolExact (inPool_of_live hr), fun e s' hs => ⟨fun he => ?_, fun hroom => ?_⟩⟩
  · cases hs with
    | start hpc hmain hfresh =>
      have := he.length_lt (hinv.step (.start hpc hmain hfresh))
      rw [coStart_allocated, List.length_cons] at this
      simp only [Room]
      omega
    | _ => trivial
  · exact (hinv.step hs).poolExact (hinv.inPool_step hs hroom (inPool_of_live hr))

/-! ## The lost coroutine -/

/-- `main` calls `co_start` `n` times; `malloc` returns `1, 2, …`. -/
def startMany : Nat → State
  | 0 => State.start
  | n + 1 => coStart (startMany n) (n + 1)

theorem startMany_spec (n : Nat) : Reachable (startMany n) ∧ (startMany n).pc = .run .user ∧
    (startMany n).allocated.length = n ∧ ∀ c ∈ (startMany n).allocated, c ≤ n := by
  induction n with
  | zero => exact ⟨.init rfl, rfl, rfl, by simp [startMany, State.start]⟩
  | succ n ih =>
    obtain ⟨hr, hpc, hlen, hle⟩ := ih
    have hfresh : n + 1 ∉ (startMany n).allocated := fun hm =>
      absurd (hle _ hm) (Nat.not_succ_le_self n)
    have hs : Step (startMany n) (.start (n + 1)) (startMany (n + 1)) :=
      .start hpc (Nat.succ_ne_zero n) hfresh
    refine ⟨.step hr hs, by simpa [startMany, coStart] using hpc, ?_, ?_⟩
    · rw [startMany, coStart_allocated, List.length_cons, hlen]
    · intro c hc
      rw [startMany, coStart_allocated, List.mem_cons] at hc
      rcases hc with rfl | hc
      · exact le_rfl
      · exact Nat.le_succ_of_le (hle c hc)

/-- `MAXCO` `co_start`s in a row lead to a reachable state whose table has lost
a coroutine. -/
theorem co_start_loses_coroutine :
    Reachable (startMany maxCo) ∧ ¬ PoolExact (startMany maxCo) := by
  obtain ⟨hr, -, hlen, -⟩ := startMany_spec maxCo
  refine ⟨hr, fun he => ?_⟩
  have := he.length_lt (inv_of_reachable hr)
  omega

/-- One coroutine has been started: two slots are taken, by `main` and by it. -/
theorem poolExact_startMany_one : PoolExact (startMany 1) := by
  have hr : ReachableWithin (startMany 1) := .step (.init rfl)
    ⟨.start rfl (Nat.succ_ne_zero 0) (List.not_mem_nil), by simp [Room, State.start, maxCo]⟩
  exact (poolExact_iff_room _ hr).1

end MyOs.Libco
