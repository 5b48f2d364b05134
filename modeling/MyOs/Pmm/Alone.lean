import MyOs.Pmm.Machine

/-!
# A thread on its own

The critical sections of the machine are those of the code: a thread that runs
through a call on its own computes what the function computes, failures included.

* `runAlone_kalloc`, `runAlone_kfree` — the sections of a call compose to the call.
-/

namespace MyOs.Pmm

/-- A thread runs `n` critical sections with nobody in between. -/
def runAlone (P : Platform) : Nat → State → Pc → Result (State × Pc)
  | 0, s, pc => .ok (s, pc)
  | n + 1, s, pc => do
    let (s, pc) ← exec P s pc
    runAlone P n s pc

/-- Some number of critical sections leads from `pc` to the result of the call. -/
def Computes (P : Platform) (s : State) (pc : Pc) (res : Result (State × Nat)) : Prop :=
  ∃ n r, runAlone P n s pc = res.map fun x => (x.1, .ret x.2 r)

variable {P : Platform} {s s' : State} {pc pc' : Pc} {size : Nat} {res : Result (State × Nat)}

theorem Computes.ret (p r : Nat) : Computes P s (.ret p r) (.ok (s, p)) := ⟨0, r, rfl⟩

theorem Computes.error {e : Fault} (h : exec P s pc = .error e) : Computes P s pc (.error e) :=
  ⟨1, 0, by rw [runAlone, h, error_bind]; rfl⟩

/-- One more critical section in front. -/
theorem Computes.step (s' : State) (pc' : Pc) (h : exec P s pc = .ok (s', pc'))
    (hrest : Computes P s' pc' res) :
    Computes P s pc res := by
  obtain ⟨n, r, hrun⟩ := hrest
  exact ⟨n + 1, r, by rw [runAlone, h, ok_bind]; exact hrun⟩

/-- Behind the last slab: the growth of the chain. -/
theorem computes_addSlab (prev : Nat) : Computes P s (.addSlab prev size) (do
    let (s, newSlab) ← addSlab s prev
    if newSlab = 0 then return (s, 0) else do
      let (s, ret) ← slabAlloc s newSlab size
      check (ret ≠ 0)
      return (s, ret)) := by
  cases hadd : addSlab s prev with
  | error e =>
    rw [error_bind]
    exact .error (by rw [exec, hadd, error_bind])
  | ok x =>
    obtain ⟨s₁, newSlab⟩ := x
    rw [ok_bind]
    by_cases hnew : newSlab = 0
    · simp only [hnew, if_true]
      refine .step s₁ (.ret 0 0) ?_ (.ret 0 0)
      rw [exec, hadd, ok_bind]
      simp only [hnew, if_true]
      rfl
    · simp only [hnew, if_false]
      refine .step s₁ (.newSlab newSlab size) ?_ ?_
      · rw [exec, hadd, ok_bind]
        simp only [hnew, if_false]
        rfl
      · cases halloc : slabAlloc s₁ newSlab size with
        | error e =>
          rw [error_bind]
          exact .error (by rw [exec, halloc, error_bind])
        | ok y =>
          obtain ⟨s₂, ret⟩ := y
          rw [ok_bind]
          by_cases hret : ret = 0
          · simp only [hret, ne_eq, not_true_eq_false]
            exact .error (by rw [exec, halloc, ok_bind, hret]; rfl)
          · refine .step s₂ (.ret ret size) ?_ ?_
            · rw [exec, halloc, ok_bind]
              simp only [check_pos hret, ok_bind]
              rfl
            · simp only [check_pos hret, ok_bind]
              exact .ret ret size

/-- The loop of `S_alloc`, from the control point its test leads to. -/
theorem computes_sAllocLoop : ∀ (fuel : Nat) (s : State) (prev slab : Nat),
    sAllocLoop size fuel s prev slab ≠ .error .fuel →
    (∃ pc, sAllocNext prev slab size = .ok pc ∧
        Computes P s pc (sAllocLoop size fuel s prev slab)) ∨
      ∃ e, sAllocNext prev slab size = .error e ∧ sAllocLoop size fuel s prev slab = .error e
  | 0, _, _, _, hfuel => absurd rfl hfuel
  | fuel + 1, s, prev, slab, hfuel => by
    rw [sAllocLoop, sAllocNext] at *
    by_cases hslab : slab = 0
    · -- behind the last slab
      rw [if_neg (by simpa using hslab), if_neg (by simpa using hslab)]
      by_cases hprev : prev ≠ 0 ∧ slab = 0
      · rw [check_pos hprev, ok_bind, ok_bind]
        exact .inl ⟨_, rfl, computes_addSlab prev⟩
      · rw [check_neg hprev, error_bind, error_bind]
        exact .inr ⟨_, rfl, rfl⟩
    · rw [if_pos hslab] at hfuel
      rw [if_pos hslab, if_pos hslab]
      refine .inl ⟨_, rfl, ?_⟩
      cases halloc : slabAlloc s slab size with
      | error e =>
        rw [error_bind]
        exact .error (by rw [exec, halloc, error_bind])
      | ok x =>
        obtain ⟨s₁, ret⟩ := x
        rw [halloc, ok_bind] at hfuel
        rw [ok_bind]
        by_cases hret : ret ≠ 0
        · simp only [if_pos hret]
          refine .step s₁ (.ret ret size) ?_ (.ret ret size)
          rw [exec, halloc, ok_bind]
          simp only [if_pos hret]
          rfl
        · simp only [if_neg hret] at hfuel ⊢
          refine .step s₁ (.readNext slab size) ?_ ?_
          · rw [exec, halloc, ok_bind]
            simp only [if_neg hret]
            rfl
          · cases hread : readNext s₁ slab with
            | error e =>
              rw [error_bind]
              exact .error (by rw [exec, hread, error_bind])
            | ok y =>
              obtain ⟨s₂, next⟩ := y
              rw [hread, ok_bind] at hfuel
              rw [ok_bind]
              -- the rest of the chain
              rcases computes_sAllocLoop fuel s₂ slab next hfuel with
                ⟨pc, hnext, hrest⟩ | ⟨e, hnext, hrest⟩
              · refine .step s₂ pc ?_ hrest
                rw [exec, hread, ok_bind]
                simp only [hnext, ok_bind]
                rfl
              · simp only [hrest]
                refine .error ?_
                rw [exec, hread, ok_bind]
                simp only [hnext, error_bind]

/-- **The critical sections of `kalloc` compose to `kalloc`.** -/
theorem runAlone_kalloc (cpu size : Nat) (hfuel : kalloc P s cpu size ≠ .error .fuel) :
    Computes P s (.kalloc cpu size) (kalloc P s cpu size) := by
  unfold kalloc at *
  by_cases hbig : size > maxAlloc
  · rw [if_pos hbig]
    exact .step s (.ret 0 0) (if_pos hbig) (.ret 0 0)
  rw [if_neg hbig] at hfuel ⊢
  by_cases hsmall : kallocSize size ≤ 4096
  · rw [if_pos hsmall] at hfuel ⊢
    unfold sAlloc at *
    cases hhead : sAllocHead P s cpu (kallocSize size) with
    | error e =>
      rw [error_bind]
      exact .error (by rw [exec, if_neg hbig, if_pos hsmall, hhead, error_bind])
    | ok x =>
      obtain ⟨sz, slab⟩ := x
      rw [hhead, ok_bind] at hfuel
      rw [ok_bind]
      rcases computes_sAllocLoop (P := P) _ s 0 slab hfuel with
          ⟨pc, hnext, hrest⟩ | ⟨e, hnext, hrest⟩
      · refine .step s pc ?_ hrest
        rw [exec, if_neg hbig, if_pos hsmall, hhead, ok_bind]
        simp only [hnext, ok_bind]
        rfl
      · simp only [hrest]
        refine .error ?_
        rw [exec, if_neg hbig, if_pos hsmall, hhead, ok_bind]
        simp only [hnext, error_bind]
  · rw [if_neg hsmall] at hfuel ⊢
    refine .step s (.gAlloc (kallocPages (kallocSize size))) ?_ ?_
    · rw [exec, if_neg hbig, if_neg hsmall]
      rfl
    · cases halloc : gAlloc s (kallocPages (kallocSize size)) false with
      | error e => exact .error (by rw [exec, halloc, error_bind])
      | ok x =>
        obtain ⟨s₁, p⟩ := x
        refine .step s₁ (.ret p (kallocPages (kallocSize size) * gpageSz)) ?_ (.ret p _)
        rw [exec, halloc, ok_bind]
        rfl

/-- **The critical sections of `kfree` compose to `kfree`.** -/
theorem runAlone_kfree (p : Nat) :
    runAlone P 2 s (.kfree p) = (kfree s p).map fun s' => (s', .idle) := by
  unfold kfree
  rw [runAlone, exec]
  cases hhead : kfreeHead s p with
  | error e => rfl
  | ok slab =>
    cases slab with
    | true =>
      cases hfree : sFree s p with
      | error e => simp [runAlone, exec, hfree, Except.map]
      | ok s' => simp [runAlone, exec, hfree, Except.map]
    | false =>
      cases hfree : gFree s p with
      | error e => simp [runAlone, exec, hfree, Except.map]
      | ok s' => simp [runAlone, exec, hfree, Except.map]

end MyOs.Pmm
