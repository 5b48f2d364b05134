import MyOs.Pstree.Definitions

/-!
# pstree — a pass over /proc

What one turn of the loop in `get_pnum_load` does to the array, and what the turns before
and behind it leave alone.

* `loadEntry_eq_ok` — a process has been loaded.
* `dirLoop_append` — the loop over two parts of a directory.
* `dirLoop_frame` — the entries in front of the loop, and the size of the array.
-/

namespace MyOs.Pstree

variable {mode : Mode} {showPid : Bool} {p : Proc} {pro pro' : Pro} {num n i : Nat}
  {dName : List Char} {dir : List (List Char)}

-- ---------------------------------------------------------------------------
-- The array
-- ---------------------------------------------------------------------------

@[simp] theorem Pro.set_size (pro : Pro) (i : Nat) (e : Entry) :
    (pro.set i e).size = pro.size := rfl

@[simp] theorem Pro.set_entry_self (pro : Pro) (i : Nat) (e : Entry) :
    (pro.set i e).entry i = e := by
  simp [Pro.set]

theorem Pro.set_entry_ne (pro : Pro) {i j : Nat} (e : Entry) (h : j ≠ i) :
    (pro.set i e).entry j = pro.entry j := by
  simp [Pro.set, Function.update_of_ne h]

theorem Pro.get_of_lt (h : i < pro.size) : pro.get i = .ok (pro.entry i) := if_pos h

theorem Pro.get_of_le (h : pro.size ≤ i) : pro.get i = .error .heapOverflow :=
  if_neg (Nat.not_lt.2 h)

-- ---------------------------------------------------------------------------
-- One process
-- ---------------------------------------------------------------------------

/-- A process has been loaded. -/
theorem loadEntry_eq_ok : loadEntry showPid p pro num dName = .ok pro' ↔
    ∃ text e, openStat p dName = .ok text ∧ num < pro.size ∧
      (pro.entry num).load showPid dName text = .ok e ∧ pro' = pro.set num e := by
  rw [loadEntry, bind_eq_ok]
  constructor
  · rintro ⟨text, hopen, h⟩
    rcases Nat.lt_or_ge num pro.size with hlt | hge
    · rw [Pro.get_of_lt hlt, ok_bind, bind_eq_ok] at h
      obtain ⟨e, hload, heq⟩ := h
      exact ⟨text, e, hopen, hlt, hload, (Except.ok.inj heq).symm⟩
    · rw [Pro.get_of_le hge] at h
      cases h
  · rintro ⟨text, e, hopen, hlt, hload, rfl⟩
    refine ⟨text, hopen, ?_⟩
    rw [Pro.get_of_lt hlt, ok_bind, hload, ok_bind]
    rfl

-- ---------------------------------------------------------------------------
-- The loop
-- ---------------------------------------------------------------------------

theorem dirLoop_skip (h : atoi dName = 0) :
    dirLoop mode showPid p (dName :: dir) num pro = dirLoop mode showPid p dir num pro := by
  rw [dirLoop.eq_def]
  exact if_neg (not_not.2 h)

theorem dirLoop_load (h : atoi dName ≠ 0) :
    dirLoop .load showPid p (dName :: dir) num pro =
      loadEntry showPid p pro num dName >>= dirLoop .load showPid p dir (num + 1) := by
  rw [dirLoop, if_pos h]

/-- **The loop** over two parts of a directory. -/
theorem dirLoop_append (dir₁ dir₂ : List (List Char)) (num : Nat) (pro : Pro) :
    dirLoop .load showPid p (dir₁ ++ dir₂) num pro =
      dirLoop .load showPid p dir₁ num pro >>= fun r =>
        dirLoop .load showPid p dir₂ r.1 r.2 := by
  induction dir₁ generalizing num pro with
  | nil => rfl
  | cons dName dir₁ ih =>
    rw [List.cons_append]
    by_cases h : atoi dName = 0
    · rw [dirLoop_skip h, dirLoop_skip h, ih]
    · rw [dirLoop_load h, dirLoop_load h]
      cases loadEntry showPid p pro num dName with
      | ok pro => exact ih (num + 1) pro
      | error fault => rfl

/-- What the loop leaves alone. -/
theorem dirLoop_frame (h : dirLoop .load showPid p dir num pro = .ok (n, pro')) :
    num ≤ n ∧ pro'.size = pro.size ∧ ∀ i < num, pro'.entry i = pro.entry i := by
  induction dir generalizing num pro with
  | nil =>
    obtain ⟨rfl, rfl⟩ := Prod.mk.inj (Except.ok.inj h)
    exact ⟨le_rfl, rfl, fun _ _ => rfl⟩
  | cons dName dir ih =>
    by_cases hatoi : atoi dName = 0
    · rw [dirLoop_skip hatoi] at h
      exact ih h
    · rw [dirLoop_load hatoi, bind_eq_ok] at h
      obtain ⟨pro₁, hload, h⟩ := h
      obtain ⟨text, e, -, -, -, rfl⟩ := loadEntry_eq_ok.1 hload
      obtain ⟨hle, hsize, hframe⟩ := ih h
      refine ⟨by omega, hsize, fun i hi => ?_⟩
      rw [hframe i (by omega), Pro.set_entry_ne pro e (by omega)]

theorem getPnumLoad_eq : getPnumLoad mode showPid p pro
    = dirLoop mode showPid p (p.dir.getD []) 0 pro := by
  rw [getPnumLoad]
  cases p.dir <;> rfl

end MyOs.Pstree
