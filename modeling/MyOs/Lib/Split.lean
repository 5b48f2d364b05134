import Mathlib.Data.List.TakeWhile

/-!
# Splitting a list

A list at an element: in front of the first one, behind the last one, and where a run of
elements with a property ends.

* `takeWhile_of_mem`, `takeWhile_of_not_mem` — what stands in front of the first `a`.
* `exists_last_split`, `last_split_inj` — there is one last `a`.
* `takeWhile_stop`, `dropWhile_stop` — a run and what stands behind it.
-/

namespace MyOs.Split

variable {α : Type*} {p : α → Bool} {a : α} {l t rest : List α}

-- ---------------------------------------------------------------------------
-- Runs
-- ---------------------------------------------------------------------------

/-- A run ends where the property fails, or at the end of the list. -/
def Stops (p : α → Bool) (rest : List α) : Prop := ∀ c, rest.head? = some c → p c = false

theorem takeWhile_stop (h : ∀ c ∈ t, p c = true) (hrest : Stops p rest) :
    (t ++ rest).takeWhile p = t := by
  rw [List.takeWhile_append_of_pos h]
  cases rest with
  | nil => rw [List.takeWhile_nil, List.append_nil]
  | cons c rest =>
    have hc := hrest c rfl
    rw [List.takeWhile_cons_of_neg (by simp [hc]), List.append_nil]

theorem dropWhile_stop (h : ∀ c ∈ t, p c = true) (hrest : Stops p rest) :
    (t ++ rest).dropWhile p = rest := by
  rw [List.dropWhile_append_of_pos h]
  cases rest with
  | nil => rfl
  | cons c rest =>
    have hc := hrest c rfl
    rw [List.dropWhile_cons_of_neg (by simp [hc])]

-- ---------------------------------------------------------------------------
-- The last element
-- ---------------------------------------------------------------------------

theorem exists_last_split (h : a ∈ l) : ∃ l₁ l₂, l = l₁ ++ a :: l₂ ∧ a ∉ l₂ := by
  obtain ⟨r₁, r₂, hsplit, hnot⟩ := List.eq_append_cons_of_mem (List.mem_reverse.2 h)
  refine ⟨r₂.reverse, r₁.reverse, ?_, fun hmem => hnot (List.mem_reverse.1 hmem)⟩
  rw [← List.reverse_reverse l, hsplit, List.reverse_append, List.reverse_cons, List.append_assoc,
    List.singleton_append]

/-- There is one last place only. -/
theorem last_split_inj {l₁ l₁' l₂ l₂' : List α} (h : l₁ ++ a :: l₂ = l₁' ++ a :: l₂')
    (hnot : a ∉ l₂) (hnot' : a ∉ l₂') : l₂ = l₂' := by
  rcases List.append_eq_append_iff.1 h with ⟨t, -, ht⟩ | ⟨t, -, ht⟩
  · cases t with
    | nil => exact (List.cons.inj ht).2
    | cons c t => exact absurd ((List.cons.inj ht).2 ▸ by simp) hnot
  · cases t with
    | nil => exact (List.cons.inj ht).2.symm
    | cons c t => exact absurd ((List.cons.inj ht).2 ▸ by simp) hnot'

-- ---------------------------------------------------------------------------
-- The first element
-- ---------------------------------------------------------------------------

variable [DecidableEq α]

theorem takeWhile_split (h : a ∉ t) : (t ++ a :: rest).takeWhile (· ≠ a) = t := by
  refine takeWhile_stop (fun c hc => decide_eq_true fun heq => h (heq ▸ hc)) fun c hc => ?_
  obtain rfl : a = c := Option.some.inj hc
  exact decide_eq_false (not_not.2 rfl)

theorem takeWhile_of_mem (h : a ∈ l) : ∃ rest, l = l.takeWhile (· ≠ a) ++ a :: rest := by
  obtain ⟨t, rest, hsplit, hnot⟩ := List.eq_append_cons_of_mem h
  have htake : l.takeWhile (· ≠ a) = t := by rw [hsplit, takeWhile_split hnot]
  exact ⟨rest, by rw [htake]; exact hsplit⟩

theorem takeWhile_of_not_mem (h : a ∉ l) : l.takeWhile (· ≠ a) = l :=
  List.takeWhile_eq_self_iff.2 fun _ hc => decide_eq_true fun heq => h (heq ▸ hc)

theorem not_mem_takeWhile : a ∉ l.takeWhile (· ≠ a) := fun hmem => by
  simpa using List.mem_takeWhile_imp hmem

end MyOs.Split
