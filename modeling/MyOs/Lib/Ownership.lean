import Mathlib.Logic.Function.Basic

/-!
# Ownership of what has been handed out

Blocks that an allocator has handed out lie with one party each: a thread that
holds a block and has not passed it on yet, or the client, which may have asked a
thread to give a live block back. `Owned` says that the parties together have
exactly the blocks that are taken, and none of them twice. One rule for each way a
block changes hands:

* `Owned.keep` — the taken blocks stay the same.
* `Owned.allot`, `Owned.release` — a block is taken by a thread, or given back.
* `Owned.publish`, `Owned.request` — a held block becomes live, a live block is
  to be given back.
-/

namespace MyOs.Ownership

variable {α β τ : Type*}

/-- The blocks `taken p r`, at `p` and of size `r`, are the live ones and those
held by a thread, each of them once. A thread gives back live blocks only, and no
two threads the same one. -/
structure Owned (taken : α → β → Prop) (held : τ → Option (α × β)) (freeing : τ → Option α)
    (live : α → Option β) : Prop where
  live_taken : ∀ p r, live p = some r → taken p r
  held_taken : ∀ t p r, held t = some (p, r) → taken p r
  owner : ∀ p r, taken p r → live p = some r ∨ ∃ t, held t = some (p, r)
  live_not_held : ∀ t p r r', live p = some r → held t ≠ some (p, r')
  held_unique : ∀ t u p r r', held t = some (p, r) → held u = some (p, r') → t = u
  freeing_live : ∀ t p, freeing t = some p → ∃ r, live p = some r
  freeing_unique : ∀ t u p, freeing t = some p → freeing u = some p → t = u

variable {taken taken' : α → β → Prop} {held : τ → Option (α × β)} {freeing : τ → Option α}
  {live : α → Option β} {t u : τ} {p q : α} {r : β}

theorem Owned.init (htaken : ∀ p r, ¬ taken p r) (hheld : ∀ t, held t = none)
    (hfreeing : ∀ t, freeing t = none) (hlive : ∀ p, live p = none) :
    Owned taken held freeing live := by
  refine ⟨fun p r h => ?_, fun t p r h => ?_, fun p r h => absurd h (htaken p r),
    fun t p r r' h => ?_, fun t u p r r' h => ?_, fun t p h => ?_, fun t u p h => ?_⟩
  · rw [hlive] at h
    cases h
  · rw [hheld] at h
    cases h
  · rw [hlive] at h
    cases h
  · rw [hheld] at h
    cases h
  · rw [hfreeing] at h
    cases h
  · rw [hfreeing] at h
    cases h

theorem Owned.keep (h : Owned taken held freeing live) (hkeep : ∀ p r, taken' p r ↔ taken p r) :
    Owned taken' held freeing live :=
  ⟨fun p r hp => (hkeep p r).2 (h.live_taken p r hp),
    fun t p r hp => (hkeep p r).2 (h.held_taken t p r hp),
    fun p r hp => h.owner p r ((hkeep p r).1 hp), h.live_not_held, h.held_unique, h.freeing_live,
    h.freeing_unique⟩

variable [DecidableEq τ]

/-- **A thread is handed a block.** -/
theorem Owned.allot (h : Owned taken held freeing live) (hfresh : ∀ r', ¬ taken p r')
    (htaken : ∀ q r', taken' q r' ↔ taken q r' ∨ q = p ∧ r' = r) (hheld : held t = none) :
    Owned taken' (Function.update held t (some (p, r))) freeing live := by
  have hne : ∀ u q r', held u = some (q, r') → u ≠ t := by
    rintro u q r' hu rfl
    rw [hheld] at hu
    cases hu
  refine ⟨fun q r' hq => (htaken q r').2 (.inl (h.live_taken q r' hq)), fun u q r' hu => ?_,
    fun q r' hq => ?_, fun u q r' r'' hq hu => ?_, fun u u' q r' r'' hu hu' => ?_, h.freeing_live,
    h.freeing_unique⟩
  · by_cases hut : u = t
    · rw [hut, Function.update_self] at hu
      cases hu
      exact (htaken p r).2 (.inr ⟨rfl, rfl⟩)
    · rw [Function.update_of_ne hut] at hu
      exact (htaken q r').2 (.inl (h.held_taken u q r' hu))
  · rcases (htaken q r').1 hq with hq | ⟨rfl, rfl⟩
    · rcases h.owner q r' hq with hlive | ⟨u, hu⟩
      · exact .inl hlive
      · exact .inr ⟨u, by rw [Function.update_of_ne (hne u q r' hu), hu]⟩
    · exact .inr ⟨t, Function.update_self _ _ _⟩
  · by_cases hut : u = t
    · rw [hut, Function.update_self] at hu
      cases hu
      exact hfresh r' (h.live_taken p r' hq)
    · rw [Function.update_of_ne hut] at hu
      exact h.live_not_held u q r' r'' hq hu
  · -- a block held before is another one, since the new one was free
    have hold : ∀ u r', u ≠ t → Function.update held t (some (p, r)) u ≠ some (p, r') := by
      intro u r' hut hu
      rw [Function.update_of_ne hut] at hu
      exact hfresh r' (h.held_taken u p r' hu)
    by_cases hut : u = t
    · by_cases hut' : u' = t
      · rw [hut, hut']
      · rw [hut, Function.update_self] at hu
        cases hu
        exact absurd hu' (hold u' r'' hut')
    · by_cases hut' : u' = t
      · rw [hut', Function.update_self] at hu'
        cases hu'
        exact absurd hu (hold u r' hut)
      · rw [Function.update_of_ne hut] at hu
        rw [Function.update_of_ne hut'] at hu'
        exact h.held_unique u u' q r' r'' hu hu'

variable [DecidableEq α]

/-- **A thread gives a live block back.** -/
theorem Owned.release (h : Owned taken held freeing live) (hfreeing : freeing t = some p)
    (htaken : ∀ q r, taken' q r ↔ taken q r ∧ q ≠ p) :
    Owned taken' held (Function.update freeing t none) (Function.update live p none) := by
  obtain ⟨r, hr⟩ := h.freeing_live t p hfreeing
  have hlive : ∀ q r', Function.update live p none q = some r' → live q = some r' ∧ q ≠ p := by
    intro q r' hq
    by_cases hqp : q = p
    · rw [hqp, Function.update_self] at hq
      cases hq
    · rw [Function.update_of_ne hqp] at hq
      exact ⟨hq, hqp⟩
  have hother : ∀ u q, Function.update freeing t none u = some q → freeing u = some q ∧ u ≠ t := by
    intro u q hu
    by_cases hut : u = t
    · rw [hut, Function.update_self] at hu
      cases hu
    · rw [Function.update_of_ne hut] at hu
      exact ⟨hu, hut⟩
  refine ⟨fun q r' hq => ?_, fun u q r' hu => ?_, fun q r' hq => ?_, fun u q r' r'' hq => ?_,
    h.held_unique, fun u q hu => ?_, fun u u' q hu hu' => ?_⟩
  · obtain ⟨hq, hqp⟩ := hlive q r' hq
    exact (htaken q r').2 ⟨h.live_taken q r' hq, hqp⟩
  · refine (htaken q r').2 ⟨h.held_taken u q r' hu, ?_⟩
    rintro rfl
    exact h.live_not_held u q r r' hr hu
  · obtain ⟨hq, hqp⟩ := (htaken q r').1 hq
    rw [Function.update_of_ne hqp]
    exact h.owner q r' hq
  · exact h.live_not_held u q r' r'' (hlive q r' hq).1
  · obtain ⟨hu, hut⟩ := hother u q hu
    obtain ⟨r', hr'⟩ := h.freeing_live u q hu
    refine ⟨r', ?_⟩
    -- no other thread gives `p` back
    rw [Function.update_of_ne, hr']
    rintro rfl
    exact hut (h.freeing_unique u t q hu hfreeing)
  · exact h.freeing_unique u u' q (hother u q hu).1 (hother u' q hu').1

/-- **A held block becomes live.** -/
theorem Owned.publish (h : Owned taken held freeing live) (hheld : held t = some (p, r)) :
    Owned taken (Function.update held t none) freeing (Function.update live p (some r)) := by
  have hother : ∀ u q r', Function.update held t none u = some (q, r') →
      held u = some (q, r') ∧ u ≠ t := by
    intro u q r' hu
    by_cases hut : u = t
    · rw [hut, Function.update_self] at hu
      cases hu
    · rw [Function.update_of_ne hut] at hu
      exact ⟨hu, hut⟩
  refine ⟨fun q r' hq => ?_, fun u q r' hu => h.held_taken u q r' (hother u q r' hu).1,
    fun q r' hq => ?_, fun u q r' r'' hq hu => ?_, fun u u' q r' r'' hu hu' => ?_,
    fun u q hu => ?_, h.freeing_unique⟩
  · by_cases hqp : q = p
    · rw [hqp, Function.update_self] at hq
      cases hq
      rw [hqp]
      exact h.held_taken t p r hheld
    · rw [Function.update_of_ne hqp] at hq
      exact h.live_taken q r' hq
  · rcases h.owner q r' hq with hlive | ⟨u, hu⟩
    · have hqp : q ≠ p := by
        rintro rfl
        exact h.live_not_held t q r' r hlive hheld
      exact .inl (by rw [Function.update_of_ne hqp, hlive])
    · by_cases hut : u = t
      · rw [hut, hheld] at hu
        cases hu
        exact .inl (Function.update_self _ _ _)
      · exact .inr ⟨u, by rw [Function.update_of_ne hut, hu]⟩
  · obtain ⟨hu, hut⟩ := hother u q r'' hu
    have hqp : q ≠ p := by
      rintro rfl
      exact hut (h.held_unique u t q r'' r hu hheld)
    rw [Function.update_of_ne hqp] at hq
    exact h.live_not_held u q r' r'' hq hu
  · exact h.held_unique u u' q r' r'' (hother u q r' hu).1 (hother u' q r'' hu').1
  · obtain ⟨r', hr'⟩ := h.freeing_live u q hu
    have hqp : q ≠ p := by
      rintro rfl
      exact h.live_not_held t q r' r hr' hheld
    exact ⟨r', by rw [Function.update_of_ne hqp, hr']⟩

omit [DecidableEq α] in
/-- **A live block is to be given back** by one thread. -/
theorem Owned.request (h : Owned taken held freeing live) (hlive : live p = some r)
    (hnone : ∀ u, freeing u ≠ some p) :
    Owned taken held (Function.update freeing t (some p)) live := by
  refine ⟨h.live_taken, h.held_taken, h.owner, h.live_not_held, h.held_unique, fun u q hu => ?_,
    fun u u' q hu hu' => ?_⟩
  · by_cases hut : u = t
    · rw [hut, Function.update_self] at hu
      cases hu
      exact ⟨r, hlive⟩
    · rw [Function.update_of_ne hut] at hu
      exact h.freeing_live u q hu
  · by_cases hut : u = t
    · by_cases hut' : u' = t
      · rw [hut, hut']
      · rw [hut, Function.update_self] at hu
        cases hu
        rw [Function.update_of_ne hut'] at hu'
        exact absurd hu' (hnone u')
    · by_cases hut' : u' = t
      · rw [hut', Function.update_self] at hu'
        cases hu'
        rw [Function.update_of_ne hut] at hu
        exact absurd hu (hnone u)
      · rw [Function.update_of_ne hut] at hu
        rw [Function.update_of_ne hut'] at hu'
        exact h.freeing_unique u u' q hu hu'

end MyOs.Ownership
