import Mathlib.Logic.Relation
import Mathlib.Data.Fintype.Order
import Mathlib.Order.WellFounded

/-!
# Transition systems

Runs of a labelled transition system, the induction that carries an invariant
along them, and the finiteness argument behind deadlock freedom: following an
acyclic relation inside a finite set comes to an end.

* `Reach` / `Reach.invariant` — reachable states and the invariant rule.
* `Recording` / `Reach.record` — a history variable can be added to every run.
* `Run` — finite runs that keep every state and label.
* `exists_terminal` — an acyclic relation on a finite set has a terminal element
  below every element.
-/

namespace MyOs.Transition

variable {σ α : Type*}

/-! ## Reachable states -/

/-- The states reached from an initial state by `step`. -/
inductive Reach (init : σ → Prop) (step : σ → α → σ → Prop) : σ → Prop
  | init {s : σ} : init s → Reach init step s
  | step {s s' : σ} {a : α} : Reach init step s → step s a s' → Reach init step s'

/-- A step relation that only takes the steps `ok` allows. -/
def Restrict (step : σ → α → σ → Prop) (ok : σ → α → σ → Prop) (s : σ) (a : α) (s' : σ) : Prop :=
  step s a s' ∧ ok s a s'

/-- **Invariant rule.** What holds initially and is kept by every step from a
reachable state holds in every reachable state. -/
theorem Reach.invariant {init : σ → Prop} {step : σ → α → σ → Prop} {I : σ → Prop}
    (hInit : ∀ s, init s → I s)
    (hStep : ∀ s a s', Reach init step s → I s → step s a s' → I s')
    {s : σ} (h : Reach init step s) : I s := by
  induction h with
  | init h0 => exact hInit _ h0
  | step hr hs ih => exact hStep _ _ _ hr ih hs

/-- Fewer steps reach fewer states. -/
theorem Reach.mono {init : σ → Prop} {step step' : σ → α → σ → Prop}
    (hle : ∀ s a s', step s a s' → step' s a s')
    {s : σ} (h : Reach init step s) : Reach init step' s := by
  induction h with
  | init h0 => exact .init h0
  | step _ hs ih => exact .step ih (hle _ _ _ hs)

/-- A restricted run is a run. -/
theorem Reach.of_restrict {init : σ → Prop} {step : σ → α → σ → Prop} {ok : σ → α → σ → Prop}
    {s : σ} (h : Reach init (Restrict step ok) s) : Reach init step s :=
  h.mono fun _ _ _ hs => hs.1

/-! ## History variables -/

/-- A step that also writes to a history variable, which no step reads. -/
def Recording {η : Type*} (write : α → η → η) (step : σ → α → σ → Prop) (x : σ × η) (a : α)
    (x' : σ × η) : Prop :=
  step x.1 a x'.1 ∧ x'.2 = write a x.2

/-- **Every run can be recorded.** -/
theorem Reach.record {η : Type*} {init : σ → Prop} {step : σ → α → σ → Prop} {s : σ}
    (h : Reach init step s) (write : α → η → η) (y₀ : η) :
    ∃ y, Reach (fun x => init x.1) (Recording write step) (s, y) := by
  induction h with
  | init h0 => exact ⟨y₀, .init h0⟩
  | @step s s' a _ hs ih =>
    obtain ⟨y, hy⟩ := ih
    exact ⟨write a y, hy.step ⟨hs, rfl⟩⟩

/-! ## Runs with their trace -/

/-- A finite run. The trace lists the state before each step and its label. -/
inductive Run (step : σ → α → σ → Prop) : σ → List (σ × α) → σ → Prop
  | nil (s : σ) : Run step s [] s
  | cons {s s' s'' : σ} {a : α} {tr : List (σ × α)} :
      step s a s' → Run step s' tr s'' → Run step s ((s, a) :: tr) s''

/-! ## Following an acyclic relation -/

/-- No element reaches itself in one or more steps. -/
def Acyclic (R : σ → σ → Prop) : Prop := ∀ x, ¬ Relation.TransGen R x x

/-- From every element, an acyclic relation whose targets lie in a finite set
leads to an element without successor. -/
theorem exists_terminal {R : σ → σ → Prop} (hac : Acyclic R) {S : Set σ} (hfin : S.Finite)
    (hS : ∀ x y, R x y → y ∈ S) (x : σ) :
    ∃ z, Relation.ReflTransGen R x z ∧ ∀ w, ¬ R z w := by
  by_cases hx : ∃ y, R x y
  · -- the elements reached from `x` are a nonempty part of the finite set `S`
    obtain ⟨y, hxy⟩ := hx
    have : Finite S := hfin
    let below : S → S → Prop := fun a b => Relation.TransGen R b.1 a.1
    have : IsTrans S below := ⟨fun _ _ _ hab hbc => hbc.trans hab⟩
    have : Std.Irrefl below := ⟨fun a => hac a.1⟩
    have hwf : WellFounded below := Finite.wellFounded_of_trans_of_irrefl below
    let T : Set S := {a | Relation.ReflTransGen R x a.1}
    have hT : T.Nonempty := ⟨⟨y, hS x y hxy⟩, .single hxy⟩
    obtain ⟨z, hz, hmin⟩ := hwf.has_min T hT
    refine ⟨z.1, hz, fun w hzw => ?_⟩
    exact hmin ⟨w, hS _ _ hzw⟩ (hz.tail hzw) (.single hzw)
  · exact ⟨x, .refl, fun w hw => hx ⟨w, hw⟩⟩

end MyOs.Transition
