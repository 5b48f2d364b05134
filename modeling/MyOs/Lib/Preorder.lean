import Mathlib.Data.Fintype.Order
import Mathlib.Data.List.Nodup
import Mathlib.Data.List.Perm.Basic
import Mathlib.Logic.Relation
import Mathlib.Order.WellFounded

/-!
# Depth-first preorder

A relation between nodes and their children, given as a list of children for each node,
and the order in which a depth-first walk meets the nodes below some roots: a node first,
then what is below its first child, and so on. In a forest every node is met once.

* `exists_visits` — the walk of a well-founded relation comes to an end.
* `Visits.mem_iff` — it meets what is below the roots, at its depth.
* `Visits.nodup` — **it meets no node twice**, when no node is below itself or has two parents.
* `Visits.siblings` — it meets siblings in their order.
-/

namespace MyOs.Preorder

variable {α : Type*} {children : α → List α}

-- ---------------------------------------------------------------------------
-- The walk
-- ---------------------------------------------------------------------------

/-- A walk from the roots `xs`, which are `d` deep, meets these nodes at these depths. -/
inductive Visits (children : α → List α) : Nat → List α → List (Nat × α) → Prop
  | nil {d : Nat} : Visits children d [] []
  | cons {d : Nat} {x : α} {xs : List α} {l l' : List (Nat × α)} :
      Visits children (d + 1) (children x) l → Visits children d xs l' →
      Visits children d (x :: xs) ((d, x) :: (l ++ l'))

/-- `y` is a child of `x`. -/
def Child (children : α → List α) (x y : α) : Prop := y ∈ children x

/-- `y` is `k` generations below `x`. -/
inductive Below (children : α → List α) : Nat → α → α → Prop
  | zero {x : α} : Below children 0 x x
  | succ {k : Nat} {x y z : α} : y ∈ children x → Below children k y z →
      Below children (k + 1) x z

variable {d k : Nat} {x x' y z : α} {xs : List α} {l : List (Nat × α)}

theorem Below.reflTransGen (h : Below children k x y) :
    Relation.ReflTransGen (Child children) x y := by
  induction h with
  | zero => exact .refl
  | succ hchild _ ih => exact .head hchild ih

theorem exists_below (h : Relation.ReflTransGen (Child children) x y) :
    ∃ k, Below children k x y := by
  induction h using Relation.ReflTransGen.head_induction_on with
  | refl => exact ⟨0, .zero⟩
  | head hchild _ ih =>
    obtain ⟨k, hk⟩ := ih
    exact ⟨k + 1, .succ hchild hk⟩

/-- In a finite set no walk down is infinite when no node is below itself. -/
theorem wellFounded_child [Finite α] (h : ∀ x, ¬ Relation.TransGen (Child children) x x) :
    WellFounded fun y x => Child children x y := by
  let below : α → α → Prop := fun y x => Relation.TransGen (Child children) x y
  have : IsTrans α below := ⟨fun _ _ _ hxy hyz => hyz.trans hxy⟩
  have : Std.Irrefl below := ⟨h⟩
  exact Subrelation.wf .single (Finite.wellFounded_of_trans_of_irrefl below)

/-- **The walk** of a well-founded relation comes to an end. -/
theorem exists_visits (hwf : WellFounded fun y x => Child children x y) (d : Nat) (xs : List α) :
    ∃ l, Visits children d xs l := by
  have hlist : ∀ (d : Nat) (xs : List α),
      (∀ x ∈ xs, ∀ d, ∃ l, Visits children d (children x) l) → ∃ l, Visits children d xs l := by
    intro d xs hxs
    induction xs with
    | nil => exact ⟨[], .nil⟩
    | cons x xs ih =>
      obtain ⟨l, hl⟩ := hxs x List.mem_cons_self (d + 1)
      obtain ⟨l', hl'⟩ := ih fun x' hx' => hxs x' (List.mem_cons_of_mem x hx')
      exact ⟨_, .cons hl hl'⟩
  have hnode : ∀ x, ∀ d, ∃ l, Visits children d (children x) l := by
    intro x
    induction x using hwf.induction with
    | h x ih => exact fun d => hlist d _ fun y hy => ih y hy
  exact hlist d xs fun x _ => hnode x

/-- **The walk meets** what is below its roots, at its depth. -/
theorem Visits.mem_iff (h : Visits children d xs l) :
    (k, z) ∈ l ↔ ∃ x ∈ xs, ∃ m, k = d + m ∧ Below children m x z := by
  induction h generalizing k with
  | nil => simp
  | @cons d x xs l l' _ _ ih ih' =>
    rw [List.mem_cons, List.mem_append, ih, ih']
    constructor
    · rintro (heq | ⟨y, hy, m, rfl, hbelow⟩ | ⟨x', hx', m, rfl, hbelow⟩)
      · obtain ⟨rfl, rfl⟩ := Prod.mk.inj heq
        exact ⟨z, List.mem_cons_self, 0, rfl, .zero⟩
      · exact ⟨x, List.mem_cons_self, m + 1, by omega, .succ hy hbelow⟩
      · exact ⟨x', List.mem_cons_of_mem x hx', m, rfl, hbelow⟩
    · rintro ⟨x', hx', m, rfl, hbelow⟩
      rcases List.mem_cons.1 hx' with rfl | hx'
      · cases hbelow with
        | zero => exact .inl rfl
        | @succ m _ y _ hy hbelow => exact .inr (.inl ⟨y, hy, m, by omega, hbelow⟩)
      · exact .inr (.inr ⟨x', hx', m, rfl, hbelow⟩)

/-- The walk meets the nodes below its roots. -/
theorem Visits.mem_nodes_iff (h : Visits children d xs l) :
    z ∈ l.map Prod.snd ↔ ∃ x ∈ xs, Relation.ReflTransGen (Child children) x z := by
  rw [List.mem_map]
  constructor
  · rintro ⟨⟨k, z⟩, hmem, rfl⟩
    obtain ⟨x, hx, m, -, hbelow⟩ := h.mem_iff.1 hmem
    exact ⟨x, hx, hbelow.reflTransGen⟩
  · rintro ⟨x, hx, hreach⟩
    obtain ⟨m, hm⟩ := exists_below hreach
    exact ⟨(d + m, z), h.mem_iff.2 ⟨x, hx, m, rfl, hm⟩, rfl⟩

/-- The walk from the children of a node meets nodes below it. -/
theorem Visits.transGen (h : Visits children d (children x) l) (hz : z ∈ l.map Prod.snd) :
    Relation.TransGen (Child children) x z := by
  obtain ⟨y, hy, hreach⟩ := h.mem_nodes_iff.1 hz
  exact .head' hy hreach

-- ---------------------------------------------------------------------------
-- Forests
-- ---------------------------------------------------------------------------

/-- No node is below itself, has two parents, or is a child twice. -/
structure Forest (children : α → List α) : Prop where
  acyclic : ∀ x, ¬ Relation.TransGen (Child children) x x
  parent : ∀ x x' y, y ∈ children x → y ∈ children x' → x = x'
  nodup : ∀ x, (children x).Nodup

/-- Neither node is below the other one. -/
def Apart (children : α → List α) (x y : α) : Prop :=
  ¬ Relation.ReflTransGen (Child children) x y ∧ ¬ Relation.ReflTransGen (Child children) y x

/-- Nodes that are apart have nothing below them in common. -/
theorem Forest.disjoint (hF : Forest children) (h : Apart children x y)
    (hx : Relation.ReflTransGen (Child children) x z)
    (hy : Relation.ReflTransGen (Child children) y z) : False := by
  have hunique : Relator.RightUnique (Function.swap (Child children)) :=
    fun a b c hb hc => hF.parent b c a hb hc
  rw [← Relation.reflTransGen_swap] at hx hy
  rcases Relation.ReflTransGen.total_of_right_unique hunique hx hy with hxy | hyx
  · rw [Relation.reflTransGen_swap] at hxy
    exact h.2 hxy
  · rw [Relation.reflTransGen_swap] at hyx
    exact h.1 hyx

/-- Siblings are apart. -/
theorem Forest.children_apart (hF : Forest children) (x : α) :
    (children x).Pairwise (Apart children) := by
  have hnot : ∀ y ∈ children x, ∀ y' ∈ children x, y ≠ y' →
      ¬ Relation.ReflTransGen (Child children) y y' := by
    intro y hy y' hy' hne hreach
    rcases Relation.ReflTransGen.cases_tail hreach with rfl | ⟨w, hw, hchild⟩
    · exact hne rfl
    · -- the parent of `y'` is `x`, which is then below its child `y`
      obtain rfl := hF.parent x w y' hy' hchild
      exact hF.acyclic x (.head' hy hw)
  refine (hF.nodup x).imp_of_mem fun hy hy' hne => ?_
  exact ⟨hnot _ hy _ hy' hne, hnot _ hy' _ hy hne.symm⟩

/-- **No node is met twice** from roots that are apart. -/
theorem Visits.nodup (hF : Forest children) (h : Visits children d xs l)
    (hxs : xs.Pairwise (Apart children)) : (l.map Prod.snd).Nodup := by
  induction h with
  | nil => exact List.nodup_nil
  | @cons d x xs l l' hl hl' ih ih' =>
    obtain ⟨hapart, hrest⟩ := List.pairwise_cons.1 hxs
    rw [List.map_cons, List.map_append]
    have hother : ∀ z ∈ l'.map Prod.snd, ¬ Relation.ReflTransGen (Child children) x z := by
      intro z hz hreach
      obtain ⟨x', hx', hreach'⟩ := hl'.mem_nodes_iff.1 hz
      exact hF.disjoint (hapart x' hx') hreach hreach'
    refine List.nodup_cons.2 ⟨fun hmem => ?_, List.nodup_append.2
      ⟨ih (hF.children_apart x), ih' hrest, fun z hz z' hz' heq => ?_⟩⟩
    · rcases List.mem_append.1 hmem with hmem | hmem
      · exact hF.acyclic x (hl.transGen hmem)
      · exact hother x hmem .refl
    · subst heq
      exact hother z hz' (hl.transGen hz).to_reflTransGen

/-- A node below one of two roots that are apart has no sibling below the other one. -/
theorem Forest.siblings_apart {y' w : α} (hF : Forest children) (h : Apart children x x')
    (hy : y ∈ children w) (hy' : y' ∈ children w)
    (hreach : Relation.TransGen (Child children) x y)
    (hreach' : Relation.ReflTransGen (Child children) x' y') : False := by
  obtain ⟨v, hv, hchild⟩ := Relation.TransGen.tail'_iff.1 hreach
  obtain rfl := hF.parent w v y hy hchild
  exact hF.disjoint h (hv.tail hy') hreach'

/-- **Siblings are met in their order**, from roots that are apart. -/
theorem Visits.siblings {r : α → α → Prop} (hF : Forest children) (h : Visits children d xs l)
    (hxs : xs.Pairwise (Apart children)) (hr : xs.Pairwise r)
    (hchildren : ∀ x, (children x).Pairwise r) :
    (l.map Prod.snd).Pairwise fun y z => ∀ w, y ∈ children w → z ∈ children w → r y z := by
  induction h with
  | nil => exact .nil
  | @cons d x xs l l' hl hl' ih ih' =>
    obtain ⟨hapart, hxs⟩ := List.pairwise_cons.1 hxs
    obtain ⟨hrx, hr⟩ := List.pairwise_cons.1 hr
    rw [List.map_cons, List.map_append]
    refine List.pairwise_cons.2 ⟨fun z hz w hx hz' => ?_, List.pairwise_append.2
      ⟨ih (hF.children_apart x) (hchildren x), ih' hxs hr, fun y hy z hz w hy' hz' => ?_⟩⟩
    · rcases List.mem_append.1 hz with hz | hz
      · -- the parent of `z` is `x` or below `x`, and `x` would be its child
        obtain ⟨v, hv, hchild⟩ := Relation.TransGen.tail'_iff.1 (hl.transGen hz)
        obtain rfl := hF.parent w v z hz' hchild
        exact absurd (.tail' hv hx) (hF.acyclic x)
      · obtain ⟨x', hx', hreach⟩ := hl'.mem_nodes_iff.1 hz
        rcases Relation.reflTransGen_iff_eq_or_transGen.1 hreach with rfl | hreach
        · exact hrx z hx'
        · have hcomm : Apart children x' x := ⟨(hapart x' hx').2, (hapart x' hx').1⟩
          exact (hF.siblings_apart hcomm hz' hx hreach .refl).elim
    · obtain ⟨x', hx', hreach⟩ := hl'.mem_nodes_iff.1 hz
      exact (hF.siblings_apart (hapart x' hx') hy' hz' (hl.transGen hy) hreach).elim

end MyOs.Preorder
