import Mathlib.Data.Fin.VecNotation
import Mathlib.Data.Int.ConditionallyCompleteOrder
import MyOs.Lib.Preorder
import MyOs.Lib.Transition
import MyOs.Pstree.Definitions

/-!
# pstree — what is printed

`print_pro` looks for its process in the whole table and calls itself for each entry that
names it as the parent, so nothing of the recursion itself decreases. When no process is
its own ancestor it is a walk over a forest that comes to an end, and the pids tell the
entries apart.

* `printPro_of_visits` — the recursion prints the walk.
* `printPro_tree` — **what `print_pro` prints**: the process 1 and what is below it, once each.
* `printPro_proSort` — **what `pstree -n` prints** does not depend on the order of the table.
-/

namespace MyOs.Pstree

open MyOs.Preorder MyOs.Transition

variable {n : Nat} {pro : Table n}

-- ---------------------------------------------------------------------------
-- The parent relation
-- ---------------------------------------------------------------------------

/-- The pid of an entry. -/
def pidOf (pro : Table n) (i : Fin n) : Int := (pro i).pid

/-- `i` is the parent of `j`. -/
def IsParent (pro : Table n) (i j : Fin n) : Prop := (pro j).ppid = pidOf pro i

def withPid (pro : Table n) (id : Int) : List (Fin n) :=
  (List.finRange n).filter fun i => (pro i).pid = id

def withPpid (pro : Table n) (id : Int) : List (Fin n) :=
  (List.finRange n).filter fun j => (pro j).ppid = id

/-- The children of an entry, in the order of the table. -/
def children (pro : Table n) (i : Fin n) : List (Fin n) := withPpid pro (pidOf pro i)

theorem mem_withPid {id : Int} {i : Fin n} : i ∈ withPid pro id ↔ pidOf pro i = id := by
  simp [withPid, pidOf]

theorem mem_children {i j : Fin n} : j ∈ children pro i ↔ IsParent pro i j := by
  simp [children, withPpid, IsParent]

theorem child_eq : Child (children pro) = IsParent pro := by
  funext i j
  exact propext mem_children

theorem withPid_nodup (id : Int) : (withPid pro id).Nodup := (List.nodup_finRange n).filter _

/-- One entry at most has the pid. -/
theorem withPid_eq (hpids : Function.Injective (pidOf pro)) (i : Fin n) :
    withPid pro (pidOf pro i) = [i] := by
  refine List.perm_singleton.1 ((List.perm_ext_iff_of_nodup (withPid_nodup _) ?_).2 fun j => ?_)
  · exact List.nodup_singleton i
  · rw [mem_withPid, List.mem_singleton]
    exact hpids.eq_iff

theorem withPid_eq_nil {id : Int} (h : ∀ i, pidOf pro i ≠ id) : withPid pro id = [] :=
  List.eq_nil_iff_forall_not_mem.2 fun i hi => h i (mem_withPid.1 hi)

/-- A list of one entry at most meets any condition on its pairs. -/
theorem withPid_pairwise (hpids : Function.Injective (pidOf pro)) (id : Int)
    (r : Fin n → Fin n → Prop) : (withPid pro id).Pairwise r := by
  by_cases hid : ∃ i, pidOf pro i = id
  · obtain ⟨i, rfl⟩ := hid
    rw [withPid_eq hpids]
    exact List.pairwise_singleton r i
  · rw [withPid_eq_nil fun i hi => hid ⟨i, hi⟩]
    exact .nil

/-- Distinct pids and an acyclic parent relation make a forest. -/
theorem forest (hpids : Function.Injective (pidOf pro)) (hac : Acyclic (IsParent pro)) :
    Forest (children pro) := by
  refine ⟨?_, fun i i' j hi hi' => ?_, fun i => (List.nodup_finRange n).filter _⟩
  · rw [child_eq]
    exact hac
  · have hpid : pidOf pro i = pidOf pro i' := (mem_children.1 hi).symm.trans (mem_children.1 hi')
    exact hpids hpid

-- ---------------------------------------------------------------------------
-- The recursion
-- ---------------------------------------------------------------------------

/-- The line of an entry that is `d` deep. -/
def lineText (pro : Table n) (entry : Nat × Fin n) : List Char :=
  putTab entry.1 ++ (pro entry.2).name ++ ['\n']

/-- The lines of the entries that a walk meets. -/
def treeText (pro : Table n) (l : List (Nat × Fin n)) : List Char := l.flatMap (lineText pro)

/-- A loop that skips some of its entries. -/
theorem forEach_filter {α : Type*} (p : α → Prop) [DecidablePred p] (xs : List α)
    (body : α → Option (List Char)) :
    forEach xs (fun x => if p x then body x else some []) = forEach (xs.filter p) body := by
  induction xs with
  | nil => rfl
  | cons x xs ih =>
    rw [forEach, ih]
    by_cases hx : p x
    · rw [if_pos hx, List.filter_cons_of_pos (by simpa using hx), forEach]
    · rw [if_neg hx, List.filter_cons_of_neg (by simpa using hx)]
      cases forEach (xs.filter p) body <;> rfl

theorem printPro_succ (fuel : Nat) (id : Int) (depth : Nat) :
    printPro pro (fuel + 1) id depth = forEach (withPid pro id) fun i => do
      let below ← forEach (withPpid pro id) fun j => printPro pro fuel (pidOf pro j) (depth + 1)
      return lineText pro (depth, i) ++ below := by
  rw [printPro, withPid, withPpid, forEach_filter]
  simp only [forEach_filter]
  rfl

/-- **The recursion prints the walk** from the entries that it is called for. -/
theorem printPro_of_visits (hpids : Function.Injective (pidOf pro)) {d : Nat} {xs : List (Fin n)}
    {l : List (Nat × Fin n)} (h : Visits (children pro) d xs l) :
    ∃ fuel₀, ∀ fuel ≥ fuel₀,
      forEach xs (fun j => printPro pro fuel (pidOf pro j) d) = some (treeText pro l) := by
  induction h with
  | nil => exact ⟨0, fun _ _ => rfl⟩
  | @cons d i xs l l' _ _ ih ih' =>
    obtain ⟨k, hk⟩ := ih
    obtain ⟨k', hk'⟩ := ih'
    refine ⟨max (k + 1) k', fun fuel hfuel => ?_⟩
    obtain ⟨fuel, rfl⟩ : ∃ m, fuel = m + 1 := ⟨fuel - 1, by omega⟩
    have hnode : printPro pro (fuel + 1) (pidOf pro i) d
        = some (lineText pro (d, i) ++ treeText pro l) := by
      have hbelow := hk fuel (by omega)
      rw [children] at hbelow
      rw [printPro_succ, withPid_eq hpids, forEach, hbelow]
      simp [forEach]
    rw [forEach, hnode, hk' (fuel + 1) (by omega)]
    simp [treeText]

/-- The call of `main` prints the walk from the process 1. -/
theorem printPro_main (hpids : Function.Injective (pidOf pro)) {id : Int} {d : Nat}
    {l : List (Nat × Fin n)} (h : Visits (children pro) d (withPid pro id) l) :
    ∃ fuel₀, ∀ fuel ≥ fuel₀, printPro pro fuel id d = some (treeText pro l) := by
  by_cases hid : ∃ i, pidOf pro i = id
  · obtain ⟨i, rfl⟩ := hid
    rw [withPid_eq hpids] at h
    obtain ⟨k, hk⟩ := printPro_of_visits hpids h
    refine ⟨k, fun fuel hfuel => ?_⟩
    have hprint := hk fuel hfuel
    simpa [forEach] using hprint
  · have hnil := withPid_eq_nil fun i hi => hid ⟨i, hi⟩
    rw [hnil] at h
    cases h
    refine ⟨1, fun fuel hfuel => ?_⟩
    obtain ⟨fuel, rfl⟩ : ∃ m, fuel = m + 1 := ⟨fuel - 1, by omega⟩
    rw [printPro_succ, hnil]
    rfl

-- ---------------------------------------------------------------------------
-- What is printed
-- ---------------------------------------------------------------------------

/-- **What `print_pro` prints.** It comes to an end, and its lines are those of a preorder of
the process 1 and what is below it, each once and at its depth. -/
theorem printPro_tree (pro : Table n) (hpids : Function.Injective (pidOf pro))
    (hac : Acyclic (IsParent pro)) :
    ∃ l, (∃ fuel₀, ∀ fuel ≥ fuel₀, printPro pro fuel 1 0 = some (treeText pro l)) ∧
      Visits (children pro) 0 (withPid pro 1) l ∧ (l.map Prod.snd).Nodup ∧
      ∀ k i, (k, i) ∈ l ↔ ∃ r, pidOf pro r = 1 ∧ Below (children pro) k r i := by
  have hF : Forest (children pro) := forest hpids hac
  obtain ⟨l, hl⟩ := exists_visits (wellFounded_child hF.acyclic) 0 (withPid pro 1)
  refine ⟨l, printPro_main hpids hl, hl, hl.nodup hF (withPid_pairwise hpids 1 _), fun k i => ?_⟩
  rw [hl.mem_iff]
  constructor
  · rintro ⟨r, hr, m, rfl, hbelow⟩
    rw [Nat.zero_add]
    exact ⟨r, mem_withPid.1 hr, hbelow⟩
  · rintro ⟨r, hr, hbelow⟩
    exact ⟨r, mem_withPid.2 hr, k, (Nat.zero_add k).symm, hbelow⟩

/-- A login, out of order. -/
def login : Table 4 :=
  ![⟨71, "ls".toList, 52⟩, ⟨1, "systemd".toList, 0⟩, ⟨52, "bash".toList, 1⟩,
    ⟨2, "kthreadd".toList, 0⟩]

theorem login_pids : Function.Injective (pidOf login) := by decide

theorem login_acyclic : Acyclic (IsParent login) := by
  have hlt : ∀ i j, IsParent login i j → pidOf login i < pidOf login j := by
    unfold IsParent
    decide
  intro i hi
  have hlt' : ∀ j, Relation.TransGen (IsParent login) i j → pidOf login i < pidOf login j := by
    intro j hj
    induction hj with
    | single hparent => exact hlt _ _ hparent
    | tail _ hparent ih => exact ih.trans (hlt _ _ hparent)
  exact lt_irrefl _ (hlt' i hi)

theorem printPro_tree_login :
    ∃ l, (∃ fuel₀, ∀ fuel ≥ fuel₀, printPro login fuel 1 0 = some (treeText login l)) ∧
      Visits (children login) 0 (withPid login 1) l ∧ (l.map Prod.snd).Nodup ∧
      ∀ k i, (k, i) ∈ l ↔ ∃ r, pidOf login r = 1 ∧ Below (children login) k r i :=
  printPro_tree login login_pids login_acyclic

example : printPro login 4 1 0 = some "systemd\n  bash\n    ls\n".toList := by decide

-- ---------------------------------------------------------------------------
-- `pstree -n`
-- ---------------------------------------------------------------------------

/-- The order of the table does not matter for the parent relation. -/
theorem acyclic_comp_perm (hac : Acyclic (IsParent pro)) (σ : Equiv.Perm (Fin n)) :
    Acyclic (IsParent (pro ∘ σ)) :=
  fun i hi => hac (σ i) (hi.lift σ fun _ _ hparent => hparent)

theorem proSort_strictMono (hpids : Function.Injective (pidOf pro)) :
    StrictMono (pidOf (proSort pro)) := SelectionSort.sortFrom_strictMono hpids

theorem proSort_comp_perm (hpids : Function.Injective (pidOf pro)) (σ : Equiv.Perm (Fin n)) :
    proSort (pro ∘ σ) = proSort pro := SelectionSort.sortFrom_eq_of_perm hpids σ

/-- In a table in the order of the pids the walk meets siblings in that order. -/
theorem siblings_pairwise (hmono : StrictMono (pidOf pro)) (hac : Acyclic (IsParent pro))
    {l : List (Nat × Fin n)} (h : Visits (children pro) 0 (withPid pro 1) l) :
    (l.map Prod.snd).Pairwise fun i j =>
      (pro i).ppid = (pro j).ppid → pidOf pro i < pidOf pro j := by
  have hpids := hmono.injective
  have hF : Forest (children pro) := forest hpids hac
  have hroots := withPid_pairwise hpids 1
  have hchildren : ∀ i, (children pro i).Pairwise (pidOf pro · < pidOf pro ·) := fun i =>
    ((List.pairwise_lt_finRange n).imp fun hlt => hmono hlt).filter _
  have hsiblings := h.siblings hF (hroots _) (hroots _) hchildren
  have hnodup := h.nodup hF (hroots _)
  have hparent : ∀ i ∈ l.map Prod.snd, pidOf pro i ≠ 1 → ∃ k, IsParent pro k i := by
    intro i hi hne
    obtain ⟨r, hr, hreach⟩ := h.mem_nodes_iff.1 hi
    rcases Relation.ReflTransGen.cases_tail hreach with rfl | ⟨k, -, hk⟩
    · exact absurd (mem_withPid.1 hr) hne
    · exact ⟨k, mem_children.1 hk⟩
  refine (hsiblings.and hnodup).imp_of_mem fun {i j} hi hj ⟨hlt, hne⟩ hppid => ?_
  -- one of them is not the root, and its parent is the parent of both
  obtain ⟨k, hk⟩ : ∃ k, IsParent pro k i := by
    by_cases h1 : pidOf pro i = 1
    · obtain ⟨k, hk⟩ := hparent j hj fun h1' => hne (hpids (h1.trans h1'.symm))
      exact ⟨k, hppid.trans hk⟩
    · exact hparent i hi h1
  exact hlt k (mem_children.2 hk) (mem_children.2 (hppid.symm.trans hk))

/-- **What `pstree -n` prints** does not depend on the order of the table: it is the tree of
the given rows in another order, and siblings stand in the order of their pids. -/
theorem printPro_proSort (pro pro' : Table n) (hpids : Function.Injective (pidOf pro))
    (hac : Acyclic (IsParent pro)) (hperm : ∃ σ : Equiv.Perm (Fin n), pro' = pro ∘ σ) :
    (∃ τ : Equiv.Perm (Fin n), proSort pro = pro ∘ τ) ∧
    ∃ l, (∃ fuel₀, ∀ fuel ≥ fuel₀,
        printPro (proSort pro) fuel 1 0 = some (treeText (proSort pro) l) ∧
        printPro (proSort pro') fuel 1 0 = some (treeText (proSort pro) l)) ∧
      Visits (children (proSort pro)) 0 (withPid (proSort pro) 1) l ∧
      (l.map Prod.snd).Pairwise fun i j => (proSort pro i).ppid = (proSort pro j).ppid →
        pidOf (proSort pro) i < pidOf (proSort pro) j := by
  obtain ⟨σ, rfl⟩ := hperm
  obtain ⟨τ, hτ, -⟩ := SelectionSort.sortFrom_perm Process.pid pro 0
  have hmono := proSort_strictMono hpids
  have hac' : Acyclic (IsParent (proSort pro)) := by
    rw [proSort, hτ]
    exact acyclic_comp_perm hac τ
  have hF : Forest (children (proSort pro)) := forest hmono.injective hac'
  obtain ⟨l, hl⟩ := exists_visits (wellFounded_child hF.acyclic) 0 (withPid (proSort pro) 1)
  obtain ⟨k, hk⟩ := printPro_main hmono.injective hl
  refine ⟨⟨τ, hτ⟩, l, ⟨k, fun fuel hfuel => ?_⟩, hl, siblings_pairwise hmono hac' hl⟩
  rw [proSort_comp_perm hpids]
  exact ⟨hk fuel hfuel, hk fuel hfuel⟩

theorem printPro_proSort_login :
    (∃ τ : Equiv.Perm (Fin 4), proSort login = login ∘ τ) ∧
    ∃ l, (∃ fuel₀, ∀ fuel ≥ fuel₀,
        printPro (proSort login) fuel 1 0 = some (treeText (proSort login) l) ∧
        printPro (proSort (login ∘ Equiv.swap 0 2)) fuel 1 0
          = some (treeText (proSort login) l)) ∧
      Visits (children (proSort login)) 0 (withPid (proSort login) 1) l ∧
      (l.map Prod.snd).Pairwise fun i j => (proSort login i).ppid = (proSort login j).ppid →
        pidOf (proSort login) i < pidOf (proSort login) j :=
  printPro_proSort login (login ∘ Equiv.swap 0 2) login_pids login_acyclic ⟨_, rfl⟩

end MyOs.Pstree
