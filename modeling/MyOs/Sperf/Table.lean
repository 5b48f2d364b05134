import Mathlib.Data.Fin.Tuple.Sort
import Mathlib.Data.Fintype.Fin
import Mathlib.Algebra.Order.BigOperators.Group.List
import Mathlib.Tactic.Linarith
import MyOs.Sperf.Definitions

/-!
# sperf — the totals of the table

The table holds the time of every name, in its first entries, over any run of
`call_add` and `call_print_top5`. The lookup of `call_add` stops at the first entry
without a name; the sort by time moves no such entry to the front, since all
times are positive.

* `callAdd_known`, `callAdd_new` — the lookup finds the entry of the name, or the first
  free one.
* `Kept.callAdd` — with the call the table says what has been added.
* `Kept.callSort` — the sort keeps the table exact.
-/

namespace MyOs.Sperf

variable {ops : List Op} {op : Op} {calls : Calls} {name : Name} {us : ℚ}

-- ---------------------------------------------------------------------------
-- What has been added
-- ---------------------------------------------------------------------------

theorem names_append_add : names (ops ++ [.add name us]) = insert name (names ops) := by
  ext nm
  simp [names, Op.name?, eq_comm]

theorem names_append_print : names (ops ++ [.print]) = names ops := by
  have hnil : [Op.print].filterMap Op.name? = [] := rfl
  rw [names, List.filterMap_append, hnil, List.append_nil, names]

theorem names_subset_append : names ops ⊆ names (ops ++ [op]) := by
  intro nm hnm
  simp only [names, List.filterMap_append, List.toFinset_append, Finset.mem_union]
  exact .inl hnm

theorem total_append (nm : Name) : total (ops ++ [op]) nm = total ops nm + op.time nm := by
  simp [total]

theorem total_append_add_self :
    total (ops ++ [.add name us]) name = total ops name + us := by
  rw [total_append, Op.time, if_pos rfl]

theorem total_append_add_of_ne {nm : Name} (h : name ≠ nm) :
    total (ops ++ [.add name us]) nm = total ops nm := by
  rw [total_append, Op.time, if_neg h, add_zero]

theorem total_append_print (nm : Name) : total (ops ++ [.print]) nm = total ops nm := by
  rw [total_append, Op.time, add_zero]

theorem Admissible.of_append (h : Admissible (ops ++ [op])) : Admissible ops := by
  refine ⟨fun nm us hmem => h.pos nm us (List.mem_append_left _ hmem), ?_⟩
  exact (Finset.card_le_card names_subset_append).trans h.fits

theorem Admissible.of_prefix {pre : List Op} (h : Admissible ops) (hpre : pre <+: ops) :
    Admissible pre := by
  obtain ⟨suf, rfl⟩ := hpre
  induction suf using List.reverseRecOn with
  | nil => rwa [List.append_nil] at h
  | append_singleton suf op ih =>
    rw [← List.append_assoc] at h
    exact ih h.of_append

theorem total_eq_zero (h : name ∉ names ops) : total ops name = 0 := by
  induction ops using List.reverseRecOn with
  | nil => rfl
  | append_singleton ops op ih =>
    rw [total_append, ih fun hmem => h (names_subset_append hmem), zero_add]
    cases op with
    | add name' us =>
      rw [names_append_add, Finset.mem_insert, not_or] at h
      exact if_neg (Ne.symm h.1)
    | print => rfl

/-- A name that has been added has a positive time. -/
theorem total_pos (h : Admissible ops) (hmem : name ∈ names ops) : 0 < total ops name := by
  induction ops using List.reverseRecOn with
  | nil => simp [names] at hmem
  | append_singleton ops op ih =>
    cases op with
    | print =>
      rw [names_append_print] at hmem
      rw [total_append_print]
      exact ih h.of_append hmem
    | add name' us =>
      have hus : 0 < us := h.pos name' us (by simp)
      by_cases hname : name' = name
      · subst hname
        rw [total_append_add_self]
        by_cases hold : name' ∈ names ops
        · linarith [ih h.of_append hold]
        · rwa [total_eq_zero hold, zero_add]
      · rw [total_append_add_of_ne hname]
        rw [names_append_add, Finset.mem_insert] at hmem
        exact ih h.of_append (hmem.resolve_left (Ne.symm hname))

-- ---------------------------------------------------------------------------
-- The lookup
-- ---------------------------------------------------------------------------

/-- The entries from `s` to `i` have other names, so the lookup goes on to `i`. -/
theorem callAddFrom_skip (us : ℚ) (s d : Nat) (hi : s + d ≤ callSz)
    (hskip : ∀ j : Fin callSz, s ≤ j.val → j.val < s + d →
      ∃ nm, (calls j).name = some nm ∧ nm ≠ name) :
    callAddFrom calls name us s = callAddFrom calls name us (s + d) := by
  induction d generalizing s with
  | zero => rfl
  | succ d ih =>
    have hs : s < callSz := by omega
    obtain ⟨nm, hnm, hne⟩ := hskip ⟨s, hs⟩ le_rfl (by simp)
    have hnext : s + (d + 1) = s + 1 + d := by omega
    rw [callAddFrom, dif_pos hs]
    simp only [hnm, if_neg hne]
    rw [hnext] at hi hskip ⊢
    exact ih (s + 1) hi fun j hj => hskip j (Nat.le_of_succ_le hj)

theorem callAdd_eq_from {i : Fin callSz}
    (hbefore : ∀ j < i, ∃ nm, (calls j).name = some nm ∧ nm ≠ name) :
    callAdd calls name us = callAddFrom calls name us i := by
  have hskip := callAddFrom_skip us 0 i.val (by omega) fun j _ hj =>
    hbefore j (by simpa using hj)
  rwa [Nat.zero_add] at hskip

/-- The name is in the table: its time grows. -/
theorem callAdd_known {i : Fin callSz} (hi : (calls i).name = some name)
    (hbefore : ∀ j < i, ∃ nm, (calls j).name = some nm ∧ nm ≠ name) :
    callAdd calls name us =
      .ok (Function.update calls i { calls i with us := (calls i).us + us }) := by
  rw [callAdd_eq_from hbefore, callAddFrom, dif_pos i.isLt]
  simp only [Fin.eta, hi, if_true]

/-- The name is not in the table: it gets the first free entry. -/
theorem callAdd_new {i : Fin callSz} (hi : (calls i).name = none)
    (hbefore : ∀ j < i, ∃ nm, (calls j).name = some nm ∧ nm ≠ name) :
    callAdd calls name us = .ok (Function.update calls i { name := some name, us }) := by
  rw [callAdd_eq_from hbefore, callAddFrom, dif_pos i.isLt]
  simp only [Fin.eta, hi]

-- ---------------------------------------------------------------------------
-- The invariant
-- ---------------------------------------------------------------------------

/-- The table is exact, and an entry without a name has no time. -/
structure Kept (ops : List Op) (calls : Calls) : Prop extends Exact ops calls where
  unused : ∀ i, (calls i).name = none → (calls i).us = 0

theorem Kept.init : Kept [] Calls.init := by
  refine ⟨⟨fun i => ?_, fun i j nm h => ?_, fun nm => ?_, fun i nm h => ?_⟩, fun i _ => rfl⟩
  · simp [Calls.init, names]
  · cases h
  · simp [Calls.init, names]
  · cases h

/-- The entries with a name are those with a positive time. -/
theorem Kept.named_iff_pos (h : Kept ops calls) (hops : Admissible ops) (i : Fin callSz) :
    (calls i).name ≠ none ↔ 0 < (calls i).us := by
  cases hi : (calls i).name with
  | none => simp [h.unused i hi]
  | some nm =>
    have hmem : nm ∈ names ops := (h.mem_iff nm).2 ⟨i, hi⟩
    simp [h.us_eq i nm hi, total_pos hops hmem]

/-- The time of a name in the table grows. -/
theorem Kept.grow {i : Fin callSz} (h : Kept ops calls) (hi : (calls i).name = some name) :
    Kept (ops ++ [.add name us])
      (Function.update calls i { calls i with us := (calls i).us + us }) := by
  have hnames : names (ops ++ [.add name us]) = names ops := by
    rw [names_append_add, Finset.insert_eq_of_mem ((h.mem_iff name).2 ⟨i, hi⟩)]
  have hname : ∀ j, (Function.update calls i { calls i with us := (calls i).us + us } j).name =
      (calls j).name := by
    intro j
    by_cases hj : j = i
    · subst hj
      simp
    · rw [Function.update_of_ne hj]
  refine ⟨⟨fun j => ?_, fun j k nm => ?_, fun nm => ?_, fun j nm hj => ?_⟩, fun j hj => ?_⟩
  · rw [hname, hnames]
    exact h.named_iff j
  · rw [hname, hname]
    exact h.distinct j k nm
  · simp only [hname, hnames]
    exact h.mem_iff nm
  · rw [hname] at hj
    by_cases hji : j = i
    · subst hji
      obtain rfl : name = nm := Option.some.inj (hi.symm.trans hj)
      rw [Function.update_self, total_append_add_self, h.us_eq j name hj]
    · have hne : name ≠ nm := fun heq => hji (h.distinct j i nm hj (heq ▸ hi))
      rw [Function.update_of_ne hji, total_append_add_of_ne hne]
      exact h.us_eq j nm hj
  · rw [hname] at hj
    have hji : j ≠ i := by
      rintro rfl
      rw [hi] at hj
      cases hj
    rw [Function.update_of_ne hji]
    exact h.unused j hj

/-- A new name gets the first entry behind the others. -/
theorem Kept.append {i : Fin callSz} (h : Kept ops calls) (hi : i.val = (names ops).card)
    (hnew : name ∉ names ops) :
    Kept (ops ++ [.add name us]) (Function.update calls i { name := some name, us }) := by
  have hcard : (names (ops ++ [.add name us])).card = i.val + 1 := by
    rw [names_append_add, Finset.card_insert_of_notMem hnew, hi]
  have hnone : (calls i).name = none := by
    by_contra hne
    exact absurd ((h.named_iff i).1 hne) (by omega)
  have hother : ∀ j, (calls j).name ≠ some name := fun j hj => hnew ((h.mem_iff name).2 ⟨j, hj⟩)
  have hself : ∀ j nm, (Function.update calls i { name := some name, us } j).name = some nm ↔
      (j = i ∧ name = nm) ∨ (calls j).name = some nm := by
    intro j nm
    by_cases hj : j = i
    · subst hj
      simp [hnone]
    · simp [hj]
  refine ⟨⟨fun j => ?_, fun j k nm hj hk => ?_, fun nm => ?_, fun j nm hj => ?_⟩, fun j hj => ?_⟩
  · rw [hcard]
    by_cases hj : j = i
    · subst hj
      simp
    · have hjv : j.val ≠ i.val := fun heq => hj (Fin.ext heq)
      rw [Function.update_of_ne hj, h.named_iff j]
      omega
  · rw [hself] at hj hk
    rcases hj with ⟨rfl, rfl⟩ | hj
    · rcases hk with ⟨rfl, -⟩ | hk
      · rfl
      · exact absurd hk (hother k)
    · rcases hk with ⟨rfl, rfl⟩ | hk
      · exact absurd hj (hother j)
      · exact h.distinct j k nm hj hk
  · simp only [hself, names_append_add, Finset.mem_insert, h.mem_iff nm]
    constructor
    · rintro (rfl | ⟨j, hj⟩)
      · exact ⟨i, .inl ⟨rfl, rfl⟩⟩
      · exact ⟨j, .inr hj⟩
    · rintro ⟨j, ⟨-, rfl⟩ | hj⟩
      · exact .inl rfl
      · exact .inr ⟨j, hj⟩
  · rcases (hself j nm).1 hj with ⟨rfl, rfl⟩ | hold
    · rw [Function.update_self, total_append_add_self, total_eq_zero hnew, zero_add]
    · have hne : name ≠ nm := fun heq => hother j (heq ▸ hold)
      have hji : j ≠ i := by
        rintro rfl
        rw [hnone] at hold
        cases hold
      rw [Function.update_of_ne hji, total_append_add_of_ne hne]
      exact h.us_eq j nm hold
  · have hji : j ≠ i := by
      rintro rfl
      rw [Function.update_self] at hj
      cases hj
    rw [Function.update_of_ne hji] at hj ⊢
    exact h.unused j hj

/-- **`call_add`.** -/
theorem Kept.callAdd (h : Kept ops calls) (hops : Admissible (ops ++ [.add name us])) :
    ∃ calls', Sperf.callAdd calls name us = .ok calls' ∧
      Kept (ops ++ [.add name us]) calls' := by
  by_cases hmem : name ∈ names ops
  · -- the name has the entry `i`, and the entries before it are other names
    obtain ⟨i, hi⟩ := (h.mem_iff name).1 hmem
    refine ⟨_, callAdd_known hi fun j hj => ?_, h.grow hi⟩
    have hnamed : (calls j).name ≠ none :=
      (h.named_iff j).2 (Nat.lt_trans hj ((h.named_iff i).1 (by simp [hi])))
    obtain ⟨nm, hnm⟩ := Option.ne_none_iff_exists'.1 hnamed
    exact ⟨nm, hnm, fun heq => hj.ne (h.distinct j i name (heq ▸ hnm) hi)⟩
  · -- the entry behind the names is free
    have hlt : (names ops).card < callSz := by
      have hfits := hops.fits
      rw [names_append_add, Finset.card_insert_of_notMem hmem] at hfits
      omega
    refine ⟨_, callAdd_new (i := ⟨_, hlt⟩) ?_ fun j hj => ?_, h.append rfl hmem⟩
    · by_contra hne
      exact Nat.lt_irrefl _ ((h.named_iff _).1 hne)
    · obtain ⟨nm, hnm⟩ := Option.ne_none_iff_exists'.1 ((h.named_iff j).2 hj)
      exact ⟨nm, hnm, fun heq => hmem ((h.mem_iff name).2 ⟨j, heq ▸ hnm⟩)⟩

-- ---------------------------------------------------------------------------
-- The sort
-- ---------------------------------------------------------------------------

theorem callSort_perm (calls : Calls) :
    ∃ σ : Equiv.Perm (Fin callSz), callSort calls = calls ∘ σ := by
  obtain ⟨σ, hσ, -⟩ := ExchangeSort.sortFrom_perm Call.us calls 0
  exact ⟨σ, hσ⟩

theorem callSort_antitone (calls : Calls) : Antitone fun i => (callSort calls i).us :=
  ExchangeSort.sortFrom_antitone

/-- As many entries have a positive time as there are names. -/
theorem Kept.card_pos (h : Kept ops calls) (hops : Admissible ops) :
    (Finset.univ.filter fun i => 0 < (calls i).us).card = (names ops).card := by
  have hfilter : (Finset.univ.filter fun i => 0 < (calls i).us) =
      Finset.univ.filter fun i => i.val < (names ops).card :=
    Finset.filter_congr fun i _ => by rw [← h.named_iff_pos hops i, h.named_iff i]
  rw [hfilter, Fin.card_filter_val_lt, Nat.min_eq_right hops.fits]

/-- **Sort.** The table stays exact: since no entry without a name has a positive time, none
comes before a name. -/
theorem Kept.callSort (h : Kept ops calls) (hops : Admissible ops) :
    Kept ops (Sperf.callSort calls) := by
  have hanti := callSort_antitone calls
  obtain ⟨σ, hσ⟩ := callSort_perm calls
  rw [hσ] at hanti ⊢
  refine ⟨⟨fun i => ?_, fun i j nm hi hj => ?_, fun nm => ?_, fun i nm hi => ?_⟩, fun i hi => ?_⟩
  · have hcard : (Finset.univ.filter fun i => 0 < ((calls ∘ σ) i).us).card =
        (names ops).card := by
      rw [← h.card_pos hops]
      exact Finset.card_bijective σ σ.bijective fun i => by simp
    rw [← hcard]
    exact (h.named_iff_pos hops (σ i)).trans
      (Tuple.lt_card_gt_iff_apply_gt_of_antitone hanti).symm
  · exact σ.injective (h.distinct _ _ nm hi hj)
  · rw [h.mem_iff nm]
    exact σ.surjective.exists
  · exact h.us_eq (σ i) nm hi
  · exact h.unused (σ i) hi

end MyOs.Sperf
