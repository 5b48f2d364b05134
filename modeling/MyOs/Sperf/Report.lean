import MyOs.Lib.Shares
import MyOs.Sperf.Table

/-!
# sperf — the report

`call_print_top5` prints the names with the most time, with their rounded shares of the
total. Since every named entry has a positive time, the total is zero only for a table
without names, and then no ratio is computed.

* `callTot_eq` — `tot` is the time of all names.
* `printFrom_eq` — the loop prints the first entries.
* `callPrintTop5_spec` — the report of an exact table.
* `run_kept` — a run keeps the table exact.
* `run_exact` — **exact totals**.
* `run_topFive` — **true top five**.
-/

namespace MyOs.Sperf

variable {ops : List Op} {op : Op} {calls : Calls} {name : Name} {us tot : ℚ}

-- ---------------------------------------------------------------------------
-- The total
-- ---------------------------------------------------------------------------

/-- The entry `i` comes to those behind it. -/
theorem sum_from {n : Nat} (f : Fin n → ℚ) (i : Fin n) :
    ∑ j with i.val ≤ j.val, f j = f i + ∑ j with i.val + 1 ≤ j.val, f j := by
  have hinsert : (Finset.univ.filter fun j : Fin n => i.val ≤ j.val) =
      insert i (Finset.univ.filter fun j : Fin n => i.val + 1 ≤ j.val) := by
    ext j
    simp only [Finset.mem_filter_univ, Finset.mem_insert, Fin.ext_iff]
    omega
  rw [hinsert, Finset.sum_insert (by simp)]

/-- What an entry adds to `tot`. -/
def Call.named (call : Call) : ℚ := if call.name ≠ none then call.us else 0

/-- The loop adds the named entries from `i` on. -/
theorem callTotFrom_eq (i : Nat) :
    callTotFrom calls tot i = tot + ∑ j with i ≤ j.val, (calls j).named := by
  induction tot, i using callTotFrom.induct calls with
  | case1 tot i hi call ih =>
    rw [callTotFrom, dif_pos hi]
    refine ih.trans ?_
    rw [sum_from _ ⟨i, hi⟩, ← add_assoc]
    congr 1
    by_cases hname : call.name ≠ none
    · rw [dif_pos hname, Call.named, if_pos hname]
    · rw [dif_neg hname, Call.named, if_neg hname, add_zero]
  | case2 tot i hi =>
    rw [callTotFrom, dif_neg hi]
    have hempty : (Finset.univ.filter fun j : Fin callSz => i ≤ j.val) = ∅ :=
      Finset.filter_false_of_mem fun j _ h => hi (Nat.lt_of_le_of_lt h j.isLt)
    rw [hempty, Finset.sum_empty, add_zero]

/-- The names in the order of the table. -/
theorem Exact.exists_name (h : Exact ops calls) :
    ∃ nm : Fin callSz → Name, ∀ i, i.val < (names ops).card → (calls i).name = some (nm i) := by
  refine ⟨fun i => (calls i).name.getD ⟨[], List.not_mem_nil⟩, fun i hi => ?_⟩
  obtain ⟨name, hname⟩ := Option.ne_none_iff_exists'.1 ((h.named_iff i).2 hi)
  simp only [hname, Option.getD_some]

/-- **Total.** `tot` is the time that has been added for all names. -/
theorem callTot_eq (h : Exact ops calls) : callTot calls = grandTotal ops := by
  obtain ⟨nm, hnm⟩ := h.exists_name
  have himage : names ops =
      (Finset.univ.filter fun i : Fin callSz => i.val < (names ops).card).image nm := by
    ext name
    simp only [Finset.mem_image, Finset.mem_filter_univ]
    constructor
    · intro hname
      obtain ⟨i, hi⟩ := (h.mem_iff name).1 hname
      have hlt : i.val < (names ops).card := (h.named_iff i).1 (by simp [hi])
      exact ⟨i, hlt, Option.some.inj ((hnm i hlt).symm.trans hi)⟩
    · rintro ⟨i, hlt, rfl⟩
      exact (h.mem_iff _).2 ⟨i, hnm i hlt⟩
  have hinj : Set.InjOn nm {i : Fin callSz | i.val < (names ops).card} := by
    intro i hi j hj heq
    exact h.distinct i j (nm i) (hnm i hi) (heq ▸ hnm j hj)
  have htot : callTot calls = ∑ i with i.val < (names ops).card, (calls i).us := by
    rw [callTot, callTotFrom_eq, zero_add, Finset.filter_true_of_mem fun _ _ => Nat.zero_le _]
    simp only [Call.named, h.named_iff, Finset.sum_filter]
  unfold grandTotal
  rw [htot, himage, Finset.sum_image (by simpa using hinj), ← himage]
  refine Finset.sum_congr rfl fun i hi => ?_
  exact h.us_eq i _ (hnm i (Finset.mem_filter_univ i |>.1 hi))

-- ---------------------------------------------------------------------------
-- The lines
-- ---------------------------------------------------------------------------

/-- The ratio of a part of the total is its share, rounded down. -/
theorem callRatio_eq (hus : 0 ≤ us) (hle : us ≤ tot) (htot : 0 < tot) :
    callRatio us tot = .ok (Shares.share 100 us tot) := by
  have hnonneg : 0 ≤ us * 100 / tot := div_nonneg (mul_nonneg hus (by norm_num)) htot.le
  have hfloor : ⌊us * 100 / tot⌋ = Shares.share 100 us tot := by
    rw [Shares.share, mul_comm us, Nat.cast_ofNat]
  have h0 : 0 ≤ Shares.share 100 us tot := Shares.share_nonneg hus htot.le
  have h100 : Shares.share 100 us tot ≤ 100 := Shares.share_le hle htot
  rw [callRatio, if_neg htot.ne', toInt, if_pos hnonneg, hfloor]
  exact if_pos ⟨by omega, by omega⟩

/-- **Lines.** With the first `k` entries named, the loop prints them up to the fifth one. -/
theorem printFrom_eq (tot : ℚ) {k : Nat} (line : Fin callSz → Line)
    (hname : ∀ j : Fin callSz, j.val < k → (calls j).name = some (line j).name)
    (hnone : ∀ j : Fin callSz, k ≤ j.val → (calls j).name = none)
    (hratio : ∀ j : Fin callSz, j.val < k → callRatio (calls j).us tot = .ok (line j).ratio)
    (m i : Nat) (him : i + m = min 5 k) (hm : min 5 k ≤ callSz) :
    printFrom calls tot i =
      .ok ((List.finRange m).map fun j : Fin m => line ⟨i + j.val, by omega⟩) := by
  induction m generalizing i with
  | zero =>
    rw [printFrom]
    by_cases hi : i < 5
    · simp [hi, hnone ⟨i, Nat.lt_trans hi (by decide)⟩ (by simp only; omega)]
    · simp [hi]
  | succ m ih =>
    have hi : i < 5 := by omega
    have hk : i < k := by omega
    rw [printFrom, dif_pos hi]
    simp only [hname ⟨i, Nat.lt_trans hi (by decide)⟩ hk,
      hratio ⟨i, Nat.lt_trans hi (by decide)⟩ hk, ok_bind, ih (i + 1) (by omega)]
    simp [List.finRange_succ, Function.comp_def, Nat.add_assoc, Nat.add_comm 1]

-- ---------------------------------------------------------------------------
-- The report of an exact table
-- ---------------------------------------------------------------------------

theorem grandTotal_pos (h : Admissible ops) (hne : (names ops).Nonempty) : 0 < grandTotal ops :=
  Finset.sum_pos (fun _ hname => total_pos h hname) hne

theorem total_le_grandTotal (h : Admissible ops) (hname : name ∈ names ops) :
    total ops name ≤ grandTotal ops :=
  Shares.part_le_sum (fun _ hnm => (total_pos h hnm).le) hname

/-- Some names with their shares: together they have at most 100 percent. -/
theorem ratio_sum_le {lines : List Line} (h : Admissible ops)
    (hnodup : (lines.map Line.name).Nodup) (hmem : ∀ line ∈ lines, line.name ∈ names ops)
    (hratio : ∀ line ∈ lines,
      line.ratio = Shares.share 100 (total ops line.name) (grandTotal ops)) :
    (lines.map Line.ratio).sum ≤ 100 := by
  rcases (names ops).eq_empty_or_nonempty with hempty | hne
  · have hnil : lines = [] := by
      rw [List.eq_nil_iff_forall_not_mem]
      intro line hline
      have hname := hmem line hline
      rw [hempty] at hname
      exact Finset.notMem_empty _ hname
    simp [hnil]
  · calc (lines.map Line.ratio).sum
        = ((lines.map Line.name).map fun nm =>
            Shares.share 100 (total ops nm) (grandTotal ops)).sum := by
          rw [List.map_map]
          exact congrArg List.sum (List.map_congr_left hratio)
      _ = ∑ nm ∈ (lines.map Line.name).toFinset,
            Shares.share 100 (total ops nm) (grandTotal ops) :=
          (List.sum_toFinset _ hnodup).symm
      _ ≤ (100 : Nat) := by
          refine Shares.sum_share_le (fun nm hnm => (total_pos h hnm).le) (grandTotal_pos h hne)
            fun nm hnm => ?_
          obtain ⟨line, hline, rfl⟩ := List.mem_map.1 (List.mem_toFinset.1 hnm)
          exact hmem line hline

/-- **Report.** The first lines of a sorted table show the names with the most time. -/
theorem printFrom_topFive (h : Exact ops calls) (hops : Admissible ops)
    (hanti : Antitone fun i => (calls i).us) :
    ∃ lines, printFrom calls (callTot calls) 0 = .ok lines ∧ TopFive ops lines := by
  obtain ⟨nm, hnm⟩ := h.exists_name
  have hfits := hops.fits
  have hm : min 5 (names ops).card ≤ callSz := le_trans (min_le_right _ _) hfits
  let line (i : Fin callSz) : Line :=
    { name := nm i, ratio := Shares.share 100 (total ops (nm i)) (grandTotal ops) }
  let lines := (List.finRange (min 5 (names ops).card)).map fun j => line (Fin.castLE hm j)
  have hus : ∀ i : Fin callSz, i.val < (names ops).card → (calls i).us = total ops (nm i) :=
    fun i hi => h.us_eq i _ (hnm i hi)
  have hmem : ∀ i : Fin callSz, i.val < (names ops).card → nm i ∈ names ops :=
    fun i hi => (h.mem_iff _).2 ⟨i, hnm i hi⟩
  have hlt : ∀ j : Fin (min 5 (names ops).card), (Fin.castLE hm j).val < (names ops).card :=
    fun j => Nat.lt_of_lt_of_le j.isLt (min_le_right _ _)
  refine ⟨lines, ?_, ?_⟩
  · have hprint := printFrom_eq (callTot calls) (k := (names ops).card) line hnm
      (fun i hi => ?_) (fun i hi => ?_) _ 0 (Nat.zero_add _) hm
    · simp only [Nat.zero_add] at hprint
      exact hprint
    · by_contra hne
      exact absurd ((h.named_iff i).1 hne) (by omega)
    · rw [callTot_eq h, hus i hi]
      have hpos := total_pos hops (hmem i hi)
      have hle := total_le_grandTotal hops (hmem i hi)
      exact callRatio_eq hpos.le hle (hpos.trans_le hle)
  · have hinj : ∀ j j', nm (Fin.castLE hm j) = nm (Fin.castLE hm j') → j = j' := fun j j' heq =>
      Fin.castLE_injective hm
        (h.distinct _ _ (nm (Fin.castLE hm j)) (hnm _ (hlt j)) (heq ▸ hnm _ (hlt j')))
    have hnodup : (lines.map Line.name).Nodup := by
      rw [List.map_map]
      exact (List.nodup_finRange _).map_on fun j _ j' _ heq => hinj j j' heq
    have hlines : ∀ l ∈ lines, ∃ j, l = line (Fin.castLE hm j) := by
      intro l hl
      obtain ⟨j, -, rfl⟩ := List.mem_map.1 hl
      exact ⟨j, rfl⟩
    have hnames : ∀ l ∈ lines, l.name ∈ names ops := by
      intro l hl
      obtain ⟨j, rfl⟩ := hlines l hl
      exact hmem _ (hlt j)
    have hratio : ∀ l ∈ lines, l.ratio = Shares.share 100 (total ops l.name) (grandTotal ops) := by
      intro l hl
      obtain ⟨j, rfl⟩ := hlines l hl
      rfl
    refine ⟨?_, hnodup, hnames, ?_, fun l hl name hname hout => ?_, fun l hl => ?_,
      fun l hl => ?_, ratio_sum_le hops hnodup hnames hratio⟩
    · rw [List.length_map, List.length_finRange]
    · rw [List.pairwise_map]
      refine (List.pairwise_lt_finRange _).imp fun hjj' => ?_
      have hle := hanti (Fin.castLE_le_castLE_iff hm |>.2 hjj'.le)
      simpa only [hus _ (hlt _)] using hle
    · obtain ⟨j, rfl⟩ := hlines l hl
      obtain ⟨i, hi⟩ := (h.mem_iff name).1 hname
      have hik : i.val < (names ops).card := (h.named_iff i).1 (by simp [hi])
      obtain rfl : nm i = name := Option.some.inj ((hnm i hik).symm.trans hi)
      -- the name is not printed, so it comes behind the fifth entry
      have hji : Fin.castLE hm j ≤ i := by
        by_contra hlt'
        have him : i.val < min 5 (names ops).card := Nat.lt_trans (not_le.1 hlt') j.isLt
        refine hout (List.mem_map.2 ⟨line i, ?_, rfl⟩)
        exact List.mem_map.2 ⟨⟨i, him⟩, List.mem_finRange _, rfl⟩
      have hle := hanti hji
      simpa only [hus _ (hlt j), hus i hik] using hle
    · rw [hratio l hl, Shares.share, Nat.cast_ofNat]
    · have hpos := total_pos hops (hnames l hl)
      have hle := total_le_grandTotal hops (hnames l hl)
      rw [hratio l hl]
      exact ⟨Shares.share_nonneg hpos.le (hpos.le.trans hle),
        Shares.share_le hle (hpos.trans_le hle)⟩

-- ---------------------------------------------------------------------------
-- Runs
-- ---------------------------------------------------------------------------

theorem callPrintTop5_spec (h : Kept ops calls) (hops : Admissible ops) :
    ∃ lines, callPrintTop5 calls = .ok (callSort calls, lines) ∧ TopFive ops lines := by
  obtain ⟨lines, hprint, htop⟩ :=
    printFrom_topFive (h.callSort hops).toExact hops (callSort_antitone calls)
  refine ⟨lines, ?_, htop⟩
  simp only [callPrintTop5, hprint, ok_bind, pure_eq_ok]

/-- **Step.** A call keeps the table exact. -/
theorem Kept.exec (h : Kept ops calls) (hops : Admissible (ops ++ [op])) :
    ∃ calls', Sperf.exec calls op = .ok calls' ∧ Kept (ops ++ [op]) calls' := by
  cases op with
  | add name us => exact h.callAdd hops
  | print =>
    obtain ⟨lines, hprint, -⟩ := callPrintTop5_spec h hops.of_append
    refine ⟨Sperf.callSort calls, ?_, ?_⟩
    · simp only [Sperf.exec, hprint, ok_bind, pure_eq_ok]
    · have hsort := h.callSort hops.of_append
      refine ⟨⟨?_, hsort.distinct, ?_, fun i nm hi => ?_⟩, hsort.unused⟩
      · rw [names_append_print]
        exact hsort.named_iff
      · rw [names_append_print]
        exact hsort.mem_iff
      · rw [total_append_print]
        exact hsort.us_eq i nm hi

/-- **Run.** -/
theorem run_kept (hops : Admissible ops) :
    ∃ calls, run Calls.init ops = .ok calls ∧ Kept ops calls := by
  induction ops using List.reverseRecOn with
  | nil => exact ⟨Calls.init, rfl, Kept.init⟩
  | append_singleton ops op ih =>
    obtain ⟨calls, hrun, h⟩ := ih hops.of_append
    obtain ⟨calls', hexec, h'⟩ := h.exec hops
    refine ⟨calls', ?_, h'⟩
    unfold run at hrun ⊢
    rw [List.foldlM_append, hrun, ok_bind, List.foldlM_cons, hexec, ok_bind, List.foldlM_nil,
      pure_eq_ok]

/-- **Exact totals.** At every point of a run no assertion has failed, and the table says
what has been added so far. -/
theorem run_exact (hops : Admissible ops) (pre : List Op) (hpre : pre <+: ops) :
    ∃ calls, run Calls.init pre = .ok calls ∧ Exact pre calls := by
  obtain ⟨calls, hrun, h⟩ := run_kept (hops.of_prefix hpre)
  exact ⟨calls, hrun, h.toExact⟩

/-- Two names, the second one with more time in the end. -/
def sample : List Op :=
  [.add ⟨[114], by decide⟩ 3, .add ⟨[119], by decide⟩ 1, .print, .add ⟨[119], by decide⟩ (5 / 2)]

theorem sample_admissible : Admissible sample := by
  refine ⟨fun name us h => ?_, ?_⟩
  · simp only [sample, List.mem_cons, Op.add.injEq, List.not_mem_nil, or_false, reduceCtorEq,
      false_or] at h
    rcases h with ⟨-, rfl⟩ | ⟨-, rfl⟩ | ⟨-, rfl⟩ <;> norm_num
  · decide

theorem run_exact_sample :
    ∃ calls, run Calls.init sample = .ok calls ∧ Exact sample calls :=
  run_exact sample_admissible sample (List.prefix_refl _)

/-- **True top five.** Behind any run the report shows the names with the most time, the
total it divides by is not zero when there is a name, and the table is only permuted. -/
theorem run_topFive (hops : Admissible ops) :
    ∃ calls calls' lines, run Calls.init ops = .ok calls ∧
      callPrintTop5 calls = .ok (calls', lines) ∧ TopFive ops lines ∧
      callTot calls' = grandTotal ops ∧ ((names ops).Nonempty → callTot calls' ≠ 0) ∧
      ∃ σ : Equiv.Perm (Fin callSz), calls' = calls ∘ σ := by
  obtain ⟨calls, hrun, h⟩ := run_kept hops
  obtain ⟨lines, hprint, htop⟩ := callPrintTop5_spec h hops
  have htot : callTot (callSort calls) = grandTotal ops := callTot_eq (h.callSort hops).toExact
  refine ⟨calls, callSort calls, lines, hrun, hprint, htop, htot, fun hne => ?_,
    callSort_perm calls⟩
  rw [htot]
  exact (grandTotal_pos hops hne).ne'

theorem run_topFive_sample :
    ∃ calls calls' lines, run Calls.init sample = .ok calls ∧
      callPrintTop5 calls = .ok (calls', lines) ∧ TopFive sample lines ∧
      callTot calls' = grandTotal sample ∧ ((names sample).Nonempty → callTot calls' ≠ 0) ∧
      ∃ σ : Equiv.Perm (Fin callSz), calls' = calls ∘ σ :=
  run_topFive sample_admissible

end MyOs.Sperf
