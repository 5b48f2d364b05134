import Mathlib.Data.List.Induction
import MyOs.Vme.Tables

/-!
# vme — walking down the tables

`pgallocz`, `ptwalk` and the stores to an entry, each with what it keeps of the invariant.

* `pgallocz_took` — a new page, cleared, and nothing else has changed.
* `Rep.grow`, `Rep.leaf` — **a new table** behind an entry, **a new page** in the last table.
* `ptwalk_spec` — **`ptwalk`** comes to the entry for the address, and makes the tables on the
  way where they are missing.
-/

namespace MyOs.Vme

open MyOs.Memory MyOs.Radix

variable {α : Type} {pg : Pager α} {c : Mmu} {L : pg.Laws c} {E : Scene L} {s s' : State α}
  {T : Tables} {σ : Spaces}

-- ---------------------------------------------------------------------------
-- A new page
-- ---------------------------------------------------------------------------

/-- From `s` to `s'` the client has handed out the page `p`, which has been cleared. -/
structure Took (L : pg.Laws c) (p : Nat) (s s' : State α) : Prop where
  kpt : s'.kpt = s.kpt
  ok : L.ok s'.mem s'.heap
  page : c.IsPage L.phys p
  fresh : ¬ L.live s.heap p
  live : ∀ q, L.live s'.heap q ↔ L.live s.heap q ∨ q = p
  given : ∀ x, c.inPage p x → L.owns s.heap x
  owned : ∀ x, L.owns s'.heap x → L.owns s.heap x ∧ ¬ c.inPage p x
  same : ∀ x, ¬ L.owns s.heap x → s'.mem x = s.mem x
  zero : ∀ i, c.Fits i → s'.entry c (c.at_ p i) = 0

theorem clear_onlyIn (base : Nat) (m : Mem) :
    ∀ n, OnlyIn m (clear c base n m) base (base + c.wordSz * n)
  | 0 => OnlyIn.refl m _ _
  | n + 1 => by
    have hsum : c.wordSz * (n + 1) = c.wordSz * n + c.wordSz := Nat.mul_succ _ _
    have hrest := (clear_onlyIn base m n).mono (Nat.le_refl base)
      (show base + c.wordSz * n ≤ base + c.wordSz * (n + 1) by omega)
    exact hrest.store (Nat.le_add_right _ _) (by rw [Mmu.at_]; omega)

theorem load_clear (base : Nat) (m : Mem) {i : Nat} :
    ∀ {n}, i < n → load (clear c base n m) (c.at_ base i) c.wordSz = 0
  | n + 1, hi => by
    rw [clear]
    rcases Nat.lt_succ_iff_lt_or_eq.1 hi with hlt | rfl
    · have hmul : c.wordSz * (i + 1) ≤ c.wordSz * n := Nat.mul_le_mul_left _ hlt
      rw [Nat.mul_succ] at hmul
      rw [load_store_of_disjoint (.inr (by unfold Mmu.at_; omega))]
      exact load_clear base m hlt
    · exact load_store (Nat.pow_pos (by omega))

theorem pgallocz_took {p : Nat} (hok : L.ok s.mem s.heap) (h : pgallocz pg c s = .ok (p, s')) :
    Took L p s s' := by
  unfold pgallocz at h
  cases halloc : pg.pgalloc s.mem s.heap with
  | none =>
    rw [halloc] at h
    cases h
  | some r =>
    obtain ⟨base, m, heap⟩ := r
    rw [halloc] at h
    cases h
    obtain ⟨hok', hpage, hfresh, hlive, hgiven, howned, hsame⟩ := L.alloc hok halloc
    have hclear : ∀ x, ¬ c.inPage p x → clear c p (c.pgsize / c.wordSz) m x = m x := by
      intro x hx
      apply clear_onlyIn p m
      by_contra hcon
      have hle := Nat.mul_div_le c.pgsize c.wordSz
      exact hx ⟨by omega, by omega⟩
    refine ⟨rfl, L.ok_congr hok' fun x hx => hclear x (howned x hx).2, hpage, hfresh, hlive,
      hgiven, howned, fun x hx => ?_, fun i hi => ?_⟩
    · exact (hclear x fun hin => hx (hgiven x hin)).trans (hsame x hx)
    · refine load_clear p m ((Nat.le_div_iff_mul_le c.wordSz_pos).2 ?_)
      rw [Nat.mul_comm]
      exact hi

theorem pgallocz_error {e : Fault} (h : pgallocz pg c s = .error e) : e = .cannotAllocate := by
  unfold pgallocz at h
  split at h
  · cases h
    rfl
  · cases h

-- ---------------------------------------------------------------------------
-- Paths
-- ---------------------------------------------------------------------------

theorem Mmu.levels_split {done done' infos infos' : List PtInfo} {info info' : PtInfo}
    (h : c.levels = done ++ info :: infos) (h' : c.levels = done' ++ info' :: infos')
    (hlen : done'.length = done.length) : done' = done ∧ info' = info ∧ infos' = infos := by
  obtain ⟨hdone, hrest⟩ := List.append_inj (h'.symm.trans h) hlen
  cases hrest
  exact ⟨hdone, rfl, rfl⟩

theorem Mmu.indexof_eq_digit {info : PtInfo} (hinfo : info ∈ c.levels) (va : Nat) :
    indexof va info = info.field.digit va :=
  indexof_eq (c.mask_eq info hinfo) va

theorem Mmu.indexof_lt {info : PtInfo} (hinfo : info ∈ c.levels) (va : Nat) :
    indexof va info < 2 ^ info.bits := by
  rw [Mmu.indexof_eq_digit hinfo]
  exact info.field.digit_lt va

theorem pathOf_eq_digits {done infos : List PtInfo} (h : c.levels = done ++ infos) (va : Nat) :
    pathOf va done = digits (done.map PtInfo.field) va := by
  rw [pathOf, digits, List.map_map]
  apply List.map_congr_left
  intro info hinfo
  exact Mmu.indexof_eq_digit (h ▸ List.mem_append_left _ hinfo) va

/-- A user address shares no entry of the first level with the kernel. -/
theorem Mmu.user_index {va : Nat} (hva : c.uvm.start ≤ va ∧ va < c.uvm.stop) :
    indexof va c.top ∉ c.kernelIdx := by
  intro hmem
  obtain ⟨area, harea, hcur⟩ := List.mem_flatMap.1 hmem
  obtain ⟨cur, hcur, heq⟩ := List.mem_map.1 hcur
  exact c.apart va hva.1 hva.2 area harea cur hcur heq.symm

/-- **The address of an entry of the last table** leads back to it. -/
theorem pathOf_ofDigits {init : List PtInfo} {last : PtInfo} (h : c.levels = init ++ [last])
    (va : Nat) {j : Nat} (hj : j < 2 ^ last.bits) :
    pathOf (ofDigits (c.levels.map PtInfo.field) (pathOf va init ++ [j])) c.levels
      = pathOf va init ++ [j] := by
  rw [pathOf_eq_digits (List.append_nil _).symm, pathOf_eq_digits h]
  have hfields : Fields c.pgbits _ (c.levels.map PtInfo.field) := c.fields
  apply digits_ofDigits hfields
  · rw [h, List.map_append]
    exact Digits.append _ _ _ va hj
  · simp [h, digits]

theorem Placed.not_mem_kernelIdx (h : Placed E s T) {as i q : Nat} {path : List Nat}
    (hT : T (as, i :: path) = some q) : i ∉ c.kernelIdx := by
  obtain ⟨va, done, infos, hlevels, -, hpath, hva⟩ := h.made _ _ _ hT
  cases done with
  | nil => cases hpath
  | cons info done =>
    have hinfo : c.top = info := (List.cons.inj hlevels).1
    rw [pathOf, List.map_cons] at hpath
    rw [(List.cons.inj hpath).1, ← hinfo]
    exact Mmu.user_index (hva (List.cons_ne_nil _ _))

-- ---------------------------------------------------------------------------
-- What may be written
-- ---------------------------------------------------------------------------

/-- Bytes of tables and of structs may change. -/
theorem Placed.write (h : Placed E s T) {m : Mem} (hm : ∀ x, m x ≠ s.mem x →
    (∃ a p, T a = some p ∧ c.inPage p x) ∨ ∃ as, E.structs as ∧ as ≤ x ∧ x < as + c.spaceSz) :
    Placed E { s with mem := m } T where
  kpt := h.kpt
  ok := by
    apply L.ok_congr h.ok
    intro x hx
    by_contra hne
    rcases hm x hne with ⟨a, p, hT, hin⟩ | ⟨as, has, hlo, hhi⟩
    · exact (h.apart a p x hT hin).1 hx
    · exact h.owned x hx (E.structs_outer as x has hlo hhi)
  owned := h.owned
  same x hx hstruct := by
    refine Eq.trans ?_ (h.same x hx hstruct)
    by_contra hne
    rcases hm x hne with ⟨a, p, hT, hin⟩ | ⟨as, has, hlo, hhi⟩
    · exact (h.apart a p x hT hin).2 hx
    · rcases hstruct as has with hlt | hle
      · omega
      · omega
  live := h.live
  fresh := h.fresh
  page := h.page
  apart := h.apart
  inj := h.inj
  closed := h.closed
  made := h.made

/-- A store to an entry of a table. -/
theorem Placed.setEntry (h : Placed E s T) {a : Nat × List Nat} {p i : Nat} (hT : T a = some p)
    (hi : c.Fits i) (v : Nat) : Placed E (s.setEntry c (c.at_ p i) v) T := by
  apply h.write
  intro x hx
  refine .inl ⟨a, p, hT, ?_⟩
  by_contra hout
  apply hx
  apply onlyIn_store
  by_contra hcon
  exact hout (hi.inPage (by omega) (by omega))

/-- **A new page becomes a table.** -/
theorem Placed.grow (h : Placed E s T) {a : Nat × List Nat} {q : Nat} (ht : Took L q s s')
    (hnone : T a = none)
    (hclosed : ∀ path i, a.2 = path ++ [i] → ∃ p, T (a.1, path) = some p)
    (hmade : ∃ va done infos, c.levels = done ++ infos ∧ infos ≠ [] ∧ a.2 = pathOf va done ∧
      (a.2 ≠ [] → c.uvm.start ≤ va ∧ va < c.uvm.stop)) :
    Placed E s' (Function.update T a (some q)) := by
  have hold : ∀ b p, T b = some p → p ≠ q := by
    rintro b p hb rfl
    exact ht.fresh ((h.live p).2 (.inr ⟨b, hb⟩))
  have hlook : ∀ b p, Function.update T a (some q) b = some p →
      (b = a ∧ p = q) ∨ (b ≠ a ∧ T b = some p) := by
    intro b p hb
    by_cases hba : b = a
    · subst hba
      rw [Function.update_self] at hb
      exact .inl ⟨rfl, (Option.some.inj hb).symm⟩
    · rw [Function.update_of_ne hba] at hb
      exact .inr ⟨hba, hb⟩
  refine ⟨ht.kpt.trans h.kpt, ht.ok, fun x hx => h.owned x (ht.owned x hx).1,
    fun x hx hstruct => ?_, fun p => ?_, fun b p hb => ?_, fun b p hb => ?_, fun b p x hb hin => ?_,
    fun b b' p hb hb' => ?_, fun as path i p hb => ?_, fun as path p hb => ?_⟩
  · exact (ht.same x fun howns => h.owned x howns hx).trans (h.same x hx hstruct)
  · rw [ht.live, h.live, or_assoc]
    refine or_congr_right ⟨?_, ?_⟩
    · rintro (⟨b, hb⟩ | rfl)
      · have hba : b ≠ a := by
          rintro rfl
          rw [hnone] at hb
          cases hb
        exact ⟨b, by rw [Function.update_of_ne hba]; exact hb⟩
      · exact ⟨a, Function.update_self ..⟩
    · rintro ⟨b, hb⟩
      rcases hlook b p hb with ⟨-, hp⟩ | ⟨-, hb⟩
      · exact .inr hp
      · exact .inl ⟨b, hb⟩
  · rcases hlook b p hb with ⟨-, rfl⟩ | ⟨-, hb⟩
    · exact fun hlive => ht.fresh ((h.live p).2 (.inl hlive))
    · exact h.fresh b p hb
  · rcases hlook b p hb with ⟨-, rfl⟩ | ⟨-, hb⟩
    · exact ht.page
    · exact h.page b p hb
  · rcases hlook b p hb with ⟨-, rfl⟩ | ⟨-, hb⟩
    · exact ⟨fun hx => (ht.owned x hx).2 hin, h.owned x (ht.given x hin)⟩
    · obtain ⟨howns, houter⟩ := h.apart b p x hb hin
      exact ⟨fun hx => howns (ht.owned x hx).1, houter⟩
  · rcases hlook b p hb with ⟨hba, hpq⟩ | ⟨-, hTb⟩
    · rcases hlook b' p hb' with ⟨hba', -⟩ | ⟨-, hTb'⟩
      · exact hba.trans hba'.symm
      · exact absurd hpq (hold b' p hTb')
    · rcases hlook b' p hb' with ⟨-, hpq⟩ | ⟨-, hTb'⟩
      · exact absurd hpq (hold b p hTb)
      · exact h.inj b b' p hTb hTb'
  · -- the table above
    obtain ⟨r, hr⟩ : ∃ r, T (as, path) = some r := by
      rcases hlook _ p hb with ⟨rfl, -⟩ | ⟨-, hb⟩
      · exact hclosed path i rfl
      · exact h.closed as path i p hb
    by_cases hpa : (as, path) = a
    · exact ⟨q, by rw [hpa, Function.update_self]⟩
    · exact ⟨r, by rw [Function.update_of_ne hpa]; exact hr⟩
  · rcases hlook _ p hb with ⟨rfl, -⟩ | ⟨-, hb⟩
    · exact hmade
    · exact h.made as path p hb

-- ---------------------------------------------------------------------------
-- Reading entries
-- ---------------------------------------------------------------------------

/-- The entries of a table that is there already. -/
theorem Took.entry {q : Nat} (ht : Took L q s s') (h : Placed E s T) {a : Nat × List Nat}
    {p i : Nat}
    (hT : T a = some p) (hi : c.Fits i) : s'.entry c (c.at_ p i) = s.entry c (c.at_ p i) := by
  refine Same.load fun x hlo hhi => ht.same x ?_
  exact (h.apart a p x hT (hi.inPage hlo hhi)).1

/-- The bytes of a struct. -/
theorem Took.entry_struct {q as a : Nat} (ht : Took L q s s') (h : Placed E s T)
    (has : E.structs as) (hlo : as ≤ a) (hhi : a + c.wordSz ≤ as + c.spaceSz) :
    s'.entry c a = s.entry c a := by
  refine Same.load fun x hx hx' => ht.same x fun howns => ?_
  exact h.owned x howns (E.structs_outer as x has (by omega) (by omega))

theorem Placed.setEntry_entry (h : Placed E s T) {a b : Nat × List Nat} {p q i j : Nat} {v : Nat}
    (hp : T a = some p) (hq : T b = some q) (hi : c.Fits i) (hj : c.Fits j) (hne : b ≠ a ∨ j ≠ i) :
    (s.setEntry c (c.at_ p i) v).entry c (c.at_ q j) = s.entry c (c.at_ q j) := by
  apply load_store_of_disjoint
  have hne' : p ≠ q ∨ i ≠ j := by
    rcases hne with hne | hne
    · refine .inl ?_
      rintro rfl
      exact hne (h.inj b a p hq hp)
    · exact .inr hne.symm
  exact Mmu.at_apart (h.page a p hp) (h.page b q hq) hi hj hne'

theorem Placed.setEntry_struct (h : Placed E s T) {a : Nat × List Nat} {p i as b v : Nat}
    (hp : T a = some p) (hi : c.Fits i) (has : E.structs as) (hlo : as ≤ b)
    (hhi : b + c.wordSz ≤ as + c.spaceSz) :
    (s.setEntry c (c.at_ p i) v).entry c b = s.entry c b := by
  refine Same.load fun x hx hx' => onlyIn_store x ?_
  by_contra hcon
  have hin : c.inPage p x := hi.inPage (by omega) (by omega)
  exact (h.apart a p x hp hin).2 (E.structs_outer as x has (by omega) (by omega))

theorem entry_setEntry {a v : Nat} (hv : v < 2 ^ (8 * c.wordSz)) :
    (s.setEntry c a v).entry c a = v := by
  refine load_store ?_
  rw [show 256 = 2 ^ 8 from rfl, ← pow_mul]
  exact hv

theorem Mmu.ptrOf_le (c : Mmu) (as : Nat) : c.ptrOf as + c.wordSz ≤ as + c.spaceSz := by
  unfold Mmu.ptrOf Mmu.spaceSz
  omega

-- ---------------------------------------------------------------------------
-- New tables and new pages
-- ---------------------------------------------------------------------------

variable {as va p : Nat} {f : Space} {done init infos : List PtInfo} {info last : PtInfo}

theorem Mmu.mem_levels (h : c.levels = done ++ info :: infos) : info ∈ c.levels :=
  h ▸ List.mem_append_right _ List.mem_cons_self

/-- The entry of a table that is not the last one, on the way to a user address. -/
theorem Rep.table_entry (h : Rep E s T σ) {below : PtInfo}
    (hlevels : c.levels = done ++ info :: below :: infos)
    (hva : c.uvm.start ≤ va ∧ va < c.uvm.stop) (hf : σ as = some f)
    (hT : T (as, pathOf va done) = some p) :
    s.entry c (c.at_ p (indexof va info)) = tableWord (T (as, pathOf va (done ++ [info]))) := by
  have hlt := Mmu.indexof_lt (Mmu.mem_levels hlevels) va
  rw [h.words as f _ p done info (below :: infos) _ hT hf hlevels (List.length_map _).symm hlt,
    word, if_neg, pathOf, pathOf, List.map_append, List.map_singleton]
  rintro ⟨hnil, hkernel⟩
  obtain rfl : done = [] := List.map_eq_nil_iff.1 hnil
  obtain rfl : c.top = info := (List.cons.inj hlevels).1
  exact Mmu.user_index hva hkernel

/-- A table makes a difference to the entry in front of it only. -/
theorem word_update {kernel : Nat → Nat} {path : List Nat} {i : Nat} {a : Nat × List Nat}
    {q : Option Nat} (hne : (as, path ++ [i]) ≠ a) :
    word c kernel (Function.update T a q) f as path infos i
      = word c kernel T f as path infos i := by
  unfold word
  rw [Function.update_of_ne hne]

/-- A table that is not there has nothing in it. -/
theorem Rep.word_of_none (h : Rep E s T σ) (hlevels : c.levels = done ++ info :: infos)
    (hdone : done ≠ []) (hf : σ as = some f) (hnone : T (as, pathOf va done) = none) {i : Nat}
    (hi : i < 2 ^ info.bits) : word c E.kernelEntry T f as (pathOf va done) infos i = 0 := by
  unfold word
  cases infos with
  | nil =>
    show leafWord (f (ofDigits (c.levels.map PtInfo.field) (pathOf va done ++ [i]))) = 0
    cases hpage : f (ofDigits (c.levels.map PtInfo.field) (pathOf va done ++ [i])) with
    | none => rfl
    | some page =>
      have hsome : f (ofDigits (c.levels.map PtInfo.field) (pathOf va done ++ [i])) ≠ none := by
        rw [hpage]
        exact Option.some_ne_none page
      obtain ⟨r, hr⟩ := h.mapped as f _ done [info] hf hsome hlevels (List.cons_ne_nil _ _)
      -- the path to the page leads through this table
      have hback := pathOf_ofDigits hlevels va hi
      generalize ofDigits (c.levels.map PtInfo.field) (pathOf va done ++ [i]) = x at hr hback
      rw [hlevels] at hback
      have hsame : pathOf x done = pathOf va done :=
        (List.append_inj' ((List.map_append ..).symm.trans hback) rfl).1
      rw [hsame, hnone] at hr
      cases hr
  | cons below infos =>
    have hchild : T (as, pathOf va done ++ [i]) = none := by
      cases hchild : T (as, pathOf va done ++ [i]) with
      | none => rfl
      | some r =>
        obtain ⟨r', hr'⟩ := h.closed _ _ _ _ hchild
        rw [hnone] at hr'
        cases hr'
    show (if _ then _ else tableWord _) = 0
    rw [if_neg fun hcon => hdone (List.map_eq_nil_iff.1 hcon.1), hchild]
    rfl

/-- **A new table** behind an entry that has been empty. -/
theorem Rep.grow (h : Rep E s T σ) {below : PtInfo} {q : Nat}
    (hlevels : c.levels = done ++ info :: below :: infos)
    (hva : c.uvm.start ≤ va ∧ va < c.uvm.stop) (hf : σ as = some f)
    (hT : T (as, pathOf va done) = some p) (hnone : T (as, pathOf va (done ++ [info])) = none)
    (ht : Took L q s s') :
    Rep E (s'.setEntry c (c.at_ p (indexof va info)) (q ||| pteP ||| (pteW ||| pteU)))
      (Function.update T (as, pathOf va (done ++ [info])) (some q)) σ := by
  have hlt := Mmu.indexof_lt (Mmu.mem_levels hlevels) va
  have hfits := Mmu.fits_of_mem (Mmu.mem_levels hlevels) hlt
  have hpath : pathOf va (done ++ [info]) = pathOf va done ++ [indexof va info] :=
    List.map_append ..
  have hnew : pathOf va (done ++ [info]) ≠ [] := by
    rw [hpath]
    exact List.append_ne_nil_of_right_ne_nil _ (List.cons_ne_nil _ _)
  have hlevels' : c.levels = (done ++ [info]) ++ below :: infos := by
    rw [hlevels, List.append_assoc]
    rfl
  have hgrown := h.toPlaced.grow ht hnone
    (fun path i hsplit => by
      obtain ⟨hdone, -⟩ := List.append_inj' (hpath.symm.trans hsplit) rfl
      exact ⟨p, hdone ▸ hT⟩)
    ⟨va, done ++ [info], below :: infos, hlevels', List.cons_ne_nil _ _, rfl, fun _ => hva⟩
  -- a table that has been there, in the new tables
  have hkeep : ∀ a r, T a = some r →
      Function.update T (as, pathOf va (done ++ [info])) (some q) a = some r := by
    intro a r ha
    rw [Function.update_of_ne _]
    · exact ha
    · rintro rfl
      rw [hnone] at ha
      cases ha
  have hroot : ∀ as', Function.update T (as, pathOf va (done ++ [info])) (some q) (as', [])
      = T (as', []) := fun as' =>
    Function.update_of_ne (fun heq => hnew (Prod.mk.inj heq).2.symm) ..
  have hpT := hkeep _ _ hT
  refine ⟨hgrown.setEntry hpT hfits _, h.structs, fun as' => ?_, h.user,
    fun as' f' va' done' infos' hf' hne hl hi => ?_, fun as' r hr => ?_,
    fun as' f' path r done' info' infos' j hr hf' hl hlen hj => ?_⟩
  · rw [hroot]
    exact h.root as'
  · obtain ⟨r, hr⟩ := h.mapped as' f' va' done' infos' hf' hne hl hi
    exact ⟨r, hkeep _ _ hr⟩
  · rw [hroot] at hr
    obtain ⟨g, hg⟩ := (h.root as').1 ⟨r, hr⟩
    have has' := h.structs as' g hg
    have hlo : as' ≤ c.ptrOf as' := Nat.le_add_right _ _
    rw [hgrown.setEntry_struct hpT hfits has' hlo (c.ptrOf_le as'),
      ht.entry_struct h.toPlaced has' hlo (c.ptrOf_le as')]
    exact h.ptr as' r hr
  · have hj' := Mmu.fits_of_mem (Mmu.mem_levels hl) hj
    by_cases hslot : (as', path) = (as, pathOf va done) ∧ j = indexof va info
    · -- the entry that has been written
      obtain ⟨heq, rfl⟩ := hslot
      obtain ⟨rfl, rfl⟩ := Prod.mk.inj heq
      obtain rfl : p = r := Option.some.inj (hpT.symm.trans hr)
      obtain ⟨rfl, rfl, rfl⟩ := Mmu.levels_split hlevels hl (hlen.trans (List.length_map _))
      rw [entry_setEntry, word, if_neg, ← hpath, Function.update_self]
      · rfl
      · rintro ⟨hnil, hkernel⟩
        obtain rfl : done' = [] := List.map_eq_nil_iff.1 hnil
        obtain rfl : c.top = info' := (List.cons.inj hlevels).1
        exact Mmu.user_index hva hkernel
      · rw [Nat.or_assoc]
        exact (or_lt ht.page (lt_pgsize c (by decide))).trans_le
          (Nat.pow_le_pow_right (by omega) L.phys_le)
    · have hother : (as', path) ≠ (as, pathOf va done) ∨ j ≠ indexof va info := by
        by_cases hpath' : (as', path) = (as, pathOf va done)
        · exact .inr fun hcon => hslot ⟨hpath', hcon⟩
        · exact .inl hpath'
      rw [hgrown.setEntry_entry hpT hr hfits hj' hother, word_update]
      · by_cases hb : (as', path) = (as, pathOf va (done ++ [info]))
        · -- the new table is empty
          obtain ⟨rfl, rfl⟩ := Prod.mk.inj hb
          rw [Function.update_self] at hr
          obtain rfl : q = r := Option.some.inj hr
          have hlen' : done'.length = (done ++ [info]).length := hlen.trans (List.length_map _)
          obtain ⟨rfl, rfl, rfl⟩ := Mmu.levels_split hlevels' hl hlen'
          rw [ht.zero j hj', h.word_of_none hlevels'
            (List.append_ne_nil_of_right_ne_nil _ (List.cons_ne_nil _ _)) hf' hnone hj]
        · rw [Function.update_of_ne hb] at hr
          rw [ht.entry h.toPlaced hr hj']
          exact h.words as' f' path r done' info' infos' j hr hf' hl hlen hj
      · intro heq
        obtain ⟨rfl, htail⟩ := Prod.mk.inj heq
        obtain ⟨rfl, hidx⟩ := List.append_inj' (htail.trans hpath) rfl
        exact hslot ⟨rfl, (List.cons.inj hidx).1⟩

theorem leafWord_lt {page : Option (Nat × Bool)}
    (hpage : ∀ pa write, page = some (pa, write) → c.IsPage L.phys pa) :
    leafWord page < 2 ^ (8 * c.wordSz) := by
  cases page with
  | none => exact Nat.two_pow_pos _
  | some page =>
    obtain ⟨pa, write⟩ := page
    have hflags : pteP ||| (pteU ||| if write then pteW else 0) < 2 ^ 8 := by
      cases write <;> decide
    rw [leafWord, Nat.or_assoc, Nat.or_assoc]
    exact (or_lt (hpage pa write rfl) (lt_pgsize c hflags)).trans_le
      (Nat.pow_le_pow_right (by omega) L.phys_le)

/-- The tables on the way to a table. -/
theorem Placed.closed_append (h : Placed E s T) {path : List Nat} :
    ∀ (ext : List Nat) (q : Nat), T (as, path ++ ext) = some q → ∃ p, T (as, path) = some p := by
  intro ext
  induction ext using List.reverseRecOn with
  | nil =>
    intro q hq
    exact ⟨q, by rwa [List.append_nil] at hq⟩
  | append_singleton ext i ih =>
    intro q hq
    rw [← List.append_assoc] at hq
    obtain ⟨r, hr⟩ := h.closed _ _ _ _ hq
    exact ih r hr

/-- The tables on the way to the last one. -/
theorem Placed.prefix_some (h : Placed E s T) (hlevels : c.levels = init ++ [last])
    (hsplit : c.levels = done ++ infos) (hinfos : infos ≠ [])
    (hT : T (as, pathOf va init) = some p) :
    ∃ q, T (as, pathOf va done) = some q := by
  obtain ⟨front, bottom, rfl⟩ := (List.eq_nil_or_concat infos).resolve_left hinfos
  rw [hlevels, List.concat_eq_append, ← List.append_assoc] at hsplit
  obtain ⟨rfl, -⟩ := List.append_inj' hsplit rfl
  rw [pathOf, List.map_append] at hT
  exact h.closed_append _ p hT

/-- **The address of an entry** of a last table. -/
theorem Placed.leaf_eq (h : Placed E s T) (hlevels : c.levels = init ++ [last])
    (hva : va < c.uvm.stop) (halign : c.pgsize ∣ va) {path : List Nat} {r j : Nat}
    (hT : T (as, path) = some r) (hlen : init.length = path.length) (hj : j < 2 ^ last.bits) :
    ofDigits (c.levels.map PtInfo.field) (path ++ [j]) = va ↔
      path = pathOf va init ∧ j = indexof va last := by
  obtain ⟨x, done, infos, hsplit, hinfos, rfl, -⟩ := h.made _ _ _ hT
  obtain ⟨rfl, -⟩ := List.append_inj (hlevels.symm.trans hsplit) (hlen.trans (List.length_map _))
  have hpath : pathOf va c.levels = pathOf va init ++ [indexof va last] := by
    rw [hlevels, pathOf, List.map_append]
    rfl
  constructor
  · rintro hof
    have hback := pathOf_ofDigits hlevels x hj
    rw [hof, hpath] at hback
    obtain ⟨hsame, hidx⟩ := List.append_inj' hback rfl
    exact ⟨hsame.symm, (List.cons.inj hidx).1.symm⟩
  · rintro ⟨hsame, rfl⟩
    have hfields : Fields c.pgbits _ (c.levels.map PtInfo.field) := c.fields
    rw [hsame, ← hpath, pathOf_eq_digits (List.append_nil _).symm, ofDigits_digits hfields,
      Nat.mod_eq_of_lt (hva.trans_le c.uvm_le)]
    exact Nat.div_mul_cancel halign

/-- **A new page** in the last table, or none any more. -/
theorem Rep.leaf (h : Rep E s T σ) (hlevels : c.levels = init ++ [last])
    (hva : c.uvm.start ≤ va ∧ va < c.uvm.stop) (halign : c.pgsize ∣ va) (hf : σ as = some f)
    (hT : T (as, pathOf va init) = some p) {page : Option (Nat × Bool)}
    (hpage : ∀ pa write, page = some (pa, write) → c.IsPage L.phys pa) :
    Rep E (s.setEntry c (c.at_ p (indexof va last)) (leafWord page)) T
      (Function.update σ as (some (Function.update f va page))) := by
  have hlt := Mmu.indexof_lt (Mmu.mem_levels hlevels) va
  have hfits := Mmu.fits_of_mem (Mmu.mem_levels hlevels) hlt
  have hlook : ∀ as' f', Function.update σ as (some (Function.update f va page)) as' = some f' →
      (as' = as ∧ f' = Function.update f va page) ∨ (as' ≠ as ∧ σ as' = some f') := by
    intro as' f' hf'
    by_cases has : as' = as
    · subst has
      rw [Function.update_self] at hf'
      exact .inl ⟨rfl, (Option.some.inj hf').symm⟩
    · rw [Function.update_of_ne has] at hf'
      exact .inr ⟨has, hf'⟩
  refine ⟨h.toPlaced.setEntry hT hfits _, fun as' f' hf' => ?_, fun as' => ?_,
    fun as' f' va' pa write hf' hva' => ?_, fun as' f' va' done' infos' hf' hne hl hi => ?_,
    fun as' r hr => ?_, fun as' f' path r done' info' infos' j hr hf' hl hlen hj => ?_⟩
  · rcases hlook as' f' hf' with ⟨rfl, -⟩ | ⟨-, hf'⟩
    · exact h.structs _ f hf
    · exact h.structs as' f' hf'
  · rw [h.root as']
    by_cases has : as' = as
    · subst has
      rw [Function.update_self]
      exact ⟨fun _ => ⟨_, rfl⟩, fun _ => ⟨f, hf⟩⟩
    · rw [Function.update_of_ne has]
  · rcases hlook as' f' hf' with ⟨rfl, rfl⟩ | ⟨-, hf'⟩
    · by_cases heq : va' = va
      · subst heq
        rw [Function.update_self] at hva'
        exact ⟨hva, halign, hpage pa write hva'⟩
      · rw [Function.update_of_ne heq] at hva'
        exact h.user _ f va' pa write hf hva'
    · exact h.user as' f' va' pa write hf' hva'
  · rcases hlook as' f' hf' with ⟨rfl, rfl⟩ | ⟨-, hf'⟩
    · by_cases heq : va' = va
      · subst heq
        exact h.prefix_some hlevels hl hi hT
      · rw [Function.update_of_ne heq] at hne
        exact h.mapped _ f va' done' infos' hf hne hl hi
    · exact h.mapped as' f' va' done' infos' hf' hne hl hi
  · obtain ⟨g, hg⟩ := (h.root as').1 ⟨r, hr⟩
    have hlo : as' ≤ c.ptrOf as' := Nat.le_add_right _ _
    rw [h.toPlaced.setEntry_struct hT hfits (h.structs as' g hg) hlo (c.ptrOf_le as')]
    exact h.ptr as' r hr
  · have hj' := Mmu.fits_of_mem (Mmu.mem_levels hl) hj
    by_cases hslot : (as', path) = (as, pathOf va init) ∧ j = indexof va last
    · -- the entry that has been written
      obtain ⟨heq, rfl⟩ := hslot
      obtain ⟨rfl, rfl⟩ := Prod.mk.inj heq
      obtain rfl : p = r := Option.some.inj (hT.symm.trans hr)
      obtain ⟨rfl, rfl, rfl⟩ := Mmu.levels_split hlevels hl (hlen.trans (List.length_map _))
      rw [Function.update_self] at hf'
      obtain rfl := Option.some.inj hf'
      rw [entry_setEntry (leafWord_lt hpage)]
      show leafWord page = leafWord _
      rw [(h.leaf_eq hlevels hva.2 halign hT (List.length_map _).symm hj).2 ⟨rfl, rfl⟩,
        Function.update_self]
    · have hother : (as', path) ≠ (as, pathOf va init) ∨ j ≠ indexof va last := by
        by_cases hpath' : (as', path) = (as, pathOf va init)
        · exact .inr fun hcon => hslot ⟨hpath', hcon⟩
        · exact .inl hpath'
      rw [h.toPlaced.setEntry_entry hT hr hfits hj' hother]
      rcases hlook as' f' hf' with ⟨rfl, rfl⟩ | ⟨-, hf'⟩
      · rw [h.words _ f path r done' info' infos' j hr hf hl hlen hj]
        unfold word
        cases infos' with
        | nil =>
          obtain ⟨rfl, hlast⟩ := List.append_inj' (hlevels.symm.trans hl) rfl
          obtain rfl : last = info' := (List.cons.inj hlast).1
          simp only
          rw [Function.update_of_ne]
          intro heq
          obtain ⟨rfl, rfl⟩ := (h.leaf_eq hlevels hva.2 halign hr hlen hj).1 heq
          exact hslot ⟨rfl, rfl⟩
        | cons below infos' => rfl
      · exact h.words as' f' path r done' info' infos' j hr hf' hl hlen hj

-- ---------------------------------------------------------------------------
-- ptwalk
-- ---------------------------------------------------------------------------

theorem tableWord_present {q : Nat} (hq : c.IsPage L.phys q) :
    tableWord (some q) &&& pteP ≠ 0 ∧ c.baseof (tableWord (some q)) = q := by
  rw [tableWord, Nat.or_assoc]
  refine ⟨?_, baseof_or hq L.phys_le (lt_pgsize c (by decide))⟩
  rw [or_and hq.aligned (lt_pgsize c (by decide))]
  decide

/-- What `ptwalk` comes back with: the entry for the address, in a last table. -/
def Walked (E : Scene L) (σ : Spaces) (as va : Nat) (init : List PtInfo) (last : PtInfo) :
    Result (Nat × State α) → Prop
  | .error e => e = .cannotAllocate
  | .ok (slot, s') => ∃ T p, Rep E s' T σ ∧ T (as, pathOf va init) = some p ∧
      slot = c.at_ p (indexof va last)

theorem ptwalkLoop_walked (hva : c.uvm.start ≤ va ∧ va < c.uvm.stop) (hf : σ as = some f)
    (hlevels : c.levels = init ++ [last]) (hsplit : c.levels = done ++ infos) (hinfos : infos ≠ [])
    (h : Rep E s T σ) (hT : T (as, pathOf va done) = some p) :
    Walked E σ as va init last (ptwalkLoop pg c va (pteW ||| pteU) infos p s) := by
  induction infos generalizing done p s T with
  | nil => exact absurd rfl hinfos
  | cons info infos ih =>
    cases infos with
    | nil =>
      obtain ⟨rfl, hlast⟩ := List.append_inj' (hlevels.symm.trans hsplit) rfl
      obtain rfl : last = info := (List.cons.inj hlast).1
      exact ⟨T, p, h, hT, rfl⟩
    | cons below infos =>
      have hentry := h.table_entry hsplit hva hf hT
      have hsplit' : c.levels = (done ++ [info]) ++ below :: infos := by
        rw [hsplit, List.append_assoc]
        rfl
      rw [ptwalkLoop, hentry]
      · cases hnext : T (as, pathOf va (done ++ [info])) with
        | none =>
          rw [if_pos (show tableWord none &&& pteP = 0 from Nat.zero_and _)]
          cases halloc : pgallocz pg c s with
          | error e => exact pgallocz_error halloc
          | ok r =>
            obtain ⟨q, s'⟩ := r
            exact ih hsplit' (List.cons_ne_nil _ _)
              (h.grow hsplit hva hf hT hnext (pgallocz_took h.ok halloc)) (Function.update_self ..)
        | some q =>
          obtain ⟨hpresent, hbase⟩ := tableWord_present (L := L) (h.page _ q hnext)
          rw [if_neg hpresent, hbase]
          exact ih hsplit' (List.cons_ne_nil _ _) h hnext
      · exact List.cons_ne_nil _ _

/-- The walk goes through the pointer of the struct to the table of the first level. -/
theorem Rep.ptwalk_eq (h : Rep E s T σ) (hT : T (as, []) = some p) (flags : Nat) :
    ptwalk pg c as va flags s = ptwalkLoop pg c va flags c.levels p s := by
  have hindex : c.at_ (c.ptrOf as) (indexof va c.cr3) = c.ptrOf as := by
    simp [c.cr3_eq, indexof, Mmu.at_]
  have hpage := h.page _ p hT
  rw [ptwalk, Mmu.pgtables, ptwalkLoop, hindex, h.ptr as p hT, Nat.or_assoc,
    or_and hpage.aligned (lt_pgsize c (by decide)), if_neg (by decide),
    baseof_or hpage L.phys_le (lt_pgsize c (by decide))]
  exact List.cons_ne_nil _ _

/-- **`ptwalk`** comes to the entry for the address. -/
theorem Rep.ptwalk_walked (h : Rep E s T σ) (hva : c.uvm.start ≤ va ∧ va < c.uvm.stop)
    (hf : σ as = some f) (hlevels : c.levels = init ++ [last]) :
    Walked E σ as va init last (ptwalk pg c as va (pteW ||| pteU) s) := by
  obtain ⟨p, hp⟩ := (h.root as).2 ⟨f, hf⟩
  have hroot : T (as, pathOf va []) = some p := hp
  rw [h.ptwalk_eq hp]
  exact ptwalkLoop_walked hva hf hlevels (List.nil_append _).symm (List.cons_ne_nil _ _) h hroot

theorem Rep.ptwalkLoop_present (h : Rep E s T σ) (hva : c.uvm.start ≤ va ∧ va < c.uvm.stop)
    (hf : σ as = some f) (hlevels : c.levels = init ++ [last])
    (hsplit : c.levels = done ++ infos) (hinfos : infos ≠ []) {cur : Nat}
    (hcur : T (as, pathOf va done) = some cur) (hT : T (as, pathOf va init) = some p)
    (flags : Nat) : ptwalkLoop pg c va flags infos cur s = .ok (c.at_ p (indexof va last), s) := by
  induction infos generalizing done cur with
  | nil => exact absurd rfl hinfos
  | cons info infos ih =>
    cases infos with
    | nil =>
      obtain ⟨rfl, hlast⟩ := List.append_inj' (hlevels.symm.trans hsplit) rfl
      obtain rfl : last = info := (List.cons.inj hlast).1
      obtain rfl : p = cur := Option.some.inj (hT.symm.trans hcur)
      rfl
    | cons below infos =>
      have hsplit' : c.levels = (done ++ [info]) ++ below :: infos := by
        rw [hsplit, List.append_assoc]
        rfl
      obtain ⟨q, hq⟩ := h.prefix_some hlevels hsplit' (List.cons_ne_nil _ _) hT
      obtain ⟨hpresent, hbase⟩ := tableWord_present (L := L) (h.page _ q hq)
      rw [ptwalkLoop, h.table_entry hsplit hva hf hcur, hq, if_neg hpresent, hbase]
      · exact ih hsplit' (List.cons_ne_nil _ _) hq
      · exact List.cons_ne_nil _ _

/-- **A second walk** changes nothing. -/
theorem Rep.ptwalk_present (h : Rep E s T σ) (hva : c.uvm.start ≤ va ∧ va < c.uvm.stop)
    (hf : σ as = some f) (hlevels : c.levels = init ++ [last])
    (hT : T (as, pathOf va init) = some p) (flags : Nat) :
    ptwalk pg c as va flags s = .ok (c.at_ p (indexof va last), s) := by
  obtain ⟨q, hq⟩ := (h.root as).2 ⟨f, hf⟩
  have hroot : T (as, pathOf va []) = some q := hq
  rw [h.ptwalk_eq hq]
  exact h.ptwalkLoop_present hva hf hlevels (List.nil_append _).symm (List.cons_ne_nil _ _) hroot
    hT flags

end MyOs.Vme
