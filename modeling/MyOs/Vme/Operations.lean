import MyOs.Vme.Walk

/-!
# vme — making an address space and taking it down

* `copyKernel_copied` — the new table has the kernel's entries.
* `Rep.newSpace` — **`protect`** makes an address space with nothing in it.
* `teardown_freed` — **`teardown`** gives back the tables below an entry, each once.
* `Rep.unprotected` — **`unprotect`** gives back the tables of the address space, and no other page.
-/

namespace MyOs.Vme

open MyOs.Memory MyOs.Radix

variable {α : Type} {pg : Pager α} {c : Mmu} {L : pg.Laws c} {E : Scene L} {s s' s'' : State α}
  {T : Tables} {σ : Spaces} {as p : Nat} {f : Space}

-- ---------------------------------------------------------------------------
-- The kernel's entries
-- ---------------------------------------------------------------------------

/-- From `s` to `s'` the entries `idxs` of the kernel's table have been copied to `upt`. -/
structure Copied (c : Mmu) (upt : Nat) (idxs : List Nat) (s s' : State α) : Prop where
  heap : s'.heap = s.heap
  kpt : s'.kpt = s.kpt
  same : ∀ x, ¬ c.inPage upt x → s'.mem x = s.mem x
  entry : ∀ i, c.Fits i → s'.entry c (c.at_ upt i)
    = if i ∈ idxs then s.entry c (c.at_ s.kpt i) else s.entry c (c.at_ upt i)

section Copying

variable {upt : Nat} {idxs idxs' : List Nat}

theorem Copied.refl (c : Mmu) (upt : Nat) (s : State α) : Copied c upt [] s s :=
  ⟨rfl, rfl, fun _ _ => rfl, fun _ _ => rfl⟩

/-- The kernel's table itself stays as it is. -/
theorem Copied.kernel (h : Copied c upt idxs s s') {phys : Nat} (hupt : c.IsPage phys upt)
    (hkpt : c.IsPage phys s.kpt) (hne : upt ≠ s.kpt) {i : Nat} (hi : c.Fits i) :
    s'.entry c (c.at_ s.kpt i) = s.entry c (c.at_ s.kpt i) :=
  Same.load fun x hlo hhi => h.same x fun hin =>
    hne (Mmu.inPage_apart hupt hkpt hin (hi.inPage hlo hhi))

theorem Copied.trans (h : Copied c upt idxs s s') (h' : Copied c upt idxs' s' s'') {phys : Nat}
    (hupt : c.IsPage phys upt) (hkpt : c.IsPage phys s.kpt) (hne : upt ≠ s.kpt) :
    Copied c upt (idxs ++ idxs') s s'' := by
  refine ⟨h'.heap.trans h.heap, h'.kpt.trans h.kpt,
    fun x hx => (h'.same x hx).trans (h.same x hx), fun i hi => ?_⟩
  rw [h'.entry i hi, h.entry i hi, h.kpt, h.kernel hupt hkpt hne hi]
  by_cases hin' : i ∈ idxs'
  · rw [if_pos hin', if_pos (List.mem_append_right _ hin')]
  · rw [if_neg hin']
    by_cases hin : i ∈ idxs
    · rw [if_pos hin, if_pos (List.mem_append_left _ hin)]
    · rw [if_neg hin, if_neg (by simp [hin, hin'])]

/-- One entry is copied. -/
theorem copied_setEntry {phys : Nat} (hupt : c.IsPage phys upt) {i : Nat} (hi : c.Fits i) :
    Copied c upt [i] s (s.setEntry c (c.at_ upt i) (s.entry c (c.at_ s.kpt i))) := by
  refine ⟨rfl, rfl, fun x hx => onlyIn_store x ?_, fun j hj => ?_⟩
  · by_contra hcon
    exact hx (hi.inPage (by omega) (by omega))
  · by_cases hji : j = i
    · subst hji
      rw [if_pos (List.mem_singleton_self j)]
      exact load_store (load_lt _ _ _)
    · rw [if_neg (fun hcon => hji (List.mem_singleton.1 hcon))]
      exact load_store_of_disjoint (Mmu.at_apart hupt hupt hi hj (.inr fun heq => hji heq.symm))

theorem copied_foldl {phys : Nat} (hupt : c.IsPage phys upt) (hkpt : c.IsPage phys s.kpt)
    (hne : upt ≠ s.kpt) (curs : List Nat) :
    Copied c upt (curs.map (indexof · c.top)) s (curs.foldl (fun s cur =>
      s.setEntry c (c.at_ upt (indexof cur c.top)) (s.entry c (c.at_ s.kpt (indexof cur c.top))))
        s) := by
  induction curs generalizing s with
  | nil => exact Copied.refl c upt s
  | cons cur curs ih =>
    have htop : c.top ∈ c.levels := List.mem_cons_self
    exact (copied_setEntry hupt (Mmu.fits_of_mem htop (Mmu.indexof_lt htop cur))).trans
      (ih hkpt hne) hupt hkpt hne

/-- **The loops of `protect`** copy the entries of the kernel's areas. -/
theorem copyKernel_copied {phys : Nat} (hupt : c.IsPage phys upt) (areas : List VmArea) :
    ∀ {s : State α}, c.IsPage phys s.kpt → upt ≠ s.kpt →
      (∀ area ∈ areas, (kernelAddrs c.wordSz c.top area).isSome) →
      ∃ s', copyKernel c upt areas s = .ok s' ∧ Copied c upt (areas.flatMap fun area =>
        ((kernelAddrs c.wordSz c.top area).getD []).map (indexof · c.top)) s s' := by
  induction areas with
  | nil => exact fun {s} _ _ _ => ⟨s, rfl, Copied.refl c upt s⟩
  | cons area areas ih =>
    intro s hkpt hne hends
    obtain ⟨curs, hcurs⟩ := Option.isSome_iff_exists.1 (hends area List.mem_cons_self)
    have hfirst := copied_foldl hupt hkpt hne curs
    rw [copyKernel, hcurs, List.flatMap_cons, hcurs]
    obtain ⟨s', hs', hrest⟩ := ih (hfirst.kpt ▸ hkpt) (hfirst.kpt ▸ hne)
      (fun area' harea' => hends area' (List.mem_cons_of_mem _ harea'))
    exact ⟨s', hs', hfirst.trans hrest hupt hkpt hne⟩

theorem copyKernel_vmAreas {phys : Nat} (hupt : c.IsPage phys upt) (hkpt : c.IsPage phys s.kpt)
    (hne : upt ≠ s.kpt) :
    ∃ s', copyKernel c upt c.vmAreas s = .ok s' ∧ Copied c upt c.kernelIdx s s' := by
  have huser : kernelAddrs c.wordSz c.top c.uvm = some [] := by
    rw [kernelAddrs, c.uvm_user]
    rfl
  rw [Mmu.vmAreas, copyKernel, huser]
  exact copyKernel_copied hupt c.others hkpt hne c.loops_end

end Copying

-- ---------------------------------------------------------------------------
-- protect
-- ---------------------------------------------------------------------------

/-- An address space that is not there has no tables. -/
theorem Rep.no_table (h : Rep E s T σ) (hnone : σ as = none) (path : List Nat) :
    T (as, path) = none := by
  cases hT : T (as, path) with
  | none => rfl
  | some p =>
    obtain ⟨q, hq⟩ : ∃ q, T (as, []) = some q := h.closed_append path p hT
    obtain ⟨f, hf⟩ := (h.root as).1 ⟨q, hq⟩
    rw [hnone] at hf
    cases hf

/-- The kernel's table is as it has been. -/
theorem Placed.kernel_entry (h : Placed E s T) {i : Nat} (hi : c.Fits i) :
    s.entry c (c.at_ s.kpt i) = E.kernelEntry i := by
  rw [h.kpt]
  refine Same.load fun x hlo hhi => ?_
  have hin : c.inPage E.boot.kpt x := hi.inPage hlo hhi
  exact h.same x (E.kernel_outer x hin) fun as has => E.kernel_apart as x has hin

/-- The stores to the struct. -/
def fillSpace (c : Mmu) (as upt : Nat) (s : State α) : State α :=
  (({ s with mem := store s.mem as 4 c.pgsize }.setEntry c (c.startOf as) c.uvm.start).setEntry c
    (c.endOf as) c.uvm.stop).setEntry c (c.ptrOf as) (upt ||| pteP ||| pteU)

theorem fillSpace_onlyIn (as upt : Nat) (s : State α) :
    OnlyIn s.mem (fillSpace c as upt s).mem as (as + c.spaceSz) := by
  have hword := c.wordSz_pos
  have hsz : c.spaceSz = 4 * c.wordSz := rfl
  refine OnlyIn.store (OnlyIn.store (OnlyIn.store (OnlyIn.store (OnlyIn.refl _ _ _)
    (Nat.le_refl _) (by omega)) ?_ ?_) ?_ ?_) ?_ ?_
  all_goals
    simp only [Mmu.startOf, Mmu.endOf, Mmu.ptrOf]
    omega

/-- From `s` to `s'` there is a new first table `upt` with the kernel's entries, and the struct
points to it. -/
structure Made (L : pg.Laws c) (as upt : Nat) (s s' : State α) : Prop where
  took : ∃ s₁, Took L upt s s₁ ∧ s' = { s₁ with mem := s'.mem } ∧
    ∀ x, s'.mem x ≠ s₁.mem x → c.inPage upt x ∨ as ≤ x ∧ x < as + c.spaceSz
  root : ∀ i, c.Fits i → s'.entry c (c.at_ upt i)
    = if i ∈ c.kernelIdx then s.entry c (c.at_ s.kpt i) else 0
  ptr : s'.entry c (c.ptrOf as) = upt ||| pteP ||| pteU

theorem protect_made (h : Placed E s T) (has : E.structs as) :
    match protect pg c as s with
    | .error e => e = .cannotAllocate
    | .ok s' => ∃ upt, Made L as upt s s' := by
  unfold Vme.protect
  cases halloc : pgallocz pg c s with
  | error e => exact pgallocz_error halloc
  | ok r =>
    obtain ⟨upt, s₁⟩ := r
    have ht := pgallocz_took h.ok halloc
    have hinner : ∀ x, c.inPage upt x → ¬ E.outer x := fun x hx => h.owned x (ht.given x hx)
    have hkpt : s₁.kpt = E.boot.kpt := ht.kpt.trans h.kpt
    have hne : upt ≠ s₁.kpt := by
      rw [hkpt]
      rintro rfl
      have hself : c.inPage E.boot.kpt E.boot.kpt :=
        ⟨Nat.le_refl _, Nat.lt_add_of_pos_right c.pgsize_pos⟩
      exact hinner _ hself (E.kernel_outer _ hself)
    obtain ⟨s₂, hs₂, hcopy⟩ := copyKernel_vmAreas ht.page (hkpt ▸ E.kernel_page) hne
    rw [ok_bind]
    simp only [hs₂, ok_bind]
    refine ⟨upt, ⟨s₁, ht, ?_, fun x hx => ?_⟩, fun i hi => ?_, ?_⟩
    · change fillSpace c as upt s₂ = { s₁ with mem := (fillSpace c as upt s₂).mem }
      rw [← hcopy.heap, ← hcopy.kpt]
      rfl
    · by_contra hcon
      rw [not_or] at hcon
      exact hx ((fillSpace_onlyIn as upt s₂ x (by omega)).trans (hcopy.same x hcon.1))
    · -- the entries lie apart from the struct
      have hstruct : (fillSpace c as upt s₂).entry c (c.at_ upt i) = s₂.entry c (c.at_ upt i) := by
        refine Same.load fun x hlo hhi => fillSpace_onlyIn as upt s₂ x ?_
        by_contra hcon
        exact hinner x (hi.inPage hlo hhi) (E.structs_outer as x has (by omega) (by omega))
      change (fillSpace c as upt s₂).entry c (c.at_ upt i) = _
      rw [hstruct, hcopy.entry i hi, ht.zero i hi]
      by_cases hkernel : i ∈ c.kernelIdx
      · rw [if_pos hkernel, if_pos hkernel, ht.kpt]
        refine Same.load fun x hlo hhi => ht.same x fun howns => ?_
        rw [h.kpt] at hlo hhi
        exact h.owned x howns (E.kernel_outer x (hi.inPage hlo hhi))
      · rw [if_neg hkernel, if_neg hkernel]
    · change (fillSpace c as upt s₂).entry c (c.ptrOf as) = _
      apply entry_setEntry
      rw [Nat.or_assoc]
      exact (or_lt ht.page (lt_pgsize c (by decide))).trans_le
        (Nat.pow_le_pow_right (by omega) L.phys_le)

/-- **A new address space** has nothing in it. -/
theorem Rep.newSpace (h : Rep E s T σ) (has : E.structs as) (hnone : σ as = none) {upt : Nat}
    (hmade : Made L as upt s s') :
    Rep E s' (Function.update T (as, []) (some upt))
      (Function.update σ as (some fun _ => none)) := by
  obtain ⟨⟨s₁, ht, heq, hmem⟩, hroot, hptr⟩ := hmade
  have hTnone := h.no_table hnone
  have hgrown := h.toPlaced.grow ht (hTnone [])
    (fun path i hnil =>
      absurd hnil.symm (List.append_ne_nil_of_right_ne_nil _ (List.cons_ne_nil _ _)))
    ⟨0, [], c.levels, rfl, List.cons_ne_nil _ _, rfl, fun hcon => absurd rfl hcon⟩
  have hinner : ∀ x, c.inPage upt x → ¬ E.outer x := fun x hx => h.owned x (ht.given x hx)
  have hplaced : Placed E s' (Function.update T (as, []) (some upt)) := by
    rw [heq]
    apply hgrown.write
    intro x hx
    rcases hmem x hx with hin | hstruct
    · exact .inl ⟨(as, []), upt, Function.update_self .., hin⟩
    · exact .inr ⟨as, has, hstruct⟩
  have hkeep : ∀ a r, T a = some r → Function.update T (as, []) (some upt) a = some r := by
    intro a r ha
    rw [Function.update_of_ne _]
    · exact ha
    · rintro rfl
      rw [hTnone] at ha
      cases ha
  have hlook : ∀ as' f', Function.update σ as (some fun _ => none) as' = some f' →
      (as' = as ∧ f' = fun _ => none) ∨ (as' ≠ as ∧ σ as' = some f') := by
    intro as' f' hf'
    by_cases has' : as' = as
    · subst has'
      rw [Function.update_self] at hf'
      exact .inl ⟨rfl, (Option.some.inj hf').symm⟩
    · rw [Function.update_of_ne has'] at hf'
      exact .inr ⟨has', hf'⟩
  -- the words that neither the new table nor the struct holds
  have hframe : ∀ a, (∀ x, a ≤ x → x < a + c.wordSz → ¬ c.inPage upt x ∧
      ¬ (as ≤ x ∧ x < as + c.spaceSz)) → s'.entry c a = s₁.entry c a := by
    intro a ha
    refine Same.load fun x hlo hhi => ?_
    by_contra hne
    rcases hmem x hne with hin | hstruct
    · exact (ha x hlo hhi).1 hin
    · exact (ha x hlo hhi).2 hstruct
  refine ⟨hplaced, fun as' f' hf' => ?_, fun as' => ?_, fun as' f' va pa write hf' hva => ?_,
    fun as' f' va done infos hf' hne hl hi => ?_, fun as' r hr => ?_,
    fun as' f' path r done info infos j hr hf' hl hlen hj => ?_⟩
  · rcases hlook as' f' hf' with ⟨rfl, -⟩ | ⟨-, hf'⟩
    · exact has
    · exact h.structs as' f' hf'
  · by_cases has' : as' = as
    · subst has'
      rw [Function.update_self, Function.update_self]
      exact ⟨fun _ => ⟨_, rfl⟩, fun _ => ⟨_, rfl⟩⟩
    · rw [Function.update_of_ne has', Function.update_of_ne fun hcon => has' (Prod.mk.inj hcon).1]
      exact h.root as'
  · rcases hlook as' f' hf' with ⟨-, rfl⟩ | ⟨-, hf'⟩
    · cases hva
    · exact h.user as' f' va pa write hf' hva
  · rcases hlook as' f' hf' with ⟨-, rfl⟩ | ⟨-, hf'⟩
    · exact absurd rfl hne
    · obtain ⟨r, hr⟩ := h.mapped as' f' va done infos hf' hne hl hi
      exact ⟨r, hkeep _ _ hr⟩
  · by_cases has' : as' = as
    · subst has'
      rw [Function.update_self] at hr
      obtain rfl := Option.some.inj hr
      exact hptr
    · rw [Function.update_of_ne fun hcon => has' (Prod.mk.inj hcon).1] at hr
      obtain ⟨g, hg⟩ := (h.root as').1 ⟨r, hr⟩
      have hstruct := h.structs as' g hg
      have hlo : as' ≤ c.ptrOf as' := Nat.le_add_right _ _
      have hhi := c.ptrOf_le as'
      rw [hframe, ht.entry_struct h.toPlaced hstruct hlo hhi]
      · exact h.ptr as' r hr
      · intro x hx hx'
        have hapart := E.structs_apart as' as hstruct has has'
        refine ⟨fun hin => hinner x hin (E.structs_outer as' x hstruct ?_ ?_), ?_⟩
        all_goals omega
  · have hj' := Mmu.fits_of_mem (Mmu.mem_levels hl) hj
    by_cases hb : (as', path) = (as, [])
    · -- the new table has the kernel's entries only
      obtain ⟨rfl, rfl⟩ := Prod.mk.inj hb
      rw [Function.update_self] at hr
      obtain rfl := Option.some.inj hr
      obtain rfl : done = [] := List.length_eq_zero_iff.1 hlen
      obtain ⟨rfl, rfl⟩ := List.cons.inj (show c.top :: c.rest = info :: infos from hl)
      rw [hroot j hj', h.kernel_entry hj']
      cases hrest : c.rest with
      | nil => exact absurd hrest c.rest_ne_nil
      | cons below infos =>
        have hother : (as', [] ++ [j]) ≠ (as', []) := by
          intro hcon
          cases (Prod.mk.inj hcon).2
        rw [word_update hother, word, hTnone]
        simp only [true_and]
        rfl
    · rw [Function.update_of_ne hb] at hr
      have has' : as' ≠ as := by
        rintro rfl
        rw [hTnone] at hr
        cases hr
      rcases hlook as' f' hf' with ⟨rfl, -⟩ | ⟨-, hf'⟩
      · exact absurd rfl has'
      rw [hframe, ht.entry h.toPlaced hr hj', word_update fun hcon => has' (Prod.mk.inj hcon).1]
      · exact h.words as' f' path r done info infos j hr hf' hl hlen hj
      · intro x hx hx'
        have hin : c.inPage r x := hj'.inPage hx hx'
        refine ⟨fun hnew => ?_, fun hstruct => ?_⟩
        · exact (h.apart _ r x hr hin).1 (ht.given x hnew)
        · exact (h.apart _ r x hr hin).2 (E.structs_outer as x has hstruct.1 hstruct.2)

-- ---------------------------------------------------------------------------
-- teardown
-- ---------------------------------------------------------------------------

/-- From `s` to `s'` the pages `gone` have been given back, and no other page. -/
structure Freed (L : pg.Laws c) (gone : Nat → Prop) (s s' : State α) : Prop where
  kpt : s'.kpt = s.kpt
  ok : L.ok s'.mem s'.heap
  live : ∀ p, L.live s'.heap p ↔ L.live s.heap p ∧ ¬ gone p
  owned : ∀ x, L.owns s'.heap x → L.owns s.heap x ∨ ∃ p, gone p ∧ c.inPage p x
  same : ∀ x, ¬ L.owns s.heap x → (∀ p, gone p → ¬ c.inPage p x) → s'.mem x = s.mem x

section Freeing

variable {gone gone' : Nat → Prop}

theorem Freed.refl (hok : L.ok s.mem s.heap) : Freed L (fun _ => False) s s :=
  ⟨rfl, hok, fun _ => ⟨fun h => ⟨h, id⟩, And.left⟩, fun _ h => .inl h, fun _ _ _ => rfl⟩

theorem Freed.trans (h : Freed L gone s s') (h' : Freed L gone' s' s'') :
    Freed L (fun p => gone p ∨ gone' p) s s'' := by
  refine ⟨h'.kpt.trans h.kpt, h'.ok, fun p => ?_, fun x hx => ?_, fun x hx hout => ?_⟩
  · rw [h'.live, h.live, not_or, and_assoc]
  · rcases h'.owned x hx with hx | ⟨p, hp, hin⟩
    · rcases h.owned x hx with hx | ⟨p, hp, hin⟩
      · exact .inl hx
      · exact .inr ⟨p, .inl hp, hin⟩
    · exact .inr ⟨p, .inr hp, hin⟩
  · have hsame := h.same x hx fun p hp => hout p (.inl hp)
    refine (h'.same x (fun howns => ?_) fun p hp => hout p (.inr hp)).trans hsame
    rcases h.owned x howns with howns | ⟨p, hp, hin⟩
    · exact hx howns
    · exact hout p (.inl hp) hin

theorem Freed.congr (h : Freed L gone s s') (hgone : ∀ p, gone p ↔ gone' p) :
    Freed L gone' s s' := by
  obtain rfl : gone = gone' := funext fun p => propext (hgone p)
  exact h

/-- One page is given back. -/
theorem freed_pgfree (hok : L.ok s.mem s.heap) {p : Nat} (hlive : L.live s.heap p) :
    Freed L (· = p) s
      { s with mem := (pg.pgfree p s.mem s.heap).1, heap := (pg.pgfree p s.mem s.heap).2 } := by
  obtain ⟨hok', hlive', howned, hsame⟩ := L.free hok hlive (Prod.eta _).symm
  refine ⟨rfl, hok', hlive', fun x hx => ?_, fun x hx hout => hsame x hx (hout p rfl)⟩
  rcases howned x hx with hx | hin
  · exact .inl hx
  · exact .inr ⟨p, rfl, hin⟩

/-- The tables from `path` on: they are there, and they hold what they should. -/
structure Subtree (E : Scene L) (T : Tables) (f : Space) (as : Nat) (path : List Nat)
    (s : State α) : Prop where
  ok : L.ok s.mem s.heap
  live : ∀ ext q, T (as, path ++ ext) = some q → L.live s.heap q
  apart : ∀ ext q x, T (as, path ++ ext) = some q → c.inPage q x → ¬ L.owns s.heap x
  words : ∀ ext q done info infos i, T (as, path ++ ext) = some q →
    c.levels = done ++ info :: infos → done.length = (path ++ ext).length → i < 2 ^ info.bits →
    s.entry c (c.at_ q i) = word c E.kernelEntry T f as (path ++ ext) infos i

theorem Rep.subtree (h : Rep E s T σ) (hf : σ as = some f) : Subtree E T f as [] s :=
  ⟨h.ok, fun _ q hq => (h.live q).2 (.inr ⟨_, hq⟩),
    fun _ q x hq hin => (h.apart _ q x hq hin).1,
    fun ext q done info infos i hq hl hlen hi =>
      h.words as f ext q done info infos i hq hf hl hlen hi⟩

variable {path : List Nat}

theorem Subtree.child (h : Subtree E T f as path s) (i : Nat) :
    Subtree E T f as (path ++ [i]) s := by
  refine ⟨h.ok, fun ext q hq => ?_, fun ext q x hq hin => ?_,
    fun ext q done info infos j hq hl hlen hj => ?_⟩
  · rw [List.append_assoc] at hq
    exact h.live _ q hq
  · rw [List.append_assoc] at hq
    exact h.apart _ q x hq hin
  · rw [List.append_assoc] at hq hlen ⊢
    exact h.words _ q done info infos j hq hl hlen hj

/-- The entries of a table that is not among the pages given back. -/
theorem Freed.entry (h : Freed L gone s s') (hplaced : Placed E s'' T) {a : Nat × List Nat}
    {q i : Nat} (hq : T a = some q) (hi : c.Fits i)
    (howns : ∀ x, c.inPage q x → ¬ L.owns s.heap x)
    (hgone : ∀ p, gone p → (∃ b, T b = some p) ∧ p ≠ q) :
    s'.entry c (c.at_ q i) = s.entry c (c.at_ q i) := by
  refine Same.load fun x hlo hhi => ?_
  have hin := hi.inPage hlo hhi
  refine h.same x (howns x hin) fun p hp hin' => ?_
  obtain ⟨⟨b, hb⟩, hne⟩ := hgone p hp
  exact hne (Mmu.inPage_apart (hplaced.page b p hb) (hplaced.page a q hq) hin' hin)

/-- The tables from `path` on are not touched when other pages are given back. -/
theorem Subtree.freed (h : Subtree E T f as path s) (hplaced : Placed E s'' T)
    (hfreed : Freed L gone s s')
    (hgone : ∀ p, gone p → (∃ a, T a = some p) ∧ ∀ ext, T (as, path ++ ext) ≠ some p) :
    Subtree E T f as path s' := by
  have hne : ∀ ext q, T (as, path ++ ext) = some q → ∀ p, gone p → (∃ a, T a = some p) ∧ p ≠ q := by
    rintro ext q hq p hp
    refine ⟨(hgone p hp).1, ?_⟩
    rintro rfl
    exact (hgone p hp).2 ext hq
  refine ⟨hfreed.ok, fun ext q hq => ?_, fun ext q x hq hin howns => ?_,
    fun ext q done info infos j hq hl hlen hj => ?_⟩
  · exact (hfreed.live q).2 ⟨h.live ext q hq, fun hcon => (hgone q hcon).2 ext hq⟩
  · rcases hfreed.owned x howns with howns | ⟨p, hp, hin'⟩
    · exact h.apart ext q x hq hin howns
    · obtain ⟨⟨a, ha⟩, hpq⟩ := hne ext q hq p hp
      exact hpq (Mmu.inPage_apart (hplaced.page a p ha) (hplaced.page _ q hq) hin' hin)
  · rw [← h.words ext q done info infos j hq hl hlen hj]
    exact hfreed.entry hplaced hq (Mmu.fits_of_mem (Mmu.mem_levels hl) hj)
      (fun x hin => h.apart ext q x hq hin) (hne ext q hq)

end Freeing

section Teardown

variable {path : List Nat} {done infos : List PtInfo} {info : PtInfo}

theorem Placed.length_lt (h : Placed E s T) (hT : T (as, path) = some p) :
    path.length < c.levels.length := by
  obtain ⟨va, done, infos, hlevels, hinfos, rfl, -⟩ := h.made _ _ _ hT
  have hpos := List.length_pos_iff.2 hinfos
  rw [hlevels, pathOf, List.length_map, List.length_append]
  omega

/-- The indices on the way to a table. -/
theorem Placed.index_lt (h : Placed E s T) {i : Nat} {ext : List Nat}
    (hT : T (as, path ++ i :: ext) = some p) (hlevels : c.levels = done ++ info :: infos)
    (hlen : done.length = path.length) : i < 2 ^ info.bits := by
  obtain ⟨va, front, back, hsplit, -, hpath, -⟩ := h.made _ _ _ hT
  obtain ⟨d₁, d₂, rfl, rfl, htail⟩ := List.map_eq_append_iff.1 hpath.symm
  obtain ⟨x, d₃, rfl, rfl, rfl⟩ := List.map_eq_cons_iff.1 htail
  rw [List.append_assoc, List.cons_append] at hsplit
  obtain ⟨-, rfl, -⟩ := Mmu.levels_split hsplit hlevels (hlen.trans (List.length_map _))
  exact Mmu.indexof_lt (Mmu.mem_levels hlevels) va

/-- Whether an entry leads `teardown` further down, and where. -/
theorem word_descends (f : Space) (as : Nat) (h : Placed E s T) (path : List Nat) (below : PtInfo)
    (infos : List PtInfo) (i : Nat) :
    match T (as, path ++ [i]) with
    | none => ¬ (word c E.kernelEntry T f as path (below :: infos) i &&& pteP ≠ 0 ∧
        word c E.kernelEntry T f as path (below :: infos) i &&& pteU ≠ 0)
    | some r => (word c E.kernelEntry T f as path (below :: infos) i &&& pteP ≠ 0 ∧
        word c E.kernelEntry T f as path (below :: infos) i &&& pteU ≠ 0) ∧
        c.baseof (word c E.kernelEntry T f as path (below :: infos) i) = r := by
  rw [word]
  cases hnext : T (as, path ++ [i]) with
  | none =>
    by_cases hkernel : path = [] ∧ i ∈ c.kernelIdx
    · rw [if_pos hkernel]
      exact fun hcon => hcon.2 (E.supervisor i hkernel.2)
    · rw [if_neg hkernel]
      exact fun hcon => hcon.1 (Nat.zero_and _)
  | some r =>
    have hpage := h.page _ r hnext
    obtain ⟨hpresent, hbase⟩ := tableWord_present (L := L) hpage
    rw [if_neg]
    · refine ⟨⟨hpresent, ?_⟩, hbase⟩
      rw [tableWord, Nat.or_assoc, or_and hpage.aligned (lt_pgsize c (by decide))]
      decide
    · rintro ⟨rfl, hkernel⟩
      exact h.not_mem_kernelIdx hnext hkernel

/-- **`teardown`** gives back the table at `path` and those below it, each once. -/
theorem teardown_freed (hplaced : Placed E s'' T) (hlevels : c.levels = done ++ infos)
    (hlen : done.length = path.length) (hT : T (as, path) = some p)
    (h : Subtree E T f as path s) (level : Nat) :
    Freed L (fun q => ∃ ext, T (as, path ++ ext) = some q) s
      (teardown pg c infos (level + 1) p s) := by
  induction infos generalizing done path p s level with
  | nil =>
    have hlt := hplaced.length_lt hT
    rw [hlevels, List.append_nil, hlen] at hlt
    exact absurd hlt (Nat.lt_irrefl _)
  | cons info infos ih =>
    have hself : ∀ i ext q, T (as, path ++ i :: ext) = some q → q ≠ p := by
      rintro i ext q hq rfl
      have heq := (Prod.mk.inj (hplaced.inj _ _ q hq hT)).2
      exact List.cons_ne_nil i ext (List.append_right_eq_self.1 heq)
    -- the tables behind the first `n` entries
    have hloop : ∀ n, n ≤ 2 ^ info.bits →
        Freed L (fun q => ∃ i < n, ∃ ext, T (as, path ++ i :: ext) = some q) s
          ((List.range n).foldl (fun s index =>
            let e := s.entry c (c.at_ p index)
            if e &&& pteP ≠ 0 ∧ e &&& pteU ≠ 0 then
              teardown pg c infos (level + 1 + 1) (c.baseof e) s
            else s) s) := by
      intro n
      induction n with
      | zero =>
        intro _
        exact (Freed.refl h.ok).congr fun q => by simp
      | succ k ihk =>
        intro hk
        have hfreed := ihk (by omega)
        rw [List.range_succ, List.foldl_append, List.foldl_cons, List.foldl_nil]
        generalize (List.range k).foldl _ s = sk at hfreed ⊢
        have hword : sk.entry c (c.at_ p k) = word c E.kernelEntry T f as path infos k := by
          have hpath : T (as, path ++ []) = some p := by rwa [List.append_nil]
          have hwords := h.words [] p done info infos k hpath hlevels (by rwa [List.append_nil]) hk
          rw [List.append_nil] at hwords
          rw [← hwords]
          refine hfreed.entry hplaced hT (Mmu.fits_of_mem (Mmu.mem_levels hlevels) hk)
            (fun x hin => h.apart [] p x hpath hin) fun q hq => ?_
          obtain ⟨i, -, ext, hq⟩ := hq
          exact ⟨⟨_, hq⟩, hself i ext q hq⟩
        -- one entry more
        have hmore : ∀ s', Freed L (fun q => ∃ ext, T (as, (path ++ [k]) ++ ext) = some q) sk s' →
            Freed L (fun q => ∃ i < k + 1, ∃ ext, T (as, path ++ i :: ext) = some q) s s' := by
          intro s' hs'
          refine (hfreed.trans hs').congr fun q => ?_
          constructor
          · rintro (⟨i, hi, ext, hq⟩ | ⟨ext, hq⟩)
            · exact ⟨i, by omega, ext, hq⟩
            · exact ⟨k, Nat.lt_succ_self k, ext, by rwa [List.append_assoc] at hq⟩
          · rintro ⟨i, hi, ext, hq⟩
            rcases Nat.lt_succ_iff_lt_or_eq.1 hi with hlt | rfl
            · exact .inl ⟨i, hlt, ext, hq⟩
            · exact .inr ⟨ext, by rwa [List.append_assoc]⟩
        have hnothing : T (as, path ++ [k]) = none → ∀ q,
            False ↔ ∃ ext, T (as, (path ++ [k]) ++ ext) = some q := by
          refine fun hnone q => ⟨False.elim, fun ⟨ext, hq⟩ => ?_⟩
          obtain ⟨r, hr⟩ := hplaced.closed_append ext q hq
          rw [hnone] at hr
          cases hr
        simp only [hword]
        cases infos with
        | nil =>
          have hnone : T (as, path ++ [k]) = none := by
            cases hnext : T (as, path ++ [k]) with
            | none => rfl
            | some r =>
              have hlt := hplaced.length_lt hnext
              rw [hlevels, List.length_append, List.length_append, hlen] at hlt
              exact absurd hlt (Nat.lt_irrefl _)
          rw [show teardown pg c [] (level + 1 + 1) _ sk = sk from rfl, ite_self]
          exact hmore sk ((Freed.refl hfreed.ok).congr (hnothing hnone))
        | cons below infos =>
          have hdescends := word_descends f as hplaced path below infos k
          cases hnext : T (as, path ++ [k]) with
          | none =>
            rw [hnext] at hdescends
            rw [if_neg hdescends]
            exact hmore sk ((Freed.refl hfreed.ok).congr (hnothing hnext))
          | some r =>
            rw [hnext] at hdescends
            rw [if_pos hdescends.1, hdescends.2]
            have hsplit : c.levels = (done ++ [info]) ++ below :: infos := by
              rw [hlevels, List.append_assoc]
              rfl
            refine hmore _ (ih hsplit
              (by rw [List.length_append, List.length_append, hlen]; rfl) hnext
              ((h.child k).freed hplaced hfreed fun q hq => ?_) (level + 1))
            obtain ⟨i, hi, ext, hq⟩ := hq
            refine ⟨⟨_, hq⟩, fun ext' hq' => ?_⟩
            have heq := (Prod.mk.inj (hplaced.inj _ _ q hq hq')).2
            rw [List.append_assoc] at heq
            obtain ⟨rfl, -⟩ := List.cons.inj (List.append_cancel_left heq)
            exact absurd hi (Nat.lt_irrefl _)
    have hall := hloop _ (Nat.le_refl _)
    rw [teardown]
    simp only
    rw [if_pos (Nat.le_add_left 1 level)]
    have hlive : L.live s.heap p := h.live [] p (by rwa [List.append_nil])
    refine (hall.trans (freed_pgfree hall.ok ((hall.live p).2 ⟨hlive, ?_⟩))).congr fun q => ?_
    · rintro ⟨i, -, ext, hq⟩
      exact hself i ext p hq rfl
    · constructor
      · rintro (⟨i, -, ext, hq⟩ | rfl)
        · exact ⟨i :: ext, hq⟩
        · exact ⟨[], by rwa [List.append_nil]⟩
      · rintro ⟨ext, hq⟩
        cases ext with
        | nil =>
          rw [List.append_nil, hT] at hq
          exact .inr (Option.some.inj hq).symm
        | cons i ext => exact .inl ⟨i, hplaced.index_lt hq hlevels hlen, ext, hq⟩

end Teardown

-- ---------------------------------------------------------------------------
-- unprotect
-- ---------------------------------------------------------------------------

theorem Rep.unprotect_freed (h : Rep E s T σ) (hf : σ as = some f) :
    Freed L (fun q => ∃ path, T (as, path) = some q) s (unprotect pg c as s) := by
  obtain ⟨p, hp⟩ := (h.root as).2 ⟨f, hf⟩
  have hpage := h.page _ p hp
  have hptr : s.entry c (c.at_ (c.ptrOf as) 0) = p ||| pteP ||| pteU := h.ptr as p hp
  have hfreed := teardown_freed h.toPlaced (List.nil_append _).symm rfl hp (h.subtree hf) 0
  have hflags : (p ||| pteP ||| pteU) &&& pteP ≠ 0 ∧ (p ||| pteP ||| pteU) &&& pteU ≠ 0 := by
    rw [Nat.or_assoc, or_and hpage.aligned (lt_pgsize c (by decide)),
      or_and hpage.aligned (lt_pgsize c (by decide))]
    decide
  have hbase : c.baseof (p ||| pteP ||| pteU) = p := by
    rw [Nat.or_assoc, baseof_or hpage L.phys_le (lt_pgsize c (by decide))]
  have hrun : unprotect pg c as s = teardown pg c c.levels 1 p s := by
    rw [unprotect, Mmu.pgtables, teardown, c.cr3_eq]
    simp only [pow_zero, List.range_one, List.foldl_cons, List.foldl_nil, hptr]
    rw [if_pos hflags, hbase]
    rfl
  rw [hrun]
  exact hfreed

/-- **`unprotect`** gives back the tables of the address space, and leaves the others alone. -/
theorem Rep.unprotected (h : Rep E s T σ) (hf : σ as = some f) :
    Rep E (unprotect pg c as s) (fun a => if a.1 = as then none else T a)
      (Function.update σ as none) := by
  have hfreed := h.unprotect_freed hf
  have hlook : ∀ b q, (if b.1 = as then none else T b) = some q → b.1 ≠ as ∧ T b = some q := by
    intro b q hb
    by_cases has : b.1 = as
    · rw [if_pos has] at hb
      cases hb
    · rw [if_neg has] at hb
      exact ⟨has, hb⟩
  have hlookup : ∀ as' f', Function.update σ as none as' = some f' →
      as' ≠ as ∧ σ as' = some f' := by
    intro as' f' hf'
    by_cases has : as' = as
    · subst has
      rw [Function.update_self] at hf'
      cases hf'
    · rw [Function.update_of_ne has] at hf'
      exact ⟨has, hf'⟩
  have hgone : ∀ b q, b.1 ≠ as → T b = some q → ∀ p, (∃ path, T (as, path) = some p) →
      (∃ a, T a = some p) ∧ p ≠ q := by
    rintro b q hb hq p ⟨path, hp⟩
    refine ⟨⟨_, hp⟩, ?_⟩
    rintro rfl
    exact hb (congrArg Prod.fst (h.inj _ _ p hq hp))
  have hkeep : ∀ x, E.outer x → (unprotect pg c as s).mem x = s.mem x := by
    refine fun x hx => hfreed.same x (fun howns => h.owned x howns hx) ?_
    rintro p ⟨path, hp⟩ hin
    exact (h.apart _ p x hp hin).2 hx
  have hplaced : Placed E (unprotect pg c as s) (fun a => if a.1 = as then none else T a) := by
    refine ⟨hfreed.kpt.trans h.kpt, hfreed.ok, fun x hx houter => ?_, fun x hx hstruct => ?_,
      fun p => ?_, fun b p hb => ?_, fun b p hb => ?_, fun b p x hb hin => ?_,
      fun b b' p hb hb' => ?_,
      fun as' path i q hq => ?_, fun as' path q hq => ?_⟩
    · rcases hfreed.owned x hx with hx | ⟨p, ⟨path, hp⟩, hin⟩
      · exact h.owned x hx houter
      · exact (h.apart _ p x hp hin).2 houter
    · exact (hkeep x hx).trans (h.same x hx hstruct)
    · rw [hfreed.live, h.live]
      constructor
      · rintro ⟨hboot | ⟨b, hb⟩, hnot⟩
        · exact .inl hboot
        · refine .inr ⟨b, ?_⟩
          rw [if_neg]
          · exact hb
          · rintro rfl
            exact hnot ⟨b.2, hb⟩
      · rintro (hboot | ⟨b, hb⟩)
        · exact ⟨.inl hboot, fun ⟨path, hp⟩ => h.fresh _ p hp hboot⟩
        · obtain ⟨has, hb⟩ := hlook b p hb
          exact ⟨.inr ⟨b, hb⟩, fun hp => (hgone b p has hb p hp).2 rfl⟩
    · exact h.fresh b p (hlook b p hb).2
    · exact h.page b p (hlook b p hb).2
    · obtain ⟨has, hb⟩ := hlook b p hb
      obtain ⟨howns, houter⟩ := h.apart b p x hb hin
      refine ⟨fun hx => ?_, houter⟩
      rcases hfreed.owned x hx with hx | ⟨q, hq, hin'⟩
      · exact howns hx
      · obtain ⟨⟨a, ha⟩, hne⟩ := hgone b p has hb q hq
        exact hne (Mmu.inPage_apart (h.page a q ha) (h.page b p hb) hin' hin)
    · exact h.inj b b' p (hlook b p hb).2 (hlook b' p hb').2
    · obtain ⟨has, hq⟩ := hlook _ q hq
      obtain ⟨p, hp⟩ := h.closed as' path i q hq
      exact ⟨p, by rw [if_neg has]; exact hp⟩
    · exact h.made as' path q (hlook _ q hq).2
  refine ⟨hplaced, fun as' f' hf' => h.structs as' f' (hlookup as' f' hf').2, fun as' => ?_,
    fun as' f' va pa write hf' hva => h.user as' f' va pa write (hlookup as' f' hf').2 hva,
    fun as' f' va done infos hf' hne hl hi => ?_, fun as' r hr => ?_,
    fun as' f' path r done info infos j hr hf' hl hlen hj => ?_⟩
  · by_cases has : as' = as
    · subst has
      simp
    · rw [Function.update_of_ne has, if_neg has]
      exact h.root as'
  · obtain ⟨has, hf'⟩ := hlookup as' f' hf'
    obtain ⟨p, hp⟩ := h.mapped as' f' va done infos hf' hne hl hi
    exact ⟨p, by rw [if_neg has]; exact hp⟩
  · obtain ⟨has, hr⟩ := hlook _ r hr
    obtain ⟨g, hg⟩ := (h.root as').1 ⟨r, hr⟩
    rw [← h.ptr as' r hr]
    refine Same.load fun x hlo hhi => hkeep x ?_
    have hptr := c.ptrOf_le as'
    have hle : as' ≤ c.ptrOf as' := Nat.le_add_right _ _
    exact E.structs_outer as' x (h.structs as' g hg) (by omega) (by omega)
  · obtain ⟨has, hr⟩ := hlook _ r hr
    obtain ⟨-, hf'⟩ := hlookup as' f' hf'
    rw [hfreed.entry h.toPlaced hr (Mmu.fits_of_mem (Mmu.mem_levels hl) hj)
      (fun x hin => (h.apart _ r x hr hin).1) (hgone _ r has hr),
      h.words as' f' path r done info infos j hr hf' hl hlen hj]
    unfold word
    simp only
    rw [if_neg has]

end MyOs.Vme
