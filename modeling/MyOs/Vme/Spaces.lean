import MyOs.Lib.Transition
import MyOs.Vme.Operations

/-!
# vme — what the processor sees

Calls of `protect`, `unprotect` and `map`, by any number of address spaces, beside what they
are for: an address space maps pages to pages.

* `run_spec` — **each call does what it is for**, and fails when it has to, or for want of a page.
* `translate_spec` — **the processor's walk** of the tables of an address space finds the page
  that is mapped, the kernel's own pages, and nothing else.
* `live_iff` — **no page is lost**: without address spaces all pages are back.
-/

namespace MyOs.Vme

open MyOs.Memory MyOs.Radix MyOs.Transition

variable {α : Type}

-- ---------------------------------------------------------------------------
-- Calls
-- ---------------------------------------------------------------------------

inductive Call
  | protect (as : Nat)
  | unprotect (as : Nat)
  | map (as va pa prot : Nat)

def Call.run (pg : Pager α) (c : Mmu) : Call → State α → Result (State α)
  | .protect as, s => Vme.protect pg c as s
  | .unprotect as, s => .ok (Vme.unprotect pg c as s)
  | .map as va pa prot, s => Vme.map pg c as va pa prot s

/-- What `map` does to an address space. -/
def Space.map (c : Mmu) (va pa prot : Nat) (f : Space) : Result Space :=
  if ¬ (c.uvm.start ≤ va ∧ va < c.uvm.stop) then .error .invalidAddress
  else if ¬ (c.pgsize ∣ va ∧ c.pgsize ∣ pa) then .error .nonPageBoundary
  else if prot = mmapNone then
    if f va = none then .error .notMapped else .ok (Function.update f va none)
  else if f va ≠ none then .error .remapping
  else .ok (Function.update f va (some (pa, prot &&& mmapWrite ≠ 0)))

/-- What a call is for. -/
def Call.spec (c : Mmu) : Call → Spaces → Result Spaces
  | .protect as, σ => .ok (Function.update σ as (some fun _ => none))
  | .unprotect as, σ => .ok (Function.update σ as none)
  | .map as va pa prot, σ =>
    match σ as with
    | none => .ok σ
    | some f => (f.map c va pa prot).map fun f' => Function.update σ as (some f')

variable {pg : Pager α} {c : Mmu} {L : pg.Laws c}

/-- What the client keeps to: a struct holds one address space at a time, and is not used before
`protect` or after `unprotect`. Pages that are mapped lie in the physical memory. -/
def Allowed (E : Scene L) (σ : Spaces) : Call → Prop
  | .protect as => E.structs as ∧ σ as = none
  | .unprotect as => ∃ f, σ as = some f
  | .map as _ pa _ => (∃ f, σ as = some f) ∧ pa + c.pgsize ≤ 2 ^ L.phys

def Step (E : Scene L) (x : State α × Spaces) (call : Call) (x' : State α × Spaces) : Prop :=
  Allowed E x.2 call ∧ call.run pg c x.1 = .ok x'.1 ∧ call.spec c x.2 = .ok x'.2

/-- The states that calls lead to, beside the address spaces that are there. -/
def Runs (E : Scene L) (s : State α) (σ : Spaces) : Prop :=
  Reach (fun x => x = (E.boot, fun _ => none)) (Step E) (s, σ)

-- ---------------------------------------------------------------------------
-- A machine
-- ---------------------------------------------------------------------------

/-- A client that keeps its free pages in a list. -/
def freeList : Pager (List Nat) where
  pgalloc m h :=
    match h with
    | [] => none
    | p :: h => some (p, m, h)
  pgfree p m h := (m, p :: h)

def freeList.laws (c : Mmu) {phys : Nat} (hphys : phys ≤ 8 * c.wordSz) (pool : List Nat)
    (hpool : ∀ p ∈ pool, c.IsPage phys p) : freeList.Laws c where
  phys := phys
  ok _ h := h.Nodup ∧ ∀ p ∈ h, p ∈ pool
  live h p := p ∈ pool ∧ p ∉ h
  owns h x := ∃ p ∈ h, c.inPage p x
  phys_le := hphys
  ok_congr hok _ := hok
  alloc := by
    intro m h p m' h' ⟨hnodup, hin⟩ halloc
    cases h with
    | nil => cases halloc
    | cons q h =>
      cases halloc
      obtain ⟨hq, hnodup⟩ := List.nodup_cons.1 hnodup
      have hqpool := hin p List.mem_cons_self
      have hrest := fun r hr => hin r (List.mem_cons_of_mem p hr)
      refine ⟨⟨hnodup, hrest⟩, hpool p hqpool, fun hlive => hlive.2 List.mem_cons_self, fun r => ?_,
        fun x hx => ⟨p, List.mem_cons_self, hx⟩, fun x hx => ?_, fun _ _ => rfl⟩
      · rw [List.mem_cons, not_or]
        by_cases hr : r = p
        · subst hr
          exact iff_of_true ⟨hqpool, hq⟩ (.inr rfl)
        · simp [hr]
      · obtain ⟨r, hr, hx⟩ := hx
        refine ⟨⟨r, List.mem_cons_of_mem p hr, hx⟩, fun hpx => ?_⟩
        obtain rfl := Mmu.inPage_apart (hpool p hqpool) (hpool r (hrest r hr)) hpx hx
        exact hq hr
  free := by
    intro m h p m' h' ⟨hnodup, hin⟩ hlive hfree
    cases hfree
    refine ⟨⟨List.nodup_cons.2 ⟨hlive.2, hnodup⟩, fun r hr => ?_⟩, fun r => ?_, fun x hx => ?_,
      fun _ _ _ => rfl⟩
    · rcases List.mem_cons.1 hr with rfl | hr
      · exact hlive.1
      · exact hin r hr
    · rw [List.mem_cons, not_or, and_assoc, and_comm (a := r ∉ h)]
    · obtain ⟨r, hr, hx⟩ := hx
      rcases List.mem_cons.1 hr with rfl | hr
      · exact .inr hx
      · exact .inl ⟨r, hr, hx⟩

/-- Eight pages from `0x10000` on. -/
def pool : List Nat := List.map (0x1000 * ·) [16, 17, 18, 19, 20, 21, 22, 23]

theorem exists_of_mem_pool {p : Nat} (hp : p ∈ pool) : ∃ n, p = 4096 * n ∧ 16 ≤ n ∧ n < 24 := by
  obtain ⟨n, hn, rfl⟩ := List.mem_map.1 hp
  simp only [List.mem_cons, List.not_mem_nil, or_false] at hn
  exact ⟨n, rfl, by omega, by omega⟩

theorem pgsize_of_pgbits (hbits : c.pgbits = 12) : c.pgsize = 4096 := by
  rw [Mmu.pgsize, hbits]
  rfl

theorem pool_nodup : pool.Nodup := by decide

theorem pool_page (hbits : c.pgbits = 12) : ∀ p ∈ pool, c.IsPage 32 p := by
  intro p hp
  obtain ⟨n, rfl, -, hlt⟩ := exists_of_mem_pool hp
  have hsize := pgsize_of_pgbits hbits
  refine ⟨hsize ▸ Nat.dvd_mul_right _ _, ?_⟩
  rw [hsize]
  omega

/-- The kernel's table at `0x1000`, with a first entry. -/
def kernelTable (c : Mmu) : Mem := store (fun _ => 0) 0x1000 c.wordSz 0x2003

/-- The kernel's table and two structs lie below the pages. -/
def machineOf (c : Mmu) (hbits : c.pgbits = 12) (hword : 32 ≤ 8 * c.wordSz) (hspace : c.wordSz ≤ 8)
    (hsupervisor : ∀ i ∈ c.kernelIdx,
      load (kernelTable c) (c.at_ 0x1000 i) c.wordSz &&& pteU = 0) :
    Scene (freeList.laws c hword pool (pool_page hbits)) where
  boot := { mem := kernelTable c, heap := pool, kpt := 0x1000 }
  structs as := as = 0x8000 ∨ as = 0x8020
  outer x := x < 0x10000
  ok := ⟨pool_nodup, fun _ hp => hp⟩
  owned := by
    rintro x ⟨p, hp, hin⟩ hx
    obtain ⟨n, rfl, hle, -⟩ := exists_of_mem_pool hp
    have hlo : 4096 * n ≤ x := hin.1
    omega
  structs_outer := by
    intro as x has hlo hhi
    have hlt : x < as + 4 * c.wordSz := hhi
    omega
  structs_apart := by
    intro as as' has has' hne
    show as + 4 * c.wordSz ≤ as' ∨ as' + 4 * c.wordSz ≤ as
    omega
  kernel_outer := by
    intro x hx
    have hlt : x < 0x1000 + c.pgsize := hx.2
    rw [pgsize_of_pgbits hbits] at hlt
    omega
  kernel_apart := by
    intro as x has hx
    have hlt : x < 0x1000 + c.pgsize := hx.2
    rw [pgsize_of_pgbits hbits] at hlt
    omega
  kernel_page := by
    have hsize := pgsize_of_pgbits hbits
    refine ⟨hsize ▸ Nat.dvd_refl _, ?_⟩
    rw [hsize]
    show 0x1000 + 4096 ≤ 2 ^ 32
    decide
  supervisor := hsupervisor

theorem supervisor_x86_64 : ∀ i ∈ x86_64.kernelIdx,
    load (kernelTable x86_64) (x86_64.at_ 0x1000 i) x86_64.wordSz &&& pteU = 0 := by
  decide +kernel

theorem supervisor_i386 : ∀ i ∈ i386.kernelIdx,
    load (kernelTable i386) (i386.at_ 0x1000 i) i386.wordSz &&& pteU = 0 := by
  decide +kernel

/-- A machine with four levels of tables. -/
def machine := machineOf x86_64 rfl (Nat.le_of_ble_eq_true rfl) (Nat.le_of_ble_eq_true rfl)
  supervisor_x86_64

/-- A machine with two levels of tables. -/
def machine32 := machineOf i386 rfl (Nat.le_of_ble_eq_true rfl) (Nat.le_of_ble_eq_true rfl)
  supervisor_i386

/-- One address space, with a page that may be written. -/
def onePage (va : Nat) : Spaces :=
  Function.update (Function.update (fun _ => none) 0x8000 (some fun _ => none)) 0x8000
    (some (Function.update (fun _ => none) va (some (0x5000, true))))

/-- The address space is made, and the page is mapped. -/
theorem runs_onePage {E : Scene L} {va : Nat} (has : E.structs 0x8000)
    (hpa : 0x5000 + c.pgsize ≤ 2 ^ L.phys)
    (hspec : (Call.map 0x8000 va 0x5000 mmapWrite).spec c
      (Function.update (fun _ => none) 0x8000 (some fun _ => none)) = .ok (onePage va))
    (hok : ((Call.protect 0x8000).run pg c E.boot >>=
      (Call.map 0x8000 va 0x5000 mmapWrite).run pg c).isOk = true) :
    ∃ s, Runs E s (onePage va) := by
  cases hprotect : (Call.protect 0x8000).run pg c E.boot with
  | error e =>
    rw [hprotect] at hok
    cases hok
  | ok s₁ =>
    rw [hprotect, ok_bind] at hok
    cases hmap : (Call.map 0x8000 va 0x5000 mmapWrite).run pg c s₁ with
    | error e =>
      rw [hmap] at hok
      cases hok
    | ok s₂ =>
      have hempty : Allowed E (fun _ => none) (.protect 0x8000) := ⟨has, rfl⟩
      have hthere : Allowed E (Function.update (fun _ => none) 0x8000 (some fun _ => none))
          (.map 0x8000 va 0x5000 mmapWrite) := ⟨⟨_, Function.update_self ..⟩, hpa⟩
      have hfirst : Runs E s₁ (Function.update (fun _ => none) 0x8000 (some fun _ => none)) :=
        .step (.init rfl) ⟨hempty, hprotect, rfl⟩
      exact ⟨s₂, .step hfirst ⟨hthere, hmap, hspec⟩⟩

theorem machine_runs : ∃ s, Runs machine s (onePage 0x100000000000) :=
  runs_onePage (.inl rfl) (show 0x5000 + 2 ^ 12 ≤ 2 ^ 32 by decide) rfl (by decide +kernel)

theorem machine32_runs : ∃ s, Runs machine32 s (onePage 0x40000000) :=
  runs_onePage (.inl rfl) (show 0x5000 + 2 ^ 12 ≤ 2 ^ 32 by decide) rfl (by decide +kernel)

-- ---------------------------------------------------------------------------
-- map
-- ---------------------------------------------------------------------------

variable {E : Scene L} {s s' : State α} {T : Tables} {σ : Spaces} {as va pa p prot : Nat}
  {f : Space} {init done infos : List PtInfo} {info last : PtInfo}

theorem Mmu.baseof_eq (h : va < 2 ^ (8 * c.wordSz)) : c.baseof va = va / c.pgsize * c.pgsize := by
  have hle := c.fields.le
  have hword := c.word_le
  exact Bits.and_mask h (by omega)

theorem Mmu.eq_baseof_iff (h : va < 2 ^ (8 * c.wordSz)) : va = c.baseof va ↔ c.pgsize ∣ va := by
  rw [Mmu.baseof_eq h]
  refine ⟨fun heq => ?_, fun hdvd => (Nat.div_mul_cancel hdvd).symm⟩
  rw [heq]
  exact Nat.dvd_mul_left _ _

/-- Fields of an address, and its page. -/
theorem ofDigits_pathOf (h : va < 2 ^ (c.top.shift + c.top.bits)) :
    ofDigits (c.levels.map PtInfo.field) (pathOf va c.levels) = va / c.pgsize * c.pgsize := by
  have hfields : Fields c.pgbits _ (c.levels.map PtInfo.field) := c.fields
  rw [pathOf_eq_digits (List.append_nil _).symm, ofDigits_digits hfields, Nat.mod_eq_of_lt h]
  rfl

/-- The entry of a last table. -/
theorem Rep.leaf_entry (h : Rep E s T σ) (hlevels : c.levels = init ++ [last])
    (hva : va < 2 ^ (c.top.shift + c.top.bits)) (hf : σ as = some f)
    (hT : T (as, pathOf va init) = some p) :
    s.entry c (c.at_ p (indexof va last)) = leafWord (f (va / c.pgsize * c.pgsize)) := by
  have hlt := Mmu.indexof_lt (Mmu.mem_levels hlevels) va
  have hpath : pathOf va c.levels = pathOf va init ++ [indexof va last] := by
    rw [hlevels, pathOf, List.map_append]
    rfl
  rw [h.words as f _ p init last [] _ hT hf hlevels (List.length_map _).symm hlt, word, ← hpath,
    ofDigits_pathOf hva]

/-- A page is there in the last table or not. -/
theorem leafWord_and {page : Option (Nat × Bool)}
    (hpage : ∀ pa write, page = some (pa, write) → c.IsPage L.phys pa) :
    leafWord page &&& pteP = 0 ↔ page = none := by
  cases page with
  | none => exact iff_of_true (Nat.zero_and _) rfl
  | some page =>
    obtain ⟨pa, write⟩ := page
    rw [leafWord, Nat.or_assoc, Nat.or_assoc,
      or_and (hpage pa write rfl).aligned (lt_pgsize c (by decide))]
    refine iff_of_false ?_ (Option.some_ne_none _)
    cases write <;> decide

/-- **`map`** does to the address space what it is for. -/
theorem Rep.map_spec (h : Rep E s T σ) (va prot : Nat) (hf : σ as = some f)
    (hpa : pa + c.pgsize ≤ 2 ^ L.phys) :
    match Vme.map pg c as va pa prot s with
    | .error e => e = .cannotAllocate ∨ f.map c va pa prot = .error e
    | .ok s' => ∃ f', f.map c va pa prot = .ok f' ∧
        ∃ T', Rep E s' T' (Function.update σ as (some f')) := by
  obtain ⟨init, last, hlevels⟩ :=
    (List.eq_nil_or_concat c.levels).resolve_left (List.cons_ne_nil _ _)
  rw [List.concat_eq_append] at hlevels
  unfold Vme.map Space.map
  by_cases hva : c.uvm.start ≤ va ∧ va < c.uvm.stop
  swap
  · rw [if_pos hva, if_pos hva]
    exact .inr rfl
  have hhi : va < 2 ^ (c.top.shift + c.top.bits) := hva.2.trans_le c.uvm_le
  have hword : va < 2 ^ (8 * c.wordSz) :=
    hhi.trans_le (Nat.pow_le_pow_right (by omega) c.word_le)
  have hpaword : pa < 2 ^ (8 * c.wordSz) := by
    have hpos := c.pgsize_pos
    have hle := Nat.pow_le_pow_right (n := 2) (by omega) L.phys_le
    omega
  rw [if_neg (not_not_intro hva), if_neg (not_not_intro hva)]
  by_cases halign : c.pgsize ∣ va ∧ c.pgsize ∣ pa
  swap
  · rw [if_pos, if_pos halign]
    · exact .inr rfl
    · rw [ne_eq, ne_eq, Mmu.eq_baseof_iff hword, Mmu.eq_baseof_iff hpaword]
      exact not_and_or.1 halign
  rw [if_neg, if_neg (not_not_intro halign)]
  swap
  · rw [ne_eq, ne_eq, Mmu.eq_baseof_iff hword, Mmu.eq_baseof_iff hpaword, ← not_and_or]
    exact not_not_intro halign
  have hwalk := h.ptwalk_walked hva hf hlevels
  cases hres : ptwalk pg c as va (pteW ||| pteU) s with
  | error e =>
    rw [hres] at hwalk
    exact .inl hwalk
  | ok r =>
    obtain ⟨slot, s₁⟩ := r
    rw [hres] at hwalk
    obtain ⟨T₁, p, h₁, hT, rfl⟩ := hwalk
    have hentry : s₁.entry c (c.at_ p (indexof va last)) = leafWord (f va) := by
      rw [h₁.leaf_entry hlevels hhi hf hT, Nat.div_mul_cancel halign.1]
    have hpresent := leafWord_and (L := L) fun pa write hpage =>
      (h₁.user as f va pa write hf hpage).2.2
    -- the entry is written, and the second walk finds it
    have hdone : ∀ page : Option (Nat × Bool), (∀ pa write, page = some (pa, write) →
        c.IsPage L.phys pa) →
        ptwalk pg c as va (pteW ||| pteU)
          (s₁.setEntry c (c.at_ p (indexof va last)) (leafWord page))
          = .ok (c.at_ p (indexof va last),
            s₁.setEntry c (c.at_ p (indexof va last)) (leafWord page)) ∧
        Rep E (s₁.setEntry c (c.at_ p (indexof va last)) (leafWord page)) T₁
          (Function.update σ as (some (Function.update f va page))) := by
      intro page hpage
      have hleaf := h₁.leaf hlevels hva halign.1 hf hT hpage
      exact ⟨hleaf.ptwalk_present hva (Function.update_self ..) hlevels hT _, hleaf⟩
    simp only [ok_bind, hentry]
    by_cases hprot : prot = mmapNone
    · rw [if_pos hprot, if_pos hprot]
      by_cases hnone : f va = none
      · rw [if_pos (hpresent.2 hnone), if_pos hnone]
        exact .inr rfl
      · rw [if_neg (fun hcon => hnone (hpresent.1 hcon)), if_neg hnone]
        obtain ⟨hwalk, hrep⟩ := hdone none (fun _ _ hcon => by cases hcon)
        rw [leafWord] at hwalk hrep
        rw [hwalk]
        exact ⟨_, rfl, T₁, hrep⟩
    · rw [if_neg hprot, if_neg hprot]
      by_cases hnone : f va = none
      · rw [if_neg (not_not_intro (hpresent.2 hnone)), if_neg (not_not_intro hnone)]
        obtain ⟨hwalk, hrep⟩ := hdone (some (pa, prot &&& mmapWrite ≠ 0)) (by
          intro pa' write hcon
          cases hcon
          exact ⟨halign.2, hpa⟩)
        simp only [leafWord, decide_eq_true_eq] at hwalk hrep
        rw [hwalk]
        exact ⟨_, rfl, T₁, hrep⟩
      · rw [if_pos (fun hcon => hnone (hpresent.1 hcon)), if_pos hnone]
        exact .inr rfl

-- ---------------------------------------------------------------------------
-- Runs
-- ---------------------------------------------------------------------------

/-- The tables are kept by every call, and the call does what it is for. -/
theorem Rep.run (h : Rep E s T σ) {call : Call} (hallowed : Allowed E σ call) :
    match call.run pg c s with
    | .error e => e = .cannotAllocate ∨ call.spec c σ = .error e
    | .ok s' => ∃ σ', call.spec c σ = .ok σ' ∧ ∃ T', Rep E s' T' σ' := by
  cases call with
  | protect as =>
    have hmade := protect_made h.toPlaced hallowed.1
    rw [Call.run]
    cases hres : Vme.protect pg c as s with
    | error e =>
      rw [hres] at hmade
      exact .inl hmade
    | ok s' =>
      rw [hres] at hmade
      obtain ⟨upt, hmade⟩ := hmade
      exact ⟨_, rfl, _, h.newSpace hallowed.1 hallowed.2 hmade⟩
  | unprotect as =>
    obtain ⟨f, hf⟩ := hallowed
    exact ⟨_, rfl, _, h.unprotected hf⟩
  | map as va pa prot =>
    obtain ⟨⟨f, hf⟩, hpa⟩ := hallowed
    have hmap := h.map_spec va prot hf hpa
    simp only [Call.run, Call.spec, hf]
    cases hres : Vme.map pg c as va pa prot s with
    | error e =>
      rw [hres] at hmap
      rcases hmap with rfl | hspec
      · exact .inl rfl
      · exact .inr (by rw [hspec]; rfl)
    | ok s' =>
      rw [hres] at hmap
      obtain ⟨f', hspec, hrep⟩ := hmap
      exact ⟨_, by rw [hspec]; rfl, hrep⟩

/-- Nothing is there at first. -/
theorem Rep.boot (E : Scene L) : Rep E E.boot (fun _ => none) (fun _ => none) := by
  refine ⟨⟨rfl, E.ok, E.owned, fun _ _ _ => rfl, fun p => ⟨.inl, fun h => ?_⟩, ?_, ?_, ?_, ?_, ?_,
    ?_⟩,
    ?_, fun as => ⟨?_, ?_⟩, ?_, ?_, ?_, ?_⟩
  · rcases h with h | ⟨a, ha⟩
    · exact h
    · cases ha
  · exact fun a p ha => by cases ha
  · exact fun a p ha => by cases ha
  · exact fun a p x ha => by cases ha
  · exact fun a b p ha => by cases ha
  · exact fun as path i q ha => by cases ha
  · exact fun as path p ha => by cases ha
  · exact fun as f hf => by cases hf
  · rintro ⟨p, hp⟩
    cases hp
  · rintro ⟨f, hf⟩
    cases hf
  · exact fun as f va pa write hf => by cases hf
  · exact fun as f va done infos hf => by cases hf
  · exact fun as p hp => by cases hp
  · exact fun as f path p done info infos i hp => by cases hp

theorem Runs.rep (h : Runs E s σ) : ∃ T, Rep E s T σ := by
  refine h.invariant (I := fun x : State α × Spaces => ∃ T, Rep E x.1 T x.2) ?_ ?_
  · rintro x rfl
    exact ⟨_, Rep.boot E⟩
  · rintro ⟨s, σ⟩ call ⟨s', σ'⟩ - ⟨T, hrep⟩ ⟨hallowed, hrun, hspec⟩
    have hkeep := hrep.run hallowed
    simp only at hrun hspec
    rw [hrun] at hkeep
    obtain ⟨σ'', hspec', hrep'⟩ := hkeep
    rw [hspec] at hspec'
    cases hspec'
    exact hrep'

/-- **Each call does what it is for**, and its page tables are again those of the address spaces.
It fails where this fails, with the same message, or when the client has no page left. -/
theorem run_spec (h : Runs E s σ) {call : Call} (hallowed : Allowed E σ call) :
    match call.run pg c s with
    | .error e => e = .cannotAllocate ∨ call.spec c σ = .error e
    | .ok s' => ∃ σ', call.spec c σ = .ok σ' ∧ Runs E s' σ' ∧ ∃ T', Rep E s' T' σ' := by
  obtain ⟨T, hrep⟩ := h.rep
  have hkeep := hrep.run hallowed
  cases hrun : call.run pg c s with
  | error e =>
    rw [hrun] at hkeep
    exact hkeep
  | ok s' =>
    rw [hrun] at hkeep
    obtain ⟨σ', hspec, hrep'⟩ := hkeep
    exact ⟨σ', hspec, .step h ⟨hallowed, hrun, hspec⟩, hrep'⟩

/-- A second page is mapped beside the first one. -/
theorem run_spec_machine : ∃ s, Runs machine s (onePage 0x100000000000) ∧
    match (Call.map 0x8000 0x100000001000 0x6000 mmapWrite).run freeList x86_64 s with
    | .error e => e = .cannotAllocate ∨
        (Call.map 0x8000 0x100000001000 0x6000 mmapWrite).spec x86_64 (onePage 0x100000000000)
          = .error e
    | .ok s' => ∃ σ', (Call.map 0x8000 0x100000001000 0x6000 mmapWrite).spec x86_64
        (onePage 0x100000000000) = .ok σ' ∧ Runs machine s' σ' ∧ ∃ T', Rep machine s' T' σ' := by
  obtain ⟨s, hs⟩ := machine_runs
  have hallowed : Allowed machine (onePage 0x100000000000)
      (.map 0x8000 0x100000001000 0x6000 mmapWrite) :=
    ⟨⟨_, Function.update_self ..⟩, show 0x6000 + 2 ^ 12 ≤ 2 ^ 32 by decide⟩
  refine ⟨s, hs, ?_⟩
  have hspec := run_spec hs hallowed
  cases hrun : (Call.map 0x8000 0x100000001000 0x6000 mmapWrite).run freeList x86_64 s with
  | error e =>
    rw [hrun] at hspec
    exact hspec
  | ok s' =>
    rw [hrun] at hspec
    exact hspec

/-- **No page is lost.** When no address space is there, the client has every page back that it
has handed out. All the while, what is neither a struct nor the client's stays as it is. -/
theorem live_iff (h : Runs E s σ) :
    ((∀ as, σ as = none) → ∀ p, L.live s.heap p ↔ L.live E.boot.heap p) ∧
    ∀ x, E.outer x → (∀ as, E.structs as → x < as ∨ as + c.spaceSz ≤ x) →
      s.mem x = E.boot.mem x := by
  obtain ⟨T, hrep⟩ := h.rep
  refine ⟨fun hnone p => ?_, hrep.same⟩
  rw [hrep.live]
  refine ⟨?_, .inl⟩
  rintro (hlive | ⟨⟨as, path⟩, hp⟩)
  · exact hlive
  · rw [hrep.no_table (hnone as)] at hp
    cases hp

/-- The address space of the machine is taken down again. -/
theorem live_iff_machine : ∃ s, Runs machine s (onePage 0x100000000000) ∧
    ∀ p, (p ∈ pool ∧ p ∉ (Vme.unprotect freeList x86_64 0x8000 s).heap) ↔
      p ∈ pool ∧ p ∉ machine.boot.heap := by
  obtain ⟨s, hs⟩ := machine_runs
  have hallowed : Allowed machine (onePage 0x100000000000) (.unprotect 0x8000) :=
    ⟨_, Function.update_self ..⟩
  have hgone : ∀ as, Function.update (onePage 0x100000000000) 0x8000 none as = none := by
    intro as
    by_cases has : as = 0x8000
    · subst has
      exact Function.update_self ..
    · simp only [onePage, Function.update_of_ne has]
  exact ⟨s, hs, (live_iff (.step hs ⟨hallowed, rfl, rfl⟩)).1 hgone⟩

-- ---------------------------------------------------------------------------
-- The processor
-- ---------------------------------------------------------------------------

structure Translation where
  pa : Nat
  write : Bool
  user : Bool
  deriving DecidableEq

/-- The processor's walk from a table of the first of the levels on. A right has to be given by the
entries of all levels. An entry with `PTE_PS` ends the walk, and one with a bit beyond the physical
memory is a fault. -/
def translateFrom (c : Mmu) (phys : Nat) (m : Mem) (va : Nat) :
    List PtInfo → Nat → Bool → Bool → Option Translation
  | [], _, _, _ => none
  | info :: infos, pt, write, user =>
    let e := load m (c.at_ pt (indexof va info)) c.wordSz
    let write := write && (e &&& pteW ≠ 0)
    let user := user && (e &&& pteU ≠ 0)
    if e &&& pteP = 0 ∨ 2 ^ phys ≤ e then none
    else if infos = [] ∨ e &&& ptePS ≠ 0 then
      some ⟨e / 2 ^ info.shift * 2 ^ info.shift + va % 2 ^ info.shift, write, user⟩
    else translateFrom c phys m va infos (c.baseof e) write user

/-- Where an access to `va` goes with `cr3` in the register. -/
def translate (c : Mmu) (phys : Nat) (m : Mem) (cr3 va : Nat) : Option Translation :=
  translateFrom c phys m va c.levels (c.baseof cr3) true true

section Translating

variable {phys cur : Nat} {m : Mem} {write : Bool} {t : Translation}

/-- What a level has denied stays denied. -/
theorem translateFrom_supervisor :
    ∀ (infos : List PtInfo) {cur : Nat} {write : Bool},
      translateFrom c phys m va infos cur write false = some t → t.user = false
  | [], _, _, h => by cases h
  | info :: infos, cur, write, h => by
    rw [translateFrom] at h
    simp only [Bool.false_and] at h
    split at h
    · cases h
    · split at h
      · cases h
        rfl
      · exact translateFrom_supervisor infos h

/-- An entry that is not for the user. -/
theorem translateFrom_denied {user : Bool}
    (hword : load m (c.at_ cur (indexof va info)) c.wordSz &&& pteU = 0)
    (h : translateFrom c phys m va (info :: infos) cur write user = some t) : t.user = false := by
  rw [translateFrom] at h
  simp only [hword, ne_eq, not_true_eq_false, decide_false, Bool.and_false] at h
  split at h
  · cases h
  · split at h
    · cases h
      rfl
    · exact translateFrom_supervisor infos h

/-- Of a table, the walk reads one entry. -/
theorem translateFrom_congr {cur' : Nat} {user : Bool}
    (hword : load m (c.at_ cur (indexof va info)) c.wordSz
      = load m (c.at_ cur' (indexof va info)) c.wordSz) :
    translateFrom c phys m va (info :: infos) cur write user
      = translateFrom c phys m va (info :: infos) cur' write user := by
  rw [translateFrom, translateFrom, hword]

theorem translateFrom_absent (hword : load m (c.at_ cur (indexof va info)) c.wordSz = 0)
    {user : Bool} :
    translateFrom c phys m va (info :: infos) cur write user = none := by
  rw [translateFrom, hword]
  exact if_pos (.inl (Nat.zero_and _))

/-- Down to the next table. -/
theorem translateFrom_table {q : Nat} (hq : c.IsPage L.phys q) (hinfos : infos ≠ [])
    (hword : load m (c.at_ cur (indexof va info)) c.wordSz = tableWord (some q)) :
    translateFrom c L.phys m va (info :: infos) cur true true
      = translateFrom c L.phys m va infos q true true := by
  have hbit : ∀ b < 2 ^ 8, tableWord (some q) &&& b = (pteP ||| (pteW ||| pteU)) &&& b := by
    intro b hb
    rw [tableWord, Nat.or_assoc, or_and hq.aligned (lt_pgsize c hb)]
  have hlt : tableWord (some q) < 2 ^ L.phys := by
    rw [tableWord, Nat.or_assoc]
    exact or_lt hq (lt_pgsize c (by decide))
  have hstay : ¬ (tableWord (some q) &&& pteP = 0 ∨ 2 ^ L.phys ≤ tableWord (some q)) := by
    rw [not_or, hbit _ (by decide)]
    exact ⟨by decide, by omega⟩
  have hdown : ¬ (infos = [] ∨ tableWord (some q) &&& ptePS ≠ 0) := by
    rw [not_or, hbit _ (by decide)]
    exact ⟨hinfos, by decide⟩
  rw [translateFrom, hword]
  simp only [if_neg hstay, if_neg hdown, (tableWord_present (L := L) hq).2]
  rw [hbit _ (by decide), hbit _ (by decide)]
  rfl

/-- At a page. -/
theorem translateFrom_leaf (hq : c.IsPage L.phys pa) (hshift : info.shift = c.pgbits)
    (hword : load m (c.at_ cur (indexof va info)) c.wordSz = leafWord (some (pa, write))) :
    translateFrom c L.phys m va [info] cur true true = some ⟨pa + va % c.pgsize, write, true⟩ := by
  have hflags : pteP ||| (pteU ||| if write then pteW else 0) < 2 ^ 8 := by
    cases write <;> decide
  have heq : leafWord (some (pa, write))
      = pa ||| (pteP ||| (pteU ||| if write then pteW else 0)) := by
    rw [leafWord, Nat.or_assoc, Nat.or_assoc]
  have hbit : ∀ b < 2 ^ 8, leafWord (some (pa, write)) &&& b
      = (pteP ||| (pteU ||| if write then pteW else 0)) &&& b := by
    intro b hb
    rw [heq, or_and hq.aligned (lt_pgsize c hb)]
  have hlt : leafWord (some (pa, write)) < 2 ^ L.phys := by
    rw [heq]
    exact or_lt hq (lt_pgsize c hflags)
  have hstay : ¬ (leafWord (some (pa, write)) &&& pteP = 0 ∨
      2 ^ L.phys ≤ leafWord (some (pa, write))) := by
    rw [not_or, hbit _ (by decide)]
    exact ⟨by cases write <;> decide, by omega⟩
  have hbase : leafWord (some (pa, write)) / 2 ^ c.pgbits * 2 ^ c.pgbits = pa := by
    obtain ⟨a, rfl⟩ := hq.aligned
    rw [heq, or_eq_add (Nat.dvd_mul_right _ _) (lt_pgsize c hflags), Mmu.pgsize,
      Nat.mul_add_div (Nat.two_pow_pos _),
      Nat.div_eq_of_lt (show _ < 2 ^ c.pgbits from lt_pgsize c hflags), Nat.add_zero, Nat.mul_comm]
  rw [translateFrom, hword]
  simp only [if_neg hstay, true_or, if_true, hshift, hbase]
  rw [hbit _ (by decide), hbit _ (by decide)]
  cases write <;> rfl

end Translating

/-- The last field of an address is the one above the page. -/
theorem shift_of_fields {lo hi : Nat} : ∀ (fs : List Field) {g : Field},
    Fields lo hi (fs ++ [g]) → g.shift = lo
  | [], _, h => h.2
  | _ :: fs, _, h => shift_of_fields fs h.2

/-- The fields of the page that an address lies in. -/
theorem pathOf_page (hsplit : c.levels = done ++ infos)
    (hva : va < 2 ^ (c.top.shift + c.top.bits)) :
    pathOf (va / c.pgsize * c.pgsize) done = pathOf va done := by
  have hfields : Fields c.pgbits _ (c.levels.map PtInfo.field) := c.fields
  have hle : va / c.pgsize * c.pgsize ≤ va := Nat.div_mul_le_self _ _
  have hall : pathOf (va / c.pgsize * c.pgsize) c.levels = pathOf va c.levels := by
    rw [pathOf_eq_digits (List.append_nil _).symm, pathOf_eq_digits (List.append_nil _).symm,
      hfields.digits_eq_iff, Nat.mod_eq_of_lt hva, Nat.mod_eq_of_lt (hle.trans_lt hva)]
    exact Nat.mul_div_cancel _ c.pgsize_pos
  rw [hsplit, pathOf, pathOf, List.map_append, List.map_append] at hall
  exact (List.append_inj hall (by rw [List.length_map, List.length_map])).1

theorem Rep.translateFrom (h : Rep E s T σ) (hf : σ as = some f)
    (hva : va < 2 ^ (c.top.shift + c.top.bits)) (hkernel : indexof va c.top ∉ c.kernelIdx)
    (hsplit : c.levels = done ++ infos) (hinfos : infos ≠ [])
    (hT : T (as, pathOf va done) = some p) :
    Vme.translateFrom c L.phys s.mem va infos p true true
      = (f (va / c.pgsize * c.pgsize)).map fun page => ⟨page.1 + va % c.pgsize, page.2, true⟩ := by
  induction infos generalizing done p with
  | nil => exact absurd rfl hinfos
  | cons info infos ih =>
    cases infos with
    | nil =>
      have hentry := h.leaf_entry hsplit hva hf hT
      cases hpage : f (va / c.pgsize * c.pgsize) with
      | none =>
        rw [hpage] at hentry
        exact translateFrom_absent hentry
      | some page =>
        obtain ⟨pa, write⟩ := page
        rw [hpage] at hentry
        have hshift : info.shift = c.pgbits := by
          have hfields : Fields c.pgbits _ (c.levels.map PtInfo.field) := c.fields
          rw [hsplit, List.map_append] at hfields
          exact shift_of_fields _ hfields
        exact translateFrom_leaf (h.user as f _ pa write hf hpage).2.2 hshift hentry
    | cons below infos =>
      have hsplit' : c.levels = (done ++ [info]) ++ below :: infos := by
        rw [hsplit, List.append_assoc]
        rfl
      have hlt := Mmu.indexof_lt (Mmu.mem_levels hsplit) va
      have hpath : pathOf va (done ++ [info]) = pathOf va done ++ [indexof va info] :=
        List.map_append ..
      have hentry : s.entry c (c.at_ p (indexof va info))
          = tableWord (T (as, pathOf va (done ++ [info]))) := by
        rw [h.words as f _ p done info (below :: infos) _ hT hf hsplit (List.length_map _).symm hlt,
          word, if_neg, hpath]
        rintro ⟨hnil, hin⟩
        obtain rfl : done = [] := List.map_eq_nil_iff.1 hnil
        obtain rfl : c.top = info := (List.cons.inj hsplit).1
        exact hkernel hin
      cases hnext : T (as, pathOf va (done ++ [info])) with
      | none =>
        rw [hnext] at hentry
        have hfree : f (va / c.pgsize * c.pgsize) = none := by
          by_contra hne
          obtain ⟨q, hq⟩ := h.mapped as f _ _ _ hf hne hsplit' (List.cons_ne_nil _ _)
          rw [pathOf_page hsplit' hva, hnext] at hq
          cases hq
        rw [hfree]
        exact translateFrom_absent hentry
      | some q =>
        rw [hnext] at hentry
        rw [translateFrom_table (h.page _ q hnext) (List.cons_ne_nil _ _) hentry]
        exact ih hsplit' (List.cons_ne_nil _ _) hnext

/-- **What the processor sees** with the pointer of an address space in `cr3`. A kernel address goes
where the kernel's own table sends it, and is not for the user. Any other address goes to the page
that is mapped there, with its rights, and nowhere if there is none. -/
theorem translate_spec (h : Runs E s σ) (hf : σ as = some f)
    (hva : va < 2 ^ (c.top.shift + c.top.bits)) :
    if indexof va c.top ∈ c.kernelIdx then
      translate c L.phys s.mem (s.entry c (c.ptrOf as)) va = translate c L.phys s.mem s.kpt va ∧
      ∀ t, translate c L.phys s.mem s.kpt va = some t → t.user = false
    else
      translate c L.phys s.mem (s.entry c (c.ptrOf as)) va
        = (f (va / c.pgsize * c.pgsize)).map
          fun page => ⟨page.1 + va % c.pgsize, page.2, true⟩ := by
  obtain ⟨T, hrep⟩ := h.rep
  obtain ⟨p, hp⟩ := (hrep.root as).2 ⟨f, hf⟩
  have hpage := hrep.page _ p hp
  have hbase : c.baseof (s.entry c (c.ptrOf as)) = p := by
    rw [hrep.ptr as p hp, Nat.or_assoc, baseof_or hpage L.phys_le (lt_pgsize c (by decide))]
  have htop := Mmu.indexof_lt (show c.top ∈ c.levels from List.mem_cons_self) va
  have hfits := Mmu.fits_of_mem (show c.top ∈ c.levels from List.mem_cons_self) htop
  by_cases hkernel : indexof va c.top ∈ c.kernelIdx
  · rw [if_pos hkernel]
    have hown : s.entry c (c.at_ p (indexof va c.top)) = E.kernelEntry (indexof va c.top) := by
      rw [hrep.words as f [] p [] c.top c.rest _ hp hf rfl rfl htop]
      cases hrest : c.rest with
      | nil => exact absurd hrest c.rest_ne_nil
      | cons below infos => exact if_pos ⟨rfl, hkernel⟩
    have hkpt : c.baseof s.kpt = s.kpt := by
      have hzero : c.baseof (E.boot.kpt ||| 0) = E.boot.kpt :=
        baseof_or E.kernel_page L.phys_le c.pgsize_pos
      rw [hrep.kpt]
      simpa using hzero
    have hentry := hrep.kernel_entry hfits
    unfold translate
    rw [hbase, hkpt, Mmu.levels]
    refine ⟨?_, fun t ht => ?_⟩
    · exact translateFrom_congr (hown.trans hentry.symm)
    · refine translateFrom_denied ?_ ht
      change s.entry c (c.at_ s.kpt (indexof va c.top)) &&& pteU = 0
      rw [hentry]
      exact E.supervisor _ hkernel
  · rw [if_neg hkernel]
    have hroot : T (as, pathOf va []) = some p := hp
    unfold translate
    rw [hbase]
    exact hrep.translateFrom hf hva hkernel (List.nil_append _).symm (List.cons_ne_nil _ _) hroot

set_option maxRecDepth 4096 in
/-- The page of either machine, through four levels of tables and through two. -/
theorem translate_spec_machine :
    (∃ s : State (List Nat),
      translate x86_64 32 s.mem (s.entry x86_64 (x86_64.ptrOf 0x8000)) 0x100000000123
        = some ⟨0x5123, true, true⟩) ∧
    ∃ s : State (List Nat),
      translate i386 32 s.mem (s.entry i386 (i386.ptrOf 0x8000)) 0x40000123
        = some ⟨0x5123, true, true⟩ := by
  refine ⟨?_, ?_⟩
  · obtain ⟨s, hs⟩ := machine_runs
    refine ⟨s, ?_⟩
    have hva : 0x100000000123 < 2 ^ (x86_64.top.shift + x86_64.top.bits) := by decide
    have hspec := translate_spec hs (Function.update_self ..) hva
    rw [if_neg (by decide +kernel)] at hspec
    exact hspec
  · obtain ⟨s, hs⟩ := machine32_runs
    refine ⟨s, ?_⟩
    have hva : 0x40000123 < 2 ^ (i386.top.shift + i386.top.bits) := by decide
    have huser : indexof 0x40000123 i386.top ∉ i386.kernelIdx := by decide +kernel
    have hspec := translate_spec hs (Function.update_self ..) hva
    rw [if_neg huser] at hspec
    exact hspec

end MyOs.Vme
