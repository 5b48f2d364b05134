import MyOs.Cte.Ports

/-!
# New contexts

`kcontext` and `ucontext`, which make the first context of a thread at the end of its stack.

* `kcontext64_created`, `kcontext32_created` — a context of the kernel.
* `ucontext64_created`, `ucontext32_created` — a context of the user.
-/

namespace MyOs.Cte

open MyOs.Memory MyOs.Words

variable {w : Nat}

-- ---------------------------------------------------------------------------
-- Filling in a struct
-- ---------------------------------------------------------------------------

/-- `*ctx = (Context) { 0 }`. -/
def zeroFields (ctx : Word w) : Nat → Cpu w → Cpu w
  | 0, c => c
  | n + 1, c => (zeroFields ctx n c).setField ctx n 0

/-- The assignments behind it, by the positions of the fields. -/
def assign (ctx : Word w) (f : List (Nat × Word w)) (c : Cpu w) : Cpu w :=
  f.foldl (fun c x => c.setField ctx x.1 x.2) c

theorem zeroFields_field (ctx : Word w) (n i : Nat) (c : Cpu w) :
    (zeroFields ctx n c).field ctx i = if i < n then 0 else c.field ctx i := by
  induction n with
  | zero => rfl
  | succ n ih =>
    rw [zeroFields, Cpu.field_setField, ih]
    by_cases hi : i = n
    · rw [if_pos hi, if_pos (by omega)]
    · rw [if_neg hi]
      by_cases hlt : i < n
      · rw [if_pos hlt, if_pos (by omega)]
      · rw [if_neg hlt, if_neg (by omega)]

theorem zeroFields_spec (ctx : Word w) {k n : Nat} (hk : k ≤ n) (c : Cpu w) :
    zeroFields ctx k c = c.withMem (zeroFields ctx k c).mem ∧
      OnlyIn c.mem (zeroFields ctx k c).mem ctx.toNat (ctx.toNat + w * n) := by
  induction k with
  | zero => exact ⟨rfl, OnlyIn.refl _ _ _⟩
  | succ k ih =>
    obtain ⟨heq, honly⟩ := ih (Nat.le_of_succ_le hk)
    refine ⟨?_, honly.trans (Cpu.onlyIn_setField _ ctx 0 hk)⟩
    rw [zeroFields, heq]
    rfl

theorem assign_spec (ctx : Word w) {n : Nat} {f : List (Nat × Word w)} (hf : ∀ x ∈ f, x.1 < n)
    (c : Cpu w) : assign ctx f c = c.withMem (assign ctx f c).mem ∧
      OnlyIn c.mem (assign ctx f c).mem ctx.toNat (ctx.toNat + w * n) := by
  induction f generalizing c with
  | nil => exact ⟨rfl, OnlyIn.refl _ _ _⟩
  | cons x f ih =>
    obtain ⟨heq, honly⟩ := ih (fun y hy => hf y (List.mem_cons_of_mem x hy))
      (c.setField ctx x.1 x.2)
    refine ⟨?_, (c.onlyIn_setField ctx x.2 (hf x List.mem_cons_self)).trans honly⟩
    exact heq

/-- A new struct: memory is changed there and nowhere else. -/
theorem assign_zeroFields (ctx : Word w) {n : Nat} {f : List (Nat × Word w)}
    (hf : ∀ x ∈ f, x.1 < n) (c : Cpu w) :
    assign ctx f (zeroFields ctx n c) = c.withMem (assign ctx f (zeroFields ctx n c)).mem ∧
      OnlyIn c.mem (assign ctx f (zeroFields ctx n c)).mem ctx.toNat (ctx.toNat + w * n) := by
  obtain ⟨hzero, honly⟩ := zeroFields_spec ctx (Nat.le_refl n) c
  obtain ⟨hassign, honly'⟩ := assign_spec ctx hf (zeroFields ctx n c)
  refine ⟨hassign.trans ?_, honly.trans honly'⟩
  rw [hzero]
  rfl

variable {ι : Type} {t : ι}

/-- **A new context** at the end of its stack can be resumed. -/
theorem assign_created {p : Port w} {A : Stacks p ι} {n : Nat} {f : List (Nat × Word w)}
    {v : View w} {stop : Word w} {c : Cpu w} (hsize : p.size = w * n) (hroom : p.size ≤ p.room)
    (hf : ∀ x ∈ f, x.1 < n) (hstop : stop.toNat = A.stop t)
    (hv : p.contextAt (assign (stop - BitVec.ofNat _ p.size) f
      (zeroFields (stop - BitVec.ofNat _ p.size) n c)).mem
        (stop - BitVec.ofNat _ p.size).toNat = v)
    (hmode : (v.cs = kernelCs ∧ v.sp = stop) ∨ (v.User ∧ v.cr3 ≠ 0 ∧ v.sp0 = stop)) :
    Created A t c (assign (stop - BitVec.ofNat _ p.size) f
      (zeroFields (stop - BitVec.ofNat _ p.size) n c)) (stop - BitVec.ofNat _ p.size) v := by
  have hroomy := A.roomy t
  have hctx : (stop - BitVec.ofNat _ p.size).toNat = stop.toNat - p.size :=
    toNat_sub_ofNat (by omega)
  obtain ⟨heq, honly⟩ := assign_zeroFields (stop - BitVec.ofNat _ p.size) hf c
  refine ⟨_, heq, honly.mono (by omega) (by omega), by omega, by omega, hv, ?_, ?_⟩
  · refine hmode.imp (fun h => ⟨h.1, ?_⟩) And.left
    rw [h.2]
    omega
  · refine hmode.imp (fun h => ⟨h.1, ?_⟩) fun h => ⟨h.1, h.2.1, ?_⟩
    · rw [h.2, hstop]
    · rw [h.2.2, hstop]

-- ---------------------------------------------------------------------------
-- x86_64
-- ---------------------------------------------------------------------------

/-- `kcontext`, for a stack that ends at `stop`; `start` is `__am_kcontext_start`. -/
def kcontext64 (start stop entry arg : Word 8) (c : Cpu 8) : Word 8 × Cpu 8 :=
  let ctx := stop - BitVec.ofNat _ 176
  (ctx, assign ctx [(17, BitVec.ofNat _ (ksel segKcode)), (16, start), (18, BitVec.ofNat _ flIf),
    (19, stop), (7, arg), (6, entry)] (zeroFields ctx 22 c))

/-- `ucontext`, for the page table `ptr` and a user space that ends at `uvmEnd`. -/
def ucontext64 (ptr uvmEnd stop entry : Word 8) (c : Cpu 8) : Word 8 × Cpu 8 :=
  let ctx := stop - BitVec.ofNat _ 176
  (ctx, assign ctx [(17, BitVec.ofNat _ (usel segUcode)), (20, BitVec.ofNat _ (usel segUdata)),
    (16, entry), (18, BitVec.ofNat _ flIf), (19, uvmEnd), (21, stop), (0, ptr)]
      (zeroFields ctx 22 c))

theorem userCs : (BitVec.ofNat 16 (usel segUcode)).toNat % 4 = 3 := by decide

theorem contextAt64_of_field {ctx : Word 8} {c : Cpu 8} {f : Nat → Word 8}
    (h : ∀ i, c.field ctx i = f i) : contextAt64 c.mem ctx.toNat = Context64.ofWords f :=
  congrArg Context64.ofWords (funext h)

theorem kcontext64_field {start stop entry arg : Word 8} (ctx : Word 8) (c : Cpu 8) (i : Nat) :
    (assign ctx [(17, BitVec.ofNat _ (ksel segKcode)), (16, start), (18, BitVec.ofNat _ flIf),
        (19, stop), (7, arg), (6, entry)] (zeroFields ctx 22 c)).field ctx i
      = if i = 6 then entry else if i = 7 then arg else if i = 19 then stop
        else if i = 18 then BitVec.ofNat _ flIf else if i = 16 then start
        else if i = 17 then BitVec.ofNat _ (ksel segKcode)
        else if i < 22 then 0 else c.field ctx i := by
  simp only [assign, List.foldl_cons, List.foldl_nil, Cpu.field_setField, zeroFields_field]

theorem ucontext64_field {ptr uvmEnd stop entry : Word 8} (ctx : Word 8) (c : Cpu 8) (i : Nat) :
    (assign ctx [(17, BitVec.ofNat _ (usel segUcode)), (20, BitVec.ofNat _ (usel segUdata)),
        (16, entry), (18, BitVec.ofNat _ flIf), (19, uvmEnd), (21, stop), (0, ptr)]
          (zeroFields ctx 22 c)).field ctx i
      = if i = 0 then ptr else if i = 21 then stop else if i = 19 then uvmEnd
        else if i = 18 then BitVec.ofNat _ flIf else if i = 16 then entry
        else if i = 20 then BitVec.ofNat _ (usel segUdata)
        else if i = 17 then BitVec.ofNat _ (usel segUcode)
        else if i < 22 then 0 else c.field ctx i := by
  simp only [assign, List.foldl_cons, List.foldl_nil, Cpu.field_setField, zeroFields_field]

section X8664

variable {amIret : Word 8} {A : Stacks (port64 amIret) ι}

theorem kcontext64_created (start stop entry arg : Word 8)
    (hstop : stop.toNat = A.stop t) (c : Cpu 8) :
    Created A t c (kcontext64 start stop entry arg c).2 (kcontext64 start stop entry arg c).1
      ⟨0, 0, stop, kernelCs, [0, 0, 0, 0, 0, entry, arg, 0, 0, 0, 0, 0, 0, 0, 0, start,
      BitVec.ofNat _ flIf, 0]⟩ := by
  have hsize : (port64 amIret).size ≤ (port64 amIret).room := show 176 ≤ 240 by decide
  obtain ⟨m, hparked⟩ := assign_created (p := port64 amIret) (A := A) (n := 22)
    (f := [(17, BitVec.ofNat _ (ksel segKcode)), (16, start), (18, BitVec.ofNat _ flIf),
      (19, stop), (7, arg), (6, entry)]) (c := c)
    (v := ⟨0, 0, stop, kernelCs, [0, 0, 0, 0, 0, entry, arg, 0, 0, 0, 0, 0, 0, 0, 0, start,
      BitVec.ofNat _ flIf, 0]⟩)
    rfl hsize (by simp) hstop
    ((congrArg Context64.view (contextAt64_of_field (kcontext64_field _ c))).trans rfl)
    (.inl ⟨rfl, rfl⟩)
  exact ⟨m, hparked⟩

theorem ucontext64_created (ptr uvmEnd stop entry : Word 8) (hptr : ptr ≠ 0)
    (hstop : stop.toNat = A.stop t) (c : Cpu 8) :
    Created A t c (ucontext64 ptr uvmEnd stop entry c).2 (ucontext64 ptr uvmEnd stop entry c).1
      ⟨ptr, stop, uvmEnd, BitVec.ofNat _ (usel segUcode), [0, 0, 0, 0, 0, 0, 0, 0, 0, 0, 0, 0, 0,
      0, 0, entry, BitVec.ofNat _ flIf, BitVec.ofNat _ (usel segUdata)]⟩ := by
  have hsize : (port64 amIret).size ≤ (port64 amIret).room := show 176 ≤ 240 by decide
  obtain ⟨m, hparked⟩ := assign_created (p := port64 amIret) (A := A) (n := 22)
    (f := [(17, BitVec.ofNat _ (usel segUcode)), (20, BitVec.ofNat _ (usel segUdata)),
      (16, entry), (18, BitVec.ofNat _ flIf), (19, uvmEnd), (21, stop), (0, ptr)]) (c := c)
    (v := ⟨ptr, stop, uvmEnd, BitVec.ofNat _ (usel segUcode), [0, 0, 0, 0, 0, 0, 0, 0, 0, 0, 0, 0,
      0, 0, 0, entry, BitVec.ofNat _ flIf, BitVec.ofNat _ (usel segUdata)]⟩)
    rfl hsize (by simp) hstop
    ((congrArg Context64.view (contextAt64_of_field (ucontext64_field _ c))).trans rfl)
    (.inr ⟨userCs, hptr, rfl⟩)
  exact ⟨m, hparked⟩

end X8664

-- ---------------------------------------------------------------------------
-- x86
-- ---------------------------------------------------------------------------

/-- `kcontext`. -/
def kcontext32 (start stop entry arg : Word 4) (c : Cpu 4) : Word 4 × Cpu 4 :=
  let ctx := stop - BitVec.ofNat _ 60
  (ctx, assign ctx [(1, BitVec.ofNat _ (ksel segKdata)), (11, BitVec.ofNat _ (ksel segKcode)),
    (10, start), (12, BitVec.ofNat _ flIf), (13, stop), (2, arg), (3, entry)]
      (zeroFields ctx 15 c))

/-- `ucontext`. -/
def ucontext32 (ptr uvmEnd stop entry : Word 4) (c : Cpu 4) : Word 4 × Cpu 4 :=
  let ctx := stop - BitVec.ofNat _ 60
  (ctx, assign ctx [(11, BitVec.ofNat _ (usel segUcode)), (1, BitVec.ofNat _ (usel segUdata)),
    (14, BitVec.ofNat _ (usel segUdata)), (10, entry), (12, BitVec.ofNat _ flIf), (13, uvmEnd),
    (6, stop), (0, ptr)] (zeroFields ctx 15 c))

theorem contextAt32_of_field {ctx : Word 4} {c : Cpu 4} {f : Nat → Word 4}
    (h : ∀ i, c.field ctx i = f i) : contextAt32 c.mem ctx.toNat = Context32.ofWords f :=
  congrArg Context32.ofWords (funext h)

theorem kcontext32_field {start stop entry arg : Word 4} (ctx : Word 4) (c : Cpu 4) (i : Nat) :
    (assign ctx [(1, BitVec.ofNat _ (ksel segKdata)), (11, BitVec.ofNat _ (ksel segKcode)),
        (10, start), (12, BitVec.ofNat _ flIf), (13, stop), (2, arg), (3, entry)]
          (zeroFields ctx 15 c)).field ctx i
      = if i = 3 then entry else if i = 2 then arg else if i = 13 then stop
        else if i = 12 then BitVec.ofNat _ flIf else if i = 10 then start
        else if i = 11 then BitVec.ofNat _ (ksel segKcode)
        else if i = 1 then BitVec.ofNat _ (ksel segKdata)
        else if i < 15 then 0 else c.field ctx i := by
  simp only [assign, List.foldl_cons, List.foldl_nil, Cpu.field_setField, zeroFields_field]

theorem ucontext32_field {ptr uvmEnd stop entry : Word 4} (ctx : Word 4) (c : Cpu 4) (i : Nat) :
    (assign ctx [(11, BitVec.ofNat _ (usel segUcode)), (1, BitVec.ofNat _ (usel segUdata)),
        (14, BitVec.ofNat _ (usel segUdata)), (10, entry), (12, BitVec.ofNat _ flIf), (13, uvmEnd),
        (6, stop), (0, ptr)] (zeroFields ctx 15 c)).field ctx i
      = if i = 0 then ptr else if i = 6 then stop else if i = 13 then uvmEnd
        else if i = 12 then BitVec.ofNat _ flIf else if i = 10 then entry
        else if i = 14 then BitVec.ofNat _ (usel segUdata)
        else if i = 1 then BitVec.ofNat _ (usel segUdata)
        else if i = 11 then BitVec.ofNat _ (usel segUcode)
        else if i < 15 then 0 else c.field ctx i := by
  simp only [assign, List.foldl_cons, List.foldl_nil, Cpu.field_setField, zeroFields_field]

section X86

variable {amIret back : Word 4} {A : Stacks (port32 amIret back) ι}

theorem kcontext32_created (start stop entry arg : Word 4)
    (hstop : stop.toNat = A.stop t) (c : Cpu 4) :
    Created A t c (kcontext32 start stop entry arg c).2 (kcontext32 start stop entry arg c).1
      ⟨0, 0, stop, kernelCs, [BitVec.ofNat _ (ksel segKdata), arg, entry, 0, 0, 0, 0, 0, start,
      BitVec.ofNat _ flIf]⟩ := by
  have hsize : (port32 amIret back).size ≤ (port32 amIret back).room := show 60 ≤ 104 by decide
  obtain ⟨m, hparked⟩ := assign_created (p := port32 amIret back) (A := A) (n := 15)
    (f := [(1, BitVec.ofNat _ (ksel segKdata)), (11, BitVec.ofNat _ (ksel segKcode)),
      (10, start), (12, BitVec.ofNat _ flIf), (13, stop), (2, arg), (3, entry)]) (c := c)
    (v := ⟨0, 0, stop, kernelCs, [BitVec.ofNat _ (ksel segKdata), arg, entry, 0, 0, 0, 0, 0, start,
      BitVec.ofNat _ flIf]⟩)
    rfl hsize (by simp) hstop
    ((congrArg Context32.view (contextAt32_of_field (kcontext32_field _ c))).trans rfl)
    (.inl ⟨rfl, rfl⟩)
  exact ⟨m, hparked⟩

theorem ucontext32_created (ptr uvmEnd stop entry : Word 4) (hptr : ptr ≠ 0)
    (hstop : stop.toNat = A.stop t) (c : Cpu 4) :
    Created A t c (ucontext32 ptr uvmEnd stop entry c).2 (ucontext32 ptr uvmEnd stop entry c).1
      ⟨ptr, stop, uvmEnd, BitVec.ofNat _ (usel segUcode), [BitVec.ofNat _ (usel segUdata), 0, 0,
      0, 0, 0, 0, 0, entry, BitVec.ofNat _ flIf]⟩ := by
  have hsize : (port32 amIret back).size ≤ (port32 amIret back).room := show 60 ≤ 104 by decide
  obtain ⟨m, hparked⟩ := assign_created (p := port32 amIret back) (A := A) (n := 15)
    (f := [(11, BitVec.ofNat _ (usel segUcode)), (1, BitVec.ofNat _ (usel segUdata)),
      (14, BitVec.ofNat _ (usel segUdata)), (10, entry), (12, BitVec.ofNat _ flIf), (13, uvmEnd),
      (6, stop), (0, ptr)]) (c := c)
    (v := ⟨ptr, stop, uvmEnd, BitVec.ofNat _ (usel segUcode), [BitVec.ofNat _ (usel segUdata), 0, 0,
      0, 0, 0, 0, 0, entry, BitVec.ofNat _ flIf]⟩)
    rfl hsize (by simp) hstop
    ((congrArg Context32.view (contextAt32_of_field (ucontext32_field _ c))).trans rfl)
    (.inr ⟨userCs, hptr, rfl⟩)
  exact ⟨m, hparked⟩

end X86

end MyOs.Cte
