import MyOs.Cte.Stack

/-!
# Interrupts on x86

`trap32.S` with the 32-bit side of `__am_irq_handle`. When the kernel is interrupted
the processor does not push the stack pointer, so the old one is computed from the frame.

* `exec_trap32` — what is on the stack when the C code is called.
* `enter32_spec` — **saving**: the context is that of the interrupted code.
-/

namespace MyOs.Cte

open MyOs.Memory MyOs.Words MyOs.Buffer

-- ---------------------------------------------------------------------------
-- The source
-- ---------------------------------------------------------------------------

/-- `struct Context` of `x86-qemu.h`. -/
structure Context32 where
  cr3 : Word 4
  ds : Word 4
  eax : Word 4
  ebx : Word 4
  ecx : Word 4
  edx : Word 4
  esp0 : Word 4
  esi : Word 4
  edi : Word 4
  ebp : Word 4
  eip : Word 4
  cs : Word 4
  eflags : Word 4
  esp : Word 4
  ss3 : Word 4
deriving DecidableEq

/-- A context from its words. -/
def Context32.ofWords (f : Nat → Word 4) : Context32 :=
  ⟨f 0, f 1, f 2, f 3, f 4, f 5, f 6, f 7, f 8, f 9, f 10, f 11, f 12, f 13, f 14⟩

/-- The context that starts at an address. -/
def contextAt32 (m : Mem) (a : Nat) : Context32 := Context32.ofWords (words 4 m a)

/-- The first pushes of `trap`; the zero is for `esp0`. -/
def pushes32 : List (Instr 4) :=
  [.push .bp, .push .di, .push .si, .pushImm 0, .push .dx, .push .cx, .push .bx, .push .ax]

/-- `trap`. The call returns to `__am_iret`. -/
def trap32 (amIret : Word 4) : List (Instr 4) :=
  [.cli, .sub 20 .sp] ++ pushes32 ++
    [.movFrom .ds .ax, .push .ax, .pushImm 0, .movImm (BitVec.ofNat _ (ksel segKdata)) .ax,
      .movTo .ax .ds, .movTo .ax .es, .movTo .ax .ss, .push .sp, .pushImm amIret]

/-- What the processor does: only for the user's code is there another stack, whose end is kept in
the TSS, and only then is the old one pushed. -/
def deliver32 (err : Option (Word 4)) (c : Cpu 4) : Cpu 4 :=
  let sp := if c.user then c.sp0 else c.reg .sp
  let old := if c.user then [(c.seg .ss).setWidth _, c.reg .sp] else []
  let c' := (c.setReg .sp sp).pushAll (old ++ [c.flags, c.cs.setWidth _, c.ip] ++ err.toList)
  { (if c.user then c'.setSeg .ss c.ss0 else c') with cs := BitVec.ofNat _ (ksel segKcode) }

/-- `iret` in ring 0. -/
def iret32 (c : Cpu 4) : Cpu 4 :=
  let f := words 4 c.mem (c.reg .sp).toNat
  let c' := { c with ip := f 0, cs := (f 1).setWidth 16, flags := f 2 }
  if c'.user then (c'.setReg .sp (f 3)).setSeg .ss ((f 4).setWidth 16)
  else c'.setReg .sp (c.reg .sp + BitVec.ofNat _ 12)

/-- `__am_iret`, up to the comparison. -/
def amIret32 : List (Instr 4) :=
  [.add 4 .sp, .pop .ax, .mov .ax .sp, .add 4 .sp, .pop .ax, .movTo .ax .ds, .movTo .ax .es]

/-- `.user_iret`. -/
def userIret : List (Instr 4) :=
  [.pop .ax, .pop .bx, .pop .cx, .pop .dx, .add 4 .sp, .pop .si, .pop .di, .pop .bp]

/-- `.kernel_iret`. -/
def kernelIret : List (Instr 4) :=
  [.pop .ax, .pop .bx, .pop .cx, .pop .dx, .add 4 .sp,
    .mov .sp .bp, .load 24 .bp .di,
    .load 20 .bp .si, .store .si 4 .di, .load 16 .bp .si, .store .si 8 .di,
    .load 12 .bp .si, .store .si 12 .di, .load 8 .bp .si, .store .si 16 .di,
    .load 4 .bp .si, .store .si 20 .di, .load 0 .bp .si, .store .si 24 .di,
    .lea 24 .di .sp, .pop .si, .pop .di, .pop .bp]

/-- The assignments to `saved_ctx` in `__am_irq_handle`. -/
def saveContext32 (tf : Word 4) (c : Cpu 4) : Cpu 4 :=
  let c := c.setField tf 10 (c.field tf 17)
  let c := c.setField tf 11 (c.field tf 18)
  let c := c.setField tf 12 (c.field tf 19)
  let c := c.setField tf 6 c.sp0
  let c := c.setField tf 14 (BitVec.ofNat _ (usel segUdata))
  let c := c.setField tf 13
    (if c.field tf 18 &&& 3 ≠ 0 then c.field tf 20 else tf + BitVec.ofNat _ 88 - BitVec.ofNat _ 8)
  c.setField tf 0 c.cr3

/-- `__am_iret`, called with a context. -/
def callIret32 (back ret : Word 4) (c : Cpu 4) : Cpu 4 :=
  let c := exec amIret32 ((c.push ret).push back)
  -- `cmpw $KSEL(SEG_KCODE), 36(%esp)`
  if (c.at_ (c.reg .sp + BitVec.ofNat _ 36)).setWidth 16 = BitVec.ofNat 16 (ksel segKcode)
  then iret32 (exec kernelIret c)
  else iret32 (exec userIret c)

/-- The end of `__am_irq_handle`, for the context that the handler returned. -/
def leave32 (back ret : Word 4) (c : Cpu 4) : Except String (Cpu 4) :=
  if ret = 0 then .error "returning to NULL context"
  else
    let c := if c.field ret 0 ≠ 0
      then { c with
        cr3 := c.field ret 0, ss0 := BitVec.ofNat _ (ksel segKdata), sp0 := c.field ret 6 }
      else c
    .ok (callIret32 back ret c)

/-- The state in which the handler is called. Its argument is on the stack. -/
def enter32 (amIret : Word 4) (t : Trap 4) (c : Cpu 4) : Word 4 × Cpu 4 :=
  let c := exec (entryOf t.vector ++ trap32 amIret) (deliver32 t.errcode c)
  let tf := c.at_ (c.reg .sp + BitVec.ofNat _ 4)
  (tf, saveContext32 tf c)

/-- `__am_irq_handle`: an interrupt from the first push to `iret`. -/
def interrupt32 (amIret back : Word 4) (handler : Handler 4) (t : Trap 4) (c : Cpu 4) :
    Except String (Cpu 4) :=
  let (tf, c) := enter32 amIret t c
  let (ret, c) := handler (eventOf (c.field tf 15) (c.field tf 16) c.cr2) tf c
  leave32 back ret c

-- ---------------------------------------------------------------------------
-- Saving
-- ---------------------------------------------------------------------------

/-- What a thread sees of the processor, as a context. The word of `%ds` has the high half of `%eax`
beside it, and the stack segment is not looked at. -/
def contextOf32 (c : Cpu 4) : Context32 :=
  ⟨c.cr3, low16 (c.reg .ax) (c.seg .ds), c.reg .ax, c.reg .bx, c.reg .cx, c.reg .dx, c.sp0,
    c.reg .si, c.reg .di, c.reg .bp, c.ip, c.cs.setWidth _, c.flags, c.reg .sp,
    BitVec.ofNat _ (usel segUdata)⟩

/-- The top of the stack on which an interrupt is taken. -/
def top32 (c : Cpu 4) : Nat := (if c.user then c.sp0 else c.reg .sp).toNat

/-- The stack that the processor pushes in front of the rest. -/
def oldStack32 (c : Cpu 4) : List (Word 4) :=
  if c.user then [(c.seg .ss).setWidth _, c.reg .sp] else []

/-- Where the frame of an interrupt starts. -/
def frame32 (c : Cpu 4) : Nat := top32 c - 4 * (20 + (oldStack32 c).length)

theorem oldStack32_length_le (c : Cpu 4) : (oldStack32 c).length ≤ 2 := by
  unfold oldStack32
  split
  · exact Nat.le_refl 2
  · exact Nat.zero_le 2

variable {amIret : Word 4} {t : Trap 4} {c : Cpu 4}

theorem deliver32_eq (err : Option (Word 4)) : deliver32 err c
    = ((c.setReg .sp (BitVec.ofNat _ (top32 c))).pushAll ((oldStack32 c ++ [c.flags,
        c.cs.setWidth _, c.ip]) ++ err.toList)).withSys c.flags (BitVec.ofNat _ (ksel segKcode))
          (if c.user then Function.update c.seg .ss c.ss0 else c.seg) := by
  have htop : BitVec.ofNat _ (top32 c) = if c.user then c.sp0 else c.reg .sp := by
    rw [top32, BitVec.ofNat_toNat, BitVec.setWidth_eq]
  refine (withSys_ite c.user _ c.ss0).trans ?_
  rw [pushAll_seg, pushAll_flags, htop]
  rfl

/-- What `trap` pushes, behind the room that it makes. -/
def pushed32 (c : Cpu 4) : List (Word 4) :=
  [c.reg .bp, c.reg .di, c.reg .si, 0, c.reg .dx, c.reg .cx, c.reg .bx, c.reg .ax,
    low16 (c.reg .ax) (c.seg .ds), 0]

theorem exec_pushes32 (c : Cpu 4) :
    exec (pushes32 ++ [.movFrom .ds .ax, .push .ax, .pushImm 0]) c
      = (c.pushAll (pushed32 c)).setReg .ax (low16 (c.reg .ax) (c.seg .ds)) := by
  have hsplit : exec (pushes32 ++ [.movFrom .ds .ax, .push .ax, .pushImm 0]) c
      = ((c.pushAll [c.reg .bp, c.reg .di, c.reg .si, 0, c.reg .dx, c.reg .cx, c.reg .bx,
          c.reg .ax]).setReg .ax (low16 (c.reg .ax) (c.seg .ds))).pushAll
            [low16 (c.reg .ax) (c.seg .ds), 0] := rfl
  rw [hsplit, pushAll_setReg (by decide), ← Cpu.pushAll_append]
  rfl

/-- The rest of `trap`: the kernel's segments, and the frame as an argument. -/
theorem exec_call32 (c : Cpu 4) (sp ax : Word 4) (m : Mem) :
    ∃ ax' seg, exec [.movImm (BitVec.ofNat _ (ksel segKdata)) .ax, .movTo .ax .ds, .movTo .ax .es,
        .movTo .ax .ss, .push .sp, .pushImm amIret] (((c.setReg .sp sp).withMem m).setReg .ax ax)
      = (((c.setReg .ax ax').setReg .sp (sp - BitVec.ofNat _ 4 - BitVec.ofNat _ 4)).withSys c.flags
          c.cs seg).withMem (store (store m (sp - BitVec.ofNat _ 4).toNat 4 sp.toNat)
            (sp - BitVec.ofNat _ 4 - BitVec.ofNat _ 4).toNat 4 amIret.toNat) := by
  obtain ⟨seg, hseg⟩ : ∃ seg, exec [.movImm (BitVec.ofNat _ (ksel segKdata)) .ax, .movTo .ax .ds,
      .movTo .ax .es, .movTo .ax .ss] (((c.setReg .sp sp).withMem m).setReg .ax ax)
        = ((((c.setReg .sp sp).setReg .ax ax).setReg .ax
            (low16 ax (BitVec.ofNat _ (ksel segKdata)))).withSys c.flags c.cs seg).withMem m :=
    ⟨_, rfl⟩
  have hcomm : (c.setReg .sp sp).setReg .ax (low16 ax (BitVec.ofNat _ (ksel segKdata)))
      = (c.setReg .ax (low16 ax (BitVec.ofNat _ (ksel segKdata)))).setReg .sp sp :=
    Cpu.setReg_comm (by decide)
  rw [Cpu.setReg_setReg, hcomm] at hseg
  refine ⟨low16 ax (BitVec.ofNat _ (ksel segKdata)), seg, ?_⟩
  have hpush : exec [.push .sp, .pushImm amIret] ((((c.setReg .ax
      (low16 ax (BitVec.ofNat _ (ksel segKdata)))).setReg .sp sp).withSys c.flags c.cs
        seg).withMem m)
        = (((((c.setReg .ax (low16 ax (BitVec.ofNat _ (ksel segKdata)))).setReg .sp sp).withSys
            c.flags c.cs seg).withMem m).push sp).push amIret := rfl
  rw [push_eq, push_eq, ← hseg] at hpush
  exact hpush

/-- **The stack** when `__am_irq_handle` is called. -/
theorem exec_trap32 (hroom : 96 ≤ top32 c) :
    ∃ ax flags cs seg sp m, exec (entryOf t.vector ++ trap32 amIret) (deliver32 t.errcode c)
        = (((c.setReg .ax ax).setReg .sp sp).withSys flags cs seg).withMem m ∧
      sp.toNat = frame32 c - 8 ∧ load m (frame32 c - 4) 4 = frame32 c ∧
      OnlyIn c.mem m (frame32 c - 8) (top32 c) ∧
      ∀ i, words 4 m (frame32 c) i = write (write (words 4 c.mem (frame32 c)) 15 ([irqOf t.vector,
        t.errcode.getD 0, c.ip, c.cs.setWidth _, c.flags] ++ (oldStack32 c).reverse)) 0
          (pushed32 c).reverse i := by
  have hlt : top32 c < 2 ^ (8 * 4) := (if c.user then c.sp0 else c.reg .sp).isLt
  have hframe : frame32 c = top32 c - 4 * (20 + (oldStack32 c).length) := rfl
  have hold := oldStack32_length_le c
  obtain ⟨flags, hentry⟩ := exec_entryOf (c := c.setReg .sp (BitVec.ofNat _ (top32 c))) t
    (BitVec.ofNat _ (ksel segKcode)) (if c.user then Function.update c.seg .ss c.ss0 else c.seg)
    (oldStack32 c ++ [c.flags, c.cs.setWidth _, c.ip])
  -- the words of the processor and two of the entry point
  obtain ⟨sp₁, m₁, hpush₁, hsp₁, hwords₁, honly₁⟩ := pushAll_spec (a := frame32 c) (k := 15)
    (c := c.setReg .sp (BitVec.ofNat _ (top32 c)))
    (s := (oldStack32 c ++ [c.flags, c.cs.setWidth _, c.ip]) ++
      [t.errcode.getD 0, irqOf t.vector])
    (by
      rw [Cpu.setReg_reg, Function.update_self, toNat_ofNat_of_lt hlt]
      simp only [List.length_append, List.length_cons, List.length_nil]
      omega)
  rw [hpush₁, Cpu.setReg_setReg, Cpu.withSys_withMem] at hentry
  -- the registers and two zeroes
  obtain ⟨c₂, hc₂⟩ : ∃ c₂, c₂ = ((c.setReg .sp (sp₁ - BitVec.ofNat _ 20)).withSys
      (flags &&& ~~~BitVec.ofNat _ flIf) (BitVec.ofNat _ (ksel segKcode))
      (if c.user then Function.update c.seg .ss c.ss0 else c.seg)).withMem m₁ := ⟨_, rfl⟩
  have hstub : exec [.cli, .sub 20 .sp] (exec (entryOf t.vector) (deliver32 t.errcode c)) = c₂ := by
    rw [deliver32_eq, hc₂]
    refine (congrArg (exec [.cli, .sub 20 .sp]) hentry).trans ?_
    rw [← Cpu.setReg_withSys, ← Cpu.setReg_withMem, exec_reserve]
    rfl
  have hpushed : pushed32 c₂ = pushed32 c := by
    have hds : c₂.seg .ds = c.seg .ds := by
      rw [hc₂]
      change (if c.user then Function.update c.seg .ss c.ss0 else c.seg) .ds = _
      split <;> rfl
    unfold pushed32
    rw [hds, hc₂]
    rfl
  obtain ⟨sp₃, m₃, hpush₃, hsp₃, hwords₃, honly₃⟩ := pushAll_spec (a := frame32 c) (k := 0)
    (c := c₂) (s := pushed32 c) (by
      rw [hc₂, Cpu.withMem_reg, Cpu.withSys_reg, Cpu.setReg_reg, Function.update_self,
        toNat_sub_ofNat (by omega)]
      show sp₁.toNat - 20 = frame32 c + 4 * (0 + 10)
      omega)
  -- the call
  obtain ⟨ax, seg, hcall⟩ := @exec_call32 amIret c₂ sp₃
    (low16 (c₂.reg .ax) (c₂.seg .ds)) m₃
  have hexec : exec (entryOf t.vector ++ trap32 amIret) (deliver32 t.errcode c)
      = exec [.movImm (BitVec.ofNat _ (ksel segKdata)) .ax, .movTo .ax .ds, .movTo .ax .es,
          .movTo .ax .ss, .push .sp, .pushImm amIret]
          (exec (pushes32 ++ [.movFrom .ds .ax, .push .ax, .pushImm 0])
            (exec [.cli, .sub 20 .sp] (exec (entryOf t.vector) (deliver32 t.errcode c)))) := by
    have hsplit : trap32 amIret = [.cli, .sub 20 .sp] ++
        ((pushes32 ++ [.movFrom .ds .ax, .push .ax, .pushImm 0]) ++
          [.movImm (BitVec.ofNat _ (ksel segKdata)) .ax, .movTo .ax .ds, .movTo .ax .es,
            .movTo .ax .ss, .push .sp, .pushImm amIret]) := rfl
    rw [exec_append, hsplit, exec_append, exec_append]
  have hcomm : (c.setReg .sp (sp₁ - BitVec.ofNat _ 20)).setReg .ax ax
      = (c.setReg .ax ax).setReg .sp (sp₁ - BitVec.ofNat _ 20) := Cpu.setReg_comm (by decide)
  rw [hstub, exec_pushes32, hpushed, hpush₃, hcall, hc₂] at hexec
  simp only [Cpu.setReg_withMem, Cpu.setReg_withSys, Cpu.withMem_withMem, Cpu.withSys_withMem,
    Cpu.withSys_withSys] at hexec
  rw [hcomm, Cpu.setReg_setReg] at hexec
  rw [Nat.mul_zero, Nat.add_zero] at hsp₃ honly₃
  have hsp₄ : (sp₃ - BitVec.ofNat _ 4).toNat = frame32 c - 4 := by
    rw [toNat_sub_ofNat (by omega), hsp₃]
  have hsp₅ : (sp₃ - BitVec.ofNat _ 4 - BitVec.ofNat _ 4).toNat = frame32 c - 8 := by
    rw [toNat_sub_ofNat (by omega)]
    omega
  rw [hsp₄, hsp₅] at hexec
  have honly₄ : OnlyIn m₃ (store m₃ (frame32 c - 4) 4 sp₃.toNat) (frame32 c - 8) (frame32 c) :=
    onlyIn_store.mono (by omega) (by omega)
  have honly₅ := honly₄.store (n := 4) (v := amIret.toNat) (Nat.le_refl _)
    (show frame32 c - 8 + 4 ≤ frame32 c by omega)
  refine ⟨_, _, _, _, _, _, hexec, hsp₅, ?_, ?_, fun i => ?_⟩
  · rw [load_store_of_disjoint (by omega), load_store (toNat_lt sp₃), hsp₃]
  · have htop₁ : frame32 c + 4 * (15 + ((oldStack32 c ++ [c.flags, c.cs.setWidth _, c.ip]) ++
        [t.errcode.getD 0, irqOf t.vector]).length) ≤ top32 c := by
      simp only [List.length_append, List.length_cons, List.length_nil]
      omega
    have htop₃ : frame32 c + 4 * (0 + (pushed32 c).length) ≤ top32 c := by
      show frame32 c + 4 * (0 + 10) ≤ top32 c
      omega
    rw [hc₂] at honly₃
    exact ((honly₁.mono (by omega) htop₁).trans (honly₃.mono (by omega) htop₃)).trans
      (honly₅.mono (Nat.le_refl _) (by omega))
  · rw [words_same (honly₅.same (b := frame32 c + 4 * (i + 1)) (.inr (Nat.le_refl _)))
      (Nat.lt_succ_self i), hwords₃, hc₂]
    refine congrFun (congrArg (write · 0 _) (hwords₁.trans ?_)) i
    rw [List.reverse_append, List.reverse_append]
    rfl

/-- The context and the rest of the frame behind it. -/
theorem saveContext32_field (tf : Word 4) (c : Cpu 4) (i : Nat) :
    (saveContext32 tf c).field tf i
      = if i = 0 then c.cr3
        else if i = 13 then (if c.field tf 18 &&& 3 ≠ 0 then c.field tf 20
          else tf + BitVec.ofNat _ 88 - BitVec.ofNat _ 8)
        else if i = 14 then BitVec.ofNat _ (usel segUdata) else if i = 6 then c.sp0
        else if i = 12 then c.field tf 19 else if i = 11 then c.field tf 18
        else if i = 10 then c.field tf 17 else c.field tf i := by
  simp only [saveContext32, Cpu.field_setField, Cpu.setField_cr3, Cpu.setField_sp0,
    Nat.reduceEqDiff, ↓reduceIte]

theorem saveContext32_onlyIn (tf : Word 4) (c : Cpu 4) :
    OnlyIn c.mem (saveContext32 tf c).mem tf.toNat (tf.toNat + 60) := by
  have hstep := fun (c : Cpu 4) (i : Nat) (hi : i < 15) (v : Word 4) => c.onlyIn_setField tf v hi
  exact ((((((hstep _ 10 (by decide) _).trans (hstep _ 11 (by decide) _)).trans
    (hstep _ 12 (by decide) _)).trans (hstep _ 6 (by decide) _)).trans
      (hstep _ 14 (by decide) _)).trans (hstep _ 13 (by decide) _)).trans (hstep _ 0 (by decide) _)

/-- Only memory is written to. -/
theorem saveContext32_rest (tf : Word 4) (c : Cpu 4) :
    (saveContext32 tf c).reg = c.reg ∧ (saveContext32 tf c).cr2 = c.cr2 ∧
      (saveContext32 tf c).cr3 = c.cr3 ∧ (saveContext32 tf c).sp0 = c.sp0 := by
  simp only [saveContext32, Cpu.setField_reg, Cpu.setField_cr2, Cpu.setField_cr3,
    Cpu.setField_sp0, and_self]

/-- The frame, by position, with the fields that `__am_irq_handle` fills in. -/
theorem contextOf32_eq (c : Cpu 4) (f : Nat → Word 4) (irq err esp : Word 4) (old : List (Word 4))
    (hesp : esp = c.reg .sp) :
    (Context32.ofWords fun i =>
      let g := write (write f 15 ([irq, err, c.ip, c.cs.setWidth _, c.flags] ++ old)) 0
        (pushed32 c).reverse
      if i = 0 then c.cr3 else if i = 13 then esp else if i = 14 then BitVec.ofNat _ (usel segUdata)
        else if i = 6 then c.sp0 else if i = 12 then c.flags else if i = 11 then c.cs.setWidth _
        else if i = 10 then c.ip else g i) = contextOf32 c := by
  subst hesp
  rfl

/-- The requested privilege of a selector. -/
theorem and_dplUser (cs : BitVec 16) :
    (cs.setWidth (8 * 4) &&& 3 : Word 4) = 0 ↔ cs.toNat % 4 = 0 := by
  have hlt : cs.toNat < 2 ^ (8 * 4) := cs.isLt.trans (by decide)
  have hand : (cs.setWidth (8 * 4) &&& 3 : Word 4).toNat = cs.toNat % 4 := by
    rw [BitVec.toNat_and, BitVec.toNat_setWidth, Nat.mod_eq_of_lt hlt]
    exact Nat.and_two_pow_sub_one_eq_mod cs.toNat 2
  rw [← hand]
  exact ⟨fun h => by rw [h]; rfl, fun h => BitVec.eq_of_toNat_eq h⟩

/-- **The stack pointer** that is put into the context. -/
theorem savedEsp {f : Nat → Word 4} {v e tf : Word 4} (hring : c.user ∨ c.cs.toNat % 4 = 0)
    (htf : tf.toNat = frame32 c) (hroom : 96 ≤ top32 c) :
    let g := write (write f 15 ([v, e, c.ip, c.cs.setWidth _, c.flags] ++
      (oldStack32 c).reverse)) 0 (pushed32 c).reverse
    (if g 18 &&& 3 ≠ 0 then g 20 else tf + BitVec.ofNat _ 88 - BitVec.ofNat _ 8) = c.reg .sp := by
  intro g
  have hcs : g 18 = c.cs.setWidth _ := by
    change write (write f 15 ([v, e, c.ip, c.cs.setWidth _, c.flags] ++
      (oldStack32 c).reverse)) 0 (pushed32 c).reverse 18 = _
    rw [write_append]
    exact write_of_lt (m := write f 15 _) (a := 20) (by decide)
  by_cases huser : c.user
  · have hne : (c.cs.setWidth (8 * 4) &&& 3 : Word 4) ≠ 0 := by
      rw [Ne, and_dplUser]
      have hthree : c.cs.toNat % 4 = 3 := huser
      omega
    rw [hcs, if_pos hne]
    have hold : oldStack32 c = [(c.seg .ss).setWidth _, c.reg .sp] := if_pos huser
    change write (write f 15 ([v, e, c.ip, c.cs.setWidth _, c.flags] ++
      (oldStack32 c).reverse)) 0 (pushed32 c).reverse 20 = _
    rw [hold]
    rfl
  · have hzero : (c.cs.setWidth (8 * 4) &&& 3 : Word 4) = 0 :=
      (and_dplUser c.cs).2 (hring.resolve_left huser)
    rw [hcs, if_neg (not_not.2 hzero)]
    have hold : oldStack32 c = [] := if_neg huser
    have htop : top32 c = (c.reg .sp).toNat := by
      unfold top32
      rw [if_neg huser]
    have hframe : tf.toNat = (c.reg .sp).toNat - 80 := by
      rw [htf, frame32, hold, htop]
      rfl
    have hlt := (c.reg .sp).isLt
    apply BitVec.eq_of_toNat_eq
    rw [BitVec.toNat_sub, BitVec.toNat_add, BitVec.toNat_ofNat, BitVec.toNat_ofNat]
    omega

/-- **Saving.** The context that the handler gets is that of the interrupted code, and nothing but
the stack is written to. -/
theorem enter32_spec (amIret : Word 4) (t : Trap 4) (hring : c.user ∨ c.cs.toNat % 4 = 0)
    (hroom : 96 ≤ top32 c) :
    (enter32 amIret t c).1.toNat = frame32 c ∧
      contextAt32 (enter32 amIret t c).2.mem (frame32 c) = contextOf32 c ∧
      OnlyIn c.mem (enter32 amIret t c).2.mem (frame32 c - 8) (top32 c) ∧
      eventOf ((enter32 amIret t c).2.field (enter32 amIret t c).1 15)
        ((enter32 amIret t c).2.field (enter32 amIret t c).1 16) (enter32 amIret t c).2.cr2
          = eventOf (irqOf t.vector) (t.errcode.getD 0) c.cr2 ∧
      (enter32 amIret t c).2.cr3 = c.cr3 ∧ (enter32 amIret t c).2.sp0 = c.sp0 ∧
      ((enter32 amIret t c).2.reg .sp).toNat = frame32 c - 8 := by
  obtain ⟨ax, flags, cs, seg, sp, m, hexec, hsp, harg, honly, hwords⟩ :=
    @exec_trap32 amIret t c hroom
  have hlt : top32 c < 2 ^ (8 * 4) := (if c.user then c.sp0 else c.reg .sp).isLt
  have hold := oldStack32_length_le c
  have hframe : frame32 c = top32 c - 4 * (20 + (oldStack32 c).length) := rfl
  generalize hc₁ : (((c.setReg .ax ax).setReg .sp sp).withSys flags cs seg).withMem m = c₁ at hexec
  have hspreg : c₁.reg .sp = sp := by
    rw [← hc₁]
    rfl
  obtain ⟨tf, htf⟩ : ∃ tf, tf = c₁.at_ (c₁.reg .sp + BitVec.ofNat _ 4) := ⟨_, rfl⟩
  have henter : enter32 amIret t c = (tf, saveContext32 tf c₁) := by
    rw [htf, enter32, hexec]
  have htfn : tf.toNat = frame32 c := by
    have hadd : (sp + BitVec.ofNat _ 4).toNat = frame32 c - 4 := by
      rw [toNat_add_ofNat (by omega)]
      omega
    have hmem : c₁.mem = m := by
      rw [← hc₁]
      rfl
    rw [htf, hspreg, Cpu.at_, hadd, hmem, words, Nat.mul_zero, Nat.add_zero, harg,
      toNat_ofNat_of_lt (by omega)]
  have hfield : ∀ i, c₁.field tf i = write (write (words 4 c.mem (frame32 c)) 15 ([irqOf t.vector,
      t.errcode.getD 0, c.ip, c.cs.setWidth _, c.flags] ++ (oldStack32 c).reverse)) 0
        (pushed32 c).reverse i := by
    intro i
    rw [← hwords, ← hc₁, ← htfn]
    rfl
  -- what was pushed below the old stack
  have hbelow : ∀ i, i < 5 → c₁.field tf (15 + i) = write (words 4 c.mem (frame32 c)) 15
      [irqOf t.vector, t.errcode.getD 0, c.ip, c.cs.setWidth _, c.flags] (15 + i) := by
    intro i hi
    have hpushed : 0 + (pushed32 c).reverse.length ≤ 15 + i := by
      rw [List.length_reverse]
      show 0 + 10 ≤ 15 + i
      omega
    rw [hfield, write_of_le hpushed, write_append]
    exact write_of_lt (by show 15 + i < 15 + 5; omega)
  have hmem : OnlyIn c.mem c₁.mem (frame32 c - 8) (top32 c) := by
    rw [← hc₁]
    exact honly
  have hrest : c₁.cr2 = c.cr2 ∧ c₁.cr3 = c.cr3 ∧ c₁.sp0 = c.sp0 := by
    rw [← hc₁]
    exact ⟨rfl, rfl, rfl⟩
  obtain ⟨hreg, hcr2, hcr3, hsp0⟩ := saveContext32_rest tf c₁
  rw [henter]
  refine ⟨htfn, ?_, ?_, ?_, hcr3.trans hrest.2.1, hsp0.trans hrest.2.2, ?_⟩
  · have hesp := savedEsp (f := words 4 c.mem (frame32 c)) (v := irqOf t.vector)
      (e := t.errcode.getD 0) hring htfn hroom
    rw [← htfn]
    refine (congrArg Context32.ofWords (funext fun i => ?_) : contextAt32 _ _ = _).trans
      (contextOf32_eq c (words 4 c.mem (frame32 c)) (irqOf t.vector) (t.errcode.getD 0) _
        (oldStack32 c).reverse hesp)
    have h17 : c₁.field tf 17 = c.ip := hbelow 2 (by decide)
    have h18 : c₁.field tf 18 = c.cs.setWidth _ := hbelow 3 (by decide)
    have h19 : c₁.field tf 19 = c.flags := hbelow 4 (by decide)
    refine (saveContext32_field tf c₁ i).trans ?_
    simp only [h17, h19, hrest.2.1, hrest.2.2]
    simp only [hfield] at h18 ⊢
    simp only [h18]
  · exact hmem.trans ((saveContext32_onlyIn tf c₁).mono (by omega) (by omega))
  · have hirq : (saveContext32 tf c₁).field tf 15 = irqOf t.vector :=
      (saveContext32_field tf c₁ 15).trans (hbelow 0 (by decide))
    have herr : (saveContext32 tf c₁).field tf 16 = t.errcode.getD 0 :=
      (saveContext32_field tf c₁ 16).trans (hbelow 1 (by decide))
    rw [hirq, herr, hcr2, hrest.1]
  · rw [hreg, hspreg, hsp]

end MyOs.Cte
