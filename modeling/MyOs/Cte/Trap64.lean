import MyOs.Cte.Stack

/-!
# Interrupts on x86_64

`trap64.S` with the 64-bit side of `__am_irq_handle`. Whatever the interrupted code had in
its registers is found in the context that the handler gets, and whatever stands in the
context that the handler returns is in the registers afterwards.

* `enter64_spec` — **saving**: the context is that of the interrupted code.
* `leave64_spec` — **restoring**: the processor is in the state that the context describes.
-/

namespace MyOs.Cte

open MyOs.Memory MyOs.Words MyOs.Buffer

-- ---------------------------------------------------------------------------
-- The source
-- ---------------------------------------------------------------------------

/-- `struct Context` of `x86_64-qemu.h`. -/
structure Context64 where
  cr3 : Word 8
  rax : Word 8
  rbx : Word 8
  rcx : Word 8
  rdx : Word 8
  rbp : Word 8
  rsi : Word 8
  rdi : Word 8
  r8 : Word 8
  r9 : Word 8
  r10 : Word 8
  r11 : Word 8
  r12 : Word 8
  r13 : Word 8
  r14 : Word 8
  r15 : Word 8
  rip : Word 8
  cs : Word 8
  rflags : Word 8
  rsp : Word 8
  ss : Word 8
  rsp0 : Word 8
deriving DecidableEq

/-- A context from its words. -/
def Context64.ofWords (f : Nat → Word 8) : Context64 :=
  ⟨f 0, f 1, f 2, f 3, f 4, f 5, f 6, f 7, f 8, f 9, f 10, f 11, f 12, f 13, f 14, f 15, f 16,
    f 17, f 18, f 19, f 20, f 21⟩

/-- The context that starts at an address. -/
def contextAt64 (m : Mem) (a : Nat) : Context64 := Context64.ofWords (words 8 m a)

/-- The pushes of `trap`, from `%r15` to `%rax`. -/
def pushes64 : List Reg :=
  [.r15, .r14, .r13, .r12, .r11, .r10, .r9, .r8, .di, .si, .bp, .dx, .cx, .bx, .ax]

/-- `trap`. The call returns to `__am_iret`. -/
def trap64 (amIret : Word 8) : List (Instr 8) :=
  [.cli, .sub 48 .sp] ++ pushes64.map .push ++ [.pushImm 0, .mov .sp .di, .pushImm amIret]

/-- What the processor does: the old stack and place are pushed on the stack of ring 0. In 64-bit
mode that stack is aligned first. -/
def deliver64 (err : Option (Word 8)) (c : Cpu 8) : Cpu 8 :=
  let sp := if c.user then c.sp0 else c.reg .sp
  let frame := [(c.seg .ss).setWidth _, c.reg .sp, c.flags, c.cs.setWidth _, c.ip] ++ err.toList
  let c' := (c.setReg .sp (BitVec.ofNat _ (sp.toNat / 16 * 16))).pushAll frame
  { (if c.user then c'.setSeg .ss 0 else c') with cs := BitVec.ofNat _ (ksel segKcode) }

/-- `iretq`. -/
def iretq (c : Cpu 8) : Cpu 8 :=
  let f := words 8 c.mem (c.reg .sp).toNat
  { (c.setReg .sp (f 3)).setSeg .ss ((f 4).setWidth 16) with
    ip := f 0, cs := (f 1).setWidth 16, flags := f 2 }

/-- `__am_iret`, up to `iretq`. -/
def amIret64 : List (Instr 8) :=
  [.mov .di .sp, .load 160 .sp .ax, .movTo .ax .ds, .movTo .ax .es, .add 8 .sp] ++
    pushes64.reverse.map .pop

/-- The assignments to `saved_ctx` in `__am_irq_handle`. -/
def saveContext64 (tf : Word 8) (c : Cpu 8) : Cpu 8 :=
  let c := c.setField tf 16 (c.field tf 24)
  let c := c.setField tf 17 (c.field tf 25)
  let c := c.setField tf 18 (c.field tf 26)
  let c := c.setField tf 19 (c.field tf 27)
  let c := c.setField tf 21 c.sp0
  let c := c.setField tf 20 (c.field tf 28)
  c.setField tf 0 c.cr3

/-- The end of `__am_irq_handle`, for the context that the handler returned. -/
def leave64 (ret : Word 8) (c : Cpu 8) : Except String (Cpu 8) :=
  if ret = 0 then .error "returning to NULL context"
  else
    let c := if c.field ret 0 ≠ 0 then { c with cr3 := c.field ret 0, sp0 := c.field ret 21 } else c
    .ok (iretq (exec amIret64 (c.setReg .di ret)))

/-- The state in which the handler is called. -/
def enter64 (amIret : Word 8) (t : Trap 8) (c : Cpu 8) : Cpu 8 :=
  let c := exec (entryOf t.vector ++ trap64 amIret) (deliver64 t.errcode c)
  saveContext64 (c.reg .di) c

/-- `__am_irq_handle`: an interrupt from the first push to `iretq`. -/
def interrupt64 (amIret : Word 8) (handler : Handler 8) (t : Trap 8) (c : Cpu 8) :
    Except String (Cpu 8) :=
  let c := enter64 amIret t c
  let tf := c.reg .di
  let (ret, c) := handler (eventOf (c.field tf 22) (c.field tf 23) c.cr2) tf c
  leave64 ret c

-- ---------------------------------------------------------------------------
-- Saving
-- ---------------------------------------------------------------------------

/-- What a thread sees of the processor, as a context. -/
def contextOf64 (c : Cpu 8) : Context64 :=
  ⟨c.cr3, c.reg .ax, c.reg .bx, c.reg .cx, c.reg .dx, c.reg .bp, c.reg .si, c.reg .di, c.reg .r8,
    c.reg .r9, c.reg .r10, c.reg .r11, c.reg .r12, c.reg .r13, c.reg .r14, c.reg .r15, c.ip,
    c.cs.setWidth _, c.flags, c.reg .sp, (c.seg .ss).setWidth _, c.sp0⟩

/-- The top of the stack on which an interrupt is taken. -/
def top64 (c : Cpu 8) : Nat := (if c.user then c.sp0 else c.reg .sp).toNat / 16 * 16

variable {amIret : Word 8} {t : Trap 8} {c : Cpu 8}

/-- Where the frame of an interrupt starts. -/
def frame64 (c : Cpu 8) : Nat := top64 c - 232

theorem deliver64_eq (err : Option (Word 8)) : deliver64 err c
    = ((c.setReg .sp (BitVec.ofNat _ (top64 c))).pushAll ([(c.seg .ss).setWidth _, c.reg .sp,
        c.flags, c.cs.setWidth _, c.ip] ++ err.toList)).withSys c.flags
          (BitVec.ofNat _ (ksel segKcode))
            (if c.user then Function.update c.seg .ss 0 else c.seg) := by
  refine (withSys_ite c.user _ 0).trans ?_
  rw [pushAll_seg, pushAll_flags]
  rfl

/-- **The stack** when `__am_irq_handle` is called. -/
theorem exec_trap64 (hroom : 240 ≤ top64 c) :
    ∃ flags cs seg sp tf m, exec (entryOf t.vector ++ trap64 amIret) (deliver64 t.errcode c)
        = (((c.setReg .di tf).setReg .sp sp).withSys flags cs seg).withMem m ∧
      tf.toNat = frame64 c ∧ OnlyIn c.mem m (top64 c - 240) (top64 c) ∧
      ∀ i, words 8 m (frame64 c) i = write (write (words 8 c.mem (frame64 c)) 22 [irqOf t.vector,
        t.errcode.getD 0, c.ip, c.cs.setWidth _, c.flags, c.reg .sp, (c.seg .ss).setWidth _]) 0
          (0 :: pushes64.reverse.map c.reg) i := by
  have hlt : top64 c < 2 ^ (8 * 8) := by
    have hsp := (if c.user then c.sp0 else c.reg .sp).isLt
    unfold top64
    omega
  have hframe : frame64 c = top64 c - 232 := rfl
  obtain ⟨flags, hentry⟩ := exec_entryOf (c := c.setReg .sp (BitVec.ofNat _ (top64 c))) t
    (BitVec.ofNat _ (ksel segKcode)) (if c.user then Function.update c.seg .ss 0 else c.seg)
    [(c.seg .ss).setWidth _, c.reg .sp, c.flags, c.cs.setWidth _, c.ip]
  -- five words of the processor and two of the entry point
  obtain ⟨sp₁, m₁, hpush₁, hsp₁, hwords₁, honly₁⟩ := pushAll_spec (a := frame64 c) (k := 22)
    (c := c.setReg .sp (BitVec.ofNat _ (top64 c)))
    (s := [(c.seg .ss).setWidth _, c.reg .sp, c.flags, c.cs.setWidth _, c.ip] ++
      [t.errcode.getD 0, irqOf t.vector])
    (by
      rw [Cpu.setReg_reg, Function.update_self, toNat_ofNat_of_lt hlt]
      show top64 c = frame64 c + 8 * (22 + 7)
      omega)
  rw [hpush₁, Cpu.setReg_setReg, Cpu.withSys_withMem] at hentry
  -- the registers and a zero for `cr3`
  obtain ⟨c₂, hc₂⟩ : ∃ c₂, c₂ = ((c.setReg .sp (sp₁ - BitVec.ofNat _ 48)).withSys
      (flags &&& ~~~BitVec.ofNat _ flIf) (BitVec.ofNat _ (ksel segKcode))
      (if c.user then Function.update c.seg .ss 0 else c.seg)).withMem m₁ := ⟨_, rfl⟩
  have hstub : exec [.cli, .sub 48 .sp] (exec (entryOf t.vector) (deliver64 t.errcode c)) = c₂ := by
    rw [deliver64_eq, hc₂]
    refine (congrArg (exec [.cli, .sub 48 .sp]) hentry).trans ?_
    rw [← Cpu.setReg_withSys, ← Cpu.setReg_withMem, exec_reserve]
    rfl
  have hpushes : exec (pushes64.map .push ++ [.pushImm 0]) c₂
      = c₂.pushAll (pushes64.map c.reg ++ [0]) := by
    rw [exec_append, exec_pushes (by decide), Cpu.pushAll_append, hc₂]
    rfl
  obtain ⟨sp₃, m₃, hpush₃, hsp₃, hwords₃, honly₃⟩ := pushAll_spec (a := frame64 c) (k := 0)
    (c := c₂) (s := pushes64.map c.reg ++ [0]) (by
      rw [hc₂, Cpu.withMem_reg, Cpu.withSys_reg, Cpu.setReg_reg, Function.update_self,
        toNat_sub_ofNat (by omega)]
      show sp₁.toNat - 48 = frame64 c + 8 * (0 + 16)
      omega)
  have hcall : exec [.mov .sp .di, .pushImm amIret] (c₂.pushAll (pushes64.map c.reg ++ [0]))
      = (((c.setReg .di sp₃).setReg .sp (sp₃ - BitVec.ofNat _ 8)).withSys
          (flags &&& ~~~BitVec.ofNat _ flIf) (BitVec.ofNat _ (ksel segKcode))
          (if c.user then Function.update c.seg .ss 0 else c.seg)).withMem
            (store m₃ (sp₃ - BitVec.ofNat _ 8).toNat 8 amIret.toNat) := by
    have hcomm : (c.setReg .sp (sp₁ - BitVec.ofNat _ 48)).setReg .di sp₃
        = (c.setReg .di sp₃).setReg .sp (sp₁ - BitVec.ofNat _ 48) := Cpu.setReg_comm (by decide)
    rw [hpush₃, exec_call, hc₂]
    simp only [Cpu.setReg_withMem, Cpu.setReg_withSys, Cpu.withMem_withMem]
    rw [hcomm, Cpu.setReg_setReg]
  have hsp₄ : (sp₃ - BitVec.ofNat _ 8).toNat = top64 c - 240 := by
    rw [toNat_sub_ofNat (by omega)]
    omega
  have honly₄ : OnlyIn m₃ (store m₃ (top64 c - 240) 8 amIret.toNat) (top64 c - 240) (frame64 c) :=
    onlyIn_store.mono (Nat.le_refl _) (by omega)
  rw [hc₂] at honly₃ hwords₃
  rw [Nat.mul_zero, Nat.add_zero] at hsp₃ honly₃
  have hexec : exec (entryOf t.vector ++ trap64 amIret) (deliver64 t.errcode c)
      = exec [.mov .sp .di, .pushImm amIret] (exec (pushes64.map .push ++ [.pushImm 0])
          (exec [.cli, .sub 48 .sp] (exec (entryOf t.vector) (deliver64 t.errcode c)))) := by
    have hsplit : trap64 amIret = [.cli, .sub 48 .sp] ++
        ((pushes64.map .push ++ [.pushImm 0]) ++ [.mov .sp .di, .pushImm amIret]) := rfl
    rw [exec_append, hsplit, exec_append, exec_append]
  rw [hstub, hpushes, hcall, hsp₄] at hexec
  refine ⟨_, _, _, _, sp₃, _, hexec, hsp₃, ?_, fun i => ?_⟩
  · exact ((honly₁.mono (by omega) (by show frame64 c + 8 * (22 + 7) ≤ _; omega)).trans
      (honly₃.mono (by omega) (by show frame64 c + 8 * (0 + 16) ≤ _; omega))).trans
        (honly₄.mono (Nat.le_refl _) (by omega))
  · rw [words_same (honly₄.same (b := frame64 c + 8 * (i + 1)) (.inr (Nat.le_refl _)))
      (Nat.lt_succ_self i), hwords₃]
    refine congrFun ?_ i
    rw [List.reverse_append, ← List.map_reverse]
    exact congrArg (write · 0 _) hwords₁

/-- The context and the rest of the frame behind it. -/
theorem saveContext64_field (tf : Word 8) (c : Cpu 8) (i : Nat) :
    (saveContext64 tf c).field tf i
      = if i = 0 then c.cr3 else if i = 20 then c.field tf 28 else if i = 21 then c.sp0
        else if i = 19 then c.field tf 27 else if i = 18 then c.field tf 26
        else if i = 17 then c.field tf 25 else if i = 16 then c.field tf 24 else c.field tf i := by
  simp only [saveContext64, Cpu.field_setField, Cpu.setField_cr3, Cpu.setField_sp0,
    Nat.reduceEqDiff, ↓reduceIte]

theorem saveContext64_onlyIn (tf : Word 8) (c : Cpu 8) :
    OnlyIn c.mem (saveContext64 tf c).mem tf.toNat (tf.toNat + 176) := by
  have hstep := fun (c : Cpu 8) (i : Nat) (hi : i < 22) (v : Word 8) => c.onlyIn_setField tf v hi
  exact ((((((hstep _ 16 (by decide) _).trans (hstep _ 17 (by decide) _)).trans
    (hstep _ 18 (by decide) _)).trans (hstep _ 19 (by decide) _)).trans
      (hstep _ 21 (by decide) _)).trans (hstep _ 20 (by decide) _)).trans (hstep _ 0 (by decide) _)

/-- Only memory is written to. -/
theorem saveContext64_rest (tf : Word 8) (c : Cpu 8) :
    (saveContext64 tf c).reg = c.reg ∧ (saveContext64 tf c).cr2 = c.cr2 ∧
      (saveContext64 tf c).cr3 = c.cr3 ∧ (saveContext64 tf c).sp0 = c.sp0 := by
  simp only [saveContext64, Cpu.setField_reg, Cpu.setField_cr2, Cpu.setField_cr3,
    Cpu.setField_sp0, and_self]

/-- The frame, by position, with the fields that `__am_irq_handle` fills in. -/
theorem contextOf64_eq (c : Cpu 8) (f : Nat → Word 8) (irq err : Word 8) :
    (Context64.ofWords fun i =>
      let g := write (write f 22 [irq, err, c.ip, c.cs.setWidth _, c.flags, c.reg .sp,
        (c.seg .ss).setWidth _]) 0 (0 :: pushes64.reverse.map c.reg)
      if i = 0 then c.cr3 else if i = 20 then g 28 else if i = 21 then c.sp0
        else if i = 19 then g 27 else if i = 18 then g 26 else if i = 17 then g 25
        else if i = 16 then g 24 else g i) = contextOf64 c := by
  rfl

/-- **Saving.** The context that the handler gets is that of the interrupted code, and nothing but
the stack is written to. -/
theorem enter64_spec (amIret : Word 8) (t : Trap 8) (hroom : 240 ≤ top64 c) :
    ((enter64 amIret t c).reg .di).toNat = frame64 c ∧
      contextAt64 (enter64 amIret t c).mem (frame64 c) = contextOf64 c ∧
      OnlyIn c.mem (enter64 amIret t c).mem (top64 c - 240) (top64 c) ∧
      eventOf ((enter64 amIret t c).field ((enter64 amIret t c).reg .di) 22)
        ((enter64 amIret t c).field ((enter64 amIret t c).reg .di) 23) (enter64 amIret t c).cr2
          = eventOf (irqOf t.vector) (t.errcode.getD 0) c.cr2 ∧
      (enter64 amIret t c).cr3 = c.cr3 ∧ (enter64 amIret t c).sp0 = c.sp0 := by
  obtain ⟨flags, cs, seg, sp, tf, m, hexec, htf, honly, hwords⟩ :=
    @exec_trap64 amIret t c hroom
  have hdi : (exec (entryOf t.vector ++ trap64 amIret) (deliver64 t.errcode c)).reg .di = tf := by
    rw [hexec]
    rfl
  have henter : enter64 amIret t c = saveContext64 tf
      ((((c.setReg .di tf).setReg .sp sp).withSys flags cs seg).withMem m) := by
    rw [enter64, hdi, hexec]
  have hsize : frame64 c + 176 ≤ top64 c := by
    unfold frame64
    omega
  rw [henter]
  generalize hc₁ : (((c.setReg .di tf).setReg .sp sp).withSys flags cs seg).withMem m = c₁
  have hfield : ∀ i, c₁.field tf i = write (write (words 8 c.mem (frame64 c)) 22 [irqOf t.vector,
      t.errcode.getD 0, c.ip, c.cs.setWidth _, c.flags, c.reg .sp, (c.seg .ss).setWidth _]) 0
        (0 :: pushes64.reverse.map c.reg) i := by
    intro i
    rw [← hwords, ← hc₁, ← htf]
    rfl
  have hmem : OnlyIn c.mem c₁.mem (top64 c - 240) (top64 c) := by
    rw [← hc₁]
    exact honly
  have hrest : c₁.cr2 = c.cr2 ∧ c₁.cr3 = c.cr3 ∧ c₁.sp0 = c.sp0 := by
    rw [← hc₁]
    exact ⟨rfl, rfl, rfl⟩
  obtain ⟨hreg, hcr2, hcr3, hsp0⟩ := saveContext64_rest tf c₁
  have hreg : (saveContext64 tf c₁).reg .di = tf := by
    rw [hreg, ← hc₁]
    rfl
  refine ⟨?_, ?_, ?_, ?_, hcr3.trans hrest.2.1, hsp0.trans hrest.2.2⟩
  · rw [hreg, htf]
  · rw [← htf]
    refine (congrArg Context64.ofWords (funext fun i => ?_) : contextAt64 _ _ = _).trans
      (contextOf64_eq c (words 8 c.mem (frame64 c)) (irqOf t.vector) (t.errcode.getD 0))
    exact (saveContext64_field tf c₁ i).trans (by simp only [hfield, hrest.2.1, hrest.2.2])
  · exact hmem.trans ((saveContext64_onlyIn tf c₁).mono (by unfold frame64 at htf; omega)
      (by omega))
  · have hirq : (saveContext64 tf c₁).field tf 22 = irqOf t.vector :=
      (saveContext64_field tf c₁ 22).trans (hfield 22)
    have herr : (saveContext64 tf c₁).field tf 23 = t.errcode.getD 0 :=
      (saveContext64_field tf c₁ 23).trans (hfield 23)
    rw [hreg, hirq, herr, hcr2, hrest.1]

-- ---------------------------------------------------------------------------
-- Restoring
-- ---------------------------------------------------------------------------

/-- The part of a context that the processor takes over. Selectors have 16 bits, and without a page
table the context keeps the current one. -/
def Context64.restored (x : Context64) (c : Cpu 8) : Context64 :=
  { x with
    cr3 := if x.cr3 = 0 then c.cr3 else x.cr3
    rsp0 := if x.cr3 = 0 then c.sp0 else x.rsp0
    cs := (x.cs.setWidth 16).setWidth _
    ss := (x.ss.setWidth 16).setWidth _ }

/-- `__am_iret` up to the first pop. -/
theorem exec_amIret64 (ret : Word 8) (c : Cpu 8) (hfits : ret.toNat + 176 ≤ 2 ^ 64) :
    ∃ reg seg, exec (amIret64.take 5) (c.setReg .di ret) = { c with reg := reg, seg := seg } ∧
      (reg .sp).toNat = ret.toNat + 8 * 1 ∧
      seg .ds = (words 8 c.mem ret.toNat 20).setWidth 16 ∧ seg .es = seg .ds := by
  have hsp : (exec (amIret64.take 5) (c.setReg .di ret)).reg .sp = ret + BitVec.ofNat _ 8 := rfl
  have hds : (exec (amIret64.take 5) (c.setReg .di ret)).seg .ds
      = (words 8 c.mem (ret + BitVec.ofNat _ 160).toNat 0).setWidth 16 := rfl
  have hss : (ret + BitVec.ofNat _ 160).toNat = ret.toNat + 8 * 20 :=
    (toNat_add_ofNat (by omega)).trans (by omega)
  refine ⟨(exec (amIret64.take 5) (c.setReg .di ret)).reg,
    (exec (amIret64.take 5) (c.setReg .di ret)).seg, rfl, ?_, ?_, rfl⟩
  · rw [hsp, toNat_add_ofNat (by omega)]
  · rw [hds, hss, words_add]

/-- The state behind `iretq`, as a context. -/
theorem contextOf64_iretq (d : Cpu 8) (reg : Reg → Word 8) (seg : Seg → BitVec 16)
    (ws : Nat → Word 8) (sp : Word 8) :
    contextOf64 (iretq ((Cpu.withRegs { d with seg := seg }
      (popRegs reg ws 1 pushes64.reverse)).setReg .sp sp))
      = let f := words 8 d.mem sp.toNat
        ⟨d.cr3, ws 1, ws 2, ws 3, ws 4, ws 5, ws 6, ws 7, ws 8, ws 9, ws 10, ws 11, ws 12, ws 13,
          ws 14, ws 15, f 0, ((f 1).setWidth 16).setWidth _, f 2, f 3,
          ((f 4).setWidth 16).setWidth _, d.sp0⟩ := rfl

/-- **Restoring.** The processor is in the state that the context describes, and memory is as the
handler left it. -/
theorem leave64_spec {ret : Word 8} (hret : ret ≠ 0) (hfits : ret.toNat + 176 ≤ 2 ^ 64)
    (c : Cpu 8) :
    ∃ c', leave64 ret c = .ok c' ∧ c'.mem = c.mem ∧
      contextOf64 c' = (contextAt64 c.mem ret.toNat).restored c ∧
      c'.seg .ds = c'.seg .ss ∧ c'.seg .es = c'.seg .ss := by
  obtain ⟨d, hd⟩ : ∃ d, d = if c.field ret 0 ≠ 0
      then { c with cr3 := c.field ret 0, sp0 := c.field ret 21 } else c := ⟨_, rfl⟩
  have hleave : leave64 ret c = .ok (iretq (exec amIret64 (d.setReg .di ret))) := by
    rw [leave64, if_neg hret, hd]
  have hmem : d.mem = c.mem := by
    rw [hd]
    split <;> rfl
  have hcr3 : d.cr3 = if c.field ret 0 = 0 then c.cr3 else c.field ret 0 := by
    rw [hd, ite_not]
    split <;> rfl
  have hsp0 : d.sp0 = if c.field ret 0 = 0 then c.sp0 else c.field ret 21 := by
    rw [hd, ite_not]
    split <;> rfl
  obtain ⟨reg, seg, hexec, hsp, hds, hes⟩ := exec_amIret64 ret d hfits
  obtain ⟨sp, hpops, hend⟩ := exec_pops (c := { d with reg := reg, seg := seg }) (k := 1)
    (p := pushes64.reverse) (by decide) hsp (by
      show ret.toNat + 8 * (1 + 15) < 2 ^ (8 * 8)
      omega)
  have hiret : exec amIret64 (d.setReg .di ret) = (Cpu.withRegs { d with seg := seg }
      (popRegs reg (words 8 d.mem ret.toNat) 1 pushes64.reverse)).setReg .sp sp := by
    rw [← List.take_append_drop 5 amIret64, exec_append, hexec]
    exact hpops
  have hwords : ∀ i, words 8 c.mem sp.toNat i = words 8 c.mem ret.toNat (16 + i) := by
    intro i
    rw [hend]
    exact words_add
  rw [hleave, hiret]
  refine ⟨_, rfl, hmem, ?_, ?_, ?_⟩
  · rw [contextOf64_iretq, hmem, hcr3, hsp0]
    simp only [hwords, Nat.reduceAdd]
    rfl
  · change seg .ds = (words 8 d.mem sp.toNat 4).setWidth 16
    rw [hds, hmem, hwords]
  · change seg .es = (words 8 d.mem sp.toNat 4).setWidth 16
    rw [hes, hds, hmem, hwords]

end MyOs.Cte
