import MyOs.Cte.Trap32

/-!
# The way back on x86

`__am_iret` of `trap32.S`. To the user, the context is popped where it lies. To the kernel,
`iret` does not pop the stack pointer, so the end of the context is first copied below the new
one, mostly upwards within the very frame that is read.

* `exec_kernelIret` — the copy is complete although it overwrites what it reads.
* `leave32_spec` — **restoring**: the processor is in the state that the context describes.
-/

namespace MyOs.Cte

open MyOs.Memory MyOs.Words MyOs.Buffer

variable {c : Cpu 4}

-- ---------------------------------------------------------------------------
-- Restoring
-- ---------------------------------------------------------------------------

/-- The copy in `.kernel_iret`, the word at the highest address first. -/
def copyWords : Nat → List (Instr 4)
  | 0 => []
  | n + 1 => [.load (4 * n) .bp .si, .store .si (24 - 4 * n) .di] ++ copyWords n

/-- **The copy** below the new stack pointer. -/
theorem exec_copyWords {a b n : Nat} (hn : n ≤ 6) (hbp : (c.reg .bp).toNat = a)
    (hdi : (c.reg .di).toNat = b + 24) (hfits : a + 24 < 2 ^ 32) :
    ∃ si, exec (copyWords n) c = (c.setReg .si si).withMem (copyDown 4 a b n c.mem) := by
  induction n generalizing c with
  | zero => exact ⟨c.reg .si, (congrArg (Cpu.withMem · c.mem) (c.setReg_self .si)).symm⟩
  | succ n ih =>
    have hload : (c.reg .bp + BitVec.ofNat _ (4 * n)).toNat = a + 4 * n := by
      rw [toNat_add_ofNat (by omega), hbp]
    have hstore : (c.reg .di - BitVec.ofNat _ (24 - 4 * n)).toNat = b + 4 * n := by
      rw [toNat_sub_ofNat (by omega)]
      omega
    have hval : c.at_ (c.reg .bp + BitVec.ofNat _ (4 * n)) = words 4 c.mem a n := by
      rw [Cpu.at_, hload, words_add, Nat.add_zero]
    have hstep : exec [.load (4 * n) .bp .si, .store .si (24 - 4 * n) .di] c
        = (c.setReg .si (words 4 c.mem a n)).withMem
            (store c.mem (b + 4 * n) 4 (words 4 c.mem a n).toNat) := by
      rw [← hval, ← hstore]
      rfl
    rw [copyWords, exec_append, hstep]
    obtain ⟨si, hsi⟩ := @ih ((c.setReg .si (words 4 c.mem a n)).withMem
      (store c.mem (b + 4 * n) 4 (words 4 c.mem a n).toNat)) (by omega) hbp hdi
    refine ⟨si, hsi.trans ?_⟩
    rw [Cpu.setReg_withMem, Cpu.setReg_setReg, Cpu.withMem_withMem]
    rfl

/-- The part of a context that the processor takes over. -/
def Context32.restored (x : Context32) (c : Cpu 4) : Context32 :=
  { x with
    cr3 := if x.cr3 = 0 then c.cr3 else x.cr3
    esp0 := if x.cr3 = 0 then c.sp0 else x.esp0
    ds := low16 x.eax (x.ds.setWidth 16)
    cs := (x.cs.setWidth 16).setWidth _
    ss3 := BitVec.ofNat _ (usel segUdata) }

/-- When a context at an address is restored as it is: it is the user's, or it is the kernel's and
its last words are not overwritten before they are read. -/
def Context32.Safe (x : Context32) (a : Nat) : Prop :=
  (x.cs.setWidth 16 = BitVec.ofNat 16 (ksel segKcode) ∧ 24 ≤ x.esp.toNat ∧
    (a + 52 ≤ x.esp.toNat ∨ x.esp.toNat ≤ a + 28)) ∨ (x.cs.setWidth 16).toNat % 4 = 3

/-- A word is skipped and the next one popped. -/
theorem exec_addPop (c : Cpu 4) (sp : Word 4) (m : Mem) :
    exec [.add 4 .sp, .pop .ax] ((c.setReg .sp sp).withMem m)
      = ((c.setReg .ax (words 4 m (sp + BitVec.ofNat _ 4).toNat 0)).setReg .sp
          (sp + BitVec.ofNat _ 4 + BitVec.ofNat _ 4)).withMem m := by
  change ((((c.setReg .sp sp).setReg .sp (sp + BitVec.ofNat _ 4)).setReg .sp
    (sp + BitVec.ofNat _ 4 + BitVec.ofNat _ 4)).setReg .ax _).withMem m = _
  have hne : Reg.sp ≠ Reg.ax := by decide
  rw [Cpu.setReg_setReg, Cpu.setReg_setReg, Cpu.setReg_comm hne]
  rfl

/-- `__am_iret` up to the comparison. -/
theorem exec_amIret32 {a : Nat} (back ret : Word 4) (c : Cpu 4) (ha : ret.toNat = a)
    (hfits : a + 60 ≤ 2 ^ 32) (hsp : 8 ≤ (c.reg .sp).toNat)
    (hapart : a + 60 ≤ (c.reg .sp).toNat - 8 ∨ (c.reg .sp).toNat ≤ a) :
    ∃ ax sp seg m, exec amIret32 ((c.push ret).push back)
        = (((c.setReg .ax ax).setReg .sp sp).withSys c.flags c.cs seg).withMem m ∧
      sp.toNat = a + 4 * 2 ∧
      OnlyIn c.mem m ((c.reg .sp).toNat - 8) (c.reg .sp).toNat ∧
      (∀ i < 15, words 4 m a i = words 4 c.mem a i) ∧
      seg .ds = (words 4 c.mem a 1).setWidth 16 ∧ seg .es = seg .ds ∧ seg .ss = c.seg .ss := by
  obtain ⟨s, hs⟩ : ∃ s, (c.reg .sp).toNat = s + 8 := ⟨(c.reg .sp).toNat - 8, by omega⟩
  have hlt := (c.reg .sp).isLt
  obtain ⟨sp₁, m₁, hpush₁, hsp₁, hwords₁, honly₁⟩ := push_spec (a := s) (k := 1) (v := ret) (c := c)
    hs
  obtain ⟨sp₂, m₂, hpush₂, hsp₂, hwords₂, honly₂⟩ := push_spec (a := s) (k := 0) (v := back)
    (c := c.push ret) (by rw [hpush₁, Cpu.withMem_reg, Cpu.setReg_reg, Function.update_self, hsp₁])
  rw [hpush₁, Cpu.withMem_mem] at honly₂
  have he : (c.push ret).push back = (c.setReg .sp sp₂).withMem m₂ := by
    rw [hpush₂, hpush₁, Cpu.setReg_withMem, Cpu.setReg_setReg, Cpu.withMem_withMem]
  have honly : OnlyIn c.mem m₂ s (s + 8) :=
    (honly₁.mono (by omega) (by omega)).trans (honly₂.mono (by omega) (by omega))
  have hwords : ∀ i < 15, words 4 m₂ a i = words 4 c.mem a i := fun i hi =>
    words_same (n := 15) (honly.same (by omega)) hi
  -- the argument, and the context behind it
  have harg : words 4 m₂ (sp₂ + BitVec.ofNat _ 4).toNat 0 = ret := by
    have hadd : (sp₂ + BitVec.ofNat _ 4).toNat = s + 4 * 1 := by
      rw [toNat_add_ofNat (by omega), hsp₂]
    rw [hadd, words_add, hwords₂, hpush₁, Cpu.withMem_mem, hwords₁]
    rfl
  have hadd₁ : (ret + BitVec.ofNat _ 4).toNat = a + 4 * 1 := by
    rw [toNat_add_ofNat (by omega), ha]
  have hadd₂ : (ret + BitVec.ofNat _ 4 + BitVec.ofNat _ 4).toNat = a + 4 * 2 := by
    rw [toNat_add_ofNat (by omega), hadd₁]
  have hmov : ∀ s, exec [.mov .ax .sp] (((c.setReg .ax ret).setReg .sp s).withMem m₂)
      = ((c.setReg .ax ret).setReg .sp ret).withMem m₂ := fun s =>
    congrArg (Cpu.withMem · m₂) Cpu.setReg_setReg
  have hsplit : amIret32 = [.add 4 .sp, .pop .ax] ++ ([.mov .ax .sp] ++
      ([.add 4 .sp, .pop .ax] ++ [.movTo .ax .ds, .movTo .ax .es])) := rfl
  have hexec : exec amIret32 ((c.push ret).push back) = exec [.movTo .ax .ds, .movTo .ax .es]
      (((c.setReg .ax (words 4 m₂ (ret + BitVec.ofNat _ 4).toNat 0)).setReg .sp
        (ret + BitVec.ofNat _ 4 + BitVec.ofNat _ 4)).withMem m₂) := by
    rw [he, hsplit, exec_append, exec_addPop, harg, exec_append, hmov, exec_append, exec_addPop,
      Cpu.setReg_setReg]
  refine ⟨_, _, _, m₂, hexec, hadd₂, ?_, hwords, ?_, rfl, rfl⟩
  · rw [hs]
    exact honly
  · rw [← hwords 1 (by decide), ← Nat.add_zero 1, ← words_add, ← hadd₁]
    rfl

/-- The first pops of both ways back, and the field `esp0` behind them. -/
theorem exec_popFour {a : Nat} (hsp : (c.reg .sp).toNat = a + 4 * 2) (hfits : a + 60 ≤ 2 ^ 32) :
    ∃ sp, exec ([.ax, .bx, .cx, .dx].map .pop ++ [.add 4 .sp]) c
        = (c.withRegs (popRegs c.reg (words 4 c.mem a) 2 [.ax, .bx, .cx, .dx])).setReg .sp sp ∧
      sp.toNat = a + 4 * 7 := by
  obtain ⟨sp, hpops, hend⟩ := exec_pops (p := [.ax, .bx, .cx, .dx]) (by decide) hsp (by
    show a + 4 * (2 + 4) < 2 ^ (8 * 4)
    omega)
  have hsix : sp.toNat = a + 4 * 6 := hend
  have hadd : (sp + BitVec.ofNat _ 4).toNat = a + 4 * 7 := by
    rw [toNat_add_ofNat (by omega), hsix]
  refine ⟨sp + BitVec.ofNat _ 4, ?_, hadd⟩
  rw [exec_append, hpops]
  exact Cpu.setReg_setReg

theorem exec_userIret {a : Nat} (hsp : (c.reg .sp).toNat = a + 4 * 2) (hfits : a + 60 ≤ 2 ^ 32) :
    ∃ sp, exec userIret c
        = (c.withRegs (popRegs (popRegs c.reg (words 4 c.mem a) 2 [.ax, .bx, .cx, .dx])
            (words 4 c.mem a) 7 [.si, .di, .bp])).setReg .sp sp ∧
      sp.toNat = a + 4 * 10 := by
  obtain ⟨sp, hfour, hseven⟩ := exec_popFour hsp hfits
  obtain ⟨sp', hpops, hend⟩ := exec_pops (k := 7) (p := [.si, .di, .bp])
    (c := (c.withRegs (popRegs c.reg (words 4 c.mem a) 2 [.ax, .bx, .cx, .dx])).setReg .sp sp)
    (by decide) (by rw [Cpu.setReg_reg, Function.update_self, hseven]) (by
      show a + 4 * (7 + 3) < 2 ^ (8 * 4)
      omega)
  refine ⟨sp', ?_, hend⟩
  have hsplit : userIret = ([.ax, .bx, .cx, .dx].map .pop ++ [.add 4 .sp]) ++
      [.si, .di, .bp].map .pop := rfl
  rw [hsplit, exec_append, hfour]
  refine hpops.trans ?_
  rw [Cpu.setReg_reg, popRegs_update (by decide)]
  exact congrArg c.withRegs (Function.update_idem ..)

/-- **`.kernel_iret`**, up to `iret`: the rest of the context is popped from its copy. -/
theorem exec_kernelIret {a e : Nat} (hsp : (c.reg .sp).toNat = a + 4 * 2)
    (hfits : a + 60 ≤ 2 ^ 32) (hesp : (words 4 c.mem a 13).toNat = e) (hroom : 24 ≤ e)
    (hapart : a + 52 ≤ e ∨ e ≤ a + 28) :
    ∃ reg m sp, exec kernelIret c = ((c.withRegs
        (popRegs reg (words 4 m (e - 24)) 0 [.si, .di, .bp])).setReg .sp sp).withMem m ∧
      sp.toNat = e - 12 ∧ OnlyIn c.mem m (e - 24) e ∧
      (∀ i < 6, words 4 m (e - 24) i = words 4 c.mem a (7 + i)) ∧
      reg .ax = words 4 c.mem a 2 ∧ reg .bx = words 4 c.mem a 3 ∧ reg .cx = words 4 c.mem a 4 ∧
      reg .dx = words 4 c.mem a 5 := by
  have he : e < 2 ^ (8 * 4) := hesp ▸ (words 4 c.mem a 13).isLt
  obtain ⟨sp, hfour, hseven⟩ := exec_popFour hsp hfits
  obtain ⟨c₁, hc₁⟩ : ∃ c₁, c₁ = exec [.mov .sp .bp, .load 24 .bp .di]
      ((c.withRegs (popRegs c.reg (words 4 c.mem a) 2 [.ax, .bx, .cx, .dx])).setReg .sp sp) :=
    ⟨_, rfl⟩
  have hbp : (c₁.reg .bp).toNat = a + 28 := by
    have hreg : c₁.reg .bp = sp := by
      rw [hc₁]
      rfl
    rw [hreg, hseven]
  have hmem₁ : c₁.mem = c.mem := by
    rw [hc₁]
    rfl
  have hdi : (c₁.reg .di).toNat = (e - 24) + 24 := by
    have hreg : c₁.reg .di = words 4 c.mem (sp + BitVec.ofNat _ 24).toNat 0 := by
      rw [hc₁]
      rfl
    have hadd : (sp + BitVec.ofNat _ 24).toNat = a + 4 * 13 := by
      rw [toNat_add_ofNat (by omega), hseven]
    rw [hreg, hadd, words_add, Nat.add_zero, hesp]
    omega
  obtain ⟨si, hcopy⟩ := exec_copyWords (c := c₁) (n := 6) (Nat.le_refl 6) hbp hdi (by omega)
  have hcopied : ∀ i < 6, words 4 (copyDown 4 (a + 28) (e - 24) 6 c₁.mem) (e - 24) i
      = words 4 c.mem a (7 + i) := by
    intro i hi
    rw [words_copyDown (by omega) hi, hmem₁]
    exact words_add (k := 7)
  generalize hm : copyDown 4 (a + 28) (e - 24) 6 c₁.mem = m at hcopy hcopied
  have honly : OnlyIn c.mem m (e - 24) e := by
    rw [← hm, ← hmem₁]
    exact (copyDown_onlyIn _ _ _ _).mono (Nat.le_refl _) (by omega)
  have hlea : (c₁.reg .di - BitVec.ofNat _ 24).toNat = (e - 24) + 4 * 0 := by
    rw [toNat_sub_ofNat (by omega), hdi]
    omega
  obtain ⟨sp', hpops, hend⟩ := exec_pops (k := 0) (p := [.si, .di, .bp])
    (c := ((c₁.setReg .si si).setReg .sp (c₁.reg .di - BitVec.ofNat _ 24)).withMem m)
    (by decide) (by rw [Cpu.withMem_reg, Cpu.setReg_reg, Function.update_self, hlea]) (by
      show e - 24 + 4 * (0 + 3) < 2 ^ (8 * 4)
      omega)
  have hsplit : kernelIret = ([.ax, .bx, .cx, .dx].map .pop ++ [.add 4 .sp]) ++
      ([.mov .sp .bp, .load 24 .bp .di] ++ (copyWords 6 ++ ([.lea 24 .di .sp] ++
        [.si, .di, .bp].map .pop))) := rfl
  have hexec : exec kernelIret c = exec ([.si, .di, .bp].map .pop)
      (((c₁.setReg .si si).setReg .sp (c₁.reg .di - BitVec.ofNat _ 24)).withMem m) := by
    rw [hsplit, exec_append, hfour, exec_append, ← hc₁, exec_append, hcopy, exec_append]
    rfl
  have hregs : ∀ f, c₁.withRegs f = c.withRegs f := by
    rw [hc₁]
    exact fun _ => rfl
  refine ⟨((c₁.setReg .si si).setReg .sp (c₁.reg .di - BitVec.ofNat _ 24)).reg, m, sp', ?_, ?_,
    honly, hcopied, ?_, ?_, ?_, ?_⟩
  · rw [hexec, hpops, ← hregs]
    rfl
  · rw [hend]
    show e - 24 + 4 * (0 + 3) = e - 12
    omega
  all_goals
    rw [hc₁]
    rfl

/-- The state behind `iret` to the user, as a context. -/
theorem iret32_user (g : Cpu 4) (reg : Reg → Word 4) (ws : Nat → Word 4) (sp : Word 4)
    (huser : ((words 4 g.mem sp.toNat 1).setWidth 16).toNat % 4 = 3) :
    ∃ c, iret32 ((g.withRegs (popRegs (popRegs reg ws 2 [.ax, .bx, .cx, .dx]) ws 7
        [.si, .di, .bp])).setReg .sp sp) = c ∧
      contextOf32 c = ⟨g.cr3, low16 (ws 2) (g.seg .ds), ws 2, ws 3, ws 4, ws 5, g.sp0, ws 7, ws 8,
        ws 9, words 4 g.mem sp.toNat 0, ((words 4 g.mem sp.toNat 1).setWidth 16).setWidth _,
        words 4 g.mem sp.toNat 2, words 4 g.mem sp.toNat 3, BitVec.ofNat _ (usel segUdata)⟩ ∧
      c.user ∧ c.mem = g.mem ∧ c.seg .ds = g.seg .ds ∧ c.seg .es = g.seg .es ∧
      c.seg .ss = (words 4 g.mem sp.toNat 4).setWidth 16 :=
  ⟨_, if_pos huser, rfl, huser, rfl, rfl, rfl, rfl⟩

/-- The state behind `iret` to the kernel, as a context. -/
theorem iret32_kernel (g : Cpu 4) (reg : Reg → Word 4) (ws : Nat → Word 4) (sp : Word 4)
    (m : Mem) (huser : ¬ ((words 4 m sp.toNat 1).setWidth 16).toNat % 4 = 3) :
    ∃ c, iret32 (((g.withRegs (popRegs reg ws 0 [.si, .di, .bp])).setReg .sp sp).withMem m) = c ∧
      contextOf32 c = ⟨g.cr3, low16 (reg .ax) (g.seg .ds), reg .ax, reg .bx, reg .cx, reg .dx,
        g.sp0, ws 0, ws 1, ws 2, words 4 m sp.toNat 0,
        ((words 4 m sp.toNat 1).setWidth 16).setWidth _, words 4 m sp.toNat 2,
        sp + BitVec.ofNat _ 12, BitVec.ofNat _ (usel segUdata)⟩ ∧
      ¬ c.user ∧ c.mem = m ∧ c.seg = g.seg ∧ c.reg .sp = sp + BitVec.ofNat _ 12 :=
  ⟨_, if_neg huser, rfl, huser, rfl, rfl, rfl⟩

/-- **Restoring.** The processor is in the state that the context describes. Memory is written to
below the old stack pointer, and below the new one where this is the kernel's. -/
theorem leave32_spec {back ret : Word 4} {a : Nat} (hret : ret ≠ 0) (ha : ret.toNat = a)
    (hfits : a + 60 ≤ 2 ^ 32) (c : Cpu 4) (hsp : 8 ≤ (c.reg .sp).toNat)
    (hapart : a + 60 ≤ (c.reg .sp).toNat - 8 ∨ (c.reg .sp).toNat ≤ a)
    (hsafe : (contextAt32 c.mem a).Safe a) :
    ∃ c' m, leave32 back ret c = .ok c' ∧
      contextOf32 c' = (contextAt32 c.mem a).restored c ∧ c'.seg .es = c'.seg .ds ∧
      c'.seg .ss = (if c'.user then (contextAt32 c.mem a).ss3.setWidth 16 else c.seg .ss) ∧
      OnlyIn c.mem m ((c.reg .sp).toNat - 8) (c.reg .sp).toNat ∧
      if c'.user then c'.mem = m
      else OnlyIn m c'.mem ((c'.reg .sp).toNat - 24) (c'.reg .sp).toNat := by
  obtain ⟨d, hd⟩ : ∃ d, d = if c.field ret 0 ≠ 0
      then { c with
        cr3 := c.field ret 0, ss0 := BitVec.ofNat _ (ksel segKdata), sp0 := c.field ret 6 }
      else c := ⟨_, rfl⟩
  have hleave : leave32 back ret c = .ok (callIret32 back ret d) := by
    rw [leave32, if_neg hret, hd]
  have hmem : d.mem = c.mem ∧ d.reg = c.reg ∧ d.seg = c.seg := by
    rw [hd]
    split <;> exact ⟨rfl, rfl, rfl⟩
  have hcr3 : d.cr3 = if c.field ret 0 = 0 then c.cr3 else c.field ret 0 := by
    rw [hd, ite_not]
    split <;> rfl
  have hsp0 : d.sp0 = if c.field ret 0 = 0 then c.sp0 else c.field ret 6 := by
    rw [hd, ite_not]
    split <;> rfl
  obtain ⟨ax, spr, seg, m, hexec, hsp', honly, hwords, hds, hes, hss⟩ := exec_amIret32 back ret d ha
    hfits (by rw [hmem.2.1]; exact hsp) (by rw [hmem.2.1]; exact hapart)
  rw [hmem.1] at honly hwords hds
  rw [hmem.2.1] at honly
  generalize hg : (((d.setReg .ax ax).setReg .sp spr).withSys d.flags d.cs seg).withMem m = g
    at hexec
  have hgreg : (g.reg .sp).toNat = a + 4 * 2 := by
    rw [← hg]
    exact hsp'
  have hgmem : g.mem = m := by
    rw [← hg]
    rfl
  have hgds : g.seg .ds = (words 4 c.mem a 1).setWidth 16 := by
    rw [← hg]
    exact hds
  have hgcr3 : g.cr3 = if c.field ret 0 = 0 then c.cr3 else c.field ret 0 := by
    rw [← hg]
    exact hcr3
  have hgsp0 : g.sp0 = if c.field ret 0 = 0 then c.sp0 else c.field ret 6 := by
    rw [← hg]
    exact hsp0
  have hcs : g.at_ (g.reg .sp + BitVec.ofNat _ 36) = (contextAt32 c.mem a).cs := by
    have hadd : (g.reg .sp + BitVec.ofNat _ 36).toNat = a + 4 * 11 := by
      rw [toNat_add_ofNat (by omega), hgreg]
    rw [Cpu.at_, hadd, words_add, hgmem]
    exact hwords 11 (by decide)
  have hcall : callIret32 back ret d
      = if (contextAt32 c.mem a).cs.setWidth 16 = BitVec.ofNat 16 (ksel segKcode)
        then iret32 (exec kernelIret g) else iret32 (exec userIret g) := by
    rw [callIret32, hexec, hcs]
  rcases hsafe with ⟨hkernel, hroom, hcopy⟩ | huser
  · rw [if_pos hkernel] at hcall
    obtain ⟨reg', m', sp, hkiret, hend, hcopied, hval, hax, hbx, hcx, hdx⟩ :=
      exec_kernelIret (e := (contextAt32 c.mem a).esp.toNat) hgreg hfits (by
        rw [hgmem, hwords 13 (by decide)]
        rfl) hroom hcopy
    rw [hkiret] at hcall
    have hf : ∀ i < 3, words 4 m' sp.toNat i = words 4 c.mem a (10 + i) := by
      intro i hi
      have hsum : sp.toNat = (contextAt32 c.mem a).esp.toNat - 24 + 4 * 3 := by omega
      rw [hsum, words_add, hval (3 + i) (by omega), hgmem, hwords _ (by omega), ← Nat.add_assoc]
    obtain ⟨c', hc', hctx, huser', hmem', hseg', hreg'⟩ := iret32_kernel g reg'
      (words 4 m' ((contextAt32 c.mem a).esp.toNat - 24)) sp m' (by
        rw [hf 1 (by decide)]
        change ¬ ((contextAt32 c.mem a).cs.setWidth 16).toNat % 4 = 3
        rw [hkernel]
        decide)
    have hesp : sp + BitVec.ofNat _ 12 = (contextAt32 c.mem a).esp := by
      have hlt := (contextAt32 c.mem a).esp.isLt
      apply BitVec.eq_of_toNat_eq
      rw [toNat_add_ofNat (by omega), hend]
      omega
    refine ⟨c', m, hleave.trans (congrArg _ (hcall.trans hc')), ?_, ?_, ?_, honly, ?_⟩
    · rw [hctx, hf 0 (by decide), hf 1 (by decide), hf 2 (by decide), hesp, hax, hbx, hcx, hdx,
        hval 0 (by decide), hval 1 (by decide), hval 2 (by decide), hgmem, hwords 2 (by decide),
        hwords 3 (by decide), hwords 4 (by decide), hwords 5 (by decide), hwords 7 (by decide),
        hwords 8 (by decide), hwords 9 (by decide), hgds, hgcr3, hgsp0, Cpu.field, Cpu.field, ha]
      rfl
    · rw [hseg', ← hg]
      exact hes
    · rw [hseg', if_neg huser', ← hg]
      exact hss.trans (congrFun hmem.2.2 .ss)
    · rw [if_neg huser', hmem', hreg', hesp, ← hgmem]
      exact hcopied
  · have hnot : (contextAt32 c.mem a).cs.setWidth 16 ≠ BitVec.ofNat 16 (ksel segKcode) := by
      intro heq
      rw [heq] at huser
      revert huser
      decide
    rw [if_neg hnot] at hcall
    obtain ⟨sp, huiret, hend⟩ := exec_userIret hgreg hfits
    rw [huiret] at hcall
    have hf : ∀ i < 5, words 4 g.mem sp.toNat i = words 4 c.mem a (10 + i) := by
      intro i hi
      rw [hend, words_add, hgmem, hwords _ (by omega)]
    obtain ⟨c', hc', hctx, huser', hmem', hds', hes', hss'⟩ := iret32_user g g.reg
      (words 4 g.mem a) sp (by
        rw [hf 1 (by decide)]
        exact huser)
    refine ⟨c', m, hleave.trans (congrArg _ (hcall.trans hc')), ?_, ?_, ?_, honly, ?_⟩
    · rw [hctx, hf 0 (by decide), hf 1 (by decide), hf 2 (by decide), hf 3 (by decide), hgmem,
        hwords 2 (by decide), hwords 3 (by decide), hwords 4 (by decide), hwords 5 (by decide),
        hwords 7 (by decide), hwords 8 (by decide), hwords 9 (by decide), hgds, hgcr3, hgsp0,
        Cpu.field, Cpu.field, ha]
      rfl
    · rw [hds', hes', ← hg]
      exact hes
    · rw [if_pos huser', hss', hf 4 (by decide)]
      rfl
    · rw [if_pos huser', hmem', hgmem]

end MyOs.Cte
