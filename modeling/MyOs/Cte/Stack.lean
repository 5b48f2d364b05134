import MyOs.Cte.Definitions

/-!
# Pushing and popping

What a row of pushes leaves in memory, and what a row of pops finds there, seen as words from
the lowest address on.

* `pushAll_spec` — the words that are pushed lie in memory in the reverse order.
* `exec_pops` — pops give every register its word.
-/

namespace MyOs.Cte

open MyOs.Memory MyOs.Words MyOs.Buffer

variable {w a k : Nat} {c : Cpu w} {v : Word w}

-- ---------------------------------------------------------------------------
-- Words
-- ---------------------------------------------------------------------------

/-- One word is written. -/
theorem write_singleton {α : Type} {f : Nat → α} {k : Nat} {v : α} :
    write f k [v] = Function.update f k v := rfl

/-- A word behind the text is not touched. -/
theorem write_update {α : Type} {f : Nat → α} {s : List α} {k n : Nat} {v : α}
    (h : k + s.length ≤ n) :
    write (Function.update f n v) k s = Function.update (write f k s) n v := by
  induction s generalizing f k with
  | nil => rfl
  | cons x s ih =>
    rw [List.length_cons] at h
    rw [write, Function.update_comm (by omega), ih (by omega), write]

theorem toNat_ofNat_of_lt {n : Nat} (h : n < 2 ^ (8 * w)) : (BitVec.ofNat (8 * w) n).toNat = n := by
  rw [BitVec.toNat_ofNat, Nat.mod_eq_of_lt h]

theorem toNat_sub_ofNat {x : Word w} {n : Nat} (h : n ≤ x.toNat) :
    (x - BitVec.ofNat _ n).toNat = x.toNat - n := by
  have hn : (BitVec.ofNat (8 * w) n).toNat = n := toNat_ofNat_of_lt (h.trans_lt x.isLt)
  rw [BitVec.toNat_sub_of_le, hn]
  rwa [BitVec.le_def, hn]

theorem toNat_add_ofNat {x : Word w} {n : Nat} (h : x.toNat + n < 2 ^ (8 * w)) :
    (x + BitVec.ofNat _ n).toNat = x.toNat + n := by
  rw [BitVec.toNat_add, toNat_ofNat_of_lt (by omega), Nat.mod_eq_of_lt h]

-- ---------------------------------------------------------------------------
-- Parts of the machine
-- ---------------------------------------------------------------------------

namespace Cpu

/-- What pushes do not look at. -/
def withSys (c : Cpu w) (flags : Word w) (cs : BitVec 16) (seg : Seg → BitVec 16) : Cpu w :=
  { c with flags := flags, cs := cs, seg := seg }

/-- The machine with other registers. -/
def withRegs (c : Cpu w) (reg : Reg → Word w) : Cpu w := { c with reg := reg }

/-- The machine with another memory. -/
def withMem (c : Cpu w) (m : Mem) : Cpu w := { c with mem := m }

variable {r : Reg} {m m' : Mem} {v' flags : Word w} {cs : BitVec 16} {seg : Seg → BitVec 16}

@[simp] theorem setReg_reg : (c.setReg r v).reg = Function.update c.reg r v := rfl

@[simp] theorem setReg_mem : (c.setReg r v).mem = c.mem := rfl

@[simp] theorem withSys_reg : (c.withSys flags cs seg).reg = c.reg := rfl

@[simp] theorem withMem_reg : (c.withMem m).reg = c.reg := rfl

@[simp] theorem withMem_mem : (c.withMem m).mem = m := rfl

@[simp] theorem setReg_setReg : (c.setReg r v).setReg r v' = c.setReg r v' :=
  congrArg (fun f => { c with reg := f }) (Function.update_idem ..)

@[simp] theorem setReg_withSys :
    (c.withSys flags cs seg).setReg r v = (c.setReg r v).withSys flags cs seg := rfl

@[simp] theorem setReg_withMem : (c.withMem m).setReg r v = (c.setReg r v).withMem m := rfl

@[simp] theorem withSys_withMem :
    (c.withMem m).withSys flags cs seg = (c.withSys flags cs seg).withMem m := rfl

@[simp] theorem withMem_withMem : (c.withMem m).withMem m' = c.withMem m' := rfl

@[simp] theorem withSys_withSys {flags' : Word w} {cs' : BitVec 16} {seg' : Seg → BitVec 16} :
    (c.withSys flags cs seg).withSys flags' cs' seg' = c.withSys flags' cs' seg' := rfl

theorem setReg_comm {r' : Reg} (h : r ≠ r') :
    (c.setReg r v).setReg r' v' = (c.setReg r' v').setReg r v :=
  congrArg (fun f => { c with reg := f }) (Function.update_comm h v v' c.reg)

@[simp] theorem setField_reg {p : Word w} {i : Nat} : (c.setField p i v).reg = c.reg := rfl

@[simp] theorem setField_cr2 {p : Word w} {i : Nat} : (c.setField p i v).cr2 = c.cr2 := rfl

@[simp] theorem setField_cr3 {p : Word w} {i : Nat} : (c.setField p i v).cr3 = c.cr3 := rfl

@[simp] theorem setField_sp0 {p : Word w} {i : Nat} : (c.setField p i v).sp0 = c.sp0 := rfl

theorem setField_words (c : Cpu w) (p : Word w) (i : Nat) (v : Word w) :
    words w (c.setField p i v).mem p.toNat
      = Function.update (words w c.mem p.toNat) i v := words_store v

theorem field_setField (c : Cpu w) (p : Word w) (i j : Nat) (v : Word w) :
    (c.setField p i v).field p j = if j = i then v else c.field p j := by
  rw [field, setField_words, Function.update_apply]
  rfl

theorem onlyIn_setField (c : Cpu w) (p : Word w) {i n : Nat} (v : Word w) (h : i < n) :
    OnlyIn c.mem (c.setField p i v).mem p.toNat (p.toNat + w * n) := by
  have hle := mul_add_le_mul (w := w) h
  exact onlyIn_store.mono (by omega) (by omega)

theorem setReg_self (c : Cpu w) (r : Reg) : c.setReg r (c.reg r) = c :=
  congrArg (fun f => { c with reg := f }) (Function.update_eq_self ..)

end Cpu

-- ---------------------------------------------------------------------------
-- Pushing
-- ---------------------------------------------------------------------------

def Cpu.pushAll (c : Cpu w) (vs : List (Word w)) : Cpu w := vs.foldl Cpu.push c

theorem Cpu.pushAll_append (vs ws : List (Word w)) :
    c.pushAll (vs ++ ws) = (c.pushAll vs).pushAll ws := List.foldl_append

theorem push_spec (h : (c.reg .sp).toNat = a + w * (k + 1)) :
    ∃ sp m, c.push v = (c.setReg .sp sp).withMem m ∧
      sp.toNat = a + w * k ∧ words w m a = Function.update (words w c.mem a) k v ∧
      OnlyIn c.mem m (a + w * k) (a + w * (k + 1)) := by
  have hmul : w * (k + 1) = w * k + w := Nat.mul_succ w k
  have hsp : (c.reg .sp - BitVec.ofNat _ w).toNat = a + w * k := by
    rw [toNat_sub_ofNat (by omega)]
    omega
  refine ⟨_, _, rfl, hsp, ?_, ?_⟩
  · rw [hsp]
    exact words_store v
  · rw [hsp]
    exact onlyIn_store.mono (Nat.le_refl _) (by omega)

/-- **Pushing** a row of words. -/
theorem pushAll_spec {s : List (Word w)} (h : (c.reg .sp).toNat = a + w * (k + s.length)) :
    ∃ sp m, c.pushAll s = (c.setReg .sp sp).withMem m ∧
      sp.toNat = a + w * k ∧ words w m a = write (words w c.mem a) k s.reverse ∧
      OnlyIn c.mem m (a + w * k) (a + w * (k + s.length)) := by
  induction s generalizing c with
  | nil => exact ⟨c.reg .sp, c.mem, (congrArg (Cpu.withMem · c.mem) (c.setReg_self .sp)).symm, h,
      rfl, OnlyIn.refl _ _ _⟩
  | cons v s ih =>
    rw [List.length_cons, ← Nat.add_assoc] at h
    obtain ⟨sp, m, hc, hsp, hwords, honly⟩ := push_spec (v := v) h
    obtain ⟨sp', m', hc', hsp', hwords', honly'⟩ := @ih (c.push v) (by
      rw [hc, Cpu.withMem_reg, Cpu.setReg_reg, Function.update_self, hsp])
    rw [hc, Cpu.withMem_mem] at hwords' honly'
    refine ⟨sp', m', ?_, hsp', ?_, ?_⟩
    · rw [Cpu.pushAll, List.foldl_cons]
      refine hc'.trans ?_
      rw [hc, Cpu.setReg_withMem, Cpu.setReg_setReg, Cpu.withMem_withMem]
    · rw [hwords', hwords, List.reverse_cons, write_append, write_singleton,
        write_update (by rw [List.length_reverse]), List.length_reverse]
    · have hmul : w * (k + s.length) ≤ w * (k + s.length + 1) :=
        Nat.mul_le_mul_left w (Nat.le_succ _)
      have hlow : w * k ≤ w * (k + s.length) := Nat.mul_le_mul_left w (Nat.le_add_right _ _)
      rw [List.length_cons, ← Nat.add_assoc]
      exact (honly.mono (by omega) (Nat.le_refl _)).trans
        (honly'.mono (Nat.le_refl _) (by omega))

theorem pushAll_withSys {flags : Word w} {cs : BitVec 16} {seg : Seg → BitVec 16}
    (vs : List (Word w)) :
    (c.withSys flags cs seg).pushAll vs = (c.pushAll vs).withSys flags cs seg := by
  induction vs generalizing c with
  | nil => rfl
  | cons v vs ih => exact @ih (c.push v)

/-- A push, when the stack pointer is known. -/
theorem push_eq (c : Cpu w) (sp v flags : Word w) (cs : BitVec 16) (seg : Seg → BitVec 16)
    (m : Mem) :
    (((c.setReg .sp sp).withSys flags cs seg).withMem m).push v
      = ((c.setReg .sp (sp - BitVec.ofNat _ w)).withSys flags cs seg).withMem
          (store m (sp - BitVec.ofNat _ w).toNat w v.toNat) := by
  change (((c.setReg .sp sp).setReg .sp (sp - BitVec.ofNat _ w)).withSys flags cs seg).withMem _ = _
  rw [Cpu.setReg_setReg]
  rfl

theorem pushAll_setReg {r : Reg} (hr : r ≠ .sp) (x : Word w) (vs : List (Word w)) :
    (c.setReg r x).pushAll vs = (c.pushAll vs).setReg r x := by
  induction vs generalizing c with
  | nil => rfl
  | cons v vs ih =>
    have hsp : (c.setReg r x).reg .sp = c.reg .sp := Function.update_of_ne hr.symm ..
    have hpush : (c.setReg r x).push v = (c.push v).setReg r x := by
      rw [Cpu.push, hsp, Cpu.setReg_comm hr]
      rfl
    exact (congrArg (Cpu.pushAll · vs) hpush).trans (@ih (c.push v))

theorem pushAll_seg (vs : List (Word w)) : (c.pushAll vs).seg = c.seg := by
  induction vs generalizing c with
  | nil => rfl
  | cons v vs ih => exact @ih (c.push v)

theorem pushAll_flags (vs : List (Word w)) : (c.pushAll vs).flags = c.flags := by
  induction vs generalizing c with
  | nil => rfl
  | cons v vs ih => exact @ih (c.push v)

/-- The segment registers as an interrupt leaves them. -/
theorem withSys_ite (p : Prop) [Decidable p] (cs ss : BitVec 16) :
    { (if p then c.setSeg .ss ss else c) with cs := cs }
      = c.withSys c.flags cs (if p then Function.update c.seg .ss ss else c.seg) := by
  by_cases hp : p
  · rw [if_pos hp, if_pos hp]
    rfl
  · rw [if_neg hp, if_neg hp]
    rfl

theorem exec_append (p q : List (Instr w)) : exec (p ++ q) c = exec q (exec p c) :=
  List.foldl_append

/-- Interrupts are switched off and room is made on the stack. -/
theorem exec_reserve (c : Cpu w) (sp : Word w) (n : Nat) :
    exec [.cli, .sub n .sp] (c.setReg .sp sp)
      = (c.setReg .sp (sp - BitVec.ofNat _ n)).withSys (c.flags &&& ~~~BitVec.ofNat _ flIf) c.cs
          c.seg := by
  change ((c.setReg .sp sp).setReg .sp (sp - BitVec.ofNat _ n)).withSys _ _ _ = _
  rw [Cpu.setReg_setReg]
  rfl

/-- A function is called with the address of the frame. -/
theorem exec_call (c : Cpu w) (sp v : Word w) (m : Mem) :
    exec [.mov .sp .di, .pushImm v] ((c.setReg .sp sp).withMem m)
      = ((c.setReg .di sp).setReg .sp (sp - BitVec.ofNat _ w)).withMem
          (store m (sp - BitVec.ofNat _ w).toNat w v.toNat) := by
  change (((c.setReg .sp sp).setReg .di sp).setReg .sp (sp - BitVec.ofNat _ w)).withMem _ = _
  have hne : Reg.sp ≠ Reg.di := by decide
  rw [Cpu.setReg_comm hne, Cpu.setReg_setReg]
  rfl

/-- Registers are pushed as they are. -/
theorem exec_pushes {rs : List Reg} (h : Reg.sp ∉ rs) :
    exec (rs.map .push) c = c.pushAll (rs.map c.reg) := by
  induction rs generalizing c with
  | nil => rfl
  | cons r rs ih =>
    rw [List.map_cons, exec, List.foldl_cons]
    refine (ih fun hmem => h (List.mem_cons_of_mem r hmem)).trans ?_
    rw [List.map_cons, Cpu.pushAll, Cpu.pushAll, List.foldl_cons]
    congr 1
    refine List.map_congr_left fun r' hr' => ?_
    refine Function.update_of_ne (fun heq => h ?_) _ _
    rw [← heq]
    exact List.mem_cons_of_mem r hr'

/-- Behind every entry point, the error code and the number of the interrupt are on the stack. -/
theorem exec_entryOf (t : Trap w) (cs : BitVec 16) (seg : Seg → BitVec 16) (vs : List (Word w)) :
    ∃ flags, exec (entryOf t.vector) ((c.pushAll (vs ++ t.errcode.toList)).withSys c.flags cs seg)
      = (c.pushAll (vs ++ [t.errcode.getD 0, irqOf t.vector])).withSys flags cs seg := by
  obtain ⟨v, errcode, known⟩ := t
  refine ⟨c.flags &&& ~~~BitVec.ofNat _ flIf, ?_⟩
  have hcli : ∀ us ws : List (Word w), exec (.cli :: ws.map .pushImm)
      ((c.pushAll us).withSys c.flags cs seg)
        = (c.pushAll (us ++ ws)).withSys (c.flags &&& ~~~BitVec.ofNat _ flIf) cs seg := by
    intro us ws
    rw [exec, List.foldl_cons, List.foldl_map, Cpu.pushAll_append]
    exact @pushAll_withSys w (c.pushAll us) (c.flags &&& ~~~BitVec.ofNat _ flIf) cs seg ws
  cases errcode with
  | none =>
    have hvs : vs ++ [Option.getD none 0, irqOf v] = (vs ++ []) ++ [0, irqOf v] := by
      rw [List.append_nil]
      rfl
    refine Eq.trans ?_ ((hcli _ [0, irqOf v]).trans (by rw [hvs]))
    congr 1
    unfold entryOf irqOf
    cases hlook : irqs.lookup v with
    | none => rfl
    | some noerr =>
      cases noerr with
      | true => rfl
      | false =>
        rw [hlook] at known
        cases known
  | some e =>
    have hvs : vs ++ [Option.getD (some e) 0, irqOf v] = (vs ++ [e]) ++ [irqOf v] := by
      rw [List.append_assoc]
      rfl
    refine Eq.trans ?_ ((hcli _ [irqOf v]).trans (by rw [hvs]))
    congr 1
    have hlook : irqs.lookup v = some false := (beq_iff_eq.1 known.symm)
    rw [entryOf, irqOf, hlook]
    rfl

-- ---------------------------------------------------------------------------
-- Popping
-- ---------------------------------------------------------------------------

/-- The registers take the words from index `k` on. -/
def popRegs (f : Reg → Word w) (ws : Nat → Word w) : Nat → List Reg → Reg → Word w
  | _, [] => f
  | k, r :: rs => popRegs (Function.update f r (ws k)) ws (k + 1) rs

theorem popRegs_update {rs : List Reg} (h : Reg.sp ∉ rs) (f : Reg → Word w) (ws : Nat → Word w)
    (k : Nat) (v : Word w) :
    popRegs (Function.update f .sp v) ws k rs = Function.update (popRegs f ws k rs) .sp v := by
  induction rs generalizing f k with
  | nil => rfl
  | cons r rs ih =>
    have hr : r ≠ .sp := fun heq => h (heq ▸ List.mem_cons_self)
    rw [popRegs, Function.update_comm hr.symm, ih fun hmem => h (List.mem_cons_of_mem r hmem),
      popRegs]

/-- **Popping** a row of registers. -/
theorem exec_pops {p : List Reg} (hp : Reg.sp ∉ p) (h : (c.reg .sp).toNat = a + w * k)
    (hfits : a + w * (k + p.length) < 2 ^ (8 * w)) :
    ∃ sp, exec (p.map .pop) c
        = (c.withRegs (popRegs c.reg (words w c.mem a) k p)).setReg .sp sp ∧
      sp.toNat = a + w * (k + p.length) := by
  induction p generalizing c k with
  | nil => exact ⟨c.reg .sp, (c.setReg_self .sp).symm, h⟩
  | cons r p ih =>
    have hr : Reg.sp ≠ r := fun heq => hp (by rw [heq]; exact List.mem_cons_self)
    have htail : Reg.sp ∉ p := fun hmem => hp (List.mem_cons_of_mem r hmem)
    have hnext : k + 1 + p.length = k + (p.length + 1) := by omega
    rw [List.length_cons] at hfits ⊢
    have hmul : w * (k + (p.length + 1)) = w * k + w * p.length + w := by
      rw [Nat.mul_add, Nat.mul_succ, Nat.add_assoc]
    have hsp : (c.reg .sp + BitVec.ofNat _ w).toNat = a + w * (k + 1) := by
      rw [toNat_add_ofNat (by omega), h, Nat.mul_succ, Nat.add_assoc]
    have hval : c.at_ (c.reg .sp) = words w c.mem a k := by
      rw [Cpu.at_, h, words_add, Nat.add_zero]
    have hpop : Instr.step c (.pop r)
        = (c.setReg r (words w c.mem a k)).setReg .sp (c.reg .sp + BitVec.ofNat _ w) := by
      rw [← hval]
      exact congrArg (fun f => { c with reg := f }) (Function.update_comm hr _ _ _)
    rw [List.map_cons, exec, List.foldl_cons, hpop]
    obtain ⟨sp, hexec, hend⟩ := @ih (k + 1)
      ((c.setReg r (words w c.mem a k)).setReg .sp (c.reg .sp + BitVec.ofNat _ w)) htail
      (by rw [Cpu.setReg_reg, Function.update_self, hsp]) (by rw [hnext]; exact hfits)
    refine ⟨sp, hexec.trans ?_, by rw [hend, hnext]⟩
    rw [Cpu.setReg_reg, popRegs_update htail, Cpu.setReg_reg, Cpu.setReg_mem, Cpu.setReg_mem]
    exact congrArg c.withRegs (Function.update_idem ..)

end MyOs.Cte
