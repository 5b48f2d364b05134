import MyOs.Cte.Switch

/-!
# The two ports

What `trap64.S` and `trap32.S` do, as the switching between threads needs it.

* `laws64` / `port64` — the port to x86_64 keeps its promises.
* `laws32` / `port32` — so does the port to x86.
-/

namespace MyOs.Cte

open MyOs.Memory MyOs.Words

-- ---------------------------------------------------------------------------
-- x86_64
-- ---------------------------------------------------------------------------

theorem setWidth_selector (n : Nat) (h : 16 ≤ n) (x : BitVec 16) :
    (x.setWidth n).setWidth 16 = x := by
  apply BitVec.eq_of_toNat_eq
  have hlt : x.toNat < 2 ^ n := x.isLt.trans_le (Nat.pow_le_pow_right (by decide) h)
  rw [BitVec.toNat_setWidth, BitVec.toNat_setWidth, Nat.mod_eq_of_lt hlt, Nat.mod_eq_of_lt x.isLt]

theorem Context64.restored_view (x : Context64) (c : Cpu 8) :
    (x.restored c).view = x.view.takeOver c.cr3 c.sp0 := by
  have hcs : (((x.cs.setWidth 16).setWidth 64).setWidth 16 : BitVec 16) = x.cs.setWidth 16 :=
    setWidth_selector 64 (by decide) _
  have hss : (((x.ss.setWidth 16).setWidth 64).setWidth 16 : BitVec 16) = x.ss.setWidth 16 :=
    setWidth_selector 64 (by decide) _
  unfold Context64.restored Context64.view View.takeOver
  by_cases hcr3 : x.cr3 = 0
  · simp only [hcs, hss, hcr3, if_pos]
  · simp only [hcs, hss, if_neg hcr3]

def stubs64 (amIret : Word 8) : Stubs 8 where
  size := 176
  room := 240
  top := top64
  frame := frame64
  contextAt m a := (contextAt64 m a).view
  contextOf c := (contextOf64 c).view
  enter t c := ((enter64 amIret t c).reg .di, enter64 amIret t c)
  interrupt := interrupt64 amIret

theorem contextAt64_same {m m' : Mem} {a : Nat} (h : Same m m' a (a + 176)) :
    contextAt64 m' a = contextAt64 m a := by
  have hwords : ∀ i < 22, words 8 m' a i = words 8 m a i := fun i hi =>
    words_same (n := 22) h hi
  unfold contextAt64 Context64.ofWords
  simp only [hwords, Nat.reduceLT]

theorem laws64 (amIret : Word 8) : (stubs64 amIret).Laws where
  contextOf_cr3 _ := rfl
  contextOf_sp0 _ := rfl
  contextOf_sp _ := rfl
  contextOf_cs c := setWidth_selector 64 (by decide) c.cs
  contextOf_mem _ _ := rfl
  contextAt_same h := congrArg Context64.view (contextAt64_same h)
  top_le c := Nat.div_mul_le_self _ _
  le_top c := by
    change stackOf c ≤ stackOf c / 16 * 16 + 15
    omega
  le_frame c h := by
    change top64 c - 240 ≤ top64 c - 232
    omega
  frame_le c h := by
    have h : 240 ≤ top64 c := h
    change top64 c - 232 + 176 ≤ top64 c
    omega
  saves t c _ hroom := by
    obtain ⟨htf, hcontext, honly, -⟩ := enter64_spec amIret t hroom
    exact ⟨htf, congrArg Context64.view hcontext, honly⟩
  restores h t c ret c₂ _ hroom hcall _ hret hfits _ _ := by
    obtain ⟨-, -, -, hevent, -⟩ := enter64_spec amIret t hroom
    have hinterrupt : interrupt64 amIret h t c = leave64 ret c₂ := by
      rw [interrupt64, hevent]
      exact congrArg (fun r : Word 8 × Cpu 8 => leave64 r.1 r.2) hcall
    obtain ⟨c', hleave, hmem, hcontext, -⟩ := leave64_spec hret hfits c₂
    refine ⟨c', hinterrupt.trans hleave, ?_, fun x _ _ => by rw [hmem]⟩
    change (contextOf64 c').view = _
    rw [hcontext]
    exact Context64.restored_view _ _

/-- `cte.c` and `trap64.S`. -/
def port64 (amIret : Word 8) : Port 8 := { stubs64 amIret with laws := laws64 amIret }

-- ---------------------------------------------------------------------------
-- x86
-- ---------------------------------------------------------------------------

theorem setWidth_low16 (v : Word 4) (x : BitVec 16) : (low16 v x).setWidth 16 = x := by
  apply BitVec.eq_of_toNat_eq
  have hx := x.isLt
  have hv := v.isLt
  rw [low16, BitVec.toNat_setWidth, BitVec.toNat_ofNat]
  omega

theorem Context32.restored_view (x : Context32) (c : Cpu 4) :
    (x.restored c).view = x.view.takeOver c.cr3 c.sp0 := by
  have hcs : (((x.cs.setWidth 16).setWidth 32).setWidth 16 : BitVec 16) = x.cs.setWidth 16 :=
    setWidth_selector 32 (by decide) _
  unfold Context32.restored Context32.view View.takeOver
  by_cases hcr3 : x.cr3 = 0
  · simp only [hcs, setWidth_low16, hcr3, if_pos]
  · simp only [hcs, setWidth_low16, if_neg hcr3]

def stubs32 (amIret back : Word 4) : Stubs 4 where
  size := 60
  room := 104
  top := top32
  frame := frame32
  contextAt m a := (contextAt32 m a).view
  contextOf c := (contextOf32 c).view
  enter := enter32 amIret
  interrupt := interrupt32 amIret back

theorem contextAt32_same {m m' : Mem} {a : Nat} (h : Same m m' a (a + 60)) :
    contextAt32 m' a = contextAt32 m a := by
  have hwords : ∀ i < 15, words 4 m' a i = words 4 m a i := fun i hi =>
    words_same (n := 15) h hi
  unfold contextAt32 Context32.ofWords
  simp only [hwords, Nat.reduceLT]

theorem kernel_ring {c : Cpu 4} (h : c.user ∨ c.cs = kernelCs) : c.user ∨ c.cs.toNat % 4 = 0 := by
  refine h.imp_right fun hcs => ?_
  rw [hcs]
  decide

theorem Resumable.safe {x : Context32} {a : Nat} (h : Resumable 60 a x.view) : x.Safe a := by
  rcases h with ⟨hcs, hsp⟩ | huser
  · have hsp : a + 60 ≤ x.esp.toNat := hsp
    exact .inl ⟨hcs, by omega, .inl (by omega)⟩
  · exact .inr huser

theorem restores32 (amIret back : Word 4) (h : Handler 4) (t : Trap 4) (c : Cpu 4) (ret : Word 4)
    (c₂ : Cpu 4) (hmode : c.user ∨ c.cs = kernelCs) (hroom : 104 ≤ top32 c)
    (hcall : h (t.event c) (enter32 amIret t c).1 (enter32 amIret t c).2 = (ret, c₂))
    (hsp : c₂.reg .sp = (enter32 amIret t c).2.reg .sp) (hret : ret ≠ 0)
    (hfits : ret.toNat + 60 ≤ 2 ^ 32)
    (hapart : ret.toNat + 60 ≤ top32 c - 104 ∨ frame32 c ≤ ret.toNat)
    (hres : Resumable 60 ret.toNat (contextAt32 c₂.mem ret.toNat).view) :
    ∃ c', interrupt32 amIret back h t c = .ok c' ∧
      (contextOf32 c').view = (contextAt32 c₂.mem ret.toNat).view.takeOver c₂.cr3 c₂.sp0 ∧
      ∀ x, x < top32 c - 104 ∨ frame32 c ≤ x →
        (contextAt32 c₂.mem ret.toNat).view.User ∨
          x + 60 < (contextAt32 c₂.mem ret.toNat).view.sp.toNat ∨
          (contextAt32 c₂.mem ret.toNat).view.sp.toNat ≤ x → c'.mem x = c₂.mem x := by
  obtain ⟨-, -, -, hevent, -, -, hspn⟩ := enter32_spec amIret t (kernel_ring hmode)
    (show 96 ≤ top32 c by omega)
  rw [← hsp] at hspn
  have hold := oldStack32_length_le c
  have hframe : frame32 c = top32 c - 4 * (20 + (oldStack32 c).length) := rfl
  have hinterrupt : interrupt32 amIret back h t c = leave32 back ret c₂ := by
    rw [interrupt32]
    dsimp only
    rw [hevent]
    exact congrArg (fun r : Word 4 × Cpu 4 => leave32 back r.1 r.2) hcall
  obtain ⟨c', m, hleave, hcontext, -, -, honly, hmem⟩ := @leave32_spec back ret ret.toNat hret rfl
    hfits c₂ (by omega) (by omega) hres.safe
  have hview : (contextOf32 c').view
      = (contextAt32 c₂.mem ret.toNat).view.takeOver c₂.cr3 c₂.sp0 := by
    rw [hcontext]
    exact Context32.restored_view _ _
  have hcs : c'.cs = (contextAt32 c₂.mem ret.toNat).view.cs := by
    rw [← View.takeOver_cs _ c₂.cr3 c₂.sp0, ← hview]
    exact (setWidth_selector 32 (by decide) c'.cs).symm
  have hspv : c'.reg .sp = (contextAt32 c₂.mem ret.toNat).view.sp := by
    rw [← View.takeOver_sp _ c₂.cr3 c₂.sp0, ← hview]
    rfl
  refine ⟨c', hinterrupt.trans hleave, hview, fun x hx hx' => ?_⟩
  have hm : m x = c₂.mem x := honly x (by omega)
  by_cases huser : c'.user
  · rw [if_pos huser] at hmem
    rw [hmem, hm]
  · rw [if_neg huser, hspv] at hmem
    refine (hmem x ?_).trans hm
    rcases hx' with huser' | hlt | hle
    · refine absurd ?_ huser
      rw [Cpu.user, hcs]
      exact huser'
    · exact .inl (by omega)
    · exact .inr hle

theorem laws32 (amIret back : Word 4) : (stubs32 amIret back).Laws where
  contextOf_cr3 _ := rfl
  contextOf_sp0 _ := rfl
  contextOf_sp _ := rfl
  contextOf_cs c := setWidth_selector 32 (by decide) c.cs
  contextOf_mem _ _ := rfl
  contextAt_same h := congrArg Context32.view (contextAt32_same h)
  top_le _ := Nat.le_refl _
  le_top _ := Nat.le_add_right _ _
  le_frame c _ := by
    have hold := oldStack32_length_le c
    change top32 c - 104 ≤ top32 c - 4 * (20 + (oldStack32 c).length)
    omega
  frame_le c h := by
    have hold := oldStack32_length_le c
    have h : 104 ≤ top32 c := h
    change top32 c - 4 * (20 + (oldStack32 c).length) + 60 ≤ top32 c
    omega
  saves t c hmode hroom := by
    have hroom : 104 ≤ top32 c := hroom
    have hold := oldStack32_length_le c
    have hframe : frame32 c = top32 c - 4 * (20 + (oldStack32 c).length) := rfl
    obtain ⟨htf, hcontext, honly, -⟩ := enter32_spec amIret t (kernel_ring hmode)
      (show 96 ≤ top32 c by omega)
    refine ⟨htf, congrArg Context32.view hcontext, honly.mono ?_ (Nat.le_refl _)⟩
    change top32 c - 104 ≤ frame32 c - 8
    omega
  restores := restores32 amIret back

/-- `cte.c` and `trap32.S`. -/
def port32 (amIret back : Word 4) : Port 4 :=
  { stubs32 amIret back with laws := laws32 amIret back }

end MyOs.Cte
