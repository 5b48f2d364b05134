import MyOs.Pmm.Invariant

/-!
# One thread per CPU

When every thread that allocates has a CPU of its own, nobody else extends a chain
between the two critical sections in which its thread finds the end and grows it,
and nobody else takes slots of the page just linked (`OwnPc`). So no critical
section is ever disturbed, and no assertion fails.

Frees from other CPUs do interfere, but they only add slots to the free lists.

* `noAssertFails` — no call fails, and the machine never halts.
-/

namespace MyOs.Pmm

open MyOs.Memory MyOs.FreeChunks MyOs.Transition

/-- The step is a call only of a thread on its own CPU. -/
def OnOwnCpu (cpuOf : Tid → Nat) (_ : Sys) (a : Label) (_ : Sys) : Prop :=
  ∀ t cpu size, a = .kalloc t cpu size → cpu = cpuOf t

/-- What a thread of CPU `c` can rely on: its chain is its own, the page it is
about to extend stays the last one, the page it has linked keeps a free slot. -/
def OwnPc (L : Layout) (H : Heap) (c : Nat) : Pc → Prop
  | .kalloc cpu _ => cpu = c
  | .slabAlloc slab _ | .readNext slab _ => ∃ i k, slab = L.page i ∧ H.use i = .slab c k
  | .addSlab slab _ => ∃ i k l, slab = L.page i ∧ H.chain c k = l ++ [i]
  | .newSlab slab _ => ∃ i k, slab = L.page i ∧ H.use i = .slab c k ∧ H.free i ≠ []
  | _ => True

/-- The invariant for threads with a CPU each. -/
structure OwnAt (P : Platform) (L : Layout) (cpuOf : Tid → Nat) (S : Sys) (H : Heap) : Prop where
  inv : InvAt P L S H
  own : ∀ t, OwnPc L H (cpuOf t) (S.pc t)
  running : S.halted = none

variable {P : Platform} {L : Layout} {S S' : Sys}
  {s s' : State} {H H' : Heap} {t : Tid} {pc pc' : Pc}
  {c d i k : Nat} {cpuOf : Tid → Nat}

/-! ## The thread itself -/

/-- The page at a control point belongs to the CPU of the thread. -/
theorem own_cpu {b c' k' : Nat} (h : ∃ i k, b = L.page i ∧ H.use i = .slab c k) (hb : b = L.page i)
    (hu : H.use i = .slab c' k') : c' = c := by
  obtain ⟨j, k, hj, hu'⟩ := h
  obtain rfl := L.page_inj (hb.symm.trans hj)
  rw [hu] at hu'
  cases hu'
  rfl

/-- A move leads to a control point on the same CPU. -/
theorem Move.own (hR : Rep L s H) (hm : Move L H pc H' pc') (h : OwnPc L H c pc) :
    OwnPc L H' c pc' := by
  have hmem : ∀ {c k i l}, H.chain c k = l ++ [i] → H.use i = .slab c k := fun {c k i l} hlast =>
    (hR.mem_chain c k i).1 (by rw [hlast]; simp)
  cases hm with
  | @head cpu size i k l _ _ _ hlist =>
    obtain rfl : cpu = c := h
    exact ⟨i, k, rfl, (hR.mem_chain cpu k i).1 (by rw [hlist]; simp)⟩
  | full hu _ =>
    obtain rfl := own_cpu h rfl hu
    exact ⟨_, _, rfl, hu⟩
  | next hu huj =>
    obtain rfl := own_cpu h rfl hu
    exact ⟨_, _, rfl, huj⟩
  | last hlast =>
    obtain rfl := own_cpu h rfl (hmem hlast)
    exact ⟨_, _, _, rfl, hlast⟩
  | @grow i j c' k l hlast _ _ _ =>
    obtain ⟨i', k', l', hi, hlast'⟩ := h
    obtain rfl := own_cpu ⟨i', k', hi, hmem hlast'⟩ rfl (hmem hlast)
    refine ⟨j, k, rfl, Function.update_self _ _ _, ?_⟩
    rw [show (H.link c' k j (fullChunks (L.page j) k)).free j = _ from Function.update_self _ _ _]
    simp [fullChunks]
  | _ => exact trivial

/-! ## The other threads -/

/-- A thread leaves the chains of other CPUs alone. -/
theorem Move.chain_other (hR : Rep L s H) (hm : Move L H pc H' pc') (h : OwnPc L H c pc)
    (hdc : d ≠ c) (k : Nat) : H'.chain d k = H.chain d k := by
  cases hm with
  | @grow i j c' k' l hlast _ _ _ =>
    obtain ⟨i', k'', l', hi, hlast'⟩ := h
    have hu : H.use i = .slab c' k' := (hR.mem_chain c' k' i).1 (by rw [hlast]; simp)
    have hu' : H.use i' = .slab c k'' := (hR.mem_chain c k'' i').1 (by rw [hlast']; simp)
    obtain rfl := own_cpu ⟨i', k'', hi, hu'⟩ rfl hu
    exact if_neg fun heq => hdc heq.1
  | _ => rfl

/-- A thread takes no slot of a page of another CPU. -/
theorem Move.free_other (hm : Move L H pc H' pc') (h : OwnPc L H c pc) (hdc : d ≠ c)
    (hu : H.use i = .slab d k) (hfree : H.free i ≠ []) : H'.free i ≠ [] := by
  cases hm with
  | @pop j c' k' p hu' _ _ =>
    obtain rfl := own_cpu h rfl hu'
    have hij : i ≠ j := by
      rintro rfl
      rw [hu] at hu'
      cases hu'
      exact hdc rfl
    rwa [setFree_free_of_ne hij]
  | @popNew j c' k' p hu' _ _ =>
    obtain ⟨i', k'', hi, hu'', -⟩ := h
    obtain rfl := own_cpu ⟨i', k'', hi, hu''⟩ rfl hu'
    have hij : i ≠ j := by
      rintro rfl
      rw [hu] at hu'
      cases hu'
      exact hdc rfl
    rwa [setFree_free_of_ne hij]
  | @grow j j' c' k' l _ _ _ hfree' =>
    have hij : i ≠ j' := by
      rintro rfl
      rw [hu] at hfree'
      cases hfree'
    rwa [show (H.link c' k' j' (fullChunks (L.page j') k')).free i = H.free i from
      Function.update_of_ne hij _ _]
  | @push j c' k' p nodes _ hne _ =>
    by_cases hij : i = j
    · rw [hij, setFree_free_self]
      exact hne
    · rwa [setFree_free_of_ne hij]
  | _ => exact hfree

/-- **A move of a thread on another CPU does not disturb.** -/
theorem Move.own_other {pcu : Pc} (hR : Rep L s H) (hm : Move L H pc H' pc') (h : OwnPc L H c pc)
    (hdc : d ≠ c) (hu : OwnPc L H d pcu) : OwnPc L H' d pcu := by
  cases pcu with
  | slabAlloc slab size | readNext slab size =>
    obtain ⟨i, k, hi, huse⟩ := hu
    exact ⟨i, k, hi, hm.use_slab hR huse⟩
  | addSlab slab size =>
    obtain ⟨i, k, l, hi, hlast⟩ := hu
    exact ⟨i, k, l, hi, (hm.chain_other hR h hdc k).trans hlast⟩
  | newSlab slab size =>
    obtain ⟨i, k, hi, huse, hfree⟩ := hu
    exact ⟨i, k, hi, hm.use_slab hR huse, hm.free_other h hdc huse hfree⟩
  | _ => exact hu

/-! ## Runs -/

/-- On its own CPU a thread is never disturbed. -/
theorem OwnAt.ready (h : OwnAt P L cpuOf S H) (t : Tid) : Ready S.pmm (S.pc t) := by
  have hown := h.own t
  have hok := h.inv.pcOk t
  have hR := h.inv.rep
  cases hpc : S.pc t with
  | addSlab slab size =>
    rw [hpc] at hown
    obtain ⟨i, k, l, rfl, hlast⟩ := hown
    have hu : H.use i = .slab (cpuOf t) k := (hR.mem_chain _ k i).1 (by rw [hlast]; simp)
    exact (hR.ready_addSlab hu).2 (.inl ⟨l, hlast⟩)
  | newSlab slab size =>
    rw [hpc] at hown
    obtain ⟨i, k, rfl, hu, hfree⟩ := hown
    exact (hR.ready_newSlab hu).2 hfree
  | _ => exact trivial

/-- A call starts or ends. -/
theorem OwnAt.with_pc {live' : Nat → Option Nat} (h : OwnAt P L cpuOf S H)
    (hinv : InvAt P L { S with pc := Function.update S.pc t pc', live := live' } H)
    (hown : OwnPc L H (cpuOf t) pc') :
    OwnAt P L cpuOf { S with pc := Function.update S.pc t pc', live := live' } H :=
  ⟨hinv, (Function.forall_update_iff S.pc _).2 ⟨hown, fun u _ => h.own u⟩, h.running⟩

theorem OwnAt.step {a : Label} (hroom : P.nMeta + 255 ≤ metaSz) (hinj : Function.Injective cpuOf)
    (h : OwnAt P (P.roomy hroom) cpuOf S H) (hstep : Step P S a S') (hown : OnOwnCpu cpuOf S a S') :
    ∃ H', OwnAt P (P.roomy hroom) cpuOf S' H' := by
  have hdec := h.inv.scansDecided hroom
  cases hstep with
  | kalloc _ hpc hcpu => exact ⟨H, h.with_pc (h.inv.kalloc hpc hcpu) (hown _ _ _ rfl)⟩
  | kfree _ hpc hlive hnone => exact ⟨H, h.with_pc (h.inv.kfree hpc hlive hnone) trivial⟩
  | write _ hlive honly => exact ⟨H, h.inv.write hlive honly, h.own, h.running⟩
  | @exec t s' pc' _ hexec =>
    obtain ⟨H', hm, h'⟩ := h.inv.exec hdec hexec
    have hR := h.inv.rep
    refine ⟨H', h', (Function.forall_update_iff S.pc _).2 ⟨hm.own hR (h.own t), fun u hut => ?_⟩,
      h.running⟩
    exact hm.own_other hR (h.own t) (fun heq => hut (hinj heq)) (h.own u)
  | @halt t e _ herr =>
    -- the critical section would have to be disturbed
    rcases h.inv.exec_cases hdec t with ⟨-, s', H', pc', hrun, -⟩ | ⟨hnot, -⟩
    · rw [herr] at hrun
      cases hrun
    · exact absurd (h.ready t) hnot
  | ret _ hpc => exact ⟨H, h.with_pc (h.inv.ret hpc) trivial⟩

/-- **No assertion fails** with one thread per CPU: `pmm_init` succeeds, in every
interleaving the machine runs on, and every critical section in front of a thread
succeeds. -/
theorem noAssertFails (P : Platform) (hpages : 9 * P.cpuCount ≤ P.nMeta)
    (hroom : P.nMeta + 255 ≤ metaSz) :
    (∀ m, ∃ s, pmmInit P m = .ok s) ∧
      ∀ cpuOf : Tid → Nat, Function.Injective cpuOf →
        ∀ S, Reach (Init P) (Restrict (Step P) (OnOwnCpu cpuOf)) S →
          S.halted = none ∧ ∀ t, ∃ s' pc', exec P S.pmm (S.pc t) = .ok (s', pc') := by
  have hlim : P.nMeta ≤ metaSz := by omega
  refine ⟨fun m => ?_, fun cpuOf hinj S hr => ?_⟩
  · obtain ⟨s, hrun, -⟩ := exists_boot ⟨by omega, hpages⟩ (le_refl _) hlim m
    exact ⟨s, hrun⟩
  · have hinv : ∃ H, OwnAt P (P.roomy hroom) cpuOf S H := by
      refine Reach.invariant (I := fun S => ∃ H, OwnAt P (P.roomy hroom) cpuOf S H) ?_ ?_ hr
      · intro S hinit
        obtain ⟨-, m, h⟩ := invAt_of_init hlim (le_refl _) hinit
        obtain ⟨-, hidle, -, hrunning⟩ := hinit
        refine ⟨_, h, fun t => ?_, hrunning⟩
        rw [hidle]
        trivial
      · rintro S a S' - ⟨H, h⟩ ⟨hstep, hown⟩
        exact h.step hroom hinj hstep hown
    obtain ⟨H, h⟩ := hinv
    refine ⟨h.running, fun t => ?_⟩
    rcases h.inv.exec_cases (h.inv.scansDecided hroom) t with ⟨-, s', H', pc', hrun, -⟩ | ⟨hnot, -⟩
    · exact ⟨s', pc', hrun⟩
    · exact absurd (h.ready t) hnot

/-- 40 managed pages and two CPUs. -/
def Platform.pair : Platform :=
  { Platform.sample 40 with cpuCount := 2, cpuCount_le := Nat.le_of_ble_eq_true rfl }

/-- Each thread on its CPU. -/
def ownCall (t : Tid) (cpu _ : Nat) : Prop := cpu = id t

/-- Threads on two CPUs have allocated; thread 1 is about to free the block of thread 0,
whose next section is on the same page. -/
theorem exists_remote_free : ∃ (s : State) (pcs : Tid → Pc) (live : Nat → Option Nat) (p q : Nat),
    At .pair ownCall s pcs live ∧ live p = some 16 ∧ live q = some 32 ∧ pcs 1 = .sFree p ∧
      pcs 0 = .slabAlloc (s.slab 0 0) 16 := by
  obtain ⟨L, s, H, live, p, q, h, hR, hp, hq, hpq, hchain, htaken, hblock⟩ :=
    exists_two_blocks (P := .pair) ownCall (by decide) (by decide) (by decide)
      (show 1 < _ by decide) rfl rfl
  -- thread 0 calls again, and thread 1 gives the block of thread 0 back
  have h₁ := (h.kalloc (t := 0) rfl (by decide) rfl).exec (Function.update_self _ _ _) rfl
    (exec_kalloc hR (by decide) (show 16 ≤ maxAlloc by decide) (show 0 < slabSize by decide)
      (by decide) hchain)
  rw [Function.update_idem] at h₁
  have h₂ := h₁.kfree (t := 1) rfl hp fun u => by
    by_cases hu : u = 0 <;> simp [hu, Pc.freeing]
  have hhead : exec .pair s (.kfree p) = .ok (s, .sFree p) := by
    rcases kfreeHead_taken hR htaken with ⟨hhead, -⟩ | ⟨-, f, n, -, hu⟩
    · rw [exec, hhead, ok_bind]
      rfl
    · exact absurd hu (hblock f f n)
  have h₃ := h₂.exec (Function.update_self _ _ _) rfl hhead
  rw [Function.update_idem] at h₃
  have hslab : s.slab 0 0 = L.page 0 := by
    have hlink := hR.chain 0 0 (by simp [hchain])
    rw [hchain] at hlink
    exact hlink.1
  exact ⟨s, _, live, p, q, h₃, hp, hq, by simp, by simp [hslab, slotSz]⟩

/-- Threads on two CPUs in their critical sections, one of which frees a block of the other. -/
theorem noAssertFails_pair : ∃ (S S' : Sys) (p q : Nat),
    Reach (Init .pair) (Restrict (Step .pair) (OnOwnCpu id)) S ∧ S.live p = some 16 ∧
      S.live q = some 32 ∧ S.pc 1 = .sFree p ∧ S.pc 0 = .slabAlloc (S.pmm.slab 0 0) 16 ∧
      (S.halted = none ∧ ∀ t, ∃ s' pc', exec .pair S.pmm (S.pc t) = .ok (s', pc')) ∧
    Reach (Init .pair) (Restrict (Step .pair) (OnOwnCpu id)) S' ∧ S'.live p = none ∧
      (S'.halted = none ∧ ∀ t, ∃ s' pc', exec .pair S'.pmm (S'.pc t) = .ok (s', pc')) := by
  obtain ⟨-, hsafe⟩ := noAssertFails .pair (by decide) (by decide)
  obtain ⟨s, pcs, live, p, q, hat, hp, hq, hpc₁, hpc₀⟩ := exists_remote_free
  have hr : Reach (Init .pair) (Restrict (Step .pair) (OnOwnCpu id)) ⟨s, pcs, live, none⟩ := hat
  have hnow := hsafe id Function.injective_id _ hr
  obtain ⟨s', pc', hexec⟩ := hnow.2 1
  have hr' := hr.step (a := .exec 1) ⟨.exec rfl hexec, nofun⟩
  refine ⟨_, _, p, q, hr, hp, hq, hpc₁, hpc₀, hnow, hr', ?_, hsafe id Function.injective_id _ hr'⟩
  show release (pcs 1) live p = none
  rw [hpc₁]
  exact if_pos rfl

end MyOs.Pmm
