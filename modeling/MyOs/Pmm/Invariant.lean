import MyOs.Lib.Ownership
import MyOs.Pmm.Moves

/-!
# The invariant of the machine

In every state of every interleaving the memory represents a heap, and the blocks
of this heap that are handed out are the live ones and those a thread has in hand
(`InvAt`).

* `Move.effect` — a move hands out one block, takes one back, or leaves the
  blocks alone.
* `InvAt.exec` — a critical section keeps the invariant, and fails only when a
  growing chain has been disturbed.
* `invAt_of_reachable` — the invariant along all runs.
-/

namespace MyOs.Pmm

open MyOs.Memory MyOs.Transition MyOs.Ownership MyOs.FreeChunks

/-- The block a thread has in hand: popped or marked, not returned yet. -/
def Pc.held : Pc → Option (Nat × Nat)
  | .ret p r => if p = 0 then none else some (p, r)
  | _ => none

/-- **The invariant**, for the heap `H`. -/
structure InvAt (P : Platform) (L : Layout) (S : Sys) (H : Heap) : Prop where
  rep : Rep L S.pmm H
  chained : Chained P H
  pcOk : ∀ t, PcOk P L H (S.pc t)
  owned : Owned (Taken L H) (Pc.held ∘ S.pc) (Pc.freeing ∘ S.pc) S.live

/-- All scans for page runs in sight come to an end within the described entries. -/
def ScansDecided (L : Layout) (S : Sys) : Prop :=
  ∀ t n, S.pc t = .gAlloc n → Decided L S.pmm n

variable {P : Platform} {L : Layout} {S S' : Sys}
  {s s' : State} {H H' : Heap} {t : Tid} {pc pc' : Pc}
  {i c k p r : Nat}

/-! ## What moves do to a heap -/

/-- Slab pages stay slab pages. -/
theorem Move.use_slab (hR : Rep L s H) (hm : Move L H pc H' pc') (hu : H.use i = .slab c k) :
    H'.use i = .slab c k := by
  cases hm with
  | @grow _ j c' k' l _ _ _ hfree =>
    have hij : i ≠ j := by
      rintro rfl
      rw [hfree] at hu
      cases hu
    exact (Function.update_of_ne hij _ _).trans hu
  | @run f e _ _ hfree _ =>
    refine (if_neg fun hin => ?_).trans hu
    obtain ⟨d, rfl⟩ := Nat.exists_eq_add_of_le hin.1
    rw [hfree d (by omega)] at hu
    cases hu
  | @clear f n hf _ =>
    obtain ⟨-, -, hrun⟩ := hR.run f f n hf
    refine (if_neg fun hin => ?_).trans hu
    rw [hrun.all i hin.1 hin.2] at hu
    cases hu
  | _ => exact hu

theorem Chained.link {j : Nat} {nodes : List (Nat × Nat)} (h : Chained P H)
    (hne : H.chain c k ≠ []) : Chained P (H.link c k j nodes) := by
  intro c' k'
  show (if c' = c ∧ k' = k then H.chain c k ++ [j] else H.chain c' k') ≠ [] ↔ _
  split
  · rename_i hck
    rw [hck.1, hck.2]
    exact ⟨fun _ => (h c k).1 hne, fun _ => by simp⟩
  · exact h c' k'

theorem Move.chained (hm : Move L H pc H' pc') (h : Chained P H) : Chained P H' := by
  cases hm with
  | grow hlast _ _ _ => exact h.link (by rw [hlast]; simp)
  | _ => exact h

/-- Control points only speak about slab pages, which stay. -/
theorem PcOk.mono (h : PcOk P L H pc)
    (hslab : ∀ i c k, H.use i = .slab c k → H'.use i = .slab c k) :
    PcOk P L H' pc := by
  cases pc with
  | slabAlloc slab size | readNext slab size | addSlab slab size | newSlab slab size =>
    obtain ⟨i, c, k, hslab', hsz, hu⟩ := h
    exact ⟨i, c, k, hslab', hsz, hslab i c k hu⟩
  | _ => exact h

/-- What the next control point needs. -/
theorem Move.pcOk (hR : Rep L s H) (hm : Move L H pc H' pc') : PcOk P L H' pc' := by
  cases hm with
  | @head cpu size i k l _ _ _ hlist =>
    exact ⟨i, cpu, k, rfl, rfl, (hR.mem_chain cpu k i).1 (by rw [hlist]; simp)⟩
  | @pages cpu size e _ _ he _ => exact ⟨e, he, rfl⟩
  | @full i c k hu _ => exact ⟨i, c, k, rfl, rfl, hu⟩
  | @next i j c k _ huj => exact ⟨j, c, k, rfl, rfl, huj⟩
  | @last i c k l hlast =>
    exact ⟨i, c, k, rfl, rfl, (hR.mem_chain c k i).1 (by rw [hlast]; simp)⟩
  | @grow i j c k l _ _ _ _ => exact ⟨j, c, k, rfl, rfl, Function.update_self _ _ _⟩
  | slabBlock hp => exact hp
  | @pageBlock f => exact ⟨f, rfl⟩
  | _ => exact trivial

/-! ## What moves do to blocks -/

/-- The blocks handed out before and after a move, and what the thread has in hand. -/
inductive Effect (L : Layout) (H H' : Heap) (pc pc' : Pc) : Prop
  | keep : Keeps L H H' → pc.frees = none → pc'.held = pc.held → pc'.freeing = pc.freeing →
      Effect L H H' pc pc'
  | allot {p r : Nat} : Allots L H H' p r → pc.frees = none → pc.held = none →
      pc'.held = some (p, r) → pc'.freeing = pc.freeing → Effect L H H' pc pc'
  | release {p : Nat} : Releases L H H' p → pc.frees = some p → pc.freeing = some p →
      pc'.held = pc.held → pc'.freeing = none → Effect L H H' pc pc'

theorem held_ret (h : p ≠ 0) : (Pc.ret p r).held = some (p, r) := if_neg h

theorem Move.effect (hm : Move L H pc H' pc') : Effect L H H' pc pc' := by
  have hsame : Keeps L H H := fun q r => Iff.rfl
  cases hm with
  | pop _ _ hallot | popNew _ _ hallot | run _ _ _ hallot =>
    exact .allot hallot rfl rfl (held_ret hallot.ne_zero) rfl
  | grow _ hk hj hfree => exact .keep (keeps_link hk hj hfree) rfl rfl rfl
  | push _ _ hrel | clear _ hrel => exact .release hrel rfl rfl rfl rfl
  | _ => exact .keep hsame rfl rfl rfl

theorem release_of_none (h : pc.frees = none) (live : Nat → Option Nat) :
    release pc live = live := by
  funext q
  exact if_neg (by rw [h]; nofun)

theorem release_of_some (h : pc.frees = some p) (live : Nat → Option Nat) :
    release pc live = Function.update live p none := by
  funext q
  unfold release
  rw [h]
  by_cases hq : q = p
  · rw [hq, if_pos rfl, Function.update_self]
  · rw [if_neg fun heq => hq (Option.some.inj heq).symm, Function.update_of_ne hq]

/-- A thread that keeps what it has in hand. -/
theorem update_held (h : pc'.held = (S.pc t).held) :
    Function.update (Pc.held ∘ S.pc) t pc'.held = Pc.held ∘ S.pc :=
  Function.update_eq_self_iff.2 h

theorem update_freeing (h : pc'.freeing = (S.pc t).freeing) :
    Function.update (Pc.freeing ∘ S.pc) t pc'.freeing = Pc.freeing ∘ S.pc :=
  Function.update_eq_self_iff.2 h

/-- **A move passes the blocks on correctly.** -/
theorem Move.owned (hm : Move L H (S.pc t) H' pc')
    (h : Owned (Taken L H) (Pc.held ∘ S.pc) (Pc.freeing ∘ S.pc) S.live) :
    Owned (Taken L H') (Pc.held ∘ Function.update S.pc t pc')
      (Pc.freeing ∘ Function.update S.pc t pc') (release (S.pc t) S.live) := by
  rw [Function.comp_update, Function.comp_update]
  cases hm.effect with
  | keep hkeep hfrees hheld hfreeing =>
    rw [release_of_none hfrees, update_held hheld, update_freeing hfreeing]
    exact h.keep hkeep
  | allot hallot hfrees hheld hheld' hfreeing =>
    rw [release_of_none hfrees, hheld', update_freeing hfreeing]
    exact h.allot hallot.fresh hallot.taken hheld
  | release hrel hfrees hfreeing hheld hfreeing' =>
    rw [release_of_some hfrees, update_held hheld, hfreeing']
    exact h.release hfreeing hrel

/-! ## Steps -/

/-- What a thread gives back is handed out. -/
theorem InvAt.freeing_taken (h : InvAt P L S H) (t : Tid) :
    ∀ p, (S.pc t).freeing = some p → ∃ r, Taken L H p r := by
  intro p hp
  obtain ⟨r, hr⟩ := h.owned.freeing_live t p hp
  exact ⟨r, h.owned.live_taken p r hr⟩

/-- The outcome of a critical section. -/
theorem InvAt.exec_cases (h : InvAt P L S H) (hdec : ScansDecided L S) (t : Tid) :
    (Ready S.pmm (S.pc t) ∧ Moves P L S.pmm H (S.pc t)) ∨
      (¬ Ready S.pmm (S.pc t) ∧ exec P S.pmm (S.pc t) = .error .assertion) :=
  exec_move h.rep h.chained (h.pcOk t) (h.freeing_taken t) (hdec t)

/-- **A critical section keeps the invariant.** -/
theorem InvAt.exec (h : InvAt P L S H) (hdec : ScansDecided L S)
    (hexec : Pmm.exec P S.pmm (S.pc t) = .ok (s', pc')) :
    ∃ H', Move L H (S.pc t) H' pc' ∧ InvAt P L { S with
      pmm := s', pc := Function.update S.pc t pc', live := release (S.pc t) S.live } H' := by
  rcases h.exec_cases hdec t with ⟨-, s₁, H', pc₁, hrun, hR', hm⟩ | ⟨-, herr⟩
  · rw [hexec] at hrun
    cases hrun
    refine ⟨H', hm, hR', hm.chained h.chained, fun u => ?_, hm.owned h.owned⟩
    by_cases hut : u = t
    · rw [hut]
      show PcOk P L H' (Function.update S.pc t pc' t)
      rw [Function.update_self]
      exact hm.pcOk h.rep
    · show PcOk P L H' (Function.update S.pc t pc' u)
      rw [Function.update_of_ne hut]
      exact (h.pcOk u).mono fun i c k => hm.use_slab h.rep
  · rw [hexec] at herr
    cases herr

/-- A call starts or ends: only the thread and the ownership change. -/
theorem InvAt.with_pc {live' : Nat → Option Nat} (h : InvAt P L S H) (hpc : PcOk P L H pc')
    (howned : Owned (Taken L H) (Function.update (Pc.held ∘ S.pc) t pc'.held)
      (Function.update (Pc.freeing ∘ S.pc) t pc'.freeing) live') :
    InvAt P L { S with pc := Function.update S.pc t pc', live := live' } H := by
  refine ⟨h.rep, h.chained, fun u => ?_, ?_⟩
  · show PcOk P L H (Function.update S.pc t pc' u)
    by_cases hut : u = t
    · rw [hut, Function.update_self]
      exact hpc
    · rw [Function.update_of_ne hut]
      exact h.pcOk u
  · rw [← Function.comp_update, ← Function.comp_update] at howned
    exact howned

theorem InvAt.kalloc {cpu size : Nat} (h : InvAt P L S H) (hpc : S.pc t = .idle)
    (hcpu : cpu < P.cpuCount) :
    InvAt P L { S with pc := Function.update S.pc t (.kalloc cpu size) } H := by
  refine h.with_pc hcpu ?_
  rw [update_held (by rw [hpc]; rfl), update_freeing (by rw [hpc]; rfl)]
  exact h.owned

theorem InvAt.kfree (h : InvAt P L S H) (hpc : S.pc t = .idle) (hlive : S.live p = some r)
    (hnone : ∀ u, (S.pc u).freeing ≠ some p) :
    InvAt P L { S with pc := Function.update S.pc t (.kfree p) } H := by
  refine h.with_pc trivial ?_
  rw [update_held (by rw [hpc]; rfl)]
  exact h.owned.request hlive hnone

theorem InvAt.ret (h : InvAt P L S H) (hpc : S.pc t = .ret p r) :
    InvAt P L { S with
      pc := Function.update S.pc t .idle
      live := if p = 0 then S.live else Function.update S.live p (some r) } H := by
  refine h.with_pc trivial ?_
  rw [update_freeing (by rw [hpc]; rfl)]
  by_cases hp : p = 0
  · rw [if_pos hp, update_held (by rw [hpc, hp]; rfl)]
    exact h.owned
  · rw [if_neg hp]
    refine h.owned.publish ?_
    rw [Function.comp_apply, hpc]
    exact held_ret hp

theorem InvAt.write {m' : Mem} (h : InvAt P L S H) (hlive : S.live p = some r)
    (honly : OnlyIn S.pmm.mem m' p (p + r)) :
    InvAt P L { S with pmm := { S.pmm with mem := m' } } H :=
  ⟨h.rep.write (h.owned.live_taken p r hlive) honly, h.chained, h.pcOk, h.owned⟩

theorem InvAt.halt (h : InvAt P L S H) (e : Fault) : InvAt P L { S with halted := some e } H :=
  ⟨h.rep, h.chained, h.pcOk, h.owned⟩

/-- **Every step keeps the invariant.** -/
theorem InvAt.step {a : Label} (h : InvAt P L S H) (hdec : ScansDecided L S)
    (hstep : Step P S a S') :
    ∃ H', InvAt P L S' H' := by
  cases hstep with
  | kalloc _ hpc hcpu => exact ⟨H, h.kalloc hpc hcpu⟩
  | kfree _ hpc hlive hnone => exact ⟨H, h.kfree hpc hlive hnone⟩
  | write _ hlive honly => exact ⟨H, h.write hlive honly⟩
  | exec _ hexec =>
    obtain ⟨H', -, h'⟩ := h.exec hdec hexec
    exact ⟨H', h'⟩
  | halt _ _ => exact ⟨H, h.halt _⟩
  | ret _ hpc => exact ⟨H, h.ret hpc⟩

/-! ## Runs -/

/-- Nothing is handed out at boot. -/
theorem not_taken_boot {m : Mem} {n : Nat} (hR : Rep L s (Heap.boot L m n)) :
    ¬ Taken L (Heap.boot L m n) p r := by
  intro ht
  cases ht with
  | @slot i c k _ hu hslot hnot =>
    obtain ⟨hi, hk, -⟩ := hR.slab i c k hu
    by_cases hin : i < n
    · rw [boot_use_old hin] at hu
      cases hu
      exact hnot (covers_full hk (L.page_dvd i) (L.page_end hi) hslot)
    · rw [boot_use_free hin hi] at hu
      cases hu
  | @run f n' hu =>
    by_cases hin : f < n
    · rw [boot_use_old hin] at hu
      cases hu
    · rw [boot_use_behind hin] at hu
      split at hu <;> cases hu

/-- **The invariant holds after `pmm_init`.** -/
theorem invAt_of_init {lim : Nat} (h : P.nMeta ≤ lim) (h' : lim ≤ metaSz) (hinit : Init P S) :
    P.Accepted ∧ ∃ m, InvAt P (P.layout lim h h') S
      (Heap.boot (P.layout lim h h') m (slabSize * P.cpuCount)) := by
  obtain ⟨⟨m, hm⟩, hidle, hlive, -⟩ := hinit
  rcases pmmInit_spec h h' m with ⟨hacc, s, hrun, hR⟩ | ⟨-, e, herr⟩
  · rw [hm] at hrun
    cases hrun
    refine ⟨hacc, m, hR, fun c k => ?_, fun t => ?_, .init (fun p r => not_taken_boot hR)
      (fun t => ?_) (fun t => ?_) hlive⟩
    · have hsz : ∀ x, slabSize * x = 9 * x := fun _ => rfl
      have hnine : slabSize = 9 := rfl
      have hc := hsz c
      have hcount := hsz P.cpuCount
      simp only [Heap.boot]
      split
      · exact ⟨fun _ => by omega, fun _ => by simp⟩
      · exact ⟨fun hne => absurd rfl hne, fun _ => by omega⟩
    · rw [hidle]
      trivial
    · rw [Function.comp_apply, hidle]
      rfl
    · rw [Function.comp_apply, hidle]
      rfl
  · rw [hm] at herr
    cases herr

/-- The layout with room for 255 described entries behind the managed ones. -/
def Platform.roomy (P : Platform) (hroom : P.nMeta + 255 ≤ metaSz) : Layout :=
  P.layout metaSz (by omega) (le_refl _)

/-- With that room every scan is decided. -/
theorem InvAt.scansDecided (hroom : P.nMeta + 255 ≤ metaSz) (h : InvAt P (P.roomy hroom) S H) :
    ScansDecided (P.roomy hroom) S := by
  intro t n hpc
  have hok := h.pcOk t
  rw [hpc] at hok
  obtain ⟨e, he, rfl⟩ := hok
  exact decided_of_lim hroom (Nat.pow_le_pow_right (n := 2) (by omega) he)

/-- **The invariant holds in every reachable state.** -/
theorem invAt_of_reachable (hroom : P.nMeta + 255 ≤ metaSz) (hr : Reachable P S) :
    ∃ H, InvAt P (P.roomy hroom) S H := by
  refine Reach.invariant (I := fun S => ∃ H, InvAt P (P.roomy hroom) S H) ?_ ?_ hr
  · intro S hinit
    obtain ⟨-, m, h⟩ := invAt_of_init _ _ hinit
    exact ⟨_, h⟩
  · rintro S a S' - ⟨H, h⟩ hstep
    exact h.step (h.scansDecided hroom) hstep

/-! ## Runs step by step -/

/-- The step is a call only of `kalloc`s that `calls` allows, by thread, CPU and size. -/
def CallsOnly (calls : Tid → Nat → Nat → Prop) (_ : Sys) (a : Label) (_ : Sys) : Prop :=
  ∀ t cpu size, a = .kalloc t cpu size → calls t cpu size

/-- An interleaving of such calls leads to this state, without a failed assertion. -/
def At (P : Platform) (calls : Tid → Nat → Nat → Prop) (s : State) (pcs : Tid → Pc)
    (live : Nat → Option Nat) : Prop :=
  Reach (Init P) (Restrict (Step P) (CallsOnly calls)) ⟨s, pcs, live, none⟩

variable {calls : Tid → Nat → Nat → Prop} {pcs : Tid → Pc} {live : Nat → Option Nat}
  {cpu size : Nat}

theorem At.kalloc (h : At P calls s pcs live) (hidle : pcs t = .idle) (hcpu : cpu < P.cpuCount)
    (hcall : calls t cpu size) :
    At P calls s (Function.update pcs t (.kalloc cpu size)) live := by
  refine Reach.step h ⟨.kalloc rfl hidle hcpu, fun t' cpu' size' heq => ?_⟩
  cases heq
  exact hcall

theorem At.kfree (h : At P calls s pcs live) (hidle : pcs t = .idle) (hlive : live p = some r)
    (hnone : ∀ u, (pcs u).freeing ≠ some p) :
    At P calls s (Function.update pcs t (.kfree p)) live :=
  Reach.step h ⟨.kfree rfl hidle hlive hnone, nofun⟩

theorem At.exec_release (h : At P calls s pcs live) (hpc : pcs t = pc)
    (hexec : Pmm.exec P s pc = .ok (s', pc')) :
    At P calls s' (Function.update pcs t pc') (release pc live) := by
  subst hpc
  exact Reach.step h ⟨Step.exec (P := P) (S := ⟨s, pcs, live, none⟩) (t := t) rfl hexec, nofun⟩

theorem At.exec (h : At P calls s pcs live) (hpc : pcs t = pc) (hfrees : pc.frees = none)
    (hexec : Pmm.exec P s pc = .ok (s', pc')) :
    At P calls s' (Function.update pcs t pc') live := by
  have h' := h.exec_release hpc hexec
  rwa [release_of_none hfrees] at h'

theorem At.ret (h : At P calls s pcs live) (hpc : pcs t = .ret p r) (hp : p ≠ 0) :
    At P calls s (Function.update pcs t .idle) (Function.update live p (some r)) := by
  have hstep := Step.ret (P := P) (S := ⟨s, pcs, live, none⟩) (t := t) rfl hpc
  simp only [if_neg hp] at hstep
  exact Reach.step h ⟨hstep, nofun⟩

/-- A call of `kalloc` that nobody interferes with and that finds a slot in the
first page of its chain. -/
theorem At.kalloc_slot {l : List Nat} (h : At P calls s pcs live) (hR : Rep L s H)
    (hidle : pcs t = .idle) (hcpu : cpu < P.cpuCount) (hcall : calls t cpu size)
    (hsize : size ≤ maxAlloc) (hk : k < slabSize) (hsz : kallocSize size = slotSz k)
    (hlist : H.chain cpu k = i :: l) (hfree : H.free i ≠ []) :
    ∃ s' p, At P calls s' pcs (Function.update live p (some (slotSz k))) ∧
      Rep L s' (H.setFree i (pop (slotSz k) (H.free i))) ∧
      Allots L H (H.setFree i (pop (slotSz k) (H.free i))) p (slotSz k) := by
  have hu : H.use i = .slab cpu k := (hR.mem_chain cpu k i).1 (by rw [hlist]; simp)
  obtain ⟨p, s', hpop, hR', hallot⟩ := exec_slabAlloc_pop (P := P) hR hu hfree
  have h₁ := h.kalloc hidle hcpu hcall
  have h₂ := h₁.exec (Function.update_self _ _ _) rfl (exec_kalloc hR hcpu hsize hk hsz hlist)
  have h₃ := h₂.exec (Function.update_self _ _ _) rfl hpop
  have h₄ := h₃.ret (Function.update_self _ _ _) hallot.ne_zero
  simp only [Function.update_idem] at h₄
  rw [Function.update_eq_self_iff.2 hidle.symm] at h₄
  exact ⟨s', p, h₄, hR', hallot⟩

/-! ## A sample heap -/

/-- `n` managed pages and one CPU. -/
def Platform.sample (n : Fin 100) : Platform where
  heapStart := 0x1000000
  heapEnd := 0x1000000 + 3 * gpageSz + n * gpageSz
  cpuCount := 1
  heapStart_le := by omega
  heapEnd_le := by
    have := n.isLt
    unfold gpageSz
    omega
  cpuCount_le := by omega

/-- A run starts in the heap `Heap.boot`. -/
theorem exists_at_boot (calls : Tid → Nat → Nat → Prop) (hlim : P.nMeta ≤ metaSz)
    (hacc : P.Accepted) (m : Mem) : ∃ (L : Layout) (s : State) (H : Heap),
      L = P.layout metaSz hlim (le_refl _) ∧ H = Heap.boot L m (slabSize * P.cpuCount) ∧
      At P calls s (fun _ => .idle) (fun _ => none) ∧ Rep L s H := by
  obtain ⟨s, hrun, hR⟩ := exists_boot hacc hlim (le_refl _) m
  exact ⟨_, s, _, rfl, rfl, .init ⟨⟨m, hrun⟩, fun _ => rfl, fun _ => rfl, rfl⟩, hR⟩

/-- Thread 0 gets a block on CPU 0, and then thread 1 gets one of another size. -/
theorem exists_two_blocks (calls : Tid → Nat → Nat → Prop) (hlim : P.nMeta ≤ metaSz)
    (hacc : P.Accepted) (hzero : 0 < P.cpuCount) (hcpu : cpu < P.cpuCount) (hcall : calls 0 0 16)
    (hcall' : calls 1 cpu 32) : ∃ (L : Layout) (s : State) (H : Heap) (live : Nat → Option Nat)
      (p q : Nat), At P calls s (fun _ => .idle) live ∧ Rep L s H ∧ live p = some 16 ∧
      live q = some 32 ∧ p ≠ q ∧ H.chain 0 0 = [0] ∧ Taken L H p 16 ∧
      ∀ i f n, H.use i ≠ .block f n := by
  obtain ⟨L, s, H, -, hH, h, hR⟩ := exists_at_boot calls hlim hacc fun _ => 0
  have hlist : ∀ {c k}, c < P.cpuCount → k < slabSize → H.chain c k = [slabSize * c + k] := by
    intro c k hc hk
    have hlt : slabSize * (c + 1) ≤ slabSize * P.cpuCount := Nat.mul_le_mul_left _ hc
    have hsucc : slabSize * (c + 1) = slabSize * c + slabSize := Nat.mul_succ _ _
    rw [hH]
    exact if_pos ⟨hk, by omega⟩
  have hfree : ∀ i, H.free i ≠ [] := fun i => by
    rw [hH]
    simp [Heap.boot, fullChunks]
  have hblock : ∀ i f n, H.use i ≠ .block f n := by
    intro i f n hu
    simp only [hH, Heap.boot] at hu
    split at hu
    · cases hu
    · split at hu <;> cases hu
  have hzero' : H.chain 0 0 = [0] := hlist hzero (by decide)
  have hne : slabSize * cpu + 1 ≠ 0 := by omega
  obtain ⟨s₁, p, h₁, hR₁, hallot⟩ := h.kalloc_slot (t := 0) hR rfl hzero hcall
    (show 16 ≤ maxAlloc by decide) (show 0 < slabSize by decide) (by decide) hzero' (hfree 0)
  obtain ⟨s₂, q, h₂, hR₂, hallot'⟩ := h₁.kalloc_slot (t := 1) hR₁ rfl hcpu hcall'
    (show 32 ≤ maxAlloc by decide) (show 1 < slabSize by decide) (by decide)
    (hlist hcpu (by decide)) (by rw [setFree_free_of_ne hne]; exact hfree _)
  have hpq : p ≠ q := by
    rintro rfl
    exact hallot'.fresh _ ((hallot.taken _ _).2 (.inr ⟨rfl, rfl⟩))
  exact ⟨L, s₂, _, _, p, q, h₂, hR₂, by simp [hpq, slotSz], by simp [slotSz], hpq, hzero',
    (hallot'.taken p _).2 (.inl ((hallot.taken p _).2 (.inr ⟨rfl, rfl⟩))), hblock⟩

end MyOs.Pmm
