import MyOs.Pmm.Safety

/-!
# Growing a chain

`S_alloc` finds the end of its chain in one critical section and extends it in a
later one. Threads that share a CPU can meet in between: the second one to reach
`add_slab` has got its page when it finds that the chain has been extended, and
its assertion fails.

* `growthSafe_of_undisturbed` — as long as nobody is disturbed in that window,
  chains are `NULL`-terminated lists that hold every slab page exactly once, a
  page that `add_slab` obtains is put behind the last page of its caller's chain,
  and a critical section fails exactly when it has been disturbed.
* `growth_disturbed` — two threads that find the chain full at once halt the
  machine.
-/

namespace MyOs.Pmm

open MyOs.Memory MyOs.LinkedList MyOs.FreeChunks MyOs.Transition

/-! ## Chains and their callers -/

/-- `cpu_current()` and the size of the last `kalloc` of each thread: a history
variable, which no step reads. -/
abbrev Calls := Tid → Nat × Nat

/-- A step writes down the call it makes. -/
def lastCall : Label → Calls → Calls
  | .kalloc t cpu size, calls => Function.update calls t (cpu, size)
  | _, calls => calls

/-- `b` is a page of `Slab[cpu][id]`, the chain that serves the call. -/
def OnCallersChain (P : Platform) (s : State) (call : Nat × Nat) (b : Nat) : Prop :=
  call.1 < P.cpuCount ∧ ∃ id, id < slabSize ∧ getSlabIndex (kallocSize call.2) = .ok id ∧
    OnChain s call.1 id b

/-- `slab` has been put behind `prev`, the last page of `Slab[cpu][id]`; the other
chains are as before. -/
def Appended (P : Platform) (s s' : State) (call : Nat × Nat) (prev slab : Nat) : Prop :=
  ∃ id l, getSlabIndex (kallocSize call.2) = .ok id ∧
    Linked s.next 0 (s.slab call.1 id) (l ++ [prev]) ∧
    Linked s'.next 0 (s'.slab call.1 id) (l ++ [prev, slab]) ∧
    ∀ c k l', c < P.cpuCount → k < slabSize → ¬ (c = call.1 ∧ k = id) →
      Linked s.next 0 (s.slab c k) l' → Linked s'.next 0 (s'.slab c k) l'

/-- **Chains grow safely**: no assertion has failed, every chain is a
`NULL`-terminated list without repetition, and every page that has been obtained for
slabs is in exactly one chain. The page that a thread is about to extend and the page
it has just obtained are in its own chain. -/
structure GrowthSafe (P : Platform) (S : Sys) (calls : Calls) : Prop where
  running : S.halted = none
  chain : ∀ c k, c < P.cpuCount → k < slabSize →
    ∃ l, l ≠ [] ∧ l.Nodup ∧ Linked S.pmm.next 0 (S.pmm.slab c k) l
  linked : ∀ i, i < S.pmm.nMeta → S.pmm.isAlloc i = true → S.pmm.isSlab i = true →
    ∃! ck : Nat × Nat, (ck.1 < P.cpuCount ∧ ck.2 < slabSize) ∧
      OnChain S.pmm ck.1 ck.2 (S.pmm.gStart + i * gpageSz)
  growing : ∀ t prev size, S.pc t = .addSlab prev size → OnCallersChain P S.pmm (calls t) prev
  obtained : ∀ t slab size, S.pc t = .newSlab slab size →
    (∃! ck : Nat × Nat, (ck.1 < P.cpuCount ∧ ck.2 < slabSize) ∧ OnChain S.pmm ck.1 ck.2 slab) ∧
      OnCallersChain P S.pmm (calls t) slab

/-- The thread that runs has not been disturbed. -/
def Undisturbed (S : Sys) (a : Label) (_ : Sys) : Prop :=
  ∀ t, a = .exec t → Ready S.pmm (S.pc t)

/-- Calls with the sizes of slab classes. -/
def slabCall (_ : Tid) (_ size : Nat) : Prop := size ≤ 4096

/-- The states of the runs with such calls in which nobody is disturbed, with the last
call of each thread. -/
def UndisturbedRun (P : Platform) : Sys × Calls → Prop :=
  Reach (fun x => Init P x.1)
    (Recording lastCall (Restrict (Restrict (Step P) (CallsOnly slabCall)) Undisturbed))

variable {P : Platform} {L : Layout} {S S' : Sys} {s : State} {H H' : Heap} {t : Tid} {pc pc' : Pc}
  {c k i b p size : Nat} {call : Nat × Nat} {calls calls' : Calls}

/-! ## Calls with the sizes of slab classes -/

theorem kallocSize_le (h : size ≤ 4096) : kallocSize size ≤ 4096 := by
  unfold kallocSize
  by_cases hzero : size = 0
  · rw [hzero, nextPower2_zero]
    decide
  · have hpow : 2 ^ (size - 1).size ≤ 2 ^ 12 :=
      Nat.pow_le_pow_right (by omega) (Nat.size_le.2 (by omega))
    rw [nextPower2_eq (by omega) (by omega)]
    dsimp only
    split
    · omega
    · exact hpow

/-- Control points of calls with the sizes of slab classes. -/
def SlabPc : Pc → Prop
  | .kalloc _ size => size ≤ 4096
  | .gAlloc _ => False
  | _ => True

theorem Move.slabPc (hm : Move L H pc H' pc') (h : SlabPc pc) : SlabPc pc' := by
  cases hm with
  | @pages cpu size e _ hlarge _ _ =>
    have := kallocSize_le h
    omega
  | _ => exact trivial

/-! ## The chain of the caller -/

/-- What the control points of a call are about: the pages of its chain. -/
def CallPc (L : Layout) (H : Heap) (call : Nat × Nat) : Pc → Prop
  | .kalloc cpu size => call = (cpu, size)
  | .slabAlloc slab size | .readNext slab size | .addSlab slab size | .newSlab slab size =>
    ∃ i k, slab = L.page i ∧ size = slotSz k ∧ kallocSize call.2 = slotSz k ∧
      H.use i = .slab call.1 k
  | _ => True

/-- The class of a control point is that of its page. -/
theorem CallPc.class_eq (h : ∃ j k', L.page i = L.page j ∧ slotSz k = slotSz k' ∧
      kallocSize call.2 = slotSz k' ∧ H.use j = .slab call.1 k')
    (hu : H.use i = .slab c k) : c = call.1 ∧ kallocSize call.2 = slotSz k := by
  obtain ⟨j, k', hj, hsz, hcall, hu'⟩ := h
  obtain rfl := L.page_inj hj
  rw [hu] at hu'
  cases hu'
  exact ⟨rfl, hcall⟩

/-- A thread stays at its chain. -/
theorem Move.callPc (hR : Rep L s H) (hm : Move L H pc H' pc') (h : CallPc L H call pc) :
    CallPc L H' call pc' := by
  have hmem : ∀ {c k i l}, H.chain c k = l ++ [i] → H.use i = .slab c k := fun {c k i l} hlast =>
    (hR.mem_chain c k i).1 (by rw [hlast]; simp)
  cases hm with
  | @head cpu size i k l _ hsz _ hlist =>
    obtain rfl : call = (cpu, size) := h
    exact ⟨i, k, rfl, rfl, hsz, (hR.mem_chain cpu k i).1 (by rw [hlist]; simp)⟩
  | full hu _ =>
    obtain ⟨rfl, hcall⟩ := CallPc.class_eq h hu
    exact ⟨_, _, rfl, rfl, hcall, hu⟩
  | next hu huj =>
    obtain ⟨rfl, hcall⟩ := CallPc.class_eq h hu
    exact ⟨_, _, rfl, rfl, hcall, huj⟩
  | last hlast =>
    obtain ⟨rfl, hcall⟩ := CallPc.class_eq h (hmem hlast)
    exact ⟨_, _, rfl, rfl, hcall, hmem hlast⟩
  | grow hlast _ _ _ =>
    obtain ⟨rfl, hcall⟩ := CallPc.class_eq h (hmem hlast)
    exact ⟨_, _, rfl, rfl, hcall, Function.update_self _ _ _⟩
  | _ => exact trivial

/-- The other threads stay at theirs, since slab pages stay slab pages. -/
theorem CallPc.mono (h : CallPc L H call pc)
    (hslab : ∀ i c k, H.use i = .slab c k → H'.use i = .slab c k) : CallPc L H' call pc := by
  cases pc with
  | slabAlloc slab size | readNext slab size | addSlab slab size | newSlab slab size =>
    obtain ⟨i, k, hi, hsz, hcall, hu⟩ := h
    exact ⟨i, k, hi, hsz, hcall, hslab i call.1 k hu⟩
  | _ => exact h

/-! ## From the invariant -/

/-- A slab page is in its own chain and in no other. -/
theorem InvAt.existsUnique_onChain (h : InvAt P L S H) (hu : H.use i = .slab c k) :
    ∃! ck : Nat × Nat, (ck.1 < P.cpuCount ∧ ck.2 < slabSize) ∧
      OnChain S.pmm ck.1 ck.2 (L.page i) := by
  have hmem := (h.rep.mem_chain c k i).2 hu
  have hne := List.ne_nil_of_mem hmem
  refine ⟨(c, k), ⟨(h.chained c k).1 hne, _, h.rep.chain c k hne, List.mem_map_of_mem hmem⟩, ?_⟩
  rintro ⟨c', k'⟩ ⟨hck', hon⟩
  obtain ⟨j, hj, hu'⟩ := hon.exists_page h.rep ((h.chained c' k').2 hck')
  obtain rfl := L.page_inj hj
  rw [hu] at hu'
  cases hu'
  rfl

/-- A page that a control point of a call is about is in the chain that serves the call. -/
theorem InvAt.onCallersChain (h : InvAt P L S H) (hu : H.use i = .slab call.1 k)
    (hcall : kallocSize call.2 = slotSz k) : OnCallersChain P S.pmm call (L.page i) := by
  have hmem := (h.rep.mem_chain call.1 k i).2 hu
  have hne := List.ne_nil_of_mem hmem
  obtain ⟨hcpu, hk⟩ := (h.chained call.1 k).1 hne
  refine ⟨hcpu, k, hk, ?_, _, h.rep.chain call.1 k hne, List.mem_map_of_mem hmem⟩
  rw [hcall, getSlabIndex_slotSz hk]

/-- The invariant of undisturbed runs. -/
structure GrowAt (P : Platform) (L : Layout) (S : Sys) (calls : Calls) (H : Heap) : Prop where
  inv : InvAt P L S H
  slabPc : ∀ t, SlabPc (S.pc t)
  callPc : ∀ t, CallPc L H (calls t) (S.pc t)
  running : S.halted = none

theorem GrowAt.growthSafe (hg : GrowAt P L S calls H) : GrowthSafe P S calls := by
  have h := hg.inv
  have hR := h.rep
  have hle := L.nMeta_le
  refine ⟨hg.running, fun c k hc hk => ?_, fun i hi halloc hslab => ?_, fun t prev size hpc => ?_,
    fun t slab size hpc => ?_⟩
  · have hne := (h.chained c k).2 ⟨hc, hk⟩
    have hlink := hR.chain c k hne
    exact ⟨_, by simpa using hne, hlink.nodup, hlink⟩
  · rw [hR.globals.nMeta] at hi
    rw [hR.globals.gStart]
    have hentry := hR.entry i (by omega)
    have hslab' : load S.pmm.mem (L.entry i + 17) 1 ≠ 0 := by
      unfold State.isSlab State.get at hslab
      rwa [hR.globals.metaAt, bne_iff_ne] at hslab
    -- the entry says that the page is a slab page
    cases hu : H.use i with
    | free =>
      rw [(hR.isAlloc_iff (by omega)).2 hu] at halloc
      cases halloc
    | slab c k => exact h.existsUnique_onChain hu
    | block f n =>
      rw [hu] at hentry
      exact absurd hentry.2.1 hslab'
    | junk =>
      have := hR.junk i hu
      omega
  · have hcall := hg.callPc t
    rw [hpc] at hcall
    obtain ⟨i, k, rfl, -, hsz, hu⟩ := hcall
    exact h.onCallersChain hu hsz
  · have hcall := hg.callPc t
    rw [hpc] at hcall
    obtain ⟨i, k, rfl, -, hsz, hu⟩ := hcall
    exact ⟨h.existsUnique_onChain hu, h.onCallersChain hu hsz⟩

/-! ## Undisturbed steps -/

theorem GrowAt.scansDecided (h : GrowAt P L S calls H) : ScansDecided L S := fun t n hpc => by
  have hpc' := h.slabPc t
  rw [hpc] at hpc'
  exact hpc'.elim

theorem GrowAt.with_pc {live' : Nat → Option Nat} (h : GrowAt P L S calls H)
    (hinv : InvAt P L { S with pc := Function.update S.pc t pc', live := live' } H)
    (hpc : SlabPc pc') (hcall : CallPc L H (calls' t) pc')
    (hother : ∀ u, u ≠ t → calls' u = calls u) :
    GrowAt P L { S with pc := Function.update S.pc t pc', live := live' } calls' H := by
  refine ⟨hinv, (Function.forall_update_iff S.pc fun _ => SlabPc).2 ⟨hpc, fun u _ => h.slabPc u⟩,
    (Function.forall_update_iff S.pc fun u => CallPc L H (calls' u)).2
      ⟨hcall, fun u hut => ?_⟩, h.running⟩
  rw [hother u hut]
  exact h.callPc u

theorem GrowAt.step {a : Label} (h : GrowAt P L S calls H) (hstep : Step P S a S')
    (hcalls : CallsOnly slabCall S a S') (hready : Undisturbed S a S') :
    ∃ H', GrowAt P L S' (lastCall a calls) H' := by
  cases hstep with
  | @kalloc t cpu size _ hpc hcpu =>
    refine ⟨H, h.with_pc (h.inv.kalloc hpc hcpu) (hcalls _ _ _ rfl) ?_ fun u hut => ?_⟩
    · rw [lastCall, Function.update_self]
      rfl
    · rw [lastCall, Function.update_of_ne hut]
  | kfree _ hpc hlive hnone =>
    exact ⟨H, h.with_pc (h.inv.kfree hpc hlive hnone) trivial trivial fun _ _ => rfl⟩
  | write _ hlive honly => exact ⟨H, h.inv.write hlive honly, h.slabPc, h.callPc, h.running⟩
  | @exec t s' pc' _ hexec =>
    obtain ⟨H', hm, h'⟩ := h.inv.exec h.scansDecided hexec
    have hR := h.inv.rep
    exact ⟨H', h', (Function.forall_update_iff S.pc fun _ => SlabPc).2
        ⟨hm.slabPc (h.slabPc t), fun u _ => h.slabPc u⟩,
      (Function.forall_update_iff S.pc fun u => CallPc L H' (calls u)).2
        ⟨hm.callPc hR (h.callPc t), fun u _ => (h.callPc u).mono fun i c k => hm.use_slab hR⟩,
      h.running⟩
  | @halt t e _ herr =>
    rcases h.inv.exec_cases h.scansDecided t with ⟨-, s', H', pc', hrun, -⟩ | ⟨hnot, -⟩
    · rw [herr] at hrun
      cases hrun
    · exact absurd (hready t rfl) hnot
  | ret _ hpc => exact ⟨H, h.with_pc (h.inv.ret hpc) trivial trivial fun _ _ => rfl⟩

/-- **Run lemma.** -/
theorem exists_growAt (hr : UndisturbedRun P (S, calls)) : ∃ L H, GrowAt P L S calls H := by
  have hacc : P.Accepted := by
    refine Reach.invariant (I := fun _ => P.Accepted) ?_ ?_ hr
    · rintro x ⟨⟨m, hm⟩, -⟩
      exact accepted_of_pmmInit hm
    · exact fun _ _ _ _ h _ => h
  have hlim : P.nMeta ≤ metaSz := Nat.le_of_lt hacc.1
  refine ⟨P.layout P.nMeta (le_refl _) hlim, ?_⟩
  refine Reach.invariant (I := fun x => ∃ H, GrowAt P _ x.1 x.2 H) ?_ ?_ hr
  · intro x hinit
    obtain ⟨-, m, h⟩ := invAt_of_init (le_refl _) hlim hinit
    obtain ⟨-, hidle, -, hrunning⟩ := hinit
    refine ⟨_, h, fun t => ?_, fun t => ?_, hrunning⟩
    · rw [hidle]
      trivial
    · rw [hidle]
      trivial
  · rintro x a ⟨S', calls'⟩ - ⟨H, h⟩ ⟨⟨⟨hstep, hcalls⟩, hready⟩, rfl⟩
    exact h.step hstep hcalls hready

/-- In such runs a section succeeds exactly when its thread has not been disturbed. -/
theorem GrowAt.exec_iff (h : GrowAt P L S calls H) (t : Tid) :
    (∃ s' pc', exec P S.pmm (S.pc t) = .ok (s', pc')) ↔ Ready S.pmm (S.pc t) := by
  rcases h.inv.exec_cases h.scansDecided t with ⟨hready, s', H', pc', hrun, -⟩ | ⟨hnot, herr⟩
  · exact ⟨fun _ => hready, fun _ => ⟨s', pc', hrun⟩⟩
  · refine ⟨?_, fun hready => absurd hready hnot⟩
    rintro ⟨s', pc', hrun⟩
    rw [herr] at hrun
    cases hrun

/-- A section that succeeds goes on with the run. -/
theorem UndisturbedRun.exec {s' : State} (hr : UndisturbedRun P (S, calls))
    (hexec : Pmm.exec P S.pmm (S.pc t) = .ok (s', pc')) :
    ∃ S', UndisturbedRun P (S', calls) ∧ S'.pmm = s' ∧ S'.pc t = pc' := by
  obtain ⟨L, H, h⟩ := exists_growAt hr
  refine ⟨_, hr.step (a := .exec t) ⟨⟨⟨.exec h.running hexec, nofun⟩, ?_⟩, rfl⟩, rfl,
    Function.update_self _ _ _⟩
  rintro _ ⟨⟩
  exact (h.exec_iff t).1 ⟨s', pc', hexec⟩

/-- A run that has not halted has not been disturbed. -/
theorem undisturbed_of_running
    (hr : Reach (Init P) (Restrict (Step P) (CallsOnly slabCall)) S) (hrunning : S.halted = none) :
    Reach (Init P) (Restrict (Restrict (Step P) (CallsOnly slabCall)) Undisturbed) S := by
  induction hr with
  | init h0 => exact .init h0
  | @step S S' a _ hs ih =>
    obtain ⟨hstep, hcalls⟩ := hs
    cases hstep with
    | kalloc hrun hpc hcpu => exact (ih hrun).step ⟨⟨.kalloc hrun hpc hcpu, hcalls⟩, nofun⟩
    | kfree hrun hpc hlive hnone =>
      exact (ih hrun).step ⟨⟨.kfree hrun hpc hlive hnone, hcalls⟩, nofun⟩
    | write hrun hlive honly => exact (ih hrun).step ⟨⟨.write hrun hlive honly, hcalls⟩, nofun⟩
    | @exec t s' pc' hrun hexec =>
      refine (ih hrun).step ⟨⟨.exec hrun hexec, hcalls⟩, ?_⟩
      rintro _ ⟨⟩
      -- its section has succeeded
      obtain ⟨calls, hrec⟩ := (ih hrun).record lastCall fun _ => (0, 0)
      obtain ⟨L, H, h⟩ := exists_growAt hrec
      exact (h.exec_iff t).1 ⟨s', pc', hexec⟩
    | halt _ _ => cases hrunning
    | ret hrun hpc => exact (ih hrun).step ⟨⟨.ret hrun hpc, hcalls⟩, nofun⟩

/-! ## The two sections that grow a chain -/

/-- The linked page in terms of lists. -/
theorem Rep.appended {s' : State} {j : Nat} {l : List Nat} {nodes : List (Nat × Nat)}
    (hR : Rep L s H) (hch : Chained P H) (hk : k < slabSize) (hlast : H.chain call.1 k = l ++ [i])
    (hcall : kallocSize call.2 = slotSz k) (hR' : Rep L s' (H.link call.1 k j nodes)) :
    Appended P s s' call (L.page i) (L.page j) := by
  have hchain : ∀ c' k', (H.link call.1 k j nodes).chain c' k' =
      if c' = call.1 ∧ k' = k then H.chain call.1 k ++ [j] else H.chain c' k' := fun _ _ => rfl
  have hne : H.chain call.1 k ≠ [] := by
    rw [hlast]
    simp
  refine ⟨k, l.map L.page, by rw [hcall, getSlabIndex_slotSz hk], ?_, ?_, ?_⟩
  · have hlink := hR.chain call.1 k hne
    rw [hlast] at hlink
    simpa using hlink
  · have hlink := hR'.chain call.1 k (by rw [hchain, if_pos ⟨rfl, rfl⟩]; simp)
    rw [hchain, if_pos ⟨rfl, rfl⟩, hlast] at hlink
    simpa using hlink
  · intro c' k' l' hc' hk' hother hl'
    have hne' := (hch c' k').2 ⟨hc', hk'⟩
    have hlink := hR'.chain c' k' (by rwa [hchain, if_neg hother])
    rw [hchain, if_neg hother] at hlink
    rwa [hl'.unique (hR.chain c' k' hne')]

/-- The thread that has obtained a page gets a slot of it, unless it is disturbed. -/
theorem exec_newSlab (hR : Rep L s H) (hu : H.use i = .slab c k)
    (hready : Ready s (.newSlab (L.page i) (slotSz k))) :
    ∃ s' p, exec P s (.newSlab (L.page i) (slotSz k)) = .ok (s', .ret p (slotSz k)) ∧
      IsSlot s (L.page i) p ∧ SlotFree s (L.page i) p := by
  obtain ⟨-, -, hsp⟩ := hR.slab i c k hu
  have hfree := (hR.ready_newSlab hu).1 hready
  rcases hR.slabAlloc_slot hu with ⟨hnil, -⟩ | ⟨p, n, l, m', -, hrun, hslot, -, hallot⟩
  · exact absurd hnil hfree
  · refine ⟨{ s with mem := m' }, p, ?_, (isSlot_iff hsp).2 hslot, (slotFree_iff hsp hslot).2 ?_⟩
    · rw [exec, hrun, ok_bind]
      simp only [check_pos hallot.ne_zero, ok_bind]
      rfl
    · -- the slot was not handed out before
      by_contra hcon
      exact hallot.fresh _ (.slot hu hslot hcon)

/-! ## A run into the window -/

/-- One CPU and one size. -/
def fullSizeCall (_ : Tid) (cpu size : Nat) : Prop := cpu = 0 ∧ size = 4096

/-- A new slab page has at least one slot. -/
theorem exists_fullChunks (hk : k < slabSize) (hb : gpageSz ∣ b)
    (hword : b + gpageSz + 4096 ≤ 2 ^ 64) :
    ∃ n a, fullChunks b k = [(a, (n + 1) * slotSz k)] := by
  obtain ⟨hdvd, -, hhigh, -⟩ := firstSlot hk hb hword
  have hsz : slotSz k ≤ 4096 := slotSz_le hk
  have hg : gpageSz = 65536 := rfl
  have hend : slotSz k ∣ b + gpageSz :=
    Nat.dvd_add ((slotSz_dvd_gpageSz hk).trans hb) (slotSz_dvd_gpageSz hk)
  obtain ⟨q, hq⟩ := Nat.dvd_sub hend hdvd
  have hpos : 0 < q := by
    rcases Nat.eq_zero_or_pos q with rfl | hpos
    · rw [Nat.mul_zero] at hq
      omega
    · exact hpos
  refine ⟨q - 1, roundUp (b + payloadOff) (slotSz k), ?_⟩
  rw [fullChunks, hq, Nat.sub_add_cancel hpos, Nat.mul_comm]

/-- Calls on their own use up the slots of the first page of a chain. -/
theorem At.drain {l : List Nat} {pcs : Tid → Pc} (hidle : pcs t = .idle) (hcpu : 0 < P.cpuCount)
    (hlist : H.chain 0 8 = i :: l) :
    ∀ (n a : Nat) {s : State} {H' : Heap} {live : Nat → Option Nat},
    At P fullSizeCall s pcs live → Rep L s H' → H'.use = H.use → H'.chain = H.chain →
    H'.free i = [(a, (n + 1) * slotSz 8)] →
    ∃ s' H'' live', At P fullSizeCall s' pcs live' ∧ Rep L s' H'' ∧ H''.use = H.use ∧
      H''.chain = H.chain ∧ H''.free i = [] := by
  intro n
  induction n with
  | zero =>
    intro a s H' live h hR huse hchain hfree
    obtain ⟨s', p, h', hR', -⟩ := h.kalloc_slot (k := 8) hR hidle hcpu
      (show fullSizeCall t 0 4096 from ⟨rfl, rfl⟩) (by decide) (by decide) (by decide)
      (by rw [hchain, hlist]) (by rw [hfree]; simp)
    refine ⟨s', _, _, h', hR', huse, hchain, ?_⟩
    rw [setFree_free_self, hfree, pop, if_pos (by omega)]
  | succ n ih =>
    intro a s H' live h hR huse hchain hfree
    have hpos := slotSz_pos 8
    obtain ⟨s', p, h', hR', -⟩ := h.kalloc_slot (k := 8) hR hidle hcpu
      (show fullSizeCall t 0 4096 from ⟨rfl, rfl⟩) (by decide) (by decide) (by decide)
      (by rw [hchain, hlist]) (by rw [hfree]; simp)
    refine ih (a + slotSz 8) h' hR' huse hchain ?_
    have hlen : (n + 1 + 1) * slotSz 8 = (n + 1) * slotSz 8 + slotSz 8 := Nat.succ_mul _ _
    have hne : (n + 1) * slotSz 8 ≠ 0 := (Nat.mul_pos (by omega) hpos).ne'
    rw [setFree_free_self, hfree, pop, if_neg (by omega), hlen, Nat.add_sub_cancel]

/-- A call finds the only page of its chain full, and gets to the growth of the chain. -/
theorem At.exhausted {pcs : Tid → Pc} {live : Nat → Option Nat} (h : At P fullSizeCall s pcs live)
    (hR : Rep L s H) (hidle : pcs t = .idle) (hcpu : 0 < P.cpuCount) (hlist : H.chain 0 8 = [i])
    (hfree : H.free i = []) :
    At P fullSizeCall s (Function.update pcs t (.addSlab (L.page i) (slotSz 8))) live := by
  have hu : H.use i = .slab 0 8 := (hR.mem_chain 0 8 i).1 (by rw [hlist]; simp)
  have h₁ := h.kalloc hidle hcpu (show fullSizeCall t 0 4096 from ⟨rfl, rfl⟩)
  have h₂ := h₁.exec (Function.update_self _ _ _) rfl
    (exec_kalloc hR hcpu (by decide) (k := 8) (by decide) (by decide) hlist)
  have h₃ := h₂.exec (Function.update_self _ _ _) rfl (exec_slabAlloc_nil hR hu hfree)
  have h₄ := h₃.exec (Function.update_self _ _ _) rfl (exec_readNext_last (l := []) hR hu hlist)
  simp only [Function.update_idem] at h₄
  exact h₄

/-- Threads 0 and 1 have both found the chain full. -/
def inWindow (L : Layout) : Tid → Pc :=
  Function.update (Function.update (fun _ => .idle) 0 (.addSlab (L.page 8) (slotSz 8))) 1
    (.addSlab (L.page 8) (slotSz 8))

/-- A run into the window, and the first of the two sections that follow. -/
theorem exists_inWindow : ∃ (L : Layout) (s s' : State) (H' : Heap) (live : Nat → Option Nat)
    (j : Nat), At (.sample 20) fullSizeCall s (inWindow L) live ∧
      exec (.sample 20) s (.addSlab (L.page 8) (slotSz 8)) =
        .ok (s', .newSlab (L.page j) (slotSz 8)) ∧
      Rep L s' H' ∧ j ≠ 8 ∧ H'.chain 0 8 = [8, j] ∧ H'.free j ≠ [] ∧
      ∃ d, d < L.nMeta ∧ H'.use d = .free := by
  obtain ⟨L, s, H, hL, hH, h, hR⟩ := exists_at_boot (P := .sample 20) fullSizeCall (by decide)
    (by decide) fun _ => 0
  have hnMeta : L.nMeta = 20 := by rw [hL]; decide
  have hchain : H.chain 0 8 = [8] := by rw [hH]; rfl
  have huse : H.use 8 = .slab 0 8 := (hR.mem_chain 0 8 8).1 (by rw [hchain]; simp)
  have hspare : ∀ j, 9 ≤ j → j < 20 → H.use j = .free := fun j hj hj' => by
    have hnine : slabSize * (Platform.sample 20).cpuCount = 9 := rfl
    rw [hH]
    exact boot_use_free (by omega) (by omega)
  -- the slots of the only page are used up
  obtain ⟨n, a, hfree⟩ : ∃ n a, H.free 8 = [(a, (n + 1) * slotSz 8)] := by
    rw [hH]
    exact exists_fullChunks (by decide) (L.page_dvd 8) (L.page_end (by omega))
  obtain ⟨s₁, H₁, live₁, h₁, hR₁, huse₁, hchain₁, hfree₁⟩ :=
    At.drain (t := 0) rfl (by decide) hchain n a h hR rfl rfl hfree
  have hchain₁' : H₁.chain 0 8 = [8] := by rw [hchain₁, hchain]
  rw [← huse₁] at huse hspare
  -- both threads get to the growth of the chain
  have h₂ := h₁.exhausted (t := 0) hR₁ rfl (by decide) hchain₁' hfree₁
  have h₃ := h₂.exhausted (t := 1) hR₁ rfl (by decide) hchain₁' hfree₁
  -- the first one extends it
  have hlast : s₁.next (L.page 8) = 0 := (hR₁.next_eq_zero_iff huse).2 ⟨[], hchain₁'⟩
  rcases exec_addSlab (P := .sample 20) hR₁ huse with
    ⟨hfull, -⟩ | ⟨j, hj, hjfree, ⟨hnext, -⟩ | ⟨s', l, -, hexec, hR'⟩⟩
  · exact absurd (hspare 9 (by omega) (by omega)) (hfull 9 (by omega))
  · exact absurd hlast hnext
  have hj8 : j ≠ 8 := by
    rintro rfl
    rw [huse] at hjfree
    cases hjfree
  refine ⟨L, s₁, s', _, live₁, j, h₃, hexec, hR', hj8, by simp [Heap.link, hchain₁'],
    by simp [Heap.link, fullChunks], ?_⟩
  -- and leaves a free page
  obtain ⟨d, hd, hd', hdj⟩ : ∃ d, 9 ≤ d ∧ d < 20 ∧ d ≠ j := by
    by_cases hj9 : j = 9
    · exact ⟨10, by omega, by omega, by omega⟩
    · exact ⟨9, by omega, by omega, fun heq => hj9 heq.symm⟩
  exact ⟨d, by omega, (Function.update_of_ne hdj _ _).trans (hspare d hd hd')⟩

/-! ## All runs -/

/-- **Undisturbed growth is safe**, for threads on any CPUs with requests of slab
classes. In such runs a critical section succeeds if and only if its thread has not
been disturbed; `add_slab` then puts the page it obtains behind the last page of its
caller's chain, and the thread gets a slot of that page. -/
theorem growthSafe_of_undisturbed (P : Platform) (S : Sys) (calls : Calls)
    (hr : UndisturbedRun P (S, calls)) :
    GrowthSafe P S calls ∧ ∀ t,
      ((∃ s' pc', exec P S.pmm (S.pc t) = .ok (s', pc')) ↔ Ready S.pmm (S.pc t)) ∧
      (∀ prev size, S.pc t = .addSlab prev size → Ready S.pmm (S.pc t) →
        (exec P S.pmm (S.pc t) = .ok (S.pmm, .ret 0 0) ∧
            ∀ i, i < S.pmm.nMeta → S.pmm.isAlloc i = true) ∨
          ∃ s' slab, exec P S.pmm (S.pc t) = .ok (s', .newSlab slab size) ∧
            Appended P S.pmm s' (calls t) prev slab ∧ Ready s' (.newSlab slab size)) ∧
      ∀ slab size, S.pc t = .newSlab slab size → Ready S.pmm (S.pc t) →
        ∃ s' p, exec P S.pmm (S.pc t) = .ok (s', .ret p size) ∧ IsSlot S.pmm slab p ∧
          SlotFree S.pmm slab p := by
  obtain ⟨L, H, h⟩ := exists_growAt hr
  have hR := h.inv.rep
  refine ⟨h.growthSafe, fun t => ⟨h.exec_iff t, fun prev size hpc hready => ?_,
    fun slab size hpc hready => ?_⟩⟩
  · have hcall := h.callPc t
    rw [hpc] at hcall hready ⊢
    obtain ⟨i, k, rfl, rfl, hsz, hu⟩ := hcall
    obtain ⟨-, hk, -⟩ := hR.slab i _ k hu
    rcases exec_addSlab (P := P) hR hu with
      ⟨hfull, hrun⟩ | ⟨j, hj, hfree, ⟨hnext, -⟩ | ⟨s', l, hlast, hrun, hR'⟩⟩
    · exact .inl ⟨hrun, hR.isAlloc_all_iff.2 hfull⟩
    · -- that would be a disturbance
      rcases (hR.ready_addSlab hu).1 hready with hlast | hfull
      · exact absurd ((hR.next_eq_zero_iff hu).2 hlast) hnext
      · exact absurd hfree (hfull j hj)
    · refine .inr ⟨s', _, hrun, hR.appended h.inv.chained hk hlast hsz hR', ?_⟩
      refine (hR'.ready_newSlab (Function.update_self _ _ _)).2 ?_
      rw [show (H.link _ k j (fullChunks (L.page j) k)).free j = _ from Function.update_self _ _ _]
      simp [fullChunks]
  · have hok := h.inv.pcOk t
    rw [hpc] at hok hready ⊢
    obtain ⟨i, c, k, rfl, rfl, hu⟩ := hok
    exact exec_newSlab hR hu hready

/-- Both threads have found the chain full; thread 0 extends it and gets its slot, while
thread 1 waits. -/
theorem growthSafe_inWindow : ∃ (S S₁ S₂ : Sys) (calls : Calls) (prev slab p : Nat),
    UndisturbedRun (.sample 20) (S, calls) ∧ GrowthSafe (.sample 20) S calls ∧
      S.pc 0 = .addSlab prev 4096 ∧ S.pc 1 = .addSlab prev 4096 ∧
    UndisturbedRun (.sample 20) (S₁, calls) ∧ GrowthSafe (.sample 20) S₁ calls ∧
      S₁.pc 0 = .newSlab slab 4096 ∧ Appended (.sample 20) S.pmm S₁.pmm (calls 0) prev slab ∧
    UndisturbedRun (.sample 20) (S₂, calls) ∧ GrowthSafe (.sample 20) S₂ calls ∧
      S₂.pc 0 = .ret p 4096 ∧ IsSlot S₁.pmm slab p := by
  obtain ⟨L, s, s', -, live, j, h, hexec, -⟩ := exists_inWindow
  have hslabCalls : Reach (Init (.sample 20)) (Restrict (Step (.sample 20)) (CallsOnly slabCall))
      ⟨s, inWindow L, live, none⟩ :=
    h.mono fun S a S' ⟨hstep, hfull⟩ => ⟨hstep, fun t cpu size heq => by
      obtain ⟨-, rfl⟩ := hfull t cpu size heq
      exact le_refl _⟩
  obtain ⟨S, hS, hpmm, hpc₀, hpc₁⟩ : ∃ S, Reach (Init (.sample 20))
      (Restrict (Restrict (Step (.sample 20)) (CallsOnly slabCall)) Undisturbed) S ∧ S.pmm = s ∧
      S.pc 0 = .addSlab (L.page 8) (slotSz 8) ∧ S.pc 1 = .addSlab (L.page 8) (slotSz 8) :=
    ⟨_, undisturbed_of_running hslabCalls rfl, rfl, by simp [inWindow], by simp [inWindow]⟩
  obtain ⟨calls, hr⟩ : ∃ calls, UndisturbedRun (.sample 20) (S, calls) :=
    hS.record lastCall fun _ => (0, 0)
  obtain ⟨hsafe, hsections⟩ := growthSafe_of_undisturbed _ _ _ hr
  obtain ⟨hiff, hgrow, -⟩ := hsections 0
  rw [← hpmm, ← hpc₀] at hexec
  -- thread 0 extends the chain
  rcases hgrow _ _ hpc₀ (hiff.1 ⟨_, _, hexec⟩) with
    ⟨hnone, -⟩ | ⟨s₁, slab, hexec₁, happended, hready₁⟩
  · rw [hexec] at hnone
    cases hnone
  obtain ⟨S₁, hr₁, rfl, hpc₂⟩ := hr.exec hexec₁
  -- and takes a slot of the new page
  obtain ⟨hsafe₁, hsections₁⟩ := growthSafe_of_undisturbed _ _ _ hr₁
  obtain ⟨-, -, hslot⟩ := hsections₁ 0
  rw [← hpc₂] at hready₁
  obtain ⟨s₂, p, hexec₂, hisSlot, -⟩ := hslot slab _ hpc₂ hready₁
  obtain ⟨S₂, hr₂, -, hpc₃⟩ := hr₁.exec hexec₂
  exact ⟨S, S₁, S₂, calls, _, slab, p, hr, hsafe, hpc₀, hpc₁, hr₁, hsafe₁, hpc₂, happended, hr₂,
    (growthSafe_of_undisturbed _ _ _ hr₂).1, hpc₃, hisSlot⟩

/-! ## Two threads in the window -/

/-- **Two threads that find the chain full at once** halt the machine: one of them
extends the chain, the other one has got a page when it finds the chain extended. -/
theorem growth_disturbed : ∃ S calls, Reach (fun x => Init (.sample 20) x.1)
      (Recording lastCall (Restrict (Step (.sample 20)) (CallsOnly fullSizeCall))) (S, calls) ∧
    S.halted = some .assertion ∧ ¬ GrowthSafe (.sample 20) S calls := by
  obtain ⟨L, s, s', H', live, j, h, hexec, hR', hj8, hchain, -, d, hd, hdfree⟩ := exists_inWindow
  have h₁ := h.exec (t := 0) (by simp [inWindow]) rfl hexec
  -- the second one gets another page, and its assertion fails
  have huse : H'.use 8 = .slab 0 8 := (hR'.mem_chain 0 8 8).1 (by rw [hchain]; simp)
  have hfail : exec (.sample 20) s' (.addSlab (L.page 8) (slotSz 8)) = .error .assertion := by
    rcases addSlab_move (P := .sample 20) hR' huse with ⟨hready, -⟩ | ⟨-, herr⟩
    · rcases (hR'.ready_addSlab huse).1 hready with ⟨l, hl⟩ | hfull
      · rw [hchain] at hl
        have := congrArg List.getLast? hl
        simp [hj8] at this
      · exact absurd hdfree (hfull d hd)
    · exact herr
  have hcalls : ∀ S S', CallsOnly fullSizeCall S (.exec 1) S' := fun _ _ _ _ _ h => by cases h
  have hstep := Reach.step h₁ (a := .exec 1)
    ⟨.halt rfl (by simp [inWindow]; exact hfail), hcalls _ _⟩
  obtain ⟨calls, hrec⟩ := hstep.record lastCall fun _ => (0, 0)
  exact ⟨_, calls, hrec, rfl, fun hsafe => by cases hsafe.running⟩

end MyOs.Pmm
