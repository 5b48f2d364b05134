import MyOs.Lib.Locking
import MyOs.Pmm.Invariant

/-!
# The locks

The calls once more, as programs whose lock operations are steps of their own: a thread
that has taken a lock may be overtaken by others before it goes on. `add_slab` takes
`G_lock` inside of a slab's lock; no slab's lock is taken inside of any lock.

* `Locked.code` — the program of each call.
* `returns_kalloc`, `returns_kfree` — on their own the programs compute `kalloc` and `kfree`.
* `kalloc_no_deadlock` — **no deadlock**, for any number of threads.
-/

namespace MyOs.Pmm

open MyOs.Memory MyOs.Transition MyOs.Locking

-- ---------------------------------------------------------------------------
-- Critical sections without their locks
-- ---------------------------------------------------------------------------

/-- The loop of `G_alloc` inside of the lock. -/
def gAllocScan (sz : Nat) (isSlab : Bool) : Nat → State → Nat → Result (State × Nat)
  | 0, _, _ => .error .fuel
  | fuel + 1, s, tryRet => do
    let valid ← isValidRet s tryRet
    if valid = false then return (s, 0) else do
      let found ← tryAlloc s tryRet sz
      if found = true then do
        let s ← slowAlloc s tryRet sz isSlab
        return (s, tryRet)
      else gAllocScan sz isSlab fuel s ((tryRet + sz) % 2 ^ 64)

/-- `G_free` inside of the lock. -/
def gFreeRun (s : State) (ptr : Nat) : Result State := do
  check (roundDown ptr gpageSz = ptr)
  let id ← getMetaIndex s ptr
  check (0 ≤ id ∧ id < s.nMeta)
  check (s.metaStart id.toNat = ptr)
  let freeEnd := s.metaEnd id.toNat
  check (freeEnd ≠ 0)
  let nPg := toInt (((freeEnd : Int) - ptr).tdiv gpageSz)
  forLoop (fun i s => do
    check (s.isAlloc (id.toNat + i) = true)
    check (s.isSlab (id.toNat + i) = false)
    check (s.metaEnd (id.toNat + i) = freeEnd)
    let s := s.setIsAlloc (id.toNat + i) false
    return s.setMetaEnd (id.toNat + i) 0) nPg.toNat s

-- ---------------------------------------------------------------------------
-- The programs
-- ---------------------------------------------------------------------------

namespace Locked

/-- The locks of the allocator: `G_lock`, and the lock in the header of a slab. -/
inductive Lock
  | G
  | slab (b : Nat)
  deriving DecidableEq

def locks : Locks State Fault Lock where
  acquire s l :=
    match l with
    | .G => spinLockG s
    | .slab b => spinLock s b
  release s l :=
    match l with
    | .G => spinUnlockG s
    | .slab b => spinUnlock s b

abbrev Code := Prog State Fault Lock

variable {β : Type}

def assert (p : Prop) [Decidable p] : Code Unit := act fun s => do
  check p
  return (s, ())

/-- Code that leaves the state alone. -/
def read (f : State → Result β) : Code β := act fun s => do
  let b ← f s
  return (s, b)

/-- Code without a result. -/
def write (f : State → Result State) : Code Unit := act fun s => do
  let s ← f s
  return (s, ())

def gAlloc (npage : Nat) (isSlab : Bool) : Code Nat := do
  lock .G
  let sz := npage * gpageSz
  let tryRet ← act fun s => gAllocScan sz isSlab (metaSz + 1) s (roundUp s.gStart sz)
  if tryRet = 0 then do
    unlock .G
    return 0
  else do
    unlock .G
    assert (roundDown tryRet sz = tryRet)
    return tryRet

def gFree (ptr : Nat) : Code Unit := do
  lock .G
  write fun s => gFreeRun s ptr
  unlock .G

def addSlab (slab : Nat) : Code Nat := do
  assert (slab ≠ 0)
  lock (.slab slab)
  let ret ← gAlloc 1 true
  if ret = 0 then do
    unlock (.slab slab)
    return 0
  else do
    write fun s => slabInit s ret (s.sz slab)
    write fun s => do
      check (s.next slab = 0)
      return s.setNext slab ret
    unlock (.slab slab)
    return ret

def slabAlloc (slab size : Nat) : Code Nat := do
  lock (.slab slab)
  let node ← act fun s => do
    let node := s.nHead slab
    let s ← slabTake s slab size
    return (s, node)
  unlock (.slab slab)
  assert (roundDown node size = node)
  return node

/-- The locked read of `slab->next` in the loop of `S_alloc`. -/
def readNext (slab : Nat) : Code Nat := do
  lock (.slab slab)
  let next ← read fun s => return s.next slab
  unlock (.slab slab)
  return next

def sFree (ptr : Nat) : Code Unit := do
  assert (nodeBytes ≤ 16)
  let slab := roundDown ptr gpageSz
  lock (.slab slab)
  let nodeHead ← act fun s =>
    let s := s.setNodeSize ptr (s.sz slab)
    let s := s.setNodeNext ptr 0
    return (s, s.nHead slab)
  if nodeHead = 0 then do
    write fun s => return s.setNHead slab ptr
    unlock (.slab slab)
  else do
    write fun s => sFreeLoop slab ptr (gpageSz / nodeBytes + 1) s 0 nodeHead
    unlock (.slab slab)

/-- The entry points, and the head of the loop of `S_alloc`. -/
inductive Point
  | kalloc (cpu size : Nat)
  | sAlloc (size prev slab : Nat)
  | kfree (ptr : Nat)

/-- What a call returns: a block with its reserved bytes (`0` for `NULL`), or nothing. -/
inductive Ret
  | kalloc (p r : Nat)
  | kfree

abbrev Block := Code (Next Point Ret)

def kalloc (P : Platform) (cpu size : Nat) : Block :=
  if size > maxAlloc then return .done (.kalloc 0 0) else
  if kallocSize size ≤ 4096 then do
    let (size, slab) ← read fun s => sAllocHead P s cpu (kallocSize size)
    return .goto (.sAlloc size 0 slab)
  else do
    let p ← gAlloc (kallocPages (kallocSize size)) false
    return .done (.kalloc p (kallocPages (kallocSize size) * gpageSz))

/-- A round of the loop of `S_alloc`, and what follows the loop. -/
def sAlloc (size prev slab : Nat) : Block :=
  if slab ≠ 0 then do
    let ret ← slabAlloc slab size
    if ret ≠ 0 then return .done (.kalloc ret size) else do
      let next ← readNext slab
      return .goto (.sAlloc size slab next)
  else do
    assert (prev ≠ 0 ∧ slab = 0)
    let newSlab ← addSlab prev
    if newSlab = 0 then return .done (.kalloc 0 0) else do
      let ret ← slabAlloc newSlab size
      assert (ret ≠ 0)
      return .done (.kalloc ret size)

def kfree (ptr : Nat) : Block := do
  let slab ← read fun s => kfreeHead s ptr
  if slab = true then do
    sFree ptr
    return .done .kfree
  else do
    gFree ptr
    return .done .kfree

def code (P : Platform) : Point → Block
  | .kalloc cpu size => kalloc P cpu size
  | .sAlloc size prev slab => sAlloc size prev slab
  | .kfree ptr => kfree ptr

-- ---------------------------------------------------------------------------
-- The discipline
-- ---------------------------------------------------------------------------

/-- `G_lock` is taken inside of the lock of a slab. -/
def level : Lock → Nat
  | .G => 0
  | .slab _ => 1

variable {held : List Lock} {slab size : Nat}

/-- `G_alloc` may be called with the lock of a slab. -/
theorem ordered_gAlloc (h : ∀ l ∈ held, level .G < level l) (npage : Nat) (isSlab : Bool) :
    Ordered level held held (gAlloc npage isSlab) := by
  refine .bind (.lock h) fun _ => .bind (.act _) fun tryRet => ?_
  split
  · exact .bind .unlock fun _ => .pure 0
  · exact .bind .unlock fun _ => .bind (.act _) fun _ => .pure tryRet

theorem ordered_gFree (ptr : Nat) : Ordered level [] [] (gFree ptr) :=
  .bind (.lock nofun) fun _ => .bind (.act _) fun _ => .unlock

/-- Both exits of `add_slab` give back the lock. -/
theorem ordered_addSlab (slab : Nat) : Ordered level [] [] (addSlab slab) := by
  have hnest : ∀ l ∈ [Lock.slab slab], level .G < level l := by
    rintro l hl
    rw [List.mem_singleton.1 hl]
    exact Nat.zero_lt_one
  refine .bind (.act _) fun _ => .bind (.lock nofun) fun _ =>
    .bind (ordered_gAlloc hnest 1 true) fun ret => ?_
  split
  · exact .bind .unlock fun _ => .pure 0
  · exact .bind (.act _) fun _ => .bind (.act _) fun _ => .bind .unlock fun _ => .pure ret

theorem ordered_slabAlloc (slab size : Nat) : Ordered level [] [] (slabAlloc slab size) :=
  .bind (.lock nofun) fun _ => .bind (.act _) fun node => .bind .unlock fun _ =>
    .bind (.act _) fun _ => .pure node

theorem ordered_readNext (slab : Nat) : Ordered level [] [] (readNext slab) :=
  .bind (.lock nofun) fun _ => .bind (.act _) fun next => .bind .unlock fun _ => .pure next

/-- So do the early return of `S_free` and its end. -/
theorem ordered_sFree (ptr : Nat) : Ordered level [] [] (sFree ptr) := by
  refine .bind (.act _) fun _ => .bind (.lock nofun) fun _ => .bind (.act _) fun nodeHead => ?_
  split
  · exact .bind (.act _) fun _ => .unlock
  · exact .bind (.act _) fun _ => .unlock

theorem ordered_kalloc (P : Platform) (cpu size : Nat) :
    Ordered level [] [] (kalloc P cpu size) := by
  unfold kalloc
  split
  · exact .pure _
  · split
    · exact .bind (.act _) fun x => .pure _
    · have hnil : ∀ l ∈ ([] : List Lock), level .G < level l := nofun
      exact .bind (ordered_gAlloc hnil _ false) fun p => .pure _

theorem ordered_sAlloc (size prev slab : Nat) : Ordered level [] [] (sAlloc size prev slab) := by
  unfold sAlloc
  split
  · refine .bind (ordered_slabAlloc slab size) fun ret => ?_
    split
    · exact .pure _
    · exact .bind (ordered_readNext slab) fun next => .pure _
  · refine .bind (.act _) fun _ => .bind (ordered_addSlab prev) fun newSlab => ?_
    split
    · exact .pure _
    · exact .bind (ordered_slabAlloc newSlab size) fun ret => .bind (.act _) fun _ => .pure _

theorem ordered_kfree (ptr : Nat) : Ordered level [] [] (kfree ptr) := by
  refine .bind (.act _) fun slab => ?_
  split
  · exact .bind (ordered_sFree ptr) fun _ => .pure _
  · exact .bind (ordered_gFree ptr) fun _ => .pure _

/-- **Every call takes the locks downwards and gives all of them back.** -/
theorem ordered_code (P : Platform) (c : Point) : Ordered level [] [] (code P c) := by
  cases c with
  | kalloc cpu size => exact ordered_kalloc P cpu size
  | sAlloc size prev slab => exact ordered_sAlloc size prev slab
  | kfree ptr => exact ordered_kfree ptr

-- ---------------------------------------------------------------------------
-- On their own
-- ---------------------------------------------------------------------------

variable {s s' : State} {P : Platform} {p : Nat}

@[simp] theorem acquire_G : locks.acquire s .G = spinLockG s := rfl

@[simp] theorem release_G : locks.release s .G = spinUnlockG s := rfl

@[simp] theorem acquire_slab : locks.acquire s (.slab slab) = spinLock s slab := rfl

@[simp] theorem release_slab : locks.release s (.slab slab) = spinUnlock s slab := rfl

theorem run_slabAlloc : (slabAlloc slab size).run locks s = Pmm.slabAlloc s slab size := by
  unfold slabAlloc Pmm.slabAlloc
  simp only [assert, run_bind, run_lock, run_act, run_unlock, run_pure, acquire_slab, release_slab,
    bind_assoc, pure_eq_ok, ok_bind]

theorem run_readNext : (readNext slab).run locks s = Pmm.readNext s slab := by
  unfold readNext Pmm.readNext
  simp only [read, run_bind, run_lock, run_act, run_unlock, run_pure, acquire_slab, release_slab,
    bind_assoc, pure_eq_ok, ok_bind]

theorem gAllocLoop_eq (sz : Nat) (isSlab : Bool) (fuel : Nat) (s : State) (tryRet : Nat) :
    gAllocLoop sz isSlab fuel s tryRet = (do
      let (s, p) ← gAllocScan sz isSlab fuel s tryRet
      if p = 0 then return (spinUnlockG s, 0) else do
        check (roundDown p sz = p)
        return (spinUnlockG s, p)) := by
  induction fuel generalizing s tryRet with
  | zero => rfl
  | succ fuel ih =>
    rw [gAllocLoop, gAllocScan]
    cases hvalid : isValidRet s tryRet with
    | error e => rfl
    | ok valid =>
      rw [ok_bind, ok_bind]
      by_cases hfalse : valid = false
      · rw [if_pos hfalse, if_pos hfalse]
        rfl
      · -- a candidate that is valid is not `NULL`
        have hne : tryRet ≠ 0 := by
          rintro rfl
          rw [isValidRet, check_neg (by simp), error_bind] at hvalid
          cases hvalid
        rw [if_neg hfalse, if_neg hfalse]
        cases tryAlloc s tryRet sz with
        | error e => rfl
        | ok found =>
          rw [ok_bind, ok_bind]
          by_cases hfound : found = true
          · rw [if_pos hfound, if_pos hfound, bind_assoc]
            refine bind_congr fun s₁ => ?_
            simp only [pure_eq_ok, ok_bind, if_neg hne]
          · rw [if_neg hfound, if_neg hfound]
            exact ih s _

theorem run_gAlloc (npage : Nat) (isSlab : Bool) :
    (gAlloc npage isSlab).run locks s = Pmm.gAlloc s npage isSlab := by
  unfold gAlloc Pmm.gAlloc
  rw [run_bind, run_lock, acquire_G, bind_assoc]
  refine bind_congr fun s₁ => ?_
  rw [ok_bind, gAllocLoop_eq]
  dsimp only
  rw [run_bind, run_act]
  refine bind_congr fun x => ?_
  split
  · simp only [run_bind, run_unlock, run_pure, release_G, pure_eq_ok, ok_bind]
  · simp only [assert, run_bind, run_unlock, run_act, run_pure, release_G, bind_assoc, pure_eq_ok,
      ok_bind]

theorem run_gFree (ptr : Nat) :
    (gFree ptr).run locks s = do
      let s ← Pmm.gFree s ptr
      return (s, ()) := by
  unfold gFree Pmm.gFree gFreeRun
  simp only [write, run_bind, run_lock, run_act, run_unlock, acquire_G, release_G, bind_assoc,
    pure_eq_ok, ok_bind]

theorem run_addSlab : (addSlab slab).run locks s = Pmm.addSlab s slab := by
  unfold addSlab Pmm.addSlab
  simp only [assert, write, run_bind, run_act, run_lock, acquire_slab, bind_assoc, pure_eq_ok,
    ok_bind, run_gAlloc]
  refine bind_congr fun _ => bind_congr fun s₁ => bind_congr fun x => ?_
  split
  · simp only [run_bind, run_unlock, run_pure, release_slab, ok_bind]
  · simp only [run_bind, run_act, run_unlock, run_pure, release_slab, bind_assoc, ok_bind]

theorem run_sFree (ptr : Nat) :
    (sFree ptr).run locks s = do
      let s ← Pmm.sFree s ptr
      return (s, ()) := by
  unfold sFree Pmm.sFree
  simp only [assert, write, run_bind, run_act, run_lock, acquire_slab, bind_assoc, pure_eq_ok,
    ok_bind]
  refine bind_congr fun _ => bind_congr fun s₁ => ?_
  split
  · simp only [run_bind, run_act, run_unlock, release_slab, ok_bind]
  · simp only [run_bind, run_act, run_unlock, release_slab, bind_assoc, ok_bind]

-- ---------------------------------------------------------------------------
-- Threads
-- ---------------------------------------------------------------------------

/-- The calls of the clients, who know the live blocks with their reserved bytes. -/
inductive Calls (P : Platform) : (Nat → Option Nat) → Point → (Nat → Option Nat) → Prop
  | kalloc {live : Nat → Option Nat} {cpu size : Nat} : cpu < P.cpuCount →
      Calls P live (.kalloc cpu size) live
  | kfree {live : Nat → Option Nat} {p r : Nat} : live p = some r →
      Calls P live (.kfree p) (Function.update live p none)

/-- The live blocks after the return of a call. -/
def returned (live : Nat → Option Nat) : Ret → Nat → Option Nat
  | .kalloc p r => if p = 0 then live else Function.update live p (some r)
  | .kfree => live

/-- The allocator and its clients, who write what they like into live blocks. -/
def system (P : Platform) : System State Fault Lock Point Ret (Nat → Option Nat) where
  locks := locks
  code := code P
  call := Calls P
  ret := returned
  client live s s' := ∃ p r m', live p = some r ∧ OnlyIn s.mem m' p (p + r) ∧
    s' = { s with mem := m' }

abbrev LockSys := Threads Tid State Fault Lock Point Ret (Nat → Option Nat)

/-- `pmm_init` has run, no thread has called yet. -/
def Init (P : Platform) (T : LockSys) : Prop :=
  (∃ m, pmmInit P m = .ok T.state) ∧ (∀ p, T.clients p = none) ∧ Idle T

/-- The states of all interleavings. -/
def Reachable (P : Platform) : LockSys → Prop := Reach (Init P) (Locking.Step (system P))

/-- The loop of `S_alloc` on its own. -/
theorem returns_sAllocLoop : ∀ (fuel : Nat) (s : State) (prev slab : Nat),
    sAllocLoop size fuel s prev slab = .ok (s', p) →
    ∃ r, Returns (system P) s (.sAlloc size prev slab) s' (.kalloc p r)
  | 0, _, _, _, h => nomatch h
  | fuel + 1, s, prev, slab, h => by
    have hrun : ((system P).code (.sAlloc size prev slab)).run (system P).locks s =
      (sAlloc size prev slab).run locks s := rfl
    rw [sAlloc] at hrun
    rw [sAllocLoop] at h
    by_cases hslab : slab ≠ 0
    · rw [if_pos hslab] at h hrun
      obtain ⟨⟨s₁, ret⟩, halloc, h⟩ := bind_eq_ok.1 h
      rw [run_bind, run_slabAlloc, halloc, ok_bind] at hrun
      by_cases hret : ret ≠ 0
      · simp only [if_pos hret] at h hrun
        cases h
        exact ⟨size, .done hrun⟩
      · -- the slab is full: the next round
        simp only [if_neg hret] at h hrun
        obtain ⟨⟨s₂, next⟩, hnext, h⟩ := bind_eq_ok.1 h
        rw [run_bind, run_readNext, hnext, ok_bind] at hrun
        obtain ⟨r, hrest⟩ := returns_sAllocLoop fuel s₂ slab next h
        exact ⟨r, .goto hrun hrest⟩
    · rw [if_neg hslab] at h hrun
      obtain ⟨⟨⟩, hcheck, h⟩ := bind_eq_ok.1 h
      obtain ⟨⟨s₁, newSlab⟩, hadd, h⟩ := bind_eq_ok.1 h
      rw [run_bind, assert, run_act, hcheck, ok_bind, pure_eq_ok, ok_bind, run_bind, run_addSlab,
        hadd, ok_bind] at hrun
      by_cases hnew : newSlab = 0
      · simp only [if_pos hnew] at h hrun
        cases h
        exact ⟨0, .done hrun⟩
      · simp only [if_neg hnew] at h hrun
        obtain ⟨⟨s₂, ret⟩, halloc, h⟩ := bind_eq_ok.1 h
        obtain ⟨⟨⟩, hret, h⟩ := bind_eq_ok.1 h
        cases h
        rw [run_bind, run_slabAlloc, halloc, ok_bind, run_bind, assert, run_act, hret, ok_bind,
          pure_eq_ok, ok_bind] at hrun
        exact ⟨size, .done hrun⟩

/-- **On its own the program of `kalloc` computes `kalloc`.** -/
theorem returns_kalloc {cpu : Nat} (h : Pmm.kalloc P s cpu size = .ok (s', p)) :
    ∃ r, Returns (system P) s (.kalloc cpu size) s' (.kalloc p r) := by
  have hrun : ((system P).code (.kalloc cpu size)).run (system P).locks s =
    (kalloc P cpu size).run locks s := rfl
  rw [kalloc] at hrun
  unfold Pmm.kalloc at h
  by_cases hbig : size > maxAlloc
  · rw [if_pos hbig] at h hrun
    cases h
    exact ⟨0, .done hrun⟩
  rw [if_neg hbig] at h hrun
  by_cases hsmall : kallocSize size ≤ 4096
  · rw [if_pos hsmall] at h hrun
    unfold Pmm.sAlloc at h
    obtain ⟨⟨sz, slab⟩, hhead, h⟩ := bind_eq_ok.1 h
    rw [run_bind, read, run_act, hhead, ok_bind, pure_eq_ok, ok_bind] at hrun
    obtain ⟨r, hrest⟩ := returns_sAllocLoop (P := P) _ s 0 slab h
    exact ⟨r, .goto hrun hrest⟩
  · rw [if_neg hsmall] at h hrun
    rw [run_bind, run_gAlloc, h, ok_bind] at hrun
    exact ⟨_, .done hrun⟩

/-- **On its own the program of `kfree` computes `kfree`.** -/
theorem returns_kfree (h : Pmm.kfree s p = .ok s') :
    Returns (system P) s (.kfree p) s' .kfree := by
  have hrun : ((system P).code (.kfree p)).run (system P).locks s = (kfree p).run locks s := rfl
  rw [kfree] at hrun
  obtain ⟨slab, hhead, h⟩ := bind_eq_ok.1 h
  rw [run_bind, read, run_act, hhead, ok_bind, pure_eq_ok, ok_bind] at hrun
  by_cases hslab : slab = true
  · simp only [if_pos hslab] at h hrun
    rw [run_bind, run_sFree, h, ok_bind, pure_eq_ok, ok_bind] at hrun
    exact .done hrun
  · simp only [if_neg hslab] at h hrun
    rw [run_bind, run_gFree, h, ok_bind, pure_eq_ok, ok_bind] at hrun
    exact .done hrun

variable {T : LockSys} {t : Tid} {k cpu : Nat}

/-- A call that nobody overtakes returns what `kalloc` computes. -/
theorem exists_kalloc_ret (hr : Reachable P T) (ht : T.prog t = none) (hcpu : cpu < P.cpuCount)
    (hcall : Pmm.kalloc P T.state cpu size = .ok (s', p)) :
    ∃ T' r, Reachable P T' ∧ T'.state = s' ∧ T'.prog t = some (.ret (.done (.kalloc p r))) := by
  obtain ⟨r, hret⟩ := returns_kalloc hcall
  obtain ⟨l, hr'⟩ := Reach.returns hret (.step hr (.call ht (.kalloc hcpu))) rfl
    (Function.update_self t (some ((system P).code _)) T.prog)
  exact ⟨_, r, hr', rfl, Function.update_self _ _ _⟩

/-- A request for a slot comes to the loop of `S_alloc`. -/
theorem exists_sAlloc (t : Tid) (size : Nat) (hr : Reachable P T) (ht : T.prog t = none)
    (hcpu : cpu < P.cpuCount) (hk : k < slabSize) (hsize : size ≤ maxAlloc)
    (hsz : kallocSize size = slotSz k) :
    ∃ T', Reachable P T' ∧ T'.state = T.state ∧
      T'.prog = Function.update T.prog t (some (sAlloc (slotSz k) 0 (T.state.slab cpu k))) := by
  have hsmall : slotSz k ≤ 4096 := slotSz_le hk
  have hrun : (kalloc P cpu size).run locks T.state =
      .ok (T.state, .goto (.sAlloc (slotSz k) 0 (T.state.slab cpu k))) := by
    rw [kalloc, if_neg (Nat.not_lt.2 hsize), hsz, if_pos hsmall, run_bind, read, run_act,
      sAllocHead_slotSz hk hcpu]
    rfl
  obtain ⟨l, hr'⟩ := Reach.run (.step hr (.call ht (.kalloc hcpu)))
    (Function.update_self t (some ((system P).code _)) T.prog) hrun
  refine ⟨_, .step hr' (.goto (t := t) (Function.update_self _ _ _)), rfl, ?_⟩
  simp only [Function.update_idem]
  rfl

/-- The loop begins with the lock of its slab. -/
theorem exists_sAlloc_eq_lock (size prev : Nat) (h : slab ≠ 0) :
    ∃ q, sAlloc size prev slab = .lock (.slab slab) q := ⟨_, if_pos h⟩

end Locked

/-- **No deadlock.** For any number of threads, each lock operation a step of its own: a
call that returns holds no lock, no thread takes or waits for a lock that it holds, and
while a call is running some running call does not wait for a lock of another thread. -/
theorem kalloc_no_deadlock (P : Platform) (T : Locked.LockSys) (hr : Locked.Reachable P T) :
    (∀ t r T', Locking.Step (Locked.system P) T (.ret t r) T' → T.held t = []) ∧
      (∀ t l T', Locking.Step (Locked.system P) T (.acquire t l) T' → l ∉ T.held t) ∧
      (∀ t l q, T.prog t = some (.lock l q) → l ∉ T.held t) ∧
      ((∃ t, T.prog t ≠ none) → ∃ t, T.prog t ≠ none ∧ ¬ Blocked T t) := by
  have h : Disciplined Locked.level T :=
    disciplined_of_reach (fun T hinit => hinit.2.2) (Locked.ordered_code P) hr
  refine ⟨fun t r T' hstep => ?_, fun t l T' hstep => ?_, fun t l q hp => h.not_held hp,
    fun ⟨t, ht⟩ => h.exists_not_blocked ht⟩
  · cases hstep with
    | ret hp => exact h.held_of_ret hp
  · cases hstep with
    | acquire hp _ => exact h.not_held hp

/-- Two requests of 16 bytes on one CPU: the second one waits for the first, with a lock
that it does not hold. -/
theorem kalloc_no_deadlock_wait : ∃ T, Locked.Reachable (.sample 20) T ∧ Blocked T 1 ∧
    (∃ l q, T.prog 1 = some (.lock l q) ∧ l ∉ T.held 1) ∧
    ∃ t, T.prog t ≠ none ∧ ¬ Blocked T t := by
  obtain ⟨s, hs, hR⟩ := exists_boot (P := .sample 20) (by decide) (le_refl _) (by decide) fun _ => 0
  have hcpu : 0 < (Platform.sample 20).cpuCount := by decide
  have hk : 0 < slabSize := by decide
  -- the first page is the slab of the class
  obtain ⟨H, hRep, hchain, hu⟩ : ∃ H, Rep ((Platform.sample 20).layout 20 (le_refl _) (by decide))
      s H ∧ H.chain 0 0 = [0] ∧ H.use 0 = .slab 0 0 := ⟨_, hR, by decide, rfl⟩
  obtain ⟨b, hb, hpos, hlk⟩ : ∃ b, s.slab 0 0 = b ∧ b ≠ 0 ∧ s.lk b = 0 := by
    have hlink := hRep.chain 0 0 (by rw [hchain]; simp)
    rw [hchain] at hlink
    obtain ⟨-, -, hsp⟩ := hRep.slab 0 0 0 hu
    exact ⟨_, hlink.1, hlink.2.1, hsp.lk⟩
  obtain ⟨q, hq⟩ := Locked.exists_sAlloc_eq_lock (slotSz 0) 0 hpos
  have hsz : kallocSize 16 = slotSz 0 := by decide
  have hsize : 16 ≤ maxAlloc := by decide
  have hidle : Locked.Reachable (.sample 20) ⟨s, fun _ => none, fun _ => none, fun _ => []⟩ :=
    .init ⟨⟨_, hs⟩, fun _ => rfl, fun _ => ⟨rfl, rfl⟩⟩
  -- both threads come to the lock, and thread 0 takes it
  obtain ⟨T₁, hr₁, hs₁, hp₁⟩ := Locked.exists_sAlloc 0 16 hidle rfl hcpu hk hsize hsz
  obtain ⟨T₂, hr₂, hs₂, hp₂⟩ := Locked.exists_sAlloc 1 16 hr₁ (by rw [hp₁]; rfl) hcpu hk hsize hsz
  have hstate₁ : T₁.state = s := hs₁
  have hstate₂ : T₂.state = s := hs₂.trans hs₁
  rw [hstate₁, hb, hq] at hp₂
  have hprog₀ : T₂.prog 0 = some (.lock (.slab b) q) := by
    rw [hp₂, Function.update_of_ne (by decide), hp₁, Function.update_self]
    show some (Locked.sAlloc (slotSz 0) 0 (s.slab 0 0)) = _
    rw [hb, hq]
  have hprog₁ : T₂.prog 1 = some (.lock (.slab b) q) := by rw [hp₂, Function.update_self]
  have hlock : Locked.locks.acquire T₂.state (.slab b) = .ok (s.setLk b 1) := by
    rw [hstate₂]
    exact spinLock_free hlk
  have hr₃ := hr₂.step (.acquire hprog₀ hlock)
  have hwait : Function.update T₂.prog 0 (some q) 1 = some (.lock (.slab b) q) :=
    (Function.update_of_ne Nat.one_ne_zero _ _).trans hprog₁
  have hheld : Locked.Lock.slab b ∈ Function.update T₂.held 0 (.slab b :: T₂.held 0) 0 := by
    rw [Function.update_self]
    exact List.mem_cons_self
  obtain ⟨-, -, hnot, hprogress⟩ := kalloc_no_deadlock _ _ hr₃
  refine ⟨_, hr₃, ⟨.slab b, q, 0, hwait, Nat.zero_ne_one, hheld⟩,
    ⟨.slab b, q, hwait, hnot _ _ _ hwait⟩, hprogress ⟨1, fun hnone => ?_⟩⟩
  have heq := hnone.symm.trans hwait
  cases heq

end MyOs.Pmm
