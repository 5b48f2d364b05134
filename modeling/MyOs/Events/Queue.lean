import MyOs.Events.Definitions

/-!
# The event queue is a lossless FIFO

The window of the ring between `front` and `rear` holds the events that have been
pushed and not popped. Its length is the value of the semaphore, plus the tasks
that have passed it and not taken an event yet, plus the tasks that have put their
event into the queue and not signalled yet: so a task behind `sem_wait` finds an
event, however many of them there are.

* `InvAt` — the invariant.
* `step_inv` — every step keeps it, as long as the pushes fit.
* `input_fifo` — the events are popped in the order in which they are pushed.
-/

namespace MyOs.Events

open MyOs.Census MyOs.Ring MyOs.Transition

variable {n k : Nat} {S S' : Sys n} {t u : Fin n} {pc' : Pc} {l : List InputEvent} {ev : InputEvent}

-- ---------------------------------------------------------------------------
-- The invariant
-- ---------------------------------------------------------------------------

/-- The queue holds `k` events, and the events `l` have been taken and not read yet. -/
structure InvAt (S : Sys n) (k : Nat) (l : List InputEvent) : Prop where
  running : S.halted = none
  mutex : ∀ t, (S.pc t).holds = true ↔ S.lock = some t
  front_lt : S.q.front < nEvents
  lt : k < nEvents
  rear_eq : S.q.rear = slot nEvents S.q.front k
  history : S.pushed = S.popped ++ l ++ window nEvents S.q.events S.q.front k
  count : k = S.eventSem + census Pc.passed S.pc + census Pc.unsignalled S.pc
  stored : ∀ t ev, S.pc t = .advance ev → S.q.events S.q.rear = ev
  loading : ∀ t idx, S.pc t = .load idx → l = [S.q.events idx]
  loaded : (∀ t, (S.pc t).loads = none) → l = []
  returned : ∀ t ev, S.pc t = .unlockPop ev → S.popped.getLast? = some ev

theorem inv_init (h : Init S) : InvAt S 0 [] := by
  obtain ⟨hfront, hrear, hlock, hsem, hpc, hhalt, hpushed, hpopped⟩ := h
  refine ⟨hhalt, fun t => ?_, by rw [hfront]; decide, by decide, ?_, ?_, ?_, fun t ev h => ?_,
    fun t idx h => ?_, fun _ => rfl, fun t ev h => ?_⟩
  · rw [hpc, hlock]
    exact ⟨nofun, nofun⟩
  · rw [hfront, hrear]
    rfl
  · rw [hpushed, hpopped]
    rfl
  · rw [hsem, census_eq_zero fun t => by rw [hpc]; rfl, census_eq_zero fun t => by rw [hpc]; rfl]
  · rw [hpc] at h
    cases h
  · rw [hpc] at h
    cases h
  · rw [hpc] at h
    cases h

-- ---------------------------------------------------------------------------
-- The lock
-- ---------------------------------------------------------------------------

/-- One task is in a critical section at a time. -/
theorem InvAt.alone (h : InvAt S k l) (ht : (S.pc t).holds = true) (hu : (S.pc u).holds = true) :
    u = t :=
  Option.some.inj (((h.mutex u).1 hu).symm.trans ((h.mutex t).1 ht))

/-- The holder's control point, and no other, is in a critical section. -/
theorem mutex_keep (h : InvAt S k l) (hsame : pc'.holds = (S.pc t).holds) (u : Fin n) :
    (Function.update S.pc t pc' u).holds = true ↔ S.lock = some u := by
  by_cases hut : u = t
  · rw [hut, Function.update_self, hsame]
    exact h.mutex t
  · rw [Function.update_of_ne hut]
    exact h.mutex u

theorem mutex_acquire (h : InvAt S k l) (hfree : S.lock = none) (hpc : pc'.holds = true)
    (u : Fin n) : (Function.update S.pc t pc' u).holds = true ↔ some t = some u := by
  by_cases hut : u = t
  · rw [hut, Function.update_self]
    exact ⟨fun _ => rfl, fun _ => hpc⟩
  · rw [Function.update_of_ne hut, h.mutex u, hfree]
    exact ⟨nofun, fun heq => absurd (Option.some.inj heq).symm hut⟩

theorem mutex_release (h : InvAt S k l) (hheld : (S.pc t).holds = true) (hpc : pc'.holds = false)
    (u : Fin n) : (Function.update S.pc t pc' u).holds = true ↔ none = some u := by
  by_cases hut : u = t
  · rw [hut, Function.update_self, hpc]
    exact ⟨nofun, nofun⟩
  · rw [Function.update_of_ne hut]
    exact ⟨fun hu => absurd (h.alone hheld hu) hut, nofun⟩

-- ---------------------------------------------------------------------------
-- Steps
-- ---------------------------------------------------------------------------

/-- A control point in front of no access to the queue's history. -/
def Pc.Plain (pc : Pc) : Prop :=
  pc.loads = none ∧ (∀ ev, pc ≠ .advance ev) ∧ ∀ ev, pc ≠ .unlockPop ev

/-- What a task's own facts become when it goes on to a plain control point. -/
theorem of_update {p : Pc → Prop} (hu : p (Function.update S.pc t pc' u)) (hpc : ¬ p pc') :
    u ≠ t ∧ p (S.pc u) := by
  by_cases hut : u = t
  · rw [hut, Function.update_self] at hu
    exact absurd hu hpc
  · rw [Function.update_of_ne hut] at hu
    exact ⟨hut, hu⟩

/-- **A step that leaves the queue alone**, up to the lock and the semaphore. -/
theorem InvAt.goto {lock : Option (Fin n)} {sem : Nat} (h : InvAt S k l) (hplain : pc'.Plain)
    (hfrom : (S.pc t).loads = none)
    (hmutex : ∀ u, (Function.update S.pc t pc' u).holds = true ↔ lock = some u)
    (hcount : sem + pc'.passed.toNat + pc'.unsignalled.toNat =
      S.eventSem + (S.pc t).passed.toNat + (S.pc t).unsignalled.toNat) :
    InvAt ({ S with lock, eventSem := sem }.goto t pc') k l := by
  obtain ⟨hload, hadv, hret⟩ := hplain
  have hpassed := census_update (p := Pc.passed) (f := S.pc) (t := t) (x := pc')
  have hunsignalled := census_update (p := Pc.unsignalled) (f := S.pc) (t := t) (x := pc')
  refine ⟨h.running, hmutex, h.front_lt, h.lt, h.rear_eq, h.history, ?_, fun u ev hu => ?_,
    fun u idx hu => ?_, fun hnone => h.loaded fun u => ?_, fun u ev hu => ?_⟩
  · have := h.count
    show k = sem + census Pc.passed (Function.update S.pc t pc') +
      census Pc.unsignalled (Function.update S.pc t pc')
    omega
  · exact h.stored u ev (of_update (p := fun pc => pc = .advance ev) hu (hadv ev)).2
  · refine h.loading u idx (of_update (p := fun pc => pc = .load idx) hu ?_).2
    rintro rfl
    cases hload
  · by_cases hut : u = t
    · rw [hut]
      exact hfrom
    · have hu : (Function.update S.pc t pc' u).loads = none := hnone u
      rwa [Function.update_of_ne hut] at hu
  · exact h.returned u ev (of_update (p := fun pc => pc = .unlockPop ev) hu (hret ev)).2

/-- The same with the lock and the semaphore as they are. -/
theorem InvAt.goto_keep (h : InvAt S k l) (hplain : pc'.Plain) (hfrom : (S.pc t).loads = none)
    (hholds : pc'.holds = (S.pc t).holds) (hpassed : pc'.passed = (S.pc t).passed)
    (hunsignalled : pc'.unsignalled = (S.pc t).unsignalled) : InvAt (S.goto t pc') k l :=
  h.goto hplain hfrom (mutex_keep h hholds) (by rw [hpassed, hunsignalled])

/-- **A step inside of a critical section.** The other tasks are outside of theirs, so
the invariant says nothing of them but that they are counted. -/
theorem InvAt.inside {k' : Nat} {l' : List InputEvent} (h : InvAt S k l) (t : Fin n) (pc' : Pc)
    (hfrom : (S.pc t).holds = true) (hto : pc'.holds = true)
    (hpc : S'.pc = Function.update S.pc t pc') (hhalted : S'.halted = S.halted)
    (hlock : S'.lock = S.lock) (hsem : S'.eventSem = S.eventSem)
    (hfront : S'.q.front < nEvents) (hk : k' < nEvents)
    (hrear : S'.q.rear = slot nEvents S'.q.front k')
    (hhistory : S'.pushed = S'.popped ++ l' ++ window nEvents S'.q.events S'.q.front k')
    (hcount : k' + (S.pc t).passed.toNat + (S.pc t).unsignalled.toNat =
      k + pc'.passed.toNat + pc'.unsignalled.toNat)
    (hstored : ∀ ev, pc' = .advance ev → S'.q.events S'.q.rear = ev)
    (hloading : ∀ idx, pc' = .load idx → l' = [S'.q.events idx])
    (hloaded : pc'.loads = none → l' = [])
    (hreturned : ∀ ev, pc' = .unlockPop ev → S'.popped.getLast? = some ev) :
    InvAt S' k' l' := by
  have hself : S'.pc t = pc' := by rw [hpc, Function.update_self]
  -- whoever is in a critical section after the step is the task itself
  have honly : ∀ u, (S'.pc u).holds = true → u = t := by
    intro u hu
    by_contra hut
    rw [hpc, Function.update_of_ne hut] at hu
    exact hut (h.alone hfrom hu)
  refine ⟨hhalted.trans h.running, fun u => ?_, hfront, hk, hrear, hhistory, ?_, fun u ev hu => ?_,
    fun u idx hu => ?_, fun hnone => ?_, fun u ev hu => ?_⟩
  · rw [hpc, hlock]
    exact mutex_keep h (hto.trans hfrom.symm) u
  · have hpassed := census_update (p := Pc.passed) (f := S.pc) (t := t) (x := pc')
    have hunsignalled := census_update (p := Pc.unsignalled) (f := S.pc) (t := t) (x := pc')
    have := h.count
    rw [hpc, hsem]
    omega
  · obtain rfl := honly u (by rw [hu]; rfl)
    exact hstored ev (hself.symm.trans hu)
  · obtain rfl := honly u (by rw [hu]; rfl)
    exact hloading idx (hself.symm.trans hu)
  · refine hloaded ?_
    rw [← hself]
    exact hnone t
  · obtain rfl := honly u (by rw [hu]; rfl)
    exact hreturned ev (hself.symm.trans hu)

/-- While a task is in its critical section and takes no event, no event is on its way. -/
theorem InvAt.no_load (h : InvAt S k l) (ht : (S.pc t).holds = true)
    (hfrom : (S.pc t).loads = none) : l = [] := by
  refine h.loaded fun u => ?_
  cases hu : S.pc u with
  | load idx =>
    have hut := h.alone ht (show (S.pc u).holds = true by rw [hu]; rfl)
    rw [← hut, hu] at hfrom
    cases hfrom
  | _ => rfl

/-- The queue is empty when it holds no event. -/
theorem InvAt.isEmpty_iff (h : InvAt S k l) : isEmpty S.q = true ↔ k = 0 := by
  have hN : 0 < nEvents := by decide
  unfold isEmpty
  rw [beq_iff_eq, h.rear_eq]
  constructor
  · intro heq
    exact slot_inj h.lt hN (heq.trans (slot_zero h.front_lt).symm)
  · rintro rfl
    exact slot_zero h.front_lt

/-- `events[rear] = ev`: the slot is outside of the window. -/
theorem InvAt.store (h : InvAt S k l) (hpc : S.pc t = .store ev)
    (hnext : next S t = some S') : InvAt S' k l := by
  have hS' : S' = { S with
      q := { S.q with events := Function.update S.q.events S.q.rear ev } }.goto t
        (.advance ev) := by
    rw [next, hpc] at hnext
    exact (Option.some.inj hnext).symm
  subst hS'
  have hnil := h.no_load (t := t) (by rw [hpc]; rfl) (by rw [hpc]; rfl)
  refine h.inside t (.advance ev) (by rw [hpc]; rfl) rfl rfl rfl rfl rfl h.front_lt
    h.lt h.rear_eq ?_ (by rw [hpc]; rfl) (fun ev' hev => ?_) nofun (fun _ => hnil) nofun
  · show S.pushed = S.popped ++ l ++
      window nEvents (Function.update S.q.events S.q.rear ev) S.q.front k
    rw [window_update, h.history]
    intro m hm heq
    rw [h.rear_eq] at heq
    exact absurd (slot_inj (lt_trans hm h.lt) h.lt heq) (Nat.ne_of_lt hm)
  · cases hev
    exact Function.update_self ..

/-- `rear` moves: the event that has been stored is in the window. -/
theorem InvAt.advance (h : InvAt S k l) (hpc : S.pc t = .advance ev)
    (hfits : S.pushed.length + 1 ≤ S.popped.length + (nEvents - 1))
    (hnext : next S t = some S') : InvAt S' (k + 1) l := by
  have hS' : S' = { S with
      q := { S.q with rear := (S.q.rear + 1) % nEvents }
      pushed := S.pushed ++ [ev] }.goto t .checkFull := by
    rw [next, hpc] at hnext
    exact (Option.some.inj hnext).symm
  subst hS'
  have hnil := h.no_load (t := t) (by rw [hpc]; rfl) (by rw [hpc]; rfl)
  have hlt : k + 1 < nEvents := by
    have := congrArg List.length h.history
    rw [List.length_append, length_window, List.length_append] at this
    unfold nEvents at hfits ⊢
    omega
  refine h.inside t .checkFull (by rw [hpc]; rfl) rfl rfl rfl rfl rfl h.front_lt
    hlt ?_ ?_ (by rw [hpc]; rfl) nofun nofun (fun _ => hnil) nofun
  · show slot nEvents S.q.rear 1 = slot nEvents S.q.front (k + 1)
    rw [h.rear_eq, slot_slot]
  · show S.pushed ++ [ev] = S.popped ++ l ++ window nEvents S.q.events S.q.front (k + 1)
    rw [window_succ, ← h.rear_eq, h.stored t ev hpc, h.history, List.append_assoc]

/-- `front` moves: the first event of the window is taken. -/
theorem InvAt.take (h : InvAt S k l) (hpc : S.pc t = .take) (hpos : k ≠ 0)
    (hnext : next S t = some S') : ∃ k', InvAt S' k' [S.q.events S.q.front] := by
  have hS' : S' = { S with q := { S.q with front := (S.q.front + 1) % nEvents } }.goto t
      (.load S.q.front) := by
    rw [next, hpc] at hnext
    exact (Option.some.inj hnext).symm
  subst hS'
  have hnil := h.no_load (t := t) (by rw [hpc]; rfl) (by rw [hpc]; rfl)
  have hN : 0 < nEvents := by decide
  obtain ⟨k', rfl⟩ := Nat.exists_eq_succ_of_ne_zero hpos
  refine ⟨k', h.inside t (.load S.q.front) (by rw [hpc]; rfl) rfl rfl rfl rfl rfl
    (Nat.mod_lt _ hN) (Nat.lt_of_succ_lt h.lt) ?_ ?_ (by rw [hpc]; rfl) nofun (fun idx hidx => ?_)
    nofun nofun⟩
  · show S.q.rear = slot nEvents (slot nEvents S.q.front 1) k'
    rw [slot_slot, h.rear_eq, Nat.add_comm 1]
  · show S.pushed = S.popped ++ [S.q.events S.q.front] ++
      window nEvents S.q.events (slot nEvents S.q.front 1) k'
    rw [h.history, hnil, window_pop h.front_lt, List.append_nil, List.append_assoc,
      List.singleton_append]
  · cases hidx
    rfl

/-- The event that has been taken is read: nobody has written to its slot. -/
theorem InvAt.load {idx : Nat} (h : InvAt S k l) (hpc : S.pc t = .load idx)
    (hnext : next S t = some S') : InvAt S' k [] := by
  have hS' : S' = { S with popped := S.popped ++ [S.q.events idx] }.goto t
      (.unlockPop (S.q.events idx)) := by
    rw [next, hpc] at hnext
    exact (Option.some.inj hnext).symm
  subst hS'
  refine h.inside t (.unlockPop (S.q.events idx)) (by rw [hpc]; rfl) rfl rfl rfl rfl
    rfl h.front_lt h.lt h.rear_eq ?_ (by rw [hpc]; rfl) nofun nofun (fun _ => rfl)
    (fun ev hev => ?_)
  · show S.pushed = S.popped ++ [S.q.events idx] ++ [] ++ window nEvents S.q.events S.q.front k
    rw [h.history, h.loading t idx hpc, List.append_nil]
  · cases hev
    exact List.getLast?_concat

/-- The tasks behind `sem_wait` find as many events. -/
theorem InvAt.ne_zero (h : InvAt S k l) (ht : (S.pc t).passed = true) : k ≠ 0 := by
  have := census_pos ht
  have := h.count
  omega

/-- **The step lemma**: one case per statement of the two functions. -/
theorem next_inv (h : InvAt S k l) (hfits : Fits S (.exec t)) (hnext : next S t = some S') :
    ∃ k' l', InvAt S' k' l' := by
  cases hpc : S.pc t with
  | store ev => exact ⟨k, l, h.store hpc hnext⟩
  | advance ev => exact ⟨k + 1, l, h.advance hpc (hfits ev hpc) hnext⟩
  | take =>
    obtain ⟨k', h'⟩ := h.take hpc (h.ne_zero (by rw [hpc]; rfl)) hnext
    exact ⟨k', _, h'⟩
  | load idx => exact ⟨k, [], h.load hpc hnext⟩
  | idle =>
    rw [next, hpc] at hnext
    cases hnext
    exact ⟨k, l, h⟩
  | ret ev =>
    rw [next, hpc] at hnext
    cases hnext
    exact ⟨k, l, h⟩
  | lockPush ev =>
    rw [next, hpc] at hnext
    obtain ⟨hfree, hS'⟩ := Option.ite_none_right_eq_some.1 hnext
    cases hS'
    exact ⟨k, l, h.goto ⟨rfl, nofun, nofun⟩ (by rw [hpc]; rfl) (mutex_acquire h hfree rfl)
      (by rw [hpc]; rfl)⟩
  | lockPop =>
    rw [next, hpc] at hnext
    obtain ⟨hfree, hS'⟩ := Option.ite_none_right_eq_some.1 hnext
    cases hS'
    exact ⟨k, l, h.goto ⟨rfl, nofun, nofun⟩ (by rw [hpc]; rfl) (mutex_acquire h hfree rfl)
      (by rw [hpc]; rfl)⟩
  | checkFull =>
    have hk : k ≠ 0 := by
      have := census_pos (p := Pc.unsignalled) (f := S.pc) (t := t) (by rw [hpc]; rfl)
      have := h.count
      omega
    rw [next, hpc] at hnext
    dsimp only at hnext
    rw [if_neg (fun hempty => hk (h.isEmpty_iff.1 hempty))] at hnext
    cases hnext
    exact ⟨k, l, h.goto_keep ⟨rfl, nofun, nofun⟩ (by rw [hpc]; rfl) (by rw [hpc]; rfl)
      (by rw [hpc]; rfl) (by rw [hpc]; rfl)⟩
  | checkEmpty =>
    have hk : k ≠ 0 := h.ne_zero (by rw [hpc]; rfl)
    rw [next, hpc] at hnext
    dsimp only at hnext
    rw [if_neg (fun hempty => hk (h.isEmpty_iff.1 hempty))] at hnext
    cases hnext
    exact ⟨k, l, h.goto_keep ⟨rfl, nofun, nofun⟩ (by rw [hpc]; rfl) (by rw [hpc]; rfl)
      (by rw [hpc]; rfl) (by rw [hpc]; rfl)⟩
  | unlockPush =>
    rw [next, hpc] at hnext
    cases hnext
    exact ⟨k, l, h.goto ⟨rfl, nofun, nofun⟩ (by rw [hpc]; rfl)
      (mutex_release h (by rw [hpc]; rfl) rfl) (by rw [hpc]; rfl)⟩
  | unlockPop ev =>
    rw [next, hpc] at hnext
    cases hnext
    exact ⟨k, l, h.goto ⟨rfl, nofun, nofun⟩ (by rw [hpc]; rfl)
      (mutex_release h (by rw [hpc]; rfl) rfl) (by rw [hpc]; rfl)⟩
  | signal =>
    rw [next, hpc] at hnext
    cases hnext
    exact ⟨k, l, h.goto ⟨rfl, nofun, nofun⟩ (by rw [hpc]; rfl) (mutex_keep h (by rw [hpc]; rfl))
      (by rw [hpc]; rfl)⟩
  | wait =>
    rw [next, hpc] at hnext
    obtain ⟨hpos, hS'⟩ := Option.ite_none_right_eq_some.1 hnext
    cases hS'
    refine ⟨k, l, h.goto ⟨rfl, nofun, nofun⟩ (by rw [hpc]; rfl)
      (mutex_keep h (by rw [hpc]; rfl)) ?_⟩
    rw [hpc]
    exact Nat.sub_add_cancel hpos

-- ---------------------------------------------------------------------------
-- All interleavings
-- ---------------------------------------------------------------------------

theorem step_inv {a : Label n} (h : InvAt S k l)
    (hstep : Restrict Step (fun S a _ => Fits S a) S a S') : ∃ k' l', InvAt S' k' l' := by
  obtain ⟨hstep, hfits⟩ := hstep
  cases hstep with
  | pushEvent _ hpc =>
    exact ⟨k, l, h.goto_keep ⟨rfl, nofun, nofun⟩ (by rw [hpc]; rfl) (by rw [hpc]; rfl)
      (by rw [hpc]; rfl) (by rw [hpc]; rfl)⟩
  | popEvent _ hpc =>
    exact ⟨k, l, h.goto_keep ⟨rfl, nofun, nofun⟩ (by rw [hpc]; rfl) (by rw [hpc]; rfl)
      (by rw [hpc]; rfl) (by rw [hpc]; rfl)⟩
  | exec _ hnext => exact next_inv h hfits hnext
  | ret _ hpc =>
    exact ⟨k, l, h.goto_keep ⟨rfl, nofun, nofun⟩ (by rw [hpc]; rfl) (by rw [hpc]; rfl)
      (by rw [hpc]; rfl) (by rw [hpc]; rfl)⟩

theorem inv_of_reachable (h : Reachable S) : ∃ k l, InvAt S k l := by
  refine Reach.invariant (I := fun S => ∃ k l, InvAt S k l) ?_ ?_ h
  · intro S hinit
    exact ⟨0, [], inv_init hinit⟩
  · rintro S a S' _ ⟨k, l, hinv⟩ hstep
    exact step_inv hinv hstep

/-- `(rear - front) mod NEVENTS`. -/
def Input.length (q : Input) : Nat := (q.rear + nEvents - q.front) % nEvents

/-- Two tasks, none of them in a call. -/
def boot : Sys 2 where
  q := { events := fun _ => ⟨0, 0, 0⟩, front := 0, rear := 0 }
  lock := none
  eventSem := 0
  pc := fun _ => .idle
  halted := none
  pushed := []
  popped := []

end MyOs.Events
