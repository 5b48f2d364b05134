import Mathlib.Logic.Function.Basic
import MyOs.Lib.Fallible
import MyOs.Lib.Transition

/-!
# Programs with locks

Any number of threads share a state and take locks that lie in it. Between two lock
operations a thread works on the state in one piece; each lock operation is a step of its
own, and a lock is taken only when the state says that it is free.

* `Prog` / `Prog.run` — a program, and what it computes on its own.
* `Ordered` — the discipline: locks are taken downwards, and `unlock` gives back a lock that
  is held. There is a rule for each construct.
* `Step` — threads that run such programs.
* `Disciplined.exists_not_blocked` — **no deadlock**: while a call is running, some running
  call does not wait for a lock of another thread.
-/

namespace MyOs.Locking

open MyOs.Transition

-- ---------------------------------------------------------------------------
-- Programs
-- ---------------------------------------------------------------------------

/-- A program. What it does to the state between its lock operations may fail. -/
inductive Prog (σ ε ι : Type) (α : Type) : Type 1
  | ret (a : α)
  | lock (l : ι) (k : Prog σ ε ι α)
  | unlock (l : ι) (k : Prog σ ε ι α)
  | act {β : Type} (f : σ → Except ε (σ × β)) (k : β → Prog σ ε ι α)

/-- The locks of a state: taking a lock fails while it is not free. -/
structure Locks (σ ε ι : Type) where
  acquire : σ → ι → Except ε σ
  release : σ → ι → σ

variable {σ ε ι α β κ ρ γ τ : Type}

namespace Prog

def bind : Prog σ ε ι α → (α → Prog σ ε ι β) → Prog σ ε ι β
  | ret a, f => f a
  | lock l k, f => lock l (k.bind f)
  | unlock l k, f => unlock l (k.bind f)
  | act g k, f => act g fun b => (k b).bind f

instance : Monad (Prog σ ε ι) where
  pure := ret
  bind := bind

/-- The program on its own. -/
def run (locks : Locks σ ε ι) : Prog σ ε ι α → σ → Except ε (σ × α)
  | ret a, s => .ok (s, a)
  | lock l k, s => do
    let s ← locks.acquire s l
    k.run locks s
  | unlock l k, s => k.run locks (locks.release s l)
  | act f k, s => do
    let (s, b) ← f s
    (k b).run locks s

end Prog

/-- The program that takes one lock. -/
def lock (l : ι) : Prog σ ε ι Unit := .lock l (.ret ())

/-- The program that gives one lock back. -/
def unlock (l : ι) : Prog σ ε ι Unit := .unlock l (.ret ())

/-- The program that works on the state once. -/
def act (f : σ → Except ε (σ × β)) : Prog σ ε ι β := .act f .ret

variable {locks : Locks σ ε ι} {s s' : σ} {a : α} {f : α → Prog σ ε ι β}

@[simp] theorem run_pure : (pure a : Prog σ ε ι α).run locks s = .ok (s, a) := rfl

@[simp] theorem run_bind (p : Prog σ ε ι α) :
    (p >>= f).run locks s = p.run locks s >>= fun x => (f x.2).run locks x.1 := by
  induction p generalizing s with
  | ret a => rfl
  | lock l k ih =>
    show (locks.acquire s l >>= fun s => (k >>= f).run locks s) =
      (locks.acquire s l >>= fun s => k.run locks s) >>= _
    rw [bind_assoc]
    exact bind_congr fun s => ih
  | unlock l k ih => exact ih
  | act g k ih =>
    show (g s >>= fun x => (k x.2 >>= f).run locks x.1) =
      (g s >>= fun x => (k x.2).run locks x.1) >>= _
    rw [bind_assoc]
    exact bind_congr fun x => ih x.2

@[simp] theorem run_lock (l : ι) :
    (lock l).run locks s = locks.acquire s l >>= fun s => .ok (s, ()) := rfl

@[simp] theorem run_unlock (l : ι) : (unlock l).run locks s = .ok (locks.release s l, ()) := rfl

@[simp] theorem run_act (g : σ → Except ε (σ × β)) : (act g).run locks s = g s := by
  show (g s >>= fun x => Except.ok (x.1, x.2)) = g s
  exact bind_pure (g s)

-- ---------------------------------------------------------------------------
-- The discipline
-- ---------------------------------------------------------------------------

/-- From the locks `held` the program takes locks downwards only, gives back locks it
holds, and ends with the locks `rest`. -/
def Ordered [DecidableEq ι] (level : ι → Nat) (rest : List ι) : List ι → Prog σ ε ι α → Prop
  | held, .ret _ => held = rest
  | held, .lock l k => (∀ h ∈ held, level l < level h) ∧ Ordered level rest (l :: held) k
  | held, .unlock l k => l ∈ held ∧ Ordered level rest (held.erase l) k
  | held, .act f k => ∀ s s' b, f s = .ok (s', b) → Ordered level rest held (k b)

section Rules

variable [DecidableEq ι] {level : ι → Nat} {held mid rest : List ι}

theorem Ordered.pure (a : α) : Ordered level held held (pure a : Prog σ ε ι α) := rfl

/-- **Sequencing.** -/
theorem Ordered.bind {p : Prog σ ε ι α} (hp : Ordered level mid held p)
    (hf : ∀ a, Ordered level rest mid (f a)) : Ordered level rest held (p >>= f) := by
  induction p generalizing held with
  | ret a =>
    obtain rfl : held = mid := hp
    exact hf a
  | lock l k ih => exact ⟨hp.1, ih hp.2⟩
  | unlock l k ih => exact ⟨hp.1, ih hp.2⟩
  | act g k ih => exact fun s s' b hg => ih b (hp s s' b hg)

theorem Ordered.lock {l : ι} (h : ∀ h ∈ held, level l < level h) :
    Ordered level (l :: held) held (lock l : Prog σ ε ι Unit) := ⟨h, rfl⟩

theorem Ordered.unlock {l : ι} : Ordered level held (l :: held) (unlock l : Prog σ ε ι Unit) :=
  ⟨List.mem_cons_self, List.erase_cons_head l held⟩

theorem Ordered.act (g : σ → Except ε (σ × β)) :
    Ordered level held held (act g : Prog σ ε ι β) := fun _ _ _ _ => rfl

end Rules

-- ---------------------------------------------------------------------------
-- Threads
-- ---------------------------------------------------------------------------

/-- What a block of code leads to: another block of the same call, or its return. -/
inductive Next (κ ρ : Type)
  | goto (c : κ)
  | done (r : ρ)

/-- The code of the calls, block by block, and their clients: which calls they make, what
they learn from a return, and what they do to the state themselves. -/
structure System (σ ε ι κ ρ γ : Type) where
  locks : Locks σ ε ι
  code : κ → Prog σ ε ι (Next κ ρ)
  call : γ → κ → γ → Prop
  ret : γ → ρ → γ
  client : γ → σ → σ → Prop

/-- The shared state, the clients, what each thread has left to run, and the locks it has
taken and not given back. -/
structure Threads (τ σ ε ι κ ρ γ : Type) : Type 1 where
  state : σ
  clients : γ
  prog : τ → Option (Prog σ ε ι (Next κ ρ))
  held : τ → List ι

/-- No call has been made yet. -/
def Idle (T : Threads τ σ ε ι κ ρ γ) : Prop := ∀ t, T.prog t = none ∧ T.held t = []

/-- Thread `t` waits for a lock that another thread holds. -/
def Blocked (T : Threads τ σ ε ι κ ρ γ) (t : τ) : Prop :=
  ∃ l k u, T.prog t = some (.lock l k) ∧ u ≠ t ∧ l ∈ T.held u

section Disciplined

variable [DecidableEq ι]

/-- What is left to run respects the discipline from the locks the thread holds. -/
def Disciplined (level : ι → Nat) (T : Threads τ σ ε ι κ ρ γ) : Prop :=
  ∀ t, (T.prog t = none → T.held t = []) ∧
    ∀ p, T.prog t = some p → Ordered level [] (T.held t) p

variable {T : Threads τ σ ε ι κ ρ γ} {level : ι → Nat} {t : τ}

theorem disciplined_of_idle (h : Idle T) : Disciplined level T := fun t =>
  ⟨fun _ => (h t).2, fun p hp => by
    rw [(h t).1] at hp
    cases hp⟩

/-- A call that returns holds no lock. -/
theorem Disciplined.held_of_ret (h : Disciplined level T) {a : Next κ ρ}
    (hp : T.prog t = some (.ret a)) : T.held t = [] := (h t).2 _ hp

/-- No thread takes a lock that it holds. -/
theorem Disciplined.not_held (h : Disciplined level T) {l : ι} {k : Prog σ ε ι (Next κ ρ)}
    (hp : T.prog t = some (.lock l k)) : l ∉ T.held t := fun hl =>
  Nat.lt_irrefl _ (((h t).2 _ hp).1 l hl)

/-- Behind a thread that waits for a lock of level `n` there is one that is not blocked:
who holds the lock waits for a lower one at most. -/
theorem Disciplined.exists_not_blocked_of_level (h : Disciplined level T) (n : Nat) {t : τ}
    (ht : T.prog t ≠ none) (hlevel : ∀ l k, T.prog t = some (.lock l k) → level l < n) :
    ∃ u, T.prog u ≠ none ∧ ¬ Blocked T u := by
  induction n generalizing t with
  | zero =>
    refine ⟨t, ht, ?_⟩
    rintro ⟨l, k, u, hp, -⟩
    exact Nat.not_lt_zero _ (hlevel l k hp)
  | succ n ih =>
    by_cases hblocked : Blocked T t
    · obtain ⟨l, k, u, hp, -, hl⟩ := hblocked
      have hu : T.prog u ≠ none := fun hnone => by
        rw [(h u).1 hnone] at hl
        cases hl
      refine ih hu fun l' k' hp' => ?_
      have hlower := ((h u).2 _ hp').1 l hl
      have := hlevel l k hp
      omega
    · exact ⟨t, ht, hblocked⟩

/-- **No deadlock.** -/
theorem Disciplined.exists_not_blocked (h : Disciplined level T) (ht : T.prog t ≠ none) :
    ∃ u, T.prog u ≠ none ∧ ¬ Blocked T u := by
  match hp : T.prog t, ht with
  | some (.lock l k), ht =>
    refine h.exists_not_blocked_of_level (level l + 1) (by rw [hp]; exact ht) ?_
    intro l' k' hp'
    rw [hp] at hp'
    cases hp'
    exact Nat.lt_succ_self _
  | some (.ret _), ht | some (.unlock _ _), ht | some (.act _ _), ht =>
    refine h.exists_not_blocked_of_level 0 (by rw [hp]; exact ht) ?_
    intro l' k' hp'
    rw [hp] at hp'
    cases hp'

end Disciplined

-- ---------------------------------------------------------------------------
-- Runs
-- ---------------------------------------------------------------------------

inductive Label (τ ι κ ρ : Type)
  | call (t : τ) (c : κ)
  | acquire (t : τ) (l : ι)
  | release (t : τ) (l : ι)
  | act (t : τ)
  | goto (t : τ)
  | ret (t : τ) (r : ρ)
  | client

variable [DecidableEq τ] [DecidableEq ι]

/-- **One step.** -/
inductive Step (M : System σ ε ι κ ρ γ) :
    Threads τ σ ε ι κ ρ γ → Label τ ι κ ρ → Threads τ σ ε ι κ ρ γ → Prop
  | call {T : Threads τ σ ε ι κ ρ γ} {t : τ} {c : κ} {g : γ} : T.prog t = none →
      M.call T.clients c g →
      Step M T (.call t c) { T with
        clients := g, prog := Function.update T.prog t (some (M.code c)) }
  | acquire {T : Threads τ σ ε ι κ ρ γ} {t : τ} {l : ι} {k : Prog σ ε ι (Next κ ρ)} {s' : σ} :
      T.prog t = some (.lock l k) → M.locks.acquire T.state l = .ok s' →
      Step M T (.acquire t l) { T with
        state := s'
        prog := Function.update T.prog t (some k)
        held := Function.update T.held t (l :: T.held t) }
  | release {T : Threads τ σ ε ι κ ρ γ} {t : τ} {l : ι} {k : Prog σ ε ι (Next κ ρ)} :
      T.prog t = some (.unlock l k) →
      Step M T (.release t l) { T with
        state := M.locks.release T.state l
        prog := Function.update T.prog t (some k)
        held := Function.update T.held t ((T.held t).erase l) }
  | act {T : Threads τ σ ε ι κ ρ γ} {t : τ} {β : Type} {f : σ → Except ε (σ × β)}
      {k : β → Prog σ ε ι (Next κ ρ)} {s' : σ} {b : β} :
      T.prog t = some (.act f k) → f T.state = .ok (s', b) →
      Step M T (.act t) { T with state := s', prog := Function.update T.prog t (some (k b)) }
  | goto {T : Threads τ σ ε ι κ ρ γ} {t : τ} {c : κ} : T.prog t = some (.ret (.goto c)) →
      Step M T (.goto t) { T with prog := Function.update T.prog t (some (M.code c)) }
  | ret {T : Threads τ σ ε ι κ ρ γ} {t : τ} {r : ρ} : T.prog t = some (.ret (.done r)) →
      Step M T (.ret t r) { T with
        clients := M.ret T.clients r, prog := Function.update T.prog t none }
  | client {T : Threads τ σ ε ι κ ρ γ} {s' : σ} : M.client T.clients T.state s' →
      Step M T .client { T with state := s' }

variable {M : System σ ε ι κ ρ γ} {T T' : Threads τ σ ε ι κ ρ γ} {level : ι → Nat} {t : τ}

/-- Only thread `t` changes. -/
theorem Disciplined.change (h : Disciplined level T) {p : Option (Prog σ ε ι (Next κ ρ))}
    {l : List ι} (hprog : T'.prog = Function.update T.prog t p)
    (hheld : T'.held = Function.update T.held t l) (hnone : p = none → l = [])
    (hsome : ∀ q, p = some q → Ordered level [] l q) : Disciplined level T' := by
  intro u
  rw [hprog, hheld]
  by_cases hu : u = t
  · rw [hu, Function.update_self, Function.update_self]
    exact ⟨hnone, hsome⟩
  · rw [Function.update_of_ne hu, Function.update_of_ne hu]
    exact h u

/-- Only the rest of the program of thread `t` changes. -/
theorem Disciplined.advance (h : Disciplined level T) {q : Prog σ ε ι (Next κ ρ)}
    (hprog : T'.prog = Function.update T.prog t (some q)) (hheld : T'.held = T.held)
    (hq : Ordered level [] (T.held t) q) : Disciplined level T' := by
  refine h.change hprog (hheld.trans (Function.update_eq_self t T.held).symm) nofun ?_
  rintro _ ⟨⟩
  exact hq

/-- **Every step keeps the discipline.** -/
theorem Disciplined.step {a : Label τ ι κ ρ} (hcode : ∀ c, Ordered level [] [] (M.code c))
    (h : Disciplined level T) (hstep : Step M T a T') : Disciplined level T' := by
  cases hstep with
  | call hnone _ =>
    refine h.advance rfl rfl ?_
    rw [(h _).1 hnone]
    exact hcode _
  | acquire hp _ =>
    refine h.change rfl rfl nofun ?_
    rintro _ ⟨⟩
    exact ((h _).2 _ hp).2
  | release hp =>
    refine h.change rfl rfl nofun ?_
    rintro _ ⟨⟩
    exact ((h _).2 _ hp).2
  | act hp hf => exact h.advance rfl rfl ((h _).2 _ hp _ _ _ hf)
  | goto hp =>
    have hheld : T.held _ = [] := (h _).2 _ hp
    refine h.advance rfl rfl ?_
    rw [hheld]
    exact hcode _
  | ret hp =>
    have hheld : T.held _ = [] := (h _).2 _ hp
    exact h.change rfl (Function.update_eq_self _ T.held).symm (fun _ => hheld) nofun
  | client _ => exact h

theorem disciplined_of_reach {init : Threads τ σ ε ι κ ρ γ → Prop}
    (hinit : ∀ T, init T → Idle T) (hcode : ∀ c, Ordered level [] [] (M.code c))
    (hr : Reach init (Step M) T) : Disciplined level T :=
  hr.invariant (fun T h => disciplined_of_idle (hinit T h)) fun _ _ _ _ h hs => h.step hcode hs

-- ---------------------------------------------------------------------------
-- A thread on its own
-- ---------------------------------------------------------------------------

/-- A thread whose program, on its own, comes to `a` runs to it. -/
theorem Reach.run {init : Threads τ σ ε ι κ ρ γ → Prop} {p : Prog σ ε ι (Next κ ρ)} {s' : σ}
    {a : Next κ ρ} (hr : Reach init (Step M) T) (hp : T.prog t = some p)
    (hrun : p.run M.locks T.state = .ok (s', a)) :
    ∃ l, Reach init (Step M) { T with
      state := s'
      prog := Function.update T.prog t (some (.ret a))
      held := Function.update T.held t l } := by
  induction p generalizing T with
  | ret b =>
    cases hrun
    refine ⟨T.held t, ?_⟩
    rw [Function.update_eq_self, ← hp, Function.update_eq_self]
    exact hr
  | lock l k ih =>
    obtain ⟨s₁, hacq, hrest⟩ := bind_eq_ok.1 hrun
    obtain ⟨held, hreach⟩ := ih (.step hr (.acquire hp hacq)) (Function.update_self _ _ _) hrest
    simp only [Function.update_idem] at hreach
    exact ⟨held, hreach⟩
  | unlock l k ih =>
    obtain ⟨held, hreach⟩ := ih (.step hr (.release hp)) (Function.update_self _ _ _) hrun
    simp only [Function.update_idem] at hreach
    exact ⟨held, hreach⟩
  | act f k ih =>
    obtain ⟨⟨s₁, b⟩, hf, hrest⟩ := bind_eq_ok.1 hrun
    obtain ⟨held, hreach⟩ := ih b (.step hr (.act hp hf)) (Function.update_self _ _ _) hrest
    simp only [Function.update_idem] at hreach
    exact ⟨held, hreach⟩

/-- The blocks of a call, on their own, come to its return. -/
inductive Returns (M : System σ ε ι κ ρ γ) : σ → κ → σ → ρ → Prop
  | done {s s' : σ} {c : κ} {r : ρ} : (M.code c).run M.locks s = .ok (s', .done r) →
      Returns M s c s' r
  | goto {s s₁ s' : σ} {c c' : κ} {r : ρ} : (M.code c).run M.locks s = .ok (s₁, .goto c') →
      Returns M s₁ c' s' r → Returns M s c s' r

/-- A thread whose call returns on its own runs to that return. -/
theorem Reach.returns {init : Threads τ σ ε ι κ ρ γ → Prop} {c : κ} {s s' : σ} {r : ρ}
    (hret : Returns M s c s' r) (hr : Reach init (Step M) T) (hs : T.state = s)
    (hp : T.prog t = some (M.code c)) :
    ∃ l, Reach init (Step M) { T with
      state := s'
      prog := Function.update T.prog t (some (.ret (.done r)))
      held := Function.update T.held t l } := by
  induction hret generalizing T with
  | done hrun =>
    rw [← hs] at hrun
    exact Reach.run hr hp hrun
  | goto hrun _ ih =>
    rw [← hs] at hrun
    obtain ⟨l, hr₁⟩ := Reach.run hr hp hrun
    obtain ⟨l', hr₂⟩ :=
      ih (.step hr₁ (.goto (t := t) (Function.update_self _ _ _))) rfl (Function.update_self _ _ _)
    simp only [Function.update_idem] at hr₂
    exact ⟨l', hr₂⟩

end MyOs.Locking
