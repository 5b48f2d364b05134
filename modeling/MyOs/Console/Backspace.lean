import MyOs.Console.Lines

/-!
# Backspaces stay in the unfinished line

A `'\b'` takes the last character of the unfinished line, or nothing when there is none.
What stops it at the start of a line is a `'\0'` in front of the line: the terminator of
the line before, and for the first line the last byte of the buffer, since `front` is its
first one. `tty_init` does not clear the buffer, so that byte is what the allocator has
left there.

* `backspaceLaw_of_linesAt` — the law in a state of the invariant.
* `backspaceLaw_iff` — **backspaces edit the unfinished line only** exactly if the last
  byte of the new buffer is `'\0'`.
-/

namespace MyOs.Console

open MyOs.Transition MyOs.Ring

variable {n : Nat} {S : Sys n} {buf : Nat → UInt8}

/-- `tty_init`, with what the buffer of `pmm->alloc` holds. -/
def InitWith (buf : Nat → UInt8) (S : Sys n) : Prop :=
  S.q = ttyInitQueue buf ∧ S.cooked = 0 ∧ (∀ t, S.pc t = .idle) ∧ S.keys = [] ∧
    S.reads = [] ∧ S.passes = 0

/-- The states of all interleavings without a panic, from that buffer on. -/
def ReachableWith (buf : Nat → UInt8) : Sys n → Prop := Reach (InitWith buf) Step

/-- What `tty_cook` of a `'\b'` has to do: nothing when the unfinished line is empty, else it
takes its last character and leaves `front` and the complete lines alone. -/
structure BackspaceLaw (S : Sys n) : Prop where
  empty : (edit S.keys).cur = [] → ttyCook S.q S.cooked backspace = .ok (S.q, S.cooked, 1)
  last : ∀ init ch, (edit S.keys).cur = init ++ [ch] → ∃ q',
    ttyCook S.q S.cooked backspace = .ok (q', S.cooked, 0) ∧ q'.front = S.q.front ∧
    ∃ complete, S.q.contents = complete ++ (init ++ [ch]) ∧ q'.contents = complete ++ init ∧
      ∀ c, complete.getLast? = some c → c = nul

-- ---------------------------------------------------------------------------
-- The law
-- ---------------------------------------------------------------------------

theorem ttyCook_backspace {q : TtyQueue} {cooked : Nat} :
    ttyCook q cooked backspace = .ok ((ttyPopBack q).1, cooked, (ttyPopBack q).2) := rfl

/-- The front of the queue is for the readers. -/
theorem ttyPopBack_front (q : TtyQueue) : (ttyPopBack q).1.front = q.front := by
  simp only [ttyPopBack]
  obtain ⟨pos, hpos⟩ : ∃ pos, pos = (if q.rear = 0 then ttyCookBufSz else q.rear) - 1 := ⟨_, rfl⟩
  rw [← hpos]
  split
  · split
    · rfl
    · rfl
  · rfl

/-- The first key, when it is a `'\b'`. -/
theorem ttyPopBack_init (hbuf : buf (ttyCookBufSz - 1) ≠ nul) :
    (ttyPopBack (ttyInitQueue buf)).2 = 0 := by
  have hfront : (ttyInitQueue buf).front ≠ ttyCookBufSz := ttyCookBufSz_pos.ne
  have hlast : (ttyInitQueue buf).buf (ttyCookBufSz - 1) ≠ nul := hbuf
  unfold ttyPopBack
  rw [if_pos hfront]
  dsimp only
  rw [show (ttyInitQueue buf).rear = 0 from rfl, if_pos rfl, if_pos hlast]

/-- **The law**, from the window of the queue. -/
theorem backspaceLaw_of_linesAt (h : LinesAt S) : BackspaceLaw S := by
  have hholds := h.holds
  constructor
  · intro hcur
    rw [ttyCook_backspace, ttyPopBack_start hholds fun c hc => getLast?_unread hcur hc]
  · intro init ch hcur
    have hch : ch ≠ nul := by
      rintro rfl
      exact h.nonNul.cur (by rw [hcur]; simp)
    unfold Text.unread at hholds
    rw [hcur] at hholds
    have hcontents := hholds.contents_eq
    rw [← List.append_assoc] at hholds
    obtain ⟨q', hpop, hq'⟩ := ttyPopBack_holds hholds hch
    have hfront := ttyPopBack_front S.q
    rw [hpop] at hfront
    refine ⟨q', by rw [ttyCook_backspace, hpop], hfront, _, hcontents, hq'.contents_eq, ?_⟩
    intro c hc
    have hcomplete : (Text.unread { edit S.keys with cur := [] } S.reads.length).getLast? =
        some c := by
      rw [Text.unread, List.append_nil]
      exact hc
    exact getLast?_unread rfl hcomplete

-- ---------------------------------------------------------------------------
-- All interleavings
-- ---------------------------------------------------------------------------

/-- The byte in front of the first line is the last one of the buffer. -/
theorem linesAt_initWith (hbuf : buf (ttyCookBufSz - 1) = nul) (h : InitWith buf S) :
    LinesAt S := by
  obtain ⟨hq, hcooked, hpc, hkeys, hreads, -⟩ := h
  refine ⟨?_, ?_, ?_, fun i r hr => ?_⟩
  · rw [hq, hkeys, hreads]
    exact holds_ttyInitQueue hbuf
  · rw [hkeys]
    exact ⟨nofun, nofun⟩
  · rw [hkeys, hreads, hcooked, Census.census_eq_zero fun t => by rw [hpc]; rfl]
    rfl
  · rw [hreads] at hr
    cases hr

theorem linesAt_of_reachableWith (hbuf : buf (ttyCookBufSz - 1) = nul)
    (h : ReachableWith buf S) : LinesAt S :=
  Reach.invariant (I := LinesAt) (fun _ hinit => linesAt_initWith hbuf hinit)
    (fun _ _ _ _ hinv hstep => linesAt_step hinv hstep) h

/-- `tty_init` itself. -/
def Sys.start (n : Nat) (buf : Nat → UInt8) : Sys n :=
  { q := ttyInitQueue buf, cooked := 0, pc := fun _ => .idle, keys := [], reads := [], passes := 0 }

theorem reachableWith_start : ReachableWith buf (Sys.start n buf) :=
  .init ⟨rfl, rfl, fun _ => rfl, rfl, rfl, rfl⟩

/-- Where the law holds at the start, a `'\b'` as the first key finds a `'\0'`. -/
theorem BackspaceLaw.last_byte (h : BackspaceLaw (Sys.start n buf)) :
    buf (ttyCookBufSz - 1) = nul := by
  by_contra hbuf
  have hret : (ttyPopBack (ttyInitQueue buf)).2 = 1 :=
    congrArg (fun r => r.2.2) (Except.ok.inj (h.empty rfl))
  rw [ttyPopBack_init hbuf] at hret
  cases hret

/-- **Backspaces edit the unfinished line only**, in all interleavings from a buffer, exactly if
the last byte of that buffer is `'\0'`. -/
theorem backspaceLaw_iff (n : Nat) (buf : Nat → UInt8) :
    (∀ S : Sys n, ReachableWith buf S → BackspaceLaw S) ↔ buf (ttyCookBufSz - 1) = nul := by
  constructor
  · intro hlaw
    exact (hlaw _ reachableWith_start).last_byte
  · intro hbuf S h
    exact backspaceLaw_of_linesAt (linesAt_of_reachableWith hbuf h)

/-- A buffer of ones: the first `'\b'` moves `rear` back over the start of the buffer. -/
theorem not_backspaceLaw : ¬ ∀ (buf : Nat → UInt8) (S : Sys 1), ReachableWith buf S →
    BackspaceLaw S := by
  intro hlaw
  have hbyte := (hlaw (fun _ => 1) _ reachableWith_start).last_byte
  revert hbyte
  decide

end MyOs.Console
