import MyOs.Lib.Census
import MyOs.Console.Cooked

/-!
# The cooked queue delivers lines

The window of the ring between `front` and `rear` holds the lines that have not been
read yet, each with its `'\0'`, and the characters of the unfinished one (`Holds`). A
`'\0'` stands in front of the window, too, which is what stops the backspaces at the
start of a line.

* `ttyEnqueue_holds`, `ttyPopBack_holds`, `ttyRead_holds` — the operations on the window.
* `linesAt_of_reachable` — the invariant of all interleavings.
* `reads_deliver_lines` — the reads deliver the lines in the order of their bodies.
* `reads_out_of_pass_order` — which is not the order in which they pass the semaphore.
-/

namespace MyOs.Console

open MyOs.Census MyOs.Ring MyOs.Transition

variable {n : Nat} {S S' : Sys n} {q q' : TtyQueue} {text line rest out : List UInt8} {ch : UInt8}
  {t : Fin n} {count : Int} {fuel : Nat}

-- ---------------------------------------------------------------------------
-- The window
-- ---------------------------------------------------------------------------

/-- The queue holds `text`. -/
structure Holds (q : TtyQueue) (text : List UInt8) : Prop where
  front_lt : q.front < ttyCookBufSz
  lt : text.length < ttyCookBufSz
  rear_eq : q.rear = slot ttyCookBufSz q.front text.length
  window_eq : window ttyCookBufSz q.buf q.front text.length = text
  before : q.buf (slot ttyCookBufSz q.front (ttyCookBufSz - 1)) = nul

theorem ttyCookBufSz_pos : 0 < ttyCookBufSz := by decide

/-- The byte in front of the new window is the last one of the buffer. -/
theorem holds_ttyInitQueue {buf : Nat → UInt8} (h : buf (ttyCookBufSz - 1) = nul) :
    Holds (ttyInitQueue buf) [] := by
  have hslot : slot ttyCookBufSz 0 (ttyCookBufSz - 1) = ttyCookBufSz - 1 := by decide
  refine ⟨ttyCookBufSz_pos, ttyCookBufSz_pos, rfl, rfl, ?_⟩
  exact (congrArg buf hslot).trans h

theorem wrap_eq_slot {pos : Nat} (h : pos < ttyCookBufSz) :
    wrap pos = slot ttyCookBufSz pos 1 := (slot_one h).symm

theorem Holds.rear_lt (h : Holds q text) : q.rear < ttyCookBufSz := by
  rw [h.rear_eq]
  exact slot_lt ttyCookBufSz_pos

theorem Holds.wrap_rear (h : Holds q text) :
    wrap q.rear = slot ttyCookBufSz q.front (text.length + 1) := by
  rw [wrap_eq_slot h.rear_lt, h.rear_eq, slot_slot]

/-- **`tty_enqueue`** appends a character, or the queue is full. -/
theorem ttyEnqueue_holds (h : Holds q text) (ch : UInt8) :
    (text.length + 1 = ttyCookBufSz ∧ ttyEnqueue q ch = .error .ttyQueueFull) ∨
      ∃ q', ttyEnqueue q ch = .ok q' ∧ Holds q' (text ++ [ch]) := by
  have hlt := h.lt
  unfold ttyEnqueue
  dsimp only
  rw [h.wrap_rear]
  by_cases hfull : text.length + 1 = ttyCookBufSz
  · refine .inl ⟨hfull, if_pos ?_⟩
    rw [hfull]
    unfold slot
    rw [Nat.add_mod_right, Nat.mod_eq_of_lt h.front_lt]
  · have hlt' : text.length + 1 < ttyCookBufSz := by omega
    have hroom : slot ttyCookBufSz q.front (text.length + 1) ≠ q.front := fun heq => by
      have := slot_inj hlt' ttyCookBufSz_pos (heq.trans (slot_zero h.front_lt).symm)
      omega
    rw [if_neg hroom]
    refine .inr ⟨_, rfl, ⟨h.front_lt, ?_, ?_, ?_, ?_⟩⟩
    · rwa [List.length_append]
    · rw [List.length_append]
      rfl
    · -- the new terminator is behind the window
      rw [List.length_append, List.length_singleton, window_update, h.rear_eq,
        window_push hlt, h.window_eq]
      exact fun m hm heq => absurd (slot_inj (by omega) hlt' heq) (by omega)
    · dsimp only
      by_cases hbefore : slot ttyCookBufSz q.front (ttyCookBufSz - 1) =
          slot ttyCookBufSz q.front (text.length + 1)
      · rw [hbefore, Function.update_self]
      · rw [Function.update_of_ne hbefore, Function.update_of_ne, h.before]
        rw [h.rear_eq]
        exact fun heq => absurd (slot_inj (by omega) hlt heq) (by omega)

/-- The slot in front of `rear`. -/
theorem Holds.pred_rear (h : Holds q text) :
    (if q.rear = 0 then ttyCookBufSz else q.rear) - 1 =
      slot ttyCookBufSz q.front (text.length + (ttyCookBufSz - 1)) := by
  have hlt : q.rear < 1024 := h.rear_lt
  rw [← slot_slot, ← h.rear_eq]
  show (if q.rear = 0 then 1024 else q.rear) - 1 = (q.rear + 1023) % 1024
  split
  · omega
  · omega

/-- **`tty_pop_back`** of a character. -/
theorem ttyPopBack_holds (h : Holds q (text ++ [ch])) (hch : ch ≠ nul) :
    ∃ q', ttyPopBack q = (q', 0) ∧ Holds q' text := by
  have hlt := h.lt
  have hwindow := h.window_eq
  rw [List.length_append, List.length_singleton] at hlt
  rw [List.length_append, List.length_singleton, window_succ] at hwindow
  obtain ⟨hinit, hlast⟩ := List.append_inj' hwindow rfl
  have hpos : (if q.rear = 0 then ttyCookBufSz else q.rear) - 1 =
      slot ttyCookBufSz q.front text.length := by
    rw [h.pred_rear, List.length_append, List.length_singleton]
    unfold slot
    rw [show q.front + (text.length + 1 + (ttyCookBufSz - 1)) =
      q.front + text.length + ttyCookBufSz by omega, Nat.add_mod_right]
  have hchar : q.buf (slot ttyCookBufSz q.front text.length) = ch := List.singleton_inj.1 hlast
  unfold ttyPopBack
  rw [if_pos (Nat.ne_of_lt h.front_lt)]
  dsimp only
  rw [hpos, hchar, if_pos hch]
  refine ⟨_, rfl, ⟨h.front_lt, by omega, rfl, ?_, ?_⟩⟩
  · rw [window_update, hinit]
    exact fun m hm heq => absurd (slot_inj (by omega) (by omega) heq) (by omega)
  · dsimp only
    rw [Function.update_of_ne, h.before]
    exact fun heq => absurd (slot_inj (by omega) (by omega) heq) (by omega)

/-- **`tty_pop_back`** at the start of a line. -/
theorem ttyPopBack_start (h : Holds q text) (hstart : ∀ ch, text.getLast? = some ch → ch = nul) :
    ttyPopBack q = (q, 1) := by
  have hlast : q.buf (slot ttyCookBufSz q.front (text.length + (ttyCookBufSz - 1))) = nul := by
    rcases List.eq_nil_or_concat text with rfl | ⟨init, ch, rfl⟩
    · rw [List.length_nil, Nat.zero_add]
      exact h.before
    · have hwindow := h.window_eq
      rw [List.concat_eq_append] at *
      rw [List.length_append, List.length_singleton, window_succ] at hwindow
      have hchar := List.singleton_inj.1 (List.append_inj' hwindow rfl).2
      rw [List.length_append, List.length_singleton]
      unfold slot at hchar ⊢
      rw [show q.front + (init.length + 1 + (ttyCookBufSz - 1)) =
        q.front + init.length + ttyCookBufSz by have := ttyCookBufSz_pos; omega,
        Nat.add_mod_right, hchar]
      exact hstart ch List.getLast?_concat
  unfold ttyPopBack
  rw [if_pos (Nat.ne_of_lt h.front_lt)]
  dsimp only
  rw [h.pred_rear, hlast, if_neg (fun hne => hne rfl)]

-- ---------------------------------------------------------------------------
-- `tty_read`
-- ---------------------------------------------------------------------------

/-- The loop runs to the end of the line. Induction on the line: each round takes its
first character. -/
theorem ttyReadLoop_line (hline : nul ∉ line) (hfront : q.front < ttyCookBufSz)
    (hwindow : window ttyCookBufSz q.buf q.front (line.length + 1) = line ++ [nul])
    (hfuel : line.length < fuel) :
    ttyReadLoop count fuel q out =
      some ({ q with front := slot ttyCookBufSz q.front (line.length + 1) },
        out ++ line.take (count.toNat - out.length)) := by
  induction line generalizing q out fuel with
  | nil =>
    obtain ⟨fuel, rfl⟩ := Nat.exists_eq_succ_of_ne_zero (Nat.ne_of_gt hfuel)
    rw [List.length_nil, Nat.zero_add, window_succ, slot_zero hfront] at hwindow
    have hch : q.buf q.front = nul := List.singleton_inj.1 hwindow
    rw [ttyReadLoop]
    rw [hch, if_pos rfl, if_neg (fun h => h.2 rfl), wrap_eq_slot hfront, List.take_nil,
      List.append_nil]
    rfl
  | cons ch line ih =>
    obtain ⟨fuel, rfl⟩ : ∃ d, fuel = d + 1 := ⟨fuel - 1, by rw [List.length_cons] at hfuel; omega⟩
    rw [List.length_cons, window_pop hfront, List.cons_append, List.cons.injEq] at hwindow
    obtain ⟨hch, htail⟩ := hwindow
    obtain ⟨hne, hline⟩ := not_or.1 (mt List.mem_cons.2 hline)
    have hch' : ch ≠ nul := fun h => hne h.symm
    rw [ttyReadLoop]
    rw [hch, if_neg hch', wrap_eq_slot hfront,
      ih (q := { q with front := slot ttyCookBufSz q.front 1 }) hline (slot_lt ttyCookBufSz_pos)
        htail (by rw [List.length_cons] at hfuel; omega)]
    dsimp only
    rw [slot_slot, List.length_cons, Nat.add_comm 1]
    congr 2
    by_cases hroom : (out.length : Int) < count
    · rw [if_pos ⟨hroom, hch'⟩, List.length_append, List.length_singleton,
        show count.toNat - out.length = count.toNat - (out.length + 1) + 1 by omega,
        List.take_succ_cons, List.append_assoc, List.singleton_append]
    · rw [if_neg (fun h => hroom h.1), show count.toNat - out.length = 0 by omega, List.take_zero,
        List.take_zero]

/-- **`tty_read`** delivers what fits of the first line, and the line is gone. -/
theorem ttyRead_holds (h : Holds q (line ++ nul :: rest)) (hline : nul ∉ line) (count : Int) :
    ∃ q', ttyRead q count = some (q', delivered count line) ∧ Holds q' rest := by
  have hlt := h.lt
  have hlength : (line ++ nul :: rest).length = line.length + 1 + rest.length := by
    rw [List.length_append, List.length_cons]
    omega
  have hwindow := h.window_eq
  rw [hlength] at hlt
  rw [hlength, window_add, List.append_cons] at hwindow
  obtain ⟨hhead, htail⟩ := List.append_inj hwindow (by simp)
  refine ⟨{ q with front := slot ttyCookBufSz q.front (line.length + 1) }, ?_,
    ⟨slot_lt ttyCookBufSz_pos, by omega, ?_, htail, ?_⟩⟩
  · unfold ttyRead delivered
    rw [ttyReadLoop_line hline h.front_lt hhead (by omega), List.nil_append, List.length_nil,
      Nat.sub_zero]
  · dsimp only
    rw [h.rear_eq, hlength, slot_slot]
  · -- the terminator of the line
    dsimp only
    rw [window_succ] at hhead
    have hnul := List.singleton_inj.1 (List.append_inj' hhead rfl).2
    rw [slot_slot]
    unfold slot at hnul ⊢
    rw [show q.front + (line.length + 1 + (ttyCookBufSz - 1)) =
      q.front + line.length + ttyCookBufSz by have := ttyCookBufSz_pos; omega, Nat.add_mod_right]
    exact hnul

-- ---------------------------------------------------------------------------
-- Text
-- ---------------------------------------------------------------------------

/-- What the queue holds of a text of which `k` lines have been read. -/
def Text.unread (text : Text) (k : Nat) : List UInt8 :=
  (text.lines.drop k).flatMap (· ++ [nul]) ++ text.cur

/-- No character of the text is a `'\0'`. -/
structure Text.NonNul (text : Text) : Prop where
  lines : ∀ line ∈ text.lines, nul ∉ line
  cur : nul ∉ text.cur

theorem edit_concat (keys : List UInt8) (ch : UInt8) :
    edit (keys ++ [ch]) = (edit keys).key ch := by
  rw [edit, List.foldl_append]
  rfl

theorem nonNul_key {text : Text} (h : text.NonNul) (hch : ch ≠ nul) : (text.key ch).NonNul := by
  have hnl : nul ≠ newline := by decide
  have hcur : ∀ c, c ≠ nul → nul ∉ text.cur ++ [c] := fun c hc hmem => by
    rcases List.mem_append.1 hmem with hmem | hmem
    · exact h.cur hmem
    · exact hc (List.mem_singleton.1 hmem).symm
  unfold Text.key
  by_cases hnewline : ch = newline
  · rw [if_pos hnewline]
    refine ⟨fun line hline => ?_, List.not_mem_nil⟩
    rcases List.mem_append.1 hline with hline | hline
    · exact h.lines line hline
    · obtain rfl := List.mem_singleton.1 hline
      exact hcur newline hnl.symm
  · rw [if_neg hnewline]
    by_cases hback : ch = backspace
    · rw [if_pos hback]
      exact ⟨h.lines, fun hmem => h.cur (List.dropLast_subset _ hmem)⟩
    · rw [if_neg hback]
      exact ⟨h.lines, hcur ch hch⟩

/-- What ends the unread lines is a `'\0'`. -/
theorem getLast?_unread {text : Text} {k : Nat} (hcur : text.cur = [])
    (h : (text.unread k).getLast? = some ch) : ch = nul := by
  unfold Text.unread at h
  rw [hcur, List.append_nil] at h
  rcases List.eq_nil_or_concat (text.lines.drop k) with hnil | ⟨init, line, hlines⟩
  · rw [hnil] at h
    cases h
  · rw [hlines, List.concat_eq_append, List.flatMap_append, List.flatMap_singleton,
      ← List.append_assoc, List.getLast?_concat] at h
    exact (Option.some.inj h).symm

/-- The terminators are the unread lines. -/
theorem count_unread {text : Text} (h : text.NonNul) (k : Nat) :
    (text.unread k).count nul = text.lines.length - k := by
  have hflat : ∀ l : List (List UInt8), (∀ line ∈ l, nul ∉ line) →
      (l.flatMap (· ++ [nul])).count nul = l.length := by
    intro l hl
    induction l with
    | nil => rfl
    | cons line l ih =>
      rw [List.flatMap_cons, List.count_append, List.count_append,
        List.count_eq_zero_of_not_mem (hl line List.mem_cons_self), List.count_singleton_self,
        ih fun line' hline' => hl line' (List.mem_cons_of_mem line hline'), List.length_cons]
      omega
  unfold Text.unread
  rw [List.count_append, List.count_eq_zero_of_not_mem h.cur,
    hflat _ fun line hline => h.lines line (List.mem_of_mem_drop hline), List.length_drop]
  rfl

-- ---------------------------------------------------------------------------
-- The invariant
-- ---------------------------------------------------------------------------

/-- The queue holds what the keys have made and the reads have left. -/
structure LinesAt (S : Sys n) : Prop where
  holds : Holds S.q ((edit S.keys).unread S.reads.length)
  nonNul : (edit S.keys).NonNul
  count : (edit S.keys).lines.length = S.reads.length + S.cooked + census Pc.isPassed S.pc
  reads : ∀ (i : Nat) (r : Read), S.reads[i]? = some r →
    ∃ line, (edit S.keys).lines[i]? = some line ∧ r.out = delivered r.count line

theorem linesAt_init (h : Init S) : LinesAt S := by
  obtain ⟨hq, hcooked, hpc, hkeys, hreads, -⟩ := h
  refine ⟨?_, ?_, ?_, fun i r hr => ?_⟩
  · rw [hq, hkeys, hreads]
    exact holds_ttyInitQueue rfl
  · rw [hkeys]
    exact ⟨nofun, nofun⟩
  · rw [hkeys, hreads, hcooked, census_eq_zero fun t => by rw [hpc]; rfl]
    rfl
  · rw [hreads] at hr
    cases hr

/-- **`tty_cook`** does to the queue what the key does to the text. -/
theorem ttyCook_holds {text : Text} {k cooked cooked' ret : Nat} (h : Holds q (text.unread k))
    (hnon : text.NonNul) (hk : k ≤ text.lines.length)
    (hcall : ttyCook q cooked ch = .ok (q', cooked', ret)) :
    Holds q' ((text.key ch).unread k) ∧
      cooked' + text.lines.length = cooked + (text.key ch).lines.length := by
  have hput : ∀ {q q' : TtyQueue} {t : List UInt8} {c : UInt8}, Holds q t →
      ttyEnqueue q c = .ok q' → Holds q' (t ++ [c]) := by
    intro q q' t c hq hrun
    rcases ttyEnqueue_holds hq c with ⟨-, hfull⟩ | ⟨q₁, hrun₁, hq₁⟩
    · cases hrun.symm.trans hfull
    · cases hrun.symm.trans hrun₁
      exact hq₁
  unfold ttyCook at hcall
  unfold Text.key
  by_cases hnewline : ch = newline
  · rw [if_pos hnewline] at hcall ⊢
    obtain ⟨q₁, hrun₁, hcall⟩ := bind_eq_ok.1 hcall
    obtain ⟨q₂, hrun₂, hcall⟩ := bind_eq_ok.1 hcall
    cases hcall
    have hq₂ := hput (hput h hrun₁) hrun₂
    refine ⟨?_, by rw [List.length_append, List.length_singleton]; omega⟩
    -- the line is complete
    unfold Text.unread at hq₂ ⊢
    rw [List.drop_append_of_le_length hk, List.flatMap_append, List.flatMap_singleton,
      List.append_nil, ← hnewline]
    simpa only [List.append_assoc] using hq₂
  · rw [if_neg hnewline] at hcall ⊢
    by_cases hback : ch = backspace
    · rw [if_pos hback] at hcall ⊢
      rcases List.eq_nil_or_concat text.cur with hcur | ⟨init, c, hcur⟩
      · rw [ttyPopBack_start h fun c hc => getLast?_unread hcur hc] at hcall
        cases hcall
        refine ⟨?_, rfl⟩
        unfold Text.unread at h ⊢
        rw [hcur] at h ⊢
        exact h
      · rw [List.concat_eq_append] at hcur
        unfold Text.unread at h
        rw [hcur, ← List.append_assoc] at h
        have hc : c ≠ nul := by
          rintro rfl
          exact hnon.cur (by rw [hcur]; simp)
        obtain ⟨q₁, hpop, hq₁⟩ := ttyPopBack_holds h hc
        rw [hpop] at hcall
        cases hcall
        refine ⟨?_, rfl⟩
        unfold Text.unread
        rw [hcur, List.dropLast_concat]
        exact hq₁
    · rw [if_neg hback] at hcall ⊢
      obtain ⟨q₁, hrun₁, hcall⟩ := bind_eq_ok.1 hcall
      cases hcall
      refine ⟨?_, rfl⟩
      unfold Text.unread at h ⊢
      rw [← List.append_assoc]
      exact hput h hrun₁

/-- What a key does to the lines that are complete already: nothing. -/
theorem getElem?_key {text : Text} {i : Nat} (h : text.lines[i]? = some line) (ch : UInt8) :
    (text.key ch).lines[i]? = some line := by
  unfold Text.key
  split
  · rw [List.getElem?_append_left (List.getElem?_eq_some_iff.1 h).1]
    exact h
  · split
    · exact h
    · exact h

/-- **The next read**: a task behind the semaphore finds a line, and takes it. -/
theorem LinesAt.next_read (h : LinesAt S) (ht : (S.pc t).isPassed = true) (count : Int) :
    ∃ line q', (edit S.keys).lines[S.reads.length]? = some line ∧
      ttyRead S.q count = some (q', delivered count line) ∧
      Holds q' ((edit S.keys).unread (S.reads.length + 1)) := by
  have hpos := census_pos ht
  have hcount := h.count
  have hlt : S.reads.length < (edit S.keys).lines.length := by omega
  obtain ⟨line, hline⟩ : ∃ line, (edit S.keys).lines[S.reads.length]? = some line :=
    ⟨_, List.getElem?_eq_getElem hlt⟩
  have hdrop : (edit S.keys).lines.drop S.reads.length =
      line :: (edit S.keys).lines.drop (S.reads.length + 1) := by
    rw [List.drop_eq_getElem_cons hlt, (List.getElem?_eq_some_iff.1 hline).2]
  have hholds := h.holds
  unfold Text.unread at hholds
  rw [hdrop, List.flatMap_cons, List.append_assoc, List.append_assoc, List.singleton_append]
    at hholds
  obtain ⟨q', hrun, hq'⟩ :=
    ttyRead_holds hholds (h.nonNul.lines line (List.mem_of_getElem? hline)) count
  exact ⟨line, q', hline, hrun, hq'⟩

/-- **Every step keeps the invariant.** -/
theorem linesAt_step {a : Label n} (h : LinesAt S) (hstep : Step S a S') : LinesAt S' := by
  have hcount := h.count
  cases hstep with
  | @cook ch q cooked ret hch hcall =>
    obtain ⟨hholds, hlines⟩ := ttyCook_holds h.holds h.nonNul (by omega) hcall
    refine ⟨?_, ?_, ?_, fun i r hr => ?_⟩
    · rw [edit_concat]
      exact hholds
    · rw [edit_concat]
      exact nonNul_key h.nonNul hch
    · rw [edit_concat]
      show _ = S.reads.length + cooked + census Pc.isPassed S.pc
      omega
    · obtain ⟨line, hline, hout⟩ := h.reads i r hr
      rw [edit_concat]
      exact ⟨line, getElem?_key hline ch, hout⟩
  | @pass t count hpc hcooked =>
    have hcensus := census_update (p := Pc.isPassed) (f := S.pc) (t := t)
      (x := .passed S.passes count)
    rw [hpc] at hcensus
    refine ⟨h.holds, h.nonNul, ?_, h.reads⟩
    show (edit S.keys).lines.length = S.reads.length + (S.cooked - 1) +
      census Pc.isPassed (Function.update S.pc t (.passed S.passes count))
    simp only [Pc.isPassed, Bool.toNat_false, Bool.toNat_true] at hcensus
    omega
  | @read t pass count q out hpc hcall =>
    have hpassed : (S.pc t).isPassed = true := by rw [hpc]; rfl
    have hcensus := census_update (p := Pc.isPassed) (f := S.pc) (t := t) (x := .idle)
    obtain ⟨line, q', hline, hrun, hq'⟩ := h.next_read hpassed count
    cases hcall.symm.trans hrun
    refine ⟨?_, h.nonNul, ?_, fun i r hr => ?_⟩
    · rw [List.length_append]
      exact hq'
    · show (edit S.keys).lines.length = (S.reads ++ [_]).length + S.cooked +
        census Pc.isPassed (Function.update S.pc t .idle)
      rw [hpassed] at hcensus
      simp only [Pc.isPassed, Bool.toNat_false, Bool.toNat_true] at hcensus
      rw [List.length_append, List.length_singleton]
      omega
    · -- the read that has just been added is the next one
      rcases Nat.lt_trichotomy i S.reads.length with hi | rfl | hi
      · exact h.reads i r (by rwa [List.getElem?_append_left hi] at hr)
      · rw [List.getElem?_concat_length] at hr
        cases hr
        exact ⟨line, hline, rfl⟩
      · rw [List.getElem?_eq_none (by rw [List.length_append, List.length_singleton]; omega)] at hr
        cases hr

theorem linesAt_of_reachable (h : Reachable S) : LinesAt S :=
  Reach.invariant (I := LinesAt) (fun _ hinit => linesAt_init hinit)
    (fun _ _ _ _ hinv hstep => linesAt_step hinv hstep) h

-- ---------------------------------------------------------------------------
-- All interleavings
-- ---------------------------------------------------------------------------

/-- The characters between `front` and `rear`. -/
def TtyQueue.contents (q : TtyQueue) : List UInt8 :=
  window ttyCookBufSz q.buf q.front ((q.rear + ttyCookBufSz - q.front) % ttyCookBufSz)

theorem Holds.contents_eq (h : Holds q text) : q.contents = text := by
  unfold TtyQueue.contents
  rw [h.rear_eq, slot_dist h.front_lt h.lt]
  exact h.window_eq

/-- **The reads deliver the lines in order.** The `i`-th body of `tty_read` delivers the
first characters of the `i`-th line; the queue holds the later lines and the unfinished
one; its terminators are the value of `cooked` and the readers that have passed it; and
such a reader, when its body runs, takes the next line and nothing else. -/
theorem reads_deliver_lines (h : Reachable S) :
    (∀ (i : Nat) (r : Read), S.reads[i]? = some r →
      ∃ line, (edit S.keys).lines[i]? = some line ∧ r.out = delivered r.count line) ∧
      S.q.contents = (edit S.keys).unread S.reads.length ∧
      S.q.contents.count nul = S.cooked + census Pc.isPassed S.pc ∧
      ∀ t pass count, S.pc t = .passed pass count → ∃ line q',
        (edit S.keys).lines[S.reads.length]? = some line ∧
        ttyRead S.q count = some (q', delivered count line) ∧
        q'.contents = (edit S.keys).unread (S.reads.length + 1) := by
  have hlines := linesAt_of_reachable h
  have hcount := hlines.count
  refine ⟨hlines.reads, hlines.holds.contents_eq, ?_, fun t pass count hpc => ?_⟩
  · rw [hlines.holds.contents_eq, count_unread hlines.nonNul]
    omega
  · obtain ⟨line, q', hline, hrun, hq'⟩ := hlines.next_read (t := t) (by rw [hpc]; rfl) count
    exact ⟨line, q', hline, hrun, hq'.contents_eq⟩

/-- The keys `a`, newline, `b`, newline: two readers pass the semaphore, and the second
one is the first to take the lock. -/
theorem exists_overtaken : ∃ S : Sys 2, Reachable S ∧ S.keys = [97, 10, 98, 10] ∧
    S.pc 0 = .passed 0 9 ∧ ∃ out, S.reads = [⟨1, 9, out⟩] := by
  have hcook : ∀ {S : Sys 2} (ch : UInt8) (q : TtyQueue) (cooked ret : Nat), Reachable S →
      ch ≠ nul → ttyCook S.q S.cooked ch = .ok (q, cooked, ret) →
      Reachable { S with q, cooked, keys := S.keys ++ [ch] } :=
    fun ch q cooked ret h hch hcall => .step h (.cook hch hcall)
  have hpass : ∀ {S : Sys 2} (t : Fin 2) (count : Int), Reachable S → S.pc t = .idle →
      0 < S.cooked → Reachable { S with
        cooked := S.cooked - 1
        pc := Function.update S.pc t (.passed S.passes count)
        passes := S.passes + 1 } :=
    fun t count h hidle hcooked => .step h (.pass hidle hcooked)
  have h0 : Reachable (n := 2) ⟨ttyInitQueue fun _ => nul, 0, fun _ => .idle, [], [], 0⟩ :=
    .init ⟨rfl, rfl, fun _ => rfl, rfl, rfl, rfl⟩
  have h1 := hcook 97 _ _ _ h0 (by decide) rfl
  have h2 := hcook 10 _ _ _ h1 (by decide) rfl
  have h3 := hcook 98 _ _ _ h2 (by decide) rfl
  have h4 := hcook 10 _ _ _ h3 (by decide) rfl
  have h5 := hpass 0 9 h4 rfl (by decide)
  have h6 := hpass 1 9 h5 rfl (by decide)
  obtain ⟨line, q', -, hrun, -⟩ := (linesAt_of_reachable h6).next_read (t := 1) rfl 9
  exact ⟨_, .step h6 (.read (t := 1) rfl hrun), rfl, rfl, _, rfl⟩

/-- **Not in the order of the semaphore.** The second reader to pass it delivers the
first line. -/
theorem reads_out_of_pass_order : ∃ S : Sys 2, Reachable S ∧ ¬ ∀ r ∈ S.reads,
    ∃ line, (edit S.keys).lines[r.pass]? = some line ∧ r.out = delivered r.count line := by
  obtain ⟨S, h, hkeys, -, out, hreads⟩ := exists_overtaken
  refine ⟨S, h, fun horder => ?_⟩
  have hlines : (edit S.keys).lines = [[97, 10], [98, 10]] := by
    rw [hkeys]
    decide
  obtain ⟨first, hfirst, hout⟩ :=
    (linesAt_of_reachable h).reads 0 ⟨1, 9, out⟩ (by rw [hreads]; rfl)
  obtain ⟨second, hsecond, hout'⟩ := horder ⟨1, 9, out⟩ (by rw [hreads]; simp)
  rw [hlines] at hfirst hsecond
  cases hfirst
  cases hsecond
  dsimp only at hout hout'
  rw [hout] at hout'
  revert hout'
  decide

/-- In that state the reader that has been overtaken gets the second line. -/
theorem reads_deliver_lines_second : ∃ S : Sys 2, Reachable S ∧ S.q.contents = [98, 10, 0] ∧
    ∃ q', ttyRead S.q 9 = some (q', [98, 10]) ∧ q'.contents = [] := by
  obtain ⟨S, h, hkeys, hpc, out, hreads⟩ := exists_overtaken
  obtain ⟨-, hcontents, -, hnext⟩ := reads_deliver_lines h
  obtain ⟨line, q', hline, hrun, hrest⟩ := hnext 0 0 9 hpc
  rw [hkeys, hreads] at hcontents hline hrest
  have hline' : line = [98, 10] := by
    have hsecond : (edit [97, 10, 98, 10]).lines[1]? = some [98, 10] := by decide
    exact Option.some.inj (hline.symm.trans hsecond)
  rw [hline'] at hrun
  exact ⟨S, h, hcontents, q', hrun, hrest⟩

end MyOs.Console
