import MyOs.Lib.Split
import MyOs.Pstree.Load

/-!
# pstree — the record of a process

The line of `/proc/<pid>/stat` starts with the pid, the name of the program in parentheses,
a letter and the pid of the parent. `fscanf` takes the name as a word, which ends at the
first white space, but the name of a program may contain white space. Then the name is cut
off, the fields behind it are read from the rest of the name, and a name that starts with
white space leaves `rm_paren` with the single character `(`, of which it copies `-1`
characters.

* `fscanf_text`, `fscanf_cut` — what `fscanf` finds, without and with white space in the name.
* `load_text` — a name without white space.
* `stat_read_iff` — **a record is read as it stands exactly when its name has no white space**.
-/

namespace MyOs.Pstree

open MyOs.Split MyOs.Word

-- ---------------------------------------------------------------------------
-- The record
-- ---------------------------------------------------------------------------

/-- `%d` of `printf`. -/
def decimal (n : Nat) : List Char := Nat.toDigits 10 n

/-- What the kernel says about a process. -/
structure Stat where
  pid : Nat
  comm : List Char
  state : Char
  ppid : Nat
  rest : List Char
  pid_pos : 0 < pid
  pid_lt : pid < 2 ^ 31
  ppid_lt : ppid < 2 ^ 31
  comm_ne_nil : comm ≠ []
  comm_length : comm.length ≤ 15
  comm_chars : ∀ c ∈ comm, c ≠ '\x00' ∧ c ≠ '\n'
  state_letter : state.isAlpha = true

/-- A line, with a word and what is behind it. -/
def Stat.line (pid : Nat) (word tail : List Char) : List Char :=
  decimal pid ++ ' ' :: (word ++ tail)

/-- What stands behind the name. -/
def Stat.tail (s : Stat) : List Char :=
  ' ' :: s.state :: ' ' :: (decimal s.ppid ++ ' ' :: s.rest)

/-- The text of the file. -/
def Stat.text (s : Stat) : List Char := Stat.line s.pid ('(' :: (s.comm ++ [')'])) s.tail

/-- What `-p` puts behind a name. -/
def pidText (showPid : Bool) (dName : List Char) : List Char :=
  if showPid then '(' :: (dName ++ [')']) else []

/-- The name that `pstree` shows. -/
def Stat.name (s : Stat) (showPid : Bool) : List Char := s.comm ++ pidText showPid (decimal s.pid)

def Stat.entry (s : Stat) (showPid : Bool) : Entry where
  pid := some s.pid
  name := some (s.name showPid)
  ppid := some s.ppid

/-- The path of the file. -/
def Stat.path (s : Stat) : List Char := procDir ++ decimal s.pid ++ statFile

-- ---------------------------------------------------------------------------
-- Numbers
-- ---------------------------------------------------------------------------

theorem isDigit_of_mem_decimal {n : Nat} {c : Char} (h : c ∈ decimal n) : c.isDigit = true :=
  Nat.isDigit_of_mem_toDigits (by decide) (by decide) h

theorem decimal_ne_nil (n : Nat) : decimal n ≠ [] := Nat.toDigits_ne_nil

theorem decimal_length {n : Nat} (h : n < 2 ^ 31) : (decimal n).length ≤ 10 :=
  (Nat.length_toDigits_le_iff (by decide) (by decide)).2 (h.trans (by decide))

/-- White space has small codes. -/
theorem isSpace_eq_false {c : Char} (h : ' '.toNat < c.toNat) : isSpace c = false := by
  refine decide_eq_false ?_
  rintro (rfl | ⟨-, hle⟩)
  · exact lt_irrefl _ h
  · have hhigh : c.toNat ≤ '\r'.toNat := hle
    exact absurd (h.trans_le hhigh) (by decide)

/-- A digit is no white space and no sign. -/
theorem digit_plain {c : Char} (h : c.isDigit = true) : isSpace c = false ∧ c ≠ '-' ∧ c ≠ '+' := by
  have hlow := (Char.isDigit_iff_toNat.1 h).1
  refine ⟨isSpace_eq_false (lt_of_lt_of_le (by decide) hlow), ?_, ?_⟩
  · rintro rfl
    exact absurd h (by decide)
  · rintro rfl
    exact absurd h (by decide)

theorem skipSpace_of_space {c : Char} (h : isSpace c = true) (text : List Char) :
    skipSpace (c :: text) = skipSpace text := List.dropWhile_cons_of_pos h

theorem skipSpace_of_not {c : Char} (h : isSpace c = false) (text : List Char) :
    skipSpace (c :: text) = c :: text := List.dropWhile_cons_of_neg (by rw [h]; decide)

/-- **`%d`** reads a number. -/
theorem scanInt_decimal {n : Nat} (hn : n < 2 ^ 31) {rest : List Char}
    (hrest : Stops Char.isDigit rest) :
    scanInt (decimal n ++ rest) = some ((n : Int), rest) := by
  obtain ⟨c, digits, hd⟩ : ∃ c digits, decimal n = c :: digits :=
    List.exists_cons_of_ne_nil (decimal_ne_nil n)
  have hc : c.isDigit = true := isDigit_of_mem_decimal (n := n) (by simp [hd])
  obtain ⟨hspace, hminus, hplus⟩ := digit_plain hc
  have hsign : scanSign (skipSpace (decimal n ++ rest)) = (1, decimal n ++ rest) := by
    rw [hd, List.cons_append, skipSpace_of_not hspace, scanSign]
    · exact fun _ heq => hminus (List.cons.inj heq).1
    · exact fun _ heq => hplus (List.cons.inj heq).1
  have htake : (decimal n ++ rest).takeWhile Char.isDigit = decimal n :=
    takeWhile_stop (fun _ hc => isDigit_of_mem_decimal hc) hrest
  have hdrop : (decimal n ++ rest).dropWhile Char.isDigit = rest :=
    dropWhile_stop (fun _ hc => isDigit_of_mem_decimal hc) hrest
  rw [scanInt, hsign]
  simp only [htake, hdrop, if_neg (decimal_ne_nil n)]
  rw [decimal, Nat.ofDigitChars_ten_toDigits, one_mul, toI32_eq rfl hn]

-- ---------------------------------------------------------------------------
-- `fscanf`
-- ---------------------------------------------------------------------------

theorem stops_cons {q : Char → Bool} {c : Char} (h : q c = false) (rest : List Char) :
    Stops q (c :: rest) := fun c' hc' => by
  obtain rfl : c = c' := Option.some.inj hc'
  exact h

/-- **`%s`** reads a word. -/
theorem scanWord_eq {word rest : List Char} (hne : word ≠ [])
    (hword : ∀ c ∈ word, isSpace c = false) (hrest : Stops (!isSpace ·) rest) :
    scanWord (' ' :: (word ++ rest)) = some (word, rest) := by
  have hplain : ∀ c ∈ word, (!isSpace c) = true := fun c hc => by rw [hword c hc]; rfl
  obtain ⟨c, word', rfl⟩ := List.exists_cons_of_ne_nil hne
  have hskip : skipSpace (' ' :: (c :: word' ++ rest)) = c :: word' ++ rest := by
    rw [skipSpace_of_space (by decide), List.cons_append,
      skipSpace_of_not (hword c List.mem_cons_self)]
  rw [scanWord, hskip]
  simp only [takeWhile_stop hplain hrest, dropWhile_stop hplain hrest, if_neg hne]

/-- The first two fields of a line. -/
theorem fscanf_line {pid : Nat} (hpid : pid < 2 ^ 31) {word tail : List Char} (hne : word ≠ [])
    (hword : ∀ c ∈ word, isSpace c = false) (htail : Stops (!isSpace ·) tail) :
    (fscanf (Stat.line pid word tail)).pid = some (pid : Int) ∧
      (fscanf (Stat.line pid word tail)).name = some word := by
  have hint := scanInt_decimal hpid (stops_cons (c := ' ') (by decide) (word ++ tail))
  rw [fscanf, Stat.line, hint]
  simp only [scanWord_eq hne hword htail]
  cases scanChar tail with
  | none => exact ⟨rfl, rfl⟩
  | some r =>
    obtain ⟨-, tail'⟩ := r
    cases h : scanInt tail' with
    | none => simp [h]
    | some r => simp [h]

variable {s : Stat} {showPid : Bool}

/-- A letter is no white space. -/
theorem Stat.state_plain (s : Stat) : isSpace s.state = false := by
  have hletter : (s.state.isUpper || s.state.isLower) = true := s.state_letter
  rw [Bool.or_eq_true] at hletter
  refine isSpace_eq_false ?_
  rcases hletter with hupper | hlower
  · have hlow : 'A'.toNat ≤ s.state.toNat := (of_decide_eq_true hupper).1
    exact lt_of_lt_of_le (by decide) hlow
  · have hlow : 'a'.toNat ≤ s.state.toNat := of_decide_eq_true (Bool.and_eq_true_iff.1 hlower).1
    exact lt_of_lt_of_le (by decide) hlow

/-- **All fields** are found when the name has no white space. -/
theorem fscanf_text (h : ∀ c ∈ s.comm, isSpace c = false) :
    fscanf s.text = ⟨some (s.pid : Int), some ('(' :: (s.comm ++ [')'])), some (s.ppid : Int)⟩ := by
  have hword : ∀ c ∈ '(' :: (s.comm ++ [')']), isSpace c = false := by
    intro c hc
    rcases List.mem_cons.1 hc with rfl | hc
    · decide
    · rcases List.mem_append.1 hc with hc | hc
      · exact h c hc
      · rw [List.mem_singleton.1 hc]
        decide
  have hint := scanInt_decimal s.pid_lt
    (stops_cons (c := ' ') (by decide) ('(' :: (s.comm ++ [')']) ++ s.tail))
  have hppid := scanInt_decimal s.ppid_lt (stops_cons (c := ' ') (by decide) s.rest)
  have hskip : scanInt (' ' :: (decimal s.ppid ++ ' ' :: s.rest))
      = scanInt (decimal s.ppid ++ ' ' :: s.rest) := by
    rw [scanInt, skipSpace_of_space (by decide), scanInt]
  have htail : Stops (!isSpace ·) s.tail := stops_cons (by decide) _
  have hchar : scanChar s.tail = some (s.state, ' ' :: (decimal s.ppid ++ ' ' :: s.rest)) := by
    rw [scanChar, Stat.tail, skipSpace_of_space (by decide), skipSpace_of_not s.state_plain]
  rw [fscanf, Stat.text, Stat.line, hint]
  simp only [scanWord_eq (List.cons_ne_nil _ _) hword htail, hchar, hskip, hppid]

-- ---------------------------------------------------------------------------
-- The name
-- ---------------------------------------------------------------------------

theorem store_eq {t : List Char} (h : t.length < bufSz) : store t = .ok t := if_pos h

theorem store_eq_ok {t t' : List Char} : store t = .ok t' ↔ t.length < bufSz ∧ t' = t := by
  rw [store]
  by_cases h : t.length < bufSz
  · rw [if_pos h, Except.ok.injEq, eq_comm]
    exact ⟨fun heq => ⟨h, heq⟩, fun heq => heq.2⟩
  · rw [if_neg h]
    exact ⟨nofun, fun heq => absurd heq.1 h⟩

/-- **`rm_paren`** keeps what stands between the first and the last character. -/
theorem rmParen_eq {dst : List Char} (htwo : 2 ≤ dst.length) (hlt : dst.length < bufSz) :
    rmParen dst = .ok ((dst.drop 1).take (dst.length - 2)) := by
  have hsz : bufSz = 64 := rfl
  have hsize : toSize ((dst.length : Int) - 2) = dst.length - 2 := by
    unfold toSize
    omega
  have hlen : ((dst.drop 1).take (dst.length - 2)).length < bufSz := by
    rw [List.length_take]
    omega
  rw [rmParen]
  simp only [hsize]
  rw [strncpy, if_pos (by omega), ok_bind, store_eq hlen]

/-- A string without these two sends `strncpy` behind the end of its buffer. -/
theorem rmParen_short {dst : List Char} (h : dst.length < 2) :
    rmParen dst = .error .bufferOverflow := by
  have hsize : ¬ toSize ((dst.length : Int) - 2) < bufSz := by
    unfold toSize bufSz
    omega
  rw [rmParen]
  simp only [strncpy, if_neg hsize]
  rfl

/-- The name behind `fscanf`, when it comes through. -/
theorem finishName_eq_ok {dName name name' : List Char} (hlt : name.length < bufSz) :
    finishName showPid dName name = .ok name' ↔ 2 ≤ name.length ∧
      name' = (name.drop 1).take (name.length - 2) ++ pidText showPid dName ∧
      name'.length < bufSz := by
  rcases Nat.lt_or_ge name.length 2 with hshort | htwo
  · rw [finishName, rmParen_short hshort]
    exact ⟨nofun, fun h => absurd h.1 (Nat.not_le.2 hshort)⟩
  · have hlen : ((name.drop 1).take (name.length - 2)).length = name.length - 2 := by
      rw [List.length_take, List.length_drop]
      omega
    rw [finishName, rmParen_eq htwo hlt, ok_bind]
    cases showPid with
    | false =>
      rw [if_neg (by decide), pidText, if_neg (by decide), List.append_nil, pure_eq_ok,
        Except.ok.injEq, eq_comm]
      exact ⟨fun heq => ⟨htwo, heq, by rw [heq, hlen]; omega⟩, fun h => h.2.1⟩
    | true =>
      rw [if_pos rfl, pidText, if_pos rfl]
      simp only [strcat, bind_eq_ok, store_eq_ok]
      constructor
      · rintro ⟨a, ⟨-, rfl⟩, b, ⟨-, rfl⟩, hlt', rfl⟩
        exact ⟨htwo, by simp, hlt'⟩
      · rintro ⟨-, rfl, hlt'⟩
        simp only [List.length_append, List.length_cons, List.length_nil] at hlt'
        refine ⟨_, ⟨?_, rfl⟩, _, ⟨?_, rfl⟩, ?_, by simp⟩ <;>
          simp only [List.length_append, List.length_cons, List.length_nil] <;> omega

-- ---------------------------------------------------------------------------
-- The entry
-- ---------------------------------------------------------------------------

/-- A file with a word for the name. -/
theorem load_eq {e : Entry} {dName text word : List Char} (hname : (fscanf text).name = some word)
    (hlt : word.length < bufSz) :
    e.load showPid dName text = finishName showPid dName word >>= fun name =>
      .ok ⟨(fscanf text).pid.or e.pid, some name, (fscanf text).ppid.or e.ppid⟩ := by
  rw [Entry.load, Entry.scan, hname]
  simp only [store_eq hlt, ok_bind, pure_eq_ok]

/-- **A name without white space** is loaded as it stands. -/
theorem load_text (e : Entry) (h : ∀ c ∈ s.comm, isSpace c = false) :
    e.load showPid (decimal s.pid) s.text = .ok (s.entry showPid) := by
  have hscan := fscanf_text h
  have hlen : ('(' :: (s.comm ++ [')'])).length = s.comm.length + 2 := by simp
  have hshort := s.comm_length
  have hsz : bufSz = 64 := rfl
  have hlt : ('(' :: (s.comm ++ [')'])).length < bufSz := by omega
  have hpidText : (pidText showPid (decimal s.pid)).length ≤ 12 := by
    have hdecimal := decimal_length s.pid_lt
    unfold pidText
    split
    · rw [List.length_cons, List.length_append, List.length_singleton]
      omega
    · exact Nat.zero_le _
  have hfinish : finishName showPid (decimal s.pid) ('(' :: (s.comm ++ [')']))
      = .ok (s.name showPid) := by
    refine (finishName_eq_ok hlt).2 ⟨by omega, ?_, ?_⟩
    · rw [hlen, Nat.add_sub_cancel, List.drop_one, List.tail_cons, List.take_left, Stat.name]
    · rw [Stat.name, List.length_append]
      omega
  rw [load_eq (by rw [hscan]) hlt, hfinish, hscan]
  rfl

/-- **A name with white space** is cut off, if the program survives. -/
theorem load_cut {e e' : Entry} {c : Char} (hmem : c ∈ s.comm) (hspace : isSpace c = true)
    (hload : e.load showPid (decimal s.pid) s.text = .ok e') : e' ≠ s.entry showPid := by
  obtain ⟨word, hword⟩ : ∃ word, s.comm.takeWhile (!isSpace ·) = word := ⟨_, rfl⟩
  obtain ⟨tail, htail⟩ : ∃ tail, s.comm.dropWhile (!isSpace ·) = tail := ⟨_, rfl⟩
  have hsplit : s.comm = word ++ tail := by
    rw [← hword, ← htail, List.takeWhile_append_dropWhile]
  have hplain : ∀ c ∈ word, isSpace c = false := fun c hc => by
    rw [← hword] at hc
    simpa using List.mem_takeWhile_imp hc
  have hnil : tail ≠ [] := by
    rintro rfl
    rw [List.append_nil] at hsplit
    exact absurd (hplain c (hsplit ▸ hmem)) (by simp [hspace])
  obtain ⟨c', tail', rfl⟩ := List.exists_cons_of_ne_nil hnil
  have hc' : (!isSpace c') = false := by
    have hhead := List.head?_dropWhile_not (!isSpace ·) s.comm
    rw [htail] at hhead
    simpa using hhead
  -- the word ends inside of the name
  have htext : s.text = Stat.line s.pid ('(' :: word) (c' :: (tail' ++ ')' :: s.tail)) := by
    simp [Stat.text, Stat.line, hsplit]
  have hwordPlain : ∀ c ∈ '(' :: word, isSpace c = false := by
    intro c hc
    rcases List.mem_cons.1 hc with rfl | hc
    · decide
    · exact hplain c hc
  have hname : (fscanf s.text).name = some ('(' :: word) := by
    rw [htext]
    exact (fscanf_line s.pid_lt (List.cons_ne_nil _ _) hwordPlain (stops_cons hc' _)).2
  have hlen : word.length < s.comm.length := by
    rw [hsplit, List.length_append, List.length_cons]
    omega
  have hshort := s.comm_length
  have hlt : ('(' :: word).length < bufSz := by
    rw [List.length_cons]
    unfold bufSz
    omega
  rw [load_eq hname hlt, bind_eq_ok] at hload
  obtain ⟨name, hfinish, hload⟩ := hload
  obtain ⟨htwo, heq, -⟩ := (finishName_eq_ok hlt).1 hfinish
  rintro rfl
  have hsame : name = s.name showPid := Option.some.inj (congrArg Entry.name (Except.ok.inj hload))
  rw [hsame, Stat.name] at heq
  have hlength := congrArg List.length (List.append_cancel_right heq)
  rw [List.length_take, List.length_drop, List.length_cons] at hlength
  omega

-- ---------------------------------------------------------------------------
-- The pass
-- ---------------------------------------------------------------------------

theorem atoi_decimal (s : Stat) : atoi (decimal s.pid) ≠ 0 := by
  have hint : scanInt (decimal s.pid ++ []) = some ((s.pid : Int), []) :=
    scanInt_decimal s.pid_lt fun c hc => by cases hc
  have hpos := s.pid_pos
  rw [List.append_nil] at hint
  rw [atoi, hint]
  simp only [ne_eq, Int.natCast_eq_zero]
  omega

theorem openStat_decimal {p : Proc} (h : p.fopen s.path = some s.text) :
    openStat p (decimal s.pid) = .ok s.text := by
  have hdecimal := decimal_length s.pid_lt
  have hsz : bufSz = 64 := rfl
  have hproc : (procDir ++ decimal s.pid).length = 6 + (decimal s.pid).length := List.length_append
  have hpath : s.path.length = 6 + (decimal s.pid).length + 5 := by
    rw [Stat.path, List.length_append, hproc]
    rfl
  have hfirst : strcat procDir (decimal s.pid) = .ok (procDir ++ decimal s.pid) :=
    store_eq (by omega)
  have hsecond : strcat (procDir ++ decimal s.pid) statFile = .ok s.path :=
    store_eq (by rw [← Stat.path]; omega)
  have hname : statName (decimal s.pid) = .ok s.path := by
    rw [statName, hfirst]
    exact hsecond
  rw [openStat, hname, ok_bind, h]
  rfl

/-- The turn of the process, behind the part `dir₁` of the directory. -/
theorem dirLoop_stat {p : Proc} {pro pro₁ : Pro} {dir₁ : List (List Char)} {num : Nat}
    (hfile : p.fopen s.path = some s.text)
    (hpass : dirLoop .load showPid p dir₁ 0 pro = .ok (num, pro₁)) (hnum : num < pro.size) :
    dirLoop .load showPid p (dir₁ ++ [decimal s.pid]) 0 pro =
      (pro₁.entry num).load showPid (decimal s.pid) s.text >>= fun e =>
        .ok (num + 1, pro₁.set num e) := by
  have hsize := (dirLoop_frame hpass).2.1
  rw [dirLoop_append, hpass, ok_bind, dirLoop_load (atoi_decimal s), loadEntry,
    openStat_decimal hfile, ok_bind, Pro.get_of_lt (hsize ▸ hnum), ok_bind]
  cases (pro₁.entry num).load showPid (decimal s.pid) s.text <;> rfl

/-- The pass comes to the process as number `num`, behind the part `dir₁` of the directory:
it stores the record, and keeps it. -/
def Stat.ReadBy (s : Stat) (showPid : Bool) (p : Proc) (pro : Pro) (dir₁ : List (List Char))
    (num : Nat) : Prop :=
  (∃ pro₂, dirLoop .load showPid p (dir₁ ++ [decimal s.pid]) 0 pro = .ok (num + 1, pro₂) ∧
    pro₂.entry num = s.entry showPid) ∧
  ∀ n pro₃, getPnumLoad .load showPid p pro = .ok (n, pro₃) →
    pro₃.entry num = s.entry showPid

/-- A name that is stored has no white space. -/
theorem Stat.ReadBy.plain {p : Proc} {pro pro₁ : Pro} {dir₁ : List (List Char)} {num : Nat}
    (h : s.ReadBy showPid p pro dir₁ num) (hfile : p.fopen s.path = some s.text)
    (hpass : dirLoop .load showPid p dir₁ 0 pro = .ok (num, pro₁)) (hnum : num < pro.size) :
    ∀ c ∈ s.comm, isSpace c = false := by
  intro c hc
  by_contra hspace
  obtain ⟨⟨pro₂, hpass₂, hentry⟩, -⟩ := h
  rw [dirLoop_stat hfile hpass hnum, bind_eq_ok] at hpass₂
  obtain ⟨e, hload, heq⟩ := hpass₂
  obtain ⟨-, rfl⟩ := Prod.mk.inj (Except.ok.inj heq)
  rw [Pro.set_entry_self] at hentry
  exact load_cut hc (by simpa using hspace) hload hentry

/-- **A record is read as it stands** exactly when there is no white space in the name. -/
theorem stat_read_iff (s : Stat) (showPid : Bool) (p : Proc) (pro pro₁ : Pro)
    (dir₁ dir₂ : List (List Char)) (num : Nat)
    (hdir : p.dir = some (dir₁ ++ decimal s.pid :: dir₂)) (hfile : p.fopen s.path = some s.text)
    (hpass : dirLoop .load showPid p dir₁ 0 pro = .ok (num, pro₁)) (hnum : num < pro.size) :
    s.ReadBy showPid p pro dir₁ num ↔ ∀ c ∈ s.comm, isSpace c = false := by
  constructor
  · exact fun h => h.plain hfile hpass hnum
  · intro hcomm
    have hturn := dirLoop_stat hfile hpass hnum
    rw [load_text (pro₁.entry num) hcomm, ok_bind] at hturn
    have hentry : (pro₁.set num (s.entry showPid)).entry num = s.entry showPid := by
      rw [Pro.set_entry_self]
    refine ⟨⟨_, hturn, hentry⟩, fun n pro₃ hall => ?_⟩
    rw [getPnumLoad, hdir, List.append_cons] at hall
    simp only [dirLoop_append (dir₁ ++ [decimal s.pid]), hturn, ok_bind] at hall
    rw [(dirLoop_frame hall).2.2 num (Nat.lt_succ_self num), hentry]

/-- The first process. -/
def systemd : Stat where
  pid := 1
  comm := ['s', 'y', 's', 't', 'e', 'm', 'd']
  state := 'S'
  ppid := 0
  rest := ['1', ' ', '1', ' ', '0']
  pid_pos := by decide
  pid_lt := by decide
  ppid_lt := by decide
  comm_ne_nil := by decide
  comm_length := by decide
  comm_chars := by simp
  state_letter := by decide

theorem systemd_plain : ∀ c ∈ systemd.comm, isSpace c = false := by
  have hnone : systemd.comm.all (!isSpace ·) = true := by decide
  simpa using hnone

/-- A program whose name has a space. -/
def tmux : Stat :=
  { systemd with
    pid := 7
    comm := ['t', 'm', 'u', 'x', ':', ' ', 's', 'e', 'r', 'v', 'e', 'r']
    ppid := 1
    pid_pos := by decide
    pid_lt := by decide
    ppid_lt := by decide
    comm_ne_nil := by decide
    comm_length := by decide
    comm_chars := by simp }

/-- A directory with one process. -/
def Stat.proc (s : Stat) : Proc where
  dir := some [['.'], ['f', 'b'], decimal s.pid]
  fopen path := if path = s.path then some s.text else none

theorem Stat.proc_fopen (s : Stat) : s.proc.fopen s.path = some s.text := if_pos rfl

theorem stat_read_systemd : systemd.ReadBy true systemd.proc (.fresh 6)
      [['.'], ['f', 'b']] 0 ↔ ∀ c ∈ systemd.comm, isSpace c = false :=
  stat_read_iff systemd true systemd.proc (.fresh 6) (.fresh 6) [['.'], ['f', 'b']] []
    0 rfl systemd.proc_fopen rfl (by decide)

/-- The name of `tmux` is cut off. -/
theorem not_stat_read : ∃ (s : Stat) (p : Proc) (pro pro₁ : Pro) (dir₁ : List (List Char))
    (num : Nat), p.dir = some (dir₁ ++ [decimal s.pid]) ∧ p.fopen s.path = some s.text ∧
      dirLoop .load false p dir₁ 0 pro = .ok (num, pro₁) ∧ num < pro.size ∧
      ¬ s.ReadBy false p pro dir₁ num := by
  refine ⟨tmux, tmux.proc, .fresh 6, .fresh 6, [['.'], ['f', 'b']], 0, rfl,
    tmux.proc_fopen, rfl, by decide, fun h => ?_⟩
  have hplain := h.plain tmux.proc_fopen rfl (by decide)
  exact absurd (hplain ' ' (by decide)) (by decide)

example : fscanf tmux.text = ⟨some 7, some ['(', 't', 'm', 'u', 'x', ':'], none⟩ := by
  decide +kernel

end MyOs.Pstree
