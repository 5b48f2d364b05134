import MyOs.Pstree.Stat

/-!
# pstree — the two passes

The first pass over `/proc` counts the processes, the second one loads them into an array
with five more entries than that, and the entries that the count says are used. Processes
come and go in between, so the second pass may find another number of them: with too many
it writes behind the end of the array, with too few it leaves entries as `malloc` has left
them. The pass stops early where a file cannot be opened any more.

* `dirLoop_eq_ok`, `dirLoop_heapOverflow` — when the second pass comes through, and when it
  writes behind the array.
* `passes_agree_iff` — **the passes agree exactly when the processes stay about the same**.
* `steady_iff` — what this says of records that can all be read.
-/

namespace MyOs.Pstree

variable {showPid : Bool} {p : Proc} {pro pro' : Pro} {num n : Nat} {dName : List Char}
  {dir ds : List (List Char)} {e : Entry}

-- ---------------------------------------------------------------------------
-- The processes of a directory
-- ---------------------------------------------------------------------------

/-- The names in a directory that stand for processes. -/
def processesIn (dir : List (List Char)) : List (List Char) := dir.filter (atoi · ≠ 0)

/-- The processes that a pass finds. -/
def processes (p : Proc) : List (List Char) := processesIn (p.dir.getD [])

/-- The file of the process is opened. -/
def Opens (p : Proc) (dName : List Char) : Prop := ∃ text, openStat p dName = .ok text

/-- The file of the process makes the entry. -/
def Loads (showPid : Bool) (p : Proc) (dName : List Char) (e : Entry) : Prop :=
  ∃ text, openStat p dName = .ok text ∧ Entry.fresh.load showPid dName text = .ok e

/-- The file of the process does not end the program. -/
def Survives (showPid : Bool) (p : Proc) (dName : List Char) : Prop := ∃ e, Loads showPid p dName e

theorem Loads.unique {e' : Entry} (h : Loads showPid p dName e) (h' : Loads showPid p dName e') :
    e = e' := by
  obtain ⟨text, hopen, hload⟩ := h
  obtain ⟨text', hopen', hload'⟩ := h'
  obtain rfl := Except.ok.inj (hopen.symm.trans hopen')
  exact Except.ok.inj (hload.symm.trans hload')

theorem Survives.opens (h : Survives showPid p dName) : Opens p dName := by
  obtain ⟨-, text, hopen, -⟩ := h
  exact ⟨text, hopen⟩

theorem processesIn_cons_of_ne (h : atoi dName ≠ 0) :
    processesIn (dName :: dir) = dName :: processesIn dir :=
  List.filter_cons_of_pos (by simpa using h)

theorem processesIn_cons_of_eq (h : atoi dName = 0) :
    processesIn (dName :: dir) = processesIn dir :=
  List.filter_cons_of_neg (by simpa using h)

/-- **The first pass** counts the processes. -/
theorem dirLoop_pnum (num : Nat) (pro : Pro) :
    dirLoop .pnum showPid p dir num pro = .ok (num + (processesIn dir).length, pro) := by
  induction dir generalizing num with
  | nil => rfl
  | cons dName dir ih =>
    by_cases h : atoi dName = 0
    · rw [dirLoop_skip h, processesIn_cons_of_eq h, ih]
    · rw [dirLoop.eq_def, processesIn_cons_of_ne h, List.length_cons]
      simp only [if_pos h, ih]
      congr 2
      omega

theorem getPnumLoad_pnum (showPid : Bool) (p : Proc) (pro : Pro) :
    getPnumLoad .pnum showPid p pro = .ok ((processes p).length, pro) := by
  rw [getPnumLoad_eq, dirLoop_pnum, Nat.zero_add, processes]

-- ---------------------------------------------------------------------------
-- One process
-- ---------------------------------------------------------------------------

/-- The entries from `num` on are as `malloc` has left them. -/
def FreshFrom (pro : Pro) (num : Nat) : Prop := ∀ i, num ≤ i → pro.entry i = .fresh

theorem FreshFrom.set (h : FreshFrom pro num) (e : Entry) :
    FreshFrom (pro.set num e) (num + 1) := by
  intro i hi
  rw [Pro.set_entry_ne pro e (by omega)]
  exact h i (by omega)

/-- A process has been loaded into a fresh entry. -/
theorem loadEntry_fresh (h : FreshFrom pro num) : loadEntry showPid p pro num dName = .ok pro' ↔
    num < pro.size ∧ ∃ e, Loads showPid p dName e ∧ pro' = pro.set num e := by
  rw [loadEntry_eq_ok, h num le_rfl]
  constructor
  · rintro ⟨text, e, hopen, hlt, hload, rfl⟩
    exact ⟨hlt, e, ⟨text, hopen, hload⟩, rfl⟩
  · rintro ⟨hlt, e, ⟨text, hopen, hload⟩, rfl⟩
    exact ⟨text, e, hopen, hlt, hload, rfl⟩

/-- The call does not go behind the array. -/
def InHeap {α : Type} (x : Result α) : Prop := x ≠ .error .heapOverflow

theorem inHeap_bind {α β : Type} {x : Result α} {f : α → Result β} (hx : InHeap x)
    (hf : ∀ a, InHeap (f a)) : InHeap (x >>= f) := by
  cases x with
  | ok a => exact hf a
  | error fault =>
    intro h
    have hfault : fault = .heapOverflow := Except.error.inj h
    exact hx (by rw [hfault])

theorem inHeap_ok {α : Type} (a : α) : InHeap (.ok a : Result α) := nofun

theorem inHeap_error {α : Type} {fault : Fault} (h : fault ≠ .heapOverflow) :
    InHeap (.error fault : Result α) := fun heq => h (Except.error.inj heq)

theorem inHeap_store (t : List Char) : InHeap (store t) := by
  unfold store
  split
  · exact inHeap_ok t
  · exact inHeap_error (by decide)

theorem inHeap_openStat (p : Proc) (dName : List Char) : InHeap (openStat p dName) := by
  refine inHeap_bind (inHeap_bind (inHeap_store _) fun _ => inHeap_store _) fun path => ?_
  cases p.fopen path with
  | some text => exact inHeap_ok text
  | none => exact inHeap_error (by decide)

theorem inHeap_strncpy (src : List Char) (n : Nat) : InHeap (strncpy src n) := by
  unfold strncpy
  split
  · exact inHeap_ok _
  · exact inHeap_error (by decide)

theorem inHeap_finishName (showPid : Bool) (dName name : List Char) :
    InHeap (finishName showPid dName name) := by
  refine inHeap_bind (inHeap_bind (inHeap_strncpy _ _) fun _ => inHeap_store _) fun name => ?_
  cases showPid with
  | false => exact inHeap_ok name
  | true =>
    exact inHeap_bind (inHeap_store _) fun _ => inHeap_bind (inHeap_store _) fun _ =>
      inHeap_store _

theorem inHeap_scan (e read : Entry) : InHeap (e.scan read) := by
  rw [Entry.scan]
  cases read.name with
  | none => exact inHeap_ok _
  | some name => exact inHeap_bind (inHeap_store name) fun name => inHeap_ok _

theorem inHeap_load (e : Entry) (showPid : Bool) (dName text : List Char) :
    InHeap (e.load showPid dName text) := by
  refine inHeap_bind (inHeap_scan e (fscanf text)) fun e => ?_
  cases e.name with
  | none => exact inHeap_error (by decide)
  | some name => exact inHeap_bind (inHeap_finishName showPid dName name) fun _ => inHeap_ok _

/-- A process is written behind the array. -/
theorem loadEntry_heapOverflow : loadEntry showPid p pro num dName = .error .heapOverflow ↔
    Opens p dName ∧ pro.size ≤ num := by
  constructor
  · intro h
    rcases Nat.lt_or_ge num pro.size with hlt | hge
    · refine absurd h (inHeap_bind (inHeap_openStat p dName) fun text => ?_)
      rw [Pro.get_of_lt hlt, ok_bind]
      exact inHeap_bind (inHeap_load _ showPid dName text) fun e => inHeap_ok _
    · refine ⟨?_, hge⟩
      cases hopen : openStat p dName with
      | ok text => exact ⟨text, hopen⟩
      | error fault =>
        rw [loadEntry, hopen, error_bind] at h
        obtain rfl := Except.error.inj h
        exact absurd hopen (inHeap_openStat p dName)
  · rintro ⟨⟨text, hopen⟩, hge⟩
    rw [loadEntry, hopen, ok_bind, Pro.get_of_le hge]
    rfl

-- ---------------------------------------------------------------------------
-- The second pass
-- ---------------------------------------------------------------------------

theorem dirLoop_processesIn (num : Nat) (pro : Pro) :
    dirLoop .load showPid p (processesIn dir) num pro = dirLoop .load showPid p dir num pro := by
  induction dir generalizing num pro with
  | nil => rfl
  | cons dName dir ih =>
    by_cases h : atoi dName = 0
    · rw [processesIn_cons_of_eq h, dirLoop_skip h, ih]
    · rw [processesIn_cons_of_ne h, dirLoop_load h, dirLoop_load h]
      congr 1
      funext pro
      exact ih (num + 1) pro

theorem atoi_ne_of_mem (h : dName ∈ processesIn dir) : atoi dName ≠ 0 := by
  simpa using (List.mem_filter.1 h).2

/-- **The second pass comes through**: there is an entry for each process, which holds what
its file makes. -/
theorem dirLoop_eq_ok (hds : ∀ d ∈ ds, atoi d ≠ 0) (hfresh : FreshFrom pro num)
    (h : dirLoop .load showPid p ds num pro = .ok (n, pro')) :
    n = num + ds.length ∧ FreshFrom pro' n ∧
      ∀ i d, ds[i]? = some d → Loads showPid p d (pro'.entry (num + i)) := by
  induction ds generalizing num pro with
  | nil =>
    obtain ⟨rfl, rfl⟩ := Prod.mk.inj (Except.ok.inj h)
    exact ⟨rfl, hfresh, fun _ _ hi => by cases hi⟩
  | cons d ds ih =>
    rw [dirLoop_load (hds d List.mem_cons_self), bind_eq_ok] at h
    obtain ⟨pro₁, hload, hloop⟩ := h
    obtain ⟨-, e, he, rfl⟩ := (loadEntry_fresh hfresh).1 hload
    obtain ⟨rfl, hfresh', hentries⟩ := ih (fun d' hd' => hds d' (List.mem_cons_of_mem d hd'))
      (hfresh.set e) hloop
    rw [List.length_cons, Nat.add_comm ds.length, ← Nat.add_assoc]
    refine ⟨rfl, hfresh', fun i d' hi => ?_⟩
    cases i with
    | zero =>
      obtain rfl : d = d' := Option.some.inj hi
      rw [Nat.add_zero, (dirLoop_frame hloop).2.2 num (Nat.lt_succ_self num), Pro.set_entry_self]
      exact he
    | succ i =>
      rw [Nat.add_comm i, ← Nat.add_assoc]
      exact hentries i d' hi

/-- Files that do not end the program bring the pass through, or behind the array. -/
theorem dirLoop_of_survives (hds : ∀ d ∈ ds, atoi d ≠ 0) (hfresh : FreshFrom pro num)
    (hall : ∀ d ∈ ds, Survives showPid p d) (hin : InHeap (dirLoop .load showPid p ds num pro)) :
    ∃ n pro', dirLoop .load showPid p ds num pro = .ok (n, pro') := by
  induction ds generalizing num pro with
  | nil => exact ⟨num, pro, rfl⟩
  | cons d ds ih =>
    have hsurvives := hall d List.mem_cons_self
    rw [dirLoop_load (hds d List.mem_cons_self)] at hin ⊢
    rcases Nat.lt_or_ge num pro.size with hlt | hge
    · obtain ⟨e, he⟩ := hsurvives
      rw [(loadEntry_fresh hfresh).2 ⟨hlt, e, he, rfl⟩, ok_bind] at hin ⊢
      exact ih (fun d' hd' => hds d' (List.mem_cons_of_mem d hd')) (hfresh.set e)
        (fun d' hd' => hall d' (List.mem_cons_of_mem d hd')) hin
    · rw [loadEntry_heapOverflow.2 ⟨hsurvives.opens, hge⟩] at hin
      exact absurd rfl hin

/-- **The second pass goes behind the array** when it still opens a file there. -/
theorem dirLoop_heapOverflow (hds : ∀ d ∈ ds, atoi d ≠ 0) (hfresh : FreshFrom pro num) :
    dirLoop .load showPid p ds num pro = .error .heapOverflow ↔
      ∃ ds₁ d ds₂, ds = ds₁ ++ d :: ds₂ ∧ (∀ x ∈ ds₁, Survives showPid p x) ∧ Opens p d ∧
        pro.size ≤ num + ds₁.length := by
  induction ds generalizing num pro with
  | nil =>
    refine ⟨nofun, ?_⟩
    rintro ⟨ds₁, d, ds₂, heq, -⟩
    exact absurd heq.symm (List.append_ne_nil_of_right_ne_nil ds₁ (List.cons_ne_nil d ds₂))
  | cons d ds ih =>
    have hds' : ∀ d' ∈ ds, atoi d' ≠ 0 := fun d' hd' => hds d' (List.mem_cons_of_mem d hd')
    rw [dirLoop_load (hds d List.mem_cons_self)]
    constructor
    · intro h
      cases hload : loadEntry showPid p pro num d with
      | ok pro₁ =>
        obtain ⟨-, e, he, rfl⟩ := (loadEntry_fresh hfresh).1 hload
        rw [hload, ok_bind] at h
        obtain ⟨ds₁, d', ds₂, rfl, hall, hopens, hge⟩ := (ih hds' (hfresh.set e)).1 h
        rw [Pro.set_size] at hge
        refine ⟨d :: ds₁, d', ds₂, rfl, List.forall_mem_cons.2 ⟨⟨e, he⟩, hall⟩, hopens, ?_⟩
        rw [List.length_cons]
        omega
      | error fault =>
        rw [hload, error_bind] at h
        obtain rfl := Except.error.inj h
        obtain ⟨hopens, hge⟩ := loadEntry_heapOverflow.1 hload
        exact ⟨[], d, ds, rfl, nofun, hopens, hge⟩
    · rintro ⟨ds₁, d', ds₂, heq, hall, hopens, hge⟩
      rcases Nat.lt_or_ge num pro.size with hlt | hge'
      · cases ds₁ with
        | nil => exact absurd hge (Nat.not_le.2 hlt)
        | cons x ds₁ =>
          obtain ⟨rfl, rfl⟩ := List.cons.inj heq
          obtain ⟨⟨e, he⟩, hall⟩ := List.forall_mem_cons.1 hall
          rw [(loadEntry_fresh hfresh).2 ⟨hlt, e, he, rfl⟩, ok_bind]
          refine (ih hds' (hfresh.set e)).2 ⟨ds₁, d', ds₂, rfl, hall, hopens, ?_⟩
          rw [List.length_cons] at hge
          rw [Pro.set_size]
          omega
      · -- the first process is already too much
        have hfirst : Opens p d := by
          cases ds₁ with
          | nil =>
            obtain ⟨rfl, -⟩ := List.cons.inj heq
            exact hopens
          | cons x ds₁ =>
            obtain ⟨rfl, -⟩ := List.cons.inj heq
            exact (hall d List.mem_cons_self).opens
        rw [loadEntry_heapOverflow.2 ⟨hfirst, hge'⟩]
        rfl

-- The same facts of a pass into a new array.

theorem load_eq_dirLoop (showPid : Bool) (p : Proc) (pro : Pro) :
    getPnumLoad .load showPid p pro = dirLoop .load showPid p (processes p) 0 pro := by
  rw [getPnumLoad_eq, processes, dirLoop_processesIn]

theorem freshFrom_fresh (size : Nat) : FreshFrom (Pro.fresh size) 0 := fun _ _ => rfl

theorem load_eq_ok {size : Nat} (h : getPnumLoad .load showPid p (.fresh size) = .ok (n, pro)) :
    FreshFrom pro (processes p).length ∧
      ∀ i d, (processes p)[i]? = some d → Loads showPid p d (pro.entry i) := by
  rw [load_eq_dirLoop] at h
  obtain ⟨rfl, hrest, hentries⟩ :=
    dirLoop_eq_ok (fun _ hd => atoi_ne_of_mem hd) (freshFrom_fresh size) h
  simp only [Nat.zero_add] at hrest hentries
  exact ⟨hrest, hentries⟩

theorem load_of_survives {size : Nat} (hall : ∀ d ∈ processes p, Survives showPid p d)
    (hin : InHeap (getPnumLoad .load showPid p (.fresh size))) :
    ∃ n pro, getPnumLoad .load showPid p (.fresh size) = .ok (n, pro) := by
  rw [load_eq_dirLoop] at hin ⊢
  exact dirLoop_of_survives (fun _ hd => atoi_ne_of_mem hd) (freshFrom_fresh size) hall hin

theorem load_heapOverflow {size : Nat} :
    getPnumLoad .load showPid p (.fresh size) = .error .heapOverflow ↔
      ∃ ds₁ d ds₂, processes p = ds₁ ++ d :: ds₂ ∧ (∀ x ∈ ds₁, Survives showPid p x) ∧
        Opens p d ∧ size ≤ ds₁.length := by
  have hds : ∀ d ∈ processes p, atoi d ≠ 0 := fun _ hd => atoi_ne_of_mem hd
  rw [load_eq_dirLoop, dirLoop_heapOverflow hds (freshFrom_fresh size)]
  simp only [Nat.zero_add]
  rfl

-- ---------------------------------------------------------------------------
-- Both passes
-- ---------------------------------------------------------------------------

/-- The second pass stays inside of the array, and fills the entries that the first pass has
counted. -/
def PassesAgree (showPid : Bool) (p₁ p₂ : Proc) : Prop :=
  ∀ pnum pro₁, getPnumLoad .pnum showPid p₁ (.fresh 0) = .ok (pnum, pro₁) →
    InHeap (getPnumLoad .load showPid p₂ (.fresh (pnum + 5))) ∧
    ∀ n pro, getPnumLoad .load showPid p₂ (.fresh (pnum + 5)) = .ok (n, pro) →
      ∀ i < pnum, (pro.entry i).process?.isSome

/-- Against a count of `pnum` processes, the second listing does not have more than five that
are opened in addition, before one ends the program; and if none does, it has as many, and the
first of their files have all fields. -/
structure Steady (showPid : Bool) (pnum : Nat) (p : Proc) : Prop where
  few : ∀ ds₁ d ds₂, processes p = ds₁ ++ d :: ds₂ → (∀ x ∈ ds₁, Survives showPid p x) →
    Opens p d → ds₁.length < pnum + 5
  many : (∀ d ∈ processes p, Survives showPid p d) → pnum ≤ (processes p).length
  full : (∀ d ∈ processes p, Survives showPid p d) →
    ∀ d ∈ (processes p).take pnum, ∀ e, Loads showPid p d e → e.process?.isSome

variable {pnum : Nat}

theorem Steady.inHeap (h : Steady showPid pnum p) :
    InHeap (getPnumLoad .load showPid p (.fresh (pnum + 5))) := by
  intro hover
  obtain ⟨ds₁, d, ds₂, heq, hall, hopens, hge⟩ := load_heapOverflow.1 hover
  exact absurd (h.few ds₁ d ds₂ heq hall hopens) (Nat.not_lt.2 hge)

theorem Steady.filled (h : Steady showPid pnum p)
    (hload : getPnumLoad .load showPid p (.fresh (pnum + 5)) = .ok (n, pro)) {i : Nat}
    (hi : i < pnum) : (pro.entry i).process?.isSome := by
  obtain ⟨-, hentries⟩ := load_eq_ok hload
  have hall : ∀ d ∈ processes p, Survives showPid p d := by
    intro d hd
    obtain ⟨k, hk⟩ := List.mem_iff_getElem?.1 hd
    exact ⟨_, hentries k d hk⟩
  have hlt : i < (processes p).length := hi.trans_le (h.many hall)
  have hget : (processes p)[i]? = some (processes p)[i] := List.getElem?_eq_getElem hlt
  have hmem : (processes p)[i] ∈ (processes p).take pnum :=
    List.mem_take_iff_getElem.2 ⟨i, lt_min hi hlt, rfl⟩
  exact h.full hall _ hmem _ (hentries i _ hget)

/-- What the second pass does says how many processes it has met. -/
theorem steady_of_load (hin : InHeap (getPnumLoad .load showPid p (.fresh (pnum + 5))))
    (hfill : ∀ n pro, getPnumLoad .load showPid p (.fresh (pnum + 5)) = .ok (n, pro) →
      ∀ i < pnum, (pro.entry i).process?.isSome) : Steady showPid pnum p := by
  refine ⟨fun ds₁ d ds₂ heq hall hopens => ?_, fun hall => ?_, fun hall d hd e he => ?_⟩
  · by_contra hge
    exact hin (load_heapOverflow.2 ⟨ds₁, d, ds₂, heq, hall, hopens, not_lt.1 hge⟩)
  · obtain ⟨n, pro, hload⟩ := load_of_survives hall hin
    obtain ⟨hrest, -⟩ := load_eq_ok hload
    by_contra hlt
    have hsome := hfill n pro hload (processes p).length (not_le.1 hlt)
    rw [hrest _ le_rfl] at hsome
    cases hsome
  · obtain ⟨n, pro, hload⟩ := load_of_survives hall hin
    obtain ⟨-, hentries⟩ := load_eq_ok hload
    obtain ⟨i, hi, rfl⟩ := List.mem_take_iff_getElem.1 hd
    have hlt : i < (processes p).length := hi.trans_le (min_le_right _ _)
    rw [he.unique (hentries i _ (List.getElem?_eq_getElem hlt))]
    exact hfill n pro hload i (hi.trans_le (min_le_left _ _))

/-- **The passes agree** exactly when the processes stay about the same. -/
theorem passes_agree_iff (showPid : Bool) (p₁ p₂ : Proc) :
    PassesAgree showPid p₁ p₂ ↔ Steady showPid (processes p₁).length p₂ := by
  constructor
  · intro h
    obtain ⟨hin, hfill⟩ := h _ _ (getPnumLoad_pnum showPid p₁ (.fresh 0))
    exact steady_of_load hin hfill
  · intro h pnum pro₁ hcount
    rw [getPnumLoad_pnum] at hcount
    obtain ⟨rfl, -⟩ := Prod.mk.inj (Except.ok.inj hcount)
    exact ⟨h.inHeap, fun n pro hload i hi => h.filled hload hi⟩

-- ---------------------------------------------------------------------------
-- Records that can be read
-- ---------------------------------------------------------------------------

/-- The file of a process whose name has no white space. -/
def Plain (p : Proc) (dName : List Char) : Prop :=
  ∃ s : Stat, dName = decimal s.pid ∧ p.fopen s.path = some s.text ∧
    ∀ c ∈ s.comm, isSpace c = false

theorem Plain.loads (h : Plain p dName) (showPid : Bool) :
    ∃ e, Loads showPid p dName e ∧ e.process?.isSome := by
  obtain ⟨s, rfl, hfile, hcomm⟩ := h
  exact ⟨s.entry showPid, ⟨s.text, openStat_decimal hfile, load_text .fresh hcomm⟩, rfl⟩

/-- When all files can be read, what counts is how many there are. -/
theorem steady_iff (h : ∀ d ∈ processes p, Plain p d) : Steady showPid pnum p ↔
    pnum ≤ (processes p).length ∧ (processes p).length ≤ pnum + 5 := by
  have hall : ∀ d ∈ processes p, Survives showPid p d := by
    intro d hd
    obtain ⟨e, he, -⟩ := (h d hd).loads showPid
    exact ⟨e, he⟩
  constructor
  · intro hs
    refine ⟨hs.many hall, ?_⟩
    rcases List.eq_nil_or_concat (processes p) with hnil | ⟨ds₁, d, heq⟩
    · rw [hnil]
      exact Nat.zero_le _
    · rw [List.concat_eq_append] at heq
      have hfew := hs.few ds₁ d [] heq (fun x hx => hall x (by simp [heq, hx]))
        (hall d (by simp [heq])).opens
      rw [heq, List.length_append, List.length_singleton]
      exact hfew
  · rintro ⟨hmany, hfew⟩
    refine ⟨fun ds₁ d ds₂ heq _ _ => ?_, fun _ => hmany, fun _ d hd e he => ?_⟩
    · rw [heq, List.length_append, List.length_cons] at hfew
      omega
    · obtain ⟨e', he', hsome⟩ := (h d (List.mem_of_mem_take hd)).loads showPid
      rw [he.unique he']
      exact hsome

/-- `tmux` ends between the passes. -/
theorem not_passes_agree : ∃ showPid p₁ p₂, ¬ PassesAgree showPid p₁ p₂ := by
  refine ⟨false, { systemd.proc with dir := some [decimal 1, decimal 7] }, systemd.proc,
    fun h => ?_⟩
  obtain ⟨hin, hfill⟩ := h _ _ (getPnumLoad_pnum _ _ _)
  have hplain : ∀ d ∈ processes systemd.proc, Plain systemd.proc d := by
    intro d hd
    have hone : processes systemd.proc = [decimal systemd.pid] := by decide +kernel
    rw [hone, List.mem_singleton] at hd
    exact ⟨systemd, hd, systemd.proc_fopen, systemd_plain⟩
  have hmany := ((steady_iff hplain).1 (steady_of_load hin hfill)).1
  exact absurd hmany (by decide)

end MyOs.Pstree
