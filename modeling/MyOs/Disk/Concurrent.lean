import MyOs.Disk.Tasks

/-!
# Concurrent requests

Two calls share nothing but the buffer. As long as a task finds there what it has
put there itself, the calls do not corrupt each other; and a step that moves other
bytes out of the buffer corrupts one.

* `PcOk` — what holds of one task, in terms of its own buffer.
* `inv_step` — the invariant of runs.
* `intact_of_undisturbed` — the disk is that of a serial execution as long as no
  step is disturbed, and a step keeps it so if and only if it is not.
* `read_disturbed` — two reads of different blocks, of which the first delivers
  the block of the second.
-/

namespace MyOs.Disk

open MyOs.Extent MyOs.Word MyOs.Transition

variable {sd : Sd} {image image' image₀ flat flat' own : Bytes} {S S' : Sys} {t u : Tid}
  {r : Request} {k : Stage} {f : Frame} {pc pc' : Pc}

-- ---------------------------------------------------------------------------
-- One task
-- ---------------------------------------------------------------------------

/-- The position of the round on the disk. -/
def pos (r : Request) (f : Frame) : Nat := r.offset + f.pos

/-- The bytes of the round. -/
def len (sd : Sd) (r : Request) (f : Frame) : Nat :=
  part sd.blksz (pos r f) (r.offset + r.count)

/-- A call that has moved the bytes before its position. -/
structure CallOk (sd : Sd) (image flat : Bytes) (r : Request) (f : Frame) : Prop where
  fits : Fits sd r.offset r.count
  here : At sd r.offset r.count f
  src : r.write = true → f.buf = r.buf
  read : r.write = false → f.buf = copy r.buf 0 flat r.offset f.pos
  write : r.write = true → ∀ i, i < f.pos → image (r.offset + i) = r.buf i

/-- What the task has put into the buffer before the next step of its round. -/
def StageOk (sd : Sd) (image own : Bytes) (r : Request) (f : Frame) : Stage → Prop
  | .fill => True
  | .copy => (r.write = true → len sd r f < sd.blksz) → Filled sd.blksz (pos r f) image own
  | .flush => r.write = true ∧
      Patched sd.blksz (pos r f) (len sd r f) image r.buf f.pos own

/-- **What holds of a task**, with the bytes `image` on the disk and `flat` of the calls
that have returned. -/
def PcOk (sd : Sd) (image flat own : Bytes) : Pc → Prop
  | .idle => True
  | .busy r k f => CallOk sd image flat r f ∧ f.pos < r.count ∧ StageOk sd image own r f k
  | .ret r f => CallOk sd image flat r f ∧ f.pos = r.count

theorem CallOk.congr (h : CallOk sd image flat r f)
    (hsame : ∀ a, Touches sd r a → image' a = image a ∧ flat' a = flat a) :
    CallOk sd image' flat' r f := by
  have hle := h.here.pos_le
  refine ⟨h.fits, h.here, h.src, fun hr => ?_, fun hw i hi => ?_⟩
  · rw [h.read hr]
    funext a
    by_cases ha : a < f.pos
    · rw [copy_inside (Nat.zero_le a) (by omega), copy_inside (Nat.zero_le a) (by omega)]
      exact (hsame _ ⟨_, by omega, by omega, rfl⟩).2.symm
    · rw [copy_outside (by omega), copy_outside (by omega)]
  · rw [(hsame _ ⟨_, by omega, by omega, rfl⟩).1]
    exact h.write hw i hi

/-- The block of the round is one of the request's. -/
theorem touches_block (hpos : f.pos < r.count) {a : Nat} (ha : a < sd.blksz) :
    Touches sd r (pos r f / sd.blksz * sd.blksz + a) := by
  refine ⟨pos r f, Nat.le_add_right _ _, Nat.add_lt_add_left hpos _, ?_⟩
  rw [Nat.mul_comm, Nat.mul_add_div (by omega), Nat.div_eq_of_lt ha, Nat.add_zero]

/-- **Frame rule**: a task sees the blocks of its own request only. -/
theorem PcOk.congr (h : PcOk sd image flat own pc)
    (hsame : ∀ r f, pc.call = some (r, f) → ∀ a, Touches sd r a →
      image' a = image a ∧ flat' a = flat a) : PcOk sd image' flat' own pc := by
  cases pc with
  | idle => trivial
  | busy r k f =>
    obtain ⟨hcall, hpos, hstage⟩ := h
    have hsame := hsame r f rfl
    refine ⟨hcall.congr hsame, hpos, ?_⟩
    have hblock : ∀ a, a < sd.blksz → image' (pos r f / sd.blksz * sd.blksz + a) =
        image (pos r f / sd.blksz * sd.blksz + a) := fun a ha =>
      (hsame _ (touches_block hpos ha)).1
    cases k with
    | fill => trivial
    | copy =>
      intro hpart a ha
      rw [hblock a ha]
      exact hstage hpart a ha
    | flush =>
      refine ⟨hstage.1, fun a ha => ?_⟩
      rw [hblock a ha]
      exact hstage.2 a ha
  | ret r f => exact ⟨h.1.congr (hsame r f rfl), h.2⟩

theorem loopHead_call : (loopHead sd r f).call = some (r, f) := by
  unfold loopHead
  split
  · rfl
  · rfl

/-- The control point behind the loop test. -/
theorem CallOk.loopHead (own : Bytes) (hwf : Wf sd) (h : CallOk sd image flat r f) :
    PcOk sd image flat own (loopHead sd r f) := by
  unfold Disk.loopHead
  by_cases hpos : f.pos < r.count
  · rw [if_pos ((h.here.more_iff h.fits).2 hpos)]
    refine ⟨h, hpos, ?_⟩
    unfold firstStage
    rw [h.here.n_eq hwf h.fits hpos]
    by_cases hwhole : r.write = true ∧
        ¬ part sd.blksz (r.offset + f.pos) (r.offset + r.count) < sd.blksz
    · rw [if_pos hwhole]
      exact fun hpart => absurd (hpart hwhole.1) hwhole.2
    · rw [if_neg hwhole]
      trivial
  · have hle := h.here.pos_le
    rw [if_neg (mt (h.here.more_iff h.fits).1 hpos)]
    exact ⟨h, by omega⟩

-- ---------------------------------------------------------------------------
-- The steps of a round
-- ---------------------------------------------------------------------------

/-- **What a step of a round does**, from any content `buf` of the buffer. -/
inductive Moves (sd : Sd) (buf image : Bytes) (r : Request) (f : Frame) :
    Stage → Bytes → Bytes → Pc → Prop
  | fill : Moves sd buf image r f .fill
      (copy buf 0 image (pos r f / sd.blksz * sd.blksz) sd.blksz) image (.busy r .copy f)
  | copyIn : r.write = true → Moves sd buf image r f .copy
      (copy buf (pos r f % sd.blksz) f.buf f.pos (len sd r f)) image (.busy r .flush f)
  | copyOut {f' : Frame} : r.write = false → At sd r.offset r.count f' →
      f'.pos = f.pos + len sd r f →
      f'.buf = copy f.buf f.pos buf (pos r f % sd.blksz) (len sd r f) →
      Moves sd buf image r f .copy buf image (loopHead sd r f')
  | flush {f' : Frame} : At sd r.offset r.count f' → f'.pos = f.pos + len sd r f →
      f'.buf = f.buf →
      Moves sd buf image r f .flush buf
        (copy image (pos r f / sd.blksz * sd.blksz) buf 0 sd.blksz) (loopHead sd r f')

/-- The steps of a round succeed. -/
theorem exec_moves (hwf : Wf sd) (buf : Bytes) (hfit : Fits sd r.offset r.count)
    (hat : At sd r.offset r.count f) (hpos : f.pos < r.count) :
    ∃ buf' image' pc',
      exec { sd with buf } image r f k = .ok ({ sd with buf := buf' }, image', pc') ∧
      Moves sd buf image r f k buf' image' pc' := by
  have hwf' := hwf.with_buf buf
  have hat' := hat.with_buf buf
  have hfit' := hfit.with_buf buf
  cases k with
  | fill =>
    refine ⟨_, image, _, ?_, .fill⟩
    unfold exec
    rw [hat'.fill hwf' hfit' hpos image]
    rfl
  | copy =>
    by_cases hw : r.write = true
    · refine ⟨_, image, _, ?_, .copyIn hw⟩
      unfold exec
      simp only [if_pos hw, hat'.copyIn hwf' hfit' hpos]
      rfl
    · obtain ⟨f₁, hf₁⟩ : ∃ g : Frame, g = { f with
          buf := copy f.buf f.pos buf (pos r f % sd.blksz) (len sd r f) } := ⟨_, rfl⟩
      have hcopy : copyOut { sd with buf } f = .ok f₁ := by
        rw [hf₁]
        exact hat'.copyOut hwf' hfit' hpos
      have h₁ : At { sd with buf } r.offset r.count f₁ := by
        rw [hf₁]
        exact hat'.with_out _
      have hpos₁ : f₁.pos = f.pos := by rw [hf₁]
      obtain ⟨hnext, h₂⟩ := h₁.next hwf' hfit' (by omega)
      rw [hpos₁] at hnext
      refine ⟨buf, image, loopHead { sd with buf } r (f₁.next { sd with buf }), ?_,
        .copyOut (by simpa using hw) ⟨h₂.count_eq, h₂.pos_le, h₂.offset_eq, h₂.st_eq⟩ hnext ?_⟩
      · unfold exec
        simp only [if_neg hw, hcopy]
        rfl
      · rw [Frame.next_buf, hf₁]
  | flush =>
    obtain ⟨hnext, h₂⟩ := hat'.next hwf' hfit' hpos
    refine ⟨buf, _, loopHead { sd with buf } r (f.next { sd with buf }), ?_,
      .flush ⟨h₂.count_eq, h₂.pos_le, h₂.offset_eq, h₂.st_eq⟩ hnext (Frame.next_buf _ _)⟩
    unfold exec
    simp only [hat'.flush hwf' hfit' hpos]
    rfl

-- ---------------------------------------------------------------------------
-- The invariant
-- ---------------------------------------------------------------------------

/-- The invariant of undisturbed runs. -/
structure Inv (sd : Sd) (image₀ : Bytes) (S : Sys) : Prop where
  task : ∀ t, PcOk sd S.image (serial image₀ S.done) (S.own t) (S.pc t)
  apart : ∀ t u r f r' f', t ≠ u → (S.pc t).call = some (r, f) → (S.pc u).call = some (r', f') →
    Apart sd r r'
  rest : ∀ a, ¬ Written S a → S.image a = serial image₀ S.done a
  served : ∀ r, r ∈ S.done → Fits sd r.offset r.count

theorem PcOk.callOk (h : PcOk sd image flat own pc) (hcall : pc.call = some (r, f)) :
    CallOk sd image flat r f := by
  cases pc with
  | idle => cases hcall
  | busy => cases hcall; exact h.1
  | ret => cases hcall; exact h.1

theorem Inv.intact (h : Inv sd image₀ S) : Intact image₀ S :=
  ⟨fun t _ _ hcall => ((h.task t).callOk hcall).read,
    fun t _ _ hcall => ((h.task t).callOk hcall).write, h.rest⟩

theorem touches_self {a : Nat} (hlo : r.offset ≤ a) (hhi : a < r.offset + r.count) :
    Touches sd r a := ⟨a, hlo, hhi, rfl⟩

theorem Apart.symm {r' : Request} (h : Apart sd r r') : Apart sd r' r := fun a ha ha' => h a ha' ha

/-- What another task sees is not touched by the call. -/
theorem Inv.other (h : Inv sd image₀ S) (hcall : (S.pc t).call = some (r, f)) (hut : u ≠ t)
    {r' : Request} {f' : Frame} (hcall' : (S.pc u).call = some (r', f')) {a : Nat}
    (ha : Touches sd r' a) : ¬ Touches sd r a :=
  fun ha' => h.apart t u r f r' f' (Ne.symm hut) hcall hcall' a ha' ha

/-- **A task advances** in its call: it may change the bytes of its request only. -/
theorem Inv.advance {f' : Frame} {buf' own' : Bytes} (h : Inv sd image₀ S)
    (hcall : (S.pc t).call = some (r, f)) (hcall' : pc'.call = some (r, f'))
    (hok : PcOk sd image' (serial image₀ S.done) own' pc') (hle : f.pos ≤ f'.pos)
    (himage : ∀ a, ¬ (r.write = true ∧ r.offset ≤ a ∧ a < r.offset + f'.pos) →
      image' a = S.image a) :
    Inv sd image₀ { S with
      buf := buf', image := image', pc := Function.update S.pc t pc'
      own := Function.update S.own t own' } := by
  have hcount := (hok.callOk hcall').here.pos_le
  have hself : (Function.update S.pc t pc' t).call = some (r, f') := by
    rw [Function.update_self, hcall']
  refine ⟨fun u => ?_, fun u v ru fu rv fv huv hu hv => ?_, fun a ha => ?_, h.served⟩
  · by_cases hut : u = t
    · subst hut
      simp only [Function.update_self]
      exact hok
    · simp only [Function.update_of_ne hut]
      refine (h.task u).congr fun r' f'' hcall'' a ha => ⟨himage a ?_, rfl⟩
      rintro ⟨-, hlo, hhi⟩
      exact h.other hcall hut hcall'' ha (touches_self hlo (by omega))
  · -- the requests are those of before
    have hold : ∀ w rw' fw, (Function.update S.pc t pc' w).call = some (rw', fw) →
        ∃ fw', (S.pc w).call = some (rw', fw') := by
      intro w rw' fw hw
      by_cases hwt : w = t
      · subst hwt
        rw [hself] at hw
        cases hw
        exact ⟨f, hcall⟩
      · rw [Function.update_of_ne hwt] at hw
        exact ⟨fw, hw⟩
    obtain ⟨fu', hu⟩ := hold u ru fu hu
    obtain ⟨fv', hv⟩ := hold v rv fv hv
    exact h.apart u v ru fu' rv fv' huv hu hv
  · rw [show (Sys.image _) a = S.image a from himage a fun hin => ha ⟨t, r, f', hself, hin⟩]
    refine h.rest a fun hw => ha ?_
    obtain ⟨u, ru, fu, hu, hwrite, hlo, hhi⟩ := hw
    by_cases hut : u = t
    · subst hut
      rw [hcall] at hu
      cases hu
      exact ⟨u, r, f', hself, hwrite, hlo, by omega⟩
    · exact ⟨u, ru, fu, by rw [← hu]; exact congrArg Pc.call (Function.update_of_ne hut _ _),
        hwrite, hlo, hhi⟩

theorem flatServeAll_concat (image : Bytes) (rs : List Request) (r : Request) :
    (flatServeAll image (rs ++ [r])).1 = (flatServe (flatServeAll image rs).1 r).1 := by
  induction rs generalizing image with
  | nil => rfl
  | cons r' rs ih => exact ih _

theorem inv_init (h : Init image₀ S) : Inv sd image₀ S := by
  obtain ⟨himage, hidle, hdone⟩ := h
  refine ⟨fun t => ?_, fun t u r f r' f' _ hcall => ?_, fun a _ => ?_, fun r hr => ?_⟩
  · rw [hidle]
    trivial
  · rw [hidle] at hcall
    cases hcall
  · rw [himage, hdone]
    rfl
  · rw [hdone] at hr
    exact (List.not_mem_nil hr).elim

theorem Inv.call (hwf : Wf sd) (h : Inv sd image₀ S) (hidle : S.pc t = .idle)
    (hfit : Fits sd r.offset r.count)
    (hapart : ∀ u r' f', (S.pc u).call = some (r', f') → Apart sd r r') :
    Inv sd image₀ { S with
      pc := Function.update S.pc t (loopHead sd r (enter sd r.offset r.buf r.count)) } := by
  have hpos : (enter sd r.offset r.buf r.count).pos = 0 := rfl
  have hcallok : CallOk sd S.image (serial image₀ S.done) r (enter sd r.offset r.buf r.count) := by
    refine ⟨hfit, at_enter hwf hfit r.buf, fun _ => rfl, fun _ => ?_, fun _ i hi => ?_⟩
    · rw [hpos, copy_zero]
      rfl
    · rw [hpos] at hi
      omega
  have hok := hcallok.loopHead (S.own t) hwf
  refine ⟨fun u => ?_, fun u v ru fu rv fv huv hu hv => ?_, fun a ha => ?_, h.served⟩
  · by_cases hut : u = t
    · subst hut
      simp only [Function.update_self]
      exact hok
    · simp only [Function.update_of_ne hut]
      exact h.task u
  · simp only at hu hv
    by_cases hut : u = t
    · subst hut
      rw [Function.update_self, loopHead_call] at hu
      rw [Function.update_of_ne (Ne.symm huv)] at hv
      cases hu
      exact hapart v rv fv hv
    · rw [Function.update_of_ne hut] at hu
      by_cases hvt : v = t
      · subst hvt
        rw [Function.update_self, loopHead_call] at hv
        cases hv
        exact (hapart u ru fu hu).symm
      · rw [Function.update_of_ne hvt] at hv
        exact h.apart u v ru fu rv fv huv hu hv
  · refine h.rest a fun hw => ha ?_
    obtain ⟨u, ru, fu, hu, hwrite⟩ := hw
    have hut : u ≠ t := by
      rintro rfl
      rw [hidle] at hu
      cases hu
    exact ⟨u, ru, fu, by rw [← hu]; exact congrArg Pc.call (Function.update_of_ne hut _ _), hwrite⟩

theorem Inv.ret (h : Inv sd image₀ S) (hret : S.pc t = .ret r f) :
    Inv sd image₀ { S with
      pc := Function.update S.pc t .idle, done := S.done ++ [r] } := by
  have hcall : (S.pc t).call = some (r, f) := by rw [hret]; rfl
  have htask := h.task t
  rw [hret] at htask
  obtain ⟨hok, hpos⟩ := htask
  -- the call adds the bytes of its range, if it is a write
  have hserial : ∀ a, ¬ (r.write = true ∧ r.offset ≤ a ∧ a < r.offset + r.count) →
      serial image₀ (S.done ++ [r]) a = serial image₀ S.done a := by
    intro a ha
    unfold serial
    rw [flatServeAll_concat, flatServe]
    by_cases hw : r.write = true
    · rw [if_pos hw]
      exact copy_outside (by by_contra hcon; exact ha ⟨hw, by omega, by omega⟩)
    · rw [if_neg hw]
  refine ⟨fun u => ?_, fun u v ru fu rv fv huv hu hv => ?_, fun a ha => ?_, fun r' hr' => ?_⟩
  · by_cases hut : u = t
    · subst hut
      simp only [Function.update_self]
      trivial
    · simp only [Function.update_of_ne hut]
      refine (h.task u).congr fun r' f' hcall' a ha => ⟨rfl, hserial a ?_⟩
      rintro ⟨-, hlo, hhi⟩
      exact h.other hcall hut hcall' ha (touches_self hlo hhi)
  · simp only at hu hv
    have hne : ∀ w rw' fw, (Function.update S.pc t .idle w).call = some (rw', fw) →
        (S.pc w).call = some (rw', fw) := by
      intro w rw' fw hw
      by_cases hwt : w = t
      · subst hwt
        rw [Function.update_self] at hw
        cases hw
      · rwa [Function.update_of_ne hwt] at hw
    exact h.apart u v ru fu rv fv huv (hne u ru fu hu) (hne v rv fv hv)
  · by_cases hin : r.write = true ∧ r.offset ≤ a ∧ a < r.offset + r.count
    · obtain ⟨hw, hlo, hhi⟩ := hin
      have hbyte := hok.write hw (a - r.offset) (by omega)
      rw [Nat.add_sub_cancel' hlo] at hbyte
      show S.image a = serial image₀ (S.done ++ [r]) a
      unfold serial
      rw [hbyte, flatServeAll_concat, flatServe, if_pos hw]
      dsimp only
      rw [copy_inside hlo hhi, Nat.zero_add]
    · show S.image a = serial image₀ (S.done ++ [r]) a
      rw [hserial a hin]
      refine h.rest a fun hw => ha ?_
      obtain ⟨u, ru, fu, hu, hwrite, hlo, hhi⟩ := hw
      have hut : u ≠ t := by
        rintro rfl
        rw [hcall] at hu
        cases hu
        exact hin ⟨hwrite, hlo, by omega⟩
      exact ⟨u, ru, fu, by rw [← hu]; exact congrArg Pc.call (Function.update_of_ne hut _ _),
        hwrite, hlo, hhi⟩
  · rcases List.mem_append.1 hr' with hr' | hr'
    · exact h.served r' hr'
    · rw [List.mem_singleton.1 hr']
      exact hok.fits

-- ---------------------------------------------------------------------------
-- Undisturbed steps
-- ---------------------------------------------------------------------------

/-- A read in progress finds the bytes of the serial execution on the disk. -/
theorem Inv.image_eq (h : Inv sd image₀ S) (hcall : (S.pc t).call = some (r, f)) {a : Nat}
    (ha : Touches sd r a) (hnot : ¬ (r.write = true ∧ r.offset ≤ a ∧ a < r.offset + f.pos)) :
    S.image a = serial image₀ S.done a := by
  refine h.rest a fun hw => ?_
  obtain ⟨u, ru, fu, hu, hwrite, hlo, hhi⟩ := hw
  by_cases hut : u = t
  · subst hut
    rw [hcall] at hu
    cases hu
    exact hnot ⟨hwrite, hlo, hhi⟩
  · have hle := ((h.task u).callOk hu).here.pos_le
    exact h.other hcall hut hu (touches_self hlo (by omega)) ha

/-- The bytes that leave the buffer, by control point. -/
def Leaves (sd : Sd) (r : Request) (f : Frame) (k : Stage) (a : Nat) : Prop :=
  match k with
  | .fill => False
  | .copy => r.write = false ∧ pos r f % sd.blksz ≤ a ∧ a < pos r f % sd.blksz + len sd r f
  | .flush => a < sd.blksz

/-- The condition, in terms of the request. -/
theorem undisturbed_iff (hwf : Wf sd) (h : Inv sd image₀ S) (hpc : S.pc t = .busy r k f) :
    Undisturbed sd S (.exec t) ↔ ∀ a, Leaves sd r f k a → S.buf a = S.own t a := by
  have htask := h.task t
  rw [hpc] at htask
  obtain ⟨hok, hpos, -⟩ := htask
  have hskip := hok.here.skip_eq hpos
  have hn := hok.here.n_eq hwf hok.fits hpos
  have hcast : ∀ a : Nat, (f.skip ≤ a ∧ a < f.skip + f.n sd) ↔
      pos r f % sd.blksz ≤ a ∧ a < pos r f % sd.blksz + len sd r f := fun a => by
    rw [hskip, hn]
    unfold len pos
    omega
  constructor
  · intro hund a hleave
    obtain ⟨hcopy, hflush⟩ := hund r k f hpc
    cases k with
    | fill => exact hleave.elim
    | copy =>
      obtain ⟨hr, hin⟩ := hleave
      obtain ⟨hlo, hhi⟩ := (hcast a).2 hin
      exact hcopy rfl hr a hlo hhi
    | flush => exact hflush rfl a hleave
  · intro hsame r' k' f' hpc'
    rw [hpc] at hpc'
    cases hpc'
    refine ⟨fun hk hr a hlo hhi => hsame a ?_, fun hk a ha => hsame a ?_⟩
    · rw [hk]
      exact ⟨hr, (hcast a).1 ⟨hlo, hhi⟩⟩
    · rw [hk]
      exact ha

/-- A read that has delivered the bytes of the round. -/
theorem CallOk.delivered {f' : Frame} (h : CallOk sd image flat r f) (hr : r.write = false)
    (hat : At sd r.offset r.count f') (hpos' : f'.pos = f.pos + len sd r f)
    (hbuf' : f'.buf = copy f.buf f.pos flat (pos r f) (len sd r f)) :
    CallOk sd image flat r f' := by
  have hnot : r.write ≠ true := Bool.eq_false_iff.1 hr
  refine ⟨h.fits, hat, fun hw => absurd hw hnot, fun _ => ?_, fun hw => absurd hw hnot⟩
  rw [hbuf', hpos', h.read hr, ← copy_append (n := len sd r f), Nat.zero_add]
  rfl

/-- A write that has written the bytes of the round. -/
theorem CallOk.written {f' : Frame} (h : CallOk sd image flat r f) (hw : r.write = true)
    (hat : At sd r.offset r.count f') (hpos' : f'.pos = f.pos + len sd r f)
    (hbuf' : f'.buf = f.buf) :
    CallOk sd (copy image (pos r f) r.buf f.pos (len sd r f)) flat r f' := by
  have hoff : pos r f = r.offset + f.pos := rfl
  refine ⟨h.fits, hat, fun _ => hbuf'.trans (h.src hw), fun hr => ?_, fun _ i hi => ?_⟩
  · exact absurd hw (Bool.eq_false_iff.1 hr)
  · by_cases hnew : f.pos ≤ i
    · rw [copy_inside (by omega) (by omega)]
      congr 1
      omega
    · rw [copy_outside (by omega)]
      exact h.write hw i (by omega)

/-- **An undisturbed step keeps the invariant.** -/
theorem Inv.move {buf' own' image'' : Bytes} {pc'' : Pc} (hwf : Wf sd) (h : Inv sd image₀ S)
    (hpc : S.pc t = .busy r k f) (hmove : Moves sd S.buf S.image r f k buf' image' pc')
    (hown : Moves sd (S.own t) S.image r f k own' image'' pc'')
    (hsame : ∀ a, Leaves sd r f k a → S.buf a = S.own t a) :
    Inv sd image₀ { S with
      buf := buf', image := image', pc := Function.update S.pc t pc'
      own := Function.update S.own t own' } := by
  have hcall : (S.pc t).call = some (r, f) := by rw [hpc]; rfl
  have htask := h.task t
  rw [hpc] at htask
  obtain ⟨hok, hpos, hstage⟩ := htask
  have hmod : pos r f % sd.blksz + len sd r f ≤ sd.blksz := mod_add_part_le hwf _ _
  cases hmove with
  | fill =>
    cases hown with
    | fill =>
      exact h.advance hcall rfl ⟨hok, hpos, fun _ => filled_copy _ _ _ _⟩ (le_refl _)
        fun a _ => rfl
  | copyIn hw =>
    cases hown with
    | copyIn _ =>
      refine h.advance hcall rfl ⟨hok, hpos, hw, ?_⟩ (le_refl _) fun a _ => rfl
      rw [hok.src hw]
      exact patched_copy (fun hpart => hstage fun _ => hpart) hmod
    | copyOut hr => exact absurd hw (Bool.eq_false_iff.1 hr)
  | copyOut hr hat hpos' hbuf' =>
    have hnot : r.write ≠ true := Bool.eq_false_iff.1 hr
    -- the block goes from the disk through the buffer to the caller
    have hfilled := hstage fun hw => absurd hw hnot
    have hserial : Filled sd.blksz (pos r f) (serial image₀ S.done) (S.own t) := by
      intro a ha
      rw [hfilled a ha]
      exact h.image_eq hcall (touches_block hpos ha) fun hcon => absurd hcon.1 hnot
    have hdisk : copy f.buf f.pos S.buf (pos r f % sd.blksz) (len sd r f) =
        copy f.buf f.pos (serial image₀ S.done) (pos r f) (len sd r f) := by
      rw [← hserial.copy_eq hmod]
      exact copy_congr fun i hi => hsame _ ⟨hr, by omega, by omega⟩
    have hok' := hok.delivered hr hat hpos' (hbuf'.trans hdisk)
    exact h.advance hcall loopHead_call (hok'.loopHead own' hwf) (by omega) fun a _ => rfl
  | flush hat hpos' hbuf' =>
    obtain ⟨hw, hpatched⟩ := hstage
    -- the block on the disk gets the part of the request
    have hdisk : copy S.image (pos r f / sd.blksz * sd.blksz) S.buf 0 sd.blksz =
        copy S.image (pos r f) r.buf f.pos (len sd r f) := by
      rw [← hpatched.copy_eq hmod]
      exact copy_congr fun i hi => hsame _ (show 0 + i < sd.blksz by omega)
    rw [hdisk]
    have hok' := hok.written hw hat hpos' hbuf'
    have hoff : pos r f = r.offset + f.pos := rfl
    refine h.advance hcall loopHead_call (hok'.loopHead own' hwf) (by omega)
      fun a ha => copy_outside ?_
    by_contra hcon
    exact ha ⟨hw, by omega, by omega⟩

/-- A read that has delivered the bytes of the disk has found its own block in the buffer. -/
theorem Inv.undisturbed_copyOut {f' : Frame} {own' : Bytes} {a : Nat} (h : Inv sd image₀ S)
    (hwf : Wf sd) (hpc : S.pc t = .busy r .copy f) (hr : r.write = false)
    (hpos' : f'.pos = f.pos + len sd r f)
    (hbuf' : f'.buf = copy f.buf f.pos S.buf (pos r f % sd.blksz) (len sd r f))
    (hintact : Intact image₀ { S with
      pc := Function.update S.pc t (loopHead sd r f'), own := Function.update S.own t own' })
    (hlo : pos r f % sd.blksz ≤ a) (hhi : a < pos r f % sd.blksz + len sd r f) :
    S.buf a = S.own t a := by
  have hcall : (S.pc t).call = some (r, f) := by rw [hpc]; rfl
  have htask := h.task t
  rw [hpc] at htask
  obtain ⟨hok, hpos, hstage⟩ := htask
  have hmod : pos r f % sd.blksz + len sd r f ≤ sd.blksz := mod_add_part_le hwf _ _
  have hoff : pos r f = r.offset + f.pos := rfl
  have hnot : r.write ≠ true := Bool.eq_false_iff.1 hr
  have hfilled := hstage fun hw => absurd hw hnot
  have hself : (Function.update S.pc t (loopHead sd r f') t).call = some (r, f') := by
    rw [Function.update_self, loopHead_call]
  have hread := hintact.read t r f' hself hr
  -- the byte of the caller that comes from `a`
  have hbyte := congrFun (hread.symm.trans hbuf') (f.pos + (a - pos r f % sd.blksz))
  rw [copy_inside (by omega) (by omega), copy_inside (by omega) (by omega)] at hbyte
  have hdiv := div_mul_add_mod (pos r f) sd.blksz
  have himage := h.image_eq hcall (touches_block hpos (show a < sd.blksz by omega))
    fun hcon => absurd hcon.1 hnot
  rw [hfilled a (by omega), himage,
    show pos r f / sd.blksz * sd.blksz + a =
      r.offset + (f.pos + (a - pos r f % sd.blksz) - 0) by omega]
  show S.buf a = serial image₀ S.done _
  rw [hbyte]
  congr 1
  omega

/-- A write that has left the rest of its block alone has written its own block. -/
theorem Inv.undisturbed_flush {f' : Frame} {own' : Bytes} {a : Nat} (h : Inv sd image₀ S)
    (hwf : Wf sd) (hpc : S.pc t = .busy r .flush f) (hpos' : f'.pos = f.pos + len sd r f)
    (hintact : Intact image₀ { S with
      image := copy S.image (pos r f / sd.blksz * sd.blksz) S.buf 0 sd.blksz
      pc := Function.update S.pc t (loopHead sd r f'), own := Function.update S.own t own' })
    (ha : a < sd.blksz) : S.buf a = S.own t a := by
  have hcall : (S.pc t).call = some (r, f) := by rw [hpc]; rfl
  have htask := h.task t
  rw [hpc] at htask
  obtain ⟨hok, hpos, hw, hpatched⟩ := htask
  have hmod : pos r f % sd.blksz + len sd r f ≤ sd.blksz := mod_add_part_le hwf _ _
  have hoff : pos r f = r.offset + f.pos := rfl
  have hself : (Function.update S.pc t (loopHead sd r f') t).call = some (r, f') := by
    rw [Function.update_self, loopHead_call]
  have hdiv := div_mul_add_mod (pos r f) sd.blksz
  obtain ⟨b, hb⟩ : ∃ b, b = pos r f / sd.blksz * sd.blksz + a := ⟨_, rfl⟩
  have htouch : Touches sd r b := by
    rw [hb]
    exact touches_block hpos ha
  have hnew : copy S.image (pos r f / sd.blksz * sd.blksz) S.buf 0 sd.blksz b = S.buf a := by
    rw [copy_inside (by omega) (by omega)]
    congr 1
    omega
  rw [hpatched a ha, ← hb, ← hnew]
  by_cases hin : pos r f % sd.blksz ≤ a ∧ a < pos r f % sd.blksz + len sd r f
  · rw [if_pos hin]
    have hbyte := hintact.write t r f' hself hw (f.pos + (a - pos r f % sd.blksz)) (by omega)
    rw [← hbyte]
    show _ = copy S.image _ S.buf 0 sd.blksz _
    congr 1
    omega
  · rw [if_neg hin]
    by_cases hold : r.offset ≤ b ∧ b < r.offset + f.pos
    · -- the byte has been written before
      have hbyte := hintact.write t r f' hself hw (b - r.offset) (by omega)
      rw [Nat.add_sub_cancel' hold.1] at hbyte
      have hprev := hok.write hw (b - r.offset) (by omega)
      rw [Nat.add_sub_cancel' hold.1] at hprev
      exact hbyte.trans hprev.symm
    · rw [h.image_eq hcall htouch fun hcon => hold hcon.2]
      refine hintact.rest b fun hwritten => ?_
      obtain ⟨u, ru, fu, hu, hwrite, hlo, hhi⟩ := hwritten
      by_cases hut : u = t
      · subst hut
        rw [show (Sys.pc _ u).call = some (r, f') from hself] at hu
        cases hu
        omega
      · have hu : (S.pc u).call = some (ru, fu) := by
          rw [← hu]
          exact congrArg Pc.call (Function.update_of_ne hut _ _).symm
        have hle := ((h.task u).callOk hu).here.pos_le
        exact h.other hcall hut hu (touches_self hlo (by omega)) htouch

/-- **A step that leaves the calls intact is undisturbed.** -/
theorem Inv.undisturbed {buf' own' : Bytes} (h : Inv sd image₀ S)
    (hwf : Wf sd) (hpc : S.pc t = .busy r k f)
    (hmove : Moves sd S.buf S.image r f k buf' image' pc')
    (hintact : Intact image₀ { S with
      buf := buf', image := image', pc := Function.update S.pc t pc'
      own := Function.update S.own t own' }) :
    ∀ a, Leaves sd r f k a → S.buf a = S.own t a := by
  intro a hleave
  cases hmove with
  | fill => exact hleave.elim
  | copyIn hw => exact absurd hw (Bool.eq_false_iff.1 hleave.1)
  | copyOut hr hat hpos' hbuf' =>
    exact h.undisturbed_copyOut hwf hpc hr hpos' hbuf' hintact hleave.2.1 hleave.2.2
  | flush hat hpos' hbuf' => exact h.undisturbed_flush hwf hpc hpos' hintact hleave

-- ---------------------------------------------------------------------------
-- Runs
-- ---------------------------------------------------------------------------

/-- What a step of a call is, in both buffers. -/
theorem Inv.exec (hwf : Wf sd) (h : Inv sd image₀ S) (hpc : S.pc t = .busy r k f) (buf : Bytes) :
    ∃ buf' image' pc', exec { sd with buf } S.image r f k =
      .ok ({ sd with buf := buf' }, image', pc') ∧ Moves sd buf S.image r f k buf' image' pc' := by
  have htask := h.task t
  rw [hpc] at htask
  exact exec_moves hwf buf htask.1.fits htask.1.here htask.2.1

/-- **One step**: it keeps the invariant if it is undisturbed, and it is undisturbed if
it leaves the calls intact. -/
theorem inv_step (hwf : Wf sd) (h : Inv sd image₀ S) {a : Label} (hstep : Step sd S a S') :
    (Undisturbed sd S a → Inv sd image₀ S') ∧ (Intact image₀ S' → Undisturbed sd S a) := by
  cases hstep with
  | call hidle hfit hapart => exact ⟨fun _ => h.call hwf hidle hfit hapart, fun _ => trivial⟩
  | @exec t r k f sd' own' image' image'' pc' pc'' hpc hexec hown =>
    obtain ⟨buf₁, image₁, pc₁, hexec₁, hmove⟩ := h.exec hwf hpc S.buf
    obtain ⟨buf₂, image₂, pc₂, hexec₂, hmove'⟩ := h.exec hwf hpc (S.own t)
    rw [hexec] at hexec₁
    cases hexec₁
    rw [hown] at hexec₂
    cases hexec₂
    rw [undisturbed_iff hwf h hpc]
    exact ⟨h.move hwf hpc hmove hmove', h.undisturbed hwf hpc hmove⟩
  | ret hret => exact ⟨fun _ => h.ret hret, fun _ => trivial⟩

/-- **Run lemma.** -/
theorem inv_of_undisturbed (hwf : Wf sd)
    (hr : Reach (Init image₀) (Restrict (Step sd) fun S a _ => Undisturbed sd S a) S) :
    Inv sd image₀ S := by
  refine hr.invariant (fun S h => inv_init h) ?_
  intro S a S' _ h hstep
  exact (inv_step hwf h hstep.1).1 hstep.2

/-- **Concurrent requests do not corrupt each other** in runs without a disturbed step:
in every state reached, reads have delivered the bytes their range holds, writes have
written their own and no other bytes, calls return their count, and the disk is the one
the driver leaves when it serves the calls one after the other. A step from such a
state leaves the calls intact if and only if it is undisturbed. -/
theorem intact_of_undisturbed (sd : Sd) (hwf : Wf sd) (image₀ : Bytes) (S : Sys)
    (hr : Reach (Init image₀) (Restrict (Step sd) fun S a _ => Undisturbed sd S a) S) :
    Intact image₀ S ∧
    (∀ t r f, S.pc t = .ret r f → f.pos = r.count ∧ toI32 f.pos = r.count) ∧
    (∃ dev replies, serveAll ⟨some sd, image₀⟩ S.done = .ok (dev, replies) ∧
      dev.image = serial image₀ S.done ∧ ((∀ t, S.pc t = .idle) → S.image = dev.image)) ∧
    (∀ t r k f, S.pc t = .busy r k f → ∃ S', Step sd S (.exec t) S') ∧
    ∀ a S', Step sd S a S' → (Intact image₀ S' ↔ Undisturbed sd S a) := by
  have hinv := inv_of_undisturbed hwf hr
  refine ⟨hinv.intact, fun t r f hret => ?_, ?_, fun t r k f hpc => ?_, fun a S' hstep => ?_⟩
  · have htask := hinv.task t
    rw [hret] at htask
    have hlt := htask.1.fits.count_lt
    exact ⟨htask.2, by rw [htask.2]; exact toI32_eq rfl hlt⟩
  · obtain ⟨buf, hserve⟩ := serveAll_eq_flat image₀ hwf S.done hinv.served
    refine ⟨_, _, hserve, rfl, fun hidle => ?_⟩
    funext a
    refine hinv.rest a ?_
    rintro ⟨t, r, f, hcall, -⟩
    rw [hidle t] at hcall
    cases hcall
  · obtain ⟨buf₁, image₁, pc₁, hexec, -⟩ := hinv.exec hwf hpc S.buf
    obtain ⟨buf₂, image₂, pc₂, hown, -⟩ := hinv.exec hwf hpc (S.own t)
    exact ⟨_, .exec hpc hexec hown⟩
  · obtain ⟨hkeep, hback⟩ := inv_step hwf hinv hstep
    exact ⟨hback, fun hund => (hkeep hund).intact⟩

-- ---------------------------------------------------------------------------
-- A round on its own
-- ---------------------------------------------------------------------------

/-- The bytes in the buffer are those of the task. -/
def Owns (sd : Sd) (S : Sys) (t : Tid) : Prop := ∀ a, a < sd.blksz → S.buf a = S.own t a

/-- The same step from the buffer and from what the task has put there. -/
theorem Moves.owns {buf own buf' own' image'' : Bytes} {pc'' : Pc}
    (h : Moves sd buf image r f k buf' image' pc')
    (h' : Moves sd own image r f k own' image'' pc'')
    (hown : k ≠ .fill → ∀ a, a < sd.blksz → buf a = own a) :
    ∀ a, a < sd.blksz → buf' a = own' a := by
  intro a ha
  cases h with
  | fill =>
    cases h'
    rw [copy_inside (Nat.zero_le a) (by omega), copy_inside (Nat.zero_le a) (by omega)]
  | copyIn hw =>
    cases h' with
    | copyIn _ =>
      by_cases hin : pos r f % sd.blksz ≤ a ∧ a < pos r f % sd.blksz + len sd r f
      · rw [copy_inside hin.1 hin.2, copy_inside hin.1 hin.2]
      · rw [copy_outside (by omega), copy_outside (by omega)]
        exact hown nofun a ha
    | copyOut hr => exact absurd hw (Bool.eq_false_iff.1 hr)
  | copyOut hr =>
    cases h' with
    | copyIn hw => exact absurd hw (Bool.eq_false_iff.1 hr)
    | copyOut => exact hown nofun a ha
  | flush =>
    cases h'
    exact hown nofun a ha

/-- **A step on its own** is undisturbed: the task has filled the buffer since somebody else did. -/
theorem exists_step_alone (hwf : Wf sd)
    (hr : Reach (Init image₀) (Restrict (Step sd) fun S a _ => Undisturbed sd S a) S)
    (hpc : S.pc t = .busy r k f) (hown : k ≠ .fill → Owns sd S t) :
    ∃ S' buf' image' pc',
      Reach (Init image₀) (Restrict (Step sd) fun S a _ => Undisturbed sd S a) S' ∧
      Moves sd S.buf S.image r f k buf' image' pc' ∧ S'.pc = Function.update S.pc t pc' ∧
      S'.done = S.done ∧ Owns sd S' t := by
  have h := inv_of_undisturbed hwf hr
  obtain ⟨buf', image', pc', hexec, hmove⟩ := h.exec hwf hpc S.buf
  obtain ⟨own', image'', pc'', hexec', hmove'⟩ := h.exec hwf hpc (S.own t)
  have htask := h.task t
  rw [hpc] at htask
  have hmod : pos r f % sd.blksz + len sd r f ≤ sd.blksz := mod_add_part_le hwf _ _
  refine ⟨_, buf', image', pc', hr.step ⟨.exec hpc hexec hexec', ?_⟩, hmove, rfl, rfl,
    fun a ha => ?_⟩
  · refine (undisturbed_iff hwf h hpc).2 fun a hleave => ?_
    cases k with
    | fill => exact hleave.elim
    | copy => exact hown nofun a (Nat.lt_of_lt_of_le hleave.2.2 hmod)
    | flush => exact hown nofun a hleave
  · show buf' a = Function.update S.own t own' t a
    rw [Function.update_self]
    exact hmove.owns hmove' hown a ha

/-- The loop ends behind the last byte. -/
theorem loopHead_of_done (hfit : Fits sd r.offset r.count) (hat : At sd r.offset r.count f)
    (hpos : f.pos = r.count) : loopHead sd r f = .ret r f :=
  if_neg (mt (hat.more_iff hfit).1 (by omega))

-- ---------------------------------------------------------------------------
-- Two tasks
-- ---------------------------------------------------------------------------

/-- A disk of two blocks. -/
def twoBlocks : Sd := { blkcnt := 2, blksz := 512, buf := fun _ => 0 }

/-- Ones in the first block, twos in the second. -/
def onesTwos : Bytes := fun a => if a < 512 then 1 else 2

/-- A read of one byte. -/
def readByte (off : Nat) : Request :=
  { write := false, offset := off, count := 1, buf := fun _ => 0 }

/-- The local variables in front of its round. -/
def readFrame (off : Nat) : Frame := enter twoBlocks off (fun _ => 0) 1

theorem wf_twoBlocks : Wf twoBlocks := ⟨⟨9, rfl⟩, fun _ => by decide⟩

theorem fits_readByte {off : Nat} (h : off < 1024) : Fits twoBlocks off 1 :=
  ⟨Nat.succ_le_of_lt h, by omega, by decide⟩

theorem apart_readByte : Apart twoBlocks (readByte 512) (readByte 0) := by
  rintro a ⟨x, hlo, -, hx⟩ ⟨y, -, hhi, hy⟩
  have hlo : 512 ≤ x := hlo
  have hhi : y < 0 + 1 := hhi
  have hx : x / 512 = a / 512 := hx
  have hy : y / 512 = a / 512 := hy
  omega

theorem exec_fill_readByte {off : Nat} (h : off < 1024) (buf : Bytes) :
    exec { twoBlocks with buf } onesTwos (readByte off) (readFrame off) .fill =
      .ok ({ twoBlocks with buf := copy buf 0 onesTwos (off / 512 * 512) 512 }, onesTwos,
        .busy (readByte off) .copy (readFrame off)) := by
  have hat := (at_enter wf_twoBlocks (fits_readByte h) fun _ => 0).with_buf buf
  have hfill := hat.fill (wf_twoBlocks.with_buf buf) ((fits_readByte h).with_buf buf) Nat.one_pos
    onesTwos
  show (do
    let sd ← fill { twoBlocks with buf } onesTwos (readFrame off)
    return (sd, onesTwos, Pc.busy (readByte off) .copy (readFrame off))) = _
  rw [show fill _ onesTwos (readFrame off) = _ from hfill]
  rfl

/-- A task calls `sd_read` for the first byte of a block. -/
theorem step_readByte {off : Nat} (hoff : off = 0 ∨ off = 512) (hidle : S.pc t = .idle)
    (hapart : ∀ u r' f', (S.pc u).call = some (r', f') → Apart twoBlocks (readByte off) r') :
    Step twoBlocks S (.call t (readByte off)) { S with
      pc := Function.update S.pc t (.busy (readByte off) .fill (readFrame off)) } := by
  have hhead : loopHead twoBlocks (readByte off) (enter twoBlocks (readByte off).offset
      (readByte off).buf (readByte off).count) = .busy (readByte off) .fill (readFrame off) := by
    rcases hoff with rfl | rfl <;> rfl
  have hstep := Step.call hidle (show Fits twoBlocks off 1 from fits_readByte (by omega)) hapart
  rwa [hhead] at hstep

/-- A write of one byte, into the second block. -/
def writeByte : Request := { write := true, offset := 512, count := 1, buf := fun _ => 7 }

/-- One task is about to read the first block and another one to write into the second. -/
theorem exists_both_called : ∃ S : Sys,
    Reach (Init onesTwos) (Restrict (Step twoBlocks) fun S a _ => Undisturbed twoBlocks S a) S ∧
      S.pc 0 = .busy (readByte 0) .fill (readFrame 0) ∧
      S.pc 1 = .busy writeByte .fill (enter twoBlocks 512 writeByte.buf 1) ∧ S.done = [] := by
  have hr : Reach (Init onesTwos) (Restrict (Step twoBlocks) fun S a _ => Undisturbed twoBlocks S a)
      ⟨fun _ => 0, onesTwos, fun _ => .idle, fun _ _ => 0, []⟩ := .init ⟨rfl, fun _ => rfl, rfl⟩
  have hr := hr.step ⟨step_readByte (t := 0) (.inl rfl) rfl (by simp [Pc.call]), trivial⟩
  have hr := hr.step ⟨.call (t := 1) (r := writeByte) (by simp [Function.update])
    (fits_readByte (by decide)) (fun u r' f' hcall => by
      by_cases hu : u = 0
      · subst hu
        cases hcall
        exact apart_readByte
      · simp [Function.update_of_ne hu, Pc.call] at hcall), trivial⟩
  exact ⟨_, hr, rfl, rfl, rfl⟩

/-- Each of them runs through its round while the other one is in front of its own or behind it:
the read has delivered its byte and the write has written its own. -/
theorem intact_both_served : ∃ S f g, Reachable twoBlocks onesTwos S ∧
    S.pc 0 = .ret (readByte 0) f ∧ f.buf 0 = 1 ∧
    S.pc 1 = .ret writeByte g ∧ S.image 512 = 7 ∧ Intact onesTwos S := by
  obtain ⟨S, hr, hpc₀, hpc₁, hdone⟩ := exists_both_called
  have hfit₀ : Fits twoBlocks (readByte 0).offset (readByte 0).count := fits_readByte (by decide)
  have hfit₁ : Fits twoBlocks writeByte.offset writeByte.count := fits_readByte (by decide)
  -- the round of the read
  obtain ⟨S₁, b, m, pc, hr₁, hmove, hpcs, hdone₁, hown⟩ :=
    exists_step_alone wf_twoBlocks hr hpc₀ fun hne => absurd rfl hne
  cases hmove
  obtain ⟨S₂, b, m, pc, hr₂, hmove, hpcs₂, hdone₂, -⟩ :=
    exists_step_alone wf_twoBlocks hr₁ (by rw [hpcs, Function.update_self]) fun _ => hown
  cases hmove with
  | copyIn hw => cases hw
  | @copyOut f _ hat hpos _ =>
  rw [loopHead_of_done hfit₀ hat hpos] at hpcs₂
  -- the round of the write
  have hsame : S₂.pc 1 = S.pc 1 := by
    rw [hpcs₂, hpcs, Function.update_of_ne (by decide), Function.update_of_ne (by decide)]
  obtain ⟨S₃, b, m, pc, hr₃, hmove, hpcs₃, hdone₃, hown⟩ :=
    exists_step_alone wf_twoBlocks hr₂ (hsame.trans hpc₁) fun hne => absurd rfl hne
  cases hmove
  obtain ⟨S₄, b, m, pc, hr₄, hmove, hpcs₄, hdone₄, hown⟩ :=
    exists_step_alone wf_twoBlocks hr₃ (by rw [hpcs₃, Function.update_self]) fun _ => hown
  cases hmove with
  | copyOut hr => cases hr
  | copyIn =>
  obtain ⟨S₅, b, m, pc, hr₅, hmove, hpcs₅, hdone₅, -⟩ :=
    exists_step_alone wf_twoBlocks hr₄ (by rw [hpcs₄, Function.update_self]) fun _ => hown
  cases hmove with
  | @flush g hat hpos' _ =>
  rw [loopHead_of_done hfit₁ hat hpos'] at hpcs₅
  have hret₀ : S₅.pc 0 = .ret (readByte 0) f := by
    rw [hpcs₅, hpcs₄, hpcs₃, hpcs₂]
    rfl
  have hret₁ : S₅.pc 1 = .ret writeByte g := by rw [hpcs₅, Function.update_self]
  have hintact := (intact_of_undisturbed twoBlocks wf_twoBlocks onesTwos S₅ hr₅).1
  refine ⟨S₅, f, g, hr₅.of_restrict, hret₀, ?_, hret₁, ?_, hintact⟩
  · rw [hintact.read 0 _ f (by rw [hret₀]; rfl) rfl, hpos, hdone₅, hdone₄, hdone₃, hdone₂, hdone₁,
      hdone]
    rfl
  · exact hintact.write 1 _ g (by rw [hret₁]; rfl) rfl 0 (by rw [hpos']; decide)

-- ---------------------------------------------------------------------------
-- A disturbed read
-- ---------------------------------------------------------------------------

/-- Two tasks have read their blocks into the buffer, one after the other. -/
theorem exists_both_filled : ∃ S : Sys,
    Reach (Init onesTwos) (Restrict (Step twoBlocks) fun S a _ => Undisturbed twoBlocks S a) S ∧
      S.pc 0 = .busy (readByte 0) .copy (readFrame 0) ∧
      S.pc 1 = .busy (readByte 512) .copy (readFrame 512) ∧
      S.image = onesTwos ∧ S.done = [] ∧ S.buf 0 = 2 ∧ S.own 0 0 = 1 := by
  have hr : Reach (Init onesTwos) (Restrict (Step twoBlocks) fun S a _ => Undisturbed twoBlocks S a)
      ⟨fun _ => 0, onesTwos, fun _ => .idle, fun _ _ => 0, []⟩ := .init ⟨rfl, fun _ => rfl, rfl⟩
  have hr := hr.step ⟨step_readByte (t := 0) (.inl rfl) rfl (by simp [Pc.call]), trivial⟩
  have hr := hr.step ⟨step_readByte (t := 1) (.inr rfl) (by simp [Function.update])
    (fun u r' f' hcall => by
      by_cases hu : u = 0
      · subst hu
        cases hcall
        exact apart_readByte
      · simp [Function.update_of_ne hu, Pc.call] at hcall), trivial⟩
  have hr := hr.step ⟨.exec (t := 0) (r := readByte 0) (k := .fill) (f := readFrame 0)
    (by simp [Function.update])
    (exec_fill_readByte (by decide) _) (exec_fill_readByte (by decide) _), fun r k f hpc => by
      cases hpc
      exact ⟨nofun, nofun⟩⟩
  have hr := hr.step ⟨.exec (t := 1) (r := readByte 512) (k := .fill) (f := readFrame 512)
    (by simp [Function.update])
    (exec_fill_readByte (by decide) _) (exec_fill_readByte (by decide) _), fun r k f hpc => by
      cases hpc
      exact ⟨nofun, nofun⟩⟩
  exact ⟨_, hr, by simp [Function.update], by simp, rfl, rfl, rfl, rfl⟩

/-- **A read delivers the block of another request.** Two tasks read one byte each from
different blocks; the second `blk_read` replaces the block of the first task in the
buffer before its `memcpy`. -/
theorem read_disturbed : ∃ S f, Reachable twoBlocks onesTwos S ∧
    S.pc 0 = .ret (readByte 0) f ∧ (∃ g, S.pc 1 = .busy (readByte 512) .copy g) ∧
    Apart twoBlocks (readByte 512) (readByte 0) ∧ S.done = [] ∧
    f.buf 0 = 2 ∧ onesTwos 0 = 1 ∧ ¬ Intact onesTwos S := by
  obtain ⟨S, hr, hpc, hpc', himage, hdone, hbuf, hown⟩ := exists_both_filled
  obtain ⟨f, hf, hpos, hexec⟩ : ∃ f, f.buf 0 = S.buf 0 ∧ f.pos = 1 ∧
      exec { twoBlocks with buf := S.buf } S.image (readByte 0) (readFrame 0) .copy =
        .ok ({ twoBlocks with buf := S.buf }, S.image, .ret (readByte 0) f) := ⟨_, rfl, rfl, rfl⟩
  obtain ⟨f', hexec'⟩ : ∃ f',
      exec { twoBlocks with buf := S.own 0 } S.image (readByte 0) (readFrame 0) .copy =
        .ok ({ twoBlocks with buf := S.own 0 }, S.image, .ret (readByte 0) f') := ⟨_, rfl⟩
  have hlast : Reachable twoBlocks onesTwos _ := hr.of_restrict.step (.exec hpc hexec hexec')
  have hself : Function.update S.pc 0 (.ret (readByte 0) f) 0 = .ret (readByte 0) f :=
    Function.update_self _ _ _
  refine ⟨_, f, hlast, hself, ⟨readFrame 512, ?_⟩, apart_readByte, hdone, hf.trans hbuf, rfl,
    fun hintact => ?_⟩
  · show Function.update S.pc 0 (.ret (readByte 0) f) 1 = _
    rw [Function.update_of_ne (by decide), hpc']
  · have hone : f.buf 0 = 1 := by
      have hread := hintact.read 0 (readByte 0) f (congrArg Pc.call hself) rfl
      have hserial : serial onesTwos S.done = onesTwos := by
        rw [hdone]
        rfl
      rw [hread]
      show copy _ 0 (serial onesTwos S.done) 0 f.pos 0 = 1
      rw [hserial, hpos]
      rfl
    rw [hf, hbuf] at hone
    exact absurd hone (by decide)

end MyOs.Disk
