import MyOs.Disk.Rounds

/-!
# The disk as a flat array of bytes

What a client sees of the driver: a request reads or writes a range of one array,
whatever its alignment and however many blocks it spans. `flatServe` is that
array; blocks, rounds and the bounce buffer do not occur in it.

* `sdReadLoop_spec`, `sdWriteLoop_spec` — the loop invariants: the rest of the
  request is moved as one range.
* `serve_eq_flat` — a call does what the flat array does.
* `sd_refines_flat` — so does every sequence of calls, and a read returns for
  each byte what the latest write that covers it has put there.
-/

namespace MyOs.Disk

open MyOs.Extent MyOs.Word

-- ---------------------------------------------------------------------------
-- The flat array
-- ---------------------------------------------------------------------------

/-- A request to the flat array. -/
def flatServe (image : Bytes) (r : Request) : Bytes × Reply :=
  if r.write = true then (copy image r.offset r.buf 0 r.count, ⟨r.buf, r.count⟩)
  else (image, ⟨copy r.buf 0 image r.offset r.count, r.count⟩)

/-- Requests one after the other. -/
def flatServeAll (image : Bytes) : List Request → Bytes × List Reply
  | [] => (image, [])
  | r :: rs =>
    let rest := flatServeAll (flatServe image r).1 rs
    (rest.1, (flatServe image r).2 :: rest.2)

/-- The ranges that a sequence of requests writes. -/
def writes (rs : List Request) : List (Patch Byte) :=
  rs.filterMap fun r => if r.write = true then some ⟨r.offset, r.count, r.buf⟩ else none

variable {sd : Sd} {image : Bytes} {f : Frame} {off count fuel : Nat}

theorem flatServeAll_image (image : Bytes) (rs : List Request) :
    (flatServeAll image rs).1 = copyAll image (writes rs) := by
  induction rs generalizing image with
  | nil => rfl
  | cons r rs ih =>
    rw [flatServeAll, ih]
    by_cases hr : r.write = true
    · simp only [writes, flatServe, List.filterMap_cons, if_pos hr]
      rfl
    · simp only [writes, flatServe, List.filterMap_cons, if_neg hr]

-- ---------------------------------------------------------------------------
-- The buffer in a round
-- ---------------------------------------------------------------------------

theorem Wf.with_buf (h : Wf sd) (buf : Bytes) : Wf { sd with buf } := ⟨h.pow, h.size⟩

theorem Fits.with_buf (h : Fits sd off count) (buf : Bytes) : Fits { sd with buf } off count :=
  ⟨h.disk, h.word, h.count_lt⟩

theorem At.with_buf (h : At sd off count f) (buf : Bytes) : At { sd with buf } off count f :=
  ⟨h.count_eq, h.pos_le, h.offset_eq, h.st_eq⟩

/-- The local variables, with the caller's buffer changed. -/
theorem At.with_out (h : At sd off count f) (buf : Bytes) : At sd off count { f with buf } :=
  ⟨h.count_eq, h.pos_le, h.offset_eq, h.st_eq⟩

/-- The buffer holds the block of `x`. -/
def Filled (B x : Nat) (image buf : Bytes) : Prop := ∀ a, a < B → buf a = image (x / B * B + a)

/-- The buffer holds the block of `x` with `n` elements of `src` in place of those from `x` on. -/
def Patched (B x n : Nat) (image src : Bytes) (s : Nat) (buf : Bytes) : Prop :=
  ∀ a, a < B → buf a =
    if x % B ≤ a ∧ a < x % B + n then src (s + (a - x % B)) else image (x / B * B + a)

theorem filled_copy (B x : Nat) (image buf : Bytes) :
    Filled B x image (copy buf 0 image (x / B * B) B) := fun a ha =>
  copy_inside (Nat.zero_le a) (by omega)

/-- What leaves a filled buffer comes from the disk. -/
theorem Filled.copy_eq {B x n d : Nat} {buf dst : Bytes} (h : Filled B x image buf)
    (hn : x % B + n ≤ B) : copy dst d buf (x % B) n = copy dst d image x n := by
  have hdiv := div_mul_add_mod x B
  funext a
  by_cases ha : d ≤ a ∧ a < d + n
  · rw [copy_inside ha.1 ha.2, copy_inside ha.1 ha.2, h _ (by omega)]
    congr 1
    omega
  · rw [copy_outside (by omega), copy_outside (by omega)]

/-- The part of the request goes into a filled buffer, or replaces the whole block. -/
theorem patched_copy {B x n s : Nat} {buf src : Bytes} (h : n < B → Filled B x image buf)
    (hn : x % B + n ≤ B) : Patched B x n image src s (copy buf (x % B) src s n) := by
  intro a ha
  by_cases hin : x % B ≤ a ∧ a < x % B + n
  · rw [if_pos hin, copy_inside hin.1 hin.2]
  · rw [if_neg hin, copy_outside (by omega)]
    exact h (by omega) a ha

/-- A patched buffer changes the part of the request only. -/
theorem Patched.copy_eq {B x n s : Nat} {buf src : Bytes} (h : Patched B x n image src s buf)
    (hn : x % B + n ≤ B) : copy image (x / B * B) buf 0 B = copy image x src s n := by
  have hdiv := div_mul_add_mod x B
  funext a
  by_cases ha : x / B * B ≤ a ∧ a < x / B * B + B
  · rw [copy_inside ha.1 ha.2, h _ (by omega)]
    by_cases hin : x ≤ a ∧ a < x + n
    · rw [if_pos (by omega), copy_inside hin.1 hin.2]
      congr 1
      omega
    · rw [if_neg (by omega), copy_outside (by omega)]
      congr 1
      omega
  · rw [copy_outside (by omega), copy_outside (by omega)]

-- ---------------------------------------------------------------------------
-- The loops
-- ---------------------------------------------------------------------------

/-- **The loop of `sd_read`** moves the rest of the request to the caller. -/
theorem sdReadLoop_spec (image : Bytes) (hwf : Wf sd) (hfit : Fits sd off count)
    (h : At sd off count f) (hfuel : count - f.pos < fuel) :
    ∃ buf f', sdReadLoop image fuel sd f = .ok ({ sd with buf }, f') ∧ f'.pos = count ∧
      f'.buf = copy f.buf f.pos image (off + f.pos) (count - f.pos) := by
  induction fuel generalizing sd f with
  | zero => omega
  | succ fuel ih =>
    rw [sdReadLoop]
    by_cases hpos : f.pos < count
    · obtain ⟨x, hx⟩ : ∃ x, x = off + f.pos := ⟨_, rfl⟩
      obtain ⟨n, hn⟩ : ∃ n, n = part sd.blksz x (off + count) := ⟨_, rfl⟩
      have hfill := h.fill hwf hfit hpos image
      rw [← hx] at hfill
      obtain ⟨buf₁, hbuf₁⟩ : ∃ b, b = copy sd.buf 0 image (x / sd.blksz * sd.blksz) sd.blksz :=
        ⟨_, rfl⟩
      have hfilled := filled_copy sd.blksz x image sd.buf
      rw [← hbuf₁] at hfill hfilled
      -- the block goes from the buffer to the caller
      have hcopy : copyOut { sd with buf := buf₁ } f =
          .ok { f with buf := copy f.buf f.pos image x n } := by
        rw [(h.with_buf buf₁).copyOut (hwf.with_buf buf₁) (hfit.with_buf buf₁) hpos, ← hx]
        rw [hn, ← hfilled.copy_eq (mod_add_part_le hwf x (off + count))]
      obtain ⟨f₁, hf₁⟩ : ∃ g : Frame, g = { f with buf := copy f.buf f.pos image x n } := ⟨_, rfl⟩
      rw [← hf₁] at hcopy
      have h₁ : At { sd with buf := buf₁ } off count f₁ := by
        rw [hf₁]
        exact (h.with_buf buf₁).with_out _
      have hpos₁ : f₁.pos = f.pos := by rw [hf₁]
      obtain ⟨hnext, h₂⟩ := h₁.next (hwf.with_buf buf₁) (hfit.with_buf buf₁) (by omega)
      have hpart := part_pos hwf (show x < off + count by omega)
      have hle := part_le sd.blksz x (off + count)
      have hnext : (f₁.next { sd with buf := buf₁ }).pos = f.pos + n := by
        rw [hnext, hpos₁, ← hx, hn]
      obtain ⟨buf, f', hrun, hpos', hbuf'⟩ :=
        ih (hwf.with_buf buf₁) (hfit.with_buf buf₁) h₂ (by omega)
      refine ⟨buf, f', ?_, hpos', ?_⟩
      · rw [if_pos ((h.more_iff hfit).2 hpos), hfill, ok_bind, hcopy, ok_bind]
        exact hrun
      · rw [hbuf', hnext, Frame.next_buf, hf₁, show off + (f.pos + n) = x + n by omega, copy_append,
          ← hx, show n + (count - (f.pos + n)) = count - f.pos by omega]
    · have hle := h.pos_le
      rw [if_neg (mt (h.more_iff hfit).1 hpos), show count - f.pos = 0 by omega, copy_zero]
      exact ⟨sd.buf, f, rfl, by omega, rfl⟩

/-- The first steps of a round of `sd_write` make the block that is written. -/
theorem At.patch (image : Bytes) (hwf : Wf sd) (hfit : Fits sd off count)
    (h : At sd off count f) (hpos : f.pos < count) :
    ∃ buf₁ buf₂, fillPart sd image f = .ok { sd with buf := buf₁ } ∧
      Disk.copyIn { sd with buf := buf₁ } f = .ok { sd with buf := buf₂ } ∧
      Patched sd.blksz (off + f.pos) (part sd.blksz (off + f.pos) (off + count)) image f.buf f.pos
        buf₂ := by
  have hmod := mod_add_part_le hwf (off + f.pos) (off + count)
  have hcopy : ∀ buf₁, Disk.copyIn { sd with buf := buf₁ } f = _ := fun buf₁ =>
    (h.with_buf buf₁).copyIn (hwf.with_buf buf₁) (hfit.with_buf buf₁) hpos
  unfold fillPart
  rw [h.n_eq hwf hfit hpos]
  by_cases hpart : part sd.blksz (off + f.pos) (off + count) < sd.blksz
  · rw [if_pos hpart, h.fill hwf hfit hpos image]
    exact ⟨_, _, rfl, hcopy _, patched_copy (fun _ => filled_copy _ _ _ _) hmod⟩
  · rw [if_neg hpart]
    exact ⟨_, _, rfl, hcopy _, patched_copy (fun hlt => absurd hlt hpart) hmod⟩

/-- **The loop of `sd_write`** moves the rest of the request to the disk. -/
theorem sdWriteLoop_spec (image : Bytes) (hwf : Wf sd) (hfit : Fits sd off count)
    (h : At sd off count f) (hfuel : count - f.pos < fuel) :
    ∃ buf f', f'.pos = count ∧ sdWriteLoop fuel sd image f = .ok ({ sd with buf },
      copy image (off + f.pos) f.buf f.pos (count - f.pos), f') := by
  induction fuel generalizing sd image f with
  | zero => omega
  | succ fuel ih =>
    rw [sdWriteLoop]
    by_cases hpos : f.pos < count
    · obtain ⟨buf₁, buf₂, hfill, hcopy, hpatched⟩ := h.patch image hwf hfit hpos
      obtain ⟨x, hx⟩ : ∃ x, x = off + f.pos := ⟨_, rfl⟩
      obtain ⟨n, hn⟩ : ∃ n, n = part sd.blksz x (off + count) := ⟨_, rfl⟩
      rw [← hx, ← hn] at hpatched
      have hflush : flush { sd with buf := buf₂ } image f = .ok (copy image x f.buf f.pos n) := by
        have hmod := mod_add_part_le hwf x (off + count)
        rw [(h.with_buf buf₂).flush (hwf.with_buf buf₂) (hfit.with_buf buf₂) hpos, ← hx]
        rw [← hpatched.copy_eq (by omega)]
      obtain ⟨hnext, h₂⟩ := (h.with_buf buf₂).next (hwf.with_buf buf₂) (hfit.with_buf buf₂) hpos
      have hpart := part_pos hwf (show x < off + count by omega)
      have hle := part_le sd.blksz x (off + count)
      have hnext : (f.next { sd with buf := buf₂ }).pos = f.pos + n := by rw [hnext, ← hx, hn]
      obtain ⟨buf, f', hpos', hrun⟩ := ih (copy image x f.buf f.pos n)
        (hwf.with_buf buf₂) (hfit.with_buf buf₂) h₂ (by omega)
      refine ⟨buf, f', hpos', ?_⟩
      rw [if_pos ((h.more_iff hfit).2 hpos), hfill, ok_bind, hcopy, ok_bind, hflush, ok_bind,
        hrun, hnext, Frame.next_buf, show off + (f.pos + n) = x + n by omega, copy_append, ← hx,
        show n + (count - (f.pos + n)) = count - f.pos by omega]
    · have hle := h.pos_le
      rw [if_neg (mt (h.more_iff hfit).1 hpos), show count - f.pos = 0 by omega, copy_zero]
      exact ⟨sd.buf, f, by omega, rfl⟩

-- ---------------------------------------------------------------------------
-- Calls
-- ---------------------------------------------------------------------------

/-- **`sd_read`** returns `count` and delivers the bytes from `off` on. -/
theorem sdRead_eq (image : Bytes) (hwf : Wf sd) (hfit : Fits sd off count) (out : Bytes) :
    ∃ buf, sdRead ⟨some sd, image⟩ off out count =
      .ok (⟨some { sd with buf }, image⟩, copy out 0 image off count, count) := by
  have hlt := hfit.count_lt
  have hcount : toU32 count = count := toU32_eq rfl (by omega)
  have hret : toI32 count = count := toI32_eq rfl (by omega)
  have hat := at_enter hwf hfit out
  have hpos : (enter sd off out count).pos = 0 := rfl
  have hbuf : (enter sd off out count).buf = out := rfl
  obtain ⟨buf, f', hrun, hpos', hbuf'⟩ :=
    sdReadLoop_spec image hwf hfit hat (Nat.lt_succ_of_le (Nat.sub_le count _))
  rw [hpos, hbuf] at hbuf'
  refine ⟨buf, ?_⟩
  simp only [sdRead, hcount, hrun, ok_bind, pure_eq_ok, hpos', hret, hbuf', Nat.add_zero,
    Nat.sub_zero]

/-- **`sd_write`** returns `count` and changes the bytes from `off` on. -/
theorem sdWrite_eq (image : Bytes) (hwf : Wf sd) (hfit : Fits sd off count) (src : Bytes) :
    ∃ buf, sdWrite ⟨some sd, image⟩ off src count =
      .ok (⟨some { sd with buf }, copy image off src 0 count⟩, count) := by
  have hlt := hfit.count_lt
  have hcount : toU32 count = count := toU32_eq rfl (by omega)
  have hret : toI32 count = count := toI32_eq rfl (by omega)
  have hat := at_enter hwf hfit src
  have hpos : (enter sd off src count).pos = 0 := rfl
  have hbuf : (enter sd off src count).buf = src := rfl
  obtain ⟨buf, f', hpos', hrun⟩ :=
    sdWriteLoop_spec image hwf hfit hat (Nat.lt_succ_of_le (Nat.sub_le count _))
  rw [hpos, hbuf] at hrun
  refine ⟨buf, ?_⟩
  simp only [sdWrite, hcount, hrun, ok_bind, pure_eq_ok, hpos', hret, Nat.add_zero, Nat.sub_zero]

/-- **A call does what the flat array does.** -/
theorem serve_eq_flat (image : Bytes) (hwf : Wf sd) (r : Request)
    (hfit : Fits sd r.offset r.count) :
    ∃ buf, serve ⟨some sd, image⟩ r =
      .ok (⟨some { sd with buf }, (flatServe image r).1⟩, (flatServe image r).2) := by
  unfold serve flatServe
  by_cases hw : r.write = true
  · obtain ⟨buf, hrun⟩ := sdWrite_eq image hwf hfit r.buf
    refine ⟨buf, ?_⟩
    rw [if_pos hw, if_pos hw, hrun]
    rfl
  · obtain ⟨buf, hrun⟩ := sdRead_eq image hwf hfit r.buf
    refine ⟨buf, ?_⟩
    rw [if_neg hw, if_neg hw, hrun]
    rfl

theorem serveAll_eq_flat (image : Bytes) (hwf : Wf sd) (rs : List Request)
    (hfit : ∀ r, r ∈ rs → Fits sd r.offset r.count) :
    ∃ buf, serveAll ⟨some sd, image⟩ rs =
      .ok (⟨some { sd with buf }, (flatServeAll image rs).1⟩, (flatServeAll image rs).2) := by
  induction rs generalizing sd image with
  | nil => exact ⟨sd.buf, rfl⟩
  | cons r rs ih =>
    obtain ⟨buf₁, hserve⟩ := serve_eq_flat image hwf r (hfit r List.mem_cons_self)
    obtain ⟨buf, hrest⟩ := ih (flatServe image r).1 (hwf.with_buf buf₁)
      fun r' hr' => (hfit r' (List.mem_cons_of_mem r hr')).with_buf buf₁
    refine ⟨buf, ?_⟩
    simp only [serveAll, hserve, ok_bind, hrest, pure_eq_ok]
    rfl

/-- **The driver refines a flat array of bytes.** On a disk of `blkcnt` blocks of
`blksz` bytes, a sequence of requests that lie on the disk is answered as by the
flat array, and leaves the bytes of the flat array; behind it, a read returns for
each of its bytes what the latest write that covers it has put there. -/
theorem sd_refines_flat (cfg : DiskConfig) (fresh image : Bytes) (e : Nat)
    (hpresent : cfg.present = true) (hpow : cfg.blksz = 2 ^ e)
    (hsize : cfg.blkcnt * cfg.blksz < 2 ^ 31) (rs : List Request)
    (hfit : ∀ r, r ∈ rs → r.offset + r.count ≤ cfg.blkcnt * cfg.blksz) :
    ∃ dev, serveAll ⟨sdInit cfg fresh, image⟩ rs = .ok (dev, (flatServeAll image rs).2) ∧
      dev.image = (flatServeAll image rs).1 ∧
      ∀ off count buf, off + count ≤ cfg.blkcnt * cfg.blksz →
        ∃ dev' out, sdRead dev off buf count = .ok (dev', out, count) ∧ dev'.image = dev.image ∧
          ∀ i, out i = if i < count then
            (latest (writes rs) (off + i)).elim (image (off + i)) fun p => p.src (off + i - p.d)
            else buf i := by
  obtain ⟨sd, hsd⟩ : ∃ sd, sd = Sd.mk cfg.blkcnt cfg.blksz fresh := ⟨_, rfl⟩
  have hinit : sdInit cfg fresh = some sd := by
    unfold sdInit
    rw [if_neg (by rw [hpresent]; simp), hsd]
  have hwf : Wf sd := by
    rw [hsd]
    refine ⟨⟨e, hpow⟩, fun hblk => ?_⟩
    have hle : cfg.blksz ≤ cfg.blkcnt * cfg.blksz := Nat.le_mul_of_pos_left _ hblk
    exact le_trans hle (Nat.le_of_lt hsize)
  have hfits : ∀ off count, off + count ≤ cfg.blkcnt * cfg.blksz → Fits sd off count := by
    rw [hsd]
    exact fun off count h => ⟨h, by omega, by omega⟩
  obtain ⟨buf₁, hrun⟩ := serveAll_eq_flat image hwf rs fun r hr => hfits _ _ (hfit r hr)
  refine ⟨_, by rw [hinit]; exact hrun, rfl, fun off count buf hle => ?_⟩
  obtain ⟨buf₂, hread⟩ := sdRead_eq (flatServeAll image rs).1 (hwf.with_buf buf₁)
    ((hfits off count hle).with_buf buf₁) buf
  refine ⟨_, _, hread, rfl, fun i => ?_⟩
  rw [flatServeAll_image]
  by_cases hi : i < count
  · rw [if_pos hi, copy_inside (Nat.zero_le i) (by omega), copyAll_eq, Nat.sub_zero]
  · rw [if_neg hi, copy_outside (by omega)]

/-- A write of 1000 bytes over three blocks, and a read across its end. -/
theorem sd_refines_flat_write : ∃ dev dev' out,
    serveAll ⟨sdInit ⟨true, 4, 512⟩ fun _ => 0, fun _ => 0⟩ [⟨true, 100, 1000, fun _ => 7⟩] =
      .ok (dev, [⟨fun _ => 7, 1000⟩]) ∧
    sdRead dev 1098 (fun _ => 1) 4 = .ok (dev', out, 4) ∧
    out 0 = 7 ∧ out 1 = 7 ∧ out 2 = 0 ∧ out 3 = 0 ∧ out 4 = 1 := by
  obtain ⟨dev, hrun, -, hread⟩ := sd_refines_flat ⟨true, 4, 512⟩ (fun _ => 0) (fun _ => 0) 9 rfl
    (by decide) (by decide) [⟨true, 100, 1000, fun _ => 7⟩] (by simp)
  obtain ⟨dev', out, hcall, -, hout⟩ := hread 1098 4 (fun _ => 1) (by decide)
  exact ⟨dev, dev', out, hrun, hcall, (hout 0).trans rfl, (hout 1).trans rfl, (hout 2).trans rfl,
    (hout 3).trans rfl, (hout 4).trans rfl⟩

end MyOs.Disk
