import MyOs.Disk.Definitions
import MyOs.Lib.Bits
import MyOs.Lib.Fallible

/-!
# Rounds of the driver

What one round of the loops of `sd_read` and `sd_write` does, in terms of the
request: the round at position `pos` of a request for `count` bytes from `off` on
moves the bytes from `off + pos` to the end of their block, or of the request.
All the conversions between `int` and `uint32_t` are without effect there.

* `At` — the local variables stand at a round of the request.
* `At.fill`, `At.copyOut`, `At.copyIn`, `At.flush` — the steps of a round succeed.
* `At.next` — the next round follows on.
-/

namespace MyOs.Disk

open MyOs.Extent MyOs.Word MyOs.Bits

-- ---------------------------------------------------------------------------
-- Requests that fit the disk
-- ---------------------------------------------------------------------------

/-- The geometry of a disk: blocks of a power of two that fits a `uint32_t`. -/
structure Wf (sd : Sd) : Prop where
  pow : ∃ e, sd.blksz = 2 ^ e
  size : 0 < sd.blkcnt → sd.blksz ≤ 2 ^ 31

/-- The request lies on the disk, and its positions fit an `int`. -/
structure Fits (sd : Sd) (off count : Nat) : Prop where
  disk : off + count ≤ sd.blkcnt * sd.blksz
  word : off + count ≤ 2 ^ 31
  count_lt : count < 2 ^ 31

/-- The local variables stand at a round of the request, or behind the last one. -/
structure At (sd : Sd) (off count : Nat) (f : Frame) : Prop where
  count_eq : f.count = count
  pos_le : f.pos ≤ count
  offset_eq : f.pos < count → f.offset = (off + f.pos : Nat)
  st_eq : f.pos < count → f.st = (off + f.pos) / sd.blksz * sd.blksz

variable {sd : Sd} {image : Bytes} {f : Frame} {off count : Nat}

theorem Wf.pos (h : Wf sd) : 0 < sd.blksz := by
  obtain ⟨e, he⟩ := h.pow
  rw [he]
  exact Nat.two_pow_pos e

theorem Fits.blkcnt_pos (hfit : Fits sd off count) (hcount : 0 < count) : 0 < sd.blkcnt := by
  have hdisk := hfit.disk
  by_contra hcon
  rw [Nat.eq_zero_of_not_pos hcon, Nat.zero_mul] at hdisk
  omega

/-- The mask of `ROUNDDOWN` clears the position inside the block. -/
theorem roundDown_eq (hwf : Wf sd) (hblk : 0 < sd.blkcnt) (h : off < 2 ^ 31) :
    roundDown off sd.blksz = off / sd.blksz * sd.blksz := by
  obtain ⟨e, he⟩ := hwf.pow
  have hsize := hwf.size hblk
  have hpos := hwf.pos
  have hmask : toU32 (sd.blksz - 1) = sd.blksz - 1 := toU32_eq (by omega) (by omega)
  have hword : ((off : Int) % 2 ^ 64).toNat = off := by omega
  have hexp : e ≤ 32 := by
    by_contra hcon
    have : 2 ^ 32 ≤ 2 ^ e := Nat.pow_le_pow_right (by omega) (by omega)
    omega
  unfold roundDown
  rw [hword, hmask, show 2 ^ 32 - 1 - (sd.blksz - 1) = 2 ^ 32 - sd.blksz by omega, he]
  exact and_mask (by omega) hexp

/-- The local variables in front of the loop. -/
theorem at_enter (hwf : Wf sd) (hfit : Fits sd off count) (buf : Bytes) :
    At sd off count (enter sd off buf count) := by
  have hword := hfit.word
  refine ⟨rfl, Nat.zero_le _, fun _ => rfl, fun hpos => ?_⟩
  have hpos : 0 < count := hpos
  have hblk := hfit.blkcnt_pos hpos
  show toU32 (roundDown off sd.blksz) = (off + 0) / sd.blksz * sd.blksz
  rw [roundDown_eq hwf hblk (by omega), Nat.add_zero]
  have := Nat.div_mul_le_self off sd.blksz
  exact toU32_eq rfl (by omega)

-- ---------------------------------------------------------------------------
-- The steps of a round
-- ---------------------------------------------------------------------------

/-- The bytes of the round at `x` of a request that ends at `y`. -/
def part (B x y : Nat) : Nat := min (B - x % B) (y - x)

theorem part_pos (hwf : Wf sd) {x y : Nat} (h : x < y) : 0 < part sd.blksz x y := by
  have := Nat.mod_lt x hwf.pos
  unfold part
  omega

theorem part_le (B x y : Nat) : part B x y ≤ y - x := Nat.min_le_right _ _

/-- The bytes of a round lie in one block. -/
theorem mod_add_part_le (hwf : Wf sd) (x y : Nat) :
    x % sd.blksz + part sd.blksz x y ≤ sd.blksz := by
  have := Nat.mod_lt x hwf.pos
  unfold part
  omega

theorem div_mul_add_mod (x B : Nat) : x / B * B + x % B = x := by
  rw [Nat.mul_comm]
  exact Nat.div_add_mod x B

theorem At.more_iff (h : At sd off count f) (hfit : Fits sd off count) :
    f.more ↔ f.pos < count := by
  have hlt := hfit.count_lt
  unfold Frame.more
  rw [h.count_eq, toU32_eq rfl (by omega)]

section Round

variable (h : At sd off count f) (hwf : Wf sd) (hfit : Fits sd off count) (hpos : f.pos < count)

include h hpos in
theorem At.skip_eq : f.skip = ((off + f.pos) % sd.blksz : Nat) := by
  have hdiv := div_mul_add_mod (off + f.pos) sd.blksz
  unfold Frame.skip
  rw [h.offset_eq hpos, h.st_eq hpos]
  omega

include hwf hfit hpos in
/-- The block of the round is there. -/
theorem block_lt : (off + f.pos) / sd.blksz < sd.blkcnt := by
  have hdisk := hfit.disk
  exact (Nat.div_lt_iff_lt_mul hwf.pos).2 (by omega)

include h hwf hfit hpos in
theorem At.n_eq : f.n sd = part sd.blksz (off + f.pos) (off + count) := by
  have hword := hfit.word
  have hcount := hfit.count_lt
  have hsize := hwf.size (hfit.blkcnt_pos (by omega))
  have hmod := Nat.mod_lt (off + f.pos) hwf.pos
  have hskip := h.skip_eq hpos
  unfold Frame.skip at hskip
  have hn : toU32 (sd.blksz - toU32 (f.offset - f.st)) =
      sd.blksz - (off + f.pos) % sd.blksz := by
    rw [toU32_eq hskip (by omega)]
    exact toU32_eq (by omega) (by omega)
  have hrest : toU32 (f.count - f.pos) = count - f.pos := by
    have := h.count_eq
    exact toU32_eq (by omega) (by omega)
  unfold Frame.n part
  simp only [hn, hrest]
  split <;> omega

include h hwf hfit hpos in
theorem At.blkno_eq : toI32 (f.st / sd.blksz : Nat) = ((off + f.pos) / sd.blksz : Nat) := by
  have hword := hfit.word
  have := Nat.div_le_self (off + f.pos) sd.blksz
  rw [h.st_eq hpos, Nat.mul_div_cancel _ hwf.pos]
  exact toI32_eq rfl (by omega)

include h hwf hfit hpos in
theorem At.checkBlocks : checkBlocks sd (toI32 (f.st / sd.blksz : Nat)) 1 = .ok () := by
  have hlt := block_lt hwf hfit hpos
  unfold Disk.checkBlocks
  rw [h.blkno_eq hwf hfit hpos]
  generalize (off + f.pos) / sd.blksz = blkno at hlt ⊢
  exact if_pos ⟨by omega, by omega⟩

include h hwf hfit hpos in
theorem At.checkBuf : checkBuf sd f = .ok () := by
  have := mod_add_part_le hwf (off + f.pos) (off + count)
  unfold Disk.checkBuf
  rw [h.skip_eq hpos, h.n_eq hwf hfit hpos]
  exact if_pos ⟨by omega, by omega⟩

include h hwf hfit hpos in
theorem At.fill (image : Bytes) : fill sd image f = .ok { sd with
    buf := copy sd.buf 0 image ((off + f.pos) / sd.blksz * sd.blksz) sd.blksz } := by
  unfold Disk.fill blkRead
  rw [h.checkBlocks hwf hfit hpos, h.blkno_eq hwf hfit hpos, Int.toNat_natCast, Int.toNat_one,
    Nat.one_mul]
  rfl

include h hwf hfit hpos in
theorem At.copyOut : copyOut sd f = .ok { f with
    buf := copy f.buf f.pos sd.buf ((off + f.pos) % sd.blksz)
      (part sd.blksz (off + f.pos) (off + count)) } := by
  unfold Disk.copyOut
  rw [h.checkBuf hwf hfit hpos, h.skip_eq hpos, h.n_eq hwf hfit hpos]
  rfl

include h hwf hfit hpos in
theorem At.copyIn : copyIn sd f = .ok { sd with
    buf := copy sd.buf ((off + f.pos) % sd.blksz) f.buf f.pos
      (part sd.blksz (off + f.pos) (off + count)) } := by
  unfold Disk.copyIn
  rw [h.checkBuf hwf hfit hpos, h.skip_eq hpos, h.n_eq hwf hfit hpos]
  rfl

include h hwf hfit hpos in
theorem At.flush : flush sd image f =
    .ok (copy image ((off + f.pos) / sd.blksz * sd.blksz) sd.buf 0 sd.blksz) := by
  unfold Disk.flush blkWrite
  rw [h.checkBlocks hwf hfit hpos, h.blkno_eq hwf hfit hpos, Int.toNat_natCast, Int.toNat_one,
    Nat.one_mul]
  rfl

include h hwf hfit hpos in
/-- **The next round** follows on. -/
theorem At.next : (f.next sd).pos = f.pos + part sd.blksz (off + f.pos) (off + count) ∧
    At sd off count (f.next sd) := by
  have hword := hfit.word
  have hcount := hfit.count_lt
  have hsize := hwf.size (hfit.blkcnt_pos (by omega))
  have hdiv := div_mul_add_mod (off + f.pos) sd.blksz
  have hmod := Nat.mod_lt (off + f.pos) hwf.pos
  have hbound : (off + f.pos) / sd.blksz * sd.blksz + sd.blksz < 2 ^ 32 := by omega
  have hle := part_le sd.blksz (off + f.pos) (off + count)
  have hn := h.n_eq hwf hfit hpos
  have hpos' : (f.next sd).pos = f.pos + part sd.blksz (off + f.pos) (off + count) := by
    unfold Frame.next
    dsimp only
    rw [hn]
    exact toU32_eq (by omega) (by omega)
  -- a further round starts at the end of the block
  have hstart : (f.next sd).pos < count →
      (off + f.pos) / sd.blksz * sd.blksz + sd.blksz = off + (f.next sd).pos := by
    rw [hpos']
    unfold part
    omega
  have hoff' : (f.next sd).pos < count → (f.next sd).offset = (off + (f.next sd).pos : Nat) := by
    intro hmore
    have hst := h.st_eq hpos
    have hend := hstart hmore
    obtain ⟨x, hx⟩ : ∃ x, x = off + (f.next sd).pos := ⟨_, rfl⟩
    rw [← hx] at hend ⊢
    have hlt : x < 2 ^ 31 := by omega
    have hsum : toU32 (f.st + sd.blksz) = x := toU32_eq (by omega) (by omega)
    unfold Frame.next
    dsimp only
    rw [hsum]
    exact toI32_eq rfl hlt
  refine ⟨hpos', by rw [Frame.next_count, h.count_eq], by omega, hoff', fun hmore => ?_⟩
  have hst' : (f.next sd).st = toU32 (f.next sd).offset := by
    unfold Frame.next
    dsimp only
  have hend := hstart hmore
  obtain ⟨x, hx⟩ : ∃ x, x = off + (f.next sd).pos := ⟨_, rfl⟩
  rw [← hx] at hend
  have hval : toU32 (f.next sd).offset = x :=
    toU32_eq (by rw [hx]; exact hoff' hmore) (by omega)
  rw [hst', hval, ← hx, ← hend, ← Nat.succ_mul, Nat.mul_div_cancel _ hwf.pos]

end Round

end MyOs.Disk
