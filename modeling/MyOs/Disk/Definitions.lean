import MyOs.Lib.Extent
import MyOs.Lib.Word

/-!
# sd — the disk driver

The model of `kernel/src/dev/dev_sd.c`. All requests go through the one-block
buffer `sd->buf`; a round of their loops moves the part of the request that lies
in one block. Offsets and counts are `int`, the loop variables `st`, `pos` and `n`
are `uint32_t`, and the arithmetic converts between the two as the code does.

The device behind `AM_DISK_BLKIO` is the flat array of its bytes; it transfers the
blocks it is told to. A transfer or a `memcpy` out of bounds is a fault.
-/

namespace MyOs.Disk

open MyOs.Extent MyOs.Word

-- ---------------------------------------------------------------------------
-- The device
-- ---------------------------------------------------------------------------

abbrev Byte := UInt8

abbrev Bytes := Nat → Byte

/-- `sd_t`. -/
structure Sd where
  blkcnt : Nat
  blksz : Nat
  buf : Bytes

/-- Why a call does not come back. `fuel` bounds the loops of the model. -/
inductive Fault
  | noDisk
  | badBlock
  | overrun
  | fuel
  deriving DecidableEq, Repr

abbrev Result := Except Fault

/-- What `AM_DISK_CONFIG` reads. -/
structure DiskConfig where
  present : Bool
  blkcnt : Nat
  blksz : Nat

/-- `sd_init`: the device's `ptr`, `NULL` without a disk. The fresh buffer holds anything. -/
def sdInit (cfg : DiskConfig) (fresh : Bytes) : Option Sd :=
  if cfg.present = false then none
  else some { blkcnt := cfg.blkcnt, blksz := cfg.blksz, buf := fresh }

/-- The device and the bytes of the disk. -/
structure Dev where
  ptr : Option Sd
  image : Bytes

/-- The blocks of a transfer are there. -/
def checkBlocks (sd : Sd) (blkno blkcnt : Int) : Result Unit :=
  if 0 ≤ blkno ∧ blkno + blkcnt ≤ sd.blkcnt then .ok () else .error .badBlock

/-- `blk_read(sd->buf, blkno, blkcnt)`. -/
def blkRead (sd : Sd) (image : Bytes) (blkno blkcnt : Int) : Result Sd := do
  checkBlocks sd blkno blkcnt
  let len := blkcnt.toNat * sd.blksz
  return { sd with buf := copy sd.buf 0 image (blkno.toNat * sd.blksz) len }

/-- `blk_write(sd->buf, blkno, blkcnt)`: the bytes of the disk afterwards. -/
def blkWrite (sd : Sd) (image : Bytes) (blkno blkcnt : Int) : Result Bytes := do
  checkBlocks sd blkno blkcnt
  let len := blkcnt.toNat * sd.blksz
  return copy image (blkno.toNat * sd.blksz) sd.buf 0 len

-- ---------------------------------------------------------------------------
-- One round of the loops
-- ---------------------------------------------------------------------------

/-- The parameters and local variables of `sd_read` and `sd_write`. -/
structure Frame where
  offset : Int
  buf : Bytes
  count : Int
  pos : Nat
  st : Nat

/-- `ROUNDDOWN`, on an address-sized `a` with the mask of a `uint32_t`. -/
def roundDown (a : Int) (sz : Nat) : Nat :=
  (a % 2 ^ 64).toNat &&& (2 ^ 32 - 1 - toU32 (sz - 1))

/-- The local variables in front of the loop. -/
def enter (sd : Sd) (offset : Int) (buf : Bytes) (count : Int) : Frame :=
  { offset, buf, count, pos := 0, st := toU32 (roundDown offset sd.blksz) }

/-- The loop test. -/
def Frame.more (f : Frame) : Prop := f.pos < toU32 f.count

instance (f : Frame) : Decidable f.more := inferInstanceAs (Decidable (_ < _))

/-- `n`, the bytes of the round. -/
def Frame.n (f : Frame) (sd : Sd) : Nat :=
  let n := toU32 (sd.blksz - toU32 (f.offset - f.st))
  if n > toU32 (f.count - f.pos) then toU32 (f.count - f.pos) else n

/-- Where the round's bytes start in `sd->buf`. -/
def Frame.skip (f : Frame) : Int := f.offset - f.st

/-- A `memcpy` of the round stays inside `sd->buf`. -/
def checkBuf (sd : Sd) (f : Frame) : Result Unit :=
  if 0 ≤ f.skip ∧ f.skip + f.n sd ≤ sd.blksz then .ok () else .error .overrun

/-- `blk_read(sd->buf, st / sd->blksz, 1)`. -/
def fill (sd : Sd) (image : Bytes) (f : Frame) : Result Sd :=
  blkRead sd image (toI32 (f.st / sd.blksz : Nat)) 1

/-- `memcpy((char *)buf + pos, sd->buf + offset - st, n)`. -/
def copyOut (sd : Sd) (f : Frame) : Result Frame := do
  checkBuf sd f
  return { f with buf := copy f.buf f.pos sd.buf f.skip.toNat (f.n sd) }

/-- `memcpy(sd->buf + offset - st, (char *)buf + pos, n)`. -/
def copyIn (sd : Sd) (f : Frame) : Result Sd := do
  checkBuf sd f
  return { sd with buf := copy sd.buf f.skip.toNat f.buf f.pos (f.n sd) }

/-- `blk_write(sd->buf, st / sd->blksz, 1)`. -/
def flush (sd : Sd) (image : Bytes) (f : Frame) : Result Bytes :=
  blkWrite sd image (toI32 (f.st / sd.blksz : Nat)) 1

/-- The end of a round: `pos += n`, `offset = st + sd->blksz`, `st = offset`. -/
def Frame.next (f : Frame) (sd : Sd) : Frame :=
  let pos := toU32 (f.pos + f.n sd)
  let offset := toI32 (toU32 (f.st + sd.blksz))
  { f with pos, offset, st := toU32 offset }

@[simp] theorem Frame.next_count (f : Frame) (sd : Sd) : (f.next sd).count = f.count := by
  unfold Frame.next
  rfl

@[simp] theorem Frame.next_buf (f : Frame) (sd : Sd) : (f.next sd).buf = f.buf := by
  unfold Frame.next
  rfl

-- ---------------------------------------------------------------------------
-- Requests
-- ---------------------------------------------------------------------------

def sdReadLoop (image : Bytes) : Nat → Sd → Frame → Result (Sd × Frame)
  | 0, _, _ => .error .fuel
  | fuel + 1, sd, f =>
    if f.more then do
      let sd ← fill sd image f
      let f ← copyOut sd f
      sdReadLoop image fuel sd (f.next sd)
    else return (sd, f)

/-- `sd_read`: the device, the caller's buffer and the result afterwards. -/
def sdRead (dev : Dev) (offset : Int) (buf : Bytes) (count : Int) : Result (Dev × Bytes × Int) :=
  match dev.ptr with
  | none => .error .noDisk
  | some sd => do
    let (sd, f) ← sdReadLoop dev.image (toU32 count + 1) sd (enter sd offset buf count)
    return ({ dev with ptr := some sd }, f.buf, toI32 f.pos)

/-- A round that does not fill its block reads it first. -/
def fillPart (sd : Sd) (image : Bytes) (f : Frame) : Result Sd :=
  if f.n sd < sd.blksz then fill sd image f else return sd

def sdWriteLoop : Nat → Sd → Bytes → Frame → Result (Sd × Bytes × Frame)
  | 0, _, _, _ => .error .fuel
  | fuel + 1, sd, image, f =>
    if f.more then do
      let sd ← fillPart sd image f
      let sd ← copyIn sd f
      let image ← flush sd image f
      sdWriteLoop fuel sd image (f.next sd)
    else return (sd, image, f)

/-- `sd_write`: the device and the result afterwards. -/
def sdWrite (dev : Dev) (offset : Int) (buf : Bytes) (count : Int) : Result (Dev × Int) :=
  match dev.ptr with
  | none => .error .noDisk
  | some sd => do
    let (sd, image, f) ← sdWriteLoop (toU32 count + 1) sd dev.image (enter sd offset buf count)
    return ({ ptr := some sd, image }, toI32 f.pos)

/-- A call of the driver with the caller's buffer. -/
structure Request where
  write : Bool
  offset : Nat
  count : Nat
  buf : Bytes

/-- What a call leaves: the caller's buffer and the result. -/
structure Reply where
  buf : Bytes
  ret : Int

def serve (dev : Dev) (r : Request) : Result (Dev × Reply) :=
  if r.write = true then do
    let (dev, ret) ← sdWrite dev r.offset r.buf r.count
    return (dev, ⟨r.buf, ret⟩)
  else do
    let (dev, buf, ret) ← sdRead dev r.offset r.buf r.count
    return (dev, ⟨buf, ret⟩)

/-- Calls one after the other. -/
def serveAll (dev : Dev) : List Request → Result (Dev × List Reply)
  | [] => return (dev, [])
  | r :: rs => do
    let (dev, reply) ← serve dev r
    let (dev, replies) ← serveAll dev rs
    return (dev, reply :: replies)

end MyOs.Disk
