import MyOs.Lib.Transition
import MyOs.Disk.Flat

/-!
# Tasks that share the driver

Any number of tasks call `sd_read` and `sd_write` of one disk; a `blk_read`, a
`memcpy` and a `blk_write` are one step each, and the steps of different tasks
interleave freely. The calls in progress are for disjoint blocks, but they all go
through the one buffer of the device, and no lock is taken around a round.

`own` and `done` are no part of the code: what a task has put into the buffer
itself, and the calls that have returned.
-/

namespace MyOs.Disk

open MyOs.Extent MyOs.Word MyOs.Transition

-- ---------------------------------------------------------------------------
-- Control points
-- ---------------------------------------------------------------------------

/-- The next step of a round: `blk_read`, `memcpy` or `blk_write`. -/
inductive Stage
  | fill
  | copy
  | flush
  deriving DecidableEq

/-- Where a task is: outside of the driver, in a round of its call, or at the return. -/
inductive Pc
  | idle
  | busy (r : Request) (k : Stage) (f : Frame)
  | ret (r : Request) (f : Frame)

/-- The call of a task with its local variables. -/
def Pc.call : Pc → Option (Request × Frame)
  | .idle => none
  | .busy r _ f => some (r, f)
  | .ret r f => some (r, f)

/-- The first step of a round: a write of a whole block does not read it. -/
def firstStage (sd : Sd) (r : Request) (f : Frame) : Stage :=
  if r.write = true ∧ ¬ f.n sd < sd.blksz then .copy else .fill

/-- The loop test. -/
def loopHead (sd : Sd) (r : Request) (f : Frame) : Pc :=
  if f.more then .busy r (firstStage sd r f) f else .ret r f

/-- One step of a call: the buffer, the disk and the control point behind it. -/
def exec (sd : Sd) (image : Bytes) (r : Request) (f : Frame) : Stage → Result (Sd × Bytes × Pc)
  | .fill => do
    let sd ← fill sd image f
    return (sd, image, .busy r .copy f)
  | .copy =>
    if r.write = true then do
      let sd ← copyIn sd f
      return (sd, image, .busy r .flush f)
    else do
      let f ← copyOut sd f
      return (sd, image, loopHead sd r (f.next sd))
  | .flush => do
    let image ← flush sd image f
    return (sd, image, loopHead sd r (f.next sd))

-- ---------------------------------------------------------------------------
-- The machine
-- ---------------------------------------------------------------------------

abbrev Tid := Nat

/-- The buffer of the device and the bytes of the disk, the tasks, what each task
has put into the buffer, and the calls that have returned. -/
structure Sys where
  buf : Bytes
  image : Bytes
  pc : Tid → Pc
  own : Tid → Bytes
  done : List Request

inductive Label
  | call (t : Tid) (r : Request)
  | exec (t : Tid)
  | ret (t : Tid)

/-- The request has a byte in the block of `a`. -/
def Touches (sd : Sd) (r : Request) (a : Nat) : Prop :=
  ∃ x, r.offset ≤ x ∧ x < r.offset + r.count ∧ x / sd.blksz = a / sd.blksz

/-- The requests are for disjoint blocks. -/
def Apart (sd : Sd) (r r' : Request) : Prop := ∀ a, Touches sd r a → ¬ Touches sd r' a

/-- **One step** on the device `sd`, whose buffer is the shared one. -/
inductive Step (sd : Sd) : Sys → Label → Sys → Prop
  | call {S : Sys} {t : Tid} {r : Request} : S.pc t = .idle → Fits sd r.offset r.count →
      (∀ u r' f', (S.pc u).call = some (r', f') → Apart sd r r') →
      Step sd S (.call t r) { S with
        pc := Function.update S.pc t (loopHead sd r (enter sd r.offset r.buf r.count)) }
  | exec {S : Sys} {t : Tid} {r : Request} {k : Stage} {f : Frame} {sd' own' : Sd}
      {image' image'' : Bytes} {pc' pc'' : Pc} : S.pc t = .busy r k f →
      exec { sd with buf := S.buf } S.image r f k = .ok (sd', image', pc') →
      exec { sd with buf := S.own t } S.image r f k = .ok (own', image'', pc'') →
      Step sd S (.exec t) { S with
        buf := sd'.buf, image := image', pc := Function.update S.pc t pc'
        own := Function.update S.own t own'.buf }
  | ret {S : Sys} {t : Tid} {r : Request} {f : Frame} : S.pc t = .ret r f →
      Step sd S (.ret t) { S with
        pc := Function.update S.pc t .idle, done := S.done ++ [r] }

/-- The start: no task has called yet. -/
def Init (image : Bytes) (S : Sys) : Prop :=
  S.image = image ∧ (∀ t, S.pc t = .idle) ∧ S.done = []

def Reachable (sd : Sd) (image : Bytes) : Sys → Prop := Reach (Init image) (Step sd)

-- ---------------------------------------------------------------------------
-- The property and its condition
-- ---------------------------------------------------------------------------

/-- The disk as the calls that have returned leave it, one after the other. -/
def serial (image : Bytes) (done : List Request) : Bytes := (flatServeAll image done).1

/-- A write in progress has written the byte at `a`. -/
def Written (S : Sys) (a : Nat) : Prop := ∃ t r f, (S.pc t).call = some (r, f) ∧
  r.write = true ∧ r.offset ≤ a ∧ a < r.offset + f.pos

/-- **The calls do not corrupt each other.** What a read has delivered are the bytes
its range holds, what a write has written are its own, and every other byte of the
disk is as the calls that have returned leave it one after the other. -/
structure Intact (image : Bytes) (S : Sys) : Prop where
  read : ∀ t r f, (S.pc t).call = some (r, f) → r.write = false →
    f.buf = copy r.buf 0 (serial image S.done) r.offset f.pos
  write : ∀ t r f, (S.pc t).call = some (r, f) → r.write = true →
    ∀ i, i < f.pos → S.image (r.offset + i) = r.buf i
  rest : ∀ a, ¬ Written S a → S.image a = serial image S.done a

/-- The bytes that leave the buffer in a step of the task, for its caller or for the
disk, are those that the task itself has put there. -/
def Undisturbed (sd : Sd) (S : Sys) : Label → Prop
  | .exec t => ∀ r k f, S.pc t = .busy r k f →
      (k = .copy → r.write = false → ∀ a : Nat, f.skip ≤ a → a < f.skip + f.n sd →
        S.buf a = S.own t a) ∧
      (k = .flush → ∀ a, a < sd.blksz → S.buf a = S.own t a)
  | _ => True

end MyOs.Disk
