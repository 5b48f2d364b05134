import MyOs.Lib.Memory

/-!
# pmm — the physical memory manager

The model of `kernel/src/pmm.c`. The allocator keeps all its data in the heap it
manages: the `Meta` table in front, the slab headers at the start of slab pages,
and the free-list nodes inside free slots, that is in memory a client may have
written before. The model therefore works on byte memory, with every `struct`
field at its offset, and a pointer is an address (`NULL` is `0`).

Functions pass the state along and may fail: a failed `assert`, a `NULL`
dereference, a spin lock that its holder takes again. Address arithmetic is
modulo `2 ^ 64` where it can leave the heap.
-/

namespace MyOs.Pmm

open MyOs.Memory

/-! ## Constants -/

/-- `MAX_ALLOC`. -/
def maxAlloc : Nat := 16 * 2 ^ 20

/-- `GPAGE_SZ`. -/
def gpageSz : Nat := 64 * 1024

/-- `META_SZ`. -/
def metaSz : Nat := 8 * 1024

/-- `SLAB_SIZE`, the number of slab classes. -/
def slabSize : Nat := 9

/-- `sizeof(meta_t)`. -/
def metaBytes : Nat := 24

/-- `sizeof(S_node_t)`. -/
def nodeBytes : Nat := 16

/-- Offset of `payload` in `S_header_t`. -/
def payloadOff : Nat := 28

/-- What the machine provides: the area `heap`, in the lower half of the
canonical address space, and at most `MAX_CPU` CPUs. -/
structure Platform where
  heapStart : Nat
  heapEnd : Nat
  cpuCount : Nat
  heapStart_le : heapStart ≤ heapEnd
  heapEnd_le : heapEnd ≤ 2 ^ 47
  cpuCount_le : cpuCount ≤ 8

/-! ## State and failures -/

/-- Why a call does not come back. `fuel` bounds the loops of the model. -/
inductive Fault
  | assertion
  | nullDeref
  | spin
  | fuel
  deriving DecidableEq, Repr

abbrev Result := Except Fault

/-- Memory and the globals of `pmm.c`. -/
structure State where
  mem : Mem
  Meta : Nat
  gStart : Nat
  gLock : Nat
  nMeta : Nat
  slab : Nat → Nat → Nat
  nSlab : Nat

/-- `assert(p)`. -/
def check (p : Prop) [Decidable p] : Result Unit :=
  if p then .ok () else .error .assertion

/-- A dereference of `p`. -/
def deref (p : Nat) : Result Unit :=
  if p = 0 then .error .nullDeref else .ok ()

/-- `for (int i = 0; i < n; i++) body`. -/
def forLoop (body : Nat → State → Result State) : Nat → State → Result State
  | 0, s => .ok s
  | n + 1, s => do
    let s ← forLoop body n s
    body n s

namespace State

def get (s : State) (a n : Nat) : Nat := load s.mem a n

def put (s : State) (a n v : Nat) : State := { s with mem := store s.mem a n v }

/-! ### `S_header_t` -/

def nHead (s : State) (slab : Nat) : Nat := s.get slab 8
def setNHead (s : State) (slab v : Nat) : State := s.put slab 8 v
def next (s : State) (slab : Nat) : Nat := s.get (slab + 8) 8
def setNext (s : State) (slab v : Nat) : State := s.put (slab + 8) 8 v
def sz (s : State) (slab : Nat) : Nat := s.get (slab + 16) 8
def setSz (s : State) (slab v : Nat) : State := s.put (slab + 16) 8 v
def lk (s : State) (slab : Nat) : Nat := s.get (slab + 24) 4
def setLk (s : State) (slab v : Nat) : State := s.put (slab + 24) 4 v

/-! ### `S_node_t` -/

def nodeNext (s : State) (node : Nat) : Nat := s.get node 8
def setNodeNext (s : State) (node v : Nat) : State := s.put node 8 v
def nodeSize (s : State) (node : Nat) : Nat := s.get (node + 8) 8
def setNodeSize (s : State) (node v : Nat) : State := s.put (node + 8) 8 v

/-! ### `meta_t` -/

def metaAt (s : State) (i : Nat) : Nat := s.Meta + metaBytes * i
def metaStart (s : State) (i : Nat) : Nat := s.get (s.metaAt i) 8
def setMetaStart (s : State) (i v : Nat) : State := s.put (s.metaAt i) 8 v
def metaEnd (s : State) (i : Nat) : Nat := s.get (s.metaAt i + 8) 8
def setMetaEnd (s : State) (i v : Nat) : State := s.put (s.metaAt i + 8) 8 v
def isAlloc (s : State) (i : Nat) : Bool := s.get (s.metaAt i + 16) 1 != 0
def setIsAlloc (s : State) (i : Nat) (b : Bool) : State := s.put (s.metaAt i + 16) 1 b.toNat
def isSlab (s : State) (i : Nat) : Bool := s.get (s.metaAt i + 17) 1 != 0
def setIsSlab (s : State) (i : Nat) (b : Bool) : State := s.put (s.metaAt i + 17) 1 b.toNat

end State

/-! ## Locks and rounding -/

/-- `spin_lock(&slab->lk)`. -/
def spinLock (s : State) (slab : Nat) : Result State :=
  if s.lk slab = 0 then .ok (s.setLk slab 1) else .error .spin

/-- `spin_unlock(&slab->lk)`. -/
def spinUnlock (s : State) (slab : Nat) : State := s.setLk slab 0

/-- `spin_lock(&G_lock)`. -/
def spinLockG (s : State) : Result State :=
  if s.gLock = 0 then .ok { s with gLock := 1 } else .error .spin

/-- `spin_unlock(&G_lock)`. -/
def spinUnlockG (s : State) : State := { s with gLock := 0 }

/-- `ROUNDUP`. -/
def roundUp (a sz : Nat) : Nat := (a + sz - 1) % 2 ^ 64 &&& (2 ^ 64 - sz)

/-- `ROUNDDOWN`. -/
def roundDown (a sz : Nat) : Nat := a &&& (2 ^ 64 - sz)

def nextPower2 (x : Nat) : Nat :=
  let x := (x + (2 ^ 64 - 1)) % 2 ^ 64
  let x := x ||| x >>> 1
  let x := x ||| x >>> 2
  let x := x ||| x >>> 4
  let x := x ||| x >>> 8
  let x := x ||| x >>> 16
  (x + 1) % 2 ^ 64

/-- The loop of `get_slab_index`: halve `x` while it is above 16. -/
def slabIndexLoop : Nat → Nat → Nat → Result Nat
  | 0, _, _ => .error .fuel
  | fuel + 1, x, index => if x > 16 then slabIndexLoop fuel (x >>> 1) (index + 1) else .ok index

def getSlabIndex (x : Nat) : Result Nat := do
  check (x = nextPower2 x)
  let index ← slabIndexLoop 64 x 0
  check (index < slabSize)
  return index

/-- The conversion to `int`. -/
def toInt (x : Int) : Int := x.bmod (2 ^ 32)

def getMetaIndex (s : State) (p : Nat) : Result Int := do
  check (roundDown p gpageSz = p)
  return toInt (((p : Int) - s.gStart).tdiv gpageSz)

def isValidRet (s : State) (p : Nat) : Result Bool := do
  check (p ≠ 0)
  if p < s.gStart then return false else
  if p ≥ (s.gStart + s.nMeta * gpageSz) % 2 ^ 64 then return false else do
    let idx ← getMetaIndex s p
    check (0 ≤ idx ∧ idx < s.nMeta)
    return true

/-! ## Page runs -/

def tryAlloc (s : State) (ret sz : Nat) : Result Bool := do
  check (roundDown ret sz = ret)
  check (sz > 0 ∧ roundUp sz gpageSz = sz)
  let valid ← isValidRet s ret
  check (valid = true)
  let id ← getMetaIndex s ret
  check (0 ≤ id ∧ id < s.nMeta)
  check (s.metaStart id.toNat = ret)
  -- the loop returns false at the first allocated page
  if (List.range (sz / gpageSz)).any fun i => s.isAlloc (id.toNat + i) then return false else do
    check (s.isAlloc id.toNat = false)
    return true

def slowAlloc (s : State) (ret sz : Nat) (isSlab : Bool) : Result State := do
  let id ← getMetaIndex s ret
  check (0 ≤ id ∧ id < s.nMeta)
  check (s.isAlloc id.toNat = false)
  forLoop (fun i s => do
    check (s.isAlloc (id.toNat + i) = false)
    let s := s.setIsAlloc (id.toNat + i) true
    let s := s.setIsSlab (id.toNat + i) isSlab
    return s.setMetaEnd (id.toNat + i) ((ret + sz) % 2 ^ 64)) (sz / gpageSz) s

/-- The scan of `G_alloc`, with `G_lock` held. -/
def gAllocLoop (sz : Nat) (isSlab : Bool) : Nat → State → Nat → Result (State × Nat)
  | 0, _, _ => .error .fuel
  | fuel + 1, s, tryRet => do
    let valid ← isValidRet s tryRet
    if valid = false then return (spinUnlockG s, 0) else do
      let found ← tryAlloc s tryRet sz
      if found = true then do
        let s ← slowAlloc s tryRet sz isSlab
        let s := spinUnlockG s
        check (roundDown tryRet sz = tryRet)
        return (s, tryRet)
      else gAllocLoop sz isSlab fuel s ((tryRet + sz) % 2 ^ 64)

def gAlloc (s : State) (npage : Nat) (isSlab : Bool) : Result (State × Nat) := do
  let s ← spinLockG s
  let sz := npage * gpageSz
  gAllocLoop sz isSlab (metaSz + 1) s (roundUp s.gStart sz)

def gFree (s : State) (ptr : Nat) : Result State := do
  let s ← spinLockG s
  check (roundDown ptr gpageSz = ptr)
  let id ← getMetaIndex s ptr
  check (0 ≤ id ∧ id < s.nMeta)
  check (s.metaStart id.toNat = ptr)
  let freeEnd := s.metaEnd id.toNat
  check (freeEnd ≠ 0)
  let nPg := toInt (((freeEnd : Int) - ptr).tdiv gpageSz)
  let s ← forLoop (fun i s => do
    check (s.isAlloc (id.toNat + i) = true)
    check (s.isSlab (id.toNat + i) = false)
    check (s.metaEnd (id.toNat + i) = freeEnd)
    let s := s.setIsAlloc (id.toNat + i) false
    return s.setMetaEnd (id.toNat + i) 0) nPg.toNat s
  return spinUnlockG s

/-! ## Slabs -/

def nheadInit (s : State) (nHead size : Nat) : State :=
  let s := s.setNodeNext nHead 0
  s.setNodeSize nHead size

def slabInit (s : State) (slab size : Nat) : Result State := do
  deref slab
  let s := s.setLk slab 0
  let s := s.setSz slab size
  let s := s.setNHead slab (roundUp (slab + payloadOff) size)
  let s := s.setNext slab 0
  let nextPg := slab + gpageSz
  let nSz := roundDown (nextPg - (slab + payloadOff)) size
  return nheadInit s (s.nHead slab) nSz

def addSlab (s : State) (slab : Nat) : Result (State × Nat) := do
  check (slab ≠ 0)
  let s ← spinLock s slab
  let (s, ret) ← gAlloc s 1 true
  if ret = 0 then return (spinUnlock s slab, 0) else do
    let s ← slabInit s ret (s.sz slab)
    check (s.next slab = 0)
    let s := s.setNext slab ret
    return (spinUnlock s slab, ret)

/-- `slab_alloc` between its lock and unlock: take the first slot off the node list. -/
def slabTake (s : State) (slab size : Nat) : Result State :=
  let node := s.nHead slab
  if node ≠ 0 then
    if s.nodeSize node = size then return s.setNHead slab (s.nodeNext node) else do
      check (s.nodeSize node > size)
      let newNode := node + size
      let s := s.setNodeSize newNode (s.nodeSize node - size)
      let s := s.setNodeNext newNode (s.nodeNext node)
      return s.setNHead slab newNode
  else return s

def slabAlloc (s : State) (slab size : Nat) : Result (State × Nat) := do
  let s ← spinLock s slab
  let node := s.nHead slab
  let s ← slabTake s slab size
  let s := spinUnlock s slab
  check (roundDown node size = node)
  return (s, node)

/-- The locked read of `slab->next` in the loop of `S_alloc`. -/
def readNext (s : State) (slab : Nat) : Result (State × Nat) := do
  let s ← spinLock s slab
  let next := s.next slab
  return (spinUnlock s slab, next)

/-- `S_alloc` before its loop: the size and the first slab of the chain. -/
def sAllocHead (P : Platform) (s : State) (cpu size : Nat) : Result (Nat × Nat) := do
  let id ← getSlabIndex size
  check (cpu < P.cpuCount)
  let size := nextPower2 size
  check (size ≠ 0)
  return (size, s.slab cpu id)

/-- The loop of `S_alloc` and, behind the last slab, the growth of the chain. -/
def sAllocLoop (size : Nat) : Nat → State → Nat → Nat → Result (State × Nat)
  | 0, _, _, _ => .error .fuel
  | fuel + 1, s, prev, slab =>
    if slab ≠ 0 then do
      let (s, ret) ← slabAlloc s slab size
      if ret ≠ 0 then return (s, ret) else do
        let (s, next) ← readNext s slab
        sAllocLoop size fuel s slab next
    else do
      check (prev ≠ 0 ∧ slab = 0)
      let (s, newSlab) ← addSlab s prev
      if newSlab = 0 then return (s, 0) else do
        let (s, ret) ← slabAlloc s newSlab size
        check (ret ≠ 0)
        return (s, ret)

def sAlloc (P : Platform) (s : State) (cpu size : Nat) : Result (State × Nat) := do
  let (size, slab) ← sAllocHead P s cpu size
  sAllocLoop size (metaSz + 2) s 0 slab

/-- The loop of `S_free`: find the first node behind `node` and link it in front. -/
def sFreeLoop (slab node : Nat) : Nat → State → Nat → Nat → Result State
  | 0, _, _, _ => .error .fuel
  | fuel + 1, s, prev, nodeHead =>
    if nodeHead ≠ 0 then
      if node ≤ nodeHead then do
        check (node ≠ nodeHead)
        let s := s.setNodeNext node nodeHead
        if prev = 0 then return s.setNHead slab node else return s.setNodeNext prev node
      else sFreeLoop slab node fuel s nodeHead (s.nodeNext nodeHead)
    else do
      let s := s.setNodeNext node 0
      deref prev
      return s.setNodeNext prev node

def sFree (s : State) (ptr : Nat) : Result State := do
  check (nodeBytes ≤ 16)
  let slab := roundDown ptr gpageSz
  let s ← spinLock s slab
  let s := s.setNodeSize ptr (s.sz slab)
  let s := s.setNodeNext ptr 0
  let nodeHead := s.nHead slab
  if nodeHead = 0 then
    let s := s.setNHead slab ptr
    return spinUnlock s slab
  else do
    let s ← sFreeLoop slab ptr (gpageSz / nodeBytes + 1) s 0 nodeHead
    return spinUnlock s slab

/-! ## The interface -/

/-- The size `kalloc` works with: a power of two, at least 16. -/
def kallocSize (size : Nat) : Nat :=
  let size := nextPower2 size
  if size < 16 then 16 else size

/-- The number of pages of a request above 4096 bytes. -/
def kallocPages (size : Nat) : Nat :=
  let npage := size / gpageSz
  if npage = 0 then 1 else npage

def kalloc (P : Platform) (s : State) (cpu size : Nat) : Result (State × Nat) :=
  if size > maxAlloc then return (s, 0) else
  if kallocSize size ≤ 4096 then sAlloc P s cpu (kallocSize size)
  else gAlloc s (kallocPages (kallocSize size)) false

/-- `kfree` before its branch: does `ptr` lie in a slab page? -/
def kfreeHead (s : State) (ptr : Nat) : Result Bool := do
  check (ptr ≠ 0)
  let pRd := roundDown ptr gpageSz
  let id ← getMetaIndex s pRd
  check (0 ≤ id ∧ id < s.nMeta)
  check (s.metaStart id.toNat = pRd)
  if s.isSlab id.toNat then return true else do
    check (pRd = ptr)
    return false

def kfree (s : State) (ptr : Nat) : Result State := do
  let slab ← kfreeHead s ptr
  if slab = true then sFree s ptr else gFree s ptr

/-! ## Initialisation -/

/-- The loop of `meta_init` from page `i` on; `assert(0)` behind the table. -/
def metaInitLoop (P : Platform) : Nat → Nat → State → Result State
  | 0, _, _ => .error .assertion
  | n + 1, i, s =>
    if (s.gStart + (i + 1) * gpageSz) % 2 ^ 64 > P.heapEnd then return { s with nMeta := i }
    else
      let s := s.setMetaStart i ((s.gStart + i * gpageSz) % 2 ^ 64)
      let s := s.setMetaEnd i 0
      let s := s.setIsAlloc i false
      let s := s.setIsSlab i false
      metaInitLoop P n (i + 1) s

def metaInit (P : Platform) (s : State) : Result State :=
  let sz := metaBytes * metaSz
  let s := { s with Meta := P.heapStart }
  let s := { s with gStart := s.Meta + sz }
  let s := { s with gStart := roundUp s.gStart gpageSz }
  metaInitLoop P metaSz 0 s

def gInit (P : Platform) (s : State) : Result State := metaInit P { s with gLock := 0 }

/-- One round of `S_init`: the first slab of `Slab[i][j]`. -/
def sInitOne (i j : Nat) (s : State) : Result State := do
  let (s, slab) ← gAlloc s 1 true
  let s := { s with slab := fun c k => if c = i ∧ k = j then slab else s.slab c k }
  slabInit s slab (1 <<< (j + 4))

def sInit (P : Platform) (s : State) : Result State :=
  let s := { s with nSlab := P.cpuCount }
  forLoop (fun i => forLoop (sInitOne i) slabSize) s.nSlab s

/-- The state at boot: memory holds anything, the globals are zero. -/
def boot (m : Mem) : State :=
  { mem := m, Meta := 0, gStart := 0, gLock := 0, nMeta := 0, slab := fun _ _ => 0, nSlab := 0 }

def pmmInit (P : Platform) (m : Mem) : Result State := do
  let s ← gInit P (boot m)
  sInit P s

end MyOs.Pmm
