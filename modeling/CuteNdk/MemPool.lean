import CuteNdk.Lib.Bytes
import CuteNdk.Lib.Linked
import CuteNdk.Lib.Run

/-! mem_pool, built without DUMP_INFO for int of 4 bytes and pointers of 8. The headers
of the chunks lie in the memory that is handed out, byte by byte; what new gives is an
argument of the call, and bytes nobody has written may be anything. A pointer is its
address, 0 for null. An outer result of none is a null pointer followed or a loop
without end. -/
namespace CuteNdk
open Lib.Bytes (Memory load store)

namespace MemPool

/- What is stored in an unsigned int. -/
def uint (n : Int) : Nat := (n % 4294967296).toNat

structure ObjHeader where
  inuse : Nat
  size : Nat
  slab : Nat
  prev : Nat
  next : Nat
  deriving DecidableEq, Repr

/- align takes no bytes, sizeof(obj_header) is a multiple of MALLOC_ALIGN without it. -/
def sizeofObjHeader : Nat := 32
def mallocAlign : Nat := 8
def mallocRoundup (n : Nat) : Nat := (n + (mallocAlign - 1)) / mallocAlign * mallocAlign
def inuseIdentiry : Nat := 0x13
def preallocSlabs : Nat := 64

def header (m : Memory) (h : Nat) : ObjHeader :=
  ⟨load 4 m h,load 4 m (h + 4),load 8 m (h + 8),load 8 m (h + 16),load 8 m (h + 24)⟩

def setInuse (m : Memory) (h : Nat) (v : Nat) : Memory := store 4 m h v
def setSize (m : Memory) (h : Nat) (v : Nat) : Memory := store 4 m (h + 4) v
def setSlab (m : Memory) (h : Nat) (v : Nat) : Memory := store 8 m (h + 8) v
def setPrev (m : Memory) (h : Nat) (v : Nat) : Memory := store 8 m (h + 16) v
def setNext (m : Memory) (h : Nat) (v : Nat) : Memory := store 8 m (h + 24) v

structure SlabHeader where
  inuseObjs : Nat
  maxSeriateSize : Nat
  head : Nat
  maxSeriateFreeHead : Nat
  prev : Option Nat
  next : Option Nat
  deriving DecidableEq, Repr

/- One turn of the loop in alloc_slabs: what ::new char[] and new slab_header give. -/
structure New where
  memory : Nat
  slab : Nat
  deriving DecidableEq, Repr

end MemPool

open MemPool

/- locked: a call has left mutex_ acquired for good. -/
structure MemPool where
  slabSize : Nat
  preallocSlabNum : Nat
  maxSlabs : Nat
  allocedSlabs : Nat
  slabsHead : Option Nat
  slabsTail : Option Nat
  slabs : Nat → SlabHeader
  mem : Memory
  locked : Bool

namespace MemPool

def setSlabNext (p : MemPool) (slab : Nat) (v : Option Nat) : MemPool :=
  { p with slabs := Function.update p.slabs slab { p.slabs slab with next := v } }

def setSlabPrev (p : MemPool) (slab : Nat) (v : Option Nat) : MemPool :=
  { p with slabs := Function.update p.slabs slab { p.slabs slab with prev := v } }

/- inuse_ is left as the memory has it. -/
def initObject (m : Memory) (memory : Nat) (slab : Nat) (size : Nat) : Memory :=
  let m := setSize m memory size
  let m := setSlab m memory slab
  let m := setPrev m memory 0
  setNext m memory 0

def newSlab (p : MemPool) (new : New) : MemPool :=
  { p with
    mem := initObject p.mem new.memory new.slab p.slabSize
    slabs := Function.update p.slabs new.slab ⟨0,p.slabSize,new.memory,new.memory,none,none⟩ }

/- The new slab goes to the end of the list. -/
def pushSlab (p : MemPool) (slab : Nat) : Option MemPool :=
  match p.slabsHead, p.slabsTail with
  | none, _ => some { p with slabsHead := some slab, slabsTail := some slab }
  | some _, none => none
  | some _, some tail =>
    some { (p.setSlabNext tail (some slab)).setSlabPrev slab (some tail) with slabsTail := some slab }

/- The loop, with count turns to go. A result of none is bad_alloc, which leaves the
slabs of the turns before. -/
def allocSlabsFrom : Nat → Option Nat → List New → MemPool → Option (Option (Option Nat) × MemPool)
  | 0, retVal, _, p => some (some retVal,p)
  | _ + 1, _, [], p => some (none,p)
  | count + 1, retVal, new :: news, p => do
    let p ← (p.newSlab new).pushSlab new.slab
    let p := { p with allocedSlabs := p.allocedSlabs + 1 }
    let retVal := if retVal = none then some new.slab else retVal
    if p.maxSlabs ≤ p.allocedSlabs then some (some retVal,p) else allocSlabsFrom count retVal news p

def allocSlabs (p : MemPool) (count : Nat) (news : List New) : Option (Option (Option Nat) × MemPool) :=
  if p.maxSlabs ≤ p.allocedSlabs then some (some none,p) else allocSlabsFrom count none news p

def make (mem : Memory) : MemPool := ⟨0,0,0,0,none,none,fun _ => ⟨0,0,0,0,none,none⟩,mem,false⟩

/- A result of none is bad_alloc. The sum in MALLOC_ROUNDUP has the 64 bits of size_t. -/
def init (p : MemPool) (slabSize prealloc maxSlabs : Int) (news : List New) : Option (Option Int × MemPool) :=
  let p := { p with slabSize := uint slabSize }
  if maxSlabs ≤ 0 then some (some (-1),p) else
  let p := { p with maxSlabs := uint maxSlabs, preallocSlabNum := uint prealloc }
  if p.slabSize ≤ sizeofObjHeader then some (some (-1),p) else
  let p := { p with slabSize := uint (mallocRoundup p.slabSize) }
  let p := if p.preallocSlabNum ≤ 0 then { p with preallocSlabNum := preallocSlabs } else p
  (p.allocSlabs p.preallocSlabNum news).map fun r => (r.1.map fun _ => 0,r.2)

def findUsableSlab (p : MemPool) (size : Nat) : Nat → Option Nat → Option (Option Nat)
  | 0, _ => none
  | _ + 1, none => some none
  | fuel + 1, some slab =>
    if size ≤ (p.slabs slab).maxSeriateSize then some (some slab)
    else p.findUsableSlab size fuel (p.slabs slab).next

/- if (node) node->next_ = v and if (node) node->prev_ = v -/
def linkNext (p : MemPool) (node v : Option Nat) : MemPool := node.elim p fun z => p.setSlabNext z v
def linkPrev (p : MemPool) (node v : Option Nat) : MemPool := node.elim p fun z => p.setSlabPrev z v

/- Reset head or tail. -/
def resetEnds (p : MemPool) (first last : Nat) : MemPool :=
  let p := if (p.slabs last).next = none then { p with slabsTail := some last } else p
  if (p.slabs first).prev = none then { p with slabsHead := some first } else p

/- slab changes places with the one before it. -/
def changeAhead (p : MemPool) (slab prevSlab : Nat) : MemPool :=
  let p := p.linkNext (p.slabs prevSlab).prev (some slab)
  let p := p.setSlabNext prevSlab (p.slabs slab).next
  let p := p.linkPrev (p.slabs slab).next (some prevSlab)
  let p := p.setSlabPrev slab (p.slabs prevSlab).prev
  let p := p.setSlabPrev prevSlab (some slab)
  let p := p.setSlabNext slab (some prevSlab)
  p.resetEnds slab prevSlab

/- slab changes places with the one after it. -/
def changeBack (p : MemPool) (slab nextSlab : Nat) : MemPool :=
  let p := p.linkPrev (p.slabs nextSlab).next (some slab)
  let p := p.setSlabNext slab (p.slabs nextSlab).next
  let p := p.linkNext (p.slabs slab).prev (some nextSlab)
  let p := p.setSlabPrev nextSlab (p.slabs slab).prev
  let p := p.setSlabNext nextSlab (some slab)
  let p := p.setSlabPrev slab (some nextSlab)
  p.resetEnds nextSlab slab

def rollAhead (slab : Nat) : Nat → MemPool → Option MemPool
  | 0, _ => none
  | fuel + 1, p =>
    match (p.slabs slab).prev with
    | none => some p
    | some prevSlab =>
      if (p.slabs slab).maxSeriateSize < (p.slabs prevSlab).maxSeriateSize
      then rollAhead slab fuel (p.changeAhead slab prevSlab)
      else some p

def rollBack (slab : Nat) : Nat → MemPool → Option MemPool
  | 0, _ => none
  | fuel + 1, p =>
    match (p.slabs slab).next with
    | none => some p
    | some nextSlab =>
      if (p.slabs nextSlab).maxSeriateSize < (p.slabs slab).maxSeriateSize
      then rollBack slab fuel (p.changeBack slab nextSlab)
      else some p

/- ajust_slab_order with ORDER_BY_AHEAD and with ORDER_BY_BACK. -/
def ajustAhead (p : MemPool) (slab : Nat) : Option MemPool :=
  if p.slabsHead = some slab then some p else rollAhead slab (p.allocedSlabs + 1) p

def ajustBack (p : MemPool) (slab : Nat) : Option MemPool :=
  if p.slabsTail = some slab then some p else rollBack slab (p.allocedSlabs + 1) p

/- The remainder of the chunk becomes a chunk of its own, of left bytes. -/
def newChunk (m : Memory) (slab : Nat) (freeObj : Nat) (allocSize left : Nat) : Memory :=
  let nextObject := freeObj + sizeofObjHeader + allocSize
  let m := if (header m freeObj).next ≠ 0 then setPrev m (header m freeObj).next nextObject else m
  let m := setSize m freeObj allocSize
  let m := setNext m nextObject (header m freeObj).next
  let m := setSlab m nextObject slab
  let m := setNext m freeObj nextObject
  let m := setPrev m nextObject freeObj
  setSize m nextObject left

def popUsableObject (p : MemPool) (slab : Nat) (allocSize : Nat) : Option (Nat × MemPool) :=
  let s := p.slabs slab
  let left := uint (s.maxSeriateSize - allocSize)
  let freeObj := s.maxSeriateFreeHead
  if freeObj = 0 then none else
  let m := setInuse (setSlab p.mem freeObj slab) freeObj inuseIdentiry
  if 0 < left ∧ sizeofObjHeader < left then
    let rest := uint (left - sizeofObjHeader)
    some (freeObj,{ p with
      mem := newChunk m slab freeObj allocSize rest
      slabs := Function.update p.slabs slab { s with
        inuseObjs := uint (s.inuseObjs + 1), maxSeriateSize := rest,
        maxSeriateFreeHead := freeObj + sizeofObjHeader + allocSize } })
  else
    some (freeObj,{ p with
      mem := m
      slabs := Function.update p.slabs slab { s with
        inuseObjs := uint (s.inuseObjs + 1), maxSeriateSize := 0, maxSeriateFreeHead := 0 } })

/- The first slab with enough seriate memory, or else the first of some new ones. -/
def usableSlab (p : MemPool) (size : Nat) (news : List New) : Option (Option (Option Nat) × MemPool) := do
  match ← p.findUsableSlab size (p.allocedSlabs + 1) p.slabsHead with
  | some slab => some (some (some slab),p)
  | none => p.allocSlabs p.preallocSlabNum news

/- A result of 0 is the null pointer, or no result at all where bad_alloc passes through
and mutex_ stays acquired. -/
def malloc (p : MemPool) (size : Nat) (news : List New) : Option (Nat × MemPool) :=
  if p.slabSize < size then some (0,p) else do
  let size := uint (mallocRoundup size)
  match ← p.usableSlab size news with
  | (none,p) => some (0,{ p with locked := true })
  | (some none,p) => some (0,p)
  | (some (some usableSlab),p) =>
    let (usableObject,p) ← p.popUsableObject usableSlab size
    let p ← p.ajustAhead usableSlab
    some (usableObject + sizeofObjHeader,p)

/- The chunk after freeObj becomes part of it. -/
def mergeNext (m : Memory) (freeObj : Nat) : Memory :=
  let m := if (header m (header m freeObj).next).next ≠ 0
    then setPrev m (header m (header m freeObj).next).next freeObj else m
  let m := setSize m freeObj
    ((header m freeObj).size + (sizeofObjHeader + (header m (header m freeObj).next).size))
  setNext m freeObj (header m (header m freeObj).next).next

/- The same where freeObj is the first chunk. -/
def mergeNextHead (m : Memory) (freeObj : Nat) : Memory :=
  let m := setSize m freeObj
    ((header m freeObj).size + (sizeofObjHeader + (header m (header m freeObj).next).size))
  let m := if (header m (header m freeObj).next).next ≠ 0
    then setPrev m (header m (header m freeObj).next).next freeObj else m
  setNext m freeObj (header m (header m freeObj).next).next

/- freeObj becomes part of the chunk before it; another one follows. -/
def mergePrev (m : Memory) (freeObj : Nat) : Memory :=
  let m := setNext m (header m freeObj).prev (header m freeObj).next
  let m := setPrev m (header m freeObj).next (header m freeObj).prev
  setSize m (header m freeObj).prev
    ((header m (header m freeObj).prev).size + (sizeofObjHeader + (header m freeObj).size))

/- The same where freeObj is the last chunk. -/
def mergePrevTail (m : Memory) (freeObj : Nat) : Memory :=
  let m := setNext m (header m freeObj).prev 0
  setSize m (header m freeObj).prev
    ((header m (header m freeObj).prev).size + (sizeofObjHeader + (header m freeObj).size))

def merge (m : Memory) (freeObj : Nat) : Memory × Nat :=
  if (header m freeObj).prev ≠ 0 ∧ (header m freeObj).next ≠ 0 then
    let (m,freeObj) := if (header m (header m freeObj).prev).inuse = 0
      then (mergePrev m freeObj,(header m freeObj).prev) else (m,freeObj)
    if (header m (header m freeObj).next).inuse = 0 then (mergeNext m freeObj,freeObj) else (m,freeObj)
  else if (header m freeObj).prev ≠ 0 then
    if (header m (header m freeObj).prev).inuse = 0
    then (mergePrevTail m freeObj,(header m freeObj).prev) else (m,freeObj)
  else if (header m freeObj).next ≠ 0 then
    if (header m (header m freeObj).next).inuse = 0 then (mergeNextHead m freeObj,freeObj) else (m,freeObj)
  else (m,freeObj) -- error memory block!

/- Ajust slab. -/
def ajustSlab (p : MemPool) (freeObj : Nat) : MemPool :=
  let slab := (header p.mem freeObj).slab
  if (p.slabs slab).maxSeriateSize < (header p.mem freeObj).size then
    { p with slabs := Function.update p.slabs slab { p.slabs slab with
      maxSeriateSize := (header p.mem freeObj).size, maxSeriateFreeHead := freeObj } }
  else p

def free (p : MemPool) (memory : Nat) : Option MemPool :=
  if memory = 0 ∨ p.slabsHead = none then some p else
  let freeObj := memory - sizeofObjHeader
  if (header p.mem freeObj).inuse ≠ inuseIdentiry then some p else do
  let (m,freeObj) := merge (setInuse p.mem freeObj 0) freeObj
  let p := { p with mem := m }.ajustSlab freeObj
  let slab := (header p.mem freeObj).slab
  let p ← p.ajustBack slab
  some { p with slabs := Function.update p.slabs slab { p.slabs slab with
    inuseObjs := uint ((p.slabs slab).inuseObjs - 1) } }

end MemPool
end CuteNdk
