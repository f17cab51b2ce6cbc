import CuteNdk.Lib.Linked

/-! asynch_file_io: the waiting requests by descriptor, the running list and the
free lists, all of them made of aio_opt_t nodes in one store. A result of none is
a null pointer followed, an access outside fd_pool_, an assertion that fails or
a loop that does not end. -/
namespace CuteNdk
open Lib

namespace AsynchFileIo

abbrev Ptr := Nat
abbrev Handle := Int
abbrev Address := Nat

inductive Opcode where | read | write deriving DecidableEq, Repr

inductive Answer where | canceled | notCanceled deriving DecidableEq, Repr

/- The fields of a node but for its four links. -/
structure AioOpt where
  handle : Handle
  opcode : Option Opcode
  errcode : Int
  fdPrio : Int
  ioPrio : Int
  id : Int
  iNbytes : BitVec 64
  oNbytes : BitVec 64
  offset : BitVec 64
  buffer : Address
  aioHandler : Option Address
  deriving DecidableEq, Repr

def AioOpt.reset : AioOpt := ⟨-1,none,0,0,0,-1,0,0,0,0,none⟩

/- What start_aio is called with; its handler is not null and its optcode is one
of the two, as it asserts. -/
structure Request where
  handle : Handle
  nbytes : BitVec 64
  offset : BitVec 64
  buff : Address
  handler : Address
  optcode : Opcode
  fdPriority : Int
  ioPriority : Int
  deriving DecidableEq, Repr

def intMax : Int := 2147483647

end AsynchFileIo

open AsynchFileIo

structure AsynchFileIo where
  idItor : Int
  fdPoolSize : Int
  maxRequestQueueSize : BitVec 64
  queueListSize : BitVec 64
  fdPool : Handle → Option Ptr
  queueList : Option Ptr
  runningList : Option Ptr
  runningListTail : Option Ptr
  freeRunningList : Option Ptr
  freeList : Option Ptr
  opt : Ptr → AioOpt
  prev : Ptr → Option Ptr
  next : Ptr → Option Ptr
  ptr : Ptr → Option Ptr
  header : Ptr → Option Ptr
  made : Nat

namespace AsynchFileIo

/- After open, where max_handles() is size. -/
def make (maxQueueSize : BitVec 64) (size : Int) : AsynchFileIo where
  idItor := 0
  fdPoolSize := size
  maxRequestQueueSize := maxQueueSize
  queueListSize := 0
  fdPool := fun _ => none
  queueList := none
  runningList := none
  runningListTail := none
  freeRunningList := none
  freeList := none
  opt := fun _ => .reset
  prev := fun _ => none
  next := fun _ => none
  ptr := fun _ => none
  header := fun _ => none
  made := 0

def InPool (io : AsynchFileIo) (handle : Handle) : Prop := 0 ≤ handle ∧ handle < io.fdPoolSize

instance (io : AsynchFileIo) (handle : Handle) : Decidable (io.InPool handle) :=
  inferInstanceAs (Decidable (_ ∧ _))

/- fd_pool_[handle] = p. -/
def setSlot (io : AsynchFileIo) (handle : Handle) (p : Option Ptr) : Option AsynchFileIo :=
  if io.InPool handle then some { io with fdPool := Function.update io.fdPool handle p } else none

def resetOpt (io : AsynchFileIo) (p : Ptr) : AsynchFileIo :=
  { io with
    opt := Function.update io.opt p .reset
    prev := Function.update io.prev p none
    next := Function.update io.next p none
    ptr := Function.update io.ptr p none
    header := Function.update io.header p none }

/- alloc_aio_opt_i: the node, and what is left of the list it was taken from. -/
def allocAioOptI (io : AsynchFileIo) (aioList : Option Ptr) : Ptr × Option Ptr × AsynchFileIo :=
  match aioList with
  | none => (io.made,none,{ io.resetOpt io.made with made := io.made + 1 })
  | some p => (p,io.next p,io.resetOpt p)

def allocAioOpt (io : AsynchFileIo) : Option (Ptr × AsynchFileIo) :=
  if io.maxRequestQueueSize < io.queueListSize then none
  else
    let (p,rest,io) := io.allocAioOptI io.freeList
    some (p,{ io with freeList := rest, queueListSize := io.queueListSize + 1 })

def freeAioOpt (io : AsynchFileIo) (p : Ptr) : AsynchFileIo :=
  { io with
    next := Function.update io.next p io.freeList
    freeList := some p
    queueListSize := io.queueListSize - 1 }

/- The first loop condition of start_aio: past nodes of the same priority. -/
def keepsOrder (io : AsynchFileIo) (topNode b : Ptr) : Bool := (io.opt topNode).fdPrio ≤ (io.opt b).fdPrio

/- The slot is empty: the node is linked into queue_list_ by fd_prio_. -/
def linkTop (io : AsynchFileIo) (topNode : Ptr) : Option AsynchFileIo :=
  match io.queueList with
  | none => some { io with queueList := some topNode }
  | some first =>
    if (io.opt first).fdPrio < (io.opt topNode).fdPrio then
      some { io with
        next := Function.update io.next topNode (some first)
        prev := Function.update (Function.update io.prev first (some topNode)) topNode none
        queueList := some topNode }
    else do
      let itor ← advance io.next (io.keepsOrder topNode) io.made first
      let io := { io with
        next := Function.update io.next topNode (io.next itor)
        prev := Function.update io.prev topNode (some itor) }
      let io := { io with prev := relink io.prev (io.next itor) (some topNode) }
      some { io with next := Function.update io.next itor (some topNode) }

/- The node takes the place of the descriptor's top node, which goes to the front
of the sub queue. -/
def replaceTop (io : AsynchFileIo) (handle : Handle) (aioopt topNode : Ptr) : Option AsynchFileIo := do
  let io := { io with
    opt := Function.update io.opt aioopt { io.opt aioopt with fdPrio := (io.opt topNode).fdPrio } }
  let io ← io.setSlot handle (some aioopt)
  let io := { io with header := Function.update io.header aioopt (some topNode) }
  let io := { io with queueList := if io.queueList = some topNode then some aioopt else io.queueList }
  let io := { io with next := Function.update io.next aioopt (io.next topNode) }
  let io := { io with prev := relink io.prev (io.next topNode) (some aioopt) }
  let io := { io with prev := Function.update io.prev aioopt (io.prev topNode) }
  let io := { io with next := relink io.next (io.prev topNode) (some aioopt) }
  let io := { io with next := Function.update io.next topNode (io.header topNode) }
  some { io with header := Function.update io.header topNode none }

/- Neither of the two breaks of the sub queue's loop is taken at b. -/
def keepsPrio (io : AsynchFileIo) (aioopt b : Ptr) : Bool :=
  (io.opt aioopt).ioPrio ≤ (io.opt b).ioPrio ∧
    ¬ ((io.opt aioopt).ioPrio = (io.opt b).ioPrio ∧ (io.opt aioopt).offset < (io.opt b).offset)

def appendSub (io : AsynchFileIo) (aioopt topNode : Ptr) : Option AsynchFileIo :=
  match io.header topNode with
  | none => some { io with header := Function.update io.header topNode (some aioopt) }
  | some first =>
    if (io.opt first).ioPrio < (io.opt aioopt).ioPrio then
      some { io with
        next := Function.update io.next aioopt (some first)
        header := Function.update io.header topNode (some aioopt) }
    else do
      let itor ← advance io.next (io.keepsPrio aioopt) io.made first
      let io := { io with next := Function.update io.next aioopt (io.next itor) }
      some { io with next := Function.update io.next itor (some aioopt) }

def assign (io : AsynchFileIo) (aioopt : Ptr) (r : Request) : AsynchFileIo :=
  { io with
    idItor := if io.idItor + 1 = intMax then 0 else io.idItor + 1
    opt := Function.update io.opt aioopt { io.opt aioopt with
      aioHandler := some r.handler
      handle := r.handle
      iNbytes := r.nbytes
      buffer := r.buff
      offset := r.offset
      opcode := some r.optcode
      fdPrio := r.fdPriority
      ioPrio := r.ioPriority
      id := io.idItor + 1 } }

/- The asserts start_aio makes before it takes a node. -/
def Startable (io : AsynchFileIo) (r : Request) : Prop := 0 < r.nbytes ∧ r.handle ≠ -1 ∧ io.InPool r.handle

instance (io : AsynchFileIo) (r : Request) : Decidable (io.Startable r) :=
  inferInstanceAs (Decidable (_ ∧ _))

/- start_aio from its guard on, for the node it has allocated. -/
def startAio (io : AsynchFileIo) (aioopt : Ptr) (r : Request) : Option AsynchFileIo :=
  let io := io.assign aioopt r
  if ¬ io.InPool r.handle then none
  else match io.fdPool r.handle with
    | none => do
      let io ← io.setSlot r.handle (some aioopt)
      io.linkTop aioopt
    | some topNode =>
      if io.queueList = none then none
      else if (io.opt topNode).ioPrio < (io.opt aioopt).ioPrio then io.replaceTop r.handle aioopt topNode
      else io.appendSub aioopt topNode

/- find_in_running_list over the entries from itor on. -/
def findEntry (io : AsynchFileIo) (id : Int) : Nat → Option Ptr → Option Bool
  | 0, _ => none
  | _ + 1, none => some false
  | n + 1, some itor => do
    let aioopt ← io.ptr itor
    if (io.opt aioopt).id = id then some true else findEntry io id n (io.next itor)

def findInRunningList (io : AsynchFileIo) (id : Int) : Option Bool :=
  io.findEntry id (io.made + 1) io.runningList

/- The first node of a sub queue, or none, takes the place of the top node. -/
def removeTop (io : AsynchFileIo) (handle : Handle) (topNode : Ptr) : Option AsynchFileIo :=
  match io.header topNode with
  | none => do
    let io := { io with next := relink io.next (io.prev topNode) (io.next topNode) }
    let io := { io with prev := relink io.prev (io.next topNode) (io.prev topNode) }
    let io := { io with queueList := if io.queueList = some topNode then io.next topNode else io.queueList }
    io.setSlot handle none
  | some first => do
    let io := { io with
      opt := Function.update io.opt first { io.opt first with fdPrio := (io.opt topNode).fdPrio } }
    let io ← io.setSlot handle (some first)
    let io := { io with header := Function.update io.header first (io.next first) }
    let io := { io with next := relink io.next (io.prev topNode) (some first) }
    let io := { io with prev := Function.update io.prev first (io.prev topNode) }
    let io := { io with prev := relink io.prev (io.next topNode) (some first) }
    let io := { io with next := Function.update io.next first (io.next topNode) }
    some { io with queueList := if io.queueList = some topNode then some first else io.queueList }

def otherId (io : AsynchFileIo) (id : Int) (b : Ptr) : Bool := (io.opt b).id ≠ id

/- The part of cancel_aio that takes a waiting request out: the node released,
if the descriptor had one of that id. -/
def removeWaiting (io : AsynchFileIo) (handle : Handle) (id : Int) : Option (Option Ptr × AsynchFileIo) :=
  if ¬ io.InPool handle then none
  else match io.fdPool handle with
    | none => some (none,io)
    | some topNode =>
      if (io.opt topNode).id = id then do
        let io ← io.removeTop handle topNode
        some (some topNode,io.freeAioOpt topNode)
      else match io.header topNode with
        | none => some (none,io)
        | some first =>
          if (io.opt first).id = id then
            let io := { io with header := Function.update io.header topNode (io.next first) }
            some (some first,io.freeAioOpt first)
          else do
            let itor ← advance io.next (io.otherId id) io.made first
            match io.next itor with
            | none => some (none,io)
            | some item =>
              let io := { io with next := Function.update io.next itor (io.next item) }
              some (some item,io.freeAioOpt item)

/- The asserts of cancel_aio. -/
def Cancellable (io : AsynchFileIo) (handle : Handle) (id : Int) : Prop :=
  0 < handle ∧ handle < io.fdPoolSize ∧ 0 < id

instance (io : AsynchFileIo) (handle : Handle) (id : Int) : Decidable (io.Cancellable handle id) :=
  inferInstanceAs (Decidable (_ ∧ _))

def cancelAio (io : AsynchFileIo) (handle : Handle) (id : Int) :
    Option (Answer × Option Ptr × AsynchFileIo) := do
  let out ← io.removeWaiting handle id
  let found ← out.2.findInRunningList id
  some (if found then .notCanceled else .canceled,out.1,out.2)

/- for (; node != 0; ++i, node = node->next_) of pop_some_request; the results
are pop_list_itor and i. -/
def popSub : Nat → AsynchFileIo → Ptr → Option Ptr → Nat → Option (Ptr × Nat × AsynchFileIo)
  | 0, _, _, _, _ => none
  | _ + 1, io, itor, none, i => some (itor,i,io)
  | n + 1, io, itor, some node, i =>
    let io := { io with next := Function.update io.next itor (some node) }
    popSub n io node (io.next node) (i + 1)

/- pop_list, pop_list_itor and top_node. -/
structure Popped where
  list : Option Ptr
  itor : Option Ptr
  topNode : Option Ptr

/- The node is linked behind pop_list_itor, or is the first. -/
def linkPopped (io : AsynchFileIo) (l : Popped) (top : Ptr) : Option (Option Ptr × AsynchFileIo) :=
  match l.list with
  | none => some (some top,io)
  | some first => l.itor.map fun itor =>
    (some first,{ io with next := Function.update io.next itor (some top) })

def popTops : Nat → AsynchFileIo → Nat → Popped → Nat → Option (Popped × AsynchFileIo)
  | 0, _, _, _, _ => none
  | n + 1, io, num, l, i =>
    match l.topNode with
    | none => some (l,io)
    | some top =>
      if num ≤ i then some (l,io)
      else do
        let io ← io.setSlot (io.opt top).handle none
        let linked ← io.linkPopped l top
        let io := linked.2
        let sub ← popSub (io.made + 1) io top (io.header top) i
        popTops n sub.2.2 num ⟨linked.1,some sub.1,io.next top⟩ (sub.2.1 + 1)

def popSomeRequest (io : AsynchFileIo) (popList : Option Ptr) (num : Nat) :
    Option (Option Ptr × AsynchFileIo) := do
  let out ← popTops (io.made + 1) io num ⟨popList,none,io.queueList⟩ 0
  let io := { out.2 with queueList := out.1.topNode }
  let io := { io with prev := relink io.prev io.queueList none }
  let io := { io with next := relink io.next out.1.itor none }
  some (out.1.list,io)

/- One node of free_running_list_ or a new one, with its ptr_ set. -/
def allocEntry (io : AsynchFileIo) (p : Ptr) : Ptr × AsynchFileIo :=
  let (e,rest,io) := io.allocAioOptI io.freeRunningList
  (e,{ io with freeRunningList := rest, ptr := Function.update io.ptr e (some p) })

def enqueueRest : Nat → AsynchFileIo → Option Ptr → Option AsynchFileIo
  | 0, _, _ => none
  | _ + 1, io, none => some io
  | n + 1, io, some itor => do
    let (aioopt,io) := io.allocEntry itor
    let tail ← io.runningListTail
    let io := { io with next := Function.update io.next tail (some aioopt), runningListTail := some aioopt }
    enqueueRest n io (io.next itor)

def enqueueToRunningList (io : AsynchFileIo) (runningList : Option Ptr) : Option AsynchFileIo := do
  let first ← runningList
  match io.runningList with
  | none =>
    let (aioopt,io) := io.allocEntry first
    let io := { io with runningListTail := some aioopt, runningList := some aioopt }
    enqueueRest (io.made + 1) io (io.next first)
  | some _ => enqueueRest (io.made + 1) io runningList

/- The critical section of svc, entered with queue_list_ not null. -/
def takeSome (io : AsynchFileIo) : Option (Ptr × AsynchFileIo) := do
  let out ← io.popSomeRequest none 5
  let first ← out.1
  let io ← out.2.enqueueToRunningList out.1
  some (first,io)

/- The callback handle_aio_requests makes for one request, with what pread or
pwrite came back with in the end. -/
def perform (io : AsynchFileIo) (aioopt : Ptr) (result errno : Int) : Option (Opcode × Address × AsynchFileIo) := do
  let callback ← (io.opt aioopt).opcode
  let handler ← (io.opt aioopt).aioHandler
  let opt := io.opt aioopt
  let opt := if 0 ≤ result then { opt with errcode := 0, oNbytes := BitVec.ofInt 64 result }
    else { opt with errcode := errno }
  some (callback,handler,{ io with opt := Function.update io.opt aioopt opt })

def otherEntry (io : AsynchFileIo) (aioopt b : Ptr) : Bool := io.ptr b ≠ some aioopt

/- The entry of the request is unlinked. -/
def unlinkEntry (io : AsynchFileIo) (aioopt : Ptr) : Option (Ptr × AsynchFileIo) := do
  let first ← io.runningList
  if io.ptr first = some aioopt then some (first,{ io with runningList := io.next first })
  else
    let itor ← advance io.next (io.otherEntry aioopt) io.made first
    let entry ← io.next itor
    let io := { io with
      runningListTail := if io.runningListTail = some entry then some itor else io.runningListTail }
    some (entry,{ io with next := Function.update io.next itor (io.next entry) })

def dequeueFromRunningList (io : AsynchFileIo) (aioopt : Ptr) : Option AsynchFileIo := do
  let out ← io.unlinkEntry aioopt
  let io := { out.2 with next := Function.update out.2.next out.1 none }
  let io := { io with next := Function.update io.next out.1 io.freeRunningList, freeRunningList := some out.1 }
  match io.runningList with
  | none => some { io with runningListTail := none }
  | some first => some { io with
      runningListTail := if io.next first = none then some first else io.runningListTail }

/- The loop of free_aio_opt_n: the last node of the batch and the count left. -/
def freeWalk (io : AsynchFileIo) : Nat → Ptr → BitVec 64 → Option (Ptr × BitVec 64)
  | 0, _, _ => none
  | n + 1, tail, size =>
    match io.next tail with
    | none => some (tail,size)
    | some b => freeWalk io n b (size - 1)

def freeAioOptN (io : AsynchFileIo) (p : Ptr) : Option AsynchFileIo := do
  let out ← io.freeWalk io.made p (io.queueListSize - 1)
  some { io with
    next := Function.update io.next out.1 io.freeList
    freeList := some p
    queueListSize := out.2 }

end AsynchFileIo

end CuteNdk
