import CuteNdk.EpollReactor
import CuteNdk.Lib.Linked

/-! Registration with the select reactor: three lists of handles, linked from the nodes
open_i allocates, and the handler table. FD_SETSIZE is a parameter. A result of none is
a null pointer that is followed, or a walk that does not end. -/
namespace CuteNdk.Select
open Reactor (Handle EventHandler Mask HandleOpt HandlerRepository Action bitEnabled setBits clrBits)

abbrev Ptr := Nat

/- handle_list_rd_, handle_list_wr_, handle_list_ex_. -/
inductive Which where | rd | wr | ex deriving DecidableEq, Repr

def invalidHandle : Handle := -1

/- The nodes are numbered as open_i makes them; nodes is how many there are. -/
structure SelectReactor where
  rep : HandlerRepository
  handle : Ptr → Handle
  next : Ptr → Option Ptr
  list : Which → Option Ptr
  freeNode : Option Ptr
  nodes : Nat

namespace SelectReactor

def allocHandle (r : SelectReactor) : Option (Ptr × SelectReactor) :=
  r.freeNode.map fun p =>
    (p,{ r with
      freeNode := r.next p
      handle := Function.update r.handle p invalidHandle
      next := Function.update r.next p none })

def releaseHandle (r : SelectReactor) (p : Ptr) : SelectReactor :=
  { r with
    handle := Function.update r.handle p invalidHandle
    next := Function.update r.next p r.freeNode
    freeNode := some p }

/- The loop of find_handle. -/
def findFrom (r : SelectReactor) (h : Handle) : Nat → Option Ptr → Option Bool
  | 0, _ => none
  | _ + 1, none => some false
  | n + 1, some p => if r.handle p = h then some true else findFrom r h n (r.next p)

def findHandle (r : SelectReactor) (h : Handle) (w : Which) : Option Bool := r.findFrom h (r.nodes + 1) (r.list w)

def appendHandle (r : SelectReactor) (h : Handle) (w : Which) : Option (SelectReactor × Int) := do
  let found ← r.findHandle h w
  if found then some (r,0)
  else do
    -- a node of the free list is never null, so -1 is not returned
    let allocated ← r.allocHandle
    let p := allocated.1
    let r := allocated.2
    some ({ r with
      next := Function.update r.next p (r.list w)
      list := Function.update r.list w (some p)
      handle := Function.update r.handle p h },0)

/- The loop of remove_handle behind the first node. -/
def unlinkFrom (r : SelectReactor) (h : Handle) : Nat → Ptr → Option Ptr → Option SelectReactor
  | 0, _, _ => none
  | _ + 1, _, none => some r
  | n + 1, prev, some itor =>
    if r.handle itor = h then
      some ({ r with next := Function.update r.next prev (r.next itor) }.releaseHandle itor)
    else unlinkFrom r h n itor (r.next itor)

def removeHandle (r : SelectReactor) (h : Handle) (w : Which) : Option SelectReactor := do
  let sh ← r.list w
  if r.handle sh = h then some ({ r with list := Function.update r.list w (r.next sh) }.releaseHandle sh)
  else r.unlinkFrom h (r.nodes + 1) sh (r.next sh)

/- if (list && go) remove_handle. -/
def removeIf (r : SelectReactor) (go : Bool) (h : Handle) (w : Which) : Option SelectReactor :=
  if r.list w ≠ none ∧ go then r.removeHandle h w else some r

def appendIf (r : SelectReactor) (go : Bool) (h : Handle) (w : Which) : Option (SelectReactor × Int) :=
  if go then r.appendHandle h w else some (r,0)

end SelectReactor

/- readable, writeable and exception. -/
def wants (m : Mask) : Which → Bool
  | .rd => bitEnabled m Mask.read || bitEnabled m Mask.accept || bitEnabled m Mask.connect
  | .wr => bitEnabled m Mask.connect || bitEnabled m Mask.write
  | .ex => bitEnabled m Mask.except

namespace SelectReactor

def handleOptI (r : SelectReactor) (h : Handle) (m : Mask) (opt : HandleOpt) : Option (SelectReactor × Int) :=
  let opt := if m = Mask.null then .clrMask else if opt = .clrMask then .setMask else opt
  if opt = .clrMask then do
    let r ← r.removeIf true h .rd
    let r ← r.removeIf true h .wr
    let r ← r.removeIf true h .ex
    some (r,0)
  else do
    let set := decide (opt = .setMask)
    let r ← r.removeIf (set && !wants m .rd) h .rd
    let r ← r.removeIf (set && !wants m .wr) h .wr
    let r ← r.removeIf (set && !wants m .ex) h .ex
    let rd ← r.appendIf (wants m .rd) h .rd
    if rd.2 ≠ 0 then some (rd.1,-1)
    else do
      let wr ← rd.1.appendIf (wants m .wr) h .wr
      if wr.2 ≠ 0 then some (wr.1,-1)
      else do
        let ex ← wr.1.appendIf (wants m .ex) h .ex
        if ex.2 ≠ 0 then some (ex.1,-1) else some (ex.1,0)

def registerHandlerI (r : SelectReactor) (h : Handle) (eh : Option EventHandler) (m : Mask) :
    Option (SelectReactor × Int) :=
  if r.rep.find h = none then
    let bound := r.rep.bind h eh m
    if bound.2 ≠ 0 then some ({ r with rep := bound.1 },-1)
    else do
      let opted ← { r with rep := bound.1 }.handleOptI h m .addMask
      if opted.2 ≠ 0 then some ({ opted.1 with rep := (opted.1.rep.unbind h).1 },-1)
      else some (opted.1,0)
  else
    let newMask := setBits (r.rep.mask h) m
    { r with rep := r.rep.setMask h newMask }.handleOptI h newMask .setMask

/- handle_close leaves the reactor alone, so the handler is bound after it as before. -/
def removeHandlerI (r : SelectReactor) (h : Handle) (m : Mask) : Option (SelectReactor × Int) :=
  if r.rep.find h = none then some (r,-1)
  else do
    let newMask := clrBits (r.rep.mask h) m
    let opt := if newMask ≠ Mask.null then HandleOpt.setMask else .clrMask
    let opted ← { r with rep := r.rep.setMask h newMask }.handleOptI h newMask opt
    if opted.2 = -1 then some (opted.1,-1)
    else if newMask = Mask.null then some ({ opted.1 with rep := (opted.1.rep.unbind h).1 },0)
    else some (opted.1,0)

def suspendHandlerI (r : SelectReactor) (h : Handle) : Option (SelectReactor × Int) :=
  if r.rep.find h = none then some (r,-1)
  else if r.rep.suspended h then some (r,0)
  else do
    let opted ← r.handleOptI h Mask.null .clrMask
    if opted.2 = -1 then some (opted.1,-1) else some ({ opted.1 with rep := opted.1.rep.suspend h },0)

def resumeHandlerI (r : SelectReactor) (h : Handle) : Option (SelectReactor × Int) :=
  if r.rep.find h = none ∨ r.rep.suspended h = false then some (r,-1)
  else if r.rep.mask h = Mask.null then some (r,-1)
  else do
    let opted ← r.handleOptI h (r.rep.mask h) .addMask
    if opted.2 = -1 then some (opted.1,-1) else some ({ opted.1 with rep := opted.1.rep.resume h },0)

/- The nodes of open_i, one linked to the next, all of them free. -/
def allocated (fdSetSize : Nat) : SelectReactor where
  rep := HandlerRepository.opened fdSetSize
  handle := fun _ => invalidHandle
  next := fun p => if p + 1 < fdSetSize * 3 then some (p + 1) else none
  list := fun _ => none
  freeNode := some 0
  nodes := fdSetSize * 3

/- open_i, which registers the notify handler; -1 is a reactor that is closed again. -/
def openI (fdSetSize : Nat) (notifyHandle : Handle) (notifyHandler : EventHandler) : Option (SelectReactor × Int) :=
  if fdSetSize = 0 then some (allocated 0,-1)
  else (allocated fdSetSize).registerHandlerI notifyHandle (some notifyHandler) Mask.read

def apply (r : SelectReactor) : Action → Option SelectReactor
  | .register h eh m => (r.registerHandlerI h eh m).map Prod.fst
  | .remove h m => (r.removeHandlerI h m).map Prod.fst
  | .suspend h => (r.suspendHandlerI h).map Prod.fst
  | .resume h => (r.resumeHandlerI h).map Prod.fst

end SelectReactor

/- An operation can always be called; what it leaves may be undefined. -/
def step (r : Option SelectReactor) (a : Action) : Option (Option SelectReactor) := r.map fun r => r.apply a

end CuteNdk.Select
