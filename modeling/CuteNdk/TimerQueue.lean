import CuteNdk.TimeValue
import CuteNdk.CronField
import CuteNdk.Lib.BinaryHeap

/-! timer_queue: the heap of general timers with its table of timer ids, the
list of crontab timers and the two free lists, over the nodes the queue has
made. A result of none is behaviour C++ leaves undefined (an access outside an
array, a null pointer followed, an int overflow) or a loop that does not end;
assertions are compiled out. -/
namespace CuteNdk
open Lib.BinaryHeap (parent)

namespace TimerQueue

abbrev Ptr := Nat
abbrev Arg := Nat

inductive TimerType where | general | crontab deriving DecidableEq, Repr

/- The event handlers a node may point at: the queue is one itself, and drives
its crontab timers as one. -/
inductive Handler where | queue | user (n : Nat) deriving DecidableEq, Repr

/- What parse_cron_entry makes of an entry: the arrays of the five fields. -/
structure CronEntry where
  min : CronField.Item
  hour : CronField.Item
  mday : CronField.Item
  month : CronField.Item
  wday : CronField.Item
  deriving DecidableEq, Repr

/- The entry crontab is given: a null pointer, a text that does not parse, or one
that does. -/
inductive Entry where | null | malformed | parsed (e : CronEntry) deriving DecidableEq, Repr

structure TimerNode where
  timerId : Int
  type : TimerType
  crontabEntry : Option CronEntry
  handler : Option Handler
  arg : Arg
  timerValue : TimeValue
  interval : TimeValue
  prev : Option Ptr
  next : Option Ptr
  deriving DecidableEq, Repr

/- The calls a queue makes on handlers, in order. -/
inductive Call where
  | timeout (h : Handler) (arg : Arg) (current : TimeValue)
  | close (h : Handler)
  deriving DecidableEq, Repr

def newNode : TimerNode := ⟨-1,.general,none,none,0,.zero,.zero,none,none⟩

def intMax : Nat := 2147483647

end TimerQueue

open TimerQueue

structure TimerQueue where
  maxSize : Int
  currSize : Nat
  timerHeapSize : Nat
  timerHeap : Nat → Option Ptr
  freeTimerNodes : Option Ptr
  freeCrontabTimers : Option Ptr
  crontabTimers : Option Ptr
  timerIds : Int → Int
  timerIdsSize : Nat
  minTimerId : Int
  nodes : Ptr → TimerNode
  made : Nat
  calls : List Call

namespace TimerQueue

/- The nodes init links up: 0, 1, … in the order they are made. -/
def initNode (preAlloc : Nat) (p : Ptr) : TimerNode :=
  { newNode with next := if p + 1 < preAlloc then some (p + 1) else none }

def make (maxSize : Int) (preAlloc : Nat) : TimerQueue where
  maxSize := maxSize
  currSize := 0
  timerHeapSize := preAlloc
  timerHeap := fun _ => none
  freeTimerNodes := if 0 < preAlloc then some 0 else none
  freeCrontabTimers := none
  crontabTimers := none
  timerIds := fun _ => -1
  timerIdsSize := preAlloc
  minTimerId := 0
  nodes := initNode preAlloc
  made := preAlloc
  calls := []

def setNode (q : TimerQueue) (p : Ptr) (n : TimerNode) : TimerQueue :=
  { q with nodes := Function.update q.nodes p n }

/- timer_heap_[i], read where there is such an element and it is a node. -/
def heapAt (q : TimerQueue) (i : Nat) : Option Ptr :=
  if i < q.timerHeapSize then q.timerHeap i else none

/- The first id from i on whose entry is -1, over the n entries left. -/
def firstFree (ids : Int → Int) : Nat → Int → Option Int
  | 0, _ => none
  | n + 1, i => if ids i = -1 then some i else firstFree ids n (i + 1)

def freeId (q : TimerQueue) : Option Int :=
  firstFree q.timerIds (q.timerIdsSize - q.minTimerId).toNat q.minTimerId

def allocTimerid (q : TimerQueue) : Int × TimerQueue :=
  match q.freeId with
  | some i => (i,{ q with minTimerId := q.minTimerId + 1 })
  | none => (-1,q)

def releaseTimerid (q : TimerQueue) (id : Int) : TimerQueue :=
  if 0 ≤ id ∧ id < q.timerIdsSize then
    { q with
      timerIds := Function.update q.timerIds id (-1)
      minTimerId := min id q.minTimerId }
  else q

def allocNode (q : TimerQueue) : TimerType → Ptr × TimerQueue
  | .general =>
    match q.freeTimerNodes with
    | none => (q.made,{ q.setNode q.made { newNode with type := .general } with made := q.made + 1 })
    | some p => (p,{ q.setNode p { q.nodes p with next := none, type := .general } with
        freeTimerNodes := (q.nodes p).next })
  | .crontab =>
    match q.freeCrontabTimers with
    | none => (q.made,{ q.setNode q.made { newNode with type := .crontab } with made := q.made + 1 })
    | some p => (p,{ q.setNode p { q.nodes p with next := none, type := .crontab } with
        freeCrontabTimers := (q.nodes p).next })

/- The node goes to the front of the free list of its type. -/
def recycle (q : TimerQueue) (p : Ptr) : TimerQueue :=
  match (q.nodes p).type with
  | .general => { q.setNode p { q.nodes p with crontabEntry := none, next := q.freeTimerNodes } with
      freeTimerNodes := some p }
  | .crontab => { q.setNode p { q.nodes p with crontabEntry := none, next := q.freeCrontabTimers } with
      freeCrontabTimers := some p }

def freeNode (q : TimerQueue) (p : Ptr) : TimerQueue :=
  (q.releaseTimerid (q.nodes p).timerId).recycle p

def copy (q : TimerQueue) (slot : Nat) (moved : Ptr) : Option TimerQueue :=
  if slot < q.timerHeapSize ∧ 0 ≤ (q.nodes moved).timerId ∧
      (q.nodes moved).timerId < q.timerIdsSize then
    some { q with
      timerHeap := Function.update q.timerHeap slot (some moved)
      timerIds := Function.update q.timerIds (q.nodes moved).timerId slot }
  else none

/- The loops end: the slot gets smaller in reheap_up, so it bounds the turns. -/
def reheapUp (moved : Ptr) : Nat → TimerQueue → Nat → Nat → Option TimerQueue
  | 0, q, slot, _ => q.copy slot moved
  | fuel + 1, q, slot, up =>
    if 0 < slot then do
      let p ← q.heapAt up
      if (q.nodes moved).timerValue < (q.nodes p).timerValue then
        let q ← q.copy slot p
        reheapUp moved fuel q up (parent up)
      else q.copy slot moved
    else q.copy slot moved

/- if (child + 1 < curr_size_ && heap[child + 1] < heap[child]) ++child; -/
def smallerChild (q : TimerQueue) (child : Nat) : Option Nat :=
  if child + 1 < q.currSize then do
    let right ← q.heapAt (child + 1)
    let left ← q.heapAt child
    some (if (q.nodes right).timerValue < (q.nodes left).timerValue then child + 1 else child)
  else some child

def reheapDown (moved : Ptr) : Nat → TimerQueue → Nat → Nat → Option TimerQueue
  | 0, _, _, _ => none
  | fuel + 1, q, slot, child =>
    if child < q.currSize then do
      let child ← q.smallerChild child
      let p ← q.heapAt child
      if (q.nodes p).timerValue < (q.nodes moved).timerValue then
        let q ← q.copy slot p
        reheapDown moved fuel q child (child + child + 1)
      else q.copy slot moved
    else q.copy slot moved

def growHeap (q : TimerQueue) : Option TimerQueue :=
  let newSize := (min ((q.currSize * 2 : Nat) : Int) q.maxSize).toNat
  if q.currSize * 2 ≤ intMax ∧ q.currSize ≤ newSize then
    some { q with
      timerHeap := fun i => if i < q.currSize then q.timerHeap i else none
      timerHeapSize := newSize
      timerIds := fun i => if i < q.currSize then q.timerIds i else -1
      timerIdsSize := newSize
      minTimerId := q.currSize }
  else none

/- if (curr_size_ + 1 >= timer_heap_size_) grow_heap(); -/
def makeRoom (q : TimerQueue) : Option TimerQueue :=
  if q.timerHeapSize ≤ q.currSize + 1 then q.growHeap else some q

def insertGeneral (q : TimerQueue) (p : Ptr) : Option TimerQueue := do
  let q ← q.makeRoom
  let q ← reheapUp p q.currSize q q.currSize (parent q.currSize)
  some { q with currSize := q.currSize + 1 }

def insertCrontab (q : TimerQueue) (p : Ptr) : TimerQueue :=
  match q.crontabTimers with
  | none => { q.setNode p { q.nodes p with next := none, prev := none } with crontabTimers := some p }
  | some head =>
    let q := q.setNode p { q.nodes p with prev := none }
    let q := q.setNode head { q.nodes head with prev := some p }
    { q.setNode p { q.nodes p with next := some head } with crontabTimers := some p }

def insert (q : TimerQueue) (p : Ptr) : Option TimerQueue :=
  match (q.nodes p).type with
  | .general => q.insertGeneral p
  | .crontab => some (q.insertCrontab p)

/- The last node has left the heap and takes the slot; where it goes from there
depends on what is over it. -/
def refill (q : TimerQueue) (slot : Nat) : Option TimerQueue := do
  let moved ← q.heapAt q.currSize
  let q ← q.copy slot moved
  let p ← q.heapAt (parent slot)
  if (q.nodes p).timerValue ≤ (q.nodes moved).timerValue then
    reheapDown moved (q.currSize + 1) q slot (slot + slot + 1)
  else reheapUp moved slot q slot (parent slot)

def remove (q : TimerQueue) (slot : Nat) : Option (Ptr × TimerQueue) := do
  let removed ← q.heapAt slot
  let q := { q with currSize := q.currSize - 1 }
  if slot < q.currSize then
    let q ← q.refill slot
    some (removed,q)
  else some (removed,q)

def scheduleI (q : TimerQueue) (eh : Option Handler) (arg : Arg) (deadline interval : TimeValue) :
    Option (Int × TimerQueue) :=
  if q.maxSize ≤ q.currSize then some (-1,q) else
  let (node,q) := q.allocNode .general
  match q.allocTimerid with
  | (-1,q) => some (-1,q.freeNode node)
  | (timerId,q) =>
    let q := q.setNode node { q.nodes node with
      timerId := timerId, handler := eh, arg := arg, timerValue := deadline,
      interval := interval, prev := none, next := none, type := .general }
    (q.insert node).map (timerId,·)

def schedule (q : TimerQueue) (eh : Option Handler) (arg : Arg) (now delay interval : TimeValue) :
    Option (Int × TimerQueue) :=
  q.scheduleI eh arg (now + delay) interval

/- The driver of the crontab timers starts with the next minute, or at once when
this one has hardly begun. -/
def driverDelay (sec : Int) : TimeValue := if 5 < sec then .set (60 - sec) 0 else .zero

def registerCrontab (q : TimerQueue) (eh : Handler) (arg : Arg) (entry : Entry) (now : TimeValue) :
    Option (Int × TimerQueue) :=
  let (node,q) := q.allocNode .crontab
  match q.allocTimerid with
  | (-1,q) => some (-1,q.freeNode node)
  | (timerId,q) =>
    let q := q.setNode node { q.nodes node with
      timerId := timerId, handler := some eh, arg := arg, timerValue := now,
      interval := now, prev := none, next := none }
    match entry with
    | .parsed e =>
      let q := q.setNode node { q.nodes node with crontabEntry := some e, type := .crontab }
      (q.insert node).map (timerId,·)
    | _ => some (-1,q.freeNode node)

/- The first crontab timer has the queue's reactor schedule the queue itself; the
reactor is the one that uses this queue, so that it schedules here. -/
def startDriver (q : TimerQueue) (now : TimeValue) (sec : Int) : Option (Int × TimerQueue) :=
  if q.crontabTimers = none then q.schedule (some .queue) 0 now (driverDelay sec) (.set 60 0)
  else some (0,q)

def crontab (q : TimerQueue) (eh : Option Handler) (arg : Arg) (entry : Entry) (now : TimeValue)
    (sec : Int) : Option (Int × TimerQueue) :=
  match eh, entry with
  | none, _ => some (-1,q)
  | _, .null => some (-1,q)
  | some eh, entry => do
    let (result,q) ← q.startDriver now sec
    if result ≠ 0 then some (-1,q) else q.registerCrontab eh arg entry now

def call (q : TimerQueue) (c : Call) : TimerQueue := { q with calls := q.calls ++ [c] }

/- if (eh) eh->handle_close(...); -/
def handleClose (q : TimerQueue) (eh : Option Handler) : TimerQueue :=
  match eh with
  | some h => q.call (.close h)
  | none => q

/- The crontab timer with an id, looked for from p on. -/
def findCrontab (q : TimerQueue) (id : Int) : Nat → Option Ptr → Option (Option Ptr)
  | 0, _ => none
  | _ + 1, none => some none
  | fuel + 1, some p =>
    if id = (q.nodes p).timerId then some (some p) else q.findCrontab id fuel (q.nodes p).next

def unlinkCrontab (q : TimerQueue) (iter : Ptr) : Option TimerQueue :=
  if q.crontabTimers = some iter then some q else
  let clear (q : TimerQueue) := q.setNode iter { q.nodes iter with prev := none, next := none }
  match (q.nodes iter).prev, (q.nodes iter).next with
  | some p, some n =>
    let q := q.setNode n { q.nodes n with prev := some p }
    let q := q.setNode p { q.nodes p with next := some n }
    some (clear q)
  | none, some n =>
    let q := q.setNode n { q.nodes n with prev := none }
    some (clear { q with crontabTimers := (q.nodes iter).next })
  | none, none => none
  | some p, none =>
    let q := q.setNode p { q.nodes p with next := none }
    some (clear { q with crontabTimers := (q.nodes iter).next })

def cancelCrontab (q : TimerQueue) (iter : Ptr) (dontCall : Bool) : Option (Int × Option Arg × TimerQueue) :=
  let n := q.nodes iter
  let q := if dontCall then q else q.handleClose n.handler
  (q.unlinkCrontab iter).map fun q => (0,some n.arg,q.freeNode iter)

def cancelGeneral (q : TimerQueue) (id : Int) (dontCall : Bool) : Option (Int × Option Arg × TimerQueue) :=
  let slot := q.timerIds id
  if slot < 0 then some (-1,none,q) else do
    let p ← q.heapAt slot.toNat
    if id ≠ (q.nodes p).timerId then some (-1,none,q) else
      let (temp,q) ← q.remove slot.toNat
      let n := q.nodes temp
      let q := if dontCall then q else q.handleClose n.handler
      some (0,some n.arg,q.freeNode temp)

/- cancel(int, const void **, int): the result, what *arg is set to, and the queue. -/
def cancel (q : TimerQueue) (id : Int) (dontCall : Bool) : Option (Int × Option Arg × TimerQueue) :=
  if id < 0 ∨ q.timerIdsSize ≤ id then some (-1,none,q) else do
    match ← q.findCrontab id (q.made + 1) q.crontabTimers with
    | some iter => q.cancelCrontab iter dontCall
    | none => q.cancelGeneral id dontCall

/- The dont_call tested in this loop is the constant of event_handler, so that no
handle_close is made here. -/
def cancelCrontabs (eh : Handler) : Nat → TimerQueue → Option Ptr → Int → Option (Int × TimerQueue)
  | 0, _, _, _ => none
  | _ + 1, q, none, count => some (count,q)
  | fuel + 1, q, some iter, count =>
    if some eh = (q.nodes iter).handler then do
      let next := (q.nodes iter).next
      let q ← q.unlinkCrontab iter
      cancelCrontabs eh fuel (q.freeNode iter) next (count + 1)
    else cancelCrontabs eh fuel q (q.nodes iter).next count

/- for (i = 0; i < curr_size_; ) with i back at 0 after each removal. -/
def cancelGenerals (eh : Handler) : Nat → TimerQueue → Nat → Int → Option (Int × TimerQueue)
  | 0, _, _, _ => none
  | fuel + 1, q, i, count =>
    if i < q.currSize then do
      let p ← q.heapAt i
      if (q.nodes p).handler = some eh then
        let (temp,q) ← q.remove i
        cancelGenerals eh fuel (q.freeNode temp) 0 (count + 1)
      else cancelGenerals eh fuel q (i + 1) count
    else some (count,q)

/- cancel(const event_handler *, int). -/
def cancelHandler (q : TimerQueue) (eh : Option Handler) (dontCall : Bool) : Option (Int × TimerQueue) :=
  match eh with
  | none => some (0,q)
  | some eh => do
    let (count,q) ← cancelCrontabs eh (q.made + 1) q q.crontabTimers 0
    let (count,q) ← cancelGenerals eh (q.currSize * (q.currSize + 2) + 1) q 0 count
    some (count,if dontCall then q else q.call (.close eh))

def resetInterval (q : TimerQueue) (id : Int) (interval : TimeValue) : Option (Int × TimerQueue) :=
  if id < 0 ∨ q.maxSize < id then some (-1,q) else
  if q.timerIdsSize ≤ id then none else -- timer_ids_[timer_id] is read past its end
  if q.timerIds id < 0 then some (-1,q) else do
    let p ← q.heapAt (q.timerIds id).toNat
    if id ≠ (q.nodes p).timerId then some (-1,q)
    else some (0,q.setNode p { q.nodes p with interval := interval })

/- What becomes of the node an expiry has taken off the heap. -/
def rearm (q : TimerQueue) (expired : Ptr) (current : TimeValue) : Option TimerQueue :=
  let n := q.nodes expired
  if TimeValue.zero < n.interval then do
    let v ← TimeValue.skipPast current n.interval (TimeValue.turns current n.timerValue) n.timerValue
    (q.setNode expired { n with timerValue := v }).insert expired
  else some (q.freeNode expired)

/- The copy of the node dispatched, if one was due. -/
def dispatchTimer (q : TimerQueue) (current : TimeValue) : Option (Option TimerNode × TimerQueue) := do
  let earliest ← q.heapAt 0
  if (q.nodes earliest).timerValue ≤ current then
    let (expired,q) ← q.remove 0
    let node := q.nodes expired
    let q ← q.rearm expired current
    some (some node,q)
  else some (none,q)

/- The queue's own handle_timeout, which serves the crontab timers, returns 0. -/
def upcall (q : TimerQueue) (eh : Option Handler) (arg : Arg) (current : TimeValue) (ret : Int) :
    Int × TimerQueue :=
  match eh with
  | none => (-1,q)
  | some .queue => (0,q.call (.timeout .queue arg current))
  | some h => (ret,q.call (.timeout h arg current))

def closeDispatched (q : TimerQueue) (node : TimerNode) : Option TimerQueue :=
  if TimeValue.zero < node.interval then (q.cancel node.timerId false).map fun r => r.2.2
  else match node.handler with
    | some h => some (q.call (.close h))
    | none => none

/- expire, where ret is what the handler's handle_timeout returns. -/
def expire (q : TimerQueue) (current : TimeValue) (ret : Int) : Option (Int × TimerQueue) :=
  if q.currSize = 0 then some (0,q) else do
    match ← q.dispatchTimer current with
    | (none,q) => some (0,q)
    | (some node,q) =>
      let (result,q) := q.upcall node.handler node.arg current ret
      if result < 0 then (q.closeDispatched node).map (1,·) else some (1,q)

end TimerQueue
end CuteNdk
