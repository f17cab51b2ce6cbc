import CuteNdk.CacheDeque
import CuteNdk.Lib.OrderedMap

/-! cache_manager over a cache_deque. An object is in cache_map_ and the deque, or
in pending_list_ when it was evicted while referenced. Every call holds
cache_mutex_, so a step is a whole call. -/
namespace CuteNdk.Cache
open Lib

/- What the factory, the observers and the callers get to see, newest first. -/
inductive Event where
  | create (o : Obj)
  | drop (o : Obj)
  | destroy (o : Obj)
  | handOut (o : Obj)
  | release (o : Obj)
  deriving DecidableEq, Repr

/- The marks are in bytes, as the products in the constructor come out. -/
structure CacheManager (K : Type*) [LinearOrder K] where
  cobjMinSize : BitVec 64
  cobjMaxSize : BitVec 64
  waterMark : BitVec 64
  highWaterMark : BitVec 64
  lowWaterMark : BitVec 64
  cacheMap : OrderedMap K Obj
  cachePriorityQueue : CacheDeque K
  pendingList : OrderedMap K Obj
  objs : Objects
  created : Nat
  trace : List Event

namespace CacheManager
variable {K : Type*} [LinearOrder K]

def new (minObjSize maxObjSize highWaterMark lowWaterMark : BitVec 64) : CacheManager K where
  cobjMinSize := minObjSize
  cobjMaxSize := maxObjSize
  waterMark := 0
  highWaterMark := highWaterMark
  lowWaterMark := lowWaterMark
  cacheMap := .empty
  cachePriorityQueue := .new
  pendingList := .empty
  objs := fun _ => ⟨0,0,none,none,none⟩
  created := 0
  trace := []

def emit (m : CacheManager K) (e : Event) : CacheManager K := { m with trace := e :: m.trace }

/- cache_object_factory::create; new gives an object that was not there before. -/
def create (m : CacheManager K) (data : Address) (size : BitVec 64) (ob : Option Address) : CacheManager K × Obj :=
  ({ m.emit (.create m.created) with
    objs := Function.update m.objs m.created ⟨0,size,some data,none,ob⟩
    created := m.created + 1 },m.created)

/- cache_object::drop, the call of the observer. -/
def dropObject (m : CacheManager K) (o : Obj) : CacheManager K :=
  if (m.objs o).observer ≠ none ∧ (m.objs o).refcount = 0 then m.emit (.drop o) else m

def destroy (m : CacheManager K) (o : Obj) : CacheManager K := m.emit (.destroy o)

def getPendingObj (m : CacheManager K) (key : K) : CacheManager K × Option Obj :=
  match m.pendingList.find key with
  | none => (m,none)
  | some o => ({ m with objs := m.objs.acquire o },some o)

def getI (m : CacheManager K) (key : K) : CacheManager K × Option Obj :=
  match m.cacheMap.find key with
  | none => m.getPendingObj key
  | some o =>
    let (queue,objs) := m.cachePriorityQueue.adjust m.objs (m.objs o).proxy
    ({ m with cachePriorityQueue := queue, objs := objs },some o)

def dropI (m : CacheManager K) (key : K) (cobj : Obj) : CacheManager K × Int :=
  if (m.objs cobj).refcount = 0 then ((m.dropObject cobj).destroy cobj,0)
  else ({ m with pendingList := m.pendingList.insert key cobj },-1)

/- One round of the loop over pending_list_. -/
def flushPendingObj (m : CacheManager K) (e : K × Obj) : CacheManager K :=
  if (m.objs e.2).refcount = 0 then
    let m := { m with waterMark := m.waterMark - (m.objs e.2).size }
    let m := (m.dropObject e.2).destroy e.2
    { m with pendingList := m.pendingList.erase e.1 }
  else m

def flushPendingObjs (m : CacheManager K) : CacheManager K × Int :=
  if m.pendingList.entries = [] then (m,-1)
  else
    let m := m.pendingList.entries.foldl flushPendingObj m
    if m.waterMark ≤ m.lowWaterMark then (m,0) else (m,-1)

/- The lowest priority object goes, as in flush_i and in the loop of flush_all:
none where the queue is empty. -/
def evict (m : CacheManager K) : Option (CacheManager K) :=
  match m.cachePriorityQueue.remove with
  | none => none
  | some (key,cobj,queue) =>
    let m := { m with cachePriorityQueue := queue, cacheMap := m.cacheMap.erase key }
    let s := (m.objs cobj).size
    let (m,result) := m.dropI key cobj
    some (if result = 0 then { m with waterMark := m.waterMark - s } else m)

def flushI (m : CacheManager K) : CacheManager K × Int :=
  let (m,result) := m.flushPendingObjs
  if result = 0 then (m,0) else
  match m.evict with
  | some m => (m,0)
  | none => (m,-1)

/- The do loop of make_cobj, with the bound on its rounds as fuel. -/
def dropSome : Nat → CacheManager K → Option (CacheManager K × Int)
  | 0, _ => none
  | fuel + 1, m =>
    let (m,result) := m.flushI
    if result = -1 then some (m,-1)
    else if m.waterMark > m.lowWaterMark then dropSome fuel m
    else some (m,0)

def checkWaterMark (m : CacheManager K) (size : BitVec 64) : Option (CacheManager K × Int) :=
  if size + m.waterMark > m.highWaterMark then dropSome (m.cachePriorityQueue.size.toNat + 1) m
  else some (m,0)

/- The object made, or none for -1. -/
def makeCobj (m : CacheManager K) (data : Address) (size : BitVec 64) (ob : Option Address) :
    Option (CacheManager K × Option Obj) :=
  if size > m.cobjMaxSize ∨ size < m.cobjMinSize then some (m,none)
  else do
    let (m,result) ← m.checkWaterMark size
    if result = -1 then some (m,none)
    else
      let (m,cobj) := m.create data size ob
      some (m,some cobj)

/- The object put, or none for -1. cache_deque::insert does not fail. -/
def putI (m : CacheManager K) (key : K) (data : Option Address) (size : BitVec 64) (ob : Option Address) :
    Option (CacheManager K × Option Obj) :=
  match data with
  | none => some (m,none)
  | some data => do
    let (m,made) ← m.makeCobj data size ob
    match made with
    | none => some (m,none)
    | some cobj =>
      if m.cacheMap.find key ≠ none then some (m.destroy cobj,none)
      else
        let m := { m with cacheMap := m.cacheMap.insert key cobj }
        let m := { m with objs := m.objs.acquire cobj }
        let (queue,objs) := m.cachePriorityQueue.insert m.objs key cobj
        let m := { m with cachePriorityQueue := queue, objs := objs }
        some ({ m with waterMark := m.waterMark + (m.objs cobj).size },some cobj)

def dropAll : Nat → CacheManager K → Option (CacheManager K)
  | 0, _ => none
  | fuel + 1, m => match m.evict with
    | none => some m
    | some m => dropAll fuel m

def flushAll (m : CacheManager K) : Option (CacheManager K) :=
  let m := m.flushPendingObjs.1
  dropAll (m.cachePriorityQueue.size.toNat + 1) m

/- How often an object was handed out and not released. -/
def outstanding (trace : List Event) (o : Obj) : Int :=
  trace.count (.handOut o) - trace.count (.release o)

def handOut (r : CacheManager K × Option Obj) : CacheManager K :=
  match r.2 with
  | none => r.1
  | some o => r.1.emit (.handOut o)

end CacheManager

inductive Act (K : Type*) where
  | put (key : K) (data : Option Address) (size : BitVec 64) (ob : Option Address)
  | get (key : K)
  | release (cobj : Obj)
  | flush
  | flushAll

/- A caller releases only what it has been handed and has not released yet. -/
def step {K : Type*} [LinearOrder K] (m : CacheManager K) : Act K → Option (CacheManager K)
  | .put key data size ob => (m.putI key data size ob).map .handOut
  | .get key => some (.handOut (m.getI key))
  | .release o =>
    if 0 < CacheManager.outstanding m.trace o then
      some { m.emit (.release o) with objs := m.objs.release o }
    else none
  | .flush => some m.flushI.1
  | .flushAll => m.flushAll

end CuteNdk.Cache
