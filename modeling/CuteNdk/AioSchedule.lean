import CuteNdk.AioStart
import CuteNdk.AioCancel
import CuteNdk.AioTake
import CuteNdk.AioRunning
import CuteNdk.Lib.Run

/-! asynch_file_io with its callers and svc threads: wherever their calls meet, each
request start_aio accepted is in one place, and its callback is made once at most. -/
namespace CuteNdk.AsynchFileIo
open Lib

/- Where a svc thread is in handle_aio_requests. called: the callback of aioopt is
made, its entry not dequeued yet. -/
structure Batch where
  runningList : Ptr
  aioopt : Option Ptr
  called : Bool
  deriving DecidableEq, Repr

/- starting: the callers of start_aio that have a node and wait for queue_list_mtx_.
The accepted requests are numbered in their order; request is that of a node. -/
structure Tracked where
  io : AsynchFileIo
  starting : List (Ptr × Request)
  threadNum : Nat
  threads : Nat → Option Batch
  request : Ptr → Nat
  accepted : Nat
  callbacks : List Nat
  completed : List Nat
  cancelled : List Nat

/- A start_aio is two steps, start up to its guard and link from there on. -/
inductive Op where
  | start (r : Request)
  | link (i : Nat)
  | cancel (handle : Handle) (id : Int)
  | take (t : Nat)
  | callback (t : Nat) (result errno : Int)
  | dequeue (t : Nat)
  | free (t : Nat)
  deriving DecidableEq, Repr

namespace Tracked

def make (maxQueueSize : BitVec 64) (size : Int) (threadNum : Nat) : Tracked where
  io := AsynchFileIo.make maxQueueSize size
  starting := []
  threadNum := threadNum
  threads := fun _ => none
  request := fun _ => 0
  accepted := 0
  callbacks := []
  completed := []
  cancelled := []

def set (s : Tracked) (t : Nat) (b : Option Batch) : Tracked := { s with threads := Function.update s.threads t b }

def start (s : Tracked) (r : Request) : Tracked :=
  if s.io.Startable r then
    match s.io.allocAioOpt with
    | none => s
    | some (p,io) => { s with io := io, starting := s.starting ++ [(p,r)] }
  else s

def link (s : Tracked) (i : Nat) : Option Tracked :=
  match s.starting[i]? with
  | none => some s
  | some (p,r) => (s.io.startAio p r).map fun io => { s with
      io := io
      starting := s.starting.eraseIdx i
      request := Function.update s.request p s.accepted
      accepted := s.accepted + 1 }

def cancel (s : Tracked) (handle : Handle) (id : Int) : Option Tracked :=
  if s.io.Cancellable handle id then
    (s.io.cancelAio handle id).map fun out => { s with
      io := out.2.2
      cancelled := out.2.1.toList.map s.request ++ s.cancelled }
  else some s

def take (s : Tracked) (t : Nat) : Option Tracked :=
  if t < s.threadNum ∧ s.threads t = none ∧ s.io.queueList ≠ none then
    s.io.takeSome.map fun out => { s with io := out.2 }.set t (some ⟨out.1,some out.1,false⟩)
  else some s

def callback (s : Tracked) (t : Nat) (result errno : Int) : Option Tracked :=
  match s.threads t with
  | some ⟨first,some p,false⟩ => (s.io.perform p result errno).map fun out =>
      { s with io := out.2.2, callbacks := s.request p :: s.callbacks }.set t (some ⟨first,some p,true⟩)
  | _ => some s

def dequeue (s : Tracked) (t : Nat) : Option Tracked :=
  match s.threads t with
  | some ⟨first,some p,true⟩ => (s.io.dequeueFromRunningList p).map fun io =>
      { s with io := io, completed := s.request p :: s.completed }.set t (some ⟨first,io.next p,false⟩)
  | _ => some s

def free (s : Tracked) (t : Nat) : Option Tracked :=
  match s.threads t with
  | some ⟨first,none,_⟩ => (s.io.freeAioOptN first).map fun io => { s with io := io }.set t none
  | _ => some s

end Tracked

/- A step the caller or thread is not at changes nothing; none is undefined
behaviour or an assertion that fails. -/
def step (s : Tracked) : Op → Option Tracked
  | .start r => some (s.start r)
  | .link i => s.link i
  | .cancel handle id => s.cancel handle id
  | .take t => s.take t
  | .callback t result errno => s.callback t result errno
  | .dequeue t => s.dequeue t
  | .free t => s.free t

/- queue_list_, and the requests of a top node. -/
def topNodes (io : AsynchFileIo) : List Ptr := walk io.next io.made io.queueList

def queueOf (io : AsynchFileIo) (top : Ptr) : List Ptr := top :: walk io.next io.made (io.header top)

def waiting (io : AsynchFileIo) : List Ptr := io.topNodes.flatMap io.queueOf

namespace Tracked

/- The requests a thread has taken that are not done. -/
def batch (s : Tracked) (t : Nat) : List Ptr :=
  match s.threads t with
  | none => []
  | some b => walk s.io.next s.io.made b.aioopt

def running (s : Tracked) : List Ptr := (List.range s.threadNum).flatMap s.batch

end Tracked

structure Scheduled (s : Tracked) : Prop where
  once : (s.io.waiting.map s.request ++ s.running.map s.request ++ s.completed ++ s.cancelled).Perm
    (List.range s.accepted)
  callbacks : s.callbacks.Nodup
  notCancelled : ∀ n ∈ s.callbacks, n ∉ s.cancelled
  completed : ∀ n ∈ s.completed, n ∈ s.callbacks
  queue : Dll s.io.next s.io.prev s.io.queueList s.io.topNodes.getLast? s.io.topNodes
  sorted : s.io.topNodes.Pairwise fun a b => (s.io.opt b).fdPrio ≤ (s.io.opt a).fdPrio
  pool : ∀ h, s.io.topNodes.filter (fun a => (s.io.opt a).handle = h) = (s.io.fdPool h).toList
  queued : ∀ h top, s.io.fdPool h = some top → ∀ a ∈ s.io.waiting, (s.io.opt a).handle = h →
    (s.io.queueOf top).count a = 1
  prio : ∀ h top, s.io.fdPool h = some top →
    (s.io.queueOf top).Pairwise fun a b => (s.io.opt b).ioPrio ≤ (s.io.opt a).ioPrio

end CuteNdk.AsynchFileIo
