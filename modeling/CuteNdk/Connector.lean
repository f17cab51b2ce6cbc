import CuteNdk.Lib.Partial
import CuteNdk.EpollDispatch

/-! connector and acceptor: the svc_handlers they are given, the nonblocking_connect_handler
that stands for one in the reactor while its connect is under way, and the timer of that.
The reactor's table is that of the epoll reactor. Of the timers only who each id calls is
kept, all of them for one call. A result of none is an assertion that fails, or a use of an
object that is gone. -/
namespace CuteNdk.Connector
open Reactor (Handle EventHandler Mask UnixReactor InterestSet linux registerHandlerI removeHandlerI bitEnabled)
open Lib

abbrev TimerId := Nat

/- A svc_handler whose connect has not ended; that has been opened; or that has been told
of a timeout and goes on. -/
inductive Phase where | connecting | opened | timedOut deriving DecidableEq, Repr

inductive Object where
  | connect (timerId : Option TimerId) (svcHandler : Option EventHandler)
  | svc (peer : Option Handle) (phase : Phase)
  deriving DecidableEq, Repr

/- sockets are the descriptors that are open. given are the svc_handlers connect and accept
have been given, answers how often each was opened, closed or told of a timeout. -/
structure State where
  made : Nat
  objects : EventHandler → Option Object
  reactor : UnixReactor InterestSet
  timers : TimerId → Option EventHandler
  sockets : Handle → Bool
  given : List EventHandler
  answers : EventHandler → Nat

def State.new (size : Int) : State :=
  ⟨0,fun _ => none,Reactor.opened size,fun _ => none,fun _ => false,[],fun _ => 0⟩

def allAndDontCall : Mask := Mask.allEvents ||| Mask.dontCall

namespace State

def put (s : State) (e : EventHandler) (o : Object) : State :=
  { s with objects := Function.update s.objects e (some o) }

def answer (s : State) (v : EventHandler) : State :=
  { s with answers := Function.update s.answers v (s.answers v + 1) }

/- What the kernel does with a descriptor that is closed: it drops out of the epoll set. -/
def closeSocket (s : State) (h : Handle) : State :=
  { s with
    reactor := ⟨s.reactor.rep,Function.update s.reactor.kernel h none⟩
    sockets := Function.update s.sockets h false }

/- svc_handler::destroy, which deletes it: its destructor calls shutdown. -/
def destroy (s : State) (v : EventHandler) : Option State :=
  match s.objects v with
  | some (.svc peer _) =>
    let s := { s with
      objects := Function.update s.objects v none
      timers := fun t => if s.timers t = some v then none else s.timers t }
    some (match peer with
      | some h => closeSocket { s with reactor := (removeHandlerI linux id s.reactor h allAndDontCall).1 } h
      | none => s)
  | _ => none

/- svc_handler::close, and handle_close, which both come to destroy. -/
def close (s : State) (v : EventHandler) : Option State := (s.destroy v).map fun s => s.answer v

/- What the open of a svc_handler does: it may register for reading; its result. -/
structure Opening where
  registers : Bool
  result : Int
  deriving DecidableEq, Repr

def openSvc (s : State) (v : EventHandler) (o : Opening) : Option State :=
  match s.objects v with
  | some (.svc peer _) =>
    let s := s.put v (.svc peer .opened)
    some (match peer with
      | some h => if o.registers then { s with reactor := (registerHandlerI linux s.reactor h (some v) Mask.read).1 } else s
      | none => s)
  | _ => none

/- remove_handler of nonblocking_connect_handler::close: the handle is its svc_handler's. -/
def unregister (s : State) (v : EventHandler) : Option (State × Int) :=
  match s.objects v with
  | some (.svc (some h) _) =>
    let (reactor,result) := removeHandlerI linux id s.reactor h allAndDontCall
    some ({ s with reactor := reactor },if result = -1 then -1 else 0)
  | some (.svc none _) => some (s,0)
  | _ => none

/- nonblocking_connect_handler::close. -/
def closeConnect (s : State) (n : EventHandler) : Option (State × Option EventHandler × Int) :=
  match s.objects n with
  | some (.connect _ none) => some (s,none,-1)
  | some (.connect timerId (some v)) =>
    let s := s.put n (.connect timerId none)
    match timerId with
    | some t =>
      if s.timers t = none then some (s,some v,-1)
      else
        let s := { s with timers := Function.update s.timers t none }
        (unregister (s.put n (.connect none none)) v).map fun (s,result) => (s,some v,result)
    | none => (unregister s v).map fun (s,result) => (s,some v,result)
  | _ => none

/- assert(result == 0); delete this. -/
def deleteConnect (s : State) (n : EventHandler) (result : Int) : Option State :=
  if result = 0 then some { s with objects := Function.update s.objects n none } else none

/- handle_input and handle_close of nonblocking_connect_handler. -/
def handleInput (s : State) (n : EventHandler) : Option State := do
  let (s,sh,result) ← s.closeConnect n
  let s ← match sh with
    | some v => s.close v
    | none => some s
  s.deleteConnect n result

/- connector::init_svc_handler; remote is whether get_remote_addr succeeds. -/
def initSvcHandler (s : State) (v : EventHandler) (h : Handle) (remote : Bool) (o : Opening) : Option State :=
  match s.objects v with
  | some (.svc _ phase) => do
    let s := s.put v (.svc (some h) phase)
    if remote then
      let s ← s.openSvc v o
      if o.result = 0 then some (s.answer v) else s.close v
    else s.close v
  | _ => none

def handleOutput (s : State) (n : EventHandler) (h : Handle) (remote : Bool) (o : Opening) : Option State := do
  let (s,sh,result) ← s.closeConnect n
  let s ← match sh with
    | some v => s.initSvcHandler v h remote o
    | none => some s
  s.deleteConnect n result

/- The svc_handler is told of the timeout; failed is whether its handle_timeout returns -1. -/
def tellTimeout (s : State) (v : EventHandler) (failed : Bool) : Option State :=
  if failed then s.close v
  else match s.objects v with
    | some (.svc peer _) => some ((s.put v (.svc peer .timedOut)).answer v)
    | _ => none

def handleTimeout (s : State) (n : EventHandler) (failed : Bool) : Option State :=
  match s.objects n with
  | some (.connect _ sh) => do
    let (s,sh,result) ← (s.put n (.connect none sh)).closeConnect n
    let s ← match sh with
      | some v => s.tellTimeout v failed
      | none => some s
    s.deleteConnect n result
  | _ => none

/- The timeout connect is given, and what schedule_timer returns, with none for -1. -/
inductive Timeout where
  | never
  | zero
  | after (timerId : Option TimerId)
  deriving DecidableEq, Repr

/- A svc_handler made for connect or by make_svc_handler. -/
def make (s : State) (peer : Option Handle) : State :=
  { s.put s.made (.svc peer .connecting) with
    made := s.made + 1
    sockets := fun h => peer = some h ∨ s.sockets h
    given := s.made :: s.given }

def nonblockingConnect (s : State) (v : EventHandler) (h : Handle) (timeout : Timeout) : Option State :=
  let n := s.made
  let s := { s.put n (.connect none (some v)) with made := s.made + 1 }
  let (reactor,result) := registerHandlerI linux s.reactor h (some n) Mask.connect
  if result = -1 then none
  else
    let s := { s with reactor := reactor }
    match timeout with
    | .after (some t) => some { s.put n (.connect (some t) (some v)) with timers := Function.update s.timers t (some n) }
    | .after none => none
    | _ => some s

/- What connect_i comes to: -1 with an errno other than EINPROGRESS, and the socket if it
is still open; 0; or EINPROGRESS. -/
inductive Connected where
  | failed (peer : Option Handle)
  | done (h : Handle) (o : Opening)
  | inProgress (h : Handle) (timeout : Timeout)
  deriving DecidableEq, Repr

def Connected.peer : Connected → Option Handle
  | .failed peer => peer
  | .done h _ | .inProgress h _ => some h

def connect (s : State) (c : Connected) : Option State :=
  let v := s.made
  let s := s.make c.peer
  match c with
  | .failed _ => s.close v
  | .done _ o => do
    let s ← s.openSvc v o
    if o.result ≠ 0 then s.close v else some (s.answer v)
  | .inProgress h timeout => if timeout = .zero then s.close v else s.nonblockingConnect v h timeout

/- One turn of acceptor::handle_input. -/
def accept (s : State) (h : Handle) (o : Opening) : Option State := do
  let v := s.made
  let s ← (s.make (some h)).openSvc v o
  if o.result = -1 then s.close v else some (s.answer v)

/- The handle_close of whoever is in the table, and what remove_handler_i does after it. -/
def removed (s : State) (e : EventHandler) (h : Handle) (m : Mask) : Option State := do
  let s ← match s.objects e with
    | some (.connect _ _) => s.handleInput e
    | some (.svc _ _) => s.destroy e
    | none => none
  some { s with reactor := (removeHandlerI linux id s.reactor h m).1 }

end State
open State

/- input, output, exception and hangup are what dispatch_io_events does for a descriptor;
returned is the result of a svc_handler's handle_input. leave is a svc_handler that is
destroyed by its owner. -/
inductive Act where
  | connect (c : Connected)
  | accept (h : Handle) (o : Opening)
  | input (h : Handle) (returned : Int)
  | output (h : Handle) (remote : Bool) (o : Opening)
  | exception (h : Handle)
  | hangup (h : Handle)
  | timeout (t : TimerId) (failed : Bool)
  | leave (v : EventHandler)
  deriving DecidableEq, Repr

/- A new socket is one that is not open, and a new timer has an id that is free. -/
def Possible (s : State) (c : Connected) : Prop :=
  (∀ h ∈ c.peer, s.sockets h = false) ∧ match c with
    | .inProgress _ (.after (some t)) => s.timers t = none
    | _ => True

instance (s : State) (c : Connected) : Decidable (Possible s c) := by
  unfold Possible
  cases c with
  | inProgress h timeout =>
    cases timeout with
    | after timerId => cases timerId <;> infer_instance
    | _ => infer_instance
  | _ => infer_instance

def act (s : State) : Act → Option (Option State)
  | .connect c => if Possible s c then some (s.connect c) else none
  | .accept h o => if s.sockets h = false then some (s.accept h o) else none
  | .input h returned =>
    match s.reactor.rep.find h with
    | some e =>
      if bitEnabled (s.reactor.rep.mask h) (Mask.read ||| Mask.accept ||| Mask.connect) then
        some (match s.objects e with
          | some (.connect _ _) => s.handleInput e
          | some (.svc _ _) => if returned < 0 then s.removed e h Mask.read else some s
          | none => none)
      else none
    | none => none
  | .output h remote o =>
    match s.reactor.rep.find h with
    | some e =>
      if bitEnabled (s.reactor.rep.mask h) (Mask.write ||| Mask.connect) then
        some (match s.objects e with
          | some (.connect _ _) => s.handleOutput e h remote o
          | some (.svc _ _) => some s
          | none => none)
      else none
    | none => none
  | .exception h =>
    match s.reactor.rep.find h with
    | some e =>
      if bitEnabled (s.reactor.rep.mask h) Mask.except then
        some (match s.objects e with
          -- "not support !"
          | some (.connect _ _) => none
          | some (.svc _ _) => some s
          | none => none)
      else none
    | none => none
  | .hangup h =>
    match s.reactor.rep.find h with
    | some e => some (s.removed e h Mask.allEvents)
    | none => none
  | .timeout t failed =>
    match s.timers t with
    | some e =>
      let s := { s with timers := Function.update s.timers t none }
      some (match s.objects e with
        | some (.connect _ _) => s.handleTimeout e failed
        | some (.svc _ _) => some s
        | none => none)
    | none => none
  | .leave v =>
    match s.objects v with
    | some (.svc _ _) => some (s.destroy v)
    | _ => none

def step (o : Option State) (a : Act) : Option (Option State) := o.bind fun s => act s a

/- The socket is one the table has room for, and schedule_timer succeeds; and no
svc_handler is destroyed while its connect is under way. -/
def Fine (s : State) : Act → Prop
  | .connect (.inProgress h timeout) =>
    timeout ≠ .zero → s.reactor.rep.handleInRange h ∧ timeout ≠ .after none
  | .leave v => ∀ peer, s.objects v ≠ some (.svc peer .connecting)
  | _ => True

end CuteNdk.Connector
