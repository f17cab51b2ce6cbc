import CuteNdk.SerialFileTransfer
import Mathlib.Logic.Function.Basic

/-! Who owns a serial_file_transfer: handle_request of http_client makes it and hands
it to a job of dispatch_data_task, delete_client and dispatch_data close and delete
it, and asynch_file_io calls it back. The reactor, the dispatching thread and the
threads of asynch_file_io run side by side; a step is what one of them does under a
mutex. A result of none is a use of an agent, or of a client, that is gone. -/
namespace CuteNdk.DispatchData
open SerialFileTransfer (Byte Place)

def intMax : Int := 2147483647

/- A request asynch_file_io has: its id, the descriptor, and the transfer that is
the handler. -/
structure Aio where
  id : Int
  handle : Int
  agent : Nat
  deriving DecidableEq, Repr

/- A serial_file_transfer with what it reads. aioId is aio_id_; that of the transfer
is what was asked for. -/
structure Agent where
  transfer : SerialFileTransfer.State
  file : List Byte
  handle : Int
  aioId : Int
  cancelPendding : Bool

/- What handle_request asks for. -/
structure Order where
  file : List Byte
  handle : Int
  beginPos : Nat
  contentLength : Nat
  deriving DecidableEq, Repr

/- The client of the agent is the one whose request the agent was made for. -/
structure Job where
  sessionId : Int
  agent : Nat
  closePending : Bool
  stopped : Bool
  deriving DecidableEq, Repr

/- A client that is connected, by its session and its request. -/
structure Client where
  sessionId : Int
  request : Nat
  deriving DecidableEq, Repr

/- handle_request between open of the agent and its return. -/
structure Serving where
  sessionId : Int
  agent : Nat
  responded : Bool
  deriving DecidableEq, Repr

/- called are the requests of the running list whose callback is through. visiting
is the iterator of dispatch_data, which holds dispatch_queue_mtx_ while it is there.
released are the clients whose delete_client has returned, and late those of them
that dispatch_data used afterwards. -/
structure State where
  agents : Nat → Option Agent
  made : Nat
  deleted : List Nat
  idItor : Int
  waiting : List Aio
  running : List Aio
  called : List Aio
  sessionIds : Int
  clients : List Client
  serving : List Serving
  jobs : List Job
  visiting : Option Nat
  released : List Nat
  late : List Nat

def idle : State where
  agents := fun _ => none
  made := 0
  deleted := []
  idItor := 0
  waiting := []
  running := []
  called := []
  sessionIds := 0
  clients := []
  serving := []
  jobs := []
  visiting := none
  released := []
  late := []

/- The reads that are waiting or running. -/
def State.outstanding (s : State) : List Aio := s.waiting ++ s.running

def State.owners (s : State) : List Nat := s.serving.map (·.agent) ++ s.jobs.map (·.agent)

def State.setAgent (s : State) (a : Nat) (ag : Agent) : State :=
  { s with agents := Function.update s.agents a (some ag) }

def State.deleteAgent (s : State) (a : Nat) : Option State :=
  (s.agents a).map fun _ => { s with agents := Function.update s.agents a none, deleted := a :: s.deleted }

/- dispatch_data uses the client of a job. -/
def State.touch (s : State) (j : Job) : State :=
  if j.agent ∈ s.released then { s with late := j.agent :: s.late } else s

/- start_aio, for a transfer that has begun a read. -/
def State.startAio (s : State) (a : Nat) (ag : Agent) : State :=
  let id := s.idItor + 1
  { s.setAgent a { ag with aioId := id } with
    idItor := if id = intMax then 0 else id
    waiting := s.waiting ++ [⟨id,ag.handle,a⟩] }

/- cancel_aio: whether it answers AIO_CANCELED. -/
def State.cancelAio (s : State) (handle id : Int) : Bool × State :=
  (!(s.running ++ s.called).any (fun r => r.id == id),
    { s with waiting := s.waiting.eraseP fun r => r.handle == handle && r.id == id })

/- close of the transfer: whether it returns 0. -/
def State.close (s : State) (a : Nat) : Option (Bool × State) :=
  (s.agents a).map fun ag =>
    let (canceled,s) := if ag.aioId = -1 then (true,s) else s.cancelAio ag.handle ag.aioId
    (canceled,s.setAgent a { ag with cancelPendding := !canceled })

/- handle_aio_read, behind the pread into the reserve buffer. -/
def Agent.handleAioRead (blockSize : Nat) (ag : Agent) (fails : Bool) : Option Agent :=
  if ag.cancelPendding then
    some { ag with
      transfer := { ag.transfer with transfer := { ag.transfer.transfer with aioId := none } }
      aioId := -1 }
  else
    (SerialFileTransfer.step ag.file blockSize ag.transfer (if fails then .aioFails else .aioRead)).map fun t =>
      { ag with transfer := t, aioId := -1 }

/- What comes of session_ids_ += 2. -/
def nextSession (sessionIds : Int) : Int := (sessionIds + 2).bmod 4294967296

/- A request for a file on disk, up to the response to the client. -/
def request (blockSize : Nat) (s : State) (o : Order) (opened started : Bool) : State :=
  let sessionId := nextSession s.sessionIds
  let a := s.made
  let s := { s with
    made := a + 1
    sessionIds := sessionId
    clients := ⟨sessionId,a⟩ :: s.clients }
  if opened then
    let ag : Agent := ⟨SerialFileTransfer.openTransfer blockSize o.beginPos o.contentLength started,o.file,o.handle,-1,false⟩
    let s := { s with serving := ⟨sessionId,a,false⟩ :: s.serving }
    if started then s.startAio a ag else s.setAgent a ag
  else { s with deleted := a :: s.deleted }

/- response_to_client; where it fails the agent is deleted. -/
def respond (s : State) (v : Serving) (sent : Bool) : Option State :=
  let s := { s with serving := s.serving.erase v }
  if sent then some { s with serving := { v with responded := true } :: s.serving } else s.deleteAgent v.agent

/- handle_start_transfer_data. -/
def pushJob (s : State) (v : Serving) : State :=
  { s with serving := s.serving.erase v, jobs := s.jobs ++ [⟨v.sessionId,v.agent,false,false⟩] }

/- delete_client_i. -/
def deleteClient (s : State) (sessionId : Int) : Option State :=
  let itor := s.jobs.findIdx (fun j => j.sessionId == sessionId)
  match s.jobs[itor]? with
  | none => some s
  | some j =>
    match s.close j.agent with
    | none => none
    | some (false,s) => some { s with jobs := s.jobs.set itor { j with closePending := true } }
    | some (true,s) =>
      if j.agent ∈ s.released then none
      else (s.deleteAgent j.agent).map fun s => { s with jobs := s.jobs.eraseIdx itor }

/- The destructor of the client. -/
def disconnect (s : State) (c : Client) : Option State :=
  (deleteClient s c.sessionId).map fun s =>
    { s with clients := s.clients.erase c, released := c.request :: s.released }

/- dispatch_data at a job that is to be closed. -/
def retryClose (s : State) (itor : Nat) (j : Job) : Option State :=
  match s.close j.agent with
  | none => none
  | some (true,s) => (s.deleteAgent j.agent).map fun s => { s with jobs := s.jobs.eraseIdx itor }
  | some (false,s) => some { s with visiting := some (itor + 1) }

/- The call asks the client for its handle. -/
def State.asks (s : State) (j : Job) : SerialFileTransfer.Act → State
  | .call _ _ => s.touch j
  | _ => s

/- A piece of transfer_data. -/
def transferData (blockSize : Nat) (s : State) (j : Job) (a : SerialFileTransfer.Act) : Option (Option State) :=
  match s.agents j.agent with
  | none => some none
  | some ag =>
    (SerialFileTransfer.step ag.file blockSize ag.transfer a).map fun t =>
      let s := s.asks j a
      let ag' := { ag with transfer := t }
      some (if ag.transfer.transfer.aioId = none ∧ t.transfer.aioId ≠ none then s.startAio j.agent ag'
        else s.setAgent j.agent ag')

/- dispatch_data stops a job whose last call returned less than 0 or that has sent
all of its content. -/
def stop (s : State) (itor : Nat) (j : Job) (result : Int) : State :=
  let s := if result < 0 ∧ result ≠ -1 then s.touch j else s
  { s with jobs := s.jobs.set itor { j with stopped := true }, visiting := some (itor + 1) }

def complete (blockSize : Nat) (s : State) (r : Aio) (fails : Bool) : Option (Option State) :=
  match s.agents r.agent with
  | none => some none
  | some ag =>
    if ag.transfer.transfer.reserveBuffer = none ∨ ag.aioId ≠ r.id then some none
    else (ag.handleAioRead blockSize fails).map fun ag =>
      some { s.setAgent r.agent ag with running := s.running.erase r, called := r :: s.called }

inductive Act where
  | request (o : Order) (opened started : Bool)
  | respond (v : Serving) (sent : Bool)
  | push (v : Serving)
  | disconnect (c : Client)
  | tick
  | retryClose
  | transfer (a : SerialFileTransfer.Act)
  | stop
  | pass
  | leave
  | take (r : Aio)
  | complete (r : Aio) (fails : Bool)
  | dequeue (r : Aio)
  deriving DecidableEq, Repr

/- The transfer is in none of its loops. -/
def State.returned (s : State) (a : Nat) : Bool :=
  match (s.agents a).map (·.transfer.place) with
  | some (Place.loop _ _) => false
  | _ => true

def ofCallback : SerialFileTransfer.Act → Bool
  | .aioRead => true
  | .aioFails => true
  | _ => false

/- The job the iterator is at. -/
def State.job (s : State) : Option (Nat × Job) :=
  s.visiting.bind fun itor => s.jobs[itor]?.map fun j => (itor,j)

/- The steps of dispatch_data. A job is passed when it is stopped, out of its
bandwidth or blocked. -/
def dispatch (blockSize : Nat) (s : State) (itor : Nat) (j : Job) : Act → Option (Option State)
  | .retryClose => if j.closePending then some (retryClose s itor j) else none
  | .transfer a =>
    if j.closePending = false ∧ j.stopped = false ∧ ofCallback a = false then transferData blockSize s j a else none
  | .stop =>
    if j.closePending = false ∧ j.stopped = false then
      match s.agents j.agent with
      | none => some none
      | some ag =>
        match ag.transfer.place with
        | .loop _ _ => none
        | .returned result =>
          if result < 0 ∨ ag.transfer.transfer.transferBytes = ag.transfer.transfer.contentLength then
            some (some (stop s itor j result))
          else none
    else none
  | .pass =>
    if j.closePending = false ∧ s.returned j.agent then some (some { s with visiting := some (itor + 1) }) else none
  | _ => none

/- A step that is not to be made is none; the inner none is a use of what is gone. -/
def step (blockSize : Nat) (o : Option State) (a : Act) : Option (Option State) :=
  match o with
  | none => none
  | some s => match a with
    | .request o opened started =>
      if 0 < o.handle then some (some (request blockSize s o opened started)) else none
    | .respond v sent =>
      if v ∈ s.serving ∧ v.responded = false then some (respond s v sent) else none
    | .push v =>
      if v ∈ s.serving ∧ v.responded = true ∧ s.visiting = none then some (some (pushJob s v)) else none
    | .disconnect c =>
      if c ∈ s.clients ∧ c.request ∉ s.serving.map (·.agent) ∧ s.visiting = none then some (disconnect s c) else none
    | .tick => if s.visiting = none then some (some { s with visiting := some 0 }) else none
    | .leave =>
      if s.visiting.isSome ∧ s.job = none then some (some { s with visiting := none }) else none
    | .take r =>
      if r ∈ s.waiting then some (some { s with waiting := s.waiting.erase r, running := r :: s.running }) else none
    | .complete r fails => if r ∈ s.running then complete blockSize s r fails else none
    | .dequeue r => if r ∈ s.called then some (some { s with called := s.called.erase r }) else none
    | a => s.job.bind fun at_ => dispatch blockSize s at_.1 at_.2 a

end CuteNdk.DispatchData
