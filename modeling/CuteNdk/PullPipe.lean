import Mathlib.Data.List.Basic
import Mathlib.Logic.Function.Basic

/-! The pull path of fcache: handle_content of pull_http_agent writes what the
origin sends into pipe buffers of one chunk each, transfer_data of
pull_file_transfer reads them and sends to the client. The two run in threads of
their own; a step is one block under a mutex, one send, or one receive. A result
of none is a use of a pipe buffer that is gone. -/
namespace CuteNdk.PullPipe

variable {α : Type}

def pipeChunkSize : Nat := 1024 * 1024
def onceTransferPacketSize : Nat := 4096
def recvBuffSize : Nat := 1024 * 32

/- wr_ptr_ is how much data there is. -/
structure PipeBuffer (α : Type) where
  chunkId : Nat
  refCount : Nat
  bufferSize : Nat
  data : List α
  deriving DecidableEq, Repr

def PipeBuffer.make (chunkId contentLength : Nat) : PipeBuffer α := ⟨chunkId,0,contentLength,[]⟩

def PipeBuffer.write (p : PipeBuffer α) (bf : List α) : Nat × PipeBuffer α :=
  if p.bufferSize ≤ p.data.length then (0,p)
  else
    let len := min bf.length (p.bufferSize - p.data.length)
    (len,{ p with data := p.data ++ bf.take len })

def PipeBuffer.read (p : PipeBuffer α) (rOffset bytesToRead : Nat) : List α :=
  if bytesToRead = 0 ∨ p.data.length ≤ rOffset then []
  else (p.data.drop rOffset).take (min bytesToRead (p.data.length - rOffset))

def PipeBuffer.eof (p : PipeBuffer α) : Bool := decide (p.bufferSize ≤ p.data.length)

/- file_info: the pipe buffers there are, by the order they were made in, and the
one registered for each chunk. -/
structure FileInfo (α : Type) where
  pipes : Nat → Option (PipeBuffer α)
  pipeBuffers : Nat → Option Nat
  made : Nat

def FileInfo.set (f : FileInfo α) (id : Nat) (p : PipeBuffer α) : FileInfo α :=
  { f with pipes := Function.update f.pipes id (some p) }

/- release_pipe_buffer, then delete. -/
def FileInfo.release (f : FileInfo α) (id chunkId : Nat) : FileInfo α :=
  { f with
    pipes := Function.update f.pipes id none
    pipeBuffers := Function.update f.pipeBuffers chunkId none }

/- open of the pipe buffer. -/
def FileInfo.addRef (f : FileInfo α) (id : Nat) : Option (FileInfo α) :=
  (f.pipes id).map fun p => f.set id { p with refCount := p.refCount + 1 }

/- create_pipe_buffer, open, insert_pipe_buffer. -/
def FileInfo.create (f : FileInfo α) (chunkId size : Nat) : FileInfo α :=
  { f with
    pipes := Function.update f.pipes f.made (some { PipeBuffer.make chunkId size with refCount := 1 })
    pipeBuffers := Function.update f.pipeBuffers chunkId (some f.made)
    made := f.made + 1 }

/- close. started is whether start_aio takes the write of the chunk to disk. -/
def FileInfo.close (f : FileInfo α) (id : Nat) (started : Bool) : Option (FileInfo α) :=
  (f.pipes id).map fun p =>
    let refCount := p.refCount - 1
    if refCount = 0 then
      if p.data.length = 0 then f.release id p.chunkId
      else f.set id { p with refCount := if started then 0 else 1 }
    else f.set id { p with refCount := refCount }

/- handle_aio_write, at its end. -/
def FileInfo.written (f : FileInfo α) (id : Nat) : FileInfo α :=
  match f.pipes id with
  | some p => if p.refCount = 0 then f.release id p.chunkId else f
  | none => f

/- Where transfer_data is. first is whether read_pipe_buffer was called at its
head, where what it returns is not looked at. -/
inductive ReaderPc where
  | returned
  | reading (first : Bool)
  | checking (first : Bool)
  | renewing (first : Bool)
  | resuming (first : Bool)
  | sending (maxSize : Int) (transferBytes : Nat)
  deriving DecidableEq, Repr

/- pull_file_transfer. jobStopped is that the job of the transfer is stopped: its last
call returned less than 0, or everything is transferred. -/
structure PullFileTransfer (α : Type) where
  chunkId : Nat
  started : Bool
  firstChunk : Bool
  rdOffset : Nat
  sendBytes : Nat
  buffer : List α
  transferBytes : Nat
  remaindLength : Nat
  pipeBuffer : Option Nat
  jobStopped : Bool
  pc : ReaderPc
  deriving DecidableEq, Repr

/- The transfer as handle_start_transfer_data leaves it. -/
def PullFileTransfer.make (beginPos remaindLength id : Nat) : PullFileTransfer α where
  chunkId := beginPos / pipeChunkSize
  started := true
  firstChunk := true
  rdOffset := 0
  sendBytes := 0
  buffer := []
  transferBytes := 0
  remaindLength := remaindLength
  pipeBuffer := some id
  jobStopped := false
  pc := .returned

/- Where handle_content is. -/
inductive WriterPc where
  | returned
  | entered
  | holding
  | full
  | noting
  | finishing
  | stopped
  deriving DecidableEq, Repr

/- pull_http_agent once the header is through: recvBuff is what lies between rd_ptr
and wr_ptr, and suspended the state of the handle in the reactor. -/
structure PullHttpAgent (α : Type) where
  chunkId : Nat
  suspend : Bool
  suspended : Bool
  recvedFirstPackage : Bool
  recvBytes : Nat
  rdPtr : Nat
  recvBuff : List α
  pipeBuffer : Option Nat
  pc : WriterPc
  deriving DecidableEq, Repr

def PullHttpAgent.space (a : PullHttpAgent α) : Nat := recvBuffSize - (a.rdPtr + a.recvBuff.length)

/- rd_ptr(n), and reset when nothing is left. -/
def PullHttpAgent.consume (a : PullHttpAgent α) (n : Nat) : PullHttpAgent α :=
  if n = 0 then a
  else if a.recvBuff.length = n then { a with rdPtr := 0, recvBuff := [] }
  else { a with rdPtr := a.rdPtr + n, recvBuff := a.recvBuff.drop n }

/- The request that is pulled, and the content the origin sends for it, of the
length its header said. -/
structure Pull (α : Type) where
  beginPos : Nat
  bytesToTransfer : Nat
  blockSize : Nat
  content : List α

/- received is how much of the content has come in; the logs are the bytes passed
to the pipe buffers, read from them and accepted by the client. notices are the
resumptions asked for. -/
structure State (α : Type) where
  file : FileInfo α
  agent : PullHttpAgent α
  transfer : Option (PullFileTransfer α)
  received : Nat
  notices : Nat
  written : List α
  readBytes : List α
  accepted : List α

/- As handle_response leaves it: with the first pipe buffer, and with what came in
behind a header of headerLen bytes. -/
def start (p : Pull α) (headerLen attached : Nat) : State α where
  file := FileInfo.create ⟨fun _ => none,fun _ => none,0⟩ (p.beginPos / pipeChunkSize)
    (min pipeChunkSize p.content.length)
  agent := {
    chunkId := p.beginPos / pipeChunkSize + 1
    suspend := false
    suspended := false
    recvedFirstPackage := false
    recvBytes := 0
    rdPtr := if attached = 0 then 0 else headerLen
    recvBuff := p.content.take attached
    pipeBuffer := some 0
    pc := if attached = 0 then .returned else .entered }
  transfer := none
  received := attached
  notices := 0
  written := []
  readBytes := []
  accepted := []

/- The steps of handle_input and handle_content, then those of transfer_data. -/
inductive Act where
  | receive (n : Nat)
  | again
  | enter
  | write
  | shut (started session suspends : Bool)
  | note (session : Bool)
  | finish (started : Bool)
  | resume
  | call (maxSize : Int)
  | read
  | checkEof
  | renew (started : Bool)
  | notify (sent : Bool) (started : Bool)
  | accept (n : Nat)
  | wouldBlock
  | sendFails
  | finishTransfer (started : Bool)
  | aioWritten (id : Nat)
  deriving DecidableEq, Repr

/- handle_content up to the pipe buffer it writes to. -/
def enter (s : State α) : Option (State α) :=
  match s.agent.pipeBuffer with
  | some _ => some { s with agent := { s.agent with pc := .holding } }
  | none =>
    match s.file.pipeBuffers s.agent.chunkId with
    | none => some { s with agent := { s.agent with pc := .stopped } }
    | some id => (s.file.addRef id).map fun file =>
        { s with
          file := file
          agent := { s.agent with pipeBuffer := some id, chunkId := s.agent.chunkId + 1, pc := .holding } }

def write (s : State α) (id : Nat) : Option (State α) :=
  (s.file.pipes id).map fun p =>
    let (copyBytes,p) := p.write s.agent.recvBuff
    let agent := s.agent.consume copyBytes
    { s with
      file := s.file.set id p
      agent := { agent with
        recvBytes := s.agent.recvBytes + copyBytes
        pc := if copyBytes = s.agent.recvBuff.length then .noting else .full }
      written := s.written ++ s.agent.recvBuff.take copyBytes }

/- The pipe buffer is full: close it and suspend the handle. -/
def shut (s : State α) (id : Nat) (started session suspends : Bool) : Option (State α) :=
  (s.file.close id started).map fun file =>
    let s := { s with file := file, agent := { s.agent with pipeBuffer := none } }
    if session ∧ suspends then
      { s with agent := { s.agent with suspend := true, suspended := true, pc := .noting } }
    else { s with agent := { s.agent with pc := .stopped } }

/- The first package makes the transfer; after that a full pipe buffer starts it
again. -/
def note (p : Pull α) (s : State α) (session : Bool) : Option (State α) :=
  if !s.agent.recvedFirstPackage then
    let agent := { s.agent with recvedFirstPackage := true }
    match session, s.file.pipeBuffers (p.beginPos / pipeChunkSize) with
    | false, _ => some { s with agent := { agent with pc := .stopped } }
    | true, none => some { s with agent := { agent with pc := .stopped } }
    | true, some id => (s.file.addRef id).map fun file =>
        { s with
          file := file
          transfer := some (PullFileTransfer.make p.beginPos p.content.length id)
          agent := { agent with pc := .finishing } }
  else if s.agent.suspend then
    some { s with
      transfer := s.transfer.map fun t => { t with started := true }
      agent := { s.agent with suspend := false, pc := .finishing } }
  else some { s with agent := { s.agent with pc := .finishing } }

def finish (p : Pull α) (s : State α) (started : Bool) : Option (State α) :=
  if s.agent.recvBytes = p.content.length then
    match s.agent.pipeBuffer with
    | none => none
    | some id => (s.file.close id started).map fun file =>
        { s with
          file := file
          transfer := s.transfer.map fun t => { t with started := true }
          agent := { s.agent with pipeBuffer := none, pc := .stopped } }
  else some { s with agent := { s.agent with pc := .returned } }

/- The read of read_pipe_buffer. A block that is read ends the call: what it
returns at the head of transfer_data is not looked at, and at the end it is
returned. -/
def readPipe (p : Pull α) (s : State α) (t : PullFileTransfer α) (id : Nat) (first : Bool) : Option (State α) :=
  (s.file.pipes id).map fun pipe =>
    let rdOffset := if t.firstChunk then t.rdOffset + p.beginPos % pipeChunkSize else t.rdOffset
    let bytes := pipe.read rdOffset p.blockSize
    let t := { t with firstChunk := false, rdOffset := rdOffset }
    if bytes.length = 0 then { s with transfer := some { t with pc := .checking first } }
    else { s with
      transfer := some { t with buffer := bytes, rdOffset := rdOffset + bytes.length, pc := .returned }
      readBytes := s.readBytes ++ bytes }

def checkEof (s : State α) (t : PullFileTransfer α) (id : Nat) (first : Bool) : Option (State α) :=
  (s.file.pipes id).map fun pipe =>
    { s with transfer := some { t with pc := if pipe.eof then .renewing first else .returned } }

/- From the end of one pipe buffer to the insertion of the next. -/
def renew (s : State α) (t : PullFileTransfer α) (id : Nat) (first started : Bool) : Option (State α) :=
  match s.file.pipes id with
  | none => none
  | some pipe => (s.file.close id started).map fun file =>
      let remaindLength := t.remaindLength - pipe.bufferSize
      { s with
        file := file.create (t.chunkId + 1) (min pipeChunkSize remaindLength)
        transfer := some { t with
          remaindLength := remaindLength
          rdOffset := 0
          chunkId := t.chunkId + 1
          started := false
          pipeBuffer := some file.made
          pc := .resuming first } }

/- resume_handler. When the notice cannot be sent the pipe buffer is closed again. -/
def notify (s : State α) (t : PullFileTransfer α) (id : Nat) (first sent started : Bool) : Option (State α) :=
  if sent then some { s with transfer := some { t with pc := .returned }, notices := s.notices + 1 }
  else (s.file.close id started).map fun file =>
    { s with file := file, transfer := some { t with pipeBuffer := none, jobStopped := !first, pc := .returned } }

def PullFileTransfer.sends (p : Pull α) (t : PullFileTransfer α) (maxSize : Int) (transferBytes : Nat) : Prop :=
  (transferBytes : Int) < maxSize ∧ t.sendBytes < t.buffer.length ∧ t.transferBytes < p.bytesToTransfer
instance (p : Pull α) (t : PullFileTransfer α) (maxSize : Int) (transferBytes : Nat) :
    Decidable (t.sends p maxSize transferBytes) := by
  unfold PullFileTransfer.sends; infer_instance

def PullFileTransfer.packet (t : PullFileTransfer α) : Nat :=
  min onceTransferPacketSize (t.buffer.length - t.sendBytes)

/- transfer_data after its loop. -/
def finishTransfer (p : Pull α) (s : State α) (t : PullFileTransfer α) (id : Nat) (started : Bool) :
    Option (State α) :=
  if t.transferBytes = p.bytesToTransfer then (s.file.close id started).map fun file =>
    { s with
      file := file
      transfer := some { t with pipeBuffer := none, started := false, jobStopped := true, pc := .returned } }
  else if t.sendBytes = t.buffer.length then
    some { s with transfer := some { t with sendBytes := 0, buffer := [], pc := .reading false } }
  else some { s with transfer := some { t with pc := .returned } }

/- The steps of the agent. A step that is not to be made here is none; the inner
none is a pipe buffer that is gone. -/
def agentStep (p : Pull α) (s : State α) : Act → Option (Option (State α))
  | .receive n =>
    if s.agent.pc = .returned ∧ s.agent.suspended = false ∧ 0 < n ∧ n ≤ s.agent.space ∧
        s.received + n ≤ p.content.length then
      some (some { s with
        agent := { s.agent with
          recvBuff := s.agent.recvBuff ++ (p.content.drop s.received).take n
          pc := .entered }
        received := s.received + n })
    else none
  | .again =>
    if s.agent.pc = .returned ∧ s.agent.suspended = false ∧ s.agent.space = 0 ∧ 0 < s.agent.recvBuff.length then
      some (some { s with agent := { s.agent with pc := .entered } })
    else none
  | .enter => if s.agent.pc = .entered then some (enter s) else none
  | .write => match s.agent.pc, s.agent.pipeBuffer with
    | .holding, some id => some (write s id)
    | _, _ => none
  | .shut started session suspends => match s.agent.pc, s.agent.pipeBuffer with
    | .full, some id => some (shut s id started session suspends)
    | _, _ => none
  | .note session => if s.agent.pc = .noting then some (note p s session) else none
  | .finish started => if s.agent.pc = .finishing then some (finish p s started) else none
  | .resume =>
    if 0 < s.notices then
      some (some { s with agent := { s.agent with suspended := false }, notices := s.notices - 1 })
    else none
  | _ => none

/- The steps of the transfer. The assertion that it has a pipe buffer ends the
program where it fails. -/
def transferStep (p : Pull α) (s : State α) (t : PullFileTransfer α) : Act → Option (Option (State α))
  | .call maxSize => match t.pc, t.jobStopped, t.started, t.pipeBuffer with
    | .returned, false, false, _ => some (some s)
    | .returned, false, true, some _ =>
      some (some { s with transfer := some { t with
        pc := if t.buffer.length = 0 then .reading true else .sending maxSize 0 } })
    | _, _, _, _ => none
  | .read => match t.pc, t.pipeBuffer with
    | .reading first, some id => some (readPipe p s t id first)
    | _, _ => none
  | .checkEof => match t.pc, t.pipeBuffer with
    | .checking first, some id => some (checkEof s t id first)
    | _, _ => none
  | .renew started => match t.pc, t.pipeBuffer with
    | .renewing first, some id => some (renew s t id first started)
    | _, _ => none
  | .notify sent started => match t.pc, t.pipeBuffer with
    | .resuming first, some id => some (notify s t id first sent started)
    | _, _ => none
  | .accept n => match t.pc with
    | .sending maxSize transferBytes =>
      if t.sends p maxSize transferBytes ∧ n ≤ t.packet then
        some (some { s with
          transfer := some { t with
            transferBytes := t.transferBytes + n
            sendBytes := t.sendBytes + n
            pc := .sending maxSize (transferBytes + n) }
          accepted := s.accepted ++ (t.buffer.drop t.sendBytes).take n })
      else none
    | _ => none
  | .wouldBlock => match t.pc with
    | .sending maxSize transferBytes =>
      if t.sends p maxSize transferBytes then some (some { s with transfer := some { t with pc := .returned } })
      else none
    | _ => none
  | .sendFails => match t.pc with
    | .sending maxSize transferBytes =>
      if t.sends p maxSize transferBytes then
        some (some { s with transfer := some { t with jobStopped := true, pc := .returned } })
      else none
    | _ => none
  | .finishTransfer started => match t.pc, t.pipeBuffer with
    | .sending maxSize transferBytes, some id =>
      if t.sends p maxSize transferBytes then none else some (finishTransfer p s t id started)
    | _, _ => none
  | _ => none

/- Any step of either thread, or the end of a write to disk. -/
def act (p : Pull α) (s : State α) (a : Act) : Option (Option (State α)) :=
  match a with
  | .aioWritten id => some (some { s with file := s.file.written id })
  | a =>
    match agentStep p s a with
    | some s' => some s'
    | none =>
      match s.transfer with
      | some t => transferStep p s t a
      | none => none

def step (p : Pull α) (s : Option (State α)) (a : Act) : Option (Option (State α)) :=
  match s with
  | none => none
  | some s => act p s a

/- What a step of the agent does, with the conditions it is made under. -/
inductive AgentSteps (p : Pull α) (s : State α) : Act → Option (State α) → Prop
  | receive {n : Nat} (pc : s.agent.pc = .returned) (goes : s.agent.suspended = false)
      (some_ : 0 < n ∧ n ≤ s.agent.space) (within : s.received + n ≤ p.content.length) :
      AgentSteps p s (.receive n) (some { s with
        agent := { s.agent with
          recvBuff := s.agent.recvBuff ++ (p.content.drop s.received).take n
          pc := .entered }
        received := s.received + n })
  | again (pc : s.agent.pc = .returned) (goes : s.agent.suspended = false) (full : s.agent.space = 0)
      (some_ : 0 < s.agent.recvBuff.length) :
      AgentSteps p s .again (some { s with agent := { s.agent with pc := .entered } })
  | enter (pc : s.agent.pc = .entered) : AgentSteps p s .enter (PullPipe.enter s)
  | write {id : Nat} (pc : s.agent.pc = .holding) (held : s.agent.pipeBuffer = some id) :
      AgentSteps p s .write (PullPipe.write s id)
  | shut {id : Nat} {started session suspends : Bool} (pc : s.agent.pc = .full) (held : s.agent.pipeBuffer = some id) :
      AgentSteps p s (.shut started session suspends) (PullPipe.shut s id started session suspends)
  | note {session : Bool} (pc : s.agent.pc = .noting) : AgentSteps p s (.note session) (PullPipe.note p s session)
  | finish {started : Bool} (pc : s.agent.pc = .finishing) :
      AgentSteps p s (.finish started) (PullPipe.finish p s started)
  | resume (notice : 0 < s.notices) :
      AgentSteps p s .resume
        (some { s with agent := { s.agent with suspended := false }, notices := s.notices - 1 })

/- And a step of the transfer. -/
inductive TransferSteps (p : Pull α) (s : State α) (t : PullFileTransfer α) : Act → Option (State α) → Prop
  | waits {maxSize : Int} (pc : t.pc = .returned) (goesOn : t.jobStopped = false) (started : t.started = false) :
      TransferSteps p s t (.call maxSize) (some s)
  | call {maxSize : Int} {id : Nat} (pc : t.pc = .returned) (goesOn : t.jobStopped = false) (started : t.started = true)
      (held : t.pipeBuffer = some id) :
      TransferSteps p s t (.call maxSize) (some { s with transfer := some { t with
        pc := if t.buffer.length = 0 then .reading true else .sending maxSize 0 } })
  | read {first : Bool} {id : Nat} (pc : t.pc = .reading first) (held : t.pipeBuffer = some id) :
      TransferSteps p s t .read (readPipe p s t id first)
  | checkEof {first : Bool} {id : Nat} (pc : t.pc = .checking first) (held : t.pipeBuffer = some id) :
      TransferSteps p s t .checkEof (PullPipe.checkEof s t id first)
  | renew {first started : Bool} {id : Nat} (pc : t.pc = .renewing first) (held : t.pipeBuffer = some id) :
      TransferSteps p s t (.renew started) (PullPipe.renew s t id first started)
  | notify {first sent started : Bool} {id : Nat} (pc : t.pc = .resuming first) (held : t.pipeBuffer = some id) :
      TransferSteps p s t (.notify sent started) (PullPipe.notify s t id first sent started)
  | accept {maxSize : Int} {transferBytes n : Nat} (pc : t.pc = .sending maxSize transferBytes)
      (sends : t.sends p maxSize transferBytes) (fits : n ≤ t.packet) :
      TransferSteps p s t (.accept n) (some { s with
        transfer := some { t with
          transferBytes := t.transferBytes + n
          sendBytes := t.sendBytes + n
          pc := .sending maxSize (transferBytes + n) }
        accepted := s.accepted ++ (t.buffer.drop t.sendBytes).take n })
  | wouldBlock {maxSize : Int} {transferBytes : Nat} (pc : t.pc = .sending maxSize transferBytes)
      (sends : t.sends p maxSize transferBytes) :
      TransferSteps p s t .wouldBlock (some { s with transfer := some { t with pc := .returned } })
  | sendFails {maxSize : Int} {transferBytes : Nat} (pc : t.pc = .sending maxSize transferBytes)
      (sends : t.sends p maxSize transferBytes) :
      TransferSteps p s t .sendFails
        (some { s with transfer := some { t with jobStopped := true, pc := .returned } })
  | finishTransfer {maxSize : Int} {transferBytes id : Nat} {started : Bool} (pc : t.pc = .sending maxSize transferBytes)
      (held : t.pipeBuffer = some id) (ends : ¬ t.sends p maxSize transferBytes) :
      TransferSteps p s t (.finishTransfer started) (PullPipe.finishTransfer p s t id started)

section Steps
variable {p : Pull α} {s : State α} {t : PullFileTransfer α} {a : Act} {o : Option (State α)}

theorem agentSteps (did : agentStep p s a = some o) : AgentSteps p s a o := by
  cases a with
  | receive n =>
    simp only [agentStep] at did
    split at did
    · rename_i may
      cases did
      exact .receive may.1 may.2.1 ⟨may.2.2.1,may.2.2.2.1⟩ may.2.2.2.2
    · cases did
  | again =>
    simp only [agentStep] at did
    split at did
    · rename_i may
      cases did
      exact .again may.1 may.2.1 may.2.2.1 may.2.2.2
    · cases did
  | enter =>
    simp only [agentStep] at did
    split at did
    · rename_i pc
      cases did
      exact .enter pc
    · cases did
  | write =>
    simp only [agentStep] at did
    split at did
    · rename_i pc held
      cases did
      exact .write pc held
    · cases did
  | shut started session suspends =>
    simp only [agentStep] at did
    split at did
    · rename_i pc held
      cases did
      exact .shut pc held
    · cases did
  | note session =>
    simp only [agentStep] at did
    split at did
    · rename_i pc
      cases did
      exact .note pc
    · cases did
  | finish started =>
    simp only [agentStep] at did
    split at did
    · rename_i pc
      cases did
      exact .finish pc
    · cases did
  | resume =>
    simp only [agentStep] at did
    split at did
    · rename_i notice
      cases did
      exact .resume notice
    · cases did
  | _ => cases did

theorem transferSteps (did : transferStep p s t a = some o) : TransferSteps p s t a o := by
  cases a with
  | call maxSize =>
    simp only [transferStep] at did
    split at did
    · rename_i pc goesOn started
      cases did
      exact .waits pc goesOn started
    · rename_i pc goesOn started held
      cases did
      exact .call pc goesOn started held
    · cases did
  | read =>
    simp only [transferStep] at did
    split at did
    · rename_i pc held
      cases did
      exact .read pc held
    · cases did
  | checkEof =>
    simp only [transferStep] at did
    split at did
    · rename_i pc held
      cases did
      exact .checkEof pc held
    · cases did
  | renew started =>
    simp only [transferStep] at did
    split at did
    · rename_i pc held
      cases did
      exact .renew pc held
    · cases did
  | notify sent started =>
    simp only [transferStep] at did
    split at did
    · rename_i pc held
      cases did
      exact .notify pc held
    · cases did
  | accept n =>
    simp only [transferStep] at did
    split at did
    · rename_i pc
      split at did
      · rename_i may
        cases did
        exact .accept pc may.1 may.2
      · cases did
    · cases did
  | wouldBlock =>
    simp only [transferStep] at did
    split at did
    · rename_i pc
      split at did
      · rename_i sends
        cases did
        exact .wouldBlock pc sends
      · cases did
    · cases did
  | sendFails =>
    simp only [transferStep] at did
    split at did
    · rename_i pc
      split at did
      · rename_i sends
        cases did
        exact .sendFails pc sends
      · cases did
    · cases did
  | finishTransfer started =>
    simp only [transferStep] at did
    split at did
    · rename_i pc held
      split at did
      · cases did
      · rename_i ends
        cases did
        exact .finishTransfer pc held ends
    · cases did
  | _ => cases did

/- Whose step it is. -/
theorem actCases (did : act p s a = some o) :
    (∃ id, o = some { s with file := s.file.written id }) ∨ agentStep p s a = some o ∨
      ∃ t, s.transfer = some t ∧ transferStep p s t a = some o := by
  unfold act at did
  split at did
  · cases did
    exact Or.inl ⟨_,rfl⟩
  · split at did
    · rename_i agent
      cases did
      exact Or.inr (Or.inl agent)
    · split at did
      · rename_i t there
        exact Or.inr (Or.inr ⟨t,there,did⟩)
      · cases did

end Steps

end CuteNdk.PullPipe
