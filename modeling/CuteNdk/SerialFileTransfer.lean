import Mathlib.Data.List.Basic

/-! serial_file_transfer: a range of a file sent through two buffers, one being
sent and one reserved for the next asynchronous read. A step is one block under
buffer_mtx_, one send, or the tail of transfer_data. -/
namespace CuteNdk.SerialFileTransfer

abbrev Byte := UInt8

def onceTransferPacketSize : Nat := 4096
def cltErrSendDataFailed : Int := 1006
def ioErrReadFileError : Int := 1007

/- A read in progress: what start_aio was asked for. -/
structure Read where
  nbytes : Int
  offset : Nat
  deriving DecidableEq, Repr

/- aio_id_ is -1 where there is no read in progress. A buffer is what has been
read into it. -/
structure Transfer where
  aioId : Option Read
  eof : Bool
  fileIoError : Bool
  sendBytes : Nat
  bufferSize : Nat
  reserveBufferSize : Nat
  offset : Nat
  contentLength : Nat
  beginPos : Nat
  transferBytes : Nat
  buffer : Option (List Byte)
  reserveBuffer : Option (List Byte)
  deriving DecidableEq, Repr

def Transfer.constructed (beginPos contentLength : Nat) : Transfer where
  aioId := none
  eof := false
  fileIoError := false
  sendBytes := 0
  bufferSize := 0
  reserveBufferSize := 0
  offset := beginPos
  contentLength := contentLength
  beginPos := beginPos
  transferBytes := 0
  buffer := none
  reserveBuffer := none

def Transfer.readBytes (blockSize : Nat) (t : Transfer) : Int :=
  if (blockSize : Int) > t.contentLength - t.transferBytes then t.contentLength - t.transferBytes
  else blockSize

/- started is whether start_aio takes the request. -/
def Transfer.startRead (blockSize : Nat) (started : Bool) (t : Transfer) : Transfer :=
  let t := { t with reserveBuffer := some [] }
  if started then { t with aioId := some ⟨t.readBytes blockSize,t.offset⟩ }
  else { t with reserveBuffer := none, reserveBufferSize := 0 }

/- The head of transfer_data, where it chooses the buffer to send from: false
is a return of 0. -/
def Transfer.takeBuffer (blockSize : Nat) (started : Bool) (t : Transfer) : Transfer × Bool :=
  match t.buffer with
  | some _ => (t,true)
  | none =>
    if t.aioId ≠ none then (t,false) else
    match t.reserveBuffer with
    | none => (t.startRead blockSize started,false)
    | some b =>
      ({ t with
          buffer := some b, bufferSize := t.reserveBufferSize, sendBytes := 0,
          reserveBuffer := none, reserveBufferSize := 0 },true)

def Transfer.sending (t : Transfer) (maxSize transferBytes : Nat) : Prop :=
  transferBytes < maxSize ∧ t.sendBytes < t.bufferSize ∧ t.transferBytes < t.contentLength
instance (t maxSize transferBytes) : Decidable (Transfer.sending t maxSize transferBytes) := by
  unfold Transfer.sending; infer_instance

def Transfer.packet (t : Transfer) : Nat :=
  let bytesToSend := t.bufferSize - t.sendBytes
  if bytesToSend > onceTransferPacketSize then onceTransferPacketSize else bytesToSend

def Transfer.freeBuffer (t : Transfer) : Transfer :=
  if t.sendBytes = t.bufferSize then { t with buffer := none, bufferSize := 0, sendBytes := 0 } else t

def Transfer.prefetches (t : Transfer) : Prop :=
  t.aioId = none ∧ (t.offset : Int) - t.beginPos ≠ t.contentLength ∧ t.reserveBuffer = none
instance (t) : Decidable (Transfer.prefetches t) := by unfold Transfer.prefetches; infer_instance

/- The tail of transfer_data, after the loop, with the value it returns. -/
def Transfer.prefetch (blockSize : Nat) (started : Bool) (transferBytes : Nat) (t : Transfer) : Transfer × Int :=
  if t.transferBytes = t.contentLength then (t,transferBytes)
  else if t.sendBytes ≥ t.bufferSize / 2 then
    let t := t.freeBuffer
    if t.eof || t.fileIoError then
      if t.sendBytes = t.bufferSize then (t,if t.fileIoError then ioErrReadFileError else -1)
      else (t,transferBytes)
    else if t.prefetches then (t.startRead blockSize started,transferBytes)
    else (t,transferBytes)
  else (t,transferBytes)

/- pread of nbytes, a size_t, at offset. -/
def pread (file : List Byte) (r : Read) : List Byte :=
  (file.drop r.offset).take (BitVec.ofInt 64 r.nbytes).toNat

/- handle_aio_read with errcode 0, and with another one. -/
def Transfer.handleAioRead (t : Transfer) (bytes : List Byte) : Transfer :=
  if bytes.length = 0 then { t with aioId := none, eof := true }
  else { t with
    aioId := none, offset := t.offset + bytes.length,
    reserveBuffer := some bytes, reserveBufferSize := bytes.length }

def Transfer.handleAioError (t : Transfer) : Transfer := { t with aioId := none, fileIoError := true }

/- Where the sending thread is: outside transfer_data, with what the last call
returned, or in its loop. -/
inductive Place where
  | returned (result : Int)
  | loop (maxSize transferBytes : Nat)
  deriving DecidableEq, Repr

/- sent is what send has accepted so far. -/
structure State where
  transfer : Transfer
  place : Place
  sent : List Byte
  deriving DecidableEq, Repr

def openTransfer (blockSize beginPos contentLength : Nat) (started : Bool) : State where
  transfer := (Transfer.constructed beginPos contentLength).startRead blockSize started
  place := .returned 0
  sent := []

inductive Act where
  | call (maxSize : Nat) (started : Bool)
  | accept (n : Nat)
  | wouldBlock
  | sendFails
  | finish (started : Bool)
  | aioRead
  | aioFails
  deriving DecidableEq, Repr

def step (file : List Byte) (blockSize : Nat) (s : State) : Act → Option State
  | .call maxSize started => match s.place with
    | .loop _ _ => none
    | .returned _ =>
      let (t,sends) := s.transfer.takeBuffer blockSize started
      some { s with transfer := t, place := if sends then .loop maxSize 0 else .returned 0 }
  | .accept n => match s.place, s.transfer.buffer with
    | .loop maxSize transferBytes, some b =>
      let t := s.transfer
      if t.sending maxSize transferBytes ∧ n ≤ t.packet then
        some {
          transfer := { t with transferBytes := t.transferBytes + n, sendBytes := t.sendBytes + n }
          place := .loop maxSize (transferBytes + n)
          sent := s.sent ++ (b.drop t.sendBytes).take n }
      else none
    | _, _ => none
  | .wouldBlock => match s.place with
    | .loop maxSize transferBytes =>
      if s.transfer.sending maxSize transferBytes then some { s with place := .returned 0 } else none
    | .returned _ => none
  | .sendFails => match s.place with
    | .loop maxSize transferBytes =>
      if s.transfer.sending maxSize transferBytes then
        some { s with place := .returned (-cltErrSendDataFailed) }
      else none
    | .returned _ => none
  | .finish started => match s.place with
    | .loop maxSize transferBytes =>
      if s.transfer.sending maxSize transferBytes then none
      else
        let (t,result) := s.transfer.prefetch blockSize started transferBytes
        some { s with transfer := t, place := .returned result }
    | .returned _ => none
  | .aioRead => match s.transfer.aioId with
    | some r =>
      -- what pread returns, and bytes_completed after it, is an int
      if (pread file r).length ≤ 2147483647 then
        some { s with transfer := s.transfer.handleAioRead (pread file r) }
      else none
    | none => none
  | .aioFails => match s.transfer.aioId with
    | some _ => some { s with transfer := s.transfer.handleAioError }
    | none => none

/- What a step does, with the conditions it is taken under. -/
inductive Stepped (file : List Byte) (blockSize : Nat) (s : State) : Act → State → Prop
  | call {maxSize : Nat} {started : Bool} {result : Int} (place : s.place = .returned result) :
      Stepped file blockSize s (.call maxSize started)
        { s with
          transfer := (s.transfer.takeBuffer blockSize started).1
          place := if (s.transfer.takeBuffer blockSize started).2 then .loop maxSize 0 else .returned 0 }
  | accept {maxSize transferBytes n : Nat} {b : List Byte} (place : s.place = .loop maxSize transferBytes)
      (buffer : s.transfer.buffer = some b) (sends : s.transfer.sending maxSize transferBytes)
      (packet : n ≤ s.transfer.packet) :
      Stepped file blockSize s (.accept n)
        { transfer := { s.transfer with
            transferBytes := s.transfer.transferBytes + n, sendBytes := s.transfer.sendBytes + n }
          place := .loop maxSize (transferBytes + n)
          sent := s.sent ++ (b.drop s.transfer.sendBytes).take n }
  | wouldBlock {maxSize transferBytes : Nat} (place : s.place = .loop maxSize transferBytes)
      (sends : s.transfer.sending maxSize transferBytes) :
      Stepped file blockSize s .wouldBlock { s with place := .returned 0 }
  | sendFails {maxSize transferBytes : Nat} (place : s.place = .loop maxSize transferBytes)
      (sends : s.transfer.sending maxSize transferBytes) :
      Stepped file blockSize s .sendFails { s with place := .returned (-cltErrSendDataFailed) }
  | finish {maxSize transferBytes : Nat} {started : Bool} (place : s.place = .loop maxSize transferBytes)
      (ends : ¬ s.transfer.sending maxSize transferBytes) :
      Stepped file blockSize s (.finish started)
        { s with
          transfer := (s.transfer.prefetch blockSize started transferBytes).1
          place := .returned (s.transfer.prefetch blockSize started transferBytes).2 }
  | aioRead {r : Read} (read : s.transfer.aioId = some r) (length : (pread file r).length ≤ 2147483647) :
      Stepped file blockSize s .aioRead { s with transfer := s.transfer.handleAioRead (pread file r) }
  | aioFails {r : Read} (read : s.transfer.aioId = some r) :
      Stepped file blockSize s .aioFails { s with transfer := s.transfer.handleAioError }

theorem stepped {file : List Byte} {blockSize : Nat} {s t : State} {a : Act} (steps : step file blockSize s a = some t) :
    Stepped file blockSize s a t := by
  cases a with
  | call maxSize started =>
    simp only [step] at steps
    split at steps
    · cases steps
    · rename_i place
      cases Option.some.inj steps
      exact .call place
  | accept n =>
    simp only [step] at steps
    split at steps
    · rename_i place buffer
      split at steps
      · rename_i sends
        cases Option.some.inj steps
        exact .accept place buffer sends.1 sends.2
      · cases steps
    · cases steps
  | wouldBlock =>
    simp only [step] at steps
    split at steps
    · rename_i place
      split at steps
      · rename_i sends
        cases Option.some.inj steps
        exact .wouldBlock place sends
      · cases steps
    · cases steps
  | sendFails =>
    simp only [step] at steps
    split at steps
    · rename_i place
      split at steps
      · rename_i sends
        cases Option.some.inj steps
        exact .sendFails place sends
      · cases steps
    · cases steps
  | finish started =>
    simp only [step] at steps
    split at steps
    · rename_i place
      split at steps
      · cases steps
      · rename_i ends
        cases Option.some.inj steps
        exact .finish place ends
    · cases steps
  | aioRead =>
    simp only [step] at steps
    split at steps
    · rename_i read
      split at steps
      · rename_i length
        cases Option.some.inj steps
        exact .aioRead read length
      · cases steps
    · cases steps
  | aioFails =>
    simp only [step] at steps
    split at steps
    · rename_i read
      cases Option.some.inj steps
      exact .aioFails read
    · cases steps

end CuteNdk.SerialFileTransfer
