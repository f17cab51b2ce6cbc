import CuteNdk.SerialFileTransfer

/-! mem_cache_transfer: a range of a cached file sent straight from memory. It has no buffers
and no reads of its own. -/
namespace CuteNdk.MemCacheTransfer
open SerialFileTransfer (Place Act onceTransferPacketSize cltErrSendDataFailed)

/- A number of type int64_t as an int. -/
def int (n : Int) : Int := n.bmod 4294967296

/- sent are the packets send has accepted, each by its place in the data of the cache object and
the bytes that went. -/
structure State where
  contentLength : Int
  beginPos : Int
  transferBytes : Int
  place : Place
  sent : List (Int × Nat)
  deriving DecidableEq, Repr

def openTransfer (beginPos contentLength : Int) : State := ⟨contentLength,beginPos,0,.returned 0,[]⟩

def State.sending (s : State) (maxSize transferBytes : Nat) : Prop := transferBytes < maxSize ∧ s.transferBytes < s.contentLength
instance (s maxSize transferBytes) : Decidable (State.sending s maxSize transferBytes) := by
  unfold State.sending; infer_instance

def State.packet (s : State) : Int :=
  let bytesToSend := s.contentLength - s.transferBytes
  if bytesToSend > onceTransferPacketSize then onceTransferPacketSize else bytesToSend

/- The sends of transfer_data, with the actions of serial_file_transfer. -/
def step (s : State) : Act → Option State
  | .call maxSize _ => match s.place with
    | .loop _ _ => none
    | .returned _ => some { s with place := .loop maxSize 0 }
  | .accept n => match s.place with
    | .loop maxSize transferBytes =>
      if s.sending maxSize transferBytes ∧ n ≤ s.packet then
        some { s with
          transferBytes := s.transferBytes + n
          place := .loop maxSize (transferBytes + n)
          sent := s.sent ++ [(int s.beginPos + int s.transferBytes,n)] }
      else none
    | .returned _ => none
  | .wouldBlock => match s.place with
    | .loop maxSize transferBytes =>
      if s.sending maxSize transferBytes then some { s with place := .returned 0 } else none
    | .returned _ => none
  | .sendFails => match s.place with
    | .loop maxSize transferBytes =>
      if s.sending maxSize transferBytes then some { s with place := .returned (-cltErrSendDataFailed) } else none
    | .returned _ => none
  | .finish _ => match s.place with
    | .loop maxSize transferBytes =>
      if s.sending maxSize transferBytes then none else some { s with place := .returned transferBytes }
    | .returned _ => none
  | .aioRead => none
  | .aioFails => none

end CuteNdk.MemCacheTransfer
