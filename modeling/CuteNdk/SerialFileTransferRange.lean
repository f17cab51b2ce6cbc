import CuteNdk.SerialFileTransfer
import CuteNdk.Lib.Run

/-! What a transfer sends of its range. The read offset runs ahead of the count
of bytes sent, and the size of a read is taken from that count, so a prefetch
can go past the range: as long as none does, the range is sent in order. -/
namespace CuteNdk.SerialFileTransfer
open Lib

structure Range where
  beginPos : Nat
  contentLength : Nat

def Range.bytes (r : Range) (file : List Byte) : List Byte := (file.drop r.beginPos).take r.contentLength

/- What has been accepted is a prefix of the range, and a read in progress asks
for at least a byte and at most a block. -/
structure InRange (file : List Byte) (blockSize : Nat) (r : Range) (s : State) : Prop where
  sent : s.sent <+: r.bytes file
  read : ∀ q ∈ s.transfer.aioId, 1 ≤ q.nbytes ∧ q.nbytes ≤ blockSize

def Transfer.startsPrefetch (t : Transfer) : Prop :=
  t.transferBytes ≠ t.contentLength ∧ t.sendBytes ≥ t.bufferSize / 2 ∧
    t.eof = false ∧ t.fileIoError = false ∧ t.prefetches

/- The prefetch a step starts ends within the range, or the file ends there. -/
def PrefetchesWithin (file : List Byte) (blockSize : Nat) (s : State) : Act → Prop
  | .finish true => s.transfer.startsPrefetch →
      s.transfer.offset + s.transfer.readBytes blockSize ≤ s.transfer.beginPos + s.transfer.contentLength ∨
      s.transfer.beginPos + s.transfer.contentLength = file.length
  | _ => True

section
variable {file : List Byte} {blockSize : Nat} {r : Range}

/- A read that is started where the bytes read so far end, within the range as
far as the file has bytes. -/
structure ReadInv (file : List Byte) (blockSize : Nat) (t : Transfer) (q : Read) : Prop where
  offset : q.offset = t.offset
  block : 1 ≤ q.nbytes ∧ q.nbytes ≤ blockSize
  within : q.offset + q.nbytes ≤ t.beginPos + t.contentLength ∨ t.beginPos + t.contentLength = file.length
  empty : t.reserveBufferSize = 0

/- The bytes read so far are those sent, those left in the buffer and those in
the reserve buffer, in this order. -/
structure Inv (file : List Byte) (blockSize : Nat) (r : Range) (s : State) : Prop where
  range : s.transfer.beginPos = r.beginPos ∧ s.transfer.contentLength = r.contentLength
  sent : s.sent = (file.drop r.beginPos).take s.transfer.transferBytes
  within : s.transfer.offset ≤ r.beginPos + r.contentLength
  sendBytes : s.transfer.sendBytes ≤ s.transfer.bufferSize
  joined : r.beginPos + s.transfer.transferBytes + (s.transfer.bufferSize - s.transfer.sendBytes) +
    s.transfer.reserveBufferSize = s.transfer.offset
  noBuffer : s.transfer.buffer = none → s.transfer.bufferSize = 0 ∧
    s.transfer.transferBytes < r.contentLength
  buffer : ∀ b, s.transfer.buffer = some b →
    (b.drop s.transfer.sendBytes).take (s.transfer.bufferSize - s.transfer.sendBytes) =
      (file.drop (r.beginPos + s.transfer.transferBytes)).take (s.transfer.bufferSize - s.transfer.sendBytes)
  noReserve : s.transfer.reserveBuffer = none → s.transfer.reserveBufferSize = 0
  reserve : ∀ b, s.transfer.reserveBuffer = some b →
    b.take s.transfer.reserveBufferSize =
      (file.drop (s.transfer.offset - s.transfer.reserveBufferSize)).take s.transfer.reserveBufferSize
  read : ∀ q, s.transfer.aioId = some q → ReadInv file blockSize s.transfer q

theorem invInRange {s : State} (h : Inv file blockSize r s) : InRange file blockSize r s := by
  refine ⟨?_,fun q hq => (h.read q hq).block⟩
  have low : s.transfer.transferBytes ≤ r.contentLength := by
    have := h.joined
    have := h.within
    omega
  rw [h.sent,Range.bytes]
  exact List.take_prefix_take_left low

theorem readBytesLe (blockSize : Nat) (t : Transfer) : t.readBytes blockSize ≤ blockSize ∧
    t.readBytes blockSize ≤ t.contentLength - t.transferBytes := by
  unfold Transfer.readBytes
  split <;> omega

theorem readBytesPos {t : Transfer} (block : 0 < blockSize) (more : t.transferBytes < t.contentLength) :
    1 ≤ t.readBytes blockSize := by
  unfold Transfer.readBytes
  split <;> omega

/- A read started where all bytes read so far have been handed on. -/
theorem startReadInv {t : Transfer} {place : Place} {sent : List Byte} (started : Bool)
    (block : 0 < blockSize) (h : Inv file blockSize r ⟨t,place,sent⟩) (idle : t.reserveBuffer = none)
    (more : t.transferBytes < r.contentLength)
    (fits : started = true → t.offset + t.readBytes blockSize ≤ t.beginPos + t.contentLength ∨
      t.beginPos + t.contentLength = file.length) (place' : Place) :
    Inv file blockSize r ⟨t.startRead blockSize started,place',sent⟩ := by
  have empty := h.noReserve idle
  have length := h.range.2
  simp only at empty length
  cases started with
  | false =>
    refine ⟨h.range,h.sent,h.within,h.sendBytes,?_,h.noBuffer,h.buffer,fun _ => rfl,nofun,fun q hq => ?_⟩
    · have := h.joined
      simp only [empty] at this
      exact this
    · exact ⟨(h.read q hq).offset,(h.read q hq).block,(h.read q hq).within,rfl⟩
  | true =>
    refine ⟨h.range,h.sent,h.within,h.sendBytes,h.joined,h.noBuffer,h.buffer,nofun,?_,?_⟩
    · intro b _
      simp [Transfer.startRead,empty]
    · rintro q hq
      cases hq
      have least : 1 ≤ t.readBytes blockSize := readBytesPos block (by omega)
      exact ⟨rfl,⟨least,(readBytesLe blockSize t).1⟩,fits rfl,empty⟩

theorem openInv (file : List Byte) (block : 0 < blockSize) (some_ : 0 < r.contentLength) (started : Bool) :
    Inv file blockSize r (openTransfer blockSize r.beginPos r.contentLength started) := by
  have fresh : Inv file blockSize r ⟨Transfer.constructed r.beginPos r.contentLength,.returned 0,[]⟩ :=
    ⟨⟨rfl,rfl⟩,by simp [Transfer.constructed],by simp [Transfer.constructed],by simp [Transfer.constructed],
      rfl,fun _ => ⟨rfl,some_⟩,by simp [Transfer.constructed],fun _ => rfl,by simp [Transfer.constructed],
      by simp [Transfer.constructed]⟩
  refine startReadInv started block fresh rfl some_ (fun _ => ?_) (.returned 0)
  have short := (readBytesLe blockSize (Transfer.constructed r.beginPos r.contentLength)).2
  simp only [Transfer.constructed] at short ⊢
  omega

theorem placeInv {s : State} (h : Inv file blockSize r s) (place : Place) :
    Inv file blockSize r { s with place := place } :=
  ⟨h.range,h.sent,h.within,h.sendBytes,h.joined,h.noBuffer,h.buffer,h.noReserve,h.reserve,h.read⟩

/- With nothing left to send, the next read starts at the count of bytes sent. -/
theorem takeBufferInv {s : State} (h : Inv file blockSize r s) (block : 0 < blockSize) (started : Bool)
    (place : Place) :
    Inv file blockSize r { s with transfer := (s.transfer.takeBuffer blockSize started).1, place := place } := by
  obtain ⟨t,_,sent⟩ := s
  unfold Transfer.takeBuffer
  cases buffer : t.buffer with
  | some b => exact placeInv h place
  | none =>
    obtain ⟨empty,more⟩ := h.noBuffer buffer
    have joined := h.joined
    have length := h.range.2
    have begins := h.range.1
    simp only at empty more joined length begins ⊢
    split
    · exact placeInv h place
    · rename_i idle
      cases reserve : t.reserveBuffer with
      | none =>
        have size := h.noReserve reserve
        have short := (readBytesLe blockSize t).2
        simp only at size
        exact startReadInv started block h reserve more (fun _ => by omega) place
      | some b =>
        have read := h.reserve b reserve
        simp only at read
        refine ⟨h.range,h.sent,h.within,Nat.zero_le _,?_,nofun,?_,fun _ => rfl,nofun,?_⟩
        · simp only
          omega
        · rintro c same
          cases same
          have start : t.offset - t.reserveBufferSize = r.beginPos + t.transferBytes := by omega
          rw [start] at read
          simpa using read
        · intro q hq
          exact absurd (by simp only at hq; simp [hq]) idle

theorem packetLe (t : Transfer) : t.packet ≤ t.bufferSize - t.sendBytes := by
  unfold Transfer.packet
  simp only
  split <;> omega

theorem acceptInv {t : Transfer} {place : Place} {sent b : List Byte} {n : Nat}
    (h : Inv file blockSize r ⟨t,place,sent⟩) (buffer : t.buffer = some b) (packet : n ≤ t.packet)
    (place' : Place) :
    Inv file blockSize r ⟨{ t with transferBytes := t.transferBytes + n, sendBytes := t.sendBytes + n },
      place',sent ++ (b.drop t.sendBytes).take n⟩ := by
  have room := Nat.le_trans packet (packetLe t)
  have unsent := h.buffer b buffer
  have joined := h.joined
  have sendBytes := h.sendBytes
  have sent_ := h.sent
  simp only at unsent joined sendBytes sent_
  refine ⟨h.range,?_,h.within,?_,?_,?_,?_,h.noReserve,h.reserve,?_⟩
  · have accepted : (b.drop t.sendBytes).take n = (file.drop (r.beginPos + t.transferBytes)).take n := by
      have cut := congrArg (List.take n) unsent
      simpa only [List.take_take,Nat.min_eq_left room] using cut
    simp only
    rw [sent_,accepted,List.take_add,List.drop_drop]
  · simp only
    omega
  · simp only
    omega
  · intro none_
    rw [buffer] at none_
    contradiction
  · intro c same
    obtain rfl : b = c := by simpa [buffer] using same
    have cut := congrArg (List.drop n) unsent
    simp only [List.drop_take,List.drop_drop] at cut
    have rest : t.bufferSize - (t.sendBytes + n) = t.bufferSize - t.sendBytes - n := by omega
    simpa only [rest,Nat.add_assoc] using cut
  · intro q hq
    exact ⟨(h.read q hq).offset,(h.read q hq).block,(h.read q hq).within,(h.read q hq).empty⟩

theorem freeBufferInv {t : Transfer} {place : Place} {sent : List Byte}
    (h : Inv file blockSize r ⟨t,place,sent⟩) (more : t.transferBytes < r.contentLength) :
    Inv file blockSize r ⟨t.freeBuffer,place,sent⟩ := by
  unfold Transfer.freeBuffer
  split
  · rename_i all
    have joined := h.joined
    simp only at joined
    refine ⟨h.range,h.sent,h.within,Nat.le_refl 0,?_,fun _ => ⟨rfl,more⟩,nofun,h.noReserve,h.reserve,?_⟩
    · simp only
      omega
    · intro q hq
      exact ⟨(h.read q hq).offset,(h.read q hq).block,(h.read q hq).within,(h.read q hq).empty⟩
  · exact h

theorem freeBufferKeeps (t : Transfer) : t.freeBuffer.transferBytes = t.transferBytes ∧
    t.freeBuffer.contentLength = t.contentLength ∧ t.freeBuffer.offset = t.offset ∧
    t.freeBuffer.beginPos = t.beginPos ∧ t.freeBuffer.eof = t.eof ∧
    t.freeBuffer.fileIoError = t.fileIoError ∧ (t.freeBuffer.prefetches ↔ t.prefetches) := by
  unfold Transfer.freeBuffer
  split
  · exact ⟨rfl,rfl,rfl,rfl,rfl,rfl,Iff.rfl⟩
  · exact ⟨rfl,rfl,rfl,rfl,rfl,rfl,Iff.rfl⟩

theorem prefetchInv {s : State} (h : Inv file blockSize r s) (block : 0 < blockSize) {started : Bool}
    (fits : PrefetchesWithin file blockSize s (.finish started)) (transferBytes : Nat) (place : Place) :
    Inv file blockSize r
      { s with transfer := (s.transfer.prefetch blockSize started transferBytes).1, place := place } := by
  obtain ⟨t,p,sent⟩ := s
  have length := h.range.2
  simp only at length ⊢
  unfold Transfer.prefetch
  split
  · exact placeInv h place
  · rename_i unfinished
    split
    · rename_i half
      have more : t.transferBytes < r.contentLength := by
        have joined := h.joined
        have within := h.within
        simp only at joined within
        omega
      have freed := freeBufferInv h more
      obtain ⟨bytes,content,offset,begins,eof,error,asks⟩ := freeBufferKeeps t
      simp only
      split
      · split
        · exact placeInv freed place
        · exact placeInv freed place
      · rename_i going
        split
        · rename_i prefetches
          have idle := prefetches.2.2
          refine startReadInv started block freed idle (bytes ▸ more) (fun on => ?_) place
          have short : t.freeBuffer.readBytes blockSize = t.readBytes blockSize := by
            simp only [Transfer.readBytes,bytes,content]
          rw [short,content,offset,begins]
          subst on
          obtain ⟨noEof,noError⟩ : t.freeBuffer.eof = false ∧ t.freeBuffer.fileIoError = false := by
            simpa using going
          exact fits ⟨unfinished,half,eof ▸ noEof,error ▸ noError,asks.1 prefetches⟩
        · exact placeInv freed place
    · exact placeInv h place

theorem preadLength {t : Transfer} {q : Read} (h : ReadInv file blockSize t q)
    (within : t.offset ≤ t.beginPos + t.contentLength) :
    t.offset + (pread file q).length ≤ t.beginPos + t.contentLength := by
  have offset := h.offset
  have asked : (BitVec.ofInt 64 q.nbytes).toNat ≤ q.nbytes := by
    have := h.block.1
    rw [BitVec.toNat_ofInt]
    omega
  simp only [pread,List.length_take,List.length_drop]
  rcases h.within with ends | ends <;> omega

theorem preadBytes (q : Read) :
    (file.drop q.offset).take (pread file q).length = pread file q := by
  simp only [pread,List.length_take]
  rw [← List.take_eq_take_min]

theorem aioReadInv {s : State} (h : Inv file blockSize r s) {q : Read} (read : s.transfer.aioId = some q) :
    Inv file blockSize r { s with transfer := s.transfer.handleAioRead (pread file q) } := by
  have asked := h.read q read
  have length := h.range
  have within := h.within
  unfold Transfer.handleAioRead
  split
  · exact ⟨h.range,h.sent,h.within,h.sendBytes,h.joined,h.noBuffer,h.buffer,h.noReserve,h.reserve,nofun⟩
  · have fits := preadLength asked (by omega)
    have joined := h.joined
    have empty := asked.empty
    refine ⟨h.range,h.sent,?_,h.sendBytes,?_,h.noBuffer,h.buffer,nofun,?_,nofun⟩
    · simp only
      omega
    · simp only
      omega
    · rintro b same
      cases same
      simp only [Nat.add_sub_cancel,List.take_length]
      rw [← asked.offset,preadBytes]

theorem aioErrorInv {s : State} (h : Inv file blockSize r s) :
    Inv file blockSize r { s with transfer := s.transfer.handleAioError } :=
  ⟨h.range,h.sent,h.within,h.sendBytes,h.joined,h.noBuffer,h.buffer,h.noReserve,h.reserve,nofun⟩

theorem stepInv (block : 0 < blockSize) {s s' : State} {a : Act} (h : Inv file blockSize r s)
    (fits : PrefetchesWithin file blockSize s a) (steps : step file blockSize s a = some s') :
    Inv file blockSize r s' := by
  cases stepped steps with
  | call place => exact takeBufferInv h block _ _
  | accept place buffer sends packet => exact acceptInv h buffer packet _
  | wouldBlock place sends => exact placeInv h _
  | sendFails place sends => exact placeInv h _
  | finish place ends => exact prefetchInv h block fits _ _
  | aioRead read length => exact aioReadInv h read
  | aioFails read => exact aioErrorInv h

end

theorem sendsRangeWhilePrefetchesWithin (file : List Byte) (blockSize : Nat) (r : Range) (started : Bool)
    (as : List Act) (block : 0 < blockSize) (some_ : 0 < r.contentLength)
    (within : Along (step file blockSize) (PrefetchesWithin file blockSize)
      (openTransfer blockSize r.beginPos r.contentLength started) as) :
    Always (step file blockSize) (InRange file blockSize r)
      (openTransfer blockSize r.beginPos r.contentLength started) as := by
  have invariant := alwaysOfInvariant (fun s a t inv fits steps => stepInv block inv fits steps)
    (openInv file block some_ started) within
  exact alwaysMono (fun s => invInRange) invariant

/- Two blocks of two bytes, the second one prefetched with the first one sent. -/
theorem twoBlocksInRange :
    Always (step [0,1,2,3,4,5] 2) (InRange [0,1,2,3,4,5] 2 ⟨1,4⟩) (openTransfer 2 1 4 true)
      [.aioRead,.call 2 true,.accept 2,.finish true,.aioRead,.call 9 true,.accept 1] := by
  refine sendsRangeWhilePrefetchesWithin [0,1,2,3,4,5] 2 ⟨1,4⟩ true _ (by decide) (by decide) ?_
  intro s₁ h₁
  refine ⟨trivial,fun s₂ h₂ => ⟨trivial,fun s₃ h₃ => ⟨trivial,fun s₄ h₄ => ?_⟩⟩⟩
  obtain rfl := Option.some.inj h₁
  obtain rfl := Option.some.inj h₂
  obtain rfl := Option.some.inj h₃
  exact ⟨fun _ => .inl (by decide),fun _ _ => ⟨trivial,fun _ _ => ⟨trivial,fun _ _ => ⟨trivial,trivial⟩⟩⟩⟩

/- The first six bytes of eight in blocks of four. With two bytes sent the
prefetch asks for four at offset 4, and all of them are sent. -/
theorem prefetchSendsPastRange :
    ¬ Always (step [0,1,2,3,4,5,6,7] 4) (InRange [0,1,2,3,4,5,6,7] 4 ⟨0,6⟩) (openTransfer 4 0 6 true)
      [.aioRead,.call 2 true,.accept 2,.finish true,.aioRead,.call 9 true,.accept 2,.finish true,
        .call 9 true,.accept 4] := by
  intro always
  have last := alwaysAtEnd always (t := _) rfl
  exact absurd last.sent (by decide)

end CuteNdk.SerialFileTransfer
