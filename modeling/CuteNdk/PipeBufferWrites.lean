import CuteNdk.FileCompletion

/-! A pipe buffer and the chunk of the file it stands for: open, write and close of its
holders, the requests that close starts, and handle_aio_write, which restarts a short
write, sets the bit of the chunk and deletes the buffer that nobody holds. A result of
none is behaviour C++ leaves undefined, a use of the deleted buffer among it. -/
namespace CuteNdk.PipeBufferWrites
open PullPipe (PipeBuffer pipeChunkSize)
open FileCompletion (FileInfo Marked setMarked setRuns checkIff)
open Lib (run Always Along alwaysOfInvariant alwaysMono alwaysAtEnd)

variable {α : Type}

def sizeModulus : Nat := 2 ^ 64
def intMax : Nat := 2 ^ 31 - 1

/- A write that start_aio took: nbytes bytes of the buffer, from start on, go to offset
in the file. result is what pwrite returned, where none is an errno. -/
structure Request where
  offset : Nat
  nbytes : Nat
  start : Nat
  result : Option (Option Nat)
  deriving DecidableEq, Repr

/- disk is what was written at each place of the file. requests are those whose
handle_aio_write is not called yet, handling counts the calls that have come to the
guard at its end, deleted those of delete. -/
structure State (α : Type) where
  buffer : PipeBuffer α
  bytesToWrite : Nat
  info : FileInfo
  disk : Nat → Option α
  requests : List Request
  handling : Nat
  deleted : Nat

def start (chunkId bufferSize : Nat) (info : FileInfo) : State α :=
  ⟨PipeBuffer.make chunkId bufferSize,bufferSize,info,fun _ => none,[],0,0⟩

/- chunk_id_ * PIPE_CHUNK_SIZE, of two ints. -/
def chunkOffset (chunkId : Nat) : Option Nat :=
  if chunkId * pipeChunkSize ≤ intMax then some (chunkId * pipeChunkSize) else none

def State.startAio (s : State α) (nbytes offset start : Nat) : State α :=
  { s with requests := s.requests ++ [⟨offset,nbytes,start,none⟩] }

def State.setRef (s : State α) (refCount : Nat) : State α :=
  { s with buffer := { s.buffer with refCount := refCount } }

/- open. -/
def State.addRef (s : State α) : State α := s.setRef ((s.buffer.refCount + 1) % sizeModulus)

def State.write (s : State α) (bf : List α) : State α := { s with buffer := (s.buffer.write bf).2 }

/- close, once the count is one less. started is whether start_aio takes the request. -/
def State.released (s : State α) (started : Bool) : Option (State α) :=
  if s.buffer.refCount = 0 then
    if s.buffer.data.length = 0 then some { s with deleted := s.deleted + 1 }
    else do
      let offset ← chunkOffset s.buffer.chunkId
      some (if started then s.startAio s.bytesToWrite offset 0 else s.setRef (s.buffer.refCount + 1))
  else some s

def State.close (s : State α) (started : Bool) : Option (State α) :=
  (s.setRef ((s.buffer.refCount + sizeModulus - 1) % sizeModulus)).released started

/- What is at each place once k bytes are written at offset. -/
def writeAt (disk : Nat → Option α) (offset k : Nat) (bytes : Nat → Option α) (place : Nat) : Option α :=
  if offset ≤ place ∧ place < offset + k then bytes (place - offset) else disk place

def State.pwrite (s : State α) (i : Nat) (r : Request) (result : Option Nat) : State α :=
  { s with
    requests := s.requests.set i { r with result := some result }
    disk := match result with
      | some k => writeAt s.disk r.offset k fun j => s.buffer.data[r.start + j]?
      | none => s.disk }

/- The part of handle_aio_write for a short write. -/
def State.restart (s : State α) (completed : Nat) (restarted : Bool) : Option (State α) :=
  if completed = s.bytesToWrite then some s
  else do
    let bytesToWrite := (s.bytesToWrite + sizeModulus - completed) % sizeModulus
    let written := (s.buffer.bufferSize + sizeModulus - bytesToWrite) % sizeModulus
    let offset ← chunkOffset s.buffer.chunkId
    let s := { s with bytesToWrite := bytesToWrite }
    some (if restarted then s.startAio bytesToWrite ((offset + written) % sizeModulus) written else s)

/- handle_aio_write up to the guard. -/
def State.handle (s : State α) (i : Nat) (result : Option Nat) (restarted : Bool) : Option (State α) :=
  let s := { s with requests := s.requests.eraseIdx i, handling := s.handling + 1 }
  match result with
  | none => some s
  | some completed => do
    let s ← s.restart completed restarted
    let info ← s.info.handleAioWrite s.buffer.chunkId
    some { s with info := info }

/- handle_aio_write from the guard on. -/
def State.finish (s : State α) : State α :=
  { s with
    handling := s.handling - 1
    deleted := if s.buffer.refCount = 0 then s.deleted + 1 else s.deleted }

inductive Act (α : Type) where
  | open
  | write (bf : List α)
  | close (started : Bool)
  | pwrite (i : Nat) (result : Option Nat)
  | handle (i : Nat) (restarted : Bool)
  | finish
  deriving DecidableEq, Repr

/- The holders call nothing once the buffer is deleted; the requests do not know. -/
def act (s : State α) : Act α → Option (Option (State α))
  | .open => if s.deleted = 0 then some (some s.addRef) else none
  | .write bf => if s.deleted = 0 then some (some (s.write bf)) else none
  | .close started => if s.deleted = 0 then some (s.close started) else none
  | .pwrite i result => do
    let r ← s.requests[i]?
    if r.result = none ∧ ∀ k ∈ result, 1 ≤ k ∧ k ≤ r.nbytes then
      some (if s.deleted = 0 then some (s.pwrite i r result) else none)
    else none
  | .handle i restarted => do
    let r ← s.requests[i]?
    let result ← r.result
    some (if s.deleted = 0 then s.handle i result restarted else none)
  | .finish =>
    if s.handling = 0 then none else some (if s.deleted = 0 then some s.finish else none)

def step (s : Option (State α)) (a : Act α) : Option (Option (State α)) := s.bind fun s => act s a

/- Every byte of the chunk is received, and in the file at the place of the chunk. -/
def Stored (s : State α) : Prop :=
  s.buffer.data.length = s.buffer.bufferSize ∧
    ∀ i < s.buffer.bufferSize, s.disk (s.buffer.chunkId * pipeChunkSize + i) = s.buffer.data[i]?

instance [DecidableEq α] (s : State α) : Decidable (Stored s) := by unfold Stored; infer_instance

def Sound : Option (State α) → Prop
  | none => False
  | some s =>
    (s.info.bitmap[s.buffer.chunkId]? = some '1' → Stored s) ∧
    s.deleted ≤ 1 ∧ (s.deleted ≠ 0 → s.requests = [] ∧ s.handling = 0)

instance [DecidableEq α] (s : Option (State α)) : Decidable (Sound s) := by
  cases s <;> (unfold Sound; infer_instance)

/- The last holder closes the buffer with no request of an earlier close on its way and
a chunk whose offset is an int; and a write to the file that does not fail is a whole
one, of a buffer that is full. -/
def Careful : Option (State α) → Act α → Prop
  | some s, .close started => s.buffer.refCount = 1 → s.buffer.data ≠ [] →
    s.buffer.chunkId * pipeChunkSize ≤ intMax ∧
    (started = true → s.buffer.chunkId < s.info.bitmap.length ∧ s.requests = [] ∧ s.handling = 0)
  | some s, .pwrite i (some k) => ∀ r ∈ s.requests[i]?,
    k = r.nbytes ∧ s.buffer.data.length = s.buffer.bufferSize
  | _, _ => True

instance [DecidableEq α] (s : Option (State α)) (a : Act α) : Decidable (Careful s a) := by
  unfold Careful
  split <;> infer_instance

/- A request as close makes it. -/
structure Whole (s : State α) (r : Request) : Prop where
  offset : r.offset = s.buffer.chunkId * pipeChunkSize
  nbytes : r.nbytes = s.buffer.bufferSize
  start : r.start = 0
  inside : s.buffer.chunkId < s.info.bitmap.length
  stored : ∀ k, r.result = some (some k) → k = s.buffer.bufferSize ∧ Stored s

structure Held (s : State α) : Prop where
  size : s.bytesToWrite = s.buffer.bufferSize
  small : s.buffer.refCount < sizeModulus
  marked : ∃ marked, Marked s.info marked
  one : s.requests.length + s.handling ≤ 1
  whole : ∀ r ∈ s.requests, Whole s r
  bit : s.info.bitmap[s.buffer.chunkId]? = some '1' → Stored s
  empty : s.buffer.data = [] → s.requests = [] ∧ s.handling = 0
  once : s.deleted ≤ 1
  gone : s.deleted ≠ 0 → s.requests = [] ∧ s.handling = 0

/- handle_aio_write marks a chunk of the file without trouble. -/
theorem handledMarked {f : FileInfo} {marked : Int → Prop} (h : Marked f marked) {c : Nat}
    (inside : c < f.bitmap.length) : ∃ g, f.handleAioWrite c = some g ∧ Marked g fun k => marked k ∨ k = c := by
  have size := h.size
  obtain ⟨g,set⟩ := setRuns h (c := c) (by omega)
  obtain ⟨bits,_⟩ := setMarked h set
  obtain ⟨completed,looked,_⟩ := checkIff bits
  refine ⟨_,Option.bind_eq_some_iff.2 ⟨g,set,Option.bind_eq_some_iff.2 ⟨completed,looked,rfl⟩⟩,?_⟩
  split
  · exact ⟨bits.size,bits.inside,bits.bits⟩
  · exact bits

section Steps
variable {s : State α}

theorem startHeld {info : FileInfo} {length : Int} (made : FileInfo.make length = some info)
    (chunkId bufferSize : Nat) : Held (start chunkId bufferSize info : State α) where
  size := rfl
  small := Nat.two_pow_pos 64
  marked := ⟨_,(FileCompletion.makeMarked made).1⟩
  one := Nat.zero_le 1
  whole := fun r mem => absurd mem List.not_mem_nil
  bit := fun set => by
    unfold FileInfo.make at made
    split at made
    · cases made
    · cases Option.some.inj made
      simp only [start,PipeBuffer.make,List.getElem?_replicate] at set
      split at set
      · exact absurd (Option.some.inj set) (by decide)
      · cases set
  empty := fun _ => ⟨rfl,rfl⟩
  once := Nat.zero_le 1
  gone := fun no => absurd rfl no

/- Only the count of the holders differs. -/
theorem setRefHeld (h : Held s) {n : Nat} (small : n < sizeModulus) : Held (s.setRef n) where
  size := h.size
  small := small
  marked := h.marked
  one := h.one
  whole := fun r mem => ⟨(h.whole r mem).offset,(h.whole r mem).nbytes,(h.whole r mem).start,
    (h.whole r mem).inside,(h.whole r mem).stored⟩
  bit := h.bit
  empty := h.empty
  once := h.once
  gone := h.gone

/- A full buffer takes nothing more, so what is stored stays what was received. -/
theorem writeStored (stored : Stored s) (bf : List α) : s.write bf = s := by
  unfold State.write PipeBuffer.write
  rw [if_pos (le_of_eq stored.1.symm)]

theorem writeSame (s : State α) (bf : List α) :
    (s.write bf).buffer.chunkId = s.buffer.chunkId ∧ (s.write bf).buffer.bufferSize = s.buffer.bufferSize ∧
    (s.write bf).buffer.refCount = s.buffer.refCount ∧ s.buffer.data <+: (s.write bf).buffer.data := by
  unfold State.write PipeBuffer.write
  dsimp only
  split
  · exact ⟨rfl,rfl,rfl,List.prefix_rfl⟩
  · exact ⟨rfl,rfl,rfl,List.prefix_append _ _⟩

theorem writeHeld (h : Held s) (bf : List α) : Held (s.write bf) := by
  obtain ⟨chunk,size,ref,grows⟩ := writeSame s bf
  have kept : Stored s → Stored (s.write bf) := fun stored => by
    rw [writeStored stored bf]
    exact stored
  exact {
    size := h.size.trans size.symm
    small := ref ▸ h.small
    marked := h.marked
    one := h.one
    whole := fun r mem =>
      have whole := h.whole r mem
      ⟨by rw [chunk]; exact whole.offset,by rw [size]; exact whole.nbytes,whole.start,
        by rw [chunk]; exact whole.inside,fun k done => by
          obtain ⟨all,stored⟩ := whole.stored k done
          exact ⟨all.trans size.symm,kept stored⟩⟩
    bit := fun set => kept (h.bit (chunk ▸ set))
    empty := fun nothing => h.empty (List.prefix_nil.1 (nothing ▸ grows))
    once := h.once
    gone := h.gone }

/- A close that is not the last, or of a buffer with nothing in it, starts nothing. -/
theorem releasedHeld (h : Held s) (alive : s.deleted = 0) {started : Bool}
    (careful : s.buffer.refCount = 0 → s.buffer.data ≠ [] → s.buffer.chunkId * pipeChunkSize ≤ intMax ∧
      (started = true → s.buffer.chunkId < s.info.bitmap.length ∧ s.requests = [] ∧ s.handling = 0)) :
    ∃ s', s.released started = some s' ∧ Held s' := by
  unfold State.released
  split
  · rename_i last
    split
    · rename_i nothing
      have idle := h.empty (List.length_eq_zero_iff.1 nothing)
      refine ⟨_,rfl,{ h with whole := fun r mem => ?_, once := ?_, gone := fun _ => idle }⟩
      · exact absurd (idle.1 ▸ mem) List.not_mem_nil
      · exact le_of_eq (congrArg (· + 1) alive)
    · rename_i some_
      obtain ⟨fits,idle⟩ := careful last fun nothing => some_ (List.length_eq_zero_iff.2 nothing)
      have offset : chunkOffset s.buffer.chunkId = some (s.buffer.chunkId * pipeChunkSize) := if_pos fits
      refine ⟨_,Option.bind_eq_some_iff.2 ⟨_,offset,rfl⟩,?_⟩
      cases started with
      | false => exact setRefHeld h (last ▸ Nat.one_lt_two_pow (by decide))
      | true =>
        obtain ⟨inside,none_,quiet⟩ := idle rfl
        have only : (s.startAio s.bytesToWrite (s.buffer.chunkId * pipeChunkSize) 0).requests =
            [⟨s.buffer.chunkId * pipeChunkSize,s.bytesToWrite,0,none⟩] := by
          unfold State.startAio
          rw [none_]
          rfl
        refine { h with one := ?_, whole := fun r mem => ?_, empty := fun nothing => ?_, gone := fun no => ?_ }
        · exact le_of_eq (congrArg₂ (fun l n => List.length l + n) only quiet)
        · cases List.mem_singleton.1 (only ▸ mem)
          exact ⟨rfl,h.size,rfl,inside,fun k done => absurd done.symm (Option.some_ne_none _)⟩
        · exact absurd (List.length_eq_zero_iff.2 nothing) some_
        · exact absurd alive no
  · exact ⟨s,rfl,h⟩

theorem countedHeld (h : Held s) (alive : s.deleted = 0) {started : Bool} {n : Nat} (small : n < sizeModulus)
    (careful : n = 0 → s.buffer.data ≠ [] → s.buffer.chunkId * pipeChunkSize ≤ intMax ∧
      (started = true → s.buffer.chunkId < s.info.bitmap.length ∧ s.requests = [] ∧ s.handling = 0)) :
    ∃ s', (s.setRef n).released started = some s' ∧ Held s' :=
  releasedHeld (setRefHeld h small) alive careful

theorem closeHeld (h : Held s) (alive : s.deleted = 0) {started : Bool}
    (careful : Careful (some s) (.close started)) :
    ∃ s', s.close started = some s' ∧ Held s' := by
  have small := h.small
  have held : (s.buffer.refCount + sizeModulus - 1) % sizeModulus = 0 → s.buffer.refCount = 1 := by
    unfold sizeModulus at small ⊢
    omega
  have below : (s.buffer.refCount + sizeModulus - 1) % sizeModulus < sizeModulus :=
    Nat.mod_lt _ (Nat.two_pow_pos 64)
  exact countedHeld h alive below fun last => careful (held last)

/- The disk once a whole buffer is written at the place of its chunk. -/
theorem wholeWrite (full : s.buffer.data.length = s.buffer.bufferSize) {r : Request} (whole : Whole s r) (i : Nat) :
    Stored (s.pwrite i r (some s.buffer.bufferSize)) := by
  refine ⟨full,fun j small => ?_⟩
  simp only [State.pwrite,writeAt,whole.offset,whole.start] at small ⊢
  rw [if_pos ⟨Nat.le_add_right _ _,Nat.add_lt_add_left small _⟩,Nat.add_sub_cancel_left,Nat.zero_add]

theorem pwriteHeld (h : Held s) {i : Nat} {r : Request} {result : Option Nat} (here : s.requests[i]? = some r)
    (careful : Careful (some s) (.pwrite i result)) : Held (s.pwrite i r result) := by
  have whole := h.whole r (List.mem_of_getElem? here)
  -- Stored is kept: a whole write puts the buffer itself there
  have kept : Stored s → Stored (s.pwrite i r result) := by
    intro stored
    cases result with
    | none => exact stored
    | some k =>
      obtain ⟨all,full⟩ := careful r here
      rw [all,whole.nbytes]
      exact wholeWrite full whole i
  have length : (s.pwrite i r result).requests.length = s.requests.length := List.length_set
  have nonEmpty : s.requests ≠ [] := fun none_ => by
    rw [none_] at here
    exact absurd here.symm (Option.some_ne_none r)
  exact {
    size := h.size
    small := h.small
    marked := h.marked
    one := length ▸ h.one
    whole := fun r' mem => by
      rcases List.mem_or_eq_of_mem_set mem with old | rfl
      · have whole' := h.whole r' old
        exact ⟨whole'.offset,whole'.nbytes,whole'.start,whole'.inside,fun k done =>
          ⟨(whole'.stored k done).1,kept (whole'.stored k done).2⟩⟩
      · refine ⟨whole.offset,whole.nbytes,whole.start,whole.inside,fun k done => ?_⟩
        cases Option.some.inj done
        obtain ⟨all,full⟩ := careful r here
        rw [all,whole.nbytes]
        exact ⟨rfl,wholeWrite full whole i⟩
    bit := fun set => kept (h.bit set)
    empty := fun nothing => absurd (h.empty nothing).1 nonEmpty
    once := h.once
    gone := fun no => absurd (h.gone no).1 nonEmpty }

theorem handleHeld (h : Held s) {i : Nat} {r : Request} {result : Option Nat} (here : s.requests[i]? = some r)
    (done : r.result = some result) (restarted : Bool) : ∃ s', s.handle i result restarted = some s' ∧ Held s' := by
  have whole := h.whole r (List.mem_of_getElem? here)
  have small : i < s.requests.length := (List.getElem?_eq_some_iff.1 here).1
  have one := h.one
  have nonEmpty : s.requests ≠ [] := List.ne_nil_of_length_pos (by omega)
  have none_ : s.requests.eraseIdx i = [] := by
    apply List.length_eq_zero_iff.1
    rw [List.length_eraseIdx_of_lt small]
    omega
  have begun : Held { s with requests := s.requests.eraseIdx i, handling := s.handling + 1 } := {
    size := h.size
    small := h.small
    marked := h.marked
    one := by
      simp only [none_,List.length_nil]
      omega
    whole := fun r mem => absurd (none_ ▸ mem) List.not_mem_nil
    bit := h.bit
    empty := fun nothing => absurd (h.empty nothing).1 nonEmpty
    once := h.once
    gone := fun no => absurd (h.gone no).1 nonEmpty }
  unfold State.handle
  dsimp only
  cases result with
  | none => exact ⟨_,rfl,begun⟩
  | some completed =>
    obtain ⟨all,stored⟩ := whole.stored completed done
    have notShort : State.restart { s with requests := s.requests.eraseIdx i, handling := s.handling + 1 }
        completed restarted = some { s with requests := s.requests.eraseIdx i, handling := s.handling + 1 } :=
      if_pos (all.trans h.size.symm)
    obtain ⟨marked,bits⟩ := h.marked
    obtain ⟨info,ran,bits'⟩ := handledMarked bits whole.inside
    refine ⟨_,Option.bind_eq_some_iff.2 ⟨_,notShort,Option.bind_eq_some_iff.2 ⟨info,ran,rfl⟩⟩,?_⟩
    exact { begun with
      marked := ⟨_,bits'⟩
      whole := fun r mem => absurd (none_ ▸ mem) List.not_mem_nil
      bit := fun _ => stored }

theorem finishHeld (h : Held s) (alive : s.deleted = 0) (handling : s.handling ≠ 0) : Held s.finish := by
  have one := h.one
  have none_ : s.requests = [] := List.length_eq_zero_iff.1 (by omega)
  have last : s.handling - 1 = 0 := by omega
  exact {
    size := h.size
    small := h.small
    marked := h.marked
    one := by
      simp only [State.finish,none_,List.length_nil]
      omega
    whole := fun r mem => absurd (none_ ▸ mem) List.not_mem_nil
    bit := h.bit
    empty := fun _ => ⟨none_,last⟩
    once := by
      unfold State.finish
      dsimp only
      split <;> omega
    gone := fun _ => ⟨none_,last⟩ }

/- A careful act leads to a state that is defined, and held. -/
theorem actHeld (h : Held s) {a : Act α} (careful : Careful (some s) a) {next : Option (State α)}
    (did : act s a = some next) : ∃ s', next = some s' ∧ Held s' := by
  -- no request and no call of handle_aio_write is left for a deleted buffer
  have alive : s.requests ≠ [] ∨ s.handling ≠ 0 → s.deleted = 0 := fun some_ => by
    by_contra no
    obtain ⟨none_,quiet⟩ := h.gone no
    exact some_.elim (· none_) (· quiet)
  cases a with
  | «open» =>
    obtain ⟨_,next_⟩ := Option.ite_none_right_eq_some.1 did
    exact ⟨_,(Option.some.inj next_).symm,setRefHeld h (Nat.mod_lt _ (Nat.two_pow_pos 64))⟩
  | write bf =>
    obtain ⟨_,next_⟩ := Option.ite_none_right_eq_some.1 did
    exact ⟨_,(Option.some.inj next_).symm,writeHeld h bf⟩
  | close started =>
    obtain ⟨there,next_⟩ := Option.ite_none_right_eq_some.1 did
    obtain ⟨s',closed,held⟩ := closeHeld h there careful
    exact ⟨s',(Option.some.inj next_).symm.trans closed,held⟩
  | pwrite i result =>
    obtain ⟨r,here,rest⟩ := Option.bind_eq_some_iff.1 did
    have there := alive (Or.inl (List.ne_nil_of_mem (List.mem_of_getElem? here)))
    rw [if_pos there] at rest
    obtain ⟨_,next_⟩ := Option.ite_none_right_eq_some.1 rest
    exact ⟨_,(Option.some.inj next_).symm,pwriteHeld h here careful⟩
  | handle i restarted =>
    obtain ⟨r,here,rest⟩ := Option.bind_eq_some_iff.1 did
    obtain ⟨result,done,last⟩ := Option.bind_eq_some_iff.1 rest
    have there := alive (Or.inl (List.ne_nil_of_mem (List.mem_of_getElem? here)))
    rw [if_pos there] at last
    obtain ⟨s',handled,held⟩ := handleHeld h here done restarted
    exact ⟨s',(Option.some.inj last).symm.trans handled,held⟩
  | finish =>
    obtain ⟨handling,next_⟩ := Option.ite_none_left_eq_some.1 did
    have there := alive (Or.inr handling)
    rw [if_pos there] at next_
    exact ⟨_,(Option.some.inj next_).symm,finishHeld h there handling⟩

end Steps

/- Two bytes that are written in one piece. -/
def wholeChunk : List (Act Nat) := [.open,.write [1,2],.close true,.pwrite 0 (some 2),.handle 0 true,.finish]

/- A write of one byte of the two, which marks the chunk; the buffer is deleted while
the rest is on its way. -/
def shortWrite : List (Act Nat) := [.open,.write [1,2],.close true,.pwrite 0 (some 1),.handle 0 true,.finish]

-- A buffer that is closed half full, and one that is opened and closed again in between.
example : ¬ Always step Sound (some (start 0 2 ⟨2,['0'],.uncompleted⟩))
    [.open,.write [1],.close true,.pwrite 0 (some 2),.handle 0 true] := by decide +kernel

example : ¬ Always step Sound (some (start 0 2 ⟨2,['0'],.uncompleted⟩))
    [.open,.write [1,2],.close true,.open,.close true,.pwrite 0 (some 2),.handle 0 true,.finish] := by decide +kernel

end CuteNdk.PipeBufferWrites
