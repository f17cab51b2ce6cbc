import CuteNdk.DispatchBandwidth
import CuteNdk.SerialFileTransferRange

/-! A read that fails. handle_aio_read leaves file_io_error_ behind, and transfer_data answers it
with IO_ERR_READ_FILE_ERROR as it is, a positive number, where a send that fails is answered with
a negative one: dispatch_data takes it for progress and calls again, and the next call starts a
new read. -/
namespace CuteNdk.SerialFileTransfer
open Lib

/- The callbacks of a read; the other actions are those of the thread that sends. -/
def Act.ofReader : Act → Bool
  | .aioRead | .aioFails => true
  | _ => false

def Act.accepted : Act → Nat
  | .accept n => n
  | _ => 0

/- A read has failed before the whole content was sent, and all that was read is sent. -/
structure Transfer.ReadFailed (t : Transfer) : Prop where
  failed : t.fileIoError = true
  unsent : t.transferBytes < t.contentLength
  drained : t.sendBytes = t.bufferSize ∧ t.reserveBufferSize = 0

/- The same between two calls. -/
structure ReadFailed (s : State) : Prop where
  transfer : s.transfer.ReadFailed
  between : ∃ result, s.place = .returned result

/- What the calls are to do from there on: no read is started, and a call that returns does so
with a negative value. -/
def EndsCall (file : List Byte) (blockSize : Nat) (s : State) (a : Act) : Prop :=
  a.ofReader = false → ∀ t, step file blockSize s a = some t →
    (s.transfer.aioId = none → t.transfer.aioId = none) ∧ ∀ result, t.place = .returned result → result < 0

def EndsTransfer (file : List Byte) (blockSize : Nat) (s : State) : Prop :=
  ∀ as, Along (step file blockSize) (EndsCall file blockSize) s as

/- And what they do. -/
def GoesOn (file : List Byte) (blockSize : Nat) (s : State) (a : Act) : Prop :=
  a.ofReader = false → ∀ t, step file blockSize s a = some t → ∀ result, t.place = .returned result → 0 ≤ result

/- As long as no other read brings bytes there is nothing to send. -/
structure Failing (s : State) : Prop where
  transfer : s.transfer.ReadFailed
  nothing : ∀ maxSize transferBytes, s.place = .loop maxSize transferBytes → transferBytes = 0

section
variable {file : List Byte} {blockSize : Nat} {s t : State} {a : Act}

theorem notSending {t : Transfer} (h : t.ReadFailed) (maxSize transferBytes : Nat) :
    ¬ t.sending maxSize transferBytes := fun sends => by
  have left := sends.2.1
  have all := h.drained.1
  omega

theorem startReadFailed {t : Transfer} (h : t.ReadFailed) (started : Bool) :
    (t.startRead blockSize started).ReadFailed := by
  cases started with
  | false => exact ⟨h.failed,h.unsent,h.drained.1,rfl⟩
  | true => exact ⟨h.failed,h.unsent,h.drained⟩

theorem takeBufferFailed (blockSize : Nat) {t : Transfer} (h : t.ReadFailed) (started : Bool) :
    (t.takeBuffer blockSize started).1.ReadFailed := by
  unfold Transfer.takeBuffer
  cases buffer : t.buffer with
  | some b => exact h
  | none =>
    simp only
    split
    · exact h
    · cases reserve : t.reserveBuffer with
      | none => exact startReadFailed h started
      | some b => exact ⟨h.failed,h.unsent,h.drained.2.symm,rfl⟩

/- What is left of a buffer that is sent. -/
def Transfer.emptied (t : Transfer) : Transfer := { t with buffer := none, bufferSize := 0, sendBytes := 0 }

theorem emptiedFailed {t : Transfer} (h : t.ReadFailed) : t.emptied.ReadFailed := ⟨h.failed,h.unsent,rfl,h.drained.2⟩

/- The tail frees the buffer and answers the error with its code. -/
theorem prefetchFailed {t : Transfer} (h : t.ReadFailed) (started : Bool) (transferBytes : Nat) :
    t.prefetch blockSize started transferBytes = (t.emptied,ioErrReadFileError) := by
  have all := h.drained.1
  have half : t.sendBytes ≥ t.bufferSize / 2 := by omega
  have freed : t.freeBuffer = t.emptied := if_pos all
  have failed : t.emptied.fileIoError = true := h.failed
  unfold Transfer.prefetch
  rw [if_neg (Nat.ne_of_lt h.unsent),if_pos half,freed]
  simp only [failed,Bool.or_true,if_true]
  exact if_pos rfl

/- What a step can do then. -/
theorem failingStep (h : Failing s) (steps : step file blockSize s a = some t) (noRead : a ≠ .aioRead) :
    Failing t ∧ a.accepted = 0 ∧ (a.ofReader = false → ∀ result, t.place = .returned result → 0 ≤ result) := by
  cases stepped steps with
  | call place =>
    refine ⟨⟨takeBufferFailed blockSize h.transfer _,fun maxSize' transferBytes place => ?_⟩,rfl,fun _ result place => ?_⟩
    · simp only at place
      split at place
      · cases place
        rfl
      · cases place
    · simp only at place
      split at place
      · cases place
      · cases place
        exact Int.le_refl 0
  | accept place buffer sends packet => exact absurd sends (notSending h.transfer _ _)
  | wouldBlock place sends => exact absurd sends (notSending h.transfer _ _)
  | sendFails place sends => exact absurd sends (notSending h.transfer _ _)
  | finish place ends =>
    rw [prefetchFailed h.transfer _ _]
    refine ⟨⟨emptiedFailed h.transfer,nofun⟩,rfl,fun _ result returned => ?_⟩
    cases returned
    exact Int.natCast_nonneg 1007
  | aioRead read length => exact absurd rfl noRead
  | aioFails read => exact ⟨⟨⟨rfl,h.transfer.unsent,h.transfer.drained⟩,h.nothing⟩,rfl,nofun⟩

theorem failingRun (h : Failing s) {as : List Act} (noRead : .aioRead ∉ as) :
    Along (step file blockSize) (GoesOn file blockSize) s as := by
  induction as generalizing s with
  | nil => trivial
  | cons a as ih =>
    intro t steps
    simp only [List.mem_cons,not_or] at noRead
    have first : a ≠ .aioRead := fun same => noRead.1 same.symm
    refine ⟨fun sender u stepsTo result => ?_,ih (failingStep h steps first).1 noRead.2⟩
    exact (failingStep h stepsTo first).2.2 sender result

theorem failingOf (h : ReadFailed s) : Failing s := by
  obtain ⟨result,between⟩ := h.between
  refine ⟨h.transfer,fun maxSize transferBytes place => ?_⟩
  rw [between] at place
  cases place

/- A call that has a buffer comes back with the code of the error. -/
theorem callTakes (file : List Byte) {blockSize : Nat} (h : ReadFailed s)
    (takes : (s.transfer.takeBuffer blockSize true).2 = true) :
    run (step file blockSize) s [.call 1 true,.finish true] =
      some ⟨(s.transfer.takeBuffer blockSize true).1.emptied,.returned ioErrReadFileError,s.sent⟩ := by
  obtain ⟨transfer,place,sent⟩ := s
  obtain ⟨result,rfl⟩ := h.between
  have failed := takeBufferFailed blockSize h.transfer true
  have stops := notSending failed 1 0
  simp only at takes failed stops ⊢
  simp only [run,step,takes,if_true,Option.bind_some]
  rw [if_neg stops,prefetchFailed failed true 0]
  rfl

/- One that has none waits for the read under way, or starts one. -/
theorem callWaits (file : List Byte) {blockSize : Nat} (h : ReadFailed s)
    (waits : (s.transfer.takeBuffer blockSize true).2 = false) :
    step file blockSize s (.call 1 true) =
      some ⟨(s.transfer.takeBuffer blockSize true).1,.returned 0,s.sent⟩ := by
  obtain ⟨transfer,place,sent⟩ := s
  obtain ⟨result,rfl⟩ := h.between
  simp only at waits ⊢
  simp only [step,waits]
  rfl

theorem callsGoOn (h : ReadFailed s) : ¬ EndsTransfer file blockSize s := by
  intro ends
  cases takes : (s.transfer.takeBuffer blockSize true).2 with
  | true =>
    obtain ⟨t,first,second⟩ := Option.bind_eq_some_iff.mp (callTakes file h takes)
    obtain ⟨u,second,rest⟩ := Option.bind_eq_some_iff.mp second
    cases Option.some.inj rest
    have negative := (((ends [.call 1 true,.finish true] t first).2 _ second).1 rfl _ second).2 _ rfl
    exact absurd negative (by decide)
  | false =>
    have waits := callWaits file h takes
    have negative := ((ends [.call 1 true] _ waits).1 rfl _ waits).2 0 rfl
    exact absurd negative (by decide)

/- A read is under way after n actions of the thread that sends. -/
def Reads (file : List Byte) (blockSize n : Nat) (s : State) : Prop :=
  ∃ as t, as.length ≤ n ∧ run (step file blockSize) s as = some t ∧ t.transfer.aioId ≠ none

theorem readsLater {n : Nat} {as : List Act} (leads : run (step file blockSize) s as = some t)
    (reads : Reads file blockSize n t) : Reads file blockSize (as.length + n) s := by
  obtain ⟨bs,u,few,rest,under⟩ := reads
  refine ⟨as ++ bs,u,?_,?_,under⟩
  · simpa using few
  · rw [runAppend,leads]
    exact rest

/- With both buffers gone the call starts it. -/
theorem callReads (file : List Byte) (blockSize : Nat) (h : ReadFailed s) (idle : s.transfer.aioId = none)
    (noBuffer : s.transfer.buffer = none) (noReserve : s.transfer.reserveBuffer = none) : Reads file blockSize 1 s := by
  have taken : s.transfer.takeBuffer blockSize true = (s.transfer.startRead blockSize true,false) := by
    simp [Transfer.takeBuffer,noBuffer,idle,noReserve]
  have waits := callWaits file h (by rw [taken])
  rw [taken] at waits
  exact ⟨[.call 1 true],_,Nat.le_refl 1,by simp only [run,waits]; rfl,Option.some_ne_none _⟩

/- The reserve buffer a failed read was to fill is taken for a buffer first. -/
theorem reserveReads (file : List Byte) (blockSize : Nat) (h : ReadFailed s) (idle : s.transfer.aioId = none)
    (noBuffer : s.transfer.buffer = none) : Reads file blockSize 3 s := by
  cases reserve : s.transfer.reserveBuffer with
  | none =>
    obtain ⟨as,t,few,rest⟩ := callReads file blockSize h idle noBuffer reserve
    exact ⟨as,t,by omega,rest⟩
  | some b =>
    have taken : s.transfer.takeBuffer blockSize true =
        ({ s.transfer with
            buffer := some b, bufferSize := s.transfer.reserveBufferSize, sendBytes := 0,
            reserveBuffer := none, reserveBufferSize := 0 },true) := by
      simp [Transfer.takeBuffer,noBuffer,idle,reserve]
    have failed := emptiedFailed (takeBufferFailed blockSize h.transfer true)
    have leads := callTakes file h (by rw [taken])
    rw [taken] at failed leads
    exact readsLater leads (callReads file blockSize ⟨failed,_,rfl⟩ idle rfl rfl)

theorem bufferReads (h : ReadFailed s) : Reads file blockSize 5 s := by
  by_cases idle : s.transfer.aioId = none
  · cases buffer : s.transfer.buffer with
    | none =>
      obtain ⟨as,t,few,rest⟩ := reserveReads file blockSize h idle buffer
      exact ⟨as,t,by omega,rest⟩
    | some b =>
      have taken : s.transfer.takeBuffer blockSize true = (s.transfer,true) := by
        simp [Transfer.takeBuffer,buffer]
      have leads := callTakes file h (by rw [taken])
      rw [taken] at leads
      exact readsLater leads (reserveReads file blockSize ⟨emptiedFailed h.transfer,_,rfl⟩ idle rfl)
  · exact ⟨[],s,Nat.zero_le 5,rfl,idle⟩

end

/- dispatch_data counts what the transfer counts. -/
section Dispatch
open DispatchBandwidth (Stage pushJob start)

structure Counts (file : List Byte) (d : DispatchBandwidth.State) (s : State) : Prop where
  agent : d.job.agent = .serial file s
  contentLength : d.job.contentLength = s.transfer.contentLength
  transferBytes : d.job.transferBytes + d.stage.pending = s.transfer.transferBytes

theorem takeBufferCounts (t : Transfer) (blockSize : Nat) (started : Bool) :
    (t.takeBuffer blockSize started).1.transferBytes = t.transferBytes ∧
      (t.takeBuffer blockSize started).1.contentLength = t.contentLength := by
  unfold Transfer.takeBuffer
  cases t.buffer with
  | some b => exact ⟨rfl,rfl⟩
  | none =>
    simp only
    split
    · exact ⟨rfl,rfl⟩
    · cases t.reserveBuffer with
      | none => cases started <;> exact ⟨rfl,rfl⟩
      | some b => exact ⟨rfl,rfl⟩

theorem prefetchCounts (t : Transfer) (blockSize : Nat) (started : Bool) (transferBytes : Nat) :
    (t.prefetch blockSize started transferBytes).1.transferBytes = t.transferBytes ∧
      (t.prefetch blockSize started transferBytes).1.contentLength = t.contentLength := by
  obtain ⟨bytes,content,_⟩ := freeBufferKeeps t
  unfold Transfer.prefetch
  split
  · exact ⟨rfl,rfl⟩
  · split
    · simp only
      split
      · split <;> exact ⟨bytes,content⟩
      · split
        · cases started <;> exact ⟨bytes,content⟩
        · exact ⟨bytes,content⟩
    · exact ⟨rfl,rfl⟩

theorem stepCounts {file : List Byte} {blockSize : Nat} {s t : State} {a : Act}
    (steps : step file blockSize s a = some t) :
    t.transfer.transferBytes = s.transfer.transferBytes + a.accepted ∧
      t.transfer.contentLength = s.transfer.contentLength := by
  cases stepped steps with
  | call place => exact takeBufferCounts s.transfer blockSize _
  | accept place buffer sends packet => exact ⟨rfl,rfl⟩
  | wouldBlock place sends => exact ⟨rfl,rfl⟩
  | sendFails place sends => exact ⟨rfl,rfl⟩
  | finish place ends => exact prefetchCounts s.transfer blockSize _ _
  | aioRead read length =>
    simp only [Transfer.handleAioRead]
    split <;> exact ⟨rfl,rfl⟩
  | aioFails read => exact ⟨rfl,rfl⟩

/- The counters of the job apart from its balance. -/
structure SameJob (d e : DispatchBandwidth.State) : Prop where
  stopped : e.job.stopped = d.job.stopped
  contentLength : e.job.contentLength = d.job.contentLength
  transferBytes : e.job.transferBytes = d.job.transferBytes

/- What a step of dispatch_data does to a serial transfer: nothing outside of a call, a step of
the transfer, or the step behind a call. -/
inductive Dispatched (file : List Byte) (blockSize : Nat) (d e : DispatchBandwidth.State) (s : State) :
    DispatchBandwidth.Act → State → Prop where
  | outside {a : DispatchBandwidth.Act} (job : SameJob d e) (before : ∀ n, d.stage ≠ .calling n)
      (after : ∀ n, e.stage ≠ .calling n) : Dispatched file blockSize d e s a s
  | call {t : State} (maxSize : Nat) (started : Bool) (job : SameJob d e) (before : d.stage = .loop)
      (after : e.stage = .calling 0) (steps : step file blockSize s (.call maxSize started) = some t) :
      Dispatched file blockSize d e s (.test started) t
  | reader {t : State} (a : Act) (job : SameJob d e) (reads : a.ofReader = true) (stage : e.stage = d.stage)
      (steps : step file blockSize s a = some t) : Dispatched file blockSize d e s (.transfer a) t
  | sender {t : State} {n : Nat} (a : Act) (job : SameJob d e) (sends : a.ofReader = false)
      (before : d.stage = .calling n) (after : e.stage = .calling (n + a.accepted))
      (steps : step file blockSize s a = some t) : Dispatched file blockSize d e s (.transfer a) t
  | transferred {n : Nat} {result : Int} (before : d.stage = .calling n) (back : s.place = .returned result)
      (leads : e = DispatchBandwidth.transferred d n result) : Dispatched file blockSize d e s .transferred s

theorem agentSteps {file : List Byte} {blockSize : Nat} {s : State} {g : DispatchBandwidth.Agent} {a : Act}
    (steps : (DispatchBandwidth.Agent.serial file s).step blockSize a = some g) :
    ∃ t, step file blockSize s a = some t ∧ g = .serial file t := by
  obtain ⟨t,moved,rfl⟩ := Option.map_eq_some_iff.mp steps
  exact ⟨t,moved,rfl⟩

theorem tickKeeps (d : DispatchBandwidth.State) (away : d.stage = .away) (now : TimeValue) :
    (DispatchBandwidth.tick d now).job.agent = d.job.agent ∧ SameJob d (DispatchBandwidth.tick d now) ∧
      ∀ n, (DispatchBandwidth.tick d now).stage ≠ .calling n := by
  unfold DispatchBandwidth.tick
  split
  · exact ⟨rfl,⟨rfl,rfl,rfl⟩,by rw [away]; nofun⟩
  · split
    · exact ⟨rfl,⟨rfl,rfl,rfl⟩,by rw [away]; nofun⟩
    · unfold DispatchBandwidth.outOfBandwidth
      split
      · rename_i job' late
        split at late
        · cases Option.some.inj late
          exact ⟨rfl,⟨rfl,rfl,rfl⟩,by simp only [away]; nofun⟩
        · cases late
      · exact ⟨rfl,⟨rfl,rfl,rfl⟩,nofun⟩

theorem dispatchedOf {file : List Byte} {blockSize : Nat} {d e : DispatchBandwidth.State} {s : State}
    {a : DispatchBandwidth.Act} (agent : d.job.agent = .serial file s)
    (steps : DispatchBandwidth.step blockSize d a = some e) :
    ∃ t, e.job.agent = .serial file t ∧ Dispatched file blockSize d e s a t := by
  cases a with
  | tick now =>
    simp only [DispatchBandwidth.step] at steps
    split at steps
    · rename_i away
      cases Option.some.inj steps
      obtain ⟨same,job,after⟩ := tickKeeps d away now
      exact ⟨s,same.trans agent,.outside job (by rw [away]; nofun) after⟩
    · cases steps
  | test started =>
    simp only [DispatchBandwidth.step] at steps
    split at steps
    · rename_i loop
      split at steps
      · obtain ⟨g,called,rfl⟩ := Option.map_eq_some_iff.mp steps
        rw [agent] at called
        obtain ⟨t,taken,rfl⟩ := agentSteps called
        exact ⟨t,rfl,.call _ started ⟨rfl,rfl,rfl⟩ loop rfl taken⟩
      · cases Option.some.inj steps
        exact ⟨s,agent,.outside ⟨rfl,rfl,rfl⟩ (by rw [loop]; nofun) nofun⟩
    · cases steps
  | transfer a =>
    cases a with
    | call maxSize started => cases steps
    | aioRead | aioFails =>
      obtain ⟨g,moved,rfl⟩ := Option.map_eq_some_iff.mp steps
      rw [agent] at moved
      obtain ⟨t,taken,rfl⟩ := agentSteps moved
      exact ⟨t,rfl,.reader _ ⟨rfl,rfl,rfl⟩ rfl rfl taken⟩
    | accept n | wouldBlock | sendFails | finish started =>
      simp only [DispatchBandwidth.step] at steps
      cases stage : d.stage with
      | away | loop =>
        rw [stage] at steps
        cases steps
      | calling transferBytes =>
        rw [stage] at steps
        obtain ⟨g,moved,rfl⟩ := Option.map_eq_some_iff.mp steps
        rw [agent] at moved
        obtain ⟨t,taken,rfl⟩ := agentSteps moved
        refine ⟨t,rfl,.sender _ ⟨rfl,rfl,rfl⟩ rfl stage ?_ taken⟩
        simp only [DispatchBandwidth.State.accepts,Act.accepted,Nat.add_zero]
  | transferred =>
    simp only [DispatchBandwidth.step] at steps
    split at steps
    · rename_i transferBytes result stage place
      cases Option.some.inj steps
      rw [agent] at place
      refine ⟨s,?_,.transferred stage place rfl⟩
      unfold DispatchBandwidth.transferred
      simp only
      split <;> split <;> exact agent
    · cases steps
  | closePending =>
    simp only [DispatchBandwidth.step] at steps
    split at steps
    · rename_i away
      cases Option.some.inj steps
      exact ⟨s,agent,.outside ⟨rfl,rfl,rfl⟩ (by rw [away]; nofun) (by simp only [away]; nofun)⟩
    · cases steps

variable {file : List Byte} {blockSize : Nat} {d e : DispatchBandwidth.State} {s : State}

theorem outsidePending {stage : Stage} (outside : ∀ n, stage ≠ .calling n) : stage.pending = 0 := by
  cases stage with
  | away | loop => rfl
  | calling n => exact absurd rfl (outside n)

theorem transferredAgent (d : DispatchBandwidth.State) (n : Nat) (result : Int) :
    (DispatchBandwidth.transferred d n result).job.contentLength = d.job.contentLength ∧
      (DispatchBandwidth.transferred d n result).job.transferBytes = d.job.transferBytes + n ∧
      ∀ m, (DispatchBandwidth.transferred d n result).stage ≠ .calling m := by
  unfold DispatchBandwidth.transferred
  simp only
  generalize (if d.job.transferBytes + n = d.job.contentLength then -1 else result) = result
  split
  · exact ⟨rfl,rfl,nofun⟩
  · refine ⟨rfl,rfl,?_⟩
    simp only
    split <;> nofun

theorem dispatchCounts {a : DispatchBandwidth.Act} (c : Counts file d s)
    (steps : DispatchBandwidth.step blockSize d a = some e) : ∃ t, Counts file e t := by
  obtain ⟨t,agent,moved⟩ := dispatchedOf c.agent steps
  have content := c.contentLength
  have bytes := c.transferBytes
  refine ⟨t,agent,?_,?_⟩
  · cases moved with
    | outside job before after => exact job.contentLength.trans content
    | call maxSize started job before after taken => rw [job.contentLength,content,(stepCounts taken).2]
    | reader a job reads stage taken => rw [job.contentLength,content,(stepCounts taken).2]
    | sender a job sends before after taken => rw [job.contentLength,content,(stepCounts taken).2]
    | transferred before back leads =>
      rw [leads,(transferredAgent d _ _).1]
      exact content
  · cases moved with
    | outside job before after =>
      rw [outsidePending before] at bytes
      rw [job.transferBytes,outsidePending after]
      exact bytes
    | call maxSize started job before after taken =>
      rw [before] at bytes
      rw [job.transferBytes,after,(stepCounts taken).1]
      exact bytes
    | reader a job reads stage taken =>
      have none_ : a.accepted = 0 := by
        cases a with
        | accept n => cases reads
        | _ => rfl
      rw [job.transferBytes,stage,(stepCounts taken).1,none_]
      exact bytes
    | sender a job sends before after taken =>
      rw [before] at bytes
      rw [job.transferBytes,after,(stepCounts taken).1,← bytes]
      exact (Nat.add_assoc _ _ _).symm
    | transferred before back leads =>
      rw [before] at bytes
      rw [leads,outsidePending (transferredAgent d _ _).2.2,(transferredAgent d _ _).2.1]
      exact bytes

/- A job that is not stopped, and no call of it comes back to stop it. -/
structure JobFailing (file : List Byte) (d : DispatchBandwidth.State) (s : State) : Prop where
  counts : Counts file d s
  failing : Failing s
  running : d.job.stopped = false
  call : ∀ n, d.stage = .calling n → n = 0 ∧ ∀ result, s.place = .returned result → 0 ≤ result

theorem notStopped {result : Int} (running : d.job.stopped = false) (unsent : d.job.transferBytes < d.job.contentLength)
    (progress : 0 ≤ result) : (DispatchBandwidth.transferred d 0 result).job.stopped = false := by
  have unfinished : d.job.transferBytes + 0 ≠ d.job.contentLength := Nat.ne_of_lt unsent
  unfold DispatchBandwidth.transferred
  simp only
  split
  · rename_i whole
    exact absurd whole unfinished
  · split
    · rename_i negative
      exact absurd negative (Int.not_lt.mpr progress)
    · exact running

theorem dispatchFailing {a : DispatchBandwidth.Act} (h : JobFailing file d s) (noRead : a ≠ .transfer .aioRead)
    (steps : DispatchBandwidth.step blockSize d a = some e) : ∃ t, JobFailing file e t := by
  obtain ⟨t,agent,moved⟩ := dispatchedOf h.counts.agent steps
  obtain ⟨t',counts⟩ := dispatchCounts h.counts steps
  have same : t' = t := by
    have both := counts.agent.symm.trans agent
    injection both
  subst same
  cases moved with
  | outside job before after =>
    exact ⟨_,counts,h.failing,job.stopped.trans h.running,fun n stage => absurd stage (after n)⟩
  | call maxSize started job before after taken =>
    obtain ⟨failing,_,back⟩ := failingStep h.failing taken nofun
    refine ⟨_,counts,failing,job.stopped.trans h.running,fun n stage => ?_⟩
    rw [after] at stage
    cases stage
    exact ⟨rfl,back rfl⟩
  | reader a job reads stage taken =>
    have failed : a = .aioFails := by
      cases a with
      | aioRead => exact absurd rfl noRead
      | aioFails => rfl
      | _ => cases reads
    subst failed
    obtain ⟨failing,_⟩ := failingStep h.failing taken nofun
    refine ⟨_,counts,failing,job.stopped.trans h.running,fun n calls => ?_⟩
    rw [stage] at calls
    refine ⟨(h.call n calls).1,fun result place => (h.call n calls).2 result ?_⟩
    cases stepped taken
    exact place
  | sender a job sends before after taken =>
    have other : a ≠ .aioRead := fun same => by
      subst same
      cases sends
    obtain ⟨failing,nothing,back⟩ := failingStep h.failing taken other
    refine ⟨_,counts,failing,job.stopped.trans h.running,fun n stage => ?_⟩
    obtain ⟨rfl,_⟩ := h.call _ before
    rw [after,nothing] at stage
    cases stage
    exact ⟨rfl,back sends⟩
  | transferred before back leads =>
    obtain ⟨rfl,progress⟩ := h.call _ before
    have unsent := h.failing.transfer.unsent
    rw [← h.counts.contentLength,← h.counts.transferBytes,before] at unsent
    refine ⟨_,counts,h.failing,?_,fun n stage => ?_⟩
    · rw [leads]
      exact notStopped h.running unsent (progress _ back)
    · rw [leads] at stage
      exact absurd stage ((transferredAgent d 0 _).2.2 n)

theorem startCounts (file : List Byte) (blockSize beginPos contentLength : Nat) (started : Bool) (bandwidth : Int)
    (now : TimeValue) : ∃ s, Counts file
      (start (pushJob (.serial file (openTransfer blockSize beginPos contentLength started)) bandwidth contentLength now)) s := by
  refine ⟨_,rfl,?_,?_⟩ <;> cases started <;> rfl

theorem runCounts {bs : List DispatchBandwidth.Act} (c : Counts file d s)
    (leads : run (DispatchBandwidth.step blockSize) d bs = some e) : ∃ t, Counts file e t := by
  have counted : Always (DispatchBandwidth.step blockSize) (fun d => ∃ s, Counts file d s) d bs :=
    alwaysInvariant (fun _ _ _ ⟨_,c⟩ steps => dispatchCounts c steps) ⟨s,c⟩ bs
  have ends := alwaysAtEnd counted leads
  exact ends

theorem runFailing {bs : List DispatchBandwidth.Act} (h : JobFailing file d s)
    (noRead : .transfer .aioRead ∉ bs) :
    Always (DispatchBandwidth.step blockSize) (fun e => e.job.stopped = false) d bs := by
  induction bs generalizing d s with
  | nil => exact h.running
  | cons a bs ih =>
    simp only [List.mem_cons,not_or] at noRead
    refine ⟨h.running,fun e steps => ?_⟩
    obtain ⟨t,next⟩ := dispatchFailing h (fun same => noRead.1 same.symm) steps
    exact ih next noRead.2

end Dispatch

/- From a read that failed on, as long as no later one succeeds, no call returns a negative value
and dispatch_data does not stop the job; one of the next three calls starts a read. -/
theorem readErrorEndsNothing {file : List Byte} {blockSize : Nat} {s : State} (failed : ReadFailed s) :
    ¬ EndsTransfer file blockSize s ∧
    (∀ as, .aioRead ∉ as → Along (step file blockSize) (GoesOn file blockSize) s as) ∧
    Reads file blockSize 5 s ∧
    ∀ (beginPos contentLength : Nat) (started : Bool) (bandwidth : Int) (now : TimeValue)
      (bs : List DispatchBandwidth.Act) (d : DispatchBandwidth.State),
      run (DispatchBandwidth.step blockSize) (DispatchBandwidth.start (DispatchBandwidth.pushJob
        (.serial file (openTransfer blockSize beginPos contentLength started)) bandwidth contentLength now)) bs = some d →
      d.job.agent = .serial file s → d.job.stopped = false → (∀ n, d.stage ≠ .calling n) →
      ∀ cs, .transfer .aioRead ∉ cs →
        Always (DispatchBandwidth.step blockSize) (fun e => e.job.stopped = false) d cs := by
  refine ⟨callsGoOn failed,fun as noRead => failingRun (failingOf failed) noRead,bufferReads failed,?_⟩
  intro beginPos contentLength started bandwidth now bs d leads agent running between cs noRead
  obtain ⟨s₀,first⟩ := startCounts file blockSize beginPos contentLength started bandwidth now
  obtain ⟨t,counts⟩ := runCounts first leads
  have same : t = s := by
    have both := counts.agent.symm.trans agent
    injection both
  subst same
  exact runFailing ⟨counts,failingOf failed,running,fun n calls => absurd calls (between n)⟩ noRead

/- The first read of a file of two blocks fails. -/
def failedAtOnce : State :=
  { openTransfer 4096 0 8192 true with transfer := (openTransfer 4096 0 8192 true).transfer.handleAioError }

theorem failedAtOnceReadFailed : ReadFailed failedAtOnce := ⟨⟨rfl,by decide,rfl,rfl⟩,_,rfl⟩

theorem failedAtOnceRetries : Reads [] 4096 5 failedAtOnce := (readErrorEndsNothing failedAtOnceReadFailed).2.2.1

/- Its job after two calls: not stopped, and the read of the second one under way. -/
theorem failedAtOnceGoesOn :
    run (step [] 4096) (openTransfer 4096 0 8192 true) [.aioFails] = some failedAtOnce ∧
    ReadFailed failedAtOnce ∧ ¬ EndsTransfer [] 4096 failedAtOnce ∧
    (run (DispatchBandwidth.step 4096) (DispatchBandwidth.start (DispatchBandwidth.pushJob
        (.serial [] (openTransfer 4096 0 8192 true)) 8 8192 .zero))
      [.transfer .aioFails,.tick (.set 0 25000),.test true,.transfer (.finish true),.transferred,.test true,
        .transferred]).map (fun d => (d.job.stopped,d.stage,d.job.agent.place)) = some (false,.away,.returned 0) := by
  refine ⟨rfl,failedAtOnceReadFailed,fun ends => ?_,by decide⟩
  obtain ⟨_,along⟩ := ends [.call 1 true,.finish true] _ rfl
  obtain ⟨ended,_⟩ := along _ rfl
  exact absurd ((ended rfl _ rfl).2 1007 rfl) (by decide)

end CuteNdk.SerialFileTransfer
