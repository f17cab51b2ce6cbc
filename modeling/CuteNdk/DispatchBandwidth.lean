import CuteNdk.MemCacheTransfer
import CuteNdk.TimeValue
import CuteNdk.Lib.Allowance
import CuteNdk.Lib.Run
import Mathlib.Algebra.Order.Group.Int

/-! The bandwidth of a job of dispatch_data_task. A tick grants a credit, the loop behind it
sends by the agent of the job as long as there is some left, and a second after the last time
the balance is set back to 0 whatever it is. -/
namespace CuteNdk.DispatchBandwidth
open SerialFileTransfer (Byte Place onceTransferPacketSize)
open Lib (Allowance Always run alwaysInvariant alwaysMono)
open Lib.Allowance (Kept keptStart keptGrant keptReset keptSpend keptTotal)

def timePiece : Int := 25

/- transfer_agent: the two kinds, the second with its file. -/
inductive Agent where
  | memCache (s : MemCacheTransfer.State)
  | serial (file : List Byte) (s : SerialFileTransfer.State)

def Agent.place : Agent → Place
  | .memCache s => s.place
  | .serial _ s => s.place

def Agent.step (blockSize : Nat) (g : Agent) (a : SerialFileTransfer.Act) : Option Agent :=
  match g with
  | .memCache s => (MemCacheTransfer.step s a).map .memCache
  | .serial file s => (SerialFileTransfer.step file blockSize s a).map (.serial file)

structure Job where
  agent : Agent
  stopped : Bool
  closePending : Bool
  bandwidth : Int
  bytesToSendPerTimep : Int
  contentLength : Nat
  transferBytes : Nat
  lastCheckBandwidthTime : TimeValue

/- The job handle_start_transfer_data makes and push_job puts into the queue at that time. -/
def pushJob (agent : Agent) (bandwidth : Int) (contentLength : Nat) (now : TimeValue) : Job where
  agent := agent
  stopped := false
  closePending := false
  bandwidth := bandwidth
  bytesToSendPerTimep := 0
  contentLength := contentLength
  transferBytes := 0
  lastCheckBandwidthTime := now

/- Where dispatch_data is with the job: not at it, in front of the test of its loop, or in a call
of transfer_data with the transfer_bytes of that call. -/
inductive Stage where
  | away
  | loop
  | calling (transferBytes : Nat)
  deriving DecidableEq, Repr

/- The credits granted, the bytes sent and the times the balance was set back, from the start. -/
structure State where
  job : Job
  stage : Stage
  granted : Int
  sent : Int
  resets : Nat

def start (job : Job) : State := ⟨job,.away,0,0,0⟩

/- An unsigned long. -/
def msec (t : TimeValue) : Int := (t.sec * 1000 + t.usec.tdiv 1000) % 18446744073709551616

def outOfBandwidth (job : Job) (now : TimeValue) : Option Job :=
  if 1000 < msec (now - job.lastCheckBandwidthTime) then
    some { job with lastCheckBandwidthTime := now, bytesToSendPerTimep := 0 }
  else none

def Job.credit (job : Job) : Int := ((job.bandwidth * 1024).tdiv (Int.tdiv 1000 timePiece)).tdiv 8

/- dispatch_data at the job. One that is to be closed is only asked whether it is. -/
def tick (s : State) (now : TimeValue) : State :=
  if s.job.closePending then s
  else if s.job.stopped then s
  else
    match outOfBandwidth s.job now with
    | some job => { s with job := job, resets := s.resets + 1 }
    | none => { s with
        job := { s.job with bytesToSendPerTimep := s.job.bytesToSendPerTimep + s.job.credit }
        stage := .loop
        granted := s.granted + s.job.credit }

/- Behind a call of transfer_data. -/
def transferred (s : State) (transferBytes : Nat) (result : Int) : State :=
  let job := { s.job with
    bytesToSendPerTimep := s.job.bytesToSendPerTimep - transferBytes
    transferBytes := s.job.transferBytes + transferBytes }
  let result := if job.transferBytes = job.contentLength then -1 else result
  if result < 0 then { s with job := { job with stopped := true }, stage := .away }
  else { s with job := job, stage := if result = 0 then .away else .loop }

/- The bytes transfer_data adds to its transfer_bytes, and what it has sent. -/
def State.accepts (s : State) (transferBytes : Nat) : SerialFileTransfer.Act → State
  | .accept n => { s with stage := .calling (transferBytes + n), sent := s.sent + n }
  | _ => s

inductive Act where
  | tick (now : TimeValue)
  | test (started : Bool)
  | transfer (a : SerialFileTransfer.Act)
  | transferred
  | closePending

/- The callback of a read comes at any time; the rest of the agent runs in its call. -/
def step (blockSize : Nat) (s : State) : Act → Option State
  | .tick now => if s.stage = .away then some (tick s now) else none
  | .test started =>
    if s.stage = .loop then
      if 0 < s.job.bytesToSendPerTimep then
        (s.job.agent.step blockSize (.call s.job.bytesToSendPerTimep.toNat started)).map fun agent =>
          { s with job := { s.job with agent := agent }, stage := .calling 0 }
      else some { s with stage := .away }
    else none
  | .transfer a => match a, s.stage with
    | .call _ _, _ => none
    | .aioRead, _ | .aioFails, _ =>
      (s.job.agent.step blockSize a).map fun agent => { s with job := { s.job with agent := agent } }
    | a, .calling transferBytes =>
      (s.job.agent.step blockSize a).map fun agent =>
        State.accepts { s with job := { s.job with agent := agent } } transferBytes a
    | _, _ => none
  | .transferred => match s.stage, s.job.agent.place with
    | .calling transferBytes, .returned result => some (transferred s transferBytes result)
    | _, _ => none
  | .closePending => if s.stage = .away then some { s with job := { s.job with closePending := true } } else none

section Agents
variable {blockSize : Nat} {a : SerialFileTransfer.Act}

/- What an action of an agent does to the place its thread is at. -/
def Moves (p p' : Place) : SerialFileTransfer.Act → Prop
  | .call maxSize _ => p' = .loop maxSize 0 ∨ ∃ result, p' = .returned result
  | .accept n => ∃ maxSize transferBytes, p = .loop maxSize transferBytes ∧ transferBytes < maxSize ∧
      n ≤ onceTransferPacketSize ∧ p' = .loop maxSize (transferBytes + n)
  | .aioRead | .aioFails => p' = p
  | _ => ∃ result, p' = .returned result

theorem memCachePacket (s : MemCacheTransfer.State) : s.packet ≤ onceTransferPacketSize := by
  unfold MemCacheTransfer.State.packet
  simp only
  split <;> omega

theorem serialPacket (t : SerialFileTransfer.Transfer) : t.packet ≤ onceTransferPacketSize := by
  unfold SerialFileTransfer.Transfer.packet
  simp only
  split <;> omega

theorem memCacheMoves {s t : MemCacheTransfer.State} (moved : MemCacheTransfer.step s a = some t) : Moves s.place t.place a := by
  unfold MemCacheTransfer.step at moved
  cases a with
  | call maxSize started =>
    simp only at moved
    split at moved
    · cases moved
    · cases Option.some.inj moved
      exact .inl rfl
  | accept n =>
    simp only at moved
    split at moved
    · rename_i maxSize transferBytes place
      split at moved
      · rename_i sends
        cases Option.some.inj moved
        refine ⟨maxSize,transferBytes,place,sends.1.1,?_,rfl⟩
        have packet := Int.le_trans sends.2 (memCachePacket s)
        omega
      · cases moved
    · cases moved
  | wouldBlock | sendFails | finish started =>
    simp only at moved
    split at moved
    · split at moved <;> cases moved
      exact ⟨_,rfl⟩
    · cases moved
  | aioRead => cases moved
  | aioFails => cases moved

theorem serialMoves {file : List Byte} {s t : SerialFileTransfer.State}
    (moved : SerialFileTransfer.step file blockSize s a = some t) : Moves s.place t.place a := by
  cases SerialFileTransfer.stepped moved with
  | call place =>
    simp only [Moves]
    split
    · exact .inl rfl
    · exact .inr ⟨0,rfl⟩
  | accept place buffer sends packet =>
    exact ⟨_,_,place,sends.1,Nat.le_trans packet (serialPacket s.transfer),rfl⟩
  | wouldBlock place sends => exact ⟨_,rfl⟩
  | sendFails place sends => exact ⟨_,rfl⟩
  | finish place ends => exact ⟨_,rfl⟩
  | aioRead read length => rfl
  | aioFails read => rfl

theorem agentMoves {g g' : Agent} (moved : g.step blockSize a = some g') : Moves g.place g'.place a := by
  cases g with
  | memCache s =>
    obtain ⟨t,taken,rfl⟩ := Option.map_eq_some_iff.mp moved
    exact memCacheMoves taken
  | serial file s =>
    obtain ⟨t,taken,rfl⟩ := Option.map_eq_some_iff.mp moved
    exact serialMoves taken

end Agents

/- transfer_bytes of a call that is not yet taken off the balance. -/
def Stage.pending : Stage → Nat
  | .calling transferBytes => transferBytes
  | _ => 0

def State.allowance (s : State) : Allowance Int := ⟨s.job.bytesToSendPerTimep,s.granted,s.sent - s.stage.pending,s.resets⟩

/- In a call the agent knows the balance as max_size, and is at the transfer_bytes of the call. -/
structure Inv (s : State) : Prop where
  bandwidth : 0 ≤ s.job.bandwidth
  kept : Kept 4095 s.allowance
  call : ∀ transferBytes, s.stage = .calling transferBytes →
    0 < s.job.bytesToSendPerTimep ∧ transferBytes ≤ s.job.bytesToSendPerTimep + 4095 ∧
    ∀ maxSize sending, s.job.agent.place = .loop maxSize sending →
      maxSize = s.job.bytesToSendPerTimep.toNat ∧ sending = transferBytes

section Steps
variable {blockSize : Nat} {s t : State}

theorem startInv {agent : Agent} {bandwidth : Int} (contentLength : Nat) (now : TimeValue) (some_ : 0 ≤ bandwidth) :
    Inv (start (pushJob agent bandwidth contentLength now)) := ⟨some_,keptStart (by decide),nofun⟩

theorem creditPos {job : Job} (some_ : 0 ≤ job.bandwidth) : 0 ≤ job.credit := by
  have kilo : 0 ≤ job.bandwidth * 1024 := Int.mul_nonneg some_ (by decide)
  exact Int.tdiv_nonneg (Int.tdiv_nonneg kilo (by decide)) (by decide)

theorem tickInv (h : Inv s) (away : s.stage = .away) (now : TimeValue) : Inv (tick s now) := by
  obtain ⟨job,stage,granted,sent,resets⟩ := s
  cases away
  unfold tick
  split
  · exact h
  · split
    · exact h
    · unfold outOfBandwidth
      split
      · rename_i job' late
        split at late
        · cases Option.some.inj late
          exact ⟨h.bandwidth,keptReset h.kept (by decide),nofun⟩
        · cases late
      · exact ⟨h.bandwidth,keptGrant h.kept (creditPos h.bandwidth),nofun⟩

/- The call is taken off the balance it began with. -/
theorem transferredInv {transferBytes : Nat} (h : Inv s) (stage : s.stage = .calling transferBytes) (result : Int) :
    Inv (transferred s transferBytes result) := by
  obtain ⟨job,at_,granted,sent,resets⟩ := s
  cases stage
  obtain ⟨_,within,_⟩ := h.call transferBytes rfl
  have spent := keptSpend h.kept within
  have whole : sent - (transferBytes : Int) + transferBytes = sent - (0 : Nat) := by omega
  unfold Allowance.spend at spent
  simp only [State.allowance,Stage.pending,whole] at spent
  unfold transferred
  simp only
  generalize (if job.transferBytes + transferBytes = job.contentLength then -1 else result) = result
  split
  · exact ⟨h.bandwidth,spent,nofun⟩
  · refine ⟨h.bandwidth,?_,?_⟩
    · unfold State.allowance
      simp only
      split <;> exact spent
    · simp only
      split <;> nofun

theorem agentInv {agent : Agent} (h : Inv s) (same : agent.place = s.job.agent.place) :
    Inv { s with job := { s.job with agent := agent } } := by
  refine ⟨h.bandwidth,h.kept,fun transferBytes stage => ?_⟩
  simp only [same]
  exact h.call transferBytes stage

/- transfer_data is called with the balance as its max_size. -/
theorem callInv {g : Agent} {started : Bool} (h : Inv s) (loop : s.stage = .loop) (some_ : 0 < s.job.bytesToSendPerTimep)
    (called : s.job.agent.step blockSize (.call s.job.bytesToSendPerTimep.toNat started) = some g) :
    Inv { s with job := { s.job with agent := g }, stage := .calling 0 } := by
  obtain ⟨job,stage,granted,sent,resets⟩ := s
  cases loop
  refine ⟨h.bandwidth,h.kept,fun transferBytes stage => ?_⟩
  cases stage
  have begins : ((0 : Nat) : Int) ≤ job.bytesToSendPerTimep + 4095 := by
    simp only at some_
    omega
  refine ⟨some_,begins,fun maxSize sending place => ?_⟩
  rcases agentMoves called with first | ⟨result,back⟩
  · rw [first] at place
    cases place
    exact ⟨rfl,rfl⟩
  · rw [back] at place
    cases place

theorem acceptInv {g : Agent} {transferBytes n : Nat} (h : Inv s) (stage : s.stage = .calling transferBytes)
    (accepted : s.job.agent.step blockSize (.accept n) = some g) :
    Inv { s with job := { s.job with agent := g }, stage := .calling (transferBytes + n), sent := s.sent + n } := by
  obtain ⟨job,at_,granted,sent,resets⟩ := s
  cases stage
  obtain ⟨some_,_,counts⟩ := h.call transferBytes rfl
  obtain ⟨maxSize,sending,place,more,packet,place'⟩ := agentMoves accepted
  obtain ⟨size,bytes⟩ := counts maxSize sending place
  have same : sent + (n : Int) - (transferBytes + n : Nat) = sent - transferBytes := by omega
  have within : ((transferBytes + n : Nat) : Int) ≤ job.bytesToSendPerTimep + 4095 := by
    simp only [onceTransferPacketSize] at packet size some_
    omega
  refine ⟨h.bandwidth,?_,fun now stage => ?_⟩
  · simp only [State.allowance,Stage.pending,same]
    exact h.kept
  · cases stage
    refine ⟨some_,within,fun maxSize' sending' place'' => ?_⟩
    simp only [place'] at place''
    cases place''
    exact ⟨size,by rw [bytes]⟩

theorem returnInv {g : Agent} {transferBytes : Nat} {result : Int} (h : Inv s) (stage : s.stage = .calling transferBytes)
    (back : g.place = .returned result) : Inv { s with job := { s.job with agent := g }, stage := .calling transferBytes } := by
  obtain ⟨job,at_,granted,sent,resets⟩ := s
  cases stage
  refine ⟨h.bandwidth,h.kept,fun now stage => ?_⟩
  cases stage
  obtain ⟨some_,within,_⟩ := h.call transferBytes rfl
  refine ⟨some_,within,fun maxSize sending place => ?_⟩
  simp only [back] at place
  cases place

theorem transferInv {a : SerialFileTransfer.Act} (h : Inv s) (taken : step blockSize s (.transfer a) = some t) : Inv t := by
  unfold step at taken
  cases a with
  | call maxSize started => cases taken
  | aioRead | aioFails =>
    obtain ⟨g,moved,rfl⟩ := Option.map_eq_some_iff.mp taken
    exact agentInv h (agentMoves moved)
  | accept n =>
    simp only at taken
    cases stage : s.stage with
    | away | loop =>
      rw [stage] at taken
      cases taken
    | calling transferBytes =>
      rw [stage] at taken
      obtain ⟨g,moved,rfl⟩ := Option.map_eq_some_iff.mp taken
      exact acceptInv h stage moved
  | wouldBlock | sendFails | finish started =>
    simp only at taken
    cases stage : s.stage with
    | away | loop =>
      rw [stage] at taken
      cases taken
    | calling transferBytes =>
      rw [stage] at taken
      obtain ⟨g,moved,rfl⟩ := Option.map_eq_some_iff.mp taken
      obtain ⟨result,back⟩ := agentMoves moved
      exact returnInv h stage back

theorem stepInv {a : Act} (h : Inv s) (taken : step blockSize s a = some t) : Inv t := by
  cases a with
  | transfer a => exact transferInv h taken
  | tick now =>
    unfold step at taken
    simp only at taken
    split at taken
    · rename_i away
      cases Option.some.inj taken
      exact tickInv h away now
    · cases taken
  | test started =>
    unfold step at taken
    simp only at taken
    split at taken
    · rename_i loop
      split at taken
      · rename_i some_
        obtain ⟨g,called,rfl⟩ := Option.map_eq_some_iff.mp taken
        exact callInv h loop some_ called
      · cases Option.some.inj taken
        refine ⟨h.bandwidth,?_,nofun⟩
        have kept := h.kept
        unfold State.allowance at kept
        rw [loop] at kept
        exact kept
    · cases taken
  | transferred =>
    unfold step at taken
    simp only at taken
    split at taken
    · rename_i transferBytes result stage place
      cases Option.some.inj taken
      exact transferredInv h stage result
    · cases taken
  | closePending =>
    unfold step at taken
    simp only at taken
    split at taken
    · cases Option.some.inj taken
      exact ⟨h.bandwidth,h.kept,h.call⟩
    · cases taken

end Steps

/- What is sent beyond the credits: less than a packet, and once more for each time the balance was set back. -/
structure Limited (s : State) : Prop where
  balance : -4096 < s.job.bytesToSendPerTimep
  sent : s.sent ≤ s.granted + 4095 * s.resets + 4095

theorem limited {s : State} (h : Inv s) : Limited s := by
  have debt : -4095 ≤ s.job.bytesToSendPerTimep := h.kept.bounded
  have kept : Kept 4095 ⟨s.job.bytesToSendPerTimep,s.granted,s.sent - s.stage.pending,s.resets⟩ := h.kept
  refine ⟨by omega,?_⟩
  have total {left : Int} (paid : Kept 4095 ⟨left,s.granted,s.sent,s.resets⟩) : s.sent ≤ s.granted + 4095 * s.resets + 4095 := by
    have most := keptTotal paid
    rw [nsmul_eq_mul,mul_comm] at most
    exact most
  cases stage : s.stage with
  | away | loop =>
    rw [stage] at kept
    simp only [Stage.pending,Nat.cast_zero,sub_zero] at kept
    exact total kept
  | calling transferBytes =>
    -- the call under way can be taken off as well
    obtain ⟨_,within,_⟩ := h.call transferBytes stage
    rw [stage] at kept
    have spent := keptSpend kept within
    have whole : s.sent - (transferBytes : Int) + transferBytes = s.sent := by omega
    unfold Allowance.spend at spent
    simp only [Stage.pending,whole] at spent
    exact total spent

/- For any agent, clock and results of send. -/
theorem bandwidthHolds (blockSize : Nat) (agent : Agent) (bandwidth : Int) (contentLength : Nat) (now : TimeValue)
    (some_ : 0 ≤ bandwidth) (as : List Act) :
    Always (step blockSize) Limited (start (pushJob agent bandwidth contentLength now)) as :=
  alwaysMono (fun _ => limited) (alwaysInvariant (fun _ _ _ => stepInv) (startInv contentLength now some_) as)

/- One packet of a cached file of 9000 bytes for a credit of 25. -/
def oneTick : List Act :=
  [.tick (.set 0 25000),.test true,.transfer (.accept 4096),.transfer (.finish true),.transferred,.test true]

def cachedJob : Job := pushJob (.memCache (MemCacheTransfer.openTransfer 0 9000)) 8 9000 .zero

theorem oneTickLimited : Always (step 4096) Limited (start cachedJob) oneTick ∧
    (run (step 4096) (start cachedJob) oneTick).map (fun s => (s.stage,s.job.bytesToSendPerTimep,s.granted,s.sent)) =
      some (.away,-4071,25,4096) :=
  ⟨bandwidthHolds 4096 (.memCache (MemCacheTransfer.openTransfer 0 9000)) 8 9000 .zero (by decide) oneTick,by decide⟩

end CuteNdk.DispatchBandwidth
