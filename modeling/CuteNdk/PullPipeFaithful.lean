import CuteNdk.PullPipeFiles
import CuteNdk.Lib.Run

/-! What the client gets over the pull path is what the origin sent, from its first
byte on, as long as the transfer starts reading where the writing starts and no
byte comes in between an empty read and the test for the end of the chunk. -/
namespace CuteNdk.PullPipe
open Lib (Along Always alwaysMono alwaysOfInvariant)

variable {α : Type} {p : Pull α}

/- Each log is a prefix of the one before it, all that lay in the pipe buffers the
transfer has left is read, and no more is accepted than was asked for. -/
structure Faithful (p : Pull α) (s : State α) : Prop where
  written : s.written <+: p.content
  read : s.readBytes <+: s.written
  accepted : s.accepted <+: s.readBytes
  passed : ∀ t ∈ s.transfer, (t.chunkId - p.beginPos / pipeChunkSize) * pipeChunkSize ≤ s.readBytes.length
  bounded : s.accepted.length ≤ p.bytesToTransfer

def Faithful? (p : Pull α) : Option (State α) → Prop
  | none => False
  | some s => Faithful p s

/- The first read starts at the head of the chunk, and the chunk has not grown
between the read that gave nothing and eof. -/
def Covered (p : Pull α) (o : Option (State α)) (a : Act) : Prop :=
  (a = .read → ∀ s ∈ o, ∀ t ∈ s.transfer, t.firstChunk = true → p.beginPos % pipeChunkSize = 0) ∧
    (a = .checkEof → ∀ s ∈ o, ∀ t ∈ s.transfer, ∀ id ∈ t.pipeBuffer, ∀ pipe ∈ s.file.pipes id,
      pipe.eof = true → pipe.data.length ≤ t.rdOffset)

instance (p : Pull α) [DecidableEq α] (s : State α) : Decidable (Faithful p s) :=
  decidable_of_iff (s.written <+: p.content ∧ s.readBytes <+: s.written ∧ s.accepted <+: s.readBytes ∧
      (∀ t ∈ s.transfer, (t.chunkId - p.beginPos / pipeChunkSize) * pipeChunkSize ≤ s.readBytes.length) ∧
      s.accepted.length ≤ p.bytesToTransfer)
    ⟨fun h => ⟨h.1,h.2.1,h.2.2.1,h.2.2.2.1,h.2.2.2.2⟩,fun h => ⟨h.written,h.read,h.accepted,h.passed,h.bounded⟩⟩

instance (p : Pull α) [DecidableEq α] : (o : Option (State α)) → Decidable (Faithful? p o)
  | none => isFalse id
  | some s => inferInstanceAs (Decidable (Faithful p s))

instance (p : Pull α) (o : Option (State α)) (a : Act) : Decidable (Covered p o a) := by
  unfold Covered; infer_instance

def ReaderPc.inside : ReaderPc → Prop
  | .returned => False
  | .sending _ _ => False
  | _ => True

def holders (s : State α) : List Nat := s.agent.pipeBuffer.toList ++ (s.transfer.bind (·.pipeBuffer)).toList

structure WriterOk (p : Pull α) (s : State α) (w : Nat) : Prop where
  chunk : s.agent.chunkId = firstChunkId p + w
  ahead : s.agent.recvBytes ≤ s.received
  within : s.received ≤ p.content.length
  buff : s.agent.recvBuff = (p.content.drop s.agent.recvBytes).take (s.received - s.agent.recvBytes)
  log : s.written = p.content.take s.agent.recvBytes
  number : ∀ id, s.agent.pipeBuffer = some id → id + 1 = w
  holds : ∀ id pipe, s.agent.pipeBuffer = some id → s.file.pipes id = some pipe →
    s.agent.recvBytes = id * pipeChunkSize + pipe.data.length
  full : ∀ id pipe, s.agent.pipeBuffer = some id → s.file.pipes id = some pipe → s.agent.pc = .full →
    pipe.data.length = pipe.bufferSize ∧ s.agent.recvBytes < s.received
  free : s.agent.pipeBuffer = none → s.agent.pc ≠ .stopped →
    s.agent.recvBytes = w * pipeChunkSize ∧ s.agent.recvBytes < p.content.length

structure ReaderOk (p : Pull α) (s : State α) (t : PullFileTransfer α) (r : Nat) : Prop where
  chunk : t.chunkId = firstChunkId p + r
  remaind : t.remaindLength = p.content.length - r * pipeChunkSize
  reached : r * pipeChunkSize + t.rdOffset ≤ s.agent.recvBytes
  number : ∀ id, t.pipeBuffer = some id → id = r
  holds : ∀ pipe, t.pipeBuffer = some r → s.file.pipes r = some pipe → t.rdOffset ≤ pipe.data.length
  renews : ∀ pipe first, t.pipeBuffer = some r → s.file.pipes r = some pipe → t.pc = .renewing first →
    pipe.data.length = pipe.bufferSize ∧ t.rdOffset = pipe.data.length
  log : s.readBytes = p.content.take (r * pipeChunkSize + t.rdOffset)
  block : t.sendBytes ≤ t.buffer.length
  sent : s.accepted ++ t.buffer.drop t.sendBytes = s.readBytes
  total : t.transferBytes = s.accepted.length
  first : t.firstChunk = true → r = 0 ∧ t.rdOffset = 0
  inside : t.pc.inside → t.buffer = [] ∧ s.accepted.length < p.content.length
  going : t.pc = .returned → t.jobStopped = false → s.accepted.length < p.content.length

/- w pipe buffers the agent has opened, the transfer is in the one number r. -/
structure Inv (p : Pull α) (s : State α) (w r : Nat) : Prop where
  files : Files p s.agent.recvBytes (r + 1) s.file (holders s)
  writer : WriterOk p s w
  reader : ∀ t, s.transfer = some t → ReaderOk p s t r
  idle : s.transfer = none → r = 0 ∧ s.readBytes = [] ∧ s.accepted = []
  first : s.agent.recvedFirstPackage = false → s.transfer = none

def Good (p : Pull α) (o : Option (State α)) : Prop := ∃ s w r, o = some s ∧ Inv p s w r

theorem faithfulOfInv {s : State α} {w r : Nat} (length : p.content.length = p.bytesToTransfer)
    (h : Inv p s w r) : Faithful p s := by
  have written : s.written <+: p.content := h.writer.log ▸ List.take_prefix _ _
  have recvBytes : s.agent.recvBytes ≤ p.content.length := Nat.le_trans h.writer.ahead h.writer.within
  cases transfer : s.transfer with
  | none =>
    obtain ⟨_,read,accepted⟩ := h.idle transfer
    refine ⟨written,?_,?_,fun t there => ?_,?_⟩
    · rw [read]
      exact List.nil_prefix
    · rw [accepted]
      exact List.nil_prefix
    · rw [transfer] at there
      cases there
    · rw [accepted]
      exact Nat.zero_le _
  | some t =>
    have reader := h.reader t transfer
    have read : s.readBytes <+: s.written := by
      rw [reader.log,h.writer.log]
      exact List.take_prefix_take_left reader.reached
    have accepted : s.accepted <+: s.readBytes := ⟨_,reader.sent⟩
    refine ⟨written,read,accepted,fun t' there => ?_,?_⟩
    · cases Option.some.inj (transfer.symm.trans there)
      have left : t.chunkId - p.beginPos / pipeChunkSize = r := by
        rw [reader.chunk]
        exact Nat.add_sub_cancel_left _ _
      have reached := reader.reached
      rw [left,reader.log,List.length_take]
      omega
    · rw [← length]
      exact (accepted.trans (read.trans written)).length_le

/- Nothing the transfer holds has changed for it. -/
theorem readerKeeps {s s' : State α} {t : PullFileTransfer α} {r : Nat} (h : ReaderOk p s t r)
    (files : ∀ pipe', t.pipeBuffer = some r → s'.file.pipes r = some pipe' → ∃ pipe, s.file.pipes r = some pipe ∧
      pipe.data.length ≤ pipe'.data.length ∧ pipe'.bufferSize = pipe.bufferSize ∧
      (pipe.bufferSize ≤ pipe.data.length → pipe'.data = pipe.data))
    (more : s.agent.recvBytes ≤ s'.agent.recvBytes) (read : s'.readBytes = s.readBytes)
    (accepted : s'.accepted = s.accepted) : ReaderOk p s' t r := by
  refine { h with
    reached := Nat.le_trans h.reached more
    holds := fun pipe' held found => ?_
    renews := fun pipe' first held found renewing => ?_
    log := read.trans h.log
    sent := by rw [accepted,read]; exact h.sent
    total := by rw [accepted]; exact h.total
    inside := by rw [accepted]; exact h.inside
    going := by rw [accepted]; exact h.going }
  · obtain ⟨pipe,was,grown,-,-⟩ := files pipe' held found
    exact Nat.le_trans (h.holds pipe held was) grown
  · obtain ⟨pipe,was,-,size,full⟩ := files pipe' held found
    obtain ⟨atEnd,offset⟩ := h.renews pipe first held was renewing
    have same := full (Nat.le_of_eq atEnd.symm)
    rw [same,size]
    exact ⟨atEnd,offset⟩

theorem readerStarted {s : State α} {t : PullFileTransfer α} {r : Nat} {started : Bool} (h : ReaderOk p s t r) :
    ReaderOk p s { t with started := started } r :=
  ⟨h.chunk,h.remaind,h.reached,h.number,h.holds,h.renews,h.log,h.block,h.sent,h.total,h.first,h.inside,h.going⟩

/- What SameData says of a pipe buffer that is still there. -/
theorem sameBack {f f' : FileInfo α} {held : List Nat} {id : Nat} {pipe' : PipeBuffer α} (same : SameData f f' held)
    (mem : id ∈ held) (there : (f.pipes id).isSome) (found : f'.pipes id = some pipe') :
    ∃ pipe, f.pipes id = some pipe ∧ pipe'.data = pipe.data ∧ pipe'.bufferSize = pipe.bufferSize := by
  obtain ⟨pipe,was⟩ := Option.isSome_iff_exists.1 there
  obtain ⟨pipe'',found',data,size⟩ := same id mem pipe was
  cases Option.some.inj (found'.symm.trans found)
  exact ⟨pipe,was,data,size⟩

theorem readerSame {s s' : State α} {t : PullFileTransfer α} {r : Nat} {held : List Nat} (h : ReaderOk p s t r)
    (same : SameData s.file s'.file held) (mem : t.pipeBuffer = some r → r ∈ held)
    (there : t.pipeBuffer = some r → (s.file.pipes r).isSome)
    (bytes : s'.agent.recvBytes = s.agent.recvBytes) (read : s'.readBytes = s.readBytes)
    (accepted : s'.accepted = s.accepted) : ReaderOk p s' t r := by
  refine readerKeeps h (fun pipe' held found => ?_) (Nat.le_of_eq bytes.symm) read accepted
  obtain ⟨pipe,was,data,size⟩ := sameBack same (mem held) (there held) found
  exact ⟨pipe,was,Nat.le_of_eq (congrArg List.length data).symm,size,fun _ => data⟩

/- A step of the transfer, as the agent sees it. -/
theorem writerSame {s s' : State α} {w : Nat} {held : List Nat} (h : WriterOk p s w)
    (same : SameData s.file s'.file held) (mem : ∀ id, s.agent.pipeBuffer = some id → id ∈ held)
    (there : ∀ id, s.agent.pipeBuffer = some id → (s.file.pipes id).isSome)
    (agent : s'.agent = s.agent) (received : s'.received = s.received) (written : s'.written = s.written) :
    WriterOk p s' w := by
  refine ⟨?_,?_,?_,?_,?_,?_,fun id pipe' held found => ?_,fun id pipe' held found full => ?_,?_⟩
  · rw [agent]; exact h.chunk
  · rw [agent,received]; exact h.ahead
  · rw [received]; exact h.within
  · rw [agent,received]; exact h.buff
  · rw [agent,written]; exact h.log
  · rw [agent]; exact h.number
  · rw [agent] at held ⊢
    obtain ⟨pipe,was,data,-⟩ := sameBack same (mem id held) (there id held) found
    rw [data]
    exact h.holds id pipe held was
  · rw [agent] at held full ⊢
    obtain ⟨pipe,was,data,size⟩ := sameBack same (mem id held) (there id held) found
    rw [data,size,received]
    exact h.full id pipe held was full
  · rw [agent]; exact h.free

section Agent
variable {s s' : State α} {w w' r : Nat}

/- The transfer keeps what it has when the agent takes a step. -/
theorem agentInv (h : Inv p s w r) (files : Files p s'.agent.recvBytes (r + 1) s'.file (holders s'))
    (writer : WriterOk p s' w') (reader : ∀ t, s.transfer = some t → ReaderOk p s' t r)
    (transfer : s'.transfer = s.transfer ∨ ∃ b, s'.transfer = s.transfer.map fun t => { t with started := b })
    (read : s'.readBytes = s.readBytes) (accepted : s'.accepted = s.accepted)
    (first : s'.agent.recvedFirstPackage = false → s.agent.recvedFirstPackage = false) : Inv p s' w' r := by
  have none_ : s'.transfer = none ↔ s.transfer = none := by
    rcases transfer with same | ⟨b,same⟩
    · rw [same]
    · rw [same]
      exact Option.map_eq_none_iff
  refine ⟨files,writer,fun t' there => ?_,fun none' => ?_,fun fresh => none_.2 (h.first (first fresh))⟩
  · rcases transfer with same | ⟨b,same⟩
    · exact reader t' (same ▸ there)
    · rw [same,Option.map_eq_some_iff] at there
      obtain ⟨t,was,rfl⟩ := there
      exact readerStarted (reader t was)
  · rw [read,accepted]
    exact h.idle (none_.1 none')

/- Neither the files nor the logs change. -/
theorem agentSame (h : Inv p s w r) (files : s'.file = s.file) (held : s'.agent.pipeBuffer = s.agent.pipeBuffer)
    (bytes : s'.agent.recvBytes = s.agent.recvBytes) (writer : WriterOk p s' w)
    (transfer : s'.transfer = s.transfer ∨ ∃ b, s'.transfer = s.transfer.map fun t => { t with started := b })
    (read : s'.readBytes = s.readBytes) (accepted : s'.accepted = s.accepted)
    (first : s'.agent.recvedFirstPackage = false → s.agent.recvedFirstPackage = false) : Inv p s' w r := by
  have same : holders s' = holders s := by
    unfold holders
    rw [held]
    rcases transfer with same | ⟨b,same⟩
    · rw [same]
    · rw [same]
      cases s.transfer <;> rfl
  refine agentInv h ?_ writer (fun t there => ?_) transfer read accepted first
  · rw [bytes,files,same]
    exact h.files
  · refine readerKeeps (h.reader t there) (fun pipe _ found => ?_) (Nat.le_of_eq bytes.symm) read accepted
    rw [files] at found
    exact ⟨pipe,found,Nat.le_refl _,rfl,fun _ => rfl⟩

theorem agentHeld (h : Inv p s w r) {id : Nat} (held : s.agent.pipeBuffer = some id) :
    (s.file.pipes id).isSome :=
  h.files.held id (List.mem_append_left _ (held ▸ List.mem_cons_self))

theorem transferHeld (h : Inv p s w r) {t : PullFileTransfer α} {id : Nat} (there : s.transfer = some t)
    (held : t.pipeBuffer = some id) : id ∈ holders s ∧ (s.file.pipes id).isSome := by
  have mem : id ∈ holders s := by
    refine List.mem_append_right _ ?_
    rw [there]
    change id ∈ t.pipeBuffer.toList
    rw [held]
    exact List.mem_cons_self
  exact ⟨mem,h.files.held id mem⟩

theorem receiveInv (h : Inv p s w r) {n : Nat} (pc : s.agent.pc = .returned)
    (fits : s.received + n ≤ p.content.length) :
    Inv p { s with
      agent := { s.agent with recvBuff := s.agent.recvBuff ++ (p.content.drop s.received).take n, pc := .entered }
      received := s.received + n } w r := by
  have was := h.writer
  have buff : s.agent.recvBuff ++ (p.content.drop s.received).take n
      = (p.content.drop s.agent.recvBytes).take (s.received + n - s.agent.recvBytes) := by
    have split : s.received + n - s.agent.recvBytes = (s.received - s.agent.recvBytes) + n := by
      have := was.ahead
      omega
    rw [was.buff,split,List.take_add,List.drop_drop,Nat.add_sub_cancel' was.ahead]
  refine agentSame h rfl rfl rfl ?_ (Or.inl rfl) rfl rfl id
  exact ⟨was.chunk,Nat.le_add_right_of_le was.ahead,fits,buff,was.log,was.number,was.holds,
    fun _ _ _ _ full => (nomatch full),fun none_ _ => was.free none_ (by rw [pc]; decide)⟩

theorem againInv (h : Inv p s w r) (pc : s.agent.pc = .returned) :
    Inv p { s with agent := { s.agent with pc := .entered } } w r := by
  have was := h.writer
  refine agentSame h rfl rfl rfl ?_ (Or.inl rfl) rfl rfl id
  exact ⟨was.chunk,was.ahead,was.within,was.buff,was.log,was.number,was.holds,
    fun _ _ _ _ full => (nomatch full),fun none_ _ => was.free none_ (by rw [pc]; decide)⟩

theorem resumeInv (h : Inv p s w r) :
    Inv p { s with agent := { s.agent with suspended := false }, notices := s.notices - 1 } w r := by
  have was := h.writer
  refine agentSame h rfl rfl rfl ?_ (Or.inl rfl) rfl rfl id
  exact ⟨was.chunk,was.ahead,was.within,was.buff,was.log,was.number,was.holds,was.full,was.free⟩

/- The agent goes on to another place of handle_content; once it is over that is
no matter. -/
theorem writerMoves (h : WriterOk p s w) {pc : WriterPc} (notFull : pc ≠ .full)
    (open_ : pc = .stopped ∨ s.agent.pc ≠ .stopped) :
    WriterOk p { s with agent := { s.agent with pc := pc } } w :=
  ⟨h.chunk,h.ahead,h.within,h.buff,h.log,h.number,h.holds,fun _ _ _ _ full => absurd full notFull,
    fun none_ notOver => h.free none_ (open_.resolve_left notOver)⟩

theorem enterGood (h : Inv p s w r) (pc : s.agent.pc = .entered) : Good p (enter s) := by
  have was := h.writer
  have notOver : s.agent.pc ≠ .stopped := by rw [pc]; decide
  unfold enter
  cases held : s.agent.pipeBuffer with
  | some id =>
    refine ⟨_,w,r,rfl,agentSame h rfl rfl rfl ?_ (Or.inl rfl) rfl rfl fun fresh => fresh⟩
    exact writerMoves was (by decide) (Or.inr notOver)
  | none =>
    cases listed : s.file.pipeBuffers s.agent.chunkId with
    | none =>
      refine ⟨_,w,r,rfl,agentSame h rfl rfl rfl ?_ (Or.inl rfl) rfl rfl fun fresh => fresh⟩
      exact writerMoves was (by decide) (Or.inl rfl)
    | some id =>
      obtain ⟨at',there⟩ := h.files.table _ id listed
      have number : id = w := by
        rw [was.chunk] at at'
        omega
      obtain ⟨pipe,found⟩ := Option.isSome_iff_exists.1 there
      obtain ⟨file,added,files,same,now⟩ := filesAddRef h.files found
      obtain ⟨bytes,short⟩ := was.free held notOver
      have empty : pipe.data.length = 0 := by
        rcases (h.files.pipes id pipe found).behind with none_ | behind
        · rw [none_]
          rfl
        · rw [number] at behind
          omega
      simp only [added,Option.map_some]
      refine ⟨_,w + 1,r,rfl,agentInv h ?_ ?_ (fun t there => ?_) (Or.inl rfl) rfl rfl fun fresh => fresh⟩
      · have list : id :: holders s = holders { s with
            file := file
            agent := { s.agent with pipeBuffer := some id, chunkId := s.agent.chunkId + 1, pc := .holding } } := by
          unfold holders
          rw [held]
          rfl
        rw [← list]
        exact files
      · refine ⟨?_,was.ahead,was.within,was.buff,was.log,fun id' held' => ?_,fun id' pipe' held' found' => ?_,
          fun _ _ _ _ full => (nomatch full),fun none_ => by cases none_⟩
        · change s.agent.chunkId + 1 = firstChunkId p + (w + 1)
          rw [was.chunk]
          rfl
        · cases held'
          rw [number]
        · cases held'
          cases Option.some.inj (now.symm.trans found')
          change s.agent.recvBytes = id * pipeChunkSize + pipe.data.length
          rw [empty,number,Nat.add_zero]
          exact bytes
      · refine readerSame (h.reader t there) same (fun held => (transferHeld h there held).1)
          (fun held => (transferHeld h there held).2) rfl rfl rfl

theorem pipeWrite (pipe : PipeBuffer α) (bf : List α) :
    pipe.write bf = (min bf.length (pipe.bufferSize - pipe.data.length),
      { pipe with data := pipe.data ++ bf.take (min bf.length (pipe.bufferSize - pipe.data.length)) }) := by
  unfold PipeBuffer.write
  by_cases full : pipe.bufferSize ≤ pipe.data.length
  · have none_ : min bf.length (pipe.bufferSize - pipe.data.length) = 0 := by omega
    rw [if_pos full,none_,List.take_zero,List.append_nil]
  · rw [if_neg full]

theorem consumeBuff (a : PullHttpAgent α) {n : Nat} : (a.consume n).recvBuff = a.recvBuff.drop n := by
  unfold PullHttpAgent.consume
  by_cases none_ : n = 0
  · rw [if_pos none_,none_]
    rfl
  · by_cases all : a.recvBuff.length = n
    · rw [if_neg none_,if_pos all,← all,List.drop_length]
    · rw [if_neg none_,if_neg all]

theorem consumeRest (a : PullHttpAgent α) (n : Nat) :
    (a.consume n).chunkId = a.chunkId ∧ (a.consume n).pipeBuffer = a.pipeBuffer ∧
      (a.consume n).recvedFirstPackage = a.recvedFirstPackage := by
  unfold PullHttpAgent.consume
  split
  · exact ⟨rfl,rfl,rfl⟩
  · split
    · exact ⟨rfl,rfl,rfl⟩
    · exact ⟨rfl,rfl,rfl⟩

theorem writeGood (h : Inv p s w r) {id : Nat} (held : s.agent.pipeBuffer = some id) : Good p (write s id) := by
  have was := h.writer
  obtain ⟨pipe,found⟩ := Option.isSome_iff_exists.1 (agentHeld h held)
  have ok := h.files.pipes id pipe found
  have bytes := was.holds id pipe held found
  have buffLength : s.agent.recvBuff.length = s.received - s.agent.recvBytes := by
    have := was.within
    rw [was.buff,List.length_take,List.length_drop]
    omega
  obtain ⟨sameChunk,sameHeld,sameFirst⟩ :=
    consumeRest s.agent (min s.agent.recvBuff.length (pipe.bufferSize - pipe.data.length))
  unfold write
  simp only [found,Option.map_some,pipeWrite]
  generalize k_ : min s.agent.recvBuff.length (pipe.bufferSize - pipe.data.length) = k at *
  have within : k ≤ s.agent.recvBuff.length := by omega
  have fits : pipe.data.length + k ≤ pipe.bufferSize := by
    have := ok.short
    omega
  -- what is written is what comes next of the content
  have passed : s.agent.recvBuff.take k = (p.content.drop s.agent.recvBytes).take k := by
    rw [was.buff,List.take_take,Nat.min_eq_left (buffLength ▸ within)]
  have passedLength : (s.agent.recvBuff.take k).length = k := by
    rw [List.length_take]
    exact Nat.min_eq_left within
  have dataLength : (pipe.data ++ s.agent.recvBuff.take k).length = pipe.data.length + k := by
    rw [List.length_append,passedLength]
  have data : pipe.data ++ s.agent.recvBuff.take k
      = (p.content.drop (id * pipeChunkSize)).take (pipe.data.length + k) := by
    rw [List.take_add,List.drop_drop,← bytes,passed,← ok.data]
  have here : ∀ pipe', (s.file.set id { pipe with data := pipe.data ++ s.agent.recvBuff.take k }).pipes id = some pipe' →
      pipe' = { pipe with data := pipe.data ++ s.agent.recvBuff.take k } := by
    intro pipe' found'
    have now : (s.file.set id { pipe with data := pipe.data ++ s.agent.recvBuff.take k }).pipes id
        = some { pipe with data := pipe.data ++ s.agent.recvBuff.take k } := Function.update_self _ _ _
    exact (Option.some.inj (now.symm.trans found')).symm
  have files : Files p (s.agent.recvBytes + k) (r + 1)
      (s.file.set id { pipe with data := pipe.data ++ s.agent.recvBuff.take k }) (holders s) := by
    refine filesGrown h.files (Nat.le_add_right _ _) found ⟨ok.chunk,ok.size,?_,?_,Or.inr ?_⟩ rfl
    · change (pipe.data ++ s.agent.recvBuff.take k).length ≤ pipe.bufferSize
      rw [dataLength]
      exact fits
    · change pipe.data ++ s.agent.recvBuff.take k = List.take (pipe.data ++ s.agent.recvBuff.take k).length _
      rw [dataLength]
      exact data
    · change id * pipeChunkSize + (pipe.data ++ s.agent.recvBuff.take k).length ≤ _
      rw [dataLength]
      omega
  refine ⟨_,w,r,rfl,agentInv h ?_ ?_ (fun t there => ?_) (Or.inl rfl) rfl rfl fun fresh => sameFirst ▸ fresh⟩
  · unfold holders at files ⊢
    rw [← sameHeld] at files
    exact files
  · refine ⟨sameChunk.trans was.chunk,?_,was.within,?_,?_,fun id' held' => ?_,fun id' pipe' held' found' => ?_,
      fun id' pipe' held' found' full => ?_,fun none_ => ?_⟩
    · change s.agent.recvBytes + k ≤ s.received
      have := was.ahead
      omega
    · change (s.agent.consume k).recvBuff = (p.content.drop (s.agent.recvBytes + k)).take (s.received - (s.agent.recvBytes + k))
      rw [consumeBuff,was.buff,List.drop_take,List.drop_drop,Nat.sub_sub]
    · change s.written ++ s.agent.recvBuff.take k = p.content.take (s.agent.recvBytes + k)
      rw [was.log,passed,List.take_add]
    · exact was.number id' (sameHeld ▸ held')
    · have same : id = id' := Option.some.inj (held.symm.trans (sameHeld ▸ held'))
      subst id'
      rw [here pipe' found']
      change s.agent.recvBytes + k = id * pipeChunkSize + (pipe.data ++ s.agent.recvBuff.take k).length
      rw [dataLength]
      omega
    · have same : id = id' := Option.some.inj (held.symm.trans (sameHeld ▸ held'))
      subst id'
      rw [here pipe' found']
      have short : k ≠ s.agent.recvBuff.length := fun all => by
        simp only [all,if_true] at full
        cases full
      change (pipe.data ++ s.agent.recvBuff.take k).length = pipe.bufferSize ∧ s.agent.recvBytes + k < s.received
      rw [dataLength]
      omega
    · have := sameHeld.trans held
      rw [none_] at this
      cases this
  · refine readerKeeps (h.reader t there) (fun pipe' held' found' => ?_) (Nat.le_add_right _ _) rfl rfl
    by_cases same : r = id
    · subst id
      rw [here pipe' found']
      refine ⟨pipe,found,?_,rfl,fun full => ?_⟩
      · change pipe.data.length ≤ (pipe.data ++ s.agent.recvBuff.take k).length
        omega
      · have none_ : k = 0 := by omega
        change pipe.data ++ s.agent.recvBuff.take k = pipe.data
        rw [none_,List.take_zero,List.append_nil]
    · exact ⟨pipe',(Function.update_of_ne same _ _).symm.trans found',Nat.le_refl _,rfl,fun _ => rfl⟩

/- close, by the agent. -/
theorem agentCloses (h : Inv p s w r) {id : Nat} (held : s.agent.pipeBuffer = some id) (started : Bool) :
    ∃ file, s.file.close id started = some file ∧
      Files p s.agent.recvBytes (r + 1) file ((s.transfer.bind (·.pipeBuffer)).toList) ∧
      ∀ t, s.transfer = some t → ∀ s' : State α, s'.file = file → s'.agent.recvBytes = s.agent.recvBytes →
        s'.readBytes = s.readBytes → s'.accepted = s.accepted → ReaderOk p s' t r := by
  have list : holders s = id :: (s.transfer.bind (·.pipeBuffer)).toList := by
    unfold holders
    rw [held]
    rfl
  obtain ⟨file,closed,files,same⟩ := filesClose (list ▸ h.files) started
  refine ⟨file,closed,files,fun t there s' now bytes read accepted => ?_⟩
  subst now
  refine readerSame (h.reader t there) same (fun held => ?_) (fun held => (transferHeld h there held).2) bytes read
    accepted
  rw [there]
  change r ∈ t.pipeBuffer.toList
  rw [held]
  exact List.mem_cons_self

theorem shutGood (h : Inv p s w r) {id : Nat} (held : s.agent.pipeBuffer = some id) (pc : s.agent.pc = .full)
    (started session suspends : Bool) : Good p (shut s id started session suspends) := by
  have was := h.writer
  obtain ⟨pipe,found⟩ := Option.isSome_iff_exists.1 (agentHeld h held)
  obtain ⟨full,short⟩ := was.full id pipe held found pc
  have bytes := was.holds id pipe held found
  have size := (h.files.pipes id pipe found).size
  have number := was.number id held
  -- a pipe buffer that is full while content is left is a whole chunk
  have atNext : s.agent.recvBytes = w * pipeChunkSize ∧ s.agent.recvBytes < p.content.length := by
    have := was.within
    unfold chunkSize at size
    rw [← number,Nat.add_mul]
    omega
  obtain ⟨file,closed,files,reader⟩ := agentCloses h held started
  unfold shut
  simp only [closed,Option.map_some]
  by_cases goesOn : session = true ∧ suspends = true
  · rw [if_pos goesOn]
    refine ⟨_,w,r,rfl,agentInv h files ?_ (fun t there => reader t there _ rfl rfl rfl rfl) (Or.inl rfl) rfl rfl
      fun fresh => fresh⟩
    exact ⟨was.chunk,was.ahead,was.within,was.buff,was.log,fun _ none_ => (nomatch none_),
      fun _ _ none_ => (nomatch none_),fun _ _ none_ => (nomatch none_),fun _ _ => atNext⟩
  · rw [if_neg goesOn]
    refine ⟨_,w,r,rfl,agentInv h files ?_ (fun t there => reader t there _ rfl rfl rfl rfl) (Or.inl rfl) rfl rfl
      fun fresh => fresh⟩
    exact ⟨was.chunk,was.ahead,was.within,was.buff,was.log,fun _ none_ => (nomatch none_),
      fun _ _ none_ => (nomatch none_),fun _ _ none_ => (nomatch none_),fun _ _ => atNext⟩

theorem finishGood (h : Inv p s w r) (pc : s.agent.pc = .finishing) (started : Bool) :
    Good p (finish p s started) := by
  have was := h.writer
  have notOver : s.agent.pc ≠ .stopped := by rw [pc]; decide
  unfold finish
  by_cases all : s.agent.recvBytes = p.content.length
  · rw [if_pos all]
    cases held : s.agent.pipeBuffer with
    | none =>
      have := (was.free held notOver).2
      omega
    | some id =>
      obtain ⟨file,closed,files,reader⟩ := agentCloses h held started
      simp only [closed,Option.map_some]
      refine ⟨_,w,r,rfl,agentInv h ?_ ?_ (fun t there => reader t there _ rfl rfl rfl rfl) (Or.inr ⟨true,rfl⟩)
        rfl rfl fun fresh => fresh⟩
      · have list : holders { s with
            file := file
            transfer := s.transfer.map fun t => { t with started := true }
            agent := { s.agent with pipeBuffer := none, pc := .stopped } } = (s.transfer.bind (·.pipeBuffer)).toList := by
          unfold holders
          cases s.transfer <;> rfl
        rw [list]
        exact files
      · exact ⟨was.chunk,was.ahead,was.within,was.buff,was.log,fun _ none_ => (nomatch none_),
          fun _ _ none_ => (nomatch none_),fun _ _ none_ => (nomatch none_),fun _ going => absurd rfl going⟩
  · rw [if_neg all]
    refine ⟨_,w,r,rfl,agentSame h rfl rfl rfl ?_ (Or.inl rfl) rfl rfl fun fresh => fresh⟩
    exact writerMoves was (by decide) (Or.inr notOver)

/- The transfer as it is made: nothing is read, sent or skipped yet. -/
theorem readerMade (some_ : 0 < p.content.length) (read : s.readBytes = []) (accepted : s.accepted = []) :
    ReaderOk p s (PullFileTransfer.make p.beginPos p.content.length 0) 0 := by
  refine ⟨rfl,by simp [PullFileTransfer.make],by simp [PullFileTransfer.make],?_,?_,?_,?_,Nat.le_refl _,?_,?_,
    fun _ => ⟨rfl,rfl⟩,fun no => no.elim,fun _ _ => ?_⟩
  · rintro id ⟨⟩
    rfl
  · exact fun _ _ _ => Nat.zero_le _
  · rintro _ _ _ _ ⟨⟩
  · rw [read]
    simp [PullFileTransfer.make]
  · rw [accepted,read]
    rfl
  · rw [accepted]
    rfl
  · rw [accepted]
    exact some_

theorem noteGood (some_ : 0 < p.content.length) (h : Inv p s w r) (pc : s.agent.pc = .noting) (session : Bool) :
    Good p (note p s session) := by
  have was := h.writer
  have notOver : s.agent.pc ≠ .stopped := by rw [pc]; decide
  have moved : ∀ (s' : State α), s'.file = s.file → s'.received = s.received → s'.written = s.written →
      ∀ pc first suspend, (pc = .stopped ∨ pc = .finishing) →
      s'.agent = { s.agent with pc := pc, recvedFirstPackage := first, suspend := suspend } → WriterOk p s' w := by
    intro s' file received written pc first suspend place agent
    have notFull : pc ≠ .full := by
      rcases place with rfl | rfl
      · decide
      · decide
    constructor <;> simp only [agent,file,received,written]
    · exact was.chunk
    · exact was.ahead
    · exact was.within
    · exact was.buff
    · exact was.log
    · exact was.number
    · exact was.holds
    · exact fun _ _ _ _ full => absurd full notFull
    · exact fun none_ _ => was.free none_ notOver
  unfold note
  cases first : s.agent.recvedFirstPackage with
  | false =>
    simp only [Bool.not_false,if_true]
    have none_ := h.first first
    obtain ⟨rfl,read,accepted⟩ := h.idle none_
    cases session with
    | false =>
      refine ⟨_,w,0,rfl,agentSame h rfl rfl rfl ?_ (Or.inl rfl) rfl rfl fun _ => first⟩
      exact moved _ rfl rfl rfl .stopped true _ (Or.inl rfl) rfl
    | true =>
      cases listed : s.file.pipeBuffers (p.beginPos / pipeChunkSize) with
      | none =>
        refine ⟨_,w,0,rfl,agentSame h rfl rfl rfl ?_ (Or.inl rfl) rfl rfl fun _ => first⟩
        exact moved _ rfl rfl rfl .stopped true _ (Or.inl rfl) rfl
      | some id =>
        obtain ⟨at',there⟩ := h.files.table _ id listed
        have number : id = 0 := by
          unfold firstChunkId at at'
          omega
        subst number
        obtain ⟨pipe,found⟩ := Option.isSome_iff_exists.1 there
        obtain ⟨file,added,files,same,-⟩ := filesAddRef h.files found
        simp only [added,Option.map_some]
        refine ⟨_,w,0,rfl,?_,?_,fun t there => ?_,fun none_ => (nomatch none_),fun fresh => (nomatch fresh)⟩
        · refine filesPerm files ?_
          unfold holders
          rw [none_]
          change (0 :: (s.agent.pipeBuffer.toList ++ [])).Perm (s.agent.pipeBuffer.toList ++ [0])
          rw [List.append_nil]
          exact (List.perm_append_singleton 0 _).symm
        · have kept : WriterOk p { s with file := file } w :=
            writerSame was same (fun id held => List.mem_append_left _ (held ▸ List.mem_cons_self))
              (fun id held => agentHeld h held) rfl rfl rfl
          exact ⟨kept.chunk,kept.ahead,kept.within,kept.buff,kept.log,kept.number,kept.holds,
            fun _ _ _ _ full => (nomatch full),fun none_ _ => kept.free none_ notOver⟩
        · cases there
          exact readerMade some_ read accepted
  | true =>
    simp only [Bool.not_true,Bool.false_eq_true,if_false]
    cases suspend : s.agent.suspend with
    | true =>
      refine ⟨_,w,r,rfl,agentSame h rfl rfl rfl ?_ (Or.inr ⟨true,rfl⟩) rfl rfl fun fresh => fresh⟩
      exact moved _ rfl rfl rfl .finishing true false (Or.inr rfl) (by simp [first])
    | false =>
      refine ⟨_,w,r,rfl,agentSame h rfl rfl rfl ?_ (Or.inl rfl) rfl rfl fun fresh => fresh⟩
      exact moved _ rfl rfl rfl .finishing true false (Or.inr rfl) (by simp [first])

end Agent

section Transfer
variable {s s' : State α} {t t' : PullFileTransfer α} {w r r' : Nat}

theorem transferInv (h : Inv p s w r) (there : s.transfer = some t)
    (files : Files p s.agent.recvBytes (r' + 1) s'.file (holders s'))
    (same : SameData s.file s'.file s.agent.pipeBuffer.toList) (agent : s'.agent = s.agent)
    (received : s'.received = s.received) (written : s'.written = s.written) (now : s'.transfer = some t')
    (reader : ReaderOk p s' t' r') : Inv p s' w r' := by
  refine ⟨by rw [agent]; exact files,?_,fun t'' there' => ?_,fun none_ => ?_,fun fresh => ?_⟩
  · exact writerSame h.writer same (fun id held => held ▸ List.mem_cons_self) (fun id held => agentHeld h held)
      agent received written
  · cases Option.some.inj (now.symm.trans there')
    exact reader
  · rw [now] at none_
    cases none_
  · rw [agent] at fresh
    rw [h.first fresh] at there
    cases there

/- The files stay as they are. -/
theorem transferSame (h : Inv p s w r) (there : s.transfer = some t) (file : s'.file = s.file)
    (agent : s'.agent = s.agent) (received : s'.received = s.received) (written : s'.written = s.written)
    (now : s'.transfer = some t') (held : t'.pipeBuffer = t.pipeBuffer) (reader : ReaderOk p s' t' r) :
    Inv p s' w r := by
  refine transferInv h there ?_ (fun j _ pipe found => ⟨pipe,by rw [file]; exact found,rfl,rfl⟩) agent received written
    now reader
  have list : holders s' = holders s := by
    unfold holders
    rw [agent,now,there]
    change _ ++ t'.pipeBuffer.toList = _ ++ t.pipeBuffer.toList
    rw [held]
  rw [file,list]
  exact h.files

/- close, by the transfer. -/
theorem transferCloses (h : Inv p s w r) (there : s.transfer = some t) {id : Nat} (held : t.pipeBuffer = some id)
    (started : Bool) : ∃ file, s.file.close id started = some file ∧
      Files p s.agent.recvBytes (r + 1) file s.agent.pipeBuffer.toList ∧
      SameData s.file file s.agent.pipeBuffer.toList := by
  have list : (holders s).Perm (id :: s.agent.pipeBuffer.toList) := by
    unfold holders
    rw [there]
    change (s.agent.pipeBuffer.toList ++ t.pipeBuffer.toList).Perm _
    rw [held]
    exact List.perm_append_singleton id _
  exact filesClose (filesPerm h.files list) started

theorem acceptedWithin (h : Inv p s w r) (there : s.transfer = some t) : s.accepted.length ≤ p.content.length := by
  have reader := h.reader t there
  have sent : s.accepted <+: s.readBytes := ⟨_,reader.sent⟩
  have read : s.readBytes <+: p.content := reader.log ▸ List.take_prefix _ _
  exact (sent.trans read).length_le

theorem callInv (h : Inv p s w r) (there : s.transfer = some t) (pc : t.pc = .returned) (goesOn : t.jobStopped = false)
    (maxSize : Int) : Inv p { s with transfer := some { t with
      pc := if t.buffer.length = 0 then .reading true else .sending maxSize 0 } } w r := by
  have reader := h.reader t there
  refine transferSame h there rfl rfl rfl rfl rfl rfl ?_
  by_cases empty : t.buffer.length = 0
  · rw [if_pos empty]
    exact { reader with
      renews := fun _ _ _ _ renewing => (nomatch renewing)
      inside := fun _ => ⟨List.eq_nil_of_length_eq_zero empty,reader.going pc goesOn⟩
      going := fun returned => (nomatch returned) }
  · rw [if_neg empty]
    exact { reader with
      renews := fun _ _ _ _ renewing => (nomatch renewing)
      inside := fun inside => inside.elim
      going := fun returned => (nomatch returned) }

theorem pipeRead (pipe : PipeBuffer α) (rOffset bytesToRead : Nat) :
    pipe.read rOffset bytesToRead = (pipe.data.drop rOffset).take bytesToRead := by
  unfold PipeBuffer.read
  by_cases none_ : bytesToRead = 0 ∨ pipe.data.length ≤ rOffset
  · rw [if_pos none_]
    rcases none_ with none_ | none_
    · rw [none_,List.take_zero]
    · rw [List.drop_eq_nil_of_le none_,List.take_nil]
  · rw [if_neg none_,← List.length_drop]
    exact List.take_eq_take_min.symm

theorem readGood (h : Inv p s w r) (there : s.transfer = some t) {first : Bool} (pc : t.pc = .reading first)
    {id : Nat} (held : t.pipeBuffer = some id) (aligned : t.firstChunk = true → p.beginPos % pipeChunkSize = 0) :
    Good p (readPipe p s t id first) := by
  have reader := h.reader t there
  obtain rfl := reader.number id held
  obtain ⟨pipe,found⟩ := Option.isSome_iff_exists.1 (transferHeld h there held).2
  have ok := h.files.pipes id pipe found
  have offset := reader.holds pipe held found
  obtain ⟨empty,short⟩ := reader.inside (by rw [pc]; trivial)
  have skip : (if t.firstChunk then t.rdOffset + p.beginPos % pipeChunkSize else t.rdOffset) = t.rdOffset := by
    cases head : t.firstChunk with
    | false => rfl
    | true => simp [aligned head]
  unfold readPipe
  simp only [found,Option.map_some,skip,pipeRead]
  generalize bytes_ : (pipe.data.drop t.rdOffset).take p.blockSize = bytes
  have bytesLength : bytes.length ≤ pipe.data.length - t.rdOffset := by
    rw [← bytes_,List.length_take,List.length_drop]
    exact Nat.min_le_right _ _
  by_cases none_ : bytes.length = 0
  · rw [if_pos none_]
    refine ⟨_,w,id,rfl,transferSame h there rfl rfl rfl rfl rfl rfl ?_⟩
    exact { reader with
      renews := fun _ _ _ _ renewing => (nomatch renewing)
      first := fun first => (nomatch first)
      inside := fun _ => ⟨empty,short⟩
      going := fun returned => (nomatch returned) }
  · rw [if_neg none_]
    have behind : id * pipeChunkSize + pipe.data.length ≤ s.agent.recvBytes := by
      refine ok.behind.resolve_left fun nothing => ?_
      rw [nothing] at bytesLength
      change bytes.length ≤ 0 - t.rdOffset at bytesLength
      omega
    -- what is read is what comes next of the content
    have next : bytes = (p.content.drop (id * pipeChunkSize + t.rdOffset)).take bytes.length := by
      have cut : bytes = (pipe.data.drop t.rdOffset).take bytes.length := by
        rw [← bytes_,List.length_take,← List.take_eq_take_min]
      rw [ok.data,List.drop_take,List.drop_drop,List.take_take,Nat.min_eq_left bytesLength] at cut
      exact cut
    have sendBytes : t.sendBytes = 0 := by
      have := reader.block
      rw [empty] at this
      exact Nat.le_zero.1 this
    have sent : s.accepted = s.readBytes := by
      have := reader.sent
      rwa [empty,List.drop_nil,List.append_nil] at this
    refine ⟨_,w,id,rfl,transferSame h there rfl rfl rfl rfl rfl rfl ?_⟩
    exact { reader with
      reached := by
        change id * pipeChunkSize + (t.rdOffset + bytes.length) ≤ s.agent.recvBytes
        omega
      holds := fun pipe' _ found' => by
        cases Option.some.inj (found.symm.trans found')
        change t.rdOffset + bytes.length ≤ pipe.data.length
        omega
      renews := fun _ _ _ _ renewing => (nomatch renewing)
      log := by
        change s.readBytes ++ bytes = p.content.take (id * pipeChunkSize + (t.rdOffset + bytes.length))
        rw [reader.log,← Nat.add_assoc,List.take_add (i := id * pipeChunkSize + t.rdOffset),← next]
      block := by
        change t.sendBytes ≤ bytes.length
        omega
      sent := by
        change s.accepted ++ bytes.drop t.sendBytes = s.readBytes ++ bytes
        rw [sendBytes,sent,List.drop_zero]
      first := fun first => (nomatch first)
      inside := fun inside => inside.elim
      going := fun _ _ => short }

theorem checkEofGood (h : Inv p s w r) (there : s.transfer = some t) {first : Bool} (pc : t.pc = .checking first)
    {id : Nat} (held : t.pipeBuffer = some id)
    (covered : ∀ pipe, s.file.pipes id = some pipe → pipe.eof = true → pipe.data.length ≤ t.rdOffset) :
    Good p (checkEof s t id first) := by
  have reader := h.reader t there
  obtain rfl := reader.number id held
  obtain ⟨pipe,found⟩ := Option.isSome_iff_exists.1 (transferHeld h there held).2
  have ok := h.files.pipes id pipe found
  have inside := reader.inside (by rw [pc]; trivial)
  unfold checkEof
  simp only [found,Option.map_some]
  refine ⟨_,w,id,rfl,transferSame h there rfl rfl rfl rfl rfl rfl ?_⟩
  cases eof : pipe.eof with
  | true =>
    refine { reader with
      renews := fun pipe' first' _ found' _ => ?_
      inside := fun _ => inside
      going := fun returned => (nomatch returned) }
    cases Option.some.inj (found.symm.trans found')
    exact ⟨Nat.le_antisymm ok.short (of_decide_eq_true eof),
      Nat.le_antisymm (reader.holds pipe held found) (covered pipe found eof)⟩
  | false =>
    exact { reader with
      renews := fun _ _ _ _ renewing => (nomatch renewing)
      inside := fun inside => inside.elim
      going := fun _ _ => inside.2 }

theorem renewGood (h : Inv p s w r) (there : s.transfer = some t) {first : Bool} (pc : t.pc = .renewing first)
    {id : Nat} (held : t.pipeBuffer = some id) (started : Bool) : Good p (renew s t id first started) := by
  have reader := h.reader t there
  obtain rfl := reader.number id held
  obtain ⟨pipe,found⟩ := Option.isSome_iff_exists.1 (transferHeld h there held).2
  obtain ⟨full,offset⟩ := reader.renews pipe first held found pc
  obtain ⟨empty,short⟩ := reader.inside (by rw [pc]; trivial)
  have size : pipe.bufferSize = min pipeChunkSize (p.content.length - id * pipeChunkSize) :=
    (h.files.pipes id pipe found).size
  -- all that was read is accepted, so the chunk that ends here is not the last one
  have read : s.readBytes.length < p.content.length := by
    have := reader.sent
    rw [empty,List.drop_nil,List.append_nil] at this
    rw [← this]
    exact short
  rw [reader.log,List.length_take] at read
  have whole : t.rdOffset = pipeChunkSize := by omega
  have bufferSize : pipe.bufferSize = pipeChunkSize := by omega
  have product : (id + 1) * pipeChunkSize = id * pipeChunkSize + pipeChunkSize := Nat.succ_mul _ _
  obtain ⟨file,closed,files,same⟩ := transferCloses h there held started
  obtain ⟨filesNew,sameNew,new,foundNew,emptyNew⟩ := filesCreate files
  have chunk : t.chunkId + 1 = firstChunkId p + (id + 1) := by
    rw [reader.chunk]
    rfl
  have sizeNew : min pipeChunkSize (t.remaindLength - pipe.bufferSize) = chunkSize p (id + 1) := by
    unfold chunkSize
    rw [reader.remaind,bufferSize,product,Nat.sub_sub]
  unfold renew
  simp only [found,closed,Option.map_some]
  rw [chunk,sizeNew,files.made]
  refine ⟨_,w,id + 1,rfl,transferInv h there ?_ ?_ rfl rfl rfl rfl ?_⟩
  · refine filesPerm filesNew ?_
    exact (List.perm_append_singleton (id + 1) s.agent.pipeBuffer.toList).symm
  · intro j mem pipe' found'
    obtain ⟨pipe1,found1,data1,size1⟩ := same j mem pipe' found'
    obtain ⟨pipe2,found2,data2,size2⟩ := sameNew j mem pipe1 found1
    exact ⟨pipe2,found2,data2.trans data1,size2.trans size1⟩
  · refine ⟨rfl,?_,?_,?_,fun _ _ _ => Nat.zero_le _,fun _ _ _ _ renewing => (nomatch renewing),?_,reader.block,
      reader.sent,reader.total,fun head => ?_,fun _ => ⟨empty,short⟩,fun returned => (nomatch returned)⟩
    · change t.remaindLength - pipe.bufferSize = p.content.length - (id + 1) * pipeChunkSize
      rw [reader.remaind,bufferSize,product,Nat.sub_sub]
    · change (id + 1) * pipeChunkSize + 0 ≤ s.agent.recvBytes
      have := reader.reached
      omega
    · exact fun id' held' => (Option.some.inj held').symm
    · change s.readBytes = p.content.take ((id + 1) * pipeChunkSize + 0)
      rw [reader.log,whole,product,Nat.add_zero]
    · have none_ := (reader.first head).2
      have some_ : 0 < pipeChunkSize := by decide
      omega

theorem notifyGood (h : Inv p s w r) (there : s.transfer = some t) {first : Bool} (pc : t.pc = .resuming first)
    {id : Nat} (held : t.pipeBuffer = some id) (sent started : Bool) :
    Good p (notify s t id first sent started) := by
  have reader := h.reader t there
  have short := (reader.inside (by rw [pc]; trivial)).2
  unfold notify
  cases sent with
  | true =>
    refine ⟨_,w,r,rfl,transferSame h there rfl rfl rfl rfl rfl rfl ?_⟩
    exact { reader with
      renews := fun _ _ _ _ renewing => (nomatch renewing)
      inside := fun inside => inside.elim
      going := fun _ _ => short }
  | false =>
    obtain ⟨file,closed,files,same⟩ := transferCloses h there held started
    simp only [closed,Option.map_some,Bool.false_eq_true,if_false]
    refine ⟨_,w,r,rfl,transferInv h there ?_ same rfl rfl rfl rfl ?_⟩
    · refine filesPerm files ?_
      exact List.Perm.of_eq (List.append_nil _).symm
    · exact { reader with
        number := fun _ none_ => (nomatch none_)
        holds := fun _ none_ => (nomatch none_)
        renews := fun _ _ none_ => (nomatch none_)
        inside := fun inside => inside.elim
        going := fun _ _ => short }

theorem acceptInv (h : Inv p s w r) (there : s.transfer = some t) {maxSize : Int} {transferBytes n : Nat}
    (fits : n ≤ t.packet) : Inv p { s with
      transfer := some { t with
        transferBytes := t.transferBytes + n
        sendBytes := t.sendBytes + n
        pc := .sending maxSize (transferBytes + n) }
      accepted := s.accepted ++ (t.buffer.drop t.sendBytes).take n } w r := by
  have reader := h.reader t there
  have block := reader.block
  unfold PullFileTransfer.packet at fits
  refine transferSame h there rfl rfl rfl rfl rfl rfl ?_
  exact { reader with
    renews := fun _ _ _ _ renewing => (nomatch renewing)
    block := by
      change t.sendBytes + n ≤ t.buffer.length
      omega
    sent := by
      change s.accepted ++ (t.buffer.drop t.sendBytes).take n ++ t.buffer.drop (t.sendBytes + n) = s.readBytes
      rw [← List.drop_drop,List.append_assoc,List.take_append_drop]
      exact reader.sent
    total := by
      change t.transferBytes + n = (s.accepted ++ (t.buffer.drop t.sendBytes).take n).length
      rw [List.length_append,List.length_take,List.length_drop,reader.total]
      omega
    inside := fun inside => inside.elim
    going := fun returned => (nomatch returned) }

theorem wouldBlockInv (h : Inv p s w r) (there : s.transfer = some t) (some_ : t.transferBytes < p.content.length) :
    Inv p { s with transfer := some { t with pc := .returned } } w r := by
  have reader := h.reader t there
  refine transferSame h there rfl rfl rfl rfl rfl rfl ?_
  exact { reader with
    renews := fun _ _ _ _ renewing => (nomatch renewing)
    inside := fun inside => inside.elim
    going := fun _ _ => reader.total ▸ some_ }

theorem sendFailsInv (h : Inv p s w r) (there : s.transfer = some t) :
    Inv p { s with transfer := some { t with jobStopped := true, pc := .returned } } w r := by
  have reader := h.reader t there
  refine transferSame h there rfl rfl rfl rfl rfl rfl ?_
  exact { reader with
    renews := fun _ _ _ _ renewing => (nomatch renewing)
    inside := fun inside => inside.elim
    going := fun _ goesOn => (nomatch goesOn) }

theorem finishTransferGood (length : p.content.length = p.bytesToTransfer) (h : Inv p s w r)
    (there : s.transfer = some t) {id : Nat} (held : t.pipeBuffer = some id) (started : Bool) :
    Good p (finishTransfer p s t id started) := by
  have reader := h.reader t there
  have bound := acceptedWithin h there
  unfold finishTransfer
  by_cases all : t.transferBytes = p.bytesToTransfer
  · rw [if_pos all]
    obtain ⟨file,closed,files,same⟩ := transferCloses h there held started
    simp only [closed,Option.map_some]
    refine ⟨_,w,r,rfl,transferInv h there ?_ same rfl rfl rfl rfl ?_⟩
    · refine filesPerm files ?_
      exact List.Perm.of_eq (List.append_nil _).symm
    · exact { reader with
        number := fun _ none_ => (nomatch none_)
        holds := fun _ none_ => (nomatch none_)
        renews := fun _ _ none_ => (nomatch none_)
        inside := fun inside => inside.elim
        going := fun _ goesOn => (nomatch goesOn) }
  · rw [if_neg all]
    have short : s.accepted.length < p.content.length := by
      have := reader.total
      omega
    by_cases sent : t.sendBytes = t.buffer.length
    · rw [if_pos sent]
      refine ⟨_,w,r,rfl,transferSame h there rfl rfl rfl rfl rfl rfl ?_⟩
      exact { reader with
        renews := fun _ _ _ _ renewing => (nomatch renewing)
        block := Nat.le_refl 0
        sent := by
          have was := reader.sent
          rw [sent,List.drop_length] at was
          exact was
        inside := fun _ => ⟨rfl,short⟩
        going := fun returned => (nomatch returned) }
    · rw [if_neg sent]
      refine ⟨_,w,r,rfl,transferSame h there rfl rfl rfl rfl rfl rfl ?_⟩
      exact { reader with
        renews := fun _ _ _ _ renewing => (nomatch renewing)
        inside := fun inside => inside.elim
        going := fun _ _ => short }

end Transfer

section Runs
variable {s : State α} {w r : Nat}

theorem writtenInv (h : Inv p s w r) (id : Nat) : Inv p { s with file := s.file.written id } w r := by
  obtain ⟨files,same⟩ := filesWritten h.files id
  refine ⟨files,?_,fun t there => ?_,h.idle,h.first⟩
  · exact writerSame h.writer same (fun j held => List.mem_append_left _ (held ▸ List.mem_cons_self))
      (fun j held => agentHeld h held) rfl rfl rfl
  · exact readerSame (h.reader t there) same (fun held => (transferHeld h there held).1)
      (fun held => (transferHeld h there held).2) rfl rfl rfl

theorem agentStepGood (some_ : 0 < p.content.length) (h : Inv p s w r) {a : Act} {o : Option (State α)}
    (did : agentStep p s a = some o) : Good p o := by
  cases agentSteps did with
  | receive pc goes few within => exact ⟨_,w,r,rfl,receiveInv h pc within⟩
  | again pc goes full left => exact ⟨_,w,r,rfl,againInv h pc⟩
  | enter pc => exact enterGood h pc
  | write pc held => exact writeGood h held
  | shut pc held => exact shutGood h held pc _ _ _
  | note pc => exact noteGood some_ h pc _
  | finish pc => exact finishGood h pc _
  | resume notice => exact ⟨_,w,r,rfl,resumeInv h⟩

theorem transferStepGood (length : p.content.length = p.bytesToTransfer) (h : Inv p s w r)
    {t : PullFileTransfer α} (there : s.transfer = some t) {a : Act} (covered : Covered p (some s) a)
    {o : Option (State α)} (did : transferStep p s t a = some o) : Good p o := by
  cases transferSteps did with
  | waits pc goesOn started => exact ⟨s,w,r,rfl,h⟩
  | call pc goesOn started held => exact ⟨_,w,r,rfl,callInv h there pc goesOn _⟩
  | read pc held => exact readGood h there pc held (covered.1 rfl s rfl t there)
  | checkEof pc held => exact checkEofGood h there pc held fun pipe found => covered.2 rfl s rfl t there _ held pipe found
  | renew pc held => exact renewGood h there pc held _
  | notify pc held => exact notifyGood h there pc held _ _
  | accept pc sends fits => exact ⟨_,w,r,rfl,acceptInv h there fits⟩
  | wouldBlock pc sends => exact ⟨_,w,r,rfl,wouldBlockInv h there (length ▸ sends.2.2)⟩
  | sendFails pc sends => exact ⟨_,w,r,rfl,sendFailsInv h there⟩
  | finishTransfer pc held ends => exact finishTransferGood length h there held _

theorem stepGood (length : p.content.length = p.bytesToTransfer) (asked : 0 < p.bytesToTransfer)
    {o o' : Option (State α)} {a : Act} (good : Good p o) (covered : Covered p o a) (did : step p o a = some o') :
    Good p o' := by
  obtain ⟨s,w,r,rfl,h⟩ := good
  rcases actCases did with ⟨id,rfl⟩ | agent | ⟨t,there,transfer⟩
  · exact ⟨_,w,r,rfl,writtenInv h id⟩
  · exact agentStepGood (length ▸ asked) h agent
  · exact transferStepGood length h there covered transfer

theorem noFiles : Files p 0 0 ⟨fun _ => none,fun _ => none,0⟩ [] :=
  ⟨fun _ _ found => (nomatch found),fun _ _ listed => (nomatch listed),rfl,fun _ _ => rfl,
    fun _ _ found => (nomatch found),fun _ mem => (nomatch mem)⟩

theorem startInv {headerLen attached : Nat} (within : attached ≤ p.content.length) :
    Inv p (start p headerLen attached) 1 0 := by
  have size : min pipeChunkSize p.content.length = chunkSize p 0 := by
    unfold chunkSize
    rw [Nat.zero_mul,Nat.sub_zero]
  obtain ⟨files,-,pipe,found,empty⟩ := filesCreate (noFiles (p := p))
  refine ⟨?_,⟨rfl,Nat.zero_le _,within,rfl,rfl,?_,?_,?_,fun none_ => (nomatch none_)⟩,fun _ there => (nomatch there),
    fun _ => ⟨rfl,rfl,rfl⟩,fun _ => rfl⟩
  · unfold start
    rw [size]
    exact files
  · exact fun id held => congrArg (· + 1) (Option.some.inj held).symm
  · intro id pipe' held found'
    cases held
    unfold start at found'
    rw [size] at found'
    cases Option.some.inj (found.symm.trans found')
    change 0 = 0 * pipeChunkSize + pipe.data.length
    rw [empty,Nat.zero_mul]
    rfl
  · intro _ _ _ _ full
    simp only [start] at full
    split at full
    · cases full
    · cases full

/- Whatever the chunks the origin sends, the two threads, max_size and the sends. -/
theorem faithfulWhileCovered (length : p.content.length = p.bytesToTransfer) (asked : 0 < p.bytesToTransfer)
    {headerLen attached : Nat} (within : attached ≤ p.content.length) (as : List Act)
    (covered : Along (step p) (Covered p) (some (start p headerLen attached)) as) :
    Always (step p) (Faithful? p) (some (start p headerLen attached)) as := by
  refine alwaysMono (fun o good => ?_) (alwaysOfInvariant
    (fun o a o' good covered did => stepGood length asked good covered did)
    ⟨_,1,0,rfl,startInv within⟩ covered)
  obtain ⟨s,w,r,rfl,h⟩ := good
  exact faithfulOfInv length h

/- Three bytes, by blocks of two. -/
def threeBytes : Pull Nat := ⟨0,3,2,[1,2,3]⟩

def threeBytesRun : List Act :=
  [.receive 2,.enter,.write,.note true,.finish true,.call 100,.read,.call 100,.accept 2,.finishTransfer true,
    .read,.checkEof,.receive 1,.enter,.write,.note true,.finish true,.call 100,.read,.call 100,.wouldBlock,
    .call 100,.accept 1,.finishTransfer true,.aioWritten 0]

theorem threeBytesPass :
    Always (step threeBytes) (Faithful? threeBytes) (some (start threeBytes 100 0)) threeBytesRun ∧
      ((Lib.run (step threeBytes) (some (start threeBytes 100 0)) threeBytesRun).bind id).map State.accepted
        = some [1,2,3] :=
  ⟨faithfulWhileCovered rfl (by decide) (by decide) threeBytesRun (by decide +kernel),by decide +kernel⟩

/- The request for the bytes from the second on: the transfer leaves out the first
of them. -/
theorem fromSecondByte :
    ¬ Always (step (⟨1,2,2,[2,3]⟩ : Pull Nat)) (Faithful? ⟨1,2,2,[2,3]⟩) (some (start ⟨1,2,2,[2,3]⟩ 100 0))
      [.receive 2,.enter,.write,.note true,.finish true,.call 100,.read,.call 100,.accept 1] := by
  decide +kernel

/- A byte that comes in between the read and eof is left behind. -/
example : ¬ Always (step (⟨0,2,2,[1,2]⟩ : Pull Nat)) (Faithful? ⟨0,2,2,[1,2]⟩) (some (start ⟨0,2,2,[1,2]⟩ 100 0))
    [.receive 1,.enter,.write,.note true,.finish true,.call 100,.read,.call 100,.accept 1,.finishTransfer true,
      .read,.receive 1,.enter,.write,.checkEof,.renew true] := by
  decide +kernel

end Runs

end CuteNdk.PullPipe
