import CuteNdk.PullPipeFiles
import CuteNdk.FileCompletion

/-! A whole file that is pulled: handle_aio_write marks the chunk of each pipe buffer
that is written to disk. Once every byte is stored the file becomes ST_COMPLETED,
unless its length is a multiple of the size of a chunk. -/
namespace CuteNdk.FileCompletion
open PullPipe (Pull State Act PipeBuffer PullFileTransfer pipeChunkSize firstChunkId chunkSize)
open Lib (run Always alwaysInvariant alwaysAtEnd)

/- The pull of a file with its file_info; stored is the chunks that have been written
to disk. -/
structure Pulled (α : Type) where
  pull : State α
  info : FileInfo
  stored : List Nat

variable {α : Type} {p : Pull α}

/- A write to disk is started for a pipe buffer only when there is something in it. -/
def step (p : Pull α) (s : Pulled α) : Act → Option (Pulled α)
  | .aioWritten id =>
    match s.pull.file.pipes id with
    | none => none
    | some pipe =>
      if pipe.data.length = 0 then none else do
        let info ← s.info.handleAioWrite pipe.chunkId
        let pull ← (PullPipe.act p s.pull (.aioWritten id)).join
        some ⟨pull,info,s.stored ++ [pipe.chunkId]⟩
  | a => (PullPipe.act p s.pull a).join.map fun pull => { s with pull := pull }

/- The pipe buffers have the chunks in the order they were made in, each of the size
that is left for it. -/
structure Sized (p : Pull α) (f : PullPipe.FileInfo α) : Prop where
  pipes : ∀ j pipe, f.pipes j = some pipe →
    pipe.chunkId = firstChunkId p + j ∧ pipe.bufferSize = chunkSize p j ∧ pipe.data.length ≤ pipe.bufferSize
  table : ∀ c j, f.pipeBuffers c = some j → c = firstChunkId p + j

/- r is the chunk the transfer is at. -/
structure At (p : Pull α) (f : PullPipe.FileInfo α) (t : PullFileTransfer α) (r : Nat) : Prop where
  chunk : t.chunkId = firstChunkId p + r
  remaind : t.remaindLength = p.content.length - r * pipeChunkSize
  holds : ∀ id, t.pipeBuffer = some id → id = r
  made : f.made = r + 1

structure InOrder (p : Pull α) (s : State α) : Prop where
  files : Sized p s.file
  idle : s.transfer = none → s.file.made = 1
  reader : ∀ t, s.transfer = some t → ∃ r, At p s.file t r
  fresh : s.agent.recvedFirstPackage = false → s.transfer = none

section Files
variable {f f' : PullPipe.FileInfo α} {id : Nat}

theorem sizedSet (h : Sized p f) {pipe : PipeBuffer α} (ok : pipe.chunkId = firstChunkId p + id ∧
    pipe.bufferSize = chunkSize p id ∧ pipe.data.length ≤ pipe.bufferSize) : Sized p (f.set id pipe) := by
  refine ⟨fun j pipe' found => ?_,h.table⟩
  by_cases here : j = id
  · subst j
    have same : (f.set id pipe).pipes id = some pipe := Function.update_self _ _ _
    cases Option.some.inj (same.symm.trans found)
    exact ok
  · have same : (f.set id pipe).pipes j = f.pipes j := Function.update_of_ne here _ _
    exact h.pipes j pipe' (same ▸ found)

theorem sizedRelease (h : Sized p f) (c : Nat) : Sized p (f.release id c) := by
  refine ⟨fun j pipe found => ?_,fun k j listed => ?_⟩
  · by_cases here : j = id
    · subst j
      have gone : (f.release id c).pipes id = none := Function.update_self _ _ _
      exact absurd (gone.symm.trans found) (Option.some_ne_none _).symm
    · have same : (f.release id c).pipes j = f.pipes j := Function.update_of_ne here _ _
      exact h.pipes j pipe (same ▸ found)
  · by_cases here : k = c
    · subst k
      have gone : (f.release id c).pipeBuffers c = none := Function.update_self _ _ _
      exact absurd (gone.symm.trans listed) (Option.some_ne_none _).symm
    · have same : (f.release id c).pipeBuffers k = f.pipeBuffers k := Function.update_of_ne here _ _
      exact h.table k j (same ▸ listed)

theorem sizedClose (h : Sized p f) {started : Bool} (closed : f.close id started = some f') :
    Sized p f' ∧ f'.made = f.made := by
  obtain ⟨pipe,found,rfl⟩ := Option.map_eq_some_iff.1 closed
  have ok := h.pipes id pipe found
  simp only
  split
  · split
    · exact ⟨sizedRelease h _,rfl⟩
    · exact ⟨sizedSet h ok,rfl⟩
  · exact ⟨sizedSet h ok,rfl⟩

theorem sizedAddRef (h : Sized p f) (added : f.addRef id = some f') : Sized p f' ∧ f'.made = f.made := by
  obtain ⟨pipe,found,rfl⟩ := Option.map_eq_some_iff.1 added
  exact ⟨sizedSet h (h.pipes id pipe found),rfl⟩

theorem sizedWritten (h : Sized p f) (id : Nat) : Sized p (f.written id) ∧ (f.written id).made = f.made := by
  unfold PullPipe.FileInfo.written
  split
  · split
    · exact ⟨sizedRelease h _,rfl⟩
    · exact ⟨h,rfl⟩
  · exact ⟨h,rfl⟩

theorem sizedCreate (h : Sized p f) : Sized p (f.create (firstChunkId p + f.made) (chunkSize p f.made)) := by
  refine ⟨fun j pipe found => ?_,fun c j listed => ?_⟩
  · by_cases here : j = f.made
    · subst j
      have new := (Function.update_self f.made _ f.pipes).symm.trans found
      cases Option.some.inj new
      exact ⟨rfl,rfl,Nat.zero_le _⟩
    · have same := (Function.update_of_ne here _ f.pipes).symm.trans found
      exact h.pipes j pipe same
  · by_cases here : c = firstChunkId p + f.made
    · subst c
      have new := (Function.update_self (firstChunkId p + f.made) _ f.pipeBuffers).symm.trans listed
      cases Option.some.inj new
      rfl
    · have same := (Function.update_of_ne here _ f.pipeBuffers).symm.trans listed
      exact h.table c j same

/- What is left after a chunk of the size there was for it. -/
theorem remaindNext (r : Nat) : p.content.length - r * pipeChunkSize - chunkSize p r
    = p.content.length - (r + 1) * pipeChunkSize := by
  unfold chunkSize
  rw [Nat.add_mul,Nat.one_mul]
  omega

end Files

section Order
variable {s s' : State α}

/- The agent leaves the transfer where it is. -/
theorem agentOrder (h : InOrder p s) (files : Sized p s'.file ∧ s'.file.made = s.file.made)
    (transfer : s'.transfer = s.transfer ∨ ∃ b, s'.transfer = s.transfer.map fun t => { t with started := b })
    (fresh : s'.agent.recvedFirstPackage = false → s.agent.recvedFirstPackage = false) : InOrder p s' := by
  refine ⟨files.1,fun none_ => ?_,fun t there => ?_,fun first => ?_⟩
  · rw [files.2]
    refine h.idle ?_
    rcases transfer with same | ⟨b,same⟩
    · exact same.symm.trans none_
    · exact Option.map_eq_none_iff.1 (same.symm.trans none_)
  · rcases transfer with same | ⟨b,same⟩
    · obtain ⟨r,at_⟩ := h.reader t (same.symm.trans there)
      exact ⟨r,at_.chunk,at_.remaind,at_.holds,files.2.trans at_.made⟩
    · obtain ⟨t₀,was,rfl⟩ := Option.map_eq_some_iff.1 (same.symm.trans there)
      obtain ⟨r,at_⟩ := h.reader t₀ was
      exact ⟨r,at_.chunk,at_.remaind,at_.holds,files.2.trans at_.made⟩
  · have none_ := h.fresh (fresh first)
    rcases transfer with same | ⟨b,same⟩
    · exact same.trans none_
    · rw [same,none_]
      rfl

/- The transfer goes on in its chunk, or lets go of it. -/
theorem transferOrder (h : InOrder p s) {t t' : PullFileTransfer α} (there : s.transfer = some t)
    (files : Sized p s'.file ∧ s'.file.made = s.file.made) (now_ : s'.transfer = some t')
    (chunk : t'.chunkId = t.chunkId) (remaind : t'.remaindLength = t.remaindLength)
    (holds : t'.pipeBuffer = t.pipeBuffer ∨ t'.pipeBuffer = none) (agent : s'.agent = s.agent) : InOrder p s' := by
  obtain ⟨r,at_⟩ := h.reader t there
  refine ⟨files.1,fun none_ => ?_,fun t'' there' => ?_,fun first => ?_⟩
  · rw [now_] at none_
    exact absurd none_ (Option.some_ne_none t')
  · cases Option.some.inj (now_.symm.trans there')
    refine ⟨r,chunk.trans at_.chunk,remaind.trans at_.remaind,fun id held => ?_,files.2.trans at_.made⟩
    rcases holds with same | gone
    · exact at_.holds id (same.symm.trans held)
    · exact absurd (gone.symm.trans held) (Option.some_ne_none id).symm
  · rw [agent] at first
    have none_ := h.fresh first
    rw [there] at none_
    exact absurd none_ (Option.some_ne_none t)

theorem noteOrder (h : InOrder p s) {session : Bool} (ran : PullPipe.note p s session = some s') : InOrder p s' := by
  have kept : Sized p s.file ∧ s.file.made = s.file.made := ⟨h.files,rfl⟩
  unfold PullPipe.note at ran
  split at ran
  · rename_i first
    have notYet : s.agent.recvedFirstPackage = false := by simpa using first
    simp only at ran
    split at ran
    · cases Option.some.inj ran
      exact agentOrder h kept (Or.inl rfl) fun is => Bool.noConfusion is
    · cases Option.some.inj ran
      exact agentOrder h kept (Or.inl rfl) fun is => Bool.noConfusion is
    · rename_i id listed
      obtain ⟨f,added,rfl⟩ := Option.map_eq_some_iff.1 ran
      obtain ⟨sized,made⟩ := sizedAddRef h.files added
      have zero : id = 0 := by
        have number := h.files.table _ id listed
        unfold firstChunkId at number
        omega
      refine ⟨sized,fun none_ => absurd none_ (Option.some_ne_none _),fun t there => ?_,fun is => Bool.noConfusion is⟩
      cases Option.some.inj there
      refine ⟨0,rfl,?_,fun id' held => ?_,?_⟩
      · simp [PullFileTransfer.make]
      · cases Option.some.inj held
        exact zero
      · exact made.trans (h.idle (h.fresh notYet))
  · split at ran
    · cases Option.some.inj ran
      exact agentOrder h kept (Or.inr ⟨true,rfl⟩) id
    · cases Option.some.inj ran
      exact agentOrder h kept (Or.inl rfl) id

theorem writeOrder (h : InOrder p s) {id : Nat} (ran : PullPipe.write s id = some s') : InOrder p s' := by
  obtain ⟨pipe,found,rfl⟩ := Option.map_eq_some_iff.1 ran
  obtain ⟨chunk,size,short⟩ := h.files.pipes id pipe found
  have keeps : ∀ n : Nat, (s.agent.consume n).recvedFirstPackage = s.agent.recvedFirstPackage := by
    intro n
    unfold PullPipe.PullHttpAgent.consume
    split
    · rfl
    · split <;> rfl
  refine agentOrder h ⟨sizedSet h.files ?_,rfl⟩ (Or.inl rfl) fun first => (keeps _).symm.trans first
  unfold PipeBuffer.write
  split
  · exact ⟨chunk,size,short⟩
  · refine ⟨chunk,size,?_⟩
    simp only [List.length_append,List.length_take]
    omega

theorem enterOrder (h : InOrder p s) (ran : PullPipe.enter s = some s') : InOrder p s' := by
  have kept : Sized p s.file ∧ s.file.made = s.file.made := ⟨h.files,rfl⟩
  unfold PullPipe.enter at ran
  split at ran
  · cases Option.some.inj ran
    exact agentOrder h kept (Or.inl rfl) id
  · split at ran
    · cases Option.some.inj ran
      exact agentOrder h kept (Or.inl rfl) id
    · obtain ⟨f,added,rfl⟩ := Option.map_eq_some_iff.1 ran
      exact agentOrder h (sizedAddRef h.files added) (Or.inl rfl) id

theorem finishOrder (h : InOrder p s) {started : Bool} (ran : PullPipe.finish p s started = some s') : InOrder p s' := by
  unfold PullPipe.finish at ran
  split at ran
  · split at ran
    · cases ran
    · obtain ⟨f,closed,rfl⟩ := Option.map_eq_some_iff.1 ran
      exact agentOrder h (sizedClose h.files closed) (Or.inr ⟨true,rfl⟩) id
  · cases Option.some.inj ran
    exact agentOrder h ⟨h.files,rfl⟩ (Or.inl rfl) id

theorem agentStepOrder (h : InOrder p s) {a : Act} {o : Option (State α)} (did : PullPipe.agentStep p s a = some o)
    (ran : o = some s') : InOrder p s' := by
  have kept : Sized p s.file ∧ s.file.made = s.file.made := ⟨h.files,rfl⟩
  cases PullPipe.agentSteps did with
  | receive pc goes few within =>
    cases ran
    exact agentOrder h kept (Or.inl rfl) id
  | again pc goes full left =>
    cases ran
    exact agentOrder h kept (Or.inl rfl) id
  | enter pc => exact enterOrder h ran
  | write pc held => exact writeOrder h ran
  | shut pc held =>
    obtain ⟨f,closed,rfl⟩ := Option.map_eq_some_iff.1 ran
    have files := sizedClose h.files closed
    simp only
    split
    · exact agentOrder h files (Or.inl rfl) id
    · exact agentOrder h files (Or.inl rfl) id
  | note pc => exact noteOrder h ran
  | finish pc => exact finishOrder h ran
  | resume notice =>
    cases ran
    exact agentOrder h kept (Or.inl rfl) id

/- From one chunk to the next, what is left is counted down by the size of the pipe
buffer. -/
theorem renewOrder (h : InOrder p s) {t : PullFileTransfer α} (there : s.transfer = some t) {id : Nat}
    (held : t.pipeBuffer = some id) {first started : Bool} (ran : PullPipe.renew s t id first started = some s') :
    InOrder p s' := by
  obtain ⟨r,at_⟩ := h.reader t there
  have number := at_.holds id held
  subst id
  unfold PullPipe.renew at ran
  split at ran
  · cases ran
  · rename_i pipe found
    obtain ⟨f,closed,rfl⟩ := Option.map_eq_some_iff.1 ran
    obtain ⟨sized,made⟩ := sizedClose h.files closed
    have size := (h.files.pipes r pipe found).2.1
    have left : t.remaindLength - pipe.bufferSize = p.content.length - (r + 1) * pipeChunkSize := by
      rw [at_.remaind,size,remaindNext]
    have number : f.made = r + 1 := made.trans at_.made
    have created := sizedCreate sized
    have chunk : t.chunkId + 1 = firstChunkId p + f.made := by
      rw [at_.chunk,number]
      omega
    have room : min pipeChunkSize (t.remaindLength - pipe.bufferSize) = chunkSize p f.made := by
      rw [left,number]
      rfl
    refine ⟨?_,fun none_ => absurd none_ (Option.some_ne_none _),fun t' there' => ?_,fun fresh => ?_⟩
    · simp only
      rw [chunk,room]
      exact created
    · cases Option.some.inj there'
      refine ⟨r + 1,?_,left,fun id' held' => ?_,?_⟩
      · simp only
        rw [at_.chunk]
        omega
      · cases Option.some.inj held'
        exact number
      · simp only [PullPipe.FileInfo.create]
        rw [number]
    · have none_ := h.fresh fresh
      rw [there] at none_
      exact absurd none_ (Option.some_ne_none t)

theorem notifyOrder (h : InOrder p s) {t : PullFileTransfer α} (there : s.transfer = some t) {id : Nat}
    {first sent started : Bool} (ran : PullPipe.notify s t id first sent started = some s') : InOrder p s' := by
  unfold PullPipe.notify at ran
  split at ran
  · cases Option.some.inj ran
    exact transferOrder h there ⟨h.files,rfl⟩ rfl rfl rfl (Or.inl rfl) rfl
  · obtain ⟨f,closed,rfl⟩ := Option.map_eq_some_iff.1 ran
    exact transferOrder h there (sizedClose h.files closed) rfl rfl rfl (Or.inr rfl) rfl

theorem finishTransferOrder (h : InOrder p s) {t : PullFileTransfer α} (there : s.transfer = some t) {id : Nat}
    {started : Bool} (ran : PullPipe.finishTransfer p s t id started = some s') : InOrder p s' := by
  unfold PullPipe.finishTransfer at ran
  split at ran
  · obtain ⟨f,closed,rfl⟩ := Option.map_eq_some_iff.1 ran
    exact transferOrder h there (sizedClose h.files closed) rfl rfl rfl (Or.inr rfl) rfl
  · split at ran
    · cases Option.some.inj ran
      exact transferOrder h there ⟨h.files,rfl⟩ rfl rfl rfl (Or.inl rfl) rfl
    · cases Option.some.inj ran
      exact transferOrder h there ⟨h.files,rfl⟩ rfl rfl rfl (Or.inl rfl) rfl

theorem transferStepOrder (h : InOrder p s) {t : PullFileTransfer α} (there : s.transfer = some t) {a : Act}
    {o : Option (State α)} (did : PullPipe.transferStep p s t a = some o) (ran : o = some s') : InOrder p s' := by
  have kept : Sized p s.file ∧ s.file.made = s.file.made := ⟨h.files,rfl⟩
  cases PullPipe.transferSteps did with
  | waits pc goesOn started =>
    cases ran
    exact h
  | call pc goesOn started held =>
    cases ran
    exact transferOrder h there kept rfl rfl rfl (Or.inl rfl) rfl
  | read pc held =>
    obtain ⟨pipe,found,rfl⟩ := Option.map_eq_some_iff.1 ran
    simp only
    generalize (if t.firstChunk = true then t.rdOffset + p.beginPos % pipeChunkSize else t.rdOffset) = rdOffset
    split
    · exact transferOrder h there kept rfl rfl rfl (Or.inl rfl) rfl
    · exact transferOrder h there kept rfl rfl rfl (Or.inl rfl) rfl
  | checkEof pc held =>
    obtain ⟨pipe,found,rfl⟩ := Option.map_eq_some_iff.1 ran
    exact transferOrder h there kept rfl rfl rfl (Or.inl rfl) rfl
  | renew pc held => exact renewOrder h there held ran
  | notify pc held => exact notifyOrder h there ran
  | accept pc sends fits =>
    cases ran
    exact transferOrder h there kept rfl rfl rfl (Or.inl rfl) rfl
  | wouldBlock pc sends =>
    cases ran
    exact transferOrder h there kept rfl rfl rfl (Or.inl rfl) rfl
  | sendFails pc sends =>
    cases ran
    exact transferOrder h there kept rfl rfl rfl (Or.inl rfl) rfl
  | finishTransfer pc held ends => exact finishTransferOrder h there ran

theorem actOrder (h : InOrder p s) {a : Act} (did : PullPipe.act p s a = some (some s')) : InOrder p s' := by
  rcases PullPipe.actCases did with ⟨id,same⟩ | agent | ⟨t,there,transfer⟩
  · cases same
    exact agentOrder h (sizedWritten h.files id) (Or.inl rfl) fun first => first
  · exact agentStepOrder h agent rfl
  · exact transferStepOrder h there transfer rfl

end Order

/- The chunks that are stored are marked, hold a byte each, and the status says
whether there is one for every character of the bitmap. -/
structure Kept (p : Pull α) (s : Pulled α) : Prop where
  order : InOrder p s.pull
  length : s.info.length = p.content.length
  marked : Marked s.info fun c => ∃ k ∈ s.stored, c = (k : Int)
  nonEmpty : ∀ k ∈ s.stored, k * pipeChunkSize < p.content.length
  status : 0 < chunks p.content.length → (s.info.status = .completed ↔
    ∀ c, 0 ≤ c → c < chunks p.content.length → ∃ k ∈ s.stored, c = (k : Int))

section Kept
variable {s s' : Pulled α} {info : FileInfo}

/- The file is not completed before its last chunk is marked. -/
theorem writeMarks {f g : FileInfo} {marked : Int → Prop} {c : Int} (h : Marked f marked)
    (status : 0 < chunks f.length → (f.status = .completed ↔ ∀ k, 0 ≤ k → k < chunks f.length → marked k))
    (ran : f.handleAioWrite c = some g) : Marked g (fun k => marked k ∨ k = c) ∧ g.length = f.length ∧
      (g.status = .completed ↔ ∀ k, 0 ≤ k → k < chunks f.length → marked k ∨ k = c) := by
  obtain ⟨f₁,set,ran⟩ := Option.bind_eq_some_iff.1 ran
  obtain ⟨b,checked,ran⟩ := Option.bind_eq_some_iff.1 ran
  obtain ⟨h₁,same⟩ := setMarked h set
  obtain ⟨b',checked',iff⟩ := checkIff h₁
  cases Option.some.inj (checked.symm.trans checked')
  rw [same] at iff
  have before : f₁.status = f.status := by
    unfold FileInfo.setBitmap at set
    split at set
    · cases Option.some.inj set
      rfl
    · cases set
  cases Option.some.inj ran
  cases b with
  | true => exact ⟨⟨h₁.size,h₁.inside,h₁.bits⟩,same,fun _ => iff.1 rfl,fun _ => rfl⟩
  | false =>
    refine ⟨h₁,same,fun done => ?_,fun all => absurd (iff.2 all) Bool.false_ne_true⟩
    exact fun k low high => Or.inl ((status (low.trans_lt high)).1 (before.symm.trans done) k low high)

theorem chunkOfPipe (whole : p.beginPos = 0) (h : InOrder p s.pull) {id : Nat} {pipe : PipeBuffer α}
    (found : s.pull.file.pipes id = some pipe) (some_ : pipe.data.length ≠ 0) :
    pipe.chunkId * pipeChunkSize < p.content.length := by
  obtain ⟨chunk,size,short⟩ := h.files.pipes id pipe found
  have first : firstChunkId p = 0 := by
    unfold firstChunkId
    rw [whole]
    exact Nat.zero_div _
  rw [chunk,first,Nat.zero_add]
  rw [size] at short
  unfold chunkSize at short
  omega

theorem stepKeeps (whole : p.beginPos = 0) (h : Kept p s) {a : Act} (did : step p s a = some s') : Kept p s' := by
  unfold step at did
  split at did
  · rename_i id
    split at did
    · cases did
    · rename_i pipe found
      split at did
      · cases did
      · rename_i some_
        obtain ⟨info,written,did⟩ := Option.bind_eq_some_iff.1 did
        obtain ⟨pull,acted,did⟩ := Option.bind_eq_some_iff.1 did
        cases Option.some.inj did
        have acted : PullPipe.act p s.pull (.aioWritten id) = some (some pull) := Option.join_eq_some_iff.1 acted
        have status := h.status
        rw [← h.length] at status
        obtain ⟨marked,same,status'⟩ := writeMarks h.marked status written
        have more : ∀ c : Int, (∃ k ∈ s.stored ++ [pipe.chunkId], c = (k : Int)) ↔
            (∃ k ∈ s.stored, c = (k : Int)) ∨ c = (pipe.chunkId : Int) := by
          intro c
          simp only [List.mem_append,List.mem_singleton,or_and_right,exists_or,exists_eq_left]
        refine ⟨actOrder h.order acted,same.trans h.length,?_,fun k mem => ?_,?_⟩
        · simp only [more]
          exact marked
        · rcases List.mem_append.1 mem with old | new
          · exact h.nonEmpty k old
          · rw [List.mem_singleton.1 new]
            exact chunkOfPipe whole h.order found some_
        · simp only [more]
          rw [← h.length]
          exact fun _ => status'
  · obtain ⟨pull,acted,rfl⟩ := Option.map_eq_some_iff.1 did
    exact ⟨actOrder h.order (Option.join_eq_some_iff.1 acted),h.length,h.marked,h.nonEmpty,h.status⟩

theorem startOrder (headerLen attached : Nat) : InOrder p (PullPipe.start p headerLen attached) := by
  have none_ : Sized p (⟨fun _ => none,fun _ => none,0⟩ : PullPipe.FileInfo α) :=
    ⟨fun j pipe found => absurd found (Option.some_ne_none pipe).symm,
      fun c j listed => absurd listed (Option.some_ne_none j).symm⟩
  have first := sizedCreate none_
  have size : chunkSize p 0 = min pipeChunkSize p.content.length := by
    unfold chunkSize
    rw [Nat.zero_mul,Nat.sub_zero]
  refine ⟨?_,fun _ => rfl,fun t there => absurd there (Option.some_ne_none t).symm,fun _ => rfl⟩
  unfold PullPipe.start
  simp only [Nat.add_zero,size] at first
  exact first

theorem startKept (made : FileInfo.make p.content.length = some info) (headerLen attached : Nat) :
    Kept p ⟨PullPipe.start p headerLen attached,info,[]⟩ := by
  obtain ⟨marked,length⟩ := makeMarked made
  have fresh : info.status = .uncompleted := by
    unfold FileInfo.make at made
    split at made
    · cases made
    · cases Option.some.inj made
      rfl
  refine ⟨startOrder headerLen attached,length,?_,fun k mem => absurd mem List.not_mem_nil,
    fun some_ => ⟨fun done => ?_,fun all => ?_⟩⟩
  · simpa only [List.not_mem_nil,false_and,exists_false] using marked
  · rw [fresh] at done
    cases done
  · obtain ⟨k,mem,_⟩ := all 0 le_rfl some_
    exact absurd mem List.not_mem_nil

theorem reachedKept (whole : p.beginPos = 0) (made : FileInfo.make p.content.length = some info)
    {headerLen attached : Nat} {acts : List Act}
    (reached : run (step p) ⟨PullPipe.start p headerLen attached,info,[]⟩ acts = some s) : Kept p s := by
  have always : Always (step p) (Kept p) ⟨PullPipe.start p headerLen attached,info,[]⟩ acts :=
    alwaysInvariant (fun _ _ _ h did => stepKeeps whole h did) (startKept made headerLen attached) acts
  exact alwaysAtEnd always reached

/- A chunk that is written is one of the bitmap's. -/
theorem writesInside (whole : p.beginPos = 0) (few : (p.content.length : Int) / pipeChunkSize + 1 < 2 ^ 31)
    (h : Kept p s) {id : Nat} {pipe : PipeBuffer α} (found : s.pull.file.pipes id = some pipe)
    (some_ : pipe.data.length ≠ 0) : ∃ s', step p s (.aioWritten id) = some s' := by
  have inside := chunkOfPipe whole h.order found some_
  have count := (chunksIs (Int.natCast_nonneg p.content.length)).1 few
  have within : 0 ≤ (pipe.chunkId : Int) ∧ (pipe.chunkId : Int) < chunks s.info.length := by
    rw [h.length,count,chunkSizeIs]
    have size : pipeChunkSize = 1048576 := rfl
    rw [size] at inside
    omega
  obtain ⟨g,set⟩ := setRuns h.marked within
  obtain ⟨b,checked,_⟩ := checkIff (setMarked h.marked set).1
  obtain ⟨info,written⟩ : ∃ info, s.info.handleAioWrite pipe.chunkId = some info := by
    unfold FileInfo.handleAioWrite
    simp only [set,checked,bind,Option.bind]
    exact ⟨_,rfl⟩
  refine ⟨⟨{ s.pull with file := s.pull.file.written id },info,s.stored ++ [pipe.chunkId]⟩,?_⟩
  unfold step
  simp only [found,if_neg some_,written,bind,Option.bind]
  rfl

/- Every byte stored makes the file complete when its last chunk is a partial one,
and never otherwise. -/
theorem storedCompletes (h : Kept p s) (stored : ∀ i < p.content.length, i / pipeChunkSize ∈ s.stored) :
    s.info.status = .completed ↔ p.content.length % pipeChunkSize ≠ 0 := by
  obtain ⟨exact_,wraps⟩ := chunksIs (Int.natCast_nonneg p.content.length)
  have size : pipeChunkSize = 1048576 := rfl
  rw [chunkSizeIs] at exact_ wraps
  rw [size] at stored ⊢
  have marked : ∀ c : Nat, c * 1048576 < p.content.length → c ∈ s.stored := fun c inside => by
    have mem := stored (c * 1048576) inside
    rw [Nat.mul_div_cancel _ (by decide)] at mem
    exact mem
  by_cases few : (p.content.length : Int) / 1048576 + 1 < 2 ^ 31
  · have count := exact_ few
    rw [h.status (by omega),count]
    constructor
    · intro all boundary
      obtain ⟨k,mem,same⟩ := all (p.content.length / 1048576 : Nat) (Int.natCast_nonneg _) (by omega)
      have inside := h.nonEmpty k mem
      rw [size] at inside
      omega
    · intro partly c low high
      exact ⟨c.toNat,marked c.toNat (by omega),by omega⟩
  · -- the chunk behind the bitmap cannot have been marked
    have short := wraps few
    have nonneg : 0 ≤ chunks p.content.length := by
      rw [← h.length,← h.marked.size]
      exact Int.natCast_nonneg _
    have mem := marked (chunks p.content.length).toNat (by omega)
    have inside := (h.marked.inside _ ⟨_,mem,rfl⟩).2
    rw [h.length] at inside
    omega

end Kept

/- check_file_completed says of a length and the marks set whether every chunk with a
byte is marked just where Recognisable holds; and a file that is pulled whole is
completed, once all its bytes are stored, just when its length is no multiple of
the size of a chunk. -/
theorem completionRecognised {length : Int} {marks : List Int} (positive : 1 ≤ length)
    (valid : ∀ c ∈ marks, 0 ≤ c ∧ c ≤ length / pipeChunkSize) :
    (RecognisesCompletion length marks ↔ Recognisable length marks) ∧
    ∀ (α : Type) (p : Pull α) (info : FileInfo) (headerLen attached : Nat) (acts : List Act) (s : Pulled α),
      p.beginPos = 0 → FileInfo.make p.content.length = some info →
      run (step p) ⟨PullPipe.start p headerLen attached,info,[]⟩ acts = some s →
        ((p.content.length : Int) / pipeChunkSize + 1 < 2 ^ 31 → ∀ id pipe, s.pull.file.pipes id = some pipe →
          pipe.data.length ≠ 0 → ∃ s', step p s (.aioWritten id) = some s') ∧
        ((∀ i < p.content.length, i / pipeChunkSize ∈ s.stored) →
          (s.info.status = .completed ↔ p.content.length % pipeChunkSize ≠ 0)) := by
  refine ⟨recognisableIff positive valid,?_⟩
  intro α p info headerLen attached acts s whole made reached
  have h := reachedKept whole made reached
  exact ⟨fun few id pipe found some_ => writesInside whole few h found some_,fun stored => storedCompletes h stored⟩

/- Three bytes, all of them behind the header, and what becomes of them. -/
def threeBytes : Pull Nat := ⟨0,3,2,[1,2,3]⟩

def threeBytesStored : List Act :=
  [.enter,.write,.note true,.finish true,.call 10,.read,.call 10,.accept 2,.finishTransfer true,.read,.call 10,
    .accept 1,.finishTransfer true,.aioWritten 0]

theorem threeBytesComplete : ∃ s, run (step threeBytes)
      ⟨PullPipe.start threeBytes 5 3,⟨3,['0'],.uncompleted⟩,[]⟩ threeBytesStored = some s ∧
    s.stored = [0] ∧ s.info.status = .completed ∧ (RecognisesCompletion 3 [0] ↔ Recognisable 3 [0]) := by
  have facts : (run (step threeBytes) ⟨PullPipe.start threeBytes 5 3,⟨3,['0'],.uncompleted⟩,[]⟩ threeBytesStored).map
      (fun s => s.stored) = some [0] := by decide +kernel
  obtain ⟨s,reached,stored⟩ := Option.map_eq_some_iff.1 facts
  have made : FileInfo.make (threeBytes.content.length : Int) = some ⟨3,['0'],.uncompleted⟩ := by decide +kernel
  have recognised := completionRecognised (show (1 : Int) ≤ 3 by decide)
    (show ∀ c ∈ [0], 0 ≤ c ∧ c ≤ (3 : Int) / pipeChunkSize by decide +kernel)
  have completes := (recognised.2 Nat threeBytes _ 5 3 _ s rfl made reached).2
  refine ⟨s,reached,stored,(completes fun i small => ?_).2 (by decide +kernel),recognised.1⟩
  have zero : i / pipeChunkSize = 0 := Nat.div_eq_of_lt (Nat.lt_of_lt_of_le small (by decide +kernel))
  rw [stored,zero]
  exact List.mem_cons_self

/- A file of one whole chunk: the chunk is marked, but not the empty one counted
behind it. -/
theorem wholeChunkNotComplete :
    ¬ ∀ (length : Int) (marks : List Int), 1 ≤ length → (∀ c ∈ marks, 0 ≤ c ∧ c ≤ length / pipeChunkSize) →
      RecognisesCompletion length marks := by
  intro claim
  have recognises := claim 1048576 [0] (by decide) (by decide +kernel)
  rcases (recognisableIff (by decide) (by decide +kernel)).1 recognises with ⟨_,partly | mem⟩ | ⟨_,c,low,_,nonEmpty,off⟩
  · exact partly (by decide +kernel)
  · exact absurd mem (by decide +kernel)
  · have inside := (nonEmptyIff.1 nonEmpty).2
    have zero : c = 0 := by omega
    exact off (zero ▸ List.mem_cons_self)

end CuteNdk.FileCompletion
