import CuteNdk.PullSessionsRuns

/-! Urls that are in queue_pull_sessionmgr for good. The agent whose connect timed out is not
closed, as its handle_timeout returns 0, and no other handler of it is called any more; and a url
is not taken from the queue when its header comes after its client has left. Whoever asks for such
a url is refused. -/
namespace CuteNdk.PullSessions
open Lib.CString
open Lib (run)

/- No handler of the agent will be called: it is neither connecting nor registered. -/
def Stranded (s : State) (url : Str) (a : Nat) : Prop :=
  a ∉ s.connecting ∧ ∃ agent, s.agents a = some agent ∧ agent.connectOk = false ∧ agent.pullInfoOk = false ∧ agent.requestUrl = url

def Blocked (s : State) (url : Str) : Prop := url ∈ s.forgotten ∨ ∃ a, Stranded s url a

/- How far an agent is, and with what. -/
def PullHttpAgent.progress (agent : PullHttpAgent) : Bool × Bool × Str := (agent.connectOk,agent.pullInfoOk,agent.requestUrl)

/- A handler that is called on behalf of agent b leaves the others as far as they are, and gives none
of them back to the connector. -/
structure Spares (b : Nat) (s s' : State) : Prop where
  made : s.made ≤ s'.made
  forgotten : s.forgotten ⊆ s'.forgotten
  agents : ∀ a, a < s.made → a ≠ b → (s'.agents a).map (·.progress) = (s.agents a).map (·.progress)
  connecting : ∀ a, a < s.made → a ∈ s'.connecting → a ∈ s.connecting

section Spares
variable {s s' s'' : State} {b c : Nat} {r : Response} {canceled : Bool} {url : Str} {sid : Int}

theorem sparesSame (made : s'.made = s.made) (forgotten : s'.forgotten = s.forgotten) (agents : s'.agents = s.agents)
    (connecting : s'.connecting = s.connecting) : Spares b s s' :=
  ⟨made.ge,forgotten ▸ List.Subset.refl _,fun _ _ _ => by rw [agents],fun _ _ mem => connecting ▸ mem⟩

theorem sparesRefl : Spares b s s := sparesSame rfl rfl rfl rfl

theorem sparesTrans (h : Spares b s s') (h' : Spares b s' s'') : Spares b s s'' :=
  ⟨h.made.trans h'.made,List.Subset.trans h.forgotten h'.forgotten,
    fun a old other => (h'.agents a (old.trans_le h.made) other).trans (h.agents a old other),
    fun a old mem => h.connecting a old (h'.connecting a (old.trans_le h.made) mem)⟩

/- The entry of b itself is written or goes. -/
theorem sparesUpdate {o : Option PullHttpAgent} (made : s'.made = s.made) (forgotten : s'.forgotten = s.forgotten)
    (agents : s'.agents = Function.update s.agents b o) (connecting : s'.connecting = s.connecting) : Spares b s s' :=
  ⟨made.ge,forgotten ▸ List.Subset.refl _,fun a _ other => by rw [agents,Function.update_of_ne other],
    fun _ _ mem => connecting ▸ mem⟩

theorem sparesWritten {o : Option PullHttpAgent} (h : Spares b { s with agents := Function.update s.agents b o } s') : Spares b s s' :=
  have first : Spares b s { s with agents := Function.update s.agents b o } := sparesUpdate rfl rfl rfl rfl
  sparesTrans first h

theorem responseSpares (does : responseToClient s r = some s') : Spares b s s' := by
  unfold responseToClient at does
  split at does
  · cases does
    exact sparesSame rfl rfl rfl rfl
  · cases does

theorem deleteSpares (does : deleteClient s sid canceled = some s') : Spares b s s' := by
  unfold deleteClient at does
  simp only at does
  split at does
  · cases does
    exact sparesSame rfl rfl rfl rfl
  · split at does
    · cases does
      exact sparesSame rfl rfl rfl rfl
    · split at does
      · cases does
      · cases does
        exact sparesSame rfl rfl rfl rfl

theorem destroySpares (does : destroyClient s c canceled = some s') : Spares b s s' := by
  unfold destroyClient at does
  obtain ⟨client,_,does⟩ := Option.bind_eq_some_iff.1 does
  split at does
  · cases does
    exact sparesSame rfl rfl rfl rfl
  · obtain ⟨s₁,deletes,rfl⟩ := Option.map_eq_some_iff.1 does
    have left := deleteSpares (b := b) deletes
    have first : Spares b s s₁ := ⟨left.made,left.forgotten,left.agents,left.connecting⟩
    exact sparesTrans first (sparesSame rfl rfl rfl rfl)

theorem refuseSpares (does : refuse s r canceled = some s') : Spares b s s' := by
  obtain ⟨s₁,sends,destroys⟩ := Option.bind_eq_some_iff.1 does
  exact sparesTrans (responseSpares sends) (destroySpares destroys)

theorem answerSpares (does : answer s sid r canceled = some s') : Spares b s s' := by
  obtain ⟨s₁,sends,destroys⟩ := Option.bind_eq_some_iff.1 does
  have left := destroySpares (b := b) destroys
  have last : Spares b s₁ s' := ⟨left.made,left.forgotten,left.agents,left.connecting⟩
  exact sparesTrans (responseSpares sends) last

theorem startSpares (agent : TransferAgent) : Spares b s (handleStartTransferData s agent sid c) :=
  ⟨Nat.le_succ _,List.Subset.refl _,fun _ _ _ => rfl,fun _ _ mem => mem⟩

theorem removeSpares (does : removeQueue s url = some s') : Spares b s s' := by
  unfold removeQueue at does
  split at does
  · cases does
    exact sparesSame rfl rfl rfl rfl
  · cases does

theorem failedSpares {multiPull : Bool} (does : handlePullFileFailed s url sid multiPull canceled = some s') : Spares b s s' := by
  obtain ⟨s₁,answers,removes⟩ := Option.bind_eq_some_iff.1 does
  have first : Spares b s s₁ := by
    split at answers
    · cases answers
      exact sparesRefl
    · exact refuseSpares answers
  split at removes
  · cases removes
    exact first
  · exact sparesTrans first (removeSpares removes)

theorem closeSpares (does : closeAgent s b canceled = some s') : Spares b s s' := by
  unfold closeAgent at does
  obtain ⟨agent,_,does⟩ := Option.bind_eq_some_iff.1 does
  obtain ⟨s₁,fails,rfl⟩ := Option.map_eq_some_iff.1 does
  have first : Spares b s s₁ := by
    split at fails
    · cases fails
      exact sparesRefl
    · exact failedSpares fails
  exact sparesTrans first (sparesUpdate rfl rfl rfl rfl)

/- The new agent has a new address. -/
theorem pullFileSpares {p : Pull} (does : handlePullFile s url sid p canceled = some s') : Spares b s s' := by
  unfold handlePullFile at does
  split at does
  · cases does
    exact sparesRefl
  simp only at does
  split at does
  · cases does
  have session : Spares b s (s.newPull url sid) := sparesSame rfl rfl rfl rfl
  split at does
  · exact sparesTrans session (failedSpares does)
  split at does
  · exact sparesTrans session (failedSpares does)
  obtain ⟨s₁,inserts,does⟩ := Option.bind_eq_some_iff.1 does
  unfold insertQueue at inserts
  split at inserts
  · cases inserts
  cases inserts
  have born : ∀ connectOk, Spares b s ((s.newPull url sid).newAgent (s.pullIds + 2) url sid connectOk) := fun connectOk =>
    ⟨Nat.le_succ _,List.Subset.refl _,fun a old _ => congrArg _ (Function.update_of_ne (Nat.ne_of_lt old) _ _),fun _ _ mem => mem⟩
  cases how : p.connect with
  | opened =>
    simp only [how] at does
    cases does
    exact born true
  | inProgress =>
    simp only [how] at does
    cases does
    refine ⟨Nat.le_succ _,List.Subset.refl _,(born false).agents,fun a old mem => ?_⟩
    exact (List.mem_cons.1 mem).resolve_left (Nat.ne_of_lt old)
  | failed =>
    simp only [how] at does
    -- what is closed is the new agent
    have closes := closeSpares does
    refine ⟨Nat.le_of_succ_le closes.made,closes.forgotten,fun a old other => ?_,fun a old mem => ?_⟩
    · have apart : a ≠ s.made := Nat.ne_of_lt old
      exact (closes.agents a (Nat.lt_succ_of_lt old) apart).trans ((born false).agents a old other)
    · exact closes.connecting a (Nat.lt_succ_of_lt old) mem

theorem fileSpares {q : Request} {file : FileInfo} (does : handleFile s c sid q file canceled = some s') : Spares b s s' := by
  unfold handleFile at does
  simp only at does
  generalize (if q.endPos = -1 then file.length - 1 else q.endPos) = endPos at does
  split at does
  · exact answerSpares does
  split at does
  · exact answerSpares does
  split at does
  · exact answerSpares does
  split at does
  · exact answerSpares does
  split at does
  · exact answerSpares does
  split at does
  · exact answerSpares does
  obtain ⟨s₁,sends,rfl⟩ := Option.map_eq_some_iff.1 does
  exact sparesTrans (responseSpares sends) (startSpares _)

theorem requestSpares {concurrency : Int} {q : Request} (does : handleRequest concurrency s c q canceled = some s') : Spares b s s' := by
  unfold handleRequest at does
  split at does
  · exact refuseSpares does
  split at does
  · have left := refuseSpares (b := b) does
    exact ⟨left.made,left.forgotten,left.agents,left.connecting⟩
  simp only at does
  split at does
  · cases does
  have rest : Spares b (s.newSession c q.head ⟨c,q.url,q.beginPos,q.endPos⟩) s' := by
    split at does
    · exact pullFileSpares does
    · exact fileSpares does
  exact ⟨rest.made,rest.forgotten,rest.agents,rest.connecting⟩

/- The url of a client that is gone is forgotten, and none is remembered again. -/
theorem pullFileOkSpares {entityLength : Int} {sent : Bool} (does : handlePullFileOk s url sid entityLength sent canceled = some s') :
    Spares b s s' := by
  unfold handlePullFileOk at does
  simp only at does
  split at does
  · cases does
    exact ⟨Nat.le_refl _,List.subset_cons_self _ _,fun _ _ _ => rfl,fun _ _ mem => mem⟩
  obtain ⟨s₁,removes,does⟩ := Option.bind_eq_some_iff.1 does
  obtain ⟨s₂,sends,does⟩ := Option.bind_eq_some_iff.1 does
  obtain ⟨client,_,does⟩ := Option.bind_eq_some_iff.1 does
  have removed := removeSpares (b := b) removes
  have first : Spares b s s₁ := ⟨removed.made,removed.forgotten,removed.agents,removed.connecting⟩
  have second := sparesTrans first (responseSpares sends)
  split at does
  · exact sparesTrans second (destroySpares does)
  split at does
  · have left := destroySpares (b := b) does
    have last : Spares b s₂ s' := ⟨left.made,left.forgotten,left.agents,left.connecting⟩
    exact sparesTrans second last
  · cases does
    exact second

theorem startsSpares {t : Option Nat} (starts : s.startTransfer t = some s') : s' = s := by
  unfold State.startTransfer at starts
  obtain ⟨t,_,starts⟩ := Option.bind_eq_some_iff.1 starts
  split at starts
  · exact (Option.some.inj starts).symm
  · cases starts

theorem tailSpares {agent : PullHttpAgent} {content : Content} (does : contentTail s b agent content canceled = some s') :
    Spares b s s' := by
  unfold contentTail at does
  split at does
  · obtain ⟨s₁,starts,closes⟩ := Option.bind_eq_some_iff.1 does
    cases startsSpares starts
    exact closeSpares closes
  · cases does
    exact sparesRefl

theorem contentSpares {content : Content} (does : handleContent s b content canceled = some s') : Spares b s s' := by
  unfold handleContent at does
  obtain ⟨agent,_,does⟩ := Option.bind_eq_some_iff.1 does
  split at does
  · exact closeSpares does
  split at does
  · exact closeSpares does
  simp only at does
  generalize (if content.full then { agent with suspend := true, suspended := true } else agent) = agent' at does
  split at does
  · split at does
    · exact closeSpares does
    · split at does
      · exact closeSpares does
      · have left := tailSpares does
        refine ⟨Nat.le_of_succ_le left.made,left.forgotten,fun a old other => ?_,fun a old mem => ?_⟩
        · refine (left.agents a (Nat.lt_succ_of_lt old) other).trans (congrArg _ ?_)
          exact Function.update_of_ne other _ _
        · exact left.connecting a (Nat.lt_succ_of_lt old) mem
  · split at does
    · obtain ⟨s₁,starts,does⟩ := Option.bind_eq_some_iff.1 does
      cases startsSpares starts
      exact sparesWritten (tailSpares does)
    · exact sparesWritten (tailSpares does)

theorem replySpares {reply : Reply} (does : handleResponse s b reply canceled = some s') : Spares b s s' := by
  unfold handleResponse at does
  obtain ⟨agent,_,does⟩ := Option.bind_eq_some_iff.1 does
  split at does
  · cases does
    exact sparesRefl
  · exact closeSpares does
  · simp only at does
    obtain ⟨s₁,header,does⟩ := Option.bind_eq_some_iff.1 does
    have first : Spares b s s₁ := sparesWritten (pullFileOkSpares header)
    split at does
    · exact sparesTrans first (closeSpares does)
    split at does
    · exact sparesTrans first (closeSpares does)
    · have left := closeSpares does
      have last : Spares b s₁ s' := ⟨left.made,left.forgotten,left.agents,left.connecting⟩
      exact sparesTrans first last
    · split at does
      · cases does
        exact first
      · exact sparesTrans first (contentSpares does)

/- Only suspended of an agent changes. -/
theorem msgSpares {e : NotifyEvent} (does : handleMsg s e canceled = some s') : Spares b s s' := by
  unfold handleMsg at does
  split at does
  · split at does
    · cases does
      exact sparesRefl
    · exact destroySpares does
  · split at does
    · cases does
      exact sparesRefl
    · obtain ⟨pulls,_,does⟩ := Option.bind_eq_some_iff.1 does
      cases pulls with
      | none =>
        cases does
        exact sparesRefl
      | some a =>
        obtain ⟨agent,found,rfl⟩ := Option.map_eq_some_iff.1 does
        refine ⟨Nat.le_refl _,List.Subset.refl _,fun a' _ _ => ?_,fun _ _ mem => mem⟩
        by_cases same : a' = a
        · subst same
          simp only [Function.update_self,found]
          rfl
        · simp only [Function.update_of_ne same]

theorem dispatchSpares {itor : Nat} {j : DispatchJob} {act : Act} (does : dispatch s itor j act = some (some s')) : Spares b s s' := by
  unfold dispatch at does
  split at does
  · split at does
    · cases does
      exact sparesSame rfl rfl rfl rfl
    · cases does
  · split at does
    · cases does
    · obtain ⟨_,_,rfl⟩ := Option.map_eq_some_iff.1 (Option.some.inj does)
      exact sparesSame rfl rfl rfl rfl
  · split at does
    · cases does
    · split at does
      · obtain ⟨_,_,rfl⟩ := Option.map_eq_some_iff.1 (Option.some.inj does)
        exact sparesSame rfl rfl rfl rfl
      · cases does
  · cases does

end Spares

/- What a handler is called for. -/
def Handled (s : State) (b : Nat) : Prop := b ∈ s.connecting ∨ ∀ agent, s.agents b = some agent → agent.connectOk = true

section Steps
variable {s s' : State} {concurrency : Int} {act : Act} {url : Str} {a b : Nat}

theorem sparesErase (h : Spares b { s with connecting := s.connecting.erase a } s') : Spares b s s' :=
  ⟨h.made,h.forgotten,h.agents,fun a' old mem => List.mem_of_mem_erase (h.connecting a' old mem)⟩

/- No agent has the next address. -/
theorem handledNone (h : Inv s) : Handled s s.made :=
  .inr fun agent here => absurd (h.agents.old _ agent here).1 (lt_irrefl _)

theorem stepSpares (h : Inv s) (does : step concurrency (some s) act = some (some s')) : ∃ b, Handled s b ∧ Spares b s s' := by
  have nobody := handledNone h
  rw [step,Option.bind_some] at does
  cases act with
  | accept =>
    cases does
    exact ⟨_,nobody,⟨Nat.le_succ _,List.Subset.refl _,fun _ _ _ => rfl,fun _ _ mem => mem⟩⟩
  | refuse c status =>
    obtain ⟨client,_,does⟩ := Option.bind_eq_some_iff.1 does
    split at does
    · exact ⟨_,nobody,refuseSpares (Option.some.inj does)⟩
    · cases does
  | leave c canceled =>
    obtain ⟨_,_,does⟩ := Option.map_eq_some_iff.1 does
    exact ⟨_,nobody,destroySpares does⟩
  | request c r canceled =>
    obtain ⟨client,_,does⟩ := Option.bind_eq_some_iff.1 does
    split at does
    · exact ⟨_,nobody,requestSpares (Option.some.inj does)⟩
    · cases does
  | connected a opens canceled =>
    simp only at does
    split at does
    · rename_i mem
      refine ⟨a,.inl mem,?_⟩
      split at does
      · obtain ⟨agent,found,rfl⟩ := Option.map_eq_some_iff.1 (Option.some.inj does)
        exact sparesErase (sparesWritten sparesRefl)
      · exact sparesErase (closeSpares (Option.some.inj does))
    · cases does
  | connectTimeout a =>
    simp only at does
    split at does
    · cases does
      exact ⟨_,nobody,sparesErase sparesRefl⟩
    · cases does
  | connectFails a canceled =>
    simp only at does
    split at does
    · rename_i mem
      exact ⟨a,.inl mem,sparesErase (closeSpares (Option.some.inj does))⟩
    · cases does
  | response a r canceled =>
    obtain ⟨agent,found,does⟩ := Option.bind_eq_some_iff.1 does
    split at does
    · rename_i ready
      exact ⟨a,.inr fun other here => by cases found.symm.trans here; exact ready.1,replySpares (Option.some.inj does)⟩
    · cases does
  | content a c canceled =>
    obtain ⟨agent,found,does⟩ := Option.bind_eq_some_iff.1 does
    split at does
    · rename_i ready
      have connected := (h.agents.old a agent found).2.2.2.2 ready.1
      exact ⟨a,.inr fun other here => by cases found.symm.trans here; exact connected,contentSpares (Option.some.inj does)⟩
    · cases does
  | closed a canceled =>
    obtain ⟨agent,found,does⟩ := Option.bind_eq_some_iff.1 does
    split at does
    · rename_i ready
      exact ⟨a,.inr fun other here => by cases found.symm.trans here; exact ready,closeSpares (Option.some.inj does)⟩
    · cases does
  | complete url =>
    obtain ⟨_,_,does⟩ := Option.map_eq_some_iff.1 does
    cases does
    exact ⟨_,nobody,sparesSame rfl rfl rfl rfl⟩
  | notice canceled =>
    simp only at does
    split at does
    · cases does
    · have left := msgSpares (b := s.made) (Option.some.inj does)
      exact ⟨_,nobody,left.made,left.forgotten,left.agents,left.connecting⟩
  | stop itor notified =>
    obtain ⟨_,_,does⟩ := Option.bind_eq_some_iff.1 does
    exact ⟨_,nobody,dispatchSpares does⟩
  | wake itor =>
    obtain ⟨_,_,does⟩ := Option.bind_eq_some_iff.1 does
    exact ⟨_,nobody,dispatchSpares does⟩
  | reap itor =>
    obtain ⟨_,_,does⟩ := Option.bind_eq_some_iff.1 does
    exact ⟨_,nobody,dispatchSpares does⟩

theorem spareStranded (h : Inv s) (handled : Handled s b) (spares : Spares b s s') (stranded : Stranded s url a) : Stranded s' url a := by
  obtain ⟨free,agent,found,unopened,before,mine⟩ := stranded
  have old := (h.agents.old a agent found).1
  have other : a ≠ b := by
    rintro rfl
    rcases handled with mem | connected
    · exact free mem
    · exact absurd (connected agent found) (by rw [unopened]; decide)
  have same := spares.agents a old other
  rw [found,Option.map_some] at same
  obtain ⟨agent',found',progress⟩ := Option.map_eq_some_iff.1 same
  obtain ⟨connect,rest⟩ := Prod.mk.inj progress
  obtain ⟨info,url_⟩ := Prod.mk.inj rest
  exact ⟨fun mem => free (spares.connecting a old mem),agent',found',connect.trans unopened,info.trans before,url_.trans mine⟩

theorem stepBlocked (h : Inv s) (blocked : Blocked s url) (does : step concurrency (some s) act = some (some s')) : Blocked s' url := by
  obtain ⟨b,handled,spares⟩ := stepSpares h does
  rcases blocked with forgotten | ⟨a,stranded⟩
  · exact .inl (spares.forgotten forgotten)
  · exact .inr ⟨a,spareStranded h handled spares stranded⟩

theorem blockedQueued (h : Inv s) (blocked : Blocked s url) : s.queue url = true := by
  refine (h.queue.queued url).2 ?_
  rcases blocked with forgotten | ⟨a,_,agent,found,_,before,mine⟩
  · exact .inr forgotten
  · exact .inl ⟨a,agent,found,before,mine⟩

theorem timeoutBlocks (h : Inv s) (does : step concurrency (some s) (.connectTimeout a) = some (some s')) :
    ∃ agent, s.agents a = some agent ∧ Blocked s' agent.requestUrl := by
  rw [step,Option.bind_some] at does
  simp only at does
  split at does
  · rename_i mem
    cases does
    obtain ⟨agent,found,unopened⟩ := h.agents.connecting a mem
    have before : agent.pullInfoOk = false := by
      cases info : agent.pullInfoOk with
      | false => rfl
      | true =>
        have opened := (h.agents.old a agent found).2.2.2.2 info
        rw [unopened] at opened
        cases opened
    exact ⟨agent,found,.inr ⟨a,h.agents.once.not_mem_erase,agent,found,unopened,before,rfl⟩⟩
  · cases does

theorem destroyGives {c : Nat} {canceled : Bool} (does : destroyClient s c canceled = some s') :
    s'.clients c = none ∧ s'.agents = s.agents ∧ s'.responses = s.responses := by
  unfold destroyClient at does
  obtain ⟨client,_,does⟩ := Option.bind_eq_some_iff.1 does
  split at does
  · cases does
    exact ⟨Function.update_self _ _ _,rfl,rfl⟩
  · obtain ⟨s₁,deletes,rfl⟩ := Option.map_eq_some_iff.1 does
    have same : s₁.agents = s.agents ∧ s₁.responses = s.responses := by
      unfold deleteClient at deletes
      simp only at deletes
      split at deletes
      · cases deletes
        exact ⟨rfl,rfl⟩
      · split at deletes
        · cases deletes
          exact ⟨rfl,rfl⟩
        · split at deletes
          · cases deletes
          · cases deletes
            exact ⟨rfl,rfl⟩
    exact ⟨Function.update_self _ _ _,same⟩

/- A client that is refused is gone, and no agent comes of it. -/
theorem refuseGives {r : Response} {canceled : Bool} (does : refuse s r canceled = some s') :
    s'.agents = s.agents ∧ s'.clients r.client = none ∧ s'.responses = r :: s.responses := by
  obtain ⟨s₁,sends,destroys⟩ := Option.bind_eq_some_iff.1 does
  unfold responseToClient at sends
  split at sends
  · cases sends
    obtain ⟨gone,agents,responses⟩ := destroyGives destroys
    exact ⟨agents,gone,responses⟩
  · cases sends

theorem requestRefused {c : Nat} {r : Request} {canceled : Bool} (h : Inv s) (queued : s.queue r.url = true) (none_ : s.files r.url = none)
    (host : r.pull.host = true) (does : step concurrency (some s) (.request c r canceled) = some (some s')) :
    s'.agents = s.agents ∧ s'.clients c = none ∧ ∃ status ∈ [404,416,501,503], s'.responses = ⟨c,status,0,0,0⟩ :: s.responses := by
  rw [step,Option.bind_some] at does
  obtain ⟨client,_,does⟩ := Option.bind_eq_some_iff.1 does
  split at does
  · rename_i known
    have does := Option.some.inj does
    unfold handleRequest at does
    split at does
    · obtain ⟨agents,gone,sent⟩ := refuseGives does
      exact ⟨agents,gone,503,by decide,sent⟩
    split at does
    · rename_i range
      obtain ⟨agents,gone,sent⟩ := refuseGives does
      have left : r.range ∈ [404,416,501,503] := by
        have listed := known.2
        simp only [ranges,List.mem_cons,List.not_mem_nil,or_false] at listed ⊢
        omega
      exact ⟨agents,gone,r.range,left,sent⟩
    simp only at does
    split at does
    · cases does
    simp only [none_] at does
    unfold handlePullFile at does
    rw [if_neg (by rw [host]; decide)] at does
    simp only at does
    split at does
    · cases does
    -- the session that was just made is found
    have positive : ¬s.pushIds + 2 < 0 := by have ids := h.ids.1; omega
    simp only [handlePullFileFailed,State.findPush,if_neg positive,Function.update_self] at does
    obtain ⟨s₁,refuses,same⟩ := Option.bind_eq_some_iff.1 does
    cases same
    obtain ⟨agents,gone,sent⟩ := refuseGives refuses
    exact ⟨agents,gone,404,by decide,sent⟩
  · cases does

theorem stepInv {o : Option State} (h : Inv s) (does : step concurrency (some s) act = some o) : ∀ s' ∈ o, Inv s' := by
  intro s' here
  have is : o = some s' := here
  subst is
  by_cases fine : Fine concurrency (some s) act
  · obtain ⟨_,is,inv⟩ := stepKeeps h fine does
    cases is
    exact inv
  · cases stepBreaks h fine does

theorem runBlocked {acts : List Act} (h : Inv s) (blocked : Blocked s url)
    (goes : run (step concurrency) (some s) acts = some (some s')) : Inv s' ∧ Blocked s' url := by
  induction acts generalizing s with
  | nil =>
    cases goes
    exact ⟨h,blocked⟩
  | cons act acts ih =>
    obtain ⟨o,does,rest⟩ := Option.bind_eq_some_iff.1 goes
    cases o with
    | none =>
      -- what is undefined goes nowhere
      cases acts with
      | nil => cases rest
      | cons act acts =>
        obtain ⟨_,no,_⟩ := Option.bind_eq_some_iff.1 rest
        cases no
    | some s₁ => exact ih (stepInv h does s₁ rfl) (stepBlocked h blocked does) rest

end Steps

/- From when a connect times out, or a header comes too late, the url stays in the queue whatever happens:
a request that would have to pull it makes no agent, and its client is refused and gone. -/
theorem blockedForGood (concurrency : Int) {acts later : List Act} {act : Act} {s s₁ s' : State} {url : Str}
    (ran : run (step concurrency) (some idle) acts = some (some s)) (does : step concurrency (some s) act = some (some s₁))
    (how : url ∈ s₁.forgotten ∨ ∃ a agent, act = .connectTimeout a ∧ s.agents a = some agent ∧ agent.requestUrl = url)
    (goes : run (step concurrency) (some s₁) later = some (some s')) :
    s'.queue url = true ∧ ∀ c r canceled s'', r.url = url → r.pull.host = true → s'.files url = none →
      step concurrency (some s') (.request c r canceled) = some (some s'') → s''.agents = s'.agents ∧
        s''.clients c = none ∧ ∃ status ∈ [404,416,501,503], s''.responses = ⟨c,status,0,0,0⟩ :: s'.responses := by
  have start := Lib.alwaysAtEnd (reachesInv concurrency acts) ran s rfl
  have blocked : Blocked s₁ url := by
    rcases how with late | ⟨a,agent,rfl,found,rfl⟩
    · exact .inl late
    · obtain ⟨other,here,stays⟩ := timeoutBlocks start does
      cases found.symm.trans here
      exact stays
  obtain ⟨inv,still⟩ := runBlocked (stepInv start does s₁ rfl) blocked goes
  have queued := blockedQueued inv still
  refine ⟨queued,fun c r canceled s'' mine host none_ asks => ?_⟩
  subst mine
  exact requestRefused inv queued none_ host asks

def somePage : Request := ⟨false,['u'],200,0,-1,false,false,true,true,⟨true,false,.inProgress⟩⟩

/- The connect of the first client's request times out; the second client asks for the same url. -/
theorem timedOutRefused : ∃ s s', run (step 10) (some idle) [.accept,.request 0 somePage true,.connectTimeout 1,.accept] = some (some s) ∧
    step 10 (some s) (.request 2 somePage true) = some (some s') ∧ s'.clients 2 = none ∧
      ∃ status ∈ [404,416,501,503], s'.responses = ⟨2,status,0,0,0⟩ :: s.responses := by
  obtain ⟨s₀,s₁,s,s',ran,times,how,goes,asks,none_⟩ : ∃ s₀ s₁ s s',
      run (step 10) (some idle) [.accept,.request 0 somePage true] = some (some s₀) ∧
      step 10 (some s₀) (.connectTimeout 1) = some (some s₁) ∧
      (∃ agent, s₀.agents 1 = some agent ∧ agent.requestUrl = ['u']) ∧
      run (step 10) (some s₁) [.accept] = some (some s) ∧ step 10 (some s) (.request 2 somePage true) = some (some s') ∧
      s.files ['u'] = none :=
    ⟨_,_,_,_,rfl,rfl,⟨_,rfl,rfl⟩,rfl,rfl,rfl⟩
  obtain ⟨agent,found,mine⟩ := how
  obtain ⟨_,refused⟩ := blockedForGood 10 ran times (.inr ⟨1,agent,rfl,found,mine⟩) goes
  obtain ⟨_,gone,status,listed,sent⟩ := refused 2 somePage true s' rfl rfl none_ asks
  refine ⟨s,s',?_,asks,gone,status,listed,sent⟩
  rw [show [Act.accept,.request 0 somePage true,.connectTimeout 1,.accept] =
    [.accept,.request 0 somePage true] ++ (.connectTimeout 1 :: [.accept]) from rfl,Lib.runAppend,ran]
  exact (Option.bind_eq_some_iff.2 ⟨_,times,goes⟩ : run (step 10) (some s₀) [.connectTimeout 1,.accept] = some (some s))

end CuteNdk.PullSessions
