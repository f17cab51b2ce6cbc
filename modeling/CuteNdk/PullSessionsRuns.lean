import CuteNdk.PullSessionsKept

/-! Whole runs of the sessions of fcache. Nothing that is gone is used and no assert fails, as long as
ids last and no agent is woken or done when its client has left. -/
namespace CuteNdk.PullSessions
open Lib.CString
open Lib (Always Along alwaysInvariant alwaysIffAlong updateSome)

section Handlers
variable {s : State} {a c : Nat} {agent : PullHttpAgent} {client : HttpClient} {sid : Int} {push : PushSession} {url : Str}

theorem findPushSome (h : Inv s) : s.findPush sid = some push ↔ s.pushSessions sid = some push := by
  unfold State.findPush
  split
  · rename_i negative
    constructor
    · exact fun none_ => by cases none_
    · intro listed
      have positive := (h.sessions.owner sid push listed).1
      omega
  · exact Iff.rfl

/- The client of a session gets 404, if it is there and has got nothing yet. -/
theorem failedLeaves (sid : Int) (h : Inv s) (quiet : ∀ push, s.pushSessions sid = some push → ¬s.answered push.client) (canceled : Bool) :
    ∃ s', Leaves s s' ∧ ∀ url multiPull, handlePullFileFailed s url sid multiPull canceled =
      if multiPull then some s' else removeQueue s' url := by
  unfold handlePullFileFailed
  cases listed : s.findPush sid with
  | none => exact ⟨s,⟨h,rfl,rfl,rfl⟩,fun _ _ => rfl⟩
  | some push =>
    have there := (findPushSome h).1 listed
    obtain ⟨_,_,client,alive,_⟩ := h.sessions.owner sid push there
    obtain ⟨s',does,leaves⟩ := refuseKeeps (r := ⟨push.client,404,0,0,0⟩) h alive
      (by decide : 404 ∈ statuses) (quiet push there) canceled
    refine ⟨s',leaves,fun url multiPull => ?_⟩
    simp only [does,Option.bind_some]

theorem waitingQuiet (h : Inv s) (found : s.agents a = some agent) (before : agent.pullInfoOk = false) :
    ∀ push, s.pushSessions agent.pushSessionId = some push → ¬s.answered push.client := by
  rintro push listed ⟨r,mem,same⟩
  exact h.responses.waiting a agent push found before listed r mem same

theorem closeKeeps (h : Inv s) (found : s.agents a = some agent) (free : a ∉ s.connecting) (canceled : Bool) :
    ∃ s', closeAgent s a canceled = some s' ∧ Inv s' := by
  unfold closeAgent
  rw [found,Option.bind_some]
  cases info : agent.pullInfoOk with
  | true =>
    have drop := dropKeeps h found free
    refine ⟨_,rfl,?_⟩
    unfold State.dropAgent at drop
    rw [info] at drop
    exact drop
  | false =>
    obtain ⟨s',leaves,fails⟩ := failedLeaves agent.pushSessionId h (waitingQuiet h found info) canceled
    have found' : s'.agents a = some agent := by rw [leaves.agents,found]
    have queued : s'.queue agent.requestUrl = true := by
      rw [leaves.queue]
      exact (h.queue.queued _).2 (.inl ⟨a,agent,found,info,rfl⟩)
    have drop := dropKeeps leaves.inv found' (by rw [leaves.connecting]; exact free)
    refine ⟨_,?_,drop⟩
    simp only [Bool.false_eq_true,if_false,fails,removeQueue,queued,if_true,Option.map_some]
    unfold State.dropAgent
    rw [info]
    rfl

theorem pullFileKeeps (h : Inv s) (listed : s.pushSessions sid = some push) (mine : push.requestUrl = url)
    (pushless : ∀ a agent, s.agents a = some agent → agent.pushSessionId ≠ sid) (jobless : ∀ j ∈ s.jobs, j.sessionId ≠ sid)
    (first : ¬s.answered push.client) (p : Pull) (ids : p.host = true → s.pullIds + 2 ≤ intMax) (canceled : Bool) :
    ∃ s', handlePullFile s url sid p canceled = some s' ∧ Inv s' := by
  unfold handlePullFile
  cases host : p.host with
  | false => exact ⟨s,if_pos (by decide),h⟩
  | true =>
    have new : s.pullSessions (s.pullIds + 2) = none := by
      cases there : s.pullSessions (s.pullIds + 2) with
      | none => rfl
      | some pull =>
        have bound := h.pulls.old _ pull there
        omega
    have kept : Inv (s.newPull url sid) := pullKeeps h
    have quiet : ∀ push', (s.newPull url sid).pushSessions sid = some push' → ¬(s.newPull url sid).answered push'.client := by
      intro push' listed'
      change s.pushSessions sid = some push' at listed'
      rw [listed] at listed'
      cases listed'
      exact first
    obtain ⟨s₁,leaves,fails⟩ := failedLeaves sid kept quiet canceled
    have multi : handlePullFileFailed (s.newPull url sid) url sid true canceled = some s₁ := fails url true
    rw [if_neg (by decide),if_neg (by rw [new]; simpa using ids host)]
    unfold State.newPull at multi
    simp only
    cases queued : s.queue url with
    | true => exact ⟨s₁,by rw [if_pos rfl]; exact multi,leaves.inv⟩
    | false =>
      rw [if_neg (by decide)]
      cases full : p.diskFull with
      | true => exact ⟨s₁,by rw [if_pos rfl]; exact multi,leaves.inv⟩
      | false =>
        have born : ∀ connectOk, Inv ((s.newPull url sid).newAgent (s.pullIds + 2) url sid connectOk) := fun connectOk =>
          agentKeeps kept queued listed mine (Int.le_refl _) pushless
            (fun b other here => by have bound := (h.agents.old b other here).2.2.2.1; omega) jobless first
        have unconnected : s.made ∉ s.connecting := by
          intro mem
          obtain ⟨other,here,_⟩ := h.agents.connecting _ mem
          exact absurd (h.agents.old _ other here).1 (lt_irrefl _)
        have inserts : insertQueue (s.newPull url sid) url =
            some { s.newPull url sid with queue := Function.update s.queue url true } := if_neg (by
          change ¬s.queue url = true
          rw [queued]
          decide)
        rw [if_neg (by decide)]
        unfold State.newPull at inserts
        rw [inserts,Option.bind_some]
        cases how : p.connect with
        | opened => exact ⟨_,rfl,born true⟩
        | inProgress =>
          exact ⟨_,rfl,connectBegun (born false) (Function.update_self _ _ _) rfl unconnected⟩
        | failed => exact closeKeeps (born false) (Function.update_self _ _ _) unconnected canceled

/- The request gets a session. -/
def Admitted (concurrency : Int) (s : State) (r : Request) : Prop := s.payload ≤ concurrency ∧ (r.range = 200 ∨ r.range = 206)

/- Ids last for a request. -/
def IdsLast (concurrency : Int) (s : State) (r : Request) : Prop :=
  Admitted concurrency s r → s.pushIds + 2 ≤ intMax ∧ (s.files r.url = none → r.pull.host = true → s.pullIds + 2 ≤ intMax)

theorem unanswered (h : Inv s) (found : s.clients c = some client) (before : client.recvMsgOk = false) : ¬s.answered c := by
  rintro ⟨r,mem,same⟩
  exact h.responses.fresh c client found before r mem same

theorem answerKeeps {r : Response} (h : Inv s) (found : s.clients r.client = some client) (session : client.sessionId ≠ -1)
    (known : r.status ∈ statuses) (first : ¬s.answered r.client) (canceled : Bool) :
    ∃ s', answer s client.sessionId r canceled = some s' ∧ Inv s' := by
  obtain ⟨s',does,leaves⟩ := refuseKeeps h found known first canceled
  exact ⟨s',by rw [answerRefuses found session,does],leaves.inv⟩

/- The file of a request is there. -/
theorem fileKeeps (client : HttpClient) (push : PushSession) {r : Request} (h : Inv s) (found : s.clients c = some client) (session : client.sessionId ≠ -1)
    (later : client.recvMsgOk = true) (listed : s.pushSessions client.sessionId = some push) (mine : push.client = c)
    (first : ¬s.answered c) (pushless : ∀ a agent, s.agents a = some agent → agent.pushSessionId ≠ client.sessionId)
    (jobless : ∀ j ∈ s.jobs, j.sessionId ≠ client.sessionId) (range : r.range = 200 ∨ r.range = 206) (file : FileInfo) (canceled : Bool) :
    ∃ s', handleFile s c client.sessionId r file canceled = some s' ∧ Inv s' := by
  subst mine
  have known : r.range ∈ statuses := by
    rcases range with same | same <;> rw [same] <;> decide
  have answers : ∀ (status : Nat) (beginPos endPos fileSize : Int), status ∈ statuses →
      ∃ s', answer s client.sessionId ⟨push.client,status,beginPos,endPos,fileSize⟩ canceled = some s' ∧ Inv s' :=
    fun status beginPos endPos fileSize known => answerKeeps (r := ⟨push.client,status,beginPos,endPos,fileSize⟩) h found session known first canceled
  unfold handleFile
  simp only
  generalize (if r.endPos = -1 then file.length - 1 else r.endPos) = endPos
  split
  · exact answers 304 _ _ _ (by decide)
  split
  · exact answers r.range _ _ _ known
  split
  · exact answers 501 _ _ _ (by decide)
  split
  · exact answers r.range _ _ _ known
  split
  · exact answers 503 _ _ _ (by decide)
  split
  · exact answers r.range _ _ _ known
  · have sent : responseToClient s ⟨push.client,r.range,r.beginPos,endPos,file.length⟩ =
        some { s with responses := ⟨push.client,r.range,r.beginPos,endPos,file.length⟩ :: s.responses } :=
      if_pos ⟨by rw [found]; rfl,known⟩
    have quiet : ∀ a agent push', s.agents a = some agent → agent.pullInfoOk = false →
        s.pushSessions agent.pushSessionId = some push' → push'.client ≠ push.client := by
      intro a agent push' here _ listed' shared
      obtain ⟨_,_,client',alive,same,_⟩ := h.sessions.owner _ push' listed'
      rw [shared,found] at alive
      cases alive
      exact pushless a agent here same.symm
    have responded := respondKeeps (r := ⟨push.client,r.range,r.beginPos,endPos,file.length⟩) h found later first quiet
    rw [sent,Option.map_some]
    refine ⟨_,rfl,?_⟩
    refine startKeeps responded listed jobless pushless fun psid => ?_
    split <;> exact nofun

theorem requestHandled {concurrency : Int} {r : Request} (h : Inv s) (found : s.clients c = some client)
    (before : client.recvMsgOk = false) (range : r.range ∈ ranges) (ids : IdsLast concurrency s r) (canceled : Bool) :
    ∃ s', handleRequest concurrency s c r canceled = some s' ∧ Inv s' := by
  have first := unanswered h found before
  unfold handleRequest
  by_cases full : concurrency < s.payload
  · rw [if_pos full]
    obtain ⟨s',does,leaves⟩ := refuseKeeps (r := ⟨c,503,0,0,0⟩) h found (by decide : 503 ∈ statuses) first canceled
    exact ⟨s',does,leaves.inv⟩
  · rw [if_neg full]
    by_cases other : r.range ≠ 200 ∧ r.range ≠ 206
    · rw [if_pos other]
      have known : r.range ∈ statuses := by
        have four : r.range = 200 ∨ r.range = 206 ∨ r.range = 416 ∨ r.range = 501 := by simpa [ranges] using range
        rcases four with same | same | same | same <;> rw [same] <;> decide
      obtain ⟨s',does,leaves⟩ := refuseKeeps (r := ⟨c,r.range,0,0,0⟩) (requestKeeps r.head h found before)
        (Function.update_self _ _ _) known first canceled
      exact ⟨s',does,leaves.inv⟩
    · rw [if_neg other]
      have ok : r.range = 200 ∨ r.range = 206 := by
        by_contra neither
        exact other (not_or.1 neither)
      have known : r.range ∈ statuses := by
        rcases ok with same | same <;> rw [same] <;> decide
      obtain ⟨last,pullLast⟩ := ids ⟨Int.not_lt.1 full,ok⟩
      have low := h.ids
      have new : s.pushSessions (s.pushIds + 2) = none := by
        cases there : s.pushSessions (s.pushIds + 2) with
        | none => rfl
        | some push =>
          have bound := (h.sessions.owner _ push there).2.1
          omega
      have kept : Inv (s.newSession c r.head ⟨c,r.url,r.beginPos,r.endPos⟩) := sessionKeeps h found before rfl
      have pushless : ∀ a agent, s.agents a = some agent → agent.pushSessionId ≠ s.pushIds + 2 := by
        intro a agent here
        have bound := (h.agents.old a agent here).2.2.1
        omega
      have jobless : ∀ j ∈ s.jobs, j.sessionId ≠ s.pushIds + 2 := by
        intro j mem
        have bound := (h.jobs.known j mem).2.1
        omega
      rw [if_neg (by rw [new]; simpa using last)]
      unfold State.newSession at kept
      simp only
      cases stored : s.files r.url with
      | none => exact pullFileKeeps kept (Function.update_self _ _ _) rfl pushless jobless first r.pull (pullLast stored) canceled
      | some file =>
        exact fileKeeps ⟨s.pushIds + 2,true,r.head⟩ ⟨c,r.url,r.beginPos,r.endPos⟩ kept (Function.update_self _ _ _)
          (by change s.pushIds + 2 ≠ -1; omega) rfl (Function.update_self _ _ _) rfl first pushless jobless ok file canceled

/- The response is sent before the client goes. -/
theorem refuseSent {r : Response} (found : s.clients r.client = some client) (known : r.status ∈ statuses) (canceled : Bool) :
    refuse s r canceled = destroyClient { s with responses := r :: s.responses } r.client canceled := by
  unfold refuse responseToClient
  rw [if_pos ⟨by rw [found]; rfl,known⟩]
  rfl

/- Only the agent of a session waits for its header. -/
theorem headedQuiet (queue : Str → Bool) (forgotten : List Str) (h : Inv s) (found : s.agents a = some agent)
    (listed : s.pushSessions agent.pushSessionId = some push) : ∀ b other push',
      (s.headed a agent queue forgotten).agents b = some other → other.pullInfoOk = false →
      s.pushSessions other.pushSessionId = some push' → push'.client ≠ push.client := by
  intro b other push' here before listed' shared
  rcases updateSome.1 here with ⟨_,rfl⟩ | ⟨off,here⟩
  · cases before
  · obtain ⟨_,_,client,alive,session,_⟩ := h.sessions.owner _ push listed
    obtain ⟨_,_,client',alive',session',_⟩ := h.sessions.owner _ push' listed'
    rw [shared,alive] at alive'
    cases alive'
    exact off (h.agents.push b a other agent here found (session'.symm.trans session))

theorem headerKeeps (h : Inv s) (found : s.agents a = some agent) (connected : agent.connectOk = true)
    (before : agent.pullInfoOk = false) (entityLength : Int) (sent canceled : Bool) :
    ∃ s', handlePullFileOk { s with agents := Function.update s.agents a (some { agent with pullInfoOk := true }) }
        agent.requestUrl agent.pushSessionId entityLength sent canceled = some s' ∧ Inv s' ∧
      s'.agents = Function.update s.agents a (some { agent with pullInfoOk := true }) ∧ s'.connecting = s.connecting := by
  unfold handlePullFileOk
  simp only
  generalize (s.files agent.requestUrl).getD ⟨entityLength,false⟩ = file
  cases listed : s.findPush agent.pushSessionId with
  | none =>
    have headed := headedKeeps h found connected before (.inr ⟨rfl,rfl⟩)
    unfold State.findPush at listed
    simp only [State.findPush,listed]
    exact ⟨_,rfl,filesKeeps headed _,rfl,rfl⟩
  | some push =>
    have there := (findPushSome h).1 listed
    obtain ⟨_,_,client,alive,_,later⟩ := h.sessions.owner _ push there
    have first := waitingQuiet h found before push there
    have queued : s.queue push.requestUrl = true := by
      rw [h.agents.url a agent push found there]
      exact (h.queue.queued _).2 (.inl ⟨a,agent,found,before,rfl⟩)
    have headed := headedKeeps h found connected before (.inl ⟨rfl,rfl⟩)
    rw [← h.agents.url a agent push found there] at headed
    have quiet := headedQuiet (Function.update s.queue push.requestUrl false) s.forgotten h found there
    unfold State.headed at headed quiet
    unfold State.findPush at listed
    simp only [State.findPush,listed,removeQueue,queued,if_true,Option.bind_some]
    have known : (if push.rangeBeginPos ≠ 0 ∨ push.rangeEndPos ≠ -1 then 206 else 200) ∈ statuses := by
      split <;> decide
    generalize (if push.rangeBeginPos ≠ 0 ∨ push.rangeEndPos ≠ -1 then 206 else 200) = status at known ⊢
    generalize (if push.rangeEndPos = -1 then file.length - 1 else push.rangeEndPos) = endPos
    rw [responseToClient,if_pos ⟨by rw [alive]; rfl,known⟩,Option.bind_some,alive,Option.bind_some]
    split
    · obtain ⟨s',does,leaves⟩ := refuseKeeps (r := ⟨push.client,status,push.rangeBeginPos,endPos,entityLength⟩) (filesKeeps headed _)
        alive known first canceled
      rw [refuseSent alive known] at does
      exact ⟨s',does,leaves.inv,leaves.agents,leaves.connecting⟩
    · split
      · obtain ⟨s',does,leaves⟩ := refuseKeeps (r := ⟨push.client,status,push.rangeBeginPos,endPos,entityLength⟩) (filesKeeps headed _)
          alive known first canceled
        rw [refuseSent alive known] at does
        exact ⟨s',does,leaves.inv,leaves.agents,leaves.connecting⟩
      · exact ⟨_,rfl,respondKeeps (r := ⟨push.client,status,push.rangeBeginPos,endPos,entityLength⟩) (filesKeeps headed _) alive later
          first quiet,rfl,rfl⟩

/- A transfer that is woken is a job's when the client of its agent is there. -/
def Attended (s : State) (agent : PullHttpAgent) (c : Content) : Prop :=
  agent.recvedFirstPackage = true → c.pipe = true → c.full = false → agent.suspend = true ∨ c.completed = true →
    (s.findPush agent.pushSessionId).isSome

theorem startsThere {t : Nat} (there : t ∈ s.jobs.map (·.transferAgent)) : s.startTransfer (some t) = some s := if_pos there

/- start_transfer only asks for the job. -/
theorem startsSame {s' : State} {t : Option Nat} (starts : s.startTransfer t = some s) (same : s'.jobs = s.jobs) :
    s'.startTransfer t = some s' := by
  unfold State.startTransfer at starts ⊢
  rw [same]
  obtain ⟨t,rfl,there⟩ := Option.bind_eq_some_iff.1 starts
  split at there
  · rename_i mem
    exact if_pos mem
  · cases there

theorem startsNone (s' : State) {t : Option Nat} (gone : s.startTransfer t = none) (same : s'.jobs = s.jobs) :
    s'.startTransfer t = none := by
  unfold State.startTransfer at gone ⊢
  rw [same]
  cases t with
  | none => rfl
  | some t =>
    rw [Option.bind_some] at gone ⊢
    split at gone
    · cases gone
    · rename_i absent
      exact if_neg absent

theorem transferThere (h : Inv s) (found : s.agents a = some agent) (later : agent.recvedFirstPackage = true)
    (session : (s.findPush agent.pushSessionId).isSome) : s.startTransfer agent.transferAgent = some s := by
  obtain ⟨push,listed⟩ := Option.isSome_iff_exists.1 session
  have isSome_ : (s.pushSessions agent.pushSessionId).isSome := by
    rw [(findPushSome h).1 listed]
    rfl
  obtain ⟨j,mem,same⟩ := (h.agents.later a agent found later).there isSome_
  rw [same]
  exact startsThere (List.mem_map.2 ⟨j,mem,rfl⟩)

theorem transferGone (h : Inv s) (found : s.agents a = some agent) (later : agent.recvedFirstPackage = true)
    (gone : s.findPush agent.pushSessionId = none) : s.startTransfer agent.transferAgent = none := by
  cases transfer : agent.transferAgent with
  | none => rfl
  | some t =>
    refine if_neg fun listed => ?_
    obtain ⟨j,mem,rfl⟩ := List.mem_map.1 listed
    obtain ⟨session,pulls⟩ := (h.agents.later a agent found later).mine j mem transfer
    obtain ⟨push,listed,_⟩ := h.jobs.attended j mem (h.jobs.pulls j mem _ pulls)
    rw [session] at listed
    rw [(findPushSome h).2 listed] at gone
    cases gone

theorem tailKeeps {content : Content} (h : Inv s) (found : s.agents a = some agent) (free : a ∉ s.connecting)
    (starts : content.completed = true → s.startTransfer agent.transferAgent = some s) (canceled : Bool) :
    ∃ s', contentTail s a agent content canceled = some s' ∧ Inv s' := by
  unfold contentTail
  cases done : content.completed with
  | false => exact ⟨s,rfl,h⟩
  | true =>
    rw [if_pos rfl,starts done,Option.bind_some]
    exact closeKeeps h found free canceled

theorem contentKeeps {content : Content} (h : Inv s) (found : s.agents a = some agent) (info : agent.pullInfoOk = true)
    (attended : Attended s agent content) (canceled : Bool) : ∃ s', handleContent s a content canceled = some s' ∧ Inv s' := by
  have connected := (h.agents.old a agent found).2.2.2.2 info
  have free := unconnected h found connected
  have closes := closeKeeps h found free canceled
  unfold handleContent
  rw [found,Option.bind_some]
  by_cases pipe : content.pipe
  · rw [if_neg (not_not.2 pipe)]
    by_cases stuck : content.full ∧ ((s.findPush agent.pushSessionId).isNone ∨ ¬content.suspends)
    · rw [if_pos stuck]
      exact closes
    · rw [if_neg stuck]
      simp only
      have attended' : content.full = true → (s.findPush agent.pushSessionId).isSome := by
        intro full
        cases listed : s.findPush agent.pushSessionId with
        | none => exact absurd ⟨full,.inl (by rw [listed]; rfl)⟩ stuck
        | some push => rfl
      -- the agent with the flags of a full pipe buffer
      obtain ⟨agent₁,shape,flags,rest⟩ : ∃ agent₁, (if content.full = true then { agent with suspend := true, suspended := true }
          else agent) = agent₁ ∧ Flags agent agent₁ ∧ agent₁.connectOk = agent.connectOk ∧ agent₁.pullInfoOk = agent.pullInfoOk ∧
            (agent₁.suspend = true → content.full = true ∨ agent.suspend = true) := by
        cases content.full with
        | true => exact ⟨_,rfl,⟨rfl,rfl,rfl,rfl,rfl,id,id,fun _ => connected⟩,rfl,rfl,fun _ => .inl rfl⟩
        | false => exact ⟨_,rfl,⟨rfl,rfl,rfl,rfl,rfl,id,id,fun _ => connected⟩,rfl,rfl,.inr⟩
      obtain ⟨connect₁,info₁,suspend₁⟩ := rest
      rw [shape]
      cases first : agent.recvedFirstPackage with
      | false =>
        have push₁ : s.findPush agent₁.pushSessionId = s.findPush agent.pushSessionId := by rw [flags.push]
        rw [if_pos (by rw [flags.first,first]; decide),push₁]
        cases listed : s.findPush agent.pushSessionId with
        | none => exact closes
        | some push =>
          have there := (findPushSome h).1 listed
          simp only
          by_cases opens : content.opens
          · rw [if_neg (not_not.2 opens)]
            have began : Began s agent { agent₁ with recvedFirstPackage := true, transferAgent := some s.made } :=
              ⟨flags.pull,flags.url,flags.push,rfl,rfl,connect₁,info₁⟩
            have kept := beganKeeps h found began info first free there
            refine tailKeeps kept (Function.update_self _ _ _) free (fun _ => startsThere ?_) canceled
            exact List.mem_map.2 ⟨_,List.mem_append_right _ (List.mem_singleton_self _),rfl⟩
          · rw [if_pos opens]
            exact closes
      | true =>
        rw [if_neg (by rw [flags.first,first]; decide)]
        have starts : agent₁.suspend = true ∨ content.completed = true → s.startTransfer agent₁.transferAgent = some s := by
          intro why
          rw [flags.transfer]
          refine transferThere h found first ?_
          cases full : content.full with
          | true => exact attended' full
          | false =>
            refine attended first pipe full (why.imp_left fun suspend => ?_)
            exact (suspend₁ suspend).resolve_left (by rw [full]; exact Bool.false_ne_true)
        cases suspend : agent₁.suspend with
        | true =>
          rw [if_pos rfl,starts (.inl suspend),Option.bind_some]
          have flags' : Flags agent { agent₁ with suspend := false } :=
            ⟨flags.pull,flags.url,flags.push,flags.first,flags.transfer,flags.connect,flags.info,flags.both⟩
          refine tailKeeps (flagKeeps h found flags' (.inl free) info₁) (Function.update_self _ _ _) free (fun _ => ?_) canceled
          exact startsSame (starts (.inl suspend)) rfl
        | false =>
          rw [if_neg (by decide)]
          refine tailKeeps (flagKeeps h found flags (.inl free) info₁) (Function.update_self _ _ _) free (fun done => ?_) canceled
          exact startsSame (starts (.inr done)) rfl
  · rw [if_pos pipe]
    exact closes

/- The client has left, and the agent starts its transfer none the less. -/
theorem contentGone {content : Content} (h : Inv s) (found : s.agents a = some agent) (gone : ¬Attended s agent content)
    (canceled : Bool) : handleContent s a content canceled = none := by
  simp only [Attended,Classical.not_imp] at gone
  obtain ⟨first,pipe,full,why,none_⟩ := gone
  have listed : s.findPush agent.pushSessionId = none := by
    cases there : s.findPush agent.pushSessionId with
    | none => rfl
    | some push => exact absurd (by rw [there]; rfl) none_
  have transfer := transferGone h found first listed
  unfold handleContent
  rw [found,Option.bind_some,if_neg (not_not.2 pipe),if_neg (by rw [full]; exact fun both => Bool.false_ne_true both.1)]
  simp only [full,Bool.false_eq_true,if_false,first,not_true_eq_false]
  cases suspend : agent.suspend with
  | true =>
    rw [if_pos rfl,transfer]
    rfl
  | false =>
    have done := why.resolve_left (by rw [suspend]; exact Bool.false_ne_true)
    rw [if_neg (by decide)]
    unfold contentTail
    rw [if_pos done,startsNone { s with agents := Function.update s.agents a (some agent) } transfer rfl]
    rfl

theorem responseKeeps {r : Reply} (h : Inv s) (found : s.agents a = some agent) (connected : agent.connectOk = true)
    (before : agent.pullInfoOk = false) (canceled : Bool) : ∃ s', handleResponse s a r canceled = some s' ∧ Inv s' := by
  have free := unconnected h found connected
  unfold handleResponse
  rw [found,Option.bind_some]
  cases r with
  | uncompleted => exact ⟨s,rfl,h⟩
  | invalid => exact closeKeeps h found free canceled
  | ok entityLength contentLength sent file attached =>
    obtain ⟨s₁,does,kept,agents,connecting⟩ := headerKeeps h found connected before entityLength sent canceled
    have found₁ : s₁.agents a = some { agent with pullInfoOk := true } := by rw [agents,Function.update_self]
    have free₁ : a ∉ s₁.connecting := by rw [connecting]; exact free
    have closes := closeKeeps kept found₁ free₁ canceled
    simp only [does,Option.bind_some]
    by_cases empty : contentLength = 0
    · rw [if_pos empty]
      exact closes
    · rw [if_neg empty]
      cases file with
      | failed => exact closes
      | noEntry => exact closeKeeps (filesKeeps kept (Function.update s₁.files agent.requestUrl none)) found₁ free₁ canceled
      | ok =>
        cases attached with
        | none => exact ⟨s₁,rfl,kept⟩
        | some content =>
          refine contentKeeps kept found₁ rfl (fun later => ?_) canceled
          have info := (h.agents.later a agent found later).info
          rw [before] at info
          cases info

/- A notification of a session that is gone does nothing. -/
theorem msgKeeps {e : NotifyEvent} {notices : List NotifyEvent} (h : Inv s) (split : s.notices = e :: notices) (canceled : Bool) :
    ∃ s', handleMsg { s with notices := notices } e canceled = some s' ∧ Inv s' := by
  have popped : Inv { s with notices := notices } := noticesKeeps h fun psid wakes =>
    wakes.imp_right fun mem => by rw [split]; exact List.mem_cons_of_mem _ mem
  unfold handleMsg
  cases e with
  | deleteClient sid =>
    simp only
    cases listed : State.findPush { s with notices := notices } sid with
    | none => exact ⟨_,rfl,popped⟩
    | some push =>
      obtain ⟨_,_,client,alive,_⟩ := popped.sessions.owner sid push ((findPushSome popped).1 listed)
      obtain ⟨s',does,leaves⟩ := destroyKeeps popped alive canceled
      exact ⟨s',does,leaves.inv⟩
  | resumeHandle sid =>
    simp only
    cases listed : State.findPull { s with notices := notices } sid with
    | none => exact ⟨_,rfl,popped⟩
    | some pull =>
      have there : s.pullSessions sid = some pull := by
        unfold State.findPull at listed
        split at listed
        · cases listed
        · exact listed
      have written := (h.pulls.written sid (.inr (by rw [split]; exact List.mem_cons_self))).2 pull there
      obtain ⟨pulling,wrote⟩ := Option.ne_none_iff_exists'.1 written
      simp only [wrote,Option.bind_some]
      cases pulling with
      | none => exact ⟨_,rfl,popped⟩
      | some b =>
        obtain ⟨agent,found⟩ := Option.isSome_iff_exists.1 (h.pulls.agent sid pull b there wrote)
        simp only [found,Option.map_some]
        refine ⟨_,rfl,flagKeeps popped found ⟨rfl,rfl,rfl,rfl,rfl,id,id,(h.agents.old b agent found).2.2.2.2⟩ (.inr rfl) rfl⟩

end Handlers

/- What a step asks for: ids last, and an agent that is woken or done still has its client. -/
def Safe (concurrency : Int) (s : State) : Act → Prop
  | .request _ r _ => IdsLast concurrency s r
  | .content a content _ => ∀ agent ∈ s.agents a, Attended s agent content
  | _ => True

def Fine (concurrency : Int) (o : Option State) (act : Act) : Prop := ∀ s ∈ o, Safe concurrency s act

def Good (o : Option State) : Prop := ∃ s, o = some s ∧ Inv s

section Steps
variable {s : State} {concurrency : Int}

theorem idleInv : Inv idle where
  sessions := by constructor <;> simp [idle]
  jobs := by constructor <;> simp [idle]
  agents := by constructor <;> simp [idle]
  queue := by constructor <;> simp [idle,Waits]
  pulls := by constructor <;> simp [idle,Wakes]
  responses := by constructor <;> simp [idle]
  payload := rfl
  ids := ⟨by decide,by decide⟩

/- The steps of the dispatching thread. -/
theorem dispatchKeeps {itor : Nat} {j : DispatchJob} {act : Act} {o : Option State} (h : Inv s) (found : s.jobs[itor]? = some j)
    (does : dispatch s itor j act = some o) : Good o := by
  have mem : j ∈ s.jobs := List.mem_of_getElem? found
  have client : ¬(j.closePending ∨ j.stopped) → ∃ client, s.clients j.client = some client := by
    intro open_
    have served : j.served = true := by
      unfold DispatchJob.served
      cases closing : j.closePending with
      | true => exact absurd (.inl closing) open_
      | false => rfl
    obtain ⟨push,listed,same⟩ := h.jobs.attended j mem served
    obtain ⟨_,_,client,alive,_⟩ := h.sessions.owner _ push listed
    exact ⟨client,by rw [← same,alive]⟩
  unfold dispatch at does
  cases act with
  | reap _ =>
    simp only at does
    split at does
    · rename_i closing
      cases does
      exact ⟨_,rfl,reapKeeps h found closing⟩
    · cases does
  | stop _ notified =>
    simp only at does
    split at does
    · cases does
    · rename_i open_
      obtain ⟨client,alive⟩ := client open_
      rw [alive,Option.map_some] at does
      cases does
      refine ⟨_,rfl,?_⟩
      have stopped := stopKeeps h found
      cases notified with
      | false => exact stopped
      | true =>
        refine noticesKeeps stopped fun psid wakes => wakes.imp_right fun mem => ?_
        rcases List.mem_append.1 mem with mem | mem
        · exact mem
        · cases List.mem_singleton.1 mem
  | wake _ =>
    simp only at does
    split at does
    · cases does
    · rename_i open_
      obtain ⟨client,alive⟩ := client open_
      split at does
      · rename_i psid pulls
        rw [alive,Option.map_some] at does
        cases does
        refine ⟨_,rfl,noticesKeeps h fun psid' wakes => ?_⟩
        rcases wakes with jobs | notice
        · exact .inl jobs
        · rcases List.mem_append.1 notice with mem' | mem'
          · exact .inr mem'
          · cases List.mem_singleton.1 mem'
            exact .inl ⟨j,mem,pulls⟩
      · cases does
  | _ => cases does

theorem stepKeeps {act : Act} {o : Option State} (h : Inv s) (fine : Fine concurrency (some s) act)
    (does : step concurrency (some s) act = some o) : Good o := by
  have fine := fine s rfl
  rw [step,Option.bind_some] at does
  cases act with
  | accept =>
    cases does
    exact ⟨_,rfl,acceptKeeps h⟩
  | refuse c status =>
    obtain ⟨client,found,does⟩ := Option.bind_eq_some_iff.1 does
    split at does
    · rename_i both
      have known : status ∈ statuses := by
        have four : status = 400 ∨ status = 408 ∨ status = 413 ∨ status = 501 := by simpa using both.2
        rcases four with rfl | rfl | rfl | rfl <;> decide
      obtain ⟨s',refuses,leaves⟩ := refuseKeeps (r := ⟨c,status,0,0,0⟩) h found known (unanswered h found both.1) true
      rw [refuses] at does
      cases does
      exact ⟨s',rfl,leaves.inv⟩
    · cases does
  | leave c canceled =>
    obtain ⟨client,found,does⟩ := Option.map_eq_some_iff.1 does
    obtain ⟨s',destroys,leaves⟩ := destroyKeeps h found canceled
    exact ⟨s',by rw [← does,destroys],leaves.inv⟩
  | request c r canceled =>
    obtain ⟨client,found,does⟩ := Option.bind_eq_some_iff.1 does
    split at does
    · rename_i both
      obtain ⟨s',handles,kept⟩ := requestHandled h found both.1 both.2 fine canceled
      rw [handles] at does
      cases does
      exact ⟨s',rfl,kept⟩
    · cases does
  | connected a opens canceled =>
    simp only at does
    split at does
    · rename_i mem
      obtain ⟨agent,found,unopened⟩ := h.agents.connecting a mem
      have free : a ∉ s.connecting.erase a := h.agents.once.not_mem_erase
      have kept := connectDone h a
      cases opens with
      | true =>
        simp only [if_true,found,Option.map_some] at does
        cases does
        refine ⟨_,rfl,flagKeeps kept found ⟨rfl,rfl,rfl,rfl,rfl,fun _ => rfl,id,fun _ => rfl⟩ (.inl free) rfl⟩
      | false =>
        obtain ⟨s',closes,kept⟩ := closeKeeps kept found free canceled
        simp only [Bool.false_eq_true,if_false,closes] at does
        cases does
        exact ⟨s',rfl,kept⟩
    · cases does
  | connectTimeout a =>
    simp only at does
    split at does
    · cases does
      exact ⟨_,rfl,connectDone h a⟩
    · cases does
  | connectFails a canceled =>
    simp only at does
    split at does
    · rename_i mem
      obtain ⟨agent,found,_⟩ := h.agents.connecting a mem
      obtain ⟨s',closes,kept⟩ := closeKeeps (connectDone h a) found h.agents.once.not_mem_erase canceled
      rw [closes] at does
      cases does
      exact ⟨s',rfl,kept⟩
    · cases does
  | response a r canceled =>
    obtain ⟨agent,found,does⟩ := Option.bind_eq_some_iff.1 does
    split at does
    · rename_i both
      obtain ⟨s',handles,kept⟩ := responseKeeps (r := r) h found both.1 (by simpa using both.2) canceled
      rw [handles] at does
      cases does
      exact ⟨s',rfl,kept⟩
    · cases does
  | content a content canceled =>
    obtain ⟨agent,found,does⟩ := Option.bind_eq_some_iff.1 does
    split at does
    · rename_i both
      obtain ⟨s',handles,kept⟩ := contentKeeps h found both.1 (fine agent found) canceled
      rw [handles] at does
      cases does
      exact ⟨s',rfl,kept⟩
    · cases does
  | closed a canceled =>
    obtain ⟨agent,found,does⟩ := Option.bind_eq_some_iff.1 does
    split at does
    · rename_i connected
      obtain ⟨s',closes,kept⟩ := closeKeeps h found (unconnected h found connected) canceled
      rw [closes] at does
      cases does
      exact ⟨s',rfl,kept⟩
    · cases does
  | complete url =>
    obtain ⟨file,_,rfl⟩ := Option.map_eq_some_iff.1 does
    exact ⟨_,rfl,filesKeeps h _⟩
  | notice canceled =>
    simp only at does
    split at does
    · cases does
    · rename_i e notices split_
      obtain ⟨s',handles,kept⟩ := msgKeeps h split_ canceled
      rw [handles] at does
      cases does
      exact ⟨s',rfl,kept⟩
  | stop itor notified =>
    obtain ⟨j,found,does⟩ := Option.bind_eq_some_iff.1 does
    exact dispatchKeeps h found does
  | wake itor =>
    obtain ⟨j,found,does⟩ := Option.bind_eq_some_iff.1 does
    exact dispatchKeeps h found does
  | reap itor =>
    obtain ⟨j,found,does⟩ := Option.bind_eq_some_iff.1 does
    exact dispatchKeeps h found does

theorem requestOverflows {c : Nat} {r : Request} (beyond : ¬IdsLast concurrency s r) (canceled : Bool) :
    handleRequest concurrency s c r canceled = none := by
  simp only [IdsLast,Classical.not_imp] at beyond
  obtain ⟨⟨room,range⟩,beyond⟩ := beyond
  unfold handleRequest
  rw [if_neg (Int.not_lt.2 room),if_neg (by rcases range with same | same <;> simp [same])]
  simp only
  by_cases high : intMax < s.pushIds + 2 ∨ (s.pushSessions (s.pushIds + 2)).isSome
  · rw [if_pos high]
  · rw [if_neg high]
    have last : s.pushIds + 2 ≤ intMax := Int.not_lt.1 fun here => high (.inl here)
    have pull : ¬(s.files r.url = none → r.pull.host = true → s.pullIds + 2 ≤ intMax) := fun pull => beyond ⟨last,pull⟩
    simp only [Classical.not_imp] at pull
    obtain ⟨missing,host,pullHigh⟩ := pull
    rw [missing]
    simp only
    unfold handlePullFile
    rw [if_neg (by rw [host]; decide),if_pos (.inl (Int.not_le.1 pullHigh))]

theorem stepBreaks {act : Act} {o : Option State} (h : Inv s) (bad : ¬Fine concurrency (some s) act)
    (does : step concurrency (some s) act = some o) : o = none := by
  have bad : ¬Safe concurrency s act := fun safe => bad fun s' here => Option.mem_some_iff.1 here ▸ safe
  rw [step,Option.bind_some] at does
  cases act with
  | request c r canceled =>
    obtain ⟨client,found,does⟩ := Option.bind_eq_some_iff.1 does
    split at does
    · cases does
      exact requestOverflows bad canceled
    · cases does
  | content a content canceled =>
    obtain ⟨agent,found,does⟩ := Option.bind_eq_some_iff.1 does
    split at does
    · cases does
      refine contentGone h found (fun attended => bad fun agent' found' => ?_) canceled
      rw [Option.mem_def,found] at found'
      cases found'
      exact attended
    · cases does
  | _ => exact absurd trivial bad

/- In every state a run comes to. -/
theorem reachesInv (concurrency : Int) (acts : List Act) :
    Always (step concurrency) (fun o => ∀ s ∈ o, Inv s) (some idle) acts := by
  refine alwaysInvariant (fun o act o' kept does => ?_) (fun s here => Option.mem_some_iff.1 here ▸ idleInv) acts
  intro s' here
  cases o with
  | none => cases does
  | some s =>
    have h := kept s rfl
    by_cases fine : Fine concurrency (some s) act
    · obtain ⟨s'',rfl,good⟩ := stepKeeps h fine does
      cases Option.mem_some_iff.1 here
      exact good
    · rw [stepBreaks h fine does] at here
      cases here

end Steps

/- A client is sent one response header at most, whoever sends it. -/
theorem respondedOnce (concurrency : Int) (acts : List Act) :
    Always (step concurrency) (fun o => ∀ s ∈ o, (s.responses.map (·.client)).Nodup) (some idle) acts :=
  Lib.alwaysMono (fun _ kept s here => (kept s here).responses.once) (reachesInv concurrency acts)

/- A url is in the queue while one agent waits for its header, and for good when the header comes and
the client has left. -/
theorem queuedExactly (concurrency : Int) (acts : List Act) :
    Always (step concurrency) (fun o => ∀ s ∈ o, ∀ url,
      (s.queue url = true ↔ (∃ a, Waits s.agents url a) ∨ url ∈ s.forgotten) ∧
        ∀ a b, Waits s.agents url a → Waits s.agents url b → a = b) (some idle) acts :=
  Lib.alwaysMono (fun _ kept s here url => ⟨(kept s here).queue.queued url,(kept s here).queue.single url⟩)
    (reachesInv concurrency acts)

/- g_payload is less than the number of clients that are served, by one for each client that left with a
session and without a job. -/
theorem payloadFalls (concurrency : Int) (acts : List Act) :
    Always (step concurrency) (fun o => ∀ s ∈ o, s.payload = s.jobs.countP DispatchJob.served - s.missed) (some idle) acts := by
  refine Lib.alwaysMono (fun _ kept s here => ?_) (reachesInv concurrency acts)
  have counted := (kept s here).payload
  omega

end CuteNdk.PullSessions
