import CuteNdk.Lib.Partial
import CuteNdk.PullSessions
import Mathlib.Data.List.Nodup
import Mathlib.Data.List.Count

/-! What the sessions of fcache keep: a session has a living client, a job that is not to be closed
has a session, and a url is in the queue while an agent waits for its header. -/
namespace CuteNdk.PullSessions
open Lib.CString
open Lib (updateSome updateNone)

/- A session is its client's, and a client with a session is in the list. -/
structure SessionsOk (made : Nat) (clients : Nat → Option HttpClient) (pushIds : Int)
    (pushSessions : Int → Option PushSession) : Prop where
  old : ∀ c client, clients c = some client → c < made
  owned : ∀ c client, clients c = some client → client.sessionId ≠ -1 →
    ∃ push, pushSessions client.sessionId = some push ∧ push.client = c
  owner : ∀ sid push, pushSessions sid = some push → 0 < sid ∧ sid ≤ pushIds ∧
    ∃ client, clients push.client = some client ∧ client.sessionId = sid ∧ client.recvMsgOk = true

def DispatchJob.served (j : DispatchJob) : Bool := !j.closePending

structure JobsOk (made : Nat) (pushIds : Int) (pushSessions : Int → Option PushSession) (jobs : List DispatchJob) : Prop where
  ids : (jobs.map (·.sessionId)).Nodup
  known : ∀ j ∈ jobs, 0 < j.sessionId ∧ j.sessionId ≤ pushIds ∧ j.transferAgent < made
  attended : ∀ j ∈ jobs, j.served = true → ∃ push, pushSessions j.sessionId = some push ∧ push.client = j.client
  closing : ∀ j ∈ jobs, j.served = false → pushSessions j.sessionId = none
  pulls : ∀ j ∈ jobs, ∀ psid, j.agent = .pullFile psid → j.served = true

/- The transfer of an agent is its session's, and is there as long as that is. -/
structure Transfers (a : Nat) (agent : PullHttpAgent) (pushSessions : Int → Option PushSession) (jobs : List DispatchJob) : Prop where
  info : agent.pullInfoOk = true
  mine : ∀ j ∈ jobs, agent.transferAgent = some j.transferAgent → j.sessionId = agent.pushSessionId ∧ j.agent = .pullFile agent.pullSessionId
  there : (pushSessions agent.pushSessionId).isSome → ∃ j ∈ jobs, agent.transferAgent = some j.transferAgent

structure AgentsOk (made : Nat) (pushIds pullIds : Int) (pushSessions : Int → Option PushSession)
    (agents : Nat → Option PullHttpAgent) (connecting : List Nat) (jobs : List DispatchJob) : Prop where
  old : ∀ a agent, agents a = some agent → a < made ∧ 0 < agent.pushSessionId ∧ agent.pushSessionId ≤ pushIds ∧
    agent.pullSessionId ≤ pullIds ∧ (agent.pullInfoOk = true → agent.connectOk = true)
  push : ∀ a b agent agent', agents a = some agent → agents b = some agent' →
    agent.pushSessionId = agent'.pushSessionId → a = b
  pull : ∀ a b agent agent', agents a = some agent → agents b = some agent' →
    agent.pullSessionId = agent'.pullSessionId → a = b
  made : ∀ a agent t, agents a = some agent → agent.transferAgent = some t → t < made
  url : ∀ a agent push, agents a = some agent → pushSessions agent.pushSessionId = some push →
    push.requestUrl = agent.requestUrl
  first : ∀ a agent, agents a = some agent → agent.recvedFirstPackage = false → ∀ j ∈ jobs, j.sessionId ≠ agent.pushSessionId
  later : ∀ a agent, agents a = some agent → agent.recvedFirstPackage = true → Transfers a agent pushSessions jobs
  once : connecting.Nodup
  connecting : ∀ a ∈ connecting, ∃ agent, agents a = some agent ∧ agent.connectOk = false

/- An agent whose header has not come. -/
def Waits (agents : Nat → Option PullHttpAgent) (url : Str) (a : Nat) : Prop :=
  ∃ agent, agents a = some agent ∧ agent.pullInfoOk = false ∧ agent.requestUrl = url

structure QueueOk (queue : Str → Bool) (agents : Nat → Option PullHttpAgent) (forgotten : List Str) : Prop where
  queued : ∀ url, queue url = true ↔ (∃ a, Waits agents url a) ∨ url ∈ forgotten
  single : ∀ url a b, Waits agents url a → Waits agents url b → a = b
  other : ∀ url a, Waits agents url a → url ∉ forgotten

/- Somebody is to resume the agent of a pull session. -/
def Wakes (jobs : List DispatchJob) (notices : List NotifyEvent) (psid : Int) : Prop :=
  (∃ j ∈ jobs, j.agent = .pullFile psid) ∨ .resumeHandle psid ∈ notices

structure PullsOk (pullIds : Int) (pullSessions : Int → Option PullSession) (agents : Nat → Option PullHttpAgent)
    (jobs : List DispatchJob) (notices : List NotifyEvent) : Prop where
  old : ∀ psid pull, pullSessions psid = some pull → psid ≤ pullIds
  agent : ∀ psid pull a, pullSessions psid = some pull → pull.pullAgent = some (some a) → (agents a).isSome
  written : ∀ psid, Wakes jobs notices psid → psid ≤ pullIds ∧ ∀ pull, pullSessions psid = some pull → pull.pullAgent ≠ none
  mine : ∀ a agent psid pull, agents a = some agent → pullSessions psid = some pull → pull.pullAgent = some (some a) →
    psid = agent.pullSessionId

structure ResponsesOk (made : Nat) (clients : Nat → Option HttpClient) (pushSessions : Int → Option PushSession)
    (agents : Nat → Option PullHttpAgent) (responses : List Response) : Prop where
  once : (responses.map (·.client)).Nodup
  old : ∀ r ∈ responses, r.client < made
  fresh : ∀ c client, clients c = some client → client.recvMsgOk = false → ∀ r ∈ responses, r.client ≠ c
  waiting : ∀ a agent push, agents a = some agent → agent.pullInfoOk = false →
    pushSessions agent.pushSessionId = some push → ∀ r ∈ responses, r.client ≠ push.client

structure Inv (s : State) : Prop where
  sessions : SessionsOk s.made s.clients s.pushIds s.pushSessions
  jobs : JobsOk s.made s.pushIds s.pushSessions s.jobs
  agents : AgentsOk s.made s.pushIds s.pullIds s.pushSessions s.agents s.connecting s.jobs
  queue : QueueOk s.queue s.agents s.forgotten
  pulls : PullsOk s.pullIds s.pullSessions s.agents s.jobs s.notices
  responses : ResponsesOk s.made s.clients s.pushSessions s.agents s.responses
  payload : s.payload + s.missed = s.jobs.countP DispatchJob.served
  ids : 0 ≤ s.pushIds ∧ 0 ≤ s.pullIds

/- What delete_client leaves of the jobs: that of the session is gone, or waits to be closed. -/
structure Dropped (sid : Int) (jobs jobs' : List DispatchJob) : Prop where
  kept : ∀ j ∈ jobs, j.sessionId ≠ sid → j ∈ jobs'
  from_ : ∀ j ∈ jobs', (j ∈ jobs ∧ j.sessionId ≠ sid) ∨
    (j.sessionId = sid ∧ j.served = false ∧ j.agent = .serialFile ∧ ∃ i ∈ jobs, i.sessionId = j.sessionId ∧ i.transferAgent = j.transferAgent ∧
      i.agent = .serialFile)
  ids : (jobs'.map (·.sessionId)).Sublist (jobs.map (·.sessionId))

section Jobs
variable {made : Nat} {pushIds sid : Int} {pushSessions : Int → Option PushSession} {jobs jobs' : List DispatchJob}

/- The jobs around the one that is found. -/
theorem findSplit {itor : Nat} {j : DispatchJob} (found : jobs[itor]? = some j) :
    ∃ front back, jobs = front ++ j :: back ∧ jobs.eraseIdx itor = front ++ back ∧ ∀ j', jobs.set itor j' = front ++ j' :: back := by
  obtain ⟨inside,rfl⟩ := List.getElem?_eq_some_iff.1 found
  refine ⟨jobs.take itor,jobs.drop (itor + 1),?_,List.eraseIdx_eq_take_drop_succ jobs itor,fun j' => ?_⟩
  · rw [List.getElem_cons_drop,List.take_append_drop]
  · rw [List.set_eq_take_append_cons_drop,if_pos inside]

theorem idsSplit {front back : List DispatchJob} {j : DispatchJob} (ids : ((front ++ j :: back).map (·.sessionId)).Nodup) :
    ∀ i ∈ front ++ back, i.sessionId ≠ j.sessionId := by
  rw [List.map_append,List.map_cons,List.nodup_middle,List.nodup_cons,← List.map_append] at ids
  exact fun i mem same => ids.1 (List.mem_map.2 ⟨i,mem,same⟩)

theorem droppedNone (none_ : ∀ j ∈ jobs, j.sessionId ≠ sid) : Dropped sid jobs jobs :=
  ⟨fun _ mem _ => mem,fun j mem => .inl ⟨mem,none_ j mem⟩,List.Sublist.refl _⟩

theorem droppedErase {front back : List DispatchJob} {j : DispatchJob} (split : jobs = front ++ j :: back)
    (ids : (jobs.map (·.sessionId)).Nodup) : Dropped j.sessionId jobs (front ++ back) := by
  subst split
  refine ⟨fun i mem other => ?_,fun i mem => .inl ⟨?_,idsSplit ids i mem⟩,?_⟩
  · rcases List.mem_append.1 mem with mem | mem
    · exact List.mem_append_left _ mem
    · rcases List.mem_cons.1 mem with rfl | mem
      · exact absurd rfl other
      · exact List.mem_append_right _ mem
  · rcases List.mem_append.1 mem with mem | mem
    · exact List.mem_append_left _ mem
    · exact List.mem_append_right _ (List.mem_cons_of_mem _ mem)
  · rw [List.map_append,List.map_append]
    exact (List.Sublist.refl _).append (List.sublist_cons_self _ _)

theorem droppedPending {front back : List DispatchJob} {j : DispatchJob} (split : jobs = front ++ j :: back)
    (ids : (jobs.map (·.sessionId)).Nodup) (serial : j.agent = .serialFile) :
    Dropped j.sessionId jobs (front ++ { j with closePending := true } :: back) := by
  have erased := droppedErase split ids
  subst split
  refine ⟨fun i mem other => ?_,fun i mem => ?_,?_⟩
  · rcases List.mem_append.1 (erased.kept i mem other) with mem | mem
    · exact List.mem_append_left _ mem
    · exact List.mem_append_right _ (List.mem_cons_of_mem _ mem)
  · by_cases marked : i = { j with closePending := true }
    · subst marked
      exact .inr ⟨rfl,rfl,serial,j,by simp,rfl,rfl,serial⟩
    · refine erased.from_ i ?_
      rcases List.mem_append.1 mem with mem | mem
      · exact List.mem_append_left _ mem
      · exact List.mem_append_right _ ((List.mem_cons.1 mem).resolve_left marked)
  · rw [List.map_append,List.map_append]
    exact List.Sublist.refl _

theorem jobsDropped (h : JobsOk made pushIds pushSessions jobs) (dropped : Dropped sid jobs jobs') :
    JobsOk made pushIds (Function.update pushSessions sid none) jobs' := by
  refine ⟨dropped.ids.nodup h.ids,fun j mem => ?_,fun j mem served => ?_,fun j mem closing => ?_,fun j mem psid pulls => ?_⟩
  · rcases dropped.from_ j mem with ⟨mem,_⟩ | ⟨_,_,_,i,mem,id,transfer,_⟩
    · exact h.known j mem
    · rw [← id,← transfer]
      exact h.known i mem
  · rcases dropped.from_ j mem with ⟨mem,other⟩ | ⟨_,pending,_⟩
    · rw [Function.update_of_ne other]
      exact h.attended j mem served
    · rw [pending] at served
      cases served
  · rcases dropped.from_ j mem with ⟨mem,other⟩ | ⟨here,_⟩
    · rw [Function.update_of_ne other]
      exact h.closing j mem closing
    · rw [here,Function.update_self]
  · rcases dropped.from_ j mem with ⟨mem,_⟩ | ⟨_,_,serial,_⟩
    · exact h.pulls j mem psid pulls
    · rw [serial] at pulls
      cases pulls

end Jobs

section Leaving
variable {s : State} {c : Nat} {client : HttpClient} {jobs : List DispatchJob} {sid : Int}

theorem sessionsLeft (h : SessionsOk s.made s.clients s.pushIds s.pushSessions) (found : s.clients c = some client) :
    SessionsOk s.made (Function.update s.clients c none) s.pushIds (Function.update s.pushSessions client.sessionId none) := by
  refine ⟨fun d dl here => h.old d dl (updateNone.1 here).2,fun d dl here session => ?_,fun sid push here => ?_⟩
  · obtain ⟨other,here⟩ := updateNone.1 here
    obtain ⟨push,mine,same⟩ := h.owned d dl here session
    refine ⟨push,updateNone.2 ⟨?_,mine⟩,same⟩
    intro shared
    by_cases none_ : client.sessionId = -1
    · exact session (shared.trans none_)
    · obtain ⟨push',mine',same'⟩ := h.owned c client found none_
      rw [← shared,mine] at mine'
      cases mine'
      exact other (same.symm.trans same')
  · obtain ⟨other,here⟩ := updateNone.1 here
    obtain ⟨positive,bound,dl,alive,session,ok⟩ := h.owner sid push here
    refine ⟨positive,bound,dl,updateNone.2 ⟨?_,alive⟩,session,ok⟩
    intro same
    rw [same,found] at alive
    cases alive
    exact other session.symm

theorem agentsDropped {agents : Nat → Option PullHttpAgent} {connecting : List Nat}
    (h : AgentsOk s.made s.pushIds s.pullIds s.pushSessions agents connecting s.jobs) (dropped : Dropped sid s.jobs jobs) :
    AgentsOk s.made s.pushIds s.pullIds (Function.update s.pushSessions sid none) agents connecting jobs := by
  refine ⟨h.old,h.push,h.pull,h.made,?_,?_,?_,h.once,h.connecting⟩
  · exact fun a agent push here mine => h.url a agent push here (updateNone.1 mine).2
  · intro a agent here before j mem
    rcases dropped.from_ j mem with ⟨mem,_⟩ | ⟨_,_,_,i,mem,id,_⟩
    · exact h.first a agent here before j mem
    · rw [← id]
      exact h.first a agent here before i mem
  · intro a agent here later
    obtain ⟨info,mine,there⟩ := h.later a agent here later
    refine ⟨info,fun j mem same => ?_,fun session => ?_⟩
    · rcases dropped.from_ j mem with ⟨mem,_⟩ | ⟨_,_,_,i,imem,_,transfer,serial⟩
      · exact mine j mem same
      · rw [← transfer] at same
        rw [(mine i imem same).2] at serial
        cases serial
    · obtain ⟨push,session⟩ := Option.isSome_iff_exists.1 session
      obtain ⟨other,session⟩ := updateNone.1 session
      obtain ⟨j,mem,same⟩ := there (Option.isSome_iff_exists.2 ⟨push,session⟩)
      exact ⟨j,dropped.kept j mem (by rw [(mine j mem same).1]; exact other),same⟩

theorem responsesLeft {agents : Nat → Option PullHttpAgent}
    (h : ResponsesOk s.made s.clients s.pushSessions agents s.responses) :
    ResponsesOk s.made (Function.update s.clients c none) (Function.update s.pushSessions sid none) agents s.responses :=
  ⟨h.once,h.old,fun d dl here => h.fresh d dl (updateNone.1 here).2,
    fun a agent push here before session => h.waiting a agent push here before (updateNone.1 session).2⟩

theorem pullsDropped {pullSessions : Int → Option PullSession} {agents : Nat → Option PullHttpAgent}
    (h : PullsOk s.pullIds pullSessions agents s.jobs s.notices) (dropped : Dropped sid s.jobs jobs) :
    PullsOk s.pullIds pullSessions agents jobs s.notices := by
  refine ⟨h.old,h.agent,fun psid wakes => h.written psid ?_,h.mine⟩
  rcases wakes with ⟨j,mem,pulls⟩ | notice
  · rcases dropped.from_ j mem with ⟨mem,_⟩ | ⟨_,_,serial,_⟩
    · exact .inl ⟨j,mem,pulls⟩
    · rw [serial] at pulls
      cases pulls
  · exact .inr notice

/- The states a client leaves behind. -/
def State.left (s : State) (c : Nat) (sid : Int) (jobs : List DispatchJob) (payload : Int) (missed : Nat) : State :=
  { s with
    clients := Function.update s.clients c none
    pushSessions := Function.update s.pushSessions sid none
    jobs := jobs
    payload := payload
    missed := missed }

theorem invLeft (h : Inv s) (found : s.clients c = some client) (dropped : Dropped client.sessionId s.jobs jobs)
    {payload : Int} {missed : Nat} (counted : payload + missed = jobs.countP DispatchJob.served) :
    Inv (s.left c client.sessionId jobs payload missed) :=
  ⟨sessionsLeft h.sessions found,jobsDropped h.jobs dropped,agentsDropped h.agents dropped,h.queue,
    pullsDropped (s := s) h.pulls dropped,responsesLeft h.responses,counted,h.ids⟩

/- delete_client of a session whose client is there. -/
theorem deleteLeaves (h : Inv s) (found : s.clients c = some client) (session : client.sessionId ≠ -1) (canceled : Bool) :
    ∃ jobs missed, deleteClient { s with payload := s.payload - 1 } client.sessionId canceled =
        some { s with payload := s.payload - 1, jobs := jobs, missed := missed } ∧
      Dropped client.sessionId s.jobs jobs ∧ s.payload - 1 + missed = jobs.countP DispatchJob.served := by
  have counted := h.payload
  unfold deleteClient
  simp only
  cases found_ : s.jobs[s.jobs.findIdx fun j => j.sessionId = client.sessionId]? with
  | none =>
    have none_ : ∀ j ∈ s.jobs, j.sessionId ≠ client.sessionId := by
      have all := List.findIdx_eq_length.1 (Nat.le_antisymm List.findIdx_le_length (List.getElem?_eq_none_iff.1 found_))
      exact fun j mem same => by simpa [same] using all j mem
    refine ⟨s.jobs,s.missed + 1,rfl,droppedNone none_,?_⟩
    push_cast
    omega
  | some j =>
    have mine : j.sessionId = client.sessionId := by
      obtain ⟨bound,rfl⟩ := List.getElem?_eq_some_iff.1 found_
      exact of_decide_eq_true (List.findIdx_getElem (w := bound))
    obtain ⟨front,back,split,erase,set_⟩ := findSplit found_
    have mem : j ∈ s.jobs := by
      rw [split]
      simp
    obtain ⟨push,listed,owner⟩ := h.sessions.owned c client found session
    have served : j.served = true := by
      cases closing : j.served with
      | true => rfl
      | false =>
        have gone := h.jobs.closing j mem closing
        rw [mine,listed] at gone
        cases gone
    have mine_ : j.client = c := by
      obtain ⟨push',listed',owner'⟩ := h.jobs.attended j mem served
      rw [mine,listed] at listed'
      cases listed'
      exact owner'.symm.trans owner
    have one : s.jobs.countP DispatchJob.served = (front ++ back).countP DispatchJob.served + 1 := by
      rw [split,List.countP_append,List.countP_append,List.countP_cons_of_pos served,Nat.add_assoc]
    simp only
    by_cases waits : j.agent = .serialFile ∧ ¬canceled
    · rw [if_pos waits,set_]
      have pending : ({ j with closePending := true } : DispatchJob).served = false := rfl
      refine ⟨_,s.missed,rfl,mine ▸ droppedPending split h.jobs.ids waits.1,?_⟩
      rw [List.countP_append,List.countP_cons_of_neg (by rw [pending]; exact Bool.false_ne_true),← List.countP_append]
      omega
    · rw [if_neg waits,if_neg (by rw [mine_,found]; exact Bool.false_ne_true),erase]
      refine ⟨_,s.missed,rfl,mine ▸ droppedErase split h.jobs.ids,?_⟩
      omega

/- The destructor of a client that is there. -/
theorem destroyLeaves (h : Inv s) (found : s.clients c = some client) (canceled : Bool) :
    ∃ jobs payload missed, destroyClient s c canceled = some (s.left c client.sessionId jobs payload missed) ∧
      Dropped client.sessionId s.jobs jobs ∧ payload + missed = jobs.countP DispatchJob.served := by
  unfold destroyClient
  rw [found,Option.bind_some]
  by_cases none_ : client.sessionId = -1
  · rw [if_pos none_]
    have unlisted : Function.update s.pushSessions client.sessionId none = s.pushSessions := by
      refine Function.update_eq_self_iff.2 ?_
      cases listed : s.pushSessions client.sessionId with
      | none => rfl
      | some push =>
        have positive := (h.sessions.owner _ push listed).1
        omega
    have jobless : ∀ j ∈ s.jobs, j.sessionId ≠ client.sessionId := by
      intro j mem same
      have positive := (h.jobs.known j mem).1
      omega
    refine ⟨s.jobs,s.payload,s.missed,?_,droppedNone jobless,h.payload⟩
    unfold State.left
    rw [unlisted]
  · rw [if_neg none_]
    obtain ⟨jobs,missed,deletes,dropped,counted⟩ := deleteLeaves h found none_ canceled
    refine ⟨jobs,s.payload - 1,missed,?_,dropped,counted⟩
    rw [deletes]
    rfl

/- A client has gone and the agents are as they were. -/
structure Leaves (s s' : State) : Prop where
  inv : Inv s'
  agents : s'.agents = s.agents
  connecting : s'.connecting = s.connecting
  queue : s'.queue = s.queue

theorem destroyKeeps (h : Inv s) (found : s.clients c = some client) (canceled : Bool) :
    ∃ s', destroyClient s c canceled = some s' ∧ Leaves s s' := by
  obtain ⟨jobs,payload,missed,does,dropped,counted⟩ := destroyLeaves h found canceled
  exact ⟨_,does,invLeft h found dropped counted,rfl,rfl,rfl⟩

end Leaving

section Refusing
variable {s : State} {r : Response} {client : HttpClient}

def State.answered (s : State) (c : Nat) : Prop := ∃ r ∈ s.responses, r.client = c

/- The destructor does not look at what was sent. -/
theorem destroySent (s : State) (r : Response) (c : Nat) (canceled : Bool) :
    destroyClient { s with responses := r :: s.responses } c canceled =
      (destroyClient s c canceled).map fun s => { s with responses := r :: s.responses } := by
  unfold destroyClient
  simp only
  cases s.clients c with
  | none => rfl
  | some client =>
    simp only [Option.bind_some]
    split
    · rfl
    · unfold deleteClient
      simp only
      cases s.jobs[s.jobs.findIdx fun j => j.sessionId = client.sessionId]? with
      | none => rfl
      | some j =>
        simp only
        split
        · rfl
        · split <;> rfl

/- One response to a client that then goes. -/
theorem refuseKeeps (h : Inv s) (found : s.clients r.client = some client) (known : r.status ∈ statuses)
    (first : ¬s.answered r.client) (canceled : Bool) :
    ∃ s', refuse s r canceled = some s' ∧ Leaves s s' := by
  obtain ⟨jobs,payload,missed,does,dropped,counted⟩ := destroyLeaves h found canceled
  have left := invLeft h found dropped counted
  have sent : responseToClient s r = some { s with responses := r :: s.responses } :=
    if_pos ⟨by rw [found]; rfl,known⟩
  refine ⟨{ s.left r.client client.sessionId jobs payload missed with responses := r :: s.responses },?_,?_,rfl,rfl,rfl⟩
  · unfold refuse
    rw [sent,Option.bind_some,destroySent,does]
    rfl
  · refine ⟨left.sessions,left.jobs,left.agents,left.queue,left.pulls,⟨?_,?_,?_,?_⟩,left.payload,left.ids⟩
    · rw [List.map_cons,List.nodup_cons]
      exact ⟨fun mem => first (List.mem_map.1 mem),h.responses.once⟩
    · intro r' mem
      rcases List.mem_cons.1 mem with rfl | mem
      · exact h.sessions.old _ client found
      · exact h.responses.old r' mem
    · intro d dl here before r' mem
      obtain ⟨other,here'⟩ := updateNone.1 here
      rcases List.mem_cons.1 mem with rfl | mem
      · exact Ne.symm other
      · exact h.responses.fresh d dl here' before r' mem
    · intro a agent push here before session r' mem
      rcases List.mem_cons.1 mem with rfl | mem
      · obtain ⟨_,_,alive⟩ := left.sessions.owner _ push session
        obtain ⟨dl,alive,_⟩ := alive
        exact Ne.symm (updateNone.1 alive).1
      · exact left.responses.waiting a agent push here before session r' mem

/- The session is removed by release as well. -/
theorem answerRefuses (found : s.clients r.client = some client) (session : client.sessionId ≠ -1)
    (canceled : Bool) : answer s client.sessionId r canceled = refuse s r canceled := by
  unfold answer refuse
  refine Option.bind_congr fun s' sent => ?_
  have shape : s' = { s with responses := r :: s.responses } := by
    unfold responseToClient at sent
    split at sent
    · exact (Option.some.inj sent).symm
    · cases sent
  subst shape
  unfold destroyClient deleteClient
  simp only [found,Option.bind_some,if_neg session]
  cases s.jobs[s.jobs.findIdx fun j => j.sessionId = client.sessionId]? with
  | none => simp
  | some j =>
    simp only
    split
    · simp
    · split <;> simp

end Refusing

section Growing
variable {made made' : Nat} {pushIds pullIds : Int} {pushSessions : Int → Option PushSession} {jobs : List DispatchJob}
  {agents : Nat → Option PullHttpAgent} {connecting : List Nat}

theorem jobsMade (h : JobsOk made pushIds pushSessions jobs) (more : made ≤ made') : JobsOk made' pushIds pushSessions jobs :=
  ⟨h.ids,fun j mem => ⟨(h.known j mem).1,(h.known j mem).2.1,(h.known j mem).2.2.trans_le more⟩,h.attended,h.closing,h.pulls⟩

theorem agentsMade (h : AgentsOk made pushIds pullIds pushSessions agents connecting jobs) (more : made ≤ made') :
    AgentsOk made' pushIds pullIds pushSessions agents connecting jobs :=
  ⟨fun a agent here => ⟨(h.old a agent here).1.trans_le more,(h.old a agent here).2⟩,h.push,h.pull,
    fun a agent t here made => (h.made a agent t here made).trans_le more,h.url,h.first,h.later,h.once,h.connecting⟩

end Growing

section Requests
variable {s : State} {c : Nat} {client : HttpClient} {head : Bool} {push : PushSession}

theorem acceptKeeps (h : Inv s) : Inv { s with
    made := s.made + 1
    clients := Function.update s.clients s.made (some ⟨-1,false,false⟩) } := by
  have more := Nat.le_succ s.made
  refine ⟨⟨?_,?_,?_⟩,jobsMade h.jobs more,agentsMade h.agents more,h.queue,h.pulls,⟨h.responses.once,?_,?_,h.responses.waiting⟩,h.payload,h.ids⟩
  · intro d dl here
    rcases updateSome.1 here with ⟨rfl,_⟩ | ⟨_,here⟩
    · exact Nat.lt_succ_self _
    · exact (h.sessions.old d dl here).trans_le more
  · intro d dl here session
    rcases updateSome.1 here with ⟨_,rfl⟩ | ⟨_,here⟩
    · exact absurd rfl session
    · exact h.sessions.owned d dl here session
  · intro sid push here
    obtain ⟨positive,bound,dl,alive,rest⟩ := h.sessions.owner sid push here
    exact ⟨positive,bound,dl,updateSome.2 (.inr ⟨Nat.ne_of_lt (h.sessions.old _ dl alive),alive⟩),rest⟩
  · exact fun r mem => (h.responses.old r mem).trans_le more
  · intro d dl here before r mem
    rcases updateSome.1 here with ⟨rfl,_⟩ | ⟨_,here⟩
    · exact Nat.ne_of_lt (h.responses.old r mem)
    · exact h.responses.fresh d dl here before r mem

/- The client of a request that has no session yet. -/
theorem requestKeeps (head : Bool) (h : Inv s) (found : s.clients c = some client) (before : client.recvMsgOk = false) :
    Inv { s with clients := Function.update s.clients c (some ⟨-1,true,head⟩) } := by
  refine ⟨⟨?_,?_,?_⟩,h.jobs,h.agents,h.queue,h.pulls,⟨h.responses.once,h.responses.old,?_,h.responses.waiting⟩,h.payload,h.ids⟩
  · intro d dl here
    rcases updateSome.1 here with ⟨rfl,_⟩ | ⟨_,here⟩
    · exact h.sessions.old _ client found
    · exact h.sessions.old d dl here
  · intro d dl here session
    rcases updateSome.1 here with ⟨_,rfl⟩ | ⟨_,here⟩
    · exact absurd rfl session
    · exact h.sessions.owned d dl here session
  · intro sid push here
    obtain ⟨positive,bound,dl,alive,session,ok⟩ := h.sessions.owner sid push here
    refine ⟨positive,bound,dl,updateSome.2 (.inr ⟨?_,alive⟩),session,ok⟩
    intro same
    rw [same,found] at alive
    cases alive
    rw [before] at ok
    cases ok
  · intro d dl here later r mem
    rcases updateSome.1 here with ⟨_,rfl⟩ | ⟨_,here⟩
    · cases later
    · exact h.responses.fresh d dl here later r mem

/- alloc_sessionid and insert, for the client of a request. -/
def State.newSession (s : State) (c : Nat) (head : Bool) (push : PushSession) : State :=
  { s with
    pushIds := s.pushIds + 2
    clients := Function.update s.clients c (some ⟨s.pushIds + 2,true,head⟩)
    pushSessions := Function.update s.pushSessions (s.pushIds + 2) (some push) }

theorem sessionKeeps (h : Inv s) (found : s.clients c = some client) (before : client.recvMsgOk = false)
    (mine : push.client = c) : Inv (s.newSession c head push) := by
  have ids := h.ids
  have unlisted : ∀ sid, sid ≤ s.pushIds → (s.newSession c head push).pushSessions sid = s.pushSessions sid := by
    intro sid bound
    exact Function.update_of_ne (by omega) _ _
  refine ⟨⟨?_,?_,?_⟩,⟨h.jobs.ids,?_,?_,?_,h.jobs.pulls⟩,⟨?_,h.agents.push,h.agents.pull,h.agents.made,?_,h.agents.first,?_,
    h.agents.once,h.agents.connecting⟩,h.queue,h.pulls,⟨h.responses.once,h.responses.old,?_,?_⟩,h.payload,?_⟩
  · intro d dl here
    rcases updateSome.1 here with ⟨rfl,_⟩ | ⟨_,here⟩
    · exact h.sessions.old _ client found
    · exact h.sessions.old d dl here
  · intro d dl here session
    rcases updateSome.1 here with ⟨rfl,rfl⟩ | ⟨_,here⟩
    · exact ⟨push,Function.update_self _ _ _,mine⟩
    · obtain ⟨push',listed,owner⟩ := h.sessions.owned d dl here session
      exact ⟨push',(unlisted _ (h.sessions.owner _ push' listed).2.1).trans listed,owner⟩
  · intro sid push' here
    rcases updateSome.1 here with ⟨rfl,rfl⟩ | ⟨_,here⟩
    · exact ⟨by omega,Int.le_refl _,_,by rw [mine]; exact Function.update_self _ _ _,rfl,rfl⟩
    · obtain ⟨positive,bound,dl,alive,session,ok⟩ := h.sessions.owner sid push' here
      refine ⟨positive,by change sid ≤ s.pushIds + 2; omega,dl,updateSome.2 (.inr ⟨?_,alive⟩),session,ok⟩
      intro same
      rw [same,found] at alive
      cases alive
      rw [before] at ok
      cases ok
  · intro j mem
    obtain ⟨low,high,transfer⟩ := h.jobs.known j mem
    exact ⟨low,by change j.sessionId ≤ s.pushIds + 2; omega,transfer⟩
  · intro j mem served
    rw [unlisted _ (h.jobs.known j mem).2.1]
    exact h.jobs.attended j mem served
  · intro j mem closing
    rw [unlisted _ (h.jobs.known j mem).2.1]
    exact h.jobs.closing j mem closing
  · intro a agent here
    obtain ⟨old,low,high,rest⟩ := h.agents.old a agent here
    exact ⟨old,low,by change agent.pushSessionId ≤ s.pushIds + 2; omega,rest⟩
  · intro a agent push' here listed
    rw [unlisted _ (h.agents.old a agent here).2.2.1] at listed
    exact h.agents.url a agent push' here listed
  · intro a agent here later
    obtain ⟨info,mine,there⟩ := h.agents.later a agent here later
    refine ⟨info,mine,fun session => there ?_⟩
    rw [← unlisted _ (h.agents.old a agent here).2.2.1]
    exact session
  · intro d dl here later r mem
    rcases updateSome.1 here with ⟨_,rfl⟩ | ⟨_,here⟩
    · cases later
    · exact h.responses.fresh d dl here later r mem
  · intro a agent push' here later listed
    rw [unlisted _ (h.agents.old a agent here).2.2.1] at listed
    exact h.responses.waiting a agent push' here later listed
  · exact ⟨by change 0 ≤ s.pushIds + 2; omega,ids.2⟩

end Requests

section Pulling
variable {s : State} {a : Nat} {agent agent' : PullHttpAgent} {url : Str} {sid psid : Int} {push : PushSession}

def State.newPull (s : State) (url : Str) (sid : Int) : State :=
  { s with
    pullIds := s.pullIds + 2
    pullSessions := Function.update s.pullSessions (s.pullIds + 2) (some ⟨url,sid,none⟩) }

theorem pullKeeps (h : Inv s) : Inv (s.newPull url sid) := by
  have ids := h.ids
  refine ⟨h.sessions,h.jobs,⟨?_,h.agents.push,h.agents.pull,h.agents.made,h.agents.url,h.agents.first,h.agents.later,
    h.agents.once,h.agents.connecting⟩,h.queue,⟨?_,?_,?_,?_⟩,h.responses,h.payload,?_⟩
  · intro a agent here
    obtain ⟨old,low,high,bound,rest⟩ := h.agents.old a agent here
    exact ⟨old,low,high,by change agent.pullSessionId ≤ s.pullIds + 2; omega,rest⟩
  · intro psid pull here
    change psid ≤ s.pullIds + 2
    rcases updateSome.1 here with ⟨rfl,_⟩ | ⟨_,here⟩
    · exact Int.le_refl _
    · have bound := h.pulls.old psid pull here
      omega
  · intro psid pull a here written
    rcases updateSome.1 here with ⟨_,rfl⟩ | ⟨_,here⟩
    · cases written
    · exact h.pulls.agent psid pull a here written
  · intro psid wakes
    obtain ⟨bound,written⟩ := h.pulls.written psid wakes
    refine ⟨by change psid ≤ s.pullIds + 2; omega,fun pull here => ?_⟩
    rcases updateSome.1 here with ⟨same,_⟩ | ⟨_,here⟩
    · omega
    · exact written pull here
  · intro a agent psid pull here listed written
    rcases updateSome.1 listed with ⟨_,rfl⟩ | ⟨_,listed⟩
    · cases written
    · exact h.pulls.mine a agent psid pull here listed written
  · exact ⟨ids.1,by change 0 ≤ s.pullIds + 2; omega⟩

/- A new pull_http_agent, and its url in the queue. -/
def State.newAgent (s : State) (psid : Int) (url : Str) (sid : Int) (connectOk : Bool) : State :=
  { s with
    made := s.made + 1
    agents := Function.update s.agents s.made (some ⟨psid,url,sid,connectOk,false,false,false,false,none⟩)
    queue := Function.update s.queue url true }

theorem newWaits {u : Str} {connectOk : Bool} :
    Waits (s.newAgent psid url sid connectOk).agents u a ↔ (a = s.made ∧ u = url) ∨ (a ≠ s.made ∧ Waits s.agents u a) := by
  unfold Waits State.newAgent
  constructor
  · rintro ⟨agent,here,before,same⟩
    rcases updateSome.1 here with ⟨rfl,rfl⟩ | ⟨other,here⟩
    · exact .inl ⟨rfl,same.symm⟩
    · exact .inr ⟨other,agent,here,before,same⟩
  · rintro (⟨rfl,rfl⟩ | ⟨other,agent,here,rest⟩)
    · exact ⟨_,Function.update_self _ _ _,rfl,rfl⟩
    · exact ⟨agent,updateSome.2 (.inr ⟨other,here⟩),rest⟩

theorem agentKeeps {connectOk : Bool} (h : Inv s) (free : s.queue url = false) (listed : s.pushSessions sid = some push)
    (mine : push.requestUrl = url) (bound : psid ≤ s.pullIds) (pushless : ∀ a agent, s.agents a = some agent → agent.pushSessionId ≠ sid)
    (pullless : ∀ a agent, s.agents a = some agent → agent.pullSessionId ≠ psid)
    (jobless : ∀ j ∈ s.jobs, j.sessionId ≠ sid) (first : ¬s.answered push.client) :
    Inv (s.newAgent psid url sid connectOk) := by
  have more := Nat.le_succ s.made
  obtain ⟨positive,high,client,alive,session,ok⟩ := h.sessions.owner sid push listed
  have quiet : ∀ b, ¬Waits s.agents url b := fun b waits => by
    rw [(h.queue.queued url).2 (.inl ⟨b,waits⟩)] at free
    cases free
  have agents := agentsMade h.agents more
  refine ⟨⟨fun d dl here => (h.sessions.old d dl here).trans_le more,h.sessions.owned,h.sessions.owner⟩,jobsMade h.jobs more,
    ⟨?_,?_,?_,?_,?_,?_,?_,agents.once,?_⟩,⟨?_,?_,?_⟩,⟨h.pulls.old,?_,h.pulls.written,?_⟩,
    ⟨h.responses.once,fun r mem => (h.responses.old r mem).trans_le more,h.responses.fresh,?_⟩,h.payload,h.ids⟩
  · intro b agent here
    rcases updateSome.1 here with ⟨rfl,rfl⟩ | ⟨_,here⟩
    · exact ⟨Nat.lt_succ_self _,positive,high,bound,fun before => by cases before⟩
    · exact agents.old b agent here
  · intro b d agent agent' here here' same
    rcases updateSome.1 here with ⟨rfl,rfl⟩ | ⟨_,here⟩ <;> rcases updateSome.1 here' with ⟨rfl,rfl⟩ | ⟨_,here'⟩
    · rfl
    · exact absurd same.symm (pushless d agent' here')
    · exact absurd same (pushless b agent here)
    · exact agents.push b d agent agent' here here' same
  · intro b d agent agent' here here' same
    rcases updateSome.1 here with ⟨rfl,rfl⟩ | ⟨_,here⟩ <;> rcases updateSome.1 here' with ⟨rfl,rfl⟩ | ⟨_,here'⟩
    · rfl
    · exact absurd same.symm (pullless d agent' here')
    · exact absurd same (pullless b agent here)
    · exact agents.pull b d agent agent' here here' same
  · intro b agent t here transfer
    rcases updateSome.1 here with ⟨rfl,rfl⟩ | ⟨_,here⟩
    · cases transfer
    · exact agents.made b agent t here transfer
  · intro b agent push' here listed'
    rcases updateSome.1 here with ⟨rfl,rfl⟩ | ⟨_,here⟩
    · change s.pushSessions sid = some push' at listed'
      rw [listed] at listed'
      cases listed'
      exact mine
    · exact agents.url b agent push' here listed'
  · intro b agent here before
    rcases updateSome.1 here with ⟨rfl,rfl⟩ | ⟨_,here⟩
    · exact jobless
    · exact agents.first b agent here before
  · intro b agent here later
    rcases updateSome.1 here with ⟨rfl,rfl⟩ | ⟨_,here⟩
    · cases later
    · exact agents.later b agent here later
  · intro b mem
    obtain ⟨agent,here,unopened⟩ := h.agents.connecting b mem
    exact ⟨agent,updateSome.2 (.inr ⟨Nat.ne_of_lt (h.agents.old b agent here).1,here⟩),unopened⟩
  · intro u
    by_cases same : u = url
    · subst same
      exact ⟨fun _ => .inl ⟨s.made,newWaits.2 (.inl ⟨rfl,rfl⟩)⟩,fun _ => Function.update_self _ _ _⟩
    · change Function.update s.queue url true u = true ↔ _
      rw [Function.update_of_ne same,h.queue.queued u]
      refine or_congr (exists_congr fun b => ?_) Iff.rfl
      rw [newWaits]
      constructor
      · intro waits
        have there := waits
        obtain ⟨agent,here,_⟩ := there
        exact .inr ⟨Nat.ne_of_lt (h.agents.old b agent here).1,waits⟩
      · rintro (⟨_,here⟩ | ⟨_,waits⟩)
        · exact absurd here same
        · exact waits
  · intro u b d one two
    rcases newWaits.1 one with ⟨rfl,here⟩ | ⟨_,waits⟩ <;> rcases newWaits.1 two with ⟨rfl,here'⟩ | ⟨_,waits'⟩
    · rfl
    · exact absurd (here ▸ waits') (quiet d)
    · exact absurd (here' ▸ waits) (quiet b)
    · exact h.queue.single u b d waits waits'
  · intro u b one mem
    rcases newWaits.1 one with ⟨rfl,here⟩ | ⟨_,waits⟩
    · rw [(h.queue.queued url).2 (.inr (here ▸ mem))] at free
      cases free
    · exact h.queue.other u b waits mem
  · intro psid' pull b here written
    have there := h.pulls.agent psid' pull b here written
    obtain ⟨agent,there⟩ := Option.isSome_iff_exists.1 there
    exact Option.isSome_iff_exists.2 ⟨agent,updateSome.2 (.inr ⟨Nat.ne_of_lt (h.agents.old b agent there).1,there⟩)⟩
  · intro b agent psid' pull here listed' written
    rcases updateSome.1 here with ⟨rfl,rfl⟩ | ⟨_,here⟩
    · have there := h.pulls.agent psid' pull _ listed' written
      obtain ⟨agent,there⟩ := Option.isSome_iff_exists.1 there
      exact absurd (h.agents.old _ agent there).1 (lt_irrefl _)
    · exact h.pulls.mine b agent psid' pull here listed' written
  · intro b agent push' here before listed' r mem
    rcases updateSome.1 here with ⟨rfl,rfl⟩ | ⟨_,here⟩
    · change s.pushSessions sid = some push' at listed'
      rw [listed] at listed'
      cases listed'
      exact fun same => first ⟨r,mem,same⟩
    · exact h.responses.waiting b agent push' here before listed' r mem

/- An agent goes, and takes its url out of the queue when its header has not come. -/
def State.dropAgent (s : State) (a : Nat) (agent : PullHttpAgent) : State :=
  { s with
    agents := Function.update s.agents a none
    pullSessions := Function.update s.pullSessions agent.pullSessionId none
    queue := if agent.pullInfoOk then s.queue else Function.update s.queue agent.requestUrl false }

theorem dropWaits {u : Str} {b : Nat} : Waits (s.dropAgent a agent).agents u b ↔ b ≠ a ∧ Waits s.agents u b := by
  unfold Waits State.dropAgent
  constructor
  · rintro ⟨agent,here,rest⟩
    exact ⟨(updateNone.1 here).1,agent,(updateNone.1 here).2,rest⟩
  · rintro ⟨other,agent,here,rest⟩
    exact ⟨agent,updateNone.2 ⟨other,here⟩,rest⟩

theorem dropKeeps (h : Inv s) (found : s.agents a = some agent) (free : a ∉ s.connecting) : Inv (s.dropAgent a agent) := by
  have off : ∀ {b other}, (s.dropAgent a agent).agents b = some other → s.agents b = some other :=
    fun here => (updateNone.1 here).2
  have gone : ∀ {psid pull}, (s.dropAgent a agent).pullSessions psid = some pull → s.pullSessions psid = some pull :=
    fun here => (updateNone.1 here).2
  refine ⟨h.sessions,h.jobs,⟨fun b other here => h.agents.old b other (off here),?_,?_,
    fun b other t here => h.agents.made b other t (off here),fun b other push here => h.agents.url b other push (off here),
    fun b other here => h.agents.first b other (off here),fun b other here => h.agents.later b other (off here),
    h.agents.once,?_⟩,⟨?_,?_,?_⟩,⟨fun psid pull here => h.pulls.old psid pull (gone here),?_,?_,?_⟩,
    ⟨h.responses.once,h.responses.old,h.responses.fresh,fun b other push here => h.responses.waiting b other push (off here)⟩,
    h.payload,h.ids⟩
  · exact fun b d one two here here' => h.agents.push b d one two (off here) (off here')
  · exact fun b d one two here here' => h.agents.pull b d one two (off here) (off here')
  · intro b mem
    obtain ⟨other,here,unopened⟩ := h.agents.connecting b mem
    exact ⟨other,updateNone.2 ⟨fun same => free (same ▸ mem),here⟩,unopened⟩
  · intro u
    by_cases mine : agent.pullInfoOk = false ∧ agent.requestUrl = u
    · obtain ⟨before,rfl⟩ := mine
      have waits : Waits s.agents agent.requestUrl a := ⟨agent,found,before,rfl⟩
      have removed : (s.dropAgent a agent).queue agent.requestUrl = false := by
        unfold State.dropAgent
        simp only [before,Bool.false_eq_true,if_false,Function.update_self]
      rw [removed]
      constructor
      · exact fun absurd_ => by cases absurd_
      · rintro (⟨b,waits'⟩ | mem)
        · obtain ⟨other,waits'⟩ := dropWaits.1 waits'
          exact absurd (h.queue.single _ b a waits' waits) other
        · exact absurd mem (h.queue.other _ a waits)
    · have same : (s.dropAgent a agent).queue u = s.queue u := by
        unfold State.dropAgent
        cases info : agent.pullInfoOk with
        | true => rfl
        | false =>
          simp only [Bool.false_eq_true,if_false]
          exact Function.update_of_ne (fun here => mine ⟨info,here.symm⟩) _ _
      rw [same,h.queue.queued u]
      refine or_congr (exists_congr fun b => ?_) Iff.rfl
      rw [dropWaits]
      constructor
      · rintro ⟨other,here,before,url⟩
        refine ⟨?_,other,here,before,url⟩
        rintro rfl
        rw [found] at here
        cases here
        exact mine ⟨before,url⟩
      · exact fun both => both.2
  · exact fun u b d one two => h.queue.single u b d (dropWaits.1 one).2 (dropWaits.1 two).2
  · exact fun u b one => h.queue.other u b (dropWaits.1 one).2
  · intro psid pull b here written
    obtain ⟨off_,listed⟩ := updateNone.1 here
    obtain ⟨other,there⟩ := Option.isSome_iff_exists.1 (h.pulls.agent psid pull b listed written)
    refine Option.isSome_iff_exists.2 ⟨other,updateNone.2 ⟨?_,there⟩⟩
    rintro rfl
    rw [found] at there
    cases there
    exact off_ (h.pulls.mine _ agent psid pull found listed written)
  · exact fun psid wakes => ⟨(h.pulls.written psid wakes).1,fun pull here => (h.pulls.written psid wakes).2 pull (gone here)⟩
  · exact fun b other psid pull here listed => h.pulls.mine b other psid pull (off here) (gone listed)

/- What a change of the flags of an agent leaves alone. -/
structure Flags (agent agent' : PullHttpAgent) : Prop where
  pull : agent'.pullSessionId = agent.pullSessionId
  url : agent'.requestUrl = agent.requestUrl
  push : agent'.pushSessionId = agent.pushSessionId
  first : agent'.recvedFirstPackage = agent.recvedFirstPackage
  transfer : agent'.transferAgent = agent.transferAgent
  connect : agent.connectOk = true → agent'.connectOk = true
  info : agent.pullInfoOk = true → agent'.pullInfoOk = true
  both : agent'.pullInfoOk = true → agent'.connectOk = true

section Flags
variable {made : Nat} {pushIds pullIds : Int} {pushSessions : Int → Option PushSession} {jobs : List DispatchJob}
  {agents : Nat → Option PullHttpAgent} {connecting : List Nat} {notices : List NotifyEvent}
  {pullSessions : Int → Option PullSession}

theorem agentsFlags (h : AgentsOk made pushIds pullIds pushSessions agents connecting jobs) (found : agents a = some agent)
    (flags : Flags agent agent') (free : a ∉ connecting ∨ agent'.connectOk = agent.connectOk) :
    AgentsOk made pushIds pullIds pushSessions (Function.update agents a (some agent')) connecting jobs := by
  -- every agent of the new map stands for one of the old
  have from_ : ∀ {b other}, Function.update agents a (some agent') b = some other →
      ∃ before, agents b = some before ∧ Flags before other ∧ (b ≠ a → other = before) := by
    intro b other here
    rcases updateSome.1 here with ⟨rfl,rfl⟩ | ⟨off,here⟩
    · exact ⟨agent,found,flags,fun off => absurd rfl off⟩
    · exact ⟨other,here,⟨rfl,rfl,rfl,rfl,rfl,id,id,(h.old b other here).2.2.2.2⟩,fun _ => rfl⟩
  refine ⟨?_,?_,?_,?_,?_,?_,?_,h.once,?_⟩
  · intro b other here
    obtain ⟨before,there,same,_⟩ := from_ here
    obtain ⟨old,low,high,bound,_⟩ := h.old b before there
    exact ⟨old,same.push ▸ low,same.push ▸ high,same.pull ▸ bound,same.both⟩
  · intro b d one two here here' shared
    obtain ⟨one',there,same,_⟩ := from_ here
    obtain ⟨two',there',same',_⟩ := from_ here'
    exact h.push b d one' two' there there' (by rw [← same.push,shared,same'.push])
  · intro b d one two here here' shared
    obtain ⟨one',there,same,_⟩ := from_ here
    obtain ⟨two',there',same',_⟩ := from_ here'
    exact h.pull b d one' two' there there' (by rw [← same.pull,shared,same'.pull])
  · intro b other t here transfer
    obtain ⟨before,there,same,_⟩ := from_ here
    exact h.made b before t there (by rw [← same.transfer,transfer])
  · intro b other push here listed
    obtain ⟨before,there,same,_⟩ := from_ here
    rw [same.url]
    exact h.url b before push there (by rw [← same.push,listed])
  · intro b other here untouched j mem
    obtain ⟨before,there,same,_⟩ := from_ here
    rw [same.push]
    exact h.first b before there (by rw [← same.first,untouched]) j mem
  · intro b other here later
    obtain ⟨before,there,same,_⟩ := from_ here
    obtain ⟨info,mine,there⟩ := h.later b before there (by rw [← same.first,later])
    refine ⟨same.info info,?_,?_⟩
    · rw [same.transfer,same.push,same.pull]
      exact mine
    · rw [same.transfer,same.push]
      exact there
  · intro b mem
    obtain ⟨other,here,unopened⟩ := h.connecting b mem
    by_cases mine : b = a
    · subst mine
      rw [found] at here
      cases here
      rcases free with free | same
      · exact absurd mem free
      · exact ⟨agent',Function.update_self _ _ _,same.trans unopened⟩
    · exact ⟨other,updateSome.2 (.inr ⟨mine,here⟩),unopened⟩

theorem pullsFlags (h : PullsOk pullIds pullSessions agents jobs notices) (found : agents a = some agent)
    (same : agent'.pullSessionId = agent.pullSessionId) :
    PullsOk pullIds pullSessions (Function.update agents a (some agent')) jobs notices := by
  refine ⟨h.old,?_,h.written,?_⟩
  · intro psid pull b here written
    obtain ⟨other,there⟩ := Option.isSome_iff_exists.1 (h.agent psid pull b here written)
    by_cases mine : b = a
    · exact Option.isSome_iff_exists.2 ⟨agent',updateSome.2 (.inl ⟨mine,rfl⟩)⟩
    · exact Option.isSome_iff_exists.2 ⟨other,updateSome.2 (.inr ⟨mine,there⟩)⟩
  · intro b other psid pull here listed written
    rcases updateSome.1 here with ⟨rfl,rfl⟩ | ⟨_,here⟩
    · rw [same]
      exact h.mine _ agent psid pull found listed written
    · exact h.mine b other psid pull here listed written

end Flags

theorem waitsSame {agents : Nat → Option PullHttpAgent} {u : Str} {b : Nat} (found : agents a = some agent)
    (info : agent'.pullInfoOk = agent.pullInfoOk) (url_ : agent'.requestUrl = agent.requestUrl) :
    Waits (Function.update agents a (some agent')) u b ↔ Waits agents u b := by
  unfold Waits
  by_cases mine : b = a
  · subst mine
    rw [Function.update_self,found]
    simp [info,url_]
  · rw [Function.update_of_ne mine]

/- A flag of an agent changes. -/
theorem flagKeeps (h : Inv s) (found : s.agents a = some agent) (flags : Flags agent agent')
    (free : a ∉ s.connecting ∨ agent'.connectOk = agent.connectOk) (info : agent'.pullInfoOk = agent.pullInfoOk) : Inv { s with agents := Function.update s.agents a (some agent') } := by
  have waits : ∀ {u b}, Waits (Function.update s.agents a (some agent')) u b ↔ Waits s.agents u b :=
    waitsSame found info flags.url
  refine ⟨h.sessions,h.jobs,agentsFlags h.agents found flags free,⟨?_,?_,?_⟩,pullsFlags h.pulls found flags.pull,
    ⟨h.responses.once,h.responses.old,h.responses.fresh,?_⟩,h.payload,h.ids⟩
  · intro u
    rw [h.queue.queued u]
    exact or_congr (exists_congr fun b => waits.symm) Iff.rfl
  · exact fun u b d one two => h.queue.single u b d (waits.1 one) (waits.1 two)
  · exact fun u b one => h.queue.other u b (waits.1 one)
  · intro b other push here before listed
    rcases updateSome.1 here with ⟨rfl,rfl⟩ | ⟨_,here⟩
    · exact h.responses.waiting _ agent push found (by rw [← info,before]) (by rw [← flags.push,listed])
    · exact h.responses.waiting b other push here before listed

/- A nonblocking_connect_handler has only agents that are not open. -/
theorem unconnected (h : Inv s) (found : s.agents a = some agent)
    (connected : agent.connectOk = true) : a ∉ s.connecting := by
  intro mem
  obtain ⟨other,here,unopened⟩ := h.agents.connecting a mem
  rw [found] at here
  cases here
  rw [connected] at unopened
  cases unopened

/- The header of an agent has come: its url leaves the queue, or is forgotten there. -/
def State.headed (s : State) (a : Nat) (agent : PullHttpAgent) (queue : Str → Bool) (forgotten : List Str) : State :=
  { s with
    agents := Function.update s.agents a (some { agent with pullInfoOk := true })
    queue := queue
    forgotten := forgotten }

theorem headedWaits {u : Str} {b : Nat} {queue : Str → Bool} {forgotten : List Str} :
    Waits (s.headed a agent queue forgotten).agents u b ↔ b ≠ a ∧ Waits s.agents u b := by
  unfold Waits State.headed
  constructor
  · rintro ⟨other,here,before,url⟩
    rcases updateSome.1 here with ⟨_,rfl⟩ | ⟨off,here⟩
    · cases before
    · exact ⟨off,other,here,before,url⟩
  · rintro ⟨off,other,here,rest⟩
    exact ⟨other,updateSome.2 (.inr ⟨off,here⟩),rest⟩

theorem headedKeeps {queue : Str → Bool} {forgotten : List Str} (h : Inv s) (found : s.agents a = some agent)
    (connected : agent.connectOk = true) (before : agent.pullInfoOk = false)
    (how : (queue = Function.update s.queue agent.requestUrl false ∧ forgotten = s.forgotten) ∨
      (queue = s.queue ∧ forgotten = agent.requestUrl :: s.forgotten)) :
    Inv (s.headed a agent queue forgotten) := by
  have free := unconnected h found connected
  have mine : Waits s.agents agent.requestUrl a := ⟨agent,found,before,rfl⟩
  have flags : Flags agent { agent with pullInfoOk := true } := ⟨rfl,rfl,rfl,rfl,rfl,id,fun _ => rfl,fun _ => connected⟩
  have others : ∀ {u b}, Waits s.agents u b → b ≠ a ∨ u = agent.requestUrl := by
    rintro u b ⟨other,here,_,url⟩
    by_cases same : b = a
    · rw [same,found] at here
      cases here
      exact .inr url.symm
    · exact .inl same
  refine ⟨h.sessions,h.jobs,agentsFlags h.agents found flags (.inl free),⟨?_,?_,?_⟩,pullsFlags h.pulls found rfl,
    ⟨h.responses.once,h.responses.old,h.responses.fresh,?_⟩,h.payload,h.ids⟩
  · intro u
    by_cases same : u = agent.requestUrl
    · subst same
      rcases how with ⟨rfl,rfl⟩ | ⟨rfl,rfl⟩
      · constructor
        · intro queued
          change Function.update s.queue agent.requestUrl false agent.requestUrl = true at queued
          rw [Function.update_self] at queued
          cases queued
        · rintro (⟨b,waits⟩ | mem)
          · obtain ⟨off,waits⟩ := headedWaits.1 waits
            exact absurd (h.queue.single _ b a waits mine) off
          · exact absurd mem (h.queue.other _ a mine)
      · exact ⟨fun _ => .inr List.mem_cons_self,fun _ => (h.queue.queued _).2 (.inl ⟨a,mine⟩)⟩
    · have queued : (s.headed a agent queue forgotten).queue u = s.queue u := by
        rcases how with ⟨rfl,_⟩ | ⟨rfl,_⟩
        · exact Function.update_of_ne same _ _
        · rfl
      have mem : u ∈ (s.headed a agent queue forgotten).forgotten ↔ u ∈ s.forgotten := by
        rcases how with ⟨_,rfl⟩ | ⟨_,rfl⟩
        · exact Iff.rfl
        · exact ⟨fun mem => (List.mem_cons.1 mem).resolve_left same,List.mem_cons_of_mem _⟩
      rw [queued,h.queue.queued u,mem]
      refine or_congr (exists_congr fun b => ?_) Iff.rfl
      rw [headedWaits]
      exact ⟨fun waits => ⟨(others waits).resolve_right same,waits⟩,fun both => both.2⟩
  · exact fun u b d one two => h.queue.single u b d (headedWaits.1 one).2 (headedWaits.1 two).2
  · intro u b one mem
    obtain ⟨off,waits⟩ := headedWaits.1 one
    rcases how with ⟨_,rfl⟩ | ⟨_,rfl⟩
    · exact h.queue.other u b waits mem
    · rcases List.mem_cons.1 mem with rfl | mem
      · exact off (h.queue.single _ b a waits mine)
      · exact h.queue.other u b waits mem
  · intro b other push here later listed
    rcases updateSome.1 here with ⟨_,rfl⟩ | ⟨_,here⟩
    · cases later
    · exact h.responses.waiting b other push here later listed

end Pulling

section Starting
variable {s : State} {a : Nat} {agent : PullHttpAgent} {sid : Int} {push : PushSession} {transfer : TransferAgent}

theorem jobsStart (transfer : TransferAgent) (h : Inv s) (listed : s.pushSessions sid = some push) (jobless : ∀ j ∈ s.jobs, j.sessionId ≠ sid) :
    JobsOk (s.made + 1) s.pushIds s.pushSessions (s.jobs ++ [⟨sid,push.client,s.made,transfer,false,false⟩]) := by
  obtain ⟨positive,high,_⟩ := h.sessions.owner sid push listed
  have jobs := jobsMade h.jobs (Nat.le_succ s.made)
  refine ⟨?_,?_,?_,?_,?_⟩
  · rw [List.map_append,List.map_singleton]
    refine List.nodup_append.2 ⟨h.jobs.ids,List.nodup_singleton _,?_⟩
    intro x mem y here
    obtain ⟨j,there,rfl⟩ := List.mem_map.1 mem
    rw [List.mem_singleton.1 here]
    exact jobless j there
  all_goals
    intro j mem
    rcases List.mem_append.1 mem with mem | mem
  · exact jobs.known j mem
  · rw [List.mem_singleton.1 mem]
    exact ⟨positive,high,Nat.lt_succ_self _⟩
  · exact jobs.attended j mem
  · rw [List.mem_singleton.1 mem]
    exact fun _ => ⟨push,listed,rfl⟩
  · exact jobs.closing j mem
  · rw [List.mem_singleton.1 mem]
    exact fun closing => by cases closing
  · exact jobs.pulls j mem
  · rw [List.mem_singleton.1 mem]
    exact fun _ _ => rfl

theorem payloadStart (h : Inv s) {j : DispatchJob} (served : j.served = true) :
    s.payload + 1 + s.missed = (s.jobs ++ [j]).countP DispatchJob.served := by
  have counted := h.payload
  rw [List.countP_append,List.countP_singleton,if_pos served]
  push_cast
  omega

/- A transfer from the cache or the disk, for a session no agent pulls for. -/
theorem startKeeps (h : Inv s) (listed : s.pushSessions sid = some push) (jobless : ∀ j ∈ s.jobs, j.sessionId ≠ sid)
    (pushless : ∀ a agent, s.agents a = some agent → agent.pushSessionId ≠ sid) (plain : ∀ psid, transfer ≠ .pullFile psid) :
    Inv (handleStartTransferData s transfer sid push.client) := by
  have more := Nat.le_succ s.made
  have agents := agentsMade h.agents more
  refine ⟨⟨fun d dl here => (h.sessions.old d dl here).trans_le more,h.sessions.owned,h.sessions.owner⟩,jobsStart transfer h listed jobless,
    ⟨agents.old,agents.push,agents.pull,agents.made,agents.url,?_,?_,agents.once,agents.connecting⟩,h.queue,
    ⟨h.pulls.old,h.pulls.agent,?_,h.pulls.mine⟩,⟨h.responses.once,fun r mem => (h.responses.old r mem).trans_le more,
      h.responses.fresh,h.responses.waiting⟩,payloadStart h rfl,h.ids⟩
  · intro b other here before j mem
    rcases List.mem_append.1 mem with mem | mem
    · exact h.agents.first b other here before j mem
    · rw [List.mem_singleton.1 mem]
      exact Ne.symm (pushless b other here)
  · intro b other here later
    obtain ⟨info,mine,there⟩ := h.agents.later b other here later
    refine ⟨info,fun j mem same => ?_,fun session => ?_⟩
    · rcases List.mem_append.1 mem with mem | mem
      · exact mine j mem same
      · rw [List.mem_singleton.1 mem] at same
        exact absurd (h.agents.made b other _ here same) (lt_irrefl _)
    · obtain ⟨j,mem,same⟩ := there session
      exact ⟨j,List.mem_append_left _ mem,same⟩
  · intro psid wakes
    refine h.pulls.written psid ?_
    rcases wakes with ⟨j,mem,pulls⟩ | notice
    · rcases List.mem_append.1 mem with mem | mem
      · exact .inl ⟨j,mem,pulls⟩
      · rw [List.mem_singleton.1 mem] at pulls
        exact absurd pulls (plain psid)
    · exact .inr notice

/- The first package of an agent: its transfer is made and given to a job. -/
structure Began (s : State) (agent agent' : PullHttpAgent) : Prop where
  pull : agent'.pullSessionId = agent.pullSessionId
  url : agent'.requestUrl = agent.requestUrl
  push : agent'.pushSessionId = agent.pushSessionId
  first : agent'.recvedFirstPackage = true
  transfer : agent'.transferAgent = some s.made
  connect : agent'.connectOk = agent.connectOk
  info : agent'.pullInfoOk = agent.pullInfoOk

def State.began (s : State) (a : Nat) (agent : PullHttpAgent) : State :=
  { s with
    agents := Function.update s.agents a (some agent)
    pullSessions := Function.update s.pullSessions agent.pullSessionId
      (some ⟨agent.requestUrl,agent.pushSessionId,some (some a)⟩) }

theorem beganAgents {agent' : PullHttpAgent} (h : Inv s) (found : s.agents a = some agent) (began : Began s agent agent')
    (info : agent.pullInfoOk = true) (free : a ∉ s.connecting) :
    AgentsOk (s.made + 1) s.pushIds s.pullIds s.pushSessions (Function.update s.agents a (some agent')) s.connecting
      (s.jobs ++ [⟨agent'.pushSessionId,push.client,s.made,.pullFile agent'.pullSessionId,false,false⟩]) := by
  have agents := agentsMade h.agents (Nat.le_succ s.made)
  have from_ : ∀ {b other}, Function.update s.agents a (some agent') b = some other → ∃ before, s.agents b = some before ∧
      other.pullSessionId = before.pullSessionId ∧ other.pushSessionId = before.pushSessionId ∧
      other.requestUrl = before.requestUrl ∧ other.connectOk = before.connectOk ∧ other.pullInfoOk = before.pullInfoOk := by
    intro b other here
    rcases updateSome.1 here with ⟨rfl,rfl⟩ | ⟨_,here⟩
    · exact ⟨agent,found,began.pull,began.push,began.url,began.connect,began.info⟩
    · exact ⟨other,here,rfl,rfl,rfl,rfl,rfl⟩
  refine ⟨?_,?_,?_,?_,?_,?_,?_,h.agents.once,?_⟩
  · intro b other here
    obtain ⟨before,there,pull,push_,_,connect,info⟩ := from_ here
    rw [pull,push_,connect,info]
    exact agents.old b before there
  · intro b d one two here here' shared
    obtain ⟨one',there,_,push_,_⟩ := from_ here
    obtain ⟨two',there',_,push',_⟩ := from_ here'
    exact h.agents.push b d one' two' there there' (by rw [← push_,shared,push'])
  · intro b d one two here here' shared
    obtain ⟨one',there,pull,_⟩ := from_ here
    obtain ⟨two',there',pull',_⟩ := from_ here'
    exact h.agents.pull b d one' two' there there' (by rw [← pull,shared,pull'])
  · intro b other t here transfer
    rcases updateSome.1 here with ⟨_,rfl⟩ | ⟨_,here⟩
    · rw [began.transfer] at transfer
      cases transfer
      exact Nat.lt_succ_self _
    · exact agents.made b other t here transfer
  · intro b other push' here listed
    obtain ⟨before,there,_,push_,url,_⟩ := from_ here
    rw [url]
    exact h.agents.url b before push' there (by rw [← push_,listed])
  · intro b other here untouched j mem
    rcases updateSome.1 here with ⟨_,rfl⟩ | ⟨off,here⟩
    · rw [began.first] at untouched
      cases untouched
    · rcases List.mem_append.1 mem with mem | mem
      · exact h.agents.first b other here untouched j mem
      · rw [List.mem_singleton.1 mem,began.push]
        exact fun shared => off (h.agents.push b a other agent here found shared.symm)
  · intro b other here later
    rcases updateSome.1 here with ⟨_,rfl⟩ | ⟨off,here⟩
    · refine ⟨by rw [began.info,info],fun j mem same => ?_,fun _ => ⟨_,List.mem_append_right _ (List.mem_singleton_self _),began.transfer⟩⟩
      rw [began.transfer] at same
      rcases List.mem_append.1 mem with mem | mem
      · have old := (h.jobs.known j mem).2.2
        have here := Option.some.inj same
        omega
      · rw [List.mem_singleton.1 mem]
        exact ⟨rfl,rfl⟩
    · obtain ⟨info,mine,there⟩ := h.agents.later b other here later
      refine ⟨info,fun j mem same => ?_,fun session => ?_⟩
      · rcases List.mem_append.1 mem with mem | mem
        · exact mine j mem same
        · rw [List.mem_singleton.1 mem] at same
          exact absurd (h.agents.made b other _ here same) (lt_irrefl _)
      · obtain ⟨j,mem,same⟩ := there session
        exact ⟨j,List.mem_append_left _ mem,same⟩
  · intro b mem
    obtain ⟨other,here,unopened⟩ := h.agents.connecting b mem
    exact ⟨other,updateSome.2 (.inr ⟨fun same => free (same ▸ mem),here⟩),unopened⟩

theorem beganPulls {agent' : PullHttpAgent} (h : Inv s) (found : s.agents a = some agent) (began : Began s agent agent') :
    PullsOk s.pullIds (s.began a agent').pullSessions (s.began a agent').agents
      (s.jobs ++ [⟨agent'.pushSessionId,push.client,s.made,.pullFile agent'.pullSessionId,false,false⟩]) s.notices := by
  have bound : agent'.pullSessionId ≤ s.pullIds := by
    rw [began.pull]
    exact (h.agents.old a agent found).2.2.2.1
  refine ⟨?_,?_,?_,?_⟩
  · intro psid pull listed
    rcases updateSome.1 listed with ⟨rfl,_⟩ | ⟨_,listed⟩
    · exact bound
    · exact h.pulls.old psid pull listed
  · intro psid pull b listed written
    by_cases mine : b = a
    · exact Option.isSome_iff_exists.2 ⟨agent',updateSome.2 (.inl ⟨mine,rfl⟩)⟩
    · rcases updateSome.1 listed with ⟨_,rfl⟩ | ⟨_,listed⟩
      · exact absurd (Option.some.inj (Option.some.inj written)).symm mine
      · obtain ⟨other,there⟩ := Option.isSome_iff_exists.1 (h.pulls.agent psid pull b listed written)
        exact Option.isSome_iff_exists.2 ⟨other,updateSome.2 (.inr ⟨mine,there⟩)⟩
  · intro psid wakes
    have new : psid = agent'.pullSessionId ∨ Wakes s.jobs s.notices psid := by
      rcases wakes with ⟨j,mem,pulls⟩ | notice
      · rcases List.mem_append.1 mem with mem | mem
        · exact .inr (.inl ⟨j,mem,pulls⟩)
        · rw [List.mem_singleton.1 mem] at pulls
          exact .inl (TransferAgent.pullFile.inj pulls).symm
      · exact .inr (.inr notice)
    refine ⟨?_,fun pull listed => ?_⟩
    · rcases new with rfl | wakes
      · exact bound
      · exact (h.pulls.written psid wakes).1
    · rcases updateSome.1 listed with ⟨_,rfl⟩ | ⟨off,listed⟩
      · exact Option.some_ne_none _
      · exact (h.pulls.written psid (new.resolve_left off)).2 pull listed
  · intro b other psid pull here listed written
    rcases updateSome.1 listed with ⟨rfl,rfl⟩ | ⟨_,old⟩
    · have same := Option.some.inj (Option.some.inj written)
      rcases updateSome.1 here with ⟨_,rfl⟩ | ⟨off,_⟩
      · rfl
      · exact absurd same.symm off
    · rcases updateSome.1 here with ⟨rfl,rfl⟩ | ⟨_,here⟩
      · rw [began.pull]
        exact h.pulls.mine _ agent psid pull found old written
      · exact h.pulls.mine b other psid pull here old written

theorem beganKeeps {agent' : PullHttpAgent} (h : Inv s) (found : s.agents a = some agent) (began : Began s agent agent')
    (info : agent.pullInfoOk = true) (before : agent.recvedFirstPackage = false) (free : a ∉ s.connecting)
    (listed : s.pushSessions agent.pushSessionId = some push) :
    Inv (handleStartTransferData (s.began a agent') (.pullFile agent'.pullSessionId) agent'.pushSessionId push.client) := by
  have more := Nat.le_succ s.made
  have waits : ∀ {u b}, Waits (s.began a agent').agents u b ↔ Waits s.agents u b :=
    waitsSame found began.info began.url
  have jobs := jobsStart (.pullFile agent'.pullSessionId) h listed (h.agents.first a agent found before)
  rw [← began.push] at jobs
  refine ⟨⟨fun d dl here => (h.sessions.old d dl here).trans_le more,h.sessions.owned,h.sessions.owner⟩,jobs,
    beganAgents h found began info free,⟨?_,?_,?_⟩,beganPulls h found began,
    ⟨h.responses.once,fun r mem => (h.responses.old r mem).trans_le more,h.responses.fresh,?_⟩,payloadStart h rfl,h.ids⟩
  · intro u
    exact (h.queue.queued u).trans (or_congr (exists_congr fun b => waits.symm) Iff.rfl)
  · exact fun u b d one two => h.queue.single u b d (waits.1 one) (waits.1 two)
  · exact fun u b one => h.queue.other u b (waits.1 one)
  · intro b other push' here later listed'
    rcases updateSome.1 here with ⟨_,rfl⟩ | ⟨_,here⟩
    · rw [began.info,info] at later
      cases later
    · exact h.responses.waiting b other push' here later listed'

end Starting

section Others
variable {s : State}

/- A response to a client that stays. -/
theorem respondKeeps {r : Response} {client : HttpClient} (h : Inv s) (found : s.clients r.client = some client)
    (ok : client.recvMsgOk = true) (first : ¬s.answered r.client)
    (quiet : ∀ a agent push, s.agents a = some agent → agent.pullInfoOk = false → s.pushSessions agent.pushSessionId = some push →
      push.client ≠ r.client) : Inv { s with responses := r :: s.responses } := by
  refine ⟨h.sessions,h.jobs,h.agents,h.queue,h.pulls,⟨?_,?_,?_,?_⟩,h.payload,h.ids⟩
  · rw [List.map_cons,List.nodup_cons]
    exact ⟨fun mem => first (List.mem_map.1 mem),h.responses.once⟩
  · intro r' mem
    rcases List.mem_cons.1 mem with rfl | mem
    · exact h.sessions.old _ client found
    · exact h.responses.old r' mem
  · intro d dl here before r' mem
    rcases List.mem_cons.1 mem with rfl | mem
    · rintro rfl
      rw [found] at here
      cases here
      rw [ok] at before
      cases before
    · exact h.responses.fresh d dl here before r' mem
  · intro a agent push here before listed r' mem
    rcases List.mem_cons.1 mem with rfl | mem
    · exact Ne.symm (quiet a agent push here before listed)
    · exact h.responses.waiting a agent push here before listed r' mem

/- The nonblocking_connect_handler of an agent is done. -/
theorem connectDone (h : Inv s) (a : Nat) : Inv { s with connecting := s.connecting.erase a } :=
  ⟨h.sessions,h.jobs,⟨h.agents.old,h.agents.push,h.agents.pull,h.agents.made,h.agents.url,h.agents.first,h.agents.later,
    h.agents.once.erase a,fun b mem => h.agents.connecting b (List.mem_of_mem_erase mem)⟩,h.queue,h.pulls,h.responses,h.payload,h.ids⟩

theorem connectBegun {a : Nat} {agent : PullHttpAgent} (h : Inv s) (found : s.agents a = some agent)
    (unopened : agent.connectOk = false) (new : a ∉ s.connecting) : Inv { s with connecting := a :: s.connecting } := by
  refine ⟨h.sessions,h.jobs,⟨h.agents.old,h.agents.push,h.agents.pull,h.agents.made,h.agents.url,h.agents.first,h.agents.later,
    List.nodup_cons.2 ⟨new,h.agents.once⟩,fun b mem => ?_⟩,h.queue,h.pulls,h.responses,h.payload,h.ids⟩
  rcases List.mem_cons.1 mem with rfl | mem
  · exact ⟨agent,found,unopened⟩
  · exact h.agents.connecting b mem

theorem filesKeeps (h : Inv s) (files : Str → Option FileInfo) : Inv { s with files := files } :=
  ⟨h.sessions,h.jobs,h.agents,h.queue,h.pulls,h.responses,h.payload,h.ids⟩

/- Nobody is woken who was not before. -/
theorem noticesKeeps {notices : List NotifyEvent} (h : Inv s)
    (fewer : ∀ psid, Wakes s.jobs notices psid → Wakes s.jobs s.notices psid) : Inv { s with notices := notices } :=
  ⟨h.sessions,h.jobs,h.agents,h.queue,⟨h.pulls.old,h.pulls.agent,fun psid wakes => h.pulls.written psid (fewer psid wakes),
    h.pulls.mine⟩,h.responses,h.payload,h.ids⟩

/- A job is marked as stopped. -/
theorem stopKeeps {itor : Nat} {j : DispatchJob} (h : Inv s) (found : s.jobs[itor]? = some j) :
    Inv { s with jobs := s.jobs.set itor { j with stopped := true } } := by
  obtain ⟨front,back,split,_,set_⟩ := findSplit found
  rw [set_]
  have from_ : ∀ i ∈ front ++ { j with stopped := true } :: back, ∃ i' ∈ s.jobs, i.sessionId = i'.sessionId ∧
      i.client = i'.client ∧ i.transferAgent = i'.transferAgent ∧ i.agent = i'.agent ∧ i.served = i'.served := by
    intro i mem
    rw [split]
    rcases List.mem_append.1 mem with mem | mem
    · exact ⟨i,List.mem_append_left _ mem,rfl,rfl,rfl,rfl,rfl⟩
    · rcases List.mem_cons.1 mem with rfl | mem
      · exact ⟨j,by simp,rfl,rfl,rfl,rfl,rfl⟩
      · exact ⟨i,List.mem_append_right _ (List.mem_cons_of_mem _ mem),rfl,rfl,rfl,rfl,rfl⟩
  have to_ : ∀ i ∈ s.jobs, ∃ i' ∈ front ++ { j with stopped := true } :: back, i.transferAgent = i'.transferAgent := by
    intro i mem
    rw [split] at mem
    rcases List.mem_append.1 mem with mem | mem
    · exact ⟨i,List.mem_append_left _ mem,rfl⟩
    · rcases List.mem_cons.1 mem with rfl | mem
      · exact ⟨{ i with stopped := true },by simp,rfl⟩
      · exact ⟨i,List.mem_append_right _ (List.mem_cons_of_mem _ mem),rfl⟩
  refine ⟨h.sessions,⟨?_,?_,?_,?_,?_⟩,⟨h.agents.old,h.agents.push,h.agents.pull,h.agents.made,h.agents.url,?_,?_,h.agents.once,
    h.agents.connecting⟩,h.queue,⟨h.pulls.old,h.pulls.agent,?_,h.pulls.mine⟩,h.responses,?_,h.ids⟩
  · have ids := h.jobs.ids
    rw [split,List.map_append,List.map_cons] at ids
    rw [List.map_append,List.map_cons]
    exact ids
  · intro i mem
    obtain ⟨i',there,id,_,transfer,_⟩ := from_ i mem
    rw [id,transfer]
    exact h.jobs.known i' there
  · intro i mem served
    obtain ⟨i',there,id,client,_,_,same⟩ := from_ i mem
    rw [id,client]
    exact h.jobs.attended i' there (same ▸ served)
  · intro i mem closing
    obtain ⟨i',there,id,_,_,_,same⟩ := from_ i mem
    rw [id]
    exact h.jobs.closing i' there (same ▸ closing)
  · intro i mem psid pulls
    obtain ⟨i',there,_,_,_,agent,same⟩ := from_ i mem
    rw [same]
    exact h.jobs.pulls i' there psid (agent ▸ pulls)
  · intro b other here before i mem
    obtain ⟨i',there,id,_⟩ := from_ i mem
    rw [id]
    exact h.agents.first b other here before i' there
  · intro b other here later
    obtain ⟨info,mine,there⟩ := h.agents.later b other here later
    refine ⟨info,fun i mem same => ?_,fun session => ?_⟩
    · obtain ⟨i',there,id,_,transfer,agent,_⟩ := from_ i mem
      rw [id,agent]
      exact mine i' there (by rw [same,transfer])
    · obtain ⟨i,mem,same⟩ := there session
      obtain ⟨i',mem,transfer⟩ := to_ i mem
      exact ⟨i',mem,by rw [same,transfer]⟩
  · intro psid wakes
    refine h.pulls.written psid ?_
    rcases wakes with ⟨i,mem,pulls⟩ | notice
    · obtain ⟨i',there,_,_,_,agent,_⟩ := from_ i mem
      exact .inl ⟨i',there,agent ▸ pulls⟩
    · exact .inr notice
  · have counted := h.payload
    rw [split] at counted
    rw [counted,List.countP_append,List.countP_append,List.countP_cons,List.countP_cons]
    rfl

/- A job whose transfer has been closed at last. -/
theorem reapKeeps {itor : Nat} {j : DispatchJob} (h : Inv s) (found : s.jobs[itor]? = some j) (closing : j.closePending = true) :
    Inv { s with jobs := s.jobs.eraseIdx itor } := by
  obtain ⟨front,back,split,erase,_⟩ := findSplit found
  rw [erase]
  have mem : j ∈ s.jobs := by
    rw [split]
    simp
  have unserved : j.served = false := by
    unfold DispatchJob.served
    rw [closing]
    rfl
  have gone := h.jobs.closing j mem unserved
  have dropped : Dropped j.sessionId s.jobs (front ++ back) := droppedErase split h.jobs.ids
  have unlisted : Function.update s.pushSessions j.sessionId none = s.pushSessions :=
    Function.update_eq_self_iff.2 gone.symm
  have jobs := jobsDropped h.jobs dropped
  have agents := agentsDropped (s := s) h.agents dropped
  rw [unlisted] at jobs agents
  refine ⟨h.sessions,jobs,agents,h.queue,pullsDropped (s := s) h.pulls dropped,h.responses,?_,h.ids⟩
  have counted := h.payload
  rw [split] at counted
  rw [counted,List.countP_append,List.countP_append,List.countP_cons_of_neg (by rw [unserved]; exact Bool.false_ne_true)]

end Others

end CuteNdk.PullSessions
