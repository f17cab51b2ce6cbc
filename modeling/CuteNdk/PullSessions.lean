import CuteNdk.Lib.CString
import CuteNdk.Lib.Run
import Mathlib.Logic.Function.Basic

/-! The sessions of fcache: clients, the sessions that push to them, the agents that pull from an
origin, and the jobs of dispatch_data_task. The reactor runs one handler at a time, and the
dispatching thread runs beside it; a step is a handler, or what that thread does under its mutex.
A result of none is undefined: an object that is gone is used, an assert fails, an id overflows. -/
namespace CuteNdk.PullSessions
open Lib.CString

def intMax : Int := 2147483647

/- client is the address of an http_client. -/
structure PushSession where
  client : Nat
  requestUrl : Str
  rangeBeginPos : Int
  rangeEndPos : Int
  deriving DecidableEq, Repr

/- pull_agent_ is none until it is written, and some none is the null pointer. -/
structure PullSession where
  requestUrl : Str
  pushSessionId : Int
  pullAgent : Option (Option Nat)
  deriving DecidableEq, Repr

structure HttpClient where
  sessionId : Int
  recvMsgOk : Bool
  head : Bool
  deriving DecidableEq, Repr

/- A pull_file_transfer knows its pull session. -/
inductive TransferAgent where
  | memCache
  | serialFile
  | pullFile (pullSessionId : Int)
  deriving DecidableEq, Repr

/- transferAgent is an address, and agent is what is there. -/
structure DispatchJob where
  sessionId : Int
  client : Nat
  transferAgent : Nat
  agent : TransferAgent
  closePending : Bool
  stopped : Bool
  deriving DecidableEq, Repr

/- A pull_http_agent with what it reads of its pull session. suspended is what the reactor has on
its handle, and suspend is suspend_. -/
structure PullHttpAgent where
  pullSessionId : Int
  requestUrl : Str
  pushSessionId : Int
  connectOk : Bool
  pullInfoOk : Bool
  recvedFirstPackage : Bool
  suspend : Bool
  suspended : Bool
  transferAgent : Option Nat
  deriving DecidableEq, Repr

structure FileInfo where
  length : Int
  completed : Bool
  deriving DecidableEq, Repr

inductive NotifyEvent where
  | deleteClient (sessionId : Int)
  | resumeHandle (sessionId : Int)
  deriving DecidableEq, Repr

structure Response where
  client : Nat
  status : Nat
  beginPos : Int
  endPos : Int
  fileSize : Int
  deriving DecidableEq, Repr

/- clients and agents are by address, and made are the addresses given out. connecting are the
agents of which a nonblocking_connect_handler takes care. responses are all that were sent. forgotten
are the urls whose header came when their client was gone, and missed counts the clients that left
with a session but without a job. -/
structure State where
  made : Nat
  clients : Nat → Option HttpClient
  pushIds : Int
  pushSessions : Int → Option PushSession
  pullIds : Int
  pullSessions : Int → Option PullSession
  queue : Str → Bool
  agents : Nat → Option PullHttpAgent
  connecting : List Nat
  files : Str → Option FileInfo
  jobs : List DispatchJob
  notices : List NotifyEvent
  payload : Int
  responses : List Response
  forgotten : List Str
  missed : Nat

def idle : State where
  made := 0
  clients := fun _ => none
  pushIds := 0
  pushSessions := fun _ => none
  pullIds := 1
  pullSessions := fun _ => none
  queue := fun _ => false
  agents := fun _ => none
  connecting := []
  files := fun _ => none
  jobs := []
  notices := []
  payload := 0
  responses := []
  forgotten := []
  missed := 0

/- find of both managers. -/
def State.findPush (s : State) (sid : Int) : Option PushSession := if sid < 0 then none else s.pushSessions sid

def State.findPull (s : State) (sid : Int) : Option PullSession := if sid < 0 then none else s.pullSessions sid

/- The statuses response_to_client has a text for. -/
def statuses : List Nat := [200,206,304,400,403,404,408,413,416,501,503]

def responseToClient (s : State) (r : Response) : Option State :=
  if (s.clients r.client).isSome ∧ r.status ∈ statuses then some { s with responses := r :: s.responses } else none

/- delete_client_i. canceled: no read of a serial_file_transfer is under way when it is closed. -/
def deleteClient (s : State) (sid : Int) (canceled : Bool) : Option State :=
  let itor := s.jobs.findIdx fun j => j.sessionId = sid
  match s.jobs[itor]? with
  | none => some { s with missed := s.missed + 1 }
  | some j =>
    if j.agent = .serialFile ∧ ¬canceled then
      some { s with jobs := s.jobs.set itor { j with closePending := true } }
    else if (s.clients j.client).isNone then none
    else some { s with jobs := s.jobs.eraseIdx itor }

/- ~http_client, which handle_close and close come to. -/
def destroyClient (s : State) (c : Nat) (canceled : Bool) : Option State :=
  (s.clients c).bind fun client =>
    if client.sessionId = -1 then some { s with clients := Function.update s.clients c none }
    else
      (deleteClient { s with payload := s.payload - 1 } client.sessionId canceled).map fun s => { s with
        pushSessions := Function.update s.pushSessions client.sessionId none
        clients := Function.update s.clients c none }

/- A response and -1 from the handler. -/
def refuse (s : State) (r : Response) (canceled : Bool) : Option State :=
  (responseToClient s r).bind fun s => destroyClient s r.client canceled

/- The same once there is a session: it is removed first. -/
def answer (s : State) (sid : Int) (r : Response) (canceled : Bool) : Option State :=
  (responseToClient s r).bind fun s =>
    destroyClient { s with pushSessions := Function.update s.pushSessions sid none } r.client canceled

/- handle_start_transfer_data, with the transfer agent that was made for it. -/
def handleStartTransferData (s : State) (agent : TransferAgent) (sid : Int) (client : Nat) : State :=
  { s with
    made := s.made + 1
    jobs := s.jobs ++ [⟨sid,client,s.made,agent,false,false⟩]
    payload := s.payload + 1 }

/- insert and remove of queue_pull_sessionmgr. -/
def insertQueue (s : State) (url : Str) : Option State :=
  if s.queue url then none else some { s with queue := Function.update s.queue url true }

def removeQueue (s : State) (url : Str) : Option State :=
  if s.queue url then some { s with queue := Function.update s.queue url false } else none

def handlePullFileFailed (s : State) (url : Str) (pushSid : Int) (multiPull canceled : Bool) : Option State :=
  (match s.findPush pushSid with
    | none => some s
    | some push => refuse s ⟨push.client,404,0,0,0⟩ canceled).bind fun s =>
      if multiPull then some s else removeQueue s url

/- handle_close and the destructor of a pull_http_agent. -/
def closeAgent (s : State) (a : Nat) (canceled : Bool) : Option State :=
  (s.agents a).bind fun agent =>
    (if agent.pullInfoOk then some s
      else handlePullFileFailed s agent.requestUrl agent.pushSessionId false canceled).map fun s => { s with
        agents := Function.update s.agents a none
        pullSessions := Function.update s.pullSessions agent.pullSessionId none }

/- What connect of the connector comes to at once. -/
inductive Connect where
  | opened
  | inProgress
  | failed
  deriving DecidableEq, Repr

/- host: there is one in the url. -/
structure Pull where
  host : Bool
  diskFull : Bool
  connect : Connect
  deriving DecidableEq, Repr

def handlePullFile (s : State) (url : Str) (pushSid : Int) (p : Pull) (canceled : Bool) : Option State :=
  if ¬p.host then some s
  else
    let psid := s.pullIds + 2
    if intMax < psid ∨ (s.pullSessions psid).isSome then none
    else
      let s := { s with
        pullIds := psid
        pullSessions := Function.update s.pullSessions psid (some ⟨url,pushSid,none⟩) }
      if s.queue url then handlePullFileFailed s url pushSid true canceled
      else if p.diskFull then handlePullFileFailed s url pushSid true canceled
      else
        (insertQueue s url).bind fun s =>
          let a := s.made
          let s := { s with
            made := a + 1
            agents := Function.update s.agents a
              (some ⟨psid,url,pushSid,decide (p.connect = .opened),false,false,false,false,none⟩) }
          match p.connect with
          | .opened => some s
          | .inProgress => some { s with connecting := a :: s.connecting }
          | .failed => closeAgent s a canceled

/- What handle_request takes from the header and finds out. range is the result of get_range, modified
is check_modified, opens is open of the transfer agent, and sent whether the response could be sent. -/
structure Request where
  head : Bool
  url : Str
  range : Nat
  beginPos : Int
  endPos : Int
  modified : Bool
  memCache : Bool
  opens : Bool
  sent : Bool
  pull : Pull
  deriving DecidableEq, Repr

/- handle_request for a file that is there. -/
def handleFile (s : State) (c : Nat) (sid : Int) (r : Request) (file : FileInfo) (canceled : Bool) : Option State :=
  let endPos := if r.endPos = -1 then file.length - 1 else r.endPos
  let contentLength := endPos - r.beginPos + 1
  if file.completed ∧ r.modified then answer s sid ⟨c,304,0,0,0⟩ canceled
  else if r.head then answer s sid ⟨c,r.range,r.beginPos,endPos,contentLength⟩ canceled
  else if ¬file.completed then answer s sid ⟨c,501,0,0,0⟩ canceled
  else if contentLength = 0 ∧ r.range = 206 then answer s sid ⟨c,r.range,r.beginPos,endPos,file.length⟩ canceled
  else if ¬r.opens then answer s sid ⟨c,503,0,0,0⟩ canceled
  else if ¬r.sent then answer s sid ⟨c,r.range,r.beginPos,endPos,file.length⟩ canceled
  else
    (responseToClient s ⟨c,r.range,r.beginPos,endPos,file.length⟩).map fun s =>
      handleStartTransferData s (if r.memCache then .memCache else .serialFile) sid c

/- handle_request behind parse_params. A result of -1 closes the client. -/
def handleRequest (concurrency : Int) (s : State) (c : Nat) (r : Request) (canceled : Bool) : Option State :=
  if concurrency < s.payload then refuse s ⟨c,503,0,0,0⟩ canceled
  else if r.range ≠ 200 ∧ r.range ≠ 206 then
    refuse { s with clients := Function.update s.clients c (some ⟨-1,true,r.head⟩) } ⟨c,r.range,0,0,0⟩ canceled
  else
    let sid := s.pushIds + 2
    if intMax < sid ∨ (s.pushSessions sid).isSome then none
    else
      let s := { s with
        pushIds := sid
        clients := Function.update s.clients c (some ⟨sid,true,r.head⟩)
        pushSessions := Function.update s.pushSessions sid (some ⟨c,r.url,r.beginPos,r.endPos⟩) }
      match s.files r.url with
      | none => handlePullFile s r.url sid r.pull canceled
      | some file => handleFile s c sid r file canceled

/- handle_pull_file_ok. The url of a client that is gone stays in the queue. -/
def handlePullFileOk (s : State) (url : Str) (pushSid entityLength : Int) (sent canceled : Bool) : Option State :=
  let file := (s.files url).getD ⟨entityLength,false⟩
  let s := { s with files := Function.update s.files url (some file) }
  match s.findPush pushSid with
  | none => some { s with forgotten := url :: s.forgotten }
  | some push =>
    (removeQueue s push.requestUrl).bind fun s =>
      let status := if push.rangeBeginPos ≠ 0 ∨ push.rangeEndPos ≠ -1 then 206 else 200
      let endPos := if push.rangeEndPos = -1 then file.length - 1 else push.rangeEndPos
      (responseToClient s ⟨push.client,status,push.rangeBeginPos,endPos,entityLength⟩).bind fun s =>
        (s.clients push.client).bind fun client =>
          if ¬sent ∨ client.head then destroyClient s push.client canceled
          else if entityLength = 0 then
            destroyClient { s with files := Function.update s.files url (some { file with completed := true }) }
              push.client canceled
          else some s

/- pipe: there is a pipe buffer. full: it does not take all. suspends is suspend_handler, opens is open
of the pull_file_transfer, and completed whether that was the rest of the content. -/
structure Content where
  pipe : Bool
  full : Bool
  suspends : Bool
  opens : Bool
  completed : Bool
  deriving DecidableEq, Repr

/- start_transfer of an agent that a job still has. -/
def State.startTransfer (s : State) (t : Option Nat) : Option State :=
  t.bind fun t => if t ∈ s.jobs.map (·.transferAgent) then some s else none

/- handle_content from the first package on. -/
def contentTail (s : State) (a : Nat) (agent : PullHttpAgent) (c : Content) (canceled : Bool) : Option State :=
  if c.completed then (s.startTransfer agent.transferAgent).bind fun s => closeAgent s a canceled else some s

def handleContent (s : State) (a : Nat) (c : Content) (canceled : Bool) : Option State :=
  (s.agents a).bind fun agent =>
    if ¬c.pipe then closeAgent s a canceled
    else if c.full ∧ ((s.findPush agent.pushSessionId).isNone ∨ ¬c.suspends) then closeAgent s a canceled
    else
      let agent := if c.full then { agent with suspend := true, suspended := true } else agent
      if ¬agent.recvedFirstPackage then
        match s.findPush agent.pushSessionId with
        | none => closeAgent s a canceled
        | some push =>
          if ¬c.opens then closeAgent s a canceled
          else
            let agent := { agent with recvedFirstPackage := true, transferAgent := some s.made }
            let s := { s with
              agents := Function.update s.agents a (some agent)
              pullSessions := Function.update s.pullSessions agent.pullSessionId
                (some ⟨agent.requestUrl,agent.pushSessionId,some (some a)⟩) }
            contentTail (handleStartTransferData s (.pullFile agent.pullSessionId) agent.pushSessionId push.client)
              a agent c canceled
      else if agent.suspend then
        (s.startTransfer agent.transferAgent).bind fun s =>
          let agent := { agent with suspend := false }
          contentTail { s with agents := Function.update s.agents a (some agent) } a agent c canceled
      else contentTail { s with agents := Function.update s.agents a (some agent) } a agent c canceled

/- open of the file that is stored to. -/
inductive OpenFile where
  | ok
  | noEntry
  | failed
  deriving DecidableEq, Repr

/- What comes of the bytes of a header. -/
inductive Reply where
  | uncompleted
  | invalid
  | ok (entityLength contentLength : Int) (sent : Bool) (file : OpenFile) (attached : Option Content)
  deriving DecidableEq, Repr

def handleResponse (s : State) (a : Nat) (r : Reply) (canceled : Bool) : Option State :=
  (s.agents a).bind fun agent =>
    match r with
    | .uncompleted => some s
    | .invalid => closeAgent s a canceled
    | .ok entityLength contentLength sent file attached =>
      let s := { s with agents := Function.update s.agents a (some { agent with pullInfoOk := true }) }
      (handlePullFileOk s agent.requestUrl agent.pushSessionId entityLength sent canceled).bind fun s =>
        if contentLength = 0 then closeAgent s a canceled
        else
          match file with
          | .failed => closeAgent s a canceled
          | .noEntry => closeAgent { s with files := Function.update s.files agent.requestUrl none } a canceled
          | .ok =>
            match attached with
            | none => some s
            | some content => handleContent s a content canceled

/- handle_msg of reactor_event_handler. -/
def handleMsg (s : State) (e : NotifyEvent) (canceled : Bool) : Option State :=
  match e with
  | .deleteClient sid =>
    match s.findPush sid with
    | none => some s
    | some push => destroyClient s push.client canceled
  | .resumeHandle sid =>
    match s.findPull sid with
    | none => some s
    | some pull => pull.pullAgent.bind fun agent =>
      match agent with
      | none => some s
      | some a => (s.agents a).map fun agent =>
        { s with agents := Function.update s.agents a (some { agent with suspended := false }) }

/- refuse is handle_data up to parse_params, and handle_timeout. leave is handle_close from outside.
stop, reap and wake are dispatch_data at a job. -/
inductive Act where
  | accept
  | refuse (c status : Nat)
  | leave (c : Nat) (canceled : Bool)
  | request (c : Nat) (r : Request) (canceled : Bool)
  | connected (a : Nat) (opens canceled : Bool)
  | connectTimeout (a : Nat)
  | connectFails (a : Nat) (canceled : Bool)
  | response (a : Nat) (r : Reply) (canceled : Bool)
  | content (a : Nat) (c : Content) (canceled : Bool)
  | closed (a : Nat) (canceled : Bool)
  | complete (url : Str)
  | stop (itor : Nat) (notified : Bool)
  | wake (itor : Nat)
  | reap (itor : Nat)
  | notice (canceled : Bool)
  deriving DecidableEq, Repr

def ranges : List Nat := [200,206,416,501]

/- dispatch_data at a job. transfer_data asks the client for its handle first. -/
def dispatch (s : State) (itor : Nat) (j : DispatchJob) (act : Act) : Option (Option State) :=
  match act with
  | .reap _ => if j.closePending then some (some { s with jobs := s.jobs.eraseIdx itor }) else none
  | .stop _ notified =>
    if j.closePending ∨ j.stopped then none
    else some ((s.clients j.client).map fun _ => { s with
      jobs := s.jobs.set itor { j with stopped := true }
      notices := if notified then s.notices ++ [.deleteClient j.sessionId] else s.notices })
  | .wake _ =>
    if j.closePending ∨ j.stopped then none
    else
      match j.agent with
      | .pullFile sid => some ((s.clients j.client).map fun _ => { s with notices := s.notices ++ [.resumeHandle sid] })
      | _ => none
  | _ => none

/- A step that is not to be made is none; the inner none is undefined. -/
def step (concurrency : Int) (o : Option State) (act : Act) : Option (Option State) :=
  o.bind fun s =>
    match act with
    | .accept => some (some { s with made := s.made + 1, clients := Function.update s.clients s.made (some ⟨-1,false,false⟩) })
    | .refuse c status =>
      (s.clients c).bind fun client =>
        if client.recvMsgOk = false ∧ status ∈ [400,408,413,501] then some (PullSessions.refuse s ⟨c,status,0,0,0⟩ true) else none
    | .leave c canceled => (s.clients c).map fun _ => destroyClient s c canceled
    | .request c r canceled =>
      (s.clients c).bind fun client =>
        if client.recvMsgOk = false ∧ r.range ∈ ranges then some (handleRequest concurrency s c r canceled) else none
    | .connected a opens canceled =>
      if a ∈ s.connecting then
        let s := { s with connecting := s.connecting.erase a }
        if opens then
          some ((s.agents a).map fun agent =>
            { s with agents := Function.update s.agents a (some { agent with connectOk := true }) })
        else some (closeAgent s a canceled)
      else none
    -- handle_timeout of the agent returns 0: nobody closes it
    | .connectTimeout a => if a ∈ s.connecting then some (some { s with connecting := s.connecting.erase a }) else none
    | .connectFails a canceled =>
      if a ∈ s.connecting then some (closeAgent { s with connecting := s.connecting.erase a } a canceled) else none
    | .response a r canceled =>
      (s.agents a).bind fun agent =>
        if agent.connectOk ∧ ¬agent.pullInfoOk then some (handleResponse s a r canceled) else none
    | .content a c canceled =>
      (s.agents a).bind fun agent =>
        if agent.pullInfoOk ∧ ¬agent.suspended then some (handleContent s a c canceled) else none
    | .closed a canceled =>
      (s.agents a).bind fun agent => if agent.connectOk then some (closeAgent s a canceled) else none
    | .complete url => (s.files url).map fun file =>
        some { s with files := Function.update s.files url (some { file with completed := true }) }
    | .notice canceled =>
      match s.notices with
      | [] => none
      | e :: notices => some (handleMsg { s with notices := notices } e canceled)
    | .stop itor notified => s.jobs[itor]?.bind fun j => dispatch s itor j (.stop itor notified)
    | .wake itor => s.jobs[itor]?.bind fun j => dispatch s itor j (.wake itor)
    | .reap itor => s.jobs[itor]?.bind fun j => dispatch s itor j (.reap itor)

end CuteNdk.PullSessions
