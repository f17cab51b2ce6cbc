import CuteNdk.HttpParser

/-! pull_http_agent, from the socket to the pipe buffers: handle_input,
handle_response and handle_content over recv_buff. A character stands for a byte.
A result of none is an access outside recv_buff or a pipe buffer that is not
there. -/
namespace CuteNdk.PullHttpAgent
open Lib.CString HttpParser

def recvBuffSize : Nat := 1024 * 32

/- What handle_response makes of a response: the content length, the range of a
206 and the length of the entity; or what is wrong. -/
inductive Decision where
  | rejected (errorDesc : String)
  | accepted (contentLength : Int) (range : Option (Int × Int)) (entityLength : Int)
  deriving DecidableEq, Repr

/- Why handle_input returned -1. -/
inductive Ending where
  | rejected
  | empty
  | failed
  | completed
  | closedByPeer
  deriving DecidableEq, Repr

/- data is what lies before wr_ptr of recv_buff. passed is what the pipe buffers
took, received how much of the stream came in. -/
structure State where
  data : Str
  rdPtr : Nat
  toRecvHeader : Bool
  contentLength : Int
  recvBytes : Nat
  recvedFirstPackage : Bool
  pipeBuffer : Bool
  received : Nat
  decision : Option Decision
  passed : Str
  ended : Option Ending
  deriving DecidableEq, Repr

def State.length (s : State) : Nat := s.data.length - s.rdPtr
def State.space (s : State) : Nat := recvBuffSize - s.data.length

/- What lies between rd_ptr and wr_ptr. -/
def State.unread (s : State) : Str := s.data.drop s.rdPtr

def open_ : State := ⟨[],0,true,0,0,false,false,0,none,[],none⟩

/- What a call meets: whether the file is found and opened, whether the pipe buffer
of the next chunk is found and how much it still takes, and whether the push
session is there and suspend_handler, or open of the transfer, succeeds. -/
structure Meets where
  file : Bool
  pipeBuffer : Bool
  room : Nat
  suspends : Bool
  transfer : Bool
  deriving DecidableEq, Repr

def State.ends (s : State) (e : Ending) : State := { s with ended := some e }

/- rd_ptr(copy_bytes), and reset when nothing is left. -/
def State.consume (s : State) (copyBytes : Nat) : State :=
  if copyBytes = 0 then s
  else if s.length = copyBytes then { s with data := [], rdPtr := 0 }
  else { s with rdPtr := s.rdPtr + copyBytes }

/- From the test of recv_bytes_ on. -/
def afterPackage (s : State) : Option State :=
  if (s.recvBytes : Int) = s.contentLength then
    if s.pipeBuffer then some ({ s with pipeBuffer := false }.ends .completed) else none
  else some s

/- From the test of recved_first_package_ on. -/
def afterWrite (m : Meets) (s : State) : Option State :=
  if s.recvedFirstPackage then afterPackage s
  else
    let s := { s with recvedFirstPackage := true }
    if m.transfer then afterPackage s else some (s.ends .failed)

def handleContent (m : Meets) (s : State) : Option State :=
  if s.pipeBuffer = false ∧ m.pipeBuffer = false then some (s.ends .failed)
  else
    let bytesToWrite := s.length
    if bytesToWrite = 0 then none
    else
      let copyBytes := min bytesToWrite m.room
      let s := { s.consume copyBytes with
        recvBytes := s.recvBytes + copyBytes
        passed := s.passed ++ s.unread.take copyBytes
        pipeBuffer := decide (copyBytes = bytesToWrite) }
      if copyBytes ≠ bytesToWrite ∧ m.suspends = false then some (s.ends .failed) else afterWrite m s

def notSupported (respCode : Int) : Decision :=
  .rejected ("Original Server Return " ++ toString respCode ++ "!")

/- What the response says, from behind its HTTP version on. -/
def responseDecision (beginPos endPos : Int) (ptr : Str) : Decision :=
  let statusCode := ptr.drop (strspn ptr [' ','\t'])
  let respCode := atoi statusCode
  if charAt statusCode 0 = '2' ∧ charAt statusCode 1 = '0' then
    match getValue ptr "Content-Length".toList with
    | none => .rejected "Response Is Invalid"
    | some (contentLengthP,_) =>
      let contentLength := strtoll contentLengthP
      if charAt statusCode 2 = '0' then
        if beginPos ≠ 0 ∨ endPos ≠ -1 then .rejected "Original Server Dont Support Partial Download!"
        else .accepted contentLength none contentLength
      else if charAt statusCode 2 = '6' then
        match getContentRange ptr with
        | none => .rejected "Content-range Is Invalid!"
        | some (first,last,entityLength) => .accepted contentLength (some (first,last)) entityLength
      else notSupported respCode
  else notSupported respCode

def headerEnd : Str := ['\r','\n','\r','\n']

/- What a C string function sees of the buffer, once set_eof is through. -/
def text (data : Str) : Str := data.takeWhile (fun c => c != '\x00')

/- handle_response, once the header is accepted. -/
def startPull (m : Meets) (s : State) (httpHeaderLen : Nat) (contentLength : Int) : Option State :=
  let s := { s with toRecvHeader := false, contentLength := contentLength }
  if contentLength = 0 then some (s.ends .empty)
  else if m.file = false then some (s.ends .failed)
  else
    let s := { s with pipeBuffer := true }
    if httpHeaderLen < s.length then handleContent m { s with rdPtr := s.rdPtr + httpHeaderLen }
    else some { s with data := [], rdPtr := 0 }

/- set_eof writes at wr_ptr. -/
def handleResponse (beginPos endPos : Int) (m : Meets) (s : State) : Option State :=
  if recvBuffSize ≤ s.data.length then none
  else
    let ptr := text s.data
    if ¬ "HTTP/".toList.isPrefixOf ptr then
      some ({ s with decision := some (.rejected "Response Is Invalid") }.ends .rejected)
    else
      match strstr ptr headerEnd with
      | none =>
        if s.space = 0 then
          some ({ s with decision := some (.rejected "Response Is Too Long!") }.ends .rejected)
        else some s
      | some httpSepa =>
        let decision := responseDecision beginPos endPos (ptr.drop 9)
        let s := { s with decision := some decision }
        match decision with
        | .rejected _ => some (s.ends .rejected)
        | .accepted contentLength _ _ => startPull m s (ptr.length - httpSepa.length + 4) contentLength

/- The request and what the origin answers: a response header and its content. -/
structure Stream where
  beginPos : Int
  endPos : Int
  header : Str
  content : Str

def Stream.bytes (r : Stream) : Str := r.header ++ r.content

/- One call of handle_input: with what recv gave it, with no receive as the buffer
is full, or with nothing to receive or the peer gone. -/
inductive Act where
  | receive (n : Nat) (m : Meets)
  | full (m : Meets)
  | wouldBlock
  | closed
  deriving DecidableEq, Repr

def handleInput (r : Stream) (s : State) : Act → Option (Option State)
  | .full m => if s.space = 0 ∧ 0 < s.length then some (handleContent m s) else none
  | .receive n m =>
    if ¬ (s.space = 0 ∧ 0 < s.length) ∧ 0 < n ∧ n ≤ s.space ∧ s.received + n ≤ r.bytes.length then
      let s := { s with data := s.data ++ (r.bytes.drop s.received).take n, received := s.received + n }
      some (if s.toRecvHeader then handleResponse r.beginPos r.endPos m s else handleContent m s)
    else none
  | .wouldBlock => if ¬ (s.space = 0 ∧ 0 < s.length) then some (some s) else none
  | .closed => if ¬ (s.space = 0 ∧ 0 < s.length) then some (some (s.ends .closedByPeer)) else none

/- No call is made once one returned -1. -/
def step (r : Stream) (o : Option State) (a : Act) : Option (Option State) :=
  match o with
  | none => none
  | some s => if s.ended.isSome then none else handleInput r s a

end CuteNdk.PullHttpAgent
