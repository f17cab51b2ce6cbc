import CuteNdk.PullHttpReqest
import CuteNdk.Lib.Run

/-! http_client, from the socket to handle_request: handle_input collects the bytes of a request in
recv_buff_ and handle_data looks for the end of its header each time. A character stands for a byte. -/
namespace CuteNdk.HttpRequest
open Lib.CString HttpClient
open Lib (run Always)
open PullHttpReqest (getUri)

def recvBuffSize : Nat := 1024 * 4

def blankLine : Str := ['\r','\n','\r','\n']

/- The text strstr and the others see in data() behind set_eof. -/
def cstr (data : Str) : Str := data.takeWhile (· ≠ '\x00')

/- A client before handle_request. -/
def client (httpMethod : Method) (uri : Str) : Client := ⟨httpMethod,uri,0⟩

/- From the test of uri_begin_p on. The message of show_status has no text. -/
def handleUri (w : World) (httpMethod : Method) : Option (Str × Str) → Outcome
  | none => refuse (client httpMethod []) 400 0 0 0
  | some (uri,header) =>
    if uri.length = 1 then ⟨[],none,none,-1⟩ else handleRequest w (client httpMethod uri) header

/- none: "recv an uncompletd request". -/
def handleData (w : World) (data : Str) : Option Outcome :=
  let ptr := cstr data
  if strstr ptr blankLine = none then none
  else if ['G','E','T'].isPrefixOf ptr then some (handleUri w .get (getUri (ptr.drop 4)))
  else if ['H','E','A','D'].isPrefixOf ptr then some (handleUri w .head (getUri (ptr.drop 5)))
  else some (refuse (client .unknow []) 501 0 0 0)

/- outcomes is what the request has come to. Where that is -1, and at the end of the connection, the
client is closed. -/
structure State where
  recvBuff : Str
  recvMsgOk : Bool
  closed : Bool
  outcomes : List Outcome
  deriving DecidableEq, Repr

def opened : State := ⟨[],false,false,[]⟩

def State.space (s : State) : Nat := recvBuffSize - s.recvBuff.length

def State.comesTo (s : State) (o : Outcome) : State :=
  { s with recvMsgOk := o.result = 0, closed := o.result ≠ 0, outcomes := s.outcomes ++ [o] }

def handleInput (w : World) (s : State) (received : Str) : State :=
  if s.recvMsgOk then { s with closed := true }
  else
    let s := { s with recvBuff := s.recvBuff ++ received }
    if s.space = 0 then s.comesTo (refuse (client .unknow []) 413 0 0 0)
    else
      match handleData w s.recvBuff with
      | none => s
      | some o => s.comesTo o

def handleTimeout (s : State) : State :=
  if s.recvMsgOk then s else s.comesTo (refuse (client .unknow []) 408 0 0 0)

/- recv gives some of the bytes there is space for. shut is its 0 or an error. -/
inductive Act where
  | received (text : Str)
  | timeout
  | shut
  deriving DecidableEq, Repr

def step (w : World) (s : State) (act : Act) : Option State :=
  if s.closed then none
  else
    match act with
    | .received text => if text = [] ∨ s.space < text.length then none else some (handleInput w s text)
    | .timeout => some (handleTimeout s)
    | .shut => some { s with closed := true }

/- What is behind wr_ptr has room for the terminator set_eof writes, and a request comes to one thing. -/
structure Inside (s : State) : Prop where
  room : s.closed = false → s.recvBuff.length < recvBuffSize
  once : s.outcomes = [] ∨ s.outcomes.length = 1 ∧ (s.recvMsgOk = true ∨ s.closed = true)

section Inside
variable {w : World} {s s' : State}

theorem comesToOnce {o : Outcome} (none_ : s.outcomes = []) : (s.comesTo o).outcomes = [] ∨
    (s.comesTo o).outcomes.length = 1 ∧ ((s.comesTo o).recvMsgOk = true ∨ (s.comesTo o).closed = true) := by
  refine .inr ⟨by simp only [State.comesTo,none_]; rfl,?_⟩
  by_cases zero : o.result = 0
  · exact .inl (decide_eq_true zero)
  · exact .inr (decide_eq_true zero)

theorem refuseCloses (s : State) (status : Nat) : (s.comesTo (refuse (client .unknow []) status 0 0 0)).closed = true := rfl

theorem stepInside (s : State) (act : Act) (s' : State) (h : Inside s) (does : step w s act = some s') : Inside s' := by
  unfold step at does
  split at does
  · cases does
  rename_i closed
  have closed : s.closed = false := Bool.eq_false_iff.2 closed
  have fresh : s.recvMsgOk = false → s.outcomes = [] := fun no => by
    rcases h.once with none_ | ⟨_,ok | shut⟩
    · exact none_
    · rw [no] at ok
      cases ok
    · rw [closed] at shut
      cases shut
  cases act with
  | received text =>
    simp only at does
    split at does
    · cases does
    rename_i fits
    cases does
    unfold handleInput
    split
    · rename_i ok
      exact ⟨fun no => (nomatch no),h.once.imp_right fun one => ⟨one.1,.inl ok⟩⟩
    · rename_i ok
      have none_ := fresh (Bool.eq_false_iff.2 ok)
      simp only
      split
      · exact ⟨fun no => (nomatch no.symm.trans (refuseCloses _ 413)),comesToOnce none_⟩
      · rename_i room
        have room : (s.recvBuff ++ text).length < recvBuffSize := by
          simp only [State.space] at room
          omega
        split
        · exact ⟨fun _ => room,.inl none_⟩
        · exact ⟨fun _ => room,comesToOnce none_⟩
  | timeout =>
    cases does
    unfold handleTimeout
    split
    · exact h
    · rename_i ok
      exact ⟨fun no => (nomatch no.symm.trans (refuseCloses _ 408)),comesToOnce (fresh (Bool.eq_false_iff.2 ok))⟩
  | shut =>
    cases does
    exact ⟨fun no => (nomatch no),h.once.imp_right fun one => ⟨one.1,.inr rfl⟩⟩

/- Whatever comes in, and in whatever pieces, nothing is written past recv_buff_, and the client is
answered once at most. -/
theorem requestInside (w : World) (acts : List Act) :
    Always (step w) (fun s => (s.closed = false → s.recvBuff.length < recvBuffSize) ∧ s.outcomes.length ≤ 1) opened acts := by
  have start : Inside opened := ⟨fun _ => by decide,.inl rfl⟩
  refine Lib.alwaysMono (fun s h => ⟨h.room,?_⟩) (Lib.alwaysInvariant stepInside start acts)
  rcases h.once with none_ | ⟨one,_⟩
  · rw [none_]
    exact Nat.zero_le 1
  · exact one.le

end Inside

/- Nothing is behind the first blank line, as of a client that waits for its response. -/
def EndsAtBlank (text : Str) : Prop := ∀ r, strstr (cstr text) blankLine = some r → r = blankLine ∧ '\x00' ∉ text

section Cuts
variable {w : World} {s : State} {text more buff : Str} {o : Outcome}

theorem cstrWhole (clean : '\x00' ∉ text) : cstr text = text :=
  List.takeWhile_eq_self_iff.2 fun _ mem => decide_eq_true fun same => clean (same ▸ mem)

/- A terminator is the end, whatever comes behind it. -/
theorem cstrCut (dirty : '\x00' ∈ text) : cstr (text ++ more) = cstr text := by
  unfold cstr
  rw [List.takeWhile_append,if_neg fun whole => ?_]
  have all := List.takeWhile_eq_self_iff.1 ((List.takeWhile_prefix _).eq_of_length whole) _ dirty
  exact absurd all (by decide)

/- As long as there is more to come there is no blank line. -/
theorem cutUncompleted (ends : EndsAtBlank (text ++ more)) (some_ : more ≠ []) : handleData w text = none := by
  have absent : strstr (cstr text) blankLine = none := by
    cases found : strstr (cstr text) blankLine with
    | none => rfl
    | some r =>
      have long := (strstrFound found).1.length_le
      by_cases dirty : '\x00' ∈ text
      · have hit := (ends r (by rw [cstrCut dirty]; exact found)).2
        exact absurd (List.mem_append_left _ dirty) hit
      · rw [cstrWhole dirty] at found
        have behind : cstr (text ++ more) = text ++ cstr more :=
          List.takeWhile_append_of_pos fun _ mem => decide_eq_true fun same => dirty (same ▸ mem)
        obtain ⟨same,clean⟩ := ends (r ++ cstr more) (by rw [behind]; exact strstrAppend found)
        have whole : cstr more = more := cstrWhole fun mem => clean (List.mem_append_right _ mem)
        have length := congrArg List.length same
        rw [List.length_append,whole] at length
        have positive := List.length_pos_iff.2 some_
        omega
  unfold handleData
  exact if_pos absent

/- What the bytes of a whole request come to. -/
def wholeRequest (w : World) (text : Str) : List Outcome :=
  if text.length = recvBuffSize then [refuse (client .unknow []) 413 0 0 0] else (handleData w text).toList

/- A receive of a client that has not been answered. -/
theorem receives {texts : List Str} (room : buff.length < recvBuffSize)
    (ran : run (step w) ⟨buff,false,false,[]⟩ ((text :: texts).map .received) = some s) : text ≠ [] ∧
      (buff ++ text).length ≤ recvBuffSize ∧
      run (step w) (handleInput w ⟨buff,false,false,[]⟩ text) (texts.map .received) = some s := by
  obtain ⟨s₁,does,rest⟩ := Option.bind_eq_some_iff.1 ran
  unfold step at does
  rw [if_neg Bool.false_ne_true] at does
  simp only at does
  split at does
  · cases does
  rename_i fits
  cases does
  refine ⟨fun no => fits (.inl no),?_,rest⟩
  have short := fits ∘ .inr
  simp only [State.space,imp_false] at short
  rw [List.length_append]
  omega

/- The client is closed. -/
theorem closedEnds {texts : List Str} (closed : s.closed = true) {s' : State}
    (ran : run (step w) s (texts.map .received) = some s') : texts = [] ∧ s' = s := by
  cases texts with
  | nil =>
    cases ran
    exact ⟨rfl,rfl⟩
  | cons text texts =>
    obtain ⟨_,does,_⟩ := Option.bind_eq_some_iff.1 ran
    unfold step at does
    rw [if_pos closed] at does
    cases does

theorem cutsFrom {texts : List Str} (room : buff.length < recvBuffSize) (waits : handleData w buff = none)
    (ends : EndsAtBlank (buff ++ texts.flatten))
    (ran : run (step w) ⟨buff,false,false,[]⟩ (texts.map .received) = some s) :
    s.outcomes = wholeRequest w (buff ++ texts.flatten) := by
  induction texts generalizing buff with
  | nil =>
    cases ran
    rw [List.flatten_nil,List.append_nil,wholeRequest,if_neg room.ne,waits]
    rfl
  | cons text texts ih =>
    obtain ⟨some_,fits,rest⟩ := receives room ran
    rw [List.flatten_cons,← List.append_assoc] at ends ⊢
    by_cases full : (buff ++ text).length = recvBuffSize
    · have refuses : handleInput w ⟨buff,false,false,[]⟩ text =
          (⟨buff ++ text,false,false,[]⟩ : State).comesTo (refuse (client .unknow []) 413 0 0 0) := by
        unfold handleInput
        rw [if_neg Bool.false_ne_true]
        exact if_pos (by rw [State.space,full]; exact Nat.sub_self _)
      rw [refuses] at rest
      obtain ⟨rfl,rfl⟩ := closedEnds (refuseCloses _ 413) rest
      rw [List.flatten_nil,List.append_nil,wholeRequest,if_pos full]
      rfl
    · have room' : (buff ++ text).length < recvBuffSize := by omega
      have looks : handleInput w ⟨buff,false,false,[]⟩ text =
          match handleData w (buff ++ text) with
          | none => ⟨buff ++ text,false,false,[]⟩
          | some o => (⟨buff ++ text,false,false,[]⟩ : State).comesTo o := by
        unfold handleInput
        rw [if_neg Bool.false_ne_true]
        exact if_neg (by simp only [State.space]; omega)
      rw [looks] at rest
      cases waits' : handleData w (buff ++ text) with
      | none =>
        rw [waits'] at rest
        exact ih room' waits' ends rest
      | some o =>
        rw [waits'] at rest
        -- with more to come the header would not be complete
        have last : texts.flatten = [] := by
          by_contra more
          exact absurd ((cutUncompleted ends more).symm.trans waits') (by simp)
        have none_ : texts = [] := by
          cases texts with
          | nil => rfl
          | cons next texts =>
            obtain ⟨_,does,_⟩ := Option.bind_eq_some_iff.1 rest
            have empty : next = [] := (List.append_eq_nil_iff.1 last).1
            unfold step at does
            rw [empty] at does
            simp at does
        subst none_
        cases rest
        rw [List.flatten_nil,List.append_nil,wholeRequest,if_neg full,waits']
        rfl

end Cuts

/- Nothing is cached. -/
def missWorld : World where
  payload := 0
  concurrencyNum := 1
  minMemCacheSize := 0
  maxMemCacheSize := 0
  find _ := none
  strptime _ := false
  mktime _ := 0
  memCacheOpens := false
  fileOpens := false
  sends := true

def cutRequest : List Str := ["GET /?bw=1&url=u HT".toList,"TP/1.1\r\n\r".toList,"\n".toList]

end CuteNdk.HttpRequest
