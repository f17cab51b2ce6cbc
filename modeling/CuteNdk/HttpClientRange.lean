import CuteNdk.HttpClient

/-! What a response of handle_request says about the file. get_range takes the
numbers of the Range field as they stand, and nothing after it compares them
with each other or with the length of the file. -/
namespace CuteNdk.HttpClient
open Lib.CString HttpParser

/- A 2xx response announces a part of the file that is there, and so does the
transfer that is started behind it. -/
def Describes (fileLength : Int) (o : Outcome) : Prop :=
  (∀ r ∈ o.responses, 200 ≤ r.status → r.status < 300 →
    0 ≤ r.beginPos ∧ r.beginPos ≤ r.endPos ∧ r.endPos < fileLength ∧
    r.contentLength = some (r.endPos - r.beginPos + 1)) ∧
  ∀ s ∈ o.started, 0 ≤ s.beginPos ∧ s.beginPos ≤ s.endPos ∧ s.endPos < fileLength ∧
    o.responses.map (fun r => r.contentLength) = [some (s.endPos - s.beginPos + 1)] ∧
    0 < s.agent.contentLength ∧ s.agent.contentLength = s.endPos - s.beginPos + 1
instance (fileLength o) : Decidable (Describes fileLength o) := by
  unfold Describes; infer_instance

/- The bandwidth and the file of a request that is let in. -/
def requested (w : World) (c : Client) : Option (Int × FileInfo) :=
  match strchr c.uri '?' with
  | none => none
  | some urlP =>
    if charAt urlP 1 = '\x00' then none
    else
      match parseParams urlP with
      | none => none
      | some (bandwidth,url) =>
        if w.payload > w.concurrencyNum then none
        else (w.find url).map fun f => (bandwidth,f)

/- A position written in a text that starts with a digit. -/
def position (s : Str) : Int := min llongMax (decimal (s.takeWhile Char.isDigit))

/- The text of the Range field a range is read from: one range, with a digit as
its first or its second character. -/
def rangeText (header : Str) : Option Str :=
  match getValue header rangeKey with
  | none => none
  | some (rangeP,rangeEnd) =>
    let (value,n) := valuePtr rangeP
    if (n ≤ rangeEnd ∧ rangeEnd ≤ n + value.length ∧ ',' ∉ value.take (rangeEnd - n)) ∧
        ((charAt value 0).isDigit = true ∨ (charAt value 1).isDigit = true) then some value
    else none

def firstPos (value : Str) : Int := if (charAt value 0).isDigit then position value else 0

/- The number behind the first '-' of what follows the first character; behind
the first character itself where that is no digit. -/
def lastPos (value : Str) (missing : Int) : Int :=
  if (charAt value 0).isDigit then
    match strchr value.tail '-' with
    | none => missing
    | some sep => if (charAt sep 1).isDigit then position sep.tail else missing
  else position value.tail

/- The range the header names lies in a file of that length. -/
def Fits (header : Str) (fileLength : Int) : Prop :=
  ∀ value, rangeText header = some value →
    firstPos value ≤ lastPos value (fileLength - 1) ∧ lastPos value (fileLength - 1) < fileLength

/- The range ends just before its first byte. -/
def Empty (header : Str) (fileLength : Int) : Prop :=
  ∃ value, rangeText header = some value ∧ firstPos value = lastPos value (fileLength - 1) + 1

theorem positionRange (s : Str) : 0 ≤ position s ∧ position s ≤ llongMax := by
  simp only [position,llongMax]
  omega

theorem firstRange (value : Str) : 0 ≤ firstPos value ∧ firstPos value ≤ llongMax := by
  unfold firstPos
  split
  · exact positionRange value
  · simp only [llongMax]
    omega

theorem lastRange {value : Str} {missing : Int} (low : -1 ≤ missing) (high : missing ≤ llongMax) :
    -1 ≤ lastPos value missing ∧ lastPos value missing ≤ llongMax := by
  have of : ∀ s, -1 ≤ position s ∧ position s ≤ llongMax := fun s =>
    ⟨by have := (positionRange s).1; omega,(positionRange s).2⟩
  unfold lastPos
  split
  · cases strchr value.tail '-' with
    | none => exact ⟨low,high⟩
    | some sep =>
      by_cases digit : (charAt sep 1).isDigit = true
      · simpa [digit] using of sep.tail
      · simpa [digit] using And.intro low high
  · exact of value.tail

/- A last position that was not given is the last of the file. -/
theorem lastFilled (value : Str) (missing : Int) :
    (if lastPos value (-1) = -1 then missing else lastPos value (-1)) = lastPos value missing := by
  have given : ∀ s, position s ≠ -1 := fun s => by
    have := (positionRange s).1
    omega
  unfold lastPos
  split
  · cases strchr value.tail '-' with
    | none => rfl
    | some sep =>
      by_cases digit : (charAt sep 1).isDigit = true
      · simp [digit,given]
      · simp [digit]
  · simp [given]

theorem startsWith {s : Str} (digit : (charAt s 0).isDigit = true) : strtoll s = position s := by
  cases s with
  | nil => exact absurd digit (by decide)
  | cons c s => exact strtollStart rfl digit

theorem charAtTail (s : Str) (n : Nat) : charAt s.tail n = charAt s (n + 1) := by
  cases s with
  | nil => rfl
  | cons c s => rfl

/- The loop gets to the end of the value when there is no ',' in between. -/
theorem scanReaches (s : Str) (xx rangeEnd : Nat) :
    scanRange s xx rangeEnd = rangeEnd ↔
      xx ≤ rangeEnd ∧ rangeEnd ≤ xx + s.length ∧ ',' ∉ s.take (rangeEnd - xx) := by
  induction s generalizing xx with
  | nil =>
    simp only [scanRange,List.take_nil,List.length_nil,List.not_mem_nil,not_false_eq_true,and_true]
    omega
  | cons c s ih =>
    by_cases more : xx < rangeEnd
    · obtain ⟨k,hk⟩ : ∃ k, rangeEnd - xx = k + 1 := ⟨rangeEnd - xx - 1,by omega⟩
      have rest : rangeEnd - (xx + 1) = k := by omega
      by_cases comma : c = ','
      · simp only [scanRange,if_pos more,comma,↓reduceIte,hk,List.take_succ_cons,List.mem_cons]
        simp only [true_or,not_true_eq_false,and_false,iff_false]
        omega
      · simp only [scanRange,if_pos more,if_neg comma,ih,hk,rest,List.take_succ_cons,List.mem_cons,
          List.length_cons,Ne.symm comma,false_or]
        constructor
        · rintro ⟨low,high,none_⟩
          exact ⟨by omega,by omega,none_⟩
        · rintro ⟨low,high,none_⟩
          exact ⟨by omega,by omega,none_⟩
    · have zero : rangeEnd - xx = 0 := by omega
      simp only [scanRange,if_neg more,zero,List.take_zero,List.not_mem_nil,not_false_eq_true,and_true,
        List.length_cons]
      omega

theorem getRangeSome {header value : Str} (text : rangeText header = some value) :
    getRange header 0 (-1) = (206,firstPos value,lastPos value (-1)) := by
  unfold rangeText at text
  unfold getRange
  cases field : getValue header rangeKey with
  | none =>
    rw [field] at text
    cases text
  | some found =>
    obtain ⟨rangeP,rangeEnd⟩ := found
    rw [field] at text
    simp only at text ⊢
    generalize valuePtr rangeP = p at text
    obtain ⟨v,n⟩ := p
    simp only [← scanReaches] at text ⊢
    split at text
    · rename_i single
      cases Option.some.inj text
      rw [if_neg (not_not.2 single.1)]
      by_cases digit : (charAt value 0).isDigit = true
      · simp only [if_pos digit,firstPos,lastPos,startsWith digit]
        cases found : strchr value.tail '-' with
        | none => rfl
        | some sep =>
          by_cases number : (charAt sep 1).isDigit = true
          · have numbered : strtoll sep.tail = position sep.tail :=
              startsWith ((charAtTail sep 0).symm ▸ number)
            simp only [if_pos number,numbered]
          · simp only [if_neg number]
      · have second : (charAt value 1).isDigit = true := single.2.resolve_left digit
        have numbered : strtoll value.tail = position value.tail :=
          startsWith ((charAtTail value 0).symm ▸ second)
        simp only [if_neg digit,if_pos second,firstPos,lastPos,numbered]
    · cases text

/- Without such a text there is no range, or a code that refuses it. -/
theorem getRangeNone {header : Str} (text : rangeText header = none) :
    getRange header 0 (-1) = (200,0,-1) ∨
    ((getRange header 0 (-1)).1 = 416 ∨ (getRange header 0 (-1)).1 = 501) := by
  unfold rangeText at text
  unfold getRange
  cases field : getValue header rangeKey with
  | none => exact Or.inl rfl
  | some found =>
    obtain ⟨rangeP,rangeEnd⟩ := found
    rw [field] at text
    simp only at text ⊢
    generalize valuePtr rangeP = p at text
    obtain ⟨v,n⟩ := p
    simp only [← scanReaches] at text ⊢
    right
    by_cases single : scanRange v n rangeEnd = rangeEnd
    · simp only [single,true_and] at text
      split at text
      · cases text
      · rename_i digits
        rw [not_or] at digits
        simp [single,digits.1,digits.2]
    · simp [single]

theorem int64Small {n : Int} (low : -(2 ^ 63) ≤ n) (high : n < 2 ^ 63) : int64 n = n := by
  refine Int.bmod_eq_of_le ?_ ?_
  · omega
  · omega

theorem int64Zero {n : Int} (low : -(2 ^ 63) < n) (high : n ≤ 2 ^ 63) : int64 n = 0 ↔ n = 0 := by
  by_cases small : n < 2 ^ 63
  · rw [int64Small (Int.le_of_lt low) small]
  · have last : n = 2 ^ 63 := by omega
    subst last
    decide

/- One of the two kinds of agents can be had for the file. -/
def Opens (w : World) (f : FileInfo) : Prop :=
  (f.length ≤ w.maxMemCacheSize ∧ w.minMemCacheSize ≤ f.length ∧ w.memCacheOpens = true) ∨ w.fileOpens = true
instance (w f) : Decidable (Opens w f) := by
  unfold Opens; infer_instance

theorem selectNone {w : World} {f : FileInfo} {beginPos contentLength : Int} (shut : ¬Opens w f) :
    selectAgent w f beginPos contentLength = none := by
  obtain ⟨cache,disk⟩ := not_or.1 shut
  rw [selectAgent,if_neg cache,if_neg disk]

theorem selectSome {w : World} {f : FileInfo} {beginPos contentLength : Int} (opens : Opens w f) :
    ∃ kind, selectAgent w f beginPos contentLength = some ⟨kind,beginPos,contentLength⟩ := by
  unfold selectAgent
  split
  · exact ⟨_,rfl⟩
  · rename_i cache
    rw [if_pos (opens.resolve_left cache)]
    exact ⟨_,rfl⟩

theorem announced {l : Int} {o : Outcome} {c : Client} {code : Nat} {b e size : Int}
    (described : Describes l o) (ok : code = 200 ∨ code = 206)
    (sent : o.responses = [(responseToClient c code b e size).1]) : b ≤ e ∧ e < l := by
  simp only [responseToClient,if_pos ok] at sent
  have part := described.1 _ (sent ▸ List.mem_singleton.2 rfl) (by dsimp only; omega) (by dsimp only; omega)
  exact ⟨part.2.1,part.2.2.1⟩

/- What is sent with a 2xx code, and what is started behind it. -/
theorem startDescribes {w : World} {c : Client} {f : FileInfo} {code : Nat} {b e bandwidth : Int}
    (ok : code = 200 ∨ code = 206) (opens : Opens w f)
    (content : c.contentLength = int64 (e - b + 1)) (low : 0 ≤ b) (high : f.length < 2 ^ 63) :
    Describes f.length (startTransfer w c f code b e bandwidth) ↔ b ≤ e ∧ e < f.length := by
  obtain ⟨kind,agent⟩ := @selectSome w f b c.contentLength opens
  constructor
  · intro described
    refine @announced _ _ c _ _ _ f.length described ok ?_
    simp only [startTransfer,agent]
    by_cases sends : w.sends = true
    · rw [if_pos sends]
    · rw [if_neg sends]
  · rintro ⟨order,inside⟩
    have whole : int64 (e - b + 1) = e - b + 1 := int64Small (by omega) (by omega)
    have response : (responseToClient c code b e f.length).1 = ⟨code,b,e,f.length,some (e - b + 1)⟩ := by
      simp only [responseToClient,if_pos ok,whole]
    have told : ∀ started result, (∀ s ∈ started, s = (⟨⟨kind,b,c.contentLength⟩,bandwidth,b,e,
          (responseToClient c code b e f.length).2.contentLength⟩ : Start)) →
        Describes f.length ⟨[(responseToClient c code b e f.length).1],started,none,result⟩ := by
      intro started result same
      constructor
      · intro r hr _ _
        rw [response] at hr
        cases List.mem_singleton.1 hr
        exact ⟨low,order,inside,rfl⟩
      · intro s hs
        cases same s hs
        simp only [response,content,whole]
        refine ⟨low,order,inside,rfl,?_,trivial⟩
        omega
    simp only [startTransfer,agent]
    split
    · exact told _ _ fun s hs => (Option.some.inj hs).symm
    · exact told _ _ fun s hs => nomatch hs

theorem refuseDescribes {c : Client} {status : Nat} {beginPos endPos fileSize l : Int}
    (other : 300 ≤ status) : Describes l (refuse c status beginPos endPos fileSize) := by
  have code : ¬(status = 200 ∨ status = 206) := by omega
  constructor
  · intro r hr low high
    simp only [refuse,responseToClient,if_neg code,List.mem_singleton] at hr
    subst hr
    exact absurd high (by simpa using other)
  · intro s hs
    cases hs

/- The request from the file on, for a range that starts at b and ends at the
end_pos that is filled in. -/
theorem answerDescribes {w : World} {c : Client} {f : FileInfo} {header : Str} {code : Nat}
    {b last e bandwidth : Int} (ok : code = 200 ∨ code = 206) (plain : c.httpMethod = .get)
    (done : f.status = stCompleted) (high : f.length < 2 ^ 63)
    (filled : (if last = -1 then f.length - 1 else last) = e)
    (start : 0 ≤ b ∧ b < 2 ^ 63) (stop : -1 ≤ e ∧ e < 2 ^ 63) :
    Describes f.length (answer w c f header code b last bandwidth) ↔
      checkModified w header f.mtime f.etag = -1 ∨ (b ≤ e ∧ e < f.length) ∨
      (¬Opens w f ∧ ¬(b = e + 1 ∧ code = 206)) := by
  have complete : f.status &&& stCompleted ≠ 0 := by
    rw [done]
    decide
  have whole : ¬f.status &&& stUncompleted ≠ 0 := by
    rw [done]
    decide
  have other : ¬c.httpMethod = .head := by
    rw [plain]
    decide
  have zero : int64 (e - b + 1) = 0 ↔ b = e + 1 := by
    rw [int64Zero (by omega) (by omega)]
    omega
  simp only [answer,complete,filled,ne_eq,not_false_eq_true,true_and,if_neg other,if_neg whole,zero]
  by_cases modified : checkModified w header f.mtime f.etag = -1
  · simp only [modified,true_or,iff_true]
    exact refuseDescribes (by decide)
  · simp only [modified,false_or]
    by_cases empty : b = e + 1 ∧ code = 206
    · simp only [empty,true_and,not_true_eq_false,and_false,or_false]
      refine ⟨fun described => announced described (Or.inr rfl) rfl,fun inside => ?_⟩
      omega
    · simp only [empty,not_false_eq_true,and_true]
      by_cases opens : Opens w f
      · simp only [opens,not_true_eq_false,or_false]
        exact startDescribes ok opens rfl start.1 high
      · simp only [opens,not_false_eq_true,or_true,iff_true,startTransfer,selectNone opens]
        exact refuseDescribes (by decide)

theorem requestedRuns {w : World} {c : Client} {bandwidth : Int} {f : FileInfo} (header : Str)
    (accepted : requested w c = some (bandwidth,f)) :
    handleRequest w c header =
      if (getRange header 0 (-1)).1 ≠ 206 ∧ (getRange header 0 (-1)).1 ≠ 200 then
        refuse c (getRange header 0 (-1)).1 0 0 0
      else
        answer w c f header (getRange header 0 (-1)).1 (getRange header 0 (-1)).2.1
          (getRange header 0 (-1)).2.2 bandwidth := by
  unfold requested at accepted
  unfold handleRequest
  cases mark : strchr c.uri '?' with
  | none =>
    rw [mark] at accepted
    cases accepted
  | some urlP =>
    rw [mark] at accepted
    simp only at accepted ⊢
    split at accepted
    · cases accepted
    · rename_i named
      rw [if_neg named]
      cases params : parseParams urlP with
      | none =>
        rw [params] at accepted
        cases accepted
      | some found =>
        obtain ⟨bw,url⟩ := found
        rw [params] at accepted
        simp only at accepted ⊢
        split at accepted
        · cases accepted
        · rename_i room
          rw [if_neg room]
          obtain ⟨g,file,same⟩ := Option.map_eq_some_iff.1 accepted
          cases same
          simp only [file]

/- A request for a whole file that is let in: its answer describes the file just
when the range its header names lies in it, nothing being sent of a range that
does not while the client has the file or no agent can be opened. A range that
ends just before it begins is answered with 206 even then. -/
theorem describesWhenFits (w : World) (c : Client) (header : Str) (bandwidth : Int) (f : FileInfo)
    (accepted : requested w c = some (bandwidth,f)) (plain : c.httpMethod = .get)
    (done : f.status = stCompleted) (some_ : 1 ≤ f.length) (high : f.length ≤ llongMax) :
    Describes f.length (handleRequest w c header) ↔
      checkModified w header f.mtime f.etag = -1 ∨ Fits header f.length ∨
      (¬Opens w f ∧ ¬Empty header f.length) := by
  have bound : f.length < 2 ^ 63 := by
    simp only [llongMax] at high
    omega
  rw [requestedRuns header accepted]
  cases text : rangeText header with
  | none =>
    have fits : Fits header f.length := fun value named => by
      rw [text] at named
      cases named
    simp only [fits,true_or,or_true,iff_true]
    rcases getRangeNone text with range | refused | refused
    · rw [range]
      have whole : (0 : Int) ≤ f.length - 1 ∧ f.length - 1 < f.length := by omega
      exact (answerDescribes (Or.inl rfl) plain done bound (if_pos rfl) (by decide) (by omega)).2
        (Or.inr (Or.inl whole))
    · rw [refused]
      exact refuseDescribes (by decide)
    · rw [refused]
      exact refuseDescribes (by decide)
  | some value =>
    have first := firstRange value
    have last := @lastRange value (f.length - 1) (by omega) (by omega)
    have fits : Fits header f.length ↔
        firstPos value ≤ lastPos value (f.length - 1) ∧ lastPos value (f.length - 1) < f.length := by
      simp [Fits,text]
    have empty : Empty header f.length ↔ firstPos value = lastPos value (f.length - 1) + 1 := by
      simp [Empty,text]
    rw [getRangeSome text,fits,empty]
    simp only [llongMax] at first last
    have shape := @answerDescribes w _ _ header _ _ _ _ bandwidth (Or.inr rfl) plain done bound
      (lastFilled value (f.length - 1)) ⟨first.1,by omega⟩ ⟨last.1,by omega⟩
    simpa using shape

/- "GET /?bw=1&url=a" for a file of ten bytes in the memory cache. -/
def tenByteFile : FileInfo where
  status := stCompleted
  length := 10
  mtime := 0
  etag := []

def tenByteWorld : World where
  payload := 0
  concurrencyNum := 1000
  minMemCacheSize := 1
  maxMemCacheSize := 100
  find := fun _ => some tenByteFile
  strptime := fun _ => true
  mktime := fun _ => 0
  memCacheOpens := true
  fileOpens := true
  sends := true

def getA : Client where
  httpMethod := .get
  uri := ['/','?','b','w','=','1','&','u','r','l','=','a']
  contentLength := 0

/- "Range: bytes=" and the text. -/
def rangeHeader (text : Str) : Str :=
  rangeKey ++ [':',' ','b','y','t','e','s','='] ++ text ++ ['\r','\n','\r','\n']

theorem insideDescribed : Describes 10 (handleRequest tenByteWorld getA (rangeHeader ['2','-','5'])) :=
  (describesWhenFits tenByteWorld getA (rangeHeader ['2','-','5']) 1 tenByteFile (by decide +kernel) rfl rfl
    (by decide) (by decide)).2 (Or.inr (Or.inl (by
      intro value text
      have named : rangeText (rangeHeader ['2','-','5']) = some ['2','-','5','\r','\n','\r','\n'] := by decide +kernel
      cases Option.some.inj (named.symm.trans text)
      decide +kernel)))

/- Bytes 5 to 99 of the ten are announced and started: 95 bytes. -/
theorem pastTheEndStarted :
    requested tenByteWorld getA = some (1,tenByteFile) ∧
    (handleRequest tenByteWorld getA (rangeHeader ['5','-','9','9'])).started =
      some ⟨⟨.memCacheTransfer,5,95⟩,1,5,99,95⟩ ∧
    ¬Describes 10 (handleRequest tenByteWorld getA (rangeHeader ['5','-','9','9'])) := by
  decide +kernel

end CuteNdk.HttpClient
