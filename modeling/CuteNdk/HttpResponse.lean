import CuteNdk.HttpClient

/-! The header response_to_client sends, and what get_content_range makes of it. The dates are
what strftime writes. -/
namespace CuteNdk.HttpResponse
open Lib.CString HttpParser HttpClient

structure Tm where
  wday : Fin 7
  mday : Nat
  mon : Fin 12
  year : Int
  hour : Nat
  min : Nat
  sec : Nat

def weekday (n : Fin 7) : Str := (["Sun","Mon","Tue","Wed","Thu","Fri","Sat"].get n).toList

def month (n : Fin 12) : Str :=
  (["Jan","Feb","Mar","Apr","May","Jun","Jul","Aug","Sep","Oct","Nov","Dec"].get n).toList

/- A number in a stream. -/
def printed (n : Int) : Str := if 0 ≤ n then digits n.toNat else '-' :: digits n.natAbs

/- "%02d" -/
def twoDigits (n : Nat) : Str := if n < 10 then '0' :: digits n else digits n

/- "%a, %d %b %Y %H:%M:%S GMT" -/
def strftime (t : Tm) : Str :=
  weekday t.wday ++ ',' :: ' ' :: (twoDigits t.mday ++ ' ' :: (month t.mon ++ ' ' :: (printed (t.year + 1900) ++ ' ' ::
    (twoDigits t.hour ++ ':' :: (twoDigits t.min ++ ':' :: (twoDigits t.sec ++ [' ','G','M','T']))))))

/- str after the call, time(0) in it. sizeof("Fri, Jul 23 17:37:27 CST 2010") is 30. -/
def gmttimeToStr (gmtime : Int → Tm) (time now : Int) (str : Str) (len : Nat) : Str :=
  if len < 30 then str
  else
    let now := if now = 0 then time else now
    (strftime (gmtime now)).take (min len 30 - 1)

/- Any other code fails an assertion. -/
def statusLine (status : Nat) : Option String :=
  match status with
  | 200 => some "HTTP/1.1 200 OK\r\n"
  | 206 => some "HTTP/1.1 206 Partial Content\r\n"
  | 304 => some "HTTP/1.1 304 Not Modified\r\n"
  | 400 => some "HTTP/1.1 400 Bad Request\r\n"
  | 403 => some "HTTP/1.1 403 Forbidden\r\n"
  | 404 => some "HTTP/1.1 404 Not Found\r\n"
  | 408 => some "HTTP/1.1 408 Request Timeout\r\n"
  | 413 => some "HTTP/1.1 413 Request Entity Too Large\r\n"
  | 416 => some "HTTP/1.1 416 Requested range not satisfiable\r\n"
  | 501 => some "HTTP/1.1 501 Not Implemented\r\n"
  | 503 => some "HTTP/1.1 503 Service Unavailable\r\n"
  | _ => none

def contentRange (beginPos endPos fileSize : Int) : Str :=
  "Content-Range: bytes ".toList ++ (printed beginPos ++ '-' :: (printed endPos ++ '/' :: (printed fileSize ++ ['\r','\n'])))

/- The text response_to_client sends. time is what its calls of time(0) give. -/
def responseText (gmtime : Int → Tm) (time : Nat → Int) (status : Nat) (beginPos endPos fileSize lastModifiedTime : Int) :
    Option Str :=
  (statusLine status).map fun line =>
    line.toList ++ ("Server: fcache\r\n".toList ++
      ((if status = 200 ∨ status = 206 then
        "Date: ".toList ++ (gmttimeToStr gmtime (time 1) (time 0) [] 64 ++ ("\r\nLast-Modified: ".toList ++
          (gmttimeToStr gmtime (time 2) lastModifiedTime [] 64 ++ ("\r\nConnection: close\r\nContent-Length: ".toList ++
            (printed (int64 (endPos - beginPos + 1)) ++ ("\r\n".toList ++
              (if status = 206 then contentRange beginPos endPos fileSize else [])))))))
      else "Connection: close\r\n".toList) ++ "\r\n".toList))

section Dates
variable {c : Char}

theorem notPrinted (other : c.isDigit = false) (minus : c ≠ '-') (n : Int) : c ∉ printed n := by
  unfold printed
  split
  · exact notDigit other
  · intro mem
    rcases List.mem_cons.mp mem with same | mem
    · exact minus same
    · exact notDigit other mem

theorem notTwoDigits (other : c.isDigit = false) (n : Nat) : c ∉ twoDigits n := by
  unfold twoDigits
  split
  · intro mem
    rcases List.mem_cons.mp mem with same | mem
    · rw [same] at other
      cases other
    · exact notDigit other mem
  · exact notDigit other

/- No date holds the first letter of Content-Range. -/
theorem dateLetters (t : Tm) : 'C' ∉ strftime t := by
  have number (n : Int) : 'C' ∉ printed n := notPrinted (by decide) (by decide) n
  have two (n : Nat) : 'C' ∉ twoDigits n := notTwoDigits (by decide) n
  have day : ∀ n, 'C' ∉ weekday n := by decide
  have name : ∀ n, 'C' ∉ month n := by decide
  unfold strftime
  simp only [List.mem_append,List.mem_cons,number,two,day,name,or_false,false_or,List.not_mem_nil]
  decide

theorem gmttimeLetters (gmtime : Int → Tm) (time now : Int) (len : Nat) : 'C' ∉ gmttimeToStr gmtime time now [] len := by
  unfold gmttimeToStr
  split
  · exact List.not_mem_nil
  · exact fun mem => dateLetters _ (List.mem_of_mem_take mem)

end Dates

section Ranges
variable {beginPos endPos fileSize : Int} {post : Str}

theorem printedDigits {n : Int} (some_ : 0 ≤ n) : printed n = digits n.toNat := if_pos some_

theorem printedNumber {n : Int} (some_ : 0 ≤ n) (high : n ≤ llongMax) (stop : NoDigit post) : strtoll (printed n ++ post) = n := by
  rw [printedDigits some_,strtollDigits (digitsDigits _) stop,decimalDigits]
  omega

theorem boundsPrinted (begin_ : 0 ≤ beginPos ∧ beginPos ≤ llongMax) (end_ : -1 ≤ endPos ∧ endPos ≤ llongMax) :
    rangeBounds (printed beginPos ++ '-' :: (printed endPos ++ '/' :: post)) = some (beginPos,endPos) := by
  have first : (charAt (printed beginPos ++ '-' :: (printed endPos ++ '/' :: post)) 0).isDigit = true := by
    rw [printedDigits begin_.1]
    exact firstDigit (digitsDigits _) _
  have sep : strchr ((printed beginPos ++ '-' :: (printed endPos ++ '/' :: post)).drop 1) '-' =
      some ('-' :: (printed endPos ++ '/' :: post)) := by
    have fresh : '-' ∉ (digits beginPos.toNat).tail := fun mem =>
      notDigit (by decide : '-'.isDigit = false) (List.mem_of_mem_tail mem)
    rw [printedDigits begin_.1,List.drop_one,List.tail_append_of_ne_nil (digitsDigits _).1]
    exact strchrFound fresh
  have number : strtoll (printed beginPos ++ '-' :: (printed endPos ++ '/' :: post)) = beginPos := by
    refine printedNumber begin_.1 begin_.2 fun c first => ?_
    cases Option.some.inj first
    rfl
  unfold rangeBounds
  rw [if_pos first,sep]
  simp only [number,List.drop_one,List.tail_cons]
  cases Int.lt_or_le endPos 0 with
  | inl open_ =>
    have missing : endPos = -1 := by omega
    rw [missing]
    rfl
  | inr some_ =>
    have digit : (charAt ('-' :: (printed endPos ++ '/' :: post)) 1).isDigit = true := by
      rw [printedDigits some_]
      exact firstDigit (digitsDigits _) _
    have last : strtoll (printed endPos ++ '/' :: post) = endPos := by
      refine printedNumber some_ end_.2 fun c first => ?_
      cases Option.some.inj first
      rfl
    rw [if_pos digit,last]

theorem entityPrinted (size : 0 ≤ fileSize ∧ fileSize ≤ llongMax) (stop : NoDigit post) :
    rangeEntity (printed beginPos ++ '-' :: (printed endPos ++ '/' :: (printed fileSize ++ post))) = some fileSize := by
  have fresh : '/' ∉ printed beginPos ++ '-' :: printed endPos := by
    have number (n : Int) : '/' ∉ printed n := notPrinted (by decide) (by decide) n
    simp only [List.mem_append,List.mem_cons,number,false_or,or_false]
    decide
  have sep : strchr (printed beginPos ++ '-' :: (printed endPos ++ '/' :: (printed fileSize ++ post))) '/' =
      some ('/' :: (printed fileSize ++ post)) := by
    have found : strchr (printed beginPos ++ '-' :: printed endPos ++ '/' :: (printed fileSize ++ post)) '/' = _ :=
      strchrFound fresh
    rw [List.append_assoc] at found
    exact found
  have digit : (charAt ('/' :: (printed fileSize ++ post)) 1).isDigit = true := by
    rw [printedDigits size.1]
    exact firstDigit (digitsDigits _) _
  unfold rangeEntity
  rw [sep]
  simp only [List.drop_one,List.tail_cons]
  rw [if_pos digit,printedNumber size.1 size.2 stop]

end Ranges

section Header
variable {date modified : Str} {beginPos endPos fileSize : Int}

/- The only Content-Range of the header is its last line. -/
theorem rangeHit (n : Int) (post : Str) (plainDate : 'C' ∉ date) (plainModified : 'C' ∉ modified) :
    strstr ("HTTP/1.1 206 Partial Content\r\nServer: fcache\r\nDate: ".toList ++ (date ++ ("\r\nLast-Modified: ".toList ++
      (modified ++ ("\r\nConnection: close\r\nContent-Length: ".toList ++ (printed n ++ ("\r\n".toList ++
        ("Content-Range".toList ++ post)))))))) "Content-Range".toList = some ("Content-Range".toList ++ post) := by
  have some_ : "Content-Range".toList ≠ [] := by decide
  have first : 'C' ∈ "Content-Range".toList := by decide
  have blank : ' ' ∉ "Content-Range".toList := by decide
  have ends : '\r' ∉ "Content-Range".toList := by decide
  have line : '\n' ∉ "Content-Range".toList := by decide
  have status : "HTTP/1.1 206 Partial Content\r\nServer: fcache\r\nDate: ".toList =
      "HTTP/1.1 206 Partial Content\r\nServer: fcache\r\nDate:".toList ++ [' '] := by decide
  have dated (s : Str) : "\r\nLast-Modified: ".toList ++ s = '\r' :: ("\nLast-Modified:".toList ++ ' ' :: s) := rfl
  have length (s : Str) : "\r\nConnection: close\r\nContent-Length: ".toList ++ s =
      '\r' :: ("\nConnection: close\r\nContent-Length:".toList ++ ' ' :: s) := rfl
  have last (s : Str) : "\r\n".toList ++ s = '\r' :: ([] ++ '\n' :: s) := rfl
  rw [status,List.append_assoc,List.singleton_append,dated,length,last]
  rw [strstrSkip some_ blank (by decide),strstrSkip some_ ends (strstrAbsent first plainDate)]
  rw [strstrSkip some_ blank (by decide),strstrSkip some_ ends (strstrAbsent first plainModified)]
  rw [strstrSkip some_ blank (by decide),strstrSkip some_ ends (strstrAbsent first (notPrinted (by decide) (by decide) n))]
  rw [strstrSkip some_ line (by decide)]
  rfl

theorem rangeAtHit {header post : Str} (begin_ : 0 ≤ beginPos ∧ beginPos ≤ llongMax) (end_ : -1 ≤ endPos ∧ endPos ≤ llongMax)
    (size : 0 ≤ fileSize ∧ fileSize ≤ llongMax) (stop : NoDigit post)
    (hit : strstr header "Content-Range".toList = some ("Content-Range: bytes ".toList ++
      (printed beginPos ++ '-' :: (printed endPos ++ '/' :: (printed fileSize ++ post))))) :
    getContentRange header = some (beginPos,endPos,fileSize) := by
  generalize rest : printed beginPos ++ '-' :: (printed endPos ++ '/' :: (printed fileSize ++ post)) = value at hit
  have answer : ∃ n, getValue header "Content-Range".toList = some ("bytes ".toList ++ value,n) := by
    unfold getValue
    rw [hit]
    exact ⟨_,rfl⟩
  obtain ⟨n,answer⟩ := answer
  have start : ("bytes ".toList ++ value).drop (strspn ("bytes ".toList ++ value) "bytes \t".toList) = value := by
    have key : "bytes ".toList.all (fun c => "bytes \t".toList.contains c) = true := by decide
    have letters : "bytes \t".toList.all (fun c => !c.isDigit) = true := by decide
    obtain ⟨some_,all⟩ := digitsDigits beginPos.toNat
    unfold strspn
    rw [dropSpan,List.dropWhile_append_of_pos (List.all_eq_true.mp key),← rest,printedDigits begin_.1]
    cases number : digits beginPos.toNat with
    | nil => exact absurd number some_
    | cons d ds =>
      have digit : d.isDigit = true := all d (number ▸ List.mem_cons_self)
      refine List.dropWhile_cons_of_neg fun accepted => ?_
      have other := List.all_eq_true.mp letters d (List.contains_iff_mem.mp accepted)
      rw [digit] at other
      cases other
  unfold getContentRange
  rw [answer]
  simp only [start]
  rw [← rest,boundsPrinted begin_ end_,entityPrinted size stop]

end Header

/- With any dates. -/
theorem contentRangeRoundTrips (gmtime : Int → Tm) (time : Nat → Int) (lastModifiedTime beginPos endPos fileSize : Int)
    (begin_ : 0 ≤ beginPos ∧ beginPos ≤ llongMax) (end_ : -1 ≤ endPos ∧ endPos ≤ llongMax)
    (size : 0 ≤ fileSize ∧ fileSize ≤ llongMax) :
    (responseText gmtime time 206 beginPos endPos fileSize lastModifiedTime).bind getContentRange =
      some (beginPos,endPos,fileSize) := by
  have hit := rangeHit (int64 (endPos - beginPos + 1)) (": bytes ".toList ++ (printed beginPos ++ '-' :: (printed endPos ++ '/' ::
      (printed fileSize ++ ("\r\n".toList ++ "\r\n".toList))))) (gmttimeLetters gmtime (time 1) (time 0) 64)
    (gmttimeLetters gmtime (time 2) lastModifiedTime 64)
  have status : "HTTP/1.1 206 Partial Content\r\nServer: fcache\r\nDate: ".toList =
      "HTTP/1.1 206 Partial Content\r\n".toList ++ ("Server: fcache\r\n".toList ++ "Date: ".toList) := by decide
  have name : "Content-Range".toList ++ ": bytes ".toList = "Content-Range: bytes ".toList := by decide
  rw [status,← List.append_assoc "Content-Range".toList,name] at hit
  simp only [List.append_assoc] at hit
  have stop : NoDigit ("\r\n".toList ++ "\r\n".toList) := fun c first => by
    cases Option.some.inj first
    rfl
  have text : responseText gmtime time 206 beginPos endPos fileSize lastModifiedTime = some
      ("HTTP/1.1 206 Partial Content\r\n".toList ++ ("Server: fcache\r\n".toList ++ ("Date: ".toList ++
        (gmttimeToStr gmtime (time 1) (time 0) [] 64 ++ ("\r\nLast-Modified: ".toList ++
          (gmttimeToStr gmtime (time 2) lastModifiedTime [] 64 ++ ("\r\nConnection: close\r\nContent-Length: ".toList ++
            (printed (int64 (endPos - beginPos + 1)) ++ ("\r\n".toList ++ ("Content-Range: bytes ".toList ++
              (printed beginPos ++ '-' :: (printed endPos ++ '/' ::
                (printed fileSize ++ ("\r\n".toList ++ "\r\n".toList)))))))))))))) := by
    unfold responseText contentRange statusLine
    simp only [Option.map_some,if_true,or_true,List.append_assoc,List.cons_append]
    rfl
  rw [text]
  exact rangeAtHit begin_ end_ size stop hit

def july : Tm := ⟨5,23,6,110,17,37,27⟩

example : strftime july = "Fri, 23 Jul 2010 17:37:27 GMT".toList := by decide

theorem openEndRead :
    (responseText (fun _ => july) (fun _ => 1279906647) 206 7 (-1) 10 1279906647).bind getContentRange = some (7,-1,10) :=
  contentRangeRoundTrips (fun _ => july) (fun _ => 1279906647) 1279906647 7 (-1) 10 (by decide) (by decide) (by decide)

end CuteNdk.HttpResponse
