import CuteNdk.HttpClientRange
import CuteNdk.HttpFields
import CuteNdk.PullHttpHeader

/-! The request pull_http_agent sends, and what get_range makes of it. The reader takes the
field that the first "Range" of the text leads to. -/
namespace CuteNdk.PullHttpReqest
open Lib.CString HttpParser HttpClient

/- The Range line of send_reqest, which sends no position that is 0. -/
def rangeLine (beginPos endPos : Int) : Str :=
  if 0 < beginPos then
    "Range: bytes=".toList ++ digits beginPos.toNat ++ '-' :: (if 0 < endPos then digits endPos.toNat else []) ++ lineEnd
  else if 0 < endPos then "Range: bytes=".toList ++ '-' :: digits endPos.toNat ++ lineEnd
  else []

/- The request from what follows the uri on. -/
def afterUri (host : Str) (beginPos endPos : Int) : Str :=
  " HTTP/1.1\r\nHost: ".toList ++ host ++
    "\r\nUser-Agent: Fcached/1.0\r\nConnection: close\r\nAccept: */*\r\n".toList ++ rangeLine beginPos endPos ++ lineEnd

/- The text send_reqest sends. -/
def sendReqest (uri host : Str) (beginPos endPos : Int) : Str := "GET ".toList ++ uri ++ afterUri host beginPos endPos

/- http_parser::get_uri: the uri and the text at uri_end. -/
def getUri (uriBegin : Str) : Option (Str × Str) :=
  let uriBegin := uriBegin.drop (strspn uriBegin [' ','\t'])
  let len := strcspn uriBegin [' ','\t']
  if len = 0 then none else some (uriBegin.take len,uriBegin.drop len)

/- The header handle_data gives to handle_request. -/
def httpHeader (ptr : Str) : Option Str :=
  if ['G','E','T'].isPrefixOf ptr then (getUri (ptr.drop 4)).map Prod.snd
  else if ['H','E','A','D'].isPrefixOf ptr then (getUri (ptr.drop 5)).map Prod.snd
  else none

section Reading
variable {host uri spec post : Str} {beginPos endPos : Int}

/- What follows "bytes=" in a Range field. -/
structure Spec (spec : Str) : Prop where
  inLine : ∀ c ∈ spec, InLine c
  single : ',' ∉ spec
  number : (charAt spec 0).isDigit = true ∨ charAt spec 0 = '-' ∧ (charAt spec 1).isDigit = true
  last : ∀ c ∈ spec.getLast?, isspace c = false

def rangeField (spec : Str) (fine : Spec spec) : Field where
  name := rangeKey
  value := "bytes=".toList ++ spec
  nameInLine c mem := inLineIff (List.all_eq_true.mp (by decide : rangeKey.all inLine = true) c mem)
  noColon := by decide
  valueInLine c mem := by
    rcases List.mem_append.mp mem with key | number
    · exact inLineIff (List.all_eq_true.mp (by decide : "bytes=".toList.all inLine = true) c key)
    · exact fine.inLine c number
  visible := ⟨'b',List.mem_append_left spec (by decide),rfl⟩

theorem digitInside {s : Str} (t : Str) {n : Nat} (digit : (charAt s n).isDigit = true) : charAt (s ++ t) n = charAt s n := by
  unfold charAt at digit ⊢
  cases Nat.lt_or_ge n s.length with
  | inl inside => rw [List.getD_append _ _ _ _ inside]
  | inr behind =>
    rw [List.getD_eq_default _ _ behind] at digit
    cases digit

theorem specFirst (fine : Spec spec) : ∃ c rest, spec = c :: rest ∧ List.contains ['b','y','t','e','s','=',' ','\t'] c = false := by
  cases spec with
  | nil =>
    rcases fine.number with no | ⟨no,_⟩
    · cases no
    · exact absurd no (by decide)
  | cons c rest =>
    refine ⟨c,rest,rfl,Bool.eq_false_iff.mpr fun mem => ?_⟩
    have letters : ['b','y','t','e','s','=',' ','\t'].all (fun d => !(d.isDigit || d == '-')) = true := by decide
    have other := List.all_eq_true.mp letters c (List.contains_iff_mem.mp mem)
    rw [Bool.not_eq_true',Bool.or_eq_false_iff,beq_eq_false_iff_ne] at other
    rcases fine.number with digit | ⟨minus,_⟩
    · exact absurd (show c.isDigit = true from digit) (by rw [other.1]; exact Bool.false_ne_true)
    · exact other.2 minus

/- Where the first hit is the Range line, its text is read. -/
theorem specRead {header : Str} (fine : Spec spec)
    (hit : strstr header rangeKey = some ("Range: bytes=".toList ++ spec ++ (lineEnd ++ post))) :
    rangeText header = some (spec ++ (lineEnd ++ post)) := by
  obtain ⟨c,rest,first,accepted⟩ := specFirst fine
  have colon : strchr (("Range: bytes=".toList ++ spec ++ (lineEnd ++ post)).drop rangeKey.length) ':' =
      some (':' :: ' ' :: ((rangeField spec fine).value ++ (lineEnd ++ post))) := rfl
  have more : lineEnd ++ post ≠ [] := List.cons_ne_nil _ _
  have answer := fieldValue (rangeField spec fine) hit colon fun d first => by
    cases Option.some.inj first
    exact fun line => line.1 rfl
  have begin : ((rangeField spec fine).value ++ (lineEnd ++ post)).dropWhile blank =
      "bytes=".toList ++ spec ++ (lineEnd ++ post) := rfl
  have whole : visibleLength (rangeField spec fine).value = 6 + spec.length := by
    have ends : (("bytes=".toList ++ spec).reverse.dropWhile isspace) = ("bytes=".toList ++ spec).reverse := by
      rw [List.reverse_append,first]
      obtain ⟨d,t,back⟩ := List.exists_cons_of_ne_nil (List.reverse_ne_nil_iff.mpr (List.cons_ne_nil c rest))
      have tail : spec.getLast? = some d := by
        rw [first,← List.head?_reverse,back]
        rfl
      rw [back]
      exact List.dropWhile_cons_of_neg (by rw [fine.last d tail]; exact Bool.false_ne_true)
    show (("bytes=".toList ++ spec).reverse.dropWhile isspace).length = _
    rw [ends,List.length_reverse,List.length_append]
    rfl
  rw [if_neg more,begin,whole] at answer
  have span : strspn ("bytes=".toList ++ spec ++ (lineEnd ++ post)) ['b','y','t','e','s','=',' ','\t'] = 6 := by
    have key : "bytes=".toList.all (fun d => List.contains ['b','y','t','e','s','=',' ','\t'] d) = true := by decide
    unfold strspn
    rw [List.append_assoc,List.takeWhile_append_of_pos (List.all_eq_true.mp key),first,List.cons_append,
      List.takeWhile_cons_of_neg (by rw [accepted]; exact Bool.false_ne_true)]
    rfl
  have value : ("bytes=".toList ++ spec ++ (lineEnd ++ post)).drop 6 = spec ++ (lineEnd ++ post) := rfl
  have number : (charAt (spec ++ (lineEnd ++ post)) 0).isDigit = true ∨ (charAt (spec ++ (lineEnd ++ post)) 1).isDigit = true := by
    rcases fine.number with digit | ⟨_,digit⟩
    · exact .inl (by rw [digitInside _ digit]; exact digit)
    · exact .inr (by rw [digitInside _ digit]; exact digit)
  have within : 6 ≤ 6 + spec.length ∧ 6 + spec.length ≤ 6 + (spec ++ (lineEnd ++ post)).length ∧
      ',' ∉ (spec ++ (lineEnd ++ post)).take (6 + spec.length - 6) := by
    refine ⟨by omega,by rw [List.length_append]; omega,?_⟩
    rw [Nat.add_sub_cancel_left,List.take_left]
    exact fine.single
  unfold rangeText
  rw [answer]
  simp only [valuePtr,span,value]
  exact if_pos ⟨within,number⟩

theorem numberOf {ds rest : Str} (number : Digits ds) (stop : NoDigit rest) :
    position (ds ++ rest) = min llongMax (decimal ds) := by
  unfold position
  rw [(takeDigits number.2 stop).1]

theorem breakStops (rest : Str) : NoDigit (lineEnd ++ rest) := by
  intro c first
  cases Option.some.inj first
  rfl

theorem notSpace {ds : Str} (number : ∀ c ∈ ds, c.isDigit = true) : ∀ c ∈ ds.getLast?, isspace c = false := by
  intro c last
  exact (digitNotSpace (number c (List.mem_of_getLast? last))).1

/- One range from a position on. -/
theorem fromSpec (b : Nat) (last : Str) (number : last = [] ∨ Digits last) : Spec (digits b ++ '-' :: last) ∧
    firstPos (digits b ++ '-' :: last ++ (lineEnd ++ post)) = min llongMax b ∧
    lastPos (digits b ++ '-' :: last ++ (lineEnd ++ post)) (-1) = if last = [] then -1 else min llongMax (decimal last) := by
  have all : ∀ c ∈ last, c.isDigit = true := fun c mem => by
    rcases number with rfl | number
    · cases mem
    · exact number.2 c mem
  have inside : ∀ c ∈ digits b ++ '-' :: last, c.isDigit = true ∨ c = '-' := fun c mem => by
    rcases List.mem_append.mp mem with first | rest
    · exact .inl ((digitsDigits b).2 c first)
    · rcases List.mem_cons.mp rest with minus | behind
      · exact .inr minus
      · exact .inl (all c behind)
  have whole : digits b ++ '-' :: last ++ (lineEnd ++ post) = digits b ++ '-' :: (last ++ (lineEnd ++ post)) := by
    rw [List.append_assoc,List.cons_append]
  have digit := firstDigit (digitsDigits b) ('-' :: (last ++ (lineEnd ++ post)))
  refine ⟨⟨fun c mem => ?_,fun comma => ?_,.inl (firstDigit (digitsDigits b) _),?_⟩,?_,?_⟩
  · rcases inside c mem with digit | minus
    · exact PullHttpAgent.digitPlain digit
    · rw [minus]
      exact inLineIff rfl
  · rcases inside ',' comma with digit | minus
    · cases digit
    · cases minus
  · rw [List.getLast?_append_of_ne_nil _ (List.cons_ne_nil _ _)]
    cases last with
    | nil =>
      intro c last
      cases Option.some.inj last
      rfl
    | cons d ds =>
      rw [List.getLast?_cons_cons]
      exact notSpace all
  · rw [whole]
    unfold firstPos
    rw [if_pos digit,numberOf (digitsDigits b) (fun c first => by cases Option.some.inj first; rfl),decimalDigits]
  · have sep : strchr (digits b ++ '-' :: (last ++ (lineEnd ++ post))).tail '-' = some ('-' :: (last ++ (lineEnd ++ post))) := by
      have fresh : '-' ∉ (digits b).tail := fun mem => notDigit (by decide : '-'.isDigit = false) (List.mem_of_mem_tail mem)
      rw [List.tail_append_of_ne_nil (digitsDigits b).1]
      exact strchrFound fresh
    rw [whole]
    unfold lastPos
    rw [if_pos digit,sep]
    simp only [List.tail_cons]
    rcases number with rfl | number
    · rfl
    · have next : (charAt ('-' :: (last ++ (lineEnd ++ post))) 1).isDigit = true := firstDigit number (lineEnd ++ post)
      rw [if_pos next,if_neg number.1,numberOf number (breakStops post)]

/- And one up to a position. -/
theorem uptoSpec (e : Nat) : Spec ('-' :: digits e) ∧ firstPos ('-' :: digits e ++ (lineEnd ++ post)) = 0 ∧
    lastPos ('-' :: digits e ++ (lineEnd ++ post)) (-1) = min llongMax e := by
  have number := digitsDigits e
  refine ⟨⟨fun c mem => ?_,fun comma => ?_,.inr ⟨rfl,?_⟩,?_⟩,rfl,?_⟩
  · rcases List.mem_cons.mp mem with minus | digit
    · rw [minus]
      exact inLineIff rfl
    · exact PullHttpAgent.digitPlain (number.2 c digit)
  · rcases List.mem_cons.mp comma with no | digit
    · cases no
    · exact notDigit (by decide) digit
  · have first := firstDigit number []
    rw [List.append_nil] at first
    exact first
  · obtain ⟨some_,all⟩ := number
    cases shape : digits e with
    | nil => exact absurd shape some_
    | cons d ds =>
      rw [List.getLast?_cons_cons,← shape]
      exact notSpace all
  · have behind : lastPos ('-' :: digits e ++ (lineEnd ++ post)) (-1) = position (digits e ++ (lineEnd ++ post)) := rfl
    rw [behind,numberOf number (breakStops post),decimalDigits]

/- Positions a request is sent with. An end of -1 stands for the end of the file. -/
structure Positions (beginPos endPos : Int) : Prop where
  first : 0 ≤ beginPos ∧ beginPos ≤ llongMax
  last : endPos = -1 ∨ beginPos ≤ endPos
  high : endPos ≤ llongMax

theorem rangeRead {header : Str} (positions : Positions beginPos endPos)
    (divided : strstr header rangeKey = strstr (rangeLine beginPos endPos ++ lineEnd) rangeKey) :
    (getRange header 0 (-1)).2 = if endPos = 0 then (0,-1) else (beginPos,endPos) := by
  obtain ⟨⟨low,high⟩,order,bound⟩ := positions
  have written {spec : Str} (fine : Spec spec) (line : rangeLine beginPos endPos = "Range: bytes=".toList ++ spec ++ lineEnd) :
      (getRange header 0 (-1)).2 = (firstPos (spec ++ (lineEnd ++ lineEnd)),lastPos (spec ++ (lineEnd ++ lineEnd)) (-1)) := by
    have hit : strstr header rangeKey = some ("Range: bytes=".toList ++ spec ++ (lineEnd ++ lineEnd)) := by
      rw [divided,line,List.append_assoc]
      rfl
    rw [getRangeSome (specRead fine hit)]
  have counted {n : Int} (some_ : 0 < n) (small : n ≤ llongMax) : min llongMax (n.toNat : Int) = n := by
    omega
  unfold rangeLine at divided written
  split at divided
  · rename_i first
    have number : (if 0 < endPos then digits endPos.toNat else []) = [] ∨
        Digits (if 0 < endPos then digits endPos.toNat else []) := by
      split
      · exact .inr (digitsDigits _)
      · exact .inl rfl
    obtain ⟨fine,begins,ends⟩ := @fromSpec lineEnd beginPos.toNat _ number
    rw [written fine (if_pos first),begins,ends,counted first high]
    split
    · rename_i last
      rw [if_neg (digitsDigits _).1,decimalDigits,counted last bound,if_neg (by omega)]
    · rename_i open_
      have missing : endPos = -1 := by omega
      rw [if_pos rfl,if_neg (by omega),missing]
  · rename_i zero
    have first : beginPos = 0 := by omega
    split at divided
    · rename_i last
      obtain ⟨fine,begins,ends⟩ := @uptoSpec lineEnd endPos.toNat
      rw [written fine ((if_neg zero).trans (if_pos last)),begins,ends,counted last bound,if_neg (by omega),first]
    · have none_ : getValue header rangeKey = none := by
        unfold getValue
        rw [divided]
        rfl
      have unread : getRange header 0 (-1) = (200,0,-1) := by
        unfold getRange
        rw [none_]
      rw [unread,first]
      split
      · rfl
      · have missing : endPos = -1 := by omega
        rw [missing]

/- Nothing before the Range line holds the key where the uri and the host do not. -/
theorem plainDivided {front : Str} (uriPlain : strstr front rangeKey = none) (hostPlain : strstr host rangeKey = none) :
    strstr (front ++ afterUri host beginPos endPos) rangeKey = strstr (rangeLine beginPos endPos ++ lineEnd) rangeKey := by
  have some_ : rangeKey ≠ [] := by decide
  calc strstr (front ++ afterUri host beginPos endPos) rangeKey
      = strstr (front ++ ' ' :: ("HTTP/1.1\r\nHost:".toList ++ ' ' :: (host ++ '\r' ::
          ("\nUser-Agent: Fcached/1.0\r\nConnection: close\r\nAccept: */*\r".toList ++ '\n' ::
            (rangeLine beginPos endPos ++ lineEnd))))) rangeKey := by
        unfold afterUri
        simp only [List.append_assoc]
        rfl
    _ = strstr ("HTTP/1.1\r\nHost:".toList ++ ' ' :: (host ++ '\r' ::
          ("\nUser-Agent: Fcached/1.0\r\nConnection: close\r\nAccept: */*\r".toList ++ '\n' ::
            (rangeLine beginPos endPos ++ lineEnd)))) rangeKey := strstrSkip some_ (by decide) uriPlain
    _ = strstr (host ++ '\r' :: ("\nUser-Agent: Fcached/1.0\r\nConnection: close\r\nAccept: */*\r".toList ++ '\n' ::
          (rangeLine beginPos endPos ++ lineEnd))) rangeKey := strstrSkip some_ (by decide) (by decide)
    _ = strstr ("\nUser-Agent: Fcached/1.0\r\nConnection: close\r\nAccept: */*\r".toList ++ '\n' ::
          (rangeLine beginPos endPos ++ lineEnd)) rangeKey := strstrSkip some_ (by decide) hostPlain
    _ = strstr (rangeLine beginPos endPos ++ lineEnd) rangeKey := strstrSkip some_ (by decide) (by decide)

/- The text of a Range field with this on its line after the colon, where a range is read from it. -/
def lineText (u : Str) : Option Str :=
  let v := u.dropWhile blank
  let len := strcspn v ['\r','\n']
  let n := strspn v ['b','y','t','e','s','=',' ','\t']
  let rangeEnd := backOverSpace (v ++ lineEnd) len + 1
  let value := v.drop n
  if charAt (u ++ lineEnd) 0 = '\r' ∨ len = 0 then none
  else if (n ≤ rangeEnd ∧ ',' ∉ (value ++ lineEnd).take (rangeEnd - n)) ∧
      ((charAt (value ++ lineEnd) 0).isDigit = true ∨ (charAt (value ++ lineEnd) 1).isDigit = true) then some value
  else none

/- The end of the line stops every span that does not take it. -/
theorem spanLine {p : Char → Bool} (stop : p '\r' = false) (u post : Str) :
    (u ++ (lineEnd ++ post)).takeWhile p = u.takeWhile p ∧
      (u ++ (lineEnd ++ post)).dropWhile p = u.dropWhile p ++ (lineEnd ++ post) :=
  spanFirst stop u ('\n' :: post)

/- get_value at the colon of that line. -/
theorem valueOfLine {header rest u : Str} (hit : strstr header rangeKey = some rest)
    (colon : strchr (rest.drop rangeKey.length) ':' = some (':' :: (u ++ (lineEnd ++ post)))) :
    getValue header rangeKey = if charAt (u ++ lineEnd) 0 = '\r' ∨ strcspn (u.dropWhile blank) ['\r','\n'] = 0 then none
      else some (u.dropWhile blank ++ (lineEnd ++ post),
        backOverSpace (u.dropWhile blank ++ lineEnd) (strcspn (u.dropWhile blank) ['\r','\n']) + 1) := by
  have skip : (u ++ (lineEnd ++ post)).drop (strspn (u ++ (lineEnd ++ post)) [' ','\t']) =
      u.dropWhile blank ++ (lineEnd ++ post) := by
    rw [strspnDrop]
    exact (spanLine rfl u post).2
  have len : strcspn (u.dropWhile blank ++ (lineEnd ++ post)) ['\r','\n'] = strcspn (u.dropWhile blank) ['\r','\n'] :=
    congrArg List.length (spanLine rfl (u.dropWhile blank) post).1
  have first : charAt (':' :: (u ++ (lineEnd ++ post))) 1 = charAt (u ++ lineEnd) 0 := by
    rw [← List.append_assoc]
    exact PullHttpAgent.charAppend (by rw [List.length_append]; exact Nat.lt_of_lt_of_le Nat.two_pos (Nat.le_add_left _ _))
  have back : backOverSpace (u.dropWhile blank ++ (lineEnd ++ post)) (strcspn (u.dropWhile blank) ['\r','\n']) =
      backOverSpace (u.dropWhile blank ++ lineEnd) (strcspn (u.dropWhile blank) ['\r','\n']) := by
    have low : strcspn (u.dropWhile blank) ['\r','\n'] ≤ (u.dropWhile blank).length := (List.takeWhile_prefix _).length_le
    rw [← List.append_assoc]
    refine PullHttpAgent.backAppend ?_
    rw [List.length_append]
    exact Nat.lt_of_le_of_lt low (Nat.lt_add_of_pos_right Nat.two_pos)
  unfold getValue
  simp only [hit,colon,List.tail_cons,skip,len,first,back]
  split
  · rename_i ends
    rw [if_pos (.inl ends)]
  · rename_i goes
    split
    · rename_i zero
      rw [if_pos (.inr zero)]
    · rename_i more
      rw [if_neg (not_or.mpr ⟨goes,more⟩)]

theorem backLow (s : Str) (n : Nat) : backOverSpace s n ≤ n := by
  induction n with
  | zero => exact Nat.le_refl 0
  | succ n ih =>
    unfold backOverSpace
    split
    · exact Nat.le_succ_of_le ih
    · exact Nat.le_refl _

theorem textOfLine {header rest u : Str} (hit : strstr header rangeKey = some rest)
    (colon : strchr (rest.drop rangeKey.length) ':' = some (':' :: (u ++ (lineEnd ++ post)))) :
    rangeText header = (lineText u).map (· ++ (lineEnd ++ post)) := by
  unfold rangeText lineText
  rw [valueOfLine hit colon]
  cases Decidable.em (charAt (u ++ lineEnd) 0 = '\r' ∨ strcspn (u.dropWhile blank) ['\r','\n'] = 0) with
  | inl ends =>
    rw [if_pos ends]
    simp only [if_pos ends]
    rfl
  | inr goes =>
    rw [if_neg goes]
    simp only [if_neg goes]
    generalize u.dropWhile blank = v
    have n : strspn (v ++ (lineEnd ++ post)) ['b','y','t','e','s','=',' ','\t'] = strspn v ['b','y','t','e','s','=',' ','\t'] :=
      congrArg List.length (spanLine rfl v post).1
    have low := backLow (v ++ lineEnd) (strcspn v ['\r','\n'])
    have inside : strcspn v ['\r','\n'] ≤ v.length := (List.takeWhile_prefix _).length_le
    have span : strspn v ['b','y','t','e','s','=',' ','\t'] ≤ v.length := (List.takeWhile_prefix _).length_le
    have value : (v ++ (lineEnd ++ post)).drop (strspn v ['b','y','t','e','s','=',' ','\t']) =
        v.drop (strspn v ['b','y','t','e','s','=',' ','\t']) ++ (lineEnd ++ post) := List.drop_append_of_le_length span
    simp only [valuePtr,n,value]
    have left := List.length_drop (i := strspn v ['b','y','t','e','s','=',' ','\t']) (l := v)
    generalize strspn v ['b','y','t','e','s','=',' ','\t'] = n at span left
    generalize v.drop n = value at left
    generalize backOverSpace (v ++ lineEnd) (strcspn v ['\r','\n']) = back at low
    have two : lineEnd.length = 2 := rfl
    have within : (value ++ (lineEnd ++ post)).take (back + 1 - n) = (value ++ lineEnd).take (back + 1 - n) := by
      rw [← List.append_assoc]
      refine List.take_append_of_le_length ?_
      rw [List.length_append]
      omega
    have chars {k : Nat} (small : k < 2) : charAt (value ++ (lineEnd ++ post)) k = charAt (value ++ lineEnd) k := by
      rw [← List.append_assoc]
      refine PullHttpAgent.charAppend ?_
      rw [List.length_append]
      omega
    have reaches : back + 1 ≤ n + (value ++ (lineEnd ++ post)).length := by
      rw [List.length_append,List.length_append]
      omega
    simp only [within,chars Nat.two_pos,chars Nat.one_lt_two,reaches,true_and]
    split <;> rfl

theorem positionLine (t post : Str) : position (t ++ (lineEnd ++ post)) = position t := by
  unfold position
  rw [(spanLine rfl t post).1]

/- The next '-' behind the line of the host is that of User-Agent. -/
theorem positionsOfLine (v post : Str) : firstPos (v ++ (lineEnd ++ ("User-Agent".toList ++ post))) = firstPos v ∧
    lastPos (v ++ (lineEnd ++ ("User-Agent".toList ++ post))) (-1) = lastPos v (-1) := by
  have whole := positionLine v ("User-Agent".toList ++ post)
  cases v with
  | nil => exact ⟨rfl,rfl⟩
  | cons c v =>
    have behind := positionLine v ("User-Agent".toList ++ post)
    have first (s : Str) : charAt (c :: s) 0 = c := rfl
    rw [List.cons_append] at whole ⊢
    unfold firstPos lastPos
    simp only [first,List.tail_cons,whole,behind]
    refine ⟨trivial,?_⟩
    cases Decidable.em ('-' ∈ v) with
    | inl minus =>
      obtain ⟨pre,tail,split,fresh⟩ := List.eq_append_cons_of_mem minus
      have sep (a : Str) : strchr (pre ++ '-' :: (tail ++ a)) '-' = some ('-' :: (tail ++ a)) := strchrFound fresh
      have next : (charAt ('-' :: (tail ++ (lineEnd ++ ("User-Agent".toList ++ post)))) 1).isDigit =
          (charAt ('-' :: tail) 1).isDigit := by
        cases tail with
        | nil => rfl
        | cons d tail => rfl
      have alone := sep []
      rw [List.append_nil] at alone
      rw [split,List.append_assoc,List.cons_append,sep,alone]
      simp only [next,List.tail_cons,positionLine]
    | inr fresh =>
      have fresh' : '-' ∉ v ++ "\r\nUser".toList := fun mem => by
        rcases List.mem_append.mp mem with mem | no
        · exact fresh mem
        · exact absurd no (by decide)
      have sep : strchr (v ++ (lineEnd ++ ("User-Agent".toList ++ post))) '-' = some ('-' :: ("Agent".toList ++ post)) := by
        have found : strchr (v ++ "\r\nUser".toList ++ '-' :: ("Agent".toList ++ post)) '-' = _ := strchrFound fresh'
        rw [List.append_assoc] at found
        exact found
      have none_ : strchr v '-' = none := strchrNone.mpr fresh
      rw [sep,none_]
      rfl

theorem unread {header : Str} (other : (getRange header 0 (-1)).1 ≠ 206) : (getRange header 0 (-1)).2 = (0,-1) := by
  revert other
  unfold getRange
  cases getValue header rangeKey with
  | none => exact fun _ => rfl
  | some found =>
    simp only
    split
    · exact fun _ => rfl
    · split
      · split
        · exact fun no => absurd rfl no
        · split <;> exact fun no => absurd rfl no
      · split
        · exact fun no => absurd rfl no
        · exact fun _ => rfl

theorem unreadText {header : Str} (text : rangeText header = none) : (getRange header 0 (-1)).2 = (0,-1) := by
  refine unread fun part => ?_
  rcases getRangeNone text with range | refused | refused
  · rw [range] at part
    cases part
  · rw [refused] at part
    cases part
  · rw [refused] at part
    cases part

/- With the key before that line the positions are read from there. -/
theorem heldDecides {front : Str} (held : strstr (front ++ " HTTP/1.1\r\nHost: ".toList ++ host) rangeKey ≠ none) :
    ∃ read, ∀ beginPos endPos, (getRange (front ++ afterUri host beginPos endPos) 0 (-1)).2 = read := by
  obtain ⟨rest,hit⟩ := Option.ne_none_iff_exists'.mp held
  obtain ⟨⟨q,split⟩,-⟩ := strstrFound hit
  have text (b e : Int) : front ++ afterUri host b e = front ++ " HTTP/1.1\r\nHost: ".toList ++ host ++
      (lineEnd ++ ("User-Agent".toList ++ (": Fcached/1.0".toList ++ (lineEnd ++
        ("Connection: close\r\nAccept: */*\r\n".toList ++ (rangeLine b e ++ lineEnd)))))) := by
    unfold afterUri
    simp only [List.append_assoc]
    rfl
  have found (a : Str) : strstr (front ++ " HTTP/1.1\r\nHost: ".toList ++ host ++ a) rangeKey = some (rest ++ a) :=
    strstrAppend hit
  have behind (a : Str) : (rest ++ a).drop rangeKey.length = q ++ a := by
    rw [← split,List.append_assoc,List.drop_left]
  cases Decidable.em (':' ∈ q) with
  | inl colon =>
    obtain ⟨pre,u,divided,fresh⟩ := List.eq_append_cons_of_mem colon
    refine ⟨(lineText u).elim (0,-1) fun v => (firstPos v,lastPos v (-1)),fun b e => ?_⟩
    have first (a : Str) : strchr ((rest ++ a).drop rangeKey.length) ':' = some (':' :: (u ++ a)) := by
      rw [behind,divided,List.append_assoc,List.cons_append]
      exact strchrFound fresh
    have read := textOfLine (found _) (first (lineEnd ++ ("User-Agent".toList ++ (": Fcached/1.0".toList ++ (lineEnd ++
        ("Connection: close\r\nAccept: */*\r\n".toList ++ (rangeLine b e ++ lineEnd)))))))
    rw [text]
    cases line : lineText u with
    | none =>
      rw [line] at read
      exact unreadText read
    | some v =>
      rw [line] at read
      rw [getRangeSome read,(positionsOfLine v _).1,(positionsOfLine v _).2]
      rfl
  | inr fresh =>
    refine ⟨(0,-1),fun b e => ?_⟩
    have fresh' : ':' ∉ q ++ "\r\nUser-Agent".toList := fun mem => by
      rcases List.mem_append.mp mem with mem | no
      · exact fresh mem
      · exact absurd no (by decide)
    have first (a : Str) :
        strchr ((rest ++ (lineEnd ++ ("User-Agent".toList ++ (": Fcached/1.0".toList ++ a)))).drop rangeKey.length) ':' =
        some (':' :: (" Fcached/1.0".toList ++ a)) := by
      have found : strchr (q ++ "\r\nUser-Agent".toList ++ ':' :: (" Fcached/1.0".toList ++ a)) ':' = _ := strchrFound fresh'
      rw [List.append_assoc] at found
      rw [behind]
      exact found
    have line : lineText " Fcached/1.0".toList = none := by decide
    have read := textOfLine (found _)
      (first (lineEnd ++ ("Connection: close\r\nAccept: */*\r\n".toList ++ (rangeLine b e ++ lineEnd))))
    rw [line] at read
    rw [text]
    exact unreadText read

/- A uri without blanks is passed over before the fields are read. -/
theorem handedOn (some_ : uri ≠ []) (noBlank : ∀ c ∈ uri, blank c = false) :
    httpHeader (sendReqest uri host beginPos endPos) = some (afterUri host beginPos endPos) := by
  have behind : (sendReqest uri host beginPos endPos).drop 4 = uri ++ afterUri host beginPos endPos := rfl
  have start : (uri ++ afterUri host beginPos endPos).drop (strspn (uri ++ afterUri host beginPos endPos) [' ','\t']) =
      uri ++ afterUri host beginPos endPos := by
    rw [strspnDrop]
    cases uri with
    | nil => exact absurd rfl some_
    | cons c uri => exact List.dropWhile_cons_of_neg (Bool.eq_false_iff.mp (noBlank c List.mem_cons_self))
  have len : strcspn (uri ++ afterUri host beginPos endPos) [' ','\t'] = uri.length := by
    unfold strcspn
    have taken : (uri ++ afterUri host beginPos endPos).takeWhile (fun c => !List.contains [' ','\t'] c) =
        uri ++ (afterUri host beginPos endPos).takeWhile (fun c => !List.contains [' ','\t'] c) :=
      List.takeWhile_append_of_pos fun c mem => congrArg not (noBlank c mem)
    have stops : (afterUri host beginPos endPos).takeWhile (fun c => !List.contains [' ','\t'] c) = [] := rfl
    rw [taken,stops,List.append_nil]
  have get : ['G','E','T'].isPrefixOf (sendReqest uri host beginPos endPos) = true := rfl
  unfold httpHeader getUri
  rw [if_pos get,behind]
  simp only [start,len]
  rw [if_neg (mt List.eq_nil_of_length_eq_zero some_),List.drop_left]
  rfl

end Reading

def Restores (text : Str) (beginPos endPos : Int) : Prop := (getRange text 0 (-1)).2 = (beginPos,endPos)
instance (text beginPos endPos) : Decidable (Restores text beginPos endPos) := by
  unfold Restores; infer_instance

/- The whole request or what follows its uri. -/
section Requests
variable (request : Int → Int → Str)

/- Every range comes back but the one of the first byte alone. -/
def LosesFirstByte : Prop :=
  ∀ beginPos endPos, Positions beginPos endPos →
    (Restores (request beginPos endPos) beginPos endPos ↔ ¬(beginPos = 0 ∧ endPos = 0))

/- No two ranges come back. -/
def RestoresOne : Prop :=
  ∀ beginPos endPos beginPos' endPos', Restores (request beginPos endPos) beginPos endPos →
    Restores (request beginPos' endPos') beginPos' endPos' → beginPos = beginPos' ∧ endPos = endPos'

end Requests

section Fronts
variable {front host : Str}

theorem plainLoses (uriPlain : strstr front rangeKey = none) (hostPlain : strstr host rangeKey = none) :
    LosesFirstByte fun beginPos endPos => front ++ afterUri host beginPos endPos := by
  intro b e positions
  unfold Restores
  rw [rangeRead positions (plainDivided uriPlain hostPlain)]
  obtain ⟨first,order,_⟩ := positions
  split
  · rename_i zero
    refine iff_of_false (fun same => ?_) fun other => other ⟨by omega,zero⟩
    have last := (Prod.mk.inj same).2
    omega
  · rename_i some_
    exact iff_of_true rfl fun both => some_ both.2

theorem heldRestores (held : strstr (front ++ " HTTP/1.1\r\nHost: ".toList ++ host) rangeKey ≠ none) :
    RestoresOne fun beginPos endPos => front ++ afterUri host beginPos endPos := by
  intro b e b' e' one other
  obtain ⟨read,reads⟩ := heldDecides held
  unfold Restores at one other
  rw [reads] at one other
  exact Prod.mk.inj (one.symm.trans other)

theorem uriHeld (held : strstr front rangeKey ≠ none) :
    strstr (front ++ " HTTP/1.1\r\nHost: ".toList ++ host) rangeKey ≠ none := by
  obtain ⟨rest,hit⟩ := Option.ne_none_iff_exists'.mp held
  rw [List.append_assoc,strstrAppend hit]
  exact Option.some_ne_none _

theorem hostHeld (held : strstr host rangeKey ≠ none) :
    strstr (front ++ " HTTP/1.1\r\nHost: ".toList ++ host) rangeKey ≠ none := by
  obtain ⟨rest,hit⟩ := Option.ne_none_iff_exists'.mp held
  obtain ⟨⟨q,first⟩,pre,behind⟩ := strstrFound hit
  obtain ⟨found,whole,_⟩ := strstrHits (front ++ " HTTP/1.1\r\nHost: ".toList ++ pre) rangeKey q
  have same : front ++ " HTTP/1.1\r\nHost: ".toList ++ host = front ++ " HTTP/1.1\r\nHost: ".toList ++ pre ++ rangeKey ++ q := by
    rw [← behind,← first]
    simp only [List.append_assoc]
  rw [same,whole]
  exact Option.some_ne_none _

end Fronts

/- The key in the uri or the host hides the Range line. Without it the request and what handle_data
gives of it are read alike. -/
theorem rangeRoundTrips (uri host : Str) :
    (if strstr uri rangeKey = none ∧ strstr host rangeKey = none then LosesFirstByte (sendReqest uri host)
      else RestoresOne (sendReqest uri host)) ∧
    (if strstr host rangeKey = none then LosesFirstByte (afterUri host) else RestoresOne (afterUri host)) := by
  have get (s : Str) : strstr ("GET ".toList ++ s) rangeKey = strstr s rangeKey :=
    strstrSkip (a := "GET".toList) (c := ' ') (by decide) (by decide) (by decide)
  constructor
  · split
    · rename_i plain
      exact plainLoses ((get uri).trans plain.1) plain.2
    · rename_i held
      refine heldRestores ?_
      cases Decidable.em (strstr uri rangeKey = none) with
      | inl plain => exact hostHeld fun hostPlain => held ⟨plain,hostPlain⟩
      | inr key => exact uriHeld fun none_ => key ((get uri).symm.trans none_)
  · split
    · rename_i plain
      exact @plainLoses [] host rfl plain
    · rename_i held
      exact @heldRestores [] host (hostHeld held)

theorem fiveToNineRestored : Positions 5 9 ∧ Restores (sendReqest "/a".toList "h".toList 5 9) 5 9 := by
  have positions : Positions 5 9 := ⟨by decide,by decide,by decide⟩
  have loses := (rangeRoundTrips "/a".toList "h".toList).1
  rw [if_pos (by decide)] at loses
  exact ⟨positions,(loses 5 9 positions).mpr (by decide)⟩

/- The first byte alone is asked for without a range. Behind a host with the key the value of
User-Agent is read. -/
theorem firstByteLost : Positions 0 0 ∧ getRange (sendReqest "/a".toList "h".toList 0 0) 0 (-1) = (200,0,-1) ∧
    ¬ Restores (sendReqest "/a".toList "h".toList 0 0) 0 0 ∧
    getRange (sendReqest "/a".toList "Range.h".toList 5 9) 0 (-1) = (416,0,-1) ∧
    ¬ Restores (sendReqest "/a".toList "Range.h".toList 5 9) 5 9 := by
  refine ⟨⟨by decide,by decide,by decide⟩,?_⟩
  decide +kernel

end CuteNdk.PullHttpReqest
