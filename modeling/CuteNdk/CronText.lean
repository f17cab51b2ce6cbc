import CuteNdk.TimerQueue
import Mathlib.Data.List.DropRight

/-! parse_cron_entry: a crontab entry from its text to the arrays of its five fields.
A result of none is an access outside the private copy, up to and including its
terminator, or outside an item array, a number computed that is not an int, or a loop
that does not end; otherwise it is the int returned and the arrays. -/
namespace CuteNdk.CronText
open Lib.CString
open CronField (Item getListByToken)
open TimerQueue (CronEntry)

def NUL : Char := '\x00'

/- FIRST_x and LAST_x of a field; its item array is one longer than LAST_x. -/
structure Range where
  first : Nat
  last : Nat
  order : first ≤ last
  small : last < 60

def Range.count (r : Range) : Nat := r.last + 1

def minute : Range := ⟨0,59,by decide,by decide⟩
def hour : Range := ⟨0,23,by decide,by decide⟩
def mday : Range := ⟨1,31,by decide,by decide⟩
def month : Range := ⟨1,12,by decide,by decide⟩
def wday : Range := ⟨0,7,by decide,by decide⟩

def IsInt (n : Int) : Prop := -2147483648 ≤ n ∧ n ≤ 2147483647
instance (n) : Decidable (IsInt n) := by unfold IsInt; infer_instance

/- What sscanf(entry, "%d", &b) leaves in b, and "%d-%d" in b and e, both -1 before. -/
def scanned (entry : Str) : Int := ((scanInt entry).map Prod.fst).getD (-1)

def scanBounds (entry : Str) : Int × Int :=
  match scanInt entry with
  | some (b,'-' :: rest) => (b,match scanInt rest with | some (e,_) => e | none => -1)
  | some (b,_) => (b,-1)
  | none => (-1,-1)

/- The b and e, and the step, of get_list_by_range_and_step. -/
def stepBounds (r : Range) (entry : Str) : Int × Int :=
  let p1 := (strrchr entry '-').getD []
  if p1.length ≠ entry.length then
    (atoi entry,if (p1.drop 1).head? = some '/' then r.last else atoi (p1.drop 1))
  else if (p1.drop 1).head? = some '/' then (r.first,r.last) else (-1,atoi (p1.drop 1))

def stepOf (entry : Str) : Int :=
  let p2 := (strrchr entry '/').getD []
  if p2.drop 1 = [] then 1 else atoi (p2.drop 1)

/- The numbers a recogniser reads from an item before it has seen to their range, and
the sum in which a step of get_list_by_step may pass the last int. -/
def computed (r : Range) (entry : Str) : List Int :=
  if '-' ∈ entry ∧ '/' ∈ entry then
    if entry.count '-' > 1 ∨ entry.count '/' > 1 ∨ entry.head? = some '/' then []
    else [(stepBounds r entry).1,(stepBounds r entry).2,stepOf entry]
  else if '-' ∈ entry then
    if entry.count '-' > 1 then []
    else if entry.head? = some '-' then [atoi (entry.drop 1)]
    else if entry.getLast? = some '-' then [atoi entry]
    else [(scanBounds entry).1,(scanBounds entry).2]
  else if '/' ∈ entry then
    if entry.count '/' > 1 then []
    else if entry.head? = some '*' then
      if entry[1]? = some '/' then [atoi (entry.drop 2),r.first + atoi (entry.drop 2)] else []
    else [scanned entry]
  else if (entry.head?.map Char.isDigit).getD false then [atoi entry] else []

def Computes (r : Range) (entry : Str) : Prop := ∀ n ∈ computed r entry, IsInt n
instance (r entry) : Decidable (Computes r entry) := by unfold Computes; infer_instance

def readItem (r : Range) (entry : Str) (item : Item) : Option (Int × Item) :=
  if Computes r entry then getListByToken entry item r.first r.last r.count else none

/- for (p = bf; ; p = NULL) in get_list. -/
def readItems (r : Range) : List Str → Item → Option (Int × Item)
  | [], item => some (0,item)
  | token :: tokens, item => do
    let (result,item) ← readItem r token item
    if result ≠ 0 then some (result,item) else readItems r tokens item

def parseCronEntryI (r : Range) (entry : Str) (item : Item) : Option (Int × Item) :=
  if ',' ∈ entry then readItems r (strtok entry ',') item else readItem r entry item

/- A text of blanks only leaves last null, and last - begin is no length then. -/
def strstrip (inStr : Str) : Option Str :=
  if inStr = [] then some []
  else if inStr.dropWhile isspace = [] then none
  else some ((inStr.dropWhile isspace).rdropWhile isspace)

def monthList : List Str := [['j','a','n'],['f','e','b'],['m','a','r'],['a','p','r'],['m','a','y'],
  ['j','u','n'],['j','u','l'],['a','u','g'],['s','e','p'],['o','c','t'],['n','o','v'],['d','e','c']]

def wdayList : List Str := [['s','u','n'],['m','o','n'],['t','u','e'],['w','e','d'],['t','h','u'],
  ['f','r','i'],['s','a','t']]

def digits (n : Nat) : Str :=
  if n < 10 then [Char.ofNat (48 + n)] else [Char.ofNat (48 + n / 10),Char.ofNat (48 + n % 10)]

/- The rest of the text moves left, up to what is shorter about the number. -/
def replaceFrom (str : Str) (n : Nat) : Nat → Str → Option Str
  | 0, _ => none
  | fuel + 1, en =>
    match strstr en str with
    | none => some en
    | some p => replaceFrom str n fuel (en.take (en.length - p.length) ++ (digits n ++ p.drop 3))

def replace (en str : Str) (n : Nat) : Option Str := replaceFrom str n (en.length + 1) en

/- replace(entry, list[i], i + shift) for each i. -/
def replaceEach : List Str → Nat → Str → Option Str
  | [], _, en => some en
  | str :: list, n, en => do
    let en ← replace en str n
    replaceEach list (n + 1) en

def specialList : List (Str × Str) := [
  (['@','y','e','a','r','l','y'],['0',' ','0',' ','1',' ','1',' ','*']),
  (['@','m','o','n','t','h','l','y'],['0',' ','0',' ','1',' ','*',' ','*']),
  (['@','w','e','e','k','l','y'],['0',' ','0',' ','*',' ','*',' ','0']),
  (['@','d','a','i','l','y'],['0',' ','0',' ','*',' ','*',' ','*']),
  (['@','h','o','u','r','l','y'],['0',' ','0',' ','*',' ','*',' ','*'])]

def strcasecmp (s t : Str) : Bool := s.map Char.toLower == t.map Char.toLower

def substitute (entry : Str) : Str :=
  specialList.foldl (fun entry s => if strcasecmp entry s.1 then s.2 else entry) entry

/- "convert string to numberic" -/
def numeric (entry : Str) : Option Str := do
  let entry ← replaceEach monthList 1 (entry.map Char.toLower)
  replaceEach wdayList 0 entry

/- The text of the private copy when the fields are cut, or none when the entry has
been refused before. -/
def copyEntry (en : Str) : Option (Option Str) :=
  if (en.dropWhile isspace).head? = some '@' then
    if strchr (en.drop 1) '@' ≠ none then some none
    else some (some (substitute [])) -- the comparisons come after the memset
  else do
    let entry ← strstrip en
    if entry.length < 9 then some none else (numeric entry).map some

def store (b : Str) (p : Nat) (c : Char) : Option Str := if p < b.length then some (b.set p c) else none

/- while (!isspace(*p)) ++p; -/
def skipField (b : Str) : Nat → Nat → Option Nat
  | 0, _ => none
  | fuel + 1, p => do
    let c ← b[p]?
    if isspace c then some p else skipField b fuel (p + 1)

/- while (isspace(*p) || *p == '\0') ++p; -/
def skipGap (b : Str) : Nat → Nat → Option Nat
  | 0, _ => none
  | fuel + 1, p => do
    let c ← b[p]?
    if isspace c ∨ c = NUL then skipGap b fuel (p + 1) else some p

/- _ADVANCE(p) on the bytes of the copy. -/
def advance (b : Str) (p : Nat) : Option (Str × Nat) := do
  let p ← skipField b (b.length + 1) p
  let b ← store b p NUL
  let p ← skipGap b (b.length + 1) p
  let b ← store b (p - 1) NUL
  some (b,p)

def cstr (b : Str) (p : Nat) : Str := (b.drop p).takeWhile fun c => c != NUL

/- min, hour, mday, month and wday, as they read in the end. -/
def cutEntry (entry : Str) : Option (Str × Str × Str × Str × Str) := do
  let b := entry ++ [NUL]
  let (b,hour) ← advance b 0
  let (b,mday) ← advance b hour
  let (b,month) ← advance b mday
  let (b,wday) ← advance b month
  some (cstr b 0,cstr b hour,cstr b mday,cstr b month,cstr b wday)

/- if (item[FIRST_WDAY]) item[LAST_WDAY] = 1; and the other way round. -/
def aliasSunday (item : Item) : Option Item := do
  let first ← item[wday.first]?
  let item := if first then item.set wday.last true else item
  let last ← item[wday.last]?
  some (if last then item.set wday.first true else item)

def parseFields (min hour mday month wday : Str) (e : CronEntry) : Option (Int × CronEntry) := do
  let (result,item) ← parseCronEntryI CronText.minute min e.min
  let e := { e with min := item }
  if result ≠ 0 then some (result,e) else
  let (result,item) ← parseCronEntryI CronText.hour hour e.hour
  let e := { e with hour := item }
  if result ≠ 0 then some (result,e) else
  let (result,item) ← parseCronEntryI CronText.mday mday e.mday
  let e := { e with mday := item }
  if result ≠ 0 then some (result,e) else
  let (result,item) ← parseCronEntryI CronText.month month e.month
  let e := { e with month := item }
  if result ≠ 0 then some (result,e) else
  let (result,item) ← parseCronEntryI CronText.wday wday e.wday
  let e := { e with wday := item }
  if result ≠ 0 then some (result,e) else
  let item ← aliasSunday e.wday
  some (0,{ e with wday := item })

def parseCronEntry (en : Str) (e : CronEntry) : Option (Int × CronEntry) := do
  match ← copyEntry en with
  | none => some (-1,e)
  | some entry =>
    let (min,hour,mday,month,wday) ← cutEntry entry
    parseFields min hour mday month wday e

/- What alloc_cron_entry hands to parse_cron_entry. -/
def blankEntry : CronEntry where
  min := List.replicate minute.count false
  hour := List.replicate hour.count false
  mday := List.replicate mday.count false
  month := List.replicate month.count false
  wday := List.replicate wday.count false

/- 18:30 on the first of June, whatever the day of the week. -/
example : (parseCronEntry "30 18 1 jun *".toList blankEntry).map (fun r => (r.1,r.2.month)) =
    some (0,(List.replicate 13 false).set 6 true) := by decide +kernel

end CuteNdk.CronText
