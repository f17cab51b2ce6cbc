import CuteNdk.Lib.CString

/-! One field of a crontab entry: the five recognisers of ndk_help and the
choice between them. A result of none is a write outside the item array or a
loop that does not end; otherwise it is the int returned and the array. -/
namespace CuteNdk.CronField
open Lib.CString

abbrev Item := List Bool

def put (item : Item) (i : Int) : Option Item :=
  if 0 ≤ i ∧ i < item.length then some (item.set i.toNat true) else none

/- for (; i <= last; i += step) item[i] = 1; with the i it ends at. -/
def fillFrom (last step : Int) : Nat → Int → Item → Option (Item × Int)
  | 0, _, _ => none
  | fuel + 1, i, item =>
    if i ≤ last then do
      let item ← put item i
      fillFrom last step fuel (i + step) item
    else some (item,i)

def fill (item : Item) (first last step : Int) : Option (Item × Int) :=
  fillFrom last step ((last - first).toNat + 2) first item

def done (r : Item × Int) : Int × Item := (0,r.1)

def getListByItem (entry : Str) (item : Item) (first last : Int) : Option (Int × Item) :=
  match entry with
  | '*' :: _ => (fill item first last 1).map done
  | c :: _ => if c.isDigit then (put item (atoi entry)).map (0,·) else some (-1,item)
  | [] => some (-1,item)

def getListByRange (entry : Str) (item : Item) (first last : Int) : Option (Int × Item) :=
  if entry.count '-' > 1 then some (-1,item) else
  match strchr entry '-' with
  | none => none
  | some p =>
    if p.length = entry.length then -- -4
      (fill item first (atoi (entry.drop 1)) 1).map done
    else if p.drop 1 = [] then -- 4-
      (fill item (atoi entry) last 1).map done
    else -- 3-5 5-3
      let (b,e) : Int × Int := match scanInt entry with
        | some (b,'-' :: rest) => (b,match scanInt rest with | some (e,_) => e | none => -1)
        | some (b,_) => (b,-1)
        | none => (-1,-1)
      if b > last ∨ b < first then some (-1,item)
      else if e > last ∨ e < first then some (-1,item)
      else if b > e then do
        let (item,_) ← fill item b last 1
        (fill item first e 1).map done
      else (fill item b e 1).map done

def getListByRangeAndStep (entry : Str) (item : Item) (first last count : Int) : Option (Int × Item) :=
  if entry.count '-' > 1 then some (-1,item)
  else if entry.count '/' > 1 then some (-1,item)
  else if entry.head? = some '/' then some (-1,item) else
  match strrchr entry '-', strrchr entry '/' with
  | some p1, some p2 =>
    let (b,e) : Int × Int :=
      if p1.length ≠ entry.length then -- 10-20/2 10-/2 10-/
        (atoi entry,if (p1.drop 1).head? = some '/' then last else atoi (p1.drop 1))
      else -- -20/2 -20/ -/
        if (p1.drop 1).head? = some '/' then (first,last) else (-1,atoi (p1.drop 1))
    let step := if p2.drop 1 = [] then 1 else atoi (p2.drop 1)
    if step = 0 then some (-1,item)
    else if b > last ∨ b < first then some (-1,item)
    else if e > last ∨ e < first then some (-1,item)
    else if step > last ∨ step < first then some (-1,item)
    else if b > e then do
      let (item,i) ← fill item b last step
      (fill item (i.tmod count + first) e step).map done
    else (fill item b e step).map done
  | _, _ => none

def getListByStep (entry : Str) (item : Item) (first last : Int) : Option (Int × Item) :=
  if entry.count '/' > 1 then some (-1,item) else
  match strchr entry '/' with
  | none => none
  | some p =>
    if entry.head? = some '*' then
      if p.length + 1 ≠ entry.length then some (-1,item)
      else
        let step := atoi (entry.drop 2)
        if step = 0 then some (-1,item) else (fill item first last step).map done
    else
      let b : Int := match scanInt entry with | some (b,_) => b | none => -1
      if b > last ∨ b < first then some (-1,item) else (put item b).map (0,·)

/- The choice between the recognisers, which get_list makes for each token and
parse_cron_entry_i for an entry without a comma. -/
def getListByToken (entry : Str) (item : Item) (first last count : Int) : Option (Int × Item) :=
  if '-' ∈ entry ∧ '/' ∈ entry then getListByRangeAndStep entry item first last count
  else if '-' ∈ entry then getListByRange entry item first last
  else if '/' ∈ entry then getListByStep entry item first last
  else getListByItem entry item first last

def getListTokens (first last count : Int) : List Str → Item → Option (Int × Item)
  | [], item => some (0,item)
  | token :: tokens, item => do
    let (result,item) ← getListByToken token item first last count
    if result ≠ 0 then some (result,item) else getListTokens first last count tokens item

def getList (entry : Str) (item : Item) (first last count : Int) : Option (Int × Item) :=
  getListTokens first last count (strtok entry ',') item

def parseCronEntryI (entry : Str) (item : Item) (first last count : Int) : Option (Int × Item) :=
  if ',' ∈ entry then getList entry item first last count
  else getListByToken entry item first last count

/- The fields whose values run from first to last without an alias. -/
inductive Field where | minute | hour | mday | month deriving DecidableEq, Repr

def Field.first : Field → Nat
  | .minute | .hour => 0
  | .mday | .month => 1
def Field.last : Field → Nat
  | .minute => 59
  | .hour => 23
  | .mday => 31
  | .month => 12
def Field.count : Field → Nat
  | .minute => 60
  | .hour => 24
  | .mday => 32
  | .month => 13

end CuteNdk.CronField
