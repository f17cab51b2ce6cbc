import CuteNdk.DictionaryRuns
import Mathlib.Data.List.DropRight

/-! iniparser.c: an ini file from its lines to a dictionary, and back. A line may go on in the next
one behind a backslash. A file is its characters; a character stands for a byte. A result of none
is undefined: a write outside a buffer, or what dictionary.c leaves undefined. -/
namespace CuteNdk.Ini
open Lib.CString

def asciiLineSz : Nat := 1024

def nul : Char := Char.ofNat 0

def strlwc (s : Str) : Str := (s.take asciiLineSz).map Char.toLower

/- The text without the blanks at its end. -/
def rstrip (s : Str) : Str := s.rdropWhile isspace

def strstrip (s : Str) : Str := rstrip (s.dropWhile isspace)

inductive LineStatus where
  | error
  | empty
  | comment
  | section_ (name : Str)
  | value (key value : Str)
  deriving DecidableEq, Repr

/- "%[...]": at least one character. It skips no blanks. -/
def scanSet (set_ : Char → Bool) (s : Str) : Option (Str × Str) :=
  match s.takeWhile set_ with
  | [] => none
  | t => some (t,s.dropWhile set_)

/- A character of the format that is no blank. -/
def literal (c : Char) : Str → Option Str
  | [] => none
  | d :: s => if d = c then some s else none

/- "%[^=] ": the key, and the text behind the blanks after it. -/
def scanKey (line : Str) : Option (Str × Str) :=
  (scanSet (fun c => c ≠ '=') line).map fun scanned => (scanned.1,scanned.2.dropWhile isspace)

/- "%[^=] = " -/
def scanEquals (line : Str) : Option (Str × Str) :=
  (scanKey line).bind fun scanned => (literal '=' scanned.2).map fun rest => (scanned.1,rest.dropWhile isspace)

/- "%[^=] = \"%[^\"]\"" and "%[^=] = '%[^\']'". Both conversions are made before the last quote is
looked for. -/
def scanQuoted (quote : Char) (line : Str) : Option (Str × Str) :=
  (scanEquals line).bind fun scanned => (literal quote scanned.2).bind fun rest =>
    (scanSet (fun c => c ≠ quote) rest).map fun value => (scanned.1,value.1)

/- "%[^=] = %[^;#]" -/
def scanPlain (line : Str) : Option (Str × Str) :=
  (scanEquals line).bind fun scanned =>
    (scanSet (fun c => c ≠ ';' ∧ c ≠ '#') scanned.2).map fun value => (scanned.1,value.1)

/- "%[^=] = %[;#]" -/
def scanMark (line : Str) : Option (Str × Str) :=
  (scanEquals line).bind fun scanned =>
    (scanSet (fun c => c = ';' ∨ c = '#') scanned.2).map fun value => (scanned.1,value.1)

/- "%[^=] %[=]" -/
def scanBare (line : Str) : Option (Str × Str) :=
  (scanKey line).bind fun scanned => (scanSet (fun c => c = '=') scanned.2).map fun value => (scanned.1,value.1)

/- The section is what it was where sscanf finds no name in the line. -/
def iniparserLine (section_ inputLine : Str) : LineStatus :=
  let line := strstrip inputLine
  if line = [] then .empty
  else if line.head? = some '#' then .comment
  else if line.head? = some '[' ∧ line.getLast? = some ']' then
    .section_ (strlwc (strstrip ((scanSet (fun c => c ≠ ']') line.tail).elim section_ Prod.fst)))
  else
    match (scanQuoted '"' line).or ((scanQuoted (Char.ofNat 39) line).or (scanPlain line)) with
    | some (key,value) =>
      let value := strstrip value
      .value (strlwc (strstrip key))
        (if value = ['"','"'] ∨ value = [Char.ofNat 39,Char.ofNat 39] then [] else value)
    | none =>
      match (scanMark line).or (scanBare line) with
      | some (key,_) => .value (strlwc (strstrip key)) []
      | none => .error

/- Up to size - 1 characters, and none behind the end of a line. -/
def fgets (size : Nat) (in_ : Str) : Option (Str × Str) :=
  if in_ = [] then none
  else
    let most := in_.take (size - 1)
    let chunk := most.take ((most.takeWhile fun c => c ≠ '\n').length + 1)
    some (chunk,in_.drop chunk.length)

/- kept are the characters of line in front of last. It is none when last is -1. -/
structure Loading where
  dict : Dictionary
  section_ : Str
  kept : Option Str
  errs : Int
  lineno : Nat
  deriving DecidableEq, Repr

inductive Turn where
  | tooLong
  | next (s : Loading)
  | stop (s : Loading)
  deriving DecidableEq, Repr

/- The end of iniparser_load. -/
def finish (s : Loading) : Option (Option Dictionary) :=
  if s.errs = 0 then some (some s.dict) else (dictionaryDel s.dict).map fun _ => none

/- The switch over the status of a line. allocs are granted line by line. -/
def settle (allocs : Nat → Grants) (s : Loading) (line : Str) : Option Loading :=
  match iniparserLine s.section_ line with
  | .empty => some s
  | .comment => some s
  | .section_ name =>
    (dictionarySet (allocs s.lineno) s.dict name none).map fun set_ =>
      { s with section_ := name, errs := set_.1, dict := set_.2 }
  | .value key value =>
    -- tmp has room for ASCIILINESZ characters
    if asciiLineSz < s.section_.length + 1 + key.length then none
    else
      (dictionarySet (allocs s.lineno) s.dict (s.section_ ++ ':' :: key) (some value)).map fun set_ =>
        { s with errs := set_.1, dict := set_.2 }
  | .error => some { s with errs := s.errs + 1 }

/- A turn of the loop, with what fgets has put behind kept. before is the byte in front of line:
line[-1] is read for a line of blanks. -/
def loadTurn (allocs : Nat → Grants) (before : Char) (s : Loading) (kept chunk : Str) : Option Turn :=
  let s := { s with lineno := s.lineno + 1 }
  let line := (kept ++ chunk).takeWhile fun c => c ≠ nul
  if line.getLast?.getD before ≠ '\n' then some .tooLong
  else
    let line := rstrip line
    if line.getLast?.getD before = '\\' then
      some (.next { s with kept := if line = [] then none else some line.dropLast })
    else
      (settle allocs s line).map fun s =>
        if s.errs < 0 then .stop { s with kept := some [] } else .next { s with kept := some [] }

/- The loop over the lines. A turn takes a character at least. -/
def loadFrom (allocs : Nat → Grants) (before : Char) : Nat → Loading → Str → Option (Option Dictionary)
  | 0, s, _ => finish s
  | fuel + 1, s, in_ =>
    match s.kept, fgets (asciiLineSz - (s.kept.getD []).length) in_ with
    | _, none => finish s
    | none, some _ => none -- what is read goes in front of line
    | some kept, some (chunk,rest) =>
      (loadTurn allocs before s kept chunk).bind fun turn =>
        match turn with
        | .tooLong => (dictionaryDel s.dict).map fun _ => none
        | .stop s => finish s
        | .next s => loadFrom allocs before fuel s rest

/- A file that cannot be opened is none. -/
def iniparserLoad (allocs : Nat → Grants) (before : Char) (file : Option Str) : Option (Option Dictionary) :=
  match file, dictionaryNew (allocs 0) 0 with
  | none, _ => some none
  | some _, none => some none
  | some text, some dict => loadFrom allocs before (text.length + 1) ⟨dict,[],some [],0,0⟩ text

def iniparserGetstring (d : Dictionary) (key : Str) (def_ : CharPtr) : Option CharPtr := dictionaryGet d (strlwc key) def_

namespace Dictionary

def keys (d : Dictionary) : List (Str × Option Str) := d.slots.filterMap Slot.entry

/- The entries without a colon, in the order of the slots. -/
def sections (d : Dictionary) : List Str := (d.keys.filter fun e => ':' ∉ e.1).map Prod.fst

end Dictionary

def iniparserGetnsec (d : Dictionary) : Nat := d.sections.length

def iniparserGetsecname (d : Dictionary) (n : Nat) : Option Str := d.sections[n]?

/- "%-30s" -/
def pad30 (s : Str) : Str := s ++ List.replicate (30 - s.length) ' '

/- The keys of a section. -/
def dumpSection (d : Dictionary) (secname : Str) : Str :=
  d.keys.flatMap fun e =>
    if (secname ++ [':']).isPrefixOf e.1 then
      pad30 (e.1.drop (secname.length + 1)) ++ " = ".toList ++ e.2.getD [] ++ ['\n']
    else []

/- Without a section the keys go as they are, and a null value has no text. keym has room for
ASCIILINESZ characters. -/
def iniparserDumpIni (d : Dictionary) : Option Str :=
  if ¬(d.key ∧ d.val) then none
  else if iniparserGetnsec d < 1 then
    (d.keys.mapM fun (e : Str × Option Str) => e.2.map fun val => e.1 ++ " = ".toList ++ val ++ ['\n']).map List.flatten
  else
    ((List.range (iniparserGetnsec d)).mapM fun i =>
      (iniparserGetsecname d i).bind fun secname =>
        if asciiLineSz < secname.length + 1 then none
        else some (['\n','['] ++ secname ++ [']','\n'] ++ dumpSection d secname)).map fun sections =>
          sections.flatten ++ ['\n']

end CuteNdk.Ini
