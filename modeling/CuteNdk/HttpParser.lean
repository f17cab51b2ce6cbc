import CuteNdk.Lib.CString

/-! http_parser: the values of header fields. The header is the text up to its
terminator. -/
namespace CuteNdk.HttpParser
open Lib.CString

def charAt (s : Str) (n : Nat) : Char := s.getD n '\x00'

/- while (*v_end > key_p && isspace(**v_end)) --(*v_end), v_end counted from
key_p. -/
def backOverSpace (keyP : Str) : Nat → Nat
  | 0 => 0
  | n + 1 => if isspace (charAt keyP (n + 1)) then backOverSpace keyP n else n + 1

/- The text from the value on, and how far *v_end is from there. -/
def getValue (header key : Str) : Option (Str × Nat) :=
  match strstr header key with
  | none => none
  | some keyP =>
    match strchr (keyP.drop key.length) ':' with
    | none => none
    | some colon =>
      if charAt colon 1 = '\r' then none
      else
        let keyP := colon.tail.drop (strspn colon.tail [' ','\t'])
        let len := strcspn keyP ['\r','\n']
        if len = 0 then none else some (keyP,backOverSpace keyP len + 1)

/- begin_pos and end_pos of a Content-Range, as 0-1234/23434 or -1234/23434. -/
def rangeBounds (valuePtr : Str) : Option (Int × Int) :=
  if (charAt valuePtr 0).isDigit then
    match strchr (valuePtr.drop 1) '-' with
    | none => none
    | some sep => some (strtoll valuePtr,if (charAt sep 1).isDigit then strtoll (sep.drop 1) else -1)
  else if charAt valuePtr 0 = '-' then
    some (0,if (charAt valuePtr 1).isDigit then strtoll (valuePtr.drop 1) else -1)
  else none

def rangeEntity (valuePtr : Str) : Option Int :=
  match strchr valuePtr '/' with
  | none => none
  | some sep => if (charAt sep 1).isDigit then some (strtoll (sep.drop 1)) else none

/- begin_pos, end_pos and entity_length; -1 is none. -/
def getContentRange (str : Str) : Option (Int × Int × Int) :=
  match getValue str "Content-Range".toList with
  | none => none
  | some (beginPtr,_) =>
    let valuePtr := beginPtr.drop (strspn beginPtr "bytes \t".toList)
    match rangeBounds valuePtr with
    | none => none
    | some (beginPos,endPos) =>
      match rangeEntity valuePtr with
      | none => none
      | some entityLength => some (beginPos,endPos,entityLength)

theorem firstDigit {ds : Str} (number : Digits ds) (rest : Str) : (charAt (ds ++ rest) 0).isDigit = true := by
  obtain ⟨some_,all⟩ := number
  cases ds with
  | nil => exact absurd rfl some_
  | cons d ds => exact all d List.mem_cons_self

end CuteNdk.HttpParser
