import CuteNdk.Lib.CString
import Mathlib.Data.List.Sort
import Mathlib.Data.List.Lex
import Mathlib.Data.Char

/-! log_manager: what the configuration says of a module. Texts are the characters before the
terminator. A result of none is undefined: a pointer subtracted from null, an iterator past the
end erased, a copy that overflows its buffer. -/
namespace CuteNdk.Log
open Lib.CString

/- The values of the ini file under section:key, in lower case. -/
abbrev Dictionary := List (Str × Str)

def maxModuleNameLen : Nat := 255

def modulesSection : Str := "modules".toList
def logAttrType : Str := "__type__".toList
def logAttrOutput : Str := "__output__".toList
def logAttrMaxLenOfOneRecord : Str := "__max_len_of_one_record__".toList

/- LT_SHUTDOWN and on: the bit of each is its index. -/
def logTypeList : List Str :=
  ["SHUTDOWN","TRACE","DEBUG","WNING","ERROR","RINFO","FATAL","ALLS"].map String.toList

def llShutdown : Nat := 1
def llAlls : Nat := 0x80
def llAllType : Nat := 0x7e

structure ModuleEntry where
  logType : Nat
  maxLenOfOneRecord : Int
  outputList : List Str
  deriving DecidableEq, Repr

def ModuleEntry.new : ModuleEntry := ⟨0,511,[]⟩

/- The text without the blanks around it, cut to len. Nothing is left of a text of blanks: last
stays null and its distance to begin is undefined. -/
def strstrip (inStr : Str) (len : Nat) : Option Str :=
  match inStr.dropWhile isspace with
  | [] => none
  | begin => some ((begin.reverse.dropWhile isspace).reverse.take len)

/- A key word of get_token_list. -/
def keyWord (is : Str) : Option Str :=
  if is.head? = some ' ' ∨ is.getLast? = some ' ' then strstrip is is.length else some is

/- The loop of get_token_list from pos on. first: pos is at the first letter. A turn takes at
least one letter. -/
def tokensFrom (sep : Char) : Nat → Bool → Str → Option (List Str)
  | 0, _, _ => some []
  | _ + 1, _, [] => some []
  | fuel + 1, first, c :: rest =>
    if c = sep then
      let ends := rest.head?.all fun next => next = sep
      (tokensFrom sep fuel false rest).map fun tokens =>
        (if first then [[]] else []) ++ (if ends then [[]] else []) ++ tokens
    else
      (keyWord ((c :: rest).takeWhile fun d => d ≠ sep)).bind fun token =>
        (tokensFrom sep fuel false ((c :: rest).dropWhile fun d => d ≠ sep)).map fun tokens => token :: tokens

def getTokenList (buff : Str) (sep : Char) : Option (List Str) := tokensFrom sep buff.length true buff

/- snprintf cuts the key to fit name. An empty value is none. -/
def getConfigAttribe (ini : Dictionary) (section_ key : Str) (attr : Option Str) : Option Str :=
  let name := (section_ ++ ':' :: key ++ attr.elim [] fun attr => '.' :: attr).take (maxModuleNameLen - 1)
  (ini.lookup (name.map Char.toLower)).filter fun value => value ≠ []

/- The bits of the tokens, and all of them with ALLS. -/
def typeOf (tokens : List Str) : Nat :=
  let type := tokens.foldl (fun type token =>
    (List.range logTypeList.length).foldl (fun type j =>
      if logTypeList[j]? = some token then type ||| 1 <<< j else type) type) 0
  if type &&& llAlls = 0 then type else type ||| llAllType

def getLogType (ini : Dictionary) (mname : Str) : Option Nat :=
  match getConfigAttribe ini modulesSection mname (some logAttrType) with
  | none => some 0
  | some logType => (getTokenList logType '|').map typeOf

/- The name up to its last dot, as *pos = '\0' leaves it. -/
def parent (name : Str) : Option Str := (strrchr name '.').map fun pos => name.take (name.length - pos.length)

/- The types of the name and of all above it. parent is a copy in a buffer of 256. Each name is
shorter than the one before. -/
def getParentLogType (ini : Dictionary) : Nat → Str → Option Nat
  | 0, mname => getLogType ini mname
  | fuel + 1, mname =>
    (getLogType ini mname).bind fun l =>
      match parent mname with
      | none => some l
      | some above =>
        if maxModuleNameLen < above.length then none
        else (getParentLogType ini fuel above).map fun type => l ||| type

def getLogOutput (ini : Dictionary) (mname : Str) : Option (List Str) :=
  match getConfigAttribe ini modulesSection mname (some logAttrOutput) with
  | none => some []
  | some output => getTokenList output ','

/- The loop of get_parent_output. -/
def parentOutput (ini : Dictionary) : Nat → Str → Option (List Str)
  | 0, _ => some []
  | fuel + 1, name =>
    match parent name with
    | none => some []
    | some name => (getLogOutput ini name).bind fun ret => (parentOutput ini fuel name).map fun ot => ret ++ ot

def getParentOutput (ini : Dictionary) (mname : Str) : Option (List Str) :=
  parentOutput ini mname.length (mname.take maxModuleNameLen)

def getLogMaxLenOfOneRecord (ini : Dictionary) (mname : Str) : Option Str :=
  getConfigAttribe ini modulesSection mname (some logAttrMaxLenOfOneRecord)

/- The loop of get_parent_value. -/
def parentValue (func : Str → Option Str) : Nat → Str → Option Str
  | 0, _ => none
  | fuel + 1, name =>
    match parent name with
    | none => none
    | some name =>
      match func name with
      | some value => some value
      | none => parentValue func fuel name

def getParentValue (func : Str → Option Str) (mname : Str) : Option Str :=
  parentValue func mname.length (mname.take maxModuleNameLen)

def getParentMaxLenOfOneRecord (ini : Dictionary) (mname : Str) : Option Str :=
  getParentValue (getLogMaxLenOfOneRecord ini) mname

instance : LawfulBEq Str := inferInstance

/- std::unique: the elements that follow one they equal go. -/
def unique : List Str → List Str
  | [] => []
  | [a] => [a]
  | a :: b :: l => if a = b then unique (b :: l) else a :: unique (b :: l)

/- The loop over neg. find answers end where the name is not in the list. -/
def eraseNeg : List Str → List Str → Option (List Str)
  | outputs, [] => some outputs
  | outputs, n :: neg =>
    let s := n.tail
    if s = [] then eraseNeg outputs neg
    else if s ∈ outputs then eraseNeg (outputs.erase s) neg
    else none

def negated (output : Str) : Bool := output.head? = some '~'

/- 2. of get_module_cfg_entry. -/
def resolveOutputs (ini : Dictionary) (mname : Str) : Option (List Str) :=
  (getLogOutput ini mname).bind fun own =>
    (if '.' ∈ mname then getParentOutput ini mname else some []).bind fun above =>
      let outputs := own ++ above.filter fun output => !negated output
      eraseNeg (unique (outputs.insertionSort (· ≤ ·))) (own.filter negated)

/- static_cast of atoi: what it is as an int. -/
def atoiInt (s : Str) : Int := (strtoll s).bmod 0x100000000

def getModuleCfgEntry (ini : Option Dictionary) (mname : Str) : Option ModuleEntry :=
  match ini with
  | none => some ModuleEntry.new
  | some ini =>
    (getLogType ini mname).bind fun type =>
      (if '.' ∈ mname then getParentLogType ini mname.length mname else some 0).bind fun parentType =>
        (resolveOutputs ini mname).map fun outputs =>
          let maxLen := (getLogMaxLenOfOneRecord ini mname).or
            (if '.' ∈ mname then getParentMaxLenOfOneRecord ini mname else none)
          ⟨type ||| parentType,maxLen.elim 511 atoiInt,outputs⟩

/- A map that may fail has all results, or none. -/
theorem mapMFilter {α β : Type} (f : α → Option β) (l : List α) :
    l.mapM f = if ∀ a ∈ l, (f a).isSome then some (l.filterMap f) else none := by
  induction l with
  | nil => simp
  | cons a l ih =>
    rw [List.mapM_cons,ih]
    cases found : f a with
    | none => simp [found]
    | some b =>
      rw [List.filterMap_cons_some found]
      simp only [List.forall_mem_cons,found,Option.isSome_some,true_and]
      split <;> rfl

end CuteNdk.Log
