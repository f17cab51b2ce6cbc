import CuteNdk.LogConfig
import CuteNdk.Lib.Run

/-! log_manager and the one buffer its records are formatted in. Its configuration is what
LogConfig makes of the file. -/
namespace CuteNdk.Log
open Lib.CString

structure Logger where
  moduleName : Str
  moduleEntry : ModuleEntry
  deriving DecidableEq, Repr

/- loggers are those from root_node_ on. logRecord are the characters of the array, none of them
while it is null. iniObj is none while it is null. -/
structure Manager where
  loggers : List Logger
  maxLenOfOneRecord : Int
  logRecord : Str
  iniObj : Option Dictionary
  deriving DecidableEq, Repr

/- What the header shows of the time and the thread. -/
structure Stamp where
  logTime : Str
  msec : Nat
  self : Nat
  deriving DecidableEq, Repr

/- What vsnprintf makes of the format and the arguments, and whether it fails on the way. -/
structure Message where
  text : Str
  fails : Bool
  deriving DecidableEq, Repr

namespace Logger

def shutdown (l : Logger) : Bool := l.moduleEntry.logType &&& llShutdown ≠ 0

def enableFor (l : Logger) (lt : BitVec 32) : Bool := l.moduleEntry.logType &&& lt.toNat ≠ 0

end Logger

section Records

def nul : Char := Char.ofNat 0

def logTypes : List Str := ["LL_TRACE","LL_DEBUG","LL_WNING","LL_ERROR","LL_RINFO","LL_FATAL"].map String.toList

/- The lowest bit that is set, above bit 0. -/
def getBit (n : BitVec 32) : Nat := ((List.range 32).find? fun i => 1 ≤ i ∧ n.getLsbD i = true).getD 0

/- get_bit(lt) - 1 becomes a size_t. -/
def logTypeName (lt : BitVec 32) : Str :=
  (logTypes[((((getBit lt : Int) - 1) % 0x10000000000000000) % 6).toNat]?).getD []

/- "%03lu" -/
def digits3 (n : Nat) : Str := List.replicate (3 - (digits n).length) '0' ++ digits n

/- "[%s.%03lu][%lu]<%s><%s>: " -/
def header (stamp : Stamp) (lt : BitVec 32) (moduleName : Str) : Str :=
  '[' :: stamp.logTime ++ '.' :: digits3 stamp.msec ++ "][".toList ++ digits stamp.self ++ "]<".toList ++
    logTypeName lt ++ "><".toList ++ moduleName ++ ">: ".toList

/- The characters of s go to the places from i on. A place outside the array is undefined. -/
def put (buf : Str) (i : Int) (s : Str) : Option Str :=
  if 0 ≤ i ∧ i.toNat + s.length ≤ buf.length then
    some (buf.take i.toNat ++ s ++ buf.drop (i.toNat + s.length))
  else none

/- What snprintf and vsnprintf write. size becomes a size_t. -/
def snprintf (buf : Str) (i size : Int) (s : Str) : Option Str :=
  let size := (size % 0x10000000000000000).toNat
  if size = 0 then some buf else put buf i (s.take (size - 1) ++ [nul])

/- The length of the whole text, or -1, also for one whose length is no int. -/
def Message.ret (message : Message) : Int :=
  if message.fails ∨ 0x80000000 ≤ message.text.length then -1 else message.text.length

end Records

namespace Manager

def buildRecordBuffer (m : Manager) : Option Manager :=
  let max := m.loggers.foldl (fun max l =>
    if max < l.moduleEntry.maxLenOfOneRecord then l.moduleEntry.maxLenOfOneRecord else max) m.maxLenOfOneRecord
  let size := (max + 1).bmod 0x100000000
  -- new throws for a size below 0
  if size < 0 then none
  else some { m with logRecord := List.replicate size.toNat nul, maxLenOfOneRecord := max - 1 }

def applyConfig (m : Manager) : Option Manager :=
  (m.loggers.mapM fun l => (getModuleCfgEntry m.iniObj l.moduleName).map fun entry => { l with moduleEntry := entry }).map
    fun loggers => { m with loggers := loggers }

/- What init and update_config do with what iniparser_load answers. -/
def loadConfig (m : Manager) (ini : Option Dictionary) : Option Manager :=
  match ini with
  | none => some { m with iniObj := none }
  | some ini => (applyConfig { m with iniObj := some ini }).bind buildRecordBuffer

/- change is none until the interval is over and the file was modified. -/
def updateConfig (m : Manager) (change : Option (Option Dictionary)) : Option Manager :=
  match change with
  | none => some m
  | some ini => m.loadConfig ini

def getLoggerI (m : Manager) (moduleName : Str) : Option Manager :=
  if moduleName = [] ∨ moduleName ∈ m.loggers.map Logger.moduleName then some m
  else (getModuleCfgEntry m.iniObj moduleName).map fun entry =>
    { m with loggers := m.loggers ++ [⟨moduleName.take maxModuleNameLen,entry⟩] }

/- The end of log: the newline, the terminator and the record that is output. -/
def outputRecord (m : Manager) (buf : Str) (len : Int) : Option (Option Str × Manager) :=
  (put buf len ['\n']).bind fun buf =>
    (put buf (len + 1) [nul]).map fun buf => (some (buf.take (len + 1).toNat),{ m with logRecord := buf })

/- log after update_config: the record that is output, if one is. -/
def log (m : Manager) (l : Logger) (lt : BitVec 32) (stamp : Stamp) (message : Message) : Option (Option Str × Manager) :=
  if l.shutdown || !l.enableFor lt then some (none,m)
  else
    let max := l.moduleEntry.maxLenOfOneRecord
    let head := header stamp lt l.moduleName
    (snprintf m.logRecord 0 max head).bind fun buf =>
      let len : Int := if max < head.length then max - 1 else head.length
      if len < max then
        (snprintf buf len (max - len) message.text).bind fun buf =>
          if message.ret < 0 then some (none,{ m with logRecord := buf })
          else m.outputRecord buf (len + if max - len < message.ret then max - len - 1 else message.ret)
      else m.outputRecord buf len

end Manager

/- The calls. A logger is known by its place in the list. -/
inductive Op where
  | getLogger (moduleName : Str)
  | init (ini : Option Dictionary)
  | log (change : Option (Option Dictionary)) (logger : Nat) (lt : BitVec 32) (stamp : Stamp) (message : Message)
  deriving DecidableEq, Repr

def step (m : Manager) : Op → Option Manager
  | .getLogger moduleName => m.getLoggerI moduleName
  | .init ini => m.loadConfig ini
  | .log change logger lt stamp message =>
    (m.updateConfig change).bind fun m =>
      (m.loggers[logger]?).bind fun l => (m.log l lt stamp message).map Prod.snd

def start : Manager := ⟨[],512,[],none⟩

end CuteNdk.Log
