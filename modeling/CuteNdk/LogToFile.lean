import CuteNdk.Lib.CString
import CuteNdk.Lib.Run

/-! log_to_file and the disk it writes to. A file keeps its place when its name goes to another
one or is taken away; a name the disk does not hold is free. Only mkdir, open and write fail of
themselves: stat, unlink and rename do what they do exactly where the name is taken. -/
namespace CuteNdk.LogFile
open Lib.CString

/- What the files hold, by their place, and the names of some of them. No file has two. -/
structure Disk where
  entries : Str → Option Nat
  files : List Str
  inside : ∀ {name i}, entries name = some i → i < files.length
  once : ∀ {name other i}, entries name = some i → entries other = some i → name = other

namespace Disk
variable {name other src tgt : Str} {i j : Nat}

def content (d : Disk) (name : Str) : Option Str := (d.entries name).bind fun i => d.files[i]?

def sizeOf (d : Disk) (i : Nat) : Nat := (d.files[i]?).elim 0 List.length

def stat (d : Disk) (name : Str) : Option Nat := (d.entries name).map d.sizeOf

def unlinked (entries : Str → Option Nat) (name other : Str) : Option Nat :=
  if other = name then none else entries other

/- What had the new name goes. A file that already has it stays as it is. -/
def renamed (entries : Str → Option Nat) (src tgt other : Str) : Option Nat :=
  if entries src = none ∨ src = tgt then entries other
  else if other = tgt then entries src
  else if other = src then none
  else entries other

def created (entries : Str → Option Nat) (name : Str) (i : Nat) (other : Str) : Option Nat :=
  if other = name then some i else entries other

theorem unlinkedFrom {entries : Str → Option Nat} (found : unlinked entries name other = some i) : entries other = some i := by
  unfold unlinked at found
  split at found
  · cases found
  · exact found

theorem renamedFrom {entries : Str → Option Nat} (found : renamed entries src tgt other = some i) :
    entries other = some i ∧ (src ≠ tgt → other ≠ src) ∨ other = tgt ∧ src ≠ tgt ∧ entries src = some i := by
  unfold renamed at found
  split at found
  · rename_i stays
    refine .inl ⟨found,fun differ same => ?_⟩
    rcases stays with free | equal
    · rw [same,free] at found
      cases found
    · exact differ equal
  · rename_i moves
    have differ : src ≠ tgt := fun same => moves (.inr same)
    split at found
    · rename_i here
      exact .inr ⟨here,differ,found⟩
    · split at found
      · cases found
      · rename_i elsewhere
        exact .inl ⟨found,fun _ => elsewhere⟩

theorem createdFrom {entries : Str → Option Nat} (found : created entries name j other = some i) :
    other = name ∧ i = j ∨ entries other = some i := by
  unfold created at found
  split at found
  · rename_i same
    exact .inl ⟨same,(Option.some.inj found).symm⟩
  · exact .inr found

def unlink (d : Disk) (name : Str) : Disk where
  entries := unlinked d.entries name
  files := d.files
  inside found := d.inside (unlinkedFrom found)
  once found found' := d.once (unlinkedFrom found) (unlinkedFrom found')

def rename (d : Disk) (src tgt : Str) : Disk where
  entries := renamed d.entries src tgt
  files := d.files
  inside found := by
    rcases renamedFrom found with ⟨kept,_⟩ | ⟨_,_,moved⟩
    · exact d.inside kept
    · exact d.inside moved
  once found found' := by
    rcases renamedFrom found with ⟨kept,apart⟩ | ⟨rfl,differ,moved⟩ <;>
      rcases renamedFrom found' with ⟨kept',apart'⟩ | ⟨rfl,differ',moved'⟩
    · exact d.once kept kept'
    · exact absurd (d.once kept moved') (apart differ')
    · exact absurd (d.once kept' moved) (apart' differ)
    · rfl

/- With O_CREAT: the place of the file of that name, of an empty one if there is none. -/
def openFile (d : Disk) (name : Str) : Nat × Disk :=
  match d.entries name with
  | some i => (i,d)
  | none =>
    (d.files.length,
      { entries := created d.entries name d.files.length
        files := d.files ++ [[]]
        inside := fun found => by
          rw [List.length_append,List.length_singleton]
          rcases createdFrom found with ⟨_,rfl⟩ | kept
          · exact Nat.lt_succ_self _
          · exact Nat.lt_succ_of_lt (d.inside kept)
        once := fun found found' => by
          rcases createdFrom found with ⟨rfl,fresh⟩ | kept <;> rcases createdFrom found' with ⟨rfl,fresh'⟩ | kept'
          · rfl
          · exact absurd (d.inside kept') (fresh ▸ Nat.lt_irrefl _)
          · exact absurd (d.inside kept) (fresh' ▸ Nat.lt_irrefl _)
          · exact d.once kept kept' })

def append (d : Disk) (i : Nat) (s : Str) : Disk where
  entries := d.entries
  files := d.files.modify i fun content => content ++ s
  inside found := by
    rw [List.length_modify]
    exact d.inside found
  once := d.once

end Disk

def filenameMax : Nat := 4096

/- What becomes of a number that is stored in an int. -/
def toInt (n : Int) : Int := n.bmod 0x100000000

structure OutputEntry where
  singleFileSize : Int
  rolloever : Int
  generateFilePeriod : Int
  fileName : Str
  logDir : Str
  deriving DecidableEq, Repr

inductive Errno where
  | enospc
  | eintr
  | other
  deriving DecidableEq, Repr

/- write takes so many characters, or all where there are fewer, and leaves errno as it is. -/
inductive WriteOutcome where
  | wrote (n : Nat) (errno : Errno)
  | failed (errno : Errno)
  deriving DecidableEq, Repr

namespace WriteOutcome

def result (outcome : WriteOutcome) (len : Nat) : Int :=
  match outcome with
  | .wrote n _ => (min n len : Nat)
  | .failed _ => -1

def errno : WriteOutcome → Errno
  | .wrote _ errno => errno
  | .failed errno => errno

end WriteOutcome

/- logHandle is the place of the open file. -/
structure LogToFile where
  logHandle : Option Nat
  currentFileSize : Int
  lastGeneratePeriodFileTime : Int
  fileName : Str
  outputEntry : Option OutputEntry
  oldOutputEntry : Option OutputEntry
  disk : Disk

/- "%s.%d", cut to FILENAME_MAX. -/
def numbered (f : Str) (i : Nat) : Str := (f ++ '.' :: digits i).take (filenameMax - 1)

/- The loop of rolloever_files from i down to 1. -/
def shiftFiles (f : Str) : Nat → Disk → Disk
  | 0, d => d
  | i + 1, d => shiftFiles f i (d.rename (numbered f (i + 1)) (numbered f (i + 2)))

def rolloeverFiles (f : Str) (rolloever : Int) (d : Disk) : Disk :=
  (shiftFiles f (rolloever - 1).toNat d).rename f (numbered f 1)

namespace LogToFile

def new (disk : Disk) : LogToFile := ⟨none,0,0,[],none,none,disk⟩

def close (l : LogToFile) : LogToFile := { l with logHandle := none }

/- What opened says of ::open with O_CREAT. -/
def openHandle (l : LogToFile) (opened : Bool) : LogToFile :=
  if opened then { l with logHandle := some (l.disk.openFile l.fileName).1, disk := (l.disk.openFile l.fileName).2 }
  else { l with logHandle := none }

def buildFilename (l : LogToFile) (cfg : OutputEntry) : LogToFile :=
  { l with fileName := cfg.logDir ++ '/' :: cfg.fileName }

/- The file gives its name away, or loses it. -/
def switchFile (l : LogToFile) (cfg : OutputEntry) : LogToFile :=
  if 0 < cfg.rolloever then { l with disk := rolloeverFiles l.fileName cfg.rolloever l.disk }
  else { l with disk := l.disk.unlink l.fileName }

def checkFileSize (l : LogToFile) (cfg : OutputEntry) : Bool × LogToFile :=
  if cfg.singleFileSize ≤ l.currentFileSize then (true,{ l.switchFile cfg with currentFileSize := 0 })
  else (false,l)

/- The size stat finds, and what is done with it. A file that is not there leaves the counter. -/
def measure (l : LogToFile) (cfg : OutputEntry) : LogToFile :=
  (l.disk.stat l.fileName).elim l fun size => ({ l with currentFileSize := toInt size }.checkFileSize cfg).2

def createFile (l : LogToFile) (cfg : OutputEntry) (mkdir opened : Bool) : Int × LogToFile :=
  if mkdir then (if opened then 0 else -1,(l.close.measure cfg).openHandle opened) else (-1,l)

def reset (l : LogToFile) (cfg : OutputEntry) (mkdir opened : Bool) : Int × LogToFile :=
  (l.buildFilename cfg).close.createFile cfg mkdir opened

def openLog (l : LogToFile) (cfg : Option OutputEntry) (time : Int) (mkdir opened : Bool) : Int × LogToFile :=
  match cfg,l.outputEntry with
  | none,_ => (-1,l)
  | some _,some _ => (-1,l)
  | some cfg,none =>
    { l with outputEntry := some cfg, lastGeneratePeriodFileTime := time }.reset cfg mkdir opened

/- Without an open before it a null pointer is followed. -/
def updateConfig (l : LogToFile) (entry : OutputEntry) (mkdir opened : Bool) : Option LogToFile :=
  l.outputEntry.map fun old =>
    let l := { l with oldOutputEntry := some old, outputEntry := some entry }
    if entry.generateFilePeriod ≠ old.generateFilePeriod ∨ entry.fileName ≠ old.fileName ∨ entry.logDir ≠ old.logDir then
      (l.reset entry mkdir opened).2
    else l

/- time is what ::time answers. -/
def clock (now time : Int) : Int := if now = 0 then time else now

def generatePeriodFile (l : LogToFile) (cfg : OutputEntry) (now : Int) (opened : Bool) : Int × LogToFile :=
  if cfg.generateFilePeriod ≤ now - l.lastGeneratePeriodFileTime then
    let l := (l.close.switchFile cfg).buildFilename cfg
    let l := { l.openHandle opened with lastGeneratePeriodFileTime := now }
    (if opened then 0 else -1,l)
  else (0,l)

/- 3. of log. EINTR ends the loop, whose condition is 0. -/
def record (l : LogToFile) (logMsg : Str) (write : WriteOutcome) : Int × LogToFile :=
  match l.logHandle with
  | none => (-1,l)
  | some i =>
    let result := write.result logMsg.length
    let l := { l with disk := l.disk.append i (logMsg.take result.toNat) }
    let counted := (result,{ l with currentFileSize := toInt (l.currentFileSize + result) })
    if result ≤ 0 then
      match write.errno with
      | .enospc => (0,l)
      | .eintr => counted
      | .other => (-1,l.close)
    else counted

def log (l : LogToFile) (logMsg : Str) (now time : Int) (opened : Bool) (write : WriteOutcome) : Option (Int × LogToFile) :=
  match l.logHandle with
  | none => some (-1,l)
  | some _ =>
    l.outputEntry.map fun cfg =>
      let (full,l) := l.checkFileSize cfg
      if full then (l.close.openHandle opened).record logMsg write
      else if 0 < cfg.generateFilePeriod then
        let (result,l) := l.generatePeriodFile cfg (clock now time) opened
        if result ≠ 0 then (-1,l) else l.record logMsg write
      else l.record logMsg write

end LogToFile

inductive Call where
  | open_ (cfg : Option OutputEntry) (time : Int) (mkdir opened : Bool)
  | log (logMsg : Str) (now time : Int) (opened : Bool) (write : WriteOutcome)
  | updateConfig (entry : OutputEntry) (mkdir opened : Bool)
  deriving DecidableEq, Repr

def step (l : LogToFile) : Call → Option LogToFile
  | .open_ cfg time mkdir opened => some (l.openLog cfg time mkdir opened).2
  | .log logMsg now time opened write => (l.log logMsg now time opened write).map Prod.snd
  | .updateConfig entry mkdir opened => l.updateConfig entry mkdir opened

end CuteNdk.LogFile
