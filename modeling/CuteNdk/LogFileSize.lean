import CuteNdk.LogRollover

/-! The counter of log_to_file and the size of its file. They agree as long as a file is opened
with the counter its size has, and each write adds what it wrote. -/
namespace CuteNdk.LogFile
open Lib.CString

def pathOf (cfg : OutputEntry) : Str := cfg.logDir ++ '/' :: cfg.fileName

/- The name is the configured one. -/
def Named (f : Str) (entry : Option OutputEntry) : Prop := ∀ cfg, entry = some cfg → f = pathOf cfg

/- The counter is the size of the open file, which is on the disk. -/
structure Known (l : LogToFile) : Prop where
  size : ∀ i, l.logHandle = some i → l.currentFileSize = l.disk.sizeOf i
  inside : ∀ i, l.logHandle = some i → i < l.disk.files.length
  named : Named l.fileName l.outputEntry

/- The name of f.1 is not cut back to f itself. -/
def Movable (f : Str) (cfg : OutputEntry) : Prop := 0 < cfg.rolloever → f.length ≠ filenameMax - 1

/- Nothing is subtracted for an interrupted write, and the sum is an int. -/
def RecordSound (size : Int) (logMsg : Str) (write : WriteOutcome) : Prop :=
  write ≠ .failed .eintr ∧ size + write.result logMsg.length < 0x80000000

/- A file that is there has its size as an int or goes; for a new one the counter is 0. -/
def CreateSound (l : LogToFile) (cfg : OutputEntry) : Prop :=
  match l.disk.stat (pathOf cfg) with
  | some size => (cfg.singleFileSize ≤ toInt size → Movable (pathOf cfg) cfg) ∧
      (toInt size < cfg.singleFileSize → toInt size = size)
  | none => l.currentFileSize = 0

def Due (l : LogToFile) (cfg : OutputEntry) (now : Int) : Prop :=
  0 < cfg.generateFilePeriod ∧ cfg.generateFilePeriod ≤ now - l.lastGeneratePeriodFileTime

instance (l cfg now) : Decidable (Due l cfg now) := by
  unfold Due; infer_instance

/- The file of a new period is only opened with the counter at 0. -/
def LogSound (l : LogToFile) (cfg : OutputEntry) (logMsg : Str) (now : Int) (opened : Bool) (write : WriteOutcome) : Prop :=
  if cfg.singleFileSize ≤ l.currentFileSize then
    opened = true → Movable l.fileName cfg ∧ RecordSound 0 logMsg write
  else if Due l cfg now then
    opened = true → Movable l.fileName cfg ∧ l.currentFileSize = 0 ∧ RecordSound 0 logMsg write
  else RecordSound l.currentFileSize logMsg write

def Changes (entry old : OutputEntry) : Prop :=
  entry.generateFilePeriod ≠ old.generateFilePeriod ∨ entry.fileName ≠ old.fileName ∨ entry.logDir ≠ old.logDir

def Sound (l : LogToFile) : Call → Prop
  | .open_ cfg _ mkdir opened => ∀ cfg' ∈ cfg, l.outputEntry = none → mkdir = true → opened = true → CreateSound l cfg'
  | .log logMsg now time opened write => ∀ i ∈ l.logHandle, ∀ cfg ∈ l.outputEntry,
      LogSound l cfg logMsg (LogToFile.clock now time) opened write
  | .updateConfig entry mkdir opened => ∀ old ∈ l.outputEntry, Changes entry old → mkdir = true → opened = true →
      CreateSound l entry

section Checks

instance (f cfg) : Decidable (Movable f cfg) := by
  unfold Movable; infer_instance

instance (size logMsg write) : Decidable (RecordSound size logMsg write) := by
  unfold RecordSound; infer_instance

instance (l cfg) : Decidable (CreateSound l cfg) := by
  unfold CreateSound; split <;> infer_instance

instance (l cfg logMsg now opened write) : Decidable (LogSound l cfg logMsg now opened write) := by
  unfold LogSound; infer_instance

instance (entry old) : Decidable (Changes entry old) := by
  unfold Changes; infer_instance

instance (l call) : Decidable (Sound l call) := by
  cases call <;> (unfold Sound; infer_instance)

end Checks

/- A log call at a file of full size leaves that file as it is and has another one open, if any. -/
def SwitchesFirst (l : LogToFile) : Prop :=
  ∀ i cfg, l.logHandle = some i → l.outputEntry = some cfg → cfg.singleFileSize ≤ l.disk.sizeOf i →
    ∀ logMsg now time opened write result l', Sound l (.log logMsg now time opened write) →
      l.log logMsg now time opened write = some (result,l') →
        l'.logHandle ≠ some i ∧ l'.disk.files[i]? = l.disk.files[i]?

section Disks
variable {d : Disk} {f name : Str} {i : Nat} {s : Str}

theorem sizeAppend (inside : i < d.files.length) : (d.append i s).sizeOf i = d.sizeOf i + s.length := by
  unfold Disk.sizeOf Disk.append
  rw [List.getElem?_modify_eq,List.getElem?_eq_getElem inside]
  exact List.length_append

theorem appendLength : (d.append i s).files.length = d.files.length := List.length_modify ..

theorem openFree (free : d.entries name = none) :
    (d.openFile name).1 = d.files.length ∧ (d.openFile name).2.files = d.files ++ [[]] := by
  unfold Disk.openFile
  split
  · rename_i found
    rw [free] at found
    cases found
  · exact ⟨rfl,rfl⟩

theorem openTaken (taken : d.entries name = some i) : d.openFile name = (i,d) := by
  unfold Disk.openFile
  split
  · rename_i found
    rw [taken] at found
    rw [Option.some.inj found]
  · rename_i found
    rw [taken] at found
    cases found

theorem unlinkFrees : (d.unlink f).entries f = none := if_pos rfl

theorem rolloeverFrees {rolloever : Int} (whole : f.length ≠ filenameMax - 1) :
    (rolloeverFiles f rolloever d).entries f = none := by
  refine renameSource fun same => whole ?_
  have lengths := congrArg List.length same
  unfold numbered at lengths
  rw [List.length_take,List.length_append,List.length_cons] at lengths
  omega

end Disks

section Files
variable {l : LogToFile} {cfg : OutputEntry}

theorem switchFrees (movable : Movable l.fileName cfg) : (l.switchFile cfg).disk.entries l.fileName = none := by
  unfold LogToFile.switchFile
  split
  · rename_i rolls
    exact rolloeverFrees (movable rolls)
  · exact unlinkFrees

theorem switchKeeps : (l.switchFile cfg).disk.files = l.disk.files := by
  unfold LogToFile.switchFile
  split
  · exact shiftFilesKeeps _ _
  · rfl

/- Nothing but the file is another one. -/
def SameName (a b : LogToFile) : Prop := a.fileName = b.fileName ∧ a.outputEntry = b.outputEntry

theorem switchNames : SameName (l.switchFile cfg) l := by
  unfold LogToFile.switchFile
  split <;> exact ⟨rfl,rfl⟩

theorem checkNames (next : LogToFile) (same : SameName next l) : SameName (next.checkFileSize cfg).2 l := by
  unfold LogToFile.checkFileSize
  split
  · exact ⟨switchNames.1.trans same.1,switchNames.2.trans same.2⟩
  · exact same

/- A new file is opened with the counter at 0. -/
theorem openNewKnown (named : Named l.fileName l.outputEntry)
    (free : l.disk.entries l.fileName = none) (zero : l.currentFileSize = 0) :
    Known (l.openHandle true) ∧ (l.openHandle true).logHandle = some l.disk.files.length ∧
      (l.openHandle true).disk.files = l.disk.files ++ [[]] := by
  obtain ⟨place,files⟩ := openFree free
  have handle : (l.openHandle true).logHandle = some l.disk.files.length := congrArg some place
  have same : (l.openHandle true).disk.files = l.disk.files ++ [[]] := files
  refine ⟨⟨fun i here => ?_,fun i here => ?_,named⟩,handle,same⟩
  · cases Option.some.inj (here.symm.trans handle)
    unfold Disk.sizeOf
    rw [same,List.getElem?_append_right (Nat.le_refl _),Nat.sub_self]
    exact zero
  · cases Option.some.inj (here.symm.trans handle)
    rw [same,List.length_append]
    exact Nat.lt_succ_self _

/- An old one with its size. -/
theorem openOldKnown {size : Nat} (named : Named l.fileName l.outputEntry) (found : l.disk.stat l.fileName = some size)
    (counted : l.currentFileSize = size) : Known (l.openHandle true) := by
  obtain ⟨i,taken,rfl⟩ := Option.map_eq_some_iff.mp found
  have opened : l.openHandle true = { l with logHandle := some i } := by
    unfold LogToFile.openHandle
    rw [if_pos rfl,openTaken taken]
  rw [opened]
  refine ⟨fun j here => ?_,fun j here => ?_,named⟩
  · cases Option.some.inj here
    exact counted
  · cases Option.some.inj here
    exact l.disk.inside taken

theorem closedKnown (named : Named l.fileName l.outputEntry) (closed : l.logHandle = none) : Known l :=
  ⟨fun i here => (by rw [closed] at here; cases here),fun i here => (by rw [closed] at here; cases here),named⟩

/- A file goes, and the one that is opened next is new. -/
theorem renewKnown (next : LogToFile) (named : Named next.fileName next.outputEntry) (zero : next.currentFileSize = 0)
    (name : next.fileName = l.fileName)
    (disk : next.disk = (l.switchFile cfg).disk) (movable : Movable l.fileName cfg) :
    Known (next.openHandle true) ∧ (next.openHandle true).logHandle = some l.disk.files.length ∧
      (next.openHandle true).disk.files = l.disk.files ++ [[]] := by
  have free : next.disk.entries next.fileName = none := by
    rw [name,disk]
    exact switchFrees movable
  have files : next.disk.files = l.disk.files := by
    rw [disk]
    exact switchKeeps
  rw [← files]
  exact openNewKnown named free zero

theorem counterOf (l : LogToFile) (n : Int) : ({ l with currentFileSize := n } : LogToFile).currentFileSize = n := rfl

/- A file that is there is opened with its size, or goes. -/
theorem openCheckedKnown {size : Nat} {counted : Int} (named : Named l.fileName l.outputEntry)
    (found : l.disk.stat l.fileName = some size) (path : l.fileName = pathOf cfg)
    (made : (cfg.singleFileSize ≤ counted → Movable (pathOf cfg) cfg) ∧ (counted < cfg.singleFileSize → counted = size))
    (count : l.currentFileSize = counted) :
    Known ((l.checkFileSize cfg).2.openHandle true) := by
  subst count
  rw [← path] at made
  unfold LogToFile.checkFileSize
  split
  · rename_i full
    have next : Named (l.switchFile cfg).fileName (l.switchFile cfg).outputEntry := by
      rw [switchNames.1,switchNames.2]
      exact named
    exact (renewKnown { l.switchFile cfg with currentFileSize := 0 } next rfl switchNames.1 rfl (made.1 full)).1
  · rename_i room
    exact openOldKnown named found (made.2 (Int.not_le.mp room))

end Files

section Calls
variable {l l' : LogToFile} {cfg : OutputEntry} {logMsg : Str} {now time : Int} {mkdir opened : Bool} {write : WriteOutcome}

theorem toIntSmall {n : Int} (low : 0 ≤ n) (high : n < 0x80000000) : toInt n = n := by
  unfold toInt
  rw [Int.bmod_def]
  omega

/- The result counts the characters that are written. -/
theorem takenLength (logMsg : Str) (write : WriteOutcome) :
    ((logMsg.take (write.result logMsg.length).toNat).length : Int) = max 0 (write.result logMsg.length) := by
  cases write with
  | wrote n errno =>
    have result : (WriteOutcome.wrote n errno).result logMsg.length = (min n logMsg.length : Nat) := rfl
    rw [result,List.length_take]
    omega
  | failed errno => rfl

theorem recordKnown (known : Known l) (sound : RecordSound l.currentFileSize logMsg write) :
    Known (l.record logMsg write).2 := by
  unfold LogToFile.record
  split
  · exact known
  · rename_i i here
    have counted := known.size i here
    have inside := known.inside i here
    have size := sizeAppend (s := logMsg.take (write.result logMsg.length).toNat) inside
    have taken := takenLength logMsg write
    -- the open file is the one that was written
    have keeps {n : Int} (same : n = ((l.disk.sizeOf i + (logMsg.take (write.result logMsg.length).toNat).length : Nat) : Int)) :
        Known { l with currentFileSize := n, disk := l.disk.append i (logMsg.take (write.result logMsg.length).toNat) } := by
      refine ⟨fun j there => ?_,fun j there => ?_,known.named⟩
      · cases Option.some.inj (here.symm.trans there)
        rw [same,← size]
      · cases Option.some.inj (here.symm.trans there)
        exact appendLength.symm ▸ inside
    have low : (0 : Int) ≤ l.disk.sizeOf i := Int.natCast_nonneg _
    simp only
    cases Int.lt_or_le 0 (write.result logMsg.length) with
    | inl some_ =>
      rw [if_neg (Int.not_le.mpr some_)]
      refine keeps ?_
      rw [toIntSmall (by omega) sound.2,counted]
      omega
    | inr nothing =>
      rw [if_pos nothing]
      split
      · exact keeps (by omega)
      · rename_i interrupted
        have none' : write.result logMsg.length = 0 := by
          cases write with
          | wrote n errno => exact Int.le_antisymm nothing (Int.natCast_nonneg _)
          | failed errno => exact absurd (congrArg WriteOutcome.failed interrupted) sound.1
        have sum : toInt (l.currentFileSize + write.result logMsg.length) = l.currentFileSize := by
          have small := sound.2
          rw [none',Int.add_zero] at small ⊢
          exact toIntSmall (counted ▸ low) small
        refine keeps ?_
        rw [sum]
        omega
      · exact closedKnown known.named rfl

theorem elimHolds {α β : Type} {P : β → Prop} {o : Option α} {b : β} {f : α → β} (onNone : o = none → P b)
    (onSome : ∀ a, o = some a → P (f a)) : P (o.elim b f) := by
  cases o with
  | none => exact onNone rfl
  | some a => exact onSome a rfl

theorem measureNames : SameName (l.measure cfg) l :=
  elimHolds (P := fun next : LogToFile => SameName next l) (fun _ => ⟨rfl,rfl⟩) fun size _ =>
    checkNames { l with currentFileSize := toInt size } ⟨rfl,rfl⟩

theorem measuredKnown (named : Named l.fileName l.outputEntry) (path : l.fileName = pathOf cfg)
    (sound : opened = true → CreateSound l cfg) : Known ((l.measure cfg).openHandle opened) := by
  cases opened with
  | false =>
    refine closedKnown ?_ rfl
    show Named (l.measure cfg).fileName (l.measure cfg).outputEntry
    rw [measureNames.1,measureNames.2]
    exact named
  | true =>
    have made := sound rfl
    unfold CreateSound at made
    refine elimHolds (P := fun next : LogToFile => Known (next.openHandle true)) (fun found => ?_) fun size found => ?_
    · have there := found
      rw [path] at there
      simp only [there] at made
      have free : l.disk.entries l.fileName = none := Option.map_eq_none_iff.mp found
      exact (openNewKnown named free made).1
    · have there := found
      rw [path] at there
      simp only [there] at made
      exact openCheckedKnown (l := { l with currentFileSize := toInt size }) named found path made (counterOf l _)

/- The file of the new name is opened with the counter its size has, if it is opened. -/
theorem resetKnown (own : l.outputEntry = some cfg) (sound : mkdir = true → opened = true → CreateSound l cfg) :
    Known (l.reset cfg mkdir opened).2 := by
  have named : Named (pathOf cfg) l.outputEntry := fun other same => by
    cases Option.some.inj (own.symm.trans same)
    rfl
  unfold LogToFile.reset LogToFile.createFile
  cases mkdir with
  | false => exact closedKnown named rfl
  | true => exact measuredKnown (l := (l.buildFilename cfg).close.close) named rfl (sound rfl)

/- The file log writes to when it is full. -/
def afterFull (l : LogToFile) (cfg : OutputEntry) (opened : Bool) : LogToFile :=
  LogToFile.openHandle (LogToFile.close { l.switchFile cfg with currentFileSize := 0 }) opened

/- And at the end of a period. -/
def afterPeriod (l : LogToFile) (cfg : OutputEntry) (now : Int) (opened : Bool) : LogToFile :=
  { ((l.close.switchFile cfg).buildFilename cfg).openHandle opened with lastGeneratePeriodFileTime := now }

theorem checkFull (full : cfg.singleFileSize ≤ l.currentFileSize) :
    l.checkFileSize cfg = (true,{ l.switchFile cfg with currentFileSize := 0 }) := if_pos full

theorem checkRoom (room : ¬ cfg.singleFileSize ≤ l.currentFileSize) : l.checkFileSize cfg = (false,l) := if_neg room

theorem periodOver (ended : cfg.generateFilePeriod ≤ now - l.lastGeneratePeriodFileTime) :
    l.generatePeriodFile cfg now opened = (if opened then 0 else -1,afterPeriod l cfg now opened) := if_pos ended

theorem periodOn (on : ¬ cfg.generateFilePeriod ≤ now - l.lastGeneratePeriodFileTime) :
    l.generatePeriodFile cfg now opened = (0,l) := if_neg on

/- The three ways log comes to its file. -/
theorem logCases {i : Nat} (here : l.logHandle = some i) (own : l.outputEntry = some cfg) :
    l.log logMsg now time opened write = some (
      if cfg.singleFileSize ≤ l.currentFileSize then (afterFull l cfg opened).record logMsg write
      else if Due l cfg (LogToFile.clock now time) then
        if opened then (afterPeriod l cfg (LogToFile.clock now time) opened).record logMsg write
        else (-1,afterPeriod l cfg (LogToFile.clock now time) opened)
      else l.record logMsg write) := by
  unfold LogToFile.log Due
  simp only [here,own,Option.map_some]
  refine congrArg some ?_
  cases Decidable.em (cfg.singleFileSize ≤ l.currentFileSize) with
  | inl full =>
    rw [checkFull full,if_pos full]
    rfl
  | inr room =>
    rw [checkRoom room,if_neg room]
    simp only [Bool.false_eq_true,if_false]
    cases Decidable.em (0 < cfg.generateFilePeriod) with
    | inr none' => simp only [none',if_false,false_and]
    | inl some_ =>
      simp only [some_,if_true,true_and]
      cases Decidable.em (cfg.generateFilePeriod ≤ LogToFile.clock now time - l.lastGeneratePeriodFileTime) with
      | inl ended =>
        rw [periodOver ended,if_pos ended]
        cases opened <;> rfl
      | inr on =>
        rw [periodOn on,if_neg on]
        rfl

theorem recordClosed (closed : l.logHandle = none) : l.record logMsg write = (-1,l) := by
  unfold LogToFile.record
  rw [closed]

/- Both open a new file, or none. -/
theorem afterFullKnown (known : Known l) (movable : opened = true → Movable l.fileName cfg) :
    Known (afterFull l cfg opened) ∧ (afterFull l cfg opened).currentFileSize = 0 ∧
      (opened = true → (afterFull l cfg opened).logHandle = some l.disk.files.length ∧
        (afterFull l cfg opened).disk.files = l.disk.files ++ [[]]) := by
  have named : Named (l.switchFile cfg).fileName (l.switchFile cfg).outputEntry := by
    rw [switchNames.1,switchNames.2]
    exact known.named
  cases opened with
  | false => exact ⟨closedKnown named rfl,rfl,fun no => by cases no⟩
  | true =>
    obtain ⟨new,place,files⟩ := renewKnown (LogToFile.close { l.switchFile cfg with currentFileSize := 0 }) named rfl
      switchNames.1 rfl (movable rfl)
    exact ⟨new,rfl,fun _ => ⟨place,files⟩⟩

theorem switchCounter : (l.switchFile cfg).currentFileSize = l.currentFileSize := by
  unfold LogToFile.switchFile
  split <;> rfl

theorem afterPeriodKnown (now : Int) (known : Known l) (own : l.outputEntry = some cfg)
    (sound : opened = true → Movable l.fileName cfg ∧ l.currentFileSize = 0) :
    Known (afterPeriod l cfg now opened) ∧ (opened = true → (afterPeriod l cfg now opened).currentFileSize = 0) := by
  have named : Named (pathOf cfg) (l.close.switchFile cfg).outputEntry := fun other same => by
    rw [switchNames.2] at same
    cases Option.some.inj (own.symm.trans same)
    rfl
  cases opened with
  | false => exact ⟨closedKnown named rfl,fun no => by cases no⟩
  | true =>
    obtain ⟨movable,zero⟩ := sound rfl
    have counter : (l.close.switchFile cfg).currentFileSize = 0 := switchCounter.trans zero
    have new := (renewKnown (l := l.close) ((l.close.switchFile cfg).buildFilename cfg) named counter
      (known.named cfg own).symm rfl movable).1
    exact ⟨⟨new.size,new.inside,new.named⟩,fun _ => counter⟩

theorem logKnown (known : Known l) (sound : Sound l (.log logMsg now time opened write)) {result : Int}
    (did : l.log logMsg now time opened write = some (result,l')) : Known l' := by
  cases here : l.logHandle with
  | none =>
    unfold LogToFile.log at did
    rw [here] at did
    cases Prod.mk.inj (Option.some.inj did) with
    | intro _ same => exact same ▸ known
  | some i =>
    cases own : l.outputEntry with
    | none =>
      unfold LogToFile.log at did
      rw [here,own] at did
      cases did
    | some cfg =>
      have fine := sound i here cfg own
      rw [logCases here own] at did
      have next := congrArg Prod.snd (Option.some.inj did)
      unfold LogSound at fine
      change _ = l' at next
      rw [← next]
      split
      · rename_i full
        rw [if_pos full] at fine
        obtain ⟨new,zero,_⟩ := afterFullKnown known fun yes => (fine yes).1
        cases opened with
        | true => exact recordKnown new (zero ▸ (fine rfl).2)
        | false =>
          rw [recordClosed (l := afterFull l cfg false) rfl]
          exact new
      · rename_i room
        rw [if_neg room] at fine
        split
        · rename_i due
          rw [if_pos due] at fine
          obtain ⟨new,zero⟩ := afterPeriodKnown (LogToFile.clock now time) known own fun yes => ⟨(fine yes).1,(fine yes).2.1⟩
          cases opened with
          | true => exact recordKnown new (zero rfl ▸ (fine rfl).2.2)
          | false => exact new
        · rename_i early
          rw [if_neg early] at fine
          exact recordKnown known fine

theorem stepKnown {call : Call} (known : Known l) (sound : Sound l call) (did : step l call = some l') : Known l' := by
  cases call with
  | open_ cfg time mkdir opened =>
    cases Option.some.inj did
    cases cfg with
    | none => exact known
    | some cfg =>
      cases own : l.outputEntry with
      | some old =>
        unfold LogToFile.openLog
        rw [own]
        exact known
      | none =>
        have next := resetKnown (l := { l with outputEntry := some cfg, lastGeneratePeriodFileTime := time }) rfl
          fun made yes => sound cfg rfl own made yes
        unfold LogToFile.openLog
        rw [own]
        exact next
  | log logMsg now time opened write =>
    obtain ⟨⟨result,next⟩,logged,rfl⟩ := Option.map_eq_some_iff.mp did
    exact logKnown known sound logged
  | updateConfig entry mkdir opened =>
    obtain ⟨old,own,rfl⟩ := Option.map_eq_some_iff.mp did
    simp only
    split
    · rename_i changes
      exact resetKnown (l := { l with oldOutputEntry := some old, outputEntry := some entry }) rfl
        fun made yes => sound old own changes made yes
    · rename_i same
      refine ⟨known.size,known.inside,fun cfg now => ?_⟩
      cases Option.some.inj now
      have names : entry.fileName = old.fileName ∧ entry.logDir = old.logDir :=
        ⟨Decidable.byContradiction fun other => same (.inr (.inl other)),
          Decidable.byContradiction fun other => same (.inr (.inr other))⟩
      have path := known.named old own
      unfold pathOf at path ⊢
      rw [names.1,names.2]
      exact path

/- A record goes to the open file and to no other. -/
theorem recordElsewhere (logMsg : Str) (write : WriteOutcome) {i : Nat} (other : l.logHandle ≠ some i) :
    (l.record logMsg write).2.logHandle ≠ some i ∧
    (l.record logMsg write).2.disk.files[i]? = l.disk.files[i]? := by
  unfold LogToFile.record
  split
  · exact ⟨other,rfl⟩
  · rename_i j here
    have apart : j ≠ i := fun same => other (same ▸ here)
    have file (s : Str) : (l.disk.append j s).files[i]? = l.disk.files[i]? := List.getElem?_modify_ne _ _ apart
    simp only
    split
    · split
      · exact ⟨other,file _⟩
      · exact ⟨other,file _⟩
      · exact ⟨fun no => (by cases no),file _⟩
    · exact ⟨other,file _⟩

theorem knownSwitches (known : Known l) : SwitchesFirst l := by
  intro i cfg here own reached logMsg now time opened write result next sound did
  have fine := sound i here cfg own
  have full : cfg.singleFileSize ≤ l.currentFileSize := known.size i here ▸ reached
  rw [logCases here own,if_pos full] at did
  unfold LogSound at fine
  rw [if_pos full] at fine
  have same := congrArg Prod.snd (Option.some.inj did)
  change _ = next at same
  rw [← same]
  have inside := known.inside i here
  cases opened with
  | true =>
    obtain ⟨_,_,new⟩ := afterFullKnown known fun yes => (fine yes).1
    obtain ⟨place,files⟩ := new rfl
    have other : (afterFull l cfg true).logHandle ≠ some i := fun equal => by
      have same := Option.some.inj (place.symm.trans equal)
      omega
    have kept := recordElsewhere logMsg write other
    rw [files,List.getElem?_append_left inside] at kept
    exact kept
  | false =>
    rw [recordClosed (l := afterFull l cfg false) rfl]
    refine ⟨fun no => (by cases no),?_⟩
    have files : (afterFull l cfg false).disk.files = l.disk.files := switchKeeps
    rw [files]

end Calls

/- In a run whose steps are sound the counter is the size of the open file, and a full file is
left before the next record. -/
theorem sizeIsKnown (disk : Disk) (calls : List Call) (sound : Lib.Along step Sound (LogToFile.new disk) calls) :
    Lib.Always step (fun l => (∀ i, l.logHandle = some i → l.currentFileSize = l.disk.sizeOf i) ∧ SwitchesFirst l)
      (LogToFile.new disk) calls := by
  have start : Known (LogToFile.new disk) := closedKnown (fun cfg no => by cases no) rfl
  have always := Lib.alwaysOfInvariant (fun l call l' => stepKnown) start sound
  exact Lib.alwaysMono (fun l known => ⟨known.size,knownSwitches known⟩) always

/- A file every minute, in an empty directory. -/
def minutely : OutputEntry := ⟨1048576,1,60,"log".toList,".".toList⟩

def written (n : Nat) (now : Int) : Call := .log (List.replicate n 'x') now 0 true (.wrote n .other)

theorem twoRecordsKnown : Lib.Always step
    (fun l => (∀ i, l.logHandle = some i → l.currentFileSize = l.disk.sizeOf i) ∧ SwitchesFirst l)
    (LogToFile.new (diskOf [])) [.open_ (some minutely) 1000 true true,written 10 1001,written 10 1059] :=
  sizeIsKnown (diskOf []) [.open_ (some minutely) 1000 true true,written 10 1001,written 10 1059] (by decide)

/- A new period begins with the counter of the old one. -/
theorem periodKeepsCounter : ¬ ∀ (disk : Disk) (calls : List Call),
    Lib.Always step (fun l => ∀ i, l.logHandle = some i → l.currentFileSize = l.disk.sizeOf i) (LogToFile.new disk) calls := by
  intro claim
  have always := claim (diskOf []) [.open_ (some minutely) 1000 true true,written 10 1001,written 10 1060]
  have ran : (Lib.run step (LogToFile.new (diskOf []))
      [.open_ (some minutely) 1000 true true,written 10 1001,written 10 1060]).map
      (fun l => (l.logHandle,l.currentFileSize,l.disk.sizeOf 1)) = some (some 1,20,10) := by decide
  obtain ⟨l,ended,fields⟩ := Option.map_eq_some_iff.mp ran
  obtain ⟨handle,rest⟩ := Prod.mk.inj fields
  obtain ⟨counter,size⟩ := Prod.mk.inj rest
  have same := Lib.alwaysAtEnd always ended 1 handle
  rw [counter,size] at same
  cases same

end CuteNdk.LogFile
