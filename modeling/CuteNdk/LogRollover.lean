import CuteNdk.LogToFile
import Mathlib.Data.List.Basic

/-! What rolloever_files does to the names: each backup takes the next number, the last one
first, and the file takes the first number. Gaps stay gaps. -/
namespace CuteNdk.LogFile
open Lib.CString

/- The name of a backup, uncut. -/
def backup (f : Str) (i : Nat) : Str := f ++ '.' :: digits i

/- f.i is there as f.(i + 1), f as f.1, and nothing but f.n may be gone. -/
structure Shifted (f : Str) (n : Nat) (before after : Disk) : Prop where
  gone : after.content f = none
  first : ∀ c, before.content f = some c → after.content (backup f 1) = some c
  next : ∀ i c, 1 ≤ i → i < n → before.content (backup f i) = some c → after.content (backup f (i + 1)) = some c
  kept : ∀ name c, name ≠ backup f n → before.content name = some c → ∃ name', after.content name' = some c
  other : ∀ name, name ≠ f → (∀ i, 1 ≤ i → i ≤ n → name ≠ backup f i) → after.content name = before.content name
  files : after.files = before.files

section Names
variable {f : Str} {i j n : Nat}

theorem backupInj (same : backup f i = backup f j) : i = j := by
  have tails := List.append_cancel_left same
  have numbers : decimal (digits i) = decimal (digits j) := by rw [(List.cons.inj tails).2]
  rwa [decimalDigits,decimalDigits] at numbers

theorem backupOther : backup f i ≠ f := by
  intro same
  have lengths := congrArg List.length same
  unfold backup at lengths
  rw [List.length_append,List.length_cons] at lengths
  omega

/- A smaller number has no more digits. -/
theorem backupFits (fits : (backup f n).length < filenameMax) (small : i ≤ n) : (backup f i).length < filenameMax := by
  have some_ : 0 < (digits n).length := List.length_pos_iff.mpr (digitsDigits n).1
  have below : n < 10 ^ (digits n).length := (Nat.length_toDigits_le_iff (by decide) some_).mp (Nat.le_refl _)
  have shorter : (digits i).length ≤ (digits n).length := digitsLength some_ (Nat.lt_of_le_of_lt small below)
  unfold backup at fits ⊢
  rw [List.length_append,List.length_cons] at fits ⊢
  omega

theorem numberedWhole (fits : (backup f n).length < filenameMax) (small : i ≤ n) : numbered f i = backup f i :=
  List.take_of_length_le (Nat.le_sub_one_of_lt (backupFits fits small))

/- The values of an ini file and the number of an int fit. -/
theorem configuredFits {cfg : OutputEntry} (dir : cfg.logDir.length ≤ 1024) (name : cfg.fileName.length ≤ 1024)
    (small : cfg.rolloever < 0x80000000) :
    (backup (cfg.logDir ++ '/' :: cfg.fileName) cfg.rolloever.toNat).length < filenameMax := by
  have short : (digits cfg.rolloever.toNat).length ≤ 10 := digitsLength (by decide) (by omega)
  unfold backup filenameMax
  rw [List.length_append,List.length_cons,List.length_append,List.length_cons]
  omega

end Names

section Moves
variable {f : Str} {n : Nat} {d : Disk} {src tgt name : Str}

theorem renameTarget (differ : src ≠ tgt) : (d.rename src tgt).entries tgt = (d.entries src).or (d.entries tgt) := by
  show Disk.renamed d.entries src tgt tgt = _
  unfold Disk.renamed
  cases found : d.entries src with
  | none => rw [if_pos (.inl rfl),Option.none_or]
  | some i => rw [if_neg (fun either => either.elim (fun no => by cases no) differ),if_pos rfl,Option.some_or]

theorem renameSource (differ : src ≠ tgt) : (d.rename src tgt).entries src = none := by
  show Disk.renamed d.entries src tgt src = _
  unfold Disk.renamed
  cases found : d.entries src with
  | none => rw [if_pos (.inl rfl)]
  | some i => rw [if_neg (fun either => either.elim (fun no => by cases no) differ),if_neg differ,if_pos rfl]

theorem renameOther (notSource : name ≠ src) (notTarget : name ≠ tgt) :
    (d.rename src tgt).entries name = d.entries name := by
  show Disk.renamed d.entries src tgt name = _
  unfold Disk.renamed
  rw [if_neg notTarget,if_neg notSource,ite_self]

theorem shiftOther (n : Nat) (d : Disk) (apart : ∀ i, 1 ≤ i → i ≤ n + 1 → name ≠ numbered f i) :
    (shiftFiles f n d).entries name = d.entries name := by
  induction n generalizing d with
  | zero => rfl
  | succ n ih =>
    unfold shiftFiles
    rw [ih _ fun i low high => apart i low (by omega)]
    exact renameOther (apart (n + 1) (by omega) (by omega)) (apart (n + 2) (by omega) (by omega))

theorem shiftFilesKeeps (n : Nat) (d : Disk) : (shiftFiles f n d).files = d.files := by
  induction n generalizing d with
  | zero => rfl
  | succ n ih => exact ih _

/- Every backup below the last goes to the next number. The last one is only there after it
where nothing came to its name. -/
theorem shiftEntries (d : Disk) (fits : (backup f (n + 1)).length < filenameMax) :
    (∀ i, 1 ≤ i → i ≤ n → (shiftFiles f n d).entries (backup f (i + 1)) =
      (d.entries (backup f i)).or (if i = n then d.entries (backup f (n + 1)) else none)) ∧
    (shiftFiles f n d).entries (backup f 1) = if n = 0 then d.entries (backup f 1) else none := by
  induction n generalizing d with
  | zero => exact ⟨fun i low high => by omega,rfl⟩
  | succ n ih =>
    have differ : backup f (n + 1) ≠ backup f (n + 2) := fun same => by
      have := backupInj same
      omega
    unfold shiftFiles
    rw [numberedWhole fits (by omega),numberedWhole fits (by omega)]
    obtain ⟨later,lowest⟩ := ih (d.rename (backup f (n + 1)) (backup f (n + 2))) (backupFits fits (by omega))
    constructor
    · intro i low high
      cases Nat.lt_or_eq_of_le high with
      | inl below =>
        have here : (d.rename (backup f (n + 1)) (backup f (n + 2))).entries (backup f i) = d.entries (backup f i) :=
          renameOther (fun same => by have := backupInj same; omega) fun same => by have := backupInj same; omega
        rw [later i low (by omega),here,renameSource differ,if_neg (show i ≠ n + 1 by omega)]
        split <;> rfl
      | inr last =>
        rw [last,if_pos rfl,← renameTarget differ]
        refine shiftOther n _ fun j low' high' same => ?_
        rw [numberedWhole fits (by omega)] at same
        have := backupInj same
        omega
    · rw [lowest,if_neg (Nat.succ_ne_zero n)]
      split
      · rename_i first
        rw [first]
        exact renameSource fun same => by have := backupInj same; omega
      · rfl

end Moves

section Rollover
variable {f : Str} {n : Nat} {d after : Disk}

theorem contentSome {name : Str} {c : Str} (found : d.content name = some c) :
    ∃ i, d.entries name = some i ∧ d.files[i]? = some c := Option.bind_eq_some_iff.mp found

/- A name has what the name its entry came from had. -/
theorem contentMoves {name name' : Str} {c : Str} (same : after.files = d.files) (found : d.content name = some c)
    (moved : ∀ i, d.entries name = some i → after.entries name' = some i) : after.content name' = some c := by
  obtain ⟨i,entry,there⟩ := contentSome found
  unfold Disk.content
  rw [moved i entry,Option.bind_some,same]
  exact there

/- The names afterwards, for n + 1 backups. -/
theorem rolloverEntries (d : Disk) (fits : (backup f (n + 1)).length < filenameMax) :
    (rolloeverFiles f (n + 1) d).entries f = none ∧
    (rolloeverFiles f (n + 1) d).entries (backup f 1) = (d.entries f).or (if n = 0 then d.entries (backup f 1) else none) ∧
    (∀ i, 1 ≤ i → i ≤ n → (rolloeverFiles f (n + 1) d).entries (backup f (i + 1)) =
      (d.entries (backup f i)).or (if i = n then d.entries (backup f (n + 1)) else none)) ∧
    ∀ name, name ≠ f → (∀ i, 1 ≤ i → i ≤ n + 1 → name ≠ backup f i) →
      (rolloeverFiles f (n + 1) d).entries name = d.entries name := by
  have whole {i : Nat} (low : i ≤ n + 1) : numbered f i = backup f i := numberedWhole fits low
  have last : rolloeverFiles f (n + 1) d = (shiftFiles f n d).rename f (backup f 1) := by
    unfold rolloeverFiles
    rw [show ((n : Int) + 1 - 1).toNat = n by omega,whole (by omega)]
  obtain ⟨later,lowest⟩ := shiftEntries d fits
  have own : (shiftFiles f n d).entries f = d.entries f := shiftOther n d fun i low high same => by
    rw [whole high] at same
    exact backupOther same.symm
  rw [last]
  refine ⟨renameSource backupOther.symm,?_,fun i low high => ?_,fun name notFile apart => ?_⟩
  · rw [renameTarget backupOther.symm,own,lowest]
  · rw [renameOther backupOther fun same => by have := backupInj same; omega]
    exact later i low high
  · rw [renameOther notFile (apart 1 (Nat.le_refl 1) (by omega))]
    refine shiftOther n d fun i low high same => ?_
    rw [whole high] at same
    exact apart i low high same

/- With rolloever backups, of which the last has a name that can be opened. -/
theorem rolloverShifts (d : Disk) (f : Str) (rolloever : Int) (some_ : 1 ≤ rolloever)
    (fits : (backup f rolloever.toNat).length < filenameMax) :
    Shifted f rolloever.toNat d (rolloeverFiles f rolloever d) := by
  obtain ⟨n,rfl⟩ : ∃ n : Nat, rolloever = (n : Int) + 1 := ⟨(rolloever - 1).toNat,by omega⟩
  rw [show ((n : Int) + 1).toNat = n + 1 by omega] at fits ⊢
  obtain ⟨gone,top,next,other⟩ := rolloverEntries d fits
  have files : (rolloeverFiles f (n + 1) d).files = d.files := shiftFilesKeeps _ d
  have first (c : Str) (found : d.content f = some c) : (rolloeverFiles f (n + 1) d).content (backup f 1) = some c :=
    contentMoves files found fun i entry => by rw [top,entry,Option.some_or]
  have shifts (i : Nat) (c : Str) (low : 1 ≤ i) (high : i ≤ n) (found : d.content (backup f i) = some c) :
      (rolloeverFiles f (n + 1) d).content (backup f (i + 1)) = some c :=
    contentMoves files found fun j entry => by rw [next i low high,entry,Option.some_or]
  have stays {name : Str} (notFile : name ≠ f) (apart : ∀ i, 1 ≤ i → i ≤ n + 1 → name ≠ backup f i) :
      (rolloeverFiles f (n + 1) d).content name = d.content name := by
    unfold Disk.content
    rw [other name notFile apart,files]
  refine ⟨?_,first,fun i c low high => shifts i c low (Nat.le_of_lt_succ high),fun name c notLast found => ?_,
    fun name notFile apart => stays notFile apart,files⟩
  · unfold Disk.content
    rw [gone]
    rfl
  · cases Decidable.em (name = f) with
    | inl same => exact ⟨_,first c (same ▸ found)⟩
    | inr notFile =>
      cases Classical.em (∃ i, 1 ≤ i ∧ i ≤ n + 1 ∧ name = backup f i) with
      | inl numbered_ =>
        obtain ⟨i,low,high,rfl⟩ := numbered_
        have below : i ≤ n := Nat.le_of_lt_succ (Nat.lt_of_le_of_ne high fun same => notLast (same ▸ rfl))
        exact ⟨_,shifts i c low below found⟩
      | inr apart =>
        refine ⟨name,?_⟩
        rw [stays notFile fun i low high same => apart ⟨i,low,high,same⟩]
        exact found

/- A disk of the named files, in that order. -/
def diskOf (names : List Str) : Disk where
  entries := fun name => names.idxOf? name
  files := names
  inside found := (List.idxOf?_eq_some_iff.mp found).1
  once found found' := by
    obtain ⟨_,here,_⟩ := List.idxOf?_eq_some_iff.mp found
    obtain ⟨_,there,_⟩ := List.idxOf?_eq_some_iff.mp found'
    rw [← here,there]

theorem twoBackupsShift : Shifted "./log".toList 3 (diskOf ["./log".toList,"./log.2".toList,"./log.3".toList])
    (rolloeverFiles "./log".toList 3 (diskOf ["./log".toList,"./log.2".toList,"./log.3".toList])) :=
  rolloverShifts (diskOf ["./log".toList,"./log.2".toList,"./log.3".toList]) "./log".toList 3 (by decide) (by decide)

end Rollover

end CuteNdk.LogFile
