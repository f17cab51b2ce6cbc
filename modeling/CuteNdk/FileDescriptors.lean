import CuteNdk.Lib.Run
import Mathlib.Data.Finset.Card
import Mathlib.Algebra.Order.Ring.Int

/-! The file descriptor in a file_info, which all that read or write the file share: who
comes first opens it, fd_ref_count_ counts them, and who leaves last closes it. Only the
count is under a lock; file_handle_ is not. -/
namespace CuteNdk.FileDescriptors
open Lib

abbrev FileId := Nat
abbrev Fd := Nat
abbrev User := Nat

/- What a descriptor of the process is open on: the file of a file_info or anything else. -/
inductive Target where
  | file (f : FileId)
  | other
  deriving DecidableEq, Repr

/- The statement a user of a file does next, in its open or constructor: handle_ =
file_handle(), which the constructor of pipe_buffer asserts to be valid, ::open,
file_handle(handle_) and incr_fd_ref; and in its destructor: decr_fd_ref and, when the
count is 0, ::close and the reset of file_handle_. The number is its handle_. -/
inductive Pc where
  | absent
  | reading (asserts : Bool)
  | opening
  | storing (h : Fd)
  | counting (h : Fd)
  | holding (h : Fd)
  | closing
  | clearing
  deriving DecidableEq, Repr

def Pc.fd : Pc → Option Fd
  | .storing h | .counting h | .holding h => some h
  | _ => none

/- handle_ once it is in file_handle_ too. -/
def Pc.shares : Pc → Option Fd
  | .counting h | .holding h => some h
  | _ => none

def Pc.locks : Pc → Bool
  | .closing | .clearing => true
  | _ => false

/- fdRefCount, fileHandle and fdRefCountMtx are fields of each file_info, none for
NDK_INVALID_HANDLE and for a free lock; kernel is what each descriptor is open on. -/
structure State where
  pc : User → Pc
  fdRefCount : FileId → Int
  fileHandle : FileId → Option Fd
  fdRefCountMtx : FileId → Option User
  kernel : Fd → Option Target

def State.new : State := ⟨fun _ => .absent,fun _ => 0,fun _ => none,fun _ => none,fun _ => none⟩

def State.at (s : State) (i : User) (p : Pc) : State := { s with pc := Function.update s.pc i p }

inductive Act where
  | comes (i : User) (asserts : Bool)
  | go (i : User)
  | opened (i : User) (h : Fd)
  | openFails (i : User)
  | otherOpens (h : Fd)
  | otherCloses (h : Fd)
  deriving DecidableEq, Repr

section Machine
variable (file : User → FileId)

/- The next statement of a user. Of the result, none outside is a user that waits, and none
inside an assertion that fails. -/
def next (s : State) (i : User) : Pc → Option (Option State)
  | .absent | .opening => none
  | .reading asserts =>
    match s.fileHandle (file i) with
    | some h => some (some (s.at i (.counting h)))
    | none => some (if asserts then none else some (s.at i .opening))
  | .storing h => some (some { s.at i (.counting h) with fileHandle := Function.update s.fileHandle (file i) (some h) })
  | .counting h =>
    if s.fdRefCountMtx (file i) = none then
      some (some { s.at i (.holding h) with
        fdRefCount := Function.update s.fdRefCount (file i) (s.fdRefCount (file i) + 1) })
    else none
  | .holding _ =>
    if s.fdRefCountMtx (file i) = none then
      let count := s.fdRefCount (file i) - 1
      let s := { s with fdRefCount := Function.update s.fdRefCount (file i) count }
      if count = 0 then
        some (some { s.at i .closing with fdRefCountMtx := Function.update s.fdRefCountMtx (file i) (some i) })
      else some (some (s.at i .absent))
    else none
  | .closing =>
    match s.fileHandle (file i) with
    | some h => some (some { s.at i .clearing with kernel := Function.update s.kernel h none })
    | none => some (some { s.at i .absent with fdRefCountMtx := Function.update s.fdRefCountMtx (file i) none })
  | .clearing =>
    some (some { s.at i .absent with
      fileHandle := Function.update s.fileHandle (file i) none
      fdRefCountMtx := Function.update s.fdRefCountMtx (file i) none })

/- A new descriptor is one that is not open. -/
def act (s : State) : Act → Option (Option State)
  | .comes i asserts => if s.pc i = .absent then some (some (s.at i (.reading asserts))) else none
  | .go i => next file s i (s.pc i)
  | .opened i h =>
    if s.pc i = .opening ∧ s.kernel h = none then
      some (some { s.at i (.storing h) with kernel := Function.update s.kernel h (some (.file (file i))) })
    else none
  | .openFails i => if s.pc i = .opening then some (some (s.at i .absent)) else none
  | .otherOpens h =>
    if s.kernel h = none then some (some { s with kernel := Function.update s.kernel h (some .other) }) else none
  | .otherCloses h =>
    if s.kernel h = some .other then some (some { s with kernel := Function.update s.kernel h none }) else none

def step (o : Option State) (a : Act) : Option (Option State) := o.bind fun s => act file s a

/- Each handle_ is open on its file, through the one descriptor of the file, which is in
file_handle_ and is closed when nobody has it. -/
structure Safe (s : State) : Prop where
  open_ : ∀ i h, (s.pc i).fd = some h → s.kernel h = some (.file (file i))
  one : ∀ f h h', s.kernel h = some (.file f) → s.kernel h' = some (.file f) → h = h'
  shared : ∀ i h, (s.pc i).shares = some h → s.fileHandle (file i) = some h
  used : ∀ f h, s.kernel h = some (.file f) → ∃ i, file i = f ∧ ((s.pc i).fd = some h ∨ s.pc i = .closing)

structure Inv (s : State) : Prop where
  safe : Safe file s
  counted : ∀ f, ∃ H : Finset User, (H.card : Int) = s.fdRefCount f ∧
    ∀ i, i ∈ H ↔ file i = f ∧ ∃ h, s.pc i = .holding h
  locked : ∀ f i, s.fdRefCountMtx f = some i ↔ file i = f ∧ (s.pc i).locks = true
  closes : ∀ i, s.pc i = .closing → ∃ h, s.fileHandle (file i) = some h ∧ s.kernel h = some (.file (file i))

/- file_handle_ is read neither between ::close and the reset nor, by a pipe_buffer, when
there is none; and when the last user closes the descriptor, or resets file_handle_, nobody
else has it already. -/
def FineAt (s : State) (i : User) : Pc → Prop
  | .reading asserts =>
    (∀ h, s.fileHandle (file i) = some h → s.kernel h = some (.file (file i))) ∧
      (asserts = true → s.fileHandle (file i) ≠ none)
  | .closing => ∀ j, file j = file i → (s.pc j).fd = none
  | .clearing => ∀ j, file j = file i → (s.pc j).shares = none
  | _ => True

/- Besides, a file is opened only when it is not open. -/
def Fine (s : State) : Act → Prop
  | .go i => FineAt file s i (s.pc i)
  | .opened i _ => ∀ h, s.kernel h ≠ some (.file (file i))
  | _ => True

end Machine

section Steps
variable {file : User → FileId} {s : State} {i : User} {h : Fd} {p : Pc}

@[simp] theorem atPc (j : User) : (s.at i p).pc j = if j = i then p else s.pc j := by
  simp only [State.at,Function.update_apply]

theorem sharesFd (shares : p.shares = some h) : p.fd = some h := by
  cases p <;> first | exact shares | cases shares

theorem unheld (off : p.fd = none) (h : Fd) : p ≠ .holding h := by
  rintro rfl
  cases off

theorem countedAt (k : Inv file s) (before : ∀ h, s.pc i ≠ .holding h) (after : ∀ h, p ≠ .holding h) (f : FileId) :
    ∃ H : Finset User, (H.card : Int) = s.fdRefCount f ∧ ∀ j, j ∈ H ↔ file j = f ∧ ∃ h, (s.at i p).pc j = .holding h := by
  obtain ⟨H,card,mem⟩ := k.counted f
  refine ⟨H,card,fun j => (mem j).trans (and_congr_right fun _ => exists_congr fun h => ?_)⟩
  rw [atPc]
  split
  · rename_i same
    subst same
    exact iff_of_false (before h) (after h)
  · exact Iff.rfl

theorem lockedAt (k : Inv file s) (same : p.locks = (s.pc i).locks) (f : FileId) (j : User) :
    s.fdRefCountMtx f = some j ↔ file j = f ∧ ((s.at i p).pc j).locks = true := by
  rw [k.locked,atPc]
  split
  · rename_i here
    rw [here,same]
  · exact Iff.rfl

/- Who has a descriptor open, or is to close it, is not the user that moves on. -/
theorem usedAt (k : Inv file s) (before : (s.pc i).fd = none) (off : s.pc i ≠ .closing) {f : FileId} {h : Fd}
    (open_ : s.kernel h = some (.file f)) :
    ∃ j, file j = f ∧ (((s.at i p).pc j).fd = some h ∨ (s.at i p).pc j = .closing) := by
  obtain ⟨j,mine,has⟩ := k.safe.used f h open_
  have other : j ≠ i := by
    rintro rfl
    rcases has with has | closing
    · cases before.symm.trans has
    · exact off closing
  exact ⟨j,mine,by rwa [atPc,if_neg other]⟩

/- A user that had no descriptor and has none, in or out of the lock as before. -/
theorem idleKeeps (k : Inv file s) (before : (s.pc i).fd = none ∧ (s.pc i).locks = false)
    (after : p.fd = none ∧ p.locks = false) : Inv file (s.at i p) := by
  have quiet : s.pc i ≠ .closing := by
    intro is
    rw [is] at before
    cases before.2
  refine ⟨⟨fun j h has => ?_,k.safe.one,fun j h has => ?_,fun f h => usedAt k before.1 quiet⟩,
    countedAt k (unheld before.1) (unheld after.1),lockedAt k (after.2.trans before.2.symm),fun j is => ?_⟩
  · rw [atPc] at has
    split at has
    · cases after.1.symm.trans has
    · exact k.safe.open_ j h has
  · rw [atPc] at has
    split at has
    · cases after.1.symm.trans (sharesFd has)
    · exact k.safe.shared j h has
  · rw [atPc] at is
    split at is
    · subst is
      cases after.2
    · exact k.closes j is

theorem readKeeps (k : Inv file s) {asserts : Bool} (reading : s.pc i = .reading asserts)
    (stored : s.fileHandle (file i) = some h) (open_ : s.kernel h = some (.file (file i))) :
    Inv file (s.at i (.counting h)) := by
  have before : (s.pc i).fd = none ∧ (s.pc i).locks = false := by
    rw [reading]
    exact ⟨rfl,rfl⟩
  refine ⟨⟨fun j h' has => ?_,k.safe.one,fun j h' has => ?_,fun f h => usedAt k before.1 (reading ▸ nofun)⟩,
    countedAt k (unheld before.1) nofun,lockedAt k before.2.symm,fun j is => ?_⟩
  · rw [atPc] at has
    split at has
    · rename_i same
      cases has
      exact same ▸ open_
    · exact k.safe.open_ j h' has
  · rw [atPc] at has
    split at has
    · rename_i same
      cases has
      exact same ▸ stored
    · exact k.safe.shared j h' has
  · rw [atPc] at is
    split at is
    · cases is
    · exact k.closes j is

/- ::open gives a descriptor that is not open, for a file that is not. -/
theorem openedKeeps (k : Inv file s) (opening : s.pc i = .opening) (fresh : s.kernel h = none)
    (shut : ∀ h, s.kernel h ≠ some (.file (file i))) :
    Inv file { s.at i (.storing h) with kernel := Function.update s.kernel h (some (.file (file i))) } := by
  have before : (s.pc i).fd = none ∧ (s.pc i).locks = false := by
    rw [opening]
    exact ⟨rfl,rfl⟩
  have old : ∀ {h' f}, s.kernel h' = some (.file f) → h' ≠ h := by
    rintro h' f open_ rfl
    cases fresh.symm.trans open_
  have new : ∀ {h' f}, Function.update s.kernel h (some (.file (file i))) h' = some (.file f) →
      h' = h ∧ f = file i ∨ s.kernel h' = some (.file f) := by
    intro h' f open_
    rw [Function.update_apply] at open_
    split at open_
    · rename_i same
      cases open_
      exact .inl ⟨same,rfl⟩
    · exact .inr open_
  refine ⟨⟨fun j h' has => ?_,fun f h₁ h₂ first second => ?_,fun j h' has => ?_,fun f h' open_ => ?_⟩,
    countedAt k (unheld before.1) nofun,lockedAt k before.2.symm,fun j is => ?_⟩
  · change ((s.at i (.storing h)).pc j).fd = some h' at has
    change Function.update s.kernel h (some (.file (file i))) h' = some (.file (file j))
    rw [atPc] at has
    split at has
    · rename_i same
      cases has
      rw [same,Function.update_self]
    · have open_ := k.safe.open_ j h' has
      rw [Function.update_of_ne (old open_)]
      exact open_
  · rcases new first with ⟨rfl,rfl⟩ | was
    · rcases new second with ⟨rfl,_⟩ | was
      · rfl
      · exact absurd was (shut h₂)
    · rcases new second with ⟨rfl,rfl⟩ | was'
      · exact absurd was (shut h₁)
      · exact k.safe.one f h₁ h₂ was was'
  · change ((s.at i (.storing h)).pc j).shares = some h' at has
    rw [atPc] at has
    split at has
    · cases has
    · exact k.safe.shared j h' has
  · rcases new open_ with ⟨rfl,rfl⟩ | open_
    · refine ⟨i,rfl,.inl ?_⟩
      change ((s.at i (.storing h')).pc i).fd = some h'
      rw [atPc,if_pos rfl]
      rfl
    · exact usedAt k before.1 (opening ▸ nofun) open_
  · change (s.at i (.storing h)).pc j = .closing at is
    rw [atPc] at is
    split at is
    · cases is
    · obtain ⟨h',stored,open_⟩ := k.closes j is
      refine ⟨h',stored,?_⟩
      change Function.update s.kernel h (some (.file (file i))) h' = some (.file (file j))
      rw [Function.update_of_ne (old open_)]
      exact open_

theorem storeKeeps (k : Inv file s) (storing : s.pc i = .storing h) :
    Inv file { s.at i (.counting h) with fileHandle := Function.update s.fileHandle (file i) (some h) } := by
  have open_ : s.kernel h = some (.file (file i)) := k.safe.open_ i h (storing ▸ rfl)
  have stored : ∀ {j h'}, s.kernel h' = some (.file (file j)) → s.fileHandle (file j) = some h' →
      Function.update s.fileHandle (file i) (some h) (file j) = some h' := by
    intro j h' open' there
    rw [Function.update_apply]
    split
    · rename_i same
      rw [k.safe.one (file i) h h' open_ (same ▸ open')]
    · exact there
  refine ⟨⟨fun j h' has => ?_,k.safe.one,fun j h' has => ?_,fun f h' open' => ?_⟩,
    countedAt k (fun _ is => by rw [storing] at is; cases is) nofun,
    lockedAt k (by rw [storing]; rfl),fun j is => ?_⟩
  · change ((s.at i (.counting h)).pc j).fd = some h' at has
    rw [atPc] at has
    split at has
    · rename_i same
      cases has
      exact same ▸ open_
    · exact k.safe.open_ j h' has
  · change ((s.at i (.counting h)).pc j).shares = some h' at has
    rw [atPc] at has
    split at has
    · rename_i same
      cases has
      rw [same]
      exact Function.update_self _ _ _
    · exact stored (k.safe.open_ j h' (sharesFd has)) (k.safe.shared j h' has)
  · obtain ⟨j,mine,has⟩ := k.safe.used f h' open'
    refine ⟨j,mine,?_⟩
    change ((s.at i (.counting h)).pc j).fd = some h' ∨ (s.at i (.counting h)).pc j = .closing
    rw [atPc]
    split
    · rename_i same
      rw [same,storing] at has
      exact has.imp id fun is => by cases is
    · exact has
  · change (s.at i (.counting h)).pc j = .closing at is
    rw [atPc] at is
    split at is
    · cases is
    · obtain ⟨h',there,open'⟩ := k.closes j is
      exact ⟨h',stored open' there,open'⟩

theorem countKeeps (k : Inv file s) (counting : s.pc i = .counting h) :
    Inv file { s.at i (.holding h) with
      fdRefCount := Function.update s.fdRefCount (file i) (s.fdRefCount (file i) + 1) } := by
  have fd : ∀ j, ((s.at i (.holding h)).pc j).fd = (s.pc j).fd ∧ ((s.at i (.holding h)).pc j).shares = (s.pc j).shares := by
    intro j
    rw [atPc]
    split
    · rename_i same
      rw [same,counting]
      exact ⟨rfl,rfl⟩
    · exact ⟨rfl,rfl⟩
  have closing : ∀ j, (s.at i (.holding h)).pc j = .closing ↔ s.pc j = .closing := by
    intro j
    rw [atPc]
    split
    · rename_i same
      rw [same,counting]
      exact iff_of_false nofun nofun
    · exact Iff.rfl
  refine ⟨⟨fun j h' has => k.safe.open_ j h' ((fd j).1.symm.trans has),k.safe.one,
    fun j h' has => k.safe.shared j h' ((fd j).2.symm.trans has),fun f h' open_ => ?_⟩,fun f => ?_,
    lockedAt k (by rw [counting]; rfl),fun j is => k.closes j ((closing j).1 is)⟩
  · obtain ⟨j,mine,has⟩ := k.safe.used f h' open_
    exact ⟨j,mine,has.imp (fd j).1.trans (closing j).2⟩
  · obtain ⟨H,card,mem⟩ := k.counted f
    by_cases same : f = file i
    · subst same
      have fresh : i ∉ H := fun there => by
        obtain ⟨_,h',is⟩ := (mem i).1 there
        cases counting.symm.trans is
      refine ⟨insert i H,?_,fun j => ?_⟩
      · change ((insert i H).card : Int) = Function.update s.fdRefCount (file i) _ (file i)
        rw [Finset.card_insert_of_notMem fresh,Function.update_self,← card]
        rfl
      · change j ∈ insert i H ↔ file j = file i ∧ ∃ h', (s.at i (.holding h)).pc j = .holding h'
        rw [Finset.mem_insert,mem,atPc]
        split
        · rename_i here
          exact iff_of_true (.inl here) ⟨here ▸ rfl,h,rfl⟩
        · rename_i other
          exact or_iff_right other
    · refine ⟨H,card.trans (Function.update_of_ne same _ _).symm,fun j => (mem j).trans (and_congr_right fun mine => ?_)⟩
      change (∃ h', s.pc j = .holding h') ↔ ∃ h', (s.at i (.holding h)).pc j = .holding h'
      rw [atPc,if_neg fun here : j = i => same (mine.symm.trans (here ▸ rfl))]

/- The users that are counted behind a decr_fd_ref. -/
theorem lessCounted (k : Inv file s) (holding : s.pc i = .holding h) (off : ∀ h, p ≠ .holding h) (f : FileId) :
    ∃ H : Finset User, (H.card : Int) = Function.update s.fdRefCount (file i) (s.fdRefCount (file i) - 1) f ∧
      ∀ j, j ∈ H ↔ file j = f ∧ ∃ h, (s.at i p).pc j = .holding h := by
  obtain ⟨H,card,mem⟩ := k.counted f
  by_cases same : f = file i
  · subst same
    have there : i ∈ H := (mem i).2 ⟨rfl,h,holding⟩
    refine ⟨H.erase i,?_,fun j => ?_⟩
    · rw [Finset.card_erase_of_mem there,Function.update_self,← card]
      have some_ := Finset.card_pos.2 ⟨i,there⟩
      omega
    · rw [Finset.mem_erase,mem,atPc]
      split
      · rename_i here
        exact iff_of_false (fun both => both.1 here) fun both => both.2.elim fun h is => off h is
      · rename_i other
        exact and_iff_right other
  · refine ⟨H,card.trans (Function.update_of_ne same _ _).symm,fun j => (mem j).trans (and_congr_right fun mine => ?_)⟩
    rw [atPc,if_neg fun here : j = i => same (mine.symm.trans (here ▸ rfl))]

theorem leftOpen (k : Inv file s) (off : p.fd = none) {j : User} {h' : Fd} (has : ((s.at i p).pc j).fd = some h') :
    s.kernel h' = some (.file (file j)) := by
  rw [atPc] at has
  split at has
  · cases off.symm.trans has
  · exact k.safe.open_ j h' has

theorem leftShared (k : Inv file s) (off : p.fd = none) {j : User} {h' : Fd} (has : ((s.at i p).pc j).shares = some h') :
    s.fileHandle (file j) = some h' := by
  rw [atPc] at has
  split at has
  · cases off.symm.trans (sharesFd has)
  · exact k.safe.shared j h' has

theorem leaveLastKeeps (k : Inv file s) (holding : s.pc i = .holding h) (free : s.fdRefCountMtx (file i) = none) :
    Inv file { s.at i .closing with
      fdRefCount := Function.update s.fdRefCount (file i) (s.fdRefCount (file i) - 1)
      fdRefCountMtx := Function.update s.fdRefCountMtx (file i) (some i) } := by
  refine ⟨⟨fun j h' => leftOpen k rfl,k.safe.one,fun j h' => leftShared k rfl,fun f h' open_ => ?_⟩,
    lessCounted k holding nofun,fun f j => ?_,fun j is => ?_⟩
  · obtain ⟨j,mine,has⟩ := k.safe.used f h' open_
    refine ⟨j,mine,?_⟩
    change ((s.at i .closing).pc j).fd = some h' ∨ (s.at i .closing).pc j = .closing
    rw [atPc]
    split
    · exact .inr rfl
    · exact has
  · change Function.update s.fdRefCountMtx (file i) (some i) f = some j ↔ file j = f ∧ ((s.at i .closing).pc j).locks = true
    rw [Function.update_apply,atPc]
    split
    · rename_i same
      subst same
      split
      · rename_i here
        exact iff_of_true (here ▸ rfl) ⟨here ▸ rfl,rfl⟩
      · rename_i other
        refine iff_of_false (fun is => other (Option.some.inj is).symm) fun locked => ?_
        cases free.symm.trans ((k.locked (file i) j).2 locked)
    · rename_i apart
      rw [k.locked]
      refine and_congr_right fun mine => ?_
      rw [if_neg fun here : j = i => apart (mine.symm.trans (here ▸ rfl))]
  · change (s.at i .closing).pc j = .closing at is
    rw [atPc] at is
    split at is
    · rename_i same
      rw [same]
      exact ⟨h,k.safe.shared i h (holding ▸ rfl),k.safe.open_ i h (holding ▸ rfl)⟩
    · exact k.closes j is

theorem leaveKeeps (k : Inv file s) (holding : s.pc i = .holding h) (more : s.fdRefCount (file i) - 1 ≠ 0) :
    Inv file { s.at i .absent with
      fdRefCount := Function.update s.fdRefCount (file i) (s.fdRefCount (file i) - 1) } := by
  refine ⟨⟨fun j h' => leftOpen k rfl,k.safe.one,fun j h' => leftShared k rfl,fun f h' open_ => ?_⟩,
    lessCounted k holding nofun,lockedAt k (by rw [holding]; rfl),fun j is => ?_⟩
  · obtain ⟨j,mine,has⟩ := k.safe.used f h' open_
    change ∃ j, file j = f ∧ (((s.at i .absent).pc j).fd = some h' ∨ (s.at i .absent).pc j = .closing)
    by_cases here : j = i
    · -- another user is counted, and has the same descriptor
      subst here
      obtain ⟨H,card,mem⟩ := lessCounted k holding (show ∀ h, Pc.absent ≠ .holding h from nofun) (file j)
      rw [Function.update_self] at card
      obtain ⟨u,there⟩ := Finset.card_pos.1 (show 0 < H.card by omega)
      obtain ⟨theirs,h₂,holds⟩ := (mem u).1 there
      have other : u ≠ j := by
        rintro rfl
        rw [atPc,if_pos rfl] at holds
        cases holds
      rw [atPc,if_neg other] at holds
      have mineIs := k.safe.shared j h (holding ▸ rfl)
      have theirsIs := k.safe.shared u h₂ (holds ▸ rfl)
      rw [theirs,mineIs] at theirsIs
      rw [holding] at has
      refine ⟨u,theirs.trans mine,.inl ?_⟩
      rw [atPc,if_neg other,holds]
      rcases has with has | closing
      · exact theirsIs.symm.trans has
      · cases closing
    · refine ⟨j,mine,?_⟩
      rw [atPc,if_neg here]
      exact has
  · change (s.at i .absent).pc j = .closing at is
    rw [atPc] at is
    split at is
    · cases is
    · exact k.closes j is

theorem oneLocks (k : Inv file s) {j : User} (mine : (s.pc i).locks = true) (theirs : (s.pc j).locks = true)
    (same : file j = file i) : j = i :=
  Option.some.inj (((k.locked (file i) j).2 ⟨same,theirs⟩).symm.trans ((k.locked (file i) i).2 ⟨rfl,mine⟩))

theorem closeKeeps (k : Inv file s) (closing : s.pc i = .closing) (stored : s.fileHandle (file i) = some h)
    (alone : ∀ j, file j = file i → (s.pc j).fd = none) :
    Inv file { s.at i .clearing with kernel := Function.update s.kernel h none } := by
  have mine : s.kernel h = some (.file (file i)) := by
    obtain ⟨h',there,open_⟩ := k.closes i closing
    cases stored.symm.trans there
    exact open_
  have still : ∀ {h' f}, Function.update s.kernel h none h' = some (.file f) → h' ≠ h ∧ s.kernel h' = some (.file f) := by
    intro h' f open_
    rw [Function.update_apply] at open_
    split at open_
    · cases open_
    · exact ⟨‹_›,open_⟩
  refine ⟨⟨fun j h' has => ?_,fun f h₁ h₂ first second => ?_,fun j h' => leftShared k rfl,fun f h' open_ => ?_⟩,
    countedAt k (fun _ is => by rw [closing] at is; cases is) nofun,lockedAt k (by rw [closing]; rfl),fun j is => ?_⟩
  · have open_ := leftOpen k rfl has
    change Function.update s.kernel h none h' = some (.file (file j))
    rw [Function.update_of_ne,open_]
    rintro rfl
    have same : file i = file j := Target.file.inj (Option.some.inj (mine.symm.trans open_))
    change ((s.at i .clearing).pc j).fd = some h' at has
    rw [atPc] at has
    split at has
    · cases has
    · cases (alone j same.symm).symm.trans has
  · exact k.safe.one f h₁ h₂ (still first).2 (still second).2
  · obtain ⟨other,was⟩ := still open_
    obtain ⟨j,theirs,has⟩ := k.safe.used f h' was
    refine ⟨j,theirs,?_⟩
    change ((s.at i .clearing).pc j).fd = some h' ∨ (s.at i .clearing).pc j = .closing
    rw [atPc,if_neg]
    · exact has
    · rintro rfl
      exact other (k.safe.one f h' h was (theirs ▸ mine))
  · change (s.at i .clearing).pc j = .closing at is
    rw [atPc] at is
    split at is
    · cases is
    · rename_i off
      obtain ⟨h',there,open_⟩ := k.closes j is
      refine ⟨h',there,?_⟩
      change Function.update s.kernel h none h' = some (.file (file j))
      rw [Function.update_of_ne,open_]
      rintro rfl
      exact off (oneLocks k (closing ▸ rfl) (is ▸ rfl) (Target.file.inj (Option.some.inj (open_.symm.trans mine))))

theorem clearKeeps (k : Inv file s) (clearing : s.pc i = .clearing) (alone : ∀ j, file j = file i → (s.pc j).shares = none) :
    Inv file { s.at i .absent with
      fileHandle := Function.update s.fileHandle (file i) none
      fdRefCountMtx := Function.update s.fdRefCountMtx (file i) none } := by
  refine ⟨⟨fun j h' => leftOpen k rfl,k.safe.one,fun j h' has => ?_,
    fun f h' => usedAt k (by rw [clearing]; rfl) (clearing ▸ nofun)⟩,
    countedAt k (fun _ is => by rw [clearing] at is; cases is) nofun,fun f j => ?_,fun j is => ?_⟩
  · have stored := leftShared k rfl has
    change Function.update s.fileHandle (file i) none (file j) = some h'
    rw [Function.update_of_ne,stored]
    intro same
    change ((s.at i .absent).pc j).shares = some h' at has
    rw [atPc] at has
    split at has
    · cases has
    · cases (alone j same).symm.trans has
  · change Function.update s.fdRefCountMtx (file i) none f = some j ↔ file j = f ∧ ((s.at i .absent).pc j).locks = true
    rw [Function.update_apply,atPc]
    split
    · rename_i same
      subst same
      refine iff_of_false nofun fun both => ?_
      obtain ⟨mine,locks⟩ := both
      split at locks
      · cases locks
      · rename_i off
        exact off (oneLocks k (clearing ▸ rfl) locks mine)
    · rename_i apart
      rw [k.locked]
      refine and_congr_right fun mine => ?_
      rw [if_neg fun here : j = i => apart (mine.symm.trans (here ▸ rfl))]
  · change (s.at i .absent).pc j = .closing at is
    rw [atPc] at is
    split at is
    · cases is
    · rename_i off
      obtain ⟨h',there,open_⟩ := k.closes j is
      refine ⟨h',?_,open_⟩
      change Function.update s.fileHandle (file i) none (file j) = some h'
      rw [Function.update_of_ne,there]
      exact fun same => off (oneLocks k (clearing ▸ rfl) (is ▸ rfl) same)

/- What is opened and closed elsewhere in the process. -/
theorem kernelKeeps (k : Inv file s) {kernel : Fd → Option Target}
    (same : ∀ h f, kernel h = some (.file f) ↔ s.kernel h = some (.file f)) : Inv file { s with kernel := kernel } := by
  refine ⟨⟨fun j h has => (same _ _).2 (k.safe.open_ j h has),fun f h h' first second => ?_,k.safe.shared,
    fun f h open_ => k.safe.used f h ((same _ _).1 open_)⟩,k.counted,k.locked,fun j is => ?_⟩
  · exact k.safe.one f h h' ((same _ _).1 first) ((same _ _).1 second)
  · obtain ⟨h,stored,open_⟩ := k.closes j is
    exact ⟨h,stored,(same _ _).2 open_⟩

theorem nextKeeps (k : Inv file s) (fine : FineAt file s i (s.pc i)) {o : Option State} (does : next file s i (s.pc i) = some o) :
    ∃ s' ∈ o, Inv file s' := by
  cases pc : s.pc i with
  | absent | opening =>
    rw [pc] at does
    cases does
  | reading asserts =>
    rw [pc] at does fine
    obtain ⟨open_,asserted⟩ := fine
    cases stored : s.fileHandle (file i) with
    | none =>
      have unasserted : ¬asserts = true := fun is => asserted is stored
      simp only [next,stored,if_neg unasserted] at does
      cases Option.some.inj does
      exact ⟨_,rfl,idleKeeps k (by rw [pc]; exact ⟨rfl,rfl⟩) ⟨rfl,rfl⟩⟩
    | some h =>
      simp only [next,stored] at does
      cases Option.some.inj does
      exact ⟨_,rfl,readKeeps k pc stored (open_ h stored)⟩
  | storing h =>
    rw [pc] at does
    cases Option.some.inj does
    exact ⟨_,rfl,storeKeeps k pc⟩
  | counting h =>
    rw [pc,next] at does
    split at does
    · cases Option.some.inj does
      exact ⟨_,rfl,countKeeps k pc⟩
    · cases does
  | holding h =>
    rw [pc,next] at does
    split at does
    · rename_i free
      simp only at does
      split at does
      · cases Option.some.inj does
        exact ⟨_,rfl,leaveLastKeeps k pc free⟩
      · rename_i more
        cases Option.some.inj does
        exact ⟨_,rfl,leaveKeeps k pc more⟩
    · cases does
  | closing =>
    obtain ⟨h,stored,_⟩ := k.closes i pc
    rw [pc] at does fine
    simp only [next,stored] at does
    cases Option.some.inj does
    exact ⟨_,rfl,closeKeeps k pc stored fine⟩
  | clearing =>
    rw [pc] at does fine
    cases Option.some.inj does
    exact ⟨_,rfl,clearKeeps k pc fine⟩

theorem stepKeeps (k : Inv file s) {a : Act} (fine : Fine file s a) {o : Option State} (does : act file s a = some o) :
    ∃ s' ∈ o, Inv file s' := by
  cases a with
  | comes i asserts =>
    simp only [act] at does
    split at does
    · rename_i absent
      cases Option.some.inj does
      exact ⟨_,rfl,idleKeeps k (by rw [absent]; exact ⟨rfl,rfl⟩) ⟨rfl,rfl⟩⟩
    · cases does
  | go i => exact nextKeeps k fine does
  | opened i h =>
    simp only [act] at does
    split at does
    · rename_i free
      cases Option.some.inj does
      exact ⟨_,rfl,openedKeeps k free.1 free.2 fine⟩
    · cases does
  | openFails i =>
    simp only [act] at does
    split at does
    · rename_i opening
      cases Option.some.inj does
      exact ⟨_,rfl,idleKeeps k (by rw [opening]; exact ⟨rfl,rfl⟩) ⟨rfl,rfl⟩⟩
    · cases does
  | otherOpens h =>
    simp only [act] at does
    split at does
    · rename_i free
      cases Option.some.inj does
      refine ⟨_,rfl,kernelKeeps k fun h' f => ?_⟩
      rw [Function.update_apply]
      split
      · rename_i same
        rw [same,free]
        exact iff_of_false nofun nofun
      · exact Iff.rfl
    · cases does
  | otherCloses h =>
    simp only [act] at does
    split at does
    · rename_i other
      cases Option.some.inj does
      refine ⟨_,rfl,kernelKeeps k fun h' f => ?_⟩
      rw [Function.update_apply]
      split
      · rename_i same
        rw [same,other]
        exact iff_of_false nofun nofun
      · exact Iff.rfl
    · cases does

/- Each step off the condition leaves somebody a descriptor that is not his file's, or a
second one open on a file. -/
theorem stepBreaks (k : Inv file s) {a : Act} (bad : ¬Fine file s a) {o : Option State} (does : act file s a = some o) :
    ¬∃ s' ∈ o, Safe file s' := by
  cases a with
  | go i =>
    simp only [act] at does
    simp only [Fine] at bad
    cases pc : s.pc i with
    | reading asserts =>
      rw [pc] at does bad
      simp only [FineAt,not_and_or,not_forall,exists_prop,ne_eq,not_not] at bad
      rcases bad with ⟨h,stored,shut⟩ | ⟨asserted,none_⟩
      · simp only [next,stored] at does
        cases Option.some.inj does
        rintro ⟨s',here,safe⟩
        cases Option.some.inj here
        exact shut (safe.open_ i h (by rw [atPc,if_pos rfl]; rfl))
      · simp only [next,none_,asserted] at does
        cases Option.some.inj does
        rintro ⟨s',here,_⟩
        cases here
    | closing =>
      obtain ⟨h,stored,open_⟩ := k.closes i pc
      rw [pc] at does bad
      simp only [FineAt,not_forall,exists_prop] at bad
      obtain ⟨j,same,some_⟩ := bad
      obtain ⟨h',has⟩ := Option.ne_none_iff_exists'.1 some_
      simp only [next,stored] at does
      cases Option.some.inj does
      rintro ⟨s',here,safe⟩
      cases Option.some.inj here
      have other : j ≠ i := by
        rintro rfl
        rw [pc] at has
        cases has
      have theirs := k.safe.open_ j h' has
      rw [same] at theirs
      have was := safe.open_ j h' (by
        change ((s.at i .clearing).pc j).fd = some h'
        rw [atPc,if_neg other]
        exact has)
      rw [k.safe.one (file i) h h' open_ theirs] at was
      change Function.update s.kernel h' none h' = some (.file (file j)) at was
      rw [Function.update_self] at was
      cases was
    | clearing =>
      rw [pc] at does bad
      simp only [FineAt,not_forall,exists_prop] at bad
      obtain ⟨j,same,some_⟩ := bad
      obtain ⟨h,has⟩ := Option.ne_none_iff_exists'.1 some_
      cases Option.some.inj does
      rintro ⟨s',here,safe⟩
      cases Option.some.inj here
      have other : j ≠ i := by
        rintro rfl
        rw [pc] at has
        cases has
      have was := safe.shared j h (by
        change ((s.at i .absent).pc j).shares = some h
        rw [atPc,if_neg other]
        exact has)
      change Function.update s.fileHandle (file i) none (file j) = some h at was
      rw [same,Function.update_self] at was
      cases was
    | _ =>
      rw [pc] at bad
      exact absurd trivial bad
  | opened i h =>
    simp only [Fine,not_forall,not_not] at bad
    obtain ⟨h',open_⟩ := bad
    simp only [act] at does
    split at does
    · rename_i free
      cases Option.some.inj does
      rintro ⟨s',here,safe⟩
      cases Option.some.inj here
      have other : h' ≠ h := by
        rintro rfl
        cases free.2.symm.trans open_
      refine other (safe.one (file i) h' h ?_ ?_)
      · change Function.update s.kernel h (some (.file (file i))) h' = some (.file (file i))
        rw [Function.update_of_ne other]
        exact open_
      · exact Function.update_self _ _ _
    · cases does
  | _ => exact absurd trivial bad

end Steps

theorem newInv (file : User → FileId) : Inv file .new := by
  refine ⟨⟨nofun,nofun,nofun,nofun⟩,fun f => ⟨∅,rfl,fun i => iff_of_false (Finset.notMem_empty i) ?_⟩,
    fun f i => iff_of_false nofun ?_,nofun⟩
  · rintro ⟨_,_,is⟩
    cases is
  · rintro ⟨_,is⟩
    cases is

def Good (file : User → FileId) (o : Option State) : Prop := ∃ s ∈ o, Inv file s

/- In any order of the users' statements and of what else the process opens and closes, the
descriptors are safe exactly as long as each step is fine. -/
theorem descriptorsSafe (file : User → FileId) (acts : List Act) :
    Always (step file) (fun o => ∃ s ∈ o, Safe file s) (some .new) acts ↔
      Along (step file) (fun o a => ∀ s ∈ o, Fine file s a) (some .new) acts := by
  refine alwaysIffAlong ?_ ?_ ?_ (show Good file (some .new) from ⟨_,rfl,newInv file⟩) acts
  · rintro o a o' ⟨s,rfl,k⟩ fine does
    exact stepKeeps k (fine s rfl) does
  · rintro o ⟨s,rfl,k⟩
    exact ⟨s,rfl,k.safe⟩
  · rintro o a o' ⟨s,rfl,k⟩ bad does
    exact stepBreaks k (fun fine => bad fun s' here => Option.some.inj here ▸ fine) does

/- One thread opens the file of a transfer that another thread deletes: between file_handle()
and incr_fd_ref() the descriptor is closed. -/
example : (((run (step fun _ => 0) (some .new) [.comes 0 false,.go 0,.opened 0 3,.go 0,.go 0,.comes 1 false,.go 1,
    .go 0,.go 0,.go 0,.go 1]).bind id).map fun s => (s.pc 1,s.kernel 3,s.fileHandle 0)) = some (.holding 3,none,none) := by
  decide

end CuteNdk.FileDescriptors
