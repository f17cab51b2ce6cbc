import CuteNdk.Lib.Run

/-! strace and mtrace, the objects traced functions begin and end with. count_ is one for all of
them, and what a constructor or destructor writes into spaces_ grows with it. -/
namespace CuteNdk.Strace
open Lib (run Always alwaysHead)

/- strace counts in an unsigned int, under its mutex and for all threads; mtrace in a size_t, which
nothing guards, and so for one thread here. -/
inductive Tracer where | strace | mtrace deriving DecidableEq, Repr

def Tracer.modulus : Tracer → Nat
  | .strace => 0x100000000
  | .mtrace => 0x10000000000000000

/- sizeof(this->spaces_) -/
def spacesSize : Nat := 128

/- alive is how many of the objects there are. overrun stands for a write behind spaces_. -/
structure State where
  alive : Nat
  count : Nat
  overrun : Bool
  deriving DecidableEq, Repr

def start : State := ⟨0,0,false⟩

/- if (count_ >= sizeof(this->spaces_) / 2) --count_; -/
def limited (count : Nat) : Nat := if spacesSize / 2 ≤ count then count - 1 else count

/- The memset of two blanks for each of count and the terminator behind them are not all inside. -/
def Tracer.overruns (t : Tracer) (count : Nat) : Bool := decide (spacesSize ≤ count * 2 % t.modulus)

/- strace::strace, with count_++ in what it prints. -/
def Tracer.calling (t : Tracer) (s : State) : State :=
  let count := limited s.count
  ⟨s.alive + 1,(count + 1) % t.modulus,s.overrun || t.overruns count⟩

/- strace::~strace, with --count_ in what it prints. -/
def Tracer.leaving (t : Tracer) (s : State) : State :=
  let count := (limited s.count + (t.modulus - 1)) % t.modulus
  ⟨s.alive - 1,count,s.overrun || t.overruns count⟩

inductive Act where | calling | leaving deriving DecidableEq, Repr

def step (t : Tracer) (s : State) : Act → Option State
  | .calling => some (t.calling s)
  | .leaving => if s.alive = 0 then none else some (t.leaving s)

/- Every object is counted, and there is room for one more. -/
def Counted (s : State) : Prop := s.overrun = false ∧ s.count = s.alive ∧ s.alive < 64

/- An object is not counted, or the next one will not be. -/
def Lost (s : State) : Prop :=
  s.overrun = true ∨ s.count ≤ 64 ∧ (s.count < s.alive ∨ s.count = s.alive ∧ s.alive = 64)

section Runs
variable {t : Tracer} {s s' : State} {a : Act}

theorem modulusLarge (t : Tracer) : 130 ≤ t.modulus := by cases t <;> decide

theorem inside {count : Nat} (small : count < 64) : t.overruns count = false := by
  have large := modulusLarge t
  refine decide_eq_false fun beyond => ?_
  rw [Nat.mod_eq_of_lt (by omega)] at beyond
  simp only [spacesSize] at beyond
  omega

/- The destructor that finds count_ at 0. -/
theorem outside (t : Tracer) : t.overruns (t.modulus - 1) = true := by cases t <;> decide

/- What an object does to count_ where it has room, and at the last place of spaces_. -/
theorem limitedSmall {count : Nat} (small : count < 64) : limited count = count := if_neg (Nat.not_le.2 small)

theorem counts (t : Tracer) {count : Nat} (small : count < 64) : (count + 1) % t.modulus = count + 1 := by
  have large := modulusLarge t
  exact Nat.mod_eq_of_lt (by omega)

theorem uncounts (t : Tracer) {count : Nat} (small : count < 64) (some_ : 0 < count) :
    (count + (t.modulus - 1)) % t.modulus = count - 1 := by
  have large := modulusLarge t
  rw [show count + (t.modulus - 1) = (count - 1) + t.modulus by omega,Nat.add_mod_right]
  exact Nat.mod_eq_of_lt (by omega)

theorem uncountsNone (t : Tracer) : (0 + (t.modulus - 1)) % t.modulus = t.modulus - 1 := by
  have large := modulusLarge t
  exact (congrArg (· % t.modulus) (Nat.zero_add _)).trans (Nat.mod_eq_of_lt (by omega))

theorem stepAlive (does : step t s a = some s') :
    s' = t.calling s ∧ s'.alive = s.alive + 1 ∨ s' = t.leaving s ∧ 0 < s.alive ∧ s'.alive = s.alive - 1 := by
  cases a with
  | calling =>
    cases does
    exact .inl ⟨rfl,rfl⟩
  | leaving =>
    have does : (if s.alive = 0 then none else some (t.leaving s)) = some s' := does
    split at does
    · cases does
    · rename_i some_
      cases does
      exact .inr ⟨rfl,Nat.pos_of_ne_zero some_,rfl⟩

theorem stepCounted (c : Counted s) (does : step t s a = some s') : Counted s' ∨ Lost s' ∧ s'.alive = 64 := by
  obtain ⟨fine,counted,room⟩ := c
  have room' : s.count < 64 := counted ▸ room
  rcases stepAlive does with ⟨rfl,_⟩ | ⟨rfl,some_,_⟩
  · have state : t.calling s = ⟨s.alive + 1,s.alive + 1,false⟩ := by
      unfold Tracer.calling
      rw [limitedSmall room']
      dsimp only
      rw [counts t room',inside room',fine,counted]
      rfl
    rw [state]
    rcases Nat.lt_or_ge (s.alive + 1) 64 with more | full
    · exact .inl ⟨rfl,rfl,more⟩
    · have last : s.alive + 1 = 64 := by omega
      exact .inr ⟨.inr ⟨Nat.le_of_eq last,.inr ⟨rfl,last⟩⟩,last⟩
  · have state : t.leaving s = ⟨s.alive - 1,s.alive - 1,false⟩ := by
      unfold Tracer.leaving
      have less : s.count - 1 < 64 := by omega
      rw [limitedSmall room']
      dsimp only
      rw [uncounts t room' (counted.symm ▸ some_),inside less,fine,counted]
      rfl
    rw [state]
    exact .inl ⟨rfl,rfl,by show s.alive - 1 < 64; omega⟩

/- What is not counted is not counted later, up to a destructor that writes outside. -/
theorem stepLost (l : Lost s) (does : step t s a = some s') : Lost s' := by
  rcases l with beyond | ⟨bound,lost⟩
  · refine .inl ?_
    rcases stepAlive does with ⟨rfl,_⟩ | ⟨rfl,_,_⟩
    · exact (congrArg (· || _) beyond).trans (Bool.true_or _)
    · exact (congrArg (· || _) beyond).trans (Bool.true_or _)
  · have full : s.count = 64 ∨ s.count < 64 ∧ s.count < s.alive := by omega
    rcases full with full | ⟨small,fewer⟩
    · rcases stepAlive does with ⟨rfl,alive⟩ | ⟨rfl,_,alive⟩
      · refine .inr ?_
        have count : (t.calling s).count = 64 := by
          show (limited s.count + 1) % t.modulus = 64
          rw [full]
          exact counts t (by decide : 63 < 64)
        omega
      · refine .inr ?_
        have count : (t.leaving s).count = 62 := by
          show (limited s.count + (t.modulus - 1)) % t.modulus = 62
          rw [full]
          exact uncounts t (by decide : 63 < 64) (by decide)
        omega
    · rcases stepAlive does with ⟨rfl,alive⟩ | ⟨rfl,_,alive⟩
      · refine .inr ?_
        have count : (t.calling s).count = s.count + 1 := by
          show (limited s.count + 1) % t.modulus = s.count + 1
          rw [limitedSmall small]
          exact counts t small
        omega
      · rcases Nat.eq_zero_or_pos s.count with none_ | some_
        · -- count_ - 1 wraps
          refine .inl ?_
          show (s.overrun || t.overruns ((limited s.count + (t.modulus - 1)) % t.modulus)) = true
          rw [none_,limitedSmall (by decide : 0 < 64),uncountsNone,outside,Bool.or_true]
        · refine .inr ?_
          have count : (t.leaving s).count = s.count - 1 := by
            show (limited s.count + (t.modulus - 1)) % t.modulus = s.count - 1
            rw [limitedSmall small]
            exact uncounts t small some_
          omega

theorem runLost {acts : List Act} (l : Lost s) (ran : run (step t) s acts = some s') : Lost s' := by
  induction acts generalizing s with
  | nil =>
    cases ran
    exact l
  | cons a acts ih =>
    obtain ⟨m,does,rest⟩ := Option.bind_eq_some_iff.1 ran
    exact ih (stepLost l does) rest

theorem runCounted {acts : List Act} (c : Counted s) (ran : run (step t) s acts = some s') (left : s'.alive = 0) :
    s'.overrun = false ↔ Always (step t) (fun s => s.alive < 64) s acts := by
  induction acts generalizing s with
  | nil =>
    cases ran
    exact ⟨fun _ => c.2.2,fun _ => c.1⟩
  | cons a acts ih =>
    obtain ⟨m,does,rest⟩ := Option.bind_eq_some_iff.1 ran
    have goes : Always (step t) (fun s => s.alive < 64) s (a :: acts) ↔ Always (step t) (fun s => s.alive < 64) m acts :=
      ⟨fun always => always.2 m does,fun always => ⟨c.2.2,fun m' does' => Option.some.inj (does.symm.trans does') ▸ always⟩⟩
    rw [goes]
    rcases stepCounted c does with c' | ⟨l,full⟩
    · exact ih c' rest
    · -- with 64 objects one of them is lost by the time they are gone
      have beyond : s'.overrun = true := by
        rcases runLost l rest with beyond | ⟨_,fewer⟩
        · exact beyond
        · omega
      refine ⟨fun fine => Bool.noConfusion (fine.symm.trans beyond),fun always => ?_⟩
      have few := alwaysHead always
      omega

end Runs

end CuteNdk.Strace
