import Mathlib.Order.Lattice

/-! time_value: seconds and microseconds in the form normalize leaves them in,
which every constructor and every sum goes through. The order is the one its
operators compare by. -/
namespace CuteNdk

structure TimeValue where
  sec : Int
  usec : Int
  normal : -1000000 < usec ∧ usec < 1000000 ∧ (1 ≤ sec → 0 ≤ usec)
  deriving DecidableEq, Repr

namespace TimeValue

/- The do-while loops of normalize: each turn carries one second, so they end
after as many turns as there are whole seconds in usec. -/
def carry (sec usec : Int) : Int × Int :=
  if 1000000 ≤ usec then (sec + usec / 1000000,usec % 1000000)
  else if usec ≤ -1000000 then (sec - (-usec) / 1000000,-((-usec) % 1000000))
  else (sec,usec)

def borrow (t : Int × Int) : Int × Int :=
  if 1 ≤ t.1 ∧ t.2 < 0 then (t.1 - 1,t.2 + 1000000) else t

theorem normalOf (sec usec : Int) :
    -1000000 < (borrow (carry sec usec)).2 ∧ (borrow (carry sec usec)).2 < 1000000 ∧
      (1 ≤ (borrow (carry sec usec)).1 → 0 ≤ (borrow (carry sec usec)).2) := by
  unfold borrow carry
  split_ifs <;> simp_all <;> omega

def set (sec usec : Int) : TimeValue :=
  ⟨(borrow (carry sec usec)).1,(borrow (carry sec usec)).2,normalOf sec usec⟩

def zero : TimeValue := set 0 0

instance : Add TimeValue := ⟨fun a b => set (a.sec + b.sec) (a.usec + b.usec)⟩

instance : LT TimeValue := ⟨fun a b => a.sec < b.sec ∨ a.sec = b.sec ∧ a.usec < b.usec⟩
instance : LE TimeValue := ⟨fun a b => a.sec < b.sec ∨ a.sec = b.sec ∧ a.usec ≤ b.usec⟩

theorem ltIff {a b : TimeValue} : a < b ↔ a.sec < b.sec ∨ a.sec = b.sec ∧ a.usec < b.usec :=
  Iff.rfl
theorem leIff {a b : TimeValue} : a ≤ b ↔ a.sec < b.sec ∨ a.sec = b.sec ∧ a.usec ≤ b.usec :=
  Iff.rfl

instance (a b : TimeValue) : Decidable (a < b) := decidable_of_iff _ ltIff.symm
instance (a b : TimeValue) : Decidable (a ≤ b) := decidable_of_iff _ leIff.symm

theorem same {a b : TimeValue} (sec : a.sec = b.sec) (usec : a.usec = b.usec) : a = b := by
  cases a
  cases b
  cases sec
  cases usec
  rfl

instance : LinearOrder TimeValue where
  le_refl a := by rw [leIff]; omega
  le_trans a b c := by simp only [leIff]; omega
  lt_iff_le_not_ge a b := by simp only [leIff,ltIff]; omega
  le_antisymm a b h h' := by
    rw [leIff] at h h'
    exact same (by omega) (by omega)
  le_total a b := by simp only [leIff]; omega
  toDecidableLE := inferInstance

/- The duration a value stands for, in microseconds. -/
def total (t : TimeValue) : Int := t.sec * 1000000 + t.usec

theorem totalSet (sec usec : Int) : (set sec usec).total = sec * 1000000 + usec := by
  unfold total set borrow carry
  split_ifs <;> simp_all <;> omega

theorem totalAdd (a b : TimeValue) : (a + b).total = a.total + b.total := by
  have sum := totalSet (a.sec + b.sec) (a.usec + b.usec)
  change (set _ _).total = _
  unfold total at *
  omega

theorem totalPos {t : TimeValue} (h : zero < t) : 0 < t.total := by
  have n := t.normal
  have later := ltIff.mp h
  have sec : zero.sec = 0 := rfl
  have usec : zero.usec = 0 := rfl
  unfold total
  omega

/- do v = v + interval; while (v <= current); -/
def skipPast (current interval : TimeValue) : Nat → TimeValue → Option TimeValue
  | 0, _ => none
  | fuel + 1, v =>
    if v + interval ≤ current then skipPast current interval fuel (v + interval)
    else some (v + interval)

/- Microseconds the loop may have to cross, an upper bound on its turns. -/
def turns (current v : TimeValue) : Nat := ((current.sec + 2) * 1000000 - v.total).toNat + 1

theorem skipPastEnds {current interval : TimeValue} (forward : zero < interval) {fuel : Nat}
    {v : TimeValue} (enough : (current.sec + 2) * 1000000 - v.total < fuel) (more : 0 < fuel) :
    ∃ w, skipPast current interval fuel v = some w := by
  induction fuel generalizing v with
  | zero => omega
  | succ fuel ih =>
    simp only [skipPast]
    split
    case isFalse => exact ⟨_,rfl⟩
    case isTrue early =>
      have ahead := totalPos forward
      have sum := totalAdd v interval
      have bound : (v + interval).total < (current.sec + 1) * 1000000 := by
        have n := (v + interval).normal
        have le := leIff.mp early
        unfold total
        omega
      exact ih (by omega) (by omega)

theorem skipPastRuns {interval : TimeValue} (forward : zero < interval) (current v : TimeValue) :
    ∃ w, skipPast current interval (turns current v) v = some w :=
  skipPastEnds forward (by unfold turns; omega) (Nat.succ_pos _)

end TimeValue

instance : Sub TimeValue := ⟨fun a b => .set (a.sec - b.sec) (a.usec - b.usec)⟩

end CuteNdk
