import CuteNdk.TimeValue

/-! The loops of time_value::normalize as they run, on pairs of any signs, and how
far the operators that compare the pairs agree with the durations they stand for. -/
namespace CuteNdk

structure Timeval where
  sec : Int
  usec : Int
  deriving DecidableEq, Repr

namespace Timeval

/- do { ++tv_sec; tv_usec -= 1000000; } while (tv_usec >= 1000000); -/
def carryUp (t : Timeval) : Timeval :=
  if 1000000 ≤ t.usec - 1000000 then carryUp ⟨t.sec + 1,t.usec - 1000000⟩
  else ⟨t.sec + 1,t.usec - 1000000⟩
termination_by t.usec.toNat

/- do { --tv_sec; tv_usec += 1000000; } while (tv_usec <= -1000000); -/
def carryDown (t : Timeval) : Timeval :=
  if t.usec + 1000000 ≤ -1000000 then carryDown ⟨t.sec - 1,t.usec + 1000000⟩
  else ⟨t.sec - 1,t.usec + 1000000⟩
termination_by (-t.usec).toNat

def carry (t : Timeval) : Timeval :=
  if 1000000 ≤ t.usec then carryUp t
  else if t.usec ≤ -1000000 then carryDown t
  else t

def borrow (t : Timeval) : Timeval :=
  if 1 ≤ t.sec ∧ t.usec < 0 then ⟨t.sec - 1,t.usec + 1000000⟩ else t

def normalize (t : Timeval) : Timeval := borrow (carry t)

def set (sec usec : Int) : Timeval := normalize ⟨sec,usec⟩

/- operator += and -= on two values, and on a value and a time_t: the latter two
leave the microseconds alone and do not normalize. -/
def add (a b : Timeval) : Timeval := normalize ⟨a.sec + b.sec,a.usec + b.usec⟩
def sub (a b : Timeval) : Timeval := normalize ⟨a.sec - b.sec,a.usec - b.usec⟩
def addSec (a : Timeval) (tv : Int) : Timeval := {a with sec := a.sec + tv}
def subSec (a : Timeval) (tv : Int) : Timeval := {a with sec := a.sec - tv}

def lt (a b : Timeval) : Bool :=
  if a.sec < b.sec then true
  else if a.sec = b.sec ∧ a.usec < b.usec then true
  else false

def gt (a b : Timeval) : Bool := lt b a

def le (a b : Timeval) : Bool :=
  if a.sec < b.sec then true
  else if a.sec = b.sec ∧ a.usec ≤ b.usec then true
  else false

def ge (a b : Timeval) : Bool := le b a

def eq (a b : Timeval) : Bool := a.sec = b.sec ∧ a.usec = b.usec

theorem ltIff {a b : Timeval} :
    lt a b = true ↔ a.sec < b.sec ∨ a.sec = b.sec ∧ a.usec < b.usec := by
  unfold lt
  split_ifs <;> simp_all

theorem leIff {a b : Timeval} :
    le a b = true ↔ a.sec < b.sec ∨ a.sec = b.sec ∧ a.usec ≤ b.usec := by
  unfold le
  split_ifs <;> simp_all

theorem eqIff {a b : Timeval} : eq a b = true ↔ a.sec = b.sec ∧ a.usec = b.usec := by
  simp [eq]

/- The duration a pair stands for, in microseconds. -/
def total (t : Timeval) : Int := t.sec * 1000000 + t.usec

theorem carryUpTotal (t : Timeval) : (carryUp t).total = t.total := by
  fun_induction carryUp t with
  | case1 t more ih =>
    rw [ih]
    simp only [total]
    omega
  | case2 t done =>
    simp only [total]
    omega

theorem carryDownTotal (t : Timeval) : (carryDown t).total = t.total := by
  fun_induction carryDown t with
  | case1 t more ih =>
    rw [ih]
    simp only [total]
    omega
  | case2 t done =>
    simp only [total]
    omega

theorem carryTotal (t : Timeval) : (carry t).total = t.total := by
  unfold carry
  split_ifs
  · exact carryUpTotal t
  · exact carryDownTotal t
  · rfl

theorem borrowTotal (t : Timeval) : (borrow t).total = t.total := by
  unfold borrow
  split_ifs
  · simp only [total]
    omega
  · rfl

theorem normalizeTotal (t : Timeval) : (normalize t).total = t.total :=
  (borrowTotal _).trans (carryTotal t)

theorem totalSet (sec usec : Int) : (set sec usec).total = sec * 1000000 + usec :=
  normalizeTotal _

theorem totalAdd (a b : Timeval) : (a.add b).total = a.total + b.total := by
  have kept := normalizeTotal ⟨a.sec + b.sec,a.usec + b.usec⟩
  change (normalize _).total = _
  rw [kept]
  simp only [total]
  omega

theorem totalSub (a b : Timeval) : (a.sub b).total = a.total - b.total := by
  have kept := normalizeTotal ⟨a.sec - b.sec,a.usec - b.usec⟩
  change (normalize _).total = _
  rw [kept]
  simp only [total]
  omega

theorem totalAddSec (a : Timeval) (tv : Int) : (a.addSec tv).total = a.total + tv * 1000000 := by
  simp only [addSec,total]
  omega

theorem totalSubSec (a : Timeval) (tv : Int) : (a.subSec tv).total = a.total - tv * 1000000 := by
  simp only [subSec,total]
  omega

/- Less than a second of microseconds, of either sign: what every value keeps. -/
def Short (t : Timeval) : Prop := -1000000 < t.usec ∧ t.usec < 1000000

theorem carryUpShort {t : Timeval} (long : 1000000 ≤ t.usec) : Short (carryUp t) := by
  fun_induction carryUp t with
  | case1 t more ih => exact ih more
  | case2 t done => exact ⟨by simp only; omega,by simp only; omega⟩

theorem carryDownShort {t : Timeval} (long : t.usec ≤ -1000000) : Short (carryDown t) := by
  fun_induction carryDown t with
  | case1 t more ih => exact ih more
  | case2 t done => exact ⟨by simp only; omega,by simp only; omega⟩

theorem carryShort (t : Timeval) : Short (carry t) := by
  unfold carry
  split_ifs with up down
  · exact carryUpShort up
  · exact carryDownShort down
  · exact ⟨by omega,by omega⟩

theorem borrowShort {t : Timeval} (short : Short t) : Short (borrow t) := by
  unfold borrow
  split_ifs with negative
  · simp only [Short] at *
    omega
  · exact short

theorem normalizeShort (t : Timeval) : Short (normalize t) := borrowShort (carryShort t)

/- The values a program can come by: set, and the four compound assignments. -/
inductive Built : Timeval → Prop where
  | set (sec usec : Int) : Built (set sec usec)
  | add {a b} (left : Built a) (right : Built b) : Built (a.add b)
  | sub {a b} (left : Built a) (right : Built b) : Built (a.sub b)
  | addSec {a} (left : Built a) (tv : Int) : Built (a.addSec tv)
  | subSec {a} (left : Built a) (tv : Int) : Built (a.subSec tv)

theorem builtShort {t : Timeval} (built : Built t) : Short t := by
  induction built with
  | set sec usec => exact normalizeShort _
  | add left right ihl ihr => exact normalizeShort _
  | sub left right ihl ihr => exact normalizeShort _
  | addSec left tv ih => exact ih
  | subSec left tv ih => exact ih

theorem shortUnique {a b : Timeval} (total : a.total = b.total) (sa : Short a) (sb : Short b)
    (sign : 0 ≤ a.usec ∧ 0 ≤ b.usec ∨ a.usec ≤ 0 ∧ b.usec ≤ 0) : a = b := by
  obtain ⟨sec,usec⟩ := a
  obtain ⟨sec',usec'⟩ := b
  simp only [Short,Timeval.total] at *
  have same : sec = sec' := by omega
  subst same
  have same : usec = usec' := by omega
  rw [same]

theorem carryUpSign {t : Timeval} (long : 1000000 ≤ t.usec) : 0 ≤ (carryUp t).usec := by
  fun_induction carryUp t with
  | case1 t more ih => exact ih more
  | case2 t done =>
    simp only
    omega

theorem carryDownSign {t : Timeval} (long : t.usec ≤ -1000000) : (carryDown t).usec ≤ 0 := by
  fun_induction carryDown t with
  | case1 t more ih => exact ih more
  | case2 t done =>
    simp only
    omega

theorem carryCloses (sec usec : Int) :
    carry ⟨sec,usec⟩ = ⟨(TimeValue.carry sec usec).1,(TimeValue.carry sec usec).2⟩ := by
  have total := carryTotal ⟨sec,usec⟩
  have short := carryShort ⟨sec,usec⟩
  unfold carry TimeValue.carry at *
  split_ifs at * with up down
  · have sign := carryUpSign (t := ⟨sec,usec⟩) up
    refine shortUnique (total.trans ?_) short ?_ (.inl ⟨sign,?_⟩) <;>
      simp only [Timeval.total,Short] <;> omega
  · have sign := carryDownSign (t := ⟨sec,usec⟩) down
    refine shortUnique (total.trans ?_) short ?_ (.inr ⟨sign,?_⟩) <;>
      simp only [Timeval.total,Short] <;> omega
  · rfl

/- What the loops leave is what TimeValue.set computes in closed form. -/
theorem setCloses (sec usec : Int) :
    set sec usec = ⟨(TimeValue.set sec usec).sec,(TimeValue.set sec usec).usec⟩ := by
  unfold set normalize
  rw [carryCloses]
  unfold borrow TimeValue.set TimeValue.borrow
  simp only
  split_ifs <;> rfl

/- The one arrangement the comparison of seconds gets wrong: a later second with the
microseconds of a whole second or more before the other's. Only opposite signs allow it. -/
def Crossed (a b : Timeval) : Prop := a.sec = b.sec + 1 ∧ 1000000 ≤ b.usec - a.usec

instance (a b : Timeval) : Decidable (Crossed a b) := by unfold Crossed; infer_instance

/- Equal totals are the same pair, and the operators compare as the totals do. -/
structure Ordered (a b : Timeval) : Prop where
  unique : a.total = b.total → a = b
  lt : lt a b = true ↔ a.total < b.total
  le : le a b = true ↔ a.total ≤ b.total
  gt : gt a b = true ↔ b.total < a.total
  ge : ge a b = true ↔ b.total ≤ a.total
  eq : eq a b = true ↔ a.total = b.total

theorem crossedBreaks {a b : Timeval} (crossed : Crossed a b) : lt b a = true ∧ a.total ≤ b.total := by
  obtain ⟨sec,usec⟩ := crossed
  refine ⟨ltIff.mpr (.inl (by omega)),?_⟩
  simp only [total]
  omega

/- Away from it, the difference of the seconds and that of the totals agree in sign. -/
theorem signAgrees {a b : Timeval} (sa : Short a) (sb : Short b) (ab : ¬Crossed a b)
    (ba : ¬Crossed b a) :
    (a.sec < b.sec → a.total < b.total) ∧ (b.sec < a.sec → b.total < a.total) := by
  simp only [Short,Crossed,total] at *
  omega

theorem uncrossedOrdered {a b : Timeval} (sa : Short a) (sb : Short b) (ab : ¬Crossed a b)
    (ba : ¬Crossed b a) : Ordered a b := by
  obtain ⟨less,more⟩ := signAgrees sa sb ab ba
  have level : a.sec = b.sec → a.total - b.total = a.usec - b.usec := by
    intro same
    simp only [total,same]
    omega
  obtain ⟨sec,usec⟩ := a
  obtain ⟨sec',usec'⟩ := b
  simp only at less more level
  constructor
  · intro same
    have : sec = sec' := by omega
    have : usec = usec' := by omega
    simp_all
  · rw [ltIff]
    simp only
    omega
  · rw [leIff]
    simp only
    omega
  · unfold Timeval.gt
    rw [ltIff]
    simp only
    omega
  · unfold Timeval.ge
    rw [leIff]
    simp only
    omega
  · rw [eqIff]
    simp only
    omega

/- Sums and differences are exact, and the pair of values is ordered by its totals. -/
structure Canonical (a b : Timeval) : Prop where
  set : ∀ sec usec, (set sec usec).total = sec * 1000000 + usec
  add : (a.add b).total = a.total + b.total
  sub : (a.sub b).total = a.total - b.total
  addSec : ∀ tv, (a.addSec tv).total = a.total + tv * 1000000
  subSec : ∀ tv, (a.subSec tv).total = a.total - tv * 1000000
  ordered : Ordered a b

theorem canonicalIffUncrossed {a b : Timeval} (left : Built a) (right : Built b) :
    Canonical a b ↔ ¬Crossed a b ∧ ¬Crossed b a := by
  constructor
  · intro canonical
    constructor
    · intro crossed
      obtain ⟨later,early⟩ := crossedBreaks crossed
      have := canonical.ordered.gt.mp later
      omega
    · intro crossed
      obtain ⟨later,early⟩ := crossedBreaks crossed
      have := canonical.ordered.lt.mp later
      omega
  · intro uncrossed
    exact ⟨totalSet,totalAdd a b,totalSub a b,totalAddSec a,totalSubSec a,
      uncrossedOrdered (builtShort left) (builtShort right) uncrossed.1 uncrossed.2⟩

theorem halfSecondCanonical :
    Built (set 0 (-500000)) ∧ Built (set 3 2500000) ∧
      Canonical (set 0 (-500000)) (set 3 2500000) := by
  have uncrossed : ¬Crossed (set 0 (-500000)) (set 3 2500000) ∧
      ¬Crossed (set 3 2500000) (set 0 (-500000)) := by
    rw [setCloses,setCloses]
    decide
  exact ⟨.set _ _,.set _ _,(canonicalIffUncrossed (.set _ _) (.set _ _)).mpr uncrossed⟩

/- Half a second before zero, as the difference 0 s - 500000 us and as -1 s + 500000 us. -/
theorem halfSecondTwice :
    ¬∀ a b, Built a → Built b → Canonical a b := by
  intro all
  have canonical := all _ _ (.sub (.set 0 0) (.set 0 500000)) (.set (-1) 500000)
  have same := canonical.ordered.unique (by rw [totalSub,totalSet,totalSet,totalSet]; decide)
  revert same
  decide

end Timeval
end CuteNdk
