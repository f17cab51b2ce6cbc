import CuteNdk.TimerMixedRuns

/-! cancel(int) and reset_interval with their assertions compiled in: what they do
with an id, in any state of the queue. The two check an id against different
bounds, and cancel asserts what its own test after it answers with -1. -/
namespace CuteNdk.TimerUnknownId
open TimerQueue
open Lib (Always alwaysInvariant)
open TimerMixed (Op apply)

/- The general part of cancel: none also where one of the two assertions fails. -/
def cancelGeneralAsserted (q : TimerQueue) (id : Int) (dontCall : Bool) :
    Option (Int × Option Arg × TimerQueue) :=
  let slot := q.timerIds id
  if 0 ≤ slot then do
    let p ← q.heapAt slot.toNat
    if id = (q.nodes p).timerId then q.cancelGeneral id dontCall else none
  else none

def cancelAsserted (q : TimerQueue) (id : Int) (dontCall : Bool) :
    Option (Int × Option Arg × TimerQueue) :=
  if id < 0 ∨ q.timerIdsSize ≤ id then some (-1,none,q)
  else (q.findCrontab id (q.made + 1) q.crontabTimers).bind fun found =>
    found.elim (cancelGeneralAsserted q id dontCall) fun iter => q.cancelCrontab iter dontCall

def resetIntervalAsserted (q : TimerQueue) (id : Int) (interval : TimeValue) :
    Option (Int × TimerQueue) :=
  if id < 0 ∨ q.maxSize < id then some (-1,q) else
  if q.timerIdsSize ≤ id then none else -- timer_ids_[timer_id] is read past its end
  if q.timerIds id < 0 then some (-1,q) else do
    let p ← q.heapAt (q.timerIds id).toNat
    if id = (q.nodes p).timerId then some (0,q.setNode p { q.nodes p with interval := interval })
    else none

section Agree
variable {q : TimerQueue} {id : Int}

/- With no assertion violated the calls are those the other modules speak of. -/
theorem cancelAgrees {dontCall : Bool} {r : Int × Option Arg × TimerQueue}
    (runs : cancelAsserted q id dontCall = some r) : q.cancel id dontCall = some r := by
  unfold cancelAsserted at runs
  unfold cancel
  split at runs
  case isTrue out => rwa [if_pos out]
  case isFalse inside =>
    rw [if_neg inside]
    obtain ⟨found,search,runs⟩ := Option.bind_eq_some_iff.mp runs
    simp only [search,bind,Option.bind]
    cases found with
    | some iter => exact runs
    | none =>
      simp only [Option.elim,cancelGeneralAsserted] at runs
      split at runs <;> try contradiction
      obtain ⟨p,_,runs⟩ := Option.bind_eq_some_iff.mp runs
      split at runs <;> try contradiction
      exact runs

theorem resetIntervalAgrees {interval : TimeValue} {r : Int × TimerQueue}
    (runs : resetIntervalAsserted q id interval = some r) : q.resetInterval id interval = some r := by
  unfold resetIntervalAsserted at runs
  unfold resetInterval
  split at runs
  case isTrue out => rwa [if_pos out]
  case isFalse inside =>
    rw [if_neg inside]
    split at runs <;> try contradiction
    rename_i short
    rw [if_neg short]
    split at runs
    case isTrue gone => rwa [if_pos gone]
    case isFalse there =>
      rw [if_neg there]
      obtain ⟨p,at',runs⟩ := Option.bind_eq_some_iff.mp runs
      split at runs <;> try contradiction
      rename_i same
      simp only [at',bind,Option.bind]
      rwa [if_neg (not_not.mpr same)]

end Agree

/- An id that is nobody's: both calls say so and change nothing. -/
structure Ignored (q : TimerQueue) (id : Int) : Prop where
  cancel : ∀ dontCall, cancelAsserted q id dontCall = some (-1,none,q)
  resetInterval : ∀ interval, resetIntervalAsserted q id interval = some (-1,q)

/- Beyond the bounds both functions check, or negative. -/
def OutOfBounds (q : TimerQueue) (id : Int) : Prop :=
  id < 0 ∨ (q.timerIdsSize : Int) ≤ id ∧ q.maxSize < id

/- A general timer in the heap with the id. -/
def Registered (q : TimerQueue) (id : Int) (p : Ptr) : Prop :=
  q.ident p = id ∧ ∃ i < q.currSize, q.heapAt i = some p

/- Its interval is set and nothing else is. -/
def Resets (q : TimerQueue) (id : Int) : Prop :=
  ∃ p, Registered q id p ∧ ∀ interval,
    resetIntervalAsserted q id interval = some (0,q.setNode p { q.nodes p with interval := interval })

/- The id is within both bounds and the table knows the slot of the timer. -/
def Tabled (q : TimerQueue) (id : Int) : Prop :=
  0 ≤ id ∧ id ≤ q.maxSize ∧ id < q.timerIdsSize ∧ 0 ≤ q.timerIds id ∧
    ∃ p, Registered q id p ∧ q.heapAt (q.timerIds id).toNat = some p

section Calls
variable {q : TimerQueue} {id : Int}

/- Within the table cancel finds a timer or violates an assertion: it never says -1. -/
theorem cancelNever {dontCall : Bool} {r : Int × Option Arg × TimerQueue}
    (runs : cancelAsserted q id dontCall = some r) (code : r.1 = -1) :
    id < 0 ∨ (q.timerIdsSize : Int) ≤ id := by
  by_contra inside
  unfold cancelAsserted at runs
  rw [if_neg inside] at runs
  obtain ⟨found,_,runs⟩ := Option.bind_eq_some_iff.mp runs
  cases found with
  | some iter =>
    obtain ⟨q',_,same⟩ := Option.map_eq_some_iff.mp runs
    subst same
    cases code
  | none =>
    simp only [Option.elim,cancelGeneralAsserted] at runs
    split at runs <;> try contradiction
    rename_i entry
    obtain ⟨p,at',runs⟩ := Option.bind_eq_some_iff.mp runs
    split at runs <;> try contradiction
    rename_i same
    simp only [cancelGeneral,not_lt.mpr entry,if_false,at',bind,Option.bind,← same,ne_eq,
      not_true_eq_false] at runs
    split at runs <;> try contradiction
    cases Option.some.inj runs
    cases code

theorem ignoredIff : Ignored q id ↔ OutOfBounds q id := by
  constructor
  · intro ignored
    have short := cancelNever (ignored.cancel true) rfl
    by_contra inside
    unfold OutOfBounds at inside
    have reads := ignored.resetInterval .zero
    unfold resetIntervalAsserted at reads
    rw [if_neg (by omega),if_pos (by omega)] at reads
    exact Option.some_ne_none _ reads.symm
  · intro out
    unfold OutOfBounds at out
    exact ⟨fun _ => if_pos (by omega),fun _ => if_pos (by omega)⟩

/- Some interval is not the one a timer has. -/
theorem anotherInterval (v : TimeValue) : ∃ w, w ≠ v := by
  by_cases same : v = .zero
  · exact ⟨.set 1 0,by subst same; decide⟩
  · exact ⟨.zero,fun eq => same eq.symm⟩

theorem resetsIff : Resets q id ↔ Tabled q id := by
  constructor
  · rintro ⟨p,registered,resets⟩
    obtain ⟨w,other⟩ := anotherInterval (q.nodes p).interval
    have did := resets w
    unfold resetIntervalAsserted at did
    split at did
    · cases Option.some.inj did
    · rename_i inside
      split at did
      · exact absurd did.symm (Option.some_ne_none _)
      · rename_i short
        split at did
        · cases Option.some.inj did
        · rename_i entry
          obtain ⟨z,at',did⟩ := Option.bind_eq_some_iff.mp did
          split at did <;> try contradiction
          have nodes := congrArg (fun r : Int × TimerQueue => (r.2.nodes p).interval) (Option.some.inj did)
          have here : z = p := by
            by_contra apart
            simp only [setNode,Function.update_self,Function.update_of_ne (Ne.symm apart)] at nodes
            exact other nodes.symm
          subst here
          exact ⟨by omega,by omega,by omega,by omega,z,registered,at'⟩
  · rintro ⟨low,within,high,entry,p,registered,at'⟩
    refine ⟨p,registered,fun interval => ?_⟩
    have same : id = (q.nodes p).timerId := registered.1.symm
    unfold resetIntervalAsserted
    rw [if_neg (by omega),if_neg (by omega),if_neg (by omega)]
    simp only [at',bind,Option.bind]
    rw [if_pos same]

end Calls

/- In every state of every run: the two calls ignore an id exactly when both of their
bounds are passed, and reset_interval serves a registered one exactly when the table
knows it. -/
theorem unknownIds (maxSize : Int) (preAlloc : Nat) (ops : List Op) :
    Always apply (fun q => ∀ id, (Ignored q id ↔ OutOfBounds q id) ∧ (Resets q id ↔ Tabled q id))
      (make maxSize preAlloc) ops :=
  alwaysInvariant (fun _ _ _ _ _ _ => ⟨ignoredIff,resetsIff⟩) (fun _ => ⟨ignoredIff,resetsIff⟩) ops

/- Of four ids, 0 is registered, 1 was canceled and 7 lies past the table. -/
theorem canceledAsserts :
    ∃ q, Lib.run apply (make 9 4) [.schedule (some (.user 1)) 0 (.set 5 0) .zero,
        .schedule (some (.user 1)) 0 (.set 6 0) .zero,.cancel 1 true] = some q ∧
      (¬∃ p, Registered q 1 p) ∧ cancelAsserted q 1 true = none ∧
      (¬∃ p, Registered q 7 p) ∧ resetIntervalAsserted q 7 .zero = none := by
  refine ⟨_,rfl,?_,by decide,?_,by decide⟩
  · rintro ⟨p,ident,i,inside,at'⟩
    have first : i = 0 := Nat.lt_one_iff.mp inside
    subst first
    cases Option.some.inj at'
    revert ident
    decide
  · rintro ⟨p,ident,i,inside,at'⟩
    have first : i = 0 := Nat.lt_one_iff.mp inside
    subst first
    cases Option.some.inj at'
    revert ident
    decide

end CuteNdk.TimerUnknownId
