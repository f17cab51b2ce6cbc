import CuteNdk.TimerLoose
import CuteNdk.TimerHeapRuns

/-! expire called over and over for one time. Whatever calls a queue of general
timers has come through, the due timers are dispatched once each in the order of
their deadlines, and an interval timer is back with the first deadline to come. -/
namespace CuteNdk.TimerDrain
open TimerQueue
open TimerHeap (deadlineAfter)
open Lib (Always run alwaysAtEnd)
open Lib.BinaryHeap (contents)

/- A handler's own calls on the queue come between a dispatch and the cancel its
return value may bring. -/
inductive Op where
  | schedule (eh : Handler) (arg : Arg) (deadline interval : TimeValue)
  | cancel (id : Int) (dontCall : Bool)
  | cancelHandler (eh : Option Handler) (dontCall : Bool)
  | resetInterval (id : Int) (interval : TimeValue)
  | expire (current : TimeValue) (ret : Int)
  | dispatch (current : TimeValue)
  deriving DecidableEq, Repr

/- A call that runs into undefined behaviour leads to no queue. -/
def apply (q : TimerQueue) : Op → Option TimerQueue
  | .schedule eh arg deadline interval => (q.scheduleI (some eh) arg deadline interval).map fun r => r.2
  | .cancel id dontCall => (q.cancel id dontCall).map fun r => r.2.2
  | .cancelHandler eh dontCall => (q.cancelHandler eh dontCall).map fun r => r.2
  | .resetInterval id interval => (q.resetInterval id interval).map fun r => r.2
  | .expire current ret => (q.expire current ret).map fun r => r.2
  | .dispatch current => if q.currSize = 0 then some q else (q.dispatchTimer current).map fun r => r.2

def timers (q : TimerQueue) : List Timer := (contents q.currSize q.slotNode).map q.timer

/- Calls of expire, at most that many, until one returns 0, with the timers they
dispatch. -/
def drain (current : TimeValue) : Nat → TimerQueue → Option (List Timer × TimerQueue)
  | 0, _ => none
  | calls + 1, q => do
    let (result,q') ← q.expire current 0
    if result = 0 then some ([],q') else
      let (dispatched,q'') ← drain current calls q'
      some ((q.due current).toList.map q.timer ++ dispatched,q'')

/- deadline + k * interval. -/
def advanced (interval : TimeValue) (k : Nat) (deadline : TimeValue) : TimeValue :=
  (fun v => v + interval)^[k] deadline

/- The first of those after a time, of k from 1 on. -/
def Next (current interval deadline v : TimeValue) : Prop :=
  ∃ k, 1 ≤ k ∧ v = advanced interval k deadline ∧ current < v ∧
    ∀ j, 1 ≤ j → current < advanced interval j deadline → k ≤ j

def isDue (current : TimeValue) (d : Timer) : Bool := decide (d.deadline ≤ current)

def isPeriodic (d : Timer) : Bool := decide (.zero < d.interval)

/- The handler calls of one dispatch. -/
def told (current : TimeValue) (d : Timer) : List Call := d.handler.toList.map fun h => .timeout h d.arg current

/- What draining a queue comes to. -/
def Drains (current : TimeValue) (q : TimerQueue) : Prop :=
  ∃ calls dispatched q', drain current calls q = some (dispatched,q') ∧
    q'.calls = q.calls ++ dispatched.flatMap (told current) ∧
    dispatched.Perm ((timers q).filter (isDue current)) ∧
    (dispatched.map Timer.deadline).Pairwise (fun a b => a ≤ b) ∧
    ∃ next : Timer → TimeValue,
      (∀ d ∈ timers q, isDue current d = true → isPeriodic d = true → Next current d.interval d.deadline (next d)) ∧
      (timers q').Perm ((timers q).filter (fun d => !isDue current d) ++
        ((timers q).filter fun d => isDue current d && isPeriodic d).map fun d => { d with deadline := next d })

/- What is left of a timer that is dispatched, and of any timer. -/
def back (current : TimeValue) (d : Timer) : List Timer :=
  if isPeriodic d then [{ d with deadline := deadlineAfter current d }] else []

def left (current : TimeValue) (d : Timer) : List Timer := if isDue current d then back current d else [d]

theorem skipPastNext {current interval : TimeValue} {fuel : Nat} {v w : TimeValue}
    (ends : TimeValue.skipPast current interval fuel v = some w) : Next current interval v w := by
  have first : ∃ k, 1 ≤ k ∧ w = advanced interval k v ∧ current < w ∧
      ∀ j, 1 ≤ j → j < k → advanced interval j v ≤ current := by
    induction fuel generalizing v with
    | zero => cases ends
    | succ fuel ih =>
      simp only [TimeValue.skipPast] at ends
      split at ends
      case isTrue early =>
        obtain ⟨k,some_,same,later,before⟩ := ih ends
        refine ⟨k + 1,by omega,same,later,fun j low high => ?_⟩
        obtain ⟨i,rfl⟩ : ∃ i, j = i + 1 := ⟨j - 1,by omega⟩
        rcases Nat.eq_zero_or_pos i with rfl | more
        · exact early
        · exact before i more (by omega)
      case isFalse late =>
        cases Option.some.inj ends
        exact ⟨1,Nat.le_refl 1,rfl,not_le.1 late,fun j low high => by omega⟩
  obtain ⟨k,some_,same,later,before⟩ := first
  refine ⟨k,some_,same,later,fun j low after => ?_⟩
  by_contra short
  exact absurd (before j low (by omega)) (not_le.2 after)

/- What every call keeps. -/
def Kept (q : TimerQueue) : Prop := ∃ heap free, Loose q heap free fun _ => False

section Calls
variable {q q' : TimerQueue} {heap free : List Ptr} {p : Ptr}

theorem looseStart (maxSize : Int) {preAlloc : Nat} (two : 2 ≤ preAlloc) : Kept (make maxSize preAlloc) := by
  have shape := makeShape maxSize preAlloc
  refine ⟨[],List.range' 0 preAlloc,⟨heapedOfSettled shape.heap,fun k _ nonneg => ?_,rfl,le_rfl,rfl,shape.free,
    List.nodup_range',fun p hp => ?_,nofun,nofun,two,Or.inl rfl,fun _ => Nat.zero_le _⟩⟩
  · exact absurd nonneg (by decide : ¬(0 : Int) ≤ -1)
  · have inside := (List.mem_range'_1.mp hp).2
    exact inside.trans_le (Nat.zero_add preAlloc).le

/- cancel's and free_node's end: the removed node's id is given back. -/
theorem removedFree {heap₁ : List Ptr} {q₁ : TimerQueue} (c : List Call)
    (h : Outside q₁ heap₁ free (fun k => k = q₁.ident p) p) (type : (q₁.nodes p).type = .general)
    (range : 0 ≤ q₁.ident p ∧ q₁.ident p < q₁.timerIdsSize) :
    Loose ({ q₁ with calls := c }.freeNode p) heap₁ (p :: free) fun _ => False := by
  have outside : Outside { q₁ with calls := c } heap₁ free (fun k => k = q₁.ident p) p :=
    ⟨looseCalls h.loose c,h.off,h.made⟩
  have freed := looseFree outside type fun _ => range
  exact looseMono freed fun k both => both.2 both.1

/- A node taken off the heap and freed. -/
theorem removeFree {slot : Nat} (h : Loose q heap free fun _ => False) (inside : slot < q.currSize) :
    ∃ q₁, q.remove slot = some (q.slotNode slot,q₁) ∧ q₁.nodes = q.nodes ∧ q₁.calls = q.calls ∧
      ∀ c, Loose ({ q₁ with calls := c }.freeNode (q.slotNode slot)) (heap.erase (q.slotNode slot))
        (q.slotNode slot :: free) fun _ => False := by
  obtain ⟨q₁,runs,outside,rest⟩ := looseRemove h inside
  have nodes : q₁.nodes = q.nodes := by rw [rest]; rfl
  have idents : q₁.ident = q.ident := by
    funext z
    simp only [ident,nodes]
  have mem := looseMem h inside
  refine ⟨q₁,runs,nodes,by rw [rest]; rfl,fun c => removedFree c ?_ ?_ ?_⟩
  · rw [idents]
    exact outside
  · rw [nodes]
    exact h.general _ mem
  · rw [idents,show q₁.timerIdsSize = q.timerIdsSize by rw [rest]; rfl]
    exact h.order.range _ mem

theorem cancelGeneralKeeps (h : Loose q heap free fun _ => False) {id : Int} {dontCall : Bool}
    {r : Int × Option Arg × TimerQueue} (runs : q.cancelGeneral id dontCall = some r) : Kept r.2.2 := by
  unfold cancelGeneral at runs
  simp only at runs
  split at runs
  case isTrue =>
    cases Option.some.inj runs
    exact ⟨heap,free,h⟩
  case isFalse listed =>
    obtain ⟨i,hi,at',same⟩ := h.points id not_false (not_lt.1 listed)
    rw [at'] at runs
    simp only [Int.toNat_natCast,h.order.filled i hi,bind,Option.bind] at runs
    split at runs
    case isTrue other => exact absurd same.symm other
    case isFalse =>
      obtain ⟨q₁,removed,nodes,_,frees⟩ := removeFree h hi
      simp only [removed] at runs
      obtain ⟨c,calls⟩ := toldCalls q₁ (q₁.nodes (q.slotNode i)).handler dontCall
      simp only [calls] at runs
      cases Option.some.inj runs
      exact ⟨_,_,frees c⟩

theorem cancelKeeps (h : Loose q heap free fun _ => False) {id : Int} {dontCall : Bool}
    {r : Int × Option Arg × TimerQueue} (runs : q.cancel id dontCall = some r) : Kept r.2.2 := by
  unfold cancel at runs
  split at runs
  · cases Option.some.inj runs
    exact ⟨heap,free,h⟩
  · simp only [h.crontab,findCrontab,bind,Option.bind] at runs
    exact cancelGeneralKeeps h runs

theorem cancelGeneralsKeeps {eh : Handler} {fuel i : Nat} {count : Int} (h : Loose q heap free fun _ => False)
    {r : Int × TimerQueue} (runs : cancelGenerals eh fuel q i count = some r) : Kept r.2 := by
  induction fuel generalizing q heap free i count with
  | zero => cases runs
  | succ fuel ih =>
    simp only [cancelGenerals] at runs
    split at runs
    case isFalse =>
      cases Option.some.inj runs
      exact ⟨heap,free,h⟩
    case isTrue inside =>
      simp only [h.order.filled i inside,bind,Option.bind] at runs
      split at runs
      case isFalse => exact ih h runs
      case isTrue =>
        obtain ⟨q₁,removed,_,_,frees⟩ := removeFree h inside
        simp only [removed] at runs
        exact ih (frees q₁.calls) runs

theorem cancelHandlerKeeps (h : Loose q heap free fun _ => False) {eh : Option Handler} {dontCall : Bool}
    {r : Int × TimerQueue} (runs : q.cancelHandler eh dontCall = some r) : Kept r.2 := by
  cases eh with
  | none =>
    cases Option.some.inj runs
    exact ⟨heap,free,h⟩
  | some eh =>
    simp only [cancelHandler,h.crontab,cancelCrontabs,bind,Option.bind] at runs
    cases generals : cancelGenerals eh (q.currSize * (q.currSize + 2) + 1) q 0 0 with
    | none =>
      rw [generals] at runs
      cases runs
    | some left =>
      rw [generals] at runs
      cases Option.some.inj runs
      obtain ⟨heap',free',h'⟩ := cancelGeneralsKeeps h generals
      cases dontCall with
      | true => exact ⟨heap',free',h'⟩
      | false => exact ⟨heap',free',looseCalls h' _⟩

theorem resetIntervalKeeps (h : Loose q heap free fun _ => False) {id : Int} {interval : TimeValue}
    {r : Int × TimerQueue} (runs : q.resetInterval id interval = some r) : Kept r.2 := by
  cases intervalReset runs with
  | refused => exact ⟨heap,free,h⟩
  | reset p listed filled =>
    refine ⟨heap,free,looseCongr h rfl h.low (fun z _ => ?_) ?_ h.apart h.made⟩
    · rw [intervalNodes]
    · refine (Lib.segCongr fun z _ => ?_).2 h.walk
      simp only [nextOf,intervalNodes]

theorem allocOutside (h : Loose q heap free fun _ => False) :
    ∃ p q₁ free', q.allocNode .general = (p,q₁) ∧ Outside q₁ heap free' (fun _ => False) p ∧
      (q₁.nodes p).type = .general ∧ q₁ = { q with
        nodes := q₁.nodes
        freeTimerNodes := q₁.freeTimerNodes
        made := q₁.made } := by
  unfold allocNode
  cases front : q.freeTimerNodes with
  | none =>
    have off : q.made ∉ heap ++ free := fun mem => Nat.lt_irrefl _ (h.made _ mem)
    refine ⟨_,_,free,rfl,⟨looseCongr h rfl h.low (fun z hz => ?_) ?_ h.apart fun z hz => ?_,off,Nat.lt_succ_self _⟩,
      by simp [setNode],rfl⟩
    · have other : z ≠ q.made := fun same => off (List.mem_append_left _ (same ▸ hz))
      simp [setNode,other]
    · have nodes : nodes { q.setNode q.made { newNode with type := .general } with made := q.made + 1 }
          = Function.update q.nodes q.made { newNode with type := .general } := rfl
      rw [nextOfUpdate nodes,Lib.segUpdate fun mem => off (List.mem_append_right _ mem)]
      exact h.walk
    · exact Nat.lt_succ_of_lt (h.made z hz)
  | some p =>
    obtain ⟨rest,split,walk⟩ := frontOf h.walk front
    have apart := h.apart
    rw [split] at apart
    have cut := List.perm_middle.nodup_iff.1 apart
    obtain ⟨off,apart'⟩ := List.nodup_cons.1 cut
    have made : ∀ z ∈ p :: (heap ++ rest), z < q.made := fun z hz =>
      h.made z (split ▸ List.perm_middle.symm.subset hz)
    refine ⟨p,_,rest,rfl,⟨looseCongr h rfl h.low (fun z hz => ?_) ?_ apart'
      fun z hz => made z (List.mem_cons_of_mem p hz),off,made p List.mem_cons_self⟩,by simp [setNode],rfl⟩
    · have other : z ≠ p := fun same => off (List.mem_append_left _ (same ▸ hz))
      simp [setNode,other]
    · have nodes : nodes { q.setNode p { q.nodes p with next := none, type := .general } with
            freeTimerNodes := (q.nodes p).next }
          = Function.update q.nodes p { q.nodes p with next := none, type := .general } := rfl
      rw [nextOfUpdate nodes,Lib.segUpdate fun mem => off (List.mem_append_right _ mem)]
      exact walk

theorem scheduleKeeps (h : Loose q heap free fun _ => False) {eh : Handler} {arg : Arg}
    {deadline interval : TimeValue} {r : Int × TimerQueue}
    (runs : q.scheduleI (some eh) arg deadline interval = some r) : Kept r.2 := by
  obtain ⟨p,q₁,free',alloc,outside,type,rest⟩ := allocOutside h
  have low := outside.loose.low
  unfold scheduleI at runs
  split at runs
  case isTrue =>
    cases Option.some.inj runs
    exact ⟨heap,free,h⟩
  case isFalse below =>
    simp only [alloc] at runs
    cases got : q₁.freeId with
    | none =>
      simp only [allocTimeridRefuses got] at runs
      cases Option.some.inj runs
      have freed := looseFree outside type fun is => is.elim
      exact ⟨heap,p :: free',looseMono freed fun k both => both.1⟩
    | some k =>
      obtain ⟨least,high,_,_⟩ := firstFreeSound got
      rw [allocTimeridGives got] at runs
      have given : k ≠ -1 := by omega
      obtain ⟨n,hn⟩ : ∃ n, n = { (q₁.nodes p) with
        timerId := k, handler := some eh, arg := arg, timerValue := deadline,
        interval := interval, prev := none, next := none, type := .general } := ⟨_,rfl⟩
      simp only [← hn] at runs
      have next : Outside { q₁ with minTimerId := q₁.minTimerId + 1 } heap free' (fun _ => False) p :=
        ⟨looseCongr outside.loose rfl (Int.le_add_one low) (fun _ _ => rfl) outside.loose.walk
          outside.loose.apart outside.loose.made,outside.off,outside.made⟩
      have set := outsideSetNode next n
      obtain ⟨q₂,def₂⟩ : ∃ q₂, q₂ = setNode { q₁ with minTimerId := q₁.minTimerId + 1 } p n := ⟨_,rfl⟩
      rw [← def₂] at set runs
      have nodeAt : q₂.nodes p = n := by
        rw [def₂]
        exact Function.update_self _ _ _
      have sizes : q₂.currSize = q.currSize ∧ q₂.maxSize = q.maxSize ∧ q₂.timerIdsSize = q₁.timerIdsSize := by
        rw [def₂]
        refine ⟨?_,?_,rfl⟩ <;> rw [rest] <;> rfl
      by_cases small : q₂.timerHeapSize ≤ q₂.currSize + 1 → q₂.currSize * 2 ≤ intMax
      · have self : q₂.ident p = k := by simp only [ident,nodeAt,hn]
        obtain ⟨q',inserted,loose,_,_⟩ := looseInsert set (by rw [nodeAt,hn])
          (by rw [nodeAt,hn]; exact Option.some_ne_none eh) (by rw [self]; omega) (by omega) small
        rw [inserted] at runs
        cases Option.some.inj runs
        exact ⟨_,_,looseMono loose fun _ both => both.1⟩
      · obtain ⟨full,tooMany⟩ := Classical.not_imp.1 small
        have stuck : q₂.insert p = none := by
          have type₂ : (q₂.nodes p).type = .general := by rw [nodeAt,hn]
          have noRoom : ¬(q₂.currSize * 2 ≤ intMax ∧ q₂.currSize ≤ q₂.grown.timerHeapSize) :=
            fun both => tooMany both.1
          have grows : q₂.growHeap = none := if_neg noRoom
          simp only [TimerQueue.insert,type₂,insertGeneral,makeRoom,if_pos full,grows,bind,Option.bind]
        rw [stuck] at runs
        cases runs

/- dispatch_timer on a queue that holds a timer: the earliest one is not due, or
it is off the heap, or it is back with its next deadline. -/
theorem dispatchIdle (h : Loose q heap free fun _ => False) (inside : 0 < q.currSize) {current : TimeValue}
    (late : ¬q.value (q.slotNode 0) ≤ current) : q.dispatchTimer current = some (none,q) := by
  have late : ¬(q.nodes (q.slotNode 0)).timerValue ≤ current := late
  simp only [dispatchTimer,h.order.filled 0 inside,if_neg late,bind,Option.bind]

theorem dispatchOnce (h : Loose q heap free fun _ => False) (inside : 0 < q.currSize) {current : TimeValue}
    (early : q.value (q.slotNode 0) ≤ current) (once : ¬.zero < (q.nodes (q.slotNode 0)).interval) :
    ∃ q', q.dispatchTimer current = some (some (q.nodes (q.slotNode 0)),q') ∧
      Loose q' (heap.erase (q.slotNode 0)) (q.slotNode 0 :: free) (fun _ => False) ∧
      (∀ z, z ≠ q.slotNode 0 → q'.nodes z = q.nodes z) ∧ q'.calls = q.calls := by
  have early : (q.nodes (q.slotNode 0)).timerValue ≤ current := early
  obtain ⟨q₁,runs,nodes,calls,frees⟩ := removeFree h inside
  refine ⟨q₁.freeNode (q.slotNode 0),?_,frees q₁.calls,fun z other => ?_,?_⟩
  · simp only [dispatchTimer,h.order.filled 0 inside,if_pos early,runs,rearm,nodes,if_neg once,bind,Option.bind]
  · rw [freeNodeNodes other,nodes]
  · rw [← calls]
    unfold freeNode
    rw [recycleRest]
    unfold releaseTimerid
    split <;> rfl

theorem dispatchPeriodic (h : Loose q heap free fun _ => False) (inside : 0 < q.currSize) {current : TimeValue}
    (early : q.value (q.slotNode 0) ≤ current) (periodic : .zero < (q.nodes (q.slotNode 0)).interval) :
    ∃ v q', TimeValue.skipPast current (q.nodes (q.slotNode 0)).interval
        (TimeValue.turns current (q.value (q.slotNode 0))) (q.value (q.slotNode 0)) = some v ∧
      q.dispatchTimer current = some (some (q.nodes (q.slotNode 0)),q') ∧
      Loose q' (heap.erase (q.slotNode 0) ++ [q.slotNode 0]) free (fun _ => False) ∧
      q'.nodes = Function.update q.nodes (q.slotNode 0) { q.nodes (q.slotNode 0) with timerValue := v } ∧
      q'.calls = q.calls := by
  have early : (q.nodes (q.slotNode 0)).timerValue ≤ current := early
  obtain ⟨q₁,runs,outside,rest⟩ := looseRemove h inside
  have nodes : q₁.nodes = q.nodes := by rw [rest]; rfl
  have mem := looseMem h inside
  have range := h.order.range _ mem
  obtain ⟨v,ends⟩ := TimeValue.skipPastRuns periodic current (q.value (q.slotNode 0))
  obtain ⟨q₂,def₂⟩ : ∃ q₂, q₂ = q₁.setNode (q.slotNode 0) { q.nodes (q.slotNode 0) with timerValue := v } := ⟨_,rfl⟩
  have set := outsideSetNode outside { q.nodes (q.slotNode 0) with timerValue := v }
  rw [← def₂] at set
  have nodes₂ : q₂.nodes
      = Function.update q.nodes (q.slotNode 0) { q.nodes (q.slotNode 0) with timerValue := v } := by
    rw [def₂,← nodes]
    rfl
  have nodeAt : q₂.nodes (q.slotNode 0) = { q.nodes (q.slotNode 0) with timerValue := v } := by
    rw [nodes₂,Function.update_self]
  have self : q₂.ident (q.slotNode 0) = q.ident (q.slotNode 0) := by simp only [ident,nodeAt]
  have sizes : q₂.currSize = q.currSize - 1 ∧ q₂.maxSize = q.maxSize ∧ q₂.timerIdsSize = q.timerIdsSize ∧
      q₂.timerHeapSize = q.timerHeapSize ∧ q₂.calls = q.calls := by
    rw [def₂,rest]
    exact ⟨rfl,rfl,rfl,rfl,rfl⟩
  have under := h.under
  have doubles := h.doubles
  have fits : q₂.timerHeapSize ≤ q₂.currSize + 1 → q₂.currSize * 2 ≤ intMax := by
    rw [sizes.1,sizes.2.2.2.1]
    intro full
    exact doubles (by omega)
  obtain ⟨q',inserted,loose,nodes',calls⟩ := looseInsert set (by rw [nodeAt]; exact h.general _ mem)
    (by rw [nodeAt]; exact h.driven _ mem) (by rw [self]; omega) (by omega) fits
  refine ⟨v,q',ends,?_,looseMono loose fun k both => both.2 (self ▸ both.1),nodes'.trans nodes₂,
    calls.trans sizes.2.2.2.2⟩
  have ends : TimeValue.skipPast current (q.nodes (q.slotNode 0)).interval
      (TimeValue.turns current (q.nodes (q.slotNode 0)).timerValue) (q.nodes (q.slotNode 0)).timerValue
        = some v := ends
  simp only [dispatchTimer,h.order.filled 0 inside,if_pos early,runs,rearm,nodes,if_pos periodic,ends,← def₂,
    inserted,bind,Option.bind]

theorem dispatchKeeps (h : Loose q heap free fun _ => False) (inside : 0 < q.currSize) {current : TimeValue}
    {r : Option TimerNode × TimerQueue} (runs : q.dispatchTimer current = some r) : Kept r.2 := by
  by_cases early : q.value (q.slotNode 0) ≤ current
  · by_cases periodic : .zero < (q.nodes (q.slotNode 0)).interval
    · obtain ⟨v,q',_,dispatched,loose,_⟩ := dispatchPeriodic h inside early periodic
      cases Option.some.inj (dispatched.symm.trans runs)
      exact ⟨_,_,loose⟩
    · obtain ⟨q',dispatched,loose,_⟩ := dispatchOnce h inside early periodic
      cases Option.some.inj (dispatched.symm.trans runs)
      exact ⟨_,_,loose⟩
  · cases Option.some.inj ((dispatchIdle h inside early).symm.trans runs)
    exact ⟨heap,free,h⟩

theorem expireKeeps (h : Loose q heap free fun _ => False) {current : TimeValue} {ret : Int}
    {r : Int × TimerQueue} (runs : q.expire current ret = some r) : Kept r.2 := by
  cases expires runs with
  | empty => exact ⟨heap,free,h⟩
  | late some_ dispatched => exact dispatchKeeps h (Nat.pos_of_ne_zero some_) dispatched
  | told some_ dispatched c =>
    obtain ⟨heap₁,free₁,h₁⟩ := dispatchKeeps h (Nat.pos_of_ne_zero some_) dispatched
    exact ⟨heap₁,free₁,looseCalls h₁ c⟩
  | cancelled some_ dispatched c _ _ cancelled =>
    obtain ⟨heap₁,free₁,h₁⟩ := dispatchKeeps h (Nat.pos_of_ne_zero some_) dispatched
    exact cancelKeeps (looseCalls h₁ c) cancelled

theorem applyKeeps (op : Op) (h : Kept q) (runs : apply q op = some q') : Kept q' := by
  obtain ⟨heap,free,h⟩ := h
  cases op with
  | schedule eh arg deadline interval =>
    obtain ⟨r,ran,rfl⟩ := Option.map_eq_some_iff.1 runs
    exact scheduleKeeps h ran
  | cancel id dontCall =>
    obtain ⟨r,ran,rfl⟩ := Option.map_eq_some_iff.1 runs
    exact cancelKeeps h ran
  | cancelHandler eh dontCall =>
    obtain ⟨r,ran,rfl⟩ := Option.map_eq_some_iff.1 runs
    exact cancelHandlerKeeps h ran
  | resetInterval id interval =>
    obtain ⟨r,ran,rfl⟩ := Option.map_eq_some_iff.1 runs
    exact resetIntervalKeeps h ran
  | expire current ret =>
    obtain ⟨r,ran,rfl⟩ := Option.map_eq_some_iff.1 runs
    exact expireKeeps h ran
  | dispatch current =>
    simp only [apply] at runs
    split at runs
    · cases Option.some.inj runs
      exact ⟨heap,free,h⟩
    · rename_i some_
      obtain ⟨r,ran,rfl⟩ := Option.map_eq_some_iff.1 runs
      exact dispatchKeeps h (Nat.pos_of_ne_zero some_) ran

theorem reachedKeeps {maxSize : Int} {preAlloc : Nat} (two : 2 ≤ preAlloc) {ops : List Op}
    (reached : run apply (make maxSize preAlloc) ops = some q) : Kept q := by
  have always : Always apply Kept (make maxSize preAlloc) ops :=
    Lib.alwaysInvariant (fun _ op _ h runs => applyKeeps op h runs) (looseStart maxSize two) ops
  exact alwaysAtEnd always reached

end Calls

section Drain
variable {q q' : TimerQueue} {heap free : List Ptr} {current : TimeValue}

theorem timersPerm {except : Int → Prop} (h : Loose q heap free except) : (timers q).Perm (heap.map q.timer) :=
  h.order.holds.map q.timer

/- The earliest timer is at the root. -/
theorem rootLeast {except : Int → Prop} (h : Loose q heap free except) {d : Timer} (mem : d ∈ timers q) :
    0 < q.currSize ∧ (q.timer (q.slotNode 0)).deadline ≤ d.deadline := by
  obtain ⟨p,hp,rfl⟩ := List.mem_map.1 mem
  obtain ⟨i,hi,rfl⟩ := Lib.BinaryHeap.memContents.1 hp
  exact ⟨Nat.zero_lt_of_lt hi,Lib.BinaryHeap.orderedRoot h.order.ordered hi⟩

theorem backLater (periodic : .zero < (d : Timer).interval) :
    Next current d.interval d.deadline (deadlineAfter current d) := by
  obtain ⟨v,ends⟩ := TimeValue.skipPastRuns periodic current d.deadline
  have same : deadlineAfter current d = v := by simp only [deadlineAfter,ends,Option.getD_some]
  exact same ▸ skipPastNext ends

theorem backNotDue (d : Timer) : ∀ e ∈ back current d, isDue current e = false := by
  intro e he
  unfold back at he
  split at he
  case isTrue periodic =>
    cases List.mem_singleton.1 he
    obtain ⟨_,_,_,later,_⟩ := @backLater current d (of_decide_eq_true periodic)
    exact decide_eq_false (not_le.2 later)
  case isFalse => cases he

theorem expireIdles (h : Loose q heap free fun _ => False) (none_ : (timers q).countP (isDue current) = 0) :
    q.expire current 0 = some (0,q) := by
  unfold expire
  split
  case isTrue => rfl
  case isFalse some_ =>
    have inside := Nat.pos_of_ne_zero some_
    have mem : q.timer (q.slotNode 0) ∈ timers q :=
      List.mem_map_of_mem (Lib.BinaryHeap.memContents.2 ⟨0,inside,rfl⟩)
    have late : ¬q.value (q.slotNode 0) ≤ current := fun early =>
      List.countP_eq_zero.1 none_ _ mem (decide_eq_true early)
    simp only [dispatchIdle h inside late,bind,Option.bind]

/- One call with the earliest timer due: its handler is told, and of the timer
there is what is left of it. -/
theorem expireFires (h : Loose q heap free fun _ => False) (inside : 0 < q.currSize)
    (early : q.value (q.slotNode 0) ≤ current) : ∃ q', q.expire current 0 = some (1,q') ∧ Kept q' ∧
      q'.calls = q.calls ++ told current (q.timer (q.slotNode 0)) ∧
      (timers q').Perm ((heap.erase (q.slotNode 0)).map q.timer ++ back current (q.timer (q.slotNode 0))) := by
  have mem := looseMem h inside
  have once := (List.nodup_append.1 h.apart).1
  obtain ⟨eh,driven⟩ := Option.ne_none_iff_exists'.1 (h.driven _ mem)
  obtain ⟨q₁,dispatched,⟨heap₁,free₁,h₁⟩,calls,left_⟩ : ∃ q₁,
      q.dispatchTimer current = some (some (q.nodes (q.slotNode 0)),q₁) ∧ Kept q₁ ∧ q₁.calls = q.calls ∧
      (timers q₁).Perm ((heap.erase (q.slotNode 0)).map q.timer ++ back current (q.timer (q.slotNode 0))) := by
    by_cases periodic : .zero < (q.nodes (q.slotNode 0)).interval
    · obtain ⟨v,q₁,ends,runs,loose,nodes,calls⟩ := dispatchPeriodic h inside early periodic
      refine ⟨q₁,runs,⟨_,_,loose⟩,calls,(timersPerm loose).trans ?_⟩
      have others : ∀ z ∈ heap.erase (q.slotNode 0), q₁.timer z = q.timer z := by
        intro z hz
        have other : z ≠ q.slotNode 0 := fun same => once.not_mem_erase (same ▸ hz)
        simp only [timer,ident,value,nodes,Function.update_of_ne other]
      have next : deadlineAfter current (q.timer (q.slotNode 0)) = v := by
        have ends' : TimeValue.skipPast current (q.timer (q.slotNode 0)).interval
          (TimeValue.turns current (q.timer (q.slotNode 0)).deadline) (q.timer (q.slotNode 0)).deadline = some v := ends
        simp only [deadlineAfter,ends',Option.getD_some]
      have self : [q₁.timer (q.slotNode 0)] = back current (q.timer (q.slotNode 0)) := by
        have yes : isPeriodic (q.timer (q.slotNode 0)) = true := decide_eq_true periodic
        rw [back,if_pos yes,next]
        simp only [timer,ident,value,nodes,Function.update_self]
      rw [List.map_append,List.map_singleton,self,List.map_congr_left others]
    · obtain ⟨q₁,runs,loose,nodes,calls⟩ := dispatchOnce h inside early periodic
      refine ⟨q₁,runs,⟨_,_,loose⟩,calls,(timersPerm loose).trans ?_⟩
      have others : ∀ z ∈ heap.erase (q.slotNode 0), q₁.timer z = q.timer z := by
        intro z hz
        have other : z ≠ q.slotNode 0 := fun same => once.not_mem_erase (same ▸ hz)
        simp only [timer,ident,value,nodes z other]
      have no : ¬isPeriodic (q.timer (q.slotNode 0)) = true := fun yes => periodic (of_decide_eq_true yes)
      rw [back,if_neg no,List.append_nil,List.map_congr_left others]
  have handled : (q.timer (q.slotNode 0)).handler = some eh := driven
  have upcalled : q₁.upcall (some eh) (q.nodes (q.slotNode 0)).arg current 0 =
      (0,{ q₁ with calls := q₁.calls ++ told current (q.timer (q.slotNode 0)) }) := by
    rw [told,handled]
    cases eh with
    | queue => rfl
    | user n => rfl
  refine ⟨{ q₁ with calls := q₁.calls ++ told current (q.timer (q.slotNode 0)) },?_,
    ⟨heap₁,free₁,looseCalls h₁ _⟩,by rw [calls],left_⟩
  unfold expire
  rw [if_neg (Nat.ne_of_gt inside)]
  simp only [dispatched,driven,upcalled,bind,Option.bind]
  rfl

theorem leftOver (l : List Timer) : (l.flatMap (left current)).Perm
    (l.filter (fun d => !isDue current d) ++
      (l.filter fun d => isDue current d && isPeriodic d).map fun d => { d with deadline := deadlineAfter current d }) := by
  induction l with
  | nil => exact List.Perm.refl _
  | cons d l ih =>
    rw [List.flatMap_cons]
    by_cases due : isDue current d = true
    · by_cases periodic : isPeriodic d = true
      · simp only [left,back,due,periodic,if_true,List.filter_cons,Bool.not_true,Bool.false_eq_true,if_false,
          Bool.and_self,List.map_cons]
        exact (ih.cons _).trans List.perm_middle.symm
      · simpa [left,back,due,periodic,List.filter_cons] using ih
    · simpa [left,due,List.filter_cons] using ih.cons d

/- The induction is on the number of timers that are due: a call of expire takes
one of them out for good, what comes back of it being later. -/
theorem drainRuns (n : Nat) (h : Kept q) (count : (timers q).countP (isDue current) = n) :
    ∃ dispatched q', drain current (n + 1) q = some (dispatched,q') ∧
      q'.calls = q.calls ++ dispatched.flatMap (told current) ∧
      dispatched.Perm ((timers q).filter (isDue current)) ∧
      (dispatched.map Timer.deadline).Pairwise (fun a b => a ≤ b) ∧
      (timers q').Perm ((timers q).flatMap (left current)) := by
  induction n generalizing q with
  | zero =>
    obtain ⟨heap,free,loose⟩ := h
    have none_ := List.countP_eq_zero.1 count
    have stay : (timers q).flatMap (left current) = timers q := by
      have each : ∀ d ∈ timers q, left current d = [d] := fun d hd => if_neg (none_ d hd)
      rw [List.flatMap_congr each,List.flatMap_singleton']
    refine ⟨[],q,?_,by simp,?_,List.Pairwise.nil,by rw [stay]⟩
    · simp only [drain,expireIdles loose count,if_true,bind,Option.bind]
    · rw [List.filter_eq_nil_iff.2 none_]
  | succ n ih =>
    obtain ⟨heap,free,loose⟩ := h
    obtain ⟨d,hd,due⟩ : ∃ d ∈ timers q, isDue current d = true := by
      by_contra no
      have none_ : (timers q).countP (isDue current) = 0 :=
        List.countP_eq_zero.2 fun d hd yes => no ⟨d,hd,yes⟩
      omega
    obtain ⟨inside,least⟩ := rootLeast loose hd
    have early : q.value (q.slotNode 0) ≤ current := least.trans (of_decide_eq_true due)
    have rootDue : isDue current (q.timer (q.slotNode 0)) = true := decide_eq_true early
    obtain ⟨q₁,runs,kept,calls,rest⟩ := expireFires loose inside early
    set root := q.timer (q.slotNode 0) with hroot
    set others := (heap.erase (q.slotNode 0)).map q.timer with hothers
    have split : (timers q).Perm (root :: others) :=
      (timersPerm loose).trans ((List.perm_cons_erase (looseMem loose inside)).map q.timer)
    have backNone : (back current root).filter (isDue current) = [] :=
      List.filter_eq_nil_iff.2 fun e he => by rw [backNotDue root e he]; decide
    have dueLeft : ((timers q₁).filter (isDue current)).Perm (others.filter (isDue current)) := by
      have cut := rest.filter (isDue current)
      rwa [List.filter_append,backNone,List.append_nil] at cut
    have count₁ : (timers q₁).countP (isDue current) = n := by
      have whole := split.countP_eq (isDue current)
      rw [List.countP_cons_of_pos rootDue,count] at whole
      rw [List.countP_eq_length_filter,dueLeft.length_eq,← List.countP_eq_length_filter]
      omega
    obtain ⟨dispatched,q',drained,told_,due_,sorted,left_⟩ := ih kept count₁
    have found : q.due current = some (q.slotNode 0) := by
      unfold TimerQueue.due
      rw [if_neg (Nat.ne_of_gt inside),loose.order.filled 0 inside]
      exact if_pos early
    refine ⟨root :: dispatched,q',?_,?_,?_,?_,?_⟩
    · have first : drain current (n + 1 + 1) q = (q.expire current 0).bind fun r =>
          if r.1 = 0 then some ([],r.2) else (drain current (n + 1) r.2).bind fun t =>
            some ((q.due current).toList.map q.timer ++ t.1,t.2) := rfl
      rw [first,runs,found]
      simp only [Option.bind_some,Int.one_ne_zero,if_false,drained]
      rfl
    · rw [told_,calls,List.flatMap_cons,List.append_assoc]
    · have whole := split.filter (isDue current)
      rw [List.filter_cons_of_pos rootDue] at whole
      exact ((due_.trans dueLeft).cons root).trans whole.symm
    · rw [List.map_cons,List.pairwise_cons]
      refine ⟨fun v hv => ?_,sorted⟩
      obtain ⟨e,he,rfl⟩ := List.mem_map.1 hv
      have inOthers := List.mem_of_mem_filter ((due_.trans dueLeft).subset he)
      exact (rootLeast loose (split.symm.subset (List.mem_cons_of_mem root inOthers))).2
    · have once : left current root = back current root := if_pos rootDue
      have stay : (back current root).flatMap (left current) = back current root := by
        have each : ∀ e ∈ back current root, left current e = [e] := fun e he =>
          if_neg (by rw [backNotDue root e he]; decide)
        rw [List.flatMap_congr each,List.flatMap_singleton']
      have before := split.flatMap_right (left current)
      rw [List.flatMap_cons,once] at before
      have after := rest.flatMap_right (left current)
      rw [List.flatMap_append,stay] at after
      exact left_.trans (after.trans (List.perm_append_comm.trans before.symm))

end Drain

/- For every queue the calls so far have led to, and every time. -/
theorem drainsWhenReached {maxSize : Int} {preAlloc : Nat} (two : 2 ≤ preAlloc) {ops : List Op}
    {q : TimerQueue} (reached : run apply (make maxSize preAlloc) ops = some q) (current : TimeValue) :
    Drains current q := by
  obtain ⟨dispatched,q',runs,calls,due,sorted,left_⟩ := drainRuns _ (reachedKeeps two reached) rfl
  refine ⟨_,dispatched,q',runs,calls,due,sorted,deadlineAfter current,fun d _ _ periodic => ?_,
    left_.trans (leftOver _)⟩
  exact backLater (of_decide_eq_true periodic)

/- Three timers in arrays of two: an interval timer loses its id on the way. -/
theorem twoSlotsDrain : ∃ q, run apply (make 9 2) [.schedule (.user 1) 0 (.set 5 0) (.set 2 0),
      .schedule (.user 2) 0 (.set 1 0) (.set 1 0),.expire (.set 1 0) 0,
      .schedule (.user 3) 7 (.set 3 0) .zero] = some q ∧ Drains (.set 6 0) q := by
  obtain ⟨q,reached⟩ := Option.isSome_iff_exists.1
    (show (run apply (make 9 2) [.schedule (.user 1) 0 (.set 5 0) (.set 2 0),
      .schedule (.user 2) 0 (.set 1 0) (.set 1 0),.expire (.set 1 0) 0,
      .schedule (.user 3) 7 (.set 3 0) .zero]).isSome = true by decide +kernel)
  exact ⟨q,reached,drainsWhenReached (by decide) reached (.set 6 0)⟩

end CuteNdk.TimerDrain
