import CuteNdk.TimerUpcall

/-! handle_events_i of unix_reactor with timers: how long it waits for descriptors, and
when it goes on to dispatch a timer that is due. A call is followed up to the upcall of
a handler and from there on, so that nothing is said here of what handlers do. -/
namespace CuteNdk
open TimerQueue

/- curTime is what gettimeofday gives; the result of none inside is the null pointer. -/
def TimerQueue.calculateTimeout (q : TimerQueue) (maxWaitTime : Option TimeValue) (curTime : TimeValue) :
    Option (Option TimeValue) :=
  if q.currSize = 0 then some maxWaitTime else do
    let earliest ← q.heapAt 0
    if curTime < (q.nodes earliest).timerValue then
      let theTimeout := (q.nodes earliest).timerValue - curTime
      match maxWaitTime with
      | none => some (some theTimeout)
      | some maxWaitTime => some (some (if theTimeout < maxWaitTime then theTimeout else maxWaitTime))
    else some (some .zero)

namespace ReactorTimers
open TimerMixed hiding Op apply
open Lib (run)

inductive Kind where | select | epoll | kqueue deriving DecidableEq, Repr

/- pevents counts the events epoll_wait or kevent has reported and nobody has dispatched
yet. -/
structure UnixReactor where
  kind : Kind
  timerQueue : TimerQueue
  activeFds : Int
  pevents : Nat

/- One round of waiting: the time calculate_timeout reads, what select, epoll_wait or
kevent returns, and whether errno is EINTR. -/
structure Polled where
  curTime : TimeValue
  nfds : Int
  eintr : Bool
  deriving DecidableEq, Repr

/- Where a call of handle_events_i has got to: the upcall of a timer's handler, those of
descriptors' handlers, or its end. -/
inductive Stage where
  | upcall (node : TimerNode)
  | ioEvents
  | returned (result : Int)
  deriving DecidableEq, Repr

namespace UnixReactor

def pollEvents (r : UnixReactor) (p : Polled) : Int × UnixReactor :=
  if r.kind = .select then (p.nfds,r)
  else if 0 < r.pevents then (1,r)
  else (p.nfds,if 0 < p.nfds then { r with pevents := p.nfds.toNat } else r)

def pollEventsI (r : UnixReactor) (maxWaitTime : Option TimeValue) (p : Polled) : Option (Int × UnixReactor) := do
  let thisTimeout ← r.timerQueue.calculateTimeout maxWaitTime p.curTime
  let timersPending := thisTimeout ≠ none ∧ maxWaitTime = none ∨
    thisTimeout ≠ none ∧ maxWaitTime ≠ none ∧ thisTimeout ≠ maxWaitTime
  let (nfds,r) := r.pollEvents p
  some (if nfds = 0 ∧ timersPending then 1 else nfds,{ r with activeFds := nfds })

/- With nothing ready there is nobody to call. -/
def dispatchIoEvents (r : UnixReactor) : Stage :=
  if r.kind = .select then if r.activeFds < 1 then .returned 0 else .ioEvents
  else if r.pevents = 0 then .returned 0 else .ioEvents

/- dispatch_timer_handler is expire, up to the upcall. -/
def dispatchEvents (r : UnixReactor) (current : TimeValue) : Option (Stage × UnixReactor) :=
  if r.timerQueue.currSize = 0 then some (r.dispatchIoEvents,r) else do
    match ← r.timerQueue.dispatchTimer current with
    | (none,q) => some ({ r with timerQueue := q }.dispatchIoEvents,{ r with timerQueue := q })
    | (some node,q) => some (.upcall node,{ r with timerQueue := q })

/- The rest of it, once the handler of node has returned result. -/
def afterUpcall (r : UnixReactor) (node : TimerNode) (result : Int) : Option (Stage × UnixReactor) := do
  let q ← r.timerQueue.closeUpcall node result
  some ({ r with timerQueue := q }.dispatchIoEvents,{ r with timerQueue := q })

/- The rounds are those until the call gets on; without one it is still waiting. -/
def handleEventsI (maxWaitTime : Option TimeValue) (current : TimeValue) :
    List Polled → UnixReactor → Option (Stage × UnixReactor)
  | [], _ => none
  | p :: polls, r => do
    let (result,r) ← r.pollEventsI maxWaitTime p
    if result = -1 ∧ p.eintr then handleEventsI maxWaitTime current polls r
    else if 0 < result then r.dispatchEvents current
    else some (.returned result,r)

end UnixReactor

open UnixReactor

/- The timer on top of the heap goes to its handler, and after that nobody else is
called. -/
def Dispatches (r : UnixReactor) (maxWaitTime : Option TimeValue) (polls : List Polled) (current : TimeValue) : Prop :=
  ∃ node r', r.handleEventsI maxWaitTime current polls = some (.upcall node,r') ∧
    node = r.timerQueue.nodes (r.timerQueue.slotNode 0) ∧ node.timerValue ≤ current ∧
    r.timerQueue.dispatchTimer current = some (some node,r'.timerQueue) ∧
    ∀ q result s r'', { r' with timerQueue := q }.afterUpcall node result = some (s,r'') → s = .returned 0

/- No event is left to dispatch. -/
def Idle (r : UnixReactor) : Prop := r.kind = .select ∨ r.pevents = 0

section Waiting
variable {q : TimerQueue} {r : UnixReactor} {heap free : List Ptr} {maxWaitTime : Option TimeValue} {current : TimeValue}

theorem timeoutDue (h : Mixed q heap free) (some_ : q.currSize ≠ 0) (early : q.value (q.slotNode 0) ≤ current) :
    q.calculateTimeout maxWaitTime current = some (some .zero) := by
  have filled : q.heapAt 0 = some (q.slotNode 0) := h.loose.order.filled 0 (Nat.pos_of_ne_zero some_)
  have notLate : ¬current < (q.nodes (q.slotNode 0)).timerValue := not_lt.2 early
  unfold calculateTimeout
  simp only [if_neg some_,filled,if_neg notLate,bind,Option.bind]

theorem pollEventsIdle (idle : Idle r) {p : Polled} (none_ : p.nfds ≤ 0) : r.pollEvents p = (p.nfds,r) := by
  unfold pollEvents
  rcases idle with select | empty
  · rw [if_pos select]
  · rw [empty,if_neg (Nat.lt_irrefl 0),if_neg (not_lt.2 none_),ite_self]

/- With a due timer the timeout is zero, which the wait time asked for may be too. -/
theorem pollDue (h : Mixed r.timerQueue heap free) (some_ : r.timerQueue.currSize ≠ 0) (idle : Idle r) {p : Polled}
    (early : r.timerQueue.value (r.timerQueue.slotNode 0) ≤ p.curTime) (none_ : p.nfds ≤ 0) :
    r.pollEventsI maxWaitTime p = some (if p.nfds = 0 ∧ maxWaitTime ≠ some .zero then 1 else p.nfds,
      { r with activeFds := p.nfds }) := by
  have pending : (some TimeValue.zero ≠ none ∧ maxWaitTime = none ∨
      some TimeValue.zero ≠ none ∧ maxWaitTime ≠ none ∧ some TimeValue.zero ≠ maxWaitTime)
      ↔ maxWaitTime ≠ some .zero := by
    cases maxWaitTime with
    | none => simp
    | some w => simp [eq_comm]
  unfold pollEventsI
  simp only [timeoutDue h some_ early,pollEventsIdle idle none_,bind,Option.bind,pending]

/- Interrupted rounds change nothing, so that the last one decides. -/
theorem handleDue {before : List Polled} {last : Polled} (h : Mixed r.timerQueue heap free)
    (some_ : r.timerQueue.currSize ≠ 0) (idle : Idle r) (interrupted : ∀ p ∈ before, p.nfds = -1 ∧ p.eintr = true)
    (quiet : last.nfds = 0)
    (early : ∀ p ∈ before ++ [last], r.timerQueue.value (r.timerQueue.slotNode 0) ≤ p.curTime) :
    r.handleEventsI maxWaitTime current (before ++ [last]) =
      if maxWaitTime ≠ some .zero then { r with activeFds := 0 }.dispatchEvents current
      else some (.returned 0,{ r with activeFds := 0 }) := by
  induction before generalizing r with
  | nil =>
    have polled : r.pollEventsI maxWaitTime last = _ := pollDue h some_ idle (early last List.mem_cons_self) quiet.le
    rw [quiet] at polled
    simp only [List.nil_append,handleEventsI,polled,bind,Option.bind,true_and]
    by_cases wait : maxWaitTime ≠ some .zero
    · simp only [if_pos wait]
      rfl
    · simp only [if_neg wait]
      rfl
  | cons p before ih =>
    obtain ⟨failed,eintr⟩ := interrupted p List.mem_cons_self
    have polled : r.pollEventsI maxWaitTime p = _ := pollDue h some_ idle (early p List.mem_cons_self) (by omega)
    have negative : ¬((-1 : Int) = 0 ∧ maxWaitTime ≠ some .zero) := fun both => absurd both.1 (by decide)
    rw [failed,if_neg negative] at polled
    have next := ih (r := { r with activeFds := -1 }) h some_ idle (fun p hp => interrupted p (List.mem_cons_of_mem _ hp))
      fun p hp => early p (List.mem_cons_of_mem _ hp)
    simp only [List.cons_append,handleEventsI,polled,bind,Option.bind,eintr,and_self,if_true]
    exact next

/- With no event to dispatch the call is at its end. -/
theorem ioNothing (idle : Idle r) (none_ : r.activeFds < 1) : r.dispatchIoEvents = .returned 0 := by
  unfold dispatchIoEvents
  rcases idle with select | empty
  · rw [if_pos select,if_pos none_]
  · rw [if_pos empty,if_pos none_,ite_self]

theorem dispatchesKept (kept : Kept r.timerQueue) (some_ : r.timerQueue.currSize ≠ 0) (idle : Idle r)
    {before : List Polled} {last : Polled} (interrupted : ∀ p ∈ before, p.nfds = -1 ∧ p.eintr = true)
    (quiet : last.nfds = 0)
    (early : ∀ p ∈ before ++ [last], r.timerQueue.value (r.timerQueue.slotNode 0) ≤ p.curTime)
    (due : r.timerQueue.value (r.timerQueue.slotNode 0) ≤ current) :
    Dispatches r maxWaitTime (before ++ [last]) current ↔ maxWaitTime ≠ some .zero := by
  obtain ⟨heap,free,h⟩ := kept
  have handled : r.handleEventsI maxWaitTime current (before ++ [last]) = _ :=
    handleDue h some_ idle interrupted quiet early
  by_cases wait : maxWaitTime ≠ some .zero
  · refine iff_of_true ?_ wait
    obtain ⟨q,dispatched,_⟩ := dispatchDue h (Nat.pos_of_ne_zero some_) due
    rw [if_pos wait] at handled
    refine ⟨_,{ r with activeFds := 0, timerQueue := q },?_,rfl,due,dispatched,fun q' result s r'' after => ?_⟩
    · rw [handled]
      unfold dispatchEvents
      simp only [if_neg some_,dispatched,bind,Option.bind]
    · obtain ⟨q'',_,same⟩ := Option.bind_eq_some_iff.1 after
      cases Option.some.inj same
      exact ioNothing idle Int.zero_lt_one
  · refine iff_of_false ?_ wait
    rw [if_neg wait] at handled
    rintro ⟨_,_,dispatches,_⟩
    rw [handled] at dispatches
    cases dispatches

theorem ioNoUpcall (r : UnixReactor) (node : TimerNode) : r.dispatchIoEvents ≠ .upcall node := by
  unfold dispatchIoEvents
  split <;> split <;> exact Stage.noConfusion

/- From the upcall on the call does what expire does. -/
theorem upcallIsExpire {node : TimerNode} {r' : UnixReactor} (at_ : r.dispatchEvents current = some (.upcall node,r'))
    (body : List TimerReset.Op) (ret : Int) : r.timerQueue.expireUpcall current body ret =
      (r'.timerQueue.upcallWith node.handler node.arg current body ret).bind fun u =>
        (u.2.closeUpcall node u.1).map (1,·) := by
  unfold dispatchEvents at at_
  unfold expireUpcall
  split at at_
  · exact absurd (Prod.mk.inj (Option.some.inj at_)).1 (ioNoUpcall _ node)
  · rename_i some_
    rw [if_neg some_]
    obtain ⟨⟨taken,q'⟩,dispatched,at_⟩ := Option.bind_eq_some_iff.1 at_
    cases taken with
    | none => exact absurd (Prod.mk.inj (Option.some.inj at_)).1 (ioNoUpcall _ node)
    | some node' =>
      obtain ⟨stage,same⟩ := Prod.mk.inj (Option.some.inj at_)
      cases stage
      rw [← same,dispatched]
      rfl

end Waiting

/- A call in which no descriptor gets ready dispatches the timer that is due unless it was
asked not to wait. -/
theorem dispatchesIff {maxSize : Int} {preAlloc : Nat} {ops : List TimerReset.Op} {r : UnixReactor}
    (reached : run TimerReset.apply (make maxSize preAlloc) ops = some r.timerQueue)
    (some_ : r.timerQueue.currSize ≠ 0) (idle : Idle r) {before : List Polled} {last : Polled} {current : TimeValue}
    (interrupted : ∀ p ∈ before, p.nfds = -1 ∧ p.eintr = true) (quiet : last.nfds = 0)
    (early : ∀ t ∈ (before ++ [last]).map Polled.curTime ++ [current],
      r.timerQueue.value (r.timerQueue.slotNode 0) ≤ t) (maxWaitTime : Option TimeValue) :
    Dispatches r maxWaitTime (before ++ [last]) current ↔ maxWaitTime ≠ some .zero := by
  have kept : Kept r.timerQueue := TimerUpcall.reachedKept reached some_
  refine dispatchesKept kept some_ idle interrupted quiet (fun p hp => ?_) ?_
  · exact early p.curTime (List.mem_append_left _ (List.mem_map_of_mem hp))
  · exact early current (List.mem_append_right _ (List.mem_singleton.2 rfl))

/- One round interrupted, then none ready, with ten seconds to wait. -/
theorem tenSecondsDispatch : ∃ q, run TimerReset.apply (make 9 4) [TimerUpcall.fiveEverySecond 1] = some q ∧
    (Dispatches ⟨.epoll,q,0,0⟩ (some (.set 10 0)) ([⟨.set 5 0,-1,true⟩] ++ [⟨.set 6 0,0,false⟩]) (.set 6 0)
      ↔ some (TimeValue.set 10 0) ≠ some .zero) := by
  have runs : (run TimerReset.apply (make 9 4) [TimerUpcall.fiveEverySecond 1]).map (fun q =>
      (q.currSize,q.value (q.slotNode 0))) = some (1,.set 5 0) := by decide +kernel
  obtain ⟨q,reached,same⟩ := Option.map_eq_some_iff.1 runs
  simp only [Prod.mk.injEq] at same
  refine ⟨q,reached,dispatchesIff (r := ⟨.epoll,q,0,0⟩) reached (by rw [same.1]; decide) (.inr rfl) (by decide) rfl ?_ _⟩
  change ∀ t ∈ _, q.value (q.slotNode 0) ≤ t
  rw [same.2]
  decide

/- With a wait time of zero the timer is left, though it is due. -/
theorem zeroWaitStarves : ∃ q, run TimerReset.apply (make 9 4) [TimerUpcall.fiveEverySecond 1] = some q ∧
    q.value (q.slotNode 0) = .set 5 0 ∧
    ¬Dispatches ⟨.epoll,q,0,0⟩ (some .zero) [⟨.set 6 0,0,false⟩] (.set 6 0) := by
  have runs : (run TimerReset.apply (make 9 4) [TimerUpcall.fiveEverySecond 1]).map (fun q =>
      (q.value (q.slotNode 0),(UnixReactor.handleEventsI (some .zero) (.set 6 0) [⟨.set 6 0,0,false⟩] ⟨.epoll,q,0,0⟩).map
        Prod.fst)) = some (.set 5 0,some (.returned 0)) := by decide +kernel
  obtain ⟨q,reached,same⟩ := Option.map_eq_some_iff.1 runs
  simp only [Prod.mk.injEq] at same
  refine ⟨q,reached,same.1,?_⟩
  rintro ⟨node,r',dispatches,_⟩
  have returns := same.2
  rw [show UnixReactor.handleEventsI (some .zero) (.set 6 0) [⟨.set 6 0,0,false⟩] ⟨.epoll,q,0,0⟩ = some (.upcall node,r')
    from dispatches] at returns
  cases returns

end ReactorTimers
end CuteNdk
