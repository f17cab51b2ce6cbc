import CuteNdk.TimerResetCrontab

/-! expire with what the handle_timeout of the dispatched timer's handler does to the
queue. The timer is back in the heap before the upcall and canceled after it by its id,
which may have gone to another timer by then. -/
namespace CuteNdk
open TimerQueue
open Lib (run)

/- body is what handle_timeout has the queue do, and ret what it returns. The queue's own
handle_timeout, in which the handlers of crontab timers do the same, returns 0. -/
def TimerQueue.upcallWith (q : TimerQueue) (eh : Option Handler) (arg : Arg) (current : TimeValue)
    (body : List TimerReset.Op) (ret : Int) : Option (Int × TimerQueue) :=
  match eh with
  | none => some (-1,q)
  | some h => (run TimerReset.apply (q.call (.timeout h arg current)) body).map (answer (some h) ret,·)

/- What expire does with the result of the upcall. -/
def TimerQueue.closeUpcall (q : TimerQueue) (node : TimerNode) (result : Int) : Option TimerQueue :=
  if result < 0 then q.closeDispatched node else some q

def TimerQueue.expireUpcall (q : TimerQueue) (current : TimeValue) (body : List TimerReset.Op) (ret : Int) :
    Option (Int × TimerQueue) :=
  if q.currSize = 0 then some (0,q) else do
    match ← q.dispatchTimer current with
    | (none,q) => some (0,q)
    | (some node,q) =>
      let (result,q) ← q.upcallWith node.handler node.arg current body ret
      (q.closeUpcall node result).map (1,·)

/- With a handler that leaves the queue alone it is expire. -/
theorem TimerQueue.expireAlone (q : TimerQueue) (current : TimeValue) (ret : Int) :
    q.expireUpcall current [] ret = q.expire current ret := by
  unfold expireUpcall expire
  split
  · rfl
  · cases q.dispatchTimer current with
    | none => rfl
    | some d =>
      obtain ⟨node,q₁⟩ := d
      cases node with
      | none => rfl
      | some node =>
        have told : q₁.upcallWith node.handler node.arg current [] ret =
            some (q₁.upcall node.handler node.arg current ret) := by
          unfold upcallWith upcall
          cases node.handler with
          | none => rfl
          | some h => cases h <;> rfl
        simp only [bind,Option.bind,told,closeUpcall]
        split <;> rfl

namespace TimerUpcall
open TimerMixed hiding Op apply
open TimerReset (Op apply entryOf)
open TimerIds (walk)
open Lib (Always alwaysAtEnd)
open Lib.BinaryHeap (contents)

/- A call of expire that dispatches a timer and returns: the copy of its node, the queue
as handle_timeout is entered, its result and the queue it leaves, and the queue at the
end. -/
structure Expiry (q : TimerQueue) (current : TimeValue) (body : List Op) (ret : Int) where
  node : TimerNode
  entered : TimerQueue
  result : Int
  left : TimerQueue
  back : TimerQueue
  some_ : q.currSize ≠ 0
  dispatched : q.dispatchTimer current = some (some node,entered)
  upcalled : entered.upcallWith node.handler node.arg current body ret = some (result,left)
  closed : left.closeUpcall node result = some back

def InHeap (q : TimerQueue) (z : Ptr) : Prop := z ∈ contents q.currSize q.slotNode
def Listed (q : TimerQueue) (z : Ptr) : Prop := ∃ n, z ∈ walk q n q.crontabTimers

/- A freed crontab timer a cancel has left linked has no entry. -/
def OnCrontab (q : TimerQueue) (z : Ptr) : Prop := Listed q z ∧ entryOf q z ≠ none

instance (q z) : Decidable (InHeap q z) := inferInstanceAs (Decidable (_ ∈ _))

/- The timer cancel takes. -/
def aimed (q : TimerQueue) (id : Int) : Option Ptr :=
  if id < 0 ∨ q.timerIdsSize ≤ id then none else
  match q.findCrontab id (q.made + 1) q.crontabTimers with
  | some (some z) => some z
  | _ => if q.timerIds id < 0 then none else (q.heapAt (q.timerIds id).toNat).filter fun z => q.ident z = id

variable {q q' : TimerQueue} {current : TimeValue} {body : List Op} {ret : Int}

/- The registration dispatched is there all through the upcall, so that no other one has
its node. -/
def Throughout (e : Expiry q current body ret) : Prop :=
  ∀ h, e.node.handler = some h →
    Always apply (InHeap · (q.slotNode 0)) (e.entered.call (.timeout h e.node.arg current)) body

/- Only the timer dispatched is canceled: the others are there as the handler is entered,
and those there when it returns are still there at the end. -/
structure Spares (e : Expiry q current body ret) : Prop where
  entered : ∀ z, InHeap q z → z ≠ q.slotNode 0 → InHeap e.entered z ∧ e.entered.nodes z = q.nodes z
  enteredCrontab : ∀ z, OnCrontab q z → OnCrontab e.entered z ∧ e.entered.nodes z = q.nodes z
  back : ∀ z, InHeap e.left z → (z = q.slotNode 0 → ¬Throughout e) →
    InHeap e.back z ∧ e.back.nodes z = e.left.nodes z
  backCrontab : ∀ z, OnCrontab e.left z → OnCrontab e.back z ∧ e.back.nodes z = e.left.nodes z

/- cancel is not called, or it finds no timer with the id, or the one dispatched. -/
def AimsWell (e : Expiry q current body ret) : Prop :=
  e.result < 0 → .zero < e.node.interval → ∀ z ∈ aimed e.left e.node.timerId, z = q.slotNode 0 ∧ Throughout e

def NoneFreed (q : TimerQueue) : Prop := ∀ z, Listed q z → entryOf q z ≠ none

section Registered
variable {heap free : List Ptr} {z p : Ptr}

theorem inHeapIff (h : Mixed q heap free) : InHeap q z ↔ z ∈ heap := h.loose.order.holds.mem_iff

theorem walkCron (h : Mixed q heap free) {n : Nat} {start : Option Ptr} (first : ∀ y ∈ start, Cron q y) :
    ∀ y ∈ walk q n start, Cron q y := by
  induction n generalizing start with
  | zero => exact fun y hy => absurd hy List.not_mem_nil
  | succ n ih =>
    cases start with
    | none => exact fun y hy => absurd hy List.not_mem_nil
    | some a =>
      have here := first a rfl
      intro y hy
      rcases List.mem_cons.1 hy with rfl | later
      · exact here
      · exact ih (h.links a here).1 y later

theorem walkBeside (h : Mixed q heap free) (beside : Beside q q') {n : Nat} {start : Option Ptr}
    (first : ∀ y ∈ start, Cron q y) : walk q' n start = walk q n start := by
  induction n generalizing start with
  | zero => rfl
  | succ n ih =>
    cases start with
    | none => rfl
    | some a =>
      have here := first a rfl
      simp only [walk,beside.nodes a here,ih (h.links a here).1]

theorem listedCron (h : Mixed q heap free) (listed : Listed q z) : Cron q z := by
  obtain ⟨n,hz⟩ := listed
  exact walkCron h h.first z hz

/- A call that has to do with general timers only leaves the crontab timers alone. -/
theorem onCrontabBeside (h : Mixed q heap free) (beside : Beside q q') (on : OnCrontab q z) :
    OnCrontab q' z ∧ q'.nodes z = q.nodes z := by
  have same := beside.nodes z (listedCron h on.1)
  obtain ⟨⟨n,hz⟩,entry⟩ := on
  refine ⟨⟨⟨n,?_⟩,?_⟩,same⟩
  · rw [beside.crontabTimers,walkBeside h beside h.first]
    exact hz
  · unfold entryOf
    rw [same]
    exact entry

theorem findListed {id : Int} {fuel : Nat} {start : Option Ptr} (finds : q.findCrontab id fuel start = some (some z)) :
    z ∈ walk q fuel start := by
  induction fuel generalizing start with
  | zero => cases finds
  | succ fuel ih =>
    cases start with
    | none => cases finds
    | some a =>
      simp only [findCrontab] at finds
      split at finds
      · cases Option.some.inj (Option.some.inj finds)
        exact List.mem_cons_self
      · exact List.mem_cons_of_mem a (ih finds)

theorem freedEntry (q : TimerQueue) (p : Ptr) : entryOf (q.freeNode p) p = none := by
  unfold freeNode recycle entryOf
  split <;> simp only [setNode,Function.update_self]

/- cancel takes the timer aimed at, and no other general one. -/
theorem cancelAims (h : Mixed q heap free) {id : Int} {dontCall : Bool} {r : Int × Option Arg × TimerQueue}
    (runs : q.cancel id dontCall = some r) :
    (aimed q id = none ∧ r.2.2 = q) ∨
    (∃ y ∈ heap, aimed q id = some y ∧ Mixed r.2.2 (heap.erase y) (y :: free) ∧ Beside q r.2.2 ∧
      ∀ x, x ≠ y → r.2.2.nodes x = q.nodes x) ∨
    ∃ y, aimed q id = some y ∧ Listed q y ∧ ¬OnCrontab r.2.2 y := by
  unfold cancel at runs
  unfold aimed
  split at runs
  · rename_i out
    rw [if_pos out]
    cases Option.some.inj runs
    exact .inl ⟨rfl,rfl⟩
  · rename_i range
    rw [if_neg range]
    obtain ⟨found,walks,runs⟩ := Option.bind_eq_some_iff.1 runs
    cases found with
    | none =>
      simp only [walks]
      rcases cancelGeneralTakes h runs with ⟨none_,same⟩ | ⟨y,mem,listed,at_,self,mixed,beside,others⟩
      · rw [if_pos none_]
        exact .inl ⟨rfl,same⟩
      · rw [if_neg (not_lt.2 listed),at_]
        refine .inr (.inl ⟨y,mem,?_,mixed,beside,others⟩)
        simp [Option.filter,self]
    | some y =>
      simp only [walks]
      refine .inr (.inr ⟨y,rfl,⟨_,findListed walks⟩,fun on => on.2 ?_⟩)
      unfold cancelCrontab at runs
      obtain ⟨q₁,_,same⟩ := Option.map_eq_some_iff.1 runs
      rw [← same]
      exact freedEntry q₁ y

end Registered

section Calls
variable {heap free : List Ptr}

/- The dispatch leaves the other timers alone, and a periodic timer back in the heap. -/
theorem dispatchSpares (h : Mixed q heap free) (some_ : q.currSize ≠ 0) {node : TimerNode}
    (dispatched : q.dispatchTimer current = some (some node,q')) :
    Kept q' ∧ node = q.nodes (q.slotNode 0) ∧
      (∀ z, InHeap q z → z ≠ q.slotNode 0 → InHeap q' z ∧ q'.nodes z = q.nodes z) ∧
      (∀ z, OnCrontab q z → OnCrontab q' z ∧ q'.nodes z = q.nodes z) ∧
      (.zero < node.interval → InHeap q' (q.slotNode 0)) := by
  have inside := Nat.pos_of_ne_zero some_
  have early : q.value (q.slotNode 0) ≤ current := by
    by_contra late
    cases (dispatchLate h inside late).symm.trans dispatched
  by_cases periodic : .zero < (q.nodes (q.slotNode 0)).interval
  · obtain ⟨v,q₁,runs,mixed,beside,nodes,_⟩ := dispatchBack h inside early periodic
    cases Option.some.inj (runs.symm.trans dispatched)
    refine ⟨⟨_,_,mixed⟩,rfl,fun z hz other => ⟨?_,?_⟩,fun z on => onCrontabBeside h beside on,fun _ => ?_⟩
    · rw [inHeapIff h] at hz
      rw [inHeapIff mixed]
      exact List.mem_append_left _ ((List.mem_erase_of_ne other).2 hz)
    · rw [nodes,Function.update_of_ne other]
    · rw [inHeapIff mixed]
      exact List.mem_append_right _ (List.mem_singleton.2 rfl)
  · obtain ⟨q₁,runs,mixed,beside,nodes⟩ := dispatchGone h inside early periodic
    cases Option.some.inj (runs.symm.trans dispatched)
    refine ⟨⟨_,_,mixed⟩,rfl,fun z hz other => ⟨?_,nodes z other⟩,fun z on => onCrontabBeside h beside on,
      fun yes => absurd yes periodic⟩
    rw [inHeapIff h] at hz
    rw [inHeapIff mixed]
    exact (List.mem_erase_of_ne other).2 hz

theorem callsKept (h : Kept q) (c : Call) : Kept (q.call c) := by
  obtain ⟨heap,free,h⟩ := h
  exact ⟨heap,free,mixedCalls h _⟩

/- A null handler is not called; any other one runs its body. -/
theorem upcallCases {eh : Option Handler} {arg : Arg} {result : Int}
    (told : q.upcallWith eh arg current body ret = some (result,q')) :
    (eh = none ∧ q' = q) ∨ ∃ h, eh = some h ∧ run apply (q.call (.timeout h arg current)) body = some q' := by
  unfold upcallWith at told
  split at told
  · cases Option.some.inj told
    exact .inl ⟨rfl,rfl⟩
  · rename_i h
    obtain ⟨q₁,runs,same⟩ := Option.map_eq_some_iff.1 told
    cases same
    exact .inr ⟨h,rfl,runs⟩

theorem leftKept (e : Expiry q current body ret) (h : Kept e.entered) : Kept e.left := by
  rcases upcallCases e.upcalled with ⟨_,same⟩ | ⟨eh,_,runs⟩
  · rw [same]
    exact h
  · exact TimerReset.runKept (callsKept h _) runs

/- All through the upcall means at its end too. -/
theorem throughoutEnds (e : Expiry q current body ret) (inHeap : InHeap e.entered (q.slotNode 0))
    (throughout : Throughout e) : InHeap e.left (q.slotNode 0) := by
  rcases upcallCases e.upcalled with ⟨_,same⟩ | ⟨eh,handler,runs⟩
  · rw [same]
    exact inHeap
  · exact @alwaysAtEnd _ _ apply (InHeap · (q.slotNode 0)) _ _ _ (throughout eh handler) runs

/- What closes the upcall is nothing, a handle_close or a cancel of the id dispatched. -/
theorem closeCases (e : Expiry q current body ret) :
    (e.result < 0 ∧ .zero < e.node.interval ∧ ∃ r, e.left.cancel e.node.timerId false = some r ∧ r.2.2 = e.back) ∨
    (¬(e.result < 0 ∧ .zero < e.node.interval) ∧ ∃ c, e.back = { e.left with calls := c }) := by
  have closed := e.closed
  unfold closeUpcall at closed
  split at closed
  · rename_i negative
    unfold closeDispatched at closed
    split at closed
    · rename_i periodic
      obtain ⟨r,cancelled,same⟩ := Option.map_eq_some_iff.1 closed
      exact .inl ⟨negative,periodic,r,cancelled,same⟩
    · rename_i once
      refine .inr ⟨fun both => once both.2,?_⟩
      split at closed
      · exact ⟨_,(Option.some.inj closed).symm⟩
      · cases closed
  · rename_i nonneg
    exact .inr ⟨fun both => nonneg both.1,e.left.calls,(Option.some.inj closed).symm⟩

theorem aimsSpares (h : Mixed q heap free) (e : Expiry q current body ret) (aims : AimsWell e) : Spares e := by
  obtain ⟨kept,isNode,others,crontabs,again⟩ := dispatchSpares h e.some_ e.dispatched
  obtain ⟨heap₂,free₂,h₂⟩ := leftKept e kept
  rcases closeCases e with ⟨negative,periodic,r,cancelled,same⟩ | ⟨_,c,same⟩
  · rcases cancelAims h₂ cancelled with ⟨_,unchanged⟩ | ⟨y,mem,aimed_,mixed,beside,nodes⟩ | ⟨y,aimed_,listed,_⟩
    · have stays : e.back = e.left := same.symm.trans unchanged
      refine ⟨others,crontabs,fun z hz _ => ?_,fun z on => ?_⟩ <;> rw [stays]
      · exact ⟨hz,rfl⟩
      · exact ⟨on,rfl⟩
    · obtain ⟨it,throughout⟩ := aims negative periodic y aimed_
      rw [same] at mixed beside nodes
      refine ⟨others,crontabs,fun z hz notIt => ?_,fun z on => onCrontabBeside h₂ beside on⟩
      have other : z ≠ y := fun eq => notIt (eq.trans it) throughout
      rw [inHeapIff h₂] at hz
      rw [inHeapIff mixed]
      exact ⟨(List.mem_erase_of_ne other).2 hz,nodes z other⟩
    · -- the timer dispatched is no crontab timer
      obtain ⟨it,throughout⟩ := aims negative periodic y aimed_
      have inHeap := throughoutEnds e (again periodic) throughout
      rw [inHeapIff h₂,← it] at inHeap
      exact absurd (listedCron h₂ listed) (generalNot (heapType h₂ inHeap))
  · refine ⟨others,crontabs,fun z hz _ => ?_,fun z on => ?_⟩ <;> rw [same]
    · exact ⟨hz,rfl⟩
    · exact onCrontabBeside h₂ (besideCalls e.left c) on

/- Whatever timer cancel takes is gone. -/
theorem sparesAims (h : Mixed q heap free) (e : Expiry q current body ret) (listed : NoneFreed e.left)
    (spares : Spares e) : AimsWell e := by
  intro negative periodic z aims
  obtain ⟨kept,_⟩ := dispatchSpares h e.some_ e.dispatched
  obtain ⟨heap₂,free₂,h₂⟩ := leftKept e kept
  rcases closeCases e with ⟨_,_,r,cancelled,same⟩ | ⟨not_,_⟩
  · rcases cancelAims h₂ cancelled with ⟨none_,_⟩ | ⟨y,mem,aimed_,mixed,_⟩ | ⟨y,aimed_,on,off⟩
    · rw [none_] at aims
      exact absurd aims (Option.not_mem_none z)
    · cases Option.some.inj (aimed_.symm.trans aims)
      rw [same] at mixed
      by_contra other
      have back := (spares.back z ((inHeapIff h₂).2 mem) fun it throughout => other ⟨it,throughout⟩).1
      rw [inHeapIff mixed] at back
      exact (List.nodup_append.1 h₂.loose.apart).1.not_mem_erase back
    · cases Option.some.inj (aimed_.symm.trans aims)
      rw [same] at off
      exact absurd (spares.backCrontab z ⟨on,listed z on⟩).1 off
  · exact absurd ⟨negative,periodic⟩ not_

/- A call that returns dispatches nothing and changes nothing, or is an expiry. -/
theorem expiryOf {n : Int} (returns : q.expireUpcall current body ret = some (n,q')) (kept : q.currSize ≠ 0 → Kept q) :
    (n = 0 ∧ q' = q) ∨ (n = 1 ∧ ∃ e : Expiry q current body ret, e.back = q') := by
  unfold expireUpcall at returns
  split at returns
  · cases Option.some.inj returns
    exact .inl ⟨rfl,rfl⟩
  · rename_i some_
    obtain ⟨⟨node,q₁⟩,dispatched,returns⟩ := Option.bind_eq_some_iff.1 returns
    cases node with
    | none =>
      obtain ⟨heap,free,h⟩ := kept some_
      have inside := Nat.pos_of_ne_zero some_
      have idle : q₁ = q := by
        by_cases early : q.value (q.slotNode 0) ≤ current
        · obtain ⟨q₂,runs,_⟩ := dispatchDue h inside early
          cases runs.symm.trans dispatched
        · cases (dispatchLate h inside early).symm.trans dispatched
          rfl
      cases Option.some.inj returns
      exact .inl ⟨rfl,idle⟩
    | some node =>
      obtain ⟨⟨result,q₂⟩,upcalled,returns⟩ := Option.bind_eq_some_iff.1 returns
      obtain ⟨q₃,closed,same⟩ := Option.map_eq_some_iff.1 returns
      cases same
      exact .inr ⟨rfl,⟨node,q₁,result,q₂,q',some_,dispatched,upcalled,closed⟩,rfl⟩

theorem reachedKept {maxSize : Int} {preAlloc : Nat} {ops : List Op}
    (reached : run apply (make maxSize preAlloc) ops = some q) (some_ : q.currSize ≠ 0) : Kept q := by
  by_cases two : 2 ≤ preAlloc
  · exact TimerReset.runKept (startKept maxSize two) reached
  · exact absurd (TimerReset.reachedEmpty two reached).size some_

end Calls

/- expire, whatever the handler it calls does: it cancels the timer dispatched and no
other one where the id it cancels by is not another timer's by then. -/
theorem expireSpares {maxSize : Int} {preAlloc : Nat} {ops : List Op}
    (reached : run apply (make maxSize preAlloc) ops = some q) {n : Int}
    (returns : q.expireUpcall current body ret = some (n,q')) : (n = 0 ∧ q' = q) ∨ (n = 1 ∧
      ∃ e : Expiry q current body ret, e.back = q' ∧ (AimsWell e → Spares e) ∧ (NoneFreed e.left → Spares e → AimsWell e)) := by
  have kept : q.currSize ≠ 0 → Kept q := reachedKept reached
  rcases expiryOf returns kept with idle | ⟨one,e,back⟩
  · exact .inl idle
  · obtain ⟨heap,free,h⟩ := kept e.some_
    exact .inr ⟨one,e,back,aimsSpares h e,sparesAims h e⟩

def fiveEverySecond (n : Nat) : Op := .other (.schedule (some (.user n)) 0 (.set 5 0) (.set 1 0))
def atNine (n : Nat) : Op := .other (.schedule (some (.user n)) 0 (.set 9 0) .zero)

/- A handler that schedules another timer and returns -1. -/
theorem secondTimerSpared : ∃ q q', run apply (make 9 4) [fiveEverySecond 1] = some q ∧
    q.expireUpcall (.set 5 0) [atNine 2] (-1) = some (1,q') ∧ (((1 : Int) = 0 ∧ q' = q) ∨ ((1 : Int) = 1 ∧
      ∃ e : Expiry q (.set 5 0) [atNine 2] (-1), e.back = q' ∧ (AimsWell e → Spares e) ∧
        (NoneFreed e.left → Spares e → AimsWell e))) := by
  have runs : ((run apply (make 9 4) [fiveEverySecond 1]).bind fun q =>
      (q.expireUpcall (.set 5 0) [atNine 2] (-1)).map Prod.fst) = some 1 := by decide +kernel
  obtain ⟨q,reached,expires⟩ := Option.bind_eq_some_iff.1 runs
  obtain ⟨⟨n,q'⟩,returns,one⟩ := Option.map_eq_some_iff.1 expires
  cases one
  exact ⟨q,q',reached,returns,expireSpares reached returns⟩

/- A handler that cancels its timer, schedules another one, which gets the id, and returns
-1: the new timer is canceled. -/
theorem newTimerCanceled : ∃ q q', run apply (make 9 4) [fiveEverySecond 1] = some q ∧
    q.expireUpcall (.set 5 0) [.other (.cancel 0 true),atNine 2] (-1) = some (1,q') ∧
      ∀ e : Expiry q (.set 5 0) [.other (.cancel 0 true),atNine 2] (-1), ¬Spares e := by
  have runs : ((run apply (make 9 4) [fiveEverySecond 1]).bind fun q =>
      (q.expireUpcall (.set 5 0) [.other (.cancel 0 true),atNine 2] (-1)).map fun r => (r.1,q.slotNode 0)) = some (1,0) := by
    decide +kernel
  have stages : ((run apply (make 9 4) [fiveEverySecond 1]).bind fun q => (q.dispatchTimer (.set 5 0)).bind fun d =>
      d.1.bind fun node =>
        (d.2.upcallWith node.handler node.arg (.set 5 0) [.other (.cancel 0 true),atNine 2] (-1)).bind fun u =>
        (u.2.closeUpcall node u.1).map fun b => (node.handler,decide (InHeap u.2 0),decide (InHeap b 0),
          decide (Always apply (InHeap · 0) (d.2.call (.timeout (.user 1) node.arg (.set 5 0)))
            [.other (.cancel 0 true),atNine 2]))) = some (some (.user 1),true,false,false) := by
    decide +kernel
  obtain ⟨q,reached,expires⟩ := Option.bind_eq_some_iff.1 runs
  obtain ⟨⟨n,q'⟩,returns,one⟩ := Option.map_eq_some_iff.1 expires
  simp only [Prod.mk.injEq] at one
  refine ⟨q,q',reached,one.1 ▸ returns,fun e spares => ?_⟩
  rw [reached,Option.bind_some,e.dispatched,Option.bind_some,Option.bind_some,e.upcalled,Option.bind_some,e.closed,
    Option.map_some] at stages
  simp only [Option.some.injEq,Prod.mk.injEq,decide_eq_true_eq,decide_eq_false_iff_not] at stages
  obtain ⟨handler,registered,gone,notThroughout⟩ := stages
  refine gone (spares.back 0 registered fun _ throughout => notThroughout ?_).1
  have all := throughout (.user 1) handler
  rw [one.2] at all
  exact all

end TimerUpcall
end CuteNdk
