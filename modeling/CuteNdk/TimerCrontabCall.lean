import CuteNdk.TimerCancelCrontab

/-! crontab() on a queue whose reactor uses it, which has the queue itself scheduled
first as the driver of the crontab timers: when it registers the timer or leaves
no trace. -/
namespace CuteNdk.TimerMixed
open TimerQueue
open TimerIds (crontabList)
open TimerDrain (timers)
open Lib (run Along Always alwaysInvariant alwaysAtEnd)
open Lib.BinaryHeap (contents parent)

/- An entry of timer_ids_ is a slot of the heap or -1. -/
def Tabled (q : TimerQueue) : Prop := ∀ k, -1 ≤ q.timerIds k

section Table
variable {q q' : TimerQueue} {p : Ptr}

theorem tabledSame (h : Tabled q) (same : q'.timerIds = q.timerIds) : Tabled q' := fun k => by
  rw [same]
  exact h k

theorem tabledUpdate {ids : Int → Int} (h : ∀ k, -1 ≤ ids k) {id entry : Int} (least : -1 ≤ entry) :
    ∀ k, -1 ≤ Function.update ids id entry k := fun k => by
  by_cases here : k = id
  · rw [here,Function.update_self]
    exact least
  · rw [Function.update_of_ne here]
    exact h k

theorem tabledCopy (h : Tabled q) {slot : Nat} {moved : Ptr} (runs : q.copy slot moved = some q') : Tabled q' := by
  unfold copy at runs
  split at runs
  · cases Option.some.inj runs
    exact tabledUpdate h (by omega)
  · cases runs

theorem tabledUp {moved : Ptr} {fuel slot up : Nat} (h : Tabled q) (runs : reheapUp moved fuel q slot up = some q') :
    Tabled q' := by
  induction fuel generalizing q slot up with
  | zero => exact tabledCopy h runs
  | succ fuel ih =>
    simp only [reheapUp] at runs
    split at runs
    · obtain ⟨above,_,runs⟩ := Option.bind_eq_some_iff.1 runs
      split at runs
      · obtain ⟨q₁,copied,runs⟩ := Option.bind_eq_some_iff.1 runs
        exact ih (tabledCopy h copied) runs
      · exact tabledCopy h runs
    · exact tabledCopy h runs

theorem tabledDown {moved : Ptr} {fuel slot child : Nat} (h : Tabled q)
    (runs : reheapDown moved fuel q slot child = some q') : Tabled q' := by
  induction fuel generalizing q slot child with
  | zero => cases runs
  | succ fuel ih =>
    simp only [reheapDown] at runs
    split at runs
    · obtain ⟨smaller,_,runs⟩ := Option.bind_eq_some_iff.1 runs
      obtain ⟨below,_,runs⟩ := Option.bind_eq_some_iff.1 runs
      split at runs
      · obtain ⟨q₁,copied,runs⟩ := Option.bind_eq_some_iff.1 runs
        exact ih (tabledCopy h copied) runs
      · exact tabledCopy h runs
    · exact tabledCopy h runs

theorem tabledRemove (h : Tabled q) {slot : Nat} {r : Ptr × TimerQueue} (runs : q.remove slot = some r) : Tabled r.2 := by
  obtain ⟨removed,_,runs⟩ := Option.bind_eq_some_iff.1 runs
  simp only at runs
  split at runs
  · obtain ⟨q₁,refilled,runs⟩ := Option.bind_eq_some_iff.1 runs
    cases Option.some.inj runs
    obtain ⟨moved,_,refilled⟩ := Option.bind_eq_some_iff.1 refilled
    obtain ⟨q₂,copied,refilled⟩ := Option.bind_eq_some_iff.1 refilled
    obtain ⟨above,_,refilled⟩ := Option.bind_eq_some_iff.1 refilled
    have h₂ : Tabled q₂ := tabledCopy (q := { q with currSize := q.currSize - 1 }) h copied
    split at refilled
    · exact tabledDown h₂ refilled
    · exact tabledUp h₂ refilled
  · cases Option.some.inj runs
    exact h

theorem tabledInsert (h : Tabled q) (runs : q.insert p = some q') : Tabled q' := by
  unfold TimerQueue.insert at runs
  split at runs
  · obtain ⟨q₁,made,runs⟩ := Option.bind_eq_some_iff.1 runs
    obtain ⟨q₂,placed,runs⟩ := Option.bind_eq_some_iff.1 runs
    cases Option.some.inj runs
    refine tabledSame (tabledUp (q := q₁) (fun k => ?_) placed) rfl
    unfold makeRoom growHeap at made
    split at made
    · simp only at made
      split at made
      · cases Option.some.inj made
        simp only
        split
        · exact h k
        · exact le_rfl
      · cases made
    · cases Option.some.inj made
      exact h k
  · cases Option.some.inj runs
    refine tabledSame h ?_
    rw [(insertCrontabRest q p).1]

theorem tabledFree (h : Tabled q) (p : Ptr) : Tabled (q.freeNode p) := by
  unfold Tabled
  rw [freeIds]
  unfold releaseTimerid
  split
  · exact tabledUpdate h le_rfl
  · exact h

theorem allocIds (q : TimerQueue) (type : TimerType) : (q.allocNode type).2.timerIds = q.timerIds := by
  unfold allocNode
  cases type <;> dsimp only <;> split <;> rfl

theorem tabledAllocId (h : Tabled q) : Tabled q.allocTimerid.2 := by
  unfold allocTimerid
  split <;> exact h

theorem tabledSchedule (h : Tabled q) {eh : Option Handler} {arg : Arg} {deadline interval : TimeValue}
    {r : Int × TimerQueue} (runs : q.scheduleI eh arg deadline interval = some r) : Tabled r.2 := by
  unfold scheduleI at runs
  split at runs
  · cases Option.some.inj runs
    exact h
  · have alloc : Tabled (q.allocNode .general).2 := tabledSame h (allocIds q .general)
    have given := tabledAllocId alloc
    simp only at runs
    split at runs
    · rename_i q₂ eq
      rw [eq] at given
      cases Option.some.inj runs
      exact tabledFree given _
    · rename_i k q₂ _ eq
      rw [eq] at given
      have table : Tabled q₂ := given
      obtain ⟨q',inserted,rfl⟩ := Option.map_eq_some_iff.1 runs
      refine tabledInsert ?_ inserted
      exact table

theorem tabledRegister (h : Tabled q) {eh : Handler} {arg : Arg} {entry : Entry} {now : TimeValue}
    {r : Int × TimerQueue} (runs : q.registerCrontab eh arg entry now = some r) : Tabled r.2 := by
  have alloc : Tabled (q.allocNode .crontab).2 := tabledSame h (allocIds q .crontab)
  have given := tabledAllocId alloc
  unfold registerCrontab at runs
  simp only at runs
  split at runs
  · rename_i q₂ eq
    rw [eq] at given
    cases Option.some.inj runs
    exact tabledFree given _
  · rename_i k q₂ _ eq
    rw [eq] at given
    have table : Tabled q₂ := given
    split at runs
    · obtain ⟨q',inserted,rfl⟩ := Option.map_eq_some_iff.1 runs
      refine tabledInsert ?_ inserted
      exact table
    · rw [← Option.some.inj runs]
      refine tabledFree ?_ _
      exact table

theorem tabledCrontab (h : Tabled q) {eh : Option Handler} {arg : Arg} {entry : Entry} {now : TimeValue} {sec : Int}
    {r : Int × TimerQueue} (runs : q.crontab eh arg entry now sec = some r) : Tabled r.2 := by
  rcases crontabCases runs with rfl | ⟨h',result,q₁,_,started,ends⟩
  · exact h
  · have h₁ : Tabled q₁ := by
      unfold startDriver at started
      split at started
      · exact tabledSchedule (r := (result,q₁)) h started
      · cases Option.some.inj started
        exact h
    rcases ends with rfl | registers
    · exact h₁
    · exact tabledRegister h₁ registers

theorem unlinkIds (runs : q.unlinkCrontab p = some q') : q'.timerIds = q.timerIds := by
  unfold unlinkCrontab at runs
  split at runs
  · cases Option.some.inj runs
    rfl
  · simp only at runs
    split at runs
    case h_3 => cases runs
    all_goals
      cases Option.some.inj runs
      rfl

theorem tabledCancel (h : Tabled q) {id : Int} {dontCall : Bool} {r : Int × Option Arg × TimerQueue}
    (runs : q.cancel id dontCall = some r) : Tabled r.2.2 := by
  have closed : ∀ q₁ : TimerQueue, Tabled q₁ → ∀ eh, Tabled (if dontCall then q₁ else q₁.handleClose eh) := by
    intro q₁ h₁ eh
    split
    · exact h₁
    · obtain ⟨c,called⟩ := closeCalls q₁ eh
      rw [called]
      exact h₁
  unfold cancel at runs
  split at runs
  · cases Option.some.inj runs
    exact h
  · obtain ⟨found,_,runs⟩ := Option.bind_eq_some_iff.1 runs
    split at runs
    · obtain ⟨q₁,unlinks,rfl⟩ := Option.map_eq_some_iff.1 runs
      exact tabledFree (tabledSame (closed q h _) (unlinkIds unlinks)) _
    · unfold cancelGeneral at runs
      simp only at runs
      split at runs
      · cases Option.some.inj runs
        exact h
      · obtain ⟨p,_,runs⟩ := Option.bind_eq_some_iff.1 runs
        split at runs
        · cases Option.some.inj runs
          exact h
        · obtain ⟨r',removed,runs⟩ := Option.bind_eq_some_iff.1 runs
          cases Option.some.inj runs
          exact tabledFree (closed _ (tabledRemove h removed) _) _

theorem tabledCancelCrontabs {eh : Handler} {fuel : Nat} {start : Option Ptr} {count : Int} (h : Tabled q)
    {r : Int × TimerQueue} (runs : cancelCrontabs eh fuel q start count = some r) : Tabled r.2 := by
  induction fuel generalizing q start count with
  | zero => cases runs
  | succ fuel ih =>
    cases start with
    | none =>
      cases Option.some.inj runs
      exact h
    | some z =>
      simp only [cancelCrontabs] at runs
      split at runs
      · obtain ⟨q₁,unlinks,runs⟩ := Option.bind_eq_some_iff.1 runs
        exact ih (tabledFree (tabledSame h (unlinkIds unlinks)) z) runs
      · exact ih h runs

theorem tabledCancelGenerals {eh : Handler} {fuel i : Nat} {count : Int} (h : Tabled q)
    {r : Int × TimerQueue} (runs : cancelGenerals eh fuel q i count = some r) : Tabled r.2 := by
  induction fuel generalizing q i count with
  | zero => cases runs
  | succ fuel ih =>
    simp only [cancelGenerals] at runs
    split at runs
    · obtain ⟨p,_,runs⟩ := Option.bind_eq_some_iff.1 runs
      split at runs
      · obtain ⟨r',removed,runs⟩ := Option.bind_eq_some_iff.1 runs
        exact ih (tabledFree (tabledRemove h removed) _) runs
      · exact ih h runs
    · cases Option.some.inj runs
      exact h

theorem tabledDispatch (h : Tabled q) {current : TimeValue} {r : Option TimerNode × TimerQueue}
    (runs : q.dispatchTimer current = some r) : Tabled r.2 := by
  obtain ⟨earliest,_,runs⟩ := Option.bind_eq_some_iff.1 runs
  split at runs
  · obtain ⟨⟨expired,q₁⟩,removed,runs⟩ := Option.bind_eq_some_iff.1 runs
    obtain ⟨q₂,rearmed,runs⟩ := Option.bind_eq_some_iff.1 runs
    cases Option.some.inj runs
    have h₁ : Tabled q₁ := tabledRemove (r := (expired,q₁)) h removed
    simp only [rearm] at rearmed
    split at rearmed
    · obtain ⟨v,_,inserted⟩ := Option.bind_eq_some_iff.1 rearmed
      refine tabledInsert ?_ inserted
      exact h₁
    · cases Option.some.inj rearmed
      exact tabledFree h₁ expired
  · cases Option.some.inj runs
    exact h

theorem tabledExpire (h : Tabled q) {current : TimeValue} {ret : Int} {r : Int × TimerQueue}
    (runs : q.expire current ret = some r) : Tabled r.2 := by
  cases expires runs with
  | empty => exact h
  | late _ dispatched => exact tabledDispatch h dispatched
  | told _ dispatched c => exact tabledDispatch h dispatched
  | @cancelled _ q₁ _ _ dispatched c _ _ cancelled =>
    have h₁ : Tabled { q₁ with calls := c } := tabledDispatch h dispatched
    exact tabledCancel h₁ cancelled

theorem applyTabled (h : Tabled q) (op : Op) (runs : apply q op = some q') : Tabled q' := by
  cases op with
  | schedule eh arg deadline interval =>
    obtain ⟨r,ran,rfl⟩ := Option.map_eq_some_iff.1 runs
    exact tabledSchedule h ran
  | crontab eh arg entry now sec =>
    obtain ⟨r,ran,rfl⟩ := Option.map_eq_some_iff.1 runs
    exact tabledCrontab h ran
  | cancel id dontCall =>
    obtain ⟨r,ran,rfl⟩ := Option.map_eq_some_iff.1 runs
    exact tabledCancel h ran
  | cancelHandler eh dontCall =>
    obtain ⟨r,ran,rfl⟩ := Option.map_eq_some_iff.1 runs
    cases eh with
    | none =>
      cases Option.some.inj ran
      exact h
    | some eh =>
      obtain ⟨r₁,crontabs,ran⟩ := Option.bind_eq_some_iff.1 ran
      obtain ⟨r₂,generals,ran⟩ := Option.bind_eq_some_iff.1 ran
      have h₂ := tabledCancelGenerals (tabledCancelCrontabs h crontabs) generals
      cases Option.some.inj ran
      cases dontCall <;> exact h₂
  | resetInterval id interval =>
    obtain ⟨r,ran,rfl⟩ := Option.map_eq_some_iff.1 runs
    cases intervalReset ran with
    | refused => exact h
    | reset p _ _ => exact h
  | expire current ret =>
    obtain ⟨r,ran,rfl⟩ := Option.map_eq_some_iff.1 runs
    exact tabledExpire h ran
  | dispatch current =>
    simp only [apply] at runs
    split at runs
    · cases Option.some.inj runs
      exact h
    · obtain ⟨r,ran,rfl⟩ := Option.map_eq_some_iff.1 runs
      exact tabledDispatch h ran

theorem reachedTabled {maxSize : Int} {preAlloc : Nat} {ops : List Op}
    (reached : run apply (make maxSize preAlloc) ops = some q) : Tabled q := by
  have always : Always apply Tabled (make maxSize preAlloc) ops :=
    alwaysInvariant (fun _ op _ h runs => applyTabled h op runs) (fun _ => le_rfl) ops
  exact alwaysAtEnd always reached

end Table

/- What a refused crontab() may not change: the timers, and which ids are left. -/
structure NoTrace (q q' : TimerQueue) : Prop extends Unchanged q q' where
  left : ∀ k, q.minTimerId ≤ k → k < q.timerIdsSize → q.timerIds k = -1 →
    q'.minTimerId ≤ k ∧ k < q'.timerIdsSize ∧ q'.timerIds k = -1

def RegistersOrNoTrace (q : TimerQueue) (eh : Handler) (arg : Arg) (entry : Entry) (now : TimeValue) (sec : Int) : Prop :=
  ∃ id q', q.crontab (some eh) arg entry now sec = some (id,q') ∧ (∀ e, entry = .parsed e → 0 ≤ id) ∧
    (id = -1 → NoTrace q q')

/- The node on top of a free list bears the id of no timer that the table knows. -/
def Harmless (q : TimerQueue) (top : Option Ptr) : Prop :=
  ∀ p ∈ top, ∀ d ∈ timers q, d.id = q.ident p → q.timerIds d.id = -1

/- An id is left behind the driver's, which is 0. Only where the arrays grow from two
elements to two may there be none: the driver goes ahead of the one timer there is,
whose id is 1. -/
def SecondLeft (q : TimerQueue) (deadline : TimeValue) : Prop :=
  q.timerHeapSize ≤ q.currSize + 1 → 2 ≤ q.currSize ∨
    q.currSize = 1 ∧ (q.ident (q.slotNode 0) = 1 → ¬deadline < q.value (q.slotNode 0))

def CrontabSucceeds (q : TimerQueue) (entry : Entry) (now : TimeValue) (sec : Int) : Prop :=
  match entry with
  | .null => True
  | .malformed =>
    if q.crontabTimers = none then q.freeId = none ∧ Harmless q q.freeTimerNodes
    else q.freeId = none → Harmless q q.freeCrontabTimers
  | .parsed _ =>
    if q.crontabTimers = none then q.freeId = some 0 ∧ Doubles q ∧ SecondLeft q (now + driverDelay sec)
    else q.freeId ≠ none

section Trace
variable {q q' : TimerQueue} {heap free crontab freeCrontab freeCrontab' : List Ptr} {p : Ptr}

theorem noTraceRefl (q : TimerQueue) : NoTrace q q :=
  ⟨⟨rfl,rfl,fun _ _ => rfl⟩,fun _ low high vacant => ⟨low,high,vacant⟩⟩

theorem timersSame (h : Mixed q heap free) (size : q'.currSize = q.currSize) (slots : q'.timerHeap = q.timerHeap)
    (same : ∀ z ∈ heap, q'.nodes z = q.nodes z) : timers q' = timers q := by
  have slot : q'.slotNode = q.slotNode := by
    funext i
    simp only [slotNode,slots]
  unfold timers
  rw [size,slot]
  refine List.map_congr_left fun z hz => ?_
  have mem : z ∈ heap := h.loose.order.holds.subset hz
  simp only [timer,ident,value,same z mem]

theorem timerRange (h : Mixed q heap free) : ∀ d ∈ timers q, 0 ≤ d.id ∧ d.id < q.timerIdsSize := by
  intro d hd
  obtain ⟨z,hz,rfl⟩ := List.mem_map.1 hd
  exact h.loose.order.range z (h.loose.order.holds.subset hz)

/- The node given back clears its entry. -/
theorem harmlessIff (h : Mixed q heap free) {top : Option Ptr}
    (released : q'.timerIds = (q.releaseTimerid (top.elim (-1) q.ident)).timerIds) :
    (∀ d ∈ timers q, q'.timerIds d.id = q.timerIds d.id) ↔ Harmless q top := by
  rw [released]
  cases top with
  | none =>
    have same : (q.releaseTimerid (-1)).timerIds = q.timerIds := by
      unfold releaseTimerid
      rw [if_neg (by omega)]
    exact ⟨fun _ p hp => absurd hp (Option.not_mem_none p),fun _ d _ => congrFun same d.id⟩
  | some p =>
    have cleared : ∀ d ∈ timers q, (q.releaseTimerid (q.ident p)).timerIds d.id
        = if d.id = q.ident p then -1 else q.timerIds d.id := by
      intro d hd
      have range := timerRange h d hd
      unfold releaseTimerid
      by_cases here : d.id = q.ident p
      · rw [if_pos here,← here,if_pos range]
        exact Function.update_self _ _ _
      · rw [if_neg here]
        split
        · exact Function.update_of_ne here _ _
        · rfl
    constructor
    · intro kept p' hp d hd same
      cases hp
      have eq := (cleared d hd).symm.trans (kept d hd)
      rw [if_pos same] at eq
      exact eq.symm
    · intro harmless d hd
      refine (cleared d hd).trans ?_
      split
      · rename_i same
        exact (harmless p rfl d hd same).symm
      · rfl

/- The registration of a crontab timer that comes to nothing. -/
theorem apartUnchanged (h : Filed q heap free crontab freeCrontab) (h' : Filed q' heap free crontab freeCrontab')
    (apart : Apart q q' heap crontab) (ids : ∀ d ∈ timers q, q'.timerIds d.id = q.timerIds d.id) : Unchanged q q' := by
  have rest := apart.rest
  refine ⟨timersSame h.mixed (by rw [rest]) (by rw [rest]) apart.heap,?_,ids⟩
  rw [crontabListIs h,crontabListIs h']
  exact List.map_congr_left apart.cards

theorem rejectedNoTrace (h : Filed q heap free crontab freeCrontab) (h' : Filed q' heap free crontab freeCrontab')
    (apart : Apart q q' heap crontab) (ids : q'.timerIds = q.timerIds) {k : Int} (got : q.freeId = some k)
    (got' : q'.freeId = some k) : NoTrace q q' := by
  refine ⟨apartUnchanged h h' apart fun d _ => by rw [ids],fun j low high vacant => ?_⟩
  obtain ⟨_,_,_,before⟩ := firstFreeSound got
  have least := (firstFreeSound got').1
  have size : q'.timerIdsSize = q.timerIdsSize := by
    rw [apart.rest]
  rw [size,ids]
  have behind : k ≤ j := not_lt.1 fun early => before j low early vacant
  exact ⟨least.trans behind,high,vacant⟩

/- With no id left there is none to take. -/
theorem noneLeft (none_ : q.freeId = none) (k : Int) (low : q.minTimerId ≤ k) (high : k < q.timerIdsSize) :
    q.timerIds k ≠ -1 :=
  firstFreeNone none_ k low (by omega)

/- Between one size and the next the driver has shifted no other timer's id. -/
theorem idBehindDriver (h : Mixed q' heap free) (tabled : Tabled q') (driver : p ∈ heap) (self : q'.ident p = 0)
    (low : q'.minTimerId = 1) (wide : q'.currSize < q'.timerIdsSize) : q'.freeId ≠ none := by
  intro none_
  -- each entry from 1 on points at a timer of its own
  have taken : ∀ k : Nat, k < q'.timerIdsSize → (k : Int) ∈ (contents q'.currSize q'.slotNode).map q'.ident := by
    intro k high
    by_cases zero : k = 0
    · subst k
      refine List.mem_map.2 ⟨p,h.loose.order.holds.symm.subset driver,self⟩
    · have entry := noneLeft none_ k (by omega) (by omega)
      have nonneg : 0 ≤ q'.timerIds k := by
        have least := tabled k
        omega
      obtain ⟨i,hi,_,same⟩ := h.loose.points k id nonneg
      exact List.mem_map.2 ⟨q'.slotNode i,Lib.BinaryHeap.memContents.2 ⟨i,hi,rfl⟩,same⟩
  have nodup : ((List.range q'.timerIdsSize).map fun k : Nat => (k : Int)).Nodup :=
    List.nodup_range.map fun _ _ same => Int.ofNat_inj.1 same
  have sub : (List.range q'.timerIdsSize).map (fun k : Nat => (k : Int))
      ⊆ (contents q'.currSize q'.slotNode).map q'.ident := by
    intro k hk
    obtain ⟨n,hn,rfl⟩ := List.mem_map.1 hk
    exact taken n (List.mem_range.1 hn)
  have short := (List.subperm_of_subset nodup sub).length_le
  simp only [List.length_map,List.length_range,contents] at short
  omega

/- The arrays have grown by two elements or more: the last one is no timer's. -/
theorem idGrown (h : Mixed q' heap free) (tabled : Tabled q') {k : Int} (low : q'.minTimerId ≤ k)
    (high : k < q'.timerIdsSize) (unused : ∀ z ∈ heap, q'.ident z ≠ k) : q'.freeId ≠ none := by
  intro none_
  have entry := noneLeft none_ k low high
  have nonneg : 0 ≤ q'.timerIds k := by
    have least := tabled k
    omega
  obtain ⟨i,hi,_,same⟩ := h.loose.points k id nonneg
  exact unused _ (looseMem h.loose hi) same

/- The arrays of two elements, with one timer on the heap: what becomes of entry 1. -/
theorem insertSecond {x : Ptr} (type : (q.nodes p).type = .general) (one : q.currSize = 1) (full : q.timerHeapSize ≤ 2)
    (limit : 2 ≤ q.maxSize) (top : q.timerHeap 0 = some x) (self : q.ident p = 0)
    (range : 0 ≤ q.ident x ∧ q.ident x < 2) (runs : q.insert p = some q') :
    q'.timerIds 1 = -1 ↔ (q.ident x = 1 → ¬q.value p < q.value x) := by
  have size : (min ((1 * 2 : Nat) : Int) q.maxSize).toNat = 2 := by omega
  have made : q.makeRoom = some { q with
      timerHeap := fun i => if i < 1 then q.timerHeap i else none
      timerHeapSize := 2
      timerIds := fun i => if i < ((1 : Nat) : Int) then q.timerIds i else -1
      timerIdsSize := 2
      minTimerId := ((1 : Nat) : Int) } := by
    unfold makeRoom growHeap
    rw [one,if_pos full]
    simp only [size]
    exact if_pos (by decide)
  obtain ⟨q₁,def₁⟩ : ∃ q₁, q₁ = { q with
      timerHeap := fun i => if i < 1 then q.timerHeap i else none
      timerHeapSize := 2
      timerIds := fun i => if i < ((1 : Nat) : Int) then q.timerIds i else -1
      timerIdsSize := 2
      minTimerId := ((1 : Nat) : Int) } := ⟨_,rfl⟩
  rw [← def₁] at made
  have nodes : q₁.nodes = q.nodes := by rw [def₁]
  have sizes : q₁.timerHeapSize = 2 ∧ q₁.timerIdsSize = 2 ∧ q₁.currSize = 1 := by
    rw [def₁]
    exact ⟨rfl,rfl,one⟩
  have over_ : q₁.heapAt 0 = some x := by
    unfold heapAt
    rw [sizes.1,def₁]
    exact top
  have fresh : q₁.timerIds 1 = -1 := by rw [def₁]; rfl
  have first : ∀ (q₂ : TimerQueue) (slot : Nat) (z : Ptr), q₂.timerHeapSize = 2 → q₂.timerIdsSize = 2 → slot < 2 →
      0 ≤ q₂.ident z ∧ q₂.ident z < 2 → q₂.copy slot z = some (q₂.placed slot z) := by
    intro q₂ slot z heap ids inside range
    refine copyRuns (by rw [heap]; exact inside) ?_
    rw [ids]
    exact range
  unfold TimerQueue.insert insertGeneral at runs
  rw [type] at runs
  simp only [made,bind,Option.bind] at runs
  rw [sizes.2.2] at runs
  have up : parent 1 = 0 := rfl
  have idents : q₁.ident p = 0 ∧ q₁.ident x = q.ident x := by
    refine ⟨?_,?_⟩
    · simp only [ident,nodes]
      exact self
    · simp only [ident,nodes]
  have other : (1 : Int) ≠ 0 := by decide
  by_cases earlier : q.value p < q.value x
  · have goes : reheapUp p 1 q₁ 1 (parent 1) = some ((q₁.placed 1 x).placed 0 p) := by
      have less : (q₁.nodes p).timerValue < (q₁.nodes x).timerValue := by
        rw [nodes]
        exact earlier
      rw [up]
      simp only [reheapUp,Nat.zero_lt_one,if_true,over_,bind,Option.bind,if_pos less]
      rw [first q₁ 1 x sizes.1 sizes.2.1 (by decide) (by rw [idents.2]; exact range)]
      exact first (q₁.placed 1 x) 0 p sizes.1 sizes.2.1 (by decide) ⟨idents.1.ge,by
        change q₁.ident p < 2
        rw [idents.1]
        decide⟩
    rw [goes] at runs
    cases Option.some.inj runs
    have entry : ((q₁.placed 1 x).placed 0 p).timerIds 1 = if q.ident x = 1 then 1 else -1 := by
      change Function.update (Function.update q₁.timerIds (q₁.ident x) 1) (q₁.ident p) 0 1 = _
      rw [idents.1,idents.2,Function.update_of_ne other]
      by_cases here : q.ident x = 1
      · rw [if_pos here,here,Function.update_self]
      · rw [if_neg here,Function.update_of_ne (Ne.symm here),fresh]
    change ((q₁.placed 1 x).placed 0 p).timerIds 1 = -1 ↔ _
    rw [entry]
    split
    · rename_i here
      exact ⟨fun eq => absurd eq (by decide),fun late => absurd earlier (late here)⟩
    · rename_i here
      exact ⟨fun _ same => absurd same here,fun _ => rfl⟩
  · have stays : reheapUp p 1 q₁ 1 (parent 1) = some (q₁.placed 1 p) := by
      have less : ¬(q₁.nodes p).timerValue < (q₁.nodes x).timerValue := by
        rw [nodes]
        exact earlier
      rw [up]
      simp only [reheapUp,Nat.zero_lt_one,if_true,over_,bind,Option.bind,if_neg less]
      exact first q₁ 1 p sizes.1 sizes.2.1 (by decide) (by rw [idents.1]; decide)
    rw [stays] at runs
    cases Option.some.inj runs
    have entry : (q₁.placed 1 p).timerIds 1 = -1 := by
      change Function.update q₁.timerIds (q₁.ident p) 1 1 = _
      rw [idents.1,Function.update_of_ne other,fresh]
    exact ⟨fun _ _ => earlier,fun _ => entry⟩

/- The driver under id 0, and whether there is an id behind it. -/
theorem secondLeftIff (h : Mixed q heap free) (tabled : Tabled q) (room : (q.currSize : Int) + 2 ≤ q.maxSize)
    (got : q.freeId = some 0) (doubles : Doubles q) (eh : Option Handler) (arg : Arg) (deadline interval : TimeValue) :
    ∃ p q₁ free', q.scheduleI eh arg deadline interval = some (0,q₁) ∧ Mixed q₁ (heap ++ [p]) free' ∧ Beside q q₁ ∧
      q₁.currSize = q.currSize + 1 ∧ (q₁.freeId ≠ none ↔ SecondLeft q deadline) := by
  have below : (q.currSize : Int) < q.maxSize := by omega
  obtain ⟨p,q₁,free',gives,mixed,beside,_,self,same,size,ends⟩ := scheduleAdds h below got doubles eh arg deadline interval
  refine ⟨p,q₁,free',gives,mixed,beside,size,?_⟩
  have tabled₁ : Tabled q₁ := tabledSchedule tabled gives
  have driver : p ∈ heap ++ [p] := List.mem_append_right _ List.mem_cons_self
  have low : q.minTimerId = 0 := by
    have least := (firstFreeSound got).1
    have nonneg : 0 ≤ q.minTimerId := h.loose.low
    omega
  have sizes : q.timerHeapSize = q.timerIdsSize := h.loose.sizes
  have wide : 2 ≤ q.timerHeapSize := h.loose.wide
  by_cases full : q.timerHeapSize ≤ q.currSize + 1
  · rw [if_pos full] at ends
    have limit := doubles full
    have old : ∀ z ∈ heap, q₁.ident z < q.timerIdsSize := fun z hz => by
      have range : q.ident z < q.timerIdsSize := (h.loose.order.range z hz).2
      simp only [ident,same z hz] at range ⊢
      exact range
    by_cases two : 2 ≤ q.currSize
    · refine ⟨fun _ _ => Or.inl two,fun _ => ?_⟩
      refine idGrown (k := q.currSize + 1) mixed tabled₁ (by omega) (by omega) fun z hz => ?_
      rcases List.mem_append.1 hz with older | new
      · have range := old z older
        omega
      · rw [List.mem_singleton.1 new,self]
        omega
    · have one : q.currSize = 1 := by omega
      have pos : 0 < q.currSize := by omega
      obtain ⟨p',q₂,_,runs,_,_,_,type,self',deadline',_,_,kept,rest⟩ := scheduleNode h below got eh arg deadline interval
      obtain ⟨q₁',inserted,pair⟩ := Option.map_eq_some_iff.1 (runs.symm.trans gives)
      cases pair
      have filled : q.heapAt 0 = some (q.slotNode 0) := h.loose.order.filled 0 pos
      have top : q.timerHeap 0 = some (q.slotNode 0) := by
        unfold heapAt at filled
        split at filled
        · exact filled
        · cases filled
      have mem : q.slotNode 0 ∈ heap := looseMem h.loose pos
      have slots : q₂.timerHeap = q.timerHeap ∧ q₂.currSize = q.currSize ∧ q₂.timerHeapSize = q.timerHeapSize ∧
          q₂.maxSize = q.maxSize := by
        rw [rest]
        exact ⟨rfl,rfl,rfl,rfl⟩
      have range : 0 ≤ q.ident (q.slotNode 0) ∧ q.ident (q.slotNode 0) < q.timerIdsSize :=
        h.loose.order.range _ mem
      have sameIdent : q₂.ident (q.slotNode 0) = q.ident (q.slotNode 0) := by
        simp only [ident,kept _ mem]
      have sameValue : q₂.value (q.slotNode 0) = q.value (q.slotNode 0) := by
        simp only [value,kept _ mem]
      have entry := insertSecond type (slots.2.1.trans one) (by omega) (by omega) (slots.1 ▸ top) self'
        (by rw [sameIdent]; omega) inserted
      rw [sameIdent,sameValue,deadline'] at entry
      have search : q₁.freeId = if q₁.timerIds 1 = -1 then some 1 else none := by
        unfold freeId
        rw [ends.1,ends.2,one]
        have left : ((((min ((1 * 2 : Nat) : Int) q.maxSize).toNat : Nat) : Int) - ((1 : Nat) : Int)).toNat = 1 := by omega
        rw [left]
        rfl
      rw [search]
      constructor
      · intro some_ _
        refine Or.inr ⟨one,entry.1 ?_⟩
        by_contra taken
        exact some_ (if_neg taken)
      · intro second
        rcases second full with more | ⟨_,late⟩
        · exact absurd more two
        · rw [if_pos (entry.2 late)]
          exact Option.some_ne_none 1
  · rw [if_neg full] at ends
    refine ⟨fun _ => fun small => absurd small full,fun _ => ?_⟩
    exact idBehindDriver mixed tabled₁ driver self (by omega) (by omega)

section Call
variable {eh : Handler} {arg : Arg} {entry : Entry} {now : TimeValue} {sec : Int}

theorem malformedNot : ∀ e, Entry.malformed ≠ .parsed e := fun e same => by cases same

theorem crontabStarts (q : TimerQueue) (eh : Handler) (arg : Arg) (now : TimeValue) (sec : Int)
    (given : entry ≠ .null) : q.crontab (some eh) arg entry now sec = (q.startDriver now sec).bind fun r =>
      if r.1 ≠ 0 then some (-1,r.2) else r.2.registerCrontab eh arg entry now := by
  cases entry with
  | null => exact absurd rfl given
  | malformed => rfl
  | parsed e => rfl

theorem refusedIff (runs : q.crontab (some eh) arg entry now sec = some (-1,q')) :
    RegistersOrNoTrace q eh arg entry now sec ↔ (∀ e, entry ≠ .parsed e) ∧ NoTrace q q' := by
  constructor
  · rintro ⟨id,q'',gives,registered,trace⟩
    cases Option.some.inj (gives.symm.trans runs)
    exact ⟨fun e parsed => absurd (registered e parsed) (by decide),trace rfl⟩
  · rintro ⟨malformed,trace⟩
    exact ⟨-1,q',runs,fun e parsed => absurd parsed (malformed e),fun _ => trace⟩

theorem granted {id : Int} (runs : q.crontab (some eh) arg entry now sec = some (id,q')) (nonneg : 0 ≤ id) :
    RegistersOrNoTrace q eh arg entry now sec :=
  ⟨id,q',runs,fun _ _ => nonneg,fun refused => absurd refused (by omega)⟩

/- A driver that stays behind is a trace. -/
theorem driverTrace (more : q'.currSize = q.currSize + 1) : ¬NoTrace q q' := fun trace => by
  have counts := congrArg List.length trace.general
  rw [timersCount,timersCount,more] at counts
  omega

/- The driver runs already. -/
theorem nextRegisters (h : Filed q heap free crontab freeCrontab) (driven : q.crontabTimers ≠ none)
    (given : entry ≠ .null) : RegistersOrNoTrace q eh arg entry now sec ↔ CrontabSucceeds q entry now sec := by
  have runs : q.crontab (some eh) arg entry now sec = q.registerCrontab eh arg entry now := by
    rw [crontabStarts q eh arg now sec given]
    unfold startDriver
    rw [if_neg driven]
    rfl
  cases got : q.freeId with
  | none =>
    obtain ⟨q',f',gives,h',apart,released,_⟩ := registerRefused h got eh arg entry now
    rw [refusedIff (runs.trans gives)]
    cases entry with
    | null => exact absurd rfl given
    | parsed e =>
      simp only [CrontabSucceeds,if_neg driven]
      exact ⟨fun both => absurd rfl (both.1 e),fun some_ => absurd got some_⟩
    | malformed =>
      simp only [CrontabSucceeds,if_neg driven]
      have harmless := harmlessIff h.mixed released
      refine ⟨fun both _ => harmless.1 both.2.ids,fun quiet => ⟨malformedNot,?_,fun k low high vacant => ?_⟩⟩
      · exact apartUnchanged h h' apart (harmless.2 (quiet got))
      · exact absurd vacant (noneLeft got k low high)
  | some k =>
    cases entry with
    | null => exact absurd rfl given
    | parsed e =>
      obtain ⟨p,q',f',gives,nonneg,_⟩ := registerAdds h got eh arg e now
      simp only [CrontabSucceeds,if_neg driven]
      exact ⟨fun _ => by rw [got]; exact Option.some_ne_none k,fun _ => granted (runs.trans gives) nonneg⟩
    | malformed =>
      obtain ⟨q',f',gives,h',apart,ids,got',_⟩ := registerRejects h got eh arg .malformed malformedNot now
      rw [refusedIff (runs.trans gives)]
      simp only [CrontabSucceeds,if_neg driven]
      exact ⟨fun _ none_ => absurd (got.symm.trans none_) (Option.some_ne_none k),
        fun _ => ⟨malformedNot,rejectedNoTrace h h' apart ids got got'⟩⟩

/- The first crontab timer: the driver is scheduled before anything else. -/
theorem firstRegisters (h : Filed q heap free crontab freeCrontab) (tabled : Tabled q)
    (room : (q.currSize : Int) + 2 ≤ q.maxSize) (idle : q.crontabTimers = none) (given : entry ≠ .null) :
    RegistersOrNoTrace q eh arg entry now sec ↔ CrontabSucceeds q entry now sec := by
  have below : (q.currSize : Int) < q.maxSize := by omega
  have starts : q.startDriver now sec = q.scheduleI (some .queue) 0 (now + driverDelay sec) (.set 60 0) := by
    unfold startDriver
    rw [if_pos idle]
    rfl
  have runs := crontabStarts q eh arg now sec given
  rw [starts] at runs
  cases got : q.freeId with
  | none =>
    obtain ⟨p,q',free',gives,mixed,beside,off,others,rest,released⟩ :=
      scheduleRefused h.mixed below got (some .queue) 0 (now + driverDelay sec) (.set 60 0)
    rw [gives] at runs
    rw [refusedIff runs]
    cases entry with
    | null => exact absurd rfl given
    | parsed e =>
      simp only [CrontabSucceeds,if_pos idle,got]
      exact ⟨fun both => absurd rfl (both.1 e),fun both => absurd both.1 (Option.some_ne_none 0).symm⟩
    | malformed =>
      simp only [CrontabSucceeds,if_pos idle]
      have harmless := harmlessIff h.mixed released
      refine ⟨fun both => ⟨got,harmless.1 both.2.ids⟩,fun quiet => ⟨malformedNot,⟨?_,?_,harmless.2 quiet.2⟩,
        fun k low high vacant => ?_⟩⟩
      · exact timersSame h.mixed (by rw [rest]) (by rw [rest]) fun z hz => others z fun same => off (same ▸ hz)
      · rw [crontabList,crontabList,beside.crontabTimers,idle]
        rfl
      · exact absurd vacant (noneLeft got k low high)
  | some k =>
    by_cases doubles : Doubles q
    · by_cases zero : k = 0
      · subst k
        obtain ⟨p,q₁,free',gives,mixed,beside,more,second⟩ :=
          secondLeftIff h.mixed tabled room got doubles (some .queue) 0 (now + driverDelay sec) (.set 60 0)
        have h₁ := filedBeside h beside mixed
        rw [gives] at runs
        have runs : q.crontab (some eh) arg entry now sec = q₁.registerCrontab eh arg entry now := runs
        cases got₁ : q₁.freeId with
        | none =>
          obtain ⟨q',f',refused,_,apart,_⟩ := registerRefused h₁ got₁ eh arg entry now
          rw [refusedIff (runs.trans refused)]
          have size : q'.currSize = q.currSize + 1 := by
            rw [apart.rest]
            exact more
          refine ⟨fun both => absurd both.2 (driverTrace size),fun succeeds => ?_⟩
          cases entry with
          | null => exact absurd rfl given
          | parsed e =>
            simp only [CrontabSucceeds,if_pos idle] at succeeds
            exact absurd got₁ (second.2 succeeds.2.2)
          | malformed =>
            simp only [CrontabSucceeds,if_pos idle,got] at succeeds
            exact absurd succeeds.1 (Option.some_ne_none 0)
        | some k' =>
          cases entry with
          | null => exact absurd rfl given
          | parsed e =>
            obtain ⟨p',q',f',adds,nonneg,_⟩ := registerAdds h₁ got₁ eh arg e now
            simp only [CrontabSucceeds,if_pos idle]
            refine ⟨fun _ => ⟨got,doubles,second.1 ?_⟩,fun _ => granted (runs.trans adds) nonneg⟩
            rw [got₁]
            exact Option.some_ne_none k'
          | malformed =>
            obtain ⟨q',f',rejects,_,apart,_⟩ := registerRejects h₁ got₁ eh arg .malformed malformedNot now
            rw [refusedIff (runs.trans rejects)]
            have size : q'.currSize = q.currSize + 1 := by
              rw [apart.rest]
              exact more
            simp only [CrontabSucceeds,if_pos idle,got]
            exact ⟨fun both => absurd both.2 (driverTrace size),fun both => absurd both.1 (Option.some_ne_none 0)⟩
      · obtain ⟨p,q₁,free',gives,_,_,_,_,_,more,_⟩ :=
          scheduleAdds h.mixed below got doubles (some .queue) 0 (now + driverDelay sec) (.set 60 0)
        rw [gives] at runs
        have runs : q.crontab (some eh) arg entry now sec = some (-1,q₁) := runs.trans (if_pos zero)
        rw [refusedIff runs]
        refine ⟨fun both => absurd both.2 (driverTrace more),fun succeeds => ?_⟩
        cases entry with
        | null => exact absurd rfl given
        | parsed e =>
          simp only [CrontabSucceeds,if_pos idle,got] at succeeds
          exact absurd (Option.some.inj succeeds.1) zero
        | malformed =>
          simp only [CrontabSucceeds,if_pos idle,got] at succeeds
          exact absurd succeeds.1 (Option.some_ne_none k)
    · have stuck := scheduleStuck h.mixed below got doubles (some .queue) 0 (now + driverDelay sec) (.set 60 0)
      rw [stuck] at runs
      have runs : q.crontab (some eh) arg entry now sec = none := runs
      constructor
      · rintro ⟨id,q',gives,_⟩
        exact absurd (gives.symm.trans runs) (Option.some_ne_none _)
      · intro succeeds
        cases entry with
        | null => exact absurd rfl given
        | parsed e =>
          simp only [CrontabSucceeds,if_pos idle] at succeeds
          exact absurd succeeds.2.1 doubles
        | malformed =>
          simp only [CrontabSucceeds,if_pos idle,got] at succeeds
          exact absurd succeeds.1 (Option.some_ne_none k)

/- With one element or none no driver is ever scheduled. -/
theorem emptyRegisters (h : Empty q) (room : (q.currSize : Int) + 2 ≤ q.maxSize) (given : entry ≠ .null) :
    RegistersOrNoTrace q eh arg entry now sec ↔ CrontabSucceeds q entry now sec := by
  have below : (q.currSize : Int) < q.maxSize := by omega
  have idle := h.crontab
  have starts : q.startDriver now sec = q.scheduleI (some .queue) 0 (now + driverDelay sec) (.set 60 0) := by
    unfold startDriver
    rw [if_pos idle]
    rfl
  have runs := crontabStarts q eh arg now sec given
  rw [starts] at runs
  have timersNone : ∀ s : TimerQueue, Empty s → timers s = [] := fun s empty => by
    rw [← List.length_eq_zero_iff,timersCount]
    exact empty.size
  cases got : q.freeId with
  | none =>
    obtain ⟨q',gives,h'⟩ := emptyRefused h below got (some .queue) 0 (now + driverDelay sec) (.set 60 0)
    rw [gives] at runs
    rw [refusedIff runs]
    cases entry with
    | null => exact absurd rfl given
    | parsed e =>
      simp only [CrontabSucceeds,if_pos idle,got]
      exact ⟨fun both => absurd rfl (both.1 e),fun both => absurd both.1 (Option.some_ne_none 0).symm⟩
    | malformed =>
      simp only [CrontabSucceeds,if_pos idle]
      have none_ := timersNone q h
      refine ⟨fun _ => ⟨got,fun z hz d hd => ?_⟩,fun _ => ⟨malformedNot,⟨?_,?_,fun d hd => ?_⟩,fun k low high vacant => ?_⟩⟩
      · rw [none_] at hd
        exact absurd hd List.not_mem_nil
      · rw [none_,timersNone q' h']
      · rw [crontabList,crontabList,idle,h'.crontab]
        rfl
      · rw [none_] at hd
        exact absurd hd List.not_mem_nil
      · exact absurd vacant (noneLeft got k low high)
  | some k =>
    rw [emptyStuck h below got] at runs
    have runs : q.crontab (some eh) arg entry now sec = none := runs
    constructor
    · rintro ⟨id,q',gives,_⟩
      exact absurd (gives.symm.trans runs) (Option.some_ne_none _)
    · intro succeeds
      cases entry with
      | null => exact absurd rfl given
      | parsed e =>
        simp only [CrontabSucceeds,if_pos idle] at succeeds
        have narrow := h.narrow
        have size := h.size
        have none_ := succeeds.2.2 (by omega)
        omega
      | malformed =>
        simp only [CrontabSucceeds,if_pos idle,got] at succeeds
        exact absurd succeeds.1 (Option.some_ne_none k)

end Call

end Trace

end CuteNdk.TimerMixed
