import CuteNdk.TimerDrain

/-! The heap of a timer_queue that has timers of both kinds. The nodes of crontab
timers stay among themselves, in the crontab list and its free list or wherever a
cancel has left them, so that the heap is one of general timers alone, and what is
known of those holds of it. -/
namespace CuteNdk.TimerMixed
open TimerQueue
open Lib (Seg segCongr)
open Lib.BinaryHeap (parent)

/- The queue with other crontab timers, and with other handlers at its nodes. -/
def dressed (crontabTimers freeCrontabTimers : Option Ptr) (handlers : Ptr → Option Handler)
    (q : TimerQueue) : TimerQueue :=
  { q with
    crontabTimers := crontabTimers
    freeCrontabTimers := freeCrontabTimers
    nodes := fun p => { q.nodes p with handler := handlers p } }

/- The queue as one of general timers: no handler is null, and no crontab timer in
sight. -/
def general (q : TimerQueue) : TimerQueue := dressed none none (fun _ => some .queue) q

section Dressed
variable (c f : Option Ptr) (hs : Ptr → Option Handler)

theorem dressedGeneral (q : TimerQueue) :
    dressed q.crontabTimers q.freeCrontabTimers (fun p => (q.nodes p).handler) (general q) = q := rfl

theorem dressedCopy (q : TimerQueue) (slot : Nat) (moved : Ptr) :
    (dressed c f hs q).copy slot moved = (q.copy slot moved).map (dressed c f hs) := by
  unfold copy
  by_cases fits : slot < q.timerHeapSize ∧ 0 ≤ (q.nodes moved).timerId ∧ (q.nodes moved).timerId < q.timerIdsSize
  · rw [if_pos fits]
    exact if_pos fits
  · rw [if_neg fits]
    exact if_neg fits

theorem dressedReheapUp (moved : Ptr) (fuel : Nat) (q : TimerQueue) (slot up : Nat) :
    reheapUp moved fuel (dressed c f hs q) slot up = (reheapUp moved fuel q slot up).map (dressed c f hs) := by
  induction fuel generalizing q slot up with
  | zero => exact dressedCopy c f hs q slot moved
  | succ fuel ih =>
    unfold reheapUp
    split
    · have reads : (dressed c f hs q).heapAt up = q.heapAt up := rfl
      rw [reads]
      cases q.heapAt up with
      | none => rfl
      | some p =>
        simp only [bind,Option.bind]
        have values : ((dressed c f hs q).nodes moved).timerValue < ((dressed c f hs q).nodes p).timerValue ↔
            (q.nodes moved).timerValue < (q.nodes p).timerValue := Iff.rfl
        by_cases later : (q.nodes moved).timerValue < (q.nodes p).timerValue
        · rw [if_pos later,if_pos (values.2 later),dressedCopy]
          cases q.copy slot p with
          | none => rfl
          | some q' => exact ih q' up (parent up)
        · rw [if_neg later,if_neg (values.not.2 later)]
          exact dressedCopy c f hs q slot moved
    · exact dressedCopy c f hs q slot moved

theorem dressedReheapDown (moved : Ptr) (fuel : Nat) (q : TimerQueue) (slot child : Nat) :
    reheapDown moved fuel (dressed c f hs q) slot child
      = (reheapDown moved fuel q slot child).map (dressed c f hs) := by
  induction fuel generalizing q slot child with
  | zero => rfl
  | succ fuel ih =>
    have size : (dressed c f hs q).currSize = q.currSize := rfl
    have smaller : (dressed c f hs q).smallerChild child = q.smallerChild child := rfl
    unfold reheapDown
    rw [size,smaller]
    split
    · cases q.smallerChild child with
      | none => rfl
      | some child =>
        have reads : (dressed c f hs q).heapAt child = q.heapAt child := rfl
        simp only [bind,Option.bind,reads]
        cases q.heapAt child with
        | none => rfl
        | some p =>
          have values : ((dressed c f hs q).nodes p).timerValue < ((dressed c f hs q).nodes moved).timerValue ↔
              (q.nodes p).timerValue < (q.nodes moved).timerValue := Iff.rfl
          by_cases later : (q.nodes p).timerValue < (q.nodes moved).timerValue
          · simp only [if_pos later,if_pos (values.2 later),dressedCopy]
            cases q.copy slot p with
            | none => rfl
            | some q' => exact ih q' child (child + child + 1)
          · simp only [if_neg later,if_neg (values.not.2 later)]
            exact dressedCopy c f hs q slot moved
    · exact dressedCopy c f hs q slot moved

theorem dressedRefill (q : TimerQueue) (slot : Nat) :
    (dressed c f hs q).refill slot = (q.refill slot).map (dressed c f hs) := by
  have reads : (dressed c f hs q).heapAt (dressed c f hs q).currSize = q.heapAt q.currSize := rfl
  unfold refill
  rw [reads]
  cases q.heapAt q.currSize with
  | none => rfl
  | some moved =>
    simp only [bind,Option.bind,dressedCopy]
    cases q.copy slot moved with
    | none => rfl
    | some q' =>
      have reads' : (dressed c f hs q').heapAt (parent slot) = q'.heapAt (parent slot) := rfl
      simp only [Option.map_some,reads']
      cases q'.heapAt (parent slot) with
      | none => rfl
      | some p =>
        have values : ((dressed c f hs q').nodes p).timerValue ≤ ((dressed c f hs q').nodes moved).timerValue ↔
            (q'.nodes p).timerValue ≤ (q'.nodes moved).timerValue := Iff.rfl
        by_cases low : (q'.nodes p).timerValue ≤ (q'.nodes moved).timerValue
        · simp only [if_pos low,if_pos (values.2 low)]
          exact dressedReheapDown c f hs moved _ q' slot _
        · simp only [if_neg low,if_neg (values.not.2 low)]
          exact dressedReheapUp c f hs moved slot q' slot _

theorem dressedRemove (q : TimerQueue) (slot : Nat) :
    (dressed c f hs q).remove slot = (q.remove slot).map fun r => (r.1,dressed c f hs r.2) := by
  have reads : (dressed c f hs q).heapAt slot = q.heapAt slot := rfl
  have size : (dressed c f hs q).currSize = q.currSize := rfl
  unfold remove
  rw [reads]
  cases q.heapAt slot with
  | none => rfl
  | some removed =>
    simp only [bind,Option.bind,size]
    split
    · have shrunk : (dressed c f hs { q with currSize := q.currSize - 1 }).refill slot
          = _ := dressedRefill c f hs { q with currSize := q.currSize - 1 } slot
      have same : { dressed c f hs q with currSize := q.currSize - 1 }
          = dressed c f hs { q with currSize := q.currSize - 1 } := rfl
      rw [same,shrunk]
      cases refill { q with currSize := q.currSize - 1 } slot <;> rfl
    · rfl

theorem dressedInsert {q : TimerQueue} {p : Ptr} (type : (q.nodes p).type = .general) :
    (dressed c f hs q).insert p = (q.insert p).map (dressed c f hs) := by
  have type' : ((dressed c f hs q).nodes p).type = .general := type
  have grown : (dressed c f hs q).makeRoom = q.makeRoom.map (dressed c f hs) := by
    have sizes : (dressed c f hs q).timerHeapSize = q.timerHeapSize ∧ (dressed c f hs q).currSize = q.currSize ∧
        (dressed c f hs q).maxSize = q.maxSize := ⟨rfl,rfl,rfl⟩
    unfold makeRoom growHeap
    simp only [sizes.1,sizes.2.1,sizes.2.2]
    split
    · split <;> rfl
    · rfl
  unfold TimerQueue.insert
  rw [type,type']
  simp only [insertGeneral,grown,bind,Option.bind]
  cases q.makeRoom with
  | none => rfl
  | some q' =>
    have size : (dressed c f hs q').currSize = q'.currSize := rfl
    simp only [Option.map_some,size,dressedReheapUp]
    cases reheapUp p q'.currSize q' q'.currSize (parent q'.currSize) <;> rfl

end Dressed

/- insert touches the arrays of the heap and the table, and no node. -/
theorem reheapUpRest {moved : Ptr} {fuel : Nat} {q q' : TimerQueue} {slot up : Nat}
    (runs : reheapUp moved fuel q slot up = some q') :
    q' = { q with timerHeap := q'.timerHeap, timerIds := q'.timerIds } := by
  have placed : ∀ {q q' : TimerQueue} {slot : Nat} {p : Ptr}, q.copy slot p = some q' →
      q' = { q with timerHeap := q'.timerHeap, timerIds := q'.timerIds } := by
    intro q q' slot p copied
    unfold copy at copied
    split at copied
    · cases Option.some.inj copied
      rfl
    · cases copied
  induction fuel generalizing q slot up with
  | zero => exact placed runs
  | succ fuel ih =>
    unfold reheapUp at runs
    split at runs
    · obtain ⟨p,_,runs⟩ := Option.bind_eq_some_iff.1 runs
      split at runs
      · obtain ⟨q₁,copied,runs⟩ := Option.bind_eq_some_iff.1 runs
        have later := ih runs
        rw [placed copied] at later
        exact later
      · exact placed runs
    · exact placed runs

theorem insertRest {q q' : TimerQueue} {p : Ptr} (type : (q.nodes p).type = .general)
    (runs : q.insert p = some q') : q' = { q with
      timerHeap := q'.timerHeap
      timerHeapSize := q'.timerHeapSize
      timerIds := q'.timerIds
      timerIdsSize := q'.timerIdsSize
      minTimerId := q'.minTimerId
      currSize := q'.currSize } := by
  unfold TimerQueue.insert at runs
  rw [type] at runs
  obtain ⟨q₁,made,runs⟩ := Option.bind_eq_some_iff.1 runs
  obtain ⟨q₂,placed,runs⟩ := Option.bind_eq_some_iff.1 runs
  cases Option.some.inj runs
  have rest := reheapUpRest placed
  have grown : q₁ = { q with
      timerHeap := q₁.timerHeap
      timerHeapSize := q₁.timerHeapSize
      timerIds := q₁.timerIds
      timerIdsSize := q₁.timerIdsSize
      minTimerId := q₁.minTimerId } := by
    unfold makeRoom growHeap at made
    split at made
    · simp only at made
      split at made
      · cases Option.some.inj made
        rfl
      · cases made
    · cases Option.some.inj made
      rfl
  rw [rest,grown]

/- Where the search for an id starts and ends once a timer is inserted. -/
theorem insertSizes {q q' : TimerQueue} {p : Ptr} (type : (q.nodes p).type = .general)
    (runs : q.insert p = some q') : q'.currSize = q.currSize + 1 ∧
      if q.timerHeapSize ≤ q.currSize + 1 then
        q'.minTimerId = q.currSize ∧ q'.timerIdsSize = (min ((q.currSize * 2 : Nat) : Int) q.maxSize).toNat
      else q'.minTimerId = q.minTimerId ∧ q'.timerIdsSize = q.timerIdsSize := by
  unfold TimerQueue.insert at runs
  rw [type] at runs
  obtain ⟨q₁,made,runs⟩ := Option.bind_eq_some_iff.1 runs
  obtain ⟨q₂,placed,runs⟩ := Option.bind_eq_some_iff.1 runs
  cases Option.some.inj runs
  have rest := reheapUpRest placed
  have ends : q₂.currSize = q₁.currSize ∧ q₂.minTimerId = q₁.minTimerId ∧ q₂.timerIdsSize = q₁.timerIdsSize := by
    rw [rest]
    exact ⟨rfl,rfl,rfl⟩
  change q₂.currSize + 1 = q.currSize + 1 ∧ if q.timerHeapSize ≤ q.currSize + 1 then
    q₂.minTimerId = q.currSize ∧ q₂.timerIdsSize = (min ((q.currSize * 2 : Nat) : Int) q.maxSize).toNat
    else q₂.minTimerId = q.minTimerId ∧ q₂.timerIdsSize = q.timerIdsSize
  rw [ends.1,ends.2.1,ends.2.2]
  unfold makeRoom growHeap at made
  split at made
  · rename_i full
    rw [if_pos full]
    simp only at made
    split at made
    · cases Option.some.inj made
      exact ⟨rfl,rfl,rfl⟩
    · cases made
  · rename_i space
    rw [if_neg space]
    cases Option.some.inj made
    exact ⟨rfl,rfl,rfl⟩

section Heap
variable {q : TimerQueue} {heap free : List Ptr} {except : Int → Prop} {p : Ptr}

theorem generalRemove {slot : Nat} (h : Loose (general q) heap free fun _ => False) (inside : slot < q.currSize) :
    ∃ q', q.remove slot = some (q.slotNode slot,q') ∧
      Outside (general q') (heap.erase (q.slotNode slot)) free (fun k => k = q.ident (q.slotNode slot))
        (q.slotNode slot) ∧
      q' = { q.shrunk with timerHeap := q'.timerHeap, timerIds := q'.timerIds } := by
  obtain ⟨q₁,runs,outside,rest⟩ := looseRemove h inside
  have back := dressedRemove q.crontabTimers q.freeCrontabTimers (fun p => (q.nodes p).handler) (general q) slot
  rw [dressedGeneral,runs] at back
  refine ⟨_,back,?_,?_⟩
  · have same : general (dressed q.crontabTimers q.freeCrontabTimers (fun p => (q.nodes p).handler) q₁) = q₁ := by
      rw [rest]
      rfl
    rw [same]
    exact outside
  · rw [rest]
    rfl

theorem generalInsert (h : Outside (general q) heap free except p) (type : (q.nodes p).type = .general)
    (range : 0 ≤ q.ident p ∧ q.ident p < q.timerIdsSize) (below : (q.currSize : Int) < q.maxSize)
    (small : q.timerHeapSize ≤ q.currSize + 1 → q.currSize * 2 ≤ intMax) :
    ∃ q', q.insert p = some q' ∧ Loose (general q') (heap ++ [p]) free (fun k => except k ∧ k ≠ q.ident p) ∧
      q.timerIdsSize ≤ q'.timerIdsSize ∧ q' = { q with
        timerHeap := q'.timerHeap
        timerHeapSize := q'.timerHeapSize
        timerIds := q'.timerIds
        timerIdsSize := q'.timerIdsSize
        minTimerId := q'.minTimerId
        currSize := q'.currSize } := by
  have type' : ((general q).nodes p).type = .general := type
  obtain ⟨q₁,runs,loose,_,_⟩ := looseInsert h type' (Option.some_ne_none _) range below small
  have rest := insertRest type' runs
  have back := dressedInsert q.crontabTimers q.freeCrontabTimers (fun p => (q.nodes p).handler) type'
  rw [dressedGeneral,runs] at back
  refine ⟨_,back,?_,?_,insertRest type back⟩
  swap
  · have ends := (insertSizes type back).2
    have sizes : q.timerHeapSize = q.timerIdsSize := h.loose.sizes
    have wide : 2 ≤ q.timerHeapSize := h.loose.wide
    split at ends <;> omega
  have same : general (dressed q.crontabTimers q.freeCrontabTimers (fun p => (q.nodes p).handler) q₁) = q₁ := by
    rw [rest]
    rfl
  rw [same]
  exact loose

theorem generalRelease (q : TimerQueue) (id : Int) :
    general (q.releaseTimerid id) = (general q).releaseTimerid id := by
  unfold releaseTimerid
  by_cases inside : 0 ≤ id ∧ id < q.timerIdsSize
  · rw [if_pos inside]
    exact (if_pos inside).symm
  · rw [if_neg inside]
    exact (if_neg inside).symm

theorem generalFree (type : (q.nodes p).type = .general) : general (q.freeNode p) = (general q).freeNode p := by
  have released : general (q.releaseTimerid (q.nodes p).timerId)
      = (general q).releaseTimerid ((general q).nodes p).timerId := generalRelease q _
  unfold freeNode
  have type₁ : ((q.releaseTimerid (q.nodes p).timerId).nodes p).type = .general := by
    rw [releaseNodes]
    exact type
  rw [← released,recycleGeneral type₁,recycleGeneral (q := general _) type₁]
  unfold general dressed
  congr 1
  funext z
  by_cases here : z = p
  · subst z
    simp
  · simp [here]

end Heap

/- A node of crontab timers, be it registered, free or lost. -/
def Cron (q : TimerQueue) (p : Ptr) : Prop := p < q.made ∧ (q.nodes p).type = .crontab

/- What every call keeps, with the nodes of the heap and of its free list. -/
structure Mixed (q : TimerQueue) (heap free : List Ptr) : Prop where
  loose : Loose (general q) heap free fun _ => False
  plain : ∀ p ∈ free, (q.nodes p).type = .general
  first : ∀ p ∈ q.crontabTimers, Cron q p
  freed : ∀ p ∈ q.freeCrontabTimers, Cron q p
  links : ∀ p, Cron q p → (∀ z ∈ (q.nodes p).next, Cron q z) ∧ ∀ z ∈ (q.nodes p).prev, Cron q z

def Kept (q : TimerQueue) : Prop := ∃ heap free, Mixed q heap free

/- A call that has to do with general timers only. -/
structure Beside (q q' : TimerQueue) : Prop where
  crontabTimers : q'.crontabTimers = q.crontabTimers
  freeCrontabTimers : q'.freeCrontabTimers = q.freeCrontabTimers
  made : q.made ≤ q'.made
  nodes : ∀ p, Cron q p → q'.nodes p = q.nodes p
  types : ∀ p, Cron q' p → Cron q p
  limit : q'.maxSize = q.maxSize
  wider : q.timerIdsSize ≤ q'.timerIdsSize

section Beside
variable {q q' q'' : TimerQueue} {heap free : List Ptr} {p : Ptr}

theorem besideRefl (q : TimerQueue) : Beside q q :=
  ⟨rfl,rfl,Nat.le_refl _,fun _ _ => rfl,fun _ cron => cron,rfl,Nat.le_refl _⟩

theorem cronBeside (h : Beside q q') (cron : Cron q p) : Cron q' p := by
  refine ⟨cron.1.trans_le h.made,?_⟩
  rw [h.nodes p cron]
  exact cron.2

theorem besideTrans (h : Beside q q') (h' : Beside q' q'') : Beside q q'' :=
  ⟨h'.crontabTimers.trans h.crontabTimers,h'.freeCrontabTimers.trans h.freeCrontabTimers,h.made.trans h'.made,
    fun p cron => (h'.nodes p (cronBeside h cron)).trans (h.nodes p cron),fun p cron => h.types p (h'.types p cron),
    h'.limit.trans h.limit,h.wider.trans h'.wider⟩

/- Arrays, table and calls apart, one node of a general timer is written. -/
theorem besideOne (rest : q' = { q with
      nodes := q'.nodes
      currSize := q'.currSize
      timerHeapSize := q'.timerHeapSize
      timerHeap := q'.timerHeap
      freeTimerNodes := q'.freeTimerNodes
      timerIds := q'.timerIds
      timerIdsSize := q'.timerIdsSize
      minTimerId := q'.minTimerId
      made := q'.made
      calls := q'.calls }) (made : q.made ≤ q'.made) (wider : q.timerIdsSize ≤ q'.timerIdsSize)
    (apart : ¬Cron q p) (type : (q'.nodes p).type = .general) (off : ∀ z, z ≠ p → q'.nodes z = q.nodes z)
    (fresh : ∀ z, q.made ≤ z → z < q'.made → z = p) : Beside q q' := by
  refine ⟨by rw [rest],by rw [rest],made,fun z cron => ?_,fun z cron => ?_,by rw [rest],wider⟩
  · exact off z fun same => apart (same ▸ cron)
  · have other : z ≠ p := by
      rintro rfl
      exact absurd (cron.2.symm.trans type) nofun
    refine ⟨Nat.lt_of_not_le fun late => other (fresh z late cron.1),?_⟩
    rw [← off z other]
    exact cron.2

theorem mixedBeside {heap' free' : List Ptr} (h : Mixed q heap free) (beside : Beside q q')
    (loose : Loose (general q') heap' free' fun _ => False) (plain : ∀ p ∈ free', (q'.nodes p).type = .general) :
    Mixed q' heap' free' := by
  refine ⟨loose,plain,?_,?_,fun p cron => ?_⟩
  · rw [beside.crontabTimers]
    exact fun p hp => cronBeside beside (h.first p hp)
  · rw [beside.freeCrontabTimers]
    exact fun p hp => cronBeside beside (h.freed p hp)
  · have before := beside.types p cron
    rw [beside.nodes p before]
    exact ⟨fun z hz => cronBeside beside ((h.links p before).1 z hz),
      fun z hz => cronBeside beside ((h.links p before).2 z hz)⟩

theorem heapType (h : Mixed q heap free) {z : Ptr} (mem : z ∈ heap) : (q.nodes z).type = .general :=
  h.loose.general z mem

theorem generalNot {z : Ptr} (type : (q.nodes z).type = .general) : ¬Cron q z :=
  fun cron => absurd (cron.2.symm.trans type) nofun

end Beside

section Generals
variable {q q' : TimerQueue} {heap free : List Ptr} {p : Ptr}

theorem freeIds (q : TimerQueue) (p : Ptr) : (q.freeNode p).timerIds = (q.releaseTimerid (q.ident p)).timerIds := by
  unfold freeNode
  rw [recycleRest]
  rfl

/- Which entry is cleared depends on the table and its size only. -/
theorem releaseIds (ids : q'.timerIds = q.timerIds) (size : q'.timerIdsSize = q.timerIdsSize) (id : Int) :
    (q'.releaseTimerid id).timerIds = (q.releaseTimerid id).timerIds := by
  unfold releaseTimerid
  rw [size]
  split
  · simp only [ids]
  · exact ids

theorem freeRest (type : (q.nodes p).type = .general) : q.freeNode p = { q with
      nodes := (q.freeNode p).nodes
      freeTimerNodes := (q.freeNode p).freeTimerNodes
      timerIds := (q.freeNode p).timerIds
      minTimerId := (q.freeNode p).minTimerId } ∧ ((q.freeNode p).nodes p).type = .general := by
  have type₁ : ((q.releaseTimerid (q.nodes p).timerId).nodes p).type = .general := by
    rw [releaseNodes]
    exact type
  unfold freeNode
  rw [recycleGeneral type₁]
  refine ⟨?_,?_⟩
  · unfold releaseTimerid
    split <;> rfl
  · simp only [Function.update_self]
    exact type₁

/- A node taken off the heap and freed. -/
theorem removeFreed {slot : Nat} (h : Mixed q heap free) (inside : slot < q.currSize) :
    ∃ q₁, q.remove slot = some (q.slotNode slot,q₁) ∧ q₁.nodes = q.nodes ∧
      ∀ c, Mixed ({ q₁ with calls := c }.freeNode (q.slotNode slot)) (heap.erase (q.slotNode slot))
          (q.slotNode slot :: free) ∧
        Beside q ({ q₁ with calls := c }.freeNode (q.slotNode slot)) := by
  obtain ⟨q₁,runs,outside,rest⟩ := generalRemove h.loose inside
  have nodes : q₁.nodes = q.nodes := by
    rw [rest]
    rfl
  have idents : q₁.ident = q.ident := by
    funext z
    simp only [ident,nodes]
  have mem : q.slotNode slot ∈ heap := looseMem h.loose inside
  have range : 0 ≤ q.ident (q.slotNode slot) ∧ q.ident (q.slotNode slot) < q.timerIdsSize :=
    h.loose.order.range _ mem
  have type := heapType h mem
  have made : q₁.made = q.made := by
    rw [rest]
    rfl
  have idsSize : q₁.timerIdsSize = q.timerIdsSize := by
    rw [rest]
    rfl
  refine ⟨q₁,runs,nodes,fun c => ?_⟩
  have type₁ : ({ q₁ with calls := c }.nodes (q.slotNode slot)).type = .general := by
    rw [← nodes] at type
    exact type
  have freed := freeRest type₁
  have beside : Beside q ({ q₁ with calls := c }.freeNode (q.slotNode slot)) := by
    refine besideOne ?_ ?_ ?_ (generalNot type) freed.2 (fun z other => ?_) fun z late early => ?_
    · rw [freed.1,rest]
      rfl
    · rw [freed.1]
      exact made.ge
    · rw [freed.1]
      exact idsSize.ge
    · rw [freeNodeNodes other]
      exact congrFun nodes z
    · rw [freed.1] at early
      change z < q₁.made at early
      omega
  refine ⟨mixedBeside h beside ?_ fun z hz => ?_,beside⟩
  · rw [generalFree type₁]
    have range₁ : 0 ≤ (general q₁).ident (q.slotNode slot) ∧
        (general q₁).ident (q.slotNode slot) < (general q₁).timerIdsSize := by
      have same : (general q₁).ident (q.slotNode slot) = q.ident (q.slotNode slot) :=
        congrFun idents (q.slotNode slot)
      have size : (general q₁).timerIdsSize = q.timerIdsSize := idsSize
      rw [same,size]
      exact range
    have typed : ((general q₁).nodes (q.slotNode slot)).type = .general := type₁
    refine TimerDrain.removedFree c ?_ typed range₁
    have same : (general q₁).ident (q.slotNode slot) = q.ident (q.slotNode slot) :=
      congrFun idents (q.slotNode slot)
    rw [same]
    exact outside
  · by_cases here : z = q.slotNode slot
    · subst z
      exact freed.2
    · rw [freeNodeNodes here]
      change (q₁.nodes z).type = .general
      rw [nodes]
      exact h.plain z ((List.mem_cons.1 hz).resolve_left here)

theorem mixedCalls (h : Mixed q heap free) (c : List Call) : Mixed { q with calls := c } heap free :=
  ⟨looseCalls h.loose c,h.plain,h.first,h.freed,h.links⟩

theorem besideCalls (q : TimerQueue) (c : List Call) : Beside q { q with calls := c } :=
  ⟨rfl,rfl,Nat.le_refl _,fun _ _ => rfl,fun _ cron => cron,rfl,Nat.le_refl _⟩

/- cancel by id finds no general timer, or takes the one its table entry points at. -/
theorem cancelGeneralTakes (h : Mixed q heap free) {id : Int} {dontCall : Bool}
    {r : Int × Option Arg × TimerQueue} (runs : q.cancelGeneral id dontCall = some r) :
    (q.timerIds id < 0 ∧ r.2.2 = q) ∨ ∃ z ∈ heap, 0 ≤ q.timerIds id ∧ q.heapAt (q.timerIds id).toNat = some z ∧
      q.ident z = id ∧ Mixed r.2.2 (heap.erase z) (z :: free) ∧ Beside q r.2.2 ∧
      ∀ y, y ≠ z → r.2.2.nodes y = q.nodes y := by
  unfold cancelGeneral at runs
  simp only at runs
  split at runs
  case isTrue none_ =>
    cases Option.some.inj runs
    exact .inl ⟨none_,rfl⟩
  case isFalse listed =>
    obtain ⟨i,hi,at',same⟩ := h.loose.points id not_false (not_lt.1 listed)
    have at' : q.timerIds id = i := at'
    have same : q.ident (q.slotNode i) = id := same
    have filled : q.heapAt i = some (q.slotNode i) := h.loose.order.filled i hi
    have mem : q.slotNode i ∈ heap := looseMem h.loose hi
    rw [at'] at runs listed ⊢
    simp only [Int.toNat_natCast,filled,bind,Option.bind] at runs
    split at runs
    case isTrue other => exact absurd same.symm other
    case isFalse =>
      obtain ⟨q₁,removed,nodes,frees⟩ := removeFreed h hi
      simp only [removed] at runs
      obtain ⟨c,calls⟩ := toldCalls q₁ (q₁.nodes (q.slotNode i)).handler dontCall
      simp only [calls] at runs
      cases Option.some.inj runs
      refine .inr ⟨q.slotNode i,mem,not_lt.1 listed,filled,same,(frees c).1,(frees c).2,fun y other => ?_⟩
      rw [freeNodeNodes other]
      exact congrFun nodes y

theorem cancelGeneralKeeps (h : Mixed q heap free) {id : Int} {dontCall : Bool}
    {r : Int × Option Arg × TimerQueue} (runs : q.cancelGeneral id dontCall = some r) :
    Kept r.2.2 ∧ Beside q r.2.2 := by
  rcases cancelGeneralTakes h runs with ⟨_,same⟩ | ⟨z,_,_,_,_,mixed,beside,_⟩
  · rw [same]
    exact ⟨⟨heap,free,h⟩,besideRefl q⟩
  · exact ⟨⟨_,_,mixed⟩,beside⟩

theorem cancelGeneralsKeeps {eh : Handler} {fuel i : Nat} {count : Int} (h : Mixed q heap free)
    {r : Int × TimerQueue} (runs : cancelGenerals eh fuel q i count = some r) : Kept r.2 ∧ Beside q r.2 := by
  induction fuel generalizing q heap free i count with
  | zero => cases runs
  | succ fuel ih =>
    simp only [cancelGenerals] at runs
    split at runs
    case isFalse =>
      cases Option.some.inj runs
      exact ⟨⟨heap,free,h⟩,besideRefl q⟩
    case isTrue inside =>
      have filled : q.heapAt i = some (q.slotNode i) := h.loose.order.filled i inside
      simp only [filled,bind,Option.bind] at runs
      split at runs
      case isFalse => exact ih h runs
      case isTrue =>
        obtain ⟨q₁,removed,_,frees⟩ := removeFreed h inside
        simp only [removed] at runs
        obtain ⟨kept,beside⟩ := ih (frees q₁.calls).1 runs
        exact ⟨kept,besideTrans (frees q₁.calls).2 beside⟩

theorem resetIntervalKeeps (h : Mixed q heap free) {id : Int} {interval : TimeValue}
    {r : Int × TimerQueue} (runs : q.resetInterval id interval = some r) : Kept r.2 ∧ Beside q r.2 := by
  cases intervalReset runs with
  | refused => exact ⟨⟨heap,free,h⟩,besideRefl q⟩
  | reset p listed filled =>
    -- the table points into the heap, so the node is a general timer's
    obtain ⟨i,hi,at',_⟩ := h.loose.points id not_false listed
    have at' : q.timerIds id = i := at'
    have held : q.heapAt i = some (q.slotNode i) := h.loose.order.filled i hi
    rw [at',Int.toNat_natCast,held] at filled
    cases Option.some.inj filled
    have type := heapType h (looseMem h.loose hi)
    have beside : Beside q (q.setNode (q.slotNode i) { q.nodes (q.slotNode i) with interval := interval }) :=
      besideOne (p := q.slotNode i) rfl (Nat.le_refl _) (Nat.le_refl _) (generalNot type)
        (by rw [intervalNodes]; exact type) (fun z other => by rw [intervalNodes,if_neg other])
        fun z late early => absurd early (Nat.not_lt_of_le late)
    refine ⟨⟨heap,free,mixedBeside h beside (looseCongr h.loose rfl h.loose.low (fun z _ => ?_) ?_
      h.loose.apart h.loose.made) fun z hz => ?_⟩,beside⟩
    · simp only [general,dressed,intervalNodes]
    · refine (segCongr fun z _ => ?_).2 h.loose.walk
      simp only [nextOf,general,dressed,intervalNodes]
    · rw [intervalNodes]
      exact h.plain z hz

/- One node off the heap and the free list is written. -/
theorem looseNode {except : Int → Prop} {free' : List Ptr} (h : Loose (general q) heap free except)
    (rest : q' = { q with
      nodes := q'.nodes
      freeTimerNodes := q'.freeTimerNodes
      freeCrontabTimers := q'.freeCrontabTimers
      crontabTimers := q'.crontabTimers
      minTimerId := q'.minTimerId
      made := q'.made
      calls := q'.calls })
    (low : 0 ≤ q'.minTimerId) (off : p ∉ heap ++ free') (others : ∀ z, z ≠ p → q'.nodes z = q.nodes z)
    (walk : Seg q.nextOf q'.freeTimerNodes free' none) (apart : (heap ++ free').Nodup)
    (made : ∀ z ∈ heap ++ free', z < q'.made) : Loose (general q') heap free' except := by
  have same : ∀ z ∈ heap ++ free', q'.nodes z = q.nodes z := fun z hz => others z fun eq => off (eq ▸ hz)
  refine looseCongr h ?_ low (fun z hz => ?_) ?_ apart made
  · unfold general dressed
    rw [rest]
  · simp only [general,dressed,same z (List.mem_append_left _ hz)]
  · refine (segCongr fun z hz => ?_).2 walk
    simp only [nextOf,general,dressed,same z (List.mem_append_right _ hz)]

/- The node schedule_i gets: it is a general timer's, and off both lists. -/
theorem allocMixed (h : Mixed q heap free) : ∃ p q₁ free', q.allocNode .general = (p,q₁) ∧
    Mixed q₁ heap free' ∧ p ∉ heap ++ free' ∧ p < q₁.made ∧ (q₁.nodes p).type = .general ∧ Beside q q₁ ∧
    q₁ = { q with nodes := q₁.nodes, freeTimerNodes := q₁.freeTimerNodes, made := q₁.made } ∧
    (∀ z, z ≠ p → q₁.nodes z = q.nodes z) ∧
    q₁.ident p = q.freeTimerNodes.elim (-1) q.ident := by
  unfold allocNode
  cases front : q.freeTimerNodes with
  | none =>
    have off : q.made ∉ heap ++ free := fun mem => Nat.lt_irrefl _ (h.loose.made _ mem)
    obtain ⟨q₁,def₁⟩ : ∃ q₁, q₁ = { q.setNode q.made { newNode with type := .general } with made := q.made + 1 } :=
      ⟨_,rfl⟩
    have nodes : q₁.nodes = Function.update q.nodes q.made { newNode with type := .general } := by
      rw [def₁]
      rfl
    have others : ∀ z, z ≠ q.made → q₁.nodes z = q.nodes z := fun z other => by
      rw [nodes,Function.update_of_ne other]
    have type : (q₁.nodes q.made).type = .general := by
      rw [nodes,Function.update_self]
    have made : q₁.made = q.made + 1 := by
      rw [def₁]
    have rest : q₁ = { q with nodes := q₁.nodes, freeTimerNodes := q₁.freeTimerNodes, made := q₁.made } := by
      rw [def₁]
      rfl
    have beside : Beside q q₁ := besideOne (p := q.made) (by rw [rest]) (by omega) (by rw [rest])
      (fun cron => Nat.lt_irrefl _ cron.1) type others fun z late early => by omega
    refine ⟨q.made,q₁,free,by rw [def₁],mixedBeside h beside (looseNode h.loose (by rw [rest]) (by rw [rest]; exact
      h.loose.low) off others ?_ h.loose.apart fun z hz => ?_) fun z hz => ?_,off,?_,type,beside,rest,others,
      ?_⟩
    · rw [def₁]
      exact h.loose.walk
    · exact (h.loose.made z hz).trans_le beside.made
    · rw [others z fun eq => off (List.mem_append_right _ (eq ▸ hz))]
      exact h.plain z hz
    · rw [made]
      exact Nat.lt_succ_self _
    · simp only [ident,nodes,Function.update_self]
      rfl
  | some p =>
    obtain ⟨rest_,split,walk⟩ := frontOf h.loose.walk front
    have apart := h.loose.apart
    rw [split] at apart
    obtain ⟨off,apart'⟩ := List.nodup_cons.1 (List.perm_middle.nodup_iff.1 apart)
    have before : ∀ z ∈ p :: (heap ++ rest_), z < q.made := fun z hz =>
      h.loose.made z (split ▸ List.perm_middle.symm.subset hz)
    have typeP : (q.nodes p).type = .general := h.plain p (split ▸ List.mem_cons_self)
    obtain ⟨q₁,def₁⟩ : ∃ q₁, q₁ = { q.setNode p { q.nodes p with next := none, type := .general } with
        freeTimerNodes := (q.nodes p).next } := ⟨_,rfl⟩
    have nodes : q₁.nodes = Function.update q.nodes p { q.nodes p with next := none, type := .general } := by
      rw [def₁]
      rfl
    have others : ∀ z, z ≠ p → q₁.nodes z = q.nodes z := fun z other => by
      rw [nodes,Function.update_of_ne other]
    have type : (q₁.nodes p).type = .general := by
      rw [nodes,Function.update_self]
    have made : q₁.made = q.made := by
      rw [def₁]
      rfl
    have rest : q₁ = { q with nodes := q₁.nodes, freeTimerNodes := q₁.freeTimerNodes, made := q₁.made } := by
      rw [def₁]
      rfl
    have beside : Beside q q₁ := besideOne (p := p) (by rw [rest]) (by omega) (by rw [rest])
      (generalNot typeP) type others fun z late early => by omega
    refine ⟨p,q₁,rest_,by rw [def₁],mixedBeside h beside (looseNode h.loose (by rw [rest]) (by rw [rest]; exact
      h.loose.low) off others ?_ apart' fun z hz => ?_) fun z hz => ?_,off,?_,type,beside,rest,others,?_⟩
    · rw [def₁]
      exact walk
    · rw [made]
      exact before z (List.mem_cons_of_mem p hz)
    · rw [others z fun eq => off (List.mem_append_right _ (eq ▸ hz))]
      exact h.plain z (split ▸ List.mem_cons_of_mem p hz)
    · rw [made]
      exact before p List.mem_cons_self
    · simp only [ident,nodes,Function.update_self]
      rfl

/- What schedule_i asks of a growth of the arrays: the doubled size is an int. -/
def Doubles (q : TimerQueue) : Prop := q.timerHeapSize ≤ q.currSize + 1 → q.currSize * 2 ≤ intMax

/- There is room and an id: what is left to do is to insert the node. -/
theorem scheduleNode (h : Mixed q heap free) (below : (q.currSize : Int) < q.maxSize) {k : Int}
    (got : q.freeId = some k) (eh : Option Handler) (arg : Arg) (deadline interval : TimeValue) :
    ∃ p q₂ free', q.scheduleI eh arg deadline interval = (q₂.insert p).map (k,·) ∧
      Outside (general q₂) heap free' (fun _ => False) p ∧ Mixed q₂ heap free' ∧ Beside q q₂ ∧
      (q₂.nodes p).type = .general ∧ q₂.ident p = k ∧ q₂.value p = deadline ∧ 0 ≤ k ∧ k < q.timerIdsSize ∧
      (∀ z ∈ heap, q₂.nodes z = q.nodes z) ∧ q₂ = { q with
        nodes := q₂.nodes
        freeTimerNodes := q₂.freeTimerNodes
        made := q₂.made
        minTimerId := q.minTimerId + 1 } := by
  obtain ⟨p,q₁,free',alloc,mixed,off,made,type,beside,rest,others,last⟩ := allocMixed h
  have got₁ : q₁.freeId = some k := by
    rw [rest]
    exact got
  obtain ⟨least,high,_,_⟩ := firstFreeSound got
  have low : 0 ≤ q₁.minTimerId := mixed.loose.low
  have same : q₁.minTimerId = q.minTimerId := by rw [rest]
  have given : k ≠ -1 := by omega
  obtain ⟨n,hn⟩ : ∃ n, n = { (q₁.nodes p) with
    timerId := k, handler := eh, arg := arg, timerValue := deadline,
    interval := interval, prev := none, next := none, type := .general } := ⟨_,rfl⟩
  obtain ⟨q₂,def₂⟩ : ∃ q₂, q₂ = setNode { q₁ with minTimerId := q₁.minTimerId + 1 } p n := ⟨_,rfl⟩
  have nodes₂ : q₂.nodes = Function.update q₁.nodes p n := by
    rw [def₂]
    rfl
  have others₂ : ∀ z, z ≠ p → q₂.nodes z = q₁.nodes z := fun z other => by
    rw [nodes₂,Function.update_of_ne other]
  have nodeAt : q₂.nodes p = n := by
    rw [nodes₂,Function.update_self]
  have type₂ : (q₂.nodes p).type = .general := by
    rw [nodeAt,hn]
  have size : q₂.timerIdsSize = q₁.timerIdsSize := by
    rw [def₂]
    rfl
  have beside₂ : Beside q₁ q₂ := by
    refine besideOne (p := p) (by rw [def₂]; rfl) (by rw [def₂]; exact Nat.le_refl _) size.ge (generalNot type)
      type₂ others₂ fun z late early => ?_
    rw [def₂] at early
    exact absurd early (Nat.not_lt_of_le late)
  have loose₂ : Loose (general q₂) heap free' fun _ => False := by
    refine looseNode mixed.loose (by rw [def₂]; rfl) ?_ off others₂ ?_ mixed.loose.apart fun z hz => ?_
    · rw [def₂]
      exact Int.le_add_one low
    · rw [def₂]
      exact mixed.loose.walk
    · rw [def₂]
      exact mixed.loose.made z hz
  have outside : Outside (general q₂) heap free' (fun _ => False) p := by
    refine ⟨loose₂,off,?_⟩
    rw [def₂]
    exact made
  refine ⟨p,q₂,free',?_,outside,mixedBeside mixed beside₂ loose₂ fun z hz => ?_,besideTrans beside beside₂,type₂,
    by simp only [ident,nodeAt,hn],by simp only [value,nodeAt,hn],by omega,by omega,fun z hz => ?_,?_⟩
  · unfold scheduleI
    rw [if_neg (by omega)]
    simp only [alloc,allocTimeridGives got₁]
    have again : setNode { q₁ with minTimerId := q₁.minTimerId + 1 } p { q₁.nodes p with
        timerId := k, handler := eh, arg := arg, timerValue := deadline,
        interval := interval, prev := none, next := none, type := .general } = q₂ := by rw [def₂,hn]
    rw [again]
  · rw [others₂ z fun eq => off (List.mem_append_right _ (eq ▸ hz))]
    exact mixed.plain z hz
  · have other : z ≠ p := fun eq => off (List.mem_append_left _ (eq ▸ hz))
    rw [others₂ z other,others z other]
  · rw [def₂,rest]
    rfl

theorem scheduleStuck (h : Mixed q heap free) (below : (q.currSize : Int) < q.maxSize) {k : Int}
    (got : q.freeId = some k) (large : ¬Doubles q) (eh : Option Handler) (arg : Arg) (deadline interval : TimeValue) :
    q.scheduleI eh arg deadline interval = none := by
  obtain ⟨p,q₂,_,runs,_,_,_,type,_,_,_,_,_,rest⟩ := scheduleNode h below got eh arg deadline interval
  obtain ⟨full,tooMany⟩ := Classical.not_imp.1 large
  have sizes : q₂.timerHeapSize = q.timerHeapSize ∧ q₂.currSize = q.currSize := by
    rw [rest]
    exact ⟨rfl,rfl⟩
  have stuck : q₂.growHeap = none := by
    unfold growHeap
    refine if_neg fun both => tooMany ?_
    rw [← sizes.2]
    exact both.1
  have made : q₂.makeRoom = none := by
    unfold makeRoom
    rw [sizes.1,sizes.2,if_pos full,stuck]
  rw [runs]
  unfold TimerQueue.insert
  rw [type]
  simp only [insertGeneral,made,bind,Option.bind,Option.map]

theorem scheduleRefused (h : Mixed q heap free) (below : (q.currSize : Int) < q.maxSize) (none_ : q.freeId = none)
    (eh : Option Handler) (arg : Arg) (deadline interval : TimeValue) :
    ∃ p q' free', q.scheduleI eh arg deadline interval = some (-1,q') ∧ Mixed q' heap free' ∧ Beside q q' ∧
      p ∉ heap ∧ (∀ z, z ≠ p → q'.nodes z = q.nodes z) ∧
      q' = { q with
        nodes := q'.nodes
        freeTimerNodes := q'.freeTimerNodes
        made := q'.made
        timerIds := q'.timerIds
        minTimerId := q'.minTimerId } ∧
      q'.timerIds = (q.releaseTimerid (q.freeTimerNodes.elim (-1) q.ident)).timerIds := by
  obtain ⟨p,q₁,free',alloc,mixed,off,made,type,beside,rest,others,last⟩ := allocMixed h
  have none₁ : q₁.freeId = none := by
    rw [rest]
    exact none_
  have refused := allocTimeridRefuses none₁
  have freed := freeRest type
  have beside' : Beside q₁ (q₁.freeNode p) := by
    refine besideOne (p := p) ?_ ?_ ?_ (generalNot type) freed.2 (fun z other => freeNodeNodes other)
      fun z late early => ?_
    · rw [freed.1]
    · rw [freed.1]
    · rw [freed.1]
    · rw [freed.1] at early
      exact absurd early (Nat.not_lt_of_le late)
  refine ⟨p,q₁.freeNode p,p :: free',?_,mixedBeside mixed beside' ?_ fun z hz => ?_,besideTrans beside beside',
    fun mem => off (List.mem_append_left _ mem),fun z other => (freeNodeNodes other).trans (others z other),?_,?_⟩
  · unfold scheduleI
    rw [if_neg (by omega)]
    simp only [alloc,refused]
  · rw [generalFree type]
    have outside : Outside (general q₁) heap free' (fun _ => False) p := ⟨mixed.loose,off,made⟩
    exact looseMono (looseFree outside type fun is => is.elim) fun k both => both.1
  · by_cases here : z = p
    · subst z
      exact freed.2
    · rw [freeNodeNodes here]
      exact mixed.plain z ((List.mem_cons.1 hz).resolve_left here)
  · rw [freed.1,rest]
  · rw [freeIds,last]
    exact releaseIds (by rw [rest]) (by rw [rest]) _

/- A timer that is scheduled goes to the end of the heap's nodes. -/
theorem scheduleAdds (h : Mixed q heap free) (below : (q.currSize : Int) < q.maxSize) {k : Int}
    (got : q.freeId = some k) (doubles : Doubles q) (eh : Option Handler) (arg : Arg) (deadline interval : TimeValue) :
    ∃ p q' free', q.scheduleI eh arg deadline interval = some (k,q') ∧ Mixed q' (heap ++ [p]) free' ∧
      Beside q q' ∧ 0 ≤ k ∧ q'.ident p = k ∧ (∀ z ∈ heap, q'.nodes z = q.nodes z) ∧
      q'.currSize = q.currSize + 1 ∧
      if q.timerHeapSize ≤ q.currSize + 1 then
        q'.minTimerId = q.currSize ∧ q'.timerIdsSize = (min ((q.currSize * 2 : Nat) : Int) q.maxSize).toNat
      else q'.minTimerId = q.minTimerId + 1 ∧ q'.timerIdsSize = q.timerIdsSize := by
  obtain ⟨p,q₂,free',runs,outside,mixed₂,beside₂,type₂,self,_,nonneg,inside,same,rest₂⟩ :=
    scheduleNode h below got eh arg deadline interval
  have sizes : q₂.currSize = q.currSize ∧ q₂.maxSize = q.maxSize ∧ q₂.timerIdsSize = q.timerIdsSize ∧
      q₂.timerHeapSize = q.timerHeapSize ∧ q₂.minTimerId = q.minTimerId + 1 := by
    rw [rest₂]
    exact ⟨rfl,rfl,rfl,rfl,rfl⟩
  obtain ⟨q',inserted,loose,wider,insRest⟩ := generalInsert outside type₂ (by rw [self]; omega) (by omega)
    (by rw [sizes.2.2.2.1,sizes.1]; exact doubles)
  have nodes' : q'.nodes = q₂.nodes := by rw [insRest]
  have beside' : Beside q₂ q' := by
    refine ⟨by rw [insRest],by rw [insRest],by rw [insRest],fun z _ => congrFun nodes' z,fun z cron => ?_,
      by rw [insRest],wider⟩
    have made' : q'.made = q₂.made := by rw [insRest]
    exact ⟨made' ▸ cron.1,nodes' ▸ cron.2⟩
  have ends := insertSizes type₂ inserted
  rw [sizes.1,sizes.2.1,sizes.2.2.1,sizes.2.2.2.1,sizes.2.2.2.2] at ends
  refine ⟨p,q',free',?_,mixedBeside mixed₂ beside' (looseMono loose fun _ both => both.1) fun z hz => ?_,
    besideTrans beside₂ beside',nonneg,?_,fun z hz => ?_,ends.1,ends.2⟩
  · rw [runs,inserted]
    rfl
  · rw [nodes']
    exact mixed₂.plain z hz
  · rw [← self]
    simp only [ident,nodes']
  · rw [nodes',same z hz]

theorem scheduleKeeps (h : Mixed q heap free) {eh : Option Handler} {arg : Arg} {deadline interval : TimeValue}
    {r : Int × TimerQueue} (runs : q.scheduleI eh arg deadline interval = some r) : Kept r.2 ∧ Beside q r.2 := by
  by_cases below : (q.currSize : Int) < q.maxSize
  · cases got : q.freeId with
    | none =>
      obtain ⟨p,q',free',gives,mixed,beside,_,_⟩ := scheduleRefused h below got eh arg deadline interval
      cases Option.some.inj (gives.symm.trans runs)
      exact ⟨⟨_,_,mixed⟩,beside⟩
    | some k =>
      by_cases doubles : Doubles q
      · obtain ⟨p,q',free',gives,mixed,beside,_⟩ := scheduleAdds h below got doubles eh arg deadline interval
        cases Option.some.inj (gives.symm.trans runs)
        exact ⟨⟨_,_,mixed⟩,beside⟩
      · exact absurd ((scheduleStuck h below got doubles eh arg deadline interval).symm.trans runs) nofun
  · have full : q.scheduleI eh arg deadline interval = some (-1,q) := if_pos (by omega)
    cases Option.some.inj (full.symm.trans runs)
    exact ⟨⟨_,_,h⟩,besideRefl q⟩

/- dispatch_timer with the earliest timer due: a periodic one is back with its next
deadline, any other one is on the free list. -/
theorem dispatchBack (h : Mixed q heap free) (inside : 0 < q.currSize) {current : TimeValue}
    (early : q.value (q.slotNode 0) ≤ current) (periodic : .zero < (q.nodes (q.slotNode 0)).interval) : ∃ v q',
      q.dispatchTimer current = some (some (q.nodes (q.slotNode 0)),q') ∧
      Mixed q' (heap.erase (q.slotNode 0) ++ [q.slotNode 0]) free ∧ Beside q q' ∧
      q'.nodes = Function.update q.nodes (q.slotNode 0) { q.nodes (q.slotNode 0) with timerValue := v } ∧
      q'.calls = q.calls := by
  have filled : q.heapAt 0 = some (q.slotNode 0) := h.loose.order.filled 0 inside
  have mem : q.slotNode 0 ∈ heap := looseMem h.loose inside
  have type := heapType h mem
  have early : (q.nodes (q.slotNode 0)).timerValue ≤ current := early
  obtain ⟨q₁,removed,outside,rest⟩ := generalRemove h.loose inside
  have nodes : q₁.nodes = q.nodes := by
    rw [rest]
    rfl
  obtain ⟨v,ends⟩ := TimeValue.skipPastRuns periodic current (q.nodes (q.slotNode 0)).timerValue
  obtain ⟨q₂,def₂⟩ : ∃ q₂, q₂ = q₁.setNode (q.slotNode 0) { q.nodes (q.slotNode 0) with timerValue := v } := ⟨_,rfl⟩
  have nodes₂ : q₂.nodes
      = Function.update q.nodes (q.slotNode 0) { q.nodes (q.slotNode 0) with timerValue := v } := by
    rw [def₂,← nodes]
    rfl
  have others₂ : ∀ z, z ≠ q.slotNode 0 → q₂.nodes z = q.nodes z := fun z other => by
    rw [nodes₂,Function.update_of_ne other]
  have type₂ : (q₂.nodes (q.slotNode 0)).type = .general := by
    rw [nodes₂,Function.update_self]
    exact type
  have self : q₂.ident (q.slotNode 0) = q.ident (q.slotNode 0) := by
    simp only [ident,nodes₂,Function.update_self]
  have sizes : q₂.currSize = q.currSize - 1 ∧ q₂.maxSize = q.maxSize ∧ q₂.timerIdsSize = q.timerIdsSize ∧
      q₂.timerHeapSize = q.timerHeapSize ∧ q₂.made = q.made ∧ q₂.calls = q.calls := by
    rw [def₂,rest]
    exact ⟨rfl,rfl,rfl,rfl,rfl,rfl⟩
  have beside₂ : Beside q q₂ := by
    refine besideOne (p := q.slotNode 0) ?_ sizes.2.2.2.2.1.ge sizes.2.2.1.ge (generalNot type) type₂ others₂
      fun z late early => absurd early (by omega)
    rw [def₂,rest]
    rfl
  have outside₂ : Outside (general q₂) (heap.erase (q.slotNode 0)) free (fun k => k = q.ident (q.slotNode 0))
      (q.slotNode 0) := by
    refine ⟨looseNode outside.loose (p := q.slotNode 0) ?_ ?_ outside.off (fun z other => ?_) ?_
      outside.loose.apart fun z hz => ?_,outside.off,?_⟩
    · rw [def₂]
      rfl
    · rw [def₂]
      exact outside.loose.low
    · rw [others₂ z other,nodes]
    · rw [def₂]
      exact outside.loose.walk
    · rw [def₂]
      exact outside.loose.made z hz
    · rw [def₂]
      exact outside.made
  have under : q.currSize = 0 ∨ (q.currSize : Int) ≤ q.maxSize := h.loose.under
  have doubles : q.timerHeapSize ≤ q.currSize → (q.currSize - 1) * 2 ≤ intMax := h.loose.doubles
  have range : 0 ≤ q.ident (q.slotNode 0) ∧ q.ident (q.slotNode 0) < q.timerIdsSize := h.loose.order.range _ mem
  obtain ⟨q',inserted,loose,wider,insRest⟩ := generalInsert outside₂ type₂ (by rw [self]; omega) (by omega)
    (by rw [sizes.1,sizes.2.2.2.1]; intro full; exact doubles (by omega))
  have nodes' : q'.nodes = q₂.nodes := by rw [insRest]
  have made' : q'.made = q₂.made := by rw [insRest]
  have calls' : q'.calls = q₂.calls := by rw [insRest]
  have beside' : Beside q₂ q' :=
    ⟨by rw [insRest],by rw [insRest],made'.ge,fun z _ => congrFun nodes' z,
      fun z cron => ⟨made' ▸ cron.1,nodes' ▸ cron.2⟩,by rw [insRest],wider⟩
  have beside := besideTrans beside₂ beside'
  refine ⟨v,q',?_,mixedBeside h beside (looseMono loose fun k both => both.2 (self ▸ both.1)) fun z hz => ?_,beside,
    nodes'.trans nodes₂,calls'.trans sizes.2.2.2.2.2⟩
  · simp only [dispatchTimer,filled,if_pos early,removed,rearm,nodes,if_pos periodic,ends,← def₂,inserted,bind,Option.bind]
  · have off : z ≠ q.slotNode 0 := fun eq => outside.off (List.mem_append_right _ (eq ▸ hz))
    rw [nodes',others₂ z off]
    exact h.plain z hz

theorem dispatchGone (h : Mixed q heap free) (inside : 0 < q.currSize) {current : TimeValue}
    (early : q.value (q.slotNode 0) ≤ current) (once : ¬.zero < (q.nodes (q.slotNode 0)).interval) : ∃ q',
      q.dispatchTimer current = some (some (q.nodes (q.slotNode 0)),q') ∧
      Mixed q' (heap.erase (q.slotNode 0)) (q.slotNode 0 :: free) ∧ Beside q q' ∧
      (∀ z, z ≠ q.slotNode 0 → q'.nodes z = q.nodes z) := by
  have filled : q.heapAt 0 = some (q.slotNode 0) := h.loose.order.filled 0 inside
  have early : (q.nodes (q.slotNode 0)).timerValue ≤ current := early
  obtain ⟨q₁,removed,nodes,frees⟩ := removeFreed h inside
  refine ⟨q₁.freeNode (q.slotNode 0),?_,(frees q₁.calls).1,(frees q₁.calls).2,fun z other => ?_⟩
  · simp only [dispatchTimer,filled,if_pos early,removed,rearm,nodes,if_neg once,bind,Option.bind]
  · rw [freeNodeNodes other,nodes]

/- A due timer is dispatched, whatever its interval. -/
theorem dispatchDue (h : Mixed q heap free) (inside : 0 < q.currSize) {current : TimeValue}
    (early : q.value (q.slotNode 0) ≤ current) : ∃ q',
      q.dispatchTimer current = some (some (q.nodes (q.slotNode 0)),q') ∧ Kept q' ∧ Beside q q' := by
  by_cases periodic : .zero < (q.nodes (q.slotNode 0)).interval
  · obtain ⟨_,q',dispatched,mixed,beside,_⟩ := dispatchBack h inside early periodic
    exact ⟨q',dispatched,⟨_,_,mixed⟩,beside⟩
  · obtain ⟨q',dispatched,mixed,beside,_⟩ := dispatchGone h inside early periodic
    exact ⟨q',dispatched,⟨_,_,mixed⟩,beside⟩

/- Until the earliest timer is due there is nothing to dispatch. -/
theorem dispatchLate (h : Mixed q heap free) (inside : 0 < q.currSize) {current : TimeValue}
    (late : ¬q.value (q.slotNode 0) ≤ current) : q.dispatchTimer current = some (none,q) := by
  have filled : q.heapAt 0 = some (q.slotNode 0) := h.loose.order.filled 0 inside
  have late : ¬(q.nodes (q.slotNode 0)).timerValue ≤ current := late
  simp only [dispatchTimer,filled,if_neg late,bind,Option.bind]

/- dispatch_timer on a queue that holds a timer: the earliest one is not due, or it
is off the heap, or it is back with its next deadline. -/
theorem dispatchKeeps (h : Mixed q heap free) (inside : 0 < q.currSize) {current : TimeValue}
    {r : Option TimerNode × TimerQueue} (runs : q.dispatchTimer current = some r) : Kept r.2 ∧ Beside q r.2 := by
  by_cases early : q.value (q.slotNode 0) ≤ current
  · obtain ⟨q',dispatched,kept,beside⟩ := dispatchDue h inside early
    cases Option.some.inj (dispatched.symm.trans runs)
    exact ⟨kept,beside⟩
  · cases Option.some.inj ((dispatchLate h inside early).symm.trans runs)
    exact ⟨⟨_,_,h⟩,besideRefl q⟩

end Generals

end CuteNdk.TimerMixed
