import CuteNdk.TimerInvariant

/-! What each operation of timer_queue does to the timers it holds, for a queue
whose table is right: which node comes or goes, that the others are as they were,
and where the table and the sizes end up. -/
namespace CuteNdk.TimerQueue
open Lib.BinaryHeap (indexedMem indexedSlot)

/- A general timer as its user sees it. -/
structure Timer where
  id : Int
  handler : Option Handler
  arg : Arg
  deadline : TimeValue
  interval : TimeValue
  deriving DecidableEq, Repr

def timer (q : TimerQueue) (p : Ptr) : Timer :=
  ⟨q.ident p,(q.nodes p).handler,(q.nodes p).arg,q.value p,(q.nodes p).interval⟩

def heapTimers (q : TimerQueue) (ls : Lists) : List Timer := ls.heap.map q.timer

/- The shape together with a table that is right about every id. -/
structure Sound (q : TimerQueue) (ls : Lists) : Prop where
  shape : Shape q ls
  vacant : Vacant q (q.heapIds ls)

section TakeOut
variable {q : TimerQueue} {ls : Lists} {slot : Nat}

def Lists.retire (ls : Lists) (p : Ptr) : Lists := { ls.drop p with free := p :: ls.free }

/- The general timer of node p is gone and every other is as it was. -/
structure TakenOut (q q' : TimerQueue) (ls : Lists) (p : Ptr) : Prop where
  sound : Sound q' (ls.retire p)
  nodes : ∀ z, z ≠ p → q'.nodes z = q.nodes z
  currSize : q'.currSize = q.currSize - 1
  maxSize : q'.maxSize = q.maxSize
  heapSize : q'.timerHeapSize = q.timerHeapSize
  minTimerId : q'.minTimerId = min (q.ident p) q.minTimerId
  crontabTimers : q'.crontabTimers = q.crontabTimers

theorem recycleRest (q : TimerQueue) (p : Ptr) : q.recycle p = { q with
    nodes := (q.recycle p).nodes
    freeTimerNodes := (q.recycle p).freeTimerNodes
    freeCrontabTimers := (q.recycle p).freeCrontabTimers } := by
  unfold recycle
  split <;> rfl

theorem recycleNodes {q : TimerQueue} {p z : Ptr} (other : z ≠ p) :
    (q.recycle p).nodes z = q.nodes z := by
  unfold recycle
  split <;> exact Function.update_of_ne other _ _

theorem freeNodeNodes {q : TimerQueue} {p z : Ptr} (other : z ≠ p) :
    (q.freeNode p).nodes z = q.nodes z := by
  unfold freeNode
  rw [recycleNodes other,releaseNodes]

theorem retiredIds {q q' : TimerQueue} {ls : Lists} {p : Ptr} (nodes : ∀ z, z ≠ p → q'.nodes z = q.nodes z)
    (off : p ∉ (ls.drop p).all) : q'.heapIds (ls.retire p) = q.heapIds (ls.drop p) := by
  refine List.map_congr_left fun z hz => ?_
  have other : z ≠ p := fun same => off (memAll.mpr (.inl (same ▸ hz)))
  simp only [ident,nodes z other]

/- What remove leaves: the node is in nobody's hands but the caller's, and the
table still has its entry. -/
structure Removed (q q₁ : TimerQueue) (ls : Lists) (p : Ptr) : Prop where
  mem : p ∈ ls.heap
  held : Held q₁ (ls.drop p) p
  nodes : q₁.nodes = q.nodes
  vacant : Vacant q₁ (q.ident p :: q.heapIds (ls.drop p))
  clear : q.ident p ∉ q.heapIds (ls.drop p)
  range : 0 ≤ q.ident p ∧ q.ident p < q₁.timerIdsSize
  rest : q₁ = { q with
    currSize := q.currSize - 1, timerHeap := q₁.timerHeap, timerIds := q₁.timerIds }

theorem removeRuns (h : Sound q ls) (inside : slot < q.currSize) :
    ∃ q₁, q.remove slot = some (q.slotNode slot,q₁) ∧ Removed q q₁ ls (q.slotNode slot) := by
  obtain ⟨q₁,runs,held,moved⟩ := removeHeld h.shape inside
  set p := q.slotNode slot with hp
  have mem : p ∈ ls.heap := indexedMem h.shape.heap.indexed inside
  have range := h.shape.heap.range p mem
  have clear := removedClear h.shape inside
  rw [← hp] at clear
  refine ⟨q₁,runs,mem,held,by rw [moved.rest]; rfl,?_,clear,?_,moved.rest⟩
  · refine vacantRearranged (q := q.shrunk) ?_ moved fun z hz =>
      List.mem_cons_of_mem _ (List.mem_map_of_mem hz)
    refine vacantMono (q := q.shrunk) h.vacant fun k hk => ?_
    obtain ⟨z,hz,rfl⟩ := List.mem_map.mp hk
    by_cases same : z = p
    · exact same ▸ List.mem_cons_self
    · exact List.mem_cons_of_mem _ (List.mem_map_of_mem ((List.mem_erase_of_ne same).mpr hz))
  · rw [show q₁.timerIdsSize = q.timerIdsSize by rw [moved.rest]; rfl]
    exact range

/- free_node after remove, whatever calls were made in between. -/
theorem removedFreed {q₁ : TimerQueue} {p : Ptr} (h : Sound q ls) (removed : Removed q q₁ ls p)
    (c : List Call) : TakenOut q ({ q₁ with calls := c }.freeNode p) ls p := by
  have idents : q₁.ident = q.ident := by funext z; simp only [ident,removed.nodes]
  have heldCall : Held { q₁ with calls := c } (ls.drop p) p :=
    ⟨shapeCongr removed.held.shape rfl removed.held.shape.low (Nat.le_refl _) fun _ _ => rfl,
      removed.held.off,removed.held.made⟩
  have clear : ident { q₁ with calls := c } p ∉ heapIds { q₁ with calls := c } (ls.drop p) := by
    change q₁.ident p ∉ (ls.drop p).heap.map q₁.ident
    rw [idents]
    exact removed.clear
  have general : (q₁.nodes p).type = .general := by
    rw [removed.nodes]
    exact h.shape.general p removed.mem
  have others : ∀ z, z ≠ p → (freeNode { q₁ with calls := c } p).nodes z = q.nodes z := fun z other => by
    rw [freeNodeNodes other,removed.nodes]
  have range : 0 ≤ q₁.ident p ∧ q₁.ident p < q₁.timerIdsSize := by
    rw [idents]
    exact removed.range
  have release : freeNode { q₁ with calls := c } p =
      ({ q₁ with
        calls := c
        timerIds := Function.update q₁.timerIds (q₁.ident p) (-1)
        minTimerId := min (q₁.ident p) q₁.minTimerId } : TimerQueue).recycle p := by
    unfold freeNode releaseTimerid
    exact congrArg (fun r => recycle r p) (if_pos range)
  have rest := recycleRest ({ q₁ with
        calls := c
        timerIds := Function.update q₁.timerIds (q₁.ident p) (-1)
        minTimerId := min (q₁.ident p) q₁.minTimerId } : TimerQueue) p
  rw [← release] at rest
  refine ⟨⟨(heldFree heldCall clear).1 general,?_⟩,others,?_,?_,?_,?_,?_⟩
  · rw [retiredIds others removed.held.off]
    have after := vacantRelease removed.vacant
    unfold releaseTimerid at after
    rw [if_pos removed.range] at after
    rw [rest,idents]
    exact after
  · rw [rest,removed.rest]
  · rw [rest,removed.rest]
  · rw [rest,removed.rest]
  · rw [rest,idents,removed.rest]
  · rw [rest,removed.rest]

theorem closeCalls (q : TimerQueue) (eh : Option Handler) :
    ∃ c, q.handleClose eh = { q with calls := c } := by
  cases eh with
  | none => exact ⟨q.calls,rfl⟩
  | some eh => exact ⟨_,rfl⟩

/- A cancel that may call only adds to the calls. -/
theorem toldCalls (q : TimerQueue) (eh : Option Handler) (dontCall : Bool) :
    ∃ c, (if dontCall then q else q.handleClose eh) = { q with calls := c } := by
  cases dontCall with
  | true => exact ⟨q.calls,rfl⟩
  | false => exact closeCalls q eh

/- The table finds a general timer by its id, and finds no other id. -/
theorem cancelGeneralMisses (h : Sound q ls) {id : Int} (low : 0 ≤ id) (high : id < q.timerIdsSize)
    (off : id ∉ q.heapIds ls) (dontCall : Bool) :
    q.cancelGeneral id dontCall = some (-1,none,q) := by
  unfold cancelGeneral
  rw [h.vacant id low high off]
  rfl

theorem cancelGeneralTakes (h : Sound q ls) {p : Ptr} (mem : p ∈ ls.heap) (dontCall : Bool) :
    ∃ q', q.cancelGeneral (q.ident p) dontCall = some (0,some (q.nodes p).arg,q') ∧
      TakenOut q q' ls p := by
  obtain ⟨i,inside,here,at'⟩ := indexedSlot h.shape.heap.indexed mem
  obtain ⟨q₁,runs,removed⟩ := removeRuns h inside
  rw [here] at runs removed
  have nodes := removed.nodes
  have taken := removedFreed h removed
  have slot : ¬ ((i : Int) < 0) := by omega
  have entry : q.timerIds (q.nodes p).timerId = i := at'
  unfold cancelGeneral
  simp only [entry,if_neg slot,Int.toNat_natCast,h.shape.heap.filled i inside,here,ident,runs,nodes,
    bind,Option.bind,ne_eq,not_true_eq_false,if_false]
  obtain ⟨c,calls⟩ := toldCalls q₁ (q.nodes p).handler dontCall
  simp only [calls]
  exact ⟨_,rfl,taken c⟩

theorem heapNodup (h : Shape q ls) : ls.heap.Nodup := by
  have nodup := h.apart
  unfold Lists.all at nodup
  exact ((nodup.of_append_left).of_append_left).of_append_left

def hasHandler (q : TimerQueue) (eh : Handler) (p : Ptr) : Bool :=
  decide ((q.nodes p).handler = some eh)

/- What is left when every general timer with a handler is gone. -/
structure Cleared (q q' : TimerQueue) (ls ls' : Lists) (eh : Handler) : Prop where
  crontab : ls'.crontab = ls.crontab
  heap : ls'.heap.Perm (ls.heap.filter fun p => !q.hasHandler eh p)
  nodes : ∀ p ∈ ls'.heap ++ ls.crontab, q'.nodes p = q.nodes p

theorem clearedStep {q' q₂ : TimerQueue} {ls₂ : Lists} {p : Ptr} {eh : Handler} (h : Sound q ls)
    (mem : p ∈ ls.heap) (has : q.hasHandler eh p = true) (taken : TakenOut q q' ls p)
    (rest : Cleared q' q₂ (ls.retire p) ls₂ eh) :
    Cleared q q₂ ls ls₂ eh ∧
      ls.heap.countP (q.hasHandler eh) = (ls.retire p).heap.countP (q'.hasHandler eh) + 1 := by
  have order := List.perm_cons_erase mem
  have gone : p ∉ ls.heap.erase p := (heapNodup h.shape).not_mem_erase
  have offCrontab : p ∉ ls.crontab := fun hp => by
    have nodup := h.shape.apart
    simp only [Lists.all,List.nodup_append] at nodup
    exact nodup.1.1.2.2 p mem p hp rfl
  have same : ∀ z ∈ ls.heap.erase p, q'.hasHandler eh z = q.hasHandler eh z := fun z hz => by
    have other : z ≠ p := fun eq => gone (eq ▸ hz)
    simp only [hasHandler,taken.nodes z other]
  have kept : ls₂.heap.Perm ((ls.heap.erase p).filter fun z => !q.hasHandler eh z) := by
    have eq : (ls.retire p).heap.filter (fun z => !q'.hasHandler eh z)
        = (ls.heap.erase p).filter fun z => !q.hasHandler eh z :=
      List.filter_congr fun z hz => by rw [same z hz]
    exact eq ▸ rest.heap
  refine ⟨⟨rest.crontab,?_,fun z hz => ?_⟩,?_⟩
  · refine kept.trans ?_
    have all := order.filter fun z => !q.hasHandler eh z
    rw [List.filter_cons_of_neg (by simp [has])] at all
    exact all.symm
  · have other : z ≠ p := by
      rintro rfl
      rcases List.mem_append.mp hz with hz | hz
      · exact gone (List.mem_of_mem_filter (kept.subset hz))
      · exact offCrontab hz
    rw [rest.nodes z hz,taken.nodes z other]
  · rw [order.countP_eq,List.countP_cons_of_pos has]
    exact congrArg (· + 1) (List.countP_congr fun z hz => by rw [same z hz]).symm

/- The loop over the general timers: no slot before i holds the handler, and each
removal starts over. Whatever one removal keeps, the loop keeps. -/
theorem cancelGeneralsClears {I : TimerQueue → Lists → Prop} {eh : Handler}
    (keeps : ∀ q q' ls p, Sound q ls → p ∈ ls.heap → TakenOut q q' ls p → I q ls → I q' (ls.retire p))
    {fuel i : Nat} {count : Int} (h : Sound q ls) (start : I q ls)
    (enough : q.currSize * (q.currSize + 1) + (q.currSize - i) < fuel) (inside : i ≤ q.currSize)
    (before : ∀ j < i, q.hasHandler eh (q.slotNode j) = false) :
    ∃ q' ls', cancelGenerals eh fuel q i count = some (count + ls.heap.countP (q.hasHandler eh),q') ∧
      Sound q' ls' ∧ I q' ls' ∧ Cleared q q' ls ls' eh := by
  induction fuel generalizing q ls i count with
  | zero => omega
  | succ fuel ih =>
    simp only [cancelGenerals]
    split
    case isFalse done =>
      have all : ∀ p ∈ ls.heap, q.hasHandler eh p = false := by
        intro p hp
        obtain ⟨j,hj,here,_⟩ := indexedSlot h.shape.heap.indexed hp
        exact here ▸ before j (by omega)
      have none' : ls.heap.countP (q.hasHandler eh) = 0 :=
        List.countP_eq_zero.mpr fun p hp => by simp [all p hp]
      have keep : ls.heap.filter (fun p => !q.hasHandler eh p) = ls.heap :=
        List.filter_eq_self.mpr fun p hp => by simp [all p hp]
      refine ⟨q,ls,by rw [none']; simp,h,start,rfl,?_,fun _ _ => rfl⟩
      rw [keep]
    case isTrue more =>
      have mem := indexedMem h.shape.heap.indexed more
      simp only [h.shape.heap.filled i more,bind,Option.bind]
      split
      case isFalse other =>
        refine ih h start (by omega) more fun j hj => ?_
        rcases Nat.lt_succ_iff_lt_or_eq.mp hj with hj | rfl
        · exact before j hj
        · exact decide_eq_false other
      case isTrue hit =>
        have has : q.hasHandler eh (q.slotNode i) = true := decide_eq_true hit
        obtain ⟨q₁,runs,removed⟩ := removeRuns h more
        have taken := removedFreed h removed q₁.calls
        simp only [runs]
        have size := taken.currSize
        have fewer : (q.currSize - 1) * (q.currSize - 1 + 1) + (q.currSize - 1 - 0) < fuel := by
          obtain ⟨n,hn⟩ : ∃ n, q.currSize = n + 1 := ⟨q.currSize - 1,by omega⟩
          rw [hn] at enough ⊢
          simp only [Nat.add_sub_cancel,Nat.add_mul,Nat.mul_add] at *
          omega
        obtain ⟨q₂,ls₂,last,sound,kept,cleared⟩ := @ih _ _ _ (count + 1) taken.sound
          (keeps _ _ _ _ h mem taken start) (by rw [size]; exact fewer) (Nat.zero_le _)
          (fun j hj => absurd hj (Nat.not_lt_zero j))
        obtain ⟨step,counted⟩ := clearedStep h mem has taken cleared
        refine ⟨q₂,ls₂,last.trans ?_,sound,kept,step⟩
        refine congrArg (fun n => some (n,q₂)) ?_
        omega

end TakeOut

section Add
variable {q : TimerQueue} {ls : Lists} {p : Ptr}

def Lists.push (ls : Lists) (p : Ptr) : Lists := { ls with heap := ls.heap ++ [p] }

/- The node p joins the heap and nothing else is touched, but for the arrays when
they have to grow. -/
structure Added (q q' : TimerQueue) (ls : Lists) (p : Ptr) : Prop where
  sound : Sound q' (ls.push p)
  nodes : q'.nodes = q.nodes
  currSize : q'.currSize = q.currSize + 1
  maxSize : q'.maxSize = q.maxSize
  crontabTimers : q'.crontabTimers = q.crontabTimers
  sizes : q.currSize + 1 < q.timerHeapSize ∧ q'.timerHeapSize = q.timerHeapSize ∧
      q'.minTimerId = q.minTimerId ∨
    q.timerHeapSize ≤ q.currSize + 1 ∧ q'.timerHeapSize = q.grown.timerHeapSize ∧
      q'.minTimerId = q.currSize

theorem insertAdds (h : Held q ls p) (type : (q.nodes p).type = .general)
    (driven : (q.nodes p).handler ≠ none) (range : 0 ≤ q.ident p ∧ q.ident p < q.timerIdsSize)
    (new : q.ident p ∉ q.heapIds ls) (vacant : Vacant q (q.ident p :: q.heapIds ls))
    (fits : Fits q ls.heap) : ∃ q', q.insert p = some q' ∧ Added q q' ls p := by
  obtain ⟨q₁,q',runs,shape,ins⟩ := insertShape h type driven range new fits
  have base : q₁.nodes = q.nodes ∧ q₁.currSize = q.currSize ∧ q₁.maxSize = q.maxSize ∧
      q₁.crontabTimers = q.crontabTimers := by
    rcases ins.grew with ⟨rfl,_⟩ | ⟨rfl,_⟩ <;> exact ⟨rfl,rfl,rfl,rfl⟩
  have nodes : q'.nodes = q.nodes := by rw [ins.moved.rest]; exact base.1
  have idents : q'.ident = q.ident := by funext z; simp only [ident,nodes]
  have inner : Vacant q₁ (q.ident p :: q.heapIds ls) := by
    rcases ins.grew with ⟨same,_⟩ | ⟨same,_⟩ <;> rw [same]
    · exact vacant
    · have := h.shape.heap.room
      have := h.shape.sizes
      exact vacantGrown vacant (by omega)
  have ids₁ : q₁.ident = q.ident := by funext z; simp only [ident,base.1]
  refine ⟨q',runs,⟨shape,?_⟩,nodes,?_,?_,?_,?_⟩
  · have result := vacantRearranged (q := { q₁ with currSize := q₁.currSize + 1 }) inner ins.moved
      fun z hz => ?_
    · refine vacantMono result fun k hk => ?_
      change k ∈ (ls.heap ++ [p]).map q'.ident
      rw [idents,List.map_append,List.mem_append]
      rcases List.mem_cons.mp hk with rfl | hk
      · exact .inr (List.mem_singleton_self _)
      · exact .inl hk
    · change q₁.ident z ∈ _
      rw [ids₁]
      rcases List.mem_append.mp hz with hz | hz
      · exact List.mem_cons_of_mem _ (List.mem_map_of_mem hz)
      · exact List.mem_singleton.mp hz ▸ List.mem_cons_self
  · rw [ins.moved.rest]
    change q₁.currSize + 1 = _
    rw [base.2.1]
  · rw [ins.moved.rest]; exact base.2.2.1
  · rw [ins.moved.rest]; exact base.2.2.2
  · rw [ins.moved.rest]
    rcases ins.grew with ⟨rfl,wide⟩ | ⟨rfl,full⟩
    · exact .inl ⟨wide,rfl,rfl⟩
    · exact .inr ⟨full,rfl,rfl⟩

/- A timer scheduled: the node is a new or a recycled one, the id the first free
one from min_timer_id_ on. -/
structure Scheduled (q q' : TimerQueue) (ls : Lists) (free : List Ptr) (p : Ptr) : Prop where
  sound : Sound q' (Lists.push { ls with free := free } p)
  off : p ∉ ls.heap ++ ls.crontab ++ ls.freeCrontab
  nodes : ∀ z, z ≠ p → q'.nodes z = q.nodes z
  currSize : q'.currSize = q.currSize + 1
  maxSize : q'.maxSize = q.maxSize
  crontabTimers : q'.crontabTimers = q.crontabTimers
  sizes : q.currSize + 1 < q.timerHeapSize ∧ q'.timerHeapSize = q.timerHeapSize ∧
      q'.minTimerId = q.minTimerId + 1 ∨
    q.timerHeapSize ≤ q.currSize + 1 ∧ q'.timerHeapSize = q.grown.timerHeapSize ∧
      q'.minTimerId = q.currSize

theorem scheduledNodes {q' : TimerQueue} {free : List Ptr} (h : Scheduled q q' ls free p) :
    ∀ z ∈ ls.heap ++ ls.crontab ++ ls.freeCrontab, q'.nodes z = q.nodes z := fun z hz =>
  h.nodes z fun same => h.off (same ▸ hz)

theorem allocTimeridGives {k : Int} (got : q.freeId = some k) :
    q.allocTimerid = (k,{ q with minTimerId := q.minTimerId + 1 }) := by
  unfold allocTimerid
  rw [got]

theorem allocTimeridRefuses (none_ : q.freeId = none) : q.allocTimerid = (-1,q) := by
  unfold allocTimerid
  rw [none_]

theorem scheduleAdds (h : Sound q ls) (below : (q.currSize : Int) < q.maxSize) {k : Int}
    (got : q.freeId = some k) (fits : Fits q ls.heap) (eh : Handler) (arg : Arg)
    (deadline interval : TimeValue) :
    ∃ p free q', q.scheduleI (some eh) arg deadline interval = some (k,q') ∧
      Scheduled q q' ls free p ∧ q'.timer p = ⟨k,some eh,arg,deadline,interval⟩ := by
  obtain ⟨low,high,free,clear,_⟩ := freeIdSound h.shape got
  obtain ⟨p,q₁,free,alloc,held,al,_,_⟩ := allocGeneral h.shape
  have got₁ : q₁.freeId = some k := by rw [al.rest]; exact got
  have off := held.off
  have room := h.shape.low
  have notNull : k ≠ -1 := by omega
  -- the node as set() leaves it, in the queue whose min_timer_id_ has moved on
  obtain ⟨n,hn⟩ : ∃ n, n = { (q₁.nodes p) with
    timerId := k, handler := some eh, arg := arg, timerValue := deadline,
    interval := interval, prev := none, next := none, type := .general } := ⟨_,rfl⟩
  have heldNext : Held { q₁ with minTimerId := q₁.minTimerId + 1 } { ls with free := free } p := by
    refine ⟨shapeCongr held.shape rfl ?_ (Nat.le_refl _) fun _ _ => rfl,held.off,held.made⟩
    have := held.shape.low
    exact Int.le_add_one this
  have heldSet := heldSetNode heldNext n
  obtain ⟨q₂,def₂⟩ : ∃ q₂, q₂ = setNode { q₁ with minTimerId := q₁.minTimerId + 1 } p n := ⟨_,rfl⟩
  rw [← def₂] at heldSet
  have nodeAt : q₂.nodes p = n := by rw [def₂]; exact Function.update_self _ _ _
  have others : ∀ z, z ≠ p → q₂.nodes z = q.nodes z := fun z other => by
    rw [def₂]
    exact (Function.update_of_ne other _ _).trans (al.nodes z other)
  have rest : q₂ = { q with
      nodes := q₂.nodes, minTimerId := q.minTimerId + 1, made := q₂.made
      freeTimerNodes := q₂.freeTimerNodes, freeCrontabTimers := q₂.freeCrontabTimers } := by
    rw [def₂,al.rest]
    rfl
  have ids : ∀ z ∈ ls.heap, q₂.ident z = q.ident z := fun z hz => by
    have other : z ≠ p := fun same => off (memAll.mpr (.inl (same ▸ hz)))
    simp only [ident,others z other]
  have heapIds' : q₂.heapIds { ls with free := free } = q.heapIds ls := List.map_congr_left ids
  have self : q₂.ident p = k := by simp only [ident,nodeAt,hn]
  have table : q₂.timerIds = q.timerIds ∧ q₂.timerIdsSize = q.timerIdsSize ∧
      q₂.timerHeapSize = q.timerHeapSize ∧ q₂.currSize = q.currSize ∧ q₂.maxSize = q.maxSize ∧
      q₂.crontabTimers = q.crontabTimers ∧ q₂.minTimerId = q.minTimerId + 1 ∧
      q₂.grown.timerHeapSize = q.grown.timerHeapSize := by
    rw [rest]; exact ⟨rfl,rfl,rfl,rfl,rfl,rfl,rfl,rfl⟩
  have vacant : Vacant q₂ (q₂.ident p :: q₂.heapIds { ls with free := free }) := by
    rw [heapIds']
    intro j lowJ highJ out
    rw [table.1]
    exact h.vacant j lowJ (table.2.1 ▸ highJ) fun mem => out (List.mem_cons_of_mem _ mem)
  have fits₂ : Fits q₂ ls.heap := by
    intro full
    rw [table.2.2.1,table.2.2.2.1] at full
    obtain ⟨small,wide,kept⟩ := fits full
    rw [table.2.2.2.1,table.2.2.2.2.2.2.2]
    exact ⟨small,wide,fun z hz => by rw [ids z hz]; exact kept z hz⟩
  obtain ⟨q',runs,added⟩ := insertAdds heldSet (by rw [nodeAt,hn]) (by rw [nodeAt,hn]; exact Option.some_ne_none eh)
    (by rw [self,table.2.1]; omega) (by rw [self,heapIds']; exact clear) vacant fits₂
  refine ⟨p,free,q',?_,⟨added.sound,?_,fun z other => ?_,?_,?_,?_,?_⟩,?_⟩
  · unfold scheduleI
    rw [if_neg (not_le.mpr below),alloc]
    simp only [allocTimeridGives got₁]
    rw [← hn,← def₂,runs]
    rfl
  · simp only [memAll,not_or] at off
    simp only [List.mem_append,not_or]
    exact ⟨⟨off.1,off.2.1⟩,off.2.2.2⟩
  · rw [added.nodes,others z other]
  · rw [added.currSize,table.2.2.2.1]
  · rw [added.maxSize,table.2.2.2.2.1]
  · rw [added.crontabTimers,table.2.2.2.2.2.1]
  · have sizes := added.sizes
    rw [table.2.2.1,table.2.2.2.1,table.2.2.2.2.2.2.1,table.2.2.2.2.2.2.2] at sizes
    exact sizes
  · simp only [timer,ident,value,added.nodes,nodeAt,hn]

end Add

section Dispatch
variable {q q₁ : TimerQueue} {ls : Lists} {p : Ptr}

/- The size of the arrays an insert would grow to when one timer is out. -/
def regrown (q : TimerQueue) : Nat := (min (((q.currSize - 1) * 2 : Nat) : Int) q.maxSize).toNat

/- An interval timer that is back in the heap with its next deadline. -/
structure Rearmed (q q' : TimerQueue) (ls : Lists) (p : Ptr) (v : TimeValue) : Prop where
  sound : Sound q' ((ls.drop p).push p)
  nodes : q'.nodes = Function.update q.nodes p { q.nodes p with timerValue := v }
  currSize : q'.currSize = q.currSize - 1 + 1
  maxSize : q'.maxSize = q.maxSize
  crontabTimers : q'.crontabTimers = q.crontabTimers
  sizes : q.currSize - 1 + 1 < q.timerHeapSize ∧ q'.timerHeapSize = q.timerHeapSize ∧
      q'.minTimerId = q.minTimerId ∨
    q.timerHeapSize ≤ q.currSize - 1 + 1 ∧ q'.timerHeapSize = q.regrown ∧
      q'.minTimerId = (q.currSize - 1 : Nat)

/- As Fits, for the queue as it is before the earliest timer is taken off. -/
def FitsAgain (q : TimerQueue) (l : List Ptr) : Prop :=
  q.timerHeapSize ≤ q.currSize - 1 + 1 →
    (q.currSize - 1) * 2 ≤ intMax ∧ q.currSize - 1 < q.regrown ∧
      ∀ z ∈ l, q.ident z < (q.currSize - 1 : Nat)

theorem rearmPeriodic (h : Sound q ls) (removed : Removed q q₁ ls p) (current : TimeValue)
    (periodic : .zero < (q.nodes p).interval) (fits : FitsAgain q (ls.heap.erase p)) :
    ∃ v q', TimeValue.skipPast current (q.nodes p).interval
        (TimeValue.turns current (q.nodes p).timerValue) (q.nodes p).timerValue = some v ∧
      q₁.rearm p current = some q' ∧ Rearmed q q' ls p v := by
  obtain ⟨v,ends⟩ := TimeValue.skipPastRuns periodic current (q.nodes p).timerValue
  obtain ⟨q₂,def₂⟩ : ∃ q₂, q₂ = q₁.setNode p { q.nodes p with timerValue := v } := ⟨_,rfl⟩
  have held : Held q₂ (ls.drop p) p := def₂ ▸ heldSetNode removed.held _
  have nodeAt : q₂.nodes p = { q.nodes p with timerValue := v } := by
    rw [def₂]; exact Function.update_self _ _ _
  have nodes : q₂.nodes = Function.update q.nodes p { q.nodes p with timerValue := v } := by
    rw [def₂]
    simp only [setNode,removed.nodes]
  have rest : q₂ = { q with
      nodes := q₂.nodes, currSize := q.currSize - 1
      timerHeap := q₂.timerHeap, timerIds := q₂.timerIds } := by
    rw [def₂,removed.rest]
    rfl
  have idents : q₂.ident = q.ident := by
    funext z
    simp only [ident,nodes]
    by_cases here : z = p
    · subst z; simp
    · simp [here]
  have idsOf : q₂.heapIds (ls.drop p) = q.heapIds (ls.drop p) := by simp only [heapIds,idents]
  have sizes : q₂.timerHeapSize = q.timerHeapSize ∧ q₂.currSize = q.currSize - 1 ∧
      q₂.grown.timerHeapSize = q.regrown ∧ q₂.minTimerId = q.minTimerId ∧
      q₂.maxSize = q.maxSize ∧ q₂.crontabTimers = q.crontabTimers := by
    rw [rest]; exact ⟨rfl,rfl,rfl,rfl,rfl,rfl⟩
  have table : q₂.timerIds = q₁.timerIds ∧ q₂.timerIdsSize = q₁.timerIdsSize := by
    rw [def₂]; exact ⟨rfl,rfl⟩
  have vacant : Vacant q₂ (q₂.ident p :: q₂.heapIds (ls.drop p)) := by
    rw [idents,idsOf]
    intro k low high off
    rw [table.1]
    exact removed.vacant k low (table.2 ▸ high) off
  have fits₂ : Fits q₂ (ls.drop p).heap := by
    intro full
    rw [sizes.1,sizes.2.1] at full
    obtain ⟨small,wide,kept⟩ := fits full
    rw [sizes.2.1,sizes.2.2.1,idents]
    exact ⟨small,wide,kept⟩
  obtain ⟨q',runs,added⟩ := insertAdds held
    (by rw [nodeAt]; exact h.shape.general p removed.mem)
    (by rw [nodeAt]; exact h.shape.driven p removed.mem)
    (by rw [idents,table.2]; exact removed.range)
    (by rw [idents,idsOf]; exact removed.clear) vacant fits₂
  refine ⟨v,q',ends,?_,added.sound,?_,?_,?_,?_,?_⟩
  · unfold rearm
    simp only [removed.nodes,if_pos periodic,ends,← def₂,runs,bind,Option.bind]
  · rw [added.nodes,nodes]
  · rw [added.currSize,sizes.2.1]
  · rw [added.maxSize,sizes.2.2.2.2.1]
  · rw [added.crontabTimers,sizes.2.2.2.2.2]
  · have grew := added.sizes
    rw [sizes.1,sizes.2.1,sizes.2.2.1,sizes.2.2.2.1] at grew
    exact grew

theorem rearmOnce (h : Sound q ls) (removed : Removed q q₁ ls p) (current : TimeValue)
    (once : ¬ .zero < (q.nodes p).interval) :
    ∃ q', q₁.rearm p current = some q' ∧ TakenOut q q' ls p := by
  refine ⟨_,?_,removedFreed h removed q₁.calls⟩
  have once₁ : ¬ .zero < (q₁.nodes p).interval := removed.nodes ▸ once
  unfold rearm
  exact if_neg once₁

/- The node a call of expire would dispatch. -/
def due (q : TimerQueue) (current : TimeValue) : Option Ptr :=
  if q.currSize = 0 then none else
  match q.heapAt 0 with
  | some p => if q.value p ≤ current then some p else none
  | none => none

theorem dueRoot (h : Sound q ls) {current : TimeValue} (got : q.due current = some p) :
    0 < q.currSize ∧ p = q.slotNode 0 ∧ q.value p ≤ current := by
  unfold due at got
  split at got <;> try contradiction
  rename_i some'
  have inside := Nat.pos_of_ne_zero some'
  rw [h.shape.heap.filled 0 inside] at got
  simp only at got
  split at got <;> try contradiction
  rename_i early
  cases Option.some.inj got
  exact ⟨inside,rfl,early⟩

/- The timers that stay are in the slots after the root's. -/
theorem restAfterRoot (h : Sound q ls) {current : TimeValue} (got : q.due current = some p) {z : Ptr}
    (mem : z ∈ ls.heap.erase p) : ∃ j, 0 < j ∧ j < q.currSize ∧ q.slotNode j = z := by
  obtain ⟨_,root,_⟩ := dueRoot h got
  obtain ⟨j,inside,here,_⟩ := indexedSlot h.shape.heap.indexed (List.mem_of_mem_erase mem)
  have off : j ≠ 0 := by
    rintro rfl
    exact (heapNodup h.shape).not_mem_erase ((root.trans here) ▸ mem)
  exact ⟨j,Nat.pos_of_ne_zero off,inside,here⟩

theorem expireIdle (h : Sound q ls) {current : TimeValue} (none' : q.due current = none) (ret : Int) :
    q.expire current ret = some (0,q) := by
  unfold expire
  split
  case isTrue => rfl
  case isFalse some' =>
    have inside := Nat.pos_of_ne_zero some'
    have late : ¬ (q.nodes (q.slotNode 0)).timerValue ≤ current := by
      intro early
      have hit : q.due current = some (q.slotNode 0) := by
        unfold due
        rw [if_neg some',h.shape.heap.filled 0 inside]
        exact if_pos early
      exact absurd (none'.symm.trans hit) nofun
    simp only [dispatchTimer,h.shape.heap.filled 0 inside,if_neg late,bind,Option.bind]

theorem soundCalls (h : Sound q ls) (c : List Call) : Sound { q with calls := c } ls :=
  ⟨shapeCongr h.shape rfl h.shape.low (Nat.le_refl _) fun _ _ => rfl,h.vacant⟩

theorem takenOutCalls {q' : TimerQueue} (h : TakenOut q q' ls p) (c : List Call) :
    TakenOut q { q' with calls := c } ls p :=
  ⟨soundCalls h.sound c,h.nodes,h.currSize,h.maxSize,h.heapSize,h.minTimerId,h.crontabTimers⟩

theorem rearmedCalls {q' : TimerQueue} {v : TimeValue} (h : Rearmed q q' ls p v) (c : List Call) :
    Rearmed q { q' with calls := c } ls p v :=
  ⟨soundCalls h.sound c,h.nodes,h.currSize,h.maxSize,h.crontabTimers,h.sizes⟩

/- What the upcall brings back: the queue's own handle_timeout returns 0. -/
def answer (eh : Option Handler) (ret : Int) : Int :=
  match eh with
  | none => -1
  | some .queue => 0
  | some (.user _) => ret

theorem upcallAnswers (q : TimerQueue) (eh : Option Handler) (arg : Arg) (current : TimeValue)
    (ret : Int) : ∃ c, q.upcall eh arg current ret = (answer eh ret,{ q with calls := c }) := by
  match eh with
  | none => exact ⟨q.calls,rfl⟩
  | some .queue => exact ⟨_,rfl⟩
  | some (.user _) => exact ⟨_,rfl⟩

/- How an expire comes back: no timer is there, or none is due, or the one dispatched has been
told, with its handler closed or not, or it has been told and cancelled. -/
inductive Expires (q : TimerQueue) (current : TimeValue) (ret : Int) : Int × TimerQueue → Prop
  | empty (none_ : q.currSize = 0) : Expires q current ret (0,q)
  | late {q₁ : TimerQueue} (some_ : q.currSize ≠ 0) (dispatched : q.dispatchTimer current = some (none,q₁)) :
    Expires q current ret (0,q₁)
  | told {node : TimerNode} {q₁ : TimerQueue} (some_ : q.currSize ≠ 0)
    (dispatched : q.dispatchTimer current = some (some node,q₁)) (c : List Call) :
    Expires q current ret (1,{ q₁ with calls := c })
  | cancelled {node : TimerNode} {q₁ : TimerQueue} {r : Int × Option Arg × TimerQueue} (some_ : q.currSize ≠ 0)
    (dispatched : q.dispatchTimer current = some (some node,q₁)) (c : List Call)
    (negative : answer node.handler ret < 0) (periodic : .zero < node.interval)
    (cancelled : cancel { q₁ with calls := c } node.timerId false = some r) : Expires q current ret (1,r.2.2)

theorem expires {current : TimeValue} {ret : Int} {r : Int × TimerQueue} (runs : q.expire current ret = some r) :
    Expires q current ret r := by
  unfold expire at runs
  split at runs
  case isTrue none_ =>
    cases Option.some.inj runs
    exact .empty none_
  case isFalse some_ =>
    obtain ⟨⟨node,q₁⟩,dispatched,runs⟩ := Option.bind_eq_some_iff.1 runs
    cases node with
    | none =>
      cases Option.some.inj runs
      exact .late some_ dispatched
    | some node =>
      obtain ⟨c,told⟩ := upcallAnswers q₁ node.handler node.arg current ret
      simp only [told] at runs
      split at runs
      case isFalse =>
        cases Option.some.inj runs
        exact .told some_ dispatched c
      case isTrue negative =>
        obtain ⟨q₂,closed,rfl⟩ := Option.map_eq_some_iff.1 runs
        unfold closeDispatched at closed
        split at closed
        case isTrue periodic =>
          obtain ⟨r,cancelled,rfl⟩ := Option.map_eq_some_iff.1 closed
          exact .cancelled some_ dispatched c negative periodic cancelled
        case isFalse =>
          split at closed
          · cases Option.some.inj closed
            exact .told some_ dispatched _
          · cases closed

/- The search of the crontab list ends, and finds nothing but a timer with the id. -/
theorem findCrontabMisses {id : Int} {fuel : Nat} {l : List Ptr} {start : Option Ptr}
    (walk : Lib.Seg q.nextOf start l none) (enough : l.length < fuel)
    (other : ∀ z ∈ l, q.ident z ≠ id) : q.findCrontab id fuel start = some none := by
  induction l generalizing fuel start with
  | nil =>
    obtain ⟨n,rfl⟩ := Nat.exists_eq_succ_of_ne_zero (Nat.ne_of_gt enough)
    cases walk
    rfl
  | cons a l ih =>
    obtain ⟨n,rfl⟩ := Nat.exists_eq_succ_of_ne_zero (Nat.ne_of_gt (Nat.zero_lt_of_lt enough))
    rw [walk.1]
    have off : ¬ id = (q.nodes a).timerId := fun same => other a List.mem_cons_self same.symm
    simp only [findCrontab,if_neg off]
    exact ih walk.2 (Nat.lt_of_succ_lt_succ enough) fun z hz => other z (List.mem_cons_of_mem a hz)

theorem shortList {l : List Ptr} {n : Nat} (nodup : l.Nodup) (below : ∀ z ∈ l, z < n) : l.length < n + 1 := by
  have sub : l ⊆ List.range n := fun z hz => List.mem_range.mpr (below z hz)
  have short := (List.subperm_of_subset nodup sub).length_le
  rw [List.length_range] at short
  omega

theorem crontabShort (h : Shape q ls) : ls.crontab.length < q.made + 1 :=
  shortList (Lib.dllNodup h.crontab) fun z hz => h.made z (memAll.mpr (.inr (.inl hz)))

/- cancel(id) looks at the general timers when no crontab timer has the id. -/
theorem cancelPassesCrontab (h : Shape q ls) {id : Int} (low : 0 ≤ id) (high : id < q.timerIdsSize)
    (other : ∀ z ∈ ls.crontab, q.ident z ≠ id) (dontCall : Bool) :
    q.cancel id dontCall = q.cancelGeneral id dontCall := by
  unfold cancel
  rw [if_neg (by omega)]
  simp only [findCrontabMisses h.crontab.forth (crontabShort h) other,bind,Option.bind]

/- A one-shot timer that is due is gone, whatever its handler returns. -/
theorem expireOnce (h : Sound q ls) {current : TimeValue} (got : q.due current = some p)
    (once : ¬ .zero < (q.nodes p).interval) (ret : Int) :
    ∃ q', q.expire current ret = some (1,q') ∧ TakenOut q q' ls p := by
  obtain ⟨inside,rfl,early⟩ := dueRoot h got
  obtain ⟨q₁,runs,removed⟩ := removeRuns h inside
  obtain ⟨q₂,freed,taken⟩ := rearmOnce h removed current once
  have early : (q.nodes (q.slotNode 0)).timerValue ≤ current := early
  obtain ⟨c,told⟩ := upcallAnswers q₂ (q.nodes (q.slotNode 0)).handler (q.nodes (q.slotNode 0)).arg current ret
  unfold expire
  rw [if_neg (Nat.ne_of_gt inside)]
  simp only [dispatchTimer,h.shape.heap.filled 0 inside,if_pos early,runs,freed,removed.nodes,told,
    bind,Option.bind]
  split
  case isFalse => exact ⟨_,rfl,takenOutCalls taken c⟩
  case isTrue =>
    obtain ⟨eh,driven⟩ := Option.ne_none_iff_exists'.mp (h.shape.driven _ removed.mem)
    simp only [closeDispatched,if_neg once,driven,Option.map_some]
    exact ⟨_,rfl,takenOutCalls taken _⟩

/- An interval timer that is due goes back, unless its handler returns less than 0. -/
theorem expirePeriodic (h : Sound q ls) {current : TimeValue} (got : q.due current = some p)
    (periodic : .zero < (q.nodes p).interval) (fits : FitsAgain q (ls.heap.erase p)) (ret : Int) :
    ∃ v q₂, TimeValue.skipPast current (q.nodes p).interval
        (TimeValue.turns current (q.nodes p).timerValue) (q.nodes p).timerValue = some v ∧
      Rearmed q q₂ ls p v ∧
      q.expire current ret = if answer (q.nodes p).handler ret < 0 then
        (q₂.cancel (q.ident p) false).map fun r => (1,r.2.2) else some (1,q₂) := by
  obtain ⟨inside,rfl,early⟩ := dueRoot h got
  obtain ⟨q₁,runs,removed⟩ := removeRuns h inside
  obtain ⟨v,q₂,ends,again,rearmed⟩ := rearmPeriodic h removed current periodic fits
  have early : (q.nodes (q.slotNode 0)).timerValue ≤ current := early
  obtain ⟨c,told⟩ := upcallAnswers q₂ (q.nodes (q.slotNode 0)).handler (q.nodes (q.slotNode 0)).arg current ret
  refine ⟨v,_,ends,rearmedCalls rearmed c,?_⟩
  unfold expire
  rw [if_neg (Nat.ne_of_gt inside)]
  simp only [dispatchTimer,h.shape.heap.filled 0 inside,if_pos early,runs,again,removed.nodes,told,
    bind,Option.bind,closeDispatched,if_pos periodic,Option.map_map]
  rfl

theorem rearmedIdent {q' : TimerQueue} {v : TimeValue} (h : Rearmed q q' ls p v) : q'.ident = q.ident := by
  funext z
  simp only [ident,h.nodes]
  by_cases here : z = p
  · subst z; simp
  · simp [here]

theorem rearmedTimer {q' : TimerQueue} {v : TimeValue} (h : Rearmed q q' ls p v) :
    q'.timer p = { q.timer p with deadline := v } ∧ ∀ z, z ≠ p → q'.timer z = q.timer z := by
  refine ⟨?_,fun z other => ?_⟩
  · simp only [timer,ident,value,h.nodes,Function.update_self]
  · simp only [timer,ident,value,h.nodes,Function.update_of_ne other]

/- After an interval timer is back, cancelling it takes it out again. -/
theorem rearmedCancel {q' : TimerQueue} {v : TimeValue} (h : Rearmed q q' ls p v)
    (other : ∀ z ∈ ls.crontab, q.ident z ≠ q.ident p) :
    ∃ q₃, q'.cancel (q.ident p) false = some (0,some (q.nodes p).arg,q₃) ∧
      TakenOut q' q₃ ((ls.drop p).push p) p := by
  have idents := rearmedIdent h
  have inHeap : p ∈ ((ls.drop p).push p).heap := List.mem_append_right _ (List.mem_singleton_self p)
  have range := h.sound.shape.heap.range p inHeap
  obtain ⟨q₃,runs,taken⟩ := cancelGeneralTakes h.sound inHeap false
  rw [idents] at range runs
  rw [cancelPassesCrontab h.sound.shape range.1 range.2 (fun z hz => by rw [idents]; exact other z hz)]
  refine ⟨q₃,runs.trans ?_,taken⟩
  rw [h.nodes,Function.update_self]

/- reset_interval on the id of a general timer changes that interval alone. -/
theorem intervalNodes (q : TimerQueue) (p : Ptr) (interval : TimeValue) (z : Ptr) :
    (q.setNode p { q.nodes p with interval := interval }).nodes z
      = { q.nodes z with interval := if z = p then interval else (q.nodes z).interval } := by
  by_cases here : z = p
  · subst z
    simp [setNode]
  · simp [setNode,here]

/- What reset_interval comes back with: a refusal, or the timer of the id with another interval. -/
inductive IntervalReset (q : TimerQueue) (id : Int) (interval : TimeValue) : Int × TimerQueue → Prop
  | refused : IntervalReset q id interval (-1,q)
  | reset (p : Ptr) (listed : 0 ≤ q.timerIds id) (filled : q.heapAt (q.timerIds id).toNat = some p) :
    IntervalReset q id interval (0,q.setNode p { q.nodes p with interval := interval })

theorem intervalReset {id : Int} {interval : TimeValue} {r : Int × TimerQueue}
    (runs : q.resetInterval id interval = some r) : IntervalReset q id interval r := by
  unfold resetInterval at runs
  split at runs
  · cases Option.some.inj runs
    exact .refused
  · split at runs
    · cases runs
    · split at runs
      · cases Option.some.inj runs
        exact .refused
      · rename_i listed
        obtain ⟨p,filled,runs⟩ := Option.bind_eq_some_iff.1 runs
        split at runs
        · cases Option.some.inj runs
          exact .refused
        · cases Option.some.inj runs
          exact .reset p (not_lt.1 listed) filled

theorem resetIntervalSets (h : Sound q ls) (mem : p ∈ ls.heap) (inside : q.ident p ≤ q.maxSize)
    (interval : TimeValue) :
    q.resetInterval (q.ident p) interval
        = some (0,q.setNode p { q.nodes p with interval := interval }) ∧
      Sound (q.setNode p { q.nodes p with interval := interval }) ls := by
  obtain ⟨i,hi,here,at'⟩ := indexedSlot h.shape.heap.indexed mem
  have range := h.shape.heap.range p mem
  have entry : q.timerIds (q.nodes p).timerId = i := at'
  have out : ¬ ((q.nodes p).timerId < 0 ∨ q.maxSize < (q.nodes p).timerId) := by
    simp only [ident] at *; omega
  have high : ¬ (q.timerIdsSize : Int) ≤ (q.nodes p).timerId := by simp only [ident] at *; omega
  have slot : ¬ ((i : Int) < 0) := by omega
  have same : ∀ z, (q.setNode p { q.nodes p with interval := interval }).nodes z = { q.nodes z with
      interval := ((q.setNode p { q.nodes p with interval := interval }).nodes z).interval } := by
    intro z
    rw [intervalNodes]
  refine ⟨?_,shapeCongr h.shape rfl h.shape.low (Nat.le_refl _) fun z _ => same z,?_⟩
  · unfold resetInterval
    simp only [ident,if_neg out,if_neg high,entry,if_neg slot,Int.toNat_natCast,
      h.shape.heap.filled i hi,here,bind,Option.bind,ne_eq,not_true_eq_false,if_false]
  · intro k low high' off
    refine h.vacant k low high' fun mem' => off ?_
    obtain ⟨z,hz,rfl⟩ := List.mem_map.mp mem'
    refine List.mem_map.mpr ⟨z,hz,?_⟩
    simp only [ident]
    rw [same z]

end Dispatch

end CuteNdk.TimerQueue
