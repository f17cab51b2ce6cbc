import CuteNdk.TimerHeap
import CuteNdk.Lib.Linked

/-! The shape of a timer_queue: its nodes are split between the heap, the crontab
list and the two free lists, and the table holds -1 where no general timer has
the id. Each of the steps the operations are made of keeps it. -/
namespace CuteNdk.TimerQueue
open Lib (Seg Dll segUpdate segCongr dllCongr)
open Lib.BinaryHeap (indexedMem)

def nextOf (q : TimerQueue) (p : Ptr) : Option Ptr := (q.nodes p).next
def prevOf (q : TimerQueue) (p : Ptr) : Option Ptr := (q.nodes p).prev

/- The nodes of the heap, the crontab list, and the free lists of both types. -/
structure Lists where
  heap : List Ptr
  crontab : List Ptr
  free : List Ptr
  freeCrontab : List Ptr

def Lists.all (ls : Lists) : List Ptr := ls.heap ++ ls.crontab ++ ls.free ++ ls.freeCrontab

theorem memAll {ls : Lists} {p : Ptr} : p ∈ ls.all ↔
    p ∈ ls.heap ∨ p ∈ ls.crontab ∨ p ∈ ls.free ∨ p ∈ ls.freeCrontab := by
  simp [Lists.all]

def heapIds (q : TimerQueue) (ls : Lists) : List Int := ls.heap.map q.ident

structure Shape (q : TimerQueue) (ls : Lists) : Prop where
  heap : Settled q q.currSize ls.heap
  sizes : q.timerHeapSize = q.timerIdsSize
  low : 0 ≤ q.minTimerId
  crontab : Dll q.nextOf q.prevOf q.crontabTimers ls.crontab.getLast? ls.crontab
  free : Seg q.nextOf q.freeTimerNodes ls.free none
  freeCrontab : Seg q.nextOf q.freeCrontabTimers ls.freeCrontab none
  apart : ls.all.Nodup
  made : ∀ p ∈ ls.all, p < q.made
  general : ∀ p ∈ ls.heap, (q.nodes p).type = .general
  crontabs : ∀ p ∈ ls.crontab, (q.nodes p).type = .crontab
  driven : ∀ p ∈ ls.heap, (q.nodes p).handler ≠ none

/- A node an operation holds: it is on none of the lists. -/
structure Held (q : TimerQueue) (ls : Lists) (p : Ptr) : Prop where
  shape : Shape q ls
  off : p ∉ ls.all
  made : p < q.made

/- Every id but these has -1 in the table. -/
def Vacant (q : TimerQueue) (ids : List Int) : Prop :=
  ∀ k : Int, 0 ≤ k → k < q.timerIdsSize → k ∉ ids → q.timerIds k = -1

theorem settledCongr {q q' : TimerQueue} {n : Nat} {l : List Ptr} (h : Settled q n l)
    (heap : q'.timerHeap = q.timerHeap) (heapSize : q'.timerHeapSize = q.timerHeapSize)
    (idsSize : q'.timerIdsSize = q.timerIdsSize)
    (ids : ∀ p ∈ l, q'.timerIds (q.ident p) = q.timerIds (q.ident p))
    (same : ∀ p ∈ l, q'.ident p = q.ident p ∧ q'.value p = q.value p) : Settled q' n l := by
  have slots : q'.slotNode = q.slotNode := by
    funext i
    simp only [slotNode,heap]
  have reads : q'.heapAt = q.heapAt := by
    funext i
    simp only [heapAt,heap,heapSize]
  have idents : l.map q'.ident = l.map q.ident := List.map_congr_left fun p hp => (same p hp).1
  refine ⟨⟨slots ▸ h.indexed.holds,idents ▸ h.indexed.distinct,fun i hi => ?_⟩,fun i hi => ?_,
    heapSize ▸ h.room,fun p hp => ?_,fun i off hi => ?_⟩
  · have mem := indexedMem h.indexed hi
    rw [slots,(same _ mem).1,ids _ mem]
    exact h.indexed.placed i hi
  · rw [reads,slots]
    exact h.filled i hi
  · rw [(same p hp).1,idsSize]
    exact h.range p hp
  · have up := Lib.BinaryHeap.parentLt off
    rw [slots,(same _ (indexedMem h.indexed hi)).2,(same _ (indexedMem h.indexed (up.trans hi))).2]
    exact h.ordered i off hi

/- What a change of nodes off the lists, or of intervals and neighbours of the
heap's nodes, leaves alone. -/
theorem shapeCongr {q q' : TimerQueue} {ls : Lists} (h : Shape q ls)
    (rest : q' = { q with nodes := q'.nodes, minTimerId := q'.minTimerId, made := q'.made, calls := q'.calls })
    (low : 0 ≤ q'.minTimerId) (made : q.made ≤ q'.made)
    (same : ∀ p ∈ ls.all, q'.nodes p = { q.nodes p with interval := (q'.nodes p).interval }) :
    Shape q' ls := by
  have nodes : ∀ p ∈ ls.all, q'.ident p = q.ident p ∧ q'.value p = q.value p ∧
      q'.nextOf p = q.nextOf p ∧ q'.prevOf p = q.prevOf p ∧
      (q'.nodes p).type = (q.nodes p).type ∧ (q'.nodes p).handler = (q.nodes p).handler := by
    intro p hp
    have eq := same p hp
    simp only [ident,value,nextOf,prevOf]
    rw [eq]
    simp
  have size : q'.currSize = q.currSize := by rw [rest]
  have heads : q'.crontabTimers = q.crontabTimers ∧ q'.freeTimerNodes = q.freeTimerNodes ∧
      q'.freeCrontabTimers = q.freeCrontabTimers := by rw [rest]; exact ⟨rfl,rfl,rfl⟩
  refine ⟨?_,?_,low,?_,?_,?_,h.apart,fun p hp => (h.made p hp).trans_le made,?_,?_,?_⟩
  · rw [size]
    refine settledCongr h.heap ?_ ?_ ?_ (fun p _ => ?_) fun p hp => ?_ <;> try (rw [rest])
    have eq := nodes p (memAll.mpr (.inl hp))
    exact ⟨eq.1,eq.2.1⟩
  · have eq : q'.timerHeapSize = q.timerHeapSize ∧ q'.timerIdsSize = q.timerIdsSize := by
      rw [rest]; exact ⟨rfl,rfl⟩
    rw [eq.1,eq.2]
    exact h.sizes
  · rw [heads.1]
    exact dllCongr h.crontab (fun p hp => (nodes p (memAll.mpr (.inr (.inl hp)))).2.2.1)
      fun p hp => (nodes p (memAll.mpr (.inr (.inl hp)))).2.2.2.1
  · rw [heads.2.1]
    exact (segCongr fun p hp => (nodes p (memAll.mpr (.inr (.inr (.inl hp))))).2.2.1).mpr h.free
  · rw [heads.2.2]
    exact (segCongr fun p hp => (nodes p (memAll.mpr (.inr (.inr (.inr hp))))).2.2.1).mpr h.freeCrontab
  · intro p hp
    rw [(nodes p (memAll.mpr (.inl hp))).2.2.2.2.1]
    exact h.general p hp
  · intro p hp
    rw [(nodes p (memAll.mpr (.inr (.inl hp)))).2.2.2.2.1]
    exact h.crontabs p hp
  · intro p hp
    rw [(nodes p (memAll.mpr (.inl hp))).2.2.2.2.2]
    exact h.driven p hp

theorem heldSetNode {q : TimerQueue} {ls : Lists} {p : Ptr} (h : Held q ls p) (n : TimerNode) :
    Held (q.setNode p n) ls p := by
  refine ⟨shapeCongr h.shape rfl h.shape.low (Nat.le_refl _) fun z hz => ?_,h.off,h.made⟩
  have other : z ≠ p := fun same => h.off (same ▸ hz)
  simp [setNode,other]

section Nodes
variable {q : TimerQueue} {ls : Lists} {p : Ptr}

/- What alloc_node changes: the node it returns and the list that came from. -/
structure Allocated (q q' : TimerQueue) (p : Ptr) : Prop where
  rest : q' = { q with
    nodes := q'.nodes
    freeTimerNodes := q'.freeTimerNodes
    freeCrontabTimers := q'.freeCrontabTimers
    made := q'.made }
  nodes : ∀ z, z ≠ p → q'.nodes z = q.nodes z

theorem nextOfUpdate {q' : TimerQueue} {n : TimerNode}
    (nodes : q'.nodes = Function.update q.nodes p n) :
    q'.nextOf = Function.update q.nextOf p n.next := by
  funext z
  simp only [nextOf,nodes]
  by_cases here : z = p
  · subst z; simp
  · simp [here,nextOf]

theorem heldNew (h : Shape q ls) (n : TimerNode) :
    Held { q.setNode q.made n with made := q.made + 1 } ls q.made := by
  have off : q.made ∉ ls.all := fun mem => Nat.lt_irrefl _ (h.made _ mem)
  refine ⟨shapeCongr h rfl h.low (Nat.le_succ _) fun z hz => ?_,off,Nat.lt_succ_self _⟩
  have other : z ≠ q.made := fun same => off (same ▸ hz)
  simp [setNode,other]

/- Nodes moved between the lists, or onto or off them by one end, keep the shape
when the walks of the two free lists say so. -/
theorem shapeOfLists {q' : TimerQueue} {ls' : Lists} (h : Shape q ls)
    (rest : q' = { q with
      nodes := q'.nodes
      freeTimerNodes := q'.freeTimerNodes
      freeCrontabTimers := q'.freeCrontabTimers })
    (heap : ls'.heap = ls.heap) (crontab : ls'.crontab = ls.crontab)
    (free : Seg q'.nextOf q'.freeTimerNodes ls'.free none)
    (freeCrontab : Seg q'.nextOf q'.freeCrontabTimers ls'.freeCrontab none)
    (apart : ls'.all.Nodup) (made : ∀ p ∈ ls'.all, p < q.made)
    (same : ∀ p ∈ ls.heap ++ ls.crontab, q'.nodes p = q.nodes p) : Shape q' ls' := by
  have onHeap : ∀ p ∈ ls.heap, q'.nodes p = q.nodes p := fun p hp =>
    same p (List.mem_append_left _ hp)
  have onCrontab : ∀ p ∈ ls.crontab, q'.nodes p = q.nodes p := fun p hp =>
    same p (List.mem_append_right _ hp)
  refine ⟨?_,?_,?_,?_,free,freeCrontab,apart,?_,?_,?_,?_⟩
  · rw [heap]
    have settled : Settled q' q.currSize ls.heap := by
      refine settledCongr h.heap ?_ ?_ ?_ (fun p _ => ?_) fun p hp => ?_ <;> try (rw [rest])
      simp only [ident,value,onHeap p hp,and_self]
    rw [rest] at settled ⊢
    exact settled
  · rw [rest]
    exact h.sizes
  · rw [rest]
    exact h.low
  · rw [crontab]
    have walk : Dll q'.nextOf q'.prevOf q.crontabTimers ls.crontab.getLast? ls.crontab :=
      dllCongr h.crontab (fun p hp => by simp only [nextOf,onCrontab p hp])
      fun p hp => by simp only [prevOf,onCrontab p hp]
    rwa [show q.crontabTimers = q'.crontabTimers by rw [rest]] at walk
  · intro p hp
    rw [rest]
    exact made p hp
  · intro p hp
    rw [heap] at hp
    rw [onHeap p hp]
    exact h.general p hp
  · intro p hp
    rw [crontab] at hp
    rw [onCrontab p hp]
    exact h.crontabs p hp
  · intro p hp
    rw [heap] at hp
    rw [onHeap p hp]
    exact h.driven p hp

/- A node taken off the front of a free list, whatever is then written to it. -/
theorem heldOfPop {q' : TimerQueue} {ls' : Lists} {n : TimerNode} (h : Shape q ls)
    (rest : q' = { q with
      nodes := q'.nodes
      freeTimerNodes := q'.freeTimerNodes
      freeCrontabTimers := q'.freeCrontabTimers })
    (nodes : q'.nodes = Function.update q.nodes p n)
    (heap : ls'.heap = ls.heap) (crontab : ls'.crontab = ls.crontab)
    (pop : (p :: ls'.all).Perm ls.all)
    (free : Seg q.nextOf q'.freeTimerNodes ls'.free none)
    (freeCrontab : Seg q.nextOf q'.freeCrontabTimers ls'.freeCrontab none) : Held q' ls' p := by
  obtain ⟨gone,apart⟩ := List.nodup_cons.mp (pop.nodup_iff.mpr h.apart)
  have made : ∀ z ∈ p :: ls'.all, z < q.made := fun z hz => h.made z (pop.subset hz)
  refine ⟨shapeOfLists h rest heap crontab ?_ ?_ apart
    (fun z hz => made z (List.mem_cons_of_mem p hz)) fun z hz => ?_,gone,?_⟩
  · rw [nextOfUpdate nodes,segUpdate fun mem => gone (memAll.mpr (.inr (.inr (.inl mem))))]
    exact free
  · rw [nextOfUpdate nodes,segUpdate fun mem => gone (memAll.mpr (.inr (.inr (.inr mem))))]
    exact freeCrontab
  · have other : z ≠ p := by
      rintro rfl
      rw [← heap,← crontab] at hz
      exact gone ((List.mem_append.mp hz).elim (fun mem => memAll.mpr (.inl mem))
        fun mem => memAll.mpr (.inr (.inl mem)))
    rw [nodes,Function.update_of_ne other]
  · rw [rest]
    exact made p List.mem_cons_self

theorem frontOf {head : Option Ptr} {l : List Ptr} (walk : Seg q.nextOf head l none)
    (front : head = some p) : ∃ l', l = p :: l' ∧ Seg q.nextOf (q.nodes p).next l' none := by
  cases l with
  | nil => exact absurd (front.symm.trans walk) nofun
  | cons a l' =>
    have same : a = p := Option.some.inj (walk.1.symm.trans front)
    subst a
    exact ⟨l',rfl,walk.2⟩

theorem allocGeneral (h : Shape q ls) : ∃ p q' free, q.allocNode .general = (p,q') ∧
    Held q' { ls with free := free } p ∧ Allocated q q' p ∧ (q'.nodes p).type = .general ∧
    (q'.ident p = -1 ∨ q.freeTimerNodes = some p ∧ q'.ident p = q.ident p) := by
  unfold allocNode
  cases front : q.freeTimerNodes with
  | none =>
    exact ⟨_,_,ls.free,rfl,heldNew h _,⟨rfl,fun z other => by simp [setNode,other]⟩,
      by simp [setNode],.inl (by simp [ident,setNode,newNode])⟩
  | some p =>
    obtain ⟨free,split,walk⟩ := frontOf h.free front
    refine ⟨p,_,free,rfl,heldOfPop h rfl rfl rfl rfl ?_ walk h.freeCrontab,
      ⟨rfl,fun z other => by simp [setNode,other]⟩,by simp [setNode],
      .inr ⟨rfl,by simp [ident,setNode]⟩⟩
    simp only [Lists.all,split,List.append_assoc]
    refine List.Perm.trans ?_ (List.Perm.append_left ls.heap List.perm_middle.symm)
    exact List.perm_middle.symm

theorem allocCrontab (h : Shape q ls) : ∃ p q' free, q.allocNode .crontab = (p,q') ∧
    Held q' { ls with freeCrontab := free } p ∧ Allocated q q' p ∧ (q'.nodes p).type = .crontab ∧
    (q'.ident p = -1 ∨ q.freeCrontabTimers = some p ∧ q'.ident p = q.ident p) := by
  unfold allocNode
  cases front : q.freeCrontabTimers with
  | none =>
    exact ⟨_,_,ls.freeCrontab,rfl,heldNew h _,⟨rfl,fun z other => by simp [setNode,other]⟩,
      by simp [setNode],.inl (by simp [ident,setNode,newNode])⟩
  | some p =>
    obtain ⟨free,split,walk⟩ := frontOf h.freeCrontab front
    refine ⟨p,_,free,rfl,heldOfPop h rfl rfl rfl rfl ?_ h.free walk,
      ⟨rfl,fun z other => by simp [setNode,other]⟩,by simp [setNode],
      .inr ⟨rfl,by simp [ident,setNode]⟩⟩
    simp only [Lists.all,split]
    exact List.perm_middle.symm

theorem shapeRelease (h : Shape q ls) {id : Int} (clear : id ∉ q.heapIds ls) :
    Shape (q.releaseTimerid id) ls := by
  unfold releaseTimerid
  split
  case isFalse => exact h
  case isTrue range =>
    refine ⟨?_,h.sizes,le_min range.1 h.low,h.crontab,h.free,h.freeCrontab,h.apart,h.made,
      h.general,h.crontabs,h.driven⟩
    refine settledCongr h.heap rfl rfl rfl (fun p hp => ?_) fun p _ => ⟨rfl,rfl⟩
    have other : q.ident p ≠ id := fun same => clear (same ▸ List.mem_map_of_mem hp)
    exact Function.update_of_ne other _ _

theorem heldRelease (h : Held q ls p) {id : Int} (clear : id ∉ q.heapIds ls) :
    Held (q.releaseTimerid id) ls p := by
  refine ⟨shapeRelease h.shape clear,h.off,?_⟩
  unfold releaseTimerid
  split <;> exact h.made

theorem releaseNodes (id : Int) : (q.releaseTimerid id).nodes = q.nodes := by
  unfold releaseTimerid
  split <;> rfl

/- A node put on the front of the free list of its type. -/
theorem shapeOfPush {q' : TimerQueue} {ls' : Lists} {n : TimerNode} (h : Held q ls p)
    (rest : q' = { q with
      nodes := q'.nodes
      freeTimerNodes := q'.freeTimerNodes
      freeCrontabTimers := q'.freeCrontabTimers })
    (nodes : q'.nodes = Function.update q.nodes p n)
    (heap : ls'.heap = ls.heap) (crontab : ls'.crontab = ls.crontab)
    (push : ls'.all.Perm (p :: ls.all))
    (free : Seg q'.nextOf q'.freeTimerNodes ls'.free none)
    (freeCrontab : Seg q'.nextOf q'.freeCrontabTimers ls'.freeCrontab none) : Shape q' ls' := by
  refine shapeOfLists h.shape rest heap crontab free freeCrontab
    (push.nodup_iff.mpr (List.nodup_cons.mpr ⟨h.off,h.shape.apart⟩)) (fun z hz => ?_) fun z hz => ?_
  · rcases List.mem_cons.mp (push.subset hz) with rfl | hz
    · exact h.made
    · exact h.shape.made z hz
  · have other : z ≠ p := by
      rintro rfl
      exact h.off ((List.mem_append.mp hz).elim (fun mem => memAll.mpr (.inl mem))
        fun mem => memAll.mpr (.inr (.inl mem)))
    rw [nodes,Function.update_of_ne other]

theorem recycleGeneral (type : (q.nodes p).type = .general) : q.recycle p = { q with
    nodes := Function.update q.nodes p { q.nodes p with crontabEntry := none, next := q.freeTimerNodes }
    freeTimerNodes := some p } := by
  unfold recycle
  rw [type]
  simp only [setNode,type]

theorem recycleCrontab (type : (q.nodes p).type = .crontab) : q.recycle p = { q with
    nodes := Function.update q.nodes p { q.nodes p with crontabEntry := none, next := q.freeCrontabTimers }
    freeCrontabTimers := some p } := by
  unfold recycle
  rw [type]
  simp only [setNode,type]

theorem heldRecycle (h : Held q ls p) :
    ((q.nodes p).type = .general → Shape (q.recycle p) { ls with free := p :: ls.free }) ∧
    ((q.nodes p).type = .crontab →
      Shape (q.recycle p) { ls with freeCrontab := p :: ls.freeCrontab }) := by
  have off := h.off
  simp only [memAll,not_or] at off
  constructor <;> intro type
  · have eq := recycleGeneral type
    have next := nextOfUpdate (congrArg TimerQueue.nodes eq)
    refine shapeOfPush h (by rw [eq]) (congrArg TimerQueue.nodes eq) rfl rfl ?_ ?_ ?_
    · simp only [Lists.all,List.append_assoc]
      refine (List.Perm.append_left ls.heap List.perm_middle).trans ?_
      exact List.perm_middle
    · rw [congrArg freeTimerNodes eq,next]
      refine ⟨rfl,?_⟩
      rw [Function.update_self,segUpdate off.2.2.1]
      exact h.shape.free
    · rw [congrArg freeCrontabTimers eq,next,segUpdate off.2.2.2]
      exact h.shape.freeCrontab
  · have eq := recycleCrontab type
    have next := nextOfUpdate (congrArg TimerQueue.nodes eq)
    refine shapeOfPush h (by rw [eq]) (congrArg TimerQueue.nodes eq) rfl rfl ?_ ?_ ?_
    · simp only [Lists.all]
      exact List.perm_middle
    · rw [congrArg freeTimerNodes eq,next,segUpdate off.2.2.1]
      exact h.shape.free
    · rw [congrArg freeCrontabTimers eq,next]
      refine ⟨rfl,?_⟩
      rw [Function.update_self,segUpdate off.2.2.2]
      exact h.shape.freeCrontab

theorem heldFree (h : Held q ls p) (clear : q.ident p ∉ q.heapIds ls) :
    ((q.nodes p).type = .general → Shape (q.freeNode p) { ls with free := p :: ls.free }) ∧
    ((q.nodes p).type = .crontab →
      Shape (q.freeNode p) { ls with freeCrontab := p :: ls.freeCrontab }) := by
  have freed := heldRecycle (heldRelease h clear)
  rw [releaseNodes] at freed
  exact freed

end Nodes

section Insert
variable {q : TimerQueue} {ls : Lists} {p : Ptr}

/- Room for one more general timer, or a growth that copies the id of each one. -/
def Fits (q : TimerQueue) (l : List Ptr) : Prop :=
  q.timerHeapSize ≤ q.currSize + 1 →
    q.currSize * 2 ≤ intMax ∧ q.currSize < q.grown.timerHeapSize ∧ ∀ z ∈ l, q.ident z < q.currSize

theorem makeRoomShape (h : Shape q ls) (fits : Fits q ls.heap) : ∃ q₁, q.makeRoom = some q₁ ∧
    Shape q₁ ls ∧ q₁.currSize < q₁.timerHeapSize ∧
    (q₁ = q ∧ q.currSize + 1 < q.timerHeapSize ∨
      q₁ = q.grown ∧ q.timerHeapSize ≤ q.currSize + 1) := by
  unfold makeRoom
  split
  case isFalse room =>
    have wide := not_le.mp room
    exact ⟨q,rfl,h,(Nat.lt_succ_self _).trans wide,.inl ⟨rfl,wide⟩⟩
  case isTrue full =>
    obtain ⟨small,room,kept⟩ := fits full
    refine ⟨q.grown,growHeapRuns small room.le,?_,room,.inr ⟨rfl,full⟩⟩
    exact ⟨grownSettled h.heap room.le kept,rfl,Int.natCast_nonneg _,h.crontab,h.free,
      h.freeCrontab,h.apart,h.made,h.general,h.crontabs,h.driven⟩

/- The queue an insert ends in, given where room was made. -/
structure Inserted (q q₁ q' : TimerQueue) (l : List Ptr) : Prop where
  room : q.makeRoom = some q₁
  grew : q₁ = q ∧ q.currSize + 1 < q.timerHeapSize ∨ q₁ = q.grown ∧ q.timerHeapSize ≤ q.currSize + 1
  moved : Rearranged { q₁ with currSize := q₁.currSize + 1 } q' l

theorem pushAll (off : p ∉ ls.all) (nodup : ls.all.Nodup) :
    (Lists.all { ls with heap := ls.heap ++ [p] }).Nodup := by
  simp only [Lists.all,List.nodup_append,List.mem_append,List.mem_singleton,List.nodup_cons,
    List.not_mem_nil,not_false_eq_true,List.nodup_nil,and_self] at *
  grind

/- A heap operation leaves what is not the heap as it was. -/
theorem rearrangedShape {q' : TimerQueue} {heap : List Ptr} {m : Nat} (h : Shape q ls)
    (settled : Settled q' m heap)
    (moved : Rearranged { q with currSize := m } q' heap) (apart : (Lists.all { ls with heap := heap }).Nodup)
    (made : ∀ z ∈ heap, z < q.made) (general : ∀ z ∈ heap, (q.nodes z).type = .general)
    (driven : ∀ z ∈ heap, (q.nodes z).handler ≠ none) : Shape q' { ls with heap := heap } := by
  have nodes : q'.nodes = q.nodes := by rw [moved.rest]
  refine ⟨?_,?_,?_,?_,?_,?_,apart,fun z hz => ?_,?_,?_,?_⟩
  · rw [show q'.currSize = m by rw [moved.rest]]
    exact settled
  · rw [moved.rest]
    exact h.sizes
  · rw [moved.rest]
    exact h.low
  · rw [moved.rest]
    exact h.crontab
  · rw [moved.rest]
    exact h.free
  · rw [moved.rest]
    exact h.freeCrontab
  · rw [show q'.made = q.made by rw [moved.rest]]
    rcases memAll.mp hz with hz | hz
    · exact made z hz
    · exact h.made z (memAll.mpr (.inr hz))
  · exact nodes ▸ general
  · exact nodes ▸ h.crontabs
  · exact nodes ▸ driven

theorem insertShape (h : Held q ls p) (type : (q.nodes p).type = .general)
    (driven : (q.nodes p).handler ≠ none) (range : 0 ≤ q.ident p ∧ q.ident p < q.timerIdsSize)
    (new : q.ident p ∉ q.heapIds ls) (fits : Fits q ls.heap) :
    ∃ q₁ q', q.insert p = some q' ∧ Shape q' { ls with heap := ls.heap ++ [p] } ∧
      Inserted q q₁ q' (ls.heap ++ [p]) := by
  obtain ⟨q₁,made,shape,room,grew⟩ := makeRoomShape h.shape fits
  have nodes : q₁.nodes = q.nodes ∧ q₁.made = q.made := by
    rcases grew with ⟨rfl,_⟩ | ⟨rfl,_⟩ <;> exact ⟨rfl,rfl⟩
  have idents : q₁.ident = q.ident := by funext z; simp only [ident,nodes.1]
  have wide : q₁.ident p < q₁.timerIdsSize := by
    rw [idents]
    rcases grew with ⟨rfl,_⟩ | ⟨rfl,full⟩
    · exact range.2
    · have := h.shape.sizes
      have : q.grown.timerIdsSize = q.grown.timerHeapSize := rfl
      have : q.grown.currSize = q.currSize := rfl
      omega
  have fresh : q₁.ident p ∉ ls.heap.map q₁.ident := idents ▸ new
  obtain ⟨q',runs,settled,moved⟩ :=
    insertSettles shape.heap room ⟨by rw [idents]; exact range.1,wide⟩ fresh
  have size : q'.currSize = q₁.currSize := by rw [moved.rest]
  have moved' : Rearranged { q₁ with currSize := q₁.currSize + 1 }
      { q' with currSize := q'.currSize + 1 } (ls.heap ++ [p]) := by
    refine ⟨?_,moved.ids⟩
    rw [moved.rest]
  have onHeap {P : Ptr → Prop} (old : ∀ z ∈ ls.heap, P z) (this : P p) : ∀ z ∈ ls.heap ++ [p], P z := by
    intro z hz
    rcases List.mem_append.mp hz with hz | hz
    · exact old z hz
    · exact List.mem_singleton.mp hz ▸ this
  refine ⟨q₁,_,?_,?_,made,grew,moved'⟩
  · unfold insert
    rw [type]
    simp only [insertGeneral,made,runs,bind,Option.bind]
  · refine rearrangedShape shape (settledResize settled _) moved' (pushAll h.off h.shape.apart) ?_ ?_ ?_
    · exact onHeap (fun z hz => shape.made z (memAll.mpr (.inl hz))) (nodes.2 ▸ h.made)
    · exact onHeap shape.general (nodes.1 ▸ type)
    · exact onHeap shape.driven (nodes.1 ▸ driven)

end Insert

section Remove
variable {q : TimerQueue} {ls : Lists} {slot : Nat}

def Lists.drop (ls : Lists) (p : Ptr) : Lists := { ls with heap := ls.heap.erase p }

theorem removeHeld (h : Shape q ls) (inside : slot < q.currSize) :
    ∃ q', q.remove slot = some (q.slotNode slot,q') ∧ Held q' (ls.drop (q.slotNode slot)) (q.slotNode slot) ∧
      Rearranged q.shrunk q' (ls.heap.erase (q.slotNode slot)) := by
  obtain ⟨q',runs,settled,moved⟩ := removeSettles h.heap inside
  have mem := indexedMem h.heap.indexed inside
  have sub : List.Sublist (ls.drop (q.slotNode slot)).all ls.all :=
    (((List.erase_sublist).append (List.Sublist.refl _)).append (List.Sublist.refl _)).append
      (List.Sublist.refl _)
  have gone : q.slotNode slot ∉ (ls.drop (q.slotNode slot)).all := by
    have nodup := h.apart
    simp only [Lists.all,Lists.drop,List.nodup_append,List.mem_append] at nodup ⊢
    have once := nodup.1.1.1.not_mem_erase (a := q.slotNode slot)
    grind
  refine ⟨q',runs,⟨?_,gone,?_⟩,moved⟩
  · exact rearrangedShape h settled moved (sub.nodup h.apart)
      (fun z hz => h.made z (memAll.mpr (.inl (List.mem_of_mem_erase hz))))
      (fun z hz => h.general z (List.mem_of_mem_erase hz))
      fun z hz => h.driven z (List.mem_of_mem_erase hz)
  · rw [show q'.made = q.made by rw [moved.rest]; rfl]
    exact h.made _ (memAll.mpr (.inl mem))

/- The id of the node taken off is the id of none of those left. -/
theorem removedClear (h : Shape q ls) (inside : slot < q.currSize) :
    q.ident (q.slotNode slot) ∉ q.heapIds (ls.drop (q.slotNode slot)) := by
  have mem := indexedMem h.heap.indexed inside
  have order := List.perm_cons_erase mem
  have once := (order.map q.ident).nodup_iff.mp h.heap.indexed.distinct
  exact (List.nodup_cons.mp once).1

end Remove

/- The ids of the general timers, and the table around them. -/
section Ids
variable {q : TimerQueue} {ls : Lists} {ids : List Int}

theorem vacantRearranged {q' : TimerQueue} {l : List Ptr} (h : Vacant q ids) (moved : Rearranged q q' l)
    (covered : ∀ p ∈ l, q.ident p ∈ ids) : Vacant q' ids := by
  intro k low high off
  rw [show q'.timerIdsSize = q.timerIdsSize by rw [moved.rest]] at high
  rw [moved.ids k fun mem => ?_]
  · exact h k low high off
  · obtain ⟨p,hp,rfl⟩ := List.mem_map.mp mem
    exact off (covered p hp)

theorem vacantMono {ids' : List Int} (h : Vacant q ids) (sub : ids ⊆ ids') : Vacant q ids' :=
  fun k low high off => h k low high fun mem => off (sub mem)

theorem vacantRelease {id : Int} (h : Vacant q (id :: ids)) :
    Vacant (q.releaseTimerid id) ids := by
  unfold releaseTimerid
  split
  case isTrue range =>
    intro k low high off
    by_cases same : k = id
    · subst k
      exact Function.update_self _ _ _
    · exact (Function.update_of_ne same _ _).trans (h k low high (by simp [same,off]))
  case isFalse range =>
    intro k low high off
    have other : k ≠ id := by
      rintro rfl
      exact range ⟨low,high⟩
    exact h k low high (by simp [other,off])

theorem vacantGrown (h : Vacant q ids) (room : q.currSize ≤ q.timerIdsSize) : Vacant q.grown ids := by
  intro k low high off
  change (if k < q.currSize then q.timerIds k else -1) = -1
  split
  case isFalse => rfl
  case isTrue old => exact h k low (by omega) off

theorem firstFreeSound {table : Int → Int} {n : Nat} {i k : Int} (h : firstFree table n i = some k) :
    i ≤ k ∧ k < i + n ∧ table k = -1 ∧ ∀ j, i ≤ j → j < k → table j ≠ -1 := by
  induction n generalizing i with
  | zero => exact absurd h nofun
  | succ n ih =>
    simp only [firstFree] at h
    split at h
    case isTrue free =>
      cases Option.some.inj h
      exact ⟨le_rfl,by omega,free,fun j _ _ => by omega⟩
    case isFalse taken =>
      obtain ⟨low,high,free,before⟩ := ih h
      refine ⟨by omega,by omega,free,fun j hj below => ?_⟩
      by_cases here : j = i
      · exact here ▸ taken
      · exact before j (by omega) below

theorem firstFreeNone {table : Int → Int} {n : Nat} {i : Int} (h : firstFree table n i = none) :
    ∀ j, i ≤ j → j < i + n → table j ≠ -1 := by
  induction n generalizing i with
  | zero => intro j _ _; omega
  | succ n ih =>
    simp only [firstFree] at h
    split at h <;> try contradiction
    rename_i taken
    intro j low high
    by_cases here : j = i
    · exact here ▸ taken
    · exact ih h j (by omega) (by omega)

/- n different ids below n are all of them. -/
theorem idsBelow {l : List Int} {n : Nat} (distinct : l.Nodup) (length : l.length = n)
    (range : ∀ k ∈ l, 0 ≤ k ∧ k < n) {k : Int} (low : 0 ≤ k) (high : k < n) : k ∈ l := by
  have inside : l ⊆ (List.range n).map Int.ofNat := fun j hj => by
    have := range j hj
    exact List.mem_map.mpr ⟨j.toNat,List.mem_range.mpr (by omega),by simp; omega⟩
  have all := (List.subperm_of_subset distinct inside).perm_of_length_le (by simp [length])
  exact all.symm.subset (List.mem_map.mpr ⟨k.toNat,List.mem_range.mpr (by omega),by simp; omega⟩)

/- An id handed out is vacant in the table and inside it. -/
theorem freeIdSound (h : Shape q ls) {k : Int} (got : q.freeId = some k) :
    q.minTimerId ≤ k ∧ k < q.timerIdsSize ∧ q.timerIds k = -1 ∧ k ∉ q.heapIds ls ∧
      ∀ j, q.minTimerId ≤ j → j < k → q.timerIds j ≠ -1 := by
  obtain ⟨low,high,free,before⟩ := firstFreeSound got
  refine ⟨low,by omega,free,fun mem => ?_,before⟩
  obtain ⟨p,hp,rfl⟩ := List.mem_map.mp mem
  obtain ⟨i,_,_,at'⟩ := Lib.BinaryHeap.indexedSlot h.heap.indexed hp
  omega

end Ids

/- The nodes init makes are linked in the order they were made. -/
theorem initWalk (n : Nat) {k i : Nat} (split : i + k = n) :
    Seg (fun p => (initNode n p).next) (if i < n then some i else none) (List.range' i k) none := by
  induction k generalizing i with
  | zero => exact if_neg (by omega)
  | succ k ih => exact ⟨if_pos (by omega),ih (by omega)⟩

theorem makeShape (maxSize : Int) (preAlloc : Nat) :
    Shape (make maxSize preAlloc) ⟨[],[],List.range' 0 preAlloc,[]⟩ := by
  have all : Lists.all ⟨[],[],List.range' 0 preAlloc,[]⟩ = List.range' 0 preAlloc := by
    simp [Lists.all]
  refine ⟨⟨⟨List.Perm.nil,List.nodup_nil,nofun⟩,nofun,Nat.zero_le _,nofun,nofun⟩,rfl,le_rfl,
    ⟨rfl,rfl⟩,initWalk preAlloc (Nat.zero_add preAlloc),rfl,?_,?_,nofun,nofun,nofun⟩
  · rw [all]
    exact List.nodup_range'
  · rw [all]
    intro p hp
    have inside := (List.mem_range'_1.mp hp).2
    exact inside.trans_le (Nat.zero_add preAlloc).le

theorem makeVacant (maxSize : Int) (preAlloc : Nat) (ids : List Int) :
    Vacant (make maxSize preAlloc) ids := fun _ _ _ _ => rfl

end CuteNdk.TimerQueue
