import CuteNdk.TimerOps

/-! A timer_queue of general timers whatever has become of its ids. A growth of
the arrays may leave ids out of the table, so that two timers come to share one;
what the table still says points at a timer of the heap with that id, and the
heap stays a heap of different nodes. -/
namespace CuteNdk.TimerQueue
open Lib (Seg segUpdate)
open Lib.BinaryHeap (parentLt memContents)

/- The table says nothing of an id, or a slot of the heap whose node has it. -/
def Points (q : TimerQueue) (n : Nat) (except : Int → Prop) : Prop :=
  ∀ k, ¬except k → 0 ≤ q.timerIds k → ∃ i < n, q.timerIds k = i ∧ q.ident (q.slotNode i) = k

structure Loose (q : TimerQueue) (heap free : List Ptr) (except : Int → Prop) : Prop where
  order : Heaped q q.currSize heap
  points : Points q q.currSize except
  sizes : q.timerHeapSize = q.timerIdsSize
  low : 0 ≤ q.minTimerId
  crontab : q.crontabTimers = none
  walk : Seg q.nextOf q.freeTimerNodes free none
  apart : (heap ++ free).Nodup
  made : ∀ p ∈ heap ++ free, p < q.made
  general : ∀ p ∈ heap, (q.nodes p).type = .general
  driven : ∀ p ∈ heap, (q.nodes p).handler ≠ none
  wide : 2 ≤ q.timerHeapSize
  under : q.currSize = 0 ∨ (q.currSize : Int) ≤ q.maxSize
  doubles : q.timerHeapSize ≤ q.currSize → (q.currSize - 1) * 2 ≤ intMax

/- A node an operation holds: neither in the heap nor on the free list. -/
structure Outside (q : TimerQueue) (heap free : List Ptr) (except : Int → Prop) (p : Ptr) : Prop where
  loose : Loose q heap free except
  off : p ∉ heap ++ free
  made : p < q.made

section Frame
variable {q q' : TimerQueue} {heap free free' : List Ptr} {except : Int → Prop} {n : Nat}

theorem heapedCongr {l : List Ptr} (h : Heaped q n l) (array : q'.timerHeap = q.timerHeap)
    (heapSize : q'.timerHeapSize = q.timerHeapSize) (idsSize : q'.timerIdsSize = q.timerIdsSize)
    (same : ∀ p ∈ l, q'.ident p = q.ident p ∧ q'.value p = q.value p) : Heaped q' n l := by
  have slots : q'.slotNode = q.slotNode := by
    funext i
    simp only [slotNode,array]
  have reads : q'.heapAt = q.heapAt := by
    funext i
    simp only [heapAt,array,heapSize]
  have mem : ∀ i < n, q.slotNode i ∈ l := fun i hi => h.holds.subset (memContents.mpr ⟨i,hi,rfl⟩)
  refine ⟨slots ▸ h.holds,fun i hi => ?_,heapSize ▸ h.room,fun p hp => ?_,fun i off hi => ?_⟩
  · rw [reads,slots]
    exact h.filled i hi
  · rw [(same p hp).1,idsSize]
    exact h.range p hp
  · rw [slots,(same _ (mem i hi)).2,(same _ (mem _ ((parentLt off).trans hi))).2]
    exact h.ordered i off hi

/- What nodes off the heap become, and where the free list runs, is free to
change. -/
theorem looseCongr (h : Loose q heap free except)
    (rest : q' = { q with
      nodes := q'.nodes
      freeTimerNodes := q'.freeTimerNodes
      minTimerId := q'.minTimerId
      made := q'.made
      calls := q'.calls })
    (low : 0 ≤ q'.minTimerId)
    (same : ∀ p ∈ heap, q'.nodes p = { q.nodes p with interval := (q'.nodes p).interval })
    (walk : Seg q'.nextOf q'.freeTimerNodes free' none) (apart : (heap ++ free').Nodup)
    (made : ∀ p ∈ heap ++ free', p < q'.made) : Loose q' heap free' except := by
  have nodes : ∀ p ∈ heap, q'.ident p = q.ident p ∧ q'.value p = q.value p ∧
      (q'.nodes p).type = (q.nodes p).type ∧ (q'.nodes p).handler = (q.nodes p).handler := by
    intro p hp
    have eq := same p hp
    simp only [ident,value]
    rw [eq]
    simp
  have size : q'.currSize = q.currSize := by rw [rest]
  have slots : q'.slotNode = q.slotNode := by
    funext i
    rw [rest]
    rfl
  refine ⟨?_,?_,?_,low,?_,walk,apart,made,fun p hp => ?_,fun p hp => ?_,?_,?_,?_⟩
  · rw [size]
    refine heapedCongr h.order ?_ ?_ ?_ fun p hp => ⟨(nodes p hp).1,(nodes p hp).2.1⟩ <;> rw [rest]
  · intro k off nonneg
    rw [show q'.timerIds = q.timerIds by rw [rest]] at nonneg ⊢
    obtain ⟨i,hi,at',id⟩ := h.points k off nonneg
    refine ⟨i,size ▸ hi,at',?_⟩
    rw [slots,(nodes _ (h.order.holds.subset (memContents.mpr ⟨i,hi,rfl⟩))).1]
    exact id
  · rw [rest]
    exact h.sizes
  · rw [rest]
    exact h.crontab
  · rw [(nodes p hp).2.2.1]
    exact h.general p hp
  · rw [(nodes p hp).2.2.2]
    exact h.driven p hp
  · rw [rest]
    exact h.wide
  · rw [rest]
    exact h.under
  · rw [rest]
    exact h.doubles

theorem outsideSetNode {p : Ptr} (h : Outside q heap free except p) (n : TimerNode) :
    Outside (q.setNode p n) heap free except p := by
  obtain ⟨offHeap,offFree⟩ := not_or.1 (fun mem => h.off (List.mem_append.2 mem))
  have next : (q.setNode p n).nextOf = Function.update q.nextOf p n.next := nextOfUpdate rfl
  refine ⟨looseCongr h.loose rfl h.loose.low (fun z hz => ?_) ?_ h.loose.apart h.loose.made,h.off,h.made⟩
  · have other : z ≠ p := fun same => offHeap (same ▸ hz)
    simp [setNode,other]
  · rw [next,segUpdate offFree]
    exact h.loose.walk

theorem looseCalls (h : Loose q heap free except) (c : List Call) :
    Loose { q with calls := c } heap free except :=
  looseCongr h rfl h.low (fun _ _ => rfl) h.walk h.apart h.made

/- An id given back: the table says nothing of it. -/
theorem looseRelease (h : Loose q heap free except) {id : Int}
    (inside : except id → 0 ≤ id ∧ id < q.timerIdsSize) :
    Loose (q.releaseTimerid id) heap free (fun k => except k ∧ k ≠ id) := by
  unfold releaseTimerid
  split
  case isFalse out =>
    refine { h with points := fun k off nonneg => h.points k (fun is => off ⟨is,?_⟩) nonneg }
    rintro rfl
    exact out (inside is)
  case isTrue range =>
    refine { h with
      order := heapedCongr h.order rfl rfl rfl fun _ _ => ⟨rfl,rfl⟩
      points := fun k off nonneg => ?_
      low := le_min range.1 h.low }
    by_cases same : k = id
    · subst k
      simp only [Function.update_self] at nonneg
      exact absurd nonneg (by decide)
    · simp only [Function.update_of_ne same] at nonneg ⊢
      exact h.points k (fun is => off ⟨is,same⟩) nonneg

theorem looseRecycle {p : Ptr} (h : Outside q heap free except p) (type : (q.nodes p).type = .general) :
    Loose (q.recycle p) heap (p :: free) except := by
  obtain ⟨offHeap,offFree⟩ := not_or.1 (fun mem => h.off (List.mem_append.2 mem))
  rw [recycleGeneral type]
  refine looseCongr h.loose rfl h.loose.low (fun z hz => ?_) ?_ ?_ fun z hz => ?_
  · have other : z ≠ p := fun same => offHeap (same ▸ hz)
    simp [other]
  · refine ⟨rfl,?_⟩
    rw [nextOfUpdate rfl,Function.update_self,segUpdate offFree]
    exact h.loose.walk
  · exact List.perm_middle.nodup_iff.2 (List.nodup_cons.2 ⟨h.off,h.loose.apart⟩)
  · rcases List.mem_cons.1 (List.perm_middle.subset hz) with rfl | old
    · exact h.made
    · exact h.loose.made z old

/- free_node: nothing is left to except once the id of the node is given back. -/
theorem looseFree {p : Ptr} (h : Outside q heap free except p) (type : (q.nodes p).type = .general)
    (inside : except (q.ident p) → 0 ≤ q.ident p ∧ q.ident p < q.timerIdsSize) :
    Loose (q.freeNode p) heap (p :: free) (fun k => except k ∧ k ≠ q.ident p) := by
  have made : p < (q.releaseTimerid (q.ident p)).made := by
    unfold releaseTimerid
    split <;> exact h.made
  unfold freeNode
  refine looseRecycle ⟨looseRelease h.loose inside,h.off,made⟩ ?_
  rw [releaseNodes]
  exact type

theorem looseMono (h : Loose q heap free except) {wider : Int → Prop} (sub : ∀ k, except k → wider k) :
    Loose q heap free wider :=
  { h with points := fun k off => h.points k fun is => off (sub k is) }

end Frame

/- The table while a node is on its way: it points at no hole. -/
section Sift
variable {q q₀ : TimerQueue} {heap free l : List Ptr} {except : Int → Prop} {n s : Nat} {p : Ptr}

structure OnTheWay (q₀ q : TimerQueue) (n s : Nat) (except : Int → Prop) : Prop where
  rest : q = { q₀ with timerHeap := q.timerHeap, timerIds := q.timerIds }
  points : ∀ k, ¬except k → 0 ≤ q.timerIds k →
    ∃ i < n, i ≠ s ∧ q.timerIds k = i ∧ q.ident (q.slotNode i) = k

theorem onTheWayKeeps : ∀ q s t, Moving q n l s p → OnTheWay q₀ q n s except → t < n → t ≠ s →
    OnTheWay q₀ (q.placed s (q.slotNode t)) n t except := by
  intro q s t moving h inside apart
  refine ⟨?_,fun k off nonneg => ?_⟩
  · rw [h.rest]
    rfl
  · by_cases same : k = q.ident (q.slotNode t)
    · refine ⟨s,moving.inside,apart.symm,?_,?_⟩
      · simp [placed,same]
      · rw [placedSlots,Function.update_self]
        exact same.symm
    · have kept : (q.placed s (q.slotNode t)).timerIds k = q.timerIds k := Function.update_of_ne same _ _
      rw [kept] at nonneg ⊢
      obtain ⟨i,hi,here,at',id⟩ := h.points k off nonneg
      refine ⟨i,hi,?_,at',?_⟩
      · rintro rfl
        exact same id.symm
      · rw [placedSlots,Function.update_of_ne here]
        exact id

/- At the end the table has the node's own id again. -/
theorem arrivesHeaped {r : Option TimerQueue} (arrives : Arrives (fun q s => OnTheWay q₀ q n s except) n l p r) :
    ∃ q', r = some q' ∧ Heaped q' n l ∧ Points q' n (fun k => except k ∧ k ≠ q₀.ident p) ∧
      q' = { q₀ with timerHeap := q'.timerHeap, timerIds := q'.timerIds } := by
  obtain ⟨q,s,runs,way,moving,hole,above,below⟩ := arrives
  have idents : q.ident p = q₀.ident p := by
    rw [way.rest]
    rfl
  refine ⟨_,runs,⟨?_,?_,moving.room,moving.range,?_⟩,fun k off nonneg => ?_,?_⟩
  · rw [placedSlots]
    exact moving.holds
  · exact filledPlaced moving.filled (moving.inside.trans_le moving.room)
  · rw [placedSlots]
    exact Lib.BinaryHeap.orderedOfHole hole above below
  · by_cases same : k = q.ident p
    · refine ⟨s,moving.inside,?_,?_⟩
      · simp [placed,same]
      · rw [placedSlots,Function.update_self]
        exact same.symm
    · have kept : (q.placed s p).timerIds k = q.timerIds k := Function.update_of_ne same _ _
      rw [kept] at nonneg ⊢
      obtain ⟨i,hi,here,at',id⟩ := way.points k (fun is => off ⟨is,fun eq => same (eq.trans idents.symm)⟩) nonneg
      refine ⟨i,hi,at',?_⟩
      rw [placedSlots,Function.update_of_ne here]
      exact id
  · rw [way.rest]
    rfl

theorem looseMem (h : Loose q heap free except) {i : Nat} (hi : i < q.currSize) : q.slotNode i ∈ heap :=
  h.order.holds.subset (memContents.mpr ⟨i,hi,rfl⟩)

/- remove hands out the node of the slot; only its own id may be wrong in the
table after it. -/
theorem looseRemove {slot : Nat} (h : Loose q heap free fun _ => False) (inside : slot < q.currSize) :
    ∃ q', q.remove slot = some (q.slotNode slot,q') ∧
      Outside q' (heap.erase (q.slotNode slot)) free (fun k => k = q.ident (q.slotNode slot)) (q.slotNode slot) ∧
      q' = { q.shrunk with timerHeap := q'.timerHeap, timerIds := q'.timerIds } := by
  obtain ⟨n,size⟩ : ∃ n, q.currSize = n + 1 := ⟨q.currSize - 1,by omega⟩
  have shrunkSize : q.shrunk.currSize = n := by simp [shrunk,size]
  have mem := looseMem h inside
  have removed : ∃ q', q.remove slot = some (q.slotNode slot,q') ∧ Heaped q' n (heap.erase (q.slotNode slot)) ∧
      Points q' n (fun k => k = q.ident (q.slotNode slot)) ∧
      q' = { q.shrunk with timerHeap := q'.timerHeap, timerIds := q'.timerIds } := by
    have whole : Heaped q.shrunk (q.shrunk.currSize + 1) heap := by
      rw [shrunkSize,← size]
      exact ⟨h.order.holds,h.order.filled,h.order.room,h.order.range,h.order.ordered⟩
    simp only [remove,h.order.filled slot inside,bind,Option.bind]
    split
    case isTrue inner =>
      have start : OnTheWay q.shrunk (q.shrunk.placed slot (q.shrunk.slotNode q.shrunk.currSize))
          q.shrunk.currSize slot
          (fun k => k = q.ident (q.slotNode slot) ∨ k = q.ident (q.slotNode n)) := by
        refine ⟨rfl,fun k off nonneg => ?_⟩
        rw [not_or] at off
        have kept : (q.shrunk.placed slot (q.shrunk.slotNode q.shrunk.currSize)).timerIds k = q.timerIds k := by
          refine Function.update_of_ne ?_ _ _
          rw [shrunkSize]
          exact off.2
        rw [kept] at nonneg ⊢
        obtain ⟨i,hi,at',id⟩ := h.points k not_false nonneg
        have notSlot : i ≠ slot := by
          rintro rfl
          exact off.1 id.symm
        have notLast : i ≠ n := by
          rintro rfl
          exact off.2 id.symm
        refine ⟨i,by omega,notSlot,at',?_⟩
        rw [placedSlots,Function.update_of_ne notSlot]
        exact id
      obtain ⟨q',runs,heaped,points,rest⟩ := arrivesHeaped (refillArrives onTheWayKeeps whole inner start)
      refine ⟨q',by simp only [shrunk] at runs; rw [runs],shrunkSize ▸ heaped,fun k off nonneg => ?_,rest⟩
      rw [← shrunkSize]
      refine points k (fun both => both.1.elim off fun last => both.2 ?_) nonneg
      rw [last,shrunkSize]
      rfl
    case isFalse outer =>
      have atEnd : slot = n := by omega
      subst slot
      refine ⟨q.shrunk,rfl,⟨?_,fun i hi => whole.filled i (by omega),?_,?_,?_⟩,fun k off nonneg => ?_,rfl⟩
      · rw [shrunkSize] at whole
        exact Lib.BinaryHeap.contentsDropLast whole.holds
      · have := h.order.room
        change n ≤ q.timerHeapSize
        omega
      · exact fun z hz => h.order.range z (List.mem_of_mem_erase hz)
      · exact fun i off hi => whole.ordered i off (by omega)
      · obtain ⟨i,hi,at',id⟩ := h.points k not_false nonneg
        have notLast : i ≠ n := by
          rintro rfl
          exact off id.symm
        exact ⟨i,by omega,at',id⟩
  obtain ⟨q',runs,heaped,points,rest⟩ := removed
  have sub : List.Sublist (heap.erase (q.slotNode slot) ++ free) (heap ++ free) :=
    List.erase_sublist.append (List.Sublist.refl free)
  have nodes : q'.nodes = q.nodes := by rw [rest]; rfl
  have curr : q'.currSize = n := by rw [rest]; exact shrunkSize
  refine ⟨q',runs,⟨⟨curr ▸ heaped,curr ▸ points,?_,?_,?_,?_,sub.nodup h.apart,?_,?_,?_,?_,?_,?_⟩,?_,?_⟩,rest⟩
  · rw [rest]
    exact h.sizes
  · rw [rest]
    exact h.low
  · rw [rest]
    exact h.crontab
  · have next : q'.nextOf = q.nextOf := by
      funext z
      simp only [nextOf,nodes]
    rw [next,show q'.freeTimerNodes = q.freeTimerNodes by rw [rest]; rfl]
    exact h.walk
  · intro z hz
    rw [show q'.made = q.made by rw [rest]; rfl]
    exact h.made z (sub.subset hz)
  · rw [nodes]
    exact fun z hz => h.general z (List.mem_of_mem_erase hz)
  · rw [nodes]
    exact fun z hz => h.driven z (List.mem_of_mem_erase hz)
  · rw [rest]
    exact h.wide
  · have under := h.under
    have same : q'.maxSize = q.maxSize := by rw [rest]; rfl
    rw [curr,same]
    omega
  · have doubles := h.doubles
    have same : q'.timerHeapSize = q.timerHeapSize := by rw [rest]; rfl
    rw [curr,same]
    omega
  · have nodup := List.nodup_append.1 h.apart
    rw [List.mem_append,not_or]
    exact ⟨nodup.1.not_mem_erase,fun inFree => nodup.2.2 _ mem _ inFree rfl⟩
  · rw [show q'.made = q.made by rw [rest]; rfl]
    exact h.made _ (List.mem_append_left _ mem)

/- Growth copies the whole heap, whatever it leaves out of the table. -/
theorem looseGrown (h : Loose q heap free except) (room : q.currSize ≤ q.grown.timerHeapSize)
    (wider : q.timerHeapSize ≤ q.grown.timerHeapSize) : Heaped q.grown q.currSize heap ∧
      Points q.grown q.currSize except := by
  have slots : ∀ i < q.currSize, q.grown.slotNode i = q.slotNode i := fun i hi => by
    simp [slotNode,grown,hi]
  refine ⟨⟨?_,fun i hi => ?_,room,fun z hz => ?_,fun i off hi => ?_⟩,fun k off nonneg => ?_⟩
  · rw [Lib.BinaryHeap.contentsCongr slots]
    exact h.order.holds
  · have far : i < q.grown.timerHeapSize := hi.trans_le room
    rw [slots i hi,← h.order.filled i hi]
    simp only [heapAt,if_pos far,if_pos (hi.trans_le h.order.room)]
    exact if_pos hi
  · have range := h.order.range z hz
    have sizes := h.sizes
    have same : q.grown.timerIdsSize = q.grown.timerHeapSize := rfl
    exact ⟨range.1,by change q.ident z < _; omega⟩
  · rw [slots i hi,slots _ ((parentLt off).trans hi)]
    exact h.order.ordered i off hi
  · have entry : q.grown.timerIds k = if k < q.currSize then q.timerIds k else -1 := rfl
    rw [entry] at nonneg ⊢
    split at nonneg
    case isTrue small =>
      obtain ⟨i,hi,at',id⟩ := h.points k off nonneg
      refine ⟨i,hi,?_,?_⟩
      · rw [if_pos small]
        exact at'
      · rw [slots i hi]
        exact id
    case isFalse => omega

/- insert, with the arrays grown where they have to: they never get shorter, and
a size that fits once fits again. -/
theorem looseInsert (h : Outside q heap free except p) (type : (q.nodes p).type = .general)
    (driven : (q.nodes p).handler ≠ none) (range : 0 ≤ q.ident p ∧ q.ident p < q.timerIdsSize)
    (below : (q.currSize : Int) < q.maxSize) (small : q.timerHeapSize ≤ q.currSize + 1 → q.currSize * 2 ≤ intMax) :
    ∃ q', q.insert p = some q' ∧ Loose q' (heap ++ [p]) free (fun k => except k ∧ k ≠ q.ident p) ∧
      q'.nodes = q.nodes ∧ q'.calls = q.calls := by
  have loose := h.loose
  have wide := loose.wide
  obtain ⟨q₁,made,order,points,room,ids,q₁Rest,doubled⟩ : ∃ q₁, q.makeRoom = some q₁ ∧
      Heaped q₁ q.currSize heap ∧ Points q₁ q.currSize except ∧ q.currSize < q₁.timerHeapSize ∧
      (q.timerIdsSize ≤ q₁.timerIdsSize ∧ q₁.timerHeapSize = q₁.timerIdsSize ∧ 0 ≤ q₁.minTimerId) ∧
      q₁ = { q with
        timerHeap := q₁.timerHeap
        timerHeapSize := q₁.timerHeapSize
        timerIds := q₁.timerIds
        timerIdsSize := q₁.timerIdsSize
        minTimerId := q₁.minTimerId } ∧
      (q₁.timerHeapSize ≤ q.currSize + 1 → q.currSize * 2 ≤ intMax) := by
    have sizes := loose.sizes
    unfold makeRoom
    split
    case isFalse space =>
      exact ⟨q,rfl,loose.order,loose.points,by omega,⟨Nat.le_refl _,loose.sizes,loose.low⟩,rfl,
        fun full => absurd full space⟩
    case isTrue full =>
      have newSize : q.grown.timerHeapSize = (min ((q.currSize * 2 : Nat) : Int) q.maxSize).toNat := rfl
      have wider : q.currSize + 1 ≤ q.grown.timerHeapSize := by omega
      obtain ⟨order,points⟩ := looseGrown loose (by omega) (by omega)
      refine ⟨q.grown,growHeapRuns (small full) (by omega),order,points,wider,⟨?_,rfl,?_⟩,rfl,fun _ => small full⟩
      · change q.timerIdsSize ≤ q.grown.timerHeapSize
        omega
      · exact Int.natCast_nonneg _
  have nodes : q₁.nodes = q.nodes := by rw [q₁Rest]
  have size : q₁.currSize = q.currSize := by rw [q₁Rest]
  have idents : q₁.ident = q.ident := by
    funext z
    simp only [ident,nodes]
  have start : OnTheWay q₁ q₁ (q₁.currSize + 1) q₁.currSize except := by
    refine ⟨rfl,fun k off nonneg => ?_⟩
    obtain ⟨i,hi,at',id⟩ := points k off nonneg
    exact ⟨i,by omega,by omega,at',id⟩
  have range₁ : 0 ≤ q₁.ident p ∧ q₁.ident p < q₁.timerIdsSize := by
    rw [idents]
    omega
  obtain ⟨q₂,runs,order₂,points₂,rest₂⟩ :=
    arrivesHeaped (insertArrives onTheWayKeeps (size ▸ order) (by omega) range₁ start)
  have nodes₂ : q₂.nodes = q.nodes := by
    rw [rest₂]
    exact nodes
  have size₂ : q₂.currSize = q.currSize := by
    rw [rest₂]
    exact size
  rw [idents] at points₂
  have inserted : q.insert p = some { q₂ with currSize := q₂.currSize + 1 } := by
    unfold insert
    rw [type]
    simp only [insertGeneral,made,runs,bind,Option.bind]
  have onHeap {P : Ptr → Prop} (old : ∀ z ∈ heap, P z) (this : P p) : ∀ z ∈ heap ++ [p], P z := by
    intro z hz
    rcases List.mem_append.mp hz with hz | hz
    · exact old z hz
    · exact List.mem_singleton.mp hz ▸ this
  have moved : (heap ++ [p] ++ free).Perm (p :: (heap ++ free)) := by
    rw [List.append_assoc]
    exact List.perm_middle
  refine ⟨_,inserted,⟨?_,?_,?_,?_,?_,?_,?_,?_,?_,?_,?_,?_,?_⟩,nodes₂,?_⟩
  · change Heaped _ (q₂.currSize + 1) _
    rw [size₂,← size]
    exact ⟨order₂.holds,order₂.filled,order₂.room,order₂.range,order₂.ordered⟩
  · change Points _ (q₂.currSize + 1) _
    rw [size₂,← size]
    exact points₂
  · change q₂.timerHeapSize = q₂.timerIdsSize
    rw [rest₂]
    exact ids.2.1
  · change 0 ≤ q₂.minTimerId
    rw [rest₂]
    exact ids.2.2
  · change q₂.crontabTimers = none
    rw [rest₂,q₁Rest]
    exact loose.crontab
  · have next : nextOf { q₂ with currSize := q₂.currSize + 1 } = q.nextOf := by
      funext z
      simp only [nextOf,nodes₂]
    rw [next]
    change Seg q.nextOf q₂.freeTimerNodes free none
    rw [rest₂,q₁Rest]
    exact loose.walk
  · exact moved.nodup_iff.2 (List.nodup_cons.2 ⟨h.off,loose.apart⟩)
  · intro z hz
    change z < q₂.made
    rw [rest₂,q₁Rest]
    rcases List.mem_cons.1 (moved.subset hz) with rfl | old
    · exact h.made
    · exact loose.made z old
  · change ∀ z ∈ heap ++ [p], (q₂.nodes z).type = .general
    rw [nodes₂]
    exact onHeap loose.general type
  · change ∀ z ∈ heap ++ [p], (q₂.nodes z).handler ≠ none
    rw [nodes₂]
    exact onHeap loose.driven driven
  · change 2 ≤ q₂.timerHeapSize
    rw [rest₂]
    change 2 ≤ q₁.timerHeapSize
    have := loose.sizes
    omega
  · right
    change ((q₂.currSize + 1 : Nat) : Int) ≤ q₂.maxSize
    have cap : q₂.maxSize = q.maxSize := by rw [rest₂,q₁Rest]
    omega
  · change q₂.timerHeapSize ≤ q₂.currSize + 1 → (q₂.currSize + 1 - 1) * 2 ≤ intMax
    have wider : q₂.timerHeapSize = q₁.timerHeapSize := by rw [rest₂]
    rw [size₂,wider]
    exact doubled
  · change q₂.calls = q.calls
    rw [rest₂,q₁Rest]

end Sift

end CuteNdk.TimerQueue
