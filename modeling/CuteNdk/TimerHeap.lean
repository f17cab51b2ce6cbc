import CuteNdk.TimerQueue

/-! What the heap operations of timer_queue do to the heap and the id table: a
node on its way to its slot leaves every other node placed, and each operation
ends with the heap in order and every timer where timer_ids_ says. -/
namespace CuteNdk.TimerQueue
open Lib.BinaryHeap (parent parentLt parentOfChild childrenOf Ordered Hole Above Below holeUp belowUp
  holeDown aboveDown orderedOfHole holeOfOrdered holeShrink holeCongr contents Indexed Pending
  pendingMove pendingSettle pendingSelf pendingPush pendingPop indexedDropLast indexedMem)

def slotNode (q : TimerQueue) (i : Nat) : Ptr := (q.timerHeap i).getD 0
def value (q : TimerQueue) (p : Ptr) : TimeValue := (q.nodes p).timerValue
def ident (q : TimerQueue) (p : Ptr) : Int := (q.nodes p).timerId

/- Only the heap array and the id table change, and the table only at the ids of l. -/
structure Rearranged (q q' : TimerQueue) (l : List Ptr) : Prop where
  rest : q' = { q with timerHeap := q'.timerHeap, timerIds := q'.timerIds }
  ids : ∀ k, k ∉ l.map q.ident → q'.timerIds k = q.timerIds k

theorem rearrangedRefl (q : TimerQueue) (l : List Ptr) : Rearranged q q l := ⟨rfl,fun _ _ => rfl⟩

theorem rearrangedTrans {q q₁ q₂ : TimerQueue} {l : List Ptr} (h : Rearranged q q₁ l)
    (h' : Rearranged q₁ q₂ l) : Rearranged q q₂ l := by
  have nodes : q₁.ident = q.ident := by rw [h.rest]; rfl
  refine ⟨?_,fun k off => ?_⟩
  · rw [h'.rest,h.rest]
  · rw [h'.ids k (nodes ▸ off),h.ids k off]

section Copy
variable {q : TimerQueue} {n s t : Nat} {l : List Ptr} {x : Ptr}

def placed (q : TimerQueue) (slot : Nat) (p : Ptr) : TimerQueue :=
  { q with
    timerHeap := Function.update q.timerHeap slot (some p)
    timerIds := Function.update q.timerIds (q.ident p) slot }

theorem placedSlots (slot : Nat) (p : Ptr) :
    (q.placed slot p).slotNode = Function.update q.slotNode slot p := by
  funext i
  by_cases here : i = slot
  · subst i; simp [slotNode,placed]
  · simp [slotNode,placed,here]

theorem placedHeapAt {slot i : Nat} (p : Ptr) (off : i ≠ slot) :
    (q.placed slot p).heapAt i = q.heapAt i := by
  simp [heapAt,placed,off]

theorem placedHere {slot : Nat} (p : Ptr) (inside : slot < q.timerHeapSize) :
    (q.placed slot p).heapAt slot = some p := by
  simp [heapAt,placed,inside]

theorem copyRuns {slot : Nat} {p : Ptr} (inside : slot < q.timerHeapSize)
    (range : 0 ≤ q.ident p ∧ q.ident p < q.timerIdsSize) :
    q.copy slot p = some (q.placed slot p) := by
  unfold copy
  exact if_pos ⟨inside,range.1,range.2⟩

theorem placedRearranged {slot : Nat} {p : Ptr} (mem : p ∈ l) :
    Rearranged q (q.placed slot p) l := by
  refine ⟨rfl,fun k off => ?_⟩
  have other : k ≠ q.ident p := fun same => off (same ▸ List.mem_map_of_mem mem)
  exact Function.update_of_ne other _ _

theorem filledPlaced {p : Ptr} (filled : ∀ i < n, i ≠ s → q.heapAt i = some (q.slotNode i))
    (wide : s < q.timerHeapSize) : ∀ i < n, (q.placed s p).heapAt i = some ((q.placed s p).slotNode i) := by
  intro i hi
  rw [placedSlots]
  by_cases here : i = s
  · subst i
    rw [placedHere _ wide,Function.update_self]
  · rw [placedHeapAt _ here,Function.update_of_ne here]
    exact filled i hi here

/- x is on its way to slot s; the other n - 1 slots hold the rest of l. -/
structure Sifting (q : TimerQueue) (n : Nat) (l : List Ptr) (s : Nat) (x : Ptr) : Prop where
  pending : Pending q.ident n l q.slotNode q.timerIds s x
  filled : ∀ i < n, i ≠ s → q.heapAt i = some (q.slotNode i)
  room : n ≤ q.timerHeapSize
  range : ∀ p ∈ l, 0 ≤ q.ident p ∧ q.ident p < q.timerIdsSize

/- The first n slots are a heap of the nodes of l and the table places them. -/
structure Settled (q : TimerQueue) (n : Nat) (l : List Ptr) : Prop where
  indexed : Indexed q.ident n l q.slotNode q.timerIds
  filled : ∀ i < n, q.heapAt i = some (q.slotNode i)
  room : n ≤ q.timerHeapSize
  range : ∀ p ∈ l, 0 ≤ q.ident p ∧ q.ident p < q.timerIdsSize
  ordered : Ordered q.value n q.slotNode

theorem siftingMove (h : Sifting q n l s x) (inside : t < n) (apart : t ≠ s) :
    Sifting (q.placed s (q.slotNode t)) n l t x := by
  have wide := h.pending.inside.trans_le h.room
  refine ⟨?_,fun i hi _ => filledPlaced h.filled wide i hi,h.room,h.range⟩
  rw [placedSlots]
  exact pendingMove h.pending inside apart

theorem siftingSettle (h : Sifting q n l s x) (hole : Hole q.value n q.slotNode s)
    (above : Above q.value q.slotNode s x) (below : Below q.value n q.slotNode s x) :
    Settled (q.placed s x) n l := by
  have wide := h.pending.inside.trans_le h.room
  refine ⟨?_,filledPlaced h.filled wide,h.room,h.range,?_⟩
  · rw [placedSlots]
    exact pendingSettle h.pending
  · rw [placedSlots]
    exact orderedOfHole hole above below

end Copy

section Sift
variable {q : TimerQueue} {n s : Nat} {l : List Ptr} {moved : Ptr}

/- x is on its way to slot s, whatever the table says meanwhile. -/
structure Moving (q : TimerQueue) (n : Nat) (l : List Ptr) (s : Nat) (x : Ptr) : Prop where
  inside : s < n
  holds : (contents n (Function.update q.slotNode s x)).Perm l
  filled : ∀ i < n, i ≠ s → q.heapAt i = some (q.slotNode i)
  room : n ≤ q.timerHeapSize
  range : ∀ p ∈ l, 0 ≤ q.ident p ∧ q.ident p < q.timerIdsSize

theorem movingSelf (h : Moving q n l s moved) : moved ∈ l :=
  h.holds.subset (Lib.BinaryHeap.memContents.mpr ⟨s,h.inside,Function.update_self s moved q.slotNode⟩)

theorem movingMem (h : Moving q n l s moved) {i : Nat} (hi : i < n) (off : i ≠ s) : q.slotNode i ∈ l :=
  h.holds.subset (Lib.BinaryHeap.memContents.mpr ⟨i,hi,Function.update_of_ne off moved q.slotNode⟩)

theorem movingCopy (h : Moving q n l s moved) {p : Ptr} (mem : p ∈ l) : q.copy s p = some (q.placed s p) :=
  copyRuns (h.inside.trans_le h.room) (h.range p mem)

theorem movingMove (h : Moving q n l s moved) {t : Nat} (inside : t < n) (apart : t ≠ s) :
    Moving (q.placed s (q.slotNode t)) n l t moved := by
  refine ⟨inside,?_,fun i hi _ => filledPlaced h.filled (h.inside.trans_le h.room) i hi,h.room,h.range⟩
  rw [placedSlots]
  exact (Lib.BinaryHeap.contentsMove h.inside inside apart).trans h.holds

/- The first n slots are a heap of the nodes of l, whatever the table says. -/
structure Heaped (q : TimerQueue) (n : Nat) (l : List Ptr) : Prop where
  holds : (contents n q.slotNode).Perm l
  filled : ∀ i < n, q.heapAt i = some (q.slotNode i)
  room : n ≤ q.timerHeapSize
  range : ∀ p ∈ l, 0 ≤ q.ident p ∧ q.ident p < q.timerIdsSize
  ordered : Ordered q.value n q.slotNode

theorem heapedOfSettled (h : Settled q n l) : Heaped q n l :=
  ⟨h.indexed.holds,h.filled,h.room,h.range,h.ordered⟩

/- A sift is at its end: its last copy puts the node where it belongs, and what
every move on the way keeps holds before that copy. -/
def Arrives (I : TimerQueue → Nat → Prop) (n : Nat) (l : List Ptr) (x : Ptr) (r : Option TimerQueue) : Prop :=
  ∃ q s, r = some (q.placed s x) ∧ I q s ∧ Moving q n l s x ∧ Hole q.value n q.slotNode s ∧
    Above q.value q.slotNode s x ∧ Below q.value n q.slotNode s x

theorem arrivesHere {I : TimerQueue → Nat → Prop} (h : Moving q n l s moved) (start : I q s)
    (hole : Hole q.value n q.slotNode s) (above : Above q.value q.slotNode s moved)
    (below : Below q.value n q.slotNode s moved) : Arrives I n l moved (q.copy s moved) :=
  ⟨q,s,movingCopy h (movingSelf h),start,h,hole,above,below⟩

theorem reheapUpArrives {I : TimerQueue → Nat → Prop}
    (keeps : ∀ q s t, Moving q n l s moved → I q s → t < n → t ≠ s → I (q.placed s (q.slotNode t)) t)
    {fuel : Nat} (enough : s ≤ fuel) (h : Moving q n l s moved) (start : I q s)
    (hole : Hole q.value n q.slotNode s) (below : Below q.value n q.slotNode s moved) :
    Arrives I n l moved (reheapUp moved fuel q s (parent s)) := by
  induction fuel generalizing q s with
  | zero =>
    have top : s = 0 := Nat.le_zero.mp enough
    subst s
    exact arrivesHere h start hole (fun off => absurd off (Nat.lt_irrefl 0)) below
  | succ fuel ih =>
    simp only [reheapUp]
    split
    case isFalse top => exact arrivesHere h start hole (fun off => absurd off top) below
    case isTrue off =>
      have up := parentLt off
      have apart := Nat.ne_of_lt up
      have inside := up.trans h.inside
      simp only [h.filled (parent s) inside apart,bind,Option.bind]
      split
      case isFalse stays => exact arrivesHere h start hole (fun _ => not_lt.mp stays) below
      case isTrue later =>
        simp only [movingCopy h (movingMem h inside apart)]
        have hole' := holeUp hole off h.inside
        have below' := belowUp hole later off
        rw [← placedSlots] at hole' below'
        exact ih (by omega) (movingMove h inside apart) (keeps q s (parent s) h start inside apart) hole' below'

/- The child reheap_down compares with: no other child is due before it. -/
theorem smallerChildLeast (filled : ∀ i < q.currSize, i ≠ s → q.heapAt i = some (q.slotNode i))
    (inside : s + s + 1 < q.currSize) :
    ∃ c, q.smallerChild (s + s + 1) = some c ∧ c < q.currSize ∧ 0 < c ∧ parent c = s ∧
      ∀ i, 0 < i → i < q.currSize → parent i = s →
        q.value (q.slotNode c) ≤ q.value (q.slotNode i) := by
  obtain ⟨left,right⟩ := @parentOfChild s
  unfold smallerChild
  split
  case isFalse alone =>
    refine ⟨_,rfl,inside,by omega,left,fun i off hi child => ?_⟩
    have only : i = s + s + 1 := by have := childrenOf off child; omega
    rw [only]
  case isTrue both =>
    simp only [filled (s + s + 1 + 1) both (by omega),filled (s + s + 1) inside (by omega),
      bind,Option.bind]
    split
    case isTrue later =>
      refine ⟨_,rfl,both,by omega,right,fun i off hi child => ?_⟩
      rcases childrenOf off child with same | same <;> rw [same]
      exact le_of_lt later
    case isFalse sooner =>
      refine ⟨_,rfl,inside,by omega,left,fun i off hi child => ?_⟩
      rcases childrenOf off child with same | same <;> rw [same]
      exact not_lt.mp sooner

theorem reheapDownArrives {I : TimerQueue → Nat → Prop}
    (keeps : ∀ q s t, Moving q n l s moved → I q s → t < n → t ≠ s → I (q.placed s (q.slotNode t)) t)
    {fuel : Nat} (size : q.currSize = n) (enough : n - s < fuel) (h : Moving q n l s moved)
    (start : I q s) (hole : Hole q.value n q.slotNode s) (above : Above q.value q.slotNode s moved) :
    Arrives I n l moved (reheapDown moved fuel q s (s + s + 1)) := by
  induction fuel generalizing q s with
  | zero => omega
  | succ fuel ih =>
    subst size
    simp only [reheapDown]
    split
    case isFalse leaf =>
      refine arrivesHere h start hole above fun i off hi child => ?_
      have := childrenOf off child
      omega
    case isTrue inside =>
      obtain ⟨c,chosen,cIn,cOff,child,least⟩ := smallerChildLeast h.filled inside
      have down : s < c := by have := parentLt cOff; omega
      have apart := Nat.ne_of_gt down
      simp only [chosen,h.filled c cIn apart,bind,Option.bind]
      split
      case isFalse stays =>
        exact arrivesHere h start hole above fun i off hi childOf =>
          (not_lt.mp stays).trans (least i off hi childOf)
      case isTrue later =>
        simp only [movingCopy h (movingMem h cIn apart)]
        have hole' := holeDown hole cOff cIn child least
        have above' : Above q.value (Function.update q.slotNode s (q.slotNode c)) c moved :=
          aboveDown child later
        rw [← placedSlots] at hole' above'
        exact ih rfl (show q.currSize - c < fuel by omega) (movingMove h cIn apart)
          (keeps q s c h start cIn apart) hole' above'

/- With the table in step, the node ends where the table says, too. -/
theorem arrivesSettled {r : Option TimerQueue}
    (arrives : Arrives (fun q' s => Sifting q' n l s moved ∧ Rearranged q q' l) n l moved r) :
    ∃ q', r = some q' ∧ Settled q' n l ∧ Rearranged q q' l := by
  obtain ⟨q₁,s,runs,⟨sifting,moves⟩,moving,hole,above,below⟩ := arrives
  exact ⟨_,runs,siftingSettle sifting hole above below,
    rearrangedTrans moves (placedRearranged (movingSelf moving))⟩

theorem siftKeeps (q₀ : TimerQueue) : ∀ q s t, Moving q n l s moved → Sifting q n l s moved ∧ Rearranged q₀ q l →
    t < n → t ≠ s → Sifting (q.placed s (q.slotNode t)) n l t moved ∧
      Rearranged q₀ (q.placed s (q.slotNode t)) l :=
  fun _ _ _ moving kept inside apart => ⟨siftingMove kept.1 inside apart,
    rearrangedTrans kept.2 (placedRearranged (movingMem moving inside apart))⟩

end Sift

section Insert
variable {q : TimerQueue} {n : Nat} {l : List Ptr} {p : Ptr}

theorem settledResize (h : Settled q n l) (m : Nat) : Settled { q with currSize := m } n l :=
  ⟨h.indexed,h.filled,h.room,h.range,h.ordered⟩

/- The arrays a growth leaves: the first curr_size_ elements of the old ones. -/
def grown (q : TimerQueue) : TimerQueue :=
  { q with
    timerHeap := fun i => if i < q.currSize then q.timerHeap i else none
    timerHeapSize := (min ((q.currSize * 2 : Nat) : Int) q.maxSize).toNat
    timerIds := fun i => if i < q.currSize then q.timerIds i else -1
    timerIdsSize := (min ((q.currSize * 2 : Nat) : Int) q.maxSize).toNat
    minTimerId := q.currSize }

theorem growHeapRuns (fits : q.currSize * 2 ≤ intMax)
    (room : q.currSize ≤ q.grown.timerHeapSize) : q.growHeap = some q.grown := by
  unfold growHeap
  exact if_pos ⟨fits,room⟩

/- The table keeps what it says of the ids it copies. -/
theorem grownSettled (h : Settled q q.currSize l) (room : q.currSize ≤ q.grown.timerHeapSize)
    (kept : ∀ z ∈ l, q.ident z < q.currSize) : Settled q.grown q.currSize l := by
  have slots : ∀ i < q.currSize, q.grown.slotNode i = q.slotNode i := by
    intro i hi
    simp [slotNode,grown,hi]
  have ids : ∀ z ∈ l, q.grown.timerIds (q.ident z) = q.timerIds (q.ident z) := by
    intro z hz
    exact if_pos (kept z hz)
  have same := Lib.BinaryHeap.contentsCongr slots
  refine ⟨⟨same ▸ h.indexed.holds,h.indexed.distinct,fun i hi => ?_⟩,fun i hi => ?_,room,
    fun z hz => ?_,fun i off hi => ?_⟩
  · rw [slots i hi]
    exact (ids _ (indexedMem h.indexed hi)).trans (h.indexed.placed i hi)
  · rw [slots i hi,← h.filled i hi]
    simp [heapAt,grown,hi,hi.trans_le h.room]
    intro far
    have := hi.trans_le room
    simp only [grown] at this
    omega
  · have := kept z hz
    have := h.range z hz
    have : q.grown.timerIdsSize = q.grown.timerHeapSize := rfl
    exact ⟨(h.range z hz).1,by change q.ident z < _; omega⟩
  · rw [slots i hi,slots _ ((parentLt off).trans hi)]
    exact h.ordered i off hi

theorem insertArrives {I : TimerQueue → Nat → Prop}
    (keeps : ∀ q₁ s t, Moving q₁ (q.currSize + 1) (l ++ [p]) s p → I q₁ s → t < q.currSize + 1 → t ≠ s →
      I (q₁.placed s (q₁.slotNode t)) t)
    (h : Heaped q q.currSize l) (room : q.currSize < q.timerHeapSize)
    (range : 0 ≤ q.ident p ∧ q.ident p < q.timerIdsSize) (start : I q q.currSize) :
    Arrives I (q.currSize + 1) (l ++ [p]) p (reheapUp p q.currSize q q.currSize (parent q.currSize)) := by
  have moving : Moving q (q.currSize + 1) (l ++ [p]) q.currSize p := by
    refine ⟨Nat.lt_succ_self _,?_,fun i hi off => h.filled i (by omega),room,fun z hz => ?_⟩
    · rw [Lib.BinaryHeap.contentsPush]
      exact h.holds.append_right _
    · rcases List.mem_append.mp hz with old | same
      · exact h.range z old
      · rw [List.mem_singleton] at same
        exact same ▸ range
  have hole : Hole q.value (q.currSize + 1) q.slotNode q.currSize := by
    refine ⟨fun i off hi here _ => h.ordered i off (by omega),fun _ i off hi child => ?_⟩
    have := parentLt off
    omega
  refine reheapUpArrives keeps (Nat.le_refl _) moving start hole fun i off hi child => ?_
  have := parentLt off
  omega

theorem insertSettles (h : Settled q q.currSize l) (room : q.currSize < q.timerHeapSize)
    (range : 0 ≤ q.ident p ∧ q.ident p < q.timerIdsSize) (new : q.ident p ∉ l.map q.ident) :
    ∃ q', reheapUp p q.currSize q q.currSize (parent q.currSize) = some q' ∧
      Settled q' (q.currSize + 1) (l ++ [p]) ∧ Rearranged q q' (l ++ [p]) := by
  have sifting : Sifting q (q.currSize + 1) (l ++ [p]) q.currSize p := by
    refine ⟨pendingPush h.indexed new,fun i hi off => h.filled i (by omega),room,fun z hz => ?_⟩
    rcases List.mem_append.mp hz with old | same
    · exact h.range z old
    · rw [List.mem_singleton] at same
      exact same ▸ range
  exact arrivesSettled (insertArrives (siftKeeps q) (heapedOfSettled h) room range
    ⟨sifting,rearrangedRefl q _⟩)

end Insert

section Remove
variable {q : TimerQueue} {slot : Nat} {l : List Ptr}

/- The last node is copied to the slot taken out first, and is on its way from
there. -/
theorem poppedMoving (h : Heaped q (q.currSize + 1) l) (inside : slot < q.currSize) :
    Moving (q.placed slot (q.slotNode q.currSize)) q.currSize (l.erase (q.slotNode slot)) slot
      (q.slotNode q.currSize) := by
  have short : q.currSize ≤ q.timerHeapSize := (Nat.le_succ _).trans h.room
  refine ⟨inside,?_,fun i hi off => ?_,short,fun z hz => h.range z (List.mem_of_mem_erase hz)⟩
  · rw [placedSlots,Function.update_idem]
    exact Lib.BinaryHeap.contentsPop h.holds inside
  · exact filledPlaced (fun i hi _ => h.filled i (Nat.lt_succ_of_lt hi)) (by have := h.room; omega) i hi

theorem refillArrives {I : TimerQueue → Nat → Prop}
    (keeps : ∀ q₁ s t, Moving q₁ q.currSize (l.erase (q.slotNode slot)) s (q.slotNode q.currSize) → I q₁ s →
      t < q.currSize → t ≠ s → I (q₁.placed s (q₁.slotNode t)) t)
    (h : Heaped q (q.currSize + 1) l) (inside : slot < q.currSize)
    (start : I (q.placed slot (q.slotNode q.currSize)) slot) :
    Arrives I q.currSize (l.erase (q.slotNode slot)) (q.slotNode q.currSize) (q.refill slot) := by
  have moving := poppedMoving h inside
  have wide : slot < q.timerHeapSize := by have := h.room; omega
  have hole : Hole q.value q.currSize q.slotNode slot :=
    holeShrink (holeOfOrdered h.ordered slot) (Nat.le_succ _)
  have slots := placedSlots (q := q) slot (q.slotNode q.currSize)
  have off : ∀ i, i < q.currSize → i ≠ slot →
      (q.placed slot (q.slotNode q.currSize)).slotNode i = q.slotNode i := fun i _ apart => by
    rw [slots,Function.update_of_ne apart]
  have hole' := holeCongr (b := (q.placed slot (q.slotNode q.currSize)).slotNode) hole off inside
  have last : q.slotNode q.currSize ∈ l :=
    h.holds.subset (Lib.BinaryHeap.memContents.mpr ⟨q.currSize,Nat.lt_succ_self _,rfl⟩)
  simp only [refill,h.filled q.currSize (Nat.lt_succ_self _),copyRuns wide (h.range _ last),bind,
    Option.bind]
  rcases Nat.eq_zero_or_pos slot with top | low
  · subst slot
    have root : parent 0 = 0 := rfl
    simp only [root,placedHere _ wide,le_refl,if_true]
    exact reheapDownArrives keeps rfl (show q.currSize - 0 < q.currSize + 1 by omega) moving start hole'
      fun top => absurd top (Nat.lt_irrefl 0)
  · have up := parentLt low
    have apart := Nat.ne_of_lt up
    rw [placedHeapAt _ apart,h.filled (parent slot) (by omega)]
    simp only
    split
    case isTrue later =>
      have above : Above (q.placed slot (q.slotNode q.currSize)).value
          (q.placed slot (q.slotNode q.currSize)).slotNode slot (q.slotNode q.currSize) := by
        intro _
        rw [off (parent slot) (by omega) apart]
        exact later
      exact reheapDownArrives keeps rfl (show q.currSize - slot < q.currSize + 1 by omega) moving start
        hole' above
    case isFalse earlier =>
      have below := Lib.BinaryHeap.belowOfEarlier (x := q.slotNode q.currSize) hole' low (by
        rw [off (parent slot) (by omega) apart]
        exact not_le.mp earlier)
      exact reheapUpArrives keeps (Nat.le_refl slot) moving start hole' below

theorem refillSettles (h : Settled q (q.currSize + 1) l) (inside : slot < q.currSize) :
    ∃ q', q.refill slot = some q' ∧ Settled q' q.currSize (l.erase (q.slotNode slot)) ∧
      Rearranged q q' (l.erase (q.slotNode slot)) := by
  have pending := pendingPop h.indexed inside
  have moving := poppedMoving (heapedOfSettled h) inside
  have slots := placedSlots (q := q) slot (q.slotNode q.currSize)
  have sifting : Sifting (q.placed slot (q.slotNode q.currSize)) q.currSize
      (l.erase (q.slotNode slot)) slot (q.slotNode q.currSize) := by
    refine ⟨?_,moving.filled,moving.room,moving.range⟩
    have back := Lib.BinaryHeap.pendingOfIndexed (pendingSettle pending) inside
    rwa [Function.update_self,← slots] at back
  have moves : Rearranged q (q.placed slot (q.slotNode q.currSize)) (l.erase (q.slotNode slot)) :=
    placedRearranged (pendingSelf pending)
  obtain ⟨q₁,s,runs,⟨sifted,moved⟩,at',last,above,below⟩ :=
    refillArrives (siftKeeps q) (heapedOfSettled h) inside ⟨sifting,moves⟩
  exact ⟨_,runs,siftingSettle sifted last above below,
    rearrangedTrans moved (placedRearranged (movingSelf at'))⟩

/- The queue remove leaves, but for the heap array and the table. -/
def shrunk (q : TimerQueue) : TimerQueue := { q with currSize := q.currSize - 1 }

theorem removeSettles (h : Settled q q.currSize l) (inside : slot < q.currSize) :
    ∃ q', q.remove slot = some (q.slotNode slot,q') ∧
      Settled q' (q.currSize - 1) (l.erase (q.slotNode slot)) ∧
      Rearranged q.shrunk q' (l.erase (q.slotNode slot)) := by
  obtain ⟨n,size⟩ : ∃ n, q.currSize = n + 1 := ⟨q.currSize - 1,by omega⟩
  have whole : Settled q.shrunk (q.shrunk.currSize + 1) l := by
    have back := settledResize h (q.currSize - 1)
    rwa [show q.currSize = q.shrunk.currSize + 1 by simp [shrunk,size]] at back
  simp only [remove,h.filled slot inside,bind,Option.bind]
  split
  case isTrue inner =>
    obtain ⟨q',runs,settled,rest⟩ := refillSettles whole inner
    exact ⟨q',by simp only [shrunk] at runs; rw [runs],settled,rest⟩
  case isFalse last =>
    have atEnd : slot = q.shrunk.currSize := by simp only [shrunk] at *; omega
    refine ⟨q.shrunk,rfl,?_,rearrangedRefl _ _⟩
    have indexed := indexedDropLast whole.indexed
    rw [← atEnd] at indexed
    refine ⟨atEnd ▸ indexed,fun i hi => whole.filled i (Nat.lt_succ_of_lt hi),
      (Nat.le_succ _).trans whole.room,fun z hz => h.range z (List.mem_of_mem_erase hz),
      fun i off hi => whole.ordered i off (Nat.lt_succ_of_lt hi)⟩

end Remove

end CuteNdk.TimerQueue
