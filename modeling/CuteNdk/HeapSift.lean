import CuteNdk.Heap

/-! What the loops of heap.h do: an item on its way to its slot leaves every other
item placed, and each loop ends with the heap in order and every back pointer right.
Both classes are covered at once, by a key whose order is the class's. -/
namespace CuteNdk

section Keys
variable {α κ : Type} [LE α] [LT α] [DecidableLE α] [DecidableLT α] [Preorder κ]

/- The comparisons of the class are those of the key. -/
structure HeapKind.Follows (k : HeapKind) (key : α → κ) : Prop where
  later : ∀ a b, k.later a b = true ↔ key b < key a
  stays : ∀ a b, k.stays a b = true ↔ key a ≤ key b

end Keys

section Orders
variable {α : Type} [Preorder α] [DecidableLE α] [DecidableLT α]

theorem HeapKind.minFollows : HeapKind.minHeap.Follows (id : α → α) :=
  ⟨fun a b => by simp [HeapKind.later],fun a b => by simp [HeapKind.stays]⟩

theorem HeapKind.maxFollows : HeapKind.maxHeap.Follows (OrderDual.toDual : α → αᵒᵈ) :=
  ⟨fun a b => by simp [HeapKind.later],fun a b => by simp [HeapKind.stays]⟩

end Orders

namespace Heap
open Lib.BinaryHeap (parent parentLt parentOfChild childrenOf Ordered Hole Above Below holeUp belowUp
  holeDown aboveDown orderedOfHole Indexed Pending pendingMove pendingSettle pendingSelf pendingMem)

section Total
variable {κ : Type} [Preorder κ] [total : @Std.Total κ (· ≤ ·)]

theorem notLater {a b : κ} (h : ¬b < a) : a ≤ b := by
  rcases total.total a b with le | ge
  · exact le
  · by_contra off
    exact h (lt_of_le_not_ge ge off)

theorem notStays {a b : κ} (h : ¬a ≤ b) : b < a :=
  lt_of_le_not_ge ((total.total a b).resolve_left h) h

end Total

section Slots
variable {ι α κ : Type} {h : Heap ι α} {n s t : Nat} {l : List ι} {x d : ι}

/- The item of slot i, where there is one. -/
def slotItem (h : Heap ι α) (d : ι) (i : Nat) : ι := (h.heap i).getD d

def rank (h : Heap ι α) (key : α → κ) (p : ι) : κ := key (h.priority p)

theorem slotOfHeapAt {i : Nat} {p : ι} (at' : h.heapAt i = some p) :
    h.heap i = some p ∧ i < h.maxSize := by
  unfold heapAt read at at'
  split at at'
  · exact ⟨by simpa using at',‹_›⟩
  · contradiction

theorem heapAtOfSlot {i : Nat} {p : ι} (slot : h.heap i = some p) (inside : i < h.maxSize) :
    h.heapAt i = some p := by
  unfold heapAt read
  rw [if_pos inside,slot]
  rfl

/- Only the array and the back pointers change, and the latter only of items of l. -/
structure Rearranged (h h' : Heap ι α) (l : List ι) : Prop where
  rest : h' = {h with heap := h'.heap, heapIdx := h'.heapIdx}
  others : ∀ p, p ∉ l → h'.heapIdx p = h.heapIdx p

theorem rearrangedTrans {h₁ h₂ : Heap ι α} (first : Rearranged h h₁ l) (second : Rearranged h₁ h₂ l) :
    Rearranged h h₂ l := by
  refine ⟨?_,fun p off => (second.others p off).trans (first.others p off)⟩
  rw [second.rest,first.rest]

/- x is on its way to slot s; the other n - 1 slots hold the rest of l. -/
structure Sifting (h : Heap ι α) (n : Nat) (l : List ι) (s : Nat) (x : ι) : Prop where
  pending : Pending id n l (h.slotItem x) h.heapIdx s x
  filled : ∀ i < n, i ≠ s → h.heapAt i = some (h.slotItem x i)
  room : n ≤ h.maxSize

theorem siftingWide (sifting : Sifting h n l s x) : s < h.maxSize := sifting.pending.inside.trans_le sifting.room

end Slots

section Put
variable {ι α κ : Type} [DecidableEq ι] {h : Heap ι α} {n s t : Nat} {l : List ι} {x d : ι}

def placed (h : Heap ι α) (pos : Nat) (p : ι) : Heap ι α :=
  {h with
    heap := Function.update h.heap pos (some p)
    heapIdx := Function.update h.heapIdx p pos}

theorem putRuns {p : ι} (inside : s < h.maxSize) : h.put s p = some (h.placed s p) := if_pos inside

theorem placedSlots (p : ι) : (h.placed s p).slotItem d = Function.update (h.slotItem d) s p := by
  funext i
  by_cases here : i = s
  · subst i
    simp [slotItem,placed]
  · simp [slotItem,placed,here]

theorem placedHeapAt {i : Nat} (p : ι) (off : i ≠ s) : (h.placed s p).heapAt i = h.heapAt i := by
  simp [heapAt,read,placed,off]

theorem placedHere (p : ι) (inside : s < h.maxSize) : (h.placed s p).heapAt s = some p :=
  heapAtOfSlot (Function.update_self _ _ _) inside

theorem placedRearranged {p : ι} (mem : p ∈ l) : Rearranged h (h.placed s p) l :=
  ⟨rfl,fun z off => Function.update_of_ne (fun same : z = p => off (same ▸ mem)) _ _⟩

theorem filledPlaced {p : ι} (filled : ∀ i < n, i ≠ s → h.heapAt i = some (h.slotItem d i))
    (wide : s < h.maxSize) : ∀ i < n, (h.placed s p).heapAt i = some ((h.placed s p).slotItem d i) := by
  intro i hi
  rw [placedSlots]
  by_cases here : i = s
  · subst i
    rw [placedHere _ wide,Function.update_self]
  · rw [placedHeapAt _ here,Function.update_of_ne here]
    exact filled i hi here

theorem siftingMove (sifting : Sifting h n l s x) (inside : t < n) (apart : t ≠ s) :
    Sifting (h.placed s (h.slotItem x t)) n l t x := by
  refine ⟨?_,fun i hi _ => filledPlaced sifting.filled (siftingWide sifting) i hi,sifting.room⟩
  rw [placedSlots]
  exact pendingMove sifting.pending inside apart

section Settle
variable [Preorder κ] {key : α → κ}

/- The first n slots are a heap of the items of l, each pointing back to its slot. -/
structure Settled (key : α → κ) (h : Heap ι α) (n : Nat) (l : List ι) (d : ι) : Prop where
  indexed : Indexed id n l (h.slotItem d) h.heapIdx
  filled : ∀ i < n, h.heapAt i = some (h.slotItem d i)
  room : n ≤ h.maxSize
  ordered : Ordered (h.rank key) n (h.slotItem d)

theorem siftingSettle (sifting : Sifting h n l s x) (hole : Hole (h.rank key) n (h.slotItem x) s)
    (above : Above (h.rank key) (h.slotItem x) s x) (below : Below (h.rank key) n (h.slotItem x) s x) :
    Settled key (h.placed s x) n l x := by
  refine ⟨?_,filledPlaced sifting.filled (siftingWide sifting),sifting.room,?_⟩
  · rw [placedSlots]
    exact pendingSettle sifting.pending
  · rw [placedSlots]
    exact orderedOfHole hole above below

/- The loop is at its end: its last assignment puts the item where it belongs. -/
theorem putSettles (sifting : Sifting h n l s x) (hole : Hole (h.rank key) n (h.slotItem x) s)
    (above : Above (h.rank key) (h.slotItem x) s x) (below : Below (h.rank key) n (h.slotItem x) s x) :
    ∃ h', h.put s x = some h' ∧ Settled key h' n l x ∧ Rearranged h h' l :=
  ⟨_,putRuns (siftingWide sifting),siftingSettle sifting hole above below,
    placedRearranged (pendingSelf sifting.pending)⟩

end Settle

end Put

section Loops
variable {ι α κ : Type} [LE α] [LT α] [DecidableLE α] [DecidableLT α] [Preorder κ]
  [@Std.Total κ (· ≤ ·)] {k : HeapKind} {key : α → κ}
variable {h : Heap ι α} {n s : Nat} {l : List ι} {moved : ι}

/- No child of the slot belongs above the one shift_down compares with. -/
theorem childLeast (follows : k.Follows key)
    (filled : ∀ i < h.size, i ≠ s → h.heapAt i = some (h.slotItem moved i))
    (inside : s + s + 1 < h.size) :
    ∃ c, child k h (s + s + 1) = some c ∧ c < h.size ∧ 0 < c ∧ parent c = s ∧
      ∀ i, 0 < i → i < h.size → parent i = s →
        h.rank key (h.slotItem moved c) ≤ h.rank key (h.slotItem moved i) := by
  obtain ⟨left,right⟩ := @parentOfChild s
  unfold child
  split
  case isFalse alone =>
    refine ⟨_,rfl,inside,by omega,left,fun i off hi under => ?_⟩
    have only : i = s + s + 1 := by have := childrenOf off under; omega
    rw [only]
  case isTrue both =>
    simp only [filled (s + s + 1 + 1) both (by omega),filled (s + s + 1) inside (by omega),
      bind,Option.bind,pure]
    split
    case isTrue later =>
      refine ⟨_,rfl,both,by omega,right,fun i off hi under => ?_⟩
      rcases childrenOf off under with same | same <;> rw [same]
      exact le_of_lt ((follows.later _ _).mp later)
    case isFalse sooner =>
      refine ⟨_,rfl,inside,by omega,left,fun i off hi under => ?_⟩
      rcases childrenOf off under with same | same <;> rw [same]
      exact notLater fun lt => sooner ((follows.later _ _).mpr lt)

variable [DecidableEq ι]

theorem shiftUpSettles (follows : k.Follows key) {fuel : Nat} (enough : s ≤ fuel)
    (sifting : Sifting h n l s moved) (hole : Hole (h.rank key) n (h.slotItem moved) s)
    (below : Below (h.rank key) n (h.slotItem moved) s moved) :
    ∃ h', shiftUp k moved fuel h s = some h' ∧ Settled key h' n l moved ∧ Rearranged h h' l := by
  induction fuel generalizing h s with
  | zero =>
    have top : s = 0 := Nat.le_zero.mp enough
    subst s
    exact putSettles sifting hole (fun off => absurd off (Nat.lt_irrefl 0)) below
  | succ fuel ih =>
    simp only [shiftUp]
    split
    case isFalse top => exact putSettles sifting hole (fun off => absurd off top) below
    case isTrue off =>
      have up := parentLt off
      have apart := Nat.ne_of_lt up
      have inside := up.trans sifting.pending.inside
      simp only [sifting.filled (parent s) inside apart,bind,Option.bind]
      split
      case isFalse stays =>
        exact putSettles sifting hole
          (fun _ => notLater fun lt => stays ((follows.later _ _).mpr lt)) below
      case isTrue later =>
        have lt := (follows.later _ _).mp later
        have hole' := holeUp hole off sifting.pending.inside
        have below' := belowUp hole lt off
        simp only [putRuns (siftingWide sifting)]
        rw [← placedSlots] at hole' below'
        obtain ⟨h',runs,settled,moves⟩ :=
          ih (by omega) (siftingMove sifting inside apart) hole' below'
        exact ⟨h',runs,settled,rearrangedTrans
          (placedRearranged (pendingMem sifting.pending inside apart)) moves⟩

theorem shiftDownSettles (follows : k.Follows key) {fuel : Nat} (size : h.size = n)
    (enough : n - s < fuel) (sifting : Sifting h n l s moved)
    (hole : Hole (h.rank key) n (h.slotItem moved) s)
    (above : Above (h.rank key) (h.slotItem moved) s moved) :
    ∃ h', shiftDown k moved fuel h s = some h' ∧ Settled key h' n l moved ∧ Rearranged h h' l := by
  induction fuel generalizing h s with
  | zero => omega
  | succ fuel ih =>
    subst size
    simp only [shiftDown]
    split
    case isFalse leaf =>
      refine putSettles sifting hole above fun i off hi under => ?_
      have := childrenOf off under
      omega
    case isTrue inside =>
      obtain ⟨c,chosen,cIn,cOff,under,least⟩ := childLeast follows sifting.filled inside
      have down : s < c := by have := parentLt cOff; omega
      have apart := Nat.ne_of_gt down
      simp only [chosen,sifting.filled c cIn apart,bind,Option.bind]
      split
      case isTrue stays =>
        have le := (follows.stays _ _).mp stays
        exact putSettles sifting hole above fun i off hi childOf => le_trans le (least i off hi childOf)
      case isFalse later =>
        have lt := notStays fun le => later ((follows.stays _ _).mpr le)
        have hole' := holeDown hole cOff cIn under least
        have above' : Above (h.rank key) (Function.update (h.slotItem moved) s (h.slotItem moved c)) c
            moved := aboveDown under lt
        simp only [putRuns (siftingWide sifting)]
        rw [← placedSlots] at hole' above'
        obtain ⟨h',runs,settled,moves⟩ := ih (h := h.placed s (h.slotItem moved c)) rfl
          (show h.size - c < fuel by omega) (siftingMove sifting cIn apart) hole' above'
        exact ⟨h',runs,settled,rearrangedTrans
          (placedRearranged (pendingMem sifting.pending cIn apart)) moves⟩

end Loops

end Heap
end CuteNdk
