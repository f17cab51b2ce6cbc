import Mathlib.Order.RelClasses
import Mathlib.Order.OrderDual
import CuteNdk.Lib.Run
import CuteNdk.Lib.BinaryHeap

/-! heap.h: min_heap and max_heap, an array of pointers to items that remember in
heap_idx_ the slot they lie in. The two classes are one text under opposite
comparisons. An operation is none where the program reads past the array, follows a
null pointer or violates an assertion. -/
namespace CuteNdk

inductive HeapKind where
  | minHeap
  | maxHeap
  deriving DecidableEq, Repr

namespace HeapKind
variable {α : Type} [LE α] [LT α] [DecidableLE α] [DecidableLT α]

/- *a > *b in min_heap, *a < *b in max_heap: b belongs above a. -/
def later : HeapKind → α → α → Bool
  | minHeap, a, b => a > b
  | maxHeap, a, b => a < b

/- *a <= *b in min_heap, *a >= *b in max_heap: a may lie above b. -/
def stays : HeapKind → α → α → Bool
  | minHeap, a, b => a ≤ b
  | maxHeap, a, b => a ≥ b

end HeapKind

structure Heap (ι α : Type) where
  maxSize : Nat
  size : Nat
  heap : Nat → Option ι
  heapIdx : ι → Int
  priority : ι → α

namespace Heap
open Lib.BinaryHeap (parent)

variable {ι α : Type} [DecidableEq ι] [LE α] [LT α] [DecidableLE α] [DecidableLT α]

/- heap(int max_size): an array of null pointers. -/
def new (maxSize : Nat) (heapIdx : ι → Int) (priority : ι → α) : Heap ι α :=
  ⟨maxSize,0,fun _ => none,heapIdx,priority⟩

/- this->heap_[i], a pointer that may be null. -/
def read (h : Heap ι α) (i : Nat) : Option (Option ι) :=
  if i < h.maxSize then some (h.heap i) else none

/- *(this->heap_[i]). -/
def heapAt (h : Heap ι α) (i : Nat) : Option ι := (h.read i).join

/- (this->heap_[pos] = item)->heap_idx_ = pos; -/
def put (h : Heap ι α) (pos : Nat) (item : ι) : Option (Heap ι α) :=
  if pos < h.maxSize then
    some {h with
      heap := Function.update h.heap pos (some item)
      heapIdx := Function.update h.heapIdx item pos}
  else none

def later (k : HeapKind) (h : Heap ι α) (a b : ι) : Bool := k.later (h.priority a) (h.priority b)
def stays (k : HeapKind) (h : Heap ι α) (a b : ι) : Bool := k.stays (h.priority a) (h.priority b)

/- Each turn of the loop moves pos to its parent: pos turns are enough. -/
def shiftUp (k : HeapKind) (moved : ι) : Nat → Heap ι α → Nat → Option (Heap ι α)
  | 0, h, pos => h.put pos moved
  | fuel + 1, h, pos =>
    if 0 < pos then do
      let up ← h.heapAt (parent pos)
      if h.later k up moved then
        let h ← h.put pos up
        shiftUp k moved fuel h (parent pos)
      else h.put pos moved
    else h.put pos moved

/- The child shift_down compares with: lchild, or the one after it. -/
def child (k : HeapKind) (h : Heap ι α) (lchild : Nat) : Option Nat :=
  if lchild + 1 < h.size then do
    let l ← h.heapAt lchild
    let r ← h.heapAt (lchild + 1)
    return if h.later k l r then lchild + 1 else lchild
  else some lchild

/- lchild is twice pos and one in every turn. A slot of the heap lies below none of its
own: size_ turns are enough. -/
def shiftDown (k : HeapKind) (moved : ι) : Nat → Heap ι α → Nat → Option (Heap ι α)
  | 0, _, _ => none
  | fuel + 1, h, pos =>
    if pos + pos + 1 < h.size then do
      let c ← child k h (pos + pos + 1)
      let down ← h.heapAt c
      if h.stays k moved down then h.put pos moved
      else
        let h ← h.put pos down
        shiftDown k moved fuel h c
    else h.put pos moved

def push (k : HeapKind) (h : Heap ι α) (item : ι) : Option (Int × Heap ι α) :=
  if h.maxSize ≤ h.size then some (-1,h)
  else do
    let h ← shiftUp k item h.size {h with size := h.size + 1} h.size
    return (0,h)

def pop (k : HeapKind) (h : Heap ι α) : Option (Option ι × Heap ι α) :=
  if h.size = 0 then some (none,h)
  else do
    let item ← h.read 0
    let h := {h with size := h.size - 1}
    let last ← h.heapAt h.size
    let h ← shiftDown k last (h.size + 1) h 0
    return (item,h)

/- pop(int idx). (idx - 1) / 2 is 0 for 0: the root is compared with itself. -/
def popAt (k : HeapKind) (h : Heap ι α) (idx : Int) : Option (Option ι × Heap ι α) :=
  if h.size = 0 ∨ idx < 0 then some (none,h)
  else do
    let item ← h.heapAt idx.toNat
    if h.heapIdx item ≠ -1 ∧ idx = h.heapIdx item then
      let h := {h with size := h.size - 1}
      let up ← h.heapAt (parent idx.toNat)
      let last ← h.heapAt h.size
      let h ← if h.later k up last then shiftUp k last idx.toNat h idx.toNat
        else shiftDown k last (h.size + 1) h idx.toNat
      return (some item,h)
    else none

def erase (k : HeapKind) (h : Heap ι α) : Option ι → Option (Int × Heap ι α)
  | none => some (-1,h)
  | some item => do
    let r ← popAt k h (h.heapIdx item)
    return (if r.1 = none then -1 else 0,r.2)

/- The assertion before the test makes the test's return unreachable. -/
def adjust (k : HeapKind) (h : Heap ι α) : Option ι → Option (Int × Heap ι α)
  | none => some (-1,h)
  | some item =>
    if 0 ≤ h.heapIdx item then do
      let there ← h.read (h.heapIdx item).toNat
      if there = some item then
        let h := (← popAt k h (h.heapIdx item)).2
        push k {h with heapIdx := Function.update h.heapIdx item (-1)} item
      else none
    else none

/- The items of heap_[0..size_). -/
def items (h : Heap ι α) : List ι := (List.range h.size).filterMap h.heap

/- What check() asserts of the order, and the back pointers. -/
structure WellFormed (k : HeapKind) (h : Heap ι α) : Prop where
  fits : h.size ≤ h.maxSize
  placed : ∀ i < h.size, ∃ x, h.heap i = some x ∧ h.heapIdx x = i
  ordered : ∀ i x p, 0 < i → i < h.size → h.heap i = some x → h.heap (parent i) = some p →
    h.stays k p x = true

end Heap
end CuteNdk
