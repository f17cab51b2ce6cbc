import CuteNdk.HeapOps

/-! Runs of heap.h: any sequence of pushes of new items, pops and erases of members,
with priorities set while their items are out of the heap. -/
namespace CuteNdk.Heap
open Lib (Along Always alwaysOfInvariant alwaysMono)

/- What a program does with a heap. reset is not an operation of the heap: it sets the
priority of an item. -/
inductive Act (ι α : Type) where
  | push (item : ι)
  | pop
  | popAt (idx : Int)
  | erase (item : ι)
  | reset (item : ι) (p : α)
  deriving DecidableEq, Repr

inductive Result (ι : Type) where
  | code (c : Int)
  | item (p : Option ι)
  | unit
  deriving DecidableEq, Repr

section Machine
variable {ι α : Type} [DecidableEq ι] [LE α] [LT α] [DecidableLE α] [DecidableLT α]

def act (k : HeapKind) (h : Heap ι α) : Act ι α → Option (Result ι × Heap ι α)
  | .push item => (push k h item).map fun r => (.code r.1,r.2)
  | .pop => (pop k h).map fun r => (.item r.1,r.2)
  | .popAt idx => (popAt k h idx).map fun r => (.item r.1,r.2)
  | .erase item => (erase k h (some item)).map fun r => (.code r.1,r.2)
  | .reset item p => some (.unit,{h with priority := Function.update h.priority item p})

def step (k : HeapKind) (h : Heap ι α) (a : Act ι α) : Option (Heap ι α) := (act k h a).map Prod.snd

/- What the callers promise: items are pushed once, indexes are in the heap, and a
priority stays as it is while its item is in the heap. -/
def Legal (h : Heap ι α) : Act ι α → Prop
  | .push item => item ∉ h.items
  | .pop => True
  | .popAt idx => 0 ≤ idx ∧ idx < h.size
  | .erase item => item ∈ h.items
  | .reset item _ => item ∉ h.items

instance (h : Heap ι α) (a : Act ι α) : Decidable (Legal h a) := by
  cases a <;> unfold Legal <;> infer_instance

/- The answer of each operation and the items it leaves. -/
def Answers (k : HeapKind) (h : Heap ι α) (r : Result ι) (h' : Heap ι α) : Act ι α → Prop
  | .push item => (r = .code (-1) ↔ h.size = h.maxSize) ∧ (h.size = h.maxSize → h' = h) ∧
      (h.size ≠ h.maxSize → r = .code 0 ∧ h'.items.Perm (item :: h.items))
  | .pop => (h.size = 0 → r = .item none ∧ h' = h) ∧ (h.size ≠ 0 → ∃ x ∈ h.items,
      r = .item (some x) ∧ (∀ y ∈ h.items, h.stays k x y = true) ∧ h'.items.Perm (h.items.erase x))
  | .popAt idx => ∃ x, h.heap idx.toNat = some x ∧ r = .item (some x) ∧
      h'.items.Perm (h.items.erase x)
  | .erase item => r = .code 0 ∧ h'.items.Perm (h.items.erase item)
  | .reset item p => h' = {h with priority := Function.update h.priority item p}

/- pop() until it returns null. -/
def drain (k : HeapKind) : Nat → Heap ι α → Option (List ι)
  | 0, _ => some []
  | fuel + 1, h => (pop k h).bind fun r =>
      r.1.elim (some []) fun x => (drain k fuel r.2).map (x :: ·)

/- The heap is in order and does what it is for: every operation in turn runs, answers
and leaves a heap in order, and popping until empty yields the items sorted. -/
structure Works (k : HeapKind) (h : Heap ι α) : Prop where
  wellFormed : WellFormed k h
  answers : ∀ a, Legal h a → ∃ r h', act k h a = some (r,h') ∧ Answers k h r h' a ∧ WellFormed k h'
  drains : ∃ l, drain k (h.size + 1) h = some l ∧ l.Perm h.items ∧
    l.Pairwise fun x y => h.stays k x y = true

end Machine

section Forms
variable {ι α κ : Type} [LE α] [DecidableLE α] {k : HeapKind} {key : α → κ} {h : Heap ι α}

theorem sizeOfItems (wf : WellFormed k h) : h.items.length = h.size := by
  unfold items
  rw [List.length_filterMap_eq_countP]
  have all : (List.range h.size).countP (fun i => (h.heap i).isSome) = (List.range h.size).length := by
    refine List.countP_eq_length.mpr fun i hi => ?_
    obtain ⟨x,slot,_⟩ := wf.placed i (List.mem_range.mp hi)
    rw [slot]
    rfl
  rw [all,List.length_range]

theorem newWellFormed (maxSize : Nat) (heapIdx : ι → Int) (priority : ι → α) :
    WellFormed k (new maxSize heapIdx priority) :=
  ⟨Nat.zero_le _,fun i hi => absurd hi (Nat.not_lt_zero i),
    fun i _ _ _ hi => absurd hi (Nat.not_lt_zero i)⟩

theorem slotMember (wf : WellFormed k h) {i : Nat} {x : ι} (inside : i < h.size) (slot : h.heap i = some x) :
    x ∈ h.items := by
  obtain ⟨y,here,back⟩ := wf.placed i inside
  cases Option.some.inj (slot.symm.trans here)
  exact (memberSlot wf).mpr ⟨i,inside,slot,back⟩

/- What the heap knows of items that are not in it is of no matter. -/
theorem wellFormedAgree {h' : Heap ι α} (wf : WellFormed k h) (maxSize : h'.maxSize = h.maxSize)
    (size : h'.size = h.size) (heap : h'.heap = h.heap)
    (agree : ∀ x ∈ h.items, h'.heapIdx x = h.heapIdx x ∧ h'.priority x = h.priority x) : WellFormed k h' := by
  refine ⟨?_,fun i hi => ?_,fun i x p off hi slot up => ?_⟩
  · rw [size,maxSize]
    exact wf.fits
  · rw [size] at hi
    obtain ⟨x,slot,back⟩ := wf.placed i hi
    have same := (agree x (slotMember wf hi slot)).1
    exact ⟨x,by rw [heap,slot],same.trans back⟩
  · rw [heap] at slot up
    rw [size] at hi
    have kept := wf.ordered i x p off hi slot up
    have upper := (Lib.BinaryHeap.parentLt off).trans hi
    unfold stays at kept ⊢
    rwa [(agree x (slotMember wf hi slot)).2,(agree p (slotMember wf upper up)).2]

theorem resetWellFormed [DecidableEq ι] {x : ι} (wf : WellFormed k h) (out : x ∉ h.items) (p : α) :
    WellFormed k {h with priority := Function.update h.priority x p} :=
  wellFormedAgree wf rfl rfl rfl fun y mem =>
    ⟨rfl,Function.update_of_ne (fun same : y = x => out (same ▸ mem)) _ _⟩

/- What an operation leaves: a heap in order with the items of l. -/
structure Leaves (k : HeapKind) (h h' : Heap ι α) (l : List ι) : Prop where
  wellFormed : WellFormed k h'
  holds : h'.items.Perm l
  maxSize : h'.maxSize = h.maxSize
  priority : h'.priority = h.priority

theorem leavesSize {h' : Heap ι α} {l : List ι} (left : Leaves k h h' l) : h'.size = l.length :=
  (sizeOfItems left.wellFormed).symm.trans left.holds.length_eq

variable [LT α] [DecidableLT α] [Preorder κ]

/- An operation that settles m items in a heap resized to m leaves it in order. -/
theorem settledAgain (follows : k.Follows key) {h' : Heap ι α} {m : Nat} {l l' : List ι} {d : ι}
    (settled : Settled key h' m l d) (moves : Rearranged {h with size := m} h' l') : Leaves k h h' l := by
  have size : h'.size = m := by rw [moves.rest]
  obtain ⟨wf,holds⟩ := wellFormedOfSettled follows (size.symm ▸ settled)
  exact ⟨wf,holds,by rw [moves.rest],by rw [moves.rest]⟩

end Forms

section Steps
variable {ι α κ : Type} [DecidableEq ι] [LE α] [LT α] [DecidableLE α] [DecidableLT α] [Preorder κ]
  {k : HeapKind} {key : α → κ} {h : Heap ι α} {x : ι}

variable [@Std.Total κ (· ≤ ·)]

theorem pushLeaves (follows : k.Follows key) (wf : WellFormed k h) (new : x ∉ h.items)
    (room : h.size < h.maxSize) : ∃ h', push k h x = some (0,h') ∧ Leaves k h h' (x :: h.items) := by
  obtain ⟨h',runs,settled,moves⟩ := pushSettles follows (settledOfWellFormed follows wf x) room new
  have left := settledAgain follows settled moves
  exact ⟨h',runs,left.wellFormed,left.holds.trans (List.perm_append_singleton x h.items),left.maxSize,left.priority⟩

theorem pushAnswers (follows : k.Follows key) (wf : WellFormed k h) (new : x ∉ h.items) :
    ∃ r h', push k h x = some (r,h') ∧ Answers k h (.code r) h' (.push x) ∧ WellFormed k h' := by
  rcases Nat.lt_or_ge h.size h.maxSize with room | full
  · obtain ⟨h',runs,left⟩ := pushLeaves follows wf new room
    refine ⟨0,h',runs,⟨?_,fun full => absurd full (Nat.ne_of_lt room),fun _ => ⟨rfl,left.holds⟩⟩,left.wellFormed⟩
    simp [Nat.ne_of_lt room]
  · have same : h.size = h.maxSize := Nat.le_antisymm wf.fits full
    refine ⟨-1,h,if_pos full,⟨?_,fun _ => rfl,fun off => absurd same off⟩,wf⟩
    simp [same]

theorem popAtAnswers (follows : k.Follows key) (wf : WellFormed k h) {i : Nat} (inside : i < h.size)
    (slot : h.heap i = some x) :
    ∃ h', popAt k h i = some (some x,h') ∧ Leaves k h h' (h.items.erase x) ∧ h'.size + 1 = h.size := by
  obtain ⟨n,size⟩ : ∃ n, h.size = n + 1 := ⟨h.size - 1,by omega⟩
  have settled := settledOfWellFormed follows wf x
  rw [size] at settled
  have here : h.slotItem x i = x := by simp [slotItem,slot]
  obtain ⟨h',runs,settled',moves⟩ := popSettles follows (looseOfSettled settled i) size (by omega)
    (fun root later => absurd later (by rw [parentEarly follows settled (.inl root)]; exact Bool.noConfusion))
    (fun last => parentEarly follows settled (.inr last))
  rw [here] at runs settled'
  exact ⟨h',runs,settledAgain follows settled' moves,by rw [moves.rest]; exact size.symm⟩

theorem popAnswers (follows : k.Follows key) (wf : WellFormed k h) (some' : h.size ≠ 0) :
    ∃ x h', pop k h = some (some x,h') ∧ popAt k h 0 = some (some x,h') ∧ x ∈ h.items ∧
      (∀ y ∈ h.items, h.stays k x y = true) ∧ Leaves k h h' (h.items.erase x) ∧ h'.size + 1 = h.size := by
  obtain ⟨x,slot,back⟩ := wf.placed 0 (Nat.pos_of_ne_zero some')
  have settled := settledOfWellFormed follows wf x
  obtain ⟨h',runs,rest⟩ := popAtAnswers follows wf (Nat.pos_of_ne_zero some') slot
  obtain ⟨n,size⟩ : ∃ n, h.size = n + 1 := ⟨h.size - 1,by omega⟩
  refine ⟨x,h',?_,runs,(memberSlot wf).mpr ⟨0,Nat.pos_of_ne_zero some',slot,back⟩,fun y mem => ?_,rest⟩
  · rw [popIsPopAt follows (size ▸ settled) size]
    exact runs
  · obtain ⟨i,hi,there,_⟩ := (memberSlot wf).mp mem
    have least := Lib.BinaryHeap.orderedRoot settled.ordered hi
    unfold slotItem at least
    rw [slot,there] at least
    exact (follows.stays _ _).mpr least

theorem eraseAnswers (follows : k.Follows key) (wf : WellFormed k h) (mem : x ∈ h.items) :
    ∃ h', erase k h (some x) = some (0,h') ∧ Leaves k h h' (h.items.erase x) := by
  obtain ⟨i,hi,slot,back⟩ := (memberSlot wf).mp mem
  obtain ⟨h',runs,left,_⟩ := popAtAnswers follows wf hi slot
  refine ⟨h',?_,left⟩
  simp only [erase,back,runs,bind,Option.bind,pure,reduceCtorEq,if_false]

/- Each operation in turn: it runs, answers and leaves a heap in order. -/
theorem actAnswers (follows : k.Follows key) (wf : WellFormed k h) (a : Act ι α) (legal : Legal h a) :
    ∃ r h', act k h a = some (r,h') ∧ Answers k h r h' a ∧ WellFormed k h' := by
  cases a with
  | push item =>
    obtain ⟨r,h',runs,answers,wf'⟩ := pushAnswers follows wf legal
    exact ⟨.code r,h',by simp only [act,runs,Option.map_some],answers,wf'⟩
  | pop =>
    by_cases empty : h.size = 0
    · have runs : pop k h = some (none,h) := if_pos empty
      exact ⟨.item none,h,by simp only [act,runs,Option.map_some],
        ⟨fun _ => ⟨rfl,rfl⟩,fun some' => absurd empty some'⟩,wf⟩
    · obtain ⟨x,h',runs,_,mem,least,left,_⟩ := popAnswers follows wf empty
      exact ⟨.item (some x),h',by simp only [act,runs,Option.map_some],
        ⟨fun none' => absurd none' empty,fun _ => ⟨x,mem,rfl,least,left.holds⟩⟩,left.wellFormed⟩
  | popAt idx =>
    obtain ⟨low,high⟩ := legal
    obtain ⟨i,rfl⟩ := Int.eq_ofNat_of_zero_le low
    obtain ⟨x,slot,back⟩ := wf.placed i (by omega)
    obtain ⟨h',runs,left,_⟩ := popAtAnswers follows wf (by omega) slot
    exact ⟨.item (some x),h',by simp only [act,runs,Option.map_some],⟨x,slot,rfl,left.holds⟩,left.wellFormed⟩
  | erase item =>
    obtain ⟨h',runs,left⟩ := eraseAnswers follows wf legal
    exact ⟨.code 0,h',by simp only [act,runs,Option.map_some],⟨rfl,left.holds⟩,left.wellFormed⟩
  | reset item p => exact ⟨.unit,_,rfl,rfl,resetWellFormed wf legal p⟩

/- Popping until empty: each item popped belongs above those left. -/
theorem drainSorted (follows : k.Follows key) {n : Nat} (size : h.size = n) (wf : WellFormed k h) :
    ∃ l, drain k (n + 1) h = some l ∧ l.Perm h.items ∧ l.Pairwise fun x y => h.stays k x y = true := by
  induction n generalizing h with
  | zero =>
    have runs : pop k h = some (none,h) := if_pos size
    have none' : h.items = [] := List.eq_nil_of_length_eq_zero ((sizeOfItems wf).trans size)
    exact ⟨[],by simp only [drain,runs,Option.bind_some,Option.elim],none' ▸ List.Perm.refl _,.nil⟩
  | succ n ih =>
    obtain ⟨x,h',runs,_,mem,least,left,size'⟩ := popAnswers follows wf (by omega)
    obtain ⟨l,rest,perm,sorted⟩ := ih (by omega) left.wellFormed
    refine ⟨x :: l,?_,?_,.cons (fun y inRest => ?_) ?_⟩
    · simp only [drain,runs,Option.bind_some,Option.elim] at rest ⊢
      rw [rest]
      rfl
    · exact (List.Perm.cons x (perm.trans left.holds)).trans (List.perm_cons_erase mem).symm
    · exact least y (List.mem_of_mem_erase ((perm.trans left.holds).subset inRest))
    · refine sorted.imp fun {a b} inOrder => ?_
      unfold stays at inOrder ⊢
      rwa [left.priority] at inOrder

theorem worksOfWellFormed (follows : k.Follows key) (wf : WellFormed k h) : Works k h :=
  ⟨wf,actAnswers follows wf,drainSorted follows rfl wf⟩

theorem stepWellFormed (follows : k.Follows key) {a : Act ι α} {h' : Heap ι α} (wf : WellFormed k h)
    (legal : Legal h a) (did : step k h a = some h') : WellFormed k h' := by
  obtain ⟨r,h₁,runs,_,wf'⟩ := actAnswers follows wf a legal
  unfold step at did
  rw [runs] at did
  cases Option.some.inj did
  exact wf'

end Steps

section Claims
variable {ι α : Type} [DecidableEq ι] [Preorder α] [@Std.Total α (· ≤ ·)] [DecidableLE α] [DecidableLT α]

end Claims

end CuteNdk.Heap
