import CuteNdk.HeapSift

/-! One operation of heap.h at a time: push and both pops end with the heap in order,
the back pointers right and the items those expected. pop(idx) is told what it needs of
the order, which an item whose priority has changed breaks at its own slot. -/
namespace CuteNdk.Heap
open Lib.BinaryHeap (parent parentLt Ordered Hole Above Below holeOfOrdered holeShrink belowOfEarlier
  orderedRoot contents Indexed pendingPush pendingPop indexedDropLast indexedMem contentsCongr)

section Slots
variable {ι α κ : Type} [Preorder κ] {key : α → κ} {h : Heap ι α} {n s : Nat} {l : List ι} {d : ι}

/- As Settled, but the order is broken at the slot s, if anywhere. -/
structure Loose (key : α → κ) (h : Heap ι α) (n : Nat) (l : List ι) (d : ι) (s : Nat) : Prop where
  indexed : Indexed id n l (h.slotItem d) h.heapIdx
  filled : ∀ i < n, h.heapAt i = some (h.slotItem d i)
  room : n ≤ h.maxSize
  hole : Hole (h.rank key) n (h.slotItem d) s

theorem looseOfSettled (settled : Settled key h n l d) (s : Nat) : Loose key h n l d s :=
  ⟨settled.indexed,settled.filled,settled.room,holeOfOrdered settled.ordered s⟩

theorem slotDefault {i : Nat} {p : ι} (slot : h.heapAt i = some p) (d : ι) : h.slotItem d i = p := by
  unfold slotItem
  rw [(slotOfHeapAt slot).1]
  rfl

theorem orderedCongr {rank : ι → κ} {a b : Nat → ι} (ordered : Ordered rank n a)
    (same : ∀ i < n, b i = a i) : Ordered rank n b := by
  intro i off inside
  rw [same i inside,same _ ((parentLt off).trans inside)]
  exact ordered i off inside

theorem indexedCongr {a b : Nat → ι} {place place' : ι → Int} (indexed : Indexed id n l a place)
    (same : ∀ i < n, b i = a i) (kept : ∀ i < n, place' (a i) = place (a i)) :
    Indexed id n l b place' := by
  refine ⟨contentsCongr same ▸ indexed.holds,indexed.distinct,fun i hi => ?_⟩
  rw [same i hi]
  exact (kept i hi).trans (indexed.placed i hi)

theorem settledDefault (settled : Settled key h n l d) (d' : ι) : Settled key h n l d' := by
  have same : ∀ i < n, h.slotItem d' i = h.slotItem d i := fun i hi => slotDefault (settled.filled i hi) d'
  exact ⟨indexedCongr settled.indexed same fun _ _ => rfl,
    fun i hi => (settled.filled i hi).trans (congrArg some (same i hi).symm),settled.room,
    orderedCongr settled.ordered same⟩

theorem itemsOfFilled (filled : ∀ i < h.size, h.heapAt i = some (h.slotItem d i)) :
    h.items = contents h.size (h.slotItem d) := by
  unfold items contents
  rw [← List.filterMap_eq_map]
  refine List.filterMap_congr fun i hi => ?_
  exact (slotOfHeapAt (filled i (List.mem_range.mp hi))).1

/- The last item is on its way to the slot of the one taken out. -/
theorem refillSifting [DecidableEq ι] (loose : Loose key h (n + 1) l d s) (inside : s < n) :
    Sifting {h with size := n} n (l.erase (h.slotItem d s)) s (h.slotItem d n) ∧
      Hole (h.rank key) n (h.slotItem (h.slotItem d n)) s := by
  have same : ∀ i < n + 1, h.slotItem (h.slotItem d n) i = h.slotItem d i := fun i hi =>
    slotDefault (loose.filled i hi) _
  have pending := pendingPop (indexedCongr loose.indexed same fun _ _ => rfl) inside
  rw [same s (by omega),same n (by omega)] at pending
  refine ⟨⟨pending,fun i hi _ => ?_,(Nat.le_succ n).trans loose.room⟩,?_⟩
  · exact (loose.filled i (by omega)).trans (congrArg some (same i (by omega)).symm)
  · refine Lib.BinaryHeap.holeCongr (holeShrink loose.hole (Nat.le_succ n)) (fun i hi _ => same i (by omega)) inside

end Slots

section Forms
variable {ι α κ : Type} [LE α] [DecidableLE α] {k : HeapKind} {key : α → κ} {h : Heap ι α}
  {l : List ι} {d : ι}

theorem filledOfWellFormed (wf : WellFormed k h) (d : ι) :
    ∀ i < h.size, h.heapAt i = some (h.slotItem d i) ∧ h.heapIdx (h.slotItem d i) = i := by
  intro i hi
  obtain ⟨x,slot,back⟩ := wf.placed i hi
  have at' := heapAtOfSlot slot (hi.trans_le wf.fits)
  have same := slotDefault at' d
  exact ⟨same.symm ▸ at',same.symm ▸ back⟩

/- A member lies in the slot it points back to. -/
theorem memberSlot (wf : WellFormed k h) {x : ι} :
    x ∈ h.items ↔ ∃ i < h.size, h.heap i = some x ∧ h.heapIdx x = i := by
  unfold items
  simp only [List.mem_filterMap,List.mem_range]
  constructor
  · rintro ⟨i,hi,slot⟩
    obtain ⟨y,slot',back⟩ := wf.placed i hi
    cases Option.some.inj (slot.symm.trans slot')
    exact ⟨i,hi,slot,back⟩
  · rintro ⟨i,hi,slot,_⟩
    exact ⟨i,hi,slot⟩

variable [LT α] [DecidableLT α] [Preorder κ]

theorem wellFormedOfSettled (follows : k.Follows key) (settled : Settled key h h.size l d) :
    WellFormed k h ∧ h.items.Perm l := by
  constructor
  · refine ⟨settled.room,fun i hi => ⟨_,(slotOfHeapAt (settled.filled i hi)).1,
      settled.indexed.placed i hi⟩,fun i x p off hi here up => ?_⟩
    refine (follows.stays _ _).mpr ?_
    have inOrder := settled.ordered i off hi
    unfold slotItem at inOrder
    rwa [here,up] at inOrder
  · rw [itemsOfFilled settled.filled]
    exact settled.indexed.holds

theorem settledOfWellFormed (follows : k.Follows key) (wf : WellFormed k h) (d : ι) :
    Settled key h h.size h.items d := by
  have filled := filledOfWellFormed wf d
  have same := itemsOfFilled fun i hi => (filled i hi).1
  refine ⟨⟨same ▸ List.Perm.refl _,?_,fun i hi => (filled i hi).2⟩,fun i hi => (filled i hi).1,wf.fits,
    fun i off hi => ?_⟩
  · rw [List.map_id,same]
    refine (List.nodup_map_iff_inj_on List.nodup_range).mpr fun i hi j hj equal => ?_
    have placeI := (filled i (List.mem_range.mp hi)).2
    have placeJ := (filled j (List.mem_range.mp hj)).2
    rw [equal,placeJ] at placeI
    exact (Int.ofNat_inj.mp placeI).symm
  · have up := parentLt off
    exact (follows.stays _ _).mp (wf.ordered i _ _ off hi (slotOfHeapAt (filled i hi).1).1
      (slotOfHeapAt (filled _ (up.trans hi)).1).1)

/- In a heap in order no parent belongs below the last item. -/
theorem parentEarly (follows : k.Follows key) {n s : Nat} (settled : Settled key h (n + 1) l d)
    (edge : s = 0 ∨ s = n) : h.later k (h.slotItem d (parent s)) (h.slotItem d n) = false := by
  have le : h.rank key (h.slotItem d (parent s)) ≤ h.rank key (h.slotItem d n) := by
    rcases edge with root | last
    · subst root
      exact orderedRoot settled.ordered (Nat.lt_succ_self n)
    · subst last
      rcases Nat.eq_zero_or_pos s with root | off
      · subst root
        exact le_refl _
      · exact settled.ordered s off (Nat.lt_succ_self s)
  exact Bool.eq_false_iff.mpr fun later => not_lt_of_ge le ((follows.later _ _).mp later)

end Forms

section Operations
variable {ι α κ : Type} [DecidableEq ι] [LE α] [LT α] [DecidableLE α] [DecidableLT α] [Preorder κ]
  {k : HeapKind} {key : α → κ} {h : Heap ι α} {n s : Nat} {l : List ι} {d x : ι}

/- What is taken out of the last slot is put back there, past the end of the heap. -/
theorem popLastSettles (loose : Loose key h (n + 1) l d n)
    (size : h.size = n + 1) (early : h.later k (h.slotItem d (parent n)) (h.slotItem d n) = false) :
    ∃ h', popAt k h n = some (some (h.slotItem d n),h') ∧
      Settled key h' n (l.erase (h.slotItem d n)) d ∧ Rearranged {h with size := n} h' l := by
  have back : h.heapIdx (h.slotItem d n) = n := loose.indexed.placed n (by omega)
  have up : parent n < n + 1 := by unfold parent; omega
  have shrunk : h.size - 1 = n := by omega
  have atUp : ({h with size := n} : Heap ι α).heapAt (parent n) = some (h.slotItem d (parent n)) :=
    loose.filled _ up
  have atLast : ({h with size := n} : Heap ι α).heapAt n = some (h.slotItem d n) := loose.filled n (by omega)
  have found : ¬(h.size = 0 ∨ (n : Int) < 0) := by omega
  have right : (n : Int) ≠ -1 := by omega
  have leaf : ¬n + n + 1 < n := by omega
  have notUp : ({h with size := n} : Heap ι α).later k (h.slotItem d (parent n)) (h.slotItem d n) = false :=
    early
  have stored : ({h with size := n} : Heap ι α).put n (h.slotItem d n) = _ := putRuns loose.room
  refine ⟨({h with size := n} : Heap ι α).placed n (h.slotItem d n),?_,?_,
    placedRearranged (indexedMem loose.indexed (Nat.lt_succ_self n))⟩
  · simp only [popAt,found,if_false,Int.toNat_natCast,loose.filled n (by omega),bind,Option.bind,back,ne_eq,
      right,not_false_eq_true,and_self,if_true,shrunk,atUp,atLast,pure,notUp,Bool.false_eq_true,shiftDown,
      leaf,stored]
  · have same : ∀ i < n, (({h with size := n} : Heap ι α).placed n (h.slotItem d n)).slotItem d i
        = h.slotItem d i := by
      intro i hi
      rw [placedSlots,Function.update_of_ne (Nat.ne_of_lt hi)]
      rfl
    refine ⟨indexedCongr (indexedDropLast loose.indexed) same fun i hi => ?_,fun i hi => ?_,
      (Nat.le_succ n).trans loose.room,?_⟩
    · have apart : h.slotItem d i ≠ h.slotItem d n := fun equal => by
        have placed := loose.indexed.placed i (by omega)
        rw [equal] at placed
        have := back.symm.trans placed
        omega
      exact Function.update_of_ne apart _ _
    · rw [same i hi,placedHeapAt _ (Nat.ne_of_lt hi)]
      exact loose.filled i (by omega)
    · refine orderedCongr (fun i off hi => ?_) same
      have := parentLt off
      exact loose.hole.off i off (by omega) (by omega) (by omega)

/- pop() takes out what pop(0) does. -/
theorem popIsPopAt (follows : k.Follows key) (settled : Settled key h (n + 1) l d)
    (size : h.size = n + 1) : pop k h = popAt k h 0 := by
  have early := parentEarly follows settled (s := 0) (.inl rfl)
  have root : parent 0 = 0 := rfl
  rw [root] at early
  have at0 := settled.filled 0 (Nat.succ_pos n)
  have read0 : h.read 0 = some (some (h.slotItem d 0)) := by
    obtain ⟨slot,inside⟩ := slotOfHeapAt at0
    exact (if_pos inside).trans (congrArg some slot)
  have back : h.heapIdx (h.slotItem d 0) = 0 := settled.indexed.placed 0 (Nat.succ_pos n)
  have shrunk : h.size - 1 = n := by omega
  have some' : h.size ≠ 0 := by omega
  have at0' : ({h with size := n} : Heap ι α).heapAt 0 = some (h.slotItem d 0) := at0
  have atLast : ({h with size := n} : Heap ι α).heapAt n = some (h.slotItem d n) :=
    settled.filled n (Nat.lt_succ_self n)
  have early' : ({h with size := n} : Heap ι α).later k (h.slotItem d 0) (h.slotItem d n) = false := early
  simp only [pop,popAt,some',if_false,false_or,lt_irrefl,read0,Int.toNat_zero,at0,back,shrunk,bind,
    Option.bind,atLast,root,at0',early',Bool.false_eq_true,ne_eq,not_false_eq_true,and_self,
    if_true,show ¬(0 : Int) = -1 by decide]

variable [@Std.Total κ (· ≤ ·)]

theorem pushSettles (follows : k.Follows key) (settled : Settled key h h.size l x)
    (room : h.size < h.maxSize) (new : x ∉ l) :
    ∃ h', push k h x = some (0,h') ∧ Settled key h' (h.size + 1) (l ++ [x]) x ∧
      Rearranged {h with size := h.size + 1} h' (l ++ [x]) := by
  have sifting : Sifting {h with size := h.size + 1} (h.size + 1) (l ++ [x]) h.size x :=
    ⟨pendingPush settled.indexed (by rwa [List.map_id]),fun i hi off => settled.filled i (by omega),room⟩
  have hole : Hole (h.rank key) (h.size + 1) (h.slotItem x) h.size := by
    refine ⟨fun i off hi here _ => settled.ordered i off (by omega),fun _ i off hi under => ?_⟩
    have := parentLt off
    omega
  have below : Below (h.rank key) (h.size + 1) (h.slotItem x) h.size x := by
    intro i off hi under
    have := parentLt off
    omega
  obtain ⟨h',runs,settled',moves⟩ := shiftUpSettles follows (Nat.le_refl h.size) sifting hole below
  refine ⟨h',?_,settled',moves⟩
  simp only [push,Nat.not_le.mpr room,if_false,runs,bind,Option.bind,pure]

/- The root is compared with itself: an item that belongs below the last one lets the
last one rest at the root, unsifted. -/
theorem popInnerSettles (follows : k.Follows key) (loose : Loose key h (n + 1) l d s)
    (size : h.size = n + 1) (inside : s < n)
    (top : s = 0 → h.later k (h.slotItem d (parent s)) (h.slotItem d n) = true →
      Below (h.rank key) n (h.slotItem d) s (h.slotItem d n)) :
    ∃ h', popAt k h s = some (some (h.slotItem d s),h') ∧
      Settled key h' n (l.erase (h.slotItem d s)) (h.slotItem d n) ∧
      Rearranged {h with size := n} h' (l.erase (h.slotItem d s)) := by
  obtain ⟨sifting,hole⟩ := refillSifting loose inside
  have back : h.heapIdx (h.slotItem d s) = s := loose.indexed.placed s (by omega)
  have up : parent s < n + 1 := by unfold parent; omega
  have same : ∀ i < n + 1, h.slotItem (h.slotItem d n) i = h.slotItem d i := fun i hi =>
    slotDefault (loose.filled i hi) _
  have shrunk : h.size - 1 = n := by omega
  have atUp : ({h with size := n} : Heap ι α).heapAt (parent s) = some (h.slotItem d (parent s)) :=
    loose.filled _ up
  have atLast : ({h with size := n} : Heap ι α).heapAt n = some (h.slotItem d n) := loose.filled n (by omega)
  have found : ¬(h.size = 0 ∨ (s : Int) < 0) := by omega
  have right : (s : Int) ≠ -1 := by omega
  simp only [popAt,found,if_false,Int.toNat_natCast,loose.filled s (by omega),bind,Option.bind,back,ne_eq,
    right,not_false_eq_true,and_self,if_true,shrunk,atUp,atLast,pure]
  split
  case isTrue later =>
    have below : Below (h.rank key) n (h.slotItem (h.slotItem d n)) s (h.slotItem d n) := by
      rcases Nat.eq_zero_or_pos s with root | off
      · intro i off hi under
        rw [same i (by omega)]
        exact top root later i off hi under
      · refine belowOfEarlier hole off ?_
        rw [same _ up]
        exact (follows.later _ _).mp later
    obtain ⟨h',runs,settled,moves⟩ := shiftUpSettles follows (Nat.le_refl s) sifting hole below
    simp only [runs]
    exact ⟨h',rfl,settled,moves⟩
  case isFalse early =>
    have above : Above (h.rank key) (h.slotItem (h.slotItem d n)) s (h.slotItem d n) := by
      intro _
      rw [same _ up]
      exact notLater fun lt => early ((follows.later _ _).mpr lt)
    obtain ⟨h',runs,settled,moves⟩ := shiftDownSettles follows (h := {h with size := n}) rfl
      (show n - s < n + 1 by omega) sifting hole above
    simp only [runs]
    exact ⟨h',rfl,settled,moves⟩

theorem popSettles (follows : k.Follows key) (loose : Loose key h (n + 1) l d s) (size : h.size = n + 1)
    (inside : s < n + 1)
    (root : s = 0 → h.later k (h.slotItem d (parent s)) (h.slotItem d n) = true →
      Below (h.rank key) n (h.slotItem d) s (h.slotItem d n))
    (last : s = n → h.later k (h.slotItem d (parent s)) (h.slotItem d n) = false) :
    ∃ h', popAt k h s = some (some (h.slotItem d s),h') ∧
      Settled key h' n (l.erase (h.slotItem d s)) d ∧ Rearranged {h with size := n} h' l := by
  rcases Nat.lt_or_ge s n with inner | far
  · obtain ⟨h',runs,settled,moves⟩ := popInnerSettles follows loose size inner root
    exact ⟨h',runs,settledDefault settled d,moves.rest,fun p off =>
      moves.others p fun mem => off (List.mem_of_mem_erase mem)⟩
  · have atEnd : s = n := by omega
    subst atEnd
    exact popLastSettles loose size (last rfl)

end Operations

end CuteNdk.Heap
