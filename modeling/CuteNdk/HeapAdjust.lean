import CuteNdk.HeapRuns

/-! heap::adjust after a change of priority, and heap::erase of an item that is not in
the heap: what each does, and exactly when it does what it is for. -/
namespace CuteNdk.Heap
open Lib (run Along Always alwaysOfInvariant alwaysInvariant)
open Lib.BinaryHeap (parent parentLt contents contentsMove contentsPush contentsSucc memContents
  holeOfOrdered)

section Change
variable {ι α : Type} [DecidableEq ι] [LE α] [LT α] [DecidableLE α] [DecidableLT α]

/- What a caller of adjust has done: the item's priority is another one. -/
def changed (h : Heap ι α) (x : ι) (p : α) : Heap ι α :=
  {h with priority := Function.update h.priority x p}

/- adjust repairs the heap: the same items, in order, each pointing back. -/
def Repairs (k : HeapKind) (h : Heap ι α) (x : ι) : Prop :=
  ∃ h', adjust k h (some x) = some (0,h') ∧ WellFormed k h' ∧ h'.items.Perm h.items

/- The item at the root now belongs below the last one, which takes its place though one
of the root's other children belongs above it. -/
def RootStays (k : HeapKind) (h : Heap ι α) (x : ι) : Prop :=
  h.heapIdx x = 0 ∧ ∃ last, h.heap (h.size - 1) = some last ∧ h.later k x last = true ∧
    ∃ c y, 0 < c ∧ parent c = 0 ∧ c < h.size - 1 ∧ h.heap c = some y ∧ h.later k last y = true

/- The item in the last slot now belongs above its parent. -/
def LastRises (k : HeapKind) (h : Heap ι α) (x : ι) : Prop :=
  0 < h.size - 1 ∧ h.heapIdx x = (h.size - 1 : Nat) ∧
    ∃ up, h.heap (parent (h.size - 1)) = some up ∧ h.later k up x = true

end Change

section Rise
variable {ι α : Type} [DecidableEq ι] {x : ι}

theorem putHeap {h h' : Heap ι α} {pos : Nat} {y : ι} (did : h.put pos y = some h') :
    h'.heap = Function.update h.heap pos (some y) ∧
      h' = {h with heap := h'.heap, heapIdx := h'.heapIdx} := by
  unfold put at did
  split at did <;> try contradiction
  cases Option.some.inj did
  exact ⟨rfl,rfl⟩

variable [LT α] [DecidableLT α] {k : HeapKind}

/- What a rise does to any array, in order or not. -/
structure Rises (k : HeapKind) (x : ι) (h h' : Heap ι α) (pos : Nat) : Prop where
  rest : h' = {h with heap := h'.heap, heapIdx := h'.heapIdx}
  above : ∀ j, pos < j → h'.heap j = h.heap j
  kept : ∀ j y, h.heap j = some y → h.later k y x = false → j ≠ pos → h'.heap j = some y
  holds : ∀ n, pos < n → (contents n h'.heap).Perm (contents n (Function.update h.heap pos (some x)))

theorem putRises {h h' : Heap ι α} {pos : Nat} (did : h.put pos x = some h') : Rises k x h h' pos := by
  unfold put at did
  split at did <;> try contradiction
  cases Option.some.inj did
  exact ⟨rfl,fun j far => Function.update_of_ne (Nat.ne_of_gt far) _ _,
    fun j y slot _ off => (Function.update_of_ne off _ _).trans slot,fun _ _ => List.Perm.refl _⟩

theorem shiftUpRises [LE α] [DecidableLE α] {fuel : Nat} {h h' : Heap ι α} {pos : Nat}
    (did : shiftUp k x fuel h pos = some h') : Rises k x h h' pos := by
  induction fuel generalizing h pos with
  | zero => exact putRises did
  | succ fuel ih =>
    simp only [shiftUp] at did
    split at did
    case isFalse top => exact putRises did
    case isTrue off =>
      obtain ⟨up,atUp,did⟩ := Option.bind_eq_some_iff.mp did
      obtain ⟨slot,_⟩ := slotOfHeapAt atUp
      split at did
      case isFalse stays => exact putRises did
      case isTrue later =>
        obtain ⟨h₁,stored,did⟩ := Option.bind_eq_some_iff.mp did
        obtain ⟨heap,rest⟩ := putHeap stored
        have ends := ih did
        have upper := parentLt off
        refine ⟨?_,fun j far => ?_,fun j y there early apart => ?_,fun n inside => ?_⟩
        · rw [ends.rest,rest]
        · rw [ends.above j (upper.trans far),heap]
          exact Function.update_of_ne (Nat.ne_of_gt far) _ _
        · have other : j ≠ parent pos := by
            intro same
            subst same
            cases Option.some.inj (slot.symm.trans there)
            exact absurd later (by rw [early]; exact Bool.noConfusion)
          refine ends.kept j y ?_ ?_ other
          · rw [heap,Function.update_of_ne apart]
            exact there
          · rw [rest]
            exact early
        · have moved := contentsMove (a := h.heap) (x := some x) inside (upper.trans inside) (Nat.ne_of_lt upper)
          have held := ends.holds n (upper.trans inside)
          rw [heap,← slot] at held
          exact held.trans moved

/- The first turn of a rise that has one. -/
theorem parentComesDown [LE α] [DecidableLE α] {fuel : Nat} {h h' : Heap ι α} {pos : Nat} {up : ι}
    (enough : pos ≤ fuel) (off : 0 < pos) (atUp : h.heap (parent pos) = some up)
    (later : h.later k up x = true) (did : shiftUp k x fuel h pos = some h') :
    h'.heap pos = some up := by
  cases fuel with
  | zero => omega
  | succ fuel =>
    simp only [shiftUp,off,if_true] at did
    obtain ⟨up',atUp',did⟩ := Option.bind_eq_some_iff.mp did
    cases Option.some.inj (atUp.symm.trans (slotOfHeapAt atUp').1)
    rw [if_pos later] at did
    obtain ⟨h₀,stored,did⟩ := Option.bind_eq_some_iff.mp did
    rw [(shiftUpRises did).above _ (parentLt off),(putHeap stored).1]
    exact Function.update_self _ _ _

end Rise

section Distinct
variable {ι α : Type} [LE α] [DecidableLE α] {k : HeapKind} {h : Heap ι α}

theorem slotsNodup (wf : WellFormed k h) : (contents h.size h.heap).Nodup := by
  refine (List.nodup_map_iff_inj_on List.nodup_range).mpr fun i hi j hj equal => ?_
  obtain ⟨y,slot,back⟩ := wf.placed i (List.mem_range.mp hi)
  obtain ⟨z,slot',back'⟩ := wf.placed j (List.mem_range.mp hj)
  cases Option.some.inj (slot.symm.trans (equal.trans slot'))
  exact Int.ofNat_inj.mp (back.symm.trans back')

end Distinct

section Repair
variable {ι α κ : Type} [LE α] [LT α] [DecidableLE α] [DecidableLT α] [Preorder κ]
  {k : HeapKind} {key : α → κ} {h : Heap ι α} {x : ι}

theorem itemsNodup (follows : k.Follows key) (wf : WellFormed k h) (x : ι) : h.items.Nodup := by
  have distinct := (settledOfWellFormed follows wf x).indexed.distinct
  rwa [List.map_id] at distinct

/- A new priority breaks the order at the item's own slot and nowhere else. -/
theorem changedLoose [DecidableEq ι] (follows : k.Follows key) (wf : WellFormed k h) {i : Nat}
    (back : h.heapIdx x = i) (p : α) : Loose key (h.changed x p) h.size h.items x i := by
  have settled := settledOfWellFormed follows wf x
  refine ⟨settled.indexed,settled.filled,settled.room,?_⟩
  refine Lib.BinaryHeap.holeRekey (holeOfOrdered settled.ordered i) fun j hj apart => ?_
  have other : h.slotItem x j ≠ x := by
    intro same
    have placed := settled.indexed.placed j hj
    rw [show id (h.slotItem x j) = x from same] at placed
    omega
  exact congrArg key (Function.update_of_ne other _ _)

variable [DecidableEq ι] [@Std.Total κ (· ≤ ·)]

/- Taken out and pushed back: adjust after a pop that leaves the heap in order. -/
theorem adjustOfPop (follows : k.Follows key) {n i : Nat} {l l' : List ι} (slot : h.heap i = some x)
    (back : h.heapIdx x = i) (wide : n < h.maxSize) (inside : i ≤ n)
    (distinct : l.Nodup) (mem : x ∈ l) {h' : Heap ι α} (runs : popAt k h i = some (some x,h'))
    (settled : Settled key h' n (l.erase x) x) (moves : Rearranged {h with size := n} h' l') :
    ∃ h', adjust k h (some x) = some (0,h') ∧ WellFormed k h' ∧ h'.items.Perm l := by
  have out : x ∉ l.erase x := distinct.not_mem_erase
  have size' : h'.size = n := by rw [moves.rest]
  have wide' : n < h'.maxSize := by rw [moves.rest]; exact wide
  have reset : Settled key {h' with heapIdx := Function.update h'.heapIdx x (-1)} h'.size (l.erase x) x := by
    rw [size']
    refine ⟨Lib.BinaryHeap.indexedRetable settled.indexed fun j hj => ?_,settled.filled,settled.room,
      settled.ordered⟩
    have inRest := Lib.BinaryHeap.indexedMem settled.indexed hj
    have other : h'.slotItem x j ≠ x := by
      intro same
      rw [same] at inRest
      exact out inRest
    exact Function.update_of_ne other _ _
  obtain ⟨h₂,pushes,settled₂,moves₂⟩ := pushSettles follows reset (size'.symm ▸ wide') out
  have left := settledAgain follows settled₂ moves₂
  refine ⟨h₂,?_,left.wellFormed,?_⟩
  · have there : h.read i = some (some x) := (if_pos (by omega)).trans (congrArg some slot)
    have positive : (0 : Int) ≤ i := by omega
    simp only [adjust,back,positive,if_true,Int.toNat_natCast,there,bind,Option.bind,runs]
    exact pushes
  · exact left.holds.trans ((List.perm_append_singleton x _).trans (List.perm_cons_erase mem).symm)

theorem adjustRepairs (follows : k.Follows key) (wf : WellFormed k h) (mem : x ∈ h.items) (p : α)
    (root : ¬RootStays k (h.changed x p) x) (last : ¬LastRises k (h.changed x p) x) :
    Repairs k (h.changed x p) x := by
  obtain ⟨i,hi,slot,back⟩ := (memberSlot wf).mp mem
  obtain ⟨n,size⟩ : ∃ n, h.size = n + 1 := ⟨h.size - 1,by omega⟩
  have loose := changedLoose follows wf back p
  rw [size] at loose
  have here : (h.changed x p).slotItem x i = x := slotDefault (heapAtOfSlot slot (hi.trans_le wf.fits)) x
  have atEnd : (h.changed x p).size - 1 = n := by change h.size - 1 = n; omega
  have lastSlot : (h.changed x p).heap n = some ((h.changed x p).slotItem x n) :=
    (slotOfHeapAt (loose.filled n (Nat.lt_succ_self n))).1
  obtain ⟨h',runs,settled,moves⟩ := popSettles follows loose size (by omega) (fun top later c off hc under => by
      subst top
      rw [show (h.changed x p).slotItem x (parent 0) = x from here] at later
      refine notLater fun lt => root ⟨back,_,atEnd.symm ▸ lastSlot,later,c,_,off,under,by rw [atEnd]; exact hc,
        (slotOfHeapAt (loose.filled c (by omega))).1,(follows.later _ _).mpr lt⟩) (fun end' => by
      subst end'
      refine Bool.eq_false_iff.mpr fun later => ?_
      rw [here] at later
      rcases Nat.eq_zero_or_pos i with top | off
      · subst top
        rw [show (h.changed x p).slotItem x (parent 0) = x from here] at later
        exact lt_irrefl _ ((follows.later _ _).mp later)
      · have up := slotOfHeapAt (loose.filled (parent i) (by have := parentLt off; omega))
        exact last ⟨by rw [atEnd]; exact off,by rw [atEnd]; exact back,_,by rw [atEnd]; exact up.1,later⟩)
  rw [here] at runs settled
  exact adjustOfPop (h := h.changed x p) follows slot back loose.room (by omega)
    (itemsNodup (h := h) follows wf x) mem runs settled moves

end Repair

section Inversion
variable {ι α : Type} [DecidableEq ι] [LT α] [DecidableLT α] {k : HeapKind} {h h' : Heap ι α} {x : ι}

theorem pushInv (did : push k h x = some (0,h')) :
    shiftUp k x h.size {h with size := h.size + 1} h.size = some h' := by
  unfold push at did
  split at did
  · cases Option.some.inj did
  · obtain ⟨h₁,sifts,did⟩ := Option.bind_eq_some_iff.mp did
    cases Option.some.inj did
    exact sifts

variable [LE α] [DecidableLE α]

theorem popAtInv {i m : Nat} {r : Option ι} (size : h.size = m + 1) (did : popAt k h i = some (r,h')) :
    ∃ up last, h.heap (parent i) = some up ∧ h.heap m = some last ∧
      (if h.later k up last then shiftUp k last i {h with size := m} i
        else shiftDown k last (m + 1) {h with size := m} i) = some h' := by
  have found : ¬(h.size = 0 ∨ (i : Int) < 0) := by omega
  have shrunk : h.size - 1 = m := by omega
  unfold popAt at did
  rw [if_neg found] at did
  obtain ⟨item,_,did⟩ := Option.bind_eq_some_iff.mp did
  split at did <;> try contradiction
  simp only [shrunk,Int.toNat_natCast] at did
  obtain ⟨up,atUp,did⟩ := Option.bind_eq_some_iff.mp did
  obtain ⟨last,atLast,did⟩ := Option.bind_eq_some_iff.mp did
  refine ⟨up,last,(slotOfHeapAt atUp).1,(slotOfHeapAt atLast).1,?_⟩
  by_cases later : h.later k up last = true
  · rw [if_pos (show ({h with size := m} : Heap ι α).later k up last = true from later)] at did
    obtain ⟨h₁,sifts,did⟩ := Option.bind_eq_some_iff.mp did
    cases Option.some.inj did
    rwa [if_pos later]
  · rw [if_neg (show ¬({h with size := m} : Heap ι α).later k up last = true from later)] at did
    obtain ⟨h₁,sifts,did⟩ := Option.bind_eq_some_iff.mp did
    cases Option.some.inj did
    rwa [if_neg later]

theorem adjustInv {c : Int} (did : adjust k h (some x) = some (c,h')) :
    ∃ r h₁, popAt k h (h.heapIdx x) = some (r,h₁) ∧
      push k {h₁ with heapIdx := Function.update h₁.heapIdx x (-1)} x = some (c,h') := by
  simp only [adjust] at did
  split at did <;> try contradiction
  obtain ⟨there,_,did⟩ := Option.bind_eq_some_iff.mp did
  split at did <;> try contradiction
  obtain ⟨r,popped,did⟩ := Option.bind_eq_some_iff.mp did
  exact ⟨r.1,r.2,popped,did⟩

end Inversion

section Break
variable {ι α κ : Type} [DecidableEq ι] [LE α] [LT α] [DecidableLE α] [DecidableLT α] [Preorder κ]
  {k : HeapKind} {key : α → κ} {h h' : Heap ι α} {x : ι}

/- The last item rests at the root, and what is pushed back stays below it. -/
theorem rootBreaks (follows : k.Follows key) (slot : h.heap 0 = some x) (root : RootStays k h x) :
    ¬Repairs k h x := by
  rintro ⟨h',did,wf,_⟩
  obtain ⟨back,last,atLast,later,c,y,off,under,hc,child,before⟩ := root
  obtain ⟨m,size⟩ : ∃ m, h.size = m + 1 := ⟨h.size - 1,by omega⟩
  have shrunk : h.size - 1 = m := by omega
  rw [shrunk] at atLast hc
  obtain ⟨r,h₁,popped,pushed⟩ := adjustInv did
  rw [back] at popped
  obtain ⟨up,last',atUp,atLast',sifts⟩ := popAtInv (i := 0) size popped
  cases Option.some.inj (atLast.symm.trans atLast')
  cases Option.some.inj (slot.symm.trans atUp)
  rw [if_pos later] at sifts
  have stored : ({h with size := m} : Heap ι α).put 0 last = some h₁ := sifts
  obtain ⟨heap,rest⟩ := putHeap stored
  have size₁ : h₁.size = m := by rw [rest]
  have rises := shiftUpRises (pushInv pushed)
  have lt := (follows.later _ _).mp later
  have lt' := (follows.later _ _).mp before
  have priority : h₁.priority = h.priority := by rw [rest]
  have kept : ∀ j z, j < m → h₁.heap j = some z → key (h.priority z) ≤ key (h.priority last) →
      h'.heap j = some z := by
    intro j z hj there le
    refine rises.kept j z there (Bool.eq_false_iff.mpr fun up => ?_) (by change j ≠ h₁.size; omega)
    have above := (follows.later _ _).mp up
    change key (h₁.priority x) < key (h₁.priority z) at above
    rw [priority] at above
    exact lt_irrefl _ ((above.trans_le le).trans lt)
  have root' := kept 0 last (by omega) (by rw [heap]; exact Function.update_self _ _ _) (le_refl _)
  have child' := kept c y hc (by rw [heap,Function.update_of_ne (Nat.ne_of_gt off)]; exact child) lt'.le
  have inOrder := wf.ordered c y last off (by rw [rises.rest]; change c < h₁.size + 1; omega) child'
    (under.symm ▸ root')
  have le := (follows.stays _ _).mp inOrder
  have priority' : h'.priority = h.priority := by rw [rises.rest]; exact priority
  rw [priority'] at le
  exact lt_irrefl _ (lt'.trans_le le)

/- The parent comes down into the slot past the end, where the push overwrites it. -/
theorem lastBreaks (follows : k.Follows key) (distinct : (contents h.size h.heap).Nodup)
    (slot : h.heap (h.size - 1) = some x) (last : LastRises k h x) : ¬Repairs k h x := by
  rintro ⟨h',did,wf,same⟩
  obtain ⟨off,back,up,atUp,later⟩ := last
  obtain ⟨m,size⟩ : ∃ m, h.size = m + 1 := ⟨h.size - 1,by omega⟩
  have shrunk : h.size - 1 = m := by omega
  rw [shrunk] at off back atUp slot
  obtain ⟨r,h₁,popped,pushed⟩ := adjustInv did
  rw [back] at popped
  obtain ⟨up',last',atUp',atLast,sifts⟩ := popAtInv size popped
  cases Option.some.inj (atUp.symm.trans atUp')
  cases Option.some.inj (slot.symm.trans atLast)
  rw [if_pos later] at sifts
  have rises := shiftUpRises sifts
  have again := shiftUpRises (pushInv pushed)
  have size₁ : h₁.size = m := by rw [rises.rest]
  have down : h₁.heap m = some up := parentComesDown (h := {h with size := m}) (Nat.le_refl m) off
    atUp later sifts
  have whole := rises.holds (m + 1) (Nat.lt_succ_self m)
  change (contents (m + 1) h₁.heap).Perm (contents (m + 1) (Function.update h.heap m (some x))) at whole
  rw [← slot,Function.update_eq_self,contentsSucc,down] at whole
  have apart := whole.nodup_iff.mpr (size ▸ distinct)
  have final := again.holds (m + 1) (by change h₁.size < m + 1; omega)
  change (contents (m + 1) h'.heap).Perm (contents (m + 1) (Function.update h₁.heap h₁.size (some x)))
    at final
  rw [size₁,contentsPush] at final
  have member : up ∈ h'.items := by
    refine same.symm.subset (List.mem_filterMap.mpr ⟨parent m,?_,atUp⟩)
    have := parentLt off
    exact List.mem_range.mpr (by omega)
  obtain ⟨j,hj,there⟩ := List.mem_filterMap.mp member
  have size' : h'.size = m + 1 := by rw [again.rest]; change h₁.size + 1 = m + 1; omega
  rw [size'] at hj
  have held := final.subset (memContents.mpr ⟨j,List.mem_range.mp hj,there⟩)
  rcases List.mem_append.mp held with old | new
  · exact (List.nodup_append.mp apart).2.2 _ old _ (List.mem_singleton_self _) rfl
  · cases Option.some.inj (List.mem_singleton.mp new)
    exact lt_irrefl _ ((follows.later _ _).mp later)

theorem adjustIff [@Std.Total κ (· ≤ ·)] (follows : k.Follows key) (wf : WellFormed k h) (mem : x ∈ h.items) (p : α) :
    Repairs k (h.changed x p) x ↔ ¬RootStays k (h.changed x p) x ∧ ¬LastRises k (h.changed x p) x := by
  obtain ⟨i,hi,slot,back⟩ := (memberSlot wf).mp mem
  constructor
  · intro repairs
    constructor
    · intro root
      have top : i = 0 := by
        have at0 := root.1
        change h.heapIdx x = 0 at at0
        omega
      subst top
      exact rootBreaks (h := h.changed x p) follows slot root repairs
    · intro last
      have atEnd : i = h.size - 1 := by
        have atLast := last.2.1
        change h.heapIdx x = ((h.size - 1 : Nat) : Int) at atLast
        omega
      subst atEnd
      exact lastBreaks (h := h.changed x p) follows (slotsNodup (h := h) wf) slot last repairs
  · intro ok
    exact adjustRepairs follows wf mem p ok.1 ok.2

end Break

section Claims
variable {ι α : Type} [DecidableEq ι] [Preorder α] [@Std.Total α (· ≤ ·)] [DecidableLE α] [DecidableLT α]

end Claims

/- The items 0 to n - 1 in their order. -/
def counted (maxSize n : Nat) (priority : Nat → Nat) : Heap Nat Nat :=
  ⟨maxSize,n,fun i => if i < n then some i else none,fun i => i,priority⟩

theorem countedWellFormed {maxSize n : Nat} {priority : Nat → Nat} (fits : n ≤ maxSize)
    (mono : Monotone priority) : WellFormed .minHeap (counted maxSize n priority) := by
  refine ⟨fits,fun i hi => ⟨i,if_pos hi,rfl⟩,fun i x p off hi slot up => ?_⟩
  have upper := parentLt off
  cases Option.some.inj (slot.symm.trans (if_pos hi))
  cases Option.some.inj (up.symm.trans (if_pos (upper.trans hi)))
  exact decide_eq_true (mono upper.le)

theorem succMono : Monotone fun i : Nat => i + 1 := fun _ _ le => Nat.add_le_add_right le 1

section Absent
variable {ι α κ : Type} [DecidableEq ι] [LE α] [LT α] [DecidableLE α] [DecidableLT α]
  {k : HeapKind} {key : α → κ} {h : Heap ι α} {x : ι}

/- What erase of an item that is not there should do. -/
def Refuses (k : HeapKind) (h : Heap ι α) (x : ι) : Prop := erase k h (some x) = some (-1,h)

/- An index that is neither negative nor met by an empty heap takes something out. -/
theorem popAtNull {idx : Int} {h' : Heap ι α} (did : popAt k h idx = some (none,h')) :
    h.size = 0 ∨ idx < 0 := by
  by_contra found
  unfold popAt at did
  rw [if_neg found] at did
  obtain ⟨item,_,did⟩ := Option.bind_eq_some_iff.mp did
  split at did <;> try contradiction
  obtain ⟨up,_,did⟩ := Option.bind_eq_some_iff.mp did
  obtain ⟨last,_,did⟩ := Option.bind_eq_some_iff.mp did
  split at did <;> obtain ⟨_,_,did⟩ := Option.bind_eq_some_iff.mp did <;>
    exact Option.some_ne_none _ (congrArg Prod.fst (Option.some.inj did))

theorem refusesIff : Refuses k h x ↔ h.size = 0 ∨ h.heapIdx x < 0 := by
  constructor
  · intro refuses
    obtain ⟨r,popped,did⟩ := Option.bind_eq_some_iff.mp refuses
    have code := congrArg Prod.fst (Option.some.inj did)
    change (if r.1 = none then (-1 : Int) else 0) = -1 at code
    split at code
    case isTrue null =>
      have nothing : popAt k h (h.heapIdx x) = some (none,r.2) := by rw [popped,← null]
      exact popAtNull nothing
    case isFalse => cases code
  · intro early
    have popped : popAt k h (h.heapIdx x) = some (none,h) := if_pos early
    simp only [Refuses,erase,popped,bind,Option.bind,pure,if_true]

/- An index left behind by a pop takes out whatever lies there since. -/
theorem staleErases [Preorder κ] [@Std.Total κ (· ≤ ·)] (follows : k.Follows key) (wf : WellFormed k h)
    (absent : x ∉ h.items) {i : Nat} (inside : i < h.size) (stale : h.heapIdx x = i) :
    ∃ y h', y ∈ h.items ∧ y ≠ x ∧ erase k h (some x) = some (0,h') ∧
      h'.items.Perm (h.items.erase y) := by
  obtain ⟨y,slot,back⟩ := wf.placed i inside
  have mem := slotMember wf inside slot
  obtain ⟨h',runs,left,_⟩ := popAtAnswers follows wf inside slot
  refine ⟨y,h',mem,fun same => absent (same ▸ mem),?_,left.holds⟩
  simp only [erase,stale,runs,bind,Option.bind,pure,reduceCtorEq,if_false]

/- Also erases of items that are not there, where they are safe. -/
def Careful (h : Heap ι α) : Act ι α → Prop
  | .erase x => x ∈ h.items ∨ h.size = 0 ∨ h.heapIdx x < 0
  | a => Legal h a

instance (h : Heap ι α) (a : Act ι α) : Decidable (Careful h a) :=
  Act.casesOn (motive := fun a => Decidable (Careful h a)) a
    (fun x => inferInstanceAs (Decidable (Legal h (.push x))))
    (inferInstanceAs (Decidable (Legal h .pop)))
    (fun i => inferInstanceAs (Decidable (Legal h (.popAt i))))
    (fun x => @instDecidableOr _ _ (inferInstanceAs (Decidable (Legal h (.erase x))))
      (@instDecidableOr _ _ (instDecidableEqNat _ _) (Int.decLt _ _)))
    (fun x p => inferInstanceAs (Decidable (Legal h (.reset x p))))

theorem carefulWellFormed [Preorder κ] [@Std.Total κ (· ≤ ·)] (follows : k.Follows key)
    {a : Act ι α} {h' : Heap ι α} (wf : WellFormed k h) (careful : Careful h a)
    (did : step k h a = some h') : WellFormed k h' := by
  cases a with
  | erase x =>
    rcases careful with mem | early
    · exact stepWellFormed (a := .erase x) follows wf mem did
    · have refuses : erase k h (some x) = some (-1,h) := refusesIff.mpr early
      simp only [step,act,refuses,Option.map_some] at did
      cases Option.some.inj did
      exact wf
  | push x => exact stepWellFormed (a := .push x) follows wf careful did
  | pop => exact stepWellFormed (a := .pop) follows wf careful did
  | popAt idx => exact stepWellFormed (a := .popAt idx) follows wf careful did
  | reset x p => exact stepWellFormed (a := .reset x p) follows wf careful did

end Absent

section AbsentRuns
variable {ι α : Type} [DecidableEq ι] [Preorder α] [@Std.Total α (· ≤ ·)] [DecidableLE α] [DecidableLT α]

/- In every state of every run, and in those of the careful runs the heap is in order. -/
theorem eraseAbsent (k : HeapKind) (maxSize : Nat) (priority : ι → α) (acts : List (Act ι α)) :
    Always (step k) (fun h => ∀ x, x ∉ h.items → (Refuses k h x ↔ h.size = 0 ∨ h.heapIdx x < 0))
      (new maxSize (fun _ => -1) priority) acts ∧
    (Along (step k) Careful (new maxSize (fun _ => -1) priority) acts →
      Always (step k) (WellFormed k) (new maxSize (fun _ => -1) priority) acts) := by
  constructor
  · exact alwaysInvariant (fun _ _ _ _ _ x _ => refusesIff) (fun x _ => refusesIff) acts
  · intro careful
    cases k with
    | minHeap =>
      exact alwaysOfInvariant (fun _ _ _ => carefulWellFormed HeapKind.minFollows)
        (newWellFormed _ _ _) careful
    | maxHeap =>
      exact alwaysOfInvariant (fun _ _ _ => carefulWellFormed HeapKind.maxFollows)
        (newWellFormed _ _ _) careful

end AbsentRuns

/- 5 was never pushed, and 7 is erased again once the heap is empty. -/
theorem emptyRefuses :
    Always (step .minHeap) (WellFormed .minHeap) (new 3 (fun _ => -1) fun i : Nat => i)
      [.push 7,.erase 5,.pop,.erase 7] :=
  (eraseAbsent .minHeap 3 _ _).2 (by decide)

/- 7 is popped and keeps the index 0: erasing it takes 8 out. -/
theorem erasesAnother :
    ∃ h, run (step .minHeap) (new 3 (fun _ => -1) fun i : Nat => i) [.push 7,.push 8,.pop] = some h ∧
      7 ∉ h.items ∧ h.items = [8] ∧
      ∃ h', erase .minHeap h (some 7) = some (0,h') ∧ h'.items = [] :=
  ⟨_,rfl,by decide,by decide,_,rfl,by decide⟩

end CuteNdk.Heap
