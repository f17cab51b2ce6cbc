import Mathlib.Data.List.Perm.Basic
import Mathlib.Data.List.NodupEquivFin
import Mathlib.Logic.Equiv.Basic
import Mathlib.Order.Basic

/-! Binary heaps in an array, with a table that says where each element lies.
An element on its way to its place is pending at a hole: the array off the hole
and that element make up the heap, and each move of the hole keeps both the
contents and the table. Nothing here says when a program moves the hole. -/
namespace CuteNdk.Lib.BinaryHeap

variable {α κ ι : Type*}

def parent (i : Nat) : Nat := (i - 1) / 2

theorem parentLt {i : Nat} (off : 0 < i) : parent i < i := by unfold parent; omega

theorem childrenOf {i s : Nat} (off : 0 < i) (h : parent i = s) :
    i = s + s + 1 ∨ i = s + s + 1 + 1 := by unfold parent at h; omega

theorem parentOfChild {s : Nat} : parent (s + s + 1) = s ∧ parent (s + s + 1 + 1) = s := by
  unfold parent; omega

section Order
variable [Preorder κ] {key : α → κ} {n s : Nat} {a : Nat → α} {x : α}

def Ordered (key : α → κ) (n : Nat) (a : Nat → α) : Prop :=
  ∀ i, 0 < i → i < n → key (a (parent i)) ≤ key (a i)

theorem orderedRoot (h : Ordered key n a) {i : Nat} (inside : i < n) : key (a 0) ≤ key (a i) := by
  induction i using Nat.strongRecOn with
  | ind i ih =>
    rcases Nat.eq_zero_or_pos i with rfl | off
    · exact le_rfl
    · have up := parentLt off
      exact (ih (parent i) up (up.trans inside)).trans (h i off inside)

/- What stays in order while s is a hole: the pairs that do not touch it, and
its children with its parent. -/
structure Hole (key : α → κ) (n : Nat) (a : Nat → α) (s : Nat) : Prop where
  off : ∀ i, 0 < i → i < n → i ≠ s → parent i ≠ s → key (a (parent i)) ≤ key (a i)
  across : 0 < s → ∀ i, 0 < i → i < n → parent i = s → key (a (parent s)) ≤ key (a i)

/- The pending element may stay under the hole's parent, over its children. -/
def Above (key : α → κ) (a : Nat → α) (s : Nat) (x : α) : Prop :=
  0 < s → key (a (parent s)) ≤ key x
def Below (key : α → κ) (n : Nat) (a : Nat → α) (s : Nat) (x : α) : Prop :=
  ∀ i, 0 < i → i < n → parent i = s → key x ≤ key (a i)

theorem holeOfOrdered (h : Ordered key n a) (s : Nat) : Hole key n a s := by
  refine ⟨fun i off inside _ _ => h i off inside,fun sOff i off inside child => ?_⟩
  have inner : s < n := by have := parentLt off; omega
  have up := h i off inside
  rw [child] at up
  exact (h s sOff inner).trans up

theorem holeShrink {m : Nat} (h : Hole key n a s) (short : m ≤ n) : Hole key m a s :=
  ⟨fun i off inside => h.off i off (inside.trans_le short),
    fun sOff i off inside => h.across sOff i off (inside.trans_le short)⟩

theorem holeCongr {b : Nat → α} (h : Hole key n a s) (same : ∀ i, i < n → i ≠ s → b i = a i)
    (inside : s < n) : Hole key n b s := by
  refine ⟨fun i off below other outer => ?_,fun sOff i off below child => ?_⟩
  · rw [same i below other,same (parent i) ((parentLt off).trans below) outer]
    exact h.off i off below other outer
  · have apart : i ≠ s := by have := parentLt off; omega
    have up := parentLt sOff
    rw [same i below apart,same (parent s) (up.trans inside) (Nat.ne_of_lt up)]
    exact h.across sOff i off below child

/- The key of the element in the hole is free to change. -/
theorem holeRekey {key' : α → κ} (h : Hole key n a s)
    (same : ∀ i, i < n → i ≠ s → key' (a i) = key (a i)) : Hole key' n a s := by
  refine ⟨fun i off below other outer => ?_,fun sOff i off below child => ?_⟩
  · rw [same i below other,same (parent i) ((parentLt off).trans below) outer]
    exact h.off i off below other outer
  · have apart : s < i := by have := parentLt off; omega
    have up := parentLt sOff
    rw [same i below (Nat.ne_of_gt apart),same (parent s) (up.trans (apart.trans below)) (Nat.ne_of_lt up)]
    exact h.across sOff i off below child

/- An element earlier than the hole's parent is earlier than what lies under it. -/
theorem belowOfEarlier (h : Hole key n a s) (off : 0 < s) (earlier : key x < key (a (parent s))) :
    Below key n a s x := fun i iOff inside child =>
  earlier.le.trans (h.across off i iOff inside child)

theorem orderedOfHole (h : Hole key n a s) (above : Above key a s x) (below : Below key n a s x) :
    Ordered key n (Function.update a s x) := by
  intro i off inside
  have up := parentLt off
  by_cases here : i = s
  · subst i
    rw [Function.update_self,Function.update_of_ne (Nat.ne_of_lt up)]
    exact above off
  · rw [Function.update_of_ne here]
    by_cases child : parent i = s
    · rw [child,Function.update_self]
      exact below i off inside child
    · rw [Function.update_of_ne child]
      exact h.off i off inside here child

/- The hole moves up: its parent's element comes down into it. -/
theorem holeUp (h : Hole key n a s) (off : 0 < s) (inside : s < n) :
    Hole key n (Function.update a s (a (parent s))) (parent s) := by
  have up := parentLt off
  constructor
  · intro i iOff iIn other outer
    have here : i ≠ s := fun same => outer (same ▸ rfl)
    rw [Function.update_of_ne here]
    by_cases child : parent i = s
    · rw [child,Function.update_self]
      exact h.across off i iOff iIn child
    · rw [Function.update_of_ne child]
      exact h.off i iOff iIn here child
  · intro pOff i iOff iIn child
    have higher := parentLt pOff
    have least : key (a (parent (parent s))) ≤ key (a (parent s)) :=
      h.off (parent s) pOff (up.trans inside) (Nat.ne_of_lt up) (by omega)
    rw [Function.update_of_ne (show parent (parent s) ≠ s by omega)]
    by_cases here : i = s
    · subst i
      rw [Function.update_self]
      exact least
    · rw [Function.update_of_ne here]
      have beside := h.off i iOff iIn here (by omega)
      rw [child] at beside
      exact least.trans beside

theorem belowUp (h : Hole key n a s) (later : key x < key (a (parent s))) (off : 0 < s) :
    Below key n (Function.update a s (a (parent s))) (parent s) x := by
  intro i iOff iIn child
  by_cases here : i = s
  · subst i
    rw [Function.update_self]
    exact later.le
  · rw [Function.update_of_ne here]
    have up := parentLt off
    have beside := h.off i iOff iIn here (by omega)
    rw [child] at beside
    exact later.le.trans beside

/- The hole moves down: the earlier child c comes up into it. -/
theorem holeDown (h : Hole key n a s) {c : Nat} (off : 0 < c) (inside : c < n)
    (child : parent c = s)
    (least : ∀ i, 0 < i → i < n → parent i = s → key (a c) ≤ key (a i)) :
    Hole key n (Function.update a s (a c)) c := by
  have down : s < c := by have := parentLt off; omega
  constructor
  · intro i iOff iIn other outer
    have up := parentLt iOff
    by_cases here : i = s
    · subst i
      rw [Function.update_self,Function.update_of_ne (Nat.ne_of_lt up)]
      exact h.across iOff c off inside child
    · rw [Function.update_of_ne here]
      by_cases under : parent i = s
      · rw [under,Function.update_self]
        exact least i iOff iIn under
      · rw [Function.update_of_ne under]
        exact h.off i iOff iIn here under
  · intro _ i iOff iIn under
    have up := parentLt iOff
    rw [child,Function.update_self,Function.update_of_ne (show i ≠ s by omega)]
    have pair := h.off i iOff iIn (by omega) (by omega)
    rw [under] at pair
    exact pair

theorem aboveDown {c : Nat} (child : parent c = s) (later : key (a c) < key x) :
    Above key (Function.update a s (a c)) c x := by
  intro _
  rw [child,Function.update_self]
  exact later.le

end Order

/- The contents of an array, and a table that places each of them. -/
section Table
variable {id : α → ι} {n s t : Nat} {l : List α} {a : Nat → α} {x : α}
variable {place : ι → Int}

def contents (n : Nat) (a : Nat → α) : List α := (List.range n).map a

theorem memContents {z : α} : z ∈ contents n a ↔ ∃ i < n, a i = z := by
  simp [contents]

theorem contentsCongr {b : Nat → α} (same : ∀ i < n, b i = a i) : contents n b = contents n a :=
  List.map_congr_left fun i hi => same i (List.mem_range.mp hi)

theorem contentsSucc : contents (n + 1) a = contents n a ++ [a n] := by
  simp [contents,List.range_succ]

theorem contentsPush : contents (n + 1) (Function.update a n x) = contents n a ++ [x] := by
  rw [contentsSucc,Function.update_self]
  congr 1
  exact contentsCongr fun i hi => Function.update_of_ne (Nat.ne_of_lt hi) _ _

theorem swapRange (hs : s < n) (ht : t < n) :
    ((List.range n).map (Equiv.swap s t)).Perm (List.range n) := by
  have fresh : ((List.range n).map (Equiv.swap s t)).Nodup :=
    List.nodup_range.map (Equiv.swap s t).injective
  refine (List.perm_ext_iff_of_nodup fresh List.nodup_range).mpr fun i => ?_
  rw [List.mem_map,List.mem_range]
  constructor
  · rintro ⟨j,hj,rfl⟩
    rw [List.mem_range] at hj
    rw [Equiv.swap_apply_def]
    split <;> [exact ht; split <;> assumption]
  · intro hi
    refine ⟨Equiv.swap s t i,?_,Equiv.swap_apply_self s t i⟩
    rw [List.mem_range,Equiv.swap_apply_def]
    split <;> [exact ht; split <;> assumption]

/- Moving the hole from s to t swaps the two in what the array would hold. -/
theorem contentsMove (hs : s < n) (ht : t < n) (apart : t ≠ s) :
    (contents n (Function.update (Function.update a s (a t)) t x)).Perm
      (contents n (Function.update a s x)) := by
  have swapped : Function.update (Function.update a s (a t)) t x
      = Function.update a s x ∘ Equiv.swap s t := by
    funext i
    by_cases atT : i = t
    · subst i; simp
    · by_cases atS : i = s
      · subst i; simp [atT,apart]
      · simp [atT,atS,Equiv.swap_apply_of_ne_of_ne]
  rw [swapped]
  unfold contents
  rw [← List.map_map]
  exact (swapRange hs ht).map _

/- Every element of the array is where the table says. -/
structure Indexed (id : α → ι) (n : Nat) (l : List α) (a : Nat → α) (place : ι → Int) : Prop where
  holds : (contents n a).Perm l
  distinct : (l.map id).Nodup
  placed : ∀ i < n, place (id (a i)) = i

/- As Indexed, but the element x is on its way to the hole s. -/
structure Pending (id : α → ι) (n : Nat) (l : List α) (a : Nat → α) (place : ι → Int)
    (s : Nat) (x : α) : Prop where
  inside : s < n
  holds : (contents n (Function.update a s x)).Perm l
  distinct : (l.map id).Nodup
  placed : ∀ i < n, i ≠ s → place (id (a i)) = i

theorem idsApart (holds : (contents n a).Perm l) (distinct : (l.map id).Nodup) {i j : Nat}
    (hi : i < n) (hj : j < n) (apart : i ≠ j) : id (a i) ≠ id (a j) := by
  have once : (((List.range n).map a).map id).Nodup := ((holds.map id).nodup_iff).mpr distinct
  rw [List.map_map] at once
  intro same
  exact apart (List.inj_on_of_nodup_map once (List.mem_range.mpr hi) (List.mem_range.mpr hj) same)

theorem pendingApart (h : Pending id n l a place s x) {i : Nat} (hi : i < n) (off : i ≠ s) :
    id (a i) ≠ id x := by
  have apart := idsApart h.holds h.distinct hi h.inside off
  rwa [Function.update_of_ne off,Function.update_self] at apart

theorem pendingMove [DecidableEq ι] (h : Pending id n l a place s x) (ht : t < n) (apart : t ≠ s) :
    Pending id n l (Function.update a s (a t)) (Function.update place (id (a t)) s) t x := by
  refine ⟨ht,(contentsMove h.inside ht apart).trans h.holds,h.distinct,fun i hi off => ?_⟩
  by_cases atS : i = s
  · subst i
    simp
  · have other := idsApart h.holds h.distinct hi ht off
    rw [Function.update_of_ne atS,Function.update_of_ne apart] at other
    rw [Function.update_of_ne atS,Function.update_of_ne other]
    exact h.placed i hi atS

theorem pendingSettle [DecidableEq ι] (h : Pending id n l a place s x) :
    Indexed id n l (Function.update a s x) (Function.update place (id x) s) := by
  refine ⟨h.holds,h.distinct,fun i hi => ?_⟩
  by_cases atS : i = s
  · subst i
    simp
  · rw [Function.update_of_ne atS,Function.update_of_ne (pendingApart h hi atS)]
    exact h.placed i hi atS

theorem pendingMem (h : Pending id n l a place s x) {i : Nat} (hi : i < n) (off : i ≠ s) :
    a i ∈ l := by
  have inside : a i ∈ contents n (Function.update a s x) :=
    memContents.mpr ⟨i,hi,Function.update_of_ne off x a⟩
  exact h.holds.subset inside

theorem pendingSelf (h : Pending id n l a place s x) : x ∈ l :=
  h.holds.subset (memContents.mpr ⟨s,h.inside,Function.update_self s x a⟩)

/- The table may say anything of what lies elsewhere. -/
theorem indexedRetable {place' : ι → Int} (h : Indexed id n l a place)
    (kept : ∀ i < n, place' (id (a i)) = place (id (a i))) : Indexed id n l a place' :=
  ⟨h.holds,h.distinct,fun i hi => (kept i hi).trans (h.placed i hi)⟩

theorem indexedMem (h : Indexed id n l a place) {i : Nat} (hi : i < n) : a i ∈ l :=
  h.holds.subset (memContents.mpr ⟨i,hi,rfl⟩)

theorem indexedSlot (h : Indexed id n l a place) {z : α} (mem : z ∈ l) :
    ∃ i < n, a i = z ∧ place (id z) = i := by
  obtain ⟨i,hi,rfl⟩ := memContents.mp (h.holds.symm.subset mem)
  exact ⟨i,hi,rfl,h.placed i hi⟩

/- An element at its slot is as good as on its way there. -/
theorem pendingOfIndexed (h : Indexed id n l a place) (inside : s < n) :
    Pending id n l a place s (a s) := by
  refine ⟨inside,?_,h.distinct,fun i hi _ => h.placed i hi⟩
  rw [Function.update_eq_self]
  exact h.holds

theorem indexedLength (h : Indexed id n l a place) : l.length = n := by
  rw [← h.holds.length_eq]
  simp [contents]

/- A new element waits at the first slot the array does not use. -/
theorem pendingPush (h : Indexed id n l a place) (new : id x ∉ l.map id) :
    Pending id (n + 1) (l ++ [x]) a place n x := by
  refine ⟨Nat.lt_succ_self n,?_,?_,fun i hi off => h.placed i (by omega)⟩
  · rw [contentsPush]
    exact h.holds.append_right _
  · rw [List.map_append,List.nodup_append]
    refine ⟨h.distinct,by simp,?_⟩
    intro b hb c hc same
    rw [List.map_singleton,List.mem_singleton] at hc
    subst hc
    exact new (same ▸ hb)

theorem contentsPop (holds : (contents (n + 1) a).Perm l) (hs : s < n) [DecidableEq α] :
    (contents n (Function.update a s (a n))).Perm (l.erase (a s)) := by
  have whole : (contents (n + 1) a).Perm (a s :: contents n (Function.update a s (a n))) := by
    have back := contentsMove (x := a s) (Nat.lt_succ_of_lt hs) (Nat.lt_succ_self n)
      (Nat.ne_of_gt hs) (a := a)
    rw [Function.update_eq_self,contentsPush] at back
    exact back.symm.trans List.perm_append_comm
  exact (List.perm_cons_erase (holds.subset (memContents.mpr ⟨s,by omega,rfl⟩))).symm.trans
    (holds.symm.trans whole) |>.cons_inv.symm

theorem contentsDropLast (holds : (contents (n + 1) a).Perm l) [DecidableEq α] :
    (contents n a).Perm (l.erase (a n)) := by
  have whole := holds
  rw [contentsSucc] at whole
  have front := (List.perm_append_comm.trans whole : (a n :: contents n a).Perm l)
  exact (List.perm_cons_erase (front.subset List.mem_cons_self)).symm.trans front.symm
    |>.cons_inv.symm

/- The last element waits at the slot of the one taken out. -/
theorem pendingPop (h : Indexed id (n + 1) l a place) (hs : s < n) [DecidableEq α] :
    Pending id n (l.erase (a s)) a place s (a n) :=
  ⟨hs,contentsPop h.holds hs,h.distinct.sublist (List.erase_sublist.map id),fun i hi _ => h.placed i (by omega)⟩

theorem indexedDropLast (h : Indexed id (n + 1) l a place) [DecidableEq α] :
    Indexed id n (l.erase (a n)) a place :=
  ⟨contentsDropLast h.holds,h.distinct.sublist (List.erase_sublist.map id),fun i hi => h.placed i (by omega)⟩

end Table

end CuteNdk.Lib.BinaryHeap
