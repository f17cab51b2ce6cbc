import CuteNdk.SelectReactor
import CuteNdk.EpollDispatch
import Mathlib.Data.List.Nodup
import Mathlib.Data.List.Count
import Mathlib.Data.List.Perm.Subperm
import Mathlib.Tactic.Common

/-! The nodes of the select reactor: each is in one of the lists or free at any time, a
list has a handle once at most, and only handles that are bound. The three lists are
seen as lists of handles first, and the operations as what they make of those. -/
namespace CuteNdk.Select
open Reactor (Handle EventHandler Mask HandleOpt HandlerRepository Action setBits clrBits setMaskFind
  unbindFind bindFind flagFind)
open Lib (Seg segNull segUpdate segUnlink relink relinkOff segNodup Always alwaysInvariant alwaysMono)

def allNodes (lists : Which → List Ptr) (free : List Ptr) : List Ptr :=
  lists .rd ++ (lists .wr ++ (lists .ex ++ free))

structure Chained (r : SelectReactor) (lists : Which → List Ptr) (free : List Ptr) : Prop where
  list : ∀ w, Seg r.next (r.list w) (lists w) none
  freed : Seg r.next r.freeNode free none
  all : (allNodes lists free).Perm (List.range r.nodes)

/- The handles in each list, in order. -/
def Holds (r : SelectReactor) (held : Which → List Handle) : Prop :=
  ∃ lists free, Chained r lists free ∧ ∀ w, (lists w).map r.handle = held w

section Nodes
variable {r : SelectReactor} {lists : Which → List Ptr} {free : List Ptr} {w w' : Which} {p : Ptr}

theorem countAll (lists : Which → List Ptr) (free : List Ptr) (p : Ptr) :
    (allNodes lists free).count p =
      (lists .rd).count p + ((lists .wr).count p + ((lists .ex).count p + free.count p)) := by
  simp only [allNodes,List.count_append]

theorem countOnce (c : Chained r lists free) (p : Ptr) : (allNodes lists free).count p ≤ 1 :=
  List.nodup_iff_count_le_one.1 (c.all.nodup_iff.2 List.nodup_range) p

/- A free node is in no list, and a node of one list in no other. -/
theorem freeOff (c : Chained r lists free) (mem : p ∈ free) (w : Which) : p ∉ lists w := by
  have once := countOnce c p
  have here := List.count_pos_iff.2 mem
  rw [countAll] at once
  intro there
  have there := List.count_pos_iff.2 there
  cases w <;> omega

theorem listOff (c : Chained r lists free) (other : w' ≠ w) (mem : p ∈ lists w) : p ∉ lists w' := by
  have once := countOnce c p
  have here := List.count_pos_iff.2 mem
  rw [countAll] at once
  intro there
  have there := List.count_pos_iff.2 there
  cases w <;> cases w' <;> first | omega | exact absurd rfl other

theorem listFree (c : Chained r lists free) (mem : p ∈ lists w) : p ∉ free := fun there => freeOff c there w mem

/- Giving the node p of a list back to the free ones. -/
theorem allMove {l : List Ptr} (perm : (lists w).Perm (p :: l)) :
    (allNodes (Function.update lists w l) (p :: free)).Perm (allNodes lists free) := by
  refine List.perm_iff_count.2 fun a => ?_
  have same := perm.count_eq a
  simp only [countAll,List.count_cons] at same ⊢
  cases w <;> simp only [Function.update_apply,reduceCtorEq,if_true,if_false] <;> omega

/- Taking the free node p for a list. -/
theorem allTake : (allNodes (Function.update lists w (p :: lists w)) free).Perm (allNodes lists (p :: free)) := by
  have here : (Function.update lists w (p :: lists w) w).Perm (p :: lists w) := by rw [Function.update_self]
  have moved : (allNodes (Function.update (Function.update lists w (p :: lists w)) w (lists w)) (p :: free)).Perm
      (allNodes (Function.update lists w (p :: lists w)) free) := allMove here
  rw [Function.update_idem,Function.update_eq_self] at moved
  exact moved.symm

/- The node a is taken out of its list, behind l₁, and is free. -/
def unlinked (r : SelectReactor) (w : Which) (l₁ : List Ptr) (a : Ptr) : SelectReactor :=
  SelectReactor.releaseHandle { r with
    next := relink r.next l₁.getLast? (r.next a)
    list := Function.update r.list w (if l₁ = [] then r.next a else r.list w) } a

theorem unlinkedHolds {l₁ l₂ : List Ptr} (c : Chained r lists free) (split : lists w = l₁ ++ p :: l₂) :
    Chained (unlinked r w l₁ p) (Function.update lists w (l₁ ++ l₂)) (p :: free) ∧
      ∀ w', (Function.update lists w (l₁ ++ l₂) w').map (unlinked r w l₁ p).handle =
        if w' = w then (l₁ ++ l₂).map r.handle else (lists w').map r.handle := by
  have mem : p ∈ lists w := by
    rw [split]
    exact List.mem_append_right l₁ List.mem_cons_self
  have perm : (lists w).Perm (p :: (l₁ ++ l₂)) := by
    rw [split]
    exact List.perm_middle
  have offHere : p ∉ l₁ ++ l₂ := (List.nodup_cons.1 (perm.nodup_iff.1 (segNodup (c.list w)))).1
  have lastHere : ∀ a ∈ l₁.getLast?, a ∈ lists w := fun a last => by
    rw [split]
    exact List.mem_append_left _ (List.mem_of_getLast? last)
  have same {l : List Ptr} (off : p ∉ l) : l.map (unlinked r w l₁ p).handle = l.map r.handle := by
    refine List.map_congr_left fun a there => ?_
    have other : a ≠ p := fun eq => off (eq ▸ there)
    exact Function.update_of_ne other _ _
  refine ⟨{ list := fun w' => ?_, freed := ⟨rfl,?_⟩, all := (allMove perm).trans c.all },fun w' => ?_⟩
  · by_cases here : w' = w
    · subst here
      have walk := segUnlink (split ▸ c.list w')
      rw [Function.update_self]
      show Seg (Function.update _ p _) (Function.update r.list w' _ w') _ none
      rw [Function.update_self]
      exact (segUpdate offHere).2 walk
    · rw [Function.update_of_ne here]
      show Seg (Function.update _ p _) (Function.update r.list w _ w') _ none
      rw [Function.update_of_ne here]
      refine (segUpdate (listOff c here mem)).2 ((relinkOff fun a last => ?_).2 (c.list w'))
      exact listOff c here (lastHere a last)
  · show Seg (Function.update _ p _) (Function.update (relink r.next _ _) p r.freeNode p) free none
    rw [Function.update_self]
    exact (segUpdate (listFree c mem)).2 ((relinkOff fun a last => listFree c (lastHere a last)).2 c.freed)
  · by_cases here : w' = w
    · subst here
      rw [Function.update_self,if_pos rfl]
      exact same offHere
    · rw [Function.update_of_ne here,if_neg here]
      exact same (listOff c here mem)

end Nodes

section Walks
variable {r : SelectReactor} {h : Handle}

theorem findFromSeg {p : Option Ptr} {l : List Ptr} (seg : Seg r.next p l none) {n : Nat} (enough : l.length < n) :
    r.findFrom h n p = some (decide (h ∈ l.map r.handle)) := by
  induction l generalizing p n with
  | nil =>
    cases seg
    obtain ⟨n,rfl⟩ := Nat.exists_eq_succ_of_ne_zero (Nat.ne_of_gt enough)
    rfl
  | cons a l ih =>
    obtain ⟨n,rfl⟩ := Nat.exists_eq_succ_of_ne_zero (Nat.ne_of_gt (Nat.zero_lt_of_lt enough))
    rw [seg.1]
    simp only [SelectReactor.findFrom,List.map_cons,List.mem_cons]
    by_cases here : r.handle a = h
    · simp only [here,if_true,true_or,decide_true]
    · have other : h ≠ r.handle a := fun eq => here eq.symm
      simp only [here,if_false,other,false_or]
      exact ih seg.2 (Nat.lt_of_succ_lt_succ enough)

/- The loop of remove_handle finds the first node with the handle and takes it out. -/
theorem unlinkFromSplit {l₁ l₂ : List Ptr} {prev a : Ptr} (seg : Seg r.next (r.next prev) (l₁ ++ a :: l₂) none)
    (skip : h ∉ l₁.map r.handle) (at_ : r.handle a = h) {n : Nat} (enough : (l₁ ++ a :: l₂).length < n) :
    r.unlinkFrom h n prev (r.next prev) = some (SelectReactor.releaseHandle
      { r with next := relink r.next (prev :: l₁).getLast? (r.next a) } a) := by
  induction l₁ generalizing prev n with
  | nil =>
    obtain ⟨n,rfl⟩ := Nat.exists_eq_succ_of_ne_zero (Nat.ne_of_gt (Nat.zero_lt_of_lt enough))
    rw [seg.1]
    simp only [SelectReactor.unlinkFrom,at_,if_true,List.getLast?_singleton]
    rfl
  | cons b l₁ ih =>
    obtain ⟨n,rfl⟩ := Nat.exists_eq_succ_of_ne_zero (Nat.ne_of_gt (Nat.zero_lt_of_lt enough))
    obtain ⟨first,rest⟩ := seg
    have other : r.handle b ≠ h := fun eq => skip (eq ▸ List.mem_cons_self)
    rw [first]
    simp only [SelectReactor.unlinkFrom,other,if_false,List.getLast?_cons_cons]
    exact ih rest (fun mem => skip (List.mem_cons_of_mem _ mem)) (Nat.lt_of_succ_lt_succ enough)

theorem unlinkFromNone {l : List Ptr} {prev : Ptr} (seg : Seg r.next (r.next prev) l none)
    (skip : h ∉ l.map r.handle) {n : Nat} (enough : l.length < n) :
    r.unlinkFrom h n prev (r.next prev) = some r := by
  induction l generalizing prev n with
  | nil =>
    obtain ⟨n,rfl⟩ := Nat.exists_eq_succ_of_ne_zero (Nat.ne_of_gt enough)
    rw [show r.next prev = none from seg]
    rfl
  | cons b l ih =>
    obtain ⟨n,rfl⟩ := Nat.exists_eq_succ_of_ne_zero (Nat.ne_of_gt (Nat.zero_lt_of_lt enough))
    obtain ⟨first,rest⟩ := seg
    have other : r.handle b ≠ h := fun eq => skip (eq ▸ List.mem_cons_self)
    rw [first]
    simp only [SelectReactor.unlinkFrom,other,if_false]
    exact ih rest (fun mem => skip (List.mem_cons_of_mem _ mem)) (Nat.lt_of_succ_lt_succ enough)

end Walks

section Lists
variable {r : SelectReactor} {held : Which → List Handle} {h : Handle} {w : Which}

/- Only the links differ: the table and the number of nodes are those of r. -/
def Beside (r r' : SelectReactor) : Prop := r'.rep = r.rep ∧ r'.nodes = r.nodes

theorem besideTrans {r₁ r₂ r₃ : SelectReactor} (a : Beside r₁ r₂) (b : Beside r₂ r₃) : Beside r₁ r₃ :=
  ⟨b.1.trans a.1,b.2.trans a.2⟩

theorem listShort {lists : Which → List Ptr} {free : List Ptr} (c : Chained r lists free) (w : Which) :
    (lists w).length ≤ r.nodes := by
  have length := c.all.length_eq
  simp only [allNodes,List.length_append,List.length_range] at length
  cases w <;> omega

theorem emptyHeld (holds : Holds r held) (none_ : r.list w = none) : held w = [] := by
  obtain ⟨lists,free,c,same⟩ := holds
  have seg := c.list w
  rw [none_] at seg
  rw [← same w,segNull seg]
  rfl

theorem updateSame (held : Which → List Handle) (w : Which) {l : List Handle} (same : l = held w) :
    Function.update held w l = held := by
  rw [same]
  exact Function.update_eq_self w held

/- remove_handle of a list that is not empty takes out the first node with the handle, if
there is one. -/
theorem removeUnlinks {lists : Which → List Ptr} {free : List Ptr} (c : Chained r lists free) (some_ : r.list w ≠ none)
    (h : Handle) :
    h ∉ (lists w).map r.handle ∧ r.removeHandle h w = some r ∨
    ∃ l₁ a l₂, lists w = l₁ ++ a :: l₂ ∧ r.handle a = h ∧ h ∉ l₁.map r.handle ∧
      r.removeHandle h w = some (unlinked r w l₁ a) := by
  have seg := c.list w
  have short := listShort c w
  by_cases there : h ∈ (lists w).map r.handle
  · obtain ⟨hs₁,hs₂,split,skip⟩ := List.eq_append_cons_of_mem there
    obtain ⟨l₁,rest,nodes,front,back⟩ := List.map_eq_append_iff.1 split
    obtain ⟨a,l₂,rfl,at_,back⟩ := List.map_eq_cons_iff.1 back
    have skip' : h ∉ l₁.map r.handle := front ▸ skip
    refine .inr ⟨l₁,a,l₂,nodes,at_,skip',?_⟩
    rw [nodes] at seg short
    unfold SelectReactor.removeHandle
    cases l₁ with
    | nil =>
      rw [seg.1]
      exact if_pos at_
    | cons b l₁ =>
      have other : r.handle b ≠ h := fun eq => skip' (eq ▸ List.mem_cons_self)
      have skip'' : h ∉ l₁.map r.handle := fun mem => skip' (List.mem_cons_of_mem _ mem)
      have enough : (l₁ ++ a :: l₂).length < r.nodes + 1 := Nat.lt_succ_of_lt short
      have found := unlinkFromSplit seg.2 skip'' at_ enough
      have stays : Function.update r.list w (if b :: l₁ = [] then r.next a else r.list w) = r.list := by
        rw [if_neg (List.cons_ne_nil b l₁)]
        exact Function.update_eq_self w r.list
      unfold unlinked
      rw [stays,seg.1]
      exact (if_neg other).trans found
  · refine .inl ⟨there,?_⟩
    unfold SelectReactor.removeHandle
    cases nodes : lists w with
    | nil =>
      rw [nodes] at seg
      exact absurd seg some_
    | cons b l =>
      rw [nodes] at seg there short
      have other : r.handle b ≠ h := fun eq => there (eq ▸ List.mem_cons_self)
      rw [seg.1]
      exact (if_neg other).trans
        (unlinkFromNone seg.2 (fun mem => there (List.mem_cons_of_mem _ mem)) (Nat.lt_succ_of_lt short))

theorem removeHolds (holds : Holds r held) (some_ : r.list w ≠ none) :
    ∃ r', r.removeHandle h w = some r' ∧ Holds r' (Function.update held w ((held w).erase h)) ∧ Beside r r' := by
  obtain ⟨lists,free,c,same⟩ := holds
  rcases removeUnlinks c some_ h with ⟨absent,did⟩ | ⟨l₁,a,l₂,nodes,at_,skip,did⟩
  · refine ⟨r,did,⟨lists,free,c,?_⟩,rfl,rfl⟩
    rw [same w] at absent
    rw [updateSame held w (List.erase_of_not_mem absent)]
    exact same
  · obtain ⟨c',same'⟩ := unlinkedHolds c nodes
    refine ⟨unlinked r w l₁ a,did,⟨_,_,c',fun w' => (same' w').trans ?_⟩,rfl,rfl⟩
    by_cases here : w' = w
    · subst here
      have split : held w' = l₁.map r.handle ++ h :: l₂.map r.handle := by
        rw [← same w',nodes,List.map_append,List.map_cons,at_]
      rw [if_pos rfl,Function.update_self,split,List.erase_append_right _ skip,List.erase_cons_head,List.map_append]
    · rw [if_neg here,Function.update_of_ne here]
      exact same w'

/- The free node p is taken for h, in front of its list. -/
def taken (r : SelectReactor) (w : Which) (p : Ptr) (h : Handle) : SelectReactor :=
  { r with
    freeNode := r.next p
    handle := Function.update (Function.update r.handle p invalidHandle) p h
    next := Function.update (Function.update r.next p none) p (r.list w)
    list := Function.update r.list w (some p) }

theorem takenHolds {lists : Which → List Ptr} {free : List Ptr} {p : Ptr} (c : Chained r lists (p :: free)) :
    Chained (taken r w p h) (Function.update lists w (p :: lists w)) free ∧
      ∀ w', (Function.update lists w (p :: lists w) w').map (taken r w p h).handle =
        if w' = w then h :: (lists w).map r.handle else (lists w').map r.handle := by
  have off (w : Which) : p ∉ lists w := freeOff c List.mem_cons_self w
  have offFree : p ∉ free := (List.nodup_cons.1 (segNodup c.freed)).1
  have kept {l : List Ptr} (off : p ∉ l) : l.map (taken r w p h).handle = l.map r.handle := by
    refine List.map_congr_left fun a mem => ?_
    have other : a ≠ p := fun eq => off (eq ▸ mem)
    exact (Function.update_of_ne other _ _).trans (Function.update_of_ne other _ _)
  refine ⟨{ list := fun w' => ?_, freed := ?_, all := allTake.trans c.all },fun w' => ?_⟩
  · dsimp only [taken]
    by_cases here : w' = w
    · subst here
      rw [Function.update_self,Function.update_self]
      refine ⟨rfl,?_⟩
      rw [Function.update_self]
      exact (segUpdate (off w')).2 ((segUpdate (off w')).2 (c.list w'))
    · rw [Function.update_of_ne here,Function.update_of_ne here]
      exact (segUpdate (off w')).2 ((segUpdate (off w')).2 (c.list w'))
  · exact (segUpdate offFree).2 ((segUpdate offFree).2 c.freed.2)
  · by_cases here : w' = w
    · subst here
      have at_ : (taken r w' p h).handle p = h := Function.update_self _ _ _
      rw [Function.update_self,List.map_cons,kept (off w'),at_,if_pos rfl]
    · rw [Function.update_of_ne here,if_neg here]
      exact kept (off w')

/- append_handle takes the first free node, unless the list has the handle. -/
theorem appendTakes {lists : Which → List Ptr} {free : List Ptr} (c : Chained r lists free) (w : Which) (h : Handle) :
    h ∈ (lists w).map r.handle ∧ r.appendHandle h w = some (r,0) ∨
    h ∉ (lists w).map r.handle ∧ r.appendHandle h w = free.head?.map fun p => (taken r w p h,0) := by
  have found : r.findHandle h w = some (decide (h ∈ (lists w).map r.handle)) :=
    findFromSeg (c.list w) (Nat.lt_succ_of_le (listShort c w))
  by_cases there : h ∈ (lists w).map r.handle
  · exact .inl ⟨there,Option.bind_eq_some_iff.2 ⟨true,found.trans (congrArg some (decide_eq_true there)),rfl⟩⟩
  · refine .inr ⟨there,?_⟩
    have first := Lib.segHead c.freed
    unfold SelectReactor.appendHandle SelectReactor.allocHandle
    rw [found,first]
    cases free with
    | nil => simp [there]
    | cons p free => simp [there,taken]

/- Room is left for one more node in the list. -/
theorem appendHolds (holds : Holds r held)
    (room : h ∉ held w → (held .rd).length + (held .wr).length + (held .ex).length < r.nodes) :
    ∃ r', r.appendHandle h w = some (r',0) ∧ Holds r' (Function.update held w ((held w).insert h)) ∧ Beside r r' := by
  obtain ⟨lists,free,c,same⟩ := holds
  rcases appendTakes c w h with ⟨there,did⟩ | ⟨absent,did⟩
  · rw [same w] at there
    refine ⟨r,did,⟨lists,free,c,?_⟩,rfl,rfl⟩
    rw [updateSame held w (List.insert_of_mem there)]
    exact same
  · -- all the nodes are in the lists or free, and the lists do not take all of them
    rw [same w] at absent
    have length := c.all.length_eq
    simp only [allNodes,List.length_append,List.length_range] at length
    have lengths (w : Which) : (lists w).length = (held w).length := by
      rw [← same w,List.length_map]
    have room := room absent
    rw [← lengths,← lengths,← lengths] at room
    cases free with
    | nil =>
      simp only [List.length_nil] at length
      omega
    | cons p free =>
      obtain ⟨c',same'⟩ := takenHolds (w := w) (h := h) c
      refine ⟨taken r w p h,did,⟨_,_,c',fun w' => (same' w').trans ?_⟩,rfl,rfl⟩
      by_cases here : w' = w
      · subst here
        rw [if_pos rfl,Function.update_self,same w',List.insert_of_not_mem absent]
      · rw [if_neg here,Function.update_of_ne here]
        exact same w'

theorem removeIfHolds (holds : Holds r held) (go : Bool) (h : Handle) (w : Which) :
    ∃ r', r.removeIf go h w = some r' ∧
      Holds r' (Function.update held w (if go then (held w).erase h else held w)) ∧ Beside r r' := by
  unfold SelectReactor.removeIf
  cases go with
  | false =>
    refine ⟨r,if_neg fun both => Bool.false_ne_true both.2,?_,rfl,rfl⟩
    rw [if_neg Bool.false_ne_true,Function.update_eq_self]
    exact holds
  | true =>
    by_cases none_ : r.list w = none
    · refine ⟨r,if_neg fun both => both.1 none_,?_,rfl,rfl⟩
      rw [if_pos rfl,updateSame held w (by rw [emptyHeld holds none_]; rfl)]
      exact holds
    · rw [if_pos ⟨none_,rfl⟩,if_pos rfl]
      exact removeHolds holds none_

theorem appendIfHolds (holds : Holds r held) (go : Bool) (h : Handle) (w : Which)
    (room : h ∉ held w → (held .rd).length + (held .wr).length + (held .ex).length < r.nodes) :
    ∃ r', r.appendIf go h w = some (r',0) ∧
      Holds r' (Function.update held w (if go then (held w).insert h else held w)) ∧ Beside r r' := by
  unfold SelectReactor.appendIf
  cases go with
  | false =>
    refine ⟨r,if_neg Bool.false_ne_true,?_,rfl,rfl⟩
    rw [if_neg Bool.false_ne_true,Function.update_eq_self]
    exact holds
  | true =>
    rw [if_pos rfl,if_pos rfl]
    exact appendHolds holds room

/- What is done at each of the lists in turn is done at all of them. -/
theorem updateEach (held : Which → List Handle) (f : Which → List Handle → List Handle) :
    Function.update (Function.update (Function.update held .rd (f .rd (held .rd))) .wr (f .wr (held .wr))) .ex
      (f .ex (held .ex)) = fun w => f w (held w) := by
  funext w
  cases w <;> simp

theorem removeEach (holds : Holds r held) (go : Which → Bool) (h : Handle) : ∃ r₁ r₂ r₃,
    r.removeIf (go .rd) h .rd = some r₁ ∧ r₁.removeIf (go .wr) h .wr = some r₂ ∧
    r₂.removeIf (go .ex) h .ex = some r₃ ∧
    Holds r₃ (fun w => if go w then (held w).erase h else held w) ∧ Beside r r₃ := by
  obtain ⟨r₁,did₁,holds₁,beside₁⟩ := removeIfHolds holds (go .rd) h .rd
  obtain ⟨r₂,did₂,holds₂,beside₂⟩ := removeIfHolds holds₁ (go .wr) h .wr
  obtain ⟨r₃,did₃,holds₃,beside₃⟩ := removeIfHolds holds₂ (go .ex) h .ex
  refine ⟨r₁,r₂,r₃,did₁,did₂,did₃,?_,besideTrans (besideTrans beside₁ beside₂) beside₃⟩
  rw [← updateEach held fun w l => if go w then l.erase h else l]
  exact holds₃

/- The handles are below n, so a list has at most n of them. -/
structure Fits (n : Nat) (held : Which → List Handle) : Prop where
  once : ∀ w, (held w).Nodup
  inside : ∀ w, ∀ k ∈ held w, 0 ≤ k ∧ k < n

theorem handlesFew {n : Nat} {l : List Handle} (once : l.Nodup) (inside : ∀ k ∈ l, 0 ≤ k ∧ k < n) : l.length ≤ n := by
  have among : l ⊆ (List.range n).map Int.ofNat := fun k mem => by
    obtain ⟨low,high⟩ := inside k mem
    exact List.mem_map.2 ⟨k.toNat,List.mem_range.2 ((Int.toNat_lt low).2 high),Int.toNat_of_nonneg low⟩
  have few := (once.subperm among).length_le
  rwa [List.length_map,List.length_range] at few

theorem fitsRoom {n : Nat} (fits : Fits n held) (range : 0 ≤ h ∧ h < n) (off : h ∉ held w) :
    (held .rd).length + (held .wr).length + (held .ex).length < n * 3 := by
  have one : (h :: held w).length ≤ n := handlesFew (List.nodup_cons.2 ⟨off,fits.once w⟩) fun k mem => by
    rcases List.mem_cons.1 mem with rfl | mem
    · exact range
    · exact fits.inside w k mem
  have all (w : Which) := handlesFew (fits.once w) (fits.inside w)
  have rd := all .rd
  have wr := all .wr
  have ex := all .ex
  simp only [List.length_cons] at one
  cases w <;> omega

theorem insertFits {n : Nat} (fits : Fits n held) (range : 0 ≤ h ∧ h < n) (go : Bool) (w : Which) :
    Fits n (Function.update held w (if go then (held w).insert h else held w)) where
  once w' := by
    by_cases here : w' = w
    · subst here
      rw [Function.update_self]
      split
      · exact (fits.once w').insert
      · exact fits.once w'
    · rw [Function.update_of_ne here]
      exact fits.once w'
  inside w' k mem := by
    by_cases here : w' = w
    · subst here
      rw [Function.update_self] at mem
      split at mem
      · rcases List.mem_insert_iff.1 mem with rfl | mem
        · exact range
        · exact fits.inside w' k mem
      · exact fits.inside w' k mem
    · rw [Function.update_of_ne here] at mem
      exact fits.inside w' k mem

theorem appendEach {n : Nat} (holds : Holds r held) (fits : Fits n held) (size : r.nodes = n * 3)
    (range : 0 ≤ h ∧ h < n) (go : Which → Bool) : ∃ r₁ r₂ r₃,
    r.appendIf (go .rd) h .rd = some (r₁,0) ∧ r₁.appendIf (go .wr) h .wr = some (r₂,0) ∧
    r₂.appendIf (go .ex) h .ex = some (r₃,0) ∧
    Holds r₃ (fun w => if go w then (held w).insert h else held w) ∧ Beside r r₃ := by
  obtain ⟨r₁,did₁,holds₁,beside₁⟩ := appendIfHolds holds (go .rd) h .rd fun off => size ▸ fitsRoom fits range off
  have fits₁ := insertFits fits range (go .rd) .rd
  have size₁ := beside₁.2.trans size
  obtain ⟨r₂,did₂,holds₂,beside₂⟩ := appendIfHolds holds₁ (go .wr) h .wr fun off => size₁ ▸ fitsRoom fits₁ range off
  have fits₂ := insertFits fits₁ range (go .wr) .wr
  have size₂ := beside₂.2.trans size₁
  obtain ⟨r₃,did₃,holds₃,beside₃⟩ := appendIfHolds holds₂ (go .ex) h .ex fun off => size₂ ▸ fitsRoom fits₂ range off
  refine ⟨r₁,r₂,r₃,did₁,did₂,did₃,?_,besideTrans (besideTrans beside₁ beside₂) beside₃⟩
  rw [← updateEach held fun w l => if go w then l.insert h else l]
  exact holds₃

/- What handle_opt_i makes of the lists. -/
def opted (held : Which → List Handle) (h : Handle) (m : Mask) (opt : HandleOpt) (w : Which) : List Handle :=
  if m = Mask.null then (held w).erase h
  else if wants m w then (held w).insert h
  else if opt = .addMask then held w
  else (held w).erase h

theorem optHolds {n : Nat} (holds : Holds r held) (fits : Fits n held) (size : r.nodes = n * 3)
    (range : 0 ≤ h ∧ h < n) (m : Mask) (opt : HandleOpt) :
    ∃ r', r.handleOptI h m opt = some (r',0) ∧ Holds r' (opted held h m opt) ∧ Beside r r' := by
  by_cases null : m = Mask.null
  · obtain ⟨r₁,r₂,r₃,did₁,did₂,did₃,holds',beside⟩ := removeEach holds (fun _ => true) h
    refine ⟨r₃,?_,?_,beside⟩
    · simp only [SelectReactor.handleOptI,null,if_true]
      exact Option.bind_eq_some_iff.2 ⟨r₁,did₁,Option.bind_eq_some_iff.2 ⟨r₂,did₂,Option.bind_eq_some_iff.2 ⟨r₃,did₃,rfl⟩⟩⟩
    · rw [show opted held h m opt = fun w => if true then (held w).erase h else held w from
        funext fun w => if_pos null]
      exact holds'
  · have set : decide ((if opt = HandleOpt.clrMask then HandleOpt.setMask else opt) = .setMask) =
        decide (opt ≠ .addMask) := by
      cases opt <;> rfl
    have notClr : (if opt = HandleOpt.clrMask then HandleOpt.setMask else opt) ≠ .clrMask := by
      cases opt <;> decide
    obtain ⟨r₁,r₂,r₃,did₁,did₂,did₃,holds',beside⟩ :=
      removeEach holds (fun w => decide (opt ≠ .addMask) && !wants m w) h
    have fits' : Fits n fun w => if (decide (opt ≠ .addMask) && !wants m w) = true then (held w).erase h else held w := by
      refine ⟨fun w => ?_,fun w k mem => ?_⟩
      · split
        · exact (fits.once w).erase h
        · exact fits.once w
      · split at mem
        · exact fits.inside w k (List.mem_of_mem_erase mem)
        · exact fits.inside w k mem
    obtain ⟨r₄,r₅,r₆,did₄,did₅,did₆,holds'',beside'⟩ :=
      appendEach holds' fits' (beside.2.trans size) range (wants m)
    refine ⟨r₆,?_,?_,besideTrans beside beside'⟩
    · simp only [SelectReactor.handleOptI,null,if_false,notClr,set]
      refine Option.bind_eq_some_iff.2 ⟨r₁,did₁,Option.bind_eq_some_iff.2 ⟨r₂,did₂,Option.bind_eq_some_iff.2 ⟨r₃,did₃,?_⟩⟩⟩
      refine Option.bind_eq_some_iff.2 ⟨_,did₄,(if_neg (not_not.2 rfl)).trans ?_⟩
      refine Option.bind_eq_some_iff.2 ⟨_,did₅,(if_neg (not_not.2 rfl)).trans ?_⟩
      exact Option.bind_eq_some_iff.2 ⟨_,did₆,if_neg (not_not.2 rfl)⟩
    · have same : opted held h m opt = fun w => if wants m w = true then
          (if (decide (opt ≠ .addMask) && !wants m w) = true then (held w).erase h else held w).insert h
          else if (decide (opt ≠ .addMask) && !wants m w) = true then (held w).erase h else held w := by
        funext w
        unfold opted
        rw [if_neg null]
        by_cases wanted : wants m w = true
        · simp only [wanted,if_true,Bool.not_true,Bool.and_false,Bool.false_eq_true,if_false]
        · by_cases add : opt = .addMask
          · simp only [wanted,add,if_true,if_false,ne_eq,not_true_eq_false,decide_false,Bool.false_and,
              Bool.false_eq_true]
          · simp only [wanted,add,if_false,ne_eq,not_false_eq_true,decide_true,Bool.true_and,if_true,Bool.not_false,
              Bool.false_eq_true]
      rw [same]
      exact holds''

end Lists

/- Only bound handles are in the lists, each once at most in one. -/
structure Kept (n : Nat) (r : SelectReactor) (held : Which → List Handle) : Prop where
  holds : Holds r held
  once : ∀ w, (held w).Nodup
  bound : ∀ w, ∀ k ∈ held w, r.rep.find k ≠ none
  size : r.rep.maxSize = n
  nodes : r.nodes = n * 3

theorem zeroNotFailed : ¬ (0 : Int) = -1 := by decide

section Operations
variable {n : Nat} {r : SelectReactor} {held : Which → List Handle} {h : Handle}

theorem boundRange (kept : Kept n r held) {k : Handle} (bound : r.rep.find k ≠ none) : 0 ≤ k ∧ k < n :=
  kept.size ▸ HandlerRepository.findRange bound

/- The table may change where no handle of a list loses its handler. -/
theorem repKept (kept : Kept n r held) {rep : HandlerRepository} (size : rep.maxSize = r.rep.maxSize)
    (finds : ∀ w, ∀ k ∈ held w, rep.find k ≠ none) : Kept n { r with rep := rep } held where
  holds := by
    obtain ⟨lists,free,c,same⟩ := kept.holds
    exact ⟨lists,free,⟨c.list,c.freed,c.all⟩,same⟩
  once := kept.once
  bound := finds
  size := size.trans kept.size
  nodes := kept.nodes

theorem bindSize (rep : HandlerRepository) (h : Handle) (eh : Option EventHandler) (m : Mask) :
    (rep.bind h eh m).1.maxSize = rep.maxSize := by
  unfold HandlerRepository.bind
  cases eh with
  | none => rfl
  | some eh =>
    dsimp only
    split <;> rfl

theorem unbindSize (rep : HandlerRepository) (h : Handle) : (rep.unbind h).1.maxSize = rep.maxSize := by
  unfold HandlerRepository.unbind
  split <;> rfl

theorem setMaskSize (rep : HandlerRepository) (h : Handle) (m : Mask) : (rep.setMask h m).maxSize = rep.maxSize := by
  unfold HandlerRepository.setMask
  split <;> rfl

theorem flagSize (rep : HandlerRepository) (h : Handle) (suspended : Bool) :
    (if rep.handleInRange h then rep.put h { rep.handlers h with suspended := suspended } else rep).maxSize =
      rep.maxSize := by
  split <;> rfl

theorem optedMem {m : Mask} {opt : HandleOpt} {w : Which} {k : Handle} (mem : k ∈ opted held h m opt w) :
    k = h ∨ k ∈ held w := by
  unfold opted at mem
  split at mem
  · exact Or.inr (List.mem_of_mem_erase mem)
  · split at mem
    · exact List.mem_insert_iff.1 mem
    · split at mem
      · exact Or.inr mem
      · exact Or.inr (List.mem_of_mem_erase mem)

theorem optedOnce (once : ∀ w, (held w).Nodup) (m : Mask) (opt : HandleOpt) (w : Which) :
    (opted held h m opt w).Nodup := by
  unfold opted
  split
  · exact (once w).erase h
  · split
    · exact (once w).insert
    · split
      · exact once w
      · exact (once w).erase h

theorem optKept (kept : Kept n r held) (bound : r.rep.find h ≠ none) (m : Mask) (opt : HandleOpt) :
    ∃ r', r.handleOptI h m opt = some (r',0) ∧ Kept n r' (opted held h m opt) ∧ r'.rep = r.rep := by
  have fits : Fits n held := ⟨kept.once,fun w k mem => boundRange kept (kept.bound w k mem)⟩
  obtain ⟨r',did,holds,rep,nodes⟩ := optHolds kept.holds fits kept.nodes (boundRange kept bound) m opt
  refine ⟨r',did,{
    holds := holds
    once := optedOnce kept.once m opt
    bound := fun w k mem => ?_
    size := rep ▸ kept.size
    nodes := nodes.trans kept.nodes },rep⟩
  rw [rep]
  rcases optedMem mem with rfl | mem
  · exact bound
  · exact kept.bound w k mem

theorem registerKept (kept : Kept n r held) (h : Handle) (eh : Option EventHandler) (m : Mask) :
    ∃ r' result held', r.registerHandlerI h eh m = some (r',result) ∧ Kept n r' held' := by
  unfold SelectReactor.registerHandlerI
  by_cases unbound : r.rep.find h = none
  · rw [if_pos unbound]
    rcases bindFind r.rep h eh m with ⟨done,finds⟩ | ⟨failed,same⟩
    · have kept' : Kept n { r with rep := (r.rep.bind h eh m).1 } held := repKept kept (bindSize _ _ _ _) fun w k mem => by
        have other : k ≠ h := fun eq => kept.bound w k mem (eq ▸ unbound)
        rw [finds k,if_neg other]
        exact kept.bound w k mem
      have bound : (r.rep.bind h eh m).1.find h ≠ none := by
        rw [finds h,if_pos rfl]
        intro null
        subst null
        exact absurd (show (-1 : Int) = 0 from done) (by decide)
      obtain ⟨r',did,kept'',_⟩ := optKept kept' bound m .addMask
      refine ⟨r',0,_,?_,kept''⟩
      simp only [done,ne_eq,not_true_eq_false,if_false]
      exact Option.bind_eq_some_iff.2 ⟨_,did,if_neg (not_not.2 rfl)⟩
    · refine ⟨r,-1,held,?_,kept⟩
      simp only [failed,same]
      rfl
  · rw [if_neg unbound]
    have kept' := repKept kept (setMaskSize r.rep h (setBits (r.rep.mask h) m)) fun w k mem => by
      rw [setMaskFind]
      exact kept.bound w k mem
    have bound : (r.rep.setMask h (setBits (r.rep.mask h) m)).find h ≠ none := by
      rw [setMaskFind]
      exact unbound
    obtain ⟨r',did,kept'',_⟩ := optKept kept' bound (setBits (r.rep.mask h) m) .setMask
    exact ⟨r',0,_,did,kept''⟩

theorem removeKept (kept : Kept n r held) (h : Handle) (m : Mask) :
    ∃ r' result held', r.removeHandlerI h m = some (r',result) ∧ Kept n r' held' := by
  unfold SelectReactor.removeHandlerI
  by_cases unbound : r.rep.find h = none
  · exact ⟨r,-1,held,if_pos unbound,kept⟩
  · rw [if_neg unbound]
    have kept' := repKept kept (setMaskSize r.rep h (clrBits (r.rep.mask h) m)) fun w k mem => by
      rw [setMaskFind]
      exact kept.bound w k mem
    have bound : (r.rep.setMask h (clrBits (r.rep.mask h) m)).find h ≠ none := by
      rw [setMaskFind]
      exact unbound
    dsimp only
    generalize clrBits (r.rep.mask h) m = newMask at kept' bound ⊢
    obtain ⟨r',did,kept'',rep⟩ :=
      optKept kept' bound newMask (if newMask ≠ Mask.null then HandleOpt.setMask else .clrMask)
    by_cases null : newMask = Mask.null
    · -- the handle is in no list any more when its handler goes
      have gone : ∀ w, h ∉ opted held h newMask (if newMask ≠ Mask.null then HandleOpt.setMask else .clrMask) w := by
        intro w mem
        unfold opted at mem
        rw [if_pos null] at mem
        exact (List.Nodup.mem_erase_iff (kept.once w)).1 mem |>.1 rfl
      refine ⟨_,0,_,Option.bind_eq_some_iff.2 ⟨_,did,(if_neg zeroNotFailed).trans (if_pos null)⟩,
        repKept kept'' (unbindSize _ _) fun w k mem => ?_⟩
      have other : k ≠ h := fun eq => gone w (eq ▸ mem)
      rw [unbindFind,if_neg other]
      exact kept''.bound w k mem
    · exact ⟨_,0,_,Option.bind_eq_some_iff.2 ⟨_,did,(if_neg zeroNotFailed).trans (if_neg null)⟩,kept''⟩

theorem suspendKept (kept : Kept n r held) (h : Handle) :
    ∃ r' result held', r.suspendHandlerI h = some (r',result) ∧ Kept n r' held' := by
  unfold SelectReactor.suspendHandlerI
  by_cases unbound : r.rep.find h = none
  · exact ⟨r,-1,held,if_pos unbound,kept⟩
  · rw [if_neg unbound]
    by_cases already : r.rep.suspended h = true
    · exact ⟨r,0,held,if_pos already,kept⟩
    · rw [if_neg already]
      obtain ⟨r',did,kept',_⟩ := optKept kept unbound Mask.null .clrMask
      refine ⟨_,0,_,Option.bind_eq_some_iff.2 ⟨_,did,if_neg zeroNotFailed⟩,
        repKept kept' (flagSize r'.rep h true) fun w k mem => ?_⟩
      rw [HandlerRepository.suspend,flagFind]
      exact kept'.bound w k mem

theorem resumeKept (kept : Kept n r held) (h : Handle) :
    ∃ r' result held', r.resumeHandlerI h = some (r',result) ∧ Kept n r' held' := by
  unfold SelectReactor.resumeHandlerI
  by_cases no : r.rep.find h = none ∨ r.rep.suspended h = false
  · exact ⟨r,-1,held,if_pos no,kept⟩
  · rw [if_neg no]
    by_cases null : r.rep.mask h = Mask.null
    · exact ⟨r,-1,held,if_pos null,kept⟩
    · rw [if_neg null]
      obtain ⟨r',did,kept',_⟩ := optKept kept (fun unbound => no (Or.inl unbound)) (r.rep.mask h) .addMask
      refine ⟨_,0,_,Option.bind_eq_some_iff.2 ⟨_,did,if_neg zeroNotFailed⟩,
        repKept kept' (flagSize r'.rep h false) fun w k mem => ?_⟩
      rw [HandlerRepository.resume,flagFind]
      exact kept'.bound w k mem

theorem applyKept (kept : Kept n r held) (a : Action) : ∃ r' held', r.apply a = some r' ∧ Kept n r' held' := by
  cases a with
  | register h eh m =>
    obtain ⟨r',result,held',did,kept'⟩ := registerKept kept h eh m
    exact ⟨r',held',Option.map_eq_some_iff.2 ⟨_,did,rfl⟩,kept'⟩
  | remove h m =>
    obtain ⟨r',result,held',did,kept'⟩ := removeKept kept h m
    exact ⟨r',held',Option.map_eq_some_iff.2 ⟨_,did,rfl⟩,kept'⟩
  | suspend h =>
    obtain ⟨r',result,held',did,kept'⟩ := suspendKept kept h
    exact ⟨r',held',Option.map_eq_some_iff.2 ⟨_,did,rfl⟩,kept'⟩
  | resume h =>
    obtain ⟨r',result,held',did,kept'⟩ := resumeKept kept h
    exact ⟨r',held',Option.map_eq_some_iff.2 ⟨_,did,rfl⟩,kept'⟩

/- The nodes of open_i are one list, of all of them. -/
theorem chainRange (n k : Nat) (inside : k < n) :
    Seg (fun p => if p + 1 < n then some (p + 1) else none) (some k) (List.range' k (n - k)) none := by
  obtain ⟨d,rfl⟩ : ∃ d, n = k + d + 1 := ⟨n - k - 1,by omega⟩
  rw [show k + d + 1 - k = d + 1 by omega,List.range'_succ]
  induction d generalizing k with
  | zero => exact ⟨rfl,if_neg (by omega)⟩
  | succ d ih =>
    have onward : (if k + 1 < k + (d + 1) + 1 then some (k + 1) else none) = some (k + 1) := if_pos (by omega)
    refine ⟨rfl,?_⟩
    dsimp only
    rw [onward,List.range'_succ]
    have rest := ih (k + 1) (by omega)
    rw [show k + 1 + d + 1 = k + (d + 1) + 1 by omega] at rest
    exact rest

theorem allocatedKept {fdSetSize : Nat} (positive : 0 < fdSetSize) :
    Kept fdSetSize (SelectReactor.allocated fdSetSize) fun _ => [] where
  holds := by
    refine ⟨fun _ => [],List.range (fdSetSize * 3),?_,fun _ => rfl⟩
    refine { list := fun _ => rfl, freed := ?_, all := List.Perm.refl _ }
    rw [List.range_eq_range']
    exact chainRange (fdSetSize * 3) 0 (by omega)
  once := fun _ => List.nodup_nil
  bound := fun _ _ mem => absurd mem List.not_mem_nil
  size := rfl
  nodes := rfl

end Operations

/- The lists and the free list are made of the nodes of open_i, each once; a list has a
handle once at most and only valid handles that are bound. -/
def Conserved (fdSetSize : Nat) : Option SelectReactor → Prop
  | none => False
  | some r => ∃ lists free,
    (∀ w, Seg r.next (r.list w) (lists w) none) ∧ Seg r.next r.freeNode free none ∧
    (allNodes lists free).Nodup ∧ (allNodes lists free).Perm (List.range (fdSetSize * 3)) ∧
    ∀ w, ((lists w).map r.handle).Nodup ∧
      ∀ p ∈ lists w, r.handle p ≠ invalidHandle ∧ r.rep.find (r.handle p) ≠ none

theorem openedKept {fdSetSize : Nat} {notifyHandle : Handle} {notifyHandler : EventHandler} {r : SelectReactor}
    (opened : SelectReactor.openI fdSetSize notifyHandle notifyHandler = some (r,0)) : ∃ held, Kept fdSetSize r held := by
  unfold SelectReactor.openI at opened
  split at opened
  · exact absurd (Prod.mk.inj (Option.some.inj opened)).2 (by decide)
  · rename_i positive
    obtain ⟨r',result,held,did,kept⟩ := registerKept (allocatedKept (Nat.pos_of_ne_zero positive)) notifyHandle
      (some notifyHandler) Mask.read
    cases (Option.some.inj (did.symm.trans opened))
    exact ⟨held,kept⟩

/- Whatever is registered, removed, suspended and resumed after open_i, no node is lost and
none is used twice, and append_handle always finds a free one where it needs it. -/
theorem nodesConserved {fdSetSize : Nat} {notifyHandle : Handle} {notifyHandler : EventHandler} {r : SelectReactor}
    (opened : SelectReactor.openI fdSetSize notifyHandle notifyHandler = some (r,0)) (acts : List Action) :
    Always step (Conserved fdSetSize) (some r) acts := by
  obtain ⟨held,kept⟩ := openedKept opened
  have always : Always step (fun r => ∃ r' held, r = some r' ∧ Kept fdSetSize r' held) (some r) acts := by
    refine alwaysInvariant ?_ ⟨r,held,rfl,kept⟩ acts
    rintro _ a next ⟨r,held,rfl,kept⟩ did
    obtain ⟨r',held',ran,kept'⟩ := applyKept kept a
    exact ⟨r',held',(Option.some.inj did).symm.trans ran,kept'⟩
  refine alwaysMono ?_ always
  rintro _ ⟨r,held,rfl,kept⟩
  obtain ⟨lists,free,c,same⟩ := kept.holds
  have all := kept.nodes ▸ c.all
  refine ⟨lists,free,c.list,c.freed,all.nodup_iff.2 List.nodup_range,all,fun w => ⟨?_,fun p mem => ?_⟩⟩
  · rw [same w]
    exact kept.once w
  · have bound := kept.bound w (r.handle p) (same w ▸ List.mem_map_of_mem mem)
    have low := (boundRange kept bound).1
    refine ⟨fun eq => ?_,bound⟩
    rw [eq] at low
    exact absurd low (by decide)

/- Two descriptors of a set of four, the notify handle among them. -/
theorem fourConserved : ∃ r, SelectReactor.openI 4 3 0 = some (r,0) ∧
    Always step (Conserved 4) (some r) [.register 2 (some 1) Mask.connect,.suspend 2,.resume 2,.remove 2 Mask.read] := by
  have facts : (SelectReactor.openI 4 3 0).map Prod.snd = some 0 := by decide
  obtain ⟨⟨r,result⟩,opened,zero⟩ := Option.map_eq_some_iff.1 facts
  subst zero
  exact ⟨r,opened,nodesConserved opened _⟩

end CuteNdk.Select
