import CuteNdk.Lib.Linked
import CuteNdk.Lib.Run

/-! buffer_manager: blocks of one size, cached in a list of items. The items that carry no cached
block wait in a second list, with the pointer to the block they carried last still in them. A
result of none is a null item that is followed or a block that is deleted and not allocated. -/
namespace CuteNdk.BufferManager
open Lib

/- A pointer to a block; the null pointer is 0. Items are numbered as they are made. -/
abbrev Block := Nat
abbrev Item := Nat

/- live are the blocks new has given and that are not deleted, out those malloc has returned and
that are not freed; deleted are those flush has deleted so far, in order. -/
structure State where
  nAlloced : BitVec 64
  bufferList : Option Item
  freeBufferList : Option Item
  buffer : Item → Block
  next : Item → Option Item
  made : Nat
  live : List Block
  out : List Block
  deleted : List Block

def start : State := ⟨0,none,none,fun _ => 0,fun _ => none,0,[],[],[]⟩

/- new buffer_item(). -/
def State.newItem (s : State) : State :=
  { s with
    made := s.made + 1
    buffer := Function.update s.buffer s.made 0
    next := Function.update s.next s.made none }

def State.setNext (s : State) (item : Item) (next : Option Item) : State :=
  { s with next := Function.update s.next item next }

/- The turns of the loop of alloc_item that are left, with itor. -/
def State.makeItems : Nat → Option Item → State → Option State
  | 0, _, s => some s
  | n + 1, itor, s =>
    if s.freeBufferList = none then makeItems n (some s.made) { s.newItem with freeBufferList := some s.made }
    else itor.bind fun last => makeItems n (some s.made) (s.newItem.setNext last (some s.made))

def State.allocItem (s : State) : Option (Item × State) :=
  (if s.freeBufferList = none then s.makeItems 64 none else some s).bind fun s =>
    s.freeBufferList.map fun item => (item,{ s with freeBufferList := s.next item }.setNext item none)

def State.freeItem (s : State) (item : Item) : State :=
  { s.setNext item s.freeBufferList with freeBufferList := some item }

/- The head of malloc: an item with a new block when none is cached. -/
def State.fillList (s : State) (news : Block) : Option State :=
  if s.bufferList = none then
    s.allocItem.map fun (item,s) => { s with
      bufferList := some item
      buffer := Function.update s.buffer item news
      live := news :: s.live }
  else some s

def State.malloc (s : State) (news : Block) : Option (Block × State) :=
  (fillList { s with nAlloced := s.nAlloced + 1 } news).bind fun s =>
    s.bufferList.map fun item =>
      (s.buffer item,freeItem ({ s with bufferList := s.next item }.setNext item none) item)

def State.free (s : State) (p : Block) : Option State :=
  if p = 0 then none
  else (allocItem { s with nAlloced := s.nAlloced - 1 }).map fun (item,s) =>
    { s with
      buffer := Function.update s.buffer item p
      next := Function.update s.next item s.bufferList
      bufferList := some item }

/- delete []p; of a null pointer it does nothing. -/
def State.delete (s : State) (p : Block) : Option State :=
  if p = 0 then some s
  else if p ∈ s.live then some { s with live := s.live.erase p, deleted := s.deleted ++ [p] }
  else none

/- The loop of flush from item on, with the item it ends at. -/
def State.flushFrom (blocks : Nat) : Nat → Option Item → Nat → State → Option (Option Item × State)
  | 0, _, _, _ => none
  | _ + 1, none, _, s => some (none,s)
  | fuel + 1, some p, count, s =>
    let item := s.next p
    (s.delete (s.buffer p)).bind fun s =>
      let s := s.freeItem p
      let count := count + 1
      if 0 < blocks ∧ count = blocks then some (item,s) else flushFrom blocks fuel item count s

/- Each turn takes an item that has been made. -/
def State.flush (s : State) (blocks : Nat) : Option State :=
  (flushFrom blocks (s.made + 1) s.bufferList 0 s).map fun (item,s) => { s with bufferList := item }

/- news is the block that new gives when malloc asks for one. -/
inductive Op where
  | malloc (news : Block)
  | free (p : Block)
  | flush (blocks : Nat)
  deriving DecidableEq, Repr

def apply (s : State) : Op → Option State
  | .malloc news => (s.malloc news).map fun (p,s) => { s with out := p :: s.out }
  | .free p => (s.free p).map fun t => { t with out := s.out.erase p }
  | .flush blocks => s.flush blocks

/- A new block is none of those there are, and what is freed is outstanding. -/
def Allowed (s : State) : Op → Prop
  | .malloc news => s.bufferList = none → news ≠ 0 ∧ news < 18446744073709551616 ∧ news ∉ s.live
  | .free p => p ∈ s.out
  | .flush _ => True

instance (s : State) (op : Op) : Decidable (Allowed s op) := by
  cases op <;> unfold Allowed <;> infer_instance

def step : Option State → Op → Option (Option State)
  | none, _ => none
  | some s, op => if Allowed s op then some (apply s op) else none

/- The items of the list from head on, those of the free list and those in hand: each item once. -/
structure Lists (s : State) (head : Option Item) (hand cached free : List Item) : Prop where
  listed : Seg s.next head cached none
  waiting : Seg s.next s.freeBufferList free none
  items : (hand ++ (cached ++ free)).Perm (List.range s.made)

/- What is outside of the lists, and the blocks of the items there were. -/
structure Kept (s t : State) : Prop where
  nAlloced : t.nAlloced = s.nAlloced
  bufferList : t.bufferList = s.bufferList
  made : s.made ≤ t.made
  buffer : ∀ item < s.made, t.buffer item = s.buffer item
  blocks : t.live = s.live ∧ t.out = s.out ∧ t.deleted = s.deleted

theorem keptRefl (s : State) : Kept s s := ⟨rfl,rfl,Nat.le_refl _,fun _ _ => rfl,rfl,rfl,rfl⟩

theorem keptTrans {s t u : State} (h : Kept s t) (h' : Kept t u) : Kept s u where
  nAlloced := h'.nAlloced.trans h.nAlloced
  bufferList := h'.bufferList.trans h.bufferList
  made := Nat.le_trans h.made h'.made
  buffer := fun item low => (h'.buffer item (Nat.lt_of_lt_of_le low h.made)).trans (h.buffer item low)
  blocks := ⟨h'.blocks.1.trans h.blocks.1,h'.blocks.2.1.trans h.blocks.2.1,h'.blocks.2.2.trans h.blocks.2.2⟩

section Items
variable {s : State} {head : Option Item} {hand cached free : List Item} {item : Item}

theorem itemMade (h : Lists s head hand cached free) (mem : item ∈ hand ++ (cached ++ free)) : item < s.made :=
  List.mem_range.mp (h.items.mem_iff.mp mem)

theorem itemsNodup (h : Lists s head hand cached free) : (hand ++ (cached ++ free)).Nodup :=
  h.items.nodup_iff.mpr List.nodup_range

theorem madeFresh (h : Lists s head hand cached free) : s.made ∉ cached ∧ s.made ∉ free := by
  refine ⟨fun mem => ?_,fun mem => ?_⟩
  · exact absurd (itemMade h (by simp [mem])) (Nat.lt_irrefl _)
  · exact absurd (itemMade h (by simp [mem])) (Nat.lt_irrefl _)

theorem handApart (h : Lists s head [item] cached free) : item ∉ cached ∧ item ∉ free := by
  have apart := (List.nodup_cons.mp (itemsNodup h)).1
  simpa using apart

/- A link of an item in hand is nobody's business. -/
theorem setHand (h : Lists s head [item] cached free) (next : Option Item) :
    Lists (s.setNext item next) head [item] cached free :=
  ⟨(segUpdate (handApart h).1).mpr h.listed,(segUpdate (handApart h).2).mpr h.waiting,h.items⟩

theorem takeFirst (h : Lists s head [] (item :: cached) free) : head = some item ∧ Lists s (s.next item) [item] cached free :=
  ⟨h.listed.1,h.listed.2,h.waiting,h.items⟩

theorem freeItemLists (h : Lists s head [item] cached free) : Lists (s.freeItem item) head [] cached (item :: free) := by
  obtain ⟨listed,waiting,items⟩ := setHand h s.freeBufferList
  refine ⟨listed,⟨rfl,?_⟩,?_⟩
  · simp only [State.freeItem,State.setNext,Function.update_self]
    exact waiting
  · exact (List.perm_middle (a := item)).trans items

theorem putFirst (h : Lists s head [item] cached free) (leads : s.next item = head) :
    Lists s (some item) [] (item :: cached) free := by
  obtain ⟨listed,waiting,items⟩ := h
  exact ⟨⟨rfl,by rw [leads]; exact listed⟩,waiting,items⟩

/- The first turn of the loop, and the turns behind a last item. -/
theorem firstItemLists (h : Lists s head hand cached []) :
    Lists { s.newItem with freeBufferList := some s.made } head hand cached [s.made] := by
  refine ⟨(segUpdate (madeFresh h).1).mpr h.listed,⟨rfl,?_⟩,?_⟩
  · exact Function.update_self ..
  · have items := h.items
    rw [List.append_nil] at items
    simp only [State.newItem]
    rw [List.range_succ,← List.append_assoc]
    exact items.append_right [s.made]

theorem nextItemLists {last : Item} (h : Lists s head hand cached (free ++ [last])) :
    Lists (s.newItem.setNext last (some s.made)) head hand cached (free ++ [last] ++ [s.made]) := by
  obtain ⟨newCached,newFree⟩ := madeFresh h
  have nodup := (List.nodup_append.mp (List.nodup_append.mp (itemsNodup h)).2.1)
  have lastCached : last ∉ cached := fun mem => nodup.2.2 last mem last (by simp) rfl
  have lastFree : last ∉ free := fun mem => (List.nodup_append.mp nodup.2.1).2.2 last mem last (by simp) rfl
  have other : s.made ≠ last := fun same => newFree (by simp [same])
  refine ⟨?_,?_,?_⟩
  · exact (segUpdate lastCached).mpr ((segUpdate newCached).mpr h.listed)
  · have front := segSetLast (r := some s.made) ((segUpdate (r := none) newFree).mpr h.waiting) lastFree
    refine segAppend.mpr ⟨some s.made,front,rfl,?_⟩
    exact (Function.update_of_ne other ..).trans (Function.update_self ..)
  · simp only [State.newItem,State.setNext]
    rw [List.range_succ,← List.append_assoc cached,← List.append_assoc hand]
    exact h.items.append_right [s.made]

theorem makeItemsLists {last : Item} (n : Nat) (h : Lists s head hand cached (free ++ [last])) :
    ∃ t rest, s.makeItems n (some last) = some t ∧ Lists t head hand cached (free ++ [last] ++ rest) ∧ Kept s t := by
  induction n generalizing s free last with
  | zero => exact ⟨s,[],rfl,by simpa using h,keptRefl s⟩
  | succ n ih =>
    have some_ : s.freeBufferList ≠ none := by
      rw [segHead h.waiting]
      simp
    obtain ⟨t,rest,runs,lists,kept⟩ := ih (nextItemLists h)
    refine ⟨t,s.made :: rest,?_,by simpa using lists,keptTrans ?_ kept⟩
    · simp only [State.makeItems,if_neg some_,Option.bind_some]
      exact runs
    · exact ⟨rfl,rfl,Nat.le_succ _,fun item low => Function.update_of_ne (Nat.ne_of_lt low) .., rfl,rfl,rfl⟩

/- The items for which there is none waiting. -/
theorem moreItems (h : Lists s head hand cached free) :
    ∃ t first rest, (if s.freeBufferList = none then s.makeItems 64 none else some s) = some t ∧
      Lists t head hand cached (first :: rest) ∧ Kept s t := by
  cases free with
  | nil =>
    have none_ : s.freeBufferList = none := h.waiting
    have first : Lists { s.newItem with freeBufferList := some s.made } head hand cached ([] ++ [s.made]) := firstItemLists h
    obtain ⟨t,rest,runs,lists,kept⟩ := makeItemsLists 63 first
    refine ⟨t,s.made,rest,?_,lists,keptTrans ?_ kept⟩
    · rw [if_pos none_]
      change (if s.freeBufferList = none then State.makeItems 63 (some s.made) _ else _) = some t
      rw [if_pos none_]
      exact runs
    · exact ⟨rfl,rfl,Nat.le_succ _,fun item low => Function.update_of_ne (Nat.ne_of_lt low) .., rfl,rfl,rfl⟩
  | cons first rest =>
    have some_ : s.freeBufferList ≠ none := by
      rw [h.waiting.1]
      nofun
    exact ⟨s,first,rest,if_neg some_,h,keptRefl s⟩

/- alloc_item hands out an item of the free list. -/
theorem allocItemLists (h : Lists s head [] cached free) :
    ∃ item t free', s.allocItem = some (item,t) ∧ Lists t head [item] cached free' ∧ t.next item = none ∧ Kept s t := by
  obtain ⟨t,first,rest,runs,lists,kept⟩ := moreItems h
  have moved : (first :: (cached ++ rest)).Perm (cached ++ first :: rest) := List.perm_middle.symm
  have taken : Lists { t with freeBufferList := t.next first } head [first] cached rest :=
    ⟨lists.listed,lists.waiting.2,moved.trans lists.items⟩
  refine ⟨first,{ t with freeBufferList := t.next first }.setNext first none,rest,?_,setHand taken none,
    Function.update_self ..,?_⟩
  · unfold State.allocItem
    rw [runs]
    simp only [Option.bind_some,lists.waiting.1,Option.map_some]
  · exact keptTrans kept ⟨rfl,rfl,Nat.le_refl _,fun _ _ => rfl,rfl,rfl,rfl⟩

end Items

end CuteNdk.BufferManager
