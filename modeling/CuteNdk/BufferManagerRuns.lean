import CuteNdk.BufferManager
import Mathlib.Data.List.Perm.Subperm

/-! Runs of a buffer_manager and the program that takes and gives back its blocks: what has been
allocated is what is outstanding and what is cached. -/
namespace CuteNdk.BufferManager
open Lib (Seg Always alwaysInvariant)

/- The blocks that flush deletes of those cached from head on, count turns after its start. -/
def flushed (blocks count : Nat) (cached : List Item) : List Item :=
  if blocks = 0 then cached else cached.take (blocks - count)

/- What is outstanding and cached is all that is allocated, each block once. -/
structure Blocks (s : State) (cached : List Item) : Prop where
  live : s.live.Perm (s.out ++ cached.map s.buffer)
  nodup : s.live.Nodup
  valid : ∀ b ∈ s.live, b ≠ 0 ∧ b < 18446744073709551616

structure Inv (s : State) (cached free : List Item) : Prop where
  lists : Lists s s.bufferList [] cached free
  blocks : Blocks s cached
  count : s.nAlloced.toNat = s.out.length

section Steps
variable {s t : State} {head : Option Item} {cached free : List Item} {item : Item} {p : Block}

/- Distinct pointers are fewer than a size_t counts. -/
theorem fewBlocks (h : Blocks s cached) : s.live.length < 18446744073709551616 := by
  have distinct : (0 :: s.live).Nodup := List.nodup_cons.mpr ⟨fun mem => (h.valid 0 mem).1 rfl,h.nodup⟩
  have within : (0 :: s.live) ⊆ List.range 18446744073709551616 := by
    intro b mem
    rcases List.mem_cons.mp mem with rfl | live
    · exact List.mem_range.mpr (by omega)
    · exact List.mem_range.mpr (h.valid b live).2
  have length := (distinct.subperm within).length_le
  rw [List.length_range,List.length_cons] at length
  exact length

theorem outLe (h : Blocks s cached) : s.out.length ≤ s.live.length := by
  rw [h.live.length_eq,List.length_append]
  exact Nat.le_add_right _ _

/- A block that is cached can be deleted, and it is gone then. -/
theorem deleteBlocks (h : Blocks s (item :: cached)) :
    s.delete (s.buffer item) = some
      { s with live := s.live.erase (s.buffer item), deleted := s.deleted ++ [s.buffer item] } ∧
    Blocks { s with live := s.live.erase (s.buffer item), deleted := s.deleted ++ [s.buffer item] } cached := by
  have live : s.live.Perm (s.buffer item :: (s.out ++ cached.map s.buffer)) := h.live.trans List.perm_middle
  have mem : s.buffer item ∈ s.live := live.mem_iff.mpr List.mem_cons_self
  refine ⟨?_,?_,h.nodup.erase _,fun b rest => h.valid b (List.mem_of_mem_erase rest)⟩
  · unfold State.delete
    rw [if_neg (h.valid _ mem).1,if_pos mem]
  · have erased := live.erase (s.buffer item)
    rwa [List.erase_cons_head] at erased

/- What the loop of flush leaves: the blocks in front are deleted in order, and their items are
in the free list. -/
structure Flushed (gone : List Item) (s t : State) (head : Option Item) (rest : List Item) : Prop where
  lists : ∃ free, Lists t head [] rest free
  blocks : Blocks t rest
  deleted : t.deleted = s.deleted ++ gone.map s.buffer
  out : t.out = s.out
  nAlloced : t.nAlloced = s.nAlloced

theorem flushFromEnds {count fuel : Nat} (blocks : Nat) (lists : Lists s head [] cached free) (h : Blocks s cached)
    (enough : cached.length < fuel) (goes : blocks = 0 ∨ count < blocks) :
    ∃ head' t rest, s.flushFrom blocks fuel head count = some (head',t) ∧
      flushed blocks count cached ++ rest = cached ∧ Flushed (flushed blocks count cached) s t head' rest := by
  induction cached generalizing s head free count fuel with
  | nil =>
    obtain ⟨fuel,rfl⟩ := Nat.exists_eq_succ_of_ne_zero (Nat.ne_of_gt enough)
    have none_ : head = none := lists.listed
    subst none_
    have nothing : flushed blocks count [] = [] := by
      unfold flushed
      split <;> simp
    rw [nothing]
    exact ⟨none,s,[],rfl,rfl,⟨free,lists⟩,h,by simp,rfl,rfl⟩
  | cons item cached ih =>
    obtain ⟨fuel,rfl⟩ := Nat.exists_eq_succ_of_ne_zero (Nat.ne_of_gt (Nat.zero_lt_of_lt enough))
    obtain ⟨rfl,taken⟩ := takeFirst lists
    obtain ⟨deletes,left⟩ := deleteBlocks h
    let t : State := { s with live := s.live.erase (s.buffer item), deleted := s.deleted ++ [s.buffer item] }
    have freed : Lists (t.freeItem item) (s.next item) [] cached (item :: free) :=
      freeItemLists ⟨taken.listed,taken.waiting,taken.items⟩
    have blocks' : Blocks (t.freeItem item) cached := ⟨left.live,left.nodup,left.valid⟩
    simp only [State.flushFrom,deletes,Option.bind_some]
    by_cases last : 0 < blocks ∧ count + 1 = blocks
    · have one : flushed blocks count (item :: cached) = [item] := by
        unfold flushed
        rw [if_neg (Nat.ne_of_gt last.1),show blocks - count = 1 by omega]
        rfl
      rw [if_pos last,one]
      exact ⟨_,_,cached,rfl,rfl,⟨_,freed⟩,blocks',rfl,rfl,rfl⟩
    · have more : flushed blocks count (item :: cached) = item :: flushed blocks (count + 1) cached := by
        unfold flushed
        split
        · rfl
        · rw [show blocks - count = blocks - (count + 1) + 1 by omega]
          rfl
      rw [if_neg last,more]
      obtain ⟨head',u,rest,runs,parts,ends⟩ :=
        ih freed blocks' (Nat.lt_of_succ_lt_succ enough) (show blocks = 0 ∨ count + 1 < blocks by omega)
      refine ⟨head',u,rest,runs,congrArg (item :: ·) parts,ends.lists,ends.blocks,?_,ends.out,ends.nAlloced⟩
      rw [ends.deleted]
      exact List.append_assoc ..

theorem flushInv (blocks : Nat) (h : Inv s cached free) :
    ∃ t rest free', s.flush blocks = some t ∧ Inv t rest free' ∧ t.out = s.out ∧
      flushed blocks 0 cached ++ rest = cached ∧ t.deleted = s.deleted ++ (flushed blocks 0 cached).map s.buffer := by
  have few : cached.length < s.made + 1 := by
    have length := h.lists.items.length_eq
    simp only [List.nil_append,List.length_append,List.length_range] at length
    omega
  obtain ⟨head,t,rest,runs,parts,ends⟩ :=
    flushFromEnds blocks h.lists h.blocks few (Nat.eq_zero_or_pos blocks)
  obtain ⟨free',lists⟩ := ends.lists
  refine ⟨{ t with bufferList := head },rest,free',?_,⟨?_,?_,?_⟩,ends.out,parts,ends.deleted⟩
  · unfold State.flush
    rw [runs]
    rfl
  · exact ⟨lists.listed,lists.waiting,lists.items⟩
  · exact ⟨ends.blocks.live,ends.blocks.nodup,ends.blocks.valid⟩
  · exact ((congrArg BitVec.toNat ends.nAlloced).trans h.count).trans (congrArg List.length ends.out.symm)

/- The list malloc takes its item from has one. -/
theorem fillListInv {news : Block} (lists : Lists s s.bufferList [] cached free) (h : Blocks s cached)
    (new : s.bufferList = none → news ≠ 0 ∧ news < 18446744073709551616 ∧ news ∉ s.live) :
    ∃ t first rest free', s.fillList news = some t ∧ Lists t t.bufferList [] (first :: rest) free' ∧
      Blocks t (first :: rest) ∧ t.out = s.out ∧ t.nAlloced = s.nAlloced := by
  cases cached with
  | nil =>
    have none_ : s.bufferList = none := lists.listed
    obtain ⟨valid,small,fresh⟩ := new none_
    rw [none_] at lists
    obtain ⟨item,t,free',takes,hand,null,kept⟩ := allocItemLists lists
    obtain ⟨live,out,_⟩ := kept.blocks
    have put := putFirst hand null
    refine ⟨{ t with
        bufferList := some item, buffer := Function.update t.buffer item news, live := news :: t.live },
      item,[],free',?_,⟨put.listed,put.waiting,put.items⟩,⟨?_,?_,?_⟩,out,kept.nAlloced⟩
    · unfold State.fillList
      rw [if_pos none_,takes]
      rfl
    · simp only [List.map_cons,List.map_nil,Function.update_self,live,out]
      have all : s.live.Perm s.out := by simpa using h.live
      exact (all.cons news).trans (List.perm_append_singleton news s.out).symm
    · simp only [live]
      exact List.nodup_cons.mpr ⟨fresh,h.nodup⟩
    · intro b mem
      simp only [live] at mem
      rcases List.mem_cons.mp mem with rfl | old
      · exact ⟨valid,small⟩
      · exact h.valid b old
  | cons first rest =>
    have some_ : s.bufferList ≠ none := by
      rw [lists.listed.1]
      nofun
    exact ⟨s,first,rest,free,if_neg some_,lists,h,rfl,rfl⟩

/- malloc hands out the block of the first item, which goes to the free list with it. -/
theorem mallocInv {news : Block} (h : Inv s cached free)
    (new : s.bufferList = none → news ≠ 0 ∧ news < 18446744073709551616 ∧ news ∉ s.live) :
    ∃ t rest free', apply s (.malloc news) = some t ∧ Inv t rest free' := by
  obtain ⟨t,first,rest,free',fills,lists,blocks,out,count⟩ :=
    fillListInv (s := { s with nAlloced := s.nAlloced + 1 }) ⟨h.lists.listed,h.lists.waiting,h.lists.items⟩
      ⟨h.blocks.live,h.blocks.nodup,h.blocks.valid⟩ new
  obtain ⟨head,hand⟩ := takeFirst lists
  have freed := freeItemLists (setHand hand none)
  have handed : t.live.Perm ((t.buffer first :: t.out) ++ rest.map t.buffer) := blocks.live.trans List.perm_middle
  have room : s.out.length + 1 < 18446744073709551616 := by
    have few := fewBlocks blocks
    have length := handed.length_eq
    rw [List.length_append,List.length_cons,out] at length
    simp only at length
    omega
  refine ⟨{ State.freeItem ({ t with bufferList := t.next first }.setNext first none) first with
      out := t.buffer first :: t.out },rest,first :: free',?_,⟨?_,?_,?_⟩⟩
  · simp only [apply,State.malloc,fills,Option.bind_some,head,Option.map_some]
    rfl
  · exact ⟨freed.listed,freed.waiting,freed.items⟩
  · exact ⟨handed,blocks.nodup,blocks.valid⟩
  · have counted : t.nAlloced.toNat = s.out.length + 1 := by
      rw [count,BitVec.toNat_add,h.count]
      exact Nat.mod_eq_of_lt room
    exact counted.trans (congrArg (·.length + 1) out.symm)

/- free puts an outstanding block in front of those cached. -/
theorem freeInv (h : Inv s cached free) (outstanding : p ∈ s.out) :
    ∃ t rest free', apply s (.free p) = some t ∧ Inv t rest free' := by
  have lives : p ∈ s.live := h.blocks.live.mem_iff.mpr (List.mem_append_left _ outstanding)
  obtain ⟨item,t,free',takes,hand,null,kept⟩ :=
    allocItemLists (s := { s with nAlloced := s.nAlloced - 1 })
      ⟨h.lists.listed,h.lists.waiting,h.lists.items⟩
  obtain ⟨live,out,_⟩ := kept.blocks
  have linked := setHand hand s.bufferList
  have put := putFirst linked (Function.update_self ..)
  have others : cached.map (Function.update t.buffer item p) = cached.map s.buffer := by
    refine List.map_congr_left fun other mem => ?_
    have apart : other ≠ item := fun same => (handApart hand).1 (same ▸ mem)
    have made : other < s.made := itemMade h.lists (by simp [mem])
    rw [Function.update_of_ne apart]
    exact kept.buffer other made
  refine ⟨{ t with
      buffer := Function.update t.buffer item p
      next := Function.update t.next item t.bufferList
      bufferList := some item
      out := s.out.erase p },item :: cached,free',?_,⟨?_,?_,?_⟩⟩
  · simp only [apply,State.free,if_neg (h.blocks.valid p lives).1,takes,Option.map_some]
  · rw [kept.bufferList]
    exact ⟨put.listed,put.waiting,put.items⟩
  · refine ⟨?_,by simp only [live]; exact h.blocks.nodup,by simp only [live]; exact h.blocks.valid⟩
    simp only [live,List.map_cons,Function.update_self,others]
    have back : s.out.Perm (p :: s.out.erase p) := List.perm_cons_erase outstanding
    exact (h.blocks.live.trans (back.append_right _)).trans List.perm_middle.symm
  · have few := fewBlocks h.blocks
    have length := outLe h.blocks
    have some_ := List.length_pos_of_mem outstanding
    have one : (1 : BitVec 64).toNat = 1 := rfl
    simp only [kept.nAlloced,List.length_erase_of_mem outstanding,BitVec.toNat_sub,h.count,one]
    omega

end Steps

section Runs
variable {s : State} {cached free : List Item} {op : Op}

theorem applyInv (h : Inv s cached free) (allowed : Allowed s op) :
    ∃ t rest free', apply s op = some t ∧ Inv t rest free' := by
  cases op with
  | malloc news => exact mallocInv h allowed
  | free p => exact freeInv h allowed
  | flush blocks =>
    obtain ⟨t,rest,free',runs,next,_⟩ := flushInv blocks h
    exact ⟨t,rest,free',runs,next⟩

/- A run stays defined. -/
def Well : Option State → Prop
  | none => False
  | some s => ∃ cached free, Inv s cached free

theorem stepWell {o o' : Option State} (well : Well o) (steps : step o op = some o') : Well o' := by
  cases o with
  | none => exact well.elim
  | some s =>
    obtain ⟨cached,free,h⟩ := well
    simp only [step] at steps
    split at steps
    · rename_i allowed
      obtain ⟨t,rest,free',runs,next⟩ := applyInv h allowed
      rw [runs] at steps
      cases Option.some.inj steps
      exact ⟨rest,free',next⟩
    · cases steps

theorem startWell : Well (some start) :=
  ⟨[],[],⟨rfl,rfl,List.Perm.refl _⟩,⟨List.Perm.refl _,List.nodup_nil,nofun⟩,rfl⟩

end Runs

/- cached are the items of buffer_list_; their blocks are those that are allocated and not outstanding. -/
structure Unshared (s : State) (cached free : List Item) : Prop where
  bufferList : Seg s.next s.bufferList cached none
  freeBufferList : Seg s.next s.freeBufferList free none
  items : (cached ++ free).Perm (List.range s.made)
  live : s.live.Perm (s.out ++ cached.map s.buffer)
  distinct : s.out.Nodup
  apart : ∀ b ∈ s.out, b ∉ cached.map s.buffer
  once : (cached.map s.buffer).Nodup
  count : s.nAlloced.toNat = s.out.length
  flush : ∀ blocks, ∃ t gone rest, s.flush blocks = some t ∧ gone ++ rest = cached ∧
    gone = (if blocks = 0 then cached else cached.take blocks) ∧
    t.deleted = s.deleted ++ gone.map s.buffer ∧ t.out = s.out

theorem invUnshared {s : State} {cached free : List Item} (h : Inv s cached free) : Unshared s cached free := by
  have nodup := List.nodup_append.mp (h.blocks.live.nodup_iff.mp h.blocks.nodup)
  refine ⟨h.lists.listed,h.lists.waiting,h.lists.items,h.blocks.live,nodup.1,fun b out mem => ?_,nodup.2.1,h.count,
    fun blocks => ?_⟩
  · exact nodup.2.2 b out b mem rfl
  · obtain ⟨t,rest,free',runs,_,out,parts,deleted⟩ := flushInv blocks h
    exact ⟨t,flushed blocks 0 cached,rest,runs,parts,rfl,deleted,out⟩

/- In every state a run reaches. -/
theorem blocksNeverShared (ops : List Op) :
    Always step (fun o => ∃ s cached free, o = some s ∧ Unshared s cached free) (some start) ops := by
  refine Lib.alwaysMono (fun o well => ?_) (alwaysInvariant (fun _ _ _ => stepWell) startWell ops)
  cases o with
  | none => exact well.elim
  | some s =>
    obtain ⟨cached,free,h⟩ := well
    exact ⟨s,cached,free,rfl,invUnshared h⟩

/- The second of two blocks is handed out again, the first one deleted. -/
example : (Lib.run step (some start) [.malloc 16,.malloc 32,.free 16,.free 32,.malloc 48,.flush 0]).map
    (fun o => o.map fun s => (s.nAlloced,s.out,s.deleted,s.made)) = some (some (1,[32],[16],64)) := by decide

end CuteNdk.BufferManager
