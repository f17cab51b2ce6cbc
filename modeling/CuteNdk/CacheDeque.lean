import CuteNdk.Lib.Linked
import Mathlib.Data.List.Nodup
import Mathlib.Tactic.Tauto

/-! cache_object and cache_deque: the items of the deque and of its free list are
in one store, linked by prev_ and next_, and every cached object points back at
its item. -/
namespace CuteNdk.Cache
open Lib

abbrev Obj := Nat
abbrev Item := Nat
abbrev Address := Nat

structure CacheObject where
  refcount : Int
  size : BitVec 64
  data : Option Address
  proxy : Option Item
  observer : Option Address
  deriving DecidableEq, Repr

abbrev Objects := Obj → CacheObject

def Objects.acquire (objs : Objects) (o : Obj) : Objects :=
  Function.update objs o { objs o with refcount := (objs o).refcount + 1 }

def Objects.release (objs : Objects) (o : Obj) : Objects :=
  Function.update objs o { objs o with refcount := (objs o).refcount - 1 }

def Objects.setProxy (objs : Objects) (o : Obj) (i : Item) : Objects :=
  Function.update objs o { objs o with proxy := some i }

/- content is obj_id_ and cobj_ of an item, none where no item has been made. -/
structure CacheDeque (K : Type*) where
  size : Int
  freeQueue : Option Item
  dequeHead : Option Item
  dequeTail : Option Item
  content : Item → Option (K × Obj)
  prev : Item → Option Item
  next : Item → Option Item
  made : Nat

namespace CacheDeque
variable {K : Type*}

def new : CacheDeque K where
  size := 0
  freeQueue := none
  dequeHead := none
  dequeTail := none
  content := fun _ => none
  prev := fun _ => none
  next := fun _ => none
  made := 0

def insertI (d : CacheDeque K) (item : Item) : CacheDeque K :=
  let d := { d with prev := Function.update d.prev item d.dequeTail }
  let d := match d.dequeTail with
    | none => d
    | some tail => { d with next := Function.update d.next tail (some item) }
  let d := { d with dequeTail := some item }
  if d.dequeHead = none then { d with dequeHead := d.dequeTail } else d

def removeI (d : CacheDeque K) (item : Item) : CacheDeque K :=
  match d.next item, d.prev item with
  | some next, some prev =>
    { d with next := Function.update d.next prev (some next), prev := Function.update d.prev next (some prev) }
  | some next, none => { d with dequeHead := some next, prev := Function.update d.prev next none }
  | none, some prev => { d with dequeTail := some prev, next := Function.update d.next prev none }
  | none, none => { d with dequeHead := none, dequeTail := none }

/- A new item or a reset one; either way the object's proxy is set to it. -/
def allocItem (d : CacheDeque K) (key : K) (cobj : Obj) : CacheDeque K × Item :=
  match d.freeQueue with
  | none =>
    ({ d with
      content := Function.update d.content d.made (some (key,cobj)),
      prev := Function.update d.prev d.made none,
      next := Function.update d.next d.made none,
      made := d.made + 1 },d.made)
  | some item =>
    ({ d with
      freeQueue := d.next item,
      content := Function.update d.content item (some (key,cobj)),
      prev := Function.update d.prev item none,
      next := Function.update d.next item none },item)

def releaseItem (d : CacheDeque K) (item : Item) : CacheDeque K :=
  { d with next := Function.update d.next item d.freeQueue, freeQueue := some item }

/- Returns 0: new does not return a null pointer. -/
def insert (d : CacheDeque K) (objs : Objects) (key : K) (cobj : Obj) : CacheDeque K × Objects :=
  let (d,item) := d.allocItem key cobj
  let d := d.insertI item
  ({ d with size := d.size + 1 },objs.setProxy cobj item)

/- The key and object removed, or none for -1. -/
def remove (d : CacheDeque K) : Option (K × Obj × CacheDeque K) :=
  match d.dequeHead with
  | none => none
  | some item =>
    match d.content item with
    | none => none
    | some (key,cobj) =>
      let d := d.removeI item
      let d := { d with size := d.size - 1 }
      some (key,cobj,d.releaseItem item)

/- remove(void *). release_item is given the void pointer, which no instance of the
template accepts: it is taken to be given the item. -/
def removeItem (d : CacheDeque K) : Option Item → CacheDeque K
  | none => d
  | some item =>
    let d := d.removeI item
    let d := { d with size := d.size - 1 }
    d.releaseItem item

def adjust (d : CacheDeque K) (objs : Objects) (item : Option Item) : CacheDeque K × Objects :=
  match item with
  | none => (d,objs)
  | some item =>
    let d := d.removeI item
    let objs := match d.content item with
      | none => objs
      | some (_,cobj) => objs.acquire cobj
    let d := { d with next := Function.update d.next item none }
    (d.insertI item,objs)

/- The deque holds the items of l from head to tail, and f is its free list. -/
structure Rep (d : CacheDeque K) (l f : List Item) : Prop where
  linked : Dll d.next d.prev d.dequeHead d.dequeTail l
  free : Seg d.next d.freeQueue f none
  apart : ∀ i ∈ f, i ∉ l
  made : ∀ i, i ∈ l ∨ i ∈ f ↔ i < d.made
  content : ∀ i ∈ l, d.content i ≠ none
  size : d.size = l.length

theorem newRep : Rep (new : CacheDeque K) [] [] :=
  ⟨⟨rfl,rfl⟩,rfl,nofun,fun i => by simp [new],nofun,rfl⟩

theorem insertIEq (d : CacheDeque K) (item : Item) :
    d.insertI item =
      { d with
        prev := Function.update d.prev item d.dequeTail
        next := relink d.next d.dequeTail (some item)
        dequeTail := some item
        dequeHead := if d.dequeHead = none then some item else d.dequeHead } := by
  unfold insertI
  cases tail : d.dequeTail <;> by_cases head : d.dequeHead = none <;> simp [relink,head]

theorem removeIEq (d : CacheDeque K) (item : Item) :
    d.removeI item =
      { d with
        next := relink d.next (d.prev item) (d.next item)
        prev := relink d.prev (d.next item) (d.prev item)
        dequeHead := if d.prev item = none then d.next item else d.dequeHead
        dequeTail := if d.next item = none then d.prev item else d.dequeTail } := by
  unfold removeI
  cases next : d.next item <;> cases prev : d.prev item <;> simp [relink]

theorem removeILinked {d : CacheDeque K} {l₁ l₂ f : List Item} {i : Item} (h : Rep d (l₁ ++ i :: l₂) f) :
    Dll (d.removeI i).next (d.removeI i).prev (d.removeI i).dequeHead (d.removeI i).dequeTail (l₁ ++ l₂) ∧
      Seg (d.removeI i).next d.freeQueue f none := by
  rw [removeIEq]
  refine ⟨dllUnlink h.linked,(relinkOff fun a before mem => ?_).mpr h.free⟩
  rw [(dllNeighbours h.linked).2] at before
  exact h.apart a mem (List.mem_append_left _ (List.mem_of_getLast? before))

theorem removeIKeeps (d : CacheDeque K) (item : Item) : (d.removeI item).content = d.content ∧
    (d.removeI item).freeQueue = d.freeQueue ∧ (d.removeI item).made = d.made ∧
    (d.removeI item).size = d.size := by
  rw [removeIEq]
  exact ⟨rfl,rfl,rfl,rfl⟩

/- An item that is out of both lists, ready to be appended. -/
structure Spare (d : CacheDeque K) (l f : List Item) (i : Item) : Prop where
  linked : Dll d.next d.prev d.dequeHead d.dequeTail l
  free : Seg d.next d.freeQueue f none
  off : i ∉ l
  unfree : i ∉ f
  null : d.next i = none
  apart : ∀ a ∈ f, a ∉ l
  made : ∀ a, a ∈ l ∨ a = i ∨ a ∈ f ↔ a < d.made
  content : ∀ a ∈ l ++ [i], d.content a ≠ none

theorem insertIKeeps (d : CacheDeque K) (item : Item) : (d.insertI item).content = d.content ∧
    (d.insertI item).freeQueue = d.freeQueue ∧ (d.insertI item).made = d.made ∧
    (d.insertI item).size = d.size := by
  rw [insertIEq]
  exact ⟨rfl,rfl,rfl,rfl⟩

theorem spareInserted {d : CacheDeque K} {l f : List Item} {i : Item} (h : Spare d l f i) {n : Int}
    (size : n = l.length + 1) : Rep { d.insertI i with size := n } (l ++ [i]) f := by
  rw [insertIEq]
  refine ⟨dllPush h.linked h.off h.null,(relinkOff fun a last mem => ?_).mpr h.free,fun a mem => ?_,
    fun a => ?_,h.content,by simpa using size⟩
  · rw [(dllEnds h.linked).2] at last
    exact h.apart a mem (List.mem_of_getLast? last)
  · simp only [List.mem_append,List.mem_singleton,not_or]
    exact ⟨h.apart a mem,fun same => h.unfree (same ▸ mem)⟩
  · rw [← h.made a]
    simp only [List.mem_append,List.mem_singleton,or_assoc]

theorem allocSpare {d : CacheDeque K} {l f : List Item} (h : Rep d l f) (key : K) (o : Obj) :
    ∃ f', Spare (d.allocItem key o).1 l f' (d.allocItem key o).2 ∧
      (d.allocItem key o).1.content = Function.update d.content (d.allocItem key o).2 (some (key,o)) ∧
      (d.allocItem key o).1.size = d.size := by
  unfold allocItem
  cases free : d.freeQueue with
  | none =>
    have empty : f = [] := segNull (free ▸ h.free)
    subst empty
    have off : d.made ∉ l := fun mem => Nat.lt_irrefl _ ((h.made _).1 (.inl mem))
    have other : ∀ a ∈ l, a ≠ d.made := fun a mem same => off (same ▸ mem)
    refine ⟨[],⟨dllCongr h.linked (fun a mem => Function.update_of_ne (other a mem) _ _)
      (fun a mem => Function.update_of_ne (other a mem) _ _),rfl,off,nofun,Function.update_self _ _ _,nofun,
      fun a => ?_,fun a mem => ?_⟩,rfl,rfl⟩
    · have all := h.made a
      simp only [List.not_mem_nil,or_false] at all ⊢
      rw [all,Nat.lt_succ_iff_lt_or_eq]
    · simp only
      rcases List.mem_append.1 mem with mem | mem
      · rw [Function.update_of_ne (other a mem)]
        exact h.content a mem
      · rw [List.mem_singleton.1 mem,Function.update_self]
        nofun
  | some item =>
    have seg := free ▸ h.free
    cases f with
    | nil => exact absurd seg nofun
    | cons g f =>
      have same : item = g := Option.some.inj seg.1
      subst same
      have off : item ∉ l := h.apart item List.mem_cons_self
      have fresh : item ∉ f := (List.nodup_cons.1 (segNodup seg)).1
      have other : ∀ a ∈ l, a ≠ item := fun a mem same => off (same ▸ mem)
      refine ⟨f,⟨dllCongr h.linked (fun a mem => Function.update_of_ne (other a mem) _ _)
        (fun a mem => Function.update_of_ne (other a mem) _ _),(segUpdate fresh).mpr seg.2,off,fresh,
        Function.update_self _ _ _,fun a mem => h.apart a (List.mem_cons_of_mem item mem),
        fun a => ?_,fun a mem => ?_⟩,rfl,rfl⟩
      · rw [← h.made a,List.mem_cons]
      · simp only
        rcases List.mem_append.1 mem with mem | mem
        · rw [Function.update_of_ne (other a mem)]
          exact h.content a mem
        · rw [List.mem_singleton.1 mem,Function.update_self]
          nofun

theorem insertRep {d : CacheDeque K} {l f : List Item} (h : Rep d l f) (objs : Objects) (key : K) (o : Obj) :
    ∃ i f', i ∉ l ∧ Rep (d.insert objs key o).1 (l ++ [i]) f' ∧
      (∀ objs, (d.insert objs key o).2 = objs.setProxy o i) ∧
      (d.insert objs key o).1.content = Function.update d.content i (some (key,o)) := by
  obtain ⟨f',spare,content,size⟩ := allocSpare h key o
  obtain ⟨content',-,-,size'⟩ := insertIKeeps (d.allocItem key o).1 (d.allocItem key o).2
  have longer : ((d.allocItem key o).1.insertI (d.allocItem key o).2).size + 1 = l.length + 1 := by
    rw [size',size,h.size]
  exact ⟨(d.allocItem key o).2,f',spare.off,spareInserted spare longer,fun _ => rfl,content'.trans content⟩

theorem removeISpare {d : CacheDeque K} {l₁ l₂ f : List Item} {i : Item} (h : Rep d (l₁ ++ i :: l₂) f) :
    Spare { d.removeI i with next := Function.update (d.removeI i).next i none } (l₁ ++ l₂) f i := by
  obtain ⟨linked,free⟩ := removeILinked h
  obtain ⟨content,queue,made,-⟩ := removeIKeeps d i
  have off : i ∉ l₁ ++ l₂ := (List.nodup_cons.1 (List.nodup_middle.1 (dllNodup h.linked))).1
  have unfree : i ∉ f := fun mem => h.apart i mem (by simp)
  have other : ∀ a ∈ l₁ ++ l₂, a ≠ i := fun a mem same => off (same ▸ mem)
  have among : ∀ a, a ∈ l₁ ++ i :: l₂ ↔ a ∈ l₁ ++ l₂ ∨ a = i := by
    intro a
    simp only [List.mem_append,List.mem_cons]
    tauto
  refine ⟨dllCongr linked (fun a mem => Function.update_of_ne (other a mem) _ _) fun _ _ => rfl,?_,off,unfree,
    Function.update_self _ _ _,fun a mem inside => h.apart a mem ((among a).2 (.inl inside)),fun a => ?_,
    fun a mem => ?_⟩
  · simp only [queue]
    exact (segUpdate unfree).mpr free
  · simp only [made]
    rw [← h.made a,among,or_assoc]
  · simp only [content]
    refine h.content a ((among a).2 ?_)
    simpa [or_assoc] using mem

theorem removeEmpty {d : CacheDeque K} {f : List Item} (h : Rep d [] f) : d.remove = none := by
  have head := (dllEnds h.linked).1
  simp [remove,head]

theorem removeItemRep {d : CacheDeque K} {l₁ l₂ f : List Item} {i : Item} (h : Rep d (l₁ ++ i :: l₂) f) :
    Rep (d.removeItem (some i)) (l₁ ++ l₂) (i :: f) := by
  obtain ⟨linked,free⟩ := removeILinked h
  obtain ⟨content,queue,made,size⟩ := removeIKeeps d i
  have off : i ∉ l₁ ++ l₂ := (List.nodup_cons.1 (List.nodup_middle.1 (dllNodup h.linked))).1
  have unfree : i ∉ f := fun mem => h.apart i mem (by simp)
  have other : ∀ a ∈ l₁ ++ l₂, a ≠ i := fun a mem same => off (same ▸ mem)
  have among : ∀ a, a ∈ l₁ ++ i :: l₂ ↔ a ∈ l₁ ++ l₂ ∨ a = i := by
    intro a
    simp only [List.mem_append,List.mem_cons]
    tauto
  refine ⟨?_,?_,fun a mem => ?_,fun a => ?_,fun a mem => ?_,?_⟩
  · exact dllCongr linked (fun a mem => Function.update_of_ne (other a mem) _ _) fun _ _ => rfl
  · refine ⟨rfl,?_⟩
    simp only [removeItem,releaseItem,Function.update_self,queue]
    exact (segUpdate unfree).mpr free
  · rcases List.mem_cons.1 mem with rfl | mem
    · exact off
    · exact fun inside => h.apart a mem ((among a).2 (.inl inside))
  · have all := h.made a
    rw [among] at all
    simp only [removeItem,releaseItem,made,List.mem_cons]
    rw [← all]
    tauto
  · simp only [removeItem,releaseItem,content]
    exact h.content a ((among a).2 (.inl mem))
  · have longer := h.size
    simp only [removeItem,releaseItem,size,List.length_append,List.length_cons] at longer ⊢
    omega

theorem removeRep {d : CacheDeque K} {i : Item} {l f : List Item} (h : Rep d (i :: l) f) :
    ∃ key o d', d.content i = some (key,o) ∧ d.remove = some (key,o,d') ∧ Rep d' l (i :: f) ∧
      d'.content = d.content := by
  have head : d.dequeHead = some i := (dllEnds h.linked).1
  cases holds : d.content i with
  | none => exact absurd holds (h.content i List.mem_cons_self)
  | some e =>
    obtain ⟨key,o⟩ := e
    refine ⟨key,o,d.removeItem (some i),rfl,?_,removeItemRep (show Rep d ([] ++ i :: l) f from h),
      (removeIKeeps d i).1⟩
    simp only [remove,head,holds,removeItem]

theorem adjustRep {d : CacheDeque K} {l₁ l₂ f : List Item} {i : Item} {key : K} {o : Obj}
    (h : Rep d (l₁ ++ i :: l₂) f) (holds : d.content i = some (key,o)) (objs : Objects) :
    Rep (d.adjust objs (some i)).1 (l₁ ++ l₂ ++ [i]) f ∧ (d.adjust objs (some i)).2 = objs.acquire o ∧
      (d.adjust objs (some i)).1.content = d.content := by
  obtain ⟨content,-,-,size⟩ := removeIKeeps d i
  obtain ⟨content',-,-,size'⟩ :=
    insertIKeeps { d.removeI i with next := Function.update (d.removeI i).next i none } i
  have same : d.size = ((l₁ ++ l₂).length : Int) + 1 := by
    rw [h.size]
    simp only [List.length_append,List.length_cons]
    omega
  refine ⟨spareInserted (removeISpare h) (size'.trans (size.trans same)),?_,content'.trans content⟩
  simp only [adjust,content,holds]

end CacheDeque

end CuteNdk.Cache
