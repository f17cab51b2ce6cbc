import CuteNdk.CacheDeque
import CuteNdk.HeapAdjust

/-! cache_heap: items in a binary heap, ordered by the hit counts their objects keep, and a
free list of items to use again. Every cached object points back at its item. A result of
none is a null pointer followed or what is none in heap.h. -/
namespace CuteNdk.Cache
open Lib

/- lfu_cache_object. -/
structure LfuCacheObject extends CacheObject where
  hitCount : Int
  deriving DecidableEq, Repr

abbrev LfuObjects := Obj → LfuCacheObject

def LfuObjects.setProxy (objs : LfuObjects) (o : Obj) (i : Option Item) : LfuObjects :=
  Function.update objs o { objs o with proxy := i }

/- hit_count_ is an int. -/
def LfuObjects.acquire (objs : LfuObjects) (o : Obj) : LfuObjects :=
  Function.update objs o
    { objs o with refcount := (objs o).refcount + 1, hitCount := ((objs o).hitCount + 1).bmod 0x100000000 }

/- kind is the class heap_ is of. content is obj_id_ and cobj_ of an item, none where no
item has been made. -/
structure CacheHeap (K : Type) where
  kind : HeapKind
  maxSize : Nat
  size : Nat
  heap : Nat → Option Item
  heapIdx : Item → Int
  freeHeapItems : Option Item
  content : Item → Option (K × Obj)
  next : Item → Option Item
  made : Nat

namespace CacheHeap
variable {K : Type}

def new (minOrMax : Int) (maxSize : Nat) : CacheHeap K where
  kind := if minOrMax = 0 then .minHeap else .maxHeap
  maxSize := maxSize
  size := 0
  heap := fun _ => none
  heapIdx := fun _ => -1
  freeHeapItems := none
  content := fun _ => none
  next := fun _ => none
  made := 0

/- cobj_->priority(). -/
def priority (c : CacheHeap K) (objs : LfuObjects) (item : Item) : Int :=
  (c.content item).elim 0 fun e => (objs e.2).hitCount

/- *heap_, whose comparisons read the objects. -/
def view (c : CacheHeap K) (objs : LfuObjects) : Heap Item Int :=
  ⟨c.maxSize,c.size,c.heap,c.heapIdx,c.priority objs⟩

def setHeap (c : CacheHeap K) (h : Heap Item Int) : CacheHeap K :=
  { c with maxSize := h.maxSize, size := h.size, heap := h.heap, heapIdx := h.heapIdx }

/- A new item or a reset one; either way the object's proxy is set to it. -/
def allocItem (c : CacheHeap K) (key : K) (cobj : Obj) : CacheHeap K × Item :=
  match c.freeHeapItems with
  | none =>
    ({ c with
      heapIdx := Function.update c.heapIdx c.made (-1)
      content := Function.update c.content c.made (some (key,cobj))
      next := Function.update c.next c.made none
      made := c.made + 1 },c.made)
  | some item =>
    ({ c with
      freeHeapItems := c.next item
      heapIdx := Function.update c.heapIdx item (-1)
      content := Function.update c.content item (some (key,cobj))
      next := Function.update c.next item none },item)

def releaseItem (c : CacheHeap K) (item : Item) : CacheHeap K :=
  { c with
    heapIdx := Function.update c.heapIdx item (-1)
    next := Function.update c.next item c.freeHeapItems
    freeHeapItems := some item }

/- new does not return a null pointer. -/
def insert (c : CacheHeap K) (objs : LfuObjects) (key : K) (cobj : Obj) :
    Option (Int × CacheHeap K × LfuObjects) :=
  if c.size = c.maxSize then some (-1,c,objs)
  else do
    let (c,item) := c.allocItem key cobj
    let objs := objs.setProxy cobj (some item)
    let (code,h) ← (c.view objs).push c.kind item
    return (code,c.setHeap h,objs)

/- remove(KEY &, cache_object *&): the key and object removed, or none for -1. -/
def remove (c : CacheHeap K) (objs : LfuObjects) : Option (Option (K × Obj) × CacheHeap K) := do
  let (item,h) ← (c.view objs).popAt c.kind 0
  let c := c.setHeap h
  match item with
  | none => return (none,c)
  | some item =>
    let e ← c.content item
    return (some e,c.releaseItem item)

/- remove(void *). -/
def removeItem (c : CacheHeap K) (objs : LfuObjects) : Option Item → Option (Int × CacheHeap K × LfuObjects)
  | none => some (-1,c,objs)
  | some item => do
    let (_,cobj) ← c.content item
    let objs := objs.setProxy cobj none
    let (code,h) ← (c.view objs).erase c.kind (some item)
    let c := c.setHeap h
    return if code = 0 then (0,c.releaseItem item,objs) else (-1,c,objs)

/- The result of erase is not looked at. -/
def adjust (c : CacheHeap K) (objs : LfuObjects) : Option Item → Option (Int × CacheHeap K × LfuObjects)
  | none => some (-1,c,objs)
  | some item => do
    let (_,h) ← (c.view objs).erase c.kind (some item)
    let c := c.setHeap h
    let (_,cobj) ← c.content item
    let objs := objs.acquire cobj
    let (code,h) ← (c.view objs).push c.kind item
    return (code,c.setHeap h,objs)

def items (c : CacheHeap K) : List Item := (List.range c.size).filterMap c.heap

/- The heap is in order, every item in it is its object's proxy, and f is the free list. -/
structure Stored (c : CacheHeap K) (objs : LfuObjects) (f : List Item) : Prop where
  kind : c.kind = .minHeap
  wellFormed : (c.view objs).WellFormed .minHeap
  free : Seg c.next c.freeHeapItems f none
  apart : ∀ i ∈ f, i ∉ c.items
  made : ∀ i, i ∈ c.items ∨ i ∈ f → i < c.made
  linked : ∀ i ∈ c.items, ∃ e, c.content i = some e ∧ (objs e.2).proxy = some i

section Objects
variable {objs : LfuObjects} {o p : Obj} {i : Option Item}

theorem setProxyProxy : ((objs.setProxy o i) o).proxy = i := by simp only [LfuObjects.setProxy,Function.update_self]

theorem setProxyOther (off : p ≠ o) : objs.setProxy o i p = objs p := Function.update_of_ne off _ _

theorem setProxyHits : (objs.setProxy o i p).hitCount = (objs p).hitCount := by
  unfold LfuObjects.setProxy
  rw [Function.update_apply]
  split
  · rename_i same
    rw [same]
  · rfl

theorem acquireProxy : (objs.acquire o p).proxy = (objs p).proxy := by
  unfold LfuObjects.acquire
  rw [Function.update_apply]
  split
  · rename_i same
    rw [same]
  · rfl

theorem acquireOther (off : p ≠ o) : objs.acquire o p = objs p := Function.update_of_ne off _ _

end Objects

section Views
variable {c : CacheHeap K} {objs objs' : LfuObjects} {f : List Item} {i : Item}

theorem newStored (maxSize : Nat) (objs : LfuObjects) : Stored (new 0 maxSize : CacheHeap K) objs [] :=
  ⟨rfl,Heap.newWellFormed _ _ _,rfl,fun i mem => absurd mem List.not_mem_nil,
    fun i mem => absurd mem (by simp [items,new]),fun i mem => absurd mem (by simp [items,new])⟩

theorem viewSetHeap {h : Heap Item Int} (same : h.priority = c.priority objs) : (c.setHeap h).view objs = h := by
  change Heap.mk h.maxSize h.size h.heap h.heapIdx (c.priority objs) = h
  rw [← same]

theorem priorityHeld {e : K × Obj} (holds : c.content i = some e) : c.priority objs i = (objs e.2).hitCount := by
  simp only [priority,holds,Option.elim]

/- An object has one item in the heap. -/
theorem linkedOnce (h : Stored c objs f) {j : Item} {e d : K × Obj} (mem : i ∈ c.items) (mem' : j ∈ c.items)
    (holds : c.content i = some e) (holds' : c.content j = some d) (same : e.2 = d.2) : i = j := by
  obtain ⟨e',is,proxy⟩ := h.linked i mem
  obtain ⟨d',is',proxy'⟩ := h.linked j mem'
  cases Option.some.inj (holds.symm.trans is)
  cases Option.some.inj (holds'.symm.trans is')
  rw [same] at proxy
  exact Option.some.inj (proxy.symm.trans proxy')

theorem itemsNodup (h : Stored c objs f) : c.items.Nodup :=
  Heap.itemsNodup HeapKind.minFollows h.wellFormed 0

end Views

section Allocation
variable {c : CacheHeap K} {objs : LfuObjects} {f : List Item} {o : Obj}

/- An item outside both lists, which already is the proxy of its object. -/
structure Allocated (c d : CacheHeap K) (objs : LfuObjects) (e : K × Obj) (f : List Item) (i : Item) : Prop where
  stored : Stored d objs f
  heap : d.heap = c.heap
  size : d.size = c.size
  maxSize : d.maxSize = c.maxSize
  off : i ∉ d.items
  unfree : i ∉ f
  made : i < d.made
  content : d.content = Function.update c.content i (some e)
  proxy : (objs e.2).proxy = some i

theorem allocAllocated (h : Stored c objs f) (key : K)
    (fresh : ∀ i ∈ c.items, ∀ e, c.content i = some e → e.2 ≠ o) :
    ∃ f', Allocated c (c.allocItem key o).1 (objs.setProxy o (some (c.allocItem key o).2)) (key,o) f'
      (c.allocItem key o).2 := by
  -- what holds of any item outside the heap that is given the entry
  have linked : ∀ x ∉ c.items, ∀ i ∈ c.items, ∃ e, Function.update c.content x (some (key,o)) i = some e ∧
      (objs.setProxy o (some x) e.2).proxy = some i := fun x off i mem => by
    obtain ⟨e,holds,proxy⟩ := h.linked i mem
    refine ⟨e,?_,?_⟩
    · rw [Function.update_of_ne fun same : i = x => off (same ▸ mem)]
      exact holds
    · rw [setProxyOther (fresh i mem e holds)]
      exact proxy
  have agree : ∀ x ∉ c.items, ∀ i ∈ c.items, Function.update c.heapIdx x (-1) i = c.heapIdx i ∧
      ((Function.update c.content x (some (key,o)) i).elim 0 fun e => (objs.setProxy o (some x) e.2).hitCount)
        = c.priority objs i := fun x off i mem => by
    have other : i ≠ x := fun same => off (same ▸ mem)
    refine ⟨Function.update_of_ne other _ _,?_⟩
    simp only [Function.update_of_ne other,setProxyHits,priority]
  unfold allocItem
  cases free : c.freeHeapItems with
  | none =>
    have empty : f = [] := segNull (free ▸ h.free)
    have off : c.made ∉ c.items := fun mem => Nat.lt_irrefl _ (h.made _ (.inl mem))
    refine ⟨[],⟨h.kind,Heap.wellFormedAgree h.wellFormed rfl rfl rfl (agree _ off),rfl,
      fun i mem => absurd mem List.not_mem_nil,fun i mem => ?_,linked _ off⟩,rfl,rfl,rfl,off,List.not_mem_nil,
      Nat.lt_succ_self _,rfl,setProxyProxy⟩
    rcases mem with mem | mem
    · exact Nat.lt_succ_of_lt (h.made i (.inl mem))
    · cases mem
  | some item =>
    have seg := free ▸ h.free
    cases f with
    | nil => cases seg
    | cons g f =>
      have same : item = g := Option.some.inj seg.1
      subst same
      have off : item ∉ c.items := h.apart item List.mem_cons_self
      have unfree : item ∉ f := (List.nodup_cons.1 (segNodup seg)).1
      refine ⟨f,⟨h.kind,Heap.wellFormedAgree h.wellFormed rfl rfl rfl (agree _ off),(segUpdate unfree).mpr seg.2,
        fun i mem => h.apart i (List.mem_cons_of_mem item mem),fun i mem => ?_,linked _ off⟩,rfl,rfl,rfl,off,unfree,
        h.made item (.inr List.mem_cons_self),rfl,setProxyProxy⟩
      exact h.made i (mem.imp_right (List.mem_cons_of_mem item))

/- An item taken out of the heap goes to the free list. -/
theorem releaseStored {i : Item} (h : Stored c objs f) (off : i ∉ c.items) (unfree : i ∉ f) (made : i < c.made) :
    Stored (c.releaseItem i) objs (i :: f) := by
  have other : ∀ j ∈ c.items, j ≠ i := fun j mem same => off (same ▸ mem)
  refine ⟨h.kind,Heap.wellFormedAgree h.wellFormed rfl rfl rfl fun j mem =>
    ⟨Function.update_of_ne (other j mem) _ _,rfl⟩,⟨rfl,?_⟩,fun j mem => ?_,fun j mem => ?_,h.linked⟩
  · simp only [releaseItem,Function.update_self]
    exact (segUpdate unfree).mpr h.free
  · cases mem with
    | head => exact off
    | tail _ mem => exact h.apart j mem
  · rcases mem with mem | mem
    · exact h.made j (.inl mem)
    · cases mem with
      | head => exact made
      | tail _ mem => exact h.made j (.inr mem)

end Allocation

end CacheHeap
end CuteNdk.Cache
