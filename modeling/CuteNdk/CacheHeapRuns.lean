import CuteNdk.CacheHeap
import CuteNdk.Lib.Run

/-! cache_heap as a queue of the objects used least: runs of inserts, hits and removals,
beside the list of the keys and objects that are in the heap. -/
namespace CuteNdk.Cache
open Lib (Seg Along Always alwaysMono alwaysOfInvariant)

namespace CacheHeap
variable {K : Type} {c d : CacheHeap K} {objs objs' : LfuObjects} {f : List Item} {i : Item} {e : K × Obj}

/- The key and object of each item in the heap. -/
def entries (c : CacheHeap K) : List (Option (K × Obj)) := c.items.map c.content

/- What a heap operation leaves, seen from the items. -/
theorem setHeapStored {h : Heap Item Int} {l : List Item} (stored : Stored c objs f)
    (left : Heap.Leaves .minHeap (c.view objs) h l) (apart : ∀ j ∈ f, j ∉ l) (made : ∀ j ∈ l, j < c.made)
    (linked : ∀ j ∈ l, ∃ e, c.content j = some e ∧ (objs e.2).proxy = some j) : Stored (c.setHeap h) objs f := by
  have among : ∀ j, j ∈ (c.setHeap h).items ↔ j ∈ l := fun j => left.holds.mem_iff
  refine ⟨stored.kind,?_,stored.free,fun j mem inside => apart j mem ((among j).mp inside),fun j mem => ?_,
    fun j mem => linked j ((among j).mp mem)⟩
  · rw [viewSetHeap left.priority]
    exact left.wellFormed
  · rcases mem with mem | mem
    · exact made j ((among j).mp mem)
    · exact stored.made j (.inr mem)

theorem pushStored (stored : Stored c objs f) (off : i ∉ c.items) (unfree : i ∉ f) (made : i < c.made)
    (room : c.size < c.maxSize) (holds : c.content i = some e) (proxy : (objs e.2).proxy = some i) :
    ∃ h, (c.view objs).push c.kind i = some (0,h) ∧ Stored (c.setHeap h) objs f ∧
      (c.setHeap h).items.Perm (i :: c.items) ∧ (c.setHeap h).maxSize = c.maxSize := by
  obtain ⟨h,runs,left⟩ := Heap.pushLeaves HeapKind.minFollows stored.wellFormed off room
  rw [← stored.kind] at runs
  refine ⟨h,runs,setHeapStored stored left (fun j mem => ?_) (fun j mem => ?_) (fun j mem => ?_),left.holds,left.maxSize⟩
  · exact List.not_mem_cons_of_ne_of_not_mem (fun same => unfree (same ▸ mem)) (stored.apart j mem)
  · cases mem with
    | head => exact made
    | tail _ mem => exact stored.made j (.inl mem)
  · cases mem with
    | head => exact ⟨e,holds,proxy⟩
    | tail _ mem => exact stored.linked j mem

/- What is left when an item goes. -/
structure Without (c d : CacheHeap K) (objs : LfuObjects) (f : List Item) (i : Item) : Prop where
  stored : Stored d objs f
  content : d.content = c.content
  maxSize : d.maxSize = c.maxSize
  size : d.size + 1 = c.size
  items : d.items.Perm (c.items.erase i)
  off : i ∉ d.items
  unfree : i ∉ f
  made : i < d.made

theorem leavesWithout {h : Heap Item Int} (stored : Stored c objs f) (mem : i ∈ c.items)
    (left : Heap.Leaves .minHeap (c.view objs) h (c.items.erase i)) : Without c (c.setHeap h) objs f i := by
  have rest : ∀ j ∈ c.items.erase i, j ∈ c.items := fun j => List.mem_of_mem_erase
  refine ⟨setHeapStored stored left (fun j mem inside => stored.apart j mem (rest j inside))
    (fun j mem => stored.made j (.inl (rest j mem))) (fun j mem => stored.linked j (rest j mem)),rfl,left.maxSize,?_,
    left.holds,fun inside => (itemsNodup stored).not_mem_erase (left.holds.subset inside),
    fun free => stored.apart i free mem,stored.made i (.inl mem)⟩
  have size : h.size = (c.items.erase i).length := Heap.leavesSize left
  have all : c.items.length = c.size := Heap.sizeOfItems stored.wellFormed
  have some' : 0 < c.items.length := List.length_pos_of_mem mem
  rw [List.length_erase_of_mem mem] at size
  change h.size + 1 = c.size
  omega

theorem eraseWithout (stored : Stored c objs f) (mem : i ∈ c.items) :
    ∃ h, (c.view objs).erase c.kind (some i) = some (0,h) ∧ Without c (c.setHeap h) objs f i := by
  obtain ⟨h,runs,left⟩ := Heap.eraseAnswers HeapKind.minFollows stored.wellFormed mem
  rw [← stored.kind] at runs
  exact ⟨h,runs,leavesWithout stored mem left⟩

/- The proxy of an object whose item is out of the heap is of no matter. -/
theorem setProxyStored {p : Option Item} {o : Obj} (stored : Stored c objs f)
    (out : ∀ j ∈ c.items, ∀ e, c.content j = some e → e.2 ≠ o) : Stored c (objs.setProxy o p) f := by
  refine ⟨stored.kind,Heap.wellFormedAgree stored.wellFormed rfl rfl rfl fun j mem => ⟨rfl,?_⟩,stored.free,stored.apart,
    stored.made,fun j mem => ?_⟩
  · simp only [view,priority,setProxyHits]
  · obtain ⟨e,holds,proxy⟩ := stored.linked j mem
    refine ⟨e,holds,?_⟩
    rw [setProxyOther (out j mem e holds)]
    exact proxy

/- Neither is its hit count. -/
theorem acquireStored {o : Obj} (stored : Stored c objs f)
    (out : ∀ j ∈ c.items, ∀ e, c.content j = some e → e.2 ≠ o) : Stored c (objs.acquire o) f := by
  refine ⟨stored.kind,Heap.wellFormedAgree stored.wellFormed rfl rfl rfl fun j mem => ⟨rfl,?_⟩,stored.free,stored.apart,
    stored.made,fun j mem => ?_⟩
  · obtain ⟨e,holds,_⟩ := stored.linked j mem
    change c.priority (objs.acquire o) j = c.priority objs j
    rw [priorityHeld holds,priorityHeld holds,acquireOther (out j mem e holds)]
  · obtain ⟨e,holds,proxy⟩ := stored.linked j mem
    exact ⟨e,holds,acquireProxy.trans proxy⟩

theorem withoutOthers (stored : Stored c objs f) (without : Without c d objs f i) (mem : i ∈ c.items)
    (holds : c.content i = some e) : ∀ j ∈ d.items, ∀ e', d.content j = some e' → e'.2 ≠ e.2 := by
  intro j inside e' holds' same
  rw [without.content] at holds'
  have there := List.mem_of_mem_erase (without.items.subset inside)
  have same' := linkedOnce stored there mem holds' holds same
  subst same'
  exact without.off inside

theorem viewSetProxy {o : Obj} {p : Option Item} : c.view (objs.setProxy o p) = c.view objs := by
  have same : c.priority (objs.setProxy o p) = c.priority objs := by
    funext j
    simp only [priority,setProxyHits]
  simp only [view,same]

theorem insertFull (objs : LfuObjects) (key : K) (o : Obj) (full : c.size = c.maxSize) :
    c.insert objs key o = some (-1,c,objs) := if_pos full

theorem insertRuns {o : Obj} (stored : Stored c objs f) (key : K) (room : c.size ≠ c.maxSize)
    (fresh : ∀ j ∈ c.items, ∀ e, c.content j = some e → e.2 ≠ o) :
    ∃ d f' i, c.insert objs key o = some (0,d,objs.setProxy o (some i)) ∧
      Stored d (objs.setProxy o (some i)) f' ∧ d.maxSize = c.maxSize ∧ d.entries.Perm (some (key,o) :: c.entries) := by
  obtain ⟨f',a⟩ := allocAllocated stored key fresh
  have fits := stored.wellFormed.fits
  change c.size ≤ c.maxSize at fits
  have roomy : (c.allocItem key o).1.size < (c.allocItem key o).1.maxSize := by
    rw [a.size,a.maxSize]
    omega
  have holds : (c.allocItem key o).1.content (c.allocItem key o).2 = some (key,o) := by
    rw [a.content,Function.update_self]
  obtain ⟨h,runs,stored',perm,maxSize⟩ := pushStored a.stored a.off a.unfree a.made roomy holds a.proxy
  refine ⟨_,f',(c.allocItem key o).2,?_,stored',maxSize.trans a.maxSize,?_⟩
  · simp only [insert,room,if_false,runs,bind,Option.bind,pure]
  · have same : (c.allocItem key o).1.items = c.items := by
      unfold items
      rw [a.size,a.heap]
    have off := a.off
    refine (perm.map (c.allocItem key o).1.content).trans ?_
    rw [same] at off ⊢
    rw [List.map_cons,holds]
    refine List.Perm.cons _ (List.Perm.of_eq (List.map_congr_left fun j mem => ?_))
    have other : j ≠ (c.allocItem key o).2 := fun equal => off (equal ▸ mem)
    rw [a.content,Function.update_of_ne other]

theorem withoutEntries (without : Without c d objs f i) (mem : i ∈ c.items) (holds : c.content i = some e) :
    c.entries.Perm (some e :: d.entries) := by
  unfold entries
  rw [without.content,← holds]
  exact ((List.perm_cons_erase mem).trans (without.items.symm.cons i)).map c.content

/- The entry e is out of the heap, and its item is free. -/
structure Gone (c d : CacheHeap K) (objs : LfuObjects) (e : K × Obj) : Prop where
  stored : ∃ f, Stored d objs f
  maxSize : d.maxSize = c.maxSize
  entries : c.entries.Perm (some e :: d.entries)
  others : ∀ j ∈ d.items, ∀ e', d.content j = some e' → e'.2 ≠ e.2

theorem releaseGone (stored : Stored c objs f) (without : Without c d objs f i) (mem : i ∈ c.items)
    (holds : c.content i = some e) : Gone c (d.releaseItem i) objs e := by
  have entries := withoutEntries without mem holds
  have others := withoutOthers stored without mem holds
  exact ⟨⟨i :: f,releaseStored without.stored without.off without.unfree without.made⟩,without.maxSize,entries,others⟩

theorem setProxyGone {p : Option Item} (gone : Gone c d objs e) : Gone c d (objs.setProxy e.2 p) e := by
  obtain ⟨f,stored⟩ := gone.stored
  exact ⟨⟨f,setProxyStored stored gone.others⟩,gone.maxSize,gone.entries,gone.others⟩

/- remove(key,object): the item at the root, whose object has been hit least. -/
theorem removeRuns (stored : Stored c objs f) (some' : c.size ≠ 0) :
    ∃ i e d, i ∈ c.items ∧ c.content i = some e ∧ c.remove objs = some (some e,d) ∧ Gone c d objs e ∧
      ∀ j ∈ c.items, c.priority objs i ≤ c.priority objs j := by
  obtain ⟨i,h,-,runs,mem,least,left,-⟩ := Heap.popAnswers HeapKind.minFollows stored.wellFormed some'
  rw [← stored.kind] at runs
  obtain ⟨e,holds,_⟩ := stored.linked i mem
  refine ⟨i,e,(c.setHeap h).releaseItem i,mem,holds,?_,releaseGone stored (leavesWithout stored mem left) mem holds,
    fun j inside => of_decide_eq_true (least j inside)⟩
  have holds' : (c.setHeap h).content i = some e := holds
  simp only [remove,runs,holds',bind,Option.bind,pure]

theorem removeNone (objs : LfuObjects) (empty : c.size = 0) : c.remove objs = some (none,c) := by
  have runs : (c.view objs).popAt c.kind 0 = some (none,c.view objs) := if_pos (.inl empty)
  simp only [remove,runs,bind,Option.bind,pure]
  rfl

theorem removeItemRuns (stored : Stored c objs f) (mem : i ∈ c.items) (holds : c.content i = some e) :
    ∃ d, c.removeItem objs (some i) = some (0,d,objs.setProxy e.2 none) ∧ Gone c d (objs.setProxy e.2 none) e := by
  obtain ⟨h,runs,without⟩ := eraseWithout stored mem
  refine ⟨(c.setHeap h).releaseItem i,?_,setProxyGone (releaseGone stored without mem holds)⟩
  simp only [removeItem,holds,viewSetProxy,runs,bind,Option.bind,pure,if_true]

theorem adjustRuns (stored : Stored c objs f) (mem : i ∈ c.items) (holds : c.content i = some e) :
    ∃ d, c.adjust objs (some i) = some (0,d,objs.acquire e.2) ∧ Stored d (objs.acquire e.2) f ∧
      d.maxSize = c.maxSize ∧ d.entries.Perm c.entries := by
  obtain ⟨h,runs,without⟩ := eraseWithout stored mem
  have others := withoutOthers stored without mem holds
  have hit := acquireStored without.stored others
  obtain ⟨e',is,proxy⟩ := stored.linked i mem
  cases Option.some.inj (holds.symm.trans is)
  have fits := stored.wellFormed.fits
  change c.size ≤ c.maxSize at fits
  have room : (c.setHeap h).size < (c.setHeap h).maxSize := by
    have := without.size
    have := without.maxSize
    omega
  have holds' : (c.setHeap h).content i = some e := holds
  obtain ⟨h',runs',stored',perm,maxSize⟩ :=
    pushStored hit without.off without.unfree without.made room holds' (acquireProxy.trans proxy)
  refine ⟨_,?_,stored',maxSize.trans without.maxSize,?_⟩
  · simp only [adjust,runs,holds',runs',bind,Option.bind,pure]
  · refine (perm.map c.content).trans ?_
    rw [List.map_cons,holds]
    exact (withoutEntries without mem holds).symm

end CacheHeap

/- held are the keys and objects inserted and not yet removed. -/
structure LfuCache (K : Type) where
  cache : CacheHeap K
  objs : LfuObjects
  held : List (K × Obj)

namespace LfuCache
variable {K : Type}

/- What a program does: an object is passed on as its proxy. removeLeast is
remove(key,object). -/
inductive Act (K : Type) where
  | insert (key : K) (o : Obj)
  | adjust (o : Obj)
  | remove (o : Obj)
  | removeLeast
  deriving DecidableEq, Repr

inductive Answer (K : Type) where
  | code (c : Int)
  | entry (e : Option (K × Obj))
  deriving DecidableEq, Repr

def new (capacity : Nat) (objs : LfuObjects) : LfuCache K := ⟨.new 0 capacity,objs,[]⟩

/- The list without the object o. -/
def drop (held : List (K × Obj)) (o : Obj) : List (K × Obj) := held.filter fun e => e.2 ≠ o

def act (s : LfuCache K) : Act K → Option (Answer K × LfuCache K)
  | .insert key o => (s.cache.insert s.objs key o).map fun (code,cache,objs) =>
      (.code code,⟨cache,objs,if code = 0 then (key,o) :: s.held else s.held⟩)
  | .adjust o => (s.cache.adjust s.objs (s.objs o).proxy).map fun (code,cache,objs) => (.code code,⟨cache,objs,s.held⟩)
  | .remove o => (s.cache.removeItem s.objs (s.objs o).proxy).map fun (code,cache,objs) =>
      (.code code,⟨cache,objs,if code = 0 then drop s.held o else s.held⟩)
  | .removeLeast => (s.cache.remove s.objs).map fun (e,cache) =>
      (.entry e,⟨cache,s.objs,e.elim s.held fun e => drop s.held e.2⟩)

def step (s : LfuCache K) (a : Act K) : Option (LfuCache K) := (s.act a).map Prod.snd

def Held (s : LfuCache K) (o : Obj) : Prop := ∃ e ∈ s.held, e.2 = o

instance (s : LfuCache K) (o : Obj) : Decidable (s.Held o) := by unfold Held; infer_instance

/- The objects inserted are new, the others are members. -/
def Legal (s : LfuCache K) : Act K → Prop
  | .insert _ o => ¬s.Held o
  | .adjust o => s.Held o
  | .remove o => s.Held o
  | .removeLeast => True

instance (s : LfuCache K) : (a : Act K) → Decidable (Legal s a)
  | .insert _ o => inferInstanceAs (Decidable (¬s.Held o))
  | .adjust o => inferInstanceAs (Decidable (s.Held o))
  | .remove o => inferInstanceAs (Decidable (s.Held o))
  | .removeLeast => isTrue trivial

/- What each call answers, and what it does to the members and their hit counts. -/
def Answers (s : LfuCache K) (r : Answer K) (t : LfuCache K) : Act K → Prop
  | .insert key o => (r = .code (-1) ↔ s.held.length = s.cache.maxSize) ∧ (r = .code (-1) → t = s) ∧
      (r ≠ .code (-1) → r = .code 0 ∧ t.held = (key,o) :: s.held ∧
        ∀ p, (t.objs p).hitCount = (s.objs p).hitCount)
  | .adjust o => r = .code 0 ∧ t.held = s.held ∧ ∀ p, (t.objs p).hitCount =
      if p = o then ((s.objs o).hitCount + 1).bmod 0x100000000 else (s.objs p).hitCount
  | .remove o => r = .code 0 ∧ t.held = drop s.held o ∧ ∀ p, (t.objs p).hitCount = (s.objs p).hitCount
  | .removeLeast => (s.held = [] → r = .entry none ∧ t = s) ∧ (s.held ≠ [] → ∃ e ∈ s.held,
      r = .entry (some e) ∧ (∀ e' ∈ s.held, (s.objs e.2).hitCount ≤ (s.objs e'.2).hitCount) ∧
      t.held = drop s.held e.2 ∧ t.objs = s.objs)

/- The heap holds exactly the members, each of which has its item for proxy, no free item
is in the heap, and every call runs and answers. -/
structure IsLfu (capacity : Nat) (s : LfuCache K) : Prop where
  room : s.cache.maxSize = capacity
  exactly : s.cache.entries.Perm (s.held.map some)
  proxies : ∀ e ∈ s.held, ∃ i ∈ s.cache.items, (s.objs e.2).proxy = some i ∧ s.cache.content i = some e
  disjoint : ∃ f, Seg s.cache.next s.cache.freeHeapItems f none ∧ ∀ i ∈ f, i ∉ s.cache.items
  answers : ∀ a, Legal s a → ∃ r t, s.act a = some (r,t) ∧ Answers s r t a

/- Between any two calls. -/
structure Invariant (capacity : Nat) (s : LfuCache K) : Prop where
  room : s.cache.maxSize = capacity
  stored : ∃ f, s.cache.Stored s.objs f
  exactly : s.cache.entries.Perm (s.held.map some)

section Members
variable {capacity : Nat} {s : LfuCache K} {o : Obj} {e : K × Obj}

theorem heldItem (inv : Invariant capacity s) (mem : e ∈ s.held) :
    ∃ i ∈ s.cache.items, s.cache.content i = some e ∧ (s.objs e.2).proxy = some i := by
  have inside : some e ∈ s.cache.entries := inv.exactly.mem_iff.mpr (List.mem_map_of_mem mem)
  obtain ⟨i,there,holds⟩ := List.mem_map.mp inside
  obtain ⟨f,stored⟩ := inv.stored
  obtain ⟨e',is,proxy⟩ := stored.linked i there
  cases Option.some.inj (holds.symm.trans is)
  exact ⟨i,there,holds,proxy⟩

theorem itemHeld (inv : Invariant capacity s) {i : Item} (mem : i ∈ s.cache.items)
    (holds : s.cache.content i = some e) : e ∈ s.held := by
  have inside : some e ∈ s.held.map some := inv.exactly.subset (List.mem_map.mpr ⟨i,mem,holds⟩)
  obtain ⟨d,there,same⟩ := List.mem_map.mp inside
  cases Option.some.inj same
  exact there

theorem heldSize (inv : Invariant capacity s) : s.held.length = s.cache.size := by
  obtain ⟨f,stored⟩ := inv.stored
  have all : s.cache.items.length = s.cache.size := Heap.sizeOfItems stored.wellFormed
  have len := inv.exactly.length_eq
  simp only [CacheHeap.entries,List.length_map] at len
  omega

/- The one member that goes is the one of its object. -/
theorem dropExactly {d : CacheHeap K} (exactly : s.cache.entries.Perm (s.held.map some))
    (split : s.cache.entries.Perm (some e :: d.entries)) (own : ∀ j ∈ d.items, ∃ e', d.content j = some e')
    (others : ∀ j ∈ d.items, ∀ e', d.content j = some e' → e'.2 ≠ e.2) :
    d.entries.Perm ((drop s.held e.2).map some) := by
  have kept : ∀ x ∈ d.entries, x.elim false (fun e' => decide (e'.2 ≠ e.2)) = true := fun x mem => by
    obtain ⟨j,there,holds⟩ := List.mem_map.mp mem
    obtain ⟨e',is⟩ := own j there
    rw [← holds,is]
    exact decide_eq_true (others j there e' is)
  have both := (split.symm.trans exactly).filter fun x => x.elim false fun e' => decide (e'.2 ≠ e.2)
  rw [List.filter_cons_of_neg (by simp),List.filter_eq_self.mpr kept,List.filter_map] at both
  exact both

/- What goes leaves the members without it. -/
theorem goneInvariant {d : CacheHeap K} {objs : LfuObjects} (inv : Invariant capacity s)
    (gone : CacheHeap.Gone s.cache d objs e) : Invariant capacity ⟨d,objs,drop s.held e.2⟩ := by
  obtain ⟨f,stored⟩ := gone.stored
  refine ⟨gone.maxSize.trans inv.room,⟨f,stored⟩,
    dropExactly inv.exactly gone.entries (fun j mem => ?_) gone.others⟩
  obtain ⟨e',holds,_⟩ := stored.linked j mem
  exact ⟨e',holds⟩

theorem insertAnswers (inv : Invariant capacity s) (key : K) (fresh : ¬s.Held o) :
    ∃ r t, s.act (.insert key o) = some (r,t) ∧ Answers s r t (.insert key o) ∧ Invariant capacity t := by
  obtain ⟨f,stored⟩ := inv.stored
  have size := heldSize inv
  cases Nat.decEq s.cache.size s.cache.maxSize with
  | isTrue full =>
    refine ⟨.code (-1),s,?_,⟨by simp only [size,full],fun _ => rfl,fun off => absurd rfl off⟩,inv⟩
    simp only [act,CacheHeap.insertFull s.objs key o full,Option.map_some]
    rfl
  | isFalse room =>
    have new : ∀ j ∈ s.cache.items, ∀ e, s.cache.content j = some e → e.2 ≠ o := fun j mem e holds same =>
      fresh ⟨e,itemHeld inv mem holds,same⟩
    obtain ⟨d,f',i,runs,stored',maxSize,perm⟩ := CacheHeap.insertRuns stored key room new
    have differ : Answer.code (K := K) 0 ≠ .code (-1) := by simp
    refine ⟨.code 0,⟨d,s.objs.setProxy o (some i),(key,o) :: s.held⟩,by simp only [act,runs,Option.map_some,if_true],
      ⟨?_,fun same => absurd same differ,fun _ => ⟨rfl,rfl,fun p => CacheHeap.setProxyHits⟩⟩,
      maxSize.trans inv.room,⟨f',stored'⟩,perm.trans (inv.exactly.cons _)⟩
    rw [size]
    exact iff_of_false differ room

theorem adjustAnswers (inv : Invariant capacity s) (mem : e ∈ s.held) :
    ∃ r t, s.act (.adjust e.2) = some (r,t) ∧ Answers s r t (.adjust e.2) ∧ Invariant capacity t := by
  obtain ⟨f,stored⟩ := inv.stored
  obtain ⟨i,inside,holds,proxy⟩ := heldItem inv mem
  obtain ⟨d,runs,stored',maxSize,perm⟩ := CacheHeap.adjustRuns stored inside holds
  refine ⟨.code 0,⟨d,s.objs.acquire e.2,s.held⟩,by simp only [act,proxy,runs,Option.map_some],⟨rfl,rfl,fun p => ?_⟩,
    maxSize.trans inv.room,⟨f,stored'⟩,perm.trans inv.exactly⟩
  split
  · rename_i same
    subst same
    simp only [LfuObjects.acquire,Function.update_self]
  · rename_i off
    exact congrArg LfuCacheObject.hitCount (CacheHeap.acquireOther off)

theorem removeAnswers (inv : Invariant capacity s) (mem : e ∈ s.held) :
    ∃ r t, s.act (.remove e.2) = some (r,t) ∧ Answers s r t (.remove e.2) ∧ Invariant capacity t := by
  obtain ⟨f,stored⟩ := inv.stored
  obtain ⟨i,inside,holds,proxy⟩ := heldItem inv mem
  obtain ⟨d,runs,gone⟩ := CacheHeap.removeItemRuns stored inside holds
  exact ⟨.code 0,⟨d,s.objs.setProxy e.2 none,drop s.held e.2⟩,by simp only [act,proxy,runs,Option.map_some,if_true],
    ⟨rfl,rfl,fun p => CacheHeap.setProxyHits⟩,goneInvariant inv gone⟩

theorem removeLeastAnswers (inv : Invariant capacity s) :
    ∃ r t, s.act .removeLeast = some (r,t) ∧ Answers s r t .removeLeast ∧ Invariant capacity t := by
  obtain ⟨f,stored⟩ := inv.stored
  have size := heldSize inv
  cases empty : s.held with
  | nil =>
    rw [empty] at size
    refine ⟨.entry none,s,?_,⟨fun _ => ⟨rfl,rfl⟩,fun off => absurd empty off⟩,inv⟩
    simp only [act,CacheHeap.removeNone s.objs size.symm,Option.map_some]
    rfl
  | cons e' rest =>
    have some' : s.cache.size ≠ 0 := by
      rw [empty] at size
      simp only [List.length_cons] at size
      omega
    obtain ⟨i,e,d,mem,holds,runs,gone,least⟩ := CacheHeap.removeRuns stored some'
    refine ⟨.entry (some e),⟨d,s.objs,drop s.held e.2⟩,by simp only [act,runs,Option.map_some,Option.elim],
      ⟨fun none' => absurd (empty.symm.trans none') (List.cons_ne_nil _ _),fun _ =>
        ⟨e,itemHeld inv mem holds,rfl,fun e' member => ?_,rfl,rfl⟩⟩,goneInvariant inv gone⟩
    obtain ⟨j,there,holds',_⟩ := heldItem inv member
    have le := least j there
    rwa [CacheHeap.priorityHeld holds,CacheHeap.priorityHeld holds'] at le

/- Each call in turn. -/
theorem actAnswers (inv : Invariant capacity s) (a : Act K) (legal : Legal s a) :
    ∃ r t, s.act a = some (r,t) ∧ Answers s r t a ∧ Invariant capacity t := by
  cases a with
  | insert key o => exact insertAnswers inv key legal
  | adjust o =>
    obtain ⟨e,mem,rfl⟩ := legal
    exact adjustAnswers inv mem
  | remove o =>
    obtain ⟨e,mem,rfl⟩ := legal
    exact removeAnswers inv mem
  | removeLeast => exact removeLeastAnswers inv

theorem isLfuOfInvariant (inv : Invariant capacity s) : IsLfu capacity s := by
  obtain ⟨f,stored⟩ := inv.stored
  refine ⟨inv.room,inv.exactly,fun e mem => ?_,⟨f,stored.free,stored.apart⟩,fun a legal => ?_⟩
  · obtain ⟨i,inside,holds,proxy⟩ := heldItem inv mem
    exact ⟨i,inside,proxy,holds⟩
  · obtain ⟨r,t,runs,answers,_⟩ := actAnswers inv a legal
    exact ⟨r,t,runs,answers⟩

theorem newInvariant (objs : LfuObjects) : Invariant capacity (new capacity objs : LfuCache K) :=
  ⟨rfl,⟨[],CacheHeap.newStored capacity objs⟩,List.Perm.refl _⟩

theorem stepInvariant {a : Act K} {t : LfuCache K} (inv : Invariant capacity s) (legal : Legal s a)
    (did : s.step a = some t) : Invariant capacity t := by
  obtain ⟨r,t',runs,_,inv'⟩ := actAnswers inv a legal
  simp only [step,runs,Option.map_some] at did
  cases Option.some.inj did
  exact inv'

end Members

end LfuCache

end CuteNdk.Cache
