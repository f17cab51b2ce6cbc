import CuteNdk.CacheManager
import CuteNdk.Lib.Run
import Mathlib.Data.List.Count

/-! The joint invariant of the map, the deque, the pending list and the reference
counts, and from it that nothing is used after it was destroyed. -/
namespace CuteNdk.Cache
open Lib CacheManager

/- An object is dropped and destroyed with no acquisition outstanding, once, and
is not handed out afterwards. -/
def Safe : List Event → Prop
  | [] => True
  | e :: trace => Safe trace ∧ match e with
    | .create o => .destroy o ∉ trace ∧ outstanding trace o = 0
    | .drop o => .destroy o ∉ trace ∧ outstanding trace o = 0
    | .destroy o => .destroy o ∉ trace ∧ outstanding trace o = 0
    | .handOut o => .destroy o ∉ trace
    | .release o => 0 < outstanding trace o

section Trace
variable (trace : List Event) (o p : Obj)

@[simp] theorem outstandingHandOut : outstanding (.handOut p :: trace) o =
    outstanding trace o + if p = o then 1 else 0 := by
  simp only [outstanding,List.count_cons]
  by_cases same : p = o <;> simp [same]
  omega

@[simp] theorem outstandingRelease : outstanding (.release p :: trace) o =
    outstanding trace o - if p = o then 1 else 0 := by
  simp only [outstanding,List.count_cons]
  by_cases same : p = o <;> simp [same]
  omega

@[simp] theorem outstandingCreate : outstanding (.create p :: trace) o = outstanding trace o := by
  simp [outstanding]

@[simp] theorem outstandingDrop : outstanding (.drop p :: trace) o = outstanding trace o := by
  simp [outstanding]

@[simp] theorem outstandingDestroy : outstanding (.destroy p :: trace) o = outstanding trace o := by
  simp [outstanding]

end Trace

variable {K : Type*} [LinearOrder K]

def Stored (m : CacheManager K) (o : Obj) : Prop :=
  ∃ k, m.cacheMap.find k = some o ∨ m.pendingList.find k = some o

structure Live (m : CacheManager K) (o : Obj) : Prop where
  created : o < m.created
  kept : .destroy o ∉ m.trace

/- The items of the deque are l, and correspond to the entries of the map; no
object is stored twice, and the counts are those of the trace. -/
structure Inv (m : CacheManager K) (l f : List Item) : Prop where
  queue : m.cachePriorityQueue.Rep l f
  queued : ∀ i ∈ l, ∃ k o, m.cachePriorityQueue.content i = some (k,o) ∧ m.cacheMap.find k = some o ∧
    (m.objs o).proxy = some i
  mapped : ∀ k o, m.cacheMap.find k = some o →
    ∃ i ∈ l, m.cachePriorityQueue.content i = some (k,o) ∧ (m.objs o).proxy = some i
  live : ∀ o, Stored m o → Live m o
  apart : ∀ k k' o, m.cacheMap.find k = some o → m.pendingList.find k' ≠ some o
  once : ∀ k k' o, m.pendingList.find k = some o → m.pendingList.find k' = some o → k = k'
  counts : ∀ o, (m.objs o).refcount = outstanding m.trace o
  fresh : ∀ o, m.created ≤ o → outstanding m.trace o = 0 ∧ .destroy o ∉ m.trace
  safe : Safe m.trace

theorem newInv (minObjSize maxObjSize high low : BitVec 64) :
    Inv (CacheManager.new minObjSize maxObjSize high low : CacheManager K) [] [] :=
  ⟨CacheDeque.newRep,nofun,nofun,fun o ⟨_,h⟩ => by simp [CacheManager.new,OrderedMap.find,OrderedMap.empty] at h,
    nofun,nofun,fun _ => rfl,fun _ _ => ⟨rfl,nofun⟩,trivial⟩

theorem invWater {m : CacheManager K} {l f : List Item} (h : Inv m l f) (w : BitVec 64) :
    Inv { m with waterMark := w } l f :=
  ⟨h.queue,h.queued,h.mapped,fun o s => ⟨(h.live o s).created,(h.live o s).kept⟩,h.apart,h.once,h.counts,
    h.fresh,h.safe⟩

theorem dropObjectEq (m : CacheManager K) (o : Obj) : m.dropObject o =
    { m with trace :=
      if (m.objs o).observer ≠ none ∧ (m.objs o).refcount = 0 then .drop o :: m.trace else m.trace } := by
  unfold dropObject
  split <;> rfl

theorem dropObjectKeeps (m : CacheManager K) (o p : Obj) :
    (Live (m.dropObject o) p ↔ Live m p) ∧
      outstanding (m.dropObject o).trace p = outstanding m.trace p := by
  rw [dropObjectEq]
  split
  · exact ⟨⟨fun h => ⟨h.created,by simpa using h.kept⟩,fun h => ⟨h.created,by simpa using h.kept⟩⟩,by simp⟩
  · exact ⟨⟨fun h => ⟨h.created,h.kept⟩,fun h => ⟨h.created,h.kept⟩⟩,rfl⟩

theorem dropObjectInv {m : CacheManager K} {l f : List Item} {o : Obj} (h : Inv m l f) (live : Live m o)
    (free : (m.objs o).refcount = 0) : Inv (m.dropObject o) l f := by
  have idle : outstanding m.trace o = 0 := (h.counts o).symm.trans free
  have keeps := dropObjectKeeps m o
  rw [dropObjectEq] at keeps ⊢
  refine ⟨h.queue,h.queued,h.mapped,fun p s => (keeps p).1.2 (h.live p s),h.apart,h.once,
    fun p => (h.counts p).trans (keeps p).2.symm,fun p above => ⟨(keeps p).2.trans (h.fresh p above).1,?_⟩,?_⟩
  · have kept := (h.fresh p above).2
    simp only
    split
    · simpa using kept
    · exact kept
  · simp only
    split
    · exact ⟨h.safe,live.kept,idle⟩
    · exact h.safe

/- The object must be stored nowhere any more. -/
theorem destroyInv {m : CacheManager K} {l f : List Item} {o : Obj} (h : Inv m l f) (loose : ¬ Stored m o)
    (live : Live m o) (free : (m.objs o).refcount = 0) : Inv (m.destroy o) l f := by
  have idle : outstanding m.trace o = 0 := (h.counts o).symm.trans free
  refine ⟨h.queue,h.queued,h.mapped,fun p s => ⟨(h.live p s).created,?_⟩,h.apart,h.once,fun p => ?_,
    fun p above => ?_,⟨h.safe,live.kept,idle⟩⟩
  · have other : p ≠ o := fun same => loose (same ▸ s)
    simpa [destroy,emit,other] using (h.live p s).kept
  · simpa [destroy,emit] using h.counts p
  · have other : p ≠ o := by
      rintro rfl
      exact absurd above (Nat.not_le.2 live.created)
    simpa [destroy,emit,other] using h.fresh p above

theorem retireInv {m : CacheManager K} {l f : List Item} {o : Obj} (h : Inv m l f) (loose : ¬ Stored m o)
    (live : Live m o) (free : (m.objs o).refcount = 0) : Inv ((m.dropObject o).destroy o) l f := by
  have dropped := dropObjectInv h live free
  have still := (dropObjectKeeps m o o).1.2 live
  rw [dropObjectEq] at dropped still ⊢
  exact destroyInv dropped loose still free

/- A pending object that is no longer referenced leaves the list. -/
theorem unpendInv {m : CacheManager K} {l f : List Item} {k : K} {o : Obj} (h : Inv m l f)
    (pending : m.pendingList.find k = some o) :
    Inv { m with pendingList := m.pendingList.erase k } l f ∧
      ¬ Stored { m with pendingList := m.pendingList.erase k } o := by
  refine ⟨⟨h.queue,h.queued,h.mapped,?_,?_,?_,h.counts,h.fresh,h.safe⟩,?_⟩
  · rintro p ⟨j,mapped | waiting⟩
    · exact ⟨(h.live p ⟨j,.inl mapped⟩).created,(h.live p ⟨j,.inl mapped⟩).kept⟩
    · have still := (OrderedMap.findErase.1 waiting).1
      exact ⟨(h.live p ⟨j,.inr still⟩).created,(h.live p ⟨j,.inr still⟩).kept⟩
  · exact fun j j' p mapped waiting => h.apart j j' p mapped (OrderedMap.findErase.1 waiting).1
  · exact fun j j' p a b => h.once j j' p (OrderedMap.findErase.1 a).1 (OrderedMap.findErase.1 b).1
  · rintro ⟨j,mapped | waiting⟩
    · exact h.apart j k o mapped pending
    · obtain ⟨still,other⟩ := OrderedMap.findErase.1 waiting
      exact other (h.once j k o still pending)

theorem flushPendingObjFree {m : CacheManager K} {k : K} {o : Obj} (free : (m.objs o).refcount = 0) :
    m.flushPendingObj (k,o) = ({ m with
      waterMark := m.waterMark - (m.objs o).size,
      pendingList := m.pendingList.erase k }.dropObject o).destroy o := by
  simp only [flushPendingObj,if_pos free]
  rw [dropObjectEq,dropObjectEq]
  rfl

theorem flushPendingObjInv {m : CacheManager K} {l f : List Item} {k : K} {o : Obj} (h : Inv m l f)
    (pending : m.pendingList.find k = some o) : Inv (m.flushPendingObj (k,o)) l f := by
  by_cases free : (m.objs o).refcount = 0
  · obtain ⟨rest,loose⟩ := unpendInv h pending
    have live := h.live o ⟨k,.inr pending⟩
    rw [flushPendingObjFree free]
    exact retireInv (invWater rest (m.waterMark - (m.objs o).size)) loose ⟨live.created,live.kept⟩ free
  · simpa only [flushPendingObj,if_neg free] using h

/- The rule for the loop over the pending list: what one round keeps, the loop
keeps. -/
theorem flushPendingObjsRule {P : CacheManager K → Prop}
    (keeps : ∀ m k o, P m → m.pendingList.find k = some o → P (m.flushPendingObj (k,o)))
    {m : CacheManager K} (h : P m) : P m.flushPendingObjs.1 := by
  have loop : ∀ es : List (K × Obj), (es.map Prod.fst).Nodup → ∀ m : CacheManager K, P m →
      (∀ e ∈ es, m.pendingList.find e.1 = some e.2) → P (es.foldl flushPendingObj m) := by
    intro es
    induction es with
    | nil => exact fun _ m h _ => h
    | cons e es ih =>
      intro keys m h waiting
      obtain ⟨off,keys⟩ := List.nodup_cons.1 keys
      refine ih keys _ (keeps m e.1 e.2 h (waiting e List.mem_cons_self)) fun d hd => ?_
      have still := waiting d (List.mem_cons_of_mem e hd)
      have other : d.1 ≠ e.1 := fun same => off (List.mem_map.2 ⟨d,hd,same⟩)
      by_cases free : (m.objs e.2).refcount = 0
      · rw [flushPendingObjFree free,dropObjectEq]
        exact OrderedMap.findErase.2 ⟨still,other⟩
      · simpa only [flushPendingObj,if_neg free] using still
  unfold flushPendingObjs
  split
  · exact h
  · have swept := loop m.pendingList.entries m.pendingList.keysNodup m h fun e he =>
      OrderedMap.findIff.2 he
    simp only
    split <;> exact swept

theorem flushPendingObjsInv {m : CacheManager K} {l f : List Item} (h : Inv m l f) :
    Inv m.flushPendingObjs.1 l f :=
  flushPendingObjsRule (P := fun m => Inv m l f) (fun _ _ _ => flushPendingObjInv) h

/- The head of the queue leaves the queue and the map. -/
def unqueue (m : CacheManager K) (key : K) (queue : CacheDeque K) : CacheManager K :=
  { m with cachePriorityQueue := queue, cacheMap := m.cacheMap.erase key }

theorem unqueueInv {m : CacheManager K} {i : Item} {l f : List Item} (h : Inv m (i :: l) f) :
    ∃ k o queue, m.cacheMap.find k = some o ∧ m.cachePriorityQueue.content i = some (k,o) ∧
      m.cachePriorityQueue.remove = some (k,o,queue) ∧ Inv (unqueue m k queue) l (i :: f) ∧
      ¬ Stored (unqueue m k queue) o := by
  obtain ⟨k,o,queue,holds,removed,rep,content⟩ := CacheDeque.removeRep h.queue
  obtain ⟨k',o',holds',maps,proxy⟩ := h.queued i List.mem_cons_self
  obtain ⟨rfl,rfl⟩ : k' = k ∧ o' = o := by
    rw [holds] at holds'
    cases holds'
    exact ⟨rfl,rfl⟩
  have off : i ∉ l := (List.nodup_cons.1 (dllNodup h.queue.linked)).1
  have keyOf : ∀ k, m.cacheMap.find k = some o' → k = k' := by
    intro j maps
    obtain ⟨i',-,holds',proxy'⟩ := h.mapped j o' maps
    have same : i' = i := Option.some.inj (proxy'.symm.trans proxy)
    rw [same,holds] at holds'
    cases holds'
    rfl
  refine ⟨k',o',queue,maps,holds,removed,⟨rep,?_,?_,?_,?_,h.once,h.counts,h.fresh,h.safe⟩,?_⟩
  · intro j mem
    obtain ⟨k'',o'',holds'',maps'',proxy''⟩ := h.queued j (List.mem_cons_of_mem i mem)
    refine ⟨k'',o'',(congrFun content j).trans holds'',?_,proxy''⟩
    refine OrderedMap.findErase.2 ⟨maps'',?_⟩
    rintro rfl
    rw [maps] at maps''
    cases maps''
    have same : i = j := Option.some.inj (proxy.symm.trans proxy'')
    exact off (same ▸ mem)
  · intro k'' o'' found
    obtain ⟨maps'',other⟩ := OrderedMap.findErase.1 found
    obtain ⟨j,mem,holds'',proxy''⟩ := h.mapped k'' o'' maps''
    refine ⟨j,?_,(congrFun content j).trans holds'',proxy''⟩
    rcases List.mem_cons.1 mem with rfl | mem
    · rw [holds] at holds''
      cases holds''
      exact absurd rfl other
    · exact mem
  · rintro p ⟨j,found | waiting⟩
    · have maps'' := (OrderedMap.findErase.1 found).1
      exact ⟨(h.live p ⟨j,.inl maps''⟩).created,(h.live p ⟨j,.inl maps''⟩).kept⟩
    · exact ⟨(h.live p ⟨j,.inr waiting⟩).created,(h.live p ⟨j,.inr waiting⟩).kept⟩
  · exact fun j j' p found waiting => h.apart j j' p (OrderedMap.findErase.1 found).1 waiting
  · rintro ⟨j,found | waiting⟩
    · obtain ⟨maps'',other⟩ := OrderedMap.findErase.1 found
      exact other (keyOf j maps'')
    · exact h.apart k' j o' maps waiting

/- Where the key has an object pending already, the insertion into the pending
list changes nothing. -/
theorem dropIInv {m : CacheManager K} {l f : List Item} {k : K} {o : Obj} (h : Inv m l f)
    (loose : ¬ Stored m o) (live : Live m o) : Inv (m.dropI k o).1 l f := by
  unfold dropI
  split
  · rename_i free
    exact retireInv h loose live free
  · cases waits : m.pendingList.find k with
    | some p =>
      rw [OrderedMap.insertPresent waits]
      exact h
    | none =>
      refine ⟨h.queue,h.queued,h.mapped,?_,?_,?_,h.counts,h.fresh,h.safe⟩
      · rintro p ⟨j,mapped | waiting⟩
        · exact ⟨(h.live p ⟨j,.inl mapped⟩).created,(h.live p ⟨j,.inl mapped⟩).kept⟩
        · rcases (OrderedMap.findInsert waits).1 waiting with ⟨rfl,rfl⟩ | waiting
          · exact ⟨live.created,live.kept⟩
          · exact ⟨(h.live p ⟨j,.inr waiting⟩).created,(h.live p ⟨j,.inr waiting⟩).kept⟩
      · intro j j' p mapped waiting
        rcases (OrderedMap.findInsert waits).1 waiting with ⟨rfl,rfl⟩ | waiting
        · exact loose ⟨j,.inl mapped⟩
        · exact h.apart j j' p mapped waiting
      · intro j j' p found found'
        rcases (OrderedMap.findInsert waits).1 found with ⟨rfl,rfl⟩ | old <;>
          rcases (OrderedMap.findInsert waits).1 found' with ⟨rfl,same⟩ | old'
        · rfl
        · exact absurd ⟨j',.inr old'⟩ loose
        · exact absurd ⟨j,.inr (same ▸ old)⟩ loose
        · exact h.once j j' p old old'

theorem evictEmpty {m : CacheManager K} {f : List Item} (h : Inv m [] f) : m.evict = none := by
  simp [evict,CacheDeque.removeEmpty h.queue]

/- The dropped object's size leaves the water mark unless it is still referenced. -/
theorem evictHead {m : CacheManager K} {i : Item} {l f : List Item} (h : Inv m (i :: l) f) :
    ∃ k o queue, m.cacheMap.find k = some o ∧ m.cachePriorityQueue.content i = some (k,o) ∧
      m.cachePriorityQueue.remove = some (k,o,queue) ∧
      Inv (unqueue m k queue) l (i :: f) ∧ ¬ Stored (unqueue m k queue) o ∧
      m.evict = some { ((unqueue m k queue).dropI k o).1 with
        waterMark := if (m.objs o).refcount = 0 then m.waterMark - (m.objs o).size else m.waterMark } := by
  obtain ⟨k,o,queue,maps,holds,removed,inv,loose⟩ := unqueueInv h
  refine ⟨k,o,queue,maps,holds,removed,inv,loose,?_⟩
  have evicts : m.evict = some (if ((unqueue m k queue).dropI k o).2 = 0 then
      { ((unqueue m k queue).dropI k o).1 with
        waterMark := ((unqueue m k queue).dropI k o).1.waterMark - (m.objs o).size }
      else ((unqueue m k queue).dropI k o).1) := by
    unfold evict
    rw [removed]
    rfl
  rw [evicts]
  by_cases free : (m.objs o).refcount = 0
  · have drops : (unqueue m k queue).dropI k o = (((unqueue m k queue).dropObject o).destroy o,0) := if_pos free
    rw [drops,if_pos rfl,if_pos free,dropObjectEq]
    rfl
  · have waits : (unqueue m k queue).dropI k o =
        ({ unqueue m k queue with pendingList := m.pendingList.insert k o },-1) := if_neg free
    rw [waits,if_neg (show (-1 : Int) ≠ 0 by decide),if_neg free]
    rfl

theorem evictInv {m m' : CacheManager K} {l f : List Item} (h : Inv m l f) (evicts : m.evict = some m') :
    ∃ i l', l = i :: l' ∧ Inv m' l' (i :: f) := by
  cases l with
  | nil => rw [evictEmpty h] at evicts; contradiction
  | cons i l =>
    obtain ⟨k,o,queue,maps,-,-,inv,loose,result⟩ := evictHead h
    rw [result] at evicts
    cases Option.some.inj evicts
    have live := h.live o ⟨k,.inl maps⟩
    exact ⟨i,l,rfl,invWater (dropIInv inv loose ⟨live.created,live.kept⟩) _⟩

theorem flushIInv {m : CacheManager K} {l f : List Item} (h : Inv m l f) : ∃ l' f', Inv m.flushI.1 l' f' := by
  have flushed := flushPendingObjsInv h
  unfold flushI
  simp only
  split
  · exact ⟨l,f,flushed⟩
  · split
    · rename_i evicts
      obtain ⟨i,l',-,inv⟩ := evictInv flushed evicts
      exact ⟨l',i :: f,inv⟩
    · exact ⟨l,f,flushed⟩

/- The rules for the two loops: what a round keeps, the loop keeps. -/
theorem dropSomeRule {P : CacheManager K → Prop} (keeps : ∀ m, P m → P m.flushI.1) {fuel : Nat}
    {m m' : CacheManager K} {result : Int} (h : P m) (ends : dropSome fuel m = some (m',result)) : P m' := by
  induction fuel generalizing m with
  | zero => contradiction
  | succ fuel ih =>
    have next := keeps m h
    simp only [dropSome] at ends
    split at ends
    · cases Option.some.inj ends
      exact next
    · split at ends
      · exact ih next ends
      · cases Option.some.inj ends
        exact next

theorem dropAllRule {P : CacheManager K → Prop} (keeps : ∀ m m', P m → m.evict = some m' → P m') {fuel : Nat}
    {m m' : CacheManager K} (h : P m) (ends : dropAll fuel m = some m') : P m' := by
  induction fuel generalizing m with
  | zero => contradiction
  | succ fuel ih =>
    simp only [dropAll] at ends
    split at ends
    · cases Option.some.inj ends
      exact h
    · rename_i evicts
      exact ih (keeps m _ h evicts) ends

def Invariant (m : CacheManager K) : Prop := ∃ l f, Inv m l f

theorem evictInvariant (m m' : CacheManager K) (h : Invariant m) (evicts : m.evict = some m') :
    Invariant m' := by
  obtain ⟨l,f,inv⟩ := h
  obtain ⟨i,l',-,inv'⟩ := evictInv inv evicts
  exact ⟨l',i :: f,inv'⟩

theorem flushIInvariant (m : CacheManager K) (h : Invariant m) : Invariant m.flushI.1 := by
  obtain ⟨l,f,inv⟩ := h
  exact flushIInv inv

/- The counts and the trace change together, and nothing else does. -/
theorem countedInv {m : CacheManager K} {l f : List Item} (h : Inv m l f) {objs : Objects} {e : Event}
    (proxies : ∀ p, (objs p).proxy = (m.objs p).proxy) (keeps : ∀ p, e ≠ .destroy p)
    (counts : ∀ p, (objs p).refcount = outstanding (e :: m.trace) p)
    (fresh : ∀ p, m.created ≤ p → outstanding (e :: m.trace) p = 0) (safe : Safe (e :: m.trace)) :
    Inv { m.emit e with objs := objs } l f := by
  have kept {p : Obj} (old : .destroy p ∉ m.trace) : .destroy p ∉ e :: m.trace := by
    rw [List.mem_cons,not_or]
    exact ⟨(keeps p).symm,old⟩
  refine ⟨h.queue,fun i mem => ?_,fun k p found => ?_,fun p s => ⟨(h.live p s).created,kept (h.live p s).kept⟩,
    h.apart,h.once,counts,fun p above => ⟨fresh p above,kept (h.fresh p above).2⟩,safe⟩
  · obtain ⟨k,p,holds,found,proxy⟩ := h.queued i mem
    exact ⟨k,p,holds,found,(proxies p).trans proxy⟩
  · obtain ⟨i,mem,holds,proxy⟩ := h.mapped k p found
    exact ⟨i,mem,holds,(proxies p).trans proxy⟩

/- Handing out a live object counts the acquisition on both sides. -/
theorem handOutInv {m : CacheManager K} {l f : List Item} {o : Obj} (h : Inv m l f) (live : Live m o) :
    Inv ({ m with objs := m.objs.acquire o }.emit (.handOut o)) l f := by
  refine countedInv h (fun p => ?_) (fun _ => nofun) (fun p => ?_) (fun p above => ?_) ⟨h.safe,live.kept⟩
  · by_cases same : p = o
    · subst same
      simp [Objects.acquire]
    · simp [Objects.acquire,same]
  · by_cases same : p = o
    · subst same
      simp [Objects.acquire,h.counts p]
    · simp [Objects.acquire,h.counts p,same,Ne.symm same]
  · have other : o ≠ p := by
      rintro rfl
      exact absurd above (Nat.not_le.2 live.created)
    simpa [other] using (h.fresh p above).1

theorem releaseInv {m : CacheManager K} {l f : List Item} {o : Obj} (h : Inv m l f)
    (held : 0 < outstanding m.trace o) :
    Inv { m.emit (.release o) with objs := m.objs.release o } l f := by
  refine countedInv h (fun p => ?_) (fun _ => nofun) (fun p => ?_) (fun p above => ?_) ⟨h.safe,held⟩
  · by_cases same : p = o
    · subst same
      simp [Objects.release]
    · simp [Objects.release,same]
  · by_cases same : p = o
    · subst same
      simp [Objects.release,h.counts p]
    · simp [Objects.release,h.counts p,same,Ne.symm same]
  · have idle := (h.fresh p above).1
    have other : o ≠ p := by
      rintro rfl
      omega
    simpa [other] using idle

theorem reorderInv {m : CacheManager K} {queue : CacheDeque K} {l l' f f' : List Item} (h : Inv m l f)
    (rep : queue.Rep l' f') (content : queue.content = m.cachePriorityQueue.content)
    (among : ∀ i, i ∈ l' ↔ i ∈ l) : Inv { m with cachePriorityQueue := queue } l' f' := by
  refine ⟨rep,fun i mem => ?_,fun k o found => ?_,fun o s => ⟨(h.live o s).created,(h.live o s).kept⟩,
    h.apart,h.once,h.counts,h.fresh,h.safe⟩
  · obtain ⟨k,o,holds,found,proxy⟩ := h.queued i ((among i).1 mem)
    exact ⟨k,o,(congrFun content i).trans holds,found,proxy⟩
  · obtain ⟨i,mem,holds,proxy⟩ := h.mapped k o found
    exact ⟨i,(among i).2 mem,(congrFun content i).trans holds,proxy⟩

theorem getIInv {m : CacheManager K} {l f : List Item} (h : Inv m l f) (key : K) :
    ∃ l', Inv (handOut (m.getI key)) l' f := by
  unfold getI
  cases cached : m.cacheMap.find key with
  | some o =>
    obtain ⟨i,mem,holds,proxy⟩ := h.mapped key o cached
    obtain ⟨l₁,l₂,rfl⟩ := List.append_of_mem mem
    obtain ⟨rep,objs,content⟩ := CacheDeque.adjustRep h.queue holds m.objs
    have reordered := reorderInv h rep content fun j => by
      simp only [List.mem_append,List.mem_cons]
      tauto
    have live := h.live o ⟨key,.inl cached⟩
    have result := handOutInv reordered (o := o) ⟨live.created,live.kept⟩
    refine ⟨l₁ ++ l₂ ++ [i],?_⟩
    simp only [handOut,proxy,objs]
    exact result
  | none =>
    simp only [getPendingObj]
    cases waits : m.pendingList.find key with
    | none => exact ⟨l,h⟩
    | some o => exact ⟨l,handOutInv h (h.live o ⟨key,.inr waits⟩)⟩

theorem createInv {m : CacheManager K} {l f : List Item} (h : Inv m l f) (data : Address) (size : BitVec 64)
    (ob : Option Address) :
    Inv (m.create data size ob).1 l f ∧ Live (m.create data size ob).1 m.created ∧
      ¬ Stored (m.create data size ob).1 m.created ∧
      ((m.create data size ob).1.objs m.created).refcount = 0 := by
  have idle := h.fresh m.created (Nat.le_refl _)
  have old : ∀ o, Stored m o → o ≠ m.created := fun o s => Nat.ne_of_lt (h.live o s).created
  refine ⟨⟨h.queue,fun i mem => ?_,fun k o found => ?_,fun o s => ⟨?_,?_⟩,h.apart,h.once,fun o => ?_,
    fun o above => ?_,⟨h.safe,idle.2,idle.1⟩⟩,⟨Nat.lt_succ_self _,by simpa [create,emit] using idle.2⟩,
    fun s => old _ s rfl,by simp [create]⟩
  · obtain ⟨k,o,holds,found,proxy⟩ := h.queued i mem
    refine ⟨k,o,holds,found,?_⟩
    simpa [create,old o ⟨k,.inl found⟩] using proxy
  · obtain ⟨i,mem,holds,proxy⟩ := h.mapped k o found
    refine ⟨i,mem,holds,?_⟩
    simpa [create,old o ⟨k,.inl found⟩] using proxy
  · exact Nat.lt_succ_of_lt (h.live o s).created
  · simpa [create,emit] using (h.live o s).kept
  · by_cases same : o = m.created
    · subst same
      simp [create,emit,idle.1]
    · simpa [create,emit,same] using h.counts o
  · simpa [create,emit] using h.fresh o (Nat.le_of_succ_le above)

/- A new object goes to the end of the deque and into the map. -/
theorem enqueueInv {m : CacheManager K} {l f : List Item} {o : Obj} (h : Inv m l f) {key : K}
    (absent : m.cacheMap.find key = none) (loose : ¬ Stored m o) (live : Live m o) :
    ∃ i f', (∀ objs, (m.cachePriorityQueue.insert objs key o).2 = objs.setProxy o i) ∧
      Inv { m with
        cacheMap := m.cacheMap.insert key o
        cachePriorityQueue := (m.cachePriorityQueue.insert m.objs key o).1
        objs := m.objs.setProxy o i } (l ++ [i]) f' := by
  obtain ⟨i,f',off,rep,objs,content⟩ := CacheDeque.insertRep h.queue m.objs key o
  have other : ∀ p, Stored m p → p ≠ o := fun p s same => loose (same ▸ s)
  refine ⟨i,f',objs,rep,fun j mem => ?_,fun k p found => ?_,?_,?_,h.once,fun p => ?_,h.fresh,h.safe⟩
  · simp only [content]
    rcases List.mem_append.1 mem with mem | mem
    · obtain ⟨k,p,holds,found,proxy⟩ := h.queued j mem
      have apart : j ≠ i := fun same => off (same ▸ mem)
      refine ⟨k,p,?_,(OrderedMap.findInsert absent).2 (.inr found),?_⟩
      · rw [Function.update_of_ne apart]
        exact holds
      · simpa [Objects.setProxy,other p ⟨k,.inl found⟩] using proxy
    · obtain rfl := List.mem_singleton.1 mem
      exact ⟨key,o,Function.update_self _ _ _,(OrderedMap.findInsert absent).2 (.inl ⟨rfl,rfl⟩),
        by simp [Objects.setProxy]⟩
  · simp only [content]
    rcases (OrderedMap.findInsert absent).1 found with ⟨rfl,rfl⟩ | found
    · exact ⟨i,by simp,Function.update_self _ _ _,by simp [Objects.setProxy]⟩
    · obtain ⟨j,mem,holds,proxy⟩ := h.mapped k p found
      have apart : j ≠ i := fun same => off (same ▸ mem)
      refine ⟨j,List.mem_append_left _ mem,?_,?_⟩
      · rw [Function.update_of_ne apart]
        exact holds
      · simpa [Objects.setProxy,other p ⟨k,.inl found⟩] using proxy
  · rintro p ⟨k,found | waiting⟩
    · rcases (OrderedMap.findInsert absent).1 found with ⟨rfl,rfl⟩ | found
      · exact ⟨live.created,live.kept⟩
      · exact ⟨(h.live p ⟨k,.inl found⟩).created,(h.live p ⟨k,.inl found⟩).kept⟩
    · exact ⟨(h.live p ⟨k,.inr waiting⟩).created,(h.live p ⟨k,.inr waiting⟩).kept⟩
  · intro k k' p found waiting
    rcases (OrderedMap.findInsert absent).1 found with ⟨rfl,rfl⟩ | found
    · exact loose ⟨k',.inr waiting⟩
    · exact h.apart k k' p found waiting
  · by_cases same : p = o
    · subst same
      simpa [Objects.setProxy] using h.counts p
    · simpa [Objects.setProxy,same] using h.counts p

theorem acquireSetProxy (objs : Objects) (o : Obj) (i : Item) :
    (objs.acquire o).setProxy o i = (objs.setProxy o i).acquire o := by
  simp [Objects.acquire,Objects.setProxy]

/- make_cobj leaves all as it is, or makes room and then an object. -/
theorem makeCobjCases {m m' : CacheManager K} {data : Address} {size : BitVec 64} {ob : Option Address}
    {made : Option Obj} (makes : m.makeCobj data size ob = some (m',made)) :
    ((size > m.cobjMaxSize ∨ size < m.cobjMinSize) ∧ m' = m ∧ made = none) ∨ (¬ (size > m.cobjMaxSize ∨ size < m.cobjMinSize) ∧
      ∃ m₁ result, m.checkWaterMark size = some (m₁,result) ∧
        ((m' = m₁ ∧ made = none) ∨
          (result ≠ -1 ∧ m' = (m₁.create data size ob).1 ∧ made = some m₁.created))) := by
  unfold makeCobj at makes
  split at makes
  · cases Option.some.inj makes
    exact .inl ⟨‹_›,rfl,rfl⟩
  · rename_i fits
    simp only [bind,Option.bind_eq_some_iff] at makes
    obtain ⟨⟨m₁,result⟩,room,makes⟩ := makes
    refine .inr ⟨fits,m₁,result,room,?_⟩
    simp only at makes
    split at makes
    · cases Option.some.inj makes
      exact .inl ⟨rfl,rfl⟩
    · cases Option.some.inj makes
      exact .inr ⟨‹_›,rfl,rfl⟩

theorem checkWaterMarkInvariant {m m' : CacheManager K} {size : BitVec 64} {result : Int} (h : Invariant m)
    (room : m.checkWaterMark size = some (m',result)) : Invariant m' := by
  unfold checkWaterMark at room
  split at room
  · exact dropSomeRule flushIInvariant h room
  · cases Option.some.inj room
    exact h

/- What put does with the object made: it is refused, or it goes to the end of
the deque. -/
def placed (m : CacheManager K) (key : K) (cobj : Obj) : CacheManager K × Option Obj :=
  if m.cacheMap.find key ≠ none then (m.destroy cobj,none)
  else
    ({ m with
      cacheMap := m.cacheMap.insert key cobj
      cachePriorityQueue := (m.cachePriorityQueue.insert (m.objs.acquire cobj) key cobj).1
      objs := (m.cachePriorityQueue.insert (m.objs.acquire cobj) key cobj).2
      waterMark := m.waterMark + ((m.cachePriorityQueue.insert (m.objs.acquire cobj) key cobj).2 cobj).size },
      some cobj)

theorem putICases {m : CacheManager K} {key : K} {data : Option Address} {size : BitVec 64}
    {ob : Option Address} {r : CacheManager K × Option Obj} (puts : m.putI key data size ob = some r) :
    ((data = none ∨ size > m.cobjMaxSize ∨ size < m.cobjMinSize) ∧ r = (m,none)) ∨
    (data ≠ none ∧ ¬ (size > m.cobjMaxSize ∨ size < m.cobjMinSize) ∧
      ∃ m₁ result, m.checkWaterMark size = some (m₁,result) ∧
        (r = (m₁,none) ∨
          result ≠ -1 ∧ ∃ data, r = placed (m₁.create data size ob).1 key m₁.created)) := by
  cases data with
  | none => exact .inl ⟨.inl rfl,(Option.some.inj puts).symm⟩
  | some data =>
    simp only [putI,bind,Option.bind_eq_some_iff] at puts
    obtain ⟨⟨m',made⟩,makes,puts⟩ := puts
    rcases makeCobjCases makes with ⟨bounds,rfl,rfl⟩ | ⟨fits,m₁,result,room,made⟩
    · exact .inl ⟨.inr bounds,(Option.some.inj puts).symm⟩
    · refine .inr ⟨nofun,fits,m₁,result,room,?_⟩
      rcases made with ⟨rfl,rfl⟩ | ⟨made,rfl,rfl⟩
      · exact .inl (Option.some.inj puts).symm
      · refine .inr ⟨made,data,?_⟩
        unfold placed
        simp only at puts
        split at puts
        · rw [if_pos ‹_›]
          exact (Option.some.inj puts).symm
        · rw [if_neg ‹_›]
          exact (Option.some.inj puts).symm

theorem placedInv {m : CacheManager K} {l f : List Item} {o : Obj} (h : Inv m l f) (loose : ¬ Stored m o)
    (live : Live m o) (free : (m.objs o).refcount = 0) (key : K) :
    Invariant (handOut (placed m key o)) := by
  unfold placed
  cases absent : m.cacheMap.find key with
  | some p =>
    rw [if_pos nofun]
    exact ⟨l,f,destroyInv h loose live free⟩
  | none =>
    obtain ⟨i,f',objs,queued⟩ := enqueueInv h absent loose live
    have acquired := handOutInv queued (o := o) ⟨live.created,live.kept⟩
    rw [if_neg (not_not.2 rfl),objs,acquireSetProxy]
    exact ⟨l ++ [i],f',invWater acquired _⟩

theorem putIInv {m : CacheManager K} {key : K} {data : Option Address} {size : BitVec 64} {ob : Option Address}
    {r : CacheManager K × Option Obj} (h : Invariant m) (puts : m.putI key data size ob = some r) :
    Invariant (handOut r) := by
  rcases putICases puts with ⟨-,rfl⟩ | ⟨-,-,m₁,result,room,made⟩
  · exact h
  · have kept := checkWaterMarkInvariant h room
    rcases made with rfl | ⟨-,data,rfl⟩
    · exact kept
    · obtain ⟨l,f,inv⟩ := kept
      obtain ⟨inv,live,loose,free⟩ := createInv inv data size ob
      exact placedInv inv loose live free key

theorem flushAllInv {m m' : CacheManager K} (h : Invariant m) (flushes : m.flushAll = some m') :
    Invariant m' := by
  obtain ⟨l,f,inv⟩ := h
  exact dropAllRule evictInvariant ⟨l,f,flushPendingObjsInv inv⟩ flushes

theorem stepInv {m m' : CacheManager K} {a : Act K} (h : Invariant m) (steps : step m a = some m') :
    Invariant m' := by
  cases a with
  | put key data size ob =>
    obtain ⟨r,puts,rfl⟩ := Option.map_eq_some_iff.1 steps
    exact putIInv h puts
  | get key =>
    obtain ⟨l,f,inv⟩ := h
    obtain ⟨l',inv'⟩ := getIInv inv key
    cases Option.some.inj steps
    exact ⟨l',f,inv'⟩
  | release o =>
    obtain ⟨l,f,inv⟩ := h
    simp only [step] at steps
    split at steps
    · cases Option.some.inj steps
      exact ⟨l,f,releaseInv inv ‹_›⟩
    · contradiction
  | flush =>
    cases Option.some.inj steps
    exact flushIInvariant m h
  | flushAll => exact flushAllInv h steps

/- The count of an object is the number of acquisitions outstanding, and what
has happened to the objects so far is safe. -/
structure UseSafe (m : CacheManager K) : Prop where
  counts : ∀ o, (m.objs o).refcount = outstanding m.trace o
  safe : Safe m.trace

theorem neverUsedAfterDestroy (minObjSize maxObjSize high low : BitVec 64) (as : List (Act K)) :
    Always step UseSafe (CacheManager.new minObjSize maxObjSize high low : CacheManager K) as := by
  have start : Invariant (CacheManager.new minObjSize maxObjSize high low : CacheManager K) :=
    ⟨[],[],newInv minObjSize maxObjSize high low⟩
  have invariant : Always step Invariant (CacheManager.new minObjSize maxObjSize high low : CacheManager K) as :=
    alwaysInvariant (fun _ _ _ => stepInv) start as
  exact alwaysMono (fun m ⟨l,f,inv⟩ => ⟨inv.counts,inv.safe⟩) invariant

/- The loops end: a round that goes on has shortened the deque. -/
theorem dropSomeEnds {fuel : Nat} {m : CacheManager K} {l f : List Item} (h : Inv m l f)
    (enough : l.length < fuel) : ∃ r, dropSome fuel m = some r := by
  induction fuel generalizing m l f with
  | zero => omega
  | succ fuel ih =>
    have flushed := flushPendingObjsInv h
    simp only [dropSome]
    split
    · exact ⟨_,rfl⟩
    · rename_i going
      split
      · rename_i high
        unfold flushI at going high ⊢
        simp only at going high ⊢
        split at high
        · rename_i zero
          have low : m.flushPendingObjs.1.waterMark ≤ m.flushPendingObjs.1.lowWaterMark := by
            unfold flushPendingObjs at zero ⊢
            split at zero
            · contradiction
            · simp only at zero ⊢
              rw [if_neg ‹_›]
              split at zero
              · rename_i low
                rw [if_pos low]
                exact low
              · contradiction
          exact absurd high (BitVec.not_lt.2 low)
        · rename_i more
          rw [if_neg more] at going ⊢
          cases evicts : m.flushPendingObjs.1.evict with
          | none => simp [evicts] at going
          | some m' =>
            obtain ⟨i,l',rfl,inv⟩ := evictInv flushed evicts
            exact ih inv (by simpa using enough)
      · exact ⟨_,rfl⟩

theorem dropAllEnds {fuel : Nat} {m : CacheManager K} {l f : List Item} (h : Inv m l f)
    (enough : l.length < fuel) : ∃ m', dropAll fuel m = some m' := by
  induction fuel generalizing m l f with
  | zero => omega
  | succ fuel ih =>
    simp only [dropAll]
    split
    · exact ⟨m,rfl⟩
    · rename_i evicts
      obtain ⟨i,l',rfl,inv⟩ := evictInv h evicts
      exact ih inv (by simpa using enough)

theorem enoughFuel {m : CacheManager K} {l f : List Item} (h : Inv m l f) :
    l.length < m.cachePriorityQueue.size.toNat + 1 := by
  rw [h.queue.size]
  omega

/- Every call returns, so only a release the caller may not make is no step. -/
theorem callsReturn {m : CacheManager K} (h : Invariant m) (a : Act K) (call : ∀ o, a ≠ .release o) :
    ∃ m', step m a = some m' := by
  obtain ⟨l,f,inv⟩ := h
  cases a with
  | put key data size ob =>
    cases data with
    | none => exact ⟨_,rfl⟩
    | some data =>
      have made : ∃ r, m.makeCobj data size ob = some r := by
        unfold makeCobj
        split
        · exact ⟨_,rfl⟩
        · have room : ∃ r, m.checkWaterMark size = some r := by
            unfold checkWaterMark
            split
            · exact dropSomeEnds inv (enoughFuel inv)
            · exact ⟨_,rfl⟩
          obtain ⟨⟨m₁,result⟩,room⟩ := room
          simp only [room,bind,Option.bind]
          split <;> exact ⟨_,rfl⟩
      obtain ⟨⟨m₁,cobj⟩,made⟩ := made
      simp only [step,putI,made,bind,Option.bind]
      cases cobj with
      | none => exact ⟨_,rfl⟩
      | some cobj =>
        simp only
        split <;> exact ⟨_,rfl⟩
  | get key => exact ⟨_,rfl⟩
  | release o => exact absurd rfl (call o)
  | flush => exact ⟨_,rfl⟩
  | flushAll =>
    have flushed := flushPendingObjsInv inv
    exact dropAllEnds flushed (enoughFuel flushed)

end CuteNdk.Cache
