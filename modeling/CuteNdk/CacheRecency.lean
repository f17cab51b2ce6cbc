import CuteNdk.CacheBound
import Mathlib.Data.List.Dedup

/-! The deque as the order of use: it lists the keys of the map from the one whose
last use is longest ago to the one used last, and evictions take it from the
front. -/
namespace CuteNdk.Cache
open Lib CacheManager

section Recent
variable {K : Type*} [DecidableEq K]

/- A further use of a key moves it behind all others. -/
theorem dedupConcat (l : List K) (k : K) : (l ++ [k]).dedup = (l.dedup.filter fun j => j ≠ k) ++ [k] := by
  induction l with
  | nil => simp
  | cons a l ih =>
    by_cases again : a ∈ l
    · rw [List.dedup_cons_of_mem again,← ih,List.cons_append]
      exact List.dedup_cons_of_mem (List.mem_append_left _ again)
    · rw [List.dedup_cons_of_notMem again]
      by_cases same : a = k
      · subst same
        rw [List.filter_cons_of_neg (by simp),← ih,List.cons_append]
        exact List.dedup_cons_of_mem (by simp)
      · have apart : a ∉ l ++ [k] := by simp [again,same]
        rw [List.filter_cons_of_pos (by simpa using same),List.cons_append,List.cons_append,← ih]
        exact List.dedup_cons_of_notMem apart

end Recent

variable {K : Type*} [LinearOrder K]

/- The keys in the map, in the order of their last use, where uses has the keys
put or found in the map so far, oldest first. -/
def recent (uses : List K) (map : OrderedMap K Obj) : List K :=
  uses.dedup.filter fun k => (map.find k).isSome

theorem recentNodup (uses : List K) (map : OrderedMap K Obj) : (recent uses map).Nodup :=
  (List.nodup_dedup uses).filter _

theorem findEraseSome (map : OrderedMap K Obj) (k j : K) :
    ((map.erase k).find j).isSome = ((map.find j).isSome && decide (j ≠ k)) := by
  rw [Bool.eq_iff_iff,Bool.and_eq_true,decide_eq_true_iff,Option.isSome_iff_exists,Option.isSome_iff_exists]
  simp only [OrderedMap.findErase,exists_and_right]

theorem recentErase {uses : List K} {map : OrderedMap K Obj} {k : K} {ks : List K}
    (first : recent uses map = k :: ks) : recent uses (map.erase k) = ks := by
  have off : k ∉ ks := (List.nodup_cons.1 (first ▸ recentNodup uses map)).1
  have split : recent uses (map.erase k) = (recent uses map).filter fun j => j ≠ k := by
    unfold recent
    rw [List.filter_filter]
    refine List.filter_congr fun j _ => ?_
    rw [findEraseSome,Bool.and_comm]
  rw [split,first,List.filter_cons_of_neg (by simp)]
  refine List.filter_eq_self.2 fun j mem => ?_
  have other : j ≠ k := fun same => off (same ▸ mem)
  simpa using other

theorem recentUse {uses : List K} {map : OrderedMap K Obj} {k : K} (cached : (map.find k).isSome) :
    recent (uses ++ [k]) map = ((recent uses map).filter fun j => j ≠ k) ++ [k] := by
  unfold recent
  rw [dedupConcat,List.filter_append,List.filter_cons_of_pos (by simpa using cached),List.filter_nil,
    List.filter_filter,List.filter_filter]
  congr 1
  exact List.filter_congr fun j _ => Bool.and_comm _ _

theorem recentPut {uses : List K} {map : OrderedMap K Obj} {k : K} (o : Obj) (absent : map.find k = none) :
    recent (uses ++ [k]) (map.insert k o) = recent uses map ++ [k] := by
  have found : ∀ j, ((map.insert k o).find j).isSome = (decide (j = k) || (map.find j).isSome) := by
    intro j
    rw [Bool.eq_iff_iff,Bool.or_eq_true,decide_eq_true_iff,Option.isSome_iff_exists,Option.isSome_iff_exists]
    simp only [OrderedMap.findInsert absent]
    constructor
    · rintro ⟨v,⟨same,-⟩ | old⟩
      · exact .inl same
      · exact .inr ⟨v,old⟩
    · rintro (same | ⟨v,old⟩)
      · exact ⟨o,.inl ⟨same,rfl⟩⟩
      · exact ⟨v,.inr old⟩
  rw [recentUse (by simp [found])]
  congr 1
  unfold recent
  rw [List.filter_filter]
  refine List.filter_congr fun j _ => ?_
  by_cases same : j = k
  · subst same
    simp [absent]
  · simp [found,same]

/- What the links, the map and the proxies say together, l being the items of the
deque from head to tail and f its free items. -/
structure LruList (m : CacheManager K) (uses : List K) (l f : List Item) : Prop where
  linked : Dll m.cachePriorityQueue.next m.cachePriorityQueue.prev m.cachePriorityQueue.dequeHead
    m.cachePriorityQueue.dequeTail l
  size : m.cachePriorityQueue.size = l.length
  free : Seg m.cachePriorityQueue.next m.cachePriorityQueue.freeQueue f none
  apart : ∀ i ∈ f, i ∉ l
  queued : ∀ i ∈ l, ∃ k o, m.cachePriorityQueue.content i = some (k,o) ∧ m.cacheMap.find k = some o ∧
    (m.objs o).proxy = some i
  mapped : ∀ k o, m.cacheMap.find k = some o →
    ∃ i ∈ l, m.cachePriorityQueue.content i = some (k,o) ∧ (m.objs o).proxy = some i
  order : l.map (fun i => (m.cachePriorityQueue.content i).map Prod.fst) = (recent uses m.cacheMap).map some

theorem lruList {m : CacheManager K} {l f : List Item} (h : Inv m l f) {uses : List K}
    (order : l.map (fun i => (m.cachePriorityQueue.content i).map Prod.fst) = (recent uses m.cacheMap).map some) :
    LruList m uses l f :=
  ⟨h.queue.linked,h.queue.size,h.queue.free,h.queue.apart,h.queued,h.mapped,order⟩

/- The invariant with the order of the items. -/
def Ordered (m : CacheManager K) (uses : List K) : Prop :=
  ∃ l f, Inv m l f ∧
    l.map (fun i => (m.cachePriorityQueue.content i).map Prod.fst) = (recent uses m.cacheMap).map some

theorem flushPendingObjOrdered {m : CacheManager K} {uses : List K} {k : K} {o : Obj} (h : Ordered m uses)
    (waits : m.pendingList.find k = some o) : Ordered (m.flushPendingObj (k,o)) uses := by
  obtain ⟨l,f,inv,order⟩ := h
  refine ⟨l,f,flushPendingObjInv inv waits,?_⟩
  by_cases free : (m.objs o).refcount = 0
  · rw [flushPendingObjFree free,dropObjectEq]
    exact order
  · simpa only [flushPendingObj,if_neg free] using order

theorem dropIQueue (m : CacheManager K) (k : K) (o : Obj) :
    (m.dropI k o).1.cachePriorityQueue = m.cachePriorityQueue ∧ (m.dropI k o).1.cacheMap = m.cacheMap := by
  unfold dropI
  split
  · rw [dropObjectEq]
    exact ⟨rfl,rfl⟩
  · exact ⟨rfl,rfl⟩

/- The head of the deque has the least recently used key. -/
theorem orderedHead {m : CacheManager K} {uses : List K} (h : Ordered m uses) {k : K} {o : Obj}
    {queue : CacheDeque K} (removed : m.cachePriorityQueue.remove = some (k,o,queue)) :
    (recent uses m.cacheMap).head? = some k := by
  obtain ⟨l,f,inv,order⟩ := h
  cases l with
  | nil => rw [CacheDeque.removeEmpty inv.queue] at removed; contradiction
  | cons i l =>
    obtain ⟨k',o',queue',-,holds,removed',-⟩ := unqueueInv inv
    rw [removed] at removed'
    cases removed'
    have heads := congrArg List.head? order
    simp only [List.map_cons,holds,Option.map_some,List.head?_cons,List.head?_map] at heads
    cases first : (recent uses m.cacheMap).head? with
    | none => simp [first] at heads
    | some j =>
      rw [first] at heads
      simp only [Option.map_some,Option.some.injEq] at heads
      rw [heads]

theorem evictOrdered {m m' : CacheManager K} {uses : List K} (h : Ordered m uses) (evicts : m.evict = some m') :
    Ordered m' uses := by
  have head := @orderedHead _ _ _ _ h
  obtain ⟨l,f,inv,order⟩ := h
  obtain ⟨i,l',rfl,inv'⟩ := evictInv inv evicts
  obtain ⟨k,o,queue,-,holds,removed,-,-,result⟩ := evictHead inv
  have first := head removed
  obtain ⟨ks,split⟩ : ∃ ks, recent uses m.cacheMap = k :: ks := List.head?_eq_some_iff.1 first
  rw [result] at evicts
  cases Option.some.inj evicts
  refine ⟨l',i :: f,inv',?_⟩
  obtain ⟨kept,map⟩ := dropIQueue (unqueue m k queue) k o
  simp only [kept,map]
  have content : queue.content = m.cachePriorityQueue.content := by
    obtain ⟨k',o',queue',-,removed',-,content⟩ := CacheDeque.removeRep inv.queue
    rw [removed] at removed'
    cases removed'
    exact content
  simp only [unqueue,content]
  rw [recentErase split]
  rw [split] at order
  simpa [holds] using order

theorem withinOrdered {m m' : CacheManager K} {uses : List K} (h : Ordered m uses) (within : Within m m') :
    Ordered m' uses := by
  induction within with
  | here => exact h
  | flushed _ waits ih => exact flushPendingObjOrdered ih waits
  | evicted _ evicts ih => exact evictOrdered ih evicts

/- The keys a call uses: one put that returns 0, or one found in the map. -/
def used (m : CacheManager K) : Act K → List K
  | .put key data size ob => if ((m.putI key data size ob).bind Prod.snd).isSome then [key] else []
  | .get key => if (m.cacheMap.find key).isSome then [key] else []
  | .release _ | .flush | .flushAll => []

structure Used (K : Type*) [LinearOrder K] where
  cache : CacheManager K
  uses : List K

def stepUsed (s : Used K) (a : Act K) : Option (Used K) :=
  (step s.cache a).map fun m => ⟨m,s.uses ++ used s.cache a⟩

theorem usedHit {m : CacheManager K} {key : K} {o : Obj} (cached : m.cacheMap.find key = some o) :
    used m (.get key) = [key] := by
  simp [used,cached]

theorem usedMiss {m : CacheManager K} {key : K} (absent : m.cacheMap.find key = none) :
    used m (.get key) = [] := by
  simp [used,absent]

theorem getIOrdered {m : CacheManager K} {uses : List K} (h : Ordered m uses) (key : K) :
    Ordered (handOut (m.getI key)) (uses ++ used m (.get key)) := by
  obtain ⟨l,f,inv,order⟩ := h
  unfold getI
  cases cached : m.cacheMap.find key with
  | some o =>
    obtain ⟨i,mem,holds,proxy⟩ := inv.mapped key o cached
    obtain ⟨l₁,l₂,rfl⟩ := List.append_of_mem mem
    obtain ⟨rep,objs,content⟩ := CacheDeque.adjustRep inv.queue holds m.objs
    have reordered := reorderInv inv rep content fun j => by
      simp only [List.mem_append,List.mem_cons]
      tauto
    have live := inv.live o ⟨key,.inl cached⟩
    have result := handOutInv reordered (o := o) ⟨live.created,live.kept⟩
    refine ⟨l₁ ++ l₂ ++ [i],f,?_,?_⟩
    · simp only [handOut,proxy,objs]
      exact result
    · simp only [handOut,emit,proxy,content,usedHit cached]
      have nodup := recentNodup uses m.cacheMap
      rw [recentUse (by simp [cached])]
      -- the keys of l₁ and l₂ are the others
      rw [List.map_append,List.map_cons] at order
      obtain ⟨ks₁,rest,split,front,tail⟩ := List.map_eq_append_iff.1 order.symm
      obtain ⟨k',ks₂,rfl,key_,back⟩ := List.map_eq_cons_iff.1 tail
      simp only [holds,Option.map_some,Option.some.injEq] at key_
      subst key_
      rw [split] at nodup
      have apart := List.nodup_cons.1 (List.nodup_middle.1 nodup)
      have others : (recent uses m.cacheMap).filter (fun j => j ≠ k') = ks₁ ++ ks₂ := by
        rw [split,List.filter_append,List.filter_cons_of_neg (by simp),← List.filter_append]
        refine List.filter_eq_self.2 fun j inside => ?_
        have other : j ≠ k' := fun same => apart.1 (same ▸ inside)
        simpa using other
      rw [others,List.map_append,List.map_append,List.map_append,List.map_append,front,back]
      simp [holds]
  | none =>
    simp only [getPendingObj,usedMiss cached,List.append_nil]
    cases waits : m.pendingList.find key with
    | none => exact ⟨l,f,inv,order⟩
    | some o =>
      have live := inv.live o ⟨key,.inr waits⟩
      refine ⟨l,f,handOutInv inv live,?_⟩
      exact order

theorem placedOrdered {m : CacheManager K} {uses : List K} {o : Obj} (h : Ordered m uses) (loose : ¬ Stored m o)
    (live : Live m o) (free : (m.objs o).refcount = 0) (key : K) :
    Ordered (handOut (placed m key o)) (uses ++ if (placed m key o).2.isSome then [key] else []) := by
  obtain ⟨l,f,inv,order⟩ := h
  unfold placed
  cases absent : m.cacheMap.find key with
  | some p =>
    rw [if_pos nofun]
    simp only [Option.isSome_none,Bool.false_eq_true,if_false,List.append_nil]
    exact ⟨l,f,destroyInv inv loose live free,order⟩
  | none =>
    obtain ⟨i,f',objs,queued⟩ := enqueueInv inv absent loose live
    have acquired := handOutInv queued (o := o) ⟨live.created,live.kept⟩
    obtain ⟨j,f'',off,rep,objs',content⟩ := CacheDeque.insertRep inv.queue (m.objs.acquire o) key o
    -- both name the item the object's proxy is set to
    have same : j = i := by
      have one := congrFun (objs m.objs) o
      have two := congrFun (objs' m.objs) o
      rw [two] at one
      simpa [Objects.setProxy] using one
    subst same
    rw [if_neg (not_not.2 rfl),objs,acquireSetProxy]
    refine ⟨l ++ [j],f',invWater acquired _,?_⟩
    simp only [handOut,emit,content,Option.isSome_some,if_true]
    rw [recentPut o absent,List.map_append,List.map_append,← order]
    simp only [List.map_cons,List.map_nil,Function.update_self,Option.map_some]
    congr 1
    refine List.map_congr_left fun a mem => ?_
    have other : a ≠ j := fun eq => off (eq ▸ mem)
    rw [Function.update_of_ne other]

theorem createOrdered {m : CacheManager K} {uses : List K} (h : Ordered m uses) (data : Address)
    (size : BitVec 64) (ob : Option Address) : Ordered (m.create data size ob).1 uses := by
  obtain ⟨l,f,inv,order⟩ := h
  exact ⟨l,f,(createInv inv data size ob).1,order⟩

theorem stepOrdered {s s' : Used K} {a : Act K} (h : Ordered s.cache s.uses) (steps : stepUsed s a = some s') :
    Ordered s'.cache s'.uses := by
  obtain ⟨m,took,rfl⟩ := Option.map_eq_some_iff.1 steps
  cases a with
  | put key data size ob =>
    obtain ⟨r,puts,rfl⟩ := Option.map_eq_some_iff.1 took
    simp only [used,puts,Option.bind_some]
    rcases putICases puts with ⟨-,rfl⟩ | ⟨-,-,m₁,result,room,made⟩
    · simpa [handOut] using h
    · have kept := withinOrdered h (checkWaterMarkWithin room)
      rcases made with rfl | ⟨-,data,rfl⟩
      · simpa [handOut] using kept
      · have created := createOrdered kept data size ob
        obtain ⟨l,f,inv,-⟩ := kept
        obtain ⟨-,live,loose,free⟩ := createInv inv data size ob
        exact placedOrdered created loose live free key
  | get key =>
    cases Option.some.inj took
    exact getIOrdered h key
  | release o =>
    simp only [step] at took
    split at took
    · cases Option.some.inj took
      obtain ⟨l,f,inv,order⟩ := h
      simp only [used,List.append_nil]
      exact ⟨l,f,releaseInv inv ‹_›,order⟩
    · contradiction
  | flush =>
    cases Option.some.inj took
    simp only [used,List.append_nil]
    exact withinOrdered h (flushIWithin _)
  | flushAll =>
    simp only [used,List.append_nil]
    exact withinOrdered h (flushAllWithin took)

/- In a state and in those a call from it goes through, the deque is the order of
use, and what an eviction takes is the least recently used key. -/
structure Lru (s : Used K) : Prop where
  list : ∀ m, Within s.cache m → ∃ l f, LruList m s.uses l f
  victim : ∀ m, Within s.cache m → ∀ k o queue, m.cachePriorityQueue.remove = some (k,o,queue) →
    (recent s.uses m.cacheMap).head? = some k

theorem leastRecentlyUsed (minObjSize maxObjSize high low : BitVec 64) (as : List (Act K)) :
    Always stepUsed Lru (⟨CacheManager.new minObjSize maxObjSize high low,[]⟩ : Used K) as := by
  have start : Ordered (CacheManager.new minObjSize maxObjSize high low : CacheManager K) [] :=
    ⟨[],[],newInv minObjSize maxObjSize high low,rfl⟩
  refine alwaysMono ?_ (@alwaysInvariant _ _ stepUsed (fun s : Used K => Ordered s.cache s.uses)
    (fun _ _ _ => stepOrdered) _ start as)
  intro s h
  refine ⟨fun m within => ?_,fun m within k o queue => orderedHead (withinOrdered h within)⟩
  obtain ⟨l,f,inv,order⟩ := withinOrdered h within
  exact ⟨l,f,lruList inv order⟩

end CuteNdk.Cache
