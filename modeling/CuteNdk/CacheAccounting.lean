import CuteNdk.CacheSafety
import Mathlib.Data.Nat.Basic

/-! The water mark and what it counts. An evicted object that is still referenced
moves to pending_list_, and std::map::insert refuses it where its key is pending
already: then nothing holds the object any more. -/
namespace CuteNdk.Cache
open Lib CacheManager

section Bytes
variable {K : Type*}

/- Sizes add up as unsigned longs. -/
def bytes (objs : Objects) : List (K × Obj) → BitVec 64
  | [] => 0
  | e :: es => (objs e.2).size + bytes objs es

theorem bytesCongr {objs objs' : Objects} {es : List (K × Obj)}
    (same : ∀ e ∈ es, (objs' e.2).size = (objs e.2).size) : bytes objs' es = bytes objs es := by
  induction es with
  | nil => rfl
  | cons e es ih =>
    simp only [bytes]
    rw [same e List.mem_cons_self,ih fun d hd => same d (List.mem_cons_of_mem e hd)]

theorem bytesPerm {objs : Objects} {es es' : List (K × Obj)} (h : es.Perm es') : bytes objs es = bytes objs es' := by
  induction h with
  | nil => rfl
  | cons e _ ih => simp only [bytes,ih]
  | swap d e es => simp only [bytes]; ac_rfl
  | trans _ _ ih ih' => exact ih.trans ih'

end Bytes

variable {K : Type*} [LinearOrder K]

/- Nothing that exists is held nowhere, and the water mark is what is held. -/
structure Accounted (m : CacheManager K) : Prop where
  stored : ∀ o, Live m o → Stored m o
  water : m.waterMark = bytes m.objs m.cacheMap.entries + bytes m.objs m.pendingList.entries

/- The object evicted next is not referenced, or none is pending under its key. -/
def EvictOk (m : CacheManager K) : Prop :=
  ∀ k o queue, m.cachePriorityQueue.remove = some (k,o,queue) →
    (m.objs o).refcount = 0 ∨ m.pendingList.find k = none

def FlushOk (m : CacheManager K) : Prop := m.flushPendingObjs.2 = 0 ∨ EvictOk m.flushPendingObjs.1

/- The same of each round of the loops of make_cobj and flush_all. -/
def DropSomeOk : Nat → CacheManager K → Prop
  | 0, _ => True
  | fuel + 1, m => FlushOk m ∧
      (m.flushI.2 ≠ -1 → m.flushI.1.waterMark > m.flushI.1.lowWaterMark → DropSomeOk fuel m.flushI.1)

def DropAllOk : Nat → CacheManager K → Prop
  | 0, _ => True
  | fuel + 1, m => EvictOk m ∧ ∀ m', m.evict = some m' → DropAllOk fuel m'

/- No eviction of the call takes a referenced object whose key is pending. -/
def EvictsOk (m : CacheManager K) : Act K → Prop
  | .put _ data size _ => data ≠ none → ¬ (size > m.cobjMaxSize ∨ size < m.cobjMinSize) →
      size + m.waterMark > m.highWaterMark → DropSomeOk (m.cachePriorityQueue.size.toNat + 1) m
  | .flush => FlushOk m
  | .flushAll => DropAllOk (m.flushPendingObjs.1.cachePriorityQueue.size.toNat + 1) m.flushPendingObjs.1
  | .get _ | .release _ => True

theorem bytesErase (objs : Objects) {m : OrderedMap K Obj} {k : K} {o : Obj} (h : m.find k = some o) :
    bytes objs m.entries = (objs o).size + bytes objs (m.erase k).entries :=
  bytesPerm (OrderedMap.erasePerm h)

theorem bytesInsert (objs : Objects) {m : OrderedMap K Obj} {k : K} {o : Obj} (h : m.find k = none) :
    bytes objs (m.insert k o).entries = (objs o).size + bytes objs m.entries :=
  bytesPerm (OrderedMap.insertPerm h)

theorem newAccounted (minObjSize maxObjSize high low : BitVec 64) :
    Accounted (CacheManager.new minObjSize maxObjSize high low : CacheManager K) :=
  ⟨fun _ live => absurd live.created (Nat.not_lt_zero _),rfl⟩

theorem retireLive {m : CacheManager K} {o p : Obj} :
    Live ((m.dropObject o).destroy o) p ↔ Live m p ∧ p ≠ o := by
  rw [← (dropObjectKeeps m o p).1]
  constructor
  · intro h
    have kept := h.kept
    simp only [destroy,emit,List.mem_cons,Event.destroy.injEq,not_or] at kept
    exact ⟨⟨h.created,kept.2⟩,kept.1⟩
  · rintro ⟨h,other⟩
    exact ⟨h.created,by simpa [destroy,emit] using ⟨other,h.kept⟩⟩

theorem flushPendingObjAccounted {m : CacheManager K} {k : K} {o : Obj} (acc : Accounted m)
    (pending : m.pendingList.find k = some o) : Accounted (m.flushPendingObj (k,o)) := by
  by_cases free : (m.objs o).refcount = 0
  · have held := bytesErase m.objs pending
    have water := acc.water
    refine ⟨fun p live => ?_,?_⟩
    · rw [flushPendingObjFree free,retireLive] at live
      obtain ⟨j,mapped | waiting⟩ := acc.stored p ⟨live.1.created,live.1.kept⟩
      · rw [flushPendingObjFree free,dropObjectEq]
        exact ⟨j,.inl mapped⟩
      · rw [flushPendingObjFree free,dropObjectEq]
        refine ⟨j,.inr (OrderedMap.findErase.2 ⟨waiting,?_⟩)⟩
        rintro rfl
        exact live.2 (Option.some.inj (waiting.symm.trans pending))
    · rw [flushPendingObjFree free,dropObjectEq]
      simp only [destroy,emit]
      rw [water,held]
      bv_omega
  · simpa only [flushPendingObj,if_neg free] using acc

theorem flushPendingObjsAccounted {m : CacheManager K} (acc : Accounted m) : Accounted m.flushPendingObjs.1 :=
  flushPendingObjsRule (fun _ _ _ => flushPendingObjAccounted) acc

theorem evictAccounted {m m' : CacheManager K} {l f : List Item} (h : Inv m l f) (acc : Accounted m)
    (ok : EvictOk m) (evicts : m.evict = some m') : Accounted m' := by
  cases l with
  | nil => rw [evictEmpty h] at evicts; contradiction
  | cons i l =>
    obtain ⟨k,o,queue,maps,holds,removed,inv,loose,result⟩ := evictHead h
    rw [result] at evicts
    cases Option.some.inj evicts
    have held := bytesErase m.objs maps
    have water := acc.water
    by_cases free : (m.objs o).refcount = 0
    · have drops : (unqueue m k queue).dropI k o = (((unqueue m k queue).dropObject o).destroy o,0) :=
        if_pos free
      rw [if_pos free,drops]
      refine ⟨fun p live => ?_,?_⟩
      · obtain ⟨live,other⟩ := retireLive.1 (⟨live.created,live.kept⟩ :
          Live (((unqueue m k queue).dropObject o).destroy o) p)
        rw [dropObjectEq]
        obtain ⟨j,mapped | waiting⟩ := acc.stored p ⟨live.created,live.kept⟩
        · refine ⟨j,.inl (OrderedMap.findErase.2 ⟨mapped,?_⟩)⟩
          rintro rfl
          exact other (Option.some.inj (mapped.symm.trans maps))
        · exact ⟨j,.inr waiting⟩
      · rw [dropObjectEq]
        simp only [destroy,emit,unqueue]
        rw [water,held]
        bv_omega
    · have absent : m.pendingList.find k = none := (ok k o queue removed).resolve_left free
      have waits : (unqueue m k queue).dropI k o =
          ({ unqueue m k queue with pendingList := m.pendingList.insert k o },-1) := if_neg free
      rw [if_neg free,waits]
      refine ⟨fun p live => ?_,?_⟩
      · obtain ⟨j,mapped | waiting⟩ := acc.stored p ⟨live.created,live.kept⟩
        · by_cases same : j = k
          · subst same
            obtain rfl := Option.some.inj (mapped.symm.trans maps)
            exact ⟨j,.inr ((OrderedMap.findInsert absent).2 (.inl ⟨rfl,rfl⟩))⟩
          · exact ⟨j,.inl (OrderedMap.findErase.2 ⟨mapped,same⟩)⟩
        · exact ⟨j,.inr ((OrderedMap.findInsert absent).2 (.inr waiting))⟩
      · simp only [unqueue]
        rw [water,held,bytesInsert m.objs absent]
        ac_rfl

theorem flushIAccounted {m : CacheManager K} (h : Invariant m) (acc : Accounted m) (ok : FlushOk m) :
    Accounted m.flushI.1 := by
  obtain ⟨l,f,inv⟩ := h
  have flushed := flushPendingObjsInv inv
  have counted := flushPendingObjsAccounted acc
  unfold flushI
  simp only
  split
  · exact counted
  · rename_i more
    split
    · rename_i evicts
      exact evictAccounted flushed counted (ok.resolve_left more) evicts
    · exact counted

theorem dropSomeAccounted {fuel : Nat} {m m' : CacheManager K} {result : Int} (h : Invariant m)
    (acc : Accounted m) (ok : DropSomeOk fuel m) (ends : dropSome fuel m = some (m',result)) :
    Accounted m' := by
  induction fuel generalizing m with
  | zero => contradiction
  | succ fuel ih =>
    have next := flushIAccounted h acc ok.1
    simp only [dropSome] at ends
    split at ends
    · cases Option.some.inj ends
      exact next
    · split at ends
      · rename_i going high
        exact ih (flushIInvariant m h) next (ok.2 going high) ends
      · cases Option.some.inj ends
        exact next

theorem dropAllAccounted {fuel : Nat} {m m' : CacheManager K} (h : Invariant m) (acc : Accounted m)
    (ok : DropAllOk fuel m) (ends : dropAll fuel m = some m') : Accounted m' := by
  induction fuel generalizing m with
  | zero => contradiction
  | succ fuel ih =>
    simp only [dropAll] at ends
    split at ends
    · cases Option.some.inj ends
      exact acc
    · rename_i evicts
      obtain ⟨l,f,inv⟩ := h
      exact ih (evictInvariant m _ ⟨l,f,inv⟩ evicts) (evictAccounted inv acc ok.1 evicts) (ok.2 _ evicts) ends

/- A change of counts, proxies and queue is none of what is accounted. -/
theorem accountedCongr {m m' : CacheManager K} (acc : Accounted m) (live : ∀ o, Live m' o → Live m o)
    (map : m'.cacheMap = m.cacheMap) (pending : m'.pendingList = m.pendingList)
    (water : m'.waterMark = m.waterMark) (sizes : ∀ o, (m'.objs o).size = (m.objs o).size) : Accounted m' := by
  refine ⟨fun o h => ?_,?_⟩
  · simpa only [Stored,map,pending] using acc.stored o (live o h)
  · rw [water,map,pending,bytesCongr fun e _ => sizes e.2,bytesCongr fun e _ => sizes e.2]
    exact acc.water

theorem acquireSize (objs : Objects) (o p : Obj) : (objs.acquire o p).size = (objs p).size := by
  by_cases same : p = o
  · subst same; simp [Objects.acquire]
  · simp [Objects.acquire,same]

theorem releaseSize (objs : Objects) (o p : Obj) : (objs.release o p).size = (objs p).size := by
  by_cases same : p = o
  · subst same; simp [Objects.release]
  · simp [Objects.release,same]

theorem setProxySize (objs : Objects) (o p : Obj) (i : Item) : (objs.setProxy o i p).size = (objs p).size := by
  by_cases same : p = o
  · subst same; simp [Objects.setProxy]
  · simp [Objects.setProxy,same]

theorem getIAccounted {m : CacheManager K} (h : Invariant m) (acc : Accounted m) (key : K) :
    Accounted (handOut (m.getI key)) := by
  obtain ⟨l,f,inv⟩ := h
  unfold getI
  cases cached : m.cacheMap.find key with
  | some o =>
    obtain ⟨i,mem,holds,proxy⟩ := inv.mapped key o cached
    obtain ⟨l₁,l₂,rfl⟩ := List.append_of_mem mem
    obtain ⟨-,objs,-⟩ := CacheDeque.adjustRep inv.queue holds m.objs
    simp only [handOut,proxy,objs]
    exact accountedCongr acc (fun p live => ⟨live.created,by simpa [emit] using live.kept⟩) rfl rfl rfl
      (acquireSize m.objs o)
  | none =>
    simp only [getPendingObj]
    cases waits : m.pendingList.find key with
    | none => exact acc
    | some o =>
      exact accountedCongr acc (fun p live => ⟨live.created,by simpa [handOut,emit] using live.kept⟩) rfl rfl rfl
        (acquireSize m.objs o)

theorem releaseAccounted {m : CacheManager K} (acc : Accounted m) (o : Obj) :
    Accounted { m.emit (.release o) with objs := m.objs.release o } :=
  accountedCongr acc (fun _ live => ⟨live.created,by simpa [emit] using live.kept⟩) rfl rfl rfl
    (releaseSize m.objs o)

theorem checkWaterMarkAccounted {m m' : CacheManager K} {size : BitVec 64} {result : Int} (h : Invariant m)
    (acc : Accounted m)
    (ok : size + m.waterMark > m.highWaterMark → DropSomeOk (m.cachePriorityQueue.size.toNat + 1) m)
    (room : m.checkWaterMark size = some (m',result)) : Accounted m' := by
  unfold checkWaterMark at room
  split at room
  · exact dropSomeAccounted h acc (ok ‹_›) room
  · cases Option.some.inj room
    exact acc

theorem createLive {m : CacheManager K} {data : Address} {size : BitVec 64} {ob : Option Address} {p : Obj}
    (live : Live (m.create data size ob).1 p) (other : p ≠ m.created) : Live m p :=
  ⟨Nat.lt_of_le_of_ne (Nat.le_of_lt_succ live.created) other,by simpa [create,emit] using live.kept⟩

/- The new object's size is not among those counted before. -/
theorem createBytes {m : CacheManager K} {l f : List Item} (h : Inv m l f) (data : Address) (size : BitVec 64)
    (ob : Option Address) {objs : Objects} (sizes : ∀ p, (objs p).size = ((m.create data size ob).1.objs p).size) :
    bytes objs m.cacheMap.entries = bytes m.objs m.cacheMap.entries ∧
      bytes objs m.pendingList.entries = bytes m.objs m.pendingList.entries := by
  have old : ∀ p, Stored m p → (objs p).size = (m.objs p).size := by
    intro p s
    have other : p ≠ m.created := Nat.ne_of_lt (h.live p s).created
    rw [sizes]
    simp [create,other]
  exact ⟨bytesCongr fun e he => old e.2 ⟨e.1,.inl (OrderedMap.findIff.2 he)⟩,
    bytesCongr fun e he => old e.2 ⟨e.1,.inr (OrderedMap.findIff.2 he)⟩⟩

theorem placedAccounted {m : CacheManager K} {l f : List Item} (h : Inv m l f) (acc : Accounted m)
    (data : Address) (size : BitVec 64) (ob : Option Address) (key : K) :
    Accounted (handOut (placed (m.create data size ob).1 key m.created)) := by
  unfold placed
  cases absent : (m.create data size ob).1.cacheMap.find key with
  | some p =>
    have counted := createBytes h data size ob fun _ => rfl
    rw [if_pos nofun]
    refine ⟨fun p live => ?_,?_⟩
    · have kept := live.kept
      simp only [handOut,destroy,emit,List.mem_cons,Event.destroy.injEq,not_or] at kept
      have before : Live (m.create data size ob).1 p := ⟨live.created,kept.2⟩
      exact acc.stored p (createLive before kept.1)
    · exact acc.water.trans (congrArg₂ _ counted.1.symm counted.2.symm)
  | none =>
    obtain ⟨inv,live,loose,-⟩ := createInv h data size ob
    obtain ⟨i,f',-,-,objs,-⟩ := CacheDeque.insertRep inv.queue (m.create data size ob).1.objs key m.created
    have sizes : ∀ p, ((((m.create data size ob).1.objs.acquire m.created).setProxy m.created i) p).size =
        ((m.create data size ob).1.objs p).size := fun p =>
      (setProxySize _ _ _ _).trans (acquireSize _ _ _)
    have counted := createBytes h data size ob sizes
    have inserted := bytesInsert (((m.create data size ob).1.objs.acquire m.created).setProxy m.created i)
      (o := m.created) absent
    rw [if_neg (not_not.2 rfl),objs]
    refine ⟨fun p live => ?_,?_⟩
    · by_cases same : p = m.created
      · subst same
        exact ⟨key,.inl ((OrderedMap.findInsert absent).2 (.inl ⟨rfl,rfl⟩))⟩
      · have kept : .destroy p ∉ (m.create data size ob).1.trace := by simpa [handOut,emit] using live.kept
        obtain ⟨k,mapped | waiting⟩ := acc.stored p (createLive ⟨live.created,kept⟩ same)
        · exact ⟨k,.inl ((OrderedMap.findInsert absent).2 (.inr mapped))⟩
        · exact ⟨k,.inr waiting⟩
    · simp only [handOut,emit]
      rw [inserted]
      have before : (m.create data size ob).1.waterMark = m.waterMark := rfl
      have map : (m.create data size ob).1.cacheMap = m.cacheMap := rfl
      have pending : (m.create data size ob).1.pendingList = m.pendingList := rfl
      rw [before,map,pending,counted.1,counted.2,acc.water]
      ac_rfl

theorem stepAccounted {m m' : CacheManager K} {a : Act K} (h : Invariant m) (acc : Accounted m)
    (ok : EvictsOk m a) (steps : step m a = some m') : Accounted m' := by
  cases a with
  | put key data size ob =>
    obtain ⟨r,puts,rfl⟩ := Option.map_eq_some_iff.1 steps
    rcases putICases puts with ⟨-,rfl⟩ | ⟨given,fits,m₁,result,room,made⟩
    · exact acc
    · have counted := checkWaterMarkAccounted h acc (ok given fits) room
      rcases made with rfl | ⟨-,data,rfl⟩
      · exact counted
      · obtain ⟨l,f,inv⟩ := checkWaterMarkInvariant h room
        exact placedAccounted inv counted data size ob key
  | get key =>
    cases Option.some.inj steps
    exact getIAccounted h acc key
  | release o =>
    simp only [step] at steps
    split at steps
    · cases Option.some.inj steps
      exact releaseAccounted acc o
    · contradiction
  | flush =>
    cases Option.some.inj steps
    exact flushIAccounted h acc ok
  | flushAll =>
    obtain ⟨l,f,inv⟩ := h
    exact dropAllAccounted ⟨l,f,flushPendingObjsInv inv⟩ (flushPendingObjsAccounted acc) ok steps

/- An object that exists and is held nowhere stays so: only what is held is
destroyed, and only what is held or new is stored. -/
def Leaked (m : CacheManager K) : Prop := ∃ o, Live m o ∧ ¬ Stored m o

theorem leakedNotAccounted {m : CacheManager K} (leaked : Leaked m) : ¬ Accounted m := by
  obtain ⟨o,live,lost⟩ := leaked
  exact fun acc => lost (acc.stored o live)

theorem flushPendingObjLeaked {m : CacheManager K} {k : K} {o : Obj} (leaked : Leaked m)
    (pending : m.pendingList.find k = some o) : Leaked (m.flushPendingObj (k,o)) := by
  by_cases free : (m.objs o).refcount = 0
  · obtain ⟨p,live,lost⟩ := leaked
    have other : p ≠ o := by
      rintro rfl
      exact lost ⟨k,.inr pending⟩
    rw [flushPendingObjFree free]
    refine ⟨p,retireLive.2 ⟨⟨live.created,live.kept⟩,other⟩,?_⟩
    rw [dropObjectEq]
    rintro ⟨j,mapped | waiting⟩
    · exact lost ⟨j,.inl mapped⟩
    · exact lost ⟨j,.inr (OrderedMap.findErase.1 waiting).1⟩
  · simpa only [flushPendingObj,if_neg free] using leaked

theorem flushPendingObjsLeaked {m : CacheManager K} (leaked : Leaked m) : Leaked m.flushPendingObjs.1 :=
  flushPendingObjsRule (fun _ _ _ => flushPendingObjLeaked) leaked

theorem dropIStored {m : CacheManager K} {k : K} {o p : Obj} (s : Stored (m.dropI k o).1 p) :
    Stored m p ∨ p = o := by
  unfold dropI at s
  split at s
  · rw [dropObjectEq] at s
    exact .inl s
  · obtain ⟨j,mapped | waiting⟩ := s
    · exact .inl ⟨j,.inl mapped⟩
    · cases waits : m.pendingList.find k with
      | some q =>
        rw [OrderedMap.insertPresent waits] at waiting
        exact .inl ⟨j,.inr waiting⟩
      | none =>
        rcases (OrderedMap.findInsert waits).1 waiting with ⟨-,same⟩ | waiting
        · exact .inr same
        · exact .inl ⟨j,.inr waiting⟩

theorem dropILive {m : CacheManager K} {k : K} {o p : Obj} (live : Live m p) (other : p ≠ o) :
    Live (m.dropI k o).1 p := by
  unfold dropI
  split
  · exact retireLive.2 ⟨live,other⟩
  · exact ⟨live.created,live.kept⟩

theorem evictLeaked {m m' : CacheManager K} {l f : List Item} (h : Inv m l f) (leaked : Leaked m)
    (evicts : m.evict = some m') : Leaked m' := by
  cases l with
  | nil => rw [evictEmpty h] at evicts; contradiction
  | cons i l =>
    obtain ⟨k,o,queue,maps,-,-,-,-,result⟩ := evictHead h
    rw [result] at evicts
    cases Option.some.inj evicts
    obtain ⟨p,live,lost⟩ := leaked
    have other : p ≠ o := by
      rintro rfl
      exact lost ⟨k,.inl maps⟩
    have alive := dropILive (m := unqueue m k queue) (k := k) ⟨live.created,live.kept⟩ other
    refine ⟨p,⟨alive.created,alive.kept⟩,fun s => ?_⟩
    rcases dropIStored (m := unqueue m k queue) (k := k) (o := o) s with ⟨j,mapped | waiting⟩ | same
    · exact lost ⟨j,.inl (OrderedMap.findErase.1 mapped).1⟩
    · exact lost ⟨j,.inr waiting⟩
    · exact other same

/- The refused insertion: the object has left the map and does not get into the
pending list. -/
theorem evictLeaks {m m' : CacheManager K} {l f : List Item} (h : Inv m l f) (bad : ¬ EvictOk m)
    (evicts : m.evict = some m') : Leaked m' := by
  cases l with
  | nil => rw [evictEmpty h] at evicts; contradiction
  | cons i l =>
    obtain ⟨k,o,queue,maps,-,removed,-,loose,result⟩ := evictHead h
    rw [result] at evicts
    cases Option.some.inj evicts
    have clash : ¬ ((m.objs o).refcount = 0 ∨ m.pendingList.find k = none) := by
      intro fine
      refine bad fun k' o' queue' removed' => ?_
      rw [removed] at removed'
      cases removed'
      exact fine
    obtain ⟨held,waits⟩ := not_or.1 clash
    obtain ⟨q,waits⟩ := Option.ne_none_iff_exists'.1 waits
    have refused : (unqueue m k queue).dropI k o =
        ({ unqueue m k queue with pendingList := m.pendingList.insert k o },-1) := if_neg held
    rw [refused,OrderedMap.insertPresent waits]
    have live := h.live o ⟨k,.inl maps⟩
    exact ⟨o,⟨live.created,live.kept⟩,loose⟩

theorem flushILeaked {m : CacheManager K} (h : Invariant m) (leaked : Leaked m) : Leaked m.flushI.1 := by
  obtain ⟨l,f,inv⟩ := h
  have flushed := flushPendingObjsLeaked leaked
  unfold flushI
  simp only
  split
  · exact flushed
  · split
    · rename_i evicts
      exact evictLeaked (flushPendingObjsInv inv) flushed evicts
    · exact flushed

/- Where nothing can be evicted, no eviction goes wrong. -/
theorem noEvictOk {m : CacheManager K} {l f : List Item} (h : Inv m l f) (none_ : m.evict = none) : EvictOk m := by
  cases l with
  | nil =>
    intro k o queue removed
    rw [CacheDeque.removeEmpty h.queue] at removed
    contradiction
  | cons i l =>
    obtain ⟨k,o,queue,-,-,-,-,-,result⟩ := evictHead h
    rw [result] at none_
    contradiction

theorem flushILeaks {m : CacheManager K} (h : Invariant m) (bad : ¬ FlushOk m) : Leaked m.flushI.1 := by
  obtain ⟨l,f,inv⟩ := h
  obtain ⟨more,clash⟩ := not_or.1 bad
  have flushed := flushPendingObjsInv inv
  unfold flushI
  simp only [if_neg more]
  split
  · rename_i evicts
    exact evictLeaks flushed clash evicts
  · rename_i none_
    exact absurd (noEvictOk flushed none_) clash

theorem dropSomeLeaked {fuel : Nat} {m m' : CacheManager K} {result : Int} (h : Invariant m)
    (leaked : Leaked m) (ends : dropSome fuel m = some (m',result)) : Leaked m' :=
  (dropSomeRule (P := fun m => Invariant m ∧ Leaked m)
    (fun m h => ⟨flushIInvariant m h.1,flushILeaked h.1 h.2⟩) ⟨h,leaked⟩ ends).2

theorem dropSomeLeaks {fuel : Nat} {m m' : CacheManager K} {result : Int} (h : Invariant m)
    (bad : ¬ DropSomeOk fuel m) (ends : dropSome fuel m = some (m',result)) : Leaked m' := by
  induction fuel generalizing m with
  | zero => contradiction
  | succ fuel ih =>
    have next := flushIInvariant m h
    simp only [dropSome] at ends
    by_cases now : FlushOk m
    · have later : ¬ (m.flushI.2 ≠ -1 → m.flushI.1.waterMark > m.flushI.1.lowWaterMark →
          DropSomeOk fuel m.flushI.1) := fun fine => bad ⟨now,fine⟩
      simp only [Classical.not_imp] at later
      obtain ⟨going,high,later⟩ := later
      rw [if_neg going,if_pos high] at ends
      exact ih next later ends
    · have leaked := flushILeaks h now
      split at ends
      · cases Option.some.inj ends
        exact leaked
      · split at ends
        · exact dropSomeLeaked next leaked ends
        · cases Option.some.inj ends
          exact leaked

theorem dropAllLeaks {fuel : Nat} {m m' : CacheManager K} (h : Invariant m) (bad : ¬ DropAllOk fuel m)
    (ends : dropAll fuel m = some m') : Leaked m' := by
  induction fuel generalizing m with
  | zero => contradiction
  | succ fuel ih =>
    obtain ⟨l,f,inv⟩ := h
    simp only [dropAll] at ends
    split at ends
    · rename_i none_
      exact absurd ⟨noEvictOk inv none_,fun _ evicts => absurd evicts (by simp [none_])⟩ bad
    · rename_i next evicts
      have invariant := evictInvariant m next ⟨l,f,inv⟩ evicts
      by_cases now : EvictOk m
      · refine ih invariant (fun fine => bad ⟨now,fun m₁ evicts' => ?_⟩) ends
        rw [evicts] at evicts'
        cases evicts'
        exact fine
      · have leaked := evictLeaks inv now evicts
        have keeps : ∀ m m' : CacheManager K, Invariant m ∧ Leaked m → m.evict = some m' →
            Invariant m' ∧ Leaked m' := by
          rintro m m' ⟨⟨l,f,inv⟩,leaked⟩ evicts
          exact ⟨evictInvariant m m' ⟨l,f,inv⟩ evicts,evictLeaked inv leaked evicts⟩
        exact (dropAllRule keeps ⟨invariant,leaked⟩ ends).2

theorem placedLeaked {m : CacheManager K} (leaked : Leaked m) (data : Address) (size : BitVec 64)
    (ob : Option Address) (key : K) : Leaked (handOut (placed (m.create data size ob).1 key m.created)) := by
  obtain ⟨p,live,lost⟩ := leaked
  have other : p ≠ m.created := Nat.ne_of_lt live.created
  have created : p < m.created + 1 := Nat.lt_succ_of_lt live.created
  unfold placed
  cases absent : (m.create data size ob).1.cacheMap.find key with
  | some q =>
    rw [if_pos nofun]
    refine ⟨p,⟨created,?_⟩,lost⟩
    simpa [handOut,destroy,create,emit,other] using live.kept
  | none =>
    rw [if_neg (not_not.2 rfl)]
    refine ⟨p,⟨created,?_⟩,?_⟩
    · simpa [handOut,create,emit] using live.kept
    · rintro ⟨k,mapped | waiting⟩
      · rcases (OrderedMap.findInsert absent).1 mapped with ⟨-,same⟩ | mapped
        · exact other same
        · exact lost ⟨k,.inl mapped⟩
      · exact lost ⟨k,.inr waiting⟩

theorem stepLeaks {m m' : CacheManager K} {a : Act K} (h : Invariant m) (bad : ¬ EvictsOk m a)
    (steps : step m a = some m') : Leaked m' := by
  cases a with
  | put key data size ob =>
    obtain ⟨r,puts,rfl⟩ := Option.map_eq_some_iff.1 steps
    simp only [EvictsOk,Classical.not_imp] at bad
    obtain ⟨given,fits,high,bad⟩ := bad
    rcases putICases puts with ⟨null | bounds,-⟩ | ⟨-,-,m₁,result,room,made⟩
    · exact absurd null given
    · exact absurd bounds fits
    · rw [checkWaterMark,if_pos high] at room
      have leaked := dropSomeLeaks h bad room
      rcases made with rfl | ⟨-,data,rfl⟩
      · exact leaked
      · exact placedLeaked leaked data size ob key
  | get key => exact absurd trivial bad
  | release o => exact absurd trivial bad
  | flush =>
    cases Option.some.inj steps
    exact flushILeaks h bad
  | flushAll =>
    obtain ⟨l,f,inv⟩ := h
    exact dropAllLeaks ⟨l,f,flushPendingObjsInv inv⟩ bad steps

theorem accountedIffEvictsOk (minObjSize maxObjSize high low : BitVec 64) (as : List (Act K)) :
    Always step Accounted (CacheManager.new minObjSize maxObjSize high low : CacheManager K) as ↔
      Along step EvictsOk (CacheManager.new minObjSize maxObjSize high low : CacheManager K) as := by
  have keeps : ∀ (m : CacheManager K) a m', Invariant m ∧ Accounted m → EvictsOk m a → step m a = some m' →
      Invariant m' ∧ Accounted m' := fun _ _ _ h ok steps =>
    ⟨stepInv h.1 steps,stepAccounted h.1 h.2 ok steps⟩
  have breaks : ∀ (m : CacheManager K) a m', Invariant m ∧ Accounted m → ¬ EvictsOk m a → step m a = some m' →
      ¬ Accounted m' := fun _ _ _ h bad steps => leakedNotAccounted (stepLeaks h.1 bad steps)
  exact alwaysIffAlong keeps (fun _ h => h.2) breaks
    ⟨⟨[],[],newInv minObjSize maxObjSize high low⟩,newAccounted minObjSize maxObjSize high low⟩ as

/- Key 7 is put, evicted while referenced, put again and evicted again: the
second object is in neither list, and only the first one's size is held. -/
theorem secondEvictionLeaks :
    ¬ Always step Accounted (CacheManager.new 1 100 1000 0 : CacheManager Nat)
      [.put 7 (some 1) 10 none,.flush,.put 7 (some 2) 20 none,.flush] := by
  intro always
  have last := alwaysAtEnd always (t := _) rfl
  obtain ⟨k,mapped | waiting⟩ := last.stored 1 ⟨by decide,by decide⟩
  · exact absurd mapped nofun
  · have only : (k,1) ∈ [((7 : Nat),0)] := OrderedMap.findIff.1 waiting
    simp at only

end CuteNdk.Cache
