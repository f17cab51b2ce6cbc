import CuteNdk.CacheSafety

/-! What a call of cache_manager lets go: objects are dropped and destroyed together, each once, and
the data, the size and the observer of an object stay what they were when it was made. -/
namespace CuteNdk.Cache
open Lib CacheManager

def SameData (objs objs' : Objects) : Prop :=
  ∀ o, (objs' o).data = (objs o).data ∧ (objs' o).size = (objs o).size ∧ (objs' o).observer = (objs o).observer

theorem sameDataTrans {objs objs' objs'' : Objects} (a : SameData objs objs') (b : SameData objs' objs'') :
    SameData objs objs'' := fun o =>
  ⟨(b o).1.trans (a o).1,(b o).2.1.trans (a o).2.1,(b o).2.2.trans (a o).2.2⟩

theorem acquireData (objs : Objects) (o : Obj) : SameData objs (objs.acquire o) := fun p => by
  by_cases same : p = o
  · subst same
    simp [Objects.acquire]
  · simp [Objects.acquire,same]

theorem releaseData (objs : Objects) (o : Obj) : SameData objs (objs.release o) := fun p => by
  by_cases same : p = o
  · subst same
    simp [Objects.release]
  · simp [Objects.release,same]

theorem setProxyData (objs : Objects) (o : Obj) (i : Item) : SameData objs (objs.setProxy o i) := fun p => by
  by_cases same : p = o
  · subst same
    simp [Objects.setProxy]
  · simp [Objects.setProxy,same]

/- What is left in the trace of objects that go, the last of them first. -/
def goodbyes (gone : List Obj) : List Event := gone.flatMap fun o => [.destroy o,.drop o]

theorem destroyGoodbyes {gone : List Obj} {o : Obj} : .destroy o ∈ goodbyes gone ↔ o ∈ gone := by
  simp [goodbyes]

theorem outstandingGoodbyes {gone : List Obj} {trace : List Event} {o : Obj} :
    outstanding (goodbyes gone ++ trace) o = outstanding trace o := by
  induction gone with
  | nil => rfl
  | cons p gone ih =>
    show outstanding (.destroy p :: .drop p :: (goodbyes gone ++ trace)) o = outstanding trace o
    rw [outstandingDestroy,outstandingDrop,ih]

section Calls
variable {K : Type*} [LinearOrder K] {m₀ m m' : CacheManager K} {o : Obj}

/- Every object that was made has an observer. -/
def Watched (m : CacheManager K) : Prop := ∀ o < m.created, (m.objs o).observer ≠ none

structure LetGo (m m' : CacheManager K) (gone : List Obj) : Prop where
  trace : m'.trace = goodbyes gone ++ m.trace
  created : m'.created = m.created
  data : SameData m.objs m'.objs
  made : ∀ o ∈ gone, o < m.created

/- No object goes twice, nor one that has gone before. -/
theorem goneOnce {gone : List Obj} {trace : List Event} (safe : Safe (goodbyes gone ++ trace)) :
    gone.Nodup ∧ ∀ o ∈ gone, .destroy o ∉ trace := by
  induction gone with
  | nil => exact ⟨List.nodup_nil,fun o mem => absurd mem List.not_mem_nil⟩
  | cons o gone ih =>
    obtain ⟨⟨rest,_⟩,fresh,_⟩ := safe
    obtain ⟨nodup,off⟩ := ih rest
    have fresh : .destroy o ∉ goodbyes gone ++ trace := fun mem => fresh (List.mem_cons_of_mem _ mem)
    rw [List.mem_append,destroyGoodbyes,not_or] at fresh
    refine ⟨List.nodup_cons.2 ⟨fresh.1,nodup⟩,fun p mem => ?_⟩
    rcases List.mem_cons.1 mem with rfl | mem
    · exact fresh.2
    · exact off p mem

/- An object that is held is not destroyed. -/
theorem heldKept {trace : List Event} (safe : Safe trace) (held : 0 < outstanding trace o) : .destroy o ∉ trace := by
  induction trace with
  | nil => exact List.not_mem_nil
  | cons e trace ih =>
    obtain ⟨rest,here⟩ := safe
    intro mem
    rcases List.mem_cons.1 mem with rfl | before
    · rw [outstandingDestroy,here.2] at held
      exact absurd held (lt_irrefl _)
    · clear mem
      cases e with
      | create p =>
        rw [outstandingCreate] at held
        exact ih rest held before
      | drop p =>
        rw [outstandingDrop] at held
        exact ih rest held before
      | destroy p =>
        rw [outstandingDestroy] at held
        exact ih rest held before
      | handOut p =>
        rw [outstandingHandOut] at held
        split at held
        · rename_i same
          exact here (same ▸ before)
        · exact ih rest (by omega) before
      | release p =>
        rw [outstandingRelease] at held
        refine ih rest ?_ before
        split at held <;> omega

/- What a call keeps while it makes room. -/
structure Onward (m₀ m : CacheManager K) : Prop where
  cache : Invariant m
  watched : Watched m
  gone : ∃ gone, LetGo m₀ m gone

theorem onwardStart (h : Invariant m) (w : Watched m) : Onward m m :=
  ⟨h,w,[],rfl,rfl,fun _ => ⟨rfl,rfl,rfl⟩,fun _ mem => absurd mem List.not_mem_nil⟩

theorem watchedSame (w : Watched m) (created : m'.created = m.created) (data : SameData m.objs m'.objs) : Watched m' :=
  fun o below => by
    rw [(data o).2.2]
    exact w o (created ▸ below)

/- Nothing goes, or o does. -/
theorem onwardSame (h : Onward m₀ m) (cache : Invariant m') (trace : m'.trace = m.trace) (created : m'.created = m.created)
    (data : SameData m.objs m'.objs) : Onward m₀ m' := by
  obtain ⟨gone,l⟩ := h.gone
  exact ⟨cache,watchedSame h.watched created data,gone,trace.trans l.trace,created.trans l.created,
    sameDataTrans l.data data,l.made⟩

theorem onwardGone (h : Onward m₀ m) (cache : Invariant m') (trace : m'.trace = .destroy o :: .drop o :: m.trace)
    (created : m'.created = m.created) (data : SameData m.objs m'.objs) (made : o < m.created) : Onward m₀ m' := by
  obtain ⟨gone,l⟩ := h.gone
  refine ⟨cache,watchedSame h.watched created data,o :: gone,?_,created.trans l.created,sameDataTrans l.data data,?_⟩
  · rw [trace,l.trace]
    rfl
  · intro p mem
    rcases List.mem_cons.1 mem with rfl | mem
    · exact l.created ▸ made
    · exact l.made p mem

theorem retireTrace (w : Watched m) (made : o < m.created) (free : (m.objs o).refcount = 0) :
    ((m.dropObject o).destroy o).trace = .destroy o :: .drop o :: m.trace := by
  rw [dropObjectEq]
  simp only [destroy,emit]
  rw [if_pos ⟨w o made,free⟩]

theorem retireRest (m : CacheManager K) (o : Obj) :
    ((m.dropObject o).destroy o).created = m.created ∧ ((m.dropObject o).destroy o).objs = m.objs := by
  rw [dropObjectEq]
  exact ⟨rfl,rfl⟩

theorem flushPendingObjOnward (m : CacheManager K) (k : K) (o : Obj) (h : Onward m₀ m)
    (pending : m.pendingList.find k = some o) : Onward m₀ (m.flushPendingObj (k,o)) := by
  obtain ⟨l,f,inv⟩ := h.cache
  have cache : Invariant (m.flushPendingObj (k,o)) := ⟨l,f,flushPendingObjInv inv pending⟩
  have made := (inv.live o ⟨k,.inr pending⟩).created
  by_cases free : (m.objs o).refcount = 0
  · have eq := flushPendingObjFree (k := k) free
    obtain ⟨created,objs⟩ := retireRest
      { m with waterMark := m.waterMark - (m.objs o).size, pendingList := m.pendingList.erase k } o
    refine onwardGone h cache ?_ ?_ ?_ made
    · rw [eq]
      exact retireTrace h.watched made free
    · rw [eq]
      exact created
    · rw [eq,objs]
      exact fun _ => ⟨rfl,rfl,rfl⟩
  · have eq : m.flushPendingObj (k,o) = m := if_neg free
    rw [eq]
    exact h

theorem evictOnward (m m' : CacheManager K) (h : Onward m₀ m) (evicts : m.evict = some m') : Onward m₀ m' := by
  have cache := evictInvariant m m' h.cache evicts
  obtain ⟨l,f,inv⟩ := h.cache
  cases l with
  | nil =>
    rw [evictEmpty inv] at evicts
    cases evicts
  | cons i l =>
    obtain ⟨k,o,queue,maps,-,-,_,_,result⟩ := evictHead inv
    have made := (inv.live o ⟨k,.inl maps⟩).created
    rw [result] at evicts
    cases Option.some.inj evicts
    by_cases free : (m.objs o).refcount = 0
    · have drops : ((unqueue m k queue).dropI k o).1 = ((unqueue m k queue).dropObject o).destroy o :=
        congrArg Prod.fst (if_pos free : (unqueue m k queue).dropI k o = _)
      obtain ⟨created,objs⟩ := retireRest (unqueue m k queue) o
      refine onwardGone h cache ?_ ?_ ?_ made
      · rw [drops]
        exact retireTrace (m := unqueue m k queue) h.watched made free
      · rw [drops]
        exact created
      · rw [drops,objs]
        exact fun _ => ⟨rfl,rfl,rfl⟩
    · have waits : ((unqueue m k queue).dropI k o).1 = { unqueue m k queue with pendingList := m.pendingList.insert k o } :=
        congrArg Prod.fst (if_neg free : (unqueue m k queue).dropI k o = _)
      refine onwardSame h cache ?_ ?_ ?_
      · rw [waits]
        rfl
      · rw [waits]
        rfl
      · rw [waits]
        exact fun _ => ⟨rfl,rfl,rfl⟩

theorem flushIOnward (m : CacheManager K) (h : Onward m₀ m) : Onward m₀ m.flushI.1 := by
  have flushed := flushPendingObjsRule (P := Onward m₀) flushPendingObjOnward h
  unfold flushI
  simp only
  split
  · exact flushed
  · split
    · rename_i evicts
      exact evictOnward _ _ flushed evicts
    · exact flushed

theorem roomOnward {size : BitVec 64} {result : Int} (h : Onward m₀ m) (room : m.checkWaterMark size = some (m',result)) :
    Onward m₀ m' := by
  unfold checkWaterMark at room
  split at room
  · exact dropSomeRule flushIOnward h room
  · cases Option.some.inj room
    exact h

theorem flushAllOnward (h : Onward m₀ m) (flushes : m.flushAll = some m') : Onward m₀ m' :=
  dropAllRule evictOnward (flushPendingObjsRule (P := Onward m₀) flushPendingObjOnward h) flushes

/- What get finds is stored, and it only counts it. -/
theorem getDrops (h : Invariant m) (key : K) : (m.getI key).1.trace = m.trace ∧ (m.getI key).1.created = m.created ∧
    SameData m.objs (m.getI key).1.objs ∧ ∀ o ∈ (m.getI key).2, Stored m o := by
  obtain ⟨l,f,inv⟩ := h
  unfold getI
  cases cached : m.cacheMap.find key with
  | some o =>
    obtain ⟨i,mem,holds,proxy⟩ := inv.mapped key o cached
    obtain ⟨l₁,l₂,rfl⟩ := List.append_of_mem mem
    obtain ⟨_,objs,_⟩ := CacheDeque.adjustRep inv.queue holds m.objs
    simp only [proxy,objs]
    refine ⟨trivial,trivial,acquireData m.objs o,fun p found => ?_⟩
    cases found
    exact ⟨key,.inl cached⟩
  | none =>
    simp only [getPendingObj]
    cases waits : m.pendingList.find key with
    | none => exact ⟨rfl,rfl,fun _ => ⟨rfl,rfl,rfl⟩,fun p found => absurd found (Option.not_mem_none p)⟩
    | some o =>
      refine ⟨rfl,rfl,acquireData m.objs o,fun p found => ?_⟩
      cases found
      exact ⟨key,.inr waits⟩

theorem handOutNone {r : CacheManager K × Option Obj} (none_ : r.2 = none) : handOut r = r.1 := by
  unfold handOut
  rw [none_]

theorem handOutSome {r : CacheManager K × Option Obj} (some_ : r.2 = some o) : handOut r = r.1.emit (.handOut o) := by
  unfold handOut
  rw [some_]

/- put makes room, or has it, and what it makes is refused or placed. -/
theorem putMakes {key : K} {data : Address} {size : BitVec 64} {ob : Option Address} {r : CacheManager K × Option Obj}
    (puts : m.putI key (some data) size ob = some r) :
    ∃ m₁, (m₁ = m ∨ ∃ result, m.checkWaterMark size = some (m₁,result)) ∧
      (r = (m₁,none) ∨ r = placed (m₁.create data size ob).1 key m₁.created) := by
  simp only [putI,bind,Option.bind_eq_some_iff] at puts
  obtain ⟨⟨m',made⟩,makes,puts⟩ := puts
  rcases makeCobjCases makes with ⟨_,rfl,rfl⟩ | ⟨_,m₁,result,room,⟨rfl,rfl⟩ | ⟨_,rfl,rfl⟩⟩
  · exact ⟨m',.inl rfl,.inl (Option.some.inj puts).symm⟩
  · exact ⟨m',.inr ⟨result,room⟩,.inl (Option.some.inj puts).symm⟩
  · refine ⟨m₁,.inr ⟨result,room⟩,.inr ?_⟩
    unfold placed
    simp only at puts
    split at puts
    · rw [if_pos ‹_›]
      exact (Option.some.inj puts).symm
    · rw [if_neg ‹_›]
      exact (Option.some.inj puts).symm

/- The object put makes has what it was given, and lasts unless put returns none. -/
structure Placed (m : CacheManager K) (data : Address) (size : BitVec 64) (ob : Option Address)
    (r : CacheManager K × Option Obj) (gone : List Obj) : Prop where
  created : r.1.created = m.created + 1
  own : (r.1.objs m.created).data = some data ∧ (r.1.objs m.created).size = size ∧ (r.1.objs m.created).observer = ob
  others : ∀ o < m.created, (r.1.objs o).data = (m.objs o).data ∧ (r.1.objs o).size = (m.objs o).size ∧
    (r.1.objs o).observer = (m.objs o).observer
  made : ∀ o ∈ gone, o < m.created
  trace : r.2 = none ∧ r.1.trace = .destroy m.created :: .create m.created :: goodbyes gone ++ m.trace ∨
    r.2 = some m.created ∧ r.1.trace = .create m.created :: goodbyes gone ++ m.trace

theorem placedWatched {data b : Address} {size : BitVec 64} {r : CacheManager K × Option Obj} {gone : List Obj}
    (w : Watched m) (placed : Placed m data size (some b) r gone) : Watched r.1 := fun o below => by
  rw [placed.created] at below
  rcases Nat.lt_succ_iff_lt_or_eq.1 below with below | rfl
  · rw [(placed.others o below).2.2]
    exact w o below
  · rw [placed.own.2.2]
    exact Option.some_ne_none _

theorem putDrops (h : Invariant m) (w : Watched m) {key : K} {data : Address} {size : BitVec 64} {ob : Option Address}
    {r : CacheManager K × Option Obj} (puts : m.putI key (some data) size ob = some r) :
    ∃ gone, r.2 = none ∧ LetGo m r.1 gone ∨ Placed m data size ob r gone := by
  obtain ⟨m₁,room,made⟩ := putMakes puts
  have onward : Onward m m₁ := by
    rcases room with rfl | ⟨result,room⟩
    · exact onwardStart h w
    · exact roomOnward (onwardStart h w) room
  obtain ⟨gone,l⟩ := onward.gone
  rcases made with rfl | rfl
  · exact ⟨gone,.inl ⟨rfl,l⟩⟩
  · refine ⟨gone,.inr ?_⟩
    obtain ⟨items,free,inv⟩ := onward.cache
    obtain ⟨i,_,_,_,objs,_⟩ := CacheDeque.insertRep inv.queue m₁.objs key m₁.created
    have seen {objs' : Objects} (kept : SameData (Function.update m₁.objs m₁.created ⟨0,size,some data,none,ob⟩) objs') :
        ((objs' m.created).data = some data ∧ (objs' m.created).size = size ∧ (objs' m.created).observer = ob) ∧
        ∀ o < m.created, (objs' o).data = (m.objs o).data ∧ (objs' o).size = (m.objs o).size ∧
          (objs' o).observer = (m.objs o).observer := by
      rw [l.created] at kept
      refine ⟨?_,fun o below => ?_⟩
      · have own := kept m.created
        rw [Function.update_self] at own
        exact own
      · have old := kept o
        rw [Function.update_of_ne (Nat.ne_of_lt below)] at old
        exact ⟨old.1.trans (l.data o).1,old.2.1.trans (l.data o).2.1,old.2.2.trans (l.data o).2.2⟩
    unfold placed
    by_cases absent : (m₁.create data size ob).1.cacheMap.find key ≠ none
    · rw [if_pos absent]
      simp only [create,destroy,emit]
      have kept := seen fun _ => ⟨rfl,rfl,rfl⟩
      exact ⟨by rw [l.created],kept.1,kept.2,l.made,.inl ⟨rfl,by rw [l.trace,l.created]; rfl⟩⟩
    · rw [if_neg absent]
      simp only [create,emit,objs]
      have kept := seen (sameDataTrans (acquireData _ m₁.created) (setProxyData _ m₁.created i))
      exact ⟨by rw [l.created],kept.1,kept.2,l.made,.inr ⟨by rw [l.created],by rw [l.trace,l.created]; rfl⟩⟩

end Calls
end CuteNdk.Cache
