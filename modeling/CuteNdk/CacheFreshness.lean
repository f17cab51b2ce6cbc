import CuteNdk.CacheBound

/-! What get answers. An evicted object waits in pending_list_ under its key, and
get falls back to that list: when a newer object of the key is evicted, the older
one that still waits there is found again. -/
namespace CuteNdk.Cache
open Lib CacheManager

variable {K : Type*} [LinearOrder K]

/- No older object of the key evicted next is pending. -/
def EvictFresh (m : CacheManager K) : Prop :=
  match m.cachePriorityQueue.remove with
  | none => True
  | some (key,_,_) => m.pendingList.find key = none

instance (m : CacheManager K) : Decidable (EvictFresh m) := by
  unfold EvictFresh
  split <;> infer_instance

section Meets
variable (P : CacheManager K → Prop)

/- The evictions of a call all start in a state P holds of. -/
def FlushMeets (m : CacheManager K) : Prop := m.flushPendingObjs.2 = 0 ∨ P m.flushPendingObjs.1

def DropSomeMeets : Nat → CacheManager K → Prop
  | 0, _ => True
  | fuel + 1, m => FlushMeets P m ∧
      (m.flushI.2 ≠ -1 → m.flushI.1.waterMark > m.flushI.1.lowWaterMark → DropSomeMeets fuel m.flushI.1)

def DropAllMeets : Nat → CacheManager K → Prop
  | 0, _ => True
  | fuel + 1, m => P m ∧ match m.evict with
    | none => True
    | some m' => DropAllMeets fuel m'

def CallMeets (m : CacheManager K) : Act K → Prop
  | .put _ data size _ => data ≠ none → ¬ (size > m.cobjMaxSize ∨ size < m.cobjMinSize) →
      size + m.waterMark > m.highWaterMark → DropSomeMeets P (m.cachePriorityQueue.size.toNat + 1) m
  | .flush => FlushMeets P m
  | .flushAll => DropAllMeets P (m.flushPendingObjs.1.cachePriorityQueue.size.toNat + 1) m.flushPendingObjs.1
  | .get _ | .release _ => True

variable [DecidablePred P]

instance (m : CacheManager K) : Decidable (FlushMeets P m) := inferInstanceAs (Decidable (_ ∨ _))

instance decidableDropSomeMeets : (fuel : Nat) → (m : CacheManager K) → Decidable (DropSomeMeets P fuel m)
  | 0, _ => isTrue trivial
  | fuel + 1, m =>
    have := decidableDropSomeMeets fuel m.flushI.1
    inferInstanceAs (Decidable (_ ∧ _))

instance decidableDropAllMeets : (fuel : Nat) → (m : CacheManager K) → Decidable (DropAllMeets P fuel m)
  | 0, _ => isTrue trivial
  | fuel + 1, m =>
    match h : m.evict with
    | none => decidable_of_iff (P m) (by simp [DropAllMeets,h])
    | some m' =>
      have := decidableDropAllMeets fuel m'
      decidable_of_iff (P m ∧ DropAllMeets P fuel m') (by simp [DropAllMeets,h])

instance (m : CacheManager K) : (a : Act K) → Decidable (CallMeets P m a)
  | .put _ _ _ _ => inferInstanceAs (Decidable (_ → _))
  | .flush => inferInstanceAs (Decidable (FlushMeets P m))
  | .flushAll => inferInstanceAs (Decidable (DropAllMeets P _ _))
  | .get _ => isTrue trivial
  | .release _ => isTrue trivial

end Meets

/- A cache with the object of the last put of each key that returned 0. -/
structure Latest (K : Type*) [LinearOrder K] where
  cache : CacheManager K
  latest : K → Option Obj

/- The object a put of the key has made is its latest from then on. -/
def recorded (latest : K → Option Obj) (key : K) : Option Obj → K → Option Obj
  | some o => Function.update latest key (some o)
  | none => latest

def latestAfter (s : Latest K) : Act K → K → Option Obj
  | .put key data size ob => recorded s.latest key ((s.cache.putI key data size ob).bind Prod.snd)
  | .get _ | .release _ | .flush | .flushAll => s.latest

def stepLatest (s : Latest K) (a : Act K) : Option (Latest K) :=
  (step s.cache a).map fun m => ⟨m,latestAfter s a⟩

/- Whatever get would answer now is the object put last under that key. -/
def NeverStale (s : Latest K) : Prop := ∀ key o, (s.cache.getI key).2 = some o → s.latest key = some o

/- What a cache of these objects must have where get looks. -/
structure Newest (m : CacheManager K) (latest : K → Option Obj) : Prop where
  mapped : ∀ k o, m.cacheMap.find k = some o → latest k = some o
  waiting : ∀ k o, m.cacheMap.find k = none → m.pendingList.find k = some o → latest k = some o

theorem newestAnswers {m : CacheManager K} {latest : K → Option Obj} (h : Newest m latest) :
    NeverStale ⟨m,latest⟩ := by
  intro key o found
  unfold getI at found
  cases cached : m.cacheMap.find key with
  | some p =>
    rw [cached] at found
    cases Option.some.inj found
    exact h.mapped key _ cached
  | none =>
    rw [cached] at found
    simp only [getPendingObj] at found
    cases waits : m.pendingList.find key with
    | some p =>
      rw [waits] at found
      cases Option.some.inj found
      exact h.waiting key _ cached waits
    | none =>
      rw [waits] at found
      contradiction

variable {latest : K → Option Obj}

theorem flushPendingObjNewest {m : CacheManager K} {k : K} {o : Obj} (h : Newest m latest) :
    Newest (m.flushPendingObj (k,o)) latest := by
  by_cases free : (m.objs o).refcount = 0
  · rw [flushPendingObjFree free,dropObjectEq]
    exact ⟨h.mapped,fun j p absent waits => h.waiting j p absent (OrderedMap.findErase.1 waits).1⟩
  · simpa only [flushPendingObj,if_neg free] using h

theorem flushPendingObjsNewest {m : CacheManager K} (h : Newest m latest) : Newest m.flushPendingObjs.1 latest :=
  flushPendingObjsRule (P := fun m => Newest m latest) (fun _ _ _ h _ => flushPendingObjNewest h) h

/- The evicted object is the one that waits under its key now, if any does. -/
theorem evictNewest {m m' : CacheManager K} (inv : Invariant m) (h : Newest m latest) (fresh : EvictFresh m)
    (evicts : m.evict = some m') : Newest m' latest := by
  obtain ⟨l,f,inv⟩ := inv
  cases l with
  | nil => rw [evictEmpty inv] at evicts; contradiction
  | cons i l =>
    obtain ⟨k,o,queue,maps,-,removed,-,-,result⟩ := evictHead inv
    rw [result] at evicts
    cases Option.some.inj evicts
    unfold EvictFresh at fresh
    rw [removed] at fresh
    have absent : m.pendingList.find k = none := fresh
    have others : ∀ j p, (m.cacheMap.erase k).find j = none → m.pendingList.find j = some p →
        latest j = some p := by
      intro j p gone waits
      refine h.waiting j p ?_ waits
      cases found : m.cacheMap.find j with
      | none => rfl
      | some q =>
        have other : j ≠ k := by
          rintro rfl
          rw [absent] at waits
          contradiction
        rw [OrderedMap.findErase.2 ⟨found,other⟩] at gone
        contradiction
    by_cases free : (m.objs o).refcount = 0
    · have drops : (unqueue m k queue).dropI k o = (((unqueue m k queue).dropObject o).destroy o,0) :=
        if_pos free
      rw [drops,dropObjectEq]
      exact ⟨fun j p found => h.mapped j p (OrderedMap.findErase.1 found).1,others⟩
    · have waits : (unqueue m k queue).dropI k o =
          ({ unqueue m k queue with pendingList := m.pendingList.insert k o },-1) := if_neg free
      rw [waits]
      refine ⟨fun j p found => h.mapped j p (OrderedMap.findErase.1 found).1,fun j p gone found => ?_⟩
      rcases (OrderedMap.findInsert absent).1 found with ⟨rfl,rfl⟩ | found
      · exact h.mapped _ _ maps
      · exact others j p gone found

theorem flushINewest {m : CacheManager K} (inv : Invariant m) (h : Newest m latest)
    (fresh : FlushMeets EvictFresh m) : Newest m.flushI.1 latest := by
  have flushed := flushPendingObjsNewest h
  have kept := withinInvariant inv (flushPendingObjsWithin m)
  unfold flushI
  simp only
  split
  · exact flushed
  · rename_i more
    split
    · rename_i evicts
      exact evictNewest kept flushed (fresh.resolve_left more) evicts
    · exact flushed

theorem dropSomeNewest {fuel : Nat} {m m' : CacheManager K} {result : Int} (inv : Invariant m)
    (h : Newest m latest) (fresh : DropSomeMeets EvictFresh fuel m)
    (ends : dropSome fuel m = some (m',result)) : Newest m' latest := by
  induction fuel generalizing m with
  | zero => contradiction
  | succ fuel ih =>
    have next := flushINewest inv h fresh.1
    simp only [dropSome] at ends
    split at ends
    · cases Option.some.inj ends
      exact next
    · split at ends
      · rename_i going high
        exact ih (flushIInvariant m inv) next (fresh.2 going high) ends
      · cases Option.some.inj ends
        exact next

theorem dropAllNewest {fuel : Nat} {m m' : CacheManager K} (inv : Invariant m) (h : Newest m latest)
    (fresh : DropAllMeets EvictFresh fuel m) (ends : dropAll fuel m = some m') : Newest m' latest := by
  induction fuel generalizing m with
  | zero => contradiction
  | succ fuel ih =>
    obtain ⟨now,later⟩ := fresh
    simp only [dropAll] at ends
    split at ends
    · cases Option.some.inj ends
      exact h
    · rename_i next evicts
      rw [evicts] at later
      exact ih (evictInvariant m _ inv evicts) (evictNewest inv h now evicts) later ends

theorem getINewest {m : CacheManager K} (inv : Invariant m) (h : Newest m latest) (key : K) :
    Newest (handOut (m.getI key)) latest := by
  obtain ⟨l,f,inv⟩ := inv
  unfold getI
  cases cached : m.cacheMap.find key with
  | some o => exact ⟨h.mapped,h.waiting⟩
  | none =>
    simp only [getPendingObj]
    cases waits : m.pendingList.find key with
    | none => exact h
    | some o => exact ⟨h.mapped,h.waiting⟩

theorem placedNewest {m : CacheManager K} (h : Newest m latest) (key : K) (o : Obj) :
    Newest (handOut (placed m key o)) (recorded latest key (placed m key o).2) := by
  unfold placed
  cases absent : m.cacheMap.find key with
  | some p =>
    rw [if_pos nofun]
    exact ⟨h.mapped,h.waiting⟩
  | none =>
    rw [if_neg (not_not.2 rfl)]
    refine ⟨fun k p found => ?_,fun k p gone waits => ?_⟩
    · rcases (OrderedMap.findInsert absent).1 found with ⟨rfl,rfl⟩ | old
      · exact Function.update_self _ _ _
      · have other : k ≠ key := by
          rintro rfl
          rw [absent] at old
          contradiction
        exact (Function.update_of_ne other _ _).trans (h.mapped k p old)
    · have other : k ≠ key := by
        rintro rfl
        have there : (m.cacheMap.insert k o).find k = some o :=
          (OrderedMap.findInsert absent).2 (.inl ⟨rfl,rfl⟩)
        exact absurd (there.symm.trans gone) (Option.some_ne_none o)
      have before : m.cacheMap.find k = none := by
        cases found : m.cacheMap.find k with
        | none => rfl
        | some q =>
          have there := (OrderedMap.findInsert (v := o) absent).2 (.inr found)
          exact absurd (there.symm.trans gone) (Option.some_ne_none q)
      exact (Function.update_of_ne other _ _).trans (h.waiting k p before waits)

theorem stepNewest {s s' : Latest K} {a : Act K} (inv : Invariant s.cache) (h : Newest s.cache s.latest)
    (fresh : CallMeets EvictFresh s.cache a) (steps : stepLatest s a = some s') :
    Newest s'.cache s'.latest := by
  obtain ⟨m,took,rfl⟩ := Option.map_eq_some_iff.1 steps
  cases a with
  | put key data size ob =>
    obtain ⟨r,puts,rfl⟩ := Option.map_eq_some_iff.1 took
    simp only [latestAfter,puts,Option.bind_some]
    rcases putICases puts with ⟨-,rfl⟩ | ⟨given,fits,m₁,result,room,made⟩
    · exact h
    · have checked : Newest m₁ s.latest := by
        unfold checkWaterMark at room
        split at room
        · exact dropSomeNewest inv h (fresh given fits ‹_›) room
        · cases Option.some.inj room
          exact h
      rcases made with rfl | ⟨-,data,rfl⟩
      · exact checked
      · exact placedNewest (m := (m₁.create data size ob).1) ⟨checked.mapped,checked.waiting⟩ key m₁.created
  | get key =>
    cases Option.some.inj took
    exact getINewest inv h key
  | release o =>
    simp only [step] at took
    split at took
    · cases Option.some.inj took
      exact ⟨h.mapped,h.waiting⟩
    · contradiction
  | flush =>
    cases Option.some.inj took
    exact flushINewest inv h fresh
  | flushAll =>
    exact dropAllNewest (withinInvariant inv (flushPendingObjsWithin _)) (flushPendingObjsNewest h) fresh took

def startLatest (minObjSize maxObjSize high low : BitVec 64) : Latest K :=
  ⟨CacheManager.new minObjSize maxObjSize high low,fun _ => none⟩

theorem freshWhileNoneWaits (minObjSize maxObjSize high low : BitVec 64) (as : List (Act K))
    (fresh : Along stepLatest (fun s a => CallMeets EvictFresh s.cache a)
      (startLatest minObjSize maxObjSize high low : Latest K) as) :
    Always stepLatest NeverStale (startLatest minObjSize maxObjSize high low : Latest K) as := by
  have keeps : ∀ (s : Latest K) a s', (Invariant s.cache ∧ Newest s.cache s.latest) →
      CallMeets EvictFresh s.cache a → stepLatest s a = some s' →
      Invariant s'.cache ∧ Newest s'.cache s'.latest := by
    rintro s a s' ⟨inv,h⟩ fresh steps
    refine ⟨?_,stepNewest inv h fresh steps⟩
    obtain ⟨m,took,rfl⟩ := Option.map_eq_some_iff.1 steps
    exact stepInv inv took
  have start : Newest (CacheManager.new minObjSize maxObjSize high low : CacheManager K) fun _ => none :=
    ⟨fun k o found => by simp [CacheManager.new,OrderedMap.find,OrderedMap.empty] at found,
      fun k o _ found => by simp [CacheManager.new,OrderedMap.find,OrderedMap.empty] at found⟩
  refine alwaysMono (fun s h => newestAnswers h.2) (alwaysOfInvariant keeps ⟨?_,start⟩ fresh)
  exact ⟨[],[],newInv minObjSize maxObjSize high low⟩

/- Key 7 is evicted while referenced and put again once it was let go. -/
theorem putAgainFresh : Always stepLatest NeverStale (startLatest 1 100 1000 0 : Latest Nat)
    [.put 7 (some 1) 10 none,.flush,.get 7,.release 0,.release 0,.flush,.put 7 (some 2) 20 none,.flush] :=
  freshWhileNoneWaits 1 100 1000 0 _ (by decide +kernel)

/- The first object of key 7 is still referenced when the second is evicted, and
is what get answers from then on. -/
theorem evictedTwiceStale : ¬ Always stepLatest NeverStale (startLatest 1 100 1000 0 : Latest Nat)
    [.put 7 (some 1) 10 none,.flush,.put 7 (some 2) 20 none,.flush] := by
  intro always
  have last := alwaysAtEnd always (t := _) rfl
  have answer := last 7 0 (by decide +kernel)
  revert answer
  decide +kernel

end CuteNdk.Cache
