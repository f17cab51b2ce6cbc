import CuteNdk.CacheAccounting
import Mathlib.Algebra.GroupWithZero.Nat

/-! The bound on the water mark. A call that makes room goes through states in
which pending objects leave and the queue loses its head; the mark is never below
what the two maps hold in any of them. -/
namespace CuteNdk.Cache
open Lib CacheManager

variable {K : Type*} [LinearOrder K]

/- The states a call may go through while it makes room. -/
inductive Within (m : CacheManager K) : CacheManager K → Prop
  | here : Within m m
  | flushed {m' : CacheManager K} {k : K} {o : Obj} : Within m m' → m'.pendingList.find k = some o →
      Within m (m'.flushPendingObj (k,o))
  | evicted {m' m'' : CacheManager K} : Within m m' → m'.evict = some m'' → Within m m''

theorem withinTrans {m m' m'' : CacheManager K} (one : Within m m') (two : Within m' m'') : Within m m'' := by
  induction two with
  | here => exact one
  | flushed _ waits ih => exact .flushed ih waits
  | evicted _ evicts ih => exact .evicted ih evicts

theorem flushPendingObjsWithin (m : CacheManager K) : Within m m.flushPendingObjs.1 :=
  flushPendingObjsRule (P := Within m) (fun _ _ _ h waits => .flushed h waits) .here

theorem flushIWithin (m : CacheManager K) : Within m m.flushI.1 := by
  have flushed := flushPendingObjsWithin m
  unfold flushI
  simp only
  split
  · exact flushed
  · split
    · rename_i evicts
      exact .evicted flushed evicts
    · exact flushed

theorem dropSomeWithin {fuel : Nat} {m m' : CacheManager K} {result : Int}
    (ends : dropSome fuel m = some (m',result)) : Within m m' :=
  dropSomeRule (P := Within m) (fun m' h => withinTrans h (flushIWithin m')) .here ends

theorem dropAllWithin {fuel : Nat} {m m' : CacheManager K} (ends : dropAll fuel m = some m') : Within m m' :=
  dropAllRule (P := Within m) (fun _ _ h evicts => .evicted h evicts) .here ends

theorem flushAllWithin {m m' : CacheManager K} (flushes : m.flushAll = some m') : Within m m' :=
  withinTrans (flushPendingObjsWithin m) (dropAllWithin flushes)

theorem checkWaterMarkWithin {m m' : CacheManager K} {size : BitVec 64} {result : Int}
    (room : m.checkWaterMark size = some (m',result)) : Within m m' := by
  unfold checkWaterMark at room
  split at room
  · exact dropSomeWithin room
  · cases Option.some.inj room
    exact .here

theorem withinInvariant {m m' : CacheManager K} (h : Invariant m) (within : Within m m') : Invariant m' := by
  induction within with
  | here => exact h
  | flushed _ waits ih =>
    obtain ⟨l,f,inv⟩ := ih
    exact ⟨l,f,flushPendingObjInv inv waits⟩
  | evicted _ evicts ih => exact evictInvariant _ _ ih evicts

/- What the constructor sets and nothing changes. -/
structure SameMarks (m m' : CacheManager K) : Prop where
  maxSize : m'.cobjMaxSize = m.cobjMaxSize
  high : m'.highWaterMark = m.highWaterMark
  low : m'.lowWaterMark = m.lowWaterMark

theorem flushPendingObjMarks (m : CacheManager K) (k : K) (o : Obj) : SameMarks m (m.flushPendingObj (k,o)) := by
  by_cases free : (m.objs o).refcount = 0
  · rw [flushPendingObjFree free,dropObjectEq]
    exact ⟨rfl,rfl,rfl⟩
  · simp only [flushPendingObj,if_neg free]
    exact ⟨rfl,rfl,rfl⟩

theorem dropIMarks (m : CacheManager K) (key : K) (o : Obj) : SameMarks m (m.dropI key o).1 := by
  unfold dropI
  split
  · rw [dropObjectEq]
    exact ⟨rfl,rfl,rfl⟩
  · exact ⟨rfl,rfl,rfl⟩

theorem evictMarks {m m' : CacheManager K} (h : Invariant m) (evicts : m.evict = some m') : SameMarks m m' := by
  obtain ⟨l,f,inv⟩ := h
  cases l with
  | nil => rw [evictEmpty inv] at evicts; contradiction
  | cons i l =>
    obtain ⟨k,o,queue,-,-,-,-,-,result⟩ := evictHead inv
    rw [result] at evicts
    cases Option.some.inj evicts
    have same := dropIMarks (unqueue m k queue) k o
    exact ⟨same.maxSize,same.high,same.low⟩

theorem withinMarks {m m' : CacheManager K} (h : Invariant m) (within : Within m m') : SameMarks m m' := by
  induction within with
  | here => exact ⟨rfl,rfl,rfl⟩
  | @flushed m' k o _ waits ih =>
    have same := flushPendingObjMarks m' k o
    exact ⟨same.maxSize.trans ih.maxSize,same.high.trans ih.high,same.low.trans ih.low⟩
  | evicted inside evicts ih =>
    have same := evictMarks (withinInvariant h inside) evicts
    exact ⟨same.maxSize.trans ih.maxSize,same.high.trans ih.high,same.low.trans ih.low⟩

section Total
variable {K : Type*}

/- The sizes as they are, without wrapping. -/
def total (objs : Objects) (es : List (K × Obj)) : Nat := (es.map fun e => (objs e.2).size.toNat).sum

theorem totalCongr {objs objs' : Objects} {es : List (K × Obj)}
    (same : ∀ e ∈ es, (objs' e.2).size = (objs e.2).size) : total objs' es = total objs es := by
  unfold total
  rw [List.map_congr_left fun e he => congrArg BitVec.toNat (same e he)]

theorem totalPerm {objs : Objects} {es es' : List (K × Obj)} (h : es.Perm es') : total objs es = total objs es' :=
  (h.map _).sum_nat

end Total

theorem totalErase (objs : Objects) {m : OrderedMap K Obj} {k : K} {o : Obj} (h : m.find k = some o) :
    total objs m.entries = (objs o).size.toNat + total objs (m.erase k).entries :=
  totalPerm (OrderedMap.erasePerm h)

theorem totalInsert (objs : Objects) {m : OrderedMap K Obj} {k : K} {o : Obj} (h : m.find k = none) :
    total objs (m.insert k o).entries = (objs o).size.toNat + total objs m.entries :=
  totalPerm (OrderedMap.insertPerm h)

/- Every subtraction from the water mark is the size of an object one of the maps
holds, so held says that none wraps. -/
structure Bounded (m : CacheManager K) : Prop where
  high : m.waterMark ≤ m.highWaterMark
  held : total m.objs m.cacheMap.entries + total m.objs m.pendingList.entries ≤ m.waterMark.toNat

theorem subSize (water size : BitVec 64) (enough : size.toNat ≤ water.toNat) :
    (water - size).toNat = water.toNat - size.toNat := by
  rw [BitVec.toNat_sub_of_le (BitVec.le_def.2 enough)]

theorem flushPendingObjBounded {m : CacheManager K} {k : K} {o : Obj} (bounded : Bounded m)
    (waits : m.pendingList.find k = some o) : Bounded (m.flushPendingObj (k,o)) := by
  by_cases free : (m.objs o).refcount = 0
  · have held := bounded.held
    rw [totalErase m.objs waits] at held
    have water := subSize m.waterMark (m.objs o).size (by omega)
    have high := BitVec.le_def.1 bounded.high
    rw [flushPendingObjFree free,dropObjectEq]
    refine ⟨BitVec.le_def.2 ?_,?_⟩
    · simp only [destroy,emit]
      omega
    · simp only [destroy,emit]
      omega
  · simpa only [flushPendingObj,if_neg free] using bounded

theorem evictBounded {m m' : CacheManager K} (h : Invariant m) (bounded : Bounded m)
    (evicts : m.evict = some m') : Bounded m' := by
  obtain ⟨l,f,inv⟩ := h
  cases l with
  | nil => rw [evictEmpty inv] at evicts; contradiction
  | cons i l =>
    obtain ⟨k,o,queue,maps,-,-,-,-,result⟩ := evictHead inv
    rw [result] at evicts
    cases Option.some.inj evicts
    have held := bounded.held
    rw [totalErase m.objs maps] at held
    have high := BitVec.le_def.1 bounded.high
    by_cases free : (m.objs o).refcount = 0
    · have water := subSize m.waterMark (m.objs o).size (by omega)
      have drops : (unqueue m k queue).dropI k o = (((unqueue m k queue).dropObject o).destroy o,0) :=
        if_pos free
      rw [drops,if_pos free,dropObjectEq]
      refine ⟨BitVec.le_def.2 ?_,?_⟩
      · simp only [destroy,emit,unqueue]
        omega
      · simp only [destroy,emit,unqueue]
        omega
    · have waits : (unqueue m k queue).dropI k o =
          ({ unqueue m k queue with pendingList := m.pendingList.insert k o },-1) := if_neg free
      rw [if_neg free,waits]
      refine ⟨bounded.high,?_⟩
      simp only [unqueue]
      -- a refused insertion leaves the object out of both maps
      cases found : m.pendingList.find k with
      | some q =>
        rw [OrderedMap.insertPresent found]
        omega
      | none =>
        rw [totalInsert m.objs found]
        omega

theorem withinBounded {m m' : CacheManager K} (h : Invariant m) (bounded : Bounded m) (within : Within m m') :
    Bounded m' := by
  induction within with
  | here => exact bounded
  | flushed _ waits ih => exact flushPendingObjBounded ih waits
  | evicted inside evicts ih => exact evictBounded (withinInvariant h inside) ih evicts

/- The loop of make_cobj that does not give up ends at the low mark. -/
theorem dropSomeLow {fuel : Nat} {m m' : CacheManager K} {result : Int} (made : result ≠ -1)
    (ends : dropSome fuel m = some (m',result)) : m'.waterMark ≤ m'.lowWaterMark := by
  induction fuel generalizing m with
  | zero => contradiction
  | succ fuel ih =>
    simp only [dropSome] at ends
    split at ends
    · cases Option.some.inj ends
      exact absurd rfl made
    · split at ends
      · exact ih ends
      · rename_i low
        cases Option.some.inj ends
        exact BitVec.not_lt.1 low

/- What is asked of the marks a cache is made with. -/
structure Marks (m : CacheManager K) : Prop where
  order : m.lowWaterMark ≤ m.highWaterMark
  room : m.cobjMaxSize ≤ m.highWaterMark - m.lowWaterMark
  small : m.highWaterMark.toNat < 2048 * 1024 * 1024

theorem marksSame {m m' : CacheManager K} (same : SameMarks m m') (marks : Marks m) : Marks m' := by
  refine ⟨?_,?_,?_⟩
  · rw [same.low,same.high]
    exact marks.order
  · rw [same.low,same.high,same.maxSize]
    exact marks.room
  · rw [same.high]
    exact marks.small

/- There is room for the object once the water mark was checked. -/
theorem checkedFits {m m' : CacheManager K} {size : BitVec 64} {result : Int} (h : Invariant m) (marks : Marks m)
    (bounded : Bounded m) (fits : ¬ size > m.cobjMaxSize) (made : result ≠ -1)
    (room : m.checkWaterMark size = some (m',result)) :
    m'.waterMark.toNat + size.toNat ≤ m'.highWaterMark.toNat := by
  have same := withinMarks h (checkWaterMarkWithin room)
  have order := BitVec.le_def.1 marks.order
  have gap := BitVec.le_def.1 marks.room
  have small := BitVec.le_def.1 (BitVec.not_lt.1 fits)
  rw [BitVec.toNat_sub_of_le marks.order] at gap
  unfold checkWaterMark at room
  split at room
  · have low := BitVec.le_def.1 (dropSomeLow made room)
    rw [same.high]
    rw [same.low] at low
    omega
  · rename_i under
    cases Option.some.inj room
    have high := BitVec.le_def.1 bounded.high
    have bound := marks.small
    have sum := BitVec.le_def.1 (BitVec.not_lt.1 under)
    rw [BitVec.toNat_add,Nat.mod_eq_of_lt (by omega)] at sum
    omega

theorem getIBounded {m : CacheManager K} (h : Invariant m) (bounded : Bounded m) (key : K) :
    Bounded (handOut (m.getI key)) ∧ SameMarks m (handOut (m.getI key)) := by
  obtain ⟨l,f,inv⟩ := h
  have acquired : ∀ o, total (m.objs.acquire o) m.cacheMap.entries = total m.objs m.cacheMap.entries ∧
      total (m.objs.acquire o) m.pendingList.entries = total m.objs m.pendingList.entries := fun o =>
    ⟨totalCongr fun e _ => acquireSize m.objs o e.2,totalCongr fun e _ => acquireSize m.objs o e.2⟩
  unfold getI
  cases cached : m.cacheMap.find key with
  | some o =>
    obtain ⟨i,mem,holds,proxy⟩ := inv.mapped key o cached
    obtain ⟨l₁,l₂,rfl⟩ := List.append_of_mem mem
    obtain ⟨-,objs,-⟩ := CacheDeque.adjustRep inv.queue holds m.objs
    simp only [handOut,proxy,objs,emit]
    refine ⟨⟨bounded.high,?_⟩,rfl,rfl,rfl⟩
    simp only [(acquired o).1,(acquired o).2]
    exact bounded.held
  | none =>
    simp only [getPendingObj]
    cases waits : m.pendingList.find key with
    | none => exact ⟨bounded,rfl,rfl,rfl⟩
    | some o =>
      refine ⟨⟨bounded.high,?_⟩,rfl,rfl,rfl⟩
      simp only [handOut,emit,(acquired o).1,(acquired o).2]
      exact bounded.held

theorem placedBounded {m : CacheManager K} {size : BitVec 64} (h : Invariant m) (bounded : Bounded m)
    (fits : m.waterMark.toNat + size.toNat ≤ m.highWaterMark.toNat) (data : Address) (ob : Option Address)
    (key : K) : Bounded (handOut (placed (m.create data size ob).1 key m.created)) ∧
      SameMarks m (handOut (placed (m.create data size ob).1 key m.created)) := by
  obtain ⟨l,f,inv⟩ := h
  have old : ∀ p, Stored m p → p ≠ m.created := fun p s => Nat.ne_of_lt (inv.live p s).created
  have counted : ∀ objs : Objects, (∀ p, (objs p).size = ((m.create data size ob).1.objs p).size) →
      total objs m.cacheMap.entries = total m.objs m.cacheMap.entries ∧
        total objs m.pendingList.entries = total m.objs m.pendingList.entries := by
    intro objs sizes
    have same : ∀ p, Stored m p → (objs p).size = (m.objs p).size := fun p s => by
      rw [sizes]
      simp [create,old p s]
    exact ⟨totalCongr fun e he => same e.2 ⟨e.1,.inl (OrderedMap.findIff.2 he)⟩,
      totalCongr fun e he => same e.2 ⟨e.1,.inr (OrderedMap.findIff.2 he)⟩⟩
  unfold placed
  cases absent : (m.create data size ob).1.cacheMap.find key with
  | some p =>
    have before := counted _ fun _ => rfl
    rw [if_pos (Option.some_ne_none p)]
    refine ⟨⟨bounded.high,?_⟩,rfl,rfl,rfl⟩
    exact (Nat.add_le_add (Nat.le_of_eq before.1) (Nat.le_of_eq before.2)).trans bounded.held
  | none =>
    obtain ⟨created,-,-,-⟩ := createInv inv data size ob
    obtain ⟨i,f',-,-,objs,-⟩ := CacheDeque.insertRep created.queue (m.create data size ob).1.objs key m.created
    have sizes : ∀ p, ((((m.create data size ob).1.objs.acquire m.created).setProxy m.created i) p).size =
        ((m.create data size ob).1.objs p).size := fun p =>
      (setProxySize _ _ _ _).trans (acquireSize _ _ _)
    have before := counted _ sizes
    have own : ((((m.create data size ob).1.objs.acquire m.created).setProxy m.created i) m.created).size = size := by
      rw [sizes]
      simp [create]
    have inserted := totalInsert (((m.create data size ob).1.objs.acquire m.created).setProxy m.created i)
      (o := m.created) absent
    have map : (m.create data size ob).1.cacheMap = m.cacheMap := rfl
    have pending : (m.create data size ob).1.pendingList = m.pendingList := rfl
    have water : (m.create data size ob).1.waterMark = m.waterMark := rfl
    have below := m.highWaterMark.isLt
    have grown : (m.waterMark + size).toNat = m.waterMark.toNat + size.toNat := by
      rw [BitVec.toNat_add,Nat.mod_eq_of_lt (by omega)]
    have held := bounded.held
    rw [if_neg (not_not.2 rfl),objs]
    simp only [handOut,emit,own,water]
    refine ⟨⟨BitVec.le_def.2 (grown.trans_le fits),?_⟩,rfl,rfl,rfl⟩
    simp only
    rw [inserted,own,grown,map,pending,before.1,before.2]
    omega

theorem stepBounded {m m' : CacheManager K} {a : Act K} (h : Invariant m) (marks : Marks m) (bounded : Bounded m)
    (steps : step m a = some m') : Bounded m' ∧ SameMarks m m' := by
  have inside : ∀ m', Within m m' → Bounded m' ∧ SameMarks m m' := fun _ within =>
    ⟨withinBounded h bounded within,withinMarks h within⟩
  cases a with
  | put key data size ob =>
    obtain ⟨r,puts,rfl⟩ := Option.map_eq_some_iff.1 steps
    rcases putICases puts with ⟨-,rfl⟩ | ⟨-,fits,m₁,result,room,made⟩
    · exact inside m .here
    · obtain ⟨before,same⟩ := inside m₁ (checkWaterMarkWithin room)
      rcases made with rfl | ⟨made,data,rfl⟩
      · exact ⟨before,same⟩
      · have small := checkedFits h marks bounded (not_or.1 fits).1 made room
        have invariant := checkWaterMarkInvariant h room
        obtain ⟨after,same'⟩ := placedBounded invariant before small data ob key
        exact ⟨after,same'.maxSize.trans same.maxSize,same'.high.trans same.high,same'.low.trans same.low⟩
  | get key =>
    cases Option.some.inj steps
    exact getIBounded h bounded key
  | release o =>
    simp only [step] at steps
    split at steps
    · cases Option.some.inj steps
      refine ⟨⟨bounded.high,?_⟩,rfl,rfl,rfl⟩
      simp only [emit]
      rw [totalCongr fun e _ => releaseSize m.objs o e.2,totalCongr fun e _ => releaseSize m.objs o e.2]
      exact bounded.held
    · contradiction
  | flush =>
    cases Option.some.inj steps
    exact inside _ (flushIWithin m)
  | flushAll => exact inside _ (flushAllWithin steps)

/- The bound in a state, in those a call from it goes through, and put's end. -/
structure KeepsBound (m : CacheManager K) : Prop where
  bounded : ∀ m', Within m m' → Bounded m'
  ends : ∀ key data size ob, ∃ m', step m (.put key data size ob) = some m'

theorem boundKept (minObjSize maxObjSize high low : BitVec 64) (order : low ≤ high)
    (room : maxObjSize ≤ high - low) (small : high.toNat < 2048 * 1024 * 1024) (as : List (Act K)) :
    Always step KeepsBound (CacheManager.new minObjSize maxObjSize high low : CacheManager K) as := by
  have keeps : ∀ (m : CacheManager K) a m', (Invariant m ∧ Marks m ∧ Bounded m) → step m a = some m' →
      Invariant m' ∧ Marks m' ∧ Bounded m' := by
    rintro m a m' ⟨h,marks,bounded⟩ steps
    obtain ⟨after,same⟩ := stepBounded h marks bounded steps
    exact ⟨stepInv h steps,marksSame same marks,after⟩
  have start : Bounded (CacheManager.new minObjSize maxObjSize high low : CacheManager K) :=
    ⟨BitVec.le_def.2 (Nat.zero_le _),Nat.le_refl _⟩
  refine alwaysMono ?_ (alwaysInvariant keeps ⟨⟨[],[],newInv minObjSize maxObjSize high low⟩,⟨order,room,small⟩,start⟩ as)
  rintro m ⟨h,-,bounded⟩
  exact ⟨fun m' within => withinBounded h bounded within,fun key data size ob => callsReturn h _ nofun⟩

/- 8 MB high and 4 MB low, objects of at most 4 MB. -/
theorem smallCacheBound : Always step KeepsBound
    (CacheManager.new 1 4194304 8388608 4194304 : CacheManager Nat)
    [.put 1 (some 1) 4194304 none,.put 2 (some 2) 4194304 none,.put 3 (some 3) 1048576 none] :=
  boundKept 1 4194304 8388608 4194304 (by decide) (by decide) (by decide) _

end CuteNdk.Cache
