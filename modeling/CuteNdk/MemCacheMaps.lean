import CuteNdk.CacheDrops
import Mathlib.Algebra.GroupWithZero.Nat

/-! mem_cache_transfer over g_cache_manager: the files open maps into memory for the cache, the
observer that unmaps them, and g_cache_mem_used. Each call of the cache manager is one step, as
cache_mutex_ makes it, and open goes on between its calls. -/
namespace CuteNdk.MemCacheMaps
open Cache Cache.CacheManager
open Lib (Always Along alwaysIffAlong)

/- MAP_FAILED, which open does not look for: it compares with 0. -/
def mapFailed : Address := 0xFFFFFFFFFFFFFFFF

def cacheObjectObserver : Address := 1

/- A mem_cache_transfer: in open, behind a get that found nothing, behind mmap, or with cache_obj_. -/
inductive Transfer (K : Type*) where
  | missed (url : K) (length : BitVec 64)
  | mapped (url : K) (length : BitVec 64) (data : Address)
  | opened (cacheObj : Obj)
  deriving DecidableEq

/- maps has the length of what is mapped at an address. stray stands for an munmap of anything but
what was mapped. -/
structure State (K : Type*) [LinearOrder K] where
  manager : CacheManager K
  maps : Address → Option (BitVec 64)
  cacheMemUsed : Int
  stray : Bool
  transfers : List (Transfer K)

/- An int, from what is added to it. -/
def int (n : Int) : Int := n.bmod 0x100000000

section Model
variable {K : Type*} [LinearOrder K]

def State.new (minObjSize maxObjSize highWaterMark lowWaterMark : BitVec 64) : State K :=
  ⟨.new minObjSize maxObjSize highWaterMark lowWaterMark,fun _ => none,0,false,[]⟩

/- The munmap of MAP_FAILED fails with EINVAL. -/
def State.munmap (s : State K) (data : Address) (size : BitVec 64) : State K :=
  if data = mapFailed then s
  else if s.maps data = some size then { s with maps := Function.update s.maps data none }
  else { s with stray := true }

/- observer::drop -/
def State.drop (s : State K) (cobj : Obj) : State K :=
  { s with cacheMemUsed := int (s.cacheMemUsed - (s.manager.objs cobj).size.toNat) }.munmap
    ((s.manager.objs cobj).data.getD 0) (s.manager.objs cobj).size

def droppedBy : Event → Option Obj
  | .drop o => some o
  | _ => none

/- The objects whose observer is called on the way from m to m', in order. -/
def dropped (m m' : CacheManager K) : List Obj :=
  ((m'.trace.take (m'.trace.length - m.trace.length)).filterMap droppedBy).reverse

def State.after (s : State K) (m : CacheManager K) : State K := (dropped s.manager m).foldl State.drop { s with manager := m }

/- make is new and the get of open; openFails and a put that returns -1 are followed by delete. -/
inductive Act (K : Type*) where
  | make (url : K) (length : BitVec 64)
  | openFails (url : K) (length : BitVec 64)
  | mmap (url : K) (length : BitVec 64) (data : Address)
  | put (url : K) (length : BitVec 64) (data : Address)
  | delete (cacheObj : Obj)
  | flushAll
  deriving DecidableEq

/- The inner none is a call of the cache manager that does not return. -/
def act (s : State K) : Act K → Option (Option (State K))
  | .make url length =>
    let got := s.manager.getI url
    let transfer := match got.2 with
      | none => .missed url length
      | some o => .opened o
    some (some { s.after (handOut got) with transfers := transfer :: s.transfers })
  | .openFails url length =>
    if .missed url length ∈ s.transfers then some (some { s with transfers := s.transfers.erase (.missed url length) })
    else none
  | .mmap url length data =>
    if .missed url length ∈ s.transfers ∧ (data = mapFailed ∨ data ≠ 0 ∧ length ≠ 0 ∧ s.maps data = none) then
      some (some { s with
        maps := if data = mapFailed then s.maps else Function.update s.maps data (some length)
        transfers := .mapped url length data :: s.transfers.erase (.missed url length) })
    else none
  | .put url length data =>
    if .mapped url length data ∈ s.transfers then
      some ((s.manager.putI url (some data) length (some cacheObjectObserver)).map fun put =>
        let s' := { s.after (handOut put) with transfers := s.transfers.erase (.mapped url length data) }
        match put.2 with
        | some o => { s' with
            cacheMemUsed := int (s'.cacheMemUsed + length.toNat)
            transfers := .opened o :: s'.transfers }
        | none => s'.munmap data length)
    else none
  | .delete o =>
    if .opened o ∈ s.transfers then
      some ((Cache.step s.manager (.release o)).map fun m =>
        { s.after m with transfers := s.transfers.erase (.opened o) })
    else none
  | .flushAll => some (s.manager.flushAll.map s.after)

def step (o : Option (State K)) (a : Act K) : Option (Option (State K)) := o.bind fun s => act s a

/- The objects that are not destroyed. -/
def State.held (s : State K) : List Obj :=
  (List.range s.manager.created).filter fun o => .destroy o ∉ s.manager.trace

/- What a transfer sends from is mapped; nothing is unmapped that was not mapped as it is; and what is
mapped is an object's of the cache, which g_cache_mem_used counts, or that of an open under way. -/
structure Mapped (s : State K) : Prop where
  reads : ∀ o, .opened o ∈ s.transfers →
    ∃ a, (s.manager.objs o).data = some a ∧ s.maps a = some (s.manager.objs o).size
  once : s.stray = false
  owned : ∀ a n, s.maps a = some n → (∃ o ∈ s.held, (s.manager.objs o).data = some a ∧ (s.manager.objs o).size = n) ∨
    ∃ url, .mapped url n a ∈ s.transfers
  used : s.cacheMemUsed = int (s.held.map fun o => (s.manager.objs o).size.toNat).sum

/- The cache refuses the object where mmap failed. -/
def Fine (s : State K) : Act K → Prop
  | .put url length data => data = mapFailed →
    (s.manager.putI url (some data) length (some cacheObjectObserver)).map Prod.snd = some none
  | _ => True

def Good (o : Option (State K)) : Prop := ∃ s, o = some s ∧ Mapped s

end Model

/- What is mapped, as the list of those that have it. -/
structure Owned (maps : Address → Option (BitVec 64)) (R : List (Address × BitVec 64)) : Prop where
  once : (R.map Prod.fst).Nodup
  all : ∀ a n, maps a = some n ↔ (a,n) ∈ R

section Owned
variable {maps : Address → Option (BitVec 64)} {R R' : List (Address × BitVec 64)} {a : Address} {n : BitVec 64}

theorem ownedPerm (h : Owned maps R) (perm : R.Perm R') : Owned maps R' :=
  ⟨(perm.map Prod.fst).nodup_iff.1 h.once,fun a n => (h.all a n).trans perm.mem_iff⟩

theorem ownedMap (h : Owned maps R) (free : maps a = none) : Owned (Function.update maps a (some n)) ((a,n) :: R) := by
  refine ⟨List.nodup_cons.2 ⟨fun mem => ?_,h.once⟩,fun b k => ?_⟩
  · obtain ⟨e,mem,same⟩ := List.mem_map.1 mem
    have there := (h.all e.1 e.2).2 mem
    rw [same] at there
    rw [free] at there
    cases there
  · rw [List.mem_cons,← h.all b k]
    by_cases same : b = a
    · subst same
      rw [Function.update_self,free,Prod.mk.injEq]
      exact ⟨fun eq => .inl ⟨rfl,(Option.some.inj eq).symm⟩,fun or => or.elim (fun eq => congrArg some eq.2.symm) (nomatch ·)⟩
    · rw [Function.update_of_ne same,Prod.mk.injEq]
      exact ⟨.inr,fun or => or.elim (fun eq => absurd eq.1 same) id⟩

theorem ownedUnmap (h : Owned maps ((a,n) :: R)) : Owned (Function.update maps a none) R := by
  obtain ⟨off,once⟩ := List.nodup_cons.1 h.once
  refine ⟨once,fun b k => ?_⟩
  by_cases same : b = a
  · subst same
    rw [Function.update_self]
    exact ⟨fun no => (nomatch no),fun mem => absurd (List.mem_map_of_mem mem) off⟩
  · rw [Function.update_of_ne same,h.all b k,List.mem_cons,Prod.mk.injEq]
    exact ⟨fun or => or.resolve_left fun eq => same eq.1,.inr⟩

end Owned

def region (objs : Objects) (o : Obj) : Address × BitVec 64 := ((objs o).data.getD 0,(objs o).size)

section Inv
variable {K : Type*} [LinearOrder K] {s : State K} {live : List Obj} {o : Obj}

/- What an open under way has mapped. -/
def opening : Transfer K → Option (Address × BitVec 64)
  | .mapped _ n a => if a = mapFailed then none else some (a,n)
  | _ => none

omit [LinearOrder K] in
theorem openingMapped {transfer : Transfer K} {a : Address} {n : BitVec 64} (opens : opening transfer = some (a,n)) :
    ∃ url, transfer = .mapped url n a := by
  cases transfer with
  | mapped url length data =>
    simp only [opening] at opens
    split at opens
    · cases opens
    · cases opens
      exact ⟨url,rfl⟩
  | missed => cases opens
  | opened => cases opens

structure Holds (s : State K) (live : List Obj) : Prop where
  owned : Owned s.maps (live.map (region s.manager.objs) ++ s.transfers.filterMap opening)
  data : ∀ o ∈ live, ∃ a, (s.manager.objs o).data = some a ∧ a ≠ mapFailed
  used : s.cacheMemUsed = int (live.map fun o => (s.manager.objs o).size.toNat).sum
  once : s.stray = false

theorem heldMapped (h : Holds s live) (mem : o ∈ live) :
    ∃ a, (s.manager.objs o).data = some a ∧ a ≠ mapFailed ∧ s.maps a = some (s.manager.objs o).size := by
  obtain ⟨a,data,proper⟩ := h.data o mem
  refine ⟨a,data,proper,(h.owned.all _ _).2 (List.mem_append_left _ (List.mem_map.2 ⟨o,mem,?_⟩))⟩
  rw [region,data]
  rfl

theorem intSub (x y : Int) : int (int x - y) = int (x - y) := Int.bmod_sub_bmod

theorem intAdd (x y : Int) : int (int x + y) = int (x + y) := Int.bmod_add_bmod

/- One call of the observer. -/
theorem dropHolds (h : Holds s live) (mem : o ∈ live) :
    Holds (s.drop o) (live.erase o) ∧ (s.drop o).manager = s.manager ∧ (s.drop o).transfers = s.transfers := by
  obtain ⟨a,data,proper,maps⟩ := heldMapped h mem
  have perm := List.perm_cons_erase mem
  have does : s.drop o = { s with
      cacheMemUsed := int (s.cacheMemUsed - (s.manager.objs o).size.toNat)
      maps := Function.update s.maps a none } := by
    unfold State.drop State.munmap
    rw [data]
    exact (if_neg proper).trans (if_pos maps)
  rw [does]
  refine ⟨⟨?_,fun p there => h.data p (List.mem_of_mem_erase there),?_,h.once⟩,rfl,rfl⟩
  · have region_ : region s.manager.objs o = (a,(s.manager.objs o).size) := by
      rw [region,data]
      rfl
    have moved := ownedPerm h.owned ((perm.map (region s.manager.objs)).append_right _)
    rw [List.map_cons,List.cons_append,region_] at moved
    exact ownedUnmap moved
  · have sum := (perm.map fun o => (s.manager.objs o).size.toNat).sum_nat
    rw [List.map_cons,List.sum_cons] at sum
    show int (s.cacheMemUsed - (s.manager.objs o).size.toNat) =
      int ((live.erase o).map fun o => (s.manager.objs o).size.toNat).sum
    rw [h.used,intSub,sum]
    exact congrArg int (by omega)

theorem dropsHolds {gone : List Obj} (h : Holds s live) (nodup : gone.Nodup) (among : ∀ o ∈ gone, o ∈ live) :
    Holds (gone.foldl State.drop s) (live.diff gone) ∧ (gone.foldl State.drop s).manager = s.manager ∧
      (gone.foldl State.drop s).transfers = s.transfers := by
  induction gone generalizing s live with
  | nil => exact ⟨h,rfl,rfl⟩
  | cons o gone ih =>
    obtain ⟨off,nodup⟩ := List.nodup_cons.1 nodup
    obtain ⟨h',manager,transfers⟩ := dropHolds h (among o List.mem_cons_self)
    have among' : ∀ p ∈ gone, p ∈ live.erase o := fun p mem => by
      have other : p ≠ o := fun same => off (same ▸ mem)
      exact (List.mem_erase_of_ne other).2 (among p (List.mem_cons_of_mem o mem))
    obtain ⟨h'',manager',transfers'⟩ := ih h' nodup among'
    rw [List.foldl_cons,List.diff_cons]
    exact ⟨h'',manager'.trans manager,transfers'.trans transfers⟩

theorem goodbyesDropped (gone : List Obj) : (goodbyes gone).filterMap droppedBy = gone := by
  induction gone with
  | nil => rfl
  | cons o gone ih => exact congrArg (o :: ·) ih

theorem droppedGoodbyes {m m' : CacheManager K} {new : List Event} {gone : List Obj} (plain : new.filterMap droppedBy = [])
    (trace : m'.trace = new ++ goodbyes gone ++ m.trace) : dropped m m' = gone.reverse := by
  unfold dropped
  rw [trace,List.length_append,Nat.add_sub_cancel,List.take_left,List.filterMap_append,plain,goodbyesDropped,List.nil_append]

structure Inv (s : State K) (live : List Obj) : Prop where
  cache : Invariant s.manager
  watched : Watched s.manager
  nodup : live.Nodup
  alive : ∀ o, o ∈ live ↔ o < s.manager.created ∧ .destroy o ∉ s.manager.trace
  counts : ∀ o, outstanding s.manager.trace o = (s.transfers.count (.opened o) : Int)
  holds : Holds s live

def Kept (o : Option (State K)) : Prop := ∃ s live, o = some s ∧ Inv s live

theorem cacheSafe {m : CacheManager K} (h : Invariant m) : Safe m.trace := by
  obtain ⟨_,_,inv⟩ := h
  exact inv.safe

/- An object that is handed out and not released is one of those made and not destroyed. -/
theorem openedLive (h : Inv s live) (mem : .opened o ∈ s.transfers) : o ∈ live := by
  have held : 0 < outstanding s.manager.trace o := by
    rw [h.counts o]
    exact Int.natCast_pos.2 (List.count_pos_iff.2 mem)
  refine (h.alive o).2 ⟨?_,heldKept (cacheSafe h.cache) held⟩
  obtain ⟨_,_,inv⟩ := h.cache
  by_contra new
  rw [(inv.fresh o (Nat.le_of_not_lt new)).1] at held
  exact absurd held (lt_irrefl _)

theorem heldPerm (h : Inv s live) : live.Perm s.held := by
  refine (List.perm_ext_iff_of_nodup h.nodup (List.nodup_range.filter _)).2 fun o => ?_
  rw [h.alive o,List.mem_filter,List.mem_range,decide_eq_true_iff]

theorem invMapped (h : Inv s live) : Mapped s := by
  have perm := heldPerm h
  refine ⟨fun o mem => ?_,h.holds.once,fun a n maps => ?_,?_⟩
  · obtain ⟨a,data,_,maps⟩ := heldMapped h.holds (openedLive h mem)
    exact ⟨a,data,maps⟩
  · rcases List.mem_append.1 ((h.holds.owned.all a n).1 maps) with mem | mem
    · obtain ⟨o,there,same⟩ := List.mem_map.1 mem
      obtain ⟨b,data,_⟩ := h.holds.data o there
      rw [region,data,Option.getD_some] at same
      cases same
      exact .inl ⟨o,perm.mem_iff.1 there,data,rfl⟩
    · obtain ⟨transfer,there,opens⟩ := List.mem_filterMap.1 mem
      obtain ⟨url,rfl⟩ := openingMapped opens
      exact .inr ⟨url,there⟩
  · rw [h.holds.used]
    exact congrArg (fun n : Nat => int n) (perm.map _).sum_nat

/- The state after a call that lets the objects gone go, and has made none. -/
theorem afterHolds {m : CacheManager K} (new : List Event) (gone : List Obj) (h : Inv s live) (cache : Invariant m)
    (plain : new.filterMap droppedBy = []) (trace : m.trace = new ++ goodbyes gone ++ s.manager.trace)
    (made : ∀ o ∈ gone, o < s.manager.created)
    (data : ∀ o < s.manager.created, (m.objs o).data = (s.manager.objs o).data ∧ (m.objs o).size = (s.manager.objs o).size) :
    Holds (s.after m) (live.diff gone.reverse) ∧ (s.after m).manager = m ∧ (s.after m).transfers = s.transfers ∧
      ∀ o, o ∈ live.diff gone.reverse ↔ o < s.manager.created ∧ .destroy o ∉ goodbyes gone ++ s.manager.trace := by
  have safe : Safe (goodbyes gone ++ s.manager.trace) := by
    have all := cacheSafe cache
    rw [trace,List.append_assoc] at all
    clear trace plain
    induction new with
    | nil => exact all
    | cons e new ih => exact ih all.1
  obtain ⟨nodup,off⟩ := goneOnce safe
  have same : ∀ o ∈ live, region m.objs o = region s.manager.objs o := fun o mem => by
    obtain ⟨data,size⟩ := data o ((h.alive o).1 mem).1
    unfold region
    rw [data,size]
  have start : Holds { s with manager := m } live := by
    refine ⟨?_,fun o mem => ?_,?_,h.holds.once⟩
    · have owned := h.holds.owned
      rw [← List.map_congr_left same] at owned
      exact owned
    · rw [(data o ((h.alive o).1 mem).1).1]
      exact h.holds.data o mem
    · refine h.holds.used.trans (congrArg (fun l : List Nat => int l.sum) (List.map_congr_left fun o mem => ?_))
      rw [(data o ((h.alive o).1 mem).1).2]
  have among : ∀ o ∈ gone.reverse, o ∈ live := fun o mem =>
    (h.alive o).2 ⟨made o (List.mem_reverse.1 mem),off o (List.mem_reverse.1 mem)⟩
  obtain ⟨holds,manager,transfers⟩ := dropsHolds start (List.nodup_reverse.2 nodup) among
  unfold State.after
  rw [droppedGoodbyes plain trace]
  refine ⟨holds,manager,transfers,fun o => ?_⟩
  rw [h.nodup.mem_sdiff_iff,h.alive o,List.mem_reverse,List.mem_append,destroyGoodbyes]
  tauto

/- A transfer that has nothing mapped goes. -/
theorem openingErase {x : Transfer K} {l : List (Transfer K)} (mem : x ∈ l) (none_ : opening x = none) :
    (l.filterMap opening).Perm ((l.erase x).filterMap opening) := by
  have perm := (List.perm_cons_erase mem).filterMap opening
  rwa [List.filterMap_cons_none none_] at perm

theorem holdsTransfers (h : Holds s live) {transfers : List (Transfer K)}
    (perm : (s.transfers.filterMap opening).Perm (transfers.filterMap opening)) :
    Holds { s with transfers := transfers } live :=
  ⟨ownedPerm h.owned (perm.append_left _),h.data,h.used,h.once⟩

theorem invOf {m : CacheManager K} {s' : State K} (manager : s'.manager = m) (cache : Invariant m) (watched : Watched m)
    (nodup : live.Nodup) (alive : ∀ o, o ∈ live ↔ o < m.created ∧ .destroy o ∉ m.trace)
    (counts : ∀ o, outstanding m.trace o = (s'.transfers.count (.opened o) : Int)) (holds : Holds s' live) : Inv s' live := by
  subst manager
  exact ⟨cache,watched,nodup,alive,counts,holds⟩

theorem openedOther (transfers : List (Transfer K)) {x : Transfer K} {o : Obj} (other : x ≠ .opened o) :
    (x :: transfers).count (.opened o) = transfers.count (.opened o) :=
  List.count_cons_of_ne other

theorem makeKeeps (h : Inv s live) (url : K) (length : BitVec 64) :
    ∃ s' live', act s (.make url length) = some (some s') ∧ Inv s' live' := by
  have cache : Invariant (handOut (s.manager.getI url)) := stepInv (a := .get url) h.cache rfl
  obtain ⟨trace,created,data,_⟩ := getDrops h.cache url
  have none_ : ∀ o ∈ ([] : List Obj), o < s.manager.created := fun _ mem => absurd mem List.not_mem_nil
  refine ⟨_,live,rfl,?_⟩
  cases found : (s.manager.getI url).2 with
  | none =>
    rw [handOutNone found] at cache ⊢
    obtain ⟨holds,manager,transfers,_⟩ := afterHolds [] [] h cache rfl trace none_
      fun o _ => ⟨(data o).1,(data o).2.1⟩
    refine invOf manager cache (watchedSame h.watched created data) h.nodup (fun o => ?_) (fun o => ?_) ?_
    · rw [created,trace]
      exact h.alive o
    · rw [trace,h.counts o]
      exact congrArg _ (openedOther _ (by simp)).symm
    · refine holdsTransfers holds ?_
      rw [transfers,List.filterMap_cons_none rfl]
  | some p =>
    rw [handOutSome found] at cache ⊢
    have traced : ((s.manager.getI url).1.emit (.handOut p)).trace = .handOut p :: s.manager.trace :=
      congrArg (Event.handOut p :: ·) trace
    obtain ⟨holds,manager,transfers,_⟩ := afterHolds [.handOut p] [] h cache rfl traced none_
      fun o _ => ⟨(data o).1,(data o).2.1⟩
    refine invOf manager cache (watchedSame h.watched created data) h.nodup (fun o => ?_) (fun o => ?_) ?_
    · rw [traced,h.alive o,List.mem_cons,← created]
      exact and_congr_right fun _ => not_congr (by simp)
    · rw [traced,outstandingHandOut,h.counts o]
      by_cases same : p = o
      · subst same
        simp
      · rw [if_neg same,Int.add_zero]
        exact congrArg _ (openedOther _ (by simpa using same)).symm
    · refine holdsTransfers holds ?_
      rw [transfers,List.filterMap_cons_none rfl]

theorem openFailsKeeps (h : Inv s live) {x : Transfer K} (mem : x ∈ s.transfers) (none_ : opening x = none)
    (unopened : ∀ o, x ≠ .opened o) : Inv { s with transfers := s.transfers.erase x } live := by
  refine invOf rfl h.cache h.watched h.nodup h.alive (fun o => ?_) (holdsTransfers h.holds (openingErase mem none_))
  rw [h.counts o,List.count_erase_of_ne (unopened o).symm]

/- Nothing is ever mapped at MAP_FAILED. -/
theorem failedFree (h : Holds s live) : s.maps mapFailed = none := by
  by_contra some_
  obtain ⟨n,maps⟩ := Option.ne_none_iff_exists'.1 some_
  rcases List.mem_append.1 ((h.owned.all _ _).1 maps) with mem | mem
  · obtain ⟨o,there,same⟩ := List.mem_map.1 mem
    obtain ⟨a,data,proper⟩ := h.data o there
    rw [region,data,Option.getD_some] at same
    exact proper (congrArg Prod.fst same)
  · obtain ⟨transfer,_,opens⟩ := List.mem_filterMap.1 mem
    obtain ⟨url,rfl⟩ := openingMapped opens
    simp [opening] at opens

theorem mmapKeeps (h : Inv s live) {url : K} {length : BitVec 64} {data : Address} (mem : .missed url length ∈ s.transfers)
    (free : data = mapFailed ∨ data ≠ 0 ∧ length ≠ 0 ∧ s.maps data = none) : Inv { s with
      maps := if data = mapFailed then s.maps else Function.update s.maps data (some length)
      transfers := .mapped url length data :: s.transfers.erase (.missed url length) } live := by
  have erased := openingErase mem rfl
  refine invOf rfl h.cache h.watched h.nodup h.alive (fun o => ?_) ⟨?_,h.holds.data,h.holds.used,h.holds.once⟩
  · rw [h.counts o,openedOther _ (by simp),List.count_erase_of_ne (by simp)]
  · by_cases failed : data = mapFailed
    · have opens : opening (.mapped url length data) = none := if_pos failed
      rw [if_pos failed,List.filterMap_cons_none opens]
      exact ownedPerm h.holds.owned (erased.append_left _)
    · have opens : opening (.mapped url length data) = some (data,length) := if_neg failed
      rw [if_neg failed,List.filterMap_cons_some opens]
      refine ownedPerm (ownedMap (ownedPerm h.holds.owned (erased.append_left _)) ?_) List.perm_middle.symm
      exact (free.resolve_left failed).2.2

/- The munmap of open, once put has refused what is mapped. -/
theorem munmapHolds {url : K} {length : BitVec 64} {data : Address} (h : Holds s live)
    (mem : .mapped url length data ∈ s.transfers) :
    Holds ({ s with transfers := s.transfers.erase (.mapped url length data) }.munmap data length) live := by
  unfold State.munmap
  by_cases failed : data = mapFailed
  · rw [if_pos failed]
    exact holdsTransfers h (openingErase mem (if_pos failed))
  · have opens : opening (.mapped url length data) = some (data,length) := if_neg failed
    have perm := (List.perm_cons_erase mem).filterMap opening
    rw [List.filterMap_cons_some opens] at perm
    have owned := ownedPerm h.owned ((perm.append_left _).trans List.perm_middle)
    have there : s.maps data = some length := (owned.all _ _).2 List.mem_cons_self
    rw [if_neg failed,if_pos there]
    exact ⟨ownedUnmap owned,h.data,h.used,h.once⟩

theorem munmapRest (s : State K) (data : Address) (size : BitVec 64) :
    (s.munmap data size).manager = s.manager ∧ (s.munmap data size).transfers = s.transfers := by
  unfold State.munmap
  split
  · exact ⟨rfl,rfl⟩
  · split <;> exact ⟨rfl,rfl⟩

/- m is what put leaves when it returns -1. -/
theorem refusedKeeps {m : CacheManager K} (new : List Event) (gone : List Obj) {url : K} {length : BitVec 64} {data : Address}
    (h : Inv s live) (mem : .mapped url length data ∈ s.transfers) (cache : Invariant m) (watched : Watched m)
    (plain : new.filterMap droppedBy = []) (trace : m.trace = new ++ goodbyes gone ++ s.manager.trace)
    (made : ∀ o ∈ gone, o < s.manager.created)
    (same : ∀ o < s.manager.created, (m.objs o).data = (s.manager.objs o).data ∧ (m.objs o).size = (s.manager.objs o).size)
    (alive : ∀ o, o < m.created ∧ .destroy o ∉ m.trace ↔
      o < s.manager.created ∧ .destroy o ∉ goodbyes gone ++ s.manager.trace)
    (counts : ∀ o, outstanding m.trace o = outstanding s.manager.trace o) :
    Inv ({ s.after m with transfers := s.transfers.erase (.mapped url length data) }.munmap data length)
      (live.diff gone.reverse) := by
  obtain ⟨holds,manager,transfers,left⟩ := afterHolds new gone h cache plain trace made same
  rw [← transfers]
  obtain ⟨manager',transfers'⟩ :=
    munmapRest { s.after m with transfers := (s.after m).transfers.erase (.mapped url length data) } data length
  refine invOf (manager'.trans manager) cache watched h.nodup.diff (fun o => (left o).trans (alive o).symm) (fun o => ?_)
    (munmapHolds holds (transfers ▸ mem))
  rw [transfers',counts o,h.counts o,transfers,List.count_erase_of_ne (by simp)]

/- m is what put leaves when it hands out the object it has made. -/
theorem placedKeeps {m : CacheManager K} {gone : List Obj} {url : K} {length : BitVec 64} {data : Address}
    (h : Inv s live) (mem : .mapped url length data ∈ s.transfers) (cache : Invariant m) (watched : Watched m)
    (trace : m.trace = [.handOut s.manager.created,.create s.manager.created] ++ goodbyes gone ++ s.manager.trace)
    (made : ∀ o ∈ gone, o < s.manager.created)
    (same : ∀ o < s.manager.created, (m.objs o).data = (s.manager.objs o).data ∧ (m.objs o).size = (s.manager.objs o).size)
    (created : m.created = s.manager.created + 1)
    (own : (m.objs s.manager.created).data = some data ∧ (m.objs s.manager.created).size = length) (proper : data ≠ mapFailed) :
    Inv { s.after m with
        cacheMemUsed := int ((s.after m).cacheMemUsed + length.toNat)
        transfers := .opened s.manager.created :: s.transfers.erase (.mapped url length data) }
      (s.manager.created :: live.diff gone.reverse) := by
  obtain ⟨holds,manager,transfers,left⟩ := afterHolds _ _ h cache rfl trace made same
  have new : .destroy s.manager.created ∉ goodbyes gone ++ s.manager.trace := by
    rw [List.mem_append,destroyGoodbyes,not_or]
    obtain ⟨_,_,inv⟩ := h.cache
    exact ⟨fun there => absurd (made _ there) (Nat.lt_irrefl _),(inv.fresh _ (Nat.le_refl _)).2⟩
  have unmade : s.manager.created ∉ live.diff gone.reverse := fun there => absurd ((left _).1 there).1 (Nat.lt_irrefl _)
  refine invOf manager cache watched (List.nodup_cons.2 ⟨unmade,h.nodup.diff⟩) (fun o => ?_) (fun o => ?_) ⟨?_,?_,?_,holds.once⟩
  · rw [List.mem_cons,left o,trace,created]
    simp only [List.cons_append,List.nil_append,List.mem_cons,reduceCtorEq,false_or]
    rcases eq_or_ne o s.manager.created with rfl | other
    · exact ⟨fun _ => ⟨Nat.lt_succ_self _,new⟩,fun _ => .inl rfl⟩
    · exact ⟨fun or => ⟨Nat.lt_succ_of_lt (or.resolve_left other).1,(or.resolve_left other).2⟩,
        fun both => .inr ⟨Nat.lt_of_le_of_ne (Nat.le_of_lt_succ both.1) other,both.2⟩⟩
  · rw [trace]
    show outstanding (.handOut _ :: .create _ :: (goodbyes gone ++ s.manager.trace)) o = _
    rw [outstandingHandOut,outstandingCreate,outstandingGoodbyes,h.counts o,List.count_cons,
      List.count_erase_of_ne (by simp)]
    by_cases same : s.manager.created = o <;> simp [same]
  · have opens : opening (.mapped url length data) = some (data,length) := if_neg proper
    have perm := (List.perm_cons_erase mem).filterMap opening
    rw [List.filterMap_cons_some opens,← transfers] at perm
    have owned := ownedPerm holds.owned ((perm.append_left _).trans List.perm_middle)
    have region_ : region m.objs s.manager.created = (data,length) := by
      rw [region,own.1,own.2]
      rfl
    rw [manager] at owned
    show Owned _ (((s.manager.created :: live.diff gone.reverse).map (region (s.after m).manager.objs)) ++ _)
    rw [manager,List.map_cons,region_,List.filterMap_cons_none rfl]
    exact transfers ▸ owned
  · intro o there
    show ∃ a, ((s.after m).manager.objs o).data = some a ∧ _
    rcases List.mem_cons.1 there with rfl | there
    · rw [manager]
      exact ⟨data,own.1,proper⟩
    · exact holds.data o there
  · show int ((s.after m).cacheMemUsed + length.toNat) =
      int ((s.manager.created :: live.diff gone.reverse).map fun o => ((s.after m).manager.objs o).size.toNat).sum
    rw [holds.used,intAdd,List.map_cons,List.sum_cons,manager,own.2]
    exact congrArg int (by omega)

theorem putReturns (h : Inv s live) (url : K) (length : BitVec 64) (data : Address) :
    ∃ r, s.manager.putI url (some data) length (some cacheObjectObserver) = some r ∧ Invariant (handOut r) := by
  obtain ⟨m',returns⟩ := callsReturn h.cache (.put url (some data) length (some cacheObjectObserver)) nofun
  obtain ⟨r,puts,rfl⟩ := Option.map_eq_some_iff.1 returns
  exact ⟨r,puts,stepInv h.cache returns⟩

theorem putKeeps (h : Inv s live) {url : K} {length : BitVec 64} {data : Address} (fine : Fine s (.put url length data))
    {o' : Option (State K)} (acts : act s (.put url length data) = some o') : Kept o' := by
  obtain ⟨mem,acts⟩ := Option.ite_none_right_eq_some.1 acts
  cases Option.some.inj acts
  obtain ⟨r,puts,cache⟩ := putReturns h url length data
  rw [puts]
  obtain ⟨gone,⟨none_,l⟩ | placed⟩ := putDrops h.cache h.watched puts
  · simp only [Option.map_some,none_]
    rw [handOutNone none_] at cache ⊢
    exact ⟨_,_,rfl,refusedKeeps [] gone h mem cache (watchedSame h.watched l.created l.data) rfl l.trace l.made
      (fun o _ => ⟨(l.data o).1,(l.data o).2.1⟩) (fun o => by rw [l.created,l.trace])
      fun o => by rw [l.trace,outstandingGoodbyes]⟩
  · have watched := placedWatched h.watched placed
    have same : ∀ o < s.manager.created, (r.1.objs o).data = (s.manager.objs o).data ∧
        (r.1.objs o).size = (s.manager.objs o).size := fun o below =>
      ⟨(placed.others o below).1,(placed.others o below).2.1⟩
    rcases placed.trace with ⟨none_,trace⟩ | ⟨some_,trace⟩
    · simp only [Option.map_some,none_]
      rw [handOutNone none_] at cache ⊢
      refine ⟨_,_,rfl,refusedKeeps [.destroy s.manager.created,.create s.manager.created] gone h mem cache watched rfl
        trace placed.made same (fun o => ?_) fun o => ?_⟩
      · rw [trace,placed.created]
        simp only [List.cons_append,List.mem_cons,Event.destroy.injEq,reduceCtorEq,false_or,not_or]
        exact ⟨fun all => ⟨Nat.lt_of_le_of_ne (Nat.le_of_lt_succ all.1) all.2.1,all.2.2⟩,
          fun both => ⟨Nat.lt_succ_of_lt both.1,Nat.ne_of_lt both.1,both.2⟩⟩
      · rw [trace]
        show outstanding (.destroy _ :: .create _ :: (goodbyes gone ++ s.manager.trace)) o = _
        rw [outstandingDestroy,outstandingCreate,outstandingGoodbyes]
    · simp only [Option.map_some,some_]
      rw [handOutSome some_] at cache ⊢
      refine ⟨_,_,rfl,placedKeeps h mem cache watched (congrArg (Event.handOut s.manager.created :: ·) trace) placed.made same
        placed.created ⟨placed.own.1,placed.own.2.1⟩ fun failed => ?_⟩
      -- Fine is that the cache refuses what is at MAP_FAILED
      have refuses := fine failed
      rw [puts,Option.map_some,some_] at refuses
      cases refuses

theorem deleteKeeps (h : Inv s live) {o : Obj} {o' : Option (State K)} (acts : act s (.delete o) = some o') :
    Kept o' := by
  obtain ⟨mem,acts⟩ := Option.ite_none_right_eq_some.1 acts
  cases Option.some.inj acts
  have held : 0 < outstanding s.manager.trace o := by
    rw [h.counts o]
    exact Int.natCast_pos.2 (List.count_pos_iff.2 mem)
  have returns : Cache.step s.manager (.release o) =
      some { s.manager.emit (.release o) with objs := s.manager.objs.release o } := if_pos held
  have cache := stepInv h.cache returns
  have data := releaseData s.manager.objs o
  rw [returns]
  obtain ⟨holds,manager,transfers,_⟩ := afterHolds [.release o] [] h cache rfl rfl
    (fun _ mem => absurd mem List.not_mem_nil) fun p _ => ⟨(data p).1,(data p).2.1⟩
  refine ⟨_,live,rfl,invOf manager cache (watchedSame h.watched rfl data) h.nodup (fun p => ?_) (fun p => ?_) ?_⟩
  · rw [h.alive p]
    exact and_congr_right fun _ => not_congr (by simp [emit])
  · show outstanding (.release o :: s.manager.trace) p = _
    rw [outstandingRelease,h.counts p]
    by_cases same : o = p
    · subst same
      rw [if_pos rfl,List.count_erase_self]
      have := List.count_pos_iff.2 mem
      omega
    · rw [if_neg same,Int.sub_zero,List.count_erase_of_ne fun eq => same (Transfer.opened.inj eq).symm]
  · rw [← transfers]
    exact holdsTransfers holds (openingErase (transfers ▸ mem) rfl)

theorem flushAllKeeps (h : Inv s live) {o' : Option (State K)} (acts : act s .flushAll = some o') :
    Kept o' := by
  cases Option.some.inj acts
  obtain ⟨m,returns⟩ := callsReturn h.cache .flushAll nofun
  have flushes : s.manager.flushAll = some m := returns
  obtain ⟨cache,watched,gone,l⟩ := flushAllOnward (onwardStart h.cache h.watched) flushes
  rw [flushes]
  obtain ⟨holds,manager,transfers,left⟩ := afterHolds [] gone h cache rfl l.trace l.made
    fun o _ => ⟨(l.data o).1,(l.data o).2.1⟩
  refine ⟨_,_,rfl,invOf manager cache watched h.nodup.diff (fun o => ?_) (fun o => ?_) holds⟩
  · rw [left o,l.created,l.trace]
  · rw [transfers,l.trace,outstandingGoodbyes,h.counts o]

theorem newInv (minObjSize maxObjSize highWaterMark lowWaterMark : BitVec 64) :
    Inv (State.new minObjSize maxObjSize highWaterMark lowWaterMark : State K) [] := by
  refine ⟨⟨[],[],Cache.newInv minObjSize maxObjSize highWaterMark lowWaterMark⟩,fun o below => absurd below (Nat.not_lt_zero o),
    List.nodup_nil,fun o => ?_,fun _ => rfl,⟨⟨List.nodup_nil,fun a n => ?_⟩,fun o mem => absurd mem List.not_mem_nil,
      Int.zero_bmod.symm,rfl⟩⟩
  · exact ⟨fun mem => absurd mem List.not_mem_nil,fun both => absurd both.1 (Nat.not_lt_zero o)⟩
  · exact ⟨fun eq => (nomatch eq),fun mem => absurd mem List.not_mem_nil⟩

theorem actKeeps (h : Inv s live) {a : Act K} {o' : Option (State K)} (fine : Fine s a) (acts : act s a = some o') :
    Kept o' := by
  cases a with
  | make url length =>
    obtain ⟨s',live',makes,inv⟩ := makeKeeps h url length
    cases Option.some.inj (makes.symm.trans acts)
    exact ⟨s',live',rfl,inv⟩
  | openFails url length =>
    obtain ⟨mem,acts⟩ := Option.ite_none_right_eq_some.1 acts
    cases Option.some.inj acts
    exact ⟨_,live,rfl,openFailsKeeps h mem rfl nofun⟩
  | mmap url length data =>
    obtain ⟨⟨mem,free⟩,acts⟩ := Option.ite_none_right_eq_some.1 acts
    cases Option.some.inj acts
    exact ⟨_,live,rfl,mmapKeeps h mem free⟩
  | put url length data => exact putKeeps h fine acts
  | delete o => exact deleteKeeps h acts
  | flushAll => exact flushAllKeeps h acts

/- With an object at MAP_FAILED accepted, transfer_data would send from there. -/
theorem failedBreaks (h : Inv s live) {a : Act K} {o' : Option (State K)} (off : ¬ Fine s a) (acts : act s a = some o') :
    ¬ Good o' := by
  cases a with
  | put url length data =>
    obtain ⟨failed,accepts⟩ := Classical.not_imp.1 off
    obtain ⟨mem,acts⟩ := Option.ite_none_right_eq_some.1 acts
    cases Option.some.inj acts
    obtain ⟨r,puts,cache⟩ := putReturns h url length data
    rw [puts] at accepts ⊢
    obtain ⟨gone,⟨none_,_⟩ | placed⟩ := putDrops h.cache h.watched puts
    · exact absurd (congrArg some none_) accepts
    rcases placed.trace with ⟨none_,_⟩ | ⟨some_,trace⟩
    · exact absurd (congrArg some none_) accepts
    simp only [Option.map_some,some_]
    rw [handOutSome some_] at cache ⊢
    obtain ⟨holds,manager,-⟩ := afterHolds [.handOut s.manager.created,.create s.manager.created] gone h cache rfl
      (congrArg (Event.handOut s.manager.created :: ·) trace) placed.made
      fun o below => ⟨(placed.others o below).1,(placed.others o below).2.1⟩
    rintro ⟨t,same,mapped⟩
    cases Option.some.inj same
    obtain ⟨b,data_,maps⟩ := mapped.reads s.manager.created List.mem_cons_self
    have here : ((s.after (r.1.emit (.handOut s.manager.created))).manager.objs s.manager.created).data = some b := data_
    rw [manager] at here
    cases (Option.some.inj (placed.own.1.symm.trans here)).symm.trans failed
    have free : (s.after (r.1.emit (.handOut s.manager.created))).maps mapFailed = none := failedFree holds
    exact absurd (maps.symm.trans free) (Option.some_ne_none _)
  | make url length => exact absurd trivial off
  | openFails url length => exact absurd trivial off
  | mmap url length data => exact absurd trivial off
  | delete o => exact absurd trivial off
  | flushAll => exact absurd trivial off

/- Whatever transfers of all threads open and go, and the cache lets go meanwhile, every call of the
cache returns and what is sent from is mapped, each file is unmapped once, as it was mapped, and
g_cache_mem_used counts what is: all of this if and only if the cache takes no file that failed to map. -/
theorem transfersMapped (minObjSize maxObjSize highWaterMark lowWaterMark : BitVec 64) (acts : List (Act K)) :
    Always step Good (some (.new minObjSize maxObjSize highWaterMark lowWaterMark)) acts ↔
      Along step (fun o a => ∀ s ∈ o, Fine s a) (some (.new minObjSize maxObjSize highWaterMark lowWaterMark)) acts := by
  refine alwaysIffAlong (fun o a o' kept fine steps => ?_) (fun o kept => ?_) (fun o a o' kept off steps => ?_)
    (show Kept (some (.new minObjSize maxObjSize highWaterMark lowWaterMark)) from
      ⟨_,[],rfl,newInv minObjSize maxObjSize highWaterMark lowWaterMark⟩) acts
  · obtain ⟨s,live,rfl,inv⟩ := kept
    exact actKeeps inv (fine s rfl) steps
  · obtain ⟨s,live,rfl,inv⟩ := kept
    exact ⟨s,rfl,invMapped inv⟩
  · obtain ⟨s,live,rfl,inv⟩ := kept
    refine failedBreaks inv (fun fine => off fun t mem => ?_) steps
    cases Option.some.inj mem
    exact fine

end Inv
end CuteNdk.MemCacheMaps
