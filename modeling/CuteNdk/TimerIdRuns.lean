import CuteNdk.TimerCrontab
import CuteNdk.Lib.Run

/-! Runs of a timer_queue with general and crontab timers, against the list of the
timers registered so far and the ids they were given. A crontab timer does not
mark its id in timer_ids_, so that the id may be handed out a second time; runs
in which it never is, and in which cancel is kept off the ends of the crontab
list, keep every timer under its own id. -/
namespace CuteNdk.TimerIds
open TimerQueue
open Lib (Along Always alwaysMono alwaysOfInvariant Seg)
open Lib.BinaryHeap (indexedMem indexedSlot indexedLength contents)

inductive Op where
  | schedule (eh : Handler) (arg : Arg) (now delay interval : TimeValue)
  | crontab (eh : Option Handler) (arg : Arg) (entry : Entry) (now : TimeValue) (sec : Int)
  | cancel (id : Int) (dontCall : Bool)
  | expire (current : TimeValue) (ret : Int)
  deriving DecidableEq, Repr

structure Tracked where
  queue : TimerQueue
  registered : List Card

def add (registered : List Card) (k : Int) (type : TimerType) (eh : Option Handler) (arg : Arg) :
    List Card := if k < 0 then registered else registered ++ [⟨k,type,eh,arg⟩]

def without (registered : List Card) (id : Int) : List Card := registered.filter fun c => c.id ≠ id

/- Whether crontab sets out by scheduling the queue itself. -/
def startsDriver (q : TimerQueue) (eh : Option Handler) (entry : Entry) : Bool :=
  decide (eh ≠ none ∧ entry ≠ .null ∧ q.crontabTimers = none)

/- The timers registered when crontab has scheduled its driver, or need not. -/
def withDriver (s : Tracked) (eh : Option Handler) (entry : Entry) (now : TimeValue) (sec : Int) :
    List Card :=
  if startsDriver s.queue eh entry then
    match s.queue.schedule (some .queue) 0 now (driverDelay sec) (.set 60 0) with
    | some (k,_) => add s.registered k .general (some .queue) 0
    | none => s.registered
  else s.registered

def apply (s : Tracked) : Op → Option Tracked
  | .schedule eh arg now delay interval => (s.queue.schedule (some eh) arg now delay interval).map fun r =>
      ⟨r.2,add s.registered r.1 .general (some eh) arg⟩
  | .crontab eh arg entry now sec => (s.queue.crontab eh arg entry now sec).map fun r =>
      ⟨r.2,add (withDriver s eh entry now sec) r.1 .crontab eh arg⟩
  | .cancel id dontCall => (s.queue.cancel id dontCall).map fun r => ⟨r.2.2,without s.registered id⟩
  | .expire current ret => (s.queue.expire current ret).map fun r =>
      ⟨r.2,match s.queue.due current with
        | none => s.registered
        | some p =>
          if .zero < (s.queue.nodes p).interval ∧ 0 ≤ answer (s.queue.nodes p).handler ret then
            s.registered
          else without s.registered (s.queue.ident p)⟩

def step (s : Option Tracked) (op : Op) : Option (Option Tracked) := some (s.bind fun s => apply s op)

def start (maxSize : Int) (preAlloc : Nat) : Option Tracked := some ⟨make maxSize preAlloc,[]⟩

/- The crontab timers in the order handle_timeout meets them. -/
def walk (q : TimerQueue) : Nat → Option Ptr → List Ptr
  | 0, _ => []
  | _ + 1, none => []
  | fuel + 1, some p => p :: walk q fuel (q.nodes p).next

def crontabList (q : TimerQueue) : List Ptr := walk q (q.made + 1) q.crontabTimers

def generalIds (q : TimerQueue) : List Int := (contents q.currSize q.slotNode).map q.ident

/- No two registered timers have one id, and the timers the queue holds are those
registered, each under the id its registration returned. -/
structure Identified (s : Tracked) : Prop where
  ids : (s.registered.map Card.id).Nodup
  timers : ((contents s.queue.currSize s.queue.slotNode ++ crontabList s.queue).map s.queue.card).Perm
    s.registered

def AllIdentified : Option Tracked → Prop
  | none => False
  | some s => Identified s

/- The id alloc_timerid would hand out is not a crontab timer's. -/
def Unshared (q : TimerQueue) : Prop := ∀ k ∈ q.freeId, k ∉ (crontabList q).map q.ident

/- The node given back when there is no id left did not last have the id of a
general timer. -/
def Harmless (q : TimerQueue) (node : Option Ptr) : Prop :=
  q.freeId = none → ∀ z ∈ node, q.ident z ∉ generalIds q

/- A growth leaves room for the new timer and copies the id of every other one. -/
def GrowsIntact (q : TimerQueue) (n newSize i : Nat) : Prop :=
  q.timerHeapSize ≤ n + 1 →
    n * 2 ≤ intMax ∧ n < newSize ∧ ∀ j < q.currSize, i ≤ j → q.ident (q.slotNode j) < n

def SafeSchedule (q : TimerQueue) : Prop := (q.currSize : Int) < q.maxSize →
  Unshared q ∧ Harmless q q.freeTimerNodes ∧
    GrowsIntact q q.currSize q.grown.timerHeapSize 0

/- Id 0 is the last one, so that the driver of the crontab timers takes it. -/
def LastId (q : TimerQueue) : Prop :=
  ∀ k < (if q.timerHeapSize ≤ q.currSize + 1 then q.grown.timerHeapSize else q.timerHeapSize),
    0 < k → (k : Int) ∈ generalIds q

def SafeCrontab (q : TimerQueue) : Prop :=
  if q.crontabTimers = none then
    SafeSchedule q ∧ ((q.currSize : Int) < q.maxSize → q.freeId = some 0 → LastId q →
      ∀ z ∈ q.freeCrontabTimers, q.ident z ∉ generalIds q ∧ q.ident z ≠ 0)
  else Unshared q ∧ Harmless q q.freeCrontabTimers

def Safe : Option Tracked → Op → Prop
  | none, _ => True
  | some s, .schedule _ _ _ _ _ => SafeSchedule s.queue
  | some s, .crontab eh _ entry _ _ => eh ≠ none → entry ≠ .null → SafeCrontab s.queue
  | some s, .cancel id _ => (∀ z ∈ (crontabList s.queue).head?, s.queue.ident z ≠ id) ∧
      ∀ z ∈ (crontabList s.queue).getLast?, s.queue.ident z ≠ id
  | some s, .expire current _ => ∀ p ∈ s.queue.due current, .zero < (s.queue.nodes p).interval →
      GrowsIntact s.queue (s.queue.currSize - 1) s.queue.regrown 1

instance (s : Tracked) : Decidable (Identified s) :=
  decidable_of_iff
    ((s.registered.map Card.id).Nodup ∧
    ((contents s.queue.currSize s.queue.slotNode ++ crontabList s.queue).map s.queue.card).Perm
      s.registered)
    ⟨fun ⟨ids,timers⟩ => ⟨ids,timers⟩,fun ⟨ids,timers⟩ => ⟨ids,timers⟩⟩

instance : DecidablePred AllIdentified
  | none => isFalse id
  | some s => inferInstanceAs (Decidable (Identified s))

instance (q : TimerQueue) (n m i : Nat) : Decidable (GrowsIntact q n m i) := by
  unfold GrowsIntact; infer_instance
instance (q : TimerQueue) : Decidable (Unshared q) := by unfold Unshared; infer_instance
instance (q : TimerQueue) (node : Option Ptr) : Decidable (Harmless q node) := by
  unfold Harmless; infer_instance
instance (q : TimerQueue) : Decidable (SafeSchedule q) := by unfold SafeSchedule; infer_instance
instance (q : TimerQueue) : Decidable (LastId q) := by unfold LastId; infer_instance
instance (q : TimerQueue) : Decidable (SafeCrontab q) := by unfold SafeCrontab; infer_instance

instance (t : Option Tracked) (op : Op) : Decidable (Safe t op) :=
  match t, op with
  | none, _ => isTrue trivial
  | some s, .schedule _ _ _ _ _ => inferInstanceAs (Decidable (SafeSchedule s.queue))
  | some _, .crontab _ _ _ _ _ => inferInstanceAs (Decidable (_ → _ → _))
  | some _, .cancel _ _ => inferInstanceAs (Decidable (_ ∧ _))
  | some s, .expire _ _ => inferInstanceAs (Decidable (∀ p ∈ s.queue.due _, _ → _))

structure Kept (s : Tracked) (ls : Lists) : Prop where
  sound : Sound s.queue ls
  distinct : (s.queue.heapIds ls ++ s.queue.crontabIds ls).Nodup
  inTable : ∀ k ∈ s.queue.crontabIds ls, 0 ≤ k ∧ k < s.queue.timerIdsSize
  registered : ((ls.heap ++ ls.crontab).map s.queue.card).Perm s.registered

def Invariant : Option Tracked → Prop
  | none => False
  | some s => ∃ ls, Kept s ls

section Lists
variable {q : TimerQueue} {ls : Lists}

theorem walkIs {fuel : Nat} {l : List Ptr} {head : Option Ptr} (h : Seg q.nextOf head l none)
    (enough : l.length < fuel) : walk q fuel head = l := by
  induction l generalizing fuel head with
  | nil =>
    obtain ⟨n,rfl⟩ := Nat.exists_eq_succ_of_ne_zero (Nat.ne_of_gt enough)
    cases h
    rfl
  | cons a l ih =>
    obtain ⟨n,rfl⟩ := Nat.exists_eq_succ_of_ne_zero (Nat.ne_of_gt (Nat.zero_lt_of_lt enough))
    rw [h.1]
    exact congrArg (a :: ·) (ih h.2 (Nat.lt_of_succ_lt_succ enough))

theorem crontabListIs (h : Shape q ls) : crontabList q = ls.crontab :=
  walkIs h.crontab.forth (crontabShort h)

theorem generalIdsAre (h : Shape q ls) : (generalIds q).Perm (q.heapIds ls) :=
  h.heap.indexed.holds.map q.ident

theorem cardsOf (l : List Ptr) : (l.map q.card).map Card.id = l.map q.ident := by
  rw [List.map_map]
  rfl

end Lists

theorem identifiedOfKept {s : Tracked} {ls : Lists} (h : Kept s ls) : Identified s := by
  have ids := (h.registered.map Card.id).nodup_iff
  rw [cardsOf,List.map_append] at ids
  refine ⟨ids.mp h.distinct,?_⟩
  rw [crontabListIs h.sound.shape]
  exact ((h.sound.shape.heap.indexed.holds.append_right _).map _).trans h.registered

section Steps
variable {q : TimerQueue} {ls : Lists} {registered : List Card}

theorem identsSame {q' : TimerQueue} {l : List Ptr} (same : ∀ z ∈ l, q'.card z = q.card z) :
    l.map q'.ident = l.map q.ident := List.map_congr_left fun z hz => congrArg Card.id (same z hz)

/- Timers that neither come nor go keep their cards and their ids. -/
theorem keptSame {q' : TimerQueue} {ls' : Lists} (h : Kept ⟨q,registered⟩ ls) (sound : Sound q' ls')
    (heap : ls'.heap.Perm ls.heap) (crontab : ls'.crontab = ls.crontab)
    (cards : ∀ z ∈ ls.heap ++ ls.crontab, q'.card z = q.card z)
    (size : q.timerIdsSize ≤ q'.timerIdsSize) : Kept ⟨q',registered⟩ ls' := by
  have onHeap := identsSame fun z hz => cards z (List.mem_append_left _ hz)
  have onCrontab : q'.crontabIds ls' = q.crontabIds ls := by
    unfold crontabIds
    rw [crontab]
    exact identsSame fun z hz => cards z (List.mem_append_right _ hz)
  refine ⟨sound,?_,fun k hk => ?_,?_⟩
  · have order : (q'.heapIds ls' ++ q'.crontabIds ls').Perm (q.heapIds ls ++ q.crontabIds ls) := by
      rw [onCrontab]
      exact ((heap.map q'.ident).trans (List.Perm.of_eq onHeap)).append_right _
    exact order.nodup_iff.mpr h.distinct
  · rw [onCrontab] at hk
    have := h.inTable k hk
    simp only at *
    omega
  · rw [crontab]
    refine ((heap.append_right _).map _).trans ?_
    rw [List.map_congr_left cards]
    exact h.registered

theorem unsharedIds (h : Shape q ls) (ok : Unshared q) {k : Int} (got : q.freeId = some k) :
    k ∉ q.crontabIds ls := by
  have off := ok k got
  rwa [crontabListIs h] at off

theorem harmlessIds (h : Shape q ls) {node : Option Ptr} (ok : Harmless q node)
    (none' : q.freeId = none) : ∀ z ∈ node, q.ident z ∉ q.heapIds ls := fun z hz mem =>
  ok none' z hz ((generalIdsAre h).symm.subset mem)

theorem fitsOf (h : Shape q ls) (ok : GrowsIntact q q.currSize q.grown.timerHeapSize 0) :
    Fits q ls.heap := by
  intro full
  obtain ⟨small,room,kept⟩ := ok full
  refine ⟨small,room,fun z hz => ?_⟩
  obtain ⟨j,hj,rfl,_⟩ := indexedSlot h.heap.indexed hz
  exact kept j hj (Nat.zero_le j)

/- schedule_i on a safe queue; when it returns an id the queue is as scheduleAdds
says. -/
theorem scheduleStep (h : Kept ⟨q,registered⟩ ls) (safe : SafeSchedule q) (eh : Handler) (arg : Arg)
    (deadline interval : TimeValue) :
    ∃ k q' ls', q.scheduleI (some eh) arg deadline interval = some (k,q') ∧
      Kept ⟨q',add registered k .general (some eh) arg⟩ ls' ∧ ls'.crontab = ls.crontab ∧
      (0 ≤ k → ∃ p free, ls' = Lists.push { ls with free := free } p ∧ Scheduled q q' ls free p ∧
        q'.ident p = k ∧ q.freeId = some k ∧ (q.currSize : Int) < q.maxSize) := by
  have sound : Sound q ls := h.sound
  by_cases below : (q.currSize : Int) < q.maxSize
  · obtain ⟨unshared,harmless,intact⟩ := safe below
    cases got : q.freeId with
    | none =>
      obtain ⟨p,free,q',runs,sound',off,nodes,size⟩ := scheduleRefused sound below got
        (harmlessIds sound.shape harmless got) (some eh) arg deadline interval
      refine ⟨-1,q',{ ls with free := free },runs,?_,rfl,fun neg => absurd neg (by decide)⟩
      refine keptSame h sound' (List.Perm.refl _) rfl (fun z hz => ?_) size.ge
      have other : z ≠ p := fun same => off (same ▸ hz)
      simp only [card,ident,nodes z other]
    | some k =>
      obtain ⟨low,high,_,clear,_⟩ := freeIdSound sound.shape got
      have nonneg := Int.le_trans sound.shape.low low
      obtain ⟨p,free,q',runs,added,isNew⟩ :=
        scheduleAdds sound below got (fitsOf sound.shape intact) eh arg deadline interval
      have self : q'.ident p = k := congrArg Timer.id isNew
      have cards : ∀ z ∈ ls.heap ++ ls.crontab, q'.card z = q.card z := fun z hz => by
        simp only [card,ident,scheduledNodes added z (List.mem_append_left _ hz)]
      have newCard : q'.card p = ⟨k,.general,some eh,arg⟩ := by
        have type := added.sound.shape.general p (List.mem_append_right _ (List.mem_singleton_self p))
        have handler : (q'.nodes p).handler = some eh := congrArg Timer.handler isNew
        have given : (q'.nodes p).arg = arg := congrArg Timer.arg isNew
        simp only [card,self,type,handler,given]
      have onHeap := identsSame fun z hz => cards z (List.mem_append_left _ hz)
      have onCrontab : q'.crontabIds (Lists.push { ls with free := free } p) = q.crontabIds ls :=
        identsSame fun z hz => cards z (List.mem_append_right _ hz)
      have heapIds' : q'.heapIds (Lists.push { ls with free := free } p) = q.heapIds ls ++ [k] := by
        unfold heapIds Lists.push
        rw [List.map_append,onHeap,List.map_singleton,self]
      refine ⟨k,q',_,runs,⟨added.sound,?_,fun j hj => ?_,?_⟩,rfl,
        fun _ => ⟨p,free,rfl,added,self,rfl,below⟩⟩
      · simp only [heapIds',onCrontab]
        have fresh : k ∉ q.heapIds ls ++ q.crontabIds ls := fun mem =>
          (List.mem_append.mp mem).elim clear (unsharedIds sound.shape unshared got)
        have order : (q.heapIds ls ++ [k] ++ q.crontabIds ls).Perm
            (k :: (q.heapIds ls ++ q.crontabIds ls)) := by
          rw [List.append_assoc]
          exact List.perm_middle
        exact order.nodup_iff.mpr (List.nodup_cons.mpr ⟨fresh,h.distinct⟩)
      · rw [onCrontab] at hj
        have old := h.inTable j hj
        have sizes := sound.shape.sizes
        have sizes' := added.sound.shape.sizes
        simp only at old ⊢
        rcases added.sizes with ⟨_,grew,_⟩ | ⟨full,grew,_⟩
        · omega
        · obtain ⟨_,room,_⟩ := intact full
          omega
      · have positive : ¬ k < 0 := by omega
        simp only [add,if_neg positive]
        have order : ((Lists.push { ls with free := free } p).heap ++ ls.crontab).Perm
            (ls.heap ++ ls.crontab ++ [p]) := by
          simp only [Lists.push,List.append_assoc]
          exact List.Perm.append_left _ List.perm_append_comm
        refine (order.map _).trans ?_
        rw [List.map_append,List.map_congr_left cards,List.map_singleton,newCard]
        exact h.registered.append_right _
  · have runs : q.scheduleI (some eh) arg deadline interval = some (-1,q) := by
      unfold scheduleI
      exact if_pos (not_lt.mp below)
    exact ⟨-1,q,ls,runs,h,rfl,fun neg => absurd neg (by decide)⟩

/- A crontab timer on a safe queue. -/
theorem registerStep (h : Kept ⟨q,registered⟩ ls) (unshared : Unshared q)
    (harmless : Harmless q q.freeCrontabTimers) (eh : Handler) (arg : Arg) (entry : Entry)
    (now : TimeValue) :
    ∃ k q' ls', q.registerCrontab eh arg entry now = some (k,q') ∧
      Kept ⟨q',add registered k .crontab (some eh) arg⟩ ls' := by
  have sound : Sound q ls := h.sound
  cases got : q.freeId with
  | none =>
    obtain ⟨p,free,q',runs,sound',off,nodes,size⟩ := crontabRefused sound got
      (harmlessIds sound.shape harmless got) eh arg entry now
    refine ⟨-1,q',_,runs,keptSame h sound' (List.Perm.refl _) rfl (fun z hz => ?_) size.ge⟩
    have other : z ≠ p := fun same => off (same ▸ hz)
    simp only [card,ident,nodes z other]
  | some k =>
    obtain ⟨low,high,_,clear,_⟩ := freeIdSound sound.shape got
    have nonneg := Int.le_trans sound.shape.low low
    obtain ⟨p,q',ls',off,reg,outcome⟩ := registerCrontabRuns sound got eh arg entry now
    have refused (runs : q.registerCrontab eh arg entry now = some (-1,q'))
        (same : ls'.crontab = ls.crontab) : ∃ k q' ls', q.registerCrontab eh arg entry now = some (k,q') ∧
          Kept ⟨q',add registered k .crontab (some eh) arg⟩ ls' :=
      ⟨-1,q',ls',runs,keptSame h reg.sound (List.Perm.of_eq reg.heap) same reg.cards reg.idsSize.ge⟩
    cases entry with
    | null => exact refused outcome.1 outcome.2
    | malformed => exact refused outcome.1 outcome.2
    | parsed e =>
      obtain ⟨runs,joined,newCard⟩ := outcome
      have self : q'.ident p = k := congrArg Card.id newCard
      have heapIds' : q'.heapIds ls' = q.heapIds ls := by
        unfold heapIds
        rw [reg.heap]
        exact identsSame fun z hz => reg.cards z (List.mem_append_left _ hz)
      have crontabIds' : q'.crontabIds ls' = k :: q.crontabIds ls := by
        unfold crontabIds
        rw [joined,List.map_cons,self]
        exact congrArg (k :: ·) (identsSame fun z hz => reg.cards z (List.mem_append_right _ hz))
      refine ⟨k,q',ls',runs,reg.sound,?_,fun j hj => ?_,?_⟩
      · simp only [heapIds',crontabIds']
        have fresh : k ∉ q.heapIds ls ++ q.crontabIds ls := fun mem =>
          (List.mem_append.mp mem).elim clear (unsharedIds sound.shape unshared got)
        exact List.perm_middle.nodup_iff.mpr (List.nodup_cons.mpr ⟨fresh,h.distinct⟩)
      · simp only [crontabIds',List.mem_cons,reg.idsSize] at hj ⊢
        rcases hj with rfl | old
        · exact ⟨nonneg,high⟩
        · exact h.inTable j old
      · have positive : ¬ k < 0 := by omega
        simp only [add,if_neg positive,reg.heap,joined]
        have last : ([p] ++ (ls.heap ++ ls.crontab)).Perm (ls.heap ++ ls.crontab ++ [p]) :=
          List.perm_append_comm
        have order : (ls.heap ++ p :: ls.crontab).Perm (ls.heap ++ ls.crontab ++ [p]) :=
          List.perm_middle.trans last
        refine (order.map _).trans ?_
        rw [List.map_append,List.map_congr_left reg.cards,List.map_singleton,newCard]
        exact h.registered.append_right _

/- When no id is left after the driver has taken id 0, id 0 was the last one. -/
theorem lastIdOf (h : Sound q ls) {q' : TimerQueue} {free : List Ptr} {p : Ptr}
    (added : Scheduled q q' ls free p) (self : q'.ident p = 0) (got : q.freeId = some 0)
    (intact : GrowsIntact q q.currSize q.grown.timerHeapSize 0) (none' : q'.freeId = none) :
    LastId q := by
  intro k inside positive
  have low := h.shape.low
  have first := (freeIdSound h.shape got).1
  have sizes := h.shape.sizes
  have sizes' := added.sound.shape.sizes
  have size : (k : Int) < q'.timerIdsSize := by
    rcases added.sizes with ⟨room,grew,_⟩ | ⟨full,grew,_⟩
    · rw [if_neg (by omega)] at inside
      omega
    · rw [if_pos full] at inside
      omega
  have heapIds' : q'.heapIds (Lists.push { ls with free := free } p) = q.heapIds ls ++ [0] := by
    have onHeap : ls.heap.map q'.ident = q.heapIds ls := List.map_congr_left fun z hz => by
      simp only [ident,scheduledNodes added z (List.mem_append_left _ (List.mem_append_left _ hz))]
    unfold heapIds Lists.push
    rw [List.map_append,onHeap,List.map_singleton,self]
    rfl
  refine (generalIdsAre h.shape).symm.subset ?_
  by_cases below : (k : Int) < q'.minTimerId
  · rcases added.sizes with ⟨_,_,next⟩ | ⟨full,_,next⟩ <;> rw [next] at below
    · omega
    · obtain ⟨_,_,kept⟩ := intact full
      have length : (q.heapIds ls).length = q.currSize := by
        rw [heapIds,List.length_map,indexedLength h.shape.heap.indexed]
      refine idsBelow h.shape.heap.indexed.distinct length (fun i hi => ?_) (by omega) below
      obtain ⟨z,hz,rfl⟩ := List.mem_map.mp hi
      obtain ⟨j,hj,rfl,_⟩ := indexedSlot h.shape.heap.indexed hz
      exact ⟨(h.shape.heap.range _ hz).1,kept j hj (Nat.zero_le j)⟩
  · by_contra out
    refine firstFreeNone none' k (not_lt.mp below) (by omega) ?_
    refine added.sound.vacant k (by omega) size fun mem => ?_
    rw [heapIds',List.mem_append,List.mem_singleton] at mem
    rcases mem with mem | zero
    · exact out mem
    · omega

theorem crontabKeeps {s : Tracked} (h : Kept s ls) (eh : Option Handler) (arg : Arg) (entry : Entry)
    (now : TimeValue) (sec : Int) (safe : Safe (some s) (.crontab eh arg entry now sec)) :
    ∃ t, apply s (.crontab eh arg entry now sec) = some t ∧ ∃ ls', Kept t ls' := by
  obtain ⟨q,registered⟩ := s
  have sound : Sound q ls := h.sound
  have idle (off : startsDriver q eh entry = false) :
      withDriver ⟨q,registered⟩ eh entry now sec = registered := by
    unfold withDriver
    exact if_neg (by simp [off])
  simp only [apply]
  cases eh with
  | none =>
    have off : startsDriver q none entry = false := by simp [startsDriver]
    rw [idle off]
    exact ⟨_,rfl,ls,h⟩
  | some eh =>
    by_cases null : entry = .null
    · subst null
      have off : startsDriver q (some eh) .null = false := by simp [startsDriver]
      rw [idle off]
      exact ⟨_,rfl,ls,h⟩
    · have safe := safe nofun null
      have start : q.crontab (some eh) arg entry now sec =
          (q.startDriver now sec).bind fun r =>
            if r.1 ≠ 0 then some (-1,r.2) else r.2.registerCrontab eh arg entry now := by
        cases entry with
        | null => exact absurd rfl null
        | malformed => rfl
        | parsed e => rfl
      rw [start]
      unfold startDriver
      unfold SafeCrontab at safe
      by_cases empty : q.crontabTimers = none
      · simp only [if_pos empty] at safe ⊢
        obtain ⟨k,q',ls',runs,kept,same,success⟩ := scheduleStep h safe.1 .queue 0
          (now + driverDelay sec) (.set 60 0)
        have driver : withDriver ⟨q,registered⟩ (some eh) entry now sec
            = add registered k .general (some .queue) 0 := by
          have on : startsDriver q (some eh) entry = true := by simp [startsDriver,null,empty]
          unfold withDriver
          rw [if_pos on,schedule,runs]
        rw [driver]
        simp only [schedule,runs,Option.bind_some]
        split
        case isTrue other => exact ⟨_,rfl,ls',kept⟩
        case isFalse zero =>
          have zero : k = 0 := not_not.mp zero
          subst zero
          obtain ⟨p,free,rfl,added,self,got,below⟩ := success le_rfl
          have shape' := kept.sound.shape
          have none' : ls.crontab = [] := by
            have walk := sound.shape.crontab.forth
            rw [empty] at walk
            exact Lib.segNull walk
          have unshared : Unshared q' := fun k _ => by
            rw [crontabListIs shape',same,none']
            exact List.not_mem_nil
          have harmless : Harmless q' q'.freeCrontabTimers := fun out z hz mem => by
            have last := lastIdOf sound added self got (safe.1 below).2.2 out
            have front : q.freeCrontabTimers = q'.freeCrontabTimers :=
              (Lib.segHead sound.shape.freeCrontab).trans (Lib.segHead shape'.freeCrontab).symm
            have onFree : z ∈ ls.freeCrontab := by
              have first := Lib.segHead sound.shape.freeCrontab
              rw [front,Option.mem_def.mp hz] at first
              exact List.mem_of_mem_head? first.symm
            obtain ⟨clear,notZero⟩ := safe.2 below got last z (front ▸ hz)
            have ident' : q'.ident z = q.ident z := by
              simp only [ident,scheduledNodes added z (List.mem_append_right _ onFree)]
            have mem := (generalIdsAre shape').subset mem
            rw [ident'] at mem
            obtain ⟨y,hy,eq⟩ := List.mem_map.mp mem
            rcases List.mem_append.mp hy with hy | hy
            · refine clear ((generalIdsAre sound.shape).symm.subset (List.mem_map.mpr ⟨y,hy,?_⟩))
              rw [← eq]
              simp only [ident,scheduledNodes added y
                (List.mem_append_left _ (List.mem_append_left _ hy))]
            · rw [List.mem_singleton.mp hy,self] at eq
              exact notZero eq.symm
          obtain ⟨k₂,q₂,ls₂,runs₂,kept₂⟩ := registerStep kept unshared harmless eh arg entry now
          rw [runs₂]
          exact ⟨_,rfl,ls₂,kept₂⟩
      · simp only [if_neg empty] at safe ⊢
        obtain ⟨k,q',ls',runs,kept⟩ := registerStep h safe.1 safe.2 eh arg entry now
        have off : startsDriver q (some eh) entry = false := by simp [startsDriver,empty]
        simp only [idle off,Option.bind_some,ne_eq,not_true_eq_false,if_false,runs]
        exact ⟨_,rfl,ls',kept⟩

theorem withoutOne {l rest : List Ptr} {p : Ptr} (all : (l.map q.card).Perm registered)
    (split : l.Perm (p :: rest)) (distinct : (l.map q.ident).Nodup) :
    (rest.map q.card).Perm (without registered (q.ident p)) := by
  have once := (split.map q.ident).nodup_iff.mp distinct
  rw [List.map_cons] at once
  have cut := ((split.map q.card).symm.trans all).filter fun c => c.id ≠ q.ident p
  rw [List.map_cons,List.filter_cons_of_neg (by simp [card])] at cut
  refine List.Perm.trans (List.Perm.of_eq ?_) cut
  refine (List.filter_eq_self.mpr fun c hc => ?_).symm
  obtain ⟨z,hz,rfl⟩ := List.mem_map.mp hc
  have other : q.ident z ≠ q.ident p := fun same =>
    (List.nodup_cons.mp once).1 (same ▸ List.mem_map_of_mem hz)
  exact decide_eq_true other

theorem withoutNone {l : List Ptr} {id : Int} (all : (l.map q.card).Perm registered)
    (off : id ∉ l.map q.ident) : without registered id = registered := by
  refine List.filter_eq_self.mpr fun c hc => ?_
  obtain ⟨z,hz,rfl⟩ := List.mem_map.mp (all.symm.subset hc)
  have other : q.ident z ≠ id := fun same => off (same ▸ List.mem_map_of_mem hz)
  exact decide_eq_true other

theorem keptTaken {q' : TimerQueue} {p : Ptr} (h : Kept ⟨q,registered⟩ ls) (mem : p ∈ ls.heap)
    (taken : TakenOut q q' ls p) : Kept ⟨q',without registered (q.ident p)⟩ (ls.retire p) := by
  have distinct : ((ls.heap ++ ls.crontab).map q.ident).Nodup := by
    rw [List.map_append]
    exact h.distinct
  have split : (ls.heap ++ ls.crontab).Perm (p :: (ls.heap.erase p ++ ls.crontab)) :=
    (List.perm_cons_erase mem).append_right _
  have once := (split.map q.ident).nodup_iff.mp distinct
  rw [List.map_cons] at once
  have other : ∀ z ∈ ls.heap.erase p ++ ls.crontab, z ≠ p := fun z hz same => by
    have mem := List.mem_map_of_mem (f := q.ident) hz
    rw [same] at mem
    exact (List.nodup_cons.mp once).1 mem
  have cards : ∀ z ∈ ls.heap.erase p ++ ls.crontab, q'.card z = q.card z := fun z hz => by
    simp only [card,ident,taken.nodes z (other z hz)]
  refine ⟨taken.sound,?_,fun k hk => ?_,?_⟩
  · have ids : q'.heapIds (ls.retire p) ++ q'.crontabIds (ls.retire p)
        = (ls.heap.erase p ++ ls.crontab).map q.ident := by
      rw [← identsSame cards,List.map_append]
      rfl
    simp only [ids]
    exact (List.nodup_cons.mp once).2
  · have same : q'.crontabIds (ls.retire p) = q.crontabIds ls :=
      identsSame fun z hz => cards z (List.mem_append_right _ hz)
    rw [same] at hk
    have old := h.inTable k hk
    have sizes := h.sound.shape.sizes
    have sizes' := taken.sound.shape.sizes
    have size := taken.heapSize
    simp only at *
    omega
  · have kept := withoutOne h.registered split distinct
    rw [← List.map_congr_left cards] at kept
    exact kept

theorem cancelKeeps {s : Tracked} (h : Kept s ls) (id : Int) (dontCall : Bool)
    (safe : Safe (some s) (.cancel id dontCall)) :
    ∃ t, apply s (.cancel id dontCall) = some t ∧ ∃ ls', Kept t ls' := by
  obtain ⟨q,registered⟩ := s
  have sound : Sound q ls := h.sound
  have distinct : ((ls.heap ++ ls.crontab).map q.ident).Nodup := by
    rw [List.map_append]
    exact h.distinct
  simp only [apply]
  by_cases range : id < 0 ∨ q.timerIdsSize ≤ id
  · have runs : q.cancel id dontCall = some (-1,none,q) := by
      unfold cancel
      exact if_pos range
    have off : id ∉ (ls.heap ++ ls.crontab).map q.ident := fun mem => by
      rw [List.map_append] at mem
      rcases List.mem_append.mp mem with mem | mem
      · obtain ⟨z,hz,rfl⟩ := List.mem_map.mp mem
        have := sound.shape.heap.range z hz
        omega
      · have := h.inTable id mem
        simp only at this
        omega
    rw [runs,withoutNone h.registered off]
    exact ⟨_,rfl,ls,h⟩
  · by_cases onCrontab : id ∈ q.crontabIds ls
    · obtain ⟨p,hp,rfl⟩ := List.mem_map.mp onCrontab
      obtain ⟨l₁,l₂,split⟩ := List.append_of_mem hp
      obtain ⟨notFirst,notLast⟩ := safe
      rw [crontabListIs sound.shape,split] at notFirst notLast
      have before : l₁ ≠ [] := by
        rintro rfl
        exact notFirst p rfl rfl
      have after : l₂ ≠ [] := by
        rintro rfl
        exact notLast p (by simp) rfl
      have inner : (q.crontabIds ls).Nodup := (List.nodup_append.mp h.distinct).2.1
      have clear : q.ident p ∉ q.heapIds ls := fun mem =>
        (List.nodup_append.mp h.distinct).2.2 _ mem _ onCrontab rfl
      obtain ⟨q',runs,sound',cards,size⟩ := cancelInside sound split before after inner clear
        (by omega) dontCall
      have order : (ls.heap ++ ls.crontab).Perm (p :: (ls.heap ++ (l₁ ++ l₂))) := by
        rw [split]
        exact (List.Perm.append_left _ List.perm_middle).trans List.perm_middle
      have once := (order.map q.ident).nodup_iff.mp distinct
      rw [List.map_cons] at once
      have other : ∀ z ∈ ls.heap ++ (l₁ ++ l₂), z ≠ p := fun z hz same =>
        (List.nodup_cons.mp once).1 (same ▸ List.mem_map_of_mem hz)
      have sameCards : ∀ z ∈ ls.heap ++ (l₁ ++ l₂), q'.card z = q.card z := fun z hz =>
        cards z (other z hz)
      rw [runs]
      refine ⟨_,rfl,_,sound',?_,fun k hk => ?_,?_⟩
      · have ids : (ls.heap ++ (l₁ ++ l₂)).map q'.ident = (ls.heap ++ (l₁ ++ l₂)).map q.ident :=
          identsSame sameCards
        have nodup := (List.nodup_cons.mp once).2
        rw [← ids,List.map_append] at nodup
        exact nodup
      · have ids : (l₁ ++ l₂).map q'.ident = (l₁ ++ l₂).map q.ident :=
          identsSame fun z hz => sameCards z (List.mem_append_right _ hz)
        have old : k ∈ q.crontabIds ls := by
          change k ∈ (l₁ ++ l₂).map q'.ident at hk
          rw [ids] at hk
          obtain ⟨z,hz,rfl⟩ := List.mem_map.mp hk
          refine List.mem_map_of_mem ?_
          rw [split]
          rcases List.mem_append.mp hz with hz | hz <;> simp [hz]
        have := h.inTable k old
        simp only [size]
        exact this
      · have kept := withoutOne h.registered order distinct
        rw [← List.map_congr_left sameCards] at kept
        exact kept
    · have other : ∀ z ∈ ls.crontab, q.ident z ≠ id := fun z hz same =>
        onCrontab (same ▸ List.mem_map_of_mem hz)
      rw [cancelPassesCrontab sound.shape (by omega) (by omega) other]
      by_cases onHeap : id ∈ q.heapIds ls
      · obtain ⟨p,hp,rfl⟩ := List.mem_map.mp onHeap
        obtain ⟨q',runs,taken⟩ := cancelGeneralTakes sound hp dontCall
        rw [runs]
        exact ⟨_,rfl,_,keptTaken h hp taken⟩
      · have off : id ∉ (ls.heap ++ ls.crontab).map q.ident := fun mem => by
          rw [List.map_append] at mem
          exact (List.mem_append.mp mem).elim onHeap onCrontab
        rw [cancelGeneralMisses sound (by omega) (by omega) onHeap,withoutNone h.registered off]
        exact ⟨_,rfl,ls,h⟩

theorem fitsAgainOf (h : Sound q ls) {current : TimeValue} {p : Ptr} (got : q.due current = some p)
    (intact : GrowsIntact q (q.currSize - 1) q.regrown 1) : FitsAgain q (ls.heap.erase p) := by
  intro full
  obtain ⟨small,room,kept⟩ := intact full
  refine ⟨small,room,fun z hz => ?_⟩
  obtain ⟨j,after,hj,rfl⟩ := restAfterRoot h got hz
  exact kept j hj after

theorem expireKeeps {s : Tracked} (h : Kept s ls) (current : TimeValue) (ret : Int)
    (safe : Safe (some s) (.expire current ret)) :
    ∃ t, apply s (.expire current ret) = some t ∧ ∃ ls', Kept t ls' := by
  obtain ⟨q,registered⟩ := s
  have sound : Sound q ls := h.sound
  simp only [apply]
  cases got : q.due current with
  | none =>
    rw [expireIdle sound got]
    exact ⟨_,rfl,ls,h⟩
  | some p =>
    have mem : p ∈ ls.heap := by
      obtain ⟨inside,rfl,_⟩ := dueRoot sound got
      exact indexedMem sound.shape.heap.indexed inside
    by_cases periodic : .zero < (q.nodes p).interval
    · have intact := safe p got periodic
      have fits := fitsAgainOf sound got intact
      obtain ⟨v,q₂,_,rearmed,runs⟩ := expirePeriodic sound got periodic fits ret
      have cards : ∀ z ∈ ls.heap ++ ls.crontab, q₂.card z = q.card z := fun z _ => by
        by_cases here : z = p
        · subst z; simp [card,ident,rearmed.nodes]
        · simp [card,ident,rearmed.nodes,here]
      have kept : Kept ⟨q₂,registered⟩ ((ls.drop p).push p) := by
        refine keptSame h rearmed.sound ?_ rfl cards ?_
        · exact List.perm_append_comm.trans (List.perm_cons_erase mem).symm
        · have sizes := sound.shape.sizes
          have sizes' := rearmed.sound.shape.sizes
          rcases rearmed.sizes with ⟨_,grew,_⟩ | ⟨full,grew,_⟩
          · omega
          · have := (fits full).2.1
            omega
      rw [runs]
      by_cases quits : answer (q.nodes p).handler ret < 0
      · have off : ∀ z ∈ ls.crontab, q.ident z ≠ q.ident p := fun z hz same =>
          (List.nodup_append.mp h.distinct).2.2 _ (List.mem_map_of_mem mem) _
            (List.mem_map_of_mem hz) same.symm
        obtain ⟨q₃,cancelled,taken⟩ := rearmedCancel rearmed off
        have self : q₂.ident p = q.ident p :=
          congrArg Card.id (cards p (List.mem_append_left _ mem))
        have gone : ¬ (.zero < (q.nodes p).interval ∧ 0 ≤ answer (q.nodes p).handler ret) :=
          fun both => absurd both.2 (not_le.mpr quits)
        have dropped := keptTaken kept (List.mem_append_right _ (List.mem_singleton_self p)) taken
        simp only [if_pos quits,cancelled,Option.map_some,if_neg gone]
        exact ⟨_,rfl,_,self ▸ dropped⟩
      · have stays : .zero < (q.nodes p).interval ∧ 0 ≤ answer (q.nodes p).handler ret :=
          ⟨periodic,not_lt.mp quits⟩
        simp only [if_neg quits,Option.map_some,if_pos stays]
        exact ⟨_,rfl,_,kept⟩
    · obtain ⟨q',runs,taken⟩ := expireOnce sound got periodic ret
      have gone : ¬ (.zero < (q.nodes p).interval ∧ 0 ≤ answer (q.nodes p).handler ret) :=
        fun both => periodic both.1
      simp only [runs,Option.map_some,if_neg gone]
      exact ⟨_,rfl,_,keptTaken h mem taken⟩

theorem stepKeeps {t : Option Tracked} {op : Op} (h : Invariant t) (safe : Safe t op) :
    Invariant (t.bind fun s => apply s op) := by
  cases t with
  | none => exact h
  | some s =>
    obtain ⟨ls,kept⟩ := h
    have keeps : ∃ t, apply s op = some t ∧ ∃ ls', Kept t ls' := by
      cases op with
      | schedule eh arg now delay interval =>
        obtain ⟨k,q',ls',runs,kept',_⟩ := scheduleStep kept safe eh arg (now + delay) interval
        simp only [apply,schedule,runs]
        exact ⟨_,rfl,ls',kept'⟩
      | crontab eh arg entry now sec => exact crontabKeeps kept eh arg entry now sec safe
      | cancel id dontCall => exact cancelKeeps kept id dontCall safe
      | expire current ret => exact expireKeeps kept current ret safe
    obtain ⟨s',runs,ls',kept'⟩ := keeps
    change Invariant (apply s op)
    rw [runs]
    exact ⟨ls',kept'⟩

end Steps

theorem startKept (maxSize : Int) (preAlloc : Nat) : Invariant (start maxSize preAlloc) :=
  ⟨_,⟨makeShape maxSize preAlloc,makeVacant _ _ _⟩,List.nodup_nil,nofun,List.Perm.nil⟩

def everyMinute : CronEntry :=
  ⟨List.replicate 60 true,List.replicate 24 true,List.replicate 32 true,List.replicate 13 true,
    List.replicate 8 true⟩

end CuteNdk.TimerIds
