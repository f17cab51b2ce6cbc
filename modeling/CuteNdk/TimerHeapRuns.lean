import CuteNdk.TimerOps
import CuteNdk.Lib.Run

/-! Runs of a timer_queue that holds general timers only, against the list of the
timers its user may count on. The heap, the table and that list stay in step as
long as no growth of the arrays leaves out the id of a timer that stays. -/
namespace CuteNdk.TimerHeap
open TimerQueue
open Lib (Along Always alwaysMono alwaysOfInvariant)
open Lib.BinaryHeap (parent indexedMem indexedLength contents)

inductive Op where
  | schedule (eh : Handler) (arg : Arg) (deadline interval : TimeValue)
  | cancel (id : Int) (dontCall : Bool)
  | cancelHandler (eh : Option Handler) (dontCall : Bool)
  | resetInterval (id : Int) (interval : TimeValue)
  | expire (current : TimeValue) (ret : Int)
  deriving DecidableEq, Repr

/- A queue with the timers that are live by the calls made so far. -/
structure Tracked where
  queue : TimerQueue
  live : List Timer

def deadlineAfter (current : TimeValue) (t : Timer) : TimeValue :=
  (TimeValue.skipPast current t.interval (TimeValue.turns current t.deadline) t.deadline).getD t.deadline

def without (live : List Timer) (id : Int) : List Timer := live.filter fun t => t.id ≠ id

def withInterval (live : List Timer) (id : Int) (interval : TimeValue) : List Timer :=
  live.map fun t => if t.id = id then { t with interval := interval } else t

/- A timer fired: a one-shot timer is live no more, and neither is an interval
timer whose handler returned less than 0. -/
def fired (live : List Timer) (current : TimeValue) (ret : Int) (d : Timer) : List Timer :=
  if .zero < d.interval ∧ 0 ≤ answer d.handler ret then
    live.map fun t => if t.id = d.id then { t with deadline := deadlineAfter current d } else t
  else without live d.id

def apply (s : Tracked) : Op → Option Tracked
  | .schedule eh arg deadline interval =>
    (s.queue.scheduleI (some eh) arg deadline interval).map fun r =>
      ⟨r.2,if r.1 < 0 then s.live else s.live ++ [⟨r.1,some eh,arg,deadline,interval⟩]⟩
  | .cancel id dontCall => (s.queue.cancel id dontCall).map fun r => ⟨r.2.2,without s.live id⟩
  | .cancelHandler eh dontCall => (s.queue.cancelHandler eh dontCall).map fun r =>
      ⟨r.2,match eh with | none => s.live | some h => s.live.filter fun t => t.handler ≠ some h⟩
  | .resetInterval id interval => (s.queue.resetInterval id interval).map fun r =>
      ⟨r.2,withInterval s.live id interval⟩
  | .expire current ret => (s.queue.expire current ret).map fun r =>
      ⟨r.2,match s.queue.due current with
        | none => s.live
        | some p => fired s.live current ret (s.queue.timer p)⟩

/- Once an operation has run into undefined behaviour there is no state left. -/
def step (s : Option Tracked) (op : Op) : Option (Option Tracked) := some (s.bind fun s => apply s op)

def start (maxSize : Int) (preAlloc : Nat) : Option Tracked := some ⟨make maxSize preAlloc,[]⟩

structure Placed (s : Tracked) : Prop where
  slots : ∀ i < s.queue.currSize, (s.queue.heapAt i).isSome
  minHeap : ∀ i < s.queue.currSize, 0 < i →
    s.queue.value (s.queue.slotNode (parent i)) ≤ s.queue.value (s.queue.slotNode i)
  once : ((contents s.queue.currSize s.queue.slotNode).map s.queue.timer).Perm s.live
  ids : (s.live.map Timer.id).Nodup
  table : ∀ i < s.queue.currSize, 0 ≤ s.queue.ident (s.queue.slotNode i) ∧
    s.queue.ident (s.queue.slotNode i) < s.queue.timerIdsSize ∧
    s.queue.timerIds (s.queue.ident (s.queue.slotNode i)) = i

def InPlace : Option Tracked → Prop
  | none => False
  | some s => Placed s

/- A growth with n timers in the heap, of which those from slot i on stay, doubles
n without overflow and copies the entry of each that stays. -/
def GrowsIntact (q : TimerQueue) (n i : Nat) : Prop :=
  q.timerHeapSize ≤ n + 1 →
    n * 2 ≤ intMax ∧ ∀ j < q.currSize, i ≤ j → q.ident (q.slotNode j) < n

def Intact : Option Tracked → Op → Prop
  | some s, .schedule _ _ _ _ => (s.queue.currSize : Int) < s.queue.maxSize →
      GrowsIntact s.queue s.queue.currSize 0
  | some s, .expire current _ => ∀ p ∈ s.queue.due current, .zero < (s.queue.nodes p).interval →
      GrowsIntact s.queue (s.queue.currSize - 1) 1
  | some s, .resetInterval id _ => id < 0 ∨ s.queue.maxSize < id ∨ id < s.queue.timerIdsSize
  | _, _ => True

/- What holds between operations: besides the queue being sound, min_timer_id_ is
at or below every free id, and there is room for one more timer until the arrays
have max_size_ elements. -/
structure Ready (q : TimerQueue) (ls : Lists) : Prop where
  sound : Sound q ls
  general : ls.crontab = []
  lowest : ∀ k : Int, 0 ≤ k → k < q.minTimerId → k ∈ q.heapIds ls
  wide : 3 ≤ q.timerHeapSize
  room : q.currSize < q.timerHeapSize ∨ (q.timerHeapSize : Int) = q.maxSize
  full : (q.currSize : Int) ≤ q.maxSize
  small : ∀ k ∈ q.heapIds ls, k < q.maxSize

structure Kept (s : Tracked) (ls : Lists) : Prop extends Ready s.queue ls where
  live : (s.queue.heapTimers ls).Perm s.live

def Invariant : Option Tracked → Prop
  | none => False
  | some s => ∃ ls, Kept s ls

instance (s : Tracked) : Decidable (Placed s) :=
  decidable_of_iff
    ((∀ i < s.queue.currSize, (s.queue.heapAt i).isSome) ∧
    (∀ i < s.queue.currSize, 0 < i →
      s.queue.value (s.queue.slotNode (parent i)) ≤ s.queue.value (s.queue.slotNode i)) ∧
    ((contents s.queue.currSize s.queue.slotNode).map s.queue.timer).Perm s.live ∧
    (s.live.map Timer.id).Nodup ∧
    ∀ i < s.queue.currSize, 0 ≤ s.queue.ident (s.queue.slotNode i) ∧
      s.queue.ident (s.queue.slotNode i) < s.queue.timerIdsSize ∧
      s.queue.timerIds (s.queue.ident (s.queue.slotNode i)) = i)
    ⟨fun ⟨a,b,c,d,e⟩ => ⟨a,b,c,d,e⟩,fun ⟨a,b,c,d,e⟩ => ⟨a,b,c,d,e⟩⟩

instance : DecidablePred InPlace
  | none => isFalse id
  | some s => inferInstanceAs (Decidable (Placed s))

instance (q : TimerQueue) (n i : Nat) : Decidable (GrowsIntact q n i) := by
  unfold GrowsIntact; infer_instance

instance (t : Option Tracked) (op : Op) : Decidable (Intact t op) :=
  match t, op with
  | some _, .schedule _ _ _ _ => inferInstanceAs (Decidable (_ → _))
  | some s, .expire _ _ => inferInstanceAs (Decidable (∀ p ∈ s.queue.due _, _ → _))
  | some _, .resetInterval _ _ => inferInstanceAs (Decidable (_ ∨ _))
  | some _, .cancel _ _ => isTrue trivial
  | some _, .cancelHandler _ _ => isTrue trivial
  | none, _ => isTrue trivial

section Lists
variable {q : TimerQueue} {ls : Lists}

theorem identInjective (h : Sound q ls) {p z : Ptr} (hp : p ∈ ls.heap) (hz : z ∈ ls.heap)
    (same : q.ident z = q.ident p) : z = p :=
  List.inj_on_of_nodup_map h.shape.heap.indexed.distinct hz hp same

theorem heapLength (h : Sound q ls) : ls.heap.length = q.currSize := indexedLength h.shape.heap.indexed

theorem idsLength (h : Sound q ls) : (q.heapIds ls).length = q.currSize := by
  rw [heapIds,List.length_map,heapLength h]

theorem liveIds {live : List Timer} (same : (q.heapTimers ls).Perm live) :
    (live.map Timer.id).Perm (q.heapIds ls) := by
  have eq : (q.heapTimers ls).map Timer.id = q.heapIds ls := by
    simp only [heapTimers,heapIds,List.map_map]
    rfl
  exact eq ▸ (same.map Timer.id).symm

/- The heap without p holds the live timers without p's id. -/
theorem withoutErase (h : Sound q ls) {p : Ptr} (mem : p ∈ ls.heap) {live : List Timer}
    (same : (q.heapTimers ls).Perm live) :
    ((ls.heap.erase p).map q.timer).Perm (without live (q.ident p)) := by
  have split := ((List.perm_cons_erase mem).map q.timer).symm.trans same
  have cut := split.filter fun t => t.id ≠ q.ident p
  rw [List.map_cons,List.filter_cons_of_neg (by simp [timer])] at cut
  refine List.Perm.trans ?_ cut
  rw [List.filter_eq_self.mpr]
  intro t ht
  obtain ⟨z,hz,rfl⟩ := List.mem_map.mp ht
  have other : q.ident z ≠ q.ident p := fun eq => by
    have gone := (heapNodup h.shape).not_mem_erase (a := p)
    exact gone (identInjective h mem (List.mem_of_mem_erase hz) eq ▸ hz)
  exact decide_eq_true other

theorem withoutMissing {id : Int} (off : id ∉ q.heapIds ls) {live : List Timer}
    (same : (q.heapTimers ls).Perm live) : without live id = live := by
  refine List.filter_eq_self.mpr fun t ht => ?_
  have other : t.id ≠ id := fun eq =>
    off ((liveIds same).subset (eq ▸ List.mem_map_of_mem ht))
  exact decide_eq_true other

theorem takenTimers {q' : TimerQueue} {p : Ptr} (h : Sound q ls) (taken : TakenOut q q' ls p) :
    q'.heapTimers (ls.retire p) = (ls.heap.erase p).map q.timer := by
  refine List.map_congr_left fun z hz => ?_
  have other : z ≠ p := by
    rintro rfl
    exact (heapNodup h.shape).not_mem_erase hz
  simp only [timer,ident,value,taken.nodes z other]

end Lists

section Steps
variable {s : Tracked} {ls : Lists}

/- A timer taken out leaves every other one as it was. -/
theorem readyTaken {q q' : TimerQueue} {p : Ptr} (h : Ready q ls) (mem : p ∈ ls.heap)
    (taken : TakenOut q q' ls p) : Ready q' (ls.retire p) := by
  have size := taken.currSize
  have nonempty : 0 < q.currSize := by
    rw [← heapLength h.sound]; exact List.length_pos_of_mem mem
  refine ⟨taken.sound,h.general,fun k low high => ?_,?_,?_,?_,fun k hk => ?_⟩
  · rw [taken.minTimerId] at high
    obtain ⟨z,hz,same⟩ := List.mem_map.mp (h.lowest k low (by omega))
    have other : z ≠ p := by
      rintro rfl
      omega
    refine List.mem_map.mpr ⟨z,(List.mem_erase_of_ne other).mpr hz,?_⟩
    simp only [ident,taken.nodes z other]
    exact same
  · rw [taken.heapSize]; exact h.wide
  · rw [taken.heapSize,taken.maxSize,size]
    have := h.room
    omega
  · rw [taken.maxSize,size]
    have := h.full
    omega
  · obtain ⟨z,hz,rfl⟩ := List.mem_map.mp hk
    have other : z ≠ p := by
      rintro rfl
      exact (heapNodup h.sound.shape).not_mem_erase hz
    rw [taken.maxSize,show q'.ident z = q.ident z by simp only [ident,taken.nodes z other]]
    exact h.small _ (List.mem_map_of_mem (List.mem_of_mem_erase hz))

theorem keptTaken (h : Kept s ls) {q' : TimerQueue} {p : Ptr} (mem : p ∈ ls.heap)
    (taken : TakenOut s.queue q' ls p) : Kept ⟨q',without s.live (s.queue.ident p)⟩ (ls.retire p) := by
  refine ⟨readyTaken h.toReady mem taken,?_⟩
  rw [takenTimers h.sound taken]
  exact withoutErase h.sound mem h.live

theorem crontabNone (h : Kept s ls) : s.queue.crontabTimers = none := by
  have walk := h.sound.shape.crontab.forth
  rw [h.general] at walk
  exact walk

/- Every operation that is not undefined ends in a state that is kept. -/
def Keeps (s : Tracked) (op : Op) : Prop := ∃ t, apply s op = some t ∧ ∃ ls, Kept t ls

theorem cancelKeeps (h : Kept s ls) (id : Int) (dontCall : Bool) : Keeps s (.cancel id dontCall) := by
  have noCrontab : ∀ z ∈ ls.crontab, s.queue.ident z ≠ id := by
    rw [h.general]
    exact nofun
  simp only [Keeps,apply]
  by_cases range : id < 0 ∨ s.queue.timerIdsSize ≤ id
  · have off : id ∉ s.queue.heapIds ls := fun mem => by
      obtain ⟨z,hz,rfl⟩ := List.mem_map.mp mem
      have := h.sound.shape.heap.range z hz
      omega
    have runs : s.queue.cancel id dontCall = some (-1,none,s.queue) := by
      unfold cancel
      exact if_pos range
    rw [runs,withoutMissing off h.live]
    exact ⟨_,rfl,ls,h⟩
  · rw [cancelPassesCrontab h.sound.shape (by omega) (by omega) noCrontab]
    by_cases mem : id ∈ s.queue.heapIds ls
    · obtain ⟨p,hp,rfl⟩ := List.mem_map.mp mem
      obtain ⟨q',runs,taken⟩ := cancelGeneralTakes h.sound hp dontCall
      rw [runs]
      exact ⟨_,rfl,_,keptTaken h hp taken⟩
    · rw [cancelGeneralMisses h.sound (by omega) (by omega) mem,withoutMissing mem h.live]
      exact ⟨_,rfl,ls,h⟩

/- While there is room in the table there is a free id to hand out. -/
theorem freeIdExists (h : Kept s ls) (below : (s.queue.currSize : Int) < s.queue.maxSize) :
    ∃ k, s.queue.freeId = some k := by
  have room : s.queue.currSize < s.queue.timerIdsSize := by
    have := h.room
    have := h.sound.shape.sizes
    omega
  by_contra none'
  have scanned := firstFreeNone (Option.eq_none_iff_forall_ne_some.mpr fun k hk => none' ⟨k,hk⟩)
  have all : (List.range s.queue.timerIdsSize).map Int.ofNat ⊆ s.queue.heapIds ls := by
    intro k hk
    obtain ⟨n,hn,rfl⟩ := List.mem_map.mp hk
    rw [List.mem_range] at hn
    by_contra out
    have low : s.queue.minTimerId ≤ Int.ofNat n := by
      by_contra under
      exact out (h.lowest _ (Int.natCast_nonneg n) (not_le.mp under))
    have := h.sound.shape.low
    refine scanned (Int.ofNat n) low ?_ (h.sound.vacant _ (Int.natCast_nonneg n) ?_ out)
    · have := Int.ofNat_lt.mpr hn
      simp only [Int.ofNat_eq_natCast] at *
      omega
    · exact Int.ofNat_lt.mpr hn
  have distinct : ((List.range s.queue.timerIdsSize).map Int.ofNat).Nodup :=
    List.nodup_range.map fun a b same => Int.ofNat.inj same
  have short := (List.subperm_of_subset distinct all).length_le
  rw [idsLength h.sound] at short
  simp at short
  omega

/- The id handed out is at most the number of live timers: every id below it is
taken. -/
theorem freeIdSmall (h : Ready s.queue ls) {k : Int} (got : s.queue.freeId = some k) :
    k ≤ s.queue.currSize := by
  obtain ⟨low,high,_,_,before⟩ := freeIdSound h.sound.shape got
  have nonneg := Int.le_trans h.sound.shape.low low
  have below : (List.range k.toNat).map Int.ofNat ⊆ s.queue.heapIds ls := by
    intro j hj
    obtain ⟨n,hn,rfl⟩ := List.mem_map.mp hj
    rw [List.mem_range] at hn
    have under : Int.ofNat n < k := by simp only [Int.ofNat_eq_natCast]; omega
    by_contra out
    have above : s.queue.minTimerId ≤ Int.ofNat n := by
      by_contra early
      exact out (h.lowest _ (Int.natCast_nonneg n) (not_le.mp early))
    exact before _ above under (h.sound.vacant _ (Int.natCast_nonneg n) (under.trans high) out)
  have distinct : ((List.range k.toNat).map Int.ofNat).Nodup :=
    List.nodup_range.map fun a b same => Int.ofNat.inj same
  have short := (List.subperm_of_subset distinct below).length_le
  rw [idsLength h.sound] at short
  simp at short
  omega

theorem intactIds {q : TimerQueue} (h : Sound q ls) {n : Nat} (kept : ∀ j < q.currSize, 0 ≤ j →
    q.ident (q.slotNode j) < n) : ∀ z ∈ ls.heap, q.ident z < n := by
  intro z hz
  obtain ⟨j,hj,rfl,_⟩ := Lib.BinaryHeap.indexedSlot h.shape.heap.indexed hz
  exact kept j hj (Nat.zero_le j)

theorem scheduleKeeps (h : Kept s ls) (eh : Handler) (arg : Arg) (deadline interval : TimeValue)
    (intact : Intact (some s) (.schedule eh arg deadline interval)) :
    Keeps s (.schedule eh arg deadline interval) := by
  simp only [Keeps,apply]
  by_cases below : (s.queue.currSize : Int) < s.queue.maxSize
  · obtain ⟨k,got⟩ := freeIdExists h below
    have sizes := h.sound.shape.sizes
    have nonneg := Int.le_trans h.sound.shape.low (freeIdSound h.sound.shape got).1
    have room := h.room
    have wide := h.wide
    have grownSize : s.queue.grown.timerHeapSize
        = (min ((s.queue.currSize * 2 : Nat) : Int) s.queue.maxSize).toNat := rfl
    have fits : Fits s.queue ls.heap := fun full => by
      obtain ⟨small,kept⟩ := intact below full
      exact ⟨small,by omega,intactIds h.sound kept⟩
    obtain ⟨p,free,q',runs,added,isNew⟩ := scheduleAdds h.sound below got fits eh arg deadline interval
    rw [runs]
    have positive : ¬ k < 0 := by omega
    simp only [Option.map_some,if_neg positive]
    have same : q'.heapIds (Lists.push { ls with free := free } p) = s.queue.heapIds ls ++ [k] := by
      simp only [heapIds,Lists.push,List.map_append,List.map_singleton]
      congr 1
      · refine List.map_congr_left fun z hz => ?_
        simp only [ident,scheduledNodes added z (List.mem_append_left _ (List.mem_append_left _ hz))]
      · rw [← show (q'.timer p).id = k by rw [isNew]]
        rfl
    refine ⟨_,rfl,_,⟨added.sound,h.general,fun j low high => ?_,?_,?_,?_,fun j hj => ?_⟩,?_⟩
    · rw [same,List.mem_append,List.mem_singleton]
      have sound := freeIdSound h.sound.shape got
      rcases added.sizes with ⟨_,_,next⟩ | ⟨full,_,next⟩ <;> rw [next] at high
      · by_cases under : j < s.queue.minTimerId
        · exact .inl (h.lowest j low under)
        · by_cases here : j = k
          · exact .inr here
          · refine .inl ?_
            by_contra out
            have taken := sound.2.2.2.2 j (by omega) (by omega)
            exact taken (h.sound.vacant j low (by omega) out)
      · obtain ⟨_,kept⟩ := intact below full
        refine .inl (idsBelow (h.sound.shape.heap.indexed.distinct) (idsLength h.sound) ?_ low high)
        intro i hi
        obtain ⟨z,hz,rfl⟩ := List.mem_map.mp hi
        exact ⟨(h.sound.shape.heap.range z hz).1,intactIds h.sound kept z hz⟩
    · rcases added.sizes with ⟨_,same,_⟩ | ⟨full,grew,_⟩ <;> simp only <;> omega
    · have next := added.currSize
      have cap := added.maxSize
      simp only
      rcases added.sizes with ⟨_,same,_⟩ | ⟨full,grew,_⟩ <;> omega
    · have next := added.currSize
      have cap := added.maxSize
      simp only
      omega
    · rw [same,List.mem_append,List.mem_singleton] at hj
      simp only [added.maxSize]
      rcases hj with old | rfl
      · exact h.small j old
      · exact (freeIdSmall h.toReady got).trans_lt below
    · simp only [heapTimers,Lists.push,List.map_append,List.map_singleton,isNew]
      have same : ls.heap.map q'.timer = ls.heap.map s.queue.timer :=
        List.map_congr_left fun z hz => by
          simp only [timer,ident,value,scheduledNodes added z (List.mem_append_left _ (List.mem_append_left _ hz))]
      rw [same]
      exact h.live.append_right _
  · have runs : s.queue.scheduleI (some eh) arg deadline interval = some (-1,s.queue) := by
      unfold scheduleI
      exact if_pos (not_lt.mp below)
    rw [runs]
    exact ⟨_,rfl,ls,h⟩

theorem cancelHandlerKeeps (h : Kept s ls) (eh : Option Handler) (dontCall : Bool) :
    Keeps s (.cancelHandler eh dontCall) := by
  simp only [Keeps,apply]
  cases eh with
  | none => exact ⟨_,rfl,ls,h⟩
  | some eh =>
    obtain ⟨q',ls',runs,sound,ready,cleared⟩ : ∃ q' ls',
        cancelGenerals eh (s.queue.currSize * (s.queue.currSize + 2) + 1) s.queue 0 0
          = some ((0 : Int) + (ls.heap.countP (s.queue.hasHandler eh) : Nat),q') ∧
        Sound q' ls' ∧ Ready q' ls' ∧ Cleared s.queue q' ls ls' eh :=
      cancelGeneralsClears (fun _ _ _ _ _ mem taken h => readyTaken h mem taken) h.sound h.toReady
        (by simp only [Nat.mul_add]; omega) (Nat.zero_le _) fun j hj => absurd hj (Nat.not_lt_zero j)
    have live : (q'.heapTimers ls').Perm (s.live.filter fun t => t.handler ≠ some eh) := by
      have same : q'.heapTimers ls' = ls'.heap.map s.queue.timer :=
        List.map_congr_left fun z hz => by
          simp only [timer,ident,value,cleared.nodes z (List.mem_append_left _ hz)]
      have chosen : (ls.heap.filter fun p => !s.queue.hasHandler eh p).map s.queue.timer
          = (s.queue.heapTimers ls).filter fun t => t.handler ≠ some eh := by
        rw [heapTimers,List.filter_map]
        refine congrArg (List.map _) (List.filter_congr fun z _ => ?_)
        by_cases hit : (s.queue.nodes z).handler = some eh <;> simp [hasHandler,timer,hit]
      rw [same]
      exact (cleared.heap.map s.queue.timer).trans (chosen ▸ h.live.filter _)
    simp only [cancelHandler,crontabNone h,cancelCrontabs,runs,bind,Option.bind]
    refine ⟨_,rfl,ls',?_⟩
    cases dontCall with
    | true => exact ⟨ready,live⟩
    | false =>
      have called := soundCalls sound (q'.calls ++ [.close eh])
      exact ⟨⟨called,ready.general,ready.lowest,ready.wide,ready.room,ready.full,ready.small⟩,live⟩

/- A change of one timer's record changes the list of live timers at its id. -/
theorem liveUpdate {q : TimerQueue} (h : Sound q ls) {p : Ptr} (hp : p ∈ ls.heap) {live : List Timer}
    (same : (q.heapTimers ls).Perm live) (f : Timer → Timer) {view : Ptr → Timer}
    (changed : view p = f (q.timer p)) (others : ∀ z ∈ ls.heap, z ≠ p → view z = q.timer z) :
    (ls.heap.map view).Perm (live.map fun t => if t.id = q.ident p then f t else t) := by
  have eq : ls.heap.map view = (q.heapTimers ls).map fun t => if t.id = q.ident p then f t else t := by
    rw [heapTimers,List.map_map]
    refine List.map_congr_left fun z hz => ?_
    by_cases here : z = p
    · subst z
      rw [changed]
      exact (if_pos rfl).symm
    · have other : ¬ q.ident z = q.ident p := fun eq => here (identInjective h hp hz eq)
      rw [others z hz here]
      exact (if_neg other).symm
  rw [eq]
  exact same.map _

theorem resetIntervalKeeps (h : Kept s ls) (id : Int) (interval : TimeValue)
    (inside : Intact (some s) (.resetInterval id interval)) : Keeps s (.resetInterval id interval) := by
  simp only [Keeps,apply]
  by_cases mem : id ∈ s.queue.heapIds ls
  · have below := h.small id mem
    obtain ⟨p,hp,rfl⟩ := List.mem_map.mp mem
    obtain ⟨runs,sound⟩ := resetIntervalSets h.sound hp below.le interval
    rw [runs]
    have fields : ∀ z, (s.queue.setNode p { s.queue.nodes p with interval := interval }).ident z
        = s.queue.ident z := fun z => by
      by_cases here : z = p
      · subst z; simp [ident,setNode]
      · simp [ident,setNode,here]
    have ids : (s.queue.setNode p { s.queue.nodes p with interval := interval }).heapIds ls
        = s.queue.heapIds ls := List.map_congr_left fun z _ => fields z
    refine ⟨_,rfl,ls,⟨sound,h.general,ids ▸ h.lowest,h.wide,h.room,h.full,ids ▸ h.small⟩,?_⟩
    refine liveUpdate h.sound hp h.live (fun t => { t with interval := interval }) ?_ fun z _ other => ?_
    · simp [timer,ident,value,setNode]
    · simp [timer,ident,value,setNode,other]
  · have missing : withInterval s.live id interval = s.live := by
      refine (List.map_congr_left fun t ht => ?_).trans (List.map_id _)
      have other : ¬ t.id = id := fun eq =>
        mem ((liveIds h.live).subset (eq ▸ List.mem_map_of_mem ht))
      exact if_neg other
    have runs : s.queue.resetInterval id interval = some (-1,s.queue) := by
      unfold resetInterval
      by_cases out : id < 0 ∨ s.queue.maxSize < id
      · exact if_pos out
      · have high : ¬ (s.queue.timerIdsSize : Int) ≤ id := by
          simp only [Intact] at inside
          omega
        rw [if_neg out,if_neg high,h.sound.vacant id (by omega) (by omega) mem]
        rfl
    rw [runs,missing]
    exact ⟨_,rfl,ls,h⟩

theorem fitsAgain (h : Ready s.queue ls) {current : TimeValue} {p : Ptr}
    (got : s.queue.due current = some p) (intact : GrowsIntact s.queue (s.queue.currSize - 1) 1) :
    FitsAgain s.queue (ls.heap.erase p) := by
  intro full
  obtain ⟨small,kept⟩ := intact full
  obtain ⟨inside,_,_⟩ := dueRoot h.sound got
  have again : s.queue.regrown
    = (min (((s.queue.currSize - 1) * 2 : Nat) : Int) s.queue.maxSize).toNat := rfl
  have := h.room
  have := h.wide
  have := h.full
  refine ⟨small,by omega,fun z hz => ?_⟩
  obtain ⟨j,after,hj,rfl⟩ := restAfterRoot h.sound got hz
  exact kept j hj after

/- The ids a rearmed timer and the others have are those they had. -/
theorem rearmedIds {q q' : TimerQueue} {p : Ptr} {v : TimeValue} (mem : p ∈ ls.heap)
    (rearmed : Rearmed q q' ls p v) : q'.ident = q.ident ∧
      (q'.heapIds ((ls.drop p).push p)).Perm (q.heapIds ls) := by
  have same := rearmedIdent rearmed
  refine ⟨same,?_⟩
  rw [heapIds,same]
  refine List.Perm.map _ ?_
  exact List.perm_append_comm.trans (List.perm_cons_erase mem).symm

theorem readyRearmed {q' : TimerQueue} {p : Ptr} {v : TimeValue} (h : Ready s.queue ls)
    (mem : p ∈ ls.heap) (fits : FitsAgain s.queue (ls.heap.erase p))
    (rearmed : Rearmed s.queue q' ls p v) : Ready q' ((ls.drop p).push p) := by
  obtain ⟨same,ids⟩ := rearmedIds mem rearmed
  have nonempty : 0 < s.queue.currSize := by
    rw [← heapLength h.sound]; exact List.length_pos_of_mem mem
  have size := rearmed.currSize
  have cap := rearmed.maxSize
  have room := h.room
  have wide := h.wide
  have under := h.full
  have again : s.queue.regrown
    = (min (((s.queue.currSize - 1) * 2 : Nat) : Int) s.queue.maxSize).toNat := rfl
  refine ⟨rearmed.sound,h.general,fun k low high => ?_,?_,?_,by omega,fun k hk => ?_⟩
  · rcases rearmed.sizes with ⟨_,_,next⟩ | ⟨full,_,next⟩ <;> rw [next] at high
    · exact ids.symm.subset (h.lowest k low high)
    · obtain ⟨_,_,kept⟩ := fits full
      have distinct : ((ls.heap.erase p).map s.queue.ident).Nodup :=
        h.sound.shape.heap.indexed.distinct.sublist (List.erase_sublist.map _)
      have length : ((ls.heap.erase p).map s.queue.ident).length = s.queue.currSize - 1 := by
        rw [List.length_map,List.length_erase_of_mem mem,heapLength h.sound]
      have inside := idsBelow distinct length (fun i hi => ?_) low high
      · obtain ⟨z,hz,rfl⟩ := List.mem_map.mp inside
        exact ids.symm.subset (List.mem_map_of_mem (List.mem_of_mem_erase hz))
      · obtain ⟨z,hz,rfl⟩ := List.mem_map.mp hi
        exact ⟨(h.sound.shape.heap.range z (List.mem_of_mem_erase hz)).1,kept z hz⟩
  · rcases rearmed.sizes with ⟨_,grew,_⟩ | ⟨_,grew,_⟩ <;> omega
  · rcases rearmed.sizes with ⟨_,grew,_⟩ | ⟨_,grew,_⟩ <;> omega
  · rw [cap]
    exact h.small k (ids.subset hk)

theorem withoutUpdated (live : List Timer) (id : Int) (f : Timer → Timer)
    (same : ∀ t, (f t).id = t.id) :
    without (live.map fun t => if t.id = id then f t else t) id = without live id := by
  induction live with
  | nil => rfl
  | cons t live ih =>
    unfold without at ih ⊢
    by_cases here : t.id = id
    · simpa [here,same] using ih
    · simpa [here] using ih

theorem expireKeeps (h : Kept s ls) (current : TimeValue) (ret : Int)
    (intact : Intact (some s) (.expire current ret)) : Keeps s (.expire current ret) := by
  simp only [Keeps,apply]
  cases got : s.queue.due current with
  | none =>
    rw [expireIdle h.sound got]
    exact ⟨_,rfl,ls,h⟩
  | some p =>
    have mem : p ∈ ls.heap := by
      obtain ⟨inside,rfl,_⟩ := dueRoot h.sound got
      exact indexedMem h.sound.shape.heap.indexed inside
    by_cases periodic : .zero < (s.queue.nodes p).interval
    · have fits := fitsAgain h.toReady got (intact p got periodic)
      obtain ⟨v,q₂,ends,rearmed,runs⟩ := expirePeriodic h.sound got periodic fits ret
      have ready := readyRearmed h.toReady mem fits rearmed
      have live : (q₂.heapTimers ((ls.drop p).push p)).Perm
          (s.live.map fun t => if t.id = s.queue.ident p then { t with deadline := v } else t) := by
        obtain ⟨changed,others⟩ := rearmedTimer rearmed
        have updated := liveUpdate h.sound mem h.live (fun t => { t with deadline := v }) changed
          fun z _ other => others z other
        exact ((List.perm_append_comm.trans (List.perm_cons_erase mem).symm).map _).trans updated
      rw [runs]
      by_cases quits : answer (s.queue.nodes p).handler ret < 0
      · obtain ⟨q₃,cancelled,taken⟩ := rearmedCancel rearmed (by rw [h.general]; exact nofun)
        have same := congrFun (rearmedIds mem rearmed).1 p
        have kept := keptTaken (s := ⟨q₂,_⟩) ⟨ready,live⟩
          (List.mem_append_right _ (List.mem_singleton_self p)) taken
        simp only [if_pos quits,cancelled,Option.map_some]
        refine ⟨_,rfl,((ls.drop p).push p).retire p,?_⟩
        have gone : ¬ (.zero < (s.queue.timer p).interval ∧ 0 ≤ answer (s.queue.timer p).handler ret) :=
          fun both => absurd both.2 (not_le.mpr quits)
        rw [fired,if_neg gone]
        rw [same,withoutUpdated _ _ (fun t => { t with deadline := v }) fun _ => rfl] at kept
        exact kept
      · have stays : .zero < (s.queue.timer p).interval ∧ 0 ≤ answer (s.queue.timer p).handler ret :=
          ⟨periodic,not_lt.mp quits⟩
        have next : deadlineAfter current (s.queue.timer p) = v := by
          simp only [deadlineAfter,timer,value,ends,Option.getD_some]
        simp only [if_neg quits,Option.map_some]
        refine ⟨_,rfl,_,ready,?_⟩
        rw [fired,if_pos stays,next]
        exact live
    · obtain ⟨q',runs,taken⟩ := expireOnce h.sound got periodic ret
      have gone : ¬ (.zero < (s.queue.timer p).interval ∧ 0 ≤ answer (s.queue.timer p).handler ret) :=
        fun both => periodic both.1
      rw [runs]
      refine ⟨_,rfl,ls.retire p,?_⟩
      simp only [fired,if_neg gone]
      exact keptTaken h mem taken

theorem stepKeeps {t : Option Tracked} {op : Op} (h : Invariant t) (intact : Intact t op) :
    Invariant (t.bind fun s => apply s op) := by
  cases t with
  | none => exact h
  | some s =>
    obtain ⟨ls,kept⟩ := h
    have keeps : Keeps s op := by
      cases op with
      | schedule eh arg deadline interval => exact scheduleKeeps kept eh arg deadline interval intact
      | cancel id dontCall => exact cancelKeeps kept id dontCall
      | cancelHandler eh dontCall => exact cancelHandlerKeeps kept eh dontCall
      | resetInterval id interval => exact resetIntervalKeeps kept id interval intact
      | expire current ret => exact expireKeeps kept current ret intact
    obtain ⟨s',runs,ls',kept'⟩ := keeps
    change Invariant (apply s op)
    rw [runs]
    exact ⟨ls',kept'⟩

theorem placedOfKept (h : Kept s ls) : Placed s := by
  have indexed := h.sound.shape.heap.indexed
  refine ⟨fun i hi => ?_,fun i hi off => h.sound.shape.heap.ordered i off hi,?_,?_,fun i hi => ?_⟩
  · rw [h.sound.shape.heap.filled i hi]
    rfl
  · exact (indexed.holds.map s.queue.timer).trans h.live
  · exact (liveIds h.live).nodup_iff.mpr indexed.distinct
  · have range := h.sound.shape.heap.range _ (indexedMem indexed hi)
    exact ⟨range.1,range.2,indexed.placed i hi⟩

end Steps

theorem startKept {maxSize : Int} {preAlloc : Nat} (one : 1 ≤ maxSize) (three : 3 ≤ preAlloc) :
    Invariant (start maxSize preAlloc) := by
  refine ⟨_,⟨⟨makeShape maxSize preAlloc,makeVacant _ _ _⟩,rfl,fun k low high => ?_,three,
    .inl (Nat.zero_lt_of_lt three),Int.le_trans Int.one_nonneg one,nofun⟩,List.Perm.nil⟩
  change k < 0 at high
  omega

theorem inPlaceWhileIntact (maxSize : Int) (preAlloc : Nat) (one : 1 ≤ maxSize)
    (three : 3 ≤ preAlloc) (ops : List Op)
    (intact : Along step Intact (start maxSize preAlloc) ops) :
    Always step InPlace (start maxSize preAlloc) ops := by
  have keeps : ∀ t op t', Invariant t → Intact t op → step t op = some t' → Invariant t' := by
    intro t op t' h ok next
    cases Option.some.inj next
    exact stepKeeps h ok
  have gives : ∀ t, Invariant t → InPlace t := by
    intro t h
    cases t with
    | none => exact h
    | some s =>
      obtain ⟨ls,kept⟩ := h
      exact placedOfKept kept
  exact alwaysMono gives (alwaysOfInvariant keeps (startKept one three) intact)

/- Three timers fill the arrays, one goes and another takes its id, and the
interval timer fires; the arrays grow to four elements on the way. -/
theorem threeTimersInPlace : (1 : Int) ≤ 9 ∧ 3 ≤ 3 ∧
    Always step InPlace (start 9 3)
      [.schedule (.user 1) 0 (.set 5 0) (.set 10 0),.schedule (.user 2) 0 (.set 3 0) .zero,
        .schedule (.user 1) 0 (.set 4 0) .zero,.cancel 1 true,
        .schedule (.user 3) 0 (.set 2 0) .zero,.expire (.set 6 0) 0,.expire (.set 6 0) 0,
        .expire (.set 6 0) 0,.resetInterval 0 (.set 1 0),.cancelHandler (some (.user 1)) true] :=
  ⟨by decide,by decide,inPlaceWhileIntact 9 3 (by decide) (by decide) _ (by decide +kernel)⟩

/- The interval timer goes back into the full arrays: they grow to the size they
have, and the entry of id 2 is not copied. -/
theorem fullArraysLoseId : ¬ ∀ (maxSize : Int) (preAlloc : Nat), 1 ≤ maxSize → 3 ≤ preAlloc →
    ∀ ops, Always step InPlace (start maxSize preAlloc) ops := by
  intro claim
  have lost : ¬ Always step InPlace (start 3 3)
      [.schedule (.user 1) 0 (.set 1 0) (.set 10 0),.schedule (.user 2) 0 (.set 2 0) .zero,
        .schedule (.user 3) 0 (.set 3 0) .zero,.expire (.set 1 0) 0] := by decide +kernel
  exact lost (claim 3 3 (by decide) (by decide) _)

end CuteNdk.TimerHeap
