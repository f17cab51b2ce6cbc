import CuteNdk.TimerCrontabCall
import CuteNdk.CronTextSafety

/-! reset_crontab on the queues that crontab, cancel, schedule_i, expire and
reset_crontab itself lead to: when it does what it is for. It looks at the first
crontab timer over and over, and gives an id back with its scratch node. -/
namespace CuteNdk
open Lib.CString (Str)
open CronText (parseCronEntry blankEntry)

/- node->crontab_entry(entry) -/
def TimerQueue.setEntry (q : TimerQueue) (p : TimerQueue.Ptr) (entry : Option TimerQueue.CronEntry) : TimerQueue :=
  q.setNode p { q.nodes p with crontabEntry := entry }

/- Memory is never out, so that alloc_node and alloc_cron_entry give no null. -/
def TimerQueue.resetCrontab (q : TimerQueue) (id : Int) (entry : Str) : Option (Int × TimerQueue) :=
  if id < 0 ∨ q.maxSize ≤ id then some (-1,q) else
  match q.crontabTimers with
  | none => some (0,q)
  | some iter =>
    if id ≠ (q.nodes iter).timerId then none -- while (iter) with the same iter
    else do
      let (node,q) := q.allocNode .crontab
      let (result,cronEntry) ← parseCronEntry entry blankEntry
      let q := q.setEntry node (some cronEntry)
      if result = -1 then some (-1,q.freeNode node) else
      let p := (q.nodes iter).crontabEntry
      let q := q.setEntry iter (q.nodes node).crontabEntry
      let q := q.setEntry node p
      some (0,q.freeNode node)

namespace TimerReset
open TimerQueue
open TimerMixed
open TimerIds (crontabList walk walkIs)
open Lib (Seg segCongr segUnique run Along Always alwaysOfInvariant alwaysAtEnd)

inductive Op where
  | other (op : TimerMixed.Op)
  | resetCrontab (id : Int) (entry : Str)
  deriving DecidableEq, Repr

def apply (q : TimerQueue) : Op → Option TimerQueue
  | .other op => TimerMixed.apply q op
  | .resetCrontab id entry => (q.resetCrontab id entry).map fun r => r.2

/- The cancels spare the first and the last crontab timer. -/
def Inside (q : TimerQueue) : Op → Prop
  | .other op => TimerMixed.Inside q op
  | .resetCrontab _ _ => True

instance (q : TimerQueue) (op : Op) : Decidable (Inside q op) :=
  match op with
  | .other _ => inferInstanceAs (Decidable (TimerMixed.Inside _ _))
  | .resetCrontab _ _ => isTrue trivial

def Registered (q : TimerQueue) (id : Int) : Prop := ∃ z ∈ crontabList q, q.ident z = id

def Parses (entry : Str) (e : CronEntry) : Prop := parseCronEntry entry blankEntry = some (0,e)

/- An id alloc_timerid may give. -/
def Available (q : TimerQueue) (k : Int) : Prop := q.minTimerId ≤ k ∧ k < q.timerIdsSize ∧ q.timerIds k = -1
instance (q k) : Decidable (Available q k) := inferInstanceAs (Decidable (_ ∧ _))

def freeTimers (q : TimerQueue) : List Ptr := walk q (q.made + 1) q.freeTimerNodes
def freeCrontabs (q : TimerQueue) : List Ptr := walk q (q.made + 1) q.freeCrontabTimers

/- The timers, the ids and the free lists as before: a free node is still free, and
is no registered timer. -/
structure Untouched (q q' : TimerQueue) : Prop extends Unchanged q q' where
  list : crontabList q' = crontabList q
  available : ∀ k, Available q' k ↔ Available q k
  freeTimers : freeTimers q' = freeTimers q
  freeCrontabs : ∀ z ∈ freeCrontabs q, z ∈ freeCrontabs q'
  apart : ∀ z ∈ TimerReset.freeCrontabs q', z ∉ crontabList q'

def entryOf (q : TimerQueue) (p : Ptr) : Option CronEntry := (q.nodes p).crontabEntry

def Resets (q : TimerQueue) (id : Int) (entry : Str) : Prop :=
  ∃ result q', q.resetCrontab id entry = some (result,q') ∧ Untouched q q' ∧
    ((result = 0 ∧ ∃ p ∈ crontabList q, q.ident p = id ∧
        (∃ e, Parses entry e ∧ entryOf q' p = some e) ∧ ∀ z ∈ crontabList q, z ≠ p → entryOf q' z = entryOf q z) ∨
      (result = -1 ∧ ¬(Registered q id ∧ ∃ e, Parses entry e) ∧ ∀ z ∈ crontabList q, entryOf q' z = entryOf q z))

/- In range the timer has to be the first of the list, the entry one parse_cron_entry
gets through, and the id the free node on top still bears one that is not given. -/
def ResetSound (q : TimerQueue) (id : Int) (entry : Str) : Prop :=
  if id < 0 ∨ q.maxSize ≤ id then ¬(Registered q id ∧ ∃ e, Parses entry e)
  else (∃ p ∈ q.crontabTimers, q.ident p = id) ∧ parseCronEntry entry blankEntry ≠ none ∧
    ∀ p ∈ q.freeCrontabTimers, 0 ≤ q.ident p → q.ident p < q.timerIdsSize → Available q (q.ident p)

section Entries
variable {q q' : TimerQueue} {heap free crontab freeCrontab : List Ptr} {p : Ptr}

theorem setEntryOther {z : Ptr} (other : z ≠ p) (c : Option CronEntry) : (q.setEntry p c).nodes z = q.nodes z :=
  Function.update_of_ne other _ _

theorem setEntrySelf (q : TimerQueue) (p : Ptr) (c : Option CronEntry) :
    (q.setEntry p c).nodes p = { q.nodes p with crontabEntry := c } := Function.update_self _ _ _

theorem setEntryTwice (q : TimerQueue) (p : Ptr) (c d : Option CronEntry) :
    (q.setEntry p c).setEntry p d = q.setEntry p d := by
  simp only [setEntry,setNode,Function.update_self,Function.update_idem]

/- An entry is no link. -/
theorem mixedEntry (h : Mixed q heap free) (cron : Cron q p) (c : Option CronEntry) :
    Mixed (q.setEntry p c) heap free ∧ ∀ z, Cron q z → Cron (q.setEntry p c) z :=
  mixedSet h cron (n := { q.nodes p with crontabEntry := c }) cron.2 (h.links p cron).1 (h.links p cron).2

theorem filedEntry (h : Filed q heap free crontab freeCrontab) (cron : Cron q p) (c : Option CronEntry) :
    Filed (q.setEntry p c) heap free crontab freeCrontab ∧ ∀ z, Cron q z → Cron (q.setEntry p c) z := by
  obtain ⟨mixed,stays⟩ := mixedEntry h.mixed cron c
  have next : nextOf (q.setEntry p c) = q.nextOf := by
    rw [setEntry,setNodeNext]
    exact Function.update_eq_self p q.nextOf
  have prev : prevOf (q.setEntry p c) = q.prevOf := by
    rw [setEntry,setNodePrev]
    exact Function.update_eq_self p q.prevOf
  refine ⟨⟨mixed,shapeOfCron ?_ ?_ (filedApart h) fun z hz => stays z (filedCron h z hz),fun z hz => ?_⟩,stays⟩
  · rw [next,prev]
    exact filedWalk h
  · rw [next]
    exact h.shape.freeCrontab
  · have same : (q.setEntry p c).ident z = q.ident z := by
      by_cases here : z = p
      · rw [here]
        simp only [ident,setEntrySelf]
      · simp only [ident,setEntryOther here]
    rw [same]
    exact h.range z hz

/- What is left of the call when the scratch node is back: the id it bore is released,
and the timer has an entry, its own or the new one. -/
structure Scratched (q q' : TimerQueue) (iter node : Ptr) (c : Option CronEntry) : Prop where
  rest : q' = { q with
    nodes := q'.nodes
    freeCrontabTimers := q'.freeCrontabTimers
    made := q'.made
    timerIds := (q.releaseTimerid (q.freeCrontabTimers.elim (-1) q.ident)).timerIds
    minTimerId := (q.releaseTimerid (q.freeCrontabTimers.elim (-1) q.ident)).minTimerId }
  scratch : Cron q' node ∧ node ≠ iter
  timer : q'.nodes iter = { q.nodes iter with crontabEntry := c }
  others : ∀ z, z ≠ node → z ≠ iter → q'.nodes z = q.nodes z

theorem releaseCongr {q₁ : TimerQueue} {nodes : Ptr → TimerNode} {freed : Option Ptr} {made : Nat} (id : Int)
    (same : q₁ = { q with nodes := nodes, freeCrontabTimers := freed, made := made }) :
    q₁.releaseTimerid id = { q with
      nodes := nodes
      freeCrontabTimers := freed
      made := made
      timerIds := (q.releaseTimerid id).timerIds
      minTimerId := (q.releaseTimerid id).minTimerId } := by
  subst same
  unfold releaseTimerid
  by_cases inside : 0 ≤ id ∧ id < q.timerIdsSize
  · rw [if_pos inside,if_pos inside]
  · rw [if_neg inside,if_neg inside]

theorem filedFreed (h : Filed q heap free crontab freeCrontab) : Seg q.nextOf q.freeCrontabTimers freeCrontab none :=
  h.shape.freeCrontab

/- The scratch node is the only one the free list loses. -/
theorem allocTakes {q₁ : TimerQueue} {node : Ptr} {freeCrontab₁ : List Ptr} (h : Filed q heap free crontab freeCrontab)
    (h₁ : Filed q₁ heap free crontab freeCrontab₁) (alloc : q.allocNode .crontab = (node,q₁))
    (others : ∀ z, z ≠ node → q₁.nodes z = q.nodes z) : freeCrontab ⊆ node :: freeCrontab₁ := by
  have walk := filedFreed h
  cases front : q.freeCrontabTimers with
  | none =>
    rw [front] at walk
    rw [Lib.segNull walk]
    exact List.nil_subset _
  | some p =>
    obtain ⟨f,split,later⟩ := frontOf walk front
    have start : node = p ∧ q₁.freeCrontabTimers = (q.nodes p).next := by
      unfold allocNode at alloc
      rw [front] at alloc
      cases alloc
      exact ⟨rfl,rfl⟩
    have notP : ∀ z ∈ f, z ≠ node := fun z hz same => by
      have nodup := (List.nodup_append.mp (filedApart h)).2.1
      rw [split] at nodup
      exact (List.nodup_cons.mp nodup).1 (start.1 ▸ same ▸ hz)
    have later₁ := (segCongr fun z hz => congrArg TimerNode.next (others z (notP z hz))).2 later
    rw [← start.2] at later₁
    rw [split,segUnique later₁ (filedFreed h₁),start.1]
    exact List.Subset.refl _

/- The timer with the entry c, and the scratch node given back with whatever entry. -/
theorem scratchFiled (h : Filed q heap free crontab freeCrontab) {iter : Ptr} (listed : iter ∈ crontab) :
    ∃ node q₁ freeCrontab₁, q.allocNode .crontab = (node,q₁) ∧ node ≠ iter ∧ q₁.nodes iter = q.nodes iter ∧
      freeCrontab ⊆ node :: freeCrontab₁ ∧ ∀ c d,
        Filed (((q₁.setEntry iter c).setEntry node d).freeNode node) heap free crontab (node :: freeCrontab₁) ∧
          Scratched q (((q₁.setEntry iter c).setEntry node d).freeNode node) iter node c := by
  obtain ⟨node,q₁,f₁,alloc,h₁,cron,off,others,rest,last⟩ := allocFiled h
  have apart : node ≠ iter := fun same => off (List.mem_append_left _ (same ▸ listed))
  have at_ := others iter apart.symm
  refine ⟨node,q₁,f₁,alloc,apart,at_,?_,fun c d => ?_⟩
  · exact allocTakes h h₁ alloc others
  have cronIter := filedCron h₁ iter (List.mem_append_left _ listed)
  obtain ⟨h₂,stays⟩ := filedEntry h₁ cronIter c
  have cron₂ := stays node cron
  obtain ⟨h₃,stays'⟩ := filedEntry h₂ cron₂ d
  have cron₃ := stays' node cron₂
  obtain ⟨q₃,def₃⟩ : ∃ q₃, q₃ = (q₁.setEntry iter c).setEntry node d := ⟨_,rfl⟩
  rw [← def₃] at h₃ cron₃ ⊢
  have freed := freeNodeFreed q₃ node
  refine ⟨filedFree h₃.mixed (filedHeld h₃ off cron₃) cron₃ h₃.range,?_,⟨(freeCron h₃.mixed cron₃).2 node cron₃,apart⟩,
    ?_,fun z notNode notIter => ?_⟩
  · have id : (q₃.nodes node).timerId = q.freeCrontabTimers.elim (-1) q.ident := by
      rw [def₃,setEntrySelf,setEntryOther apart,← last]
      rfl
    have same : q₃ = { q with nodes := q₃.nodes, freeCrontabTimers := q₁.freeCrontabTimers, made := q₁.made } := by
      have step : q₃ = { q₁ with nodes := q₃.nodes } := by
        rw [def₃]
        rfl
      rw [step,rest]
    unfold freeNode
    rw [id,recycleCrontab (by rw [releaseNodes]; exact cron₃.2),releaseCongr _ same]
  · rw [freed.nodes iter apart.symm,def₃,setEntryOther apart.symm,setEntrySelf,at_]
  · rw [freed.nodes z notNode,def₃,setEntryOther notNode,setEntryOther notIter,others z notNode]

theorem setEntryOwn (q : TimerQueue) (p : Ptr) : q.setEntry p (entryOf q p) = q := by
  unfold setEntry setNode entryOf
  rw [Function.update_eq_self]

theorem setEntryComm {z : Ptr} (apart : p ≠ z) (c d : Option CronEntry) :
    (q.setEntry p c).setEntry z d = (q.setEntry z d).setEntry p c := by
  simp only [setEntry,setNode,Function.update_of_ne apart,Function.update_of_ne apart.symm,
    Function.update_comm apart]

/- The id is the first timer's, and parse_cron_entry returns. -/
theorem resetReads (h : Filed q heap free crontab freeCrontab) {id : Int} {entry : Str} {iter : Ptr} {result : Int}
    {e : CronEntry} (range : ¬(id < 0 ∨ q.maxSize ≤ id)) (front : q.crontabTimers = some iter) (same : q.ident iter = id)
    (listed : iter ∈ crontab) (parsed : parseCronEntry entry blankEntry = some (result,e)) :
    ∃ node q' freeCrontab', q.resetCrontab id entry = some (if result = -1 then -1 else 0,q') ∧
      Filed q' heap free crontab (node :: freeCrontab') ∧ freeCrontab ⊆ node :: freeCrontab' ∧
      Scratched q q' iter node (if result = -1 then entryOf q iter else some e) := by
  obtain ⟨node,q₁,f₁,alloc,apart,at_,takes,gives⟩ := scratchFiled h listed
  have self : ¬id ≠ (q.nodes iter).timerId := fun other => other same.symm
  have own : entryOf q₁ iter = entryOf q iter := congrArg TimerNode.crontabEntry at_
  by_cases refused : result = -1
  · have unset : q₁.setEntry iter (entryOf q iter) = q₁ := by
      rw [← own,setEntryOwn]
    obtain ⟨filed,scratched⟩ := gives (entryOf q iter) (some e)
    rw [unset] at filed scratched
    refine ⟨node,_,f₁,?_,filed,takes,?_⟩
    · unfold resetCrontab
      simp only [if_neg range,front,if_neg self,alloc,parsed,bind,Option.bind,if_pos refused]
    · rw [if_pos refused]
      exact scratched
  · obtain ⟨filed,scratched⟩ := gives (some e) (entryOf q iter)
    refine ⟨node,_,f₁,?_,filed,takes,?_⟩
    · have kept : ((q₁.setEntry node (some e)).nodes iter).crontabEntry = entryOf q iter := by
        rw [setEntryOther apart.symm]
        exact own
      have new_ : ((q₁.setEntry node (some e)).nodes node).crontabEntry = some e := by
        rw [setEntrySelf]
      have swapped : ((q₁.setEntry node (some e)).setEntry iter (some e)).setEntry node (entryOf q iter)
          = (q₁.setEntry iter (some e)).setEntry node (entryOf q iter) := by
        rw [setEntryComm apart,setEntryTwice]
      unfold resetCrontab
      simp only [if_neg range,front,if_neg self,alloc,parsed,bind,Option.bind,if_neg refused,kept,new_,swapped]
    · rw [if_neg refused]
      exact scratched

/- To release an id that may be given anyway changes nothing. -/
theorem releaseHarmless {id : Int} (harmless : 0 ≤ id → id < q.timerIdsSize → Available q id) :
    (q.releaseTimerid id).timerIds = q.timerIds ∧ (q.releaseTimerid id).minTimerId = q.minTimerId := by
  unfold releaseTimerid
  split
  · rename_i inside
    obtain ⟨low,_,vacant⟩ := harmless inside.1 inside.2
    refine ⟨?_,min_eq_right low⟩
    rw [← vacant]
    exact Function.update_eq_self id q.timerIds
  · exact ⟨rfl,rfl⟩

theorem releasedAvailable {id : Int} (low : 0 ≤ id) (high : id < q.timerIdsSize) :
    Available (q.releaseTimerid id) id := by
  unfold releaseTimerid
  rw [if_pos ⟨low,high⟩]
  exact ⟨min_le_left _ _,high,Function.update_self _ _ _⟩

theorem freeTimersIs (h : Mixed q heap free) : freeTimers q = free := by
  have nodup := (List.nodup_append.mp h.loose.apart).2.1
  exact walkIs h.loose.walk (shortList nodup fun z hz => h.loose.made z (List.mem_append_right _ hz))

theorem freeCrontabsIs (h : Filed q heap free crontab freeCrontab) : freeCrontabs q = freeCrontab := by
  have nodup := (List.nodup_append.mp (filedApart h)).2.1
  exact walkIs (filedFreed h) (shortList nodup fun z hz => (filedCron h z (List.mem_append_right _ hz)).1)

theorem freeApart (h : Filed q heap free crontab freeCrontab) : ∀ z ∈ freeCrontabs q, z ∉ crontabList q := by
  rw [freeCrontabsIs h,crontabListIs h]
  exact fun z freed listed => (List.nodup_append.mp (filedApart h)).2.2 z listed z freed rfl

theorem untouchedRefl (apart : ∀ z ∈ freeCrontabs q, z ∉ crontabList q) : Untouched q q :=
  ⟨⟨rfl,rfl,fun _ _ => rfl⟩,rfl,fun _ => Iff.rfl,rfl,fun _ hz => hz,apart⟩

/- The call leaves the timers and the ids alone if the id released is one that may be
given. -/
theorem scratchedUntouched (h : Filed q heap free crontab freeCrontab) {iter node : Ptr} {c : Option CronEntry}
    {freeCrontab' : List Ptr} (h' : Filed q' heap free crontab (node :: freeCrontab'))
    (takes : freeCrontab ⊆ node :: freeCrontab') (listed : iter ∈ crontab) (s : Scratched q q' iter node c) :
    Untouched q q' ↔ ∀ p ∈ q.freeCrontabTimers, 0 ≤ q.ident p → q.ident p < q.timerIdsSize → Available q (q.ident p) := by
  have size : q'.timerIdsSize = q.timerIdsSize ∧ q'.currSize = q.currSize ∧ q'.timerHeap = q.timerHeap := by
    rw [s.rest]
    exact ⟨rfl,rfl,rfl⟩
  have ids := congrArg TimerQueue.timerIds s.rest
  have least := congrArg TimerQueue.minTimerId s.rest
  constructor
  · intro untouched p front low high
    rw [Option.mem_def.mp front] at ids least
    obtain ⟨low',high',vacant⟩ := releasedAvailable low high
    refine (untouched.available (q.ident p)).1 ⟨?_,?_,?_⟩
    · exact least.le.trans low'
    · exact high.trans_eq (congrArg Nat.cast size.1.symm)
    · exact (congrFun ids (q.ident p)).trans vacant
  · intro harmless
    have same : q'.timerIds = q.timerIds ∧ q'.minTimerId = q.minTimerId := by
      have released := @releaseHarmless q (q.freeCrontabTimers.elim (-1) q.ident) fun low high => by
        cases front : q.freeCrontabTimers with
        | none =>
          rw [front] at low
          have nonneg : (0 : Int) ≤ -1 := low
          omega
        | some p =>
          rw [front] at low high
          exact harmless p front low high
      exact ⟨ids.trans released.1,least.trans released.2⟩
    have off : node ∉ crontab := fun mem => (List.nodup_append.mp (filedApart h')).2.2 node mem node List.mem_cons_self rfl
    have cronIter := filedCron h iter (List.mem_append_left _ listed)
    refine ⟨⟨timersSame h.mixed size.2.1 size.2.2 fun z hz => ?_,?_,fun d _ => congrFun same.1 d.id⟩,?_,fun k => ?_,?_,?_,
      freeApart h'⟩
    · exact s.others z (heapOff h'.mixed s.scratch.1 z hz) (heapOff h.mixed cronIter z hz)
    · rw [crontabListIs h,crontabListIs h']
      refine List.map_congr_left fun z hz => ?_
      by_cases here : z = iter
      · rw [here]
        simp only [card,ident,s.timer]
      · have notNode : z ≠ node := fun eq => off (eq ▸ hz)
        simp only [card,ident,s.others z notNode here]
    · rw [crontabListIs h,crontabListIs h']
    · unfold Available
      rw [same.1,same.2,size.1]
    · rw [freeTimersIs h.mixed,freeTimersIs h'.mixed]
    · rw [freeCrontabsIs h,freeCrontabsIs h']
      exact takes

end Entries

section Calls
variable {q q' : TimerQueue} {heap free crontab freeCrontab : List Ptr} {id : Int} {entry : Str}

theorem wholeBlank : CronText.WholeEntry blankEntry := ⟨rfl,rfl,rfl,rfl,rfl⟩

theorem resetsOutside (out : id < 0 ∨ q.maxSize ≤ id) (apart : ∀ z ∈ freeCrontabs q, z ∉ crontabList q) :
    Resets q id entry ↔ ResetSound q id entry := by
  have returns : q.resetCrontab id entry = some (-1,q) := if_pos out
  unfold ResetSound
  rw [if_pos out]
  constructor
  · rintro ⟨result,q',gives,_,either⟩
    cases Option.some.inj (returns.symm.trans gives)
    rcases either with ⟨zero,_⟩ | ⟨_,not_,_⟩
    · cases zero
    · exact not_
  · intro not_
    exact ⟨-1,q,returns,untouchedRefl apart,.inr ⟨rfl,not_,fun _ _ => rfl⟩⟩

/- Without a crontab timer the call returns 0. -/
theorem resetsEmpty (empty : q.crontabTimers = none) : Resets q id entry ↔ ResetSound q id entry := by
  have list : crontabList q = [] := by
    rw [crontabList,empty]
    rfl
  have apart : ∀ z ∈ freeCrontabs q, z ∉ crontabList q := fun z _ => by
    rw [list]
    exact List.not_mem_nil
  by_cases out : id < 0 ∨ q.maxSize ≤ id
  · exact resetsOutside out apart
  · have returns : q.resetCrontab id entry = some (0,q) := by
      unfold resetCrontab
      rw [if_neg out,empty]
    unfold ResetSound
    rw [if_neg out]
    refine iff_of_false ?_ fun sound => ?_
    · rintro ⟨result,q',gives,_,either⟩
      cases Option.some.inj (returns.symm.trans gives)
      rcases either with ⟨_,p,listed,_⟩ | ⟨negative,_⟩
      · rw [list] at listed
        exact absurd listed List.not_mem_nil
      · cases negative
    · obtain ⟨⟨p,front,_⟩,_⟩ := sound
      rw [empty] at front
      cases front

/- What the call has done to the entries of the listed timers. -/
theorem scratchedEntries {iter node : Ptr} {c : Option CronEntry} (s : Scratched q q' iter node c)
    (off : node ∉ crontabList q) : entryOf q' iter = c ∧ ∀ z ∈ crontabList q, z ≠ iter → entryOf q' z = entryOf q z :=
  ⟨congrArg TimerNode.crontabEntry s.timer,fun z hz other =>
    congrArg TimerNode.crontabEntry (s.others z (fun same => off (same ▸ hz)) other)⟩

theorem resetsFiled (h : Filed q heap free crontab freeCrontab) : Resets q id entry ↔ ResetSound q id entry := by
  by_cases out : id < 0 ∨ q.maxSize ≤ id
  · exact resetsOutside out (freeApart h)
  cases front : q.crontabTimers with
  | none => exact resetsEmpty front
  | some iter =>
    have list := crontabListIs h
    have listed : iter ∈ crontab := by
      obtain ⟨rest,split,_⟩ := frontOf (filedWalk h).forth front
      rw [split]
      exact List.mem_cons_self
    have sound : ResetSound q id entry ↔ q.ident iter = id ∧ parseCronEntry entry blankEntry ≠ none ∧
        ∀ p ∈ q.freeCrontabTimers, 0 ≤ q.ident p → q.ident p < q.timerIdsSize → Available q (q.ident p) := by
      unfold ResetSound
      rw [if_neg out,front]
      simp
    have stuck : ∀ {P : Prop}, ¬P → q.resetCrontab id entry = none → (Resets q id entry ↔ P) := by
      intro P not_ never
      refine iff_of_false ?_ not_
      rintro ⟨_,_,gives,_⟩
      rw [never] at gives
      cases gives
    rw [sound]
    by_cases same : q.ident iter = id
    · cases parsed : parseCronEntry entry blankEntry with
      | none =>
        refine stuck (fun both => both.2.1 rfl) ?_
        have self : ¬id ≠ (q.nodes iter).timerId := fun other => other same.symm
        unfold resetCrontab
        simp only [if_neg out,front,if_neg self,parsed,bind,Option.bind]
      | some r =>
        obtain ⟨result,e⟩ := r
        obtain ⟨node,q',f',returns,h',takes,s⟩ := resetReads h out front same listed parsed
        have untouched := scratchedUntouched h h' takes listed s
        have off : node ∉ crontabList q := by
          rw [list]
          exact fun mem => (List.nodup_append.mp (filedApart h')).2.2 node mem node List.mem_cons_self rfl
        obtain ⟨entry_,entries⟩ := scratchedEntries s off
        rw [← untouched]
        constructor
        · rintro ⟨_,_,gives,untouched_,_⟩
          cases Option.some.inj (returns.symm.trans gives)
          exact ⟨same,Option.some_ne_none _,untouched_⟩
        · rintro ⟨_,_,untouched_⟩
          refine ⟨_,q',returns,untouched_,?_⟩
          rcases CronText.parseAnswers wholeBlank parsed with zero | negative
          · subst zero
            exact .inl ⟨rfl,iter,list ▸ listed,same,⟨e,parsed,entry_⟩,entries⟩
          · subst negative
            refine .inr ⟨rfl,?_,fun z hz => ?_⟩
            · rintro ⟨_,e',parses⟩
              cases Option.some.inj (parsed.symm.trans parses)
            · by_cases here : z = iter
              · rw [here]
                exact entry_
              · exact entries z hz here
    · refine stuck (fun both => same both.1) ?_
      unfold resetCrontab
      simp only [if_neg out,front]
      exact if_pos fun self => same self.symm

/- Whatever it returns, the lists stay those of before. -/
theorem resetFiled (h : Filed q heap free crontab freeCrontab) {r : Int × TimerQueue}
    (runs : q.resetCrontab id entry = some r) : ∃ freeCrontab', Filed r.2 heap free crontab freeCrontab' := by
  by_cases out : id < 0 ∨ q.maxSize ≤ id
  · unfold resetCrontab at runs
    rw [if_pos out] at runs
    cases Option.some.inj runs
    exact ⟨freeCrontab,h⟩
  cases front : q.crontabTimers with
  | none =>
    unfold resetCrontab at runs
    rw [if_neg out,front] at runs
    cases Option.some.inj runs
    exact ⟨freeCrontab,h⟩
  | some iter =>
    by_cases same : q.ident iter = id
    · cases parsed : parseCronEntry entry blankEntry with
      | none =>
        have self : ¬id ≠ (q.nodes iter).timerId := fun other => other same.symm
        unfold resetCrontab at runs
        simp only [if_neg out,front,if_neg self,parsed,bind,Option.bind] at runs
        cases runs
      | some p =>
        obtain ⟨rest,split,_⟩ := frontOf (filedWalk h).forth front
        obtain ⟨node,q',f',returns,h',_⟩ :=
          resetReads h out front same (by rw [split]; exact List.mem_cons_self) parsed
        cases Option.some.inj (returns.symm.trans runs)
        exact ⟨_,h'⟩
    · have other : id ≠ (q.nodes iter).timerId := fun self => same self.symm
      unfold resetCrontab at runs
      simp only [if_neg out,front,if_pos other] at runs
      cases runs

theorem resetIdle (empty : q.crontabTimers = none) {r : Int × TimerQueue} (runs : q.resetCrontab id entry = some r) :
    r.2 = q := by
  unfold resetCrontab at runs
  rw [empty] at runs
  split at runs <;> cases Option.some.inj runs <;> rfl

theorem reachedFilable {maxSize : Int} {preAlloc : Nat} {ops : List Op} (two : 2 ≤ preAlloc)
    (inside : Along apply Inside (make maxSize preAlloc) ops) (reached : run apply (make maxSize preAlloc) ops = some q) :
    Filable q := by
  obtain ⟨heap,free,start⟩ := startFiled maxSize two
  have always : Always apply Filable (make maxSize preAlloc) ops := by
    refine alwaysOfInvariant (fun s op t h ok runs => ?_) ⟨_,_,_,_,start⟩ inside
    obtain ⟨_,_,_,_,filed⟩ := h
    cases op with
    | other op =>
      obtain ⟨_,_,_,_,filed',_⟩ := applyFiled filed ok runs
      exact ⟨_,_,_,_,filed'⟩
    | resetCrontab id entry =>
      obtain ⟨r,ran,rfl⟩ := Option.map_eq_some_iff.1 runs
      obtain ⟨_,filed'⟩ := resetFiled filed ran
      exact ⟨_,_,_,_,filed'⟩
  exact alwaysAtEnd always reached

theorem reachedEmpty {maxSize : Int} {preAlloc : Nat} {ops : List Op} (few : ¬2 ≤ preAlloc)
    (reached : run apply (make maxSize preAlloc) ops = some q) : Empty q := by
  have start : Empty (make maxSize preAlloc) :=
    ⟨rfl,Nat.le_of_lt_succ (Nat.lt_of_not_le few),fun _ => rfl,le_rfl,rfl⟩
  have keeps : ∀ s op t, Empty s → apply s op = some t → Empty t := by
    intro s op t h runs
    cases op with
    | other op => exact emptyApply h op runs
    | resetCrontab id entry =>
      obtain ⟨r,ran,rfl⟩ := Option.map_eq_some_iff.1 runs
      rw [resetIdle h.crontab ran]
      exact h
  exact alwaysAtEnd (Lib.alwaysInvariant keeps start ops) reached

/- Without a condition on the cancels, the nodes of crontab timers are still apart. -/
theorem resetMixed (h : Mixed q heap free) {r : Int × TimerQueue} (runs : q.resetCrontab id entry = some r) :
    Mixed r.2 heap free := by
  unfold resetCrontab at runs
  split at runs
  · cases Option.some.inj runs
    exact h
  split at runs
  · cases Option.some.inj runs
    exact h
  · rename_i iter front
    split at runs
    · cases runs
    obtain ⟨node,q₁,alloc,h₁,cron,stays,_⟩ := allocCronMixed h
    have cronIter := stays iter (h.first iter front)
    simp only [alloc] at runs
    obtain ⟨⟨result,e⟩,_,runs⟩ := Option.bind_eq_some_iff.1 runs
    obtain ⟨h₂,stays₂⟩ := mixedEntry h₁ cron (some e)
    split at runs
    · cases Option.some.inj runs
      exact (freeCron h₂ (stays₂ node cron)).1
    · cases Option.some.inj runs
      obtain ⟨h₃,stays₃⟩ := mixedEntry h₂ (stays₂ iter cronIter) ((q₁.setEntry node (some e)).nodes node).crontabEntry
      have cron₃ := stays₃ node (stays₂ node cron)
      obtain ⟨h₄,stays₄⟩ := mixedEntry h₃ cron₃ ((q₁.setEntry node (some e)).nodes iter).crontabEntry
      exact (freeCron h₄ (stays₄ node cron₃)).1

theorem applyKept (op : Op) (h : Kept q) (runs : apply q op = some q') : Kept q' := by
  cases op with
  | other op => exact applyKeeps op h runs
  | resetCrontab id entry =>
    obtain ⟨heap,free,h⟩ := h
    obtain ⟨r,ran,rfl⟩ := Option.map_eq_some_iff.1 runs
    exact ⟨heap,free,resetMixed h ran⟩

theorem runKept {ops : List Op} (h : Kept q) (runs : run apply q ops = some q') : Kept q' :=
  alwaysAtEnd (Lib.alwaysInvariant (fun _ op _ h runs => applyKept op h runs) h ops) runs

end Calls

def everyMinute (n : Nat) : Op := .other (.crontab (some (.user n)) 0 (.parsed TimerIds.everyMinute) (.set 60 0) 0)

end TimerReset
end CuteNdk
