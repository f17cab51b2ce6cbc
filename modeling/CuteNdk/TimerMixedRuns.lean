import CuteNdk.TimerMixed
import CuteNdk.TimerIdRuns

/-! Runs of a timer_queue with timers of both kinds, whatever the calls. Wherever
they lead, schedule_i succeeds just when alloc_timerid finds an id, which is not
the same as there being room. -/
namespace CuteNdk.TimerMixed
open TimerQueue
open TimerDrain (timers)
open TimerIds (crontabList)
open Lib (run Always alwaysAtEnd)

/- dispatch is dispatch_timer alone: a handler's own calls on the queue come between
it and the cancel its return value may bring. -/
inductive Op where
  | schedule (eh : Option Handler) (arg : Arg) (deadline interval : TimeValue)
  | crontab (eh : Option Handler) (arg : Arg) (entry : Entry) (now : TimeValue) (sec : Int)
  | cancel (id : Int) (dontCall : Bool)
  | cancelHandler (eh : Option Handler) (dontCall : Bool)
  | resetInterval (id : Int) (interval : TimeValue)
  | expire (current : TimeValue) (ret : Int)
  | dispatch (current : TimeValue)
  deriving DecidableEq, Repr

/- A call that runs into undefined behaviour leads to no queue. -/
def apply (q : TimerQueue) : Op → Option TimerQueue
  | .schedule eh arg deadline interval => (q.scheduleI eh arg deadline interval).map fun r => r.2
  | .crontab eh arg entry now sec => (q.crontab eh arg entry now sec).map fun r => r.2
  | .cancel id dontCall => (q.cancel id dontCall).map fun r => r.2.2
  | .cancelHandler eh dontCall => (q.cancelHandler eh dontCall).map fun r => r.2
  | .resetInterval id interval => (q.resetInterval id interval).map fun r => r.2
  | .expire current ret => (q.expire current ret).map fun r => r.2
  | .dispatch current => if q.currSize = 0 then some q else (q.dispatchTimer current).map fun r => r.2

/- The calls on crontab timers. They write nodes of crontab timers only. -/
section Crontabs
variable {q q' : TimerQueue} {heap free : List Ptr} {p : Ptr}

theorem cronOff (h : Mixed q heap free) (cron : Cron q p) : p ∉ heap ++ free := fun mem => by
  rcases List.mem_append.1 mem with onHeap | inFree
  · exact generalNot (heapType h onHeap) cron
  · exact generalNot (h.plain p inFree) cron

theorem mixedSet (h : Mixed q heap free) (cron : Cron q p) {n : TimerNode} (type : n.type = .crontab)
    (next : ∀ z ∈ n.next, Cron q z) (prev : ∀ z ∈ n.prev, Cron q z) :
    Mixed (q.setNode p n) heap free ∧ ∀ z, Cron q z → Cron (q.setNode p n) z := by
  have off := cronOff h cron
  have others : ∀ z, z ≠ p → (q.setNode p n).nodes z = q.nodes z := fun z other => Function.update_of_ne other _ _
  have here : (q.setNode p n).nodes p = n := Function.update_self _ _ _
  have stays : ∀ z, Cron q z → Cron (q.setNode p n) z := fun z is => by
    refine ⟨is.1,?_⟩
    by_cases same : z = p
    · subst z
      rw [here]
      exact type
    · rw [others z same]
      exact is.2
  refine ⟨⟨looseNode h.loose rfl h.loose.low off others h.loose.walk h.loose.apart h.loose.made,fun z hz => ?_,
    fun z hz => stays z (h.first z hz),fun z hz => stays z (h.freed z hz),fun z is => ?_⟩,stays⟩
  · rw [others z fun eq => off (List.mem_append_right _ (eq ▸ hz))]
    exact h.plain z hz
  · by_cases same : z = p
    · subst z
      rw [here]
      exact ⟨fun y hy => stays y (next y hy),fun y hy => stays y (prev y hy)⟩
    · have before : Cron q z := ⟨is.1,(others z same) ▸ is.2⟩
      rw [others z same]
      exact ⟨fun y hy => stays y ((h.links z before).1 y hy),fun y hy => stays y ((h.links z before).2 y hy)⟩

theorem mixedHeads (h : Mixed q heap free) {c f : Option Ptr} (first : ∀ z ∈ c, Cron q z) (freed : ∀ z ∈ f, Cron q z) :
    Mixed { q with crontabTimers := c, freeCrontabTimers := f } heap free :=
  ⟨h.loose,h.plain,first,freed,h.links⟩

theorem mixedRelease (h : Mixed q heap free) (id : Int) :
    Mixed (q.releaseTimerid id) heap free ∧ ∀ z, Cron q z → Cron (q.releaseTimerid id) z := by
  have loose : Loose (general (q.releaseTimerid id)) heap free fun _ => False := by
    rw [generalRelease]
    exact looseMono (looseRelease h.loose fun is => is.elim) fun k both => both.1
  have rest : q.releaseTimerid id = { q with
      timerIds := (q.releaseTimerid id).timerIds
      minTimerId := (q.releaseTimerid id).minTimerId } := by
    unfold releaseTimerid
    split <;> rfl
  have crons : ∀ z, Cron (q.releaseTimerid id) z ↔ Cron q z := by
    intro z
    rw [rest]
    exact Iff.rfl
  refine ⟨⟨loose,?_,?_,?_,?_⟩,fun z => (crons z).2⟩
  · rw [rest]
    exact h.plain
  · intro z hz
    rw [rest] at hz
    exact (crons z).2 (h.first z hz)
  · intro z hz
    rw [rest] at hz
    exact (crons z).2 (h.freed z hz)
  · intro z cron
    have before := (crons z).1 cron
    rw [releaseNodes]
    exact ⟨fun y hy => (crons y).2 ((h.links z before).1 y hy),fun y hy => (crons y).2 ((h.links z before).2 y hy)⟩

theorem freeCron (h : Mixed q heap free) (cron : Cron q p) :
    Mixed (q.freeNode p) heap free ∧ ∀ z, Cron q z → Cron (q.freeNode p) z := by
  obtain ⟨mixed,stays⟩ := mixedRelease h (q.nodes p).timerId
  have cron₁ := stays p cron
  obtain ⟨set,stays'⟩ := mixedSet mixed cron₁ (n := { (q.releaseTimerid (q.nodes p).timerId).nodes p with
    crontabEntry := none, next := (q.releaseTimerid (q.nodes p).timerId).freeCrontabTimers }) cron₁.2
    (fun z hz => mixed.freed z hz) fun z hz => (mixed.links p cron₁).2 z hz
  unfold freeNode
  rw [recycleCrontab cron₁.2]
  refine ⟨mixedHeads set set.first fun z hz => ?_,fun z is => stays' z (stays z is)⟩
  cases Option.some.inj hz
  exact stays' p cron₁

theorem mixedLinks (h : Mixed q heap free) (cron : Cron q p) (prev next : Option Ptr) (before : ∀ z ∈ prev, Cron q z)
    (after : ∀ z ∈ next, Cron q z) : Mixed (q.setNode p { q.nodes p with prev := prev, next := next }) heap free ∧
      ∀ z, Cron q z → Cron (q.setNode p { q.nodes p with prev := prev, next := next }) z :=
  mixedSet h cron cron.2 after before

theorem mixedNext (h : Mixed q heap free) (cron : Cron q p) (next : Option Ptr) (after : ∀ z ∈ next, Cron q z) :
    Mixed (q.setNode p { q.nodes p with next := next }) heap free ∧
      ∀ z, Cron q z → Cron (q.setNode p { q.nodes p with next := next }) z :=
  mixedSet h cron cron.2 after (h.links p cron).2

theorem mixedPrev (h : Mixed q heap free) (cron : Cron q p) (prev : Option Ptr) (before : ∀ z ∈ prev, Cron q z) :
    Mixed (q.setNode p { q.nodes p with prev := prev }) heap free ∧
      ∀ z, Cron q z → Cron (q.setNode p { q.nodes p with prev := prev }) z :=
  mixedSet h cron cron.2 (h.links p cron).1 before

theorem unlinkKeeps (h : Mixed q heap free) (cron : Cron q p) (runs : q.unlinkCrontab p = some q') :
    Mixed q' heap free ∧ ∀ z, Cron q z → Cron q' z := by
  have links := h.links p cron
  unfold unlinkCrontab at runs
  split at runs
  · cases Option.some.inj runs
    exact ⟨h,fun _ is => is⟩
  · simp only at runs
    split at runs
    case h_1 b c before after =>
      have cronB := links.2 b before
      have cronC := links.1 c after
      obtain ⟨h₁,stays₁⟩ := mixedPrev h cronC (some b) fun z hz => Option.some.inj hz ▸ cronB
      obtain ⟨h₂,stays₂⟩ := mixedNext h₁ (stays₁ b cronB) (some c) fun z hz => Option.some.inj hz ▸ stays₁ c cronC
      obtain ⟨h₃,stays₃⟩ := mixedLinks h₂ (stays₂ p (stays₁ p cron)) none none nofun nofun
      cases Option.some.inj runs
      exact ⟨h₃,fun z is => stays₃ z (stays₂ z (stays₁ z is))⟩
    case h_2 c before after =>
      have cronC := links.1 c after
      obtain ⟨h₁,stays₁⟩ := mixedPrev h cronC none nofun
      have h₂ := mixedHeads h₁ (h₁.links p (stays₁ p cron)).1 h₁.freed
      obtain ⟨h₃,stays₃⟩ := mixedLinks h₂ (stays₁ p cron) none none nofun nofun
      cases Option.some.inj runs
      exact ⟨h₃,fun z is => stays₃ z (stays₁ z is)⟩
    case h_3 => cases runs
    case h_4 b before after =>
      have cronB := links.2 b before
      obtain ⟨h₁,stays₁⟩ := mixedNext h cronB none nofun
      have h₂ := mixedHeads h₁ (h₁.links p (stays₁ p cron)).1 h₁.freed
      obtain ⟨h₃,stays₃⟩ := mixedLinks h₂ (stays₁ p cron) none none nofun nofun
      cases Option.some.inj runs
      exact ⟨h₃,fun z is => stays₃ z (stays₁ z is)⟩

/- The walk along the crontab list meets nodes of crontab timers. -/
theorem findIsCron (h : Mixed q heap free) {id : Int} {fuel : Nat} {start : Option Ptr} {found : Ptr}
    (cron : ∀ z ∈ start, Cron q z) (runs : q.findCrontab id fuel start = some (some found)) : Cron q found := by
  induction fuel generalizing start with
  | zero => cases runs
  | succ fuel ih =>
    cases start with
    | none => cases runs
    | some z =>
      simp only [findCrontab] at runs
      split at runs
      · cases Option.some.inj (Option.some.inj runs)
        exact cron _ rfl
      · exact ih (h.links z (cron z rfl)).1 runs

theorem cancelCrontabKeeps (h : Mixed q heap free) (cron : Cron q p) {dontCall : Bool}
    {r : Int × Option Arg × TimerQueue} (runs : q.cancelCrontab p dontCall = some r) : Mixed r.2.2 heap free := by
  obtain ⟨c,called⟩ := toldCalls q (q.nodes p).handler dontCall
  unfold cancelCrontab at runs
  simp only [called] at runs
  obtain ⟨q₁,unlinked,same⟩ := Option.map_eq_some_iff.1 runs
  cases same
  have h₀ := mixedCalls h c
  obtain ⟨h₁,stays⟩ := unlinkKeeps h₀ cron unlinked
  exact (freeCron h₁ (stays p cron)).1

theorem cancelKeeps (h : Mixed q heap free) {id : Int} {dontCall : Bool} {r : Int × Option Arg × TimerQueue}
    (runs : q.cancel id dontCall = some r) : Kept r.2.2 := by
  unfold cancel at runs
  split at runs
  · cases Option.some.inj runs
    exact ⟨heap,free,h⟩
  · obtain ⟨found,walks,runs⟩ := Option.bind_eq_some_iff.1 runs
    cases found with
    | none => exact (cancelGeneralKeeps h runs).1
    | some p => exact ⟨heap,free,cancelCrontabKeeps h (findIsCron h h.first walks) runs⟩

theorem cancelCrontabsKeeps {eh : Handler} {fuel : Nat} {start : Option Ptr} {count : Int} (h : Mixed q heap free)
    (cron : ∀ z ∈ start, Cron q z) {r : Int × TimerQueue} (runs : cancelCrontabs eh fuel q start count = some r) :
    Mixed r.2 heap free := by
  induction fuel generalizing q start count with
  | zero => cases runs
  | succ fuel ih =>
    cases start with
    | none =>
      cases Option.some.inj runs
      exact h
    | some p =>
      have is := cron p rfl
      simp only [cancelCrontabs] at runs
      split at runs
      · obtain ⟨q₁,unlinked,runs⟩ := Option.bind_eq_some_iff.1 runs
        obtain ⟨h₁,stays₁⟩ := unlinkKeeps h is unlinked
        obtain ⟨h₂,stays₂⟩ := freeCron h₁ (stays₁ p is)
        exact ih h₂ (fun z hz => stays₂ z (stays₁ z ((h.links p is).1 z hz))) runs
      · exact ih h (h.links p is).1 runs

theorem cancelHandlerKeeps (h : Mixed q heap free) {eh : Option Handler} {dontCall : Bool}
    {r : Int × TimerQueue} (runs : q.cancelHandler eh dontCall = some r) : Kept r.2 := by
  cases eh with
  | none =>
    cases Option.some.inj runs
    exact ⟨heap,free,h⟩
  | some eh =>
    obtain ⟨⟨count,q₁⟩,crontabs,runs⟩ := Option.bind_eq_some_iff.1 runs
    obtain ⟨⟨count',q₂⟩,generals,runs⟩ := Option.bind_eq_some_iff.1 runs
    have h₁ := cancelCrontabsKeeps h h.first crontabs
    obtain ⟨heap₂,free₂,h₂⟩ := (cancelGeneralsKeeps h₁ generals).1
    cases Option.some.inj runs
    cases dontCall with
    | true => exact ⟨heap₂,free₂,h₂⟩
    | false => exact ⟨heap₂,free₂,mixedCalls h₂ _⟩

/- The node crontab gets: one of a crontab timer. -/
theorem allocCronMixed (h : Mixed q heap free) : ∃ p q₁, q.allocNode .crontab = (p,q₁) ∧ Mixed q₁ heap free ∧
    Cron q₁ p ∧ (∀ z, Cron q z → Cron q₁ z) ∧ q₁ = { q with
      nodes := q₁.nodes
      freeCrontabTimers := q₁.freeCrontabTimers
      made := q₁.made } ∧ (∀ z, z ≠ p → q₁.nodes z = q.nodes z) ∧
    q₁.ident p = q.freeCrontabTimers.elim (-1) q.ident := by
  unfold allocNode
  cases front : q.freeCrontabTimers with
  | none =>
    have off : q.made ∉ heap ++ free := fun mem => Nat.lt_irrefl _ (h.loose.made _ mem)
    obtain ⟨q₁,def₁⟩ : ∃ q₁, q₁ = { q.setNode q.made { newNode with type := .crontab } with made := q.made + 1 } :=
      ⟨_,rfl⟩
    have here : q₁.nodes q.made = { newNode with type := .crontab } := by
      rw [def₁]
      exact Function.update_self _ _ _
    have others : ∀ z, z ≠ q.made → q₁.nodes z = q.nodes z := fun z other => by
      rw [def₁]
      exact Function.update_of_ne other _ _
    have made : q₁.made = q.made + 1 := by
      rw [def₁]
    have rest : q₁ = { q with
        nodes := q₁.nodes, freeCrontabTimers := q₁.freeCrontabTimers, made := q₁.made } := by
      rw [def₁]
      rfl
    have stays : ∀ z, Cron q z → Cron q₁ z := fun z is => by
      refine ⟨?_,?_⟩
      · rw [made]
        exact Nat.lt_succ_of_lt is.1
      · rw [others z (Nat.ne_of_lt is.1)]
        exact is.2
    have heads : q₁.crontabTimers = q.crontabTimers ∧ q₁.freeCrontabTimers = q.freeCrontabTimers := by
      rw [def₁]
      exact ⟨rfl,rfl⟩
    refine ⟨q.made,q₁,by rw [def₁],⟨looseNode h.loose (p := q.made) (by rw [rest]) ?_ off others ?_ h.loose.apart
      fun z hz => ?_,fun z hz => ?_,?_,?_,fun z is => ?_⟩,⟨?_,by rw [here]⟩,stays,rest,others,?_⟩
    · rw [rest]
      exact h.loose.low
    · rw [rest]
      exact h.loose.walk
    · rw [made]
      exact Nat.lt_succ_of_lt (h.loose.made z hz)
    · rw [others z fun eq => off (List.mem_append_right _ (eq ▸ hz))]
      exact h.plain z hz
    · rw [heads.1]
      exact fun z hz => stays z (h.first z hz)
    · rw [heads.2]
      exact fun z hz => stays z (h.freed z hz)
    · by_cases same : z = q.made
      · subst z
        rw [here]
        exact ⟨fun y hy => absurd hy (Option.not_mem_none y),fun y hy => absurd hy (Option.not_mem_none y)⟩
      · have before : Cron q z :=
          ⟨Nat.lt_of_le_of_ne (Nat.le_of_lt_succ (is.1.trans_eq made)) same,others z same ▸ is.2⟩
        rw [others z same]
        exact ⟨fun y hy => stays y ((h.links z before).1 y hy),fun y hy => stays y ((h.links z before).2 y hy)⟩
    · rw [made]
      exact Nat.lt_succ_self _
    · simp only [ident,here]
      rfl
  | some p =>
    have cron := h.freed p front
    obtain ⟨set,stays⟩ := mixedSet h cron (n := { q.nodes p with next := none, type := .crontab }) rfl
      (fun y hy => absurd hy (Option.not_mem_none y)) (h.links p cron).2
    refine ⟨p,_,rfl,mixedHeads set set.first fun z hz => stays z ((h.links p cron).1 z hz),stays p cron,stays,rfl,
      fun z other => Function.update_of_ne other _ _,?_⟩
    simp only [ident,setNode,Function.update_self]
    rfl

theorem insertCrontabKeeps (h : Mixed q heap free) (cron : Cron q p) :
    Mixed (q.insertCrontab p) heap free ∧ ∀ z, Cron q z → Cron (q.insertCrontab p) z := by
  unfold insertCrontab
  cases front : q.crontabTimers with
  | none =>
    obtain ⟨set,stays⟩ := mixedLinks h cron none none nofun nofun
    exact ⟨mixedHeads set (fun z hz => Option.some.inj hz ▸ stays p cron) set.freed,stays⟩
  | some head =>
    have cronHead := h.first head front
    obtain ⟨h₁,stays₁⟩ := mixedPrev h cron none nofun
    obtain ⟨h₂,stays₂⟩ := mixedPrev h₁ (stays₁ head cronHead) (some p) fun z hz =>
      Option.some.inj hz ▸ stays₁ p cron
    have stays := fun z is => stays₂ z (stays₁ z is)
    obtain ⟨h₃,stays₃⟩ := mixedNext h₂ (stays p cron) (some head) fun z hz =>
      Option.some.inj hz ▸ stays head cronHead
    exact ⟨mixedHeads h₃ (fun z hz => Option.some.inj hz ▸ stays₃ p (stays p cron)) h₃.freed,
      fun z is => stays₃ z (stays z is)⟩

theorem registerKeeps (h : Mixed q heap free) {eh : Handler} {arg : Arg} {entry : Entry} {now : TimeValue}
    {r : Int × TimerQueue} (runs : q.registerCrontab eh arg entry now = some r) : Mixed r.2 heap free := by
  obtain ⟨p,q₁,alloc,h₁,cron,_,_,_,_⟩ := allocCronMixed h
  unfold registerCrontab at runs
  simp only [alloc] at runs
  cases got : q₁.freeId with
  | none =>
    simp only [allocTimeridRefuses got] at runs
    cases Option.some.inj runs
    exact (freeCron h₁ cron).1
  | some k =>
    have low : 0 ≤ q₁.minTimerId := h₁.loose.low
    have given : k ≠ -1 := by
      have least := (firstFreeSound got).1
      omega
    have next : Mixed { q₁ with minTimerId := q₁.minTimerId + 1 } heap free :=
      ⟨looseCongr h₁.loose rfl (Int.le_add_one low) (fun _ _ => rfl) h₁.loose.walk h₁.loose.apart h₁.loose.made,
        h₁.plain,h₁.first,h₁.freed,h₁.links⟩
    simp only [allocTimeridGives got] at runs
    have filled : ∀ n : TimerNode, n.type = .crontab → n.next = none → n.prev = none →
        Mixed (setNode { q₁ with minTimerId := q₁.minTimerId + 1 } p n) heap free ∧
          Cron (setNode { q₁ with minTimerId := q₁.minTimerId + 1 } p n) p := by
      intro n type after before
      obtain ⟨set,stays⟩ := mixedSet next cron type (by rw [after]; exact nofun) (by rw [before]; exact nofun)
      exact ⟨set,stays p cron⟩
    cases entry with
    | parsed e =>
      simp only at runs
      obtain ⟨q₂,inserted,same⟩ := Option.map_eq_some_iff.1 runs
      cases same
      obtain ⟨set,cron₂⟩ := filled { (q₁.nodes p) with
        timerId := k, handler := some eh, arg := arg, timerValue := now, interval := now, prev := none,
        next := none } cron.2 rfl rfl
      obtain ⟨set',stays'⟩ := mixedSet set cron₂ (n := { (setNode { q₁ with minTimerId := q₁.minTimerId + 1 } p
        { (q₁.nodes p) with
          timerId := k, handler := some eh, arg := arg, timerValue := now, interval := now, prev := none,
          next := none }).nodes p with crontabEntry := some e, type := .crontab }) rfl
        (set.links p cron₂).1 (set.links p cron₂).2
      have typed := (stays' p cron₂).2
      unfold TimerQueue.insert at inserted
      rw [typed] at inserted
      cases Option.some.inj inserted
      exact (insertCrontabKeeps set' (stays' p cron₂)).1
    | null =>
      simp only at runs
      cases Option.some.inj runs
      obtain ⟨set,cron₂⟩ := filled { (q₁.nodes p) with
        timerId := k, handler := some eh, arg := arg, timerValue := now, interval := now, prev := none,
        next := none } cron.2 rfl rfl
      exact (freeCron set cron₂).1
    | malformed =>
      simp only at runs
      cases Option.some.inj runs
      obtain ⟨set,cron₂⟩ := filled { (q₁.nodes p) with
        timerId := k, handler := some eh, arg := arg, timerValue := now, interval := now, prev := none,
        next := none } cron.2 rfl rfl
      exact (freeCron set cron₂).1

/- crontab sees to the driver first, and goes on when that gives 0. -/
theorem crontabCases {eh : Option Handler} {arg : Arg} {entry : Entry} {now : TimeValue} {sec : Int}
    {r : Int × TimerQueue} (runs : q.crontab eh arg entry now sec = some r) :
    r = (-1,q) ∨ ∃ h result q₁, eh = some h ∧ q.startDriver now sec = some (result,q₁) ∧
      (r = (-1,q₁) ∨ q₁.registerCrontab h arg entry now = some r) := by
  unfold crontab at runs
  split at runs
  · exact Or.inl (Option.some.inj runs).symm
  · exact Or.inl (Option.some.inj runs).symm
  · rename_i h _
    obtain ⟨⟨result,q₁⟩,started,runs⟩ := Option.bind_eq_some_iff.1 runs
    refine Or.inr ⟨h,result,q₁,rfl,started,?_⟩
    simp only at runs
    split at runs
    · exact Or.inl (Option.some.inj runs).symm
    · exact Or.inr runs

theorem crontabKeeps (h : Mixed q heap free) {eh : Option Handler} {arg : Arg} {entry : Entry} {now : TimeValue}
    {sec : Int} {r : Int × TimerQueue} (runs : q.crontab eh arg entry now sec = some r) : Kept r.2 := by
  rcases crontabCases runs with rfl | ⟨h',result,q₁,_,started,ends⟩
  · exact ⟨heap,free,h⟩
  · obtain ⟨heap₁,free₁,h₁⟩ : Kept q₁ := by
      unfold startDriver at started
      split at started
      · exact (scheduleKeeps h started).1
      · cases Option.some.inj started
        exact ⟨heap,free,h⟩
    rcases ends with rfl | registers
    · exact ⟨heap₁,free₁,h₁⟩
    · exact ⟨heap₁,free₁,registerKeeps h₁ registers⟩

theorem expireKeeps (h : Mixed q heap free) {current : TimeValue} {ret : Int} {r : Int × TimerQueue}
    (runs : q.expire current ret = some r) : Kept r.2 := by
  cases expires runs with
  | empty => exact ⟨heap,free,h⟩
  | late some_ dispatched => exact (dispatchKeeps h (Nat.pos_of_ne_zero some_) dispatched).1
  | told some_ dispatched c =>
    obtain ⟨heap₁,free₁,h₁⟩ := (dispatchKeeps h (Nat.pos_of_ne_zero some_) dispatched).1
    exact ⟨heap₁,free₁,mixedCalls h₁ c⟩
  | cancelled some_ dispatched c _ _ cancelled =>
    obtain ⟨heap₁,free₁,h₁⟩ := (dispatchKeeps h (Nat.pos_of_ne_zero some_) dispatched).1
    exact cancelKeeps (mixedCalls h₁ c) cancelled

theorem applyKeeps (op : Op) (h : Kept q) (runs : apply q op = some q') : Kept q' := by
  obtain ⟨heap,free,h⟩ := h
  cases op with
  | schedule eh arg deadline interval =>
    obtain ⟨r,ran,rfl⟩ := Option.map_eq_some_iff.1 runs
    exact (scheduleKeeps h ran).1
  | crontab eh arg entry now sec =>
    obtain ⟨r,ran,rfl⟩ := Option.map_eq_some_iff.1 runs
    exact crontabKeeps h ran
  | cancel id dontCall =>
    obtain ⟨r,ran,rfl⟩ := Option.map_eq_some_iff.1 runs
    exact cancelKeeps h ran
  | cancelHandler eh dontCall =>
    obtain ⟨r,ran,rfl⟩ := Option.map_eq_some_iff.1 runs
    exact cancelHandlerKeeps h ran
  | resetInterval id interval =>
    obtain ⟨r,ran,rfl⟩ := Option.map_eq_some_iff.1 runs
    exact (resetIntervalKeeps h ran).1
  | expire current ret =>
    obtain ⟨r,ran,rfl⟩ := Option.map_eq_some_iff.1 runs
    exact expireKeeps h ran
  | dispatch current =>
    simp only [apply] at runs
    split at runs
    · cases Option.some.inj runs
      exact ⟨heap,free,h⟩
    · rename_i some_
      obtain ⟨r,ran,rfl⟩ := Option.map_eq_some_iff.1 runs
      exact (dispatchKeeps h (Nat.pos_of_ne_zero some_) ran).1

theorem startKept (maxSize : Int) {preAlloc : Nat} (two : 2 ≤ preAlloc) : Kept (make maxSize preAlloc) := by
  have shape := makeShape maxSize preAlloc
  have typed : ∀ p, (initNode preAlloc p).type = .general := fun _ => rfl
  refine ⟨[],List.range' 0 preAlloc,⟨⟨⟨?_,?_,?_,?_,?_⟩,fun k _ nonneg => ?_,rfl,le_rfl,rfl,?_,
    List.nodup_range',fun p hp => ?_,nofun,nofun,two,Or.inl rfl,fun _ => Nat.zero_le _⟩,fun p _ => typed p,nofun,nofun,
    fun p cron => absurd (cron.2.symm.trans (typed p)) nofun⟩⟩
  · exact (heapedOfSettled shape.heap).holds
  · exact (heapedOfSettled shape.heap).filled
  · exact (heapedOfSettled shape.heap).room
  · exact (heapedOfSettled shape.heap).range
  · exact (heapedOfSettled shape.heap).ordered
  · exact absurd nonneg (by decide : ¬(0 : Int) ≤ -1)
  · exact shape.free
  · have inside := (List.mem_range'_1.mp hp).2
    exact inside.trans_le (Nat.zero_add preAlloc).le

theorem reachedKeeps {maxSize : Int} {preAlloc : Nat} (two : 2 ≤ preAlloc) {ops : List Op}
    (reached : run apply (make maxSize preAlloc) ops = some q) : Kept q := by
  have always : Always apply Kept (make maxSize preAlloc) ops :=
    Lib.alwaysInvariant (fun _ op _ h runs => applyKeeps op h runs) (startKept maxSize two) ops
  exact alwaysAtEnd always reached

end Crontabs

/- What there is after a call that has failed is what there was. -/
structure Unchanged (q q' : TimerQueue) : Prop where
  general : timers q' = timers q
  crontab : (crontabList q').map q'.card = (crontabList q).map q.card
  ids : ∀ d ∈ timers q, q'.timerIds d.id = q.timerIds d.id

def SucceedsWithRoom (q : TimerQueue) (eh : Option Handler) (arg : Arg) (deadline interval : TimeValue) : Prop :=
  ∃ id q', q.scheduleI eh arg deadline interval = some (id,q') ∧
    (0 ≤ id ↔ ((timers q).length : Int) < q.maxSize) ∧ (id = -1 → Unchanged q q')

/- An entry of timer_ids_ alloc_timerid looks at is -1. -/
def IdFree (q : TimerQueue) : Prop := ∃ k, q.minTimerId ≤ k ∧ k < q.timerIdsSize ∧ q.timerIds k = -1

section Room
variable {q : TimerQueue}

theorem idFreeIff : IdFree q ↔ q.freeId ≠ none := by
  constructor
  · rintro ⟨k,low,high,free⟩ none_
    exact firstFreeNone none_ k low (by omega) free
  · intro some_
    obtain ⟨k,got⟩ := Option.ne_none_iff_exists'.1 some_
    obtain ⟨low,high,free,_⟩ := firstFreeSound got
    exact ⟨k,low,by omega,free⟩

theorem timersCount : (timers q).length = q.currSize := by
  simp [timers,Lib.BinaryHeap.contents]

theorem succeedsIffIdFree {maxSize : Int} {preAlloc : Nat} (three : 3 ≤ preAlloc) {ops : List Op}
    (reached : run apply (make maxSize preAlloc) ops = some q) (eh : Option Handler) (arg : Arg)
    (deadline interval : TimeValue) :
    SucceedsWithRoom q eh arg deadline interval ↔ ((q.currSize : Int) < q.maxSize → IdFree q ∧ Doubles q) := by
  obtain ⟨heap,free,h⟩ := reachedKeeps (by omega) reached
  by_cases below : (q.currSize : Int) < q.maxSize
  · rw [idFreeIff]
    cases got : q.freeId with
    | none =>
      obtain ⟨p,q',free',gives,_⟩ := scheduleRefused h below got eh arg deadline interval
      refine ⟨?_,fun room => absurd rfl (room below).1⟩
      rintro ⟨id,q'',returns,iff,_⟩
      cases Option.some.inj (gives.symm.trans returns)
      rw [timersCount] at iff
      exact absurd (iff.2 below) (by decide)
    | some k =>
      refine ⟨fun succeeds _ => ⟨Option.some_ne_none k,?_⟩,fun room => ?_⟩
      · by_contra large
        obtain ⟨id,q'',returns,_⟩ := succeeds
        exact absurd ((scheduleStuck h below got large eh arg deadline interval).symm.trans returns) nofun
      · obtain ⟨p,q',free',gives,_,_,nonneg,_⟩ := scheduleAdds h below got (room below).2 eh arg deadline interval
        refine ⟨k,q',gives,?_,fun refused => ?_⟩
        · rw [timersCount]
          exact ⟨fun _ => below,fun _ => nonneg⟩
        · omega
  · have full : q.scheduleI eh arg deadline interval = some (-1,q) := if_pos (by omega)
    refine ⟨fun _ room => absurd room below,fun _ => ⟨-1,q,full,?_,fun _ => ⟨rfl,rfl,fun _ _ => rfl⟩⟩⟩
    rw [timersCount]
    exact ⟨fun nonneg => absurd nonneg (by decide),fun room => absurd room below⟩

/- Two timers, one of them periodic, and room for more. -/
theorem thirdTimerFits : ∃ q, run apply (make 9 3)
      [.schedule (some (.user 1)) 0 (.set 5 0) (.set 2 0),.schedule none 0 (.set 6 0) .zero] = some q ∧
    (SucceedsWithRoom q none 0 (.set 7 0) .zero ↔ ((q.currSize : Int) < q.maxSize → IdFree q ∧ Doubles q)) := by
  obtain ⟨q,reached⟩ := Option.isSome_iff_exists.1 (by decide +kernel : (run apply (make 9 3)
    [.schedule (some (.user 1)) 0 (.set 5 0) (.set 2 0),.schedule none 0 (.set 6 0) .zero]).isSome = true)
  exact ⟨q,reached,succeedsIffIdFree (by decide) reached none 0 (.set 7 0) .zero⟩

/- Two crontab timers and their driver take the ids of all three entries, though
only one of them is a general timer. -/
theorem crontabIdsUsedUp :
    ¬ ∀ (maxSize : Int) (preAlloc : Nat) (ops : List Op) (q : TimerQueue), 3 ≤ preAlloc →
      run apply (make maxSize preAlloc) ops = some q →
        ∀ eh arg deadline interval, SucceedsWithRoom q eh arg deadline interval := by
  intro claim
  have fails : ((run apply (make 100 3)
      [.crontab (some (.user 1)) 0 (.parsed TimerIds.everyMinute) (.set 60 0) 0,
        .crontab (some (.user 2)) 0 (.parsed TimerIds.everyMinute) (.set 60 0) 0]).bind fun q =>
      (q.scheduleI (some (.user 3)) 0 (.set 65 0) .zero).map fun r => (r.1,(timers q).length,q.maxSize))
      = some (-1,1,100) := by decide +kernel
  obtain ⟨q,reached,schedules⟩ := Option.bind_eq_some_iff.1 fails
  obtain ⟨r,gives,same⟩ := Option.map_eq_some_iff.1 schedules
  obtain ⟨id,q',returns,iff,_⟩ := claim 100 3 _ q (by decide) reached (some (.user 3)) 0 (.set 65 0) .zero
  cases Option.some.inj (gives.symm.trans returns)
  simp only [Prod.mk.injEq] at same
  rw [same.1,same.2.1,same.2.2] at iff
  exact absurd (iff.2 (by decide)) (by decide)

end Room

end CuteNdk.TimerMixed
