import CuteNdk.TimerCronList

/-! cancel(timer_id) on a crontab timer. It does its work just when the timer is
neither the first nor the last of the crontab list, in every queue that runs have
led to in which no cancel before it took the first or the last one. -/
namespace CuteNdk.TimerMixed
open TimerQueue
open TimerIds (crontabList)
open Lib (Seg Dll run Along Always alwaysOfInvariant alwaysInvariant alwaysAtEnd)
open Lib.BinaryHeap (contents)

def callee : Call → Handler
  | .timeout h _ _ => h
  | .close h => h

/- What cancel makes of a queue with the timer of node p. A handler of p that is not
registered again is called by a later handle_timeout for another timer only, that
has it too. -/
structure Cancelled (q q' : TimerQueue) (p : Ptr) : Prop where
  list : Dll q'.nextOf q'.prevOf q'.crontabTimers ((crontabList q).erase p).getLast? ((crontabList q).erase p)
  cards : ∀ z ∈ (crontabList q).erase p,
    q'.card z = q.card z ∧ (q'.nodes z).crontabEntry = (q.nodes z).crontabEntry
  free : ∃ rest, Seg q'.nextOf q'.freeCrontabTimers (p :: rest) none
  only : p ∉ contents q'.currSize q'.slotNode ∧ ∀ l, Seg q'.nextOf q'.freeTimerNodes l none → p ∉ l
  quiet : ∀ (ops : List Op) (q'' : TimerQueue),
    Along apply (fun s op => Inside s op ∧ ∀ h, registers op h → (q.nodes p).handler ≠ some h) q' ops →
    run apply q' ops = some q'' → ∀ now tv ret, ∃ told,
      handleTimeout q'' now tv ret = some { q'' with calls := q''.calls ++ told } ∧
      ∀ c ∈ told, (q.nodes p).handler = some (callee c) →
        ∃ z ∈ (crontabList q).erase p, (q.nodes z).handler = some (callee c)

section Runs
variable {q q' : TimerQueue} {heap free crontab freeCrontab : List Ptr} {p : Ptr}

/- Less than two elements: the arrays never hold a timer, nor does the crontab list,
which is not begun without a driver. -/
structure Empty (q : TimerQueue) : Prop where
  size : q.currSize = 0
  narrow : q.timerHeapSize ≤ 1
  table : ∀ k, q.timerIds k = -1
  low : 0 ≤ q.minTimerId
  crontab : q.crontabTimers = none

theorem emptyFree (h : Empty q) (p : Ptr) : Empty (q.freeNode p) := by
  have rest := (freeNodeFreed q p).rest
  refine ⟨?_,?_,fun k => ?_,?_,?_⟩
  · rw [rest]
    exact h.size
  · rw [rest]
    exact h.narrow
  · unfold freeNode
    rw [recycleRest]
    change (q.releaseTimerid (q.nodes p).timerId).timerIds k = -1
    unfold releaseTimerid
    split
    · by_cases here : k = (q.nodes p).timerId
      · simp only [here,Function.update_self]
      · simp only [Function.update_of_ne here]
        exact h.table k
    · exact h.table k
  · unfold freeNode
    rw [recycleRest]
    change 0 ≤ (q.releaseTimerid (q.nodes p).timerId).minTimerId
    unfold releaseTimerid
    split
    · rename_i inside
      exact le_min inside.1 h.low
    · exact h.low
  · rw [rest]
    exact h.crontab

/- The arrays grow to no element. -/
theorem emptyInsert (h : Empty q) (type : (q.nodes p).type = .general) : q.insert p = none := by
  unfold TimerQueue.insert
  rw [type]
  cases made : q.makeRoom with
  | none => simp only [insertGeneral,made,bind,Option.bind]
  | some q₁ =>
    have sizes : q₁.timerHeapSize = 0 ∧ q₁.currSize = 0 := by
      have narrow := h.narrow
      have size := h.size
      unfold makeRoom growHeap at made
      rw [if_pos (by omega)] at made
      simp only at made
      split at made
      · cases Option.some.inj made
        refine ⟨?_,size⟩
        change (min ((q.currSize * 2 : Nat) : Int) q.maxSize).toNat = 0
        omega
      · cases made
    simp only [insertGeneral,made,sizes.1,sizes.2,reheapUp,copy,Nat.lt_irrefl,false_and,if_false,bind,Option.bind]

theorem emptyAlloc (h : Empty q) : Empty (q.allocNode .general).2 ∧
    (q.allocNode .general).2.freeId = q.freeId := by
  unfold allocNode
  cases q.freeTimerNodes <;> exact ⟨⟨h.size,h.narrow,h.table,h.low,h.crontab⟩,rfl⟩

/- An id alone is of no use. -/
theorem emptyStuck (h : Empty q) (below : (q.currSize : Int) < q.maxSize) {k : Int} (got : q.freeId = some k)
    (eh : Option Handler) (arg : Arg) (deadline interval : TimeValue) : q.scheduleI eh arg deadline interval = none := by
  obtain ⟨h₁,same⟩ := emptyAlloc h
  have got₁ := same.trans got
  have given : k ≠ -1 := by
    have least := (firstFreeSound got).1
    have low := h.low
    omega
  unfold scheduleI
  rw [if_neg (by omega)]
  simp only [allocTimeridGives got₁]
  rw [emptyInsert]
  · rfl
  · exact ⟨h₁.size,h₁.narrow,h₁.table,Int.le_add_one h₁.low,h₁.crontab⟩
  · simp only [setNode,Function.update_self]

theorem emptyRefused (h : Empty q) (below : (q.currSize : Int) < q.maxSize) (none_ : q.freeId = none)
    (eh : Option Handler) (arg : Arg) (deadline interval : TimeValue) :
    ∃ q', q.scheduleI eh arg deadline interval = some (-1,q') ∧ Empty q' := by
  obtain ⟨h₁,same⟩ := emptyAlloc h
  have refused : (q.allocNode .general).2.allocTimerid = (-1,(q.allocNode .general).2) :=
    allocTimeridRefuses (by rw [same,none_])
  unfold scheduleI
  rw [if_neg (by omega)]
  simp only [refused]
  exact ⟨_,rfl,emptyFree h₁ _⟩

theorem emptyScheduled (h : Empty q) {eh : Option Handler} {arg : Arg} {deadline interval : TimeValue}
    {r : Int × TimerQueue} (runs : q.scheduleI eh arg deadline interval = some r) : r.1 = -1 ∧ Empty r.2 := by
  by_cases below : (q.currSize : Int) < q.maxSize
  · cases got : q.freeId with
    | some k => exact absurd ((emptyStuck h below got eh arg deadline interval).symm.trans runs) nofun
    | none =>
      obtain ⟨q',gives,h'⟩ := emptyRefused h below got eh arg deadline interval
      cases Option.some.inj (gives.symm.trans runs)
      exact ⟨rfl,h'⟩
  · unfold scheduleI at runs
    rw [if_pos (by omega)] at runs
    cases Option.some.inj runs
    exact ⟨rfl,h⟩

theorem emptyApply (h : Empty q) (op : Op) (runs : apply q op = some q') : Empty q' := by
  have missed : ∀ {id : Int} {dontCall : Bool} {r : Int × Option Arg × TimerQueue},
      q.cancel id dontCall = some r → r.2.2 = q := by
    intro id dontCall r ran
    unfold cancel at ran
    split at ran
    · cases Option.some.inj ran
      rfl
    · simp only [h.crontab,findCrontab,bind,Option.bind,cancelGeneral,h.table] at ran
      cases Option.some.inj ran
      rfl
  cases op with
  | schedule eh arg deadline interval =>
    obtain ⟨r,ran,rfl⟩ := Option.map_eq_some_iff.1 runs
    exact (emptyScheduled h ran).2
  | crontab eh arg entry now sec =>
    obtain ⟨r,ran,rfl⟩ := Option.map_eq_some_iff.1 runs
    unfold TimerQueue.crontab at ran
    split at ran
    · cases Option.some.inj ran
      exact h
    · cases Option.some.inj ran
      exact h
    · obtain ⟨⟨result,q₁⟩,started,ran⟩ := Option.bind_eq_some_iff.1 ran
      unfold startDriver at started
      rw [if_pos h.crontab] at started
      obtain ⟨refused,h₁⟩ := emptyScheduled h started
      simp only at refused ran
      rw [refused] at ran
      cases Option.some.inj ran
      exact h₁
  | cancel id dontCall =>
    obtain ⟨r,ran,rfl⟩ := Option.map_eq_some_iff.1 runs
    rw [missed ran]
    exact h
  | cancelHandler eh dontCall =>
    obtain ⟨r,ran,rfl⟩ := Option.map_eq_some_iff.1 runs
    cases eh with
    | none =>
      cases Option.some.inj ran
      exact h
    | some eh =>
      simp only [cancelHandler,h.crontab,cancelCrontabs,h.size,cancelGenerals,bind,Option.bind,Nat.lt_irrefl,
        if_false] at ran
      cases Option.some.inj ran
      cases dontCall with
      | true => exact h
      | false => exact ⟨h.size,h.narrow,h.table,h.low,h.crontab⟩
  | resetInterval id interval =>
    obtain ⟨r,ran,rfl⟩ := Option.map_eq_some_iff.1 runs
    cases intervalReset ran with
    | refused => exact h
    | reset p listed _ =>
      rw [h.table] at listed
      exact absurd listed (by decide)
  | expire current ret =>
    obtain ⟨r,ran,rfl⟩ := Option.map_eq_some_iff.1 runs
    unfold expire at ran
    rw [if_pos h.size] at ran
    cases Option.some.inj ran
    exact h
  | dispatch current =>
    simp only [apply,if_pos h.size] at runs
    cases Option.some.inj runs
    exact h

theorem startFiled (maxSize : Int) {preAlloc : Nat} (two : 2 ≤ preAlloc) :
    ∃ heap free, Filed (make maxSize preAlloc) heap free [] [] := by
  obtain ⟨heap,free,mixed⟩ := startKept maxSize two
  exact ⟨heap,free,mixed,shapeOfCron ⟨rfl,rfl⟩ rfl List.nodup_nil nofun,nofun⟩

def Filable (q : TimerQueue) : Prop := ∃ heap free crontab freeCrontab, Filed q heap free crontab freeCrontab

theorem reachedFilable {maxSize : Int} {preAlloc : Nat} {ops : List Op} (two : 2 ≤ preAlloc)
    (inside : Along apply Inside (make maxSize preAlloc) ops) (reached : run apply (make maxSize preAlloc) ops = some q) :
    Filable q := by
  obtain ⟨heap,free,start⟩ := startFiled maxSize two
  have always : Always apply Filable (make maxSize preAlloc) ops := by
    refine alwaysOfInvariant (fun s op t h ok runs => ?_) ⟨_,_,_,_,start⟩ inside
    obtain ⟨_,_,_,_,filed⟩ := h
    obtain ⟨heap',free',crontab',freeCrontab',filed',_⟩ := applyFiled filed ok runs
    exact ⟨_,_,_,_,filed'⟩
  exact alwaysAtEnd always reached

theorem reachedEmpty {maxSize : Int} {preAlloc : Nat} {ops : List Op} (few : ¬2 ≤ preAlloc)
    (reached : run apply (make maxSize preAlloc) ops = some q) : Empty q := by
  have start : Empty (make maxSize preAlloc) :=
    ⟨rfl,Nat.le_of_lt_succ (Nat.lt_of_not_le few),fun _ => rfl,le_rfl,rfl⟩
  exact alwaysAtEnd (alwaysInvariant (fun s op t (h : Empty s) runs => emptyApply h op runs) start ops) reached

/- A queue with a crontab timer has not begun with one element or none. -/
theorem reachedFiled {maxSize : Int} {preAlloc : Nat} {ops : List Op} (inside : Along apply Inside (make maxSize preAlloc) ops)
    (reached : run apply (make maxSize preAlloc) ops = some q) (mem : p ∈ crontabList q) : Filable q := by
  by_cases two : 2 ≤ preAlloc
  · exact reachedFilable two inside reached
  · have none_ := (reachedEmpty two reached).crontab
    rw [crontabList,none_] at mem
    exact absurd mem List.not_mem_nil

/- handle_timeout calls the handlers of timers on the list only. -/
theorem timeoutTold {l : List Ptr} {fuel : Nat} {start : Option Ptr} (walk : Seg q.nextOf start l none)
    (enough : l.length < fuel) (now : DateTime) (tv : TimeValue) (ret : Handler → Arg → Int) :
    ∃ told, handleTimeoutFrom now tv ret fuel q start = some { q with calls := q.calls ++ told } ∧
      ∀ c ∈ told, ∃ z ∈ l, (q.nodes z).handler = some (callee c) := by
  induction l generalizing q fuel start with
  | nil =>
    obtain ⟨n,rfl⟩ := Nat.exists_eq_succ_of_ne_zero (Nat.ne_of_gt enough)
    cases walk
    exact ⟨[],by rw [List.append_nil]; rfl,fun c hc => absurd hc List.not_mem_nil⟩
  | cons a l ih =>
    obtain ⟨n,rfl⟩ := Nat.exists_eq_succ_of_ne_zero (Nat.ne_of_gt (Nat.zero_lt_of_lt enough))
    have shorter : l.length < n := Nat.lt_of_succ_lt_succ enough
    -- what the rest of the list tells, after c has been told here
    have after : ∀ c : List Call, (∀ d ∈ c, (q.nodes a).handler = some (callee d)) → ∃ told,
        handleTimeoutFrom now tv ret n { q with calls := q.calls ++ c } (q.nodes a).next
          = some { q with calls := q.calls ++ told } ∧
        ∀ d ∈ told, ∃ z ∈ a :: l, (q.nodes z).handler = some (callee d) := by
      intro c here
      obtain ⟨told,runs,theirs⟩ := ih (q := { q with calls := q.calls ++ c }) walk.2 shorter
      refine ⟨c ++ told,?_,fun d hd => ?_⟩
      · rw [← List.append_assoc]
        exact runs
      · rcases List.mem_append.1 hd with now_ | later
        · exact ⟨a,List.mem_cons_self,here d now_⟩
        · obtain ⟨z,hz,same⟩ := theirs d later
          exact ⟨z,List.mem_cons_of_mem a hz,same⟩
    have passed := after [] fun d hd => absurd hd List.not_mem_nil
    rw [List.append_nil] at passed
    rw [walk.1]
    simp only [handleTimeoutFrom]
    split
    · rename_i _ _ _ eh _ handler
      split
      · split
        · obtain ⟨told,runs,theirs⟩ := after [.timeout eh (q.nodes a).arg tv,.close eh] (by simp [callee,handler])
          refine ⟨told,?_,theirs⟩
          rw [← runs]
          simp only [call,List.append_assoc,List.singleton_append]
        · exact after [.timeout eh (q.nodes a).arg tv] (by simp [callee,handler])
      · exact passed
    · exact passed

/- What a later run makes of the crontab timers with p's handler. -/
theorem laterTold (list : List Ptr) {hp : Option Handler} (filed : Filed q heap free crontab freeCrontab)
    (others : ∀ z ∈ crontab, ∀ h, hp = some h → (q.nodes z).handler = some h → z ∈ list ∧ (q.nodes z).handler = some h)
    {ops : List Op} (along : Along apply (fun s op => Inside s op ∧ ∀ h, registers op h → hp ≠ some h) q ops)
    (runs : run apply q ops = some q') (now : DateTime) (tv : TimeValue) (ret : Handler → Arg → Int) :
    ∃ told, handleTimeout q' now tv ret = some { q' with calls := q'.calls ++ told } ∧
      ∀ c ∈ told, hp = some (callee c) → ∃ z ∈ list, (q.nodes z).handler = some (callee c) := by
  let Spared (s : TimerQueue) : Prop := ∃ heap free crontab freeCrontab, Filed s heap free crontab freeCrontab ∧
    ∀ z ∈ crontab, ∀ h, hp = some h → (s.nodes z).handler = some h → z ∈ list ∧ (q.nodes z).handler = some h
  have always : Always apply Spared q ops := by
    refine alwaysOfInvariant (fun s op t h ok ran => ?_) ⟨_,_,_,_,filed,others⟩ along
    obtain ⟨_,_,_,_,filed,others⟩ := h
    obtain ⟨heap',free',crontab',freeCrontab',filed',carries⟩ := applyFiled filed ok.1 ran
    refine ⟨_,_,_,_,filed',fun z hz h same has => ?_⟩
    rcases carries.passes z hz with ⟨old,card⟩ | ⟨eh,registered,new⟩
    · have handler : (t.nodes z).handler = (s.nodes z).handler := congrArg Card.handler card
      exact others z old h same (handler ▸ has)
    · cases Option.some.inj (new.symm.trans has)
      exact absurd same (ok.2 h registered)
  obtain ⟨_,_,crontab',_,filed',others'⟩ := alwaysAtEnd always runs
  obtain ⟨told,ran,theirs⟩ := timeoutTold (filedWalk filed').forth (filedShort filed') now tv ret
  refine ⟨told,ran,fun c hc same => ?_⟩
  obtain ⟨z,hz,has⟩ := theirs c hc
  exact ⟨z,others' z hz (callee c) same has⟩

/- cancel finds the timer under its id. -/
theorem cancelFinds (h : Filed q heap free crontab freeCrontab) (mem : p ∈ crontab)
    (distinct : (crontab.map q.ident).Nodup) (dontCall : Bool) :
    q.cancel (q.ident p) dontCall = q.cancelCrontab p dontCall := by
  have range := h.range p mem
  have finds : q.findCrontab (q.ident p) (q.made + 1) q.crontabTimers = some (some p) := by
    rcases findSplits (q.ident p) (filedWalk h).forth (filedShort h) with
      ⟨_,others⟩ | ⟨z,l₁,l₂,finds,split,same,_⟩
    · exact absurd rfl (others p mem)
    · have at_ : z ∈ crontab := split ▸ List.mem_append_right l₁ List.mem_cons_self
      rw [List.inj_on_of_nodup_map distinct at_ mem same] at finds
      exact finds
  unfold cancel
  rw [if_neg (by omega),finds]
  rfl

theorem calledFirst (h : Filed q heap free crontab freeCrontab) (dontCall : Bool) : ∃ c,
    (if dontCall then q else q.handleClose (q.nodes p).handler) = { q with calls := c } ∧
    Filed { q with calls := c } heap free crontab freeCrontab := by
  obtain ⟨c,called⟩ := toldCalls q (q.nodes p).handler dontCall
  exact ⟨c,called,filedBeside h (besideCalls q c) (mixedCalls h.mixed c)⟩

/- The first timer stays linked, and the last one takes the list along. -/
theorem endsStay (h : Filed q heap free crontab freeCrontab)
    (ends : crontab.head? = some p ∨ crontab.getLast? = some p) {dontCall : Bool} {r : Int × Option Arg × TimerQueue}
    (runs : q.cancelCrontab p dontCall = some r) : r.2.2.crontabTimers ≠ (crontab.erase p).head? := by
  have nodup := Lib.dllNodup (filedWalk h)
  have start := (Lib.dllEnds (filedWalk h)).1
  obtain ⟨c,called,_⟩ := calledFirst (p := p) h dontCall
  obtain ⟨q₁,unlinks,rfl⟩ := Option.map_eq_some_iff.1 runs
  rw [called] at unlinks
  have kept : (q₁.freeNode p).crontabTimers = q₁.crontabTimers := by
    rw [(freeNodeFreed q₁ p).rest]
  change (q₁.freeNode p).crontabTimers ≠ _
  rw [kept]
  by_cases first : crontab.head? = some p
  · obtain ⟨l,hl⟩ := List.head?_eq_some_iff.1 first
    rw [first] at start
    unfold unlinkCrontab at unlinks
    rw [if_pos start] at unlinks
    cases Option.some.inj unlinks
    change q.crontabTimers ≠ _
    rw [start,hl,List.erase_cons_head]
    rw [hl] at nodup
    exact fun same => (List.nodup_cons.1 nodup).1 (List.mem_of_mem_head? same.symm)
  · have last := ends.resolve_left first
    obtain ⟨l,hl⟩ := List.getLast?_eq_some_iff.1 last
    rw [hl] at nodup
    have off : p ∉ l := (List.nodup_cons.1 (List.perm_append_singleton p l |>.nodup_iff.1 nodup)).1
    have walk := filedWalk h
    rw [hl] at walk
    obtain ⟨next,prev⟩ := Lib.dllNeighbours walk
    have before : l ≠ [] := by
      rintro rfl
      exact first (by rw [hl]; rfl)
    obtain ⟨b,hb⟩ := Option.ne_none_iff_exists'.1 fun none_ => before (List.getLast?_eq_none_iff.1 none_)
    have nextP : (q.nodes p).next = none := next
    have prevP : (q.nodes p).prev = some b := prev.trans hb
    have onList : b ∈ l := List.mem_of_getLast? hb
    have apart : p ≠ b := fun same => off (same ▸ onList)
    unfold unlinkCrontab at unlinks
    rw [if_neg (fun same => first (start.symm.trans same))] at unlinks
    simp only [nextP,prevP] at unlinks
    cases Option.some.inj unlinks
    simp only [setNode,Function.update_of_ne apart,nextP]
    rw [hl,List.erase_append_right _ off,List.erase_cons_head,List.append_nil]
    exact fun same => before (List.head?_eq_none_iff.1 same.symm)

/- Cancelling a crontab timer by its id does its work just when the timer is neither
the first nor the last of the list. -/
theorem cancelsIffInside {maxSize : Int} {preAlloc : Nat} {ops : List Op} {q : TimerQueue} {p : Ptr}
    (inside : Along apply Inside (make maxSize preAlloc) ops) (reached : run apply (make maxSize preAlloc) ops = some q)
    (mem : p ∈ crontabList q) (distinct : ((crontabList q).map q.ident).Nodup) (dontCall : Bool) :
    (∃ q', q.cancel (q.ident p) dontCall = some (0,some (q.nodes p).arg,q') ∧ Cancelled q q' p) ↔
      (crontabList q).head? ≠ some p ∧ (crontabList q).getLast? ≠ some p := by
  obtain ⟨heap,free,crontab,freeCrontab,h⟩ := reachedFiled inside reached mem
  have lists := crontabListIs h
  rw [lists] at mem distinct ⊢
  have nodup := Lib.dllNodup (filedWalk h)
  have finds := cancelFinds h mem distinct dontCall
  constructor
  · rintro ⟨q',runs,cancelled⟩
    rw [finds] at runs
    by_contra ends
    rw [not_and_or,not_not,not_not] at ends
    have list := cancelled.list
    rw [lists] at list
    exact endsStay h ends runs (Lib.dllEnds list).1
  · rintro ⟨first,last⟩
    obtain ⟨l₁,l₂,split⟩ := List.append_of_mem mem
    obtain ⟨before,after⟩ := insideOf split (fun y hy same => first (same ▸ hy)) fun y hy same => last (same ▸ hy)
    have off : p ∉ l₁ ++ l₂ := by
      rw [split] at nodup
      exact (List.nodup_cons.1 (List.perm_middle.nodup_iff.1 nodup)).1
    have rest : crontab.erase p = l₁ ++ l₂ := by
      rw [split,List.erase_append_right _ fun on => off (List.mem_append_left _ on),List.erase_cons_head]
    obtain ⟨c,called,h₀⟩ := calledFirst (p := p) h dontCall
    obtain ⟨q₁,unlinks,filed,cards,_⟩ := filedUnlink h₀ split before after
    refine ⟨q₁.freeNode p,?_,?_⟩
    · rw [finds]
      unfold cancelCrontab
      simp only [called,unlinks,Option.map_some]
    · have others : ∀ z ∈ l₁ ++ l₂, z ≠ p := fun z hz same => off (same ▸ hz)
      have handlers : ∀ z ∈ l₁ ++ l₂, ((q₁.freeNode p).nodes z).handler = (q.nodes z).handler := fun z hz =>
        congrArg Card.handler (cards z (others z hz)).1
      have cron := filedCron filed p (List.mem_append_right _ List.mem_cons_self)
      have aside := cronOff filed.mixed cron
      have swept : crontabList q = crontab := lists
      refine ⟨?_,?_,⟨freeCrontab,filed.shape.freeCrontab⟩,⟨fun on => ?_,fun l walk on => ?_⟩,?_⟩
      · rw [swept,rest]
        exact filedWalk filed
      · rw [swept,rest]
        exact fun z hz => cards z (others z hz)
      · exact aside (List.mem_append_left _ (filed.mixed.loose.order.holds.subset on))
      · have same := Lib.segUnique walk filed.mixed.loose.walk
        exact aside (List.mem_append_right _ (same ▸ on))
      · intro later q'' along ran now tv ret
        rw [swept,rest]
        obtain ⟨told,runs,theirs⟩ := laterTold (l₁ ++ l₂) filed (fun z hz h _ has => ⟨hz,has⟩) along ran now tv ret
        refine ⟨told,runs,fun d hd same => ?_⟩
        obtain ⟨z,hz,has⟩ := theirs d hd same
        exact ⟨z,hz,(handlers z hz).symm.trans has⟩

end Runs

/- Four crontab timers, the second oldest cancelled: node 10 is in the middle. -/
theorem middleCancels : ∃ q, run apply (make 20 8)
      [.crontab (some (.user 1)) 0 (.parsed TimerIds.everyMinute) (.set 60 0) 0,
        .crontab (some (.user 2)) 0 (.parsed TimerIds.everyMinute) (.set 60 0) 0,
        .crontab (some (.user 3)) 7 (.parsed TimerIds.everyMinute) (.set 60 0) 0,
        .crontab (some (.user 4)) 0 (.parsed TimerIds.everyMinute) (.set 60 0) 0,.cancel 2 true] = some q ∧
    ((∃ q', q.cancel (q.ident 10) false = some (0,some (q.nodes 10).arg,q') ∧ Cancelled q q' 10) ↔
      (crontabList q).head? ≠ some 10 ∧ (crontabList q).getLast? ≠ some 10) := by
  have facts : ((run apply (make 20 8)
      [.crontab (some (.user 1)) 0 (.parsed TimerIds.everyMinute) (.set 60 0) 0,
        .crontab (some (.user 2)) 0 (.parsed TimerIds.everyMinute) (.set 60 0) 0,
        .crontab (some (.user 3)) 7 (.parsed TimerIds.everyMinute) (.set 60 0) 0,
        .crontab (some (.user 4)) 0 (.parsed TimerIds.everyMinute) (.set 60 0) 0,.cancel 2 true]).map fun q =>
      (crontabList q,(crontabList q).map q.ident)) = some ([11,10,8],[4,3,1]) := by decide +kernel
  obtain ⟨q,reached,same⟩ := Option.map_eq_some_iff.1 facts
  simp only [Prod.mk.injEq] at same
  exact ⟨q,reached,cancelsIffInside (by decide +kernel) reached (by rw [same.1]; decide) (by rw [same.2]; decide) false⟩

/- Of two crontab timers the newer, which is the first of the list, is cancelled: its
node stays the first of the list, with the list of free nodes behind it. -/
theorem firstStaysLinked :
    ¬ ∀ (maxSize : Int) (preAlloc : Nat) (ops : List Op) (q : TimerQueue) (p : Ptr),
      run apply (make maxSize preAlloc) ops = some q → p ∈ crontabList q → ((crontabList q).map q.ident).Nodup →
        ∀ dontCall : Bool,
          ∃ q', q.cancel (q.ident p) dontCall = some (0,some (q.nodes p).arg,q') ∧ Cancelled q q' p := by
  intro claim
  have facts : ((run apply (make 20 8)
      [.crontab (some (.user 1)) 0 (.parsed TimerIds.everyMinute) (.set 60 0) 0,
        .crontab (some (.user 2)) 0 (.parsed TimerIds.everyMinute) (.set 60 0) 0]).bind fun q =>
      (q.cancel (q.ident 9) true).map fun r =>
        (crontabList q,(crontabList q).map q.ident,r.2.2.crontabTimers)) = some ([9,8],[2,1],some 9) := by
    decide +kernel
  obtain ⟨q,reached,cancels⟩ := Option.bind_eq_some_iff.1 facts
  obtain ⟨r,runs,same⟩ := Option.map_eq_some_iff.1 cancels
  simp only [Prod.mk.injEq] at same
  obtain ⟨q',gives,cancelled⟩ := claim 20 8 _ q 9 reached (by rw [same.1]; decide) (by rw [same.2.1]; decide) true
  cases Option.some.inj (gives.symm.trans runs)
  have start := (Lib.dllEnds cancelled.list).1
  rw [same.1,same.2.2] at start
  exact absurd start (by decide)

end CuteNdk.TimerMixed
