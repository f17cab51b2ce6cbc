import CuteNdk.TimerCancelCrontab

/-! What the callbacks of crontab timers do to the crontab list by canceling timers. A
canceled node that stays linked, and one whose handle_close cancels others before it is
unlinked itself, leave it in more ways than a cancel by itself can. -/
namespace CuteNdk.TimerTick
open TimerQueue
open TimerMixed
open TimerIds (crontabList)
open Lib (Seg relink relinkSelf relinkApart segAppend segCongr segHead segUnlink segNodup Along Always run
  alwaysOfInvariant alwaysAtEnd)

/- The cancels a callback makes, one after the other. Where one calls the handle_close of
a crontab timer, that makes those of close. -/
inductive Cancels where
  | done
  | next (timerId : Int) (dontCall : Bool) (close : Cancels) (rest : Cancels)
  deriving DecidableEq, Repr

/- What the callbacks for one timer do: the cancels of its handle_timeout, what that
returns, and the cancels of the handle_close made when it is not 0. -/
structure Upcall where
  timeout : Cancels
  result : Int
  close : Cancels
  deriving DecidableEq, Repr

/- The crontab timer cancel takes. -/
def taken (q : TimerQueue) (id : Int) : Option Ptr :=
  if id < 0 ∨ q.timerIdsSize ≤ id then none else (q.findCrontab id (q.made + 1) q.crontabTimers).join

/- if (!dont_call) { event_handler *eh = iter->handler(); if (eh) eh->handle_close(...); } -/
def closeFirst (q : TimerQueue) (iter : Ptr) (dontCall : Bool)
    (close : TimerQueue → Option (List Ptr × TimerQueue)) : Option (List Ptr × TimerQueue) :=
  match dontCall, (q.nodes iter).handler with
  | false, some eh => close (q.call (.close eh))
  | _, _ => some ([],q)

/- cancel, where close is what the handle_close of the crontab timer it takes does. -/
def cancelWith (q : TimerQueue) (timerId : Int) (dontCall : Bool)
    (close : TimerQueue → Option (List Ptr × TimerQueue)) : Option (List Ptr × TimerQueue) :=
  match taken q timerId with
  | none => (q.cancel timerId dontCall).map fun r => ([],r.2.2)
  | some iter => do
    let closed ← closeFirst q iter dontCall close
    let unlinked ← closed.2.unlinkCrontab iter
    some (closed.1 ++ [iter],unlinked.freeNode iter)

/- The crontab timers the cancels take, and the queue after them. -/
def cancels : TimerQueue → Cancels → Option (List Ptr × TimerQueue)
  | q, .done => some ([],q)
  | q, .next timerId dontCall close rest => do
    let out ← cancelWith q timerId dontCall fun q => cancels q close
    let later ← cancels out.2 rest
    some (out.1 ++ later.1,later.2)

/- The handler of a node whose entry is that of now. -/
def dueNow (q : TimerQueue) (now : DateTime) (p : Ptr) : Option Handler :=
  match (q.nodes p).crontabEntry, (q.nodes p).handler with
  | some e, some eh => if matchesNow e now then some eh else none
  | _, _ => none

/- if (eh->handle_timeout(node->arg(), tv) != 0) eh->handle_close(...); -/
def serve (q : TimerQueue) (tv : TimeValue) (does : Upcall) (node : Ptr) (eh : Handler) :
    Option (List Ptr × TimerQueue) := do
  let called ← cancels (q.call (.timeout eh (q.nodes node).arg tv)) does.timeout
  if does.result = 0 then some called
  else do
    let closed ← cancels (called.2.call (.close eh)) does.close
    some (called.1 ++ closed.1,closed.2)

/- A cancel whose handle_close cancels nothing is cancel. -/
theorem cancelAlone (q : TimerQueue) (id : Int) (dontCall : Bool) :
    (cancelWith q id dontCall fun q => some ([],q)).map Prod.snd = (q.cancel id dontCall).map fun r => r.2.2 := by
  unfold cancelWith
  cases at_ : taken q id with
  | none => cases q.cancel id dontCall <;> rfl
  | some iter =>
    unfold taken at at_
    split at at_
    · cases at_
    · rename_i inside
      have finds := Option.join_eq_some_iff.1 at_
      have told : closeFirst q iter dontCall (fun q => some ([],q)) =
          some ([],if dontCall then q else q.handleClose (q.nodes iter).handler) := by
        unfold closeFirst
        cases dontCall with
        | true => rfl
        | false => cases (q.nodes iter).handler <;> rfl
      unfold cancel
      rw [if_neg inside,finds]
      simp only [told,cancelCrontab,bind,Option.bind]
      cases TimerQueue.unlinkCrontab (if dontCall then q else q.handleClose (q.nodes iter).handler) iter <;> rfl

theorem serveAlone (q : TimerQueue) (tv : TimeValue) (ret : Int) (node : Ptr) (eh : Handler) :
    serve q tv ⟨.done,ret,.done⟩ node eh = some ([],if ret ≠ 0 then
      (q.call (.timeout eh (q.nodes node).arg tv)).call (.close eh) else q.call (.timeout eh (q.nodes node).arg tv)) := by
  unfold serve
  by_cases zero : ret = 0
  · rw [if_neg (not_not.mpr zero)]
    exact if_pos zero
  · rw [if_pos zero]
    exact if_neg zero

/- The timers of a list that are not among those gone. -/
def remaining (gone l : List Ptr) : List Ptr := l.filter (· ∉ gone)

section Remaining
variable {gone taken l : List Ptr} {p : Ptr}

theorem memRemaining : p ∈ remaining gone l ↔ p ∈ l ∧ p ∉ gone := by
  simp [remaining]

theorem remainingAll (off : ∀ z ∈ l, z ∉ gone) : remaining gone l = l :=
  List.filter_eq_self.2 fun z hz => decide_eq_true (off z hz)

theorem remainingGone (canceled : p ∈ gone) : remaining gone (p :: l) = remaining gone l :=
  List.filter_cons_of_neg (by simpa using canceled)

theorem remainingCons (off : p ∉ gone) : remaining gone (p :: l) = p :: remaining gone l :=
  List.filter_cons_of_pos (decide_eq_true off)

theorem remainingAppend (l₁ l₂ : List Ptr) : remaining gone (l₁ ++ l₂) = remaining gone l₁ ++ remaining gone l₂ :=
  List.filter_append ..

theorem remainingBoth : remaining (gone ++ taken) l = remaining taken (remaining gone l) := by
  unfold remaining
  rw [List.filter_filter]
  refine List.filter_congr fun z _ => ?_
  simp [Bool.and_comm]

/- When the first of those left is not taken it is still the first. -/
theorem remainingFirst (stays : ∀ next ∈ (remaining gone l).head?, next ∉ taken) :
    (remaining (gone ++ taken) l).head? = (remaining gone l).head? := by
  rw [remainingBoth]
  cases at_ : remaining gone l with
  | nil => rfl
  | cons a rest =>
    rw [at_] at stays
    rw [remainingCons (stays a rfl)]
    rfl

end Remaining

/- The timers that are registered are linked in the order of live to a null pointer, and
what a canceled one links to is another or the first of them. A cancel made by a
handle_close can leave the nodes of canceled timers linked on both sides of these. -/
structure Strung (q : TimerQueue) (live : List Ptr) (dead : Ptr → Prop) : Prop where
  walk : Seg q.nextOf live.head? live none
  back : ∀ a ∈ live, ∀ b ∈ q.nextOf a, q.prevOf b = some a
  ahead : ∀ b ∈ live, ∀ a ∈ q.prevOf b, dead a ∨ a ∈ live ∧ q.nextOf a = some b
  first : ∀ z ∈ q.crontabTimers, dead z ∨ live.head? = some z ∧ q.prevOf z = none
  freed : ∀ z ∈ q.freeCrontabTimers, dead z
  apart : ∀ z ∈ live, ¬dead z
  idle : ∀ d, dead d → q.prevOf d = none ∧
    ∀ n ∈ q.nextOf d, dead n ∨ live.head? = some n ∧ q.prevOf n = some d

section Strung
variable {q q' : TimerQueue} {live l₁ l₂ : List Ptr} {dead : Ptr → Prop} {y : Ptr}

theorem remainingOther (off : y ∉ live) : remaining [y] live = live :=
  remainingAll fun _ hz mem => off (List.mem_singleton.1 mem ▸ hz)

/- A node of a canceled timer is unlinked or freed again. -/
theorem deadAgain (h : dead y) : (fun z => z = y ∨ dead z) = dead :=
  funext fun _ => propext ⟨fun either => either.elim (fun same => same ▸ h) id,.inr⟩

theorem strungNext (h : Strung q (l₁ ++ y :: l₂) dead) : q.nextOf y = l₂.head? := by
  obtain ⟨m,_,rest⟩ := segAppend.1 h.walk
  exact segHead rest.2

/- What is before a registered timer is the registered one before it, or canceled. -/
theorem strungBefore (h : Strung q (l₁ ++ y :: l₂) dead) (none_ : ∀ a ∈ q.prevOf y, dead a) : l₁ = [] := by
  rcases List.eq_nil_or_concat' l₁ with rfl | ⟨l,a,rfl⟩
  · rfl
  · rw [List.append_assoc] at h
    have mem : a ∈ l ++ ([a] ++ y :: l₂) := List.mem_append_right _ List.mem_cons_self
    have next : q.nextOf a = some y := strungNext h
    exact absurd (none_ a (h.back a mem y next)) (h.apart a mem)

theorem strungHead (h : Strung q live dead) (head : q.crontabTimers = some y) :
    Strung q (remaining [y] live) fun z => z = y ∨ dead z := by
  rcases h.first y head with gone | ⟨front,before⟩
  · rw [remainingOther fun mem => h.apart y mem gone,deadAgain gone]
    exact h
  · obtain ⟨l,rfl⟩ := List.head?_eq_some_iff.1 front
    have off : y ∉ l := (List.nodup_cons.1 (segNodup h.walk)).1
    have alive : ¬dead y := h.apart y List.mem_cons_self
    have rest : remaining [y] (y :: l) = l := by
      rw [remainingGone (List.mem_singleton_self y),remainingOther off]
    have next : q.nextOf y = l.head? := segHead h.walk.2
    rw [rest]
    refine ⟨next ▸ h.walk.2,fun a ha => h.back a (List.mem_cons_of_mem y ha),fun b hb a ha => ?_,fun z hz => ?_,
      fun z hz => .inr (h.freed z hz),fun z hz => ?_,fun d hd => ?_⟩
    · rcases h.ahead b (List.mem_cons_of_mem y hb) a ha with gone | ⟨mem,follows⟩
      · exact .inl (.inr gone)
      · rcases List.mem_cons.1 mem with rfl | later
        · exact .inl (.inl rfl)
        · exact .inr ⟨later,follows⟩
    · exact .inl (.inl (Option.some.inj (hz.symm.trans head)))
    · exact not_or.2 ⟨fun same => off (same ▸ hz),h.apart z (List.mem_cons_of_mem y hz)⟩
    · rcases hd with rfl | gone
      · exact ⟨before,fun n hn => .inr ⟨next.symm.trans hn,h.back d List.mem_cons_self n hn⟩⟩
      · refine ⟨(h.idle d gone).1,fun n hn => .inl ?_⟩
        rcases (h.idle d gone).2 n hn with gone' | ⟨same,_⟩
        · exact .inr gone'
        · exact .inl (Option.some.inj same).symm

/- Unlinking a canceled timer again can make the first registered one the first of the list. -/
theorem strungDead (h : Strung q live dead) (gone : dead y) (u : Unlinks q q' y) : Strung q' live dead := by
  have before := (h.idle y gone).1
  have nexts : ∀ z, z ≠ y → q'.nextOf z = q.nextOf z := fun z other => by
    rw [u.next z other,before]
    rfl
  have prevs : ∀ z, z ≠ y → q.nextOf y ≠ some z → q'.prevOf z = q.prevOf z := fun z other off => by
    rw [u.prev z other,relinkApart off]
  have cleared : ∀ z, z ≠ y → q.nextOf y = some z → q'.prevOf z = none := fun z other at_ => by
    rw [u.prev z other,relinkSelf at_,before]
  have others : ∀ z ∈ live, z ≠ y := fun z hz same => h.apart z hz (same ▸ gone)
  have start : q'.crontabTimers = q.nextOf y := by
    rw [u.start,if_neg fun both => both.1 before]
  refine ⟨(segCongr fun a ha => nexts a (others a ha)).2 h.walk,fun a ha b hb => ?_,fun b hb a ha => ?_,fun z hz => ?_,
    ?_,h.apart,fun d hd => ?_⟩
  · rw [nexts a (others a ha)] at hb
    have same := h.back a ha b hb
    have other : b ≠ y := by
      rintro rfl
      rw [before] at same
      cases same
    rw [prevs b other ?_]
    · exact same
    · intro at_
      rcases (h.idle y gone).2 b at_ with goneB | ⟨_,own⟩
      · rw [(h.idle b goneB).1] at same
        cases same
      · exact others a ha (Option.some.inj (same.symm.trans own))
  · by_cases at_ : q.nextOf y = some b
    · rw [cleared b (others b hb) at_] at ha
      cases ha
    · rw [prevs b (others b hb) at_] at ha
      refine (h.ahead b hb a ha).imp id fun kept => ⟨kept.1,?_⟩
      rw [nexts a (others a kept.1)]
      exact kept.2
  · have at_ : q.nextOf y = some z := start.symm.trans hz
    refine ((h.idle y gone).2 z at_).imp id fun front => ⟨front.1,cleared z ?_ at_⟩
    exact others z (List.mem_of_mem_head? front.1)
  · rw [u.rest]
    exact h.freed
  · by_cases here : d = y
    · subst here
      exact ⟨u.self.1,fun n hn => absurd (u.self.2.symm.trans hn) nofun⟩
    · refine ⟨?_,fun n hn => ?_⟩
      · by_cases at_ : q.nextOf y = some d
        · exact cleared d here at_
        · rw [prevs d here at_]
          exact (h.idle d hd).1
      · rw [nexts d here] at hn
        refine ((h.idle d hd).2 n hn).imp id fun front => ⟨front.1,?_⟩
        have listed : n ∈ live := List.mem_of_mem_head? front.1
        rw [prevs n (others n listed) fun at_ => ?_]
        · exact front.2
        · rcases (h.idle y gone).2 n at_ with goneN | ⟨_,own⟩
          · exact h.apart n listed goneN
          · exact here (Option.some.inj (front.2.symm.trans own))

theorem liveOff (h : Strung q (l₁ ++ y :: l₂) dead) : y ∉ l₁ ++ l₂ :=
  (List.nodup_cons.1 (List.perm_middle.nodup_iff.1 (segNodup h.walk))).1

theorem liveOthers (h : Strung q (l₁ ++ y :: l₂) dead) {z : Ptr} (mem : z ∈ l₁ ++ l₂) : z ≠ y :=
  fun same => liveOff h (same ▸ mem)

theorem strungWalk (h : Strung q (l₁ ++ y :: l₂) dead) (u : Unlinks q q' y) :
    Seg q'.nextOf (l₁ ++ l₂).head? (l₁ ++ l₂) none := by
  have off := liveOff h
  have written : ∀ z ∈ l₁ ++ l₂, q'.nextOf z = relink q.nextOf (q.prevOf y) (q.nextOf y) z := fun z hz =>
    u.next z (liveOthers h hz)
  rcases List.eq_nil_or_concat' l₁ with rfl | ⟨l,a,rfl⟩
  · have start := strungNext h
    have rest := h.walk.2
    rw [start] at rest
    refine (segCongr fun z hz => ?_).2 rest
    rw [written z hz,relinkApart fun before => ?_]
    -- a registered timer before y would have it behind itself as well
    rcases h.ahead y List.mem_cons_self z before with gone | ⟨_,toY⟩
    · exact h.apart z (List.mem_cons_of_mem y hz) gone
    · obtain ⟨m₁,m₂,split⟩ := List.append_of_mem (show z ∈ l₂ from hz)
      subst split
      have next : q.nextOf z = m₂.head? := strungNext (show Strung q ((y :: m₁) ++ z :: m₂) dead from h)
      exact off (List.mem_append_right m₁ (List.mem_cons_of_mem z (List.mem_of_mem_head? (next.symm.trans toY))))
  · have before : q.prevOf y = some a := by
      rw [List.append_assoc] at h
      exact h.back a (List.mem_append_right l List.mem_cons_self) y (strungNext h)
    have unlinked := segUnlink h.walk
    rw [List.getLast?_concat,← before] at unlinked
    have all := (segCongr written).2 unlinked
    rw [segHead all] at all
    exact all

theorem liveOld {z : Ptr} (mem : z ∈ l₁ ++ l₂) : z ∈ l₁ ++ y :: l₂ :=
  List.perm_middle.symm.subset (List.mem_cons_of_mem y mem)

theorem liveNew {z : Ptr} (mem : z ∈ l₁ ++ y :: l₂) (other : z ≠ y) : z ∈ l₁ ++ l₂ :=
  (List.mem_cons.1 (List.perm_middle.subset mem)).resolve_left other

/- What follows y is registered, and knows y as the one before. -/
theorem liveFollows (h : Strung q (l₁ ++ y :: l₂) dead) {n : Ptr} (follows : q.nextOf y = some n) :
    n ∈ l₁ ++ l₂ ∧ q.prevOf n = some y :=
  ⟨List.mem_append_right _ (List.mem_of_mem_head? ((strungNext h).symm.trans follows)),
    h.back y (List.mem_append_right _ List.mem_cons_self) n follows⟩

theorem liveHeads {z : Ptr} (front : (l₁ ++ y :: l₂).head? = some z) (other : z ≠ y) : (l₁ ++ l₂).head? = some z := by
  cases l₁ with
  | nil => exact absurd (Option.some.inj front).symm other
  | cons a l => exact front

/- With no registered timer before y, what follows it is the first one then. -/
theorem liveFronts (h : Strung q (l₁ ++ y :: l₂) dead) (none_ : ∀ a ∈ q.prevOf y, dead a) :
    (l₁ ++ l₂).head? = q.nextOf y := by
  rw [strungBefore h none_,strungNext h]
  rfl

theorem liveBack (h : Strung q (l₁ ++ y :: l₂) dead) (u : Unlinks q q' y) :
    ∀ a ∈ l₁ ++ l₂, ∀ b ∈ q'.nextOf a, q'.prevOf b = some a := fun a ha b hb => by
  by_cases at_ : q.prevOf y = some a
  · rw [u.next a (liveOthers h ha),relinkSelf at_] at hb
    rw [u.prev b (liveOthers h (liveFollows h hb).1),relinkSelf hb,at_]
  · rw [u.next a (liveOthers h ha),relinkApart at_] at hb
    have same := h.back a (liveOld ha) b hb
    have other : b ≠ y := fun eq => at_ (eq ▸ same)
    have notNext : q.nextOf y ≠ some b := fun next =>
      liveOthers h ha (Option.some.inj (same.symm.trans (liveFollows h next).2))
    rw [u.prev b other,relinkApart notNext]
    exact same

theorem liveAhead (h : Strung q (l₁ ++ y :: l₂) dead) (u : Unlinks q q' y) :
    ∀ b ∈ l₁ ++ l₂, ∀ a ∈ q'.prevOf b, (a = y ∨ dead a) ∨ a ∈ l₁ ++ l₂ ∧ q'.nextOf a = some b := fun b hb a ha => by
  have mine : y ∈ l₁ ++ y :: l₂ := List.mem_append_right _ List.mem_cons_self
  by_cases at_ : q.nextOf y = some b
  · rw [u.prev b (liveOthers h hb),relinkSelf at_] at ha
    refine (h.ahead y mine a ha).imp .inr fun kept => ?_
    have other : a ≠ y := fun eq => liveOff h (liveFollows h (eq ▸ kept.2)).1
    rw [u.next a other,relinkSelf ha,at_]
    exact ⟨liveNew kept.1 other,rfl⟩
  · rw [u.prev b (liveOthers h hb),relinkApart at_] at ha
    refine (h.ahead b (liveOld hb) a ha).imp .inr fun kept => ?_
    have other : a ≠ y := fun eq => at_ (eq ▸ kept.2)
    have notBefore : q.prevOf y ≠ some a := fun before => by
      rcases h.ahead y mine a before with gone | ⟨_,toY⟩
      · exact h.apart a kept.1 gone
      · exact liveOthers h hb (Option.some.inj (kept.2.symm.trans toY))
    rw [u.next a other,relinkApart notBefore]
    exact ⟨liveNew kept.1 other,kept.2⟩

theorem liveFirst (h : Strung q (l₁ ++ y :: l₂) dead) (u : Unlinks q q' y) :
    ∀ z ∈ q'.crontabTimers, (z = y ∨ dead z) ∨ (l₁ ++ l₂).head? = some z ∧ q'.prevOf z = none := fun z hz => by
  have hz : q'.crontabTimers = some z := hz
  rw [u.start] at hz
  split at hz
  · rename_i both
    refine (h.first z hz).imp .inr fun front => ?_
    have other : z ≠ y := fun eq => both.1 (eq ▸ front.2)
    have notNext : q.nextOf y ≠ some z := fun next => absurd (front.2.symm.trans (liveFollows h next).2) nofun
    rw [u.prev z other,relinkApart notNext]
    exact ⟨liveHeads front.1 other,front.2⟩
  · rename_i notBoth
    have before : q.prevOf y = none := by
      by_contra some_
      exact notBoth ⟨some_,fun none_ => absurd (hz.symm.trans none_) nofun⟩
    rw [u.prev z (liveOthers h (liveFollows h hz).1),relinkSelf hz,before]
    exact .inr ⟨(liveFronts h fun a ha => absurd (before.symm.trans ha) nofun).trans hz,rfl⟩

/- A node canceled before y comes to link to what follows y when it was linked before it. -/
theorem liveIdle (h : Strung q (l₁ ++ y :: l₂) dead) (u : Unlinks q q' y) {d : Ptr} (gone : dead d) :
    q'.prevOf d = none ∧ ∀ n ∈ q'.nextOf d, (n = y ∨ dead n) ∨ (l₁ ++ l₂).head? = some n ∧ q'.prevOf n = some d := by
  have other : d ≠ y := fun eq => h.apart y (List.mem_append_right _ List.mem_cons_self) (eq ▸ gone)
  have notNext : q.nextOf y ≠ some d := fun next => h.apart d (liveOld (liveFollows h next).1) gone
  refine ⟨?_,fun n hn => ?_⟩
  · rw [u.prev d other,relinkApart notNext]
    exact (h.idle d gone).1
  · by_cases at_ : q.prevOf y = some d
    · rw [u.next d other,relinkSelf at_] at hn
      have none_ : ∀ a ∈ q.prevOf y, dead a := fun a ha => Option.some.inj (at_.symm.trans ha) ▸ gone
      rw [u.prev n (liveOthers h (liveFollows h hn).1),relinkSelf hn]
      exact .inr ⟨(liveFronts h none_).trans hn,at_⟩
    · rw [u.next d other,relinkApart at_] at hn
      rcases (h.idle d gone).2 n hn with gone' | ⟨front,before⟩
      · exact .inl (.inr gone')
      · have otherN : n ≠ y := fun eq => at_ (eq ▸ before)
        have notNextN : q.nextOf y ≠ some n := fun next =>
          other (Option.some.inj (before.symm.trans (liveFollows h next).2))
        rw [u.prev n otherN,relinkApart notNextN]
        exact .inr ⟨liveHeads front otherN,before⟩

theorem strungLive (h : Strung q (l₁ ++ y :: l₂) dead) (u : Unlinks q q' y) :
    Strung q' (l₁ ++ l₂) fun z => z = y ∨ dead z := by
  refine ⟨strungWalk h u,liveBack h u,liveAhead h u,liveFirst h u,?_,fun z hz => ?_,fun d hd => ?_⟩
  · rw [u.rest]
    exact fun z hz => .inr (h.freed z hz)
  · exact not_or.2 ⟨liveOthers h hz,h.apart z (liveOld hz)⟩
  · rcases hd with rfl | gone
    · exact ⟨u.self.1,fun n hn => absurd (u.self.2.symm.trans hn) nofun⟩
    · exact liveIdle h u gone

theorem strungUnlink (h : Strung q live dead) (of : y ∈ live ∨ dead y) (runs : q.unlinkCrontab y = some q') :
    Strung q' (remaining [y] live) fun z => z = y ∨ dead z := by
  rcases unlinkCases runs with ⟨head,rfl⟩ | ⟨_,unlinks⟩
  · exact strungHead h head
  · rcases of with mem | gone
    · obtain ⟨l₁,l₂,split⟩ := List.append_of_mem mem
      rw [split] at h ⊢
      rw [remainingAppend,remainingGone (List.mem_singleton_self y),← remainingAppend,remainingOther (liveOff h)]
      exact strungLive h unlinks
    · rw [remainingOther fun mem => h.apart y mem gone,deadAgain gone]
      exact strungDead h gone unlinks

theorem strungFree (h : Strung q live dead) (gone : dead y) (type : (q.nodes y).type = .crontab) :
    Strung (q.freeNode y) live dead := by
  have rest := (freeNodeFreed q y).rest
  have self := freeNodeSelf type
  have nexts : ∀ z, z ≠ y → (q.freeNode y).nextOf z = q.nextOf z := fun z other => by
    simp only [nextOf,freeNodeNodes other]
  have prevs : (q.freeNode y).prevOf = q.prevOf := funext fun z => by
    by_cases here : z = y
    · rw [prevOf,here,self]
      rfl
    · simp only [prevOf,freeNodeNodes here]
  have others : ∀ z ∈ live, z ≠ y := fun z hz same => h.apart z hz (same ▸ gone)
  refine ⟨(segCongr fun a ha => nexts a (others a ha)).2 h.walk,fun a ha b hb => ?_,fun b hb a ha => ?_,?_,?_,h.apart,
    fun d hd => ?_⟩
  · rw [nexts a (others a ha)] at hb
    rw [prevs]
    exact h.back a ha b hb
  · rw [prevs] at ha
    refine (h.ahead b hb a ha).imp id fun kept => ⟨kept.1,?_⟩
    rw [nexts a (others a kept.1)]
    exact kept.2
  · rw [prevs,rest]
    exact h.first
  · have front : (q.freeNode y).freeCrontabTimers = some y := by
      unfold freeNode
      rw [recycleCrontab (by rw [releaseNodes]; exact type)]
    rw [front]
    exact fun z hz => Option.some.inj hz ▸ gone
  · rw [prevs]
    refine ⟨(h.idle d hd).1,fun n hn => ?_⟩
    by_cases here : d = y
    · rw [nextOf,here,self] at hn
      exact .inl (h.freed n hn)
    · rw [nexts d here] at hn
      exact (h.idle d hd).2 n hn

end Strung

/- The queue in a tick: of the timers the list had the ones in live are registered, and
those a cancel has taken, with the nodes that were free, have no entry. -/
structure Parted (q : TimerQueue) (live : List Ptr) (dead : Ptr → Prop) : Prop where
  kept : Kept q
  strung : Strung q live dead
  cron : ∀ z, z ∈ live ∨ dead z → Cron q z
  blank : ∀ d, dead d → (q.nodes d).crontabEntry = none

/- What callbacks that take the timers in taken leave. -/
structure Parts (q q' : TimerQueue) (live taken : List Ptr) (dead : Ptr → Prop) : Prop where
  parted : Parted q' (remaining taken live) fun z => z ∈ taken ∨ dead z
  same : ∀ z ∈ live, z ∉ taken → ∀ now, dueNow q' now z = dueNow q now z

section Parts
variable {q q' q₁ : TimerQueue} {live taken₁ taken₂ : List Ptr} {dead : Ptr → Prop} {y : Ptr}

theorem dueCongr (same : q'.nodes y = q.nodes y) (now : DateTime) : dueNow q' now y = dueNow q now y := by
  unfold dueNow
  rw [same]

theorem partsNone (h : Parted q live dead) : Parts q q live [] dead := by
  refine ⟨?_,fun _ _ _ _ => rfl⟩
  have all : remaining [] live = live := remainingAll fun _ _ => List.not_mem_nil
  have none_ : (fun z => z ∈ ([] : List Ptr) ∨ dead z) = dead :=
    funext fun _ => propext ⟨fun either => either.resolve_left List.not_mem_nil,.inr⟩
  rw [all,none_]
  exact h

theorem partsTrans (one : Parts q q₁ live taken₁ dead)
    (two : Parts q₁ q' (remaining taken₁ live) taken₂ fun z => z ∈ taken₁ ∨ dead z) :
    Parts q q' live (taken₁ ++ taken₂) dead := by
  have both : remaining taken₂ (remaining taken₁ live) = remaining (taken₁ ++ taken₂) live := remainingBoth.symm
  have either : (fun z => z ∈ taken₂ ∨ z ∈ taken₁ ∨ dead z) = fun z => z ∈ taken₁ ++ taken₂ ∨ dead z :=
    funext fun z => propext (by rw [List.mem_append]; tauto)
  refine ⟨both ▸ either ▸ two.parted,fun z hz off now => ?_⟩
  rw [List.mem_append,not_or] at off
  have mem : z ∈ remaining taken₁ live := memRemaining.2 ⟨hz,off.1⟩
  exact (two.same z mem off.2 now).trans (one.same z hz off.1 now)

/- A call that has to do with general timers only, or with none. -/
theorem partsBeside (h : Parted q live dead) (kept : Kept q') (beside : Beside q q') : Parts q q' live [] dead := by
  obtain ⟨_,_,mixed⟩ := h.kept
  have same : ∀ z, z ∈ live ∨ dead z → q'.nodes z = q.nodes z := fun z hz => beside.nodes z (h.cron z hz)
  have nexts : ∀ z, z ∈ live ∨ dead z → q'.nextOf z = q.nextOf z := fun z hz => by simp only [nextOf,same z hz]
  have prevs : ∀ z, z ∈ live ∨ dead z → q'.prevOf z = q.prevOf z := fun z hz => by simp only [prevOf,same z hz]
  have after : ∀ a, a ∈ live ∨ dead a → ∀ b ∈ q.nextOf a, q'.prevOf b = q.prevOf b := fun a ha b hb => by
    simp only [prevOf,beside.nodes b ((mixed.links a (h.cron a ha)).1 b hb)]
  have strung : Strung q' live dead := by
    refine ⟨(segCongr fun a ha => nexts a (.inl ha)).2 h.strung.walk,fun a ha b hb => ?_,fun b hb a ha => ?_,fun z hz => ?_,
      ?_,h.strung.apart,fun d hd => ⟨?_,fun n hn => ?_⟩⟩
    · rw [nexts a (.inl ha)] at hb
      rw [after a (.inl ha) b hb]
      exact h.strung.back a ha b hb
    · rw [prevs b (.inl hb)] at ha
      refine (h.strung.ahead b hb a ha).imp id fun kept => ⟨kept.1,?_⟩
      rw [nexts a (.inl kept.1)]
      exact kept.2
    · rw [beside.crontabTimers] at hz
      refine (h.strung.first z hz).imp id fun front => ⟨front.1,?_⟩
      rw [prevs z (.inl (List.mem_of_mem_head? front.1))]
      exact front.2
    · rw [beside.freeCrontabTimers]
      exact h.strung.freed
    · rw [prevs d (.inr hd)]
      exact (h.strung.idle d hd).1
    · rw [nexts d (.inr hd)] at hn
      rw [after d (.inr hd) n hn]
      exact (h.strung.idle d hd).2 n hn
  have parted : Parted q' live dead :=
    ⟨kept,strung,fun z hz => cronBeside beside (h.cron z hz),fun d hd => by rw [same d (.inr hd)]; exact h.blank d hd⟩
  exact ⟨(partsNone parted).parted,fun z hz _ now => dueCongr (same z (.inl hz)) now⟩

theorem partedCall (h : Parted q live dead) (c : Call) : Parted (q.call c) live dead := by
  obtain ⟨heap,free,mixed⟩ := h.kept
  have strung := h.strung
  exact ⟨⟨heap,free,mixedCalls mixed _⟩,⟨strung.walk,strung.back,strung.ahead,strung.first,strung.freed,strung.apart,
    strung.idle⟩,h.cron,h.blank⟩

theorem partsCalled {c : Call} (h : Parts (q.call c) q' live taken₁ dead) : Parts q q' live taken₁ dead :=
  ⟨h.parted,h.same⟩

theorem partsTake (h : Parted q live dead) (of : y ∈ live ∨ dead y) (runs : q.unlinkCrontab y = some q₁) :
    Parts q (q₁.freeNode y) live [y] dead := by
  obtain ⟨heap,free,mixed⟩ := h.kept
  obtain ⟨mixed₁,stays₁⟩ := unlinkKeeps mixed (h.cron y of) runs
  have cron₁ := stays₁ y (h.cron y of)
  obtain ⟨mixed₂,stays₂⟩ := freeCron mixed₁ cron₁
  have either : (fun z => z ∈ [y] ∨ dead z) = fun z => z = y ∨ dead z :=
    funext fun z => propext (by rw [List.mem_singleton])
  have entries := unlinkEntries runs
  have handlers : ∀ z, (q₁.nodes z).handler = (q.nodes z).handler := fun z => by
    rcases unlinkCases runs with ⟨_,rfl⟩ | ⟨_,unlinks⟩
    · rfl
    · rw [unlinks.fields z]
  refine ⟨?_,fun z hz off now => ?_⟩
  · rw [either]
    refine ⟨⟨heap,free,mixed₂⟩,strungFree (strungUnlink h.strung of runs) (.inl rfl) cron₁.2,fun z hz => ?_,fun d hd => ?_⟩
    · refine stays₂ z (stays₁ z ?_)
      rcases hz with mem | rfl | gone
      · exact h.cron z (.inl (memRemaining.1 mem).1)
      · exact h.cron z of
      · exact h.cron z (.inr gone)
    · by_cases here : d = y
      · rw [here,freeNodeSelf cron₁.2]
      · rw [freeNodeNodes here,entries d]
        exact h.blank d (hd.resolve_left here)
  · have other : z ≠ y := fun same => off (same ▸ List.mem_singleton_self y)
    unfold dueNow
    rw [freeNodeNodes other,entries z,handlers z]

theorem partedFinds (h : Parted q live dead) {id : Int} {fuel : Nat} {start : Option Ptr}
    (from_ : ∀ z ∈ start, z ∈ live ∨ dead z) (runs : q.findCrontab id fuel start = some (some y)) : y ∈ live ∨ dead y := by
  induction fuel generalizing start with
  | zero => cases runs
  | succ fuel ih =>
    cases start with
    | none => cases runs
    | some z =>
      simp only [findCrontab] at runs
      split at runs
      · cases Option.some.inj (Option.some.inj runs)
        exact from_ y rfl
      · refine ih (fun n hn => ?_) runs
        rcases from_ z rfl with mem | gone
        · obtain ⟨l₁,l₂,rfl⟩ := List.append_of_mem mem
          have next : q.nextOf z = l₂.head? := strungNext h.strung
          exact .inl (List.mem_append_right _ (List.mem_cons_of_mem z (List.mem_of_mem_head? (next.symm.trans hn))))
        · rcases (h.strung.idle z gone).2 n hn with gone' | ⟨front,_⟩
          · exact .inr gone'
          · exact .inl (List.mem_of_mem_head? front)

theorem takenOf (h : Parted q live dead) {id : Int} (takes : taken q id = some y) : y ∈ live ∨ dead y := by
  unfold taken at takes
  split at takes
  · cases takes
  · refine partedFinds h (fun z hz => ?_) (Option.join_eq_some_iff.1 takes)
    rcases h.strung.first z hz with gone | ⟨front,_⟩
    · exact .inr gone
    · exact .inl (List.mem_of_mem_head? front)

/- The cancel of a general timer, or of none. -/
theorem partsMiss (h : Parted q live dead) {id : Int} {dontCall : Bool} {r : Int × Option Arg × TimerQueue}
    (missed : taken q id = none) (runs : q.cancel id dontCall = some r) : Parts q r.2.2 live [] dead := by
  obtain ⟨heap,free,mixed⟩ := h.kept
  unfold cancel at runs
  split at runs
  · cases Option.some.inj runs
    exact partsNone h
  · rename_i inside
    unfold taken at missed
    rw [if_neg inside] at missed
    obtain ⟨found,walks,runs⟩ := Option.bind_eq_some_iff.1 runs
    rw [walks] at missed
    cases found with
    | some p => cases missed
    | none =>
      obtain ⟨kept,beside⟩ := cancelGeneralKeeps mixed runs
      exact partsBeside h kept beside

/- A cancel takes one timer after those its handle_close has taken, which can be the same. -/
theorem partsCancel (h : Parted q live dead) {id : Int} {dontCall : Bool}
    {close : TimerQueue → Option (List Ptr × TimerQueue)}
    (closes : ∀ {q : TimerQueue} {r : List Ptr × TimerQueue}, Parted q live dead → close q = some r →
      Parts q r.2 live r.1 dead) {r : List Ptr × TimerQueue} (runs : cancelWith q id dontCall close = some r) :
    Parts q r.2 live r.1 dead := by
  unfold cancelWith at runs
  cases takes : taken q id with
  | none =>
    rw [takes] at runs
    obtain ⟨out,ran,rfl⟩ := Option.map_eq_some_iff.1 runs
    exact partsMiss h takes ran
  | some iter =>
    rw [takes] at runs
    obtain ⟨closed,ran,runs⟩ := Option.bind_eq_some_iff.1 runs
    obtain ⟨unlinked,unlinks,runs⟩ := Option.bind_eq_some_iff.1 runs
    cases Option.some.inj runs
    have first : Parts q closed.2 live closed.1 dead := by
      unfold closeFirst at ran
      split at ran
      · exact partsCalled (closes (partedCall h _) ran)
      · cases Option.some.inj ran
        exact partsNone h
    refine partsTrans first (partsTake first.parted ?_ unlinks)
    rcases takenOf h takes with mem | gone
    · by_cases already : iter ∈ closed.1
      · exact .inr (.inl already)
      · exact .inl (memRemaining.2 ⟨mem,already⟩)
    · exact .inr (.inr gone)

theorem partsCancels {cs : Cancels} (h : Parted q live dead) {r : List Ptr × TimerQueue} (runs : cancels q cs = some r) :
    Parts q r.2 live r.1 dead := by
  induction cs generalizing q live dead r with
  | done =>
    cases Option.some.inj runs
    exact partsNone h
  | next timerId dontCall close rest ihClose ihRest =>
    obtain ⟨out,ran,runs⟩ := Option.bind_eq_some_iff.1 runs
    obtain ⟨later,went,runs⟩ := Option.bind_eq_some_iff.1 runs
    cases Option.some.inj runs
    have first := partsCancel h (fun parted ran => ihClose parted ran) ran
    exact partsTrans first (ihRest first.parted went)

theorem partsServe (h : Parted q live dead) {tv : TimeValue} {does : Upcall} {node : Ptr} {eh : Handler}
    {r : List Ptr × TimerQueue} (runs : serve q tv does node eh = some r) : Parts q r.2 live r.1 dead := by
  obtain ⟨called,ran,runs⟩ := Option.bind_eq_some_iff.1 runs
  have first := partsCalled (partsCancels (partedCall h _) ran)
  split at runs
  · cases Option.some.inj runs
    exact first
  · obtain ⟨closed,went,runs⟩ := Option.bind_eq_some_iff.1 runs
    cases Option.some.inj runs
    exact partsTrans first (partsCalled (partsCancels (partedCall first.parted _) went))

end Parts

/- The crontab list is l, linked both ways, and the other nodes of crontab timers have no
entry. -/
def Ready (q : TimerQueue) (l : List Ptr) : Prop :=
  ∃ heap free freeCrontab, Filed q heap free l freeCrontab ∧ Emptied q l

section Ready
variable {q : TimerQueue} {l : List Ptr}

theorem partedReady (h : Ready q l) : ∃ dead, Parted q l dead := by
  obtain ⟨heap,free,freed,filed,emptied⟩ := h
  have walk := filedWalk filed
  have start := (Lib.dllEnds walk).1
  have cron := filedCron filed
  have apart := List.nodup_append.1 (filedApart filed)
  have off : ∀ d ∈ freed, d ∉ l := fun d hd mem => apart.2.2 d mem d hd rfl
  have idle : ∀ d ∈ freed, (q.nodes d).crontabEntry = none ∧ q.prevOf d = none := fun d hd =>
    emptied d (cron d (List.mem_append_right l hd)) (off d hd)
  have follows : ∀ d ∈ freed, ∀ n ∈ q.nextOf d, n ∈ freed := fun d hd n hn => by
    obtain ⟨m₁,m₂,split⟩ := List.append_of_mem hd
    have links : Seg q.nextOf q.freeCrontabTimers freed none := filed.shape.freeCrontab
    rw [split] at links ⊢
    obtain ⟨m,_,rest⟩ := segAppend.1 links
    exact List.mem_append_right _ (List.mem_cons_of_mem d (List.mem_of_mem_head? ((segHead rest.2).symm.trans hn)))
  refine ⟨fun z => z ∈ freed,⟨heap,free,filed.mixed⟩,⟨start ▸ walk.forth,fun a ha b hb => ?_,fun b hb a ha => ?_,
    fun z hz => ?_,fun z hz => ?_,fun z hz mem => off z mem hz,fun d hd => ⟨(idle d hd).2,fun n hn => .inl (follows d hd n hn)⟩⟩,
    fun z hz => cron z (List.mem_append.2 hz),fun d hd => (idle d hd).1⟩
  · exact (Lib.dllFollows walk ha hb).2
  · obtain ⟨mem,follows⟩ := Lib.dllFollows (Lib.dllSymm walk) (List.mem_reverse.2 hb) ha
    exact .inr ⟨List.mem_reverse.1 mem,follows⟩
  · have front : l.head? = some z := start.symm.trans hz
    obtain ⟨m,rfl⟩ := List.head?_eq_some_iff.1 front
    exact .inr ⟨front,(Lib.dllFirst walk).2⟩
  · have links : Seg q.nextOf q.freeCrontabTimers freed none := filed.shape.freeCrontab
    exact List.mem_of_mem_head? ((segHead links).symm.trans hz)

/- Runs that take neither the first nor the last timer of the list get there. -/
theorem reachedReady {maxSize : Int} {preAlloc : Nat} {ops : List Op} (two : 2 ≤ preAlloc)
    (inside : Along apply Inside (make maxSize preAlloc) ops) (reached : run apply (make maxSize preAlloc) ops = some q) :
    Ready q (crontabList q) := by
  let Readied (s : TimerQueue) : Prop := ∃ l, Ready s l
  have always : Always apply Readied (make maxSize preAlloc) ops := by
    refine alwaysOfInvariant (fun s op t h ok runs => ?_) ?_ inside
    · obtain ⟨_,_,_,_,filed,emptied⟩ := h
      obtain ⟨heap',free',crontab',freeCrontab',filed',carries⟩ := applyFiled filed ok runs
      exact ⟨crontab',heap',free',freeCrontab',filed',carries.emptied emptied⟩
    · obtain ⟨heap,free,filed⟩ := startFiled maxSize two
      refine ⟨[],heap,free,[],filed,fun z cron _ => ?_⟩
      have type : TimerType.general = .crontab := cron.2
      cases type
  obtain ⟨l,heap,free,freed,filed,emptied⟩ := alwaysAtEnd always reached
  rw [crontabListIs filed]
  exact ⟨heap,free,freed,filed,emptied⟩

end Ready

end CuteNdk.TimerTick
