import CuteNdk.MessageQueue

/-! The waits of message_queue. A call sleeps on not_empty_cond_ or not_full_cond_
until its queue lets it go on, and then wakes one sleeper of the other condition,
however many blocks it has moved. -/
namespace CuteNdk.MessageQueue
open Lib

/- Which of the two conditions is waited on. -/
inductive Side where | notEmpty | notFull deriving DecidableEq, Repr

def Op.waitsOn : Op → Side
  | .enqueueTail _ | .enqueueHead _ | .link _ _ _ => .notFull
  | .dequeueHead | .dequeueTail | .dequeueHeadN _ | .dequeueTailN _ => .notEmpty

def Side.other : Side → Side
  | .notEmpty => .notFull
  | .notFull => .notEmpty

/- A thread outside the queue, in a wait, or woken and not yet back in the loop. -/
inductive Thread where
  | outside
  | sleeping (call : Op)
  | woken (call : Op)
  deriving DecidableEq, Repr

def Thread.sleepsOn (side : Side) : Thread → Bool
  | .sleeping call => call.waitsOn = side
  | _ => false

def Thread.wokenOn (side : Side) : Thread → Bool
  | .woken call => call.waitsOn = side
  | _ => false

section Threads
variable (side : Side) (call : Op)

@[simp] theorem outsideSleeps : Thread.outside.sleepsOn side = false := rfl
@[simp] theorem outsideWoken : Thread.outside.wokenOn side = false := rfl
@[simp] theorem sleepingSleeps : (Thread.sleeping call).sleepsOn side = decide (call.waitsOn = side) := rfl
@[simp] theorem sleepingWoken : (Thread.sleeping call).wokenOn side = false := rfl
@[simp] theorem wokenSleeps : (Thread.woken call).sleepsOn side = false := rfl
@[simp] theorem wokenWoken : (Thread.woken call).wokenOn side = decide (call.waitsOn = side) := rfl

end Threads

/- The queue as the list it stands for, and the threads that call it. -/
structure Shared where
  highWaterMark : Nat
  blocks : List Block
  threads : List Thread
  deriving DecidableEq, Repr

namespace Shared

def sleepers (s : Shared) (side : Side) : Nat := s.threads.countP (Thread.sleepsOn side)

def wakened (s : Shared) (side : Side) : Nat := s.threads.countP (Thread.wokenOn side)

/- The test of wait_not_full_cond or of wait_not_empty_cond. -/
def Blocked (s : Shared) : Side → Prop
  | .notFull => s.highWaterMark ≤ s.blocks.length
  | .notEmpty => s.blocks = []

instance (s : Shared) : (side : Side) → Decidable (s.Blocked side)
  | .notFull => inferInstanceAs (Decidable (_ ≤ _))
  | .notEmpty => inferInstanceAs (Decidable (_ = _))

def set (s : Shared) (t : Nat) (th : Thread) : Shared := { s with threads := s.threads.set t th }

/- signal(): the system picks one of the sleepers, if there is one. -/
def signal (s : Shared) (side : Side) (wake : Option Nat) : Option Shared :=
  match wake with
  | none => if s.sleepers side = 0 then some s else none
  | some w =>
    match s.threads[w]? with
    | some (.sleeping call) => if call.waitsOn = side then some (s.set w (.woken call)) else none
    | _ => none

def move (s : Shared) (call : Op) : Shared := { s with blocks := (answer s.blocks call).blocks }

/- The critical section of a call, from the loop of its wait on. -/
def proceed (s : Shared) (t : Nat) (call : Op) (wake : Option Nat) : Option Shared :=
  if s.Blocked call.waitsOn then some (s.set t (.sleeping call))
  else ((s.move call).set t .outside).signal call.waitsOn.other wake

end Shared

/- Calls that move a block or more and have no timeout. -/
def Op.Moves : Op → Prop
  | .link _ _ _ => False
  | .enqueueTail chain | .enqueueHead chain => chain ≠ []
  | .dequeueHead | .dequeueTail => True
  | .dequeueHeadN k | .dequeueTailN k => k = -1 ∨ 1 ≤ k

instance : (op : Op) → Decidable op.Moves
  | .link _ _ _ => isFalse id
  | .enqueueTail _ => inferInstanceAs (Decidable (_ ≠ _))
  | .enqueueHead _ => inferInstanceAs (Decidable (_ ≠ _))
  | .dequeueHead => isTrue trivial
  | .dequeueTail => isTrue trivial
  | .dequeueHeadN _ => inferInstanceAs (Decidable (_ ∨ _))
  | .dequeueTailN _ => inferInstanceAs (Decidable (_ ∨ _))

inductive Turn where
  | enter (t : Nat) (call : Op) (wake : Option Nat)
  | recheck (t : Nat) (wake : Option Nat)
  deriving DecidableEq, Repr

def turn (s : Shared) : Turn → Option Shared
  | .enter t call wake =>
    if s.threads[t]? = some .outside ∧ call.Moves then s.proceed t call wake else none
  | .recheck t wake =>
    match s.threads[t]? with
    | some (.woken call) => s.proceed t call wake
    | _ => none

/- Whoever sleeps on a condition that is met has a woken one ahead of it. -/
def NoLostWakeup (s : Shared) : Prop :=
  ∀ side, 0 < s.sleepers side → ¬ s.Blocked side → 0 < s.wakened side

instance (s : Shared) : Decidable (NoLostWakeup s) :=
  decidable_of_iff
    ((0 < s.sleepers .notEmpty → ¬ s.Blocked .notEmpty → 0 < s.wakened .notEmpty) ∧
      (0 < s.sleepers .notFull → ¬ s.Blocked .notFull → 0 < s.wakened .notFull))
    ⟨fun both side => by cases side; exacts [both.1,both.2],fun all => ⟨all .notEmpty,all .notFull⟩⟩

/- How many calls of a kind could go on one after the other. -/
def Shared.open_ (s : Shared) : Side → Nat
  | .notEmpty => s.blocks.length
  | .notFull => s.highWaterMark - s.blocks.length

/- The same once the call is through, from the lengths of what it moves. -/
def openAfter (s : Shared) : Op → Nat
  | .link _ _ _ => 0
  | .enqueueTail chain | .enqueueHead chain => s.blocks.length + chain.length
  | .dequeueHead | .dequeueTail => s.highWaterMark - (s.blocks.length - 1)
  | .dequeueHeadN k | .dequeueTailN k =>
    s.highWaterMark - if k = -1 then 0 else s.blocks.length - k.toNat

/- The one sleeper the call wakes is the last one, or no more are needed: those
woken before and this one can take all the call makes ready. -/
def Covered (s : Shared) (call : Op) : Prop :=
  ¬ s.Blocked call.waitsOn → s.sleepers call.waitsOn.other ≤ 1 ∨
    openAfter s call ≤ s.wakened call.waitsOn.other + 1

instance (s : Shared) (call : Op) : Decidable (Covered s call) :=
  inferInstanceAs (Decidable (_ → _ ∨ _))

/- The call a turn is of. -/
def calling (s : Shared) : Turn → Option Op
  | .enter _ call _ => some call
  | .recheck t _ =>
    match s.threads[t]? with
    | some (.woken call) => some call
    | _ => none

def TurnCovered (s : Shared) (a : Turn) : Prop := ∀ call ∈ calling s a, Covered s call

instance (s : Shared) (a : Turn) : Decidable (TurnCovered s a) :=
  inferInstanceAs (Decidable (∀ call ∈ calling s a, Covered s call))

/- The invariant: while somebody sleeps, there is a woken one for every call that
could go on. -/
def Balanced (s : Shared) : Prop := ∀ side, 0 < s.sleepers side → s.open_ side ≤ s.wakened side

theorem balancedNoLost {s : Shared} (h : Balanced s) : NoLostWakeup s := by
  intro side asleep ready
  refine Nat.lt_of_lt_of_le ?_ (h side asleep)
  cases side with
  | notEmpty => exact List.length_pos_iff.2 ready
  | notFull =>
    have below : s.blocks.length < s.highWaterMark := Nat.not_le.1 ready
    exact Nat.sub_pos_of_lt below

/- The tests of the code on the queue are those on the list. -/
theorem blockedIff {q : MessageQueue} {l : List Block} (h : Rep q l) (threads : List Thread) :
    (q.isEmptyI = true ↔ (⟨q.highWaterMark,l,threads⟩ : Shared).Blocked .notEmpty) ∧
      (q.isFullI = true ↔ (⟨q.highWaterMark,l,threads⟩ : Shared).Blocked .notFull) := by
  refine ⟨emptyIff h,?_⟩
  rw [isFullI,h.count,decide_eq_true_iff]
  rfl

section Counting
variable {s : Shared} {t : Nat} {old : Thread} (new : Thread) (side : Side)

theorem setCount (p : Thread → Bool) (at_ : s.threads[t]? = some old) :
    (s.set t new).threads.countP p + (if p old then 1 else 0) =
      s.threads.countP p + if p new then 1 else 0 := by
  obtain ⟨inside,same⟩ := List.getElem?_eq_some_iff.1 at_
  have mem : old ∈ s.threads := List.mem_of_getElem? at_
  have set_ := List.countP_set (p := p) (a := new) inside
  rw [same] at set_
  have counted : (if p old then 1 else 0) ≤ s.threads.countP p := by
    split
    · exact List.countP_pos_iff.2 ⟨old,mem,‹_›⟩
    · exact Nat.zero_le _
  simp only [Shared.set]
  omega

theorem setSleepers (at_ : s.threads[t]? = some old) :
    (s.set t new).sleepers side + (if old.sleepsOn side then 1 else 0) =
      s.sleepers side + if new.sleepsOn side then 1 else 0 := setCount new _ at_

theorem setWakened (at_ : s.threads[t]? = some old) :
    (s.set t new).wakened side + (if old.wokenOn side then 1 else 0) =
      s.wakened side + if new.wokenOn side then 1 else 0 := setCount new _ at_

end Counting

theorem otherOther (side : Side) : side.other.other = side := by cases side <;> rfl

theorem otherNe (side : Side) : side ≠ side.other := by cases side <;> decide

theorem eqOther {side own : Side} (apart : side ≠ own) : side = own.other := by
  cases side <;> cases own <;> first | rfl | exact absurd rfl apart

/- What a signal does to the counts of its side, and to nothing else. -/
theorem signalCounts {s s' : Shared} {side : Side} {wake : Option Nat} (signals : s.signal side wake = some s') :
    s'.sleepers side = s.sleepers side - 1 ∧
      s'.wakened side = s.wakened side + (if s.sleepers side = 0 then 0 else 1) ∧
      s'.sleepers side.other = s.sleepers side.other ∧ s'.wakened side.other = s.wakened side.other ∧
      s'.blocks = s.blocks ∧ s'.highWaterMark = s.highWaterMark := by
  unfold Shared.signal at signals
  cases wake with
  | none =>
    simp only at signals
    split at signals
    · rename_i none_
      cases Option.some.inj signals
      simp [none_]
    · contradiction
  | some w =>
    simp only at signals
    split at signals
    · rename_i call at_
      split at signals
      · rename_i same
        cases Option.some.inj signals
        have apart := otherNe side
        have one := setSleepers (.woken call) side at_
        have two := setWakened (.woken call) side at_
        have three := setSleepers (.woken call) side.other at_
        have four := setWakened (.woken call) side.other at_
        simp only [sleepingSleeps,sleepingWoken,wokenSleeps,wokenWoken,same,apart,decide_true,decide_false,
          if_true,Bool.false_eq_true,if_false] at one two three four
        have some_ : s.sleepers side ≠ 0 := by omega
        refine ⟨by omega,?_,by omega,by omega,rfl,rfl⟩
        rw [if_neg some_]
        omega
      · contradiction
    · contradiction

/- A call that gets through leaves fewer open calls on its own side. -/
theorem answerOpens {s : Shared} {call : Op} (moves : call.Moves) (ready : ¬ s.Blocked call.waitsOn) :
    openAfter s call = (s.move call).open_ call.waitsOn.other ∧
      (s.move call).open_ call.waitsOn < s.open_ call.waitsOn := by
  cases call with
  | link b p n => exact absurd moves id
  | enqueueTail chain =>
    have some_ := List.length_pos_iff.2 moves
    have below : s.blocks.length < s.highWaterMark := Nat.not_le.1 ready
    simp only [openAfter,Shared.open_,Shared.move,Op.waitsOn,Side.other,answer,List.length_append,true_and]
    omega
  | enqueueHead chain =>
    have some_ := List.length_pos_iff.2 moves
    have below : s.blocks.length < s.highWaterMark := Nat.not_le.1 ready
    simp only [openAfter,Shared.open_,Shared.move,Op.waitsOn,Side.other,answer,List.length_append]
    exact ⟨by omega,by omega⟩
  | dequeueHead =>
    have some_ := List.length_pos_iff.2 ready
    simp only [openAfter,Shared.open_,Shared.move,Op.waitsOn,Side.other,answer,List.length_drop,true_and]
    omega
  | dequeueTail =>
    have some_ := List.length_pos_iff.2 ready
    simp only [openAfter,Shared.open_,Shared.move,Op.waitsOn,Side.other,answer,List.length_take]
    exact ⟨by omega,by omega⟩
  | dequeueHeadN k =>
    have some_ := List.length_pos_iff.2 ready
    simp only [openAfter,Shared.open_,Shared.move,Op.waitsOn,Side.other,answer]
    rcases moves with rfl | pos
    · simpa using some_
    · rw [if_neg (show ¬ k = -1 by omega),if_neg (show ¬ k = -1 by omega)]
      simp only [List.length_drop,true_and]
      omega
  | dequeueTailN k =>
    have some_ := List.length_pos_iff.2 ready
    simp only [openAfter,Shared.open_,Shared.move,Op.waitsOn,Side.other,answer]
    rcases moves with rfl | pos
    · simpa using some_
    · rw [if_neg (show ¬ k = -1 by omega),if_neg (show ¬ k = -1 by omega)]
      simp only [List.length_take]
      exact ⟨by omega,by omega⟩

/- The step of the invariant: old is outside for a new call and woken for one that
checks again. -/
theorem proceedBalanced {s s' : Shared} {t : Nat} {call : Op} {wake : Option Nat} {old : Thread}
    (at_ : s.threads[t]? = some old) (awake : old = .outside ∨ old = .woken call) (moves : call.Moves)
    (h : Balanced s) (covered : Covered s call) (goes : s.proceed t call wake = some s') : Balanced s' := by
  have asleep : ∀ side, old.sleepsOn side = false := by
    rcases awake with rfl | rfl <;> exact fun _ => rfl
  have wokenOther : old.wokenOn call.waitsOn.other = false := by
    rcases awake with rfl | rfl
    · rfl
    · have apart := otherNe call.waitsOn
      simp [apart]
  have wokenOwn : (if old.wokenOn call.waitsOn then 1 else 0) ≤ 1 := by split <;> omega
  unfold Shared.proceed at goes
  split at goes
  · rename_i blocked
    cases Option.some.inj goes
    have ownSleep := setSleepers (.sleeping call) call.waitsOn.other at_
    have ownWoken := setWakened (.sleeping call) call.waitsOn.other at_
    have apart := otherNe call.waitsOn
    simp only [asleep,wokenOther,sleepingSleeps,sleepingWoken,apart,decide_false,Bool.false_eq_true,
      if_false] at ownSleep ownWoken
    intro side sleeps
    by_cases own : side = call.waitsOn
    · -- nothing is open on the side it waits on
      subst own
      have closed : (s.set t (.sleeping call)).open_ call.waitsOn = 0 := by
        cases side : call.waitsOn with
        | notFull => rw [side] at blocked; exact Nat.sub_eq_zero_of_le blocked
        | notEmpty => rw [side] at blocked; exact List.length_eq_zero_iff.2 blocked
      rw [closed]
      exact Nat.zero_le _
    · have other := eqOther own
      subst other
      have before := h call.waitsOn.other (by omega)
      have same : (s.set t (.sleeping call)).open_ call.waitsOn.other = s.open_ call.waitsOn.other := by
        cases call.waitsOn <;> rfl
      omega
  · rename_i ready
    obtain ⟨after,fewer⟩ := answerOpens moves ready
    obtain ⟨sleepers,wakened,sleepersOwn,wakenedOwn,blocks,high⟩ := signalCounts goes
    rw [otherOther] at sleepersOwn wakenedOwn
    have opens : ∀ side, s'.open_ side = (s.move call).open_ side := by
      intro side
      cases side <;> simp only [Shared.open_,blocks,high,Shared.set]
    have atM : (s.move call).threads[t]? = some old := at_
    have one := setSleepers .outside call.waitsOn atM
    have two := setWakened .outside call.waitsOn atM
    have three := setSleepers .outside call.waitsOn.other atM
    have four := setWakened .outside call.waitsOn.other atM
    have sleepersM : ∀ side, (s.move call).sleepers side = s.sleepers side := fun _ => rfl
    have wakenedM : ∀ side, (s.move call).wakened side = s.wakened side := fun _ => rfl
    simp only [asleep,wokenOther,outsideSleeps,outsideWoken,Bool.false_eq_true,if_false,sleepersM,wakenedM]
      at one two three four
    intro side sleeps
    rw [opens side]
    by_cases own : side = call.waitsOn
    · subst own
      have before := h call.waitsOn (by omega)
      omega
    · have other := eqOther own
      subst other
      rw [← after]
      rcases covered ready with last | enough
      · omega
      · split at wakened <;> omega

/- The call a thread is in. -/
def Thread.call : Thread → Option Op
  | .outside => none
  | .sleeping call | .woken call => some call

def Called (s : Shared) : Prop := ∀ th ∈ s.threads, ∀ call ∈ th.call, call.Moves

theorem turnBalanced {s s' : Shared} {a : Turn} (called : Called s)
    (h : Balanced s) (covered : TurnCovered s a) (turns : turn s a = some s') : Balanced s' := by
  cases a with
  | enter t call wake =>
    simp only [turn] at turns
    split at turns
    · rename_i ok
      exact proceedBalanced ok.1 (.inl rfl) ok.2 h (covered call rfl) turns
    · contradiction
  | recheck t wake =>
    simp only [turn] at turns
    split at turns
    · rename_i call at_
      have sound := called (.woken call) (List.mem_of_getElem? at_) call rfl
      exact proceedBalanced at_ (.inr rfl) sound h (covered call (by simp [calling,at_])) turns
    · contradiction

theorem setCalled {s : Shared} {t : Nat} {th : Thread} (h : Called s) (moves : ∀ call ∈ th.call, call.Moves) :
    Called (s.set t th) := by
  intro x mem
  rcases List.mem_or_eq_of_mem_set mem with old | rfl
  · exact h x old
  · exact moves

theorem signalCalled {s s' : Shared} {side : Side} {wake : Option Nat} (h : Called s)
    (signals : s.signal side wake = some s') : Called s' := by
  unfold Shared.signal at signals
  cases wake with
  | none =>
    simp only at signals
    split at signals
    · cases Option.some.inj signals
      exact h
    · contradiction
  | some w =>
    simp only at signals
    split at signals
    · rename_i call at_
      split at signals
      · cases Option.some.inj signals
        exact setCalled h (h (.sleeping call) (List.mem_of_getElem? at_))
      · contradiction
    · contradiction

theorem proceedCalled {s s' : Shared} {t : Nat} {call : Op} {wake : Option Nat} (h : Called s)
    (moves : call.Moves) (goes : s.proceed t call wake = some s') : Called s' := by
  unfold Shared.proceed at goes
  split at goes
  · cases Option.some.inj goes
    refine setCalled h ?_
    rintro _ ⟨⟩
    exact moves
  · have outside : ∀ call ∈ Thread.outside.call, call.Moves := fun call mem =>
      absurd mem (Option.some_ne_none call).symm
    exact signalCalled (setCalled (s := s.move call) h outside) goes

theorem turnCalled {s s' : Shared} {a : Turn} (h : Called s) (turns : turn s a = some s') : Called s' := by
  cases a with
  | enter t call wake =>
    simp only [turn] at turns
    split at turns
    · rename_i ok
      exact proceedCalled h ok.2 turns
    · contradiction
  | recheck t wake =>
    simp only [turn] at turns
    split at turns
    · rename_i call at_
      exact proceedCalled h (h _ (List.mem_of_getElem? at_) call rfl) turns
    · contradiction

/- Any number of threads, none of them in a call yet. -/
def Shared.make (highWaterMark threads : Nat) : Shared := ⟨highWaterMark,[],List.replicate threads .outside⟩

theorem makeBalanced (highWaterMark threads : Nat) :
    Called (Shared.make highWaterMark threads) ∧ Balanced (Shared.make highWaterMark threads) := by
  refine ⟨fun th mem => ?_,fun side asleep => ?_⟩
  · rw [List.eq_of_mem_replicate mem]
    exact nofun
  · obtain ⟨th,mem,sleeps⟩ := List.countP_pos_iff.1 asleep
    rw [List.eq_of_mem_replicate mem] at sleeps
    contradiction

theorem wakesWhileCovered (highWaterMark threads : Nat) (as : List Turn)
    (covered : Along turn TurnCovered (Shared.make highWaterMark threads) as) :
    Always turn NoLostWakeup (Shared.make highWaterMark threads) as := by
  have keeps : ∀ s a s', (Called s ∧ Balanced s) → TurnCovered s a → turn s a = some s' →
      Called s' ∧ Balanced s' := fun _ _ _ h covered turns =>
    ⟨turnCalled h.1 turns,turnBalanced h.1 h.2 covered turns⟩
  exact alwaysMono (fun _ h => balancedNoLost h.2)
    (alwaysOfInvariant keeps (makeBalanced highWaterMark threads) covered)

/- Two consumers sleep, and two single blocks wake them one after the other. -/
theorem twoBlocksWakeTwo : Always turn NoLostWakeup (Shared.make 4 3)
    [.enter 0 .dequeueHead none,.enter 1 .dequeueHead none,.enter 2 (.enqueueTail [1]) (some 0),
      .enter 2 (.enqueueTail [2]) (some 1),.recheck 0 none,.recheck 1 none] :=
  wakesWhileCovered 4 3 _ (by decide +kernel)

/- A chain of two wakes only one of them: the other sleeps on by a block. -/
theorem chainLosesWakeup : ¬ Always turn NoLostWakeup (Shared.make 4 3)
    [.enter 0 .dequeueHead none,.enter 1 .dequeueHead none,.enter 2 (.enqueueTail [1,2]) (some 0),
      .recheck 0 none] := by
  decide +kernel

/- Calls of one block each. -/
def Op.single : Op → Bool
  | .enqueueTail chain | .enqueueHead chain => chain.length = 1
  | .dequeueHead | .dequeueTail => true
  | .dequeueHeadN k | .dequeueTailN k => k = 1
  | .link _ _ _ => false

theorem singleCovered {s : Shared} {call : Op} (single : call.single = true) (h : Balanced s) : Covered s call := by
  intro ready
  by_cases last : s.sleepers call.waitsOn.other ≤ 1
  · exact .inl last
  · have before := h call.waitsOn.other (by omega)
    refine .inr (Nat.le_trans ?_ (Nat.succ_le_succ before))
    cases call with
    | link b p n => contradiction
    | enqueueTail chain =>
      have one : chain.length = 1 := of_decide_eq_true single
      simp only [openAfter,Shared.open_,Op.waitsOn,Side.other]
      omega
    | enqueueHead chain =>
      have one : chain.length = 1 := of_decide_eq_true single
      simp only [openAfter,Shared.open_,Op.waitsOn,Side.other]
      omega
    | dequeueHead =>
      simp only [openAfter,Shared.open_,Op.waitsOn,Side.other]
      omega
    | dequeueTail =>
      simp only [openAfter,Shared.open_,Op.waitsOn,Side.other]
      omega
    | dequeueHeadN k =>
      obtain rfl : k = 1 := of_decide_eq_true single
      have one : ¬ (1 : Int) = -1 := by decide
      simp only [openAfter,Shared.open_,Op.waitsOn,Side.other,if_neg one,Int.toNat_one]
      omega
    | dequeueTailN k =>
      obtain rfl : k = 1 := of_decide_eq_true single
      have one : ¬ (1 : Int) = -1 := by decide
      simp only [openAfter,Shared.open_,Op.waitsOn,Side.other,if_neg one,Int.toNat_one]
      omega

/- So no run of single-block calls loses a wakeup. -/
theorem singlesNeverLose (highWaterMark threads : Nat) (as : List Turn)
    (singles : Along turn (fun s a => ∀ call ∈ calling s a, call.single = true)
      (Shared.make highWaterMark threads) as) :
    Always turn NoLostWakeup (Shared.make highWaterMark threads) as := by
  have keeps : ∀ s a s', (Called s ∧ Balanced s) → (∀ call ∈ calling s a, call.single = true) →
      turn s a = some s' → Called s' ∧ Balanced s' := fun _ _ _ h singles turns =>
    ⟨turnCalled h.1 turns,
      turnBalanced h.1 h.2 (fun call mem => singleCovered (singles call mem) h.2) turns⟩
  exact alwaysMono (fun _ h => balancedNoLost h.2)
    (alwaysOfInvariant keeps (makeBalanced highWaterMark threads) singles)

end CuteNdk.MessageQueue
