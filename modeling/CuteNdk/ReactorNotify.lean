import CuteNdk.Lib.Linked
import CuteNdk.Lib.Run
import Mathlib.Data.List.Nodup
import Mathlib.Tactic.Common

/-! unix_reactor_notify: notify queues a tuple and writes one byte to the pipe,
handle_input reads a byte, pops a tuple and calls handle_msg, which may notify in its
turn. notify and read_notify_msg run under notify_mutex_, so a step is one of them or
one way into or out of an upcall. A result of none is an assertion that fails or a
pointer that must not be followed. -/
namespace CuteNdk.ReactorNotify
open Lib

abbrev Ptr := Nat

variable {H M : Type}

/- What notify was called with; id counts the calls. -/
structure Call (H M : Type) where
  id : Nat
  eventHandler : Option H
  msg : M
  deriving DecidableEq, Repr

/- The tuples are numbered as new makes them. tuple is the event_handler_ and msg_ of
each, pipe the bytes in the pipe. -/
structure UnixReactorNotify (H M : Type) where
  notifyMsgQueue : Option Ptr
  notifyMsgQueueTail : Option Ptr
  freeNotifyMsgQueue : Option Ptr
  tuple : Ptr → Option (Call H M)
  next : Ptr → Option Ptr
  made : Nat
  pipe : Nat

namespace UnixReactorNotify

def opened : UnixReactorNotify H M := ⟨none,none,none,fun _ => none,fun _ => none,0,0⟩

def allocNotifyTuple (n : UnixReactorNotify H M) (c : Call H M) : Ptr × UnixReactorNotify H M :=
  match n.freeNotifyMsgQueue with
  | none =>
    (n.made,{ n with
      made := n.made + 1
      tuple := Function.update n.tuple n.made (some c)
      next := Function.update n.next n.made none })
  | some t =>
    (t,{ n with
      freeNotifyMsgQueue := n.next t
      tuple := Function.update n.tuple t (some c)
      next := Function.update n.next t none })

def releaseNotifyTuple (n : UnixReactorNotify H M) : Option Ptr → UnixReactorNotify H M
  | none => n
  | some t => { n with next := Function.update n.next t n.freeNotifyMsgQueue, freeNotifyMsgQueue := some t }

def pushNotifyTuple (n : UnixReactorNotify H M) (t : Ptr) : UnixReactorNotify H M :=
  match n.notifyMsgQueueTail with
  | none => { n with notifyMsgQueue := some t, notifyMsgQueueTail := some t }
  | some last => { n with next := Function.update n.next last (some t), notifyMsgQueueTail := some t }

def popNotifyTuple (n : UnixReactorNotify H M) : Option Ptr × UnixReactorNotify H M :=
  match n.notifyMsgQueue with
  | none => (none,n)
  | some t =>
    (some t,{ n with
      notifyMsgQueue := n.next t
      notifyMsgQueueTail := if n.next t = none then none else n.notifyMsgQueueTail })

/- wrote is whether the byte went into the pipe. -/
def notify (n : UnixReactorNotify H M) (c : Call H M) (wrote : Bool) : Int × UnixReactorNotify H M :=
  let allocated := n.allocNotifyTuple c
  let t := allocated.1
  let n := allocated.2
  if wrote then (0,{ n with pipe := n.pipe + 1 }.pushNotifyTuple t)
  else (-1,n.releaseNotifyTuple (some t))

/- The tuple that is read, if one is; got is whether a byte came out of the pipe. -/
def readNotifyMsg (n : UnixReactorNotify H M) (freeTuple : Option Ptr) (got : Bool) :
    Option (Option Ptr × UnixReactorNotify H M) :=
  let n := n.releaseNotifyTuple freeTuple
  if got then
    let popped := { n with pipe := n.pipe - 1 }.popNotifyTuple
    if popped.1 = none then none else some popped
  else some (none,n)

end UnixReactorNotify

/- Where handle_input is: about to read, with the tuple it is to give back; with a
tuple whose handler is not called yet; in handle_msg; in handle_close. -/
inductive Pc where
  | outside
  | reading (freeTuple : Option Ptr)
  | popped (tuple : Ptr)
  | inHandleMsg (tuple : Ptr)
  | inHandleClose (tuple : Ptr)
  deriving DecidableEq, Repr

/- The tuples handle_input has. -/
def Pc.held : Pc → List Ptr
  | .outside => []
  | .reading freeTuple => freeTuple.toList
  | .popped t | .inHandleMsg t | .inHandleClose t => [t]

/- The tuple handle_input has read and not dispatched. -/
def Pc.unserved : Pc → List Ptr
  | .popped t => [t]
  | _ => []

/- calls counts the calls of notify; succeeded and failed are those that returned 0 and
-1, in the order of their critical sections, dispatched those handle_input is through
with, in the order it came to them. -/
structure State (H M : Type) where
  notifier : UnixReactorNotify H M
  pc : Pc
  calls : Nat
  succeeded : List (Call H M)
  failed : List (Call H M)
  dispatched : List (Call H M)

def start : State H M := ⟨UnixReactorNotify.opened,.outside,0,[],[],[]⟩

inductive Act (H M : Type) where
  | notify (eventHandler : Option H) (msg : M) (wrote : Bool)
  | handleInput
  | readMsg (got : Bool)
  | dispatch
  | msgReturned (result : Int)
  | closeReturned

def State.notify (s : State H M) (eventHandler : Option H) (msg : M) (wrote : Bool) : State H M :=
  let c := ⟨s.calls,eventHandler,msg⟩
  let notified := s.notifier.notify c wrote
  { s with
    notifier := notified.2
    calls := s.calls + 1
    succeeded := if notified.1 = 0 then s.succeeded ++ [c] else s.succeeded
    failed := if notified.1 = 0 then s.failed else s.failed ++ [c] }

def State.readMsg (s : State H M) (freeTuple : Option Ptr) (got : Bool) : Option (State H M) :=
  (s.notifier.readNotifyMsg freeTuple got).map fun read =>
    { s with
      notifier := read.2
      pc := match read.1 with
        | some t => .popped t
        | none => .outside }

/- A tuple with no event handler only wakes the reactor up. -/
def State.dispatch (s : State H M) (t : Ptr) : Option (State H M) :=
  (s.notifier.tuple t).map fun c =>
    { s with
      pc := if c.eventHandler = none then .reading (some t) else .inHandleMsg t
      dispatched := s.dispatched ++ [c] }

def State.msgReturned (s : State H M) (t : Ptr) (result : Int) : Option (State H M) :=
  if result < 0 then
    ((s.notifier.tuple t).bind Call.eventHandler).map fun _ => { s with pc := .inHandleClose t }
  else some { s with pc := .reading (some t) }

/- A byte goes into the pipe only where there is room, and out only where there is one. -/
def act (capacity : Nat) (s : State H M) : Act H M → Option (Option (State H M))
  | .notify eventHandler msg wrote =>
    if wrote = true ∧ capacity ≤ s.notifier.pipe then none else some (some (s.notify eventHandler msg wrote))
  | .handleInput =>
    match s.pc with
    | .outside => some (some { s with pc := .reading none })
    | _ => none
  | .readMsg got =>
    match s.pc with
    | .reading freeTuple => if got = true ∧ s.notifier.pipe = 0 then none else some (s.readMsg freeTuple got)
    | _ => none
  | .dispatch =>
    match s.pc with
    | .popped t => some (s.dispatch t)
    | _ => none
  | .msgReturned result =>
    match s.pc with
    | .inHandleMsg t => some (s.msgReturned t result)
    | _ => none
  | .closeReturned =>
    match s.pc with
    | .inHandleClose t => some (some { s with pc := .reading (some t) })
    | _ => none

def step (capacity : Nat) (s : Option (State H M)) (a : Act H M) : Option (Option (State H M)) :=
  s.bind fun s => act capacity s a

/- The pending queue and the free list, and the tuples that are in neither. -/
structure Chains (n : UnixReactorNotify H M) (held pending free : List Ptr) : Prop where
  queue : Seg n.next n.notifyMsgQueue pending none
  tail : n.notifyMsgQueueTail = pending.getLast?
  freed : Seg n.next n.freeNotifyMsgQueue free none
  apart : (held ++ (pending ++ free)).Nodup
  made : ∀ t ∈ held ++ (pending ++ free), t < n.made

section Chains
variable {n : UnixReactorNotify H M} {held pending free : List Ptr} {t : Ptr}

/- A tuple that handle_input has, or that notify has just taken, is on neither list. -/
theorem heldOff (h : Chains n (t :: held) pending free) :
    t ∉ held ∧ t ∉ pending ∧ t ∉ free := by
  have off : t ∉ held ++ (pending ++ free) := (List.nodup_cons.1 h.apart).1
  simp only [List.mem_append,not_or] at off
  exact off

theorem allocChains (h : Chains n held pending free) (c : Call H M) :
    ∃ free', Chains (n.allocNotifyTuple c).2 ((n.allocNotifyTuple c).1 :: held) pending free' ∧
      (n.allocNotifyTuple c).2.next (n.allocNotifyTuple c).1 = none ∧
      (n.allocNotifyTuple c).2.tuple = Function.update n.tuple (n.allocNotifyTuple c).1 (some c) ∧
      (n.allocNotifyTuple c).2.pipe = n.pipe := by
  have freed := h.freed
  unfold UnixReactorNotify.allocNotifyTuple
  cases first : n.freeNotifyMsgQueue with
  | none =>
    rw [first] at freed
    have empty := segNull freed
    subst empty
    -- a tuple new makes is none of those there are
    have off : n.made ∉ held ++ (pending ++ []) := fun mem => absurd (h.made _ mem) (Nat.lt_irrefl _)
    have offPending : n.made ∉ pending := fun mem =>
      off (List.mem_append_right _ (List.mem_append_left _ mem))
    refine ⟨[],{ queue := (segUpdate offPending).2 h.queue, tail := h.tail, freed := freed, apart := ?_, made := ?_ },
      Function.update_self _ _ _,rfl,rfl⟩
    · exact List.nodup_cons.2 ⟨off,h.apart⟩
    · intro a mem
      rcases List.mem_cons.1 mem with rfl | mem
      · exact Nat.lt_succ_self _
      · exact Nat.lt_succ_of_lt (h.made a mem)
  | some t =>
    rw [first] at freed
    cases free with
    | nil => cases freed
    | cons a free =>
      obtain ⟨same,rest⟩ := freed
      cases Option.some.inj same
      have perm : (held ++ (pending ++ t :: free)).Perm (t :: held ++ (pending ++ free)) := by
        rw [← List.append_assoc,← List.append_assoc]
        exact List.perm_middle
      have apart := perm.nodup h.apart
      have off : t ∉ held ++ (pending ++ free) := (List.nodup_cons.1 apart).1
      simp only [List.mem_append,not_or] at off
      refine ⟨free,?_,Function.update_self _ _ _,rfl,rfl⟩
      exact {
        queue := (segUpdate off.2.1).2 h.queue
        tail := h.tail
        freed := (segUpdate off.2.2).2 rest
        apart := apart
        made := fun a mem => h.made a (perm.mem_iff.2 mem) }

theorem releaseChains (h : Chains n (t :: held) pending free) :
    Chains (n.releaseNotifyTuple (some t)) held pending (t :: free) := by
  obtain ⟨_,offPending,offFree⟩ := heldOff h
  have perm : (t :: held ++ (pending ++ free)).Perm (held ++ (pending ++ t :: free)) := by
    rw [← List.append_assoc,← List.append_assoc]
    exact List.perm_middle.symm
  exact {
    queue := (segUpdate offPending).2 h.queue
    tail := h.tail
    freed := ⟨rfl,by
      show Seg _ (Function.update n.next t n.freeNotifyMsgQueue t) free none
      rw [Function.update_self]
      exact (segUpdate offFree).2 h.freed⟩
    apart := perm.nodup h.apart
    made := fun a mem => h.made a (perm.mem_iff.2 mem) }

theorem pushChains (h : Chains n (t :: held) pending free) (last : n.next t = none) :
    Chains (n.pushNotifyTuple t) held (pending ++ [t]) free := by
  obtain ⟨_,offPending,offFree⟩ := heldOff h
  have perm : (t :: held ++ (pending ++ free)).Perm (held ++ (pending ++ [t] ++ free)) := by
    rw [List.append_assoc pending,List.singleton_append,← List.append_assoc,← List.append_assoc]
    exact List.perm_middle.symm
  have apart := perm.nodup h.apart
  have made : ∀ a ∈ held ++ (pending ++ [t] ++ free), a < n.made := fun a mem => h.made a (perm.mem_iff.2 mem)
  have tail := h.tail
  unfold UnixReactorNotify.pushNotifyTuple
  rcases List.eq_nil_or_concat pending with rfl | ⟨front,z,rfl⟩
  · rw [show n.notifyMsgQueueTail = none from tail]
    exact { queue := ⟨rfl,last⟩, tail := rfl, freed := h.freed, apart := apart, made := made }
  · rw [List.concat_eq_append] at *
    rw [List.getLast?_concat] at tail
    rw [tail]
    -- z is the last of the queue and on neither the free list nor before itself
    have distinct := (List.nodup_append.1 h.apart).2.1
    have offFront : z ∉ front := by
      have both := (List.nodup_append.1 (List.nodup_append.1 distinct).1).2.2
      exact fun mem => both z mem z (List.mem_singleton_self z) rfl
    have offFree' : z ∉ free := fun mem =>
      (List.nodup_append.1 distinct).2.2 z (List.mem_append_right _ (List.mem_singleton_self z)) z mem rfl
    have other : t ≠ z := fun same =>
      offPending (List.mem_append_right _ (List.mem_singleton.2 same))
    exact {
      queue := segAppend.2 ⟨some t,segSetLast h.queue offFront,rfl,(Function.update_of_ne other _ _).trans last⟩
      tail := List.getLast?_concat.symm
      freed := (segUpdate offFree').2 h.freed
      apart := apart
      made := made }

theorem popChains (h : Chains n held (t :: pending) free) :
    n.popNotifyTuple.1 = some t ∧ Chains n.popNotifyTuple.2 (t :: held) pending free ∧
      n.popNotifyTuple.2.tuple = n.tuple ∧ n.popNotifyTuple.2.pipe = n.pipe := by
  have perm : (held ++ (t :: pending ++ free)).Perm (t :: held ++ (pending ++ free)) := List.perm_middle
  have rest := h.queue.2
  have tail := h.tail
  unfold UnixReactorNotify.popNotifyTuple
  rw [h.queue.1]
  have last : (if n.next t = none then none else n.notifyMsgQueueTail) = pending.getLast? := by
    rw [segHead rest]
    cases pending with
    | nil => rfl
    | cons a pending =>
      rw [List.head?_cons,if_neg (Option.some_ne_none a)]
      exact tail.trans List.getLast?_cons_cons
  refine ⟨rfl,?_,rfl,rfl⟩
  exact {
    queue := rest
    tail := last
    freed := h.freed
    apart := perm.nodup h.apart
    made := fun a mem => h.made a (perm.mem_iff.2 mem) }

/- The number of bytes in the pipe is no matter of the lists. -/
theorem pipeChains (h : Chains n held pending free) (bytes : Nat) :
    Chains { n with pipe := bytes } held pending free :=
  ⟨h.queue,h.tail,h.freed,h.apart,h.made⟩

theorem pushSame (n : UnixReactorNotify H M) (t : Ptr) :
    (n.pushNotifyTuple t).tuple = n.tuple ∧ (n.pushNotifyTuple t).pipe = n.pipe := by
  unfold UnixReactorNotify.pushNotifyTuple
  split <;> exact ⟨rfl,rfl⟩

theorem releaseSame (n : UnixReactorNotify H M) (t : Option Ptr) :
    (n.releaseNotifyTuple t).tuple = n.tuple ∧ (n.releaseNotifyTuple t).pipe = n.pipe := by
  cases t <;> exact ⟨rfl,rfl⟩

/- notify fills a tuple that nobody has and queues it just when the byte is written. -/
theorem notifyChains (h : Chains n held pending free) (c : Call H M) (wrote : Bool) :
    ∃ t free', t ∉ held ++ pending ∧ (n.notify c wrote).2.tuple = Function.update n.tuple t (some c) ∧
      Chains (n.notify c wrote).2 held (if wrote then pending ++ [t] else pending) free' ∧
      (n.notify c wrote).1 = (if wrote then 0 else -1) ∧
      (n.notify c wrote).2.pipe = if wrote then n.pipe + 1 else n.pipe := by
  obtain ⟨free',taken,last,tuple,pipe⟩ := allocChains h c
  obtain ⟨offHeld,offPending,_⟩ := heldOff taken
  have off : (n.allocNotifyTuple c).1 ∉ held ++ pending := fun mem =>
    (List.mem_append.1 mem).elim offHeld offPending
  unfold UnixReactorNotify.notify
  cases wrote with
  | false =>
    obtain ⟨tuple',pipe'⟩ := releaseSame (n.allocNotifyTuple c).2 (some (n.allocNotifyTuple c).1)
    exact ⟨_,_,off,tuple'.trans tuple,releaseChains taken,rfl,pipe'.trans pipe⟩
  | true =>
    have wider := pipeChains taken ((n.allocNotifyTuple c).2.pipe + 1)
    obtain ⟨tuple',pipe'⟩ := pushSame { (n.allocNotifyTuple c).2 with pipe := (n.allocNotifyTuple c).2.pipe + 1 }
      (n.allocNotifyTuple c).1
    exact ⟨_,_,off,tuple'.trans tuple,pushChains wider last,rfl,pipe'.trans (congrArg (· + 1) pipe)⟩

/- read_notify_msg gives a tuple back and, when it reads a byte, takes the first one of
the queue. -/
theorem readChains {freeTuple : Option Ptr} (h : Chains n freeTuple.toList pending free) {got : Bool}
    (bytes : n.pipe = pending.length) (some_ : got = true → n.pipe ≠ 0) :
    ∃ r n', n.readNotifyMsg freeTuple got = some (r,n') ∧ n'.tuple = n.tuple ∧
      ∃ pending' free', Chains n' r.toList pending' free' ∧ pending = r.toList ++ pending' ∧
        n'.pipe = pending'.length ∧ (r = none → got = false) := by
  obtain ⟨tuple,pipe⟩ := releaseSame n freeTuple
  obtain ⟨free',given⟩ : ∃ free', Chains (n.releaseNotifyTuple freeTuple) [] pending free' := by
    cases freeTuple with
    | none => exact ⟨free,h⟩
    | some t => exact ⟨t :: free,releaseChains h⟩
  unfold UnixReactorNotify.readNotifyMsg
  cases got with
  | false => exact ⟨none,_,rfl,tuple,pending,free',given,rfl,pipe.trans bytes,fun _ => rfl⟩
  | true =>
    cases pending with
    | nil => exact absurd bytes (some_ rfl)
    | cons t pending =>
      obtain ⟨first,taken,tuple',pipe'⟩ := popChains (pipeChains given ((n.releaseNotifyTuple freeTuple).pipe - 1))
      refine ⟨some t,_,?_,tuple'.trans tuple,pending,free',taken,rfl,?_,fun no => absurd no (Option.some_ne_none t)⟩
      · simp only [↓reduceIte,first,Option.some_ne_none]
        rw [← first]
      · rw [pipe']
        show (n.releaseNotifyTuple freeTuple).pipe - 1 = pending.length
        rw [pipe,bytes]
        rfl

end Chains

/- Every call that succeeded is dispatched, or is in the tuple handle_input has read, or
in the queue, in this order. -/
structure Kept (s : State H M) (pending free : List Ptr) : Prop where
  chains : Chains s.notifier s.pc.held pending free
  bytes : s.notifier.pipe = pending.length
  order : s.succeeded.map some = s.dispatched.map some ++ (s.pc.unserved ++ pending).map s.notifier.tuple
  ids : ((s.succeeded ++ s.failed).map Call.id).Nodup
  fresh : ∀ c ∈ s.succeeded ++ s.failed, c.id < s.calls
  busy : ∀ t, s.pc = .inHandleMsg t → ∃ c h, s.notifier.tuple t = some c ∧ c.eventHandler = some h

def Delivered : Option (State H M) → Prop
  | none => False
  | some s => ∃ pending free : List Ptr,
    Seg s.notifier.next s.notifier.notifyMsgQueue pending none ∧
    Seg s.notifier.next s.notifier.freeNotifyMsgQueue free none ∧
    (pending ++ free).Nodup ∧ s.notifier.pipe = pending.length ∧
    s.succeeded.map some = s.dispatched.map some ++ (s.pc.unserved ++ pending).map s.notifier.tuple ∧
    ((s.succeeded ++ s.failed).map Call.id).Nodup

section Steps
variable {s : State H M} {pending free : List Ptr}

theorem startKept : Kept (start : State H M) [] [] where
  chains := ⟨rfl,rfl,rfl,List.nodup_nil,fun _ mem => absurd mem List.not_mem_nil⟩
  bytes := rfl
  order := rfl
  ids := List.nodup_nil
  fresh := fun _ mem => absurd mem List.not_mem_nil
  busy := fun _ no => Pc.noConfusion no

theorem unservedHeld (pc : Pc) {t : Ptr} (mem : t ∈ pc.unserved) : t ∈ pc.held := by
  cases pc with
  | popped a => exact mem
  | outside => exact absurd mem List.not_mem_nil
  | reading a => exact absurd mem List.not_mem_nil
  | inHandleMsg a => exact absurd mem List.not_mem_nil
  | inHandleClose a => exact absurd mem List.not_mem_nil

/- The new call has an id of its own. -/
theorem freshIds {calls : List (Call H M)} {k : Nat} (ids : (calls.map Call.id).Nodup)
    (fresh : ∀ c ∈ calls, c.id < k) (c : Call H M) (id : c.id = k) : ((c :: calls).map Call.id).Nodup := by
  refine List.nodup_cons.2 ⟨fun mem => ?_,ids⟩
  obtain ⟨old,there,same⟩ := List.mem_map.1 mem
  have below := fresh old there
  omega

theorem notifyKept (h : Kept s pending free) (eventHandler : Option H) (msg : M) (wrote : Bool) :
    ∃ pending' free', Kept (s.notify eventHandler msg wrote) pending' free' := by
  obtain ⟨t,free',off,tuple,chains,result,pipe⟩ := notifyChains h.chains ⟨s.calls,eventHandler,msg⟩ wrote
  have same : ∀ a ∈ s.pc.held ++ pending,
      (s.notifier.notify ⟨s.calls,eventHandler,msg⟩ wrote).2.tuple a = s.notifier.tuple a := by
    intro a mem
    have other : a ≠ t := fun eq => off (eq ▸ mem)
    rw [tuple]
    exact Function.update_of_ne other _ _
  have waiting : (s.pc.unserved ++ pending).map (s.notifier.notify ⟨s.calls,eventHandler,msg⟩ wrote).2.tuple =
      (s.pc.unserved ++ pending).map s.notifier.tuple := by
    refine List.map_congr_left fun a mem => same a ?_
    exact (List.mem_append.1 mem).elim (fun held => List.mem_append_left _ (unservedHeld _ held))
      (List.mem_append_right _)
  have own := freshIds h.ids h.fresh ⟨s.calls,eventHandler,msg⟩ rfl
  have busy : ∀ a, s.pc = .inHandleMsg a → ∃ c h,
      (s.notifier.notify ⟨s.calls,eventHandler,msg⟩ wrote).2.tuple a = some c ∧ c.eventHandler = some h := by
    intro a at_
    rw [same a (List.mem_append_left _ (at_ ▸ List.mem_singleton_self a))]
    exact h.busy a at_
  have below : ∀ c ∈ (⟨s.calls,eventHandler,msg⟩ : Call H M) :: (s.succeeded ++ s.failed), c.id < s.calls + 1 := by
    intro c mem
    rcases List.mem_cons.1 mem with rfl | mem
    · exact Nat.lt_succ_self _
    · exact Nat.lt_succ_of_lt (h.fresh c mem)
  cases wrote with
  | true =>
    have perm (c : Call H M) : (s.succeeded ++ [c] ++ s.failed).Perm (c :: (s.succeeded ++ s.failed)) := by
      rw [List.append_assoc]
      exact List.perm_middle
    refine ⟨pending ++ [t],free',{
      chains := chains
      bytes := ?_
      order := ?_
      ids := ((perm _).map Call.id).nodup_iff.2 own
      fresh := fun c mem => below c ((perm _).mem_iff.1 mem)
      busy := busy }⟩
    · rw [List.length_append]
      exact pipe.trans (congrArg (· + 1) h.bytes)
    · have added (c : Call H M) : (s.succeeded ++ [c]).map some = s.succeeded.map some ++ [some c] := List.map_append
      refine (added _).trans ?_
      rw [h.order,List.append_assoc]
      refine congrArg _ ?_
      have behind (f : Ptr → Option (Call H M)) :
          (s.pc.unserved ++ (pending ++ [t])).map f = (s.pc.unserved ++ pending).map f ++ [f t] := by
        rw [← List.append_assoc]
        exact List.map_append
      refine ((behind _).trans (congrArg₂ (· ++ [·]) waiting ?_)).symm
      rw [tuple,Function.update_self]
  | false =>
    have perm (c : Call H M) : (s.succeeded ++ (s.failed ++ [c])).Perm (c :: (s.succeeded ++ s.failed)) := by
      rw [← List.append_assoc]
      exact List.perm_append_singleton _ _
    exact ⟨pending,free',{
      chains := chains
      bytes := pipe.trans h.bytes
      order := h.order.trans (congrArg _ waiting.symm)
      ids := ((perm _).map Call.id).nodup_iff.2 own
      fresh := fun c mem => below c ((perm _).mem_iff.1 mem)
      busy := busy }⟩

theorem readKept (h : Kept s pending free) {freeTuple : Option Ptr} (at_ : s.pc = .reading freeTuple) {got : Bool}
    (some_ : got = true → s.notifier.pipe ≠ 0) :
    ∃ s' pending' free', s.readMsg freeTuple got = some s' ∧ Kept s' pending' free' ∧
      s'.succeeded = s.succeeded ∧ (got = true → pending'.length < pending.length) := by
  have chains := h.chains
  rw [at_] at chains
  obtain ⟨r,n',read,tuple,pending',free',chains',split_,bytes,none_⟩ := readChains chains h.bytes some_
  have order := h.order
  rw [at_,split_] at order
  refine ⟨_,pending',free',Option.map_eq_some_iff.2 ⟨_,read,rfl⟩,{
    chains := ?_
    bytes := bytes
    order := ?_
    ids := h.ids
    fresh := h.fresh
    busy := ?_ },rfl,fun yes => ?_⟩
  · cases r <;> exact chains'
  · rw [tuple]
    cases r <;> exact order
  · cases r <;> exact fun _ no => Pc.noConfusion no
  · cases r with
    | none => exact absurd ((none_ rfl).symm.trans yes) Bool.false_ne_true
    | some t => exact split_ ▸ Nat.lt_succ_self _

/- The tuple that was read holds the oldest call that is not dispatched. -/
theorem dispatchKept (h : Kept s pending free) {t : Ptr} (at_ : s.pc = .popped t) :
    ∃ s', s.dispatch t = some s' ∧ Kept s' pending free := by
  have chains := h.chains
  have order := h.order
  rw [at_] at chains order
  have mem : s.notifier.tuple t ∈ s.succeeded.map some := by
    rw [order]
    exact List.mem_append_right _ List.mem_cons_self
  obtain ⟨c,_,found⟩ := List.mem_map.1 mem
  refine ⟨_,Option.map_eq_some_iff.2 ⟨c,found.symm,rfl⟩,{
    chains := ?_
    bytes := h.bytes
    order := ?_
    ids := h.ids
    fresh := h.fresh
    busy := fun a here => ?_ }⟩
  · dsimp only
    split <;> exact chains
  · have added : (s.dispatched ++ [c]).map some = s.dispatched.map some ++ [some c] := List.map_append
    dsimp only
    rw [order,added,List.append_assoc]
    refine congrArg _ ?_
    split <;> exact congrArg (· :: pending.map s.notifier.tuple) found.symm
  · dsimp only at here
    split at here
    · cases here
    · rename_i some_
      cases here
      obtain ⟨eh,is⟩ := Option.ne_none_iff_exists'.1 some_
      exact ⟨c,eh,found.symm,is⟩

/- Moving on with the same tuple in hand, which is dispatched. -/
theorem sameKept (h : Kept s pending free) {pc : Pc} (held : pc.held = s.pc.held)
    (served : pc.unserved = s.pc.unserved) (out : ∀ t, pc ≠ .inHandleMsg t) :
    Kept { s with pc := pc } pending free where
  chains := by
    rw [held]
    exact h.chains
  bytes := h.bytes
  order := by
    rw [served]
    exact h.order
  ids := h.ids
  fresh := h.fresh
  busy := fun t here => absurd here (out t)

theorem actKept (h : Kept s pending free) {capacity : Nat} {a : Act H M} {next : Option (State H M)}
    (did : act capacity s a = some next) : ∃ s' pending' free', next = some s' ∧ Kept s' pending' free' := by
  cases a with
  | notify eventHandler msg wrote =>
    obtain ⟨_,next_⟩ := Option.ite_none_left_eq_some.1 did
    obtain ⟨pending',free',kept⟩ := notifyKept h eventHandler msg wrote
    exact ⟨_,pending',free',(Option.some.inj next_).symm,kept⟩
  | handleInput =>
    simp only [act] at did
    split at did
    · rename_i at_
      refine ⟨_,pending,free,(Option.some.inj did).symm,sameKept h ?_ ?_ fun _ no => Pc.noConfusion no⟩ <;>
        rw [at_] <;> rfl
    · cases did
  | readMsg got =>
    simp only [act] at did
    split at did
    · rename_i at_
      obtain ⟨room,next_⟩ := Option.ite_none_left_eq_some.1 did
      obtain ⟨s',pending',free',read,kept,_⟩ := readKept h at_ fun yes none_ => room ⟨yes,none_⟩
      exact ⟨s',pending',free',(Option.some.inj next_).symm.trans read,kept⟩
    · cases did
  | dispatch =>
    simp only [act] at did
    split at did
    · rename_i at_
      obtain ⟨s',done,kept⟩ := dispatchKept h at_
      exact ⟨s',pending,free,(Option.some.inj did).symm.trans done,kept⟩
    · cases did
  | msgReturned result =>
    simp only [act] at did
    split at did
    · rename_i t at_
      cases Option.some.inj did
      unfold State.msgReturned
      split
      · obtain ⟨c,eh,found,is⟩ := h.busy t at_
        refine ⟨_,pending,free,Option.map_eq_some_iff.2 ⟨eh,Option.bind_eq_some_iff.2 ⟨c,found,is⟩,rfl⟩,
          sameKept h ?_ ?_ fun _ no => Pc.noConfusion no⟩ <;> rw [at_] <;> rfl
      · refine ⟨_,pending,free,rfl,sameKept h ?_ ?_ fun _ no => Pc.noConfusion no⟩ <;> rw [at_] <;> rfl
    · cases did
  | closeReturned =>
    simp only [act] at did
    split at did
    · rename_i t at_
      refine ⟨_,pending,free,(Option.some.inj did).symm,sameKept h ?_ ?_ fun _ no => Pc.noConfusion no⟩ <;>
        rw [at_] <;> rfl
    · cases did

end Steps

section Drain
variable {s : State H M} {pending free : List Ptr} {capacity : Nat}

/- What the thread in handle_input does of itself. -/
def Act.OfHandleInput : Act H M → Prop
  | .notify _ _ _ => False
  | _ => True

/- From s, handle_input comes to t without another notify. -/
def Reaches (capacity : Nat) (s t : State H M) : Prop :=
  ∃ acts : List (Act H M), (∀ a ∈ acts, a.OfHandleInput) ∧ run (step capacity) (some s) acts = some (some t)

theorem reachesRefl (s : State H M) : Reaches capacity s s := ⟨[],fun _ mem => absurd mem List.not_mem_nil,rfl⟩

theorem reachesStep {t u : State H M} (a : Act H M) (own : a.OfHandleInput) (did : act capacity s a = some (some t))
    (rest : Reaches capacity t u) : Reaches capacity s u := by
  obtain ⟨acts,all,ran⟩ := rest
  refine ⟨a :: acts,fun b mem => ?_,Option.bind_eq_some_iff.2 ⟨some t,did,ran⟩⟩
  rcases List.mem_cons.1 mem with rfl | mem
  · exact own
  · exact all b mem

/- Out of an upcall, handle_input is about to read. -/
theorem reachesReading (capacity : Nat) (h : Kept s pending free) : ∃ t freeTuple, Reaches capacity s t ∧ Kept t pending free ∧
    t.pc = .reading freeTuple ∧ t.succeeded = s.succeeded := by
  cases at_ : s.pc with
  | outside =>
    refine ⟨{ s with pc := .reading none },none,?_,?_,rfl,rfl⟩
    · refine reachesStep .handleInput trivial ?_ (reachesRefl _)
      simp only [act,at_]
    · exact sameKept h (by rw [at_]; rfl) (by rw [at_]; rfl) fun _ no => Pc.noConfusion no
  | reading freeTuple => exact ⟨s,freeTuple,reachesRefl s,h,at_,rfl⟩
  | popped t =>
    obtain ⟨s₁,done,kept⟩ := dispatchKept h at_
    have first : act capacity s .dispatch = some (some s₁) := by
      simp only [act,at_]
      exact congrArg some done
    obtain ⟨c,_,same⟩ := Option.map_eq_some_iff.1 done
    by_cases wakes : c.eventHandler = none
    · rw [if_pos wakes] at same
      subst same
      exact ⟨_,some t,reachesStep .dispatch trivial first (reachesRefl _),kept,rfl,rfl⟩
    · rw [if_neg wakes] at same
      subst same
      refine ⟨_,some t,reachesStep .dispatch trivial first (reachesStep (.msgReturned 0) trivial rfl (reachesRefl _)),
        sameKept kept rfl rfl fun _ no => Pc.noConfusion no,rfl,rfl⟩
  | inHandleMsg t =>
    refine ⟨{ s with pc := .reading (some t) },some t,?_,?_,rfl,rfl⟩
    · refine reachesStep (.msgReturned 0) trivial ?_ (reachesRefl _)
      simp only [act,at_]
      rfl
    · exact sameKept h (by rw [at_]; rfl) (by rw [at_]; rfl) fun _ no => Pc.noConfusion no
  | inHandleClose t =>
    refine ⟨{ s with pc := .reading (some t) },some t,?_,?_,rfl,rfl⟩
    · refine reachesStep .closeReturned trivial ?_ (reachesRefl _)
      simp only [act,at_]
    · exact sameKept h (by rw [at_]; rfl) (by rw [at_]; rfl) fun _ no => Pc.noConfusion no

theorem reachesTrans {t u : State H M} (first : Reaches capacity s t) (rest : Reaches capacity t u) :
    Reaches capacity s u := by
  obtain ⟨acts,all,ran⟩ := first
  induction acts generalizing s with
  | nil =>
    cases Option.some.inj (Option.some.inj ran)
    exact rest
  | cons a acts ih =>
    obtain ⟨m,did,ran⟩ := Option.bind_eq_some_iff.1 ran
    cases m with
    | none => cases acts <;> cases ran
    | some m =>
      exact reachesStep a (all a List.mem_cons_self) did (ih (fun b mem => all b (List.mem_cons_of_mem a mem)) ran)

/- handle_input can go on until every call that succeeded is dispatched. -/
theorem reachesDrained (h : Kept s pending free) :
    ∃ t, Reaches capacity s t ∧ t.dispatched = s.succeeded ∧ t.succeeded = s.succeeded := by
  induction n : pending.length using Nat.strongRecOn generalizing s pending free with
  | ind n ih =>
    obtain ⟨t,freeTuple,there,kept,at_,same⟩ := reachesReading capacity h
    by_cases empty : pending = []
    · refine ⟨t,there,?_,same⟩
      have order := kept.order
      rw [at_,empty] at order
      have all : t.succeeded.map some = t.dispatched.map some := order.trans (List.append_nil _)
      rw [← same]
      exact (List.map_injective_iff.2 (fun _ _ => Option.some.inj) all).symm
    · have bytes : t.notifier.pipe ≠ 0 := by
        rw [kept.bytes]
        exact fun none_ => empty (List.length_eq_zero_iff.1 none_)
      obtain ⟨u,pending',free',read,kept',same',fewer⟩ := readKept kept at_ fun (_ : true = true) => bytes
      have did : act capacity t (.readMsg true) = some (some u) := by
        simp only [act,at_]
        rw [if_neg fun both => bytes both.2,read]
      obtain ⟨v,rest,all,last⟩ := ih pending'.length (n ▸ fewer rfl) kept' rfl
      exact ⟨v,reachesTrans there (reachesStep (.readMsg true) trivial did rest),all.trans (same'.trans same),
        last.trans (same'.trans same)⟩

end Drain

/- Over every run, the bytes in the pipe are as many as the tuples in the queue, no
tuple is on two lists or twice on one, every call that returned 0 is dispatched once, in
the order of these calls, or still has its tuple, one that returned -1 is not; and
handle_input alone can get through all that is there. -/
theorem notifiedOnce (capacity : Nat) (acts : List (Act H M)) :
    Always (step capacity) Delivered (some start) acts ∧
    ∀ s, run (step capacity) (some start) acts = some (some s) →
      ∃ t, Reaches capacity s t ∧ t.dispatched = s.succeeded ∧ t.succeeded = s.succeeded := by
  have kept : Always (step capacity) (fun s => ∃ s' pending free, s = some s' ∧ Kept s' pending free)
      (some (start : State H M)) acts := by
    refine alwaysInvariant ?_ ⟨_,_,_,rfl,startKept⟩ acts
    rintro _ a next ⟨s,pending,free,rfl,h⟩ did
    exact actKept h did
  constructor
  · refine alwaysMono ?_ kept
    rintro _ ⟨s,pending,free,rfl,h⟩
    exact ⟨pending,free,h.chains.queue,h.chains.freed,(List.nodup_append.1 h.chains.apart).2.1,h.bytes,h.order,h.ids⟩
  · intro s reached
    obtain ⟨s',pending,free,same,h⟩ := alwaysAtEnd kept reached
    cases Option.some.inj same
    exact reachesDrained h

-- A pipe of one byte: handle_msg notifies again, and what finds the pipe full is refused.
example : ((run (step 1) (some (start : State Nat Nat)) [.notify (some 0) 7 true,.handleInput,.readMsg true,
      .dispatch,.notify (some 0) 8 true,.notify none 9 false,.msgReturned 0,.readMsg true,.dispatch,
      .msgReturned (-1),.closeReturned,.readMsg false]).join.map
    fun s => (s.dispatched.map Call.msg,s.failed.map Call.msg,s.notifier.made)) = some ([7,8],[9],3) := by
  decide

end CuteNdk.ReactorNotify
