import CuteNdk.EpollReactor

/-! dispatch_io_events of the epoll reactor: the events epoll_wait reported are kept over
its calls and looked up by descriptor. Callbacks and, between two calls, other threads
register and remove handlers; here they may do so between any two steps. epoll_wait may
report any descriptors, and epoll_ctl is a parameter. -/
namespace CuteNdk.Reactor
open Lib

def EPOLLERR : BitVec 32 := 0x008
def EPOLLHUP : BitVec 32 := 0x010

def MAX_REACTOR_PROCESS_FDS_ONE_TIME : Nat := 32

namespace Mask
def timer : Mask := 1 <<< 6
def allEvents : Mask := read ||| write ||| except ||| accept ||| connect ||| timer ||| epollEdge
end Mask

/- An epoll_event. reported is the handler that was bound to fd when epoll_wait
returned. -/
structure EpollEvent where
  fd : Handle
  events : BitVec 32
  reported : Option EventHandler
  deriving DecidableEq, Repr

inductive Callback where | handleInput | handleOutput | handleException | handleClose deriving DecidableEq, Repr

structure Upcall where
  callback : Callback
  fd : Handle
  target : EventHandler
  reported : Option EventHandler
  deriving DecidableEq, Repr

/- Where dispatch_io_events is: at the head of its loop; in the callback whose mask is
removed if it returns less than 0; in the handle_close of remove_handler_i, with skip
when ++pfd follows in any case. -/
inductive DispatchPc where
  | outside
  | looping (count : Nat)
  | inCallback (mask : Mask) (count : Nat)
  | removing (mask : Mask) (skip : Bool) (count : Nat)
  deriving DecidableEq, Repr

/- pending are the events between start_pevents_ and end_pevents_. closing are the calls
of remove_handler_i, by others than dispatch_io_events, that are in handle_close. -/
structure EpollDispatch (κ : Type) where
  reactor : UnixReactor κ
  pending : List EpollEvent
  pc : DispatchPc
  closing : List (Handle × Mask)
  upcalls : List Upcall

namespace EpollDispatch
variable {κ : Type}

def opened (r : UnixReactor κ) : EpollDispatch κ := ⟨r,[],.outside,[],[]⟩

/- epoll_wait is called only when nothing is left of what it reported. -/
def pollEvents (s : EpollDispatch κ) (reported : List (Handle × BitVec 32)) : EpollDispatch κ :=
  if s.pending = [] then
    { s with pending := reported.map fun e => ⟨e.1,e.2,s.reactor.rep.find e.1⟩ }
  else s

/- The call of a callback for the first event, whose bit is cleared first. -/
def upcall (s : EpollDispatch κ) (eh : EventHandler) (e : EpollEvent) (rest : List EpollEvent) (bit : BitVec 32)
    (callback : Callback) (mask : Mask) (count : Nat) : EpollDispatch κ :=
  { s with
    pending := { e with events := clrBits e.events bit } :: rest
    pc := .inCallback mask count
    upcalls := s.upcalls ++ [⟨callback,e.fd,eh,e.reported⟩] }

/- if (pfd->events == 0) ++pfd, or ++pfd alone. -/
def advance (e : EpollEvent) (rest : List EpollEvent) (skip : Bool) : List EpollEvent :=
  if skip = true ∨ e.events = 0 then rest else e :: rest

/- remove_handler_i(pfd->data.fd, mask) up to the call of handle_close. -/
def remove (s : EpollDispatch κ) (e : EpollEvent) (rest : List EpollEvent) (mask : Mask) (skip : Bool)
    (count : Nat) : EpollDispatch κ :=
  match s.reactor.rep.find e.fd with
  | none => { s with pending := advance e rest skip, pc := .looping count }
  | some eh =>
    { s with
      pc := .removing mask skip count
      upcalls := s.upcalls ++ [⟨.handleClose,e.fd,eh,e.reported⟩] }

/- One turn of the loop, up to the first callback. -/
def dispatchOne (s : EpollDispatch κ) (e : EpollEvent) (rest : List EpollEvent) (count : Nat) : EpollDispatch κ :=
  match s.reactor.rep.find e.fd with
  | none => { s with pending := rest }
  | some eh =>
    if bitEnabled e.events EPOLLIN then s.upcall eh e rest EPOLLIN .handleInput Mask.read (count + 1)
    else if bitEnabled e.events EPOLLOUT then s.upcall eh e rest EPOLLOUT .handleOutput Mask.write (count + 1)
    else if bitEnabled e.events EPOLLPRI then s.upcall eh e rest EPOLLPRI .handleException Mask.except (count + 1)
    else if bitEnabled e.events (EPOLLHUP ||| EPOLLERR) then s.remove e rest Mask.allEvents true (count + 1)
    -- an event nobody knows is logged
    else { s with pending := rest, pc := .looping (count + 1) }

end EpollDispatch

/- remove and closed are the two sides of the handle_close in a remove_handler_i of
somebody else; wait, enter, loop, returned and handleClosed are of dispatch_io_events. -/
inductive DispatchAct where
  | register (h : Handle) (eh : Option EventHandler) (m : Mask)
  | remove (h : Handle) (m : Mask)
  | closed (h : Handle) (m : Mask)
  | suspend (h : Handle)
  | resume (h : Handle)
  | wait (reported : List (Handle × BitVec 32))
  | enter
  | loop
  | returned (result : Int)
  | handleClosed
  deriving DecidableEq, Repr

section Machine
variable {κ : Type} (ep : Epoll κ)

/- After handle_close, remove_handler_i does what it would do with a handle_close that
leaves the reactor alone. -/
theorem removeSplit {handleClose : UnixReactor κ → UnixReactor κ} {r : UnixReactor κ} {h : Handle} {m : Mask}
    (bound : r.rep.find h ≠ none) :
    (removeHandlerI ep handleClose r h m).1 =
      (removeHandlerI ep id (if bitDisabled m Mask.dontCall then handleClose r else r) h m).1 := by
  unfold removeHandlerI
  rw [if_neg bound]
  by_cases call : bitDisabled m Mask.dontCall = true
  · simp only [call,if_true,id,true_and]
    by_cases gone : (handleClose r).rep.find h = none
    · simp only [if_pos gone]
    · simp only [if_neg gone]
  · simp only [call,Bool.false_eq_true,if_false,false_and,if_neg bound]

def EpollDispatch.step (s : EpollDispatch κ) : DispatchAct → Option (EpollDispatch κ)
  | .register h eh m => some { s with reactor := (registerHandlerI ep s.reactor h eh m).1 }
  | .remove h m =>
    if s.reactor.rep.find h ≠ none ∧ bitDisabled m Mask.dontCall then some { s with closing := (h,m) :: s.closing }
    else some { s with reactor := (removeHandlerI ep id s.reactor h m).1 }
  | .closed h m =>
    if (h,m) ∈ s.closing then
      some { s with reactor := (removeHandlerI ep id s.reactor h m).1, closing := s.closing.erase (h,m) }
    else none
  | .suspend h => some { s with reactor := (suspendHandlerI ep s.reactor h).1 }
  | .resume h => some { s with reactor := (resumeHandlerI ep s.reactor h).1 }
  | .wait reported =>
    match s.pc with
    | .outside => some (s.pollEvents reported)
    | _ => none
  | .enter =>
    match s.pc with
    | .outside => some { s with pc := .looping 0 }
    | _ => none
  | .loop =>
    match s.pc, s.pending with
    | .looping _, [] => some { s with pc := .outside }
    | .looping count, e :: rest =>
      if count < MAX_REACTOR_PROCESS_FDS_ONE_TIME then some (s.dispatchOne e rest count)
      else some { s with pc := .outside }
    | _, _ => none
  | .returned result =>
    match s.pc, s.pending with
    | .inCallback mask count, e :: rest =>
      if result < 0 then some (s.remove e rest mask false count)
      else some { s with pending := EpollDispatch.advance e rest false, pc := .looping count }
    | _, _ => none
  | .handleClosed =>
    match s.pc, s.pending with
    | .removing mask skip count, e :: rest =>
      some { s with
        reactor := (removeHandlerI ep id s.reactor e.fd mask).1
        pending := EpollDispatch.advance e rest skip
        pc := .looping count }
    | _, _ => none

/- Every upcall is for the handler its event was reported for. -/
def Reported (s : EpollDispatch κ) : Prop := ∀ u ∈ s.upcalls, u.reported = some u.target

instance (s : EpollDispatch κ) : Decidable (Reported s) := by unfold Reported; infer_instance

/- A registration that binds a descriptor does so with no event of it left to dispatch,
or binds the handler they were reported for. -/
def LeavesPending (s : EpollDispatch κ) : DispatchAct → Prop
  | .register h eh m => s.reactor.rep.find h = none → (registerHandlerI ep s.reactor h eh m).2 = 0 →
    ∀ e ∈ s.pending, e.fd = h → e.reported = eh
  | _ => True

instance (s : EpollDispatch κ) (a : DispatchAct) : Decidable (LeavesPending ep s a) := by
  unfold LeavesPending
  split <;> infer_instance

/- The handler of a descriptor with an event to dispatch is still the one the event was
reported for, or there is none. -/
structure Current (s : EpollDispatch κ) : Prop where
  reported : Reported s
  pending : ∀ e ∈ s.pending, s.reactor.rep.find e.fd = none ∨ s.reactor.rep.find e.fd = e.reported

section Finds
variable {ep} {r : UnixReactor κ} {h : Handle}

theorem setMaskFind (r : HandlerRepository) (h : Handle) (m : Mask) (h' : Handle) :
    (r.setMask h m).find h' = r.find h' := by
  unfold HandlerRepository.setMask
  split
  · rename_i range
    by_cases same : h' = h
    · subst same
      rw [(HandlerRepository.putSame r range _).1,(HandlerRepository.entryFind range).1]
    · exact (HandlerRepository.putOther r same _).1
  · rfl

theorem unbindFind (r : HandlerRepository) (h h' : Handle) :
    (r.unbind h).1.find h' = if h' = h then none else r.find h' := by
  by_cases bound : r.find h = none
  · rw [HandlerRepository.unbind,if_pos bound]
    split
    · rename_i same
      exact same ▸ bound
    · rfl
  · rw [HandlerRepository.unbindPut bound]
    split
    · rename_i same
      subst same
      exact (HandlerRepository.putSame r (HandlerRepository.findRange bound) _).1
    · rename_i other
      exact (HandlerRepository.putOther r other _).1

theorem bindFind (r : HandlerRepository) (h : Handle) (eh : Option EventHandler) (m : Mask) :
    (r.bind h eh m).2 = 0 ∧ (∀ h', (r.bind h eh m).1.find h' = if h' = h then eh else r.find h') ∨
    (r.bind h eh m).2 = -1 ∧ (r.bind h eh m).1 = r := by
  unfold HandlerRepository.bind
  cases eh with
  | none => exact Or.inr ⟨rfl,rfl⟩
  | some eh =>
    dsimp only
    split
    · rename_i range
      refine Or.inl ⟨rfl,fun h' => ?_⟩
      by_cases same : h' = h
      · subst same
        rw [if_pos rfl]
        exact (HandlerRepository.putSame r range _).1
      · rw [if_neg same]
        exact (HandlerRepository.putOther r same _).1
    · exact Or.inr ⟨rfl,rfl⟩

/- register_handler_i changes no handler but that of an unbound handle, and that only when
it succeeds. -/
theorem registerFind (ep : Epoll κ) (r : UnixReactor κ) (h : Handle) (eh : Option EventHandler) (m : Mask) (h' : Handle) :
    (registerHandlerI ep r h eh m).1.rep.find h' = none ∨
    (registerHandlerI ep r h eh m).1.rep.find h' = r.rep.find h' ∨
    h' = h ∧ r.rep.find h = none ∧ (registerHandlerI ep r h eh m).2 = 0 ∧
      (registerHandlerI ep r h eh m).1.rep.find h' = eh := by
  unfold registerHandlerI
  by_cases bound : r.rep.find h = none
  · simp only [if_pos bound]
    have binds := bindFind r.rep h eh m
    split
    · rename_i rep both
      rw [both] at binds
      rcases binds with ⟨_,finds⟩ | ⟨failed,_⟩
      · by_cases here : h' = h
        · split
          · exact Or.inr (Or.inr ⟨here,bound,rfl,(finds h').trans (if_pos here)⟩)
          · exact Or.inl ((unbindFind _ h h').trans (if_pos here))
        · refine Or.inr (Or.inl ?_)
          split
          · exact (finds h').trans (if_neg here)
          · exact (unbindFind _ h h').trans ((if_neg here).trans ((finds h').trans (if_neg here)))
      · exact absurd (show (0 : Int) = -1 from failed) (by decide)
    · rename_i rep result other both
      rw [both] at binds
      rcases binds with ⟨done,_⟩ | ⟨_,same⟩
      · exact absurd done other
      · exact Or.inr (Or.inl (congrArg (HandlerRepository.find · h') same))
  · simp only [if_neg bound]
    exact Or.inr (Or.inl (setMaskFind _ _ _ _))

theorem removeFind (r : UnixReactor κ) (h : Handle) (m : Mask) (h' : Handle) :
    (removeHandlerI ep id r h m).1.rep.find h' = none ∨
    (removeHandlerI ep id r h m).1.rep.find h' = r.rep.find h' := by
  unfold removeHandlerI
  by_cases bound : r.rep.find h = none
  · rw [if_pos bound]
    exact Or.inr rfl
  · rw [if_neg bound]
    simp only [id,ite_self,bound,and_false,if_false]
    split
    · exact Or.inr (setMaskFind _ _ _ _)
    · dsimp only
      split
      · rw [unbindFind]
        split
        · exact Or.inl rfl
        · exact Or.inr (setMaskFind _ _ _ _)
      · exact Or.inr (setMaskFind _ _ _ _)

/- suspend and resume of the table leave the handlers as they are. -/
theorem flagFind (r : HandlerRepository) (h : Handle) (suspended : Bool) (h' : Handle) :
    (if r.handleInRange h then r.put h { r.handlers h with suspended := suspended } else r).find h' = r.find h' := by
  split
  · rename_i range
    by_cases same : h' = h
    · subst same
      rw [(HandlerRepository.putSame r range _).1,(HandlerRepository.entryFind range).1]
    · exact (HandlerRepository.putOther r same _).1
  · rfl

theorem suspendFind (r : UnixReactor κ) (h h' : Handle) :
    (suspendHandlerI ep r h).1.rep.find h' = r.rep.find h' := by
  unfold suspendHandlerI
  split
  · rfl
  · split
    · rfl
    · split
      · rfl
      · exact flagFind r.rep h true h'

theorem resumeFind (r : UnixReactor κ) (h h' : Handle) :
    (resumeHandlerI ep r h).1.rep.find h' = r.rep.find h' := by
  unfold resumeHandlerI
  split
  · rfl
  · dsimp only
    split
    · rfl
    · split
      · rfl
      · exact flagFind r.rep h false h'

end Finds

section Steps
variable {ep} {s : EpollDispatch κ}

/- An operation on the reactor after which a descriptor with an event has the handler it
had, or none. -/
theorem reactorCurrent (c : Current s) {r : UnixReactor κ} {closing : List (Handle × Mask)}
    (finds : ∀ e ∈ s.pending, r.rep.find e.fd = none ∨ r.rep.find e.fd = s.reactor.rep.find e.fd ∨
      r.rep.find e.fd = e.reported) :
    Current { s with reactor := r, closing := closing } where
  reported := c.reported
  pending e mem := by
    rcases finds e mem with none_ | same | reported
    · exact Or.inl none_
    · have was := c.pending e mem
      rw [← same] at was
      exact was
    · exact Or.inr reported

theorem removeCurrent (c : Current s) (h : Handle) (m : Mask) (closing : List (Handle × Mask)) :
    Current { s with reactor := (removeHandlerI ep id s.reactor h m).1, closing := closing } :=
  reactorCurrent c fun e _ => (removeFind s.reactor h m e.fd).imp id Or.inl

/- Dispatch goes on with the events that are left, of the same descriptors. -/
theorem pendingCurrent (c : Current s) {pending : List EpollEvent} {pc : DispatchPc}
    (among : ∀ e ∈ pending, ∃ e' ∈ s.pending, e.fd = e'.fd ∧ e.reported = e'.reported) :
    Current { s with pending := pending, pc := pc } where
  reported := c.reported
  pending e mem := by
    obtain ⟨e',mem',fd,reported⟩ := among e mem
    have was := c.pending e' mem'
    rw [← fd,← reported] at was
    exact was

theorem advanceMem {e e' : EpollEvent} {rest : List EpollEvent} {skip : Bool}
    (mem : e' ∈ EpollDispatch.advance e rest skip) : e' ∈ e :: rest := by
  unfold EpollDispatch.advance at mem
  split at mem
  · exact List.mem_cons_of_mem e mem
  · exact mem

/- An upcall for the first event goes to the handler it was reported for. -/
theorem upcallReported (c : Current s) {e : EpollEvent} (mem : e ∈ s.pending) {eh : EventHandler}
    (found : s.reactor.rep.find e.fd = some eh) (callback : Callback) :
    ∀ u ∈ s.upcalls ++ [⟨callback,e.fd,eh,e.reported⟩], u.reported = some u.target := by
  intro u among
  rcases List.mem_append.1 among with before | last
  · exact c.reported u before
  · cases List.mem_singleton.1 last
    rcases c.pending e mem with none_ | same
    · exact absurd (none_.symm.trans found).symm (Option.some_ne_none eh)
    · exact same.symm.trans found

theorem upcallCurrent (c : Current s) {e : EpollEvent} {rest : List EpollEvent} (here : s.pending = e :: rest)
    {eh : EventHandler} (found : s.reactor.rep.find e.fd = some eh) (bit : BitVec 32) (callback : Callback)
    (mask : Mask) (count : Nat) : Current (s.upcall eh e rest bit callback mask count) where
  reported := upcallReported c (here ▸ List.mem_cons_self) found callback
  pending e' mem := by
    rcases List.mem_cons.1 mem with rfl | later
    · exact c.pending e (here ▸ List.mem_cons_self)
    · exact c.pending e' (here ▸ List.mem_cons_of_mem e later)

theorem dispatchRemoveCurrent (c : Current s) {e : EpollEvent} {rest : List EpollEvent}
    (here : s.pending = e :: rest) (mask : Mask) (skip : Bool) (count : Nat) :
    Current (s.remove e rest mask skip count) := by
  unfold EpollDispatch.remove
  cases found : s.reactor.rep.find e.fd with
  | none => exact pendingCurrent c fun e' mem => ⟨e',here ▸ advanceMem mem,rfl,rfl⟩
  | some eh =>
    exact {
      reported := upcallReported c (here ▸ List.mem_cons_self) found .handleClose
      pending := c.pending }

theorem dispatchOneCurrent (c : Current s) {e : EpollEvent} {rest : List EpollEvent}
    (here : s.pending = e :: rest) (count : Nat) : Current (s.dispatchOne e rest count) := by
  have left (pc : DispatchPc) : Current { s with pending := rest, pc := pc } :=
    pendingCurrent c fun e' mem => ⟨e',here ▸ List.mem_cons_of_mem e mem,rfl,rfl⟩
  unfold EpollDispatch.dispatchOne
  cases found : s.reactor.rep.find e.fd with
  | none => exact left s.pc
  | some eh =>
    simp only []
    split
    · exact upcallCurrent c here found _ _ _ _
    · split
      · exact upcallCurrent c here found _ _ _ _
      · split
        · exact upcallCurrent c here found _ _ _ _
        · split
          · exact dispatchRemoveCurrent c here _ _ _
          · exact left _

theorem stepCurrent (c : Current s) {a : DispatchAct} (leaves : LeavesPending ep s a) {t : EpollDispatch κ}
    (did : s.step ep a = some t) : Current t := by
  cases a with
  | register h eh m =>
    cases Option.some.inj did
    refine reactorCurrent c fun e mem => ?_
    rcases registerFind ep s.reactor h eh m e.fd with none_ | same | ⟨here,free,done,bound⟩
    · exact Or.inl none_
    · exact Or.inr (Or.inl same)
    · exact Or.inr (Or.inr (bound.trans (leaves free done e mem here).symm))
  | remove h m =>
    simp only [EpollDispatch.step] at did
    split at did
    · cases Option.some.inj did
      exact ⟨c.reported,c.pending⟩
    · cases Option.some.inj did
      exact removeCurrent c h m s.closing
  | closed h m =>
    obtain ⟨_,next⟩ := Option.ite_none_right_eq_some.1 did
    cases Option.some.inj next
    exact removeCurrent c h m _
  | suspend h =>
    cases Option.some.inj did
    exact reactorCurrent c fun e _ => Or.inr (Or.inl (suspendFind s.reactor h e.fd))
  | resume h =>
    cases Option.some.inj did
    exact reactorCurrent c fun e _ => Or.inr (Or.inl (resumeFind s.reactor h e.fd))
  | wait reported =>
    simp only [EpollDispatch.step] at did
    split at did
    · cases Option.some.inj did
      unfold EpollDispatch.pollEvents
      split
      · refine ⟨c.reported,fun e mem => ?_⟩
        obtain ⟨r,_,rfl⟩ := List.mem_map.1 mem
        exact Or.inr rfl
      · exact c
    · cases did
  | enter =>
    simp only [EpollDispatch.step] at did
    split at did
    · cases Option.some.inj did
      exact ⟨c.reported,c.pending⟩
    · cases did
  | loop =>
    simp only [EpollDispatch.step] at did
    split at did
    · cases Option.some.inj did
      exact ⟨c.reported,c.pending⟩
    · rename_i here
      split at did
      · cases Option.some.inj did
        exact dispatchOneCurrent c here _
      · cases Option.some.inj did
        exact ⟨c.reported,c.pending⟩
    · cases did
  | returned result =>
    simp only [EpollDispatch.step] at did
    split at did
    · rename_i here
      split at did
      · cases Option.some.inj did
        exact dispatchRemoveCurrent c here _ _ _
      · cases Option.some.inj did
        exact pendingCurrent c fun e' mem => ⟨e',here ▸ advanceMem mem,rfl,rfl⟩
    · cases did
  | handleClosed =>
    simp only [EpollDispatch.step] at did
    split at did
    · rename_i here
      cases Option.some.inj did
      exact pendingCurrent (removeCurrent c _ _ s.closing) fun e' mem => ⟨e',here ▸ advanceMem mem,rfl,rfl⟩
    · cases did

end Steps

end Machine

/- Handlers 0 and 1 for descriptors 4 and 5, both reported; the callback of 4 removes
5, without and with a handler that is registered for 5 again. -/
def bothReported : List DispatchAct :=
  [.register 4 (some 0) Mask.read,.register 5 (some 1) Mask.read,.wait [(4,EPOLLIN),(5,EPOLLIN)],.enter,.loop,
    .remove 5 Mask.read,.closed 5 Mask.read]

end CuteNdk.Reactor
