import CuteNdk.EpollDispatch
import Mathlib.Logic.Function.Iterate

/-! dispatch_io_events over the events of one epoll_wait. A call is cut off after 32 turns
that found a handler, also between two bits of one event, and the next call goes on from
there. The callbacks leave the registrations alone. -/
namespace CuteNdk.Reactor
open Lib

namespace EpollDispatch
variable {κ : Type} (ep : Epoll κ)

/- poll_events and what it returns. wait is epoll_wait: it reports events or fails. -/
def pollEventsI (wait : κ → κ × Option (List (Handle × BitVec 32))) (s : EpollDispatch κ) : EpollDispatch κ × Int :=
  if s.pending ≠ [] then (s,1)
  else
    match wait s.reactor.kernel with
    | (k,none) => ({ s with reactor := { s.reactor with kernel := k } },-1)
    | (k,some reported) => (pollEvents { s with reactor := { s.reactor with kernel := k } } reported,reported.length)

/- remove_handler_i(pfd->data.fd, mask) with a handle_close that leaves the reactor alone. -/
def removed (s : EpollDispatch κ) (e : EpollEvent) (mask : Mask) : EpollDispatch κ :=
  match s.reactor.rep.find e.fd with
  | none => s
  | some eh =>
    { s with
      reactor := (removeHandlerI ep id s.reactor e.fd mask).1
      upcalls := s.upcalls ++ [⟨.handleClose,e.fd,eh,e.reported⟩] }

/- The branch of one bit, whose callback returns result. -/
def served (s : EpollDispatch κ) (eh : EventHandler) (e : EpollEvent) (rest : List EpollEvent) (bit : BitVec 32)
    (callback : Callback) (mask : Mask) (result : Int) : EpollDispatch κ :=
  let e := { e with events := clrBits e.events bit }
  let s : EpollDispatch κ := { s with upcalls := s.upcalls ++ [⟨callback,e.fd,eh,e.reported⟩] }
  let s := if result < 0 then s.removed ep e mask else s
  { s with pending := advance e rest false }

/- One turn of the loop for the first event, and the count after it. -/
def turn (s : EpollDispatch κ) (e : EpollEvent) (rest : List EpollEvent) (count : Nat) (result : Int) :
    EpollDispatch κ × Nat :=
  match s.reactor.rep.find e.fd with
  | none => ({ s with pending := rest },count)
  | some eh =>
    (if bitEnabled e.events EPOLLIN then s.served ep eh e rest EPOLLIN .handleInput Mask.read result
      else if bitEnabled e.events EPOLLOUT then s.served ep eh e rest EPOLLOUT .handleOutput Mask.write result
      else if bitEnabled e.events EPOLLPRI then s.served ep eh e rest EPOLLPRI .handleException Mask.except result
      else if bitEnabled e.events (EPOLLHUP ||| EPOLLERR) then
        { s.removed ep e Mask.allEvents with pending := rest }
      else { s with pending := rest },
    count + 1)

/- The turns an event is good for: one for each of its bits and one more. -/
def weight (e : EpollEvent) : Nat :=
  (if bitEnabled e.events EPOLLIN then 1 else 0) + (if bitEnabled e.events EPOLLOUT then 1 else 0) +
    (if bitEnabled e.events EPOLLPRI then 1 else 0) + 1

def turnsLeft : List EpollEvent → Nat
  | [] => 0
  | e :: rest => weight e + turnsLeft rest

theorem clrEnabled (word bit bit' : BitVec 32) :
    bitEnabled (clrBits word bit) bit' = bitEnabled word (clrBits bit' bit) := by
  simp only [bitEnabled,clrBits]
  rw [BitVec.and_assoc,BitVec.and_comm (~~~bit) bit']

@[simp] theorem clrIn : clrBits EPOLLIN EPOLLIN = 0#32 ∧ clrBits EPOLLOUT EPOLLIN = EPOLLOUT ∧
    clrBits EPOLLPRI EPOLLIN = EPOLLPRI ∧ clrBits (EPOLLHUP ||| EPOLLERR) EPOLLIN = EPOLLHUP ||| EPOLLERR := by
  decide

@[simp] theorem clrOut : clrBits EPOLLIN EPOLLOUT = EPOLLIN ∧ clrBits EPOLLOUT EPOLLOUT = 0#32 ∧
    clrBits EPOLLPRI EPOLLOUT = EPOLLPRI ∧ clrBits (EPOLLHUP ||| EPOLLERR) EPOLLOUT = EPOLLHUP ||| EPOLLERR := by
  decide

@[simp] theorem clrPri : clrBits EPOLLIN EPOLLPRI = EPOLLIN ∧ clrBits EPOLLOUT EPOLLPRI = EPOLLOUT ∧
    clrBits EPOLLPRI EPOLLPRI = 0#32 ∧ clrBits (EPOLLHUP ||| EPOLLERR) EPOLLPRI = EPOLLHUP ||| EPOLLERR := by
  decide

@[simp] theorem enabledZero (word : BitVec 32) : bitEnabled word 0#32 = false := by
  simp [bitEnabled]

@[simp] theorem zeroEnabled (bit : BitVec 32) : bitEnabled 0#32 bit = false := by
  simp [bitEnabled]

/- ++pfd leaves fewer turns, and so does a bit that is cleared. -/
theorem turnsAdvance {e e' : EpollEvent} (less : weight e' < weight e) (rest : List EpollEvent) :
    turnsLeft (advance e' rest false) < turnsLeft (e :: rest) := by
  unfold advance
  split
  · simp only [turnsLeft]
    omega
  · simp only [turnsLeft]
    omega

theorem servedLess (s : EpollDispatch κ) (eh : EventHandler) {e : EpollEvent} (rest : List EpollEvent)
    {bit : BitVec 32} (callback : Callback) (mask : Mask) (result : Int)
    (less : weight { e with events := clrBits e.events bit } < weight e) :
    turnsLeft (s.served ep eh e rest bit callback mask result).pending < turnsLeft (e :: rest) :=
  turnsAdvance less rest

theorem turnLess (s : EpollDispatch κ) (e : EpollEvent) (rest : List EpollEvent) (count : Nat) (result : Int) :
    turnsLeft (s.turn ep e rest count result).1.pending < turnsLeft (e :: rest) := by
  have skipped : turnsLeft rest < turnsLeft (e :: rest) := by
    simp only [turnsLeft,weight]
    omega
  unfold turn
  split
  · exact skipped
  · split
    · rename_i enabled
      exact servedLess ep s _ rest _ _ _ (by simp [weight,clrEnabled,enabled])
    · split
      · rename_i enabled
        exact servedLess ep s _ rest _ _ _ (by simp [weight,clrEnabled,enabled])
      · split
        · rename_i enabled
          exact servedLess ep s _ rest _ _ _ (by simp [weight,clrEnabled,enabled])
        · split
          · exact skipped
          · exact skipped

/- The loop from count on. results are what the callbacks return, in the order of the
upcalls. -/
def dispatchLoop (results : Nat → Int) (s : EpollDispatch κ) (count : Nat) : EpollDispatch κ :=
  match _ : s.pending with
  | [] => s
  | e :: rest =>
    if count < MAX_REACTOR_PROCESS_FDS_ONE_TIME then
      dispatchLoop results (s.turn ep e rest count (results s.upcalls.length)).1
        (s.turn ep e rest count (results s.upcalls.length)).2
    else s
termination_by turnsLeft s.pending
decreasing_by
  rw [‹s.pending = e :: rest›]
  exact turnLess ep s e rest count _

section Loop
variable {ep}

theorem loopEmpty (results : Nat → Int) {s : EpollDispatch κ} (none_ : s.pending = []) (count : Nat) :
    s.dispatchLoop ep results count = s := by
  rw [dispatchLoop]
  split
  · rfl
  · rename_i more
    cases none_.symm.trans more

theorem loopTurn (results : Nat → Int) {s : EpollDispatch κ} {e : EpollEvent} {rest : List EpollEvent}
    (here : s.pending = e :: rest) {count : Nat} (open_ : count < MAX_REACTOR_PROCESS_FDS_ONE_TIME) :
    s.dispatchLoop ep results count =
      dispatchLoop ep results (s.turn ep e rest count (results s.upcalls.length)).1
        (s.turn ep e rest count (results s.upcalls.length)).2 := by
  rw [dispatchLoop]
  split
  · rename_i none_
    cases here.symm.trans none_
  · rename_i more
    cases here.symm.trans more
    rw [if_pos open_]

theorem loopFull (results : Nat → Int) (s : EpollDispatch κ) {count : Nat}
    (full : ¬count < MAX_REACTOR_PROCESS_FDS_ONE_TIME) : s.dispatchLoop ep results count = s := by
  rw [dispatchLoop]
  split
  · rfl
  · rw [if_neg full]

end Loop

def dispatchIoEvents (results : Nat → Int) (s : EpollDispatch κ) : EpollDispatch κ := s.dispatchLoop ep results 0

/- The upcall for a bit of an event, if it is set. -/
def wants (e : EpollEvent) (eh : EventHandler) (bit : BitVec 32) (callback : Callback) : List Upcall :=
  if bitEnabled e.events bit then [⟨callback,e.fd,eh,e.reported⟩] else []

/- The upcalls an event asks for, in their order: the last is the handle_close of a hangup
or an error. -/
def due (rep : HandlerRepository) (e : EpollEvent) : List Upcall :=
  match rep.find e.fd with
  | none => []
  | some eh =>
    wants e eh EPOLLIN .handleInput ++ wants e eh EPOLLOUT .handleOutput ++
      wants e eh EPOLLPRI .handleException ++ wants e eh (EPOLLHUP ||| EPOLLERR) .handleClose

theorem advanceDue (rep : HandlerRepository) (e : EpollEvent) (rest : List EpollEvent) :
    (advance e rest false).flatMap (due rep) = due rep e ++ rest.flatMap (due rep) := by
  unfold advance
  split
  · rename_i consumed
    have empty : e.events = 0#32 := by simpa using consumed
    have nothing : due rep e = [] := by
      unfold due
      split
      · rfl
      · simp [wants,empty]
    rw [nothing,List.nil_append]
  · exact List.flatMap_cons

theorem advanceFds (e : EpollEvent) (rest : List EpollEvent) :
    ((advance e rest false).map EpollEvent.fd).Sublist (e.fd :: rest.map EpollEvent.fd) := by
  unfold advance
  split
  · exact List.sublist_cons_self _ _
  · exact List.Sublist.refl _

theorem removeFindOther (r : UnixReactor κ) {h h' : Handle} (other : h' ≠ h) (m : Mask) :
    (removeHandlerI ep id r h m).1.rep.find h' = r.rep.find h' := by
  unfold removeHandlerI
  by_cases bound : r.rep.find h = none
  · rw [if_pos bound]
  · simp only [id,ite_self,bound,and_false,if_false]
    split
    · exact setMaskFind _ _ _ _
    · dsimp only
      split
      · rw [unbindFind,if_neg other]
        exact setMaskFind _ _ _ _
      · exact setMaskFind _ _ _ _

/- What has been made of what is due, and what is still pending of it. -/
structure Kept (s t : EpollDispatch κ) : Prop where
  fds : (t.pending.map EpollEvent.fd).Sublist (s.pending.map EpollEvent.fd)
  due : (s.pending.map EpollEvent.fd).Nodup →
    t.upcalls ++ t.pending.flatMap (due t.reactor.rep) = s.upcalls ++ s.pending.flatMap (due s.reactor.rep)
  pc : t.pc = s.pc

theorem keptRefl (s : EpollDispatch κ) : Kept s s := ⟨List.Sublist.refl _,fun _ => rfl,rfl⟩

theorem keptTrans {s t u : EpollDispatch κ} (first : Kept s t) (later : Kept t u) : Kept s u where
  fds := later.fds.trans first.fds
  due := fun distinct => (later.due (first.fds.nodup distinct)).trans (first.due distinct)
  pc := later.pc.trans first.pc

/- A turn from count to count'. -/
structure Turned (s t : EpollDispatch κ) (count count' : Nat) : Prop extends Kept s t where
  made : ∃ made, t.upcalls = s.upcalls ++ made ∧ made.length + count ≤ count'
  counted : count' ≤ count + 1

section Turn
variable {s : EpollDispatch κ} {e : EpollEvent} {rest : List EpollEvent} {eh : EventHandler}

theorem servedTurned (here : s.pending = e :: rest) {bit : BitVec 32} {callback : Callback} (mask : Mask) {result : Int}
    (quiet : 0 ≤ result) (count : Nat)
    (first : due s.reactor.rep e =
      ⟨callback,e.fd,eh,e.reported⟩ :: due s.reactor.rep { e with events := clrBits e.events bit }) :
    Turned s (s.served ep eh e rest bit callback mask result) count (count + 1) := by
  have calm : ¬ result < 0 := Int.not_lt.2 quiet
  simp only [served,if_neg calm]
  exact {
    made := ⟨[⟨callback,e.fd,eh,e.reported⟩],rfl,by simp [Nat.add_comm]⟩
    counted := Nat.le_refl _
    fds := by
      rw [here]
      exact advanceFds { e with events := clrBits e.events bit } rest
    due := fun _ => by
      rw [advanceDue,here,List.flatMap_cons,first]
      simp
    pc := rfl }

/- The event is passed and nothing of it was due. -/
theorem skippedTurned (here : s.pending = e :: rest) (nothing : due s.reactor.rep e = []) {count count' : Nat}
    (least : count ≤ count') (most : count' ≤ count + 1) : Turned s { s with pending := rest } count count' where
  made := ⟨[],(List.append_nil _).symm,by simpa using least⟩
  counted := most
  fds := by
    rw [here]
    exact List.sublist_cons_self _ _
  due := fun _ => by rw [here,List.flatMap_cons,nothing,List.nil_append]
  pc := rfl

/- The other descriptors stay bound when the one of a hangup is removed. -/
theorem hungTurned (here : s.pending = e :: rest) (found : s.reactor.rep.find e.fd = some eh)
    (only : due s.reactor.rep e = [⟨.handleClose,e.fd,eh,e.reported⟩]) (mask : Mask) (count : Nat) :
    Turned s { s.removed ep e mask with pending := rest } count (count + 1) := by
  simp only [removed,found]
  exact {
    made := ⟨[⟨.handleClose,e.fd,eh,e.reported⟩],rfl,by simp [Nat.add_comm]⟩
    counted := Nat.le_refl _
    fds := by
      rw [here]
      exact List.sublist_cons_self _ _
    due := fun distinct => by
      rw [here,List.map_cons,List.nodup_cons] at distinct
      have same : rest.flatMap (due (removeHandlerI ep id s.reactor e.fd mask).1.rep) =
          rest.flatMap (due s.reactor.rep) := List.flatMap_congr fun e' mem => by
        have other : e'.fd ≠ e.fd := fun eq => distinct.1 (eq ▸ List.mem_map_of_mem mem)
        simp only [due,removeFindOther ep s.reactor other]
      rw [here,List.flatMap_cons,only,same]
      simp
    pc := rfl }

theorem turnTurned (here : s.pending = e :: rest) (count : Nat) {result : Int} (quiet : 0 ≤ result) :
    Turned s (s.turn ep e rest count result).1 count (s.turn ep e rest count result).2 := by
  unfold turn
  split
  · rename_i unbound
    exact skippedTurned here (by simp [due,unbound]) (Nat.le_refl _) (Nat.le_succ _)
  · rename_i eh found
    dsimp only
    split
    · rename_i enabled
      exact servedTurned ep here _ quiet count (by simp [due,found,wants,clrEnabled,enabled])
    · rename_i noIn
      split
      · rename_i enabled
        exact servedTurned ep here _ quiet count (by simp [due,found,wants,clrEnabled,noIn,enabled])
      · rename_i noOut
        split
        · rename_i enabled
          exact servedTurned ep here _ quiet count (by simp [due,found,wants,clrEnabled,noIn,noOut,enabled])
        · rename_i noPri
          split
          · rename_i hung
            exact hungTurned ep here found (by simp [due,found,wants,noIn,noOut,noPri,hung]) _ count
          · rename_i fine
            exact skippedTurned here (by simp [due,found,wants,noIn,noOut,noPri,fine]) (Nat.le_succ _) (Nat.le_refl _)

end Turn

/- The loop from count on. -/
structure Called (s t : EpollDispatch κ) (count : Nat) : Prop extends Kept s t where
  made : ∃ made, t.upcalls = s.upcalls ++ made ∧
    (count ≤ MAX_REACTOR_PROCESS_FDS_ONE_TIME → made.length + count ≤ MAX_REACTOR_PROCESS_FDS_ONE_TIME)

theorem stayed (s : EpollDispatch κ) (count : Nat) : Called s s count :=
  ⟨keptRefl s,[],(List.append_nil _).symm,fun within => by simpa using within⟩

theorem turnedCalled {s t u : EpollDispatch κ} {count count' : Nat} (turned : Turned s t count count')
    (open_ : count < MAX_REACTOR_PROCESS_FDS_ONE_TIME) (called : Called t u count') : Called s u count := by
  obtain ⟨first,isFirst,few⟩ := turned.made
  obtain ⟨later,isLater,bound⟩ := called.made
  refine ⟨keptTrans turned.toKept called.toKept,first ++ later,?_,fun _ => ?_⟩
  · rw [isLater,isFirst,List.append_assoc]
  · have within := bound (Nat.le_trans turned.counted open_)
    rw [List.length_append]
    omega

theorem loopCalled {results : Nat → Int} (quiet : ∀ n, 0 ≤ results n) (s : EpollDispatch κ) (count : Nat) :
    Called s (s.dispatchLoop ep results count) count := by
  induction s, count using dispatchLoop.induct ep results with
  | case1 s count none_ =>
    rw [loopEmpty results none_]
    exact stayed s count
  | case2 s count e rest here open_ ih =>
    rw [loopTurn results here open_]
    exact turnedCalled (turnTurned ep here count (quiet _)) open_ ih
  | case3 s count e rest here full =>
    rw [loopFull results s full]
    exact stayed s count

/- The acts of dispatch_io_events itself. -/
def Own (results : Nat → Int) : DispatchAct → Prop
  | .enter | .loop | .handleClosed => True
  | .returned result => ∃ n, result = results n
  | _ => False

/- dispatch_io_events gets from s to t by acts of its own. -/
def Reaches (results : Nat → Int) (s t : EpollDispatch κ) : Prop :=
  ∃ acts, (∀ a ∈ acts, Own results a) ∧ run (EpollDispatch.step ep) s acts = some t

section Reaches
variable {ep} {results : Nat → Int} {s t u : EpollDispatch κ}

theorem reachesHere (s : EpollDispatch κ) : Reaches ep results s s := ⟨[],by simp,rfl⟩

theorem reachesStep {a : DispatchAct} (own : Own results a) (did : s.step ep a = some t)
    (reaches : Reaches ep results t u) : Reaches ep results s u := by
  obtain ⟨acts,owns,ran⟩ := reaches
  refine ⟨a :: acts,?_,?_⟩
  · intro a' mem
    rcases List.mem_cons.1 mem with rfl | later
    · exact own
    · exact owns a' later
  · rw [run,did]
    exact ran

theorem reachesTrans (first : Reaches ep results s t) (later : Reaches ep results t u) : Reaches ep results s u := by
  obtain ⟨acts,owns,ran⟩ := first
  induction acts generalizing s with
  | nil =>
    cases Option.some.inj ran
    exact later
  | cons a acts ih =>
    obtain ⟨m,did,rest⟩ := Option.bind_eq_some_iff.1 ran
    exact reachesStep (owns a List.mem_cons_self) did (ih (fun a' mem => owns a' (List.mem_cons_of_mem a mem)) rest)

/- From the call of a callback to the head of the loop. -/
theorem servedReaches {e : EpollEvent} {eh : EventHandler} (found : s.reactor.rep.find e.fd = some eh)
    (rest : List EpollEvent) (bit : BitVec 32) (callback : Callback) (mask : Mask) (count n : Nat) (pc : DispatchPc) :
    Reaches ep results (EpollDispatch.upcall { s with pc := pc } eh e rest bit callback mask count)
      { s.served ep eh e rest bit callback mask (results n) with pc := .looping count } := by
  have returned : Own results (.returned (results n)) := ⟨n,rfl⟩
  by_cases less : results n < 0
  · have closes : EpollDispatch.step ep (EpollDispatch.upcall { s with pc := pc } eh e rest bit callback mask count)
        (.returned (results n)) = some { s with
          pc := .removing mask false count
          pending := { e with events := clrBits e.events bit } :: rest
          upcalls := s.upcalls ++ [⟨callback,e.fd,eh,e.reported⟩] ++ [⟨.handleClose,e.fd,eh,e.reported⟩] } := by
      simp [EpollDispatch.step,upcall,less,remove,found]
    refine reachesStep returned closes (reachesStep (a := .handleClosed) trivial ?_ (reachesHere _))
    simp [EpollDispatch.step,served,less,removed,found]
  · refine reachesStep returned ?_ (reachesHere _)
    simp [EpollDispatch.step,upcall,served,less]

theorem turnReaches {e : EpollEvent} {rest : List EpollEvent} (here : s.pending = e :: rest) {count : Nat}
    (open_ : count < MAX_REACTOR_PROCESS_FDS_ONE_TIME) (n : Nat) :
    Reaches ep results { s with pc := .looping count }
      { (s.turn ep e rest count (results n)).1 with pc := .looping (s.turn ep e rest count (results n)).2 } := by
  have looped : EpollDispatch.step ep { s with pc := .looping count } .loop =
      some (dispatchOne { s with pc := .looping count } e rest count) := by
    simp [EpollDispatch.step,here,open_]
  refine reachesStep (a := .loop) trivial looped ?_
  unfold turn dispatchOne
  cases found : s.reactor.rep.find e.fd with
  | none => exact reachesHere _
  | some eh =>
    dsimp only
    split
    · exact servedReaches found rest _ _ _ _ n _
    · split
      · exact servedReaches found rest _ _ _ _ n _
      · split
        · exact servedReaches found rest _ _ _ _ n _
        · split
          · refine reachesStep (a := .handleClosed) trivial ?_ (reachesHere _)
            simp [EpollDispatch.step,remove,removed,found,here,advance]
          · exact reachesHere _

/- So a call comes back after finitely many steps. -/
theorem loopReaches (s : EpollDispatch κ) (count : Nat) :
    Reaches ep results { s with pc := .looping count } { s.dispatchLoop ep results count with pc := .outside } := by
  induction s, count using dispatchLoop.induct ep results with
  | case1 s count none_ =>
    rw [loopEmpty results none_]
    refine reachesStep (a := .loop) trivial ?_ (reachesHere _)
    simp [EpollDispatch.step,none_]
  | case2 s count e rest here open_ ih =>
    rw [loopTurn results here open_]
    exact reachesTrans (turnReaches here open_ _) ih
  | case3 s count e rest here full =>
    rw [loopFull results s full]
    refine reachesStep (a := .loop) trivial ?_ (reachesHere _)
    simp [EpollDispatch.step,here,full]

end Reaches

theorem loopLess (results : Nat → Int) (s : EpollDispatch κ) (count : Nat) :
    turnsLeft (s.dispatchLoop ep results count).pending ≤ turnsLeft s.pending := by
  induction s, count using dispatchLoop.induct ep results with
  | case1 s count none_ => exact Nat.le_of_eq (by rw [loopEmpty results none_])
  | case2 s count e rest here open_ ih =>
    rw [loopTurn results here open_,here]
    exact Nat.le_trans ih (Nat.le_of_lt (turnLess ep s e rest count _))
  | case3 s count e rest here full => exact Nat.le_of_eq (by rw [loopFull results s full])

/- A call that finds an event left takes a turn at least. -/
theorem callLess (results : Nat → Int) {s : EpollDispatch κ} (more : s.pending ≠ []) :
    turnsLeft (s.dispatchIoEvents ep results).pending < turnsLeft s.pending := by
  obtain ⟨e,rest,here⟩ := List.exists_cons_of_ne_nil more
  rw [dispatchIoEvents,loopTurn results here (by decide),here]
  exact Nat.lt_of_le_of_lt (loopLess ep results _ _) (turnLess ep s e rest 0 _)

section Calls
variable {ep} {results : Nat → Int}

theorem callReaches (quiet : ∀ n, 0 ≤ results n) {s : EpollDispatch κ} (idle : s.pc = .outside) :
    Reaches ep results s (s.dispatchIoEvents ep results) := by
  have entered : s.step ep .enter = some { s with pc := .looping 0 } := by
    simp [EpollDispatch.step,idle]
  have reaches : Reaches ep results { s with pc := .looping 0 }
      { s.dispatchIoEvents ep results with pc := .outside } := loopReaches s 0
  have back : (s.dispatchIoEvents ep results).pc = .outside := (loopCalled ep quiet s 0).pc.trans idle
  rw [← back] at reaches
  exact reachesStep (a := .enter) trivial entered reaches

theorem callsKept (quiet : ∀ n, 0 ≤ results n) (s : EpollDispatch κ) (n : Nat) :
    Kept s ((dispatchIoEvents ep results)^[n] s) := by
  induction n with
  | zero => exact keptRefl s
  | succ n ih =>
    rw [Function.iterate_succ_apply']
    exact keptTrans ih (loopCalled ep quiet _ 0).toKept

theorem callsEmpty (results : Nat → Int) (s : EpollDispatch κ) :
    ∃ n, ((dispatchIoEvents ep results)^[n] s).pending = [] := by
  by_cases none_ : s.pending = []
  · exact ⟨0,none_⟩
  · have less := callLess ep results none_
    obtain ⟨n,empty⟩ := callsEmpty results (s.dispatchIoEvents ep results)
    exact ⟨n + 1,empty⟩
termination_by turnsLeft s.pending

end Calls

/- The events one epoll_wait reports, dispatched by repeated calls: every call comes back
after at most 32 upcalls, some call is the last, and by then each bound descriptor has
had an upcall for each of its bits, in order, and no other. Until then poll_events leaves
epoll_wait alone. -/
theorem deliversOnce {results : Nat → Int} (quiet : ∀ n, 0 ≤ results n) {s : EpollDispatch κ} (idle : s.pc = .outside)
    (consumed : s.pending = []) {wait : κ → κ × Option (List (Handle × BitVec 32))} {k : κ}
    {batch : List (Handle × BitVec 32)} (waited : wait s.reactor.kernel = (k,some batch))
    (distinct : (batch.map Prod.fst).Nodup) :
    (∀ n, Reaches ep results ((dispatchIoEvents ep results)^[n] (pollEventsI wait s).1)
        ((dispatchIoEvents ep results)^[n + 1] (pollEventsI wait s).1) ∧
      ∃ made, ((dispatchIoEvents ep results)^[n + 1] (pollEventsI wait s).1).upcalls =
        ((dispatchIoEvents ep results)^[n] (pollEventsI wait s).1).upcalls ++ made ∧ made.length ≤ 32) ∧
    (∃ n, ((dispatchIoEvents ep results)^[n] (pollEventsI wait s).1).pending = []) ∧
    (∀ n, ((dispatchIoEvents ep results)^[n] (pollEventsI wait s).1).pending = [] →
      ((dispatchIoEvents ep results)^[n] (pollEventsI wait s).1).upcalls =
        s.upcalls ++ batch.flatMap fun e => due s.reactor.rep ⟨e.1,e.2,s.reactor.rep.find e.1⟩) ∧
    ∀ n, ((dispatchIoEvents ep results)^[n] (pollEventsI wait s).1).pending ≠ [] → ∀ wait',
      pollEventsI wait' ((dispatchIoEvents ep results)^[n] (pollEventsI wait s).1) =
        ((dispatchIoEvents ep results)^[n] (pollEventsI wait s).1,1) := by
  obtain ⟨t,polled⟩ : ∃ t, (pollEventsI wait s).1 = t := ⟨_,rfl⟩
  have start : t = { s with
      reactor := { s.reactor with kernel := k }
      pending := batch.map fun e => ⟨e.1,e.2,s.reactor.rep.find e.1⟩ } := by
    rw [← polled]
    simp [pollEventsI,pollEvents,consumed,waited]
  rw [polled]
  have outside : ∀ n, ((dispatchIoEvents ep results)^[n] t).pc = .outside := fun n => by
    rw [(callsKept quiet t n).pc,start]
    exact idle
  refine ⟨fun n => ?_,callsEmpty results t,fun n empty => ?_,fun n more wait' => if_pos more⟩
  · rw [Function.iterate_succ_apply']
    refine ⟨callReaches quiet (outside n),?_⟩
    obtain ⟨made,isMade,few⟩ := (loopCalled ep quiet ((dispatchIoEvents ep results)^[n] t) 0).made
    exact ⟨made,isMade,few (by decide)⟩
  · have fds : t.pending.map EpollEvent.fd = batch.map Prod.fst := by
      rw [start]
      simp [Function.comp_def]
    have kept : Kept t ((dispatchIoEvents ep results)^[n] t) := callsKept quiet t n
    have all := kept.due (by rw [fds]; exact distinct)
    rw [empty,List.flatMap_nil,List.append_nil] at all
    have owed : t.upcalls ++ t.pending.flatMap (due t.reactor.rep) =
        s.upcalls ++ batch.flatMap fun e => due s.reactor.rep ⟨e.1,e.2,s.reactor.rep.find e.1⟩ := by
      rw [start]
      simp [List.flatMap_map]
    exact all.trans owed

/- Handlers 0 and 1 for descriptors 4 and 5, which hangs up. -/
def bothBound : UnixReactor InterestSet :=
  (registerHandlerI linux (registerHandlerI linux (Reactor.opened 16) 4 (some 0) Mask.read).1 5 (some 1) Mask.write).1

def bothReady : List (Handle × BitVec 32) := [(4,EPOLLIN ||| EPOLLPRI),(5,EPOLLOUT ||| EPOLLHUP)]

theorem bothDelivered :
    ∃ n, ((dispatchIoEvents linux fun _ => 0)^[n]
        (pollEventsI (fun k => (k,some bothReady)) (opened bothBound)).1).upcalls =
      [⟨.handleInput,4,0,some 0⟩,⟨.handleException,4,0,some 0⟩,⟨.handleOutput,5,1,some 1⟩,⟨.handleClose,5,1,some 1⟩] := by
  obtain ⟨_,⟨n,empty⟩,all,_⟩ := @deliversOnce InterestSet linux (fun _ => 0) (fun _ => Int.le_refl 0)
    (opened bothBound) rfl rfl (fun k => (k,some bothReady)) _ bothReady rfl (by decide)
  exact ⟨n,(all n empty).trans (by decide)⟩

end EpollDispatch
end CuteNdk.Reactor
