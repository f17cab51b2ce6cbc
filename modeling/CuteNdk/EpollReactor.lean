import CuteNdk.Lib.Run
import CuteNdk.HandlerRepository

/-! Registration with the epoll reactor: the handler table on one side and the
kernel's interest set on the other. The code sees the kernel through epoll_ctl
only, which is therefore a parameter; on Linux it is the interest set below. -/
namespace CuteNdk.Reactor

inductive Errno where | eexist | enoent | other (n : Nat) deriving DecidableEq, Repr
inductive EpollOp where | add | mod | del deriving DecidableEq, Repr
inductive HandleOpt where | addMask | setMask | clrMask deriving DecidableEq, Repr

/- epoll_ctl: the kernel state it leaves and the errno when it returns -1. -/
structure Epoll (κ : Type) where
  ctl : κ → EpollOp → Handle → BitVec 32 → κ × Option Errno

def EPOLLIN : BitVec 32 := 0x001
def EPOLLPRI : BitVec 32 := 0x002
def EPOLLOUT : BitVec 32 := 0x004
def EPOLLET : BitVec 32 := 1 <<< 31

def reactorMaskToEpollEvent (m : Mask) : BitVec 32 :=
  let events : BitVec 32 := 0
  let events := if bitEnabled m Mask.read then setBits events EPOLLIN else events
  let events := if bitEnabled m Mask.epollEdge then setBits events EPOLLET else events
  let events := if bitEnabled m Mask.accept then setBits events EPOLLIN else events
  let events := if bitEnabled m Mask.connect then setBits events (EPOLLIN ||| EPOLLOUT) else events
  let events := if bitEnabled m Mask.write then setBits events EPOLLOUT else events
  if bitEnabled m Mask.except then setBits events EPOLLPRI else events

def handleOptI {κ : Type} (ep : Epoll κ) (k : κ) (h : Handle) (m : Mask) : HandleOpt → κ × Int
  | .addMask =>
    match ep.ctl k .add h (reactorMaskToEpollEvent m) with
    | (k,none) => (k,0)
    | (k,some e) => if e = .eexist then (k,0) else (k,-1)
  | .setMask =>
    match ep.ctl k .mod h (reactorMaskToEpollEvent m) with
    | (k,none) => (k,0)
    | (k,some e) =>
      -- "Retry it as an add"; any other errno is only logged
      if e = .enoent then
        match ep.ctl k .add h (reactorMaskToEpollEvent m) with
        | (k,none) => (k,0)
        | (k,some _) => (k,-1)
      else (k,0)
  | .clrMask =>
    match ep.ctl k .del h 0 with
    | (k,none) => (k,0)
    | (k,some e) => if e = .enoent then (k,0) else (k,-1)

structure UnixReactor (κ : Type) where
  rep : HandlerRepository
  kernel : κ

section Operations
variable {κ : Type} (ep : Epoll κ)

def registerHandlerI (r : UnixReactor κ) (h : Handle) (eh : Option EventHandler) (m : Mask) :
    UnixReactor κ × Int :=
  if r.rep.find h = none then
    match r.rep.bind h eh m with
    | (rep,0) =>
      match handleOptI ep r.kernel h m .addMask with
      | (k,0) => (⟨rep,k⟩,0)
      | (k,_) => (⟨(rep.unbind h).1,k⟩,-1)
    | (rep,_) => (⟨rep,r.kernel⟩,-1)
  else
    let newMask := setBits (r.rep.mask h) m
    let rep := r.rep.setMask h newMask
    let (k,result) := handleOptI ep r.kernel h newMask .setMask
    (⟨rep,k⟩,result)

/- handleClose is what the handler's handle_close does to the reactor. -/
def removeHandlerI (handleClose : UnixReactor κ → UnixReactor κ) (r : UnixReactor κ) (h : Handle)
    (m : Mask) : UnixReactor κ × Int :=
  if r.rep.find h = none then (r,-1)
  else
    let call := bitDisabled m Mask.dontCall
    let r := if call then handleClose r else r
    if call ∧ r.rep.find h = none then (r,0)
    else
      let newMask := clrBits (r.rep.mask h) m
      let rep := r.rep.setMask h newMask
      let t := if newMask ≠ Mask.null then HandleOpt.setMask else .clrMask
      match handleOptI ep r.kernel h newMask t with
      | (k,-1) => (⟨rep,k⟩,-1)
      | (k,_) => (⟨if newMask = Mask.null then (rep.unbind h).1 else rep,k⟩,0)

def suspendHandlerI (r : UnixReactor κ) (h : Handle) : UnixReactor κ × Int :=
  if r.rep.find h = none then (r,-1)
  else if r.rep.suspended h then (r,0)
  else
    match handleOptI ep r.kernel h Mask.null .clrMask with
    | (k,-1) => (⟨r.rep,k⟩,-1)
    | (k,_) => (⟨r.rep.suspend h,k⟩,0)

def resumeHandlerI (r : UnixReactor κ) (h : Handle) : UnixReactor κ × Int :=
  if r.rep.find h = none ∨ r.rep.suspended h = false then (r,-1)
  else
    let m := r.rep.mask h
    if m = Mask.null then (r,-1)
    else
      match handleOptI ep r.kernel h m .addMask with
      | (k,-1) => (⟨r.rep,k⟩,-1)
      | (k,_) => (⟨r.rep.resume h,k⟩,0)

end Operations

/- The interest set of an epoll instance: the events each present fd waits for. -/
abbrev InterestSet := Handle → Option (BitVec 32)

/- ADD fails iff the fd is present, MOD and DEL iff it is absent. -/
def linux : Epoll InterestSet where
  ctl k op h events :=
    match op, k h with
    | .add, none => (Function.update k h (some events),none)
    | .add, some _ => (k,some .eexist)
    | .mod, none => (k,some .enoent)
    | .mod, some _ => (Function.update k h (some events),none)
    | .del, none => (k,some .enoent)
    | .del, some _ => (Function.update k h none,none)

inductive Action where
  | register (h : Handle) (eh : Option EventHandler) (m : Mask)
  | remove (h : Handle) (m : Mask)
  | suspend (h : Handle)
  | resume (h : Handle)
  deriving DecidableEq, Repr

def step (r : UnixReactor InterestSet) : Action → Option (UnixReactor InterestSet)
  | .register h eh m => some (registerHandlerI linux r h eh m).1
  | .remove h m => some (removeHandlerI linux id r h m).1
  | .suspend h => some (suspendHandlerI linux r h).1
  | .resume h => some (resumeHandlerI linux r h).1

def opened (size : Int) : UnixReactor InterestSet := ⟨HandlerRepository.opened size,fun _ => none⟩

/- The kernel polls a handle iff it is bound and not suspended, for the events of
its stored mask, and only bound handles are marked suspended. -/
structure Agree (r : UnixReactor InterestSet) : Prop where
  interest : ∀ h, r.kernel h =
    if r.rep.find h ≠ none ∧ r.rep.suspended h = false then
      some (reactorMaskToEpollEvent (r.rep.mask h)) else none
  marked : ∀ h, r.rep.suspended h = true → r.rep.find h ≠ none

/- No registration and no removal touches a suspended handle. -/
def LeavesSuspended (r : UnixReactor InterestSet) : Action → Prop
  | .register h _ _ | .remove h _ => r.rep.suspended h = false
  | _ => True

/- On Linux the retry makes a mask change unconditional, and so is a removal. -/
theorem linuxSetMask (k : InterestSet) (h : Handle) (m : Mask) :
    handleOptI linux k h m .setMask = (Function.update k h (some (reactorMaskToEpollEvent m)),0) := by
  cases present : k h <;> simp [handleOptI,linux,present]

theorem linuxClrMask (k : InterestSet) (h : Handle) (m : Mask) :
    handleOptI linux k h m .clrMask = (Function.update k h none,0) := by
  cases present : k h with
  | none =>
    have same : Function.update k h none = k := by rw [← present]; exact Function.update_eq_self h k
    simp [handleOptI,linux,present,same]
  | some events => simp [handleOptI,linux,present]

theorem linuxAddMask {k : InterestSet} {h : Handle} (absent : k h = none) (m : Mask) :
    handleOptI linux k h m .addMask = (Function.update k h (some (reactorMaskToEpollEvent m)),0) := by
  simp [handleOptI,linux,absent]

def AgreeAt (r : UnixReactor InterestSet) (h : Handle) : Prop :=
  (r.kernel h = if r.rep.find h ≠ none ∧ r.rep.suspended h = false then
      some (reactorMaskToEpollEvent (r.rep.mask h)) else none) ∧
  (r.rep.suspended h = true → r.rep.find h ≠ none)

theorem agreeIff (r : UnixReactor InterestSet) : Agree r ↔ ∀ h, AgreeAt r h :=
  ⟨fun a h => ⟨a.interest h,a.marked h⟩,fun a => ⟨fun h => (a h).1,fun h => (a h).2⟩⟩

/- Writing the table and the interest set at one handle leaves the agreement of
the others as it was. -/
theorem agreePut {r : UnixReactor InterestSet} (a : Agree r) {h : Handle} (e : EventTuple)
    (events : Option (BitVec 32))
    (at_ : AgreeAt ⟨r.rep.put h e,Function.update r.kernel h events⟩ h) :
    Agree ⟨r.rep.put h e,Function.update r.kernel h events⟩ := by
  refine (agreeIff _).mpr fun h' => ?_
  by_cases same : h' = h
  · exact same ▸ at_
  · obtain ⟨find,mask,suspended⟩ := HandlerRepository.putOther r.rep same e
    have was := (agreeIff r).mp a h'
    simpa only [AgreeAt,find,mask,suspended,Function.update_of_ne same] using was

theorem agreeAtPut {r : UnixReactor InterestSet} {h : Handle} (range : r.rep.handleInRange h)
    (e : EventTuple) (events : Option (BitVec 32)) :
    AgreeAt ⟨r.rep.put h e,Function.update r.kernel h events⟩ h ↔
      (events = if e.eventHandler ≠ none ∧ e.suspended = false then
        some (reactorMaskToEpollEvent e.mask) else none) ∧
      (e.suspended = true → e.eventHandler ≠ none) := by
  obtain ⟨find,mask,suspended⟩ := HandlerRepository.putSame r.rep range e
  simp only [AgreeAt,find,mask,suspended,Function.update_self]

/- A mask change that goes through, on a bound handle. -/
theorem registerBound {r : UnixReactor InterestSet} {h : Handle} (bound : r.rep.find h ≠ none)
    (eh : Option EventHandler) (m : Mask) :
    (registerHandlerI linux r h eh m).1 =
      ⟨r.rep.put h { r.rep.handlers h with mask := setBits (r.rep.mask h) m },
        Function.update r.kernel h (some (reactorMaskToEpollEvent (setBits (r.rep.mask h) m)))⟩ := by
  simp only [registerHandlerI,if_neg bound,linuxSetMask,HandlerRepository.setMaskPut bound]

theorem removeKeeps {r : UnixReactor InterestSet} {h : Handle} (bound : r.rep.find h ≠ none)
    {m : Mask} (rest : clrBits (r.rep.mask h) m ≠ Mask.null) :
    (removeHandlerI linux id r h m).1 =
      ⟨r.rep.put h { r.rep.handlers h with mask := clrBits (r.rep.mask h) m },
        Function.update r.kernel h (some (reactorMaskToEpollEvent (clrBits (r.rep.mask h) m)))⟩ := by
  simp only [removeHandlerI,if_neg bound,id,ite_self,if_neg fun h : _ ∧ _ => bound h.2,if_pos rest,
    linuxSetMask,HandlerRepository.setMaskPut bound,if_neg rest]

theorem removeUnbinds {r : UnixReactor InterestSet} {h : Handle} (bound : r.rep.find h ≠ none)
    {m : Mask} (empty : clrBits (r.rep.mask h) m = Mask.null) :
    (removeHandlerI linux id r h m).1 =
      ⟨r.rep.put h ⟨(r.rep.handlers h).suspended,none,Mask.null⟩,Function.update r.kernel h none⟩ := by
  have range := HandlerRepository.findRange bound
  have still : (r.rep.put h { r.rep.handlers h with mask := Mask.null }).find h ≠ none := by
    rw [(HandlerRepository.putSame r.rep range _).1]
    exact (HandlerRepository.entryFind range).1 ▸ bound
  simp only [removeHandlerI,if_neg bound,id,ite_self,if_neg fun h : _ ∧ _ => bound h.2,empty,
    ne_eq,not_true,if_false,if_true,linuxClrMask,HandlerRepository.setMaskPut bound,
    HandlerRepository.unbindPut still,HandlerRepository.putPut,HandlerRepository.handlersPut]

theorem registerAgree {r : UnixReactor InterestSet} (a : Agree r) {h : Handle}
    (up : r.rep.suspended h = false) (eh : Option EventHandler) (m : Mask) :
    Agree (registerHandlerI linux r h eh m).1 := by
  unfold registerHandlerI
  split
  · rename_i unbound
    have absent : r.kernel h = none := by rw [a.interest h]; simp [unbound]
    cases eh with
    | none => exact a
    | some eh =>
      by_cases range : r.rep.handleInRange h
      · simp only [HandlerRepository.bind,if_pos range,linuxAddMask absent]
        refine agreePut a _ _ ((agreeAtPut range _ _).mpr ?_)
        have entry := (HandlerRepository.entryFind range).2.2.symm.trans up
        simp [entry]
      · simpa only [HandlerRepository.bind,if_neg range] using a
  · rename_i bound
    have range := HandlerRepository.findRange bound
    have same := registerBound bound eh m
    simp only [registerHandlerI,if_neg bound] at same
    dsimp only
    rw [same]
    obtain ⟨find,_,suspended⟩ := HandlerRepository.entryFind range
    refine agreePut a _ _ ((agreeAtPut range _ _).mpr ?_)
    simp only [← find,← suspended,up]
    simp [bound]

theorem removeAgree {r : UnixReactor InterestSet} (a : Agree r) {h : Handle}
    (up : r.rep.suspended h = false) (m : Mask) : Agree (removeHandlerI linux id r h m).1 := by
  by_cases unbound : r.rep.find h = none
  · simpa only [removeHandlerI,if_pos unbound] using a
  · have range := HandlerRepository.findRange unbound
    obtain ⟨find,_,suspended⟩ := HandlerRepository.entryFind range
    by_cases empty : clrBits (r.rep.mask h) m = Mask.null
    · rw [removeUnbinds unbound empty]
      refine agreePut a _ _ ((agreeAtPut range _ _).mpr ?_)
      simp only [← suspended,up]
      simp
    · rw [removeKeeps unbound empty]
      refine agreePut a _ _ ((agreeAtPut range _ _).mpr ?_)
      simp only [← find,← suspended,up]
      simp [unbound]

theorem suspendAgree {r : UnixReactor InterestSet} (a : Agree r) (h : Handle) :
    Agree (suspendHandlerI linux r h).1 := by
  by_cases unbound : r.rep.find h = none
  · simpa only [suspendHandlerI,if_pos unbound] using a
  · have range := HandlerRepository.findRange unbound
    by_cases already : r.rep.suspended h
    · simpa only [suspendHandlerI,if_neg unbound,if_pos already] using a
    · simp only [suspendHandlerI,if_neg unbound,if_neg already,linuxClrMask,HandlerRepository.suspend,
        if_pos range]
      refine agreePut a _ _ ((agreeAtPut range _ _).mpr ?_)
      simp [← (HandlerRepository.entryFind range).1,unbound]

theorem resumeAgree {r : UnixReactor InterestSet} (a : Agree r) (h : Handle) :
    Agree (resumeHandlerI linux r h).1 := by
  by_cases stays : r.rep.find h = none ∨ r.rep.suspended h = false
  · simpa only [resumeHandlerI,if_pos stays] using a
  · obtain ⟨bound,marked⟩ := not_or.mp stays
    have range := HandlerRepository.findRange bound
    by_cases empty : r.rep.mask h = Mask.null
    · simpa only [resumeHandlerI,if_neg stays,if_pos empty] using a
    · have absent : r.kernel h = none := by rw [a.interest h]; simp [marked]
      obtain ⟨find,mask,_⟩ := HandlerRepository.entryFind range
      simp only [resumeHandlerI,if_neg stays,if_neg empty,linuxAddMask absent,
        HandlerRepository.resume,if_pos range]
      refine agreePut a _ _ ((agreeAtPut range _ _).mpr ?_)
      simp [← find,← mask,bound]

theorem stepAgree (r : UnixReactor InterestSet) (action : Action) (r' : UnixReactor InterestSet)
    (a : Agree r) (leaves : LeavesSuspended r action) (next : step r action = some r') : Agree r' := by
  cases action with
  | register h eh m => cases Option.some.inj next; exact registerAgree a leaves eh m
  | remove h m => cases Option.some.inj next; exact removeAgree a leaves m
  | suspend h => cases Option.some.inj next; exact suspendAgree a h
  | resume h => cases Option.some.inj next; exact resumeAgree a h

/- A mask change of a suspended handle re-adds it to the interest set, and a
removal that unbinds it leaves the mark behind. -/
theorem touchedDisagrees (r : UnixReactor InterestSet) (action : Action) (r' : UnixReactor InterestSet)
    (a : Agree r) (touches : ¬ LeavesSuspended r action) (next : step r action = some r') :
    ¬ Agree r' := by
  have readded : ∀ (h : Handle) (m : Mask), r.rep.suspended h = true →
      ¬ Agree ⟨r.rep.put h { r.rep.handlers h with mask := m },
        Function.update r.kernel h (some (reactorMaskToEpollEvent m))⟩ := by
    intro h m marked a'
    have range := HandlerRepository.findRange (a.marked h marked)
    have at_ := ((agreeAtPut range _ _).mp ((agreeIff _).mp a' h)).1
    rw [← (HandlerRepository.entryFind range).2.2,marked] at at_
    simp at at_
  cases action with
  | register h eh m =>
    have marked : r.rep.suspended h = true := by simpa [LeavesSuspended] using touches
    cases Option.some.inj next
    rw [registerBound (a.marked h marked)]
    exact readded h _ marked
  | remove h m =>
    have marked : r.rep.suspended h = true := by simpa [LeavesSuspended] using touches
    have bound := a.marked h marked
    cases Option.some.inj next
    by_cases empty : clrBits (r.rep.mask h) m = Mask.null
    · rw [removeUnbinds bound empty]
      intro a'
      have range := HandlerRepository.findRange bound
      have at_ := ((agreeAtPut range _ _).mp ((agreeIff _).mp a' h)).2
      exact at_ ((HandlerRepository.entryFind range).2.2.symm.trans marked) rfl
    · rw [removeKeeps bound empty]
      exact readded h _ marked
  | suspend h => exact absurd trivial touches
  | resume h => exact absurd trivial touches

theorem openedAgree (size : Int) : Agree (opened size) := by
  have unbound : ∀ h, (HandlerRepository.opened size).find h = none := fun h => ite_self none
  have unmarked : ∀ h, (HandlerRepository.opened size).suspended h = false := fun h => ite_self false
  refine (agreeIff _).mpr fun h => ?_
  simp [AgreeAt,opened,unbound,unmarked]

/- Table and kernel agree all along a run exactly when no step of it registers
or removes a handle that is suspended at that moment. -/
theorem agreeIffLeavesSuspended (size : Int) (actions : List Action) :
    Lib.Always step Agree (opened size) actions ↔
      Lib.Along step LeavesSuspended (opened size) actions :=
  Lib.alwaysIffAlong stepAgree (fun _ a => a) touchedDisagrees (openedAgree size) actions

/- Suspending a handle and then asking for one more event of it brings it back
into the interest set, still marked suspended. -/
theorem suspendedHandleReadded :
    ¬ ∀ size actions, Lib.Always step Agree (opened size) actions := by
  intro claimed
  have always := claimed 8 [.register 5 (some 1) Mask.read,.suspend 5,
    .register 5 (some 1) Mask.write]
  obtain ⟨r,ends,polled,marked⟩ : ∃ r, Lib.run step (opened 8)
      [.register 5 (some 1) Mask.read,.suspend 5,.register 5 (some 1) Mask.write] = some r ∧
        r.kernel 5 = some (EPOLLIN ||| EPOLLOUT) ∧ r.rep.suspended 5 = true :=
    ⟨_,rfl,by decide,by decide⟩
  have interest := (Lib.alwaysAtEnd always ends).interest 5
  rw [polled,marked] at interest
  simp at interest

end CuteNdk.Reactor
