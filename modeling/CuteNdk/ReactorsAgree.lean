import CuteNdk.SelectDispatch
import CuteNdk.EpollRegistration

/-! The two reactors under unix_reactor. register_handler_i, remove_handler_i, suspend_handler_i and
resume_handler_i are one code over two handle_opt_i: the interest set of epoll, and the three lists
select fills its sets from. A caller cannot tell one reactor from the other. -/
namespace CuteNdk.Select
open Reactor (Handle EventHandler EventTuple Mask HandleOpt HandlerRepository Action UnixReactor InterestSet linux
  EPOLLIN EPOLLOUT EPOLLPRI bitEnabled setBits clrBits reactorMaskToEpollEvent)

/- One call, and what it returns. -/
def call (r : SelectReactor) : Action → Option (SelectReactor × Int)
  | .register h eh m => r.registerHandlerI h eh m
  | .remove h m => r.removeHandlerI h m
  | .suspend h => r.suspendHandlerI h
  | .resume h => r.resumeHandlerI h

def selectCalls (r : SelectReactor) : List Action → Option (SelectReactor × List Int)
  | [] => some (r,[])
  | a :: acts => do
    let called ← call r a
    let rest ← selectCalls called.1 acts
    some (rest.1,called.2 :: rest.2)

def epollCalls (e : UnixReactor InterestSet) : List Action → UnixReactor InterestSet × List Int
  | [] => (e,[])
  | a :: acts =>
    let called := Reactor.call linux id e a
    let rest := epollCalls called.1 acts
    (rest.1,called.2 :: rest.2)

/- The event that stands for a list. -/
def epollEvent : Which → BitVec 32
  | .rd => EPOLLIN
  | .wr => EPOLLOUT
  | .ex => EPOLLPRI

def waitsFor (k : InterestSet) (h : Handle) (w : Which) : Bool :=
  match k h with
  | none => false
  | some events => bitEnabled events (epollEvent w)

/- A mask asks epoll for what it asks select for. -/
theorem eventWants (m : Mask) (w : Which) : bitEnabled (reactorMaskToEpollEvent m) (epollEvent w) = wants m w := by
  unfold reactorMaskToEpollEvent wants
  generalize bitEnabled m Mask.read = read
  generalize bitEnabled m Mask.epollEdge = edge
  generalize bitEnabled m Mask.accept = accept
  generalize bitEnabled m Mask.connect = connect
  generalize bitEnabled m Mask.write = write
  generalize bitEnabled m Mask.except = except
  revert read edge accept connect write except
  cases w <;> decide

/- The events handle_opt_i leaves for a handle. -/
def interest (m : Mask) (opt : HandleOpt) : Option (BitVec 32) :=
  if opt = .clrMask then none else some (reactorMaskToEpollEvent m)

/- An add that finds the handle there leaves it as it is. -/
theorem linuxOpt {k : InterestSet} {h : Handle} {m : Mask} {opt : HandleOpt}
    (same : opt = .addMask → ∀ events, k h = some events → events = reactorMaskToEpollEvent m) :
    Reactor.handleOptI linux k h m opt = (Function.update k h (interest m opt),0) := by
  cases opt with
  | addMask =>
    cases present : k h with
    | none => exact Reactor.linuxAddMask present m
    | some events =>
      have stays : Function.update k h (interest m .addMask) = k := by
        rw [← Function.update_eq_self h k,present,same rfl events present,Function.update_idem]
        rfl
      rw [stays]
      simp [Reactor.handleOptI,linux,present]
  | setMask => exact Reactor.linuxSetMask k h m
  | clrMask => exact Reactor.linuxClrMask k h m

/- One table; a handle is in a list if epoll waits for the event of the list; and epoll waits for no
more than what the table has of a handle that is bound. -/
structure Same (n : Nat) (r : SelectReactor) (e : UnixReactor InterestSet) (held : Which → List Handle) : Prop where
  kept : Kept n r held
  rep : e.rep = r.rep
  waits : ∀ h w, h ∈ held w ↔ waitsFor e.kernel h w = true
  stored : ∀ h events, e.kernel h = some events → r.rep.find h ≠ none ∧ events = reactorMaskToEpollEvent (r.rep.mask h)

section Same
variable {n : Nat} {r : SelectReactor} {e : UnixReactor InterestSet} {held : Which → List Handle} {h : Handle}
  {m : Mask} {opt : HandleOpt}

theorem waitedFor {k : InterestSet} {w : Which} (waits : waitsFor k h w = true) : ∃ events, k h = some events := by
  unfold waitsFor at waits
  cases at_ : k h with
  | none =>
    rw [at_] at waits
    cases waits
  | some events => exact ⟨events,rfl⟩

/- What handle_opt_i makes of the lists, at the handle itself and at another. -/
theorem optedHere (s : Same n r e held)
    (add : opt = .addMask → ∀ events, e.kernel h = some events → events = reactorMaskToEpollEvent m) (w : Which) :
    h ∈ opted held h m opt w ↔ wants m w = true := by
  have erased : h ∉ (held w).erase h := fun mem => absurd rfl ((List.Nodup.mem_erase_iff (s.kept.once w)).1 mem).1
  unfold opted
  by_cases null : m = Mask.null
  · rw [if_pos null,null,nullWants]
    exact ⟨fun mem => absurd mem erased,fun no => (nomatch no)⟩
  · rw [if_neg null]
    by_cases wanted : wants m w = true
    · rw [if_pos wanted]
      exact ⟨fun _ => wanted,fun _ => List.mem_insert_self⟩
    · rw [if_neg wanted]
      refine ⟨fun mem => ?_,fun yes => absurd yes wanted⟩
      split at mem
      · -- what is there already is what is added
        rename_i adds
        have waits := (s.waits h w).1 mem
        obtain ⟨events,at_⟩ := waitedFor waits
        unfold waitsFor at waits
        rw [at_,add adds events at_] at waits
        exact (eventWants m w).symm.trans waits
      · exact absurd mem erased

theorem optedOther {k : Handle} (other : k ≠ h) (w : Which) : k ∈ opted held h m opt w ↔ k ∈ held w := by
  have erased : k ∈ (held w).erase h ↔ k ∈ held w := List.mem_erase_of_ne other
  unfold opted
  split
  · exact erased
  · split
    · exact List.mem_insert_iff.trans ⟨fun either => either.resolve_left other,.inr⟩
    · split
      · exact Iff.rfl
      · exact erased

theorem optedWaits (s : Same n r e held) (clr : opt = .clrMask → m = Mask.null)
    (add : opt = .addMask → ∀ events, e.kernel h = some events → events = reactorMaskToEpollEvent m) (k : Handle)
    (w : Which) : k ∈ opted held h m opt w ↔ waitsFor (Function.update e.kernel h (interest m opt)) k w = true := by
  unfold waitsFor
  by_cases here : k = h
  · subst here
    have asked : (match interest m opt with | none => false | some events => bitEnabled events (epollEvent w)) = wants m w := by
      unfold interest
      by_cases clear : opt = .clrMask
      · rw [if_pos clear,clr clear,nullWants]
      · rw [if_neg clear]
        exact eventWants m w
    rw [Function.update_self,asked]
    exact optedHere s add w
  · rw [Function.update_of_ne here]
    exact (optedOther here w).trans (s.waits k w)

/- handle_opt_i of both, with the entry t of the handle written before. -/
theorem optSame (s : Same n r e held) (t : EventTuple) (m : Mask) (opt : HandleOpt) (range : r.rep.handleInRange h)
    (bound : t.eventHandler ≠ none) (mask : opt ≠ .clrMask → t.mask = m) (clr : opt = .clrMask → m = Mask.null)
    (add : opt = .addMask → ∀ events, e.kernel h = some events → events = reactorMaskToEpollEvent m) :
    ∃ r', SelectReactor.handleOptI { r with rep := r.rep.put h t } h m opt = some (r',0) ∧
      Reactor.handleOptI linux e.kernel h m opt = (Function.update e.kernel h (interest m opt),0) ∧
      r'.rep = r.rep.put h t ∧
      Same n r' ⟨r.rep.put h t,Function.update e.kernel h (interest m opt)⟩ (opted held h m opt) := by
  obtain ⟨find,stored,_⟩ := HandlerRepository.putSame r.rep range t
  have kept : Kept n { r with rep := r.rep.put h t } held := repKept s.kept rfl fun w k mem => by
    by_cases here : k = h
    · rw [here,find]
      exact bound
    · rw [(HandlerRepository.putOther r.rep here t).1]
      exact s.kept.bound w k mem
  obtain ⟨r',did,kept',rep⟩ := optKept kept (find ▸ bound) m opt
  refine ⟨r',did,linuxOpt add,rep,{ kept := kept', rep := rep.symm, waits := optedWaits s clr add, stored := ?_ }⟩
  intro k events at_
  have rep : r'.rep = r.rep.put h t := rep
  rw [rep]
  dsimp only at at_
  by_cases here : k = h
  · subst here
    rw [Function.update_self] at at_
    unfold interest at at_
    split at at_
    · cases at_
    · rename_i sets
      cases at_
      rw [find,stored,mask sets]
      exact ⟨bound,rfl⟩
  · rw [Function.update_of_ne here] at at_
    obtain ⟨find',stored',_⟩ := HandlerRepository.putOther r.rep here t
    rw [find',stored']
    exact s.stored k events at_

/- A write to the table that no handle epoll waits for sees. -/
theorem repSame (s : Same n r e held) (rep : HandlerRepository) (size : rep.maxSize = r.rep.maxSize)
    (sees : ∀ k, e.kernel k ≠ none → rep.find k = r.rep.find k ∧ rep.mask k = r.rep.mask k) :
    Same n { r with rep := rep } ⟨rep,e.kernel⟩ held where
  kept := repKept s.kept size fun w k mem => by
    obtain ⟨events,at_⟩ := waitedFor ((s.waits k w).1 mem)
    rw [(sees k (by rw [at_]; exact Option.some_ne_none events)).1]
    exact s.kept.bound w k mem
  rep := rfl
  waits := s.waits
  stored k events at_ := by
    obtain ⟨find,mask⟩ := sees k (by rw [at_]; exact Option.some_ne_none events)
    rw [find,mask]
    exact s.stored k events at_

theorem unbindOther (rep : HandlerRepository) {k : Handle} (other : k ≠ h) :
    (rep.unbind h).1.find k = rep.find k ∧ (rep.unbind h).1.mask k = rep.mask k := by
  by_cases bound : rep.find h = none
  · rw [HandlerRepository.unbind,if_pos bound]
    exact ⟨rfl,rfl⟩
  · rw [HandlerRepository.unbindPut bound]
    obtain ⟨find,mask,_⟩ := HandlerRepository.putOther rep other ⟨(rep.handlers h).suspended,none,Mask.null⟩
    exact ⟨find,mask⟩

/- Both return the same. -/
def Agreed (n : Nat) (r : SelectReactor) (e : UnixReactor InterestSet) (a : Action) : Prop :=
  ∃ r' e' answer held', call r a = some (r',answer) ∧ Reactor.call linux id e a = (e',answer) ∧ Same n r' e' held'

theorem registerSame {k : InterestSet} (s : Same n r ⟨r.rep,k⟩ held) (h : Handle) (eh : Option EventHandler) (m : Mask) :
    Agreed n r ⟨r.rep,k⟩ (.register h eh m) := by
  by_cases unbound : r.rep.find h = none
  · have absent : k h = none := by
      cases at_ : k h with
      | none => rfl
      | some events => exact absurd unbound (s.stored h events at_).1
    have refused (failed : r.rep.bind h eh m = (r.rep,-1)) : Agreed n r ⟨r.rep,k⟩ (.register h eh m) := by
      refine ⟨r,⟨r.rep,k⟩,-1,held,?_,?_,s⟩
      · simp only [call,SelectReactor.registerHandlerI,if_pos unbound,failed]
        rfl
      · simp only [Reactor.call,Reactor.registerHandlerI,if_pos unbound,failed]
    cases eh with
    | none => exact refused rfl
    | some eh =>
      by_cases range : r.rep.handleInRange h
      · have put : r.rep.bind h (some eh) m = (r.rep.put h ⟨(r.rep.handlers h).suspended,some eh,m⟩,0) := if_pos range
        obtain ⟨r',did,asked,_,s'⟩ := optSame s ⟨(r.rep.handlers h).suspended,some eh,m⟩ m .addMask range
          (Option.some_ne_none eh) (fun _ => rfl) (fun no => absurd no (by decide))
          (fun _ events at_ => absurd (absent.symm.trans at_) (Option.some_ne_none events).symm)
        refine ⟨r',_,0,_,?_,?_,s'⟩
        · simp only [call,SelectReactor.registerHandlerI,if_pos unbound,put,ne_eq,not_true_eq_false,if_false]
          exact Option.bind_eq_some_iff.2 ⟨_,did,if_neg (not_not.2 rfl)⟩
        · simp only [Reactor.call,Reactor.registerHandlerI,if_pos unbound,put,asked]
      · exact refused (if_neg range)
  · have range := HandlerRepository.findRange unbound
    have write := HandlerRepository.setMaskPut unbound (setBits (r.rep.mask h) m)
    obtain ⟨find,_,_⟩ := HandlerRepository.entryFind range
    obtain ⟨r',did,asked,_,s'⟩ := optSame s { r.rep.handlers h with mask := setBits (r.rep.mask h) m }
      (setBits (r.rep.mask h) m) .setMask range (find ▸ unbound) (fun _ => rfl)
        (fun no => absurd no (by decide)) (fun no => absurd no (by decide))
    refine ⟨r',_,0,_,?_,?_,s'⟩
    · simp only [call,SelectReactor.registerHandlerI,if_neg unbound,write]
      exact did
    · simp only [Reactor.call,Reactor.registerHandlerI,if_neg unbound,write,asked]

theorem removeSame {k : InterestSet} (s : Same n r ⟨r.rep,k⟩ held) (h : Handle) (m : Mask) :
    Agreed n r ⟨r.rep,k⟩ (.remove h m) := by
  by_cases unbound : r.rep.find h = none
  · exact ⟨r,⟨r.rep,k⟩,-1,held,if_pos unbound,if_pos unbound,s⟩
  · have range := HandlerRepository.findRange unbound
    have write := HandlerRepository.setMaskPut unbound (clrBits (r.rep.mask h) m)
    obtain ⟨find,_,_⟩ := HandlerRepository.entryFind range
    by_cases null : clrBits (r.rep.mask h) m = Mask.null
    · rw [null] at write
      obtain ⟨r',did,asked,rep,s'⟩ := optSame s { r.rep.handlers h with mask := Mask.null } Mask.null .clrMask range
        (find ▸ unbound) (fun no => absurd rfl no) (fun _ => rfl) (fun no => absurd no (by decide))
      refine ⟨_,_,0,_,?_,?_,repSame s' _ (unbindSize r'.rep h) fun k' waits => ?_⟩
      · simp only [call,SelectReactor.removeHandlerI,if_neg unbound,null,ne_eq,not_true_eq_false,if_false,write]
        exact Option.bind_eq_some_iff.2 ⟨_,did,(if_neg zeroNotFailed).trans (if_pos trivial)⟩
      · simp only [Reactor.call,Reactor.removeHandlerI,if_neg unbound,ite_self,id,null,ne_eq,not_true_eq_false,if_false,
          if_true,write,asked,rep]
        exact if_neg fun both => unbound both.2
      · -- epoll does not wait for h any more
        have other : k' ≠ h := fun same => waits (by rw [same]; exact Function.update_self _ _ _)
        exact unbindOther r'.rep other
    · obtain ⟨r',did,asked,_,s'⟩ := optSame s { r.rep.handlers h with mask := clrBits (r.rep.mask h) m }
        (clrBits (r.rep.mask h) m) .setMask range (find ▸ unbound) (fun _ => rfl)
        (fun no => absurd no (by decide)) (fun no => absurd no (by decide))
      refine ⟨r',_,0,_,?_,?_,s'⟩
      · simp only [call,SelectReactor.removeHandlerI,if_neg unbound,null,ne_eq,not_false_eq_true,if_false,if_true,write]
        exact Option.bind_eq_some_iff.2 ⟨_,did,if_neg zeroNotFailed⟩
      · simp only [Reactor.call,Reactor.removeHandlerI,if_neg unbound,ite_self,id,null,ne_eq,not_false_eq_true,if_false,
          if_true,write,asked]
        exact if_neg fun both => unbound both.2

/- The table with the mark of h written. -/
def marked (rep : HandlerRepository) (h : Handle) (suspended : Bool) : HandlerRepository :=
  if rep.handleInRange h then rep.put h { rep.handlers h with suspended := suspended } else rep

theorem markedSame (rep : HandlerRepository) (h k : Handle) (suspended : Bool) :
    (marked rep h suspended).find k = rep.find k ∧ (marked rep h suspended).mask k = rep.mask k := by
  unfold marked
  by_cases range : rep.handleInRange h
  · rw [if_pos range]
    by_cases here : k = h
    · subst here
      obtain ⟨find,mask,_⟩ := HandlerRepository.putSame rep range { rep.handlers k with suspended := suspended }
      obtain ⟨find',mask',_⟩ := HandlerRepository.entryFind range
      exact ⟨find.trans find'.symm,mask.trans mask'.symm⟩
    · obtain ⟨find,mask,_⟩ := HandlerRepository.putOther rep here { rep.handlers h with suspended := suspended }
      exact ⟨find,mask⟩
  · rw [if_neg range]
    exact ⟨rfl,rfl⟩

/- handle_opt_i on a table as it is, and the mark behind it. -/
theorem markSame {k : InterestSet} (s : Same n r ⟨r.rep,k⟩ held) (m : Mask) (opt : HandleOpt)
    (bound : r.rep.find h ≠ none) (suspended : Bool) (mask : opt ≠ .clrMask → r.rep.mask h = m)
    (clr : opt = .clrMask → m = Mask.null)
    (add : opt = .addMask → ∀ events, k h = some events → events = reactorMaskToEpollEvent m) :
    ∃ r' k' held', r.handleOptI h m opt = some (r',0) ∧ Reactor.handleOptI linux k h m opt = (k',0) ∧
      r'.rep = r.rep ∧ Same n { r' with rep := marked r'.rep h suspended } ⟨marked r'.rep h suspended,k'⟩ held' := by
  have range := HandlerRepository.findRange bound
  obtain ⟨find,stored,_⟩ := HandlerRepository.entryFind range
  have same : r.rep.put h (r.rep.handlers h) = r.rep := by
    unfold HandlerRepository.put
    rw [Function.update_eq_self]
  obtain ⟨r',did,asked,rep,s'⟩ := optSame s (r.rep.handlers h) m opt range (find ▸ bound) (fun sets => stored ▸ mask sets)
    clr add
  rw [same] at did rep
  exact ⟨r',_,_,did,asked,rep,repSame s' (marked r'.rep h suspended) (flagSize r'.rep h suspended)
    fun k' _ => markedSame r'.rep h k' suspended⟩

theorem suspendSame {k : InterestSet} (s : Same n r ⟨r.rep,k⟩ held) (h : Handle) : Agreed n r ⟨r.rep,k⟩ (.suspend h) := by
  by_cases unbound : r.rep.find h = none
  · exact ⟨r,⟨r.rep,k⟩,-1,held,if_pos unbound,if_pos unbound,s⟩
  · by_cases already : r.rep.suspended h = true
    · exact ⟨r,⟨r.rep,k⟩,0,held,(if_neg unbound).trans (if_pos already),(if_neg unbound).trans (if_pos already),s⟩
    · obtain ⟨r',k',held',did,asked,rep,s'⟩ := markSame s Mask.null .clrMask unbound true
        (fun no => absurd rfl no) (fun _ => rfl) (fun no => absurd no (by decide))
      refine ⟨_,_,0,held',?_,?_,s'⟩
      · simp only [call,SelectReactor.suspendHandlerI,if_neg unbound,if_neg already]
        exact Option.bind_eq_some_iff.2 ⟨_,did,if_neg zeroNotFailed⟩
      · simp only [Reactor.call,Reactor.suspendHandlerI,if_neg unbound,if_neg already,asked,rep]
        rfl

theorem resumeSame {k : InterestSet} (s : Same n r ⟨r.rep,k⟩ held) (h : Handle) : Agreed n r ⟨r.rep,k⟩ (.resume h) := by
  by_cases no : r.rep.find h = none ∨ r.rep.suspended h = false
  · exact ⟨r,⟨r.rep,k⟩,-1,held,if_pos no,if_pos no,s⟩
  · by_cases null : r.rep.mask h = Mask.null
    · exact ⟨r,⟨r.rep,k⟩,-1,held,(if_neg no).trans (if_pos null),(if_neg no).trans (if_pos null),s⟩
    · have bound : r.rep.find h ≠ none := fun unbound => no (.inl unbound)
      obtain ⟨r',k',held',did,asked,rep,s'⟩ := markSame s (r.rep.mask h) .addMask bound false
        (fun _ => rfl) (fun no => absurd no (by decide)) (fun _ events at_ => (s.stored h events at_).2)
      refine ⟨_,_,0,held',?_,?_,s'⟩
      · simp only [call,SelectReactor.resumeHandlerI,if_neg no,if_neg null]
        exact Option.bind_eq_some_iff.2 ⟨_,did,if_neg zeroNotFailed⟩
      · simp only [Reactor.call,Reactor.resumeHandlerI,if_neg no,if_neg null,asked,rep]
        rfl

theorem callSame (s : Same n r e held) (a : Action) : Agreed n r e a := by
  obtain ⟨rep,k⟩ := e
  have same : rep = r.rep := s.rep
  subst same
  cases a with
  | register h eh m => exact registerSame s h eh m
  | remove h m => exact removeSame s h m
  | suspend h => exact suspendSame s h
  | resume h => exact resumeSame s h

theorem callsSame (s : Same n r e held) (acts : List Action) : ∃ r' held',
    selectCalls r acts = some (r',(epollCalls e acts).2) ∧ Same n r' (epollCalls e acts).1 held' := by
  induction acts generalizing r e held with
  | nil => exact ⟨r,held,rfl,s⟩
  | cons a acts ih =>
    obtain ⟨r₁,e₁,answer,held₁,did,asked,s₁⟩ := callSame s a
    obtain ⟨r₂,held₂,rest,s₂⟩ := ih s₁
    unfold selectCalls epollCalls
    rw [asked]
    exact ⟨r₂,held₂,Option.bind_eq_some_iff.2 ⟨_,did,Option.bind_eq_some_iff.2 ⟨_,rest,rfl⟩⟩,s₂⟩

end Same

/- Whatever is registered, removed, suspended and resumed, the two reactors return the same and have
the same table, and a handle is in a list of the one where the other waits for the event of the list. -/
theorem reactorsAgree {fdSetSize : Nat} (positive : 0 < fdSetSize) (acts : List Action) :
    ∃ r, selectCalls (SelectReactor.allocated fdSetSize) acts = some (r,(epollCalls (Reactor.opened fdSetSize) acts).2) ∧
      r.rep = (epollCalls (Reactor.opened fdSetSize) acts).1.rep ∧
      ∀ h w, r.findHandle h w = some (waitsFor (epollCalls (Reactor.opened fdSetSize) acts).1.kernel h w) := by
  have start : Same fdSetSize (SelectReactor.allocated fdSetSize) (Reactor.opened fdSetSize) fun _ => [] :=
    { kept := allocatedKept positive, rep := rfl, waits := fun _ _ => ⟨fun mem => (nomatch mem),fun no => (nomatch no)⟩
      stored := fun _ _ no => (nomatch no) }
  obtain ⟨r,held,did,s⟩ := callsSame start acts
  refine ⟨r,did,s.rep.symm,fun h w => ?_⟩
  obtain ⟨lists,free,c,same⟩ := s.kept.holds
  have found : r.findHandle h w = some (decide (h ∈ (lists w).map r.handle)) :=
    findFromSeg (c.list w) (Nat.lt_succ_of_le (listShort c w))
  rw [found,same w]
  exact congrArg some (Bool.eq_iff_iff.2 (decide_eq_true_iff.trans (s.waits h w)))

def somebodySuspended : List Action :=
  [.register 2 (some 1) Mask.connect,.suspend 2,.register 2 none Mask.except,.remove 2 Mask.write,.resume 3,.resume 2]

/- The registration of a suspended handle sets it waiting again, in both. -/
theorem fourAgree : ∃ r, selectCalls (SelectReactor.allocated 4) somebodySuspended = some (r,[0,0,0,0,-1,0]) ∧
    r.findHandle 2 .ex = some true := by
  have answers : (epollCalls (Reactor.opened 4) somebodySuspended).2 = [0,0,0,0,-1,0] := by decide
  have waits : waitsFor (epollCalls (Reactor.opened 4) somebodySuspended).1.kernel 2 .ex = true := by decide
  obtain ⟨r,did,_,lists⟩ := reactorsAgree (by decide : 0 < 4) somebodySuspended
  exact ⟨r,did.trans (congrArg (fun a => some (r,a)) answers),(lists 2 .ex).trans (congrArg some waits)⟩

end CuteNdk.Select
