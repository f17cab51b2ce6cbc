import CuteNdk.EpollDispatch

/-! register_handler_i, remove_handler_i, suspend_handler_i and resume_handler_i that
return -1, and what they leave of the handler table. epoll_ctl may answer anything. A
mask is written before the kernel is asked and not written back. -/
namespace CuteNdk.Reactor

/- Two tables that find, mask and suspended cannot tell apart. -/
def SameTable (t t' : HandlerRepository) : Prop :=
  ∀ h, t'.find h = t.find h ∧ t'.mask h = t.mask h ∧ t'.suspended h = t.suspended h

section Registration
variable {κ : Type} (ep : Epoll κ)

/- One call. handleClose is what the handler's handle_close does to the reactor. -/
def call (handleClose : UnixReactor κ → UnixReactor κ) (r : UnixReactor κ) : Action → UnixReactor κ × Int
  | .register h eh m => registerHandlerI ep r h eh m
  | .remove h m => removeHandlerI ep handleClose r h m
  | .suspend h => suspendHandlerI ep r h
  | .resume h => resumeHandlerI ep r h

/- A removal is made with dont_call. -/
def DontCall : Action → Prop
  | .remove _ m => bitEnabled m Mask.dontCall = true
  | _ => True

instance (a : Action) : Decidable (DontCall a) := by
  unfold DontCall
  split <;> infer_instance

/- The errno of epoll_ctl, of the retry where there is one, for which handle_opt_i
returns -1. -/
def Refused (k : κ) (h : Handle) (m : Mask) : HandleOpt → Prop
  | .addMask => (ep.ctl k .add h (reactorMaskToEpollEvent m)).2 ∉ [none,some .eexist]
  | .setMask =>
    (ep.ctl k .mod h (reactorMaskToEpollEvent m)).2 = some .enoent ∧
      (ep.ctl (ep.ctl k .mod h (reactorMaskToEpollEvent m)).1 .add h (reactorMaskToEpollEvent m)).2 ≠ none
  | .clrMask => (ep.ctl k .del h 0).2 ∉ [none,some .enoent]

/- What remove_handler_i asks the kernel for. -/
def removal (newMask : Mask) : HandleOpt := if newMask ≠ Mask.null then .setMask else .clrMask

/- The kernel refuses no mask that differs from the stored one. An unbound handle, whose
entry unbind clears, has no mask stored. -/
def Unwritten (r : UnixReactor κ) : Action → Prop
  | .register h eh m =>
    match r.rep.find h with
    | none => eh ≠ none → Refused ep r.kernel h m .addMask → r.rep.mask h = Mask.null
    | some _ =>
      Refused ep r.kernel h (setBits (r.rep.mask h) m) .setMask → setBits (r.rep.mask h) m = r.rep.mask h
  | .remove h m =>
    r.rep.find h ≠ none →
      Refused ep r.kernel h (clrBits (r.rep.mask h) m) (removal (clrBits (r.rep.mask h) m)) →
      clrBits (r.rep.mask h) m = r.rep.mask h
  | _ => True

theorem optAnswers (k : κ) (h : Handle) (m : Mask) (opt : HandleOpt) :
    Refused ep k h m opt ∧ (∃ k', handleOptI ep k h m opt = (k',-1)) ∨
    ¬ Refused ep k h m opt ∧ ∃ k', handleOptI ep k h m opt = (k',0) := by
  cases opt with
  | addMask =>
    simp only [Refused,handleOptI]
    rcases ep.ctl k .add h (reactorMaskToEpollEvent m) with ⟨k',_ | e⟩
    · simp
    · by_cases exists_ : e = .eexist
      · simp [exists_]
      · simp [exists_]
  | setMask =>
    simp only [Refused,handleOptI]
    rcases ep.ctl k .mod h (reactorMaskToEpollEvent m) with ⟨k',_ | e⟩
    · simp
    · by_cases gone : e = .enoent
      · simp only [gone,if_true,true_and]
        rcases ep.ctl k' .add h (reactorMaskToEpollEvent m) with ⟨k'',_ | e'⟩
        · simp
        · simp
      · simp [gone]
  | clrMask =>
    simp only [Refused,handleOptI]
    rcases ep.ctl k .del h 0 with ⟨k',_ | e⟩
    · simp
    · by_cases gone : e = .enoent
      · simp [gone]
      · simp [gone]

theorem sameTable (t : HandlerRepository) : SameTable t t := fun _ => ⟨rfl,rfl,rfl⟩

/- A table written at one handle is the same where the entry shows the same. -/
theorem samePut {t : HandlerRepository} {h : Handle} (range : t.handleInRange h) (e : EventTuple) :
    SameTable t (t.put h e) ↔ e = t.handlers h := by
  obtain ⟨find,mask,suspended⟩ := HandlerRepository.putSame t range e
  obtain ⟨find',mask',suspended'⟩ := HandlerRepository.entryFind range
  constructor
  · intro same
    obtain ⟨sameFind,sameMask,sameSuspended⟩ := same h
    rw [find,find'] at sameFind
    rw [mask,mask'] at sameMask
    rw [suspended,suspended'] at sameSuspended
    cases stored : t.handlers h
    simp only [stored] at sameFind sameMask sameSuspended
    cases e
    simp_all
  · rintro rfl h'
    by_cases here : h' = h
    · subst here
      exact ⟨find.trans find'.symm,mask.trans mask'.symm,suspended.trans suspended'.symm⟩
    · exact HandlerRepository.putOther t here _

theorem sameSetMask {t : HandlerRepository} {h : Handle} (bound : t.find h ≠ none) (m : Mask) :
    SameTable t (t.setMask h m) ↔ m = t.mask h := by
  have range := HandlerRepository.findRange bound
  rw [HandlerRepository.setMaskPut bound,samePut range,(HandlerRepository.entryFind range).2.1]
  cases t.handlers h
  simp

/- bind followed by unbind clears the mask of the entry. -/
theorem sameRollback {t : HandlerRepository} {h : Handle} (unbound : t.find h = none)
    (range : t.handleInRange h) (eh : EventHandler) (m : Mask) :
    SameTable t ((t.put h { t.handlers h with eventHandler := some eh, mask := m }).unbind h).1 ↔
      t.mask h = Mask.null := by
  have found := HandlerRepository.putSame t range { t.handlers h with eventHandler := some eh, mask := m }
  have bound : (t.put h { t.handlers h with eventHandler := some eh, mask := m }).find h ≠ none := by
    simp [found.1]
  obtain ⟨find,mask,_⟩ := HandlerRepository.entryFind range
  rw [HandlerRepository.unbindPut bound,HandlerRepository.putPut,samePut range,mask]
  rw [find] at unbound
  simp only [HandlerRepository.handlersPut,if_true]
  cases stored : t.handlers h
  simp only [stored] at unbound
  simp [unbound,eq_comm]

theorem registerUnwritten (r : UnixReactor κ) (h : Handle) (eh : Option EventHandler) (m : Mask) :
    ((registerHandlerI ep r h eh m).2 = -1 → SameTable r.rep (registerHandlerI ep r h eh m).1.rep) ↔
      Unwritten ep r (.register h eh m) := by
  simp only [registerHandlerI,Unwritten]
  cases found : r.rep.find h with
  | none =>
    simp only [if_true]
    cases eh with
    | none => simp [HandlerRepository.bind,sameTable]
    | some eh =>
      by_cases range : r.rep.handleInRange h
      · simp only [HandlerRepository.bind,if_pos range]
        rcases optAnswers ep r.kernel h m .addMask with ⟨refused,k',answer⟩ | ⟨taken,k',answer⟩
        · simp [answer,refused,sameRollback found range]
        · simp [answer,taken]
      · have bare : r.rep.mask h = Mask.null := if_neg range
        simp [HandlerRepository.bind,range,bare,sameTable]
  | some was =>
    have bound : r.rep.find h ≠ none := by simp [found]
    simp only [reduceCtorEq,if_false]
    rcases optAnswers ep r.kernel h (setBits (r.rep.mask h) m) .setMask with
      ⟨refused,k',answer⟩ | ⟨taken,k',answer⟩
    · simp [answer,refused,sameSetMask bound]
    · simp [answer,taken]

theorem removeUnwritten (handleClose : UnixReactor κ → UnixReactor κ) (r : UnixReactor κ) (h : Handle) (m : Mask)
    (silent : bitEnabled m Mask.dontCall = true) :
    ((removeHandlerI ep handleClose r h m).2 = -1 →
        SameTable r.rep (removeHandlerI ep handleClose r h m).1.rep) ↔ Unwritten ep r (.remove h m) := by
  have quiet : bitDisabled m Mask.dontCall = false := by
    simpa [bitEnabled,bitDisabled] using silent
  simp only [removeHandlerI,quiet,Unwritten,Bool.false_eq_true,if_false,false_and]
  cases found : r.rep.find h with
  | none => simp [sameTable]
  | some was =>
    have bound : r.rep.find h ≠ none := by simp [found]
    simp only [reduceCtorEq,if_false,ne_eq,not_false_iff,true_imp_iff]
    change _ ↔ (Refused ep r.kernel h (clrBits (r.rep.mask h) m) (removal _) → _)
    rcases optAnswers ep r.kernel h (clrBits (r.rep.mask h) m) (removal (clrBits (r.rep.mask h) m)) with
      ⟨refused,k',answer⟩ | ⟨taken,k',answer⟩
    · simp only [removal,ne_eq] at answer
      simp only [answer]
      simp [refused,sameSetMask bound]
    · simp only [removal,ne_eq] at answer
      simp only [answer]
      simp [taken]

/- suspend_handler_i and resume_handler_i ask first and write then. -/
theorem suspendSame (r : UnixReactor κ) (h : Handle) :
    (suspendHandlerI ep r h).2 = -1 → SameTable r.rep (suspendHandlerI ep r h).1.rep := by
  simp only [suspendHandlerI]
  rcases optAnswers ep r.kernel h Mask.null .clrMask with ⟨_,k',answer⟩ | ⟨_,k',answer⟩
  · simp only [answer]
    split
    · exact fun _ => sameTable r.rep
    · split
      · exact fun _ => sameTable r.rep
      · exact fun _ => sameTable r.rep
  · simp only [answer]
    split
    · exact fun _ => sameTable r.rep
    · split
      · exact fun _ => sameTable r.rep
      · exact fun failed => absurd (show (0 : Int) = -1 from failed) (by decide)

theorem resumeSame (r : UnixReactor κ) (h : Handle) :
    (resumeHandlerI ep r h).2 = -1 → SameTable r.rep (resumeHandlerI ep r h).1.rep := by
  simp only [resumeHandlerI]
  rcases optAnswers ep r.kernel h (r.rep.mask h) .addMask with ⟨_,k',answer⟩ | ⟨_,k',answer⟩
  · simp only [answer]
    split
    · exact fun _ => sameTable r.rep
    · split
      · exact fun _ => sameTable r.rep
      · exact fun _ => sameTable r.rep
  · simp only [answer]
    split
    · exact fun _ => sameTable r.rep
    · split
      · exact fun _ => sameTable r.rep
      · exact fun failed => absurd (show (0 : Int) = -1 from failed) (by decide)

/- In every state and for every answer of epoll_ctl, a call that returns -1 leaves the
table as it was exactly when the kernel has refused no mask that was new. -/
theorem tableKeptIffUnwritten (handleClose : UnixReactor κ → UnixReactor κ) (r : UnixReactor κ) (a : Action)
    (silent : DontCall a) :
    ((call ep handleClose r a).2 = -1 → SameTable r.rep (call ep handleClose r a).1.rep) ↔ Unwritten ep r a := by
  cases a with
  | register h eh m => exact registerUnwritten ep r h eh m
  | remove h m => exact removeUnwritten ep handleClose r h m silent
  | suspend h => exact iff_of_true (suspendSame ep r h) trivial
  | resume h => exact iff_of_true (resumeSame ep r h) trivial

/- No mask is stored for an unbound handle. -/
def Bare (t : HandlerRepository) : Prop := ∀ h, t.find h = none → t.mask h = Mask.null

theorem barePut {t : HandlerRepository} (bare : Bare t) {h : Handle} (range : t.handleInRange h) {e : EventTuple}
    (here : e.eventHandler = none → e.mask = Mask.null) : Bare (t.put h e) := by
  intro h' unbound
  by_cases same : h' = h
  · subst same
    obtain ⟨find,mask,_⟩ := HandlerRepository.putSame t range e
    exact mask.trans (here (find.symm.trans unbound))
  · obtain ⟨find,mask,_⟩ := HandlerRepository.putOther t same e
    exact mask.trans (bare h' (find.symm.trans unbound))

theorem bareSetMask {t : HandlerRepository} (bare : Bare t) {h : Handle} (bound : t.find h ≠ none) (m : Mask) :
    Bare (t.setMask h m) := by
  have range := HandlerRepository.findRange bound
  rw [HandlerRepository.setMaskPut bound]
  refine barePut bare range fun unbound => absurd unbound ?_
  exact (HandlerRepository.entryFind range).1 ▸ bound

theorem bareUnbind {t : HandlerRepository} (bare : Bare t) (h : Handle) : Bare (t.unbind h).1 := by
  by_cases bound : t.find h = none
  · simpa only [HandlerRepository.unbind,if_pos bound] using bare
  · rw [HandlerRepository.unbindPut bound]
    exact barePut bare (HandlerRepository.findRange bound) fun _ => rfl

theorem bareBind {t : HandlerRepository} (bare : Bare t) (h : Handle) (eh : Option EventHandler) (m : Mask) :
    Bare (t.bind h eh m).1 := by
  cases eh with
  | none => exact bare
  | some eh =>
    simp only [HandlerRepository.bind]
    split
    · rename_i range
      exact barePut bare range fun unbound => absurd unbound (Option.some_ne_none eh)
    · exact bare

theorem bareFlag {t : HandlerRepository} (bare : Bare t) (h : Handle) (suspended : Bool) :
    Bare (if t.handleInRange h then t.put h { t.handlers h with suspended := suspended } else t) := by
  split
  · rename_i range
    obtain ⟨find,mask,_⟩ := HandlerRepository.entryFind range
    exact barePut bare range fun unbound => mask.symm.trans (bare h (find.trans unbound))
  · exact bare

theorem bareRemove {r : UnixReactor κ} (bare : Bare r.rep) (h : Handle) (m : Mask) :
    Bare (removeHandlerI ep id r h m).1.rep := by
  unfold removeHandlerI
  by_cases bound : r.rep.find h = none
  · simpa only [if_pos bound] using bare
  · simp only [id,ite_self,bound,and_false,if_false]
    split
    · exact bareSetMask bare bound _
    · dsimp only
      split
      · exact bareUnbind (bareSetMask bare bound _) h
      · exact bareSetMask bare bound _

theorem bareCall {handleClose : UnixReactor κ → UnixReactor κ} (keeps : ∀ r, Bare r.rep → Bare (handleClose r).rep)
    {r : UnixReactor κ} (bare : Bare r.rep) (a : Action) : Bare (call ep handleClose r a).1.rep := by
  cases a with
  | register h eh m =>
    simp only [call,registerHandlerI]
    split
    · have binds := bareBind bare h eh m
      split
      · rename_i rep both
        rw [both] at binds
        split
        · exact binds
        · exact bareUnbind binds h
      · rename_i rep result other both
        rw [both] at binds
        exact binds
    · rename_i bound
      exact bareSetMask bare bound _
  | remove h m =>
    by_cases bound : r.rep.find h = none
    · simpa only [call,removeHandlerI,if_pos bound] using bare
    · rw [call,removeSplit ep bound]
      refine bareRemove ep ?_ h m
      split
      · exact keeps r bare
      · exact bare
  | suspend h =>
    simp only [call,suspendHandlerI]
    split
    · exact bare
    · split
      · exact bare
      · split
        · exact bare
        · exact bareFlag bare h true
  | resume h =>
    simp only [call,resumeHandlerI]
    split
    · exact bare
    · split
      · exact bare
      · split
        · exact bare
        · exact bareFlag bare h false

/- So in a reactor that has been opened a first registration that fails leaves nothing. -/
theorem failedBindLeaves {handleClose : UnixReactor κ → UnixReactor κ}
    (keeps : ∀ r, Bare r.rep → Bare (handleClose r).rep) (size : Int) (k : κ) (as : List Action) {r : UnixReactor κ}
    (ran : Lib.run (fun r a => some (call ep handleClose r a).1) ⟨HandlerRepository.opened size,k⟩ as = some r)
    {h : Handle} (unbound : r.rep.find h = none) (eh : Option EventHandler) (m : Mask)
    (failed : (registerHandlerI ep r h eh m).2 = -1) : SameTable r.rep (registerHandlerI ep r h eh m).1.rep := by
  have start : Bare (UnixReactor.mk (HandlerRepository.opened size) k).rep := fun _ _ => ite_self Mask.null
  have steps : ∀ (r : UnixReactor κ) (a : Action) (r' : UnixReactor κ), Bare r.rep →
      some (call ep handleClose r a).1 = some r' → Bare r'.rep := by
    intro r a r' bare next
    cases Option.some.inj next
    exact bareCall ep keeps bare a
  have bare := Lib.alwaysAtEnd (Lib.alwaysInvariant steps start as) ran
  refine (registerUnwritten ep r h eh m).2 ?_ failed
  simp only [Unwritten,unbound]
  exact fun _ _ => bare h unbound

end Registration

def boundFive : UnixReactor Unit := ⟨((HandlerRepository.opened 8).bind 5 (some 1) Mask.read).1,()⟩

/- An epoll instance that has lost the descriptor and has no room to add it (ENOSPC). -/
def full : Epoll Unit where
  ctl k op _ _ := (k,some (if op = .add then .other 28 else .enoent))

theorem otherMaskKept : (call full id boundFive (.remove 5 (Mask.write ||| Mask.dontCall))).2 = -1 ∧
    SameTable boundFive.rep (call full id boundFive (.remove 5 (Mask.write ||| Mask.dontCall))).1.rep := by
  have failed : (call full id boundFive (.remove 5 (Mask.write ||| Mask.dontCall))).2 = -1 := by decide
  have same : clrBits (boundFive.rep.mask 5) (Mask.write ||| Mask.dontCall) = boundFive.rep.mask 5 := by decide
  exact ⟨failed,(tableKeptIffUnwritten full id boundFive (.remove 5 (Mask.write ||| Mask.dontCall)) (by decide)).2
    (fun _ _ => same) failed⟩

/- epoll_ctl on a descriptor that has been closed: EBADF, whatever is asked. -/
def closed : Epoll Unit where
  ctl k _ _ _ := (k,some (.other 9))

/- A descriptor closed before it is removed: its mask is cleared, its handler stays. -/
theorem closedRemovalWrites : ¬ ∀ (r : UnixReactor Unit) (a : Action), DontCall a → (call closed id r a).2 = -1 →
    SameTable r.rep (call closed id r a).1.rep := by
  intro claim
  have same := claim boundFive (.remove 5 (Mask.read ||| Mask.dontCall)) (by decide) (by decide) 5
  exact absurd same (by decide)

end CuteNdk.Reactor
