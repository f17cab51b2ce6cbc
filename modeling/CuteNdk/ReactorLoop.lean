import CuteNdk.TokenFailure

/-! A reactor under its reactor_token, from any number of threads. handle_events waits
for the token quietly and polls while it owns it; every other call of the reactor takes
the token by a guard, and one that has to wait writes a byte to the notification pipe
under lock_ before it sleeps (sleep_hook), so that whoever polls comes back and lets
the token go. A condition's wait ends by a signal, without one, by EINTR or by its
timeout. -/
namespace CuteNdk.ReactorLoop
open ReactorToken (Thread Frame OptType Strategy WaitResult Inv Exclusive FailsUnheld Waiting QueueRep)

/- Where a thread is in a call that is not over: in handle_events it waits for the
token, polls or dispatches; in a guarded call it waits for the token or has it. -/
inductive Scope where | acquiring | polling | dispatching | entering | guarded deriving DecidableEq, Repr

def Scope.waits : OptType → Scope
  | .readToken => .acquiring
  | .writeToken => .entering

def Scope.granted : OptType → Scope
  | .readToken => .polling
  | .writeToken => .guarded

/- What is below a call: only a dispatch or a guarded call goes on to call the reactor. -/
def Scope.calls (x : Scope) : Prop := x = .dispatching ∨ x = .guarded

instance (x : Scope) : Decidable x.calls := by
  unfold Scope.calls
  infer_instance

/- The calls of each thread, the innermost first, and the bytes in the pipe. -/
structure State where
  token : ReactorToken.State
  stack : Thread → List Scope
  pipe : Nat

def opened (strategy : Strategy) : State := ⟨ReactorToken.init strategy,fun _ => [],0⟩

def State.top (s : State) (t : Thread) : Option Scope := (s.stack t).head?

/- t runs its own code or a callback. -/
def State.runs (s : State) (t : Thread) : Prop := ∀ x, s.top t = some x → x.calls

instance (s : State) (t : Thread) : Decidable (s.runs t) := by
  unfold State.runs
  cases s.top t with
  | none => exact isTrue (fun x no => nomatch no)
  | some x => exact decidable_of_iff x.calls ⟨fun h y is => Option.some.inj is ▸ h,fun h => h x rfl⟩

/- pipe is what is in the pipe if the call has to sleep. -/
def State.acquire (s : State) (t : Thread) (o : OptType) (timed : Bool) (pipe : Nat) : Option State :=
  if s.runs t then
    (ReactorToken.step s.token (.acquire t o timed)).map fun k =>
      if k.blocked t = none then ⟨k,Function.update s.stack t (.granted o :: s.stack t),s.pipe⟩
      else ⟨k,Function.update s.stack t (.waits o :: s.stack t),pipe⟩
  else none

/- The call on top lets the token go and is over. -/
def State.release (s : State) (t : Thread) : Option State :=
  (ReactorToken.step s.token (.release t)).map fun k =>
    { s with token := k, stack := Function.update s.stack t (s.stack t).tail }

/- After the wait: with the token, or without it and out of handle_events. -/
def State.returned (s : State) (t : Thread) (o : OptType) (k : ReactorToken.State) : List Scope :=
  if s.token.held t < k.held t then .granted o :: (s.stack t).tail else (s.stack t).tail

/- wrote: the byte went into the pipe, which fails only where there are some. polled
leaves out EINTR, after which the thread polls on; dispatches is whether handles are
ready or timers pending. -/
inductive Action where
  | handleEvents (t : Thread) (timed : Bool)
  | enter (t : Thread) (wrote : Bool)
  | wake (t : Thread) (r : WaitResult)
  | polled (t : Thread) (dispatches : Bool)
  | readNotifyMsg (t : Thread)
  | dispatched (t : Thread)
  | leave (t : Thread)
  | notify (wrote : Bool)
  deriving DecidableEq, Repr

def step (s : State) : Action → Option State
  | .handleEvents t timed => s.acquire t .readToken timed s.pipe
  | .enter t wrote =>
    if wrote = true ∨ 0 < s.pipe then s.acquire t .writeToken false (s.pipe + wrote.toNat) else none
  | .wake t r =>
    match s.token.blocked t with
    | none => none
    | some f =>
      if r = .error then none
      else (ReactorToken.step s.token (.wake t r)).map fun k =>
        if k.blocked t ≠ none then { s with token := k }
        else { s with token := k, stack := Function.update s.stack t (s.returned t f.opt k) }
  | .polled t dispatches =>
    if s.top t = some .polling then
      if dispatches then some { s with stack := Function.update s.stack t (.dispatching :: (s.stack t).tail) }
      else s.release t
    else none
  | .readNotifyMsg t => if s.top t = some .dispatching then some { s with pipe := s.pipe - 1 } else none
  | .dispatched t => if s.top t = some .dispatching then s.release t else none
  | .leave t => if s.top t = some .guarded then s.release t else none
  | .notify wrote => if wrote = true ∨ 0 < s.pipe then some { s with pipe := s.pipe + wrote.toNat } else none

/- Nobody polls with nothing in the pipe while a guarded call waits for the token. -/
def NoLostWakeup (s : State) : Prop :=
  ∀ p w, s.top p = some .polling → s.top w = some .entering → 0 < s.pipe

structure Good (s : State) : Prop where
  exclusive : Exclusive s.token
  wakes : NoLostWakeup s

/- handle_events gives up waiting only while nobody has the token; and a thread that
has it already does not poll while a guarded call waits whose byte has been read. -/
def Fine (s : State) : Action → Prop
  | .wake t r => FailsUnheld s.token (.wake t r)
  | .handleEvents t _ => s.stack t ≠ [] → 0 < s.pipe ∨ ∀ w, s.top w ≠ some .entering
  | _ => True

section Token
variable {k k' : ReactorToken.State} {t p : Thread} {o : OptType} {timed : Bool}

/- What a call of shared_acquire comes to before any wait: it has the token, or it is
asleep and has left the owner alone. -/
theorem acquired (next : ReactorToken.step k (.acquire t o timed) = some k') : k.blocked t = none ∧
    ((k.token.inUse = none ∧ k'.token.nestingLevel = k.token.nestingLevel ∨
        k.token.owner = some t ∧ k'.token.nestingLevel = k.token.nestingLevel + 1) ∧
      k'.token.owner = some t ∧ k'.blocked = k.blocked ∧ k'.held = Function.update k.held t (k.held t + 1) ∨
    k.token.owner ≠ some t ∧ k'.token.owner = k.token.owner ∧ k'.token.nestingLevel = k.token.nestingLevel ∧
      k'.blocked = Function.update k.blocked t (some ⟨o,timed⟩) ∧ k'.held = k.held) := by
  simp only [ReactorToken.step] at next
  split at next <;> try contradiction
  rename_i up
  refine ⟨up,?_⟩
  by_cases idle : k.token.inUse = none
  · simp only [ReactorToken.sharedAcquire,if_pos idle] at next
    cases Option.some.inj next
    exact .inl ⟨.inl ⟨idle,rfl⟩,rfl,rfl,rfl⟩
  · by_cases mine : k.token.owner = some t
    · simp only [ReactorToken.sharedAcquire,if_neg idle,if_pos mine] at next
      cases Option.some.inj next
      exact .inl ⟨.inr ⟨mine,rfl⟩,mine,rfl,rfl⟩
    · simp only [ReactorToken.sharedAcquire,if_neg idle,if_neg mine] at next
      cases Option.some.inj next
      obtain ⟨_,owner,nesting,_⟩ := ReactorToken.sleepInUse k.token t o
      exact .inr ⟨mine,owner,nesting,rfl,rfl⟩

theorem released (next : ReactorToken.step k (.release t) = some k') : k.blocked t = none ∧ 0 < k.held t ∧
    k'.token = ReactorToken.release k.token ∧ k'.blocked = k.blocked ∧
    k'.held = Function.update k.held t (k.held t - 1) := by
  simp only [ReactorToken.step] at next
  split at next <;> try contradiction
  rename_i holds
  cases Option.some.inj next
  exact ⟨holds.1,holds.2,rfl,rfl,rfl⟩

/- A wait that a signal, or nothing, ended. -/
theorem woken {f : Frame} {r : WaitResult} (asleep : k.blocked t = some f) (normal : r = .woken ∨ r = .eintr)
    (next : ReactorToken.step k (.wake t r) = some k') :
    k'.token.owner = k.token.owner ∧ k'.token.nestingLevel = k.token.nestingLevel ∧
    (k.token.owner = some t ∧ k'.blocked = Function.update k.blocked t none ∧
        k'.held = Function.update k.held t (k.held t + 1) ∨
      k.token.owner ≠ some t ∧ k'.blocked = k.blocked ∧ k'.held = k.held) := by
  have timely : ¬(r = .etimedout ∧ f.timed = false) := by
    rcases normal with rfl | rfl
    · exact fun no => WaitResult.noConfusion no.1
    · exact fun no => WaitResult.noConfusion no.1
  simp only [ReactorToken.step,asleep,if_neg timely,ReactorToken.wokenAwake k.token t f.opt normal] at next
  by_cases mine : k.token.owner = some t
  · simp only [if_pos mine] at next
    cases Option.some.inj next
    have same := ReactorToken.leaveSameOwner k.token t f.opt
    exact ⟨same.owner,same.nesting,.inl ⟨mine,rfl,rfl⟩⟩
  · simp only [if_neg mine] at next
    cases Option.some.inj next
    exact ⟨rfl,rfl,.inr ⟨mine,rfl,rfl⟩⟩

theorem timedOut {f : Frame} (asleep : k.blocked t = some f)
    (next : ReactorToken.step k (.wake t .etimedout) = some k') :
    k'.token = (ReactorToken.awake k.token t f.opt .etimedout).1 ∧
    k'.blocked = Function.update k.blocked t none ∧ k'.held = k.held := by
  simp only [ReactorToken.step,asleep] at next
  split at next <;> try contradiction
  simp only [ReactorToken.awake] at next
  cases Option.some.inj next
  exact ⟨rfl,rfl,rfl⟩

/- p is asleep, and it waits in handle_events only if everybody does. -/
def Chosen (blocked : Thread → Option Frame) (p : Thread) : Prop :=
  ∃ f, blocked p = some f ∧ (f.opt = .readToken → ∀ w g, blocked w = some g → g.opt = .readToken)

/- Writers go first. -/
theorem wakeupChosen {m : ReactorToken.Token} {blocked : Thread → Option Frame} {l : OptType → List Thread}
    (waiting : Waiting m blocked l) (owner : (ReactorToken.wakeupNextWaiter m).owner = some p) : Chosen blocked p := by
  have first := (ReactorToken.wakeupFirst m p).1 owner
  have head := Lib.segHead (waiting.rep .writeToken).chain
  rcases first with writer | ⟨none_,_⟩
  · have mem : p ∈ l .writeToken := List.mem_of_head? (head.symm.trans writer)
    obtain ⟨f,asleep,write⟩ := (waiting.mem .writeToken p).1 mem
    exact ⟨f,asleep,fun read => nomatch write.symm.trans read⟩
  · obtain ⟨f,asleep⟩ := Option.ne_none_iff_exists'.1 (ReactorToken.wakeupOwnerAsleep waiting owner)
    refine ⟨f,asleep,fun _ w g sleeps => ?_⟩
    have empty : l .writeToken = [] := List.head?_eq_none_iff.1 (head.symm.trans none_)
    cases opt : g.opt with
    | readToken => rfl
    | writeToken =>
      have mem := (waiting.mem .writeToken w).2 ⟨g,sleeps,opt⟩
      rw [empty] at mem
      exact absurd mem List.not_mem_nil

theorem timeoutChosen {m : ReactorToken.Token} {blocked : Thread → Option Frame} {l : OptType → List Thread}
    (waiting : Waiting m blocked l) {f : Frame} (asleep : blocked t = some f)
    (owner : (ReactorToken.awake m t f.opt .etimedout).1.owner = some p) :
    Chosen (Function.update blocked t none) p := by
  have left := waiting.wakeup.leave asleep
  have other : p ≠ t := fun same => ReactorToken.timeoutOwner waiting asleep (same ▸ owner)
  simp only [ReactorToken.awake] at owner
  split at owner
  · exact wakeupChosen left owner
  · rw [(ReactorToken.leaveSameOwner (ReactorToken.wakeupNextWaiter m) t f.opt).owner] at owner
    obtain ⟨g,sleeps,last⟩ := wakeupChosen waiting owner
    refine ⟨g,(Function.update_of_ne other _ _).trans sleeps,fun read w h still => last read w h ?_⟩
    by_cases same : w = t
    · rw [same,Function.update_self] at still
      cases still
    · rwa [Function.update_of_ne same] at still

end Token

/- A thread's calls as the token has them: asleep it is in one call only, that which
waits, and otherwise each call has the token once. -/
structure Placed (k : ReactorToken.State) (t : Thread) (calls : List Scope) : Prop where
  asleep : ∀ f, k.blocked t = some f → calls = [.waits f.opt]
  awake : k.blocked t = none → k.held t = calls.length ∧ ∀ x ∈ calls, x = .polling ∨ x.calls
  below : ∀ x ∈ calls.tail, x.calls

/- heard: an owner that polls or is about to finds a byte if a guarded call waits. It
is the owner's first call then, which the token was given to while none waited, or one
that began as Fine says; and only a thread that dispatches reads bytes. -/
structure Kept (s : State) : Prop where
  token : Inv s.token
  grip : ∀ p, s.token.token.owner = some p → s.token.blocked p = none → s.token.held p = s.token.token.nestingLevel + 1
  placed : ∀ t, Placed s.token t (s.stack t)
  heard : ∀ p w, s.token.token.owner = some p → s.top p = some .acquiring ∨ s.top p = some .polling →
    s.top w = some .entering → 0 < s.pipe

section Kept
variable {s s' : State} {k : ReactorToken.State} {t : Thread}

theorem keptStart (strategy : Strategy) : Kept (opened strategy) where
  token := ReactorToken.invInit strategy
  grip _ no := nomatch no
  placed _ := ⟨fun _ no => (nomatch no),fun _ => ⟨rfl,fun _ no => (nomatch no)⟩,fun _ no => (nomatch no)⟩
  heard _ _ no := nomatch no

theorem placedCongr {k' : ReactorToken.State} {calls : List Scope} (h : Placed k t calls)
    (blocked : k'.blocked t = k.blocked t) (held : k'.held t = k.held t) : Placed k' t calls :=
  ⟨fun f is => h.asleep f (blocked ▸ is),fun up => held ▸ h.awake (blocked ▸ up),h.below⟩

/- What a thread waits for is on top. -/
theorem enteringAsleep (h : Kept s) (top : s.top t = some .entering) :
    ∃ f, s.token.blocked t = some f ∧ f.opt = .writeToken := by
  cases up : s.token.blocked t with
  | none =>
    rcases ((h.placed t).awake up).2 _ (List.mem_of_head? top) with no | no | no <;> cases no
  | some f =>
    refine ⟨f,rfl,?_⟩
    rw [State.top,(h.placed t).asleep f up] at top
    cases opt : f.opt with
    | writeToken => rfl
    | readToken =>
      rw [opt] at top
      cases top

theorem asleepTop (h : Kept s) {f : Frame} (asleep : s.token.blocked t = some f) : s.top t = some (.waits f.opt) := by
  rw [State.top,(h.placed t).asleep f asleep]
  rfl

/- A thread on whose behalf something runs has the token. -/
theorem topOwner (h : Kept s) {x : Scope} (top : s.top t = some x) (has : x = .polling ∨ x.calls) :
    s.token.blocked t = none ∧ s.token.token.owner = some t := by
  have up : s.token.blocked t = none := by
    cases up : s.token.blocked t with
    | none => rfl
    | some f =>
      cases Option.some.inj (top.symm.trans (asleepTop h up))
      cases opt : f.opt <;> rw [opt] at has <;> rcases has with no | no | no <;> cases no
  refine ⟨up,((ReactorToken.invExclusive h.token).kept t ?_).1⟩
  rw [((h.placed t).awake up).1]
  exact List.length_pos_of_mem (List.mem_of_head? top)

theorem asleepHeld (h : Kept s) {f : Frame} (asleep : s.token.blocked t = some f) : s.token.held t = 0 := by
  by_contra holds
  obtain ⟨owner,busy⟩ := (ReactorToken.invExclusive h.token).kept t (Nat.pos_of_ne_zero holds)
  obtain ⟨w,owner',_,_,sleeps⟩ := h.token.owned.busy busy
  cases Option.some.inj (owner'.symm.trans owner)
  exact holds (sleeps (asleep ▸ Option.some_ne_none f)).1

/- With a new owner that sleeps: as it was chosen, it polls only where no guarded call
waits. -/
theorem chosenHeard (placed : ∀ t, Placed s.token t (s.stack t)) {p w : Thread} (chosen : Chosen s.token.blocked p)
    (polls : s.top p = some .acquiring ∨ s.top p = some .polling) : s.top w ≠ some .entering := by
  intro enters
  obtain ⟨f,asleep,last⟩ := chosen
  have reads : f.opt = .readToken := by
    rw [State.top,(placed p).asleep f asleep] at polls
    cases opt : f.opt with
    | readToken => rfl
    | writeToken =>
      rw [opt] at polls
      rcases polls with no | no <;> cases no
  cases up : s.token.blocked w with
  | none => rcases ((placed w).awake up).2 _ (List.mem_of_head? enters) with no | no | no <;> cases no
  | some g =>
    rw [State.top,(placed w).asleep g up,last reads w g up] at enters
    cases enters

theorem noLostWakeup (h : Kept s) : NoLostWakeup s :=
  fun p w polls enters => h.heard p w (topOwner h polls (.inl rfl)).2 (.inr polls) enters

/- The calls of one thread change, and of the others nothing. -/
theorem placedAll (h : ∀ u, Placed s.token u (s.stack u)) {calls : List Scope}
    (blocked : ∀ u, u ≠ t → k.blocked u = s.token.blocked u) (held : ∀ u, u ≠ t → k.held u = s.token.held u)
    (here : Placed k t calls) (u : Thread) : Placed k u (Function.update s.stack t calls u) := by
  by_cases same : u = t
  · rw [same,Function.update_self]
    exact here
  · rw [Function.update_of_ne same]
    exact placedCongr (h u) (blocked u same) (held u same)

theorem topSelf {calls : List Scope} {pipe : Nat} : (⟨k,Function.update s.stack t calls,pipe⟩ : State).top t = calls.head? := by
  simp only [State.top,Function.update_self]

theorem topOther {calls : List Scope} {pipe : Nat} {u : Thread} (other : u ≠ t) :
    (⟨k,Function.update s.stack t calls,pipe⟩ : State).top u = s.top u := by
  simp only [State.top,Function.update_of_ne other]

/- More calls over what runs. -/
theorem belowRuns (h : Kept s) (runs : s.runs t) : ∀ x ∈ s.stack t, x.calls := by
  intro x mem
  cases calls : s.stack t with
  | nil =>
    rw [calls] at mem
    exact absurd mem List.not_mem_nil
  | cons y rest =>
    rw [calls] at mem
    rcases List.mem_cons.1 mem with rfl | mem
    · exact runs x (congrArg List.head? calls)
    · exact (h.placed t).below x (by rwa [calls])

theorem grantedHas (o : OptType) : Scope.granted o = .polling ∨ (Scope.granted o).calls := by
  cases o with
  | readToken => exact .inl rfl
  | writeToken => exact .inr (.inr rfl)

theorem acquireKept {o : OptType} {timed : Bool} {told : Nat} (h : Kept s) (more : s.pipe ≤ told)
    (loud : o = .writeToken → 0 < told)
    (fine : o = .readToken → s.stack t ≠ [] → 0 < s.pipe ∨ ∀ w, s.top w ≠ some .entering)
    (next : s.acquire t o timed told = some s') : Kept s' := by
  simp only [State.acquire] at next
  split at next <;> try contradiction
  rename_i runs
  obtain ⟨k,took,is⟩ := Option.map_eq_some_iff.1 next
  have inv := ReactorToken.acquireInv h.token took
  have below := belowRuns h runs
  obtain ⟨up,⟨nest,owner,blocked,held⟩ | ⟨other,owner,nesting,blocked,held⟩⟩ := acquired took
  · have up' : k.blocked t = none := by rw [blocked]; exact up
    rw [if_pos up'] at is
    subst is
    have mine : k.held t = s.token.held t + 1 := by rw [held,Function.update_self]
    refine ⟨inv,fun p is _ => ?_,placedAll h.placed (fun u _ => by rw [blocked]) (fun u off => by rw [held,Function.update_of_ne off]) ?_,
      fun p w is polls enters => ?_⟩
    · cases Option.some.inj (owner.symm.trans is)
      change k.held t = k.token.nestingLevel + 1
      rw [mine]
      rcases nest with ⟨idle,flat⟩ | ⟨had,deeper⟩
      · obtain ⟨_,zero,free⟩ := h.token.owned.idle idle
        rw [flat,zero,(free t).2]
      · rw [deeper,h.grip t had up]
    · refine ⟨fun f no => (nomatch up'.symm.trans no),fun _ => ⟨?_,fun x mem => ?_⟩,fun x mem => below x mem⟩
      · rw [mine,((h.placed t).awake up).1]
        rfl
      · rcases List.mem_cons.1 mem with rfl | mem
        · exact grantedHas o
        · exact .inr (below x mem)
    · cases Option.some.inj (owner.symm.trans is)
      have off : w ≠ t := by
        rintro rfl
        rw [topSelf] at enters
        cases o <;> cases enters
      rw [topOther off] at enters
      obtain ⟨f,asleep,_⟩ := enteringAsleep h enters
      rcases nest with ⟨idle,_⟩ | ⟨had,_⟩
      · cases asleep.symm.trans ((h.token.owned.idle idle).2.2 w).1
      · have some_ : s.stack t ≠ [] := fun no => by
          have holds := h.grip t had up
          rw [((h.placed t).awake up).1,no] at holds
          cases holds
        have reads : o = .readToken := by
          rw [topSelf] at polls
          cases o with
          | readToken => rfl
          | writeToken => rcases polls with no | no <;> cases no
        exact (fine reads some_).resolve_right fun no => no w enters
  · have down : k.blocked t = some ⟨o,timed⟩ := by rw [blocked,Function.update_self]
    rw [if_neg (down ▸ Option.some_ne_none _)] at is
    subst is
    have nothing : s.token.held t = 0 := by
      by_contra holds
      exact other ((ReactorToken.invExclusive h.token).kept t (Nat.pos_of_ne_zero holds)).1
    have bare : s.stack t = [] := List.length_eq_zero_iff.1 (((h.placed t).awake up).1.symm.trans nothing)
    refine ⟨inv,fun p is awake => ?_,placedAll h.placed (fun u off => by rw [blocked,Function.update_of_ne off]) (fun u _ => by rw [held]) ?_,
      fun p w is polls enters => ?_⟩
    · have off : p ≠ t := by
        rintro rfl
        cases down.symm.trans awake
      change k.held p = k.token.nestingLevel + 1
      rw [held,nesting]
      refine h.grip p (owner ▸ is) ?_
      rwa [blocked,Function.update_of_ne off] at awake
    · refine ⟨fun f asleep => ?_,fun no => (nomatch down.symm.trans no),fun x mem => ?_⟩
      · cases Option.some.inj (down.symm.trans asleep)
        rw [bare]
      · rw [bare] at mem
        exact absurd mem List.not_mem_nil
    · change 0 < told
      have off : p ≠ t := fun same => other (same ▸ owner ▸ is)
      rw [topOther off] at polls
      by_cases same : w = t
      · subst same
        rw [topSelf] at enters
        cases o with
        | writeToken => exact loud rfl
        | readToken => cases enters
      · rw [topOther same] at enters
        exact Nat.lt_of_lt_of_le (h.heard p w (owner ▸ is) polls enters) more

theorem releaseKept (h : Kept s) (next : s.release t = some s') : Kept s' := by
  obtain ⟨k,gave,is⟩ := Option.map_eq_some_iff.1 next
  subst is
  have inv := ReactorToken.releaseInv h.token gave
  obtain ⟨up,holds,token,blocked,held⟩ := released gave
  have mine : k.held t = s.token.held t - 1 := by rw [held,Function.update_self]
  have owner := ((ReactorToken.invExclusive h.token).kept t holds).1
  have grip := h.grip t owner up
  have length := ((h.placed t).awake up).1
  have placed : ∀ u, Placed k u (Function.update s.stack t (s.stack t).tail u) := by
    refine placedAll h.placed (fun u _ => by rw [blocked]) (fun u off => by rw [held,Function.update_of_ne off]) ?_
    refine ⟨fun f no => ?_,fun _ => ⟨?_,fun x mem => .inr ((h.placed t).below x mem)⟩,fun x mem => ?_⟩
    · rw [blocked,up] at no
      cases no
    · rw [mine,length,List.length_tail]
    · exact (h.placed t).below x (List.mem_of_mem_tail mem)
  by_cases nested : 0 < s.token.token.nestingLevel
  · have same : k.token = { s.token.token with nestingLevel := s.token.token.nestingLevel - 1 } := by
      rw [token,ReactorToken.release,if_pos nested]
    refine ⟨inv,fun p is _ => ?_,placed,fun p w is polls _ => ?_⟩
    · rw [same] at is
      cases Option.some.inj (owner.symm.trans is)
      change k.held t = k.token.nestingLevel + 1
      rw [mine,same,grip]
      exact (Nat.succ_pred_eq_of_pos nested).symm
    · rw [same] at is
      cases Option.some.inj (owner.symm.trans is)
      rw [topSelf] at polls
      -- under a call there is nothing that waits or polls
      rcases polls with top | top
      · rcases (h.placed t).below _ (List.mem_of_head? top) with no | no <;> cases no
      · rcases (h.placed t).below _ (List.mem_of_head? top) with no | no <;> cases no
  · have passed : k.token = ReactorToken.wakeupNextWaiter s.token.token := by
      rw [token,ReactorToken.release,if_neg nested]
    obtain ⟨l,waiting⟩ := h.token.waiting
    have chosen : ∀ p, k.token.owner = some p → Chosen k.blocked p := fun p is => by
      rw [blocked]
      exact wakeupChosen waiting (passed ▸ is)
    refine ⟨inv,fun p is awake => ?_,placed,fun p w is polls enters => ?_⟩
    · obtain ⟨f,asleep,_⟩ := chosen p is
      cases awake.symm.trans asleep
    · exact absurd enters (chosenHeard placed (chosen p is) polls)

/- The two ways out of a wait: with the token, where t's own call goes on, and at the
time limit, where handle_events is over. -/
theorem wokenKept {f : Frame} {r : WaitResult} (h : Kept s) (asleep : s.token.blocked t = some f)
    (normal : r = .woken ∨ r = .eintr) (took : ReactorToken.step s.token (.wake t r) = some k) :
    Kept (if k.blocked t ≠ none then { s with token := k }
      else { s with token := k, stack := Function.update s.stack t (s.returned t f.opt k) }) := by
  have inv : Inv k := ReactorToken.wakeInv h.token (by rcases normal with rfl | rfl <;> trivial) took
  obtain ⟨owner,nesting,⟨mine,blocked,held⟩ | ⟨other,blocked,held⟩⟩ := woken asleep normal took
  · have up : k.blocked t = none := by rw [blocked,Function.update_self]
    have more : k.held t = s.token.held t + 1 := by rw [held,Function.update_self]
    have nothing := asleepHeld h asleep
    have calls : s.returned t f.opt k = [.granted f.opt] := by
      rw [State.returned,if_pos (by omega),(h.placed t).asleep f asleep]
      rfl
    rw [if_neg (not_not.2 up),calls]
    refine ⟨inv,fun p is _ => ?_,placedAll h.placed (fun u off => by rw [blocked,Function.update_of_ne off])
      (fun u off => by rw [held,Function.update_of_ne off]) ?_,fun p w is polls enters => ?_⟩
    · cases Option.some.inj (mine.symm.trans (owner.symm.trans is))
      change k.held t = k.token.nestingLevel + 1
      have busy : s.token.token.inUse ≠ none := fun idle => nomatch asleep.symm.trans ((h.token.owned.idle idle).2.2 t).1
      obtain ⟨w,owner',_,_,sleeps⟩ := h.token.owned.busy busy
      cases Option.some.inj (owner'.symm.trans mine)
      rw [more,nothing,nesting,(sleeps (asleep ▸ Option.some_ne_none f)).2.1]
    · refine ⟨fun g no => (nomatch up.symm.trans no),fun _ => ⟨by rw [more,nothing]; rfl,fun x mem => ?_⟩,
        fun x no => absurd no List.not_mem_nil⟩
      cases List.mem_singleton.1 mem
      exact grantedHas f.opt
    · cases Option.some.inj (mine.symm.trans (owner.symm.trans is))
      have off : w ≠ t := by
        rintro rfl
        rw [topSelf] at enters
        cases opt : f.opt <;> rw [opt] at enters <;> cases enters
      rw [topOther off] at enters
      refine h.heard t w mine (.inl ?_) enters
      rw [topSelf] at polls
      rw [asleepTop h asleep]
      cases opt : f.opt with
      | readToken => rfl
      | writeToken =>
        rw [opt] at polls
        rcases polls with no | no <;> cases no
  · have still : k.blocked t ≠ none := by
      rw [blocked,asleep]
      exact Option.some_ne_none f
    rw [if_pos still]
    refine ⟨inv,fun p is awake => ?_,fun u => placedCongr (h.placed u) (by rw [blocked]) (by rw [held]),
      fun p w is polls enters => h.heard p w (owner ▸ is) polls enters⟩
    change k.held p = k.token.nestingLevel + 1
    rw [held,nesting]
    exact h.grip p (owner ▸ is) (blocked ▸ awake)

theorem timedOutKept {f : Frame} (h : Kept s) (asleep : s.token.blocked t = some f) (unheld : ∀ u, s.token.held u = 0)
    (took : ReactorToken.step s.token (.wake t .etimedout) = some k) :
    Kept (if k.blocked t ≠ none then { s with token := k }
      else { s with token := k, stack := Function.update s.stack t (s.returned t f.opt k) }) := by
  have meets : FailsUnheld s.token (.wake t .etimedout) := unheld
  have inv : Inv k := ReactorToken.wakeInv h.token meets took
  obtain ⟨token,blocked,held⟩ := timedOut asleep took
  obtain ⟨l,waiting⟩ := h.token.waiting
  have up : k.blocked t = none := by rw [blocked,Function.update_self]
  have calls : s.returned t f.opt k = [] := by
    rw [State.returned,if_neg (by rw [held]; exact Nat.lt_irrefl _),(h.placed t).asleep f asleep]
    rfl
  have chosen : ∀ p, k.token.owner = some p → Chosen k.blocked p := fun p is => by
    rw [blocked]
    exact timeoutChosen waiting asleep (token ▸ is)
  rw [if_neg (not_not.2 up),calls]
  have placed : ∀ u, Placed k u (Function.update s.stack t [] u) := by
    refine placedAll h.placed (fun u off => by rw [blocked,Function.update_of_ne off]) (fun u _ => by rw [held]) ?_
    refine ⟨fun g no => (nomatch up.symm.trans no),fun _ => ⟨?_,fun x no => absurd no List.not_mem_nil⟩,
      fun x no => absurd no List.not_mem_nil⟩
    rw [held]
    exact unheld t
  refine ⟨inv,fun p is awake => ?_,placed,fun p w is polls enters => ?_⟩
  · obtain ⟨g,sleeps,_⟩ := chosen p is
    cases awake.symm.trans sleeps
  · exact absurd enters (chosenHeard placed (chosen p is) polls)

/- poll_events comes back with something to do. -/
theorem dispatchKept (h : Kept s) (top : s.top t = some .polling) :
    Kept { s with stack := Function.update s.stack t (.dispatching :: (s.stack t).tail) } := by
  obtain ⟨up,owner⟩ := topOwner h top (.inl rfl)
  obtain ⟨length,_⟩ := (h.placed t).awake up
  have some_ : s.stack t ≠ [] := fun no => by rw [State.top,no] at top; cases top
  refine ⟨h.token,h.grip,placedAll h.placed (fun _ _ => rfl) (fun _ _ => rfl) ?_,fun p w is polls enters => ?_⟩
  · refine ⟨fun f no => (nomatch up.symm.trans no),fun _ => ⟨?_,fun x mem => ?_⟩,fun x mem => (h.placed t).below x mem⟩
    · rw [length,List.length_cons,List.length_tail]
      exact (Nat.succ_pred_eq_of_pos (List.length_pos_iff.2 some_)).symm
    · rcases List.mem_cons.1 mem with rfl | mem
      · exact .inr (.inl rfl)
      · exact .inr ((h.placed t).below x mem)
  · cases Option.some.inj (owner.symm.trans is)
    rw [topSelf] at polls
    rcases polls with no | no <;> cases no

/- Only who dispatches reads, and then nobody polls. -/
theorem readKept (h : Kept s) (top : s.top t = some .dispatching) : Kept { s with pipe := s.pipe - 1 } := by
  obtain ⟨_,owner⟩ := topOwner h top (.inr (.inl rfl))
  refine ⟨h.token,h.grip,h.placed,fun p w is polls _ => ?_⟩
  cases Option.some.inj (owner.symm.trans is)
  rcases polls with no | no <;> cases top.symm.trans no

end Kept

theorem stepKept (s : State) (a : Action) (s' : State) (h : Kept s) (fine : Fine s a) (next : step s a = some s') :
    Kept s' := by
  cases a with
  | handleEvents t timed => exact acquireKept h (Nat.le_refl _) (fun no => OptType.noConfusion no) (fun _ => fine) next
  | enter t wrote =>
    simp only [step] at next
    split at next <;> try contradiction
    rename_i written
    refine acquireKept h (Nat.le_add_right _ _) (fun _ => ?_) (fun no => OptType.noConfusion no) next
    rcases written with rfl | some_
    · exact Nat.succ_pos _
    · exact Nat.add_pos_left some_ _
  | wake t r =>
    simp only [step] at next
    cases asleep : s.token.blocked t with
    | none => simp only [asleep] at next; cases next
    | some f =>
      simp only [asleep] at next
      split at next <;> try contradiction
      rename_i fails
      obtain ⟨k,took,is⟩ := Option.map_eq_some_iff.1 next
      subst is
      cases r with
      | woken => exact wokenKept h asleep (.inl rfl) took
      | eintr => exact wokenKept h asleep (.inr rfl) took
      | etimedout => exact timedOutKept h asleep fine took
      | error => exact absurd rfl fails
  | polled t dispatches =>
    simp only [step] at next
    split at next <;> try contradiction
    rename_i top
    split at next
    · cases Option.some.inj next
      exact dispatchKept h top
    · exact releaseKept h next
  | readNotifyMsg t =>
    simp only [step] at next
    split at next <;> try contradiction
    rename_i top
    cases Option.some.inj next
    exact readKept h top
  | dispatched t | leave t =>
    simp only [step] at next
    split at next <;> try contradiction
    exact releaseKept h next
  | notify wrote =>
    simp only [step] at next
    split at next <;> try contradiction
    cases Option.some.inj next
    exact ⟨h.token,h.grip,h.placed,fun p w is polls enters => Nat.add_pos_left (h.heard p w is polls enters) _⟩

/- Off the condition somebody loses the token it has, or polls beside a waiting call
with nothing in the pipe. -/
theorem stepBreaks (s : State) (a : Action) (s' : State) (h : Kept s) (off : ¬ Fine s a) (next : step s a = some s') :
    ¬ Good s' := by
  intro good
  cases a with
  | handleEvents t timed =>
    obtain ⟨some_,quiet⟩ := Classical.not_imp.1 off
    obtain ⟨empty,waits⟩ := not_or.1 quiet
    obtain ⟨w,enters⟩ := not_forall_not.1 waits
    simp only [step,State.acquire] at next
    split at next <;> try contradiction
    rename_i runs
    obtain ⟨k,took,is⟩ := Option.map_eq_some_iff.1 next
    obtain ⟨up,⟨_,_,blocked,_⟩ | ⟨other,_⟩⟩ := acquired took
    · have up' : k.blocked t = none := by rw [blocked]; exact up
      rw [if_pos up'] at is
      subst is
      have apart : w ≠ t := by
        rintro rfl
        rcases runs _ enters with no | no <;> cases no
      exact empty (good.wakes t w topSelf ((topOther apart).trans enters))
    · refine other ((ReactorToken.invExclusive h.token).kept t ?_).1
      rw [((h.placed t).awake up).1]
      exact List.length_pos_iff.2 some_
  | wake t r =>
    simp only [step] at next
    split at next <;> try contradiction
    split at next <;> try contradiction
    obtain ⟨k,took,is⟩ := Option.map_eq_some_iff.1 next
    have lost := ReactorToken.failedTakes h.token off took
    split at is <;> (subst is; exact lost good.exclusive)
  | enter t wrote | polled t dispatches | readNotifyMsg t | dispatched t | leave t | notify wrote => exact off trivial

/- In every run, and as long as nobody gives up on a held token nor polls under its own
call while a waiting one has been heard already, one thread at a time has the reactor
and no call that waits for it is slept through. -/
theorem wakeupsHeard (strategy : Strategy) (actions : List Action) :
    Lib.Always step Good (opened strategy) actions ↔ Lib.Along step Fine (opened strategy) actions :=
  Lib.alwaysIffAlong stepKept (fun _ h => ⟨ReactorToken.invExclusive h.token,noLostWakeup h⟩) stepBreaks
    (keptStart strategy) actions

/- A callback that runs the event loop again after the byte of thread 2 has been read. -/
example : (Lib.run step (opened .fifo) [.handleEvents 1 false,.enter 2 true,.polled 1 true,.readNotifyMsg 1,
    .handleEvents 1 false]).map (fun s => (s.top 1,s.top 2,s.pipe)) = some (some .polling,some .entering,0) := by decide

end CuteNdk.ReactorLoop
