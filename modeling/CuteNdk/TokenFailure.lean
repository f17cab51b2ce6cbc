import CuteNdk.TokenExclusion

/-! What an acquire that returns -1 leaves in the token, over every interleaving. The
thread that gives up passes the token on while its own entry is still queued, and looks
whether it has passed it to itself only after a timeout. -/
namespace CuteNdk.ReactorToken
open Lib (run Always alwaysAtEnd alwaysInvariant)

def Action.thread : Action → Thread
  | .acquire t _ _ | .wake t _ | .release t => t

/- What the wait of t that ends makes shared_acquire return, if it returns. -/
def returned (s : State) (t : Thread) (r : WaitResult) : Option Int :=
  (s.blocked t).bind fun f => (awake s.token t f.opt r).2

/- t has gone from s to s' by a call that failed: its entry is in neither queue, waiters_
counts the entries that are and t no more, it is not the owner and has not touched
nesting_level_; whatever the other threads do next, its next acquire is not nested. -/
structure LeavesNothing (s : State) (t : Thread) (s' : State) : Prop where
  queues : ∃ l : OptType → List Thread, (∀ o, QueueRep s'.token o (l o)) ∧ (∀ o, t ∉ l o) ∧
    s'.token.waiters = (l .writeToken).length + (l .readToken).length
  waiters : s'.token.waiters = s.token.waiters - 1
  owner : s'.token.owner ≠ some t
  nesting : s'.token.nestingLevel = s.token.nestingLevel
  later : ∀ actions s'', (∀ a ∈ actions, a.thread ≠ t) → run step s' actions = some s'' →
    ∀ o, (sharedAcquire s''.token t o).1.nestingLevel = s''.token.nestingLevel

/- wakeup_next_waiter would choose t. -/
def FirstInLine (k : Token) (t : Thread) : Prop :=
  k.writers.head = some t ∨ k.writers.head = none ∧ k.readers.head = some t

instance (k : Token) (t : Thread) : Decidable (FirstInLine k t) := by
  unfold FirstInLine
  infer_instance

section Failure
variable {s s' : State} {t : Thread}

theorem wakeupFirst (k : Token) (t : Thread) : (wakeupNextWaiter k).owner = some t ↔ FirstInLine k t := by
  unfold wakeupNextWaiter FirstInLine
  cases k.writers.head with
  | some h => simp [Token.select]
  | none =>
    cases k.readers.head with
    | some h => simp [Token.select]
    | none => simp

/- A thread that is not queued is not chosen. -/
theorem wakeupOther {k : Token} {blocked : Thread → Option Frame} {l : OptType → List Thread}
    (waiting : Waiting k blocked l) (up : blocked t = none) : (wakeupNextWaiter k).owner ≠ some t := by
  rcases wakeupOwner waiting.rep with ⟨o,h,mem,owner,_⟩ | ⟨_,owner,_⟩
  · intro mine
    cases Option.some.inj (owner.symm.trans mine)
    exact waiting.awake up o mem
  · intro mine
    cases owner.symm.trans mine

/- What the three kinds of steps can do. -/
theorem acquireCases {o : OptType} {timed : Bool} (next : step s (.acquire t o timed) = some s') :
    s.blocked t = none ∧
    (s.token.inUse = none ∧ s'.token = { s.token with inUse := some o, owner := some t } ∧ s'.blocked = s.blocked ∨
    s.token.inUse ≠ none ∧ s.token.owner = some t ∧ s'.blocked = s.blocked ∧
      s'.token = { s.token with nestingLevel := s.token.nestingLevel + 1 } ∨
    s.token.inUse ≠ none ∧ s.token.owner ≠ some t ∧ s'.token = fallAsleep s.token t o ∧
      s'.blocked = Function.update s.blocked t (some ⟨o,timed⟩)) := by
  simp only [step] at next
  split at next <;> try contradiction
  rename_i up
  refine ⟨up,?_⟩
  by_cases idle : s.token.inUse = none
  · simp only [sharedAcquire,if_pos idle] at next
    cases Option.some.inj next
    exact .inl ⟨idle,rfl,rfl⟩
  · by_cases mine : s.token.owner = some t
    · simp only [sharedAcquire,if_neg idle,if_pos mine] at next
      cases Option.some.inj next
      exact .inr (.inl ⟨idle,mine,rfl,rfl⟩)
    · simp only [sharedAcquire,if_neg idle,if_neg mine] at next
      cases Option.some.inj next
      exact .inr (.inr ⟨idle,mine,rfl,rfl⟩)

theorem wakeCases {r : WaitResult} (next : step s (.wake t r) = some s') :
    ∃ f, s.blocked t = some f ∧ s'.token = (awake s.token t f.opt r).1 ∧
      s'.blocked = if (awake s.token t f.opt r).2 = none then s.blocked else Function.update s.blocked t none := by
  simp only [step] at next
  split at next <;> try contradiction
  rename_i f asleep
  split at next <;> try contradiction
  split at next
  · rename_i k waits
    cases Option.some.inj next
    exact ⟨f,asleep,by rw [waits],by rw [waits]; rfl⟩
  · rename_i k n returns
    cases Option.some.inj next
    exact ⟨f,asleep,by rw [returns],by rw [returns]; rfl⟩

theorem releaseCases (next : step s (.release t) = some s') :
    s'.token = release s.token ∧ s'.blocked = s.blocked := by
  simp only [step] at next
  split at next <;> try contradiction
  cases Option.some.inj next
  exact ⟨rfl,rfl⟩

/- A wait that is no failure. -/
theorem wokenAwake (k : Token) (t : Thread) (o : OptType) {r : WaitResult} (normal : r = .woken ∨ r = .eintr) :
    awake k t o r = if k.owner = some t then (leave k t o,some 0) else (k.consume t,none) := by
  rcases normal with rfl | rfl
  · rfl
  · rfl

theorem waitResult (r : WaitResult) : (r = .woken ∨ r = .eintr) ∨ r = .etimedout ∨ r = .error := by
  cases r <;> simp

/- The queues after a wait. -/
theorem awakeWaiting {k : Token} {blocked : Thread → Option Frame} {l : OptType → List Thread}
    (waiting : Waiting k blocked l) {f : Frame} (asleep : blocked t = some f) (r : WaitResult) :
    ∃ l', Waiting (awake k t f.opt r).1
      (if (awake k t f.opt r).2 = none then blocked else Function.update blocked t none) l' := by
  rcases waitResult r with normal | rfl | rfl
  · rw [wokenAwake k t f.opt normal]
    by_cases mine : k.owner = some t
    · simp only [if_pos mine]
      exact ⟨_,waiting.leave asleep⟩
    · simp only [if_neg mine]
      exact ⟨l,waiting.congr (consumeSame k t).1 (fun o => by cases o <;> rfl) rfl⟩
  · unfold awake
    dsimp only
    split
    · exact ⟨_,(waiting.wakeup.leave asleep).wakeup⟩
    · exact ⟨_,waiting.wakeup.leave asleep⟩
  · exact ⟨_,waiting.wakeup.leave asleep⟩

theorem stepWaiting (s : State) (a : Action) (s' : State) (h : ∃ l, Waiting s.token s.blocked l)
    (next : step s a = some s') : ∃ l, Waiting s'.token s'.blocked l := by
  obtain ⟨l,waiting⟩ := h
  cases a with
  | acquire t o timed =>
    obtain ⟨up,⟨_,token,blocked⟩ | ⟨_,_,blocked,token⟩ | ⟨_,_,token,blocked⟩⟩ := acquireCases next
    · rw [token,blocked]
      exact ⟨l,waiting.congr rfl (fun o => by cases o <;> rfl) rfl⟩
    · rw [token,blocked]
      exact ⟨l,waiting.congr rfl (fun o => by cases o <;> rfl) rfl⟩
    · rw [token,blocked]
      exact ⟨_,waiting.sleep up ⟨o,timed⟩⟩
  | wake t r =>
    obtain ⟨f,asleep,token,blocked⟩ := wakeCases next
    rw [token,blocked]
    exact awakeWaiting waiting asleep r
  | release t =>
    obtain ⟨token,blocked⟩ := releaseCases next
    rw [token,blocked]
    unfold release
    split
    · exact ⟨l,waiting.congr rfl (fun o => by cases o <;> rfl) rfl⟩
    · exact ⟨l,waiting.wakeup⟩

/- t is up and not the owner, and no other thread makes it the owner. -/
structure Elsewhere (s : State) (t : Thread) : Prop where
  waiting : ∃ l, Waiting s.token s.blocked l
  up : s.blocked t = none
  owner : s.token.owner ≠ some t

theorem awakeElsewhere {k : Token} {blocked : Thread → Option Frame} {l : OptType → List Thread}
    (waiting : Waiting k blocked l) {u : Thread} {f : Frame} (asleep : blocked u = some f) (up : blocked t = none)
    (owner : k.owner ≠ some t) (r : WaitResult) : (awake k u f.opt r).1.owner ≠ some t := by
  have passed : (leave (wakeupNextWaiter k) u f.opt).owner ≠ some t := by
    rw [(leaveSameOwner _ u f.opt).owner]
    exact wakeupOther waiting up
  have other : t ≠ u := by
    rintro rfl
    cases up.symm.trans asleep
  have still : Function.update blocked u none t = none := by
    rw [Function.update_of_ne other]
    exact up
  rcases waitResult r with normal | rfl | rfl
  · rw [wokenAwake k u f.opt normal]
    by_cases mine : k.owner = some u
    · simp only [if_pos mine,(leaveSameOwner k u f.opt).owner]
      exact owner
    · simp only [if_neg mine]
      exact owner
  · unfold awake
    dsimp only
    split
    · exact wakeupOther (waiting.wakeup.leave asleep) still
    · exact passed
  · exact passed

theorem stepElsewhere {a : Action} (h : Elsewhere s t) (other : a.thread ≠ t) (next : step s a = some s') :
    Elsewhere s' t := by
  have queued := stepWaiting s a s' h.waiting next
  obtain ⟨l,waiting⟩ := h.waiting
  cases a with
  | acquire u o timed =>
    have apart : t ≠ u := Ne.symm other
    obtain ⟨_,⟨_,token,blocked⟩ | ⟨_,_,blocked,token⟩ | ⟨_,_,token,blocked⟩⟩ := acquireCases next
    · refine ⟨queued,blocked ▸ h.up,?_⟩
      rw [token]
      exact fun mine => other (Option.some.inj mine)
    · refine ⟨queued,blocked ▸ h.up,?_⟩
      rw [token]
      exact h.owner
    · refine ⟨queued,?_,?_⟩
      · rw [blocked,Function.update_of_ne apart]
        exact h.up
      · rw [token,(sleepInUse s.token u o).2.1]
        exact h.owner
  | wake u r =>
    have apart : t ≠ u := Ne.symm other
    obtain ⟨f,asleep,token,blocked⟩ := wakeCases next
    refine ⟨queued,?_,?_⟩
    · rw [blocked]
      split
      · exact h.up
      · rw [Function.update_of_ne apart]
        exact h.up
    · rw [token]
      exact awakeElsewhere waiting asleep h.up h.owner r
  | release u =>
    obtain ⟨token,blocked⟩ := releaseCases next
    refine ⟨queued,blocked ▸ h.up,?_⟩
    rw [token]
    unfold release
    split
    · exact h.owner
    · exact wakeupOther waiting h.up

/- So the next acquire of t is a first one. -/
theorem elsewhereNotNested (h : Elsewhere s t) {actions : List Action} {s'' : State}
    (others : ∀ a ∈ actions, a.thread ≠ t) (ran : run step s actions = some s'') (o : OptType) :
    (sharedAcquire s''.token t o).1.nestingLevel = s''.token.nestingLevel := by
  induction actions generalizing s with
  | nil =>
    cases Option.some.inj ran
    unfold sharedAcquire
    split
    · rfl
    · rw [if_neg h.owner]
      exact (sleepInUse _ t o).2.2.1
  | cons a actions ih =>
    obtain ⟨m,first,rest⟩ := Option.bind_eq_some_iff.1 ran
    have h' := stepElsewhere h (others a List.mem_cons_self) first
    exact ih h' (fun b mem => others b (List.mem_cons_of_mem a mem)) rest

/- The steps of a call that has not returned. -/
theorem sleepingNesting {a : Action} (own : a.thread = t) (next : step s a = some s') (asleep : s'.blocked t ≠ none) :
    s'.token.nestingLevel = s.token.nestingLevel := by
  cases a with
  | acquire u o timed =>
    cases own
    obtain ⟨up,⟨_,_,blocked⟩ | ⟨_,_,blocked,_⟩ | ⟨_,_,token,_⟩⟩ := acquireCases next
    · exact absurd (blocked ▸ up) asleep
    · exact absurd (blocked ▸ up) asleep
    · rw [token]
      exact (sleepInUse s.token u o).2.2.1
  | wake u r =>
    cases own
    obtain ⟨f,_,token,blocked⟩ := wakeCases next
    have waits : (awake s.token u f.opt r).2 = none := by
      by_contra returns
      have out : s'.blocked u = none := by
        rw [blocked,if_neg returns,Function.update_self]
      exact asleep out
    rw [token]
    rcases waitResult r with normal | rfl | rfl
    · rw [wokenAwake s.token u f.opt normal] at waits ⊢
      by_cases mine : s.token.owner = some u
      · simp only [if_pos mine] at waits
        cases waits
      · simp only [if_neg mine]
        rfl
    · cases waits
    · cases waits
  | release u =>
    cases own
    simp only [step] at next
    split at next <;> try contradiction
    rename_i up
    cases Option.some.inj next
    exact absurd up.1 asleep

/- A wait that makes the call fail ends by a timeout or another error. -/
theorem failedResult {r : WaitResult} (failed : returned s t r = some (-1)) : r = .etimedout ∨ r = .error := by
  obtain ⟨f,_,returns⟩ := Option.bind_eq_some_iff.1 failed
  rcases waitResult r with normal | fails
  · rw [wokenAwake s.token t f.opt normal] at returns
    by_cases mine : s.token.owner = some t
    · simp [mine] at returns
    · simp [mine] at returns
  · exact fails

theorem leaveWaiters (k : Token) (t : Thread) (o : OptType) : (leave k t o).waiters = k.waiters - 1 :=
  removeWaiters { k with waiters := k.waiters - 1 } t o

theorem failedCounts (k : Token) (t : Thread) (o : OptType) {r : WaitResult} (fails : r = .etimedout ∨ r = .error) :
    (awake k t o r).1.waiters = k.waiters - 1 ∧ (awake k t o r).1.nestingLevel = k.nestingLevel := by
  have left : (leave (wakeupNextWaiter k) t o).waiters = k.waiters - 1 ∧
      (leave (wakeupNextWaiter k) t o).nestingLevel = k.nestingLevel := by
    rw [leaveWaiters,(leaveSameOwner _ t o).nesting,(wakeupFrame k).1,(wakeupFrame k).2]
    exact ⟨rfl,rfl⟩
  rcases fails with rfl | rfl
  · unfold awake
    dsimp only
    split
    · rw [(wakeupFrame _).1,(wakeupFrame _).2]
      exact left
    · exact left
  · exact left

/- After a timeout the token is passed on once more if it was passed to t. -/
theorem timeoutOwner {k : Token} {blocked : Thread → Option Frame} {l : OptType → List Thread}
    (waiting : Waiting k blocked l) {f : Frame} (asleep : blocked t = some f) :
    (awake k t f.opt .etimedout).1.owner ≠ some t := by
  have same := leaveSameOwner (wakeupNextWaiter k) t f.opt
  unfold awake
  dsimp only
  split
  · exact wakeupOther (waiting.wakeup.leave asleep) (Function.update_self t none blocked)
  · rename_i passed
    rcases wakeupOwner waiting.rep with ⟨o,h,mem,owner,_,runable,_⟩ | ⟨_,owner,_⟩
    · intro mine
      cases Option.some.inj ((same.owner.trans owner).symm.trans mine)
      exact passed ((same.runable t).trans runable)
    · intro mine
      cases (same.owner.trans owner).symm.trans mine

theorem errorOwner (k : Token) (t : Thread) (o : OptType) :
    (awake k t o .error).1.owner = some t ↔ FirstInLine k t := by
  rw [← wakeupFirst k t]
  show (leave (wakeupNextWaiter k) t o).owner = some t ↔ _
  rw [(leaveSameOwner _ t o).owner]

theorem failedOwner {k : Token} {blocked : Thread → Option Frame} {l : OptType → List Thread}
    (waiting : Waiting k blocked l) {f : Frame} (asleep : blocked t = some f) {r : WaitResult}
    (fails : r = .etimedout ∨ r = .error) :
    (awake k t f.opt r).1.owner ≠ some t ↔ ¬(r = .error ∧ FirstInLine k t) := by
  rcases fails with rfl | rfl
  · refine iff_of_true (timeoutOwner waiting asleep) ?_
    rintro ⟨no,_⟩
    cases no
  · rw [Ne,errorOwner]
    simp

end Failure

/- In every reachable state, a call that fails leaves nothing behind exactly when it was not
an error other than a timeout of the thread that is first in line. The steps before, in
which the call sleeps, do not touch nesting_level_ either. -/
theorem leavesNothingIff (strategy : Strategy) {actions : List Action} {s s' : State}
    (ran : run step (init strategy) actions = some s) {t : Thread} {r : WaitResult}
    (next : step s (.wake t r) = some s') (failed : returned s t r = some (-1)) :
    (∀ u u' a, a.thread = t → step u a = some u' → u'.blocked t ≠ none →
      u'.token.nestingLevel = u.token.nestingLevel) ∧
    (LeavesNothing s t s' ↔ ¬(r = .error ∧ FirstInLine s.token t)) := by
  refine ⟨fun u u' a own did asleep => sleepingNesting own did asleep,?_⟩
  have always : Always step (fun s => ∃ l, Waiting s.token s.blocked l) (init strategy) actions :=
    alwaysInvariant stepWaiting (invInit strategy).waiting actions
  have queued := alwaysAtEnd always ran
  obtain ⟨l',waiting'⟩ := stepWaiting s _ s' queued next
  obtain ⟨l,waiting⟩ := queued
  have fails := failedResult failed
  obtain ⟨f,asleep,token,blocked⟩ := wakeCases next
  obtain ⟨f',asleep',returns⟩ := Option.bind_eq_some_iff.1 failed
  cases Option.some.inj (asleep.symm.trans asleep')
  have up : s'.blocked t = none := by
    rw [blocked,if_neg (by rw [returns]; exact Option.some_ne_none _),Function.update_self]
  rw [← failedOwner waiting asleep fails,← token]
  refine ⟨fun nothing => nothing.owner,fun owner => ?_⟩
  obtain ⟨waiters,nesting⟩ := failedCounts s.token t f.opt fails
  exact {
    queues := ⟨l',waiting'.rep,waiting'.awake up,waiting'.count⟩
    waiters := by rw [token,waiters]
    owner := owner
    nesting := by rw [token,nesting]
    later := fun actions s'' others ran o => elsewhereNotNested ⟨⟨l',waiting'⟩,up,owner⟩ others ran o }

/- Thread 2 waits for the token of thread 1. -/
def oneWaits (timed : Bool) : List Action := [.acquire 1 .writeToken false,.acquire 2 .writeToken timed]

theorem timeoutLeavesNothing : ∃ s s', run step (init .fifo) (oneWaits true) = some s ∧
    step s (.wake 2 .etimedout) = some s' ∧ LeavesNothing s 2 s' := by
  obtain ⟨s,s',ran,next,failed⟩ : ∃ s s', run step (init .fifo) (oneWaits true) = some s ∧
      step s (.wake 2 .etimedout) = some s' ∧ returned s 2 .etimedout = some (-1) := ⟨_,_,rfl,rfl,rfl⟩
  refine ⟨s,s',ran,next,(leavesNothingIff .fifo ran next failed).2.2 ?_⟩
  rintro ⟨no,_⟩
  cases no

/- Its wait ends with an error, EINVAL for one, and it is left the owner. -/
theorem erroredLeftOwner : ¬ ∀ (strategy : Strategy) (actions : List Action) (s s' : State) (t : Thread) (r : WaitResult),
    run step (init strategy) actions = some s → step s (.wake t r) = some s' → returned s t r = some (-1) →
    LeavesNothing s t s' := by
  intro claim
  obtain ⟨s,s',ran,next,failed,owner⟩ : ∃ s s', run step (init .fifo) (oneWaits false) = some s ∧
      step s (.wake 2 .error) = some s' ∧ returned s 2 .error = some (-1) ∧ s'.token.owner = some 2 :=
    ⟨_,_,rfl,rfl,rfl,rfl⟩
  exact (claim .fifo _ s s' 2 .error ran next failed).owner owner

end CuteNdk.ReactorToken
