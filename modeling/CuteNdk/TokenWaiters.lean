import CuteNdk.TokenExclusion

/-! No waiter is left behind: over every interleaving, failed waits and all, the
queues hold who sleeps, and with nobody holding the token the next one is on its
way. Timeouts may hand the token over while it is held, so the acquisitions are
counted, not tied to the owner. -/
namespace CuteNdk.ReactorToken

structure NotStranded (s : State) : Prop where
  waiting : ∃ l, Waiting s.token s.blocked l
  free : s.token.inUse = none → ∀ o, s.token.queue o = ⟨none,none⟩
  granted : (∃ t, s.blocked t ≠ none) → (∀ t, s.held t = 0) →
    ∃ w, s.token.owner = some w ∧ s.blocked w ≠ none ∧ (s.token.entry w).runable ∧ (s.token.entry w).signaled

/- The waits end by a signal, without one, by EINTR or by a timeout. -/
def NoWaitError (_ : State) : Action → Prop
  | .wake _ .error => False
  | _ => True

/- The owner is asleep and about to find out. -/
def Chosen (k : Token) (blocked : Thread → Option Frame) : Prop :=
  ∃ w, k.owner = some w ∧ blocked w ≠ none

/- acquired: the returns of 0 that no release has matched, by the thread of each.
nesting_level_ never counts all of them, so the last release is no nested one. -/
structure Acquired (s : State) (acquired : List Thread) : Prop where
  count : ∀ t, acquired.count t = s.held t
  nesting : s.token.nestingLevel = 0 ∨ s.token.nestingLevel < acquired.length
  passed : acquired = [] → s.token.inUse = none ∨ Chosen s.token s.blocked

structure Passed (s : State) : Prop where
  waiting : ∃ l, Waiting s.token s.blocked l
  free : s.token.inUse = none → ∀ t, s.blocked t = none
  runable : ∀ w, s.token.owner = some w → s.blocked w ≠ none →
    (s.token.entry w).runable ∧ (s.token.entry w).signaled
  acquired : ∃ l, Acquired s l

section Passed
variable {s s' : State} {t : Thread}

theorem passedStart (strategy : Strategy) : Passed (init strategy) where
  waiting := (invInit strategy).waiting
  free _ _ := rfl
  runable _ _ asleep := absurd rfl asleep
  acquired := ⟨[],fun _ => rfl,.inl rfl,fun _ => .inl rfl⟩

/- A queue that holds nobody is empty at both ends. -/
theorem passedNotStranded (h : Passed s) : NotStranded s := by
  obtain ⟨l,waiting⟩ := h.waiting
  refine ⟨⟨l,waiting⟩,fun idle o => ?_,fun ⟨t,asleep⟩ none_ => ?_⟩
  · have empty : l o = [] := by
      refine List.eq_nil_iff_forall_not_mem.mpr fun t mem => ?_
      exact waiting.awake (h.free idle t) o mem
    have head := Lib.segHead (waiting.rep o).chain
    have tail := (waiting.rep o).tail
    rw [empty] at head tail
    rw [← show (⟨(s.token.queue o).head,(s.token.queue o).tail⟩ : Queue) = s.token.queue o from rfl,head,tail]
    rfl
  · obtain ⟨acquired,counted⟩ := h.acquired
    have nothing : acquired = [] := by
      refine List.eq_nil_iff_forall_not_mem.mpr fun t mem => ?_
      have some_ := List.count_pos_iff.mpr mem
      rw [counted.count t,none_ t] at some_
      exact absurd some_ (Nat.lt_irrefl 0)
    rcases counted.passed nothing with idle | ⟨w,owner,sleeps⟩
    · exact absurd (h.free idle t) asleep
    · exact ⟨w,owner,sleeps,h.runable w owner sleeps⟩

/- One return of 0 more. -/
theorem acquiredMore {k : Token} {blocked : Thread → Option Frame} {l : List Thread}
    (count : ∀ t, l.count t = s.held t) (nesting : k.nestingLevel < l.length + 1) :
    ∃ l, Acquired ⟨k,blocked,Function.update s.held t (s.held t + 1)⟩ l := by
  refine ⟨t :: l,fun u => ?_,.inr nesting,fun no => absurd no (List.cons_ne_nil t l)⟩
  by_cases same : u = t
  · subst same
    rw [List.count_cons_self,count]
    exact (Function.update_self u _ s.held).symm
  · rw [List.count_cons_of_ne (Ne.symm same),count]
    exact (Function.update_of_ne same _ s.held).symm

theorem acquiredLess {l : List Thread} (count : ∀ t, l.count t = s.held t) (holds : 0 < s.held t) (u : Thread) :
    (l.erase t).count u = Function.update s.held t (s.held t - 1) u := by
  by_cases same : u = t
  · subst same
    rw [List.count_erase_self,count,Function.update_self]
  · rw [List.count_erase_of_ne same,count,Function.update_of_ne same]

/- wakeup_next_waiter leaves nobody behind, whoever held the token. -/
theorem passedOn {k : Token} {blocked : Thread → Option Frame} {held : Thread → Nat} {l : OptType → List Thread}
    {acquired : List Thread} (waiting : Waiting k blocked l) (count : ∀ t, acquired.count t = held t)
    (nesting : k.nestingLevel = 0 ∨ k.nestingLevel < acquired.length) :
    Passed ⟨wakeupNextWaiter k,blocked,held⟩ := by
  have flat : (wakeupNextWaiter k).nestingLevel = k.nestingLevel := (wakeupFrame k).2
  have acquisitions : (wakeupNextWaiter k).nestingLevel = 0 ∨ (wakeupNextWaiter k).nestingLevel < acquired.length := by
    rw [flat]
    exact nesting
  rcases wakeupOwner waiting.rep with ⟨o,w,mem,owner,busy,runable⟩ | ⟨empty,owner,idle⟩
  · obtain ⟨f,asleep,_⟩ := (waiting.mem o w).mp mem
    have sleeps : blocked w ≠ none := asleep ▸ Option.some_ne_none f
    refine ⟨⟨l,waiting.wakeup⟩,fun no => absurd no busy,fun v is _ => ?_,acquired,count,acquisitions,fun _ => .inr ?_⟩
    · cases Option.some.inj (owner.symm.trans is)
      exact runable
    · exact ⟨w,owner,sleeps⟩
  · refine ⟨⟨l,waiting.wakeup⟩,fun _ t => ?_,fun v is _ => ?_,acquired,count,acquisitions,fun _ => .inl idle⟩
    · cases up : blocked t with
      | none => exact up
      | some f =>
        have mem := (waiting.mem f.opt t).mpr ⟨f,up,rfl⟩
        rw [empty] at mem
        exact absurd mem List.not_mem_nil
    · exact absurd (is.symm.trans owner) (Option.some_ne_none v)

theorem acquirePassed {o : OptType} {timed : Bool} (h : Passed s) (next : step s (.acquire t o timed) = some s') :
    Passed s' := by
  obtain ⟨l,waiting⟩ := h.waiting
  obtain ⟨acquired,counted⟩ := h.acquired
  have up : s.blocked t = none := by
    by_contra asleep
    simp only [step,if_neg asleep] at next
    cases next
  simp only [step,if_pos up] at next
  by_cases idle : s.token.inUse = none
  · simp only [sharedAcquire,if_pos idle] at next
    cases Option.some.inj next
    refine ⟨⟨l,waiting.congr rfl (fun o => by cases o <;> rfl) rfl⟩,fun no => absurd no (Option.some_ne_none o),
      fun w is asleep => ?_,acquiredMore counted.count ?_⟩
    · cases Option.some.inj is
      exact absurd up asleep
    · have nesting := counted.nesting
      change s.token.nestingLevel < acquired.length + 1
      omega
  · by_cases mine : s.token.owner = some t
    · simp only [sharedAcquire,if_neg idle,if_pos mine] at next
      cases Option.some.inj next
      refine ⟨⟨l,waiting.congr rfl (fun o => by cases o <;> rfl) rfl⟩,fun no => absurd no idle,h.runable,
        acquiredMore counted.count ?_⟩
      -- an owner that runs has not given back all there is
      have some_ : acquired ≠ [] := fun nothing => by
        rcases counted.passed nothing with no | ⟨w,owner,asleep⟩
        · exact idle no
        · cases Option.some.inj (mine.symm.trans owner)
          exact asleep up
      have positive := List.length_pos_iff.mpr some_
      have nesting := counted.nesting
      change s.token.nestingLevel + 1 < acquired.length + 1
      omega
    · simp only [sharedAcquire,if_neg idle,if_neg mine] at next
      cases Option.some.inj next
      obtain ⟨inUse',owner',nesting',entry'⟩ := sleepInUse s.token t o
      have other : ∀ w, (fallAsleep s.token t o).owner = some w → w ≠ t := fun w is same =>
        mine (owner'.symm.trans (same ▸ is))
      refine ⟨⟨_,waiting.sleep up ⟨o,timed⟩⟩,fun no => absurd (inUse'.symm.trans no) idle,fun w is asleep => ?_,
        acquired,counted.count,?_,fun nothing => .inr ?_⟩
      · have asleep : Function.update s.blocked t (some ⟨o,timed⟩) w ≠ none := asleep
        rw [Function.update_of_ne (other w is)] at asleep
        have was := h.runable w (owner'.symm.trans is) asleep
        have same := entry' w (other w is)
        exact ⟨same.1.trans was.1,same.2.trans was.2⟩
      · change (fallAsleep s.token t o).nestingLevel = 0 ∨ (fallAsleep s.token t o).nestingLevel < acquired.length
        rw [nesting']
        exact counted.nesting
      · obtain ⟨w,owner,asleep⟩ := (counted.passed nothing).resolve_left idle
        refine ⟨w,owner'.trans owner,?_⟩
        change Function.update s.blocked t (some ⟨o,timed⟩) w ≠ none
        rw [Function.update_of_ne (other w (owner'.trans owner))]
        exact asleep

/- The thread that gives up is gone from the queue before it looks whether it was
the one chosen; if it was, the token goes on to the next. -/
theorem timeoutPassed {f : Frame} (h : Passed s) (asleep : s.blocked t = some f) :
    Passed ⟨(awake s.token t f.opt .etimedout).1,Function.update s.blocked t none,s.held⟩ := by
  obtain ⟨l,waiting⟩ := h.waiting
  obtain ⟨acquired,counted⟩ := h.acquired
  have same := leaveSameOwner (wakeupNextWaiter s.token) t f.opt
  have left := waiting.wakeup.leave asleep
  have flat : (leave (wakeupNextWaiter s.token) t f.opt).nestingLevel = s.token.nestingLevel :=
    same.nesting.trans (wakeupFrame s.token).2
  have nesting : (leave (wakeupNextWaiter s.token) t f.opt).nestingLevel = 0 ∨
      (leave (wakeupNextWaiter s.token) t f.opt).nestingLevel < acquired.length := by
    rw [flat]
    exact counted.nesting
  simp only [awake]
  by_cases chosen : ((leave (wakeupNextWaiter s.token) t f.opt).entry t).runable
  · simp only [if_pos chosen]
    exact passedOn left counted.count nesting
  · simp only [if_neg chosen]
    obtain ⟨w,owner,sleeps,runable,busy⟩ : ∃ w, (wakeupNextWaiter s.token).owner = some w ∧ s.blocked w ≠ none ∧
        (((wakeupNextWaiter s.token).entry w).runable ∧ ((wakeupNextWaiter s.token).entry w).signaled) ∧
        (wakeupNextWaiter s.token).inUse ≠ none := by
      rcases wakeupOwner waiting.rep with ⟨o,w,mem,owner,busy,runable⟩ | ⟨empty,_,_⟩
      · obtain ⟨g,up,_⟩ := (waiting.mem o w).mp mem
        exact ⟨w,owner,up ▸ Option.some_ne_none g,runable,busy⟩
      · have mem := (waiting.mem f.opt t).mpr ⟨f,asleep,rfl⟩
        rw [empty] at mem
        exact absurd mem List.not_mem_nil
    have other : w ≠ t := fun is => chosen ((same.runable t).trans (is ▸ runable.1))
    have still : Function.update s.blocked t none w ≠ none := by
      rw [Function.update_of_ne other]
      exact sleeps
    refine ⟨⟨_,left⟩,fun no => absurd (same.inUse.symm.trans no) busy,fun v is _ => ?_,acquired,counted.count,nesting,
      fun _ => .inr ⟨w,same.owner.trans owner,still⟩⟩
    cases Option.some.inj (owner.symm.trans (same.owner.symm.trans is))
    exact ⟨(same.runable w).trans runable.1,(same.signaled w).trans runable.2⟩

/- A wait that was not ended by a timeout. -/
theorem wokenPassed {f : Frame} {r : WaitResult} (h : Passed s) (asleep : s.blocked t = some f)
    (normal : r = .woken ∨ r = .eintr) (next : step s (.wake t r) = some s') : Passed s' := by
  obtain ⟨l,waiting⟩ := h.waiting
  obtain ⟨acquired,counted⟩ := h.acquired
  have timely : ¬(r = .etimedout ∧ f.timed = false) := by
    rcases normal with rfl | rfl
    · exact fun no => WaitResult.noConfusion no.1
    · exact fun no => WaitResult.noConfusion no.1
  simp only [step,asleep,if_neg timely] at next
  by_cases mine : s.token.owner = some t
  · have out : awake s.token t f.opt r = (leave s.token t f.opt,some 0) := by
      rcases normal with rfl | rfl <;> simp [awake,mine]
    rw [out] at next
    cases Option.some.inj next
    have same := leaveSameOwner s.token t f.opt
    refine ⟨⟨_,waiting.leave asleep⟩,fun no u => ?_,fun w is sleeps => ?_,acquiredMore counted.count ?_⟩
    · exact absurd ((h.free (same.inUse.symm.trans no) t).symm.trans asleep).symm (Option.some_ne_none f)
    · cases Option.some.inj (mine.symm.trans (same.owner.symm.trans is))
      exact absurd (Function.update_self _ _ _) sleeps
    · have nesting := counted.nesting
      rw [same.nesting]
      omega
  · have out : awake s.token t f.opt r = (s.token.consume t,none) := by
      rcases normal with rfl | rfl <;> simp [awake,mine]
    rw [out] at next
    cases Option.some.inj next
    have same := consumeSame s.token t
    refine ⟨⟨l,waiting.congr same.1 (fun o => by cases o <;> rfl) rfl⟩,h.free,fun w is sleeps => ?_,
      acquired,counted.count,counted.nesting,counted.passed⟩
    have other : w ≠ t := fun here => mine (here ▸ is)
    have kept : (s.token.consume t).entry w = s.token.entry w := Function.update_of_ne other _ s.token.entry
    change ((s.token.consume t).entry w).runable ∧ ((s.token.consume t).entry w).signaled
    rw [kept]
    exact h.runable w is sleeps

theorem releasePassed (h : Passed s) (next : step s (.release t) = some s') : Passed s' := by
  obtain ⟨l,waiting⟩ := h.waiting
  obtain ⟨acquired,counted⟩ := h.acquired
  simp only [step] at next
  split at next <;> try contradiction
  rename_i holds
  cases Option.some.inj next
  have count := acquiredLess counted.count holds.2
  have mem : t ∈ acquired := List.count_pos_iff.mp (counted.count t ▸ holds.2)
  have shorter := List.length_erase_of_mem mem
  have nesting := counted.nesting
  by_cases nested : s.token.nestingLevel > 0
  · simp only [release,if_pos nested]
    have fewer : s.token.nestingLevel - 1 < (acquired.erase t).length := by omega
    refine ⟨⟨l,waiting.congr rfl (fun o => by cases o <;> rfl) rfl⟩,h.free,h.runable,acquired.erase t,count,.inr fewer,
      fun nothing => ?_⟩
    rw [nothing] at fewer
    exact absurd fewer (Nat.not_lt_zero _)
  · simp only [release,if_neg nested]
    exact passedOn waiting count (.inl (Nat.eq_zero_of_not_pos nested))

end Passed

theorem stepPassed (s : State) (a : Action) (s' : State) (h : Passed s) (quiet : NoWaitError s a)
    (next : step s a = some s') : Passed s' := by
  cases a with
  | acquire t o timed => exact acquirePassed h next
  | release t => exact releasePassed h next
  | wake t r =>
    cases asleep : s.blocked t with
    | none =>
      simp only [step,asleep] at next
      cases next
    | some f =>
      cases r with
      | woken => exact wokenPassed h asleep (.inl rfl) next
      | eintr => exact wokenPassed h asleep (.inr rfl) next
      | error => exact quiet.elim
      | etimedout =>
        have passed := timeoutPassed h asleep
        simp only [step,asleep] at next
        split at next
        · cases next
        · cases Option.some.inj next
          exact passed

/- Over every interleaving without another wait error no waiter is stranded. -/
theorem noWaiterStranded (strategy : Strategy) (actions : List Action)
    (quiet : Lib.Along step NoWaitError (init strategy) actions) :
    Lib.Always step NotStranded (init strategy) actions :=
  Lib.alwaysMono (fun _ h => passedNotStranded h) (Lib.alwaysOfInvariant stepPassed (passedStart strategy) quiet)

/- Thread 2 gives up while thread 1 holds the token, and the last come waiter is
chosen twice. -/
theorem overtakenNotStranded : ∃ s, Lib.run step (init .lifo) [.acquire 1 .writeToken false,.acquire 2 .readToken true,
    .acquire 3 .readToken false,.wake 2 .etimedout,.release 1] = some s ∧ ∃ w, s.token.owner = some w ∧
      s.blocked w ≠ none ∧ (s.token.entry w).runable ∧ (s.token.entry w).signaled := by
  have quiet : Lib.Along step NoWaitError (init .lifo) [.acquire 1 .writeToken false,.acquire 2 .readToken true,
      .acquire 3 .readToken false,.wake 2 .etimedout,.release 1] := by
    simp only [Lib.Along,NoWaitError,implies_true,and_self]
  have always := noWaiterStranded .lifo _ quiet
  obtain ⟨s,ends,asleep,one,others⟩ : ∃ s, Lib.run step (init .lifo) [.acquire 1 .writeToken false,
      .acquire 2 .readToken true,.acquire 3 .readToken false,.wake 2 .etimedout,.release 1] = some s ∧
        s.blocked 3 ≠ none ∧ s.held 1 = 0 ∧ ∀ t, t ≠ 1 → s.held t = 0 := by
    refine ⟨_,rfl,by decide,rfl,fun t other => ?_⟩
    have gaveUp : ¬(-1 : Int) = 0 := by decide
    simp only [Function.update_of_ne other,if_neg gaveUp]
    rfl
  have free : ∀ t, s.held t = 0 := fun t => by
    by_cases first : t = 1
    · rw [first,one]
    · exact others t first
  exact ⟨s,ends,(Lib.alwaysAtEnd always ends).granted ⟨3,asleep⟩ free⟩

end CuteNdk.ReactorToken
