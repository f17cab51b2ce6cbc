import CuteNdk.Lib.Run
import Mathlib.Algebra.Order.Ring.Int

/-! recursive_thread_mutex: an owner and a nesting level in front of a mutex that does not
nest. Both are read and written under no lock of their own, so each access to them is a
step here, and the steps of the threads come in any order. -/
namespace CuteNdk.RecursiveMutex
open Lib

abbrev Thread := Nat

def intMax : Int := 2 ^ 31 - 1

/- The statement a thread does next: none of a call, the comparison with owner_thr_ in
acquire or try_acquire, the read and the write of ++nesting_level_, the lock, the two
assignments behind it; the comparison in release, the test of nesting_level_, the read
and the write of --nesting_level_, the assignment and the unlock. -/
inductive Pc where
  | outside
  | compare (tries : Bool)
  | load
  | store (n : Int)
  | lock (tries : Bool)
  | own
  | clear
  | check
  | test
  | loadLess
  | storeLess (n : Int)
  | disown
  | unlock
  deriving DecidableEq, Repr

/- mutex is who has locked mutex_, and ownerThr none stands for 0. held counts what
acquire and try_acquire returned 0 for, less what release returned 0 for. -/
structure State where
  mutex : Option Thread
  ownerThr : Option Thread
  nestingLevel : Int
  pc : Thread → Pc
  held : Thread → Int

def State.new : State := ⟨none,none,0,fun _ => .outside,fun _ => 0⟩

def State.at (s : State) (t : Thread) (p : Pc) : State := { s with pc := Function.update s.pc t p }

/- A call that returns 0. -/
def State.returned (s : State) (t : Thread) (more : Int) : State :=
  { s.at t .outside with held := Function.update s.held t (s.held t + more) }

inductive Act where
  | acquire (t : Thread) (tries : Bool)
  | release (t : Thread)
  | go (t : Thread)
  | fails (t : Thread)
  deriving DecidableEq, Repr

/- The next statement of a thread. Of the result, none outside is a thread that waits for
mutex_, and none inside a ++ past the greatest int or the unlock of a mutex that somebody
else has locked. -/
def next (s : State) (t : Thread) : Pc → Option (Option State)
  | .outside => none
  | .compare tries => some (some (s.at t (if s.ownerThr = some t then .load else .lock tries)))
  | .load => some (some (s.at t (.store s.nestingLevel)))
  | .store n => some (if n < intMax then some { s.returned t 1 with nestingLevel := n + 1 } else none)
  | .lock tries =>
    if s.mutex = none then some (some { s.at t .own with mutex := some t })
    else if tries then some (some (s.at t .outside))
    else none
  | .own => some (some { s.at t .clear with ownerThr := some t })
  | .clear => some (some { s.returned t 1 with nestingLevel := 0 })
  | .check => some (some (s.at t (if s.ownerThr = some t then .test else .outside)))
  | .test => some (some (s.at t (if 0 < s.nestingLevel then .loadLess else .disown)))
  | .loadLess => some (some (s.at t (.storeLess s.nestingLevel)))
  | .storeLess n => some (some { s.returned t (-1) with nestingLevel := n - 1 })
  | .disown => some (some { s.at t .unlock with ownerThr := none })
  | .unlock => some (if s.mutex = some t then some { s.returned t (-1) with mutex := none } else none)

/- fails is a pthread_mutex_lock or pthread_mutex_trylock that returns an error. -/
def act (s : State) : Act → Option (Option State)
  | .acquire t tries => if s.pc t = .outside then some (some (s.at t (.compare tries))) else none
  | .release t => if s.pc t = .outside then some (some (s.at t .check)) else none
  | .go t => next s t (s.pc t)
  | .fails t =>
    match s.pc t with
    | .lock _ => some (some (s.at t .outside))
    | _ => none

def step (o : Option State) (a : Act) : Option (Option State) := o.bind fun s => act s a

/- The thread has the mutex and the level counts what it has to release besides. -/
def Holds (s : State) (t : Thread) : Prop :=
  s.mutex = some t ∧ s.ownerThr = some t ∧ s.nestingLevel = s.held t - 1 ∧ 0 < s.held t

def Away (s : State) (t : Thread) : Prop := s.mutex ≠ some t ∧ s.ownerThr ≠ some t ∧ s.held t = 0

/- What a thread can rely on before each statement. -/
def Placed (s : State) (t : Thread) : Pc → Prop
  | .outside | .compare _ | .check => Holds s t ∨ Away s t
  | .lock _ => Away s t
  | .load | .test => Holds s t
  | .store n => Holds s t ∧ n = s.nestingLevel
  | .own => s.mutex = some t ∧ s.ownerThr = none ∧ s.held t = 0
  | .clear => s.mutex = some t ∧ s.ownerThr = some t ∧ s.held t = 0
  | .loadLess => Holds s t ∧ 0 < s.nestingLevel
  | .storeLess n => Holds s t ∧ n = s.nestingLevel ∧ 0 < n
  | .disown => Holds s t ∧ s.nestingLevel = 0
  | .unlock => s.mutex = some t ∧ s.ownerThr = none ∧ s.held t = 1

def Inv (s : State) : Prop := ∀ t, Placed s t (s.pc t)

section Threads
variable {s s' : State} {t u : Thread} {p : Pc}

theorem placedCongr (mutex : s'.mutex = s.mutex) (owner : s'.ownerThr = s.ownerThr)
    (level : s'.nestingLevel = s.nestingLevel) (held : s'.held t = s.held t) (h : Placed s t p) : Placed s' t p := by
  cases p <;> simp only [Placed,Holds,Away,mutex,owner,level,held] at h ⊢ <;> exact h

/- A thread that has not locked the mutex relies on nothing but that. -/
theorem awayOf (h : Placed s t p) (off : s.mutex ≠ some t) :
    Away s t ∧ ∀ s', Away s' t → Placed s' t p := by
  have notHolds : ¬Holds s t := fun holds => off holds.1
  cases p with
  | outside | compare tries | check => exact ⟨h.resolve_left notHolds,fun _ away => .inr away⟩
  | lock tries => exact ⟨h,fun _ away => away⟩
  | load | test => exact absurd h notHolds
  | store n => exact absurd h.1 notHolds
  | own | clear | unlock => exact absurd h.1 off
  | loadLess | disown => exact absurd h.1 notHolds
  | storeLess n => exact absurd h.1 notHolds

/- Who has the mutex has been told so, or is about to be. -/
theorem holdsOf (h : Placed s t p) (mine : s.mutex = some t) : 0 < s.held t ∨ p = .own ∨ p = .clear := by
  have notAway : ¬Away s t := fun away => away.1 mine
  cases p with
  | outside | compare tries | check => exact .inl (h.resolve_right notAway).2.2.2
  | lock tries => exact absurd h notAway
  | load | test => exact .inl h.2.2.2
  | store n => exact .inl h.1.2.2.2
  | own => exact .inr (.inl rfl)
  | clear => exact .inr (.inr rfl)
  | loadLess | disown => exact .inl h.1.2.2.2
  | storeLess n => exact .inl h.1.2.2.2
  | unlock => exact .inl (h.2.2 ▸ one_pos)

/- A statement that only moves its thread on. -/
theorem moves (h : Inv s) (here : Placed s t p) : Inv (s.at t p) := by
  intro u
  by_cases same : u = t
  · subst same
    have at_ : (s.at u p).pc u = p := Function.update_self _ _ _
    rw [at_]
    exact (placedCongr rfl rfl rfl rfl here : Placed (s.at u p) u p)
  · have at_ : (s.at t p).pc u = s.pc u := Function.update_of_ne same _ _
    rw [at_]
    exact (placedCongr rfl rfl rfl rfl (h u) : Placed (s.at t p) u (s.pc u))

/- A statement of the thread that has the mutex, or takes it. -/
theorem writes (h : Inv s) (mine : s.mutex = some t ∨ s.mutex = none) (mutex : s'.mutex = some t ∨ s'.mutex = none)
    (owner : s'.ownerThr = some t ∨ s'.ownerThr = none) (others : ∀ u, u ≠ t → s'.pc u = s.pc u ∧ s'.held u = s.held u)
    (here : Placed s' t (s'.pc t)) : Inv s' := by
  intro u
  by_cases same : u = t
  · exact same ▸ here
  · have apart : ∀ {o : Option Thread}, o = some t ∨ o = none → o ≠ some u := by
      rintro o (rfl | rfl) is
      · exact same (Option.some.inj is).symm
      · cases is
    obtain ⟨pc,held⟩ := others u same
    obtain ⟨away,placed⟩ := awayOf (h u) (apart mine)
    rw [pc]
    exact placed s' ⟨apart mutex,apart owner,held.trans away.2.2⟩

theorem returnedOthers (more : Int) : ∀ u, u ≠ t → (s.returned t more).pc u = s.pc u ∧ (s.returned t more).held u = s.held u :=
  fun _ other => ⟨Function.update_of_ne other _ _,Function.update_of_ne other _ _⟩

theorem atOthers (p : Pc) : ∀ u, u ≠ t → (s.at t p).pc u = s.pc u ∧ (s.at t p).held u = s.held u :=
  fun _ other => ⟨Function.update_of_ne other _ _,rfl⟩

theorem ownerLocks (h : Inv s) (owner : s.ownerThr = some t) : s.mutex = some t := by
  by_contra off
  exact (awayOf (h t) off).1.2.1 owner

end Threads

/- The level stays an int. -/
def Small (o : Option State) : Act → Prop
  | .go t => ∀ s ∈ o, ∀ n, s.pc t = .store n → n < intMax
  | _ => True

/- What the mutex is for. At most one thread holds it, and nobody has released it more
often than acquired. A holder in none of the calls has the level at its count; release
finds itself the owner exactly when it holds the mutex; and a mutex that is locked is held
or about to be. -/
structure Exclusive (s : State) : Prop where
  one : ∀ t u, 0 < s.held t → 0 < s.held u → t = u
  count : ∀ t, 0 ≤ s.held t
  level : ∀ t, s.pc t = .outside → 0 < s.held t → s.mutex = some t ∧ s.nestingLevel = s.held t - 1
  told : ∀ t, s.pc t = .check → (s.ownerThr = some t ↔ 0 < s.held t)
  free : ∀ t, s.mutex = some t → 0 < s.held t ∨ s.pc t = .own ∨ s.pc t = .clear

section Statements
variable {s : State} {t : Thread} {p : Pc}

theorem nextKeeps (h : Inv s) (here : Placed s t p) (small : ∀ n, p = .store n → n < intMax) {o : Option State}
    (does : next s t p = some o) : ∃ s', o = some s' ∧ Inv s' := by
  cases p with
  | outside => cases does
  | compare tries =>
    cases Option.some.inj does
    refine ⟨_,rfl,moves h ?_⟩
    split
    · rename_i owner
      exact here.resolve_right fun away => away.2.1 owner
    · rename_i other
      exact here.resolve_left fun holds => other holds.2.1
  | load =>
    cases Option.some.inj does
    exact ⟨_,rfl,moves h ⟨here,rfl⟩⟩
  | store n =>
    obtain ⟨⟨mutex,owner,level,some_⟩,rfl⟩ := here
    rw [next,if_pos (small _ rfl)] at does
    cases Option.some.inj does
    refine ⟨_,rfl,writes h (.inl mutex) (.inl mutex) (.inl owner) (returnedOthers 1) ?_⟩
    simp only [State.returned,State.at,Function.update_self]
    refine .inl ⟨mutex,owner,?_,?_⟩ <;> simp only [Function.update_self] <;> omega
  | lock tries =>
    rw [next] at does
    split at does
    · cases Option.some.inj does
      rename_i free
      have unowned : s.ownerThr = none := by
        by_contra owned
        obtain ⟨u,owner⟩ := Option.ne_none_iff_exists'.1 owned
        cases free.symm.trans (ownerLocks h owner)
      refine ⟨_,rfl,writes h (.inr free) (.inl rfl) (.inr unowned) (atOthers .own) ?_⟩
      simp only [State.at,Function.update_self]
      exact ⟨rfl,unowned,here.2.2⟩
    · split at does
      · cases Option.some.inj does
        exact ⟨_,rfl,moves h (.inr here)⟩
      · cases does
  | own =>
    obtain ⟨mutex,_,none_⟩ := here
    cases Option.some.inj does
    refine ⟨_,rfl,writes h (.inl mutex) (.inl mutex) (.inl rfl) (atOthers .clear) ?_⟩
    simp only [State.at,Function.update_self]
    exact ⟨mutex,rfl,none_⟩
  | clear =>
    obtain ⟨mutex,owner,none_⟩ := here
    cases Option.some.inj does
    refine ⟨_,rfl,writes h (.inl mutex) (.inl mutex) (.inl owner) (returnedOthers 1) ?_⟩
    simp only [State.returned,State.at,Function.update_self]
    refine .inl ⟨mutex,owner,?_,?_⟩ <;> simp only [Function.update_self,none_] <;> decide
  | check =>
    cases Option.some.inj does
    refine ⟨_,rfl,moves h ?_⟩
    split
    · rename_i owner
      exact here.resolve_right fun away => away.2.1 owner
    · exact here
  | test =>
    cases Option.some.inj does
    refine ⟨_,rfl,moves h ?_⟩
    split
    · rename_i nested
      exact ⟨here,nested⟩
    · rename_i last
      have level := here.2.2
      exact ⟨here,by omega⟩
  | loadLess =>
    cases Option.some.inj does
    exact ⟨_,rfl,moves h ⟨here.1,rfl,here.2⟩⟩
  | storeLess n =>
    obtain ⟨⟨mutex,owner,level,some_⟩,rfl,nested⟩ := here
    cases Option.some.inj does
    refine ⟨_,rfl,writes h (.inl mutex) (.inl mutex) (.inl owner) (returnedOthers (-1)) ?_⟩
    simp only [State.returned,State.at,Function.update_self]
    refine .inl ⟨mutex,owner,?_,?_⟩ <;> simp only [Function.update_self] <;> omega
  | disown =>
    obtain ⟨⟨mutex,_,level,_⟩,last⟩ := here
    cases Option.some.inj does
    refine ⟨_,rfl,writes h (.inl mutex) (.inl mutex) (.inr rfl) (atOthers .unlock) ?_⟩
    simp only [State.at,Function.update_self]
    exact ⟨mutex,rfl,by change s.held t = 1; omega⟩
  | unlock =>
    obtain ⟨mutex,unowned,one⟩ := here
    rw [next,if_pos mutex] at does
    cases Option.some.inj does
    refine ⟨_,rfl,writes h (.inl mutex) (.inr rfl) (.inr unowned) (returnedOthers (-1)) ?_⟩
    simp only [State.returned,State.at,Function.update_self]
    refine .inr ⟨nofun,?_,?_⟩
    · change s.ownerThr ≠ some t
      rw [unowned]
      exact nofun
    · simp only [Function.update_self]
      omega

theorem stepKeeps (h : Inv s) {a : Act} (small : Small (some s) a) {o : Option State} (does : act s a = some o) :
    ∃ s', o = some s' ∧ Inv s' := by
  cases a with
  | acquire t tries =>
    simp only [act] at does
    split at does
    · cases Option.some.inj does
      rename_i outside
      have here := h t
      rw [outside] at here
      exact ⟨_,rfl,moves h here⟩
    · cases does
  | release t =>
    simp only [act] at does
    split at does
    · cases Option.some.inj does
      rename_i outside
      have here := h t
      rw [outside] at here
      exact ⟨_,rfl,moves h here⟩
    · cases does
  | go t => exact nextKeeps h (h t) (small s rfl) does
  | fails t =>
    have here := h t
    simp only [act] at does
    cases pc : s.pc t with
    | lock tries =>
      rw [pc] at does here
      cases Option.some.inj does
      exact ⟨_,rfl,moves h (.inr here)⟩
    | _ =>
      rw [pc] at does
      cases does

theorem stepBreaks {a : Act} (big : ¬Small (some s) a) {o : Option State} (does : act s a = some o) : o = none := by
  cases a with
  | go t =>
    simp only [Small,Option.mem_some_iff,forall_eq',not_forall,not_lt] at big
    obtain ⟨n,pc,most⟩ := big
    simp only [act,pc] at does
    rw [next,if_neg (not_lt.2 most)] at does
    exact (Option.some.inj does).symm
  | _ => exact absurd trivial big

theorem invExclusive (h : Inv s) : Exclusive s := by
  have locks : ∀ t, 0 < s.held t → s.mutex = some t := by
    intro t some_
    by_contra off
    exact absurd (awayOf (h t) off).1.2.2 (ne_of_gt some_)
  refine ⟨fun t u mine yours => ?_,fun t => ?_,fun t outside some_ => ?_,fun t check => ?_,fun t mine => holdsOf (h t) mine⟩
  · exact Option.some.inj ((locks t mine).symm.trans (locks u yours))
  · by_cases off : s.mutex = some t
    · rcases holdsOf (h t) off with some_ | own | clear
      · exact some_.le
      · have here := h t
        rw [own] at here
        exact here.2.2.ge
      · have here := h t
        rw [clear] at here
        exact here.2.2.ge
    · exact (awayOf (h t) off).1.2.2.ge
  · have here := h t
    rw [outside] at here
    obtain ⟨mutex,_,level,_⟩ := here.resolve_right fun away => absurd away.2.2 (ne_of_gt some_)
    exact ⟨mutex,level⟩
  · have here := h t
    rw [check] at here
    rcases here with holds | away
    · exact iff_of_true holds.2.1 holds.2.2.2
    · exact iff_of_false away.2.1 (by rw [away.2.2]; exact lt_irrefl 0)

end Statements

def Good (o : Option State) : Prop := ∃ s ∈ o, Inv s

/- Whatever the threads call and in whatever order their statements come, the mutex is
exclusive and counts right, as long as no thread acquires it so often that the level would
not be an int. -/
theorem recursiveExclusive (acts : List Act) :
    Always step (fun o => ∃ s ∈ o, Exclusive s) (some .new) acts ↔ Along step Small (some .new) acts := by
  refine alwaysIffAlong ?_ ?_ ?_ (show Good (some .new) from ⟨_,rfl,fun _ => .inr ⟨nofun,nofun,rfl⟩⟩) acts
  · rintro o a o' ⟨s,rfl,h⟩ small does
    obtain ⟨s',rfl,kept⟩ := stepKeeps h small does
    exact ⟨s',rfl,kept⟩
  · rintro o ⟨s,rfl,h⟩
    exact ⟨s,rfl,invExclusive h⟩
  · rintro o a o' ⟨s,rfl,_⟩ big does
    rw [stepBreaks big does]
    rintro ⟨s,none_,_⟩
    cases none_

end CuteNdk.RecursiveMutex
