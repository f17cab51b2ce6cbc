import CuteNdk.Lib.Run
import Mathlib.Algebra.Order.Ring.Int

/-! The count of a task's threads: activate adds what it was asked for, cleanup takes one
away at the end of each thread, both under lock_, and what spawn_n created lies between. -/
namespace CuteNdk.TaskThreads
open Lib

def sizeModulus : Nat := 2 ^ 64

/- The threads a task has: in svc(), at the guard of cleanup, and those gone. activating is
the call of activate that has lock_, with the threads it is to create and those spawn_n has
created; asked is what all calls have added to thr_count_, created what they created. -/
structure State where
  thrCount : Nat
  activating : Option (Nat × Nat)
  inSvc : Nat
  leaving : Nat
  ended : Nat
  asked : Nat
  created : Nat
  deriving DecidableEq, Repr

def State.new : State := ⟨0,none,0,0,0,0,0⟩

def State.live (s : State) : Nat := s.inSvc + s.leaving

/- spawn_n ends when every thread is created or one is not, and returns how many are. -/
inductive Act where
  | activate (nThreads : Nat) (appendThr : Bool)
  | spawned
  | spawnEnds
  | svcReturns
  | cleanup
  deriving DecidableEq, Repr

/- The size_t that spawn_n has counted up to, as the int it returns. -/
def spawnN (made : Nat) : Int := (made : Int).bmod (2 ^ 32)

def step (s : State) : Act → Option State
  | .activate n append =>
    if s.activating = none ∧ n < sizeModulus then
      -- 1 is returned while a thread is counted
      if 0 < s.thrCount ∧ append = false then some s else some { s with activating := some (n,0) }
    else none
  | .spawned =>
    match s.activating with
    | some (n,made) =>
      if made < n then
        some { s with activating := some (n,made + 1), inSvc := s.inSvc + 1, created := s.created + 1 }
      else none
    | none => none
  | .spawnEnds =>
    match s.activating with
    | some (n,made) =>
      if spawnN made = -1 then some { s with activating := none }
      else some { s with activating := none, thrCount := (s.thrCount + n) % sizeModulus, asked := s.asked + n }
    | none => none
  | .svcReturns => if 0 < s.inSvc then some { s with inSvc := s.inSvc - 1, leaving := s.leaving + 1 } else none
  | .cleanup =>
    if s.activating = none ∧ 0 < s.leaving then
      some { s with
        leaving := s.leaving - 1
        ended := s.ended + 1
        thrCount := (s.thrCount + sizeModulus - 1) % sizeModulus }
    else none

def State.made (s : State) : Nat := (s.activating.map (·.2)).getD 0

/- What is counted is what lives, but for the threads of the call under way. -/
structure Inv (s : State) : Prop where
  counted : (s.thrCount + s.made) % sizeModulus = s.live % sizeModulus
  small : s.thrCount < sizeModulus
  asking : ∀ n made, s.activating = some (n,made) → made ≤ n ∧ n < sizeModulus

/- activate gets all it asks for, and fewer than spawn_n can return. -/
def Full (s : State) : Act → Prop
  | .spawnEnds => ∀ n made, s.activating = some (n,made) → made = n ∧ spawnN made ≠ -1
  | _ => True

/- thr_count() is how many threads there are. -/
def Counts (s : State) : Prop := s.activating = none → s.thrCount = s.live % sizeModulus

section Counting
variable {s s' : State} {a : Act}

theorem invCounts (h : Inv s) : Counts s := by
  intro idle
  have counted := h.counted
  rw [State.made,idle,Option.map_none,Option.getD_none,Nat.add_zero,Nat.mod_eq_of_lt h.small] at counted
  exact counted

/- What each step is taken in, and what it leaves. -/
theorem stepDoes (does : step s a = some s') :
    match a with
    | .activate n append => s.activating = none ∧ n < sizeModulus ∧
        (0 < s.thrCount ∧ append = false ∧ s' = s ∨
          ¬(0 < s.thrCount ∧ append = false) ∧ s' = { s with activating := some (n,0) })
    | .spawned => ∃ n made, s.activating = some (n,made) ∧ made < n ∧
        s' = { s with activating := some (n,made + 1), inSvc := s.inSvc + 1, created := s.created + 1 }
    | .spawnEnds => ∃ n made, s.activating = some (n,made) ∧
        (spawnN made = -1 ∧ s' = { s with activating := none } ∨
          spawnN made ≠ -1 ∧
            s' = { s with activating := none, thrCount := (s.thrCount + n) % sizeModulus, asked := s.asked + n })
    | .svcReturns => 0 < s.inSvc ∧ s' = { s with inSvc := s.inSvc - 1, leaving := s.leaving + 1 }
    | .cleanup => s.activating = none ∧ 0 < s.leaving ∧ s' = { s with
        leaving := s.leaving - 1
        ended := s.ended + 1
        thrCount := (s.thrCount + sizeModulus - 1) % sizeModulus } := by
  cases a with
  | activate n append =>
    simp only [step] at does
    split at does
    · rename_i free
      split at does
      · rename_i enough
        exact ⟨free.1,free.2,.inl ⟨enough.1,enough.2,(Option.some.inj does).symm⟩⟩
      · rename_i more
        exact ⟨free.1,free.2,.inr ⟨more,(Option.some.inj does).symm⟩⟩
    · cases does
  | spawned =>
    simp only [step] at does
    split at does
    · rename_i n made busy
      split at does
      · rename_i more
        exact ⟨n,made,busy,more,(Option.some.inj does).symm⟩
      · cases does
    · cases does
  | spawnEnds =>
    simp only [step] at does
    split at does
    · rename_i n made busy
      refine ⟨n,made,busy,?_⟩
      split at does
      · rename_i unsaid
        exact .inl ⟨unsaid,(Option.some.inj does).symm⟩
      · rename_i told
        exact .inr ⟨told,(Option.some.inj does).symm⟩
    · cases does
  | svcReturns =>
    simp only [step] at does
    split at does
    · rename_i some_
      exact ⟨some_,(Option.some.inj does).symm⟩
    · cases does
  | cleanup =>
    simp only [step] at does
    split at does
    · rename_i free
      exact ⟨free.1,free.2,(Option.some.inj does).symm⟩
    · cases does

theorem stepKeeps (h : Inv s) (full : Full s a) (does : step s a = some s') : Inv s' := by
  have counted := h.counted
  have small := h.small
  unfold State.made State.live at counted
  unfold sizeModulus at counted small
  cases a with
  | activate n append =>
    obtain ⟨idle,few,⟨_,_,rfl⟩ | ⟨_,rfl⟩⟩ := stepDoes does
    · exact h
    · refine ⟨?_,h.small,fun m made same => ?_⟩
      · rw [idle] at counted
        exact counted
      · cases same
        exact ⟨Nat.zero_le _,few⟩
  | spawned =>
    obtain ⟨n,made,busy,more,rfl⟩ := stepDoes does
    rw [busy] at counted
    simp only [Option.map_some,Option.getD_some] at counted
    refine ⟨?_,h.small,fun m made' same => ?_⟩
    · simp only [State.made,State.live,sizeModulus,Option.map_some,Option.getD_some]
      omega
    · cases same
      exact ⟨more,(h.asking n made busy).2⟩
  | spawnEnds =>
    obtain ⟨n,made,busy,ends⟩ := stepDoes does
    obtain ⟨rfl,told⟩ := full n made busy
    obtain ⟨unsaid,_⟩ | ⟨_,rfl⟩ := ends
    · exact absurd unsaid told
    · rw [busy] at counted
      simp only [Option.map_some,Option.getD_some] at counted
      refine ⟨?_,Nat.mod_lt _ (by decide),fun m made' same => by cases same⟩
      simp only [State.made,State.live,sizeModulus,Option.map_none,Option.getD_none]
      omega
  | svcReturns =>
    obtain ⟨some_,rfl⟩ := stepDoes does
    refine ⟨?_,h.small,h.asking⟩
    simp only [State.made,State.live,sizeModulus]
    omega
  | cleanup =>
    obtain ⟨idle,some_,rfl⟩ := stepDoes does
    rw [idle,Option.map_none,Option.getD_none] at counted
    refine ⟨?_,Nat.mod_lt _ (by decide),h.asking⟩
    simp only [State.made,State.live,sizeModulus,idle,Option.map_none,Option.getD_none]
    omega

/- What spawn_n did not create is counted all the same, and what it created is not when it
returns -1. -/
theorem stepBreaks (h : Inv s) (full : ¬Full s a) (does : step s a = some s') : ¬Counts s' := by
  have counted := h.counted
  cases a with
  | spawnEnds =>
    simp only [Full,not_forall,not_and_or,not_ne_iff] at full
    obtain ⟨n,made,busy,short⟩ := full
    obtain ⟨most,few⟩ := h.asking n made busy
    obtain ⟨n',made',busy',ends⟩ := stepDoes does
    cases busy.symm.trans busy'
    rw [State.made,busy] at counted
    simp only [Option.map_some,Option.getD_some] at counted
    have small := h.small
    unfold State.live sizeModulus at *
    intro counts
    obtain ⟨unsaid,rfl⟩ | ⟨told,rfl⟩ := ends
    · have same := counts rfl
      have some_ : made ≠ 0 := by
        rintro rfl
        exact absurd unsaid (by decide)
      simp only [State.live,sizeModulus] at same
      omega
    · have same := counts rfl
      have less := short.resolve_right told
      simp only [State.live,sizeModulus] at same
      omega
  | _ => exact absurd trivial full

end Counting

theorem newInv : Inv .new := ⟨rfl,by decide,fun _ _ same => by cases same⟩

/- thr_count() is the number of the task's threads, whatever the order in which they start
and end, exactly as long as activate gets every thread it asks for: it returns 0 and
counts them all when some are missing. -/
theorem threadsCounted (acts : List Act) : Always step Counts .new acts ↔ Along step Full .new acts :=
  alwaysIffAlong (fun _ _ _ => stepKeeps) (fun _ => invCounts) (fun _ _ _ => stepBreaks) newInv acts

/- What thr_count_ has been given and what the threads took of it. -/
structure Asked (s : State) : Prop where
  count : (s.thrCount + s.ended) % sizeModulus = s.asked % sizeModulus
  small : s.thrCount < sizeModulus
  threads : s.created = s.live + s.ended

section Asking
variable {s s' : State} {a : Act}

theorem askedKeeps (h : Asked s) (does : step s a = some s') : Asked s' := by
  obtain ⟨count,small,threads⟩ := h
  unfold State.live sizeModulus at *
  cases a with
  | activate n append => obtain ⟨_,_,⟨_,_,rfl⟩ | ⟨_,rfl⟩⟩ := stepDoes does <;> exact ⟨count,small,threads⟩
  | spawned =>
    obtain ⟨n,made,_,_,rfl⟩ := stepDoes does
    exact ⟨count,small,by simp only [State.live]; omega⟩
  | spawnEnds =>
    obtain ⟨n,made,_,⟨_,rfl⟩ | ⟨_,rfl⟩⟩ := stepDoes does
    · exact ⟨count,small,threads⟩
    · exact ⟨by simp only [sizeModulus]; omega,Nat.mod_lt _ (by decide),threads⟩
  | svcReturns =>
    obtain ⟨some_,rfl⟩ := stepDoes does
    exact ⟨count,small,by simp only [State.live]; omega⟩
  | cleanup =>
    obtain ⟨_,some_,rfl⟩ := stepDoes does
    exact ⟨by simp only [sizeModulus]; omega,Nat.mod_lt _ (by decide),by simp only [State.live]; omega⟩

theorem askedRun {acts : List Act} (ends : run step .new acts = some s) : Asked s :=
  alwaysAtEnd (alwaysInvariant (fun _ _ _ => askedKeeps) ⟨rfl,by decide,rfl⟩ acts) ends

/- More was counted than created, with no call of activate under way. -/
structure Short (o s : State) : Prop where
  asked : Asked s
  idle : s.activating = none
  same : s.created = o.created ∧ s.asked = o.asked

theorem shortKeeps {o : State} (short : o.created < o.asked) (few : o.asked < sizeModulus) (h : Short o s)
    (plain : ∀ n, a ≠ .activate n true) (does : step s a = some s') : Short o s' := by
  have asked := askedKeeps h.asked does
  have idle := h.idle
  cases a with
  | activate n append =>
    have still : 0 < s.thrCount := by
      obtain ⟨count,small,threads⟩ := h.asked
      obtain ⟨created,total⟩ := h.same
      by_contra none_
      rw [Nat.eq_zero_of_not_pos none_,Nat.zero_add,total,Nat.mod_eq_of_lt few,Nat.mod_eq_of_lt] at count <;> omega
    have plain' : append = false := by
      cases append with
      | false => rfl
      | true => exact absurd rfl (plain n)
    obtain ⟨_,_,⟨_,_,rfl⟩ | ⟨more,_⟩⟩ := stepDoes does
    · exact h
    · exact absurd ⟨still,plain'⟩ more
  | spawned =>
    obtain ⟨_,_,busy,_⟩ := stepDoes does
    exact (nomatch idle.symm.trans busy)
  | spawnEnds =>
    obtain ⟨_,_,busy,_⟩ := stepDoes does
    exact (nomatch idle.symm.trans busy)
  | svcReturns =>
    obtain ⟨_,rfl⟩ := stepDoes does
    exact ⟨asked,idle,h.same⟩
  | cleanup =>
    obtain ⟨_,_,rfl⟩ := stepDoes does
    exact ⟨asked,idle,h.same⟩

end Asking

theorem alongPlain {acts : List Act} (plain : ∀ a ∈ acts, ∀ n, a ≠ .activate n true) {s : State} :
    Along step (fun _ a => ∀ n, a ≠ .activate n true) s acts := by
  induction acts generalizing s with
  | nil => trivial
  | cons a acts ih =>
    exact fun _ _ => ⟨plain a List.mem_cons_self,ih fun b mem => plain b (List.mem_cons_of_mem a mem)⟩

/- Once a thread has not been created, activate without append_thr creates none ever
again, not even when all threads are gone. -/
theorem neverActivatedAgain {before acts : List Act} {s : State} (ends : run step .new before = some s)
    (idle : s.activating = none) (short : s.created < s.asked) (few : s.asked < sizeModulus)
    (plain : ∀ n, .activate n true ∉ acts) : Always step (fun s' => s'.created = s.created) s acts := by
  have kept := alwaysOfInvariant (fun _ _ _ h plain does => shortKeeps short few h plain does)
    (show Short s s from ⟨askedRun ends,idle,rfl,rfl⟩)
    (alongPlain fun a mem n same => plain n (same ▸ mem))
  exact alwaysMono (fun _ h => h.same.1) kept

/- One thread of two is created and ends; the next call finds 1 and creates none. -/
theorem halfActivated : ∃ s, run step .new [.activate 2 false,.spawned,.spawnEnds,.svcReturns,.cleanup] = some s ∧
    Always step (fun s' => s'.created = 1) s [.activate 2 false] :=
  ⟨_,rfl,@neverActivatedAgain [.activate 2 false,.spawned,.spawnEnds,.svcReturns,.cleanup] _ _ rfl rfl (by decide)
    (by decide) fun n mem => by simp at mem⟩

end CuteNdk.TaskThreads
