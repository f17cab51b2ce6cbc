import CuteNdk.NdkIo

/-! O_NONBLOCK over the timed calls. A call sets it and is to leave it as it was: six of the
ten do. recv, recvv and recvfrom return from their first try without it, and recv_n from an
error. -/
namespace CuteNdk.Ndk
open Os
open Reactor (bitEnabled)

variable {π σ : Type}

def NonBlock (os : Os π) : Prop := bitEnabled os.flags oNonblock = true

instance (os : Os π) : Decidable (NonBlock os) := by unfold NonBlock; infer_instance

/- In every call that returns after all results of the script, the mode is as it was exactly
when the state at entry is safe. -/
def KeepsMode (call : Os π → Option (Int × Os π)) (safe : Os π → Prop) : Prop :=
  ∀ os ret os', call os = some (ret,os') → os'.results = [] → ((NonBlock os' ↔ NonBlock os) ↔ safe os)

/- The first try would block. -/
def TriesAgain (os : Os π) : Prop := NonBlock os ∨ ∃ e, os.results.head? = some (.error e) ∧ e.blocks = true

/- The last result is no end of the stream and no error but those of a try that would block
or was interrupted. -/
def EndsWithoutError (os : Os π) : Prop := NonBlock os ∨ ∀ r ∈ os.results.getLast?, fatal Errno.blocks r = false

section Modes
variable {os os' : Os π}

theorem setBit (flags : BitVec 32) : bitEnabled (flags ||| oNonblock) oNonblock = true := by
  have same : (flags ||| oNonblock) &&& oNonblock = oNonblock := by
    ext i hi
    simp only [BitVec.getElem_and,BitVec.getElem_or]
    cases flags[i] <;> cases oNonblock[i] <;> rfl
  unfold bitEnabled
  rw [same]
  rfl

theorem clearBit (flags : BitVec 32) : bitEnabled (flags &&& ~~~oNonblock) oNonblock = false := by
  have none' : flags &&& ~~~oNonblock &&& oNonblock = 0#32 := by
    ext i hi
    simp only [BitVec.getElem_and,BitVec.getElem_not,BitVec.getElem_zero]
    cases flags[i] <;> cases oNonblock[i] <;> rfl
  unfold bitEnabled
  rw [none']
  rfl

theorem recordSets (os : Os π) : NonBlock os.recordAndSetNonBlockMode.2 ∧ os.recordAndSetNonBlockMode.1 = os.flags := by
  unfold recordAndSetNonBlockMode NonBlock
  refine ⟨?_,rfl⟩
  split
  · assumption
  · exact setBit os.flags

theorem recordResults (os : Os π) : os.recordAndSetNonBlockMode.2.results = os.results := by
  unfold recordAndSetNonBlockMode
  split <;> rfl

/- What is set in between is cleared if it was not set before. -/
theorem restoreRestores (os : Os π) (set : NonBlock os') : NonBlock (os'.restoreNonBlockMode os.flags) ↔ NonBlock os := by
  unfold restoreNonBlockMode
  split
  · rename_i before
    exact iff_of_true set before
  · rename_i before
    refine iff_of_false ?_ before
    unfold NonBlock
    rw [clearBit]
    exact Bool.noConfusion

end Modes

section Turns
variable {again : Errno → Bool} {offer : σ → Option (List π)} {next : σ → Nat → σ} {os : Os π} {s : σ} {bytes : Nat}
  {l : Loop π}

theorem turnsFlags (turns : Turns again offer next os s bytes l) : l.os.flags = os.flags := by
  induction turns with
  | done _ => rfl
  | closed _ _ => rfl
  | moves _ _ _ _ _ ih => exact ih
  | retries _ _ _ _ ih => exact ih
  | stops _ _ => rfl

theorem lastOfCons {r : Result} {results : List Result} (mild : fatal again r = false) :
    (∃ q ∈ (r :: results).getLast?, fatal again q = true) ↔ ∃ q ∈ results.getLast?, fatal again q = true := by
  cases results with
  | nil =>
    refine iff_of_false (fun ⟨q,is,bad⟩ => ?_) fun ⟨q,is,_⟩ => ?_
    · have same : r = q := Option.some.inj is
      rw [← same,mild] at bad
      cases bad
    · cases is
  | cons q results => rw [List.getLast?_cons_cons]

/- error is set by the last of the results, where all are used. -/
theorem turnsError (turns : Turns again offer next os s bytes l) (all : l.os.results = []) :
    l.error = true ↔ ∃ r ∈ os.results.getLast?, fatal again r = true := by
  induction turns with
  | @done os s bytes _ =>
    refine iff_of_false Bool.false_ne_true fun ⟨r,is,_⟩ => ?_
    rw [show os.results = [] from all] at is
    cases is
  | @closed os s bytes places results _ found =>
    have none' : results = [] := all
    rw [found,none']
    exact iff_of_true rfl ⟨_,rfl,rfl⟩
  | moves _ found _ _ _ ih =>
    rw [found,lastOfCons rfl]
    exact ih all
  | retries _ found mild _ ih =>
    rw [found,lastOfCons mild]
    exact ih all
  | @stops os s bytes places e results selects _ found =>
    have none' : results = [] := all
    rw [found,none']
    refine ⟨fun bad => ⟨_,rfl,bad⟩,fun ⟨r,is,bad⟩ => ?_⟩
    have same : .error e = r := Option.some.inj is
    rw [same]
    exact bad

end Turns

section Tries
variable {os os' : Os π} {places : List π} {ret : Int}

theorem transferFlags {r : Result} (did : os.transfer places = some (r,os')) :
    os'.flags = os.flags ∧ os.results.head? = some r := by
  obtain ⟨e,results,rfl,found,rfl⟩ | ⟨n,results,rfl,found,_,_,rfl⟩ := transferTakes did
  · exact ⟨rfl,congrArg List.head? found⟩
  · exact ⟨rfl,congrArg List.head? found⟩

theorem tryAgainFlags {ready : Os π → Option (Int × Os π)} (waits : Waits ready)
    (did : tryAgain ready places os = some (ret,os')) : os'.flags = os.flags := by
  obtain ⟨⟨answer,os₁⟩,waited,did⟩ := Option.bind_eq_some_iff.mp did
  obtain ⟨selects,rfl⟩ := waits os answer os₁ waited
  simp only at did
  split at did
  · obtain ⟨⟨r,os₂⟩,took,same⟩ := Option.map_eq_some_iff.mp did
    cases same
    exact (transferFlags took).1
  · cases Option.some.inj did
    rfl

theorem nonBlockOf (same : os'.flags = os.flags) (set : NonBlock os) : NonBlock os' := by
  unfold NonBlock
  rw [same]
  exact set

/- recv, recvv and recvfrom. -/
theorem receivesKeep (places : List π) (timeout : TimeValue) :
    KeepsMode (tryReceive places (some timeout)) TriesAgain := by
  intro os ret os' did _
  obtain ⟨set,flag⟩ := recordSets os
  have same := recordResults os
  simp only [tryReceive] at did
  obtain ⟨⟨r,os₁⟩,took,did⟩ := Option.bind_eq_some_iff.mp did
  obtain ⟨flags,first⟩ := transferFlags took
  rw [same] at first
  -- the first try returns: the mode is the one that was set
  have stays : (∀ e, r = .error e → e.blocks = false) → NonBlock os' → ((NonBlock os' ↔ NonBlock os) ↔ TriesAgain os) := by
    intro final left
    refine ⟨fun both => .inl (both.mp left),fun safe => ⟨fun _ => ?_,fun _ => left⟩⟩
    rcases safe with before | ⟨e,is,blocks⟩
    · exact before
    · rw [final e (Option.some.inj (first.symm.trans is))] at blocks
      cases blocks
  cases r with
  | count n =>
    cases Option.some.inj did
    exact stays (fun e is => by cases is) (nonBlockOf flags set)
  | error e =>
    simp only at did
    split at did
    case isFalse final =>
      cases Option.some.inj did
      refine stays (fun e' is => ?_) (nonBlockOf flags set)
      cases is
      exact Bool.eq_false_iff.mpr final
    case isTrue blocks =>
      obtain ⟨⟨answer,os₂⟩,waited,done⟩ := Option.map_eq_some_iff.mp did
      cases done
      have left : os₂.flags = os₁.flags := by
        split at waited
        · exact tryAgainFlags handleReadyWaits waited
        · cases Option.some.inj waited
          rfl
      rw [flag]
      exact iff_of_true (restoreRestores os (nonBlockOf (left.trans flags) set)) (.inr ⟨e,first,blocks⟩)

/- send, sendv and sendto. -/
theorem sendsKeep (places : List π) (timeout : TimeValue) :
    KeepsMode (trySend handleReady places (some timeout)) fun _ => True := by
  intro os ret os' did _
  obtain ⟨set,flag⟩ := recordSets os
  simp only [trySend] at did
  obtain ⟨⟨r,os₁⟩,took,did⟩ := Option.bind_eq_some_iff.mp did
  obtain ⟨flags,_⟩ := transferFlags took
  obtain ⟨⟨answer,os₂⟩,second,done⟩ := Option.map_eq_some_iff.mp did
  cases done
  have left : os₂.flags = os₁.flags := by
    cases r with
    | count n =>
      cases Option.some.inj second
      rfl
    | error e =>
      simp only at second
      split at second
      · exact tryAgainFlags handleReadyWaits second
      · cases Option.some.inj second
        rfl
  rw [flag]
  exact iff_of_true (restoreRestores os (nonBlockOf (left.trans flags) set)) trivial

end Tries

section Full
variable {os os' : Os π} {timeout : TimeValue}

theorem enterSets (timeout : TimeValue) (os : Os π) : NonBlock (enter (some timeout) os).2 ∧
    (enter (some timeout) os).1 = os.flags ∧ (enter (some timeout) os).2.results = os.results :=
  ⟨(recordSets os).1,rfl,(enterKeeps _ os).2⟩

/- Whatever the loop does, its turns leave the mode to be restored. -/
theorem leaveRestores {again : Errno → Bool} {offer : σ → Option (List π)} {next : σ → Nat → σ} {s : σ} {bytes : Nat}
    {l : Loop π} (turns : Turns again offer next (enter (some timeout) os).2 s bytes l) :
    NonBlock l.os ∧ (NonBlock (leave (some timeout) (enter (some timeout) os).1 l.os) ↔ NonBlock os) := by
  obtain ⟨set,flag,_⟩ := enterSets timeout os
  have left := nonBlockOf (turnsFlags turns) set
  rw [flag]
  exact ⟨left,restoreRestores os left⟩

theorem recvNKeeps (len : Nat) (timeout : TimeValue) : KeepsMode (recvN len (some timeout)) EndsWithoutError := by
  intro os ret os' did all
  obtain ⟨_,_,results⟩ := enterSets timeout os
  obtain ⟨l,turns,failed,fine⟩ := recvNTurns did
  obtain ⟨left,restored⟩ := leaveRestores turns
  cases error : l.error with
  | true =>
    obtain ⟨_,rfl⟩ := failed error
    obtain ⟨r,is,bad⟩ := (turnsError turns all).mp error
    rw [results] at is
    refine ⟨fun both => .inl (both.mp left),fun safe => ⟨fun _ => ?_,fun _ => left⟩⟩
    rcases safe with before | mild
    · exact before
    · rw [mild r is] at bad
      cases bad
  | false =>
    obtain ⟨_,rfl⟩ := fine error
    have none' : l.os.results = [] := (leaveKeeps _ _ l.os).2.symm.trans all
    refine iff_of_true restored (.inr fun r is => Bool.eq_false_iff.mpr fun bad => ?_)
    rw [← results] at is
    have failed' := (turnsError turns none').mpr ⟨r,is,bad⟩
    rw [error] at failed'
    cases failed'

theorem recvvNKeeps (iov : List Nat) (timeout : TimeValue) :
    KeepsMode (recvvN iov (some timeout)) fun _ => True := by
  intro os ret os' did _
  obtain ⟨l,turns,_,rfl⟩ := recvvNTurns did
  exact iff_of_true (leaveRestores turns).2 trivial

theorem sendNKeeps (len : Nat) (timeout : TimeValue) : KeepsMode (sendN len (some timeout)) fun _ => True := by
  intro os ret os' did _
  obtain ⟨l,turns,_,rfl⟩ := sendNTurns did
  exact iff_of_true (leaveRestores turns).2 trivial

theorem sendvNKeeps (iov : List Nat) (timeout : TimeValue) :
    KeepsMode (sendvN iov (some timeout)) fun _ => True := by
  intro os ret os' did _
  obtain ⟨l,turns,_,rfl⟩ := sendvNTurns did
  exact iff_of_true (leaveRestores turns).2 trivial

end Full

theorem timedCallsKeepMode (timeout : TimeValue) (len : Nat) (iov : List Nat) :
    KeepsMode (recv len (some timeout)) TriesAgain ∧ KeepsMode (recvN len (some timeout)) EndsWithoutError ∧
    KeepsMode (recvv iov (some timeout)) TriesAgain ∧ KeepsMode (recvvN iov (some timeout)) (fun _ => True) ∧
    KeepsMode (recvfrom len (some timeout)) TriesAgain ∧ KeepsMode (send len (some timeout)) (fun _ => True) ∧
    KeepsMode (sendN len (some timeout)) (fun _ => True) ∧ KeepsMode (sendv iov (some timeout)) (fun _ => True) ∧
    KeepsMode (sendvN iov (some timeout)) (fun _ => True) ∧ KeepsMode (sendto len (some timeout)) (fun _ => True) :=
  ⟨receivesKeep _ timeout,recvNKeeps len timeout,receivesKeep _ timeout,recvvNKeeps iov timeout,receivesKeep _ timeout,
    sendsKeep _ timeout,sendNKeeps len timeout,sendsKeep _ timeout,sendvNKeeps iov timeout,sendsKeep _ timeout⟩

/- Data is there at once on a blocking descriptor. -/
theorem firstTryLeavesNonBlock : ¬ ∀ (len : Nat) (timeout : TimeValue) (os : Os Nat) (ret : Int) (os' : Os Nat),
    recv len (some timeout) os = some (ret,os') → (NonBlock os' ↔ NonBlock os) := by
  intro claim
  have both := claim 4 (TimeValue.set 1 0) ⟨3,0,[.count 3],[],[]⟩ _ _ rfl
  exact absurd (both.mp (by decide)) (by decide)

end CuteNdk.Ndk
