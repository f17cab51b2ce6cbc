import CuteNdk.NdkIo

/-! send_n, recv_n, read_n and write_n: whatever the system answers, what has been moved is the
front of the buffer, and a positive result is its length. -/
namespace CuteNdk.Ndk
open Os

section Ints

theorem toIntSmall {n : Nat} (small : n < 0x80000000) : toInt n = n := by
  unfold toInt
  exact Int.bmod_eq_of_le (by omega) (by omega)

end Ints

section Turns
variable {again : Errno → Bool} {len bytes : Nat} {os : Os Nat} {l : Loop Nat}

/- The bytes moved are those from bytes on, and the loop ends without error only when
nothing is left or a try has to wait. -/
structure Moves (len bytes : Nat) (os : Os Nat) (l : Loop Nat) : Prop where
  forward : bytes ≤ l.bytes
  inside : l.bytes ≤ len
  moved : l.os.moved = os.moved ++ List.range' bytes (l.bytes - bytes)
  result : l.result ≤ 0
  error : l.error = true → l.bytes < len

theorem restOfRange (len bytes : Nat) : (List.range len).drop bytes = List.range' bytes (len - bytes) := by
  rw [List.range_eq_range',List.drop_range']
  simp

/- The places of a transfer of n bytes and those moved after it, up to k. -/
theorem movedJoined {w n k : Nat} (most : n ≤ w) (forward : bytes + n ≤ k) :
    (List.range' bytes w).take n ++ List.range' (bytes + n) (k - (bytes + n)) = List.range' bytes (k - bytes) := by
  rw [List.take_range'_of_length_ge most,List.range'_append_1]
  congr 1
  omega

theorem restSome {places : List Nat} (offered : rest (List.range len) bytes = some places) :
    bytes < len ∧ places = List.range' bytes (len - bytes) := by
  unfold rest at offered
  split at offered
  · rename_i inside
    rw [List.length_range] at inside
    cases Option.some.inj offered
    exact ⟨inside,restOfRange len bytes⟩
  · cases offered

theorem movesNothing (inside : bytes ≤ len) {error : Bool} {result : Int} {os' : Os Nat} (kept : os'.moved = os.moved)
    (low : result ≤ 0) (left : error = true → bytes < len) : Moves len bytes os ⟨error,result,bytes,os'⟩ := by
  refine ⟨Nat.le_refl _,inside,?_,low,left⟩
  rw [Nat.sub_self]
  simp [kept]

theorem turnsMove {s : Nat} (turns : Turns again (rest (List.range len)) (fun bytes n => bytes + n) os s bytes l)
    (same : s = bytes) (inside : bytes ≤ len) : Moves len bytes os l := by
  induction turns with
  | done _ => exact movesNothing inside rfl (Int.le_refl 0) (fun failed => by cases failed)
  | closed offered _ =>
    subst same
    exact movesNothing inside rfl (Int.le_refl 0) fun _ => (restSome offered).1
  | @moves os s bytes places n results l offered _ most _ _ ih =>
    subst same
    obtain ⟨_,rfl⟩ := restSome offered
    rw [List.length_range'] at most
    have m := ih rfl (by omega)
    refine ⟨by have := m.forward; omega,m.inside,?_,m.result,m.error⟩
    have forward := m.forward
    rw [m.moved,List.append_assoc,movedJoined most forward]
  | retries _ _ _ _ ih =>
    have m := ih same inside
    exact ⟨m.forward,m.inside,m.moved,m.result,m.error⟩
  | stops offered _ =>
    subst same
    exact movesNothing inside rfl (by decide) fun _ => (restSome offered).1

end Turns

section Calls
variable {len : Nat} {os os' : Os Nat} {timeout : Option TimeValue}

/- In every call that returns, the first k bytes of the buffer have been moved in order, a positive
result is k and len is the result when all are. -/
def Accounts (len : Nat) (call : Os Nat → Option (Int × Os Nat)) : Prop :=
  ∀ os ret os', call os = some (ret,os') → ∃ k ≤ len, os'.moved = os.moved ++ List.range k ∧
    (0 < ret → ret = k) ∧ (ret = len ↔ k = len)

/- What the loop has moved, with the result both calls make of it. -/
theorem loopAccounts {l : Loop Nat} {ret : Int} (small : len < 0x80000000) (positive : 0 < len)
    (m : Moves len 0 (enter timeout os).2 l) (moved : os'.moved = l.os.moved)
    (failed : l.error = true → ret = l.result) (fine : l.error = false → ret = toInt l.bytes) :
    ∃ k ≤ len, os'.moved = os.moved ++ List.range k ∧ (0 < ret → ret = k) ∧ (ret = len ↔ k = len) := by
  have inside := m.inside
  refine ⟨l.bytes,inside,?_,?_⟩
  · rw [moved,m.moved,(enterKeeps timeout os).1,List.range_eq_range']
    rfl
  · cases error : l.error with
    | true =>
      have low := m.result
      have left := m.error error
      rw [failed error]
      exact ⟨fun high => by omega,fun same => by omega,fun same => by omega⟩
    | false =>
      rw [fine error,toIntSmall (by omega)]
      exact ⟨fun _ => rfl,fun same => by omega,fun same => by omega⟩

theorem sendNAccounts (positive : 0 < len) (small : len < 0x80000000) (timeout : Option TimeValue) :
    Accounts len (sendN len timeout) := by
  intro os ret os' did
  obtain ⟨l,turns,rets,rfl⟩ := sendNTurns did
  have m := turnsMove turns rfl (Nat.zero_le len)
  refine loopAccounts small positive m (leaveKeeps _ _ _).1 (fun failed => ?_) fun fine => ?_
  · rw [rets,if_pos failed]
  · rw [rets,if_neg (Bool.eq_false_iff.mp fine)]

theorem recvNAccounts (positive : 0 < len) (small : len < 0x80000000) (timeout : Option TimeValue) :
    Accounts len (recvN len timeout) := by
  intro os ret os' did
  obtain ⟨l,turns,failed,fine⟩ := recvNTurns did
  have m := turnsMove turns rfl (Nat.zero_le len)
  have moved : os'.moved = l.os.moved := by
    cases error : l.error with
    | true => rw [(failed error).2]
    | false =>
      rw [(fine error).2]
      exact (leaveKeeps _ _ _).1
  exact loopAccounts small positive m moved (fun e => (failed e).1) fun e => (fine e).1

theorem plainMoves (small : len < 0x80000000) {fuel bytes : Nat} {ret : Int} (inside : bytes ≤ len)
    (did : plainLoop (List.range len) fuel os bytes = some (ret,os')) :
    ∃ k, bytes ≤ k ∧ k ≤ len ∧ os'.moved = os.moved ++ List.range' bytes (k - bytes) ∧
      (ret ≤ 0 ∧ k < len ∨ ret = len ∧ k = len) := by
  induction fuel generalizing os bytes with
  | zero => cases did
  | succ fuel ih =>
    unfold plainLoop at did
    split at did
    case isFalse ends =>
      rw [List.length_range] at ends
      obtain ⟨rets,left⟩ := Prod.mk.inj (Option.some.inj did)
      refine ⟨bytes,Nat.le_refl _,inside,?_,.inr ⟨?_,by omega⟩⟩
      · rw [Nat.sub_self]
        simp [left]
      · rw [← rets,toIntSmall (by omega)]
        omega
    case isTrue more =>
      rw [List.length_range] at more
      -- a transfer that moves nothing returns with bytes short of len
      have stays {r : Int} (low : r ≤ 0) :
          ∃ k, bytes ≤ k ∧ k ≤ len ∧ os.moved = os.moved ++ List.range' bytes (k - bytes) ∧
            (r ≤ 0 ∧ k < len ∨ r = len ∧ k = len) := by
        refine ⟨bytes,Nat.le_refl _,inside,?_,.inl ⟨low,more⟩⟩
        rw [Nat.sub_self]
        simp
      obtain ⟨⟨r,os₁⟩,took,did⟩ := Option.bind_eq_some_iff.mp did
      obtain ⟨e,results,rfl,_,rfl⟩ | ⟨n,results,rfl,_,most,_,rfl⟩ := transferTakes took
      · cases Option.some.inj did
        exact stays (by decide)
      · cases n with
        | zero =>
          cases Option.some.inj did
          simp only [List.take_zero,List.append_nil]
          exact stays (Int.le_refl 0)
        | succ n =>
          rw [List.length_drop,List.length_range] at most
          obtain ⟨k,forward,inside',moved,ends⟩ := ih (by omega) did
          refine ⟨k,by omega,inside',?_,ends⟩
          rw [moved,restOfRange,List.append_assoc,movedJoined most forward]

theorem readNAccounts (positive : 0 < len) (small : len < 0x80000000) : Accounts len (readN len) := by
  intro os ret os' did
  obtain ⟨k,_,inside,moved,ends⟩ := plainMoves small (Nat.zero_le len) did
  refine ⟨k,inside,?_,?_⟩
  · rw [moved,List.range_eq_range']
    rfl
  · obtain ⟨low,short⟩ | ⟨rfl,rfl⟩ := ends
    · exact ⟨fun high => by omega,fun same => by omega,fun same => by omega⟩
    · exact ⟨fun _ => rfl,fun _ => rfl,fun _ => rfl⟩

theorem writeNAccounts (positive : 0 < len) (small : len < 0x80000000) : Accounts len (writeN len) := by
  intro os ret os' did
  unfold writeN at did
  split at did
  · cases Option.some.inj did
    refine ⟨0,Nat.zero_le _,?_,fun high => by omega,fun same => by omega,fun same => by omega⟩
    simp
  · exact readNAccounts positive small os ret os' did

end Calls

theorem fullTransfersAccount (len : Nat) (positive : 0 < len) (small : len < 0x80000000) (timeout : Option TimeValue) :
    Accounts len (sendN len timeout) ∧ Accounts len (recvN len timeout) ∧ Accounts len (readN len) ∧
    Accounts len (writeN len) :=
  ⟨sendNAccounts positive small timeout,recvNAccounts positive small timeout,readNAccounts positive small,
    writeNAccounts positive small⟩

/- Five bytes in three transfers, with a signal and a wait between them. -/
theorem fiveBytes :
    sendN 5 (some (TimeValue.set 1 0))
      ⟨3,0,[.count 2,.error .eintr,.count 1,.error .eagain,.count 2],[.count 1],[]⟩ = some (5,⟨3,0,[],[],[0,1,2,3,4]⟩) ∧
    ∃ k ≤ 5, [0,1,2,3,4] = [] ++ List.range k ∧ ((0 : Int) < 5 → (5 : Int) = k) ∧ ((5 : Int) = (5 : Nat) ↔ k = 5) := by
  have ran : sendN 5 (some (TimeValue.set 1 0))
      ⟨3,0,[.count 2,.error .eintr,.count 1,.error .eagain,.count 2],[.count 1],[]⟩ =
        some (5,⟨3,0,[],[],[0,1,2,3,4]⟩) := by decide
  obtain ⟨sends,_⟩ := fullTransfersAccount 5 (by decide) (by decide) (some (TimeValue.set 1 0))
  exact ⟨ran,sends _ _ _ ran⟩

end CuteNdk.Ndk
