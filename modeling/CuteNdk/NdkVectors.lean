import CuteNdk.NdkBlocking
import CuteNdk.NdkTransfers
import Mathlib.Algebra.GroupWithZero.Nat
import Mathlib.Data.List.Nodup

/-! sendv_n and recvv_n. After a transfer they go on from the start of a buffer, wherever the
transfer ended: what has been moved is the front of the buffers exactly when all transfers but
the last end where a buffer does. -/
namespace CuteNdk.Ndk
open Os

/- The counts of the transfers that move bytes. -/
def counts : List Result → List Nat
  | [] => []
  | .count (n + 1) :: results => (n + 1) :: counts results
  | _ :: results => counts results

/- The count is that of the first buffers. The next buffer that is not empty has a length that
is positive as an int. -/
def EndsAtBuffer (iov : List Nat) (bytes : Nat) : Prop :=
  ∃ j, (iov.take j).sum = bytes ∧ ∀ iovLen ∈ (iov.drop j).find? (· ≠ 0), 0 < toInt iovLen

/- So do all transfers that another one follows. -/
def EndsAtBuffers (iov : List Nat) (bytes : Nat) : List Nat → Prop
  | [] => True
  | [_] => True
  | c :: counts => EndsAtBuffer iov (bytes + c) ∧ EndsAtBuffers iov (bytes + c) counts

/- The count is no other positive int. -/
def FitsInt (n : Nat) : Prop := 0 < toInt n → toInt n = n

/- What the call has moved is the front of the buffers, and a positive result is its length. -/
def MovesFront (iov : List Nat) (os : Os (Nat × Nat)) (ret : Int) (os' : Os (Nat × Nat)) : Prop :=
  ∃ front, front <+: placesFrom 0 iov ∧ os'.moved = os.moved ++ front ∧ (0 < ret → ret = front.length)

section Places

/- The buffers from iov[s] on are what is left after the first s. -/
theorem placesDrop (iov : List Nat) (t j : Nat) :
    (placesFrom t iov).drop (iov.take j).sum = placesFrom (t + j) (iov.drop j) := by
  induction iov generalizing t j with
  | nil => simp [placesFrom]
  | cons iovLen iov ih =>
    cases j with
    | zero => simp
    | succ j =>
      have size : ((List.range iovLen).map fun i => (t,i)).length = iovLen := by simp
      simp only [List.take_succ_cons,List.sum_cons,List.drop_succ_cons]
      rw [← List.drop_drop,placesFrom]
      conv => lhs; arg 2; arg 1; rw [← size]
      rw [List.drop_left,ih,Nat.add_right_comm,Nat.add_assoc]

theorem placesFromLater {iov : List Nat} {t : Nat} {place : Nat × Nat} (mem : place ∈ placesFrom t iov) : t ≤ place.1 := by
  induction iov generalizing t with
  | nil => cases mem
  | cons iovLen iov ih =>
    rcases List.mem_append.mp mem with here | later
    · obtain ⟨i,_,rfl⟩ := List.mem_map.mp here
      exact Nat.le_refl t
    · exact Nat.le_of_succ_le (ih later)

theorem placesNodup (iov : List Nat) (t : Nat) : (placesFrom t iov).Nodup := by
  induction iov generalizing t with
  | nil => exact List.nodup_nil
  | cons iovLen iov ih =>
    refine List.nodup_append.mpr ⟨?_,ih (t + 1),?_⟩
    · exact List.nodup_range.map fun i j same => (Prod.mk.inj same).2
    · rintro place here other later rfl
      obtain ⟨i,_,rfl⟩ := List.mem_map.mp here
      exact absurd (placesFromLater later) (Nat.not_succ_le_self t)

end Places

section Advance

/- n - iov[s].iov_len, as the loop of advance has it, where the buffer is passed. -/
theorem passedLeaves {iovLen n : Nat} (passed : iovLen ≤ n) (small : n < 0x80000000) :
    ((n : Int) - iovLen).bmod 0x10000000000000000 = ((n - iovLen : Nat) : Int) := by
  rw [← Int.ofNat_sub passed]
  exact Int.bmod_eq_of_le (by omega) (by omega)

theorem advanceBetween (iov : List Nat) (s : Nat) (n : Int) : ∃ j, advance iov s n = s + j := by
  induction iov generalizing s n with
  | nil => exact ⟨0,rfl⟩
  | cons iovLen iov ih =>
    unfold advance
    split
    · obtain ⟨j,same⟩ := ih (s + 1) ((n - iovLen).bmod 0x10000000000000000)
      exact ⟨j + 1,by omega⟩
    · exact ⟨0,rfl⟩

/- Where the count is that of whole buffers, they are passed, and the empty ones after them. -/
theorem advancePasses {iov : List Nat} {s n j : Nat} (small : n < 0x80000000) (whole : (iov.take j).sum = n)
    (next : ∀ iovLen ∈ (iov.drop j).find? (· ≠ 0), 0 < toInt iovLen) :
    ∃ j, advance iov s n = s + j ∧ (iov.take j).sum = n := by
  induction iov generalizing s n j with
  | nil => exact ⟨0,rfl,by simpa using whole⟩
  | cons iovLen iov ih =>
    unfold advance
    cases j with
    | zero =>
      have none' : n = 0 := by simpa using whole.symm
      subst none'
      cases iovLen with
      | zero =>
        obtain ⟨j,same,sum⟩ := ih (s := s + 1) (j := 0) small rfl (by simpa using next)
        refine ⟨j + 1,?_,by simpa using sum⟩
        rw [if_pos (by decide)]
        have left := passedLeaves (Nat.le_refl 0) small
        rw [left,same]
        omega
      | succ iovLen =>
        have positive := next (iovLen + 1) (by simp)
        refine ⟨0,if_neg ?_,rfl⟩
        exact Int.not_le.mpr positive
    | succ j =>
      rw [List.take_succ_cons,List.sum_cons] at whole
      rw [List.drop_succ_cons] at next
      obtain ⟨j',same,sum⟩ := ih (s := s + 1) (n := n - iovLen) (by omega) (by omega) next
      refine ⟨j' + 1,?_,?_⟩
      · rw [if_pos (by rw [toIntSmall (by omega)]; omega),passedLeaves (by omega) small,same]
        omega
      · rw [List.take_succ_cons,List.sum_cons,sum]
        omega

/- Where it stops with nothing left, it stops at a buffer that is not empty. -/
theorem advanceStops {iov : List Nat} {s n j : Nat} (small : n < 0x80000000) (stops : advance iov s n = s + j)
    (whole : (iov.take j).sum = n) : ∀ iovLen ∈ (iov.drop j).find? (· ≠ 0), 0 < toInt iovLen := by
  induction iov generalizing s n j with
  | nil =>
    intro iovLen found
    simp at found
  | cons iovLen iov ih =>
    unfold advance at stops
    split at stops
    case isTrue passed =>
      obtain ⟨j',same⟩ := advanceBetween iov (s + 1) (((n : Int) - iovLen).bmod 0x10000000000000000)
      have next : j = j' + 1 := by omega
      subst next
      rw [List.take_succ_cons,List.sum_cons] at whole
      rw [passedLeaves (by omega) small] at same
      exact ih (s := s + 1) (n := n - iovLen) (by omega) (by omega) (by omega)
    case isFalse stays =>
      have here : j = 0 := by omega
      subst here
      have none' : n = 0 := by simpa using whole.symm
      subst none'
      intro len found
      cases iovLen with
      | zero => exact absurd (by decide) stays
      | succ iovLen =>
        have same : iovLen + 1 = len := by simpa using found
        rw [← same]
        exact Int.not_le.mp stays

theorem startMono (iov : List Nat) {s t : Nat} (before : s ≤ t) : (iov.take s).sum ≤ (iov.take t).sum := by
  obtain ⟨j,rfl⟩ := Nat.exists_eq_add_of_le before
  rw [List.take_add,List.sum_append]
  exact Nat.le_add_right _ _

/- The next offer starts where the transfer ended exactly when a buffer ends there. -/
theorem advanceAligned (iov : List Nat) {s n : Nat} (small : n + 1 < 0x80000000) :
    (iov.take (advance (iov.drop s) s (n + 1 : Nat))).sum = (iov.take s).sum + (n + 1) ↔
      EndsAtBuffer iov ((iov.take s).sum + (n + 1)) := by
  constructor
  · intro aligned
    obtain ⟨j,same⟩ := advanceBetween (iov.drop s) s (n + 1 : Nat)
    have whole : ((iov.drop s).take j).sum = n + 1 := by
      rw [same,List.take_add,List.sum_append] at aligned
      omega
    refine ⟨s + j,by rw [← same]; exact aligned,?_⟩
    rw [← List.drop_drop]
    exact advanceStops small same whole
  · rintro ⟨t,whole,next⟩
    have later : s ≤ t := by
      cases Nat.le_total s t with
      | inl later => exact later
      | inr before =>
        have low := startMono iov before
        omega
    obtain ⟨j,rfl⟩ := Nat.exists_eq_add_of_le later
    rw [List.take_add,List.sum_append] at whole
    rw [← List.drop_drop] at next
    obtain ⟨j',same,sum⟩ := advancePasses (s := s) small (Nat.add_left_cancel whole) next
    rw [same,List.take_add,List.sum_append,sum]

end Advance

section Turns
variable {again : Errno → Bool} {iov : List Nat} {os : Os (Nat × Nat)} {s bytes : Nat} {l : Loop (Nat × Nat)}

theorem buffersAre {places : List (Nat × Nat)} (offered : buffersFrom iov s = some places) :
    places = (placesFrom 0 iov).drop (iov.take s).sum := by
  unfold buffersFrom at offered
  split at offered
  · cases Option.some.inj offered
    rw [placesDrop,Nat.zero_add]
  · cases offered

/- The turns move the front: as many bytes as the counts say, from where the first offer starts. -/
structure MovesOn (iov : List Nat) (os : Os (Nat × Nat)) (s bytes : Nat) (l : Loop (Nat × Nat))
    (front : List (Nat × Nat)) : Prop where
  moved : l.os.moved = os.moved ++ front
  size : front.length = (counts os.results).sum
  total : l.bytes = bytes + front.length
  first : ∀ place ∈ front.head?, (placesFrom 0 iov)[(iov.take s).sum]? = some place

theorem nothingMoved (moved : l.os.moved = os.moved) (none' : counts os.results = []) (total : l.bytes = bytes) :
    MovesOn iov os s bytes l [] := by
  refine ⟨by rw [moved,List.append_nil],?_,total,fun place is => absurd is (Option.not_mem_none place)⟩
  rw [none']
  rfl

theorem turnsFront (turns : Turns again (buffersFrom iov) (fun s n => advance (iov.drop s) s n) os s bytes l)
    (all : l.os.results = []) : ∃ front, MovesOn iov os s bytes l front := by
  induction turns with
  | @done os s bytes _ =>
    have none' : os.results = [] := all
    exact ⟨[],nothingMoved rfl (by rw [none']; rfl) rfl⟩
  | @closed os s bytes places results _ found =>
    have none' : results = [] := all
    exact ⟨[],nothingMoved rfl (by rw [found,none']; rfl) rfl⟩
  | @moves os s bytes places n results l offered found most _ _ ih =>
    obtain ⟨front,on⟩ := ih all
    have taken : (places.take (n + 1)).length = n + 1 := List.length_take_of_le most
    refine ⟨places.take (n + 1) ++ front,?_,?_,?_,?_⟩
    · rw [on.moved,List.append_assoc]
    · rw [found,List.length_append,taken,on.size]
      rfl
    · rw [on.total,List.length_append,taken,Nat.add_assoc]
    · intro place first
      rw [← List.head?_drop,← buffersAre offered]
      cases places with
      | nil => simp at most
      | cons p places => exact first
  | @retries os s bytes places e results selects l _ found _ _ ih =>
    obtain ⟨front,on⟩ := ih all
    exact ⟨front,on.moved,by rw [found]; exact on.size,on.total,on.first⟩
  | @stops os s bytes places e results selects _ found =>
    have none' : results = [] := all
    exact ⟨[],nothingMoved rfl (by rw [found,none']; rfl) rfl⟩

theorem turnsLow (turns : Turns again (buffersFrom iov) (fun s n => advance (iov.drop s) s n) os s bytes l) :
    l.result ≤ 0 := by
  induction turns with
  | done _ => exact Int.le_refl 0
  | closed _ _ => exact Int.le_refl 0
  | moves _ _ _ _ _ ih => exact ih
  | retries _ _ _ _ ih => exact ih
  | stops _ _ => exact Int.negSucc_le_zero 0

theorem countsPositive (results : List Result) : ∀ c ∈ counts results, 0 < c := by
  fun_induction counts results with
  | case1 => exact fun c mem => absurd mem List.not_mem_nil
  | case2 n results ih =>
    intro c mem
    rcases List.mem_cons.mp mem with rfl | later
    · exact Nat.succ_pos n
    · exact ih c later
  | case3 _ results _ ih => exact ih

theorem frontGoesOn {places later : List (Nat × Nat)} {n : Nat} :
    (places.drop bytes).take n ++ later <+: places.drop bytes ↔ later <+: places.drop (bytes + n) := by
  conv => lhs; rhs; rw [← List.take_append_drop n (places.drop bytes)]
  rw [List.prefix_append_right_inj,List.drop_drop]

/- What is moved next is what follows only if it starts there: no place is moved twice. -/
theorem samePlace {front : List (Nat × Nat)} {start : Nat} (follows : front <+: (placesFrom 0 iov).drop bytes)
    (some_ : 0 < front.length) (first : ∀ place ∈ front.head?, (placesFrom 0 iov)[start]? = some place) :
    start = bytes := by
  cases front with
  | nil => cases some_
  | cons place front =>
    obtain ⟨left,same⟩ := follows
    have here := first place rfl
    have there : (placesFrom 0 iov)[bytes]? = some place := by
      rw [← List.head?_drop,← same]
      rfl
    obtain ⟨inside,here⟩ := List.getElem?_eq_some_iff.mp here
    obtain ⟨inside',there⟩ := List.getElem?_eq_some_iff.mp there
    exact ((placesNodup iov 0).getElem_inj_iff).mp (here.trans there.symm)

/- From an offer that starts where the last transfer ended, the turns move what follows exactly
when all transfers but the last end where a buffer does. -/
theorem turnsAligned (turns : Turns again (buffersFrom iov) (fun s n => advance (iov.drop s) s n) os s bytes l)
    (all : l.os.results = []) (aligned : (iov.take s).sum = bytes) {front : List (Nat × Nat)}
    (moved : l.os.moved = os.moved ++ front) :
    front <+: (placesFrom 0 iov).drop bytes ↔ EndsAtBuffers iov bytes (counts os.results) := by
  induction turns generalizing front with
  | @done os s bytes _ =>
    rw [show os.results = [] from all,List.self_eq_append_right.mp moved]
    exact iff_of_true List.nil_prefix trivial
  | @closed os s bytes places results _ found =>
    have none' : results = [] := all
    rw [found,none',List.self_eq_append_right.mp moved]
    exact iff_of_true List.nil_prefix trivial
  | @moves os s bytes places n results l offered found most small turns ih =>
    obtain ⟨later,more,size,_,first⟩ := turnsFront turns all
    have after := ih all
    cases buffersAre offered
    subst aligned
    rw [more,List.append_assoc] at moved
    cases List.append_cancel_left moved
    rw [frontGoesOn,found]
    have next := advanceAligned iov (s := s) (n := n) (Nat.lt_succ_of_le small)
    simp only at size
    cases rest : counts results with
    | nil =>
      rw [rest] at size
      rw [List.eq_nil_of_length_eq_zero size,counts,rest]
      exact iff_of_true List.nil_prefix trivial
    | cons c cs =>
      have positive := countsPositive results c (by simp [rest])
      simp only [counts,rest,EndsAtBuffers]
      rw [← next]
      constructor
      · intro front
        have starts := samePlace front (by rw [size,rest,List.sum_cons]; omega) first
        exact ⟨starts,by rw [← rest]; exact (after starts more).mp front⟩
      · rintro ⟨starts,ends⟩
        exact (after starts more).mpr (by rw [rest]; exact ends)
  | @retries os s bytes places e results selects l _ found _ _ ih =>
    rw [found]
    exact ih all aligned moved
  | @stops os s bytes places e results selects _ found =>
    have none' : results = [] := all
    rw [found,none',List.self_eq_append_right.mp moved]
    exact iff_of_true List.nil_prefix trivial

end Turns

section Calls
variable {iov : List Nat} {timeout : Option TimeValue} {os os' : Os (Nat × Nat)} {ret : Int}

/- What the loop has moved, whatever ret the call makes of it. -/
theorem loopMovesFront (ret : Int) {again : Errno → Bool} {l : Loop (Nat × Nat)}
    (turns : Turns again (buffersFrom iov) (fun s n => advance (iov.drop s) s n) (enter timeout os).2 0 0 l)
    (all : l.os.results = []) (moved : os'.moved = l.os.moved) :
    l.bytes = (counts os.results).sum ∧
      (MovesFront iov os ret os' ↔ EndsAtBuffers iov 0 (counts os.results) ∧ (0 < ret → ret = (counts os.results).sum)) := by
  obtain ⟨front,more,size,bytes,_⟩ := turnsFront turns all
  have ends := turnsAligned turns all rfl more
  obtain ⟨same,results⟩ := enterKeeps timeout os
  rw [results] at size ends
  rw [same] at more
  refine ⟨by omega,?_,?_⟩
  · rintro ⟨front',prefix',moved',rets⟩
    rw [moved,more] at moved'
    cases List.append_cancel_left moved'
    rw [← size]
    exact ⟨ends.mp prefix',rets⟩
  · rintro ⟨ended,rets⟩
    refine ⟨front,ends.mpr ended,moved.trans more,?_⟩
    rw [size]
    exact rets

theorem sendvNFront (did : sendvN iov timeout os = some (ret,os')) (all : os'.results = []) :
    MovesFront iov os ret os' ↔ EndsAtBuffers iov 0 (counts os.results) ∧ FitsInt (counts os.results).sum := by
  obtain ⟨l,turns,rets,rfl⟩ := sendvNTurns did
  obtain ⟨moved,results⟩ := leaveKeeps timeout (enter timeout os).1 l.os
  obtain ⟨bytes,front⟩ := loopMovesFront ret turns (results.symm.trans all) moved
  rw [front,rets,bytes]
  exact Iff.rfl

/- With error the result is not positive. -/
theorem recvvNFront (did : recvvN iov timeout os = some (ret,os')) (all : os'.results = []) :
    MovesFront iov os ret os' ↔ EndsAtBuffers iov 0 (counts os.results) ∧
      ((∃ r ∈ os.results.getLast?, fatal Errno.blocks r = true) ∨ FitsInt (counts os.results).sum) := by
  obtain ⟨l,turns,rets,rfl⟩ := recvvNTurns did
  obtain ⟨moved,results⟩ := leaveKeeps timeout (enter timeout os).1 l.os
  have none' := results.symm.trans all
  obtain ⟨bytes,front⟩ := loopMovesFront ret turns none' moved
  have failed := turnsError turns none'
  rw [(enterKeeps timeout os).2] at failed
  rw [front,← failed]
  refine and_congr_right fun _ => ?_
  cases error : l.error with
  | true =>
    rw [rets,if_pos error]
    exact iff_of_true (fun high => absurd high (Int.not_lt.mpr (turnsLow turns))) (.inl rfl)
  | false =>
    rw [rets,if_neg (Bool.eq_false_iff.mp error),bytes]
    exact ⟨.inr,fun either => either.elim (fun no => by cases no) id⟩

end Calls

theorem vectorTransfersMoveFront (iov : List Nat) (timeout : Option TimeValue) (os : Os (Nat × Nat)) (ret : Int)
    (os' : Os (Nat × Nat)) (all : os'.results = []) :
    (sendvN iov timeout os = some (ret,os') →
      (MovesFront iov os ret os' ↔ EndsAtBuffers iov 0 (counts os.results) ∧ FitsInt (counts os.results).sum)) ∧
    (recvvN iov timeout os = some (ret,os') →
      (MovesFront iov os ret os' ↔ EndsAtBuffers iov 0 (counts os.results) ∧
        ((∃ r ∈ os.results.getLast?, fatal Errno.blocks r = true) ∨ FitsInt (counts os.results).sum))) :=
  ⟨fun did => sendvNFront did all,fun did => recvvNFront did all⟩

/- Two buffers of four bytes, a transfer for each. -/
theorem oneBufferEach : MovesFront [4,4] ⟨3,0,[.count 4,.error .eintr,.count 4],[],[]⟩ 8
    ⟨3,0,[],[],[(0,0),(0,1),(0,2),(0,3),(1,0),(1,1),(1,2),(1,3)]⟩ := by
  have ran : sendvN [4,4] none ⟨3,0,[.count 4,.error .eintr,.count 4],[],[]⟩ =
      some (8,⟨3,0,[],[],[(0,0),(0,1),(0,2),(0,3),(1,0),(1,1),(1,2),(1,3)]⟩) := by decide
  obtain ⟨sends,_⟩ := vectorTransfersMoveFront [4,4] none ⟨3,0,[.count 4,.error .eintr,.count 4],[],[]⟩ 8
    ⟨3,0,[],[],[(0,0),(0,1),(0,2),(0,3),(1,0),(1,1),(1,2),(1,3)]⟩ rfl
  exact (sends ran).mpr ⟨⟨⟨1,rfl,by decide⟩,trivial⟩,fun _ => rfl⟩

/- The first transfer ends inside the second buffer, which is then moved from its start. -/
theorem bytesMovedTwice : ¬ ∀ (iov : List Nat) (timeout : Option TimeValue) (os : Os (Nat × Nat)) (ret : Int)
    (os' : Os (Nat × Nat)), (sendvN iov timeout os = some (ret,os') → MovesFront iov os ret os') ∧
      (recvvN iov timeout os = some (ret,os') → MovesFront iov os ret os') := by
  intro claim
  obtain ⟨front,prefix',_,rets⟩ := (claim [4,4] none ⟨3,0,[.count 6,.count 4],[],[]⟩ 10 _).1 rfl
  have ten : (10 : Int) = front.length := rets (by decide)
  have eight : front.length ≤ 8 := prefix'.length_le
  omega

end CuteNdk.Ndk
