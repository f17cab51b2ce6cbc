import CuteNdk.TimeValue
import CuteNdk.HandlerRepository
import Mathlib.Data.Int.DivMod

/-! ndk.cpp: transfers on a descriptor. What the system answers is a script: the results of the
transfers and of the selects to come. A result of none is a call that does not return within
the script, a result that no kernel gives or a violated assertion. -/
namespace CuteNdk.Ndk
open Reactor (bitEnabled)

inductive Errno where
  | eagain
  | ewouldblock
  | eintr
  | enobufs
  | other (code : Nat)
  deriving DecidableEq, Repr

/- What a system call returns: a count, or -1 and errno. -/
inductive Result where
  | count (n : Nat)
  | error (e : Errno)
  deriving DecidableEq, Repr

def Result.ret : Result → Int
  | count n => n
  | error _ => -1

/- A size_t in an int. -/
def toInt (n : Nat) : Int := (n : Int).bmod 0x100000000

/- EAGAIN and EWOULDBLOCK, and what the sends also take for them. -/
def Errno.blocks (e : Errno) : Bool := e = .eagain || e = .ewouldblock

def Errno.blocksSend (e : Errno) : Bool := e.blocks || e = .enobufs

def oNonblock : BitVec 32 := 0x800

/- flags are those of the descriptor. moved are the places of the bytes the transfers have
moved so far, in order: those a send has read and a receive has written. -/
structure Os (π : Type) where
  handle : Int
  flags : BitVec 32
  results : List Result
  selects : List Result
  moved : List π
  deriving DecidableEq, Repr

namespace Os
variable {π : Type}

/- A call moves no more bytes than an int holds: Linux stops at 0x7ffff000. -/
def maxRwCount : Nat := 0x7fffffff

/- One recv, readv, recvfrom, read, send, writev, sendto or write that is offered the places. -/
def transfer (os : Os π) (places : List π) : Option (Result × Os π) :=
  match os.results with
  | [] => none
  | .error e :: rest => some (.error e,{ os with results := rest })
  | .count n :: rest =>
    if n ≤ places.length ∧ n ≤ maxRwCount then
      some (.count n,{ os with results := rest, moved := os.moved ++ places.take n })
    else none

/- The loop of handle_ready around select. -/
def selectUntil : List Result → Option (Int × List Result)
  | [] => none
  | .error .eintr :: rest => selectUntil rest
  | r :: rest => some (r.ret,rest)

def handleReady (os : Os π) : Option (Int × Os π) :=
  if os.handle < 1024 then (selectUntil os.selects).map fun (ret,rest) => (ret,{ os with selects := rest })
  else none

/- The two differ in the set that select is given. -/
def handleReadReady (os : Os π) : Option (Int × Os π) := os.handleReady

def handleWriteReady (os : Os π) : Option (Int × Os π) := os.handleReady

/- The flags before, and the descriptor in nonblock mode. fcntl succeeds. -/
def recordAndSetNonBlockMode (os : Os π) : BitVec 32 × Os π :=
  (os.flags,if bitEnabled os.flags oNonblock then os else { os with flags := os.flags ||| oNonblock })

def restoreNonBlockMode (os : Os π) (flag : BitVec 32) : Os π :=
  if bitEnabled flag oNonblock then os else { os with flags := flag &&& ~~~oNonblock }

/- do ret = ..; while (ret == -1 && errno == EINTR); each turn takes a result. -/
def retry (places : List π) : Nat → Os π → Option (Int × Os π)
  | 0, _ => none
  | fuel + 1, os =>
    (os.transfer places).bind fun (r,os) => if r = .error .eintr then retry places fuel os else some (r.ret,os)

/- The second try, when the descriptor is ready. -/
def tryAgain (ready : Os π → Option (Int × Os π)) (places : List π) (os : Os π) : Option (Int × Os π) :=
  (ready os).bind fun (ret,os) =>
    if 0 < ret then (os.transfer places).map fun (r,os) => (r.ret,os) else some (-1,os)

/- recv, recvv and recvfrom: the first try returns before the mode is restored, unless it
would block. -/
def tryReceive (places : List π) (timeout : Option TimeValue) (os : Os π) : Option (Int × Os π) :=
  match timeout with
  | none => retry places (os.results.length + 1) os
  | some timeout =>
    let (flag,os) := os.recordAndSetNonBlockMode
    (os.transfer places).bind fun
      | (.error e,os) =>
        if e.blocks then
          (if TimeValue.zero < timeout then tryAgain handleReadReady places os else some (-1,os)).map
            fun (ret,os) => (ret,restoreNonBlockMode os flag)
        else some (-1,os)
      | (.count n,os) => some (n,os)

/- send, sendv and sendto. -/
def trySend (ready : Os π → Option (Int × Os π)) (places : List π) (timeout : Option TimeValue) (os : Os π) :
    Option (Int × Os π) :=
  match timeout with
  | none => retry places (os.results.length + 1) os
  | some timeout =>
    let (flag,os) := os.recordAndSetNonBlockMode
    (os.transfer places).bind fun (r,os) =>
      (match r with
        | .error e => if e.blocksSend ∧ TimeValue.zero < timeout then tryAgain ready places os else some (-1,os)
        | .count n => some ((n : Int),os)).map fun (ret,os) => (ret,restoreNonBlockMode os flag)

/- What a loop that transfers all does after -1: it goes on, or stops with error or without. -/
def afterError (again : Errno → Bool) (wait : Os π → Option (Int × Os π)) (os : Os π) (e : Errno) :
    Option (Option Bool × Os π) :=
  if again e then (wait os).map fun (ret,os) => (if 0 < ret then none else some false,os)
  else if e = .eintr then some (none,os)
  else some (some true,os)

/- error, result and the count of bytes where the loop ends. -/
structure Loop (π : Type) where
  error : Bool
  result : Int
  bytes : Nat
  os : Os π
  deriving DecidableEq, Repr

/- The loop of recv_n, recvv_n, send_n and sendv_n. It ends where there is nothing to offer,
and goes on from next after a count. Each turn takes a result: one more turn than there are
results is enough. -/
def loop {σ : Type} (again : Errno → Bool) (wait : Os π → Option (Int × Os π)) (offer : σ → Option (List π))
    (next : σ → Nat → σ) : Nat → Os π → σ → Nat → Option (Loop π)
  | 0, _, _, _ => none
  | fuel + 1, os, s, bytes =>
    match offer s with
    | none => some ⟨false,0,bytes,os⟩
    | some places =>
      (os.transfer places).bind fun
        | (.count 0,os) => some ⟨true,0,bytes,os⟩
        | (.count (n + 1),os) => loop again wait offer next fuel os (next s (n + 1)) (bytes + (n + 1))
        | (.error e,os) => (afterError again wait os e).bind fun
          | (none,os) => loop again wait offer next fuel os s bytes
          | (some error,os) => some ⟨error,-1,bytes,os⟩

/- What is left of a buffer after the bytes that have been moved. -/
def rest (places : List π) (bytes : Nat) : Option (List π) :=
  if bytes < places.length then some (places.drop bytes) else none

/- The loop of recv_n and send_n. -/
def transferLoop (again : Errno → Bool) (wait : Os π → Option (Int × Os π)) (places : List π) (os : Os π) :
    Option (Loop π) :=
  loop again wait (rest places) (fun bytes n => bytes + n) (os.results.length + 1) os 0 0

/- recv_n and recvv_n do not wait when the timeout is zero. -/
def receiveWait (timeout : Option TimeValue) (os : Os π) : Option (Int × Os π) :=
  if timeout.all fun timeout => TimeValue.zero < timeout then os.handleReadReady else some (0,os)

/- With a timeout the mode is recorded and set. -/
def enter (timeout : Option TimeValue) (os : Os π) : BitVec 32 × Os π :=
  if timeout.isSome then os.recordAndSetNonBlockMode else (0,os)

def leave (timeout : Option TimeValue) (flag : BitVec 32) (os : Os π) : Os π :=
  if timeout.isSome then os.restoreNonBlockMode flag else os

/- The places of the buffers from iov[s] on: byte i of buffer s is (s,i). -/
def placesFrom : Nat → List Nat → List (Nat × Nat)
  | _, [] => []
  | s, iovLen :: rest => (List.range iovLen).map (fun i => (s,i)) ++ placesFrom (s + 1) rest

/- for (; s < count && n >= static_cast<int>(iov[s].iov_len); ++s) n -= iov[s].iov_len; -/
def advance : List Nat → Nat → Int → Nat
  | [], s, _ => s
  | iovLen :: rest, s, n => if toInt iovLen ≤ n then advance rest (s + 1) ((n - iovLen).bmod 0x10000000000000000) else s

/- What writev and readv are given: the buffers from iov[s] on, s and all. -/
def buffersFrom (iov : List Nat) (s : Nat) : Option (List (Nat × Nat)) :=
  if s < iov.length then some (placesFrom s (iov.drop s)) else none

/- The loop of recvv_n and sendv_n without IOVEC_SECURITY_IO: iov is only read. -/
def vectorLoop (again : Errno → Bool) (wait : Os (Nat × Nat) → Option (Int × Os (Nat × Nat))) (iov : List Nat)
    (os : Os (Nat × Nat)) : Option (Loop (Nat × Nat)) :=
  loop again wait (buffersFrom iov) (fun s n => advance (iov.drop s) s n) (os.results.length + 1) os 0 0

/- The loop of read_n and write_n. -/
def plainLoop (places : List π) : Nat → Os π → Nat → Option (Int × Os π)
  | 0, _, _ => none
  | fuel + 1, os, bytes =>
    if bytes < places.length then
      (os.transfer (places.drop bytes)).bind fun
        | (.count 0,os) => some (0,os)
        | (.count (n + 1),os) => plainLoop places fuel os (bytes + (n + 1))
        | (.error _,os) => some (-1,os)
    else some (toInt bytes,os)

end Os

open Os

/- The bytes of buff are the places 0 to len. -/
def recv (len : Nat) (timeout : Option TimeValue) (os : Os Nat) : Option (Int × Os Nat) :=
  tryReceive (List.range len) timeout os

def recvN (len : Nat) (timeout : Option TimeValue) (os : Os Nat) : Option (Int × Os Nat) :=
  let (flag,os) := enter timeout os
  (transferLoop Errno.blocks (receiveWait timeout) (List.range len) os).map fun l =>
    if l.error then (l.result,l.os) else (toInt l.bytes,leave timeout flag l.os)

def recvv (iov : List Nat) (timeout : Option TimeValue) (os : Os (Nat × Nat)) : Option (Int × Os (Nat × Nat)) :=
  tryReceive (placesFrom 0 iov) timeout os

def recvvN (iov : List Nat) (timeout : Option TimeValue) (os : Os (Nat × Nat)) : Option (Int × Os (Nat × Nat)) :=
  let (flag,os) := enter timeout os
  (vectorLoop Errno.blocks (receiveWait timeout) iov os).map fun l =>
    (if l.error then l.result else toInt l.bytes,leave timeout flag l.os)

def recvfrom (len : Nat) (timeout : Option TimeValue) (os : Os Nat) : Option (Int × Os Nat) :=
  tryReceive (List.range len) timeout os

/- It waits until the descriptor can be read. -/
def send (len : Nat) (timeout : Option TimeValue) (os : Os Nat) : Option (Int × Os Nat) :=
  trySend handleReadReady (List.range len) timeout os

def sendN (len : Nat) (timeout : Option TimeValue) (os : Os Nat) : Option (Int × Os Nat) :=
  let (flag,os) := enter timeout os
  (transferLoop Errno.blocksSend handleWriteReady (List.range len) os).map fun l =>
    (if l.error then l.result else toInt l.bytes,leave timeout flag l.os)

def sendv (iov : List Nat) (timeout : Option TimeValue) (os : Os (Nat × Nat)) : Option (Int × Os (Nat × Nat)) :=
  trySend handleWriteReady (placesFrom 0 iov) timeout os

/- error is not looked at. -/
def sendvN (iov : List Nat) (timeout : Option TimeValue) (os : Os (Nat × Nat)) : Option (Int × Os (Nat × Nat)) :=
  let (flag,os) := enter timeout os
  (vectorLoop Errno.blocksSend handleWriteReady iov os).map fun l =>
    (toInt l.bytes,leave timeout flag l.os)

/- It waits until the descriptor can be read. -/
def sendto (len : Nat) (timeout : Option TimeValue) (os : Os Nat) : Option (Int × Os Nat) :=
  trySend handleReadReady (List.range len) timeout os

def readN (len : Nat) (os : Os Nat) : Option (Int × Os Nat) :=
  plainLoop (List.range len) (os.results.length + 1) os 0

/- NDK_INVALID_HANDLE is -1. -/
def writeN (len : Nat) (os : Os Nat) : Option (Int × Os Nat) :=
  if os.handle = -1 then some (-1,os) else plainLoop (List.range len) (os.results.length + 1) os 0

namespace Os
variable {π σ : Type}

/- A result that ends the loop with error. -/
def fatal (again : Errno → Bool) : Result → Bool
  | .count n => n = 0
  | .error e => !again e && e ≠ .eintr

/- What the turns of a loop can do. -/
inductive Turns (again : Errno → Bool) (offer : σ → Option (List π)) (next : σ → Nat → σ) :
    Os π → σ → Nat → Loop π → Prop
  | done {os s bytes} : offer s = none → Turns again offer next os s bytes ⟨false,0,bytes,os⟩
  | closed {os s bytes places results} : offer s = some places → os.results = .count 0 :: results →
      Turns again offer next os s bytes ⟨true,0,bytes,{ os with results := results }⟩
  | moves {os s bytes places n results l} : offer s = some places → os.results = .count (n + 1) :: results →
      n + 1 ≤ places.length → n + 1 ≤ maxRwCount →
      Turns again offer next { os with results := results, moved := os.moved ++ places.take (n + 1) } (next s (n + 1))
        (bytes + (n + 1)) l →
      Turns again offer next os s bytes l
  | retries {os s bytes places e results selects l} : offer s = some places → os.results = .error e :: results →
      fatal again (.error e) = false →
      Turns again offer next { os with results := results, selects := selects } s bytes l →
      Turns again offer next os s bytes l
  | stops {os s bytes places e results selects} : offer s = some places → os.results = .error e :: results →
      Turns again offer next os s bytes
        ⟨fatal again (.error e),-1,bytes,{ os with results := results, selects := selects }⟩

section Steps
variable {os os' : Os π} {places : List π} {r : Result} {ret : Int}

theorem transferTakes (did : os.transfer places = some (r,os')) :
    (∃ e results, r = .error e ∧ os.results = .error e :: results ∧ os' = { os with results := results }) ∨
    ∃ n results, r = .count n ∧ os.results = .count n :: results ∧ n ≤ places.length ∧ n ≤ maxRwCount ∧
      os' = { os with results := results, moved := os.moved ++ places.take n } := by
  unfold transfer at did
  split at did
  · cases did
  · rename_i e results found
    cases Option.some.inj did
    exact .inl ⟨e,results,rfl,found,rfl⟩
  · rename_i n results found
    split at did
    · rename_i fits
      cases Option.some.inj did
      exact .inr ⟨n,results,rfl,found,fits.1,fits.2,rfl⟩
    · cases did

/- Waiting takes selects and changes nothing else. -/
def Waits (wait : Os π → Option (Int × Os π)) : Prop :=
  ∀ os ret os', wait os = some (ret,os') → ∃ selects, os' = { os with selects := selects }

theorem handleReadyWaits : Waits (handleReady (π := π)) := by
  intro os ret os' did
  unfold handleReady at did
  split at did
  · obtain ⟨⟨_,selects⟩,_,same⟩ := Option.map_eq_some_iff.mp did
    cases same
    exact ⟨selects,rfl⟩
  · cases did

theorem receiveWaits (timeout : Option TimeValue) : Waits (receiveWait (π := π) timeout) := by
  intro os ret os' did
  unfold receiveWait at did
  split at did
  · exact handleReadyWaits os ret os' did
  · cases Option.some.inj did
    exact ⟨os.selects,rfl⟩

theorem afterErrorTakes {again : Errno → Bool} {wait : Os π → Option (Int × Os π)} (waits : Waits wait) {e : Errno}
    {stop : Option Bool} (did : afterError again wait os e = some (stop,os')) :
    (∃ selects, os' = { os with selects := selects }) ∧
      (stop = none → fatal again (.error e) = false) ∧ ∀ error ∈ stop, error = fatal again (.error e) := by
  unfold afterError at did
  split at did
  case isTrue blocks =>
    have harmless : fatal again (.error e) = false := by simp only [fatal,blocks,Bool.not_true,Bool.false_and]
    obtain ⟨⟨ready,os₁⟩,waited,same⟩ := Option.map_eq_some_iff.mp did
    cases same
    refine ⟨waits os ready os' waited,fun _ => harmless,fun error is => ?_⟩
    rw [harmless]
    split at is
    · cases is
    · exact (Option.some.inj is).symm
  case isFalse other =>
    split at did
    case isTrue interrupted =>
      cases Option.some.inj did
      refine ⟨⟨os.selects,rfl⟩,fun _ => ?_,fun error is => by cases is⟩
      simp only [fatal,interrupted,ne_eq,not_true_eq_false,decide_false,Bool.and_false]
    case isFalse last =>
      cases Option.some.inj did
      refine ⟨⟨os.selects,rfl⟩,fun none' => (by cases none'),fun error is => ?_⟩
      cases Option.some.inj is
      simp only [fatal,other,last,ne_eq,not_false_eq_true,decide_true,Bool.and_true,Bool.not_false]

theorem loopTurns {again : Errno → Bool} {wait : Os π → Option (Int × Os π)} {offer : σ → Option (List π)}
    {next : σ → Nat → σ} (waits : Waits wait) {fuel : Nat} {s : σ} {bytes : Nat} {l : Loop π}
    (did : loop again wait offer next fuel os s bytes = some l) : Turns again offer next os s bytes l := by
  induction fuel generalizing os s bytes with
  | zero => cases did
  | succ fuel ih =>
    simp only [loop] at did
    split at did
    case h_1 none' =>
      cases Option.some.inj did
      exact .done none'
    case h_2 places offered =>
      obtain ⟨⟨r,os₁⟩,took,did⟩ := Option.bind_eq_some_iff.mp did
      obtain ⟨e,results,rfl,found,rfl⟩ | ⟨n,results,rfl,found,inside,most,rfl⟩ := transferTakes took
      · obtain ⟨⟨stop,os₂⟩,after,did⟩ := Option.bind_eq_some_iff.mp did
        obtain ⟨⟨selects,rfl⟩,goes,ends⟩ := afterErrorTakes waits after
        cases stop with
        | none => exact .retries offered found (goes rfl) (ih did)
        | some error =>
          cases Option.some.inj did
          cases ends error rfl
          exact .stops offered found
      · cases n with
        | zero =>
          cases Option.some.inj did
          simp only [List.take_zero,List.append_nil]
          exact .closed offered found
        | succ n => exact .moves offered found inside most (ih did)

/- The mode is all that changes around a loop. -/
theorem enterKeeps (timeout : Option TimeValue) (os : Os π) :
    (enter timeout os).2.moved = os.moved ∧ (enter timeout os).2.results = os.results := by
  unfold enter recordAndSetNonBlockMode
  split
  · simp only
    split <;> exact ⟨rfl,rfl⟩
  · exact ⟨rfl,rfl⟩

theorem leaveKeeps (timeout : Option TimeValue) (flag : BitVec 32) (os : Os π) :
    (leave timeout flag os).moved = os.moved ∧ (leave timeout flag os).results = os.results := by
  unfold leave restoreNonBlockMode
  split
  · split <;> exact ⟨rfl,rfl⟩
  · exact ⟨rfl,rfl⟩

end Steps

end Os

/- What each of the full transfers returns, in terms of its loop. -/
section Calls
variable {len : Nat} {iov : List Nat} {timeout : Option TimeValue} {ret : Int}

theorem recvNTurns {os os' : Os Nat} (did : recvN len timeout os = some (ret,os')) :
    ∃ l, Turns Errno.blocks (rest (List.range len)) (fun bytes n => bytes + n) (enter timeout os).2 0 0 l ∧
      (l.error = true → ret = l.result ∧ os' = l.os) ∧
      (l.error = false → ret = toInt l.bytes ∧ os' = leave timeout (enter timeout os).1 l.os) := by
  unfold recvN at did
  obtain ⟨l,ran,done⟩ := Option.map_eq_some_iff.mp did
  refine ⟨l,loopTurns (receiveWaits timeout) ran,fun failed => ?_,fun fine => ?_⟩
  · rw [if_pos failed] at done
    obtain ⟨rets,left⟩ := Prod.mk.inj done
    exact ⟨rets.symm,left.symm⟩
  · rw [if_neg (Bool.eq_false_iff.mp fine)] at done
    obtain ⟨rets,left⟩ := Prod.mk.inj done
    exact ⟨rets.symm,left.symm⟩

theorem sendNTurns {os os' : Os Nat} (did : sendN len timeout os = some (ret,os')) :
    ∃ l, Turns Errno.blocksSend (rest (List.range len)) (fun bytes n => bytes + n) (enter timeout os).2 0 0 l ∧
      ret = (if l.error then l.result else toInt l.bytes) ∧ os' = leave timeout (enter timeout os).1 l.os := by
  unfold sendN at did
  obtain ⟨l,ran,done⟩ := Option.map_eq_some_iff.mp did
  obtain ⟨rets,left⟩ := Prod.mk.inj done
  exact ⟨l,loopTurns handleReadyWaits ran,rets.symm,left.symm⟩

variable {os os' : Os (Nat × Nat)}

theorem recvvNTurns (did : recvvN iov timeout os = some (ret,os')) :
    ∃ l, Turns Errno.blocks (buffersFrom iov) (fun s n => advance (iov.drop s) s n) (enter timeout os).2 0 0 l ∧
      ret = (if l.error then l.result else toInt l.bytes) ∧ os' = leave timeout (enter timeout os).1 l.os := by
  unfold recvvN at did
  obtain ⟨l,ran,done⟩ := Option.map_eq_some_iff.mp did
  obtain ⟨rets,left⟩ := Prod.mk.inj done
  exact ⟨l,loopTurns (receiveWaits timeout) ran,rets.symm,left.symm⟩

theorem sendvNTurns (did : sendvN iov timeout os = some (ret,os')) :
    ∃ l, Turns Errno.blocksSend (buffersFrom iov) (fun s n => advance (iov.drop s) s n) (enter timeout os).2 0 0 l ∧
      ret = toInt l.bytes ∧ os' = leave timeout (enter timeout os).1 l.os := by
  unfold sendvN at did
  obtain ⟨l,ran,done⟩ := Option.map_eq_some_iff.mp did
  obtain ⟨rets,left⟩ := Prod.mk.inj done
  exact ⟨l,loopTurns handleReadyWaits ran,rets.symm,left.symm⟩

end Calls

end CuteNdk.Ndk
