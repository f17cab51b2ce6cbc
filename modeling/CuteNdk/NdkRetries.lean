import CuteNdk.NdkIo
import CuteNdk.InetAddr

/-! ndk.cpp: read, write and bind_port. The first two test ret where errno is meant, and the last
one has no end but an answer other than EADDRINUSE: its port goes on below 0 at 65535. -/
namespace CuteNdk.Ndk
open Inet (InetAddr)

/- EINTR and EADDRINUSE of Linux. -/
def eintr : Int := 4
def eaddrinuse : Errno := .other 98

namespace Os
variable {π : Type}

/- do ret = ..; while (ret == -1 && ret == EINTR); -/
def retryOnRet (places : List π) : Nat → Os π → Option (Int × Os π)
  | 0, _ => none
  | fuel + 1, os =>
    (os.transfer places).bind fun (r,os) =>
      if r.ret = -1 ∧ r.ret = eintr then retryOnRet places fuel os else some (r.ret,os)

/- What a call returns that takes r for the result of its last try. -/
def answered (places : List π) (os : Os π) (r : Result) (rest : List Result) : Option (Int × Os π) :=
  (transfer { os with results := r :: rest } places).map fun (r,os) => (r.ret,os)

/- The call has been repeated while it failed with EINTR, and did is its first other answer. -/
def Retried (places : List π) (os : Os π) (did : Option (Int × Os π)) : Prop :=
  ∀ k r rest, r ≠ .error .eintr → os.results = List.replicate k (.error .eintr) ++ r :: rest →
    did = answered places os r rest

end Os

open Os

def read (len : Nat) (os : Os Nat) : Option (Int × Os Nat) := os.retryOnRet (List.range len) (os.results.length + 1)

def write (len : Nat) (os : Os Nat) : Option (Int × Os Nat) := os.retryOnRet (List.range len) (os.results.length + 1)

/- What bind answers at its n-th call, from 0 on: none is success. -/
abbrev Bind := Nat → InetAddr → Option Errno

/- The loop of bind_port at its n-th turn. upper_limit is an unsigned short. -/
def bindFrom (bind : Bind) (ipAddr : BitVec 64) : Nat → Nat → InetAddr → BitVec 16 → Option Int
  | 0, _, _, _ => none
  | fuel + 1, n, addr, upperLimit =>
    let addr := (addr.set upperLimit (ipAddr.setWidth 32)).2
    match bind n addr with
    | none => some 0
    | some e => if e ≠ eaddrinuse then some (-1) else bindFrom bind ipAddr fuel (n + 1) addr (upperLimit - 1)

def maxDefaultPort : BitVec 16 := 65535

def unset : InetAddr := ⟨Inet.afInet,⟨0,0,0,0⟩⟩

def bindPort (bind : Bind) (ipAddr : BitVec 64) (fuel : Nat) : Option Int :=
  bindFrom bind ipAddr fuel 0 (unset.set 0 (ipAddr.setWidth 32)).2 maxDefaultPort

/- The port of the n-th turn and what bind answers to it. -/
def port (n : Nat) : BitVec 16 := maxDefaultPort - BitVec.ofNat 16 n

def answer (bind : Bind) (ipAddr : BitVec 64) (n : Nat) : Option Errno :=
  bind n (unset.set (port n) (ipAddr.setWidth 32)).2

/- The turns in front of the n-th have all found their port in use. -/
def Tried (bind : Bind) (ipAddr : BitVec 64) (n : Nat) : Prop :=
  ∀ m < n, answer bind ipAddr m = some eaddrinuse

/- bind_port returns ret: 0 just when a port it tried could be bound, and -1 after another error and
when each of the 65536 ports has been tried and is in use. -/
structure BindEnds (bind : Bind) (ipAddr : BitVec 64) (ret : Int) : Prop where
  returns : ∃ fuel, bindPort bind ipAddr fuel = some ret
  bound : ret = 0 ↔ ∃ n, Tried bind ipAddr n ∧ answer bind ipAddr n = none
  failed : ∀ n e, Tried bind ipAddr n → answer bind ipAddr n = some e → e ≠ eaddrinuse → ret = -1
  inUse : Tried bind ipAddr 65536 → ret = -1

section Calls
variable {π : Type} {places : List π} {os : Os π} {r : Result} {rest : List Result}

/- ret is never both. -/
theorem retryOnRetOnce (places : List π) (fuel : Nat) (os : Os π) :
    os.retryOnRet places (fuel + 1) = (os.transfer places).map fun (r,os) => (r.ret,os) := by
  simp only [retryOnRet]
  cases os.transfer places with
  | none => rfl
  | some did =>
    obtain ⟨r,os⟩ := did
    have never : ¬ (r.ret = -1 ∧ r.ret = eintr) := by
      rintro ⟨failed,same⟩
      rw [failed] at same
      exact absurd same (by decide)
    exact if_neg never

theorem transferError (places : List π) {e : Errno} (script : os.results = .error e :: rest) :
    os.transfer places = some (.error e,{ os with results := rest }) := by
  unfold transfer
  rw [script]

/- A try takes the first answer there is. -/
theorem transferHead {os' : Os π} {r' : Result} (did : os.transfer places = some (r',os')) :
    os.results = r' :: os'.results := by
  rcases transferTakes did with ⟨e,results,rfl,found,rfl⟩ | ⟨n,results,rfl,found,_,_,rfl⟩
  · exact found
  · exact found

theorem answeredFirst (script : os.results = r :: rest) :
    answered places os r rest = (os.transfer places).map fun (r,os) => (r.ret,os) := by
  have same : { os with results := r :: rest } = os := by rw [← script]
  rw [answered,same]

/- The loop of recv and send, which tests errno, takes the first answer other than EINTR. -/
theorem retryAnswers {k fuel : Nat} (other : r ≠ .error .eintr)
    (script : os.results = List.replicate k (.error .eintr) ++ r :: rest) (enough : k < fuel) :
    retry places fuel os = answered places os r rest := by
  induction k generalizing fuel os with
  | zero =>
    obtain ⟨fuel,rfl⟩ := Nat.exists_eq_succ_of_ne_zero (Nat.ne_of_gt enough)
    rw [answeredFirst script]
    simp only [retry]
    cases did : os.transfer places with
    | none => rfl
    | some taken =>
      have first : r = taken.1 := (List.cons.inj (script.symm.trans (transferHead did))).1
      have not : ¬ taken.1 = .error .eintr := by
        rw [← first]
        exact other
      exact if_neg not
  | succ k ih =>
    obtain ⟨fuel,rfl⟩ := Nat.exists_eq_succ_of_ne_zero (Nat.ne_of_gt (Nat.zero_lt_of_lt enough))
    have first := transferError places (show os.results = .error .eintr :: _ from script)
    simp only [retry,first,Option.bind_some,if_true]
    exact ih rfl (Nat.lt_of_succ_lt_succ enough)

/- The loop of read and write takes the first answer whatever it is. -/
theorem retryOnRetAnswers {k fuel : Nat} (script : os.results = List.replicate k (.error .eintr) ++ r :: rest) :
    os.retryOnRet places (fuel + 1) = answered places os r rest ↔ k = 0 := by
  rw [retryOnRetOnce]
  cases k with
  | zero =>
    rw [answeredFirst script]
    exact iff_of_true rfl rfl
  | succ k =>
    rw [transferError places (show os.results = .error .eintr :: _ from script)]
    refine iff_of_false (fun same => ?_) (Nat.succ_ne_zero k)
    obtain ⟨⟨r',os'⟩,did,ends⟩ := Option.map_eq_some_iff.mp same.symm
    have left : rest = os'.results := (List.cons.inj (transferHead did)).2
    have taken : os'.results = List.replicate k (.error .eintr) ++ r :: rest :=
      congrArg (fun p : Int × Os π => p.2.results) ends
    have lengths := congrArg List.length (left.trans taken)
    simp only [List.length_append,List.length_cons] at lengths
    omega

end Calls

section Bind
variable {bind : Bind} {ipAddr : BitVec 64} {fuel n : Nat} {ret : Int}

def code : Option Errno → Int
  | none => 0
  | some _ => -1

/- Each of the ports has its turn before one has a second. -/
theorem everyPort (p : BitVec 16) : ∃ n < 65536, port n = p := by
  refine ⟨(maxDefaultPort - p).toNat,(maxDefaultPort - p).isLt,?_⟩
  unfold port
  rw [BitVec.ofNat_toNat,BitVec.setWidth_eq]
  exact sub_sub_cancel maxDefaultPort p

/- A turn of the loop. The address of the one before is overwritten. -/
theorem bindTurn (fuel n : Nat) {addr : InetAddr} (overwritten : ∀ p ip, (addr.set p ip).2 = (unset.set p ip).2) :
    bindFrom bind ipAddr (fuel + 1) n addr (port n) =
      if answer bind ipAddr n = some eaddrinuse then
        bindFrom bind ipAddr fuel (n + 1) (unset.set (port n) (ipAddr.setWidth 32)).2 (port (n + 1))
      else some (code (answer bind ipAddr n)) := by
  have next : port n - 1 = port (n + 1) := by
    unfold port
    rw [BitVec.ofNat_add]
    exact BitVec.sub_sub ..
  simp only [bindFrom,overwritten,next]
  change (match answer bind ipAddr n with
    | none => some 0
    | some e => if e ≠ eaddrinuse then some (-1) else _) = _
  cases answer bind ipAddr n with
  | none => rfl
  | some e =>
    by_cases inUse : e = eaddrinuse
    · simp [inUse]
    · simp [inUse,code]

/- The loop ends with the first answer other than EADDRINUSE. -/
theorem bindStops {k : Nat} {addr : InetAddr} (overwritten : ∀ p ip, (addr.set p ip).2 = (unset.set p ip).2)
    (inUse : ∀ m < k, answer bind ipAddr (n + m) = some eaddrinuse)
    (other : answer bind ipAddr (n + k) ≠ some eaddrinuse) :
    bindFrom bind ipAddr (k + 1) n addr (port n) = some (code (answer bind ipAddr (n + k))) := by
  induction k generalizing n addr with
  | zero =>
    rw [bindTurn 0 n overwritten]
    exact if_neg other
  | succ k ih =>
    have first := inUse 0 (Nat.succ_pos k)
    rw [Nat.add_zero] at first
    have at_ : n + (k + 1) = n + 1 + k := by omega
    rw [at_] at other ⊢
    rw [bindTurn (k + 1) n overwritten,if_pos first]
    refine ih (fun _ _ => rfl) (fun m low => ?_) other
    have later := inUse (m + 1) (Nat.succ_lt_succ low)
    rwa [show n + (m + 1) = n + 1 + m by omega] at later

/- And with no other. -/
theorem bindStopped {addr : InetAddr} (overwritten : ∀ p ip, (addr.set p ip).2 = (unset.set p ip).2)
    (returns : bindFrom bind ipAddr fuel n addr (port n) = some ret) :
    ∃ k, (∀ m < k, answer bind ipAddr (n + m) = some eaddrinuse) ∧
      answer bind ipAddr (n + k) ≠ some eaddrinuse ∧ ret = code (answer bind ipAddr (n + k)) := by
  induction fuel generalizing n addr with
  | zero => cases returns
  | succ fuel ih =>
    rw [bindTurn fuel n overwritten] at returns
    split at returns
    · rename_i first
      have again : ∀ p ip, ((unset.set (port n) (ipAddr.setWidth 32)).2.set p ip).2 = (unset.set p ip).2 := fun _ _ => rfl
      obtain ⟨k,inUse,other,ends⟩ := ih again returns
      have at_ : n + 1 + k = n + (k + 1) := by omega
      rw [at_] at other ends
      refine ⟨k + 1,fun m low => ?_,other,ends⟩
      cases m with
      | zero => exact first
      | succ m =>
        have later := inUse m (Nat.lt_of_succ_lt_succ low)
        rwa [show n + 1 + m = n + (m + 1) by omega] at later
    · rename_i first
      exact ⟨0,nofun,first,(Option.some.inj returns).symm⟩

/- A turn whose answer ends the loop. -/
structure Ends (bind : Bind) (ipAddr : BitVec 64) (n : Nat) : Prop where
  tried : Tried bind ipAddr n
  other : answer bind ipAddr n ≠ some eaddrinuse

theorem endsOnce {m : Nat} (h : Ends bind ipAddr n) (h' : Ends bind ipAddr m) : n = m := by
  rcases Nat.lt_trichotomy n m with before | same | after
  · exact absurd (h'.tried n before) h.other
  · exact same
  · exact absurd (h.tried m after) h'.other

theorem bindPortReturns : (∃ fuel, bindPort bind ipAddr fuel = some ret) ↔
    ∃ n, Ends bind ipAddr n ∧ ret = code (answer bind ipAddr n) := by
  have overwritten : ∀ p ip, ((unset.set 0 (ipAddr.setWidth 32)).2.set p ip).2 = (unset.set p ip).2 := fun _ _ => rfl
  constructor
  · rintro ⟨fuel,returns⟩
    obtain ⟨k,inUse,other,ends⟩ := bindStopped (n := 0) overwritten returns
    rw [Nat.zero_add] at other ends
    exact ⟨k,⟨fun m low => by simpa using inUse m low,other⟩,ends⟩
  · rintro ⟨n,ends,rfl⟩
    refine ⟨n + 1,?_⟩
    have stops := bindStops (n := 0) overwritten (fun m low => by simpa using ends.tried m low)
      (by simpa using ends.other)
    rwa [Nat.zero_add] at stops

theorem someEnds {n : Nat} (other : answer bind ipAddr n ≠ some eaddrinuse) : ∃ m, Ends bind ipAddr m := by
  induction n using Nat.strongRecOn with
  | ind n ih =>
    by_cases tried : Tried bind ipAddr n
    · exact ⟨n,tried,other⟩
    · obtain ⟨m,low,first⟩ : ∃ m < n, answer bind ipAddr m ≠ some eaddrinuse := by
        simpa [Tried] using tried
      exact ih m low first

theorem bindEndsWhen : (∃ ret, BindEnds bind ipAddr ret) ↔
    ∃ n, Ends bind ipAddr n ∧ (n < 65536 ∨ answer bind ipAddr n ≠ none) := by
  constructor
  · rintro ⟨ret,h⟩
    obtain ⟨n,ends,rfl⟩ := bindPortReturns.mp h.returns
    refine ⟨n,ends,or_iff_not_imp_left.mpr fun late success => ?_⟩
    have minus := h.inUse fun m low => ends.tried m (by omega)
    rw [success] at minus
    exact absurd minus (by decide)
  · rintro ⟨n,ends,in_⟩
    refine ⟨code (answer bind ipAddr n),bindPortReturns.mpr ⟨n,ends,rfl⟩,?_,?_,?_⟩
    · constructor
      · intro zero
        refine ⟨n,ends.tried,?_⟩
        cases is : answer bind ipAddr n with
        | none => rfl
        | some e =>
          rw [is] at zero
          cases zero
      · rintro ⟨m,tried,success⟩
        have same := endsOnce ends ⟨tried,by rw [success]; nofun⟩
        rw [same,success]
        rfl
    · intro m e tried error other
      have same := endsOnce ends ⟨tried,by rw [error]; exact fun is => other (Option.some.inj is)⟩
      rw [same,error]
      rfl
    · intro all
      rcases in_ with early | failure
      · exact absurd (all n early) ends.other
      · cases is : answer bind ipAddr n with
        | none => exact absurd is failure
        | some e => rfl

end Bind

section Scripts
variable {π : Type} {places : List π} {os : Os π}

theorem firstOther {results : List Result} (some_ : ∃ r ∈ results, r ≠ .error .eintr) :
    ∃ k r rest, r ≠ .error .eintr ∧ results = List.replicate k (.error .eintr) ++ r :: rest := by
  induction results with
  | nil => simp at some_
  | cons r results ih =>
    by_cases interrupted : r = .error .eintr
    · subst interrupted
      obtain ⟨k,r,rest,other,script⟩ := ih (by simpa using some_)
      exact ⟨k + 1,r,rest,other,congrArg (Result.error Errno.eintr :: ·) script⟩
    · exact ⟨0,r,results,interrupted,rfl⟩

theorem onceRetried (some_ : ∃ r ∈ os.results, r ≠ .error .eintr) (fuel : Nat) :
    Retried places os (os.retryOnRet places (fuel + 1)) ↔ os.results.head? ≠ some (.error .eintr) := by
  constructor
  · intro retried
    obtain ⟨k,r,rest,other,script⟩ := firstOther some_
    have once := (retryOnRetAnswers script).mp (retried k r rest other script)
    subst once
    rw [script]
    exact fun same => other (Option.some.inj same)
  · intro first k r rest other script
    rw [retryOnRetAnswers script]
    cases k with
    | zero => rfl
    | succ k =>
      rw [script] at first
      exact absurd rfl first

/- recv without a timeout tests errno. -/
theorem recvRetried (len : Nat) (os : Os Nat) : Retried (List.range len) os (recv len none os) := by
  intro k r rest other script
  refine retryAnswers other script ?_
  rw [script]
  simp only [List.length_append,List.length_replicate]
  omega

end Scripts

/- read and write are right when the first try is not interrupted, bind_port when a port answers
something other than EADDRINUSE, and after a whole round of ports not with success. -/
theorem retriesEnd (len : Nat) {os : Os Nat} (some_ : ∃ r ∈ os.results, r ≠ .error .eintr) (bind : Bind)
    (ipAddr : BitVec 64) :
    (Retried (List.range len) os (read len os) ↔ os.results.head? ≠ some (.error .eintr)) ∧
    (Retried (List.range len) os (write len os) ↔ os.results.head? ≠ some (.error .eintr)) ∧
    ((∃ fuel ret, bindPort bind ipAddr fuel = some ret) ↔ ∃ n, answer bind ipAddr n ≠ some eaddrinuse) ∧
    ((∃ ret, BindEnds bind ipAddr ret) ↔
      ∃ n, Ends bind ipAddr n ∧ (n < 65536 ∨ answer bind ipAddr n ≠ none)) := by
  refine ⟨onceRetried some_ _,onceRetried some_ _,?_,bindEndsWhen⟩
  constructor
  · rintro ⟨fuel,ret,returns⟩
    obtain ⟨n,ends,_⟩ := bindPortReturns.mp ⟨fuel,returns⟩
    exact ⟨n,ends.other⟩
  · rintro ⟨n,first⟩
    obtain ⟨m,ends⟩ := someEnds first
    obtain ⟨fuel,returns⟩ := bindPortReturns.mpr ⟨m,ends,rfl⟩
    exact ⟨fuel,_,returns⟩

/- Five bytes at once, and a port that is free at the second turn. -/
def fiveAtOnce : Os Nat := ⟨3,0,[.count 5],[],[]⟩

def secondFree : Bind := fun n _ => if n = 0 then some eaddrinuse else none

theorem fiveAtOnceRetried :
    Retried (List.range 8) fiveAtOnce (read 8 fiveAtOnce) ∧ ∃ ret, BindEnds secondFree 0 ret := by
  have all := retriesEnd 8 (show ∃ r ∈ fiveAtOnce.results, r ≠ .error .eintr from ⟨_,List.mem_singleton_self _,nofun⟩)
    secondFree 0
  have tried : Tried secondFree 0 1 := by
    intro m low
    cases Nat.lt_one_iff.mp low
    rfl
  exact ⟨all.1.mpr (by decide),all.2.2.2.mpr ⟨1,⟨tried,nofun⟩,.inl (by decide)⟩⟩

/- One signal ends the read with -1 and five bytes left; with every port in use bind_port goes on for ever. -/
theorem signalNotRetried :
    read 8 ⟨3,0,[.error .eintr,.count 5],[],[]⟩ = some (-1,⟨3,0,[.count 5],[],[]⟩) ∧
    ¬ Retried (List.range 8) ⟨3,0,[.error .eintr,.count 5],[],[]⟩ (read 8 ⟨3,0,[.error .eintr,.count 5],[],[]⟩) ∧
    ∀ ret, ¬ BindEnds (fun _ _ => some eaddrinuse) 0 ret := by
  refine ⟨rfl,fun retried => ?_,fun ret ends => ?_⟩
  · have same := retried 1 (.count 5) [] nofun rfl
    exact absurd same (by decide)
  · obtain ⟨n,stops,_⟩ := bindPortReturns.mp ends.returns
    exact stops.other rfl

end CuteNdk.Ndk
