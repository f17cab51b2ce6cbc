import CuteNdk.Lib.Run
import CuteNdk.Lib.Linked

/-! The reactor token. A stack entry is named by the thread whose activation of
shared_acquire it lives on, so next_ leads from thread to thread and NULL_thread
is none. Each block the code runs under lock_ is one function here: the part of
shared_acquire up to the first wait, the part after a wait, and release. -/
namespace CuteNdk.ReactorToken
open Lib (seek)

abbrev Thread := Nat

inductive OptType where | readToken | writeToken deriving DecidableEq, Repr
inductive Strategy where | fifo | lifo deriving DecidableEq, Repr
inductive WaitResult where | woken | eintr | etimedout | error deriving DecidableEq, Repr

/- token_queue_entry; signaled stands for the state of its condition. -/
structure Entry where
  runable : Bool
  next : Option Thread
  signaled : Bool
  deriving DecidableEq, Repr

structure Queue where
  head : Option Thread
  tail : Option Thread
  deriving DecidableEq, Repr

structure Token where
  waiters : Int
  inUse : Option OptType
  nestingLevel : Nat
  queueingStrategy : Strategy
  owner : Option Thread
  writers : Queue
  readers : Queue
  entry : Thread → Entry

def Token.new (strategy : Strategy) : Token :=
  ⟨0,none,0,strategy,none,⟨none,none⟩,⟨none,none⟩,fun _ => ⟨false,none,false⟩⟩

def Token.queue (k : Token) : OptType → Queue
  | .readToken => k.readers
  | .writeToken => k.writers

def Token.setQueue (k : Token) (q : Queue) : OptType → Token
  | .readToken => { k with readers := q }
  | .writeToken => { k with writers := q }

def Token.next (k : Token) (t : Thread) : Option Thread := (k.entry t).next

def Token.setNext (k : Token) (t : Thread) (n : Option Thread) : Token :=
  { k with entry := Function.update k.entry t { k.entry t with next := n } }

def insertEntry (k : Token) (t : Thread) (o : OptType) : Token :=
  match (k.queue o).head, (k.queue o).tail, k.queueingStrategy with
  | none, _, _ => k.setQueue ⟨some t,some t⟩ o
  | some h, tail, .lifo => (k.setNext t (some h)).setQueue ⟨some t,tail⟩ o
  | some h, some l, .fifo => (k.setNext l (some t)).setQueue ⟨some h,some t⟩ o
  -- tail_ of a queue that has a head: insertRep shows it is never null
  | some _, none, .fifo => k

/- The walk meets at most the entries waiters_ counts, of which the leaving one
is no longer part. -/
def removeEntry (k : Token) (t : Thread) (o : OptType) : Token :=
  match seek k.next t (k.waiters.toNat + 2) none (k.queue o).head with
  | (_,none) => k
  | (prev,some curr) =>
    let tail := if k.next curr = none then prev else (k.queue o).tail
    match prev with
    | none => k.setQueue ⟨k.next curr,tail⟩ o
    | some p => (k.setNext p (k.next curr)).setQueue ⟨(k.queue o).head,tail⟩ o

def Token.select (k : Token) (o : OptType) (h : Thread) : Token :=
  { k with inUse := some o, owner := some h,
           entry := Function.update k.entry h { k.entry h with runable := true, signaled := true } }

def wakeupNextWaiter (k : Token) : Token :=
  match k.writers.head, k.readers.head with
  | some h, _ => k.select .writeToken h
  | none, some h => k.select .readToken h
  | none, none => { k with inUse := none, owner := none }

/- my_entry goes on the stack, into the queue and is counted. -/
def fallAsleep (k : Token) (t : Thread) (o : OptType) : Token :=
  let k := { k with entry := Function.update k.entry t ⟨false,none,false⟩ }
  let k := insertEntry k t o
  { k with waiters := k.waiters + 1 }

/- Up to the first wait: true when the call returns 0 without sleeping. -/
def sharedAcquire (k : Token) (t : Thread) (o : OptType) : Token × Bool :=
  if k.inUse = none then ({ k with inUse := some o, owner := some t },true)
  else if k.owner = some t then ({ k with nestingLevel := k.nestingLevel + 1 },true)
  else (fallAsleep k t o,false)

/- "Do this always and irrespective of the result of wait()." -/
def leave (k : Token) (t : Thread) (o : OptType) : Token :=
  removeEntry { k with waiters := k.waiters - 1 } t o

/- A wait that returned took the signal with it. -/
def Token.consume (k : Token) (t : Thread) : Token :=
  { k with entry := Function.update k.entry t { k.entry t with signaled := false } }

/- After a wait: back to waiting (none), or the value shared_acquire returns. -/
def awake (k : Token) (t : Thread) (o : OptType) : WaitResult → Token × Option Int
  | .woken | .eintr => if k.owner = some t then (leave k t o,some 0) else (k.consume t,none)
  | .etimedout =>
    let k := leave (wakeupNextWaiter k) t o
    (if (k.entry t).runable then wakeupNextWaiter k else k,some (-1))
  | .error => (leave (wakeupNextWaiter k) t o,some (-1))

def release (k : Token) : Token :=
  if k.nestingLevel > 0 then { k with nestingLevel := k.nestingLevel - 1 } else wakeupNextWaiter k

/- A thread asleep in shared_acquire, with the local state it sleeps with. -/
structure Frame where
  opt : OptType
  timed : Bool
  deriving DecidableEq, Repr

/- held counts the returns of 0 that a release has not matched yet. -/
structure State where
  token : Token
  blocked : Thread → Option Frame
  held : Thread → Nat

def init (strategy : Strategy) : State := ⟨Token.new strategy,fun _ => none,fun _ => 0⟩

inductive Action where
  | acquire (t : Thread) (o : OptType) (timed : Bool)
  | wake (t : Thread) (r : WaitResult)
  | release (t : Thread)
  deriving DecidableEq, Repr

/- Any thread that is not asleep may call; a sleeper's wait may end at any time,
with ETIMEDOUT only when it has a timeout; only a holder releases. -/
def step (s : State) : Action → Option State
  | .acquire t o timed =>
    if s.blocked t = none then
      match sharedAcquire s.token t o with
      | (k,true) => some ⟨k,s.blocked,Function.update s.held t (s.held t + 1)⟩
      | (k,false) => some ⟨k,Function.update s.blocked t (some ⟨o,timed⟩),s.held⟩
    else none
  | .wake t r =>
    match s.blocked t with
    | none => none
    | some f =>
      if r = .etimedout ∧ f.timed = false then none
      else match awake s.token t f.opt r with
        | (k,none) => some { s with token := k }
        | (k,some n) => some ⟨k,Function.update s.blocked t none,
            if n = 0 then Function.update s.held t (s.held t + 1) else s.held⟩
  | .release t =>
    if s.blocked t = none ∧ 0 < s.held t then
      some ⟨release s.token,s.blocked,Function.update s.held t (s.held t - 1)⟩
    else none

/- At most one thread is between a successful return and its release, and
nothing has taken the token away from it. -/
structure Exclusive (s : State) : Prop where
  one : ∀ t u, 0 < s.held t → 0 < s.held u → t = u
  kept : ∀ t, 0 < s.held t → s.token.owner = some t ∧ s.token.inUse ≠ none

/- A wait that fails does so while no thread holds the token. -/
def FailsUnheld (s : State) : Action → Prop
  | .wake _ .etimedout | .wake _ .error => ∀ u, s.held u = 0
  | _ => True

end CuteNdk.ReactorToken
