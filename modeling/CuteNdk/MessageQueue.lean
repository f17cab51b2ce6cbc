import CuteNdk.Lib.Linked
import CuteNdk.Lib.Run

/-! message_queue: the blocks are nodes linked by prev_ and next_, and what a call
is given or gives back is a chain of them. A result of none is a null pointer
followed or a loop that does not end. -/
namespace CuteNdk
open Lib

namespace MessageQueue

abbrev Block := Nat

end MessageQueue

open MessageQueue

structure MessageQueue where
  mbCount : Nat
  highWaterMark : Nat
  head : Option Block
  tail : Option Block
  prev : Block → Option Block
  next : Block → Option Block

namespace MessageQueue

/- The links of the blocks are what their owners have left in them. -/
def make (highWaterMark : Nat) (prev next : Block → Option Block) : MessageQueue where
  mbCount := 0
  highWaterMark := highWaterMark
  head := none
  tail := none
  prev := prev
  next := next

def isEmptyI (q : MessageQueue) : Bool := q.tail = none

def isFullI (q : MessageQueue) : Bool := q.highWaterMark ≤ q.mbCount

/- The loop both enqueue functions start with: seq_tail, num and the queue. -/
def countChain : Nat → MessageQueue → Block → Nat → Option (Block × Nat × MessageQueue)
  | 0, _, _, _ => none
  | n + 1, q, seqTail, num =>
    match q.next seqTail with
    | none => some (seqTail,num,q)
    | some b => countChain n { q with prev := Function.update q.prev b (some seqTail) } b (num + 1)

def enqueueTailI (fuel : Nat) (q : MessageQueue) (newItem : Block) : Option (Int × MessageQueue) := do
  let (seqTail,num,q) ← countChain fuel q newItem 1
  let q := match q.tail with
    | none =>
      { q with head := some newItem, tail := some seqTail, prev := Function.update q.prev newItem none }
    | some tail =>
      { q with
        prev := Function.update q.prev newItem (some tail)
        next := Function.update q.next tail (some newItem)
        tail := some seqTail }
  some (num,{ q with mbCount := q.mbCount + num })

def enqueueHeadI (fuel : Nat) (q : MessageQueue) (newItem : Block) : Option (Int × MessageQueue) := do
  let (seqTail,num,q) ← countChain fuel q newItem 1
  let q := { q with
    prev := Function.update q.prev newItem none
    next := Function.update q.next seqTail q.head }
  let q := match q.head with
    | none => { q with tail := some seqTail }
    | some head => { q with prev := Function.update q.prev head (some seqTail) }
  some (num,{ q with head := some newItem, mbCount := q.mbCount + num })

/- What a dequeue gives back: its result and the reference argument, none where
it is not assigned. -/
structure Taken where
  ret : Int
  items : Option Block
  queue : MessageQueue

def dequeueHeadI (q : MessageQueue) : Taken :=
  match q.head with
  | none => ⟨-1,none,q⟩
  | some first =>
    let q := { q with head := q.next first }
    let q := match q.head with
      | none => { q with tail := none }
      | some head => { q with prev := Function.update q.prev head none }
    let q := { q with mbCount := q.mbCount - 1 }
    ⟨0,some first,{ q with
      prev := Function.update q.prev first none
      next := Function.update q.next first none }⟩

/- while (number-- > 0 && p != 0) { p = link(p); ++count; } -/
def skip (link : Block → Option Block) : Nat → Option Block → Nat → Option Block × Nat
  | 0, p, count => (p,count)
  | _ + 1, none, count => (none,count)
  | n + 1, some a, count => skip link n (link a) (count + 1)

def dequeueHeadNI (q : MessageQueue) (number : Int) : Option Taken :=
  match q.head with
  | none => some ⟨0,none,q⟩
  | some first =>
    if number = -1 then some ⟨q.mbCount,some first,{ q with head := none, tail := none, mbCount := 0 }⟩
    else
      let (head,count) := skip q.next number.toNat q.head 0
      match head with
      | none => some ⟨count,some first,{ q with head := none, tail := none, mbCount := 0 }⟩
      | some head => do
        let last ← q.prev head
        some ⟨count,some first,{ q with
          head := some head
          next := Function.update q.next last none
          prev := Function.update q.prev head none
          mbCount := q.mbCount - count }⟩

def dequeueTailI (q : MessageQueue) : Taken :=
  match q.tail with
  | none => ⟨-1,none,q⟩
  | some last =>
    let q := match q.prev last with
      | none => { q with head := none, tail := none }
      | some before => { q with next := Function.update q.next before none, tail := some before }
    let q := { q with mbCount := q.mbCount - 1 }
    ⟨0,some last,{ q with
      prev := Function.update q.prev last none
      next := Function.update q.next last none }⟩

def dequeueTailNI (q : MessageQueue) (number : Int) : Option Taken :=
  match q.tail with
  | none => some ⟨0,none,q⟩
  | some _ =>
    if number = -1 then some ⟨q.mbCount,q.head,{ q with head := none, tail := none, mbCount := 0 }⟩
    else
      let (tail,count) := skip q.prev number.toNat q.tail 0
      match tail with
      | none => some ⟨q.mbCount,q.head,{ q with head := none, tail := none, mbCount := 0 }⟩
      | some tail => do
        let items ← q.next tail
        some ⟨count,some items,{ q with
          tail := some tail
          prev := Function.update q.prev items none
          next := Function.update q.next tail none
          mbCount := q.mbCount - count }⟩

/- The calls, and what an owner may do to a block that is in no queue. -/
inductive Op where
  | link (b : Block) (prev next : Option Block)
  | enqueueTail (chain : List Block)
  | enqueueHead (chain : List Block)
  | dequeueHead
  | dequeueTail
  | dequeueHeadN (k : Int)
  | dequeueTailN (k : Int)
  deriving DecidableEq, Repr

def callEnqueue (i : Nat → MessageQueue → Block → Option (Int × MessageQueue)) (q : MessageQueue) :
    List Block → Option Taken
  | [] => none
  | newItem :: rest => (i (rest.length + 1) q newItem).map fun r => ⟨r.1,none,r.2⟩

def apply (q : MessageQueue) : Op → Option Taken
  | .link b prev next =>
    some ⟨0,none,{ q with prev := Function.update q.prev b prev, next := Function.update q.next b next }⟩
  | .enqueueTail chain => callEnqueue enqueueTailI q chain
  | .enqueueHead chain => callEnqueue enqueueHeadI q chain
  | .dequeueHead => some q.dequeueHeadI
  | .dequeueTail => some q.dequeueTailI
  | .dequeueHeadN k => q.dequeueHeadNI k
  | .dequeueTailN k => q.dequeueTailNI k

/- The same calls on the list of blocks a queue stands for: the result, the blocks
given back and the list after. -/
structure Answer where
  ret : Int
  out : List Block
  blocks : List Block
  deriving DecidableEq, Repr

def answer (l : List Block) : Op → Answer
  | .link _ _ _ => ⟨0,[],l⟩
  | .enqueueTail chain => ⟨chain.length,[],l ++ chain⟩
  | .enqueueHead chain => ⟨chain.length,[],chain ++ l⟩
  | .dequeueHead => ⟨if l = [] then -1 else 0,l.take 1,l.drop 1⟩
  | .dequeueTail => ⟨if l = [] then -1 else 0,l.drop (l.length - 1),l.take (l.length - 1)⟩
  | .dequeueHeadN k =>
    if k = -1 then ⟨l.length,l,[]⟩ else ⟨min k.toNat l.length,l.take k.toNat,l.drop k.toNat⟩
  | .dequeueTailN k =>
    if k = -1 then ⟨l.length,l,[]⟩
    else ⟨min k.toNat l.length,l.drop (l.length - k.toNat),l.take (l.length - k.toNat)⟩

/- A queue stands for the blocks from head_ on, linked both ways. -/
structure Rep (q : MessageQueue) (l : List Block) : Prop where
  linked : Dll q.next q.prev q.head q.tail l
  count : q.mbCount = l.length

/- What a caller may do: it does not touch queued blocks, and the chains it gives
are chains of blocks that are in no queue. -/
def Allowed (q : MessageQueue) (l : List Block) : Op → Prop
  | .link b _ _ => b ∉ l
  | .enqueueTail chain | .enqueueHead chain =>
    chain ≠ [] ∧ Seg q.next chain.head? chain none ∧ ∀ b ∈ chain, b ∉ l
  | .dequeueHead | .dequeueTail => True
  | .dequeueHeadN k | .dequeueTailN k => k = -1 ∨ 1 ≤ k

/- A call that ends well has the result of the list, what it gives back is a chain
with nothing before it, and the queue stands for the list after. -/
structure Agrees (t : Taken) (a : Answer) : Prop where
  ret : t.ret = a.ret
  chain : Seg t.queue.next t.items a.out none
  first : ∀ b ∈ t.items, t.queue.prev b = none
  rep : Rep t.queue a.blocks
  apart : ∀ b ∈ a.out, b ∉ a.blocks

theorem headTail {q : MessageQueue} {l : List Block} (h : Rep q l) : q.head = l.head? ∧ q.tail = l.getLast? :=
  dllEnds h.linked

theorem emptyIff {q : MessageQueue} {l : List Block} (h : Rep q l) : q.isEmptyI = true ↔ l = [] := by
  rw [isEmptyI,(headTail h).2,decide_eq_true_iff,List.getLast?_eq_none_iff]

/- The loop links the chain backwards and leaves everything else alone. -/
theorem countChainEq {q : MessageQueue} {a : Block} {l : List Block} {fuel num : Nat}
    (h : Seg q.next (q.next a) l none) (off : a ∉ l) (enough : l.length < fuel) :
    ∃ prev' last, countChain fuel q a num = some (last,num + l.length,{ q with prev := prev' }) ∧
      (a :: l).getLast? = some last ∧ Seg prev' (some last) (a :: l).reverse (prev' a) ∧
      (∀ b, b ∉ l → prev' b = q.prev b) := by
  induction l generalizing q a fuel num with
  | nil =>
    obtain ⟨k,rfl⟩ := Nat.exists_eq_succ_of_ne_zero (Nat.ne_of_gt enough)
    refine ⟨q.prev,a,?_,rfl,⟨rfl,rfl⟩,fun _ _ => rfl⟩
    simp [countChain,show q.next a = none from h]
  | cons b l ih =>
    obtain ⟨k,rfl⟩ := Nat.exists_eq_succ_of_ne_zero (Nat.ne_of_gt (Nat.zero_lt_of_lt enough))
    have fresh : b ∉ l := (List.nodup_cons.mp (segNodup h)).1
    have other : a ≠ b := fun same => off (same ▸ List.mem_cons_self)
    obtain ⟨prev',last,counts,ends,back,same⟩ :=
      @ih { q with prev := Function.update q.prev b (some a) } _ _ (num + 1) h.2 fresh
        (Nat.lt_of_succ_lt_succ enough)
    have before : prev' b = some a := (same b fresh).trans (Function.update_self _ _ _)
    refine ⟨prev',last,?_,?_,?_,fun c out => ?_⟩
    · simp only [countChain,h.1,counts,List.length_cons]
      rw [show num + 1 + l.length = num + (l.length + 1) by omega]
    · rw [List.getLast?_cons_cons]
      exact ends
    · rw [List.reverse_cons]
      exact segAppend.mpr ⟨some a,before ▸ back,rfl,rfl⟩
    · obtain ⟨notB,notL⟩ := not_or.1 (fun mem => out (List.mem_cons.2 mem))
      rw [same c notL]
      exact Function.update_of_ne notB _ _

theorem relinkSome (link : Block → Option Block) (p : Option Block) (a : Block) :
    relink link (some a) p = Function.update link a p := rfl

/- Two doubly linked lists joined end to start. -/
theorem dllJoin {next prev next' prev' : Block → Option Block} {head tail : Option Block} {l : List Block}
    {a last : Block} {c : List Block} (h : Dll next prev head tail l)
    (forth : Seg next (some a) (a :: c) none) (back : Seg prev' (some last) (a :: c).reverse tail)
    (nextL : next' = relink next tail (some a)) (apart : ∀ b ∈ a :: c, b ∉ l)
    (prevL : ∀ b ∈ l, prev' b = prev b) :
    Dll next' prev' (if tail = none then some a else head) (some last) (l ++ a :: c) := by
  obtain ⟨first,end_⟩ := dllEnds h
  refine ⟨?_,?_⟩
  · rcases List.eq_nil_or_concat' l with rfl | ⟨l,z,rfl⟩
    · cases end_
      subst nextL
      exact forth
    · have tail_ : tail = some z := by rw [end_]; simp
      subst tail_
      have off : z ∉ l := fun mem =>
        (List.nodup_append.mp (dllNodup h)).2.2 z mem z (List.mem_singleton_self z) rfl
      rw [if_neg (Option.some_ne_none z),segAppend]
      refine ⟨some a,?_,?_⟩
      · rw [nextL]
        exact segSetLast h.forth off
      · rw [nextL]
        exact (segUpdate fun mem => apart z mem (by simp)).mpr forth
  · rw [List.reverse_append]
    refine segAppend.mpr ⟨tail,back,?_⟩
    exact (segCongr fun b mem => prevL b (List.mem_reverse.mp mem)).mpr h.back

/- What both enqueue functions find and make of the chain. -/
theorem chainCounted {q : MessageQueue} {l c : List Block} {a : Block}
    (chain : Seg q.next (some a) (a :: c) none) (apart : ∀ b ∈ a :: c, b ∉ l) (x : Option Block) :
    ∃ prev' last, countChain (c.length + 1) q a 1 = some (last,c.length + 1,{ q with prev := prev' }) ∧
      (a :: c).getLast? = some last ∧ Seg (Function.update prev' a x) (some last) (a :: c).reverse x ∧
      ∀ b ∈ l, Function.update prev' a x b = q.prev b := by
  have fresh : a ∉ c := (List.nodup_cons.mp (segNodup chain)).1
  obtain ⟨prev',last,counts,ends,back,same⟩ := @countChainEq q a c _ 1 chain.2 fresh (Nat.lt_succ_self _)
  refine ⟨prev',last,?_,ends,?_,fun b mem => ?_⟩
  · rw [counts,Nat.add_comm]
  · rw [List.reverse_cons] at back ⊢
    exact segSetLast back (by simpa using fresh)
  · have other : b ≠ a := fun eq => apart a List.mem_cons_self (eq ▸ mem)
    rw [Function.update_of_ne other]
    exact same b fun inside => apart b (List.mem_cons_of_mem a inside) mem

theorem enqueueTailAgrees {q : MessageQueue} {l c : List Block} {a : Block} (h : Rep q l)
    (chain : Seg q.next (some a) (a :: c) none) (apart : ∀ b ∈ a :: c, b ∉ l) :
    ∃ t, callEnqueue enqueueTailI q (a :: c) = some t ∧ Agrees t (answer l (.enqueueTail (a :: c))) := by
  obtain ⟨prev',last,counts,ends,back,same⟩ := chainCounted chain apart q.tail
  have joined := dllJoin h.linked chain back rfl apart same
  refine ⟨⟨c.length + 1,none,{ q with
    prev := Function.update prev' a q.tail
    next := relink q.next q.tail (some a)
    head := if q.tail = none then some a else q.head
    tail := some last
    mbCount := q.mbCount + (c.length + 1) }⟩,?_,⟨?_,rfl,nofun,⟨joined,?_⟩,nofun⟩⟩
  · simp only [callEnqueue,enqueueTailI,counts,bind,Option.bind]
    cases tail : q.tail <;> simp [relink]
  · simp [answer]
  · simp [answer,h.count]

theorem enqueueHeadAgrees {q : MessageQueue} {l c : List Block} {a : Block} (h : Rep q l)
    (chain : Seg q.next (some a) (a :: c) none) (apart : ∀ b ∈ a :: c, b ∉ l) :
    ∃ t, callEnqueue enqueueHeadI q (a :: c) = some t ∧ Agrees t (answer l (.enqueueHead (a :: c))) := by
  obtain ⟨prev',last,counts,ends,back,same⟩ := chainCounted chain apart none
  -- seen from the tails, the queue is joined to the end of the chain
  have backwards : Dll q.prev q.next q.tail q.head l.reverse := dllSymm h.linked
  have nodup : (a :: c).Nodup := segNodup chain
  have joined : Dll (Function.update q.next last q.head)
      (relink (Function.update prev' a none) q.head (some last)) (some a)
      (if q.head = none then some last else q.tail) ((a :: c) ++ l) := by
    obtain ⟨first,end_⟩ := headTail h
    have split : a :: c = (a :: c).dropLast ++ [last] := (List.dropLast_append_getLast? last ends).symm
    have offLast : last ∉ (a :: c).dropLast := fun mem => dropLastOther nodup mem ends
    have inside : last ∈ a :: c := List.mem_of_getLast? ends
    refine ⟨?_,?_⟩
    · rw [split] at chain ⊢
      refine segAppend.mpr ⟨q.head,segSetLast chain offLast,?_⟩
      exact (segUpdate (apart last inside)).mpr h.linked.forth
    · rw [List.reverse_append]
      cases l with
      | nil =>
        rw [show q.head = none from first,if_pos rfl]
        exact back
      | cons z l =>
        rw [show q.head = some z from first,if_neg (Option.some_ne_none z),relinkSome,List.reverse_cons]
        have fresh : z ∉ l := (List.nodup_cons.mp (dllNodup h.linked)).1
        have before : Seg (Function.update prev' a none) q.tail (l.reverse ++ [z]) none := by
          rw [← List.reverse_cons,segCongr fun b mem => same b (List.mem_reverse.mp mem)]
          exact h.linked.back
        refine segAppend.mpr ⟨some last,segSetLast before (by simpa using fresh),?_⟩
        refine (segUpdate fun mem => ?_).mpr back
        exact apart z (List.mem_reverse.mp mem) List.mem_cons_self
  refine ⟨⟨c.length + 1,none,{ q with
    prev := relink (Function.update prev' a none) q.head (some last)
    next := Function.update q.next last q.head
    head := some a
    tail := if q.head = none then some last else q.tail
    mbCount := q.mbCount + (c.length + 1) }⟩,?_,⟨?_,rfl,nofun,⟨joined,?_⟩,nofun⟩⟩
  · simp only [callEnqueue,enqueueHeadI,counts,bind,Option.bind]
    cases head : q.head <;> simp [relink]
  · simp [answer]
  · simp only [answer,List.length_append,List.length_cons,h.count]
    omega

theorem skipEq {link : Block → Option Block} {p : Option Block} {l : List Block} (h : Seg link p l none)
    (n count : Nat) : skip link n p count = ((l.drop n).head?,count + min n l.length) := by
  induction l generalizing p n count with
  | nil =>
    cases h
    cases n <;> simp [skip]
  | cons a l ih =>
    cases n with
    | zero => simpa [skip] using h.1
    | succ n =>
      rw [h.1,skip,ih h.2,List.drop_succ_cons,List.length_cons]
      rw [show count + 1 + min n l.length = count + min (n + 1) (l.length + 1) by omega]

theorem emptyRep (q : MessageQueue) : Rep { q with head := none, tail := none, mbCount := 0 } [] :=
  ⟨⟨rfl,rfl⟩,rfl⟩

/- Nothing is before the first block. -/
theorem headFirst {q : MessageQueue} {l : List Block} (h : Rep q l) : ∀ b ∈ q.head, q.prev b = none := by
  intro b mem
  obtain ⟨rest,rfl⟩ := List.head?_eq_some_iff.1 ((headTail h).1.symm.trans mem)
  exact (dllFirst h.linked).2

theorem dequeueHeadAgrees {q : MessageQueue} {l : List Block} (h : Rep q l) :
    Agrees q.dequeueHeadI (answer l .dequeueHead) := by
  have first := (headTail h).1
  cases l with
  | nil =>
    simp only [dequeueHeadI,first,List.head?_nil]
    exact ⟨rfl,rfl,nofun,h,nofun⟩
  | cons a l =>
    have off : a ∉ l := (List.nodup_cons.mp (dllNodup h.linked)).1
    have next : q.next a = l.head? := (dllFirst h.linked).1
    have last := (headTail h).2
    have result : q.dequeueHeadI = ⟨0,some a,{ q with
        head := l.head?
        tail := l.getLast?
        mbCount := q.mbCount - 1
        prev := Function.update (relink q.prev l.head? none) a none
        next := Function.update q.next a none }⟩ := by
      simp only [dequeueHeadI,first,List.head?_cons,next]
      cases l with
      | nil => rfl
      | cons b l => simp [relink,last]
    have rest : Dll (Function.update q.next a none) (Function.update (relink q.prev l.head? none) a none)
        l.head? l.getLast? l := by
      have other : ∀ b ∈ l, b ≠ a := fun b mem same => off (same ▸ mem)
      have nodup := (List.nodup_cons.mp (dllNodup h.linked)).2
      refine dllDropFront (show Dll q.next q.prev q.head q.tail ([a] ++ l) from h.linked)
        (fun b mem => Function.update_of_ne (other b mem) _ _) (fun b mem => ?_) fun b mem => ?_
      · rw [Function.update_of_ne (other b (List.mem_of_head? mem)),show l.head? = some b from mem]
        exact Function.update_self _ _ _
      · rw [Function.update_of_ne (other b (List.mem_of_mem_tail mem))]
        cases l with
        | nil => exact absurd mem List.not_mem_nil
        | cons c l =>
          have apart : b ≠ c := fun same => (List.nodup_cons.mp nodup).1 (same ▸ mem)
          exact Function.update_of_ne apart _ _
    rw [result]
    refine ⟨rfl,⟨rfl,Function.update_self _ _ _⟩,?_,⟨rest,by simp [answer,h.count]⟩,?_⟩
    · rintro b ⟨⟩
      exact Function.update_self _ _ _
    · simpa [answer] using off

theorem dequeueTailAgrees {q : MessageQueue} {l : List Block} (h : Rep q l) :
    Agrees q.dequeueTailI (answer l .dequeueTail) := by
  have last := (headTail h).2
  rcases List.eq_nil_or_concat' l with rfl | ⟨l,z,rfl⟩
  · simp only [dequeueTailI,last,List.getLast?_nil]
    exact ⟨rfl,rfl,nofun,h,nofun⟩
  · have nodup := dllNodup h.linked
    have off : z ∉ l := fun mem => (List.nodup_append.mp nodup).2.2 z mem z (List.mem_singleton_self z) rfl
    have prev : q.prev z = l.getLast? := (dllLast h.linked).2
    have first := (headTail h).1
    have out : answer (l ++ [z]) .dequeueTail = ⟨0,[z],l⟩ := by simp [answer]
    rw [List.getLast?_concat] at last
    have result : q.dequeueTailI = ⟨0,some z,{ q with
        head := l.head?
        tail := l.getLast?
        mbCount := q.mbCount - 1
        prev := Function.update q.prev z none
        next := Function.update (relink q.next l.getLast? none) z none }⟩ := by
      simp only [dequeueTailI,last,prev]
      rcases List.eq_nil_or_concat' l with rfl | ⟨l,y,rfl⟩
      · rfl
      · rw [List.append_assoc,List.head?_append] at first
        simp only [List.getLast?_concat,relink,first]
        cases l <;> rfl
    have rest : Dll (Function.update (relink q.next l.getLast? none) z none) (Function.update q.prev z none)
        l.head? l.getLast? l := by
      have other : ∀ b ∈ l, b ≠ z := fun b mem same => off (same ▸ mem)
      refine dllDropBack h.linked (fun b mem => Function.update_of_ne (other b mem) _ _)
        (fun b mem => ?_) fun b mem => ?_
      · rw [Function.update_of_ne (other b (List.mem_of_getLast? mem)),show l.getLast? = some b from mem]
        exact Function.update_self _ _ _
      · rw [Function.update_of_ne (other b (List.dropLast_subset _ mem))]
        have apart := dropLastOther (List.nodup_append.mp nodup).1 mem
        cases end_ : l.getLast? with
        | none => rfl
        | some c =>
          rw [end_] at apart
          exact Function.update_of_ne (fun same => apart (congrArg some same.symm)) _ _
    rw [result,out]
    refine ⟨rfl,⟨rfl,Function.update_self _ _ _⟩,?_,⟨rest,by simp [h.count]⟩,by simpa using off⟩
    rintro b ⟨⟩
    exact Function.update_self _ _ _

/- Cutting the list in two: the front ends in null, the back starts after it. -/
theorem cutRep {q : MessageQueue} {l₁ l₂ : List Block} {y b : Block} (h : Rep q (l₁ ++ l₂))
    (last : l₁.getLast? = some y) (first : l₂.head? = some b) :
    Dll (Function.update q.next y none) (Function.update q.prev b none) l₁.head? l₁.getLast? l₁ ∧
      Dll (Function.update q.next y none) (Function.update q.prev b none) l₂.head? l₂.getLast? l₂ := by
  have nodup := dllNodup h.linked
  obtain ⟨nodup₁,nodup₂,apart⟩ := List.nodup_append.mp nodup
  have yIn : y ∈ l₁ := List.mem_of_getLast? last
  have bIn : b ∈ l₂ := List.mem_of_head? first
  constructor
  · refine dllDropBack h.linked (fun a mem => ?_) (fun a mem => ?_) fun a mem => ?_
    · exact Function.update_of_ne (apart a mem b bIn) _ _
    · obtain rfl := Option.some.inj (last.symm.trans mem)
      exact Function.update_self _ _ _
    · refine Function.update_of_ne (fun same => dropLastOther nodup₁ mem ?_) _ _
      rw [last,same]
  · refine dllDropFront h.linked (fun a mem => ?_) (fun a mem => ?_) fun a mem => ?_
    · exact Function.update_of_ne (fun same => apart y yIn a mem same.symm) _ _
    · obtain rfl := Option.some.inj (first.symm.trans mem)
      exact Function.update_self _ _ _
    · refine Function.update_of_ne (fun same => tailOther nodup₂ mem ?_) _ _
      rw [first,same]

/- What the blocks at the cut and at the ends of the list say of each other. -/
theorem cutEnds {q : MessageQueue} {l₁ l₂ : List Block} {y b : Block} (h : Rep q (l₁ ++ l₂))
    (last : l₁.getLast? = some y) (first : l₂.head? = some b) :
    q.next y = some b ∧ q.prev b = some y ∧ l₁.head? = q.head ∧ l₂.getLast? = q.tail := by
  obtain ⟨head,end_⟩ := headTail h
  obtain ⟨after,before⟩ := dllSeam h.linked
  refine ⟨(after y last).trans first,(before b first).trans last,?_,?_⟩
  · rw [head]
    cases l₁ with
    | nil => cases last
    | cons a l => rfl
  · rw [end_,List.getLast?_append]
    cases ends : l₂.getLast? with
    | some z => rfl
    | none =>
      rw [List.getLast?_eq_none_iff.1 ends] at first
      cases first

/- All blocks are given back. -/
theorem allAgrees {q : MessageQueue} {l : List Block} (h : Rep q l) :
    Agrees ⟨q.mbCount,q.head,{ q with head := none, tail := none, mbCount := 0 }⟩ ⟨l.length,l,[]⟩ :=
  ⟨congrArg _ h.count,h.linked.forth,headFirst h,emptyRep q,fun _ _ kept => absurd kept List.not_mem_nil⟩

theorem takenCount (k : Int) (n : Nat) : ((0 + min k.toNat n : Nat) : Int) = min (k.toNat : Int) n := by
  omega

theorem nothingTaken (k : Int) : (0 : Int) = min (k.toNat : Int) (0 : Nat) := by
  omega

/- An empty queue has nothing to give. -/
theorem noneAgrees {q : MessageQueue} (h : Rep q []) (k : Int) :
    Agrees ⟨0,none,q⟩ (answer [] (.dequeueHeadN k)) ∧ Agrees ⟨0,none,q⟩ (answer [] (.dequeueTailN k)) := by
  by_cases whole : k = -1
  · simp only [answer,if_pos whole]
    exact ⟨⟨rfl,rfl,nofun,h,nofun⟩,rfl,rfl,nofun,h,nofun⟩
  · simp only [answer,if_neg whole]
    exact ⟨⟨nothingTaken k,by simp [Seg],nofun,by simpa using h,by simp⟩,
      nothingTaken k,by simp [Seg],nofun,by simpa using h,by simp⟩

theorem dequeueHeadNAgrees {q : MessageQueue} {l : List Block} {k : Int} (h : Rep q l) (ok : k = -1 ∨ 1 ≤ k) :
    ∃ t, q.dequeueHeadNI k = some t ∧ Agrees t (answer l (.dequeueHeadN k)) := by
  have all := allAgrees h
  have first := (headTail h).1
  unfold dequeueHeadNI
  cases l with
  | nil =>
    rw [show q.head = none from first]
    exact ⟨_,rfl,(noneAgrees h k).1⟩
  | cons a l =>
    rw [first] at all ⊢
    by_cases whole : k = -1
    · simp only [answer,if_pos whole,List.head?_cons]
      exact ⟨_,rfl,all⟩
    · have some_ : 1 ≤ k.toNat := by omega
      simp only [answer,if_neg whole,List.head?_cons]
      have forth := h.linked.forth
      rw [first,List.head?_cons] at forth
      rw [skipEq forth]
      cases rest : ((a :: l).drop k.toNat).head? with
      | none =>
        have gone := List.head?_eq_none_iff.1 rest
        have short := List.drop_eq_nil_iff.1 gone
        refine ⟨_,rfl,?_⟩
        rw [gone,List.take_of_length_le short]
        exact ⟨takenCount k _,all.chain,all.first,emptyRep q,fun _ _ kept => absurd kept List.not_mem_nil⟩
      | some b =>
        obtain ⟨y,last⟩ : ∃ y, ((a :: l).take k.toNat).getLast? = some y := by
          cases end_ : ((a :: l).take k.toNat).getLast? with
          | some y => exact ⟨y,rfl⟩
          | none =>
            have none_ := List.getLast?_eq_none_iff.1 end_
            rw [List.take_eq_nil_iff] at none_
            simp at none_
            omega
        have split : (a :: l).take k.toNat ++ (a :: l).drop k.toNat = a :: l := List.take_append_drop _ _
        obtain ⟨_,before,_,ends⟩ := cutEnds (split.symm ▸ h) last rest
        obtain ⟨front,back⟩ := cutRep (split.symm ▸ h) last rest
        have start : ((a :: l).take k.toNat).head? = some a := by
          obtain ⟨m,hm⟩ := Nat.exists_eq_succ_of_ne_zero (Nat.ne_of_gt some_)
          rw [hm]
          rfl
        have long : k.toNat < (a :: l).length := Nat.lt_of_not_le fun short => by
          rw [List.drop_eq_nil_of_le short] at rest
          cases rest
        simp only [before,bind,Option.bind]
        refine ⟨_,rfl,takenCount k _,start ▸ front.forth,?_,⟨?_,?_⟩,fun c mem inside => ?_⟩
        · rintro c ⟨⟩
          have other : a ≠ b := by
            rintro rfl
            have nodup := dllNodup h.linked
            rw [← split] at nodup
            exact (List.nodup_append.mp nodup).2.2 a (List.mem_of_head? start) a (List.mem_of_head? rest) rfl
          exact (Function.update_of_ne other _ _).trans (headFirst h a first)
        · rw [rest,ends] at back
          exact back
        · simp only [List.length_drop,h.count]
          omega
        · have nodup := dllNodup h.linked
          rw [← split] at nodup
          exact (List.nodup_append.mp nodup).2.2 c mem c inside rfl

theorem dequeueTailNAgrees {q : MessageQueue} {l : List Block} {k : Int} (h : Rep q l) (ok : k = -1 ∨ 1 ≤ k) :
    ∃ t, q.dequeueTailNI k = some t ∧ Agrees t (answer l (.dequeueTailN k)) := by
  have all := allAgrees h
  have last := (headTail h).2
  unfold dequeueTailNI
  cases end_ : l.getLast? with
  | none =>
    rw [end_] at last
    obtain rfl := List.getLast?_eq_none_iff.1 end_
    rw [last]
    exact ⟨_,rfl,(noneAgrees h k).2⟩
  | some z =>
    have full : l ≠ [] := fun empty => by simp [empty] at end_
    have pos : 0 < l.length := List.length_pos_iff.2 full
    rw [last,end_]
    by_cases whole : k = -1
    · simp only [answer,if_pos whole]
      exact ⟨_,rfl,all⟩
    · have some_ : 1 ≤ k.toNat := by omega
      simp only [answer,if_neg whole]
      rw [skipEq ((last.trans end_) ▸ h.linked.back : Seg q.prev (some z) l.reverse none),List.drop_reverse,
        List.head?_reverse,List.length_reverse]
      have split : l.take (l.length - k.toNat) ++ l.drop (l.length - k.toNat) = l := List.take_append_drop _ _
      cases kept : (l.take (l.length - k.toNat)).getLast? with
      | none =>
        have gone := List.getLast?_eq_none_iff.1 kept
        have short : l.length - k.toNat = 0 := by
          rcases List.take_eq_nil_iff.1 gone with zero | empty
          · exact zero
          · exact absurd empty full
        refine ⟨_,rfl,?_⟩
        rw [short,List.drop_zero,List.take_zero]
        refine ⟨?_,all.chain,all.first,emptyRep q,fun _ _ kept => absurd kept List.not_mem_nil⟩
        simp only [h.count]
        omega
      | some y =>
        obtain ⟨b,first⟩ : ∃ b, (l.drop (l.length - k.toNat)).head? = some b := by
          cases head : (l.drop (l.length - k.toNat)).head? with
          | some b => exact ⟨b,rfl⟩
          | none =>
            have none_ := List.drop_eq_nil_iff.1 (List.head?_eq_none_iff.1 head)
            omega
        obtain ⟨after,_,starts,_⟩ := cutEnds (split.symm ▸ h) kept first
        obtain ⟨front,back⟩ := cutRep (split.symm ▸ h) kept first
        simp only [after,bind,Option.bind]
        refine ⟨_,rfl,takenCount k _,first ▸ back.forth,?_,⟨?_,?_⟩,fun c mem inside => ?_⟩
        · rintro c ⟨⟩
          exact Function.update_self _ _ _
        · rw [starts,kept] at front
          exact front
        · simp only [List.length_take,h.count]
          omega
        · have nodup := dllNodup h.linked
          rw [← split] at nodup
          exact (List.nodup_append.mp nodup).2.2 c inside c mem rfl

theorem applyAgrees {q : MessageQueue} {l : List Block} {op : Op} (h : Rep q l) (ok : Allowed q l op) :
    ∃ t, q.apply op = some t ∧ Agrees t (answer l op) := by
  cases op with
  | link b prev next =>
    have other : ∀ a ∈ l, a ≠ b := fun a mem same => ok (same ▸ mem)
    refine ⟨_,rfl,rfl,rfl,nofun,⟨?_,h.count⟩,nofun⟩
    exact dllCongr h.linked (fun a mem => Function.update_of_ne (other a mem) _ _)
      fun a mem => Function.update_of_ne (other a mem) _ _
  | enqueueTail chain =>
    obtain ⟨full,chain_,apart⟩ := ok
    cases chain with
    | nil => exact absurd rfl full
    | cons a c => exact enqueueTailAgrees h chain_ apart
  | enqueueHead chain =>
    obtain ⟨full,chain_,apart⟩ := ok
    cases chain with
    | nil => exact absurd rfl full
    | cons a c => exact enqueueHeadAgrees h chain_ apart
  | dequeueHead => exact ⟨_,rfl,dequeueHeadAgrees h⟩
  | dequeueTail => exact ⟨_,rfl,dequeueTailAgrees h⟩
  | dequeueHeadN k => exact dequeueHeadNAgrees h ok
  | dequeueTailN k => exact dequeueTailNAgrees h ok

/- The queue next to the list it should stand for, with what the last call gave
back and what it should have. -/
structure Tracked where
  queue : MessageQueue
  ret : Int
  items : Option Block
  expected : Answer

instance (q : MessageQueue) (l : List Block) : (op : Op) → Decidable (Allowed q l op)
  | .link _ _ _ => inferInstanceAs (Decidable (_ ∉ _))
  | .enqueueTail _ => inferInstanceAs (Decidable (_ ∧ _ ∧ _))
  | .enqueueHead _ => inferInstanceAs (Decidable (_ ∧ _ ∧ _))
  | .dequeueHead => isTrue trivial
  | .dequeueTail => isTrue trivial
  | .dequeueHeadN _ => inferInstanceAs (Decidable (_ ∨ _))
  | .dequeueTailN _ => inferInstanceAs (Decidable (_ ∨ _))

/- The state none is one undefined behaviour or a loop without end has led to. -/
def step : Option Tracked → Op → Option (Option Tracked)
  | none, _ => none
  | some s, op =>
    if Allowed s.queue s.expected.blocks op then
      some ((s.queue.apply op).map fun t => ⟨t.queue,t.ret,t.items,answer s.expected.blocks op⟩)
    else none

def start (highWaterMark : Nat) (prev next : Block → Option Block) : Option Tracked :=
  some ⟨make highWaterMark prev next,0,none,⟨0,[],[]⟩⟩

def Refines : Option Tracked → Prop
  | none => False
  | some s => Agrees ⟨s.ret,s.items,s.queue⟩ s.expected

theorem stepRefines {s s' : Option Tracked} {op : Op} (h : Refines s) (steps : step s op = some s') :
    Refines s' := by
  cases s with
  | none => exact absurd h id
  | some s =>
    simp only [step] at steps
    split at steps
    · rename_i ok
      obtain ⟨t,applied,agrees⟩ := applyAgrees h.rep ok
      rw [applied] at steps
      cases Option.some.inj steps
      exact agrees
    · contradiction

theorem refinesList (highWaterMark : Nat) (prev next : Block → Option Block) (ops : List Op) :
    Always step Refines (start highWaterMark prev next) ops := by
  refine alwaysInvariant (fun _ _ _ => stepRefines) ?_ ops
  exact ⟨rfl,rfl,nofun,⟨⟨rfl,rfl⟩,rfl⟩,nofun⟩

/- A chain of two at the tail and one block at the head, of which the tail takes
two. -/
example : (run step (start 8 (fun _ => none) (fun _ => none))
    [.link 1 (some 9) (some 2),.enqueueTail [1,2],.enqueueHead [0],.dequeueTailN 2]).map
      (fun s => s.map fun s => (s.ret,s.items,s.queue.head,s.queue.mbCount)) =
    some (some (2,some 1,some 0,1)) := by decide

end MessageQueue

end CuteNdk
