import CuteNdk.MessageQueue

/-! dequeue_head_n_i and dequeue_tail_n_i for every count. All blocks are asked for by -1;
any other negative count takes none, and the end of the queue is unlinked from nothing. -/
namespace CuteNdk.MessageQueue
open Lib (Seg Dll dllFirst dllLast)

/- No null pointer is followed, the result is how many blocks were taken, and the blocks
taken and those left are the ones there were. -/
def Shortens (l : List Block) (r : Option Taken) : Prop :=
  ∃ t out rest, r = some t ∧ t.ret = out.length ∧ Seg t.queue.next t.items out none ∧ Rep t.queue rest ∧
    (out ++ rest).Perm l

section Counts
variable {q : MessageQueue} {l : List Block} {number : Int}

theorem answerSplits (number : Int) (l : List Block) :
    ((answer l (.dequeueHeadN number)).ret = (answer l (.dequeueHeadN number)).out.length ∧
      (answer l (.dequeueHeadN number)).out ++ (answer l (.dequeueHeadN number)).blocks = l) ∧
    (answer l (.dequeueTailN number)).ret = (answer l (.dequeueTailN number)).out.length ∧
      (answer l (.dequeueTailN number)).blocks ++ (answer l (.dequeueTailN number)).out = l := by
  simp only [answer]
  split
  · exact ⟨⟨rfl,List.append_nil l⟩,rfl,List.nil_append l⟩
  · refine ⟨⟨?_,List.take_append_drop _ _⟩,?_,List.take_append_drop _ _⟩
    · simp only [List.length_take]
      omega
    · simp only [List.length_drop]
      omega

theorem headShortens (h : Rep q l) (ok : number = -1 ∨ 1 ≤ number) : Shortens l (q.dequeueHeadNI number) := by
  obtain ⟨t,runs,agrees⟩ := dequeueHeadNAgrees h ok
  obtain ⟨⟨ret,split⟩,_⟩ := answerSplits number l
  exact ⟨t,_,_,runs,agrees.ret.trans ret,agrees.chain,agrees.rep,.of_eq split⟩

theorem tailShortens (h : Rep q l) (ok : number = -1 ∨ 1 ≤ number) : Shortens l (q.dequeueTailNI number) := by
  obtain ⟨t,runs,agrees⟩ := dequeueTailNAgrees h ok
  obtain ⟨_,ret,split⟩ := answerSplits number l
  exact ⟨t,_,_,runs,agrees.ret.trans ret,agrees.chain,agrees.rep,List.perm_append_comm.trans (.of_eq split)⟩

/- The first block is still head_, and nothing is before it. -/
theorem headFollowsNull (h : Rep q l) (some' : l ≠ []) (low : number < -1) : q.dequeueHeadNI number = none := by
  cases l with
  | nil => exact absurd rfl some'
  | cons a l =>
    have head : q.head = some a := (headTail h).1
    have none' : number.toNat = 0 := by omega
    have before : q.prev a = none := (dllFirst h.linked).2
    have most : number ≠ -1 := by omega
    simp only [dequeueHeadNI,head,most,if_false,none',skip,before,bind,Option.bind]

/- The last block is still tail_, and nothing is after it. -/
theorem tailFollowsNull (h : Rep q l) (some' : l ≠ []) (low : number < -1) : q.dequeueTailNI number = none := by
  cases List.eq_nil_or_concat' l with
  | inl empty => exact absurd empty some'
  | inr long =>
    obtain ⟨l,z,rfl⟩ := long
    have tail : q.tail = some z := (headTail h).2.trans List.getLast?_concat
    have none' : number.toNat = 0 := by omega
    have after : q.next z = none := (dllLast h.linked).1
    have most : number ≠ -1 := by omega
    simp only [dequeueTailNI,tail,most,if_false,none',skip,after,bind,Option.bind]

theorem notShortens {r : Option Taken} (null : r = none) : ¬Shortens l r := by
  intro ⟨t,_,_,runs,_⟩
  cases null.symm.trans runs

end Counts

theorem shortensFromMinusOne {q : MessageQueue} {l : List Block} {number : Int} (h : Rep q l) (some' : l ≠ [])
    (asked : number ≠ 0) :
    (Shortens l (q.dequeueHeadNI number) ↔ -1 ≤ number) ∧ (Shortens l (q.dequeueTailNI number) ↔ -1 ≤ number) := by
  have counts : number < -1 ∨ number = -1 ∨ 1 ≤ number := by omega
  cases counts with
  | inl low =>
    have off := Int.not_le.mpr low
    exact ⟨iff_of_false (notShortens (headFollowsNull h some' low)) off,
      iff_of_false (notShortens (tailFollowsNull h some' low)) off⟩
  | inr ok =>
    have high : -1 ≤ number := by omega
    exact ⟨iff_of_true (headShortens h ok) high,iff_of_true (tailShortens h ok) high⟩

/- Blocks 1 and 2. -/
def twoBlocks : MessageQueue where
  mbCount := 2
  highWaterMark := 9
  head := some 1
  tail := some 2
  prev := fun b => if b = 2 then some 1 else none
  next := fun b => if b = 1 then some 2 else none

theorem twoBlocksRep : Rep twoBlocks [1,2] := ⟨⟨by decide,by decide⟩,rfl⟩

theorem takesThreeOfTwo : (Shortens [1,2] (twoBlocks.dequeueHeadNI 3) ↔ -1 ≤ (3 : Int)) ∧
    (Shortens [1,2] (twoBlocks.dequeueTailNI 3) ↔ -1 ≤ (3 : Int)) :=
  shortensFromMinusOne twoBlocksRep (by decide) (by decide)

theorem minusTwoFollowsNull : ¬ ∀ (q : MessageQueue) (l : List Block) (number : Int), Rep q l → l ≠ [] → number ≠ 0 →
    Shortens l (q.dequeueHeadNI number) ∧ Shortens l (q.dequeueTailNI number) := by
  intro claim
  have both := claim twoBlocks [1,2] (-2) twoBlocksRep (by decide) (by decide)
  exact notShortens (headFollowsNull twoBlocksRep (by decide) (by decide)) both.1

end CuteNdk.MessageQueue
