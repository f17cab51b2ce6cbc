import CuteNdk.MemPoolRuns

/-! The list of slabs is in order of what they can offer in one piece, so the first slab
with enough is the one that fits best. -/
namespace CuteNdk.MemPool
open Lib (run dllNodup Always alwaysMono)

/- What find_usable_slab finds. -/
structure BestFit (p : MemPool) (size : Nat) (found : Option Nat) : Prop where
  fits : ∀ slab ∈ found, slab ∈ p.slabChain ∧ size ≤ p.maxSize slab ∧
    ∀ z ∈ p.slabChain, size ≤ p.maxSize z → p.maxSize slab ≤ p.maxSize z
  none_ : found = none ↔ ∀ z ∈ p.slabChain, p.maxSize z < size

/- SlabList says that the links lead from slabs_head_ over slabChain to the end, and from
slabs_tail_ over the same slabs back. -/
structure InOrder (t : Session) : Prop where
  list : SlabList t.pool t.pool.slabChain
  once : t.pool.slabChain.Nodup
  all : t.pool.slabChain.Perm t.allocated
  counted : t.pool.allocedSlabs = t.pool.slabChain.length
  bounded : t.pool.allocedSlabs ≤ t.pool.maxSlabs
  ordered : Ordered t.pool t.pool.slabChain
  finds : ∀ size, ∃ found, t.pool.findUsableSlab size (t.pool.allocedSlabs + 1) t.pool.slabsHead = some found ∧
    BestFit t.pool size found

section Order
variable {p : MemPool} {live : Blocks} {chain : List Nat} {hs : Nat → List Nat}

theorem bestFit (w : PoolWell p live chain hs) (size : Nat) : BestFit p size (chain.find? fun z => size ≤ p.maxSize z) := by
  rw [← chainIs w]
  have ordered := w.ordered
  rw [← chainIs w] at ordered
  refine ⟨fun slab found => ?_,?_⟩
  · obtain ⟨enough,l₁,l₂,split,passed⟩ := List.find?_eq_some_iff_append.1 found
    refine ⟨List.mem_of_find?_eq_some found,of_decide_eq_true enough,fun z mem fits => ?_⟩
    rw [split] at mem ordered
    rcases List.mem_append.1 mem with before | after
    · have less := passed z before
      simp only [Bool.not_eq_true',decide_eq_false_iff_not] at less
      exact absurd fits less
    · rcases List.mem_cons.1 after with rfl | after
      · exact Nat.le_refl _
      · exact (List.pairwise_cons.1 (List.pairwise_append.1 ordered).2.1).1 z after
  · rw [List.find?_eq_none]
    simp

theorem inOrderOf {t : Session} (w : PoolWell t.pool t.live chain hs) (perm : chain.Perm t.allocated) : InOrder t := by
  have isChain := chainIs w
  refine ⟨?_,?_,?_,?_,w.bounded,?_,fun size => ⟨_,findsFirst w,bestFit w size⟩⟩ <;> rw [isChain]
  · exact w.list
  · exact dllNodup w.list
  · exact perm
  · exact w.counted.symm
  · exact w.ordered

theorem orderKept {p₀ p : MemPool} {slabSize prealloc maxSlabs : Int} {news : List New} (unused : Unused p₀)
    (inits : p₀.init slabSize prealloc maxSlabs news = some (some 0,p))
    (fresh : Fresh { p₀ with slabSize := p.slabSize } news) (ops : List Op) :
    Always (step 1) (fun s => ∃ t, s = some t ∧ InOrder t) (some (started p news)) ops := by
  refine alwaysMono (fun s well => ?_) (runsWell (startedWell unused inits fresh) ops)
  obtain ⟨t,chain,hs,isT,w,perm⟩ := well
  exact ⟨t,isT,inOrderOf w perm⟩

/- Both slabs are filled, a third one comes, and a block of the second is given back. -/
theorem orderKeptInRun :
    (run (step 1) (some (started dirtyPool [⟨4096,9⟩,⟨8192,5⟩])) [.malloc 200 [],.malloc 150 [],
      .malloc 100 [⟨12288,7⟩],.malloc 60 [],.free 8224]).isSome = true ∧
    Always (step 1) (fun s => ∃ t, s = some t ∧ InOrder t) (some (started dirtyPool [⟨4096,9⟩,⟨8192,5⟩]))
      [.malloc 200 [],.malloc 150 [],.malloc 100 [⟨12288,7⟩],.malloc 60 [],.free 8224] :=
  ⟨by decide +kernel,orderKept ⟨rfl,rfl,rfl⟩ dirtyInits (by decide +kernel) _⟩

end Order

end CuteNdk.MemPool
