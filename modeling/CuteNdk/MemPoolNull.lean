import CuteNdk.MemPoolRuns

/-! What malloc hands to pop_usable_object. A slab that is full has no chunk to offer, but
its 0 bytes are enough for a request of 0 bytes. -/
namespace CuteNdk.MemPool
open Lib (run Along alongIff)

/- The slab has a chunk, and the chunk has the bytes asked for. -/
def Handed (t : Session) : Op → Prop
  | .malloc size news => t.pool.locked = true ∨ t.pool.slabSize < size ∨
    ∀ r ∈ t.pool.handed (uint (mallocRoundup size)) news,
      (r.2.slabs r.1).maxSeriateFreeHead ≠ 0 ∧ uint (mallocRoundup size) ≤ (r.2.slabs r.1).maxSeriateSize
  | _ => True

/- And no null pointer is followed. -/
def Sound (s : Option Session) (op : Op) : Prop := ∀ t, s = some t → Handed t op ∧ apply t op ≠ none

def NotFull (s : Option Session) (op : Op) : Prop := ∀ t, s = some t → Poppable t op

section Null
variable {t : Session} {chain : List Nat} {hs : Nat → List Nat} {op : Op} {least : Nat}

theorem handedOf (w : PoolWell t.pool t.live chain hs) (allowed : Allowed least t op) (poppable : Poppable t op) :
    Handed t op := by
  cases op with
  | malloc n news =>
    refine or_iff_not_imp_left.2 fun unlocked => or_iff_not_imp_left.2 fun small ⟨slab,p⟩ hands => ?_
    have fits := Nat.not_lt.1 small
    have some_ : n ≠ 0 ∨ ∀ z ∈ chain.head?, (t.pool.slabs z).maxSeriateFreeHead ≠ 0 := by
      rw [← (Lib.dllEnds w.list).1]
      exact poppable.resolve_left unlocked
    obtain ⟨r,p₁,taken,hs₁,finds',usable,_,well,grew⟩ := usableFinds (mallocRoundup n) w allowed.2.2
    rw [(roundupFits w fits).1] at hands ⊢
    rw [handedSlab.1 hands] at finds'
    cases finds'
    obtain ⟨_,head,enough⟩ := usableOffers w fits some_ usable well grew
    exact ⟨head,enough⟩
  | free memory => trivial
  | write a byte => trivial

/- The first slab is the first that has 0 bytes. -/
theorem fullFirst (w : PoolWell t.pool t.live chain hs) (handed : Handed t op) : Poppable t op := by
  cases op with
  | malloc n news =>
    refine or_iff_not_imp_left.2 fun unlocked => or_iff_not_imp_left.2 fun zero z isFirst => ?_
    obtain rfl := not_not.1 zero
    have offers := (handed.resolve_left unlocked).resolve_left (Nat.not_lt_zero _) (z,t.pool)
    refine (offers (handedSlab.2 ?_)).1
    have first : chain.find? (fun z => 0 ≤ t.pool.maxSize z) = some z := by
      rw [(Lib.dllEnds w.list).1] at isFirst
      cases chain with
      | nil => cases isFirst
      | cons a l =>
        cases isFirst
        rfl
    unfold usableSlab
    rw [show uint (mallocRoundup 0) = 0 from rfl,findsFirst w,first]
    rfl
  | free memory => trivial
  | write a byte => trivial

theorem soundIffNotFull {p₀ p : MemPool} {slabSize prealloc maxSlabs : Int} {news : List New} (unused : Unused p₀)
    (inits : p₀.init slabSize prealloc maxSlabs news = some (some 0,p))
    (fresh : Fresh { p₀ with slabSize := p.slabSize } news) (ops : List Op) :
    Along (step 0) Sound (some (started p news)) ops ↔ Along (step 0) NotFull (some (started p news)) ops := by
  have keeps : ∀ s op s', Well s → NotFull s op → step 0 s op = some s' → Well s' := fun s op s' well notFull steps =>
    stepWell well (fun t isT _ => notFull t isT) steps
  refine alongIff keeps (fun s op s' well steps => ?_) (startedWell unused inits fresh) ops
  · obtain ⟨t,chain,hs,rfl,w,perm⟩ := well
    have allowed := (stepAllowed steps).1
    constructor
    · intro sound t' isT
      cases isT
      exact fullFirst w (sound t rfl).1
    · intro notFull t' isT
      cases isT
      have poppable := notFull t rfl
      obtain ⟨t',_,_,applies,_⟩ := applySteps w perm allowed poppable
      exact ⟨handedOf w allowed poppable,by simp [applies]⟩

theorem emptyOnFull :
    ¬ Along (step 0) Sound (some (started dirtyPool [⟨4096,9⟩,⟨8192,5⟩])) [.malloc 200 [],.malloc 0 []] := by
  intro along
  have second := (along _ rfl).2 _ rfl
  exact (second.1 _ rfl).2 rfl

/- A slab is filled, and 0 bytes are asked for. -/
theorem soundIffNotFullInRun :
    (run (step 0) (some (started dirtyPool [⟨4096,9⟩,⟨8192,5⟩])) [.malloc 200 [],.malloc 0 []]).isSome = true ∧
    (Along (step 0) Sound (some (started dirtyPool [⟨4096,9⟩,⟨8192,5⟩])) [.malloc 200 [],.malloc 0 []] ↔
      Along (step 0) NotFull (some (started dirtyPool [⟨4096,9⟩,⟨8192,5⟩])) [.malloc 200 [],.malloc 0 []]) :=
  ⟨by decide +kernel,soundIffNotFull ⟨rfl,rfl,rfl⟩ dirtyInits (by decide +kernel) _⟩

end Null

end CuteNdk.MemPool
