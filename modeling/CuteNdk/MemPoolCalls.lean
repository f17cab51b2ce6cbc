import CuteNdk.MemPoolGrowth

/-! What the calls on a well pool can do: init, malloc, free, and the program writing in the
blocks it holds. -/
namespace CuteNdk.MemPool
open Lib.Bytes (Memory)

section Malloc
variable {p p₁ q : MemPool} {live : Blocks} {chain chain' : List Nat} {hs hs₁ hs' : Nat → List Nat} {news taken : List New}
  {n size slab : Nat}

theorem uintSmall {a : Nat} (fits : a < 256 ^ 4) : uint a = a := by
  unfold uint
  omega

/- What is rounded up still fits in a slab. -/
theorem roundupFits (w : PoolWell p live chain hs) (fits : n ≤ p.slabSize) :
    uint (mallocRoundup n) = mallocRoundup n ∧ n ≤ mallocRoundup n ∧ mallocRoundup n ≤ p.slabSize ∧
      (n = 0 ↔ mallocRoundup n = 0) := by
  have room := w.room
  have aligned : p.slabSize % 8 = 0 := w.aligned
  have rounds : mallocRoundup n = (n + 7) / 8 * 8 := rfl
  exact ⟨uintSmall (by omega),by omega,by omega,by omega⟩

theorem findsFirst (w : PoolWell p live chain hs) :
    p.findUsableSlab size (p.allocedSlabs + 1) p.slabsHead = some (chain.find? fun z => size ≤ p.maxSize z) :=
  findUsableFinds w.list.forth (by rw [w.counted]; exact Nat.lt_succ_self _)

/- The slab malloc takes its chunk from, and the pool then: one there was, or a new one. -/
inductive Usable (p : MemPool) (chain : List Nat) (hs : Nat → List Nat) (size : Nat) :
    Option (Option Nat) → MemPool → List New → (Nat → List Nat) → Prop
  | found {slab : Nat} (first : chain.find? (fun z => size ≤ p.maxSize z) = some slab) :
    Usable p chain hs size (some (some slab)) p [] hs
  | added {p₁ : MemPool} {new : New} {taken : List New} {hs₁ : Nat → List Nat} (none_ : ∀ z ∈ chain, p.maxSize z < size)
    (below : p.allocedSlabs < p.maxSlabs) : Usable p chain hs size (some (some new.slab)) p₁ (new :: taken) hs₁
  | exhausted (none_ : ∀ z ∈ chain, p.maxSize z < size) (full : p.maxSlabs ≤ p.allocedSlabs) :
    Usable p chain hs size (some none) p [] hs
  | thrown {p₁ : MemPool} {taken : List New} {hs₁ : Nat → List Nat} (none_ : ∀ z ∈ chain, p.maxSize z < size)
    (below : p.allocedSlabs < p.maxSlabs) : Usable p chain hs size none p₁ taken hs₁

theorem usableFinds (size : Nat) (w : PoolWell p live chain hs) (fresh : Fresh p news) :
    ∃ r p₁ taken hs₁, p.usableSlab size news = some (r,p₁) ∧ Usable p chain hs size r p₁ taken hs₁ ∧
      taken <+: news ∧ PoolWell p₁ live (chain ++ taken.map New.slab) hs₁ ∧ Grew p p₁ chain taken hs hs₁ := by
  unfold usableSlab
  rw [findsFirst w]
  simp only [bind,Option.bind]
  have same : PoolWell p live (chain ++ ([] : List New).map New.slab) hs := by
    rwa [List.map_nil,List.append_nil]
  cases first : chain.find? fun z => size ≤ p.maxSize z with
  | some slab => exact ⟨_,p,[],hs,rfl,.found first,List.nil_prefix,same,grewRefl⟩
  | none =>
    have none_ : ∀ z ∈ chain, p.maxSize z < size := fun z mem => by
      have off := List.find?_eq_none.1 first z mem
      simpa using off
    by_cases full : p.maxSlabs ≤ p.allocedSlabs
    · exact ⟨_,p,[],hs,if_pos full,.exhausted none_ full,List.nil_prefix,same,grewRefl⟩
    · unfold Fresh at fresh
      rw [chainIs w] at fresh
      obtain ⟨r,p₁,taken,hs₁,runs,prefix_,well,grew,result,some_⟩ :=
        growsFrom p.preallocSlabNum none w fresh (Nat.not_le.1 full)
      refine ⟨r,p₁,taken,hs₁,(if_neg full).trans runs,?_,prefix_,well,grew⟩
      rcases result with rfl | rfl
      · exact .thrown none_ (Nat.not_le.1 full)
      · cases taken with
        | nil => exact absurd rfl (some_ (Option.some_ne_none _) w.prealloc)
        | cons new taken => exact .added none_ (Nat.not_le.1 full)

/- malloc takes from a slab that has the memory, and where that is a slab there was, the
first in the list. -/
inductive Malloced (p : MemPool) (live : Blocks) (chain : List Nat) (hs : Nat → List Nat) (n : Nat) (news : List New) :
    Nat → MemPool → List Nat → (Nat → List Nat) → List New → Prop
  | large (large : p.slabSize < n) : Malloced p live chain hs n news 0 p chain hs []
  | exhausted (fits : n ≤ p.slabSize) (none_ : ∀ z ∈ chain, p.maxSize z < mallocRoundup n)
    (full : p.maxSlabs ≤ p.allocedSlabs) : Malloced p live chain hs n news 0 p chain hs []
  | thrown {p₁ : MemPool} {taken : List New} {hs₁ : Nat → List Nat} (fits : n ≤ p.slabSize)
    (none_ : ∀ z ∈ chain, p.maxSize z < mallocRoundup n) (grew : Grew p p₁ chain taken hs hs₁)
    (well : PoolWell p₁ live (chain ++ taken.map New.slab) hs₁) :
    Malloced p live chain hs n news 0 { p₁ with locked := true } (chain ++ taken.map New.slab) hs₁ taken
  | took {p₁ q : MemPool} {taken : List New} {hs₁ hs' : Nat → List Nat} {chain' : List Nat} {slab : Nat} {l₁ : List Nat}
    {f : Nat} {l₂ new : List Nat} {m₁ : Memory} {s₁ : SlabHeader} (fits : n ≤ p.slabSize)
    (finds : p.usableSlab (mallocRoundup n) news = some (some (some slab),p₁))
    (usable : Usable p chain hs (mallocRoundup n) (some (some slab)) p₁ taken hs₁)
    (grew : Grew p p₁ chain taken hs hs₁) (well : PoolWell p₁ live (chain ++ taken.map New.slab) hs₁)
    (took : Took p₁ q (chain ++ taken.map New.slab) chain' hs₁ hs' slab l₁ f l₂ (mallocRoundup n) new m₁ s₁)
    (free : ¬ Live live f) : Malloced p live chain hs n news (f + sizeofObjHeader) q chain' hs' taken

theorem largestSome (w : PoolWell p live chain hs) (mem : slab ∈ chain) (some_ : 0 < p.maxSize slab) :
    (p.slabs slab).maxSeriateFreeHead ≠ 0 := by
  intro null
  rcases (w.well slab mem).largest with ⟨_,none_⟩ | ⟨inSlab,_⟩
  · unfold maxSize at some_
    omega
  · have place := chunkPlace w mem inSlab
    have positive := (w.well slab mem).placed.positive
    unfold slabHead at place
    omega

/- What the slab handed to pop_usable_object has to offer. -/
theorem usableOffers (w : PoolWell p live chain hs) (fits : n ≤ p.slabSize)
    (some_ : n ≠ 0 ∨ ∀ z ∈ chain.head?, (p.slabs z).maxSeriateFreeHead ≠ 0)
    (usable : Usable p chain hs (mallocRoundup n) (some (some slab)) p₁ taken hs₁)
    (well : PoolWell p₁ live (chain ++ taken.map New.slab) hs₁) (grew : Grew p p₁ chain taken hs hs₁) :
    slab ∈ chain ++ taken.map New.slab ∧ (p₁.slabs slab).maxSeriateFreeHead ≠ 0 ∧ mallocRoundup n ≤ p₁.maxSize slab := by
  obtain ⟨_,_,most,zero⟩ := roundupFits w fits
  cases usable with
  | found first =>
    have mem := List.mem_of_find?_eq_some first
    have enough : mallocRoundup n ≤ p.maxSize slab := by simpa using List.find?_some first
    refine ⟨List.mem_append_left _ mem,?_,enough⟩
    by_cases none_ : n = 0
    · have all : mallocRoundup n = 0 := zero.1 none_
      refine some_.resolve_left (not_not.2 none_) slab ?_
      cases chain with
      | nil => cases mem
      | cons z l =>
        rw [List.find?_cons,all] at first
        simpa using first
    · exact largestSome w mem (by omega)
  | @added _ new taken _ none_ below =>
    obtain ⟨max,head,at_,_⟩ := grew.new new List.mem_cons_self
    have mem : new.slab ∈ chain ++ (new :: taken).map New.slab := by simp
    have positive := (well.well new.slab mem).placed.positive
    refine ⟨mem,?_,?_⟩
    · rw [head]
      unfold slabHead at at_
      omega
    · rw [max]
      exact most

theorem poolMallocs (w : PoolWell p live chain hs) (fresh : Fresh p news)
    (some_ : n ≠ 0 ∨ ∀ z ∈ chain.head?, (p.slabs z).maxSeriateFreeHead ≠ 0) :
    ∃ r q chain' hs' taken, p.malloc n news = some (r,q) ∧ Malloced p live chain hs n news r q chain' hs' taken ∧
      taken <+: news ∧ chain'.Perm (chain ++ taken.map New.slab) ∧ PoolWell q (if r = 0 then live else (r,n) :: live) chain' hs' := by
  by_cases large : p.slabSize < n
  · refine ⟨0,p,chain,hs,[],if_pos large,.large large,List.nil_prefix,?_,?_⟩
    · rw [List.map_nil,List.append_nil]
    · rwa [if_pos rfl]
  · have fits := Nat.not_lt.1 large
    obtain ⟨isSize,asked,_,_⟩ := roundupFits w fits
    obtain ⟨r,p₁,taken,hs₁,finds,usable,prefix_,well,grew⟩ := usableFinds (mallocRoundup n) w fresh
    unfold malloc
    rw [if_neg large]
    simp only [isSize,finds,bind,Option.bind]
    match r with
    | none =>
      have none_ : ∀ z ∈ chain, p.maxSize z < mallocRoundup n := by
        cases usable with
        | thrown none_ below => exact none_
      refine ⟨0,_,_,_,taken,rfl,.thrown fits none_ grew well,prefix_,List.Perm.refl _,?_⟩
      rw [if_pos rfl]
      exact ⟨well.list,well.counted,well.bounded,well.prealloc,well.room,well.aligned,well.ordered,well.apart,well.well,
        well.held,well.distinct⟩
    | some none =>
      cases usable with
      | exhausted none_ full =>
        refine ⟨0,p,chain,hs,[],rfl,.exhausted fits none_ full,prefix_,?_,?_⟩
        · rw [List.map_nil,List.append_nil]
        · rwa [if_pos rfl]
    | some (some slab) =>
      obtain ⟨here,head,enough⟩ := usableOffers w fits some_ usable well grew
      obtain ⟨q₁,q,f,chain',hs',l₁,l₂,new,m₁,s₁,pops,ajusts,took,free,well'⟩ := poolTakes well here head enough asked
      have sizeof : sizeofObjHeader = 32 := rfl
      have some_ : f + sizeofObjHeader ≠ 0 := by omega
      refine ⟨f + sizeofObjHeader,q,chain',hs',taken,?_,.took fits finds usable grew well took free,prefix_,took.perm,?_⟩
      · simp only [pops,ajusts]
      · rwa [if_neg some_]

end Malloc

section Program
variable {p p₀ : MemPool} {live : Blocks} {chain : List Nat} {hs : Nat → List Nat} {news : List New} {a : Nat}

/- No header lies where a block does. -/
theorem blockApart (w : PoolWell p live chain hs) {b : Nat × Nat} (mem : b ∈ live) {slab h : Nat} (here : slab ∈ chain)
    (memH : h ∈ hs slab) : b.1 + b.2 ≤ h ∨ h + sizeofObjHeader ≤ b.1 := by
  obtain ⟨slab',here',h',memH',isAt,fits⟩ := w.held b mem
  have place := chunkPlace w here memH
  have place' := chunkPlace w here' memH'
  by_cases sameSlab : slab' = slab
  · subst sameSlab
    by_cases same : h' = h
    · omega
    · have apart := chunksApart (w.well slab' here').chunks memH' memH same
      omega
  · have apart := w.apart slab' here' slab here sameSlab
    unfold Beside at apart
    unfold slabEnd slabHead at *
    omega

theorem poolWrites (byte : UInt8) (w : PoolWell p live chain hs) {b : Nat × Nat} (mem : b ∈ live) (low : b.1 ≤ a) (high : a < b.1 + b.2) :
    PoolWell { p with mem := Function.update p.mem a byte } live chain hs ∧
      ∀ slab ∈ chain, ∀ h ∈ hs slab, header (Function.update p.mem a byte) h = header p.mem h := by
  have headers : ∀ slab ∈ chain, ∀ h ∈ hs slab, header (Function.update p.mem a byte) h = header p.mem h := by
    intro slab here h memH
    have apart := blockApart w mem here memH
    exact headerCongr fun x low' high' => Function.update_of_ne (by omega) _ _
  refine ⟨⟨w.list,w.counted,w.bounded,w.prealloc,w.room,w.aligned,w.ordered,w.apart,fun slab here => ?_,fun c memC => ?_,
    w.distinct⟩,headers⟩
  · exact slabWellCongr (w.well slab here) rfl (headers slab here) fun _ _ => Iff.rfl
  · obtain ⟨slab,here,h,memH,isAt,fits⟩ := w.held c memC
    refine ⟨slab,here,h,memH,isAt,?_⟩
    change c.2 ≤ (header (Function.update p.mem a byte) h).size
    rwa [headers slab here h memH]

/- A pool that has no slabs: a new one, also after calls of init that have failed. -/
def Unused (p : MemPool) : Prop := p.allocedSlabs = 0 ∧ p.slabsHead = none ∧ p.slabsTail = none

instance (p : MemPool) : Decidable (Unused p) :=
  inferInstanceAs (Decidable (p.allocedSlabs = 0 ∧ p.slabsHead = none ∧ p.slabsTail = none))

theorem makeUnused (m : Memory) : Unused (make m) := ⟨rfl,rfl,rfl⟩

/- The members as init sets them before it allocates. -/
structure Sized (p₀ p₁ : MemPool) : Prop where
  pool : p₁ = { p₀ with
    slabSize := p₁.slabSize, maxSlabs := p₁.maxSlabs, preallocSlabNum := p₁.preallocSlabNum }
  prealloc : 0 < p₁.preallocSlabNum
  room : p₁.slabSize < 256 ^ 4
  aligned : p₁.slabSize % mallocAlign = 0

theorem initSizes {slabSize prealloc maxSlabs : Int} (inits : p₀.init slabSize prealloc maxSlabs news = some (some 0,p)) :
    ∃ p₁ r, Sized p₀ p₁ ∧ p₁.allocSlabs p₁.preallocSlabNum news = some (some r,p) := by
  have aligned : uint (mallocRoundup (uint slabSize)) % mallocAlign = 0 := by
    have rounds : mallocRoundup (uint slabSize) = (uint slabSize + 7) / 8 * 8 := rfl
    have align : mallocAlign = 8 := rfl
    rw [rounds,align]
    unfold uint
    omega
  have room : uint (mallocRoundup (uint slabSize)) < 256 ^ 4 := by
    unfold uint
    omega
  unfold init at inits
  by_cases none_ : maxSlabs ≤ 0
  · rw [if_pos none_] at inits
    cases inits
  · rw [if_neg none_] at inits
    dsimp only at inits
    by_cases small : uint slabSize ≤ sizeofObjHeader
    · rw [if_pos small] at inits
      cases inits
    · rw [if_neg small] at inits
      obtain ⟨⟨r,q⟩,allocs,result⟩ := Option.map_eq_some_iff.1 inits
      cases r with
      | none => cases result
      | some r =>
        cases result
        refine ⟨_,r,?_,allocs⟩
        by_cases default : uint prealloc ≤ 0
        · rw [if_pos default]
          exact ⟨rfl,show 0 < preallocSlabs by decide,room,aligned⟩
        · rw [if_neg default]
          exact ⟨rfl,Nat.not_le.1 default,room,aligned⟩

theorem sizedWell {p₁ : MemPool} (unused : Unused p₀) (sized : Sized p₀ p₁) : PoolWell p₁ [] [] fun _ => [] := by
  obtain ⟨alloced,head,tail⟩ := unused
  obtain ⟨pool,prealloc,room,aligned⟩ := sized
  have isHead : p₁.slabsHead = none := by rw [pool,head]
  have isTail : p₁.slabsTail = none := by rw [pool,tail]
  have isAlloced : p₁.allocedSlabs = 0 := by rw [pool,alloced]
  refine ⟨⟨isHead,isTail⟩,isAlloced.symm,?_,prealloc,room,aligned,List.Pairwise.nil,nofun,nofun,nofun,List.nodup_nil⟩
  rw [isAlloced]
  exact Nat.zero_le _

theorem allocSameSize {count : Nat} {retVal : Option Nat} {r : Option (Option Nat)} {p q : MemPool} {news : List New}
    (allocs : allocSlabsFrom count retVal news p = some (r,q)) : q.slabSize = p.slabSize := by
  induction count generalizing retVal news p with
  | zero =>
    cases allocs
    rfl
  | succ count ih =>
    cases news with
    | nil =>
      cases allocs
      rfl
    | cons new news =>
      rw [allocSlabsFrom] at allocs
      obtain ⟨p₁,pushes,allocs⟩ := Option.bind_eq_some_iff.1 allocs
      have same : p₁.slabSize = p.slabSize := by
        unfold pushSlab at pushes
        split at pushes <;> cases pushes <;> rfl
      dsimp only at allocs
      split at allocs
      · cases allocs
        exact same
      · exact (ih allocs).trans same

theorem initWell {slabSize prealloc maxSlabs : Int} (unused : Unused p₀)
    (inits : p₀.init slabSize prealloc maxSlabs news = some (some 0,p))
    (fresh : Fresh { p₀ with slabSize := p.slabSize } news) :
    ∃ (p₁ : MemPool) (taken : List New) (hs : Nat → List Nat), taken <+: news ∧ PoolWell p [] (taken.map New.slab) hs ∧
      Grew p₁ p [] taken (fun _ => []) hs ∧ p.allocedSlabs = taken.length := by
  obtain ⟨p₁,r,sized,allocs⟩ := initSizes inits
  have well := sizedWell unused sized
  have isAlloced : p₁.allocedSlabs = 0 := by rw [sized.pool,unused.1]
  unfold allocSlabs at allocs
  by_cases full : p₁.maxSlabs ≤ p₁.allocedSlabs
  · rw [if_pos full] at allocs
    cases allocs
    exact ⟨_,[],_,List.nil_prefix,well,grewRefl,isAlloced⟩
  · rw [if_neg full] at allocs
    have fresh₁ : FreshIn p₁ [] news := by
      have size := allocSameSize allocs
      unfold Fresh slabChain at fresh
      rw [show ({ p₀ with slabSize := p.slabSize } : MemPool).allocedSlabs = 0 from unused.1] at fresh
      unfold FreshIn at fresh ⊢
      rwa [size] at fresh
    obtain ⟨r,q,taken,hs,runs,prefix_,well',grew,_⟩ := growsFrom _ none well fresh₁ (Nat.not_le.1 full)
    rw [allocs] at runs
    cases runs
    refine ⟨p₁,taken,hs,prefix_,well',grew,?_⟩
    rw [grew.alloced,isAlloced,Nat.zero_add]

end Program

end CuteNdk.MemPool
