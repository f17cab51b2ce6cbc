import CuteNdk.MemPoolState

/-! New slabs: alloc_slabs puts them at the end of the list, and the pool is as well as
before when new gives memory that nothing else lies in. -/
namespace CuteNdk.MemPool
open Lib.Bytes (Memory storeOutside)
open Lib (dllCongr walk walkSeg)

def slabChain (p : MemPool) : List Nat := walk p.slabNext p.allocedSlabs p.slabsHead

/- What new promises: memory for a slab that no other slab lies in, and other slab headers. -/
def FreshIn (p : MemPool) (chain : List Nat) (news : List New) : Prop :=
  (chain ++ news.map New.slab).Nodup ∧ (chain.map p.slabHead ++ news.map New.memory).Pairwise (Beside p.slabSize) ∧
    ∀ new ∈ news, 0 < new.memory ∧ new.memory + sizeofObjHeader + p.slabSize ≤ 256 ^ 8 ∧ new.slab < 256 ^ 8

instance (p : MemPool) (chain : List Nat) (news : List New) : Decidable (FreshIn p chain news) := by
  unfold FreshIn
  infer_instance

def Fresh (p : MemPool) (news : List New) : Prop := FreshIn p p.slabChain news

instance (p : MemPool) (news : List New) : Decidable (Fresh p news) := by
  unfold Fresh
  infer_instance

section Init
variable {p q : MemPool} {live : Blocks} {chain : List Nat} {hs : Nat → List Nat} {m : Memory} {new : New} {news : List New}

theorem chainIs (w : PoolWell p live chain hs) : p.slabChain = chain := by
  unfold slabChain
  exact walkSeg w.list.forth (Nat.le_of_eq w.counted)

theorem initObjectHeader (memory : Nat) {slab size : Nat} (owner : slab < 256 ^ 8) (fits : size < 256 ^ 4) :
    header (initObject m memory slab size) memory = ⟨(header m memory).inuse,size,slab,0,0⟩ := by
  unfold initObject
  rw [headerSetNext (by decide),headerSetPrev (by decide),headerSetSlab owner,headerSetSize fits]

theorem initObjectOutside {memory slab size a : Nat} (out : a < memory ∨ memory + sizeofObjHeader ≤ a) :
    initObject m memory slab size a = m a := by
  have sizeof : sizeofObjHeader = 32 := rfl
  unfold initObject setNext setPrev setSlab setSize
  rw [storeOutside (by omega),storeOutside (by omega),storeOutside (by omega),storeOutside (by omega)]

theorem maxBound (w : PoolWell p live chain hs) {z : Nat} (here : z ∈ chain) : p.maxSize z ≤ p.slabSize := by
  unfold maxSize
  rcases (w.well z here).largest with ⟨_,none_⟩ | ⟨mem,_,size⟩
  · omega
  · have place := chunkPlace w here mem
    unfold slabEnd slabHead at place
    omega

/- The slabs there were have not changed, and each new one is a single chunk. -/
structure Grew (p q : MemPool) (chain : List Nat) (taken : List New) (hs hs' : Nat → List Nat) : Prop where
  size : q.slabSize = p.slabSize
  locked : q.locked = p.locked
  alloced : q.allocedSlabs = p.allocedSlabs + taken.length
  chunks : ∀ z ∈ chain, hs' z = hs z
  slabs : ∀ z ∈ chain, q.slabs z = { p.slabs z with prev := (q.slabs z).prev, next := (q.slabs z).next }
  headers : ∀ z ∈ chain, ∀ h ∈ hs z, header q.mem h = header p.mem h
  new : ∀ n ∈ taken, q.maxSize n.slab = p.slabSize ∧ (q.slabs n.slab).maxSeriateFreeHead = n.memory ∧
    q.slabHead n.slab = n.memory ∧ hs' n.slab = [n.memory]
  outside : ∀ a, (∀ n ∈ taken, a < n.memory ∨ n.memory + sizeofObjHeader ≤ a) → q.mem a = p.mem a

/- A slab of one chunk, as newSlab sets it up. -/
theorem loneSlabWell {memory slab size : Nat} (positive : 0 < memory) (high : memory + sizeofObjHeader + size ≤ 256 ^ 8)
    (owner : slab < 256 ^ 8) (fits : size < 256 ^ 4) (notLive : ¬ Live live memory) :
    SlabWell (initObject m memory slab size) size ⟨0,size,memory,memory,none,none⟩ slab live [memory] := by
  have isHeader := initObjectHeader (m := m) memory owner fits
  refine ⟨⟨positive,high,?_⟩,owner,⟨⟨?_,?_⟩,⟨rfl,?_⟩,fun h mem => ?_⟩,.inr ⟨List.mem_singleton_self _,notLive,?_⟩,
    fun h mem isLive => ?_,?_⟩
  · unfold slabEnd
    dsimp only
    omega
  · exact ⟨rfl,by unfold nextOf; rw [isHeader]; rfl⟩
  · exact ⟨rfl,by unfold prevOf; rw [isHeader]; rfl⟩
  · change memory + extent (header (initObject m memory slab size)) memory = slabEnd size _
    unfold extent slabEnd
    rw [isHeader]
    dsimp only
    omega
  · cases List.mem_singleton.1 mem
    rw [isHeader]
  · dsimp only
    rw [isHeader]
  · cases List.mem_singleton.1 mem
    exact absurd isLive notLive
  · rw [objsCons,if_neg notLive]
    rfl

/- No block lies in memory beside the slabs. -/
theorem besideNotLive (w : PoolWell p live chain hs) {memory : Nat}
    (apart : ∀ z ∈ chain, Beside p.slabSize (p.slabHead z) memory) : ¬ Live live memory := fun isLive => by
  have sizeof : sizeofObjHeader = 32 := rfl
  obtain ⟨b,mem,at_⟩ := List.mem_map.1 isLive
  obtain ⟨z,here,h,memH,isAt,_⟩ := w.held b mem
  have place := chunkPlace w here memH
  have besides := apart z here
  unfold Beside at besides
  unfold slabEnd slabHead at *
  omega

/- One turn of the loop. -/
theorem newSlabWell (w : PoolWell p live chain hs) (below : p.allocedSlabs < p.maxSlabs) (fresh : FreshIn p chain (new :: news)) :
    ∃ q, (p.newSlab new).pushSlab new.slab = some q ∧ q.allocedSlabs = p.allocedSlabs ∧
      PoolWell { q with allocedSlabs := q.allocedSlabs + 1 } live (chain ++ [new.slab])
        (Function.update hs new.slab [new.memory]) ∧
      Grew p { q with allocedSlabs := q.allocedSlabs + 1 } chain [new] hs (Function.update hs new.slab [new.memory]) := by
  have sizeof : sizeofObjHeader = 32 := rfl
  obtain ⟨nodup,beside,bounds⟩ := fresh
  obtain ⟨positive,high,owner⟩ := bounds new List.mem_cons_self
  have off : new.slab ∉ chain := fun mem =>
    (List.nodup_append.1 nodup).2.2 new.slab mem new.slab List.mem_cons_self rfl
  have apart : ∀ z ∈ chain, Beside p.slabSize (p.slabHead z) new.memory := fun z mem =>
    (List.pairwise_append.1 beside).2.2 _ (List.mem_map_of_mem mem) _ List.mem_cons_self
  have others : ∀ z ∈ chain, (p.newSlab new).slabs z = p.slabs z := fun z mem =>
    Function.update_of_ne (fun same : z = new.slab => off (same ▸ mem)) _ _
  have atNew : (p.newSlab new).slabs new.slab = ⟨0,p.slabSize,new.memory,new.memory,none,none⟩ := Function.update_self _ _ _
  have list : SlabList (p.newSlab new) chain := dllCongr w.list (fun z mem => congrArg SlabHeader.next (others z mem))
    fun z mem => congrArg SlabHeader.prev (others z mem)
  obtain ⟨q,pushes,list',relinked⟩ := pushSlabList list off (by unfold slabNext; rw [atNew]) (by unfold slabPrev; rw [atNew])
  refine ⟨q,pushes,?_,?_⟩
  · rw [relinked.pool]
    rfl
  have qMem : q.mem = initObject p.mem new.memory new.slab p.slabSize := by
    rw [relinked.pool]
    rfl
  have qSize : q.slabSize = p.slabSize := by
    rw [relinked.pool]
    rfl
  have heads : ∀ z ∈ chain, q.slabHead z = p.slabHead z := fun z mem => by
    unfold slabHead
    rw [relinked.slab z,others z mem]
  have newHead : q.slabHead new.slab = new.memory := by
    unfold slabHead
    rw [relinked.slab,atNew]
  have maxes : ∀ z ∈ chain, q.maxSize z = p.maxSize z := fun z mem => by
    rw [relinkedMax relinked]
    unfold maxSize
    rw [others z mem]
  have newMax : q.maxSize new.slab = p.slabSize := by
    rw [relinkedMax relinked]
    unfold maxSize
    rw [atNew]
  have sameHeader : ∀ z ∈ chain, ∀ h ∈ hs z, header q.mem h = header p.mem h := fun z mem h memH => by
    have place := chunkPlace w mem memH
    have besides := apart z mem
    unfold Beside at besides
    unfold slabEnd slabHead at *
    rw [qMem]
    exact headerCongr fun a low high => initObjectOutside (by omega)
  have notLive := besideNotLive w apart
  refine ⟨⟨list',?_,?_,?_,?_,?_,?_,fun a memA b memB other => ?_,fun z mem => ?_,fun b mem => ?_,w.distinct⟩,
    ⟨qSize,?_,?_,fun z mem => ?_,fun z mem => ?_,sameHeader,fun n mem => ?_,fun a out => ?_⟩⟩
  · rw [List.length_append,w.counted,relinked.pool]
    rfl
  · rw [relinked.pool]
    exact below
  · rw [relinked.pool]
    exact w.prealloc
  · rw [relinked.pool]
    exact w.room
  · rw [relinked.pool]
    exact w.aligned
  · refine List.pairwise_append.2 ⟨orderedCongr w.ordered maxes,List.pairwise_singleton _ _,fun a memA b memB => ?_⟩
    cases List.mem_singleton.1 memB
    change q.maxSize a ≤ q.maxSize new.slab
    rw [maxes a memA,newMax]
    exact maxBound w memA
  · change Beside q.slabSize (q.slabHead a) (q.slabHead b)
    rw [qSize]
    rcases List.mem_append.1 memA with memA | memA <;> rcases List.mem_append.1 memB with memB | memB
    · rw [heads a memA,heads b memB]
      exact w.apart a memA b memB other
    · cases List.mem_singleton.1 memB
      rw [heads a memA,newHead]
      exact apart a memA
    · cases List.mem_singleton.1 memA
      rw [heads b memB,newHead]
      exact (apart b memB).symm
    · exact absurd ((List.mem_singleton.1 memA).trans (List.mem_singleton.1 memB).symm) other
  · change SlabWell q.mem q.slabSize (q.slabs z) z live _
    rw [qSize]
    rcases List.mem_append.1 mem with mem | mem
    · have other : z ≠ new.slab := fun same => off (same ▸ mem)
      rw [Function.update_of_ne other]
      have links := relinked.slab z
      rw [others z mem] at links
      exact slabWellCongr (w.well z mem) links (sameHeader z mem) fun _ _ => Iff.rfl
    · cases List.mem_singleton.1 mem
      rw [Function.update_self]
      have links := relinked.slab new.slab
      rw [atNew] at links
      have lone := loneSlabWell (m := p.mem) positive high owner w.room notLive
      rw [← qMem] at lone
      exact slabWellCongr lone links (fun _ _ => rfl) fun _ _ => Iff.rfl
  · obtain ⟨z,here,h,memH,isAt,fits⟩ := w.held b mem
    have other : z ≠ new.slab := fun same => off (same ▸ here)
    refine ⟨z,List.mem_append_left _ here,h,?_,isAt,?_⟩
    · rwa [Function.update_of_ne other]
    · change b.2 ≤ (header q.mem h).size
      rwa [sameHeader z here h memH]
  · rw [relinked.pool]
    rfl
  · rw [relinked.pool]
    rfl
  · exact Function.update_of_ne (fun same : z = new.slab => off (same ▸ mem)) _ _
  · have links := relinked.slab z
    rwa [others z mem] at links
  · cases List.mem_singleton.1 mem
    refine ⟨newMax,?_,newHead,Function.update_self _ _ _⟩
    change (q.slabs new.slab).maxSeriateFreeHead = new.memory
    rw [relinked.slab,atNew]
  · change q.mem a = p.mem a
    rw [qMem]
    exact initObjectOutside (out new (List.mem_singleton_self _))

/- What new gives for the later turns is fresh after this one. -/
theorem freshLater {q : MemPool} {hs' : Nat → List Nat} (fresh : FreshIn p chain (new :: news))
    (grew : Grew p q chain [new] hs hs') : FreshIn q (chain ++ [new.slab]) news := by
  obtain ⟨nodup,beside,bounds⟩ := fresh
  have heads : (chain ++ [new.slab]).map q.slabHead = chain.map p.slabHead ++ [new.memory] := by
    rw [List.map_append,List.map_singleton,(grew.new new (List.mem_singleton_self _)).2.2.1]
    refine congrArg (· ++ [new.memory]) (List.map_congr_left fun z mem => ?_)
    unfold slabHead
    rw [grew.slabs z mem]
  refine ⟨?_,?_,?_⟩
  · rwa [List.append_assoc]
  · rw [heads,List.append_assoc,grew.size]
    exact beside
  · rw [grew.size]
    exact fun n mem => bounds n (List.mem_cons_of_mem _ mem)

theorem grewTrans {q r : MemPool} {taken more : List New} {hs' hs'' : Nat → List Nat} (h : Grew p q chain taken hs hs')
    (h' : Grew q r (chain ++ taken.map New.slab) more hs' hs'') : Grew p r chain (taken ++ more) hs hs'' := by
  have front : ∀ z ∈ chain, z ∈ chain ++ taken.map New.slab := fun z mem => List.mem_append_left _ mem
  refine ⟨h'.size.trans h.size,h'.locked.trans h.locked,?_,fun z mem => (h'.chunks z (front z mem)).trans (h.chunks z mem),
    fun z mem => ?_,fun z mem a memA => ?_,fun n mem => ?_,fun a out => ?_⟩
  · rw [h'.alloced,h.alloced,List.length_append,Nat.add_assoc]
  · rw [h'.slabs z (front z mem),h.slabs z mem]
  · rw [h'.headers z (front z mem) a ((h.chunks z mem).symm ▸ memA)]
    exact h.headers z mem a memA
  · rcases List.mem_append.1 mem with mem | mem
    · have later := List.mem_append_right chain (List.mem_map_of_mem (f := New.slab) mem)
      obtain ⟨max,free,head,chunk⟩ := h.new n mem
      have same := h'.slabs n.slab later
      refine ⟨?_,?_,?_,(h'.chunks n.slab later).trans chunk⟩
      · rw [← max]
        unfold maxSize
        rw [same]
      · rw [same]
        exact free
      · unfold slabHead
        rw [same]
        exact head
    · obtain ⟨max,free,head,chunk⟩ := h'.new n mem
      exact ⟨max.trans h.size,free,head,chunk⟩
  · rw [h'.outside a fun n mem => out n (List.mem_append_right _ mem)]
    exact h.outside a fun n mem => out n (List.mem_append_left _ mem)

theorem grewRefl : Grew p p chain [] hs hs :=
  ⟨rfl,rfl,rfl,fun _ _ => rfl,fun _ _ => rfl,fun _ _ _ _ => rfl,nofun,fun _ _ => rfl⟩

/- The loop: every pool it can leave, bad_alloc or not. -/
theorem growsFrom (count : Nat) (retVal : Option Nat) (w : PoolWell p live chain hs) (fresh : FreshIn p chain news)
    (below : p.allocedSlabs < p.maxSlabs) :
    ∃ r q taken hs', allocSlabsFrom count retVal news p = some (r,q) ∧ taken <+: news ∧
      PoolWell q live (chain ++ taken.map New.slab) hs' ∧ Grew p q chain taken hs hs' ∧
      (r = none ∨ r = some (retVal.or (taken.head?.map New.slab))) ∧ (r ≠ none → 0 < count → taken ≠ []) := by
  induction count generalizing retVal p chain hs news with
  | zero =>
    refine ⟨some retVal,p,[],hs,rfl,List.nil_prefix,?_,grewRefl,.inr ?_,fun _ none_ => absurd none_ (Nat.lt_irrefl _)⟩
    · rwa [List.map_nil,List.append_nil]
    · simp
  | succ count ih =>
    cases news with
    | nil =>
      refine ⟨none,p,[],hs,rfl,List.nil_prefix,?_,grewRefl,.inl rfl,fun some_ => absurd rfl some_⟩
      rwa [List.map_nil,List.append_nil]
    | cons new news =>
      obtain ⟨q,pushes,alloced,well,grew⟩ := newSlabWell w below fresh
      have retVal' : (if retVal = none then some new.slab else retVal) = retVal.or (some new.slab) := by
        cases retVal <;> rfl
      rw [allocSlabsFrom]
      simp only [pushes,bind,Option.bind,retVal']
      by_cases full : q.maxSlabs ≤ q.allocedSlabs + 1
      · rw [if_pos full]
        exact ⟨_,_,[new],_,rfl,⟨news,rfl⟩,well,grew,.inr rfl,fun _ _ => List.cons_ne_nil _ _⟩
      · rw [if_neg full]
        obtain ⟨r,q',taken,hs',runs,⟨rest,isRest⟩,well',grew',result,_⟩ := ih (retVal.or (some new.slab)) well
          (freshLater fresh grew) (Nat.not_le.1 full)
        refine ⟨r,q',new :: taken,hs',runs,⟨rest,congrArg _ isRest⟩,?_,grewTrans grew grew',result.imp_right fun isR => ?_,
          fun _ _ => List.cons_ne_nil _ _⟩
        · rwa [List.append_assoc] at well'
        · rw [isR]
          cases retVal <;> rfl

end Init

end CuteNdk.MemPool
