import CuteNdk.MemPoolRuns

/-! How the memory of the pool is laid out, read from the list of slabs and the headers in
their memory, in every state of every run. -/
namespace CuteNdk.MemPool
open Lib (run Dll Tiles tilesSum tilesSorted walk walkSeg Always alwaysMono)

/- The chunks of a slab, from its head_ along next_. -/
def chunkList (p : MemPool) (slab : Nat) : List Nat :=
  walk (nextOf (header p.mem)) (p.slabSize + 1) (some (p.slabHead slab))

def blockSize (p : MemPool) (b : Nat × Nat) : Nat := (header p.mem (b.1 - sizeofObjHeader)).size

/- The chunks tile the slab, the links along them are inverse to each other, and the chunk
known as the largest is one that is not handed out. -/
structure SlabLaidOut (p : MemPool) (live : Blocks) (slab : Nat) : Prop where
  tiles : Tiles (extent (header p.mem)) (p.slabHead slab) (p.chunkList slab) (slabEnd p.slabSize (p.slabs slab))
  ascending : (p.chunkList slab).Pairwise (· < ·)
  sum : ((p.chunkList slab).map (extent (header p.mem))).sum = sizeofObjHeader + p.slabSize
  linked : Dll (nextOf (header p.mem)) (prevOf (header p.mem)) (some (p.slabHead slab)) (p.chunkList slab).getLast?
    (p.chunkList slab)
  largest : ((p.slabs slab).maxSeriateFreeHead = 0 ∧ (p.slabs slab).maxSeriateSize = 0) ∨
    ((p.slabs slab).maxSeriateFreeHead ∈ p.chunkList slab ∧ ¬ Live live (p.slabs slab).maxSeriateFreeHead ∧
      (header p.mem (p.slabs slab).maxSeriateFreeHead).size = (p.slabs slab).maxSeriateSize)

structure Layout (t : Session) : Prop where
  slabs : ∀ slab ∈ t.pool.slabChain, SlabLaidOut t.pool t.live slab
  blocks : ∀ b ∈ t.live, b.2 ≤ t.pool.blockSize b ∧ ∃ slab ∈ t.pool.slabChain,
    t.pool.slabHead slab + sizeofObjHeader ≤ b.1 ∧ b.1 + t.pool.blockSize b ≤ slabEnd t.pool.slabSize (t.pool.slabs slab)
  apart : t.live.Pairwise fun b c => b.1 + t.pool.blockSize b ≤ c.1 ∨ c.1 + t.pool.blockSize c ≤ b.1
  headers : ∀ b ∈ t.live, ∀ slab ∈ t.pool.slabChain, ∀ h ∈ t.pool.chunkList slab,
    b.1 + t.pool.blockSize b ≤ h ∨ h + sizeofObjHeader ≤ b.1

section Layouts
variable {p : MemPool} {live : Blocks} {chain : List Nat} {hs : Nat → List Nat} {slab : Nat}

theorem chunksStart (w : PoolWell p live chain hs) (here : slab ∈ chain) : (hs slab).head? = some (p.slabHead slab) := by
  have tiles := (w.well slab here).chunks.tiles
  cases chunks : hs slab with
  | nil =>
    have sizeof : sizeofObjHeader = 32 := rfl
    rw [chunks] at tiles
    have ends : (p.slabs slab).head = slabEnd p.slabSize (p.slabs slab) := tiles
    unfold slabEnd at ends
    omega
  | cons h l =>
    rw [chunks] at tiles
    exact congrArg some tiles.1

theorem chunkListIs (w : PoolWell p live chain hs) (here : slab ∈ chain) : p.chunkList slab = hs slab := by
  have sizeof : sizeofObjHeader = 32 := rfl
  have chunks := (w.well slab here).chunks
  have few := chunksFew chunks
  have forth := chunks.linked.forth
  rw [chunksStart w here] at forth
  unfold slabEnd at few
  rw [sizeof] at few
  exact walkSeg forth (by omega)

theorem slabLaidOut (w : PoolWell p live chain hs) (here : slab ∈ chain) : SlabLaidOut p live slab := by
  have sizeof : sizeofObjHeader = 32 := rfl
  have well := w.well slab here
  have list := chunkListIs w here
  have sum := tilesSum well.chunks.tiles
  have linked := well.chunks.linked
  rw [chunksStart w here] at linked
  refine ⟨?_,?_,?_,?_,?_⟩ <;> rw [list]
  · exact well.chunks.tiles
  · refine tilesSorted well.chunks.tiles fun h _ => ?_
    unfold extent
    omega
  · unfold slabEnd at sum
    omega
  · exact linked
  · exact well.largest

/- A block is all of the chunk it stands for. -/
theorem blockHeld (w : PoolWell p live chain hs) {b : Nat × Nat} (mem : b ∈ live) :
    ∃ slab ∈ chain, ∃ h ∈ hs slab, b.1 = h + sizeofObjHeader ∧ p.blockSize b = (header p.mem h).size ∧ b.2 ≤ p.blockSize b := by
  obtain ⟨slab,here,h,memH,isAt,fits⟩ := w.held b mem
  have size : p.blockSize b = (header p.mem h).size := by
    unfold blockSize
    rw [isAt,Nat.add_sub_cancel]
  exact ⟨slab,here,h,memH,isAt,size,size ▸ fits⟩

/- The bytes of two chunks, or of one and the header of another, do not overlap. -/
theorem chunkApart (w : PoolWell p live chain hs) {slab' h h' : Nat} (here : slab ∈ chain) (here' : slab' ∈ chain)
    (mem : h ∈ hs slab) (mem' : h' ∈ hs slab') (other : h ≠ h') :
    h + sizeofObjHeader + (header p.mem h).size ≤ h' ∨ h' + sizeofObjHeader + (header p.mem h').size ≤ h := by
  by_cases same : slab' = slab
  · subst same
    exact chunksApart (w.well slab' here).chunks mem mem' other
  · have place := chunkPlace w here mem
    have place' := chunkPlace w here' mem'
    have apart := w.apart slab' here' slab here same
    unfold Beside at apart
    unfold slabEnd slabHead at *
    omega

theorem layoutOf {t : Session} (w : PoolWell t.pool t.live chain hs) : Layout t := by
  have distinct : t.live.Pairwise fun b c => b.1 ≠ c.1 := List.pairwise_map.1 w.distinct
  refine ⟨fun slab here => ?_,fun b mem => ?_,List.Pairwise.imp_of_mem (fun {b c} memB memC other => ?_) distinct,
    fun b mem slab here h memH => ?_⟩
  · exact slabLaidOut w (chainIs w ▸ here)
  · obtain ⟨slab,here,h,memH,isAt,size,fits⟩ := blockHeld w mem
    have place := chunkPlace w here memH
    exact ⟨fits,slab,(chainIs w).symm ▸ here,by omega,by omega⟩
  · obtain ⟨slab,here,h,memH,isAt,size,_⟩ := blockHeld w memB
    obtain ⟨slab',here',h',memH',isAt',size',_⟩ := blockHeld w memC
    have apart := chunkApart w here here' memH memH' (by omega)
    omega
  · rw [chainIs w] at here
    rw [chunkListIs w here] at memH
    obtain ⟨slab',here',h',memH',isAt,size,_⟩ := blockHeld w mem
    by_cases same : h' = h
    · omega
    · have apart := chunkApart w here' here memH' memH same
      omega

theorem layoutKept {p₀ p : MemPool} {slabSize prealloc maxSlabs : Int} {news : List New} (unused : Unused p₀)
    (inits : p₀.init slabSize prealloc maxSlabs news = some (some 0,p))
    (fresh : Fresh { p₀ with slabSize := p.slabSize } news) (ops : List Op) :
    Always (step 1) (fun s => ∃ t, s = some t ∧ Layout t) (some (started p news)) ops := by
  refine alwaysMono (fun s well => ?_) (runsWell (startedWell unused inits fresh) ops)
  obtain ⟨t,chain,hs,isT,w,_⟩ := well
  exact ⟨t,isT,layoutOf w⟩

/- Three blocks, and the one in the middle given back and handed out again. -/
theorem layoutKeptInRun :
    (run (step 1) (some (started dirtyPool [⟨4096,9⟩,⟨8192,5⟩])) [.malloc 20 [],.malloc 40 [],.malloc 8 [],.write 4190 255,
      .free 4184,.malloc 16 []]).isSome = true ∧
    Always (step 1) (fun s => ∃ t, s = some t ∧ Layout t) (some (started dirtyPool [⟨4096,9⟩,⟨8192,5⟩]))
      [.malloc 20 [],.malloc 40 [],.malloc 8 [],.write 4190 255,.free 4184,.malloc 16 []] :=
  ⟨by decide +kernel,layoutKept ⟨rfl,rfl,rfl⟩ dirtyInits (by decide +kernel) _⟩

end Layouts

end CuteNdk.MemPool
