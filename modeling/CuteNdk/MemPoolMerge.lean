import CuteNdk.MemPoolChunks

/-! What pop_usable_object and free write in the headers of one slab: a chunk that is
split, and chunks that are merged with a free neighbour. -/
namespace CuteNdk.MemPool
open Lib.Bytes (Memory loadBelow)
open Lib (Dll dllNeighbours dllNodup)

section Views
variable {start stop : Nat} {S : List Nat} {m₀ m : Memory} {φ : Nat → ObjHeader} {slab : Nat} {hs l₁ l₂ : List Nat} {f n g : Nat}

/- if (x) x->prev_ = v -/
def relinked (φ : Nat → ObjHeader) (x v h : Nat) : ObjHeader :=
  { φ h with prev := if pointer x = some h then v else (φ h).prev }

theorem relinkedOff {x v h : Nat} (off : pointer x ≠ some h) : relinked φ x v h = φ h := by
  unfold relinked
  rw [if_neg off]

theorem viewRelink (view : View start stop S m₀ m φ) {x v : Nat} (mem : ∀ h ∈ pointer x, h ∈ S) (fits : v < 256 ^ 8) :
    View start stop S m₀ (if x ≠ 0 then setPrev m x v else m) (relinked φ x v) := by
  by_cases null : x = 0
  · have nowhere (h : Nat) : pointer x ≠ some h := fun points => by
      rw [null] at points
      cases points
    rw [if_neg (not_not.2 null)]
    refine ⟨view.apart,view.inside,fun h mem => ?_,view.kept⟩
    rw [relinkedOff (nowhere h)]
    exact view.reads h mem
  · have points : pointer x = some x := if_neg null
    have set := viewSetPrev view (mem x points) fits
    rw [if_pos null]
    refine ⟨set.apart,set.inside,fun h inS => ?_,set.kept⟩
    rw [set.reads h inS]
    by_cases same : h = x
    · subst same
      unfold relinked
      rw [Function.update_self,if_pos points]
    · have other : pointer x ≠ some h := fun eq => same (Option.some.inj (points.symm.trans eq)).symm
      rw [Function.update_of_ne same,relinkedOff other]

theorem viewChunks (c : Chunks (header m) slab start stop hs) : View start stop hs m m (header m) := by
  refine ⟨fun h mem h' mem' other => ?_,fun h mem => ?_,fun _ _ => rfl,fun _ _ => rfl⟩
  · have apart := chunksApart c mem mem' other
    unfold Apart
    omega
  · have range := chunkRange c mem
    omega

/- The header of a new chunk lies in the chunk that is split. -/
theorem viewSplit (c : Chunks (header m) slab start stop (l₁ ++ f :: l₂)) (later : f + sizeofObjHeader ≤ g)
    (inside : g ≤ f + (header m f).size) : View start stop (l₁ ++ f :: g :: l₂) m m (header m) := by
  have view := viewChunks c
  have fIn : f ∈ l₁ ++ f :: l₂ := List.mem_append_right _ List.mem_cons_self
  have range := chunkRange c fIn
  have apartG : ∀ h ∈ l₁ ++ f :: l₂, Apart h g := fun h mem => by
    by_cases same : h = f
    · subst same
      exact .inl later
    · have apart := chunksApart c mem fIn same
      unfold Apart
      omega
  have old : ∀ h ∈ l₁ ++ f :: g :: l₂, h = g ∨ h ∈ l₁ ++ f :: l₂ := fun h mem => by
    rw [List.mem_append,List.mem_cons,List.mem_cons] at mem
    rw [List.mem_append,List.mem_cons]
    tauto
  refine ⟨fun h mem h' mem' other => ?_,fun h mem => ?_,fun _ _ => rfl,fun _ _ => rfl⟩
  · rcases old h mem with rfl | inOld <;> rcases old h' mem' with rfl | inOld'
    · exact absurd rfl other
    · exact (apartG h' inOld').symm
    · exact apartG h inOld
    · exact view.apart h inOld h' inOld' other
  · rcases old h mem with rfl | mem
    · omega
    · exact view.inside h mem

end Views

/- inuse_ is no part of the list of chunks. -/
theorem chunksMark {φ φ' : Nat → ObjHeader} {slab start stop : Nat} {hs : List Nat} (c : Chunks φ slab start stop hs)
    (same : ∀ h ∈ hs, φ' h = { φ h with inuse := (φ' h).inuse }) : Chunks φ' slab start stop hs := by
  refine ⟨Lib.dllCongr c.linked (fun h mem => ?_) (fun h mem => ?_),Lib.tilesCongr (fun h mem => ?_) c.tiles,
    fun h mem => ?_⟩
  · unfold nextOf
    rw [same h mem]
  · unfold prevOf
    rw [same h mem]
  · unfold extent
    rw [same h mem]
  · rw [same h mem]
    exact c.owner h mem

section Merges
variable {m : Memory} {slab start stop : Nat} {l₁ l₂ : List Nat} {f n p : Nat}

/- The slab lies in the memory, with room for the sizes in an unsigned int. -/
structure Placed (start stop : Nat) : Prop where
  positive : 0 < start
  high : stop ≤ 256 ^ 8
  small : stop < start + sizeofObjHeader + 256 ^ 4

/- What two chunks that follow each other know of each other. -/
structure Neighbours (φ : Nat → ObjHeader) (l₁ : List Nat) (f n : Nat) (l₂ : List Nat) : Prop where
  next : (φ f).next = n
  prev : (φ n).prev = f
  before : pointer (φ f).prev = l₁.getLast?
  after : pointer (φ n).next = l₂.head?
  other : f ≠ n
  offF : ∀ h ∈ l₂, h ≠ f
  offN : ∀ h ∈ l₂, h ≠ n
  offFront : ∀ h ∈ l₁, h ≠ f ∧ h ≠ n ∧ h ∉ l₂

theorem neighbours {φ : Nat → ObjHeader} (c : Chunks φ slab start stop (l₁ ++ f :: n :: l₂)) : Neighbours φ l₁ f n l₂ := by
  have atF := dllNeighbours c.linked
  have atN := dllNeighbours (show Dll (nextOf φ) (prevOf φ) _ _ ((l₁ ++ [f]) ++ n :: l₂) by simpa using c.linked)
  have nodup := dllNodup c.linked
  obtain ⟨_,nodup',apart⟩ := List.nodup_append.1 nodup
  obtain ⟨offF,nodup₂⟩ := List.nodup_cons.1 nodup'
  obtain ⟨offN,_⟩ := List.nodup_cons.1 nodup₂
  rw [List.getLast?_concat] at atN
  refine ⟨pointerTo atF.1,pointerTo atN.2,atF.2,atN.1,fun same => offF (same ▸ List.mem_cons_self),fun h mem same => ?_,
    fun h mem same => offN (same ▸ mem),fun h mem => ⟨?_,?_,?_⟩⟩
  · exact offF (same ▸ List.mem_cons_of_mem _ mem)
  · exact apart h mem f List.mem_cons_self
  · exact apart h mem n (List.mem_cons_of_mem _ List.mem_cons_self)
  · exact fun mem' => apart h mem h (List.mem_cons_of_mem _ (List.mem_cons_of_mem _ mem')) rfl

/- What the merges read and write of a chunk f and the chunk n after it. -/
structure Pair (m : Memory) (start stop : Nat) (l₁ : List Nat) (f n : Nat) (l₂ : List Nat) : Prop where
  near : Neighbours (header m) l₁ f n l₂
  view : View start stop (l₁ ++ f :: n :: l₂) m m (header m)
  fIn : f ∈ l₁ ++ f :: n :: l₂
  nIn : n ∈ l₁ ++ f :: n :: l₂
  afterIn : ∀ h ∈ pointer (header m n).next, h ∈ l₁ ++ f :: n :: l₂
  offF : pointer (header m n).next ≠ some f
  offN : pointer (header m n).next ≠ some n
  fFits : f < 256 ^ 8
  nextFits : (header m n).next < 256 ^ 8
  sizeFits : (header m f).size + (sizeofObjHeader + (header m n).size) < 256 ^ 4

theorem pairOf (c : Chunks (header m) slab start stop (l₁ ++ f :: n :: l₂)) (placed : Placed start stop) :
    Pair m start stop l₁ f n l₂ := by
  have near := neighbours c
  have fIn : f ∈ l₁ ++ f :: n :: l₂ := List.mem_append_right _ List.mem_cons_self
  have nIn : n ∈ l₁ ++ f :: n :: l₂ := List.mem_append_right _ (List.mem_cons_of_mem _ List.mem_cons_self)
  have rangeF := chunkRange c fIn
  have rangeN := chunkRange c nIn
  have apart := chunksApart c fIn nIn near.other
  have afterIn : ∀ h ∈ pointer (header m n).next, h ∈ l₂ := fun h points => List.mem_of_head? (near.after ▸ points)
  have sizeof : sizeofObjHeader = 32 := rfl
  obtain ⟨positive,high,small⟩ := placed
  refine ⟨near,viewChunks c,fIn,nIn,fun h points => ?_,fun points => ?_,fun points => ?_,by omega,loadBelow _ _ _,?_⟩
  · exact List.mem_append_right _ (List.mem_cons_of_mem _ (List.mem_cons_of_mem _ (afterIn h points)))
  · exact near.offF f (afterIn f points) rfl
  · exact near.offN n (afterIn n points) rfl
  · rcases apart with before | after <;> omega

/- The last of the writes of a merge, seen from the headers there were. -/
theorem joinedView (pair : Pair m start stop l₁ f n l₂) {m' : Memory} {φ' : Nat → ObjHeader}
    (view : View start stop (l₁ ++ f :: n :: l₂) m m' φ')
    (at_ : φ' f = { header m f with
      size := (header m f).size + (sizeofObjHeader + (header m n).size), next := (header m n).next })
    (others : ∀ h, h ≠ f → φ' h = relinked (header m) (header m n).next f h) :
    Joined (header m) (header m') l₁ f n l₂ ∧ ∀ a, a < start ∨ stop ≤ a → m' a = m a := by
  refine ⟨⟨(view.reads f pair.fIn).trans at_,fun h mem => ?_,fun h mem => ?_⟩,view.kept⟩
  · obtain ⟨offF,_,apart⟩ := pair.near.offFront h mem
    have off : pointer (header m n).next ≠ some h := fun points =>
      apart (List.mem_of_head? (pair.near.after.symm.trans points))
    rw [view.reads h (List.mem_append_left _ mem),others h offF,relinkedOff off]
  · have inS : h ∈ l₁ ++ f :: n :: l₂ :=
      List.mem_append_right _ (List.mem_cons_of_mem _ (List.mem_cons_of_mem _ mem))
    rw [view.reads h inS,others h (pair.near.offF h mem)]
    unfold relinked
    rw [pair.near.after]

/- The four ways of merging: two for the chunk after, two for the one before. -/
theorem mergeNextJoins (pair : Pair m start stop l₁ f n l₂) :
    Joined (header m) (header (mergeNext m f)) l₁ f n l₂ ∧ ∀ a, a < start ∨ stop ≤ a → mergeNext m f a = m a := by
  have near := pair.near.next
  have other := pair.near.other.symm
  have v₁ := viewRelink (v := f) pair.view pair.afterIn pair.fFits
  have atF₁ := (v₁.reads f pair.fIn).trans (relinkedOff pair.offF)
  have atN₁ := (v₁.reads n pair.nIn).trans (relinkedOff pair.offN)
  have v₂ := viewSetSize v₁ pair.fIn pair.sizeFits
  have atF₂ := v₂.reads f pair.fIn
  have atN₂ := v₂.reads n pair.nIn
  rw [Function.update_self,relinkedOff pair.offF] at atF₂
  rw [Function.update_of_ne other,relinkedOff pair.offN] at atN₂
  have v₃ := viewSetNext v₂ pair.fIn pair.nextFits
  unfold mergeNext
  simp only [near,atF₁,atN₁,atF₂,atN₂]
  refine joinedView pair v₃ ?_ fun h off => ?_
  · simp only [Function.update_self,relinkedOff pair.offF]
  · rw [Function.update_of_ne off,Function.update_of_ne off]

theorem mergeNextHeadJoins (pair : Pair m start stop l₁ f n l₂) :
    Joined (header m) (header (mergeNextHead m f)) l₁ f n l₂ ∧
      ∀ a, a < start ∨ stop ≤ a → mergeNextHead m f a = m a := by
  have near := pair.near.next
  have other := pair.near.other.symm
  have v₁ := viewSetSize pair.view pair.fIn pair.sizeFits
  have atF₁ := v₁.reads f pair.fIn
  have atN₁ := v₁.reads n pair.nIn
  rw [Function.update_self] at atF₁
  rw [Function.update_of_ne other] at atN₁
  have v₂ := viewRelink (v := f) v₁ pair.afterIn pair.fFits
  have atF₂ := (v₂.reads f pair.fIn).trans (relinkedOff pair.offF)
  have atN₂ := (v₂.reads n pair.nIn).trans (relinkedOff pair.offN)
  rw [Function.update_self] at atF₂
  rw [Function.update_of_ne other] at atN₂
  have v₃ := viewSetNext v₂ pair.fIn pair.nextFits
  unfold mergeNextHead
  simp only [near,atF₁,atN₁,atF₂,atN₂]
  refine joinedView pair v₃ ?_ fun h off => ?_
  · simp only [Function.update_self,relinkedOff pair.offF]
  · rw [Function.update_of_ne off]
    unfold relinked
    rw [Function.update_of_ne off]

theorem mergePrevJoins (pair : Pair m start stop l₁ p f l₂) (follows : (header m f).next ≠ 0) :
    Joined (header m) (header (mergePrev m f)) l₁ p f l₂ ∧ ∀ a, a < start ∨ stop ≤ a → mergePrev m f a = m a := by
  have near := pair.near.prev
  have other := pair.near.other.symm
  have v₁ := viewSetNext pair.view pair.fIn pair.nextFits
  have atF₁ := v₁.reads f pair.nIn
  rw [Function.update_of_ne other] at atF₁
  have v₂ := viewRelink (v := p) v₁ pair.afterIn pair.fFits
  rw [if_pos follows] at v₂
  have atP₂ := (v₂.reads p pair.fIn).trans (relinkedOff pair.offF)
  have atF₂ := (v₂.reads f pair.nIn).trans (relinkedOff pair.offN)
  rw [Function.update_self] at atP₂
  rw [Function.update_of_ne other] at atF₂
  have v₃ := viewSetSize v₂ pair.fIn pair.sizeFits
  unfold mergePrev
  simp only [near,atF₁,atP₂,atF₂]
  refine joinedView pair v₃ ?_ fun h off => ?_
  · simp only [Function.update_self,relinkedOff pair.offF]
  · rw [Function.update_of_ne off]
    unfold relinked
    rw [Function.update_of_ne off]

theorem mergePrevTailJoins (pair : Pair m start stop l₁ p f l₂) (last : (header m f).next = 0) :
    Joined (header m) (header (mergePrevTail m f)) l₁ p f l₂ ∧
      ∀ a, a < start ∨ stop ≤ a → mergePrevTail m f a = m a := by
  have near := pair.near.prev
  have other := pair.near.other.symm
  have v₁ := viewSetNext pair.view pair.fIn pair.nextFits
  rw [last] at v₁
  have atP₁ := v₁.reads p pair.fIn
  have atF₁ := v₁.reads f pair.nIn
  rw [Function.update_self] at atP₁
  rw [Function.update_of_ne other] at atF₁
  have v₂ := viewSetSize v₁ pair.fIn pair.sizeFits
  unfold mergePrevTail
  simp only [near,atP₁,atF₁]
  refine joinedView pair v₂ ?_ fun h off => ?_
  · simp only [Function.update_self,last]
  · have nowhere : pointer (header m f).next ≠ some h := fun points => by
      rw [last] at points
      cases points
    rw [Function.update_of_ne off,Function.update_of_ne off,relinkedOff nowhere]

end Merges

/- The bytes of a new header but for inuse_ are all written. -/
theorem newChunkSplits {m : Memory} {slab start stop : Nat} {l₁ l₂ : List Nat} {f allocSize left : Nat}
    (c : Chunks (header m) slab start stop (l₁ ++ f :: l₂)) (placed : Placed start stop) (owner : slab < 256 ^ 8)
    (fits : allocSize + sizeofObjHeader + left = (header m f).size) :
    Split (header m) (header (newChunk m slab f allocSize left)) slab l₁ f (f + sizeofObjHeader + allocSize) l₂
        allocSize left ∧
      ∀ a, a < start ∨ stop ≤ a → newChunk m slab f allocSize left a = m a := by
  obtain ⟨g,isG⟩ : ∃ g, g = f + sizeofObjHeader + allocSize := ⟨_,rfl⟩
  have sizeof : sizeofObjHeader = 32 := rfl
  have fIn₀ : f ∈ l₁ ++ f :: l₂ := List.mem_append_right _ List.mem_cons_self
  have range := chunkRange c fIn₀
  obtain ⟨positive,high,small⟩ := placed
  have view := viewSplit (g := g) c (by omega) (by omega)
  have after := (dllNeighbours c.linked).1
  obtain ⟨offList,_⟩ := List.nodup_cons.1 (List.nodup_append.1 (dllNodup c.linked)).2.1
  have offG : ∀ h ∈ l₁ ++ f :: l₂, h ≠ g := fun h mem same => by
    by_cases atF : h = f
    · omega
    · have apart := chunksApart c mem fIn₀ atF
      omega
  have fIn : f ∈ l₁ ++ f :: g :: l₂ := List.mem_append_right _ List.mem_cons_self
  have gIn : g ∈ l₁ ++ f :: g :: l₂ := List.mem_append_right _ (List.mem_cons_of_mem _ List.mem_cons_self)
  have restIn : ∀ h ∈ l₂, h ∈ l₁ ++ f :: g :: l₂ := fun h mem =>
    List.mem_append_right _ (List.mem_cons_of_mem _ (List.mem_cons_of_mem _ mem))
  have nextIn : ∀ h ∈ pointer (header m f).next, h ∈ l₂ := fun h points => List.mem_of_head? (after.symm.trans points)
  have offNext : pointer (header m f).next ≠ some f := fun points => offList (nextIn f points)
  have offNew : pointer (header m f).next ≠ some g := fun points =>
    offG g (List.mem_append_right _ (List.mem_cons_of_mem _ (nextIn g points))) rfl
  have apart : g ≠ f := fun same => offG f fIn₀ same.symm
  have v₁ := viewRelink (v := g) view (fun h points => restIn h (nextIn h points)) (by omega)
  have v₂ := viewSetSize (v := allocSize) v₁ fIn (by omega)
  have atF₂ := v₂.reads f fIn
  rw [Function.update_self,relinkedOff offNext] at atF₂
  have v₃ := viewSetNext (v := (header m f).next) v₂ gIn (loadBelow _ _ _)
  have v₄ := viewSetSlab v₃ gIn owner
  have v₅ := viewSetNext (v := g) v₄ fIn (by omega)
  have v₆ := viewSetPrev (v := f) v₅ gIn (by omega)
  have v₇ := viewSetSize (v := left) v₆ gIn (by omega)
  rw [← isG]
  unfold newChunk
  simp only [← isG,atF₂]
  refine ⟨⟨?_,?_,fun h mem => ?_,fun h mem => ?_⟩,v₇.kept⟩
  · rw [v₇.reads f fIn]
    simp only [Function.update_of_ne apart.symm,Function.update_self,relinkedOff offNext]
  · rw [v₇.reads g gIn]
    simp only [Function.update_of_ne apart,Function.update_self,relinkedOff offNew]
  · have offF : h ≠ f := (List.nodup_append.1 (dllNodup c.linked)).2.2 h mem f List.mem_cons_self
    have off : h ≠ g := offG h (List.mem_append_left _ mem)
    have nowhere : pointer (header m f).next ≠ some h := fun points =>
      (List.nodup_append.1 (dllNodup c.linked)).2.2 h mem h (List.mem_cons_of_mem _ (nextIn h points)) rfl
    rw [v₇.reads h (List.mem_append_left _ mem)]
    simp only [Function.update_of_ne off,Function.update_of_ne offF,relinkedOff nowhere]
  · have offF : h ≠ f := fun same => offList (same ▸ mem)
    have off : h ≠ g := offG h (List.mem_append_right _ (List.mem_cons_of_mem _ mem))
    have next : pointer (header m f).next = l₂.head? := after
    rw [v₇.reads h (restIn h mem)]
    simp only [Function.update_of_ne off,Function.update_of_ne offF]
    unfold relinked
    rw [next]

end CuteNdk.MemPool
