import CuteNdk.MemPoolSlab
import CuteNdk.MemPoolSlabs
import Mathlib.Data.List.Count

/-! Which chunks of a slab are handed out, and what the slab knows of its chunks: how many
are, and one of the others with its size. -/
namespace CuteNdk.MemPool
open Lib.Bytes (Memory)
open Lib (dllNodup)

/- The blocks handed out, each with the bytes it was asked for. -/
abbrev Blocks := List (Nat × Nat)

def Live (live : Blocks) (h : Nat) : Prop := h + sizeofObjHeader ∈ live.map Prod.fst

instance (live : Blocks) (h : Nat) : Decidable (Live live h) :=
  inferInstanceAs (Decidable (h + sizeofObjHeader ∈ live.map Prod.fst))

def objs (live : Blocks) (hs : List Nat) : Nat := hs.countP fun h => decide (Live live h)

def slabEnd (slabSize : Nat) (s : SlabHeader) : Nat := s.head + sizeofObjHeader + slabSize

structure SlabWell (m : Memory) (slabSize : Nat) (s : SlabHeader) (slab : Nat) (live : Blocks) (hs : List Nat) : Prop where
  placed : Placed s.head (slabEnd slabSize s)
  owner : slab < 256 ^ 8
  chunks : Chunks (header m) slab s.head (slabEnd slabSize s) hs
  largest : (s.maxSeriateFreeHead = 0 ∧ s.maxSeriateSize = 0) ∨
    (s.maxSeriateFreeHead ∈ hs ∧ ¬ Live live s.maxSeriateFreeHead ∧ (header m s.maxSeriateFreeHead).size = s.maxSeriateSize)
  marked : ∀ h ∈ hs, Live live h → (header m h).inuse = inuseIdentiry
  counted : s.inuseObjs = objs live hs

section Counting
variable {live live' : Blocks} {hs l₁ l₂ : List Nat} {f n : Nat}

theorem liveCons {h : Nat} : Live ((f + sizeofObjHeader,n) :: live) h ↔ h = f ∨ Live live h := by
  unfold Live
  simp

theorem objsAppend : objs live (l₁ ++ l₂) = objs live l₁ + objs live l₂ := List.countP_append

theorem objsCongr (same : ∀ h ∈ hs, Live live' h ↔ Live live h) : objs live' hs = objs live hs :=
  List.countP_congr fun h mem => by simpa using same h mem

theorem objsCons : objs live (f :: hs) = objs live hs + if Live live f then 1 else 0 := by
  unfold objs
  rw [List.countP_cons]
  simp

end Counting

section Slab
variable {m m₁ : Memory} {slabSize : Nat} {s s₁ : SlabHeader} {slab : Nat} {live live' : Blocks} {hs l₁ l₂ : List Nat}
  {f n : Nat}

/- The chunks have place for a header each. -/
theorem chunksFew {φ : Nat → ObjHeader} {start stop : Nat} (c : Chunks φ slab start stop hs) :
    start + sizeofObjHeader * hs.length ≤ stop := by
  have tiles := c.tiles
  clear c
  induction hs generalizing start with
  | nil =>
    cases tiles
    exact Nat.le_refl _
  | cons a l ih =>
    obtain ⟨rfl,rest⟩ := tiles
    have few := ih rest
    rw [List.length_cons,Nat.mul_succ]
    unfold extent at few
    omega

theorem objsFit (w : SlabWell m slabSize s slab live hs) : s.inuseObjs < 256 ^ 4 - 1 := by
  have sizeof : sizeofObjHeader = 32 := rfl
  have few := chunksFew w.chunks
  have small := w.placed.small
  rw [sizeof] at few small
  have counts : s.inuseObjs ≤ hs.length := w.counted ▸ List.countP_le_length
  omega

/- Other chunks may change, and other blocks come and go. -/
theorem slabWellCongr (w : SlabWell m slabSize s slab live hs) (links : s₁ = { s with prev := s₁.prev, next := s₁.next })
    (same : ∀ h ∈ hs, header m₁ h = header m h) (lives : ∀ h ∈ hs, Live live' h ↔ Live live h) :
    SlabWell m₁ slabSize s₁ slab live' hs := by
  rw [links]
  refine ⟨w.placed,w.owner,chunksCongr w.chunks same,?_,fun h mem here => ?_,?_⟩
  · refine w.largest.imp_right fun ⟨mem,free,size⟩ => ⟨mem,fun here => free ((lives _ mem).1 here),?_⟩
    rw [same _ mem]
    exact size
  · rw [same h mem]
    exact w.marked h mem ((lives h mem).1 here)
  · rw [objsCongr lives]
    exact w.counted

theorem uintAdd {a : Nat} (fits : a < 256 ^ 4 - 1) : uint ((a : Int) + 1) = a + 1 := by
  unfold uint
  omega

theorem popWell {start stop allocSize : Nat} {new : List Nat} (w : SlabWell m slabSize s slab live (l₁ ++ f :: l₂))
    (isHead : s.maxSeriateFreeHead = f) (some_ : s.maxSeriateFreeHead ≠ 0) (isStart : start = s.head)
    (isStop : stop = slabEnd slabSize s)
    (here : ∀ h, Live live h → s.head ≤ h → h + sizeofObjHeader ≤ slabEnd slabSize s → h ∈ l₁ ++ f :: l₂)
    (popped : Popped m m₁ s s₁ slab start stop l₁ f l₂ allocSize new) :
    SlabWell m₁ slabSize s₁ slab ((f + sizeofObjHeader,n) :: live) (l₁ ++ f :: (new ++ l₂)) := by
  have sizeof : sizeofObjHeader = 32 := rfl
  subst isStart isStop
  have head : s₁.head = s.head := by rw [popped.slab]
  have count : s₁.inuseObjs = s.inuseObjs + 1 := by
    rw [popped.slab]
    exact uintAdd (objsFit w)
  have isEnd : slabEnd slabSize s₁ = slabEnd slabSize s := by
    unfold slabEnd
    rw [head]
  have free : ¬ Live live f := by
    rcases w.largest with ⟨null,_⟩ | ⟨_,free,_⟩
    · exact absurd null some_
    · rwa [isHead] at free
  have nodup := dllNodup popped.chunks.linked
  have newFree : ∀ g ∈ new, ¬ Live live g ∧ g ≠ f ∧ s₁.maxSeriateFreeHead = g ∧ (header m₁ g).size = s₁.maxSeriateSize := by
    intro g mem
    rcases popped.cut with ⟨rfl,_⟩ | ⟨room,rfl,isNew,_,size,_⟩
    · cases mem
    · have isG : g = f + sizeofObjHeader + allocSize := List.mem_singleton.1 mem
      subst isG
      refine ⟨fun live' => ?_,by omega,isNew,size⟩
      have gIn : f + sizeofObjHeader + allocSize ∈ l₁ ++ f :: ([f + sizeofObjHeader + allocSize] ++ l₂) := by simp
      have range := chunkRange popped.chunks gIn
      have old := here _ live' range.1 (by omega)
      obtain ⟨_,nodup',apart⟩ := List.nodup_append.1 nodup
      obtain ⟨offF,nodup''⟩ := List.nodup_cons.1 nodup'
      rcases List.mem_append.1 old with mem' | mem'
      · exact apart _ mem' _ (List.mem_cons_of_mem _ (List.mem_append_left _ mem)) rfl
      · rcases List.mem_cons.1 mem' with same | mem'
        · omega
        · exact (List.nodup_append.1 nodup'').2.2 _ mem _ mem' rfl
  obtain ⟨_,nodup',apart⟩ := List.nodup_append.1 nodup
  obtain ⟨offF,nodup''⟩ := List.nodup_cons.1 nodup'
  have others : ∀ h ∈ l₁ ++ l₂, Live ((f + sizeofObjHeader,n) :: live) h ↔ Live live h := fun h mem => by
    rw [liveCons]
    refine or_iff_right fun same => ?_
    rcases List.mem_append.1 mem with mem | mem
    · exact apart h mem f List.mem_cons_self same
    · exact offF (same ▸ List.mem_append_right _ mem)
  refine ⟨?_,w.owner,?_,?_,fun h mem isLive => ?_,?_⟩
  · rw [isEnd,head]
    exact w.placed
  · rw [isEnd,head]
    exact popped.chunks
  · rcases popped.cut with ⟨_,_,noSize,noHead⟩ | ⟨_,rfl,isNew,_,_,_⟩
    · exact .inl ⟨noHead,noSize⟩
    · obtain ⟨notLive,other,_,size⟩ := newFree _ List.mem_cons_self
      rw [isNew]
      refine .inr ⟨by simp,fun isLive => ?_,size⟩
      rw [liveCons] at isLive
      exact isLive.elim other notLive
  · by_cases same : h = f
    · rw [same]
      exact popped.used
    · rw [liveCons] at isLive
      have old := isLive.resolve_left same
      have kept : h ∈ l₁ ++ l₂ := by
        simp only [List.mem_append,List.mem_cons] at mem ⊢
        rcases mem with mem | mem | mem | mem
        · exact .inl mem
        · exact absurd mem same
        · exact absurd old (newFree h mem).1
        · exact .inr mem
      rw [(popped.rest h kept).2]
      refine w.marked h ?_ old
      rw [List.mem_append] at kept ⊢
      exact kept.imp_right (List.mem_cons_of_mem f)
  · have inFront : objs ((f + sizeofObjHeader,n) :: live) l₁ = objs live l₁ :=
      objsCongr fun h mem => others h (List.mem_append_left _ mem)
    have inRest : objs ((f + sizeofObjHeader,n) :: live) l₂ = objs live l₂ :=
      objsCongr fun h mem => others h (List.mem_append_right _ mem)
    have inNew : objs ((f + sizeofObjHeader,n) :: live) new = 0 := by
      refine List.countP_eq_zero.2 fun g mem => ?_
      rw [decide_eq_true_eq,liveCons]
      exact fun isLive => isLive.elim (newFree g mem).2.1 (newFree g mem).1
    have isLive : Live ((f + sizeofObjHeader,n) :: live) f := by
      rw [liveCons]
      exact .inl rfl
    rw [count,w.counted,objsAppend,objsAppend,objsCons,objsCons,objsAppend,inFront,inRest,inNew,if_neg free,if_pos isLive]
    omega

/- The block is not handed out any more. -/
def without (live : Blocks) (memory : Nat) : Blocks := live.filter fun b => b.1 ≠ memory

theorem liveWithout {h : Nat} : Live (without live (f + sizeofObjHeader)) h ↔ Live live h ∧ h ≠ f := by
  unfold Live without
  simp only [List.mem_map,List.mem_filter,decide_eq_true_eq]
  constructor
  · rintro ⟨b,⟨mem,other⟩,here⟩
    exact ⟨⟨b,mem,here⟩,fun same => other (by rw [here,same])⟩
  · rintro ⟨⟨b,mem,here⟩,other⟩
    exact ⟨b,⟨mem,fun same => other (by omega)⟩,here⟩

/- The slab of free, with the count that is taken down last. -/
def ajusted (m : Memory) (f : Nat) (s : SlabHeader) : SlabHeader :=
  if s.maxSeriateSize < (header m f).size then { s with maxSeriateSize := (header m f).size, maxSeriateFreeHead := f } else s

theorem ajustedMax (m : Memory) (f : Nat) (s : SlabHeader) :
    s.maxSeriateSize ≤ (ajusted m f s).maxSeriateSize ∧ (header m f).size ≤ (ajusted m f s).maxSeriateSize := by
  unfold ajusted
  split
  · exact ⟨Nat.le_of_lt (by assumption),Nat.le_refl _⟩
  · exact ⟨Nat.le_refl _,Nat.not_lt.1 (by assumption)⟩

theorem ajustedSame (m : Memory) (f : Nat) (s : SlabHeader) :
    ajusted m f s = { s with
      maxSeriateSize := (ajusted m f s).maxSeriateSize, maxSeriateFreeHead := (ajusted m f s).maxSeriateFreeHead } := by
  unfold ajusted
  split <;> rfl

/- A chunk that free merges with is not handed out. -/
theorem frontFree {start stop f₁ : Nat} {pre post : List Nat} (w : SlabWell m slabSize s slab live (l₁ ++ f :: l₂))
    (merged : Merged m m₁ slab start stop l₁ f l₂ pre f₁ post) :
    pre = l₁ ∧ f₁ = f ∨ l₁ = pre ++ [f₁] ∧ ¬ Live live f₁ := by
  have used : inuseIdentiry ≠ 0 := by decide
  refine merged.front.imp (fun h => ⟨h.1,h.2.1⟩) fun ⟨split,free,_⟩ => ⟨split,fun isLive => ?_⟩
  have mark := w.marked f₁ (by simp [split]) isLive
  exact used (mark.symm.trans free)

theorem backFree {start stop f₁ : Nat} {pre post : List Nat} (w : SlabWell m slabSize s slab live (l₁ ++ f :: l₂))
    (merged : Merged m m₁ slab start stop l₁ f l₂ pre f₁ post) :
    post = l₂ ∨ ∃ b, l₂ = b :: post ∧ ¬ Live live b := by
  have used : inuseIdentiry ≠ 0 := by decide
  refine merged.back.imp (fun h => h.1) fun ⟨b,split,free,_⟩ => ⟨b,split,fun isLive => ?_⟩
  have mark := w.marked b (by simp [split]) isLive
  exact used (mark.symm.trans free)

theorem liveStays {start stop f₁ h : Nat} {pre post : List Nat} (w : SlabWell m slabSize s slab live (l₁ ++ f :: l₂))
    (merged : Merged m m₁ slab start stop l₁ f l₂ pre f₁ post) (mem : h ∈ l₁ ++ f :: l₂) (isLive : Live live h)
    (other : h ≠ f) : h ∈ pre ++ post := by
  rcases List.mem_append.1 mem with mem | mem
  · rcases frontFree w merged with ⟨same,_⟩ | ⟨split,free⟩
    · exact List.mem_append_left _ (same ▸ mem)
    · rw [split] at mem
      rcases List.mem_append.1 mem with mem | mem
      · exact List.mem_append_left _ mem
      · exact absurd isLive (List.mem_singleton.1 mem ▸ free)
  · have mem := (List.mem_cons.1 mem).resolve_left other
    rcases backFree w merged with same | ⟨b,split,free⟩
    · exact List.mem_append_right _ (same ▸ mem)
    · rw [split] at mem
      rcases List.mem_cons.1 mem with rfl | mem
      · exact absurd isLive free
      · exact List.mem_append_right _ mem

/- The other chunks were there before. -/
theorem keptOld {start stop f₁ : Nat} {pre post : List Nat} (w : SlabWell m slabSize s slab live (l₁ ++ f :: l₂))
    (merged : Merged m m₁ slab start stop l₁ f l₂ pre f₁ post) :
    ∀ h ∈ pre ++ post, h ∈ l₁ ++ f :: l₂ ∧ h ≠ f ∧ h ≠ f₁ := by
  obtain ⟨_,nodup',apart⟩ := List.nodup_append.1 (dllNodup w.chunks.linked)
  obtain ⟨offL₂,_⟩ := List.nodup_cons.1 nodup'
  obtain ⟨_,newNodup,newApart⟩ := List.nodup_append.1 (dllNodup merged.chunks.linked)
  obtain ⟨offPost,_⟩ := List.nodup_cons.1 newNodup
  have inPre : ∀ h ∈ pre, h ∈ l₁ := fun h mem => (frontFree w merged).elim (fun same => same.1 ▸ mem) fun split =>
    split.1 ▸ List.mem_append_left _ mem
  have inPost : ∀ h ∈ post, h ∈ l₂ := fun h mem => (backFree w merged).elim (fun same => same ▸ mem) fun ⟨b,split,_⟩ =>
    split ▸ List.mem_cons_of_mem b mem
  intro h mem
  rcases List.mem_append.1 mem with mem | mem
  · exact ⟨List.mem_append_left _ (inPre h mem),apart h (inPre h mem) f List.mem_cons_self,
      newApart h mem f₁ List.mem_cons_self⟩
  · exact ⟨List.mem_append_right _ (List.mem_cons_of_mem _ (inPost h mem)),fun same => offL₂ (same ▸ inPost h mem),
      fun same => offPost (same ▸ mem)⟩

theorem freeWell {start stop f₁ : Nat} {pre post : List Nat} (w : SlabWell m slabSize s slab live (l₁ ++ f :: l₂))
    (isLive : Live live f) (isStart : start = s.head) (isStop : stop = slabEnd slabSize s)
    (merged : Merged m m₁ slab start stop l₁ f l₂ pre f₁ post)
    (isSlab : s₁ = { ajusted m₁ f₁ s with inuseObjs := uint ((ajusted m₁ f₁ s).inuseObjs - 1) }) :
    SlabWell m₁ slabSize s₁ slab (without live (f + sizeofObjHeader)) (pre ++ f₁ :: post) := by
  subst isStart isStop
  have sizeof : sizeofObjHeader = 32 := rfl
  have same := ajustedSame m₁ f₁ s
  have head : s₁.head = s.head := by rw [isSlab,same]
  have isEnd : slabEnd slabSize s₁ = slabEnd slabSize s := by
    unfold slabEnd
    rw [head]
  have frontFree := frontFree w merged
  have backFree := backFree w merged
  have old := keptOld w merged
  have lives : ∀ h ∈ pre ++ post, Live (without live (f + sizeofObjHeader)) h ↔ Live live h := fun h mem => by
    rw [liveWithout]
    exact and_iff_left (old h mem).2.1
  have mergedFree : ¬ Live (without live (f + sizeofObjHeader)) f₁ := fun isLive => by
    rw [liveWithout] at isLive
    rcases frontFree with ⟨_,same⟩ | ⟨_,free⟩
    · exact isLive.2 same
    · exact free isLive.1
  have absorbed : ∀ h ∈ l₁ ++ f :: l₂, ¬ Live live h → h ∉ pre ++ post → (header m h).size < (header m₁ f₁).size := by
    intro h mem free off
    rcases List.mem_append.1 mem with mem | mem
    · rcases merged.front with ⟨same,_⟩ | ⟨split,_,size⟩
      · exact absurd (List.mem_append_left _ (same ▸ mem)) off
      · rw [split] at mem
        rcases List.mem_append.1 mem with mem | mem
        · exact absurd (List.mem_append_left _ mem) off
        · cases List.mem_singleton.1 mem
          exact size
    · rcases List.mem_cons.1 mem with rfl | mem
      · exact absurd isLive free
      · rcases merged.back with ⟨same,_⟩ | ⟨b,split,_,size⟩
        · exact absurd (List.mem_append_right _ (same ▸ mem)) off
        · rw [split] at mem
          rcases List.mem_cons.1 mem with rfl | mem
          · exact size
          · exact absurd (List.mem_append_right _ mem) off
  have f₁In : f₁ ∈ pre ++ f₁ :: post := List.mem_append_right _ List.mem_cons_self
  have keptIn : ∀ h ∈ pre ++ post, h ∈ pre ++ f₁ :: post := fun h mem => by
    rw [List.mem_append] at mem ⊢
    exact mem.imp_right (List.mem_cons_of_mem f₁)
  refine ⟨?_,w.owner,?_,?_,fun h mem isLive => ?_,?_⟩
  · rw [isEnd,head]
    exact w.placed
  · rw [isEnd,head]
    exact merged.chunks
  · rw [isSlab]
    dsimp only
    unfold ajusted
    by_cases larger : s.maxSeriateSize < (header m₁ f₁).size
    · rw [if_pos larger]
      exact .inr ⟨f₁In,mergedFree,rfl⟩
    · rw [if_neg larger]
      refine w.largest.imp_right fun ⟨mem,free,size⟩ => ?_
      have stays : s.maxSeriateFreeHead ∈ pre ++ post := by
        by_contra off
        exact larger (size ▸ absorbed _ mem free off)
      rw [lives _ stays,(merged.rest _ stays).1]
      exact ⟨keptIn _ stays,free,size⟩
  · have stays : h ∈ pre ++ post := by
      rw [List.mem_append,List.mem_cons] at mem
      rw [List.mem_append]
      refine mem.imp_right fun later => later.resolve_left fun same => ?_
      exact mergedFree (same ▸ isLive)
    rw [(merged.rest h stays).2]
    exact w.marked h (old h stays).1 ((lives h stays).1 isLive)
  · have inFront : objs (without live (f + sizeofObjHeader)) pre = objs live pre :=
      objsCongr fun h mem => lives h (List.mem_append_left _ mem)
    have inBack : objs (without live (f + sizeofObjHeader)) post = objs live post :=
      objsCongr fun h mem => lives h (List.mem_append_right _ mem)
    have front : objs live l₁ = objs live pre := by
      rcases frontFree with ⟨same,_⟩ | ⟨split,free⟩
      · rw [same]
      · rw [split,objsAppend,objsCons,if_neg free]
        rfl
    have back : objs live l₂ = objs live post := by
      rcases backFree with same | ⟨b,split,free⟩
      · rw [same]
      · rw [split,objsCons,if_neg free]
        rfl
    have before : s.inuseObjs = objs live pre + (objs live post + 1) := by
      rw [w.counted,objsAppend,objsCons,if_pos isLive,front,back]
    have fit := objsFit w
    have down : s₁.inuseObjs = s.inuseObjs - 1 := by
      have kept : (ajusted m₁ f₁ s).inuseObjs = s.inuseObjs := by rw [same]
      rw [isSlab]
      dsimp only
      rw [kept]
      exact uintSub (b := 1) (by omega) (by omega)
    rw [down,before,objsAppend,objsCons,if_neg mergedFree,inFront,inBack]
    omega

end Slab

end CuteNdk.MemPool
