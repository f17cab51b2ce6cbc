import CuteNdk.MemPoolMerge

/-! One slab: what pop_usable_object and free make of its chunks as a whole, and of the
chunk the slab knows as its largest. -/
namespace CuteNdk.MemPool
open Lib.Bytes (Memory)
open Lib (dllNeighbours dllNodup)

section Free
variable {m m₁ m₂ : Memory} {slab start stop : Nat} {l₁ l₂ pre post : List Nat} {f f₁ : Nat}

/- The chunks of rest are as long as they were, and as much in use. -/
def Kept (m m' : Memory) (rest : List Nat) : Prop :=
  ∀ h ∈ rest, (header m' h).size = (header m h).size ∧ (header m' h).inuse = (header m h).inuse

/- f has become part of the chunk before it, if that one is free. -/
structure MergedPrev (m m₁ : Memory) (l₁ : List Nat) (f : Nat) (l₂ pre : List Nat) (f₁ : Nat) : Prop where
  how : (pre = l₁ ∧ f₁ = f ∧ ∀ a ∈ l₁.getLast?, (header m a).inuse ≠ 0) ∨
    l₁ = pre ++ [f₁] ∧ (header m f₁).inuse = 0 ∧ (header m f₁).size < (header m₁ f₁).size
  free : (header m₁ f₁).inuse = 0
  size : (header m f).size ≤ (header m₁ f₁).size
  rest : Kept m m₁ (pre ++ l₂)

/- The chunk after f has become part of it, if it is free. -/
structure MergedNext (m m₁ : Memory) (l₁ : List Nat) (f : Nat) (l₂ post : List Nat) : Prop where
  how : (post = l₂ ∧ ∀ b ∈ l₂.head?, (header m b).inuse ≠ 0) ∨
    ∃ b, l₂ = b :: post ∧ (header m b).inuse = 0 ∧ (header m b).size < (header m₁ f).size
  free : (header m₁ f).inuse = 0
  size : (header m f).size ≤ (header m₁ f).size
  rest : Kept m m₁ (l₁ ++ post)

theorem joinedKept (joined : Joined (header m) (header m₁) l₁ f f₁ l₂) : Kept m m₁ (l₁ ++ l₂) := by
  intro h mem
  rcases List.mem_append.1 mem with mem | mem
  · rw [joined.before h mem]
    exact ⟨rfl,rfl⟩
  · rw [joined.after h mem]
    exact ⟨rfl,rfl⟩

theorem prevMerged (joined : Joined (header m) (header m₁) pre f₁ f l₂) (free : (header m f₁).inuse = 0) :
    MergedPrev m m₁ (pre ++ [f₁]) f l₂ pre f₁ := by
  have sizeof : sizeofObjHeader = 32 := rfl
  have size : (header m₁ f₁).size = (header m f₁).size + (sizeofObjHeader + (header m f).size) := by
    rw [joined.at_]
  refine ⟨.inr ⟨rfl,free,?_⟩,?_,?_,joinedKept joined⟩
  · omega
  · rw [joined.at_]
    exact free
  · omega

theorem prevStays (free : (header m f).inuse = 0) (used : ∀ a ∈ l₁.getLast?, (header m a).inuse ≠ 0) :
    MergedPrev m m l₁ f l₂ l₁ f :=
  ⟨.inl ⟨rfl,rfl,used⟩,free,Nat.le_refl _,fun _ _ => ⟨rfl,rfl⟩⟩

theorem nextMerged (joined : Joined (header m) (header m₁) l₁ f f₁ post) (free : (header m f).inuse = 0)
    (freeNext : (header m f₁).inuse = 0) : MergedNext m m₁ l₁ f (f₁ :: post) post := by
  have sizeof : sizeofObjHeader = 32 := rfl
  have size : (header m₁ f).size = (header m f).size + (sizeofObjHeader + (header m f₁).size) := by
    rw [joined.at_]
  refine ⟨.inr ⟨f₁,rfl,freeNext,?_⟩,?_,?_,joinedKept joined⟩
  · omega
  · rw [joined.at_]
    exact free
  · omega

theorem nextStays (free : (header m f).inuse = 0) (used : ∀ b ∈ l₂.head?, (header m b).inuse ≠ 0) :
    MergedNext m m l₁ f l₂ l₂ :=
  ⟨.inl ⟨rfl,used⟩,free,Nat.le_refl _,fun _ _ => ⟨rfl,rfl⟩⟩

/- What free makes of f and the chunks around it: the one at f₁, with pre before it and
post after it. -/
structure Merged (m m₂ : Memory) (slab start stop : Nat) (l₁ : List Nat) (f : Nat) (l₂ pre : List Nat) (f₁ : Nat)
    (post : List Nat) : Prop where
  chunks : Chunks (header m₂) slab start stop (pre ++ f₁ :: post)
  front : (pre = l₁ ∧ f₁ = f ∧ ∀ a ∈ l₁.getLast?, (header m a).inuse ≠ 0) ∨
    l₁ = pre ++ [f₁] ∧ (header m f₁).inuse = 0 ∧ (header m f₁).size < (header m₂ f₁).size
  back : (post = l₂ ∧ ∀ b ∈ l₂.head?, (header m b).inuse ≠ 0) ∨
    ∃ b, l₂ = b :: post ∧ (header m b).inuse = 0 ∧ (header m b).size < (header m₂ f₁).size
  free : (header m₂ f₁).inuse = 0
  size : (header m f).size ≤ (header m₂ f₁).size
  rest : Kept m m₂ (pre ++ post)
  outside : ∀ a, a < start ∨ stop ≤ a → m₂ a = m a

theorem mergedBoth (prev : MergedPrev m m₁ l₁ f l₂ pre f₁) (next : MergedNext m₁ m₂ pre f₁ l₂ post)
    (chunks : Chunks (header m₂) slab start stop (pre ++ f₁ :: post)) (out₁ : ∀ a, a < start ∨ stop ≤ a → m₁ a = m a)
    (out₂ : ∀ a, a < start ∨ stop ≤ a → m₂ a = m₁ a) : Merged m m₂ slab start stop l₁ f l₂ pre f₁ post := by
  have behind : ∀ b ∈ l₂, (header m₁ b).size = (header m b).size ∧ (header m₁ b).inuse = (header m b).inuse :=
    fun b mem => prev.rest b (List.mem_append_right _ mem)
  refine ⟨chunks,?_,?_,next.free,Nat.le_trans prev.size next.size,fun h mem => ?_,fun a outside => ?_⟩
  · rcases prev.how with stays | ⟨split,free,size⟩
    · exact .inl stays
    · exact .inr ⟨split,free,Nat.lt_of_lt_of_le size next.size⟩
  · rcases next.how with ⟨same,used⟩ | ⟨b,split,free,size⟩
    · refine .inl ⟨same,fun b first => ?_⟩
      rw [← (behind b (List.mem_of_head? first)).2]
      exact used b first
    · have known := behind b (split ▸ List.mem_cons_self)
      exact .inr ⟨b,split,known.2 ▸ free,known.1 ▸ size⟩
  · have known : (header m₁ h).size = (header m h).size ∧ (header m₁ h).inuse = (header m h).inuse := by
      refine prev.rest h ?_
      rcases List.mem_append.1 mem with mem | mem
      · exact List.mem_append_left _ mem
      · rcases next.how with ⟨same,_⟩ | ⟨b,split,_⟩
        · exact List.mem_append_right _ (same ▸ mem)
        · exact List.mem_append_right _ (split ▸ List.mem_cons_of_mem b mem)
    have kept := next.rest h mem
    exact ⟨kept.1.trans known.1,kept.2.trans known.2⟩
  · rw [out₂ a outside,out₁ a outside]

/- The part of free that looks at the chunk after f, whichever way it merges. -/
theorem nextStep {b : Nat} (c : Chunks (header m) slab start stop (l₁ ++ f :: b :: l₂)) (placed : Placed start stop)
    (free : (header m f).inuse = 0)
    (joins : Joined (header m) (header m₁) l₁ f b l₂ ∧ ∀ a, a < start ∨ stop ≤ a → m₁ a = m a)
    (result : m₂ = if (header m (header m f).next).inuse = 0 then m₁ else m) :
    ∃ post, MergedNext m m₂ l₁ f (b :: l₂) post ∧ Chunks (header m₂) slab start stop (l₁ ++ f :: post) ∧
      ∀ a, a < start ∨ stop ≤ a → m₂ a = m a := by
  obtain ⟨joined,outside⟩ := joins
  have range := chunkRange c (List.mem_append_right l₁ List.mem_cons_self)
  have positive := placed.positive
  rw [(neighbours c).next] at result
  by_cases freeNext : (header m b).inuse = 0
  · rw [if_pos freeNext] at result
    subst result
    exact ⟨l₂,nextMerged joined free freeNext,chunksJoin c (by omega) joined,outside⟩
  · rw [if_neg freeNext] at result
    subst result
    refine ⟨b :: l₂,nextStays free fun z first => ?_,c,fun _ _ => rfl⟩
    cases first
    exact freeNext

theorem mergeMerges (c : Chunks (header m) slab start stop (l₁ ++ f :: l₂)) (placed : Placed start stop)
    (free : (header m f).inuse = 0) :
    ∃ pre post, Merged m (merge m f).1 slab start stop l₁ f l₂ pre (merge m f).2 post := by
  have positive := placed.positive
  have around := dllNeighbours c.linked
  rcases List.eq_nil_or_concat' l₁ with rfl | ⟨l,a,rfl⟩
  · have noPrev : (header m f).prev = 0 := pointerNull around.2
    cases l₂ with
    | nil =>
      have noNext : (header m f).next = 0 := pointerNull around.1
      refine ⟨[],[],?_⟩
      simp only [merge,noPrev,noNext,ne_eq,not_true_eq_false,false_and,if_false]
      exact mergedBoth (prevStays free nofun) (nextStays free nofun) c (fun _ _ => rfl) fun _ _ => rfl
    | cons b l₂ =>
      have range := chunkRange c (List.mem_append_right [] (List.mem_cons_of_mem f List.mem_cons_self))
      have isNext : (header m f).next = b := pointerTo around.1
      have someNext : (header m f).next ≠ 0 := by omega
      have pair := pairOf c placed
      obtain ⟨post,merged,chunks,outside⟩ := nextStep c placed free (mergeNextHeadJoins pair) rfl
      refine ⟨[],post,?_⟩
      simp only [merge,noPrev,ne_eq,not_true_eq_false,false_and,if_false,someNext,not_false_eq_true,if_true]
      split
      · rename_i freeNext
        rw [if_pos freeNext] at merged chunks outside
        exact mergedBoth (prevStays free nofun) merged chunks (fun _ _ => rfl) outside
      · rename_i usedNext
        rw [if_neg usedNext] at merged chunks outside
        exact mergedBoth (prevStays free nofun) merged chunks (fun _ _ => rfl) outside
  · rw [List.getLast?_concat] at around
    have c' : Chunks (header m) slab start stop (l ++ a :: f :: l₂) := by
      rwa [List.append_assoc] at c
    have isPrev : (header m f).prev = a := pointerTo around.2
    have rangeA := chunkRange c' (List.mem_append_right l List.mem_cons_self)
    have somePrev : (header m f).prev ≠ 0 := by omega
    have used (h : (header m (header m f).prev).inuse ≠ 0) : ∀ z ∈ (l ++ [a]).getLast?, (header m z).inuse ≠ 0 := by
      intro z last
      rw [List.getLast?_concat] at last
      cases last
      rwa [isPrev] at h
    cases l₂ with
    | nil =>
      have noNext : (header m f).next = 0 := pointerNull around.1
      simp only [merge,somePrev,noNext,ne_eq,not_true_eq_false,and_false,if_false,not_false_eq_true,if_true]
      split
      · rename_i freePrev
        rw [isPrev] at freePrev ⊢
        obtain ⟨joined,outside⟩ := mergePrevTailJoins (pairOf c' placed) noNext
        have merged := prevMerged joined freePrev
        exact ⟨l,[],mergedBoth merged (nextStays merged.free nofun) (chunksJoin c' (by omega) joined) outside fun _ _ => rfl⟩
      · rename_i usedPrev
        exact ⟨l ++ [a],[],mergedBoth (prevStays free (used usedPrev)) (nextStays free nofun) c (fun _ _ => rfl) fun _ _ => rfl⟩
    | cons b l₂ =>
      have rangeB := chunkRange c (List.mem_append_right _ (List.mem_cons_of_mem f List.mem_cons_self))
      have isNext : (header m f).next = b := pointerTo around.1
      have someNext : (header m f).next ≠ 0 := by omega
      simp only [merge,somePrev,someNext,ne_eq,not_false_eq_true,and_true,if_true]
      by_cases freePrev : (header m (header m f).prev).inuse = 0
      · simp only [freePrev,if_true]
        rw [isPrev] at freePrev ⊢
        obtain ⟨joined,outside⟩ := mergePrevJoins (pairOf c' placed) someNext
        have merged := prevMerged joined freePrev
        have c₁ := chunksJoin c' (by omega) joined
        obtain ⟨post,next,chunks,outside'⟩ := nextStep c₁ placed merged.free (mergeNextJoins (pairOf c₁ placed)) rfl
        refine ⟨l,post,?_⟩
        split
        · rename_i freeNext
          rw [if_pos freeNext] at next chunks outside'
          exact mergedBoth merged next chunks outside outside'
        · rename_i usedNext
          rw [if_neg usedNext] at next chunks outside'
          exact mergedBoth merged next chunks outside outside'
      · simp only [freePrev,if_false]
        have stays : MergedPrev m m (l ++ [a]) f (b :: l₂) (l ++ [a]) f := prevStays free (used freePrev)
        obtain ⟨post,next,chunks,outside⟩ := nextStep c placed free (mergeNextJoins (pairOf c placed)) rfl
        refine ⟨l ++ [a],post,?_⟩
        split
        · rename_i freeNext
          rw [if_pos freeNext] at next chunks outside
          exact mergedBoth stays next chunks (fun _ _ => rfl) outside
        · rename_i usedNext
          rw [if_neg usedNext] at next chunks outside
          exact mergedBoth stays next chunks (fun _ _ => rfl) outside

theorem freeMerges (c : Chunks (header m) slab start stop (l₁ ++ f :: l₂)) (placed : Placed start stop) :
    ∃ pre post, Merged m (merge (setInuse m f 0) f).1 slab start stop l₁ f l₂ pre (merge (setInuse m f 0) f).2 post := by
  have fIn : f ∈ l₁ ++ f :: l₂ := List.mem_append_right _ List.mem_cons_self
  have view := viewSetInuse (v := 0) (viewChunks c) fIn (by decide)
  have atF : header (setInuse m f 0) f = { header m f with inuse := 0 } := by
    rw [view.reads f fIn,Function.update_self]
  obtain ⟨_,nodup',apart⟩ := List.nodup_append.1 (dllNodup c.linked)
  obtain ⟨offF,_⟩ := List.nodup_cons.1 nodup'
  have offFront : ∀ h ∈ l₁, h ≠ f := fun h mem => apart h mem f List.mem_cons_self
  have offBack : ∀ h ∈ l₂, h ≠ f := fun h mem same => offF (same ▸ mem)
  have others : ∀ h ∈ l₁ ++ f :: l₂, h ≠ f → header (setInuse m f 0) h = header m h := fun h mem other => by
    rw [view.reads h mem,Function.update_of_ne other]
  have front : ∀ h ∈ l₁, header (setInuse m f 0) h = header m h := fun h mem =>
    others h (List.mem_append_left _ mem) (offFront h mem)
  have back : ∀ h ∈ l₂, header (setInuse m f 0) h = header m h := fun h mem =>
    others h (List.mem_append_right _ (List.mem_cons_of_mem _ mem)) (offBack h mem)
  have marked : Chunks (header (setInuse m f 0)) slab start stop (l₁ ++ f :: l₂) := by
    refine chunksMark c fun h mem => ?_
    by_cases same : h = f
    · subst same
      rw [atF]
    · rw [others h mem same]
  obtain ⟨pre,post,merged⟩ := mergeMerges marked placed (by rw [atF])
  refine ⟨pre,post,merged.chunks,?_,?_,merged.free,?_,fun h mem => ?_,fun a out => ?_⟩
  · rcases merged.front with ⟨same,here,used⟩ | ⟨split,free,size⟩
    · refine .inl ⟨same,here,fun a last => ?_⟩
      rw [← front a (List.mem_of_getLast? last)]
      exact used a last
    · rw [← front _ (split ▸ List.mem_append_right _ (List.mem_singleton_self _))]
      exact .inr ⟨split,free,size⟩
  · rcases merged.back with ⟨same,used⟩ | ⟨b,split,free,size⟩
    · refine .inl ⟨same,fun b first => ?_⟩
      rw [← back b (List.mem_of_head? first)]
      exact used b first
    · refine .inr ⟨b,split,?_⟩
      rw [← back b (split ▸ List.mem_cons_self)]
      exact ⟨free,size⟩
  · have size := merged.size
    rwa [atF] at size
  · have known := merged.rest h mem
    rcases List.mem_append.1 mem with mem | mem
    · rw [← front h]
      · exact known
      · rcases merged.front with ⟨same,_⟩ | ⟨split,_⟩
        · exact same ▸ mem
        · exact split ▸ List.mem_append_left _ mem
    · rw [← back h]
      · exact known
      · rcases merged.back with ⟨same,_⟩ | ⟨b,split,_⟩
        · exact same ▸ mem
        · exact split ▸ List.mem_cons_of_mem _ mem
  · rw [merged.outside a out]
    exact view.kept a out

end Free

section Pop
variable {m : Memory} {p : MemPool} {slab start stop : Nat} {l₁ l₂ : List Nat} {f allocSize : Nat}

/- Without a carry out of an unsigned int. -/
theorem uintSub {a b : Nat} (le : b ≤ a) (fits : a < 256 ^ 4) : uint ((a : Int) - b) = a - b := by
  unfold uint
  omega

theorem headerApart {f h : Nat} (apart : Apart f h) (v w : Nat) :
    header (setInuse (setSlab m f v) f w) h = header m h := by
  have first : header (setSlab m f v) h = header m h := headerStoreApart 8 (by decide) apart
  have second : header (setInuse (setSlab m f v) f w) h = header (setSlab m f v) h :=
    headerStoreApart 0 (by decide) apart
  rw [second,first]

/- The chunk at f is handed out, all of it. -/
theorem marksUsed (c : Chunks (header m) slab start stop (l₁ ++ f :: l₂)) (owner : slab < 256 ^ 8) :
    Chunks (header (setInuse (setSlab m f slab) f inuseIdentiry)) slab start stop (l₁ ++ f :: l₂) ∧
      header (setInuse (setSlab m f slab) f inuseIdentiry) f = { header m f with inuse := inuseIdentiry } ∧
      (∀ h ∈ l₁ ++ l₂, header (setInuse (setSlab m f slab) f inuseIdentiry) h = header m h) ∧
      ∀ a, a < start ∨ stop ≤ a → setInuse (setSlab m f slab) f inuseIdentiry a = m a := by
  have fIn : f ∈ l₁ ++ f :: l₂ := List.mem_append_right _ List.mem_cons_self
  have view := viewSetInuse (v := inuseIdentiry) (viewSetSlab (v := slab) (viewChunks c) fIn owner) fIn (by decide)
  have atF : header (setInuse (setSlab m f slab) f inuseIdentiry) f = { header m f with inuse := inuseIdentiry } := by
    rw [view.reads f fIn]
    simp only [Function.update_self]
    rw [← c.owner f fIn]
  have others : ∀ h ∈ l₁ ++ l₂, header (setInuse (setSlab m f slab) f inuseIdentiry) h = header m h := fun h mem => by
    have hIn : h ∈ l₁ ++ f :: l₂ := by
      rw [List.mem_append] at mem ⊢
      exact mem.imp_right (List.mem_cons_of_mem f)
    have other : h ≠ f := by
      rintro rfl
      obtain ⟨_,nodup,apart⟩ := List.nodup_append.1 (dllNodup c.linked)
      rcases List.mem_append.1 mem with mem | mem
      · exact apart h mem h List.mem_cons_self rfl
      · exact (List.nodup_cons.1 nodup).1 mem
    rw [view.reads h hIn]
    simp only [Function.update_of_ne other]
  refine ⟨chunksMark c fun h mem => ?_,atF,others,view.kept⟩
  by_cases same : h = f
  · subst same
    rw [atF]
  · have mem' : h ∈ l₁ ++ l₂ := by
      rw [List.mem_append,List.mem_cons] at mem
      rw [List.mem_append]
      tauto
    rw [others h mem']

/- What pop_usable_object makes of the slab s: the chunk f is handed out, and what it
has too much of is the chunk of new. -/
structure Popped (m m₁ : Memory) (s s₁ : SlabHeader) (slab start stop : Nat) (l₁ : List Nat) (f : Nat) (l₂ : List Nat)
    (allocSize : Nat) (new : List Nat) : Prop where
  chunks : Chunks (header m₁) slab start stop (l₁ ++ f :: (new ++ l₂))
  used : (header m₁ f).inuse = inuseIdentiry
  size : allocSize ≤ (header m₁ f).size
  rest : Kept m m₁ (l₁ ++ l₂)
  outside : ∀ a, a < start ∨ stop ≤ a → m₁ a = m a
  slab : s₁ = { s with
    inuseObjs := uint (s.inuseObjs + 1), maxSeriateSize := s₁.maxSeriateSize, maxSeriateFreeHead := s₁.maxSeriateFreeHead }
  cut : (new = [] ∧ s.maxSeriateSize ≤ allocSize + sizeofObjHeader ∧ s₁.maxSeriateSize = 0 ∧ s₁.maxSeriateFreeHead = 0) ∨
    (allocSize + sizeofObjHeader < s.maxSeriateSize ∧ new = [f + sizeofObjHeader + allocSize] ∧
      s₁.maxSeriateFreeHead = f + sizeofObjHeader + allocSize ∧
      s₁.maxSeriateSize = s.maxSeriateSize - allocSize - sizeofObjHeader ∧
      (header m₁ (f + sizeofObjHeader + allocSize)).size = s₁.maxSeriateSize ∧
      (header m₁ (f + sizeofObjHeader + allocSize)).inuse = (header m (f + sizeofObjHeader + allocSize)).inuse)

theorem popPops (c : Chunks (header p.mem) slab start stop (l₁ ++ f :: l₂)) (placed : Placed start stop)
    (owner : slab < 256 ^ 8) (isHead : (p.slabs slab).maxSeriateFreeHead = f)
    (isSize : (header p.mem f).size = (p.slabs slab).maxSeriateSize) (enough : allocSize ≤ (p.slabs slab).maxSeriateSize) :
    ∃ m₁ s₁ new, p.popUsableObject slab allocSize = some (f,{ p with mem := m₁, slabs := Function.update p.slabs slab s₁ }) ∧
      Popped p.mem m₁ (p.slabs slab) s₁ slab start stop l₁ f l₂ allocSize new := by
  have sizeof : sizeofObjHeader = 32 := rfl
  have fIn : f ∈ l₁ ++ f :: l₂ := List.mem_append_right _ List.mem_cons_self
  have range := chunkRange c fIn
  have positive := placed.positive
  have small := placed.small
  obtain ⟨marked,atF,others,outside⟩ := marksUsed c owner
  have rest : Kept p.mem (setInuse (setSlab p.mem f slab) f inuseIdentiry) (l₁ ++ l₂) := fun h mem => by
    rw [others h mem]
    exact ⟨rfl,rfl⟩
  have sizeF : (header (setInuse (setSlab p.mem f slab) f inuseIdentiry) f).size = (header p.mem f).size := by rw [atF]
  have left : uint ((p.slabs slab).maxSeriateSize - allocSize) = (p.slabs slab).maxSeriateSize - allocSize :=
    uintSub enough (by omega)
  have some_ : f ≠ 0 := by omega
  unfold popUsableObject
  simp only [isHead,left,some_,if_false]
  by_cases cut : allocSize + sizeofObjHeader < (p.slabs slab).maxSeriateSize
  · have here : uint (((p.slabs slab).maxSeriateSize - allocSize : Nat) - (sizeofObjHeader : Nat)) =
        (p.slabs slab).maxSeriateSize - allocSize - sizeofObjHeader := uintSub (by omega) (by omega)
    obtain ⟨g,isG⟩ : ∃ g, g = f + sizeofObjHeader + allocSize := ⟨_,rfl⟩
    have sizes : allocSize + sizeofObjHeader + ((p.slabs slab).maxSeriateSize - allocSize - sizeofObjHeader) =
        (header (setInuse (setSlab p.mem f slab) f inuseIdentiry) f).size := by
      rw [sizeF]
      omega
    obtain ⟨split,outside'⟩ := newChunkSplits marked placed owner sizes
    rw [if_pos (by omega),here]
    rw [← isG] at split ⊢
    refine ⟨_,_,[g],rfl,chunksSplit marked isG sizes split (by omega),?_,?_,fun h mem => ?_,fun a out => ?_,rfl,
      .inr ⟨cut,by rw [isG],isG,rfl,?_,?_⟩⟩
    · rw [split.at_,atF]
    · exact Nat.le_of_eq (by rw [split.at_])
    · have known := rest h mem
      rcases List.mem_append.1 mem with mem | mem
      · rw [split.before h mem]
        exact known
      · rw [split.after h mem]
        exact known
    · rw [outside' a out,outside a out]
    · rw [← isG,split.new]
    · have apart : Apart f g := .inl (by omega)
      rw [← isG,split.new,headerApart apart]
  · rw [if_neg (by omega)]
    exact ⟨_,_,[],rfl,marked,by rw [atF],by omega,rest,outside,rfl,.inl ⟨rfl,by omega,rfl,rfl⟩⟩

end Pop

end CuteNdk.MemPool
