import CuteNdk.MemPoolWell

/-! The pool: its slabs lie apart, each of them is well, the blocks handed out are chunks
of theirs, and the list of slabs is in order. -/
namespace CuteNdk.MemPool
open Lib.Bytes (Memory)
open Lib (dllNodup)

/- Two slabs that do not overlap, by where they start. -/
def Beside (slabSize : Nat) (a b : Nat) : Prop := a + sizeofObjHeader + slabSize ≤ b ∨ b + sizeofObjHeader + slabSize ≤ a

instance (slabSize a b : Nat) : Decidable (Beside slabSize a b) :=
  inferInstanceAs (Decidable (a + sizeofObjHeader + slabSize ≤ b ∨ b + sizeofObjHeader + slabSize ≤ a))

def slabHead (p : MemPool) (slab : Nat) : Nat := (p.slabs slab).head

structure PoolWell (p : MemPool) (live : Blocks) (chain : List Nat) (hs : Nat → List Nat) : Prop where
  list : SlabList p chain
  counted : chain.length = p.allocedSlabs
  bounded : p.allocedSlabs ≤ p.maxSlabs
  prealloc : 0 < p.preallocSlabNum
  room : p.slabSize < 256 ^ 4
  aligned : p.slabSize % mallocAlign = 0
  ordered : Ordered p chain
  apart : ∀ slab ∈ chain, ∀ slab' ∈ chain, slab ≠ slab' → Beside p.slabSize (p.slabHead slab) (p.slabHead slab')
  well : ∀ slab ∈ chain, SlabWell p.mem p.slabSize (p.slabs slab) slab live (hs slab)
  held : ∀ b ∈ live, ∃ slab ∈ chain, ∃ h ∈ hs slab, b.1 = h + sizeofObjHeader ∧ b.2 ≤ (header p.mem h).size
  distinct : (live.map Prod.fst).Nodup

section Places
variable {p : MemPool} {live : Blocks} {chain : List Nat} {hs : Nat → List Nat} {slab slab' h : Nat}

theorem chunkPlace (w : PoolWell p live chain hs) (here : slab ∈ chain) (mem : h ∈ hs slab) :
    p.slabHead slab ≤ h ∧ h + sizeofObjHeader + (header p.mem h).size ≤ slabEnd p.slabSize (p.slabs slab) :=
  chunkRange (w.well slab here).chunks mem

/- A chunk handed out lies in the slab that has its bytes. -/
theorem liveHere (w : PoolWell p live chain hs) (here : slab ∈ chain) (isLive : Live live h)
    (low : p.slabHead slab ≤ h) (high : h + sizeofObjHeader ≤ slabEnd p.slabSize (p.slabs slab)) : h ∈ hs slab := by
  have sizeof : sizeofObjHeader = 32 := rfl
  obtain ⟨b,mem,at_⟩ := List.mem_map.1 isLive
  obtain ⟨slab',here',h',mem',isAt,_⟩ := w.held b mem
  have same : h' = h := by omega
  subst same
  by_cases sameSlab : slab' = slab
  · exact sameSlab ▸ mem'
  · have range := chunkPlace w here' mem'
    have apart := w.apart slab' here' slab here sameSlab
    unfold Beside at apart
    unfold slabEnd slabHead at *
    omega

/- A change in one slab is not seen in the headers of another. -/
theorem headerBeside (w : PoolWell p live chain hs) (here : slab ∈ chain) (here' : slab' ∈ chain) (other : slab' ≠ slab)
    (mem : h ∈ hs slab') {m₁ : Memory}
    (outside : ∀ a, a < p.slabHead slab ∨ slabEnd p.slabSize (p.slabs slab) ≤ a → m₁ a = p.mem a) :
    header m₁ h = header p.mem h := by
  have range := chunkPlace w here' mem
  have apart := w.apart slab' here' slab here other
  unfold Beside at apart
  refine headerCongr fun a low high => outside a ?_
  unfold slabEnd slabHead at *
  omega

end Places

section Touch
variable {p q : MemPool} {live live' : Blocks} {chain chain' : List Nat} {hs : Nat → List Nat} {slab : Nat} {m₁ : Memory}
  {s₁ : SlabHeader} {hs₁ : List Nat}

/- One slab changes, and its place in the list. -/
theorem slabTouched (w : PoolWell p live chain hs) (here : slab ∈ chain) (head : s₁.head = p.slabHead slab)
    (well : SlabWell m₁ p.slabSize s₁ slab live' hs₁)
    (outside : ∀ a, a < p.slabHead slab ∨ slabEnd p.slabSize (p.slabs slab) ≤ a → m₁ a = p.mem a)
    (lives : ∀ slab' ∈ chain, slab' ≠ slab → ∀ h ∈ hs slab', Live live' h ↔ Live live h)
    (heldHere : ∀ b ∈ live', b ∉ live ∨ (∃ h ∈ hs slab, b.1 = h + sizeofObjHeader ∧ b.2 ≤ (header p.mem h).size) →
      ∃ h ∈ hs₁, b.1 = h + sizeofObjHeader ∧ b.2 ≤ (header m₁ h).size)
    (distinct : (live'.map Prod.fst).Nodup)
    (relinked : Relinked { p with mem := m₁, slabs := Function.update p.slabs slab s₁ } q)
    (list : SlabList q chain') (perm : chain'.Perm chain) (ordered : Ordered q chain') :
    PoolWell q live' chain' (Function.update hs slab hs₁) := by
  have mem : q.mem = m₁ := by rw [relinked.pool]
  have size : q.slabSize = p.slabSize := by rw [relinked.pool]
  have heads : ∀ z, q.slabHead z = p.slabHead z := fun z => by
    unfold slabHead
    rw [relinked.slab z]
    by_cases same : z = slab
    · subst same
      simp only [Function.update_self]
      exact head
    · simp only [Function.update_of_ne same]
  refine ⟨list,?_,?_,?_,?_,?_,ordered,fun a memA b memB other => ?_,fun z memZ => ?_,fun b memB => ?_,distinct⟩
  · rw [perm.length_eq,w.counted,relinked.pool]
  · rw [relinked.pool]
    exact w.bounded
  · rw [relinked.pool]
    exact w.prealloc
  · rw [size]
    exact w.room
  · rw [size]
    exact w.aligned
  · rw [heads,heads,size]
    exact w.apart a (perm.subset memA) b (perm.subset memB) other
  · rw [mem,size]
    by_cases same : z = slab
    · subst same
      rw [Function.update_self]
      have links := relinked.slab z
      simp only [Function.update_self] at links
      exact slabWellCongr well links (fun _ _ => rfl) fun _ _ => Iff.rfl
    · have inChain := perm.subset memZ
      rw [Function.update_of_ne same]
      have links := relinked.slab z
      simp only [Function.update_of_ne same] at links
      exact slabWellCongr (w.well z inChain) links (fun h memH => headerBeside w here inChain same memH outside)
        (lives z inChain same)
  · rw [mem]
    by_cases old : b ∈ live
    · obtain ⟨z,inChain,h,memH,isAt,fits⟩ := w.held b old
      by_cases same : z = slab
      · subst same
        obtain ⟨h',found⟩ := heldHere b memB (.inr ⟨h,memH,isAt,fits⟩)
        exact ⟨z,perm.symm.subset inChain,h',by rwa [Function.update_self]⟩
      · refine ⟨z,perm.symm.subset inChain,h,?_,isAt,?_⟩
        · rwa [Function.update_of_ne same]
        · rwa [headerBeside w here inChain same memH outside]
    · obtain ⟨h',found⟩ := heldHere b memB (.inl old)
      exact ⟨slab,perm.symm.subset here,h',by rwa [Function.update_self]⟩

end Touch

section Ajust
variable {p p₁ : MemPool} {chain l₁ l₂ : List Nat} {slab : Nat}

/- p₁ has another slab header for slab, with the same place in the list. -/
structure Changed (p p₁ : MemPool) (slab : Nat) : Prop where
  pool : p₁ = { p with mem := p₁.mem, slabs := p₁.slabs }
  others : ∀ z, z ≠ slab → p₁.slabs z = p.slabs z
  links : p₁.slabNext slab = p.slabNext slab ∧ p₁.slabPrev slab = p.slabPrev slab

theorem changedUpdate {m : Memory} {s₁ : SlabHeader} (next : s₁.next = p.slabNext slab) (prev : s₁.prev = p.slabPrev slab) :
    Changed p { p with mem := m, slabs := Function.update p.slabs slab s₁ } slab := by
  refine ⟨rfl,fun z other => Function.update_of_ne other _ _,?_,?_⟩
  · unfold slabNext
    simp only [Function.update_self]
    exact next
  · unfold slabPrev
    simp only [Function.update_self]
    exact prev

theorem changedList (list : SlabList p chain) (changed : Changed p p₁ slab) : SlabList p₁ chain := by
  have nexts : p₁.slabNext = p.slabNext := funext fun z => by
    by_cases same : z = slab
    · rw [same]
      exact changed.links.1
    · exact congrArg SlabHeader.next (changed.others z same)
  have prevs : p₁.slabPrev = p.slabPrev := funext fun z => by
    by_cases same : z = slab
    · rw [same]
      exact changed.links.2
    · exact congrArg SlabHeader.prev (changed.others z same)
  have head : p₁.slabsHead = p.slabsHead := by rw [changed.pool]
  have tail : p₁.slabsTail = p.slabsTail := by rw [changed.pool]
  unfold SlabList
  rw [nexts,prevs,head,tail]
  exact list

/- The others are in order, and those around slab on their side of where it was. -/
theorem changedOrdered (list : SlabList p (l₁ ++ slab :: l₂)) (ordered : Ordered p (l₁ ++ slab :: l₂))
    (changed : Changed p p₁ slab) :
    Ordered p₁ (l₁ ++ l₂) ∧ (∀ z ∈ l₁, p₁.maxSize z ≤ p.maxSize slab) ∧ ∀ z ∈ l₂, p.maxSize slab ≤ p₁.maxSize z := by
  obtain ⟨_,nodup',apart⟩ := List.nodup_append.1 (dllNodup list)
  obtain ⟨off,_⟩ := List.nodup_cons.1 nodup'
  have others : ∀ z ∈ l₁ ++ l₂, p₁.maxSize z = p.maxSize z := fun z mem => by
    refine congrArg SlabHeader.maxSeriateSize (changed.others z ?_)
    rcases List.mem_append.1 mem with mem | mem
    · exact apart z mem slab List.mem_cons_self
    · exact fun same => off (same ▸ mem)
  obtain ⟨front,back,across⟩ := List.pairwise_append.1 ordered
  obtain ⟨later,behind⟩ := List.pairwise_cons.1 back
  refine ⟨orderedCongr (List.pairwise_append.2 ⟨front,behind,fun z memZ y memY => ?_⟩) others,fun z mem => ?_,fun z mem => ?_⟩
  · exact across z memZ y (List.mem_cons_of_mem _ memY)
  · rw [others z (List.mem_append_left _ mem)]
    exact across z mem slab List.mem_cons_self
  · rw [others z (List.mem_append_right _ mem)]
    exact later z mem

theorem changedAhead (list : SlabList p chain) (counted : chain.length = p.allocedSlabs) (ordered : Ordered p chain)
    (here : slab ∈ chain) (changed : Changed p p₁ slab) (less : p₁.maxSize slab ≤ p.maxSize slab) :
    ∃ q chain', p₁.ajustAhead slab = some q ∧ Relinked p₁ q ∧ SlabList q chain' ∧ chain'.Perm chain ∧ Ordered q chain' := by
  obtain ⟨l₁,l₂,rfl⟩ := List.append_of_mem here
  have still := changedList list changed
  obtain ⟨rest,_,later⟩ := changedOrdered list ordered changed
  have count : (l₁ ++ slab :: l₂).length = p₁.allocedSlabs := by
    rw [counted,changed.pool]
  obtain ⟨q,pre,post,ajusts,rolled⟩ := ajustAheadList still count
  refine ⟨q,_,ajusts,rolled.relinked,rolled.list,?_,aheadOrdered rolled rest fun z mem => Nat.le_trans less (later z mem)⟩
  rw [rolled.split,List.append_assoc]
  exact List.Perm.append_left _ List.perm_middle.symm

theorem changedBack (list : SlabList p chain) (counted : chain.length = p.allocedSlabs) (ordered : Ordered p chain)
    (here : slab ∈ chain) (changed : Changed p p₁ slab) (more : p.maxSize slab ≤ p₁.maxSize slab) :
    ∃ q chain', p₁.ajustBack slab = some q ∧ Relinked p₁ q ∧ SlabList q chain' ∧ chain'.Perm chain ∧ Ordered q chain' := by
  obtain ⟨l₁,l₂,rfl⟩ := List.append_of_mem here
  have still := changedList list changed
  obtain ⟨rest,before,_⟩ := changedOrdered list ordered changed
  have count : (l₁ ++ slab :: l₂).length = p₁.allocedSlabs := by
    rw [counted,changed.pool]
  obtain ⟨q,pre,post,ajusts,rolled⟩ := ajustBackList still count
  refine ⟨q,_,ajusts,rolled.relinked,rolled.list,?_,backOrdered rolled rest fun z mem => Nat.le_trans (before z mem) more⟩
  rw [rolled.split]
  exact List.Perm.append_left _ List.perm_middle

end Ajust

section Take
variable {p q : MemPool} {live : Blocks} {chain chain' : List Nat} {hs : Nat → List Nat} {slab n size : Nat}

/- malloc has taken the chunk f of slab, and the slab has its place in the list again. -/
structure Took (p q : MemPool) (chain chain' : List Nat) (hs hs' : Nat → List Nat) (slab : Nat) (l₁ : List Nat) (f : Nat)
    (l₂ : List Nat) (size : Nat) (new : List Nat) (m₁ : Memory) (s₁ : SlabHeader) : Prop where
  here : slab ∈ chain
  isHead : (p.slabs slab).maxSeriateFreeHead = f
  split : hs slab = l₁ ++ f :: l₂
  popped : Popped p.mem m₁ (p.slabs slab) s₁ slab (p.slabHead slab) (slabEnd p.slabSize (p.slabs slab)) l₁ f l₂ size new
  relinked : Relinked { p with mem := m₁, slabs := Function.update p.slabs slab s₁ } q
  perm : chain'.Perm chain
  chunks : hs' = Function.update hs slab (l₁ ++ f :: (new ++ l₂))

/- One chunk is in one slab only. -/
theorem slabOnce {h slab' : Nat} (w : PoolWell p live chain hs) (here : slab ∈ chain) (here' : slab' ∈ chain)
    (mem : h ∈ hs slab) (mem' : h ∈ hs slab') : slab' = slab := by
  have sizeof : sizeofObjHeader = 32 := rfl
  by_contra other
  have range := chunkPlace w here mem
  have range' := chunkPlace w here' mem'
  have apart := w.apart slab' here' slab here other
  unfold Beside at apart
  unfold slabEnd slabHead at *
  omega

theorem poolTakes (w : PoolWell p live chain hs) (here : slab ∈ chain) (some_ : (p.slabs slab).maxSeriateFreeHead ≠ 0)
    (enough : size ≤ p.maxSize slab) (asked : n ≤ size) :
    ∃ q₁ q f chain' hs' l₁ l₂ new m₁ s₁, p.popUsableObject slab size = some (f,q₁) ∧ q₁.ajustAhead slab = some q ∧
      Took p q chain chain' hs hs' slab l₁ f l₂ size new m₁ s₁ ∧ ¬ Live live f ∧
      PoolWell q ((f + sizeofObjHeader,n) :: live) chain' hs' := by
  have well := w.well slab here
  obtain ⟨f,isHead⟩ : ∃ f, (p.slabs slab).maxSeriateFreeHead = f := ⟨_,rfl⟩
  obtain ⟨mem,free,isSize⟩ := well.largest.resolve_left fun null => some_ null.1
  rw [isHead] at mem free isSize
  obtain ⟨l₁,l₂,split⟩ := List.append_of_mem mem
  have chunks := well.chunks
  rw [split] at chunks well
  obtain ⟨m₁,s₁,new,pops,popped⟩ := popPops chunks well.placed well.owner isHead isSize enough
  have less : s₁.maxSeriateSize ≤ (p.slabs slab).maxSeriateSize := by
    rcases popped.cut with ⟨_,_,none_,_⟩ | ⟨_,_,_,size,_⟩ <;> omega
  have changed : Changed p { p with mem := m₁, slabs := Function.update p.slabs slab s₁ } slab :=
    changedUpdate (by rw [popped.slab]; rfl) (by rw [popped.slab]; rfl)
  have lessMax : { p with mem := m₁, slabs := Function.update p.slabs slab s₁ }.maxSize slab ≤ p.maxSize slab := by
    unfold maxSize
    simp only [Function.update_self]
    exact less
  obtain ⟨q,chain',ajusts,relinked,list,perm,ordered⟩ := changedAhead w.list w.counted w.ordered here changed lessMax
  refine ⟨_,q,f,chain',_,l₁,l₂,new,m₁,s₁,pops,ajusts,⟨here,isHead,split,popped,relinked,perm,rfl⟩,free,?_⟩
  have inHere : ∀ h, Live live h → (p.slabs slab).head ≤ h → h + sizeofObjHeader ≤ slabEnd p.slabSize (p.slabs slab) →
      h ∈ l₁ ++ f :: l₂ := fun h isLive low high => split ▸ liveHere w here isLive low high
  refine slabTouched w here ?_ (popWell well isHead some_ rfl rfl inHere popped) popped.outside
    (fun z inChain other h memH => ?_) (fun b memB known => ?_) ?_ relinked list perm ordered
  · rw [popped.slab]
    rfl
  · rw [liveCons]
    exact or_iff_right fun same => other (slabOnce w here inChain mem (same ▸ memH))
  · rcases List.mem_cons.1 memB with rfl | old
    · exact ⟨f,List.mem_append_right _ List.mem_cons_self,rfl,Nat.le_trans asked popped.size⟩
    · obtain ⟨h,memH,isAt,fits⟩ := known.resolve_left (not_not.2 old)
      have other : h ≠ f := fun same => free (List.mem_map.2 ⟨b,old,by rw [isAt,same]⟩)
      have kept : h ∈ l₁ ++ l₂ := by
        rw [split,List.mem_append,List.mem_cons] at memH
        rw [List.mem_append]
        exact memH.imp_right fun later => later.resolve_left other
      refine ⟨h,?_,isAt,?_⟩
      · simp only [List.mem_append,List.mem_cons] at kept ⊢
        exact kept.imp_right fun later => .inr (.inr later)
      · rwa [(popped.rest h kept).1]
  · exact List.nodup_cons.2 ⟨free,w.distinct⟩

end Take

section Give
variable {p q : MemPool} {live : Blocks} {chain chain' : List Nat} {hs : Nat → List Nat} {slab memory : Nat}

/- free has given back the chunk f of slab, which is part of the chunk f₁ now. -/
structure Gave (p q : MemPool) (chain chain' : List Nat) (hs hs' : Nat → List Nat) (slab : Nat) (l₁ : List Nat) (f : Nat)
    (l₂ pre : List Nat) (f₁ : Nat) (post : List Nat) (m₁ : Memory) (s₁ : SlabHeader) : Prop where
  here : slab ∈ chain
  split : hs slab = l₁ ++ f :: l₂
  merged : Merged p.mem m₁ slab (p.slabHead slab) (slabEnd p.slabSize (p.slabs slab)) l₁ f l₂ pre f₁ post
  isSlab : s₁ = { ajusted m₁ f₁ (p.slabs slab) with inuseObjs := uint ((ajusted m₁ f₁ (p.slabs slab)).inuseObjs - 1) }
  relinked : Relinked { p with mem := m₁, slabs := Function.update p.slabs slab s₁ } q
  perm : chain'.Perm chain
  chunks : hs' = Function.update hs slab (pre ++ f₁ :: post)

theorem ajustSlabAjusts {m : Memory} {f : Nat} (owner : (header m f).slab = slab) :
    { p with mem := m }.ajustSlab f =
      { p with mem := m, slabs := Function.update p.slabs slab (ajusted m f (p.slabs slab)) } := by
  unfold ajustSlab ajusted
  simp only [owner]
  split
  · rfl
  · rw [Function.update_eq_self]

/- --inuse_objs_ -/
theorem relinkedDown (slab : Nat) (relinked : Relinked p q) :
    Relinked { p with slabs := Function.update p.slabs slab { p.slabs slab with
        inuseObjs := uint ((p.slabs slab).inuseObjs - 1) } }
      { q with slabs := Function.update q.slabs slab { q.slabs slab with
        inuseObjs := uint ((q.slabs slab).inuseObjs - 1) } } := by
  refine ⟨?_,fun z => ?_⟩
  · dsimp only
    rw [relinked.pool]
  · by_cases same : z = slab
    · subst same
      simp only [Function.update_self]
      rw [relinked.slab z]
    · simp only [Function.update_of_ne same]
      exact relinked.slab z

theorem poolGives (w : PoolWell p live chain hs) (isLive : memory ∈ live.map Prod.fst) :
    ∃ q chain' hs' slab l₁ f l₂ pre f₁ post m₁ s₁, p.free memory = some q ∧ memory = f + sizeofObjHeader ∧
      Gave p q chain chain' hs hs' slab l₁ f l₂ pre f₁ post m₁ s₁ ∧ PoolWell q (without live memory) chain' hs' := by
  obtain ⟨b,memB,isB⟩ := List.mem_map.1 isLive
  obtain ⟨slab,here,f,memF,at_,_⟩ := w.held b memB
  have isMemory : memory = f + sizeofObjHeader := isB.symm.trans at_
  subst isMemory
  have well := w.well slab here
  have mark := well.marked f memF isLive
  obtain ⟨l₁,l₂,split⟩ := List.append_of_mem memF
  have chunks := well.chunks
  rw [split] at chunks well
  obtain ⟨pre,post,merged⟩ := freeMerges chunks well.placed
  obtain ⟨m₁,isM⟩ : ∃ m₁, (merge (setInuse p.mem f 0) f).1 = m₁ := ⟨_,rfl⟩
  obtain ⟨f₁,isF⟩ : ∃ f₁, (merge (setInuse p.mem f 0) f).2 = f₁ := ⟨_,rfl⟩
  rw [isM,isF] at merged
  have owner : (header m₁ f₁).slab = slab := merged.chunks.owner f₁ (List.mem_append_right _ List.mem_cons_self)
  have same := ajustedSame m₁ f₁ (p.slabs slab)
  have changed : Changed p { p with mem := m₁, slabs := Function.update p.slabs slab (ajusted m₁ f₁ (p.slabs slab)) } slab :=
    changedUpdate (by rw [same]; rfl) (by rw [same]; rfl)
  have more : p.maxSize slab ≤
      { p with mem := m₁, slabs := Function.update p.slabs slab (ajusted m₁ f₁ (p.slabs slab)) }.maxSize slab := by
    unfold maxSize
    simp only [Function.update_self]
    exact (ajustedMax m₁ f₁ (p.slabs slab)).1
  obtain ⟨q,chain',ajusts,relinked,list,perm,ordered⟩ := changedBack w.list w.counted w.ordered here changed more
  have frees : p.free (f + sizeofObjHeader) = some { q with slabs := Function.update q.slabs slab { q.slabs slab with
      inuseObjs := uint ((q.slabs slab).inuseObjs - 1) } } := by
    have some_ : p.slabsHead ≠ none := by
      rw [(Lib.dllEnds w.list).1]
      intro null
      rw [List.head?_eq_none_iff.1 null] at here
      cases here
    have sizeof : sizeofObjHeader = 32 := rfl
    have goes : ¬ (f + sizeofObjHeader = 0 ∨ p.slabsHead = none) := by
      rintro (null | null)
      · omega
      · exact some_ null
    have qMem : q.mem = m₁ := by rw [relinked.pool]
    unfold free
    rw [if_neg goes,Nat.add_sub_cancel]
    simp only [mark,ne_eq,not_true_eq_false,if_false,isM,isF,ajustSlabAjusts owner,owner,ajusts,bind,Option.bind,qMem]
  have down := relinkedDown slab relinked
  simp only [Function.update_self,Function.update_idem] at down
  have changed' : Changed q { q with slabs := Function.update q.slabs slab { q.slabs slab with
      inuseObjs := uint ((q.slabs slab).inuseObjs - 1) } } slab := changedUpdate (m := q.mem) rfl rfl
  have ordered' : Ordered { q with slabs := Function.update q.slabs slab { q.slabs slab with
      inuseObjs := uint ((q.slabs slab).inuseObjs - 1) } } chain' := by
    refine orderedCongr ordered fun z _ => ?_
    unfold maxSize
    by_cases at_ : z = slab
    · subst at_
      simp only [Function.update_self]
    · simp only [Function.update_of_ne at_]
  refine ⟨_,chain',_,slab,l₁,f,l₂,pre,f₁,post,m₁,_,frees,rfl,⟨here,split,merged,rfl,down,perm,rfl⟩,?_⟩
  refine slabTouched w here ?_ (freeWell well isLive rfl rfl merged rfl) merged.outside
    (fun z inChain other h memH => ?_) (fun b memB known => ?_) ?_ down (changedList list changed') perm ordered'
  · rw [same]
    rfl
  · rw [liveWithout]
    exact and_iff_left fun at_ => other (slabOnce w here inChain memF (at_ ▸ memH))
  · obtain ⟨old,off⟩ := List.mem_filter.1 memB
    obtain ⟨h,memH,isAt,fits⟩ := known.resolve_left (not_not.2 old)
    have other : h ≠ f := fun at_ => (of_decide_eq_true off) (by rw [isAt,at_])
    have stays := liveStays well merged (split ▸ memH) (List.mem_map.2 ⟨b,old,isAt⟩) other
    refine ⟨h,?_,isAt,?_⟩
    · rw [List.mem_append] at stays ⊢
      exact stays.imp_right (List.mem_cons_of_mem f₁)
    · rwa [(merged.rest h stays).1]
  · exact List.Nodup.sublist (List.Sublist.map _ List.filter_sublist) w.distinct

end Give

end CuteNdk.MemPool
