import CuteNdk.MemPoolEach
import CuteNdk.MemPoolLayout
import Mathlib.Data.List.MinMax
import Mathlib.Order.Nat

/-! The largest free chunk of a slab is known by one pointer and one size, and after a chunk
is taken they stand for what is left of it. A larger chunk elsewhere in the slab is then
forgotten. -/
namespace CuteNdk.MemPool
open Lib (run Always Along alwaysIffAlong)

/- The size of the largest chunk that is not handed out, 0 if there is none. -/
def largestFree (p : MemPool) (live : Blocks) (slab : Nat) : Nat :=
  (((p.chunkList slab).filter fun h => ¬ Live live h).map fun h => (header p.mem h).size).foldr max 0

structure Remembered (t : Session) : Prop where
  largest : ∀ slab ∈ t.pool.slabChain, t.pool.maxSize slab = largestFree t.pool t.live slab
  exhausted : ∀ n news q, 1 ≤ n → n ≤ t.pool.slabSize → Fresh t.pool news → t.pool.malloc n news = some (0,q) →
    q.locked = false → t.pool.maxSlabs ≤ t.pool.allocedSlabs ∧
      ∀ slab ∈ t.pool.slabChain, ∀ h ∈ t.pool.chunkList slab, ¬ Live t.live h → (header t.pool.mem h).size < mallocRoundup n

/- What is left of the chunk is no smaller than any other free one of the slab. -/
def LeavesLargest (t : Session) : Op → Prop
  | .malloc n _ => t.pool.locked = true ∨ t.pool.slabSize < n ∨
    ∀ slab, t.pool.findUsableSlab (mallocRoundup n) (t.pool.allocedSlabs + 1) t.pool.slabsHead = some (some slab) →
      ∀ h ∈ t.pool.chunkList slab, ¬ Live t.live h → h ≠ (t.pool.slabs slab).maxSeriateFreeHead →
        (header t.pool.mem h).size ≤ (t.pool.slabs slab).maxSeriateSize - mallocRoundup n - sizeofObjHeader
  | _ => True

def NoneLarger : SlabProperty := fun m s live hs => ∀ h ∈ hs, ¬ Live live h → (header m h).size ≤ s.maxSeriateSize

theorem noneLargerLocal : Local NoneLarger := by
  refine ⟨fun headers lives links holds h mem free => ?_,fun _ _ _ size h mem _ => ?_⟩
  · rw [headers h mem,links]
    exact holds h mem fun isLive => free ((lives h mem).2 isLive)
  · cases List.mem_singleton.1 mem
    exact Nat.le_of_eq size

theorem noneLargerGives : Gives NoneLarger 0 := by
  intro m slabSize s slab live l₁ f l₂ m₁ pre f₁ post w isLive _ merged holds h mem free
  obtain ⟨more,covers⟩ := ajustedMax m₁ f₁ s
  by_cases same : h = f₁
  · rw [same]
    exact covers
  · have kept : h ∈ pre ++ post := by
      rw [List.mem_append,List.mem_cons] at mem
      rw [List.mem_append]
      exact mem.imp_right fun later => later.resolve_left same
    obtain ⟨old,other,_⟩ := keptOld w merged h kept
    rw [liveWithout] at free
    rw [(merged.rest h kept).1]
    exact Nat.le_trans (holds h old fun isLive => free ⟨isLive,other⟩) more

section Largest
variable {t t' : Session} {chain chain' : List Nat} {hs hs' : Nat → List Nat} {op : Op}

theorem noneLargerTakes (w : PoolWell t.pool t.live chain hs) (leaves : LeavesLargest t op) :
    Takes NoneLarger t chain hs op := by
  intro n news p₁ taken hs₁ slab l₁ f l₂ new m₁ s₁ isOp prefix_ open_ fits _ usable grew well split isHead free popped _
  subst isOp
  have left : s₁.maxSeriateSize = (p₁.slabs slab).maxSeriateSize - mallocRoundup n - sizeofObjHeader := by
    rcases popped.cut with ⟨_,_,none_,_⟩ | ⟨_,_,_,size,_⟩ <;> omega
  have others : ∀ h ∈ l₁ ++ l₂, ¬ Live t.live h → (header p₁.mem h).size ≤ s₁.maxSeriateSize := by
    intro h mem free
    cases usable with
    | found first =>
      have here := List.mem_of_find?_eq_some first
      have holds := (leaves.resolve_left (by simp [open_])).resolve_left (Nat.not_lt.2 fits) slab
      rw [findsFirst w,first,chunkListIs w here,split] at holds
      rw [left]
      refine holds rfl h ?_ free ?_
      · rw [List.mem_append] at mem ⊢
        exact mem.imp_right (List.mem_cons_of_mem f)
      · rw [isHead]
        rintro rfl
        have nodup := Lib.dllNodup (w.well slab here).chunks.linked
        rw [split] at nodup
        obtain ⟨_,nodup',apart⟩ := List.nodup_append.1 nodup
        rcases List.mem_append.1 mem with mem | mem
        · exact apart h mem h List.mem_cons_self rfl
        · exact (List.nodup_cons.1 nodup').1 mem
    | @added _ new taken _ none_ below =>
      rw [(grew.new new List.mem_cons_self).2.2.2] at split
      obtain ⟨rfl,_,rfl⟩ := onlyChunk split
      cases mem
  intro h mem notLive
  rw [liveCons] at notLive
  simp only [List.mem_append,List.mem_cons] at mem
  by_cases inNew : h ∈ new
  · rcases popped.cut with ⟨rfl,_⟩ | ⟨_,rfl,_,_,size,_⟩
    · cases inNew
    · cases List.mem_singleton.1 inNew
      exact Nat.le_of_eq size
  · have kept : h ∈ l₁ ++ l₂ := by
      rw [List.mem_append]
      refine mem.imp_right fun later => (later.resolve_left fun same => notLive (.inl same)).resolve_left inNew
    rw [(popped.rest h kept).1]
    exact others h kept fun isLive => notLive (.inr isLive)

/- The invariant of the runs in which no chunk is forgotten. -/
def WellKnown (s : Option Session) : Prop :=
  ∃ t chain hs, s = some t ∧ PoolWell t.pool t.live chain hs ∧ chain.Perm t.allocated ∧ Each NoneLarger t.pool t.live chain hs

theorem largestIs {p : MemPool} {live : Blocks} {slab : Nat} (w : PoolWell p live chain hs)
    (each : Each NoneLarger p live chain hs) (here : slab ∈ chain) : p.maxSize slab = largestFree p live slab := by
  have list := chunkListIs w here
  unfold largestFree
  rw [list]
  refine Nat.le_antisymm ?_ ?_
  · rcases (w.well slab here).largest with ⟨_,none_⟩ | ⟨mem,free,size⟩
    · unfold maxSize
      rw [none_]
      exact Nat.zero_le _
    · unfold maxSize
      rw [← size]
      refine List.le_max_of_le (List.mem_map_of_mem (List.mem_filter.2 ⟨mem,?_⟩)) (Nat.le_refl _)
      simpa using free
  · change List.foldr max ⊥ _ ≤ _
    refine List.max_le_of_forall_le _ _ fun size mem => ?_
    obtain ⟨h,memH,rfl⟩ := List.mem_map.1 mem
    obtain ⟨memH,free⟩ := List.mem_filter.1 memH
    exact each slab here h memH (by simpa using free)

theorem rememberedOf (w : PoolWell t.pool t.live chain hs) (each : Each NoneLarger t.pool t.live chain hs) : Remembered t := by
  have isChain := chainIs w
  refine ⟨fun slab here => largestIs w each (isChain ▸ here),fun n news q some_ fits fresh runs unlocked => ?_⟩
  rw [isChain]
  obtain ⟨r,q',chain',hs',taken,runs',malloced,_⟩ := poolMallocs w fresh (.inl (Nat.ne_of_gt some_))
  rw [runs] at runs'
  cases runs'
  have sizeof : sizeofObjHeader = 32 := rfl
  generalize isResult : (0 : Nat) = r at malloced
  cases malloced with
  | large large => omega
  | exhausted fits none_ full =>
    refine ⟨full,fun slab here h mem free => ?_⟩
    rw [chunkListIs w here] at mem
    exact Nat.lt_of_le_of_lt (each slab here h mem free) (none_ slab here)
  | thrown fits none_ grew well => cases unlocked
  | took fits finds usable grew well took free => omega

/- A larger chunk than what is left is forgotten. -/
theorem forgets (w : PoolWell t.pool t.live chain hs) (w' : PoolWell t'.pool t'.live chain' hs')
    (stepped : Stepped t chain hs op t' chain' hs') (off : ¬ LeavesLargest t op) : ¬ Remembered t' := by
  intro remembered
  cases stepped with
  | waits locked =>
    cases op with
    | malloc n news => exact off (.inl locked)
    | free memory => exact off trivial
    | write a byte => exact off trivial
  | frees gave => exact off trivial
  | writes headers => exact off trivial
  | @mallocs n r news taken q chain' hs' open_ runs prefix_ malloced =>
    unfold LeavesLargest at off
    push Not at off
    obtain ⟨_,fits,slab,finds,h,memH,free,other,larger⟩ := off
    rw [findsFirst w] at finds
    have first := Option.some.inj finds
    have here := List.mem_of_find?_eq_some first
    have enough : mallocRoundup n ≤ t.pool.maxSize slab := by simpa using List.find?_some first
    cases malloced with
    | large large => omega
    | exhausted _ none_ full => exact absurd (none_ slab here) (Nat.not_lt.2 enough)
    | thrown _ none_ grew well => exact absurd (none_ slab here) (Nat.not_lt.2 enough)
    | @took p₁ _ _ hs₁ _ _ slab' l₁ f l₂ new m₁ s₁ _ _ usable grew well took _ =>
      cases usable with
      | added none_ below => exact absurd (none_ slab here) (Nat.not_lt.2 enough)
      | found first' =>
        cases first.symm.trans first'
        have sizeof : sizeofObjHeader = 32 := rfl
        have some_ : f + sizeofObjHeader ≠ 0 := by omega
        have kept : h ∈ l₁ ++ l₂ := by
          rw [chunkListIs w here,took.split,List.mem_append,List.mem_cons] at memH
          rw [List.mem_append]
          exact memH.imp_right fun later => later.resolve_left fun same => other (same.trans took.isHead.symm)
        have here' : slab ∈ chain' := took.perm.symm.subset took.here
        have mem : h ∈ q.chunkList slab := by
          rw [chunkListIs w' here',took.chunks,Function.update_self]
          simp only [List.mem_append,List.mem_cons] at kept ⊢
          exact kept.imp_right fun later => .inr (.inr later)
        have qMem : q.mem = m₁ := by rw [took.relinked.pool]
        have max : q.maxSize slab = s₁.maxSeriateSize := by
          unfold maxSize
          rw [took.relinked.slab slab]
          simp only [Function.update_self]
        have left : s₁.maxSeriateSize = (t.pool.slabs slab).maxSeriateSize - mallocRoundup n - sizeofObjHeader := by
          rcases took.popped.cut with ⟨_,_,none_,_⟩ | ⟨_,_,_,size,_⟩ <;> omega
        have largest := remembered.largest slab (by rw [chainIs w']; exact here')
        dsimp only at largest
        rw [if_neg some_,max] at largest
        have bound : (header q.mem h).size ≤ largestFree q ((f + sizeofObjHeader,n) :: t.live) slab := by
          refine List.le_max_of_le (List.mem_map_of_mem (List.mem_filter.2 ⟨mem,?_⟩)) (Nat.le_refl _)
          rw [decide_eq_true_eq,liveCons]
          exact fun isLive => isLive.elim (fun same => other (same.trans took.isHead.symm)) free
        rw [qMem,(took.popped.rest h kept).1] at bound
        omega

/- The condition of a step, on the session it starts in. -/
def Leaves (s : Option Session) (op : Op) : Prop := ∀ t, s = some t → LeavesLargest t op

def Remembers (s : Option Session) : Prop := ∃ t, s = some t ∧ Remembered t

theorem leavesKeep {s s' : Option Session} (known : WellKnown s) (leaves : Leaves s op) (steps : step 1 s op = some s') :
    WellKnown s' := by
  obtain ⟨t,chain,hs,rfl,w,perm,each⟩ := known
  obtain ⟨t',chain',hs',rfl,stepped,w',perm'⟩ := stepSteps w perm poppableAbove steps
  exact ⟨t',chain',hs',rfl,w',perm',eachStepped noneLargerLocal noneLargerGives (noneLargerTakes w (leaves t rfl)) w
    (fun _ _ => Nat.zero_le _) (stepAllowed steps).1 each stepped⟩

theorem remembersIffLeaves {p₀ p : MemPool} {slabSize prealloc maxSlabs : Int} {news : List New} (unused : Unused p₀)
    (inits : p₀.init slabSize prealloc maxSlabs news = some (some 0,p))
    (fresh : Fresh { p₀ with slabSize := p.slabSize } news) (ops : List Op) :
    Always (step 1) Remembers (some (started p news)) ops ↔ Along (step 1) Leaves (some (started p news)) ops := by
  have keeps : ∀ s op s', WellKnown s → Leaves s op → step 1 s op = some s' → WellKnown s' := fun _ _ _ => leavesKeep
  refine alwaysIffAlong keeps (fun s known => ?_) (fun s op s' known off steps => ?_) ?_ ops
  · obtain ⟨t,chain,hs,rfl,w,_,each⟩ := known
    exact ⟨t,rfl,rememberedOf w each⟩
  · obtain ⟨t,chain,hs,rfl,w,perm,_⟩ := known
    obtain ⟨t',chain',hs',rfl,stepped,w',_⟩ := stepSteps w perm poppableAbove steps
    rintro ⟨t'',isT,remembered⟩
    cases isT
    refine forgets w w' stepped (fun leaves => off fun t'' isT => ?_) remembered
    cases isT
    exact leaves
  · obtain ⟨chain,hs,w,perm,each⟩ := startedEach noneLargerLocal unused inits fresh
    exact ⟨_,chain,hs,rfl,w,perm,each⟩

/- Of two free chunks the one that was not known as the largest is forgotten when all of
the other is taken. -/
theorem otherForgotten :
    ¬ Always (step 1) Remembers (some (started dirtyPool [⟨4096,9⟩,⟨8192,5⟩]))
      [.malloc 8 [],.malloc 40 [],.malloc 8 [],.free 4168,.malloc 16 []] := by
  intro always
  have forgotten : (run (step 1) (some (started dirtyPool [⟨4096,9⟩,⟨8192,5⟩]))
      [.malloc 8 [],.malloc 40 [],.malloc 8 [],.free 4168,.malloc 16 []]).any (fun s => s.any fun t =>
        decide (9 ∈ t.pool.slabChain ∧ t.pool.maxSize 9 ≠ largestFree t.pool t.live 9)) = true := by decide +kernel
  obtain ⟨s,ends,off⟩ := (Option.any_eq_true _ _).1 forgotten
  obtain ⟨t,rfl,remembered⟩ := Lib.alwaysAtEnd always ends
  obtain ⟨here,other⟩ := of_decide_eq_true off
  exact other (remembered.largest 9 here)

theorem remembersIffLeavesInRun :
    (run (step 1) (some (started dirtyPool [⟨4096,9⟩,⟨8192,5⟩])) [.malloc 8 [],.malloc 40 [],.malloc 8 [],.free 4168,
      .malloc 16 []]).isSome = true ∧
    (Always (step 1) Remembers (some (started dirtyPool [⟨4096,9⟩,⟨8192,5⟩]))
        [.malloc 8 [],.malloc 40 [],.malloc 8 [],.free 4168,.malloc 16 []] ↔
      Along (step 1) Leaves (some (started dirtyPool [⟨4096,9⟩,⟨8192,5⟩]))
        [.malloc 8 [],.malloc 40 [],.malloc 8 [],.free 4168,.malloc 16 []]) :=
  ⟨by decide +kernel,remembersIffLeaves ⟨rfl,rfl,rfl⟩ dirtyInits (by decide +kernel) _⟩

end Largest

end CuteNdk.MemPool
