import CuteNdk.MemPoolRuns

/-! A property of the slabs one by one, along a run: only the slab that a call takes from or
gives back to can lose it. -/
namespace CuteNdk.MemPool
open Lib.Bytes (Memory)

abbrev SlabProperty := Memory → SlabHeader → Blocks → List Nat → Prop

/- X looks at the chunks of the slab and what the slab knows of them, and a slab that is one
free chunk has it. -/
structure Local (X : SlabProperty) : Prop where
  congr : ∀ {m m' : Memory} {s s' : SlabHeader} {live live' : Blocks} {hs : List Nat},
    (∀ h ∈ hs, header m' h = header m h) → (∀ h ∈ hs, Live live' h ↔ Live live h) →
    s' = { s with prev := s'.prev, next := s'.next } → X m s live hs → X m' s' live' hs
  fresh : ∀ {m : Memory} {s : SlabHeader} {live : Blocks} {h : Nat}, ¬ Live live h → h ≠ 0 → s.maxSeriateFreeHead = h →
    (header m h).size = s.maxSeriateSize → X m s live [h]

def Each (X : SlabProperty) (p : MemPool) (live : Blocks) (chain : List Nat) (hs : Nat → List Nat) : Prop :=
  ∀ slab ∈ chain, X p.mem (p.slabs slab) live (hs slab)

/- The slab that malloc takes from has X afterwards. -/
def Takes (X : SlabProperty) (t : Session) (chain : List Nat) (hs : Nat → List Nat) (op : Op) : Prop :=
  ∀ n news p₁ taken hs₁ slab l₁ f l₂ new m₁ s₁, op = .malloc n news → taken <+: news → t.pool.locked = false →
    n ≤ t.pool.slabSize → t.pool.usableSlab (mallocRoundup n) news = some (some (some slab),p₁) → Usable t.pool chain hs (mallocRoundup n) (some (some slab)) p₁ taken hs₁ →
    Grew t.pool p₁ chain taken hs hs₁ → PoolWell p₁ t.live (chain ++ taken.map New.slab) hs₁ → hs₁ slab = l₁ ++ f :: l₂ →
    (p₁.slabs slab).maxSeriateFreeHead = f → ¬ Live t.live f →
    Popped p₁.mem m₁ (p₁.slabs slab) s₁ slab (p₁.slabHead slab) (slabEnd p₁.slabSize (p₁.slabs slab)) l₁ f l₂
      (mallocRoundup n) new →
    X p₁.mem (p₁.slabs slab) t.live (l₁ ++ f :: l₂) → X m₁ s₁ ((f + sizeofObjHeader,n) :: t.live) (l₁ ++ f :: (new ++ l₂))

/- The slab that free gives back to has X afterwards. -/
def Gives (X : SlabProperty) (least : Nat) : Prop :=
  ∀ m slabSize s slab live l₁ f l₂ m₁ pre f₁ post, SlabWell m slabSize s slab live (l₁ ++ f :: l₂) → Live live f →
    least ≤ (header m f).size → Merged m m₁ slab s.head (slabEnd slabSize s) l₁ f l₂ pre f₁ post →
    X m s live (l₁ ++ f :: l₂) →
    X m₁ { ajusted m₁ f₁ s with inuseObjs := uint ((ajusted m₁ f₁ s).inuseObjs - 1) } (without live (f + sizeofObjHeader))
      (pre ++ f₁ :: post)

theorem onlyChunk {a f : Nat} {l₁ l₂ : List Nat} (split : [a] = l₁ ++ f :: l₂) : l₁ = [] ∧ a = f ∧ l₂ = [] := by
  cases l₁ with
  | nil =>
    cases split
    exact ⟨rfl,rfl,rfl⟩
  | cons b l =>
    have tail : [] = l ++ f :: l₂ := (List.cons.inj split).2
    simp at tail

section Each
variable {X : SlabProperty} {t t' : Session} {p q p₁ : MemPool} {live live' : Blocks} {chain chain' : List Nat}
  {hs hs' hs₁ : Nat → List Nat} {op : Op} {taken : List New}

theorem eachGrew (local_ : Local X) (each : Each X p live chain hs) (w : PoolWell q live (chain ++ taken.map New.slab) hs')
    (grew : Grew p q chain taken hs hs') : Each X q live (chain ++ taken.map New.slab) hs' := by
  intro slab mem
  rcases List.mem_append.1 mem with mem | memNew
  · rw [grew.chunks slab mem]
    exact local_.congr (grew.headers slab mem) (fun _ _ => Iff.rfl) (grew.slabs slab mem) (each slab mem)
  · obtain ⟨new,memTaken,rfl⟩ := List.mem_map.1 memNew
    obtain ⟨_,head,at_,chunk⟩ := grew.new new memTaken
    have well := w.well new.slab mem
    have positive := well.placed.positive
    have some_ : new.memory ≠ 0 := by
      unfold slabHead at at_
      omega
    obtain ⟨_,free,size⟩ := well.largest.resolve_left fun null => some_ (head ▸ null.1)
    rw [head] at free size
    rw [chunk]
    exact local_.fresh free some_ head size

/- One slab has changed, and its place in the list. -/
theorem eachTouched {slab : Nat} {m₁ : Memory} {s₁ : SlabHeader} {hs₁ : List Nat} (local_ : Local X) (w : PoolWell p live chain hs)
    (each : Each X p live chain hs) (here : slab ∈ chain) (holds : X m₁ s₁ live' hs₁)
    (outside : ∀ a, a < p.slabHead slab ∨ slabEnd p.slabSize (p.slabs slab) ≤ a → m₁ a = p.mem a)
    (lives : ∀ slab' ∈ chain, slab' ≠ slab → ∀ h ∈ hs slab', Live live' h ↔ Live live h)
    (relinked : Relinked { p with mem := m₁, slabs := Function.update p.slabs slab s₁ } q) (perm : chain'.Perm chain) :
    Each X q live' chain' (Function.update hs slab hs₁) := by
  intro z memZ
  have mem : q.mem = m₁ := by rw [relinked.pool]
  have inChain := perm.subset memZ
  have links := relinked.slab z
  rw [mem]
  by_cases same : z = slab
  · subst same
    rw [Function.update_self]
    simp only [Function.update_self] at links
    exact local_.congr (fun _ _ => rfl) (fun _ _ => Iff.rfl) links holds
  · rw [Function.update_of_ne same]
    simp only [Function.update_of_ne same] at links
    exact local_.congr (fun h memH => headerBeside w here inChain same memH outside) (lives z inChain same) links
      (each z inChain)

theorem eachStepped {least least' : Nat} (local_ : Local X) (gives : Gives X least) (takes : Takes X t chain hs op)
    (w : PoolWell t.pool t.live chain hs) (sizes : ∀ b ∈ t.live, least ≤ b.2) (allowed : Allowed least' t op) (each : Each X t.pool t.live chain hs) (stepped : Stepped t chain hs op t' chain' hs') :
    Each X t'.pool t'.live chain' hs' := by
  cases stepped with
  | waits locked => exact each
  | @mallocs n r news taken q chain' hs' open_ runs prefix_ malloced =>
    cases malloced with
    | large large => exact each
    | exhausted fits none_ full => exact each
    | thrown fits none_ grew well =>
      have grown := eachGrew local_ each well grew
      exact grown
    | @took p₁ _ _ hs₁ _ _ slab l₁ f l₂ new m₁ s₁ fits finds usable grew well took free =>
      have sizeof : sizeofObjHeader = 32 := rfl
      have some_ : f + sizeofObjHeader ≠ 0 := by omega
      have before := eachGrew local_ each well grew
      have memF : f ∈ hs₁ slab := by
        rw [took.split]
        exact List.mem_append_right _ List.mem_cons_self
      have had := before slab took.here
      rw [took.split] at had
      have holds := takes n news p₁ taken hs₁ slab l₁ f l₂ new m₁ s₁ rfl prefix_ open_ fits finds usable grew well took.split
        took.isHead free took.popped had
      rw [took.chunks]
      dsimp only
      rw [if_neg some_]
      refine eachTouched local_ well before took.here holds took.popped.outside (fun z inChain other h memH => ?_)
        took.relinked took.perm
      rw [liveCons]
      exact or_iff_right fun same => other (slabOnce well took.here inChain memF (same ▸ memH))
  | @frees q chain' hs' slab l₁ f l₂ pre f₁ post m₁ s₁ gave =>
    have isLive : Live t.live f := allowed
    have memF : f ∈ hs slab := by
      rw [gave.split]
      exact List.mem_append_right _ List.mem_cons_self
    have well := w.well slab gave.here
    have had := each slab gave.here
    rw [gave.split] at well had
    have large : least ≤ (header t.pool.mem f).size := by
      obtain ⟨b,memB,isB⟩ := List.mem_map.1 isLive
      obtain ⟨_,_,h,_,isAt,fits⟩ := w.held b memB
      have same : h = f := by omega
      exact Nat.le_trans (sizes b memB) (same ▸ fits)
    have holds := gives _ _ _ slab _ l₁ f l₂ m₁ pre f₁ post well isLive large gave.merged had
    rw [gave.chunks]
    refine eachTouched local_ w each gave.here (gave.isSlab ▸ holds) gave.merged.outside (fun z inChain other h memH => ?_)
      gave.relinked gave.perm
    rw [liveWithout]
    exact and_iff_left fun same => other (slabOnce w gave.here inChain memF (same ▸ memH))
  | writes headers =>
    exact fun slab mem => local_.congr (headers slab mem) (fun _ _ => Iff.rfl) rfl (each slab mem)

theorem sizesStepped {least : Nat} (allowed : Allowed least t op) (sizes : ∀ b ∈ t.live, least ≤ b.2)
    (stepped : Stepped t chain hs op t' chain' hs') : ∀ b ∈ t'.live, least ≤ b.2 := by
  cases stepped with
  | waits locked => exact sizes
  | @mallocs n r news taken q chain' hs' open_ runs prefix_ malloced =>
    dsimp only
    split
    · exact sizes
    · intro b mem
      rcases List.mem_cons.1 mem with rfl | mem
      · exact allowed.1
      · exact sizes b mem
  | frees gave => exact fun b mem => sizes b (List.mem_of_mem_filter mem)
  | writes headers => exact sizes

theorem startedEach {p₀ p : MemPool} {slabSize prealloc maxSlabs : Int} {news : List New} (local_ : Local X) (unused : Unused p₀)
    (inits : p₀.init slabSize prealloc maxSlabs news = some (some 0,p))
    (fresh : Fresh { p₀ with slabSize := p.slabSize } news) :
    ∃ chain hs, PoolWell p [] chain hs ∧ chain.Perm (started p news).allocated ∧ Each X p [] chain hs := by
  obtain ⟨p₁,taken,hs,prefix_,well,grew,count⟩ := initWell unused inits fresh
  have none_ : Each X p₁ [] [] fun _ => [] := nofun
  refine ⟨taken.map New.slab,hs,well,?_,eachGrew local_ none_ well grew⟩
  unfold started
  rw [count,← List.prefix_iff_eq_take.1 prefix_]

end Each

end CuteNdk.MemPool
