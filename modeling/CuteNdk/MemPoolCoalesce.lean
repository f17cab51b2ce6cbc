import CuteNdk.MemPoolEach
import CuteNdk.MemPoolLayout
import Mathlib.Data.List.Chain

/-! Free chunks next to each other are merged as long as inuse_ tells them from those handed
out. The header of what is left of a chunk is written over memory the program has used, all
but inuse_. -/
namespace CuteNdk.MemPool
open Lib.Bytes (Memory)
open Lib (run dllNodup tilesSum Always Along alwaysMono alwaysOfInvariant)

/- With every block given back each slab is one chunk again. -/
def Coalesced (t : Session) : Prop :=
  t.live = [] → ∀ slab ∈ t.pool.slabChain, t.pool.chunkList slab = [t.pool.slabHead slab] ∧
    (header t.pool.mem (t.pool.slabHead slab)).size = t.pool.slabSize ∧
    (t.pool.slabs slab).maxSeriateSize = t.pool.slabSize ∧
    (t.pool.slabs slab).maxSeriateFreeHead = t.pool.slabHead slab ∧ (t.pool.slabs slab).inuseObjs = 0

/- Where pop_usable_object is about to put the header of what is left, inuse_ is 0. -/
def LeavesClean (t : Session) : Op → Prop
  | .malloc n news => t.pool.locked = true ∨ t.pool.slabSize < n ∨
    ∀ r ∈ t.pool.handed (mallocRoundup n) news, mallocRoundup n + sizeofObjHeader < (r.2.slabs r.1).maxSeriateSize →
      (header r.2.mem ((r.2.slabs r.1).maxSeriateFreeHead + sizeofObjHeader + mallocRoundup n)).inuse = 0
  | _ => True

instance (t : Session) : (op : Op) → Decidable (LeavesClean t op)
  | .malloc _ _ => by unfold LeavesClean; infer_instance
  | .free _ => isTrue trivial
  | .write _ _ => isTrue trivial

/- A free chunk is marked free, unless it is the only one, and has none beside it. -/
structure Merging (m : Memory) (s : SlabHeader) (live : Blocks) (hs : List Nat) : Prop where
  clean : ∀ h ∈ hs, ¬ Live live h → (header m h).inuse = 0 ∨ hs = [h]
  spread : hs.IsChain fun a b => Live live a ∨ Live live b
  full : s.maxSeriateFreeHead = 0 → ∃ h ∈ hs, Live live h

section Chains
variable {R : Nat → Nat → Prop} {l₁ l₂ : List Nat} {f h : Nat}

theorem chainAround : (l₁ ++ f :: l₂).IsChain R ↔
    l₁.IsChain R ∧ l₂.IsChain R ∧ (∀ a ∈ l₁.getLast?, R a f) ∧ ∀ b ∈ l₂.head?, R f b := by
  rw [List.isChain_append,List.isChain_cons]
  constructor
  · rintro ⟨front,⟨after,back⟩,before⟩
    exact ⟨front,back,fun a last => before a last f rfl,after⟩
  · rintro ⟨front,back,before,after⟩
    refine ⟨front,⟨after,back⟩,fun a last b first => ?_⟩
    cases first
    exact before a last

theorem onlyOne (only : l₁ ++ f :: l₂ = [h]) : h = f := (onlyChunk only.symm).2.1

end Chains

theorem mergingLocal : Local Merging := by
  refine ⟨fun headers lives links holds => ⟨fun h mem free => ?_,?_,fun null => ?_⟩,fun free some_ isHead _ => ⟨fun h mem _ => ?_,?_,fun null => ?_⟩⟩
  · rw [headers h mem]
    exact holds.clean h mem fun isLive => free ((lives h mem).2 isLive)
  · exact holds.spread.imp_of_mem_imp fun a b memA memB either => either.imp (lives a memA).2 (lives b memB).2
  · rw [links] at null
    obtain ⟨h,mem,isLive⟩ := holds.full null
    exact ⟨h,mem,(lives h mem).2 isLive⟩
  · cases List.mem_singleton.1 mem
    exact .inr rfl
  · exact List.isChain_singleton _
  · exact absurd (isHead.symm.trans null) some_

section Merging
variable {t t' : Session} {chain chain' : List Nat} {hs hs' : Nat → List Nat} {op : Op}

theorem mergingTakes (leaves : LeavesClean t op) : Takes Merging t chain hs op := by
  intro n news p₁ taken hs₁ slab l₁ f l₂ new m₁ s₁ isOp prefix_ open_ fits finds usable grew well split isHead free popped had
  subst isOp
  obtain ⟨front,back,before,after⟩ := chainAround.1 had.spread
  have nodup := dllNodup popped.chunks.linked
  have isLive : Live ((f + sizeofObjHeader,n) :: t.live) f := liveCons.2 (.inl rfl)
  have more : ∀ {h : Nat}, Live t.live h → Live ((f + sizeofObjHeader,n) :: t.live) h := fun live => liveCons.2 (.inr live)
  refine ⟨fun h mem notLive => ?_,chainAround.2 ⟨?_,?_,fun a last => .inr isLive,fun b first => .inl isLive⟩,
    fun _ => ⟨f,List.mem_append_right _ List.mem_cons_self,isLive⟩⟩
  · rw [liveCons,not_or] at notLive
    simp only [List.mem_append,List.mem_cons] at mem
    by_cases inNew : h ∈ new
    · rcases popped.cut with ⟨rfl,_⟩ | ⟨room,rfl,_,_,_,inuse⟩
      · cases inNew
      · cases List.mem_singleton.1 inNew
        rw [inuse,← isHead]
        exact .inl ((leaves.resolve_left (by simp [open_])).resolve_left (Nat.not_lt.2 fits) (slab,p₁)
          (handedSlab.2 finds) room)
    · have kept : h ∈ l₁ ++ l₂ := by
        rw [List.mem_append]
        exact mem.imp_right fun later => (later.resolve_left notLive.1).resolve_left inNew
      have old : h ∈ l₁ ++ f :: l₂ := by
        rw [List.mem_append] at kept ⊢
        exact kept.imp_right (List.mem_cons_of_mem f)
      rw [(popped.rest h kept).2]
      exact .inl ((had.clean h old notLive.2).resolve_right fun only => notLive.1 (onlyOne only))
  · exact front.imp fun a b either => either.imp more more
  · refine List.isChain_append.2 ⟨?_,back.imp fun a b either => either.imp more more,fun a _ b first => .inr (more ?_)⟩
    · rcases popped.cut with ⟨rfl,_⟩ | ⟨_,rfl,_⟩
      · exact List.isChain_nil
      · exact List.isChain_singleton _
    · exact (after b first).resolve_left free

theorem mergingGives : Gives Merging 1 := by
  intro m slabSize s slab live l₁ f l₂ m₁ pre f₁ post w isLive large merged had
  have old := keptOld w merged
  have positive := w.placed.positive
  have lives : ∀ h ∈ pre ++ post, Live (without live (f + sizeofObjHeader)) h ↔ Live live h := fun h mem => by
    rw [liveWithout]
    exact and_iff_left (old h mem).2.1
  obtain ⟨front,back,_,_⟩ := chainAround.1 had.spread
  have marked : ∀ h ∈ l₁ ++ f :: l₂, (header m h).inuse ≠ 0 → h ≠ f → Live live h := fun h mem used other => by
    by_contra free
    exact used ((had.clean h mem free).resolve_right fun only => other (onlyOne only))
  have preSpread : pre.IsChain (fun a b => Live live a ∨ Live live b) ∧ ∀ a ∈ pre.getLast?, Live live a := by
    rcases merged.front with ⟨same,_,used⟩ | ⟨split,free,_⟩
    · rw [same]
      refine ⟨front,fun a last => ?_⟩
      have kept := old a (List.mem_append_left _ (same ▸ List.mem_of_getLast? last))
      exact marked a kept.1 (used a last) kept.2.1
    · rw [split] at front
      obtain ⟨spread,_,before,_⟩ := chainAround.1 front
      refine ⟨spread,fun a last => (before a last).resolve_right fun isLive => ?_⟩
      have mark := w.marked f₁ (by simp [split]) isLive
      exact absurd (mark.symm.trans free) (by decide)
  have postSpread : post.IsChain (fun a b => Live live a ∨ Live live b) ∧ ∀ b ∈ post.head?, Live live b := by
    rcases merged.back with ⟨same,used⟩ | ⟨b,split,free,_⟩
    · rw [same]
      refine ⟨back,fun b first => ?_⟩
      have kept := old b (List.mem_append_right _ (same ▸ List.mem_of_head? first))
      exact marked b kept.1 (used b first) kept.2.1
    · rw [split] at back
      obtain ⟨after,spread⟩ := List.isChain_cons.1 back
      refine ⟨spread,fun c first => (after c first).resolve_left fun isLive => ?_⟩
      have mark := w.marked b (by simp [split]) isLive
      exact absurd (mark.symm.trans free) (by decide)
  have kept : ∀ h ∈ pre ++ f₁ :: post, h ≠ f₁ → h ∈ pre ++ post := fun h mem other => by
    rw [List.mem_append,List.mem_cons] at mem
    rw [List.mem_append]
    exact mem.imp_right fun later => later.resolve_left other
  have still : ∀ h ∈ pre ++ post, Live live h → Live (without live (f + sizeofObjHeader)) h := fun h mem =>
    (lives h mem).2
  refine ⟨fun h mem free => ?_,chainAround.2 ⟨?_,?_,fun a last => .inl ?_,fun b first => .inr ?_⟩,fun null => ?_⟩
  · by_cases same : h = f₁
    · rw [same]
      exact .inl merged.free
    · have stays := kept h mem same
      obtain ⟨mem',other,_⟩ := old h stays
      rw [(merged.rest h stays).2]
      exact .inl ((had.clean h mem' fun isLive => free (still h stays isLive)).resolve_right fun only => other (onlyOne only))
  · refine preSpread.1.imp_of_mem_imp fun a b memA memB either => ?_
    exact either.imp (still a (List.mem_append_left _ memA)) (still b (List.mem_append_left _ memB))
  · refine postSpread.1.imp_of_mem_imp fun a b memA memB either => ?_
    exact either.imp (still a (List.mem_append_right _ memA)) (still b (List.mem_append_right _ memB))
  · exact still a (List.mem_append_left _ (List.mem_of_getLast? last)) (preSpread.2 a last)
  · exact still b (List.mem_append_right _ (List.mem_of_head? first)) (postSpread.2 b first)
  · exfalso
    have place := chunkRange merged.chunks (List.mem_append_right _ List.mem_cons_self)
    have size := merged.size
    dsimp only at null
    unfold ajusted at null
    split at null
    · dsimp only at null
      omega
    · rcases w.largest with ⟨_,none_⟩ | ⟨mem,_⟩
      · omega
      · have range := chunkRange w.chunks mem
        omega

/- The invariant of the runs in which every new header is marked free. -/
def WellMerging (s : Option Session) : Prop :=
  ∃ t chain hs, s = some t ∧ PoolWell t.pool t.live chain hs ∧ chain.Perm t.allocated ∧ (∀ b ∈ t.live, 1 ≤ b.2) ∧
    Each Merging t.pool t.live chain hs

theorem coalescedOf (w : PoolWell t.pool t.live chain hs) (each : Each Merging t.pool t.live chain hs) : Coalesced t := by
  intro noneLive slab here
  rw [chainIs w] at here
  have none_ (h : Nat) : ¬ Live t.live h := by
    rw [noneLive]
    exact List.not_mem_nil
  have well := w.well slab here
  have merging := each slab here
  have only : hs slab = [t.pool.slabHead slab] := by
    have start := chunksStart w here
    have spread := merging.spread
    cases chunks : hs slab with
    | nil =>
      rw [chunks] at start
      cases start
    | cons h l =>
      rw [chunks] at start spread
      cases start
      cases l with
      | nil => rfl
      | cons b l => exact absurd (List.isChain_cons_cons.1 spread).1 fun either => either.elim (none_ _) (none_ b)
  have tiles := well.chunks.tiles
  have largest := well.largest
  have counted := well.counted
  rw [only] at tiles largest counted
  have size : (header t.pool.mem (t.pool.slabHead slab)).size = t.pool.slabSize := by
    have ends := tilesSum tiles
    simp only [List.map_cons,List.map_nil,List.sum_cons,List.sum_nil] at ends
    unfold extent slabEnd slabHead at *
    omega
  rw [chunkListIs w here]
  rcases largest with ⟨null,_⟩ | ⟨mem,_,isSize⟩
  · obtain ⟨h,_,isLive⟩ := merging.full null
    exact absurd isLive (none_ h)
  · have isHead := List.mem_singleton.1 mem
    rw [isHead] at isSize
    refine ⟨only,size,isSize.symm.trans size,isHead,?_⟩
    rw [counted,objsCons,if_neg (none_ _)]
    rfl

def CleanStep (s : Option Session) (op : Op) : Prop := ∀ t ∈ s, LeavesClean t op

instance (s : Option Session) (op : Op) : Decidable (CleanStep s op) :=
  inferInstanceAs (Decidable (∀ t ∈ s, LeavesClean t op))

theorem mergingKept {s s' : Option Session} (merging : WellMerging s) (clean : CleanStep s op) (steps : step 1 s op = some s') :
    WellMerging s' := by
  obtain ⟨t,chain,hs,rfl,w,perm,sizes,each⟩ := merging
  obtain ⟨t',chain',hs',rfl,stepped,w',perm'⟩ := stepSteps w perm poppableAbove steps
  have allowed := (stepAllowed steps).1
  exact ⟨t',chain',hs',rfl,w',perm',sizesStepped allowed sizes stepped,
    eachStepped mergingLocal mergingGives (mergingTakes (clean t rfl)) w sizes allowed each stepped⟩

theorem coalescesWhileClean {p₀ p : MemPool} {slabSize prealloc maxSlabs : Int} {news : List New} {ops : List Op}
    (unused : Unused p₀) (inits : p₀.init slabSize prealloc maxSlabs news = some (some 0,p))
    (fresh : Fresh { p₀ with slabSize := p.slabSize } news) (clean : Along (step 1) CleanStep (some (started p news)) ops) :
    Always (step 1) (fun s => ∃ t, s = some t ∧ Coalesced t) (some (started p news)) ops := by
  obtain ⟨chain,hs,w,perm,each⟩ := startedEach mergingLocal unused inits fresh
  have begins : WellMerging (some (started p news)) := ⟨_,chain,hs,rfl,w,perm,nofun,each⟩
  refine alwaysMono (fun s merging => ?_) (alwaysOfInvariant (fun s op s' => mergingKept) begins clean)
  obtain ⟨t,chain,hs,rfl,w,_,_,each⟩ := merging
  exact ⟨t,rfl,coalescedOf w each⟩

/- Two blocks are given back, the first one first. -/
theorem coalescesWhileCleanInRun :
    (run (step 1) (some (started cleanPool [⟨4096,9⟩,⟨8192,5⟩])) [.malloc 20 [],.malloc 40 [],.write 4190 255,.free 4128,
      .free 4184]).any (fun s => s.any fun t => t.live.isEmpty) = true ∧
    Always (step 1) (fun s => ∃ t, s = some t ∧ Coalesced t) (some (started cleanPool [⟨4096,9⟩,⟨8192,5⟩]))
      [.malloc 20 [],.malloc 40 [],.write 4190 255,.free 4128,.free 4184] :=
  ⟨by decide +kernel,coalescesWhileClean ⟨rfl,rfl,rfl⟩ cleanInits (by decide +kernel) (by decide +kernel)⟩

/- What the program has written is taken for a mark. -/
theorem writtenNotMerged :
    ¬ Always (step 1) (fun s => ∃ t, s = some t ∧ Coalesced t) (some (started cleanPool [⟨4096,9⟩,⟨8192,5⟩]))
      [.malloc 200 [],.write 4152 255,.free 4128,.malloc 20 [],.free 4128] := by
  intro always
  have apart : (run (step 1) (some (started cleanPool [⟨4096,9⟩,⟨8192,5⟩]))
      [.malloc 200 [],.write 4152 255,.free 4128,.malloc 20 [],.free 4128]).any (fun s => s.any fun t =>
        decide (t.live = [] ∧ 9 ∈ t.pool.slabChain ∧ t.pool.chunkList 9 ≠ [t.pool.slabHead 9])) = true := by decide +kernel
  obtain ⟨s,ends,off⟩ := (Option.any_eq_true _ _).1 apart
  obtain ⟨t,rfl,coalesced⟩ := Lib.alwaysAtEnd always ends
  obtain ⟨none_,here,other⟩ := of_decide_eq_true off
  exact other (coalesced none_ 9 here).1

end Merging

end CuteNdk.MemPool
