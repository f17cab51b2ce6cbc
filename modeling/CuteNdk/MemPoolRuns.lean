import CuteNdk.MemPoolCalls

/-! Runs of a pool and the program that uses it: malloc, free of the blocks it holds, and
bytes written in them. A state of none is one that is not defined: a null pointer has been
followed, or a call does not end. -/
namespace CuteNdk.MemPool
open Lib.Bytes (Memory)
open Lib (run Always)

/- allocated: the slabs new has been called for so far. -/
structure Session where
  pool : MemPool
  allocated : List Nat
  live : Blocks

inductive Op where
  | malloc (size : Nat) (news : List New)
  | free (memory : Nat)
  | write (a : Nat) (byte : UInt8)

/- Where mutex_ stays acquired the call waits for good. -/
def apply (t : Session) : Op → Option Session
  | .malloc size news =>
    if t.pool.locked then some t else
      (t.pool.malloc size news).map fun r =>
        ⟨r.2,t.allocated ++ (news.take (r.2.allocedSlabs - t.pool.allocedSlabs)).map New.slab,
          if r.1 = 0 then t.live else (r.1,size) :: t.live⟩
  | .free memory =>
    if t.pool.locked then some t else (t.pool.free memory).map fun p => ⟨p,t.allocated,without t.live memory⟩
  | .write a byte => some { t with pool := { t.pool with mem := Function.update t.pool.mem a byte } }

/- The sizes asked for are unsigned, and least at least. -/
def Allowed (least : Nat) (t : Session) : Op → Prop
  | .malloc size news => least ≤ size ∧ size < 256 ^ 4 ∧ Fresh t.pool news
  | .free memory => memory ∈ t.live.map Prod.fst
  | .write a _ => ∃ b ∈ t.live, b.1 ≤ a ∧ a < b.1 + b.2

instance (least : Nat) (t : Session) (op : Op) : Decidable (Allowed least t op) := by
  cases op <;> unfold Allowed <;> infer_instance

def step (least : Nat) : Option Session → Op → Option (Option Session)
  | none, _ => none
  | some t, op => if Allowed least t op then some (apply t op) else none

/- After init: nothing is handed out yet. -/
def started (p : MemPool) (news : List New) : Session := ⟨p,(news.take p.allocedSlabs).map New.slab,[]⟩

/- No request of no bytes at all while the first slab of the list is full. -/
def Poppable (t : Session) : Op → Prop
  | .malloc size _ => t.pool.locked = true ∨ size ≠ 0 ∨ ∀ z ∈ t.pool.slabsHead, (t.pool.slabs z).maxSeriateFreeHead ≠ 0
  | _ => True

/- The slab malloc hands to pop_usable_object, and the pool then. -/
def handed (p : MemPool) (size : Nat) (news : List New) : Option (Nat × MemPool) :=
  (p.usableSlab size news).bind fun r => r.1.bind fun slab => slab.map fun slab => (slab,r.2)

theorem handedSlab {p p₁ : MemPool} {size slab : Nat} {news : List New} :
    p.handed size news = some (slab,p₁) ↔ p.usableSlab size news = some (some (some slab),p₁) := by
  unfold handed
  constructor
  · intro hands
    obtain ⟨⟨r,q⟩,finds,rest⟩ := Option.bind_eq_some_iff.1 hands
    obtain ⟨found,rfl,last⟩ := Option.bind_eq_some_iff.1 rest
    obtain ⟨slab',rfl,pair⟩ := Option.map_eq_some_iff.1 last
    cases pair
    exact finds
  · intro finds
    rw [finds]
    rfl

/- What an operation does to a session that is well. -/
inductive Stepped (t : Session) (chain : List Nat) (hs : Nat → List Nat) : Op → Session → List Nat → (Nat → List Nat) → Prop
  | waits {op : Op} (locked : t.pool.locked = true) : Stepped t chain hs op t chain hs
  | mallocs {n r : Nat} {news taken : List New} {q : MemPool} {chain' : List Nat} {hs' : Nat → List Nat}
    (open_ : t.pool.locked = false) (runs : t.pool.malloc n news = some (r,q)) (prefix_ : taken <+: news)
    (malloced : Malloced t.pool t.live chain hs n news r q chain' hs' taken) :
    Stepped t chain hs (.malloc n news)
      ⟨q,t.allocated ++ (news.take (q.allocedSlabs - t.pool.allocedSlabs)).map New.slab,
        if r = 0 then t.live else (r,n) :: t.live⟩ chain' hs'
  | frees {q : MemPool} {chain' : List Nat} {hs' : Nat → List Nat} {slab : Nat} {l₁ : List Nat} {f : Nat}
    {l₂ pre : List Nat} {f₁ : Nat} {post : List Nat} {m₁ : Memory} {s₁ : SlabHeader}
    (gave : Gave t.pool q chain chain' hs hs' slab l₁ f l₂ pre f₁ post m₁ s₁) :
    Stepped t chain hs (.free (f + sizeofObjHeader)) ⟨q,t.allocated,without t.live (f + sizeofObjHeader)⟩ chain' hs'
  | writes {a : Nat} {byte : UInt8}
    (headers : ∀ slab ∈ chain, ∀ h ∈ hs slab, header (Function.update t.pool.mem a byte) h = header t.pool.mem h) :
    Stepped t chain hs (.write a byte) { t with pool := { t.pool with mem := Function.update t.pool.mem a byte } } chain hs

section Runs
variable {t : Session} {chain : List Nat} {hs : Nat → List Nat} {op : Op} {least : Nat}

theorem applySteps (w : PoolWell t.pool t.live chain hs) (perm : chain.Perm t.allocated) (allowed : Allowed least t op)
    (poppable : Poppable t op) :
    ∃ t' chain' hs', apply t op = some t' ∧ Stepped t chain hs op t' chain' hs' ∧ PoolWell t'.pool t'.live chain' hs' ∧
      chain'.Perm t'.allocated := by
  cases op with
  | malloc n news =>
    cases locked : t.pool.locked with
    | true => exact ⟨t,chain,hs,if_pos locked,.waits locked,w,perm⟩
    | false =>
      have some_ : n ≠ 0 ∨ ∀ z ∈ chain.head?, (t.pool.slabs z).maxSeriateFreeHead ≠ 0 := by
        rw [← (Lib.dllEnds w.list).1]
        exact poppable.resolve_left (by simp [locked])
      obtain ⟨r,q,chain',hs',taken,runs,malloced,prefix_,perm',well⟩ := poolMallocs w allowed.2.2 some_
      refine ⟨_,chain',hs',?_,.mallocs locked runs prefix_ malloced,well,?_⟩
      · simp only [apply,locked,Bool.false_eq_true,if_false,runs,Option.map_some]
      · have grown : q.allocedSlabs - t.pool.allocedSlabs = taken.length := by
          have count := perm'.length_eq
          rw [well.counted,List.length_append,w.counted,List.length_map] at count
          omega
        dsimp only
        rw [grown,← List.prefix_iff_eq_take.1 prefix_]
        exact perm'.trans (perm.append_right _)
  | free memory =>
    cases locked : t.pool.locked with
    | true => exact ⟨t,chain,hs,if_pos locked,.waits locked,w,perm⟩
    | false =>
      obtain ⟨q,chain',hs',slab,l₁,f,l₂,pre,f₁,post,m₁,s₁,frees,rfl,gave,well⟩ := poolGives w allowed
      refine ⟨_,chain',hs',?_,.frees gave,well,gave.perm.trans perm⟩
      simp only [apply,locked,Bool.false_eq_true,if_false,frees,Option.map_some]
  | write a byte =>
    obtain ⟨b,mem,low,high⟩ := allowed
    obtain ⟨well,headers⟩ := poolWrites byte w mem low high
    exact ⟨_,chain,hs,rfl,.writes headers,well,perm⟩

/- The invariant of every run. -/
def Well (s : Option Session) : Prop :=
  ∃ t chain hs, s = some t ∧ PoolWell t.pool t.live chain hs ∧ chain.Perm t.allocated

theorem startedWell {p₀ p : MemPool} {slabSize prealloc maxSlabs : Int} {news : List New} (unused : Unused p₀)
    (inits : p₀.init slabSize prealloc maxSlabs news = some (some 0,p))
    (fresh : Fresh { p₀ with slabSize := p.slabSize } news) : Well (some (started p news)) := by
  obtain ⟨p₁,taken,hs,prefix_,well,_,count⟩ := initWell unused inits fresh
  refine ⟨_,taken.map New.slab,hs,rfl,well,?_⟩
  unfold started
  rw [count,← List.prefix_iff_eq_take.1 prefix_]

theorem stepAllowed {s' : Option Session} (steps : step least (some t) op = some s') :
    Allowed least t op ∧ s' = apply t op := by
  change (if Allowed least t op then some (apply t op) else none) = some s' at steps
  by_cases allowed : Allowed least t op
  · rw [if_pos allowed] at steps
    exact ⟨allowed,(Option.some.inj steps).symm⟩
  · rw [if_neg allowed] at steps
    cases steps

/- One step of a run, as an operation on a session that is well. -/
theorem stepSteps {s' : Option Session} (w : PoolWell t.pool t.live chain hs) (perm : chain.Perm t.allocated)
    (poppable : Allowed least t op → Poppable t op) (steps : step least (some t) op = some s') :
    ∃ t' chain' hs', s' = some t' ∧ Stepped t chain hs op t' chain' hs' ∧ PoolWell t'.pool t'.live chain' hs' ∧
      chain'.Perm t'.allocated := by
  obtain ⟨allowed,rfl⟩ := stepAllowed steps
  exact applySteps w perm allowed (poppable allowed)

theorem stepWell {s s' : Option Session} (well : Well s) (poppable : ∀ t, s = some t → Allowed least t op → Poppable t op)
    (steps : step least s op = some s') : Well s' := by
  obtain ⟨t,chain,hs,rfl,w,perm⟩ := well
  obtain ⟨t',chain',hs',rfl,_,w',perm'⟩ := stepSteps w perm (poppable t rfl) steps
  exact ⟨t',chain',hs',rfl,w',perm'⟩

theorem poppableAbove (allowed : Allowed 1 t op) : Poppable t op := by
  cases op with
  | malloc n news => exact .inr (.inl (Nat.ne_of_gt allowed.1))
  | free memory => trivial
  | write a byte => trivial

/- With requests of one byte at least, every run is well all along. -/
theorem runsWell {s : Option Session} (well : Well s) (ops : List Op) : Always (step 1) Well s ops :=
  Lib.alwaysInvariant (fun _ _ _ well steps => stepWell well (fun _ _ allowed => poppableAbove allowed) steps) well ops

end Runs

/- Two slabs of 200 bytes, in memory that is not clean, and one more to come. -/
def dirtyPool : MemPool := ((make fun _ => 171).init 200 2 3 [⟨4096,9⟩,⟨8192,5⟩]).elim (make fun _ => 171) Prod.snd

theorem dirtyInits : (make fun _ => 171).init 200 2 3 [⟨4096,9⟩,⟨8192,5⟩] = some (some 0,dirtyPool) := rfl

/- The same in clean memory. -/
def cleanPool : MemPool := ((make fun _ => 0).init 200 2 3 [⟨4096,9⟩,⟨8192,5⟩]).elim (make fun _ => 0) Prod.snd

theorem cleanInits : (make fun _ => 0).init 200 2 3 [⟨4096,9⟩,⟨8192,5⟩] = some (some 0,cleanPool) := rfl

end CuteNdk.MemPool
