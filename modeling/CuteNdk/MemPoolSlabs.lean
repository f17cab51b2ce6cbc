import CuteNdk.MemPool
import Mathlib.Tactic.Common

/-! The list of slabs: ajust_slab_order moves one slab along it, alloc_slabs adds slabs at
its end, and find_usable_slab walks it. -/
namespace CuteNdk.MemPool
open Lib (Seg Dll dllEnds dllNeighbours dllNodup dllExchange relink relinkSelf relinkApart relinkUpdate)

def slabNext (p : MemPool) (z : Nat) : Option Nat := (p.slabs z).next
def slabPrev (p : MemPool) (z : Nat) : Option Nat := (p.slabs z).prev
def maxSize (p : MemPool) (z : Nat) : Nat := (p.slabs z).maxSeriateSize

def SlabList (p : MemPool) (chain : List Nat) : Prop := Dll p.slabNext p.slabPrev p.slabsHead p.slabsTail chain

/- Nothing but links of the list of slabs differs. -/
structure Relinked (p p' : MemPool) : Prop where
  pool : p' = { p with slabs := p'.slabs, slabsHead := p'.slabsHead, slabsTail := p'.slabsTail }
  slab : ∀ z, p'.slabs z = { p.slabs z with prev := (p'.slabs z).prev, next := (p'.slabs z).next }

section Links
variable {p q r : MemPool} {z slab : Nat} {v node : Option Nat}

theorem relinkedRefl (p : MemPool) : Relinked p p := ⟨rfl,fun _ => rfl⟩

theorem relinkedTrans (h : Relinked p q) (h' : Relinked q r) : Relinked p r := by
  refine ⟨?_,fun z => ?_⟩
  · rw [h'.pool,h.pool]
  · rw [h'.slab z,h.slab z]

theorem relinkedMax (h : Relinked p q) (z : Nat) : q.maxSize z = p.maxSize z := by
  unfold maxSize
  rw [h.slab z]

theorem relinkedSetNext : Relinked p (p.setSlabNext z v) := by
  refine ⟨rfl,fun a => ?_⟩
  by_cases same : a = z
  · subst same
    simp [setSlabNext]
  · simp [setSlabNext,Function.update_of_ne same]

theorem relinkedSetPrev : Relinked p (p.setSlabPrev z v) := by
  refine ⟨rfl,fun a => ?_⟩
  by_cases same : a = z
  · subst same
    simp [setSlabPrev]
  · simp [setSlabPrev,Function.update_of_ne same]

theorem relinkedLinkNext : Relinked p (p.linkNext node v) := by
  cases node with
  | none => exact relinkedRefl p
  | some z => exact relinkedSetNext

theorem relinkedLinkPrev : Relinked p (p.linkPrev node v) := by
  cases node with
  | none => exact relinkedRefl p
  | some z => exact relinkedSetPrev

theorem relinkedEnds {first last : Nat} : Relinked p (p.resetEnds first last) := by
  unfold resetEnds
  refine ⟨?_,fun a => ?_⟩ <;> dsimp only <;> split <;> split <;> rfl

@[simp] theorem nextSetNext : (p.setSlabNext z v).slabNext = Function.update p.slabNext z v := by
  funext a
  by_cases same : a = z
  · subst same
    simp [slabNext,setSlabNext]
  · simp [slabNext,setSlabNext,Function.update_of_ne same]

@[simp] theorem prevSetPrev : (p.setSlabPrev z v).slabPrev = Function.update p.slabPrev z v := by
  funext a
  by_cases same : a = z
  · subst same
    simp [slabPrev,setSlabPrev]
  · simp [slabPrev,setSlabPrev,Function.update_of_ne same]

@[simp] theorem prevSetNext : (p.setSlabNext z v).slabPrev = p.slabPrev := by
  funext a
  by_cases same : a = z
  · subst same
    simp [slabPrev,setSlabNext]
  · simp [slabPrev,setSlabNext,Function.update_of_ne same]

@[simp] theorem nextSetPrev : (p.setSlabPrev z v).slabNext = p.slabNext := by
  funext a
  by_cases same : a = z
  · subst same
    simp [slabNext,setSlabPrev]
  · simp [slabNext,setSlabPrev,Function.update_of_ne same]

@[simp] theorem nextLinkNext : (p.linkNext node v).slabNext = relink p.slabNext node v := by
  cases node with
  | none => rfl
  | some z => exact nextSetNext

@[simp] theorem prevLinkPrev : (p.linkPrev node v).slabPrev = relink p.slabPrev node v := by
  cases node with
  | none => rfl
  | some z => exact prevSetPrev

@[simp] theorem prevLinkNext : (p.linkNext node v).slabPrev = p.slabPrev := by
  cases node with
  | none => rfl
  | some z => exact prevSetNext

@[simp] theorem nextLinkPrev : (p.linkPrev node v).slabNext = p.slabNext := by
  cases node with
  | none => rfl
  | some z => exact nextSetPrev

@[simp] theorem headLinkNext : (p.linkNext node v).slabsHead = p.slabsHead := by cases node <;> rfl
@[simp] theorem tailLinkNext : (p.linkNext node v).slabsTail = p.slabsTail := by cases node <;> rfl
@[simp] theorem headLinkPrev : (p.linkPrev node v).slabsHead = p.slabsHead := by cases node <;> rfl
@[simp] theorem tailLinkPrev : (p.linkPrev node v).slabsTail = p.slabsTail := by cases node <;> rfl
@[simp] theorem headSetNext : (p.setSlabNext z v).slabsHead = p.slabsHead := rfl
@[simp] theorem tailSetNext : (p.setSlabNext z v).slabsTail = p.slabsTail := rfl
@[simp] theorem headSetPrev : (p.setSlabPrev z v).slabsHead = p.slabsHead := rfl
@[simp] theorem tailSetPrev : (p.setSlabPrev z v).slabsTail = p.slabsTail := rfl

end Links

section Exchange
variable {p q : MemPool} {l₁ l₂ : List Nat} {a b : Nat}

/- What two slabs that follow each other know of the list around them. -/
structure Around (p : MemPool) (l₁ : List Nat) (a b : Nat) (l₂ : List Nat) : Prop where
  prevA : p.slabPrev a = l₁.getLast?
  nextB : p.slabNext b = l₂.head?
  other : a ≠ b
  offBefore : l₁.getLast? ≠ some a ∧ l₁.getLast? ≠ some b
  offAfter : l₂.head? ≠ some a ∧ l₂.head? ≠ some b
  off : ∀ z, z ∈ l₁ ∨ z ∈ l₂ → z ≠ a ∧ z ≠ b

theorem around (list : SlabList p (l₁ ++ a :: b :: l₂)) : Around p l₁ a b l₂ := by
  have atA := dllNeighbours list
  have split : l₁ ++ a :: b :: l₂ = (l₁ ++ [a]) ++ b :: l₂ := by simp
  have atB := dllNeighbours (split ▸ list)
  obtain ⟨_,nodup',apart⟩ := List.nodup_append.1 (dllNodup list)
  obtain ⟨offA,nodup₂⟩ := List.nodup_cons.1 nodup'
  obtain ⟨offB,_⟩ := List.nodup_cons.1 nodup₂
  have off : ∀ z, z ∈ l₁ ∨ z ∈ l₂ → z ≠ a ∧ z ≠ b := fun z mem => by
    rcases mem with front | rest
    · exact ⟨apart z front a List.mem_cons_self,apart z front b (List.mem_cons_of_mem _ List.mem_cons_self)⟩
    · exact ⟨fun same => offA (same ▸ List.mem_cons_of_mem _ rest),fun same => offB (same ▸ rest)⟩
  refine ⟨atA.2,atB.1,fun same => offA (same ▸ List.mem_cons_self),⟨fun last => ?_,fun last => ?_⟩,
    ⟨fun first => ?_,fun first => ?_⟩,off⟩
  · exact (off a (.inl (List.mem_of_getLast? last))).1 rfl
  · exact (off b (.inl (List.mem_of_getLast? last))).2 rfl
  · exact (off a (.inr (List.mem_of_head? first))).1 rfl
  · exact (off b (.inr (List.mem_of_head? first))).2 rfl

/- What the writes of an exchange come to, in either order. -/
structure Exchanged (p q : MemPool) (l₁ : List Nat) (a b : Nat) (l₂ : List Nat) : Prop where
  next : q.slabNext = Function.update (Function.update (relink p.slabNext l₁.getLast? (some b)) a l₂.head?) b (some a)
  prev : q.slabPrev = Function.update (Function.update (relink p.slabPrev l₂.head? (some a)) b l₁.getLast?) a (some b)
  head : q.slabsHead = p.slabsHead
  tail : q.slabsTail = p.slabsTail

theorem endsReset (list : SlabList p (l₁ ++ a :: b :: l₂)) (exchanged : Exchanged p q l₁ a b l₂) :
    SlabList (q.resetEnds b a) (l₁ ++ b :: a :: l₂) := by
  have around := around list
  have ends := dllEnds list
  have nextA : q.slabNext a = l₂.head? := by
    rw [exchanged.next,Function.update_of_ne around.other,Function.update_self]
  have prevB : q.slabPrev b = l₁.getLast? := by
    rw [exchanged.prev,Function.update_of_ne around.other.symm,Function.update_self]
  have nextElse (z : Nat) (mem : z ∈ l₁ ∨ z ∈ l₂) : q.slabNext z = relink p.slabNext l₁.getLast? (some b) z := by
    have off := around.off z mem
    rw [exchanged.next,Function.update_of_ne off.2,Function.update_of_ne off.1]
  have prevElse (z : Nat) (mem : z ∈ l₁ ∨ z ∈ l₂) : q.slabPrev z = relink p.slabPrev l₂.head? (some a) z := by
    have off := around.off z mem
    rw [exchanged.prev,Function.update_of_ne off.1,Function.update_of_ne off.2]
  have linked : Dll q.slabNext q.slabPrev (l₁ ++ b :: a :: l₂).head? (l₁ ++ b :: a :: l₂).getLast? (l₁ ++ b :: a :: l₂) := by
    refine dllExchange list nextA ?_ ?_ prevB (fun z last => ?_) (fun z first => ?_) (fun z mem off => ?_)
      fun z mem off => ?_
    · rw [exchanged.next,Function.update_self]
    · rw [exchanged.prev,Function.update_self]
    · rw [nextElse z (.inl (List.mem_of_getLast? last))]
      exact relinkSelf last
    · rw [prevElse z (.inr (List.mem_of_head? first))]
      exact relinkSelf first
    · rw [nextElse z mem]
      exact relinkApart off
    · rw [prevElse z mem]
      exact relinkApart off
  have tail : (q.resetEnds b a).slabsTail = (l₁ ++ b :: a :: l₂).getLast? := by
    have isTail : (q.resetEnds b a).slabsTail = if q.slabNext a = none then some a else q.slabsTail := by
      unfold resetEnds slabNext
      dsimp only
      split <;> split <;> rfl
    rw [isTail,nextA,exchanged.tail,ends.2]
    cases l₂ with
    | nil => simp
    | cons z l => simp
  have head : (q.resetEnds b a).slabsHead = (l₁ ++ b :: a :: l₂).head? := by
    have isHead : (q.resetEnds b a).slabsHead = if q.slabPrev b = none then some b else q.slabsHead := by
      unfold resetEnds slabPrev
      dsimp only
      split <;> split <;> rfl
    rw [isHead,prevB,exchanged.head,ends.1]
    cases l₁ with
    | nil => simp
    | cons z l => simp
  have slabs : (q.resetEnds b a).slabs = q.slabs := by
    unfold resetEnds
    dsimp only
    split <;> split <;> rfl
  unfold SlabList slabNext slabPrev
  rw [tail,head,slabs]
  exact linked

theorem changeAheadList (list : SlabList p (l₁ ++ a :: b :: l₂)) :
    SlabList (p.changeAhead b a) (l₁ ++ b :: a :: l₂) ∧ Relinked p (p.changeAhead b a) := by
  obtain ⟨prevA,nextB,other,offBefore,offAfter,off⟩ := around list
  obtain ⟨q,isQ⟩ : ∃ q, q = (((((p.linkNext l₁.getLast? (some b)).setSlabNext a l₂.head?).linkPrev l₂.head? (some a)).setSlabPrev
      b l₁.getLast?).setSlabPrev a (some b)).setSlabNext b (some a) := ⟨_,rfl⟩
  have writes : p.changeAhead b a = q.resetEnds b a := by
    have w₀ : (p.slabs a).prev = l₁.getLast? := prevA
    have w₁ : ((p.linkNext l₁.getLast? (some b)).slabs b).next = l₂.head? := by
      change (p.linkNext l₁.getLast? (some b)).slabNext b = _
      rw [nextLinkNext,relinkApart offBefore.2,nextB]
    have w₂ : (((p.linkNext l₁.getLast? (some b)).setSlabNext a l₂.head?).slabs b).next = l₂.head? := by
      change ((p.linkNext l₁.getLast? (some b)).setSlabNext a l₂.head?).slabNext b = _
      rw [nextSetNext,Function.update_of_ne other.symm]
      exact w₁
    have w₃ : ((((p.linkNext l₁.getLast? (some b)).setSlabNext a l₂.head?).linkPrev l₂.head? (some a)).slabs a).prev =
        l₁.getLast? := by
      change (((p.linkNext l₁.getLast? (some b)).setSlabNext a l₂.head?).linkPrev l₂.head? (some a)).slabPrev a = _
      rw [prevLinkPrev,relinkApart offAfter.1,prevSetNext,prevLinkNext,prevA]
    unfold changeAhead
    simp only [w₀,w₁,w₂,w₃]
    rw [isQ]
  have relinked : Relinked p q := by
    rw [isQ]
    exact relinkedTrans (relinkedTrans (relinkedTrans (relinkedTrans (relinkedTrans relinkedLinkNext relinkedSetNext)
      relinkedLinkPrev) relinkedSetPrev) relinkedSetPrev) relinkedSetNext
  have exchanged : Exchanged p q l₁ a b l₂ := by
    rw [isQ]
    exact ⟨by simp,by simp,by simp,by simp⟩
  rw [writes]
  exact ⟨endsReset list exchanged,relinkedTrans relinked relinkedEnds⟩

theorem changeBackList (list : SlabList p (l₁ ++ a :: b :: l₂)) :
    SlabList (p.changeBack a b) (l₁ ++ b :: a :: l₂) ∧ Relinked p (p.changeBack a b) := by
  obtain ⟨prevA,nextB,other,offBefore,offAfter,off⟩ := around list
  obtain ⟨q,isQ⟩ : ∃ q, q = (((((p.linkPrev l₂.head? (some a)).setSlabNext a l₂.head?).linkNext l₁.getLast? (some b)).setSlabPrev
      b l₁.getLast?).setSlabNext b (some a)).setSlabPrev a (some b) := ⟨_,rfl⟩
  have writes : p.changeBack a b = q.resetEnds b a := by
    have w₀ : (p.slabs b).next = l₂.head? := nextB
    have w₁ : ((p.linkPrev l₂.head? (some a)).slabs b).next = l₂.head? := by
      change (p.linkPrev l₂.head? (some a)).slabNext b = _
      rw [nextLinkPrev,nextB]
    have w₂ : (((p.linkPrev l₂.head? (some a)).setSlabNext a l₂.head?).slabs a).prev = l₁.getLast? := by
      change ((p.linkPrev l₂.head? (some a)).setSlabNext a l₂.head?).slabPrev a = _
      rw [prevSetNext,prevLinkPrev,relinkApart offAfter.1,prevA]
    have w₃ : ((((p.linkPrev l₂.head? (some a)).setSlabNext a l₂.head?).linkNext l₁.getLast? (some b)).slabs a).prev =
        l₁.getLast? := by
      change (((p.linkPrev l₂.head? (some a)).setSlabNext a l₂.head?).linkNext l₁.getLast? (some b)).slabPrev a = _
      rw [prevLinkNext]
      exact w₂
    unfold changeBack
    simp only [w₀,w₁,w₂,w₃]
    rw [isQ]
  have relinked : Relinked p q := by
    rw [isQ]
    exact relinkedTrans (relinkedTrans (relinkedTrans (relinkedTrans (relinkedTrans relinkedLinkPrev relinkedSetNext)
      relinkedLinkNext) relinkedSetPrev) relinkedSetNext) relinkedSetPrev
  have exchanged : Exchanged p q l₁ a b l₂ := by
    rw [isQ]
    exact ⟨by simp [relinkUpdate offBefore.1],by simp,by simp,by simp⟩
  rw [writes]
  exact ⟨endsReset list exchanged,relinkedTrans relinked relinkedEnds⟩

end Exchange

section Roll
variable {p : MemPool} {l₁ l₂ : List Nat} {slab fuel : Nat}

/- slab has passed those of post, which were in front of it, and stands behind pre. -/
structure RolledAhead (p q : MemPool) (l₁ pre post : List Nat) (slab : Nat) (l₂ : List Nat) : Prop where
  split : l₁ = pre ++ post
  list : SlabList q (pre ++ slab :: (post ++ l₂))
  relinked : Relinked p q
  passed : ∀ z ∈ post, p.maxSize slab < p.maxSize z
  stops : ∀ z ∈ pre.getLast?, p.maxSize z ≤ p.maxSize slab

theorem rollAheadList (list : SlabList p (l₁ ++ slab :: l₂)) (enough : l₁.length < fuel) :
    ∃ q pre post, rollAhead slab fuel p = some q ∧ RolledAhead p q l₁ pre post slab l₂ := by
  induction fuel generalizing p l₁ l₂ with
  | zero => exact absurd enough (Nat.not_lt_zero _)
  | succ fuel ih =>
    have before : (p.slabs slab).prev = l₁.getLast? := (dllNeighbours list).2
    rcases List.eq_nil_or_concat' l₁ with rfl | ⟨l,a,rfl⟩
    · refine ⟨p,[],[],?_,rfl,list,relinkedRefl p,nofun,nofun⟩
      simp only [rollAhead,before,List.getLast?_nil]
    · rw [List.getLast?_concat] at before
      by_cases less : p.maxSize slab < p.maxSize a
      · rw [List.append_assoc] at list
        obtain ⟨changed,relinked⟩ := changeAheadList list
        rw [List.length_append] at enough
        obtain ⟨q,pre,post,rolls,split,list',relinked',passed,stops⟩ := ih changed (Nat.lt_of_succ_lt_succ enough)
        simp only [relinkedMax relinked] at passed stops
        refine ⟨q,pre,post ++ [a],?_,?_,?_,relinkedTrans relinked relinked',fun z mem => ?_,stops⟩
        · rw [rollAhead]
          simp only [before]
          exact (if_pos less).trans rolls
        · rw [split,List.append_assoc]
        · simpa using list'
        · rcases List.mem_append.1 mem with mem | mem
          · exact passed z mem
          · cases List.mem_singleton.1 mem
            exact less
      · refine ⟨p,l ++ [a],[],?_,(List.append_nil _).symm,list,relinkedRefl p,nofun,fun z last => ?_⟩
        · rw [rollAhead]
          simp only [before]
          exact if_neg less
        · rw [List.getLast?_concat] at last
          cases last
          exact Nat.not_lt.1 less

/- slab has passed those of pre, which were behind it, and stands in front of post. -/
structure RolledBack (p q : MemPool) (l₁ : List Nat) (slab : Nat) (l₂ pre post : List Nat) : Prop where
  split : l₂ = pre ++ post
  list : SlabList q (l₁ ++ (pre ++ slab :: post))
  relinked : Relinked p q
  passed : ∀ z ∈ pre, p.maxSize z < p.maxSize slab
  stops : ∀ z ∈ post.head?, p.maxSize slab ≤ p.maxSize z

theorem rollBackList (list : SlabList p (l₁ ++ slab :: l₂)) (enough : l₂.length < fuel) :
    ∃ q pre post, rollBack slab fuel p = some q ∧ RolledBack p q l₁ slab l₂ pre post := by
  induction fuel generalizing p l₁ l₂ with
  | zero => exact absurd enough (Nat.not_lt_zero _)
  | succ fuel ih =>
    have after : (p.slabs slab).next = l₂.head? := (dllNeighbours list).1
    cases l₂ with
    | nil =>
      refine ⟨p,[],[],?_,rfl,list,relinkedRefl p,nofun,nofun⟩
      simp only [rollBack,after,List.head?_nil]
    | cons b l =>
      rw [List.head?_cons] at after
      by_cases less : p.maxSize b < p.maxSize slab
      · obtain ⟨changed,relinked⟩ := changeBackList list
        have split₁ : l₁ ++ b :: slab :: l = (l₁ ++ [b]) ++ slab :: l := by simp
        rw [split₁] at changed
        obtain ⟨q,pre,post,rolls,split,list',relinked',passed,stops⟩ := ih changed (Nat.lt_of_succ_lt_succ enough)
        simp only [relinkedMax relinked] at passed stops
        refine ⟨q,b :: pre,post,?_,?_,?_,relinkedTrans relinked relinked',fun z mem => ?_,stops⟩
        · rw [rollBack]
          simp only [after]
          exact (if_pos less).trans rolls
        · rw [split,List.cons_append]
        · simpa using list'
        · rcases List.mem_cons.1 mem with rfl | mem
          · exact less
          · exact passed z mem
      · refine ⟨p,[],b :: l,?_,rfl,list,relinkedRefl p,nofun,fun z first => ?_⟩
        · rw [rollBack]
          simp only [after]
          exact if_neg less
        · cases first
          exact Nat.not_lt.1 less

theorem ajustAheadList (list : SlabList p (l₁ ++ slab :: l₂)) (counted : (l₁ ++ slab :: l₂).length = p.allocedSlabs) :
    ∃ q pre post, p.ajustAhead slab = some q ∧ RolledAhead p q l₁ pre post slab l₂ := by
  have ends := dllEnds list
  rw [List.length_append,List.length_cons] at counted
  unfold ajustAhead
  by_cases first : p.slabsHead = some slab
  · rw [if_pos first]
    cases l₁ with
    | nil => exact ⟨p,[],[],rfl,rfl,list,relinkedRefl p,nofun,nofun⟩
    | cons a l =>
      rw [ends.1] at first
      cases first
      exact absurd List.mem_cons_self fun mem =>
        (List.nodup_append.1 (dllNodup list)).2.2 slab mem slab List.mem_cons_self rfl
  · rw [if_neg first]
    exact rollAheadList list (by omega)

theorem ajustBackList (list : SlabList p (l₁ ++ slab :: l₂)) (counted : (l₁ ++ slab :: l₂).length = p.allocedSlabs) :
    ∃ q pre post, p.ajustBack slab = some q ∧ RolledBack p q l₁ slab l₂ pre post := by
  have ends := dllEnds list
  rw [List.length_append,List.length_cons] at counted
  unfold ajustBack
  by_cases last : p.slabsTail = some slab
  · rw [if_pos last]
    rcases List.eq_nil_or_concat' l₂ with rfl | ⟨l,a,rfl⟩
    · exact ⟨p,[],[],rfl,rfl,list,relinkedRefl p,nofun,nofun⟩
    · have isLast : (l₁ ++ slab :: (l ++ [a])).getLast? = some a := by
        rw [← List.cons_append,← List.append_assoc,List.getLast?_concat]
      rw [ends.2,isLast] at last
      cases last
      obtain ⟨again,_⟩ := List.nodup_cons.1 (List.nodup_append.1 (dllNodup list)).2.1
      exact absurd (List.mem_append_right _ (List.mem_singleton_self _)) again
  · rw [if_neg last]
    exact rollBackList list (by omega)

end Roll

section Order
variable {p q : MemPool} {chain l₁ l₂ pre post : List Nat} {slab : Nat}

/- By the size of the largest seriate object. -/
def Ordered (p : MemPool) (chain : List Nat) : Prop := chain.Pairwise fun a b => p.maxSize a ≤ p.maxSize b

theorem orderedCongr (ordered : Ordered p chain) (same : ∀ z ∈ chain, q.maxSize z = p.maxSize z) : Ordered q chain := by
  refine List.Pairwise.imp_of_mem (fun {a b} memA memB le => ?_) ordered
  rw [same a memA,same b memB]
  exact le

/- A slab that has lost memory is in order again in front of those it has passed. -/
theorem aheadOrdered (rolled : RolledAhead p q l₁ pre post slab l₂) (rest : Ordered p (l₁ ++ l₂))
    (least : ∀ z ∈ l₂, p.maxSize slab ≤ p.maxSize z) : Ordered q (pre ++ slab :: (post ++ l₂)) := by
  obtain ⟨rfl,_,relinked,passed,stops⟩ := rolled
  refine orderedCongr ?_ fun z _ => relinkedMax relinked z
  unfold Ordered at rest
  rw [List.append_assoc] at rest
  obtain ⟨front,back,across⟩ := List.pairwise_append.1 rest
  refine List.pairwise_append.2 ⟨front,List.pairwise_cons.2 ⟨fun z mem => ?_,back⟩,fun z memZ y memY => ?_⟩
  · rcases List.mem_append.1 mem with mem | mem
    · exact Nat.le_of_lt (passed z mem)
    · exact least z mem
  · rcases List.mem_cons.1 memY with rfl | memY
    · rcases List.eq_nil_or_concat' pre with rfl | ⟨l,a,rfl⟩
      · cases memZ
      · have stop := stops a (by rw [List.getLast?_concat]; rfl)
        rcases List.mem_append.1 memZ with memZ | memZ
        · exact Nat.le_trans ((List.pairwise_append.1 front).2.2 z memZ a (List.mem_singleton_self a)) stop
        · cases List.mem_singleton.1 memZ
          exact stop
    · exact across z memZ y memY

/- And one that has won memory behind those it has passed. -/
theorem backOrdered (rolled : RolledBack p q l₁ slab l₂ pre post) (rest : Ordered p (l₁ ++ l₂))
    (most : ∀ z ∈ l₁, p.maxSize z ≤ p.maxSize slab) : Ordered q (l₁ ++ (pre ++ slab :: post)) := by
  obtain ⟨rfl,_,relinked,passed,stops⟩ := rolled
  refine orderedCongr ?_ fun z _ => relinkedMax relinked z
  obtain ⟨front,back,across⟩ := List.pairwise_append.1 rest
  obtain ⟨between,behind,beyond⟩ := List.pairwise_append.1 back
  have later : ∀ z ∈ post, p.maxSize slab ≤ p.maxSize z := fun z mem => by
    cases post with
    | nil => cases mem
    | cons a l =>
      have stop := stops a rfl
      rcases List.mem_cons.1 mem with rfl | mem
      · exact stop
      · exact Nat.le_trans stop ((List.pairwise_cons.1 behind).1 z mem)
  refine List.pairwise_append.2 ⟨front,List.pairwise_append.2 ⟨between,List.pairwise_cons.2 ⟨later,behind⟩,
    fun z memZ y memY => ?_⟩,fun z memZ y memY => ?_⟩
  · rcases List.mem_cons.1 memY with rfl | memY
    · exact Nat.le_of_lt (passed z memZ)
    · exact beyond z memZ y memY
  · rcases List.mem_append.1 memY with memY | memY
    · exact across z memZ y (List.mem_append_left _ memY)
    · rcases List.mem_cons.1 memY with rfl | memY
      · exact most z memZ
      · exact across z memZ y (List.mem_append_right _ memY)

end Order

section Find
variable {p q : MemPool} {chain : List Nat} {size fuel slab : Nat}

theorem findUsableFinds {from_ : Option Nat} (walk : Seg p.slabNext from_ chain none) (enough : chain.length < fuel) :
    p.findUsableSlab size fuel from_ = some (chain.find? fun z => size ≤ p.maxSize z) := by
  induction chain generalizing from_ fuel with
  | nil =>
    obtain ⟨n,rfl⟩ := Nat.exists_eq_succ_of_ne_zero (Nat.ne_of_gt enough)
    cases walk
    rfl
  | cons a l ih =>
    obtain ⟨n,rfl⟩ := Nat.exists_eq_succ_of_ne_zero (Nat.ne_of_gt (Nat.zero_lt_of_lt enough))
    obtain ⟨rfl,rest⟩ := walk
    rw [findUsableSlab]
    by_cases fits : size ≤ p.maxSize a
    · have found : decide (size ≤ p.maxSize a) = true := decide_eq_true fits
      rw [List.find?_cons,found]
      exact if_pos fits
    · have passed : decide (size ≤ p.maxSize a) = false := decide_eq_false fits
      rw [List.find?_cons,passed]
      exact (if_neg fits).trans (ih rest (Nat.lt_of_succ_lt_succ enough))

theorem pushSlabList (list : SlabList p chain) (fresh : slab ∉ chain) (last : p.slabNext slab = none)
    (first : p.slabPrev slab = none) :
    ∃ q, p.pushSlab slab = some q ∧ SlabList q (chain ++ [slab]) ∧ Relinked p q := by
  have pushed := Lib.dllPush list fresh last
  have ends := dllEnds list
  rcases List.eq_nil_or_concat' chain with rfl | ⟨l,a,rfl⟩
  · refine ⟨{ p with slabsHead := some slab, slabsTail := some slab },?_,?_,rfl,fun _ => rfl⟩
    · unfold pushSlab
      rw [ends.1]
      rfl
    · have unmoved : Function.update p.slabPrev slab none = p.slabPrev := by
        rw [← first,Function.update_eq_self]
      simp only [ends.1,ends.2,List.head?_nil,List.getLast?_nil,relink,unmoved] at pushed
      exact pushed
  · rw [List.getLast?_concat] at ends
    have some_ : p.slabsHead ≠ none := by
      rw [ends.1]
      simp
    obtain ⟨z,isHead⟩ := Option.ne_none_iff_exists'.1 some_
    refine ⟨_,by unfold pushSlab; rw [isHead,ends.2],?_,?_⟩
    · rw [if_neg some_,ends.2] at pushed
      have nexts : ((p.setSlabNext a (some slab)).setSlabPrev slab (some a)).slabNext =
          relink p.slabNext (some a) (some slab) := by
        simp [relink]
      have prevs : ((p.setSlabNext a (some slab)).setSlabPrev slab (some a)).slabPrev =
          Function.update p.slabPrev slab (some a) := by
        simp
      rw [← nexts,← prevs] at pushed
      exact pushed
    · obtain ⟨pool,slab⟩ := relinkedTrans relinkedSetNext relinkedSetPrev
      exact ⟨by rw [pool],slab⟩

end Find

end CuteNdk.MemPool
