import CuteNdk.TimerOps

/-! What the crontab operations of timer_queue do to the list of crontab timers.
A timer that has a neighbour on both sides is taken off the list properly; at
either end of the list cancel goes wrong, and no theorem here covers it. -/
namespace CuteNdk.TimerQueue
open Lib (Seg Dll relink dllCongr dllUnlink dllNeighbours dllPushFront segCongr)

/- What a user knows a registered timer by. -/
structure Card where
  id : Int
  type : TimerType
  handler : Option Handler
  arg : Arg
  deriving DecidableEq, Repr

def card (q : TimerQueue) (p : Ptr) : Card :=
  ⟨q.ident p,(q.nodes p).type,(q.nodes p).handler,(q.nodes p).arg⟩

def crontabIds (q : TimerQueue) (ls : Lists) : List Int := ls.crontab.map q.ident

section Links
variable {q : TimerQueue} {ls : Lists} {p : Ptr}

theorem prevOfUpdate {q' : TimerQueue} {n : TimerNode}
    (nodes : q'.nodes = Function.update q.nodes p n) :
    q'.prevOf = Function.update q.prevOf p n.prev := by
  funext z
  simp only [prevOf,nodes]
  by_cases here : z = p
  · subst z; simp
  · simp [here,prevOf]

theorem setNodeNext (n : TimerNode) :
    (q.setNode p n).nextOf = Function.update q.nextOf p n.next := nextOfUpdate rfl

theorem setNodePrev (n : TimerNode) :
    (q.setNode p n).prevOf = Function.update q.prevOf p n.prev := prevOfUpdate rfl

/- Only the links of the crontab list change. -/
theorem shapeOfCrontab {q' : TimerQueue} {crontab : List Ptr} (h : Shape q ls)
    (rest : q' = { q with nodes := q'.nodes, crontabTimers := q'.crontabTimers })
    (same : ∀ z ∈ ls.heap ++ ls.free ++ ls.freeCrontab, q'.nodes z = q.nodes z)
    (walk : Dll q'.nextOf q'.prevOf q'.crontabTimers crontab.getLast? crontab)
    (apart : (Lists.all { ls with crontab := crontab }).Nodup) (made : ∀ z ∈ crontab, z < q.made)
    (types : ∀ z ∈ crontab, (q'.nodes z).type = .crontab) :
    Shape q' { ls with crontab := crontab } := by
  have onHeap : ∀ z ∈ ls.heap, q'.nodes z = q.nodes z := fun z hz =>
    same z (List.mem_append_left _ (List.mem_append_left _ hz))
  refine ⟨?_,?_,?_,walk,?_,?_,apart,fun z hz => ?_,fun z hz => ?_,types,fun z hz => ?_⟩
  · have settled : Settled q' q.currSize ls.heap := by
      refine settledCongr h.heap ?_ ?_ ?_ (fun z _ => ?_) fun z hz => ?_ <;> try (rw [rest])
      simp only [ident,value,onHeap z hz,and_self]
    rw [rest] at settled ⊢
    exact settled
  · rw [rest]
    exact h.sizes
  · rw [rest]
    exact h.low
  · rw [show q'.freeTimerNodes = q.freeTimerNodes by rw [rest]]
    exact (segCongr fun z hz => by
      simp only [nextOf,same z (List.mem_append_left _ (List.mem_append_right _ hz))]).mpr h.free
  · rw [show q'.freeCrontabTimers = q.freeCrontabTimers by rw [rest]]
    exact (segCongr fun z hz => by
      simp only [nextOf,same z (List.mem_append_right _ hz)]).mpr h.freeCrontab
  · rw [show q'.made = q.made by rw [rest]]
    rcases memAll.mp hz with hz | hz | hz | hz
    · exact h.made z (memAll.mpr (.inl hz))
    · exact made z hz
    · exact h.made z (memAll.mpr (.inr (.inr (.inl hz))))
    · exact h.made z (memAll.mpr (.inr (.inr (.inr hz))))
  · rw [onHeap z hz]
    exact h.general z hz
  · rw [onHeap z hz]
    exact h.driven z hz

theorem crontabAll (off : p ∉ ls.all) (nodup : ls.all.Nodup) :
    (Lists.all { ls with crontab := p :: ls.crontab }).Nodup := by
  have order : (Lists.all { ls with crontab := p :: ls.crontab }).Perm (p :: ls.all) := by
    simp only [Lists.all,List.append_assoc,List.cons_append]
    exact List.perm_middle
  exact order.nodup_iff.mpr (List.nodup_cons.mpr ⟨off,nodup⟩)

/- Links are not part of a timer's card. -/
theorem cardSetLinks (z : Ptr) (n : TimerNode) (prev next : Option Ptr)
    (n' : n = { q.nodes p with prev := prev, next := next }) :
    (q.setNode p n).card z = q.card z := by
  by_cases here : z = p
  · subst z; simp [card,ident,setNode,n']
  · simp [card,ident,setNode,here]

/- The fields of a node that are not its links or its record of deadlines. -/
def SameCards (q q' : TimerQueue) : Prop := ∀ z, q'.card z = q.card z

theorem sameIdent {q' : TimerQueue} (h : SameCards q q') : q'.ident = q.ident :=
  funext fun z => congrArg Card.id (h z)

theorem sameType {q' : TimerQueue} (h : SameCards q q') (z : Ptr) :
    (q'.nodes z).type = (q.nodes z).type := congrArg Card.type (h z)

theorem insertCrontabShape (h : Held q ls p) (type : (q.nodes p).type = .crontab) :
    ∃ q', q.insertCrontab p = q' ∧ Shape q' { ls with crontab := p :: ls.crontab } ∧
      SameCards q q' ∧ (∀ z ∈ ls.heap, q'.nodes z = q.nodes z) ∧
      q' = { q with nodes := q'.nodes, crontabTimers := q'.crontabTimers } := by
  have off := h.off
  simp only [memAll,not_or] at off
  have made : ∀ z ∈ p :: ls.crontab, z < q.made := fun z hz => by
    rcases List.mem_cons.mp hz with rfl | hz
    · exact h.made
    · exact h.shape.made z (memAll.mpr (.inr (.inl hz)))
  have typed {q' : TimerQueue} (cards : SameCards q q') :
      ∀ z ∈ p :: ls.crontab, (q'.nodes z).type = .crontab := fun z hz => by
    rw [sameType cards]
    rcases List.mem_cons.mp hz with rfl | hz
    · exact type
    · exact h.shape.crontabs z hz
  have offOthers : ∀ z ∈ ls.heap ++ ls.free ++ ls.freeCrontab, z ≠ p := by
    rintro z hz rfl
    simp only [List.mem_append] at hz
    grind
  unfold insertCrontab
  cases front : q.crontabTimers with
  | none =>
    have empty : ls.crontab = [] := by
      have walk := h.shape.crontab.forth
      rw [front] at walk
      exact Lib.segNull walk
    have cards : SameCards q { q.setNode p { q.nodes p with next := none, prev := none } with
        crontabTimers := some p } := fun z => cardSetLinks z _ none none rfl
    refine ⟨_,rfl,?_,cards,fun z hz => ?_,rfl⟩
    · refine shapeOfCrontab h.shape rfl (fun z hz => Function.update_of_ne (offOthers z hz) _ _) ?_
        (crontabAll h.off h.shape.apart) made (typed cards)
      rw [empty]
      exact ⟨⟨rfl,by simp [Seg,nextOf,setNode]⟩,⟨rfl,by simp [Seg,prevOf,setNode]⟩⟩
    · have notP : z ≠ p := fun same => off.1 (same ▸ hz)
      exact Function.update_of_ne notP _ _
  | some head =>
    obtain ⟨rest,split,_⟩ := frontOf h.shape.crontab.forth front
    have other : head ≠ p := fun same => off.2.1 (same ▸ split ▸ List.mem_cons_self)
    have inList : head ∈ ls.crontab := split ▸ List.mem_cons_self
    obtain ⟨q₁,def₁⟩ : ∃ q₁, q₁ = q.setNode p { q.nodes p with prev := none } := ⟨_,rfl⟩
    obtain ⟨q₂,def₂⟩ : ∃ q₂, q₂ = q₁.setNode head { q₁.nodes head with prev := some p } := ⟨_,rfl⟩
    obtain ⟨q₃,def₃⟩ : ∃ q₃, q₃ = { q₂.setNode p { q₂.nodes p with next := some head } with
      crontabTimers := some p } := ⟨_,rfl⟩
    have cards : SameCards q q₃ := fun z => by
      have c₁ : q₁.card z = q.card z := def₁ ▸ cardSetLinks z _ none (q.nodes p).next rfl
      have c₂ : q₂.card z = q₁.card z := def₂ ▸ cardSetLinks z _ (some p) (q₁.nodes head).next rfl
      have c₃ : q₃.card z = q₂.card z := def₃ ▸ cardSetLinks z _ (q₂.nodes p).prev (some head) rfl
      rw [c₃,c₂,c₁]
    have nodes : ∀ z, z ≠ p → z ≠ head → q₃.nodes z = q.nodes z := fun z notP notHead => by
      simp only [def₃,def₂,def₁,setNode,Function.update_of_ne notP,Function.update_of_ne notHead]
    have next : q₃.nextOf = Function.update q.nextOf p (some head) := by
      funext z
      by_cases atP : z = p
      · subst z; simp [nextOf,def₃,setNode]
      · by_cases atHead : z = head
        · subst z; simp [nextOf,def₃,def₂,def₁,setNode,atP]
        · simp [nextOf,nodes z atP atHead,atP]
    have prev : q₃.prevOf = Function.update (Function.update q.prevOf p none) head (some p) := by
      funext z
      by_cases atP : z = p
      · subst z; simp [prevOf,def₃,def₂,def₁,setNode,other.symm]
      · by_cases atHead : z = head
        · subst z; simp [prevOf,def₃,def₂,setNode,atP]
        · simp [prevOf,nodes z atP atHead,atP,atHead]
    refine ⟨q₃,by rw [def₃,def₂,def₁],?_,cards,fun z hz => ?_,by rw [def₃,def₂,def₁]; rfl⟩
    · refine shapeOfCrontab h.shape (by rw [def₃,def₂,def₁]; rfl) (fun z hz => ?_) ?_
        (crontabAll h.off h.shape.apart) made (typed cards)
      · refine nodes z (offOthers z hz) ?_
        rintro rfl
        have nodup := h.shape.apart
        simp only [Lists.all,List.nodup_append,List.mem_append] at nodup hz
        grind
      · have cleared : Dll q.nextOf (Function.update q.prevOf p none) q.crontabTimers
            ls.crontab.getLast? ls.crontab :=
          dllCongr h.shape.crontab (fun _ _ => rfl) fun z hz => by
            have notP : z ≠ p := fun same => off.2.1 (same ▸ hz)
            exact Function.update_of_ne notP _ _
        have pushed := dllPushFront cleared off.2.1 (Function.update_self _ _ _)
        rw [front] at pushed
        rw [next,prev,show q₃.crontabTimers = some p by rw [def₃]]
        have last : (p :: ls.crontab).getLast?
            = if ls.crontab.getLast? = none then some p else ls.crontab.getLast? := by
          rw [List.getLast?_cons]
          cases ls.crontab.getLast? <;> rfl
        rw [last]
        exact pushed
    · refine nodes z (fun same => off.1 (same ▸ hz)) ?_
      rintro rfl
      have nodup := h.shape.apart
      simp only [Lists.all,List.nodup_append] at nodup
      exact nodup.1.1.2.2 z hz z inList rfl

/- Inside the list both neighbours are there to be linked to one another. -/
theorem unlinkCrontabInside (h : Shape q ls) {l₁ l₂ : List Ptr} (split : ls.crontab = l₁ ++ p :: l₂)
    (before : l₁ ≠ []) (after : l₂ ≠ []) :
    ∃ q', q.unlinkCrontab p = some q' ∧ Held q' { ls with crontab := l₁ ++ l₂ } p ∧
      SameCards q q' ∧ (∀ z ∈ ls.heap, q'.nodes z = q.nodes z) ∧
      q' = { q with nodes := q'.nodes } := by
  have walk := h.crontab
  rw [split] at walk
  obtain ⟨nextP,prevP⟩ := dllNeighbours walk
  obtain ⟨b,hb⟩ : ∃ b, l₁.getLast? = some b := by
    cases hl : l₁.getLast? with
    | none => exact absurd (List.getLast?_eq_none_iff.mp hl) before
    | some b => exact ⟨b,rfl⟩
  obtain ⟨c,l₃,hc⟩ := List.exists_cons_of_ne_nil after
  have next : (q.nodes p).next = some c := by
    have eq := nextP
    rw [hc] at eq
    exact eq
  have prev : (q.nodes p).prev = some b := prevP.trans hb
  have nodup : (l₁ ++ p :: l₂).Nodup := Lib.dllNodup walk
  have onL₁ : b ∈ l₁ := List.mem_of_getLast? hb
  have onL₂ : c ∈ l₂ := hc ▸ List.mem_cons_self
  have apart := List.nodup_append.mp nodup
  have bc : b ≠ c := apart.2.2 b onL₁ c (List.mem_cons_of_mem p onL₂)
  have bp : b ≠ p := apart.2.2 b onL₁ p List.mem_cons_self
  have cp : c ≠ p := fun same => (List.nodup_cons.mp apart.2.1).1 (same ▸ onL₂)
  have notHead : q.crontabTimers ≠ some p := by
    rw [(Lib.dllEnds walk).1]
    obtain ⟨a,l,hl⟩ := List.exists_cons_of_ne_nil before
    rw [hl]
    intro same
    have eq : a = p := Option.some.inj same
    exact apart.2.2 a (hl ▸ List.mem_cons_self) p List.mem_cons_self eq
  obtain ⟨q₁,def₁⟩ : ∃ q₁, q₁ = q.setNode c { q.nodes c with prev := some b } := ⟨_,rfl⟩
  obtain ⟨q₂,def₂⟩ : ∃ q₂, q₂ = q₁.setNode b { q₁.nodes b with next := some c } := ⟨_,rfl⟩
  obtain ⟨q₃,def₃⟩ : ∃ q₃, q₃ = q₂.setNode p { q₂.nodes p with prev := none, next := none } := ⟨_,rfl⟩
  have runs : q.unlinkCrontab p = some q₃ := by
    unfold unlinkCrontab
    simp only [if_neg notHead,prev,next,← def₁,← def₂,← def₃]
  have cards : SameCards q q₃ := fun z => by
    have c₁ : q₁.card z = q.card z := def₁ ▸ cardSetLinks z _ (some b) (q.nodes c).next rfl
    have c₂ : q₂.card z = q₁.card z := def₂ ▸ cardSetLinks z _ (q₁.nodes b).prev (some c) rfl
    have c₃ : q₃.card z = q₂.card z := def₃ ▸ cardSetLinks z _ none none rfl
    rw [c₃,c₂,c₁]
  have nodes : ∀ z, z ≠ p → z ≠ b → z ≠ c → q₃.nodes z = q.nodes z := fun z notP notB notC => by
    simp only [def₃,def₂,def₁,setNode,Function.update_of_ne notP,Function.update_of_ne notB,
      Function.update_of_ne notC]
  have nextEq : ∀ z, z ≠ p → q₃.nextOf z = Function.update q.nextOf b (some c) z := fun z notP => by
    by_cases atB : z = b
    · subst z; simp [nextOf,def₃,def₂,setNode,bp]
    · by_cases atC : z = c
      · subst z; simp [nextOf,def₃,def₂,def₁,setNode,cp,bc.symm]
      · simp [nextOf,nodes z notP atB atC,atB]
  have prevEq : ∀ z, z ≠ p → q₃.prevOf z = Function.update q.prevOf c (some b) z := fun z notP => by
    by_cases atB : z = b
    · subst z; simp [prevOf,def₃,def₂,def₁,setNode,bp,bc]
    · by_cases atC : z = c
      · subst z; simp [prevOf,def₃,def₂,def₁,setNode,cp,bc.symm]
      · simp [prevOf,nodes z notP atB atC,atC]
  have rest : q₃ = { q with nodes := q₃.nodes } := by rw [def₃,def₂,def₁]; rfl
  have all : (p :: Lists.all { ls with crontab := l₁ ++ l₂ }).Perm ls.all := by
    simp only [Lists.all,split,List.append_assoc]
    refine List.Perm.trans List.perm_middle.symm (List.Perm.append_left ls.heap ?_)
    rw [List.cons_append]
    exact List.perm_middle.symm
  obtain ⟨gone,fresh⟩ := List.nodup_cons.mp (all.nodup_iff.mpr h.apart)
  have offList : ∀ z ∈ l₁ ++ l₂, z ≠ p := fun z hz same =>
    gone (memAll.mpr (.inr (.inl (same ▸ hz))))
  have others : ∀ z ∈ ls.heap ++ ls.free ++ ls.freeCrontab, q₃.nodes z = q.nodes z := by
    intro z hz
    have off : z ∉ ls.crontab := fun mem => by
      have once := h.apart
      simp only [Lists.all,List.nodup_append,List.mem_append] at once hz
      grind
    rw [split] at off
    refine nodes z ?_ ?_ ?_ <;> rintro rfl <;> refine off ?_ <;> simp [onL₁,onL₂]
  refine ⟨q₃,runs,⟨?_,gone,?_⟩,cards,fun z hz =>
    others z (List.mem_append_left _ (List.mem_append_left _ hz)),rest⟩
  · refine shapeOfCrontab h (by rw [rest]) others ?_ fresh (fun z hz => ?_) fun z hz => ?_
    · have cut := dllUnlink walk
      have nextP : q.nextOf p = some c := next
      have prevP : q.prevOf p = some b := prev
      rw [nextP,prevP] at cut
      simp only [relink,reduceCtorEq,if_false] at cut
      have tail : (l₁ ++ p :: l₂).getLast? = (l₁ ++ l₂).getLast? := by
        rw [hc,List.getLast?_append,List.getLast?_append,List.getLast?_cons_cons]
      rw [tail] at cut
      rw [show q₃.crontabTimers = q.crontabTimers by rw [rest]]
      exact dllCongr cut (fun z hz => nextEq z (offList z hz)) fun z hz => prevEq z (offList z hz)
    · exact h.made z (all.subset (List.mem_cons_of_mem p (memAll.mpr (.inr (.inl hz)))))
    · rw [sameType cards]
      refine h.crontabs z ?_
      rw [split]
      rcases List.mem_append.mp hz with hz | hz <;> simp [hz]
  · rw [rest]
    refine h.made p (memAll.mpr (.inr (.inl ?_)))
    rw [split]
    exact List.mem_append_right _ List.mem_cons_self

end Links

section Free
variable {q : TimerQueue} {ls : Lists} {p : Ptr}

/- free_node of a node no list holds: the timers and the sizes stay. -/
structure Freed (q q' : TimerQueue) (p : Ptr) : Prop where
  rest : q' = { q with
    nodes := q'.nodes
    freeTimerNodes := q'.freeTimerNodes
    freeCrontabTimers := q'.freeCrontabTimers
    timerIds := q'.timerIds
    minTimerId := q'.minTimerId }
  nodes : ∀ z, z ≠ p → q'.nodes z = q.nodes z

theorem freeNodeFreed (q : TimerQueue) (p : Ptr) : Freed q (q.freeNode p) p := by
  refine ⟨?_,fun z other => freeNodeNodes other⟩
  unfold freeNode
  rw [recycleRest]
  unfold releaseTimerid
  split <;> rfl

theorem freeNodeVacant (h : Held q ls p) (vacant : Vacant q (q.heapIds ls)) :
    Vacant (q.freeNode p) ((q.freeNode p).heapIds ls) := by
  have ids : (q.freeNode p).heapIds ls = q.heapIds ls := List.map_congr_left fun z hz => by
    have other : z ≠ p := fun same => h.off (memAll.mpr (.inl (same ▸ hz)))
    simp only [ident,freeNodeNodes other]
  rw [ids]
  have wider : Vacant q (q.ident p :: q.heapIds ls) := vacantMono vacant (List.subset_cons_self _ _)
  have released := vacantRelease wider
  unfold freeNode
  rw [recycleRest]
  exact released

theorem freeNodeSound (h : Held q ls p) (vacant : Vacant q (q.heapIds ls))
    (clear : q.ident p ∉ q.heapIds ls) :
    ((q.nodes p).type = .general → Sound (q.freeNode p) { ls with free := p :: ls.free }) ∧
    ((q.nodes p).type = .crontab →
      Sound (q.freeNode p) { ls with freeCrontab := p :: ls.freeCrontab }) := by
  have after := freeNodeVacant h vacant
  exact ⟨fun type => ⟨(heldFree h clear).1 type,after⟩,fun type => ⟨(heldFree h clear).2 type,after⟩⟩

theorem allocatedVacant {q' : TimerQueue} (ls' : Lists) (al : Allocated q q' p) (off : p ∉ ls.heap)
    (heap : ls'.heap = ls.heap) (vacant : Vacant q (q.heapIds ls)) :
    Vacant q' (q'.heapIds ls') ∧ q'.heapIds ls' = q.heapIds ls := by
  have ids : q'.heapIds ls' = q.heapIds ls := by
    unfold heapIds
    rw [heap]
    refine List.map_congr_left fun z hz => ?_
    have other : z ≠ p := fun same => off (same ▸ hz)
    simp only [ident,al.nodes z other]
  refine ⟨?_,ids⟩
  rw [ids,al.rest]
  exact vacant

/- A node at hand is in neither of the lists that hold timers. -/
theorem heldApart {ls' : Lists} (held : Held q ls' p) (heap : ls'.heap = ls.heap)
    (crontab : ls'.crontab = ls.crontab) : p ∉ ls.heap ++ ls.crontab := fun mem => by
  rw [← heap,← crontab] at mem
  exact held.off ((List.mem_append.mp mem).elim (fun onHeap => memAll.mpr (.inl onHeap))
    fun inList => memAll.mpr (.inr (.inl inList)))

/- An id a new node does not have, and one that is stale in the free list, is no timer's. -/
theorem staleClear (h : Sound q ls) {head : Option Ptr} {id : Int}
    (last : id = -1 ∨ head = some p ∧ id = q.ident p)
    (stale : ∀ z ∈ head, q.ident z ∉ q.heapIds ls) : id ∉ q.heapIds ls := by
  rcases last with rfl | ⟨front,rfl⟩
  · intro mem
    obtain ⟨z,hz,negative⟩ := List.mem_map.mp mem
    have := (h.shape.heap.range z hz).1
    omega
  · exact stale p front

/- schedule_i without an id left gives the node back; the id that node last had
must not be the id of a timer. -/
theorem scheduleRefused (h : Sound q ls) (below : (q.currSize : Int) < q.maxSize)
    (none' : q.freeId = none) (stale : ∀ z ∈ q.freeTimerNodes, q.ident z ∉ q.heapIds ls)
    (eh : Option Handler) (arg : Arg) (deadline interval : TimeValue) :
    ∃ p free q', q.scheduleI eh arg deadline interval = some (-1,q') ∧
      Sound q' { ls with free := free } ∧ p ∉ ls.heap ++ ls.crontab ∧
      (∀ z, z ≠ p → q'.nodes z = q.nodes z) ∧ q'.timerIdsSize = q.timerIdsSize := by
  obtain ⟨p,q₁,free,alloc,held,al,type,last⟩ := allocGeneral h.shape
  have none₁ : q₁.freeId = none := by rw [al.rest]; exact none'
  have offHeap : p ∉ ls.heap ++ ls.crontab := heldApart held rfl rfl
  obtain ⟨vacant,ids⟩ := allocatedVacant { ls with free := free } al
    (fun mem => offHeap (List.mem_append_left _ mem)) rfl h.vacant
  have clear : q₁.ident p ∉ q₁.heapIds { ls with free := free } := by
    rw [ids]
    exact staleClear h last stale
  have freed := freeNodeFreed q₁ p
  refine ⟨p,p :: free,q₁.freeNode p,?_,(freeNodeSound held vacant clear).1 type,offHeap,
    fun z other => (freed.nodes z other).trans (al.nodes z other),by rw [freed.rest,al.rest]⟩
  unfold scheduleI
  rw [if_neg (not_le.mpr below),alloc]
  simp only [allocTimerid,none₁]

/- The same for a crontab timer. -/
theorem crontabRefused (h : Sound q ls) (none' : q.freeId = none)
    (stale : ∀ z ∈ q.freeCrontabTimers, q.ident z ∉ q.heapIds ls)
    (eh : Handler) (arg : Arg) (entry : Entry) (now : TimeValue) :
    ∃ p free q', q.registerCrontab eh arg entry now = some (-1,q') ∧
      Sound q' { ls with freeCrontab := free } ∧ p ∉ ls.heap ++ ls.crontab ∧
      (∀ z, z ≠ p → q'.nodes z = q.nodes z) ∧ q'.timerIdsSize = q.timerIdsSize := by
  obtain ⟨p,q₁,free,alloc,held,al,type,last⟩ := allocCrontab h.shape
  have none₁ : q₁.freeId = none := by rw [al.rest]; exact none'
  have offHeap : p ∉ ls.heap ++ ls.crontab := heldApart held rfl rfl
  obtain ⟨vacant,ids⟩ := allocatedVacant { ls with freeCrontab := free } al
    (fun mem => offHeap (List.mem_append_left _ mem)) rfl h.vacant
  have clear : q₁.ident p ∉ q₁.heapIds { ls with freeCrontab := free } := by
    rw [ids]
    exact staleClear h last stale
  have freed := freeNodeFreed q₁ p
  refine ⟨p,p :: free,q₁.freeNode p,?_,(freeNodeSound held vacant clear).2 type,offHeap,
    fun z other => (freed.nodes z other).trans (al.nodes z other),by rw [freed.rest,al.rest]⟩
  unfold registerCrontab
  rw [alloc]
  simp only [allocTimerid,none₁]

section Register
variable {q₁ : TimerQueue} {k : Int} {eh : Handler} {arg : Arg} {now : TimeValue}

/- A crontab timer's node once set() has filled it. -/
def filled (node : TimerNode) (k : Int) (eh : Handler) (arg : Arg) (now : TimeValue) : TimerNode :=
  { node with
    timerId := k, handler := some eh, arg := arg, timerValue := now, interval := now, prev := none, next := none }

/- The queue that gave its next id to the node p. -/
def numbered (q : TimerQueue) (p : Ptr) (node : TimerNode) : TimerQueue :=
  setNode { q with minTimerId := q.minTimerId + 1 } p node

@[simp] theorem numberedNodes (node : TimerNode) : (q.numbered p node).nodes = Function.update q.nodes p node := rfl

theorem numberedCard (node : TimerNode) :
    (q.numbered p node).card p = ⟨node.timerId,node.type,node.handler,node.arg⟩ := by
  simp only [card,ident,numberedNodes,Function.update_self]

/- An entry that parses: the timer goes to the crontab list. -/
theorem registerParsed (alloc : q.allocNode .crontab = (p,q₁)) (got : q₁.freeId = some k) (given : k ≠ -1)
    (e : CronEntry) : q.registerCrontab eh arg (.parsed e) now =
      some (k,(q₁.numbered p { filled (q₁.nodes p) k eh arg now with
        crontabEntry := some e, type := .crontab }).insertCrontab p) := by
  have twice : setNode (q₁.numbered p (filled (q₁.nodes p) k eh arg now)) p
      { (q₁.numbered p (filled (q₁.nodes p) k eh arg now)).nodes p with crontabEntry := some e, type := .crontab } =
        q₁.numbered p { filled (q₁.nodes p) k eh arg now with crontabEntry := some e, type := .crontab } := by
    simp only [numbered,setNode,Function.update_self,Function.update_idem]
  unfold registerCrontab
  simp only [alloc,allocTimeridGives got]
  refine (congrArg (fun r => (TimerQueue.insert r p).map fun x => (k,x)) twice).trans ?_
  unfold TimerQueue.insert
  rw [numberedNodes,Function.update_self]
  rfl

/- Any other entry: the node and its id go back. -/
theorem registerUnparsed (alloc : q.allocNode .crontab = (p,q₁)) (got : q₁.freeId = some k) (given : k ≠ -1)
    {entry : Entry} (bad : ∀ e, entry ≠ .parsed e) : q.registerCrontab eh arg entry now =
      some (-1,(q₁.numbered p (filled (q₁.nodes p) k eh arg now)).freeNode p) := by
  unfold registerCrontab
  simp only [alloc,allocTimeridGives got]
  cases entry with
  | parsed e => exact absurd rfl (bad e)
  | null => rfl
  | malformed => rfl

end Register

/- A crontab timer with an id: registered when its entry parses, gone otherwise. -/
structure Registered (q q' : TimerQueue) (ls ls' : Lists) : Prop where
  sound : Sound q' ls'
  heap : ls'.heap = ls.heap
  cards : ∀ z ∈ ls.heap ++ ls.crontab, q'.card z = q.card z
  idsSize : q'.timerIdsSize = q.timerIdsSize

theorem registerCrontabRuns (h : Sound q ls) {k : Int} (got : q.freeId = some k) (eh : Handler)
    (arg : Arg) (entry : Entry) (now : TimeValue) :
    ∃ p q' ls', p ∉ ls.heap ++ ls.crontab ∧ Registered q q' ls ls' ∧
      match entry with
      | .parsed _ => q.registerCrontab eh arg entry now = some (k,q') ∧
          ls'.crontab = p :: ls.crontab ∧ q'.card p = ⟨k,.crontab,some eh,arg⟩
      | _ => q.registerCrontab eh arg entry now = some (-1,q') ∧ ls'.crontab = ls.crontab := by
  obtain ⟨low,high,_,clear,_⟩ := freeIdSound h.shape got
  have nonneg := Int.le_trans h.shape.low low
  have notNull : k ≠ -1 := by omega
  obtain ⟨p,q₁,free,alloc,held,al,type,_⟩ := allocCrontab h.shape
  have got₁ : q₁.freeId = some k := by rw [al.rest]; exact got
  have offLists : p ∉ ls.heap ++ ls.crontab := heldApart held rfl rfl
  obtain ⟨vacant,ids⟩ := allocatedVacant { ls with freeCrontab := free } al
    (fun mem => offLists (List.mem_append_left _ mem)) rfl h.vacant
  -- the queue once the node is filled, whatever becomes of the entry
  have onHeap (node : TimerNode) : (q₁.numbered p node).heapIds { ls with freeCrontab := free } = q.heapIds ls := by
    refine Eq.trans (List.map_congr_left fun z hz => ?_) ids
    have other : z ≠ p := fun eq => offLists (List.mem_append_left _ (eq ▸ hz))
    simp only [ident,numberedNodes,Function.update_of_ne other]
  have held₂ (node : TimerNode) : Held (q₁.numbered p node) { ls with freeCrontab := free } p := by
    have next : Held { q₁ with minTimerId := q₁.minTimerId + 1 } { ls with freeCrontab := free } p :=
      ⟨shapeCongr held.shape rfl (Int.le_add_one held.shape.low) (Nat.le_refl _) fun _ _ => rfl,
        held.off,held.made⟩
    exact heldSetNode next node
  have vacant₂ (node : TimerNode) :
      Vacant (q₁.numbered p node) ((q₁.numbered p node).heapIds { ls with freeCrontab := free }) := by
    rw [onHeap,← ids]
    exact vacant
  have others {q₂ : TimerQueue} (nodes : ∀ z, z ≠ p → q₂.nodes z = q₁.nodes z) :
      ∀ z ∈ ls.heap ++ ls.crontab, q₂.card z = q.card z := fun z hz => by
    have other : z ≠ p := fun same => offLists (same ▸ hz)
    simp only [card,ident,nodes z other,al.nodes z other]
  have size : q₁.timerIdsSize = q.timerIdsSize := by rw [al.rest]
  have refused (bad : ∀ e, entry ≠ .parsed e) : ∃ q' ls', Registered q q' ls ls' ∧ ls'.crontab = ls.crontab ∧
      q.registerCrontab eh arg entry now = some (-1,q') := by
    have freed := freeNodeFreed (q₁.numbered p (filled (q₁.nodes p) k eh arg now)) p
    have isNew := numberedCard (q := q₁) (p := p) (filled (q₁.nodes p) k eh arg now)
    have self : (q₁.numbered p (filled (q₁.nodes p) k eh arg now)).ident p = k := congrArg Card.id isNew
    have sound := (freeNodeSound (held₂ _) (vacant₂ _) (by rw [self,onHeap]; exact clear)).2
      ((congrArg Card.type isNew).trans type)
    refine ⟨_,_,⟨sound,rfl,others fun z other => ?_,?_⟩,rfl,registerUnparsed alloc got₁ notNull bad⟩
    · rw [freed.nodes z other,numberedNodes,Function.update_of_ne other]
    · rw [freed.rest]
      exact size
  cases entry with
  | parsed e =>
    have isNew := numberedCard (q := q₁) (p := p)
      { filled (q₁.nodes p) k eh arg now with crontabEntry := some e, type := .crontab }
    obtain ⟨q₃,inserted,shape₃,cards₃,onHeap₃,rest₃⟩ := insertCrontabShape (held₂ _) (congrArg Card.type isNew)
    have same : q₃.heapIds { ls with crontab := p :: ls.crontab, freeCrontab := free } = (numbered q₁ p
        { filled (q₁.nodes p) k eh arg now with crontabEntry := some e, type := .crontab }).heapIds
          { ls with freeCrontab := free } := List.map_congr_left fun z hz => by
      simp only [ident,onHeap₃ z hz]
    have vacant₃ : Vacant q₃ (q₃.heapIds { ls with crontab := p :: ls.crontab, freeCrontab := free }) := by
      rw [same,rest₃]
      exact vacant₂ _
    refine ⟨p,q₃,_,offLists,⟨⟨shape₃,vacant₃⟩,rfl,fun z hz => ?_,by rw [rest₃]; exact size⟩,?_,rfl,
      (cards₃ p).trans isNew⟩
    · rw [cards₃ z]
      exact others (fun z other => by rw [numberedNodes,Function.update_of_ne other]) z hz
    · rw [registerParsed alloc got₁ notNull,inserted]
  | null =>
    obtain ⟨q',ls',registered,same,eq⟩ := refused fun _ same => by cases same
    exact ⟨p,q',ls',offLists,registered,eq,same⟩
  | malformed =>
    obtain ⟨q',ls',registered,same,eq⟩ := refused fun _ same => by cases same
    exact ⟨p,q',ls',offLists,registered,eq,same⟩

/- The search of the crontab list stops at the timer with the id. -/
theorem findCrontabFinds {fuel : Nat} {l₁ l₂ : List Ptr} {from_ : Option Ptr}
    (walk : Seg q.nextOf from_ (l₁ ++ p :: l₂) none) (enough : (l₁ ++ p :: l₂).length < fuel)
    (other : ∀ z ∈ l₁, q.ident z ≠ q.ident p) :
    q.findCrontab (q.ident p) fuel from_ = some (some p) := by
  induction l₁ generalizing fuel from_ with
  | nil =>
    obtain ⟨n,rfl⟩ := Nat.exists_eq_succ_of_ne_zero (Nat.ne_of_gt (Nat.zero_lt_of_lt enough))
    rw [walk.1]
    exact if_pos rfl
  | cons a l₁ ih =>
    obtain ⟨n,rfl⟩ := Nat.exists_eq_succ_of_ne_zero (Nat.ne_of_gt (Nat.zero_lt_of_lt enough))
    rw [walk.1]
    have off : ¬ q.ident p = (q.nodes a).timerId := fun same => other a List.mem_cons_self same.symm
    simp only [findCrontab,if_neg off]
    exact ih walk.2 (Nat.lt_of_succ_lt_succ enough) fun z hz => other z (List.mem_cons_of_mem a hz)

/- cancel on the id of a crontab timer with a neighbour on both sides. -/
theorem cancelInside (h : Sound q ls) {l₁ l₂ : List Ptr} (split : ls.crontab = l₁ ++ p :: l₂)
    (before : l₁ ≠ []) (after : l₂ ≠ []) (distinct : (q.crontabIds ls).Nodup)
    (clear : q.ident p ∉ q.heapIds ls) (range : 0 ≤ q.ident p ∧ q.ident p < q.timerIdsSize)
    (dontCall : Bool) :
    ∃ q', q.cancel (q.ident p) dontCall = some (0,some (q.nodes p).arg,q') ∧
      Sound q' { ls with crontab := l₁ ++ l₂, freeCrontab := p :: ls.freeCrontab } ∧
      (∀ z, z ≠ p → q'.card z = q.card z) ∧ q'.timerIdsSize = q.timerIdsSize := by
  have walk := h.shape.crontab.forth
  have short := crontabShort h.shape
  rw [split] at walk short
  have other : ∀ z ∈ l₁, q.ident z ≠ q.ident p := by
    unfold crontabIds at distinct
    rw [split,List.map_append,List.nodup_append] at distinct
    exact fun z hz => distinct.2.2 _ (List.mem_map_of_mem hz) _
      (List.mem_map_of_mem List.mem_cons_self)
  have found := findCrontabFinds walk short other
  obtain ⟨c,called⟩ := toldCalls q (q.nodes p).handler dontCall
  obtain ⟨q₀,def₀⟩ : ∃ q₀, q₀ = { q with calls := c } := ⟨_,rfl⟩
  have h₀ : Sound q₀ ls := def₀ ▸ soundCalls h c
  have same₀ : q₀.nodes = q.nodes ∧ q₀.timerIdsSize = q.timerIdsSize := by rw [def₀]; exact ⟨rfl,rfl⟩
  obtain ⟨q₁,unlinked,held,cards,onHeap,rest⟩ := unlinkCrontabInside h₀.shape split before after
  have cards₀ : SameCards q q₁ := fun z => by
    rw [cards z]
    simp only [card,ident,same₀.1]
  have idents := sameIdent cards₀
  have ids : q₁.heapIds { ls with crontab := l₁ ++ l₂ } = q.heapIds ls := by
    simp only [heapIds,idents]
  have vacant : Vacant q₁ (q₁.heapIds { ls with crontab := l₁ ++ l₂ }) := by
    rw [ids,rest,def₀]
    exact h.vacant
  have typed : (q₁.nodes p).type = .crontab := by
    rw [sameType cards₀]
    exact h.shape.crontabs p (split ▸ List.mem_append_right _ List.mem_cons_self)
  have freed := freeNodeFreed q₁ p
  refine ⟨q₁.freeNode p,?_,(freeNodeSound held vacant (by rw [ids,idents]; exact clear)).2 typed,
    fun z notP => ?_,?_⟩
  · unfold cancel
    rw [if_neg (by omega)]
    simp only [found,cancelCrontab,called,← def₀,unlinked,bind,Option.bind,Option.map_some]
  · rw [← cards₀ z]
    simp only [card,ident,freed.nodes z notP]
  · rw [freed.rest,rest]
    exact same₀.2

end Free

end CuteNdk.TimerQueue
