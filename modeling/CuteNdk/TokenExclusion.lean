import CuteNdk.Token

/-! What the token's queues hold and who owns it, over every interleaving. The
two waiter queues are described by the threads a walk from head_ meets. -/
namespace CuteNdk.ReactorToken
open Lib (Seg seek segAppend segCongr segUpdate segSetLast segNodup segHead seekFound)

structure QueueRep (k : Token) (o : OptType) (l : List Thread) : Prop where
  chain : Seg k.next (k.queue o).head l none
  tail : (k.queue o).tail = l.getLast?

theorem QueueRep.congr {k k' : Token} {o : OptType} {l : List Thread} (h : QueueRep k o l)
    (next : k'.next = k.next) (queue : k'.queue o = k.queue o) : QueueRep k' o l :=
  ⟨by rw [next,queue]; exact h.chain,by rw [queue]; exact h.tail⟩

@[simp] theorem queueSetQueue (k : Token) (q : Queue) (o o' : OptType) :
    (k.setQueue q o).queue o' = if o' = o then q else k.queue o' := by
  cases o <;> cases o' <;> rfl

@[simp] theorem nextSetQueue (k : Token) (q : Queue) (o : OptType) : (k.setQueue q o).next = k.next := by
  cases o <;> rfl

@[simp] theorem queueSetNext (k : Token) (t : Thread) (n : Option Thread) (o : OptType) :
    (k.setNext t n).queue o = k.queue o := by
  cases o <;> rfl

@[simp] theorem nextSetNext (k : Token) (t : Thread) (n : Option Thread) :
    (k.setNext t n).next = Function.update k.next t n := by
  funext u
  simp only [Token.next,Token.setNext,Function.update_apply]
  split <;> rfl

@[simp] theorem runableSetNext (k : Token) (t u : Thread) (n : Option Thread) :
    ((k.setNext t n).entry u).runable = (k.entry u).runable := by
  simp only [Token.setNext,Function.update_apply]
  split
  · rename_i same; rw [same]
  · rfl

@[simp] theorem signaledSetNext (k : Token) (t u : Thread) (n : Option Thread) :
    ((k.setNext t n).entry u).signaled = (k.entry u).signaled := by
  simp only [Token.setNext,Function.update_apply]
  split
  · rename_i same; rw [same]
  · rfl

/- What an operation on the queues leaves alone: who owns the token, how deep,
and which entries are runable. -/
structure SameOwner (k k' : Token) : Prop where
  inUse : k'.inUse = k.inUse
  owner : k'.owner = k.owner
  nesting : k'.nestingLevel = k.nestingLevel
  strategy : k'.queueingStrategy = k.queueingStrategy
  runable : ∀ u, (k'.entry u).runable = (k.entry u).runable
  signaled : ∀ u, (k'.entry u).signaled = (k.entry u).signaled

theorem sameSetQueue (k : Token) (q : Queue) (o : OptType) : SameOwner k (k.setQueue q o) := by
  cases o <;> exact ⟨rfl,rfl,rfl,rfl,fun _ => rfl,fun _ => rfl⟩

theorem sameSetNext (k : Token) (t : Thread) (n : Option Thread) : SameOwner k (k.setNext t n) :=
  ⟨rfl,rfl,rfl,rfl,fun u => runableSetNext k t u n,fun u => signaledSetNext k t u n⟩

theorem sameTrans {k k' k'' : Token} (h : SameOwner k k') (h' : SameOwner k' k'') : SameOwner k k'' :=
  ⟨h'.inUse.trans h.inUse,h'.owner.trans h.owner,h'.nesting.trans h.nesting,
    h'.strategy.trans h.strategy,fun u => (h'.runable u).trans (h.runable u),
    fun u => (h'.signaled u).trans (h.signaled u)⟩

theorem insertSameOwner (k : Token) (t : Thread) (o : OptType) : SameOwner k (insertEntry k t o) := by
  unfold insertEntry
  split
  · exact sameSetQueue ..
  · exact sameTrans (sameSetNext ..) (sameSetQueue ..)
  · exact sameTrans (sameSetNext ..) (sameSetQueue ..)
  · exact ⟨rfl,rfl,rfl,rfl,fun _ => rfl,fun _ => rfl⟩

theorem removeSameOwner (k : Token) (t : Thread) (o : OptType) : SameOwner k (removeEntry k t o) := by
  unfold removeEntry
  split
  · exact ⟨rfl,rfl,rfl,rfl,fun _ => rfl,fun _ => rfl⟩
  · dsimp only
    split
    · exact sameSetQueue ..
    · exact sameTrans (sameSetNext ..) (sameSetQueue ..)

theorem sleepInUse (k : Token) (t : Thread) (o : OptType) : (fallAsleep k t o).inUse = k.inUse ∧
    (fallAsleep k t o).owner = k.owner ∧ (fallAsleep k t o).nestingLevel = k.nestingLevel ∧
    ∀ u, u ≠ t → ((fallAsleep k t o).entry u).runable = (k.entry u).runable ∧
      ((fallAsleep k t o).entry u).signaled = (k.entry u).signaled := by
  have same := insertSameOwner { k with entry := Function.update k.entry t ⟨false,none,false⟩ } t o
  refine ⟨same.inUse,same.owner,same.nesting,fun u other => ⟨(same.runable u).trans ?_,(same.signaled u).trans ?_⟩⟩
  · simp only [Function.update_of_ne other]
  · simp only [Function.update_of_ne other]

theorem insertWaiters (k : Token) (t : Thread) (o : OptType) : (insertEntry k t o).waiters = k.waiters := by
  unfold insertEntry
  split <;> cases o <;> rfl

theorem removeWaiters (k : Token) (t : Thread) (o : OptType) : (removeEntry k t o).waiters = k.waiters := by
  unfold removeEntry
  split
  · rfl
  · dsimp only
    split <;> cases o <;> rfl

/- The queue insert_entry leaves behind. -/
def inserted : Strategy → Thread → List Thread → List Thread
  | .lifo, t, l => t :: l
  | .fifo, t, l => l ++ [t]

theorem insertRep {k : Token} {t : Thread} {o : OptType} {l : OptType → List Thread}
    (rep : ∀ o, QueueRep k o (l o)) (fresh : ∀ o, t ∉ l o) (null : k.next t = none)
    (apart : ∀ o' u, o' ≠ o → u ∈ l o → u ∉ l o') (o' : OptType) :
    QueueRep (insertEntry k t o) o' (Function.update l o (inserted k.queueingStrategy t (l o)) o') := by
  have head := segHead (rep o).chain
  have tail := (rep o).tail
  cases hHead : (k.queue o).head with
  | none =>
    have empty : l o = [] := by simpa [hHead] using head.symm
    simp only [insertEntry,hHead]
    by_cases same : o' = o
    · subst o'
      simp only [Function.update_self,empty]
      cases k.queueingStrategy <;> exact ⟨by simp [inserted,Seg,null],by simp [inserted]⟩
    · simp only [Function.update_of_ne same]
      exact ⟨by simpa [same] using (rep o').chain,by simpa [same] using (rep o').tail⟩
  | some h =>
    cases hStrategy : k.queueingStrategy with
    | lifo =>
      simp only [insertEntry,hHead,hStrategy]
      by_cases same : o' = o
      · subst o'
        simp only [Function.update_self,inserted]
        constructor
        · simp only [queueSetQueue,if_true,nextSetQueue,nextSetNext]
          refine ⟨rfl,?_⟩
          rw [Function.update_self,segUpdate (fresh o),← hHead]
          exact (rep o).chain
        · simp only [queueSetQueue,if_true,tail]
          cases hl : l o with
          | nil => simp [hl,hHead] at head
          | cons a rest => simp [List.getLast?_cons]
      · simp only [Function.update_of_ne same]
        constructor
        · simpa [same,segUpdate (fresh o')] using (rep o').chain
        · simpa [same] using (rep o').tail
    | fifo =>
      cases hTail : (k.queue o).tail with
      | none =>
        have empty : l o = [] := List.getLast?_eq_none_iff.mp (tail.symm.trans hTail)
        simp [empty,hHead] at head
      | some z =>
        simp only [insertEntry,hHead,hStrategy,hTail]
        obtain ⟨front,split⟩ : ∃ front, l o = front ++ [z] :=
          List.getLast?_eq_some_iff.mp (tail.symm.trans hTail)
        by_cases same : o' = o
        · subst o'
          simp only [Function.update_self,inserted]
          have chain := (rep o).chain
          have nodup := segNodup chain
          rw [split] at chain nodup
          have off : z ∉ front :=
            fun mem => (List.nodup_append.mp nodup).2.2 z mem z List.mem_cons_self rfl
          have other : t ≠ z := fun eq => fresh o (by rw [split,eq]; simp)
          constructor
          · simp only [queueSetQueue,if_true,nextSetQueue,nextSetNext]
            refine segAppend.mpr ⟨some t,?_,rfl,?_⟩
            · rw [hHead] at chain
              rw [split]
              exact segSetLast chain off
            · rw [Function.update_of_ne other]
              exact null
          · simp
        · simp only [Function.update_of_ne same]
          have off : z ∉ l o' := apart o' z same (by rw [split]; simp)
          constructor
          · simpa [same,segUpdate off] using (rep o').chain
          · simpa [same] using (rep o').tail

theorem removeRep {k : Token} {t : Thread} {o : OptType} {l : OptType → List Thread}
    (rep : ∀ o, QueueRep k o (l o)) (mem : t ∈ l o) (enough : (l o).length < k.waiters.toNat + 2)
    (apart : ∀ o' u, o' ≠ o → u ∈ l o → u ∉ l o') (o' : OptType) :
    QueueRep (removeEntry k t o) o' (Function.update l o ((l o).erase t) o') := by
  obtain ⟨l₁,l₂,split⟩ := List.append_of_mem mem
  have chain := (rep o).chain
  have tail := (rep o).tail
  have nodup := segNodup chain
  rw [split] at chain tail nodup
  have fresh : t ∉ l₁ := fun h => (List.nodup_append.mp nodup).2.2 t h t List.mem_cons_self rfl
  have left : (l o).erase t = l₁ ++ l₂ := by
    rw [split,List.erase_append_right _ fresh,List.erase_cons_head]
  have found : seek k.next t (k.waiters.toNat + 2) none (k.queue o).head = (l₁.getLast?,some t) := by
    rw [seekFound chain (by rw [split] at enough; simp at enough; omega)]
    simp
  obtain ⟨m,front,same,rest⟩ := segAppend.mp chain
  subst m
  have afterTail : (if k.next t = none then l₁.getLast? else (k.queue o).tail) = (l₁ ++ l₂).getLast? := by
    rw [segHead rest,tail]
    cases l₂ with
    | nil => simp
    | cons b l₂ => simp [List.getLast?_append,List.getLast?_cons]
  unfold removeEntry
  rw [found]
  dsimp only
  cases front? : l₁.getLast? with
  | none =>
    have empty : l₁ = [] := List.getLast?_eq_none_iff.mp front?
    subst l₁
    by_cases other : o' = o
    · subst o'
      simp only [Function.update_self,left]
      rw [front?] at afterTail
      exact ⟨by simpa using rest,by simpa using afterTail⟩
    · simp only [Function.update_of_ne other]
      exact ⟨by simpa [other] using (rep o').chain,by simpa [other] using (rep o').tail⟩
  | some p =>
    obtain ⟨l₀,split'⟩ : ∃ l₀, l₁ = l₀ ++ [p] := List.getLast?_eq_some_iff.mp front?
    have pOff : p ∉ l₀ ∧ p ∉ l₂ := by
      rw [split'] at nodup
      constructor
      · exact fun h => (List.nodup_append.mp (List.nodup_append.mp nodup).1).2.2 p h p (by simp) rfl
      · exact fun h => (List.nodup_append.mp nodup).2.2 p (by simp) p (by simp [h]) rfl
    by_cases other : o' = o
    · subst o'
      simp only [Function.update_self,left]
      constructor
      · simp only [queueSetQueue,if_true,nextSetQueue,nextSetNext]
        refine segAppend.mpr ⟨k.next t,?_,?_⟩
        · rw [split'] at front ⊢
          exact segSetLast front pOff.1
        · exact (segUpdate pOff.2).mpr rest
      · rw [← afterTail,front?]
        simp
    · simp only [Function.update_of_ne other]
      have off : p ∉ l o' := apart o' p other (by rw [split,split']; simp)
      constructor
      · simpa [other,segUpdate off] using (rep o').chain
      · simpa [other] using (rep o').tail

theorem selectNext (k : Token) (o : OptType) (h : Thread) : (k.select o h).next = k.next := by
  funext u
  simp only [Token.next,Token.select,Function.update_apply]
  split
  · rename_i same; rw [same]
  · rfl

theorem consumeSame (k : Token) (t : Thread) :
    (k.consume t).next = k.next ∧ ∀ u, ((k.consume t).entry u).runable = (k.entry u).runable := by
  refine ⟨funext fun u => ?_,fun u => ?_⟩
  · simp only [Token.next,Token.consume,Function.update_apply]
    split
    · rename_i same; rw [same]
    · rfl
  · simp only [Token.consume,Function.update_apply]
    split
    · rename_i same; rw [same]
    · rfl

theorem wakeupNext (k : Token) : (wakeupNextWaiter k).next = k.next := by
  unfold wakeupNextWaiter
  split
  · exact selectNext ..
  · exact selectNext ..
  · rfl

theorem wakeupQueue (k : Token) (o : OptType) : (wakeupNextWaiter k).queue o = k.queue o := by
  unfold wakeupNextWaiter
  split <;> cases o <;> rfl

theorem wakeupFrame (k : Token) :
    (wakeupNextWaiter k).waiters = k.waiters ∧ (wakeupNextWaiter k).nestingLevel = k.nestingLevel := by
  unfold wakeupNextWaiter
  split <;> exact ⟨rfl,rfl⟩

/- wakeup_next_waiter hands the token to a queued thread, which it makes
runable, and leaves it free only when both queues are empty. -/
theorem wakeupOwner {k : Token} {l : OptType → List Thread} (rep : ∀ o, QueueRep k o (l o)) :
    (∃ o h, h ∈ l o ∧ (wakeupNextWaiter k).owner = some h ∧ (wakeupNextWaiter k).inUse ≠ none ∧
      ((wakeupNextWaiter k).entry h).runable ∧ ((wakeupNextWaiter k).entry h).signaled) ∨
    ((∀ o, l o = []) ∧ (wakeupNextWaiter k).owner = none ∧ (wakeupNextWaiter k).inUse = none) := by
  have writers := segHead (rep .writeToken).chain
  have readers := segHead (rep .readToken).chain
  simp only [Token.queue] at writers readers
  cases hw : k.writers.head with
  | some h =>
    simp only [wakeupNextWaiter,hw]
    refine .inl ⟨.writeToken,h,List.mem_of_mem_head? (writers.symm.trans hw),rfl,nofun,?_,?_⟩
    · simp [Token.select]
    · simp [Token.select]
  | none =>
    cases hr : k.readers.head with
    | some h =>
      simp only [wakeupNextWaiter,hw,hr]
      refine .inl ⟨.readToken,h,List.mem_of_mem_head? (readers.symm.trans hr),rfl,nofun,?_,?_⟩
      · simp [Token.select]
      · simp [Token.select]
    | none =>
      refine .inr ⟨fun o => ?_,by simp [wakeupNextWaiter,hw,hr],by simp [wakeupNextWaiter,hw,hr]⟩
      cases o with
      | readToken => exact List.head?_eq_none_iff.mp (readers.symm.trans hr)
      | writeToken => exact List.head?_eq_none_iff.mp (writers.symm.trans hw)

/- The two queues together hold exactly the threads asleep in shared_acquire. -/
structure Waiting (k : Token) (blocked : Thread → Option Frame) (l : OptType → List Thread) : Prop where
  rep : ∀ o, QueueRep k o (l o)
  mem : ∀ o t, t ∈ l o ↔ ∃ f, blocked t = some f ∧ f.opt = o
  count : k.waiters = (l .writeToken).length + (l .readToken).length

theorem Waiting.apart {k blocked l} (h : Waiting k blocked l) (o o' : OptType) (u : Thread)
    (other : o' ≠ o) (mem : u ∈ l o) : u ∉ l o' := by
  intro mem'
  obtain ⟨f,hf,rfl⟩ := (h.mem o u).mp mem
  obtain ⟨f',hf',rfl⟩ := (h.mem o' u).mp mem'
  cases Option.some.inj (hf.symm.trans hf')
  exact other rfl

theorem Waiting.awake {k blocked l} (h : Waiting k blocked l) {t : Thread} (up : blocked t = none)
    (o : OptType) : t ∉ l o := by
  intro mem
  obtain ⟨f,hf,_⟩ := (h.mem o t).mp mem
  simp [up] at hf

theorem Waiting.short {k blocked l} (h : Waiting k blocked l) (o : OptType) :
    (l o).length ≤ k.waiters.toNat := by
  have := h.count
  cases o <;> omega

theorem Waiting.congr {k k' : Token} {blocked l} (h : Waiting k blocked l) (next : k'.next = k.next)
    (queue : ∀ o, k'.queue o = k.queue o) (waiters : k'.waiters = k.waiters) : Waiting k' blocked l :=
  ⟨fun o => (h.rep o).congr next (queue o),h.mem,waiters.trans h.count⟩

theorem Waiting.wakeup {k blocked l} (h : Waiting k blocked l) :
    Waiting (wakeupNextWaiter k) blocked l :=
  h.congr (wakeupNext k) (wakeupQueue k) (wakeupFrame k).1

/- Going to sleep and leaving change one queue by the one thread that does it. -/
theorem Waiting.sleep {k blocked l} (h : Waiting k blocked l) {t : Thread} (up : blocked t = none)
    (f : Frame) :
    Waiting (fallAsleep k t f.opt) (Function.update blocked t (some f))
      (Function.update l f.opt (inserted k.queueingStrategy t (l f.opt))) := by
  have fresh := h.awake up
  have rep : ∀ o, QueueRep { k with entry := Function.update k.entry t ⟨false,none,false⟩ } o (l o) := by
    intro o
    have same : (Token.queue { k with entry := Function.update k.entry t ⟨false,none,false⟩ } o) =
        k.queue o := by cases o <;> rfl
    refine ⟨?_,by rw [same]; exact (h.rep o).tail⟩
    rw [same]
    refine (segCongr fun a ha => ?_).mpr (h.rep o).chain
    have other : a ≠ t := fun same => fresh o (same ▸ ha)
    simp [Token.next,Function.update_of_ne other]
  have null : Token.next { k with entry := Function.update k.entry t ⟨false,none,false⟩ } t = none := by
    simp [Token.next]
  refine ⟨fun o => ?_,fun o u => ?_,?_⟩
  · have grown := insertRep rep fresh null (fun o' u => h.apart f.opt o' u) o
    exact grown.congr rfl (by cases o <;> rfl)
  · by_cases same : o = f.opt
    · subst o
      have entered : u ∈ inserted k.queueingStrategy t (l f.opt) ↔ u = t ∨ u ∈ l f.opt := by
        cases k.queueingStrategy <;> simp [inserted,or_comm]
      rw [Function.update_self,entered,h.mem]
      by_cases ht : u = t
      · simp [ht]
      · simp [ht]
    · rw [Function.update_of_ne same,h.mem]
      by_cases ht : u = t
      · subst u
        simp [up,Ne.symm same]
      · simp [ht]
  · have grown : (inserted k.queueingStrategy t (l f.opt)).length = (l f.opt).length + 1 := by
      cases k.queueingStrategy <;> simp [inserted]
    have count := h.count
    simp only [fallAsleep,insertWaiters]
    cases hf : f.opt <;> simp [hf] at grown ⊢ <;> omega

theorem Waiting.leave {k blocked l} (h : Waiting k blocked l) {t : Thread} {f : Frame}
    (asleep : blocked t = some f) :
    Waiting (leave k t f.opt) (Function.update blocked t none)
      (Function.update l f.opt ((l f.opt).erase t)) := by
  have mem : t ∈ l f.opt := (h.mem _ _).mpr ⟨f,asleep,rfl⟩
  have nodup : (l f.opt).Nodup := segNodup (h.rep f.opt).chain
  have rep : ∀ o, QueueRep { k with waiters := k.waiters - 1 } o (l o) :=
    fun o => (h.rep o).congr rfl (by cases o <;> rfl)
  have enough : (l f.opt).length < (k.waiters - 1).toNat + 2 := by
    have := h.short f.opt
    omega
  refine ⟨removeRep rep mem enough fun o' u => h.apart f.opt o' u,fun o u => ?_,?_⟩
  · by_cases ht : u = t
    · subst u
      simp only [Function.update_self]
      constructor
      · intro still
        by_cases same : o = f.opt
        · subst o
          rw [Function.update_self] at still
          exact absurd rfl (nodup.mem_erase_iff.mp still).1
        · rw [Function.update_of_ne same] at still
          exact absurd still (h.apart f.opt o t same mem)
      · rintro ⟨_,no,_⟩
        exact absurd no nofun
    · rw [Function.update_of_ne ht,← h.mem]
      by_cases same : o = f.opt
      · subst o
        rw [Function.update_self,nodup.mem_erase_iff]
        exact ⟨fun hu => hu.2,fun hu => ⟨ht,hu⟩⟩
      · rw [Function.update_of_ne same]
  · have shrunk := List.length_erase_of_mem mem
    have pos := List.length_pos_of_mem mem
    have count := h.count
    simp only [ReactorToken.leave,removeWaiters]
    cases hf : f.opt <;> simp [hf] at shrunk pos ⊢ <;> omega

/- Who may act on the token: nobody while it is free, and otherwise one thread,
which either runs and holds every outstanding acquisition or sleeps, chosen to
run next. A thread whose wait ended in an error can be left chosen although it
holds nothing, which the second count of held allows for. -/
structure Owned (k : Token) (blocked : Thread → Option Frame) (held : Thread → Nat) : Prop where
  idle : k.inUse = none → k.owner = none ∧ k.nestingLevel = 0 ∧ ∀ t, blocked t = none ∧ held t = 0
  busy : k.inUse ≠ none → ∃ o, k.owner = some o ∧ (∀ t, t ≠ o → held t = 0) ∧
    (blocked o = none → held o = k.nestingLevel + 1 ∨ held o = k.nestingLevel) ∧
    (blocked o ≠ none → held o = 0 ∧ k.nestingLevel = 0 ∧ (k.entry o).runable)

structure Inv (s : State) : Prop where
  waiting : ∃ l, Waiting s.token s.blocked l
  owned : Owned s.token s.blocked s.held

theorem invInit (strategy : Strategy) : Inv (init strategy) := by
  refine ⟨⟨fun _ => [],fun o => ?_,fun o t => by simp [init],by simp [init,Token.new]⟩,?_⟩
  · cases o <;> exact ⟨rfl,rfl⟩
  · exact ⟨fun _ => ⟨rfl,rfl,fun _ => ⟨rfl,rfl⟩⟩,fun busy => absurd rfl busy⟩

theorem invExclusive {s : State} (h : Inv s) : Exclusive s := by
  have kept : ∀ t, 0 < s.held t → s.token.owner = some t ∧ s.token.inUse ≠ none := by
    intro t holds
    have busy : s.token.inUse ≠ none := by
      intro idle
      have := ((h.owned.idle idle).2.2 t).2
      omega
    obtain ⟨o,owner,others,_⟩ := h.owned.busy busy
    have same : t = o := by
      by_contra other
      have := others t other
      omega
    exact ⟨same ▸ owner,busy⟩
  refine ⟨fun t u ht hu => ?_,kept⟩
  exact Option.some.inj ((kept t ht).1.symm.trans (kept u hu).1)

/- Nobody holds the token: handing it over is what makes or keeps it owned. -/
theorem handOver {k blocked l} {held : Thread → Nat} (h : Waiting k blocked l)
    (free : ∀ t, held t = 0) (flat : k.nestingLevel = 0) :
    Owned (wakeupNextWaiter k) blocked held := by
  have nesting : (wakeupNextWaiter k).nestingLevel = 0 := (wakeupFrame k).2.trans flat
  rcases wakeupOwner h.rep with ⟨o,t,mem,owner,busy,runable,_⟩ | ⟨empty,owner,idle⟩
  · refine ⟨fun no => absurd no busy,fun _ => ⟨t,owner,fun u _ => free u,fun up => ?_,fun _ => ?_⟩⟩
    · exact absurd mem (h.awake up o)
    · exact ⟨free t,nesting,runable⟩
  · refine ⟨fun _ => ⟨owner,nesting,fun t => ⟨?_,free t⟩⟩,fun no => absurd idle no⟩
    cases up : blocked t with
    | none => rfl
    | some f =>
      have mem := (h.mem f.opt t).mpr ⟨f,up,rfl⟩
      simp [empty] at mem

theorem ownedNesting {k blocked} {held : Thread → Nat} (h : Owned k blocked held)
    (free : ∀ t, held t = 0) : k.nestingLevel = 0 := by
  by_cases busy : k.inUse = none
  · exact (h.idle busy).2.1
  · obtain ⟨o,_,_,runs,sleeps⟩ := h.busy busy
    by_cases up : blocked o = none
    · have := runs up
      have := free o
      omega
    · exact (sleeps up).2.1

theorem acquireInv {s s' : State} {t : Thread} {o : OptType} {timed : Bool} (h : Inv s)
    (next : step s (.acquire t o timed) = some s') : Inv s' := by
  obtain ⟨l,waiting⟩ := h.waiting
  simp only [step] at next
  split at next <;> try contradiction
  rename_i up
  by_cases idle : s.token.inUse = none
  · obtain ⟨_,flat,quiet⟩ := h.owned.idle idle
    simp only [sharedAcquire,if_pos idle] at next
    cases Option.some.inj next
    refine ⟨⟨l,waiting.congr rfl (fun o => by cases o <;> rfl) rfl⟩,fun no => absurd no nofun,fun _ => ?_⟩
    refine ⟨t,rfl,fun u other => ?_,fun _ => .inl ?_,fun asleep => absurd up asleep⟩
    · simp only [Function.update_of_ne other]
      exact (quiet u).2
    · simp only [Function.update_self,(quiet t).2,flat]
  · obtain ⟨w,owner,others,runs,sleeps⟩ := h.owned.busy idle
    by_cases mine : s.token.owner = some t
    · have same : w = t := Option.some.inj (owner.symm.trans mine)
      subst w
      simp only [sharedAcquire,if_neg idle,if_pos mine] at next
      cases Option.some.inj next
      refine ⟨⟨l,waiting.congr rfl (fun o => by cases o <;> rfl) rfl⟩,fun no => absurd no idle,fun _ => ?_⟩
      refine ⟨t,owner,fun u other => ?_,fun _ => ?_,fun asleep => absurd up asleep⟩
      · simp only [Function.update_of_ne other]
        exact others u other
      · have := runs up
        simp only [Function.update_self]
        omega
    · simp only [sharedAcquire,if_neg idle,if_neg mine] at next
      cases Option.some.inj next
      have other : w ≠ t := fun same => mine (same ▸ owner)
      obtain ⟨inUse',owner',nesting',runable'⟩ := sleepInUse s.token t o
      refine ⟨⟨_,waiting.sleep up ⟨o,timed⟩⟩,fun no => absurd (inUse'.symm.trans no) idle,fun _ => ?_⟩
      refine ⟨w,owner'.trans owner,others,?_,?_⟩
      · simp only [Function.update_of_ne other,nesting']
        exact runs
      · simp only [Function.update_of_ne other,nesting',(runable' w other).1]
        exact sleeps

theorem leaveSameOwner (k : Token) (t : Thread) (o : OptType) : SameOwner k (leave k t o) :=
  have same := removeSameOwner { k with waiters := k.waiters - 1 } t o
  ⟨same.inUse,same.owner,same.nesting,same.strategy,same.runable,same.signaled⟩

/- A sleeper that sees itself owner was made runable by whoever chose it: the
assertion at the end of shared_acquire. -/
theorem awakeRunable {s : State} {t : Thread} (h : Inv s) (asleep : s.blocked t ≠ none)
    (mine : s.token.owner = some t) : (s.token.entry t).runable := by
  have busy : s.token.inUse ≠ none := fun idle => asleep ((h.owned.idle idle).2.2 t).1
  obtain ⟨w,owner,_,_,sleeps⟩ := h.owned.busy busy
  cases Option.some.inj (owner.symm.trans mine)
  exact (sleeps asleep).2.2

/- The waiter that gives up leaves a token that was handed over while nobody
held it; if it was chosen itself and its wait failed by timeout, it passes the
token on. -/
theorem failedOwned {s : State} {t : Thread} {f : Frame} (h : Inv s) (asleep : s.blocked t = some f)
    (free : ∀ u, s.held u = 0) {l} (waiting : Waiting s.token s.blocked l) :
    Owned (leave (wakeupNextWaiter s.token) t f.opt) (Function.update s.blocked t none) s.held := by
  have flat := ownedNesting h.owned free
  have given := handOver waiting free flat
  have same := leaveSameOwner (wakeupNextWaiter s.token) t f.opt
  refine ⟨fun idle => ?_,fun busy => ?_⟩
  · have was := (given.idle (same.inUse.symm.trans idle)).2.2 t
    exact absurd (was.1.symm.trans asleep) nofun
  · obtain ⟨w,owner,others,runs,sleeps⟩ := given.busy fun no => busy (same.inUse.trans no)
    refine ⟨w,same.owner.trans owner,others,fun _ => .inr ?_,fun asleep' => ?_⟩
    · rw [free w,same.nesting,(wakeupFrame s.token).2,flat]
    · have other : w ≠ t := by
        intro eq
        rw [eq,Function.update_self] at asleep'
        exact asleep' rfl
      rw [Function.update_of_ne other] at asleep'
      have was := sleeps asleep'
      exact ⟨was.1,same.nesting.trans was.2.1,by rw [same.runable]; exact was.2.2⟩

theorem wakeInv {s s' : State} {t : Thread} {r : WaitResult} (h : Inv s)
    (meets : FailsUnheld s (.wake t r)) (next : step s (.wake t r) = some s') : Inv s' := by
  obtain ⟨l,waiting⟩ := h.waiting
  simp only [step] at next
  split at next <;> try contradiction
  rename_i f asleep
  split at next <;> try contradiction
  have woken : (r = .woken ∨ r = .eintr) → Inv s' := by
    intro normal
    by_cases mine : s.token.owner = some t
    · have out : awake s.token t f.opt r = (leave s.token t f.opt,some 0) := by
        rcases normal with rfl | rfl <;> simp [awake,mine]
      rw [out] at next
      cases Option.some.inj next
      have busy : s.token.inUse ≠ none := by
        intro idle
        exact absurd (((h.owned.idle idle).2.2 t).1.symm.trans asleep) nofun
      obtain ⟨w,owner,others,_,sleeps⟩ := h.owned.busy busy
      have eq : w = t := Option.some.inj (owner.symm.trans mine)
      subst w
      have same := leaveSameOwner s.token t f.opt
      have was := sleeps (by simp [asleep])
      refine ⟨⟨_,waiting.leave asleep⟩,fun no => absurd (same.inUse.symm.trans no) busy,fun _ => ?_⟩
      refine ⟨t,same.owner.trans owner,fun u other => ?_,fun _ => .inl ?_,fun no => ?_⟩
      · simp only [if_true,Function.update_of_ne other]
        exact others u other
      · simp [same.nesting,was.1,was.2.1]
      · simp at no
    · have out : awake s.token t f.opt r = (s.token.consume t,none) := by
        rcases normal with rfl | rfl <;> simp [awake,mine]
      rw [out] at next
      cases Option.some.inj next
      have same := consumeSame s.token t
      refine ⟨⟨l,waiting.congr same.1 (fun o => by cases o <;> rfl) rfl⟩,h.owned.idle,fun busy => ?_⟩
      obtain ⟨w,owner,others,runs,sleeps⟩ := h.owned.busy busy
      refine ⟨w,owner,others,runs,fun asleep => ?_⟩
      obtain ⟨nothing,flat,runable⟩ := sleeps asleep
      exact ⟨nothing,flat,(same.2 w).symm ▸ runable⟩
  cases r with
  | woken => exact woken (.inl rfl)
  | eintr => exact woken (.inr rfl)
  | error =>
    have free : ∀ u, s.held u = 0 := meets
    simp only [awake] at next
    cases Option.some.inj next
    exact ⟨⟨_,waiting.wakeup.leave asleep⟩,failedOwned h asleep free waiting⟩
  | etimedout =>
    have free : ∀ u, s.held u = 0 := meets
    have left := waiting.wakeup.leave asleep
    simp only [awake] at next
    cases Option.some.inj next
    by_cases chosen : ((leave (wakeupNextWaiter s.token) t f.opt).entry t).runable
    · simp only [chosen,if_true]
      have flat : (leave (wakeupNextWaiter s.token) t f.opt).nestingLevel = 0 := by
        rw [(leaveSameOwner ..).nesting,(wakeupFrame s.token).2]
        exact ownedNesting h.owned free
      exact ⟨⟨_,left.wakeup⟩,handOver left free flat⟩
    · simp only [chosen]
      exact ⟨⟨_,left⟩,failedOwned h asleep free waiting⟩

theorem releaseInv {s s' : State} {t : Thread} (h : Inv s)
    (next : step s (.release t) = some s') : Inv s' := by
  obtain ⟨l,waiting⟩ := h.waiting
  simp only [step] at next
  split at next <;> try contradiction
  rename_i holds
  cases Option.some.inj next
  obtain ⟨up,positive⟩ := holds
  obtain ⟨owner,busy⟩ := (invExclusive h).kept t positive
  obtain ⟨w,owner',others,runs,_⟩ := h.owned.busy busy
  have eq : w = t := Option.some.inj (owner'.symm.trans owner)
  subst w
  have count := runs up
  by_cases nested : s.token.nestingLevel > 0
  · simp only [release,if_pos nested]
    refine ⟨⟨l,waiting.congr rfl (fun o => by cases o <;> rfl) rfl⟩,fun no => absurd no busy,fun _ => ?_⟩
    refine ⟨t,owner,fun u other => ?_,fun _ => ?_,fun asleep => absurd up asleep⟩
    · simp only [Function.update_of_ne other]
      exact others u other
    · simp only [Function.update_self]
      omega
  · simp only [release,if_neg nested]
    have free : ∀ u, Function.update s.held t (s.held t - 1) u = 0 := by
      intro u
      by_cases same : u = t
      · subst u
        rw [Function.update_self]
        omega
      · rw [Function.update_of_ne same]; exact others u same
    exact ⟨⟨l,waiting.wakeup⟩,handOver waiting free (by omega)⟩

theorem stepInv (s : State) (a : Action) (s' : State) (h : Inv s) (meets : FailsUnheld s a)
    (next : step s a = some s') : Inv s' := by
  cases a with
  | acquire t o timed => exact acquireInv h next
  | wake t r => exact wakeInv h meets next
  | release t => exact releaseInv h next

theorem wakeupOwnerAsleep {k blocked l} (h : Waiting k blocked l) {u : Thread}
    (owner : (wakeupNextWaiter k).owner = some u) : blocked u ≠ none := by
  rcases wakeupOwner h.rep with ⟨o,v,mem,chosen,_⟩ | ⟨_,free,_⟩
  · cases Option.some.inj (chosen.symm.trans owner)
    obtain ⟨f,hf,_⟩ := (h.mem o u).mp mem
    simp [hf]
  · exact absurd (free.symm.trans owner) nofun

/- The call of wakeup_next_waiter on every failed wait passes the token to a
sleeper or to nobody, whoever holds it. -/
theorem failedTakes {s s' : State} {a : Action} (h : Inv s) (off : ¬ FailsUnheld s a)
    (next : step s a = some s') : ¬ Exclusive s' := by
  intro exclusive
  have lost : ∀ t r, a = .wake t r → (r = .etimedout ∨ r = .error) → False := by
    rintro t r rfl failed
    have held : ∃ u, s.held u ≠ 0 := by
      rcases failed with rfl | rfl <;> simpa [FailsUnheld] using off
    obtain ⟨u,hu⟩ := held
    obtain ⟨l,waiting⟩ := h.waiting
    have up : s.blocked u = none := by
      by_contra asleep
      obtain ⟨owner,busy⟩ := (invExclusive h).kept u (by omega)
      obtain ⟨w,owner',_,_,sleeps⟩ := h.owned.busy busy
      cases Option.some.inj (owner'.symm.trans owner)
      exact hu (sleeps asleep).1
    simp only [step] at next
    split at next <;> try contradiction
    rename_i f asleep
    split at next <;> try contradiction
    have left := waiting.wakeup.leave asleep
    have still : (leave (wakeupNextWaiter s.token) t f.opt).owner ≠ some u := by
      intro owner
      rw [(leaveSameOwner ..).owner] at owner
      exact wakeupOwnerAsleep waiting owner up
    have taken : s'.token.owner ≠ some u ∧ s'.held u = s.held u := by
      rcases failed with rfl | rfl
      · simp only [awake] at next
        cases Option.some.inj next
        refine ⟨?_,rfl⟩
        dsimp only
        split
        · intro owner
          have asleep' := wakeupOwnerAsleep left owner
          by_cases same : u = t
          · simp [same] at asleep'
          · exact asleep' (by rw [Function.update_of_ne same]; exact up)
        · exact still
      · simp only [awake] at next
        cases Option.some.inj next
        exact ⟨still,rfl⟩
    exact taken.1 (exclusive.kept u (by omega)).1
  cases a with
  | wake t r =>
    cases r with
    | etimedout => exact lost t _ rfl (.inl rfl)
    | error => exact lost t _ rfl (.inr rfl)
    | woken => exact off trivial
    | eintr => exact off trivial
  | acquire t o timed => exact off trivial
  | release t => exact off trivial

/- Over every interleaving the token stays with the one thread that holds it
exactly as long as no wait fails while some thread holds it. -/
theorem exclusiveIffFailsUnheld (strategy : Strategy) (actions : List Action) :
    Lib.Always step Exclusive (init strategy) actions ↔
      Lib.Along step FailsUnheld (init strategy) actions :=
  Lib.alwaysIffAlong stepInv (fun _ => invExclusive) (fun _ _ _ h off next => failedTakes h off next)
    (invInit strategy) actions

/- A holder, a waiter that times out and a third thread: both the first and the
third end up between a return of 0 and a release. -/
theorem timedOutWaiterLetsSecondIn :
    ¬ ∀ strategy actions, Lib.Always step Exclusive (init strategy) actions := by
  intro claimed
  have always := claimed .fifo [.acquire 1 .writeToken false,.acquire 2 .writeToken true,
    .wake 2 .etimedout,.acquire 3 .writeToken false]
  obtain ⟨s,ends,first,third⟩ : ∃ s, Lib.run step (init .fifo)
      [.acquire 1 .writeToken false,.acquire 2 .writeToken true,
        .wake 2 .etimedout,.acquire 3 .writeToken false] = some s ∧ s.held 1 = 1 ∧ s.held 3 = 1 :=
    ⟨_,rfl,rfl,rfl⟩
  have same := (Lib.alwaysAtEnd always ends).one 1 3 (by omega) (by omega)
  exact absurd same (by decide)

end CuteNdk.ReactorToken
