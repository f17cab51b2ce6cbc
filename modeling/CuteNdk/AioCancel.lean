import CuteNdk.AioQueue

/-! cancel_aio: the one request it takes out of the waiting structure waits no
longer and every other one still does. -/
namespace CuteNdk.AsynchFileIo
open Lib

/- The node does not wait any more, and the other waiting nodes do. -/
structure Unlinked (io io' : AsynchFileIo) (q q' : Queues) (role role' : Ptr → Role) (p : Ptr) : Prop where
  waits : Waits io' q' role'
  nodes : q.nodes.Perm (p :: q'.nodes)
  freed : role' p = .free
  apart : ∀ a, ¬ (role a).Waiting → role' a = role a
  keeps : Keeps (fun a => (role a).Waiting) io io'

/- Nothing but the request taken out is another, and no rank is. -/
structure Shrunk (io io' : AsynchFileIo) (q q' : Queues) : Prop where
  ranked : Ranked io io'
  queues : q.Shrinks q'

section Unlink
variable {io io' : AsynchFileIo} {q : Queues} {role : Ptr → Role} {p : Ptr} {h : Handle} {l₁ l₂ : List Handle}

theorem shrinksPut (around : Around io q h l₁ l₂) {top : Ptr} {sub : List Ptr}
    (shorter : (top :: sub).Sublist (q.queue h)) : q.Shrinks (q.put l₁ l₂ h top sub) := by
  intro g mem
  by_cases at_ : g = h
  · subst g
    rw [putOwn,around.split]
    exact ⟨List.mem_append_right l₁ List.mem_cons_self,shorter⟩
  · obtain ⟨inside,same⟩ := putOthers around.split mem at_
    rw [same]
    exact ⟨inside,List.Sublist.refl _⟩

theorem setSlotInPool (inPool : io.InPool h) (size : io'.fdPoolSize = io.fdPoolSize) (p : Option Ptr) :
    io'.setSlot h p = some { io' with fdPool := Function.update io'.fdPool h p } := by
  refine if_pos ?_
  unfold InPool
  rw [size]
  exact inPool

/- The last request of a descriptor. -/
theorem removeLast (w : Waits io q role) (inside : h ∈ q.order) (alone : io.header (q.top h) = none) :
    ∃ io' q', io.removeTop h (q.top h) = some io' ∧
      Unlinked io io' q q' role (Function.update role (q.top h) .free) (q.top h) ∧ Shrunk io io' q q' := by
  obtain ⟨l₁,l₂,around⟩ := aroundTop w inside
  have own := w.queues h inside
  have sub : q.sub h = [] := segNull (alone ▸ own.chain)
  have offBefore : (l₁.map q.top).getLast? ≠ some (q.top h) := fun last =>
    (around.before _ (List.mem_of_getLast? last)).2 rfl
  have result : io.removeTop h (q.top h) = some { io with
      next := relink io.next (io.prev (q.top h)) (io.next (q.top h))
      prev := relink io.prev (io.next (q.top h)) (io.prev (q.top h))
      queueList := if io.queueList = some (q.top h) then io.next (q.top h) else io.queueList
      fdPool := Function.update io.fdPool h none } := by
    have apart : relink io.next (io.prev (q.top h)) (io.next (q.top h)) (q.top h) = io.next (q.top h) := by
      rw [around.prev]
      exact relinkApart offBefore
    simp only [removeTop,alone,apart]
    refine setSlotInPool own.inPool ?_ none
    rfl
  have linked := w.linked
  have tops : q.tops = l₁.map q.top ++ q.top h :: l₂.map q.top := by simp [Queues.tops,around.split]
  have distinct := w.distinct
  have sorted := w.sorted
  rw [around.split] at distinct sorted
  rw [tops] at linked
  have dropped := dllUnlink linked
  have kept : ∀ g ∈ l₁ ++ l₂, g ∈ q.order ∧ g ≠ h := by
    intro g mem
    rw [around.split]
    rcases List.mem_append.mp mem with mem | mem
    · exact ⟨List.mem_append_left _ mem,fun same => around.off₁ (same ▸ mem)⟩
    · exact ⟨List.mem_append_right l₁ (List.mem_append_right [h] mem),fun same => around.off₂ (same ▸ mem)⟩
  have shorter : (l₁ ++ l₂).Sublist (l₁ ++ ([h] ++ l₂)) := (List.sublist_append_right [h] l₂).append_left l₁
  have others : Others io { io with
      next := relink io.next (io.prev (q.top h)) (io.next (q.top h))
      prev := relink io.prev (io.next (q.top h)) (io.prev (q.top h))
      queueList := if io.queueList = some (q.top h) then io.next (q.top h) else io.queueList
      fdPool := Function.update io.fdPool h none } q role (Function.update role (q.top h) .free) h := by
    refine ⟨rfl,fun g hg other a mem => ?_,fun _ _ _ _ _ => rfl,fun _ _ _ => rfl,fun g hg other a mem => ?_⟩
    · have far : a ≠ q.top h := fun same => other (queueApart w hg inside mem (same ▸ List.mem_cons_self))
      exact Function.update_of_ne far _ _
    · have notLast : io.prev (q.top h) ≠ some a := fun last => by
        rw [around.prev] at last
        exact subOffTops w hg mem (around.before a (List.mem_of_getLast? last)).1
      exact relinkApart notLast
  refine ⟨_,⟨l₁ ++ l₂,q.top,q.sub⟩,result,⟨⟨distinct.sublist shorter,?_,fun g mem => ?_,fun g => ?_,?_⟩,?_,
    Function.update_self _ _ _,fun a waits => ?_,?_⟩,fun _ => ⟨rfl,rfl⟩,
    fun g mem => ⟨(kept g mem).1,List.Sublist.refl _⟩⟩
  · have start : (if io.queueList = some (q.top h) then io.next (q.top h) else io.queueList) =
        if io.prev (q.top h) = none then io.next (q.top h) else io.queueList := by
      have first : io.queueList = some (q.top h) ↔ io.prev (q.top h) = none := by
        rw [(dllEnds linked).1,around.prev,List.getLast?_eq_none_iff]
        cases before : l₁.map q.top with
        | nil => simp
        | cons b l =>
          have other : b ≠ q.top h := (around.before b (before ▸ List.mem_cons_self)).2
          simp [other]
      simp only [first]
    have ends := (dllEnds dropped).2
    simp only [Queues.tops,List.map_append]
    rw [start,← ends]
    exact dropped
  · exact othersQueue w others (kept g mem).1 (kept g mem).2
  · by_cases at_ : g = h
    · subst g
      have gone : h ∉ l₁ ++ l₂ := fun mem => (kept h mem).2 rfl
      rw [if_neg gone]
      exact Function.update_self _ _ _
    · refine (Function.update_of_ne at_ _ _).trans ((w.pool g).trans ?_)
      have members : g ∈ q.order ↔ g ∈ l₁ ++ l₂ := by
        rw [around.split,List.mem_append,List.mem_append,List.mem_append,List.mem_singleton]
        simp only [at_,false_or]
      simp only [members]
  · exact sorted.sublist shorter
  · have nodes : q.nodes = l₁.flatMap q.queue ++ (q.top h :: l₂.flatMap q.queue) := by
      rw [Queues.nodes,around.split,List.flatMap_append,List.flatMap_append,List.flatMap_singleton,Queues.queue,sub]
      rfl
    rw [nodes]
    refine List.perm_middle.trans (List.Perm.cons _ ?_)
    rw [Queues.nodes,List.flatMap_append]
    exact List.Perm.refl _
  · have far : a ≠ q.top h := fun same => waits (same ▸ queueWaiting own List.mem_cons_self)
    exact Function.update_of_ne far _ _
  · refine ⟨rfl,rfl,rfl,rfl,rfl,rfl,rfl,fun a off => ?_,fun a off => ?_,fun _ _ => rfl,fun _ _ => rfl⟩
    · have notLast : io.prev (q.top h) ≠ some a := fun last => by
        rw [around.prev] at last
        exact off (topsWaiting w (around.before a (List.mem_of_getLast? last)).1)
      exact relinkApart notLast
    · have notFirst : io.next (q.top h) ≠ some a := fun first => by
        rw [around.next] at first
        exact off (topsWaiting w (around.after a (List.mem_of_mem_head? first)).1)
      exact relinkApart notFirst

/- The first request of the sub queue is the new top node. -/
theorem removePromoted (w : Waits io q role) (inside : h ∈ q.order) {first : Ptr} {rest : List Ptr}
    (sub : q.sub h = first :: rest) :
    ∃ io' q' role', io.removeTop h (q.top h) = some io' ∧ Unlinked io io' q q' role role' (q.top h) ∧
      Shrunk io io' q q' := by
  obtain ⟨l₁,l₂,around⟩ := aroundTop w inside
  have own := w.queues h inside
  have chain := own.chain
  rw [sub] at chain
  have firstSub : first ∈ q.sub h := sub ▸ List.mem_cons_self
  have firstQueue : first ∈ q.queue h := List.mem_cons_of_mem _ firstSub
  have firstWaits := queueWaiting own firstQueue
  have apart : q.top h ≠ first := fun same => topOffSub own (same ▸ firstSub)
  have topsOff : ∀ a ∈ q.tops, a ≠ first := fun a mem same => subOffTops w inside firstSub (same ▸ mem)
  have offBefore : (l₁.map q.top).getLast? ≠ some first := fun last =>
    topsOff first (around.before first (List.mem_of_getLast? last)).1 rfl
  have offAfter : (l₂.map q.top).head? ≠ some first := fun head =>
    topsOff first (around.after first (List.mem_of_mem_head? head)).1 rfl
  have topOffBefore : (l₁.map q.top).getLast? ≠ some (q.top h) := fun last =>
    (around.before _ (List.mem_of_getLast? last)).2 rfl
  have topOffAfter : (l₂.map q.top).head? ≠ some (q.top h) := fun head =>
    (around.after _ (List.mem_of_mem_head? head)).2 rfl
  have result : io.removeTop h (q.top h) = some { io with
      opt := Function.update io.opt first { io.opt first with fdPrio := (io.opt (q.top h)).fdPrio }
      fdPool := Function.update io.fdPool h (some first)
      header := Function.update io.header first (io.next first)
      next := Function.update (relink io.next (l₁.map q.top).getLast? (some first)) first (l₂.map q.top).head?
      prev := relink (Function.update io.prev first (l₁.map q.top).getLast?) (l₂.map q.top).head? (some first)
      queueList := if io.queueList = some (q.top h) then some first else io.queueList } := by
    have slot : ∀ io' : AsynchFileIo, io'.fdPoolSize = io.fdPoolSize →
        io'.setSlot h (some first) = some { io' with fdPool := Function.update io'.fdPool h (some first) } :=
      fun io' size => setSlotInPool own.inPool size (some first)
    simp only [removeTop,chain.1,slot,bind,Option.bind,around.prev,around.next,relinkApart topOffBefore]
  have subsOff : ∀ a ∈ rest, a ≠ first ∧ (l₁.map q.top).getLast? ≠ some a := by
    intro a mem
    have inSub : a ∈ q.sub h := sub ▸ List.mem_cons_of_mem first mem
    refine ⟨?_,fun last => subOffTops w inside inSub (around.before a (List.mem_of_getLast? last)).1⟩
    rintro rfl
    exact (List.nodup_cons.mp (segNodup chain)).1 mem
  have restOff : ∀ a ∈ first :: rest, a ≠ q.top h := fun a mem same => topOffSub own (sub ▸ same ▸ mem)
  have ranks := fdPrioRanked io first (io.opt (q.top h)).fdPrio
  have shorter : (first :: rest).Sublist (q.queue h) := by
    rw [Queues.queue,sub]
    exact List.sublist_cons_self _ _
  refine ⟨_,q.put l₁ l₂ h first rest,Function.update (Function.update role first (.top h)) (q.top h) .free,result,⟨?_,?_,
    Function.update_self _ _ _,fun a waits => ?_,?_⟩,ranks,shrinksPut around shorter⟩
  · refine waitsPut w around.split (fun g mem => List.mem_singleton.mp mem) around.off₁ around.off₂ ?_ rfl ?_ ?_ ?_ ?_
    · refine ⟨Function.update_self _ _ _,?_,fun a mem => ?_,fun a mem => relinkSelf mem,fun a mem other => ?_,
        fun a mem other => ?_,aroundHead w around first⟩
      · exact (relinkApart offAfter).trans (Function.update_self _ _ _)
      · have fresh := topsOff a (around.before a (List.mem_of_getLast? mem)).1
        exact (Function.update_of_ne fresh _ _).trans (relinkSelf mem)
      · have at_ := mem.elim (around.before a) (around.after a)
        exact (Function.update_of_ne (topsOff a at_.1) _ _).trans (relinkApart other)
      · have at_ := mem.elim (around.before a) (around.after a)
        exact (relinkApart other).trans (Function.update_of_ne (topsOff a at_.1) _ _)
    · refine ⟨rfl,fun g hg other a mem => ?_,fun g hg other a mem => ?_,fun g hg other => ?_,fun g hg other a mem => ?_⟩
      · have far : a ≠ q.top h := fun same => other (queueApart w hg inside mem (same ▸ List.mem_cons_self))
        have fresh : a ≠ first := fun same => other (queueApart w hg inside mem (same ▸ firstQueue))
        exact (Function.update_of_ne far _ _).trans (Function.update_of_ne fresh _ _)
      · have fresh : a ≠ first := fun same => other (queueApart w hg inside mem (same ▸ firstQueue))
        exact Function.update_of_ne fresh _ _
      · exact Function.update_of_ne (topsOff _ (List.mem_map_of_mem hg)) _ _
      · have fresh : a ≠ first := fun same =>
          other (queueApart w hg inside (List.mem_cons_of_mem _ mem) (same ▸ firstQueue))
        have notLast : (l₁.map q.top).getLast? ≠ some a := fun last =>
          subOffTops w hg mem (around.before a (List.mem_of_getLast? last)).1
        exact (Function.update_of_ne fresh _ _).trans (relinkApart notLast)
    · refine ⟨?_,?_,fun a mem => ?_,own.inPool,fun a mem => ?_,fun a mem => ?_,?_⟩
      · simp only [Function.update_self]
        refine (segCongr fun a mem => ?_).mpr chain.2
        exact (Function.update_of_ne (subsOff a mem).1 _ _).trans (relinkApart (subsOff a mem).2)
      · rw [Function.update_of_ne apart.symm]
        exact Function.update_self _ _ _
      · rw [Function.update_of_ne (restOff a (List.mem_cons_of_mem _ mem)),Function.update_of_ne (subsOff a mem).1]
        exact own.subRole a (sub ▸ List.mem_cons_of_mem first mem)
      · rcases List.mem_cons.mp mem with rfl | mem
        · simp only [Function.update_self]
          exact own.handle _ firstQueue
        · simp only [Function.update_of_ne (subsOff a mem).1]
          exact own.handle a (List.mem_cons_of_mem _ (sub ▸ List.mem_cons_of_mem first mem))
      · rcases List.mem_cons.mp mem with rfl | mem
        · simp only [Function.update_self]
          exact own.ready _ firstQueue
        · simp only [Function.update_of_ne (subsOff a mem).1]
          exact own.ready a (List.mem_cons_of_mem _ (sub ▸ List.mem_cons_of_mem first mem))
      · have prio := (List.pairwise_cons.mp own.prio).2
        rw [sub] at prio
        refine prio.imp_of_mem fun {a b} _ _ le => ?_
        simp only [ranks]
        exact le
    · intro g mem
      simp only [Function.update_self]
      exact around.higher g mem
    · intro g mem
      simp only [Function.update_self]
      exact around.lower g mem
  · obtain ⟨nodes',nodes⟩ := putNodes first rest around.split around.off₁ around.off₂
    have same : [h].flatMap q.queue = q.top h :: first :: rest := by
      rw [List.flatMap_singleton,Queues.queue,sub]
    rw [same] at nodes
    exact nodes.trans (nodes'.symm.cons (q.top h))
  · have far : a ≠ q.top h := fun same => waits (same ▸ queueWaiting own List.mem_cons_self)
    have fresh : a ≠ first := fun same => waits (same ▸ firstWaits)
    exact (Function.update_of_ne far _ _).trans (Function.update_of_ne fresh _ _)
  · have fresh : ∀ a, ¬(role a).Waiting → a ≠ first := fun a off same => off (same ▸ firstWaits)
    refine ⟨rfl,rfl,rfl,rfl,rfl,rfl,rfl,fun a off => ?_,fun a off => ?_,fun a off => ?_,fun a off => ?_⟩
    · have notLast : (l₁.map q.top).getLast? ≠ some a := fun last =>
        off (topsWaiting w (around.before a (List.mem_of_getLast? last)).1)
      exact (Function.update_of_ne (fresh a off) _ _).trans (relinkApart notLast)
    · have notFirst : (l₂.map q.top).head? ≠ some a := fun head =>
        off (topsWaiting w (around.after a (List.mem_of_mem_head? head)).1)
      exact (relinkApart notFirst).trans (Function.update_of_ne (fresh a off) _ _)
    · exact Function.update_of_ne (fresh a off) _ _
    · exact Function.update_of_ne (fresh a off) _ _

variable (io') in
/- A node of the sub queue. -/
theorem unlinkedSub (w : Waits io q role) (inside : h ∈ q.order) {s₁ s₂ : List Ptr} (split : q.sub h = s₁ ++ p :: s₂)
    (chain : Seg io'.next (io'.header (q.top h)) (s₁ ++ s₂) none) (keeps : Keeps (fun a => a ∈ q.queue h) io io')
    (queueList : io'.queueList = io.queueList) (fdPool : io'.fdPool = io.fdPool) (opt : io'.opt = io.opt)
    (prev : io'.prev = io.prev) (next : io'.next (q.top h) = io.next (q.top h)) :
    ∃ q', Unlinked io io' q q' role (Function.update role p .free) p ∧ Shrunk io io' q q' := by
  obtain ⟨l₁,l₂,around⟩ := aroundTop w inside
  have own := w.queues h inside
  have pSub : p ∈ q.sub h := split ▸ List.mem_append_right s₁ List.mem_cons_self
  have pQueue : p ∈ q.queue h := List.mem_cons_of_mem _ pSub
  have subs : ∀ a ∈ s₁ ++ s₂, a ∈ q.sub h ∧ a ≠ p := by
    intro a mem
    have nodup := segNodup own.chain
    rw [split] at nodup
    have moved := List.nodup_cons.mp (List.perm_middle.nodup_iff.mp nodup)
    refine ⟨?_,fun same => moved.1 (same ▸ mem)⟩
    rw [split]
    rcases List.mem_append.mp mem with mem | mem
    · exact List.mem_append_left _ mem
    · exact List.mem_append_right s₁ (List.mem_cons_of_mem p mem)
  have topOff : q.top h ≠ p := fun same => topOffSub own (same ▸ pSub)
  have kept : ∀ a ∈ q.top h :: (s₁ ++ s₂), a ∈ q.queue h ∧ a ≠ p := by
    intro a mem
    rcases List.mem_cons.mp mem with rfl | mem
    · exact ⟨List.mem_cons_self,topOff⟩
    · exact ⟨List.mem_cons_of_mem _ (subs a mem).1,(subs a mem).2⟩
  have notTouched : ∀ g ∈ q.order, g ≠ h → ∀ a ∈ q.queue g, a ∉ q.queue h := fun g hg other a mem mem' =>
    other (queueApart w hg inside mem mem')
  have shorter : (s₁ ++ s₂).Sublist (s₁ ++ p :: s₂) := (List.sublist_cons_self p s₂).append_left s₁
  have fewer : (q.top h :: (s₁ ++ s₂)).Sublist (q.queue h) := by
    rw [Queues.queue,split]
    exact shorter.cons_cons (q.top h)
  refine ⟨q.put l₁ l₂ h (q.top h) (s₁ ++ s₂),⟨?_,?_,Function.update_self _ _ _,fun a waits => ?_,?_⟩,
    fun a => ?_,shrinksPut around fewer⟩
  · refine waitsSub w around queueList fdPool (fun a mem => ?_) (fun a _ => congrFun prev a) (congrFun opt _) ?_ ?_
    · by_cases same : a = q.top h
      · rw [same]
        exact next
      · refine keeps.next a fun mem' => ?_
        rcases List.mem_cons.mp mem' with at_ | mem'
        · exact same at_
        · exact subOffTops w inside mem' mem
    · refine ⟨keeps.fdPoolSize,fun g hg other a mem => ?_,fun _ _ _ a _ => congrFun opt a,fun g hg other => ?_,
        fun g hg other a mem => ?_⟩
      · have far : a ≠ p := fun same => notTouched g hg other a mem (same ▸ pQueue)
        exact Function.update_of_ne far _ _
      · exact keeps.header _ (notTouched g hg other _ List.mem_cons_self)
      · exact keeps.next a (notTouched g hg other a (List.mem_cons_of_mem _ mem))
    · refine ⟨chain,?_,fun a mem => ?_,?_,fun a mem => ?_,fun a mem => ?_,?_⟩
      · rw [Function.update_of_ne topOff]
        exact own.topRole
      · rw [Function.update_of_ne (subs a mem).2]
        exact own.subRole a (subs a mem).1
      · unfold InPool
        rw [keeps.fdPoolSize]
        exact own.inPool
      · rw [opt]
        exact own.handle a (kept a mem).1
      · rw [opt]
        exact own.ready a (kept a mem).1
      · have prio := own.prio
        rw [split] at prio
        rw [opt]
        exact prio.sublist (shorter.cons_cons (q.top h))
  · obtain ⟨nodes',nodes⟩ := putNodes (q.top h) (s₁ ++ s₂) around.split around.off₁ around.off₂
    have same : [h].flatMap q.queue = q.top h :: (s₁ ++ p :: s₂) := by
      rw [List.flatMap_singleton,Queues.queue,split]
    rw [same] at nodes
    have moved : (q.top h :: (s₁ ++ p :: s₂)).Perm (p :: q.top h :: (s₁ ++ s₂)) :=
      (List.perm_middle.cons (q.top h)).trans (List.Perm.swap _ _ _)
    exact nodes.trans ((moved.append_right _).trans (nodes'.symm.cons p))
  · have far : a ≠ p := fun same => waits (same ▸ queueWaiting own pQueue)
    exact Function.update_of_ne far _ _
  · have inTouched : ∀ a, ¬(role a).Waiting → a ∉ q.queue h := fun a off mem => off (queueWaiting own mem)
    exact ⟨keeps.fdPoolSize,keeps.freeList,keeps.runningList,keeps.runningListTail,keeps.freeRunningList,keeps.made,
      keeps.ptr,fun a off => keeps.next a (inTouched a off),fun a off => keeps.prev a (inTouched a off),
      fun a off => keeps.header a (inTouched a off),fun a off => keeps.opt a (inTouched a off)⟩
  · rw [opt]
    exact ⟨rfl,rfl⟩

theorem removeTopUnlinks (w : Waits io q role) (inside : h ∈ q.order) :
    ∃ io' q' role', io.removeTop h (q.top h) = some io' ∧ Unlinked io io' q q' role role' (q.top h) ∧
      Shrunk io io' q q' := by
  have chain := (w.queues h inside).chain
  cases sub : q.sub h with
  | nil =>
    rw [sub] at chain
    obtain ⟨io',q',runs,unlinked⟩ := removeLast w inside chain
    exact ⟨io',q',_,runs,unlinked⟩
  | cons first rest => exact removePromoted w inside sub

/- The first node of a sub queue. -/
theorem headUnlinks (w : Waits io q role) (inside : h ∈ q.order) {first : Ptr}
    (head : io.header (q.top h) = some first) :
    ∃ q', Unlinked io { io with header := Function.update io.header (q.top h) (io.next first) } q q' role
      (Function.update role first .free) first ∧
      Shrunk io { io with header := Function.update io.header (q.top h) (io.next first) } q q' := by
  have own := w.queues h inside
  obtain ⟨rest,sub⟩ := List.head?_eq_some_iff.1 ((segHead own.chain).symm.trans head)
  have chain := own.chain
  have split : q.sub h = [] ++ first :: rest := sub
  rw [sub] at chain
  refine unlinkedSub _ w inside split ?_ ⟨rfl,rfl,rfl,rfl,rfl,rfl,rfl,fun _ _ => rfl,fun _ _ => rfl,fun a off => ?_,
    fun _ _ => rfl⟩ rfl rfl rfl rfl rfl
  · simp only [Function.update_self,List.nil_append]
    exact chain.2
  · have far : a ≠ q.top h := fun same => off (same ▸ List.mem_cons_self)
    exact Function.update_of_ne far _ _

/- A later one, behind itor. -/
theorem laterUnlinks (w : Waits io q role) (inside : h ∈ q.order) {s₁ s₂ : List Ptr} {itor item : Ptr}
    (split : q.sub h = s₁ ++ item :: s₂) (last : s₁.getLast? = some itor) :
    ∃ q', Unlinked io { io with next := Function.update io.next itor (io.next item) } q q' role
      (Function.update role item .free) item ∧
      Shrunk io { io with next := Function.update io.next itor (io.next item) } q q' := by
  have own := w.queues h inside
  have chain := own.chain
  obtain ⟨front,at_⟩ := List.getLast?_eq_some_iff.1 last
  have itorSub : itor ∈ q.sub h := by
    rw [split]
    exact List.mem_append_left _ (List.mem_of_getLast? last)
  rw [split] at chain
  refine unlinkedSub _ w inside split ?_ ⟨rfl,rfl,rfl,rfl,rfl,rfl,rfl,fun a off => ?_,fun _ _ => rfl,fun _ _ => rfl,
    fun _ _ => rfl⟩ rfl rfl rfl rfl ?_
  · have unlinked := segUnlink chain
    rw [last,if_neg (by rw [at_]; simp)] at unlinked
    exact unlinked
  · have far : a ≠ itor := fun same => off (same ▸ List.mem_cons_of_mem _ itorSub)
    exact Function.update_of_ne far _ _
  · have far : q.top h ≠ itor := fun same => topOffSub own (same ▸ itorSub)
    exact Function.update_of_ne far _ _

/- cancel_aio always gets through the descriptor's queue, and takes a request of that id
out if there is one in it. -/
theorem removeWaitingUnlinks (w : Waits io q role) (made : Made io role) (inPool : io.InPool h) (id : Int) :
    (io.removeWaiting h id = some (none,io) ∧ (h ∈ q.order → ∀ a ∈ q.queue h, (io.opt a).id ≠ id)) ∨
      ∃ p io' q' role', io.removeWaiting h id = some (some p,io'.freeAioOpt p) ∧ (io.opt p).id = id ∧
        Unlinked io io' q q' role role' p ∧ Shrunk io io' q q' := by
  unfold removeWaiting
  rw [if_neg (not_not.2 inPool)]
  cases slot : io.fdPool h with
  | none =>
    refine .inl ⟨rfl,fun inside => ?_⟩
    rw [w.pool,if_pos inside] at slot
    exact absurd slot (Option.some_ne_none _)
  | some topNode =>
    have inside : h ∈ q.order := by
      by_contra absent
      rw [w.pool,if_neg absent] at slot
      cases slot
    have top : topNode = q.top h := by
      rw [w.pool,if_pos inside] at slot
      exact (Option.some.inj slot).symm
    subst top
    have own := w.queues h inside
    by_cases itself : (io.opt (q.top h)).id = id
    · obtain ⟨io',q',role',runs,unlinked⟩ := removeTopUnlinks w inside
      simp only [if_pos itself,runs,bind,Option.bind]
      exact .inr ⟨q.top h,io',q',role',rfl,itself,unlinked⟩
    · simp only [if_neg itself]
      cases head : io.header (q.top h) with
      | none =>
        have alone : q.sub h = [] := segNull (head ▸ own.chain)
        refine .inl ⟨rfl,fun _ a mem => ?_⟩
        rw [Queues.queue,alone] at mem
        rw [List.mem_singleton.1 mem]
        exact itself
      | some first =>
        by_cases hit : (io.opt first).id = id
        · obtain ⟨q',unlinked⟩ := headUnlinks w inside head
          simp only [if_pos hit]
          exact .inr ⟨first,_,q',_,rfl,hit,unlinked⟩
        · simp only [if_neg hit]
          obtain ⟨rest,sub⟩ := List.head?_eq_some_iff.1 ((segHead own.chain).symm.trans head)
          have chain := own.chain
          have short : rest.length < io.made := by
            have len := lengthMade made (queueNodup own) fun a mem => notFresh (queueWaiting own mem)
            rw [sub,List.length_cons] at len
            exact Nat.lt_of_succ_lt len
          rw [sub] at chain
          obtain ⟨m₁,m₂,split,others,stop,found⟩ := advanceStops (io.otherId id) chain.2 short
          obtain ⟨itor,last⟩ : ∃ z, (first :: m₁).getLast? = some z :=
            ⟨_,List.getLast?_eq_some_getLast (List.cons_ne_nil _ _)⟩
          rw [last] at found
          have parts : first :: rest = (first :: m₁) ++ m₂ := by
            rw [split]
            rfl
          have follows : io.next itor = m₂.head? := by
            obtain ⟨front,at_⟩ := List.getLast?_eq_some_iff.1 last
            rw [parts,at_,List.append_assoc] at chain
            obtain ⟨m,-,later⟩ := segAppend.mp chain
            exact segHead later.2
          simp only [found,bind,Option.bind,follows]
          cases m₂ with
          | nil =>
            refine .inl ⟨rfl,fun _ a mem => ?_⟩
            rw [Queues.queue,sub,parts,List.append_nil] at mem
            rcases List.mem_cons.1 mem with rfl | mem
            · exact itself
            · rcases List.mem_cons.1 mem with rfl | mem
              · exact hit
              · exact of_decide_eq_true (others a mem)
          | cons item s₂ =>
            obtain ⟨q',unlinked⟩ := laterUnlinks w inside (sub.trans parts) last
            have same : (io.opt item).id = id := not_not.1 (of_decide_eq_false (stop item rfl))
            exact .inr ⟨item,_,q',_,rfl,same,unlinked⟩

end Unlink

end CuteNdk.AsynchFileIo
