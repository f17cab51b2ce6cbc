import CuteNdk.AioQueue

/-! start_aio: wherever the node of a new request is put, it waits from then on and
so does every other waiting node. -/
namespace CuteNdk.AsynchFileIo
open Lib

/- A node start_aio has filled in and not linked yet. -/
structure Filled (io : AsynchFileIo) (role : Ptr → Role) (p : Ptr) (h : Handle) : Prop where
  role : role p = .starting
  next : io.next p = none
  prev : io.prev p = none
  header : io.header p = none
  handle : (io.opt p).handle = h
  ready : (io.opt p).Ready
  inPool : io.InPool h

/- The node waits, and what waited before still does. -/
structure Linked (io io' : AsynchFileIo) (q q' : Queues) (role role' : Ptr → Role) (p : Ptr) : Prop where
  waits : Waits io' q' role'
  nodes : q'.nodes.Perm (p :: q.nodes)
  apart : ∀ a, a ≠ p → ¬ (role a).Waiting → role' a = role a
  keeps : Keeps (fun a => a = p ∨ (role a).Waiting) io io'

/- The requests of a descriptor without the node and with it: the place start_aio
finds for it. -/
inductive Joined (io : AsynchFileIo) (p : Ptr) : List Ptr → List Ptr → Prop where
  | alone : Joined io p [] [p]
  | ahead {top sub} (higher : (io.opt top).ioPrio < (io.opt p).ioPrio) : Joined io p (top :: sub) (p :: top :: sub)
  | front {top sub} (low : (io.opt p).ioPrio ≤ (io.opt top).ioPrio)
      (higher : ∀ first ∈ sub.head?, (io.opt first).ioPrio < (io.opt p).ioPrio) :
      Joined io p (top :: sub) (top :: p :: sub)
  | later {top first s₁ s₂} (low : (io.opt p).ioPrio ≤ (io.opt top).ioPrio)
      (behind : (io.opt p).ioPrio ≤ (io.opt first).ioPrio) (passed : ∀ b ∈ s₁, io.keepsPrio p b = true)
      (stops : ∀ b ∈ s₂.head?, io.keepsPrio p b = false) :
      Joined io p (top :: first :: (s₁ ++ s₂)) (top :: first :: (s₁ ++ p :: s₂))

structure JoinedAt (io io' : AsynchFileIo) (q q' : Queues) (p : Ptr) (h : Handle) : Prop where
  ranked : Ranked io io'
  inside : h ∈ q'.order
  own : Joined io p (if h ∈ q.order then q.queue h else []) (q'.queue h)
  others : ∀ g ∈ q'.order, g ≠ h → g ∈ q.order ∧ q'.queue g = q.queue g

section Link
variable {io io' : AsynchFileIo} {q : Queues} {role : Ptr → Role} {p : Ptr} {h : Handle} {l₁ l₂ : List Handle}

theorem filledOff (f : Filled io role p h) {a : Ptr} (waiting : (role a).Waiting) : a ≠ p := by
  rintro rfl
  rw [f.role] at waiting
  exact waiting

theorem absentPool (w : Waits io q role) (null : io.fdPool h = none) : h ∉ q.order := by
  intro inside
  rw [w.pool,if_pos inside] at null
  cases null

/- A first request of a descriptor. -/
theorem linkedBetween (w : Waits io q role) (f : Filled io role p h) (absent : h ∉ q.order)
    (split : q.order = l₁ ++ l₂) (put : Put io io' (l₁.map q.top) (l₂.map q.top) p)
    (keeps : Keeps (fun a => a = p ∨ a ∈ q.tops) io io') (opt : io'.opt = io.opt) (header : io'.header = io.header)
    (pool : io'.fdPool = Function.update io.fdPool h (some p))
    (before : ∀ g ∈ l₁, (io.opt p).fdPrio ≤ (io.opt (q.top g)).fdPrio)
    (after : ∀ g ∈ l₂, (io.opt (q.top g)).fdPrio ≤ (io.opt p).fdPrio) :
    Linked io io' q (q.put l₁ l₂ h p []) role (Function.update role p (.top h)) p := by
  rw [split,List.mem_append,not_or] at absent
  obtain ⟨off₁,off₂⟩ := absent
  have split' : q.order = l₁ ++ ([] ++ l₂) := split
  have others : Others io io' q role (Function.update role p (.top h)) h := by
    refine ⟨keeps.fdPoolSize,fun g hg _ a mem => ?_,fun _ _ _ a _ => congrFun opt a,fun g _ _ => congrFun header _,
      fun g hg _ a mem => keeps.next a ?_⟩
    · exact Function.update_of_ne (filledOff f (queueWaiting (w.queues g hg) mem)) _ _
    · have own := w.queues g hg
      rintro (rfl | mem')
      · exact filledOff f (queueWaiting own (List.mem_cons_of_mem _ mem)) rfl
      · obtain ⟨k,hk,rfl⟩ := List.mem_map.mp mem'
        have role_ := own.subRole _ mem
        rw [(w.queues k hk).topRole] at role_
        cases role_
  have queue : Queue io' (Function.update role p (.top h)) h p [] := by
    refine ⟨?_,Function.update_self _ _ _,nofun,?_,fun a mem => ?_,fun a mem => ?_,List.pairwise_singleton _ _⟩
    · rw [header]
      exact f.header
    · unfold InPool
      rw [keeps.fdPoolSize]
      exact f.inPool
    · rw [List.mem_singleton.mp mem,opt]
      exact f.handle
    · rw [List.mem_singleton.mp mem,opt]
      exact f.ready
  obtain ⟨nodes',nodes⟩ := putNodes p [] split' off₁ off₂
  refine ⟨waitsPut w split' nofun off₁ off₂ put pool others queue (by rwa [opt]) (by rwa [opt]),?_,?_,?_⟩
  · exact nodes'.trans (nodes.symm.cons p)
  · exact fun a other _ => Function.update_of_ne other _ _
  · have inTouched : ∀ a, ¬(a = p ∨ (role a).Waiting) → ¬(a = p ∨ a ∈ q.tops) := fun a off both =>
      off (both.imp_right (topsWaiting w))
    exact ⟨keeps.fdPoolSize,keeps.freeList,keeps.runningList,keeps.runningListTail,keeps.freeRunningList,keeps.made,
      keeps.ptr,fun a off => keeps.next a (inTouched a off),fun a off => keeps.prev a (inTouched a off),
      fun a off => keeps.header a (inTouched a off),fun a off => keeps.opt a (inTouched a off)⟩

/- The loop of start_aio stops behind the last top node that goes first. -/
theorem orderSplit (w : Waits io q role) (made : Made io role) {first : Ptr} (head : io.queueList = some first)
    (low : (io.opt p).fdPrio ≤ (io.opt first).fdPrio) :
    ∃ l₁ l₂ z, q.order = l₁ ++ l₂ ∧ (l₁.map q.top).getLast? = some z ∧
      advance io.next (io.keepsOrder p) io.made first = some z ∧
      (∀ g ∈ l₁, (io.opt p).fdPrio ≤ (io.opt (q.top g)).fdPrio) ∧
      ∀ g ∈ l₂, (io.opt (q.top g)).fdPrio ≤ (io.opt p).fdPrio := by
  obtain ⟨rest,tops⟩ := List.head?_eq_some_iff.1 ((topsHead w).symm.trans head)
  have forth := w.linked.forth
  rw [tops] at forth
  have short : rest.length < io.made := by
    have len := lengthMade made (topsNodup w) fun a mem => notFresh (topsWaiting w mem)
    rw [tops] at len
    exact len
  obtain ⟨m₁,m₂,split,along,stop,found⟩ := advanceStops (io.keepsOrder p) forth.2 short
  have parts : q.order.map q.top = (first :: m₁) ++ m₂ := by
    rw [List.cons_append,← split]
    exact tops
  obtain ⟨l₁,l₂,order,front,back⟩ := List.map_eq_append_iff.mp parts
  obtain ⟨z,last⟩ : ∃ z, (first :: m₁).getLast? = some z := ⟨_,List.getLast?_eq_some_getLast (List.cons_ne_nil _ _)⟩
  refine ⟨l₁,l₂,z,order,by rw [front,last],by rw [found,last],fun g mem => ?_,fun g mem => ?_⟩
  · have at_ : q.top g ∈ first :: m₁ := front ▸ List.mem_map_of_mem mem
    rcases List.mem_cons.mp at_ with same | at_
    · rw [same]
      exact low
    · exact of_decide_eq_true (along _ at_)
  · have sorted := w.sorted
    rw [order] at sorted
    have later := (List.pairwise_append.mp sorted).2.1
    cases l₂ with
    | nil => cases mem
    | cons k l₂ =>
      have high : (io.opt (q.top k)).fdPrio ≤ (io.opt p).fdPrio := by
        have no := stop (q.top k) (by rw [← back]; rfl)
        exact Int.le_of_lt (Int.not_le.mp (of_decide_eq_false no))
      rcases List.mem_cons.mp mem with rfl | mem
      · exact high
      · exact Int.le_trans ((List.pairwise_cons.mp later).1 g mem) high

theorem joinedAlone (absent : h ∉ q.order) (split : q.order = l₁ ++ l₂) (opt : io'.opt = io.opt) :
    JoinedAt io io' q (q.put l₁ l₂ h p []) p h where
  ranked a := by
    rw [opt]
    exact ⟨rfl,rfl⟩
  inside := List.mem_append_right l₁ List.mem_cons_self
  own := by
    rw [if_neg absent,putOwn]
    exact .alone
  others g mem other := putOthers (m := []) split mem other

theorem joinedPut (around : Around io q h l₁ l₂) {top : Ptr} {sub : List Ptr} (ranked : Ranked io io')
    (joins : Joined io p (q.queue h) (top :: sub)) : JoinedAt io io' q (q.put l₁ l₂ h top sub) p h where
  ranked := ranked
  inside := List.mem_append_right l₁ List.mem_cons_self
  own := by
    have inside : h ∈ q.order := by
      rw [around.split]
      exact List.mem_append_right l₁ List.mem_cons_self
    rw [if_pos inside,putOwn]
    exact joins
  others g mem other := putOthers around.split mem other

theorem linkTopLinks (w : Waits io q role) (made : Made io role) (f : Filled io role p h)
    (null : io.fdPool h = none) :
    ∃ io' q', (io.setSlot h (some p)).bind (fun io => io.linkTop p) = some io' ∧
      Linked io io' q q' role (Function.update role p (.top h)) p ∧ JoinedAt io io' q q' p h := by
  have absent := absentPool w null
  have topsOff : ∀ a ∈ q.tops, a ≠ p := fun a mem => filledOff f (topsWaiting w mem)
  have slot : io.setSlot h (some p) = some { io with fdPool := Function.update io.fdPool h (some p) } := if_pos f.inPool
  rw [slot,Option.bind_some]
  unfold linkTop
  cases head : io.queueList with
  | none =>
    have empty : q.order = [] := List.map_eq_nil_iff.mp (List.head?_eq_none_iff.mp ((topsHead w).symm.trans head))
    have split : q.order = [] ++ [] := empty
    refine ⟨_,_,rfl,linkedBetween w f absent split ?_ ?_ rfl rfl rfl nofun nofun,joinedAlone absent split rfl⟩
    · exact ⟨f.next,f.prev,nofun,nofun,fun _ _ _ => rfl,fun _ _ _ => rfl,rfl⟩
    · exact ⟨rfl,rfl,rfl,rfl,rfl,rfl,rfl,fun _ _ => rfl,fun _ _ => rfl,fun _ _ => rfl,fun _ _ => rfl⟩
  | some first =>
    have firstTop : first ∈ q.tops := List.mem_of_mem_head? ((topsHead w).symm.trans head)
    by_cases high : (io.opt first).fdPrio < (io.opt p).fdPrio
    · simp only [if_pos high]
      have split : q.order = [] ++ q.order := rfl
      refine ⟨_,_,rfl,linkedBetween w f absent split ?_ ?_ rfl rfl rfl nofun fun g mem => ?_,
        joinedAlone absent split rfl⟩
      · refine ⟨?_,Function.update_self _ _ _,nofun,fun a mem => ?_,fun a mem _ => ?_,fun a mem other => ?_,rfl⟩
        · exact (Function.update_self _ _ _).trans (head.symm.trans (topsHead w))
        · have same : a = first := Option.some.inj ((show q.tops.head? = some a from mem).symm.trans
            ((topsHead w).symm.trans head))
          rw [same]
          exact (Function.update_of_ne (topsOff first firstTop) _ _).trans (Function.update_self _ _ _)
        · have at_ : a ∈ q.tops := mem.resolve_left List.not_mem_nil
          exact Function.update_of_ne (topsOff a at_) _ _
        · have at_ : a ∈ q.tops := mem.resolve_left List.not_mem_nil
          have apart : a ≠ first := by
            rintro rfl
            exact other ((topsHead w).symm.trans head)
          exact (Function.update_of_ne (topsOff a at_) _ _).trans (Function.update_of_ne apart _ _)
      · refine ⟨rfl,rfl,rfl,rfl,rfl,rfl,rfl,fun a off => ?_,fun a off => ?_,fun _ _ => rfl,fun _ _ => rfl⟩
        · exact Function.update_of_ne (fun same => off (.inl same)) _ _
        · have apart : a ≠ first := fun same => off (.inr (same ▸ firstTop))
          exact (Function.update_of_ne (fun same => off (.inl same)) _ _).trans (Function.update_of_ne apart _ _)
      · obtain ⟨rest,tops⟩ := List.head?_eq_some_iff.1 ((topsHead w).symm.trans head)
        obtain ⟨k,l,order,rfl,-⟩ := List.map_eq_cons_iff.mp tops
        have sorted := w.sorted
        rw [order] at sorted mem
        rcases List.mem_cons.mp mem with rfl | mem
        · exact Int.le_of_lt high
        · exact Int.le_trans ((List.pairwise_cons.mp sorted).1 g mem) (Int.le_of_lt high)
    · simp only [if_neg high]
      obtain ⟨l₁,l₂,z,split,last,found,before,after⟩ := orderSplit w made head (Int.not_lt.mp high)
      have zTop : z ∈ q.tops := by
        rw [Queues.tops,split,List.map_append]
        exact List.mem_append_left _ (List.mem_of_getLast? last)
      have apart := topsOff z zTop
      have follows : io.next z = (l₂.map q.top).head? := by
        obtain ⟨front,at_⟩ := List.getLast?_eq_some_iff.1 last
        have linked := w.linked
        rw [Queues.tops,split,List.map_append,at_,List.append_assoc] at linked
        exact (dllNeighbours linked).1
      have behind : ∀ a ∈ l₂.map q.top, a ∈ q.tops := fun a mem => by
        rw [Queues.tops,split,List.map_append]
        exact List.mem_append_right _ mem
      have inFront : ∀ a ∈ l₁.map q.top, a ∈ q.tops := fun a mem => by
        rw [Queues.tops,split,List.map_append]
        exact List.mem_append_left _ mem
      have step : ∀ x, (Function.update io.next p x) z = (l₂.map q.top).head? := fun x =>
        (Function.update_of_ne apart _ _).trans follows
      have loop : advance io.next
          (keepsOrder { io with fdPool := Function.update io.fdPool h (some p), queueList := some first } p)
          io.made first = some z := found
      simp only [loop,bind,Option.bind]
      refine ⟨_,_,rfl,linkedBetween w f absent split ?_ ?_ rfl rfl rfl before after,joinedAlone absent split rfl⟩
      · refine ⟨?_,?_,fun a mem => ?_,fun a mem => ?_,fun a mem other => ?_,fun a mem other => ?_,?_⟩
        · exact (Function.update_of_ne apart.symm _ _).trans ((Function.update_self _ _ _).trans follows)
        · simp only [step]
          have fresh : (l₂.map q.top).head? ≠ some p := fun mem => topsOff p (behind p (List.mem_of_mem_head? mem)) rfl
          exact (relinkApart fresh).trans ((Function.update_self _ _ _).trans last.symm)
        · cases Option.some.inj (last.symm.trans mem)
          exact Function.update_self _ _ _
        · simp only [step]
          exact relinkSelf mem
        · have at_ : a ∈ q.tops := mem.elim (inFront a) (behind a)
          have far : a ≠ z := by
            rintro rfl
            exact other last
          exact (Function.update_of_ne far _ _).trans (Function.update_of_ne (topsOff a at_) _ _)
        · have at_ : a ∈ q.tops := mem.elim (inFront a) (behind a)
          simp only [step]
          exact (relinkApart other).trans (Function.update_of_ne (topsOff a at_) _ _)
        · have nonempty : l₁.map q.top ≠ [] := fun nil => by
            rw [nil] at last
            cases last
          change some first = _
          rw [← head,topsHead w,Queues.tops,split,List.map_append,List.head?_append_of_ne_nil _ nonempty,
            List.head?_append_of_ne_nil _ nonempty]
      · refine ⟨rfl,rfl,rfl,rfl,rfl,rfl,rfl,fun a off => ?_,fun a off => ?_,fun _ _ => rfl,fun _ _ => rfl⟩
        · have far : a ≠ z := fun same => off (.inr (same ▸ zTop))
          exact (Function.update_of_ne far _ _).trans (Function.update_of_ne (fun same => off (.inl same)) _ _)
        · have fresh : a ≠ p := fun same => off (.inl same)
          simp only [step]
          have far : (l₂.map q.top).head? ≠ some a := fun mem => off (.inr (behind a (List.mem_of_mem_head? mem)))
          exact (relinkApart far).trans (Function.update_of_ne fresh _ _)

/- A request of a higher priority takes the top node's place in queue_list_ and is
followed by it in the sub queue. -/
theorem replaceTopLinks (w : Waits io q role) (f : Filled io role p h) (inside : h ∈ q.order)
    (higher : (io.opt (q.top h)).ioPrio < (io.opt p).ioPrio) :
    ∃ io' q' role', io.replaceTop h p (q.top h) = some io' ∧ Linked io io' q q' role role' p ∧
      JoinedAt io io' q q' p h := by
  obtain ⟨l₁,l₂,around⟩ := aroundTop w inside
  have own := w.queues h inside
  have topWaits : (role (q.top h)).Waiting := queueWaiting own List.mem_cons_self
  have apart : q.top h ≠ p := filledOff f topWaits
  have topsOff : ∀ a ∈ q.tops, a ≠ p := fun a mem => filledOff f (topsWaiting w mem)
  have offBefore : (l₁.map q.top).getLast? ≠ some p := fun last =>
    topsOff p (around.before p (List.mem_of_getLast? last)).1 rfl
  have offAfter : (l₂.map q.top).head? ≠ some p := fun first =>
    topsOff p (around.after p (List.mem_of_mem_head? first)).1 rfl
  have topOffBefore : (l₁.map q.top).getLast? ≠ some (q.top h) := fun last =>
    (around.before _ (List.mem_of_getLast? last)).2 rfl
  have topOffAfter : (l₂.map q.top).head? ≠ some (q.top h) := fun first =>
    (around.after _ (List.mem_of_mem_head? first)).2 rfl
  have result : io.replaceTop h p (q.top h) = some { io with
      opt := Function.update io.opt p { io.opt p with fdPrio := (io.opt (q.top h)).fdPrio }
      fdPool := Function.update io.fdPool h (some p)
      queueList := if io.queueList = some (q.top h) then some p else io.queueList
      next := Function.update (relink (Function.update io.next p (l₂.map q.top).head?)
        (l₁.map q.top).getLast? (some p)) (q.top h) (io.header (q.top h))
      prev := Function.update (relink io.prev (l₂.map q.top).head? (some p)) p (l₁.map q.top).getLast?
      header := Function.update (Function.update io.header p (some (q.top h))) (q.top h) none } := by
    have slot : ∀ io' : AsynchFileIo, io'.fdPoolSize = io.fdPoolSize →
        io'.setSlot h (some p) = some { io' with fdPool := Function.update io'.fdPool h (some p) } := by
      intro io' size
      refine if_pos ?_
      unfold InPool
      rw [size]
      exact f.inPool
    simp only [replaceTop,slot,bind,Option.bind,Function.update_of_ne apart,around.next,relinkApart topOffAfter,
      around.prev]
  refine ⟨_,q.put l₁ l₂ h p (q.top h :: q.sub h),Function.update (Function.update role (q.top h) (.sub h)) p (.top h),
    result,⟨?_,?_,fun a other waits => ?_,?_⟩,joinedPut around (fdPrioRanked io p _) (.ahead higher)⟩
  · refine waitsPut w around.split (fun g mem => List.mem_singleton.mp mem) around.off₁ around.off₂ ?_ rfl ?_ ?_ ?_ ?_
    · refine ⟨?_,Function.update_self _ _ _,fun a mem => ?_,fun a mem => ?_,fun a mem other => ?_,fun a mem other => ?_,
        aroundHead w around p⟩
      · refine (Function.update_of_ne apart.symm _ _).trans ((relinkApart offBefore).trans ?_)
        exact Function.update_self _ _ _
      · have far := (around.before a (List.mem_of_getLast? mem)).2
        exact (Function.update_of_ne far _ _).trans (relinkSelf mem)
      · have fresh := topsOff a (around.after a (List.mem_of_mem_head? mem)).1
        exact (Function.update_of_ne fresh _ _).trans (relinkSelf mem)
      · have at_ := mem.elim (around.before a) (around.after a)
        refine (Function.update_of_ne at_.2 _ _).trans ((relinkApart other).trans ?_)
        exact Function.update_of_ne (topsOff a at_.1) _ _
      · have at_ := mem.elim (around.before a) (around.after a)
        exact (Function.update_of_ne (topsOff a at_.1) _ _).trans (relinkApart other)
    · refine ⟨rfl,fun g hg other a mem => ?_,fun g hg other a mem => ?_,fun g hg other => ?_,fun g hg other a mem => ?_⟩
      · have fresh := filledOff f (queueWaiting (w.queues g hg) mem)
        have far : a ≠ q.top h := fun same => other (queueApart w hg inside mem (same ▸ List.mem_cons_self))
        exact (Function.update_of_ne fresh _ _).trans (Function.update_of_ne far _ _)
      · exact Function.update_of_ne (filledOff f (queueWaiting (w.queues g hg) mem)) _ _
      · have waits := queueWaiting (w.queues g hg) List.mem_cons_self
        have far : q.top g ≠ q.top h := fun same =>
          other (queueApart w hg inside List.mem_cons_self (same ▸ List.mem_cons_self))
        exact (Function.update_of_ne far _ _).trans (Function.update_of_ne (filledOff f waits) _ _)
      · have queued : a ∈ q.queue g := List.mem_cons_of_mem _ mem
        have far : a ≠ q.top h := fun same => other (queueApart w hg inside queued (same ▸ List.mem_cons_self))
        have notLast : (l₁.map q.top).getLast? ≠ some a := fun last =>
          subOffTops w hg mem (around.before a (List.mem_of_getLast? last)).1
        refine (Function.update_of_ne far _ _).trans ((relinkApart notLast).trans ?_)
        exact Function.update_of_ne (filledOff f (queueWaiting (w.queues g hg) queued)) _ _
    · refine ⟨⟨?_,?_⟩,Function.update_self _ _ _,fun a mem => ?_,f.inPool,fun a mem => ?_,fun a mem => ?_,?_⟩
      · exact (Function.update_of_ne apart.symm _ _).trans (Function.update_self _ _ _)
      · simp only [Function.update_self]
        refine (segCongr fun a mem => ?_).mpr own.chain
        have far : a ≠ q.top h := fun same => topOffSub own (same ▸ mem)
        have notLast : (l₁.map q.top).getLast? ≠ some a := fun last =>
          subOffTops w inside mem (around.before a (List.mem_of_getLast? last)).1
        refine (Function.update_of_ne far _ _).trans ((relinkApart notLast).trans ?_)
        exact Function.update_of_ne (filledOff f (queueWaiting own (List.mem_cons_of_mem _ mem))) _ _
      · have fresh := filledOff f (queueWaiting own mem)
        rw [Function.update_of_ne fresh]
        rcases List.mem_cons.mp mem with rfl | mem
        · exact Function.update_self _ _ _
        · have far : a ≠ q.top h := fun same => topOffSub own (same ▸ mem)
          rw [Function.update_of_ne far]
          exact own.subRole a mem
      · rcases List.mem_cons.mp mem with rfl | mem
        · simp only [Function.update_self]
          exact f.handle
        · simp only [Function.update_of_ne (filledOff f (queueWaiting own mem))]
          exact own.handle a mem
      · rcases List.mem_cons.mp mem with rfl | mem
        · simp only [Function.update_self]
          exact f.ready
        · simp only [Function.update_of_ne (filledOff f (queueWaiting own mem))]
          exact own.ready a mem
      · refine List.pairwise_cons.mpr ⟨fun a mem => ?_,own.prio.imp_of_mem fun {a b} ha hb le => ?_⟩
        · simp only [Function.update_self,Function.update_of_ne (filledOff f (queueWaiting own mem))]
          rcases List.mem_cons.mp mem with rfl | mem
          · exact Int.le_of_lt higher
          · exact Int.le_trans ((List.pairwise_cons.mp own.prio).1 a mem) (Int.le_of_lt higher)
        · simp only [Function.update_of_ne (filledOff f (queueWaiting own ha)),
            Function.update_of_ne (filledOff f (queueWaiting own hb))]
          exact le
    · intro g mem
      simp only [Function.update_self]
      exact around.higher g mem
    · intro g mem
      simp only [Function.update_self]
      exact around.lower g mem
  · obtain ⟨nodes',nodes⟩ := putNodes p (q.top h :: q.sub h) around.split around.off₁ around.off₂
    have same : [h].flatMap q.queue = q.top h :: q.sub h := List.flatMap_singleton _ _
    rw [same] at nodes
    exact nodes'.trans (nodes.symm.cons p)
  · have far : a ≠ q.top h := fun same => waits (same ▸ topWaits)
    exact (Function.update_of_ne other _ _).trans (Function.update_of_ne far _ _)
  · refine ⟨rfl,rfl,rfl,rfl,rfl,rfl,rfl,fun a off => ?_,fun a off => ?_,fun a off => ?_,fun a off => ?_⟩
    · have far : a ≠ q.top h := fun same => off (.inr (same ▸ topWaits))
      have notLast : (l₁.map q.top).getLast? ≠ some a := fun last =>
        off (.inr (topsWaiting w (around.before a (List.mem_of_getLast? last)).1))
      refine (Function.update_of_ne far _ _).trans ((relinkApart notLast).trans ?_)
      exact Function.update_of_ne (fun same => off (.inl same)) _ _
    · have notFirst : (l₂.map q.top).head? ≠ some a := fun first =>
        off (.inr (topsWaiting w (around.after a (List.mem_of_mem_head? first)).1))
      exact (Function.update_of_ne (fun same => off (.inl same)) _ _).trans (relinkApart notFirst)
    · have far : a ≠ q.top h := fun same => off (.inr (same ▸ topWaits))
      exact (Function.update_of_ne far _ _).trans (Function.update_of_ne (fun same => off (.inl same)) _ _)
    · exact Function.update_of_ne (fun same => off (.inl same)) _ _

variable (io') in
/- The node somewhere in the sub queue. -/
theorem linkedSub (w : Waits io q role) (f : Filled io role p h) (inside : h ∈ q.order) {s₁ s₂ : List Ptr}
    (split : q.sub h = s₁ ++ s₂) (chain : Seg io'.next (io'.header (q.top h)) (s₁ ++ p :: s₂) none)
    (keeps : Keeps (fun a => a = p ∨ a ∈ q.queue h) io io') (queueList : io'.queueList = io.queueList)
    (fdPool : io'.fdPool = io.fdPool) (opt : io'.opt = io.opt) (prev : io'.prev = io.prev)
    (next : io'.next (q.top h) = io.next (q.top h))
    (top : (io.opt p).ioPrio ≤ (io.opt (q.top h)).ioPrio)
    (before : ∀ a ∈ s₁, (io.opt p).ioPrio ≤ (io.opt a).ioPrio)
    (after : ∀ a ∈ s₂, (io.opt a).ioPrio ≤ (io.opt p).ioPrio)
    (joins : Joined io p (q.queue h) (q.top h :: (s₁ ++ p :: s₂))) :
    ∃ q', Linked io io' q q' role (Function.update role p (.sub h)) p ∧ JoinedAt io io' q q' p h := by
  obtain ⟨l₁,l₂,around⟩ := aroundTop w inside
  have own := w.queues h inside
  have waiting : ∀ a ∈ q.queue h, (role a).Waiting := fun a mem => queueWaiting own mem
  have fresh : ∀ a, (role a).Waiting → a ≠ p := fun a waits => filledOff f waits
  have subs : ∀ a, a ∈ s₁ ++ p :: s₂ → a = p ∨ a ∈ q.sub h := by
    intro a mem
    rw [split]
    rcases List.mem_append.mp mem with mem | mem
    · exact .inr (List.mem_append_left _ mem)
    · exact (List.mem_cons.mp mem).imp_right (List.mem_append_right _)
  have notTouched : ∀ g ∈ q.order, g ≠ h → ∀ a ∈ q.queue g, ¬(a = p ∨ a ∈ q.queue h) := by
    intro g hg other a mem both
    rcases both with same | mem'
    · exact fresh a (queueWaiting (w.queues g hg) mem) same
    · exact other (queueApart w hg inside mem mem')
  refine ⟨q.put l₁ l₂ h (q.top h) (s₁ ++ p :: s₂),⟨?_,?_,fun a other _ => Function.update_of_ne other _ _,?_⟩,
    joinedPut around (fun a => ?_) joins⟩
  · refine waitsSub w around queueList fdPool (fun a mem => ?_) (fun a _ => congrFun prev a) (congrFun opt _) ?_ ?_
    · by_cases same : a = q.top h
      · rw [same]
        exact next
      · refine keeps.next a fun both => ?_
        rcases both with rfl | mem'
        · exact fresh a (topsWaiting w mem) rfl
        · rcases List.mem_cons.mp mem' with at_ | mem'
          · exact same at_
          · exact subOffTops w inside mem' mem
    · refine ⟨keeps.fdPoolSize,fun g hg _ a mem => ?_,fun _ _ _ a _ => congrFun opt a,fun g hg other => ?_,
        fun g hg other a mem => ?_⟩
      · exact Function.update_of_ne (fresh a (queueWaiting (w.queues g hg) mem)) _ _
      · exact keeps.header _ (notTouched g hg other _ List.mem_cons_self)
      · exact keeps.next a (notTouched g hg other a (List.mem_cons_of_mem _ mem))
    · refine ⟨chain,?_,fun a mem => ?_,?_,fun a mem => ?_,fun a mem => ?_,?_⟩
      · rw [Function.update_of_ne (fresh _ (waiting _ List.mem_cons_self))]
        exact own.topRole
      · rcases subs a mem with rfl | mem
        · exact Function.update_self _ _ _
        · rw [Function.update_of_ne (fresh a (waiting a (List.mem_cons_of_mem _ mem)))]
          exact own.subRole a mem
      · unfold InPool
        rw [keeps.fdPoolSize]
        exact own.inPool
      · rw [opt]
        rcases List.mem_cons.mp mem with rfl | mem
        · exact own.handle _ List.mem_cons_self
        · rcases subs a mem with rfl | mem
          · exact f.handle
          · exact own.handle a (List.mem_cons_of_mem _ mem)
      · rw [opt]
        rcases List.mem_cons.mp mem with rfl | mem
        · exact own.ready _ List.mem_cons_self
        · rcases subs a mem with rfl | mem
          · exact f.ready
          · exact own.ready a (List.mem_cons_of_mem _ mem)
      · obtain ⟨below,prio⟩ := List.pairwise_cons.mp own.prio
        rw [split] at prio
        obtain ⟨front,back,across⟩ := List.pairwise_append.mp prio
        rw [opt]
        refine List.pairwise_cons.mpr ⟨fun a mem => ?_,List.pairwise_append.mpr
          ⟨front,List.pairwise_cons.mpr ⟨after,back⟩,fun a mem b mem' => ?_⟩⟩
        · rcases subs a mem with rfl | mem
          · exact top
          · exact below a mem
        · rcases List.mem_cons.mp mem' with rfl | mem'
          · exact before a mem
          · exact across a mem b mem'
  · obtain ⟨nodes',nodes⟩ := putNodes (q.top h) (s₁ ++ p :: s₂) around.split around.off₁ around.off₂
    have same : [h].flatMap q.queue = q.top h :: (s₁ ++ s₂) := by
      rw [List.flatMap_singleton,Queues.queue,split]
    rw [same] at nodes
    have moved : (q.top h :: (s₁ ++ p :: s₂)).Perm (p :: q.top h :: (s₁ ++ s₂)) :=
      (List.perm_middle.cons (q.top h)).trans (List.Perm.swap _ _ _)
    exact nodes'.trans ((moved.append_right _).trans (nodes.symm.cons p))
  · have inTouched : ∀ a, ¬(a = p ∨ (role a).Waiting) → ¬(a = p ∨ a ∈ q.queue h) := fun a off both =>
      off (both.imp_right (waiting a))
    exact ⟨keeps.fdPoolSize,keeps.freeList,keeps.runningList,keeps.runningListTail,keeps.freeRunningList,keeps.made,
      keeps.ptr,fun a off => keeps.next a (inTouched a off),fun a off => keeps.prev a (inTouched a off),
      fun a off => keeps.header a (inTouched a off),fun a off => keeps.opt a (inTouched a off)⟩
  · rw [opt]
    exact ⟨rfl,rfl⟩

/- The loop over the sub queue stops behind the last request that goes first. -/
theorem subSplit (w : Waits io q role) (made : Made io role) (inside : h ∈ q.order) {first : Ptr}
    (head : io.header (q.top h) = some first) (low : (io.opt p).ioPrio ≤ (io.opt first).ioPrio)
    (top : (io.opt p).ioPrio ≤ (io.opt (q.top h)).ioPrio) :
    ∃ s₁ s₂ z, q.sub h = s₁ ++ s₂ ∧ s₁.getLast? = some z ∧ advance io.next (io.keepsPrio p) io.made first = some z ∧
      (∀ a ∈ s₁, (io.opt p).ioPrio ≤ (io.opt a).ioPrio) ∧ (∀ a ∈ s₂, (io.opt a).ioPrio ≤ (io.opt p).ioPrio) ∧
      Joined io p (q.queue h) (q.top h :: (s₁ ++ p :: s₂)) := by
  have own := w.queues h inside
  have forth := own.chain
  rw [head] at forth
  obtain ⟨rest,sub⟩ := List.head?_eq_some_iff.1 (segHead forth).symm
  rw [sub] at forth
  have short : rest.length < io.made := by
    have len := lengthMade made (queueNodup own) fun a mem => notFresh (queueWaiting own mem)
    rw [sub,List.length_cons] at len
    exact Nat.lt_of_succ_lt len
  obtain ⟨m₁,m₂,split,along,stop,found⟩ := advanceStops (io.keepsPrio p) forth.2 short
  obtain ⟨z,last⟩ : ∃ z, (first :: m₁).getLast? = some z := ⟨_,List.getLast?_eq_some_getLast (List.cons_ne_nil _ _)⟩
  have joins : Joined io p (q.queue h) (q.top h :: (first :: m₁ ++ p :: m₂)) := by
    rw [Queues.queue,sub,split]
    exact .later top low along stop
  refine ⟨first :: m₁,m₂,z,by rw [sub,split]; rfl,last,by rw [found,last],fun a mem => ?_,fun a mem => ?_,joins⟩
  · rcases List.mem_cons.mp mem with rfl | mem
    · exact low
    · exact (of_decide_eq_true (along a mem)).1
  · have prio := (List.pairwise_cons.mp own.prio).2
    rw [sub,split] at prio
    have later := (List.pairwise_append.mp (List.pairwise_cons.mp prio).2).2.1
    cases m₂ with
    | nil => cases mem
    | cons b m₂ =>
      have high : (io.opt b).ioPrio ≤ (io.opt p).ioPrio := by
        have no := of_decide_eq_false (stop b rfl)
        by_contra above
        exact no ⟨Int.le_of_lt (Int.not_le.mp above),fun both => above (Int.le_of_eq both.1.symm)⟩
      rcases List.mem_cons.mp mem with rfl | mem
      · exact high
      · exact Int.le_trans ((List.pairwise_cons.mp later).1 a mem) high

theorem appendSubLinks (w : Waits io q role) (made : Made io role) (f : Filled io role p h) (inside : h ∈ q.order)
    (top : (io.opt p).ioPrio ≤ (io.opt (q.top h)).ioPrio) :
    ∃ io' q', io.appendSub p (q.top h) = some io' ∧
      Linked io io' q q' role (Function.update role p (.sub h)) p ∧ JoinedAt io io' q q' p h := by
  have own := w.queues h inside
  have subOff : ∀ a ∈ q.sub h, a ≠ p := fun a mem => filledOff f (queueWaiting own (List.mem_cons_of_mem _ mem))
  have topOff : q.top h ≠ p := filledOff f (queueWaiting own List.mem_cons_self)
  have notTop : ∀ a, ¬(a = p ∨ a ∈ q.queue h) → a ≠ q.top h := fun a off same =>
    off (.inr (same ▸ List.mem_cons_self))
  unfold appendSub
  cases head : io.header (q.top h) with
  | none =>
    have empty : q.sub h = [] ++ [] := segNull (head ▸ own.chain)
    obtain ⟨q',linked⟩ := linkedSub { io with header := Function.update io.header (q.top h) (some p) }
      w f inside empty ⟨Function.update_self _ _ _,f.next⟩
      ⟨rfl,rfl,rfl,rfl,rfl,rfl,rfl,fun _ _ => rfl,fun _ _ => rfl,fun a off => Function.update_of_ne (notTop a off) _ _,
        fun _ _ => rfl⟩
      rfl rfl rfl rfl rfl top (fun a mem => absurd mem List.not_mem_nil) (fun a mem => absurd mem List.not_mem_nil) (by
        rw [Queues.queue,empty]
        exact .front top fun a none' => absurd none' (Option.not_mem_none a))
    exact ⟨_,q',rfl,linked⟩
  | some first =>
    obtain ⟨rest,sub⟩ := List.head?_eq_some_iff.1 ((segHead own.chain).symm.trans head)
    have forth := own.chain
    rw [head] at forth
    have firstSub : first ∈ q.sub h := sub ▸ List.mem_cons_self
    by_cases high : (io.opt first).ioPrio < (io.opt p).ioPrio
    · simp only [if_pos high]
      have split : q.sub h = [] ++ q.sub h := rfl
      have kept : Seg (Function.update io.next p (some first)) (some first) (q.sub h) none :=
        (segUpdate fun mem => subOff p mem rfl).mpr forth
      have chain : Seg (Function.update io.next p (some first)) (some p) (p :: q.sub h) none := by
        refine ⟨rfl,?_⟩
        rw [Function.update_self]
        exact kept
      obtain ⟨q',linked⟩ := linkedSub { io with
          next := Function.update io.next p (some first)
          header := Function.update io.header (q.top h) (some p) } w f inside split
        (by simpa only [Function.update_self,List.nil_append] using chain)
        ⟨rfl,rfl,rfl,rfl,rfl,rfl,rfl,fun a off => Function.update_of_ne (fun same => off (.inl same)) _ _,fun _ _ => rfl,
          fun a off => Function.update_of_ne (notTop a off) _ _,fun _ _ => rfl⟩
        rfl rfl rfl rfl (Function.update_of_ne topOff _ _) top (fun a mem => absurd mem List.not_mem_nil) (fun a mem => by
          rw [sub] at mem
          have prio := (List.pairwise_cons.mp own.prio).2
          rw [sub] at prio
          rcases List.mem_cons.mp mem with rfl | mem
          · exact Int.le_of_lt high
          · exact Int.le_trans ((List.pairwise_cons.mp prio).1 a mem) (Int.le_of_lt high))
        (.front top fun b is => by
          rw [sub] at is
          cases Option.some.inj is
          exact high)
      exact ⟨_,q',rfl,linked⟩
    · simp only [if_neg high]
      obtain ⟨s₁,s₂,z,split,last,found,before,after,joins⟩ := subSplit w made inside head (Int.not_lt.mp high) top
      have zSub : z ∈ q.sub h := split ▸ List.mem_append_left _ (List.mem_of_getLast? last)
      obtain ⟨front,at_⟩ := List.getLast?_eq_some_iff.1 last
      have follows : io.next z = s₂.head? := by
        rw [split,at_,List.append_assoc] at forth
        obtain ⟨m,-,later⟩ := segAppend.mp forth
        exact segHead later.2
      have nodup := segNodup forth
      rw [split] at forth nodup
      obtain ⟨nodup₁,-,across⟩ := List.nodup_append.mp nodup
      have chain : Seg (Function.update (Function.update io.next p (io.next z)) z (some p)) (io.header (q.top h))
          (s₁ ++ p :: s₂) none := by
        have start : io.header (q.top h) = (s₁ ++ ([p] ++ s₂)).head? := by
          rw [segHead own.chain,split,at_]
          cases front <;> rfl
        rw [start]
        refine segSplice (show Seg io.next _ (s₁ ++ ([] ++ s₂)) none from forth) (fun a mem => ?_) (fun a mem => ?_)
          ⟨rfl,?_⟩ fun a mem => ?_
        · have inS := List.dropLast_subset _ mem
          have far : a ≠ z := fun same => dropLastOther nodup₁ mem (same ▸ last)
          have inSub : a ∈ q.sub h := split ▸ List.mem_append_left _ inS
          exact (Function.update_of_ne far _ _).trans (Function.update_of_ne (subOff a inSub) _ _)
        · cases Option.some.inj (last.symm.trans mem)
          exact Function.update_self _ _ _
        · exact (Function.update_of_ne (subOff z zSub).symm _ _).trans ((Function.update_self _ _ _).trans follows)
        · have far : a ≠ z := fun same => across z (List.mem_of_getLast? last) a mem same.symm
          have inSub : a ∈ q.sub h := split ▸ List.mem_append_right _ mem
          exact (Function.update_of_ne far _ _).trans (Function.update_of_ne (subOff a inSub) _ _)
      simp only [found,bind,Option.bind]
      have zQueue : z ∈ q.queue h := List.mem_cons_of_mem _ zSub
      have zOther : q.top h ≠ z := fun same => topOffSub own (same ▸ zSub)
      have apart : ∀ a, ¬(a = p ∨ a ∈ q.queue h) →
          Function.update (Function.update io.next p (io.next z)) z (some p) a = io.next a := fun a off => by
        have far : a ≠ z := fun same => off (.inr (same ▸ zQueue))
        exact (Function.update_of_ne far _ _).trans (Function.update_of_ne (fun same => off (.inl same)) _ _)
      obtain ⟨q',linked⟩ := linkedSub { io with
          next := Function.update (Function.update io.next p (io.next z)) z (some p) } w f inside split chain
        ⟨rfl,rfl,rfl,rfl,rfl,rfl,rfl,apart,fun _ _ => rfl,fun _ _ => rfl,fun _ _ => rfl⟩ rfl rfl rfl rfl
        ((Function.update_of_ne zOther _ _).trans (Function.update_of_ne topOff _ _)) top before after joins
      exact ⟨_,q',rfl,linked⟩

/- The node start_aio has allocated. -/
structure Blank (io : AsynchFileIo) (role : Ptr → Role) (p : Ptr) : Prop where
  role : role p = .starting
  next : io.next p = none
  prev : io.prev p = none
  header : io.header p = none

theorem startAioLinks (w : Waits io q role) (made : Made io role) (blank : Blank io role p) {r : Request}
    (inPool : io.InPool r.handle) :
    ∃ io' q' role', io.startAio p r = some io' ∧ Linked io io' q q' role role' p ∧
      JoinedAt (io.assign p r) io' q q' p r.handle := by
  have own : (io.assign p r).opt p = { io.opt p with
      aioHandler := some r.handler
      handle := r.handle
      iNbytes := r.nbytes
      buffer := r.buff
      offset := r.offset
      opcode := some r.optcode
      fdPrio := r.fdPriority
      ioPrio := r.ioPriority
      id := io.idItor + 1 } := Function.update_self _ _ _
  have filled : Filled (io.assign p r) role p r.handle :=
    ⟨blank.role,blank.next,blank.prev,blank.header,by rw [own],by rw [own]; exact ⟨nofun,nofun⟩,inPool⟩
  have other : ∀ a, a ≠ p → (io.assign p r).opt a = io.opt a := fun a off => Function.update_of_ne off _ _
  have waits : Waits (io.assign p r) q role := by
    refine waitsFrame w rfl rfl rfl fun a waiting => ⟨rfl,rfl,rfl,rfl,other a ?_⟩
    rintro rfl
    rw [blank.role] at waiting
    exact waiting
  have whole : ∀ {io' q' role'}, Linked (io.assign p r) io' q q' role role' p → Linked io io' q q' role role' p := by
    intro io' q' role' linked
    have keeps := linked.keeps
    exact ⟨linked.waits,linked.nodes,linked.apart,keeps.fdPoolSize,keeps.freeList,keeps.runningList,
      keeps.runningListTail,keeps.freeRunningList,keeps.made,keeps.ptr,keeps.next,keeps.prev,keeps.header,
      fun a off => (keeps.opt a off).trans (other a fun same => off (.inl same))⟩
  unfold startAio
  simp only [if_neg (not_not.2 filled.inPool)]
  cases slot : (io.assign p r).fdPool r.handle with
  | none =>
    obtain ⟨io',q',runs,linked,joined⟩ := linkTopLinks waits made filled slot
    exact ⟨io',q',_,runs,whole linked,joined⟩
  | some topNode =>
    have inside : r.handle ∈ q.order := by
      by_contra absent
      rw [waits.pool,if_neg absent] at slot
      cases slot
    have top : topNode = q.top r.handle := by
      rw [waits.pool,if_pos inside] at slot
      exact (Option.some.inj slot).symm
    subst top
    have full : (io.assign p r).queueList ≠ none := by
      rw [topsHead waits]
      exact fun none_ => List.ne_nil_of_mem (List.mem_map_of_mem inside) (List.head?_eq_none_iff.mp none_)
    simp only [if_neg full]
    by_cases higher : ((io.assign p r).opt (q.top r.handle)).ioPrio < ((io.assign p r).opt p).ioPrio
    · simp only [if_pos higher]
      obtain ⟨io',q',role',runs,linked,joined⟩ := replaceTopLinks waits filled inside higher
      exact ⟨io',q',role',runs,whole linked,joined⟩
    · simp only [if_neg higher]
      obtain ⟨io',q',runs,linked,joined⟩ := appendSubLinks waits made filled inside (Int.not_lt.mp higher)
      exact ⟨io',q',_,runs,whole linked,joined⟩

end Link

end CuteNdk.AsynchFileIo
