import CuteNdk.AioSchedule
import Mathlib.Data.List.Flatten

/-! The invariant behind the schedule: every node is in one part of the component,
and every accepted request in one of its four places. -/
namespace CuteNdk.AsynchFileIo
open Lib

/- The node is as it was. -/
structure Same (io io' : AsynchFileIo) (role role' : Ptr → Role) (a : Ptr) : Prop where
  role : role' a = role a
  next : io'.next a = io.next a
  prev : io'.prev a = io.prev a
  header : io'.header a = io.header a
  opt : io'.opt a = io.opt a

/- free_list_. -/
structure Frees (io : AsynchFileIo) (role : Ptr → Role) (l : List Ptr) : Prop where
  chain : Seg io.next io.freeList l none
  free : ∀ a ∈ l, role a = .free

structure Starts (io : AsynchFileIo) (role : Ptr → Role) (starting : List (Ptr × Request)) : Prop where
  nodup : (starting.map Prod.fst).Nodup
  blank : ∀ x ∈ starting, Blank io role x.1
  inPool : ∀ x ∈ starting, io.InPool x.2.handle

/- A batch is linked from its first request on; rest is what is not done of it. -/
structure Works (io : AsynchFileIo) (role : Ptr → Role) (t : Nat) (b : Batch) (done rest : List Ptr) : Prop where
  some_ : done ++ rest ≠ []
  first : (done ++ rest).head? = some b.runningList
  chain : Seg io.next (some b.runningList) (done ++ rest) none
  batch : ∀ a ∈ done ++ rest, role a = .batch t
  ready : ∀ a ∈ done ++ rest, (io.opt a).Ready
  aioopt : b.aioopt = rest.head?

/- An idle thread has nothing. -/
def Idle (done rest : List Ptr) : Prop := done = [] ∧ rest = []

structure Threads (io : AsynchFileIo) (role : Ptr → Role) (threadNum : Nat) (threads : Nat → Option Batch)
    (done rest : Nat → List Ptr) : Prop where
  within : ∀ t, threads t ≠ none → t < threadNum
  idle : ∀ t, threads t = none → Idle (done t) (rest t)
  works : ∀ t b, threads t = some b → Works io role t b (done t) (rest t)

/- The request whose callback is made and whose entry is still there. -/
def calledNow : Option Batch → List Ptr
  | some ⟨_,some p,true⟩ => [p]
  | _ => []

structure Inv (s : Tracked) (q : Queues) (role : Ptr → Role) (es fs ls : List Ptr) (done rest : Nat → List Ptr) :
    Prop where
  waits : Waits s.io q role
  running : Running s.io role es fs
  frees : Frees s.io role ls
  starts : Starts s.io role s.starting
  threads : Threads s.io role s.threadNum s.threads done rest
  holds : (es.map s.io.ptr).Perm (((List.range s.threadNum).flatMap rest).map some)
  once : ((q.nodes ++ (List.range s.threadNum).flatMap rest).map s.request ++ (s.completed ++ s.cancelled)).Perm
    (List.range s.accepted)
  calls : s.callbacks.Perm (s.completed ++ ((List.range s.threadNum).flatMap fun t => calledNow (s.threads t)).map
    s.request)

section Frames
variable {io io' : AsynchFileIo} {role role' : Ptr → Role}

theorem sameWaits {q : Queues} (w : Waits io q role) (queueList : io'.queueList = io.queueList)
    (fdPool : io'.fdPool = io.fdPool) (size : io'.fdPoolSize = io.fdPoolSize)
    (same : ∀ a, (role a).Waiting → Same io io' role role' a) : Waits io' q role' :=
  waitsFrame w queueList fdPool size fun a waits => by
    have s := same a waits
    exact ⟨s.role,s.next,s.prev,s.header,s.opt⟩

theorem sameFrees {l : List Ptr} (f : Frees io role l) (freeList : io'.freeList = io.freeList)
    (same : ∀ a, role a = .free → Same io io' role role' a) : Frees io' role' l where
  chain := by
    rw [freeList]
    exact (segCongr fun a mem => (same a (f.free a mem)).next).mpr f.chain
  free a mem := (same a (f.free a mem)).role.trans (f.free a mem)

theorem sameStarts {starting : List (Ptr × Request)} (st : Starts io role starting) (size : io'.fdPoolSize = io.fdPoolSize)
    (same : ∀ x ∈ starting, Same io io' role role' x.1) : Starts io' role' starting where
  nodup := st.nodup
  blank x mem := by
    have s := same x mem
    have b := st.blank x mem
    exact ⟨s.role.trans b.role,s.next.trans b.next,s.prev.trans b.prev,s.header.trans b.header⟩
  inPool x mem := by
    unfold InPool
    rw [size]
    exact st.inPool x mem

theorem sameRunning {es fs : List Ptr} (r : Running io role es fs) (runningList : io'.runningList = io.runningList)
    (tail : io'.runningListTail = io.runningListTail) (free : io'.freeRunningList = io.freeRunningList)
    (made : Made io' role') (same : ∀ a, a ∈ es ∨ a ∈ fs → Same io io' role role' a) : Running io' role' es fs where
  chain := by
    rw [runningList]
    exact (segCongr fun a mem => (same a (.inl mem)).next).mpr r.chain
  tail := tail.trans r.tail
  entry a mem := (same a (.inl mem)).role.trans (r.entry a mem)
  free := by
    rw [free]
    exact (segCongr fun a mem => (same a (.inr mem)).next).mpr r.free
  freeEntry a mem := (same a (.inr mem)).role.trans (r.freeEntry a mem)
  made := made

theorem sameWorks {t : Nat} {b : Batch} {done rest : List Ptr} (k : Works io role t b done rest)
    (same : ∀ a, role a = .batch t → Same io io' role role' a) : Works io' role' t b done rest where
  some_ := k.some_
  first := k.first
  chain := (segCongr fun a mem => (same a (k.batch a mem)).next).mpr k.chain
  batch a mem := (same a (k.batch a mem)).role.trans (k.batch a mem)
  ready a mem := by
    rw [(same a (k.batch a mem)).opt]
    exact k.ready a mem
  aioopt := k.aioopt

theorem sameThreads {threadNum : Nat} {threads : Nat → Option Batch} {done rest : Nat → List Ptr}
    (h : Threads io role threadNum threads done rest) (same : ∀ t a, role a = .batch t → Same io io' role role' a) :
    Threads io' role' threadNum threads done rest where
  within := h.within
  idle := h.idle
  works t b at_ := sameWorks (h.works t b at_) (same t)

/- One thread goes on. -/
theorem setThread {threadNum t : Nat} {threads : Nat → Option Batch} {done rest : Nat → List Ptr} {b : Option Batch}
    {d r : List Ptr} (h : Threads io role threadNum threads done rest) (within : t < threadNum)
    (same : ∀ t', t' ≠ t → ∀ a, role a = .batch t' → Same io io' role role' a) (idle : b = none → Idle d r)
    (works : ∀ b', b = some b' → Works io' role' t b' d r) :
    Threads io' role' threadNum (Function.update threads t b) (Function.update done t d) (Function.update rest t r) where
  within t' some_ := by
    by_cases at_ : t' = t
    · rw [at_]
      exact within
    · rw [Function.update_of_ne at_] at some_
      exact h.within t' some_
  idle t' none_ := by
    by_cases at_ : t' = t
    · subst at_
      rw [Function.update_self] at none_ ⊢
      rw [Function.update_self]
      exact idle none_
    · rw [Function.update_of_ne at_] at none_ ⊢
      rw [Function.update_of_ne at_]
      exact h.idle t' none_
  works t' b' some_ := by
    by_cases at_ : t' = t
    · subst at_
      rw [Function.update_self] at some_ ⊢
      rw [Function.update_self]
      exact works b' some_
    · rw [Function.update_of_ne at_] at some_ ⊢
      rw [Function.update_of_ne at_]
      exact sameWorks (h.works t' b' some_) (same t' at_)

/- What all threads have together when one of them has something else. -/
theorem flatMapChange {α : Type} {n t : Nat} {f g : Nat → List α} (within : t < n) (same : ∀ k, k ≠ t → g k = f k) :
    ∃ others, ((List.range n).flatMap f).Perm (f t ++ others) ∧ ((List.range n).flatMap g).Perm (g t ++ others) := by
  have split := List.perm_cons_erase (List.mem_range.mpr within)
  refine ⟨((List.range n).erase t).flatMap f,split.flatMap_right f,?_⟩
  have rest : ((List.range n).erase t).flatMap g = ((List.range n).erase t).flatMap f := by
    apply List.flatMap_congr
    intro k mem
    have other : k ≠ t := fun at_ => (List.nodup_range.mem_erase_iff.mp mem).1 at_
    exact same k other
  rw [← rest]
  exact split.flatMap_right g

end Frames

section Start
variable {s : Tracked} {q : Queues} {role : Ptr → Role} {es fs ls : List Ptr} {done rest : Nat → List Ptr}

/- What alloc_aio_opt gives. -/
structure Allocated (io io' : AsynchFileIo) (role : Ptr → Role) (ls : List Ptr) (p : Ptr) : Prop where
  was : role p = .fresh ∨ role p = .free
  blank : Blank io' (Function.update role p .starting) p
  frees : Frees io' (Function.update role p .starting) ls
  made : Made io' (Function.update role p .starting)
  same : ∀ a, a ≠ p → Same io io' role (Function.update role p .starting) a
  ptr : ∀ a, a ≠ p → io'.ptr a = io.ptr a
  fdPoolSize : io'.fdPoolSize = io.fdPoolSize
  fdPool : io'.fdPool = io.fdPool
  queueList : io'.queueList = io.queueList
  runningList : io'.runningList = io.runningList
  runningListTail : io'.runningListTail = io.runningListTail
  freeRunningList : io'.freeRunningList = io.freeRunningList

theorem allocAioOptGives {io io' : AsynchFileIo} {p : Ptr} (f : Frees io role ls) (made : Made io role)
    (alloc : io.allocAioOpt = some (p,io')) : ∃ ls', Allocated io io' role ls' p := by
  unfold allocAioOpt at alloc
  by_cases full : io.maxRequestQueueSize < io.queueListSize
  · rw [if_pos full] at alloc
    cases alloc
  · rw [if_neg full] at alloc
    unfold allocAioOptI at alloc
    cases list : io.freeList with
    | none =>
      rw [list] at alloc
      cases alloc
      have isFresh : role io.made = .fresh := by
        by_contra used
        exact Nat.lt_irrefl _ (made _ used)
      have empty : ls = [] := segNull (list ▸ f.chain)
      refine ⟨[],.inl isFresh,⟨Function.update_self _ _ _,Function.update_self _ _ _,Function.update_self _ _ _,
        Function.update_self _ _ _⟩,⟨rfl,nofun⟩,fun a used => ?_,fun a other => ⟨Function.update_of_ne other _ _,
        Function.update_of_ne other _ _,Function.update_of_ne other _ _,Function.update_of_ne other _ _,
        Function.update_of_ne other _ _⟩,fun a other => Function.update_of_ne other _ _,rfl,rfl,rfl,rfl,rfl,rfl⟩
      by_cases at_ : a = io.made
      · rw [at_]
        exact Nat.lt_succ_self _
      · rw [Function.update_of_ne at_] at used
        exact Nat.lt_succ_of_lt (made a used)
    | some b =>
      rw [list] at alloc
      cases alloc
      have chain := f.chain
      obtain ⟨ls',rfl⟩ := List.head?_eq_some_iff.1 ((segHead chain).symm.trans list)
      have isFree := f.free p List.mem_cons_self
      have off := (List.nodup_cons.mp (segNodup chain)).1
      refine ⟨ls',.inr isFree,⟨Function.update_self _ _ _,Function.update_self _ _ _,Function.update_self _ _ _,
        Function.update_self _ _ _⟩,⟨(segUpdate off).mpr chain.2,fun a mem => ?_⟩,fun a used => ?_,
        fun a other => ⟨Function.update_of_ne other _ _,Function.update_of_ne other _ _,Function.update_of_ne other _ _,
        Function.update_of_ne other _ _,Function.update_of_ne other _ _⟩,fun a other => Function.update_of_ne other _ _,
        rfl,rfl,rfl,rfl,rfl,rfl⟩
      · have other : a ≠ p := fun at_ => off (at_ ▸ mem)
        rw [Function.update_of_ne other]
        exact f.free a (List.mem_cons_of_mem p mem)
      · by_cases at_ : a = p
        · rw [at_]
          exact made p (by rw [isFree]; nofun)
        · rw [Function.update_of_ne at_] at used
          exact made a used

theorem entryEdge (r : Running s.io role es fs) {a : Ptr} (mem : a ∈ es ∨ a ∈ fs) :
    role a = .entry ∨ role a = .freeEntry :=
  mem.imp (r.entry a) (r.freeEntry a)

theorem startInv (h : Inv s q role es fs ls done rest) (r : Request) :
    ∃ role' ls', Inv (s.start r) q role' es fs ls' done rest := by
  unfold Tracked.start
  by_cases may : s.io.Startable r
  · rw [if_pos may]
    cases alloc : s.io.allocAioOpt with
    | none => exact ⟨role,ls,h⟩
    | some out =>
      obtain ⟨p,io'⟩ := out
      obtain ⟨ls',gives⟩ := allocAioOptGives h.frees h.running.made alloc
      have apart : ∀ a r, role a = r → r ≠ .fresh → r ≠ .free → a ≠ p := by
        rintro a r is notFresh notFree rfl
        exact gives.was.elim (fun was => notFresh (is.symm.trans was)) fun was => notFree (is.symm.trans was)
      have running : ∀ a, a ∈ es ∨ a ∈ fs → a ≠ p := fun a mem =>
        (entryEdge h.running mem).elim (fun is => apart a _ is nofun nofun) fun is => apart a _ is nofun nofun
      refine ⟨Function.update role p .starting,ls',?_,?_,gives.frees,⟨?_,?_,?_⟩,?_,?_,h.once,h.calls⟩
      · refine sameWaits h.waits gives.queueList gives.fdPool gives.fdPoolSize fun a waits => gives.same a ?_
        rintro rfl
        exact gives.was.elim (fun was => by rw [was] at waits; exact waits) fun was => by rw [was] at waits; exact waits
      · exact sameRunning h.running gives.runningList gives.runningListTail gives.freeRunningList gives.made
          fun a mem => gives.same a (running a mem)
      · rw [List.map_append]
        refine List.nodup_append.mpr ⟨h.starts.nodup,List.nodup_singleton _,fun a mem b mem' => ?_⟩
        obtain ⟨x,inside,rfl⟩ := List.mem_map.mp mem
        rw [List.mem_singleton.mp mem']
        exact apart x.1 _ (h.starts.blank x inside).role nofun nofun
      · intro x mem
        rcases List.mem_append.mp mem with mem | mem
        · have was := h.starts.blank x mem
          have same := gives.same x.1 (apart x.1 _ was.role nofun nofun)
          exact ⟨same.role.trans was.role,same.next.trans was.next,same.prev.trans was.prev,same.header.trans was.header⟩
        · rw [List.mem_singleton.mp mem]
          exact gives.blank
      · intro x mem
        unfold InPool
        rw [gives.fdPoolSize]
        rcases List.mem_append.mp mem with mem | mem
        · exact h.starts.inPool x mem
        · rw [List.mem_singleton.mp mem]
          exact may.2.2
      · exact sameThreads h.threads fun t a is => gives.same a (apart a _ is nofun nofun)
      · have same : es.map io'.ptr = es.map s.io.ptr :=
          List.map_congr_left fun a mem => gives.ptr a (running a (.inl mem))
        rw [same]
        exact h.holds
  · rw [if_neg may]
    exact ⟨role,ls,h⟩

end Start

section Link
variable {s : Tracked} {q : Queues} {role : Ptr → Role} {es fs ls : List Ptr} {done rest : Nat → List Ptr}

theorem calledRest (h : Threads s.io role s.threadNum s.threads done rest) {t : Nat} {a : Ptr}
    (mem : a ∈ calledNow (s.threads t)) : a ∈ rest t := by
  cases at_ : s.threads t with
  | none =>
    rw [at_] at mem
    cases mem
  | some b =>
    have works := h.works t b at_
    rw [at_] at mem
    obtain ⟨first,aioopt,called⟩ := b
    cases aioopt with
    | none => cases mem
    | some p =>
      cases called with
      | false => cases mem
      | true =>
        rw [List.mem_singleton.mp mem]
        exact List.mem_of_mem_head? works.aioopt.symm

theorem restBatch (h : Threads s.io role s.threadNum s.threads done rest) {t : Nat} {a : Ptr} (mem : a ∈ rest t) :
    role a = .batch t := by
  cases at_ : s.threads t with
  | none =>
    rw [(h.idle t at_).2] at mem
    cases mem
  | some b => exact (h.works t b at_).batch a (List.mem_append_right _ mem)

theorem restsBatch (h : Threads s.io role s.threadNum s.threads done rest) {a : Ptr}
    (mem : a ∈ (List.range s.threadNum).flatMap rest) : ∃ t, role a = .batch t := by
  obtain ⟨t,-,inside⟩ := List.mem_flatMap.mp mem
  exact ⟨t,restBatch h inside⟩

theorem calledBatch (h : Threads s.io role s.threadNum s.threads done rest) {a : Ptr}
    (mem : a ∈ (List.range s.threadNum).flatMap fun t => calledNow (s.threads t)) : ∃ t, role a = .batch t := by
  obtain ⟨t,-,inside⟩ := List.mem_flatMap.mp mem
  exact ⟨t,restBatch h (calledRest h inside)⟩

theorem linkInv (h : Inv s q role es fs ls done rest) (i : Nat) :
    ∃ s' q' role', s.link i = some s' ∧ Inv s' q' role' es fs ls done rest ∧
      ∀ a ∈ q'.nodes, a ∈ q.nodes ∨ ∃ r, s.starting[i]? = some (a,r) := by
  unfold Tracked.link
  cases at_ : s.starting[i]? with
  | none => exact ⟨s,q,role,rfl,h,fun a mem => .inl mem⟩
  | some x =>
    obtain ⟨p,r⟩ := x
    have mem : (p,r) ∈ s.starting := List.mem_of_getElem? at_
    have starting : role p = .starting := (h.starts.blank _ mem).role
    obtain ⟨io',q',role',runs,linked,-⟩ := startAioLinks h.waits h.running.made (h.starts.blank _ mem)
      (h.starts.inPool _ mem)
    have keeps := linked.keeps
    have same : ∀ a r, role a = r → r ≠ .starting → ¬ r.Waiting → Same s.io io' role role' a := by
      rintro a r rfl notStarting notWaiting
      have other : a ≠ p := fun same => notStarting (same ▸ starting)
      have off : ¬(a = p ∨ (role a).Waiting) := fun both => both.elim other notWaiting
      exact ⟨linked.apart a other notWaiting,keeps.next a off,keeps.prev a off,keeps.header a off,keeps.opt a off⟩
    have order : s.starting.Perm ((p,r) :: s.starting.eraseIdx i) := by
      obtain ⟨lt,got⟩ := List.getElem?_eq_some_iff.mp at_
      rw [← got]
      exact (List.getElem_cons_eraseIdx_perm lt).symm
    have firsts := (order.map Prod.fst).nodup_iff.mp h.starts.nodup
    obtain ⟨alone,others⟩ := List.nodup_cons.mp firsts
    have left : ∀ x ∈ s.starting.eraseIdx i, x ∈ s.starting ∧ x.1 ≠ p := fun x inside =>
      ⟨order.symm.subset (List.mem_cons_of_mem _ inside),fun at_ => alone (List.mem_map.mpr ⟨x,inside,at_⟩)⟩
    have live : ∀ a ∈ q'.nodes, a ∈ q.nodes ∨ ∃ r', some (p,r) = some (a,r') := fun a inside =>
      (List.mem_cons.mp (linked.nodes.subset inside)).elim (fun is => .inr ⟨r,by rw [is]⟩) .inl
    simp only [runs,Option.map_some]
    refine ⟨_,q',role',rfl,⟨linked.waits,?_,?_,⟨others,?_,?_⟩,?_,?_,?_,?_⟩,live⟩
    · refine sameRunning h.running keeps.runningList keeps.runningListTail keeps.freeRunningList (fun a used => ?_)
        fun a inside => ?_
      · rw [keeps.made]
        by_cases at_ : a = p
        · rw [at_]
          exact h.running.made p (by rw [starting]; nofun)
        · by_cases waits : (role a).Waiting
          · exact h.running.made a (notFresh waits)
          · rw [linked.apart a at_ waits] at used
            exact h.running.made a used
      · exact (entryEdge h.running inside).elim (fun is => same a _ is nofun nofun) fun is => same a _ is nofun nofun
    · exact sameFrees h.frees keeps.freeList fun a is => same a _ is nofun nofun
    · intro x inside
      obtain ⟨was,other⟩ := left x inside
      have blank := h.starts.blank x was
      have notWaiting : ¬(role x.1).Waiting := by
        rw [blank.role]
        nofun
      have off : ¬(x.1 = p ∨ (role x.1).Waiting) := fun both => both.elim other notWaiting
      exact ⟨(linked.apart _ other notWaiting).trans blank.role,(keeps.next _ off).trans blank.next,
        (keeps.prev _ off).trans blank.prev,(keeps.header _ off).trans blank.header⟩
    · intro x inside
      unfold InPool
      rw [keeps.fdPoolSize]
      exact h.starts.inPool x (left x inside).1
    · exact sameThreads h.threads fun t a is => same a _ is nofun nofun
    · simp only [keeps.ptr]
      exact h.holds
    · have fresh : ∀ a ∈ q.nodes ++ (List.range s.threadNum).flatMap rest, a ≠ p := by
        intro a inside same
        subst same
        rcases List.mem_append.mp inside with inside | inside
        · have waits := nodesWaiting h.waits inside
          rw [starting] at waits
          exact waits
        · obtain ⟨t,is⟩ := restsBatch h.threads inside
          rw [starting] at is
          cases is
      have kept : (q.nodes ++ (List.range s.threadNum).flatMap rest).map (Function.update s.request p s.accepted) =
          (q.nodes ++ (List.range s.threadNum).flatMap rest).map s.request :=
        List.map_congr_left fun a inside => Function.update_of_ne (fresh a inside) _ _
      have moved := (linked.nodes.append_right ((List.range s.threadNum).flatMap rest)).map
        (Function.update s.request p s.accepted)
      rw [List.cons_append,List.map_cons,Function.update_self,kept] at moved
      rw [List.range_succ]
      have all : (s.accepted :: ((q.nodes ++ (List.range s.threadNum).flatMap rest).map s.request ++
          (s.completed ++ s.cancelled))).Perm (List.range s.accepted ++ [s.accepted]) :=
        (h.once.cons _).trans (List.perm_append_singleton _ _).symm
      exact (moved.append_right _).trans all
    · have kept : ((List.range s.threadNum).flatMap fun t => calledNow (s.threads t)).map
          (Function.update s.request p s.accepted) =
            ((List.range s.threadNum).flatMap fun t => calledNow (s.threads t)).map s.request := by
        refine List.map_congr_left fun a inside => Function.update_of_ne ?_ _ _
        rintro rfl
        obtain ⟨t,is⟩ := calledBatch h.threads inside
        rw [starting] at is
        cases is
      rw [kept]
      exact h.calls

end Link

section Cancel
variable {s : Tracked} {q : Queues} {role : Ptr → Role} {es fs ls : List Ptr} {done rest : Nat → List Ptr}

theorem entriesHold {io : AsynchFileIo} {held : List Ptr} (holds : (es.map io.ptr).Perm (held.map some)) {e : Ptr}
    (mem : e ∈ es) : ∃ p ∈ held, io.ptr e = some p := by
  obtain ⟨p,inside,at_⟩ := List.mem_map.mp (holds.subset (List.mem_map_of_mem mem))
  exact ⟨p,inside,at_.symm⟩

theorem findEnds {io : AsynchFileIo} (r : Running io role es fs) {held : List Ptr}
    (holds : (es.map io.ptr).Perm (held.map some)) (id : Int) : ∃ found, io.findInRunningList id = some found := by
  refine findEntryEnds id r.chain (fun e mem => ?_) (Nat.lt_succ_of_le (entriesMade r))
  obtain ⟨p,-,at_⟩ := entriesHold holds mem
  rw [at_]
  exact Option.some_ne_none p

/- A waiting node goes to free_list_. -/
theorem unlinkedInv (h : Inv s q role es fs ls done rest) {io' : AsynchFileIo} {q' : Queues} {role' : Ptr → Role} {p : Ptr}
    (unlinked : Unlinked s.io io' q q' role role' p) :
    Inv { s with io := io'.freeAioOpt p, cancelled := s.request p :: s.cancelled } q' role' es fs (p :: ls) done rest := by
  have keeps := unlinked.keeps
  have waited : (role p).Waiting := nodesWaiting h.waits (unlinked.nodes.symm.subset List.mem_cons_self)
  have apart : ∀ a r, role a = r → ¬ r.Waiting → a ≠ p := by
    rintro a r rfl not same
    exact not (same ▸ waited)
  have same : ∀ a r, role a = r → ¬ r.Waiting → Same s.io (io'.freeAioOpt p) role role' a := by
    intro a r is not
    have other := apart a r is not
    subst is
    exact ⟨unlinked.apart a not,(Function.update_of_ne other _ _).trans (keeps.next a not),keeps.prev a not,
      keeps.header a not,keeps.opt a not⟩
  refine ⟨?_,?_,⟨⟨rfl,?_⟩,fun a mem => ?_⟩,?_,?_,?_,?_,h.calls⟩
  · refine sameWaits unlinked.waits rfl rfl rfl fun a waits => ⟨rfl,Function.update_of_ne ?_ _ _,rfl,rfl,rfl⟩
    rintro rfl
    rw [unlinked.freed] at waits
    exact waits
  · refine sameRunning h.running keeps.runningList keeps.runningListTail keeps.freeRunningList (fun a used => ?_)
      fun a mem => ?_
    · rw [show (io'.freeAioOpt p).made = s.io.made from keeps.made]
      by_cases waits : (role a).Waiting
      · exact h.running.made a (notFresh waits)
      · rw [unlinked.apart a waits] at used
        exact h.running.made a used
    · exact (entryEdge h.running mem).elim (fun is => same a _ is nofun) fun is => same a _ is nofun
  · have off : p ∉ ls := fun mem => apart p _ (h.frees.free p mem) nofun rfl
    have tail : (io'.freeAioOpt p).next p = s.io.freeList := (Function.update_self _ _ _).trans keeps.freeList
    rw [tail]
    exact (segCongr fun a mem => (same a _ (h.frees.free a mem) nofun).next).mpr h.frees.chain
  · rcases List.mem_cons.mp mem with rfl | mem
    · exact unlinked.freed
    · have is := h.frees.free a mem
      exact (same a _ is nofun).role.trans is
  · exact sameStarts h.starts keeps.fdPoolSize fun x mem => same x.1 _ (h.starts.blank x mem).role nofun
  · exact sameThreads h.threads fun t a is => same a _ is nofun
  · rw [show (io'.freeAioOpt p).ptr = s.io.ptr from keeps.ptr]
    exact h.holds
  · have before := (unlinked.nodes.append_right ((List.range s.threadNum).flatMap rest)).map s.request
    rw [List.cons_append,List.map_cons] at before
    have moved : ((q'.nodes ++ (List.range s.threadNum).flatMap rest).map s.request ++
        (s.completed ++ s.request p :: s.cancelled)).Perm (s.request p ::
          ((q'.nodes ++ (List.range s.threadNum).flatMap rest).map s.request ++ (s.completed ++ s.cancelled))) := by
      rw [← List.append_assoc,← List.append_assoc]
      exact List.perm_middle
    exact moved.trans ((before.symm.append_right _).trans h.once)

theorem cancelInv (h : Inv s q role es fs ls done rest) (handle : Handle) (id : Int) :
    ∃ s' q' role' ls', s.cancel handle id = some s' ∧ Inv s' q' role' es fs ls' done rest := by
  unfold Tracked.cancel
  by_cases may : s.io.Cancellable handle id
  · rw [if_pos may]
    have inPool : s.io.InPool handle := ⟨Int.le_of_lt may.1,may.2.1⟩
    unfold cancelAio
    rcases removeWaitingUnlinks h.waits h.running.made inPool id with ⟨none_,_⟩ | ⟨p,io',q',role',runs,_,unlinked,-⟩
    · obtain ⟨found,ends⟩ := findEnds h.running h.holds id
      simp only [none_,ends,bind,Option.bind,Option.map_some]
      exact ⟨_,q,role,ls,rfl,h⟩
    · have after := unlinkedInv h unlinked
      obtain ⟨found,ends⟩ := findEnds after.running after.holds id
      simp only [runs,ends,bind,Option.bind,Option.map_some]
      exact ⟨_,q',role',p :: ls,rfl,after⟩
  · rw [if_neg may]
    exact ⟨s,q,role,ls,rfl,h⟩

end Cancel

section Take
variable {s : Tracked} {q : Queues} {role : Ptr → Role} {es fs ls : List Ptr} {done rest : Nat → List Ptr} {t : Nat}

theorem asideSame {io io' : AsynchFileIo} {role role' : Ptr → Role} (aside : Aside io io' role role') {a : Ptr}
    (off : ¬ (role a).Entry) : Same io io' role role' a :=
  ⟨aside.apart a off,aside.next a off,aside.prev a off,aside.header a off,aside.opt a off⟩

theorem sameTrans {io io' io'' : AsynchFileIo} {role role' role'' : Ptr → Role} {a : Ptr} (one : Same io io' role role' a)
    (two : Same io' io'' role' role'' a) : Same io io'' role role'' a :=
  ⟨two.role.trans one.role,two.next.trans one.next,two.prev.trans one.prev,two.header.trans one.header,
    two.opt.trans one.opt⟩

theorem waitingNotEntry {r : Role} (waits : r.Waiting) : ¬ r.Entry := by
  cases r <;> simp_all [Role.Waiting,Role.Entry]

/- The thread's batch and the entries for it are there together. -/
theorem takenInv (h : Inv s q role es fs ls done rest) {io₁ io₂ : AsynchFileIo} {q' : Queues}
    {role₁ role₂ : Ptr → Role} {first : Ptr} {l es' fs' : List Ptr} (within : t < s.threadNum) (idle : s.threads t = none)
    (taken : Taken s.io io₁ q q' role role₁ (first :: l) t)
    (enqueued : Enqueued io₁ io₂ role₁ role₂ es es' fs' (first :: l)) :
    Inv ({ s with io := io₂ }.set t (some ⟨first,some first,false⟩)) q' role₂ (es ++ es') fs' ls
      (Function.update done t []) (Function.update rest t (first :: l)) := by
  have keeps := taken.keeps
  have aside := enqueued.aside
  have waited : ∀ a ∈ first :: l, a ∈ q.nodes := fun a mem => taken.nodes.symm.subset (List.mem_append_left _ mem)
  have same₁ : ∀ a r, role a = r → ¬ r.Waiting → Same s.io io₁ role role₁ a := by
    rintro a r rfl not
    have off : a ∉ first :: l := fun mem => not (nodesWaiting h.waits (waited a mem))
    exact ⟨taken.apart a off,keeps.next a not,keeps.prev a not,keeps.header a not,keeps.opt a not⟩
  have same : ∀ a r, role a = r → ¬ r.Waiting → ¬ r.Entry → Same s.io io₂ role role₂ a := by
    intro a r is not notEntry
    have one := same₁ a r is not
    refine sameTrans one (asideSame aside ?_)
    rwa [one.role,is]
  have batch : ∀ a ∈ first :: l, Same io₁ io₂ role₁ role₂ a := fun a mem => asideSame aside (by
    rw [taken.batch a mem]
    nofun)
  obtain ⟨was,empty⟩ := h.threads.idle t idle
  have nothing : calledNow (s.threads t) = [] := by
    rw [idle]
    rfl
  obtain ⟨others,before,after⟩ := flatMapChange (f := rest) (g := Function.update rest t (first :: l)) within
    fun k other => Function.update_of_ne other _ _
  rw [empty,List.nil_append] at before
  rw [Function.update_self] at after
  refine ⟨?_,enqueued.running,?_,?_,?_,?_,?_,?_⟩
  · exact sameWaits taken.waits aside.queueList aside.fdPool aside.fdPoolSize fun a waits =>
      asideSame aside (waitingNotEntry waits)
  · exact sameFrees h.frees (aside.freeList.trans keeps.freeList) fun a is => same a _ is nofun nofun
  · exact sameStarts h.starts (aside.fdPoolSize.trans keeps.fdPoolSize) fun x mem =>
      same x.1 _ (h.starts.blank x mem).role nofun nofun
  · refine setThread h.threads within (fun t' _ a is => same a _ is nofun nofun) nofun fun b' is => ?_
    cases Option.some.inj is
    refine ⟨List.cons_ne_nil _ _,rfl,?_,fun a mem => ?_,fun a mem => ?_,rfl⟩
    · exact (segCongr fun a mem => (batch a mem).next).mpr taken.chain
    · exact (batch a mem).role.trans (taken.batch a mem)
    · rw [show Tracked.io _ = io₂ from rfl,(batch a mem).opt,taken.opt]
      obtain ⟨g,inside,at_⟩ := List.mem_flatMap.mp (waited a mem)
      exact (h.waits.queues g inside).ready a at_
  · have old : es.map io₂.ptr = es.map s.io.ptr := List.map_congr_left fun e mem => by
      rw [enqueued.kept e mem,keeps.ptr]
    rw [List.map_append]
    refine ((?_ : List.Perm _ _).trans ((after.symm.trans (List.Perm.refl _)).map some))
    rw [show Tracked.io _ = io₂ from rfl,old,enqueued.holds,List.map_append]
    exact (List.perm_append_comm).trans ((h.holds.trans (before.map some)).append_left _)
  · have moved : (q'.nodes ++ (List.range s.threadNum).flatMap (Function.update rest t (first :: l))).Perm
        (q.nodes ++ (List.range s.threadNum).flatMap rest) := by
      refine (after.append_left q'.nodes).trans (List.Perm.trans ?_ (taken.nodes.symm.append before.symm))
      rw [← List.append_assoc]
      exact List.perm_append_comm.append_right others
    exact ((moved.map s.request).append_right _).trans h.once
  · have same : ((List.range s.threadNum).flatMap fun k =>
        calledNow (Function.update s.threads t (some ⟨first,some first,false⟩) k)) =
          (List.range s.threadNum).flatMap fun k => calledNow (s.threads k) := by
      apply List.flatMap_congr
      intro k _
      by_cases at_ : k = t
      · subst at_
        rw [Function.update_self,nothing]
        rfl
      · rw [Function.update_of_ne at_]
    have calls := h.calls
    rw [← same] at calls
    exact calls

/- What a thread's critical section runs: the requests it takes, and then the entries. -/
theorem takeRuns (h : Inv s q role es fs ls done rest) (full : s.io.queueList ≠ none) (t : Nat) :
    ∃ io₁ io₂ q' role₁ role₂ first l es' fs', s.io.popSomeRequest none 5 = some (some first,io₁) ∧
      s.io.takeSome = some (first,io₂) ∧ Taken s.io io₁ q q' role role₁ (first :: l) t ∧
      Enqueued io₁ io₂ role₁ role₂ es es' fs' (first :: l) ∧ q.Shrinks q' := by
  obtain ⟨io₁,q',role₁,l,runs,taken,shrinks⟩ := popSomeRequestTakes h.waits h.running.made full (by decide : 0 < 5) t
  obtain ⟨first,l,rfl⟩ := List.exists_cons_of_ne_nil taken.some_
  have keeps := taken.keeps
  have running : Running io₁ role₁ es fs := by
    refine sameRunning h.running keeps.runningList keeps.runningListTail keeps.freeRunningList (fun a used => ?_)
      fun a mem => ?_
    · rw [keeps.made]
      by_cases inside : a ∈ first :: l
      · exact h.running.made a (notFresh (nodesWaiting h.waits (taken.nodes.symm.subset
          (List.mem_append_left _ inside))))
      · rw [taken.apart a inside] at used
        exact h.running.made a used
    · have not : ¬(role a).Waiting := by
        rcases entryEdge h.running mem with is | is <;> rw [is] <;> exact nofun
      have off : a ∉ first :: l := fun inside => not (nodesWaiting h.waits (taken.nodes.symm.subset
        (List.mem_append_left _ inside)))
      exact ⟨taken.apart a off,keeps.next a not,keeps.prev a not,keeps.header a not,keeps.opt a not⟩
  obtain ⟨io₂,role₂,es',fs',enqueues,enqueued⟩ := enqueueRuns running taken.some_ taken.chain fun a mem => by
    rw [taken.batch a mem]
    exact nofun
  rw [List.head?_cons] at enqueues runs
  refine ⟨io₁,io₂,q',role₁,role₂,first,l,es',fs',runs,?_,taken,enqueued,shrinks⟩
  simp only [takeSome,runs,enqueues,bind,Option.bind]

theorem takeInv (h : Inv s q role es fs ls done rest) (t : Nat) :
    ∃ s' q' role' es' fs' done' rest', s.take t = some s' ∧ Inv s' q' role' es' fs' ls done' rest' ∧
      (∀ a ∈ q'.nodes, a ∈ q.nodes ∧ s'.io.opt a = s.io.opt a) ∧
      (∀ k, ∀ a ∈ rest' k, (a ∈ rest k ∨ a ∈ q.nodes) ∧ s'.io.opt a = s.io.opt a) ∧ q.Shrinks q' := by
  unfold Tracked.take
  by_cases may : t < s.threadNum ∧ s.threads t = none ∧ s.io.queueList ≠ none
  · rw [if_pos may]
    obtain ⟨within,idle,full⟩ := may
    obtain ⟨io₁,io₂,q',role₁,role₂,first,l,es',fs',_,runs,taken,enqueued,shrinks⟩ := takeRuns h full t
    -- no node that waits, or is in a batch, is an entry
    have same : ∀ a, ¬ (role₁ a).Entry → io₂.opt a = s.io.opt a := fun a off => by
      rw [enqueued.aside.opt a off,taken.opt]
    simp only [runs,Option.map_some]
    refine ⟨_,q',role₂,es ++ es',fs',_,_,rfl,takenInv h within idle taken enqueued,fun a mem => ⟨?_,?_⟩,
      fun k a mem => ?_,shrinks⟩
    · exact taken.nodes.symm.subset (List.mem_append_right _ mem)
    · exact same a (waitingNotEntry (nodesWaiting taken.waits mem))
    · by_cases here : k = t
      · subst here
        rw [Function.update_self] at mem
        refine ⟨.inr (taken.nodes.symm.subset (List.mem_append_left _ mem)),same a ?_⟩
        rw [taken.batch a mem]
        exact nofun
      · rw [Function.update_of_ne here] at mem
        have batch := restBatch h.threads mem
        have off : a ∉ first :: l := fun inside => by
          have waits := nodesWaiting h.waits (taken.nodes.symm.subset (List.mem_append_left _ inside))
          rw [batch] at waits
          exact waits
        refine ⟨.inl mem,same a ?_⟩
        rw [taken.apart a off,batch]
        exact nofun
  · rw [if_neg may]
    exact ⟨s,q,role,es,fs,done,rest,rfl,h,fun _ mem => ⟨mem,rfl⟩,fun _ _ mem => ⟨.inl mem,rfl⟩,
      fun g mem => ⟨mem,List.Sublist.refl _⟩⟩

end Take

section Batch
variable {s : Tracked} {q : Queues} {role : Ptr → Role} {es fs ls : List Ptr} {done rest : Nat → List Ptr} {t : Nat}

theorem restsNodup (h : Inv s q role es fs ls done rest) : ((List.range s.threadNum).flatMap rest).Nodup := by
  have all := (List.nodup_append.mp (h.once.nodup_iff.mpr List.nodup_range)).1
  exact (List.nodup_append.mp all.of_map).2.1

/- Where a thread is not idle it has a batch, and its request comes first in the rest. -/
theorem atRequest (h : Inv s q role es fs ls done rest) {first p : Ptr} {called : Bool}
    (at_ : s.threads t = some ⟨first,some p,called⟩) :
    t < s.threadNum ∧ Works s.io role t ⟨first,some p,called⟩ (done t) (rest t) ∧ ∃ r, rest t = p :: r := by
  have works := h.threads.works t _ at_
  exact ⟨h.threads.within t (by rw [at_]; exact Option.some_ne_none _),works,
    List.head?_eq_some_iff.1 works.aioopt.symm⟩

theorem calledChange (s : Tracked) {t : Nat} (b : Option Batch) (within : t < s.threadNum) :
    ∃ others, ((List.range s.threadNum).flatMap fun k => calledNow (s.threads k)).Perm
        (calledNow (s.threads t) ++ others) ∧
      ((List.range s.threadNum).flatMap fun k => calledNow (Function.update s.threads t b k)).Perm
        (calledNow b ++ others) := by
  obtain ⟨others,before,after⟩ := flatMapChange (f := fun k => calledNow (s.threads k))
    (g := fun k => calledNow (Function.update s.threads t b k)) within fun k other => by
      simp only [Function.update_of_ne other]
  simp only [Function.update_self] at after
  exact ⟨others,before,after⟩

/- The callback is made for a node that is filled in; what it is told is in the node. -/
theorem performs {io : AsynchFileIo} {p : Ptr} (ready : (io.opt p).Ready) (result errno : Int) :
    ∃ code obj opt, io.perform p result errno = some (code,obj,{ io with opt := Function.update io.opt p opt }) ∧
      opt.Ready := by
  obtain ⟨opcode,handler⟩ := ready
  obtain ⟨code,codeIs⟩ := Option.ne_none_iff_exists'.mp opcode
  obtain ⟨obj,objIs⟩ := Option.ne_none_iff_exists'.mp handler
  refine ⟨code,obj,if 0 ≤ result then { io.opt p with errcode := 0, oNbytes := BitVec.ofInt 64 result }
    else { io.opt p with errcode := errno },?_,?_⟩
  · unfold perform
    rw [codeIs,objIs]
    rfl
  · split
    · exact ⟨opcode,handler⟩
    · exact ⟨opcode,handler⟩

theorem callbackInv (h : Inv s q role es fs ls done rest) (t : Nat) (result errno : Int) :
    ∃ s', s.callback t result errno = some s' ∧ Inv s' q role es fs ls done rest := by
  unfold Tracked.callback
  split
  · rename_i first p at_
    obtain ⟨within,works,r,restIs⟩ := atRequest h at_
    have pIn : p ∈ done t ++ rest t := by
      rw [restIs]
      exact List.mem_append_right _ List.mem_cons_self
    have batch := works.batch p pIn
    obtain ⟨code,obj,opt,does,ready⟩ := performs (works.ready p pIn) result errno
    simp only [does,Option.map_some]
    have same : ∀ a r, role a = r → r ≠ .batch t →
        Same s.io { s.io with opt := Function.update s.io.opt p opt } role role a := by
      intro a r is not
      have other : a ≠ p := fun at_ => not (is.symm.trans (at_ ▸ batch))
      exact ⟨rfl,rfl,rfl,rfl,Function.update_of_ne other _ _⟩
    refine ⟨_,rfl,?_,?_,?_,?_,?_,h.holds,h.once,?_⟩
    · refine sameWaits h.waits rfl rfl rfl fun a waits => same a _ rfl fun is => ?_
      rw [is] at waits
      exact waits
    · refine sameRunning h.running rfl rfl rfl h.running.made fun a mem => ?_
      exact (entryEdge h.running mem).elim (fun is => same a _ is nofun) fun is => same a _ is nofun
    · exact sameFrees h.frees rfl fun a is => same a _ is nofun
    · exact sameStarts h.starts rfl fun x mem => same x.1 _ (h.starts.blank x mem).role nofun
    · have moved : Works { s.io with opt := Function.update s.io.opt p opt } role t ⟨first,some p,true⟩ (done t) (rest t) := by
        refine ⟨works.some_,works.first,works.chain,works.batch,fun a mem => ?_,works.aioopt⟩
        by_cases at_ : a = p
        · rw [at_]
          simp only [Function.update_self]
          exact ready
        · simp only [Function.update_of_ne at_]
          exact works.ready a mem
      have set := setThread (b := some ⟨first,some p,true⟩) h.threads within
        (fun t' other a is => same a _ is fun both => other (Role.batch.inj both)) nofun
        fun b' is => Option.some.inj is ▸ moved
      rw [Function.update_eq_self,Function.update_eq_self] at set
      exact set
    · obtain ⟨others,before,after⟩ := calledChange s (some ⟨first,some p,true⟩) within
      rw [at_] at before
      have calls := h.calls.trans ((before.map s.request).append_left s.completed)
      refine List.Perm.trans ?_ ((after.map s.request).append_left s.completed).symm
      exact (calls.cons (s.request p)).trans List.perm_middle.symm
  · exact ⟨s,rfl,h⟩

theorem dequeueInv (h : Inv s q role es fs ls done rest) (t : Nat) :
    ∃ s' role' es' fs' done' rest', s.dequeue t = some s' ∧ Inv s' q role' es' fs' ls done' rest' ∧
      ∀ k, ∀ a ∈ rest' k, a ∈ rest k := by
  unfold Tracked.dequeue
  split
  · rename_i first p at_
    obtain ⟨within,works,r,restIs⟩ := atRequest h at_
    obtain ⟨others,before,after⟩ := flatMapChange (f := rest) (g := Function.update rest t r) within
      fun k other => Function.update_of_ne other _ _
    rw [restIs] at before
    rw [Function.update_self] at after
    have pIn : p ∈ (List.range s.threadNum).flatMap rest := before.symm.subset List.mem_cons_self
    have nodup : (es.map s.io.ptr).Nodup := h.holds.nodup_iff.mpr ((restsNodup h).map fun _ _ same => Option.some.inj same)
    obtain ⟨e,eIn,holds⟩ := List.mem_map.mp (h.holds.symm.subset (List.mem_map_of_mem pIn))
    obtain ⟨es₁,es₂,split⟩ := List.append_of_mem eIn
    have first_ : ∀ a ∈ es₁, s.io.ptr a ≠ some p := by
      intro a mem same
      rw [split,List.map_append] at nodup
      exact (List.nodup_append.mp nodup).2.2 _ (List.mem_map_of_mem mem) _ List.mem_cons_self (same.trans holds.symm)
    obtain ⟨io',runs,running,ptr,aside⟩ := dequeueRuns h.running split holds first_
    have same : ∀ a r, role a = r → ¬ r.Entry → Same s.io io' role (Function.update role e .freeEntry) a := by
      rintro a r rfl not
      exact asideSame aside not
    have chain := works.chain
    have batch : ∀ a ∈ done t ++ rest t, Same s.io io' role (Function.update role e .freeEntry) a := fun a mem =>
      same a _ (works.batch a mem) nofun
    have pWork : p ∈ done t ++ rest t := by
      rw [restIs]
      exact List.mem_append_right _ List.mem_cons_self
    have follows : io'.next p = r.head? := by
      rw [(batch p pWork).next]
      rw [restIs] at chain
      obtain ⟨m,-,later⟩ := segAppend.mp chain
      exact segHead later.2
    have parts : done t ++ [p] ++ r = done t ++ rest t := by
      rw [restIs,List.append_assoc]
      rfl
    have fewer : ∀ k, ∀ a ∈ Function.update rest t r k, a ∈ rest k := fun k a mem => by
      by_cases here : k = t
      · subst here
        rw [Function.update_self] at mem
        rw [restIs]
        exact List.mem_cons_of_mem p mem
      · rwa [Function.update_of_ne here] at mem
    simp only [runs,Option.map_some]
    refine ⟨_,Function.update role e .freeEntry,es₁ ++ es₂,e :: fs,Function.update done t (done t ++ [p]),
      Function.update rest t r,rfl,⟨?_,running,?_,?_,?_,?_,?_,?_⟩,fewer⟩
    · exact sameWaits h.waits aside.queueList aside.fdPool aside.fdPoolSize fun a waits =>
        same a _ rfl (waitingNotEntry waits)
    · exact sameFrees h.frees aside.freeList fun a is => same a _ is nofun
    · exact sameStarts h.starts aside.fdPoolSize fun x mem => same x.1 _ (h.starts.blank x mem).role nofun
    · refine setThread h.threads within (fun t' _ a is => same a _ is nofun) nofun fun b' is => ?_
      cases Option.some.inj is
      rw [← parts] at batch
      refine ⟨parts ▸ works.some_,parts ▸ works.first,?_,fun a mem => ?_,fun a mem => ?_,follows⟩
      · exact (segCongr fun a mem => (batch a mem).next).mpr (parts ▸ works.chain)
      · exact (batch a mem).role.trans (works.batch a (parts ▸ mem))
      · rw [show Tracked.io _ = io' from rfl,(batch a mem).opt]
        exact works.ready a (parts ▸ mem)
    · rw [show Tracked.io _ = io' from rfl,ptr]
      have all := h.holds.trans (before.map some)
      rw [split,List.map_append,List.map_cons,holds] at all
      have rest_ := (List.perm_middle.symm.trans all).cons_inv
      rw [List.map_append]
      exact rest_.trans (after.map some).symm
    · have moved := ((before.append_left q.nodes).map s.request).symm.append_right (s.completed ++ s.cancelled)
      refine List.Perm.trans (((after.append_left q.nodes).map s.request).append_right _) (List.Perm.trans ?_
        (moved.trans h.once))
      simp only [List.map_append,List.map_cons,List.cons_append,List.append_assoc]
      refine List.Perm.append_left _ ?_
      have shift : (List.map s.request r ++ (List.map s.request others ++ s.request p :: (s.completed ++ s.cancelled))).Perm
          (s.request p :: (List.map s.request r ++ (List.map s.request others ++ (s.completed ++ s.cancelled)))) := by
        rw [← List.append_assoc,← List.append_assoc]
        exact List.perm_middle
      exact shift
    · obtain ⟨others',before',after'⟩ := calledChange s (some ⟨first,io'.next p,false⟩) within
      rw [at_] at before'
      have none_ : calledNow (some ⟨first,io'.next p,false⟩) = [] := by
        cases io'.next p <;> rfl
      rw [none_,List.nil_append] at after'
      have calls := h.calls.trans ((before'.map s.request).append_left s.completed)
      refine List.Perm.trans ?_ ((after'.map s.request).append_left (s.request p :: s.completed)).symm
      exact calls.trans List.perm_middle
  · exact ⟨s,role,es,fs,done,rest,rfl,h,fun _ _ mem => mem⟩

/- The last node of a batch is linked in front of free_list_. -/
theorem freeInv (h : Inv s q role es fs ls done rest) (t : Nat) :
    ∃ s' role' ls' done' rest', s.free t = some s' ∧ Inv s' q role' es fs ls' done' rest' ∧
      ∀ k, ∀ a ∈ rest' k, a ∈ rest k := by
  unfold Tracked.free
  split
  · rename_i first called at_
    have works := h.threads.works t _ at_
    have within := h.threads.within t (by rw [at_]; exact Option.some_ne_none _)
    have nothing : rest t = [] := List.head?_eq_none_iff.mp works.aioopt.symm
    have chain := works.chain
    have first_ := works.first
    have batch := works.batch
    rw [nothing,List.append_nil] at chain first_ batch
    obtain ⟨d,doneIs⟩ := List.head?_eq_some_iff.1 first_
    rw [doneIs] at chain batch
    have short : d.length < s.io.made := by
      have len := lengthMade h.running.made (segNodup chain) fun a mem => by
        rw [batch a mem]
        exact nofun
      rw [List.length_cons] at len
      exact len
    obtain ⟨left,runs⟩ := freeWalkEnds (s.io.queueListSize - 1) chain.2 short
    obtain ⟨front,z,ends⟩ := (List.eq_nil_or_concat' (first :: d)).resolve_left (List.cons_ne_nil first d)
    have last : (first :: d).getLast (List.cons_ne_nil first d) = z := by
      simp only [ends,List.getLast_concat]
    have zIn : z ∈ first :: d := by
      rw [ends]
      exact List.mem_append_right front (List.mem_singleton_self z)
    have same : ∀ a r, role a = r → r ≠ .batch t → Same s.io { s.io with
        next := Function.update s.io.next z s.io.freeList
        freeList := some first
        queueListSize := left } role (fun a => if a ∈ first :: d then .free else role a) a := by
      rintro a r rfl not
      have off : a ∉ first :: d := fun mem => not (batch a mem)
      have other : a ≠ z := fun is => off (is ▸ zIn)
      exact ⟨if_neg off,Function.update_of_ne other _ _,rfl,rfl,rfl⟩
    have fewer : ∀ k, ∀ a ∈ Function.update rest t [] k, a ∈ rest k := fun k _ mem => by
      by_cases here : k = t
      · subst here
        rw [Function.update_self] at mem
        exact absurd mem List.not_mem_nil
      · rwa [Function.update_of_ne here] at mem
    simp only [freeAioOptN,runs,last,bind,Option.bind,Option.map_some]
    refine ⟨_,fun a => if a ∈ first :: d then .free else role a,first :: d ++ ls,Function.update done t [],
      Function.update rest t [],rfl,⟨?_,?_,⟨?_,fun a mem => ?_⟩,?_,?_,?_,?_,?_⟩,fewer⟩
    · refine sameWaits h.waits rfl rfl rfl fun a waits => same a _ rfl fun is => ?_
      rw [is] at waits
      exact waits
    · refine sameRunning h.running rfl rfl rfl (fun a used => ?_) fun a mem => ?_
      · by_cases inside : a ∈ first :: d
        · exact h.running.made a (by rw [batch a inside]; nofun)
        · exact h.running.made a (by rwa [if_neg inside] at used)
      · exact (entryEdge h.running mem).elim (fun is => same a _ is nofun) fun is => same a _ is nofun
    · have zOff : z ∉ ls := fun mem => by
        have is := h.frees.free z mem
        rw [batch z zIn] at is
        cases is
      have nodup := segNodup chain
      rw [ends] at chain nodup ⊢
      have zFront : z ∉ front := fun mem => (List.nodup_append.mp nodup).2.2 z mem z (List.mem_singleton_self z) rfl
      exact segAppend.mpr ⟨s.io.freeList,segSetLast chain zFront,(segUpdate zOff).mpr h.frees.chain⟩
    · rcases List.mem_append.mp mem with mem | mem
      · exact if_pos mem
      · exact (same a _ (h.frees.free a mem) nofun).role.trans (h.frees.free a mem)
    · exact sameStarts h.starts rfl fun x mem => same x.1 _ (h.starts.blank x mem).role nofun
    · exact setThread h.threads within (fun t' other a is => same a _ is fun both => other (Role.batch.inj both))
        (fun _ => ⟨rfl,rfl⟩) nofun
    · rw [← nothing,Function.update_eq_self]
      exact h.holds
    · rw [← nothing,Function.update_eq_self]
      exact h.once
    · obtain ⟨others,before,after⟩ := calledChange s none within
      rw [at_] at before
      have calls := h.calls.trans ((before.map s.request).append_left s.completed)
      exact calls.trans ((after.map s.request).append_left s.completed).symm
  · exact ⟨s,role,ls,done,rest,rfl,h,fun _ _ mem => mem⟩

end Batch

section Reached
variable {s : Tracked} {q : Queues} {role : Ptr → Role} {es fs ls : List Ptr} {done rest : Nat → List Ptr}

theorem topNodesAre (h : Inv s q role es fs ls done rest) : s.io.topNodes = q.tops :=
  walkSeg h.waits.linked.forth (lengthMade h.running.made (topsNodup h.waits) fun _ mem =>
    notFresh (topsWaiting h.waits mem))

theorem queueOfIs (h : Inv s q role es fs ls done rest) {g : Handle} (inside : g ∈ q.order) :
    s.io.queueOf (q.top g) = q.queue g := by
  have own := h.waits.queues g inside
  have short : (q.sub g).length ≤ s.io.made :=
    lengthMade h.running.made (segNodup own.chain) fun a mem =>
      notFresh (queueWaiting own (List.mem_cons_of_mem _ mem))
  rw [queueOf,walkSeg own.chain short]
  rfl

theorem waitingAre (h : Inv s q role es fs ls done rest) : s.io.waiting = q.nodes := by
  rw [waiting,topNodesAre h,Queues.tops,List.flatMap_map]
  apply List.flatMap_congr
  intro g inside
  exact queueOfIs h inside

theorem batchIs (h : Inv s q role es fs ls done rest) (t : Nat) : s.batch t = rest t := by
  unfold Tracked.batch
  cases at_ : s.threads t with
  | none => exact (h.threads.idle t at_).2.symm
  | some b =>
    have works := h.threads.works t b at_
    obtain ⟨m,-,later⟩ := segAppend.mp works.chain
    have short : (rest t).length ≤ s.io.made := lengthMade h.running.made (segNodup later) fun a mem => by
      rw [works.batch a (List.mem_append_right _ mem)]
      exact nofun
    have same : m = b.aioopt := (segHead later).trans works.aioopt.symm
    exact walkSeg (same ▸ later) short

theorem runningAre (h : Inv s q role es fs ls done rest) :
    s.running = (List.range s.threadNum).flatMap rest := by
  unfold Tracked.running
  rw [funext (batchIs h)]

theorem calledSublist (h : Inv s q role es fs ls done rest) :
    ((List.range s.threadNum).flatMap fun t => calledNow (s.threads t)).Sublist
      ((List.range s.threadNum).flatMap rest) := by
  refine List.Sublist.flatMap_right _ fun t _ => ?_
  unfold calledNow
  split
  · rename_i first p at_
    obtain ⟨-,-,r,restIs⟩ := atRequest h at_
    rw [restIs]
    exact List.Sublist.cons_cons p (List.nil_sublist r)
  · exact List.nil_sublist _

theorem poolHolds (h : Inv s q role es fs ls done rest) {g : Handle} {top : Ptr} (slot : s.io.fdPool g = some top) :
    g ∈ q.order ∧ top = q.top g := by
  rw [h.waits.pool] at slot
  by_cases inside : g ∈ q.order
  · rw [if_pos inside] at slot
    exact ⟨inside,(Option.some.inj slot).symm⟩
  · rw [if_neg inside] at slot
    cases slot

theorem scheduledOf (h : Inv s q role es fs ls done rest) : Scheduled s := by
  have tops := topNodesAre h
  have all := h.once.nodup_iff.mpr List.nodup_range
  rw [List.map_append] at all
  obtain ⟨live,ended,across⟩ := List.nodup_append.mp all
  obtain ⟨completed,cancelled,apart⟩ := List.nodup_append.mp ended
  have called : ∀ n ∈ ((List.range s.threadNum).flatMap fun t => calledNow (s.threads t)).map s.request,
      n ∈ q.nodes.map s.request ++ ((List.range s.threadNum).flatMap rest).map s.request := fun n mem =>
    List.mem_append_right _ (((calledSublist h).map s.request).subset mem)
  refine ⟨?_,?_,fun n mem gone => ?_,fun n mem => ?_,?_,?_,fun g => ?_,fun g top slot a mem handle => ?_,
    fun g top slot => ?_⟩
  · rw [waitingAre h,runningAre h,List.append_assoc,← List.map_append]
    exact h.once
  · refine h.calls.nodup_iff.mpr (List.nodup_append.mpr ⟨completed,?_,fun n mem m mem' same => ?_⟩)
    · exact (List.nodup_append.mp live).2.1.sublist ((calledSublist h).map s.request)
    · exact across m (called m mem') n (List.mem_append_left _ mem) same.symm
  · rcases List.mem_append.mp (h.calls.subset mem) with mem | mem
    · exact apart n mem n gone rfl
    · exact across n (called n mem) n (List.mem_append_right _ gone) rfl
  · exact h.calls.symm.subset (List.mem_append_left _ mem)
  · rw [tops]
    exact h.waits.linked
  · rw [tops]
    exact List.pairwise_map.mpr h.waits.sorted
  · have handles : ∀ k ∈ q.order, (s.io.opt (q.top k)).handle = k := fun k inside =>
      (h.waits.queues k inside).handle _ List.mem_cons_self
    have filtered : q.order.filter (fun k => decide ((s.io.opt (q.top k)).handle = g)) = q.order.filter (· = g) :=
      List.filter_congr fun k inside => by rw [handles k inside]
    rw [tops,Queues.tops,List.filter_map]
    change (q.order.filter fun k => decide ((s.io.opt (q.top k)).handle = g)).map q.top = _
    rw [filtered,List.filter_eq,List.Nodup.count h.waits.distinct,h.waits.pool]
    by_cases inside : g ∈ q.order
    · rw [if_pos inside,if_pos inside]
      rfl
    · rw [if_neg inside,if_neg inside]
      rfl
  · obtain ⟨inside,rfl⟩ := poolHolds h slot
    rw [waitingAre h] at mem
    obtain ⟨k,hk,at_⟩ := List.mem_flatMap.mp mem
    have same : k = g := ((h.waits.queues k hk).handle a at_).symm.trans handle
    subst same
    rw [queueOfIs h inside]
    exact List.count_eq_one_of_mem (queueNodup (h.waits.queues k inside)) at_
  · obtain ⟨inside,rfl⟩ := poolHolds h slot
    rw [queueOfIs h inside]
    exact (h.waits.queues g inside).prio

end Reached

/- What every run keeps. -/
def Kept (s : Tracked) : Prop := ∃ q role es fs ls done rest, Inv s q role es fs ls done rest

theorem startKept (maxQueueSize : BitVec 64) (size : Int) (threadNum : Nat) :
    Kept (.make maxQueueSize size threadNum) := by
  have none_ : ∀ f : Nat → List Ptr, (∀ t, f t = []) → (List.range threadNum).flatMap f = [] := fun f empty =>
    List.flatMap_eq_nil_iff.mpr fun t _ => empty t
  refine ⟨_,fun _ => .fresh,[],[],[],fun _ => [],fun _ => [],emptyWaits rfl fun _ => rfl,
    ⟨rfl,rfl,nofun,rfl,nofun,fun _ used => absurd rfl used⟩,⟨rfl,nofun⟩,⟨List.nodup_nil,nofun,nofun⟩,
    ⟨fun _ some_ => absurd rfl some_,fun _ _ => ⟨rfl,rfl⟩,nofun⟩,?_,?_,?_⟩
  · rw [show Tracked.threadNum _ = threadNum from rfl,none_ _ fun _ => rfl]
    exact List.Perm.refl _
  · rw [show Tracked.threadNum _ = threadNum from rfl,none_ _ fun _ => rfl]
    exact List.Perm.refl _
  · rw [show Tracked.threadNum _ = threadNum from rfl,
      none_ (fun t => calledNow ((Tracked.make maxQueueSize size threadNum).threads t)) fun _ => rfl]
    exact List.Perm.refl _

theorem stepKept {s : Tracked} (kept : Kept s) (op : Op) : ∃ s', step s op = some s' ∧ Kept s' := by
  obtain ⟨q,role,es,fs,ls,done,rest,h⟩ := kept
  cases op with
  | start r =>
    obtain ⟨role',ls',h'⟩ := startInv h r
    exact ⟨_,rfl,_,_,_,_,_,_,_,h'⟩
  | link i =>
    obtain ⟨s',q',role',runs,h',_⟩ := linkInv h i
    exact ⟨s',runs,_,_,_,_,_,_,_,h'⟩
  | cancel handle id =>
    obtain ⟨s',q',role',ls',runs,h'⟩ := cancelInv h handle id
    exact ⟨s',runs,_,_,_,_,_,_,_,h'⟩
  | take t =>
    obtain ⟨s',q',role',es',fs',done',rest',runs,h',_⟩ := takeInv h t
    exact ⟨s',runs,_,_,_,_,_,_,_,h'⟩
  | callback t result errno =>
    obtain ⟨s',runs,h'⟩ := callbackInv h t result errno
    exact ⟨s',runs,_,_,_,_,_,_,_,h'⟩
  | dequeue t =>
    obtain ⟨s',role',es',fs',done',rest',runs,h',_⟩ := dequeueInv h t
    exact ⟨s',runs,_,_,_,_,_,_,_,h'⟩
  | free t =>
    obtain ⟨s',role',ls',done',rest',runs,h',_⟩ := freeInv h t
    exact ⟨s',runs,_,_,_,_,_,_,_,h'⟩

theorem runKept {s : Tracked} (kept : Kept s) (ops : List Op) : ∃ s', run step s ops = some s' ∧ Kept s' := by
  induction ops generalizing s with
  | nil => exact ⟨s,rfl,kept⟩
  | cons op ops ih =>
    obtain ⟨m,first,mid⟩ := stepKept kept op
    obtain ⟨s',later,ends⟩ := ih mid
    exact ⟨s',Option.bind_eq_some_iff.mpr ⟨m,first,later⟩,ends⟩

/- Whatever order the calls and the threads take, no step runs into undefined
behaviour or an assertion, and the state it leads to is scheduled. -/
theorem everyRunScheduled (maxQueueSize : BitVec 64) (size : Int) (threadNum : Nat) (ops : List Op) :
    ∃ s, run step (.make maxQueueSize size threadNum) ops = some s ∧ Scheduled s := by
  obtain ⟨s,runs,q,role,es,fs,ls,done,rest,h⟩ := runKept (startKept maxQueueSize size threadNum) ops
  exact ⟨s,runs,scheduledOf h⟩

end CuteNdk.AsynchFileIo
