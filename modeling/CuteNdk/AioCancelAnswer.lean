import CuteNdk.AioIds

/-! cancel_aio against the other calls. It answers from the running list alone, and
what it answers is true of the one request its id was returned for. -/
namespace CuteNdk.AsynchFileIo
open Lib

/- returned: the descriptor and the id of each accepted request, in their order.
cancelling: what the cancel_aio was called with that has queue_list_mtx_, has taken
out what waits and has not looked in the running list yet. -/
structure Calls where
  tracked : Tracked
  returned : List (Handle × Int)
  cancelling : Option (Handle × Int)

/- A cancel_aio is two steps, remove up to find_in_running_list, and look. -/
inductive CallOp where
  | start (r : Request)
  | link (i : Nat)
  | remove (handle : Handle) (id : Int)
  | look
  | take (t : Nat)
  | callback (t : Nat) (result errno : Int)
  | dequeue (t : Nat)
  | free (t : Nat)
  deriving DecidableEq, Repr

namespace Calls

def make (maxQueueSize : BitVec 64) (size : Int) (threadNum : Nat) : Calls :=
  ⟨.make maxQueueSize size threadNum,[],none⟩

def onTracked (s : Calls) (op : Op) : Option Calls :=
  (AsynchFileIo.step s.tracked op).map fun tracked => { s with tracked := tracked }

/- start_aio takes queue_list_mtx_ for the rest of the call, and returns the id. -/
def link (s : Calls) (i : Nat) : Option Calls :=
  if s.cancelling = none then
    match s.tracked.starting[i]? with
    | none => some s
    | some x => (s.tracked.link i).map fun tracked => { s with
        tracked := tracked
        returned := s.returned ++ [(x.2.handle,s.tracked.io.idItor + 1)] }
  else some s

def remove (s : Calls) (handle : Handle) (id : Int) : Option Calls :=
  if s.cancelling = none ∧ s.tracked.io.Cancellable handle id then
    (s.tracked.io.removeWaiting handle id).map fun out => { s with
      tracked := { s.tracked with
        io := out.2
        cancelled := out.1.toList.map s.tracked.request ++ s.tracked.cancelled }
      cancelling := some (handle,id) }
  else some s

/- What the cancel_aio that is not done yet returns. -/
def answer (s : Calls) : Option Answer := do
  let called ← s.cancelling
  let found ← s.tracked.io.findInRunningList called.2
  some (if found then .notCanceled else .canceled)

def look (s : Calls) : Option Calls :=
  match s.cancelling with
  | none => some s
  | some _ => s.answer.map fun _ => { s with cancelling := none }

/- The critical section of svc is one of queue_list_mtx_. -/
def take (s : Calls) (t : Nat) : Option Calls :=
  if s.cancelling = none then s.onTracked (.take t) else some s

def step (s : Calls) : CallOp → Option Calls
  | .start r => s.onTracked (.start r)
  | .link i => s.link i
  | .remove handle id => s.remove handle id
  | .look => s.look
  | .take t => s.take t
  | .callback t result errno => s.onTracked (.callback t result errno)
  | .dequeue t => s.onTracked (.dequeue t)
  | .free t => s.onTracked (.free t)

/- With nothing in between the two steps are cancel_aio. -/
theorem removeLook (s : Calls) {handle : Handle} {id : Int} (idle : s.cancelling = none)
    (may : s.tracked.io.Cancellable handle id) :
    ((s.remove handle id).bind fun m => m.answer.map fun answer => (answer,m.tracked.io)) =
      (s.tracked.io.cancelAio handle id).map fun out => (out.1,out.2.2) := by
  unfold remove cancelAio
  rw [if_pos ⟨idle,may⟩]
  cases removed : s.tracked.io.removeWaiting handle id with
  | none => rfl
  | some out =>
    simp only [Option.map_some,Option.bind_some,answer,bind]
    cases out.2.findInRunningList id <;> rfl

end Calls

/- The nodes of the requests that wait or are in a batch. -/
def Live (q : Queues) (rest : Nat → List Ptr) (a : Ptr) : Prop := a ∈ q.nodes ∨ ∃ t, a ∈ rest t

def naming (io : AsynchFileIo) (a : Ptr) : Handle × Int := ((io.opt a).handle,(io.opt a).id)

/- What the ids say of the requests: a node carries what start_aio returned for it,
and no waiting node what is being cancelled. -/
structure Named (s : Calls) (q : Queues) (rest : Nat → List Ptr) : Prop where
  live : ∀ a, Live q rest a → s.returned[s.tracked.request a]? = some (s.tracked.io.naming a)
  length : s.returned.length = s.tracked.accepted
  inPool : ∀ x ∈ s.returned, s.tracked.io.InPool x.1
  unique : (s.tracked.accepted : Int) < intMax →
    s.tracked.io.idItor = s.tracked.accepted ∧ ∀ (n : Nat) x, s.returned[n]? = some x → x.2 = n + 1
  gone : (s.tracked.accepted : Int) < intMax → ∀ c, s.cancelling = some c → ∀ a ∈ q.nodes, s.tracked.io.naming a ≠ c

section Named
variable {s s' : Calls} {q q' : Queues} {role : Ptr → Role} {es fs ls : List Ptr} {done rest rest' : Nat → List Ptr}

theorem namingOf {io io' : AsynchFileIo} (ids : Ids io io') (a : Ptr) : io'.naming a = io.naming a := by
  rw [naming,ids.handle,ids.id]
  rfl

/- Requests that end, or go from the queues to a batch, leave the names as they are. -/
theorem namedFrame (w : Named s q rest) (returned : s'.returned = s.returned)
    (request : s'.tracked.request = s.tracked.request) (accepted : s'.tracked.accepted = s.tracked.accepted)
    (fixed : Fixed s.tracked.io s'.tracked.io)
    (live : ∀ a, Live q' rest' a → Live q rest a ∧ s'.tracked.io.naming a = s.tracked.io.naming a)
    (gone : ∀ c, s'.cancelling = some c → s.cancelling = some c ∧ ∀ a ∈ q'.nodes, a ∈ q.nodes) :
    Named s' q' rest' where
  live a mem := by
    rw [returned,request,(live a mem).2]
    exact w.live a (live a mem).1
  length := by
    rw [returned,accepted]
    exact w.length
  inPool x mem := by
    unfold InPool
    rw [fixed.fdPoolSize]
    exact w.inPool x (returned ▸ mem)
  unique few := by
    rw [accepted] at few
    rw [accepted,fixed.idItor,returned]
    exact w.unique few
  gone few c called a mem := by
    rw [accepted] at few
    rw [(live a (.inl mem)).2]
    exact w.gone few c (gone c called).1 a ((gone c called).2 a mem)

theorem liveInside (h : Inv s.tracked q role es fs ls done rest) {a : Ptr} (live : Live q rest a) :
    a ∈ q.nodes ++ (List.range s.tracked.threadNum).flatMap rest := by
  rcases live with mem | ⟨t,mem⟩
  · exact List.mem_append_left _ mem
  · refine List.mem_append_right q.nodes (List.mem_flatMap.mpr ⟨t,List.mem_range.mpr ?_,mem⟩)
    refine h.threads.within t fun idle => ?_
    rw [(h.threads.idle t idle).2] at mem
    exact absurd mem List.not_mem_nil

/- Two requests have two numbers. -/
theorem requestInj (h : Inv s.tracked q role es fs ls done rest) {a b : Ptr} (ha : Live q rest a) (hb : Live q rest b)
    (same : s.tracked.request a = s.tracked.request b) : a = b := by
  have nodup := h.once.nodup_iff.mpr List.nodup_range
  exact List.inj_on_of_nodup_map (List.nodup_append.mp nodup).1 (liveInside h ha) (liveInside h hb) same

/- start_aio takes a node of its own. -/
theorem startNamed (h : Inv s.tracked q role es fs ls done rest) (w : Named s q rest) (r : Request) :
    Named { s with tracked := s.tracked.start r } q rest := by
  unfold Tracked.start
  by_cases may : s.tracked.io.Startable r
  · rw [if_pos may]
    cases alloc : s.tracked.io.allocAioOpt with
    | none => exact w
    | some out =>
      obtain ⟨p,io'⟩ := out
      obtain ⟨ls',gives⟩ := allocAioOptGives h.frees h.running.made alloc
      refine namedFrame w rfl rfl rfl (allocAioOptFixed alloc) (fun a live => ⟨live,?_⟩) fun c at_ =>
        ⟨at_,fun _ mem => mem⟩
      have other : a ≠ p := by
        rintro rfl
        rcases live with mem | ⟨t,mem⟩
        · have waits := nodesWaiting h.waits mem
          rcases gives.was with was | was
          · rw [was] at waits
            exact waits
          · rw [was] at waits
            exact waits
        · have batch := restBatch h.threads mem
          rcases gives.was with was | was
          · exact Role.noConfusion (was.symm.trans batch)
          · exact Role.noConfusion (was.symm.trans batch)
      exact congrArg (fun o : AioOpt => (o.handle,o.id)) (gives.same a other).opt
  · rw [if_neg may]
    exact w

/- The node of an accepted request carries the descriptor it was called with and
the id that is returned. -/
theorem linkNamed (h : Inv s.tracked q role es fs ls done rest) (w : Named s q rest) {i : Nat} {p : Ptr} {r : Request}
    (at_ : s.tracked.starting[i]? = some (p,r)) (idle : s.cancelling = none) {io' : AsynchFileIo}
    (runs : s.tracked.io.startAio p r = some io') (nodes : ∀ a ∈ q'.nodes, a ∈ q.nodes ∨ a = p) :
    Named ⟨{ s.tracked with
      io := io'
      starting := s.tracked.starting.eraseIdx i
      request := Function.update s.tracked.request p s.tracked.accepted
      accepted := s.tracked.accepted + 1 },s.returned ++ [(r.handle,s.tracked.io.idItor + 1)],s.cancelling⟩ q' rest := by
  have ids := startAioIds runs
  have kept : ∀ a, a ≠ p → io'.naming a = s.tracked.io.naming a := fun a off => by
    rw [namingOf ids,naming,assign]
    simp only [Function.update_of_ne off]
    rfl
  have named : io'.naming p = (r.handle,s.tracked.io.idItor + 1) := by
    rw [namingOf ids,naming,assign]
    simp only [Function.update_self]
  have last : (s.returned ++ [(r.handle,s.tracked.io.idItor + 1)])[s.tracked.accepted]? =
      some (r.handle,s.tracked.io.idItor + 1) := by
    rw [← w.length]
    exact List.getElem?_concat_length
  have older : ∀ (n : Nat) x, s.returned[n]? = some x → (s.returned ++ [(r.handle,s.tracked.io.idItor + 1)])[n]? = some x := by
    intro n x got
    obtain ⟨lt,_⟩ := List.getElem?_eq_some_iff.mp got
    rw [List.getElem?_append_left lt]
    exact got
  refine ⟨fun a live => ?_,?_,fun x mem => ?_,fun few => ⟨?_,fun n x got => ?_⟩,fun _ c called => ?_⟩
  · change (s.returned ++ [(r.handle,s.tracked.io.idItor + 1)])[Function.update s.tracked.request p s.tracked.accepted a]? =
      some (io'.naming a)
    by_cases new : a = p
    · rw [new,Function.update_self,named]
      exact last
    · have was : Live q rest a := live.imp_left fun mem => (nodes a mem).resolve_right new
      rw [Function.update_of_ne new,kept a new]
      exact older _ _ (w.live a was)
  · rw [List.length_append,w.length]
    rfl
  · have size : io'.fdPoolSize = s.tracked.io.fdPoolSize := ids.fdPoolSize
    unfold InPool
    rw [size]
    rcases List.mem_append.mp mem with mem | mem
    · exact w.inPool x mem
    · rw [List.mem_singleton.mp mem]
      exact h.starts.inPool _ (List.mem_of_getElem? at_)
  · have few' : (s.tracked.accepted : Int) + 1 < intMax := few
    have itor := (w.unique (Int.lt_trans (Int.lt_succ _) few')).1
    have new : io'.idItor = if s.tracked.io.idItor + 1 = intMax then 0 else s.tracked.io.idItor + 1 := ids.idItor
    rw [new,itor,if_neg (Int.ne_of_lt few')]
    rfl
  · have few' : (s.tracked.accepted : Int) + 1 < intMax := few
    obtain ⟨itor,numbered⟩ := w.unique (Int.lt_trans (Int.lt_succ _) few')
    rcases Nat.lt_or_ge n s.returned.length with lt | ge
    · rw [List.getElem?_append_left lt] at got
      exact numbered n x got
    · obtain ⟨lt,_⟩ := List.getElem?_eq_some_iff.mp got
      rw [List.length_append] at lt
      have here : n = s.tracked.accepted := by
        rw [← w.length]
        exact Nat.le_antisymm (Nat.le_of_lt_succ lt) ge
      subst here
      rw [last] at got
      cases Option.some.inj got
      rw [itor]
  · rw [idle] at called
    exact absurd called.symm (Option.some_ne_none c)

/- None of that name waits after remove. -/
theorem removeKept (h : Inv s.tracked q role es fs ls done rest) (w : Named s q rest) {handle : Handle} {id : Int}
    (may : s.tracked.io.Cancellable handle id) :
    ∃ out q' role' ls', s.tracked.io.removeWaiting handle id = some out ∧
      Inv { s.tracked with
        io := out.2
        cancelled := out.1.toList.map s.tracked.request ++ s.tracked.cancelled } q' role' es fs ls' done rest ∧
      Named ⟨{ s.tracked with
        io := out.2
        cancelled := out.1.toList.map s.tracked.request ++ s.tracked.cancelled },s.returned,some (handle,id)⟩ q' rest := by
  have inPool : s.tracked.io.InPool handle := ⟨Int.le_of_lt may.1,may.2.1⟩
  rcases removeWaitingUnlinks h.waits h.running.made inPool id with ⟨runs,none_⟩ | ⟨p,io',q',role',runs,pId,unlinked,-⟩
  · refine ⟨_,q,role,ls,runs,h,⟨w.live,w.length,w.inPool,w.unique,fun _ c called a mem same => ?_⟩⟩
    cases Option.some.inj called
    obtain ⟨g,inside,queued⟩ := List.mem_flatMap.mp mem
    have here : g = handle := ((h.waits.queues g inside).handle a queued).symm.trans (congrArg Prod.fst same)
    subst here
    exact none_ inside a queued (congrArg Prod.snd same)
  · have ids : Ids s.tracked.io (io'.freeAioOpt p) := removeWaitingIds runs
    have fewer : ∀ a ∈ q'.nodes, a ∈ q.nodes := fun a mem =>
      unlinked.nodes.symm.subset (List.mem_cons_of_mem p mem)
    refine ⟨_,q',role',p :: ls,runs,unlinkedInv h unlinked,⟨fun a live => ?_,w.length,fun x mem => ?_,fun few => ?_,
      fun few c called a mem same => ?_⟩⟩
    · exact (w.live a (live.imp_left (fewer a))).trans (congrArg some (namingOf ids a).symm)
    · have size : (io'.freeAioOpt p).fdPoolSize = s.tracked.io.fdPoolSize := ids.fdPoolSize
      unfold InPool
      rw [size]
      exact w.inPool x mem
    · rw [show Calls.tracked _ = _ from rfl,show Tracked.io _ = io'.freeAioOpt p from rfl,ids.idItor]
      exact w.unique few
    · -- another node of that id would carry the same number
      cases Option.some.inj called
      have pLive : Live q rest p := .inl (unlinked.nodes.symm.subset List.mem_cons_self)
      have aLive : Live q rest a := .inl (fewer a mem)
      have numbered := (w.unique few).2
      have aId : (s.tracked.io.opt a).id = id := (ids.id a).symm.trans (congrArg Prod.snd same)
      have aNumber := numbered _ _ (w.live a aLive)
      have pNumber := numbered _ _ (w.live p pLive)
      have number : s.tracked.request a = s.tracked.request p := by
        have both : (s.tracked.request a : Int) + 1 = s.tracked.request p + 1 :=
          aNumber.symm.trans ((aId.trans pId.symm).trans pNumber)
        exact Int.ofNat_inj.mp ((Int.add_left_inj 1).mp both)
      have nodup := unlinked.nodes.nodup_iff.mp (nodesNodup h.waits)
      exact (List.nodup_cons.mp nodup).1 (requestInj h aLive pLive number ▸ mem)

end Named

/- The numbers of the requests, and the names of the nodes. -/
structure SameNames (s s' : Tracked) : Prop where
  request : s'.request = s.request
  accepted : s'.accepted = s.accepted
  ids : Ids s.io s'.io

section Steps
variable {s s' : Tracked} {t : Nat}

theorem callbackNames {result errno : Int} (runs : s.callback t result errno = some s') : SameNames s s' := by
  unfold Tracked.callback at runs
  split at runs
  · obtain ⟨out,performs,rfl⟩ := Option.map_eq_some_iff.mp runs
    exact ⟨rfl,rfl,performIds performs⟩
  · cases Option.some.inj runs
    exact ⟨rfl,rfl,idsOf ⟨rfl,rfl⟩ rfl⟩

theorem dequeueNames (runs : s.dequeue t = some s') : SameNames s s' := by
  unfold Tracked.dequeue at runs
  split at runs
  · obtain ⟨io,dequeues,rfl⟩ := Option.map_eq_some_iff.mp runs
    exact ⟨rfl,rfl,dequeueIds dequeues⟩
  · cases Option.some.inj runs
    exact ⟨rfl,rfl,idsOf ⟨rfl,rfl⟩ rfl⟩

theorem freeNames (runs : s.free t = some s') : SameNames s s' := by
  unfold Tracked.free at runs
  split at runs
  · obtain ⟨io,frees,rfl⟩ := Option.map_eq_some_iff.mp runs
    exact ⟨rfl,rfl,freeAioOptNIds frees⟩
  · cases Option.some.inj runs
    exact ⟨rfl,rfl,idsOf ⟨rfl,rfl⟩ rfl⟩

/- take resets the nodes it makes its entries of. -/
theorem takeFixed (runs : s.take t = some s') :
    s'.request = s.request ∧ s'.accepted = s.accepted ∧ Fixed s.io s'.io := by
  unfold Tracked.take at runs
  split at runs
  · obtain ⟨out,takes,rfl⟩ := Option.map_eq_some_iff.mp runs
    exact ⟨rfl,rfl,takeSomeFixed takes⟩
  · cases Option.some.inj runs
    exact ⟨rfl,rfl,⟨rfl,rfl⟩⟩

end Steps

/- What every run of the calls keeps. -/
def Calls.Kept (s : Calls) : Prop :=
  ∃ q role es fs ls done rest, Inv s.tracked q role es fs ls done rest ∧ Named s q rest

namespace Calls

theorem startKept (maxQueueSize : BitVec 64) (size : Int) (threadNum : Nat) :
    (make maxQueueSize size threadNum).Kept := by
  obtain ⟨q,role,es,fs,ls,done,rest,h⟩ := AsynchFileIo.startKept maxQueueSize size threadNum
  refine ⟨q,role,es,fs,ls,done,rest,h,fun a live => ?_,rfl,fun _ mem => absurd mem List.not_mem_nil,fun _ => ⟨rfl,?_⟩,?_⟩
  · -- no request is accepted, so no node is live
    have inside := List.mem_map_of_mem (f := (Tracked.make maxQueueSize size threadNum).request)
      (liveInside (s := make maxQueueSize size threadNum) h live)
    have none_ := h.once.subset (List.mem_append_left _ inside)
    exact absurd (List.mem_range.mp none_) (Nat.not_lt_zero _)
  · exact fun n x got => absurd got.symm (Option.some_ne_none x)
  · exact fun _ c called => absurd called.symm (Option.some_ne_none c)

theorem stepKept {s : Calls} (kept : s.Kept) (op : CallOp) : ∃ s', s.step op = some s' ∧ s'.Kept := by
  obtain ⟨q,role,es,fs,ls,done,rest,h,w⟩ := kept
  -- a step of a batch: what is left of it was left before, and is named as before
  have worked : ∀ {t : Tracked} {role' es' fs' ls' done' rest'}, Inv t q role' es' fs' ls' done' rest' →
      SameNames s.tracked t → (∀ k, ∀ a ∈ rest' k, a ∈ rest k) → Kept { s with tracked := t } := by
    intro t role' es' fs' ls' done' rest' h' names fewer
    refine ⟨q,role',es',fs',ls',done',rest',h',namedFrame w rfl names.request names.accepted names.ids.toFixed
      (fun a live => ⟨?_,namingOf names.ids a⟩) fun c called => ⟨called,fun _ mem => mem⟩⟩
    exact live.imp_right fun ⟨k,mem⟩ => ⟨k,fewer k a mem⟩
  cases op with
  | start r =>
    obtain ⟨role',ls',h'⟩ := startInv h r
    exact ⟨_,rfl,q,role',es,fs,ls',done,rest,h',startNamed h w r⟩
  | link i =>
    change ∃ s', s.link i = some s' ∧ s'.Kept
    unfold link
    by_cases idle : s.cancelling = none
    · rw [if_pos idle]
      cases at_ : s.tracked.starting[i]? with
      | none => exact ⟨s,rfl,q,role,es,fs,ls,done,rest,h,w⟩
      | some x =>
        obtain ⟨p,r⟩ := x
        obtain ⟨t,q',role',runs,h',nodes⟩ := linkInv h i
        simp only [runs,Option.map_some]
        unfold Tracked.link at runs
        rw [at_] at runs
        obtain ⟨io',starts,rfl⟩ := Option.map_eq_some_iff.mp runs
        refine ⟨_,rfl,q',role',es,fs,ls,done,rest,h',linkNamed h w at_ idle starts fun a mem => ?_⟩
        refine (nodes a mem).imp_right fun ⟨r',same⟩ => ?_
        rw [at_] at same
        exact (congrArg Prod.fst (Option.some.inj same)).symm
    · rw [if_neg idle]
      exact ⟨s,rfl,q,role,es,fs,ls,done,rest,h,w⟩
  | remove handle id =>
    change ∃ s', s.remove handle id = some s' ∧ s'.Kept
    unfold remove
    by_cases may : s.cancelling = none ∧ s.tracked.io.Cancellable handle id
    · rw [if_pos may]
      obtain ⟨out,q',role',ls',runs,h',w'⟩ := removeKept h w may.2
      simp only [runs,Option.map_some]
      exact ⟨_,rfl,q',role',es,fs,ls',done,rest,h',w'⟩
    · rw [if_neg may]
      exact ⟨s,rfl,q,role,es,fs,ls,done,rest,h,w⟩
  | look =>
    change ∃ s', s.look = some s' ∧ s'.Kept
    unfold look
    cases called : s.cancelling with
    | none => exact ⟨s,rfl,q,role,es,fs,ls,done,rest,h,w⟩
    | some c =>
      obtain ⟨found,ends⟩ := findEnds h.running h.holds c.2
      simp only [answer,called,ends,bind,Option.bind_some,Option.map_some]
      refine ⟨_,rfl,q,role,es,fs,ls,done,rest,h,namedFrame w rfl rfl rfl ⟨rfl,rfl⟩ (fun a live => ⟨live,rfl⟩) ?_⟩
      exact fun c called => absurd called.symm (Option.some_ne_none c)
  | take t =>
    change ∃ s', s.take t = some s' ∧ s'.Kept
    unfold take
    by_cases idle : s.cancelling = none
    · rw [if_pos idle]
      obtain ⟨s',q',role',es',fs',done',rest',runs,h',waits,rests,-⟩ := takeInv h t
      obtain ⟨request,accepted,fixed⟩ := takeFixed runs
      refine ⟨{ s with tracked := s' },by rw [onTracked,AsynchFileIo.step,runs]; rfl,q',role',es',fs',ls,done',rest',h',
        namedFrame w rfl request accepted fixed (fun a live => ?_) fun c called => ?_⟩
      · rcases live with mem | ⟨k,mem⟩
        · exact ⟨.inl (waits a mem).1,by rw [naming,(waits a mem).2]; rfl⟩
        · refine ⟨(rests k a mem).1.elim (fun was => .inr ⟨k,was⟩) .inl,?_⟩
          rw [naming,(rests k a mem).2]
          rfl
      · exact absurd (idle.symm.trans called).symm (Option.some_ne_none c)
    · rw [if_neg idle]
      exact ⟨s,rfl,q,role,es,fs,ls,done,rest,h,w⟩
  | callback t result errno =>
    obtain ⟨s',runs,h'⟩ := callbackInv h t result errno
    refine ⟨{ s with tracked := s' },?_,worked h' (callbackNames runs) fun _ _ mem => mem⟩
    rw [step,onTracked,AsynchFileIo.step,runs]
    rfl
  | dequeue t =>
    obtain ⟨s',role',es',fs',done',rest',runs,h',fewer⟩ := dequeueInv h t
    refine ⟨{ s with tracked := s' },?_,worked h' (dequeueNames runs) fewer⟩
    rw [step,onTracked,AsynchFileIo.step,runs]
    rfl
  | free t =>
    obtain ⟨s',role',ls',done',rest',runs,h',fewer⟩ := freeInv h t
    refine ⟨{ s with tracked := s' },?_,worked h' (freeNames runs) fewer⟩
    rw [step,onTracked,AsynchFileIo.step,runs]
    rfl

theorem runKept {s t : Calls} (kept : s.Kept) {ops : List CallOp} (runs : run step s ops = some t) : t.Kept := by
  refine alwaysAtEnd (alwaysInvariant (fun m op m' kept did => ?_) kept ops) runs
  obtain ⟨u,runs,kept⟩ := stepKept kept op
  rw [did] at runs
  cases Option.some.inj runs
  exact kept

theorem cancelledGrows {s s' : Tracked} {op : Op} (did : AsynchFileIo.step s op = some s') {n : Nat}
    (mem : n ∈ s.cancelled) : n ∈ s'.cancelled := by
  cases op with
  | start r =>
    cases Option.some.inj did
    unfold Tracked.start
    split
    · split
      · exact mem
      · exact mem
    · exact mem
  | link i =>
    change s.link i = some s' at did
    unfold Tracked.link at did
    split at did
    · cases Option.some.inj did
      exact mem
    · obtain ⟨io,-,rfl⟩ := Option.map_eq_some_iff.mp did
      exact mem
  | cancel handle id =>
    change s.cancel handle id = some s' at did
    unfold Tracked.cancel at did
    split at did
    · obtain ⟨out,-,rfl⟩ := Option.map_eq_some_iff.mp did
      exact List.mem_append_right _ mem
    · cases Option.some.inj did
      exact mem
  | take t =>
    change s.take t = some s' at did
    unfold Tracked.take at did
    split at did
    · obtain ⟨out,-,rfl⟩ := Option.map_eq_some_iff.mp did
      exact mem
    · cases Option.some.inj did
      exact mem
  | callback t result errno =>
    change s.callback t result errno = some s' at did
    unfold Tracked.callback at did
    split at did
    · obtain ⟨out,-,rfl⟩ := Option.map_eq_some_iff.mp did
      exact mem
    · cases Option.some.inj did
      exact mem
  | dequeue t =>
    change s.dequeue t = some s' at did
    unfold Tracked.dequeue at did
    split at did
    · obtain ⟨io,-,rfl⟩ := Option.map_eq_some_iff.mp did
      exact mem
    · cases Option.some.inj did
      exact mem
  | free t =>
    change s.free t = some s' at did
    unfold Tracked.free at did
    split at did
    · obtain ⟨io,-,rfl⟩ := Option.map_eq_some_iff.mp did
      exact mem
    · cases Option.some.inj did
      exact mem

/- A step is one of the calls without the ids, or one of the two of cancel_aio. -/
theorem stepTracked {s s' : Calls} {op : CallOp} (did : s.step op = some s') :
    (∃ op, AsynchFileIo.step s.tracked op = some s'.tracked) ∨ s'.tracked = s.tracked ∨
      ∃ handle id, s.remove handle id = some s' := by
  have on : ∀ op, s.onTracked op = some s' → ∃ op, AsynchFileIo.step s.tracked op = some s'.tracked := fun op did => by
    obtain ⟨t,runs,rfl⟩ := Option.map_eq_some_iff.mp did
    exact ⟨op,runs⟩
  cases op with
  | start r => exact .inl (on _ did)
  | link i =>
    change s.link i = some s' at did
    unfold link at did
    split at did
    · split at did
      · cases Option.some.inj did
        exact .inr (.inl rfl)
      · obtain ⟨t,runs,rfl⟩ := Option.map_eq_some_iff.mp did
        exact .inl ⟨.link i,runs⟩
    · cases Option.some.inj did
      exact .inr (.inl rfl)
  | remove handle id => exact .inr (.inr ⟨handle,id,did⟩)
  | look =>
    change s.look = some s' at did
    unfold look at did
    split at did
    · cases Option.some.inj did
      exact .inr (.inl rfl)
    · obtain ⟨answer,-,rfl⟩ := Option.map_eq_some_iff.mp did
      exact .inr (.inl rfl)
  | take t =>
    change s.take t = some s' at did
    unfold take at did
    split at did
    · exact .inl (on _ did)
    · cases Option.some.inj did
      exact .inr (.inl rfl)
  | callback t result errno => exact .inl (on _ did)
  | dequeue t => exact .inl (on _ did)
  | free t => exact .inl (on _ did)

theorem cancelledStep {s s' : Calls} {op : CallOp} (did : s.step op = some s') {n : Nat} (mem : n ∈ s.tracked.cancelled) :
    n ∈ s'.tracked.cancelled := by
  rcases stepTracked did with ⟨op,did⟩ | same | ⟨handle,id,did⟩
  · exact cancelledGrows did mem
  · rw [same]
    exact mem
  · unfold remove at did
    split at did
    · obtain ⟨out,-,rfl⟩ := Option.map_eq_some_iff.mp did
      exact List.mem_append_right _ mem
    · cases Option.some.inj did
      exact mem

theorem cancelledStays {s t : Calls} {ops : List CallOp} (runs : run step s ops = some t) {n : Nat}
    (mem : n ∈ s.tracked.cancelled) : n ∈ t.tracked.cancelled := by
  have always := @alwaysInvariant _ _ step (fun m => n ∈ m.tracked.cancelled)
    (fun _ _ _ mem did => cancelledStep did mem) s mem ops
  exact @alwaysAtEnd _ _ step (fun m => n ∈ m.tracked.cancelled) s t ops always runs

section Answer
variable {s : Calls} {q : Queues} {role : Ptr → Role} {es fs ls : List Ptr} {done rest : Nat → List Ptr}

/- An id is returned for one request only. -/
theorem numberOf (w : Named s q rest) (few : (s.tracked.accepted : Int) < intMax) {n : Nat} {handle : Handle} {id : Int}
    (returned : s.returned[n]? = some (handle,id)) {a : Ptr} (live : Live q rest a) (same : (s.tracked.io.opt a).id = id) :
    s.tracked.request a = n ∧ s.tracked.io.naming a = (handle,id) := by
  have numbered := (w.unique few).2
  have mine : (s.tracked.io.opt a).id = (s.tracked.request a : Int) + 1 := numbered _ _ (w.live a live)
  have its : id = (n : Int) + 1 := numbered _ _ returned
  have both : (s.tracked.request a : Int) + 1 = n + 1 := mine.symm.trans (same.trans its)
  have number : s.tracked.request a = n := Int.ofNat_inj.mp ((Int.add_left_inj 1).mp both)
  refine ⟨number,?_⟩
  have named := w.live a live
  rw [number,returned] at named
  exact (Option.some.inj named).symm

theorem answerOf (h : Inv s.tracked q role es fs ls done rest) (w : Named s q rest)
    (few : (s.tracked.accepted : Int) < intMax) {n : Nat} {handle : Handle} {id : Int}
    (returned : s.returned[n]? = some (handle,id)) (called : s.cancelling = some (handle,id)) :
    ∃ answer, s.answer = some answer ∧
      (answer = .canceled → n ∈ s.tracked.completed ∨ n ∈ s.tracked.cancelled) ∧
      (answer = .notCanceled → (∃ t, n ∈ (s.tracked.batch t).map s.tracked.request) ∧ n ∉ s.tracked.completed) := by
  obtain ⟨found,ends⟩ := findEnds h.running h.holds id
  have entries := findEntryIff h.running.chain ends
  have answered : s.answer = some (if found then .notCanceled else .canceled) := by
    simp only [answer,called,ends,bind,Option.bind_some]
  have inRest : ∀ a ∈ (List.range s.tracked.threadNum).flatMap rest, ∃ t, a ∈ rest t := fun a mem =>
    (List.mem_flatMap.mp mem).imp fun _ both => both.2
  have all := h.once.nodup_iff.mpr List.nodup_range
  refine ⟨_,answered,fun not => ?_,fun is => ?_⟩
  · -- no entry has the id, and no waiting node its name
    have absent : found ≠ true := by
      rintro rfl
      exact Answer.noConfusion not
    obtain ⟨lt,_⟩ := List.getElem?_eq_some_iff.mp returned
    have accepted : n ∈ List.range s.tracked.accepted := List.mem_range.mpr (w.length ▸ lt)
    rcases List.mem_append.mp (h.once.symm.subset accepted) with mem | mem
    · obtain ⟨a,inside,number⟩ := List.mem_map.mp mem
      have named : Live q rest a → s.tracked.io.naming a = (handle,id) := fun live => by
        have own := w.live a live
        rw [number,returned] at own
        exact (Option.some.inj own).symm
      rcases List.mem_append.mp inside with waits | runs
      · exact absurd (named (.inl waits)) (w.gone few _ called a waits)
      · obtain ⟨e,entry,ptr⟩ := List.mem_map.mp (h.holds.symm.subset (List.mem_map_of_mem runs))
        exact absurd (entries.mpr ⟨e,entry,a,ptr,congrArg Prod.snd (named (.inr (inRest a runs)))⟩) absent
    · exact List.mem_append.mp mem
  · have present : found = true := by
      cases found with
      | true => rfl
      | false => exact Answer.noConfusion is
    obtain ⟨e,entry,p,ptr,same⟩ := entries.mp present
    obtain ⟨p',inside,ptr'⟩ := entriesHold h.holds entry
    have here : p' = p := Option.some.inj (ptr'.symm.trans ptr)
    subst here
    obtain ⟨t,mem⟩ := inRest p' inside
    have number := (numberOf w few returned (.inr ⟨t,mem⟩) same).1
    refine ⟨⟨t,?_⟩,fun completed => ?_⟩
    · rw [batchIs h t]
      exact List.mem_map.mpr ⟨p',mem,number⟩
    · have live : n ∈ (q.nodes ++ (List.range s.tracked.threadNum).flatMap rest).map s.tracked.request :=
        List.mem_map.mpr ⟨p',List.mem_append_right _ inside,number⟩
      exact (List.nodup_append.mp all).2.2 n live n (List.mem_append_left _ completed) rfl

end Answer

end Calls

/- What cancel_aio answers is true, wherever the other calls and the threads are:
canceled for a request whose callback is over or is never made, and not canceled for
one in a batch whose entry is in the running list yet. -/
theorem cancelTellsTruth (maxQueueSize : BitVec 64) (size : Int) (threadNum : Nat) (ops : List CallOp) (s : Calls)
    (reached : run Calls.step (.make maxQueueSize size threadNum) ops = some s) (n : Nat) (handle : Handle) (id : Int)
    (returned : s.returned[n]? = some (handle,id)) (few : (s.tracked.accepted : Int) < intMax) :
    (0 < handle → s.cancelling = none → ∃ m, s.remove handle id = some m ∧ m.cancelling = some (handle,id)) ∧
      (s.cancelling = some (handle,id) → ∃ answer s', s.answer = some answer ∧ s.look = some s' ∧
        s'.tracked = s.tracked ∧ s'.cancelling = none ∧
        (answer = .canceled → n ∈ s.tracked.completed ∨
          ∀ later t, run Calls.step s later = some t → n ∉ t.tracked.callbacks) ∧
        (answer = .notCanceled → (∃ t, n ∈ (s.tracked.batch t).map s.tracked.request) ∧ n ∉ s.tracked.completed)) := by
  have kept := Calls.runKept (Calls.startKept maxQueueSize size threadNum) reached
  obtain ⟨q,role,es,fs,ls,done,rest,h,w⟩ := Calls.runKept (Calls.startKept maxQueueSize size threadNum) reached
  refine ⟨fun positive idle => ?_,fun called => ?_⟩
  · have isId : id = (n : Int) + 1 := (w.unique few).2 n _ returned
    have may : s.tracked.io.Cancellable handle id := by
      refine ⟨positive,(w.inPool _ (List.mem_of_getElem? returned)).2,?_⟩
      rw [isId]
      omega
    obtain ⟨out,q',role',ls',runs,-,-⟩ := removeKept h w may
    unfold Calls.remove
    rw [if_pos ⟨idle,may⟩,runs]
    exact ⟨_,rfl,rfl⟩
  · obtain ⟨answer,answered,canceled,notCanceled⟩ := Calls.answerOf h w few returned called
    refine ⟨answer,{ s with cancelling := none },answered,?_,rfl,rfl,fun is => ?_,notCanceled⟩
    · unfold Calls.look
      rw [called,answered]
      rfl
    · refine (canceled is).imp_right fun mem later t runs => ?_
      obtain ⟨_,_,_,_,_,_,_,h',-⟩ := Calls.runKept kept runs
      exact fun made => (scheduledOf h').notCancelled n made (Calls.cancelledStays runs mem)

/- A request that waits is canceled: its callback is never made. -/
theorem waitingIsCanceled : ∃ s, run Calls.step (.make 10 8 1)
    [.start ⟨3,512,0,4096,1,.read,0,0⟩,.link 0,.remove 3 1] = some s ∧ s.answer = some .canceled ∧
      ∀ later t, run Calls.step s later = some t → 0 ∉ t.tracked.callbacks := by
  have facts : (run Calls.step (.make 10 8 1) [.start ⟨3,512,0,4096,1,.read,0,0⟩,.link 0,.remove 3 1]).map
      (fun s => (s.returned,s.cancelling,s.answer,s.tracked.accepted,s.tracked.completed)) =
        some ([(3,1)],some (3,1),some .canceled,1,[]) := rfl
  obtain ⟨s,runs,all⟩ := Option.map_eq_some_iff.mp facts
  obtain ⟨returned,called,canceled,accepted,completed⟩ : s.returned = [(3,1)] ∧ s.cancelling = some (3,1) ∧
      s.answer = some .canceled ∧ s.tracked.accepted = 1 ∧ s.tracked.completed = [] := by
    simpa only [Prod.mk.injEq] using all
  have truth := cancelTellsTruth 10 8 1 _ s runs 0 3 1 (by rw [returned]; rfl) (by rw [accepted]; decide)
  obtain ⟨answer,s',answered,-,-,-,ended,-⟩ := truth.2 called
  rw [canceled] at answered
  cases Option.some.inj answered
  refine ⟨s,runs,canceled,fun later t onward => ?_⟩
  have never := ended rfl
  rw [completed] at never
  exact (never.resolve_left List.not_mem_nil) later t onward

end CuteNdk.AsynchFileIo
