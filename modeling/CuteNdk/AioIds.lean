import CuteNdk.AioScheduled

/-! The descriptor and the id of a request: given by start_aio, and left alone by
all that happens to the request until its node is released. -/
namespace CuteNdk.AsynchFileIo
open Lib

structure Fixed (io io' : AsynchFileIo) : Prop where
  idItor : io'.idItor = io.idItor
  fdPoolSize : io'.fdPoolSize = io.fdPoolSize

structure Ids (io io' : AsynchFileIo) : Prop extends Fixed io io' where
  handle : ∀ a, (io'.opt a).handle = (io.opt a).handle
  id : ∀ a, (io'.opt a).id = (io.opt a).id

section Ids
variable {io io' io'' : AsynchFileIo} {p : Ptr}

theorem fixedTrans (one : Fixed io io') (two : Fixed io' io'') : Fixed io io'' :=
  ⟨two.idItor.trans one.idItor,two.fdPoolSize.trans one.fdPoolSize⟩

theorem idsOf (fixed : Fixed io io') (opt : io'.opt = io.opt) : Ids io io' :=
  ⟨fixed,fun a => by rw [opt],fun a => by rw [opt]⟩

theorem idsTrans (one : Ids io io') (two : Ids io' io'') : Ids io io'' :=
  ⟨fixedTrans one.toFixed two.toFixed,fun a => (two.handle a).trans (one.handle a),fun a => (two.id a).trans (one.id a)⟩

/- One node's fields are written, these two among them as they were. -/
theorem idsUpdate {o : AioOpt} (fixed : Fixed io io') (opt : io'.opt = Function.update io.opt p o)
    (handle : o.handle = (io.opt p).handle) (id : o.id = (io.opt p).id) : Ids io io' := by
  refine ⟨fixed,fun a => ?_,fun a => ?_⟩
  · rw [opt]
    by_cases at_ : a = p
    · rw [at_,Function.update_self,handle]
    · rw [Function.update_of_ne at_]
  · rw [opt]
    by_cases at_ : a = p
    · rw [at_,Function.update_self,id]
    · rw [Function.update_of_ne at_]

theorem setSlotIds {h : Handle} {slot : Option Ptr} (runs : io.setSlot h slot = some io') : Ids io io' := by
  unfold setSlot at runs
  split at runs
  · cases Option.some.inj runs
    exact idsOf ⟨rfl,rfl⟩ rfl
  · cases runs

theorem linkTopIds {topNode : Ptr} (runs : io.linkTop topNode = some io') : Ids io io' := by
  unfold linkTop at runs
  split at runs
  · cases Option.some.inj runs
    exact idsOf ⟨rfl,rfl⟩ rfl
  · split at runs
    · cases Option.some.inj runs
      exact idsOf ⟨rfl,rfl⟩ rfl
    · obtain ⟨itor,-,runs⟩ := Option.bind_eq_some_iff.mp runs
      cases Option.some.inj runs
      exact idsOf ⟨rfl,rfl⟩ rfl

theorem replaceTopIds {h : Handle} {aioopt topNode : Ptr} (runs : io.replaceTop h aioopt topNode = some io') :
    Ids io io' := by
  obtain ⟨slotted,slot,runs⟩ := Option.bind_eq_some_iff.mp runs
  cases Option.some.inj runs
  have prio : Ids io { io with
      opt := Function.update io.opt aioopt { io.opt aioopt with fdPrio := (io.opt topNode).fdPrio } } :=
    idsUpdate ⟨rfl,rfl⟩ rfl rfl rfl
  exact idsTrans prio (idsTrans (setSlotIds slot) (idsOf ⟨rfl,rfl⟩ rfl))

theorem appendSubIds {aioopt topNode : Ptr} (runs : io.appendSub aioopt topNode = some io') : Ids io io' := by
  unfold appendSub at runs
  split at runs
  · cases Option.some.inj runs
    exact idsOf ⟨rfl,rfl⟩ rfl
  · split at runs
    · cases Option.some.inj runs
      exact idsOf ⟨rfl,rfl⟩ rfl
    · obtain ⟨itor,-,runs⟩ := Option.bind_eq_some_iff.mp runs
      cases Option.some.inj runs
      exact idsOf ⟨rfl,rfl⟩ rfl

/- The id and the descriptor are assigned before the node is linked. -/
theorem startAioIds {r : Request} (runs : io.startAio p r = some io') : Ids (io.assign p r) io' := by
  unfold startAio at runs
  dsimp only at runs
  split at runs
  · cases runs
  · split at runs
    · obtain ⟨slotted,slot,runs⟩ := Option.bind_eq_some_iff.mp runs
      exact idsTrans (setSlotIds slot) (linkTopIds runs)
    · split at runs
      · cases runs
      · split at runs
        · exact replaceTopIds runs
        · exact appendSubIds runs

theorem removeTopIds {h : Handle} {topNode : Ptr} (runs : io.removeTop h topNode = some io') : Ids io io' := by
  unfold removeTop at runs
  split at runs
  · dsimp only at runs
    refine idsTrans ?_ (setSlotIds runs)
    exact idsOf ⟨rfl,rfl⟩ rfl
  · rename_i first _
    obtain ⟨slotted,slot,runs⟩ := Option.bind_eq_some_iff.mp runs
    cases Option.some.inj runs
    have prio : Ids io { io with
        opt := Function.update io.opt first { io.opt first with fdPrio := (io.opt topNode).fdPrio } } :=
      idsUpdate ⟨rfl,rfl⟩ rfl rfl rfl
    exact idsTrans prio (idsTrans (setSlotIds slot) (idsOf ⟨rfl,rfl⟩ rfl))

theorem removeWaitingIds {h : Handle} {id : Int} {out : Option Ptr × AsynchFileIo}
    (runs : io.removeWaiting h id = some out) : Ids io out.2 := by
  unfold removeWaiting at runs
  split at runs
  · cases runs
  · split at runs
    · cases Option.some.inj runs
      exact idsOf ⟨rfl,rfl⟩ rfl
    · split at runs
      · obtain ⟨removed,top,runs⟩ := Option.bind_eq_some_iff.mp runs
        cases Option.some.inj runs
        exact idsTrans (removeTopIds top) (idsOf ⟨rfl,rfl⟩ rfl)
      · split at runs
        · cases Option.some.inj runs
          exact idsOf ⟨rfl,rfl⟩ rfl
        · split at runs
          · cases Option.some.inj runs
            exact idsOf ⟨rfl,rfl⟩ rfl
          · obtain ⟨itor,-,runs⟩ := Option.bind_eq_some_iff.mp runs
            split at runs
            · cases Option.some.inj runs
              exact idsOf ⟨rfl,rfl⟩ rfl
            · cases Option.some.inj runs
              exact idsOf ⟨rfl,rfl⟩ rfl

theorem popSubFixed {n : Nat} {itor : Ptr} {node : Option Ptr} {i : Nat} {out : Ptr × Nat × AsynchFileIo}
    (runs : popSub n io itor node i = some out) : Fixed io out.2.2 := by
  induction n generalizing io itor node i with
  | zero => cases runs
  | succ n ih =>
    cases node with
    | none =>
      cases Option.some.inj runs
      exact ⟨rfl,rfl⟩
    | some node =>
      unfold popSub at runs
      refine fixedTrans ?_ (ih runs)
      exact ⟨rfl,rfl⟩

theorem linkPoppedFixed {l : Popped} {top : Ptr} {out : Option Ptr × AsynchFileIo}
    (runs : io.linkPopped l top = some out) : Fixed io out.2 := by
  unfold linkPopped at runs
  split at runs
  · cases Option.some.inj runs
    exact ⟨rfl,rfl⟩
  · obtain ⟨itor,-,rfl⟩ := Option.map_eq_some_iff.mp runs
    exact ⟨rfl,rfl⟩

theorem popTopsFixed {n num i : Nat} {l : Popped} {out : Popped × AsynchFileIo}
    (runs : popTops n io num l i = some out) : Fixed io out.2 := by
  induction n generalizing io l i with
  | zero => cases runs
  | succ n ih =>
    unfold popTops at runs
    split at runs
    · cases Option.some.inj runs
      exact ⟨rfl,rfl⟩
    · split at runs
      · cases Option.some.inj runs
        exact ⟨rfl,rfl⟩
      · obtain ⟨slotted,slot,runs⟩ := Option.bind_eq_some_iff.mp runs
        obtain ⟨linked,link,runs⟩ := Option.bind_eq_some_iff.mp runs
        obtain ⟨sub,pops,runs⟩ := Option.bind_eq_some_iff.mp runs
        have before := fixedTrans (setSlotIds slot).toFixed (linkPoppedFixed link)
        exact fixedTrans before (fixedTrans (popSubFixed pops) (ih runs))

theorem allocEntryFixed (p : Ptr) : Fixed io (io.allocEntry p).2 := by
  unfold allocEntry allocAioOptI
  cases io.freeRunningList <;> exact ⟨rfl,rfl⟩

theorem enqueueRestFixed {n : Nat} {node : Option Ptr} (runs : enqueueRest n io node = some io') :
    Fixed io io' := by
  induction n generalizing io node with
  | zero => cases runs
  | succ n ih =>
    cases node with
    | none =>
      cases Option.some.inj runs
      exact ⟨rfl,rfl⟩
    | some itor =>
      obtain ⟨tail,-,runs⟩ := Option.bind_eq_some_iff.mp runs
      have alloc : Fixed io (io.allocEntry itor).2 := allocEntryFixed itor
      refine fixedTrans ?_ (ih runs)
      exact ⟨alloc.idItor,alloc.fdPoolSize⟩

theorem enqueueFixed {list : Option Ptr} (runs : io.enqueueToRunningList list = some io') : Fixed io io' := by
  obtain ⟨first,-,runs⟩ := Option.bind_eq_some_iff.mp runs
  split at runs
  · have alloc : Fixed io (io.allocEntry first).2 := allocEntryFixed first
    refine fixedTrans ?_ (enqueueRestFixed runs)
    exact ⟨alloc.idItor,alloc.fdPoolSize⟩
  · exact enqueueRestFixed runs

theorem takeSomeFixed {out : Ptr × AsynchFileIo} (runs : io.takeSome = some out) : Fixed io out.2 := by
  obtain ⟨popped,pops,runs⟩ := Option.bind_eq_some_iff.mp runs
  obtain ⟨first,-,runs⟩ := Option.bind_eq_some_iff.mp runs
  obtain ⟨enqueued,adds,runs⟩ := Option.bind_eq_some_iff.mp runs
  cases Option.some.inj runs
  obtain ⟨tops,all,rest⟩ := Option.bind_eq_some_iff.mp pops
  cases Option.some.inj rest
  have pop := popTopsFixed all
  refine fixedTrans ?_ (enqueueFixed adds)
  exact ⟨pop.idItor,pop.fdPoolSize⟩

theorem performIds {result errno : Int} {out : Opcode × Address × AsynchFileIo}
    (runs : io.perform p result errno = some out) : Ids io out.2.2 := by
  obtain ⟨callback,-,runs⟩ := Option.bind_eq_some_iff.mp runs
  obtain ⟨handler,-,runs⟩ := Option.bind_eq_some_iff.mp runs
  cases Option.some.inj runs
  refine idsUpdate ⟨rfl,rfl⟩ rfl ?_ ?_
  · split <;> rfl
  · split <;> rfl

theorem unlinkEntryIds {out : Ptr × AsynchFileIo} (runs : io.unlinkEntry p = some out) : Ids io out.2 := by
  obtain ⟨first,-,runs⟩ := Option.bind_eq_some_iff.mp runs
  split at runs
  · cases Option.some.inj runs
    exact idsOf ⟨rfl,rfl⟩ rfl
  · obtain ⟨itor,-,runs⟩ := Option.bind_eq_some_iff.mp runs
    obtain ⟨entry,-,runs⟩ := Option.bind_eq_some_iff.mp runs
    cases Option.some.inj runs
    exact idsOf ⟨rfl,rfl⟩ rfl

theorem dequeueIds (runs : io.dequeueFromRunningList p = some io') : Ids io io' := by
  obtain ⟨out,unlink,runs⟩ := Option.bind_eq_some_iff.mp runs
  refine idsTrans (unlinkEntryIds unlink) ?_
  dsimp only at runs
  split at runs
  · cases Option.some.inj runs
    exact idsOf ⟨rfl,rfl⟩ rfl
  · cases Option.some.inj runs
    exact idsOf ⟨rfl,rfl⟩ rfl

theorem freeAioOptNIds (runs : io.freeAioOptN p = some io') : Ids io io' := by
  obtain ⟨out,-,runs⟩ := Option.bind_eq_some_iff.mp runs
  cases Option.some.inj runs
  exact idsOf ⟨rfl,rfl⟩ rfl

theorem allocAioOptFixed (runs : io.allocAioOpt = some (p,io')) : Fixed io io' := by
  unfold allocAioOpt allocAioOptI at runs
  split at runs
  · cases runs
  · cases list : io.freeList with
    | none =>
      rw [list] at runs
      cases Option.some.inj runs
      exact ⟨rfl,rfl⟩
    | some first =>
      rw [list] at runs
      cases Option.some.inj runs
      exact ⟨rfl,rfl⟩

end Ids

/- find_in_running_list is right about the list: an entry of a request of that id. -/
theorem findEntryIff {io : AsynchFileIo} {id : Int} {n : Nat} {start : Option Ptr} {es : List Ptr} {found : Bool}
    (chain : Seg io.next start es none) (runs : io.findEntry id n start = some found) :
    found = true ↔ ∃ e ∈ es, ∃ p, io.ptr e = some p ∧ (io.opt p).id = id := by
  induction es generalizing n start with
  | nil =>
    cases chain
    cases n with
    | zero => cases runs
    | succ n =>
      cases Option.some.inj runs
      exact ⟨Bool.noConfusion,fun ⟨_,mem,_⟩ => absurd mem List.not_mem_nil⟩
  | cons e es ih =>
    obtain ⟨rfl,later⟩ := chain
    cases n with
    | zero => cases runs
    | succ n =>
      obtain ⟨p,ptr,runs⟩ := Option.bind_eq_some_iff.mp runs
      by_cases same : (io.opt p).id = id
      · rw [if_pos same] at runs
        cases Option.some.inj runs
        exact ⟨fun _ => ⟨e,List.mem_cons_self,p,ptr,same⟩,fun _ => rfl⟩
      · rw [if_neg same] at runs
        refine (ih later runs).trans ⟨fun ⟨b,mem,at_⟩ => ⟨b,List.mem_cons_of_mem e mem,at_⟩,?_⟩
        rintro ⟨b,mem,x,is,at_⟩
        rcases List.mem_cons.mp mem with rfl | mem
        · rw [ptr] at is
          cases Option.some.inj is
          exact absurd at_ same
        · exact ⟨b,mem,x,is,at_⟩

end CuteNdk.AsynchFileIo
