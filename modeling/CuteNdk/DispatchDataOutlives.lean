import CuteNdk.DispatchDataTask
import CuteNdk.Lib.Run
import Mathlib.Data.List.Nodup
import Mathlib.Data.List.Perm.Basic

/-! A transfer outlives its reads: it is deleted once, and not while a read of it is
waiting or running, as long as no response fails while one is, and no id is given
out twice. -/
namespace CuteNdk.DispatchData
open SerialFileTransfer (Byte Transfer)
open Lib (Along Always alwaysMono alwaysOfInvariant)

def Agent.buffer (ag : Agent) : Bool := ag.transfer.transfer.reserveBuffer.isSome

/- Every read has its transfer and the buffer it goes to; every transfer made is
deleted once or owned once; dispatch_data leaves released clients alone. -/
structure Outlives (s : State) : Prop where
  alive : ∀ r ∈ s.outstanding, r.agent ∉ s.deleted ∧ (s.agents r.agent).any Agent.buffer = true
  once : (s.owners ++ s.deleted).Perm (List.range s.made)
  untouched : s.late = []

instance (s : State) : Decidable (Outlives s) :=
  decidable_of_iff ((∀ r ∈ s.outstanding, r.agent ∉ s.deleted ∧ (s.agents r.agent).any Agent.buffer = true) ∧
      (s.owners ++ s.deleted).Perm (List.range s.made) ∧ s.late = [])
    ⟨fun h => ⟨h.1,h.2.1,h.2.2⟩,fun h => ⟨h.alive,h.once,h.untouched⟩⟩

def Outlives? : Option State → Prop
  | none => False
  | some s => Outlives s

instance : (o : Option State) → Decidable (Outlives? o)
  | none => isFalse id
  | some s => inferInstanceAs (Decidable (Outlives s))

/- Whether start_aio may be called. -/
def Act.starts : Act → Bool
  | .request _ opened started => opened && started
  | .transfer (.call _ started) => started
  | .transfer (.finish started) => started
  | _ => false

def Act.asks : Act → Bool
  | .request _ _ _ => true
  | _ => false

/- The transfer whose response fails. -/
def Act.drops : Act → Option Nat
  | .respond v false => some v.agent
  | _ => none

def Covered (o : Option State) (a : Act) : Prop :=
  ∀ s ∈ o,
    (∀ agent ∈ a.drops, ∀ r ∈ s.outstanding, r.agent ≠ agent) ∧
    (a.starts = true → ∀ r ∈ s.outstanding, r.id ≠ s.idItor + 1) ∧
    (a.asks = true → nextSession s.sessionIds ∉ s.clients.map (·.sessionId) ∧
      nextSession s.sessionIds ∉ s.jobs.map (·.sessionId))
instance (o : Option State) (a : Act) : Decidable (Covered o a) := by
  unfold Covered; infer_instance

structure ReadsOk (agents : Nat → Option Agent) (outstanding : List Aio) : Prop where
  ids : (outstanding.map (·.id)).Nodup
  positive : ∀ r ∈ outstanding, 0 < r.id
  reads : ∀ r ∈ outstanding, ∃ ag, agents r.agent = some ag ∧ ag.aioId = r.id ∧ ag.handle = r.handle
  idle : ∀ a ag, agents a = some ag → (ag.aioId = -1 ↔ ag.transfer.transfer.aioId = none)
  held : ∀ a ag, agents a = some ag → ag.transfer.transfer.aioId ≠ none → ag.buffer = true

structure OwnsOk (s : State) : Prop where
  once : (s.owners ++ s.deleted).Perm (List.range s.made)
  alive : ∀ a, (s.agents a).isSome = true ↔ a ∈ s.owners

structure SessionsOk (s : State) : Prop where
  jobs : (s.jobs.map (·.sessionId)).Nodup
  clients : (s.clients.map (·.sessionId)).Nodup
  requests : (s.clients.map (·.request)).Nodup
  known : ∀ c ∈ s.clients, c.request < s.made ∧ c.request ∉ s.released
  gone : ∀ a ∈ s.released, a < s.made
  serving : ∀ v ∈ s.serving, ⟨v.sessionId,v.agent⟩ ∈ s.clients
  attended : ∀ j ∈ s.jobs, j.closePending = false → ⟨j.sessionId,j.agent⟩ ∈ s.clients
  same : ∀ j ∈ s.jobs, ∀ c ∈ s.clients, j.sessionId = c.sessionId → j.agent = c.request
  late : s.late = []

structure Inv (s : State) : Prop where
  ids : 0 ≤ s.idItor
  reads : ReadsOk s.agents s.outstanding
  owns : OwnsOk s
  sessions : SessionsOk s

def Good (o : Option State) : Prop := ∃ s, o = some s ∧ Inv s

section Reads
variable {agents : Nat → Option Agent} {outstanding outstanding' : List Aio} {a : Nat} {ag : Agent}

theorem readsSublist (h : ReadsOk agents outstanding) (fewer : outstanding'.Subperm outstanding) :
    ReadsOk agents outstanding' := by
  obtain ⟨l,perm,sub⟩ := fewer
  have inside : ∀ r ∈ outstanding', r ∈ outstanding := fun r mem => sub.subset (perm.symm.subset mem)
  refine ⟨?_,fun r mem => h.positive r (inside r mem),fun r mem => h.reads r (inside r mem),h.idle,h.held⟩
  exact (perm.map _).nodup_iff.1 ((sub.map _).nodup h.ids)

/- The reads of one transfer are one. -/
theorem readsOne (h : ReadsOk agents outstanding) {r q : Aio} (hr : r ∈ outstanding) (hq : q ∈ outstanding)
    (same : r.agent = q.agent) : r = q := by
  obtain ⟨ag,found,id,-⟩ := h.reads r hr
  obtain ⟨ag',found',id',-⟩ := h.reads q hq
  rw [same,found'] at found
  cases found
  exact List.inj_on_of_nodup_map h.ids hr hq (id.symm.trans id')

theorem readsNot (h : ReadsOk agents outstanding) (found : agents a = some ag) (idle : ag.aioId = -1) :
    ∀ r ∈ outstanding, r.agent ≠ a := by
  rintro r mem rfl
  obtain ⟨ag',found',id,-⟩ := h.reads r mem
  have positive := h.positive r mem
  rw [found] at found'
  cases found'
  omega

theorem readsSet (h : ReadsOk agents outstanding)
    (mine : ∀ r ∈ outstanding, r.agent = a → ag.aioId = r.id ∧ ag.handle = r.handle)
    (idle : ag.aioId = -1 ↔ ag.transfer.transfer.aioId = none)
    (held : ag.transfer.transfer.aioId ≠ none → ag.buffer = true) :
    ReadsOk (Function.update agents a (some ag)) outstanding := by
  refine ⟨h.ids,h.positive,fun r mem => ?_,fun b ag' found => ?_,fun b ag' found => ?_⟩
  · by_cases same : r.agent = a
    · exact ⟨ag,by rw [same,Function.update_self],mine r mem same⟩
    · rw [Function.update_of_ne same]
      exact h.reads r mem
  · by_cases same : b = a
    · subst b
      rw [Function.update_self] at found
      cases found
      exact idle
    · rw [Function.update_of_ne same] at found
      exact h.idle b ag' found
  · by_cases same : b = a
    · subst b
      rw [Function.update_self] at found
      cases found
      exact held
    · rw [Function.update_of_ne same] at found
      exact h.held b ag' found

theorem readsUnset (h : ReadsOk agents outstanding) (others : ∀ r ∈ outstanding, r.agent ≠ a) :
    ReadsOk (Function.update agents a none) outstanding := by
  have off : ∀ b ag', Function.update agents a none b = some ag' → agents b = some ag' := by
    intro b ag' found
    by_cases same : b = a
    · subst b
      rw [Function.update_self] at found
      cases found
    · rwa [Function.update_of_ne same] at found
  refine ⟨h.ids,h.positive,fun r mem => ?_,fun b ag' found => h.idle b ag' (off b ag' found),
    fun b ag' found => h.held b ag' (off b ag' found)⟩
  rw [Function.update_of_ne (others r mem)]
  exact h.reads r mem

/- A transfer without a read gets one. -/
theorem readsStart (h : ReadsOk agents outstanding) {id : Int} (fresh : ∀ r ∈ outstanding, r.id ≠ id)
    (positive : 0 < id) (others : ∀ r ∈ outstanding, r.agent ≠ a) (began : ag.transfer.transfer.aioId ≠ none)
    (buffer : ag.buffer = true) {outstanding' : List Aio}
    (more : outstanding'.Perm (⟨id,ag.handle,a⟩ :: outstanding)) :
    ReadsOk (Function.update agents a (some { ag with aioId := id })) outstanding' := by
  have set : ReadsOk (Function.update agents a (some { ag with aioId := id })) outstanding := readsSet h
    (fun r mem same => absurd same (others r mem)) ⟨fun none_ => by change id = -1 at none_; omega,
      fun none_ => absurd none_ began⟩ fun _ => buffer
  have all : ReadsOk (Function.update agents a (some { ag with aioId := id })) (⟨id,ag.handle,a⟩ :: outstanding) := by
    refine ⟨?_,fun r mem => ?_,fun r mem => ?_,set.idle,set.held⟩
    · rw [List.map_cons,List.nodup_cons]
      refine ⟨fun mem => ?_,h.ids⟩
      obtain ⟨r,inside,same⟩ := List.mem_map.1 mem
      exact fresh r inside same
    · rcases List.mem_cons.1 mem with rfl | mem
      · exact positive
      · exact h.positive r mem
    · rcases List.mem_cons.1 mem with rfl | mem
      · exact ⟨_,Function.update_self _ _ _,rfl,rfl⟩
      · exact set.reads r mem
  exact readsSublist all more.subperm

end Reads

/- What transfer_data does to the read in progress: nothing, or it begins one. -/
def KeepsRead (started : Bool) (t t' : Transfer) : Prop :=
  (t.aioId ≠ none → t'.aioId = t.aioId ∧ t'.reserveBuffer = t.reserveBuffer) ∧
    (t.aioId = none → t'.aioId ≠ none → t'.reserveBuffer.isSome = true ∧ started = true)

theorem keepsSame {started : Bool} {t t' : Transfer} (aioId : t'.aioId = t.aioId)
    (reserve : t'.reserveBuffer = t.reserveBuffer) : KeepsRead started t t' :=
  ⟨fun _ => ⟨aioId,reserve⟩,fun none_ some_ => absurd (aioId.trans none_) some_⟩

theorem startRead {t : Transfer} {blockSize : Nat} {started : Bool} (none_ : t.aioId = none) :
    KeepsRead started t (t.startRead blockSize started) := by
  refine ⟨fun some_ => absurd none_ some_,fun _ some_ => ?_⟩
  unfold Transfer.startRead at some_ ⊢
  cases started with
  | true => exact ⟨rfl,rfl⟩
  | false => exact absurd none_ some_

theorem takeBufferRead (t : Transfer) (blockSize : Nat) (started : Bool) :
    KeepsRead started t (t.takeBuffer blockSize started).1 := by
  unfold Transfer.takeBuffer
  split
  · exact keepsSame rfl rfl
  · split
    · exact keepsSame rfl rfl
    · rename_i none_
      have none_ := not_not.1 none_
      split
      · exact startRead none_
      · exact ⟨fun some_ => absurd none_ some_,fun _ some_ => absurd none_ some_⟩

theorem freeBufferRead (t : Transfer) :
    t.freeBuffer.aioId = t.aioId ∧ t.freeBuffer.reserveBuffer = t.reserveBuffer := by
  unfold Transfer.freeBuffer
  split
  · exact ⟨rfl,rfl⟩
  · exact ⟨rfl,rfl⟩

theorem prefetchRead (t : Transfer) (blockSize : Nat) (started : Bool) (transferBytes : Nat) :
    KeepsRead started t (t.prefetch blockSize started transferBytes).1 := by
  obtain ⟨aioId,reserve⟩ := freeBufferRead t
  have freed : KeepsRead started t t.freeBuffer := keepsSame aioId reserve
  unfold Transfer.prefetch
  split
  · exact keepsSame rfl rfl
  · split
    · simp only
      split
      · split
        · exact freed
        · exact freed
      · split
        · rename_i prefetches
          have none_ := prefetches.1
          have began : KeepsRead started t.freeBuffer (t.freeBuffer.startRead blockSize started) := startRead none_
          exact ⟨fun some_ => absurd (aioId ▸ none_) some_,fun _ some_ => began.2 none_ some_⟩
        · exact freed
    · exact keepsSame rfl rfl

theorem stepRead {file : List Byte} {blockSize : Nat} {t t' : SerialFileTransfer.State} {a : SerialFileTransfer.Act}
    (inside : ofCallback a = false) (did : SerialFileTransfer.step file blockSize t a = some t') :
    KeepsRead (Act.transfer a).starts t.transfer t'.transfer := by
  cases SerialFileTransfer.stepped did with
  | call place => exact takeBufferRead t.transfer blockSize _
  | accept place buffer sends packet => exact keepsSame rfl rfl
  | wouldBlock place sends => exact keepsSame rfl rfl
  | sendFails place sends => exact keepsSame rfl rfl
  | finish place ends => exact prefetchRead t.transfer blockSize _ _
  | aioRead read length => cases inside
  | aioFails read => cases inside

theorem callbackRead {blockSize : Nat} {ag ag' : Agent} {fails : Bool}
    (did : ag.handleAioRead blockSize fails = some ag') :
    ag'.aioId = -1 ∧ ag'.transfer.transfer.aioId = none ∧ ag'.handle = ag.handle := by
  unfold Agent.handleAioRead at did
  split at did
  · cases did
    exact ⟨rfl,rfl,rfl⟩
  · obtain ⟨t,stepped,rfl⟩ := Option.map_eq_some_iff.1 did
    refine ⟨rfl,?_,rfl⟩
    cases fails with
    | true =>
      cases SerialFileTransfer.stepped stepped
      rfl
    | false =>
      cases SerialFileTransfer.stepped stepped
      simp only [Transfer.handleAioRead]
      split
      · rfl
      · rfl

section Steps
variable {s s' : State} {a : Nat} {ag : Agent} {blockSize : Nat}

theorem aliveSome (h : OwnsOk s) (owned : a ∈ s.owners) : ∃ ag, s.agents a = some ag :=
  Option.isSome_iff_exists.1 ((h.alive a).2 owned)

theorem ownersNodup (h : OwnsOk s) : (s.owners ++ s.deleted).Nodup :=
  h.once.nodup_iff.2 List.nodup_range

theorem ownsMade (h : OwnsOk s) (owned : a ∈ s.owners) : a < s.made :=
  List.mem_range.1 (h.once.subset (List.mem_append_left _ owned))

/- The agents are changed, none of them made or deleted. -/
theorem ownsSet (h : OwnsOk s) (owned : a ∈ s.owners) (agents : s'.agents = Function.update s.agents a (some ag))
    (owners : s'.owners = s.owners) (deleted : s'.deleted = s.deleted) (made : s'.made = s.made) : OwnsOk s' := by
  refine ⟨by rw [owners,deleted,made]; exact h.once,fun b => ?_⟩
  rw [agents,owners]
  by_cases same : b = a
  · subst b
    rw [Function.update_self]
    exact ⟨fun _ => owned,fun _ => rfl⟩
  · rw [Function.update_of_ne same]
    exact h.alive b

/- What startAio changes. -/
theorem startAioOut (s : State) (a : Nat) (ag : Agent) :
    (s.startAio a ag).outstanding.Perm (⟨s.idItor + 1,ag.handle,a⟩ :: s.outstanding) ∧
      (s.startAio a ag).agents = Function.update s.agents a (some { ag with aioId := s.idItor + 1 }) := by
  refine ⟨?_,rfl⟩
  change List.Perm (s.waiting ++ [(⟨s.idItor + 1,ag.handle,a⟩ : Aio)] ++ s.running) _
  rw [List.append_assoc]
  exact List.perm_middle

theorem startAioIds (h : 0 ≤ s.idItor) : 0 ≤ (s.startAio a ag).idItor := by
  change 0 ≤ if s.idItor + 1 = intMax then 0 else s.idItor + 1
  split
  · exact Int.le_refl 0
  · omega

theorem cancelSublist (s : State) (handle id : Int) :
    (s.cancelAio handle id).2.outstanding.Sublist s.outstanding :=
  List.Sublist.append List.eraseP_sublist (List.Sublist.refl s.running)

/- What close does, and that a transfer it answers 0 for has no read left. -/
theorem closeSpec (h : Inv s) (found : s.agents a = some ag) :
    ∃ canceled waiting, s.close a = some (canceled,{ s with
        agents := Function.update s.agents a (some { ag with cancelPendding := !canceled })
        waiting := waiting }) ∧
      ReadsOk (Function.update s.agents a (some { ag with cancelPendding := !canceled })) (waiting ++ s.running) ∧
      (canceled = true → ∀ r ∈ waiting ++ s.running, r.agent ≠ a) := by
  have idle := h.reads.idle a ag found
  have held := h.reads.held a ag found
  unfold State.close
  rw [found]
  by_cases none_ : ag.aioId = -1
  · refine ⟨true,s.waiting,by simp only [Option.map_some,none_,if_true]; rfl,?_,fun _ => readsNot h.reads found none_⟩
    exact readsSet h.reads (fun r mem same => absurd same (readsNot h.reads found none_ r mem)) idle held
  · refine ⟨(s.cancelAio ag.handle ag.aioId).1,(s.cancelAio ag.handle ag.aioId).2.waiting,
      by simp only [Option.map_some,none_,if_false]; rfl,?_,fun canceled r mem same => ?_⟩
    · have fewer : ReadsOk s.agents ((s.cancelAio ag.handle ag.aioId).2.waiting ++ s.running) :=
        readsSublist h.reads (cancelSublist s ag.handle ag.aioId).subperm
      refine readsSet fewer (fun r mem same => ?_) idle held
      obtain ⟨ag',found',id,handle⟩ := fewer.reads r mem
      rw [same,found] at found'
      cases found'
      exact ⟨id,handle⟩
    · have mem' : r ∈ s.outstanding := (cancelSublist s ag.handle ag.aioId).subset mem
      obtain ⟨ag',found',id,handle⟩ := h.reads.reads r mem'
      rw [same,found] at found'
      cases found'
      have notRunning : r ∉ s.running := by
        intro running
        have some_ : (s.running ++ s.called).any (fun q => q.id == ag.aioId) = true :=
          List.any_eq_true.2 ⟨r,List.mem_append_left _ running,beq_iff_eq.2 id.symm⟩
        change (!(s.running ++ s.called).any fun q => q.id == ag.aioId) = true at canceled
        rw [some_] at canceled
        cases canceled
      -- it was the first that cancel_aio took out
      have left : r ∈ s.waiting.eraseP fun q => q.handle == ag.handle && q.id == ag.aioId :=
        (List.mem_append.1 mem).resolve_right notRunning
      have picked : (r.handle == ag.handle && r.id == ag.aioId) = true := by
        rw [handle,id,beq_self_eq_true,beq_self_eq_true]
        rfl
      have ids : (s.waiting.map (·.id)).Nodup := ((List.sublist_append_left s.waiting s.running).map _).nodup h.reads.ids
      obtain ⟨q,l,rest,before,here,split,erased⟩ := List.exists_of_eraseP
        (p := fun q : Aio => q.handle == ag.handle && q.id == ag.aioId) (List.mem_of_mem_eraseP left) picked
      rw [erased,List.mem_append] at left
      rcases left with front | back
      · exact before r front picked
      · have sameId : q.id = r.id := by
          have := (Bool.and_eq_true_iff.1 here).2
          rw [beq_iff_eq.1 this,id]
        rw [split,List.map_append,List.map_cons] at ids
        have apart := (List.nodup_cons.1 (List.nodup_append.1 ids).2.1).1
        exact apart (List.mem_map.2 ⟨r,back,sameId.symm⟩)

/- An owner goes, and its transfer with it. -/
theorem ownsDelete (h : OwnsOk s) (owners : s.owners.Perm (a :: s'.owners)) (deleted : s'.deleted = a :: s.deleted)
    (made : s'.made = s.made) (gone : s'.agents a = none)
    (others : ∀ b, b ≠ a → (s'.agents b).isSome = (s.agents b).isSome) : OwnsOk s' := by
  have nodup : (a :: s'.owners).Nodup := owners.nodup_iff.1 (List.nodup_append.1 (ownersNodup h)).1
  refine ⟨?_,fun b => ?_⟩
  · rw [deleted,made]
    refine List.Perm.trans ?_ h.once
    exact List.perm_middle.trans (owners.symm.append_right s.deleted)
  · by_cases same : b = a
    · subst b
      rw [gone]
      exact ⟨fun none_ => (nomatch none_),fun mem => absurd mem (List.nodup_cons.1 nodup).1⟩
    · rw [others b same,h.alive b,owners.mem_iff,List.mem_cons]
      exact or_iff_right same

theorem jobSplit {itor : Nat} {j : Job} (found : s.jobs[itor]? = some j) :
    s.jobs.Perm (j :: s.jobs.eraseIdx itor) := by
  obtain ⟨bound,rfl⟩ := List.getElem?_eq_some_iff.1 found
  exact (List.getElem_cons_eraseIdx_perm bound).symm

/- A job in the place of one of the same session and transfer. -/
theorem jobSet {itor : Nat} {j j' : Job} {β : Type} {f : Job → β} (found : s.jobs[itor]? = some j) (same : f j' = f j) :
    (s.jobs.set itor j').map f = s.jobs.map f := by
  obtain ⟨bound,rfl⟩ := List.getElem?_eq_some_iff.1 found
  rw [List.map_set,same]
  refine List.ext_getElem (by simp) fun n h _ => ?_
  by_cases at_ : itor = n
  · subst n
    simp
  · simp [List.getElem_set_ne at_]

/- The jobs keep their sessions, and none of them is opened again. -/
theorem sessionsJobs (h : SessionsOk s) (clients : s'.clients = s.clients) (released : s'.released = s.released)
    (made : s'.made = s.made) (late : s'.late = s.late)
    (serving : ∀ v ∈ s'.serving, ∃ u ∈ s.serving, v.sessionId = u.sessionId ∧ v.agent = u.agent)
    (jobs : (s'.jobs.map (·.sessionId)).Nodup)
    (kept : ∀ j ∈ s'.jobs, ∃ i ∈ s.jobs, j.sessionId = i.sessionId ∧ j.agent = i.agent ∧
      (j.closePending = false → i.closePending = false)) : SessionsOk s' := by
  refine ⟨jobs,by rw [clients]; exact h.clients,by rw [clients]; exact h.requests,fun c mem => ?_,fun b mem => ?_,
    fun v mem => ?_,fun j mem open_ => ?_,fun j mem c mem' same => ?_,late.trans h.late⟩
  · rw [clients] at mem
    rw [made,released]
    exact h.known c mem
  · rw [released] at mem
    rw [made]
    exact h.gone b mem
  · obtain ⟨u,inside,sid,agent⟩ := serving v mem
    rw [clients,sid,agent]
    exact h.serving u inside
  · obtain ⟨i,inside,sid,agent,opened⟩ := kept j mem
    rw [clients,sid,agent]
    exact h.attended i inside (opened open_)
  · obtain ⟨i,inside,sid,agent,-⟩ := kept j mem
    rw [clients] at mem'
    rw [agent]
    exact h.same i inside c mem' (sid.symm.trans same)

theorem keptSelf (jobs : List Job) : ∀ j ∈ jobs, ∃ i ∈ jobs, j.sessionId = i.sessionId ∧ j.agent = i.agent ∧
    (j.closePending = false → i.closePending = false) :=
  fun j mem => ⟨j,mem,rfl,rfl,id⟩

theorem servingSelf (serving : List Serving) :
    ∀ v ∈ serving, ∃ u ∈ serving, v.sessionId = u.sessionId ∧ v.agent = u.agent :=
  fun v mem => ⟨v,mem,rfl,rfl⟩

theorem keptErase (jobs : List Job) (itor : Nat) : ∀ j ∈ jobs.eraseIdx itor, ∃ i ∈ jobs,
    j.sessionId = i.sessionId ∧ j.agent = i.agent ∧ (j.closePending = false → i.closePending = false) :=
  fun j mem => ⟨j,List.mem_of_mem_eraseIdx mem,rfl,rfl,id⟩

theorem eraseSids (h : SessionsOk s) (itor : Nat) : ((s.jobs.eraseIdx itor).map (·.sessionId)).Nodup :=
  ((List.eraseIdx_sublist s.jobs itor).map _).nodup h.jobs

theorem jobOwned {itor : Nat} {j : Job} (found : s.jobs[itor]? = some j) : j.agent ∈ s.owners :=
  List.mem_append_right _ (List.mem_map_of_mem (List.mem_of_getElem? found))

/- A transfer that has no read left is deleted with its job. -/
theorem deleteJob (h : Inv s) {itor : Nat} {j : Job} (found : s.jobs[itor]? = some j) {ag' : Agent} {waiting : List Aio}
    (reads : ReadsOk (Function.update s.agents j.agent (some ag')) (waiting ++ s.running))
    (free : ∀ r ∈ waiting ++ s.running, r.agent ≠ j.agent) :
    State.deleteAgent { s with
        agents := Function.update s.agents j.agent (some ag'), waiting := waiting } j.agent = some { s with
        agents := Function.update (Function.update s.agents j.agent (some ag')) j.agent none
        waiting := waiting
        deleted := j.agent :: s.deleted } ∧
      Inv { s with
        agents := Function.update (Function.update s.agents j.agent (some ag')) j.agent none
        waiting := waiting
        deleted := j.agent :: s.deleted
        jobs := s.jobs.eraseIdx itor } := by
  have off : ∀ b, b ≠ j.agent → Function.update (Function.update s.agents j.agent (some ag')) j.agent none b = s.agents b := by
    intro b other
    rw [Function.update_of_ne other,Function.update_of_ne other]
  refine ⟨by simp only [State.deleteAgent,Function.update_self,Option.map_some],⟨h.ids,?_,?_,?_⟩⟩
  · exact readsUnset reads free
  · refine ownsDelete h.owns ?_ rfl rfl (Function.update_self _ _ _) fun b other => congrArg Option.isSome (off b other)
    change List.Perm (s.serving.map (·.agent) ++ s.jobs.map (·.agent))
      (j.agent :: (s.serving.map (·.agent) ++ (s.jobs.eraseIdx itor).map (·.agent)))
    exact (((jobSplit found).map (·.agent)).append_left _).trans List.perm_middle
  · exact sessionsJobs h.sessions rfl rfl rfl rfl (servingSelf _) (eraseSids h.sessions itor) (keptErase _ _)

theorem closeKept (h : Inv s) {itor : Nat} {j : Job} (found : s.jobs[itor]? = some j) {ag' : Agent} {waiting : List Aio}
    {visiting : Option Nat}
    (reads : ReadsOk (Function.update s.agents j.agent (some ag')) (waiting ++ s.running)) :
    Inv { s with
      agents := Function.update s.agents j.agent (some ag'), waiting := waiting, visiting := visiting } := by
  refine ⟨h.ids,reads,?_,?_⟩
  · exact ownsSet h.owns (jobOwned found) rfl rfl rfl rfl
  · exact sessionsJobs h.sessions rfl rfl rfl rfl (servingSelf _) h.sessions.jobs (keptSelf _)

theorem retryCloseGood (h : Inv s) {itor : Nat} {j : Job} (found : s.jobs[itor]? = some j) :
    Good (retryClose s itor j) := by
  obtain ⟨ag,alive⟩ := aliveSome h.owns (jobOwned found)
  obtain ⟨canceled,waiting,closed,reads,free⟩ := closeSpec h alive
  unfold retryClose
  rw [closed]
  cases canceled with
  | true =>
    obtain ⟨deleted,good⟩ := deleteJob h found reads (free rfl)
    simp only [deleted,Option.map_some]
    exact ⟨_,rfl,good⟩
  | false => exact ⟨_,rfl,closeKept h found reads⟩

theorem completeGood (h : Inv s) {r : Aio} (mem : r ∈ s.running) {fails : Bool} {o : Option State}
    (did : complete blockSize s r fails = some o) : Good o := by
  have inside : r ∈ s.outstanding := List.mem_append_right _ mem
  obtain ⟨ag,alive,id,handle⟩ := h.reads.reads r inside
  have positive := h.reads.positive r inside
  have began : ag.transfer.transfer.aioId ≠ none := fun none_ => by
    have := (h.reads.idle _ ag alive).2 none_
    omega
  have buffer := h.reads.held _ ag alive began
  unfold complete at did
  rw [alive] at did
  have there : ¬ (ag.transfer.transfer.reserveBuffer = none ∨ ag.aioId ≠ r.id) := by
    rintro (none_ | other)
    · unfold Agent.buffer at buffer
      rw [none_] at buffer
      cases buffer
    · exact other id
  simp only [there,if_false] at did
  obtain ⟨ag',called,rfl⟩ := Option.map_eq_some_iff.1 did
  obtain ⟨idle,none_,-⟩ := callbackRead called
  have split : s.outstanding.Perm (r :: (s.waiting ++ s.running.erase r)) :=
    ((List.perm_cons_erase mem).append_left s.waiting).trans List.perm_middle
  have rest : ReadsOk s.agents (s.waiting ++ s.running.erase r) :=
    readsSublist h.reads ((List.sublist_cons_self r _).subperm.trans split.symm.subperm)
  have ids := h.reads.ids
  rw [(split.map (·.id)).nodup_iff,List.map_cons,List.nodup_cons] at ids
  -- no other read is of the same transfer
  have others : ∀ q ∈ s.waiting ++ s.running.erase r, q.agent ≠ r.agent := by
    intro q mem' same
    have one := readsOne h.reads (split.symm.subset (List.mem_cons_of_mem r mem')) inside same
    subst q
    exact ids.1 (List.mem_map_of_mem mem')
  refine ⟨_,rfl,h.ids,?_,?_,?_⟩
  · exact readsSet rest (fun q mem' same => absurd same (others q mem')) ⟨fun _ => none_,fun _ => idle⟩
      fun some_ => absurd none_ some_
  · exact ownsSet h.owns ((h.owns.alive _).1 (by rw [alive]; rfl)) rfl rfl rfl rfl
  · exact sessionsJobs h.sessions rfl rfl rfl rfl (servingSelf _) h.sessions.jobs (keptSelf _)

theorem takeInv (h : Inv s) {r : Aio} (mem : r ∈ s.waiting) :
    Inv { s with waiting := s.waiting.erase r, running := r :: s.running } := by
  have same : (s.waiting.erase r ++ r :: s.running).Perm s.outstanding :=
    List.perm_middle.trans ((List.perm_cons_erase mem).symm.append_right s.running)
  refine ⟨h.ids,readsSublist h.reads same.subperm,⟨h.owns.once,h.owns.alive⟩,?_⟩
  exact sessionsJobs h.sessions rfl rfl rfl rfl (servingSelf _) h.sessions.jobs (keptSelf _)

/- A job whose client is there is no use of one that is gone. -/
theorem touchSame (h : SessionsOk s) {j : Job} (mem : j ∈ s.jobs) (attended : j.closePending = false) :
    s.touch j = s := by
  have known := (h.known _ (h.attended j mem attended)).2
  unfold State.touch
  exact if_neg known

theorem transferGood (h : Inv s) {itor : Nat} {j : Job} (found : s.jobs[itor]? = some j)
    (attended : j.closePending = false) {act : SerialFileTransfer.Act} (notCallback : ofCallback act = false)
    (covered : Covered (some s) (.transfer act)) {o : Option State}
    (did : transferData blockSize s j act = some o) : Good o := by
  have mem := List.mem_of_getElem? found
  have owned := jobOwned found
  obtain ⟨ag,alive⟩ := aliveSome h.owns owned
  unfold transferData at did
  rw [alive] at did
  obtain ⟨t,stepped,rfl⟩ := Option.map_eq_some_iff.1 did
  obtain ⟨kept,began⟩ := stepRead notCallback stepped
  have idle := h.reads.idle _ ag alive
  have asked : s.asks j act = s := by
    cases act with
    | call maxSize started => exact touchSame h.sessions mem attended
    | _ => rfl
  simp only [asked]
  by_cases begins : ag.transfer.transfer.aioId = none ∧ t.transfer.aioId ≠ none
  · rw [if_pos begins]
    obtain ⟨buffer,starts⟩ := began begins.1 begins.2
    obtain ⟨-,fresh,-⟩ := covered s rfl
    obtain ⟨more,agents⟩ := startAioOut s j.agent { ag with transfer := t }
    have others := readsNot h.reads alive (idle.2 begins.1)
    have held : Agent.buffer { ag with transfer := t } = true := buffer
    have id := h.ids
    refine ⟨_,rfl,startAioIds h.ids,?_,?_,?_⟩
    · rw [agents]
      exact readsStart h.reads (fresh starts) (by omega) others begins.2 held more
    · exact ownsSet h.owns owned agents rfl rfl rfl
    · exact sessionsJobs h.sessions rfl rfl rfl rfl (servingSelf _) h.sessions.jobs (keptSelf _)
  · rw [if_neg begins]
    have same : t.transfer.aioId = ag.transfer.transfer.aioId := by
      by_cases none_ : ag.transfer.transfer.aioId = none
      · rw [none_]
        exact not_not.1 fun some_ => begins ⟨none_,some_⟩
      · exact (kept none_).1
    refine ⟨_,rfl,h.ids,?_,?_,?_⟩
    · refine readsSet h.reads (fun r inside same' => ?_) ?_ fun some_ => ?_
      · obtain ⟨ag',alive',id,handle⟩ := h.reads.reads r inside
        rw [same',alive] at alive'
        cases alive'
        exact ⟨id,handle⟩
      · change ag.aioId = -1 ↔ t.transfer.aioId = none
        rw [same]
        exact idle
      · change t.transfer.reserveBuffer.isSome = true
        change t.transfer.aioId ≠ none at some_
        rw [same] at some_
        rw [(kept some_).2]
        exact h.reads.held _ ag alive some_
    · exact ownsSet h.owns owned rfl rfl rfl rfl
    · exact sessionsJobs h.sessions rfl rfl rfl rfl (servingSelf _) h.sessions.jobs (keptSelf _)

theorem ownsPerm (h : OwnsOk s) (owners : s'.owners.Perm s.owners) (deleted : s'.deleted = s.deleted)
    (made : s'.made = s.made) (agents : s'.agents = s.agents) : OwnsOk s' := by
  refine ⟨?_,fun b => ?_⟩
  · rw [deleted,made]
    exact (owners.append_right _).trans h.once
  · rw [agents,owners.mem_iff]
    exact h.alive b

theorem keptSet {itor : Nat} {j j' : Job} (found : s.jobs[itor]? = some j) (sid : j'.sessionId = j.sessionId)
    (agent : j'.agent = j.agent) (opened : j'.closePending = false → j.closePending = false) :
    ∀ i' ∈ s.jobs.set itor j', ∃ i ∈ s.jobs, i'.sessionId = i.sessionId ∧ i'.agent = i.agent ∧
      (i'.closePending = false → i.closePending = false) := by
  intro i' mem
  rcases List.mem_or_eq_of_mem_set mem with inside | rfl
  · exact ⟨i',inside,rfl,rfl,id⟩
  · exact ⟨j,List.mem_of_getElem? found,sid,agent,opened⟩

theorem setSids (h : SessionsOk s) {itor : Nat} {j : Job} (j' : Job) (found : s.jobs[itor]? = some j)
    (sid : j'.sessionId = j.sessionId) : ((s.jobs.set itor j').map (·.sessionId)).Nodup := by
  rw [jobSet found sid]
  exact h.jobs

theorem setOwners {itor : Nat} {j : Job} (j' : Job) (found : s.jobs[itor]? = some j) (agent : j'.agent = j.agent) :
    s.serving.map (·.agent) ++ (s.jobs.set itor j').map (·.agent) = s.owners := by
  rw [jobSet found agent]
  rfl

theorem stopInv (h : Inv s) {itor : Nat} {j : Job} (found : s.jobs[itor]? = some j)
    (attended : j.closePending = false) (result : Int) : Inv (stop s itor j result) := by
  have touched := touchSame h.sessions (List.mem_of_getElem? found) attended
  have same : (if result < 0 ∧ result ≠ -1 then s.touch j else s) = s := by
    split
    · exact touched
    · rfl
  unfold stop
  rw [same]
  refine ⟨h.ids,h.reads,?_,?_⟩
  · exact ownsPerm h.owns (List.Perm.of_eq (setOwners { j with stopped := true } found rfl)) rfl rfl rfl
  · exact sessionsJobs h.sessions rfl rfl rfl rfl (servingSelf _)
      (setSids h.sessions { j with stopped := true } found rfl) (keptSet found rfl rfl id)

theorem respondGood (h : Inv s) {v : Serving} (mem : v ∈ s.serving) {sent : Bool}
    (covered : Covered (some s) (.respond v sent)) : Good (respond s v sent) := by
  have split := List.perm_cons_erase mem
  have owned : v.agent ∈ s.owners := List.mem_append_left _ (List.mem_map_of_mem mem)
  have left : ∀ u ∈ s.serving.erase v, ∃ u' ∈ s.serving, u.sessionId = u'.sessionId ∧ u.agent = u'.agent :=
    fun u inside => ⟨u,List.mem_of_mem_erase inside,rfl,rfl⟩
  have owners : s.owners.Perm (v.agent :: ((s.serving.erase v).map (·.agent) ++ s.jobs.map (·.agent))) :=
    (split.map (·.agent)).append_right _
  cases sent with
  | true =>
    refine ⟨_,rfl,h.ids,h.reads,ownsPerm h.owns owners.symm rfl rfl rfl,?_⟩
    refine sessionsJobs h.sessions rfl rfl rfl rfl (fun u inside => ?_) h.sessions.jobs (keptSelf _)
    rcases List.mem_cons.1 inside with rfl | inside
    · exact ⟨v,mem,rfl,rfl⟩
    · exact left u inside
  | false =>
    obtain ⟨free,-,-⟩ := covered s rfl
    obtain ⟨ag,alive⟩ := aliveSome h.owns owned
    have deleted : respond s v false = some { s with
        serving := s.serving.erase v
        agents := Function.update s.agents v.agent none
        deleted := v.agent :: s.deleted } := by
      simp only [respond,State.deleteAgent,alive,Bool.false_eq_true,if_false,Option.map_some]
    rw [deleted]
    refine ⟨_,rfl,h.ids,readsUnset h.reads (free v.agent rfl),?_,?_⟩
    · exact ownsDelete h.owns owners rfl rfl (Function.update_self _ _ _) fun b other =>
        congrArg Option.isSome (Function.update_of_ne other _ _)
    · exact sessionsJobs h.sessions rfl rfl rfl rfl left h.sessions.jobs (keptSelf _)

theorem pushInv (h : Inv s) {v : Serving} (mem : v ∈ s.serving) : Inv (pushJob s v) := by
  have split := List.perm_cons_erase mem
  have client := h.sessions.serving v mem
  have nodup := (List.nodup_append.1 (ownersNodup h.owns)).1
  -- a job of the same session would own the same transfer
  have fresh : v.sessionId ∉ s.jobs.map (·.sessionId) := by
    intro taken
    obtain ⟨j,inside,same⟩ := List.mem_map.1 taken
    have agent := h.sessions.same j inside _ client same
    exact (List.nodup_append.1 nodup).2.2 _ (List.mem_map_of_mem mem) _ (List.mem_map_of_mem inside) agent.symm
  have owners : List.Perm
      ((s.serving.erase v).map (·.agent) ++ (s.jobs ++ [(⟨v.sessionId,v.agent,false,false⟩ : Job)]).map (·.agent))
      s.owners := by
    rw [List.map_append,← List.append_assoc]
    refine (List.perm_append_singleton v.agent _).trans ?_
    exact ((split.map (·.agent)).append_right _).symm
  refine ⟨h.ids,h.reads,ownsPerm h.owns owners rfl rfl rfl,?_,h.sessions.clients,h.sessions.requests,h.sessions.known,
    h.sessions.gone,fun u inside => h.sessions.serving u (List.mem_of_mem_erase inside),fun j inside open_ => ?_,
    fun j inside c inside' same => ?_,h.sessions.late⟩
  · change ((s.jobs ++ [(⟨v.sessionId,v.agent,false,false⟩ : Job)]).map (·.sessionId)).Nodup
    rw [List.map_append]
    exact List.nodup_append.2 ⟨h.sessions.jobs,List.nodup_singleton _,fun x old y new same => by
      have mine : y = v.sessionId := List.mem_singleton.1 new
      exact fresh (mine ▸ same ▸ old)⟩
  · rcases List.mem_append.1 inside with inside | new
    · exact h.sessions.attended j inside open_
    · cases List.mem_singleton.1 new
      exact client
  · rcases List.mem_append.1 inside with inside | new
    · exact h.sessions.same j inside c inside' same
    · cases List.mem_singleton.1 new
      have one := List.inj_on_of_nodup_map h.sessions.clients client inside' same
      exact congrArg Client.request one

/- The client goes; its job is closed or to be closed. -/
theorem sessionsDisconnect (h : SessionsOk s) {c : Client} (mem : c ∈ s.clients)
    (served : c.request ∉ s.serving.map (·.agent)) (clients : s'.clients = s.clients.erase c)
    (released : s'.released = c.request :: s.released) (serving : s'.serving = s.serving) (made : s'.made = s.made)
    (late : s'.late = s.late) (jobs : (s'.jobs.map (·.sessionId)).Nodup)
    (kept : ∀ j ∈ s'.jobs, ∃ i ∈ s.jobs, j.sessionId = i.sessionId ∧ j.agent = i.agent ∧
      (j.closePending = false → i.closePending = false ∧ i.sessionId ≠ c.sessionId)) : SessionsOk s' := by
  have nodup : s.clients.Nodup := List.Nodup.of_map _ h.clients
  have erased : (s.clients.erase c).Sublist s.clients := List.erase_sublist
  have apart : ∀ d ∈ s.clients.erase c, d ∈ s.clients ∧ d ≠ c := fun d inside =>
    ⟨erased.subset inside,(nodup.mem_erase_iff.1 inside).1⟩
  refine ⟨jobs,by rw [clients]; exact (erased.map _).nodup h.clients,
    by rw [clients]; exact (erased.map _).nodup h.requests,fun d inside => ?_,fun b inside => ?_,fun v inside => ?_,
    fun j inside open_ => ?_,fun j inside d inside' same => ?_,late.trans h.late⟩
  · rw [clients] at inside
    obtain ⟨old,other⟩ := apart d inside
    obtain ⟨older,unreleased⟩ := h.known d old
    rw [made,released]
    refine ⟨older,fun gone => ?_⟩
    rcases List.mem_cons.1 gone with same | gone
    · exact other (List.inj_on_of_nodup_map h.requests old mem same)
    · exact unreleased gone
  · rw [released] at inside
    rw [made]
    rcases List.mem_cons.1 inside with rfl | old
    · exact (h.known c mem).1
    · exact h.gone b old
  · rw [serving] at inside
    rw [clients]
    refine nodup.mem_erase_iff.2 ⟨fun same => ?_,h.serving v inside⟩
    exact served (List.mem_map.2 ⟨v,inside,congrArg Client.request same⟩)
  · obtain ⟨i,old,sid,agent,opened⟩ := kept j inside
    obtain ⟨open',other⟩ := opened open_
    rw [clients,sid,agent]
    exact nodup.mem_erase_iff.2 ⟨fun same => other (congrArg Client.sessionId same),h.attended i old open'⟩
  · obtain ⟨i,old,sid,agent,-⟩ := kept j inside
    rw [clients] at inside'
    rw [agent]
    exact h.same i old d (erased.subset inside') (sid.symm.trans same)

theorem otherJobs (h : SessionsOk s) {itor : Nat} {j : Job} (found : s.jobs[itor]? = some j) :
    ∀ i ∈ s.jobs.eraseIdx itor, i ∈ s.jobs ∧ i.sessionId ≠ j.sessionId := by
  have nodup := ((jobSplit found).map (·.sessionId)).nodup_iff.1 h.jobs
  rw [List.map_cons,List.nodup_cons] at nodup
  exact fun i mem => ⟨List.mem_of_mem_eraseIdx mem,fun same => nodup.1 (same ▸ List.mem_map_of_mem mem)⟩

theorem disconnectGood (h : Inv s) {c : Client} (mem : c ∈ s.clients)
    (served : c.request ∉ s.serving.map (·.agent)) : Good (disconnect s c) := by
  have finds : ∀ j, s.jobs[s.jobs.findIdx (fun j => j.sessionId == c.sessionId)]? = some j →
      j.sessionId = c.sessionId := by
    intro j found
    obtain ⟨bound,rfl⟩ := List.getElem?_eq_some_iff.1 found
    exact beq_iff_eq.1 (List.findIdx_getElem (w := bound))
  have misses : s.jobs[s.jobs.findIdx (fun j => j.sessionId == c.sessionId)]? = none →
      ∀ j ∈ s.jobs, j.sessionId ≠ c.sessionId := by
    intro missing j inside
    have all := List.findIdx_eq_length.1
      (Nat.le_antisymm List.findIdx_le_length (List.getElem?_eq_none_iff.1 missing))
    exact beq_eq_false_iff_ne.1 (all j inside)
  unfold disconnect deleteClient
  dsimp only
  generalize s.jobs.findIdx (fun j => j.sessionId == c.sessionId) = itor at finds misses ⊢
  cases found : s.jobs[itor]? with
  | none =>
    simp only [Option.map_some]
    refine ⟨_,rfl,h.ids,h.reads,⟨h.owns.once,h.owns.alive⟩,?_⟩
    exact sessionsDisconnect h.sessions mem served rfl rfl rfl rfl rfl h.sessions.jobs fun j inside =>
      ⟨j,inside,rfl,rfl,fun attended => ⟨attended,misses found j inside⟩⟩
  | some j =>
    have inside := List.mem_of_getElem? found
    have mine := finds j found
    have agent := h.sessions.same j inside c mem mine
    have others := otherJobs h.sessions found
    rw [mine] at others
    obtain ⟨ag,alive⟩ := aliveSome h.owns (jobOwned found)
    obtain ⟨canceled,waiting,closed,reads,free⟩ := closeSpec h alive
    simp only [closed]
    cases canceled with
    | false =>
      simp only [Option.map_some]
      refine ⟨_,rfl,h.ids,reads,?_,?_⟩
      · exact ownsSet h.owns (jobOwned found) rfl (setOwners { j with closePending := true } found rfl) rfl rfl
      · refine sessionsDisconnect h.sessions mem served rfl rfl rfl rfl rfl
          (setSids h.sessions { j with closePending := true } found rfl) fun i new => ?_
        obtain ⟨bound,-⟩ := List.getElem?_eq_some_iff.1 found
        rcases List.mem_cons.1 ((List.set_perm_cons_eraseIdx bound { j with closePending := true }).subset new) with
          rfl | old
        · exact ⟨j,inside,rfl,rfl,fun attended => (nomatch attended)⟩
        · exact ⟨i,(others i old).1,rfl,rfl,fun attended => ⟨attended,(others i old).2⟩⟩
    | true =>
      obtain ⟨deleted,good⟩ := deleteJob h found reads (free rfl)
      have known : j.agent ∉ s.released := agent ▸ (h.sessions.known c mem).2
      simp only [known,if_false,deleted,Option.map_some]
      refine ⟨_,rfl,good.ids,good.reads,⟨good.owns.once,good.owns.alive⟩,?_⟩
      exact sessionsDisconnect h.sessions mem served rfl rfl rfl rfl rfl (eraseSids h.sessions itor) fun i old =>
        ⟨i,(others i old).1,rfl,rfl,fun attended => ⟨attended,(others i old).2⟩⟩

theorem newAgent (h : Inv s) : s.agents s.made = none ∧ ∀ r ∈ s.outstanding, r.agent ≠ s.made := by
  have none_ : s.agents s.made = none := by
    cases found : s.agents s.made with
    | none => rfl
    | some ag =>
      have := ownsMade h.owns ((h.owns.alive s.made).1 (by rw [found]; rfl))
      omega
  refine ⟨none_,fun r mem same => ?_⟩
  obtain ⟨ag,found,-,-⟩ := h.reads.reads r mem
  rw [same,none_] at found
  cases found

/- The new client, its session fresh. -/
theorem sessionsAsk (h : SessionsOk s) {sessionId : Int} (noClient : sessionId ∉ s.clients.map (·.sessionId))
    (noJob : sessionId ∉ s.jobs.map (·.sessionId)) (clients : s'.clients = ⟨sessionId,s.made⟩ :: s.clients)
    (released : s'.released = s.released) (made : s'.made = s.made + 1) (jobs : s'.jobs = s.jobs)
    (late : s'.late = s.late)
    (serving : ∀ v ∈ s'.serving, v ∈ s.serving ∨ (v.sessionId = sessionId ∧ v.agent = s.made)) : SessionsOk s' := by
  have unmade : s.made ∉ s.clients.map (·.request) := by
    intro mem
    obtain ⟨c,inside,same⟩ := List.mem_map.1 mem
    have := (h.known c inside).1
    change c.request = s.made at same
    omega
  refine ⟨by rw [jobs]; exact h.jobs,by rw [clients]; exact List.nodup_cons.2 ⟨noClient,h.clients⟩,
    by rw [clients]; exact List.nodup_cons.2 ⟨unmade,h.requests⟩,fun c mem => ?_,fun b mem => ?_,fun v mem => ?_,
    fun j mem attended => ?_,fun j mem c mem' same => ?_,late.trans h.late⟩
  · rw [clients] at mem
    rw [made,released]
    rcases List.mem_cons.1 mem with rfl | mem
    · refine ⟨Nat.lt_succ_self _,fun gone => ?_⟩
      have := h.gone _ gone
      change s.made < s.made at this
      omega
    · exact ⟨Nat.lt_succ_of_lt (h.known c mem).1,(h.known c mem).2⟩
  · rw [released] at mem
    rw [made]
    exact Nat.lt_succ_of_lt (h.gone b mem)
  · rw [clients]
    rcases serving v mem with old | ⟨sid,agent⟩
    · exact List.mem_cons_of_mem _ (h.serving v old)
    · rw [sid,agent]
      exact List.mem_cons_self
  · rw [jobs] at mem
    rw [clients]
    exact List.mem_cons_of_mem _ (h.attended j mem attended)
  · rw [jobs] at mem
    rw [clients] at mem'
    rcases List.mem_cons.1 mem' with rfl | old
    · exact absurd (List.mem_map.2 ⟨j,mem,same⟩) noJob
    · exact h.same j mem c old same

/- A transfer is made, and owned by the request. -/
theorem ownsMake (h : OwnsOk s) (owners : s'.owners = s.made :: s.owners) (deleted : s'.deleted = s.deleted)
    (made : s'.made = s.made + 1) (agents : s'.agents = Function.update s.agents s.made (some ag)) : OwnsOk s' := by
  refine ⟨?_,fun b => ?_⟩
  · rw [owners,deleted,made,List.range_succ]
    exact (h.once.cons s.made).trans (List.perm_append_singleton s.made _).symm
  · rw [agents,owners]
    by_cases same : b = s.made
    · subst b
      rw [Function.update_self]
      exact ⟨fun _ => List.mem_cons_self,fun _ => rfl⟩
    · rw [Function.update_of_ne same,h.alive b,List.mem_cons]
      exact (or_iff_right same).symm

theorem requestInv (h : Inv s) {o : Order} {opened started : Bool}
    (covered : Covered (some s) (.request o opened started)) : Inv (request blockSize s o opened started) := by
  obtain ⟨-,fresh,asked⟩ := covered s rfl
  obtain ⟨noClient,noJob⟩ := asked rfl
  obtain ⟨none_,others⟩ := newAgent h
  have old : ∀ v ∈ s.serving, v ∈ s.serving ∨ (v.sessionId = nextSession s.sessionIds ∧ v.agent = s.made) :=
    fun v mem => Or.inl mem
  have new : ∀ v ∈ (⟨nextSession s.sessionIds,s.made,false⟩ : Serving) :: s.serving,
      v ∈ s.serving ∨ (v.sessionId = nextSession s.sessionIds ∧ v.agent = s.made) := by
    intro v mem
    rcases List.mem_cons.1 mem with rfl | mem
    · exact Or.inr ⟨rfl,rfl⟩
    · exact Or.inl mem
  cases opened with
  | false =>
    refine ⟨h.ids,h.reads,⟨?_,h.owns.alive⟩,sessionsAsk h.sessions noClient noJob rfl rfl rfl rfl rfl old⟩
    change List.Perm (s.owners ++ s.made :: s.deleted) (List.range (s.made + 1))
    rw [List.range_succ]
    exact List.perm_middle.trans ((h.owns.once.cons s.made).trans (List.perm_append_singleton s.made _).symm)
  | true =>
    cases started with
    | false =>
      refine ⟨h.ids,?_,ownsMake h.owns rfl rfl rfl rfl,
        sessionsAsk h.sessions noClient noJob rfl rfl rfl rfl rfl new⟩
      exact readsSet h.reads (fun r mem same => absurd same (others r mem)) ⟨fun _ => rfl,fun _ => rfl⟩
        fun some_ => absurd rfl some_
    | true =>
      have id := h.ids
      refine ⟨startAioIds h.ids,?_,ownsMake h.owns rfl rfl rfl rfl,
        sessionsAsk h.sessions noClient noJob rfl rfl rfl rfl rfl new⟩
      have began : (SerialFileTransfer.openTransfer blockSize o.beginPos o.contentLength true).transfer.aioId ≠ none := by
        intro none_
        cases none_
      refine readsStart h.reads (fresh rfl) (by omega) others ?_ ?_ (startAioOut _ s.made
        ⟨SerialFileTransfer.openTransfer blockSize o.beginPos o.contentLength true,o.file,o.handle,-1,false⟩).1
      · exact began
      · rfl

theorem dispatchGood (h : Inv s) {itor : Nat} {j : Job} (found : s.jobs[itor]? = some j) {act : Act}
    (covered : Covered (some s) act) {o : Option State} (did : dispatch blockSize s itor j act = some o) : Good o := by
  cases act with
  | retryClose =>
    simp only [dispatch] at did
    split at did
    · cases did
      exact retryCloseGood h found
    · cases did
  | transfer act =>
    simp only [dispatch] at did
    split at did
    · rename_i may
      exact transferGood h found may.1 may.2.2 covered did
    · cases did
  | stop =>
    simp only [dispatch] at did
    split at did
    · rename_i may
      obtain ⟨ag,alive⟩ := aliveSome h.owns (jobOwned found)
      simp only [alive] at did
      split at did
      · cases did
      · split at did
        · cases did
          exact ⟨_,rfl,stopInv h found may.1 _⟩
        · cases did
    · cases did
  | pass =>
    simp only [dispatch] at did
    split at did
    · cases did
      exact ⟨_,rfl,h.ids,h.reads,⟨h.owns.once,h.owns.alive⟩,
        sessionsJobs h.sessions rfl rfl rfl rfl (servingSelf _) h.sessions.jobs (keptSelf _)⟩
    · cases did
  | _ => cases did

/- Only the iterator or the list of those called back changes. -/
theorem quietInv (h : Inv s) {visiting : Option Nat} {called : List Aio} :
    Inv { s with visiting := visiting, called := called } :=
  ⟨h.ids,h.reads,⟨h.owns.once,h.owns.alive⟩,
    sessionsJobs h.sessions rfl rfl rfl rfl (servingSelf _) h.sessions.jobs (keptSelf _)⟩

theorem jobFound {itor : Nat} {j : Job} (h : s.job = some (itor,j)) : s.jobs[itor]? = some j := by
  obtain ⟨k,-,rest⟩ := Option.bind_eq_some_iff.1 h
  obtain ⟨i,found,same⟩ := Option.map_eq_some_iff.1 rest
  cases same
  exact found

theorem stepGood {o o' : Option State} {act : Act} (good : Good o) (covered : Covered o act)
    (did : step blockSize o act = some o') : Good o' := by
  obtain ⟨s,rfl,h⟩ := good
  have visits : ∀ {act}, Covered (some s) act →
      (s.job.bind fun at_ => dispatch blockSize s at_.1 at_.2 act) = some o' → Good o' := by
    intro act covered did
    obtain ⟨at_,job,did⟩ := Option.bind_eq_some_iff.1 did
    exact dispatchGood h (jobFound job) covered did
  cases act with
  | request order opened started =>
    simp only [step] at did
    split at did
    · cases did
      exact ⟨_,rfl,requestInv h covered⟩
    · cases did
  | respond v sent =>
    simp only [step] at did
    split at did
    · rename_i may
      cases did
      exact respondGood h may.1 covered
    · cases did
  | push v =>
    simp only [step] at did
    split at did
    · rename_i may
      cases did
      exact ⟨_,rfl,pushInv h may.1⟩
    · cases did
  | disconnect c =>
    simp only [step] at did
    split at did
    · rename_i may
      cases did
      exact disconnectGood h may.1 may.2.1
    · cases did
  | tick =>
    simp only [step] at did
    split at did
    · cases did
      exact ⟨_,rfl,quietInv h⟩
    · cases did
  | leave =>
    simp only [step] at did
    split at did
    · cases did
      exact ⟨_,rfl,quietInv h⟩
    · cases did
  | take r =>
    simp only [step] at did
    split at did
    · rename_i mem
      cases did
      exact ⟨_,rfl,takeInv h mem⟩
    · cases did
  | complete r fails =>
    simp only [step] at did
    split at did
    · rename_i mem
      exact completeGood h mem did
    · cases did
  | dequeue r =>
    simp only [step] at did
    split at did
    · cases did
      exact ⟨_,rfl,quietInv h⟩
    · cases did
  | retryClose => exact visits covered did
  | transfer act => exact visits covered did
  | stop => exact visits covered did
  | pass => exact visits covered did

theorem outlivesOfInv (h : Inv s) : Outlives s := by
  refine ⟨fun r mem => ?_,h.owns.once,h.sessions.late⟩
  obtain ⟨ag,found,id,-⟩ := h.reads.reads r mem
  have positive := h.reads.positive r mem
  have owned := (h.owns.alive r.agent).1 (by rw [found]; rfl)
  have began : ag.transfer.transfer.aioId ≠ none := fun none_ => by
    have := (h.reads.idle _ ag found).2 none_
    omega
  refine ⟨fun gone => (List.nodup_append.1 (ownersNodup h.owns)).2.2 _ owned _ gone rfl,?_⟩
  rw [found]
  exact h.reads.held _ ag found began

theorem idleInv : Inv idle := by
  refine ⟨Int.le_refl 0,⟨List.nodup_nil,?_,?_,?_,?_⟩,⟨.nil,fun a => ?_⟩,
    ⟨List.nodup_nil,List.nodup_nil,List.nodup_nil,?_,?_,?_,?_,?_,rfl⟩⟩
  · exact fun r mem => (nomatch mem)
  · exact fun r mem => (nomatch mem)
  · exact fun a ag found => (nomatch found)
  · exact fun a ag found => (nomatch found)
  · exact ⟨fun some_ => (nomatch some_),fun mem => (nomatch mem)⟩
  · exact fun c mem => (nomatch mem)
  · exact fun a mem => (nomatch mem)
  · exact fun v mem => (nomatch mem)
  · exact fun j mem => (nomatch mem)
  · exact fun j mem => (nomatch mem)

end Steps

def twoBytes : Order := ⟨[1,2],3,0,2⟩

/- A client that goes while its read is running: the job is closed once the read is
through. -/
def goesWhileReading : List Act :=
  [.request twoBytes true true,.respond ⟨2,0,false⟩ true,.push ⟨2,0,true⟩,.tick,.transfer (.call 100 true),.pass,
    .leave,.take ⟨1,3,0⟩,.disconnect ⟨2,0⟩,.tick,.retryClose,.leave,.complete ⟨1,3,0⟩ false,.dequeue ⟨1,3,0⟩,.tick,
    .retryClose]

/- The read is called back all the same. -/
example : Lib.run (step 4) (some idle) [.request twoBytes true true,.take ⟨1,3,0⟩,.respond ⟨2,0,false⟩ false,
    .complete ⟨1,3,0⟩ false] = some none := by
  rfl

end CuteNdk.DispatchData
