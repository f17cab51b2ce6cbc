import CuteNdk.AsynchFileIo
import Mathlib.Data.List.Nodup
import Mathlib.Data.List.Pairwise
import Mathlib.Data.List.Perm.Subperm
import Mathlib.Tactic.Common

/-! The waiting structure of asynch_file_io: which nodes are top nodes, which are
in the sub queue of a descriptor, and what start_aio, cancel_aio and
pop_some_request make of them. -/
namespace CuteNdk.AsynchFileIo
open Lib

/- What a node is used for. -/
inductive Role where
  | fresh | free | starting | entry | freeEntry
  | top (h : Handle) | sub (h : Handle) | batch (t : Nat)
  deriving DecidableEq, Repr

def Role.Waiting : Role → Prop
  | .top _ => True
  | .sub _ => True
  | _ => False

/- What handle_aio_requests needs of a node. -/
def AioOpt.Ready (o : AioOpt) : Prop := o.opcode ≠ none ∧ o.aioHandler ≠ none

/- The requests of one descriptor: its top node and the sub queue. -/
structure Queue (io : AsynchFileIo) (role : Ptr → Role) (h : Handle) (top : Ptr) (sub : List Ptr) : Prop where
  chain : Seg io.next (io.header top) sub none
  topRole : role top = .top h
  subRole : ∀ a ∈ sub, role a = .sub h
  inPool : io.InPool h
  handle : ∀ a ∈ top :: sub, (io.opt a).handle = h
  ready : ∀ a ∈ top :: sub, (io.opt a).Ready
  prio : (top :: sub).Pairwise fun a b => (io.opt b).ioPrio ≤ (io.opt a).ioPrio

/- The descriptors with waiting requests, in the order of their top nodes. -/
structure Queues where
  order : List Handle
  top : Handle → Ptr
  sub : Handle → List Ptr

namespace Queues

def tops (q : Queues) : List Ptr := q.order.map q.top

def queue (q : Queues) (h : Handle) : List Ptr := q.top h :: q.sub h

def nodes (q : Queues) : List Ptr := q.order.flatMap q.queue

end Queues

structure Waits (io : AsynchFileIo) (q : Queues) (role : Ptr → Role) : Prop where
  distinct : q.order.Nodup
  linked : Dll io.next io.prev io.queueList q.tops.getLast? q.tops
  queues : ∀ h ∈ q.order, Queue io role h (q.top h) (q.sub h)
  pool : ∀ h, io.fdPool h = if h ∈ q.order then some (q.top h) else none
  sorted : q.order.Pairwise fun g h => (io.opt (q.top h)).fdPrio ≤ (io.opt (q.top g)).fdPrio

/- The nodes in use are among those made. -/
def Made (io : AsynchFileIo) (role : Ptr → Role) : Prop := ∀ a, role a ≠ .fresh → a < io.made

/- What an operation on the waiting structure leaves alone: everything but the
links and fields of the nodes in touched. -/
structure Keeps (touched : Ptr → Prop) (io io' : AsynchFileIo) : Prop where
  fdPoolSize : io'.fdPoolSize = io.fdPoolSize
  freeList : io'.freeList = io.freeList
  runningList : io'.runningList = io.runningList
  runningListTail : io'.runningListTail = io.runningListTail
  freeRunningList : io'.freeRunningList = io.freeRunningList
  made : io'.made = io.made
  ptr : io'.ptr = io.ptr
  next : ∀ a, ¬ touched a → io'.next a = io.next a
  prev : ∀ a, ¬ touched a → io'.prev a = io.prev a
  header : ∀ a, ¬ touched a → io'.header a = io.header a
  opt : ∀ a, ¬ touched a → io'.opt a = io.opt a

theorem emptyWaits {io : AsynchFileIo} {role : Ptr → Role} (queue : io.queueList = none)
    (pool : ∀ h, io.fdPool h = none) : Waits io ⟨[],fun _ => 0,fun _ => []⟩ role where
  distinct := List.nodup_nil
  linked := ⟨queue,rfl⟩
  queues := nofun
  pool := pool
  sorted := .nil

section Facts
variable {io io' : AsynchFileIo} {q : Queues} {role role' : Ptr → Role} {h : Handle} {top : Ptr} {sub : List Ptr}

theorem queueWaiting (w : Queue io role h top sub) {a : Ptr} (mem : a ∈ top :: sub) : (role a).Waiting := by
  rcases List.mem_cons.mp mem with rfl | mem
  · rw [w.topRole]
    trivial
  · rw [w.subRole a mem]
    trivial

theorem topOffSub (w : Queue io role h top sub) : top ∉ sub := by
  intro mem
  have role_ := w.subRole top mem
  rw [w.topRole] at role_
  cases role_

theorem queueNodup (w : Queue io role h top sub) : (top :: sub).Nodup :=
  List.nodup_cons.mpr ⟨topOffSub w,segNodup w.chain⟩

/- A queue is as it was when its own nodes are. -/
theorem queueFrame (w : Queue io role h top sub) (size : io'.fdPoolSize = io.fdPoolSize)
    (same : ∀ a ∈ top :: sub, role' a = role a ∧ io'.opt a = io.opt a)
    (header : io'.header top = io.header top) (next : ∀ a ∈ sub, io'.next a = io.next a) :
    Queue io' role' h top sub where
  chain := by
    rw [header,segCongr next]
    exact w.chain
  topRole := (same top List.mem_cons_self).1.trans w.topRole
  subRole a mem := (same a (List.mem_cons_of_mem top mem)).1.trans (w.subRole a mem)
  inPool := by
    unfold InPool
    rw [size]
    exact w.inPool
  handle a mem := by
    rw [(same a mem).2]
    exact w.handle a mem
  ready a mem := by
    rw [(same a mem).2]
    exact w.ready a mem
  prio := by
    refine w.prio.imp_of_mem fun {a b} ha hb le => ?_
    rw [(same a ha).2,(same b hb).2]
    exact le

theorem topsWaiting (w : Waits io q role) {a : Ptr} (mem : a ∈ q.tops) : (role a).Waiting := by
  obtain ⟨h,inside,rfl⟩ := List.mem_map.mp mem
  exact queueWaiting (w.queues h inside) List.mem_cons_self

/- A node is in the queue of one descriptor only. -/
theorem queueApart (w : Waits io q role) {g : Handle} (hg : g ∈ q.order) (hh : h ∈ q.order) {a : Ptr}
    (ing : a ∈ q.queue g) (inh : a ∈ q.queue h) : g = h := by
  rw [← (w.queues g hg).handle a ing,← (w.queues h hh).handle a inh]

theorem subOffTops (w : Waits io q role) (inside : h ∈ q.order) {a : Ptr} (mem : a ∈ q.sub h) : a ∉ q.tops := by
  intro top
  obtain ⟨g,hg,rfl⟩ := List.mem_map.mp top
  have role_ := (w.queues h inside).subRole _ mem
  rw [(w.queues g hg).topRole] at role_
  cases role_

theorem nodesNodup (w : Waits io q role) : q.nodes.Nodup := by
  refine List.nodup_flatMap.mpr ⟨fun h inside => queueNodup (w.queues h inside),?_⟩
  refine List.Pairwise.imp_of_mem ?_ w.distinct
  intro g h hg hh other a ing inh
  exact other (queueApart w hg hh ing inh)

theorem nodesWaiting (w : Waits io q role) {a : Ptr} (mem : a ∈ q.nodes) : (role a).Waiting := by
  obtain ⟨h,inside,at_⟩ := List.mem_flatMap.mp mem
  exact queueWaiting (w.queues h inside) at_

/- A list without repetition has no more nodes than are made. -/
theorem lengthMade (made : Made io role) {l : List Ptr} (nodup : l.Nodup) (used : ∀ a ∈ l, role a ≠ .fresh) :
    l.length ≤ io.made := by
  have inside : l ⊆ List.range io.made := fun a mem => List.mem_range.mpr (made a (used a mem))
  have len := (nodup.subperm inside).length_le
  rwa [List.length_range] at len

theorem notFresh {r : Role} (waiting : r.Waiting) : r ≠ .fresh := by
  rintro rfl
  exact waiting

/- Whatever changes off the waiting nodes, they are as they were. -/
theorem waitsFrame (w : Waits io q role) (queueList : io'.queueList = io.queueList)
    (fdPool : io'.fdPool = io.fdPool) (size : io'.fdPoolSize = io.fdPoolSize)
    (same : ∀ a, (role a).Waiting → role' a = role a ∧ io'.next a = io.next a ∧ io'.prev a = io.prev a ∧
      io'.header a = io.header a ∧ io'.opt a = io.opt a) : Waits io' q role' where
  distinct := w.distinct
  linked := by
    rw [queueList]
    exact dllCongr w.linked (fun a mem => (same a (topsWaiting w mem)).2.1)
      fun a mem => (same a (topsWaiting w mem)).2.2.1
  queues h inside := by
    have own := w.queues h inside
    refine queueFrame own size (fun a mem => ?_) ?_ fun a mem => ?_
    · have all := same a (queueWaiting own mem)
      exact ⟨all.1,all.2.2.2.2⟩
    · exact (same _ (queueWaiting own List.mem_cons_self)).2.2.2.1
    · exact (same a (queueWaiting own (List.mem_cons_of_mem _ mem))).2.1
  pool := by
    rw [fdPool]
    exact w.pool
  sorted := by
    refine w.sorted.imp_of_mem fun {g h} hg hh le => ?_
    rw [(same _ (queueWaiting (w.queues g hg) List.mem_cons_self)).2.2.2.2,
      (same _ (queueWaiting (w.queues h hh) List.mem_cons_self)).2.2.2.2]
    exact le

end Facts

/- z is linked into queue_list_ between the nodes before and after. -/
structure Put (io io' : AsynchFileIo) (before after : List Ptr) (z : Ptr) : Prop where
  toNext : io'.next z = after.head?
  toPrev : io'.prev z = before.getLast?
  fromPrev : ∀ a ∈ before.getLast?, io'.next a = some z
  fromNext : ∀ a ∈ after.head?, io'.prev a = some z
  sameNext : ∀ a, a ∈ before ∨ a ∈ after → before.getLast? ≠ some a → io'.next a = io.next a
  samePrev : ∀ a, a ∈ before ∨ a ∈ after → after.head? ≠ some a → io'.prev a = io.prev a
  queueList : io'.queueList = (before ++ z :: after).head?

/- The queue of h is the node top with the nodes of sub, between those of l₁ and l₂. -/
def Queues.put (q : Queues) (l₁ l₂ : List Handle) (h : Handle) (top : Ptr) (sub : List Ptr) : Queues :=
  ⟨l₁ ++ h :: l₂,Function.update q.top h top,Function.update q.sub h sub⟩

/- Each descriptor left has requests it had, in the order they were in. -/
def Queues.Shrinks (q q' : Queues) : Prop := ∀ g ∈ q'.order, g ∈ q.order ∧ (q'.queue g).Sublist (q.queue g)

/- No node's io_prio_ or offset_ is another. -/
def Ranked (io io' : AsynchFileIo) : Prop :=
  ∀ a, (io'.opt a).ioPrio = (io.opt a).ioPrio ∧ (io'.opt a).offset = (io.opt a).offset

/- The queues other than that of h are as they were. -/
structure Others (io io' : AsynchFileIo) (q : Queues) (role role' : Ptr → Role) (h : Handle) : Prop where
  size : io'.fdPoolSize = io.fdPoolSize
  role : ∀ g ∈ q.order, g ≠ h → ∀ a ∈ q.queue g, role' a = role a
  opt : ∀ g ∈ q.order, g ≠ h → ∀ a ∈ q.queue g, io'.opt a = io.opt a
  header : ∀ g ∈ q.order, g ≠ h → io'.header (q.top g) = io.header (q.top g)
  next : ∀ g ∈ q.order, g ≠ h → ∀ a ∈ q.sub g, io'.next a = io.next a

section Assembly
variable {io io' : AsynchFileIo} {q : Queues} {role role' : Ptr → Role} {h : Handle} {top : Ptr} {sub : List Ptr}
  {l₁ l₂ m : List Handle}

theorem othersQueue (w : Waits io q role) (others : Others io io' q role role' h) {g : Handle} (inside : g ∈ q.order)
    (other : g ≠ h) : Queue io' role' g (q.top g) (q.sub g) :=
  queueFrame (w.queues g inside) others.size
    (fun a mem => ⟨others.role g inside other a mem,others.opt g inside other a mem⟩)
    (others.header g inside other) (others.next g inside other)

theorem mapOff {l : List Handle} (off : h ∉ l) : l.map (Function.update q.top h top) = l.map q.top := by
  refine List.map_congr_left fun g mem => ?_
  have other : g ≠ h := fun same => off (same ▸ mem)
  exact Function.update_of_ne other _ _

theorem putQueue {g : Handle} (other : g ≠ h) : (q.put l₁ l₂ h top sub).queue g = q.queue g := by
  simp only [Queues.queue,Queues.put,Function.update_of_ne other]

/- fd_prio_ is no part of a node's rank. -/
theorem fdPrioRanked (io : AsynchFileIo) (p : Ptr) (fdPrio : Int) (a : Ptr) :
    (Function.update io.opt p { io.opt p with fdPrio := fdPrio } a).ioPrio = (io.opt a).ioPrio ∧
      (Function.update io.opt p { io.opt p with fdPrio := fdPrio } a).offset = (io.opt a).offset := by
  by_cases at_ : a = p
  · rw [at_,Function.update_self]
    exact ⟨rfl,rfl⟩
  · rw [Function.update_of_ne at_]
    exact ⟨rfl,rfl⟩

theorem putOwn : (q.put l₁ l₂ h top sub).queue h = top :: sub := by
  simp only [Queues.queue,Queues.put,Function.update_self]

/- The queues of the others are those there were. -/
theorem putOthers (split : q.order = l₁ ++ (m ++ l₂)) {g : Handle} (mem : g ∈ (q.put l₁ l₂ h top sub).order)
    (other : g ≠ h) : g ∈ q.order ∧ (q.put l₁ l₂ h top sub).queue g = q.queue g := by
  refine ⟨?_,putQueue other⟩
  rw [split]
  rcases List.mem_append.mp mem with mem | mem
  · exact List.mem_append_left _ mem
  · have later := (List.mem_cons.mp mem).resolve_left other
    exact List.mem_append_right l₁ (List.mem_append_right m later)

theorem flatMapOff {l : List Handle} (off : h ∉ l) :
    l.flatMap (q.put l₁ l₂ h top sub).queue = l.flatMap q.queue := by
  apply List.flatMap_congr
  intro g mem
  have other : g ≠ h := fun same => off (same ▸ mem)
  exact putQueue other

/- One descriptor's queue is new or changed: what is left to show about it and its
place is what is left to show about all of them. -/
theorem waitsPut (w : Waits io q role) (split : q.order = l₁ ++ (m ++ l₂)) (own : ∀ g ∈ m, g = h)
    (off₁ : h ∉ l₁) (off₂ : h ∉ l₂) (put : Put io io' (l₁.map q.top) (l₂.map q.top) top)
    (pool : io'.fdPool = Function.update io.fdPool h (some top)) (others : Others io io' q role role' h)
    (queue : Queue io' role' h top sub)
    (sortedBefore : ∀ g ∈ l₁, (io'.opt top).fdPrio ≤ (io.opt (q.top g)).fdPrio)
    (sortedAfter : ∀ g ∈ l₂, (io.opt (q.top g)).fdPrio ≤ (io'.opt top).fdPrio) :
    Waits io' (q.put l₁ l₂ h top sub) role' := by
  have kept : ∀ g, g ∈ l₁ ∨ g ∈ l₂ → g ∈ q.order ∧ g ≠ h := by
    intro g mem
    rw [split,List.mem_append,List.mem_append]
    rcases mem with mem | mem
    · exact ⟨.inl mem,fun same => off₁ (same ▸ mem)⟩
    · exact ⟨.inr (.inr mem),fun same => off₂ (same ▸ mem)⟩
  have members : ∀ g, g ≠ h → (g ∈ l₁ ++ h :: l₂ ↔ g ∈ q.order) := by
    intro g other
    rw [split,List.mem_append,List.mem_append,List.mem_append,List.mem_cons]
    constructor
    · rintro (mem | rfl | mem)
      · exact .inl mem
      · exact absurd rfl other
      · exact .inr (.inr mem)
    · rintro (mem | mem | mem)
      · exact .inl mem
      · exact absurd (own g mem) other
      · exact .inr (.inr mem)
  have tops : (q.put l₁ l₂ h top sub).tops = l₁.map q.top ++ top :: l₂.map q.top := by
    simp only [Queues.tops,Queues.put,List.map_append,List.map_cons,Function.update_self,mapOff off₁,mapOff off₂]
  have distinct := w.distinct
  have sorted := w.sorted
  rw [split] at distinct sorted
  refine ⟨?_,?_,fun g mem => ?_,fun g => ?_,?_⟩
  · refine List.nodup_append.mpr ⟨(List.nodup_append.mp distinct).1,List.nodup_cons.mpr ⟨off₂,?_⟩,?_⟩
    · exact (List.nodup_append.mp (List.nodup_append.mp distinct).2.1).2.1
    · intro a mem b mem' same
      subst b
      rcases List.mem_cons.mp mem' with rfl | mem'
      · exact off₁ mem
      · exact apartOfNodup distinct mem mem'
  · have linked := w.linked
    rw [show q.tops = l₁.map q.top ++ (m.map q.top ++ l₂.map q.top) by simp [Queues.tops,split]] at linked
    rw [tops,put.queueList]
    exact dllPut linked put.toNext put.toPrev put.fromPrev put.fromNext put.sameNext put.samePrev
  · by_cases at_ : g = h
    · subst g
      simp only [Queues.put,Function.update_self]
      exact queue
    · simp only [Queues.put,Function.update_of_ne at_]
      exact othersQueue w others ((members g at_).mp mem) at_
  · rw [pool]
    by_cases at_ : g = h
    · subst g
      simp only [Queues.put,Function.update_self]
      exact (if_pos (List.mem_append_right l₁ List.mem_cons_self)).symm
    · rw [Function.update_of_ne at_,w.pool]
      simp only [Queues.put,members g at_,Function.update_of_ne at_]
  · have here : ∀ g, g ∈ l₁ ∨ g ∈ l₂ → (io'.opt ((q.put l₁ l₂ h top sub).top g)) = io.opt (q.top g) := by
      intro g mem
      obtain ⟨inside,other⟩ := kept g mem
      simp only [Queues.put,Function.update_of_ne other]
      exact others.opt g inside other _ List.mem_cons_self
    have self : (q.put l₁ l₂ h top sub).top h = top := Function.update_self _ _ _
    obtain ⟨before,later,across⟩ := List.pairwise_append.mp sorted
    obtain ⟨-,after,-⟩ := List.pairwise_append.mp later
    refine List.pairwise_append.mpr ⟨?_,List.pairwise_cons.mpr ⟨fun g mem => ?_,?_⟩,fun g mem k mem' => ?_⟩
    · refine before.imp_of_mem fun {g k} hg hk le => ?_
      rw [here g (.inl hg),here k (.inl hk)]
      exact le
    · rw [here g (.inr mem),self]
      exact sortedAfter g mem
    · refine after.imp_of_mem fun {g k} hg hk le => ?_
      rw [here g (.inr hg),here k (.inr hk)]
      exact le
    · rw [here g (.inl mem)]
      rcases List.mem_cons.mp mem' with rfl | mem'
      · rw [self]
        exact sortedBefore g mem
      · rw [here k (.inr mem')]
        exact across g mem k (List.mem_append_right m mem')

/- The nodes before and after are those of the one queue and the others. -/
theorem putNodes (top : Ptr) (sub : List Ptr) (split : q.order = l₁ ++ (m ++ l₂)) (off₁ : h ∉ l₁) (off₂ : h ∉ l₂) :
    (q.put l₁ l₂ h top sub).nodes.Perm ((top :: sub) ++ (l₁.flatMap q.queue ++ l₂.flatMap q.queue)) ∧
      q.nodes.Perm (m.flatMap q.queue ++ (l₁.flatMap q.queue ++ l₂.flatMap q.queue)) := by
  constructor
  · have own : (q.put l₁ l₂ h top sub).queue h = top :: sub := putOwn
    have all : (q.put l₁ l₂ h top sub).nodes =
        l₁.flatMap q.queue ++ ((top :: sub) ++ l₂.flatMap q.queue) := by
      rw [Queues.nodes,show (q.put l₁ l₂ h top sub).order = l₁ ++ h :: l₂ from rfl,List.flatMap_append,
        List.flatMap_cons,own,flatMapOff off₁,flatMapOff off₂]
    rw [all]
    exact List.perm_append_comm_assoc _ _ _
  · rw [Queues.nodes,split,List.flatMap_append,List.flatMap_append]
    exact List.perm_append_comm_assoc _ _ _

theorem topsHead (w : Waits io q role) : io.queueList = q.tops.head? := (dllEnds w.linked).1

theorem topsNodup (w : Waits io q role) : q.tops.Nodup := dllNodup w.linked

end Assembly

/- The place of a descriptor in queue_list_. -/
structure Around (io : AsynchFileIo) (q : Queues) (h : Handle) (l₁ l₂ : List Handle) : Prop where
  split : q.order = l₁ ++ ([h] ++ l₂)
  off₁ : h ∉ l₁
  off₂ : h ∉ l₂
  next : io.next (q.top h) = (l₂.map q.top).head?
  prev : io.prev (q.top h) = (l₁.map q.top).getLast?
  before : ∀ a ∈ l₁.map q.top, a ∈ q.tops ∧ a ≠ q.top h
  after : ∀ a ∈ l₂.map q.top, a ∈ q.tops ∧ a ≠ q.top h
  higher : ∀ g ∈ l₁, (io.opt (q.top h)).fdPrio ≤ (io.opt (q.top g)).fdPrio
  lower : ∀ g ∈ l₂, (io.opt (q.top g)).fdPrio ≤ (io.opt (q.top h)).fdPrio

section Place
variable {io : AsynchFileIo} {q : Queues} {role : Ptr → Role} {h : Handle} {l₁ l₂ : List Handle}

theorem aroundTop (w : Waits io q role) (inside : h ∈ q.order) : ∃ l₁ l₂, Around io q h l₁ l₂ := by
  obtain ⟨l₁,l₂,split⟩ := List.append_of_mem inside
  have distinct := w.distinct
  have sorted := w.sorted
  have linked := w.linked
  have tops : q.tops = l₁.map q.top ++ q.top h :: l₂.map q.top := by simp [Queues.tops,split]
  have nodup := topsNodup w
  rw [tops] at linked nodup
  rw [split] at distinct sorted
  obtain ⟨-,later,across⟩ := List.pairwise_append.mp sorted
  obtain ⟨next,prev⟩ := dllNeighbours linked
  obtain ⟨-,nodup₂,cross⟩ := List.nodup_append.mp nodup
  refine ⟨l₁,l₂,split,?_,?_,next,prev,fun a mem => ⟨?_,?_⟩,fun a mem => ⟨?_,?_⟩,fun g mem => ?_,fun g mem => ?_⟩
  · exact fun mem => (List.nodup_append.mp distinct).2.2 h mem h List.mem_cons_self rfl
  · exact (List.nodup_cons.mp (List.nodup_append.mp distinct).2.1).1
  · rw [tops]
    exact List.mem_append_left _ mem
  · exact cross a mem _ List.mem_cons_self
  · rw [tops]
    exact List.mem_append_right _ (List.mem_cons_of_mem _ mem)
  · rintro rfl
    exact (List.nodup_cons.mp nodup₂).1 mem
  · exact across g mem h List.mem_cons_self
  · exact (List.pairwise_cons.mp later).1 g mem

/- Where queue_list_ points when another node takes the top node's place. -/
theorem aroundHead (w : Waits io q role) (around : Around io q h l₁ l₂) (z : Ptr) :
    (if io.queueList = some (q.top h) then some z else io.queueList) = (l₁.map q.top ++ z :: l₂.map q.top).head? := by
  rw [topsHead w,Queues.tops,around.split]
  cases l₁ with
  | nil => exact if_pos rfl
  | cons g l₁ =>
    have other : q.top g ≠ q.top h := (around.before (q.top g) List.mem_cons_self).2
    have first : ((g :: l₁ ++ ([h] ++ l₂)).map q.top).head? = some (q.top g) := rfl
    rw [first,if_neg fun same => other (Option.some.inj same)]
    rfl

theorem aroundPut (w : Waits io q role) (around : Around io q h l₁ l₂) :
    Put io io (l₁.map q.top) (l₂.map q.top) (q.top h) := by
  have linked := w.linked
  have tops : q.tops = l₁.map q.top ++ q.top h :: l₂.map q.top := by simp [Queues.tops,around.split]
  rw [tops] at linked
  refine ⟨around.next,around.prev,fun a mem => ?_,fun a mem => ?_,fun _ _ _ => rfl,fun _ _ _ => rfl,(dllEnds linked).1⟩
  · obtain ⟨front,at_⟩ := List.getLast?_eq_some_iff.1 (show (l₁.map q.top).getLast? = some a from mem)
    rw [at_,List.append_assoc] at linked
    exact (dllNeighbours linked).1
  · obtain ⟨back,at_⟩ := List.head?_eq_some_iff.1 (show (l₂.map q.top).head? = some a from mem)
    rw [at_,← List.singleton_append,← List.append_assoc] at linked
    exact (dllNeighbours linked).2.trans List.getLast?_concat

/- A change below the top node. -/
theorem waitsSub {io' : AsynchFileIo} {role' : Ptr → Role} {sub : List Ptr} (w : Waits io q role)
    (around : Around io q h l₁ l₂) (queueList : io'.queueList = io.queueList) (fdPool : io'.fdPool = io.fdPool)
    (next : ∀ a ∈ q.tops, io'.next a = io.next a) (prev : ∀ a ∈ q.tops, io'.prev a = io.prev a)
    (opt : io'.opt (q.top h) = io.opt (q.top h)) (others : Others io io' q role role' h)
    (queue : Queue io' role' h (q.top h) sub) : Waits io' (q.put l₁ l₂ h (q.top h) sub) role' := by
  have put := aroundPut w around
  have inside : h ∈ q.order := by
    rw [around.split]
    exact List.mem_append_right l₁ List.mem_cons_self
  have top : q.top h ∈ q.tops := List.mem_map_of_mem inside
  have held : io.fdPool h = some (q.top h) := (w.pool h).trans (if_pos inside)
  refine waitsPut w around.split (fun g mem => List.mem_singleton.mp mem) around.off₁ around.off₂ ?_ ?_ others queue
    (opt ▸ around.higher) (opt ▸ around.lower)
  · refine ⟨(next _ top).trans put.toNext,(prev _ top).trans put.toPrev,fun a mem => ?_,fun a mem => ?_,
      fun a mem _ => ?_,fun a mem _ => ?_,queueList.trans put.queueList⟩
    · exact (next a (around.before a (List.mem_of_getLast? mem)).1).trans (put.fromPrev a mem)
    · exact (prev a (around.after a (List.mem_of_mem_head? mem)).1).trans (put.fromNext a mem)
    · exact next a (mem.elim (fun mem => (around.before a mem).1) fun mem => (around.after a mem).1)
    · exact prev a (mem.elim (fun mem => (around.before a mem).1) fun mem => (around.after a mem).1)
  · rw [← held,Function.update_eq_self]
    exact fdPool

end Place

end CuteNdk.AsynchFileIo
