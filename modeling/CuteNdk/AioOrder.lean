import CuteNdk.AioScheduled

/-! The order of a descriptor's sub queue: by io_prio_ and, where that is the same, by
offset_. start_aio keeps it but at the two places where it does not look at offset_:
behind the first node of header_, and where the top node becomes that first node. -/
namespace CuteNdk.AsynchFileIo
open Lib

/- a may stand in front of b. -/
def Before (io : AsynchFileIo) (a b : Ptr) : Prop :=
  (io.opt b).ioPrio < (io.opt a).ioPrio ∨
    ((io.opt a).ioPrio = (io.opt b).ioPrio ∧ (io.opt a).offset ≤ (io.opt b).offset)

instance (io : AsynchFileIo) (a b : Ptr) : Decidable (io.Before a b) :=
  inferInstanceAs (Decidable (_ ∨ _))

/- header_ of the top node is in that order and has nothing of a higher io_prio_. -/
def SubSorted (io : AsynchFileIo) (topNode : Ptr) : Prop :=
  ∃ sub, Seg io.next (io.header topNode) sub none ∧ sub.Pairwise io.Before ∧
    ∀ a ∈ sub, (io.opt a).ioPrio ≤ (io.opt topNode).ioPrio

def Ordered (io : AsynchFileIo) : Prop :=
  ∀ handle topNode, io.fdPool handle = some topNode → io.SubSorted topNode

/- What start_aio does not compare is in order: the first node of header_ and the request
that goes behind it, the top node and the first node it is put in front of. -/
def Fits (io : AsynchFileIo) (r : Request) : Prop :=
  ∀ topNode ∈ io.fdPool r.handle, ∀ first ∈ io.header topNode,
    if (io.opt topNode).ioPrio < r.ioPriority then
      (io.opt topNode).ioPrio = (io.opt first).ioPrio → (io.opt topNode).offset ≤ (io.opt first).offset
    else r.ioPriority = (io.opt first).ioPrio → (io.opt first).offset ≤ r.offset

instance (io : AsynchFileIo) (r : Request) : Decidable (io.Fits r) := by
  unfold Fits
  infer_instance

def Op.Fits (s : Tracked) : Op → Prop
  | .link i => ∀ x ∈ s.starting[i]?, s.io.Fits x.2
  | _ => True

instance (s : Tracked) (op : Op) : Decidable (op.Fits s) := by
  unfold Op.Fits
  split <;> infer_instance

/- Fits for a node that is filled in and the requests of its descriptor. -/
def FitsIn (io : AsynchFileIo) (p : Ptr) : List Ptr → Prop
  | top :: first :: _ =>
    if (io.opt top).ioPrio < (io.opt p).ioPrio then
      (io.opt top).ioPrio = (io.opt first).ioPrio → (io.opt top).offset ≤ (io.opt first).offset
    else (io.opt p).ioPrio = (io.opt first).ioPrio → (io.opt first).offset ≤ (io.opt p).offset
  | _ => True

section Order
variable {io io' : AsynchFileIo} {p a b c : Ptr}

theorem beforeTrans (one : io.Before a b) (two : io.Before b c) : io.Before a c := by
  rcases one with higher | ⟨same,offset⟩
  · rcases two with higher' | ⟨same',-⟩
    · exact .inl (Int.lt_trans higher' higher)
    · exact .inl (same' ▸ higher)
  · rcases two with higher' | ⟨same',offset'⟩
    · exact .inl (same ▸ higher')
    · exact .inr ⟨same.trans same',BitVec.le_trans offset offset'⟩

/- The loop goes on past a node that may stand in front, and stops at one it may stand
in front of. -/
theorem keepsBefore (keeps : io.keepsPrio p b = true) : io.Before b p := by
  obtain ⟨low,no⟩ := of_decide_eq_true keeps
  rcases Int.lt_or_eq_of_le low with higher | same
  · exact .inl higher
  · exact .inr ⟨same.symm,BitVec.not_lt.mp fun less => no ⟨same,less⟩⟩

theorem stopsBefore (stops : io.keepsPrio p b = false) : io.Before p b := by
  have no := of_decide_eq_false stops
  rcases Int.lt_trichotomy (io.opt b).ioPrio (io.opt p).ioPrio with higher | same | lower
  · exact .inl higher
  · refine .inr ⟨same.symm,BitVec.not_lt.mp fun less => ?_⟩
    exact no ⟨Int.le_of_eq same.symm,fun both => absurd less (BitVec.not_lt.mpr (BitVec.le_of_lt both.2))⟩
  · refine absurd ⟨Int.le_of_lt lower,fun both => ?_⟩ no
    exact Int.ne_of_lt lower both.1

/- A node goes between two parts of a sorted list when it may stand behind all of the
first and in front of the second one's first. -/
theorem pairwiseInsert (l₁ l₂ : List Ptr) (sorted : (l₁ ++ l₂).Pairwise io.Before) (before : ∀ a ∈ l₁, io.Before a p)
    (after : ∀ b ∈ l₂.head?, io.Before p b) : (l₁ ++ p :: l₂).Pairwise io.Before := by
  obtain ⟨front,back,across⟩ := List.pairwise_append.mp sorted
  have behind : ∀ b ∈ l₂, io.Before p b := by
    cases l₂ with
    | nil => exact fun b mem => absurd mem List.not_mem_nil
    | cons c l₂ =>
      intro b mem
      rcases List.mem_cons.mp mem with rfl | mem
      · exact after b rfl
      · exact beforeTrans (after c rfl) ((List.pairwise_cons.mp back).1 b mem)
  refine List.pairwise_append.mpr ⟨front,List.pairwise_cons.mpr ⟨behind,back⟩,fun a mem b mem' => ?_⟩
  rcases List.mem_cons.mp mem' with rfl | mem'
  · exact before a mem
  · exact across a mem b mem'

/- Where the node joins, the order is kept exactly when what was not compared fits. -/
theorem joinedSorted {l l' : List Ptr} (joined : Joined io p l l') (sorted : l.tail.Pairwise io.Before)
    (prio : l.Pairwise fun a b => (io.opt b).ioPrio ≤ (io.opt a).ioPrio) :
    l'.tail.Pairwise io.Before ↔ FitsIn io p l := by
  cases joined with
  | alone => exact ⟨fun _ => trivial,fun _ => .nil⟩
  | @ahead top sub higher =>
    cases sub with
    | nil => exact ⟨fun _ => trivial,fun _ => List.pairwise_singleton _ _⟩
    | cons first rest =>
      have low := (List.pairwise_cons.mp prio).1 first List.mem_cons_self
      simp only [FitsIn,if_pos higher]
      constructor
      · intro whole same
        rcases (List.pairwise_cons.mp whole).1 first List.mem_cons_self with other | ⟨-,offset⟩
        · exact absurd same.symm (Int.ne_of_lt other)
        · exact offset
      · intro fits
        refine pairwiseInsert [] _ sorted nofun fun b is => ?_
        cases Option.some.inj is
        rcases Int.lt_or_eq_of_le low with other | same
        · exact .inl other
        · exact .inr ⟨same.symm,fits same.symm⟩
  | @front top sub low higher =>
    refine ⟨fun _ => ?_,fun _ => pairwiseInsert [] _ sorted nofun fun b is => .inl (higher b is)⟩
    cases sub with
    | nil => trivial
    | cons first rest =>
      simp only [FitsIn,if_neg (Int.not_lt.mpr low)]
      exact fun same => absurd same.symm (Int.ne_of_lt (higher first rfl))
  | @later top first s₁ s₂ low behind passed stops =>
    simp only [FitsIn,if_neg (Int.not_lt.mpr low)]
    constructor
    · intro whole same
      have mem : p ∈ s₁ ++ p :: s₂ := List.mem_append_right s₁ List.mem_cons_self
      rcases (List.pairwise_cons.mp whole).1 p mem with other | ⟨-,offset⟩
      · exact absurd same (Int.ne_of_lt other)
      · exact offset
    · intro fits
      refine pairwiseInsert (first :: s₁) s₂ sorted (fun a mem => ?_) fun b is => stopsBefore (stops b is)
      rcases List.mem_cons.mp mem with rfl | mem
      · rcases Int.lt_or_eq_of_le behind with other | same
        · exact .inl other
        · exact .inr ⟨same.symm,fits same⟩
      · exact keepsBefore (passed a mem)

end Order

section Queues
variable {io io' : AsynchFileIo} {q q' : Queues} {role role' : Ptr → Role} {p : Ptr} {r : Request}

theorem orderedIff (w : Waits io q role) : Ordered io ↔ ∀ g ∈ q.order, (q.sub g).Pairwise io.Before := by
  constructor
  · intro ordered g inside
    have slot : io.fdPool g = some (q.top g) := (w.pool g).trans (if_pos inside)
    obtain ⟨sub,chain,sorted,-⟩ := ordered g _ slot
    rw [segUnique (w.queues g inside).chain chain]
    exact sorted
  · intro sorted g top slot
    rw [w.pool] at slot
    split at slot
    · rename_i inside
      cases Option.some.inj slot
      have own := w.queues g inside
      exact ⟨q.sub g,own.chain,sorted g inside,(List.pairwise_cons.mp own.prio).1⟩
    · cases slot

theorem pairwiseRanked {l : List Ptr} (ranks : ∀ a ∈ l, (io'.opt a).ioPrio = (io.opt a).ioPrio ∧
    (io'.opt a).offset = (io.opt a).offset) : l.Pairwise io'.Before ↔ l.Pairwise io.Before := by
  refine List.Pairwise.iff_of_mem fun {a b} ha hb => ?_
  simp only [Before,(ranks a ha).1,(ranks a ha).2,(ranks b hb).1,(ranks b hb).2]

/- Taking requests out, or moving the first of header_ up, leaves the others in order. -/
theorem shrinksOrdered (w : Waits io q role) (w' : Waits io' q' role') (shrinks : q.Shrinks q')
    (ranks : ∀ a ∈ q'.nodes, (io'.opt a).ioPrio = (io.opt a).ioPrio ∧ (io'.opt a).offset = (io.opt a).offset)
    (ordered : Ordered io) : Ordered io' := by
  refine (orderedIff w').mpr fun g inside => ?_
  obtain ⟨was,shorter⟩ := shrinks g inside
  have sorted := (orderedIff w).mp ordered g was
  have nodes : ∀ a ∈ q'.sub g, a ∈ q'.nodes := fun a mem =>
    List.mem_flatMap.mpr ⟨g,inside,List.mem_cons_of_mem _ mem⟩
  exact (pairwiseRanked fun a mem => ranks a (nodes a mem)).mpr (sorted.sublist shorter.tail)

/- The requests of r's descriptor, before r is one of them. -/
theorem fitsIff (w : Waits io q role) (blank : Blank io role p) :
    io.Fits r ↔ FitsIn (io.assign p r) p (if r.handle ∈ q.order then q.queue r.handle else []) := by
  have other : ∀ a, (role a).Waiting → (io.assign p r).opt a = io.opt a := fun a waits => by
    refine Function.update_of_ne (fun same => ?_) _ _
    rw [same,blank.role] at waits
    exact waits
  unfold Fits
  rw [w.pool]
  split
  · rename_i inside
    have own := w.queues r.handle inside
    simp only [Option.mem_some,forall_eq',segHead own.chain]
    rw [Queues.queue]
    cases sub : q.sub r.handle with
    | nil => exact ⟨fun _ => trivial,fun _ first none' => absurd none' (Option.not_mem_none first)⟩
    | cons first rest =>
      have firstWaits : (role first).Waiting := queueWaiting own (sub ▸ List.mem_cons_of_mem _ List.mem_cons_self)
      have topIs := other _ (queueWaiting own List.mem_cons_self)
      have filled : ((io.assign p r).opt p).ioPrio = r.ioPriority ∧ ((io.assign p r).opt p).offset = r.offset := by
        simp only [assign,Function.update_self,and_self]
      simp only [List.head?_cons,Option.mem_some,forall_eq',FitsIn,topIs,other first firstWaits,filled]
  · exact ⟨fun _ => trivial,fun _ top none' => absurd none' (Option.not_mem_none top)⟩

/- start_aio leaves every sub queue in order exactly when the request fits its own. -/
theorem joinedOrdered (w : Waits io q role) (w' : Waits io' q' role') (blank : Blank io role p)
    (joined : JoinedAt (io.assign p r) io' q q' p r.handle) (ordered : Ordered io) : Ordered io' ↔ io.Fits r := by
  have other : ∀ g ∈ q.order, ∀ a ∈ q.queue g, (io.assign p r).opt a = io.opt a := fun g inside a mem => by
    refine Function.update_of_ne (fun same => ?_) _ _
    have waits := queueWaiting (w.queues g inside) mem
    rw [same,blank.role] at waits
    exact waits
  have was : ∀ g ∈ q.order, (q.sub g).Pairwise (io.assign p r).Before := fun g inside => by
    refine (pairwiseRanked fun a mem => ?_).mpr ((orderedIff w).mp ordered g inside)
    rw [other g inside a (List.mem_cons_of_mem _ mem)]
    exact ⟨rfl,rfl⟩
  have moved : ∀ l : List Ptr, l.Pairwise io'.Before ↔ l.Pairwise (io.assign p r).Before := fun l =>
    pairwiseRanked fun a _ => joined.ranked a
  have own : (q'.sub r.handle).Pairwise (io.assign p r).Before ↔ io.Fits r := by
    rw [fitsIff w blank]
    refine joinedSorted joined.own ?_ ?_
    · split
      · rename_i inside
        exact was r.handle inside
      · exact .nil
    · split
      · rename_i inside
        refine (w.queues r.handle inside).prio.imp_of_mem fun {a b} ha hb le => ?_
        rw [other _ inside a ha,other _ inside b hb]
        exact le
      · exact .nil
  rw [orderedIff w',← own]
  constructor
  · exact fun all => (moved _).mp (all r.handle joined.inside)
  · intro sorted g inside
    refine (moved _).mpr ?_
    by_cases at_ : g = r.handle
    · rw [at_]
      exact sorted
    · obtain ⟨before,same⟩ := joined.others g inside at_
      rw [(List.cons.inj same).2]
      exact was g before

end Queues

section Fields
variable {io io' : AsynchFileIo} {p : Ptr}

theorem performRanked {result errno : Int} {out : Opcode × Address × AsynchFileIo}
    (runs : io.perform p result errno = some out) : Ranked io out.2.2 := by
  obtain ⟨callback,-,runs⟩ := Option.bind_eq_some_iff.mp runs
  obtain ⟨handler,-,runs⟩ := Option.bind_eq_some_iff.mp runs
  cases Option.some.inj runs
  intro a
  by_cases at_ : a = p
  · rw [at_]
    simp only [Function.update_self]
    split <;> exact ⟨rfl,rfl⟩
  · simp only [Function.update_of_ne at_,and_self]

theorem dequeueOpt (runs : io.dequeueFromRunningList p = some io') : io'.opt = io.opt := by
  obtain ⟨out,unlink,runs⟩ := Option.bind_eq_some_iff.mp runs
  have kept : out.2.opt = io.opt := by
    obtain ⟨first,-,unlink⟩ := Option.bind_eq_some_iff.mp unlink
    split at unlink
    · cases Option.some.inj unlink
      rfl
    · obtain ⟨itor,-,unlink⟩ := Option.bind_eq_some_iff.mp unlink
      obtain ⟨entry,-,unlink⟩ := Option.bind_eq_some_iff.mp unlink
      cases Option.some.inj unlink
      rfl
  dsimp only at runs
  split at runs
  · cases Option.some.inj runs
    exact kept
  · cases Option.some.inj runs
    exact kept

theorem freeAioOptNOpt (runs : io.freeAioOptN p = some io') : io'.opt = io.opt := by
  obtain ⟨out,-,runs⟩ := Option.bind_eq_some_iff.mp runs
  cases Option.some.inj runs
  rfl

end Fields

section Step
variable {s s' : Tracked} {q : Queues} {role : Ptr → Role} {es fs ls : List Ptr} {done rest : Nat → List Ptr}

/- Where the queues are those there were and no waiting node's rank is another. -/
theorem sameOrdered {role' : Ptr → Role} (w : Waits s.io q role) (w' : Waits s'.io q role')
    (ranks : ∀ a ∈ q.nodes, (s'.io.opt a).ioPrio = (s.io.opt a).ioPrio ∧ (s'.io.opt a).offset = (s.io.opt a).offset)
    (ordered : s.io.Ordered) : s'.io.Ordered :=
  shrinksOrdered w w' (fun _ mem => ⟨mem,List.Sublist.refl _⟩) ranks ordered

theorem startOrdered (h : Inv s q role es fs ls done rest) (ordered : s.io.Ordered) (r : Request) :
    (s.start r).io.Ordered := by
  obtain ⟨role',ls',h'⟩ := startInv h r
  refine sameOrdered h.waits h'.waits (fun a mem => ?_) ordered
  unfold Tracked.start
  split
  · cases alloc : s.io.allocAioOpt with
    | none => exact ⟨rfl,rfl⟩
    | some out =>
      obtain ⟨ls'',allocated⟩ := allocAioOptGives h.frees h.running.made alloc
      have other : a ≠ out.1 := fun same => by
        have waits := nodesWaiting h.waits mem
        rw [same] at waits
        rcases allocated.was with was | was <;> rw [was] at waits <;> exact waits
      have kept := (allocated.same a other).opt
      simp only [kept,and_self]
  · exact ⟨rfl,rfl⟩

theorem linkOrdered (h : Inv s q role es fs ls done rest) (ordered : s.io.Ordered) {i : Nat}
    (runs : s.link i = some s') : s'.io.Ordered ↔ Op.Fits s (.link i) := by
  unfold Tracked.link at runs
  cases at_ : s.starting[i]? with
  | none =>
    rw [at_] at runs
    cases Option.some.inj runs
    simp only [Op.Fits,at_]
    exact iff_of_true ordered fun x is => absurd is (Option.not_mem_none x)
  | some x =>
    rw [at_] at runs
    obtain ⟨io',starts,rfl⟩ := Option.map_eq_some_iff.mp runs
    have mem : x ∈ s.starting := List.mem_of_getElem? at_
    have blank := h.starts.blank x mem
    obtain ⟨io'',q',role',starts',linked,joined⟩ := startAioLinks h.waits h.running.made blank (h.starts.inPool x mem)
    cases Option.some.inj (starts.symm.trans starts')
    simp only [Op.Fits,at_,Option.mem_some,forall_eq']
    exact joinedOrdered h.waits linked.waits blank joined ordered

theorem cancelOrdered (h : Inv s q role es fs ls done rest) (ordered : s.io.Ordered) {handle : Handle} {id : Int}
    (runs : s.cancel handle id = some s') : s'.io.Ordered := by
  unfold Tracked.cancel at runs
  split at runs
  · rename_i may
    have inPool : s.io.InPool handle := ⟨Int.le_of_lt may.1,may.2.1⟩
    obtain ⟨out,cancels,rfl⟩ := Option.map_eq_some_iff.mp runs
    obtain ⟨removed,removes,cancels⟩ := Option.bind_eq_some_iff.mp cancels
    obtain ⟨found,-,cancels⟩ := Option.bind_eq_some_iff.mp cancels
    cases Option.some.inj cancels
    rcases removeWaitingUnlinks h.waits h.running.made inPool id with
      ⟨none_,-⟩ | ⟨p,io',q',role',some_,-,unlinked,shrunk⟩
    · cases Option.some.inj (removes.symm.trans none_)
      exact ordered
    · cases Option.some.inj (removes.symm.trans some_)
      exact shrinksOrdered h.waits (unlinkedInv h unlinked).waits shrunk.queues (fun a _ => shrunk.ranked a) ordered
  · cases Option.some.inj runs
    exact ordered

/- Only start_aio can put a sub queue out of order, and does when its request does not fit. -/
theorem stepOrdered (kept : Kept s) (ordered : s.io.Ordered) {op : Op} (runs : step s op = some s') :
    s'.io.Ordered ↔ op.Fits s := by
  obtain ⟨q,role,es,fs,ls,done,rest,h⟩ := kept
  cases op with
  | start r =>
    cases Option.some.inj runs
    exact iff_of_true (startOrdered h ordered r) trivial
  | link i => exact linkOrdered h ordered runs
  | cancel handle id => exact iff_of_true (cancelOrdered h ordered runs) trivial
  | take t =>
    obtain ⟨t',q',role',es',fs',done',rest',runs',h',kept,-,shrinks⟩ := takeInv h t
    cases Option.some.inj (runs.symm.trans runs')
    refine iff_of_true (shrinksOrdered h.waits h'.waits shrinks (fun a mem => ?_) ordered) trivial
    rw [(kept a mem).2]
    exact ⟨rfl,rfl⟩
  | callback t result errno =>
    obtain ⟨t',runs',h'⟩ := callbackInv h t result errno
    cases Option.some.inj (runs.symm.trans runs')
    refine iff_of_true (sameOrdered h.waits h'.waits (fun a _ => ?_) ordered) trivial
    replace runs : s.callback t result errno = some s' := runs
    unfold Tracked.callback at runs
    split at runs
    · obtain ⟨out,does,rfl⟩ := Option.map_eq_some_iff.mp runs
      exact performRanked does a
    · cases Option.some.inj runs
      exact ⟨rfl,rfl⟩
  | dequeue t =>
    obtain ⟨t',role',es',fs',done',rest',runs',h',-⟩ := dequeueInv h t
    cases Option.some.inj (runs.symm.trans runs')
    refine iff_of_true (sameOrdered h.waits h'.waits (fun a _ => ?_) ordered) trivial
    replace runs : s.dequeue t = some s' := runs
    unfold Tracked.dequeue at runs
    split at runs
    · obtain ⟨io',does,rfl⟩ := Option.map_eq_some_iff.mp runs
      rw [show Tracked.io _ = io' from rfl,dequeueOpt does]
      exact ⟨rfl,rfl⟩
    · cases Option.some.inj runs
      exact ⟨rfl,rfl⟩
  | free t =>
    obtain ⟨t',role',ls',done',rest',runs',h',-⟩ := freeInv h t
    cases Option.some.inj (runs.symm.trans runs')
    refine iff_of_true (sameOrdered h.waits h'.waits (fun a _ => ?_) ordered) trivial
    replace runs : s.free t = some s' := runs
    unfold Tracked.free at runs
    split at runs
    · obtain ⟨io',does,rfl⟩ := Option.map_eq_some_iff.mp runs
      rw [show Tracked.io _ = io' from rfl,freeAioOptNOpt does]
      exact ⟨rfl,rfl⟩
    · cases Option.some.inj runs
      exact ⟨rfl,rfl⟩

end Step

/- Whatever order the calls and the threads take, every sub queue is in order all along
exactly when each request fits where it is linked. -/
theorem subQueuesSortedIffFit (maxQueueSize : BitVec 64) (size : Int) (threadNum : Nat) (ops : List Op) :
    Always step (fun s => s.io.Ordered) (.make maxQueueSize size threadNum) ops ↔
      Along step (fun s op => op.Fits s) (.make maxQueueSize size threadNum) ops := by
  have start : Kept (.make maxQueueSize size threadNum) ∧ (Tracked.make maxQueueSize size threadNum).io.Ordered :=
    ⟨startKept maxQueueSize size threadNum,fun _ _ slot => absurd slot.symm (Option.some_ne_none _)⟩
  refine @alwaysIffAlong _ _ step _ (fun s => Kept s ∧ s.io.Ordered) _ ?_ (fun _ both => both.2) ?_ _ start ops
  · intro s op t both fits runs
    obtain ⟨kept,ordered⟩ := both
    obtain ⟨t',runs',kept'⟩ := stepKept kept op
    cases Option.some.inj (runs.symm.trans runs')
    exact ⟨kept',(stepOrdered kept ordered runs).mpr fits⟩
  · intro s op t both misfit runs ordered'
    obtain ⟨kept,ordered⟩ := both
    exact misfit ((stepOrdered kept ordered runs).mp ordered')

/- Of two requests of one io_prio_ behind a top node the second has the lower offset_, and
goes last all the same. -/
theorem lowerOffsetLast : ¬ Always step (fun s => s.io.Ordered) (.make 100 10 1)
    [.start ⟨1,4,0,0,7,.read,0,5⟩,.link 0,.start ⟨1,4,100,0,7,.read,0,3⟩,.link 0,.start ⟨1,4,50,0,7,.read,0,3⟩,
      .link 0] := by
  intro always
  have ordered := alwaysAtEnd always (t := Option.get _ (by decide)) (Option.some_get _).symm
  obtain ⟨sub,chain,sorted,-⟩ := ordered 1 0 (by decide)
  have is : sub = [1,2] := segUnique chain ⟨by decide,by decide,by decide⟩
  rw [is] at sorted
  exact absurd sorted (by decide)

end CuteNdk.AsynchFileIo
