import CuteNdk.AioQueue

/-! pop_some_request: the first descriptors of queue_list_ go with all of their
requests, linked into one list in that order. -/
namespace CuteNdk.AsynchFileIo
open Lib

/- The sub queue is linked behind itor; its own links are right already. -/
theorem popSubLinks (n : Nat) (io : AsynchFileIo) (itor : Ptr) (node : Option Ptr) (i : Nat) {sub : List Ptr}
    (chain : Seg io.next node sub none) (off : itor ∉ sub) (enough : sub.length < n) :
    popSub n io itor node i = some ((itor :: sub).getLast (List.cons_ne_nil itor sub),i + sub.length,
      { io with next := if sub = [] then io.next else Function.update io.next itor sub.head? }) := by
  induction sub generalizing n io itor node i with
  | nil =>
    obtain ⟨k,rfl⟩ := Nat.exists_eq_succ_of_ne_zero (Nat.ne_of_gt enough)
    rw [show node = none from chain]
    rfl
  | cons s sub ih =>
    obtain ⟨k,rfl⟩ := Nat.exists_eq_succ_of_ne_zero (Nat.ne_of_gt (Nat.zero_lt_of_lt enough))
    obtain ⟨fresh,off⟩ := not_or.mp fun both => off (List.mem_cons.mpr both)
    rw [chain.1]
    simp only [popSub]
    have same : Function.update io.next itor (some s) s = io.next s := Function.update_of_ne (Ne.symm fresh) _ _
    have nodup := segNodup (show Seg io.next node (s :: sub) none from chain)
    have rest := ih k { io with next := Function.update io.next itor (some s) } s (io.next s) (i + 1)
      ((segUpdate off).mpr chain.2) (List.nodup_cons.mp nodup).1 (Nat.lt_of_succ_lt_succ enough)
    rw [same,rest]
    have kept : (if sub = [] then Function.update io.next itor (some s)
        else Function.update (Function.update io.next itor (some s)) s sub.head?) =
          Function.update io.next itor (some s) := by
      split
      · rfl
      · rw [← segHead chain.2,← same]
        exact Function.update_eq_self _ _
    simp only [kept,List.length_cons,List.head?_cons,if_neg (List.cons_ne_nil s sub)]
    rw [show i + 1 + sub.length = i + (sub.length + 1) by omega]
    rfl

/- The loop of pop_some_request: the requests of done are in the list, in their
order, and those of left wait. -/
structure Popping (io₀ : AsynchFileIo) (q : Queues) (done left : List Handle) (io : AsynchFileIo) (l : Popped) :
    Prop where
  split : q.order = done ++ left
  list : l.list = (done.flatMap q.queue).head?
  itor : l.itor = (done.flatMap q.queue).getLast?
  topNode : l.topNode = (left.map q.top).head?
  rest : io = { io₀ with next := io.next, fdPool := io.fdPool }
  next : ∀ a, a ∉ done.flatMap q.queue → io.next a = io₀.next a
  chain : ∃ e, Seg io.next (done.flatMap q.queue).head? (done.flatMap q.queue) e
  pool : ∀ g, io.fdPool g = if g ∈ left then some (q.top g) else none

section Pop
variable {io io₀ : AsynchFileIo} {q : Queues} {role : Ptr → Role} {done left : List Handle} {l : Popped}

theorem poppingStart (w : Waits io₀ q role) : Popping io₀ q [] q.order io₀ ⟨none,none,io₀.queueList⟩ where
  split := rfl
  list := rfl
  itor := rfl
  topNode := (dllEnds w.linked).1
  rest := rfl
  next _ _ := rfl
  chain := ⟨none,rfl⟩
  pool := w.pool

/- The list goes on with the top node and its sub queue. -/
theorem chainGrows {next : Ptr → Option Ptr} {P sub : List Ptr} {top : Ptr} {e : Option Ptr}
    (chain : Seg next P.head? P e) (subChain : Seg next sub.head? sub none) (nodup : (P ++ top :: sub).Nodup) :
    ∃ e', Seg (Function.update (relink next P.getLast? (some top)) top (if sub = [] then relink next P.getLast? (some top) top
      else sub.head?)) (P ++ top :: sub).head? (P ++ top :: sub) e' := by
  obtain ⟨nodupP,nodupSub,across⟩ := List.nodup_append.mp nodup
  obtain ⟨topOff,-⟩ := List.nodup_cons.mp nodupSub
  have topFresh : top ∉ P := fun mem => across top mem top List.mem_cons_self rfl
  have lastOff : ∀ a ∈ sub, P.getLast? ≠ some a := fun a mem last =>
    across a (List.mem_of_getLast? last) a (List.mem_cons_of_mem top mem) rfl
  have back : ∃ e', Seg (Function.update (relink next P.getLast? (some top)) top
      (if sub = [] then relink next P.getLast? (some top) top else sub.head?)) (some top) (top :: sub) e' := by
    cases sub with
    | nil => exact ⟨_,rfl,rfl⟩
    | cons s sub =>
      refine ⟨none,rfl,?_⟩
      rw [if_neg (List.cons_ne_nil s sub),Function.update_self,segUpdate topOff]
      exact (segCongr fun a mem => relinkApart (lastOff a mem)).mpr subChain
  obtain ⟨e',back⟩ := back
  refine ⟨e',?_⟩
  rcases List.eq_nil_or_concat' P with rfl | ⟨P,z,rfl⟩
  · exact back
  · have start : (P ++ [z] ++ top :: sub).head? = (P ++ [z]).head? := by
      cases P <;> rfl
    rw [start,segAppend]
    refine ⟨some top,(segUpdate topFresh).mpr ?_,back⟩
    rw [List.getLast?_concat]
    exact segSetLast chain fun mem => (List.nodup_append.mp nodupP).2.2 z mem z (List.mem_singleton_self z) rfl

theorem linkPoppedLinks {P : List Ptr} (list : l.list = P.head?) (itor : l.itor = P.getLast?) (top : Ptr) :
    io.linkPopped l top = some ((P ++ [top]).head?,{ io with next := relink io.next P.getLast? (some top) }) := by
  unfold linkPopped
  rw [list,itor]
  rcases List.eq_nil_or_concat' P with rfl | ⟨P,z,rfl⟩
  · rfl
  · cases P with
    | nil => rfl
    | cons a P =>
      rw [List.getLast?_concat]
      rfl

theorem popTopsStep (w : Waits io₀ q role) (made : Made io₀ role) {g : Handle} (p : Popping io₀ q done (g :: left) io l)
    {num i : Nat} (below : i < num) :
    ∃ io' l', (∀ n, popTops (n + 1) io num l i = popTops n io' num l' (i + (q.sub g).length + 1)) ∧
      Popping io₀ q (done ++ [g]) left io' l' := by
  have inside : g ∈ q.order := by
    rw [p.split]
    exact List.mem_append_right done List.mem_cons_self
  have own := w.queues g inside
  have top : l.topNode = some (q.top g) := p.topNode
  have nodes : q.nodes = done.flatMap q.queue ++ (q.queue g ++ left.flatMap q.queue) := by
    rw [Queues.nodes,p.split,List.flatMap_append,List.flatMap_cons]
  have nodup := nodesNodup w
  rw [nodes,← List.append_assoc] at nodup
  have nodup₁ := (List.nodup_append.mp nodup).1
  obtain ⟨nodupP,-,across⟩ := List.nodup_append.mp nodup₁
  have fresh : ∀ a ∈ q.queue g, a ∉ done.flatMap q.queue := fun a mem mem' => across a mem' a mem rfl
  have topFresh := fresh (q.top g) List.mem_cons_self
  have notLast : ∀ a ∈ q.queue g, (done.flatMap q.queue).getLast? ≠ some a := fun a mem last =>
    fresh a mem (List.mem_of_getLast? last)
  have handle : (io.opt (q.top g)).handle = g := by
    rw [p.rest]
    exact own.handle (q.top g) List.mem_cons_self
  have size : io.fdPoolSize = io₀.fdPoolSize := by rw [p.rest]
  have slot : io.setSlot g none = some { io with fdPool := Function.update io.fdPool g none } := by
    refine if_pos ?_
    unfold InPool
    rw [size]
    exact own.inPool
  have chain : Seg (relink io.next (done.flatMap q.queue).getLast? (some (q.top g))) (io.header (q.top g)) (q.sub g)
      none := by
    have header : io.header (q.top g) = io₀.header (q.top g) := by rw [p.rest]
    rw [header]
    refine (segCongr fun a mem => ?_).mpr own.chain
    exact (relinkApart (notLast a (List.mem_cons_of_mem _ mem))).trans (p.next a (fresh a (List.mem_cons_of_mem _ mem)))
  have short : (q.sub g).length < io.made + 1 := by
    have same : io.made = io₀.made := by rw [p.rest]
    have len := lengthMade made (queueNodup own) fun a mem => notFresh (queueWaiting own mem)
    rw [List.length_cons,← same] at len
    exact Nat.lt_succ_of_le (Nat.le_of_succ_le len)
  have sub := popSubLinks (io.made + 1) { io with
    fdPool := Function.update io.fdPool g none
    next := relink io.next (done.flatMap q.queue).getLast? (some (q.top g)) } (q.top g) (io.header (q.top g)) i chain
    (topOffSub own) short
  have passed : relink io.next (done.flatMap q.queue).getLast? (some (q.top g)) (q.top g) = (left.map q.top).head? := by
    refine (relinkApart (notLast _ List.mem_cons_self)).trans ((p.next _ topFresh).trans ?_)
    have linked := w.linked
    have tops : q.tops = done.map q.top ++ q.top g :: left.map q.top := by simp [Queues.tops,p.split]
    rw [tops] at linked
    exact (dllNeighbours linked).1
  simp only [popTops,top,if_neg (Nat.not_le.mpr below),handle,slot,bind,Option.bind,linkPoppedLinks p.list p.itor,sub]
  have grown : (done ++ [g]).flatMap q.queue = done.flatMap q.queue ++ q.queue g := by
    rw [List.flatMap_append,List.flatMap_singleton]
  refine ⟨_,_,fun _ => rfl,?_,?_,?_,passed,?_,fun a off => ?_,?_,fun k => ?_⟩
  · rw [p.split,List.append_assoc]
    rfl
  · rw [grown]
    cases done.flatMap q.queue <;> rfl
  · rw [grown,Queues.queue,List.getLast?_append_of_ne_nil _ (List.cons_ne_nil _ _)]
    exact (List.getLast?_eq_some_getLast _).symm
  · rw [p.rest]
  · rw [grown,List.mem_append,not_or] at off
    obtain ⟨offP,offQ⟩ := off
    have far : a ≠ q.top g := fun same => offQ (same ▸ List.mem_cons_self)
    have beyond : (done.flatMap q.queue).getLast? ≠ some a := fun last => offP (List.mem_of_getLast? last)
    have kept : relink io.next (done.flatMap q.queue).getLast? (some (q.top g)) a = io₀.next a :=
      (relinkApart beyond).trans (p.next a offP)
    simp only
    split
    · exact kept
    · exact (Function.update_of_ne far _ _).trans kept
  · obtain ⟨e,soFar⟩ := p.chain
    have subHead := segHead chain
    rw [subHead] at chain
    have subChain : Seg io.next (q.sub g).head? (q.sub g) none :=
      (segCongr fun a mem => (relinkApart (notLast a (List.mem_cons_of_mem _ mem))).symm).mpr chain
    obtain ⟨e',grows⟩ := chainGrows soFar subChain nodup₁
    refine ⟨e',?_⟩
    rw [grown]
    simp only
    by_cases empty : q.sub g = []
    · rw [if_pos empty]
      rw [if_pos empty,Function.update_eq_self] at grows
      exact grows
    · rw [if_neg empty]
      rw [if_neg empty] at grows
      exact grows
  · have distinct := w.distinct
    rw [p.split] at distinct
    have alone := (List.nodup_cons.mp (List.nodup_append.mp distinct).2.1).1
    simp only
    by_cases at_ : k = g
    · subst k
      rw [Function.update_self,if_neg alone]
    · rw [Function.update_of_ne at_,p.pool]
      simp only [List.mem_cons,at_,false_or]

theorem popTopsEnds (w : Waits io₀ q role) (made : Made io₀ role) (p : Popping io₀ q done left io l) (num i : Nat)
    {n : Nat} (enough : left.length < n) :
    ∃ left₁ left₂ io' l', left = left₁ ++ left₂ ∧ popTops n io num l i = some (l',io') ∧
      Popping io₀ q (done ++ left₁) left₂ io' l' ∧ (i < num → left ≠ [] → left₁ ≠ []) := by
  induction left generalizing n io l i done with
  | nil =>
    obtain ⟨k,rfl⟩ := Nat.exists_eq_succ_of_ne_zero (Nat.ne_of_gt enough)
    refine ⟨[],[],io,l,rfl,?_,by rwa [List.append_nil],fun _ some_ => absurd rfl some_⟩
    simp only [popTops,show l.topNode = none from p.topNode]
  | cons g left ih =>
    obtain ⟨k,rfl⟩ := Nat.exists_eq_succ_of_ne_zero (Nat.ne_of_gt (Nat.zero_lt_of_lt enough))
    by_cases below : i < num
    · obtain ⟨io',l',steps,next⟩ := popTopsStep w made p below
      obtain ⟨left₁,left₂,io'',l'',split,ends,popped,-⟩ := ih next _ (Nat.lt_of_succ_lt_succ enough)
      refine ⟨g :: left₁,left₂,io'',l'',by rw [split]; rfl,(steps k).trans ends,?_,fun _ _ => List.cons_ne_nil g left₁⟩
      rwa [List.append_assoc] at popped
    · refine ⟨[],g :: left,io,l,rfl,?_,by rwa [List.append_nil],fun low => absurd low below⟩
      simp only [popTops,show l.topNode = some (q.top g) from p.topNode,if_pos (Nat.not_lt.mp below)]

/- The nodes of l do not wait any more: they are one list, first of the waiting
ones, and the others wait as before. -/
structure Taken (io io' : AsynchFileIo) (q q' : Queues) (role role' : Ptr → Role) (l : List Ptr) (t : Nat) : Prop where
  waits : Waits io' q' role'
  some_ : l ≠ []
  nodes : q.nodes.Perm (l ++ q'.nodes)
  chain : Seg io'.next l.head? l none
  batch : ∀ a ∈ l, role' a = .batch t
  apart : ∀ a, a ∉ l → role' a = role a
  opt : io'.opt = io.opt
  keeps : Keeps (fun a => (role a).Waiting) io io'

theorem popSomeRequestTakes (w : Waits io₀ q role) (made : Made io₀ role) (waiting : io₀.queueList ≠ none)
    {num : Nat} (pos : 0 < num) (t : Nat) :
    ∃ io' q' role' l, io₀.popSomeRequest none num = some (l.head?,io') ∧ Taken io₀ io' q q' role role' l t ∧
      q.Shrinks q' := by
  have short : q.order.length < io₀.made + 1 := by
    have len := lengthMade made (topsNodup w) fun a mem => notFresh (topsWaiting w mem)
    rw [Queues.tops,List.length_map] at len
    exact Nat.lt_succ_of_le len
  obtain ⟨left₁,left₂,io₁,l₁,split,runs,popped,progress⟩ := popTopsEnds w made (poppingStart w) num 0 short
  rw [List.nil_append] at popped
  have full : q.order ≠ [] := by
    intro empty
    rw [topsHead w,Queues.tops,empty] at waiting
    exact waiting rfl
  have taken : left₁ ≠ [] := progress pos full
  obtain ⟨g,left,rfl⟩ := List.exists_cons_of_ne_nil taken
  have tops : q.tops = (g :: left).map q.top ++ left₂.map q.top := by simp [Queues.tops,split]
  have nodes : q.nodes = (g :: left).flatMap q.queue ++ left₂.flatMap q.queue := by
    rw [Queues.nodes,split,List.flatMap_append]
  have nodup := nodesNodup w
  rw [nodes] at nodup
  have apart : ∀ h ∈ left₂, ∀ a ∈ q.queue h, a ∉ (g :: left).flatMap q.queue := fun h inside a mem mem' =>
    (List.nodup_append.mp nodup).2.2 a mem' a (List.mem_flatMap.mpr ⟨h,inside,mem⟩) rfl
  have beyond : ∀ a, a ∉ (g :: left).flatMap q.queue →
      relink io₁.next ((g :: left).flatMap q.queue).getLast? none a = io₀.next a := fun a off =>
    (relinkApart fun last => off (List.mem_of_getLast? last)).trans (popped.next a off)
  have prev : io₁.prev = io₀.prev := by rw [popped.rest]
  have header : io₁.header = io₀.header := by rw [popped.rest]
  have opt : io₁.opt = io₀.opt := by rw [popped.rest]
  have size : io₁.fdPoolSize = io₀.fdPoolSize := by rw [popped.rest]
  have inOrder : ∀ h ∈ left₂, h ∈ q.order := fun h mem => split ▸ List.mem_append_right _ mem
  have inTops : ∀ a ∈ left₂.map q.top, a ∉ (g :: left).flatMap q.queue := by
    intro a mem
    obtain ⟨h,inside,rfl⟩ := List.mem_map.mp mem
    exact apart h inside _ List.mem_cons_self
  have waitsIn : ∀ a ∈ (g :: left).flatMap q.queue, (role a).Waiting := fun a mem =>
    nodesWaiting w (nodes ▸ List.mem_append_left _ mem)
  refine ⟨{ io₁ with
      queueList := (left₂.map q.top).head?
      prev := relink io₁.prev (left₂.map q.top).head? none
      next := relink io₁.next ((g :: left).flatMap q.queue).getLast? none },⟨left₂,q.top,q.sub⟩,
    fun a => if a ∈ (g :: left).flatMap q.queue then .batch t else role a,(g :: left).flatMap q.queue,?_,
    ⟨⟨?_,?_,?_,?_,?_⟩,List.cons_ne_nil _ _,nodes ▸ List.Perm.refl _,?_,fun a mem => if_pos mem,fun a off => if_neg off,
    opt,?_⟩,fun h mem => ⟨inOrder h mem,List.Sublist.refl _⟩⟩
  · simp only [popSomeRequest,runs,bind,Option.bind,popped.list,popped.topNode,popped.itor]
  · have distinct := w.distinct
    rw [split] at distinct
    exact (List.nodup_append.mp distinct).2.1
  · have linked := w.linked
    rw [tops] at linked
    refine dllDropFront linked (fun a mem => beyond a (inTops a mem)) (fun a mem => relinkSelf mem) fun a mem => ?_
    rw [prev]
    exact relinkApart (tailOther (List.nodup_append.mp (dllNodup linked)).2.1 mem)
  · intro h inside
    refine queueFrame (w.queues h (inOrder h inside)) size (fun a mem => ⟨if_neg (apart h inside a mem),congrFun opt a⟩)
      (congrFun header _) fun a mem => beyond a (apart h inside a (List.mem_cons_of_mem _ mem))
  · exact popped.pool
  · have sorted := w.sorted
    rw [split] at sorted
    rw [opt]
    exact (List.pairwise_append.mp sorted).2.1
  · obtain ⟨e,chain⟩ := popped.chain
    obtain ⟨front,z,ends⟩ := (List.eq_nil_or_concat' ((g :: left).flatMap q.queue)).resolve_left (List.cons_ne_nil _ _)
    rw [ends] at chain nodup ⊢
    rw [List.getLast?_concat]
    refine segSetLast chain fun mem => ?_
    exact (List.nodup_append.mp (List.nodup_append.mp nodup).1).2.2 z mem z (List.mem_singleton_self z) rfl
  · have rest := popped.rest
    refine ⟨size,by rw [rest],by rw [rest],by rw [rest],by rw [rest],by rw [rest],by rw [rest],fun a off => ?_,
      fun a off => ?_,fun a _ => congrFun header a,fun a _ => congrFun opt a⟩
    · exact beyond a fun mem => off (waitsIn a mem)
    · rw [prev]
      refine relinkApart fun first => off ?_
      exact topsWaiting w (tops ▸ List.mem_append_right _ (List.mem_of_mem_head? first))

end Pop

end CuteNdk.AsynchFileIo
