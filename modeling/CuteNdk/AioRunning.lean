import CuteNdk.AioQueue

/-! The running list of asynch_file_io: an entry for each request that is taken and
not done, in nodes of their own that nothing else of the component touches. -/
namespace CuteNdk.AsynchFileIo
open Lib

/- The nodes the running list is made of, and those it can be given. -/
def Role.Entry : Role → Prop
  | .fresh => True
  | .entry => True
  | .freeEntry => True
  | _ => False

structure Running (io : AsynchFileIo) (role : Ptr → Role) (es fs : List Ptr) : Prop where
  chain : Seg io.next io.runningList es none
  tail : io.runningListTail = es.getLast?
  entry : ∀ e ∈ es, role e = .entry
  free : Seg io.next io.freeRunningList fs none
  freeEntry : ∀ e ∈ fs, role e = .freeEntry
  made : Made io role

/- Nothing but entries changes. -/
structure Aside (io io' : AsynchFileIo) (role role' : Ptr → Role) : Prop where
  fdPoolSize : io'.fdPoolSize = io.fdPoolSize
  fdPool : io'.fdPool = io.fdPool
  queueList : io'.queueList = io.queueList
  freeList : io'.freeList = io.freeList
  entry : ∀ a, (role a).Entry → (role' a).Entry
  apart : ∀ a, ¬ (role a).Entry → role' a = role a
  next : ∀ a, ¬ (role a).Entry → io'.next a = io.next a
  prev : ∀ a, ¬ (role a).Entry → io'.prev a = io.prev a
  header : ∀ a, ¬ (role a).Entry → io'.header a = io.header a
  opt : ∀ a, ¬ (role a).Entry → io'.opt a = io.opt a

section Entries
variable {io io' io'' : AsynchFileIo} {role role' role'' : Ptr → Role} {es fs : List Ptr} {p : Ptr}

theorem asideTrans (one : Aside io io' role role') (two : Aside io' io'' role' role'') : Aside io io'' role role'' where
  fdPoolSize := two.fdPoolSize.trans one.fdPoolSize
  fdPool := two.fdPool.trans one.fdPool
  queueList := two.queueList.trans one.queueList
  freeList := two.freeList.trans one.freeList
  entry a is := two.entry a (one.entry a is)
  apart a off := (two.apart a (one.apart a off ▸ off)).trans (one.apart a off)
  next a off := (two.next a (one.apart a off ▸ off)).trans (one.next a off)
  prev a off := (two.prev a (one.apart a off ▸ off)).trans (one.prev a off)
  header a off := (two.header a (one.apart a off ▸ off)).trans (one.header a off)
  opt a off := (two.opt a (one.apart a off ▸ off)).trans (one.opt a off)

/- One entry for p, off both lists and not linked yet. -/
structure Fresh (io io' : AsynchFileIo) (role : Ptr → Role) (es fs : List Ptr) (p e : Ptr) : Prop where
  aside : Aside io io' role (Function.update role e .entry)
  off : e ∉ es
  notEntry : role e ≠ .entry
  running : Running io' (Function.update role e .entry) es fs
  next : io'.next e = none
  holds : io'.ptr e = some p
  kept : ∀ a, a ≠ e → io'.ptr a = io.ptr a

theorem allocEntryFresh (r : Running io role es fs) (p : Ptr) :
    ∃ fs', Fresh io (io.allocEntry p).2 role es fs' p (io.allocEntry p).1 := by
  unfold allocEntry allocAioOptI
  cases list : io.freeRunningList with
  | none =>
    have isFresh : role io.made = .fresh := by
      by_contra used
      exact Nat.lt_irrefl _ (r.made _ used)
    have off : io.made ∉ es := fun mem => by
      have is := r.entry _ mem
      rw [isFresh] at is
      cases is
    have others : ∀ a, ¬ (role a).Entry → a ≠ io.made := fun a not same => not (by rw [same,isFresh]; trivial)
    refine ⟨[],⟨rfl,rfl,rfl,rfl,fun a is => ?_,fun a not => Function.update_of_ne (others a not) _ _,
      fun a not => Function.update_of_ne (others a not) _ _,fun a not => Function.update_of_ne (others a not) _ _,
      fun a not => Function.update_of_ne (others a not) _ _,fun a not => Function.update_of_ne (others a not) _ _⟩,off,
      by rw [isFresh]; nofun,⟨(segUpdate off).mpr r.chain,r.tail,fun e mem => ?_,rfl,nofun,fun a used => ?_⟩,
      Function.update_self _ _ _,Function.update_self _ _ _,fun a other => ?_⟩
    · by_cases same : a = io.made
      · rw [same,Function.update_self]
        trivial
      · rwa [Function.update_of_ne same]
    · have other : e ≠ io.made := fun same => off (same ▸ mem)
      rw [Function.update_of_ne other]
      exact r.entry e mem
    · by_cases same : a = io.made
      · rw [same]
        exact Nat.lt_succ_self _
      · rw [Function.update_of_ne same] at used
        exact Nat.lt_succ_of_lt (r.made a used)
    · exact (Function.update_of_ne other _ _).trans (Function.update_of_ne other _ _)
  | some e =>
    have free := r.free
    obtain ⟨fs',rfl⟩ := List.head?_eq_some_iff.1 ((segHead free).symm.trans list)
    have isFree := r.freeEntry e List.mem_cons_self
    have nodup := segNodup free
    have offFree := (List.nodup_cons.mp nodup).1
    have off : e ∉ es := fun mem => by
      have is := r.entry _ mem
      rw [isFree] at is
      cases is
    have others : ∀ a, ¬ (role a).Entry → a ≠ e := fun a not same => not (by rw [same,isFree]; trivial)
    refine ⟨fs',⟨rfl,rfl,rfl,rfl,fun a is => ?_,fun a not => Function.update_of_ne (others a not) _ _,
      fun a not => Function.update_of_ne (others a not) _ _,fun a not => Function.update_of_ne (others a not) _ _,
      fun a not => Function.update_of_ne (others a not) _ _,fun a not => Function.update_of_ne (others a not) _ _⟩,off,
      by rw [isFree]; nofun,⟨(segUpdate off).mpr r.chain,r.tail,fun b mem => ?_,(segUpdate offFree).mpr free.2,
        fun b mem => ?_,fun a used => ?_⟩,
      Function.update_self _ _ _,Function.update_self _ _ _,fun a other => ?_⟩
    · by_cases same : a = e
      · rw [same,Function.update_self]
        trivial
      · rwa [Function.update_of_ne same]
    · have other : b ≠ e := fun same => off (same ▸ mem)
      rw [Function.update_of_ne other]
      exact r.entry b mem
    · have other : b ≠ e := fun same => offFree (same ▸ mem)
      rw [Function.update_of_ne other]
      exact r.freeEntry b (List.mem_cons_of_mem e mem)
    · by_cases same : a = e
      · rw [same]
        exact r.made e (by rw [isFree]; nofun)
      · rw [Function.update_of_ne same] at used
        exact r.made a used
    · exact (Function.update_of_ne other _ _).trans (Function.update_of_ne other _ _)

/- The entries added stand for the requests of l, and the older ones for what they
did. -/
structure Enqueued (io io' : AsynchFileIo) (role role' : Ptr → Role) (es es' fs : List Ptr) (l : List Ptr) : Prop where
  running : Running io' role' (es ++ es') fs
  holds : es'.map io'.ptr = l.map some
  kept : ∀ e ∈ es, io'.ptr e = io.ptr e
  aside : Aside io io' role role'

theorem enqueueOne (r : Running io role es fs) (some_ : es ≠ []) (p : Ptr) :
    ∃ io' role' e fs', (∀ n, enqueueRest (n + 1) io (some p) = enqueueRest n io' (io'.next p)) ∧
      Enqueued io io' role role' es [e] fs' [p] := by
  obtain ⟨fs',fresh⟩ := allocEntryFresh r p
  generalize alloc : io.allocEntry p = taken at fresh
  obtain ⟨e,io₁⟩ := taken
  have running := fresh.running
  obtain ⟨front,z,rfl⟩ := (List.eq_nil_or_concat' es).resolve_left some_
  have tail : io₁.runningListTail = some z := running.tail.trans List.getLast?_concat
  have zIn : z ∈ front ++ [z] := List.mem_append_right front (List.mem_singleton_self z)
  have zEntry : role z = .entry := r.entry z zIn
  have apart : e ≠ z := fun same => fresh.off (same ▸ zIn)
  have nodup := segNodup running.chain
  have zOff : z ∉ front := fun mem => (List.nodup_append.mp nodup).2.2 z mem z (List.mem_singleton_self z) rfl
  have zNotFree : z ∉ fs' := fun mem => by
    have is := running.freeEntry z mem
    rw [running.entry z zIn] at is
    cases is
  have zFar : ∀ a, ¬(role a).Entry → a ≠ z := fun a not same => not (by rw [same,zEntry]; trivial)
  refine ⟨{ io₁ with next := Function.update io₁.next z (some e), runningListTail := some e },
    Function.update role e .entry,e,fs',fun n => ?_,⟨?_,?_,fun a mem => ?_,?_⟩⟩
  · simp only [enqueueRest,alloc,tail,bind,Option.bind]
  · refine ⟨?_,List.getLast?_concat.symm,fun a mem => ?_,(segUpdate zNotFree).mpr running.free,running.freeEntry,
      running.made⟩
    · refine segAppend.mpr ⟨some e,segSetLast running.chain zOff,rfl,?_⟩
      exact (Function.update_of_ne apart _ _).trans fresh.next
    · rcases List.mem_append.mp mem with mem | mem
      · exact running.entry a mem
      · rw [List.mem_singleton.mp mem]
        exact Function.update_self _ _ _
  · exact congrArg (fun held => [held]) fresh.holds
  · exact fresh.kept a fun same => fresh.off (same ▸ mem)
  · have aside := fresh.aside
    exact ⟨aside.fdPoolSize,aside.fdPool,aside.queueList,aside.freeList,aside.entry,aside.apart,
      fun a not => (Function.update_of_ne (zFar a not) _ _).trans (aside.next a not),aside.prev,aside.header,aside.opt⟩

theorem enqueueRestRuns {l : List Ptr} {n : Nat} {node : Option Ptr} (r : Running io role es fs) (some_ : es ≠ [])
    (chain : Seg io.next node l none) (apart : ∀ a ∈ l, ¬ (role a).Entry) (enough : l.length < n) :
    ∃ io' role' es' fs', enqueueRest n io node = some io' ∧ Enqueued io io' role role' es es' fs' l := by
  induction l generalizing io role es fs n node with
  | nil =>
    obtain ⟨k,rfl⟩ := Nat.exists_eq_succ_of_ne_zero (Nat.ne_of_gt enough)
    rw [show node = none from chain]
    refine ⟨io,role,[],fs,rfl,by rwa [List.append_nil],rfl,fun _ _ => rfl,⟨rfl,rfl,rfl,rfl,fun _ is => is,?_,?_,?_,?_,?_⟩⟩
    all_goals exact fun _ _ => rfl
  | cons p l ih =>
    obtain ⟨k,rfl⟩ := Nat.exists_eq_succ_of_ne_zero (Nat.ne_of_gt (Nat.zero_lt_of_lt enough))
    obtain ⟨io₁,role₁,e,fs₁,steps,one⟩ := enqueueOne r some_ p
    have pApart := apart p List.mem_cons_self
    have later : Seg io₁.next (io₁.next p) l none := by
      rw [one.aside.next p pApart]
      exact (segCongr fun a mem => one.aside.next a (apart a (List.mem_cons_of_mem p mem))).mpr chain.2
    have still : ∀ a ∈ l, ¬(role₁ a).Entry := fun a mem => by
      have off := apart a (List.mem_cons_of_mem p mem)
      rwa [one.aside.apart a off]
    obtain ⟨io₂,role₂,es',fs₂,ends,rest⟩ := ih one.running (by simp) later still (Nat.lt_of_succ_lt_succ enough)
    rw [chain.1]
    refine ⟨io₂,role₂,e :: es',fs₂,(steps k).trans ends,?_,?_,fun a mem => ?_,asideTrans one.aside rest.aside⟩
    · rw [← List.singleton_append,← List.append_assoc]
      exact rest.running
    · have first := one.holds
      simp only [List.map_cons,List.map_nil] at first ⊢
      rw [rest.kept e (List.mem_append_right es (List.mem_singleton_self e)),rest.holds,(List.cons.inj first).1]
    · exact (rest.kept a (List.mem_append_left [e] mem)).trans (one.kept a mem)

/- enqueue_to_running_list for a batch. -/
theorem enqueueRuns {l : List Ptr} (r : Running io role es fs) (some_ : l ≠ []) (chain : Seg io.next l.head? l none)
    (apart : ∀ a ∈ l, ¬ (role a).Entry) :
    ∃ io' role' es' fs', io.enqueueToRunningList l.head? = some io' ∧ Enqueued io io' role role' es es' fs' l := by
  have used : ∀ {role' : Ptr → Role}, (∀ a ∈ l, ¬(role' a).Entry) → ∀ a ∈ l, role' a ≠ .fresh := by
    intro role' off a mem same
    exact off a mem (by rw [same]; trivial)
  obtain ⟨first,rest,rfl⟩ := List.exists_cons_of_ne_nil some_
  unfold enqueueToRunningList
  simp only [List.head?_cons,bind,Option.bind]
  cases list : io.runningList with
  | some a =>
    have full : es ≠ [] := by
      rintro rfl
      rw [show io.runningList = none from r.chain] at list
      cases list
    have short : (first :: rest).length < io.made + 1 :=
      Nat.lt_succ_of_le (lengthMade r.made (segNodup chain) (used apart))
    exact enqueueRestRuns r full chain apart short
  | none =>
    have empty : es = [] := segNull (list ▸ r.chain)
    subst empty
    obtain ⟨fs₁,fresh⟩ := allocEntryFresh r first
    generalize io.allocEntry first = taken at fresh
    obtain ⟨e,io₁⟩ := taken
    have running := fresh.running
    have firstApart := apart first List.mem_cons_self
    have one : Enqueued io { io₁ with runningListTail := some e, runningList := some e } role
        (Function.update role e .entry) [] [e] fs₁ [first] := by
      refine ⟨⟨⟨rfl,fresh.next⟩,rfl,fun a mem => ?_,running.free,running.freeEntry,running.made⟩,?_,nofun,?_⟩
      · rw [List.mem_singleton.mp mem]
        exact Function.update_self _ _ _
      · exact congrArg (fun held => [held]) fresh.holds
      · have aside := fresh.aside
        exact ⟨aside.fdPoolSize,aside.fdPool,aside.queueList,aside.freeList,aside.entry,aside.apart,aside.next,aside.prev,
          aside.header,aside.opt⟩
    have later : Seg io₁.next (io₁.next first) rest none := by
      rw [one.aside.next first firstApart]
      exact (segCongr fun a mem => one.aside.next a (apart a (List.mem_cons_of_mem first mem))).mpr chain.2
    have still : ∀ a ∈ first :: rest, ¬(Function.update role e .entry a).Entry := fun a mem => by
      rw [one.aside.apart a (apart a mem)]
      exact apart a mem
    have short : rest.length < io₁.made + 1 := by
      have len := lengthMade running.made (segNodup chain) (used still)
      exact Nat.lt_of_lt_of_le (Nat.lt_succ_self _) (Nat.le_succ_of_le len)
    obtain ⟨io₂,role₂,es',fs₂,ends,more⟩ := enqueueRestRuns one.running (by simp) later
      (fun a mem => still a (List.mem_cons_of_mem first mem)) short
    refine ⟨io₂,role₂,e :: es',fs₂,ends,more.running,?_,nofun,asideTrans one.aside more.aside⟩
    have held := one.holds
    simp only [List.map_cons,List.map_nil] at held ⊢
    rw [more.kept e (List.mem_append_right [] (List.mem_singleton_self e)),more.holds,(List.cons.inj held).1]

theorem entriesMade (r : Running io role es fs) : es.length ≤ io.made :=
  lengthMade r.made (segNodup r.chain) fun e mem => by
    rw [r.entry e mem]
    nofun

/- The entry of the request is the first one that holds it. -/
theorem unlinkEntryAt (r : Running io role es fs) {es₁ es₂ : List Ptr} {e : Ptr} (split : es = es₁ ++ e :: es₂)
    (holds : io.ptr e = some p) (before : ∀ a ∈ es₁, io.ptr a ≠ some p) :
    io.unlinkEntry p = some (e,{ io with
      runningList := if es₁ = [] then io.next e else io.runningList
      runningListTail := if es₁ = [] then io.runningListTail
        else if io.runningListTail = some e then es₁.getLast? else io.runningListTail
      next := relink io.next es₁.getLast? (io.next e) }) := by
  have chain := r.chain
  rw [split] at chain
  unfold unlinkEntry
  cases es₁ with
  | nil =>
    simp only [chain.1,bind,Option.bind,if_pos holds]
    rfl
  | cons first rest =>
    have len := entriesMade r
    have short : rest.length < io.made := by
      rw [split] at len
      simp only [List.cons_append,List.length_cons,List.length_append] at len
      omega
    obtain ⟨itor,last⟩ : ∃ z, (first :: rest).getLast? = some z := ⟨_,List.getLast?_eq_some_getLast (List.cons_ne_nil _ _)⟩
    have found : advance io.next (io.otherEntry p) io.made first = some itor := by
      refine (advanceTo chain.2 (fun c mem => ?_) ?_ short).trans last
      · exact decide_eq_true (before c (List.mem_cons_of_mem first mem))
      · exact decide_eq_false (not_not.2 holds)
    have follows : io.next itor = some e := by
      obtain ⟨front,at_⟩ := List.getLast?_eq_some_iff.1 last
      rw [at_,List.append_assoc] at chain
      obtain ⟨m,-,later⟩ := segAppend.mp chain
      exact later.2.1
    simp only [chain.1,bind,Option.bind,if_neg (before first List.mem_cons_self),found,follows,last,relink,
      if_neg (List.cons_ne_nil first rest)]

/- The request's entry goes to the free ones. -/
theorem dequeueRuns (r : Running io role es fs) {es₁ es₂ : List Ptr} {e : Ptr} (split : es = es₁ ++ e :: es₂)
    (holds : io.ptr e = some p) (before : ∀ a ∈ es₁, io.ptr a ≠ some p) :
    ∃ io', io.dequeueFromRunningList p = some io' ∧
      Running io' (Function.update role e .freeEntry) (es₁ ++ es₂) (e :: fs) ∧ io'.ptr = io.ptr ∧
      Aside io io' role (Function.update role e .freeEntry) := by
  have chain := r.chain
  have nodup := segNodup chain
  rw [split] at chain nodup
  have off : e ∉ es₁ ++ es₂ := (List.nodup_cons.mp (List.perm_middle.nodup_iff.mp nodup)).1
  have eIn : e ∈ es := split ▸ List.mem_append_right es₁ List.mem_cons_self
  have isEntry := r.entry e eIn
  have kept : ∀ a ∈ es₁ ++ es₂, a ∈ es := by
    intro a mem
    rw [split]
    rcases List.mem_append.mp mem with mem | mem
    · exact List.mem_append_left _ mem
    · exact List.mem_append_right es₁ (List.mem_cons_of_mem e mem)
  have others : ∀ a, a ∈ es → ∀ b, ¬(role b).Entry → b ≠ a := fun a mem b not same =>
    not (by rw [same,r.entry a mem]; trivial)
  have freeOff : ∀ a ∈ es, a ∉ fs := fun a mem free => by
    have is := r.freeEntry a free
    rw [r.entry a mem] at is
    cases is
  have lastIn : ∀ a, es₁.getLast? = some a → a ∈ es := fun a last =>
    kept a (List.mem_append_left es₂ (List.mem_of_getLast? last))
  have linked : Seg (Function.update (Function.update (relink io.next es₁.getLast? (io.next e)) e none) e
      io.freeRunningList) (if es₁ = [] then io.next e else io.runningList) (es₁ ++ es₂) none :=
    (segUpdate off).mpr ((segUpdate off).mpr (segUnlink chain))
  have runs : ∃ tail, io.dequeueFromRunningList p = some { io with
      runningList := if es₁ = [] then io.next e else io.runningList
      runningListTail := tail
      next := Function.update (Function.update (relink io.next es₁.getLast? (io.next e)) e none) e io.freeRunningList
      freeRunningList := some e } ∧ tail = (es₁ ++ es₂).getLast? := by
    simp only [dequeueFromRunningList,unlinkEntryAt r split holds before,bind,Option.bind]
    cases left : es₁ ++ es₂ with
    | nil =>
      rw [left] at linked
      simp only [show (if es₁ = [] then io.next e else io.runningList) = none from linked]
      exact ⟨none,rfl,rfl⟩
    | cons first rest =>
      rw [left] at linked
      have follows := segHead linked.2
      simp only [linked.1,follows]
      refine ⟨_,rfl,?_⟩
      cases rest with
      | nil => rfl
      | cons b rest =>
        rw [if_neg (by simp),← left]
        cases es₁ with
        | nil =>
          rw [if_pos rfl,r.tail,split]
          rw [List.nil_append] at left ⊢
          rw [List.nil_append,left]
          rfl
        | cons c es₁ =>
          rw [if_neg (List.cons_ne_nil c es₁),r.tail,split]
          rcases List.eq_nil_or_concat' es₂ with rfl | ⟨es₂,z,rfl⟩
          · rw [List.getLast?_concat,if_pos rfl,List.append_nil]
          · have apart : z ≠ e := fun same =>
              off (same ▸ List.mem_append_right (c :: es₁) (List.mem_append_right es₂ (List.mem_singleton_self z)))
            rw [← List.cons_append,← List.append_assoc,← List.append_assoc,List.getLast?_concat,List.getLast?_concat]
            exact if_neg fun same => apart (Option.some.inj same)
  obtain ⟨tail,runs,last⟩ := runs
  refine ⟨_,runs,⟨linked,last,fun a mem => ?_,⟨rfl,?_⟩,fun a mem => ?_,fun a used => ?_⟩,rfl,
    ⟨rfl,rfl,rfl,rfl,fun a is => ?_,fun a not => ?_,fun a not => ?_,fun _ _ => rfl,fun _ _ => rfl,fun _ _ => rfl⟩⟩
  · have other : a ≠ e := fun same => off (same ▸ mem)
    rw [Function.update_of_ne other]
    exact r.entry a (kept a mem)
  · simp only [Function.update_self]
    have eOff := freeOff e eIn
    refine (segUpdate eOff).mpr ((segUpdate eOff).mpr ?_)
    exact (relinkOff fun a last => freeOff a (lastIn a last)).mpr r.free
  · rcases List.mem_cons.mp mem with rfl | mem
    · exact Function.update_self _ _ _
    · have other : a ≠ e := fun same => freeOff e eIn (same ▸ mem)
      rw [Function.update_of_ne other]
      exact r.freeEntry a mem
  · by_cases same : a = e
    · rw [same]
      exact r.made e (by rw [isEntry]; nofun)
    · rw [Function.update_of_ne same] at used
      exact r.made a used
  · by_cases same : a = e
    · rw [same,Function.update_self]
      trivial
    · rwa [Function.update_of_ne same]
  · exact Function.update_of_ne (others e eIn a not) _ _
  · have far := others e eIn a not
    have beyond : es₁.getLast? ≠ some a := fun last => others a (lastIn a last) a not rfl
    exact (Function.update_of_ne far _ _).trans ((Function.update_of_ne far _ _).trans (relinkApart beyond))

/- find_in_running_list reads the request of each entry; none is a null pointer. -/
theorem findEntryEnds {n : Nat} {itor : Option Ptr} (id : Int) (chain : Seg io.next itor es none)
    (holds : ∀ e ∈ es, io.ptr e ≠ none) (enough : es.length < n) : ∃ found, io.findEntry id n itor = some found := by
  induction es generalizing n itor with
  | nil =>
    obtain ⟨k,rfl⟩ := Nat.exists_eq_succ_of_ne_zero (Nat.ne_of_gt enough)
    rw [show itor = none from chain]
    exact ⟨false,rfl⟩
  | cons e es ih =>
    obtain ⟨k,rfl⟩ := Nat.exists_eq_succ_of_ne_zero (Nat.ne_of_gt (Nat.zero_lt_of_lt enough))
    obtain ⟨aioopt,held⟩ := Option.ne_none_iff_exists'.mp (holds e List.mem_cons_self)
    rw [chain.1]
    simp only [findEntry,held,bind,Option.bind]
    by_cases same : (io.opt aioopt).id = id
    · exact ⟨true,if_pos same⟩
    · rw [if_neg same]
      exact ih chain.2 (fun a mem => holds a (List.mem_cons_of_mem e mem)) (Nat.lt_of_succ_lt_succ enough)

theorem freeWalkEnds {n : Nat} {first : Ptr} {l : List Ptr} (size : BitVec 64) (chain : Seg io.next (io.next first) l none)
    (enough : l.length < n) :
    ∃ left, io.freeWalk n first size = some ((first :: l).getLast (List.cons_ne_nil first l),left) := by
  induction l generalizing n first size with
  | nil =>
    obtain ⟨k,rfl⟩ := Nat.exists_eq_succ_of_ne_zero (Nat.ne_of_gt enough)
    simp only [freeWalk,show io.next first = none from chain]
    exact ⟨size,rfl⟩
  | cons b l ih =>
    obtain ⟨k,rfl⟩ := Nat.exists_eq_succ_of_ne_zero (Nat.ne_of_gt (Nat.zero_lt_of_lt enough))
    simp only [freeWalk,chain.1]
    exact ih (size - 1) chain.2 (Nat.lt_of_succ_lt_succ enough)

end Entries

end CuteNdk.AsynchFileIo
