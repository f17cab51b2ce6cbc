import CuteNdk.TimerCallbacks

/-! A tick of the crontab timers: handle_timeout with what the callbacks it makes do to
them. The node behind the one served is saved before the callback, and cancel puts a node
it takes on the free list through the same link. -/
namespace CuteNdk.TimerTick
open TimerQueue
open TimerMixed
open TimerIds (crontabList)
open Lib (Seg segAppend segHead segUnique Along run)

/- A timer that has been served, and the timers its callbacks took. -/
structure Turn where
  node : Ptr
  taken : List Ptr
  deriving DecidableEq, Repr

/- The loop of handle_timeout from iter on, where k timers have been served before. -/
def tick (now : DateTime) (tv : TimeValue) (does : Nat → Upcall) :
    Nat → Nat → TimerQueue → Option Ptr → Option (List Turn × TimerQueue)
  | 0, _, _, _ => none
  | _ + 1, _, q, none => some ([],q)
  | fuel + 1, k, q, some node =>
    let iter := (q.nodes node).next
    match dueNow q now node with
    | none => tick now tv does fuel k q iter
    | some eh => do
      let served ← serve q tv (does k) node eh
      let later ← tick now tv does fuel (k + 1) served.2 iter
      some (⟨node,served.1⟩ :: later.1,later.2)

/- The timers of a list in its order: one that is due and has not been canceled by then
is served, once, and no other one is. -/
def Served (due : Ptr → Bool) : List Ptr → List Ptr → List Turn → Prop
  | _, [], turns => turns = []
  | gone, p :: l, turns =>
    if due p ∧ p ∉ gone then
      ∃ t later, turns = t :: later ∧ t.node = p ∧ Served due (gone ++ t.taken) l later
    else Served due gone l turns

/- The links from iter on end, and the timers due that they pass are those of l. -/
def LeadsOn (q : TimerQueue) (now : DateTime) (iter : Option Ptr) (l : List Ptr) : Prop :=
  ∃ links, Seg q.nextOf iter links none ∧
    links.filter (fun z => (dueNow q now z).isSome) = l.filter fun z => (dueNow q now z).isSome

/- The cancels of the callbacks return, and none takes the timer that is next in the list,
the canceled ones in gone left out, unless the links from it lead on to what is left. -/
def NextStays (now : DateTime) (tv : TimeValue) (does : Nat → Upcall) :
    Nat → List Ptr → TimerQueue → List Ptr → Prop
  | _, _, _, [] => True
  | k, gone, q, p :: l =>
    if p ∈ gone then NextStays now tv does k gone q l
    else match dueNow q now p with
      | none => NextStays now tv does k gone q l
      | some eh => ∃ served, serve q tv (does k) p eh = some served ∧
          ((∀ next ∈ (remaining gone l).head?, next ∉ served.1) ∨
            LeadsOn served.2 now (remaining gone l).head? (remaining (gone ++ served.1) l)) ∧
          NextStays now tv does (k + 1) (gone ++ served.1) served.2 l

/- With callbacks that leave the timers alone it is the loop without them. -/
theorem tickAlone (now : DateTime) (tv : TimeValue) (ret : Int) (fuel k : Nat) (q : TimerQueue) (iter : Option Ptr) :
    (tick now tv (fun _ => ⟨.done,ret,.done⟩) fuel k q iter).map Prod.snd =
      handleTimeoutFrom now tv (fun _ _ => ret) fuel q iter := by
  induction fuel generalizing k q iter with
  | zero => rfl
  | succ fuel ih =>
    cases iter with
    | none => rfl
    | some node =>
      unfold tick handleTimeoutFrom dueNow
      cases entry : (q.nodes node).crontabEntry with
      | none => exact ih k q _
      | some e =>
        cases handler : (q.nodes node).handler with
        | none => exact ih k q _
        | some eh =>
          by_cases matching : matchesNow e now
          · simp only [if_pos matching,serveAlone,bind,Option.bind]
            rw [← ih (k + 1)]
            have next : ((if ret ≠ 0 then (q.call (.timeout eh (q.nodes node).arg tv)).call (.close eh)
                else q.call (.timeout eh (q.nodes node).arg tv)).nodes node).next = (q.nodes node).next := by
              split <;> rfl
            rw [next]
            generalize tick now tv (fun _ => ⟨.done,ret,.done⟩) fuel (k + 1) _ (q.nodes node).next = later
            cases later <;> rfl
          · simp only [if_neg matching]
            exact ih k q _

/- The loop from iter on returns, and has served the timers of l that are due. -/
def TickServes (now : DateTime) (tv : TimeValue) (does : Nat → Upcall) (k : Nat) (q : TimerQueue) (iter : Option Ptr)
    (due : Ptr → Bool) (gone l : List Ptr) : Prop :=
  ∃ fuel turns q', tick now tv does fuel k q iter = some (turns,q') ∧ Served due gone l turns

section Tick
variable {now : DateTime} {tv : TimeValue} {does : Nat → Upcall} {q q' : TimerQueue} {live before links : List Ptr}
  {dead : Ptr → Prop} {iter stop : Option Ptr} {k fuel : Nat} {turns : List Turn} {due : Ptr → Bool} {gone l : List Ptr}

/- The loop goes past nodes that are not due. -/
theorem tickPast (walk : Seg q.nextOf iter links stop) (pass : ∀ z ∈ links, dueNow q now z = none)
    (r : List Turn × TimerQueue) :
    (∃ fuel, tick now tv does fuel k q iter = some r) ↔ ∃ fuel, tick now tv does fuel k q stop = some r := by
  induction links generalizing iter with
  | nil => rw [show iter = stop from walk]
  | cons z links ih =>
    rw [← ih walk.2 fun y hy => pass y (List.mem_cons_of_mem z hy),walk.1]
    have step : ∀ n, tick now tv does (n + 1) k q (some z) = tick now tv does n k q (q.nextOf z) := fun n => by
      simp only [tick,pass z List.mem_cons_self]
      rfl
    constructor
    · rintro ⟨n,runs⟩
      cases n with
      | zero => cases runs
      | succ n => exact ⟨n,(step n).symm.trans runs⟩
    · rintro ⟨n,runs⟩
      exact ⟨n + 1,(step n).trans runs⟩

theorem tickEnds (runs : tick now tv does fuel k q none = some (turns,q')) : turns = [] := by
  cases fuel with
  | zero => cases runs
  | succ n =>
    cases Option.some.inj runs
    rfl

/- How long the loop is watched does not matter once it has ended. -/
theorem tickMore {n : Nat} {r : List Turn × TimerQueue} (runs : tick now tv does n k q iter = some r) (m : Nat) :
    tick now tv does (n + m) k q iter = some r := by
  induction n generalizing k q iter r with
  | zero => cases runs
  | succ n ih =>
    rw [Nat.add_right_comm]
    cases iter with
    | none => exact runs
    | some node =>
      simp only [tick] at runs ⊢
      cases isDue : dueNow q now node with
      | none =>
        rw [isDue] at runs
        exact ih runs
      | some eh =>
        rw [isDue] at runs
        obtain ⟨served,ran,runs⟩ := Option.bind_eq_some_iff.1 runs
        obtain ⟨later,went,runs⟩ := Option.bind_eq_some_iff.1 runs
        simp only [ran,ih went,bind,Option.bind]
        exact runs

theorem tickSame {n m : Nat} {r r' : List Turn × TimerQueue} (one : tick now tv does n k q iter = some r)
    (other : tick now tv does m k q iter = some r') : r = r' := by
  have more := tickMore one m
  rw [Nat.add_comm,tickMore other n] at more
  exact (Option.some.inj more).symm

/- Where a timer is due the first one that is gets the first turn. -/
theorem tickFirst (walk : Seg q.nextOf iter links stop) (some_ : ∃ z ∈ links, (dueNow q now z).isSome)
    (runs : tick now tv does fuel k q iter = some (turns,q')) : ∃ t later, turns = t :: later ∧ t.node ∈ links := by
  induction links generalizing iter fuel with
  | nil =>
    obtain ⟨z,hz,_⟩ := some_
    exact absurd hz List.not_mem_nil
  | cons a links ih =>
    rw [walk.1] at runs
    cases fuel with
    | zero => cases runs
    | succ n =>
      simp only [tick] at runs
      cases due : dueNow q now a with
      | none =>
        rw [due] at runs
        obtain ⟨z,hz,dueZ⟩ := some_
        have other : z ∈ links := (List.mem_cons.1 hz).resolve_left fun same => by
          rw [same,due] at dueZ
          cases dueZ
        obtain ⟨t,later,split,mem⟩ := ih walk.2 ⟨z,other,dueZ⟩ runs
        exact ⟨t,later,split,List.mem_cons_of_mem a mem⟩
      | some eh =>
        rw [due] at runs
        obtain ⟨served,_,runs⟩ := Option.bind_eq_some_iff.1 runs
        obtain ⟨later,_,runs⟩ := Option.bind_eq_some_iff.1 runs
        cases Option.some.inj runs
        exact ⟨_,_,rfl,List.mem_cons_self⟩

theorem servedMem {t : Turn} (h : Served due gone l (t :: turns)) : t.node ∈ l := by
  induction l generalizing gone with
  | nil => cases h
  | cons p l ih =>
    unfold Served at h
    split at h
    · obtain ⟨t',later,split,same,_⟩ := h
      cases split
      exact same ▸ List.mem_cons_self
    · exact List.mem_cons_of_mem p (ih h)

theorem servedNone : Served due gone l [] ↔ ∀ z ∈ l, z ∉ gone → due z = false := by
  induction l generalizing gone with
  | nil => exact ⟨fun _ _ hz => absurd hz List.not_mem_nil,fun _ => rfl⟩
  | cons p l ih =>
    unfold Served
    by_cases here : due p ∧ p ∉ gone
    · rw [if_pos here]
      refine ⟨fun h => ?_,fun h => ?_⟩
      · obtain ⟨t,later,split,_⟩ := h
        cases split
      · have none_ := h p List.mem_cons_self here.2
        rw [here.1] at none_
        cases none_
    · rw [if_neg here,ih]
      refine ⟨fun h z hz off => ?_,fun h z hz => h z (List.mem_cons_of_mem p hz)⟩
      rcases List.mem_cons.1 hz with rfl | later
      · exact Bool.eq_false_iff.2 fun dueZ => here ⟨dueZ,off⟩
      · exact h z later off

/- The links from a canceled timer, where they end, first pass canceled ones and then, if
any, the registered ones. -/
theorem deadLeads (h : Strung q live dead) {d : Ptr} (gone : dead d) (walk : Seg q.nextOf (some d) links none) :
    ∃ ds rest, links = ds ++ rest ∧ (∀ z ∈ ds, dead z) ∧ (rest = [] ∨ rest = live) := by
  induction links generalizing d with
  | nil => cases walk
  | cons z links ih =>
    cases Option.some.inj walk.1
    cases next : q.nextOf z with
    | none =>
      have rest := walk.2
      rw [next] at rest
      cases Lib.segNull rest
      exact ⟨[z],[],rfl,fun y hy => List.mem_singleton.1 hy ▸ gone,.inl rfl⟩
    | some n =>
      have rest := walk.2
      rw [next] at rest
      rcases (h.idle z gone).2 n next with gone' | ⟨front,_⟩
      · obtain ⟨ds,rest',split,deads,ends⟩ := ih gone' rest
        refine ⟨z :: ds,rest',by rw [split]; rfl,fun y hy => ?_,ends⟩
        rcases List.mem_cons.1 hy with rfl | later
        · exact gone
        · exact deads y later
      · rw [← front] at rest
        exact ⟨[z],links,rfl,fun y hy => List.mem_singleton.1 hy ▸ gone,.inr (segUnique rest h.walk)⟩

/- A tick that returns from a canceled timer has links from there that end. -/
theorem deadEnds (h : Parted q live dead) {d : Ptr} (gone : dead d) {r : List Turn × TimerQueue}
    (runs : tick now tv does fuel k q (some d) = some r) : ∃ links, Seg q.nextOf (some d) links none := by
  induction fuel generalizing d with
  | zero => cases runs
  | succ n ih =>
    have pass : dueNow q now d = none := by
      unfold dueNow
      rw [h.blank d gone]
    simp only [tick,pass] at runs
    cases next : q.nextOf d with
    | none => exact ⟨[d],rfl,next⟩
    | some m =>
      rcases (h.strung.idle d gone).2 m next with gone' | ⟨front,_⟩
      · have next' : (q.nodes d).next = some m := next
        rw [next'] at runs
        obtain ⟨links,walk⟩ := ih gone' runs
        exact ⟨d :: links,rfl,next.symm ▸ walk⟩
      · refine ⟨d :: live,rfl,?_⟩
        rw [next,← front]
        exact h.strung.walk

theorem servesPast (walk : Seg q.nextOf iter links stop) (pass : ∀ z ∈ links, dueNow q now z = none) :
    TickServes now tv does k q iter due gone l ↔ TickServes now tv does k q stop due gone l := by
  constructor
  · rintro ⟨fuel,turns,q',runs,serves⟩
    obtain ⟨n,runs⟩ := (tickPast walk pass _).1 ⟨fuel,runs⟩
    exact ⟨n,turns,q',runs,serves⟩
  · rintro ⟨fuel,turns,q',runs,serves⟩
    obtain ⟨n,runs⟩ := (tickPast walk pass _).2 ⟨fuel,runs⟩
    exact ⟨n,turns,q',runs,serves⟩

theorem noneDue : links.filter (fun z => (dueNow q now z).isSome) = [] ↔ ∀ z ∈ links, dueNow q now z = none := by
  simp only [List.filter_eq_nil_iff,Option.not_isSome_iff_eq_none]

/- From a canceled timer on the links pass canceled ones, and then lead to the registered
ones or not; before are those of them that have had their turn. -/
theorem servesAlong (h : Parted q (before ++ remaining gone l) dead) {d : Ptr} (dies : dead d)
    (same : ∀ z ∈ l, z ∉ gone → (dueNow q now z).isSome = due z) (apart : ∀ z ∈ before, z ∉ l)
    (walk : Seg q.nextOf (some d) links none) :
    TickServes now tv does k q (some d) due gone l ↔
      links.filter (fun z => (dueNow q now z).isSome) =
        (remaining gone l).filter (fun z => (dueNow q now z).isSome) ∧
      TickServes now tv does k q (remaining gone l).head? due gone l := by
  have undue : ∀ z, dead z → dueNow q now z = none := fun z gone => by
    unfold dueNow
    rw [h.blank z gone]
  have others : Seg q.nextOf (remaining gone l).head? (remaining gone l) none := by
    obtain ⟨m,_,rest⟩ := segAppend.1 h.strung.walk
    exact segHead rest ▸ rest
  obtain ⟨ds,rest,rfl,deads,ends⟩ := deadLeads h.strung dies walk
  obtain ⟨m,front,back⟩ := segAppend.1 walk
  have passed : ∀ z ∈ ds, dueNow q now z = none := fun z hz => undue z (deads z hz)
  rw [servesPast front passed,List.filter_append,noneDue.2 passed,List.nil_append]
  rcases ends with rfl | rfl
  · cases back
    by_cases all : (remaining gone l).filter (fun z => (dueNow q now z).isSome) = []
    · rw [all,servesPast others (noneDue.1 all)]
      exact (and_iff_right rfl).symm
    · refine iff_of_false (fun serves => all (noneDue.2 fun z hz => ?_)) fun both => all both.1.symm
      obtain ⟨fuel,turns,q',runs,served⟩ := serves
      rw [tickEnds runs,servedNone] at served
      obtain ⟨mem,off⟩ := memRemaining.1 hz
      have none_ := (same z mem off).trans (served z mem off)
      exact Option.isNone_iff_eq_none.1 (by rw [← Option.not_isSome,none_]; rfl)
  · obtain ⟨m',early,late⟩ := segAppend.1 back
    cases segHead late
    rw [List.filter_append]
    by_cases none_ : before.filter (fun z => (dueNow q now z).isSome) = []
    · rw [none_,List.nil_append,servesPast early (noneDue.1 none_)]
      exact (and_iff_right rfl).symm
    · refine iff_of_false (fun serves => ?_) fun both => none_ (List.append_left_eq_self.1 both.1)
      obtain ⟨fuel,turns,q',runs,served⟩ := serves
      obtain ⟨z,hz⟩ := List.exists_mem_of_ne_nil _ none_
      obtain ⟨t,later,rfl,mem⟩ := tickFirst early ⟨z,List.mem_filter.1 hz⟩ runs
      exact apart t.node mem (servedMem served)

/- A tick from a canceled timer on serves what is left just where the links lead on to it. -/
theorem servesDead (h : Parted q (before ++ remaining gone l) dead) {d : Ptr} (dies : dead d)
    (same : ∀ z ∈ l, z ∉ gone → (dueNow q now z).isSome = due z) (apart : ∀ z ∈ before, z ∉ l) :
    TickServes now tv does k q (some d) due gone l ↔
      LeadsOn q now (some d) (remaining gone l) ∧
      TickServes now tv does k q (remaining gone l).head? due gone l := by
  constructor
  · intro serves
    obtain ⟨fuel,turns,q',runs,_⟩ := id serves
    obtain ⟨links,walk⟩ := deadEnds h dies runs
    have both := (servesAlong h dies same apart walk).1 serves
    exact ⟨⟨links,walk,both.1⟩,both.2⟩
  · rintro ⟨⟨links,walk,passes⟩,serves⟩
    exact (servesAlong h dies same apart walk).2 ⟨passes,serves⟩

/- A due timer has its turn, and the loop goes on from what was behind it. -/
theorem servesTurn {p : Ptr} {eh : Handler} (isDue : dueNow q now p = some eh) (agrees : due p) (off : p ∉ gone) :
    TickServes now tv does k q (some p) due gone (p :: l) ↔
      ∃ served, serve q tv (does k) p eh = some served ∧
        TickServes now tv does (k + 1) served.2 (q.nextOf p) due (gone ++ served.1) l := by
  constructor
  · rintro ⟨fuel,turns,q',runs,serves⟩
    cases fuel with
    | zero => cases runs
    | succ n =>
      simp only [tick,isDue] at runs
      obtain ⟨served,ran,runs⟩ := Option.bind_eq_some_iff.1 runs
      obtain ⟨later,went,runs⟩ := Option.bind_eq_some_iff.1 runs
      cases Option.some.inj runs
      unfold Served at serves
      rw [if_pos ⟨agrees,off⟩] at serves
      obtain ⟨t,rest,split,_,serves⟩ := serves
      cases split
      exact ⟨served,ran,n,_,_,went,serves⟩
  · rintro ⟨served,ran,n,later,q',went,serves⟩
    refine ⟨n + 1,⟨p,served.1⟩ :: later,q',?_,?_⟩
    · have went : tick now tv does n (k + 1) served.2 (q.nodes p).next = some (later,q') := went
      simp only [tick,isDue,ran,went,bind,Option.bind]
    · unfold Served
      rw [if_pos ⟨agrees,off⟩]
      exact ⟨_,later,rfl,rfl,serves⟩

/- One that is not due, or was canceled, has no turn. -/
theorem servesSkip {p : Ptr} (skips : due p → p ∉ gone → False) :
    TickServes now tv does k q iter due gone (p :: l) ↔ TickServes now tv does k q iter due gone l := by
  unfold TickServes
  refine exists_congr fun _ => exists_congr fun turns => exists_congr fun _ => and_congr_right fun _ => ?_
  rw [Served,if_neg fun both => skips both.1 both.2]

/- What is left of the list from some timer on: the loop serves it as it should just where
next stays. -/
theorem servesLeft (h : Parted q (before ++ remaining gone l) dead) (nodup : (before ++ l).Nodup)
    (same : ∀ z ∈ before ++ remaining gone l, (dueNow q now z).isSome = due z) :
    TickServes now tv does k q (remaining gone l).head? due gone l ↔ NextStays now tv does k gone q l := by
  induction l generalizing k gone q before dead with
  | nil => exact ⟨fun _ => trivial,fun _ => ⟨1,[],q,rfl,rfl⟩⟩
  | cons p l ih =>
    have moved : (before ++ [p] ++ l).Nodup := by
      rw [← List.append_cons]
      exact nodup
    have shorter : (before ++ l).Nodup := (List.nodup_cons.1 (List.perm_middle.nodup_iff.1 nodup)).2
    unfold NextStays
    by_cases canceled : p ∈ gone
    · rw [remainingGone canceled] at h same ⊢
      rw [if_pos canceled,← ih h shorter same]
      exact servesSkip fun _ off => absurd canceled off
    · rw [remainingCons canceled] at h same ⊢
      have mine := same p (List.mem_append_right _ List.mem_cons_self)
      have next := strungNext h.strung
      rw [List.append_cons] at h same
      rw [if_neg canceled]
      cases isDue : dueNow q now p with
      | none =>
        have undue : due p = false := by
          rw [← mine,isDue]
          rfl
        have passes : ∀ z ∈ [p], dueNow q now z = none := fun z hz => List.mem_singleton.1 hz ▸ isDue
        rw [List.head?_cons,servesPast (show Seg q.nextOf (some p) [p] _ from ⟨rfl,next⟩) passes]
        simp only [← ih h moved same]
        exact servesSkip fun is _ => absurd (is.symm.trans undue) nofun
      | some eh =>
        have agrees : due p := by
          rw [← mine,isDue]
          rfl
        rw [List.head?_cons,servesTurn isDue agrees canceled,next]
        refine exists_congr fun served => and_congr_right fun ran => ?_
        have parts := partsServe h ran
        have parted := parts.parted
        rw [remainingAppend,← remainingBoth] at parted
        have same' : ∀ z ∈ remaining served.1 (before ++ [p]) ++ remaining (gone ++ served.1) l,
            (dueNow served.2 now z).isSome = due z := fun z hz => by
          rw [remainingBoth,← remainingAppend] at hz
          obtain ⟨mem,off⟩ := memRemaining.1 hz
          rw [parts.same z mem off now]
          exact same z mem
        have apart : (remaining served.1 (before ++ [p]) ++ l).Nodup :=
          moved.sublist (List.Sublist.append_right List.filter_sublist l)
        rw [← ih parted apart same']
        by_cases stays : ∀ next ∈ (remaining gone l).head?, next ∉ served.1
        · rw [remainingFirst stays]
          exact (and_iff_right (.inl stays)).symm
        · obtain ⟨d,first,dies⟩ : ∃ d, (remaining gone l).head? = some d ∧ d ∈ served.1 := by
            simpa using stays
          rw [or_iff_right stays,first]
          refine servesDead parted (.inl dies) (fun z mem off => ?_) fun z mem on => ?_
          · exact same' z (List.mem_append_right _ (memRemaining.2 ⟨mem,off⟩))
          · exact (List.nodup_append.1 apart).2.2 z mem z on rfl

/- A tick reaches every due crontab timer just where no callback cancels the one behind its
own, or the links from there lead on all the same. -/
theorem ticksIffNextStays {q : TimerQueue} {l : List Ptr} (ready : Ready q l) (now : DateTime) (tv : TimeValue)
    (does : Nat → Upcall) :
    TickServes now tv does 0 q q.crontabTimers (fun z => (dueNow q now z).isSome) [] l ↔
      NextStays now tv does 0 [] q l := by
  obtain ⟨dead,parted⟩ := partedReady ready
  obtain ⟨_,_,_,filed,_⟩ := ready
  have walk := filedWalk filed
  have all : remaining [] l = l := remainingAll fun _ _ => List.not_mem_nil
  have start := (Lib.dllEnds walk).1
  have whole : Parted q ([] ++ remaining [] l) dead := by
    rw [all]
    exact parted
  rw [start,← servesLeft whole (Lib.dllNodup walk) fun _ _ => rfl,all]

end Tick

/- Four crontab timers that are due every minute, the last of them the oldest. -/
def fourTimers : List Op :=
  [.crontab (some (.user 1)) 0 (.parsed TimerIds.everyMinute) (.set 60 0) 0,
    .crontab (some (.user 2)) 0 (.parsed TimerIds.everyMinute) (.set 60 0) 0,
    .crontab (some (.user 3)) 0 (.parsed TimerIds.everyMinute) (.set 60 0) 0,
    .crontab (some (.user 4)) 0 (.parsed TimerIds.everyMinute) (.set 60 0) 0]

/- The first callback cancels one timer. -/
def firstCancels (id : Int) (k : Nat) : Upcall := ⟨if k = 0 then .next id true .done .done else .done,0,.done⟩

/- The first one served cancels the third. -/
theorem thirdIsCanceled : ∃ q, run apply (make 20 8) fourTimers = some q ∧
    (TickServes ⟨0,0,1,1,0⟩ (.set 120 0) (firstCancels 2) 0 q q.crontabTimers
        (fun z => (dueNow q ⟨0,0,1,1,0⟩ z).isSome) [] (crontabList q) ↔
      NextStays ⟨0,0,1,1,0⟩ (.set 120 0) (firstCancels 2) 0 [] q (crontabList q)) := by
  have runs : (run apply (make 20 8) fourTimers).isSome := by decide +kernel
  obtain ⟨q,reached⟩ := Option.isSome_iff_exists.1 runs
  exact ⟨q,reached,ticksIffNextStays (reachedReady (by decide) (by decide +kernel) reached) _ _ _⟩

/- The first one served cancels the second: its node is on the free list by itself then,
so that neither the third nor the fourth is served. -/
theorem othersAreLost : ¬ ∀ (maxSize : Int) (preAlloc : Nat) (ops : List Op) (q : TimerQueue),
    Along apply Inside (make maxSize preAlloc) ops → run apply (make maxSize preAlloc) ops = some q →
      ∀ (now : DateTime) (tv : TimeValue) (does : Nat → Upcall),
        TickServes now tv does 0 q q.crontabTimers (fun z => (dueNow q now z).isSome) [] (crontabList q) := by
  intro claim
  have facts : ((run apply (make 20 8) fourTimers).bind fun q =>
      (tick ⟨0,0,1,1,0⟩ (.set 120 0) (firstCancels 3) 9 0 q q.crontabTimers).map fun r =>
        (crontabList q,r.1,(dueNow q ⟨0,0,1,1,0⟩ 9).isSome)) = some ([11,10,9,8],[⟨11,[10]⟩],true) := by decide +kernel
  obtain ⟨q,reached,ticks⟩ := Option.bind_eq_some_iff.1 facts
  obtain ⟨r,runs,same⟩ := Option.map_eq_some_iff.1 ticks
  simp only [Prod.mk.injEq] at same
  obtain ⟨fuel,turns,q',ran,serves⟩ := claim 20 8 fourTimers q (by decide +kernel) reached ⟨0,0,1,1,0⟩ (.set 120 0) (firstCancels 3)
  cases tickSame runs ran
  obtain ⟨list,only,isDue⟩ := same
  have only : turns = [⟨11,[10]⟩] := only
  rw [list,only,Served] at serves
  split at serves
  · obtain ⟨t,later,split,_,rest⟩ := serves
    cases split
    have none_ := servedNone.1 rest 9 (by decide) (by decide)
    exact absurd (none_.symm.trans isDue) nofun
  · exact absurd (servedMem serves) (by decide)

end CuteNdk.TimerTick
