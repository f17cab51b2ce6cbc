import CuteNdk.TimerMixedRuns

/-! The crontab list of a timer_queue over runs in which no cancel takes its first or
its last timer: cancel unlinks a timer that has a neighbour on both sides, leaves
the first one linked, and drops the whole list with the last one. -/
namespace CuteNdk.TimerMixed
open TimerQueue
open TimerIds (crontabList)
open Lib (Seg Dll dllCongr segCongr relink)

/- The time handle_timeout compares the entries with. -/
structure DateTime where
  min : Nat
  hour : Nat
  mday : Nat
  month : Nat
  wday : Nat
  deriving DecidableEq, Repr

def matchesNow (e : CronEntry) (now : DateTime) : Bool :=
  e.min.getD now.min false && e.hour.getD now.hour false && e.mday.getD now.mday false &&
    e.month.getD now.month false && e.wday.getD now.wday false

/- The loop of handle_timeout from iter on, where ret is what each handler's own
handle_timeout returns. -/
def handleTimeoutFrom (now : DateTime) (tv : TimeValue) (ret : Handler → Arg → Int) :
    Nat → TimerQueue → Option Ptr → Option TimerQueue
  | 0, _, _ => none
  | _ + 1, q, none => some q
  | fuel + 1, q, some node =>
    match (q.nodes node).crontabEntry, (q.nodes node).handler with
    | some e, some eh =>
      if matchesNow e now then
        let q := q.call (.timeout eh (q.nodes node).arg tv)
        let q := if ret eh (q.nodes node).arg ≠ 0 then q.call (.close eh) else q
        handleTimeoutFrom now tv ret fuel q (q.nodes node).next
      else handleTimeoutFrom now tv ret fuel q (q.nodes node).next
    | _, _ => handleTimeoutFrom now tv ret fuel q (q.nodes node).next

def handleTimeout (q : TimerQueue) (now : DateTime) (tv : TimeValue) (ret : Handler → Arg → Int) :
    Option TimerQueue := handleTimeoutFrom now tv ret (q.made + 1) q q.crontabTimers

/- A call that cancels by id or by handler does not take the first or the last
crontab timer. -/
def SparesEnds (q : TimerQueue) (taken : Ptr → Prop) : Prop :=
  (∀ z ∈ (crontabList q).head?, ¬taken z) ∧ ∀ z ∈ (crontabList q).getLast?, ¬taken z

def Inside (q : TimerQueue) : Op → Prop
  | .cancel id _ => SparesEnds q fun z => q.ident z = id
  | .cancelHandler eh _ => eh ≠ none → SparesEnds q fun z => (q.nodes z).handler = eh
  | .expire current ret => ∀ p ∈ q.due current, .zero < (q.nodes p).interval →
      answer (q.nodes p).handler ret < 0 → SparesEnds q fun z => q.ident z = q.ident p
  | _ => True

instance (q : TimerQueue) (taken : Ptr → Prop) [DecidablePred taken] : Decidable (SparesEnds q taken) := by
  unfold SparesEnds; infer_instance

instance (q : TimerQueue) (op : Op) : Decidable (Inside q op) :=
  match op with
  | .cancel _ _ => inferInstanceAs (Decidable (SparesEnds _ _))
  | .cancelHandler _ _ => inferInstanceAs (Decidable (_ → SparesEnds _ _))
  | .expire _ _ => inferInstanceAs (Decidable (∀ p ∈ q.due _, _ → _ → SparesEnds _ _))
  | .schedule _ _ _ _ => isTrue trivial
  | .crontab _ _ _ _ _ => isTrue trivial
  | .resetInterval _ _ => isTrue trivial
  | .dispatch _ => isTrue trivial

/- The queue as one of crontab timers: its heap and the free list of general timers
are empty. -/
def cronOnly (q : TimerQueue) : TimerQueue :=
  { q with currSize := 0, freeTimerNodes := none, timerHeapSize := q.timerIdsSize, minTimerId := 0 }

structure Filed (q : TimerQueue) (heap free crontab freeCrontab : List Ptr) : Prop where
  mixed : Mixed q heap free
  shape : Shape (cronOnly q) ⟨[],crontab,[],freeCrontab⟩
  range : ∀ p ∈ crontab, 0 ≤ q.ident p ∧ q.ident p < q.timerIdsSize

section Filed
variable {q q' : TimerQueue} {heap free crontab freeCrontab : List Ptr} {p : Ptr}

theorem shapeOfCron (walk : Dll q.nextOf q.prevOf q.crontabTimers crontab.getLast? crontab)
    (freed : Seg q.nextOf q.freeCrontabTimers freeCrontab none) (apart : (crontab ++ freeCrontab).Nodup)
    (cron : ∀ z ∈ crontab ++ freeCrontab, Cron q z) : Shape (cronOnly q) ⟨[],crontab,[],freeCrontab⟩ := by
  have all : Lists.all ⟨[],crontab,[],freeCrontab⟩ = crontab ++ freeCrontab := by
    simp [Lists.all]
  have none_ : ∀ (P : Ptr → Prop), ∀ z ∈ ([] : List Ptr), P z := fun _ _ hz => absurd hz List.not_mem_nil
  refine ⟨⟨⟨?_,?_,?_⟩,?_,Nat.zero_le _,none_ _,?_⟩,rfl,le_rfl,walk,rfl,freed,?_,?_,none_ _,fun z hz => ?_,none_ _⟩
  · exact List.Perm.nil
  · exact List.nodup_nil
  · exact fun i hi => absurd hi (Nat.not_lt_zero i)
  · exact fun i hi => absurd hi (Nat.not_lt_zero i)
  · exact fun i _ hi => absurd hi (Nat.not_lt_zero i)
  · rw [all]
    exact apart
  · rw [all]
    exact fun z hz => (cron z hz).1
  · exact (cron z (List.mem_append_left _ hz)).2

theorem segCron (links : ∀ z, Cron q z → ∀ y ∈ (q.nodes z).next, Cron q y) {l : List Ptr} {start : Option Ptr}
    (first : ∀ z ∈ start, Cron q z) (walk : Seg q.nextOf start l none) : ∀ z ∈ l, Cron q z := by
  induction l generalizing start with
  | nil => exact fun z hz => absurd hz List.not_mem_nil
  | cons a l ih =>
    have here := first a walk.1
    intro z hz
    rcases List.mem_cons.1 hz with rfl | later
    · exact here
    · exact ih (links a here) walk.2 z later

theorem filedCron (h : Filed q heap free crontab freeCrontab) : ∀ z ∈ crontab ++ freeCrontab, Cron q z := by
  intro z hz
  have links := fun z is => (h.mixed.links z is).1
  rcases List.mem_append.1 hz with listed | freed
  · exact segCron links h.mixed.first h.shape.crontab.forth z listed
  · exact segCron links h.mixed.freed h.shape.freeCrontab z freed

theorem filedApart (h : Filed q heap free crontab freeCrontab) : (crontab ++ freeCrontab).Nodup := by
  have apart := h.shape.apart
  simp only [Lists.all,List.nil_append,List.append_nil] at apart
  exact apart

theorem filedWalk (h : Filed q heap free crontab freeCrontab) :
    Dll q.nextOf q.prevOf q.crontabTimers crontab.getLast? crontab := h.shape.crontab

theorem filedShort (h : Filed q heap free crontab freeCrontab) : crontab.length < q.made + 1 := crontabShort h.shape

theorem crontabListIs (h : Filed q heap free crontab freeCrontab) : crontabList q = crontab :=
  TimerIds.walkIs (filedWalk h).forth (filedShort h)

theorem filedBeside {heap' free' : List Ptr} (h : Filed q heap free crontab freeCrontab) (beside : Beside q q')
    (mixed : Mixed q' heap' free') : Filed q' heap' free' crontab freeCrontab := by
  have cron := filedCron h
  have same : ∀ z ∈ crontab ++ freeCrontab, q'.nodes z = q.nodes z := fun z hz => beside.nodes z (cron z hz)
  refine ⟨mixed,shapeOfCron ?_ ?_ (filedApart h) fun z hz => cronBeside beside (cron z hz),fun z hz => ?_⟩
  · rw [beside.crontabTimers]
    exact dllCongr h.shape.crontab (fun z hz => by simp only [nextOf,cronOnly,same z (List.mem_append_left _ hz)])
      fun z hz => by simp only [prevOf,cronOnly,same z (List.mem_append_left _ hz)]
  · rw [beside.freeCrontabTimers]
    refine (segCongr fun z hz => ?_).2 h.shape.freeCrontab
    simp only [nextOf,cronOnly,same z (List.mem_append_right _ hz)]
  · have range := h.range z hz
    have wider := beside.wider
    simp only [ident,same z (List.mem_append_left _ hz)] at range ⊢
    omega

/- A node of a crontab timer that is on neither list. -/
theorem filedHeld (h : Filed q heap free crontab freeCrontab) (off : p ∉ crontab ++ freeCrontab) (cron : Cron q p) :
    Held (cronOnly q) ⟨[],crontab,[],freeCrontab⟩ p := by
  refine ⟨h.shape,?_,cron.1⟩
  simp only [Lists.all,List.nil_append,List.append_nil]
  exact off

theorem cronOnlyFree (type : (q.nodes p).type = .crontab) : cronOnly (q.freeNode p) = (cronOnly q).freeNode p := by
  have released : cronOnly (q.releaseTimerid (q.nodes p).timerId)
      = (cronOnly q).releaseTimerid ((cronOnly q).nodes p).timerId := by
    unfold releaseTimerid
    by_cases inside : 0 ≤ (q.nodes p).timerId ∧ (q.nodes p).timerId < q.timerIdsSize
    · rw [if_pos inside]
      refine Eq.trans ?_ (if_pos inside).symm
      simp only [cronOnly,min_eq_right inside.1]
    · rw [if_neg inside]
      exact (if_neg inside).symm
  have type₁ : ((q.releaseTimerid (q.nodes p).timerId).nodes p).type = .crontab := by
    rw [releaseNodes]
    exact type
  unfold freeNode
  rw [← released,recycleCrontab type₁,recycleCrontab (q := cronOnly _) type₁]
  rfl

/- free_node, from a node on neither list. -/
theorem filedFree (mixed : Mixed q heap free) (held : Held (cronOnly q) ⟨[],crontab,[],freeCrontab⟩ p)
    (cron : Cron q p) (range : ∀ z ∈ crontab, 0 ≤ q.ident z ∧ q.ident z < q.timerIdsSize) :
    Filed (q.freeNode p) heap free crontab (p :: freeCrontab) := by
  have off : p ∉ crontab := fun mem => held.off (memAll.2 (.inr (.inl mem)))
  have freed := (heldFree held List.not_mem_nil).2 cron.2
  rw [← cronOnlyFree cron.2] at freed
  have size : (q.freeNode p).timerIdsSize = q.timerIdsSize := by
    rw [(freeNodeFreed q p).rest]
  refine ⟨(freeCron mixed cron).1,freed,fun z hz => ?_⟩
  have other : z ≠ p := fun same => off (same ▸ hz)
  rw [size]
  simp only [ident,freeNodeNodes other]
  exact range z hz

theorem cronOnlyInsert : cronOnly (q.insertCrontab p) = (cronOnly q).insertCrontab p := by
  unfold insertCrontab
  have same : (cronOnly q).crontabTimers = q.crontabTimers := rfl
  rw [same]
  cases q.crontabTimers <;> rfl

theorem filedInsert (mixed : Mixed q heap free) (held : Held (cronOnly q) ⟨[],crontab,[],freeCrontab⟩ p)
    (cron : Cron q p) (range : ∀ z ∈ p :: crontab, 0 ≤ q.ident z ∧ q.ident z < q.timerIdsSize) :
    Filed (q.insertCrontab p) heap free (p :: crontab) freeCrontab ∧ SameCards q (q.insertCrontab p) := by
  obtain ⟨q₁,inserted,shape,cards,_,rest⟩ := insertCrontabShape held cron.2
  rw [← cronOnlyInsert] at inserted
  subst inserted
  have idents : (q.insertCrontab p).ident = q.ident := sameIdent cards
  have size : (q.insertCrontab p).timerIdsSize = q.timerIdsSize := by
    unfold insertCrontab
    cases q.crontabTimers <;> rfl
  refine ⟨⟨(insertCrontabKeeps mixed cron).1,shape,?_⟩,cards⟩
  rw [idents,size]
  exact range

theorem cronOnlyUnlink : (cronOnly q).unlinkCrontab p = (q.unlinkCrontab p).map cronOnly := by
  unfold unlinkCrontab
  have same : (cronOnly q).crontabTimers = q.crontabTimers ∧ (cronOnly q).nodes = q.nodes := ⟨rfl,rfl⟩
  rw [same.1,same.2]
  by_cases first : q.crontabTimers = some p
  · rw [if_pos first,if_pos first]
    rfl
  · rw [if_neg first,if_neg first]
    cases (q.nodes p).prev <;> cases (q.nodes p).next <;> rfl

/- What unlinking a node that is not the first writes: the links of its neighbours and
its own, and where the list starts. -/
structure Unlinks (q q' : TimerQueue) (p : Ptr) : Prop where
  rest : q' = { q with nodes := q'.nodes, crontabTimers := q'.crontabTimers }
  fields : ∀ z, q'.nodes z = { q.nodes z with prev := (q'.nodes z).prev, next := (q'.nodes z).next }
  next : ∀ z, z ≠ p → q'.nextOf z = relink q.nextOf (q.prevOf p) (q.nextOf p) z
  prev : ∀ z, z ≠ p → q'.prevOf z = relink q.prevOf (q.nextOf p) (q.prevOf p) z
  self : q'.prevOf p = none ∧ q'.nextOf p = none
  start : q'.crontabTimers = if q.prevOf p ≠ none ∧ q.nextOf p ≠ none then q.crontabTimers else q.nextOf p

theorem linksTrans {q'' : TimerQueue}
    (one : ∀ z, q'.nodes z = { q.nodes z with prev := (q'.nodes z).prev, next := (q'.nodes z).next })
    (two : ∀ z, q''.nodes z = { q'.nodes z with prev := (q''.nodes z).prev, next := (q''.nodes z).next }) (z : Ptr) :
    q''.nodes z = { q.nodes z with prev := (q''.nodes z).prev, next := (q''.nodes z).next } := by
  rw [two z,one z]

theorem linksSet (q : TimerQueue) (p : Ptr) (prev next : Option Ptr) (z : Ptr) :
    (q.setNode p { q.nodes p with prev := prev, next := next }).nodes z =
      { q.nodes z with
        prev := ((q.setNode p { q.nodes p with prev := prev, next := next }).nodes z).prev
        next := ((q.setNode p { q.nodes p with prev := prev, next := next }).nodes z).next } := by
  by_cases here : z = p
  · subst z
    simp only [setNode,Function.update_self]
  · simp only [setNode,Function.update_of_ne here]

/- Once the neighbours know each other the node's own links are cleared. -/
theorem clearUnlinks (q₁ : TimerQueue) (rest : q₁ = { q with nodes := q₁.nodes, crontabTimers := q₁.crontabTimers })
    (fields : ∀ z, q₁.nodes z = { q.nodes z with prev := (q₁.nodes z).prev, next := (q₁.nodes z).next })
    (next : q₁.nextOf = relink q.nextOf (q.prevOf p) (q.nextOf p))
    (prev : q₁.prevOf = relink q.prevOf (q.nextOf p) (q.prevOf p))
    (start : q₁.crontabTimers = if q.prevOf p ≠ none ∧ q.nextOf p ≠ none then q.crontabTimers else q.nextOf p) :
    Unlinks q (q₁.setNode p { q₁.nodes p with prev := none, next := none }) p := by
  refine ⟨?_,linksTrans fields (linksSet q₁ p none none),fun z other => ?_,fun z other => ?_,?_,start⟩
  · exact rest ▸ rfl
  · rw [setNodeNext,Function.update_of_ne other,next]
  · rw [setNodePrev,Function.update_of_ne other,prev]
  · rw [setNodePrev,setNodeNext,Function.update_self,Function.update_self]
    exact ⟨rfl,rfl⟩

theorem unlinkCases (runs : q.unlinkCrontab p = some q') :
    q.crontabTimers = some p ∧ q' = q ∨ q.crontabTimers ≠ some p ∧ Unlinks q q' p := by
  unfold unlinkCrontab at runs
  split at runs
  · rename_i first
    cases Option.some.inj runs
    exact .inl ⟨first,rfl⟩
  · rename_i notFirst
    refine .inr ⟨notFirst,?_⟩
    simp only at runs
    split at runs
    case h_1 b c before after =>
      have before : q.prevOf p = some b := before
      have after : q.nextOf p = some c := after
      obtain ⟨q₁,def₁⟩ : ∃ q₁, q₁ = q.setNode c { q.nodes c with prev := some b } := ⟨_,rfl⟩
      rw [← def₁] at runs
      cases Option.some.inj runs
      have links₁ := linksSet q c (some b) (q.nodes c).next
      have next₁ : q₁.nextOf = q.nextOf := by
        rw [def₁,setNodeNext]
        exact Function.update_eq_self c q.nextOf
      refine clearUnlinks _ (by rw [def₁]; rfl) (linksTrans (def₁ ▸ links₁) (linksSet q₁ b (q₁.nodes b).prev (some c))) ?_ ?_ ?_
      · rw [setNodeNext,next₁,before,after]
        rfl
      · rw [setNodePrev,before,after]
        refine (Function.update_eq_self b q₁.prevOf).trans ?_
        rw [def₁,setNodePrev]
        rfl
      · rw [if_pos ⟨by rw [before]; exact Option.some_ne_none b,by rw [after]; exact Option.some_ne_none c⟩,def₁]
        rfl
    case h_2 c before after =>
      have before : q.prevOf p = none := before
      have after : q.nextOf p = some c := after
      obtain ⟨q₁,def₁⟩ : ∃ q₁, q₁ = q.setNode c { q.nodes c with prev := none } := ⟨_,rfl⟩
      rw [← def₁] at runs
      cases Option.some.inj runs
      have links₁ := linksSet q c none (q.nodes c).next
      have next₁ : q₁.nextOf = q.nextOf := by
        rw [def₁,setNodeNext]
        exact Function.update_eq_self c q.nextOf
      refine clearUnlinks { q₁ with crontabTimers := (q₁.nodes p).next } (by rw [def₁]; rfl) (def₁ ▸ links₁) ?_ ?_ ?_
      · rw [before]
        exact next₁
      · change q₁.prevOf = _
        rw [def₁,setNodePrev,before,after]
        rfl
      · rw [if_neg fun both => both.1 before]
        exact congrFun next₁ p
    case h_3 => cases runs
    case h_4 b before after =>
      have before : q.prevOf p = some b := before
      have after : q.nextOf p = none := after
      obtain ⟨q₁,def₁⟩ : ∃ q₁, q₁ = q.setNode b { q.nodes b with next := none } := ⟨_,rfl⟩
      rw [← def₁] at runs
      cases Option.some.inj runs
      have links₁ := linksSet q b (q.nodes b).prev none
      have next₁ : q₁.nextOf = Function.update q.nextOf b none := by
        rw [def₁,setNodeNext]
      refine clearUnlinks { q₁ with crontabTimers := (q₁.nodes p).next } (by rw [def₁]; rfl) (def₁ ▸ links₁) ?_ ?_ ?_
      · rw [before,after]
        exact next₁
      · change q₁.prevOf = _
        rw [def₁,setNodePrev,after]
        exact Function.update_eq_self b q.prevOf
      · rw [if_neg fun both => both.2 after]
        change q₁.nextOf p = _
        rw [next₁]
        by_cases here : p = b
        · subst here
          exact (Function.update_self _ _ _).trans after.symm
        · exact Function.update_of_ne here _ _

theorem unlinkEntries (runs : q.unlinkCrontab p = some q') (z : Ptr) :
    (q'.nodes z).crontabEntry = (q.nodes z).crontabEntry := by
  rcases unlinkCases runs with ⟨_,rfl⟩ | ⟨_,unlinks⟩
  · rfl
  · rw [unlinks.fields z]

/- A node of crontab timers that is not on the list has no entry, and none before it. -/
def Emptied (q : TimerQueue) (crontab : List Ptr) : Prop :=
  ∀ z, Cron q z → z ∉ crontab → (q.nodes z).crontabEntry = none ∧ q.prevOf z = none

theorem emptiedBeside (h : Emptied q crontab) (beside : Beside q q') : Emptied q' crontab := fun z cron off => by
  have before := beside.types z cron
  simp only [prevOf,beside.nodes z before]
  exact h z before off

/- One node is written that is on the list, or is one of those that are not. -/
theorem emptiedOne {crontab' : List Ptr} (h : Emptied q crontab) (others : ∀ z, z ≠ p → q'.nodes z = q.nodes z)
    (made : ∀ z, z ≠ p → z < q'.made → z < q.made) (listed : ∀ z ∈ crontab, z ≠ p → z ∈ crontab')
    (own : p ∈ crontab' ∨ (q'.nodes p).crontabEntry = none ∧ q'.prevOf p = none) : Emptied q' crontab' := by
  intro z cron off
  by_cases here : z = p
  · subst here
    exact own.resolve_left off
  · have same := others z here
    have before : Cron q z := ⟨made z here cron.1,same ▸ cron.2⟩
    simp only [prevOf,same]
    exact h z before fun mem => off (listed z mem here)

theorem freeNodeSelf (type : (q.nodes p).type = .crontab) :
    ((q.freeNode p).nodes p) = { q.nodes p with crontabEntry := none, next := q.freeCrontabTimers } := by
  have rest : (q.releaseTimerid (q.nodes p).timerId).freeCrontabTimers = q.freeCrontabTimers := by
    unfold releaseTimerid
    split <;> rfl
  unfold freeNode
  rw [recycleCrontab (by rw [releaseNodes]; exact type)]
  simp only [releaseNodes,rest,Function.update_self]

theorem emptiedFree (h : Emptied q (p :: crontab)) (type : (q.nodes p).type = .crontab) (prev : q.prevOf p = none) :
    Emptied (q.freeNode p) crontab := by
  have freed := freeNodeFreed q p
  refine emptiedOne h freed.nodes (fun z _ inside => ?_) (fun z mem other => (List.mem_cons.1 mem).resolve_left other) (.inr ?_)
  · rw [freed.rest] at inside
    exact inside
  · rw [prevOf,freeNodeSelf type]
    exact ⟨rfl,prev⟩

theorem emptiedAlloc {q₁ : TimerQueue} (h : Emptied q crontab) (alloc : q.allocNode .crontab = (p,q₁))
    (freed : ∀ z ∈ q.freeCrontabTimers, Cron q z) (off : p ∉ crontab) : Emptied q₁ crontab := by
  unfold allocNode at alloc
  cases front : q.freeCrontabTimers with
  | none =>
    rw [front] at alloc
    cases alloc
    refine emptiedOne h (fun _ other => Function.update_of_ne other _ _) (fun z other inside => ?_) (fun _ mem _ => mem)
      (.inr ?_)
    · exact Nat.lt_of_le_of_ne (Nat.lt_succ_iff.1 inside) other
    · simp only [prevOf,setNode,Function.update_self]
      exact ⟨rfl,rfl⟩
  | some a =>
    rw [front] at alloc
    cases alloc
    refine emptiedOne h (fun _ other => Function.update_of_ne other _ _) (fun _ _ inside => inside) (fun _ mem _ => mem)
      (.inr ?_)
    simp only [prevOf,setNode,Function.update_self]
    exact h p (freed p front) off

theorem emptiedSet (h : Emptied q crontab) (p : Ptr) (n : TimerNode) : Emptied (q.numbered p n) (p :: crontab) :=
  emptiedOne h (fun _ other => Function.update_of_ne other _ _) (fun _ _ inside => inside)
    (fun _ mem _ => List.mem_cons_of_mem p mem) (.inl List.mem_cons_self)

theorem emptiedUnlink {l₁ l₂ : List Ptr} (h : Emptied q crontab)
    (walk : Dll q.nextOf q.prevOf q.crontabTimers crontab.getLast? crontab) (split : crontab = l₁ ++ p :: l₂)
    (before : l₁ ≠ []) (runs : q.unlinkCrontab p = some q') : Emptied q' (p :: (l₁ ++ l₂)) ∧ q'.prevOf p = none := by
  have nodup := Lib.dllNodup walk
  have start := (Lib.dllEnds walk).1
  rw [split] at walk nodup start
  rcases unlinkCases runs with ⟨first,_⟩ | ⟨_,unlinks⟩
  · rw [first,List.head?_append_of_ne_nil _ before] at start
    have apart := (List.nodup_append.1 nodup).2.2
    exact absurd rfl (apart p (List.mem_of_mem_head? start.symm) p List.mem_cons_self)
  · refine ⟨fun z cron off => ?_,unlinks.self.1⟩
    have other : z ≠ p := fun same => off (same ▸ List.mem_cons_self)
    have rest : z ∉ l₁ ++ l₂ := fun mem => off (List.mem_cons_of_mem p mem)
    have same := unlinks.fields z
    have made : q'.made = q.made := by rw [unlinks.rest]
    have type : (q'.nodes z).type = (q.nodes z).type := by rw [same]
    have listed : z ∉ crontab := by
      rw [split]
      exact fun mem => off (List.perm_middle.subset mem)
    have notNext : q.nextOf p ≠ some z := fun next =>
      rest (List.mem_append_right _ (List.mem_of_mem_head? ((Lib.dllNeighbours walk).1.symm.trans next)))
    have before := h z ⟨made ▸ cron.1,type ▸ cron.2⟩ listed
    rw [unlinks.prev z other,Lib.relinkApart notNext,same]
    exact before

/- A timer with a neighbour on both sides is unlinked and freed. -/
theorem filedUnlink (h : Filed q heap free crontab freeCrontab) {l₁ l₂ : List Ptr} (split : crontab = l₁ ++ p :: l₂)
    (before : l₁ ≠ []) (after : l₂ ≠ []) : ∃ q', q.unlinkCrontab p = some q' ∧
      Filed (q'.freeNode p) heap free (l₁ ++ l₂) (p :: freeCrontab) ∧
      (∀ z, z ≠ p → (q'.freeNode p).card z = q.card z ∧
        ((q'.freeNode p).nodes z).crontabEntry = (q.nodes z).crontabEntry) ∧
      (q'.freeNode p).calls = q.calls ∧ (Emptied q crontab → Emptied (q'.freeNode p) (l₁ ++ l₂)) := by
  have listed : p ∈ crontab := split ▸ List.mem_append_right _ List.mem_cons_self
  have cron := filedCron h p (List.mem_append_left _ listed)
  obtain ⟨q₁,unlinked,held,cards,_,rest⟩ := unlinkCrontabInside h.shape split before after
  rw [cronOnlyUnlink] at unlinked
  obtain ⟨q',unlinks,rfl⟩ := Option.map_eq_some_iff.1 unlinked
  obtain ⟨mixed,stays⟩ := unlinkKeeps h.mixed cron unlinks
  have idents : q'.ident = q.ident := sameIdent cards
  have same := congrArg timerIdsSize rest
  have size : q'.timerIdsSize = q.timerIdsSize := same
  have same' := congrArg TimerQueue.calls rest
  have calls : q'.calls = q.calls := same'
  have range : ∀ z ∈ l₁ ++ l₂, 0 ≤ q'.ident z ∧ q'.ident z < q'.timerIdsSize := fun z hz => by
    rw [idents,size]
    refine h.range z ?_
    rw [split]
    exact (List.mem_append.1 hz).elim (List.mem_append_left _) fun later =>
      List.mem_append_right _ (List.mem_cons_of_mem p later)
  refine ⟨q',unlinks,filedFree mixed held (stays p cron) range,fun z other => ⟨?_,?_⟩,?_,fun emptied =>
    emptiedFree (emptiedUnlink emptied (filedWalk h) split before unlinks).1 (stays p cron).2
      (emptiedUnlink emptied (filedWalk h) split before unlinks).2⟩
  · have same : q'.card z = q.card z := cards z
    rw [← same]
    simp only [card,ident,freeNodeNodes other]
  · rw [freeNodeNodes other]
    exact unlinkEntries unlinks z
  · rw [(freeNodeFreed q' p).rest]
    exact calls

/- The first crontab timer with an id, if one has it. -/
theorem findSplits {l : List Ptr} (id : Int) {fuel : Nat} {start : Option Ptr} (walk : Seg q.nextOf start l none)
    (enough : l.length < fuel) :
    (q.findCrontab id fuel start = some none ∧ ∀ z ∈ l, q.ident z ≠ id) ∨
      ∃ z l₁ l₂, q.findCrontab id fuel start = some (some z) ∧ l = l₁ ++ z :: l₂ ∧ q.ident z = id ∧
        ∀ y ∈ l₁, q.ident y ≠ id := by
  induction l generalizing fuel start with
  | nil => exact Or.inl ⟨findCrontabMisses walk enough nofun,nofun⟩
  | cons a l ih =>
    obtain ⟨n,rfl⟩ := Nat.exists_eq_succ_of_ne_zero (Nat.ne_of_gt (Nat.zero_lt_of_lt enough))
    by_cases here : q.ident a = id
    · refine Or.inr ⟨a,[],l,?_,rfl,here,nofun⟩
      rw [walk.1]
      exact if_pos here.symm
    · have on : q.findCrontab id (n + 1) start = q.findCrontab id n (q.nextOf a) := by
        rw [walk.1]
        exact if_neg fun same => here same.symm
      rw [on]
      rcases ih walk.2 (Nat.lt_of_succ_lt_succ enough) with ⟨misses,others⟩ | ⟨z,l₁,l₂,finds,split,same,others⟩
      · exact Or.inl ⟨misses,fun z hz => (List.mem_cons.1 hz).elim (fun eq => eq ▸ here) (others z)⟩
      · refine Or.inr ⟨z,a :: l₁,l₂,finds,by rw [split]; rfl,same,fun y hy => ?_⟩
        exact (List.mem_cons.1 hy).elim (fun eq => eq ▸ here) (others y)

/- Each crontab timer left was there before, the same, or has just been registered. -/
def Passes (q q' : TimerQueue) (crontab crontab' : List Ptr) (registers : Handler → Prop) : Prop :=
  ∀ z ∈ crontab', (z ∈ crontab ∧ q'.card z = q.card z) ∨ ∃ eh, registers eh ∧ (q'.nodes z).handler = some eh

def registers : Op → Handler → Prop
  | .crontab eh _ _ _ _, h => eh = some h
  | _, _ => False

theorem passesBeside (h : Filed q heap free crontab freeCrontab) (beside : Beside q q') (registers : Handler → Prop) :
    Passes q q' crontab crontab registers := fun z hz => by
  have same := beside.nodes z (filedCron h z (List.mem_append_left _ hz))
  refine Or.inl ⟨hz,?_⟩
  simp only [card,ident,same]

/- What a call does to the crontab timers and the nodes off their list. -/
structure Carries (q q' : TimerQueue) (crontab crontab' : List Ptr) (registers : Handler → Prop) : Prop where
  passes : Passes q q' crontab crontab' registers
  emptied : Emptied q crontab → Emptied q' crontab'

theorem carriesBeside (h : Filed q heap free crontab freeCrontab) (beside : Beside q q') (registers : Handler → Prop) :
    Carries q q' crontab crontab registers := ⟨passesBeside h beside registers,fun emptied => emptiedBeside emptied beside⟩

theorem passesTrans {q'' : TimerQueue} {crontab' crontab'' : List Ptr} {registers : Handler → Prop}
    (first : Passes q q' crontab crontab' fun _ => False) (second : Passes q' q'' crontab' crontab'' registers) :
    Passes q q'' crontab crontab'' registers := fun z hz => by
  rcases second z hz with ⟨before,same⟩ | new
  · rcases first z before with ⟨there,same'⟩ | ⟨eh,none_,_⟩
    · exact Or.inl ⟨there,same.trans same'⟩
    · exact none_.elim
  · exact Or.inr new

theorem carriesTrans {q'' : TimerQueue} {crontab' crontab'' : List Ptr} {registers : Handler → Prop}
    (first : Carries q q' crontab crontab' fun _ => False) (second : Carries q' q'' crontab' crontab'' registers) :
    Carries q q'' crontab crontab'' registers :=
  ⟨passesTrans first.passes second.passes,fun emptied => second.emptied (first.emptied emptied)⟩

/- A timer that is neither the first nor the last has neighbours. -/
theorem insideOf {l l₁ l₂ : List Ptr} {z : Ptr} (split : l = l₁ ++ z :: l₂) (first : ∀ y ∈ l.head?, y ≠ z)
    (last : ∀ y ∈ l.getLast?, y ≠ z) : l₁ ≠ [] ∧ l₂ ≠ [] := by
  constructor
  · rintro rfl
    exact first z (by rw [split]; rfl) rfl
  · rintro rfl
    exact last z (by rw [split]; exact List.getLast?_concat) rfl

theorem cancelFiled (h : Filed q heap free crontab freeCrontab) {id : Int} (spares : SparesEnds q fun z => q.ident z = id)
    {dontCall : Bool} {r : Int × Option Arg × TimerQueue} (runs : q.cancel id dontCall = some r) :
    ∃ heap' free' crontab' freeCrontab', Filed r.2.2 heap' free' crontab' freeCrontab' ∧
      Carries q r.2.2 crontab crontab' fun _ => False := by
  obtain ⟨first,last⟩ := spares
  rw [crontabListIs h] at first last
  unfold cancel at runs
  split at runs
  · cases Option.some.inj runs
    exact ⟨_,_,_,_,h,carriesBeside h (besideRefl q) _⟩
  · obtain ⟨found,walks,runs⟩ := Option.bind_eq_some_iff.1 runs
    rcases findSplits id (filedWalk h).forth (filedShort h) with
      ⟨misses,_⟩ | ⟨z,l₁,l₂,finds,split,same,_⟩
    · cases Option.some.inj (misses.symm.trans walks)
      obtain ⟨⟨heap',free',mixed⟩,beside⟩ := cancelGeneralKeeps h.mixed runs
      exact ⟨_,_,_,_,filedBeside h beside mixed,carriesBeside h beside _⟩
    · cases Option.some.inj (finds.symm.trans walks)
      obtain ⟨before,after⟩ := insideOf split (fun y hy eq => first y hy (eq ▸ same)) fun y hy eq => last y hy (eq ▸ same)
      obtain ⟨c,called⟩ := toldCalls q (q.nodes z).handler dontCall
      have h₀ := filedBeside h (besideCalls q c) (mixedCalls h.mixed c)
      obtain ⟨q₁,unlinks,filed,cards,_,emptied⟩ := filedUnlink h₀ split before after
      simp only [cancelCrontab,called,unlinks,Option.map_some] at runs
      cases Option.some.inj runs
      have off : z ∉ l₁ ++ l₂ := by
        have nodup := Lib.dllNodup h.shape.crontab
        rw [split] at nodup
        exact (List.nodup_cons.1 (List.perm_middle.nodup_iff.1 nodup)).1
      refine ⟨_,_,_,_,filed,fun y hy => Or.inl ⟨?_,(cards y fun eq => off (eq ▸ hy)).1⟩,emptied⟩
      rw [split]
      exact (List.mem_append.1 hy).elim (List.mem_append_left _) fun later =>
        List.mem_append_right _ (List.mem_cons_of_mem z later)

/- The loop of cancel(event_handler *), with the timers it has been past in done. -/
theorem cancelCrontabsFiled {eh : Handler} {fuel : Nat} {count : Int} (done : List Ptr) {rest : List Ptr}
    (h : Filed q heap free (done ++ rest) freeCrontab)
    (first : ∀ z ∈ (done ++ rest).head?, (q.nodes z).handler ≠ some eh)
    (last : ∀ z ∈ (done ++ rest).getLast?, (q.nodes z).handler ≠ some eh) {r : Int × TimerQueue}
    (runs : cancelCrontabs eh fuel q rest.head? count = some r) :
    ∃ crontab' freeCrontab', Filed r.2 heap free crontab' freeCrontab' ∧
      Carries q r.2 (done ++ rest) crontab' fun _ => False := by
  induction fuel generalizing q done rest freeCrontab count with
  | zero => cases runs
  | succ fuel ih =>
    cases rest with
    | nil =>
      cases Option.some.inj runs
      exact ⟨_,_,h,fun z hz => Or.inl ⟨hz,rfl⟩,id⟩
    | cons z rest =>
      have next : (q.nodes z).next = rest.head? := (Lib.dllNeighbours (filedWalk h)).1
      simp only [cancelCrontabs,List.head?_cons,next] at runs
      by_cases taken : some eh = (q.nodes z).handler
      · rw [if_pos taken] at runs
        obtain ⟨before,after⟩ := insideOf rfl (fun y hy eq => first y hy (eq ▸ taken.symm))
          fun y hy eq => last y hy (eq ▸ taken.symm)
        obtain ⟨q₁,unlinks,filed,cards,_,emptied⟩ := filedUnlink h rfl before after
        have off : z ∉ done ++ rest :=
          (List.nodup_cons.1 (List.perm_middle.nodup_iff.1 (Lib.dllNodup (filedWalk h)))).1
        have handlers : ∀ y ∈ done ++ rest, ((q₁.freeNode z).nodes y).handler = (q.nodes y).handler := fun y hy =>
          congrArg Card.handler (cards y fun eq => off (eq ▸ hy)).1
        have heads : (done ++ rest).head? = (done ++ z :: rest).head? := by
          rw [List.head?_append_of_ne_nil _ before,List.head?_append_of_ne_nil _ before]
        have lasts : (done ++ rest).getLast? = (done ++ z :: rest).getLast? := by
          rw [List.getLast?_append_of_ne_nil _ after,List.getLast?_append_of_ne_nil _ (List.cons_ne_nil z rest),
            List.getLast?_cons_of_ne_nil after]
        rw [unlinks] at runs
        obtain ⟨crontab',freeCrontab',filed',carries⟩ := ih done filed
          (fun y hy => by rw [handlers y (List.mem_of_mem_head? hy)]; exact first y (heads ▸ hy))
          (fun y hy => by rw [handlers y (List.mem_of_getLast? hy)]; exact last y (lasts ▸ hy)) runs
        refine ⟨crontab',freeCrontab',filed',fun y hy => ?_,fun before => carries.emptied (emptied before)⟩
        rcases carries.passes y hy with ⟨there,same⟩ | ⟨_,none_,_⟩
        · refine Or.inl ⟨?_,same.trans (cards y fun eq => off (eq ▸ there)).1⟩
          exact (List.mem_append.1 there).elim (List.mem_append_left _) fun later =>
            List.mem_append_right _ (List.mem_cons_of_mem z later)
        · exact none_.elim
      · rw [if_neg taken] at runs
        have again : done ++ z :: rest = (done ++ [z]) ++ rest := by
          rw [List.append_assoc]
          rfl
        rw [again] at h first last ⊢
        exact ih (done ++ [z]) h first last runs

theorem cancelHandlerFiled (h : Filed q heap free crontab freeCrontab) {eh : Option Handler}
    (spares : eh ≠ none → SparesEnds q fun z => (q.nodes z).handler = eh) {dontCall : Bool}
    {r : Int × TimerQueue} (runs : q.cancelHandler eh dontCall = some r) :
    ∃ heap' free' crontab' freeCrontab', Filed r.2 heap' free' crontab' freeCrontab' ∧
      Carries q r.2 crontab crontab' fun _ => False := by
  cases eh with
  | none =>
    cases Option.some.inj runs
    exact ⟨_,_,_,_,h,carriesBeside h (besideRefl q) _⟩
  | some eh =>
    obtain ⟨first,last⟩ := spares (Option.some_ne_none eh)
    rw [crontabListIs h] at first last
    obtain ⟨⟨count,q₁⟩,crontabs,runs⟩ := Option.bind_eq_some_iff.1 runs
    obtain ⟨⟨count',q₂⟩,generals,runs⟩ := Option.bind_eq_some_iff.1 runs
    rw [(Lib.dllEnds (filedWalk h)).1] at crontabs
    obtain ⟨crontab₁,freeCrontab₁,h₁,passes₁⟩ := cancelCrontabsFiled [] h first last crontabs
    obtain ⟨⟨heap₂,free₂,mixed₂⟩,beside₂⟩ := cancelGeneralsKeeps h₁.mixed generals
    have h₂ := filedBeside h₁ beside₂ mixed₂
    have passes₂ := carriesTrans passes₁ (carriesBeside h₁ beside₂ fun _ => False)
    cases Option.some.inj runs
    cases dontCall with
    | true => exact ⟨_,_,_,_,h₂,passes₂⟩
    | false =>
      have calls := besideCalls q₂ (q₂.calls ++ [.close eh])
      exact ⟨_,_,_,_,filedBeside h₂ calls (mixedCalls h₂.mixed _),carriesTrans passes₂ (carriesBeside h₂ calls _)⟩

/- crontab's own node, from the list of free ones or new. -/
theorem allocFiled (h : Filed q heap free crontab freeCrontab) : ∃ p q₁ freeCrontab₁,
    q.allocNode .crontab = (p,q₁) ∧ Filed q₁ heap free crontab freeCrontab₁ ∧ Cron q₁ p ∧
    p ∉ crontab ++ freeCrontab₁ ∧ (∀ z, z ≠ p → q₁.nodes z = q.nodes z) ∧ q₁ = { q with
      nodes := q₁.nodes
      freeCrontabTimers := q₁.freeCrontabTimers
      made := q₁.made } ∧
    q₁.ident p = q.freeCrontabTimers.elim (-1) q.ident := by
  obtain ⟨p,q₁,alloc,mixed,cron,_,rest,others,last⟩ := allocCronMixed h.mixed
  obtain ⟨p',q',freeCrontab₁,alloc',held,_,_,_⟩ := allocCrontab h.shape
  have both : (cronOnly q).allocNode .crontab = (p,cronOnly q₁) := by
    unfold allocNode at alloc ⊢
    have front : (cronOnly q).freeCrontabTimers = q.freeCrontabTimers := rfl
    rw [front]
    cases head : q.freeCrontabTimers with
    | none =>
      rw [head] at alloc
      cases alloc
      rfl
    | some z =>
      rw [head] at alloc
      cases alloc
      rfl
  rw [both] at alloc'
  cases alloc'
  have off := held.off
  simp only [Lists.all,List.nil_append,List.append_nil] at off
  refine ⟨p,q₁,freeCrontab₁,alloc,⟨mixed,held.shape,fun z hz => ?_⟩,cron,off,others,rest,last⟩
  have other : z ≠ p := fun same => off (List.mem_append_left _ (same ▸ hz))
  have size : q₁.timerIdsSize = q.timerIdsSize := by rw [rest]
  rw [size]
  simp only [ident,others z other]
  exact h.range z hz

/- What registering a crontab timer leaves alone, wherever it ends. -/
structure Apart (q q' : TimerQueue) (heap crontab : List Ptr) : Prop where
  rest : q' = { q with
    nodes := q'.nodes
    freeCrontabTimers := q'.freeCrontabTimers
    crontabTimers := q'.crontabTimers
    made := q'.made
    timerIds := q'.timerIds
    minTimerId := q'.minTimerId }
  heap : ∀ z ∈ heap, q'.nodes z = q.nodes z
  cards : ∀ z ∈ crontab, q'.card z = q.card z

theorem heapOff (h : Mixed q heap free) (cron : Cron q p) : ∀ z ∈ heap, z ≠ p := fun _ hz same =>
  cronOff h cron (List.mem_append_left _ (same ▸ hz))

/- Freeing a crontab node leaves the free nodes of the others alone. -/
theorem freeCronHeads (type : (q.nodes p).type = .crontab) : (q.freeNode p).freeTimerNodes = q.freeTimerNodes := by
  unfold freeNode
  rw [recycleCrontab (by rw [releaseNodes]; exact type)]
  unfold releaseTimerid
  split <;> rfl

/- No id left: the node is given back as it was. -/
theorem registerRefused (h : Filed q heap free crontab freeCrontab) (none_ : q.freeId = none) (eh : Handler) (arg : Arg)
    (entry : Entry) (now : TimeValue) : ∃ q' freeCrontab', q.registerCrontab eh arg entry now = some (-1,q') ∧
      Filed q' heap free crontab freeCrontab' ∧ Apart q q' heap crontab ∧
      q'.timerIds = (q.releaseTimerid (q.freeCrontabTimers.elim (-1) q.ident)).timerIds ∧
      (Emptied q crontab → Emptied q' crontab) := by
  obtain ⟨p,q₁,f₁,alloc,h₁,cron,off,others,rest,last⟩ := allocFiled h
  have none₁ : q₁.freeId = none := by
    rw [rest]
    exact none_
  have refused := allocTimeridRefuses none₁
  have freed := freeNodeFreed q₁ p
  have onHeap := heapOff h₁.mixed cron
  refine ⟨q₁.freeNode p,p :: f₁,?_,filedFree h₁.mixed (filedHeld h₁ off cron) cron h₁.range,⟨?_,fun z hz => ?_,
    fun z hz => ?_⟩,?_,fun emptied => ?_⟩
  · unfold registerCrontab
    simp only [alloc,refused]
  · rw [freed.rest,freeCronHeads cron.2,rest]
  · rw [freed.nodes z (onHeap z hz),others z (onHeap z hz)]
  · have other : z ≠ p := fun same => off (List.mem_append_left _ (same ▸ hz))
    simp only [card,ident,freed.nodes z other,others z other]
  · rw [freeIds,last]
    exact releaseIds (by rw [rest]) (by rw [rest]) _
  · have offList : p ∉ crontab := fun mem => off (List.mem_append_left _ mem)
    have emptied₁ := emptiedAlloc emptied alloc h.mixed.freed offList
    exact emptiedFree (fun z cron off => emptied₁ z cron fun mem => off (List.mem_cons_of_mem p mem)) cron.2 (emptied₁ p cron offList).2

/- The node of a crontab timer once it has its id, handler and argument. -/
theorem filedSet (h : Filed q heap free crontab freeCrontab) (cron : Cron q p) (off : p ∉ crontab ++ freeCrontab)
    {n : TimerNode} (type : n.type = .crontab) (next : n.next = none) (prev : n.prev = none) (low : 0 ≤ q.minTimerId) :
    Filed (q.numbered p n) heap free crontab freeCrontab ∧ Cron (q.numbered p n) p := by
  have mixed₁ : Mixed { q with minTimerId := q.minTimerId + 1 } heap free :=
    ⟨looseCongr h.mixed.loose rfl (Int.le_add_one low) (fun _ _ => rfl) h.mixed.loose.walk h.mixed.loose.apart
      h.mixed.loose.made,h.mixed.plain,h.mixed.first,h.mixed.freed,h.mixed.links⟩
  obtain ⟨mixed₂,stays⟩ := mixedSet mixed₁ cron type (n := n) (by rw [next]; exact nofun) (by rw [prev]; exact nofun)
  have held := heldSetNode (filedHeld h off cron) n
  refine ⟨⟨mixed₂,held.shape,fun z hz => ?_⟩,stays p cron⟩
  have other : z ≠ p := fun same => off (List.mem_append_left _ (same ▸ hz))
  simp only [ident,numberedNodes,Function.update_of_ne other]
  exact h.range z hz

theorem insertCrontabRest (q : TimerQueue) (p : Ptr) : q.insertCrontab p = { q with
      nodes := (q.insertCrontab p).nodes
      crontabTimers := (q.insertCrontab p).crontabTimers } ∧
    ∀ z, z ≠ p → q.crontabTimers ≠ some z → (q.insertCrontab p).nodes z = q.nodes z := by
  unfold insertCrontab
  cases q.crontabTimers with
  | none => exact ⟨rfl,fun z other _ => Function.update_of_ne other _ _⟩
  | some head =>
    refine ⟨rfl,fun z other notHead => ?_⟩
    have notHead : z ≠ head := fun same => notHead (congrArg some same.symm)
    simp only [setNode,Function.update_of_ne other,Function.update_of_ne notHead]

theorem emptiedInsert (h : Emptied q (p :: crontab)) (first : ∀ z ∈ q.crontabTimers, z ∈ crontab) :
    Emptied (q.insertCrontab p) (p :: crontab) := fun z cron off => by
  have rest := insertCrontabRest q p
  have other : z ≠ p := fun same => off (same ▸ List.mem_cons_self)
  have notFirst : q.crontabTimers ≠ some z := fun head => off (List.mem_cons_of_mem p (first z head))
  have same := rest.2 z other notFirst
  have made : (q.insertCrontab p).made = q.made := by rw [rest.1]
  simp only [prevOf,same]
  exact h z ⟨made ▸ cron.1,same ▸ cron.2⟩ off

/- There is an id: the timer is registered under it, or, when its entry does not
parse, the id goes back. -/
theorem registerAdds (h : Filed q heap free crontab freeCrontab) {k : Int} (got : q.freeId = some k) (eh : Handler)
    (arg : Arg) (e : CronEntry) (now : TimeValue) : ∃ p q' freeCrontab',
      q.registerCrontab eh arg (.parsed e) now = some (k,q') ∧ 0 ≤ k ∧
      Filed q' heap free (p :: crontab) freeCrontab' ∧ Apart q q' heap crontab ∧ q'.card p = ⟨k,.crontab,some eh,arg⟩ ∧
      (Emptied q crontab → Emptied q' (p :: crontab)) := by
  obtain ⟨p,q₁,f₁,alloc,h₁,cron,off,others,rest,last⟩ := allocFiled h
  have got₁ : q₁.freeId = some k := by
    rw [rest]
    exact got
  have low : 0 ≤ q₁.minTimerId := h₁.mixed.loose.low
  obtain ⟨least,high,_,_⟩ := firstFreeSound got₁
  have given : k ≠ -1 := by omega
  obtain ⟨n,hn⟩ : ∃ n, n = { filled (q₁.nodes p) k eh arg now with crontabEntry := some e, type := .crontab } := ⟨_,rfl⟩
  obtain ⟨q₂,def₂⟩ : ∃ q₂, q₂ = q₁.numbered p n := ⟨_,rfl⟩
  obtain ⟨h₂,cron₂⟩ := filedSet h₁ cron off (n := n) (by rw [hn]) (by rw [hn]; rfl) (by rw [hn]; rfl) low
  have isNew : q₂.card p = ⟨k,.crontab,some eh,arg⟩ := by
    rw [def₂,numberedCard,hn]
    rfl
  rw [← def₂] at h₂ cron₂
  have others₂ : ∀ z, z ≠ p → q₂.nodes z = q.nodes z := fun z other => by
    rw [def₂,numberedNodes,Function.update_of_ne other,others z other]
  have size : q₂.timerIdsSize = q₁.timerIdsSize := by
    rw [def₂]
    rfl
  have range : ∀ z ∈ p :: crontab, 0 ≤ q₂.ident z ∧ q₂.ident z < q₂.timerIdsSize := fun z hz => by
    rcases List.mem_cons.1 hz with rfl | old
    · have self : q₂.ident z = k := congrArg Card.id isNew
      rw [self,size]
      omega
    · exact h₂.range z old
  obtain ⟨h₃,cards⟩ := filedInsert h₂.mixed (filedHeld h₂ off cron₂) cron₂ range
  have offList : ∀ z ∈ crontab, z ≠ p := fun z hz same => off (List.mem_append_left _ (same ▸ hz))
  refine ⟨p,q₂.insertCrontab p,f₁,?_,by omega,h₃,⟨?_,fun z hz => ?_,fun z hz => ?_⟩,(cards p).trans isNew,
    fun emptied => ?_⟩
  · rw [registerParsed alloc got₁ given,def₂,hn]
  · rw [(insertCrontabRest q₂ p).1]
    have rest₂ : q₂ = { q₁ with nodes := q₂.nodes, minTimerId := q₂.minTimerId } := by
      rw [def₂]
      rfl
    rw [rest₂,rest]
  · have notHead : q₂.crontabTimers ≠ some z := fun head =>
      cronOff h₂.mixed (h₂.mixed.first z head) (List.mem_append_left _ hz)
    have other := heapOff h₁.mixed cron z hz
    rw [(insertCrontabRest q₂ p).2 z other notHead,others₂ z other]
  · have other := offList z hz
    rw [cards z]
    simp only [card,ident,others₂ z other]
  · have emptied₁ := emptiedAlloc emptied alloc h.mixed.freed fun mem => off (List.mem_append_left _ mem)
    have emptied₂ := emptiedSet emptied₁ p n
    rw [← def₂] at emptied₂
    refine emptiedInsert emptied₂ fun z head => ?_
    rw [(Lib.dllEnds (filedWalk h₂)).1] at head
    exact List.mem_of_mem_head? head

/- The next id to hand out is again the one that was given back. -/
theorem freeIdReleased {k : Int} (got : q.freeId = some k) {q' : TimerQueue} (size : q'.timerIdsSize = q.timerIdsSize)
    (ids : q'.timerIds = q.timerIds) (least : q'.minTimerId = min k (q.minTimerId + 1)) : q'.freeId = some k := by
  obtain ⟨low,high,_,before⟩ := firstFreeSound got
  unfold freeId
  rw [ids,least,size]
  by_cases here : k = q.minTimerId
  · rw [min_eq_left (by omega),here]
    rw [here] at got
    exact got
  · rw [min_eq_right (by omega)]
    obtain ⟨m,hm⟩ : ∃ m, (q.timerIdsSize - q.minTimerId).toNat = m + 1 :=
      ⟨(q.timerIdsSize - q.minTimerId).toNat - 1,by omega⟩
    have less : (q.timerIdsSize - (q.minTimerId + 1)).toNat = m := by omega
    have search := got
    unfold freeId at search
    rw [hm] at search
    simp only [firstFree,if_neg (before q.minTimerId le_rfl (by omega))] at search
    rw [less]
    exact search

/- An entry that does not parse: the id goes back. -/
theorem registerRejects (h : Filed q heap free crontab freeCrontab) {k : Int} (got : q.freeId = some k) (eh : Handler)
    (arg : Arg) (entry : Entry) (bad : ∀ e, entry ≠ .parsed e) (now : TimeValue) : ∃ q' freeCrontab',
      q.registerCrontab eh arg entry now = some (-1,q') ∧ Filed q' heap free crontab freeCrontab' ∧
      Apart q q' heap crontab ∧ q'.timerIds = q.timerIds ∧ q'.freeId = some k ∧ (Emptied q crontab → Emptied q' crontab) := by
  obtain ⟨p,q₁,f₁,alloc,h₁,cron,off,others,rest,last⟩ := allocFiled h
  have got₁ : q₁.freeId = some k := by
    rw [rest]
    exact got
  have low : 0 ≤ q₁.minTimerId := h₁.mixed.loose.low
  obtain ⟨least,high,vacant,_⟩ := firstFreeSound got₁
  have given : k ≠ -1 := by omega
  obtain ⟨q₂,def₂⟩ : ∃ q₂, q₂ = q₁.numbered p (filled (q₁.nodes p) k eh arg now) := ⟨_,rfl⟩
  obtain ⟨h₂,cron₂⟩ := filedSet h₁ cron off (n := filled (q₁.nodes p) k eh arg now) cron.2 rfl rfl low
  rw [← def₂] at h₂ cron₂
  have others₂ : ∀ z, z ≠ p → q₂.nodes z = q.nodes z := fun z other => by
    rw [def₂,numberedNodes,Function.update_of_ne other,others z other]
  have self : (q₂.nodes p).timerId = k := by
    rw [def₂,numberedNodes,Function.update_self]
    rfl
  have ids : q₂.timerIds = q.timerIds ∧ q₂.timerIdsSize = q.timerIdsSize ∧ q₂.minTimerId = q.minTimerId + 1 ∧
      q₁.timerIds = q.timerIds ∧ q₁.timerIdsSize = q.timerIdsSize ∧ q₁.minTimerId = q.minTimerId := by
    rw [def₂,rest]
    exact ⟨rfl,rfl,rfl,rfl,rfl,rfl⟩
  rw [ids.2.2.2.2.2] at high low
  rw [ids.2.2.2.2.1] at high
  rw [ids.2.2.2.1] at vacant
  have freed := freeNodeFreed q₂ p
  have released : (q₂.freeNode p).timerIds = q.timerIds ∧ (q₂.freeNode p).minTimerId = min k (q.minTimerId + 1) := by
    unfold freeNode
    rw [recycleCrontab (by rw [releaseNodes]; exact cron₂.2)]
    change (q₂.releaseTimerid (q₂.nodes p).timerId).timerIds = _ ∧ (q₂.releaseTimerid (q₂.nodes p).timerId).minTimerId = _
    unfold releaseTimerid
    rw [self,if_pos (by omega)]
    refine ⟨?_,by rw [ids.2.2.1]⟩
    rw [ids.1,← vacant,Function.update_eq_self]
  have size : (q₂.freeNode p).timerIdsSize = q.timerIdsSize := by
    rw [freed.rest]
    exact ids.2.1
  refine ⟨q₂.freeNode p,p :: f₁,?_,filedFree h₂.mixed (filedHeld h₂ off cron₂) cron₂ h₂.range,⟨?_,fun z hz => ?_,
    fun z hz => ?_⟩,released.1,freeIdReleased got size released.1 released.2,fun emptied => ?_⟩
  · rw [registerUnparsed alloc got₁ given bad,def₂]
  · have rest₂ : q₂ = { q₁ with nodes := q₂.nodes, minTimerId := q₂.minTimerId } := by
      rw [def₂]
      rfl
    rw [freed.rest,freeCronHeads cron₂.2,rest₂,rest]
  · have other := heapOff h₁.mixed cron z hz
    rw [freed.nodes z other,others₂ z other]
  · have other : z ≠ p := fun same => off (List.mem_append_left _ (same ▸ hz))
    simp only [card,ident,freed.nodes z other,others₂ z other]
  · have emptied₁ := emptiedAlloc emptied alloc h.mixed.freed fun mem => off (List.mem_append_left _ mem)
    have emptied₂ := emptiedSet emptied₁ p (filled (q₁.nodes p) k eh arg now)
    rw [← def₂] at emptied₂
    refine emptiedFree emptied₂ cron₂.2 ?_
    rw [prevOf,def₂,numberedNodes,Function.update_self]
    rfl

theorem carriesApart (apart : Apart q q' heap crontab) (emptied : Emptied q crontab → Emptied q' crontab)
    (registers : Handler → Prop) : Carries q q' crontab crontab registers :=
  ⟨fun z hz => Or.inl ⟨hz,apart.cards z hz⟩,emptied⟩

/- startDriver is schedule or nothing. -/
theorem driverBeside (h : Mixed q heap free) {now : TimeValue} {sec : Int} {r : Int × TimerQueue}
    (runs : q.startDriver now sec = some r) : Kept r.2 ∧ Beside q r.2 := by
  unfold startDriver at runs
  split at runs
  · exact scheduleKeeps h runs
  · cases Option.some.inj runs
    exact ⟨⟨heap,free,h⟩,besideRefl q⟩

theorem crontabFiled (h : Filed q heap free crontab freeCrontab) {eh : Option Handler} {arg : Arg} {entry : Entry}
    {now : TimeValue} {sec : Int} {r : Int × TimerQueue} (runs : q.crontab eh arg entry now sec = some r) :
    ∃ heap' free' crontab' freeCrontab', Filed r.2 heap' free' crontab' freeCrontab' ∧
      Carries q r.2 crontab crontab' fun h => eh = some h := by
  rcases crontabCases runs with rfl | ⟨h',result,q₁,same,started,ends⟩
  · exact ⟨_,_,_,_,h,carriesBeside h (besideRefl q) _⟩
  · obtain ⟨⟨heap₁,free₁,mixed₁⟩,beside⟩ := driverBeside h.mixed started
    have h₁ := filedBeside h beside mixed₁
    have carries := carriesBeside h beside fun _ => False
    rcases ends with rfl | runs
    · exact ⟨_,_,_,_,h₁,carriesBeside h beside _⟩
    · cases got : q₁.freeId with
      | none =>
        obtain ⟨q',f',gives,h₂,apart,_,emptied⟩ := registerRefused h₁ got h' arg entry now
        cases Option.some.inj (gives.symm.trans runs)
        exact ⟨_,_,_,_,h₂,carriesTrans carries (carriesApart apart emptied _)⟩
      | some k =>
        by_cases bad : ∀ e, entry ≠ .parsed e
        · obtain ⟨q',f',gives,h₂,apart,_,_,emptied⟩ := registerRejects h₁ got h' arg entry bad now
          cases Option.some.inj (gives.symm.trans runs)
          exact ⟨_,_,_,_,h₂,carriesTrans carries (carriesApart apart emptied _)⟩
        · obtain ⟨e,good⟩ := not_forall.1 bad
          rw [not_not.1 good] at runs
          obtain ⟨p,q',f',gives,_,h₂,apart,cardP,emptied⟩ := registerAdds h₁ got h' arg e now
          cases Option.some.inj (gives.symm.trans runs)
          refine ⟨_,_,_,_,h₂,carriesTrans carries ⟨fun z hz => ?_,emptied⟩⟩
          rcases List.mem_cons.1 hz with rfl | old
          · exact Or.inr ⟨h',same,congrArg Card.handler cardP⟩
          · exact Or.inl ⟨old,apart.cards z old⟩

/- The node a dispatch hands back is the one that was due. -/
theorem dispatchedDue (h : Mixed q heap free) (some_ : q.currSize ≠ 0) {current : TimeValue} {node : TimerNode}
    (dispatched : q.dispatchTimer current = some (some node,q')) : ∃ p, q.due current = some p ∧ node = q.nodes p := by
  have filled : q.heapAt 0 = some (q.slotNode 0) := h.loose.order.filled 0 (Nat.pos_of_ne_zero some_)
  simp only [dispatchTimer,filled,bind,Option.bind] at dispatched
  split at dispatched
  case isFalse => cases dispatched
  case isTrue early =>
    refine ⟨q.slotNode 0,?_,?_⟩
    · unfold due
      rw [if_neg some_,filled]
      exact if_pos early
    · obtain ⟨q₂,removed,nodes,_⟩ := removeFreed h (Nat.pos_of_ne_zero some_)
      simp only [removed,nodes] at dispatched
      split at dispatched
      · cases dispatched
      · cases dispatched
        rfl

theorem expireFiled (h : Filed q heap free crontab freeCrontab) {current : TimeValue} {ret : Int}
    (inside : Inside q (.expire current ret)) {r : Int × TimerQueue} (runs : q.expire current ret = some r) :
    ∃ heap' free' crontab' freeCrontab', Filed r.2 heap' free' crontab' freeCrontab' ∧
      Carries q r.2 crontab crontab' fun _ => False := by
  cases expires runs with
  | empty => exact ⟨_,_,_,_,h,carriesBeside h (besideRefl q) _⟩
  | late some_ dispatched =>
    obtain ⟨⟨_,_,mixed₁⟩,beside⟩ := dispatchKeeps h.mixed (Nat.pos_of_ne_zero some_) dispatched
    exact ⟨_,_,_,_,filedBeside h beside mixed₁,carriesBeside h beside _⟩
  | told some_ dispatched c =>
    obtain ⟨⟨_,_,mixed₁⟩,beside⟩ := dispatchKeeps h.mixed (Nat.pos_of_ne_zero some_) dispatched
    have h₁ := filedBeside h beside mixed₁
    exact ⟨_,_,_,_,filedBeside h₁ (besideCalls _ c) (mixedCalls mixed₁ c),
      carriesBeside h (besideTrans beside (besideCalls _ c)) _⟩
  | @cancelled node q₁ r some_ dispatched c negative periodic cancelled =>
    obtain ⟨⟨_,_,mixed₁⟩,beside⟩ := dispatchKeeps h.mixed (Nat.pos_of_ne_zero some_) dispatched
    have called := filedBeside (filedBeside h beside mixed₁) (besideCalls q₁ c) (mixedCalls mixed₁ c)
    have beside' := besideTrans beside (besideCalls q₁ c)
    obtain ⟨p,due,isNode⟩ := dispatchedDue h.mixed some_ dispatched
    rw [isNode] at periodic negative cancelled
    obtain ⟨first,last⟩ := inside p due periodic negative
    have lists : crontabList { q₁ with calls := c } = crontabList q := by
      rw [crontabListIs called,crontabListIs h]
    have idents : ∀ z ∈ crontabList q, ident { q₁ with calls := c } z = q.ident z := fun z hz => by
      rw [crontabListIs h] at hz
      have same := beside'.nodes z (filedCron h z (List.mem_append_left _ hz))
      exact congrArg TimerNode.timerId same
    have spares : SparesEnds { q₁ with calls := c } fun z => ident { q₁ with calls := c } z = q.ident p := by
      unfold SparesEnds
      rw [lists]
      refine ⟨fun z hz eq => first z hz ?_,fun z hz eq => last z hz ?_⟩
      · exact (idents z (List.mem_of_mem_head? hz)).symm.trans eq
      · exact (idents z (List.mem_of_getLast? hz)).symm.trans eq
    obtain ⟨heap₂,free₂,crontab₂,f₂,h₂,passes⟩ := cancelFiled called spares cancelled
    exact ⟨_,_,_,_,h₂,carriesTrans (carriesBeside h beside' _) passes⟩

theorem applyFiled (h : Filed q heap free crontab freeCrontab) {op : Op} (inside : Inside q op)
    (runs : apply q op = some q') : ∃ heap' free' crontab' freeCrontab', Filed q' heap' free' crontab' freeCrontab' ∧
      Carries q q' crontab crontab' (registers op) := by
  have carried : ∀ {q' : TimerQueue}, Kept q' ∧ Beside q q' → ∃ heap' free' crontab' freeCrontab',
      Filed q' heap' free' crontab' freeCrontab' ∧ Carries q q' crontab crontab' (registers op) := by
    rintro q' ⟨⟨heap',free',mixed⟩,beside⟩
    exact ⟨_,_,_,_,filedBeside h beside mixed,carriesBeside h beside _⟩
  cases op with
  | schedule eh arg deadline interval =>
    obtain ⟨r,ran,rfl⟩ := Option.map_eq_some_iff.1 runs
    exact carried (scheduleKeeps h.mixed ran)
  | crontab eh arg entry now sec =>
    obtain ⟨r,ran,rfl⟩ := Option.map_eq_some_iff.1 runs
    exact crontabFiled h ran
  | cancel id dontCall =>
    obtain ⟨r,ran,rfl⟩ := Option.map_eq_some_iff.1 runs
    exact cancelFiled h inside ran
  | cancelHandler eh dontCall =>
    obtain ⟨r,ran,rfl⟩ := Option.map_eq_some_iff.1 runs
    exact cancelHandlerFiled h inside ran
  | resetInterval id interval =>
    obtain ⟨r,ran,rfl⟩ := Option.map_eq_some_iff.1 runs
    exact carried (resetIntervalKeeps h.mixed ran)
  | expire current ret =>
    obtain ⟨r,ran,rfl⟩ := Option.map_eq_some_iff.1 runs
    exact expireFiled h inside ran
  | dispatch current =>
    simp only [apply] at runs
    split at runs
    · cases Option.some.inj runs
      exact ⟨_,_,_,_,h,carriesBeside h (besideRefl q) _⟩
    · rename_i some_
      obtain ⟨r,ran,rfl⟩ := Option.map_eq_some_iff.1 runs
      exact carried (dispatchKeeps h.mixed (Nat.pos_of_ne_zero some_) ran)

end Filed

end CuteNdk.TimerMixed
