import CuteNdk.TimerOps

/-! cancel(const event_handler *) on a queue of general timers: from nothing but the
order of the heap and the entries of the id table, what it takes out and what it
leaves. The free lists, and whether a timer has a handler at all, do not matter. -/
namespace CuteNdk.TimerQueue
open Lib.BinaryHeap (indexedMem indexedSlot)

/- The heap holds the nodes of l in order, and the table has the slot of each under its
id and -1 under every other. -/
structure Tidy (q : TimerQueue) (l : List Ptr) : Prop where
  heap : Settled q q.currSize l
  vacant : Vacant q (l.map q.ident)

/- From q to q' the timers of l with the handler are gone, with their ids, and l' are
the others as they were. -/
structure Swept (q q' : TimerQueue) (l l' : List Ptr) (eh : Handler) : Prop where
  tidy : Tidy q' l'
  heap : l'.Perm (l.filter fun p => !q.hasHandler eh p)
  nodes : ∀ p ∈ l', q'.nodes p = q.nodes p
  sizes : q'.timerHeapSize = q.timerHeapSize ∧ q'.timerIdsSize = q.timerIdsSize ∧ q'.maxSize = q.maxSize
  lower : q'.minTimerId ≤ q.minTimerId ∧ ∀ p ∈ l, q.hasHandler eh p = true → q'.minTimerId ≤ q.ident p
  lowest : q'.minTimerId = q.minTimerId ∨ ∃ p ∈ l, q.hasHandler eh p = true ∧ q'.minTimerId = q.ident p

section Sweep
variable {q : TimerQueue} {l : List Ptr} {slot : Nat} {eh : Handler}

theorem tidyNodup (h : Tidy q l) : l.Nodup := h.heap.indexed.distinct.of_map

/- One timer taken out and its node freed, as both loops of cancel do. -/
structure Dropped (q q' : TimerQueue) (l : List Ptr) (p : Ptr) : Prop where
  tidy : Tidy q' (l.erase p)
  nodes : ∀ z, z ≠ p → q'.nodes z = q.nodes z
  size : q'.currSize = q.currSize - 1
  sizes : q'.timerHeapSize = q.timerHeapSize ∧ q'.timerIdsSize = q.timerIdsSize ∧ q'.maxSize = q.maxSize
  calls : q'.calls = q.calls
  minTimerId : q'.minTimerId = min (q.ident p) q.minTimerId

theorem removeDrops (h : Tidy q l) (inside : slot < q.currSize) :
    ∃ q₁, q.remove slot = some (q.slotNode slot,q₁) ∧
      Dropped q (q₁.freeNode (q.slotNode slot)) l (q.slotNode slot) := by
  obtain ⟨q₁,runs,settled,moved⟩ := removeSettles h.heap inside
  refine ⟨q₁,runs,?_⟩
  have mem := indexedMem h.heap.indexed inside
  generalize q.slotNode slot = p at settled moved mem ⊢
  have nodes : q₁.nodes = q.nodes := by rw [moved.rest]; rfl
  have idents : q₁.ident = q.ident := by funext z; simp only [ident,nodes]
  have wide : q₁.timerIdsSize = q.timerIdsSize := by rw [moved.rest]; rfl
  have range := h.heap.range p mem
  have order := List.perm_cons_erase mem
  have once := (order.map q.ident).nodup_iff.mp h.heap.indexed.distinct
  have clear : q.ident p ∉ (l.erase p).map q.ident := (List.nodup_cons.mp once).1
  have others : ∀ z, z ≠ p → (q₁.freeNode p).nodes z = q.nodes z := fun z other => by
    rw [freeNodeNodes other,nodes]
  have apart : ∀ z ∈ l.erase p, z ≠ p := by
    rintro z hz rfl
    exact clear (List.mem_map_of_mem hz)
  have release : q₁.releaseTimerid (q₁.nodes p).timerId = { q₁ with
      timerIds := Function.update q₁.timerIds (q.ident p) (-1)
      minTimerId := min (q.ident p) q₁.minTimerId } := by
    have same : (q₁.nodes p).timerId = q.ident p := by rw [nodes]; rfl
    unfold releaseTimerid
    rw [same,if_pos ⟨range.1,wide.symm ▸ range.2⟩]
  have rest := recycleRest (q₁.releaseTimerid (q₁.nodes p).timerId) p
  have free : q₁.freeNode p = (q₁.releaseTimerid (q₁.nodes p).timerId).recycle p := rfl
  rw [← free,release] at rest
  have vacant : Vacant q₁ (q.ident p :: (l.erase p).map q.ident) := by
    refine vacantRearranged (q := q.shrunk) (vacantMono (q := q.shrunk) h.vacant fun k hk => ?_) moved
      fun z hz => List.mem_cons_of_mem _ (List.mem_map_of_mem hz)
    exact (order.map q.ident).subset hk
  have after := vacantRelease vacant
  have ids : (l.erase p).map (q₁.freeNode p).ident = (l.erase p).map q.ident :=
    List.map_congr_left fun z hz => by simp only [ident,others z (apart z hz)]
  refine ⟨⟨?_,?_⟩,others,?_,?_,?_,?_⟩
  · have size : (q₁.freeNode p).currSize = q.currSize - 1 := by rw [rest,moved.rest]; rfl
    rw [size]
    refine settledCongr settled (by rw [rest]) (by rw [rest]) (by rw [rest]) (fun z hz => ?_) fun z hz => ?_
    · rw [rest,idents]
      have other : q.ident z ≠ q.ident p := fun same => clear (same ▸ List.mem_map_of_mem hz)
      exact Function.update_of_ne other _ _
    · simp only [ident,value,others z (apart z hz),nodes,and_self]
  · rw [ids]
    have same : (q₁.nodes p).timerId = q.ident p := by rw [nodes]; rfl
    rw [← same,release] at after
    rw [rest]
    exact after
  · rw [rest,moved.rest]; rfl
  · rw [rest,moved.rest]; exact ⟨rfl,rfl,rfl⟩
  · rw [rest,moved.rest]; rfl
  · rw [rest,moved.rest]; rfl

/- A removal and what is swept after it. -/
theorem sweptStep {q' q₂ : TimerQueue} {l₂ : List Ptr} {p : Ptr} (h : Tidy q l) (mem : p ∈ l)
    (has : q.hasHandler eh p = true) (dropped : Dropped q q' l p) (rest : Swept q' q₂ (l.erase p) l₂ eh) :
    Swept q q₂ l l₂ eh ∧ l.countP (q.hasHandler eh) = (l.erase p).countP (q'.hasHandler eh) + 1 := by
  have order := List.perm_cons_erase mem
  have apart : ∀ z ∈ l.erase p, z ≠ p := by
    rintro z hz rfl
    exact (tidyNodup h).not_mem_erase hz
  have same : ∀ z ∈ l.erase p, q'.hasHandler eh z = q.hasHandler eh z := fun z hz => by
    simp only [hasHandler,dropped.nodes z (apart z hz)]
  have idents : ∀ z ∈ l.erase p, q'.ident z = q.ident z := fun z hz => by
    simp only [ident,dropped.nodes z (apart z hz)]
  have kept : l₂.Perm ((l.erase p).filter fun z => !q.hasHandler eh z) := by
    have eq : (l.erase p).filter (fun z => !q'.hasHandler eh z)
        = (l.erase p).filter fun z => !q.hasHandler eh z :=
      List.filter_congr fun z hz => by rw [same z hz]
    exact eq ▸ rest.heap
  refine ⟨⟨rest.tidy,?_,fun z hz => ?_,?_,⟨?_,fun z hz hit => ?_⟩,?_⟩,?_⟩
  · have all := order.filter fun z => !q.hasHandler eh z
    rw [List.filter_cons_of_neg (by simp [has])] at all
    exact kept.trans all.symm
  · rw [rest.nodes z hz,dropped.nodes z (apart z (List.mem_of_mem_filter (kept.subset hz)))]
  · exact ⟨rest.sizes.1.trans dropped.sizes.1,rest.sizes.2.1.trans dropped.sizes.2.1,
      rest.sizes.2.2.trans dropped.sizes.2.2⟩
  · have := dropped.minTimerId
    have := rest.lower.1
    omega
  · by_cases here : z = p
    · subst here
      have := dropped.minTimerId
      have := rest.lower.1
      omega
    · have left := (List.mem_erase_of_ne here).mpr hz
      have low := rest.lower.2 z left (by rw [same z left]; exact hit)
      rwa [idents z left] at low
  · rcases rest.lowest with none' | ⟨z,hz,hit,low⟩
    · rcases Int.le_total (q.ident p) q.minTimerId with le | ge
      · exact .inr ⟨p,mem,has,none'.trans (dropped.minTimerId.trans (min_eq_left le))⟩
      · exact .inl (none'.trans (dropped.minTimerId.trans (min_eq_right ge)))
    · rw [same z hz] at hit
      rw [idents z hz] at low
      exact .inr ⟨z,List.mem_of_mem_erase hz,hit,low⟩
  · rw [order.countP_eq,List.countP_cons_of_pos has]
    exact congrArg (· + 1) (List.countP_congr fun z hz => by rw [same z hz]).symm

/- The loop: no slot before i holds the handler, and each removal starts over. The
timers left, and then the slots left, are what gets fewer. -/
theorem cancelGeneralsSweeps {fuel i : Nat} {count : Int} (h : Tidy q l)
    (enough : q.currSize * (q.currSize + 1) + (q.currSize - i) < fuel) (inside : i ≤ q.currSize)
    (before : ∀ j < i, q.hasHandler eh (q.slotNode j) = false) :
    ∃ q' l', cancelGenerals eh fuel q i count = some (count + l.countP (q.hasHandler eh),q') ∧
      Swept q q' l l' eh ∧ q'.calls = q.calls := by
  induction fuel generalizing q l i count with
  | zero => omega
  | succ fuel ih =>
    simp only [cancelGenerals]
    split
    case isFalse done =>
      have all : ∀ p ∈ l, q.hasHandler eh p = false := by
        intro p hp
        obtain ⟨j,hj,here,_⟩ := indexedSlot h.heap.indexed hp
        exact here ▸ before j (by omega)
      have none' : l.countP (q.hasHandler eh) = 0 :=
        List.countP_eq_zero.mpr fun p hp => by simp [all p hp]
      have keep : l.filter (fun p => !q.hasHandler eh p) = l :=
        List.filter_eq_self.mpr fun p hp => by simp [all p hp]
      refine ⟨q,l,by rw [none']; simp,⟨h,by rw [keep],fun _ _ => rfl,⟨rfl,rfl,rfl⟩,
        ⟨Int.le_refl _,fun p hp hit => ?_⟩,.inl rfl⟩,rfl⟩
      rw [all p hp] at hit
      exact Bool.noConfusion hit
    case isTrue more =>
      have mem := indexedMem h.heap.indexed more
      simp only [h.heap.filled i more,bind,Option.bind]
      split
      case isFalse other =>
        refine ih h (by omega) more fun j hj => ?_
        rcases Nat.lt_succ_iff_lt_or_eq.mp hj with hj | rfl
        · exact before j hj
        · exact decide_eq_false other
      case isTrue hit =>
        have has : q.hasHandler eh (q.slotNode i) = true := decide_eq_true hit
        obtain ⟨q₁,runs,dropped⟩ := removeDrops h more
        simp only [runs]
        have size := dropped.size
        have fewer : (q.currSize - 1) * (q.currSize - 1 + 1) + (q.currSize - 1 - 0) < fuel := by
          obtain ⟨n,hn⟩ : ∃ n, q.currSize = n + 1 := ⟨q.currSize - 1,by omega⟩
          rw [hn] at enough ⊢
          simp only [Nat.add_sub_cancel,Nat.add_mul,Nat.mul_add] at *
          omega
        obtain ⟨q₂,l₂,last,swept,told⟩ := @ih _ _ _ (count + 1) dropped.tidy (by rw [size]; exact fewer)
          (Nat.zero_le _) (fun j hj => absurd hj (Nat.not_lt_zero j))
        obtain ⟨step,counted⟩ := sweptStep h mem has dropped swept
        refine ⟨q₂,l₂,last.trans ?_,step,told.trans dropped.calls⟩
        refine congrArg (fun n => some (n,q₂)) ?_
        omega

/- The entries that say -1 afterwards are those that did before and those of the
timers taken out. -/
theorem sweptIds {q' : TimerQueue} {l' : List Ptr} (h : Tidy q l) (swept : Swept q q' l l' eh) {k : Int}
    (low : 0 ≤ k) (high : k < q.timerIdsSize) :
    q'.timerIds k = -1 ↔ q.timerIds k = -1 ∨ ∃ p ∈ l, q.hasHandler eh p = true ∧ q.ident p = k := by
  have entry : ∀ {r : TimerQueue} {m : List Ptr} {p : Ptr}, Tidy r m → p ∈ m → r.timerIds (r.ident p) ≠ -1 := by
    intro r m p tidy mem
    obtain ⟨i,_,_,at'⟩ := indexedSlot tidy.heap.indexed mem
    omega
  have high' : k < q'.timerIdsSize := by rw [swept.sizes.2.1]; exact high
  have idents : ∀ p ∈ l', q'.ident p = q.ident p := fun p hp => by simp only [ident,swept.nodes p hp]
  constructor
  · intro gone
    by_cases mem : k ∈ l.map q.ident
    · obtain ⟨p,hp,rfl⟩ := List.mem_map.mp mem
      refine .inr ⟨p,hp,?_,rfl⟩
      by_contra other
      have left : p ∈ l' := swept.heap.symm.subset (List.mem_filter.mpr ⟨hp,by simp [other]⟩)
      have held := entry swept.tidy left
      rw [idents p left] at held
      exact held gone
    · exact .inl (h.vacant k low high mem)
  · intro free
    refine swept.tidy.vacant k low high' fun mem => ?_
    obtain ⟨z,hz,rfl⟩ := List.mem_map.mp mem
    have inside := List.mem_filter.mp (swept.heap.subset hz)
    rw [idents z hz] at free
    rcases free with vacant | ⟨p,hp,hit,same⟩
    · exact entry h inside.1 vacant
    · have eq := List.inj_on_of_nodup_map h.heap.indexed.distinct hp inside.1 same
      subst eq
      rw [hit] at inside
      exact Bool.noConfusion inside.2

end Sweep

theorem sweptCall {q q' : TimerQueue} {l l' : List Ptr} {eh : Handler} (swept : Swept q q' l l' eh) (c : Call) :
    Swept q (q'.call c) l l' eh := by
  have tidy : Tidy (q'.call c) l' :=
    ⟨settledCongr swept.tidy.heap rfl rfl rfl (fun _ _ => rfl) fun _ _ => ⟨rfl,rfl⟩,swept.tidy.vacant⟩
  exact ⟨tidy,swept.heap,swept.nodes,swept.sizes,swept.lower,swept.lowest⟩

/- What cancel does on a queue of general timers, for every handler. -/
theorem cancelHandlerSweeps {q : TimerQueue} {l : List Ptr} (h : Tidy q l) (general : q.crontabTimers = none)
    (eh : Handler) (dontCall : Bool) :
    ∃ q' l', q.cancelHandler (some eh) dontCall = some (((l.countP (q.hasHandler eh) : Nat) : Int),q') ∧
      Swept q q' l l' eh ∧
      (∀ k : Int, 0 ≤ k → k < q.timerIdsSize →
        (q'.timerIds k = -1 ↔ q.timerIds k = -1 ∨ ∃ p ∈ l, q.hasHandler eh p = true ∧ q.ident p = k)) ∧
      q'.calls = q.calls ++ if dontCall then [] else [.close eh] := by
  obtain ⟨q₁,l',runs,swept,told⟩ : ∃ q₁ l',
      cancelGenerals eh (q.currSize * (q.currSize + 2) + 1) q 0 0
        = some ((0 : Int) + (l.countP (q.hasHandler eh) : Nat),q₁) ∧ Swept q q₁ l l' eh ∧
          q₁.calls = q.calls :=
    cancelGeneralsSweeps h (by simp only [Nat.mul_add]; omega) (Nat.zero_le _)
      fun j hj => absurd hj (Nat.not_lt_zero j)
  rw [Int.zero_add] at runs
  simp only [cancelHandler,general,cancelCrontabs,runs,bind,Option.bind]
  cases dontCall with
  | true => exact ⟨_,l',rfl,swept,fun k low high => sweptIds h swept low high,by simp [told]⟩
  | false =>
    have called := sweptCall swept (.close eh)
    exact ⟨_,l',rfl,called,fun k low high => sweptIds h called low high,by simp [call,told]⟩

/- Three timers in order of their deadlines, two of them of one handler. -/
def twoOfThree : TimerQueue := { make 9 4 with
  currSize := 3
  timerHeap := fun i => if i < 3 then some i else none
  timerIds := fun k => if 0 ≤ k ∧ k < 3 then k else -1
  minTimerId := 3
  nodes := fun p => { newNode with
    timerId := p, handler := some (.user (p % 2)), timerValue := .set p 0 } }

theorem twoOfThreeTidy : Tidy twoOfThree [0,1,2] := by
  refine ⟨⟨⟨by decide,by decide,by decide⟩,by decide,by decide,by decide,?_⟩,fun k _ _ off => ?_⟩
  · intro i off hi
    change i < 3 at hi
    have both : i = 1 ∨ i = 2 := by omega
    rcases both with rfl | rfl <;> decide
  · have out : ¬(0 ≤ k ∧ k < 3) := by
      rintro ⟨low,high⟩
      have mem : k = 0 ∨ k = 1 ∨ k = 2 := by omega
      exact off (by rcases mem with rfl | rfl | rfl <;> decide)
    exact if_neg out

theorem twoSwept : ∃ q' l', twoOfThree.cancelHandler (some (.user 0)) false = some (2,q') ∧
    Swept twoOfThree q' [0,1,2] l' (.user 0) := by
  obtain ⟨q',l',runs,swept,_⟩ := cancelHandlerSweeps twoOfThreeTidy rfl (.user 0) false
  exact ⟨q',l',runs,swept⟩

end CuteNdk.TimerQueue
