import CuteNdk.Dictionary
import Mathlib.Tactic.Common

/-! A dictionary over any calls: it is the partial function from keys to values that the calls
describe, whatever is granted them, as long as no array is lost. Growing moves nothing, and slots
that were left are used again. -/
namespace CuteNdk.Ini
open Lib.CString
open Lib (run)
open Lib.Slots (At Distinct used lookup slotHolds lookupIff lookupNone)

inductive Op where
  | set (a : Grants) (key : Str) (val : Option Str)
  | unset (key : Str)
  deriving DecidableEq, Repr

def apply (d : Dictionary) : Op → Option Dictionary
  | .set a key val => (dictionarySet a d key val).map Prod.snd
  | .unset key => dictionaryUnset d key

/- What the calls are for. A value that cannot be copied is null; a key that cannot be copied
is not there, unless it was. -/
def bind (m : Str → Option (Option Str)) : Op → Str → Option (Option Str)
  | .set a key val =>
    if (m key).isSome ∨ a.keyText then Function.update m key (some (val.bind (xstrdup a.valText))) else m
  | .unset key => Function.update m key none

def bound (ops : List Op) : Str → Option (Option Str) := ops.foldl bind fun _ => none

/- calloc gives the arrays a call may ask for. -/
def Op.granted : Op → Bool
  | .set a _ _ => a.val && a.key && a.hash
  | .unset _ => true

namespace Dictionary

section Calls
variable {a : Grants} {d d' : Dictionary} {key : Str} {val : Option Str} {i : Nat} {r : Int}

theorem slotInside (here : d.slots[i]? = some s) : i < d.table.length := by
  rw [tableLength]
  exact (List.getElem?_eq_some_iff.1 here).1

theorem hashesSet (h : ∀ s ∈ d.slots, ∀ k ∈ s.key, s.hash = dictionaryHash k) {s : Slot}
    (here : ∀ k ∈ s.key, s.hash = dictionaryHash k) : ∀ s' ∈ d.slots.set i s, ∀ k ∈ s'.key, s'.hash = dictionaryHash k := by
  intro s' mem
  rcases List.mem_or_eq_of_mem_set mem with old | rfl
  · exact h s' old
  · exact here

theorem unboundNowhere (h : Well d) (absent : d.bindings key = none) (j : Nat) (u : Option Str) : ¬At d.table j key u := by
  intro at_
  have found : d.bindings key = some u := (lookupIff h.distinct).2 ⟨j,at_⟩
  rw [absent] at found
  cases found

/- The key is there: its slot gets the value. -/
theorem modifyWell (h : Well d) (a : Grants) (val : Option Str) (found : Lib.Slots.slotOf d.table key = some i) :
    ∃ d', d.modify a i val = some (0,d') ∧ Well d' ∧ d'.n = d.n ∧ d'.slots.length = d.slots.length ∧
      d'.bindings = Function.update d.bindings key (some (val.bind (xstrdup a.valText))) := by
  obtain ⟨w,at_⟩ := slotHolds found
  obtain ⟨s,here,named,_⟩ := atSlot.1 at_
  obtain ⟨vals,_,_⟩ := wholeIff.1 h.whole
  have inside := slotInside here
  have entry : Slot.entry { s with val := val.bind (xstrdup a.valText) } =
      some (key,val.bind (xstrdup a.valText)) := by
    simp only [Slot.entry,named,Option.map_some]
  have mine : ∀ j u, At d.table j key u → j = i := fun j u other => h.distinct j i key u w other at_
  refine ⟨{ d with slots := d.slots.set i { s with val := val.bind (xstrdup a.valText) } },?_,?_,rfl,List.length_set,?_⟩
  · simp only [modify,vals,if_true,here,Option.map_some]
  · refine ⟨h.whole,?_,?_,?_,?_,?_⟩
    · exact hashesSet h.hashes (h.hashes s (List.mem_of_getElem? here))
    · unfold table
      rw [setTable,entry]
      exact Lib.Slots.distinctSet inside h.distinct mine
    · have same := Lib.Slots.usedSet (f := some (key,val.bind (xstrdup a.valText))) at_
      simp only [Option.isSome_some,if_true] at same
      unfold table
      rw [setTable,entry,Nat.add_right_cancel same]
      exact h.counted
    · rw [List.length_set]
      exact h.room
    · simpa using h.some_
  · unfold bindings table
    rw [setTable,entry]
    refine Lib.Slots.lookupSet inside h.distinct mine fun k' u other => ?_
    have both := Option.some.inj (Option.some.inj (other.symm.trans at_))
    exact congrArg Prod.fst both

/- The key is not there, and a slot is free. -/
theorem addWell (h : Well d) (a : Grants) (val : Option Str) (absent : d.bindings key = none)
    (room : d.n < d.slots.length) :
    ∃ d', d.add a key val = some (0,d') ∧ Well d' ∧ d'.n = d.n + 1 ∧ d'.slots.length = d.slots.length ∧
      d'.bindings = if a.keyText then Function.update d.bindings key (some (val.bind (xstrdup a.valText)))
        else d.bindings := by
  have fewer : used d.table < d.table.length := by
    rw [tableLength]
    exact Nat.lt_of_le_of_lt h.counted room
  obtain ⟨i,free⟩ := Lib.Slots.emptySlot fewer
  have free' : (d.slots.findIdx? fun s => s.key.isNone) = some i := by
    unfold table at free
    rw [List.findIdx?_map] at free
    rw [← free]
    exact findIdxCongr fun s _ => by simp [Slot.entry]
  obtain ⟨inside,empty,_⟩ := List.findIdx?_eq_some_iff_getElem.1 free
  have none_ : d.table[i]? = some none := by
    rw [List.getElem?_eq_getElem inside]
    simpa using empty
  have nowhere : ∀ j u, ¬At d.table j key u := unboundNowhere h absent
  refine ⟨{ d with
    n := d.n + 1
    slots := d.slots.set i ⟨xstrdup a.keyText key,val.bind (xstrdup a.valText),dictionaryHash key⟩ },
    ?_,?_,rfl,List.length_set,?_⟩
  · simp only [add,h.whole,if_true,free',Option.map_some]
  · have slot : ∀ k ∈ xstrdup a.keyText key, dictionaryHash key = dictionaryHash k := by
      intro k copied
      unfold xstrdup at copied
      split at copied
      · cases copied
        rfl
      · cases copied
    have same := Lib.Slots.usedSet (f := Slot.entry ⟨xstrdup a.keyText key,val.bind (xstrdup a.valText),dictionaryHash key⟩) none_
    refine ⟨h.whole,hashesSet h.hashes slot,?_,?_,?_,?_⟩
    · unfold table
      rw [setTable]
      unfold Slot.entry xstrdup
      cases a.keyText with
      | true => exact Lib.Slots.distinctSet inside h.distinct fun j u other => absurd other (nowhere j u)
      | false => exact Lib.Slots.distinctClear inside h.distinct
    · unfold table
      rw [setTable]
      simp only [Option.isSome_none,Bool.false_eq_true,if_false,Nat.add_zero] at same
      rw [same]
      refine Nat.add_le_add h.counted ?_
      split
      · exact le_rfl
      · exact Nat.zero_le 1
    · rw [List.length_set]
      exact room
    · simpa using h.some_
  · unfold bindings table
    rw [setTable]
    unfold Slot.entry xstrdup
    cases a.keyText with
    | true =>
      refine Lib.Slots.lookupSet inside h.distinct (fun j u other => absurd other (nowhere j u)) fun k' u other => ?_
      cases Option.some.inj (none_.symm.trans other)
    | false =>
      have same : d.table.set i none = d.table := by
        have here := List.getElem?_eq_some_iff.1 none_
        rw [← here.2]
        exact List.set_getElem_self _
      exact congrArg lookup same

theorem growWell (h : Well d) (grown : d.grow a = some d') (whole : d'.whole) :
    Well d' ∧ d'.n = d.n ∧ d'.slots.length = 2 * d.slots.length ∧ d'.bindings = d.bindings := by
  obtain ⟨val,_,grown⟩ := Option.bind_eq_some_iff.1 grown
  obtain ⟨key,_,grown⟩ := Option.bind_eq_some_iff.1 grown
  obtain ⟨hash,_,same⟩ := Option.map_eq_some_iff.1 grown
  by_cases all : val && key && hash
  · rw [if_pos all] at same
    subst same
    have wider : (d.slots ++ List.replicate d.slots.length Slot.empty).map Slot.entry =
        d.table ++ List.replicate d.slots.length none := by
      rw [List.map_append,List.map_replicate]
      rfl
    have twice : (d.slots ++ List.replicate d.slots.length Slot.empty).length = 2 * d.slots.length := by
      rw [List.length_append,List.length_replicate]
      omega
    refine ⟨⟨rfl,?_,?_,?_,?_,?_⟩,rfl,twice,?_⟩
    · intro s mem k named
      rcases List.mem_append.1 mem with old | new
      · exact h.hashes s old k named
      · cases List.eq_of_mem_replicate new
        cases named
    · unfold table
      rw [wider]
      exact Lib.Slots.distinctGrow h.distinct _
    · unfold table
      rw [wider,Lib.Slots.usedGrow]
      exact h.counted
    · rw [twice]
      have room := h.room
      show d.n ≤ _
      omega
    · exact List.append_ne_nil_of_left_ne_nil h.some_ _
    · unfold bindings table
      rw [wider]
      exact Lib.Slots.lookupGrow h.distinct _
  · rw [if_neg all] at same
    subst same
    exact absurd whole all

/- An array that is there is doubled as long as its bytes are an int. -/
theorem growGranted (h : Well d) (granted : a.val = true ∧ a.key = true ∧ a.hash = true) (small : 16 * d.slots.length ≤ intMax) :
    ∃ d', d.grow a = some d' ∧ d'.whole := by
  obtain ⟨vals,keys,hashes⟩ := wholeIff.1 h.whole
  have eight : ¬intMax < 2 * (8 * d.slots.length) := by omega
  have four : ¬intMax < 2 * (4 * d.slots.length) := by omega
  refine ⟨⟨d.n,d.slots ++ List.replicate d.slots.length Slot.empty,true,true,true⟩,?_,rfl⟩
  unfold grow memDouble
  rw [granted.1,granted.2.1,granted.2.2,vals,keys,hashes,if_neg eight,if_neg four]
  rfl

theorem absentIff (found : Lib.Slots.slotOf d.table key = none) : d.bindings key = none := lookupNone.2 found

/- A set that leaves the arrays there has done what it is for. -/
theorem setWell (h : Well d) (runs : dictionarySet a d key val = some (r,d')) (whole : d'.whole) :
    r = 0 ∧ Well d' ∧ d'.bindings = bind d.bindings (.set a key val) ∧ d'.n ≤ d.n + 1 ∧
      (d'.slots.length = d.slots.length ∨ d.n = d.slots.length ∧ d'.slots.length = 2 * d.slots.length) := by
  unfold dictionarySet at runs
  rw [searched h,Option.bind_some] at runs
  cases found : Lib.Slots.slotOf d.table key with
  | some i =>
    rw [found] at runs
    obtain ⟨d₁,modified,well,count,length,bindings⟩ := modifyWell h a val found
    cases Option.some.inj (modified.symm.trans runs)
    obtain ⟨w,at_⟩ := slotHolds found
    have there : d.bindings key = some w := (lookupIff h.distinct).2 ⟨i,at_⟩
    refine ⟨rfl,well,?_,by omega,.inl length⟩
    rw [bindings,bind,there,if_pos (.inl rfl)]
  | none =>
    rw [found] at runs
    have absent := absentIff found
    have described : bind d.bindings (.set a key val) =
        if a.keyText then Function.update d.bindings key (some (val.bind (xstrdup a.valText))) else d.bindings := by
      simp [bind,absent]
    by_cases full : d.n = d.slots.length
    · rw [if_pos full] at runs
      obtain ⟨d₁,grown,runs⟩ := Option.bind_eq_some_iff.1 runs
      by_cases whole₁ : d₁.whole
      · rw [if_pos whole₁] at runs
        obtain ⟨well₁,count₁,length₁,same⟩ := growWell h grown whole₁
        have some_ := List.length_pos_iff.2 h.some_
        obtain ⟨d₂,added,well,count,length,bindings⟩ :=
          addWell well₁ a val (by rw [same]; exact absent) (by omega)
        cases Option.some.inj (added.symm.trans runs)
        refine ⟨rfl,well,?_,by omega,.inr ⟨full,by omega⟩⟩
        rw [bindings,described,same]
      · rw [if_neg whole₁] at runs
        cases Option.some.inj runs
        exact absurd whole whole₁
    · rw [if_neg full] at runs
      have room := h.room
      obtain ⟨d₁,added,well,count,length,bindings⟩ := addWell h a val absent (by omega)
      cases Option.some.inj (added.symm.trans runs)
      exact ⟨rfl,well,bindings.trans described.symm,by omega,.inl length⟩

/- It fails for nothing but the memory. -/
theorem setServes (h : Well d) (granted : a.val = true ∧ a.key = true ∧ a.hash = true)
    (small : d.n = d.slots.length → 16 * d.slots.length ≤ intMax) (key : Str) (val : Option Str) :
    ∃ d', dictionarySet a d key val = some (0,d') ∧ d'.whole := by
  unfold dictionarySet
  rw [searched h,Option.bind_some]
  cases found : Lib.Slots.slotOf d.table key with
  | some i =>
    obtain ⟨d₁,modified,well,_⟩ := modifyWell h a val found
    exact ⟨d₁,modified,well.whole⟩
  | none =>
    have absent := absentIff found
    by_cases full : d.n = d.slots.length
    · obtain ⟨d₁,grown,whole₁⟩ := growGranted h granted (small full)
      obtain ⟨well₁,count₁,length₁,same⟩ := growWell h grown whole₁
      have some_ := List.length_pos_iff.2 h.some_
      obtain ⟨d₂,added,well,_⟩ := addWell well₁ a val (by rw [same]; exact absent) (by omega)
      refine ⟨d₂,?_,well.whole⟩
      simp only [if_pos full,grown,Option.bind_some,if_pos whole₁,added]
    · have room := h.room
      obtain ⟨d₁,added,well,_⟩ := addWell h a val absent (by omega)
      refine ⟨d₁,?_,well.whole⟩
      simp only [if_neg full,added]

theorem unsetWell (h : Well d) (key : Str) :
    ∃ d', dictionaryUnset d key = some d' ∧ Well d' ∧ d'.bindings = bind d.bindings (.unset key) ∧ d'.n ≤ d.n ∧
      d'.slots.length = d.slots.length := by
  obtain ⟨vals,_,_⟩ := wholeIff.1 h.whole
  unfold dictionaryUnset
  rw [slotOfTable h,Option.bind_some]
  cases found : Lib.Slots.slotOf d.table key with
  | none =>
    refine ⟨d,rfl,h,?_,le_rfl,rfl⟩
    have absent := absentIff found
    rw [bind,← absent,Function.update_eq_self]
  | some i =>
    obtain ⟨w,at_⟩ := slotHolds found
    obtain ⟨s,here,_,_⟩ := atSlot.1 at_
    have inside := slotInside here
    have less := Lib.Slots.usedSet (f := none) at_
    simp only [Option.isSome_some,if_true,Option.isSome_none,Bool.false_eq_true,if_false,Nat.add_zero] at less
    have one : 0 < used d.table := List.countP_pos_iff.2 ⟨_,List.mem_of_getElem? at_,rfl⟩
    have counted := h.counted
    have room := h.room
    refine ⟨{ d with n := d.n - 1, slots := d.slots.set i Slot.empty },by simp only [vals,if_true],⟨h.whole,?_,?_,?_,?_,?_⟩,
      ?_,Nat.sub_le _ _,List.length_set⟩
    · exact hashesSet h.hashes fun k named => by cases named
    · unfold table
      rw [setTable]
      exact Lib.Slots.distinctClear inside h.distinct
    · unfold table
      rw [setTable]
      show used (d.table.set i none) ≤ d.n - 1
      omega
    · rw [List.length_set]
      show d.n - 1 ≤ d.slots.length
      omega
    · simpa using h.some_
    · unfold bindings table
      rw [setTable]
      exact Lib.Slots.lookupClear inside h.distinct at_

theorem newMade {size : Int} (made : dictionaryNew a size = some d) :
    ∃ n, 0 < n ∧ d = ⟨0,List.replicate n Slot.empty,a.val,a.key,a.hash⟩ := by
  unfold dictionaryNew at made
  cases granted : a.dict with
  | false => simp [granted] at made
  | true =>
    simp only [granted,if_true,Option.some.injEq] at made
    refine ⟨_,?_,made.symm⟩
    unfold dictMinSz
    split <;> omega

theorem newWell {size : Int} (made : dictionaryNew a size = some d) (whole : d.whole) :
    Well d ∧ d.n = 0 ∧ d.bindings = fun _ => none := by
  obtain ⟨n,least,rfl⟩ := newMade made
  have empty : (List.replicate n Slot.empty).map Slot.entry = List.replicate n none := by
    rw [List.map_replicate]
    rfl
  have nowhere : ∀ i k v, ¬@At Str (Option Str) (List.replicate n none) i k v := by
    intro i k v at_
    unfold At at at_
    rw [List.getElem?_replicate] at at_
    split at at_ <;> cases at_
  refine ⟨⟨whole,?_,?_,?_,Nat.zero_le _,?_⟩,rfl,?_⟩
  · intro s mem k named
    cases List.eq_of_mem_replicate mem
    cases named
  · unfold table
    rw [empty]
    exact fun i j k v w at_ => absurd at_ (nowhere i k v)
  · unfold table
    rw [empty]
    unfold used
    rw [List.countP_replicate]
    exact le_rfl
  · exact List.ne_nil_of_length_pos (by rw [List.length_replicate]; exact least)
  · unfold bindings table
    rw [empty]
    funext k
    refine Option.eq_none_iff_forall_ne_some.2 fun v found => ?_
    obtain ⟨i,at_⟩ := (lookupIff fun i j k v w at_ => absurd at_ (nowhere i k v)).1 found
    exact nowhere i k v at_

theorem doubledThere {granted there : Bool} {size : Nat} (doubled : memDouble granted there size = some true) : there = true := by
  unfold memDouble at doubled
  split at doubled
  · cases doubled
  · split at doubled
    · split at doubled
      · assumption
      · cases doubled
    · cases doubled

/- An array that is lost stays lost. -/
theorem wholeBefore {op : Op} (does : apply d op = some d') (whole : d'.whole) : d.whole := by
  cases op with
  | unset key =>
    obtain ⟨found,_,does⟩ := Option.bind_eq_some_iff.1 does
    cases found with
    | none =>
      cases Option.some.inj does
      exact whole
    | some i =>
      simp only at does
      split at does
      · cases Option.some.inj does
        exact whole
      · cases does
  | set a key val =>
    obtain ⟨⟨r,d₁⟩,set_,rfl⟩ := Option.map_eq_some_iff.1 does
    have added : ∀ {d : Dictionary}, d.add a key val = some (r,d₁) → d.whole := by
      intro d added
      unfold add at added
      split at added
      · assumption
      · cases added
    obtain ⟨found,_,set_⟩ := Option.bind_eq_some_iff.1 set_
    cases found with
    | some i =>
      simp only [modify] at set_
      split at set_
      · obtain ⟨s,_,same⟩ := Option.map_eq_some_iff.1 set_
        cases same
        exact whole
      · cases set_
    | none =>
      simp only at set_
      split at set_
      · obtain ⟨d₂,grown,set_⟩ := Option.bind_eq_some_iff.1 set_
        obtain ⟨val',vals,grown⟩ := Option.bind_eq_some_iff.1 grown
        obtain ⟨key',keys,grown⟩ := Option.bind_eq_some_iff.1 grown
        obtain ⟨hash',hashes,same⟩ := Option.map_eq_some_iff.1 grown
        have whole₂ : d₂.whole := by
          by_cases whole₂ : d₂.whole
          · exact whole₂
          · rw [if_neg whole₂] at set_
            cases Option.some.inj set_
            exact whole
        by_cases all : val' && key' && hash'
        · simp only [Bool.and_eq_true] at all
          obtain ⟨⟨rfl,rfl⟩,rfl⟩ := all
          exact wholeIff.2 ⟨doubledThere vals,doubledThere keys,doubledThere hashes⟩
        · rw [if_neg all] at same
          subst same
          exact absurd whole₂ all
      · exact added set_

theorem applyWell {op : Op} (h : Well d) (does : apply d op = some d') (whole : d'.whole) :
    Well d' ∧ d'.bindings = bind d.bindings op := by
  cases op with
  | set a key val =>
    obtain ⟨⟨r,d₁⟩,set_,rfl⟩ := Option.map_eq_some_iff.1 does
    obtain ⟨_,well,bindings,_⟩ := setWell h set_ whole
    exact ⟨well,bindings⟩
  | unset key =>
    obtain ⟨d₁,unset,well,bindings,_⟩ := unsetWell h key
    cases Option.some.inj (unset.symm.trans does)
    exact ⟨well,bindings⟩

theorem runWhole {ops : List Op} (ran : run apply d ops = some d') (whole : d'.whole) : d.whole := by
  induction ops generalizing d with
  | nil =>
    cases Option.some.inj ran
    exact whole
  | cons op ops ih =>
    obtain ⟨m,does,ran⟩ := Option.bind_eq_some_iff.1 ran
    exact wholeBefore does (ih ran)

theorem runWell {ops : List Op} (h : Well d) (ran : run apply d ops = some d') (whole : d'.whole) :
    Well d' ∧ d'.bindings = ops.foldl bind d.bindings := by
  induction ops generalizing d with
  | nil =>
    cases Option.some.inj ran
    exact ⟨h,rfl⟩
  | cons op ops ih =>
    obtain ⟨m,does,ran⟩ := Option.bind_eq_some_iff.1 ran
    obtain ⟨well,bindings⟩ := applyWell h does (runWhole ran whole)
    rw [List.foldl_cons,← bindings]
    exact ih well ran

/- How far a dictionary has grown after so many calls. -/
structure Grown (d : Dictionary) (size calls : Nat) : Prop where
  well : Well d
  counted : d.n ≤ calls
  size : d.slots.length ≤ max size (2 * calls)

theorem Grown.step {size calls : Nat} (h : Grown d size calls) {op : Op} (granted : op.granted) (few : calls < 0x8000000) :
    ∃ d', apply d op = some d' ∧ Grown d' size (calls + 1) := by
  have before := h.size
  have counted := h.counted
  cases op with
  | unset key =>
    obtain ⟨d',unset,well,_,count,length⟩ := unsetWell h.well key
    exact ⟨d',unset,well,by omega,by omega⟩
  | set a key val =>
    have arrays : a.val = true ∧ a.key = true ∧ a.hash = true := by
      simpa [Op.granted,and_assoc] using granted
    have small : d.n = d.slots.length → 16 * d.slots.length ≤ intMax := by
      unfold intMax
      omega
    obtain ⟨d',set_,whole⟩ := setServes h.well arrays small key val
    obtain ⟨_,well,_,count,length⟩ := setWell h.well set_ whole
    exact ⟨d',by rw [apply,set_]; rfl,well,by omega,by omega⟩

theorem Grown.run {size calls : Nat} (h : Grown d size calls) (ops : List Op) (granted : ∀ op ∈ ops, op.granted)
    (few : calls + ops.length ≤ 0x8000000) : ∃ d', Lib.run apply d ops = some d' ∧ Grown d' size (calls + ops.length) := by
  induction ops generalizing d calls with
  | nil => exact ⟨d,rfl,h⟩
  | cons op ops ih =>
    rw [List.length_cons] at few ⊢
    obtain ⟨m,does,grown⟩ := h.step (granted op List.mem_cons_self) (by omega)
    obtain ⟨d',ran,grown'⟩ := ih grown (fun op' mem => granted op' (List.mem_cons_of_mem op mem)) (by omega)
    refine ⟨d',by rw [Lib.run,does]; exact ran,?_⟩
    rw [Nat.add_comm ops.length 1,← Nat.add_assoc]
    exact grown'

theorem newGrown (size : Int) : ∃ d, dictionaryNew .all size = some d ∧ Grown d d.slots.length 0 := by
  refine ⟨⟨0,List.replicate (if size < dictMinSz then dictMinSz else size.toNat) Slot.empty,true,true,true⟩,rfl,?_⟩
  obtain ⟨well,none_,_⟩ := @newWell .all _ size rfl rfl
  exact ⟨well,none_.le,le_max_left _ _⟩

end Calls

end Dictionary

/- Whatever the calls and the memory they get: as long as the arrays are there, a get answers
what was set last. -/
theorem answersLastSet {a : Grants} {size : Int} {d₀ d : Dictionary} {ops : List Op}
    (made : dictionaryNew a size = some d₀) (ran : run apply d₀ ops = some d) (whole : d.whole) (key : Str)
    (def_ : CharPtr) : dictionaryGet d key def_ = some ((bound ops key).elim def_ CharPtr.of) := by
  obtain ⟨well₀,_,empty⟩ := Dictionary.newWell made (Dictionary.runWhole ran whole)
  obtain ⟨well,bindings⟩ := Dictionary.runWell well₀ ran whole
  rw [Dictionary.getBinding well,bindings,empty]
  rfl

theorem setUnsetSet :
    ∃ d₀ d, dictionaryNew .all 0 = some d₀ ∧
      run apply d₀ [.set .all ['k'] (some ['1']),.unset ['k'],.set .all ['k'] (some ['2'])] = some d ∧
      dictionaryGet d ['k'] .invalid = some (.text ['2']) := by
  obtain ⟨d₀,made,start⟩ := Dictionary.newGrown 0
  obtain ⟨d,ran,grown⟩ := start.run [.set .all ['k'] (some ['1']),.unset ['k'],.set .all ['k'] (some ['2'])]
    (by decide) (by decide)
  exact ⟨d₀,d,made,ran,answersLastSet made ran grown.well.whole ['k'] .invalid⟩

/- And with memory for the arrays every call is served, up to 2^27 of them. -/
theorem servedWhileGranted {a : Grants} {size : Int} {d₀ : Dictionary} {ops : List Op}
    (made : dictionaryNew a size = some d₀) (whole : d₀.whole) (granted : ∀ op ∈ ops, op.granted)
    (few : ops.length < 0x8000000) :
    ∃ d, run apply d₀ ops = some d ∧ d.whole ∧ d.slots.length ≤ max d₀.slots.length (2 * ops.length) ∧
      ∀ a' : Grants, a'.val && a'.key && a'.hash → ∀ key val, ∃ d', dictionarySet a' d key val = some (0,d') := by
  obtain ⟨well₀,none_,_⟩ := Dictionary.newWell made whole
  have start : Dictionary.Grown d₀ d₀.slots.length 0 := ⟨well₀,none_.le,le_max_left _ _⟩
  obtain ⟨d,ran,grown⟩ := start.run ops granted (by omega)
  rw [Nat.zero_add] at grown
  refine ⟨d,ran,grown.well.whole,grown.size,fun a' arrays key val => ?_⟩
  have counted := grown.counted
  have arrays : a'.val = true ∧ a'.key = true ∧ a'.hash = true := by
    simpa [and_assoc] using arrays
  obtain ⟨d',set_,_⟩ := Dictionary.setServes grown.well arrays (by unfold intMax; omega) key val
  exact ⟨d',set_⟩

theorem servedTwice : ∃ d₀ d, dictionaryNew .all 0 = some d₀ ∧
    run apply d₀ [.set .all ['k'] none,.unset ['k']] = some d ∧ d.whole := by
  obtain ⟨d₀,made,start⟩ := Dictionary.newGrown 0
  obtain ⟨d,ran,whole,_⟩ := @servedWhileGranted .all 0 d₀ [.set .all ['k'] none,.unset ['k']] made
    start.well.whole (by decide) (by decide)
  exact ⟨d₀,d,made,ran,whole⟩

end CuteNdk.Ini
