import Mathlib.Data.List.Basic
import Mathlib.Logic.Function.Basic

/-! A table of slots, each empty or with a key and its value. A key is looked for from the first
slot on. As long as no key is in two slots the table is a partial function, and one slot that is
written changes it at one key. Nothing here names a particular table. -/
namespace CuteNdk.Lib.Slots

variable {κ ν : Type*}

abbrev Table (κ ν : Type*) := List (Option (κ × ν))

def At (t : Table κ ν) (i : Nat) (k : κ) (v : ν) : Prop := t[i]? = some (some (k,v))

def Distinct (t : Table κ ν) : Prop := ∀ i j k v w, At t i k v → At t j k w → i = j

def used (t : Table κ ν) : Nat := t.countP fun e => e.isSome

section Slots
variable {t : Table κ ν} {i : Nat} {k : κ} {v : ν}

theorem atSet {e : Option (κ × ν)} (inside : i < t.length) {j : Nat} {k' : κ} {v' : ν} :
    At (t.set i e) j k' v' ↔ if j = i then e = some (k',v') else At t j k' v' := by
  unfold At
  rw [List.getElem?_set]
  by_cases here : i = j
  · subst here
    simp [inside]
  · simp [here,Ne.symm here]

/- A key that goes to a slot and is in no other one. -/
theorem distinctSet (inside : i < t.length) (distinct : Distinct t) (fresh : ∀ j u, At t j k u → j = i) :
    Distinct (t.set i (some (k,v))) := by
  intro j j' k' u u' first second
  rw [atSet inside] at first second
  split at first <;> split at second
  · rename_i here here'
    exact here.trans here'.symm
  · rename_i here off
    cases first
    exact absurd (fresh j' u' second) off
  · rename_i off here
    cases second
    exact absurd (fresh j u first) off
  · exact distinct j j' k' u u' first second

theorem distinctClear (inside : i < t.length) (distinct : Distinct t) : Distinct (t.set i none) := by
  intro j j' k' u u' first second
  rw [atSet inside] at first second
  split at first <;> split at second <;> first | contradiction | exact distinct j j' k' u u' first second

theorem atGrow {n : Nat} : At (t ++ List.replicate n none) i k v ↔ At t i k v := by
  unfold At
  by_cases inside : i < t.length
  · rw [List.getElem?_append_left inside]
  · have old : t[i]? = none := List.getElem?_eq_none (Nat.not_lt.1 inside)
    rw [List.getElem?_append_right (Nat.not_lt.1 inside),List.getElem?_replicate,old]
    split <;> simp

theorem distinctGrow (distinct : Distinct t) (n : Nat) : Distinct (t ++ List.replicate n none) :=
  fun i j k v w first second => distinct i j k v w (atGrow.1 first) (atGrow.1 second)

theorem usedGrow (n : Nat) : used (t ++ List.replicate n none) = used t := by
  unfold used
  rw [List.countP_append,List.countP_replicate]
  rfl

theorem usedSet {e f : Option (κ × ν)} (here : t[i]? = some e) :
    used (t.set i f) + (if e.isSome then 1 else 0) = used t + if f.isSome then 1 else 0 := by
  obtain ⟨inside,same⟩ := List.getElem?_eq_some_iff.1 here
  have mem : e ∈ t := List.mem_of_getElem? here
  have set_ := List.countP_set (p := fun e : Option (κ × ν) => e.isSome) (a := f) inside
  rw [same] at set_
  have least : (if e.isSome = true then 1 else 0) ≤ List.countP (fun e : Option (κ × ν) => e.isSome) t := by
    split
    · exact List.countP_pos_iff.2 ⟨e,mem,by assumption⟩
    · exact Nat.zero_le _
  unfold used
  omega

/- Fewer used than there are: the search for an empty slot ends. -/
theorem emptySlot (room : used t < t.length) : ∃ i, t.findIdx? (fun e => e.isNone) = some i := by
  cases found : t.findIdx? (fun e => e.isNone) with
  | some i => exact ⟨i,rfl⟩
  | none =>
    have full : ∀ e ∈ t, e.isSome := by
      intro e mem
      have some_ := List.findIdx?_eq_none_iff.1 found e mem
      simpa using some_
    have all : used t = t.length := List.countP_eq_length.2 full
    omega

end Slots

section Lookup
variable [DecidableEq κ] {t : Table κ ν} {i j : Nat} {k k' : κ} {v w : ν}

def slotOf (t : Table κ ν) (k : κ) : Option Nat := t.findIdx? fun e => e.any fun e => e.1 = k

def lookup (t : Table κ ν) (k : κ) : Option ν := (slotOf t k).bind fun i => t[i]?.join.map Prod.snd

theorem slotHolds (found : slotOf t k = some i) : ∃ v, At t i k v := by
  obtain ⟨inside,holds,_⟩ := List.findIdx?_eq_some_iff_getElem.1 found
  cases here : t[i] with
  | none =>
    rw [here] at holds
    cases holds
  | some e =>
    have same : e.1 = k := by
      rw [here] at holds
      simpa using holds
    exact ⟨e.2,by rw [At,List.getElem?_eq_getElem inside,here,← same]⟩

theorem slotFound (at_ : At t i k v) : ∃ j, slotOf t k = some j := by
  cases found : slotOf t k with
  | some j => exact ⟨j,rfl⟩
  | none =>
    have mem := List.mem_of_getElem? at_
    have other := List.findIdx?_eq_none_iff.1 found _ mem
    simp at other

theorem slotOfIff (distinct : Distinct t) : slotOf t k = some i ↔ ∃ v, At t i k v := by
  constructor
  · exact slotHolds
  · rintro ⟨v,at_⟩
    obtain ⟨j,found⟩ := slotFound at_
    obtain ⟨w,at'⟩ := slotHolds found
    rw [found,distinct i j k v w at_ at']

theorem lookupIff (distinct : Distinct t) : lookup t k = some v ↔ ∃ i, At t i k v := by
  unfold lookup
  constructor
  · intro found
    obtain ⟨i,here,taken⟩ := Option.bind_eq_some_iff.1 found
    obtain ⟨w,at_⟩ := slotHolds here
    rw [At] at at_
    rw [at_] at taken
    cases Option.some.inj taken
    exact ⟨i,at_⟩
  · rintro ⟨i,at_⟩
    rw [(slotOfIff distinct).2 ⟨v,at_⟩,Option.bind_some,at_]
    rfl

theorem lookupNone : lookup t k = none ↔ slotOf t k = none := by
  unfold lookup
  cases found : slotOf t k with
  | none => simp
  | some i =>
    obtain ⟨v,at_⟩ := slotHolds found
    rw [At] at at_
    simp [at_]

/- Two tables that hold a key in a slot alike have the same lookups. -/
theorem lookupExt {t' : Table κ ν} (distinct : Distinct t) (distinct' : Distinct t')
    (same : ∀ v, (∃ i, At t i k v) ↔ ∃ i, At t' i k v) : lookup t k = lookup t' k :=
  Option.ext fun v => ((lookupIff distinct).trans (same v)).trans (lookupIff distinct').symm

/- The slot held this key or none. -/
theorem lookupSet (inside : i < t.length) (distinct : Distinct t) (fresh : ∀ j u, At t j k u → j = i)
    (mine : ∀ k' u, At t i k' u → k' = k) :
    lookup (t.set i (some (k,v))) = Function.update (lookup t) k (some v) := by
  funext k'
  have distinct' := distinctSet (v := v) inside distinct fresh
  by_cases same : k' = k
  · subst same
    rw [Function.update_self,lookupIff distinct']
    exact ⟨i,(atSet inside).2 (by rw [if_pos rfl])⟩
  · rw [Function.update_of_ne same]
    refine lookupExt distinct' distinct fun u => ⟨?_,?_⟩
    · rintro ⟨j,at_⟩
      rw [atSet inside] at at_
      split at at_
      · cases at_
        exact absurd rfl same
      · exact ⟨j,at_⟩
    · rintro ⟨j,at_⟩
      refine ⟨j,(atSet inside).2 ?_⟩
      rw [if_neg]
      · exact at_
      · rintro rfl
        exact same (mine k' u at_)

theorem lookupClear (inside : i < t.length) (distinct : Distinct t) (at_ : At t i k w) :
    lookup (t.set i none) = Function.update (lookup t) k none := by
  funext k'
  have distinct' := distinctClear inside distinct
  have same : ∀ u, (∃ j, At (t.set i none) j k' u) ↔ k' ≠ k ∧ ∃ j, At t j k' u := by
    intro u
    constructor
    · rintro ⟨j,here⟩
      rw [atSet inside] at here
      split at here
      · cases here
      · rename_i off
        refine ⟨?_,j,here⟩
        rintro rfl
        exact off (distinct j i k' u w here at_)
    · rintro ⟨other,j,here⟩
      refine ⟨j,(atSet inside).2 ?_⟩
      rw [if_neg]
      · exact here
      · rintro rfl
        have both := Option.some.inj (Option.some.inj (here.symm.trans at_))
        exact other (congrArg Prod.fst both)
  by_cases mine : k' = k
  · subst mine
    rw [Function.update_self]
    refine Option.eq_none_iff_forall_ne_some.2 fun u found => ?_
    exact ((same u).1 ((lookupIff distinct').1 found)).1 rfl
  · rw [Function.update_of_ne mine]
    exact lookupExt distinct' distinct fun u => (same u).trans ⟨fun both => both.2,fun there => ⟨mine,there⟩⟩

theorem lookupGrow (distinct : Distinct t) (n : Nat) : lookup (t ++ List.replicate n none) = lookup t :=
  funext fun _ => lookupExt (distinctGrow distinct n) distinct fun _ => exists_congr fun _ => atGrow

end Lookup

end CuteNdk.Lib.Slots
