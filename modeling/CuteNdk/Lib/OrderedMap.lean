import Mathlib.Data.List.Basic
import Mathlib.Data.List.Perm.Basic
import Mathlib.Data.List.Nodup
import Mathlib.Order.Lattice

/-! An ordered map as its entries in key order. Inserting a key that is present
changes nothing, as std::map does; nothing here names a particular map. -/
namespace CuteNdk.Lib

variable {K V : Type*} [LinearOrder K]

structure OrderedMap (K V : Type*) [LinearOrder K] where
  entries : List (K × V)
  sorted : entries.Pairwise fun a b => a.1 < b.1

def insertEntry (k : K) (v : V) : List (K × V) → List (K × V)
  | [] => [(k,v)]
  | e :: l =>
    if k < e.1 then (k,v) :: e :: l
    else if e.1 < k then e :: insertEntry k v l
    else e :: l

theorem memInsertEntry {k : K} {v : V} {l : List (K × V)} {e : K × V}
    (h : e ∈ insertEntry k v l) : e = (k,v) ∨ e ∈ l := by
  induction l with
  | nil => exact .inl (List.mem_singleton.1 h)
  | cons d l ih =>
    unfold insertEntry at h
    split at h
    · exact List.mem_cons.1 h
    · split at h
      · rcases List.mem_cons.1 h with rfl | h
        · exact .inr List.mem_cons_self
        · exact (ih h).imp_right (List.mem_cons_of_mem d)
      · exact .inr h

theorem insertEntrySorted {k : K} {v : V} {l : List (K × V)}
    (h : l.Pairwise fun a b => a.1 < b.1) : (insertEntry k v l).Pairwise fun a b => a.1 < b.1 := by
  induction l with
  | nil => exact List.pairwise_singleton _ _
  | cons d l ih =>
    obtain ⟨below,rest⟩ := List.pairwise_cons.1 h
    unfold insertEntry
    split
    · rename_i first
      refine List.pairwise_cons.2 ⟨fun e he => ?_,h⟩
      rcases List.mem_cons.1 he with rfl | he
      · exact first
      · exact lt_trans first (below e he)
    · split
      · rename_i later
        refine List.pairwise_cons.2 ⟨fun e he => ?_,ih rest⟩
        rcases memInsertEntry he with rfl | he
        · exact later
        · exact below e he
      · exact h

namespace OrderedMap

def empty : OrderedMap K V := ⟨[],List.Pairwise.nil⟩

def find (m : OrderedMap K V) (k : K) : Option V := (m.entries.find? fun e => e.1 = k).map Prod.snd

def insert (m : OrderedMap K V) (k : K) (v : V) : OrderedMap K V :=
  ⟨insertEntry k v m.entries,insertEntrySorted m.sorted⟩

def erase (m : OrderedMap K V) (k : K) : OrderedMap K V :=
  ⟨m.entries.filter fun e => e.1 ≠ k,m.sorted.filter _⟩

theorem keysNodup (m : OrderedMap K V) : (m.entries.map Prod.fst).Nodup :=
  List.pairwise_map.2 (m.sorted.imp fun h => ne_of_lt h)

theorem findIff {m : OrderedMap K V} {k : K} {v : V} : m.find k = some v ↔ (k,v) ∈ m.entries := by
  unfold find
  constructor
  · intro found
    obtain ⟨e,he,rfl⟩ := Option.map_eq_some_iff.1 found
    have key : e.1 = k := by simpa using List.find?_some he
    subst key
    exact List.mem_of_find?_eq_some he
  · intro mem
    cases found : m.entries.find? fun e => e.1 = k with
    | none =>
      have absent := List.find?_eq_none.1 found (k,v) mem
      simp at absent
    | some e =>
      have key : e.1 = k := by simpa using List.find?_some found
      have same := List.inj_on_of_nodup_map m.keysNodup (List.mem_of_find?_eq_some found) mem key
      simp [same]

theorem findNone {m : OrderedMap K V} {k : K} : m.find k = none ↔ ∀ v, (k,v) ∉ m.entries := by
  rw [Option.eq_none_iff_forall_ne_some]
  exact forall_congr' fun v => not_congr findIff

theorem memErase {m : OrderedMap K V} {k : K} {e : K × V} :
    e ∈ (m.erase k).entries ↔ e ∈ m.entries ∧ e.1 ≠ k := by
  simp [erase,List.mem_filter]

theorem findErase {m : OrderedMap K V} {k k' : K} {v : V} :
    (m.erase k).find k' = some v ↔ m.find k' = some v ∧ k' ≠ k := by
  rw [findIff,findIff,memErase]

theorem insertPresent {m : OrderedMap K V} {k : K} {v w : V} (h : m.find k = some w) :
    m.insert k v = m := by
  have mem := findIff.1 h
  have same : insertEntry k v m.entries = m.entries := by
    have sorted := m.sorted
    generalize m.entries = l at mem sorted
    induction l with
    | nil => exact absurd mem List.not_mem_nil
    | cons d l ih =>
      obtain ⟨below,rest⟩ := List.pairwise_cons.1 sorted
      unfold insertEntry
      rcases List.mem_cons.1 mem with rfl | mem
      · rw [if_neg (lt_irrefl _),if_neg (lt_irrefl _)]
      · rw [if_neg (lt_asymm (below _ mem)),if_pos (below _ mem),ih mem rest]
  cases m
  simp only [insert,same]

theorem insertPerm {m : OrderedMap K V} {k : K} {v : V} (h : m.find k = none) :
    (m.insert k v).entries.Perm ((k,v) :: m.entries) := by
  have absent := findNone.1 h
  have perm : (insertEntry k v m.entries).Perm ((k,v) :: m.entries) := by
    generalize m.entries = l at absent
    induction l with
    | nil => exact List.Perm.refl _
    | cons d l ih =>
      unfold insertEntry
      split
      · exact List.Perm.refl _
      · split
        · have later := ih fun w mem => absent w (List.mem_cons_of_mem d mem)
          exact (later.cons d).trans (List.Perm.swap _ _ _)
        · rename_i above below
          have key : d.1 = k := le_antisymm (not_lt.1 above) (not_lt.1 below)
          exact absurd List.mem_cons_self (absent d.2 ∘ fun mem => key ▸ mem)
  exact perm

theorem findInsert {m : OrderedMap K V} {k k' : K} {v w : V} (h : m.find k = none) :
    (m.insert k v).find k' = some w ↔ (k' = k ∧ w = v) ∨ m.find k' = some w := by
  rw [findIff,findIff,(insertPerm h).mem_iff,List.mem_cons,Prod.mk.injEq]

theorem erasePerm {m : OrderedMap K V} {k : K} {v : V} (h : m.find k = some v) :
    m.entries.Perm ((k,v) :: (m.erase k).entries) := by
  have mem := findIff.1 h
  have keys := m.keysNodup
  simp only [erase]
  generalize m.entries = l at mem keys
  induction l with
  | nil => exact absurd mem List.not_mem_nil
  | cons d l ih =>
    obtain ⟨off,rest⟩ := List.nodup_cons.1 keys
    rcases List.mem_cons.1 mem with rfl | mem
    · have others : l.filter (fun e => e.1 ≠ k) = l := by
        refine List.filter_eq_self.2 fun e he => ?_
        have other : e.1 ≠ k := fun same => off (List.mem_map.2 ⟨e,he,same⟩)
        simpa using other
      rw [List.filter_cons_of_neg (by simp),others]
    · have other : d.1 ≠ k := fun same => off (List.mem_map.2 ⟨_,mem,same.symm⟩)
      rw [List.filter_cons_of_pos (by simpa using other)]
      exact ((ih mem rest).cons d).trans (List.Perm.swap _ _ _)

end OrderedMap

end CuteNdk.Lib
