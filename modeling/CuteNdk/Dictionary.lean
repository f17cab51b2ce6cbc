import CuteNdk.Lib.CString
import CuteNdk.Lib.Run
import CuteNdk.Lib.Slots

/-! dictionary.c: keys, values and hashes in three arrays. A slot is empty while its key is null,
and a slot that a key has left is used again. A result of none is undefined: an array that calloc
did not give is read, a place outside an array is written, an int overflows. -/
namespace CuteNdk.Ini
open Lib.CString

def dictMinSz : Nat := 128

def intMax : Nat := 0x7fffffff

/- One place of d->key, d->val and d->hash. A null pointer is none. -/
structure Slot where
  key : Option Str
  val : Option Str
  hash : BitVec 32
  deriving DecidableEq, Repr

def Slot.empty : Slot := ⟨none,none,0⟩

/- size is the number of slots. val, key and hash say whether the array is there. -/
structure Dictionary where
  n : Nat
  slots : List Slot
  val : Bool
  key : Bool
  hash : Bool
  deriving DecidableEq, Repr

/- What a call gets from calloc and malloc: the dictionary, the arrays and the two copies. -/
structure Grants where
  dict : Bool
  val : Bool
  key : Bool
  hash : Bool
  keyText : Bool
  valText : Bool
  deriving DecidableEq, Repr

def Grants.all : Grants := ⟨true,true,true,true,true,true⟩

/- A char is signed, and its sign goes into the unsigned. -/
def charBits (c : Char) : BitVec 32 := (BitVec.ofNat 8 c.toNat).signExtend 32

def dictionaryHash (key : Str) : BitVec 32 :=
  let hash := key.foldl (fun hash c =>
    let hash := hash + charBits c
    let hash := hash + hash <<< 10
    hash ^^^ hash >>> 6) 0
  let hash := hash + hash <<< 3
  let hash := hash ^^^ hash >>> 11
  hash + hash <<< 15

def xstrdup (granted : Bool) (s : Str) : Option Str := if granted then some s else none

/- Whether the new array is there. The old one is copied from. -/
def memDouble (granted there : Bool) (size : Nat) : Option Bool :=
  if intMax < 2 * size then none
  else if granted then (if there then some true else none)
  else some false

/- A pointer to char that may be null or INI_INVALID_KEY, which no text has. -/
inductive CharPtr where
  | null
  | invalid
  | text (s : Str)
  deriving DecidableEq, Repr

def CharPtr.of : Option Str → CharPtr
  | none => .null
  | some s => .text s

def dictionaryNew (a : Grants) (size : Int) : Option Dictionary :=
  let size := if size < dictMinSz then dictMinSz else size.toNat
  if a.dict then some ⟨0,List.replicate size Slot.empty,a.val,a.key,a.hash⟩ else none

namespace Dictionary

def whole (d : Dictionary) : Bool := d.val && d.key && d.hash

/- The loop of get, set and unset over the slots: where the key is, if it is there. -/
def slotOf (d : Dictionary) (key : Str) : Option (Option Nat) :=
  if d.slots ≠ [] ∧ ¬d.key then none
  else if (∃ s ∈ d.slots, s.key ≠ none) ∧ ¬d.hash then none
  else some (d.slots.findIdx? fun s => s.key.any fun k => dictionaryHash key = s.hash ∧ key = k)

def grow (a : Grants) (d : Dictionary) : Option Dictionary :=
  (memDouble a.val d.val (8 * d.slots.length)).bind fun val =>
    (memDouble a.key d.key (8 * d.slots.length)).bind fun key =>
      (memDouble a.hash d.hash (4 * d.slots.length)).map fun hash =>
        if val && key && hash then
          ⟨d.n,d.slots ++ List.replicate d.slots.length Slot.empty,true,true,true⟩
        else ⟨d.n,d.slots,val,key,hash⟩

/- The first empty slot gets the key. Behind the last slot is none. -/
def add (a : Grants) (d : Dictionary) (key : Str) (val : Option Str) : Option (Int × Dictionary) :=
  if d.whole then
    (d.slots.findIdx? fun s => s.key.isNone).map fun i =>
      (0,{ d with
        n := d.n + 1
        slots := d.slots.set i ⟨xstrdup a.keyText key,val.bind (xstrdup a.valText),dictionaryHash key⟩ })
  else none

/- The value of the slot is replaced. -/
def modify (a : Grants) (d : Dictionary) (i : Nat) (val : Option Str) : Option (Int × Dictionary) :=
  if d.val then
    d.slots[i]?.map fun s => (0,{ d with slots := d.slots.set i { s with val := val.bind (xstrdup a.valText) } })
  else none

end Dictionary

def dictionaryGet (d : Dictionary) (key : Str) (def_ : CharPtr) : Option CharPtr :=
  (d.slotOf key).bind fun found =>
    match found with
    | none => some def_
    | some i => if d.val then d.slots[i]?.map fun s => CharPtr.of s.val else none

def dictionarySet (a : Grants) (d : Dictionary) (key : Str) (val : Option Str) : Option (Int × Dictionary) :=
  (if 0 < d.n then d.slotOf key else some none).bind fun found =>
    match found with
    | some i => d.modify a i val
    | none =>
      if d.n = d.slots.length then
        (d.grow a).bind fun d => if d.whole then d.add a key val else some (-1,d)
      else d.add a key val

def dictionaryUnset (d : Dictionary) (key : Str) : Option Dictionary :=
  (d.slotOf key).bind fun found =>
    match found with
    | none => some d
    | some i => if d.val then some { d with n := d.n - 1, slots := d.slots.set i Slot.empty } else none

/- Every key and every value is looked at. -/
def dictionaryDel (d : Dictionary) : Option Unit :=
  if d.slots = [] ∨ d.key ∧ d.val then some () else none

/- The keys and values of the slots. -/
def Slot.entry (s : Slot) : Option (Str × Option Str) := s.key.map fun k => (k,s.val)

namespace Dictionary
open Lib.Slots (Table At Distinct used lookup)

def table (d : Dictionary) : Table Str (Option Str) := d.slots.map Slot.entry

/- The value a key has, which may be null. -/
def bindings (d : Dictionary) : Str → Option (Option Str) := lookup d.table

/- n may be more than the slots in use: a key that could not be copied is counted too. -/
structure Well (d : Dictionary) : Prop where
  whole : d.whole
  hashes : ∀ s ∈ d.slots, ∀ k ∈ s.key, s.hash = dictionaryHash k
  distinct : Distinct d.table
  counted : used d.table ≤ d.n
  room : d.n ≤ d.slots.length
  some_ : d.slots ≠ []

section Spec
variable {a : Grants} {d d' : Dictionary} {key : Str} {val : Option Str} {i : Nat} {s : Slot}

theorem findIdxCongr {α : Type} {p q : α → Bool} {l : List α} (same : ∀ x ∈ l, p x = q x) :
    l.findIdx? p = l.findIdx? q := by
  induction l with
  | nil => rfl
  | cons x l ih =>
    rw [List.findIdx?_cons,List.findIdx?_cons,same x List.mem_cons_self,
      ih fun y mem => same y (List.mem_cons_of_mem x mem)]

theorem wholeIff : d.whole ↔ d.val = true ∧ d.key = true ∧ d.hash = true := by
  simp [whole,and_assoc]

/- The hash only saves comparisons. -/
theorem slotOfTable (h : Well d) (key : Str) : d.slotOf key = some (Lib.Slots.slotOf d.table key) := by
  obtain ⟨_,keys,hashes⟩ := wholeIff.1 h.whole
  have there : ¬(d.slots ≠ [] ∧ ¬d.key) := fun both => both.2 keys
  have hashed : ¬((∃ s ∈ d.slots, s.key ≠ none) ∧ ¬d.hash) := fun both => both.2 hashes
  unfold slotOf Lib.Slots.slotOf table
  rw [if_neg there,if_neg hashed,List.findIdx?_map]
  refine congrArg some (findIdxCongr fun s mem => ?_)
  cases named : s.key with
  | none => simp [Slot.entry,named]
  | some k =>
    have hash := h.hashes s mem k named
    simp only [Slot.entry,named,Function.comp_apply,Option.map_some,Option.any_some,hash]
    by_cases same : k = key
    · simp [same]
    · simp [same,Ne.symm same]

theorem entryAt (here : d.slots[i]? = some s) : d.table[i]? = some s.entry := by
  unfold table
  rw [List.getElem?_map,here]
  rfl

theorem atSlot {v : Option Str} : At d.table i key v ↔ ∃ s, d.slots[i]? = some s ∧ s.key = some key ∧ s.val = v := by
  unfold At table
  rw [List.getElem?_map]
  cases here : d.slots[i]? with
  | none => simp
  | some s =>
    cases named : s.key with
    | none => simp [Slot.entry,named]
    | some k => simp [Slot.entry,named]

theorem getBinding (h : Well d) (key : Str) (def_ : CharPtr) :
    dictionaryGet d key def_ = some ((d.bindings key).elim def_ CharPtr.of) := by
  obtain ⟨vals,_,_⟩ := wholeIff.1 h.whole
  unfold dictionaryGet
  rw [slotOfTable h,Option.bind_some]
  cases found : Lib.Slots.slotOf d.table key with
  | none =>
    have none_ : d.bindings key = none := Lib.Slots.lookupNone.2 found
    rw [none_]
    rfl
  | some i =>
    obtain ⟨v,at_⟩ := Lib.Slots.slotHolds found
    obtain ⟨s,here,_,valued⟩ := atSlot.1 at_
    have bound : d.bindings key = some v := (Lib.Slots.lookupIff h.distinct).2 ⟨i,at_⟩
    simp only [vals,if_true,here,Option.map_some,valued,bound,Option.elim]

theorem setTable (s : Slot) : (d.slots.set i s).map Slot.entry = d.table.set i s.entry := List.map_set

theorem tableLength : d.table.length = d.slots.length := List.length_map _

/- With no key counted there is none to find, and the search that is left out finds none. -/
theorem searched (h : Well d) (key : Str) :
    (if 0 < d.n then d.slotOf key else some none) = some (Lib.Slots.slotOf d.table key) := by
  split
  · exact slotOfTable h key
  · rename_i empty
    refine congrArg some ?_
    cases found : Lib.Slots.slotOf d.table key with
    | none => rfl
    | some i =>
      obtain ⟨v,at_⟩ := Lib.Slots.slotHolds found
      have mem : some (key,v) ∈ d.table := List.mem_of_getElem? at_
      have one : 0 < used d.table := List.countP_pos_iff.2 ⟨_,mem,rfl⟩
      have counted := h.counted
      omega

end Spec

end Dictionary

end CuteNdk.Ini
