import CuteNdk.Lib.Bytes

/-! message_block: the operators << and >> of the integer types. A value that does not fit
is skipped by both, in silence: the bytes that are left to read are no more than the space
that was left to write. -/
namespace CuteNdk
open Lib.Bytes (Memory load store loadBelow loadCongr loadStore storeOutside)

/- The types the operators are declared for, without the two of floating point. -/
inductive IntegerType where
  | int8 | int16 | int32 | int64
  | uint8 | uint16 | uint32 | uint64
  deriving DecidableEq, Repr

def IntegerType.sizeof : IntegerType → Nat
  | int8 | uint8 => 1
  | int16 | uint16 => 2
  | int32 | uint32 => 4
  | int64 | uint64 => 8

structure MessageBlock where
  mbData : Memory
  mbSize : Nat
  rdPtr : Nat
  wrPtr : Nat

namespace MessageBlock

/- message_block(size): the data is what new char[size] finds there. -/
def make (size : Nat) (data : Memory) : MessageBlock := ⟨data,size,0,0⟩

def length (b : MessageBlock) : Nat := b.wrPtr - b.rdPtr

def space (b : MessageBlock) : Nat := if 0 < b.mbSize then b.mbSize - b.wrPtr else 0

/- operator <<: memcpy copies the bytes of v, the least first. -/
def write (b : MessageBlock) (type : IntegerType) (v : BitVec (8 * type.sizeof)) : MessageBlock :=
  if type.sizeof ≤ b.space then
    { b with mbData := store type.sizeof b.mbData b.wrPtr v.toNat, wrPtr := b.wrPtr + type.sizeof }
  else b

/- operator >>: what is in the variable v after it, and the block. -/
def read (b : MessageBlock) (type : IntegerType) (v : BitVec (8 * type.sizeof)) :
    BitVec (8 * type.sizeof) × MessageBlock :=
  if type.sizeof ≤ b.length then
    (BitVec.ofNat _ (load type.sizeof b.mbData b.rdPtr),{ b with rdPtr := b.rdPtr + type.sizeof })
  else (v,b)

/- A value to write, and the variable of its type that it is read into. -/
structure Slot where
  type : IntegerType
  value : BitVec (8 * type.sizeof)
  target : BitVec (8 * type.sizeof)
  deriving DecidableEq, Repr

def writeAll (b : MessageBlock) : List Slot → MessageBlock
  | [] => b
  | s :: rest => (b.write s.type s.value).writeAll rest

/- Which values fit in the space that is left when they are written. -/
def fitted (b : MessageBlock) : List Slot → List Bool
  | [] => []
  | s :: rest => decide (s.type.sizeof ≤ b.space) :: (b.write s.type s.value).fitted rest

def readAll (b : MessageBlock) : List Slot → List Slot × MessageBlock
  | [] => ([],b)
  | s :: rest =>
    let (v,b) := b.read s.type s.target
    let (after,b) := b.readAll rest
    ({ s with target := v } :: after,b)

/- What a variable should hold: the value, if it fitted, or what it held before. -/
def Slot.expected (fits : Bool) (s : Slot) : Slot := if fits then { s with target := s.value } else s

section Writes
variable {b : MessageBlock} {s : Slot}

theorem spaceBelow (b : MessageBlock) : b.wrPtr ≤ b.mbSize → b.wrPtr + b.space ≤ b.mbSize := by
  intro inside
  unfold space
  split <;> omega

/- What writing leaves: it goes on from wr_ptr_, within the space there was. -/
structure Extends (b c : MessageBlock) : Prop where
  size : c.mbSize = b.mbSize
  rdPtr : c.rdPtr = b.rdPtr
  forward : b.wrPtr ≤ c.wrPtr
  space : c.wrPtr ≤ b.wrPtr + b.space
  below : ∀ x < b.wrPtr, c.mbData x = b.mbData x

theorem extendsRefl (b : MessageBlock) : Extends b b :=
  ⟨rfl,rfl,Nat.le_refl _,Nat.le_add_right _ _,fun _ _ => rfl⟩

theorem extendsTrans {c d : MessageBlock} (first : Extends b c) (second : Extends c d) : Extends b d := by
  refine ⟨second.size.trans first.size,second.rdPtr.trans first.rdPtr,Nat.le_trans first.forward second.forward,?_,
    fun x low => (second.below x (Nat.lt_of_lt_of_le low first.forward)).trans (first.below x low)⟩
  have used := second.space
  have room := first.space
  unfold MessageBlock.space at used room ⊢
  rw [first.size] at used
  have forward := first.forward
  cases Nat.decLt 0 b.mbSize with
  | isTrue some' =>
    simp only [some',if_true] at used room ⊢
    omega
  | isFalse none' =>
    simp only [none',if_false] at used room ⊢
    omega

theorem writeExtends (b : MessageBlock) (s : Slot) : Extends b (b.write s.type s.value) := by
  unfold write
  split
  case isFalse full => exact extendsRefl b
  case isTrue fits =>
    exact ⟨rfl,rfl,Nat.le_add_right _ _,Nat.add_le_add_left fits _,fun x low => storeOutside (.inl low)⟩

theorem writeAllExtends (b : MessageBlock) (slots : List Slot) : Extends b (b.writeAll slots) := by
  induction slots generalizing b with
  | nil => exact extendsRefl b
  | cons s rest ih => exact extendsTrans (writeExtends b s) (ih _)

end Writes

section Reads

theorem valueFits (type : IntegerType) (v : BitVec (8 * type.sizeof)) : v.toNat < 256 ^ type.sizeof := by
  have below := v.isLt
  rwa [pow_mul] at below

/- The reader is where the writer was, and so much is left as has been written since. -/
theorem readAllWritten {b c : MessageBlock} (slots : List Slot) (data : c.mbData = (b.writeAll slots).mbData)
    (rdPtr : c.rdPtr = b.wrPtr) (wrPtr : c.wrPtr = (b.writeAll slots).wrPtr) :
    c.readAll slots = (List.zipWith Slot.expected (b.fitted slots) slots,{ c with rdPtr := c.wrPtr }) := by
  induction slots generalizing b c with
  | nil =>
    have same : c.rdPtr = c.wrPtr := rdPtr.trans wrPtr.symm
    have stays : { c with rdPtr := c.wrPtr } = c := by
      cases c
      cases same
      rfl
    simp only [readAll,fitted,List.zipWith_nil_right,stays]
  | cons s rest ih =>
    have later := writeAllExtends (b.write s.type s.value) rest
    rw [writeAll] at data wrPtr
    cases Nat.decLe s.type.sizeof b.space with
    | isTrue fits =>
      have wrote : b.write s.type s.value =
          { b with mbData := store s.type.sizeof b.mbData b.wrPtr s.value.toNat, wrPtr := b.wrPtr + s.type.sizeof } :=
        if_pos fits
      have enough : s.type.sizeof ≤ c.length := by
        have forward := later.forward
        rw [← wrPtr,wrote] at forward
        unfold length
        change b.wrPtr + s.type.sizeof ≤ c.wrPtr at forward
        omega
      have there : load s.type.sizeof c.mbData c.rdPtr = s.value.toNat := by
        rw [data,rdPtr]
        refine (loadCongr fun x low high => later.below x ?_).trans ?_
        · rw [wrote]
          exact high
        · rw [wrote]
          exact loadStore (valueFits s.type s.value)
      have moved := ih (c := { c with rdPtr := c.rdPtr + s.type.sizeof }) data (by rw [wrote,rdPtr]) wrPtr
      simp only [readAll,read,enough,if_true,there,BitVec.ofNat_toNat,BitVec.setWidth_eq,moved,fitted,fits,decide_true,
        List.zipWith_cons_cons,Slot.expected]
    | isFalse full =>
      have skipped : b.write s.type s.value = b := if_neg full
      rw [skipped] at later data wrPtr
      -- all that is written later went into the space this value did not fit in
      have short : ¬s.type.sizeof ≤ c.length := by
        have within := later.space
        rw [← wrPtr] at within
        unfold length
        omega
      have moved := ih data rdPtr wrPtr
      simp only [readAll,read,short,if_false,moved,fitted,full,decide_false,skipped,List.zipWith_cons_cons,Slot.expected,
        Bool.false_eq_true]

end Reads

/- For every size, 0 among them. -/
theorem readsWhatFitted (size : Nat) (data : Memory) (slots : List Slot) :
    ((make size data).writeAll slots).readAll slots =
      (List.zipWith Slot.expected ((make size data).fitted slots) slots,
        { (make size data).writeAll slots with rdPtr := ((make size data).writeAll slots).wrPtr }) ∧
    ((make size data).writeAll slots).wrPtr ≤ size := by
  have all := writeAllExtends (make size data) slots
  refine ⟨readAllWritten slots rfl all.rdPtr rfl,?_⟩
  exact Nat.le_trans all.space (spaceBelow (make size data) (Nat.zero_le size))

/- Four bytes: the 8 byte value is skipped, and the last one too. -/
example : ((make 4 fun _ => 0).fitted [⟨.int8,0xff,0⟩,⟨.uint64,7,9⟩,⟨.int16,0x1234,0⟩,⟨.int32,5,6⟩,⟨.uint8,8,0⟩]) =
    [true,false,true,false,true] := by decide

end MessageBlock

end CuteNdk
