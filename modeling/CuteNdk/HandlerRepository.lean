import Mathlib.Logic.Function.Basic

/-! The table that maps a handle to its event handler, mask and suspended flag.
A handle is an int and an event handler is named by a number; a null handler is
none. The table is the one open(size) builds, so handlers_ is never null. -/
namespace CuteNdk.Reactor

abbrev Handle := Int
abbrev EventHandler := Nat
abbrev Mask := BitVec 32

instance : LawfulBEq (Handle × Mask) := Prod.instLawfulBEq

namespace Mask
def null : Mask := 0
def read : Mask := 1 <<< 1
def write : Mask := 1 <<< 2
def except : Mask := 1 <<< 3
def accept : Mask := 1 <<< 4
def connect : Mask := 1 <<< 5
def epollEdge : Mask := 1 <<< 7
def dontCall : Mask := 1 <<< 31
end Mask

def bitEnabled (word bit : BitVec 32) : Bool := word &&& bit != 0
def bitDisabled (word bit : BitVec 32) : Bool := word &&& bit == 0
def setBits (word bits : BitVec 32) : BitVec 32 := word ||| bits
def clrBits (word bits : BitVec 32) : BitVec 32 := word &&& ~~~bits

structure EventTuple where
  suspended : Bool
  eventHandler : Option EventHandler
  mask : Mask
  deriving DecidableEq, Repr

structure HandlerRepository where
  maxSize : Int
  handlers : Handle → EventTuple

namespace HandlerRepository

def opened (size : Int) : HandlerRepository := ⟨size,fun _ => ⟨false,none,Mask.null⟩⟩

def handleInRange (r : HandlerRepository) (h : Handle) : Prop := 0 ≤ h ∧ h < r.maxSize
instance (r h) : Decidable (handleInRange r h) := by unfold handleInRange; infer_instance

def find (r : HandlerRepository) (h : Handle) : Option EventHandler :=
  if r.handleInRange h then (r.handlers h).eventHandler else none

def put (r : HandlerRepository) (h : Handle) (e : EventTuple) : HandlerRepository :=
  { r with handlers := Function.update r.handlers h e }

def bind (r : HandlerRepository) (h : Handle) (eh : Option EventHandler) (m : Mask) :
    HandlerRepository × Int :=
  match eh with
  | none => (r,-1)
  | some eh =>
    if r.handleInRange h then
      (r.put h { r.handlers h with eventHandler := some eh, mask := m },0)
    else (r,-1)

-- suspended_ stays as it is
def unbind (r : HandlerRepository) (h : Handle) : HandlerRepository × Int :=
  if r.find h = none then (r,-1)
  else (r.put h { r.handlers h with eventHandler := none, mask := Mask.null },0)

def mask (r : HandlerRepository) (h : Handle) : Mask :=
  if r.handleInRange h then (r.handlers h).mask else Mask.null

def setMask (r : HandlerRepository) (h : Handle) (m : Mask) : HandlerRepository :=
  if r.handleInRange h then r.put h { r.handlers h with mask := m } else r

def suspend (r : HandlerRepository) (h : Handle) : HandlerRepository :=
  if r.handleInRange h then r.put h { r.handlers h with suspended := true } else r

def resume (r : HandlerRepository) (h : Handle) : HandlerRepository :=
  if r.handleInRange h then r.put h { r.handlers h with suspended := false } else r

def suspended (r : HandlerRepository) (h : Handle) : Bool :=
  if r.handleInRange h then (r.handlers h).suspended else false

@[simp] theorem inRangePut (r : HandlerRepository) (h h' : Handle) (e : EventTuple) :
    (r.put h e).handleInRange h' ↔ r.handleInRange h' := Iff.rfl

@[simp] theorem handlersPut (r : HandlerRepository) (h h' : Handle) (e : EventTuple) :
    (r.put h e).handlers h' = if h' = h then e else r.handlers h' := by
  simp only [put,Function.update_apply]

theorem findRange {r : HandlerRepository} {h : Handle} (found : r.find h ≠ none) : r.handleInRange h := by
  by_contra out
  exact found (if_neg out)

/- What one handle's entry shows of the table, and writes elsewhere do not touch. -/
theorem putOther (r : HandlerRepository) {h h' : Handle} (other : h' ≠ h) (e : EventTuple) :
    (r.put h e).find h' = r.find h' ∧ (r.put h e).mask h' = r.mask h' ∧
      (r.put h e).suspended h' = r.suspended h' := by
  simp [find,mask,suspended,other]

theorem putSame (r : HandlerRepository) {h : Handle} (range : r.handleInRange h) (e : EventTuple) :
    (r.put h e).find h = e.eventHandler ∧ (r.put h e).mask h = e.mask ∧
      (r.put h e).suspended h = e.suspended := by
  simp [find,mask,suspended,range]

theorem putPut (r : HandlerRepository) (h : Handle) (e e' : EventTuple) :
    (r.put h e).put h e' = r.put h e' := by
  simp [put]

theorem entryFind {r : HandlerRepository} {h : Handle} (range : r.handleInRange h) :
    r.find h = (r.handlers h).eventHandler ∧ r.mask h = (r.handlers h).mask ∧
      r.suspended h = (r.handlers h).suspended := by
  simp [find,mask,suspended,range]

theorem setMaskPut {r : HandlerRepository} {h : Handle} (bound : r.find h ≠ none) (m : Mask) :
    r.setMask h m = r.put h { r.handlers h with mask := m } :=
  if_pos (findRange bound)

/- unbind clears the handler and the mask and leaves the suspended flag. -/
theorem unbindPut {r : HandlerRepository} {h : Handle} (bound : r.find h ≠ none) :
    (r.unbind h).1 = r.put h ⟨(r.handlers h).suspended,none,Mask.null⟩ := by
  rw [unbind,if_neg bound]

end HandlerRepository
end CuteNdk.Reactor
