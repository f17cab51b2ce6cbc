import Mathlib.Algebra.GroupWithZero.Nat
import Mathlib.Data.List.Basic

/-! Pieces laid end to end from start to stop: the piece at a ends before size a more
places. Cutting a piece in two and joining two that touch keep the others where they
are. -/
namespace CuteNdk.Lib

def Tiles (size : Nat → Nat) : Nat → List Nat → Nat → Prop
  | start, [], stop => start = stop
  | start, a :: l, stop => a = start ∧ Tiles size (start + size a) l stop

variable {size size' : Nat → Nat} {start stop : Nat} {l l₁ l₂ : List Nat}

instance decidableTiles (size : Nat → Nat) : (start : Nat) → (l : List Nat) → (stop : Nat) →
    Decidable (Tiles size start l stop)
  | start, [], stop => inferInstanceAs (Decidable (start = stop))
  | start, a :: l, stop =>
    have := decidableTiles size (start + size a) l stop
    inferInstanceAs (Decidable (a = start ∧ Tiles size (start + size a) l stop))

theorem tilesAppend : Tiles size start (l₁ ++ l₂) stop ↔ ∃ mid, Tiles size start l₁ mid ∧ Tiles size mid l₂ stop := by
  induction l₁ generalizing start with
  | nil => simp [Tiles]
  | cons a l ih => simp [Tiles,ih,and_assoc]

theorem tilesCongr (same : ∀ a ∈ l, size' a = size a) (h : Tiles size start l stop) : Tiles size' start l stop := by
  induction l generalizing start with
  | nil => exact h
  | cons a l ih =>
    refine ⟨h.1,?_⟩
    rw [same a List.mem_cons_self]
    exact ih (fun b hb => same b (List.mem_cons_of_mem a hb)) h.2

theorem tilesRange (h : Tiles size start l stop) : start ≤ stop ∧ ∀ a ∈ l, start ≤ a ∧ a + size a ≤ stop := by
  induction l generalizing start with
  | nil =>
    cases h
    exact ⟨Nat.le_refl _,nofun⟩
  | cons a l ih =>
    obtain ⟨rfl,rest⟩ := h
    obtain ⟨order,inside⟩ := ih rest
    refine ⟨by omega,fun b hb => ?_⟩
    rcases List.mem_cons.1 hb with rfl | later
    · omega
    · have := inside b later
      omega

theorem tilesSum (h : Tiles size start l stop) : start + (l.map size).sum = stop := by
  induction l generalizing start with
  | nil => exact h
  | cons a l ih =>
    obtain ⟨rfl,rest⟩ := h
    have later := ih rest
    rw [List.map_cons,List.sum_cons]
    omega

/- Two pieces do not overlap. -/
theorem tilesApart (h : Tiles size start l stop) {a b : Nat} (ha : a ∈ l) (hb : b ∈ l) (other : a ≠ b) :
    a + size a ≤ b ∨ b + size b ≤ a := by
  induction l generalizing start with
  | nil => cases ha
  | cons c l ih =>
    obtain ⟨rfl,rest⟩ := h
    have later := (tilesRange rest).2
    rcases List.mem_cons.1 ha with rfl | laterA <;> rcases List.mem_cons.1 hb with rfl | laterB
    · exact absurd rfl other
    · exact .inl (later b laterB).1
    · exact .inr (later a laterA).1
    · exact ih rest laterA laterB

theorem tilesSorted (h : Tiles size start l stop) (some_ : ∀ a ∈ l, 0 < size a) : l.Pairwise (· < ·) := by
  induction l generalizing start with
  | nil => exact List.Pairwise.nil
  | cons a l ih =>
    obtain ⟨rfl,rest⟩ := h
    refine List.pairwise_cons.2 ⟨fun b hb => ?_,ih rest fun b hb => some_ b (List.mem_cons_of_mem a hb)⟩
    have := (tilesRange rest).2 b hb
    have := some_ a List.mem_cons_self
    omega

/- A piece is cut: it ends where the new one starts. -/
theorem tilesCut {a b : Nat} (h : Tiles size start (l₁ ++ a :: l₂) stop) (same : ∀ c ∈ l₁ ++ l₂, size' c = size c)
    (first : a + size' a = b) (second : b + size' b = a + size a) : Tiles size' start (l₁ ++ a :: b :: l₂) stop := by
  obtain ⟨mid,before,at_,after⟩ := tilesAppend.1 h
  refine tilesAppend.2 ⟨mid,tilesCongr (fun c hc => same c (List.mem_append_left _ hc)) before,at_,?_,?_⟩
  · omega
  · have ends : mid + size' a + size' b = mid + size a := by omega
    rw [ends]
    exact tilesCongr (fun c hc => same c (List.mem_append_right _ hc)) after

/- Two pieces that touch are joined. -/
theorem tilesJoin {a b : Nat} (h : Tiles size start (l₁ ++ a :: b :: l₂) stop) (same : ∀ c ∈ l₁ ++ l₂, size' c = size c)
    (both : size' a = size a + size b) : Tiles size' start (l₁ ++ a :: l₂) stop := by
  obtain ⟨mid,before,at_,next,after⟩ := tilesAppend.1 h
  refine tilesAppend.2 ⟨mid,tilesCongr (fun c hc => same c (List.mem_append_left _ hc)) before,at_,?_⟩
  have ends : mid + size' a = mid + size a + size b := by omega
  rw [ends]
  exact tilesCongr (fun c hc => same c (List.mem_append_right _ hc)) after

end CuteNdk.Lib
