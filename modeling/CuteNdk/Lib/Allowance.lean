import Mathlib.Algebra.Order.Group.Defs
import Mathlib.Algebra.Order.Monoid.NatCast
import Mathlib.Tactic.Abel

/-! A balance that is granted credits, is spent from by more than there is, up to a bound, and
is set back to zero now and then. Setting it back forgives a debt, so that each time adds the
bound to what may have been spent. -/
namespace CuteNdk.Lib

structure Allowance (α : Type*) where
  balance : α
  granted : α
  spent : α
  resets : Nat

namespace Allowance

variable {α : Type*} [AddCommGroup α] [LinearOrder α] [IsOrderedAddMonoid α]

def grant (a : Allowance α) (credit : α) : Allowance α := { a with balance := a.balance + credit, granted := a.granted + credit }

def spend (a : Allowance α) (n : α) : Allowance α := { a with balance := a.balance - n, spent := a.spent + n }

def reset (a : Allowance α) : Allowance α := { a with balance := 0, resets := a.resets + 1 }

/- The debt is bounded, and what is spent and left over has been granted or forgiven. -/
structure Kept (debt : α) (a : Allowance α) : Prop where
  bounded : -debt ≤ a.balance
  paid : a.spent + a.balance ≤ a.granted + a.resets • debt

variable {debt : α} {a : Allowance α}

theorem keptStart (some_ : 0 ≤ debt) : Kept debt ⟨0,0,0,0⟩ := by
  refine ⟨neg_nonpos.mpr some_,le_of_eq ?_⟩
  simp only [zero_nsmul]

theorem keptGrant {credit : α} (h : Kept debt a) (some_ : 0 ≤ credit) : Kept debt (a.grant credit) := by
  constructor
  · exact h.bounded.trans (le_add_of_nonneg_right some_)
  · calc a.spent + (a.balance + credit) = a.spent + a.balance + credit := (add_assoc _ _ _).symm
      _ ≤ a.granted + a.resets • debt + credit := add_le_add_left h.paid credit
      _ = a.granted + credit + a.resets • debt := add_right_comm _ _ _

theorem keptSpend {n : α} (h : Kept debt a) (within : n ≤ a.balance + debt) : Kept debt (a.spend n) := by
  constructor
  · show -debt ≤ a.balance - n
    rw [neg_le_iff_add_nonneg,sub_add_eq_add_sub,sub_nonneg]
    exact within
  · calc a.spent + n + (a.balance - n) = a.spent + a.balance := by abel
      _ ≤ a.granted + a.resets • debt := h.paid

theorem keptTotal (h : Kept debt a) : a.spent ≤ a.granted + a.resets • debt + debt := by
  calc a.spent ≤ a.spent + a.balance + debt := by
        rw [add_assoc]
        exact le_add_of_nonneg_right (neg_le_iff_add_nonneg.mp h.bounded)
    _ ≤ a.granted + a.resets • debt + debt := add_le_add_left h.paid debt

theorem keptReset (h : Kept debt a) (some_ : 0 ≤ debt) : Kept debt a.reset := by
  refine ⟨neg_nonpos.mpr some_,?_⟩
  calc a.spent + 0 = a.spent := add_zero _
    _ ≤ a.granted + a.resets • debt + debt := keptTotal h
    _ = a.granted + (a.resets + 1) • debt := by rw [succ_nsmul,add_assoc]

end Allowance

end CuteNdk.Lib
