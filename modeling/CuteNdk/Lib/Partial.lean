import Mathlib.Logic.Function.Basic

/-! A partial function that is written at one place. Nothing here names a particular one. -/
namespace CuteNdk.Lib

section Update
variable {κ ν : Type*} [DecidableEq κ] {f : κ → Option ν} {k l : κ} {v w : ν}

theorem updateSome : Function.update f k (some v) l = some w ↔ (l = k ∧ v = w) ∨ (l ≠ k ∧ f l = some w) := by
  by_cases here : l = k
  · subst here
    simp
  · simp [here]

theorem updateNone : Function.update f k none l = some w ↔ l ≠ k ∧ f l = some w := by
  by_cases here : l = k
  · subst here
    simp
  · simp [here]

end Update
end CuteNdk.Lib
