import Mathlib.Data.List.Basic

/-! Runs of a machine whose step is a partial function of the state and an
action. An action the machine cannot take in a state ends no run: it is simply
not a step. Nothing here names a particular machine. -/
namespace CuteNdk.Lib

variable {σ α : Type*}

/- The state a list of actions leads to, when each of them is a step. -/
def run (step : σ → α → Option σ) : σ → List α → Option σ
  | s, [] => some s
  | s, a :: as => (step s a).bind fun t => run step t as

theorem runAppend {step : σ → α → Option σ} {s : σ} {as bs : List α} :
    run step s (as ++ bs) = (run step s as).bind fun t => run step t bs := by
  induction as generalizing s with
  | nil => rfl
  | cons a as ih => simp only [List.cons_append,run,Option.bind_assoc,ih]

/- P holds in every state the actions lead through, the first one included. -/
def Always (step : σ → α → Option σ) (P : σ → Prop) : σ → List α → Prop
  | s, [] => P s
  | s, a :: as => P s ∧ ∀ t, step s a = some t → Always step P t as

/- Every step the actions make starts in a state that meets the condition. -/
def Along (step : σ → α → Option σ) (ok : σ → α → Prop) : σ → List α → Prop
  | _, [] => True
  | s, a :: as => ∀ t, step s a = some t → ok s a ∧ Along step ok t as

/- On given actions both can be run. -/
instance decidableAlways {step : σ → α → Option σ} {P : σ → Prop} [DecidablePred P] :
    (s : σ) → (as : List α) → Decidable (Always step P s as)
  | s, [] => inferInstanceAs (Decidable (P s))
  | s, a :: as =>
    match h : step s a with
    | none => decidable_of_iff (P s) ⟨fun hp => ⟨hp,fun t ht => by simp [h] at ht⟩,fun both => both.1⟩
    | some t =>
      have : Decidable (Always step P t as) := decidableAlways t as
      decidable_of_iff (P s ∧ Always step P t as)
        ⟨fun both => ⟨both.1,fun t' ht => Option.some.inj (h.symm.trans ht) ▸ both.2⟩,
          fun both => ⟨both.1,both.2 t h⟩⟩

instance decidableAlong {step : σ → α → Option σ} {ok : σ → α → Prop}
    [∀ s a, Decidable (ok s a)] : (s : σ) → (as : List α) → Decidable (Along step ok s as)
  | _, [] => isTrue trivial
  | s, a :: as =>
    match h : step s a with
    | none => isTrue fun t ht => by simp [h] at ht
    | some t =>
      have : Decidable (Along step ok t as) := decidableAlong t as
      decidable_of_iff (ok s a ∧ Along step ok t as)
        ⟨fun both t' ht => Option.some.inj (h.symm.trans ht) ▸ both,fun both => both t h⟩

theorem alwaysHead {step : σ → α → Option σ} {P : σ → Prop} {s : σ} {as : List α}
    (h : Always step P s as) : P s := by
  cases as with
  | nil => exact h
  | cons a as => exact h.1

theorem alwaysMono {step : σ → α → Option σ} {P Q : σ → Prop} (weaker : ∀ s, P s → Q s)
    {s : σ} {as : List α} (h : Always step P s as) : Always step Q s as := by
  induction as generalizing s with
  | nil => exact weaker s h
  | cons a as ih => exact ⟨weaker s h.1,fun t ht => ih (h.2 t ht)⟩

theorem alwaysAtEnd {step : σ → α → Option σ} {P : σ → Prop} {s t : σ} {as : List α}
    (h : Always step P s as) (ends : run step s as = some t) : P t := by
  induction as generalizing s with
  | nil => cases Option.some.inj ends; exact h
  | cons a as ih =>
    obtain ⟨m,hm,rest⟩ := Option.bind_eq_some_iff.mp ends
    exact ih (h.2 m hm) rest

/- The induction every invariant goes through: it holds at the start and each
step that meets the condition keeps it. -/
theorem alwaysOfInvariant {step : σ → α → Option σ} {ok : σ → α → Prop} {Inv : σ → Prop}
    (keeps : ∀ s a t, Inv s → ok s a → step s a = some t → Inv t)
    {s : σ} (start : Inv s) {as : List α} (guarded : Along step ok s as) :
    Always step Inv s as := by
  induction as generalizing s with
  | nil => exact start
  | cons a as ih =>
    refine ⟨start,fun t ht => ?_⟩
    obtain ⟨meets,rest⟩ := guarded t ht
    exact ih (keeps s a t start meets ht) rest

/- An invariant no step breaks needs no condition. -/
theorem alwaysInvariant {step : σ → α → Option σ} {Inv : σ → Prop}
    (keeps : ∀ s a t, Inv s → step s a = some t → Inv t) {s : σ} (start : Inv s) (as : List α) :
    Always step Inv s as := by
  induction as generalizing s with
  | nil => exact start
  | cons a as ih => exact ⟨start,fun t ht => ih (keeps s a t start ht)⟩

/- When the first step off the condition always breaks P, the condition is not
only enough for P to hold all along but exactly what it takes. -/
theorem alwaysIffAlong {step : σ → α → Option σ} {ok : σ → α → Prop} {Inv P : σ → Prop}
    (keeps : ∀ s a t, Inv s → ok s a → step s a = some t → Inv t)
    (gives : ∀ s, Inv s → P s)
    (breaks : ∀ s a t, Inv s → ¬ ok s a → step s a = some t → ¬ P t)
    {s : σ} (start : Inv s) (as : List α) :
    Always step P s as ↔ Along step ok s as := by
  constructor
  · intro always
    induction as generalizing s with
    | nil => trivial
    | cons a as ih =>
      intro t ht
      have meets : ok s a := by
        by_contra off
        exact breaks s a t start off ht (alwaysHead (always.2 t ht))
      exact ⟨meets,ih (keeps s a t start meets ht) (always.2 t ht)⟩
  · intro guarded
    exact alwaysMono gives (alwaysOfInvariant keeps start guarded)

/- Two conditions that say the same in every state an invariant allows. -/
theorem alongIff {step : σ → α → Option σ} {ok P : σ → α → Prop} {Inv : σ → Prop}
    (keeps : ∀ s a t, Inv s → ok s a → step s a = some t → Inv t)
    (same : ∀ s a t, Inv s → step s a = some t → (P s a ↔ ok s a)) {s : σ} (start : Inv s) (as : List α) :
    Along step P s as ↔ Along step ok s as := by
  induction as generalizing s with
  | nil => exact Iff.rfl
  | cons a as ih =>
    refine forall_congr' fun t => imp_congr_right fun ht => ?_
    rw [same s a t start ht]
    exact and_congr_right fun meets => ih (keeps s a t start meets ht)

end CuteNdk.Lib
