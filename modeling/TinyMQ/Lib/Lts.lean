/-
Labelled transition systems, their runs, and the rule of invariants; the
steps are a partial function (`Run`) or a relation (`RelRun`).

A run may be restricted to steps that meet a condition on the state and
the label (`Run step ok`); with `ok` always true it is any run.
-/
import Mathlib.Init

namespace Lts

variable {σ l : Type}

/-- The state after a list of labels, if each of them is possible in turn. -/
def exec (step : σ → l → Option σ) (s : σ) : List l → Option σ
  | [] => some s
  | a :: as => (step s a).bind fun s' => exec step s' as

/-- Zero or more steps, each of which meets `ok`. -/
inductive Run (step : σ → l → Option σ) (ok : σ → l → Prop) (s : σ) : σ → Prop
  | refl : Run step ok s s
  | snoc {s' s'' a} : Run step ok s s' → ok s' a → step s' a = some s'' → Run step ok s s''

variable {step : σ → l → Option σ} {ok : σ → l → Prop} {s s' s'' : σ}

theorem Run.trans (h₁ : Run step ok s s') (h₂ : Run step ok s' s'') : Run step ok s s'' := by
  induction h₂ with
  | refl => exact h₁
  | snoc _ hok hs ih => exact .snoc ih hok hs

theorem Run.mono (h : Run step ok s s') (hok : ∀ s a, ok s a → ok' s a) : Run step ok' s s' := by
  induction h with
  | refl => exact .refl
  | snoc _ ha hs ih => exact .snoc ih (hok _ _ ha) hs

/-- **The rule of invariants**: what every step that meets `ok` preserves
holds along the whole run. -/
theorem Run.invariant {I : σ → Prop} (hstep : ∀ s a s', I s → ok s a → step s a = some s' → I s')
    (h : Run step ok s s') (hs : I s) : I s' := by
  induction h with
  | refl => exact hs
  | snoc _ ha hst ih => exact hstep _ _ _ ih ha hst

theorem Run.mono_of_invariant {I : σ → Prop} (hstep : ∀ s a s', I s → ok s a → step s a = some s' → I s')
    (hok : ∀ s a, I s → ok s a → ok' s a) (h : Run step ok s s') (hs : I s) : Run step ok' s s' := by
  induction h with
  | refl => exact .refl
  | snoc hrun ha hst ih => exact .snoc ih (hok _ _ (hrun.invariant hstep hs) ha) hst

/-- The steps of an execution all meet a condition that can be decided. -/
def allOk (step : σ → l → Option σ) (ok : σ → l → Prop) [∀ s a, Decidable (ok s a)] (s : σ) : List l → Bool
  | [] => true
  | a :: as => decide (ok s a) && (step s a).all fun s' => allOk step ok s' as

theorem Run.of_exec [∀ s a, Decidable (ok s a)] (h : exec step s as = some s')
    (hok : allOk step ok s as = true) : Run step ok s s' := by
  induction as generalizing s with
  | nil => cases h; exact .refl
  | cons a as ih =>
    obtain ⟨s₁, hs₁, h⟩ := Option.bind_eq_some_iff.mp h
    simp only [allOk, hs₁, Option.all_some, Bool.and_eq_true, decide_eq_true_eq] at hok
    exact Run.trans (.snoc .refl hok.1 hs₁) (ih h hok.2)

theorem Run.of_exec_get [∀ s a, Decidable (ok s a)] (as : List l) (h : (exec step s as).isSome = true)
    (hok : allOk step ok s as = true) : Run step ok s ((exec step s as).get h) :=
  .of_exec (Option.some_get h).symm hok

/-! ## Steps that are a relation -/

inductive RelRun (step : l → σ → σ → Prop) (ok : σ → l → Prop) (s : σ) : σ → Prop
  | refl : RelRun step ok s s
  | snoc {s' s'' a} : RelRun step ok s s' → ok s' a → step a s' s'' → RelRun step ok s s''

theorem RelRun.invariant {step : l → σ → σ → Prop} {I : σ → Prop}
    (hstep : ∀ s a s', I s → ok s a → step a s s' → I s') (h : RelRun step ok s s') (hs : I s) : I s' := by
  induction h with
  | refl => exact hs
  | snoc _ ha hst ih => exact hstep _ _ _ ih ha hst

end Lts
