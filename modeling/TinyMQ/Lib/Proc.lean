/-
Programs on a state that may crash at any of their steps, and a Hoare
logic for them.

A program that crashes returns nothing and leaves the state as it is at
that moment. A specification therefore has two postconditions: one for the
states in which the program returns, one for the states a crash leaves
(`Proc.Spec`).
-/
import Mathlib.Init

/-- A program on `σ`: what it returns, if it does, and the state it leaves. -/
def Proc (σ α : Type) : Type := σ → Option α × σ

namespace Proc

variable {σ α β : Type}

def ret (a : α) : Proc σ α := fun s => (some a, s)

def andThen (x : Proc σ α) (f : α → Proc σ β) : Proc σ β := fun s =>
  match x s with
  | (some a, s') => f a s'
  | (none, s') => (none, s')

/-- The program dies here. -/
def crash : Proc σ α := fun s => (none, s)

instance : Monad (Proc σ) where
  pure := ret
  bind := andThen

@[simp] theorem pure_apply (a : α) (s : σ) : (pure a : Proc σ α) s = (some a, s) := rfl

theorem bind_apply (x : Proc σ α) (f : α → Proc σ β) (s : σ) : (x >>= f) s = match x s with
      | (some a, s') => f a s'
      | (none, s') => (none, s') := rfl

theorem bind_eq {f : α → Proc σ β} (h : x s = (some a, s')) : (x >>= f) s = f a s' := by
  rw [bind_apply, h]

@[simp] theorem pure_bind (a : α) (f : α → Proc σ β) : (pure a >>= f) = f a := rfl

/-- From a state in `P`, `x` returns in `Q` or crashes in `C`. -/
def Spec (P : σ → Prop) (x : Proc σ α) (Q : α → σ → Prop) (C : σ → Prop) : Prop :=
  ∀ s, P s → match x s with
    | (some a, s') => Q a s'
    | (none, s') => C s'

theorem Spec.pure {P : σ → Prop} {Q : α → σ → Prop} {C : σ → Prop} (h : ∀ s, P s → Q a s) : Spec P (pure a) Q C := h

theorem Spec.bind {P : σ → Prop} {R : α → σ → Prop} {Q : β → σ → Prop} {C : σ → Prop}
    {f : α → Proc σ β} (hx : Spec P x R C) (hf : ∀ a, Spec (R a) (f a) Q C) : Spec P (x >>= f) Q C := by
  intro s hs
  have h := hx s hs
  simp only [Bind.bind, andThen]
  rcases hxs : x s with ⟨_ | a, s'⟩ <;> simp only [hxs] at h ⊢
  · exact h
  · exact hf a s' h

theorem Spec.weaken {P P' : σ → Prop} {Q Q' : α → σ → Prop} {C C' : σ → Prop}
    (h : Spec P x Q C) (hP : ∀ s, P' s → P s) (hQ : ∀ a s, Q a s → Q' a s) (hC : ∀ s, C s → C' s) :
    Spec P' x Q' C' := by
  intro s hs
  have h := h s (hP s hs)
  rcases hxs : x s with ⟨_ | a, s'⟩ <;> simp only [hxs] at h ⊢
  · exact hC s' h
  · exact hQ a s' h

theorem Spec.crash {P : σ → Prop} {Q : α → σ → Prop} {C C' : σ → Prop} (h : Spec P x Q C)
    (hC : ∀ s, C s → C' s) : Spec P x Q C' := h.weaken (fun _ h => h) (fun _ _ h => h) hC

theorem Spec.final {P C : σ → Prop} (h : Spec P x (fun _ => C) C) (hs : P s) : C (x s).2 := by
  have h := h s hs
  rcases hxs : x s with ⟨_ | a, s'⟩ <;> simp only [hxs] at h ⊢ <;> exact h

/-- `x` does not crash, and what it returns is in `Q`. -/
def Yields (x : Proc σ α) (Q : α → Prop) : Prop := ∀ s, ∃ a s', x s = (some a, s') ∧ Q a

theorem Yields.pure {Q : α → Prop} (h : Q a) : Yields (pure a : Proc σ α) Q := fun s => ⟨a, s, rfl, h⟩

theorem Yields.step {f : σ → α} {g : σ → σ} : Yields (fun s => (some (f s), g s)) fun _ => True :=
  fun s => ⟨f s, g s, rfl, trivial⟩

theorem Yields.bind {P : α → Prop} {Q : β → Prop} {f : α → Proc σ β} (hx : Yields x P)
    (hf : ∀ a, P a → Yields (f a) Q) : Yields (x >>= f) Q := by
  intro s
  obtain ⟨a, s', hs, ha⟩ := hx s
  simp only [bind_apply, hs]
  exact hf a ha s'

end Proc
