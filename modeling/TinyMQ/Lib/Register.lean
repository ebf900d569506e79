/-
Registers that are written once in each epoch.

A register holds the value it was given in its current epoch, if any. As
long as it only moves forward (`Forward`), there is a log of all its epochs
in which nothing is ever overwritten.
-/
import Mathlib.Init

structure Register (α : Type) where
  epoch : Int
  value : Option α

namespace Register

variable {α : Type} {r r' : Register α} {log : Int → Option α}

/-- A later epoch, or the same one in which a value is not overwritten. -/
def Forward (r r' : Register α) : Prop :=
  r.epoch < r'.epoch ∨ r.epoch = r'.epoch ∧ (r.value = none ∨ r'.value = r.value)

theorem Forward.of_eq (h : r' = r) : r.Forward r' := h ▸ .inr ⟨rfl, .inr rfl⟩

theorem Forward.epoch_le (h : r.Forward r') : r.epoch ≤ r'.epoch := by
  rcases h with h | ⟨h, -⟩ <;> omega

/-- The log agrees with the register and knows nothing of later epochs. -/
structure Records (log : Int → Option α) (r : Register α) : Prop where
  current : log r.epoch = r.value
  later : ∀ {t}, r.epoch < t → log t = none

/-- **A move forward only adds to the log.** -/
theorem Records.forward (h : Records log r) (hf : r.Forward r') :
    ∃ log', Records log' r' ∧ ∀ {t a}, log t = some a → log' t = some a := by
  refine ⟨fun t => if t = r'.epoch then r'.value else log t, ⟨if_pos rfl, fun {t} ht => ?_⟩,
    fun {t a} ha => ?_⟩
  · have hle := hf.epoch_le
    have hne : t ≠ r'.epoch := by omega
    show (if t = r'.epoch then r'.value else log t) = none
    rw [if_neg hne]
    exact h.later (by omega)
  · show (if t = r'.epoch then r'.value else log t) = some a
    split
    next ht =>
      subst ht
      rcases hf with hlt | ⟨he, hv⟩
      · rw [h.later hlt] at ha
        cases ha
      · rw [← he, h.current] at ha
        rcases hv with hv | hv
        · cases hv.symm.trans ha
        · rw [hv, ha]
    · exact ha

end Register
