import Mathlib.Logic.Basic

/-!
# Rxvm.Lib.Ensures — what a computation that may fail leaves

A postcondition of a computation in `Except`: it holds of every value the
computation returns, and says nothing of failures. The rules follow the way
the computation is put together.
-/

namespace Outcome

universe u v

variable {ε : Type v} {α β : Type u} {x : Except ε α} {P Q : α → Prop} {R : β → Prop}

/-- Every value `x` returns has the property. -/
def Ensures (x : Except ε α) (P : α → Prop) : Prop := ∀ a, x = .ok a → P a

theorem Ensures.ok {a : α} (h : P a) : Ensures (.ok a : Except ε α) P := by
  intro b hb
  cases hb
  exact h

theorem Ensures.error {e : ε} : Ensures (.error e : Except ε α) P := by
  intro b hb
  cases hb

theorem Ensures.mono (h : Ensures x P) (hPQ : ∀ a, P a → Q a) : Ensures x Q :=
  fun a ha => hPQ a (h a ha)

/-- One computation behind another. -/
theorem Ensures.bind {f : α → Except ε β} (h : Ensures x P) (hf : ∀ a, P a → Ensures (f a) R) :
    Ensures (x >>= f) R := by
  intro b hb
  cases x with
  | error e => cases hb
  | ok a => exact hf a (h a rfl) b hb

/-- A choice between two computations. -/
theorem Ensures.ite {p : Prop} [Decidable p] {y : Except ε α} (hx : p → Ensures x P)
    (hy : ¬ p → Ensures y P) : Ensures (if p then x else y) P := by
  by_cases h : p
  · rw [if_pos h]
    exact hx h
  · rw [if_neg h]
    exact hy h

end Outcome
