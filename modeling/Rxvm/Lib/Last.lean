import Mathlib.Logic.Relation

/-!
# Rxvm.Lib.Last — the last state of a run that does something

A run goes from state to state by a partial function, and some of its states
write a value. What the value is in the end is what the last of them has written.
-/

namespace Last

open Relation

variable {α β : Type*}

/-- The run comes from one state to the other. -/
def Path (next : α → Option α) : α → α → Prop := ReflTransGen fun a b => next a = some b

/-- No state from this one on writes. -/
def Never (next : α → Option α) (writes : α → Prop) (a : α) : Prop :=
  ∀ b, Path next a b → ¬ writes b

/-- The state writes, and none behind it. -/
def IsLast (next : α → Option α) (writes : α → Prop) (a : α) : Prop :=
  writes a ∧ ∀ b, next a = some b → Never next writes b

section

variable {next : α → Option α} {writes : α → Prop} {a b c : α}

theorem Path.end_eq (h : Path next a b) (hend : next a = none) : b = a := by
  rcases ReflTransGen.cases_head h with rfl | ⟨c, hnext, _⟩
  · rfl
  · rw [hend] at hnext
    cases hnext

/-- From a state there is one way on. -/
theorem Path.behind (h : Path next a c) (hnext : next a = some b) (hne : c ≠ a) : Path next b c := by
  rcases ReflTransGen.cases_head h with rfl | ⟨b', hnext', hpath⟩
  · exact absurd rfl hne
  · obtain rfl : b' = b := Option.some.inj (hnext'.symm.trans hnext)
    exact hpath

theorem never_of_end (hend : next a = none) (h : ¬ writes a) : Never next writes a := by
  intro b hpath
  rw [hpath.end_eq hend]
  exact h

theorem isLast_of_end (hend : next a = none) (h : writes a) : IsLast next writes a := by
  refine ⟨h, ?_⟩
  intro b hnext
  rw [hend] at hnext
  cases hnext

theorem Never.cons (h : Never next writes b) (hnext : next a = some b) (ha : ¬ writes a) :
    Never next writes a := by
  intro c hpath
  by_cases hc : c = a
  · rw [hc]
    exact ha
  · exact h c (hpath.behind hnext hc)

theorem Never.isLast (h : Never next writes b) (hnext : next a = some b) (ha : writes a) :
    IsLast next writes a := by
  refine ⟨ha, ?_⟩
  intro b' hnext'
  obtain rfl : b' = b := Option.some.inj (hnext'.symm.trans hnext)
  exact h

end

end Last
