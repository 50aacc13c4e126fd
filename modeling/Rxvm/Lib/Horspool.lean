import Mathlib.Data.List.Basic
import Mathlib.Logic.Relation

/-!
# Rxvm.Lib.Horspool — moving a pattern along a text

The bad-character rule. A pattern of `k` characters stands in front of a text,
at `m`, and the text has `c` under its last character: the pattern may be moved
until its last `c` but the one at its end stands there, and no occurrence is
passed by. Texts and patterns are functions on positions.
-/

namespace Horspool

variable {α : Type} [DecidableEq α]

/-- How far a pattern of `k` characters is moved over the character `c`. The
loop is the one that fills the table, for one entry. -/
def shift (p : Nat → α) (k : Nat) (c : α) : Nat :=
  (List.range (k - 1)).foldl (fun d i => if p i = c then k - i - 1 else d) k

/-- The pattern occurs at `m`, as `same` compares. -/
def Occurs (same : α → α → Prop) (p : Nat → α) (k : Nat) (text : Nat → α) (m : Nat) : Prop :=
  ∀ i < k, same (text (m + i)) (p i)

section

variable {p : Nat → α} {k : Nat} {c : α}

/-- The entry for `c` when `n` characters of the pattern have been entered. -/
theorem foldl_shift (n : Nat) (hn : n ≤ k - 1) :
    ((List.range n).foldl (fun d i => if p i = c then k - i - 1 else d) k = k ∧
      ∀ i < n, p i ≠ c) ∨
    ∃ i < n, p i = c ∧
      (List.range n).foldl (fun d i => if p i = c then k - i - 1 else d) k = k - i - 1 ∧
      ∀ j, i < j → j < n → p j ≠ c := by
  induction n with
  | zero => exact Or.inl ⟨rfl, fun i hi => absurd hi (Nat.not_lt_zero i)⟩
  | succ n ih =>
      rw [List.range_succ, List.foldl_append]
      simp only [List.foldl_cons, List.foldl_nil]
      by_cases hc : p n = c
      · refine Or.inr ⟨n, Nat.lt_succ_self n, hc, if_pos hc, ?_⟩
        intro j h1 h2
        omega
      · rw [if_neg hc]
        rcases ih (by omega) with ⟨heq, hall⟩ | ⟨i, hi, hpi, heq, hall⟩
        · refine Or.inl ⟨heq, ?_⟩
          intro i hi
          rcases Nat.lt_succ_iff_lt_or_eq.mp hi with hlt | rfl
          · exact hall i hlt
          · exact hc
        · refine Or.inr ⟨i, by omega, hpi, heq, ?_⟩
          intro j h1 h2
          rcases Nat.lt_succ_iff_lt_or_eq.mp h2 with hlt | rfl
          · exact hall j h1 hlt
          · exact hc

theorem shift_cases : (shift p k c = k ∧ ∀ i < k - 1, p i ≠ c) ∨
    ∃ i < k - 1, p i = c ∧ shift p k c = k - i - 1 ∧ ∀ j, i < j → j < k - 1 → p j ≠ c :=
  foldl_shift (k - 1) (Nat.le_refl _)

theorem shift_pos (hk : 0 < k) : 0 < shift p k c := by
  rcases shift_cases (p := p) (k := k) (c := c) with ⟨heq, _⟩ | ⟨i, hi, _, heq, _⟩ <;> omega

theorem shift_le : shift p k c ≤ k := by
  rcases shift_cases (p := p) (k := k) (c := c) with ⟨heq, _⟩ | ⟨i, hi, _, heq, _⟩ <;> omega

/-- A character of the pattern before its last is not moved past `c`. -/
theorem shift_le_of_eq {i : Nat} (hi : i < k - 1) (h : p i = c) : shift p k c ≤ k - i - 1 := by
  rcases shift_cases (p := p) (k := k) (c := c) with ⟨_, hall⟩ | ⟨j, _, _, heq, hall⟩
  · exact absurd h (hall i hi)
  · rcases Nat.lt_or_ge j i with hlt | hge
    · exact absurd h (hall i hlt hi)
    · omega

/-- No occurrence is passed by. -/
theorem not_occurs_before {text : Nat → α} {m d : Nat} (hd : 0 < d)
    (hlt : d < shift p k (text (m + (k - 1)))) : ¬ Occurs Eq p k text (m + d) := by
  intro h
  have hle : shift p k (text (m + (k - 1))) ≤ k := shift_le
  have hat := h (k - 1 - d) (by omega)
  have hpos : m + d + (k - 1 - d) = m + (k - 1) := by omega
  rw [hpos] at hat
  have := shift_le_of_eq (k := k) (i := k - 1 - d) (by omega) hat.symm
  omega

end

/-! ## The scan -/

section

variable (same : α → α → Prop) (p : Nat → α) (k : Nat) (text : Nat → α) (stop : α → Prop)
  (dist : α → Nat)

/-- The pattern is moved from `m`, where it does not occur, by the distance of
the character under its end, unless that is one to stop at. -/
def Move (m m' : Nat) : Prop :=
  ¬ stop (text (m + (k - 1))) ∧ ¬ Occurs same p k text m ∧ m' = m + dist (text (m + (k - 1)))

variable {same p k text stop dist}

omit [DecidableEq α] in
theorem Move.unique {m a b : Nat} (ha : Move same p k text stop dist m a)
    (hb : Move same p k text stop dist m b) : a = b := ha.2.2.trans hb.2.2.symm

/-- While only moves of the shift are made, the occurrences that are passed are
none. -/
theorem not_occurs_of_moves {a b : Nat}
    (hdist : ∀ m, Relation.ReflTransGen (Move Eq p k text stop dist) a m →
      ¬ Occurs Eq p k text m → dist (text (m + (k - 1))) ≤ shift p k (text (m + (k - 1))))
    (h : Relation.ReflTransGen (Move Eq p k text stop dist) a b) :
    ∀ m, a ≤ m → m < b → ¬ Occurs Eq p k text m := by
  induction h with
  | refl =>
      intro m h1 h2
      omega
  | @tail b c hmoves hmove ih =>
      intro m ham hmc
      rcases hmove with ⟨_, hnot, rfl⟩
      rcases Nat.lt_trichotomy m b with hlt | rfl | hgt
      · exact ih m ham hlt
      · exact hnot
      · obtain ⟨d, rfl⟩ : ∃ d, m = b + d := ⟨m - b, by omega⟩
        have := hdist b hmoves hnot
        exact not_occurs_before (by omega) (by omega)

end

end Horspool
