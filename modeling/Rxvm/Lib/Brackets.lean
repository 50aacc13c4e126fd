import Mathlib.Data.List.Infix
import Mathlib.Tactic.Linarith

/-!
# Rxvm.Lib.Brackets — words over two brackets

When a word of opening and closing brackets is balanced, when one of its
opening brackets is never closed, and what the difference of the two numbers
says about both.
-/

namespace Brackets

inductive Bracket where
  | opening
  | closing
deriving DecidableEq, Repr

/-- `+1` for an opening bracket, `-1` for a closing one. -/
def Bracket.weight : Bracket → Int
  | .opening => 1
  | .closing => -1

/-- The number of opening brackets less that of closing ones. -/
def excess (w : List Bracket) : Int := (w.map Bracket.weight).sum

/-- No prefix has more closing brackets than opening ones. -/
def Covered (w : List Bracket) : Prop := ∀ u, u <+: w → 0 ≤ excess u

/-- No prefix has more closing brackets than opening ones, and there are as
many of both in all. -/
def Balanced (w : List Bracket) : Prop := Covered w ∧ excess w = 0

/-- An opening bracket is never closed: what follows it closes nothing in
front of itself. -/
def Unclosed (w : List Bracket) : Prop := ∃ u v, w = u ++ .opening :: v ∧ Covered v

variable {u v w : List Bracket}

@[simp] theorem excess_nil : excess [] = 0 := rfl

@[simp] theorem excess_cons (b : Bracket) (w : List Bracket) :
    excess (b :: w) = b.weight + excess w := by simp [excess]

@[simp] theorem excess_append (u v : List Bracket) : excess (u ++ v) = excess u + excess v := by
  simp [excess]

theorem Covered.nil : Covered [] := by
  intro u hu
  rw [List.prefix_nil.mp hu]
  exact le_rfl

theorem Covered.excess_nonneg (h : Covered w) : 0 ≤ excess w := h w (List.prefix_refl w)

theorem Covered.of_append (h : Covered (u ++ v)) : Covered u := fun x hx =>
  h x (hx.trans (List.prefix_append u v))

theorem Covered.concat (h : Covered w) {b : Bracket} (hb : 0 ≤ excess (w ++ [b])) :
    Covered (w ++ [b]) := by
  intro u hu
  rcases List.prefix_concat_iff.mp hu with rfl | hu
  · simpa using hb
  · exact h u hu

instance : Decidable (Covered w) :=
  decidable_of_iff (∀ u ∈ w.inits, 0 ≤ excess u) (by simp only [Covered, List.mem_inits])

instance : Decidable (Balanced w) := inferInstanceAs (Decidable (_ ∧ _))

theorem unclosed_iff : Unclosed w ↔
    ∃ k < w.length, w[k]? = some .opening ∧ Covered (w.drop (k + 1)) := by
  constructor
  · rintro ⟨u, v, rfl, hv⟩
    refine ⟨u.length, by simp, by simp, ?_⟩
    rw [List.drop_append, List.drop_eq_nil_of_le (Nat.le_succ _)]
    simpa using hv
  · rintro ⟨k, _, hk, hcov⟩
    refine ⟨w.take k, w.drop (k + 1), ?_, hcov⟩
    conv_lhs => rw [← List.take_append_drop k w, List.drop_eq_getElem?_toList_append, hk]
    rfl

instance : Decidable (Unclosed w) := decidable_of_iff _ unclosed_iff.symm

/-- More opening than closing brackets leave one that is never closed. -/
theorem unclosed_of_excess_pos : ∀ (n : Nat) (w : List Bracket), w.length ≤ n → 0 < excess w →
    Unclosed w := by
  intro n
  induction n with
  | zero =>
      intro w hlen hpos
      rw [List.length_eq_zero_iff.mp (Nat.le_zero.mp hlen)] at hpos
      exact absurd hpos (lt_irrefl _)
  | succ n ih =>
      intro w hlen hpos
      cases w with
      | nil => exact absurd hpos (lt_irrefl _)
      | cons b w =>
          have hlen' : w.length ≤ n := Nat.le_of_succ_le_succ hlen
          have hextend : ∀ {u v}, w = u ++ v → Unclosed v → Unclosed (b :: w) := by
            rintro u v rfl ⟨x, y, rfl, hy⟩
            exact ⟨b :: u ++ x, y, by simp, hy⟩
          cases b with
          | closing =>
              have hw : 0 < excess w := by
                rw [excess_cons, Bracket.weight] at hpos
                linarith
              exact hextend (u := []) rfl (ih w hlen' hw)
          | opening =>
              by_cases hcov : Covered w
              · exact ⟨[], w, rfl, hcov⟩
              · -- a prefix closes the first bracket, so one behind it stays open
                unfold Covered at hcov
                push Not at hcov
                rcases hcov with ⟨u, ⟨v, rfl⟩, hu⟩
                rw [excess_cons, excess_append, Bracket.weight] at hpos
                have hv : 0 < excess v := by linarith
                have hle : v.length ≤ n := by
                  rw [List.length_append] at hlen'
                  exact Nat.le_trans (Nat.le_add_left _ _) hlen'
                exact hextend rfl (ih v hle hv)

theorem Balanced.nil : Balanced [] := ⟨Covered.nil, rfl⟩

/-- A prefix of two words ends in the first or in the second. -/
theorem prefix_append_cases {x u v : List Bracket} (h : x <+: u ++ v) :
    x <+: u ∨ ∃ y, x = u ++ y ∧ y <+: v := by
  rcases h with ⟨z, hz⟩
  rcases List.append_eq_append_iff.mp hz with ⟨y, hu, _⟩ | ⟨y, hx, hv⟩
  · exact Or.inl ⟨y, hu.symm⟩
  · exact Or.inr ⟨y, hx, ⟨z, hv.symm⟩⟩

/-- A balanced word may be put into another one, or taken out. -/
theorem balanced_insert (hw : Balanced w) : Balanced (u ++ w ++ v) ↔ Balanced (u ++ v) := by
  have hexcess : excess (u ++ w ++ v) = excess (u ++ v) := by
    rw [excess_append, excess_append, excess_append, hw.2, add_zero]
  have hcov : Covered (u ++ w ++ v) ↔ Covered (u ++ v) := by
    constructor
    · intro h x hx
      rcases prefix_append_cases hx with hx | ⟨y, rfl, hy⟩
      · exact h x ((hx.trans (List.prefix_append u w)).trans (List.prefix_append _ v))
      · have hxy := h (u ++ w ++ y) ((List.prefix_append_right_inj _).mpr hy)
        rw [excess_append, excess_append, hw.2] at hxy
        rw [excess_append]
        linarith
    · intro h x hx
      rw [List.append_assoc] at hx
      rcases prefix_append_cases hx with hx | ⟨y, rfl, hy⟩
      · exact h x (hx.trans (List.prefix_append u v))
      · rcases prefix_append_cases hy with hy | ⟨z, rfl, hz⟩
        · -- a prefix of the word itself is covered
          have hu := h u (List.prefix_append u v)
          have hy := hw.1 y hy
          rw [excess_append]
          linarith
        · have hz := h (u ++ z) ((List.prefix_append_right_inj _).mpr hz)
          rw [excess_append] at hz
          rw [excess_append, excess_append, hw.2]
          linarith
  rw [Balanced, Balanced, hexcess, hcov]

theorem Balanced.append (hu : Balanced u) (hv : Balanced v) : Balanced (u ++ v) := by
  have h := @balanced_insert u [] v hv
  rw [List.append_nil, List.append_nil] at h
  exact h.mpr hu

/-- A balanced word between two brackets. -/
theorem Balanced.wrap (h : Balanced w) : Balanced (.opening :: (w ++ [.closing])) :=
  (@balanced_insert [.opening] [.closing] w h).mpr (by decide)

/-- In a balanced word every opening bracket is closed. -/
theorem Balanced.not_unclosed (h : Balanced w) : ¬ Unclosed w := by
  rintro ⟨u, v, rfl, hv⟩
  have hu := h.1.of_append.excess_nonneg
  have hv := hv.excess_nonneg
  have htotal := h.2
  rw [excess_append, excess_cons, Bracket.weight] at htotal
  linarith

end Brackets
