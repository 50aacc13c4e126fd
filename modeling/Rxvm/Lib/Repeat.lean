import Mathlib.Logic.Relation
import Mathlib.Order.Basic

/-!
# Rxvm.Lib.Repeat — a relation taken a number of times
-/

namespace Relation

variable {α : Type*}

/-- `k` steps of the relation. -/
def Times (R : α → α → Prop) : Nat → α → α → Prop
  | 0, a, b => a = b
  | k + 1, a, b => ∃ c, R a c ∧ Times R k c b

/-- At most `n` steps of the relation. -/
def UpTo (R : α → α → Prop) : Nat → α → α → Prop
  | 0, a, b => a = b
  | n + 1, a, b => a = b ∨ ∃ c, R a c ∧ UpTo R n c b

variable {R S : α → α → Prop} {a b c : α}

theorem Times.congr (h : ∀ a b, R a b ↔ S a b) (k : Nat) : Times R k a b ↔ Times S k a b := by
  have : R = S := funext fun a => funext fun b => propext (h a b)
  rw [this]

theorem times_add (m n : Nat) : Times R (m + n) a b ↔ ∃ c, Times R m a c ∧ Times R n c b := by
  induction m generalizing a with
  | zero =>
      rw [Nat.zero_add]
      constructor
      · intro h
        exact ⟨a, rfl, h⟩
      · rintro ⟨c, rfl, h⟩
        exact h
  | succ m ih =>
      rw [Nat.succ_add]
      constructor
      · rintro ⟨d, had, h⟩
        rcases ih.mp h with ⟨c, hdc, hcb⟩
        exact ⟨c, ⟨d, had, hdc⟩, hcb⟩
      · rintro ⟨c, ⟨d, had, hdc⟩, hcb⟩
        exact ⟨d, had, ih.mpr ⟨c, hdc, hcb⟩⟩

theorem times_one : Times R 1 a b ↔ R a b := by
  constructor
  · rintro ⟨c, h, rfl⟩
    exact h
  · intro h
    exact ⟨b, h, rfl⟩

theorem reflTransGen_iff_times : ReflTransGen R a b ↔ ∃ k, Times R k a b := by
  constructor
  · intro h
    induction h using ReflTransGen.head_induction_on with
    | refl => exact ⟨0, rfl⟩
    | head hstep _ ih =>
        rcases ih with ⟨k, hk⟩
        exact ⟨k + 1, _, hstep, hk⟩
  · rintro ⟨k, hk⟩
    induction k generalizing a with
    | zero =>
        obtain rfl := hk
        exact .refl
    | succ k ih =>
        rcases hk with ⟨c, hac, hcb⟩
        exact .head hac (ih hcb)

theorem transGen_iff_times : TransGen R a b ↔ ∃ k, 1 ≤ k ∧ Times R k a b := by
  rw [TransGen.head'_iff]
  constructor
  · rintro ⟨c, hac, hcb⟩
    rcases reflTransGen_iff_times.mp hcb with ⟨k, hk⟩
    exact ⟨k + 1, Nat.le_add_left _ _, c, hac, hk⟩
  · rintro ⟨k, hk, h⟩
    obtain ⟨k, rfl⟩ : ∃ l, k = l + 1 := ⟨k - 1, by omega⟩
    rcases h with ⟨c, hac, hcb⟩
    exact ⟨c, hac, reflTransGen_iff_times.mpr ⟨k, hcb⟩⟩

theorem upTo_iff_times (n : Nat) : UpTo R n a b ↔ ∃ k, k ≤ n ∧ Times R k a b := by
  induction n generalizing a with
  | zero =>
      constructor
      · rintro rfl
        exact ⟨0, Nat.le_refl 0, rfl⟩
      · rintro ⟨k, hk, h⟩
        obtain rfl := Nat.le_zero.mp hk
        exact h
  | succ n ih =>
      constructor
      · rintro (rfl | ⟨c, hac, hcb⟩)
        · exact ⟨0, Nat.zero_le _, rfl⟩
        · rcases ih.mp hcb with ⟨k, hk, h⟩
          exact ⟨k + 1, Nat.succ_le_succ hk, c, hac, h⟩
      · rintro ⟨k, hk, h⟩
        cases k with
        | zero => exact Or.inl h
        | succ k =>
            rcases h with ⟨c, hac, hcb⟩
            exact Or.inr ⟨c, hac, ih.mpr ⟨k, Nat.le_of_succ_le_succ hk, hcb⟩⟩

/-- Between `m` and `m + n` steps. -/
theorem times_upTo (m n : Nat) : (∃ c, Times R m a c ∧ UpTo R n c b) ↔
    ∃ k, m ≤ k ∧ k ≤ m + n ∧ Times R k a b := by
  constructor
  · rintro ⟨c, hac, hcb⟩
    rcases (upTo_iff_times n).mp hcb with ⟨k, hk, h⟩
    exact ⟨m + k, Nat.le_add_right _ _, Nat.add_le_add_left hk m, (times_add m k).mpr ⟨c, hac, h⟩⟩
  · rintro ⟨k, hm, hk, h⟩
    obtain ⟨l, rfl⟩ := Nat.exists_eq_add_of_le hm
    rcases (times_add m l).mp h with ⟨c, hac, hcb⟩
    exact ⟨c, hac, (upTo_iff_times n).mpr ⟨l, by omega, hcb⟩⟩

/-- Steps that lower a measure come to an end within it. -/
theorem times_of_measure {Inv Done : α → Prop} (m : α → Nat)
    (hstep : ∀ a, Inv a → ¬ Done a → ∃ b, R a b ∧ Inv b ∧ m b < m a) :
    ∀ n a, m a ≤ n → Inv a → ∃ k ≤ m a, ∃ b, Times R k a b ∧ Done b := by
  intro n
  induction n with
  | zero =>
      intro a ha hinv
      by_cases hdone : Done a
      · exact ⟨0, Nat.zero_le _, a, rfl, hdone⟩
      · rcases hstep a hinv hdone with ⟨b, _, _, hlt⟩
        omega
  | succ n ih =>
      intro a ha hinv
      by_cases hdone : Done a
      · exact ⟨0, Nat.zero_le _, a, rfl, hdone⟩
      · rcases hstep a hinv hdone with ⟨b, hab, hinv', hlt⟩
        rcases ih b (by omega) hinv' with ⟨k, hk, c, hbc, hdone'⟩
        exact ⟨k + 1, by omega, c, ⟨b, hab, hbc⟩, hdone'⟩

/-- Where nothing but itself follows, a path goes no further. -/
theorem eq_of_fixed (hfix : ∀ x, R a x → x = a) (h : ReflTransGen R a b) : b = a := by
  induction h with
  | refl => rfl
  | tail _ hstep ih =>
      subst ih
      exact hfix _ hstep

/-- Of deterministic steps there is one end. -/
theorem fixed_unique (hdet : Relator.RightUnique R) (hb : ReflTransGen R a b)
    (hc : ReflTransGen R a c) (hfixb : ∀ x, R b x → x = b) (hfixc : ∀ x, R c x → x = c) :
    b = c := by
  rcases ReflTransGen.total_of_right_unique hdet hb hc with h | h
  · exact (eq_of_fixed hfixb h).symm
  · exact eq_of_fixed hfixc h

end Relation
