import Mathlib.Logic.Relation

/-!
# Rxvm.Lib.Blocks — blocks of a flow graph

A block is a run of numbered nodes that is entered at its first node and left
behind its last one; an edge may act on a value. The meaning of a block is the
relation of the values it is entered and left with. The rules say what becomes
of it when blocks are put behind one another, skipped, repeated, or made
alternatives of each other, whatever the nodes are.
-/

namespace Blocks

open Relation

/-- A block of `len` nodes. An edge leads from one of them to another, or
behind the last one. -/
structure Block (α : Type*) where
  len : Nat
  step : Nat × α → Nat × α → Prop
  inside : ∀ {x y}, step x y → x.1 < len ∧ y.1 ≤ len

variable {α : Type*}

/-- The values a block is entered and left with. -/
def Block.run (B : Block α) (a b : α) : Prop := ReflTransGen B.step (0, a) (B.len, b)

/-- The nodes of `D` from `off` on are those of `B`. -/
def Embeds (B D : Block α) (off : Nat) : Prop :=
  ∀ k < B.len, ∀ a x, D.step (off + k, a) x ↔ ∃ y, x = (off + y.1, y.2) ∧ B.step (k, a) y

variable {B C D : Block α} {off n : Nat} {a b : α}

/-- A path in a block is a path wherever the block stands. -/
theorem Embeds.lift (h : Embeds B D off) {x y : Nat × α} (hpath : ReflTransGen B.step x y) :
    ReflTransGen D.step (off + x.1, x.2) (off + y.1, y.2) := by
  induction hpath with
  | refl => exact .refl
  | @tail y z _ hstep ih =>
      refine ih.tail ?_
      exact (h y.1 (B.inside hstep).1 y.2 _).mpr ⟨z, rfl, hstep⟩

/-- A path that comes from inside a block and ends behind it goes through its
end. -/
theorem Embeds.exit (h : Embeds B D off) (hn : off + B.len ≤ n) {x : Nat × α}
    (hpath : ReflTransGen D.step x (n, b)) :
    ∀ k ≤ B.len, x.1 = off + k →
      ∃ c, ReflTransGen B.step (k, x.2) (B.len, c) ∧
        ReflTransGen D.step (off + B.len, c) (n, b) := by
  induction hpath using ReflTransGen.head_induction_on with
  | refl =>
      intro k hk hx
      have hx : n = off + k := hx
      obtain rfl : k = B.len := by omega
      refine ⟨b, .refl, ?_⟩
      rw [hx]
  | @head x y hstep hrest ih =>
      intro k hk hx
      rcases Nat.eq_or_lt_of_le hk with rfl | hlt
      · refine ⟨x.2, .refl, ?_⟩
        rw [← hx]
        exact .head hstep hrest
      · have hstep' : D.step (off + k, x.2) y := by
          rw [← hx]
          exact hstep
        rcases (h k hlt x.2 y).mp hstep' with ⟨z, rfl, hz⟩
        rcases ih z.1 (B.inside hz).2 rfl with ⟨c, hB, hD⟩
        exact ⟨c, .head hz hB, hD⟩

/-- Nothing leads on from behind a block. -/
theorem Block.stops (hpath : ReflTransGen D.step (n, a) (D.len, b)) (hn : n = D.len) : a = b := by
  cases hpath using ReflTransGen.head_induction_on with
  | refl => rfl
  | head hstep _ =>
      have : n < D.len := (D.inside hstep).1
      omega

/-- A path that has not come to the end yet has a first step. -/
theorem Block.advance {x : Nat × α} (hpath : ReflTransGen D.step x (D.len, b)) (hx : x.1 ≠ D.len) :
    ∃ y, D.step x y ∧ ReflTransGen D.step y (D.len, b) := by
  rcases hpath.cases_head with rfl | ⟨y, hstep, hrest⟩
  · exact absurd rfl hx
  · exact ⟨y, hstep, hrest⟩

/-! ## The rules -/

/-- One block behind another. -/
theorem run_append (hB : Embeds B D 0) (hC : Embeds C D B.len) (hlen : D.len = B.len + C.len) :
    D.run a b ↔ ∃ c, B.run a c ∧ C.run c b := by
  constructor
  · intro h
    rcases hB.exit (by omega) h 0 (Nat.zero_le _) rfl with ⟨c, hBrun, hrest⟩
    rcases hC.exit (by omega) hrest 0 (Nat.zero_le _) (Nat.zero_add _) with ⟨d, hCrun, hend⟩
    have hd : d = b := Block.stops hend hlen.symm
    rw [hd] at hCrun
    exact ⟨c, hBrun, hCrun⟩
  · rintro ⟨c, hBrun, hCrun⟩
    have h₁ := hB.lift hBrun
    have h₂ := hC.lift hCrun
    simp only [Nat.zero_add, Nat.add_zero] at h₁ h₂
    rw [← hlen] at h₂
    exact h₁.trans h₂

/-- A block of one node that leads behind itself. -/
theorem run_single {R : α → α → Prop} (hlen : D.len = 1)
    (hstep : ∀ a x, D.step (0, a) x ↔ x.1 = 1 ∧ R a x.2) : D.run a b ↔ R a b := by
  constructor
  · intro h
    rcases Block.advance h (by omega) with ⟨y, hfirst, hrest⟩
    rcases (hstep a y).mp hfirst with ⟨hy, hR⟩
    have hb : y.2 = b := Block.stops hrest (hy.trans hlen.symm)
    rw [hb] at hR
    exact hR
  · intro h
    have hfirst := (hstep a (1, b)).mpr ⟨rfl, h⟩
    rw [← hlen] at hfirst
    exact .single hfirst

/-- A block behind a node that leads into it, or behind it. -/
theorem run_skip (hB : Embeds B D 1) (hlen : D.len = B.len + 1)
    (hhead : ∀ a x, D.step (0, a) x ↔ x = (1, a) ∨ x = (D.len, a)) :
    D.run a b ↔ a = b ∨ B.run a b := by
  constructor
  · intro h
    rcases Block.advance h (by omega) with ⟨y, hfirst, hrest⟩
    rcases (hhead a y).mp hfirst with rfl | rfl
    · rcases hB.exit (by omega) hrest 0 (Nat.zero_le _) rfl with ⟨c, hBrun, hend⟩
      obtain rfl : c = b := Block.stops hend (by omega)
      exact Or.inr hBrun
    · exact Or.inl (Block.stops hrest rfl)
  · rintro (rfl | h)
    · exact .single ((hhead a _).mpr (Or.inr rfl))
    · have hbody := hB.lift h
      simp only [Nat.add_comm 1] at hbody
      rw [← hlen] at hbody
      exact .head ((hhead a _).mpr (Or.inl rfl)) hbody

/-- A block in front of a node that leads back to its start, or on. -/
theorem run_loop (hB : Embeds B D 0) (hlen : D.len = B.len + 1)
    (hlast : ∀ a x, D.step (B.len, a) x ↔ x = (0, a) ∨ x = (D.len, a)) :
    D.run a b ↔ TransGen B.run a b := by
  constructor
  · -- by induction on the path: what is left of the round it is in, and more rounds
    have hrounds : ∀ x : Nat × α, ReflTransGen D.step x (D.len, b) → x.1 ≤ B.len →
        ∃ c, ReflTransGen B.step x (B.len, c) ∧ ReflTransGen B.run c b := by
      intro x hpath
      induction hpath using ReflTransGen.head_induction_on with
      | refl => omega
      | @head x y hstep hrest ih =>
          intro hx
          rcases Nat.eq_or_lt_of_le hx with heq | hlt
          · have hstep' : D.step (B.len, x.2) y := by
              rw [← heq]
              exact hstep
            have hrefl : ReflTransGen B.step x (B.len, x.2) := by rw [← heq]
            rcases (hlast x.2 y).mp hstep' with rfl | rfl
            · rcases ih (Nat.zero_le _) with ⟨c, hround, hmore⟩
              exact ⟨x.2, hrefl, .head hround hmore⟩
            · have hb : x.2 = b := Block.stops (n := D.len) hrest rfl
              rw [hb] at hrefl
              exact ⟨b, hrefl, .refl⟩
          · have hstep' : D.step (0 + x.1, x.2) y := by
              rw [Nat.zero_add]
              exact hstep
            rcases (hB x.1 hlt x.2 y).mp hstep' with ⟨z, rfl, hz⟩
            simp only [Nat.zero_add] at ih
            rcases ih (B.inside hz).2 with ⟨c, hround, hmore⟩
            exact ⟨c, .head hz hround, hmore⟩
    intro h
    rcases hrounds (0, a) h (Nat.zero_le _) with ⟨c, hround, hmore⟩
    exact TransGen.head' hround hmore
  · intro h
    have hround : ∀ {a b}, B.run a b → ReflTransGen D.step (0, a) (B.len, b) := by
      intro a b hrun
      have := hB.lift hrun
      simpa only [Nat.zero_add] using this
    induction h using TransGen.head_induction_on with
    | single h => exact (hround h).tail ((hlast b _).mpr (Or.inr rfl))
    | head h _ ih => exact ((hround h).tail ((hlast _ _).mpr (Or.inl rfl))).trans ih

/-- Two blocks, one of which is taken: a node in front of both leads to
either, and a node between them leads behind the second one. -/
theorem run_fork (hB : Embeds B D 1) (hC : Embeds C D (B.len + 2))
    (hlen : D.len = B.len + 2 + C.len)
    (hhead : ∀ a x, D.step (0, a) x ↔ x = (1, a) ∨ x = (B.len + 2, a))
    (hjump : ∀ a x, D.step (B.len + 1, a) x ↔ x = (D.len, a)) :
    D.run a b ↔ B.run a b ∨ C.run a b := by
  constructor
  · intro h
    rcases Block.advance h (by omega) with ⟨y, hfirst, hrest⟩
    rcases (hhead a y).mp hfirst with rfl | rfl
    · rcases hB.exit (by omega) hrest 0 (Nat.zero_le _) rfl with ⟨c, hBrun, hend⟩
      rw [Nat.add_comm 1] at hend
      rcases Block.advance hend (by omega) with ⟨z, hsecond, hend⟩
      obtain rfl := (hjump c z).mp hsecond
      obtain rfl : c = b := Block.stops hend rfl
      exact Or.inl hBrun
    · rcases hC.exit (by omega) hrest 0 (Nat.zero_le _) rfl with ⟨c, hCrun, hend⟩
      rw [Block.stops hend (by omega)] at hCrun
      exact Or.inr hCrun
  · rintro (h | h)
    · have hbody := hB.lift h
      simp only [Nat.add_comm 1] at hbody
      exact (ReflTransGen.head ((hhead a _).mpr (Or.inl rfl)) hbody).tail ((hjump b _).mpr rfl)
    · have hbody := hC.lift h
      simp only [Nat.add_zero] at hbody
      rw [← hlen] at hbody
      exact .head ((hhead a _).mpr (Or.inr rfl)) hbody

end Blocks
