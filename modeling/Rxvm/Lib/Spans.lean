import Mathlib.Computability.Language
import Rxvm.Lib.Repeat

/-!
# Rxvm.Lib.Spans — languages as relations on the positions of a text

A matcher relates the position it starts at to those it may end at. It is given
by a language if it leads over the words of the language, and then so is what
is put together of matchers: the operations on the relations are those on the
languages.
-/

namespace Language

open Relation

variable {α : Type*}

/-- The word stands in the text from `i` to `j`. -/
def Part (s : List α) (i j : Nat) (w : List α) : Prop :=
  ∃ u v, s = u ++ w ++ v ∧ u.length = i ∧ i + w.length = j

section

variable {s u v w : List α} {i j : Nat}

theorem Part.le (h : Part s i j w) : i ≤ j ∧ j ≤ s.length := by
  rcases h with ⟨u, v, rfl, rfl, rfl⟩
  simp only [List.length_append]
  omega

theorem part_nil : Part s i j [] ↔ i = j ∧ i ≤ s.length := by
  constructor
  · intro h
    exact ⟨by rcases h with ⟨_, _, _, _, rfl⟩; rfl, h.le.1.trans h.le.2⟩
  · rintro ⟨rfl, hi⟩
    exact ⟨s.take i, s.drop i, by simp, by simpa using hi, rfl⟩

theorem part_append : Part s i j (u ++ v) ↔ ∃ k, Part s i k u ∧ Part s k j v := by
  constructor
  · rintro ⟨a, b, rfl, rfl, rfl⟩
    refine ⟨a.length + u.length, ⟨a, v ++ b, by simp, rfl, rfl⟩, ⟨a ++ u, b, by simp, by simp, ?_⟩⟩
    rw [List.length_append, Nat.add_assoc]
  · rintro ⟨k, ⟨a, b, rfl, rfl, rfl⟩, ⟨c, d, heq, hlen, rfl⟩⟩
    rw [List.append_assoc c] at heq
    rcases List.append_inj heq (by simpa using hlen.symm) with ⟨rfl, rfl⟩
    exact ⟨a, d, by simp, rfl, by rw [List.length_append, Nat.add_assoc]⟩

theorem part_singleton {c : α} : Part s i j [c] ↔ j = i + 1 ∧ s[i]? = some c := by
  constructor
  · rintro ⟨u, v, rfl, rfl, rfl⟩
    exact ⟨rfl, by simp⟩
  · rintro ⟨rfl, hc⟩
    rcases List.getElem?_eq_some_iff.mp hc with ⟨hi, rfl⟩
    refine ⟨s.take i, s.drop (i + 1), ?_, by simpa using Nat.le_of_lt hi, rfl⟩
    rw [List.append_assoc, List.singleton_append, List.getElem_cons_drop, List.take_append_drop]

/-- The word is determined by its ends. -/
theorem part_iff : Part s i j w ↔ i ≤ j ∧ j ≤ s.length ∧ (s.take j).drop i = w := by
  constructor
  · intro h
    refine ⟨h.le.1, h.le.2, ?_⟩
    rcases h with ⟨u, v, rfl, rfl, rfl⟩
    rw [← List.length_append, List.take_left' rfl, List.drop_left' rfl]
  · rintro ⟨hij, hj, rfl⟩
    have htake : (s.take j).take i = s.take i := by rw [List.take_take, Nat.min_eq_left hij]
    refine ⟨s.take i, s.drop j, ?_, by simpa using hij.trans hj, by simp; omega⟩
    rw [← htake, List.take_append_drop, List.take_append_drop]

theorem part_whole : Part s 0 s.length w ↔ w = s := by
  constructor
  · rintro ⟨u, v, hs, hu, hw⟩
    obtain rfl := List.length_eq_zero_iff.mp hu
    have hv : v = [] := by
      apply List.length_eq_zero_iff.mp
      have hlen := congrArg List.length hs
      rw [List.length_append] at hlen
      simp only [List.nil_append] at hlen
      omega
    rw [hs, hv, List.nil_append, List.append_nil]
  · rintro rfl
    exact ⟨[], [], by simp, rfl, by simp⟩

end

/-- From a position of the text the relation leads over the words of the
language. -/
def Spans (s : List α) (M : Nat → Nat → Prop) (L : Language α) : Prop :=
  ∀ i j, i ≤ s.length → (M i j ↔ ∃ w ∈ L, Part s i j w)

namespace Spans

variable {s : List α} {M N : Nat → Nat → Prop} {L K : Language α}

theorem congr (h : Spans s M L) (hN : ∀ i j, N i j ↔ M i j) : Spans s N L := by
  intro i j hi
  rw [hN, h i j hi]

theorem le_length (h : Spans s M L) {i j : Nat} (hi : i ≤ s.length) (hM : M i j) :
    j ≤ s.length := by
  rcases (h i j hi).mp hM with ⟨w, _, hw⟩
  exact hw.le.2

theorem one : Spans s (fun i j => i = j) (1 : Language α) := by
  intro i j hi
  constructor
  · rintro rfl
    exact ⟨[], rfl, part_nil.mpr ⟨rfl, hi⟩⟩
  · rintro ⟨w, hw, hpart⟩
    obtain rfl := (mem_one w).mp hw
    exact (part_nil.mp hpart).1

theorem single {P : α → Prop} (hL : ∀ w, w ∈ L ↔ ∃ c, P c ∧ w = [c]) :
    Spans s (fun i j => j = i + 1 ∧ ∃ c, s[i]? = some c ∧ P c) L := by
  intro i j _
  constructor
  · rintro ⟨hj, c, hc, hP⟩
    exact ⟨[c], (hL _).mpr ⟨c, hP, rfl⟩, part_singleton.mpr ⟨hj, hc⟩⟩
  · rintro ⟨w, hw, hpart⟩
    rcases (hL w).mp hw with ⟨c, hP, rfl⟩
    rcases part_singleton.mp hpart with ⟨hj, hc⟩
    exact ⟨hj, c, hc, hP⟩

theorem add (h : Spans s M L) (h' : Spans s N K) : Spans s (fun i j => M i j ∨ N i j) (L + K) := by
  intro i j hi
  simp only [h i j hi, h' i j hi, mem_add, or_and_right, exists_or]

theorem mul (h : Spans s M L) (h' : Spans s N K) :
    Spans s (fun i j => ∃ k, M i k ∧ N k j) (L * K) := by
  intro i j hi
  constructor
  · rintro ⟨k, hM, hN⟩
    rcases (h i k hi).mp hM with ⟨u, hu, hpart⟩
    rcases (h' k j (h.le_length hi hM)).mp hN with ⟨v, hv, hpart'⟩
    exact ⟨u ++ v, mem_mul.mpr ⟨u, hu, v, hv, rfl⟩, part_append.mpr ⟨k, hpart, hpart'⟩⟩
  · rintro ⟨w, hw, hpart⟩
    rcases mem_mul.mp hw with ⟨u, hu, v, hv, rfl⟩
    rcases part_append.mp hpart with ⟨k, hpart, hpart'⟩
    exact ⟨k, (h i k hi).mpr ⟨u, hu, hpart⟩, (h' k j hpart.le.2).mpr ⟨v, hv, hpart'⟩⟩

theorem pow (h : Spans s M L) (k : Nat) : Spans s (Times M k) (L ^ k) := by
  induction k with
  | zero =>
      rw [pow_zero]
      exact one
  | succ k ih =>
      rw [pow_succ']
      exact h.mul ih

theorem kstar (h : Spans s M L) : Spans s (fun i j => ∃ k, Times M k i j) (KStar.kstar L) := by
  intro i j hi
  simp only [(h.pow _) i j hi, kstar_eq_iSup_pow, mem_iSup]
  constructor
  · rintro ⟨k, w, hw, hpart⟩
    exact ⟨w, ⟨k, hw⟩, hpart⟩
  · rintro ⟨w, ⟨k, hw⟩, hpart⟩
    exact ⟨k, w, hw, hpart⟩

/-- At most `n` times. -/
theorem upTo (h : Spans s M L) (n : Nat) : Spans s (UpTo M n) ((1 + L) ^ n) := by
  induction n with
  | zero =>
      rw [pow_zero]
      exact one
  | succ n ih =>
      rw [pow_succ']
      refine (((one (s := s)).add h).mul ih).congr ?_
      intro i j
      constructor
      · rintro (rfl | ⟨k, hM, hrest⟩)
        · exact ⟨i, .inl rfl, (upTo_iff_times n).mpr ⟨0, Nat.zero_le n, rfl⟩⟩
        · exact ⟨k, .inr hM, hrest⟩
      · rintro ⟨k, rfl | hM, hrest⟩
        · rcases (upTo_iff_times n).mp hrest with ⟨m, hm, htimes⟩
          exact (upTo_iff_times (n + 1)).mpr ⟨m, Nat.le_succ_of_le hm, htimes⟩
        · exact .inr ⟨k, hM, hrest⟩

/-- Between `m` and `m + n` times. -/
theorem between (h : Spans s M L) (m n : Nat) :
    Spans s (fun i j => ∃ k, m ≤ k ∧ k ≤ m + n ∧ Times M k i j) (L ^ m * (1 + L) ^ n) :=
  ((h.pow m).mul (h.upTo n)).congr fun _ _ => (times_upTo m n).symm

/-- At least `n` times. -/
theorem atLeast (h : Spans s M L) (n : Nat) :
    Spans s (fun i j => ∃ k, n ≤ k ∧ Times M k i j) (L ^ n * KStar.kstar L) := by
  refine ((h.pow n).mul h.kstar).congr ?_
  intro i j
  constructor
  · rintro ⟨k, hk, htimes⟩
    obtain ⟨m, rfl⟩ := Nat.exists_eq_add_of_le hk
    rcases (times_add n m).mp htimes with ⟨c, hn, hm⟩
    exact ⟨c, hn, m, hm⟩
  · rintro ⟨c, hn, m, hm⟩
    exact ⟨n + m, Nat.le_add_right n m, (times_add n m).mpr ⟨c, hn, hm⟩⟩

/-- The language decides about the part between two positions. -/
theorem iff_mem (h : Spans s M L) {i j : Nat} (hi : i ≤ s.length) :
    M i j ↔ i ≤ j ∧ j ≤ s.length ∧ (s.take j).drop i ∈ L := by
  rw [h i j hi]
  constructor
  · rintro ⟨w, hw, hpart⟩
    rcases part_iff.mp hpart with ⟨hij, hj, rfl⟩
    exact ⟨hij, hj, hw⟩
  · rintro ⟨hij, hj, hw⟩
    exact ⟨_, hw, part_iff.mpr ⟨hij, hj, rfl⟩⟩

/-- The whole text. -/
theorem whole (h : Spans s M L) : M 0 s.length ↔ s ∈ L := by
  rw [h 0 s.length (Nat.zero_le _)]
  constructor
  · rintro ⟨w, hw, hpart⟩
    exact part_whole.mp hpart ▸ hw
  · intro hs
    exact ⟨s, hs, part_whole.mpr rfl⟩

end Spans

end Language
