import Mathlib.Computability.RegularExpressions
import Rxvm.Lib.Spans

/-!
# Rxvm.Lib.Attempts — searching a text for a word of a language

A search that goes over the text once does not try every position: when no word
begins with the text from `i` to behind `q`, it goes on at `q`. `Finds` says
where such a search ends, for a language, and `RegularExpression.find` is the
search for a regular expression, by derivatives.
-/

namespace Language

open Relation

variable {α : Type*}

section

variable (L : Language α) (s : List α)

/-- A word stands in the text from `i` to `j`. -/
def Occurs (i j : Nat) : Prop := ∃ w ∈ L, Part s i j w

/-- A word begins with the text from `i` to `j`. -/
def Begins (i j : Nat) : Prop := ∃ w v, w ++ v ∈ L ∧ Part s i j w

/-- No word stands at `i`, and the next attempt is made at `i'`: `q` is the end
of the longest text from `i` that a word begins with. -/
def Skips (i i' : Nat) : Prop :=
  (∀ j, ¬ L.Occurs s i j) ∧
    ∃ q, q < s.length ∧ L.Begins s i q ∧ ¬ L.Begins s i (q + 1) ∧ i' = max (i + 1) q

/-- The length of the longest or the shortest word that the text starts with. -/
def EndsAt (shortest : Bool) (w : List α) : Option Nat → Prop
  | some k => k ≤ w.length ∧ w.take k ∈ L ∧
    ∀ k', k' ≤ w.length → w.take k' ∈ L → if shortest then k ≤ k' else k' ≤ k
  | none => ∀ k, k ≤ w.length → w.take k ∉ L

/-- What a search from `r` on ends with: with the longest or the shortest word
of the first attempt that there is one at, or with none in any attempt. -/
def Finds (shortest : Bool) (r : Nat) : Option (Nat × Nat) → Prop
  | some (i, j) => ReflTransGen (L.Skips s) r i ∧ L.Occurs s i j ∧
    ∀ j', L.Occurs s i j' → if shortest then j ≤ j' else j' ≤ j
  | none => ∀ i j, ReflTransGen (L.Skips s) r i → ¬ L.Occurs s i j

end

section

variable {L : Language α} {s : List α} {i j k : Nat}

theorem occurs_iff : L.Occurs s i j ↔ i ≤ j ∧ j ≤ s.length ∧ (s.take j).drop i ∈ L := by
  constructor
  · rintro ⟨w, hw, hpart⟩
    rcases part_iff.mp hpart with ⟨hij, hj, rfl⟩
    exact ⟨hij, hj, hw⟩
  · rintro ⟨hij, hj, hw⟩
    exact ⟨_, hw, part_iff.mpr ⟨hij, hj, rfl⟩⟩

theorem begins_iff : L.Begins s i j ↔
    i ≤ j ∧ j ≤ s.length ∧ ∃ v, (s.take j).drop i ++ v ∈ L := by
  constructor
  · rintro ⟨w, v, hw, hpart⟩
    rcases part_iff.mp hpart with ⟨hij, hj, rfl⟩
    exact ⟨hij, hj, v, hw⟩
  · rintro ⟨hij, hj, v, hw⟩
    exact ⟨_, v, hw, part_iff.mpr ⟨hij, hj, rfl⟩⟩

theorem occurs_add (hi : i ≤ s.length) :
    L.Occurs s i (i + k) ↔ k ≤ (s.drop i).length ∧ (s.drop i).take k ∈ L := by
  rw [occurs_iff, List.drop_take, Nat.add_sub_cancel_left, List.length_drop]
  constructor
  · rintro ⟨_, hj, hw⟩
    exact ⟨by omega, hw⟩
  · rintro ⟨hk, hw⟩
    exact ⟨by omega, by omega, hw⟩

theorem begins_add (hi : i ≤ s.length) :
    L.Begins s i (i + k) ↔ k ≤ (s.drop i).length ∧ ∃ v, (s.drop i).take k ++ v ∈ L := by
  rw [begins_iff, List.drop_take, Nat.add_sub_cancel_left, List.length_drop]
  constructor
  · rintro ⟨_, hj, hw⟩
    exact ⟨by omega, hw⟩
  · rintro ⟨hk, hw⟩
    exact ⟨by omega, by omega, hw⟩

theorem Occurs.le (h : L.Occurs s i j) : i ≤ j ∧ j ≤ s.length := by
  rcases h with ⟨w, _, hpart⟩
  exact hpart.le

theorem Begins.le (h : L.Begins s i j) : i ≤ j ∧ j ≤ s.length := by
  rcases h with ⟨w, v, _, hpart⟩
  exact hpart.le

/-- What begins with a text begins with the start of the text. -/
theorem Begins.shorter (h : L.Begins s i j) (hik : i ≤ k) (hkj : k ≤ j) : L.Begins s i k := by
  rcases begins_iff.mp h with ⟨_, hj, v, hw⟩
  refine begins_iff.mpr ⟨hik, by omega, (s.take j).drop k ++ v, ?_⟩
  have hsplit : (s.take j).drop i = (s.take k).drop i ++ (s.take j).drop k := by
    have htake : s.take j = s.take k ++ (s.take j).drop k := by
      rw [← List.take_append_drop k (s.take j), List.take_take, Nat.min_eq_left hkj,
        List.drop_append_of_le_length (by simp; omega)]
      simp [List.drop_take]
    conv_lhs => rw [htake]
    exact List.drop_append_of_le_length (by simp; omega)
  rw [← List.append_assoc, ← hsplit]
  exact hw

theorem Skips.unique {a b : Nat} (ha : L.Skips s i a) (hb : L.Skips s i b) : a = b := by
  rcases ha with ⟨_, q, _, hq, hdead, rfl⟩
  rcases hb with ⟨_, q', _, hq', hdead', rfl⟩
  have h : ¬ q < q' := fun hlt => hdead (hq'.shorter (by have := hq.le; omega) hlt)
  have h' : ¬ q' < q := fun hlt => hdead' (hq.shorter (by have := hq'.le; omega) hlt)
  have heq : q = q' := by omega
  rw [heq]

/-- A path that ends where a word stands, and another one: they end at the same
position. -/
theorem skips_unique {r a b ja jb : Nat} (ha : ReflTransGen (L.Skips s) r a)
    (hb : ReflTransGen (L.Skips s) r b) (hoa : L.Occurs s a ja) (hob : L.Occurs s b jb) :
    a = b := by
  have hfinal : ∀ {x y jx : Nat}, L.Occurs s x jx → ReflTransGen (L.Skips s) x y → x = y := by
    intro x y jx hox hxy
    rcases hxy.cases_head with heq | ⟨z, hstep, _⟩
    · exact heq
    · exact absurd hox (hstep.1 jx)
  have hfun : Relator.RightUnique (L.Skips s) := fun _ _ _ h h' => h.unique h'
  rcases ReflTransGen.total_of_right_unique hfun ha hb with hab | hba
  · exact hfinal hoa hab
  · exact (hfinal hob hba).symm

/-- Where a search ends is determined by the language. -/
theorem Finds.unique {shortest : Bool} {r : Nat} {res res' : Option (Nat × Nat)}
    (h : L.Finds s shortest r res) (h' : L.Finds s shortest r res') : res = res' := by
  match res, res', h, h' with
  | none, none, _, _ => rfl
  | some (i, j), none, ⟨hpath, hoccurs, _⟩, hnone => exact absurd hoccurs (hnone i j hpath)
  | none, some (i, j), hnone, ⟨hpath, hoccurs, _⟩ => exact absurd hoccurs (hnone i j hpath)
  | some (i, j), some (i', j'), ⟨hpath, hoccurs, hbest⟩, ⟨hpath', hoccurs', hbest'⟩ =>
      obtain rfl := skips_unique hpath hpath' hoccurs hoccurs'
      have heq : j = j' := by
        cases shortest with
        | true => exact (hbest j' hoccurs').antisymm (hbest' j hoccurs)
        | false => exact (hbest' j hoccurs).antisymm (hbest j' hoccurs')
      rw [heq]

/-! ## One attempt -/

section

variable {w : List α} {shortest : Bool}

/-- The empty word is the only one that is found, where no longer one is looked
for or none is there. -/
theorem EndsAt.zero (h : [] ∈ L)
    (hlonger : shortest = false → ∀ k, 0 < k → k ≤ w.length → w.take k ∉ L) :
    L.EndsAt shortest w (some 0) := by
  refine ⟨Nat.zero_le _, h, fun k' hk' hmem => ?_⟩
  cases shortest with
  | true => exact Nat.zero_le _
  | false =>
      by_contra hpos
      exact hlonger rfl k' (Nat.lt_of_not_le hpos) hk' hmem

/-- An attempt that finds a word ends the search. -/
theorem EndsAt.finds (hi : i ≤ s.length)
    (h : L.EndsAt shortest (s.drop i) (some k)) :
    L.Finds s shortest i (some (i, i + k)) := by
  rcases h with ⟨hk, hmem, hbest⟩
  refine ⟨.refl, (occurs_add hi).mpr ⟨hk, hmem⟩, fun j' hj' => ?_⟩
  obtain ⟨k', rfl⟩ := Nat.exists_eq_add_of_le hj'.le.1
  rcases (occurs_add hi).mp hj' with ⟨hk', hmem'⟩
  have := hbest k' hk' hmem'
  cases shortest with
  | true => exact Nat.add_le_add_left this i
  | false => exact Nat.add_le_add_left this i

theorem EndsAt.not_occurs (hi : i ≤ s.length)
    (h : L.EndsAt shortest (s.drop i) none) : ¬ L.Occurs s i j := by
  intro hj
  obtain ⟨k, rfl⟩ := Nat.exists_eq_add_of_le hj.le.1
  rcases (occurs_add hi).mp hj with ⟨hk, hmem⟩
  exact h k hk hmem

/-- A word that is not found in one attempt is found in those that follow. -/
theorem Skips.finds {i' : Nat} (hskip : L.Skips s i i') {res : Option (Nat × Nat)}
    (h : L.Finds s shortest i' res) : L.Finds s shortest i res := by
  match res, h with
  | some (i, j), ⟨hpath, hoccurs, hbest⟩ => exact ⟨.head hskip hpath, hoccurs, hbest⟩
  | none, h =>
      intro x j hpath
      rcases hpath.cases_head with rfl | ⟨y, hstep, hrest⟩
      · exact hskip.1 j
      · obtain rfl := hskip.unique hstep
        exact h x j hrest

/-- An attempt that is alive at the end of the text is the last one. -/
theorem Begins.finds_none (halive : L.Begins s i s.length)
    (hno : ∀ j, ¬ L.Occurs s i j) : L.Finds s shortest i none := by
  intro x j hpath
  rcases hpath.cases_head with rfl | ⟨y, ⟨_, q, hq, hbegins, hdead, _⟩, _⟩
  · exact hno j
  · exact absurd (halive.shorter (by have := hbegins.le; omega) hq) hdead

end

end

end Language

namespace RegularExpression

open Language Relation

variable {α : Type*}

/-! ## The search for a regular expression -/

/-- There is a word. -/
def inhabited : RegularExpression α → Bool
  | zero => false
  | epsilon => true
  | char _ => true
  | plus P Q => P.inhabited || Q.inhabited
  | comp P Q => P.inhabited && Q.inhabited
  | star _ => true

theorem inhabited_iff {P : RegularExpression α} :
    P.inhabited = true ↔ ∃ w, w ∈ P.matches' := by
  induction P with
  | zero => exact ⟨fun h => Bool.noConfusion h, fun ⟨_, hw⟩ => hw.elim⟩
  | epsilon => exact ⟨fun _ => ⟨[], rfl⟩, fun _ => rfl⟩
  | char a => exact ⟨fun _ => ⟨[a], rfl⟩, fun _ => rfl⟩
  | plus P Q ihP ihQ =>
      rw [inhabited, Bool.or_eq_true, ihP, ihQ, plus_def, matches'_add]
      simp only [mem_add, exists_or]
  | comp P Q ihP ihQ =>
      rw [inhabited, Bool.and_eq_true, ihP, ihQ, comp_def, matches'_mul]
      constructor
      · rintro ⟨⟨u, hu⟩, v, hv⟩
        exact ⟨u ++ v, append_mem_mul hu hv⟩
      · rintro ⟨w, hw⟩
        rcases mem_mul.mp hw with ⟨u, hu, v, hv, _⟩
        exact ⟨⟨u, hu⟩, v, hv⟩
  | star P ih =>
      rw [inhabited, matches'_star]
      exact ⟨fun _ => ⟨[], nil_mem_kstar _⟩, fun _ => rfl⟩

variable [DecidableEq α]

/-- The length of the longest or the shortest word that the text starts with. -/
def ends (shortest : Bool) : RegularExpression α → List α → Option Nat
  | P, [] => if P.matchEpsilon then some 0 else none
  | P, a :: w =>
    if shortest && P.matchEpsilon then some 0
    else
      match ends shortest (P.deriv a) w with
      | some k => some (k + 1)
      | none => if P.matchEpsilon then some 0 else none

/-- The length of the longest text that a word starts with. -/
def reaches : RegularExpression α → List α → Nat
  | _, [] => 0
  | P, a :: w => if (P.deriv a).inhabited then reaches (P.deriv a) w + 1 else 0

/-- The search, in attempts from position `i` on. -/
def findFrom (shortest : Bool) (P : RegularExpression α) (s : List α) :
    Nat → Nat → Option (Nat × Nat)
  | 0, _ => none
  | fuel + 1, i =>
    match P.ends shortest (s.drop i) with
    | some k => some (i, i + k)
    | none =>
      if i + P.reaches (s.drop i) < s.length then
        findFrom shortest P s fuel (max (i + 1) (i + P.reaches (s.drop i)))
      else none

/-- The search of a text: where the word starts and where it ends. -/
def find (shortest : Bool) (P : RegularExpression α) (s : List α) : Option (Nat × Nat) :=
  findFrom shortest P s (s.length + 1) 0

section

variable {P : RegularExpression α} {a : α} {s w : List α} {shortest : Bool}

theorem matchEpsilon_iff : P.matchEpsilon = true ↔ [] ∈ P.matches' := rmatch_iff_matches' P []

theorem mem_deriv : w ∈ (P.deriv a).matches' ↔ a :: w ∈ P.matches' := by
  rw [← rmatch_iff_matches', ← rmatch_iff_matches']
  rfl

theorem inhabited_deriv_iff : (P.deriv a).inhabited = true ↔ ∃ v, a :: v ∈ P.matches' := by
  rw [inhabited_iff]
  exact exists_congr fun v => mem_deriv

theorem endsAt_cons_some {k : Nat} (h : (P.deriv a).matches'.EndsAt shortest w (some k))
    (hempty : shortest = true → [] ∉ P.matches') :
    P.matches'.EndsAt shortest (a :: w) (some (k + 1)) := by
  rcases h with ⟨hk, hmem, hbest⟩
  refine ⟨by simpa using hk, mem_deriv.mp hmem, fun k' hk' hmem' => ?_⟩
  cases k' with
  | zero =>
      cases shortest with
      | true => exact absurd hmem' (hempty rfl)
      | false => exact Nat.zero_le _
  | succ k' =>
      have hk'' : k' ≤ w.length := by simpa using hk'
      have hbest' := hbest k' hk'' (mem_deriv.mpr hmem')
      cases shortest with
      | true => exact Nat.succ_le_succ hbest'
      | false => exact Nat.succ_le_succ hbest'

theorem endsAt_cons_none (h : (P.deriv a).matches'.EndsAt shortest w none) {k : Nat} (hpos : 0 < k)
    (hk : k ≤ (a :: w).length) : (a :: w).take k ∉ P.matches' := by
  intro hmem
  obtain ⟨k, rfl⟩ := Nat.exists_eq_succ_of_ne_zero hpos.ne'
  exact h k (by simpa using hk) (mem_deriv.mpr hmem)

theorem ends_spec : P.matches'.EndsAt shortest w (P.ends shortest w) := by
  induction w generalizing P with
  | nil =>
      rw [ends]
      by_cases hempty : P.matchEpsilon = true
      · rw [if_pos hempty]
        refine .zero (matchEpsilon_iff.mp hempty) fun _ k hpos hk => ?_
        exact absurd (hpos.trans_le hk) (Nat.lt_irrefl 0)
      · rw [if_neg hempty]
        intro k _ hmem
        rw [List.take_nil] at hmem
        exact hempty (matchEpsilon_iff.mpr hmem)
  | cons a w ih =>
      have hrest := ih (P := P.deriv a)
      rw [ends]
      -- the shortest word ends here
      by_cases hstop : (shortest && P.matchEpsilon) = true
      · rw [if_pos hstop]
        rcases Bool.and_eq_true_iff.mp hstop with ⟨hshort, hempty⟩
        exact .zero (matchEpsilon_iff.mp hempty) fun hlong => by simp [hshort] at hlong
      · rw [if_neg hstop]
        cases hends : (P.deriv a).ends shortest w with
        | some k =>
            rw [hends] at hrest
            -- a word that goes on is longer than the one that ends here
            refine endsAt_cons_some hrest fun hshort hmem => hstop ?_
            rw [hshort, matchEpsilon_iff.mpr hmem]
            rfl
        | none =>
            rw [hends] at hrest
            simp only
            by_cases hempty : P.matchEpsilon = true
            · rw [if_pos hempty]
              exact .zero (matchEpsilon_iff.mp hempty) fun _ k hpos hk =>
                endsAt_cons_none hrest hpos hk
            · rw [if_neg hempty]
              intro k hk hmem
              rcases Nat.eq_zero_or_pos k with rfl | hpos
              · exact hempty (matchEpsilon_iff.mpr hmem)
              · exact endsAt_cons_none hrest hpos hk hmem

/-- A word starts with the text up to where `reaches` leads, and with no longer
one. -/
theorem reaches_spec (hP : ∃ v, v ∈ P.matches') :
    P.reaches w ≤ w.length ∧ (∃ v, w.take (P.reaches w) ++ v ∈ P.matches') ∧
      (P.reaches w < w.length → ¬ ∃ v, w.take (P.reaches w + 1) ++ v ∈ P.matches') := by
  induction w generalizing P with
  | nil => exact ⟨Nat.le_refl 0, hP, fun h => absurd h (Nat.lt_irrefl 0)⟩
  | cons a w ih =>
      rw [reaches]
      by_cases halive : (P.deriv a).inhabited = true
      · rw [if_pos halive]
        rcases ih (inhabited_iff.mp halive) with ⟨hle, ⟨v, hv⟩, hdead⟩
        refine ⟨Nat.succ_le_succ hle, ⟨v, mem_deriv.mp hv⟩, ?_⟩
        rintro hlt ⟨v', hv'⟩
        exact hdead (Nat.lt_of_succ_lt_succ hlt) ⟨v', mem_deriv.mpr hv'⟩
      · rw [if_neg halive]
        refine ⟨Nat.zero_le _, hP, ?_⟩
        rintro _ ⟨v, hv⟩
        exact halive (inhabited_deriv_iff.mpr ⟨v, hv⟩)

theorem findFrom_finds (hP : ∃ v, v ∈ P.matches') : ∀ (fuel i : Nat), i ≤ s.length →
    s.length < fuel + i → P.matches'.Finds s shortest i (findFrom shortest P s fuel i) := by
  intro fuel
  -- by induction on the positions that are left
  induction fuel with
  | zero =>
      intro i hi hlt
      omega
  | succ fuel ih =>
      intro i hi hlt
      have hends := @ends_spec _ _ P (s.drop i) shortest
      rw [findFrom]
      cases hrun : P.ends shortest (s.drop i) with
      | some k =>
          rw [hrun] at hends
          exact hends.finds hi
      | none =>
          rw [hrun] at hends
          have hno : ∀ j, ¬ P.matches'.Occurs s i j := fun j => hends.not_occurs hi
          rcases @reaches_spec _ _ P (s.drop i) hP with ⟨hle, halive, hdead⟩
          have hbegins := (begins_add hi).mpr ⟨hle, halive⟩
          simp only
          by_cases hq : i + P.reaches (s.drop i) < s.length
          · rw [if_pos hq]
            have hlt' : P.reaches (s.drop i) < (s.drop i).length := by
              rw [List.length_drop]
              omega
            -- a failed attempt is taken up where it can no longer be continued
            have hskip : P.matches'.Skips s i (max (i + 1) (i + P.reaches (s.drop i))) := by
              refine ⟨hno, _, hq, hbegins, fun hnext => hdead hlt' ?_, rfl⟩
              exact ((begins_add hi).mp hnext).2
            exact hskip.finds (ih _ (by omega) (by omega))
          · rw [if_neg hq]
            have hend : i + P.reaches (s.drop i) = s.length := by
              have := hbegins.le.2
              omega
            rw [hend] at hbegins
            exact hbegins.finds_none hno

/-- The search by derivatives ends where a search for the language does. -/
theorem find_finds (hP : ∃ v, v ∈ P.matches') : P.matches'.Finds s shortest 0 (P.find shortest s) :=
  findFrom_finds hP (s.length + 1) 0 (Nat.zero_le _) (by omega)

/-- The word `0, 0, 1` is missed behind another `0`. -/
example : find false (char 0 * (char 0 * char 1)) [0, 0, 0, 1] = none := by decide

end

end RegularExpression
