import Rxvm.Vm

/-!
# Rxvm.Case — tolower and letter case

`lower` folds the case of letters. The macro `tolower` of `vm.h` tests its
argument on one side only, and adds 32 to every character up to `Z`.
-/

namespace Rxvm

def isUpper (c : CChar) : Bool := chr 'A' ≤ c && c ≤ chr 'Z'

def isLetter (c : CChar) : Bool := isUpper c || (chr 'a' ≤ c && c ≤ chr 'z')

/-- `A`..`Z` to `a`..`z`, every other character to itself. -/
def lower (c : CChar) : CChar := if isUpper c then c + 32 else c

theorem isUpper_iff {c : CChar} : isUpper c = true ↔ 65 ≤ c.toInt ∧ c.toInt ≤ 90 := by
  have h1 : (chr 'A').toInt = 65 := by decide
  have h2 : (chr 'Z').toInt = 90 := by decide
  simp only [isUpper, Bool.and_eq_true, decide_eq_true_eq, Int8.le_iff_toInt_le, h1, h2]

theorem isLetter_iff {c : CChar} : isLetter c = true ↔
    (65 ≤ c.toInt ∧ c.toInt ≤ 90) ∨ (97 ≤ c.toInt ∧ c.toInt ≤ 122) := by
  have h1 : (chr 'a').toInt = 97 := by decide
  have h2 : (chr 'z').toInt = 122 := by decide
  simp only [isLetter, Bool.or_eq_true, isUpper_iff, Bool.and_eq_true, decide_eq_true_eq,
    Int8.le_iff_toInt_le, h1, h2]

theorem toInt_add_32 {c : CChar} (h : c.toInt ≤ 95) : (c + 32).toInt = c.toInt + 32 := by
  have hlow := Int8.le_toInt c
  have h32 : (32 : Int8).toInt = 32 := by decide
  rw [Int8.toInt_add, h32]
  exact Int.bmod_eq_of_le (by omega) (by omega)

/-- Folding, on character codes. -/
theorem lower_toInt (c : CChar) : (lower c).toInt =
    if 65 ≤ c.toInt ∧ c.toInt ≤ 90 then c.toInt + 32 else c.toInt := by
  unfold lower
  by_cases h : isUpper c = true
  · rw [if_pos h, if_pos (isUpper_iff.mp h)]
    exact toInt_add_32 (by have := isUpper_iff.mp h; omega)
  · rw [if_neg h, if_neg (fun h' => h (isUpper_iff.mpr h'))]

/-- A letter and a character that is a letter or no more than a space: here the
macro compares as folding does. -/
theorem charMatch_letter {a c : CChar} (ha : isLetter a = true ∨ a.toInt ≤ 32)
    (hc : isLetter c = true) : charMatch true a c = true ↔ lower a = lower c := by
  have hbounds := ha.imp_left isLetter_iff.mp
  have hletter := isLetter_iff.mp hc
  rw [← Int8.toInt_inj, lower_toInt, lower_toInt]
  simp only [charMatch, if_true, beq_iff_eq, tolower]
  split <;> split <;> split <;> split <;> omega

end Rxvm
