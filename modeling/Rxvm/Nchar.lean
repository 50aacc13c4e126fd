import Rxvm.GenSpec
import Rxvm.LexSpec

/-!
# Rxvm.Nchar — the scan of find_nchar

`find_nchar` compares one candidate with the characters of the class string.
At a hit it takes the next candidate and starts the scan again. The rounds of
`findNcharLoop` are the stretches between two starts.
-/

namespace Rxvm

/-- The `for` loop of `find_nchar`, at index `i` of the class string. `i = -1`
and `continue` start the scan again. The index is an `int`: a class string is shorter
than 2^31 characters. -/
def scanNchar (ccs : List CChar) : Nat → Nat → CChar → UInt8 → Option CChar
  | 0, _, _, _ => none
  | fuel + 1, i, c, wraps =>
    if at' ccs i = 0 then some c
    else if c = at' ccs i then
      let (c, wraps) := if c < printableHigh then (c + 1, wraps) else (printableLow, wraps + 1)
      if wraps > 1 then some 0 else scanNchar ccs fuel 0 c wraps
    else scanNchar ccs fuel (i + 1) c wraps

section

variable {ccs : List CChar} {c : CChar} {wraps : UInt8} {i : Nat}

/-! ## One scan -/

/-- A scan without a hit ends with the candidate. -/
theorem scanNchar_miss : ∀ (fuel : Nat) (i : Nat), c ∉ cstring (ccs.drop i) →
    (cstring (ccs.drop i)).length < fuel → scanNchar ccs fuel i c wraps = some c := by
  intro fuel
  induction fuel with
  | zero =>
      intro i _ hfuel
      omega
  | succ fuel ih =>
      intro i hmiss hfuel
      unfold scanNchar
      by_cases h0 : at' ccs i = 0
      · rw [if_pos h0]
      rw [if_neg h0]
      rw [cstring_drop_of_ne h0] at hmiss hfuel
      have hne : c ≠ at' ccs i := by
        intro e
        exact hmiss (e ▸ List.mem_cons_self)
      rw [if_neg hne]
      apply ih
      · exact fun hmem => hmiss (List.mem_cons_of_mem _ hmem)
      · rw [List.length_cons] at hfuel
        omega

/-- What a hit leads to: the next candidate is scanned, or there is none. -/
def scanNext (ccs : List CChar) (fuel : Nat) (c : CChar) (wraps : UInt8) : Option CChar :=
  if c < printableHigh then
    if wraps > 1 then some 0 else scanNchar ccs fuel 0 (c + 1) wraps
  else if wraps + 1 > 1 then some 0 else scanNchar ccs fuel 0 printableLow (wraps + 1)

/-- A scan with a hit takes no more steps than there are characters. -/
theorem scanNchar_hit : ∀ (fuel : Nat) (i : Nat), c ∈ cstring (ccs.drop i) →
    (cstring (ccs.drop i)).length ≤ fuel →
    ∃ left, fuel ≤ left + (cstring (ccs.drop i)).length ∧
      scanNchar ccs fuel i c wraps = scanNext ccs left c wraps := by
  intro fuel
  induction fuel with
  | zero =>
      intro i hhit hfuel
      rw [Nat.le_zero, List.length_eq_zero_iff] at hfuel
      rw [hfuel] at hhit
      cases hhit
  | succ fuel ih =>
      intro i hhit hfuel
      unfold scanNchar
      by_cases h0 : at' ccs i = 0
      · rw [cstring_drop_of_eq h0] at hhit
        cases hhit
      rw [if_neg h0]
      rw [cstring_drop_of_ne h0] at hhit hfuel ⊢
      rw [List.length_cons] at hfuel ⊢
      by_cases heq : c = at' ccs i
      · -- the hit
        rw [if_pos heq]
        refine ⟨fuel, by omega, ?_⟩
        unfold scanNext
        by_cases hlt : c < printableHigh
        · simp only [if_pos hlt]
        · simp only [if_neg hlt]
      · rw [if_neg heq]
        have hrest : c ∈ cstring (ccs.drop (i + 1)) := by
          rcases List.mem_cons.mp hhit with e | hmem
          · exact absurd e heq
          · exact hmem
        rcases ih (i + 1) hrest (by omega) with ⟨left, hleft, hrun⟩
        exact ⟨left, by omega, hrun⟩

/-! ## The rounds -/

/-- The scans are the rounds of `findNcharLoop` on the class string. -/
theorem scanNchar_rounds {r : CChar} : ∀ (rounds fuel : Nat) (c : CChar) (wraps : UInt8),
    wraps ≤ 1 → findNcharLoop (cstring ccs) rounds c wraps.toNat = some r →
    rounds * ((cstring ccs).length + 1) ≤ fuel → scanNchar ccs fuel 0 c wraps = some r := by
  intro rounds
  induction rounds with
  | zero =>
      intro fuel c wraps _ hloop
      cases hloop
  | succ rounds ih =>
      intro fuel c wraps hwraps hloop hfuel
      have hle : wraps.toNat ≤ 1 := UInt8.le_iff_toNat_le.mp hwraps
      rw [Nat.succ_mul] at hfuel
      unfold findNcharLoop at hloop
      by_cases hmem : c ∈ cstring ccs
      swap
      · -- no hit
        rw [if_neg hmem] at hloop
        obtain rfl := Option.some.inj hloop
        apply scanNchar_miss
        · exact hmem
        · rw [List.drop_zero]
          omega
      rw [if_pos hmem] at hloop
      rcases @scanNchar_hit ccs c wraps fuel 0 hmem (by rw [List.drop_zero]; omega) with
        ⟨left, hleft, hrun⟩
      rw [List.drop_zero] at hleft
      rw [hrun]
      unfold scanNext
      -- a hit: the next candidate, or the next pass
      by_cases hlt : c < printableHigh
      · rw [if_pos hlt] at hloop ⊢
        rw [if_neg (UInt8.not_lt.mpr hwraps)]
        exact ih left (c + 1) wraps hwraps hloop (by omega)
      rw [if_neg hlt] at hloop ⊢
      have hsucc : (wraps + 1).toNat = wraps.toNat + 1 := by
        rw [UInt8.toNat_add]
        show (wraps.toNat + 1) % 256 = wraps.toNat + 1
        omega
      by_cases hwrap : wraps.toNat + 1 > 1
      · -- the second pass is over
        rw [if_pos hwrap] at hloop
        rw [if_pos (UInt8.lt_iff_toNat_lt.mpr (hsucc ▸ hwrap))]
        exact hloop
      · rw [if_neg hwrap] at hloop
        have hsmall : wraps + 1 ≤ 1 := UInt8.le_iff_toNat_le.mpr (by
          rw [hsucc]
          exact Nat.not_lt.mp hwrap)
        rw [if_neg (UInt8.not_lt.mpr hsmall)]
        rw [← hsucc] at hloop
        exact ih left printableLow (wraps + 1) hsmall hloop (by omega)

/-- A round ends with NUL, or with a printable character that the class
omits. -/
theorem findNcharLoop_result {ccs : List CChar} {r : CChar} : ∀ (fuel : Nat) (c : CChar)
    (wraps : Nat), 32 ≤ c.toInt → c.toInt ≤ 126 → findNcharLoop ccs fuel c wraps = some r →
    r = 0 ∨ (32 ≤ r.toInt ∧ r.toInt ≤ 126 ∧ r ∉ ccs) := by
  have hbounds := printable_bounds
  intro fuel
  induction fuel with
  | zero =>
      intro c wraps _ _ hloop
      cases hloop
  | succ fuel ih =>
      intro c wraps hlow hhigh hloop
      unfold findNcharLoop at hloop
      by_cases hmem : c ∈ ccs
      swap
      · rw [if_neg hmem] at hloop
        obtain rfl := Option.some.inj hloop
        exact Or.inr ⟨hlow, hhigh, hmem⟩
      rw [if_pos hmem] at hloop
      by_cases hlt : c < printableHigh
      · rw [if_pos hlt] at hloop
        rw [Int8.lt_iff_toInt_lt] at hlt
        have hsucc := toInt_succ (show c.toInt < 127 by omega)
        exact ih (c + 1) wraps (by omega) (by omega) hloop
      rw [if_neg hlt] at hloop
      by_cases hwrap : wraps + 1 > 1
      · rw [if_pos hwrap] at hloop
        exact Or.inl (Option.some.inj hloop).symm
      · rw [if_neg hwrap] at hloop
        exact ih printableLow (wraps + 1) (by omega) (by omega) hloop

/-- `find_nchar` is the scan, from a random candidate on. -/
theorem findNchar_scans {rand : Nat → Nat} {n n' : Nat} {r : CChar} (hccs : NoNul ccs)
    (h : findNchar rand n ccs = some (r, n')) :
    ∃ start : CChar, 32 ≤ start.toInt ∧ start.toInt ≤ 126 ∧
      scanNchar ccs (191 * (ccs.length + 1)) 0 start 0 = some r := by
  have hbounds := printable_bounds
  unfold findNchar at h
  rcases Option.bind_eq_some_iff.mp h with ⟨⟨start, m⟩, hrange, h⟩
  rcases Option.bind_eq_some_iff.mp h with ⟨r', hloop, h⟩
  obtain ⟨rfl, -⟩ := Prod.mk.inj (Option.some.inj h)
  have hstart := chr_range printableLow printableHigh (by decide) (by decide) hrange
  have hself := cstring_eq_self hccs
  refine ⟨Int8.ofNat start, by omega, by omega, ?_⟩
  refine scanNchar_rounds 191 _ _ 0 (by decide) (by rw [hself]; exact hloop) ?_
  rw [hself]

/-! ## The result -/

/-- From a printable candidate on, `find_nchar` ends. It returns NUL exactly
when the class string has every printable character, and otherwise a printable
character that is not in it. -/
theorem find_nchar_exact (ccs : List CChar) (c : CChar) (hlow : 32 ≤ c.toInt)
    (hhigh : c.toInt ≤ 126) :
    ∃ r, (∀ fuel, 191 * ((cstring ccs).length + 1) ≤ fuel → scanNchar ccs fuel 0 c 0 = some r) ∧
      (r = 0 ↔ ∀ d : CChar, 32 ≤ d.toInt → d.toInt ≤ 126 → d ∈ cstring ccs) ∧
      (r ≠ 0 → 32 ≤ r.toInt ∧ r.toInt ≤ 126 ∧ r ∉ cstring ccs) := by
  have hbounds := printable_bounds
  rcases findNcharLoop_finds (cstring ccs) 191 c 0 (by omega) hlow hhigh (by omega) with
    ⟨r, hloop, hahead⟩
  have hresult := findNcharLoop_result 191 c 0 hlow hhigh hloop
  refine ⟨r, ?_, ?_, ?_⟩
  · intro fuel hfuel
    exact scanNchar_rounds 191 fuel c 0 (by decide) hloop hfuel
  · constructor
    · intro hzero d hd1 hd2
      by_contra hd
      -- an omitted character lies ahead, and is found
      have homitted : Ahead (cstring ccs) c 0 := by
        refine ⟨d, ?_, ?_, hd, Or.inl rfl⟩
        · rw [Int8.le_iff_toInt_le]
          omega
        · rw [Int8.le_iff_toInt_le]
          omega
      exact (hahead homitted).2 hzero
    · intro hall
      rcases hresult with hzero | ⟨h1, h2, homits⟩
      · exact hzero
      · exact absurd (hall r h1 h2) homits
  · intro hne
    exact hresult.resolve_left hne

theorem find_nchar_wraps : ∃ r, (∀ fuel, 191 * ((cstring [125, 126, 125]).length + 1) ≤ fuel →
      scanNchar [125, 126, 125] fuel 0 125 0 = some r) ∧
    (r = 0 ↔ ∀ d : CChar, 32 ≤ d.toInt → d.toInt ≤ 126 → d ∈ cstring [125, 126, 125]) ∧
    (r ≠ 0 → 32 ≤ r.toInt ∧ r.toInt ≤ 126 ∧ r ∉ cstring [125, 126, 125]) :=
  find_nchar_exact [125, 126, 125] 125 (by decide) (by decide)

end

end Rxvm
