import Rxvm.CompileSpec
import Rxvm.LexSpec
import Rxvm.SearchSpec
import Rxvm.SimpleSpec

/-!
# Rxvm.Leftmost — whether rxvm_search finds the leftmost match

Both ways of searching go on where the last attempt failed, and not behind
the position it started at. So a match is found if an attempt is made where it
starts, and missed if a failed attempt has passed it by.
-/

namespace Rxvm

open Relation

/-- A substring of the input that starts at `i` is matched by the expression:
by its literals, or by its program. -/
def MatchedAt (compiled : Compiled) (s : List CChar) (i : Nat) : Prop :=
  i ≤ s.length ∧
    match compiled.simple with
    | some text => unescape text <+: s.drop i
    | none => ∃ j, Accepts false false s compiled.exe i j

/-- `i` is where the leftmost match starts. -/
def LeastMatched (compiled : Compiled) (s : List CChar) (i : Nat) : Prop :=
  MatchedAt compiled s i ∧ ∀ k < i, ¬ MatchedAt compiled s k

/-- The search makes an attempt at `i`, which matches. -/
def Tried (compiled : Compiled) (s : List CChar) (i : Nat) : Prop :=
  match compiled.simple with
  | some text => ∃ a, ReflTransGen (LitNext text s) (0, unescape text) a ∧ a.1 = i ∧ LitMatched s a
  | none => Attempted false false s compiled.exe i

/-- The result of a complete search for the leftmost match. -/
structure Leftmost (compiled : Compiled) (s : List CChar) (result : SearchResult) : Prop where
  found : ∀ i, LeastMatched compiled s i → result.ret = 1 ∧ result.start = some (i : Int)
  missing : (∀ i, ¬ MatchedAt compiled s i) → result = { ret := 0, start := none, fin := none }

section

variable {compiled : Compiled} {s : List CChar} {tm : Threads}

theorem searchResult_found (h : tm.matchEnd ≠ 0) :
    (searchResult tm).ret = 1 ∧ (searchResult tm).start = some (tm.matchStart : Int) := by
  unfold searchResult
  rw [if_neg h]
  exact ⟨rfl, rfl⟩

theorem searchResult_missing (h : tm.matchEnd = 0) :
    searchResult tm = { ret := 0, start := none, fin := none } := if_pos h

/-- A search that stops at a match, if at all, is complete exactly if it tries
the leftmost one. -/
theorem leftmost_iff_tried
    (hfound : tm.matchEnd ≠ 0 → ∃ i, MatchedAt compiled s i)
    (hstart : ∀ i, LeastMatched compiled s i →
      (Tried compiled s i ↔ tm.matchEnd ≠ 0 ∧ tm.matchStart = i)) :
    Leftmost compiled s (searchResult tm) ↔
      ∀ i, LeastMatched compiled s i → Tried compiled s i := by
  constructor
  · intro h i hi
    rcases h.found i hi with ⟨hret, hpos⟩
    have hend : tm.matchEnd ≠ 0 := by
      intro h0
      rw [searchResult_missing h0] at hret
      cases hret
    refine (hstart i hi).mpr ⟨hend, ?_⟩
    rw [(searchResult_found hend).2] at hpos
    simpa using hpos
  · intro h
    refine ⟨?_, ?_⟩
    · intro i hi
      rcases (hstart i hi).mp (h i hi) with ⟨hend, rfl⟩
      exact searchResult_found hend
    · intro hnone
      apply searchResult_missing
      by_contra hend
      rcases hfound hend with ⟨i, hi⟩
      exact hnone i hi

/-! ## Programs -/

theorem matched_iff_accepts {icase ml : Bool} {exe : List Inst} {i j : Nat} :
    Matched icase ml s exe i j ↔ Accepts icase ml s exe i j := Iff.rfl

/-- The search of `vm_execute`. -/
theorem leftmost_program (hprogram : compiled.simple = none)
    (hout : SearchOutcome false false s compiled.exe 0 tm) :
    Leftmost compiled s (searchResult tm) ↔
      ∀ i, LeastMatched compiled s i → Tried compiled s i := by
  have hmatched : ∀ i, MatchedAt compiled s i ↔
      i ≤ s.length ∧ ∃ j, Matched false false s compiled.exe i j := by
    intro i
    unfold MatchedAt
    rw [hprogram]
    rfl
  have htried : ∀ i, Tried compiled s i ↔ Attempted false false s compiled.exe i := by
    intro i
    unfold Tried
    rw [hprogram]
  refine leftmost_iff_tried ?_ ?_
  · intro hend
    rcases hout with ⟨r, q, hpath, hm, _⟩ | ⟨h0, _⟩
    · exact ⟨r, (hmatched r).mpr ⟨Attempted.le_length hpath, q, hm⟩⟩
    · exact absurd h0 hend
  · intro i hi
    rcases (hmatched i).mp hi.1 with ⟨_, j, hij⟩
    rw [htried]
    -- the search has ended at the one attempt that matches, or at none
    rcases hout with ⟨r, q, hpath, hm, _, hstart, hend⟩ | ⟨h0, hall⟩
    · rw [hstart, hend]
      constructor
      · intro hat
        exact ⟨Nat.succ_ne_zero q, attempted_matched_unique hpath hm hat hij⟩
      · rintro ⟨_, rfl⟩
        exact hpath
    · constructor
      · intro hat
        exact absurd hij (hall i j hat)
      · rintro ⟨hend, _⟩
        exact absurd h0 hend

/-! ## Literals -/

/-- The search of `simple_match`. -/
theorem leftmost_simple {text : List CChar} (hsimple : compiled.simple = some text)
    (hesc : escapesClosed text = true) (hs : NoNul s)
    (hout : LitOutcome text s (0, unescape text) tm) :
    Leftmost compiled s (searchResult tm) ↔
      ∀ i, LeastMatched compiled s i → Tried compiled s i := by
  have hmatched : ∀ i, MatchedAt compiled s i ↔ i ≤ s.length ∧ unescape text <+: s.drop i := by
    intro i
    unfold MatchedAt
    rw [hsimple]
  have htried : ∀ i, Tried compiled s i ↔
      ∃ a, ReflTransGen (LitNext text s) (0, unescape text) a ∧ a.1 = i ∧ LitMatched s a := by
    intro i
    unfold Tried
    rw [hsimple]
  refine leftmost_iff_tried ?_ ?_
  · intro hend
    rcases hout with ⟨a, hpath, hm, _⟩ | ⟨h0, _⟩
    · rcases litAttempt_string hpath with ⟨hle, hstring | hstring⟩
      · refine ⟨a.1, (hmatched _).mpr ⟨hle, ?_⟩⟩
        rw [← hstring]
        exact hm
      · cases htext : text with
        | nil =>
            refine ⟨a.1, (hmatched _).mpr ⟨hle, ?_⟩⟩
            rw [htext]
            exact List.nil_prefix
        | cons c rest =>
            -- a resumed attempt may have matched one character early
            rw [LitMatched, hstring] at hm
            have hne : rawPattern text ≠ [] := List.cons_ne_nil _ _
            have hlt : a.1 < s.length := by
              by_contra hge
              rw [List.drop_eq_nil_of_le (by omega)] at hm
              exact hne (List.prefix_nil.mp hm)
            rcases rawPattern_matched hesc (by simp [htext]) hs hm with h | h
            · exact ⟨a.1, (hmatched _).mpr ⟨hle, h⟩⟩
            · exact ⟨a.1 + 1, (hmatched _).mpr ⟨hlt, h⟩⟩
    · exact absurd h0 hend
  · intro i hi
    rw [htried]
    -- as for a program, with the attempts of `simple_match`
    rcases hout with ⟨a, hpath, hm, hstart, hend⟩ | ⟨h0, hall⟩
    · rw [hstart, hend]
      constructor
      · rintro ⟨b, hpath', rfl, hm'⟩
        exact ⟨Nat.succ_ne_zero _, by rw [litMatched_unique hpath hm hpath' hm']⟩
      · rintro ⟨_, rfl⟩
        exact ⟨a, hpath, rfl, hm⟩
    · constructor
      · rintro ⟨b, hpath', _, hm'⟩
        exact absurd hm' (hall b hpath')
      · rintro ⟨hend, _⟩
        exact absurd h0 hend

/-- The escapes of an expression of literals are complete. -/
theorem literalLoop_escapes {text : List CChar} : ∀ {fuel input : Nat} {simple : Option Nat}
    {cp : Context} {input' : Nat} {simple' : Option Nat} {cp' : Context},
    literalLoop text fuel input simple cp = .ok (input', simple', cp') → cp'.tok = .eos →
    cp.statics.lex.literal = false → escapesClosed (cstring (text.drop input)) = true := by
  intro fuel
  -- by induction on the literals that are left
  induction fuel with
  | zero =>
      intro input simple cp input' simple' cp' h
      cases h
  | succ fuel ih =>
      intro input simple cp input' simple' cp' h heos hl
      by_cases htok : (lexInto text input cp).2.tok = .literal
      · rw [literalLoop_literal htok] at h
        rcases lex_literal hl htok with ⟨hl', ⟨hderef, hnull, hnext⟩ | ⟨hderef, h0, hnext⟩⟩
        · have hrest := ih h heos hl'
          have hinput : (lexInto text input cp).1 = input + 2 := hnext
          rw [hinput] at hrest
          rw [cstring_drop_of_ne (by rw [hderef]; decide), hderef, cstring_drop_of_ne hnull,
            escapesClosed.eq_def]
          exact (if_pos rfl).trans hrest
        · have hrest := ih h heos hl'
          have hinput : (lexInto text input cp).1 = input + 1 := hnext
          rw [hinput] at hrest
          rw [cstring_drop_of_ne h0, escapesClosed.eq_def]
          exact (if_neg hderef).trans hrest
      · rw [literalLoop_other htok] at h
        cases h
        rw [cstring_drop_of_eq (lex_eos heos).1]
        rfl

/-- The literals `rxvm_compile` stores. -/
theorem rxvmCompile_simple {g g' : Statics} {exp text : List CChar}
    (h : rxvmCompile g exp = .ok (.ok compiled, g')) (hsimple : compiled.simple = some text) :
    text = cstring exp ∧ escapesClosed text = true := by
  rcases rxvmCompile_literals h hsimple with ⟨rfl, ⟨_, _, _, hloop, heos⟩, _⟩
  exact ⟨rfl, literalLoop_escapes hloop heos rfl⟩

/-- `rxvm_search` finds the leftmost match exactly if it makes an attempt
there. -/
theorem rxvmSearch_leftmost_iff {g g' : Statics} {exp : List CChar}
    (h : rxvmCompile g exp = .ok (.ok compiled, g')) (hs : NoNul s) :
    ∃ result, rxvmSearch compiled s {} = some result ∧
      (Leftmost compiled s result ↔ ∀ i, LeastMatched compiled s i → Tried compiled s i) := by
  cases hsimple : compiled.simple with
  | some text =>
      rcases rxvmCompile_simple h hsimple with ⟨rfl, hesc⟩
      rcases simpleMatch_search (noNul_cstring exp) hs {} rfl with ⟨res, hres, hout⟩
      refine ⟨searchResult res.2.tm, ?_, leftmost_simple hsimple hesc hs hout⟩
      unfold rxvmSearch
      simp only [hsimple, hres]
      rfl
  | none =>
      rcases rxvmCompile_program h hsimple with ⟨_, _, _, _, _, _, _, _, _, _, hok, _⟩
      rcases vmExecute_search hok.wellFormed hs {} rfl with ⟨res, hres, hout⟩
      refine ⟨searchResult res.2.tm, ?_, leftmost_program hsimple hout⟩
      unfold rxvmSearch
      simp only [hsimple, hres]
      rfl

/-- The expression `ab` and the input `xab`. -/
theorem rxvmSearch_leftmost_iff_ab : ∃ compiled g' result,
    rxvmCompile Statics.init [97, 98] = .ok (.ok compiled, g') ∧
      rxvmSearch compiled [120, 97, 98] {} = some result ∧
      (Leftmost compiled [120, 97, 98] result ↔
        ∀ i, LeastMatched compiled [120, 97, 98] i → Tried compiled [120, 97, 98] i) := by
  have h : ∃ compiled g', rxvmCompile Statics.init [97, 98] = .ok (.ok compiled, g') := ⟨_, _, rfl⟩
  rcases h with ⟨compiled, g', h⟩
  rcases rxvmSearch_leftmost_iff (s := [120, 97, 98]) h (by decide) with ⟨result, hrun, hiff⟩
  exact ⟨compiled, g', result, h, hrun, hiff⟩

/-- The expression `aab` is not found in `aaab`: the first attempt fails at
position 2, and the second one starts there. -/
theorem rxvmSearch_misses : ∃ compiled g' result,
    rxvmCompile Statics.init [97, 97, 98] = .ok (.ok compiled, g') ∧
      rxvmSearch compiled [97, 97, 97, 98] {} = some result ∧
      ¬ Leftmost compiled [97, 97, 97, 98] result := by
  refine ⟨_, _, _, rfl, rfl, ?_⟩
  intro h
  have hmatched : LeastMatched
      { exe := [], simple := some [97, 97, 98], lfix := some [97, 97, 98], lfix0 := 0, lfixn := 2 }
      [97, 97, 97, 98] 1 := by
    refine ⟨⟨by decide, by decide⟩, ?_⟩
    intro k hk
    obtain rfl : k = 0 := Nat.lt_one_iff.mp hk
    rintro ⟨_, hprefix⟩
    revert hprefix
    decide
  have hret := (h.found 1 hmatched).1
  cases hret

end

end Rxvm
