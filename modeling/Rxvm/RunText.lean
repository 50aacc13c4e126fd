import Rxvm.Instructions
import Rxvm.Lexemes
import Rxvm.SimpleSpec

/-!
# Rxvm.RunText — runs of literals

The text of the literals the counters of `lfix.c` delimit, and what
`lfix_to_str` reads of it. `lp1` points at the character of an escape, so a run
starts with a character that is taken as it is; only the literals at the start
of the expression are counted from the beginning of their text.
-/

namespace Rxvm

/-! ## The text of a run -/

/-- The characters that stand in the text from the start of a run on. -/
def runText (text : List CChar) (a : Nat) : List CChar :=
  if a = 0 then unescape text else at' text a :: unescape (text.drop (a + 1))

/-- How many characters `lfix_to_str` takes of a run. -/
def LfixStatics.runLength (l : LfixStatics) : Nat := (i32 l.ltempn + 1 - i32 l.ltemp0).toNat

/-- The characters of the run. -/
def LfixStatics.run (text : List CChar) (l : LfixStatics) : List CChar :=
  (runText text l.ltemp0).take l.runLength

/-- From `a` to `k` the text is a run of literals. -/
def RunAt (text : List CChar) (k a : Nat) (chars : List CChar) : Prop :=
  if a = 0 then Literals text k 0 chars
  else ∃ w, chars = at' text a :: w ∧ Literals text k (a + 1) w

/-- From `k` to `j` there is one literal, whose character is at `lp1`. -/
inductive LiteralAt (text : List CChar) (k : Nat) : Nat → Nat → Prop
  | plain (h0 : at' text k ≠ 0) (hderef : at' text k ≠ derefSym) : LiteralAt text k (k + 1) k
  | escaped (hderef : at' text k = derefSym) (hnull : at' text (k + 1) ≠ 0) :
      LiteralAt text k (k + 2) (k + 1)

section

variable {text chars w : List CChar} {k n a j lp1 : Nat} {l : LexStatics}

/-! ## The lexer -/

theorem lexLiteral_mode : (lexLiteral text k l).2.2.literal = l.literal ∧
    (lexLiteral text k l).1 ≠ .charcOpen ∧ (lexLiteral text k l).1 ≠ .charcClose ∧
      (lexLiteral text k l).1 ≠ .rep := by
  unfold lexLiteral lexRange
  simp only
  split_ifs <;> simp [lexEnd]

/-- Where a literal outside a class has been read. -/
theorem lex_literalAt (hl : l.literal = false) (h : (lex text k l).1 = .literal) :
    LiteralAt text k (lex text k l).2.1 (lex text k l).2.2.lp1 := by
  have hcase := lex_cases text k l
  generalize lex text k l = r at hcase h ⊢
  cases hcase with
  | escaped hderef hnull =>
      rcases @lexLiteral_outside text (k + 1) { l with lp1 := k + 1 } hl with ⟨seen, heq⟩
      rw [heq]
      exact .escaped hderef hnull
  | plain _ _ h0 hderef =>
      rcases @lexLiteral_outside text k { l with lp1 := k } hl with ⟨seen, heq⟩
      rw [heq]
      exact .plain h0 hderef
  | inside hlit =>
      rw [hl] at hlit
      cases hlit
  | symbol _ tok hmeta =>
      obtain rfl : tok = .literal := h
      exact absurd hmeta metaTok_ne_literal
  | eos => cases h
  | trail => cases h
  | close => cases h
  | rep => cases h
  | badRep => cases h
  | invalid => cases h

/-- A count starts where its token is read. -/
theorem lex_rep_lp1 (h : (lex text k l).1 = .rep) : (lex text k l).2.2.lp1 = k := by
  have hcase := lex_cases text k l
  generalize lex text k l = r at hcase h ⊢
  cases hcase with
  | escaped => exact absurd h lexLiteral_mode.2.2.2
  | inside => exact absurd h lexLiteral_mode.2.2.2
  | plain => exact absurd h lexLiteral_mode.2.2.2
  | symbol =>
      unfold lexEnd
      split <;> rfl
  | rep => rfl
  | eos => cases h
  | trail => cases h
  | close => cases h
  | badRep => cases h
  | invalid => cases h

theorem metaTok_tok {c : CChar} {tok : Tok} (h : metaTok c = some tok) :
    tok ≠ .charcClose ∧ tok ≠ .charRange ∧ tok ≠ .invalidsym ∧
      (tok = .charcOpen ↔ c = charcOpenSym) := by
  have hall : ∀ p ∈ metaTable, p.2 ≠ .charcClose ∧ p.2 ≠ .charRange ∧ p.2 ≠ .invalidsym ∧
      (p.2 = .charcOpen ↔ p.1 = charcOpenSym) := by decide +kernel
  exact hall _ (mem_metaTable h)

/-- The lexer changes its mode with `[` and `]`, and outside a class there are
no ranges. -/
theorem lex_mode (herr : ∀ e, (lex text k l).1 ≠ .error e) :
    (lex text k l).2.2.literal = (if (lex text k l).1 = .charcOpen then true
      else if (lex text k l).1 = .charcClose then false else l.literal) ∧
    (l.literal = false → (lex text k l).1 ≠ .charRange ∧ (lex text k l).1 ≠ .invalidsym) := by
  have hcase := lex_cases text k l
  generalize lex text k l = r at hcase herr ⊢
  -- a literal leaves the mode as it is
  have hkeep : ∀ j l', l'.literal = l.literal →
      (lexLiteral text j l').2.2.literal = (if (lexLiteral text j l').1 = .charcOpen then true
        else if (lexLiteral text j l').1 = .charcClose then false else l.literal) ∧
      (l.literal = false → (lexLiteral text j l').1 ≠ .charRange ∧
        (lexLiteral text j l').1 ≠ .invalidsym) := by
    intro j l' hl'
    rcases @lexLiteral_mode text j l' with ⟨hlit, hopen, hclose, _⟩
    refine ⟨by rw [if_neg hopen, if_neg hclose, hlit, hl'], ?_⟩
    intro hl
    rcases @lexLiteral_outside text j l' (hl'.trans hl) with ⟨seen, heq⟩
    rw [heq]
    simp
  cases hcase with
  | eos => exact ⟨rfl, by simp⟩
  | trail => exact absurd rfl (herr _)
  | escaped => exact hkeep _ _ rfl
  | close => exact ⟨rfl, by simp [lexEnd]⟩
  | inside => exact hkeep _ _ rfl
  | rep => exact ⟨rfl, by simp [lexEnd]⟩
  | badRep => exact absurd rfl (herr _)
  | symbol hlit tok hmeta =>
      rcases metaTok_tok hmeta with ⟨hclose, hrange, hinvalid, hopen⟩
      refine ⟨?_, fun _ => ⟨hrange, hinvalid⟩⟩
      by_cases hc : at' text k = charcOpenSym
      · simp [lexEnd, hopen.mpr hc, hc]
      · simp [lexEnd, mt hopen.mp hc, hclose, hc]
  | plain => exact hkeep _ _ rfl
  | invalid => exact absurd rfl (herr _)

/-! ## Literals one after the other -/

theorem Literals.concat (h : Literals text k a w) (hlit : LiteralAt text k j lp1) :
    Literals text j a (w ++ [at' text lp1]) := by
  induction h with
  | done =>
      cases hlit with
      | plain h0 hderef => exact .plain h0 hderef .done
      | escaped hderef hnull => exact .escaped hderef hnull .done
  | plain h0 hderef _ ih => exact .plain h0 hderef ih
  | escaped hderef hnull _ ih => exact .escaped hderef hnull ih

theorem Literals.length_le (h : Literals text n k w) : k + w.length ≤ n := by
  induction h with
  | done => exact Nat.le_refl _
  | plain _ _ _ ih =>
      rw [List.length_cons]
      omega
  | escaped _ _ _ ih =>
      rw [List.length_cons]
      omega

/-- The first literal of a run. -/
theorem RunAt.single (hlit : LiteralAt text k j lp1) : RunAt text j lp1 [at' text lp1] := by
  unfold RunAt
  cases hlit with
  | plain h0 hderef =>
      split_ifs with hk
      · rw [hk] at h0 hderef ⊢
        exact .plain h0 hderef .done
      · exact ⟨[], rfl, .done⟩
  | escaped =>
      rw [if_neg (Nat.succ_ne_zero k)]
      exact ⟨[], rfl, .done⟩

/-- The next literal of a run. -/
theorem RunAt.concat (h : RunAt text k a chars) (hlit : LiteralAt text k j lp1) :
    RunAt text j a (chars ++ [at' text lp1]) := by
  unfold RunAt at h ⊢
  split_ifs at h ⊢ with ha
  · exact h.concat hlit
  · rcases h with ⟨w, rfl, hw⟩
    exact ⟨_, rfl, hw.concat hlit⟩

theorem RunAt.length_le (h : RunAt text k a chars) : a + chars.length ≤ k := by
  unfold RunAt at h
  split_ifs at h with ha
  · have := h.length_le
    omega
  · rcases h with ⟨w, rfl, hw⟩
    have := hw.length_le
    rw [List.length_cons]
    omega

/-! ## Reading the run again -/

theorem drop_eq_cons (h : at' text k ≠ 0) : text.drop k = at' text k :: text.drop (k + 1) := by
  have hget := getElem?_of_at'_ne_zero h
  rw [List.drop_eq_getElem?_toList_append, hget]
  rfl

/-- The characters of the literals come first in the text from there on. -/
theorem Literals.unescape_drop (h : Literals text n k w) :
    unescape (text.drop k) = w ++ unescape (text.drop n) := by
  induction h with
  | done => rfl
  | plain h0 hderef _ ih => rw [drop_eq_cons h0, unescape_cons hderef, ih, List.cons_append]
  | @escaped k w hderef hnull _ ih =>
      have h0 : at' text k ≠ 0 := by
        rw [hderef]
        decide
      rw [drop_eq_cons h0, hderef, drop_eq_cons hnull, unescape_deref, ih, List.cons_append]

/-- Literals are read in the text up to their end as well. -/
theorem Literals.take (h : Literals text n k w) : Literals (text.take n) n k w := by
  induction h with
  | done => exact .done
  | plain h0 hderef rest ih =>
      have hlt := rest.le
      rw [← @at'_take text n _ (by omega)] at h0 hderef ⊢
      exact .plain h0 hderef ih
  | escaped hderef hnull rest ih =>
      have hlt := rest.le
      rw [← @at'_take text n _ (by omega)] at hderef
      rw [← @at'_take text n _ (by omega)] at hnull ⊢
      exact .escaped hderef hnull ih

theorem RunAt.runText (h : RunAt text k a chars) : chars <+: runText text a := by
  unfold RunAt at h
  unfold Rxvm.runText
  split_ifs at h ⊢ with ha
  · have hdrop := h.unescape_drop
    rw [List.drop_zero] at hdrop
    rw [hdrop]
    exact List.prefix_append _ _
  · rcases h with ⟨w, rfl, hw⟩
    rw [hw.unescape_drop]
    exact (List.prefix_cons_inj _).mpr (List.prefix_append _ _)

theorem RunAt.runText_take (h : RunAt text k a chars) : Rxvm.runText (text.take k) a = chars := by
  have hend : (text.take k).drop k = [] := List.drop_eq_nil_of_le (by simp)
  unfold RunAt at h
  unfold Rxvm.runText
  split_ifs at h ⊢ with ha
  · have hdrop := h.take.unescape_drop
    rw [List.drop_zero, hend] at hdrop
    rw [hdrop]
    exact List.append_nil _
  · rcases h with ⟨w, rfl, hw⟩
    have hlt := hw.le
    rw [hw.take.unescape_drop, hend, at'_take (by omega)]
    exact congrArg _ (List.append_nil _)

/-! ## lfix_to_str -/

theorem lfixToStrLoop_nil (text : List CChar) {i fin : Int} (h : fin < i) :
    lfixToStrLoop text i fin = [] := by
  cases text with
  | nil => exact if_neg (by omega)
  | cons c rest => exact if_neg (by omega)

theorem cstring_cons_congr (c : CChar) {u v : List CChar} (h : cstring u = cstring v) :
    cstring (c :: u) = cstring (c :: v) := by
  unfold cstring at h ⊢
  rw [List.takeWhile_cons, List.takeWhile_cons, h]

/-- Where no backslash is to be copied, the loop of `lfix_to_str` leaves out
those of the escapes only. -/
theorem lfixToStrLoop_eq (text : List CChar) : ∀ (i : Int) (n : Nat),
    derefSym ∉ (unescape text).take n →
    cstring (lfixToStrLoop text i (i + n - 1)) = cstring ((unescape text).take n) := by
  -- by induction on the text as `unescape` reads it
  induction text using unescape.induct with
  | case1 =>
      intro i n _
      cases n with
      | zero => rw [lfixToStrLoop_nil _ (by omega)]; rfl
      | succ n => rw [lfixToStrLoop, if_pos (by omega)]; rfl
  | case2 =>
      intro i n _
      cases n with
      | zero => rw [lfixToStrLoop_nil _ (by omega)]; rfl
      | succ n =>
          rw [lfixToStrLoop, if_pos (by omega), if_pos rfl, lfixToStrLoop, if_pos (by omega)]
          cases n <;> rfl
  | case3 d rest ih =>
      intro i n hmem
      rw [unescape_deref] at hmem ⊢
      cases n with
      | zero => rw [lfixToStrLoop_nil _ (by omega)]; rfl
      | succ n =>
          rw [List.take_succ_cons, List.mem_cons, not_or] at hmem
          rw [lfixToStrLoop, if_pos (by omega), if_pos rfl, lfixToStrLoop, if_pos (by omega),
            if_neg (Ne.symm hmem.1), List.take_succ_cons]
          apply cstring_cons_congr
          rw [← ih (i + 1 + 1) n hmem.2,
            show i + ((n + 1 : Nat) : Int) - 1 + 1 = i + 1 + 1 + n - 1 by omega]
  | case4 c rest hc ih =>
      intro i n hmem
      rw [unescape_cons hc] at hmem ⊢
      cases n with
      | zero => rw [lfixToStrLoop_nil _ (by omega)]; rfl
      | succ n =>
          rw [List.take_succ_cons, List.mem_cons, not_or] at hmem
          rw [lfixToStrLoop, if_pos (by omega), if_neg hc, List.take_succ_cons]
          apply cstring_cons_congr
          rw [← ih (i + 1) n hmem.2,
            show i + ((n + 1 : Nat) : Int) - 1 = i + 1 + n - 1 by omega]

/-- The string of a run without a backslash. -/
theorem lfixToStr_run {l : LfixStatics} (h : derefSym ∉ l.run text) :
    lfixToStr text l.ltemp0 l.ltempn = cstring (l.run text) := by
  unfold lfixToStr
  -- an empty run
  by_cases hlt : i32 l.ltempn < i32 l.ltemp0
  · have hzero : l.runLength = 0 := by
      unfold LfixStatics.runLength
      omega
    rw [lfixToStrLoop_nil _ hlt, LfixStatics.run, hzero, List.take_zero]
  obtain ⟨n, hn⟩ : ∃ n, l.runLength = n + 1 := by
    refine ⟨l.runLength - 1, ?_⟩
    unfold LfixStatics.runLength
    omega
  have hfin : i32 l.ltempn = i32 l.ltemp0 + ((n + 1 : Nat) : Int) - 1 := by
    unfold LfixStatics.runLength at hn
    omega
  rw [hfin]
  unfold LfixStatics.run runText at h ⊢
  rw [hn] at h ⊢
  -- at the start of the text the run may begin with a backslash
  by_cases ha : l.ltemp0 = 0
  · rw [if_pos ha] at h ⊢
    rw [ha, List.drop_zero]
    exact lfixToStrLoop_eq text _ _ h
  · rw [if_neg ha] at h ⊢
    rw [List.take_succ_cons, List.mem_cons, not_or] at h
    rw [List.take_succ_cons]
    cases hd : text.drop l.ltemp0 with
    | nil =>
        rw [lfixToStrLoop, if_pos (by omega), at'_of_drop_nil hd]
        simp [cstring]
    | cons c rest =>
        rw [at'_of_drop hd, drop_succ_of_drop hd] at h ⊢
        rw [lfixToStrLoop, if_pos (by omega), if_neg (Ne.symm h.1)]
        apply cstring_cons_congr
        rw [← lfixToStrLoop_eq rest (i32 l.ltemp0 + 1) n h.2,
          show i32 l.ltemp0 + ((n + 1 : Nat) : Int) - 1 = i32 l.ltemp0 + 1 + n - 1 by omega]

end

end Rxvm
