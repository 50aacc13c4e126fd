import Rxvm.Lexemes
import Rxvm.Operators
import Rxvm.RunText

/-!
# Rxvm.Counts — the numbers of a repetition

The lexer takes `{`, digits, at most one comma and digits, and `}`; it puts no
bound on the digits. `parse_rep` adds them up in an `int`, where -1 and -2 mark
the fields that are absent, and `process_op_rep` tells the cases apart by the
signs.
-/

namespace Rxvm

/-- From `k` on the text goes on with a count. -/
def CountAt (text : List CChar) (k : Nat) (reps : Reps) : Prop :=
  ∃ post, text.drop k = (Lexeme.rep reps).text ++ post

/-- The branch of `process_op_rep` a count is written for. -/
def Reps.written (cp : Context) (size : Nat) (i : Option ItemId) : Reps → Coded
  | .repN n => codeRepN cp n.value i
  | .repRange n m => codeRepRange cp n.value m.value size i
  | .repMore n =>
    if n.value = 0 then do
      let (err, cp) ← codeZero cp size i
      return (err, if err = none then cp.lfixDec else cp)
    else codeRepMore cp n.value size i
  | .repLess m => do
    let (err, cp) ← codeRepLess cp m.value size i
    return (err, if err = none then cp.lfixDec else cp)

/-- `process_op_rep` has reported an error, or has put code on the target. -/
def EmitsOrFails (cp : Context) (live : Set StackId) (stk : StackId → Stk) (run : Coded) : Prop :=
  run = .ok (some .badop, cp) ∨
    ∃ code cp', code ≠ [] ∧ run = .ok (none, cp') ∧ Arrived cp live stk code cp'.mem

/-- The token is read exactly: the fields are those that are written, with no
signed overflow, and `process_op_rep` takes the branch that is written and emits
code or fails. -/
structure ReadExactly (text : List CChar) (l : LexStatics) (reps : Reps) : Prop where
  fields : parseRep text l.lp1 l.lpn = reps.fields
  noOverflow : parseRepChecked text l.lp1 l.lpn = some reps.fields
  selects : ∀ cp size i, processOpRep cp (parseRep text l.lp1 l.lpn).1
    (parseRep text l.lp1 l.lpn).2 size i = reps.written cp size i
  emits : ∀ cp live ids stk rest e, Moving cp live ids stk rest e →
    EmitsOrFails cp live stk (processOpRep cp (parseRep text l.lp1 l.lpn).1
      (parseRep text l.lp1 l.lpn).2 e.length rest.head?)

section

variable {text rest : List CChar} {k j : Nat} {first prev : CChar} {g : LexStatics}

/-! ## The tokens the lexer takes -/

/-- One character of a count: the closing brace, a first comma, or a digit. -/
inductive RepStep (first c prev : CChar) (rest : List CChar) (comma : Bool) (k j : Nat) : Prop
  | close (hc : c = repCloseSym) (hj : j = k + 1)
      (hdigit : isdigit prev = true ∨ isdigit first = true)
  | comma (hc : c = commaSym) (hcomma : comma = false)
      (h : lexRep first rest commaSym true (k + 1) = (.rep, j))
  | digit (hc : isdigit c = true) (h : lexRep first rest c comma (k + 1) = (.rep, j))

theorem lexRep_step {c : CChar} {comma : Bool}
    (h : lexRep first (c :: rest) prev comma k = (.rep, j)) :
    RepStep first c prev rest comma k j := by
  unfold lexRep at h
  by_cases h0 : c = 0
  · rw [if_pos h0] at h
    cases h
  -- the brace that ends the count: there is a digit at one of its ends
  by_cases hclose : c = repCloseSym
  · rw [if_neg h0, if_pos hclose] at h
    by_cases hmrep : (!isdigit prev && !isdigit first) = true
    · rw [if_pos hmrep] at h
      cases h
    · rw [if_neg hmrep] at h
      refine .close hclose (congrArg Prod.snd h).symm ?_
      by_contra hnone
      push Not at hnone
      exact hmrep (by simp [hnone.1, hnone.2])
  by_cases hcomma : c = commaSym
  · rw [if_neg h0, if_neg hclose, if_pos hcomma] at h
    -- a second comma is an error
    cases comma with
    | true => cases h
    | false => exact .comma hcomma rfl (hcomma ▸ h)
  · rw [if_neg h0, if_neg hclose, if_neg hcomma] at h
    by_cases hdigit : (!isdigit c) = true
    · rw [if_pos hdigit] at h
      cases h
    · rw [if_neg hdigit] at h
      exact .digit (by simpa using hdigit) h

theorem all_digits_cons {c : CChar} {digits : List CChar} (hc : isdigit c = true)
    (h : ∀ d ∈ digits, isdigit d = true) : ∀ d ∈ c :: digits, isdigit d = true := by
  rintro d (_ | ⟨_, hd⟩)
  · exact hc
  · exact h d hd

/-- Behind the comma a count goes on with digits. -/
theorem lexRep_behind_comma : ∀ {rest : List CChar} {prev : CChar} {k : Nat},
    lexRep first rest prev true k = (.rep, j) →
    ∃ digits post, rest = digits ++ repCloseSym :: post ∧ (∀ d ∈ digits, isdigit d = true) ∧
      (digits = [] → isdigit prev = true ∨ isdigit first = true) := by
  intro rest
  induction rest with
  | nil =>
      intro prev k h
      cases h
  | cons c rest ih =>
      intro prev k h
      rcases lexRep_step h with ⟨rfl, _, hdigit⟩ | ⟨_, hcomma, _⟩ | ⟨hc, hrest⟩
      · exact ⟨[], rest, rfl, by simp, fun _ => hdigit⟩
      · cases hcomma
      · rcases ih hrest with ⟨digits, post, rfl, hdigits, _⟩
        exact ⟨c :: digits, post, rfl, all_digits_cons hc hdigits, fun hnil => by cases hnil⟩

/-- In front of the comma, or without one. -/
theorem lexRep_count : ∀ {rest : List CChar} {prev : CChar} {k : Nat},
    lexRep first rest prev false k = (.rep, j) →
    ∃ digits, (∀ d ∈ digits, isdigit d = true) ∧
      ((∃ post, rest = digits ++ repCloseSym :: post ∧
          (digits = [] → isdigit prev = true ∨ isdigit first = true)) ∨
        ∃ digits' post, rest = digits ++ commaSym :: (digits' ++ repCloseSym :: post) ∧
          (∀ d ∈ digits', isdigit d = true) ∧ (digits' = [] → isdigit first = true)) := by
  intro rest
  induction rest with
  | nil =>
      intro prev k h
      cases h
  | cons c rest ih =>
      intro prev k h
      rcases lexRep_step h with ⟨rfl, _, hdigit⟩ | ⟨rfl, _, hrest⟩ | ⟨hc, hrest⟩
      · exact ⟨[], by simp, Or.inl ⟨rest, rfl, fun _ => hdigit⟩⟩
      · rcases lexRep_behind_comma hrest with ⟨digits', post, rfl, hdigits', hfirst⟩
        refine ⟨[], by simp, Or.inr ⟨digits', post, rfl, hdigits', ?_⟩⟩
        intro hnil
        rcases hfirst hnil with hd | hd
        · -- the comma is no digit
          cases hd
        · exact hd
      · rcases ih hrest with ⟨digits, hdigits, ⟨post, rfl, _⟩ |
          ⟨digits', post, rfl, hdigits', hfirst⟩⟩
        · exact ⟨c :: digits, all_digits_cons hc hdigits,
            Or.inl ⟨post, rfl, fun hnil => by cases hnil⟩⟩
        · exact ⟨c :: digits, all_digits_cons hc hdigits,
            Or.inr ⟨digits', post, rfl, hdigits', hfirst⟩⟩

/-- What `STATE_REP` accepts is a count. -/
theorem lexRep_reps (h : lexRep (at' text (k + 1)) (text.drop (k + 1)) repOpenSym false (k + 1) =
    (.rep, j)) :
    ∃ reps post, text.drop (k + 1) = Reps.text reps ++ repCloseSym :: post := by
  rcases lexRep_count h with ⟨digits, hdigits, ⟨post, heq, hfirst⟩ |
    ⟨digits', post, heq, hdigits', hfirst⟩⟩
  · by_cases hnil : digits = []
    · -- `{}` is turned down
      subst hnil
      rw [at'_of_drop heq] at hfirst
      rcases hfirst rfl with hd | hd
      · cases hd
      · cases hd
    · exact ⟨.repN ⟨digits, hnil, hdigits⟩, post, heq⟩
  · by_cases hnil : digits = []
    · subst hnil
      by_cases hnil' : digits' = []
      · -- and so is `{,}`
        rw [at'_of_drop heq] at hfirst
        cases hfirst hnil'
      · exact ⟨.repLess ⟨digits', hnil', hdigits'⟩, post, heq⟩
    · by_cases hnil' : digits' = []
      · subst hnil'
        refine ⟨.repMore ⟨digits, hnil, hdigits⟩, post, ?_⟩
        rw [heq, Reps.text, List.append_assoc]
        rfl
      · refine ⟨.repRange ⟨digits, hnil, hdigits⟩ ⟨digits', hnil', hdigits'⟩, post, ?_⟩
        rw [heq, Reps.text, List.append_assoc]
        rfl

theorem lexLiteral_ne_rep (text : List CChar) (k : Nat) (g : LexStatics) :
    (lexLiteral text k g).1 ≠ .rep := by
  unfold lexLiteral lexRange lexEnd
  simp only
  split_ifs <;> simp

/-- Every `REP` token is a count. -/
theorem lex_rep_count (h : (lex text k g).1 = .rep) :
    g.literal = false ∧ ∃ reps, CountAt text k reps := by
  have hcases := lex_cases text k g
  generalize lex text k g = r at h hcases
  cases hcases with
  | eos _ => cases h
  | trail _ _ => cases h
  | escaped _ _ => exact absurd h (lexLiteral_ne_rep _ _ _)
  | close _ => cases h
  | inside _ _ _ _ => exact absurd h (lexLiteral_ne_rep _ _ _)
  | rep hlit hopen input hrep =>
      refine ⟨hlit, ?_⟩
      -- only the branch of `{` makes a count
      rcases lexRep_reps hrep with ⟨reps, post, heq⟩
      have h0 : at' text k ≠ 0 := by
        rw [hopen]
        decide
      refine ⟨reps, post, ?_⟩
      rw [drop_eq_cons h0, hopen, heq]
      simp [Lexeme.text]
  | badRep _ _ _ _ _ _ => cases h
  | symbol _ tok hmeta => exact absurd h (metaTok_sign hmeta).2.2
  | plain _ _ _ _ _ => exact absurd h (lexLiteral_ne_rep _ _ _)
  | invalid _ => cases h

/-! ## The values that are read -/

theorem i32_isInt (n : Int) : IsInt (i32 n) := by
  have hlow := @Int.le_bmod n 4294967296 (by omega)
  have hhigh := @Int.bmod_lt n 4294967296 (by omega)
  constructor
  · unfold i32
    omega
  · unfold i32
    omega

theorem repDigit_isInt (curr : Int) (c : CChar) : IsInt (repDigit curr c) := i32_isInt _

theorem parseRepLoop_isInt : ∀ {text : List CChar} {currM : Bool} {repN repM : Int},
    IsInt repN → IsInt repM →
    IsInt (parseRepLoop text currM repN repM).2.1 ∧
      IsInt (parseRepLoop text currM repN repM).2.2 := by
  intro text
  induction text with
  | nil => exact fun hn hm => ⟨hn, hm⟩
  | cons c text ih =>
      intro currM repN repM hn hm
      unfold parseRepLoop
      split_ifs
      · exact ih hn hm
      · exact ih hn (repDigit_isInt _ _)
      · exact ih (repDigit_isInt _ _) hm

/-- Both results of `parse_rep` are of type `int`. -/
theorem parseRep_isInt (text : List CChar) (start fin : Nat) :
    IsInt (parseRep text start fin).1 ∧ IsInt (parseRep text start fin).2 := by
  have hbound := @parseRepLoop_isInt ((text.drop (start + 1)).take (fin - start - 2)) false
    repNoField repNoField (by decide) (by decide)
  unfold parseRep
  generalize parseRepLoop ((text.drop (start + 1)).take (fin - start - 2)) false repNoField
    repNoField = r at hbound ⊢
  rcases r with ⟨currM, repN, repM⟩
  cases currM with
  | false => exact hbound
  | true =>
      constructor
      · show IsInt (if repN = repNoField then repFieldEmpty else repN)
        split_ifs
        · decide
        · exact hbound.1
      · show IsInt (if repM = repNoField then repFieldEmpty else repM)
        split_ifs
        · decide
        · exact hbound.2

/-- Numbers that are read exactly fit in an `int`. -/
theorem Reps.fits_of_isInt {reps : Reps} (hn : IsInt reps.fields.1) (hm : IsInt reps.fields.2) :
    reps.Fits := by
  cases reps with
  | repN n => exact hn.2
  | repRange n m => exact ⟨hn.2, hm.2⟩
  | repMore n => exact hn.2
  | repLess m => exact hm.2

/-! ## The branches -/

/-- `process_op_rep` takes the branch the count is written for. -/
theorem processOpRep_written (reps : Reps) (cp : Context) (size : Nat) (i : Option ItemId) :
    processOpRep cp reps.fields.1 reps.fields.2 size i = reps.written cp size i := by
  have hno : repNoField = -1 := rfl
  have hempty : repFieldEmpty = -2 := rfl
  cases reps with
  | repN n =>
      have hn := n.value_nonneg
      show processOpRep cp n.value repNoField size i = _
      unfold processOpRep
      rw [if_neg (by omega), if_neg (by omega), if_neg (by omega), if_pos ⟨hn, rfl⟩]
      rfl
  | repRange n m => exact if_pos ⟨n.value_nonneg, m.value_nonneg⟩
  | repMore n =>
      have hn := n.value_nonneg
      show processOpRep cp n.value repFieldEmpty size i =
        if n.value = 0 then _ else codeRepMore cp n.value size i
      unfold processOpRep
      by_cases hzero : n.value = 0
      · -- `{0,}` comes last
        rw [if_neg (by omega), if_neg (by omega), if_neg (by omega), if_neg (by omega),
          if_pos ⟨hzero, rfl⟩, if_pos hzero]
      · rw [if_neg (by omega), if_pos ⟨by omega, rfl⟩, if_neg hzero]
  | repLess m =>
      have hm := m.value_nonneg
      show processOpRep cp repFieldEmpty m.value size i = _
      unfold processOpRep
      rw [if_neg (by omega), if_neg (by omega), if_pos ⟨rfl, hm⟩]
      rfl

theorem copies_ne_nil {e : List Inst} (he : e ≠ []) (n : Nat) : copies e (n + 1) ≠ [] := by
  rw [copies_succ]
  exact List.append_ne_nil_of_left_ne_nil he _

theorem optionalCode_ne_nil (e : List Inst) {n : Nat} (hn : n ≠ 0) : optionalCode e n ≠ [] := by
  obtain ⟨m, rfl⟩ := Nat.exists_eq_succ_of_ne_zero hn
  exact fun h => by cases h

/-- The code of a range is not empty. -/
theorem repRangeCode_ne_nil {e : List Inst} (he : e ≠ []) (n m : Int) :
    repRangeCode e n m ≠ some [] := by
  unfold repRangeCode repNCode onezeroCode
  split_ifs with heq hzero hone
  · simp
  · simpa using copies_ne_nil he _
  · simp
  · have hne : (max n m - min n m).toNat ≠ 0 := by omega
    intro h
    have hnil := Option.some.inj h
    exact optionalCode_ne_nil e hne (List.append_eq_nil_iff.mp hnil).2

/-- Every count has code, or is an error. -/
theorem Reps.code_ne_nil (reps : Reps) {e : List Inst} (he : e ≠ []) : reps.code e ≠ some [] := by
  have hno : repNoField = -1 := rfl
  have hempty : repFieldEmpty = -2 := rfl
  cases reps with
  | repN n =>
      -- `{0}` has no code at all
      have hn := n.value_nonneg
      show repCode e n.value repNoField ≠ _
      unfold repCode
      rw [if_neg (by omega), if_neg (by omega), if_neg (by omega), if_pos ⟨hn, rfl⟩]
      split_ifs with hzero
      · simp
      · simpa [repNCode] using copies_ne_nil he _
  | repRange n m =>
      show repCode e n.value m.value ≠ _
      unfold repCode
      rw [if_pos ⟨n.value_nonneg, m.value_nonneg⟩]
      exact repRangeCode_ne_nil he _ _
  | repMore n =>
      have hn := n.value_nonneg
      show repCode e n.value repFieldEmpty ≠ _
      unfold repCode
      by_cases hzero : n.value = 0
      · rw [if_neg (by omega), if_neg (by omega), if_neg (by omega), if_neg (by omega),
          if_pos ⟨hzero, rfl⟩]
        simp [zeroCode]
      · rw [if_neg (by omega), if_pos ⟨by omega, rfl⟩]
        simp [repMoreCode]
  | repLess m =>
      have hm := m.value_nonneg
      show repCode e repFieldEmpty m.value ≠ _
      unfold repCode repLessCode
      rw [if_neg (by omega), if_neg (by omega), if_pos ⟨rfl, hm⟩]
      split_ifs with hzero hone
      · simp
      · simp [onezeroCode]
      · simpa using optionalCode_ne_nil e (by omega)

/-- On an operand in the buffer, a count emits its code or fails. -/
theorem Moving.emitsOrFails {cp : Context} {live : Set StackId} {ids : StackId → List ItemId}
    {stk : StackId → Stk} {rest : List ItemId} {e : List Inst} (h : Moving cp live ids stk rest e)
    (reps : Reps) :
    EmitsOrFails cp live stk
      (Rxvm.processOpRep cp reps.fields.1 reps.fields.2 e.length rest.head?) := by
  have he : e ≠ [] := List.ne_nil_of_length_pos h.length_pos
  have hcode := reps.code_ne_nil he
  have hrun := h.processOpRep reps.fields.1 reps.fields.2
  rw [← reps.code_eq] at hrun
  rcases hc : reps.code e with _ | code
  · rw [hc] at hrun
    exact Or.inl hrun
  · rw [hc] at hrun hcode
    rcases hrun with ⟨m', hrun, harr⟩
    refine Or.inr ⟨code, _, fun hnil => hcode (by rw [hnil]), hrun, ?_⟩
    cases repDecs reps.fields.1 reps.fields.2 with
    | false => exact harr
    | true => exact harr

/-! ## Every token -/

/-- Every `REP` token is a count, and it is read exactly if and only if the
numbers that are written fit in an `int`. -/
theorem count_read_exactly_iff (h : (lex text k g).1 = .rep) :
    (∃ reps, CountAt text k reps) ∧
      ∀ reps, CountAt text k reps → (ReadExactly text (lex text k g).2.2 reps ↔ reps.Fits) := by
  rcases lex_rep_count h with ⟨hlit, hcount⟩
  refine ⟨hcount, ?_⟩
  rintro reps ⟨post, hdrop⟩
  have hlex := lex_rep reps hdrop hlit
  constructor
  · intro hread
    -- what is read is an `int`, so the numbers are
    have hint := parseRep_isInt text (lex text k g).2.2.lp1 (lex text k g).2.2.lpn
    rw [hread.fields] at hint
    exact Reps.fits_of_isInt hint.1 hint.2
  · intro hfits
    -- no digit wraps the number around
    have hchecked := parseRepChecked_eq reps hfits hdrop
    have hnone : parseRepChecked text (lex text k g).2.2.lp1 (lex text k g).2.2.lpn =
        some reps.fields := by
      rw [hlex.lp1, hlex.lpn]
      exact hchecked
    have hfields := parseRep_of_checked hnone
    constructor
    · exact hfields
    · exact hnone
    · intro cp size i
      rw [hfields]
      exact processOpRep_written reps cp size i
    · intro cp live ids stk rest e hmoving
      rw [hfields]
      exact hmoving.emitsOrFails reps

end

/-! ## A token that wraps round -/

/-- The count of `{2147483648}`. -/
def intLimit : Integer :=
  { digits := [50, 49, 52, 55, 52, 56, 51, 54, 52, 56]
    nonempty := by decide
    decimal := by decide +kernel }

theorem count_read_exactly_two : (∃ reps, CountAt [123, 50, 125] 0 reps) ∧
    ∀ reps, CountAt [123, 50, 125] 0 reps →
      (ReadExactly [123, 50, 125] (lex [123, 50, 125] 0 Statics.init.lex).2.2 reps ↔ reps.Fits) :=
  count_read_exactly_iff (by decide)

/-- `{2147483648}` is a token; it is read as a negative number, and no code is
emitted and no error reported. -/
theorem count_read_negative :
    (lex (Lexeme.rep (.repN intLimit)).text 0 Statics.init.lex).1 = .rep ∧
      CountAt (Lexeme.rep (.repN intLimit)).text 0 (.repN intLimit) ∧
      parseRep (Lexeme.rep (.repN intLimit)).text 0 12 = (-2147483648, repNoField) ∧
      (∀ cp size i, processOpRep cp (-2147483648) repNoField size i = .ok (none, cp)) ∧
      ¬ ReadExactly (Lexeme.rep (.repN intLimit)).text
        (lex (Lexeme.rep (.repN intLimit)).text 0 Statics.init.lex).2.2 (.repN intLimit) := by
  have hparse : parseRep (Lexeme.rep (.repN intLimit)).text 0 12 = (-2147483648, repNoField) := by
    decide +kernel
  refine ⟨by decide, ⟨[], by decide⟩, hparse, ?_, ?_⟩
  · intro cp size i
    unfold processOpRep
    rw [if_neg (by decide), if_neg (by decide), if_neg (by decide), if_neg (by decide),
      if_neg (by decide)]
    rfl
  · intro hread
    have hvalue : (Reps.repN intLimit).fields = (2147483648, repNoField) := by decide
    have hfields := hread.fields
    have hlp : (lex (Lexeme.rep (.repN intLimit)).text 0 Statics.init.lex).2.2.lp1 = 0 ∧
        (lex (Lexeme.rep (.repN intLimit)).text 0 Statics.init.lex).2.2.lpn = 12 := by decide
    rw [hlp.1, hlp.2, hparse, hvalue] at hfields
    revert hfields
    decide

end Rxvm
