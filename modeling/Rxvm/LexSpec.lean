import Rxvm.Lib.Brackets
import Rxvm.Runs
import Mathlib.Data.List.TakeWhile

/-!
# Rxvm.LexSpec — the tokens and the text

How far a token moves in the text. A backslash and the character behind it are
one literal, and inside a class only `]` is no literal; so the parentheses the
lexer returns are those that are neither escaped nor inside a class.
-/

namespace Rxvm

open Brackets

/-! ## The text from a position on -/

section

variable {text : List CChar} {k : Nat}

theorem noNul_cstring (text : List CChar) : NoNul (cstring text) := by
  intro c hmem
  simpa using List.mem_takeWhile_imp hmem

theorem cstring_eq_self {s : List CChar} (h : NoNul s) : cstring s = s :=
  List.takeWhile_eq_self_iff.mpr fun c hc => by simpa using h c hc

theorem getElem?_of_at'_ne_zero (h : at' text k ≠ 0) : text[k]? = some (at' text k) := by
  unfold at' at h ⊢
  rw [List.getD_eq_getElem?_getD] at h ⊢
  cases htext : text[k]? with
  | none => simp [htext] at h
  | some c => rfl

theorem cstring_drop_of_ne (h : at' text k ≠ 0) :
    cstring (text.drop k) = at' text k :: cstring (text.drop (k + 1)) := by
  have hget := getElem?_of_at'_ne_zero h
  rw [List.drop_eq_getElem?_toList_append, hget]
  simp [cstring, h]

theorem cstring_drop_of_eq (h : at' text k = 0) : cstring (text.drop k) = [] := by
  unfold at' at h
  rw [List.getD_eq_getElem?_getD] at h
  rw [List.drop_eq_getElem?_toList_append]
  cases htext : text[k]? with
  | none =>
      rw [List.drop_eq_nil_of_le (by rw [List.getElem?_eq_none_iff] at htext; omega)]
      rfl
  | some c =>
      rw [htext] at h
      have hc : c = 0 := h
      simp [cstring, hc]

/-- A character of the text and what stands behind it. -/
theorem drop_cons {c : CChar} {rest : List CChar} (h : c :: rest = text.drop k) :
    at' text k = c ∧ rest = text.drop (k + 1) := by
  have hget : text[k]? = some c := by
    rw [← List.head?_drop, ← h]
    rfl
  constructor
  · simp [at', List.getD_eq_getElem?_getD, hget]
  · rw [← List.tail_drop, ← h]
    rfl

end

/-! ## The parentheses of an expression -/

/-- The parentheses that are neither escaped nor inside a class; the flag says
that the text starts inside a class. -/
def parens : Bool → List CChar → List Bracket
  | _, [] => []
  | charc, c :: rest =>
    if c = derefSym then
      match rest with
      | [] => []
      | _ :: rest => parens charc rest
    else if charc then parens (c ≠ charcCloseSym) rest
    else if c = charcOpenSym then parens true rest
    else if c = lparenSym then .opening :: parens false rest
    else if c = rparenSym then .closing :: parens false rest
    else parens false rest

/-- The parenthesis a token is. -/
def Tok.brackets : Tok → List Bracket
  | .lparen => [.opening]
  | .rparen => [.closing]
  | _ => []

section

variable {c : CChar} {rest : List CChar}

theorem parens_deref (charc : Bool) (d : CChar) (rest : List CChar) :
    parens charc (derefSym :: d :: rest) = parens charc rest := by
  rw [parens.eq_def]
  exact if_pos rfl

theorem parens_charc (hc : c ≠ derefSym) :
    parens true (c :: rest) = parens (c ≠ charcCloseSym) rest := by
  rw [parens.eq_def]
  exact if_neg hc

theorem parens_charcOpen (rest : List CChar) :
    parens false (charcOpenSym :: rest) = parens true rest := by
  rw [parens.eq_def]
  rfl

theorem parens_lparen (rest : List CChar) :
    parens false (lparenSym :: rest) = .opening :: parens false rest := by
  rw [parens.eq_def]
  rfl

theorem parens_rparen (rest : List CChar) :
    parens false (rparenSym :: rest) = .closing :: parens false rest := by
  rw [parens.eq_def]
  rfl

theorem parens_plain (hc : c ≠ derefSym) (hopen : c ≠ charcOpenSym) (hl : c ≠ lparenSym)
    (hr : c ≠ rparenSym) : parens false (c :: rest) = parens false rest := by
  rw [parens.eq_def]
  simp [hc, hopen, hl, hr]

end

/-! ## Tokens -/

/-- What a token that is no error stands for in the text: its parenthesis,
and the text behind it. -/
def Lexed (text : List CChar) (k : Nat) (charc : Bool) (r : Tok × Nat × LexStatics) : Prop :=
  (∀ e, r.1 ≠ .error e) → parens charc (cstring (text.drop k)) =
    r.1.brackets ++ parens r.2.2.literal (cstring (text.drop r.2.1))

section

variable {text : List CChar} {k : Nat} {l : LexStatics}

theorem lexed_error {charc : Bool} {e : Err} {j : Nat} :
    Lexed text k charc (.error e, j, l) := fun h => absurd rfl (h e)

theorem isprintable_ne_zero {c : CChar} (h : isprintable c = true) : c ≠ 0 := by
  rintro rfl
  revert h
  decide

theorem lexRange_lexed (hl : l.literal = true) : Lexed text k true (lexRange text k l) := by
  unfold lexRange
  split_ifs with h0 hderef hnull hp hplain
  · intro _
    simp [lexEnd, Tok.brackets, hl]
  · exact lexed_error
  · intro _
    rw [cstring_drop_of_ne (by rw [hderef]; decide), hderef,
      cstring_drop_of_ne (isprintable_ne_zero hp), parens_deref]
    simp [lexEnd, Tok.brackets, hl]
  · exact lexed_error
  · intro _
    have hclose : at' text k ≠ charcCloseSym := by
      intro e
      simp [isreserved, e] at hplain
    rw [cstring_drop_of_ne h0, parens_charc hderef]
    simp [lexEnd, Tok.brackets, hl, hclose]
  · exact lexed_error

/-- The character at `k` has been taken care of: it is a literal, or the first
one of a range. -/
theorem lexLiteral_lexed {j : Nat} (hstart : parens l.literal (cstring (text.drop j)) =
    parens l.literal (cstring (text.drop (k + 1)))) :
    Lexed text j l.literal (lexLiteral text k l) := by
  have hlit : (if at' text k = newline then { l with newlineSeen := true } else l).literal =
      l.literal := by split <;> rfl
  unfold lexLiteral
  generalize (if at' text k = newline then { l with newlineSeen := true } else l) = l' at hlit ⊢
  simp only
  split_ifs with herr hrange
  · exact lexed_error
  · intro hne
    have hcharc : l.literal = true := hlit.symm.trans hrange.2
    have hsep : parens true (cstring (text.drop (k + 1))) =
        parens true (cstring (text.drop (k + 2))) := by
      rw [cstring_drop_of_ne (by rw [hrange.1]; decide), hrange.1, parens_charc (by decide)]
      rfl
    rw [hstart, hcharc, hsep]
    exact lexRange_lexed hrange.2 hne
  · intro _
    simp [lexEnd, Tok.brackets, hlit, hstart]

theorem lexRep_tok (first : CChar) : ∀ (rest : List CChar) (prev : CChar) (comma : Bool)
    (input : Nat), (lexRep first rest prev comma input).1 = .rep ∨
      ∃ e, (lexRep first rest prev comma input).1 = .error e := by
  intro rest
  induction rest with
  | nil => exact fun _ _ _ => Or.inr ⟨_, rfl⟩
  | cons c rest ih =>
      intro prev comma input
      unfold lexRep
      split_ifs
      · exact Or.inr ⟨_, rfl⟩
      · exact Or.inr ⟨_, rfl⟩
      · exact Or.inl rfl
      · exact Or.inr ⟨_, rfl⟩
      · exact ih _ _ _
      · exact Or.inr ⟨_, rfl⟩
      · exact ih _ _ _

/-! ## The cases of lex -/

/-- The cases of `lex`. -/
inductive LexCase (text : List CChar) (k : Nat) (l : LexStatics) : Tok × Nat × LexStatics → Prop
  | eos (h0 : at' text k = 0) : LexCase text k l (.eos, k, l)
  | trail (hderef : at' text k = derefSym) (hnull : at' text (k + 1) = 0) :
      LexCase text k l (.error .etrail, k + 1, { l with lp1 := k })
  | escaped (hderef : at' text k = derefSym) (hnull : at' text (k + 1) ≠ 0) :
      LexCase text k l (lexLiteral text (k + 1) { l with lp1 := k + 1 })
  | close (hclose : at' text k = charcCloseSym) :
      LexCase text k l (lexEnd .charcClose (k + 1) { l with lp1 := k, literal := false })
  | inside (hlit : l.literal = true) (h0 : at' text k ≠ 0) (hderef : at' text k ≠ derefSym)
      (hclose : at' text k ≠ charcCloseSym) :
      LexCase text k l (lexLiteral text k { l with lp1 := k })
  | rep (hlit : l.literal = false) (hopen : at' text k = repOpenSym) (input : Nat)
      (h : lexRep (at' text (k + 1)) (text.drop (k + 1)) repOpenSym false (k + 1) = (.rep, input)) :
      LexCase text k l (lexEnd .rep input { l with lp1 := k })
  | badRep (hlit : l.literal = false) (hopen : at' text k = repOpenSym) (e : Err) (input : Nat)
      (l' : LexStatics)
      (h : lexRep (at' text (k + 1)) (text.drop (k + 1)) repOpenSym false (k + 1) =
        (.error e, input)) : LexCase text k l (.error e, input, l')
  | symbol (hlit : l.literal = false) (tok : Tok) (hmeta : metaTok (at' text k) = some tok) :
      LexCase text k l (lexEnd tok (k + 1)
        (if at' text k = charcOpenSym then { l with lp1 := k, literal := true }
          else { l with lp1 := k }))
  | plain (hlit : l.literal = false) (hmeta : metaTok (at' text k) = none)
      (h0 : at' text k ≠ 0) (hderef : at' text k ≠ derefSym)
      (hprint : isprintable (at' text k) = true) :
      LexCase text k l (lexLiteral text k { l with lp1 := k })
  | invalid (hprint : isprintable (at' text k) = false) :
      LexCase text k l (.error .einval, k, { l with lp1 := k })

theorem lex_cases (text : List CChar) (k : Nat) (l : LexStatics) :
    LexCase text k l (lex text k l) := by
  unfold lex
  by_cases h0 : at' text k = 0
  · simp only [if_pos h0]
    exact .eos h0
  -- the branches of `lex` in their order, an escape first
  by_cases hderef : at' text k = derefSym
  · simp only [if_neg h0, if_pos hderef]
    by_cases hnull : at' text (k + 1) = 0
    · simp only [if_pos hnull]
      exact .trail hderef hnull
    · simp only [if_neg hnull]
      exact .escaped hderef hnull
  by_cases hclose : at' text k = charcCloseSym
  · simp only [if_neg h0, if_neg hderef, if_pos hclose]
    exact .close hclose
  simp only [if_neg h0, if_neg hderef, if_neg hclose]
  by_cases hlit : l.literal = true
  · -- every other character of a class is a literal, if it can be printed
    have hliteral := LexCase.inside hlit h0 hderef hclose
    simp only [if_pos hlit]
    by_cases hopen : at' text k = repOpenSym
    · rw [if_pos hopen]
      exact hliteral
    · rw [if_neg hopen]
      cases metaTok (at' text k) with
      | some tok => exact hliteral
      | none =>
          by_cases hp : isprintable (at' text k) = true
          · simp only [if_pos hp]
            exact hliteral
          · simp only [if_neg hp]
            exact .invalid (by simpa using hp)
  · -- outside a class the symbols come before the literals
    have hlit' : l.literal = false := by simpa using hlit
    simp only [if_neg hlit]
    by_cases hopen : at' text k = repOpenSym
    · -- `{` is lexed by `lex_rep`, which ends with a count or an error
      rw [if_pos hopen, hopen]
      have htok := lexRep_tok (at' text (k + 1)) (text.drop (k + 1)) repOpenSym false (k + 1)
      generalize hrep : lexRep (at' text (k + 1)) (text.drop (k + 1)) repOpenSym false (k + 1) = r
        at htok ⊢
      rcases r with ⟨ret, input⟩
      rcases htok with htok | ⟨e, htok⟩
      · obtain rfl : ret = .rep := htok
        exact .rep hlit' hopen input hrep
      · obtain rfl : ret = .error e := htok
        cases e <;> exact .badRep hlit' hopen _ input _ hrep
    · rw [if_neg hopen]
      cases hmeta : metaTok (at' text k) with
      | some tok => exact .symbol hlit' tok hmeta
      | none =>
          by_cases hp : isprintable (at' text k) = true
          · simp only [if_pos hp]
            exact .plain hlit' hmeta h0 hderef hp
          · simp only [if_neg hp]
            exact .invalid (by simpa using hp)

theorem lexRep_parens (first : CChar) : ∀ (rest : List CChar) (prev : CChar) (comma : Bool)
    (k : Nat), rest = text.drop k → (lexRep first rest prev comma k).1 = .rep →
    parens false (cstring (text.drop k)) =
      parens false (cstring (text.drop (lexRep first rest prev comma k).2)) := by
  intro rest
  induction rest with
  | nil =>
      intro prev comma k _ h
      cases h
  | cons c rest ih =>
      intro prev comma k hdrop h
      rcases drop_cons hdrop with ⟨hget, hrest⟩
      unfold lexRep at h ⊢
      split_ifs at h ⊢ with h0 hclose hmrep hcomma hseen hdigit
      · rw [cstring_drop_of_ne (by rw [hget]; exact h0), hget, hclose]
        exact parens_plain (by decide) (by decide) (by decide) (by decide)
      · rw [cstring_drop_of_ne (by rw [hget]; exact h0), hget]
        rw [parens_plain (by rw [hcomma]; decide) (by rw [hcomma]; decide)
          (by rw [hcomma]; decide) (by rw [hcomma]; decide)]
        exact ih _ _ _ hrest h
      · rw [cstring_drop_of_ne (by rw [hget]; exact h0), hget]
        have hplain : c ≠ derefSym ∧ c ≠ charcOpenSym ∧ c ≠ lparenSym ∧ c ≠ rparenSym := by
          refine ⟨?_, ?_, ?_, ?_⟩ <;>
          · rintro rfl
            exact hdigit (by decide)
        rw [parens_plain hplain.1 hplain.2.1 hplain.2.2.1 hplain.2.2.2]
        exact ih _ _ _ hrest h

/-- The metacharacters and their tokens, as `metaTok` has them. -/
def metaTable : List (CChar × Tok) :=
  [(charcOpenSym, .charcOpen), (repCloseSym, .error .badrep), (lparenSym, .lparen),
    (rparenSym, .rparen), (oneSym, .one), (onezeroSym, .onezero), (zeroSym, .zero),
    (anySym, .any), (solSym, .sol), (eolSym, .eol), (altSym, .alt)]

theorem mem_metaTable {c : CChar} {tok : Tok} (h : metaTok c = some tok) :
    (c, tok) ∈ metaTable := by
  have hfirst : ∀ l : List (CChar × Tok),
      l.foldr (fun p r => if c = p.1 then some p.2 else r) none = some tok → (c, tok) ∈ l := by
    intro l
    induction l with
    | nil =>
        intro h
        cases h
    | cons p l ih =>
        intro h
        by_cases hc : c = p.1
        · rw [List.foldr_cons, if_pos hc] at h
          obtain rfl := Option.some.inj h
          rw [hc]
          exact List.mem_cons_self
        · rw [List.foldr_cons, if_neg hc] at h
          exact List.mem_cons_of_mem _ (ih h)
  exact hfirst metaTable h

theorem metaTok_sign {c : CChar} {tok : Tok} (h : metaTok c = some tok) :
    tok ≠ .literal ∧ tok ≠ .charRange ∧ tok ≠ .rep := by
  have hall : ∀ q ∈ metaTable, q.2 ≠ .literal ∧ q.2 ≠ .charRange ∧ q.2 ≠ .rep := by decide +kernel
  exact hall _ (mem_metaTable h)

/-- A metacharacter outside a class. -/
theorem metaTok_lexed {tok : Tok} (hlit : l.literal = false)
    (h : metaTok (at' text k) = some tok) (hderef : at' text k ≠ derefSym) (h0 : at' text k ≠ 0) :
    Lexed text k false (lexEnd tok (k + 1)
      (if at' text k = charcOpenSym then { l with lp1 := k, literal := true }
        else { l with lp1 := k })) := by
  intro hne
  rw [cstring_drop_of_ne h0]
  -- the sign that opens a class, the two parentheses, and the others
  by_cases h1 : at' text k = charcOpenSym
  · rw [h1] at h
    obtain rfl : Tok.charcOpen = tok := Option.some.inj h
    rw [if_pos h1, h1, parens_charcOpen]
    simp [lexEnd, Tok.brackets]
  rw [if_neg h1]
  by_cases h3 : at' text k = lparenSym
  · rw [h3] at h ⊢
    obtain rfl : Tok.lparen = tok := Option.some.inj h
    rw [parens_lparen]
    simp [lexEnd, Tok.brackets, hlit]
  by_cases h4 : at' text k = rparenSym
  · rw [h4] at h ⊢
    obtain rfl : Tok.rparen = tok := Option.some.inj h
    rw [parens_rparen]
    simp [lexEnd, Tok.brackets, hlit]
  rw [parens_plain hderef h1 h3 h4]
  have hnone : tok.brackets = [] := by
    have hall : ∀ p ∈ metaTable, p.1 ≠ lparenSym → p.1 ≠ rparenSym → p.2.brackets = [] := by decide
    exact hall _ (mem_metaTable h) h3 h4
  simp [lexEnd, hnone, hlit]

theorem metaTok_none {c : CChar} (h : metaTok c = none) :
    c ≠ charcOpenSym ∧ c ≠ lparenSym ∧ c ≠ rparenSym := by
  refine ⟨?_, ?_, ?_⟩ <;>
  · rintro rfl
    revert h
    decide

/-- The lexer's token and the text. -/
theorem lex_lexed (text : List CChar) (k : Nat) (l : LexStatics) :
    Lexed text k l.literal (lex text k l) := by
  -- by the branch the lexer took
  have hcase := lex_cases text k l
  generalize lex text k l = r at hcase ⊢
  cases hcase with
  | eos h0 =>
      intro _
      simp [Tok.brackets]
  | trail => exact lexed_error
  -- an escaped character is no parenthesis
  | escaped hderef hnull =>
      refine lexLiteral_lexed (l := { l with lp1 := k + 1 }) ?_
      rw [cstring_drop_of_ne (by rw [hderef]; decide), hderef, cstring_drop_of_ne hnull,
        parens_deref]
  | close hclose =>
      intro _
      rw [cstring_drop_of_ne (by rw [hclose]; decide), hclose]
      cases l.literal with
      | false => rw [parens_plain (by decide) (by decide) (by decide) (by decide)]; rfl
      | true => rw [parens_charc (by decide)]; rfl
  -- inside a class parentheses are characters
  | inside hlit h0 hderef hclose =>
      refine lexLiteral_lexed (l := { l with lp1 := k }) ?_
      show parens l.literal _ = parens l.literal _
      rw [hlit, cstring_drop_of_ne h0, parens_charc hderef]
      simp [hclose]
  -- between `{` and `}` there is no parenthesis
  | rep hlit hopen input h =>
      intro _
      have hrep := lexRep_parens _ (text.drop (k + 1)) _ _ _ rfl (by rw [h])
      rw [h] at hrep
      rw [hlit, cstring_drop_of_ne (by rw [hopen]; decide), hopen,
        parens_plain (by decide) (by decide) (by decide) (by decide), hrep]
      simp [lexEnd, Tok.brackets]
  | badRep => exact lexed_error
  | symbol hlit tok hmeta =>
      have hne : at' text k ≠ derefSym ∧ at' text k ≠ 0 := by
        constructor <;>
        · intro e
          rw [e] at hmeta
          cases hmeta
      have hlexed := metaTok_lexed hlit hmeta hne.1 hne.2
      rw [← hlit] at hlexed
      exact hlexed
  | plain hlit hmeta h0 hderef =>
      rcases metaTok_none hmeta with ⟨hb, hl, hr⟩
      refine lexLiteral_lexed (l := { l with lp1 := k }) ?_
      show parens l.literal _ = parens l.literal _
      rw [hlit, cstring_drop_of_ne h0, parens_plain hderef hb hl hr]
  | invalid => exact lexed_error

/-! ## The end of the text, and the errors of the lexer -/

/-- The tokens the lexer returns before the end of the text: it leaves
parentheses to the compiler. -/
def Tok.midway : Tok → Bool
  | .eos | .error .badparen | .error .eparen => false
  | _ => true

theorem lexRange_midway : (lexRange text k l).1.midway = true := by
  unfold lexRange
  split_ifs <;> rfl

theorem lexLiteral_midway : (lexLiteral text k l).1.midway = true := by
  unfold lexLiteral
  simp only
  split_ifs
  all_goals first | rfl | exact lexRange_midway

theorem lexRep_error (first : CChar) : ∀ (rest : List CChar) (prev : CChar) (comma : Bool)
    (k : Nat) (e : Err), (lexRep first rest prev comma k).1 = .error e →
      e ≠ .badparen ∧ e ≠ .eparen := by
  intro rest
  induction rest with
  | nil =>
      intro _ _ _ e h
      cases h
      decide
  | cons c rest ih =>
      intro prev comma k e h
      unfold lexRep at h
      split_ifs at h
      all_goals first | exact ih _ _ _ _ h | (cases h; decide)

theorem metaTok_midway {c : CChar} {tok : Tok} (h : metaTok c = some tok) : tok.midway = true := by
  have hall : ∀ p ∈ metaTable, p.2.midway = true := by decide
  exact hall _ (mem_metaTable h)

theorem lex_midway (h0 : at' text k ≠ 0) (l : LexStatics) : (lex text k l).1.midway = true := by
  have hcase := lex_cases text k l
  generalize lex text k l = r at hcase ⊢
  cases hcase with
  | eos h => exact absurd h h0
  | trail => rfl
  | escaped => exact lexLiteral_midway
  | close => rfl
  | inside => exact lexLiteral_midway
  | rep => rfl
  | badRep _ _ e _ _ h =>
      have hne := lexRep_error _ _ _ _ _ e (by rw [h])
      cases e <;> first | rfl | exact absurd rfl hne.1 | exact absurd rfl hne.2
  | symbol _ tok hmeta => exact metaTok_midway hmeta
  | plain => exact lexLiteral_midway
  | invalid => rfl

/-- The lexer returns `EOS` at the end of the text only, and stays there. -/
theorem lex_eos (h : (lex text k l).1 = .eos) : at' text k = 0 ∧ (lex text k l).2.1 = k := by
  by_cases h0 : at' text k = 0
  · refine ⟨h0, ?_⟩
    unfold lex
    simp only [if_pos h0]
  · have := lex_midway h0 l
    rw [h] at this
    cases this

theorem lex_error {e : Err} (h : (lex text k l).1 = .error e) : e ≠ .badparen ∧ e ≠ .eparen := by
  by_cases h0 : at' text k = 0
  · unfold lex at h
    simp only [if_pos h0] at h
    cases h
  · have := lex_midway h0 l
    rw [h] at this
    constructor <;>
    · rintro rfl
      cases this

/-! ## Literals outside a class -/

/-- Outside a class a literal is one character, which is escaped or is not. -/
theorem lexLiteral_outside (hl : l.literal = false) : ∃ seen, lexLiteral text k l =
    (.literal, k + 1, { l with newlineSeen := seen, lpn := k + 1 }) := by
  unfold lexLiteral
  by_cases hnl : at' text k = newline
  · refine ⟨true, ?_⟩
    simp [hnl, hl, lexEnd]
  · refine ⟨l.newlineSeen, ?_⟩
    simp [hnl, hl, lexEnd]

theorem metaTok_ne_literal {c : CChar} : metaTok c ≠ some .literal := by
  intro h
  have hall : ∀ p ∈ metaTable, p.2 ≠ .literal := by decide
  exact hall _ (mem_metaTable h) rfl

/-- A literal that has been read outside a class. -/
theorem lex_literal (hl : l.literal = false) (h : (lex text k l).1 = .literal) :
    (lex text k l).2.2.literal = false ∧
      (at' text k = derefSym ∧ at' text (k + 1) ≠ 0 ∧ (lex text k l).2.1 = k + 2 ∨
        at' text k ≠ derefSym ∧ at' text k ≠ 0 ∧ (lex text k l).2.1 = k + 1) := by
  have hcase := lex_cases text k l
  generalize lex text k l = r at hcase h ⊢
  cases hcase with
  | eos => cases h
  | trail => cases h
  | escaped hderef hnull =>
      rcases @lexLiteral_outside text (k + 1) { l with lp1 := k + 1 } hl with
        ⟨seen, heq⟩
      rw [heq]
      exact ⟨hl, Or.inl ⟨hderef, hnull, rfl⟩⟩
  | close => cases h
  | inside hlit => rw [hl] at hlit; cases hlit
  | rep => cases h
  | badRep => cases h
  | symbol _ tok hmeta =>
      obtain rfl : tok = .literal := h
      exact absurd hmeta metaTok_ne_literal
  | plain _ _ h0 hderef =>
      rcases @lexLiteral_outside text k { l with lp1 := k } hl with
        ⟨seen, heq⟩
      rw [heq]
      exact ⟨hl, Or.inr ⟨hderef, h0, rfl⟩⟩
  | invalid => cases h

end

end Rxvm
