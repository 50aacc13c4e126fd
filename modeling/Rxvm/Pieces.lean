import Rxvm.Lexemes
import Rxvm.Reading

/-!
# Rxvm.Pieces — the tokens of a text, wherever it stands

What the compiler looks at of a token: its kind, and the character, the bounds
or the counts it stands for. The lexer finds them in the text of the token and
the character behind it, so the pieces of a text are the same wherever it
stands. They can be taken apart at every parenthesis that is neither escaped
nor in a class.
-/

namespace Rxvm

open Brackets

/-- What the compiler looks at of a token. -/
inductive Piece where
  | literal (c : CChar)
  | range (lo hi : CChar)
  | rep (n m : Int)
  | sign (tok : Tok)
deriving DecidableEq, Repr

/-- The piece of what the lexer has returned; none at the end of the text. -/
def pieceOf (text : List CChar) (r : Tok × Nat × LexStatics) : Option Piece :=
  match r.1 with
  | .eos | .error _ => none
  | .literal => some (.literal (at' text r.2.2.lp1))
  | .charRange => some (.range (rangeBounds text r.2.2.lp1).1 (rangeBounds text r.2.2.lp1).2)
  | .rep => some (.rep (parseRep text r.2.2.lp1 r.2.2.lpn).1 (parseRep text r.2.2.lp1 r.2.2.lpn).2)
  | tok => some (.sign tok)

theorem pieceOf_proper {text : List CChar} {r : Tok × Nat × LexStatics} {p : Piece}
    (h : pieceOf text r = some p) : r.1 ≠ .eos ∧ ∀ e, r.1 ≠ .error e := by
  unfold pieceOf at h
  split at h
  · cases h
  · cases h
  all_goals
    next htok => simp_all

/-- A token of one symbol stands for itself. -/
theorem pieceOf_sign {tok : Tok} (h : tok ≠ .literal ∧ tok ≠ .charRange ∧ tok ≠ .rep)
    (t t' : List CChar) (j j' : Nat) (l l' : LexStatics) :
    pieceOf t (tok, j, l) = pieceOf t' (tok, j', l') := by
  rcases h with ⟨hliteral, hrange, hrep⟩
  cases tok with
  | literal => exact absurd rfl hliteral
  | charRange => exact absurd rfl hrange
  | rep => exact absurd rfl hrep
  | _ => rfl

/-! ## Windows -/

/-- From `k₁` and `k₂` on the texts have `n` characters in common, or all. -/
def Window (t₁ : List CChar) (k₁ : Nat) (t₂ : List CChar) (k₂ n : Nat) : Prop :=
  (t₁.drop k₁).take n = (t₂.drop k₂).take n

section

variable {t₁ t₂ : List CChar} {k₁ k₂ d n : Nat} {l₁ l₂ : LexStatics} {p : Piece}

theorem Window.symm (h : Window t₁ k₁ t₂ k₂ n) : Window t₂ k₂ t₁ k₁ n := Eq.symm h

theorem Window.drop (h : Window t₁ k₁ t₂ k₂ n) (d : Nat) :
    Window t₁ (k₁ + d) t₂ (k₂ + d) (n - d) := by
  have := congrArg (List.drop d) h
  rwa [List.drop_take, List.drop_take, List.drop_drop, List.drop_drop] at this

theorem Window.mono (h : Window t₁ k₁ t₂ k₂ n) {m : Nat} (hm : m ≤ n) :
    Window t₁ k₁ t₂ k₂ m := by
  have := congrArg (List.take m) h
  rwa [List.take_take, List.take_take, Nat.min_eq_left hm] at this

/-- A character inside the window. -/
theorem Window.at (h : Window t₁ k₁ t₂ k₂ n) (hd : d < n) :
    at' t₁ (k₁ + d) = at' t₂ (k₂ + d) := by
  have hget : ∀ (t : List CChar) k, at' t (k + d) = ((t.drop k).take n).getD d 0 := by
    intro t k
    rw [at', List.getD_eq_getElem?_getD, List.getD_eq_getElem?_getD, List.getElem?_take,
      if_pos hd, List.getElem?_drop]
  rw [hget, hget, h]

/-! ## The lexer in a window -/

/-- Two results of the lexer show the same piece, as far from where they were
read. -/
structure SamePiece (t₁ : List CChar) (k₁ : Nat) (r₁ : Tok × Nat × LexStatics) (t₂ : List CChar)
    (k₂ : Nat) (r₂ : Tok × Nat × LexStatics) : Prop where
  piece : pieceOf t₂ r₂ = pieceOf t₁ r₁
  input : r₂.2.1 + k₁ = r₁.2.1 + k₂

theorem lexRange_samePiece (hw : Window t₁ k₁ t₂ k₂ n) (h₁ : l₁.lp1 = k₁) (h₂ : l₂.lp1 = k₂)
    (hpiece : pieceOf t₁ (lexRange t₁ (k₁ + 2) l₁) = some p)
    (hend : (lexRange t₁ (k₁ + 2) l₁).2.1 < k₁ + n) :
    SamePiece t₁ k₁ (lexRange t₁ (k₁ + 2) l₁) t₂ k₂ (lexRange t₂ (k₂ + 2) l₂) := by
  have hle : k₁ + 2 ≤ (lexRange t₁ (k₁ + 2) l₁).2.1 := by
    unfold lexRange
    split_ifs <;> simp [lexEnd]
  have hfirst : at' t₁ k₁ = at' t₂ k₂ := hw.at (d := 0) (by omega)
  have hat : at' t₁ (k₁ + 2) = at' t₂ (k₂ + 2) := hw.at (by omega)
  unfold lexRange at hpiece hend ⊢
  rw [← hat]
  by_cases h0 : at' t₁ (k₁ + 2) = 0
  · rw [if_pos h0, if_pos h0]
    exact ⟨rfl, by simp only [lexEnd]; omega⟩
  rw [if_neg h0] at hpiece hend ⊢
  rw [if_neg h0]
  by_cases hderef : at' t₁ (k₁ + 2) = derefSym
  · -- the bound is escaped, and the token ends behind the next character
    rw [if_pos hderef] at hpiece hend ⊢
    rw [if_pos hderef]
    by_cases hnull : at' t₁ (k₁ + 2 + 1) = 0
    · rw [if_pos hnull] at hpiece
      cases hpiece
    rw [if_neg hnull] at hpiece hend ⊢
    by_cases hp : isprintable (at' t₁ (k₁ + 2 + 1)) = true
    · rw [if_pos hp] at hend ⊢
      simp only [lexEnd] at hend
      have hnext : at' t₁ (k₁ + 2 + 1) = at' t₂ (k₂ + 2 + 1) := hw.at (d := 3) (by omega)
      rw [← hnext, if_neg hnull, if_pos hp]
      refine ⟨?_, by simp only [lexEnd]; omega⟩
      simp only [pieceOf, lexEnd, rangeBounds, h₁, h₂, ← hfirst, ← hat, if_pos hderef]
      rw [show at' t₁ (k₁ + 3) = at' t₂ (k₂ + 3) from hnext]
    · rw [if_neg hp] at hpiece
      cases hpiece
  · rw [if_neg hderef] at hpiece hend ⊢
    rw [if_neg hderef]
    -- a plain bound: the token ends with it
    by_cases hplain : (isprintable (at' t₁ (k₁ + 2)) && !isreserved (at' t₁ (k₁ + 2))) = true
    · rw [if_pos hplain, if_pos hplain]
      refine ⟨?_, by simp only [lexEnd]; omega⟩
      simp only [pieceOf, lexEnd, rangeBounds, h₁, h₂, ← hfirst, ← hat, if_neg hderef]
    · rw [if_neg hplain] at hpiece
      cases hpiece

/-- A bare `-` in a class is an error. -/
theorem lexLiteral_bare (hl : l₁.literal = true)
    (hbare : at' t₁ k₁ = rangeSepSym ∧ at' t₁ (k₁ - 1) ≠ derefSym) :
    pieceOf t₁ (lexLiteral t₁ k₁ l₁) = none := by
  have hnl : at' t₁ k₁ ≠ newline := by
    rw [hbare.1]
    decide
  unfold lexLiteral
  rw [if_neg hnl]
  simp only
  rw [if_pos ⟨hbare.1, hl, hbare.2⟩]
  rfl

theorem lexRange_le (j : Nat) : j ≤ (lexRange t₁ j l₁).2.1 := by
  unfold lexRange
  split_ifs <;> simp only [lexEnd] <;> omega

theorem lexLiteral_le : k₁ ≤ (lexLiteral t₁ k₁ l₁).2.1 := by
  unfold lexLiteral
  simp only
  split_ifs
  all_goals first
    | exact Nat.le_trans (Nat.le_add_right _ _) (lexRange_le _)
    | simp only [lexEnd]; omega

theorem lexLiteral_samePiece (hw : Window t₁ k₁ t₂ k₂ n) (h₁ : l₁.lp1 = k₁) (h₂ : l₂.lp1 = k₂)
    (hl : l₁.literal = l₂.literal) (hprev : l₁.literal = true → at' t₁ (k₁ - 1) = at' t₂ (k₂ - 1))
    (hpiece : pieceOf t₁ (lexLiteral t₁ k₁ l₁) = some p)
    (hend : (lexLiteral t₁ k₁ l₁).2.1 < k₁ + n) :
    SamePiece t₁ k₁ (lexLiteral t₁ k₁ l₁) t₂ k₂ (lexLiteral t₂ k₂ l₂) := by
  have hpos : k₁ ≤ (lexLiteral t₁ k₁ l₁).2.1 := lexLiteral_le
  have hfirst : at' t₁ k₁ = at' t₂ k₂ := hw.at (d := 0) (by omega)
  cases hmode : l₁.literal with
  | false =>
      -- outside a class a literal is one character
      rcases @lexLiteral_outside t₁ k₁ l₁ hmode with ⟨seen₁, heq₁⟩
      rcases @lexLiteral_outside t₂ k₂ l₂ (hl.symm.trans hmode) with ⟨seen₂, heq₂⟩
      rw [heq₁, heq₂]
      refine ⟨?_, by show k₂ + 1 + k₁ = k₁ + 1 + k₂; omega⟩
      simp only [pieceOf, h₁, h₂, hfirst]
  | true =>
      have hprev := hprev hmode
      have hbare : ¬ (at' t₁ k₁ = rangeSepSym ∧ at' t₁ (k₁ - 1) ≠ derefSym) := by
        intro hbare
        rw [lexLiteral_bare hmode hbare] at hpiece
        cases hpiece
      rcases lexLiteral_set hmode hbare with ⟨seen₁, heq₁⟩
      rw [hfirst, hprev] at hbare
      rcases lexLiteral_set (hl.symm.trans hmode) hbare with ⟨seen₂, heq₂⟩
      rw [heq₁] at hpiece hend
      rw [heq₁, heq₂]
      -- the lexer has looked at the next character, which is in the window
      have hnext : at' t₁ (k₁ + 1) = at' t₂ (k₂ + 1) := by
        refine hw.at ?_
        split_ifs at hend
        · have := @lexRange_le t₁ { l₁ with newlineSeen := seen₁ } (k₁ + 2)
          omega
        · have hend : k₁ + 1 < k₁ + n := hend
          omega
      rw [← hnext]
      by_cases hsep : at' t₁ (k₁ + 1) = rangeSepSym
      · rw [if_pos hsep] at hpiece hend ⊢
        rw [if_pos hsep]
        exact lexRange_samePiece hw h₁ h₂ hpiece hend
      · rw [if_neg hsep, if_neg hsep]
        refine ⟨?_, by show k₂ + 1 + k₁ = k₁ + 1 + k₂; omega⟩
        simp only [pieceOf, h₁, h₂, hfirst]

/-- A count is read from its own text. -/
theorem lexRep_local {first : CChar} : ∀ {rest : List CChar} {prev : CChar} {comma : Bool}
    {input j : Nat}, lexRep first rest prev comma input = (.rep, j) → ∃ n, j = input + n ∧ 0 < n ∧
      ∀ (rest' : List CChar) (input' : Nat), rest'.take n = rest.take n →
        lexRep first rest' prev comma input' = (.rep, input' + n) := by
  intro rest
  induction rest with
  | nil =>
      intro prev comma input j h
      cases h
  | cons c rest ih =>
      intro prev comma input j h
      have hcons : ∀ {rest' : List CChar} {n : Nat}, rest'.take (n + 1) = (c :: rest).take (n + 1) →
          ∃ rest₁, rest' = c :: rest₁ ∧ rest₁.take n = rest.take n := by
        intro rest' n htake
        cases rest' with
        | nil => cases htake
        | cons c' rest₁ =>
            rw [List.take_succ_cons, List.take_succ_cons] at htake
            rcases List.cons.inj htake with ⟨rfl, hrest⟩
            exact ⟨rest₁, rfl, hrest⟩
      -- where the scan goes on, the rest is the induction hypothesis
      have hstep : ∀ {comma' : Bool}, (∀ rest₁ input₁, lexRep first (c :: rest₁) prev comma input₁ =
          lexRep first rest₁ c comma' (input₁ + 1)) → ∃ n, j = input + n ∧ 0 < n ∧
          ∀ (rest' : List CChar) (input' : Nat), rest'.take n = (c :: rest).take n →
            lexRep first rest' prev comma input' = (.rep, input' + n) := by
        intro comma' hrun
        rw [hrun] at h
        rcases ih h with ⟨n, rfl, hn, hlocal⟩
        refine ⟨n + 1, by omega, by omega, ?_⟩
        intro rest' input' htake
        rcases hcons htake with ⟨rest₁, rfl, hrest⟩
        rw [hrun, hlocal rest₁ _ hrest]
        congr 1
        omega
      by_cases h0 : c = 0
      · rw [lexRep, if_pos h0] at h
        cases h
      by_cases hclose : c = repCloseSym
      · rw [lexRep, if_neg h0, if_pos hclose] at h
        by_cases hmrep : (!isdigit prev && !isdigit first) = true
        · rw [if_pos hmrep] at h
          cases h
        · rw [if_neg hmrep] at h
          obtain rfl : input + 1 = j := congrArg Prod.snd h
          refine ⟨1, rfl, by omega, ?_⟩
          intro rest' input' htake
          rcases hcons htake with ⟨rest₁, rfl, _⟩
          rw [lexRep, if_neg h0, if_pos hclose, if_neg hmrep]
      by_cases hcomma : c = commaSym
      · cases comma with
        | true =>
            rw [lexRep, if_neg h0, if_neg hclose, if_pos hcomma, if_pos rfl] at h
            cases h
        | false =>
            refine @hstep true fun rest₁ input₁ => ?_
            rw [lexRep, if_neg h0, if_neg hclose, if_pos hcomma, if_neg Bool.false_ne_true, hcomma]
      by_cases hdigit : (!isdigit c) = true
      · rw [lexRep, if_neg h0, if_neg hclose, if_neg hcomma, if_pos hdigit] at h
        cases h
      · refine @hstep comma fun rest₁ input₁ => ?_
        rw [lexRep, if_neg h0, if_neg hclose, if_neg hcomma, if_neg hdigit]

/-- The lexer shows the same piece in both texts, where the piece and the
character behind it are in the window. In a class it looks at the character
in front, too. -/
theorem lex_samePiece (hw : Window t₁ k₁ t₂ k₂ n) (hl : l₁.literal = l₂.literal)
    (hprev : l₁.literal = true → at' t₁ (k₁ - 1) = at' t₂ (k₂ - 1))
    (hpiece : pieceOf t₁ (lex t₁ k₁ l₁) = some p) (hend : (lex t₁ k₁ l₁).2.1 < k₁ + n) :
    SamePiece t₁ k₁ (lex t₁ k₁ l₁) t₂ k₂ (lex t₂ k₂ l₂) := by
  rcases pieceOf_proper hpiece with ⟨heos, herr⟩
  have hpos : k₁ < (lex t₁ k₁ l₁).2.1 := by
    rcases lex_advances t₁ k₁ l₁ with h | ⟨e, h⟩ | h
    · exact absurd h heos
    · exact absurd h (herr e)
    · exact h.1
  have hc : at' t₁ k₁ = at' t₂ k₂ := hw.at (d := 0) (by omega)
  unfold lex at hpiece hend ⊢
  simp only [← hc] at hpiece hend ⊢
  by_cases h0 : at' t₁ k₁ = 0
  · rw [if_pos h0] at hpiece
    cases hpiece
  rw [if_neg h0] at hpiece hend ⊢
  rw [if_neg h0]
  by_cases hderef : at' t₁ k₁ = derefSym
  · -- the escaped character is read as a literal at the next position
    rw [if_pos hderef] at hpiece hend ⊢
    rw [if_pos hderef]
    by_cases hnull : at' t₁ (k₁ + 1) = 0
    · rw [if_pos hnull] at hpiece
      cases hpiece
    rw [if_neg hnull] at hpiece hend ⊢
    have hle := @lexLiteral_le t₁ (k₁ + 1) { l₁ with lp1 := k₁ + 1 }
    have hnext : at' t₁ (k₁ + 1) = at' t₂ (k₂ + 1) := hw.at (by omega)
    rw [← hnext, if_neg hnull]
    have halike := @lexLiteral_samePiece _ _ _ _ _ { l₁ with lp1 := k₁ + 1 } { l₂ with lp1 := k₂ + 1 } _
      (hw.drop 1) rfl rfl hl (fun _ => hc) hpiece (by omega)
    exact ⟨halike.piece, by have := halike.input; omega⟩
  rw [if_neg hderef] at hpiece hend ⊢
  rw [if_neg hderef]
  have hliteral : pieceOf t₁ (lexLiteral t₁ k₁ { l₁ with lp1 := k₁ }) = some p →
      (lexLiteral t₁ k₁ { l₁ with lp1 := k₁ }).2.1 < k₁ + n →
      SamePiece t₁ k₁ (lexLiteral t₁ k₁ { l₁ with lp1 := k₁ }) t₂ k₂
        (lexLiteral t₂ k₂ { l₂ with lp1 := k₂ }) :=
    fun hpiece hend => lexLiteral_samePiece hw rfl rfl hl hprev hpiece hend
  -- `]` is its own piece in either mode
  by_cases hclose : at' t₁ k₁ = charcCloseSym
  · rw [if_pos hclose, if_pos hclose]
    exact ⟨rfl, by simp only [lexEnd]; omega⟩
  rw [if_neg hclose] at hpiece hend ⊢
  rw [if_neg hclose]
  by_cases hopen : at' t₁ k₁ = repOpenSym
  · rw [if_pos hopen] at hpiece hend ⊢
    rw [if_pos hopen]
    by_cases hmode : l₁.literal = true
    · rw [if_pos hmode] at hpiece hend ⊢
      rw [if_pos (hl ▸ hmode)]
      exact hliteral hpiece hend
    rw [if_neg hmode] at hpiece hend ⊢
    rw [if_neg (hl ▸ hmode)]
    -- the count is read from the text of the token
    rcases hrep : lexRep (at' t₁ (k₁ + 1)) (t₁.drop (k₁ + 1)) (at' t₁ k₁) false (k₁ + 1) with
      ⟨tok, j⟩
    rw [hrep] at hpiece hend
    have htok := lexRep_tok (at' t₁ (k₁ + 1)) (t₁.drop (k₁ + 1)) (at' t₁ k₁) false (k₁ + 1)
    rw [hrep] at htok
    rcases htok with htok | ⟨e, htok⟩
    · obtain rfl : tok = .rep := htok
      simp only [lexEnd] at hend
      rcases lexRep_local hrep with ⟨m, rfl, hm, hlocal⟩
      have hfirst : at' t₁ (k₁ + 1) = at' t₂ (k₂ + 1) := hw.at (by omega)
      have hdrop : Window t₁ (k₁ + 1) t₂ (k₂ + 1) m := (hw.drop 1).mono (by omega)
      rw [← hfirst, hlocal _ (k₂ + 1) hdrop.symm]
      refine ⟨?_, by simp only [lexEnd]; omega⟩
      have hlen : k₂ + 1 + m - k₂ - 2 = k₁ + 1 + m - k₁ - 2 := by omega
      have hcount : parseRep t₂ k₂ (k₂ + 1 + m) = parseRep t₁ k₁ (k₁ + 1 + m) := by
        unfold parseRep
        rw [hlen, (hdrop.mono (show k₁ + 1 + m - k₁ - 2 ≤ m by omega)).symm]
      simp only [pieceOf, lexEnd, hcount]
    · obtain rfl : tok = .error e := htok
      cases e <;> cases hpiece
  rw [if_neg hopen] at hpiece hend ⊢
  rw [if_neg hopen]
  by_cases hmode : l₁.literal = true
  · have hmode₂ : l₂.literal = true := hl ▸ hmode
    simp only [if_pos hmode, if_pos hmode₂] at hpiece hend ⊢
    cases hmeta : metaTok (at' t₁ k₁) with
    | some tok =>
        simp only [hmeta] at hpiece hend ⊢
        exact hliteral hpiece hend
    | none =>
        simp only [hmeta] at hpiece hend ⊢
        by_cases hp : isprintable (at' t₁ k₁) = true
        · rw [if_pos hp] at hpiece hend ⊢
          rw [if_pos hp]
          exact hliteral hpiece hend
        · rw [if_neg hp] at hpiece
          cases hpiece
  · have hmode₂ : ¬ l₂.literal = true := hl ▸ hmode
    simp only [if_neg hmode, if_neg hmode₂] at hpiece hend ⊢
    cases hmeta : metaTok (at' t₁ k₁) with
    | some tok =>
        simp only [hmeta] at hpiece hend ⊢
        refine ⟨pieceOf_sign (metaTok_sign hmeta) .., by simp only [lexEnd]; omega⟩
    | none =>
        simp only [hmeta] at hpiece hend ⊢
        by_cases hp : isprintable (at' t₁ k₁) = true
        · rw [if_pos hp] at hpiece hend ⊢
          rw [if_pos hp]
          exact hliteral hpiece hend
        · rw [if_neg hp] at hpiece
          cases hpiece

end

/-! ## The pieces of a text -/

/-- The piece the lexer shows at `k`, in a class or not, and where it stops. -/
def glimpse (text : List CChar) (k : Nat) (b : Bool) : Option (Piece × Nat) :=
  (pieceOf text (lex text k { literal := b, newlineSeen := false, lp1 := 0, lpn := 0 })).map
    fun p => (p, (lex text k { literal := b, newlineSeen := false, lp1 := 0, lpn := 0 }).2.1)

/-- Whether the text behind the piece is in a class. -/
def Piece.inside (b : Bool) : Piece → Bool
  | .sign .charcOpen => true
  | .sign .charcClose => false
  | _ => b

/-- The parenthesis a piece is. -/
def Piece.brackets : Piece → List Bracket
  | .sign tok => tok.brackets
  | _ => []

/-- From `k` to `j` the lexer shows the pieces given. -/
inductive Reads (text : List CChar) : Nat → Bool → List Piece → Nat → Bool → Prop
  | done {k : Nat} {b : Bool} : Reads text k b [] k b
  | step {k i j : Nat} {b b' : Bool} {p : Piece} {ps : List Piece}
      (h : glimpse text k b = some (p, i)) (rest : Reads text i (p.inside b) ps j b') :
      Reads text k b (p :: ps) j b'

section

variable {text t₁ t₂ : List CChar} {k i j k₁ k₂ j₁ n : Nat} {b b' b₁ : Bool} {p : Piece}
  {ps qs : List Piece} {l : LexStatics}

/-- The statics of the lexer make no difference, but for the flag. -/
theorem glimpse_of_lex (h : pieceOf text (lex text k l) = some p) :
    glimpse text k l.literal = some (p, (lex text k l).2.1) := by
  have halike := @lex_samePiece text text k k ((lex text k l).2.1 + 1) l
    { literal := l.literal, newlineSeen := false, lp1 := 0, lpn := 0 } p rfl rfl (fun _ => rfl) h
    (by omega)
  have hinput := halike.input
  unfold glimpse
  rw [halike.piece, h, Option.map_some, Nat.add_right_cancel hinput]

/-- What the lexer has done to show a piece. -/
theorem glimpse_lex (h : glimpse text k b = some (p, j)) : ∃ l, l.literal = b ∧
    pieceOf text (lex text k l) = some p ∧ (lex text k l).2.1 = j := by
  rcases Option.map_eq_some_iff.mp h with ⟨q, hq, heq⟩
  rcases Prod.mk.inj heq with ⟨rfl, hj⟩
  exact ⟨_, rfl, hq, hj⟩

theorem pieceOf_inside {r : Tok × Nat × LexStatics} (h : pieceOf text r = some p) (b : Bool) :
    (if r.1 = .charcOpen then true else if r.1 = .charcClose then false else b) = p.inside b ∧
      r.1.brackets = p.brackets := by
  rcases r with ⟨tok, j, l⟩
  cases tok with
  | eos | error => cases h
  | _ =>
      obtain rfl := Option.some.inj h
      exact ⟨rfl, rfl⟩

theorem glimpse_lt (h : glimpse text k b = some (p, j)) : k < j ∧ j ≤ text.length := by
  rcases glimpse_lex h with ⟨l, _, hpiece, rfl⟩
  rcases pieceOf_proper hpiece with ⟨heos, herr⟩
  rcases lex_advances text k l with h | ⟨e, h⟩ | h
  · exact absurd h heos
  · exact absurd h (herr e)
  · exact h

theorem glimpse_end (h0 : at' text k = 0) : glimpse text k b = none := by
  have hlex : ∀ l, lex text k l = (.eos, k, l) := by
    intro l
    unfold lex
    simp only [if_pos h0]
  unfold glimpse
  rw [hlex]
  rfl

theorem Reads.append (h : Reads text k b ps i b₁) (h' : Reads text i b₁ qs j b') :
    Reads text k b (ps ++ qs) j b' := by
  induction h with
  | done => exact h'
  | step hp _ ih => exact .step hp (ih h')

theorem Reads.single (h : glimpse text k b = some (p, j)) : Reads text k b [p] j (p.inside b) :=
  .step h .done

theorem Reads.le (h : Reads text k b ps j b') : k ≤ j := by
  induction h with
  | done => exact Nat.le_refl _
  | step hp _ ih => exact Nat.le_trans (Nat.le_of_lt (glimpse_lt hp).1) ih

/-- The pieces up to the end of the text start with those up to any place. -/
theorem Reads.rest (h' : Reads text k b qs i b₁) (hend : at' text j = 0) :
    ∀ {ps}, Reads text k b ps j b' → ∃ rs, ps = qs ++ rs ∧ Reads text i b₁ rs j b' := by
  induction h' with
  | done =>
      intro ps h
      exact ⟨ps, rfl, h⟩
  | @step k i₁ _ b _ p qs hp _ ih =>
      intro ps h
      cases h with
      | done =>
          rw [glimpse_end hend] at hp
          cases hp
      | step hp' hrest =>
          rw [hp] at hp'
          obtain ⟨rfl, rfl⟩ := Prod.mk.inj (Option.some.inj hp')
          rcases ih hrest with ⟨rs, rfl, hrs⟩
          exact ⟨rs, rfl, hrs⟩

/-- The pieces up to the end of the text are the only ones. -/
theorem Reads.unique (h : Reads text k b ps j b') (h' : Reads text k b qs i b₁)
    (hj : at' text j = 0) (hi : at' text i = 0) : ps = qs := by
  rcases h'.rest hj h with ⟨rs, rfl, hrs⟩
  cases hrs with
  | done => exact List.append_nil qs
  | step hp =>
      rw [glimpse_end hi] at hp
      cases hp

/-- The pieces of a window, which goes on behind them. -/
theorem Reads.window (h : Reads t₁ k₁ b ps j₁ b') : ∀ {k₂ n : Nat}, Window t₁ k₁ t₂ k₂ n →
    j₁ < k₁ + n → (b = true → at' t₁ (k₁ - 1) = at' t₂ (k₂ - 1)) →
    ∃ j₂, Reads t₂ k₂ b ps j₂ b' ∧ j₂ + k₁ = j₁ + k₂ := by
  induction h with
  | @done k b =>
      intro k₂ n _ _ _
      exact ⟨k₂, .done, Nat.add_comm _ _⟩
  | @step k i j b b' p ps hp hrest ih =>
      intro k₂ n hw hend hprev
      have hlt := (glimpse_lt hp).1
      have hle := hrest.le
      rcases glimpse_lex hp with ⟨l, rfl, hpiece, rfl⟩
      have halike := @lex_samePiece _ _ _ _ _ _ l _ hw rfl hprev hpiece (by omega)
      have hinput := halike.input
      have hp₂ := glimpse_of_lex (halike.piece.trans hpiece)
      generalize (lex t₁ k l).2.1 = i at hp hrest ih hlt hle hinput
      generalize (lex t₂ k₂ l).2.1 = i₂ at hp₂ hinput
      -- the window goes on from the end of the piece
      have hi : k + (i - k) = i := by omega
      have hi₂ : k₂ + (i - k) = i₂ := by omega
      have hw' := hw.drop (i - k)
      rw [hi, hi₂] at hw'
      have hlast : at' t₁ (i - 1) = at' t₂ (i₂ - 1) := by
        have := hw.at (show i - k - 1 < n by omega)
        rwa [show k + (i - k - 1) = i - 1 by omega, show k₂ + (i - k - 1) = i₂ - 1 by omega] at this
      rcases ih hw' (by omega) (fun _ => hlast) with ⟨j₂, hreads, hj₂⟩
      exact ⟨j₂, .step hp₂ hreads, by omega⟩

/-- The parentheses of the text are those of its pieces. -/
theorem Reads.parens_eq (h : Reads text k b ps j b') :
    parens b (cstring (text.drop k)) =
      ps.flatMap Piece.brackets ++ parens b' (cstring (text.drop j)) := by
  induction h with
  | done => rfl
  | @step k i j b b' p ps hp _ ih =>
      rcases glimpse_lex hp with ⟨l, rfl, hpiece, rfl⟩
      have hproper := pieceOf_proper hpiece
      rcases pieceOf_inside hpiece l.literal with ⟨hinside, hbrackets⟩
      have hmode := (lex_mode hproper.2).1
      rw [hinside] at hmode
      rw [lex_lexed text k l hproper.2, hmode, ih, hbrackets, List.flatMap_cons, List.append_assoc]

end

end Rxvm
