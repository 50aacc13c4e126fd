import Rxvm.Groups
import Rxvm.Lexemes
import Rxvm.Outside

/-!
# Rxvm.Spelling — expressions inside a text

The text of an expression of the grammar can stand anywhere outside a class:
it ends outside a class, too, and closes the parentheses it opens. Copies of a
group are read as copies of its pieces.
-/

namespace Rxvm

open Brackets

/-! ## Texts without an end in a class -/

/-- A text that starts in a class, or not, and ends in one, or not, with the
parentheses given. -/
structure Crosses (b : Bool) (u : List CChar) (w : List Bracket) (b' : Bool) : Prop where
  mode : modeBehind b u = some b'
  parens : parens b u = w
  noNul : NoNul u

section

variable {b b' b₁ : Bool} {u v : List CChar} {w w' : List Bracket} {c : CChar}

theorem Crosses.nil (b : Bool) : Crosses b [] [] b := by
  refine ⟨rfl, ?_, ?_⟩
  · rw [Rxvm.parens]
  · intro c hc
    cases hc

theorem Crosses.append (h : Crosses b u w b₁) (h' : Crosses b₁ v w' b') :
    Crosses b (u ++ v) (w ++ w') b' := by
  refine ⟨?_, ?_, ?_⟩
  · rw [modeBehind_append h.mode]
    exact h'.mode
  · rw [parens_append h.mode, h.parens, h'.parens]
  · intro c hc
    rcases List.mem_append.mp hc with hc | hc
    · exact h.noNul c hc
    · exact h'.noNul c hc

/-- The characters that escape another one, or are a bracket. -/
def turningSyms : List CChar := [derefSym, charcOpenSym, charcCloseSym, lparenSym, rparenSym]

/-- Characters that are neither leave all as it is. -/
theorem Crosses.plain (b : Bool) : ∀ {u : List CChar}, (∀ c ∈ u, c ∉ turningSyms ∧ c ≠ 0) →
    Crosses b u [] b := by
  intro u
  induction u with
  | nil => exact fun _ => .nil b
  | cons c u ih =>
      intro h
      have hrest := ih fun d hd => h d (List.mem_cons_of_mem c hd)
      have hc := (h c List.mem_cons_self).1
      simp only [turningSyms, List.mem_cons, List.not_mem_nil, or_false, not_or] at hc
      rcases hc with ⟨hderef, hopen, hclose, hl, hr⟩
      refine ⟨?_, ?_, ?_⟩
      · rw [modeBehind_plain hderef hopen hclose]
        exact hrest.mode
      · cases b with
        | true =>
            rw [parens_charc hderef, decide_eq_true hclose]
            exact hrest.parens
        | false =>
            rw [parens_plain hderef hopen hl hr]
            exact hrest.parens
      · intro d hd
        rcases List.mem_cons.mp hd with rfl | hd
        · exact (h d List.mem_cons_self).2
        · exact hrest.noNul d hd

theorem Crosses.escaped (b : Bool) (hc : c ≠ 0) : Crosses b [derefSym, c] [] b := by
  refine ⟨?_, ?_, ?_⟩
  · rw [modeBehind_deref]
    rfl
  · rw [parens_deref, Rxvm.parens]
  · intro d hd
    simp only [List.mem_cons, List.not_mem_nil, or_false] at hd
    rcases hd with rfl | rfl
    · decide
    · exact hc

/-! ## The texts of the grammar -/

theorem Literal.crosses {inSet : Bool} (l : Literal inSet) (b : Bool) :
    Crosses b l.text [] b := by
  have hmeta : ∀ d ∈ metaSyms, d ≠ 0 := by decide +kernel
  unfold Literal.text
  cases hesc : l.esc with
  | true => exact .escaped b (hmeta _ (l.escaped hesc))
  | false =>
      rcases l.plain hesc with ⟨hp, hplain⟩
      refine .plain b ?_
      intro d hd
      obtain rfl := List.mem_singleton.mp hd
      refine ⟨?_, isprintable_ne_zero hp⟩
      have hturning : ∀ d ∈ turningSyms, d ∈ metaSyms ∧ d ≠ rangeSepSym := by decide +kernel
      intro hmem
      rcases hplain with hplain | hplain
      · exact hplain (hturning _ hmem).1
      · exact (hturning _ hmem).2 hplain.2

theorem SetItem.crosses (item : SetItem) : Crosses true item.text [] true := by
  cases item with
  | char l => exact l.crosses true
  | range lo hi =>
      have hsep : Crosses true [rangeSepSym] [] true := .plain true (by decide +kernel)
      exact (lo.crosses true).append (hsep.append (hi.crosses true))

theorem SetItem.crosses_flatMap : ∀ items : List SetItem,
    Crosses true (items.flatMap SetItem.text) [] true := by
  intro items
  induction items with
  | nil => exact .nil true
  | cons item items ih => exact item.crosses.append ih

theorem Integer.turns (n : Integer) : ∀ c ∈ n.digits, c ∉ turningSyms ∧ c ≠ 0 := by
  intro c hc
  have hdigit := n.decimal c hc
  have hnone : ∀ d ∈ turningSyms, isdigit d = false := by decide +kernel
  refine ⟨?_, isdigit_ne hdigit rfl⟩
  intro hmem
  rw [hnone c hmem] at hdigit
  cases hdigit

theorem Reps.crosses (reps : Reps) : Crosses false (Lexeme.rep reps).text [] false := by
  have hsyms : ∀ c ∈ [repOpenSym, repCloseSym, commaSym], c ∉ turningSyms ∧ c ≠ 0 := by decide +kernel
  refine .plain false ?_
  intro c hc
  by_cases hsym : c ∈ [repOpenSym, repCloseSym, commaSym]
  · exact hsyms c hsym
  -- what is left are the digits
  simp only [List.mem_cons, List.not_mem_nil, or_false, not_or] at hsym
  rcases hsym with ⟨hopen, hclose, hcomma⟩
  cases reps <;>
    simp only [Lexeme.text, Reps.text, List.cons_append, List.mem_cons, List.mem_append,
      List.append_assoc, List.nil_append, List.not_mem_nil, hopen, hclose, hcomma, or_false,
      false_or] at hc
  case repN n => exact n.turns c hc
  case repRange n m =>
      rcases hc with hc | hc
      · exact n.turns c hc
      · exact m.turns c hc
  case repMore n => exact n.turns c hc
  case repLess m => exact m.turns c hc

/-- The parentheses of a lexeme. -/
def Lexeme.brackets : Lexeme → List Bracket
  | .lparen => [.opening]
  | .rparen => [.closing]
  | _ => []

theorem Lexeme.crosses (x : Lexeme) : Crosses false x.text x.brackets false := by
  cases x with
  | char l => exact l.crosses false
  | rep reps => exact reps.crosses
  | set negated item items =>
      have hopen : Crosses false [charcOpenSym] [] true := ⟨by decide, by decide, by decide⟩
      have hclose : Crosses true [charcCloseSym] [] false := ⟨by decide, by decide, by decide⟩
      have hsol : Crosses true (if negated then [solSym] else []) [] true := by
        cases negated with
        | true => exact .plain true (by decide +kernel)
        | false => exact .nil true
      exact (hopen.append (hsol.append (SetItem.crosses_flatMap (item :: items)))).append hclose
  | _ => exact ⟨by decide, by decide, by decide⟩

theorem Lexeme.crosses_flatMap : ∀ l : List Lexeme,
    Crosses false (l.flatMap text) (l.flatMap brackets) false := by
  intro l
  induction l with
  | nil => exact .nil false
  | cons x l ih => exact x.crosses.append ih

/-- An expression closes the parentheses it opens. -/
theorem Expr.balanced {n : NonTerm} (e : Expr n) : Balanced (e.lexemes.flatMap Lexeme.brackets) := by
  induction e with
  | ofSimple e ih | ofBasic e ih | ofElem e ih => exact ih
  | union e f he hf =>
      rw [Expr.lexemes, List.flatMap_append]
      exact he.append hf
  | concat e f he hf =>
      rw [Expr.lexemes, List.flatMap_append]
      exact he.append hf
  | zero e ih | one e ih | onezero e ih | rep e _ ih =>
      rw [Expr.lexemes, List.flatMap_append]
      exact ih.append .nil
  | group e ih =>
      rw [Expr.lexemes, List.cons_append, List.flatMap_cons, List.flatMap_append]
      exact ih.wrap
  | any | eol | sol | char | set => exact .nil

end

/-! ## Texts read as pieces -/

/-- Outside a class and in front of the character given, the text is read as
the pieces. -/
def ReadAs (u : List CChar) (c : CChar) (ps : List Piece) : Prop :=
  ∀ (text : List CChar) (k : Nat) (rest : List CChar), text.drop k = u ++ c :: rest →
    Reads text k false ps (k + u.length) false

/-- The text of a group. -/
def groupText (r : List CChar) : List CChar := lparenSym :: r ++ [rparenSym]

section

variable {text u r rest : List CChar} {k n : Nat} {c : CChar} {tok : Tok} {ps : List Piece}

/-- What is read in one place is read everywhere. -/
theorem readAs_of_reads (h : Reads text k false ps (k + u.length) false)
    (hdrop : text.drop k = u ++ c :: rest) : ReadAs u c ps := by
  intro text' k' rest' hdrop'
  have hlen : u.length + 1 = (u ++ [c]).length := by
    rw [List.length_append, List.length_singleton]
  have htake : ∀ l : List CChar, (u ++ c :: l).take (u.length + 1) = u ++ [c] := by
    intro l
    rw [hlen, show u ++ c :: l = u ++ [c] ++ l by simp, List.take_left]
  have hw : Window text k text' k' (u.length + 1) := by
    rw [Window, hdrop, hdrop', htake, htake]
  rcases h.window hw (by omega) (fun hb => absurd hb Bool.false_ne_true) with ⟨j, hreads, hj⟩
  obtain rfl : j = k' + u.length := by omega
  exact hreads

theorem glimpse_symbol (hdrop : text.drop k = c :: rest) (hmeta : metaTok c = some tok)
    (hc : c ≠ derefSym ∧ c ≠ charcCloseSym ∧ c ≠ repOpenSym)
    (hpiece : ∀ j l, pieceOf text (tok, j, l) = some (.sign tok)) :
    glimpse text k false = some (.sign tok, k + 1) := by
  have hlexes := lex_symbol (g := { literal := false, newlineSeen := false, lp1 := 0, lpn := 0 })
    hdrop rfl hmeta hc
  have h := hpiece (k + 1) (lex text k
    { literal := false, newlineSeen := false, lp1 := 0, lpn := 0 }).2.2
  rw [← hlexes.tok, ← hlexes.input] at h
  have hglimpse := glimpse_of_lex h
  rw [hlexes.input, hlexes.tok] at hglimpse
  exact hglimpse

theorem glimpse_rep (reps : Reps) (hfits : reps.Fits)
    (hdrop : text.drop k = (Lexeme.rep reps).text ++ rest) :
    glimpse text k false = some (.rep reps.fields.1 reps.fields.2,
      k + (Lexeme.rep reps).text.length) := by
  have hlexes := lex_rep (g := { literal := false, newlineSeen := false, lp1 := 0, lpn := 0 })
    reps hdrop rfl
  have hparse := parseRep_of_checked (parseRepChecked_eq reps hfits hdrop)
  have h : pieceOf text (lex text k
      { literal := false, newlineSeen := false, lp1 := 0, lpn := 0 }) =
        some (.rep reps.fields.1 reps.fields.2) := by
    unfold pieceOf
    rw [hlexes.tok, hlexes.lp1, hlexes.lpn, hparse]
  have hglimpse := glimpse_of_lex h
  rwa [hlexes.input] at hglimpse

/-- A group is read as its pieces. -/
theorem ReadAs.group (h : ReadAs r rparenSym ps) (hdrop : text.drop k = groupText r ++ rest) :
    Reads text k false (groupPieces ps) (k + (groupText r).length) false := by
  have hopen : text.drop k = lparenSym :: (r ++ rparenSym :: rest) := by
    rw [hdrop]
    simp [groupText]
  have hbody := drop_succ_of_drop hopen
  have hclose : text.drop (k + 1 + r.length) = rparenSym :: rest := drop_of_drop_append hbody
  have hl : glimpse text k false = some (.sign .lparen, k + 1) :=
    glimpse_symbol hopen rfl (by decide) fun _ _ => rfl
  have hr : glimpse text (k + 1 + r.length) false = some (.sign .rparen, k + 1 + r.length + 1) :=
    glimpse_symbol hclose rfl (by decide) fun _ _ => rfl
  have hlen : k + (groupText r).length = k + 1 + r.length + 1 := by
    simp only [groupText, List.length_append, List.length_cons, List.length_nil]
    omega
  rw [hlen]
  exact .step hl ((h text (k + 1) rest hbody).append (.single hr))

/-- Copies of a group are read as copies of its pieces. -/
theorem ReadAs.copies (h : ReadAs r rparenSym ps) : ∀ {n k : Nat},
    text.drop k = (List.replicate n (groupText r)).flatten ++ rest →
    Reads text k false (List.replicate n (groupPieces ps)).flatten
      (k + (List.replicate n (groupText r)).flatten.length) false := by
  intro n
  induction n with
  | zero => exact fun _ => .done
  | succ n ih =>
      intro k hdrop
      rw [List.replicate_succ, List.flatten_cons, List.append_assoc] at hdrop
      rw [List.replicate_succ, List.flatten_cons, List.replicate_succ, List.flatten_cons,
        List.length_append, ← Nat.add_assoc]
      exact (h.group hdrop).append (ih (drop_of_drop_append hdrop))

/-- The pieces of an expression are balanced, as its text is. -/
theorem ReadAs.balanced {e : Expr .re} (h : ReadAs e.text c ps) (hc : c ≠ 0) :
    Balanced (ps.flatMap Piece.brackets) := by
  have hcross : Crosses false e.text (e.lexemes.flatMap Lexeme.brackets) false :=
    Lexeme.crosses_flatMap e.lexemes
  have hreads := h (e.text ++ [c]) 0 [] rfl
  have hparens := hreads.parens_eq
  have hdrop : (e.text ++ [c]).drop (0 + e.text.length) = [c] := by
    rw [Nat.zero_add, List.drop_left]
  have hnul : NoNul (e.text ++ [c]) := by
    intro d hd
    rcases List.mem_append.mp hd with hd | hd
    · exact hcross.noNul d hd
    · rw [List.mem_singleton.mp hd]
      exact hc
  have hnul' : NoNul [c] := fun d hd => hnul d (List.mem_append_right _ hd)
  rw [List.drop_zero, hdrop, cstring_eq_self hnul, cstring_eq_self hnul',
    parens_append hcross.mode] at hparens
  rw [← List.append_cancel_right hparens, hcross.parens]
  exact e.balanced

end

end Rxvm
