import Rxvm.Realizes
import Rxvm.Framed
import Rxvm.LexSpec

/-!
# Rxvm.Lexemes — the lexer reads lexemes

Where the text goes on with a lexeme, the lexer returns its token and stops
behind it; inside a set it returns the items.
-/

namespace Rxvm

section

variable {exp post : List CChar} {k j : Nat} {g : LexStatics} {c : CChar} {tok : Tok}

/-! ## The text from a position on -/

theorem at'_of_drop (h : exp.drop k = c :: post) : at' exp k = c := by
  have hget : exp[k]? = some c := by
    have := congrArg (fun l => l[0]?) h
    simpa using this
  rw [at', List.getD_eq_getElem?_getD, hget]
  rfl

theorem drop_succ_of_drop (h : exp.drop k = c :: post) : exp.drop (k + 1) = post := by
  have := congrArg List.tail h
  simpa [List.tail_drop] using this

theorem drop_of_drop_append {t : List CChar} (h : exp.drop k = t ++ post) :
    exp.drop (k + t.length) = post := by
  rw [← List.drop_drop, h, List.drop_left]

theorem at'_of_drop_nil (h : exp.drop k = []) : at' exp k = 0 := by
  rw [at', List.getD_eq_getElem?_getD, List.getElem?_eq_none (List.drop_eq_nil_iff.mp h)]
  rfl

/-- The lexer returns `tok` at `k` and stops at `j`, with the statics it
leaves. -/
structure Lexes (exp : List CChar) (k : Nat) (g : LexStatics) (tok : Tok) (j lp1 : Nat)
    (literal : Bool) : Prop where
  tok : (lex exp k g).1 = tok
  input : (lex exp k g).2.1 = j
  lp1 : (lex exp k g).2.2.lp1 = lp1
  lpn : (lex exp k g).2.2.lpn = j
  literal : (lex exp k g).2.2.literal = literal

theorem Lexes.of_eq {g' : LexStatics} {literal : Bool} {lp1 : Nat} (h : lex exp k g = (tok, j, g'))
    (hlp1 : g'.lp1 = lp1) (hlpn : g'.lpn = j) (hliteral : g'.literal = literal) :
    Lexes exp k g tok j lp1 literal := by
  constructor <;> rw [h]
  · exact hlp1
  · exact hlpn
  · exact hliteral

/-! ## Characters -/

theorem metaTok_of_plain (h : c ∉ metaSyms ∨ c = rangeSepSym) : metaTok c = none := by
  rcases h with h | rfl
  · rcases hmeta : metaTok c with _ | tok
    · rfl
    · have hall : ∀ p ∈ metaTable, p.1 ∈ metaSyms := by decide +kernel
      exact absurd (hall _ (mem_metaTable hmeta)) h
  · rfl

theorem plain_ne (h : c ∉ metaSyms ∨ c = rangeSepSym) {d : CChar} (hd : d ∈ metaSyms)
    (hne : d ≠ rangeSepSym) : c ≠ d := by
  rintro rfl
  rcases h with h | h
  · exact h hd
  · exact hne h

/-- What the lexer does at a character that no backslash precedes. -/
theorem lex_plain (hc : at' exp k = c) (hp : isprintable c = true)
    (hplain : c ∉ metaSyms ∨ c = rangeSepSym) :
    lex exp k g = lexLiteral exp k { g with lp1 := k } := by
  have h0 : c ≠ 0 := isprintable_ne_zero hp
  have hderef : c ≠ derefSym := plain_ne hplain (by decide) (by decide)
  have hclose : c ≠ charcCloseSym := plain_ne hplain (by decide) (by decide)
  have hopen : c ≠ repOpenSym := plain_ne hplain (by decide) (by decide)
  unfold lex
  simp only [hc, if_neg h0, if_neg hderef, if_neg hclose, if_neg hopen, metaTok_of_plain hplain,
    if_pos hp]

theorem lex_escaped (hderef : at' exp k = derefSym) (hc : at' exp (k + 1) = c) (h0 : c ≠ 0) :
    lex exp k g = lexLiteral exp (k + 1) { g with lp1 := k + 1 } := by
  have hderef0 : (derefSym : CChar) ≠ 0 := by decide
  unfold lex
  simp only [hderef, if_neg hderef0, if_true, hc, if_neg h0]

theorem Literal.text_pos {inSet : Bool} (l : Literal inSet) : 0 < l.text.length := by
  unfold Literal.text
  split_ifs <;> simp

/-- The character of a literal, at the place the lexer points to. -/
theorem Literal.read {inSet : Bool} (l : Literal inSet) (h : exp.drop k = l.text ++ post) :
    at' exp (k + l.text.length - 1) = l.c ∧ exp.drop (k + l.text.length) = post ∧
      (∀ g : LexStatics, lex exp k g = lexLiteral exp (k + l.text.length - 1)
        { g with lp1 := k + l.text.length - 1 }) ∧
      (l.esc = true → at' exp (k + l.text.length - 1 - 1) = derefSym) := by
  have hpost := drop_of_drop_append h
  have hne := isprintable_ne_zero l.printable
  cases hesc : l.esc with
  | true =>
      have htext : l.text = [derefSym, l.c] := by simp [Literal.text, hesc]
      rw [htext] at h hpost ⊢
      have h1 := drop_succ_of_drop (show exp.drop k = derefSym :: l.c :: post from h)
      exact ⟨at'_of_drop h1, hpost, fun g => lex_escaped (at'_of_drop h) (at'_of_drop h1) hne,
        fun _ => at'_of_drop h⟩
  | false =>
      have htext : l.text = [l.c] := by simp [Literal.text, hesc]
      rw [htext] at h hpost ⊢
      have hplain := l.plain hesc
      refine ⟨at'_of_drop h, hpost, fun g => ?_, by simp⟩
      exact lex_plain (at'_of_drop h) hplain.1 (hplain.2.imp_right And.right)

/-! ## Outside a set -/

theorem lex_char (l : Literal false) (h : exp.drop k = l.text ++ post) (hg : g.literal = false) :
    Lexes exp k g .literal (k + l.text.length) (k + l.text.length - 1) false := by
  rcases l.read h with ⟨_, _, hlex, _⟩
  have hpos := l.text_pos
  rcases @lexLiteral_outside exp (k + l.text.length - 1)
    { g with lp1 := k + l.text.length - 1 } hg with ⟨seen, heq⟩
  have hinput : k + l.text.length - 1 + 1 = k + l.text.length := by omega
  rw [hinput] at heq
  exact .of_eq ((hlex g).trans heq) rfl rfl hg

/-- The lexemes of one symbol. -/
theorem lex_symbol (h : exp.drop k = c :: post) (hg : g.literal = false)
    (hmeta : metaTok c = some tok) (hc : c ≠ derefSym ∧ c ≠ charcCloseSym ∧ c ≠ repOpenSym) :
    Lexes exp k g tok (k + 1) k (decide (c = charcOpenSym)) := by
  have hat := at'_of_drop h
  have h0 : c ≠ 0 := by
    rintro rfl
    cases hmeta
  have hlit : ¬ g.literal = true := by simp [hg]
  have hrun : lex exp k g = lexEnd tok (k + 1)
      (if c = charcOpenSym then { g with lp1 := k, literal := true } else { g with lp1 := k }) := by
    unfold lex
    simp only [hat, if_neg h0, if_neg hc.1, if_neg hc.2.1, if_neg hc.2.2, hmeta]
    rw [if_neg hlit]
  refine .of_eq hrun ?_ rfl ?_
  · split_ifs <;> rfl
  · split_ifs with e
    · exact (decide_eq_true e).symm
    · exact hg.trans (decide_eq_false e).symm

/-! ## Counts -/

theorem isdigit_ne {d : CChar} (hc : isdigit c = true) (hd : isdigit d = false) : c ≠ d := by
  rintro rfl
  rw [hc] at hd
  cases hd

/-- The scan of a count passes digits. -/
theorem lexRep_digits {first : CChar} {rest : List CChar} {comma : Bool} :
    ∀ {digits : List CChar} {prev : CChar} {input : Nat}, (∀ d ∈ digits, isdigit d = true) →
    digits ≠ [] → ∃ prev', isdigit prev' = true ∧
      lexRep first (digits ++ rest) prev comma input =
        lexRep first rest prev' comma (input + digits.length) := by
  intro digits
  -- by induction on the digits; the last one read is the `prev` of what follows
  induction digits with
  | nil => exact fun _ hne => absurd rfl hne
  | cons d digits ih =>
      intro prev input hdigits _
      have hd := hdigits d List.mem_cons_self
      have hstep : lexRep first (d :: (digits ++ rest)) prev comma input =
          lexRep first (digits ++ rest) d comma (input + 1) := by
        rw [lexRep, if_neg (isdigit_ne hd rfl), if_neg (isdigit_ne hd rfl),
          if_neg (isdigit_ne hd rfl), if_neg (by simp [hd])]
      rw [List.cons_append, hstep]
      by_cases hnil : digits = []
      · subst hnil
        exact ⟨d, hd, rfl⟩
      · rcases ih (fun x hx => hdigits x (List.mem_cons_of_mem d hx)) hnil with
          ⟨prev', hprev', hrun⟩
        refine ⟨prev', hprev', ?_⟩
        rw [hrun]
        congr 1
        simp only [List.length_cons]
        omega

theorem lexRep_comma {first prev : CChar} {rest : List CChar} {input : Nat} :
    lexRep first (commaSym :: rest) prev false input =
      lexRep first rest commaSym true (input + 1) := rfl

theorem lexRep_close {first prev : CChar} {rest : List CChar} {comma : Bool} {input : Nat}
    (h : isdigit prev = true ∨ isdigit first = true) :
    lexRep first (repCloseSym :: rest) prev comma input = (.rep, input + 1) := by
  have h0 : (repCloseSym : CChar) ≠ 0 := by decide
  have hdigit : (!isdigit prev && !isdigit first) = false := by
    rcases h with h | h <;> simp [h]
  rw [lexRep, if_neg h0, if_pos rfl, hdigit]
  rfl

theorem Integer.head (n : Integer) (rest : List CChar) :
    ∃ d t, n.digits ++ rest = d :: t ∧ isdigit d = true := by
  rcases hdigits : n.digits with _ | ⟨d, digits⟩
  · exact absurd hdigits n.nonempty
  · exact ⟨d, digits ++ rest, rfl, n.decimal d (by simp [hdigits])⟩

/-- The scan of a count, from its first character on. -/
theorem lexRep_text (reps : Reps) {first : CChar} {input : Nat}
    (hfirst : ∀ d t, reps.text ++ repCloseSym :: post = d :: t → first = d) :
    lexRep first (reps.text ++ repCloseSym :: post) repOpenSym false input =
      (.rep, input + reps.text.length + 1) := by
  -- the four spellings: each run of digits, then the comma or the brace
  cases reps with
  | repN n =>
      rcases n.head (repCloseSym :: post) with ⟨d, t, heq, hd⟩
      obtain rfl := hfirst d t heq
      rcases lexRep_digits n.decimal n.nonempty with ⟨prev, hprev, hrun⟩
      exact hrun.trans (lexRep_close (Or.inl hprev))
  | repRange n m =>
      rcases lexRep_digits n.decimal n.nonempty with ⟨prev, _, hrun⟩
      rcases lexRep_digits m.decimal m.nonempty with ⟨prev', hprev', hrun'⟩
      rw [Reps.text, List.append_assoc, hrun, List.cons_append, lexRep_comma, hrun',
        lexRep_close (Or.inl hprev')]
      simp only [List.length_append, List.length_cons]
      congr 1
      omega
  | repMore n =>
      rcases n.head (commaSym :: repCloseSym :: post) with ⟨d, t, heq, hd⟩
      obtain rfl := hfirst d t (by rw [Reps.text, List.append_assoc]; exact heq)
      rcases lexRep_digits n.decimal n.nonempty with ⟨prev, _, hrun⟩
      rw [Reps.text, List.append_assoc, hrun, List.cons_append, lexRep_comma, List.nil_append,
        lexRep_close (Or.inr hd)]
      simp only [List.length_append, List.length_cons, List.length_nil]
      congr 1
  | repLess m =>
      rcases lexRep_digits m.decimal m.nonempty with ⟨prev, hprev, hrun⟩
      rw [Reps.text, List.cons_append, lexRep_comma, hrun, lexRep_close (Or.inl hprev)]
      simp only [List.length_cons]
      congr 1
      omega

theorem lex_rep (reps : Reps) (h : exp.drop k = (Lexeme.rep reps).text ++ post)
    (hg : g.literal = false) :
    Lexes exp k g .rep (k + (Lexeme.rep reps).text.length) k false := by
  have htext : exp.drop k = repOpenSym :: (reps.text ++ repCloseSym :: post) := by
    rw [h]
    simp [Lexeme.text]
  have hat := at'_of_drop htext
  have hdrop := drop_succ_of_drop htext
  have hrun : lexRep (at' exp (k + 1)) (reps.text ++ repCloseSym :: post) repOpenSym false (k + 1) =
      (.rep, k + 1 + reps.text.length + 1) := by
    refine lexRep_text reps ?_
    intro d t heq
    exact at'_of_drop (hdrop.trans heq)
  have hlit : ¬ g.literal = true := by simp [hg]
  have hinput : k + 1 + reps.text.length + 1 = k + (Lexeme.rep reps).text.length := by
    simp only [Lexeme.text, List.length_append, List.length_cons, List.length_nil]
    omega
  have h0 : (repOpenSym : CChar) ≠ 0 := by decide
  have h1 : (repOpenSym : CChar) ≠ derefSym := by decide
  have h2 : (repOpenSym : CChar) ≠ charcCloseSym := by decide
  have hlex : lex exp k g = lexEnd .rep (k + (Lexeme.rep reps).text.length) { g with lp1 := k } := by
    -- `{` is none of the symbols looked at first, and outside a class it opens a repetition
    unfold lex
    simp only [hat, if_neg h0, if_neg h1, if_neg h2, if_true]
    rw [if_neg hlit, hdrop, hrun, hinput]
  exact .of_eq hlex rfl rfl hg

/-! ## The numbers of a count -/

theorem digit_bounds {d : CChar} (h : isdigit d = true) :
    0 ≤ d.toInt - (chr '0').toInt ∧ d.toInt - (chr '0').toInt ≤ 9 := by
  have h9 : (chr '9').toInt = (chr '0').toInt + 9 := by decide
  simp only [isdigit, Bool.and_eq_true, decide_eq_true_eq, Int8.le_iff_toInt_le] at h
  omega

theorem digitsValue_ge : ∀ {digits : List CChar} {n : Int}, 0 ≤ n →
    (∀ d ∈ digits, isdigit d = true) → n ≤ digitsValue n digits := by
  intro digits
  induction digits with
  | nil => exact fun _ _ => le_rfl
  | cons d digits ih =>
      intro n hn hdigits
      have hd := digit_bounds (hdigits d List.mem_cons_self)
      have hrest := ih (n := n * 10 + (d.toInt - (chr '0').toInt)) (by omega)
        fun x hx => hdigits x (List.mem_cons_of_mem d hx)
      show n ≤ digitsValue (n * 10 + (d.toInt - (chr '0').toInt)) digits
      omega

/-- A value of type `int`. -/
def IsInt (n : Int) : Prop := -2147483648 ≤ n ∧ n < 2147483648

instance (n : Int) : Decidable (IsInt n) := inferInstanceAs (Decidable (_ ∧ _))

/-- The arithmetic of `parse_rep` on one digit; `none` is a signed overflow. -/
def repDigitChecked (curr : Int) (c : CChar) : Option Int :=
  let curr := if curr = repNoField then 0 else curr
  if IsInt (curr * 10) ∧ IsInt (curr * 10 + (c.toInt - (chr '0').toInt)) then
    some (curr * 10 + (c.toInt - (chr '0').toInt))
  else none

/-- The loop of `parse_rep`, up to the first overflow. -/
def parseRepLoopChecked : List CChar → Bool → Int → Int → Option (Bool × Int × Int)
  | [], currM, repN, repM => some (currM, repN, repM)
  | c :: rest, currM, repN, repM =>
    if c = commaSym then parseRepLoopChecked rest true repN repM
    else if currM then (repDigitChecked repM c).bind (parseRepLoopChecked rest true repN)
    else (repDigitChecked repN c).bind fun repN => parseRepLoopChecked rest false repN repM

/-- The markers of the absent fields, at the end of `parse_rep`. -/
def repMarked : Bool × Int × Int → Int × Int
  | (false, repN, repM) => (repN, repM)
  | (true, repN, repM) =>
    (if repN = repNoField then repFieldEmpty else repN,
      if repM = repNoField then repFieldEmpty else repM)

/-- `parse_rep`, where no operation overflows. -/
def parseRepChecked (text : List CChar) (start fin : Nat) : Option (Int × Int) :=
  (parseRepLoopChecked ((text.drop (start + 1)).take (fin - start - 2)) false
    repNoField repNoField).map repMarked

theorem repDigit_of_checked {curr n : Int} {c : CChar} (h : repDigitChecked curr c = some n) :
    repDigit curr c = n := by
  simp only [repDigitChecked, repDigit] at h ⊢
  generalize (if curr = repNoField then 0 else curr) = m at h ⊢
  by_cases hfits : IsInt (m * 10) ∧ IsInt (m * 10 + (c.toInt - (chr '0').toInt))
  · rw [if_pos hfits] at h
    rcases hfits with ⟨⟨hmul1, hmul2⟩, hadd1, hadd2⟩
    rw [i32_eq hmul1 hmul2, i32_eq hadd1 hadd2]
    exact Option.some.inj h
  · rw [if_neg hfits] at h
    cases h

/-- Without an overflow the checked loop is the loop. -/
theorem parseRepLoop_of_checked : ∀ {text : List CChar} {currM : Bool} {repN repM : Int}
    {r : Bool × Int × Int}, parseRepLoopChecked text currM repN repM = some r →
    parseRepLoop text currM repN repM = r := by
  intro text
  induction text with
  | nil =>
      intro currM repN repM r h
      exact Option.some.inj h
  | cons c rest ih =>
      intro currM repN repM r h
      unfold parseRepLoopChecked at h
      unfold parseRepLoop
      by_cases hcomma : c = commaSym
      · rw [if_pos hcomma] at h ⊢
        exact ih h
      rw [if_neg hcomma] at h ⊢
      cases currM with
      | true =>
          rcases Option.bind_eq_some_iff.mp h with ⟨n, hdigit, hrest⟩
          rw [if_pos rfl, repDigit_of_checked hdigit]
          exact ih hrest
      | false =>
          rcases Option.bind_eq_some_iff.mp h with ⟨n, hdigit, hrest⟩
          rw [if_neg Bool.false_ne_true, repDigit_of_checked hdigit]
          exact ih hrest

theorem parseRep_of_checked {text : List CChar} {start fin : Nat} {r : Int × Int}
    (h : parseRepChecked text start fin = some r) : parseRep text start fin = r := by
  rcases Option.map_eq_some_iff.mp h with ⟨⟨currM, repN, repM⟩, hloop, rfl⟩
  unfold parseRep
  rw [parseRepLoop_of_checked hloop]
  cases currM <;> rfl

/-- One digit of a number that fits. -/
theorem repDigitChecked_eq {n : Int} {d : CChar} (hn : 0 ≤ n) (hd : isdigit d = true)
    (hlt : n * 10 + (d.toInt - (chr '0').toInt) < 2147483648) :
    repDigitChecked n d = some (n * 10 + (d.toInt - (chr '0').toInt)) := by
  have hbounds := digit_bounds hd
  have hfield : n ≠ repNoField := by
    show n ≠ -1
    omega
  simp only [repDigitChecked, if_neg hfield]
  refine if_pos ⟨⟨?_, ?_⟩, ?_, ?_⟩ <;> omega

/-- The first digit of a field. -/
theorem repDigitChecked_first (d : CChar) :
    repDigitChecked repNoField d = repDigitChecked 0 d := rfl

/-- The digits of a number that fits in an `int`, from any value in front. -/
theorem parseRepLoopChecked_digits {rest : List CChar} {currM : Bool} {other : Int} :
    ∀ {digits : List CChar} {n : Int}, 0 ≤ n → (∀ d ∈ digits, isdigit d = true) →
    digitsValue n digits < 2147483648 →
    parseRepLoopChecked (digits ++ rest) currM (if currM then other else n)
        (if currM then n else other) =
      parseRepLoopChecked rest currM (if currM then other else digitsValue n digits)
        (if currM then digitsValue n digits else other) := by
  intro digits
  induction digits with
  | nil => exact fun _ _ _ => rfl
  | cons d digits ih =>
      intro n hn hdigits hlt
      have hd := hdigits d List.mem_cons_self
      have hbounds := digit_bounds hd
      have hdigits' := fun x hx => hdigits x (List.mem_cons_of_mem d hx)
      have hlt' : digitsValue (n * 10 + (d.toInt - (chr '0').toInt)) digits < 2147483648 := hlt
      have hge := digitsValue_ge (n := n * 10 + (d.toInt - (chr '0').toInt)) (by omega) hdigits'
      have hdigit := repDigitChecked_eq hn hd (by omega)
      have hrest := ih (n := n * 10 + (d.toInt - (chr '0').toInt)) (by omega) hdigits' hlt'
      rw [List.cons_append, parseRepLoopChecked, if_neg (isdigit_ne hd rfl)]
      -- the digit goes to the number that is being read
      cases currM with
      | true =>
          simp only [if_true, hdigit, Option.bind_some] at hrest ⊢
          exact hrest
      | false =>
          simp only [Bool.false_eq_true, if_false, hdigit, Option.bind_some] at hrest ⊢
          exact hrest

/-- A field: the digits of a number that fits, from the marker on. -/
theorem Integer.field (n : Integer) (h : n.value < 2147483648) {rest : List CChar} (currM : Bool)
    (other : Int) :
    parseRepLoopChecked (n.digits ++ rest) currM (if currM then other else repNoField)
        (if currM then repNoField else other) =
      parseRepLoopChecked rest currM (if currM then other else n.value)
        (if currM then n.value else other) := by
  have hrun := @parseRepLoopChecked_digits rest currM other n.digits 0 le_rfl n.decimal h
  rcases hdigits : n.digits with _ | ⟨d, digits⟩
  · exact absurd hdigits n.nonempty
  -- the first digit starts from 0
  have hd : d ≠ commaSym := isdigit_ne (n.decimal d (by simp [hdigits])) rfl
  rw [hdigits] at hrun
  rw [List.cons_append, parseRepLoopChecked, if_neg hd] at hrun ⊢
  have hvalue : digitsValue 0 (d :: digits) = n.value := by rw [Integer.value, hdigits]
  rw [hvalue] at hrun
  cases currM with
  | true =>
      simp only [if_true, repDigitChecked_first] at hrun ⊢
      exact hrun
  | false =>
      simp only [Bool.false_eq_true, if_false, repDigitChecked_first] at hrun ⊢
      exact hrun

theorem parseRepLoopChecked_comma {rest : List CChar} {currM : Bool} {repN repM : Int} :
    parseRepLoopChecked (commaSym :: rest) currM repN repM =
      parseRepLoopChecked rest true repN repM := rfl

/-- The numbers of a count that are written fit in an `int`. -/
def Reps.Fits : Reps → Prop
  | .repN n => n.value < 2147483648
  | .repRange n m => n.value < 2147483648 ∧ m.value < 2147483648
  | .repMore n => n.value < 2147483648
  | .repLess m => m.value < 2147483648

theorem Reps.Admissible.fits {reps : Reps} (h : reps.Admissible) : reps.Fits := by
  cases reps with
  | repN n => exact h.2
  | repRange n m => exact h.2
  | repMore n => exact h
  | repLess m => exact h.2

theorem Integer.value_ne (n : Integer) : n.value ≠ repNoField := by
  have h := n.value_nonneg
  show n.value ≠ -1
  omega

/-- The loop on the text of a count. -/
theorem Reps.Fits.read {reps : Reps} (h : reps.Fits) :
    (parseRepLoopChecked reps.text false repNoField repNoField).map repMarked =
      some reps.fields := by
  -- the numbers that are not written keep the mark for a missing field
  cases reps with
  | repN n =>
      have hn := @Integer.field n h [] false repNoField
      rw [List.append_nil] at hn
      simp only [Bool.false_eq_true, if_false] at hn
      rw [Reps.text, hn]
      rfl
  | repRange n m =>
      have hn := @Integer.field n h.1 (commaSym :: m.digits) false repNoField
      have hm := @Integer.field m h.2 [] true n.value
      rw [List.append_nil] at hm
      simp only [Bool.false_eq_true, if_false, if_true] at hn hm
      rw [Reps.text, hn, parseRepLoopChecked_comma, hm]
      simp [parseRepLoopChecked, repMarked, Reps.fields, n.value_ne, m.value_ne]
  | repMore n =>
      have hn := @Integer.field n h [commaSym] false repNoField
      simp only [Bool.false_eq_true, if_false] at hn
      rw [Reps.text, hn, parseRepLoopChecked_comma]
      simp [parseRepLoopChecked, repMarked, Reps.fields, n.value_ne]
  | repLess m =>
      have hm := @Integer.field m h [] true repNoField
      rw [List.append_nil] at hm
      simp only [if_true] at hm
      rw [Reps.text, parseRepLoopChecked_comma, hm]
      simp [parseRepLoopChecked, repMarked, Reps.fields, m.value_ne]

/-- `parse_rep` is given the text of a count. -/
theorem parseRepChecked_text (reps : Reps)
    (h : exp.drop k = (Lexeme.rep reps).text ++ post) :
    (exp.drop (k + 1)).take (k + (Lexeme.rep reps).text.length - k - 2) = reps.text := by
  have htext : exp.drop k = repOpenSym :: (reps.text ++ repCloseSym :: post) := by
    rw [h]
    simp [Lexeme.text]
  have hlen : k + (Lexeme.rep reps).text.length - k - 2 = reps.text.length := by
    simp only [Lexeme.text, List.length_append, List.length_cons, List.length_nil]
    omega
  rw [drop_succ_of_drop htext, hlen, List.take_left]

theorem parseRepChecked_eq (reps : Reps) (hfits : reps.Fits)
    (h : exp.drop k = (Lexeme.rep reps).text ++ post) :
    parseRepChecked exp k (k + (Lexeme.rep reps).text.length) = some reps.fields := by
  unfold parseRepChecked
  rw [parseRepChecked_text reps h]
  exact hfits.read

/-- `parse_rep` on the text of a count. -/
theorem parseRep_eq (reps : Reps) (hadm : reps.Admissible)
    (h : exp.drop k = (Lexeme.rep reps).text ++ post) :
    parseRep exp k (k + (Lexeme.rep reps).text.length) = reps.fields :=
  parseRep_of_checked (parseRepChecked_eq reps hadm.fits h)

/-! ## Inside a set -/

theorem Literal.not_sep (l : Literal true) (h : l.esc = false) : l.c ≠ rangeSepSym := by
  intro hsep
  rcases (l.plain h).2 with hmeta | hin
  · exact hmeta (by rw [hsep]; decide)
  · exact absurd hin.1 (by simp)

/-- No item starts with `-`. -/
theorem Literal.head (l : Literal true) (rest : List CChar) :
    ∃ d t, l.text ++ rest = d :: t ∧ d ≠ rangeSepSym := by
  cases hesc : l.esc with
  | true => exact ⟨derefSym, l.c :: rest, by simp [Literal.text, hesc], by decide⟩
  | false => exact ⟨l.c, rest, by simp [Literal.text, hesc], l.not_sep hesc⟩

theorem SetItem.head (item : SetItem) (rest : List CChar) :
    ∃ d t, item.text ++ rest = d :: t ∧ d ≠ rangeSepSym := by
  cases item with
  | char l => exact l.head rest
  | range lo hi =>
      rcases lo.head (rangeSepSym :: hi.text ++ rest) with ⟨d, t, heq, hd⟩
      exact ⟨d, t, by simpa [SetItem.text] using heq, hd⟩

/-- `case STATE_LITERAL` inside a set, at a character that is no bare `-`. -/
theorem lexLiteral_set (hg : g.literal = true)
    (hbare : ¬ (at' exp j = rangeSepSym ∧ at' exp (j - 1) ≠ derefSym)) :
    ∃ seen, lexLiteral exp j g =
      if at' exp (j + 1) = rangeSepSym then lexRange exp (j + 2) { g with newlineSeen := seen }
      else (.literal, j + 1, { g with newlineSeen := seen, lpn := j + 1 }) := by
  have hrun : ∀ g' : LexStatics, g'.literal = true →
      (if at' exp j = rangeSepSym ∧ g'.literal = true ∧ at' exp (j - 1) ≠ derefSym then
        (Tok.error .erange, j, g')
      else if at' exp (j + 1) = rangeSepSym ∧ g'.literal = true then lexRange exp (j + 2) g'
      else lexEnd .literal (j + 1) g') =
      if at' exp (j + 1) = rangeSepSym then lexRange exp (j + 2) g'
      else lexEnd .literal (j + 1) g' := by
    intro g' hg'
    have hbare' : ¬ (at' exp j = rangeSepSym ∧ g'.literal = true ∧ at' exp (j - 1) ≠ derefSym) :=
      fun h => hbare ⟨h.1, h.2.2⟩
    rw [if_neg hbare']
    simp only [hg', and_true]
  unfold lexLiteral
  -- a newline is noted, and read like any other character
  by_cases hnl : at' exp j = newline
  · refine ⟨true, ?_⟩
    rw [if_pos hnl]
    exact hrun { g with newlineSeen := true } hg
  · refine ⟨g.newlineSeen, ?_⟩
    rw [if_neg hnl]
    exact hrun g hg

theorem Literal.not_bare (l : Literal true) (h : exp.drop k = l.text ++ post) :
    ¬ (at' exp (k + l.text.length - 1) = rangeSepSym ∧
      at' exp (k + l.text.length - 1 - 1) ≠ derefSym) := by
  rcases l.read h with ⟨hc, _, _, hesc⟩
  rintro ⟨hsep, hprev⟩
  cases he : l.esc with
  | true => exact hprev (hesc he)
  | false => exact l.not_sep he (hc.symm.trans hsep)

/-- A character of a set, behind which no range goes on. -/
theorem lex_setChar (l : Literal true) (h : exp.drop k = l.text ++ post) (hg : g.literal = true)
    {d : CChar} {t : List CChar} (hpost : post = d :: t) (hd : d ≠ rangeSepSym) :
    Lexes exp k g .literal (k + l.text.length) (k + l.text.length - 1) true := by
  rcases l.read h with ⟨hc, hdrop, hlex, _⟩
  have hpos := l.text_pos
  have hinput : k + l.text.length - 1 + 1 = k + l.text.length := by omega
  have hnext : at' exp (k + l.text.length) ≠ rangeSepSym := by
    rw [at'_of_drop (hdrop.trans hpost)]
    exact hd
  rcases @lexLiteral_set exp (k + l.text.length - 1) { g with lp1 := k + l.text.length - 1 } hg
    (l.not_bare h) with ⟨seen, heq⟩
  rw [hinput, if_neg hnext] at heq
  exact .of_eq ((hlex g).trans heq) rfl rfl hg

/-- `case STATE_RANGE` at the second end of a range. -/
theorem lexRange_set (l : Literal true) (h : exp.drop k = l.text ++ post) :
    lexRange exp k g = lexEnd .charRange (k + l.text.length) g := by
  have hne := isprintable_ne_zero l.printable
  unfold lexRange
  cases hesc : l.esc with
  | true =>
      -- an escaped end: any printable character
      have htext : l.text = [derefSym, l.c] := by simp [Literal.text, hesc]
      rw [htext] at h ⊢
      have h0 : at' exp k = derefSym := at'_of_drop h
      have h1 : at' exp (k + 1) = l.c := at'_of_drop (drop_succ_of_drop h)
      have hderef0 : (derefSym : CChar) ≠ 0 := by decide
      rw [h0, if_neg hderef0, if_pos rfl, h1, if_neg hne, if_pos l.printable]
      rfl
  | false =>
      -- a plain end is no bracket and no backslash
      have htext : l.text = [l.c] := by simp [Literal.text, hesc]
      rw [htext] at h ⊢
      have h0 : at' exp k = l.c := at'_of_drop h
      have hplain := (l.plain hesc).2.imp_right And.right
      have hderef : l.c ≠ derefSym := plain_ne hplain (by decide) (by decide)
      have hopen : l.c ≠ charcOpenSym := plain_ne hplain (by decide) (by decide)
      have hclose : l.c ≠ charcCloseSym := plain_ne hplain (by decide) (by decide)
      have hres : isreserved l.c = false := by simp [isreserved, hopen, hclose]
      rw [h0, if_neg hne, if_neg hderef, if_pos (by simp [l.printable, hres])]
      rfl

/-- A range of a set, and its bounds. -/
theorem lex_setRange (lo hi : Literal true) (h : exp.drop k = (SetItem.range lo hi).text ++ post)
    (hg : g.literal = true) :
    Lexes exp k g .charRange (k + (SetItem.range lo hi).text.length) (k + lo.text.length - 1) true ∧
      rangeBounds exp (k + lo.text.length - 1) = (min lo.c hi.c, max lo.c hi.c) := by
  have hlo : exp.drop k = lo.text ++ (rangeSepSym :: (hi.text ++ post)) := by
    rw [h]
    simp [SetItem.text]
  rcases lo.read hlo with ⟨hc, hdrop, hlex, _⟩
  have hpos := lo.text_pos
  have hinput : k + lo.text.length - 1 + 1 = k + lo.text.length := by omega
  have hinput' : k + lo.text.length - 1 + 2 = k + lo.text.length + 1 := by omega
  have hsep : at' exp (k + lo.text.length) = rangeSepSym := at'_of_drop hdrop
  have hdrop' := drop_succ_of_drop hdrop
  constructor
  · rcases @lexLiteral_set exp (k + lo.text.length - 1) { g with lp1 := k + lo.text.length - 1 } hg
      (lo.not_bare hlo) with ⟨seen, heq⟩
    rw [hinput, if_pos hsep, hinput', lexRange_set hi hdrop'] at heq
    have hlen : k + lo.text.length + 1 + hi.text.length =
        k + (SetItem.range lo hi).text.length := by
      simp only [SetItem.text, List.length_append, List.length_cons]
      omega
    rw [hlen] at heq
    exact .of_eq ((hlex g).trans heq) rfl rfl hg
  · have hend : (if at' exp (k + lo.text.length + 1) = derefSym then
        at' exp (k + lo.text.length + 2) else at' exp (k + lo.text.length + 1)) = hi.c := by
      -- the second end is behind its backslash, if it has one
      cases hesc : hi.esc with
      | true =>
          have htext : hi.text = [derefSym, hi.c] := by simp [Literal.text, hesc]
          rw [htext] at hdrop'
          rw [if_pos (at'_of_drop hdrop')]
          exact at'_of_drop (drop_succ_of_drop hdrop')
      | false =>
          have htext : hi.text = [hi.c] := by simp [Literal.text, hesc]
          rw [htext] at hdrop'
          have hplain := (hi.plain hesc).2.imp_right And.right
          have h0 : at' exp (k + lo.text.length + 1) = hi.c := at'_of_drop hdrop'
          rw [h0, if_neg (plain_ne hplain (by decide) (by decide))]
    have hinput'' : k + lo.text.length - 1 + 3 = k + lo.text.length + 2 := by omega
    rw [min_max_eq, ← hend, ← hc]
    unfold rangeBounds
    rw [hinput', hinput'']

/-- The `]` of a set. -/
theorem lex_setClose (h : exp.drop k = charcCloseSym :: post) :
    Lexes exp k g .charcClose (k + 1) k false := by
  have h0 : (charcCloseSym : CChar) ≠ 0 := by decide
  have h1 : (charcCloseSym : CChar) ≠ derefSym := by decide
  have hlex : lex exp k g =
      (.charcClose, k + 1, { g with lp1 := k, literal := false, lpn := k + 1 }) := by
    unfold lex
    simp only [at'_of_drop h, if_neg h0, if_neg h1, if_true]
    rfl
  exact .of_eq hlex rfl rfl rfl

/-- The `^` of a negated set. -/
theorem lex_setNegated (h : exp.drop k = solSym :: post) (hg : g.literal = true)
    {d : CChar} {t : List CChar} (hpost : post = d :: t) (hd : d ≠ rangeSepSym) :
    Lexes exp k g .literal (k + 1) k true := by
  have hlex : lex exp k g = lexLiteral exp k { g with lp1 := k } := by
    have h0 : (solSym : CChar) ≠ 0 := by decide
    have h1 : (solSym : CChar) ≠ derefSym := by decide
    have h2 : (solSym : CChar) ≠ charcCloseSym := by decide
    have h3 : (solSym : CChar) ≠ repOpenSym := by decide
    have hmeta : metaTok solSym = some .sol := rfl
    unfold lex
    simp only [at'_of_drop h, if_neg h0, if_neg h1, if_neg h2, if_neg h3, hmeta, hg, if_true]
  have hnext : at' exp (k + 1) ≠ rangeSepSym := by
    rw [at'_of_drop ((drop_succ_of_drop h).trans hpost)]
    exact hd
  have hbare : ¬ (at' exp k = rangeSepSym ∧ at' exp (k - 1) ≠ derefSym) := by
    rw [at'_of_drop h]
    exact fun h => absurd h.1 (by decide)
  rcases @lexLiteral_set exp k { g with lp1 := k } hg hbare with ⟨seen, heq⟩
  rw [if_neg hnext] at heq
  exact .of_eq (hlex.trans heq) rfl rfl hg

end

end Rxvm
