import Rxvm.Basic

/-!
# Rxvm.Lex — lex.c

The lexer. `input`, `lp1` and `lpn` are pointers into the expression, here
indices. `STATE_START` is entered once, at the start of a call, so the body of
`lex` is that case; the cases it can continue in are the functions
`lexLiteral`, `lexRange` and `lexRep`, of which only the last one goes round
the `while` loop more than once.
-/

namespace Rxvm

/-- The static variables of `lex.c`. -/
structure LexStatics where
  /-- Inside a character class: metacharacters are literals. -/
  literal : Bool
  newlineSeen : Bool
  lp1 : Nat
  lpn : Nat
deriving DecidableEq, Repr

/-- `lex_init`. -/
def lexInit (g : LexStatics) : LexStatics :=
  { g with literal := false, newlineSeen := false }

/-- `lex_end` followed by the exit from the loop: `lpn` is set behind the
token. -/
def lexEnd (ret : Tok) (input : Nat) (g : LexStatics) : Tok × Nat × LexStatics :=
  (ret, input, { g with lpn := input })

/-- `case STATE_RANGE`. The string may have ended, and the loop with it:
`ret` is then still `INVALIDSYM`. -/
def lexRange (text : List CChar) (input : Nat) (g : LexStatics) :
    Tok × Nat × LexStatics :=
  if at' text input = 0 then
    lexEnd .invalidsym input g
  else if at' text input = derefSym then
    if at' text (input + 1) = 0 then
      (.error .etrail, input + 1, g)
    else if isprintable (at' text (input + 1)) then
      lexEnd .charRange (input + 2) g
    else
      -- still in STATE_RANGE, at a character that is not printable
      (.error .erange, input + 1, g)
  else if isprintable (at' text input) && !isreserved (at' text input) then
    lexEnd .charRange (input + 1) g
  else
    (.error .erange, input, g)

/-- `case STATE_LITERAL`. -/
def lexLiteral (text : List CChar) (input : Nat) (g : LexStatics) :
    Tok × Nat × LexStatics :=
  let g := if at' text input = newline then { g with newlineSeen := true } else g
  if at' text input = rangeSepSym ∧ g.literal = true ∧
      at' text (input - 1) ≠ derefSym then
    (.error .erange, input, g)
  else if at' text (input + 1) = rangeSepSym ∧ g.literal = true then
    lexRange text (input + 2) g
  else
    lexEnd .literal (input + 1) g

/-- `case STATE_REP`, until the loop ends. The list is the rest of the
expression, `first` is `*(lp1 + 1)` and `prev` is `*(*input - 1)`. -/
def lexRep (first : CChar) : List CChar → CChar → Bool → Nat → Tok × Nat
  | [], _, _, input => (.error .erep, input)
  | c :: rest, prev, comma, input =>
    if c = 0 then
      (.error .erep, input)
    else if c = repCloseSym then
      if !isdigit prev && !isdigit first then (.error .mrep, input)
      else (.rep, input + 1)
    else if c = commaSym then
      if comma then (.error .ecomma, input)
      else lexRep first rest c true (input + 1)
    else if !isdigit c then
      (.error .edigit, input)
    else
      lexRep first rest c comma (input + 1)

/-- The token `trans` returns for a metacharacter, and the state it leaves;
`{` is not among them, since it needs more input. -/
def metaTok (c : CChar) : Option Tok :=
  if c = charcOpenSym then some .charcOpen
  else if c = repCloseSym then some (.error .badrep)
  else if c = lparenSym then some .lparen
  else if c = rparenSym then some .rparen
  else if c = oneSym then some .one
  else if c = onezeroSym then some .onezero
  else if c = zeroSym then some .zero
  else if c = anySym then some .any
  else if c = solSym then some .sol
  else if c = eolSym then some .eol
  else if c = altSym then some .alt
  else none

/-- `lex`: the next token, the new input pointer and the statics. -/
def lex (text : List CChar) (input : Nat) (g : LexStatics) :
    Tok × Nat × LexStatics :=
  let c := at' text input
  if c = 0 then
    (.eos, input, g)
  else
    let g := { g with lp1 := input }
    if c = derefSym then
      if at' text (input + 1) = 0 then
        (.error .etrail, input + 1, g)
      else
        lexLiteral text (input + 1) { g with lp1 := input + 1 }
    else if c = charcCloseSym then
      lexEnd .charcClose (input + 1) { g with literal := false }
    else if c = repOpenSym then
      if g.literal then
        lexLiteral text input g
      else
        let (ret, input') :=
          lexRep (at' text (input + 1)) (text.drop (input + 1)) c false (input + 1)
        match ret with
        | .rep | .error .erep => lexEnd ret input' g
        | _ => (ret, input', g)
    else
      match metaTok c with
      | some tok =>
        if g.literal then
          lexLiteral text input g
        else
          -- '[' is the one symbol that switches literal mode on
          lexEnd tok (input + 1)
            (if c = charcOpenSym then { g with literal := true } else g)
      | none =>
        if isprintable c then lexLiteral text input g
        else (.error .einval, input, g)

end Rxvm
