import Rxvm.Nfa
import Rxvm.Lib.Repeat

/-!
# Rxvm.Grammar — the expressions of grammar.txt, and what they match

The nonterminals of `tests/grammar.txt`, with negated sets. An expression is
written as a list of lexemes, each with its text. `Expr.Matches` is the
meaning of an expression: the positions of the input between which it matches.
-/

namespace Rxvm

open Relation

/-! ## Characters and numbers -/

/-- The metacharacters. -/
def metaSyms : List CChar :=
  [lparenSym, rparenSym, zeroSym, oneSym, rangeSepSym, anySym, onezeroSym, charcOpenSym,
    charcCloseSym, repOpenSym, altSym, repCloseSym, solSym, eolSym, derefSym]

/-- `<char>`: a character that is no metacharacter, or a metacharacter behind
a backslash. Outside a set `-` needs none. -/
structure Literal (inSet : Bool) where
  c : CChar
  esc : Bool
  escaped : esc = true → c ∈ metaSyms
  plain : esc = false → isprintable c = true ∧
    (c ∉ metaSyms ∨ (inSet = false ∧ c = rangeSepSym))

def Literal.text {inSet : Bool} (l : Literal inSet) : List CChar :=
  if l.esc then [derefSym, l.c] else [l.c]

/-- `<integer>`. -/
structure Integer where
  digits : List CChar
  nonempty : digits ≠ []
  decimal : ∀ d ∈ digits, isdigit d = true

/-- The value of a string of digits, behind the value of those in front. -/
def digitsValue (n : Int) (digits : List CChar) : Int :=
  digits.foldl (fun n d => n * 10 + (d.toInt - (chr '0').toInt)) n

def Integer.value (n : Integer) : Int := digitsValue 0 n.digits

/-- `<reps>`. -/
inductive Reps where
  | repN (n : Integer)
  | repRange (n m : Integer)
  | repMore (n : Integer)
  | repLess (m : Integer)

def Reps.text : Reps → List CChar
  | .repN n => n.digits
  | .repRange n m => n.digits ++ commaSym :: m.digits
  | .repMore n => n.digits ++ [commaSym]
  | .repLess m => commaSym :: m.digits

/-- The counts fit in an `int`, and some copy is allowed. -/
def Reps.Admissible : Reps → Prop
  | .repN n => n.value ≠ 0 ∧ n.value < 2147483648
  | .repRange n m => (n.value ≠ 0 ∨ m.value ≠ 0) ∧ n.value < 2147483648 ∧ m.value < 2147483648
  | .repMore n => n.value < 2147483648
  | .repLess m => m.value ≠ 0 ∧ m.value < 2147483648

/-- `<set-item>`. -/
inductive SetItem where
  | char (l : Literal true)
  | range (lo hi : Literal true)

def SetItem.text : SetItem → List CChar
  | .char l => l.text
  | .range lo hi => lo.text ++ rangeSepSym :: hi.text

/-- The character is one of the item; the bounds of a range may be given in
either order. -/
def SetItem.Has (x : CChar) : SetItem → Prop
  | .char l => x = l.c
  | .range lo hi => (lo.c ≤ x ∧ x ≤ hi.c) ∨ (hi.c ≤ x ∧ x ≤ lo.c)

/-- `^` is no item. -/
def SetItem.Admissible : SetItem → Prop
  | .char l => l.c ≠ solSym
  | .range _ _ => True

/-! ## Lexemes -/

/-- The terminals, with sets and counts as one terminal each. -/
inductive Lexeme where
  | char (l : Literal false)
  | any
  | sol
  | eol
  | set (negated : Bool) (item : SetItem) (items : List SetItem)
  | zero
  | one
  | onezero
  | rep (reps : Reps)
  | alt
  | lparen
  | rparen

namespace Lexeme

def text : Lexeme → List CChar
  | char l => l.text
  | any => [anySym]
  | sol => [solSym]
  | eol => [eolSym]
  | set negated item items =>
    charcOpenSym :: ((if negated then [solSym] else []) ++ (item :: items).flatMap SetItem.text) ++
      [charcCloseSym]
  | zero => [zeroSym]
  | one => [oneSym]
  | onezero => [onezeroSym]
  | rep reps => repOpenSym :: reps.text ++ [repCloseSym]
  | alt => [altSym]
  | lparen => [lparenSym]
  | rparen => [rparenSym]

/-- What the compiler is promised to take. -/
def Admissible : Lexeme → Prop
  | set _ item items => ∀ x ∈ item :: items, x.Admissible
  | rep reps => reps.Admissible
  | _ => True

def isChar : Lexeme → Bool
  | char _ => true
  | _ => false

end Lexeme

/-! ## Expressions -/

/-- The nonterminals. -/
inductive NonTerm where
  | re
  | simple
  | basic
  | elem

/-- The derivations of a nonterminal. -/
inductive Expr : NonTerm → Type
  | ofSimple (e : Expr .simple) : Expr .re
  | union (e : Expr .re) (f : Expr .simple) : Expr .re
  | ofBasic (e : Expr .basic) : Expr .simple
  | concat (e : Expr .simple) (f : Expr .basic) : Expr .simple
  | ofElem (e : Expr .elem) : Expr .basic
  | zero (e : Expr .elem) : Expr .basic
  | one (e : Expr .elem) : Expr .basic
  | onezero (e : Expr .elem) : Expr .basic
  | rep (e : Expr .elem) (reps : Reps) : Expr .basic
  | group (e : Expr .re) : Expr .elem
  | any : Expr .elem
  | eol : Expr .elem
  | sol : Expr .elem
  | char (l : Literal false) : Expr .elem
  | set (negated : Bool) (item : SetItem) (items : List SetItem) : Expr .elem

namespace Expr

def lexemes : {n : NonTerm} → Expr n → List Lexeme
  | _, ofSimple e => e.lexemes
  | _, union e f => e.lexemes ++ .alt :: f.lexemes
  | _, ofBasic e => e.lexemes
  | _, concat e f => e.lexemes ++ f.lexemes
  | _, ofElem e => e.lexemes
  | _, zero e => e.lexemes ++ [.zero]
  | _, one e => e.lexemes ++ [.one]
  | _, onezero e => e.lexemes ++ [.onezero]
  | _, rep e reps => e.lexemes ++ [.rep reps]
  | _, group e => .lparen :: e.lexemes ++ [.rparen]
  | _, any => [.any]
  | _, eol => [.eol]
  | _, sol => [.sol]
  | _, char l => [.char l]
  | _, set negated item items => [.set negated item items]

/-- The expression as it is written. -/
def text {n : NonTerm} (e : Expr n) : List CChar := e.lexemes.flatMap Lexeme.text

/-- The expression is one `rxvm_compile` is promised to take: counts that fit
in an `int` and allow some copy, and no `^` as the item of a set. -/
def Admissible {n : NonTerm} (e : Expr n) : Prop := ∀ x ∈ e.lexemes, x.Admissible

/-- The expression consists of characters only. -/
def LiteralOnly {n : NonTerm} (e : Expr n) : Prop := ∀ x ∈ e.lexemes, x.isChar = true

/-- A character of the input, one position on. -/
def Eats (s : List CChar) (P : CChar → Prop) (i j : Nat) : Prop :=
  j = i + 1 ∧ ∃ x, s[i]? = some x ∧ P x

/-- The expression matches `s[i..j)` at `i`. -/
def Matches (ml : Bool) (s : List CChar) : {n : NonTerm} → Expr n → Nat → Nat → Prop
  | _, ofSimple e, i, j => e.Matches ml s i j
  | _, union e f, i, j => e.Matches ml s i j ∨ f.Matches ml s i j
  | _, ofBasic e, i, j => e.Matches ml s i j
  | _, concat e f, i, j => ∃ k, e.Matches ml s i k ∧ f.Matches ml s k j
  | _, ofElem e, i, j => e.Matches ml s i j
  | _, zero e, i, j => ∃ k, Times (e.Matches ml s) k i j
  | _, one e, i, j => ∃ k, 1 ≤ k ∧ Times (e.Matches ml s) k i j
  | _, onezero e, i, j => i = j ∨ e.Matches ml s i j
  | _, rep e (.repN n), i, j => Times (e.Matches ml s) n.value.toNat i j
  | _, rep e (.repRange n m), i, j =>
    ∃ k : Nat, min n.value m.value ≤ k ∧ k ≤ max n.value m.value ∧ Times (e.Matches ml s) k i j
  | _, rep e (.repMore n), i, j => ∃ k : Nat, n.value ≤ k ∧ Times (e.Matches ml s) k i j
  | _, rep e (.repLess m), i, j => ∃ k : Nat, k ≤ m.value ∧ Times (e.Matches ml s) k i j
  | _, group e, i, j => e.Matches ml s i j
  | _, any, i, j => Eats s (· ≠ newline) i j
  | _, eol, i, j => i = j ∧ EolAt ml s i
  | _, sol, i, j => i = j ∧ SolAt ml s i
  | _, char l, i, j => Eats s (· = l.c) i j
  | _, set negated item items, i, j =>
    Eats s (fun x => negated = false ↔ ∃ y ∈ item :: items, y.Has x) i j

end Expr

end Rxvm
