import Rxvm.Realizes

/-!
# Rxvm.Parse — the expressions that are taken

`rxvm_compile` takes more than `tests/grammar.txt` derives: an alternative may
be empty. A `Tree` is a derivation of the grammar with empty alternatives, and
`parse` finds it, in one pass from left to right. As the compiler does, it keeps
the last element back, for the operator that may follow.
-/

namespace Rxvm

open Relation

/-! ## Trees -/

/-- The lexemes that are elements. -/
inductive Atom where
  | char (l : Literal false)
  | any
  | sol
  | eol
  | set (negated : Bool) (item : SetItem) (items : List SetItem)

/-- The lexemes that stand behind an element. -/
inductive Operator where
  | zero
  | one
  | onezero
  | rep (reps : Reps)

def Atom.lexeme : Atom → Lexeme
  | char l => .char l
  | any => .any
  | sol => .sol
  | eol => .eol
  | set negated item items => .set negated item items

def Operator.lexeme : Operator → Lexeme
  | zero => .zero
  | one => .one
  | onezero => .onezero
  | rep reps => .rep reps

/-- The element matches `s[i..j)`. -/
def Atom.Matches (ml : Bool) (s : List CChar) (i j : Nat) : Atom → Prop
  | char l => Expr.Eats s (· = l.c) i j
  | any => Expr.Eats s (· ≠ newline) i j
  | sol => i = j ∧ SolAt ml s i
  | eol => i = j ∧ EolAt ml s i
  | set negated item items =>
    Expr.Eats s (fun x => negated = false ↔ ∃ y ∈ item :: items, y.Has x) i j

/-- The operator takes `k` matches of its operand. -/
def Operator.Allows (k : Nat) : Operator → Prop
  | zero => True
  | one => 1 ≤ k
  | onezero => k ≤ 1
  | rep reps => reps.Allows k

/-- The derivations of a nonterminal, where an alternative may be empty. -/
inductive Tree : NonTerm → Type
  | ofSimple (t : Tree .simple) : Tree .re
  | union (t : Tree .re) (u : Tree .simple) : Tree .re
  | empty : Tree .simple
  | concat (t : Tree .simple) (u : Tree .basic) : Tree .simple
  | ofElem (t : Tree .elem) : Tree .basic
  | operator (t : Tree .elem) (op : Operator) : Tree .basic
  | group (t : Tree .re) : Tree .elem
  | atom (a : Atom) : Tree .elem

namespace Tree

def lexemes : {n : NonTerm} → Tree n → List Lexeme
  | _, ofSimple t => t.lexemes
  | _, union t u => t.lexemes ++ .alt :: u.lexemes
  | _, empty => []
  | _, concat t u => t.lexemes ++ u.lexemes
  | _, ofElem t => t.lexemes
  | _, operator t op => t.lexemes ++ [op.lexeme]
  | _, group t => .lparen :: t.lexemes ++ [.rparen]
  | _, atom a => [a.lexeme]

/-- The expression matches `s[i..j)`. -/
def Matches (ml : Bool) (s : List CChar) : {n : NonTerm} → Tree n → Nat → Nat → Prop
  | _, ofSimple t, i, j => t.Matches ml s i j
  | _, union t u, i, j => t.Matches ml s i j ∨ u.Matches ml s i j
  | _, empty, i, j => i = j
  | _, concat t u, i, j => ∃ k, t.Matches ml s i k ∧ u.Matches ml s k j
  | _, ofElem t, i, j => t.Matches ml s i j
  | _, operator t op, i, j => ∃ k, op.Allows k ∧ Times (t.Matches ml s) k i j
  | _, group t, i, j => t.Matches ml s i j
  | _, atom a, i, j => a.Matches ml s i j

end Tree

/-! ## The parser -/

/-- What has been read of an expression: the alternatives in front of the last
`|`, the elements behind it, and the last element, which no operator has taken
yet. -/
structure ParseLevel where
  done : Option (Tree .re)
  seq : Tree .simple
  last : Option (Tree .elem)

namespace ParseLevel

def fresh : ParseLevel := { done := none, seq := .empty, last := none }

/-- The last alternative. -/
def simple (L : ParseLevel) : Tree .simple :=
  match L.last with
  | none => L.seq
  | some t => .concat L.seq (.ofElem t)

/-- All alternatives. -/
def re (L : ParseLevel) : Tree .re :=
  match L.done with
  | none => .ofSimple L.simple
  | some t => .union t L.simple

/-- An element behind the others. -/
def push (L : ParseLevel) (t : Tree .elem) : ParseLevel :=
  { L with seq := L.simple, last := some t }

def lexemes (L : ParseLevel) : List Lexeme :=
  match L.done with
  | none => L.simple.lexemes
  | some t => t.lexemes ++ .alt :: L.simple.lexemes

theorem lexemes_re (L : ParseLevel) : L.re.lexemes = L.lexemes := by
  unfold re lexemes
  cases L.done <;> rfl

end ParseLevel

/-- The groups that are open, the innermost one first. -/
structure ParseState where
  top : ParseLevel
  below : List ParseLevel

namespace ParseState

def start : ParseState := { top := .fresh, below := [] }

def atom (P : ParseState) (a : Atom) : ParseState := { P with top := P.top.push (.atom a) }

/-- An operator takes the last element. -/
def operator (P : ParseState) (op : Operator) : Except Err ParseState :=
  match P.top.last with
  | none => .error .badop
  | some t => .ok { P with top := { P.top with
      seq := .concat P.top.seq (.operator t op), last := none } }

/-- A group is an element of the one around it. -/
def close (P : ParseState) : Except Err ParseState :=
  match P.below with
  | [] => .error .badparen
  | L :: below => .ok { top := L.push (.group P.top.re), below := below }

def step (P : ParseState) : Lexeme → Except Err ParseState
  | .char l => .ok (P.atom (.char l))
  | .any => .ok (P.atom .any)
  | .sol => .ok (P.atom .sol)
  | .eol => .ok (P.atom .eol)
  | .set negated item items => .ok (P.atom (.set negated item items))
  | .zero => P.operator .zero
  | .one => P.operator .one
  | .onezero => P.operator .onezero
  | .rep reps => P.operator (.rep reps)
  | .alt => .ok { P with top := { done := some P.top.re, seq := .empty, last := none } }
  | .lparen => .ok { top := .fresh, below := P.top :: P.below }
  | .rparen => P.close

def run (P : ParseState) (l : List Lexeme) : Except Err ParseState := l.foldlM step P

/-- What has been read. -/
def lexemes (P : ParseState) : List Lexeme :=
  P.below.reverse.flatMap (fun L => L.lexemes ++ [.lparen]) ++ P.top.lexemes

end ParseState

/-- The tree of a list of lexemes, or the error that `rxvm_compile` returns. -/
def parse (l : List Lexeme) : Except Err (Tree .re) :=
  match ParseState.start.run l with
  | .error e => .error e
  | .ok P => if P.below = [] then .ok P.top.re else .error .eparen

/-- The kinds of lexemes. -/
inductive Lexeme.Kind : Lexeme → Prop
  | atom (a : Atom) : Kind a.lexeme
  | operator (op : Operator) : Kind op.lexeme
  | alt : Kind .alt
  | lparen : Kind .lparen
  | rparen : Kind .rparen

theorem Lexeme.kind (x : Lexeme) : x.Kind := by
  cases x with
  | char l => exact .atom (.char l)
  | any => exact .atom .any
  | sol => exact .atom .sol
  | eol => exact .atom .eol
  | set negated item items => exact .atom (.set negated item items)
  | zero => exact .operator .zero
  | one => exact .operator .one
  | onezero => exact .operator .onezero
  | rep reps => exact .operator (.rep reps)
  | alt => exact .alt
  | lparen => exact .lparen
  | rparen => exact .rparen

namespace ParseState

variable {P P' : ParseState} {x : Lexeme} {l l' : List Lexeme}

theorem step_atom (P : ParseState) (a : Atom) : P.step a.lexeme = .ok (P.atom a) := by
  cases a <;> rfl

theorem step_operator (P : ParseState) (op : Operator) : P.step op.lexeme = P.operator op := by
  cases op <;> rfl

theorem run_cons (P : ParseState) (x : Lexeme) (l : List Lexeme) :
    P.run (x :: l) = (P.step x).bind fun P' => P'.run l := rfl

theorem run_cons_ok (h : P.step x = .ok P') : P.run (x :: l) = P'.run l := by
  rw [run_cons, h]
  rfl

theorem run_append_ok (h : P.run l = .ok P') : P.run (l ++ l') = P'.run l' := by
  unfold run at h ⊢
  rw [List.foldlM_append, h]
  rfl

/-! ## What is parsed is what has been read -/

theorem push_lexemes (L : ParseLevel) (t : Tree .elem) :
    (L.push t).lexemes = L.lexemes ++ t.lexemes := by
  unfold ParseLevel.lexemes
  cases hdone : L.done with
  | none => simp [ParseLevel.push, hdone, ParseLevel.simple, Tree.lexemes]
  | some u => simp [ParseLevel.push, hdone, ParseLevel.simple, Tree.lexemes]

/-- An operator stands behind the element it takes. -/
theorem operator_lexemes {op : Operator} (h : P.operator op = .ok P') :
    P'.lexemes = P.lexemes ++ [op.lexeme] := by
  unfold operator at h
  cases hlast : P.top.last with
  | none =>
      rw [hlast] at h
      cases h
  | some t =>
      rw [hlast] at h
      cases h
      cases hdone : P.top.done with
      | none => simp [lexemes, ParseLevel.lexemes, ParseLevel.simple, hlast, hdone, Tree.lexemes]
      | some u => simp [lexemes, ParseLevel.lexemes, ParseLevel.simple, hlast, hdone, Tree.lexemes]

theorem close_lexemes (h : P.close = .ok P') : P'.lexemes = P.lexemes ++ [.rparen] := by
  unfold close at h
  cases hbelow : P.below with
  | nil =>
      rw [hbelow] at h
      cases h
  | cons L below =>
      rw [hbelow] at h
      cases h
      simp [lexemes, hbelow, push_lexemes, Tree.lexemes, ParseLevel.lexemes_re]

/-- Each lexeme that is read stands behind those that have been read. -/
theorem step_lexemes (h : P.step x = .ok P') : P'.lexemes = P.lexemes ++ [x] := by
  cases x.kind with
  | atom a =>
      rw [step_atom] at h
      cases h
      simp [lexemes, atom, push_lexemes, Tree.lexemes]
  | operator op =>
      rw [step_operator] at h
      exact operator_lexemes h
  | alt =>
      cases h
      simp [lexemes, ParseLevel.lexemes, ParseLevel.simple, ParseLevel.lexemes_re, Tree.lexemes]
  | lparen =>
      cases h
      simp [lexemes, ParseLevel.fresh, ParseLevel.lexemes, ParseLevel.simple, Tree.lexemes]
  | rparen => exact close_lexemes h

theorem run_lexemes : ∀ {l : List Lexeme} {P P' : ParseState}, P.run l = .ok P' →
    P'.lexemes = P.lexemes ++ l := by
  intro l
  induction l with
  | nil =>
      intro P P' h
      cases h
      rw [List.append_nil]
  | cons x l ih =>
      intro P P' h
      rw [run_cons] at h
      cases hstep : P.step x with
      | error e =>
          rw [hstep] at h
          cases h
      | ok P₁ =>
          rw [hstep] at h
          rw [ih h, step_lexemes hstep, List.append_assoc]
          rfl

end ParseState

theorem parse_sound {l : List Lexeme} {t : Tree .re} (h : parse l = .ok t) : t.lexemes = l := by
  unfold parse at h
  cases hrun : ParseState.start.run l with
  | error e =>
      rw [hrun] at h
      cases h
  | ok P =>
      rw [hrun] at h
      simp only at h
      split at h
      · next hbelow =>
          cases h
          have hread := ParseState.run_lexemes hrun
          simp only [ParseState.lexemes, hbelow, List.reverse_nil, List.flatMap_nil,
            List.nil_append] at hread
          rw [ParseLevel.lexemes_re, hread]
          rfl
      · cases h

/-! ## Every tree is parsed -/

/-- What the parser has made of a nonterminal. An expression is read from the
start of a level, and an alternative from its own start. -/
def ParseState.Reads (P : ParseState) (top : ParseLevel) : {n : NonTerm} → Tree n → Prop
  | .re, t => P.top = .fresh → top.re = t
  | .simple, t => P.top.simple = .empty → top.done = P.top.done ∧ top.simple = t
  | .basic, t => top.done = P.top.done ∧ top.simple = .concat P.top.simple t
  | .elem, t => top = P.top.push t

/-- The lexemes of a tree are read as the tree, whatever has been read before. -/
theorem Tree.reads : ∀ {n : NonTerm} (t : Tree n) (P : ParseState),
    ∃ top, P.run t.lexemes = .ok { P with top := top } ∧ P.Reads top t := by
  intro n t
  -- by induction on the tree
  induction t with
  | ofSimple t ih =>
      intro P
      rcases ih P with ⟨top, hrun, hreads⟩
      refine ⟨top, hrun, fun hfresh => ?_⟩
      have hstart : P.top.simple = .empty := by rw [hfresh]; rfl
      rcases hreads hstart with ⟨hdone, hsimple⟩
      rw [ParseLevel.re, hdone, hfresh, hsimple]
      rfl
  | union t u iht ihu =>
      intro P
      rcases iht P with ⟨top₁, hrun₁, hreads₁⟩
      -- the right side of `|` starts a sequence of its own
      rcases ihu { P with top := { done := some top₁.re, seq := .empty, last := none } } with
        ⟨top₂, hrun₂, hreads₂⟩
      refine ⟨top₂, (ParseState.run_append_ok hrun₁).trans ?_, fun hfresh => ?_⟩
      · rw [ParseState.run_cons_ok rfl]
        exact hrun₂
      · rcases hreads₂ rfl with ⟨hdone, hsimple⟩
        rw [ParseLevel.re, hdone, hsimple, ← hreads₁ hfresh]
  | empty =>
      intro P
      exact ⟨P.top, rfl, fun hstart => ⟨rfl, hstart⟩⟩
  | concat t u iht ihu =>
      intro P
      rcases iht P with ⟨top₁, hrun₁, hreads₁⟩
      rcases ihu { P with top := top₁ } with ⟨top₂, hrun₂, hdone₂, hsimple₂⟩
      refine ⟨top₂, (ParseState.run_append_ok hrun₁).trans hrun₂, fun hstart => ?_⟩
      rcases hreads₁ hstart with ⟨hdone₁, hsimple₁⟩
      exact ⟨hdone₂.trans hdone₁, hsimple₂.trans (by rw [hsimple₁])⟩
  | ofElem t ih =>
      intro P
      rcases ih P with ⟨top, hrun, rfl⟩
      exact ⟨_, hrun, rfl, rfl⟩
  | operator t op ih =>
      intro P
      rcases ih P with ⟨top, hrun, rfl⟩
      refine ⟨{ P.top.push t with seq := .concat P.top.simple (.operator t op), last := none },
        (ParseState.run_append_ok hrun).trans ?_, rfl, rfl⟩
      exact ParseState.run_cons_ok (ParseState.step_operator _ op)
  | group t ih =>
      intro P
      -- a level of its own, and the closing parenthesis hands it back
      rcases ih { top := .fresh, below := P.top :: P.below } with ⟨top, hrun, hreads⟩
      refine ⟨P.top.push (.group t), ?_, rfl⟩
      show P.run (.lparen :: (t.lexemes ++ [.rparen])) = _
      rw [ParseState.run_cons_ok rfl, ParseState.run_append_ok hrun, ← hreads rfl]
      rfl
  | atom a =>
      intro P
      exact ⟨_, ParseState.run_cons_ok (ParseState.step_atom P a), rfl⟩

/-- The parser undoes writing: a list of lexemes has one tree at most. -/
theorem parse_lexemes (t : Tree .re) : parse t.lexemes = .ok t := by
  rcases t.reads .start with ⟨top, hrun, hreads⟩
  have hre : top.re = t := hreads rfl
  unfold parse
  rw [hrun]
  exact (if_pos rfl).trans (congrArg Except.ok hre)

theorem parse_iff {l : List Lexeme} {t : Tree .re} : parse l = .ok t ↔ t.lexemes = l := by
  constructor
  · exact parse_sound
  · rintro rfl
    exact parse_lexemes t

end Rxvm
