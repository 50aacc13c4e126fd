import Rxvm.Frames
import Rxvm.Pieces

/-!
# Rxvm.Machine — the compiler as a machine on pieces

The machine of `Frames` takes any pieces, and not only the lexemes of an
expression: it also remembers the class that is being read and the mark for
chains, and a group may be closed that holds nothing. What a group makes of
the pieces in it does not depend on what stands around it.
-/

namespace Rxvm

open Brackets

namespace Frames

/-- `)`, of a group that may hold nothing. -/
def shut (F : Frames) : Option Frames :=
  match F.below with
  | [] => none
  | t :: below =>
    some { top := t, below := below, buf := [],
           closed := some (F.flush.top.append F.flush.buf).attach.code }

/-- What the compiler does with a piece outside a class. -/
def step (F : Frames) : Piece → Option Frames
  | .literal c => some (F.atom (.opChar c))
  | .range _ _ => none
  | .rep n m => F.operate fun e => repCode e n m
  | .sign .zero => F.operate fun e => some (zeroCode e)
  | .sign .one => F.operate fun e => some (oneCode e)
  | .sign .onezero => F.operate fun e => some (onezeroCode e)
  | .sign .alt => some F.alternate
  | .sign .any => some (F.atom .opAny)
  | .sign .sol => some (F.atom .opSol)
  | .sign .eol => some (F.atom .opEol)
  | .sign .charcOpen => some F.flush
  | .sign .lparen => some F.openLevel
  | .sign .rparen => F.shut
  | .sign _ => none

end Frames

/-- The levels, the mark for chains, and the sign and the characters of the
class that is being read. -/
structure Machine where
  frames : Frames
  chained : Bool
  charc : Option (Bool × List CChar)

namespace Machine

/-- Before the first piece. -/
def start : Machine := { frames := Frames.start, chained := false, charc := none }

/-- The instruction of a class. -/
def ccs (negated : Bool) (chars : List CChar) : Inst :=
  if negated then .opNclass (cstring chars) else .opClass (cstring chars)

/-- What the compiler does with a piece in a class. -/
def takeInside (M : Machine) (negated : Bool) (chars : List CChar) : Piece → Option Machine
  | .literal c =>
    some { M with
      charc := some (if c = solSym ∧ negated = false then (true, chars)
        else (negated, chars ++ [c])) }
  | .range lo hi =>
    match expandLoop hi 257 lo with
    | .ok range => some { M with charc := some (negated, chars ++ range) }
    | .error _ => none
  | .sign .charcClose =>
    some { M with
      frames := if chars = [] then M.frames else M.frames.atom (ccs negated chars)
      charc := none }
  | _ => none

/-- What it does with a piece outside a class. -/
def takeOutside (M : Machine) (p : Piece) : Option Machine :=
  (M.frames.step p).map fun F =>
    { frames := F
      chained := M.chained || (decide (p = .sign .alt) && M.frames.top.jmp.isSome)
      charc := if p = .sign .charcOpen then some (false, []) else none }

/-- What it does with a piece. -/
def take (M : Machine) (p : Piece) : Option Machine :=
  match M.charc with
  | some (negated, chars) => M.takeInside negated chars p
  | none => M.takeOutside p

/-- What it does with a list of pieces. -/
def takeAll (M : Machine) (ps : List Piece) : Option Machine := ps.foldlM take M

@[simp] theorem takeAll_nil (M : Machine) : M.takeAll [] = some M := rfl

@[simp] theorem takeAll_cons (M : Machine) (p : Piece) (ps : List Piece) :
    M.takeAll (p :: ps) = (M.take p).bind fun M' => M'.takeAll ps := rfl

theorem takeAll_append (M : Machine) (ps qs : List Piece) :
    M.takeAll (ps ++ qs) = (M.takeAll ps).bind fun M' => M'.takeAll qs := List.foldlM_append ..

/-- A piece that is an operator, and no alternation. -/
def Operator (p : Piece) (code : List Inst → Option (List Inst)) : Prop :=
  (∀ F : Frames, F.step p = F.operate code) ∧ p ≠ .sign .alt ∧ p ≠ .sign .charcOpen

theorem take_outside {M : Machine} (h : M.charc = none) (p : Piece) :
    M.take p = M.takeOutside p := by
  unfold take
  rw [h]

/-- The machine is in a class where the lexer is. -/
theorem take_inside {M M' : Machine} {p : Piece} (h : M.take p = some M') :
    M'.charc.isSome = p.inside M.charc.isSome := by
  unfold take at h
  split at h
  · next negated chars hcharc =>
      rw [hcharc]
      -- inside a class only `]` leaves it
      cases p with
      | literal c =>
          obtain rfl := Option.some.inj h
          rfl
      | range lo hi =>
          unfold takeInside at h
          simp only at h
          split at h
          · obtain rfl := Option.some.inj h
            rfl
          · cases h
      | rep => cases h
      | sign tok =>
          cases tok with
          | charcClose =>
              obtain rfl := Option.some.inj h
              rfl
          | _ => cases h
  · next hcharc =>
      rw [hcharc]
      rcases Option.map_eq_some_iff.mp h with ⟨F, hF, rfl⟩
      cases p with
      | sign tok =>
          cases tok with
          | charcClose => cases hF
          | _ => rfl
      | _ => rfl

theorem takeAll_inside {text : List CChar} {k j : Nat} {b b' : Bool} {ps : List Piece}
    (h : Reads text k b ps j b') : ∀ {M M' : Machine}, M.charc.isSome = b →
    M.takeAll ps = some M' → M'.charc.isSome = b' := by
  induction h with
  | done =>
      intro M M' hb hrun
      obtain rfl := Option.some.inj hrun
      exact hb
  | @step k i j b b' p ps hp _ ih =>
      intro M M' hb hrun
      rcases Option.bind_eq_some_iff.mp hrun with ⟨M₁, htake, hrest⟩
      exact ih (by rw [take_inside htake, hb]) hrest

end Machine

/-! ## What stands below -/

namespace Frames

variable {F F' : Frames} {B : List Stk}

/-- The frames with further levels below. -/
def atop (F : Frames) (B : List Stk) : Frames := { F with below := F.below ++ B }

theorem atop_flush : (F.atop B).flush = F.flush.atop B := by
  unfold flush
  rcases hclosed : F.closed with _ | c
  · simp only [atop, hclosed]
  · simp only [atop, hclosed]

theorem atop_atom (inst : Inst) : (F.atop B).atom inst = (F.atom inst).atop B := by
  unfold atom
  rw [atop_flush]
  rfl

theorem atop_operate (code : List Inst → Option (List Inst)) :
    (F.atop B).operate code = (F.operate code).map fun F' => F'.atop B := by
  unfold operate
  rw [show (F.atop B).operand = F.operand from rfl]
  rcases F.operand with _ | ⟨pre, e⟩
  · rfl
  · rcases h : code e with _ | c
    · simp only [Option.bind_some, h]
      rfl
    · simp only [Option.bind_some, h]
      rfl

theorem atop_openLevel : (F.atop B).openLevel = F.openLevel.atop B := by
  unfold openLevel
  rw [atop_flush]
  rfl

theorem atop_shut (h : F.below ≠ []) : (F.atop B).shut = F.shut.map fun F' => F'.atop B := by
  rcases List.exists_cons_of_ne_nil h with ⟨t, below, hbelow⟩
  unfold shut
  rw [atop_flush, hbelow, show (F.atop B).below = t :: (below ++ B) by simp [atop, hbelow]]
  rfl

/-- A step that closes no level below its own does the same whatever stands
below. -/
theorem atop_step {p : Piece} (h : p = .sign .rparen → F.below ≠ []) :
    (F.atop B).step p = (F.step p).map fun F' => F'.atop B := by
  cases p with
  | literal c => exact congrArg some (atop_atom _)
  | range => rfl
  | rep n m => exact atop_operate fun e => repCode e n m
  | sign tok =>
      cases tok with
      | zero => exact atop_operate fun e => some (zeroCode e)
      | one => exact atop_operate fun e => some (oneCode e)
      | onezero => exact atop_operate fun e => some (onezeroCode e)
      | any | sol | eol => exact congrArg some (atop_atom _)
      | charcOpen => exact congrArg some atop_flush
      | lparen => exact congrArg some atop_openLevel
      | rparen => exact atop_shut (h rfl)
      | _ => rfl

theorem operate_below {code : List Inst → Option (List Inst)} (h : F.operate code = some F') :
    F'.below = F.below := by
  unfold operate at h
  rcases Option.bind_eq_some_iff.mp h with ⟨x, _, hx⟩
  rcases Option.map_eq_some_iff.mp hx with ⟨c, _, rfl⟩
  rfl

/-- The levels are the parentheses that are open. -/
theorem step_depth {p : Piece} (h : F.step p = some F') :
    (F'.below.length : Int) = F.below.length + excess p.brackets := by
  -- only the parentheses have a weight
  have hsame : F'.below = F.below → p.brackets = [] →
      (F'.below.length : Int) = F.below.length + excess p.brackets := by
    intro hbelow hbr
    rw [hbelow, hbr, excess_nil, Int.add_zero]
  cases p with
  | literal c =>
      obtain rfl := Option.some.inj h
      exact hsame F.flush_below rfl
  | range => cases h
  | rep n m => exact hsame (@operate_below F F' (fun e => repCode e n m) h) rfl
  | sign tok =>
      cases tok with
      | zero => exact hsame (@operate_below F F' (fun e => some (zeroCode e)) h) rfl
      | one => exact hsame (@operate_below F F' (fun e => some (oneCode e)) h) rfl
      | onezero => exact hsame (@operate_below F F' (fun e => some (onezeroCode e)) h) rfl
      | alt =>
          obtain rfl := Option.some.inj h
          exact hsame rfl rfl
      | any | sol | eol | charcOpen =>
          obtain rfl := Option.some.inj h
          exact hsame F.flush_below rfl
      | lparen =>
          obtain rfl := Option.some.inj h
          simp [openLevel, Piece.brackets, Tok.brackets, Bracket.weight]
      | rparen =>
          simp only [step, shut] at h
          split at h
          · cases h
          · next t below hbelow =>
              obtain rfl := Option.some.inj h
              simp [hbelow, Piece.brackets, Tok.brackets, Bracket.weight]
      | _ => cases h

end Frames

namespace Machine

variable {M M' : Machine} {B : List Stk} {ch : Bool} {p : Piece} {ps : List Piece}

/-- The machine with further levels below, and a mark for chains that has been
set before, or not. -/
def atop (M : Machine) (B : List Stk) (ch : Bool) : Machine :=
  { M with frames := M.frames.atop B, chained := ch || M.chained }

theorem takeInside_range (negated : Bool) (chars : List CChar) (lo hi : CChar) :
    M.takeInside negated chars (.range lo hi) =
      match expandLoop hi 257 lo with
      | .ok range => some { M with charc := some (negated, chars ++ range) }
      | .error _ => none := rfl

theorem takeInside_close (negated : Bool) (chars : List CChar) :
    M.takeInside negated chars (.sign .charcClose) =
      some { M with
        frames := if chars = [] then M.frames else M.frames.atom (ccs negated chars)
        charc := none } := rfl

/-- In a class nothing is opened or closed. -/
theorem takeInside_atop (negated : Bool) (chars : List CChar) (p : Piece) :
    (M.atop B ch).takeInside negated chars p =
      (M.takeInside negated chars p).map fun M' => M'.atop B ch := by
  cases p with
  | literal => rfl
  | range lo hi =>
      rw [takeInside_range, takeInside_range]
      cases expandLoop hi 257 lo <;> rfl
  | rep => rfl
  | sign tok =>
      cases tok with
      | charcClose =>
          rw [takeInside_close, takeInside_close]
          split_ifs
          · simp only [atop, Option.map_some]
          · simp only [atop, Frames.atop_atom, Option.map_some]
      | _ => rfl

theorem takeInside_depth {negated : Bool} {chars : List CChar}
    (h : M.takeInside negated chars p = some M') :
    (M'.frames.below.length : Int) = M.frames.below.length + excess p.brackets := by
  cases p with
  | literal =>
      obtain rfl := Option.some.inj h
      simp [Piece.brackets]
  | range lo hi =>
      rw [takeInside_range] at h
      split at h
      · obtain rfl := Option.some.inj h
        simp [Piece.brackets]
      · cases h
  | rep => cases h
  | sign tok =>
      cases tok with
      | charcClose =>
          obtain rfl := Option.some.inj h
          have hbelow : (if chars = [] then M.frames
              else M.frames.atom (ccs negated chars)).below = M.frames.below := by
            split_ifs
            · rfl
            · exact M.frames.flush_below
          simp [hbelow, Piece.brackets, Tok.brackets]
      | _ => cases h

theorem take_atop (h : p = .sign .rparen → M.frames.below ≠ []) :
    (M.atop B ch).take p = (M.take p).map fun M' => M'.atop B ch := by
  unfold take
  rw [show (M.atop B ch).charc = M.charc from rfl]
  split
  · exact takeInside_atop _ _ p
  · unfold takeOutside
    rw [show (M.atop B ch).frames = M.frames.atop B from rfl, Frames.atop_step h]
    rcases M.frames.step p with _ | F
    · rfl
    · simp only [Option.map_some, atop, Frames.atop, Bool.or_assoc]

theorem take_depth (h : M.take p = some M') :
    (M'.frames.below.length : Int) = M.frames.below.length + excess p.brackets := by
  unfold take at h
  split at h
  · exact takeInside_depth h
  · rcases Option.map_eq_some_iff.mp h with ⟨F, hF, rfl⟩
    exact Frames.step_depth hF

theorem takeAll_depth : ∀ {ps : List Piece} {M : Machine}, M.takeAll ps = some M' →
    (M'.frames.below.length : Int) = M.frames.below.length + excess (ps.flatMap Piece.brackets) := by
  intro ps
  induction ps with
  | nil =>
      intro M h
      obtain rfl := Option.some.inj h
      simp
  | cons p ps ih =>
      intro M h
      rcases Option.bind_eq_some_iff.mp h with ⟨M₁, htake, hrest⟩
      have := take_depth htake
      rw [ih hrest, this, List.flatMap_cons, excess_append]
      omega

/-- Pieces that close no level below their own do the same whatever stands
below. -/
theorem takeAll_atop : ∀ {ps : List Piece} {M : Machine},
    (∀ u, u <+: ps.flatMap Piece.brackets → 0 ≤ (M.frames.below.length : Int) + excess u) →
    (M.atop B ch).takeAll ps = (M.takeAll ps).map fun M' => M'.atop B ch := by
  intro ps
  induction ps with
  | nil => exact fun _ => rfl
  | cons p ps ih =>
      intro M hcov
      rw [List.flatMap_cons] at hcov
      have hclose : p = .sign .rparen → M.frames.below ≠ [] := by
        rintro rfl hnil
        have := hcov [.closing] (List.prefix_append _ _)
        rw [hnil] at this
        simp [Bracket.weight] at this
      rw [takeAll_cons, takeAll_cons, take_atop hclose]
      rcases htake : M.take p with _ | M₁
      · rfl
      · refine ih ?_
        intro u hu
        have := hcov (p.brackets ++ u) ((List.prefix_append_right_inj _).mpr hu)
        rw [excess_append] at this
        have := take_depth htake
        omega

end Machine

end Rxvm
