import Rxvm.Machine

/-!
# Rxvm.Groups — groups, copies of groups, and operators behind them

A group makes the same code wherever it stands, and copies of it make copies
of the code. An operator behind a group replaces its code.
-/

namespace Rxvm

open Brackets

/-- The pieces of a group. -/
def groupPieces (ps : List Piece) : List Piece := .sign .lparen :: ps ++ [.sign .rparen]

/-- The code of a group with the pieces given, and whether it sets the mark
for chains. -/
def groupCode (ps : List Piece) : Option (List Inst × Bool) :=
  (Machine.start.takeAll ps).bind fun M =>
    if M.charc = none then
      some ((M.frames.flush.top.append M.frames.flush.buf).attach.code, M.chained)
    else none

/-- `)`, where the level below is not the group's own. -/
theorem Frames.atop_shut_nil {F : Frames} (h : F.below = []) (t : Stk) (B : List Stk) :
    (F.atop (t :: B)).shut = some
      { top := t
        below := B
        buf := []
        closed := some (F.flush.top.append F.flush.buf).attach.code } := by
  unfold shut
  rw [atop_flush, show (F.atop (t :: B)).below = t :: B by simp [atop, h]]
  rfl

namespace Machine

variable {M N : Machine} {ps qs : List Piece} {c d : List Inst} {ch : Bool} {n : Nat} {p : Piece}

/-- The machine behind code `d`, and behind a group that has just been closed. -/
def behind (M : Machine) (d : List Inst) (ch : Bool) (closed : Option (List Inst)) : Machine :=
  { frames :=
      { top := (M.frames.flush.top.append M.frames.flush.buf).append d
        below := M.frames.below
        buf := []
        closed := closed }
    chained := M.chained || ch
    charc := none }

theorem behind_charc (M : Machine) (d : List Inst) (ch : Bool) (closed : Option (List Inst)) :
    (M.behind d ch closed).charc = none := rfl

/-- A group that is closed again. -/
theorem takeAll_group (hM : M.charc = none) (hbal : Balanced (ps.flatMap Piece.brackets)) :
    M.takeAll (groupPieces ps) = (groupCode ps).map fun g => M.behind [] g.2 (some g.1) := by
  have hopen : M.take (.sign .lparen) = some (start.atop
      (M.frames.flush.top.append M.frames.flush.buf :: M.frames.below) M.chained) := by
    rw [take_outside hM]
    simp [takeOutside, Frames.step, Frames.openLevel, start, Frames.start, atop, Frames.atop]
  have hcov : ∀ u, u <+: ps.flatMap Piece.brackets →
      0 ≤ (start.frames.below.length : Int) + excess u := by
    intro u hu
    have := hbal.1 u hu
    simp only [start, Frames.start, List.length_nil]
    omega
  unfold groupPieces groupCode
  rw [List.cons_append, takeAll_cons, hopen, Option.bind_some, takeAll_append, takeAll_atop hcov]
  rcases hrun : start.takeAll ps with _ | N
  · rfl
  -- all levels of the group itself have been closed
  have hdepth := takeAll_depth hrun
  rw [hbal.2] at hdepth
  have hbelow : N.frames.below = [] := by
    simpa [start, Frames.start] using hdepth
  rw [Option.map_some, Option.bind_some, Option.bind_some]
  cases hcharc : N.charc with
  | some p =>
      have hin : (N.atop (M.frames.flush.top.append M.frames.flush.buf :: M.frames.below)
          M.chained).charc = some p := hcharc
      rcases p with ⟨negated, chars⟩
      rw [if_neg (by simp), takeAll_cons, take, hin]
      rfl
  | none =>
      have hout : (N.atop (M.frames.flush.top.append M.frames.flush.buf :: M.frames.below)
          M.chained).charc = none := hcharc
      rw [if_pos rfl, takeAll_cons, take_outside hout, takeOutside, Frames.step, atop,
        Frames.atop_shut_nil hbelow]
      simp [behind]

theorem behind_behind (M : Machine) (d : List Inst) (ch : Bool) (c : List Inst) :
    (M.behind d ch (some c)).behind [] ch (some c) = M.behind (d ++ c) ch (some c) := by
  simp [behind, Frames.flush]

/-- Copies of a group. -/
theorem takeAll_copies (hM : M.charc = none) (hbal : Balanced (ps.flatMap Piece.brackets))
    (hcode : groupCode ps = some (c, ch)) : ∀ n : Nat,
    M.takeAll (List.replicate (n + 1) (groupPieces ps)).flatten =
      some (M.behind (copies c n) ch (some c)) := by
  intro n
  induction n with
  | zero =>
      rw [List.replicate_one, List.flatten_singleton, takeAll_group hM hbal, hcode]
      rfl
  | succ n ih =>
      rw [List.replicate_succ', List.flatten_append, List.flatten_singleton, takeAll_append, ih,
        Option.bind_some, takeAll_group (M.behind_charc _ _ _) hbal, hcode, Option.map_some,
        behind_behind, copies_succ']

/-- An operator behind a group. -/
theorem take_operator {code : List Inst → Option (List Inst)} (hp : Operator p code) :
    (M.behind d ch (some c)).take p = (code c).map fun e => M.behind (d ++ e) ch none := by
  rw [take_outside (M.behind_charc _ _ _), takeOutside, hp.1]
  have hoperand : (M.behind d ch (some c)).frames.operand = some ([], c) := rfl
  rw [Frames.operate, hoperand, Option.bind_some]
  rcases code c with _ | e
  · rfl
  · simp [behind, hp.2.1, hp.2.2]

/-- Copies of a group and an operator. -/
theorem takeAll_operated {code : List Inst → Option (List Inst)} (hM : M.charc = none)
    (hbal : Balanced (ps.flatMap Piece.brackets)) (hcode : groupCode ps = some (c, ch))
    (hp : Operator p code) (n : Nat) :
    M.takeAll ((List.replicate (n + 1) (groupPieces ps)).flatten ++ [p]) =
      (code c).map fun e => M.behind (copies c n ++ e) ch none := by
  rw [takeAll_append, takeAll_copies hM hbal hcode, Option.bind_some, takeAll_cons,
    take_operator hp]
  rcases code c with _ | e
  · rfl
  · rfl

/-! ## A group that is not flushed yet -/

/-- Two machines make the same program. -/
structure SameProgram (M N : Machine) : Prop where
  chained : M.chained = N.chained
  level : M.frames.level = N.frames.level

/-- A step of the flushed frames is one of the frames. -/
theorem step_of_flush {F F' : Frames} (hclosed : F.closed = some c) (hbuf : F.buf = [])
    (h : F.flush.step p = some F') : F.step p = some F' := by
  have hflush : F.flush.flush = F.flush := Frames.flush_eq_self F.flush_closed
  -- the flush has left no operand
  have hoperate : ∀ code, F.flush.operate code = none := by
    intro code
    have hoperand : F.flush.operand = none := by
      simp [Frames.operand, Frames.flush, hclosed, hbuf]
    rw [Frames.operate, hoperand]
    rfl
  have hatom : ∀ inst, F.flush.atom inst = F.atom inst := by
    intro inst
    rw [Frames.atom, hflush, Frames.atom]
  cases p with
  | literal c => rwa [Frames.step, hatom] at h
  | range => cases h
  | rep n m =>
      rw [Frames.step, hoperate] at h
      cases h
  | sign tok =>
      cases tok with
      | zero | one | onezero =>
          rw [Frames.step, hoperate] at h
          cases h
      | any | sol | eol => rwa [Frames.step, hatom] at h
      | alt =>
          rw [← h]
          simp [Frames.step, Frames.alternate, Frames.level, Frames.pending, Frames.flush, hclosed,
            hbuf]
      | charcOpen =>
          rw [← h]
          exact congrArg some hflush.symm
      | lparen =>
          rw [← h]
          simp only [Frames.step, Frames.openLevel, hflush, Frames.flush_below]
      | rparen =>
          rw [← h]
          simp only [Frames.step, Frames.shut, hflush, Frames.flush_below]
      | _ => cases h

/-- It makes no difference for the program whether a group has been flushed. -/
theorem takeAll_flushed (h : (M.behind (d ++ c) ch none).takeAll qs = some N) :
    ∃ N', (M.behind d ch (some c)).takeAll qs = some N' ∧ SameProgram N' N := by
  cases qs with
  | nil =>
      obtain rfl := Option.some.inj h
      refine ⟨_, rfl, rfl, ?_⟩
      simp [behind, Frames.level, Frames.pending]
  | cons p qs =>
      rcases Option.bind_eq_some_iff.mp h with ⟨M₁, htake, hrest⟩
      refine ⟨N, ?_, rfl, rfl⟩
      have hflush : (M.behind (d ++ c) ch none).frames = (M.behind d ch (some c)).frames.flush := by
        simp [behind, Frames.flush]
      have htake' : (M.behind d ch (some c)).take p = some M₁ := by
        rw [take_outside (M.behind_charc _ _ _), takeOutside, hflush] at htake
        rcases Option.map_eq_some_iff.mp htake with ⟨F, hF, rfl⟩
        rw [take_outside (M.behind_charc _ _ _), takeOutside,
          step_of_flush (c := c) rfl rfl hF]
        rfl
      rw [takeAll_cons, htake']
      exact hrest

end Machine

end Rxvm
