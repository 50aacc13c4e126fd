import Rxvm.Grammar
import Rxvm.Meaning

/-!
# Rxvm.Frames — the compiler as a machine on lexemes

What the compiler does with a lexeme, without its heap: a stack of levels, one
for each open group, the buffer of instructions that an operator may still
take, and the code of a group that has just been closed. The code of an
expression means what the expression does.
-/

namespace Rxvm

open Relation

/-- The levels from the innermost one out, the buffer, and the group that has
just been closed. -/
structure Frames where
  top : Stk
  below : List Stk
  buf : List Inst
  closed : Option (List Inst)

/-- The characters of an item, in the order they are put into the class. -/
def SetItem.chars : SetItem → List CChar
  | .char l => [l.c]
  | .range lo hi =>
    match expandLoop (max lo.c hi.c) 257 (min lo.c hi.c) with
    | .ok chars => chars
    | .error _ => []

/-- The code of an operator that takes a count. -/
def Reps.code (e : List Inst) : Reps → Option (List Inst)
  | .repN n => repCode e n.value repNoField
  | .repRange n m => repCode e n.value m.value
  | .repMore n => repCode e n.value repFieldEmpty
  | .repLess m => repCode e repFieldEmpty m.value

namespace Frames

/-- Before the first lexeme. -/
def start : Frames := { top := Stk.empty, below := [], buf := [], closed := none }

/-- The group that has been closed goes to its level. -/
def flush (F : Frames) : Frames :=
  match F.closed with
  | some c => { F with top := F.top.append c, closed := none }
  | none => F

/-- What has not been moved to the level yet. -/
def pending (F : Frames) : List Inst := F.closed.getD [] ++ F.buf

/-- The innermost level with all that belongs to it. -/
def level (F : Frames) : Stk := F.top.append F.pending

/-- An instruction for the buffer. -/
def atom (inst : Inst) (F : Frames) : Frames := { F.flush with buf := F.flush.buf ++ [inst] }

/-- The operand of an operator, behind what is in front of it in the buffer. -/
def operand (F : Frames) : Option (List Inst × List Inst) :=
  match F.closed with
  | some c => some ([], c)
  | none => F.buf.getLast?.map fun inst => (F.buf.dropLast, [inst])

/-- An operator, which gives `code e` for the operand `e`. -/
def operate (code : List Inst → Option (List Inst)) (F : Frames) : Option Frames :=
  F.operand.bind fun p => (code p.2).map fun c =>
    { F with top := F.top.append (p.1 ++ c), buf := [], closed := none }

/-- `|`. -/
def alternate (F : Frames) : Frames := { F with top := F.level.alt, buf := [], closed := none }

/-- `(`. -/
def openLevel (F : Frames) : Frames :=
  { top := Stk.empty, below := F.flush.top.append F.flush.buf :: F.below, buf := [], closed := none }

/-- `)`. -/
def closeLevel (F : Frames) : Option Frames :=
  match F.below with
  | [] => none
  | t :: below =>
    let code := (F.flush.top.append F.flush.buf).attach.code
    if code = [] then none else some { top := t, below := below, buf := [], closed := some code }

/-- What the compiler does with a lexeme. -/
def take (F : Frames) : Lexeme → Option Frames
  | .char l => some (F.atom (.opChar l.c))
  | .any => some (F.atom .opAny)
  | .sol => some (F.atom .opSol)
  | .eol => some (F.atom .opEol)
  | .set negated item items =>
    let chars := (item :: items).flatMap SetItem.chars
    some (F.atom (if negated then .opNclass chars else .opClass chars))
  | .zero => F.operate fun e => some (zeroCode e)
  | .one => F.operate fun e => some (oneCode e)
  | .onezero => F.operate fun e => some (onezeroCode e)
  | .rep reps => F.operate fun e => reps.code e
  | .alt => some F.alternate
  | .lparen => some F.openLevel
  | .rparen => F.closeLevel

/-- What it does with a list of lexemes. -/
def takeAll (F : Frames) (l : List Lexeme) : Option Frames := l.foldlM take F

theorem takeAll_append (F : Frames) (l l' : List Lexeme) :
    F.takeAll (l ++ l') = (F.takeAll l).bind fun F' => F'.takeAll l' := List.foldlM_append ..

@[simp] theorem takeAll_nil (F : Frames) : F.takeAll [] = some F := rfl

@[simp] theorem takeAll_cons (F : Frames) (x : Lexeme) (l : List Lexeme) :
    F.takeAll (x :: l) = (F.take x).bind fun F' => F'.takeAll l := rfl

/-! ## The levels -/

/-- The buffer is empty when a group has just been closed. -/
def Tidy (F : Frames) : Prop := F.closed ≠ none → F.buf = []

variable {F F' : Frames}

theorem start_tidy : start.Tidy := fun _ => rfl

theorem flush_closed (F : Frames) : F.flush.closed = none := by
  unfold flush
  split
  · rfl
  · next h => exact h

theorem flush_eq_self (h : F.closed = none) : F.flush = F := by
  simp only [flush, h]

theorem flush_below (F : Frames) : F.flush.below = F.below := by
  unfold flush
  split <;> rfl

theorem Tidy.flush_level (h : F.Tidy) : F.flush.top.append F.flush.buf = F.level := by
  unfold flush level pending
  cases hclosed : F.closed with
  | none => rfl
  | some c =>
      have hbuf := h (by simp [hclosed])
      simp [hbuf]

/-- An element `Y` has been read: it is the operand, and stands behind what
the level held before. -/
structure Element (F F' : Frames) (Y : List Inst) : Prop where
  tidy : F'.Tidy
  below : F'.below = F.below
  operand : ∃ pre, F'.operand = some (pre, Y) ∧ F'.top.append pre = F.level

/-- Code `Y` has been put behind what the level held before. -/
structure Extended (F F' : Frames) (Y : List Inst) : Prop where
  tidy : F'.Tidy
  below : F'.below = F.below
  level : F'.level = F.level.append Y

theorem Tidy.pending_of_operand (h : F.Tidy) {pre e : List Inst}
    (hop : F.operand = some (pre, e)) : F.pending = pre ++ e := by
  unfold operand at hop
  unfold pending
  cases hclosed : F.closed with
  | some c =>
      rw [hclosed] at hop
      obtain ⟨rfl, rfl⟩ : [] = pre ∧ c = e := by simpa using hop
      rw [h (by simp [hclosed])]
      simp
  | none =>
      simp only [hclosed, Option.map_eq_some_iff, Prod.mk.injEq] at hop
      rcases hop with ⟨inst, hlast, rfl, rfl⟩
      simp [List.dropLast_append_getLast? _ hlast]

theorem Element.extended {Y : List Inst} (h : Element F F' Y) : Extended F F' Y := by
  rcases h.operand with ⟨pre, hop, hpre⟩
  refine ⟨h.tidy, h.below, ?_⟩
  rw [Frames.level, h.tidy.pending_of_operand hop, ← Stk.append_append, hpre]

theorem Extended.trans {F'' : Frames} {Y Z : List Inst} (h : Extended F F' Y)
    (h' : Extended F' F'' Z) : Extended F F'' (Y ++ Z) := by
  refine ⟨h'.tidy, h'.below.trans h.below, ?_⟩
  rw [h'.level, h.level, Stk.append_append]

theorem Tidy.atom (h : F.Tidy) (inst : Inst) : Element F (F.atom inst) [inst] := by
  have hclosed : (F.atom inst).closed = none := F.flush_closed
  refine ⟨fun hne => absurd hclosed hne, F.flush_below, F.flush.buf, ?_, h.flush_level⟩
  unfold operand
  rw [hclosed]
  simp [Frames.atom]

theorem Element.operate {Y c : List Inst} (h : Element F F' Y)
    {code : List Inst → Option (List Inst)} (hcode : code Y = some c) :
    ∃ F'', F'.operate code = some F'' ∧ Extended F F'' c := by
  rcases h.operand with ⟨pre, hop, hpre⟩
  refine ⟨{ F' with top := F'.top.append (pre ++ c), buf := [], closed := none }, ?_, ?_⟩
  · unfold Frames.operate
    rw [hop]
    simp [hcode]
  · refine ⟨fun _ => rfl, h.below, ?_⟩
    simp only [Frames.level, Frames.pending, Option.getD_none, List.append_nil, Stk.append_nil]
    rw [← Stk.append_append, hpre]
    rfl

theorem Tidy.openLevel (h : F.Tidy) :
    F.openLevel = { top := Stk.empty, below := F.level :: F.below, buf := [], closed := none } := by
  rw [Frames.openLevel, h.flush_level]

/-- A group that has been opened and is closed again is an element. -/
theorem Tidy.closeLevel (h : F'.Tidy) (hbelow : F'.below = F.level :: F.below)
    (hne : F'.level.attach.code ≠ []) :
    ∃ F'', F'.closeLevel = some F'' ∧ Element F F'' F'.level.attach.code := by
  refine ⟨{ top := F.level, below := F.below, buf := [], closed := some F'.level.attach.code },
    ?_, fun _ => rfl, rfl, [], rfl, ?_⟩
  · unfold Frames.closeLevel
    rw [hbelow, h.flush_level]
    exact if_neg hne
  · exact Stk.append_nil _

end Frames

end Rxvm
