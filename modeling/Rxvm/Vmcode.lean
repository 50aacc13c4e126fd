import Rxvm.Stack
import Rxvm.Lex
import Rxvm.Lfix

/-!
# Rxvm.Vmcode — vmcode.c

The code generator: each operator moves its operand items from the literal
buffer `cp->buf` onto `cp->target` and adds the branches and jumps around
them. Offsets are relative to the instruction that holds them.
-/

namespace Rxvm

/-- The file-level and function-level static variables the compiler uses. They
live as long as the process. -/
structure Statics where
  lex : LexStatics
  lfix : LfixStatics
  /-- `alt_seen` of `stage1.c`. -/
  altSeen : Bool
  /-- `is_nchar` of `stage1_charc_state`. -/
  isNchar : Bool
deriving DecidableEq, Repr

/-- The statics of a process that has compiled nothing. -/
def Statics.init : Statics where
  lex := { literal := false, newlineSeen := false, lp1 := 0, lpn := 0 }
  lfix := { ltemp0 := 0, ltempn := 0, lfix0 := 0, lfixn := 0, lfixs := false }
  altSeen := false
  isNchar := false

/-- `context_t`, with the memory its pointers point into, the statics, and the
local variable `state` of `stage1`. The list `parens` from head to tail is
`groups` followed by `base`: the tail is pushed first and never freed. `strb`
is the string builder's contents, `none` while `strb.buf` is NULL. -/
structure Context where
  mem : Mem
  strb : Option (List CChar)
  target : StackId
  buf : StackId
  prog : StackId
  operand : Option ItemId
  groups : List StackId
  base : StackId
  tok : Tok
  lasttok : Tok
  depth : Nat
  chained : Bool
  inCharc : Bool
  statics : Statics

namespace Context

/-- `*cp->buf`. -/
def bufStack (cp : Context) : IrStack := cp.mem.stack cp.buf

/-- `*cp->target`. -/
def targetStack (cp : Context) : IrStack := cp.mem.stack cp.target

/-- `stack_add_inst_head (cp->target, &inst)`. -/
def emit (cp : Context) (inst : Inst) : Context :=
  { cp with mem := (cp.mem.stackAddInstHead cp.target inst).1 }

end Context

/-- Writing the field `x` of an instruction. -/
def Inst.setX (x : Int) : Inst → Inst
  | .opJmp _ => .opJmp x
  | .opBranch _ y => .opBranch x y
  | i => i

/-- `stack_cat_from_item`: follow `previous` from `i` until `stop`, moving
each item. -/
def stackCatFromItem (k : StackId) (stop : Option ItemId) :
    Nat → Mem → Option ItemId → Run Mem
  | 0, _, _ => .error .diverges
  | fuel + 1, m, i => do
    let m ← m.stackPointNewHead k i
    if i = stop then
      return m
    match i with
    | none => .error .nullItem
    | some n => stackCatFromItem k stop fuel m (m.item n).previous

/-- `stack_dupe_from_item`: as `stack_cat_from_item`, with a copy of each
instruction. A class string is copied up to its NUL, which is all of it. -/
def stackDupeFromItem (k : StackId) (stop : Option ItemId) :
    Nat → Mem → Option ItemId → Run Mem
  | 0, _, _ => .error .diverges
  | _ + 1, _, none => .error .nullItem
  | fuel + 1, m, some n =>
    let m' := (m.stackAddInstHead k (m.item n).data).1
    if some n = stop then .ok m'
    else stackDupeFromItem k stop fuel m' (m'.item n).previous

namespace Context

/-- `stack_cat_from_item (cp->target, cp->buf->head, i)`. -/
def catOperand (cp : Context) (i : Option ItemId) : Run Context := do
  let m ← stackCatFromItem cp.target cp.bufStack.head (cp.mem.itemCount + 1) cp.mem i
  return { cp with mem := m }

/-- `stack_dupe_from_item (cp->target, cp->buf->head, i)`. -/
def dupeOperand (cp : Context) (i : Option ItemId) : Run Context := do
  let m ← stackDupeFromItem cp.target cp.bufStack.head (cp.mem.itemCount + 1) cp.mem i
  return { cp with mem := m }

/-- The loops `for (j = 0; j < n; ++j)` around `stack_dupe_from_item`. -/
def dupeTimes (i : Option ItemId) : Nat → Context → Run Context
  | 0, cp => .ok cp
  | n + 1, cp => do
    let cp ← cp.dupeOperand i
    dupeTimes i n cp

end Context

/-- `attach_dangling_alt`. -/
def attachDanglingAlt (cp : Context) : Context :=
  let s := cp.targetStack
  match s.danglingAlt with
  | none => cp
  | some d =>
    let it := cp.mem.item d
    let m := cp.mem.setItem d
      { it with data := it.data.setX ((s.size : Int) - s.dsize + 1) }
    { cp with mem := m.setStack cp.target { s with danglingAlt := none } }

/-- What an emitter returns: 0 or an error code, and the context it leaves. -/
abbrev Coded := Run (Option Err × Context)

/-- `code_rep_n`. -/
def codeRepN (cp : Context) (repN : Int) (i : Option ItemId) : Coded :=
  if repN = 0 then
    .ok (some .badop, cp)
  else do
    let cp ← cp.dupeTimes i (repN - 1).toNat
    let cp ← cp.catOperand i
    return (none, cp)

/-- `code_one`. -/
def codeOne (cp : Context) (size : Nat) (i : Option ItemId) : Coded := do
  let cp ← cp.catOperand i
  return (none, cp.emit (.opBranch (-size) 1))

/-- `code_zero`. -/
def codeZero (cp : Context) (size : Nat) (i : Option ItemId) : Coded := do
  let cp ← (cp.emit (.opBranch 1 (size + 2))).catOperand i
  return (none, cp.emit (.opBranch (-size) 1))

/-- `code_onezero`. -/
def codeOnezero (cp : Context) (size : Nat) (i : Option ItemId) : Coded := do
  let cp ← (cp.emit (.opBranch 1 (size + 1))).catOperand i
  return (none, cp)

/-- The loop `code_rep_range` and `code_rep_less` end with, where the argument
is the number of rounds left: each round is a branch behind the last copy and
a copy of the operand, and the last round moves the operand itself. -/
def codeOptional (size : Nat) (i : Option ItemId) : Nat → Context → Run Context
  | 0, cp => .ok cp
  | rounds + 1, cp => do
    let cp := cp.emit (.opBranch 1 ((size + 1) * (rounds + 1)))
    let cp ← if rounds = 0 then cp.catOperand i else cp.dupeOperand i
    codeOptional size i rounds cp

/-- `code_rep_range`. -/
def codeRepRange (cp : Context) (repN repM : Int) (size : Nat) (i : Option ItemId) :
    Coded :=
  if repN = repM then
    codeRepN cp repN i
  else if (repN = 0 ∧ repM = 1) ∨ (repN = 1 ∧ repM = 0) then
    codeOnezero cp size i
  else do
    let lo := min repN repM
    let hi := max repN repM
    let cp ← cp.dupeTimes i lo.toNat
    let cp ← codeOptional size i (hi - lo).toNat cp
    return (none, cp)

/-- `code_rep_more`. -/
def codeRepMore (cp : Context) (repN : Int) (size : Nat) (i : Option ItemId) : Coded := do
  let cp ← cp.dupeTimes i (repN - 1).toNat
  let cp ← cp.catOperand i
  return (none, cp.emit (.opBranch (-size) 1))

/-- `code_rep_less`. -/
def codeRepLess (cp : Context) (repM : Int) (size : Nat) (i : Option ItemId) : Coded :=
  if repM = 0 then
    .ok (some .badop, cp)
  else if repM = 1 then
    codeOnezero cp size i
  else do
    let cp ← codeOptional size i repM.toNat cp
    return (none, cp)

/-- `code_alt`. The branch goes in front of all that `target` holds. -/
def codeAlt (cp : Context) (i : Option ItemId) : Coded := do
  let cp ← if i = none then pure cp else cp.catOperand i
  let cp := if cp.targetStack.dsize ≠ 0 ∧ cp.chained = false then
    { cp with chained := true } else cp
  let cp := attachDanglingAlt cp
  let inst := Inst.opBranch 1 (cp.targetStack.size + 2)
  let cp := { cp with mem := (cp.mem.stackAddInstTail cp.target inst).1 }
  let (m, jmp) := cp.mem.stackAddInstHead cp.target (.opJmp 0)
  let s := m.stack cp.target
  return (none, { cp with
    mem := m.setStack cp.target { s with danglingAlt := some jmp, dsize := s.size } })

/-- `code_ccs`: the class goes to the base buffer, and becomes the operand. -/
def codeCcs (cp : Context) (isNchar : Bool) : Context :=
  if cp.strb = some [] then
    { cp with strb := none }
  else
    let ccs := cstring (cp.strb.getD [])
    let inst := if isNchar then Inst.opNclass ccs else Inst.opClass ccs
    let (m, new) := cp.mem.stackAddInstHead cp.base inst
    { cp with mem := m, operand := some new, strb := none }

/-- `code_match`. -/
def codeMatch (cp : Context) : Context :=
  { cp with mem := (cp.mem.stackAddInstHead cp.prog .opMatch).1 }

end Rxvm
