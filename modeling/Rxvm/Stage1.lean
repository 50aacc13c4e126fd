import Rxvm.Vmcode

/-!
# Rxvm.Stage1 — stage1.c

The first compiler stage: one pass over the tokens of the expression, which
leaves the program as a linked list with relative offsets.

A function that the source gives `context_t *cp` takes the context and returns
it. Its return code is an `Option Err`: `none` is 0.
-/

namespace Rxvm

def repNoField : Int := -1
def repFieldEmpty : Int := -2

/-- One digit of `parse_rep`, with the wrap of `int`. -/
def repDigit (curr : Int) (c : CChar) : Int :=
  let curr := if curr = repNoField then 0 else curr
  i32 (i32 (curr * 10) + (c.toInt - (chr '0').toInt))

/-- The loop of `parse_rep`; the flag says that `curr` is `rep_m`. -/
def parseRepLoop : List CChar → Bool → Int → Int → Bool × Int × Int
  | [], currM, repN, repM => (currM, repN, repM)
  | c :: rest, currM, repN, repM =>
    if c = commaSym then parseRepLoop rest true repN repM
    else if currM then parseRepLoop rest true repN (repDigit repM c)
    else parseRepLoop rest false (repDigit repN c) repM

/-- `parse_rep`: `start` is `{`, and `fin` is behind `}`. -/
def parseRep (text : List CChar) (start fin : Nat) : Int × Int :=
  match parseRepLoop ((text.drop (start + 1)).take (fin - start - 2))
      false repNoField repNoField with
  | (false, repN, repM) => (repN, repM)
  | (true, repN, repM) =>
    (if repN = repNoField then repFieldEmpty else repN,
      if repM = repNoField then repFieldEmpty else repM)

namespace Context

/-- `*lp1`. -/
def lp1Char (cp : Context) (text : List CChar) : CChar := at' text cp.statics.lex.lp1

/-- `lfix_stop ()`. -/
def lfixStop (cp : Context) : Context :=
  { cp with statics := { cp.statics with lfix := cp.statics.lfix.lfixStop } }

/-- `lfix_dec ()`. -/
def lfixDec (cp : Context) : Context :=
  { cp with statics := { cp.statics with lfix := cp.statics.lfix.lfixDec } }

end Context

/-- `process_op_rep`. -/
def processOpRep (cp : Context) (repN repM : Int) (size : Nat) (i : Option ItemId) :
    Coded := do
  if repN ≥ 0 ∧ repM ≥ 0 then
    codeRepRange cp repN repM size i
  else if repN > 0 ∧ repM = repFieldEmpty then
    codeRepMore cp repN size i
  else if repN = repFieldEmpty ∧ repM ≥ 0 then
    let (err, cp) ← codeRepLess cp repM size i
    return (err, if err = none then cp.lfixDec else cp)
  else if repN ≥ 0 ∧ repM = repNoField then
    codeRepN cp repN i
  else if repN = 0 ∧ repM = repFieldEmpty then
    let (err, cp) ← codeZero cp size i
    return (err, if err = none then cp.lfixDec else cp)
  else
    return (none, cp)

/-- The loop of `process_op` that moves the literals in front of the operand
to the output; it leaves with `i` at the operand and `size` the number of
items from there on. -/
def walkToOperand (k : StackId) (operand : Option ItemId) :
    Nat → Mem → Option ItemId → Nat → Run (Mem × Nat)
  | 0, _, _, _ => .error .diverges
  | fuel + 1, m, i, size =>
    if i = operand then
      .ok (m, size)
    else do
      let m ← m.stackPointNewHead k i
      match i with
      | none => .error .nullItem
      | some n => walkToOperand k operand fuel m (m.item n).previous (size - 1)

/-- The `switch` of `process_op`. -/
def processOpSwitch (text : List CChar) (cp : Context) (size : Nat) (i : Option ItemId) :
    Coded := do
  match cp.tok with
  | .rep =>
    let (repN, repM) := parseRep text cp.statics.lex.lp1 cp.statics.lex.lpn
    processOpRep cp repN repM size i
  | .one => codeOne cp size i
  | .zero =>
    let (err, cp) ← codeZero cp size i
    return (err, if err = none then cp.lfixDec else cp)
  | .onezero =>
    let (err, cp) ← codeOnezero cp size i
    return (err, if err = none then cp.lfixDec else cp)
  | .alt =>
    let (err, cp) ← codeAlt cp i
    return (err, if err = none ∧ cp.depth = 0 then
      { cp with statics := { cp.statics with altSeen := true } } else cp)
  | _ => return (none, cp)

/-- What `process_op` does once the code is out: the buffer is emptied, and
freed when it was the buffer of a group that has just been closed. -/
def processOpEnd (cp : Context) : Context :=
  let cp := cp.lfixStop
  let cp := { cp with mem := cp.mem.stackReset cp.buf }
  let cp := if cp.lasttok = .rparen then { cp with groups := cp.groups.tail } else cp
  { cp with buf := cp.base }

/-- `process_op`. -/
def processOp (text : List CChar) (cp : Context) : Coded := do
  if cp.bufStack.head = none then
    if cp.tok = .alt then
      let cur := cp.mem.stack (cp.groups.headD cp.base)
      match ← processOpSwitch text cp cur.size none with
      | (some e, cp) => return (some e, cp)
      | (none, cp) => return (none, processOpEnd cp)
    else
      return (some .badop, cp)
  else
    let (m, size) ← walkToOperand cp.target cp.operand (cp.mem.itemCount + 1) cp.mem
      cp.bufStack.tail cp.bufStack.size
    match ← processOpSwitch text { cp with mem := m } size cp.operand with
    | (some e, cp) => return (some e, cp)
    | (none, cp) => return (none, processOpEnd cp)

/-- `goto single`: the instruction goes to `cp->buf`, and is the operand. -/
def addSingle (cp : Context) (inst : Inst) : Context :=
  let (m, new) := cp.mem.stackAddInstHead cp.buf inst
  { cp with mem := m, operand := some new }

/-- The flush of a closed group that no operator follows. -/
def flushGroup (cp : Context) : Run Context := do
  if cp.lasttok = .rparen ∧ cp.bufStack.size > 0 then
    let m ← cp.mem.stackCat cp.target cp.buf
    return { cp with mem := m, groups := cp.groups.tail, buf := cp.base }
  else
    return cp

/-- `case LPAREN`. -/
def openGroup (cp : Context) : Run Context := do
  let m ← cp.mem.stackCat cp.target cp.base
  let (m, new) := (m.stackReset cp.base).createStack
  return { cp with mem := m, groups := new :: cp.groups, target := new,
                   depth := u32 (cp.depth + 1) }

/-- `case RPAREN`. -/
def closeGroup (cp : Context) : Coded := do
  match cp.groups with
  | [] => return (some .badparen, cp)
  | cur :: below =>
    let m ← cp.mem.stackCat cp.target cp.base
    let cp := attachDanglingAlt { cp with mem := m }
    let m := cp.mem.stackReset cp.base
    return (none, { cp with mem := m, operand := (m.stack cur).tail, buf := cur,
                            target := below.headD cp.prog, depth := u32 (cp.depth - 1) })

/-- `stage1_main_state`. -/
def stage1MainState (text : List CChar) (cp : Context) : Coded := do
  if cp.tok.isop then
    processOp text cp
  else
    let cp ← flushGroup cp
    if cp.tok = .literal then
      let cp := if cp.statics.lex.newlineSeen = false ∧ cp.depth = 0 then
        { cp with statics := { cp.statics with
            lfix := cp.statics.lfix.lfixContinue cp.statics.lex.lp1 } } else cp
      return (none, addSingle cp (.opChar (cp.lp1Char text)))
    else
      let cp := cp.lfixStop
      match cp.tok with
      | .any => return (none, addSingle cp .opAny)
      | .sol => return (none, addSingle cp .opSol)
      | .eol => return (none, addSingle cp .opEol)
      | .charcOpen => return (none, { cp with inCharc := true, strb := some [] })
      | .lparen => return (none, ← openGroup cp)
      | .rparen => closeGroup cp
      | .charcClose => return (some .badclass, cp)
      | _ => return (none, cp)

/-- `strb_addc (&cp->strb, c)`. -/
def Context.addc (cp : Context) (c : CChar) : Context :=
  { cp with strb := some (cp.strb.getD [] ++ [c]) }

/-- The loop of `expand_char_range`. `rlo++` wraps at 127, so a round of 256
characters that meets no end repeats for ever. -/
def expandLoop (rhi : CChar) : Nat → CChar → Run (List CChar)
  | 0, _ => .error .diverges
  | fuel + 1, rlo =>
    if rlo ≤ rhi then do
      let rest ← expandLoop rhi fuel (rlo + 1)
      return rlo :: rest
    else
      return []

/-- The bounds `rlo` and `rhi` of `expand_char_range`. -/
def rangeBounds (text : List CChar) (lp1 : Nat) : CChar × CChar :=
  let tempn := if at' text (lp1 + 2) = derefSym then at' text (lp1 + 3)
    else at' text (lp1 + 2)
  if at' text lp1 > tempn then (tempn, at' text lp1) else (at' text lp1, tempn)

/-- `expand_char_range`. -/
def expandCharRange (text : List CChar) (cp : Context) : Run Context := do
  let (rlo, rhi) := rangeBounds text cp.statics.lex.lp1
  let chars ← expandLoop rhi 257 rlo
  return { cp with strb := some (cp.strb.getD [] ++ chars) }

/-- `stage1_charc_state`. -/
def stage1CharcState (text : List CChar) (cp : Context) : Coded := do
  match cp.tok with
  | .literal =>
    if cp.lp1Char text = solSym ∧ cp.statics.isNchar = false then
      return (none, { cp with statics := { cp.statics with isNchar := true } })
    else
      return (none, cp.addc (cp.lp1Char text))
  | .charRange => return (none, ← expandCharRange text cp)
  | .charcClose =>
    let cp := codeCcs cp cp.statics.isNchar
    return (none, { cp with statics := { cp.statics with isNchar := false },
                            inCharc := false })
  | _ => return (some .einval, cp)

/-- `stage1_init` and `lex_init`. -/
def stage1Init (g : Statics) : Context :=
  -- cp->parens is a list of stacks here, so the IR and the base buffer are
  -- the first stacks
  let (m, prog) := Mem.empty.createStack
  let (m, base) := m.createStack
  { mem := m, strb := none, target := prog, buf := base, prog := prog, operand := none,
    groups := [], base := base, tok := .charcOpen, lasttok := .charcOpen, depth := 0,
    chained := false, inCharc := false,
    statics := { g with altSeen := false, lfix := g.lfix.lfixZero, lex := lexInit g.lex } }

/-- The loop of `compile_simple_backlog` over the literals that were read
before the first other token. -/
def backlogLoop (text : List CChar) (simple : Nat) :
    Nat → Nat → Int → Int → Context → Nat × Int × Int × Context
  | 0, orig, fixtemp, delimit, cp => (orig, fixtemp, delimit, cp)
  | fuel + 1, orig, fixtemp, delimit, cp =>
    if orig = simple then
      (orig, fixtemp, delimit, cp)
    else
      let escaped := at' text orig = derefSym
      let delimit := if escaped then delimit + 1 else delimit
      let orig := if escaped then orig + 1 else orig
      let fixtemp := if fixtemp = 0 ∧ at' text orig = newline then
        i32 (orig - 1 - delimit) else fixtemp
      let cp := { cp with mem := (cp.mem.stackAddInstHead cp.buf (.opChar (at' text orig))).1 }
      backlogLoop text simple fuel (orig + 1) fixtemp delimit cp

/-- `compile_simple_backlog`. -/
def compileSimpleBacklog (text : List CChar) (simple : Nat) (cp : Context) : Context :=
  let (orig, fixtemp, delimit, cp) := backlogLoop text simple (simple + 1) 0 0 0 cp
  let ltempn := u32 (if fixtemp ≠ 0 then fixtemp else (orig : Int) - 1 - delimit)
  { cp with operand := (cp.mem.stack cp.buf).head,
            statics := { cp.statics with lfix := cp.statics.lfix.setLtempn ltempn } }

/-- The loop of `check_simple_for_lfix`, which returns `lfixn`. -/
def checkSimpleLoop : List CChar → Nat → Nat → Nat
  | [], i, delimit => u32 ((i : Int) - 1 - delimit)
  | c :: rest, i, delimit =>
    if c = 0 then u32 ((i : Int) - 1 - delimit)
    else if c = derefSym then checkSimpleLoop rest (i + 1) (delimit + 1)
    else if c = newline then u32 ((i : Int) - 1 - delimit)
    else checkSimpleLoop rest (i + 1) delimit

/-- `check_simple_for_lfix`: the `lfixn` of an expression of literals only,
whose `lfix0` is 0. -/
def checkSimpleForLfix (orig : List CChar) : Nat := checkSimpleLoop orig 0 0

/-- How `stage1` ends: with a literal-only expression and its `lfixn`, with
the IR and the two ends of the fixed substring, or with an error, in the
context `stage1_err_cleanup` is given. -/
inductive Stage1 where
  | simple (lfixn : Nat) (g : Statics)
  | ir (lfix0 lfixn : Nat) (cp : Context)
  | fail (e : Err) (cp : Context)

/-- The body of the token loop: the state the token is given to. -/
def stage1Step (text : List CChar) (cp : Context) : Coded :=
  if cp.inCharc then stage1CharcState text cp else stage1MainState text cp

/-- Reading the next token into `cp->tok`. -/
def lexInto (text : List CChar) (input : Nat) (cp : Context) : Nat × Context :=
  let (tok, input, lexs) := lex text input cp.statics.lex
  (input, { cp with tok := tok, statics := { cp.statics with lex := lexs } })

/-- What `stage1` does at the end of the input. -/
def stage1End (cp : Context) : Run Stage1 := do
  let cp ← if cp.lasttok = .rparen ∧ cp.bufStack.size > 0 then do
      let m ← cp.mem.stackCat cp.prog cp.buf
      pure { cp with mem := m, groups := cp.groups.tail }
    else pure cp
  if cp.inCharc then
    return .fail .eclass cp
  else if cp.groups ≠ [] then
    return .fail .eparen cp
  else
    let cp := cp.lfixStop
    let m ← cp.mem.stackCat cp.prog cp.base
    let cp := codeMatch (attachDanglingAlt { cp with mem := m })
    if cp.statics.altSeen then
      return .ir 0 0 cp
    else
      return .ir cp.statics.lfix.lfix0 cp.statics.lfix.lfixn cp

/-- The `do`/`while` loop of `stage1` and what follows it. -/
def stage1Loop (text : List CChar) : Nat → Nat → Context → Run Stage1
  | 0, _, _ => .error .diverges
  | fuel + 1, input, cp => do
    match cp.tok with
    | .error e => return .fail e cp
    | _ =>
      match ← stage1Step text cp with
      | (some e, cp) => return .fail e cp
      | (none, cp) =>
        let (input, cp) := lexInto text input { cp with lasttok := cp.tok }
        if cp.tok = .eos then stage1End cp
        else stage1Loop text fuel input cp

/-- The first loop of `stage1`, over the literals at the start of the
expression; `simple` is `ctx.simple`. -/
def literalLoop (text : List CChar) : Nat → Nat → Option Nat → Context →
    Run (Nat × Option Nat × Context)
  | 0, _, _, _ => .error .diverges
  | fuel + 1, input, simple, cp =>
    let (input, cp) := lexInto text input cp
    if cp.tok = .literal then literalLoop text fuel input (some input) cp
    else .ok (input, simple, cp)

/-- `stage1`. -/
def stage1 (g : Statics) (text : List CChar) : Run Stage1 := do
  let (input, simple, cp) ← literalLoop text (text.length + 1) 0 none (stage1Init g)
  if cp.tok = .eos then
    return .simple (checkSimpleForLfix text) cp.statics
  else
    let cp := match simple with
      | some simple => compileSimpleBacklog text simple cp
      | none => cp
    stage1Loop text (text.length + 1) input cp

end Rxvm
