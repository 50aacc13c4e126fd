import Rxvm.Gen
import Rxvm.Grammar
import Rxvm.StrbSpec

/-!
# Rxvm.Randexp — randexp.c

The random expressions of the fuzz tests: a function for each nonterminal of
the grammar, which appends a text of it to the string builder. A call that does
not come to an end has no result.
-/

namespace Rxvm

/-- `randexp_cfg_t`, but for `strb`, which nothing reads. -/
structure RandexpCfg where
  literals : UInt8
  escapes : UInt8
  tokens : UInt8
  limit : Nat

def maxRep : Nat := 10
def basicChoices : Nat := 5
def repsChoices : Nat := 4
def elemChoices : Nat := 5
def setitemChoices : Nat := 2
def numMeta : Nat := 15

/-- `LITERALS`. -/
def numLiterals : Nat :=
  ((printableHigh.toInt - printableLow.toInt) + (wsHigh.toInt - wsLow.toInt) - numMeta).toNat

/-! ## The characters -/

/-- `ismeta`. -/
def ismeta (c : CChar) : Bool := metaSyms.any (· == c)

/-- The first loop of `init_charmap`. -/
def charmapWs : List CChar :=
  (List.range (wsHigh.toInt - wsLow.toInt + 1).toNat).map fun i => Int8.ofNat (i + wsLow.toInt.toNat)

/-- The second loop of `init_charmap`, with `left` literals to go. -/
def charmapLoop : Nat → Nat → CChar → List CChar
  | 0, _, _ => []
  | fuel + 1, left, c =>
    if left = 0 then []
    else if ismeta c then charmapLoop fuel left (c + 1)
    else c :: charmapLoop fuel (left - 1) (c + 1)

/-- `init_charmap`: the whitespace, the other literals, and the metacharacters
at the end. -/
def initCharmap : List CChar :=
  charmapWs ++ charmapLoop 256 (numLiterals - charmapWs.length) printableLow ++ metaSyms

/-! ## The generator -/

/-- What the functions read: the statics `cfg` and `charmap`, and the values
`rand()` returns. -/
structure RandexpEnv where
  cfg : RandexpCfg
  charmap : List CChar
  rand : Nat → Nat

/-- What they change: the static `strb` and the number of calls of `rand`. -/
structure RandexpState where
  strb : List CChar
  calls : Nat
deriving DecidableEq, Repr

/-- A function for a nonterminal. -/
abbrev Nonterm := RandexpState → Option RandexpState

/-- `strb_addc`. -/
def RandexpState.addc (c : CChar) (st : RandexpState) : RandexpState :=
  { st with strb := st.strb ++ [c] }

/-- `strb_addu`. -/
def RandexpState.addu (i : Nat) (st : RandexpState) : RandexpState :=
  { st with strb := st.strb ++ decimal i }

namespace RandexpEnv

variable (E : RandexpEnv)

/-- `rand_range`. -/
def range (low high : Nat) (st : RandexpState) : Option (Nat × RandexpState) := do
  let (r, calls) ← randRange E.rand st.calls low high
  return (r, { st with calls := calls })

/-- `choice`. -/
def chance (prob : UInt8) (st : RandexpState) : Option (Bool × RandexpState) := do
  let (b, calls) ← choice E.rand st.calls prob.toNat
  return (b, { st with calls := calls })

/-- The probability of another token. -/
def val (st : RandexpState) : UInt8 := if st.strb.length ≥ E.cfg.limit then 0 else E.cfg.tokens

/-- `get_rand_literal`. -/
def getRandLiteral (withMeta : Bool) (st : RandexpState) : Option (CChar × RandexpState) := do
  let hi := if withMeta then numLiterals + numMeta else numLiterals
  let (r, st) ← E.range 0 (hi - 1) st
  return (at' E.charmap r, st)

def nontermRange : Nonterm := fun st => do
  let (c, st) ← E.getRandLiteral false st
  let st := (st.addc c).addc rangeSepSym
  let (c, st) ← E.getRandLiteral false st
  return st.addc c

def isBadCcsChar (c : CChar) : Bool :=
  c == charcCloseSym || c == rangeSepSym || c == derefSym || c == solSym

def nontermCharCcs : Nat → Nonterm
  | 0, _ => none
  | fuel + 1, st => do
    let (c, st) ← E.getRandLiteral true st
    if isBadCcsChar c then nontermCharCcs fuel st else return st.addc c

/-- The entries of `setitem_choices` are `nonterm_range` and
`nonterm_char_ccs`. -/
def nontermSetitem (fuel : Nat) : Nonterm := fun st => do
  let (b, st) ← E.chance E.cfg.literals st
  if b then E.nontermCharCcs fuel st
  else
    let (r, st) ← E.range 0 (setitemChoices - 1) st
    match r with
    | 0 => E.nontermRange st
    | _ => E.nontermCharCcs fuel st

def nontermSetitems : Nat → Nonterm
  | 0, _ => none
  | fuel + 1, st => do
    let val := E.val st
    let st ← E.nontermSetitem fuel st
    let (b, st) ← E.chance val st
    if b then nontermSetitems fuel st else return st

def nontermSet (fuel : Nat) : Nonterm := fun st => do
  let st ← E.nontermSetitems fuel (st.addc charcOpenSym)
  return st.addc charcCloseSym

def nontermNset (fuel : Nat) : Nonterm := fun st => do
  let st ← E.nontermSetitems fuel ((st.addc charcOpenSym).addc solSym)
  return st.addc charcCloseSym

def nontermChar : Nonterm := fun st => do
  let (b, st) ← E.chance E.cfg.escapes st
  if b then
    let (r, st) ← E.range 0 (numMeta - 1) (st.addc derefSym)
    return st.addc (at' metaSyms r)
  else
    let (c, st) ← E.getRandLiteral false st
    return st.addc c

def nontermAny : Nonterm := fun st => some (st.addc anySym)

def nontermRepless : Nonterm := fun st => do
  let (r, st) ← E.range 1 maxRep (st.addc commaSym)
  return st.addu r

def nontermRepmore : Nonterm := fun st => do
  let (r, st) ← E.range 1 maxRep st
  return (st.addu r).addc commaSym

def nontermReprange : Nonterm := fun st => do
  let (r, st) ← E.range 1 maxRep st
  let (r', st) ← E.range 1 maxRep ((st.addu r).addc commaSym)
  return st.addu r'

def nontermRepn : Nonterm := fun st => do
  let (r, st) ← E.range 1 maxRep st
  return st.addu r

def nontermReps : Nonterm := fun st => do
  let (r, st) ← E.range 0 (repsChoices - 1) st
  match r with
  | 0 => E.nontermRepn st
  | 1 => E.nontermReprange st
  | 2 => E.nontermRepmore st
  | _ => E.nontermRepless st

mutual

def nontermRe : Nat → Nonterm
  | 0, _ => none
  | fuel + 1, st => do
    let (b, st) ← E.chance (E.val st) st
    if b then nontermUnion fuel st else nontermSimple fuel st

def nontermUnion : Nat → Nonterm
  | 0, _ => none
  | fuel + 1, st => do
    let st ← nontermRe fuel st
    nontermSimple fuel (st.addc altSym)

def nontermSimple : Nat → Nonterm
  | 0, _ => none
  | fuel + 1, st => do
    let (b, st) ← E.chance (E.val st) st
    if b then nontermConcat fuel st else nontermBasic fuel st

def nontermConcat : Nat → Nonterm
  | 0, _ => none
  | fuel + 1, st => do
    let st ← nontermSimple fuel st
    nontermBasic fuel st

/-- The entries of `basic_choices` are `nonterm_zero`, `nonterm_one`,
`nonterm_onezero`, `nonterm_rep` and `nonterm_elem`. -/
def nontermBasic : Nat → Nonterm
  | 0, _ => none
  | fuel + 1, st => do
    let (b, st) ← E.chance E.cfg.literals st
    if b then nontermElem fuel st
    else
      let (r, st) ← E.range 0 (basicChoices - 1) st
      match r with
      | 0 => nontermZero fuel st
      | 1 => nontermOne fuel st
      | 2 => nontermOnezero fuel st
      | 3 => nontermRep fuel st
      | _ => nontermElem fuel st

def nontermZero : Nat → Nonterm
  | 0, _ => none
  | fuel + 1, st => do
    let st ← nontermElem fuel st
    return st.addc zeroSym

def nontermOne : Nat → Nonterm
  | 0, _ => none
  | fuel + 1, st => do
    let st ← nontermElem fuel st
    return st.addc oneSym

def nontermOnezero : Nat → Nonterm
  | 0, _ => none
  | fuel + 1, st => do
    let st ← nontermElem fuel st
    return st.addc onezeroSym

def nontermRep : Nat → Nonterm
  | 0, _ => none
  | fuel + 1, st => do
    let st ← nontermElem fuel st
    let st ← E.nontermReps (st.addc repOpenSym)
    return st.addc repCloseSym

/-- The entries of `elem_choices` are `nonterm_group`, `nonterm_any`,
`nonterm_char`, `nonterm_set` and `nonterm_nset`. -/
def nontermElem : Nat → Nonterm
  | 0, _ => none
  | fuel + 1, st => do
    let (b, st) ← E.chance E.cfg.literals st
    if b then E.nontermChar st
    else
      let (r, st) ← E.range 0 (elemChoices - 1) st
      match r with
      | 0 => nontermGroup fuel st
      | 1 => nontermAny st
      | 2 => E.nontermChar st
      | 3 => E.nontermSet fuel st
      | _ => E.nontermNset fuel st

def nontermGroup : Nat → Nonterm
  | 0, _ => none
  | fuel + 1, st => do
    let st ← nontermRe fuel (st.addc lparenSym)
    return st.addc rparenSym

end

end RandexpEnv

/-- `gen_randexp`, with the calls of `rand` made before and after. `*len` is
the length of the string. -/
def genRandexp (charmap : List CChar) (rand : Nat → Nat) (fuel : Nat) (cfg : RandexpCfg)
    (calls : Nat) : Option (List CChar × Nat) := do
  let st ← ({ cfg := cfg, charmap := charmap, rand := rand } : RandexpEnv).nontermRe fuel
    { strb := [], calls := calls }
  return (st.strb, st.calls)

end Rxvm
