import Rxvm.Compile

/-!
# Rxvm.Gen — randinput.c

`rxvm_gen` walks through the program and writes a character for each
instruction that reads one. `rand` is the sequence of the values `rand()`
returns, and `n` the number of calls so far. A walk that does not come to
`match`, or divides by zero, has no result.
-/

namespace Rxvm

def defaultLimit : Nat := 1000
def defaultWsProb : Nat := 10
def defaultGenProb : Nat := 50

/-- `rxvm_gencfg_t`, but for `len`, which is returned. -/
structure GenCfg where
  generosity : UInt8
  whitespace : UInt8
  limit : Nat

/-- The string `rxvm_gen` returns, and the `len` it sets when there is a
configuration. -/
structure Generated where
  str : List CChar
  len : Option Nat
deriving DecidableEq, Repr

/-- `rand_range`. Between 0 and the largest `unsigned int` it divides by
zero. -/
def randRange (rand : Nat → Nat) (n low high : Nat) : Option (Nat × Nat) :=
  let count := u32 ((u32 ((high : Int) - low) : Int) + 1)
  if count = 0 then none
  else some (u32 ((low : Int) + (rand n % count : Nat)), n + 1)

/-- `choice`. -/
def choice (rand : Nat → Nat) (n prob : Nat) : Option (Bool × Nat) := do
  let (r, n) ← randRange rand n 0 100
  return (r < prob, n)

/-- The loop of `find_nchar`, from one start of its scan of `ccs` to the
next. -/
def findNcharLoop (ccs : List CChar) : Nat → CChar → Nat → Option CChar
  | 0, _, _ => none
  | fuel + 1, c, wraps =>
    if c ∈ ccs then
      if c < printableHigh then findNcharLoop ccs fuel (c + 1) wraps
      else if wraps + 1 > 1 then some 0
      else findNcharLoop ccs fuel printableLow (wraps + 1)
    else some c

/-- `find_nchar`. Both passes over the printable characters have 95 rounds. -/
def findNchar (rand : Nat → Nat) (n : Nat) (ccs : List CChar) : Option (CChar × Nat) := do
  let (r, n) ← randRange rand n printableLow.toInt.toNat printableHigh.toInt.toNat
  let c ← findNcharLoop ccs 191 (Int8.ofNat r) 0
  return (c, n)

/-- `case OP_ANY`: the character, and the number of calls of `rand`. -/
def genAny (rand : Nat → Nat) (n whitespace : Nat) : Option (CChar × Nat) := do
  let (ws, n) ← choice rand n whitespace
  if ws then
    let (r, n) ← randRange rand n wsLow.toInt.toNat wsHigh.toInt.toNat
    let c := Int8.ofNat r
    return (if c = newline then chr ' ' else c, n)
  else
    let (r, n) ← randRange rand n printableLow.toInt.toNat printableHigh.toInt.toNat
    return (Int8.ofNat r, n)

/-- `case OP_CLASS`. -/
def genClass (rand : Nat → Nat) (n : Nat) (ccs : List CChar) : Option (CChar × Nat) := do
  let (ix, n) ← randRange rand n 0 (u32 ((ccs.length : Int) - 1))
  return (at' ccs ix, n)

/-- The loop of `rxvm_gen` from instruction `ip` on; `strb` has been written. -/
def genLoop (rand : Nat → Nat) (exe : List Inst) (generosity whitespace limit : Nat) :
    Nat → Nat → List CChar → Nat → Option (List CChar)
  | 0, _, _, _ => none
  | fuel + 1, ip, strb, n =>
    match fetch exe ip with
    | .opMatch => some strb
    | .opChar c => genLoop rand exe generosity whitespace limit fuel (ip + 1) (strb ++ [c]) n
    | .opAny => do
      let (c, n) ← genAny rand n whitespace
      genLoop rand exe generosity whitespace limit fuel (ip + 1) (strb ++ [c]) n
    | .opSol =>
      let strb := if strb ≠ [] ∧ strb.getLast? ≠ some newline then strb ++ [newline] else strb
      genLoop rand exe generosity whitespace limit fuel (ip + 1) strb n
    | .opEol =>
      let strb := if exe.length > ip ∧ fetch exe (ip + 1 : Nat) ≠ .opChar newline then
        strb ++ [newline] else strb
      genLoop rand exe generosity whitespace limit fuel (ip + 1) strb n
    | .opClass ccs => do
      let (c, n) ← genClass rand n ccs
      genLoop rand exe generosity whitespace limit fuel (ip + 1) (strb ++ [c]) n
    | .opNclass ccs => do
      let (c, n) ← findNchar rand n ccs
      genLoop rand exe generosity whitespace limit fuel (ip + 1) (strb ++ [c]) n
    | .opBranch x y => do
      let val := if strb.length ≥ limit then 0 else generosity
      let (b, n) ← choice rand n val
      genLoop rand exe generosity whitespace limit fuel (if b then x else y).toNat strb n
    | .opJmp x => genLoop rand exe generosity whitespace limit fuel x.toNat strb n

/-- The loop of `rxvm_gen` over a literal-only expression, with `size`. -/
def genSimple : List CChar → Nat → List CChar × Nat
  | [], size => ([], size)
  | c :: rest, size =>
    if c = derefSym then
      match rest with
      | [] => ([0], size - 1)
      | d :: rest => (d :: (genSimple rest (size - 1)).1, (genSimple rest (size - 1)).2)
    else (c :: (genSimple rest size).1, (genSimple rest size).2)

/-- `rxvm_gen`, in at most `fuel` steps. -/
def rxvmGen (rand : Nat → Nat) (fuel : Nat) (compiled : Compiled) (cfg : Option GenCfg) :
    Option Generated :=
  match compiled.simple with
  | some text =>
    let (str, size) := genSimple text (text.length + 1)
    some { str := str, len := cfg.map fun _ => size }
  | none => do
    let generosity := (cfg.map (·.generosity.toNat)).getD defaultGenProb
    let whitespace := (cfg.map (·.whitespace.toNat)).getD defaultWsProb
    let limit := (cfg.map (·.limit)).getD defaultLimit
    let str ← genLoop rand compiled.exe generosity whitespace limit fuel 0 [] 0
    some { str := str, len := cfg.map fun _ => str.length + 1 }

end Rxvm
