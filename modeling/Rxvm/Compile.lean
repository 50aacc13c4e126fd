import Rxvm.Stage1

/-!
# Rxvm.Compile — stage2.c and rxvm_compile

The second compiler stage, which copies the list into an array and turns
relative offsets into indices, and the entry point `rxvm_compile`.
-/

namespace Rxvm

/-- `cmp->exe[x]`. An index outside the program reads as `match`; no program
the compiler makes has one. -/
def fetch (exe : List Inst) (x : Int) : Inst := exe.getD x.toNat .opMatch

def Inst.isJmp : Inst → Bool
  | .opJmp _ => true
  | _ => false

/-- The field `x`. -/
def Inst.x : Inst → Int
  | .opJmp x => x
  | .opBranch x _ => x
  | _ => 0

/-- `exe[ix].x = x`. -/
def setExeX (x : Int) (exe : List Inst) (ix : Nat) : List Inst :=
  exe.modify ix (Inst.setX x)

/-- The loop of `optimise_chain` that follows the jumps from `inst`; the
result is `chain` from its last entry to its first, and `lookup`. -/
def followChain (exe : List Inst) : Nat → Inst → List Nat → (Nat → Bool) →
    Run (List Nat × (Nat → Bool))
  | 0, _, _, _ => .error .diverges
  | fuel + 1, inst, chain, lookup =>
    if inst.isJmp then
      if (fetch exe inst.x).isJmp then
        followChain exe fuel (fetch exe inst.x) (inst.x.toNat :: chain)
          (Function.update lookup inst.x.toNat true)
      else
        followChain exe fuel (fetch exe inst.x) chain lookup
    else
      .ok (chain, lookup)

/-- `optimise_chain`. -/
def optimiseChain (exe : List Inst) (lookup : Nat → Bool) (ix : Nat) :
    Run (List Inst × (Nat → Bool)) := do
  let (chain, lookup) ← followChain exe (exe.length + 1) (fetch exe ix) [ix]
    (Function.update lookup ix true)
  let fin := (fetch exe (chain.headD ix)).x
  return (chain.reverse.foldl (setExeX fin) exe, lookup)

/-- The loop of `optimise_chains` over the indices that are left. -/
def optimiseChainsLoop : List Nat → List Inst → (Nat → Bool) → Run (List Inst)
  | [], exe, _ => .ok exe
  | i :: rest, exe, lookup =>
    let inst := fetch exe i
    if inst.isJmp ∧ (fetch exe inst.x).isJmp ∧ lookup i = false then do
      let (exe, lookup) ← optimiseChain exe lookup i
      optimiseChainsLoop rest exe lookup
    else
      optimiseChainsLoop rest exe lookup

/-- `optimise_chains`. -/
def optimiseChains (exe : List Inst) : Run (List Inst) :=
  optimiseChainsLoop (List.range (exe.length - 1)) exe (fun _ => false)

/-- `inst->x += i`, `inst->y += i` for the instructions that have targets. -/
def Inst.relocate (i : Nat) : Inst → Inst
  | .opBranch x y => .opBranch (x + i) (y + i)
  | .opJmp x => .opJmp (x + i)
  | inst => inst

/-- The loop of `stage2`; the first argument is the number of items left. -/
def stage2Loop (m : Mem) : Nat → Nat → Option ItemId → Run (List Inst)
  | 0, _, _ => .ok []
  | _ + 1, _, none => .error .nullItem
  | left + 1, i, some n => do
    let rest ← stage2Loop m left (i + 1) (m.item n).previous
    return (m.item n).data.relocate i :: rest

/-- `stage2`; `ir->dsize` has been set to `ctx.chained`. -/
def stage2 (cp : Context) : Run (List Inst) := do
  let ir := cp.mem.stack cp.prog
  let exe ← stage2Loop cp.mem ir.size 0 ir.tail
  if cp.chained then optimiseChains exe else return exe

/-- `rxvm_t`. `exe` is empty when `simple` is set. -/
structure Compiled where
  exe : List Inst
  simple : Option (List CChar)
  lfix : Option (List CChar)
  lfix0 : Nat
  lfixn : Nat
deriving DecidableEq, Repr

/-- `compiled->lfix`: present when the fixed substring has more than one
character, where the size is computed in `unsigned int`. -/
def lfixOf (exp : List CChar) (lfix0 lfixn : Nat) : Option (List CChar) :=
  if u32 (u32 ((lfixn : Int) - lfix0) + 1) > 1 then some (lfixToStr exp lfix0 lfixn)
  else none

/-- `rxvm_compile`, in a process whose statics are `g`. -/
def rxvmCompile (g : Statics) (exp : List CChar) : Run (Except Err Compiled × Statics) := do
  match ← stage1 g exp with
  | .fail e cp => return (.error e, cp.statics)
  | .simple lfixn g =>
    return (.ok { exe := [], simple := some (cstring exp), lfix := lfixOf exp 0 lfixn,
                  lfix0 := 0, lfixn := lfixn }, g)
  | .ir lfix0 lfixn cp =>
    let exe ← stage2 cp
    return (.ok { exe := exe, simple := none, lfix := lfixOf exp lfix0 lfixn,
                  lfix0 := lfix0, lfixn := lfixn }, cp.statics)

end Rxvm
