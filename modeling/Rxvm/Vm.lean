import Mathlib.Logic.Function.Basic
import Rxvm.Compile

/-!
# Rxvm.Vm — vm.c

The virtual machine. A thread is an instruction index; `cp` and `np` are the
threads for the current and the next character, in the order they were added,
so `csize` and `nsize` are their lengths. The characters come from `getchar`,
a function on the state `σ` behind `getchar_data`.
-/

namespace Rxvm

/-- `tolower(x)`, computed in `int`. The test is one-sided. -/
def tolower (x : CChar) : Int :=
  if x.toInt - 65 ≤ 25 then x.toInt + 32 else x.toInt

/-- `char_match(icase, a, b)`. -/
def charMatch (icase : Bool) (a b : CChar) : Bool :=
  if icase then tolower a == tolower b else a == b

theorem charMatch_false {a b : CChar} : charMatch false a b = true ↔ a = b := by
  simp [charMatch]

/-- `ccs_match`. -/
def ccsMatch (icase : Bool) (ccs : List CChar) (c : CChar) : Bool :=
  ccs.any fun a => charMatch icase a c

/-- `threads_t`, without the table addresses and `getchar`. -/
structure Threads where
  chars : Nat
  matchStart : Nat
  matchEnd : Nat
  cp : List Nat
  np : List Nat
  cpLookup : Nat → Bool
  npLookup : Nat → Bool
  endchar : CChar
  lastinput : CChar
  icase : Bool
  nongreedy : Bool
  multiline : Bool
  search : Bool

namespace Threads

/-- `add_thread_curr`. -/
def addThreadCurr (tm : Threads) (val : Nat) : Threads :=
  if tm.cpLookup val then tm
  else { tm with cpLookup := Function.update tm.cpLookup val true, cp := tm.cp ++ [val] }

/-- `add_thread_next`. -/
def addThreadNext (tm : Threads) (val : Nat) : Threads :=
  if tm.npLookup val then tm
  else { tm with npLookup := Function.update tm.npLookup val true, np := tm.np ++ [val] }

/-- `is_sol`. -/
def isSol (tm : Threads) : Bool :=
  tm.chars == 1 || (tm.multiline && tm.lastinput == newline)

/-- `is_eol`. -/
def isEol (tm : Threads) (c : CChar) : Bool :=
  c == tm.endchar || (tm.multiline && c == newline)

/-- The `switch` of `vm_execute`: one thread `ii` at instruction `inst`. The
flag says that the function returns. -/
def runInst (tm : Threads) (c : CChar) (ii : Nat) : Inst → Threads × Bool
  | .opChar ic => (if charMatch tm.icase c ic then tm.addThreadNext (ii + 1) else tm, false)
  | .opAny => (if c ≠ newline then tm.addThreadNext (ii + 1) else tm, false)
  | .opSol => (if tm.isSol then tm.addThreadCurr (ii + 1) else tm, false)
  | .opEol => (if tm.isEol c then tm.addThreadCurr (ii + 1) else tm, false)
  | .opClass ccs =>
    (if ccsMatch tm.icase ccs c then tm.addThreadNext (ii + 1) else tm, false)
  | .opNclass ccs =>
    (if ccsMatch tm.icase ccs c then tm else tm.addThreadNext (ii + 1), false)
  | .opBranch x y => ((tm.addThreadCurr x.toNat).addThreadCurr y.toNat, false)
  | .opJmp x => (tm.addThreadCurr x.toNat, false)
  | .opMatch => ({ tm with matchEnd := tm.chars }, tm.nongreedy)

/-- The `for` loop over the threads of the current character, from index `t`;
the list may grow meanwhile. Running out of fuel is `none`. -/
def runThreads (exe : List Inst) (c : CChar) : Nat → Nat → Threads → Option (Threads × Bool)
  | 0, _, _ => none
  | fuel + 1, t, tm =>
    match tm.cp[t]? with
    | none => some (tm, false)
    | some ii =>
      match tm.runInst c ii (fetch exe ii) with
      | (tm, true) => some (tm, true)
      | (tm, false) => runThreads exe c fuel (t + 1) tm

/-- The swap of the two lists and the two lookup tables. -/
def swap (tm : Threads) : Threads :=
  { tm with cp := tm.np, np := [], cpLookup := tm.npLookup, npLookup := fun _ => false }

/-- The shorter version of the swap, that clears the current list. -/
def clearCurr (tm : Threads) : Threads :=
  { tm with cp := [], cpLookup := fun v => if v ∈ tm.cp then false else tm.cpLookup v }

end Threads

/-- Where control is in `vm_execute`. -/
inductive VmLabel where
  | vmStart
  | readChar
  | skipReadchar
deriving DecidableEq, Repr

/-- The locals of `vm_execute` and the state behind `getchar`. -/
structure VmState (σ : Type) where
  tm : Threads
  data : σ
  c : CChar

section

variable {σ : Type} (getchar : σ → CChar × σ) (exe : List Inst)

/-- `vm_execute` from a label on: the return value and the final state, or
`none` when the fuel runs out. -/
def vmLoop : Nat → VmLabel → VmState σ → Option (Int × VmState σ)
  | 0, _, _ => none
  | fuel + 1, .vmStart, st =>
    let tm := { st.tm with matchStart := st.tm.chars }
    vmLoop fuel .readChar { st with tm := tm.addThreadCurr 0 }
  | fuel + 1, .readChar, st =>
    let (c, data) := getchar st.data
    let tm := { st.tm with lastinput := st.c, chars := st.tm.chars + 1 }
    vmLoop fuel .skipReadchar { tm := tm, data := data, c := c }
  | fuel + 1, .skipReadchar, st =>
    match st.tm.runThreads exe st.c (exe.length + 1) 0 with
    | none => none
    | some (tm, true) => some (1, { st with tm := tm })
    | some (tm, false) =>
      if st.c = tm.endchar then
        some (0, { st with tm := tm })
      else if tm.np = [] then
        if tm.search = false ∨ tm.matchEnd ≠ 0 then
          some (1, { st with tm := tm })
        else if tm.chars - 1 ≠ tm.matchStart then
          let tm := { tm.clearCurr with matchStart := tm.chars - 1 }
          vmLoop fuel .skipReadchar { st with tm := tm.addThreadCurr 0 }
        else
          vmLoop fuel .vmStart { st with tm := tm.clearCurr }
      else
        vmLoop fuel .readChar { st with tm := tm.swap }

/-- `vm_execute`. The tables are cleared first. -/
def vmExecute (fuel : Nat) (tm : Threads) (data : σ) : Option (Int × VmState σ) :=
  let tm := { tm with cp := [], np := [], cpLookup := fun _ => false,
                      npLookup := fun _ => false }
  vmLoop getchar exe fuel .vmStart { tm := tm, data := data, c := 0 }

end

end Rxvm
