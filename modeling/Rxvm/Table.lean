import Rxvm.Threads

/-!
# Rxvm.Table — the allocation behind the thread lists

`vm_init` allocates one table: two lists of `int`, and two lookup tables of
bytes behind them. `cp`, `np`, `cp_lookup` and `np_lookup` are byte offsets into
it, and the swaps exchange the offsets. Every access is checked: a step has no
result (`none`) when it reads or writes an `int` outside the part of the lists,
or a byte outside the part of the lookup tables.
-/

namespace Rxvm

open Function

def intSize : Nat := 4

/-- `VM_TABLE_SIZE(size)`. It is a `size_t`, but for `size * 2`, an `unsigned int`:
a program has fewer than 2^31 instructions. -/
def vmTableSize (size : Nat) : Nat := size * 2 + intSize * size * 2

/-- The table that has been allocated for `size` instructions: the `int` at
each offset of the first part, and the byte at each offset of the second. -/
structure Table where
  size : Nat
  ints : Nat → Nat
  bytes : Nat → UInt8

namespace Table

/-- There is an `int` at the offset. -/
def HasInt (t : Table) (off : Nat) : Prop := intSize ∣ off ∧ off + intSize ≤ intSize * t.size * 2

/-- There is a byte of a lookup table at the offset. -/
def HasByte (t : Table) (off : Nat) : Prop :=
  intSize * t.size * 2 ≤ off ∧ off < vmTableSize t.size

instance (t : Table) (off : Nat) : Decidable (t.HasInt off) := inferInstanceAs (Decidable (_ ∧ _))

instance (t : Table) (off : Nat) : Decidable (t.HasByte off) := inferInstanceAs (Decidable (_ ∧ _))

def readInt (t : Table) (off : Nat) : Option Nat := if t.HasInt off then some (t.ints off) else none

def writeInt (t : Table) (off val : Nat) : Option Table :=
  if t.HasInt off then some { t with ints := update t.ints off val } else none

def readByte (t : Table) (off : Nat) : Option UInt8 :=
  if t.HasByte off then some (t.bytes off) else none

def writeByte (t : Table) (off : Nat) (val : UInt8) : Option Table :=
  if t.HasByte off then some { t with bytes := update t.bytes off val } else none

/-- The first `size` bytes of the table are 0, in both parts. -/
def zeroBase (t : Table) (size : Nat) : Table :=
  { t with
    ints := fun off => if off < size then 0 else t.ints off
    bytes := fun off => if off < size then 0 else t.bytes off }

/-- `memset(table_base, 0, VM_TABLE_SIZE(size))`. -/
def clear (t : Table) (size : Nat) : Option Table :=
  if vmTableSize size ≤ vmTableSize t.size then some (t.zeroBase (vmTableSize size)) else none

/-- The `size` bytes from an offset on are 0. -/
def zeroBytes (t : Table) (lookup size : Nat) : Table :=
  { t with bytes := fun off => if lookup ≤ off ∧ off < lookup + size then 0 else t.bytes off }

/-- `memset(lookup, 0, size)`. -/
def clearLookup (t : Table) (lookup size : Nat) : Option Table :=
  if intSize * t.size * 2 ≤ lookup ∧ lookup + size ≤ vmTableSize t.size then
    some (t.zeroBytes lookup size)
  else none

/-- `add_thread`: the table and the new `*lsize`. -/
def addThread (t : Table) (list lookup lsize val : Nat) : Option (Table × Nat) := do
  let mark ← t.readByte (lookup + val)
  if mark = 0 then
    let t ← t.writeByte (lookup + val) 1
    let t ← t.writeInt (list + intSize * lsize) val
    return (t, lsize + 1)
  else return (t, lsize)

/-- The loop of the short restart that clears the marks of a list; the last two
arguments are the number of rounds left and the index. -/
def unmark (t : Table) (list lookup : Nat) : Nat → Nat → Option Table
  | 0, _ => some t
  | rounds + 1, i => do
    let v ← t.readInt (list + intSize * i)
    let t' ← t.writeByte (lookup + v) 0
    unmark t' list lookup rounds (i + 1)

end Table

/-- `threads_t`, with the addresses. -/
structure TableThreads where
  chars : Nat
  matchStart : Nat
  matchEnd : Nat
  csize : Nat
  nsize : Nat
  cp : Nat
  np : Nat
  cpLookup : Nat
  npLookup : Nat
  table : Table
  endchar : CChar
  lastinput : CChar
  icase : Bool
  nongreedy : Bool
  multiline : Bool
  search : Bool

namespace TableThreads

/-- `vm_init`, where the allocation succeeds; `ints` and `bytes` are what
`malloc` leaves in the table. -/
def vmInit (tm : TableThreads) (size : Nat) (ints : Nat → Nat) (bytes : Nat → UInt8) :
    TableThreads :=
  { tm with
    matchStart := 0
    matchEnd := 0
    lastinput := 0
    chars := 0
    table := { size := size, ints := ints, bytes := bytes }
    cp := 0
    np := intSize * size
    cpLookup := intSize * size * 2
    npLookup := intSize * size * 2 + size }

/-- `add_thread_curr`. -/
def addThreadCurr (tm : TableThreads) (val : Nat) : Option TableThreads := do
  let (table, csize) ← tm.table.addThread tm.cp tm.cpLookup tm.csize val
  return { tm with table := table, csize := csize }

/-- `add_thread_next`. -/
def addThreadNext (tm : TableThreads) (val : Nat) : Option TableThreads := do
  let (table, nsize) ← tm.table.addThread tm.np tm.npLookup tm.nsize val
  return { tm with table := table, nsize := nsize }

/-- `is_sol`. -/
def isSol (tm : TableThreads) : Bool :=
  tm.chars == 1 || (tm.multiline && tm.lastinput == newline)

/-- `is_eol`. -/
def isEol (tm : TableThreads) (c : CChar) : Bool :=
  c == tm.endchar || (tm.multiline && c == newline)

/-- The `switch` of `vm_execute`; the flag says that the function returns. -/
def runInst (tm : TableThreads) (c : CChar) (ii : Nat) : Inst → Option (TableThreads × Bool)
  | .opChar ic =>
    (if charMatch tm.icase c ic then tm.addThreadNext (ii + 1) else some tm).map (·, false)
  | .opAny => (if c ≠ newline then tm.addThreadNext (ii + 1) else some tm).map (·, false)
  | .opSol => (if tm.isSol then tm.addThreadCurr (ii + 1) else some tm).map (·, false)
  | .opEol => (if tm.isEol c then tm.addThreadCurr (ii + 1) else some tm).map (·, false)
  | .opClass ccs =>
    (if ccsMatch tm.icase ccs c then tm.addThreadNext (ii + 1) else some tm).map (·, false)
  | .opNclass ccs =>
    (if ccsMatch tm.icase ccs c then some tm else tm.addThreadNext (ii + 1)).map (·, false)
  | .opBranch x y => do
    let tm ← tm.addThreadCurr x.toNat
    let tm ← tm.addThreadCurr y.toNat
    return (tm, false)
  | .opJmp x => (tm.addThreadCurr x.toNat).map (·, false)
  | .opMatch => some ({ tm with matchEnd := tm.chars }, tm.nongreedy)

/-- The shorter version of the swap. -/
def clearCurr (tm : TableThreads) : Option TableThreads := do
  let table ← tm.table.unmark tm.cp tm.cpLookup tm.csize 0
  return { tm with table := table, csize := 0 }

/-- The full swap. -/
def swap (tm : TableThreads) (size : Nat) : Option TableThreads := do
  let table ← tm.table.clearLookup tm.cpLookup size
  return { tm with
    cp := tm.np, np := tm.cp, csize := tm.nsize, nsize := 0,
    cpLookup := tm.npLookup, npLookup := tm.cpLookup, table := table }

end TableThreads

/-- Where control is in `vm_execute`. `entry` is in front of the `memset`, `loop`
at the test of the `for` loop, and `behind` behind it. -/
inductive VmPc where
  | entry
  | vmStart
  | readChar
  | skipReadchar
  | loop (t : Nat)
  | behind
  | returned (ret : Int)
deriving DecidableEq

/-- A state of `vm_execute`. -/
structure VmPoint (σ : Type) where
  pc : VmPc
  tm : TableThreads
  data : σ
  c : CChar

section

variable {σ : Type} (getchar : σ → CChar × σ) (exe : List Inst)

/-- One step of `vm_execute`. It has no result when it reads or writes outside
the table, or the program. -/
def vmStep (st : VmPoint σ) : Option (VmPoint σ) :=
  match st.pc with
  | .entry => do
    let table ← st.tm.table.clear exe.length
    return { st with
      pc := .vmStart, tm := { st.tm with nsize := 0, csize := 0, table := table }, c := 0 }
  | .vmStart => do
    let tm ← ({ st.tm with matchStart := st.tm.chars } : TableThreads).addThreadCurr 0
    return { st with pc := .readChar, tm := tm }
  | .readChar =>
    let (c, data) := getchar st.data
    some { pc := .skipReadchar, tm := { st.tm with lastinput := st.c, chars := st.tm.chars + 1 },
           data := data, c := c }
  | .skipReadchar => some { st with pc := .loop 0 }
  | .loop t =>
    if t < st.tm.csize then do
      let ii ← st.tm.table.readInt (st.tm.cp + intSize * t)
      let inst ← exe[ii]?
      let (tm, done) ← st.tm.runInst st.c ii inst
      return { st with pc := if done then .returned 1 else .loop (t + 1), tm := tm }
    else some { st with pc := .behind }
  | .behind =>
    if st.c = st.tm.endchar then some { st with pc := .returned 0 }
    else if st.tm.nsize = 0 then
      if st.tm.search = false ∨ st.tm.matchEnd ≠ 0 then some { st with pc := .returned 1 }
      else do
        let tm ← st.tm.clearCurr
        if tm.chars - 1 ≠ tm.matchStart then
          let tm ← ({ tm with matchStart := tm.chars - 1 } : TableThreads).addThreadCurr 0
          return { st with pc := .skipReadchar, tm := tm }
        else return { st with pc := .vmStart, tm := tm }
    else do
      let tm ← st.tm.swap exe.length
      return { st with pc := .readChar, tm := tm }
  | .returned _ => some st

/-- What a caller leaves alone: the table, the addresses and the sizes. -/
structure SameTable (tm tm' : TableThreads) : Prop where
  table : tm'.table = tm.table
  cp : tm'.cp = tm.cp
  np : tm'.np = tm.np
  cpLookup : tm'.cpLookup = tm.cpLookup
  npLookup : tm'.npLookup = tm.npLookup

/-- The states of the calls of `vm_execute` on one `threads_t`: the first call is
behind `vm_init`, and each of the others behind the return of one. -/
inductive VmReached : VmPoint σ → Prop
  | first {tm tm' : TableThreads} {ints : Nat → Nat} {bytes : Nat → UInt8} {data : σ} {c : CChar}
      (h : SameTable (tm.vmInit exe.length ints bytes) tm') :
      VmReached { pc := .entry, tm := tm', data := data, c := c }
  | again {st : VmPoint σ} {ret : Int} {tm' : TableThreads} {data : σ} {c : CChar}
      (hst : VmReached st) (hret : st.pc = .returned ret) (h : SameTable st.tm tm') :
      VmReached { pc := .entry, tm := tm', data := data, c := c }
  | step {st st' : VmPoint σ} (hst : VmReached st) (h : vmStep getchar exe st = some st') :
      VmReached st'

end

end Rxvm
