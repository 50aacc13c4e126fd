import Mathlib.Logic.Function.Basic
import Rxvm.Vm

/-!
# Rxvm.Bmh — bmh.c

The Boyer-Moore-Horspool scanner, that reads a file through a buffer of its
own. Its statics are the record `Bmh`; the file and its offset are part of it.
Every subscript is checked: one outside its array, and a backup of more than
the buffer holds, end the run with a `Fault`.
-/

namespace Rxvm

/-! ## Files -/

/-- A regular file and the offset it is read at. -/
structure File where
  content : List CChar
  offset : Nat
deriving DecidableEq, Repr

/-- `fread` of `num` characters, short only at the end of the file. -/
def File.fread (fp : File) (num : Nat) : List CChar × File :=
  let chars := (fp.content.drop fp.offset).take num
  (chars, { fp with offset := fp.offset + chars.length })

/-- `EOF`, as a `char`. -/
def eofChar : CChar := -1

/-- What a run on a file can stop with: a subscript outside its array, a backup
of more than there is, a loop without end, or `RXVM_IOERR`. -/
inductive Fault where
  | badchar
  | bmhbuf
  | pattern
  | backup
  | diverges
  | ioerr
deriving DecidableEq, Repr

/-! ## The statics -/

def bufsize : Nat := 8192

/-- `ASIZE`. -/
def asize : Nat := (printableHigh.toInt - wsLow.toInt).toNat

/-- `atoindex(a)`. -/
def atoindex (a : CChar) : Int := a.toInt - wsLow.toInt

/-- The statics of `bmh.c`; `end` is `bufEnd` here. -/
structure Bmh where
  badchar : Nat → Nat
  bmhbuf : List CChar
  fp : File
  pattern : List CChar
  plen : Nat
  pos : Nat
  bufEnd : Nat
  endix : Nat
  pendix : Nat

/-- The statics before the first `bmh_init`. -/
def Bmh.zero : Bmh where
  badchar := fun _ => 0
  bmhbuf := List.replicate bufsize 0
  fp := { content := [], offset := 0 }
  pattern := []
  plen := 0
  pos := 0
  bufEnd := 0
  endix := 0
  pendix := 0

namespace Bmh

/-- `badchar[ix]`. -/
def getBadchar (b : Bmh) (ix : Int) : Except Fault Nat :=
  if 0 ≤ ix ∧ ix < asize then .ok (b.badchar ix.toNat) else .error .badchar

/-- `bmhbuf[ix]`. -/
def getBuf (b : Bmh) (ix : Nat) : Except Fault CChar :=
  if ix < bufsize then .ok (at' b.bmhbuf ix) else .error .bmhbuf

/-- `pattern[ix]`. -/
def getPattern (b : Bmh) (ix : Nat) : Except Fault CChar :=
  if ix < b.plen then .ok (at' b.pattern ix) else .error .pattern

/-- `fill`. -/
def fill (b : Bmh) (backup : Nat) : Except Fault Bmh :=
  if backup ≤ b.bufEnd ∧ b.bufEnd ≤ bufsize then
    let kept := (b.bmhbuf.drop (b.bufEnd - backup)).take backup
    let (chars, fp) := b.fp.fread (bufsize - backup)
    let bufEnd := if chars.length < bufsize - backup then backup + chars.length else bufsize
    .ok { b with
      bmhbuf := kept ++ chars ++ List.replicate (bufsize - (backup + chars.length)) eofChar
      fp := fp, bufEnd := bufEnd, endix := u32 ((bufEnd : Int) - 1) }
  else .error .backup

/-- `skip`. -/
def skip (b : Bmh) (num : Nat) : Except Fault (CChar × Bmh) := do
  let total := u32 ((b.pos : Int) + num)
  if total > b.endix then
    let b ← b.fill (u32 ((b.plen : Int) - u32 ((total : Int) - b.endix)))
    let b := { b with pos := b.pendix }
    return (← b.getBuf b.pos, b)
  else
    let b := { b with pos := u32 ((b.pos : Int) + num) }
    return (← b.getBuf b.pos, b)

/-- `char_match(tm->icase, input[i], pattern[i])`. -/
def compareAt (b : Bmh) (icase : Bool) (i : Nat) : Except Fault Bool := do
  let c ← b.getBuf (u32 ((b.pos : Int) - b.pendix) + i)
  let d ← b.getPattern i
  return charMatch icase c d

/-- The `do` loop of `bmh`, from `i` down: whether all characters compare
equal. -/
def compare (b : Bmh) (icase : Bool) : Nat → Except Fault Bool
  | 0 => b.compareAt icase 0
  | i + 1 => do
    if ← b.compareAt icase (i + 1) then b.compare icase i else return false

/-- `(isprintable(c)) ? badchar[atoindex(c)] : plen`. -/
def nextSkip (b : Bmh) (c : CChar) : Except Fault Nat :=
  if isprintable c then b.getBadchar (atoindex c) else .ok b.plen

/-- `bmh` from the label `skip` on. -/
def bmhLoop : Nat → Nat → Bmh → Threads → Except Fault (Int × Threads × Bmh)
  | 0, _, _, _ => .error .diverges
  | fuel + 1, skiplen, b, tm => do
    let (c, b) ← b.skip skiplen
    if c = eofChar then return (0, tm, b)
    else if ← b.compare tm.icase b.pendix then
      let fpos : Int := b.fp.offset
      let back : Int := u32 ((b.endix : Int) - b.pos)
      return (1, { tm with matchStart := (fpos - 1 - b.pendix - back).toNat,
                           matchEnd := (fpos + 1 - back).toNat }, b)
    else
      let skiplen ← b.nextSkip c
      bmhLoop fuel skiplen b tm

/-- `bmh`. -/
def bmh (b : Bmh) (tm : Threads) : Except Fault (Int × Threads × Bmh) :=
  bmhLoop (b.fp.content.length + 2) b.pendix b tm

/-- `bmh_reset`. -/
def bmhReset (b : Bmh) : Except Fault Bmh :=
  { b with pos := 0, pendix := u32 ((b.plen : Int) - 1) }.fill 0

/-- The loop of `bmh_init` that enters the pattern; the first argument is the
number of characters left. -/
def enter (pat : List CChar) (length : Nat) : Nat → Nat → (Nat → Nat) → Except Fault (Nat → Nat)
  | 0, _, badchar => .ok badchar
  | left + 1, i, badchar =>
    if i < length then
      if 0 ≤ atoindex (at' pat i) ∧ atoindex (at' pat i) < asize then
        enter pat length left (i + 1)
          (Function.update badchar (atoindex (at' pat i)).toNat (u32 ((length : Int) - i - 1)))
      else .error .badchar
    else .error .pattern

/-- `bmh_init`. -/
def bmhInit (b : Bmh) (file : File) (pat : List CChar) (length : Nat) : Except Fault Bmh := do
  let badchar ← enter pat length (u32 ((length : Int) - 1)) 0 (fun _ => length)
  { b with badchar := badchar, pattern := pat, fp := file, plen := length }.bmhReset

end Bmh

end Rxvm
