import Rxvm.Basic

/-!
# Rxvm.Lfix — lfix.c and lfix_to_str.c

The counters of the longest-fixed-substring heuristic, all `unsigned int`.
`ltemp0`/`ltempn` delimit the run of literals being read, `lfix0`/`lfixn` the
longest run so far, and `lfixs` says that a run has been started.
-/

namespace Rxvm

structure LfixStatics where
  ltemp0 : Nat
  ltempn : Nat
  lfix0 : Nat
  lfixn : Nat
  lfixs : Bool
deriving DecidableEq, Repr

namespace LfixStatics

/-- `lfix_zero`; `lfixs` is left as it is. -/
def lfixZero (l : LfixStatics) : LfixStatics :=
  { l with ltemp0 := 0, ltempn := 0, lfix0 := 0, lfixn := 0 }

/-- `lfix_start`; the argument is `lp1 - orig`. -/
def lfixStart (l : LfixStatics) (lp1 : Nat) : LfixStatics :=
  { l with lfixs := true, ltemp0 := u32 lp1, ltempn := u32 lp1 }

def lfixContinue (l : LfixStatics) (lp1 : Nat) : LfixStatics :=
  if l.lfixs then { l with ltempn := u32 (l.ltempn + 1) } else l.lfixStart lp1

def lfixLongest (l : LfixStatics) : Nat := u32 (l.lfixn - l.lfix0)

def lfixCurrent (l : LfixStatics) : Nat := u32 (l.ltempn - l.ltemp0)

def lfixSetLongest (l : LfixStatics) : LfixStatics :=
  { l with lfix0 := l.ltemp0, lfixn := l.ltempn }

def lfixUpdateLongest (l : LfixStatics) : LfixStatics :=
  if l.lfixCurrent > l.lfixLongest then l.lfixSetLongest else l

def lfixStop (l : LfixStatics) : LfixStatics :=
  { l.lfixUpdateLongest with lfixs := false, ltemp0 := 0, ltempn := 0 }

def lfixDec (l : LfixStatics) : LfixStatics :=
  if l.ltempn > l.ltemp0 then { l with ltempn := u32 (l.ltempn - 1) } else l

/-- `set_ltempn`. -/
def setLtempn (l : LfixStatics) (val : Nat) : LfixStatics :=
  { l with ltempn := val }

end LfixStatics

/-- The loop of `lfix_to_str` from index `i`, with `end` its moving bound; the
list is `orig` from `i` on. Behind the end of the text it reads the NUL. -/
def lfixToStrLoop : List CChar → Int → Int → List CChar
  | [], i, fin => if i ≤ fin then [0] else []
  | c :: rest, i, fin =>
    if i ≤ fin then
      if c = derefSym then lfixToStrLoop rest (i + 1) (fin + 1)
      else c :: lfixToStrLoop rest (i + 1) fin
    else
      []

/-- The string `lfix_to_str` leaves in `compiled->lfix`. What it copies behind
a NUL does not belong to that string. -/
def lfixToStr (orig : List CChar) (lfix0 lfixn : Nat) : List CChar :=
  cstring (lfixToStrLoop (orig.drop lfix0) (i32 lfix0) (i32 lfixn))

end Rxvm
