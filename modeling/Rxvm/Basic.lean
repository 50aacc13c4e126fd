import Mathlib.Data.List.Basic

/-!
# Rxvm.Basic — characters, instructions, error codes

The data every file of the library shares: the signed 8-bit `char`, the
symbols of `lex.h`, the instructions of `rxvm_common.h` and the return codes
of `rxvm_err.h`.

A C string is a list of characters. The string ends at the first NUL of the
list or at the end of the list, whichever comes first: `at' text k` reads NUL
beyond the end.
-/

namespace Rxvm

/-! ## Characters -/

/-- `char`, which is signed on the platforms the library is built for. -/
abbrev CChar := Int8

/-- The character code of an ASCII character. -/
def chr (c : Char) : CChar := Int8.ofNat c.toNat

/-- `text[k]`; NUL at the end of the string. -/
def at' (text : List CChar) (k : Nat) : CChar := text.getD k 0

theorem at'_take {text : List CChar} {n k : Nat} (h : k < n) :
    at' (text.take n) k = at' text k := by
  simp only [at', List.getD_eq_getElem?_getD, List.getElem?_take_of_lt h]

/-- The C string an array of characters holds: what stands before its NUL. -/
def cstring (buf : List CChar) : List CChar := buf.takeWhile (· ≠ 0)

theorem cstring_isPrefix (buf : List CChar) : cstring buf <+: buf := List.takeWhile_prefix _

/-- A string without NUL. -/
def NoNul (s : List CChar) : Prop := ∀ c ∈ s, c ≠ 0

instance (s : List CChar) : Decidable (NoNul s) :=
  List.decidableBAll (fun c => c ≠ 0) s

/-! ## lex.h -/

def printableLow : CChar := chr ' '
def printableHigh : CChar := chr '~'
def wsLow : CChar := 7
def wsHigh : CChar := 13

def charcOpenSym : CChar := chr '['
def charcCloseSym : CChar := chr ']'
def lparenSym : CChar := chr '('
def rparenSym : CChar := chr ')'
def repOpenSym : CChar := chr '{'
def repCloseSym : CChar := chr '}'
def rangeSepSym : CChar := chr '-'
def oneSym : CChar := chr '+'
def zeroSym : CChar := chr '*'
def anySym : CChar := chr '.'
def onezeroSym : CChar := chr '?'
def altSym : CChar := chr '|'
def solSym : CChar := chr '^'
def eolSym : CChar := chr '$'
def derefSym : CChar := chr '\\'
def commaSym : CChar := chr ','
def newline : CChar := 10

/-- `isprintable(x)`: the two unsigned comparisons of the macro are the two
ranges 32..126 and 7..13. -/
def isprintable (x : CChar) : Bool :=
  (printableLow ≤ x && x ≤ printableHigh) || (wsLow ≤ x && x ≤ wsHigh)

def isdigit (x : CChar) : Bool := chr '0' ≤ x && x ≤ chr '9'

/-- `isreserved` of `lex.c`. -/
def isreserved (x : CChar) : Bool := x == charcOpenSym || x == charcCloseSym

/-! ## rxvm_err.h -/

/-- The negative return codes. -/
inductive Err where
  | badop | badclass | badrep | badparen | eparen | eclass | erep | erange
  | ecomma | edigit | mrep | etrail | einval | emem | eparam | ioerr
deriving DecidableEq, Repr

/-- The numbers of `rxvm_err.h`. -/
def Err.code : Err → Int
  | .badop => -1
  | .badclass => -2
  | .badrep => -3
  | .badparen => -4
  | .eparen => -5
  | .eclass => -6
  | .erep => -7
  | .erange => -8
  | .ecomma => -9
  | .edigit => -10
  | .mrep => -11
  | .etrail => -12
  | .einval => -13
  | .emem => -14
  | .eparam => -15
  | .ioerr => -16

/-! ## Tokens -/

/-- What `lex` returns: a token, or a negative error code. -/
inductive Tok where
  | charcOpen | charcClose | charRange | lparen | rparen | one | zero | onezero
  | alt | any | literal | rep | sol | eol | invalidsym | eos
  | error (e : Err)
deriving DecidableEq, Repr

/-- `ISOP(x)`. -/
def Tok.isop : Tok → Bool
  | .one | .zero | .onezero | .alt | .rep => true
  | _ => false

/-! ## Instructions -/

/-- `inst_t`, one constructor for each opcode with the fields the opcode
uses. `x` and `y` are offsets from the instruction itself until `stage2`
turns them into indices. -/
inductive Inst where
  | opChar (c : CChar)
  | opAny
  | opClass (ccs : List CChar)
  | opNclass (ccs : List CChar)
  | opBranch (x y : Int)
  | opJmp (x : Int)
  | opSol
  | opEol
  | opMatch
deriving DecidableEq, Repr

/-! ## Reading the source's arithmetic -/

/-- Conversion to `unsigned int`. -/
def u32 (n : Int) : Nat := (n % 4294967296).toNat

/-- Conversion to `int`, and the value `int` arithmetic leaves when it wraps. -/
def i32 (n : Int) : Int := Int.bmod n 4294967296

theorem u32_eq {z : Int} {n : Nat} (h : z = n) (hn : n < 4294967296) : u32 z = n := by
  subst h
  simp only [u32]
  omega

theorem i32_eq {n : Int} (hn : -2147483648 ≤ n) (h : n < 2147483648) : i32 n = n :=
  Int.bmod_eq_of_le (by omega) (by omega)

/-- Why a run of the compiler stops without returning: it follows a NULL item
pointer, or it stays in a loop for ever. -/
inductive Stop where
  | nullItem
  | diverges
deriving DecidableEq, Repr

/-- A computation that may stop without returning. -/
abbrev Run (α : Type) := Except Stop α

end Rxvm
