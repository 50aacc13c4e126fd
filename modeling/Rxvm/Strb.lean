import Rxvm.Basic

/-!
# Rxvm.Strb — string_builder.c

A buffer that grows by blocks. `alloc n` says whether `malloc` or `realloc`
succeeds for `n` bytes. Every subscript is checked: a function has no result
(`none`) when it writes outside its buffer, or reads what nothing has been
written to.
-/

namespace Rxvm

/-- Conversion to `unsigned long`. -/
def u64 (n : Int) : Nat := (n % 18446744073709551616).toNat

/-- Allocated memory; a cell that nothing has been written to is `none`. -/
abbrev Cells := List (Option CChar)

def Cells.read (cells : Cells) (k : Nat) : Option CChar := (cells[k]?).join

def Cells.write (cells : Cells) (k : Int) (c : CChar) : Option Cells :=
  if 0 ≤ k ∧ k < cells.length then some (cells.set k.toNat (some c)) else none

/-- `malloc(n)`. -/
def Cells.fresh (n : Nat) : Cells := List.replicate n none

/-- `realloc` to `n` bytes. -/
def Cells.resize (cells : Cells) (n : Nat) : Cells :=
  cells.take n ++ Cells.fresh (n - cells.length)

/-- `strb_t`. -/
structure Strb where
  size : Nat
  space : Nat
  buf : Cells
  blockSize : UInt32
deriving DecidableEq

def defaultBlockSize : UInt32 := 10

/-- What a function of the string builder returns, and the builder it leaves. -/
abbrev Built := Option (Option Err × Strb)

section

variable (alloc : Nat → Bool)

/-- `enlarge_buf`. The product is taken as an `unsigned int` and stored as an
`int`. -/
def enlargeBuf (cfg : Strb) (blocks : Int) : Option Err × Strb :=
  let size := i32 (u32 (cfg.blockSize.toNat * blocks))
  let space := u64 (cfg.space + size)
  if alloc space then (none, { cfg with space := space, buf := cfg.buf.resize space })
  else (some .emem, cfg)

/-- `strb_init`; `cfg` is not NULL. -/
def strbInit (blockSize : UInt32) : Option Err × Strb :=
  let blockSize := if blockSize ≠ 0 then blockSize else defaultBlockSize
  let cfg := { size := 0, space := 0, buf := [], blockSize := blockSize }
  if alloc blockSize.toNat then
    (none, { cfg with buf := Cells.fresh blockSize.toNat, space := blockSize.toNat })
  else (some .emem, cfg)

/-- `strb_addc`. -/
def strbAddc (cfg : Strb) (c : CChar) : Built :=
  match if u64 (cfg.size + 1) > cfg.space then enlargeBuf alloc cfg 1 else (none, cfg) with
  | (some _, cfg) => some (some .emem, cfg)
  | (none, cfg) => do
    let buf ← cfg.buf.write cfg.size c
    return (none, { cfg with buf := buf, size := u64 (cfg.size + 1) })

/-- The loop of `strb_adds`, from index `i` of `s`; the first argument is the
number of rounds left. -/
def strbAddsLoop (s : Cells) : Nat → Nat → Strb → Option Strb
  | 0, _, cfg => some cfg
  | rounds + 1, i, cfg => do
    let c ← s.read i
    if c = 0 then return cfg
    else
      let buf ← cfg.buf.write cfg.size c
      strbAddsLoop s rounds (i + 1) { cfg with buf := buf, size := u64 (cfg.size + 1) }

/-- `strb_adds`. -/
def strbAdds (cfg : Strb) (s : Cells) (n : Int) : Built :=
  let total := u64 (cfg.size + n)
  let blocks := i32 (u64 ((total : Int) - cfg.space) / cfg.blockSize.toNat + 1 : Nat)
  match if total > cfg.space then enlargeBuf alloc cfg blocks else (none, cfg) with
  | (some _, cfg) => some (some .emem, cfg)
  | (none, cfg) => do
    let cfg ← strbAddsLoop s n.toNat 0 cfg
    return (none, cfg)

/-- The loop of `my_utoa` that counts the digits. No number has more digits
than its value. -/
def utoaChars : Nat → Nat → Nat
  | 0, _ => 0
  | rounds + 1, i => if i > 0 then utoaChars rounds (i / 10) + 1 else 0

/-- The loop of `my_utoa` that writes the digits, from index `pos` down. -/
def utoaFill : Nat → Nat → Int → Cells → Option Cells
  | 0, _, _, buf => some buf
  | rounds + 1, val, pos, buf =>
    if val > 0 then do
      let buf ← buf.write pos (Int8.ofNat (val % 10 + (chr '0').toInt.toNat))
      utoaFill rounds (val / 10) (pos - 1) buf
    else some buf

/-- `my_utoa`: what it returns, and the buffer it leaves. -/
def myUtoa (val : Nat) (buf : Cells) (size : Int) : Option (Int × Cells) :=
  let chars := utoaChars val val
  if (chars : Int) + 1 > size then some (-1, buf)
  else if chars = 0 then do
    let buf ← buf.write 0 (chr '0')
    let buf ← buf.write 1 0
    return (1, buf)
  else do
    let buf ← buf.write chars 0
    let buf ← utoaFill val val ((chars : Int) - 1) buf
    return ((chars : Int), buf)

/-- The size of the array `num` of `strb_addu`. -/
def numSize : Nat := 20

/-- `strb_addu`. -/
def strbAddu (cfg : Strb) (i : UInt32) : Built := do
  let (chars, num) ← myUtoa i.toNat (Cells.fresh numSize) numSize
  strbAdds alloc cfg num chars

end

/-- A call of the string builder. -/
inductive StrbOp where
  | addc (c : CChar)
  | adds (s : List CChar) (n : Nat)
  | addu (i : UInt32)

/-- One call. -/
def StrbOp.run (alloc : Nat → Bool) (cfg : Strb) : StrbOp → Built
  | .addc c => strbAddc alloc cfg c
  | .adds s n => strbAdds alloc cfg (s.map some) n
  | .addu i => strbAddu alloc cfg i

/-- Calls one after the other, up to the first that fails. -/
def strbRun (alloc : Nat → Bool) : List StrbOp → Strb → Built
  | [], cfg => some (none, cfg)
  | op :: ops, cfg => do
    let (err, cfg) ← op.run alloc cfg
    if err = none then strbRun alloc ops cfg else return (err, cfg)

end Rxvm
