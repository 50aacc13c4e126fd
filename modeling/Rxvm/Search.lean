import Rxvm.Vm

/-!
# Rxvm.Search — rxvm_match and rxvm_search

The two functions of `rxvm.c` that run on strings, and `simple_match`, the
path for expressions of literals only.
-/

namespace Rxvm

/-- The bits of `flags`. -/
structure Flags where
  icase : Bool := false
  nongreedy : Bool := false
  multiline : Bool := false
deriving DecidableEq, Repr

/-- `getchar_str`; the state is the index of the next character. -/
def getcharStr (input : List CChar) (k : Nat) : CChar × Nat := (at' input k, k + 1)

/-- `threads_t` after `memset` to 0; `endchar` is NUL. -/
def Threads.zero : Threads where
  chars := 0
  matchStart := 0
  matchEnd := 0
  cp := []
  np := []
  cpLookup := fun _ => false
  npLookup := fun _ => false
  endchar := 0
  lastinput := 0
  icase := false
  nongreedy := false
  multiline := false
  search := false

/-- Where control is in `simple_match`. -/
inductive SimpleLabel where
  | loop
  | skipReadchar
deriving DecidableEq, Repr

/-- The locals of `simple_match`; `simple` is an index into the stored text. -/
structure SimpleState where
  tm : Threads
  data : Nat
  c : CChar
  simple : Nat

/-- `simple_match` from a label on. -/
def simpleLoop (input text : List CChar) :
    Nat → SimpleLabel → SimpleState → Option (Int × SimpleState)
  | 0, _, _ => none
  | fuel + 1, .loop, st =>
    if at' text st.simple = 0 then
      some (1, { st with tm := { st.tm with matchEnd := st.tm.chars + 1 } })
    else
      let (c, data) := getcharStr input st.data
      let tm := { st.tm with chars := st.tm.chars + 1 }
      if c = tm.endchar then
        some (1, { st with tm := tm, data := data, c := c })
      else
        let simple := if at' text st.simple = derefSym then st.simple + 1 else st.simple
        simpleLoop input text fuel .skipReadchar
          { tm := tm, data := data, c := c, simple := simple }
  | fuel + 1, .skipReadchar, st =>
    if charMatch st.tm.icase (at' text st.simple) st.c then
      simpleLoop input text fuel .loop { st with simple := st.simple + 1 }
    else if st.tm.search = false then
      some (0, st)
    else if st.simple ≠ 0 then
      simpleLoop input text fuel .skipReadchar
        { st with simple := 0, tm := { st.tm with matchStart := st.tm.chars - 1 } }
    else
      simpleLoop input text fuel .loop
        { st with tm := { st.tm with matchStart := st.tm.chars } }

/-- `simple_match`. -/
def simpleMatch (fuel : Nat) (input text : List CChar) (tm : Threads) :
    Option (Int × SimpleState) :=
  simpleLoop input text fuel .loop
    { tm := { tm with matchStart := tm.chars }, data := 0, c := 0, simple := 0 }

/-- Rounds enough for `vm_execute` and `simple_match` on an input. -/
def stringFuel (input : List CChar) : Nat := 4 * input.length + 5

/-- The result of `rxvm_search`: the return value, and `*start` and `*end` as
offsets from the input, `none` for NULL. -/
structure SearchResult where
  ret : Int
  start : Option Int
  fin : Option Int
deriving DecidableEq, Repr

/-- The end of `rxvm_search`. -/
def searchResult (tm : Threads) : SearchResult :=
  if tm.matchEnd = 0 then { ret := 0, start := none, fin := none }
  else { ret := 1, start := some tm.matchStart, fin := some ((tm.matchEnd : Int) - 2) }

/-- `tm` as `rxvm_search` sets it up. -/
def searchThreads (flags : Flags) : Threads :=
  { Threads.zero with icase := flags.icase, nongreedy := flags.nongreedy,
                      multiline := flags.multiline, search := true }

/-- `rxvm_search`. -/
def rxvmSearch (compiled : Compiled) (input : List CChar) (flags : Flags) :
    Option SearchResult :=
  match compiled.simple with
  | some text =>
    (simpleMatch (stringFuel input) input text (searchThreads flags)).map
      fun r => searchResult r.2.tm
  | none =>
    (vmExecute (getcharStr input) compiled.exe (stringFuel input) (searchThreads flags) 0).map
      fun r => searchResult r.2.tm

/-- `tm.match_end && !*(sot + (tm.match_end - 1))`. -/
def matchResult (input : List CChar) (tm : Threads) : Int :=
  if tm.matchEnd ≠ 0 ∧ at' input (tm.matchEnd - 1) = 0 then 1 else 0

/-- `tm` as `rxvm_match` sets it up: of the flags it only looks at
`RXVM_ICASE`. -/
def matchThreads (flags : Flags) : Threads :=
  { Threads.zero with multiline := true, icase := flags.icase }

/-- `rxvm_match`. -/
def rxvmMatch (compiled : Compiled) (input : List CChar) (flags : Flags) : Option Int :=
  match compiled.simple with
  | some text =>
    (simpleMatch (stringFuel input) input text (matchThreads flags)).map
      fun r => if r.1 = 0 then 0 else matchResult input r.2.tm
  | none =>
    (vmExecute (getcharStr input) compiled.exe (stringFuel input) (matchThreads flags) 0).map
      fun r => if r.1 = 0 then matchResult input r.2.tm else 0

end Rxvm
