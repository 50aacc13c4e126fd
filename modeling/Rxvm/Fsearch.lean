import Rxvm.Bmh
import Rxvm.Search

/-!
# Rxvm.Fsearch — rxvm_fsearch

The functions of `rxvm.c` that run on files. The statics `fbuf`, `bufpos` and
`fpos` are the record `FileBuf`, with the file. `fseek` and `ftell` are exact
and do not fail.
-/

namespace Rxvm

def lbufSize : Nat := 16
def fbufSize : Nat := 256

/-- `fseek(fp, offset, SEEK_SET)`. -/
def File.seek (fp : File) (offset : Nat) : File := { fp with offset := offset }

/-- `read_backwards`: the characters read, and the file at their start. -/
def readBackwards (fp : File) (size : Nat) : Except Fault (List CChar × File) :=
  if fp.offset < size then .error .ioerr
  else
    let start := fp.seek (fp.offset - size)
    let (buf, _) := start.fread size
    if buf.length ≠ size then .error .ioerr else .ok (buf, start)

/-- The index of the first newline of a chunk. -/
def firstNewline (buf : List CChar) : Option Nat := buf.findIdx? (· == newline)

/-- The loop of `seek_to_start_of_line`; the offset of the file is `curr`. -/
def seekLineLoop (boundary : Nat) : Nat → File → Except Fault File
  | 0, _ => .error .diverges
  | fuel + 1, fp => do
    if fp.offset > boundary then
      let seekSize := if fp.offset < lbufSize then fp.offset else lbufSize
      let seekSize :=
        if (fp.offset : Int) - seekSize < boundary then fp.offset - boundary else seekSize
      let (buf, fp) ← readBackwards fp seekSize
      match firstNewline buf with
      | some i => return fp.seek (fp.offset + i)
      | none => seekLineLoop boundary fuel fp
    else return fp

/-- `seek_to_start_of_line`; its value is the offset it leaves. -/
def seekToStartOfLine (fp : File) (boundary : Nat) : Except Fault File :=
  if fp.offset = 0 then .ok fp else seekLineLoop boundary (fp.offset + 1) fp

/-- `seek_to_start_of_match`, with the match size it stores. -/
def seekToStartOfMatch (tm : Threads) (fp : File) : File × Int :=
  (fp.seek tm.matchStart, (tm.matchEnd : Int) - tm.matchStart - 1)

/-- What `getchar_file` reads through: the buffer, the index of its next
character and the file. -/
structure FileBuf where
  fbuf : List CChar
  bufpos : Nat
  fp : File
deriving DecidableEq, Repr

/-- What the array `file_buffer` of a call of `rxvm_fsearch` holds. The array is
not initialised: it is whatever the stack has left there. -/
def FileBuffer : Type := { fbuf : List CChar // fbuf.length = fbufSize }

def FileBuffer.zero : FileBuffer := ⟨List.replicate fbufSize 0, List.length_replicate⟩

/-- The buffer a call starts with; with `bufpos` at its end it is read only behind
a `fread`. -/
def FileBuf.fresh (fileBuffer : FileBuffer) (fp : File) : FileBuf :=
  { fbuf := fileBuffer.1, bufpos := fbufSize, fp := fp }

/-- `getchar_file`. -/
def getcharFile (d : FileBuf) : CChar × FileBuf :=
  let d :=
    if d.bufpos = fbufSize then
      let (chars, fp) := d.fp.fread fbufSize
      let fbuf := chars ++ d.fbuf.drop chars.length
      { fbuf := if chars.length < fbufSize then fbuf.set chars.length eofChar else fbuf,
        bufpos := 0, fp := fp }
    else d
  (at' d.fbuf d.bufpos, { d with bufpos := d.bufpos + 1 })

/-- `tm` as `rxvm_fsearch` sets it up. -/
def fsearchThreads (flags : Flags) : Threads :=
  { searchThreads flags with endchar := eofChar }

/-- Rounds enough for `vm_execute` on a file: all of it and what is left in the
buffer. -/
def fileFuel (fp : File) : Nat := 4 * (fp.content.length + fbufSize) + 5

/-- `vm_execute` from the offset of the file on. -/
def executeFile (exe : List Inst) (d : FileBuf) (tm : Threads) :
    Except Fault (Threads × FileBuf) :=
  match vmExecute getcharFile exe (fileFuel d.fp) tm d with
  | some (_, st) => .ok (st.tm, st.data)
  | none => .error .diverges

/-- The pattern `rxvm_fsearch` hands to `bmh_init`, with its length: the stored
text of an expression of literals, or the fixed substring. -/
def handed (compiled : Compiled) : Option (List CChar × Nat) :=
  match compiled.simple with
  | some text => some (text, u32 text.length)
  | none => compiled.lfix.map fun lfix =>
      (lfix, u32 (u32 ((compiled.lfixn : Int) - compiled.lfix0) + 1))

/-- The `while` loop of `bmh_partial`. -/
def partialLoop (exe : List Inst) : Nat → Nat → Bmh → FileBuf → Threads →
    Except Fault (Threads × FileBuf)
  | 0, _, _, _, _ => .error .diverges
  | fuel + 1, lastMatchEnd, b, d, tm => do
    if tm.matchEnd = 0 then return (tm, { d with fp := b.fp })
    else
      let reset := tm.matchEnd - 1
      let fp ← seekToStartOfLine (seekToStartOfMatch tm b.fp).1 lastMatchEnd
      let lastMatchEnd := tm.matchEnd
      let tm := { tm with matchEnd := 0, chars := fp.offset }
      let (tm, d) ← executeFile exe { d with fp := fp } tm
      if tm.matchEnd ≠ 0 then return (tm, d)
      else
        let b ← { b with fp := d.fp.seek reset }.bmhReset
        let (_, tm, b) ← b.bmh tm
        partialLoop exe fuel lastMatchEnd b d tm

/-- `bmh_partial`. -/
def bmhPartial (compiled : Compiled) (lfix : List CChar) (length : Nat) (b : Bmh) (d : FileBuf)
    (tm : Threads) : Except Fault (Threads × FileBuf) := do
  let lastMatchEnd := d.fp.offset
  let b ← b.bmhInit d.fp lfix length
  let (_, tm, b) ← b.bmh tm
  partialLoop compiled.exe (d.fp.content.length + 2) lastMatchEnd b d tm

/-- The result of `rxvm_fsearch`: the return value, `*match_size`, when it is
written, and where the file is left. -/
structure FsearchResult where
  ret : Int
  matchSize : Option Int
  offset : Nat
deriving DecidableEq, Repr

/-- The end of `rxvm_fsearch`. -/
def fsearchResult (tm : Threads) (fp : File) : FsearchResult :=
  if tm.matchEnd ≠ 0 then
    let (fp, size) := seekToStartOfMatch tm fp
    { ret := 1, matchSize := some size, offset := fp.offset }
  else { ret := 0, matchSize := none, offset := fp.offset }

/-- `rxvm_fsearch`, with the statics `b` of `bmh.c` and what its array holds. -/
def rxvmFsearch (b : Bmh) (fileBuffer : FileBuffer) (compiled : Compiled) (fp : File) (flags : Flags) :
    Except Fault FsearchResult := do
  let tm := fsearchThreads flags
  let d := FileBuf.fresh fileBuffer fp
  match handed compiled with
  | some (pat, length) =>
    if compiled.simple.isSome then
      let b ← b.bmhInit fp pat length
      let (_, tm, b) ← b.bmh tm
      return fsearchResult tm b.fp
    else
      let (tm, d) ← bmhPartial compiled pat length b d tm
      return fsearchResult tm d.fp
  | none =>
    let (tm, d) ← executeFile compiled.exe d { tm with chars := fp.offset }
    return fsearchResult tm d.fp

end Rxvm
