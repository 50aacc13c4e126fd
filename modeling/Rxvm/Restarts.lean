import Rxvm.FileReads
import Rxvm.Scanner

/-!
# Rxvm.Restarts — the runs of bmh_partial

`bmh_partial` starts a run of `vm_execute` at each place where `bmh` finds the
fixed substring, until one finds a match. The file is moved to the start of the
run before it, but what is left in the buffer of `getchar_file` is not thrown
away: behind a run that has failed the buffer is empty only if the run has read
a multiple of `FBUF_SIZE` characters.
-/

namespace Rxvm

open Relation

/-! ## The loop of bmh_partial -/

/-- What the `while` loop of `bmh_partial` has at its head. -/
structure PartialState where
  lastMatchEnd : Nat
  b : Bmh
  d : FileBuf
  tm : Threads

/-- The run of `vm_execute` that is started from a head of the loop. -/
def PartialState.run (s : PartialState) : Except Fault (FileBuf × Threads) := do
  let fp ← seekToStartOfLine (seekToStartOfMatch s.tm s.b.fp).1 s.lastMatchEnd
  return ({ s.d with fp := fp }, { s.tm with matchEnd := 0, chars := fp.offset })

/-- One pass of the loop, from a head where `bmh` has found the substring: the
match of the run, or the next head. -/
def PartialState.next (exe : List Inst) (s : PartialState) :
    Except Fault ((Threads × FileBuf) ⊕ PartialState) := do
  let (d, tm) ← s.run
  let (tm, d) ← executeFile exe d tm
  if tm.matchEnd ≠ 0 then return .inl (tm, d)
  else
    let b ← { s.b with fp := d.fp.seek (s.tm.matchEnd - 1) }.bmhReset
    let (_, tm, b) ← b.bmh tm
    return .inr { lastMatchEnd := s.tm.matchEnd, b := b, d := d, tm := tm }

/-- The first head of the loop. -/
def partialStart (lfix : List CChar) (length : Nat) (b : Bmh) (d : FileBuf) (tm : Threads) :
    Except Fault PartialState := do
  let b ← b.bmhInit d.fp lfix length
  let (_, tm, b) ← b.bmh tm
  return { lastMatchEnd := d.fp.offset, b := b, d := d, tm := tm }

theorem bmhPartial_eq (compiled : Compiled) (lfix : List CChar) (length : Nat) (b : Bmh)
    (d : FileBuf) (tm : Threads) : bmhPartial compiled lfix length b d tm = (do
      let s ← partialStart lfix length b d tm
      partialLoop compiled.exe (d.fp.content.length + 2) s.lastMatchEnd s.b s.d s.tm) := by
  unfold bmhPartial partialStart
  simp only [bind, Except.bind]
  rcases b.bmhInit d.fp lfix length with fault | b₁
  · rfl
  simp only
  rcases b₁.bmh tm with fault | ⟨ret, tm', b₂⟩ <;> rfl

theorem partialLoop_eq (exe : List Inst) (fuel : Nat) (s : PartialState) :
    partialLoop exe (fuel + 1) s.lastMatchEnd s.b s.d s.tm =
      if s.tm.matchEnd = 0 then .ok (s.tm, { s.d with fp := s.b.fp })
      else s.next exe >>= Sum.elim Except.ok
        fun s' => partialLoop exe fuel s'.lastMatchEnd s'.b s'.d s'.tm := by
  rw [partialLoop]
  -- no candidate: the loop is over
  by_cases hhead : s.tm.matchEnd = 0
  · rw [if_pos hhead, if_pos hhead]
    rfl
  rw [if_neg hhead, if_neg hhead]
  unfold PartialState.next PartialState.run
  simp only [bind, Except.bind]
  rcases seekToStartOfLine (seekToStartOfMatch s.tm s.b.fp).1 s.lastMatchEnd with fault | fp
  · rfl
  simp only [pure, Except.pure]
  rcases executeFile exe { s.d with fp := fp } { s.tm with matchEnd := 0, chars := fp.offset } with
    fault | ⟨tm, d⟩
  · rfl
  -- the machine has matched, or the scan is taken up behind the candidate
  by_cases hfound : tm.matchEnd ≠ 0
  · simp only [if_pos hfound, Sum.elim_inl]
  simp only [if_neg hfound]
  rcases hreset : { s.b with fp := d.fp.seek (s.tm.matchEnd - 1) }.bmhReset with fault | b
  · simp only [hreset]
  simp only [hreset]
  rcases b.bmh tm with fault | ⟨ret, tm', b'⟩ <;> rfl

/-- From one head of the loop to the next. -/
def PartialStep (exe : List Inst) (s s' : PartialState) : Prop :=
  s.tm.matchEnd ≠ 0 ∧ s.next exe = .ok (.inr s')

/-- The heads of the loop that are reached from one. -/
def Heads (exe : List Inst) : PartialState → PartialState → Prop :=
  ReflTransGen (PartialStep exe)

/-- The first head in a call of `rxvm_fsearch`; the array `file_buffer` is not
initialised. -/
def FirstHead (b : Bmh) (compiled : Compiled) (fp : File) (flags : Flags) (fbuf : List CChar)
    (s : PartialState) : Prop :=
  compiled.simple = none ∧ ∃ lfix length, handed compiled = some (lfix, length) ∧
    partialStart lfix length b { fbuf := fbuf, bufpos := fbufSize, fp := fp } (fsearchThreads flags) =
      .ok s

/-- The runs of `vm_execute` in a call of `rxvm_fsearch`, with what they are
started on. -/
inductive VmRun (b : Bmh) (compiled : Compiled) (fp : File) (flags : Flags)
    (fbuf : List CChar) : Threads → FileBuf → Prop where
  | whole (hsimple : compiled.simple = none) (hhanded : handed compiled = none) :
      VmRun b compiled fp flags fbuf { fsearchThreads flags with chars := fp.offset }
        { fbuf := fbuf, bufpos := fbufSize, fp := fp }
  | candidate {s₀ s : PartialState} {d : FileBuf} {tm : Threads}
      (hfirst : FirstHead b compiled fp flags fbuf s₀) (hheads : Heads compiled.exe s₀ s)
      (hhead : s.tm.matchEnd ≠ 0) (hrun : s.run = .ok (d, tm)) :
      VmRun b compiled fp flags fbuf tm d

section

variable {exe : List Inst} {s s' : PartialState} {d : FileBuf} {tm : Threads}

/-- What a run is started on. -/
theorem PartialState.run_ok (hrun : s.run = .ok (d, tm)) :
    ∃ fp, seekToStartOfLine (s.b.fp.seek s.tm.matchStart) s.lastMatchEnd = .ok fp ∧
      d = { s.d with fp := fp } ∧ tm = { s.tm with matchEnd := 0, chars := fp.offset } := by
  unfold PartialState.run at hrun
  simp only [bind, Except.bind] at hrun
  rcases hseek : seekToStartOfLine (seekToStartOfMatch s.tm s.b.fp).1 s.lastMatchEnd with fault | fp
  · rw [hseek] at hrun
    cases hrun
  · rw [hseek] at hrun
    cases hrun
    exact ⟨fp, hseek, rfl, rfl⟩

/-- A step to the next head: the run has failed, and `bmh` goes on behind its
substring. -/
structure Retry (exe : List Inst) (s s' : PartialState) (d : FileBuf) (tm tm' : Threads)
    (b : Bmh) : Prop where
  run : s.run = .ok (d, tm)
  exec : executeFile exe d tm = .ok (tm', s'.d)
  failed : tm'.matchEnd = 0
  reset : { s.b with fp := s'.d.fp.seek (s.tm.matchEnd - 1) }.bmhReset = .ok b
  scan : ∃ ret, b.bmh tm' = .ok (ret, s'.tm, s'.b)

theorem PartialState.next_retry (h : s.next exe = .ok (.inr s')) :
    ∃ d tm tm' b, Retry exe s s' d tm tm' b := by
  unfold PartialState.next at h
  simp only [bind, Except.bind] at h
  rcases hrun : s.run with fault | ⟨d, tm⟩
  · rw [hrun] at h
    cases h
  simp only [hrun] at h
  rcases hexec : executeFile exe d tm with fault | ⟨tm', d'⟩
  · simp only [hexec] at h
    cases h
  simp only [hexec] at h
  by_cases hfound : tm'.matchEnd ≠ 0
  · simp only [if_pos hfound] at h
    cases h
  simp only [if_neg hfound] at h
  rcases hreset : { s.b with fp := d'.fp.seek (s.tm.matchEnd - 1) }.bmhReset with fault | b
  · simp only [hreset] at h
    cases h
  simp only [hreset] at h
  rcases hscan : b.bmh tm' with fault | ⟨ret, tm'', b'⟩
  · simp only [hscan] at h
    cases h
  simp only [hscan] at h
  cases h
  exact ⟨d, tm, tm', b, hrun, hexec, not_not.mp hfound, hreset, ret, hscan⟩

end

/-! ## The offset of the file -/

/-- The file, read at an offset inside it. -/
structure WithinFile (content : List CChar) (fp : File) : Prop where
  file : fp.content = content
  le : fp.offset ≤ content.length

/-- What a scan does to `tm`: it sets the two ends of the match, or nothing. -/
structure ScanResult (content : List CChar) (tm tm' : Threads) : Prop where
  search : tm'.search = tm.search
  endchar : tm'.endchar = tm.endchar
  found : tm'.matchEnd ≠ tm.matchEnd →
    tm'.matchStart ≤ content.length ∧ tm'.matchEnd ≤ content.length + 1

section

variable {content : List CChar} {fp fp' : File} {b b' : Bmh} {tm tm' : Threads}

theorem WithinFile.seek (h : WithinFile content fp) {n : Nat} (hn : n ≤ content.length) :
    WithinFile content (fp.seek n) := ⟨h.file, hn⟩

theorem WithinFile.fread (h : WithinFile content fp) (num : Nat) : WithinFile content (fp.fread num).2 := by
  refine ⟨h.file, ?_⟩
  have hlen := fread_length fp num
  have hle := h.le
  rw [h.file] at hlen
  show fp.offset + (fp.fread num).1.length ≤ content.length
  omega

theorem readBackwards_within {size : Nat} {buf : List CChar} (h : WithinFile content fp)
    (hread : readBackwards fp size = .ok (buf, fp')) :
    WithinFile content fp' ∧ fp'.offset + size = fp.offset ∧ buf.length = size := by
  have hle := h.le
  unfold readBackwards at hread
  by_cases hsize : fp.offset < size
  · rw [if_pos hsize] at hread
    cases hread
  rw [if_neg hsize] at hread
  by_cases hlen : ((fp.seek (fp.offset - size)).fread size).1.length ≠ size
  · simp only [if_pos hlen] at hread
    cases hread
  simp only [if_neg hlen] at hread
  cases hread
  refine ⟨h.seek (by omega), ?_, not_not.mp hlen⟩
  show fp.offset - size + size = fp.offset
  omega

theorem seekLineLoop_within {boundary : Nat} : ∀ {fuel : Nat} {fp : File},
    WithinFile content fp → seekLineLoop boundary fuel fp = .ok fp' → WithinFile content fp' := by
  intro fuel
  induction fuel with
  | zero =>
      intro fp _ hloop
      cases hloop
  | succ fuel ih =>
      intro fp h hloop
      unfold seekLineLoop at hloop
      by_cases hgt : fp.offset > boundary
      swap
      · rw [if_neg hgt] at hloop
        cases hloop
        exact h
      rw [if_pos hgt] at hloop
      simp only [bind, Except.bind] at hloop
      revert hloop
      generalize (if (fp.offset : Int) -
        (if fp.offset < lbufSize then fp.offset else lbufSize : Nat) < boundary then
          fp.offset - boundary else if fp.offset < lbufSize then fp.offset else lbufSize) = size
      intro hloop
      rcases hread : readBackwards fp size with fault | ⟨buf, fp₁⟩
      · rw [hread] at hloop
        cases hloop
      rcases readBackwards_within h hread with ⟨hwithin, hoffset, hlen⟩
      rw [hread] at hloop
      rcases hnl : firstNewline buf with _ | i
      · simp only [hnl] at hloop
        exact ih hwithin hloop
      · -- the newline is in the chunk
        simp only [hnl] at hloop
        cases hloop
        have hi := (List.findIdx?_eq_some_iff_findIdx_eq.mp hnl).1
        have hle := h.le
        exact hwithin.seek (by omega)

theorem seekToStartOfLine_within {boundary : Nat} (h : WithinFile content fp)
    (hseek : seekToStartOfLine fp boundary = .ok fp') : WithinFile content fp' := by
  unfold seekToStartOfLine at hseek
  by_cases hzero : fp.offset = 0
  · rw [if_pos hzero] at hseek
    cases hseek
    exact h
  · rw [if_neg hzero] at hseek
    exact seekLineLoop_within h hseek

theorem fill_within {backup : Nat} (h : WithinFile content b.fp) (hfill : b.fill backup = .ok b') :
    WithinFile content b'.fp := by
  unfold Bmh.fill at hfill
  by_cases hcond : backup ≤ b.bufEnd ∧ b.bufEnd ≤ bufsize
  · rw [if_pos hcond] at hfill
    cases hfill
    exact h.fread _
  · rw [if_neg hcond] at hfill
    cases hfill

theorem skip_within {num : Nat} {c : CChar} (h : WithinFile content b.fp)
    (hskip : b.skip num = .ok (c, b')) : WithinFile content b'.fp := by
  unfold Bmh.skip at hskip
  simp only [bind, Except.bind] at hskip
  by_cases htotal : u32 ((b.pos : Int) + num) > b.endix
  · rw [if_pos htotal] at hskip
    revert hskip
    generalize u32 ((b.plen : Int) - u32 ((u32 ((b.pos : Int) + num) : Int) - b.endix)) = backup
    rcases hfill : b.fill backup with fault | b₁
    · intro hskip
      cases hskip
    rcases hget : ({ b₁ with pos := b₁.pendix } : Bmh).getBuf b₁.pendix with fault | d
    · intro hskip
      simp only [hget] at hskip
      cases hskip
    · intro hskip
      simp only [hget] at hskip
      cases hskip
      -- a refill reads on in the file
      have hwithin := fill_within h hfill
      exact ⟨hwithin.file, hwithin.le⟩
  · rw [if_neg htotal] at hskip
    rcases hget : ({ b with pos := u32 ((b.pos : Int) + num) } : Bmh).getBuf
      (u32 ((b.pos : Int) + num)) with fault | d
    · simp only [hget] at hskip
      cases hskip
    · simp only [hget] at hskip
      cases hskip
      exact h

theorem bmhLoop_within : ∀ {fuel num : Nat} {b b' : Bmh} {ret : Int},
    WithinFile content b.fp → Bmh.bmhLoop fuel num b tm = .ok (ret, tm', b') →
    WithinFile content b'.fp ∧ ScanResult content tm tm' := by
  intro fuel
  -- by induction on the windows that are left
  induction fuel with
  | zero =>
      intro num b b' ret _ hloop
      cases hloop
  | succ fuel ih =>
      intro num b b' ret h hloop
      unfold Bmh.bmhLoop at hloop
      simp only [bind, Except.bind] at hloop
      rcases hskip : b.skip num with fault | ⟨c, b₁⟩
      · rw [hskip] at hloop
        cases hloop
      rw [hskip] at hloop
      have hwithin := skip_within h hskip
      by_cases hc : c = eofChar
      · simp only [if_pos hc] at hloop
        cases hloop
        exact ⟨hwithin, rfl, rfl, fun hne => absurd rfl hne⟩
      simp only [if_neg hc] at hloop
      -- the window matches, or the next one is looked at
      rcases hcompare : b₁.compare tm.icase b₁.pendix with fault | same
      · rw [hcompare] at hloop
        cases hloop
      rw [hcompare] at hloop
      cases same with
      | true =>
          cases hloop
          have hle := hwithin.le
          refine ⟨hwithin, rfl, rfl, fun _ => ⟨?_, ?_⟩⟩
          · show ((b'.fp.offset : Int) - 1 - b'.pendix -
              (u32 ((b'.endix : Int) - b'.pos) : Int)).toNat ≤ content.length
            omega
          · show ((b'.fp.offset : Int) + 1 -
              (u32 ((b'.endix : Int) - b'.pos) : Int)).toNat ≤ content.length + 1
            omega
      | false =>
          rcases hnext : b₁.nextSkip c with fault | num'
          · simp only [hnext] at hloop
            cases hloop
          · simp only [hnext] at hloop
            exact ih hwithin hloop

theorem bmhReset_within (h : WithinFile content b.fp) (hreset : b.bmhReset = .ok b') :
    WithinFile content b'.fp :=
  fill_within (b := { b with pos := 0, pendix := u32 ((b.plen : Int) - 1) }) h hreset

theorem bmhInit_within {pat : List CChar} {length : Nat} (h : WithinFile content fp)
    (hinit : b.bmhInit fp pat length = .ok b') : WithinFile content b'.fp := by
  rcases bmhInit_split hinit with ⟨badchar, _, hreset⟩
  exact bmhReset_within
    (b := { b with badchar := badchar, pattern := pat, fp := fp, plen := length }) h hreset

/-- Behind the end of the file nothing is read, and `bmh` finds nothing. -/
theorem bmhReset_behind_end {ret : Int} {b'' : Bmh} (hgt : b.fp.content.length < b.fp.offset)
    (hreset : b.bmhReset = .ok b') (hscan : b'.bmh tm = .ok (ret, tm', b'')) : tm' = tm := by
  by_cases hend : b.bufEnd ≤ bufsize
  swap
  · unfold Bmh.bmhReset Bmh.fill at hreset
    rw [if_neg (fun hcond => hend hcond.2)] at hreset
    cases hreset
  rcases @fill_ok { b with pos := 0, pendix := u32 ((b.plen : Int) - 1) } 0 (Nat.zero_le _) hend with
    ⟨b₁, hfill, _, hpos, hend', hendix, _, _, hcells⟩
  obtain rfl : b₁ = b' := Except.ok.inj (hfill.symm.trans hreset)
  have hnone : (b.fp.fread (bufsize - 0)).1 = [] := by
    unfold File.fread
    rw [List.drop_eq_nil_of_le (by omega)]
    rfl
  have hzero : b₁.bufEnd = 0 := by
    simp only at hend'
    omega
  rw [hzero] at hendix
  have hcells : b₁.bmhbuf = List.replicate bufsize eofChar := hcells.trans (by rw [hnone]; rfl)
  -- `skip` does not fill the buffer again, as `endix` is `UINT_MAX`
  unfold Bmh.bmh Bmh.bmhLoop Bmh.skip at hscan
  have hmove : ¬ u32 ((b₁.pos : Int) + b₁.pendix) > b₁.endix := by
    have hmax : u32 (((0 : Nat) : Int) - 1) = 4294967295 := rfl
    rw [hendix, hmax]
    simp only [u32]
    omega
  rw [if_neg hmove] at hscan
  simp only [bind, Except.bind] at hscan
  -- the first character looked at is an EOF, or is behind the buffer
  by_cases hin : u32 ((b₁.pos : Int) + b₁.pendix) < bufsize
  · have hget : ({ b₁ with pos := u32 ((b₁.pos : Int) + b₁.pendix) } : Bmh).getBuf
        (u32 ((b₁.pos : Int) + b₁.pendix)) = .ok eofChar := by
      unfold Bmh.getBuf
      rw [if_pos hin]
      simp only [hcells]
      unfold at'
      rw [List.getD_replicate _ hin]
    simp only [hget] at hscan
    cases hscan
    rfl
  · have hget : ({ b₁ with pos := u32 ((b₁.pos : Int) + b₁.pendix) } : Bmh).getBuf
        (u32 ((b₁.pos : Int) + b₁.pendix)) = .error .bmhbuf := by
      unfold Bmh.getBuf
      rw [if_neg hin]
    simp only [hget] at hscan
    cases hscan

end

/-! ## The invariant -/

/-- At a head of the loop: `bmh` has left the file inside, and if it has found
the substring again, then the buffer of `getchar_file` is empty. -/
structure HeadInv (content : List CChar) (s : PartialState) : Prop where
  within : WithinFile content s.b.fp
  search : s.tm.search = true
  endchar : s.tm.endchar = eofChar
  found : s.tm.matchEnd ≠ 0 →
    s.tm.matchStart ≤ content.length ∧ s.tm.matchEnd ≤ content.length + 1
  length : s.d.fbuf.length = fbufSize
  used : s.tm.matchEnd ≠ 0 → s.d.bufpos = fbufSize

/-- A run from this head that gets to the end of the file, and reads the `EOF`
behind it, reads a multiple of `FBUF_SIZE` characters. -/
def PartialState.Aligned (s : PartialState) : Prop :=
  ∀ d tm, s.run = .ok (d, tm) → fbufSize ∣ d.fp.content.length + 1 - tm.chars

section

variable {content : List CChar} {exe : List Inst} {s s' : PartialState} {d : FileBuf}
  {tm : Threads}

/-- A run from a head where the invariant holds. -/
theorem HeadInv.run (h : HeadInv content s) (hhead : s.tm.matchEnd ≠ 0)
    (hrun : s.run = .ok (d, tm)) :
    WithinFile content d.fp ∧ d.fbuf.length = fbufSize ∧ d.bufpos = fbufSize ∧
      tm.chars = d.fp.offset ∧ tm.search = true ∧ tm.endchar = eofChar := by
  rcases PartialState.run_ok hrun with ⟨fp, hseek, rfl, rfl⟩
  have hwithin := h.within.seek (h.found hhead).1
  exact ⟨seekToStartOfLine_within hwithin hseek, h.length, h.used hhead, rfl, h.search, h.endchar⟩

theorem HeadInv.runFed (h : HeadInv content s) (hfile : ∀ c ∈ content, c ≠ eofChar)
    (hhead : s.tm.matchEnd ≠ 0) (hrun : s.run = .ok (d, tm)) : RunFed exe tm d := by
  rcases h.run hhead hrun with ⟨hwithin, hlength, hpos, hchars, hsearch, hendchar⟩
  apply RunFed.start hlength hpos hchars _ hsearch hendchar
  rw [hwithin.file]
  exact hfile

/-- Behind a failed run the buffer is empty if the run has read a multiple of
`FBUF_SIZE` characters. -/
theorem HeadInv.step (h : HeadInv content s) (hfile : ∀ c ∈ content, c ≠ eofChar)
    (hstep : PartialStep exe s s') (haligned : s'.tm.matchEnd ≠ 0 → s.Aligned) :
    HeadInv content s' := by
  rcases hstep with ⟨hhead, hnext⟩
  rcases PartialState.next_retry hnext with ⟨d, tm, tm', b, hretry⟩
  rcases h.run hhead hretry.run with ⟨hwithin, hlength, hpos, hchars, hsearch, hendchar⟩
  have hfed : RunFed exe tm d := h.runFed hfile hhead hretry.run
  have hle : d.fp.offset ≤ d.fp.content.length := by
    rw [hwithin.file]
    exact hwithin.le
  -- what the machine reads in the failed run follows the file
  have hcoupled := Coupled.start hlength hpos hle
  rcases hfed.fails (hchars.le.trans hle) hsearch hendchar hretry.exec hretry.failed with
    ⟨hdata, hsearch', hendchar'⟩
  rw [hchars] at hdata
  have hend := hcoupled.iterate (d.fp.content.length + 1 - d.fp.offset) (by omega)
  rw [← hdata] at hend
  -- the scan goes on inside the file
  have hfound := h.found hhead
  have hseek : WithinFile content (s'.d.fp.seek (s.tm.matchEnd - 1)) := by
    refine ⟨hend.file.trans hwithin.file, ?_⟩
    show s.tm.matchEnd - 1 ≤ content.length
    omega
  have hreset : WithinFile content b.fp :=
    bmhReset_within (b := { s.b with fp := s'.d.fp.seek (s.tm.matchEnd - 1) }) hseek hretry.reset
  rcases hretry.scan with ⟨ret, hscan⟩
  rcases bmhLoop_within hreset hscan with ⟨hwithin', hresult⟩
  constructor
  · exact hwithin'
  · exact hresult.search.trans hsearch'
  · exact hresult.endchar.trans hendchar'
  · intro hne
    apply hresult.found
    rw [hretry.failed]
    exact hne
  · exact hend.length
  · intro hne
    -- the buffer is used up exactly where the run has ended on a boundary of it
    have hdvd := haligned hne d tm hretry.run
    rw [hchars] at hdvd
    rw [hdata]
    exact (hcoupled.used_iff hle).mpr hdvd

theorem HeadInv.heads (h : HeadInv content s) (hfile : ∀ c ∈ content, c ≠ eofChar)
    (haligned : ∀ s₁ s₂, Heads exe s s₁ → PartialStep exe s₁ s₂ → s₂.tm.matchEnd ≠ 0 →
      s₁.Aligned) (hheads : Heads exe s s') : HeadInv content s' := by
  induction hheads with
  | refl => exact h
  | tail hheads' hstep ih => exact ih.step hfile hstep (haligned _ _ hheads' hstep)

end

/-! ## The runs -/

section

variable {b : Bmh} {compiled : Compiled} {fp : File} {flags : Flags} {fbuf : List CChar}
  {s : PartialState}

/-- At the first head nothing has been read; behind the end of the file there is
no substring to be found. -/
theorem FirstHead.inv (h : FirstHead b compiled fp flags fbuf s) (hfbuf : fbuf.length = fbufSize) :
    HeadInv fp.content s ∨ s.tm.matchEnd = 0 := by
  rcases h with ⟨_, lfix, length, _, hstart⟩
  unfold partialStart at hstart
  simp only [bind, Except.bind] at hstart
  rcases hinit : b.bmhInit fp lfix length with fault | b₁
  · rw [hinit] at hstart
    cases hstart
  simp only [hinit] at hstart
  rcases hscan : b₁.bmh (fsearchThreads flags) with fault | ⟨ret, tm, b₂⟩
  · simp only [hscan] at hstart
    cases hstart
  simp only [hscan] at hstart
  cases hstart
  -- a file position behind the end finds no candidate at all
  by_cases hle : fp.offset ≤ fp.content.length
  · left
    rcases bmhLoop_within (bmhInit_within ⟨rfl, hle⟩ hinit) hscan with ⟨hwithin, hresult⟩
    exact ⟨hwithin, hresult.search, hresult.endchar, hresult.found, hfbuf, fun _ => rfl⟩
  · right
    rcases bmhInit_split hinit with ⟨badchar, _, hreset⟩
    have hsame := bmhReset_behind_end
      (b := { b with badchar := badchar, pattern := lfix, fp := fp, plen := length })
      (Nat.lt_of_not_le hle) hreset hscan
    show tm.matchEnd = 0
    rw [hsame]
    rfl

/-- All the runs of a call of `rxvm_fsearch` are fed right, if each one that
fails and behind which another is started has read a multiple of `FBUF_SIZE`
characters. -/
theorem vmRun_fed {tm : Threads} {d : FileBuf} (hfbuf : fbuf.length = fbufSize)
    (hfile : ∀ c ∈ fp.content, c ≠ eofChar)
    (haligned : ∀ s₀ s s', FirstHead b compiled fp flags fbuf s₀ → Heads compiled.exe s₀ s →
      PartialStep compiled.exe s s' → s'.tm.matchEnd ≠ 0 → s.Aligned)
    (hrun : VmRun b compiled fp flags fbuf tm d) : RunFed compiled.exe tm d := by
  cases hrun with
  | whole => exact RunFed.start hfbuf rfl rfl hfile rfl rfl
  | @candidate s₀ s d tm hfirst hheads hhead hrun =>
      rcases hfirst.inv hfbuf with hinv | hnone
      · have hinv' : HeadInv fp.content s :=
          hinv.heads hfile (fun s₁ s₂ => haligned s₀ s₁ s₂ hfirst) hheads
        exact hinv'.runFed hfile hhead hrun
      · -- nothing has been found, and the loop is not entered
        rcases ReflTransGen.cases_head hheads with rfl | ⟨s₁, hstep, _⟩
        · exact absurd hnone hhead
        · exact absurd hnone hstep.1

end

/-! ## Two candidates -/

/-- The expression `ab+c` compiled. -/
def abPlusC : Compiled :=
  { exe := [.opChar 97, .opChar 98, .opBranch 1 3, .opChar 99, .opMatch], simple := none,
    lfix := some [97, 98], lfix0 := 0, lfixn := 1 }

/-- A file that contains `ab` at its start and at its end, with `c` nowhere. -/
def twoCandidates (between : List CChar) : File :=
  { content := [97, 98] ++ between ++ [97, 98], offset := 0 }

/-- The first head on this file. -/
def twoHeads (between : List CChar) : Except Fault PartialState :=
  partialStart [97, 98] 2 Bmh.zero
    { fbuf := List.replicate fbufSize 0, bufpos := fbufSize, fp := twoCandidates between }
    (fsearchThreads {})

theorem ok_of_mem_toOption {α : Type} {x : Except Fault α} {a : α} (h : a ∈ x.toOption) :
    x = .ok a := by
  cases x with
  | error => cases h
  | ok => rw [Option.some.inj h]

theorem inr_of_mem_getRight? {α β : Type} {x : α ⊕ β} {b : β} (h : b ∈ x.getRight?) :
    x = .inr b := by
  cases x with
  | inl => cases h
  | inr => rw [Option.some.inj h]

/-- The second of two candidates is the last one, and it is fed right if the file
fills the buffer up to its `EOF`. -/
theorem vmRun_fed_second : ∃ g' tm d,
    rxvmCompile Statics.init [97, 98, 43, 99] = .ok (.ok abPlusC, g') ∧
      VmRun Bmh.zero abPlusC (twoCandidates (List.replicate 251 120)) {}
        (List.replicate fbufSize 0) tm d ∧ tm.chars = 3 ∧ RunFed abPlusC.exe tm d := by
  have heval : ∃ s₀ ∈ (twoHeads (List.replicate 251 120)).toOption, s₀.tm.matchEnd ≠ 0 ∧
      (∃ run₀ ∈ s₀.run.toOption, fbufSize ∣ run₀.1.fp.content.length + 1 - run₀.2.chars) ∧
      ∃ r₀ ∈ (s₀.next abPlusC.exe).toOption, ∃ s₁ ∈ r₀.getRight?, s₁.tm.matchEnd ≠ 0 ∧
      (∃ run₁ ∈ s₁.run.toOption, run₁.2.chars = 3) ∧
      ∃ r₁ ∈ (s₁.next abPlusC.exe).toOption, ∃ s₂ ∈ r₁.getRight?, s₂.tm.matchEnd = 0 := by
    decide +kernel
  rcases heval with ⟨s₀, hs₀, hhead₀, ⟨run₀, hrun₀, hdvd⟩, r₀, hr₀, s₁, hs₁, hhead₁,
    ⟨⟨d, tm⟩, hrun₁, hchars⟩, r₁, hr₁, s₂, hs₂, hhead₂⟩
  have hnext₀ : s₀.next abPlusC.exe = .ok (.inr s₁) := by
    rw [ok_of_mem_toOption hr₀, inr_of_mem_getRight? hs₁]
  have hnext₁ : s₁.next abPlusC.exe = .ok (.inr s₂) := by
    rw [ok_of_mem_toOption hr₁, inr_of_mem_getRight? hs₂]
  have hfirst : FirstHead Bmh.zero abPlusC (twoCandidates (List.replicate 251 120)) {}
      (List.replicate fbufSize 0) s₀ := ⟨rfl, [97, 98], 2, rfl, ok_of_mem_toOption hs₀⟩
  have hvm : VmRun Bmh.zero abPlusC (twoCandidates (List.replicate 251 120)) {}
      (List.replicate fbufSize 0) tm d :=
    VmRun.candidate hfirst (ReflTransGen.single ⟨hhead₀, hnext₀⟩) hhead₁ (ok_of_mem_toOption hrun₁)
  refine ⟨_, tm, d, rfl, hvm, hchars, ?_⟩
  apply vmRun_fed (List.length_replicate ..) (by decide +kernel) _ hvm
  -- the heads are `s₀`, `s₁` and `s₂`, and at `s₂` the loop ends
  rintro s s' s'' ⟨_, lfix, length, hhanded, hstart⟩ hheads ⟨hhead, hnext⟩ hne
  have hpat : ([97, 98], 2) = (lfix, length) := Option.some.inj hhanded
  obtain ⟨rfl, rfl⟩ := Prod.mk.inj hpat
  obtain rfl : s₀ = s := Except.ok.inj ((ok_of_mem_toOption hs₀).symm.trans hstart)
  have hend : ∀ {s₁' s₂'}, PartialStep abPlusC.exe s₁' s₂' → s₁' = s₁ → s₂'.tm.matchEnd = 0 := by
    rintro s₁' s₂' ⟨_, hnext'⟩ rfl
    cases hnext₁.symm.trans hnext'
    exact hhead₂
  rcases ReflTransGen.cases_head hheads with rfl | ⟨s₁', ⟨_, hnext₀'⟩, hheads₁⟩
  · -- the run from `s₀`
    intro d₀ tm₀ hrun
    obtain rfl : run₀ = (d₀, tm₀) := Except.ok.inj ((ok_of_mem_toOption hrun₀).symm.trans hrun)
    exact hdvd
  · obtain rfl : s₁' = s₁ := by
      cases hnext₀.symm.trans hnext₀'
      rfl
    rcases ReflTransGen.cases_head hheads₁ with rfl | ⟨s₂', hstep₁, hheads₂⟩
    · exact absurd (hend ⟨hhead, hnext⟩ rfl) hne
    · have hzero := hend hstep₁ rfl
      rcases ReflTransGen.cases_head hheads₂ with rfl | ⟨_, hstep₂, _⟩
      · exact absurd hzero hhead
      · exact absurd hzero hstep₂.1

/-- If it does not, the second run is given what the first one has left: here the
file has been read to its end, the second run is started at the newline, and what
it is given is an `x`. -/
theorem vmRun_stale : ∃ g' tm d,
    rxvmCompile Statics.init [97, 98, 43, 99] = .ok (.ok abPlusC, g') ∧
      (∀ c ∈ (twoCandidates (List.replicate 254 120 ++ [10])).content, c ≠ eofChar) ∧
      VmRun Bmh.zero abPlusC (twoCandidates (List.replicate 254 120 ++ [10])) {}
        (List.replicate fbufSize 0) tm d ∧
      ¬ FedRight (twoCandidates (List.replicate 254 120 ++ [10])).content tm.chars d 0 := by
  have heval : ∃ s₀ ∈ (twoHeads (List.replicate 254 120 ++ [10])).toOption,
      ∃ r ∈ (s₀.next abPlusC.exe).toOption, ∃ s₁ ∈ r.getRight?, ∃ run ∈ s₁.run.toOption,
        (s₀.tm.matchEnd ≠ 0 ∧ s₁.tm.matchEnd ≠ 0) ∧ run.2.chars = 256 ∧
          delivered run.1 0 = 120 := by
    decide +kernel
  rcases heval with ⟨s₀, hs₀, r, hr, s₁, hs₁, ⟨d, tm⟩, hrun, ⟨hhead₀, hhead₁⟩, hchars, hgiven⟩
  have hnext : s₀.next abPlusC.exe = .ok (.inr s₁) := by
    rw [ok_of_mem_toOption hr, inr_of_mem_getRight? hs₁]
  have hfirst : FirstHead Bmh.zero abPlusC (twoCandidates (List.replicate 254 120 ++ [10])) {}
      (List.replicate fbufSize 0) s₀ := ⟨rfl, [97, 98], 2, rfl, ok_of_mem_toOption hs₀⟩
  refine ⟨_, tm, d, rfl, by decide +kernel, ?_, ?_⟩
  · exact VmRun.candidate hfirst (ReflTransGen.single ⟨hhead₀, hnext⟩) hhead₁
      (ok_of_mem_toOption hrun)
  · intro hfed
    rw [hchars] at hfed
    -- right would be the newline; the buffer still holds the byte of the first run
    have hbyte : delivered d 0 = 10 := hfed.byte (by decide +kernel)
    rw [hgiven] at hbyte
    cases hbyte

end Rxvm
