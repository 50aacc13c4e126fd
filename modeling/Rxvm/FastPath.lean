import Rxvm.FileRun
import Rxvm.LineStart
import Rxvm.Leftmost

/-!
# Rxvm.FastPath — rxvm_fsearch with a fixed substring and without

With a fixed substring `rxvm_fsearch` does not run `vm_execute` over the whole
file, but from the start of each line that `bmh` finds the substring in, until
one run matches. `Relied` is what this relies on: the substring is in every file
with a match, the first run gets to the leftmost match, and a run behind a failed
one is not given what the failed one has left.
-/

namespace Rxvm

open Relation

/-! ## The runs of a call -/

/-- The places `bmh_partial` finds the substring at, each behind the boundary up
to which it goes back for the start of the line. -/
inductive Candidate (lfix content : List CChar) : Nat → Nat → Prop where
  | first {m : Nat} (h : FirstAt (OccursAt lfix content) 0 m) : Candidate lfix content 0 m
  | next {boundary m m' : Nat} (h : Candidate lfix content boundary m)
      (hnext : FirstAt (OccursAt lfix content) (m + lfix.length) m') :
      Candidate lfix content (m + lfix.length + 1) m'

/-- The run for the substring at `m` starts at `p`. -/
def RunStart (content : List CChar) (boundary m p : Nat) : Prop :=
  ∃ fp, seekToStartOfLine { content := content, offset := m } boundary = .ok fp ∧ fp.offset = p

/-- The leftmost match of the program starts at `i`. -/
def LeastAccepted (ml : Bool) (content : List CChar) (exe : List Inst) (i : Nat) : Prop :=
  (i ≤ content.length ∧ ∃ j, Accepts false ml content exe i j) ∧
    ∀ k < i, ∀ j, ¬ Accepts false ml content exe k j

/-- What the fast path relies on. The pattern and its scans are as in
`bmh_scans`. If there is a match, then the substring is in the file (`present`),
and an attempt is made at the leftmost match, by the search from the start and by
the first run (`tried`): this run does not start behind the match, and if it
starts with the match, what stands in front of it plays no part there. If there
is no match, then a run behind which another is started has read a multiple of
`FBUF_SIZE` characters (`failing`). -/
structure Relied (compiled : Compiled) (lfix content : List CChar) (flags : Flags) : Prop where
  handed : handed compiled = some (lfix, lfix.length)
  fits : PatternOk lfix lfix.length
  stray : NoStray lfix content 0
  present : ∀ i, LeastAccepted flags.multiline content compiled.exe i →
    ∃ m, OccursAt lfix content m
  tried : ∀ i, LeastAccepted flags.multiline content compiled.exe i →
    Attempted false flags.multiline content compiled.exe i ∧
    ∀ m p, FirstAt (OccursAt lfix content) 0 m → RunStart content 0 m p →
      ReflTransGen (NextAttempt false flags.multiline (seenFrom content p) compiled.exe) p i ∧
      (0 < p → p = i → ∀ j, Accepts false flags.multiline content compiled.exe i j →
        Accepts false flags.multiline (seenFrom content i) compiled.exe i j)
  failing : (∀ i, ¬ LeastAccepted flags.multiline content compiled.exe i) →
    ∀ boundary m p, Candidate lfix content boundary m → RunStart content boundary m p →
      NoStray lfix content (m + lfix.length) ∧
      ((∃ m', FirstAt (OccursAt lfix content) (m + lfix.length) m') →
        fbufSize ∣ content.length + 1 - p)

/-- The same return value, and of a match the same place and size. -/
def FsearchResult.Agrees (r r' : FsearchResult) : Prop := r.ret = r'.ret ∧ (r.ret = 1 → r = r')

section

variable {lfix content : List CChar} {exe : List Inst} {flags : Flags} {boundary m p : Nat}
  {fileBuffer fileBuffer' : FileBuffer}

theorem exists_leastAccepted {ml : Bool} {i j : Nat} (hi : i ≤ content.length)
    (h : Accepts false ml content exe i j) : ∃ k, LeastAccepted ml content exe k := by
  classical
  have hex : ∃ k, k ≤ content.length ∧ ∃ j, Accepts false ml content exe k j := ⟨i, hi, j, h⟩
  refine ⟨Nat.find hex, Nat.find_spec hex, ?_⟩
  intro k hk j' hj'
  have hle := (Nat.find_spec hex).1
  exact Nat.find_min hex hk ⟨by omega, j', hj'⟩

/-- The start of a run is found, in front of its substring. -/
theorem runStart_exists (boundary : Nat) (hm : m ≤ content.length) :
    ∃ fp, seekToStartOfLine { content := content, offset := m } boundary = .ok fp ∧
      WithinFile content fp := by
  by_cases hle : boundary ≤ m
  · rcases @seekToStartOfLine_chunkStart content boundary ⟨content, m⟩ ⟨rfl, hm⟩ hle with
      ⟨fp, hseek, hwithin, _⟩
    exact ⟨fp, hseek, hwithin⟩
  · refine ⟨⟨content, m⟩, ?_, rfl, hm⟩
    unfold seekToStartOfLine
    simp only
    split
    · rfl
    · unfold seekLineLoop
      rw [if_neg (by simp only; omega)]
      rfl

/-! ## The ends of a search -/

/-- A search that tries a matching position ends there. -/
theorem SearchEnd.at {icase ml ng : Bool} {s : List CChar} {r i j : Nat} {tm : Threads}
    (h : SearchEnd icase ml s exe ng r tm)
    (htried : ReflTransGen (NextAttempt icase ml s exe) r i) (hm : Matched icase ml s exe i j) :
    ∃ q, tm.matchStart = i ∧ tm.matchEnd = q + 1 ∧ Matched icase ml s exe i q ∧
      ∀ q', Matched icase ml s exe i q' → Keeps ng q q' := by
  rcases h with ⟨r', q, hpath, hmq, hkeeps, hstart, hend⟩ | ⟨_, hnone⟩
  · obtain rfl := attempted_matched_unique hpath hmq htried hm
    exact ⟨q, hstart, hend, hmq, hkeeps⟩
  · exact absurd hm (hnone i j htried)

/-- A search of a text without a match finds none. -/
theorem SearchEnd.misses {icase ml ng : Bool} {s : List CChar} {r : Nat} {tm : Threads}
    (h : SearchEnd icase ml s exe ng r tm)
    (hnone : ∀ i j, ReflTransGen (NextAttempt icase ml s exe) r i → ¬ Matched icase ml s exe i j) :
    tm.matchEnd = 0 := by
  rcases h with ⟨r', q, hpath, hmq, _⟩ | ⟨hzero, _⟩
  · exact absurd hmq (hnone r' q hpath)
  · exact hzero

theorem Keeps.antisymm {ng : Bool} {q q' : Nat} (h : Keeps ng q q') (h' : Keeps ng q' q) : q = q' := by
  unfold Keeps at h h'
  cases ng with
  | true => exact Nat.le_antisymm h h'
  | false => exact Nat.le_antisymm h' h

theorem attempts_ge {icase ml : Bool} {s : List CChar} {r i : Nat}
    (h : ReflTransGen (NextAttempt icase ml s exe) r i) : r ≤ i := by
  induction h with
  | refl => exact Nat.le_refl r
  | tail _ hstep ih => exact ih.trans hstep.lt.le

theorem attempts_le_length {icase ml : Bool} {s : List CChar} {r i : Nat} (hr : r ≤ s.length)
    (h : ReflTransGen (NextAttempt icase ml s exe) r i) : i ≤ s.length := by
  cases h with
  | refl => exact hr
  | tail _ hstep => exact hstep.le_length

/-- A run on a file without a match fails, wherever it starts. -/
theorem SearchEnd.fails {ml ng : Bool} {tm : Threads} (hp : p ≤ content.length)
    (hnone : ∀ i, ¬ LeastAccepted ml content exe i)
    (h : SearchEnd false ml (seenFrom content p) exe ng p tm) : tm.matchEnd = 0 := by
  apply h.misses
  intro i j hpath hm
  have hge := attempts_ge hpath
  have hle := attempts_le_length (by rw [length_seenFrom hp]; exact hp) hpath
  rw [length_seenFrom hp] at hle
  rcases exists_leastAccepted hle (hm.of_seenFrom hp hge) with ⟨k, hk⟩
  exact hnone k hk

/-- What the search reports of a match at `i`. -/
theorem fsearchResult_found {tm : Threads} {q : Nat} (fp : File) (hend : tm.matchEnd = q + 1) :
    fsearchResult tm fp =
      { ret := 1, matchSize := some ((q : Int) - tm.matchStart), offset := tm.matchStart } := by
  unfold fsearchResult
  rw [if_pos (by omega)]
  simp only [seekToStartOfMatch, File.seek, hend]
  congr 2
  push_cast
  omega

theorem fsearchResult_failed {tm : Threads} (fp : File) (hend : tm.matchEnd = 0) :
    (fsearchResult tm fp).ret = 0 := by
  unfold fsearchResult
  rw [if_neg (not_not.mpr hend)]

/-! ## The loop -/

/-- The head of the loop of `bmh_partial`: it has found the substring once more,
or there is none any more. -/
structure Head (lfix content : List CChar) (flags : Flags) (s : PartialState) : Prop where
  inv : HeadInv content s
  started : Started lfix lfix.length s.b
  modes : s.tm.modes = flags
  place : s.tm.matchEnd ≠ 0 → ∃ m, Candidate lfix content s.lastMatchEnd m ∧
    s.tm.matchStart = m ∧ s.tm.matchEnd = m + lfix.length + 1

theorem Candidate.occurs (h : Candidate lfix content boundary m) : OccursAt lfix content m := by
  cases h with
  | first h => exact h.2.1
  | next _ h => exact h.2.1

theorem Candidate.le_length (hpos : 0 < lfix.length) (h : Candidate lfix content boundary m) :
    m + lfix.length ≤ content.length := by
  have hlen := h.occurs.length_le
  rw [List.length_drop] at hlen
  omega

theorem nextBuf_content (d : FileBuf) (n : Nat) :
    (nextBuf^[n] d).fp.content = d.fp.content := by
  induction n with
  | zero => rfl
  | succ n ih =>
      rw [Function.iterate_succ_apply', ← ih]
      generalize nextBuf^[n] d = d'
      show d'.filled.fp.content = d'.fp.content
      unfold FileBuf.filled
      split <;> rfl

/-- The run from a head: where it starts, and what it finds. -/
theorem Head.run {s : PartialState} (h : Head lfix content flags s) (hwf : WellFormed exe)
    (hfile : ∀ c ∈ content, c ≠ 0 ∧ c ≠ eofChar) (hhead : s.tm.matchEnd ≠ 0) :
    ∃ p d tm tm' d', RunStart content s.lastMatchEnd s.tm.matchStart p ∧ p ≤ content.length ∧
      s.run = .ok (d, tm) ∧ tm.chars = p ∧ d.fp.content = content ∧
      executeFile exe d tm = .ok (tm', d') ∧ tm'.modes = flags ∧ d'.fp.content = content ∧
      SearchEnd flags.icase flags.multiline (seenFrom content p) exe flags.nongreedy p tm' := by
  have hm := (h.inv.found hhead).1
  rcases runStart_exists s.lastMatchEnd hm with ⟨fp, hseek, hwithin⟩
  have hrun : s.run = .ok ({ s.d with fp := fp }, { s.tm with matchEnd := 0, chars := fp.offset }) := by
    have hfp : (seekToStartOfMatch s.tm s.b.fp).1 =
        { content := content, offset := s.tm.matchStart } := by
      unfold seekToStartOfMatch File.seek
      rw [h.inv.within.file]
    unfold PartialState.run
    rw [hfp, hseek]
    rfl
  -- the machine starts at the line start, on a buffer that is used up
  rcases h.inv.run hhead hrun with ⟨_, hlength, hused, _, hsearch, hend⟩
  have hcoupled : Coupled content fp.offset 0 { s.d with fp := fp } := by
    have hstart := Coupled.start hlength hused (by rw [hwithin.file]; exact hwithin.le)
    rw [hwithin.file] at hstart
    exact hstart
  rcases executeFile_search hwf hfile hcoupled hwithin.le rfl rfl hsearch hend h.modes with
    ⟨tm', d', hexec, hmodes', hout⟩
  have hcontent : d'.fp.content = content := by
    rcases executeFile_calls hsearch hend hexec with ⟨n, hdone⟩
    rw [hdone.data, nextBuf_content]
    exact hwithin.file
  exact ⟨fp.offset, _, _, tm', d', ⟨fp, hseek, rfl⟩, hwithin.le, hrun, rfl, hwithin.file, hexec,
    hmodes', hcontent, hout⟩

theorem Scans.modes {Occ : Nat → Prop} {length p0 : Nat} {tm tm' : Threads} {ret : Int}
    (h : Scans Occ length p0 tm ret tm') : tm'.modes = tm.modes := by
  rcases h with ⟨m, _, _, rfl⟩ | ⟨_, _, rfl⟩ <;> rfl

theorem Scans.place {Occ : Nat → Prop} {length p0 : Nat} {tm tm' : Threads} {ret : Int}
    (h : Scans Occ length p0 tm ret tm') (hzero : tm.matchEnd = 0) (hfound : tm'.matchEnd ≠ 0) :
    ∃ m, FirstAt Occ p0 m ∧ tm'.matchStart = m ∧ tm'.matchEnd = m + length + 1 := by
  rcases h with ⟨m, hfirst, _, rfl⟩ | ⟨_, _, rfl⟩
  · exact ⟨m, hfirst, rfl, rfl⟩
  · exact absurd hzero hfound

/-- A run that fails leads to the next head. -/
theorem Head.step {s : PartialState} {compiled : Compiled} (h : Head lfix content flags s)
    (hwf : WellFormed compiled.exe) (hfile : ∀ c ∈ content, c ≠ 0 ∧ c ≠ eofChar)
    (hicase : flags.icase = false) (hrelied : Relied compiled lfix content flags)
    (hnone : ∀ i, ¬ LeastAccepted flags.multiline content compiled.exe i)
    (hhead : s.tm.matchEnd ≠ 0) : ∃ s', s.next compiled.exe = .ok (.inr s') ∧
      Head lfix content flags s' ∧ (s'.tm.matchEnd ≠ 0 → s.tm.matchEnd < s'.tm.matchEnd) := by
  rcases h.place hhead with ⟨m, hcandidate, hstart, hmatchEnd⟩
  rcases h.run hwf hfile hhead with
    ⟨p, d, tm, tm', d', hp, hle, hrun, hchars, hdfile, hexec, hmodes, hcontent, hout⟩
  rw [hicase] at hout
  have hfailed : tm'.matchEnd = 0 := hout.fails hle hnone
  rw [hstart] at hp
  rcases hrelied.failing hnone _ m p hcandidate hp with ⟨hstray, hdvd⟩
  -- the scan goes on behind the substring
  have hseek : d'.fp.seek (s.tm.matchEnd - 1) = { content := content, offset := m + lfix.length } := by
    unfold File.seek
    rw [hcontent, hmatchEnd]
    rfl
  have hbegun : Begun lfix lfix.length content (m + lfix.length)
      ({ s.b with fp := { content := content, offset := m + lfix.length } }.bmhReset) :=
    Begun.reset h.started
  have hicase' : tm'.icase = false := (congrArg Flags.icase hmodes).trans hicase
  rcases bmh_scans hrelied.fits (fun c hc => (hfile c hc).2) hstray hicase' hbegun
    with ⟨b₁, ret, tm'', b₂, hreset, hscan, hscans⟩
  have hnext : s.next compiled.exe =
      .ok (.inr { lastMatchEnd := s.tm.matchEnd, b := b₂, d := d', tm := tm'' }) := by
    unfold PartialState.next
    simp only [hrun, hexec, hfailed, hseek, hreset, hscan, bind, Except.bind, ne_eq,
      not_true_eq_false, if_false]
    rfl
  have hstep : PartialStep compiled.exe s _ := ⟨hhead, hnext⟩
  refine ⟨_, hnext, ⟨?_, ?_, ?_, ?_⟩, ?_⟩
  · -- the buffer of `getchar_file` is empty, if there is one more run
    refine h.inv.step (fun c hc => (hfile c hc).2) hstep ?_
    intro hfound d₁ tm₁ hrun₁
    obtain ⟨rfl, rfl⟩ := Prod.mk.inj (Except.ok.inj (hrun.symm.trans hrun₁))
    rcases hscans.place hfailed hfound with ⟨m', hfirst, _⟩
    rw [hchars, hdfile]
    exact hdvd ⟨m', hfirst⟩
  · exact ((h.started.seek _).reset hreset).scan hscan
  · exact hscans.modes.trans hmodes
  · intro hfound
    rcases hscans.place hfailed hfound with ⟨m', hfirst, hstart', hend'⟩
    refine ⟨m', ?_, hstart', hend'⟩
    rw [hmatchEnd]
    exact hcandidate.next hfirst
  · intro hfound
    rcases hscans.place hfailed hfound with ⟨m', hfirst, _, hend'⟩
    have hge := hfirst.1
    have hpos := hrelied.fits.pos
    simp only
    omega

/-- With no match in the file the loop runs until the substring is found no more. -/
theorem partialLoop_fails {compiled : Compiled} (hwf : WellFormed compiled.exe)
    (hfile : ∀ c ∈ content, c ≠ 0 ∧ c ≠ eofChar) (hicase : flags.icase = false)
    (hrelied : Relied compiled lfix content flags)
    (hnone : ∀ i, ¬ LeastAccepted flags.multiline content compiled.exe i) : ∀ (fuel : Nat)
    (s : PartialState), Head lfix content flags s → 1 ≤ fuel →
    (s.tm.matchEnd ≠ 0 → content.length + 3 ≤ fuel + s.tm.matchEnd) →
    ∃ tm d, partialLoop compiled.exe fuel s.lastMatchEnd s.b s.d s.tm = .ok (tm, d) ∧
      tm.matchEnd = 0 := by
  intro fuel
  -- by induction on the rounds: every candidate lies behind the one before it
  induction fuel with
  | zero =>
      intro s _ hfuel
      exact absurd hfuel (Nat.not_succ_le_zero 0)
  | succ fuel ih =>
      intro s h _ hfuel
      rw [partialLoop_eq]
      by_cases hhead : s.tm.matchEnd = 0
      · rw [if_pos hhead]
        exact ⟨_, _, rfl, hhead⟩
      rw [if_neg hhead]
      rcases h.step hwf hfile hicase hrelied hnone hhead with ⟨s', hnext, h', hlater⟩
      rw [hnext]
      have hle := (h.inv.found hhead).2
      have henough := hfuel hhead
      refine ih s' h' (by omega) ?_
      intro hhead'
      have := hlater hhead'
      omega

/-- The first head of the loop. -/
theorem partialStart_head {compiled : Compiled} {b : Bmh} (hreach : Reachable b)
    (hfile : ∀ c ∈ content, c ≠ 0 ∧ c ≠ eofChar)
    (hicase : flags.icase = false) (hrelied : Relied compiled lfix content flags) :
    ∃ s, partialStart lfix lfix.length b (FileBuf.fresh fileBuffer ⟨content, 0⟩)
        (fsearchThreads flags) = .ok s ∧ Head lfix content flags s ∧ s.lastMatchEnd = 0 ∧
      ∀ m, FirstAt (OccursAt lfix content) 0 m → s.tm.matchStart = m ∧ s.tm.matchEnd ≠ 0 := by
  have hbegun : Begun lfix lfix.length content 0 (b.bmhInit ⟨content, 0⟩ lfix lfix.length) :=
    Begun.init hreach
  have hicase' : (fsearchThreads flags).icase = false := hicase
  rcases bmh_scans hrelied.fits (fun c hc => (hfile c hc).2) hrelied.stray hicase'
    hbegun with ⟨b₁, ret, tm, b₂, hinit, hscan, hscans⟩
  have hstart : partialStart lfix lfix.length b
      (FileBuf.fresh fileBuffer ⟨content, 0⟩) (fsearchThreads flags) = .ok
        { lastMatchEnd := 0, b := b₂, d := FileBuf.fresh fileBuffer ⟨content, 0⟩, tm := tm } := by
    unfold partialStart
    simp only [FileBuf.fresh, hinit, hscan, bind, Except.bind]
    rfl
  refine ⟨_, hstart, ⟨?_, ?_, ?_, ?_⟩, rfl, ?_⟩
  · have hwithin : WithinFile content b₁.fp := bmhInit_within ⟨rfl, Nat.zero_le _⟩ hinit
    rcases bmhLoop_within hwithin hscan with ⟨hwithin', hresult⟩
    exact ⟨hwithin', hresult.search, hresult.endchar, hresult.found, fileBuffer.2,
      fun _ => rfl⟩
  · exact (Started.init hreach hinit).scan hscan
  · exact hscans.modes
  -- the first candidate is the first place where `lfix` occurs
  · intro hfound
    rcases hscans.place rfl hfound with ⟨m, hfirst, hplace⟩
    exact ⟨m, .first hfirst, hplace⟩
  · intro m hfirst
    rcases hscans with ⟨m', hfirst', _, rfl⟩ | ⟨hno, _⟩
    · exact ⟨hfirst'.unique hfirst, Nat.succ_ne_zero _⟩
    · exact absurd hfirst.2.1 (hno m (Nat.zero_le m))

/-- The plain path. -/
theorem rxvmFsearch_plain {compiled : Compiled} (b : Bmh) (hprogram : compiled.simple = none)
    (hwf : WellFormed compiled.exe) (hfile : ∀ c ∈ content, c ≠ 0 ∧ c ≠ eofChar) (flags : Flags) :
    ∃ tm fp, rxvmFsearch b fileBuffer { compiled with lfix := none } ⟨content, 0⟩ flags =
        .ok (fsearchResult tm fp) ∧
      SearchEnd flags.icase flags.multiline content compiled.exe flags.nongreedy 0 tm := by
  have hcoupled : Coupled content 0 0 (FileBuf.fresh fileBuffer ⟨content, 0⟩) :=
    @Coupled.start (FileBuf.fresh fileBuffer ⟨content, 0⟩) fileBuffer.2 rfl (Nat.zero_le _)
  rcases @executeFile_search content 0 compiled.exe flags (FileBuf.fresh fileBuffer ⟨content, 0⟩)
    { fsearchThreads flags with chars := 0 } hwf hfile hcoupled (Nat.zero_le _) rfl rfl rfl rfl
    rfl with ⟨tm, d, hexec, _, hout⟩
  refine ⟨tm, d.fp, ?_, hout⟩
  have hhanded : handed { compiled with lfix := none } = none := by
    unfold handed
    rw [hprogram]
    rfl
  unfold rxvmFsearch
  simp only [hhanded, hexec, bind, Except.bind]
  rfl

/-- The fast path, from the first head on. -/
theorem rxvmFsearch_fast {compiled : Compiled} {b : Bmh} {s : PartialState} {tm : Threads}
    {d : FileBuf} (hprogram : compiled.simple = none)
    (hhanded : handed compiled = some (lfix, lfix.length))
    (hstart : partialStart lfix lfix.length b (FileBuf.fresh fileBuffer ⟨content, 0⟩)
      (fsearchThreads flags) = .ok s)
    (hloop : partialLoop compiled.exe (content.length + 2) s.lastMatchEnd s.b s.d s.tm =
      .ok (tm, d)) :
    rxvmFsearch b fileBuffer compiled ⟨content, 0⟩ flags = .ok (fsearchResult tm d.fp) := by
  have hbuf : bmhPartial compiled lfix lfix.length b
      (FileBuf.fresh fileBuffer ⟨content, 0⟩) (fsearchThreads flags) = .ok (tm, d) := by
    rw [bmhPartial_eq]
    show (partialStart lfix lfix.length b (FileBuf.fresh fileBuffer ⟨content, 0⟩)
      (fsearchThreads flags) >>= _) = _
    rw [hstart]
    exact hloop
  unfold rxvmFsearch
  simp only [hhanded, hprogram, Option.isSome_none, Bool.false_eq_true, if_false, hbuf, bind,
    Except.bind]
  rfl

/-- At a run that matches the loop ends. -/
theorem partialLoop_found {fuel : Nat} {s : PartialState} {d d' : FileBuf} {tm tm' : Threads}
    (hhead : s.tm.matchEnd ≠ 0) (hrun : s.run = .ok (d, tm))
    (hexec : executeFile exe d tm = .ok (tm', d')) (hfound : tm'.matchEnd ≠ 0) :
    partialLoop exe (fuel + 1) s.lastMatchEnd s.b s.d s.tm = .ok (tm', d') := by
  have hnext : s.next exe = .ok (.inl (tm', d')) := by
    unfold PartialState.next
    simp only [hrun, hexec, if_pos hfound, bind, Except.bind]
    rfl
  rw [partialLoop_eq, if_neg hhead, hnext]
  rfl

/-! ## The two paths -/

/-- The first run makes an attempt at the leftmost match, and sees there what the
search from the start of the file sees. -/
theorem Relied.first_run {compiled : Compiled} {i : Nat}
    (hrelied : Relied compiled lfix content flags)
    (hi : LeastAccepted flags.multiline content compiled.exe i)
    (hm : FirstAt (OccursAt lfix content) 0 m) (hp : RunStart content 0 m p)
    (hle : p ≤ content.length) :
    ReflTransGen (NextAttempt false flags.multiline (seenFrom content p) compiled.exe) p i ∧
      ∀ j, Matched false flags.multiline (seenFrom content p) compiled.exe i j ↔
        Matched false flags.multiline content compiled.exe i j := by
  rcases (hrelied.tried i hi).2 m p hm hp with ⟨htried, hat⟩
  refine ⟨htried, ?_⟩
  have hge := attempts_ge htried
  intro j
  by_cases hbehind : p < i ∨ p = 0
  · exact matched_seenFrom hle hbehind
  · -- the run starts with the match
    obtain rfl : p = i := by omega
    exact ⟨Matched.of_seenFrom hle hge, hat (by omega) rfl j⟩

/-- With and without the fixed substring `rxvm_fsearch` gives the same result, if
all that the fast path relies on holds. -/
theorem rxvmFsearch_paths_agree {g g' : Statics} {exp : List CChar} {compiled : Compiled} {b : Bmh}
    (h : rxvmCompile g exp = .ok (.ok compiled, g')) (hprogram : compiled.simple = none)
    (hreach : Reachable b) (hfile : ∀ c ∈ content, c ≠ 0 ∧ c ≠ eofChar)
    (hicase : flags.icase = false) (hrelied : Relied compiled lfix content flags) :
    ∃ fast plain, rxvmFsearch b fileBuffer compiled { content := content, offset := 0 } flags =
        .ok fast ∧
      rxvmFsearch b fileBuffer' { compiled with lfix := none }
        { content := content, offset := 0 } flags = .ok plain ∧ fast.Agrees plain := by
  have hwf := rxvmCompile_wellFormed h hprogram
  rcases @rxvmFsearch_plain content fileBuffer' compiled b hprogram hwf hfile flags with
    ⟨tm₀, fp₀, hplain, hout₀⟩
  rcases @partialStart_head lfix content flags fileBuffer compiled b hreach hfile hicase hrelied with
    ⟨s, hstart, hs, hboundary, hplace⟩
  rw [hicase] at hout₀
  by_cases hmatch : ∃ i, LeastAccepted flags.multiline content compiled.exe i
  · -- the first run finds the leftmost match
    rcases hmatch with ⟨i, hi⟩
    rcases hrelied.present i hi with ⟨m', hm'⟩
    rcases exists_firstAt (Nat.zero_le m') hm' with ⟨m, hfirst⟩
    have htried₀ := (hrelied.tried i hi).1
    rcases hi.1 with ⟨_, j, hj⟩
    rcases hplace m hfirst with ⟨hm, hhead⟩
    rcases hs.run hwf hfile hhead with ⟨p, d, tm, tm', d', hp, hle, hrun, _, _, hexec, _, _, hout⟩
    rw [hboundary, hm] at hp
    rw [hicase] at hout
    rcases hrelied.first_run hi hfirst hp hle with ⟨htried, hsame⟩
    rcases hout₀.at htried₀ hj with ⟨q₀, hstart₀, hend₀, hm₀, hkeeps₀⟩
    rcases hout.at htried ((hsame j).mpr hj) with ⟨q, hstart', hend', hmq, hkeeps⟩
    -- both keep the same end: what they see of the file accepts the same
    obtain rfl : q₀ = q :=
      (hkeeps₀ q ((hsame q).mp hmq)).antisymm (hkeeps q₀ ((hsame q₀).mpr hm₀))
    have hfound : tm'.matchEnd ≠ 0 := by
      rw [hend']
      exact Nat.succ_ne_zero q₀
    have hloop := @partialLoop_found compiled.exe (content.length + 1) s d d' tm tm' hhead hrun hexec
      hfound
    refine ⟨_, _, rxvmFsearch_fast hprogram hrelied.handed hstart hloop, hplain, ?_⟩
    rw [fsearchResult_found _ hend', fsearchResult_found _ hend₀, hstart₀, hstart']
    exact ⟨rfl, fun _ => rfl⟩
  · -- no run finds a match
    push Not at hmatch
    rcases partialLoop_fails hwf hfile hicase hrelied hmatch (content.length + 2) s hs (by omega)
      (by omega) with ⟨tm, d, hloop, hzero⟩
    have hzero₀ : tm₀.matchEnd = 0 := SearchEnd.fails (Nat.zero_le _) hmatch hout₀
    refine ⟨_, _, rxvmFsearch_fast hprogram hrelied.handed hstart hloop, hplain, ?_⟩
    have hret := fsearchResult_failed d.fp hzero
    refine ⟨hret.trans (fsearchResult_failed fp₀ hzero₀).symm, ?_⟩
    intro hone
    rw [hret] at hone
    cases hone

/-- The expression `a+bc` and the file `aabc`, with the substring at 2. -/
theorem rxvmFsearch_paths_agree_aabc : ∃ compiled g' fast plain,
    rxvmCompile Statics.init [97, 43, 98, 99] = .ok (.ok compiled, g') ∧
      compiled.lfix = some [98, 99] ∧
      rxvmFsearch Bmh.zero FileBuffer.zero compiled ⟨[97, 97, 98, 99], 0⟩ {} = .ok fast ∧
      rxvmFsearch Bmh.zero FileBuffer.zero { compiled with lfix := none } ⟨[97, 97, 98, 99], 0⟩ {} =
        .ok plain ∧ fast.Agrees plain := by
  have h : ∃ compiled g', rxvmCompile Statics.init [97, 43, 98, 99] = .ok (.ok compiled, g') ∧
      compiled.simple = none ∧ compiled.lfix = some [98, 99] ∧
      handed compiled = some ([98, 99], 2) ∧
      compiled.exe = [.opChar 97, .opBranch 0 2, .opChar 98, .opChar 99, .opMatch] :=
    ⟨_, _, rfl, rfl, rfl, rfl, rfl⟩
  rcases h with ⟨compiled, g', h, hprogram, hlfix, hhanded, hexe⟩
  have hscannable : ∀ c ∈ ([98, 99] : List CChar), Scannable c := by
    unfold Scannable
    decide +kernel
  have hfile : ∀ c ∈ ([97, 97, 98, 99] : List CChar), c ≠ 0 ∧ c ≠ eofChar := by decide +kernel
  -- the leftmost match is the whole file
  have haccepts : ∃ j, Accepts false false [97, 97, 98, 99] compiled.exe 0 j := by
    rw [hexe]
    refine ⟨4, 4, rfl, ?_⟩
    refine .head (.eat rfl (by decide) rfl) (.head (.branchX rfl) ?_)
    refine .head (.eat rfl (by decide) rfl) (.head (.branchY (y := 2) rfl) ?_)
    exact .head (.eat rfl (by decide) rfl) (.single (.eat rfl (by decide) rfl))
  have hleast : ∀ i, LeastAccepted false [97, 97, 98, 99] compiled.exe i → i = 0 := by
    intro i hi
    by_contra hne
    rcases haccepts with ⟨j, hj⟩
    exact hi.2 0 (Nat.pos_of_ne_zero hne) j hj
  have hfirst : FirstAt (OccursAt [98, 99] [97, 97, 98, 99]) 0 2 := by
    refine ⟨Nat.zero_le 2, by unfold OccursAt; decide, ?_⟩
    intro m _ hm
    have hm' : m = 0 ∨ m = 1 := by omega
    rcases hm' with rfl | rfl <;> (unfold OccursAt; decide)
  have hrelied : Relied compiled [98, 99] [97, 97, 98, 99] {} := by
    constructor
    · exact hhanded
    · exact patternOk_of_scannable hscannable (by decide) (by decide)
    · exact noStray_of_scannable hscannable (by decide +kernel)
    · intro i _
      exact ⟨2, hfirst.2.1⟩
    · intro i hi
      obtain rfl := hleast i hi
      refine ⟨.refl, ?_⟩
      rintro m p hm ⟨fp, hseek, rfl⟩
      obtain rfl := hm.unique hfirst
      cases hseek
      exact ⟨.refl, fun hpos => absurd hpos (Nat.lt_irrefl 0)⟩
    · intro hnone
      refine absurd ?_ (hnone 0)
      refine ⟨⟨Nat.zero_le _, haccepts⟩, ?_⟩
      intro k hk
      exact absurd hk (Nat.not_lt_zero k)
  have hicase : ({} : Flags).icase = false := rfl
  rcases rxvmFsearch_paths_agree h hprogram Reachable.zero hfile hicase hrelied with
    ⟨fast, plain, hfast, hplain, hagrees⟩
  exact ⟨compiled, g', fast, plain, h, hlfix, hfast, hplain, hagrees⟩

/-- The expression `x[^a]bcd` and the file `x`, newline, `bcd`: the run for the
substring starts at the newline, and the match starts before it. -/
theorem rxvmFsearch_paths_differ : ∃ compiled g' fast plain,
    rxvmCompile Statics.init [120, 91, 94, 97, 93, 98, 99, 100] = .ok (.ok compiled, g') ∧
      compiled.simple = none ∧ compiled.lfix = some [98, 99, 100] ∧
      rxvmFsearch Bmh.zero FileBuffer.zero compiled ⟨[120, 10, 98, 99, 100], 0⟩ {} = .ok fast ∧
      rxvmFsearch Bmh.zero FileBuffer.zero { compiled with lfix := none }
        ⟨[120, 10, 98, 99, 100], 0⟩ {} = .ok plain ∧
      plain = { ret := 1, matchSize := some 5, offset := 0 } ∧ ¬ fast.Agrees plain := by
  refine ⟨_, _, { ret := 0, matchSize := none, offset := 5 },
    { ret := 1, matchSize := some 5, offset := 0 }, rfl, rfl, rfl, ?_, ?_, rfl, ?_⟩
  · decide +kernel
  · decide +kernel
  · rintro ⟨hret, _⟩
    cases hret

end

end Rxvm
