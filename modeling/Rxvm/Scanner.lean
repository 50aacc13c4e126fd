import Rxvm.BmhSpec
import Rxvm.Case
import Rxvm.Fsearch
import Rxvm.Scan

/-!
# Rxvm.Scanner — what bmh finds

The scanner is started by `bmh_init`, or by `bmh_reset` after the file has been
moved. From there it finds the first occurrence of the pattern; with
`RXVM_ICASE` only if its windows, which are moved over the characters as they
are, do not pass it by. Its tables are read inside their bounds exactly if the
pattern fits and no window that does not match ends with `~`.
-/

namespace Rxvm

open Relation

/-! ## The states of the scanner -/

/-- The statics that any sequence of calls leaves; the file is moved by others. -/
inductive Reachable : Bmh → Prop where
  | zero : Reachable Bmh.zero
  | init {b b' : Bmh} {file : File} {pat : List CChar} {length : Nat} (h : Reachable b)
      (hinit : b.bmhInit file pat length = .ok b') : Reachable b'
  | reset {b b' : Bmh} (h : Reachable b) (hreset : b.bmhReset = .ok b') : Reachable b'
  | scan {b b' : Bmh} {tm tm' : Threads} {ret : Int} (h : Reachable b)
      (hscan : b.bmh tm = .ok (ret, tm', b')) : Reachable b'
  | seek {b : Bmh} (h : Reachable b) (file : File) : Reachable { b with fp := file }

/-- The statics when the last `bmh_init` was given this pattern. -/
inductive Started (pat : List CChar) (length : Nat) : Bmh → Prop where
  | init {b b' : Bmh} {file : File} (h : Reachable b)
      (hinit : b.bmhInit file pat length = .ok b') : Started pat length b'
  | reset {b b' : Bmh} (h : Started pat length b) (hreset : b.bmhReset = .ok b') :
      Started pat length b'
  | scan {b b' : Bmh} {tm tm' : Threads} {ret : Int} (h : Started pat length b)
      (hscan : b.bmh tm = .ok (ret, tm', b')) : Started pat length b'
  | seek {b : Bmh} (h : Started pat length b) (file : File) :
      Started pat length { b with fp := file }

/-- The scanner is started at `p0`: by `bmh_init`, or by `bmh_reset` after a
seek. -/
inductive Begun (pat : List CChar) (length : Nat) (content : List CChar) (p0 : Nat) :
    Except Fault Bmh → Prop where
  | init {b : Bmh} (h : Reachable b) :
      Begun pat length content p0 (b.bmhInit { content := content, offset := p0 } pat length)
  | reset {b : Bmh} (h : Started pat length b) :
      Begun pat length content p0 ({ b with fp := { content := content, offset := p0 } }.bmhReset)

/-- A step of the scanner keeps the pattern, and the end inside the buffer. -/
structure Kept (b b' : Bmh) : Prop where
  badchar : b'.badchar = b.badchar
  pattern : b'.pattern = b.pattern
  plen : b'.plen = b.plen
  end_le : b.bufEnd ≤ bufsize → b'.bufEnd ≤ bufsize

section

variable {b b' : Bmh}

theorem Kept.trans {b'' : Bmh} (h : Kept b b') (h' : Kept b' b'') : Kept b b'' :=
  ⟨h'.badchar.trans h.badchar, h'.pattern.trans h.pattern, h'.plen.trans h.plen,
    fun hle => h'.end_le (h.end_le hle)⟩

theorem fill_kept {backup : Nat} (h : b.fill backup = .ok b') : Kept b b' := by
  by_cases hcond : backup ≤ b.bufEnd ∧ b.bufEnd ≤ bufsize
  · rcases fill_ok hcond.1 hcond.2 with ⟨b'', hfill, hsame, _, hend, _⟩
    obtain rfl : b'' = b' := by
      rw [hfill] at h
      exact Except.ok.inj h
    refine ⟨hsame.badchar, hsame.pattern, hsame.plen, ?_⟩
    intro hle
    have hmin : min (bufsize - backup) (b.fp.content.length - b.fp.offset) ≤ bufsize - backup :=
      Nat.min_le_left _ _
    omega
  · unfold Bmh.fill at h
    rw [if_neg hcond] at h
    cases h

theorem skip_kept {num : Nat} {c : CChar} (h : b.skip num = .ok (c, b')) : Kept b b' := by
  unfold Bmh.skip at h
  simp only [bind, Except.bind] at h
  by_cases htotal : u32 ((b.pos : Int) + num) > b.endix
  -- behind the buffer: it is filled again, which keeps the pattern and its tables
  · rw [if_pos htotal] at h
    revert h
    generalize hbackup : u32 ((b.plen : Int) - u32 ((u32 ((b.pos : Int) + num) : Int) - b.endix)) =
      backup
    rcases hfill : b.fill backup with fault | b₁
    · intro h
      cases h
    · rcases hget : ({ b₁ with pos := b₁.pendix } : Bmh).getBuf b₁.pendix with fault | d
      · intro h
        simp only [hget] at h
        cases h
      · intro h
        simp only [hget] at h
        cases h
        have hkept := fill_kept hfill
        exact ⟨hkept.badchar, hkept.pattern, hkept.plen, hkept.end_le⟩
  · rw [if_neg htotal] at h
    rcases hget : ({ b with pos := u32 ((b.pos : Int) + num) } : Bmh).getBuf
      (u32 ((b.pos : Int) + num)) with fault | d
    · simp only [hget] at h
      cases h
    · simp only [hget] at h
      cases h
      exact ⟨rfl, rfl, rfl, id⟩

theorem bmhLoop_kept : ∀ {fuel num : Nat} {b b' : Bmh} {tm tm' : Threads} {ret : Int},
    Bmh.bmhLoop fuel num b tm = .ok (ret, tm', b') → Kept b b' := by
  intro fuel
  -- by induction on the windows that are left
  induction fuel with
  | zero =>
      intro num b b' tm tm' ret h
      cases h
  | succ fuel ih =>
      intro num b b' tm tm' ret h
      unfold Bmh.bmhLoop at h
      simp only [bind, Except.bind] at h
      rcases hskip : b.skip num with fault | ⟨c, b₁⟩
      · rw [hskip] at h
        cases h
      rw [hskip] at h
      have hkept := skip_kept hskip
      by_cases hc : c = eofChar
      · simp only [if_pos hc] at h
        cases h
        exact hkept
      simp only [if_neg hc] at h
      rcases hcompare : b₁.compare tm.icase b₁.pendix with fault | same
      · rw [hcompare] at h
        cases h
      rw [hcompare] at h
      cases same with
      | true =>
          cases h
          exact hkept
      | false =>
          rcases hnext : b₁.nextSkip c with fault | num'
          · simp only [hnext] at h
            cases h
          · simp only [hnext] at h
            exact hkept.trans (ih h)

theorem reset_kept (h : b.bmhReset = .ok b') : Kept b b' := by
  have hkept := fill_kept h
  exact ⟨hkept.badchar, hkept.pattern, hkept.plen, hkept.end_le⟩

theorem bmhInit_split {file : File} {pat : List CChar} {length : Nat}
    (h : b.bmhInit file pat length = .ok b') :
    ∃ t, Bmh.enter pat length (u32 ((length : Int) - 1)) 0 (fun _ => length) = .ok t ∧
      { b with badchar := t, pattern := pat, fp := file, plen := length }.bmhReset = .ok b' := by
  unfold Bmh.bmhInit at h
  rcases henter : Bmh.enter pat length (u32 ((length : Int) - 1)) 0 (fun _ => length) with fault | t
  · rw [henter] at h
    cases h
  · rw [henter] at h
    exact ⟨t, rfl, h⟩

/-- The buffer's end never leaves the buffer. -/
theorem Reachable.end_le (h : Reachable b) : b.bufEnd ≤ bufsize := by
  induction h with
  | zero => exact Nat.zero_le _
  | init _ hinit ih =>
      rcases bmhInit_split hinit with ⟨_, _, hreset⟩
      exact (reset_kept hreset).end_le ih
  | reset _ hreset ih => exact (reset_kept hreset).end_le ih
  | scan _ hscan ih => exact (bmhLoop_kept hscan).end_le ih
  | seek _ _ ih => exact ih

/-- The pattern of the last `bmh_init` stays. -/
theorem Started.keeps {pat : List CChar} {length : Nat} (h : Started pat length b) :
    b.bufEnd ≤ bufsize ∧ b.plen = length ∧ b.pattern = pat ∧
      Bmh.enter pat length (u32 ((length : Int) - 1)) 0 (fun _ => length) = .ok b.badchar := by
  have step : ∀ {b b' : Bmh}, Kept b b' →
      (b.bufEnd ≤ bufsize ∧ b.plen = length ∧ b.pattern = pat ∧
        Bmh.enter pat length (u32 ((length : Int) - 1)) 0 (fun _ => length) = .ok b.badchar) →
      b'.bufEnd ≤ bufsize ∧ b'.plen = length ∧ b'.pattern = pat ∧
        Bmh.enter pat length (u32 ((length : Int) - 1)) 0 (fun _ => length) = .ok b'.badchar := by
    rintro b b' hkept ⟨hend, hplen, hpattern, hbadchar⟩
    rw [hkept.plen, hkept.pattern, hkept.badchar]
    exact ⟨hkept.end_le hend, hplen, hpattern, hbadchar⟩
  induction h with
  | init h hinit =>
      rcases bmhInit_split hinit with ⟨t, henter, hreset⟩
      exact step (reset_kept hreset) ⟨h.end_le, rfl, rfl, henter⟩
  | reset _ hreset ih => exact step (reset_kept hreset) ih
  | scan _ hscan ih => exact step (bmhLoop_kept hscan) ih
  | seek _ _ ih => exact ih

/-- With a pattern that fits, the scanner starts. -/
theorem Begun.start {pat content : List CChar} {length p0 : Nat} {start : Except Fault Bmh}
    (hok : PatternOk pat length) (h : Begun pat length content p0 start) :
    ∃ b, start = .ok b ∧ Start content pat length p0 b := by
  cases h with
  | init hreach => exact bmhInit_ok hok hreach.end_le
  | @reset b hstarted =>
      rcases hstarted.keeps with ⟨hend, hplen, hpattern, hbadchar⟩
      rcases enter_table hok.le hok.pos hok.inTable with ⟨t, henter, hentry⟩
      rw [henter] at hbadchar
      cases hbadchar
      exact bmhReset_ok (b := { b with fp := { content := content, offset := p0 } })
        hok.pos hok.le hplen hpattern hentry hend

end

/-! ## The first occurrence -/

/-- The first occurrence of the pattern at `p0` or behind it. -/
def FirstAt (Occ : Nat → Prop) (p0 m : Nat) : Prop :=
  p0 ≤ m ∧ Occ m ∧ ∀ m', p0 ≤ m' → m' < m → ¬ Occ m'

/-- The result of a scan that finds the first occurrence. -/
def FindsFirst (Occ : Nat → Prop) (length p0 : Nat) (tm : Threads) (ret : Int) (tm' : Threads) :
    Prop :=
  (∃ m, FirstAt Occ p0 m ∧ ret = 1 ∧ tm'.matchStart = m ∧ tm'.matchEnd = m + length + 1) ∨
    ((∀ m, p0 ≤ m → ¬ Occ m) ∧ ret = 0 ∧ tm'.matchEnd = tm.matchEnd)

/-- The pattern is the piece of the file at `m`. -/
def OccursAt (pat content : List CChar) (m : Nat) : Prop := pat <+: content.drop m

/-- The characters of a pattern the scanner can be given: those of the lexer,
but `~`. -/
def Scannable (c : CChar) : Prop := isprintable c = true ∧ c ≠ printableHigh

section

variable {pat content : List CChar} {p0 : Nat}

theorem Scannable.inTable {c : CChar} (h : Scannable c) : InTable c := isprintable_index h.2 h.1

theorem patternOk_of_scannable (hpat : ∀ c ∈ pat, Scannable c) (hpos : 0 < pat.length)
    (hle : pat.length ≤ bufsize) : PatternOk pat pat.length := by
  refine ⟨hpos, hle, ?_⟩
  intro i hi
  apply (hpat _ ?_).inTable
  rw [at'_of_lt (show i < pat.length by omega)]
  exact List.getElem_mem _

/-- What the scanner compares of a window of the file is whether the pattern stands
there. -/
theorem occursAt_of_windowMatches {m : Nat} (hm : m + pat.length ≤ content.length)
    (h : WindowMatches false pat pat.length content m) : OccursAt pat content m := by
  unfold OccursAt
  rw [List.prefix_iff_getElem?]
  intro i hi
  have hsame := charMatch_false.mp (h i hi)
  have hlt : m + i < content.length := by omega
  rw [fileChar_of_lt hlt, at'_of_lt hlt, at'_of_lt hi] at hsame
  rw [List.getElem?_drop, List.getElem?_eq_getElem hlt, hsame]

theorem OccursAt.windowMatches {m : Nat} (h : OccursAt pat content m) :
    WindowMatches false pat pat.length content m := by
  unfold OccursAt at h
  rw [List.prefix_iff_getElem?] at h
  intro i hi
  have hsame := h i hi
  rw [List.getElem?_drop] at hsame
  apply charMatch_false.mpr
  rw [fileChar, List.getD_eq_getElem?_getD, hsame, at'_of_lt hi]
  rfl

/-- A window the scanner has in its buffer is one of the file. -/
theorem AtWindow.inside {m base : Nat} {b : Bmh} (h : AtWindow content pat pat.length m base b) :
    m + pat.length ≤ content.length := by
  have hin := h.loaded.inside (by have := h.pos_lt; omega)
  have hlt := h.pos_lt
  have htarget := h.target
  omega

theorem exists_firstAt {Occ : Nat → Prop} {m : Nat} (hm : p0 ≤ m) (h : Occ m) :
    ∃ m', FirstAt Occ p0 m' := by
  classical
  have hex : ∃ n, p0 ≤ n ∧ Occ n := ⟨m, hm, h⟩
  refine ⟨Nat.find hex, (Nat.find_spec hex).1, (Nat.find_spec hex).2, ?_⟩
  intro m' h1 h2 h3
  exact Nat.find_min hex h2 ⟨h1, h3⟩

theorem FirstAt.unique {Occ : Nat → Prop} {m m' : Nat} (h : FirstAt Occ p0 m)
    (h' : FirstAt Occ p0 m') : m = m' := by
  rcases Nat.lt_trichotomy m m' with hlt | heq | hgt
  · exact absurd h.2.1 (h'.2.2 m h.1 hlt)
  · exact heq
  · exact absurd h'.2.1 (h.2.2 m' h'.1 hgt)

theorem windows_le {icase : Bool} {length m m' : Nat}
    (h : Windows icase pat length content m m') : m ≤ m' := by
  induction h with
  | refl => exact Nat.le_refl _
  | tail _ hstep ih =>
      rcases hstep with ⟨_, _, rfl⟩
      exact Nat.le_trans ih (Nat.le_add_right _ _)

/-- No window the scan from `p0` comes to, and that does not match, ends with a
character without an entry in `badchar`, or with one that is entered there and is
not looked up. -/
def NoStray (pat content : List CChar) (p0 : Nat) : Prop :=
  ∀ m, Windows false pat pat.length content p0 m →
    ¬ WindowMatches false pat pat.length content m →
    fileChar content (m + (pat.length - 1)) ≠ printableHigh ∧
      (fileChar content (m + (pat.length - 1)) ∈ pat.dropLast →
        isprintable (fileChar content (m + (pat.length - 1))) = true)

/-- A character that is not looked up stands in the pattern at its end only. -/
theorem skipLen_le_shift {c : CChar} (hc : c ∈ pat.dropLast → isprintable c = true) :
    skipLen pat pat.length c ≤ Horspool.shift (at' pat) pat.length c := by
  unfold skipLen
  split
  · exact Nat.le_refl _
  · next hprint =>
      rcases Horspool.shift_cases (p := at' pat) (k := pat.length) (c := c) with
        ⟨heq, _⟩ | ⟨i, hi, hchar, _⟩
      · rw [heq]
      · have hlt : i < pat.dropLast.length := by
          rw [List.length_dropLast]
          exact hi
        rw [at'_of_lt (show i < pat.length by omega), ← List.getElem_dropLast hlt] at hchar
        exact absurd (hc (hchar ▸ List.getElem_mem hlt)) hprint

/-- No occurrence is among the windows passed. -/
theorem not_occurs_of_windows (hstray : NoStray pat content p0) {m : Nat}
    (h : Windows false pat pat.length content p0 m) :
    ∀ m', p0 ≤ m' → m' < m → ¬ OccursAt pat content m' := by
  have hsame : (fun a b : CChar => charMatch false a b = true) = Eq := by
    funext a b
    exact propext charMatch_false
  intro m' h1 h2 hocc
  unfold NoStray Windows NextWindow WindowMatches at hstray
  unfold Windows NextWindow at h
  rw [hsame] at h hstray
  apply Horspool.not_occurs_of_moves _ h m' h1 h2
  · have hwin := hocc.windowMatches
    unfold WindowMatches at hwin
    rw [hsame] at hwin
    exact hwin
  · intro m hm hnot
    exact skipLen_le_shift (hstray m hm hnot).2

theorem not_occursAt_of_eof (hpos : 0 < pat.length) {m m' : Nat}
    (hm : content.length ≤ m + (pat.length - 1)) (hle : m ≤ m') : ¬ OccursAt pat content m' := by
  intro h
  have hlen := h.length_le
  rw [List.length_drop] at hlen
  omega

/-- What a scan from `p0` returns, and what it does to `tm`: it sets the two ends
of the match, or leaves it as it is. -/
def Scans (Occ : Nat → Prop) (length p0 : Nat) (tm : Threads) (ret : Int) (tm' : Threads) : Prop :=
  (∃ m, FirstAt Occ p0 m ∧ ret = 1 ∧
      tm' = { tm with matchStart := m, matchEnd := m + length + 1 }) ∨
    ((∀ m, p0 ≤ m → ¬ Occ m) ∧ ret = 0 ∧ tm' = tm)

theorem Scans.findsFirst {Occ : Nat → Prop} {length : Nat} {tm tm' : Threads} {ret : Int}
    (h : Scans Occ length p0 tm ret tm') : FindsFirst Occ length p0 tm ret tm' := by
  rcases h with ⟨m, hfirst, hret, rfl⟩ | ⟨hnone, hret, rfl⟩
  · exact Or.inl ⟨m, hfirst, hret, rfl, rfl⟩
  · exact Or.inr ⟨hnone, hret, rfl⟩

theorem bmh_scans {tm : Threads} {start : Except Fault Bmh} (hok : PatternOk pat pat.length)
    (hfile : ∀ c ∈ content, c ≠ eofChar) (hstray : NoStray pat content p0)
    (hicase : tm.icase = false)
    (h : Begun pat pat.length content p0 start) :
    ∃ b ret tm' b', start = .ok b ∧ b.bmh tm = .ok (ret, tm', b') ∧
      Scans (OccursAt pat content) pat.length p0 tm ret tm' := by
  rcases h.start hok with ⟨b, hstart, hb⟩
  have hscan := hb.bmh tm
  revert hscan
  generalize hrun : b.bmh tm = result
  intro hscan
  cases hscan with
  | @found m base b' hpath hat hmatch =>
      rw [hicase] at hpath hmatch
      refine ⟨b, _, _, _, hstart, hrun, Or.inl ⟨m, ⟨windows_le hpath, ?_, ?_⟩, rfl, rfl⟩⟩
      · exact occursAt_of_windowMatches hat.inside hmatch
      · exact not_occurs_of_windows hstray hpath
  | @missed m b' hpath heof =>
      rw [hicase] at hpath
      refine ⟨b, _, _, _, hstart, hrun, Or.inr ⟨?_, rfl, rfl⟩⟩
      -- the scan has met EOF, and no character of the file is read as EOF
      have hend : content.length ≤ m + (pat.length - 1) := by
        by_contra hlt
        have hmem : fileChar content (m + (pat.length - 1)) ∈ content := by
          rw [fileChar, List.getD_eq_getElem _ _ (by omega)]
          exact List.getElem_mem _
        exact hfile _ hmem heof
      intro m' hm'
      rcases Nat.lt_or_ge m' m with hlt | hge
      · exact not_occurs_of_windows hstray hpath m' hm' hlt
      · exact not_occursAt_of_eof hok.pos hend hge
  | @stray m hpath hnot hchar =>
      rw [hicase] at hpath hnot
      -- the bad-character table has no place for it, and `NoStray` excludes it
      exact absurd hchar (hstray m hpath hnot).1

theorem noStray_of_scannable (hpat : ∀ c ∈ pat, Scannable c)
    (hfile : ∀ c ∈ content, c ≠ printableHigh) : NoStray pat content p0 := by
  intro m _ _
  refine ⟨?_, fun hc => (hpat _ (List.mem_of_mem_dropLast hc)).1⟩
  intro hchar
  have hlt : m + (pat.length - 1) < content.length := by
    apply lt_of_fileChar_ne
    rw [hchar]
    decide
  refine absurd hchar (hfile _ ?_)
  rw [fileChar, List.getD_eq_getElem _ _ hlt]
  exact List.getElem_mem _

theorem bmh_scannable {tm : Threads} {start : Except Fault Bmh}
    (hpat : ∀ c ∈ pat, Scannable c) (hpos : 0 < pat.length) (hle : pat.length ≤ bufsize)
    (hfile : ∀ c ∈ content, c ≠ eofChar ∧ c ≠ printableHigh) (hicase : tm.icase = false)
    (h : Begun pat pat.length content p0 start) :
    ∃ b ret tm' b', start = .ok b ∧ b.bmh tm = .ok (ret, tm', b') ∧
      Scans (OccursAt pat content) pat.length p0 tm ret tm' :=
  bmh_scans (patternOk_of_scannable hpat hpos hle) (fun c hc => (hfile c hc).1)
    (noStray_of_scannable hpat fun c hc => (hfile c hc).2) hicase h

/-- `bmh`, started at `p0`, finds the first occurrence of its pattern there or
behind. -/
theorem bmh_first {tm : Threads} {start : Except Fault Bmh}
    (hpat : ∀ c ∈ pat, Scannable c) (hpos : 0 < pat.length) (hle : pat.length ≤ bufsize)
    (hfile : ∀ c ∈ content, c ≠ eofChar ∧ c ≠ printableHigh) (hicase : tm.icase = false)
    (h : Begun pat pat.length content p0 start) :
    ∃ b ret tm' b', start = .ok b ∧ b.bmh tm = .ok (ret, tm', b') ∧
      FindsFirst (OccursAt pat content) pat.length p0 tm ret tm' := by
  rcases bmh_scannable hpat hpos hle hfile hicase h with ⟨b, ret, tm', b', hstart, hrun, hscans⟩
  exact ⟨b, ret, tm', b', hstart, hrun, hscans.findsFirst⟩

/-- The pattern `ab` in the file `xab`, from the start. -/
theorem bmh_first_ab : ∃ b ret tm' b',
    Bmh.zero.bmhInit { content := [120, 97, 98], offset := 0 } [97, 98] 2 = .ok b ∧
      b.bmh Threads.zero = .ok (ret, tm', b') ∧
      FindsFirst (OccursAt [97, 98] [120, 97, 98]) 2 0 Threads.zero ret tm' :=
  bmh_first (by unfold Scannable; decide +kernel) (by decide) (by decide) (by decide +kernel) rfl
    (Begun.init Reachable.zero)

/-! ## Up to letter case -/

/-- The piece of the file at `m` is the pattern up to letter case. -/
def SameUpToCase (pat content : List CChar) (m : Nat) : Prop :=
  m + pat.length ≤ content.length ∧
    ∀ i < pat.length, lower (at' content (m + i)) = lower (at' pat i)

theorem lower_letter_ne_eof {c : CChar} (hc : isLetter c = true) : lower eofChar ≠ lower c := by
  have heof : eofChar.toInt = -1 := by decide
  rw [isLetter_iff] at hc
  rw [Ne, ← Int8.toInt_inj, lower_toInt, lower_toInt, heof]
  split <;> split <;> omega

theorem windowMatches_case_iff (hpat : ∀ c ∈ pat, isLetter c = true) (hpos : 0 < pat.length)
    (hfile : ∀ c ∈ content, isLetter c = true ∨ c = chr ' ' ∨ c = newline) {m : Nat} :
    WindowMatches true pat pat.length content m ↔ SameUpToCase pat content m := by
  have hletter : ∀ i < pat.length, isLetter (at' pat i) = true := by
    intro i hi
    rw [at'_of_lt hi]
    exact hpat _ (List.getElem_mem hi)
  have hchar : ∀ k, isLetter (fileChar content k) = true ∨ (fileChar content k).toInt ≤ 32 := by
    intro k
    by_cases hk : k < content.length
    · have hmem : fileChar content k ∈ content := by
        rw [fileChar, List.getD_eq_getElem _ _ hk]
        exact List.getElem_mem _
      rcases hfile _ hmem with h | h | h
      · exact Or.inl h
      · exact Or.inr (by rw [h]; decide)
      · exact Or.inr (by rw [h]; decide)
    · rw [fileChar_of_ge (by omega)]
      exact Or.inr (by decide)
  have hsame : ∀ i < pat.length, charMatch true (fileChar content (m + i)) (at' pat i) = true ↔
      lower (fileChar content (m + i)) = lower (at' pat i) := fun i hi =>
    charMatch_letter (hchar _) (hletter i hi)
  constructor
  · intro h
    -- behind the end every character reads as EOF, which is no letter
    have hinside : m + pat.length ≤ content.length := by
      by_contra hlt
      have hlast := (hsame (pat.length - 1) (by omega)).mp (h (pat.length - 1) (by omega))
      rw [fileChar_of_ge (by omega)] at hlast
      exact lower_letter_ne_eof (hletter _ (by omega)) hlast
    refine ⟨hinside, ?_⟩
    intro i hi
    rw [← fileChar_of_lt (by omega)]
    exact (hsame i hi).mp (h i hi)
  · rintro ⟨hinside, h⟩ i hi
    apply (hsame i hi).mpr
    rw [fileChar_of_lt (by omega)]
    exact h i hi

/-- Of two windows `bmh` does not go on from it gets to one only. -/
theorem windows_unique {icase : Bool} {length m a b : Nat}
    (ha : Windows icase pat length content m a) (hb : Windows icase pat length content m b)
    (hsa : ∀ m', ¬ NextWindow icase pat length content a m')
    (hsb : ∀ m', ¬ NextWindow icase pat length content b m') : a = b := by
  have hunique : Relator.RightUnique (NextWindow icase pat length content) := by
    intro x y z hy hz
    exact hy.unique hz
  rcases ReflTransGen.total_of_right_unique hunique ha hb with h | h
  · cases h using ReflTransGen.head_induction_on with
    | refl => rfl
    | head hstep _ => exact absurd hstep (hsa _)
  · cases h using ReflTransGen.head_induction_on with
    | refl => rfl
    | head hstep _ => exact absurd hstep (hsb _)

theorem stuck_of_match {icase : Bool} {length m : Nat}
    (h : WindowMatches icase pat length content m) (m' : Nat) :
    ¬ NextWindow icase pat length content m m' := fun hstep => hstep.2.1 h

theorem stuck_of_stop {icase : Bool} {length m : Nat}
    (h : Stops (fileChar content (m + (length - 1)))) (m' : Nat) :
    ¬ NextWindow icase pat length content m m' := fun hstep => hstep.1 h

/-- With `RXVM_ICASE`, `bmh` finds the first occurrence up to case exactly if
its windows come to it. -/
theorem bmh_icase_iff {tm : Threads} {start : Except Fault Bmh}
    (hpat : ∀ c ∈ pat, isLetter c = true) (hpos : 0 < pat.length) (hle : pat.length ≤ bufsize)
    (hfile : ∀ c ∈ content, isLetter c = true ∨ c = chr ' ' ∨ c = newline)
    (hicase : tm.icase = true) (h : Begun pat pat.length content p0 start) :
    ∃ b ret tm' b', start = .ok b ∧ b.bmh tm = .ok (ret, tm', b') ∧
      (FindsFirst (SameUpToCase pat content) pat.length p0 tm ret tm' ↔
        ∀ m, FirstAt (SameUpToCase pat content) p0 m →
          Windows true pat pat.length content p0 m) := by
  -- letters can be scanned; they lie in the printable range below its high end
  have hscannable : ∀ {c : CChar}, isLetter c = true → Scannable c := by
    intro c hc
    rw [isLetter_iff] at hc
    have h1 : printableLow.toInt = 32 := by decide
    have h2 : printableHigh.toInt = 126 := by decide
    refine ⟨?_, ?_⟩
    · simp only [isprintable, Bool.or_eq_true, Bool.and_eq_true, decide_eq_true_eq,
        Int8.le_iff_toInt_le, h1, h2]
      omega
    · rintro rfl
      omega
  have hok := patternOk_of_scannable (fun c hc => hscannable (hpat c hc)) hpos hle
  have hsame : ∀ {m : Nat}, WindowMatches true pat pat.length content m ↔
      SameUpToCase pat content m := windowMatches_case_iff hpat hpos hfile
  rcases h.start hok with ⟨b, hstart, hb⟩
  have hscan := hb.bmh tm
  revert hscan
  generalize hrun : b.bmh tm = result
  intro hscan
  cases hscan with
  | @found m base b' hpath hat hmatch =>
      rw [hicase] at hpath hmatch
      refine ⟨b, _, _, _, hstart, hrun, ?_⟩
      -- if it finds the first one, its windows have come there
      constructor
      · rintro (⟨m₁, hfirst, _, hm₁, _⟩ | ⟨hnone, _⟩) m₂ hfirst₂
        · obtain rfl : m = m₁ := hm₁
          rw [hfirst₂.unique hfirst]
          exact hpath
        · exact absurd hfirst₂.2.1 (hnone m₂ hfirst₂.1)
      · -- two ways through the windows that both stop stop at the same place
        intro hall
        rcases exists_firstAt (windows_le hpath) (hsame.mp hmatch) with ⟨m₁, hfirst⟩
        have heq : m₁ = m := windows_unique (hall m₁ hfirst) hpath
          (stuck_of_match (hsame.mpr hfirst.2.1)) (stuck_of_match hmatch)
        rw [heq] at hfirst
        exact Or.inl ⟨m, hfirst, rfl, rfl, rfl⟩
  | @missed m b' hpath heof =>
      rw [hicase] at hpath
      refine ⟨b, _, _, _, hstart, hrun, ?_⟩
      constructor
      · rintro (⟨_, _, hret, _⟩ | ⟨hnone, _⟩) m₂ hfirst₂
        · cases hret
        · exact absurd hfirst₂.2.1 (hnone m₂ hfirst₂.1)
      · -- a first occurrence would be the window that ran into the end of the file
        intro hall
        refine Or.inr ⟨?_, rfl, rfl⟩
        intro m₁ hm₁ hocc
        rcases exists_firstAt hm₁ hocc with ⟨m₂, hfirst⟩
        have heq : m₂ = m := windows_unique (hall m₂ hfirst) hpath
          (stuck_of_match (hsame.mpr hfirst.2.1)) (stuck_of_stop (Or.inl heof))
        -- then the last letter of the pattern matches `EOF`
        have hlast := (hsame.mpr hfirst.2.1) (pat.length - 1) (by omega)
        have hletter : isLetter (at' pat (pat.length - 1)) = true := by
          rw [at'_of_lt (by omega)]
          exact hpat _ (List.getElem_mem _)
        rw [heq, heof] at hlast
        exact lower_letter_ne_eof hletter
          ((charMatch_letter (Or.inr (by decide)) hletter).mp hlast)
  | @stray m hpath hnot hchar =>
      -- no character of the file is `~`
      exfalso
      have hlt : m + (pat.length - 1) < content.length := by
        apply lt_of_fileChar_ne
        rw [hchar]
        decide
      have hmem : fileChar content (m + (pat.length - 1)) ∈ content := by
        rw [fileChar, List.getD_eq_getElem _ _ hlt]
        exact List.getElem_mem _
      rw [hchar] at hmem
      have := hfile _ hmem
      revert this
      decide

/-- The pattern `ab` in the file `xaB`. -/
theorem bmh_icase_iff_ab : ∃ b ret tm' b',
    Bmh.zero.bmhInit { content := [120, 97, 66], offset := 0 } [97, 98] 2 = .ok b ∧
      b.bmh { Threads.zero with icase := true } = .ok (ret, tm', b') ∧
      FindsFirst (SameUpToCase [97, 98] [120, 97, 66]) 2 0 { Threads.zero with icase := true }
        ret tm' := by
  rcases @bmh_icase_iff [97, 98] [120, 97, 66] _ { Threads.zero with icase := true } _
    (by decide +kernel) (by decide) (by decide) (by decide +kernel) rfl
    (Begun.init Reachable.zero) with ⟨b, ret, tm', b', hinit, hrun, hiff⟩
  refine ⟨b, ret, tm', b', hinit, hrun, hiff.mpr ?_⟩
  rintro m ⟨_, ⟨hle, _⟩, hfirst⟩
  -- the window at 0 ends with `a`, and the next one is the pattern
  have hone : SameUpToCase [97, 98] [120, 97, 66] 1 := by
    unfold SameUpToCase
    decide
  have hzero : ¬ WindowMatches true [97, 98] 2 [120, 97, 66] 0 := by
    intro h
    exact absurd (h 0 (by decide)) (by decide)
  have hm : m ≤ 1 := by
    by_contra hlt
    exact hfirst 1 (Nat.zero_le 1) (by omega) hone
  rcases Nat.le_one_iff_eq_zero_or_eq_one.mp hm with rfl | rfl
  · exact .refl
  · exact .single ⟨by unfold Stops; decide +kernel, hzero, by decide⟩

/-- The pattern `ab` is not found in the file `xAB`: the window `xA` is moved
by two characters, since `A` is not in the pattern. -/
theorem bmh_icase_misses : ∃ b ret tm' b',
    Bmh.zero.bmhInit { content := [120, 65, 66], offset := 0 } [97, 98] 2 = .ok b ∧
      b.bmh { Threads.zero with icase := true } = .ok (ret, tm', b') ∧
      ¬ FindsFirst (SameUpToCase [97, 98] [120, 65, 66]) 2 0
        { Threads.zero with icase := true } ret tm' := by
  refine ⟨_, _, _, _, rfl, rfl, ?_⟩
  rintro (⟨_, _, hret, _⟩ | ⟨hnone, _⟩)
  · cases hret
  · refine hnone 1 (Nat.zero_le 1) ⟨by decide, ?_⟩
    intro i hi
    have hi' : i = 0 ∨ i = 1 := by
      simp only [List.length_cons, List.length_nil] at hi
      omega
    rcases hi' with rfl | rfl
    · decide
    · decide

/-! ## The subscripts -/

/-- The scan runs to its end: every subscript is inside its array. -/
def InRange (start : Except Fault Bmh) (tm : Threads) : Prop :=
  ∃ b result, start = .ok b ∧ b.bmh tm = .ok result

/-- A pattern that has been entered is not empty, and has no character without
an entry but its last. -/
theorem enter_inTable {length : Nat} {t : Nat → Nat} (h32 : length < 4294967296)
    (h : Bmh.enter pat length (u32 ((length : Int) - 1)) 0 (fun _ => length) = .ok t) :
    0 < length ∧ ∀ i < length - 1, InTable (at' pat i) := by
  have hpos : 0 < length := by
    by_contra h0
    obtain rfl : length = 0 := by omega
    have hleft : u32 (((0 : Nat) : Int) - 1) = 4294967294 + 1 := by decide
    rw [hleft, Bmh.enter, if_neg (Nat.lt_irrefl 0)] at h
    cases h
  refine ⟨hpos, ?_⟩
  intro i hi
  by_contra hin
  have hleft : u32 ((length : Int) - 1) = length - 1 := u32_eq (by omega) (by omega)
  rw [hleft, enter_fails (length - 1) 0 _ (by omega) ⟨i, Nat.zero_le i, by omega, hin⟩] at h
  cases h

theorem skip_stray {b : Bmh} {num : Nat} (hend : b.bufEnd ≤ bufsize)
    (hendix : b.endix = u32 ((b.bufEnd : Int) - 1)) (hpos : b.pos = 0)
    (hnum : num = b.plen - 1) (hpendix : b.pendix = num) (hlong : bufsize < b.plen)
    (h32 : b.plen < 4294967296) : b.skip num = .error .bmhbuf := by
  have hbuf : bufsize = 8192 := rfl
  have htotal : u32 ((b.pos : Int) + num) = num := u32_eq (by omega) (by omega)
  unfold Bmh.skip
  simp only [htotal]
  by_cases hfill : num > b.endix
  -- not all of the pattern fits: the buffer is filled, and the read is behind it
  · have hne : 0 < b.bufEnd := by
      by_contra h0
      have h0' : b.bufEnd = 0 := by omega
      rw [h0'] at hendix
      have hmax : u32 (((0 : Nat) : Int) - 1) = 4294967295 := by decide
      rw [hmax] at hendix
      omega
    have hendix' : b.endix = b.bufEnd - 1 := by
      rw [hendix]
      exact u32_eq (by omega) (by omega)
    have hover : u32 ((num : Int) - b.endix) = num + 1 - b.bufEnd :=
      u32_eq (by omega) (by omega)
    have hbackup : u32 ((b.plen : Int) - u32 ((num : Int) - b.endix)) = b.bufEnd := by
      rw [hover]
      exact u32_eq (by omega) (by omega)
    rcases fill_ok (b := b) (Nat.le_refl b.bufEnd) hend with ⟨b', hok, hsame, _⟩
    rw [if_pos hfill, hbackup, hok]
    have hget : ∀ b'' : Bmh, b''.getBuf b'.pendix = .error .bmhbuf := by
      intro b''
      rw [Bmh.getBuf, if_neg]
      rw [hsame.pendix]
      omega
    simp only [bind, Except.bind, hget]
  · rw [if_neg hfill]
    have hget : ∀ b'' : Bmh, b''.getBuf num = .error .bmhbuf := by
      intro b''
      rw [Bmh.getBuf, if_neg]
      omega
    simp only [bind, Except.bind, hget]

/-- A pattern longer than the buffer reads behind it. -/
theorem reset_stray {b b' : Bmh} {tm : Threads} (hend : b.bufEnd ≤ bufsize)
    (hlong : bufsize < b.plen) (h32 : b.plen < 4294967296) (h : b.bmhReset = .ok b') :
    b'.bmh tm = .error .bmhbuf := by
  have hpendix : u32 ((b.plen : Int) - 1) = b.plen - 1 := u32_eq (by omega) (by omega)
  rcases @fill_ok { b with pos := 0, pendix := u32 ((b.plen : Int) - 1) } 0
    (Nat.zero_le _) hend with ⟨b'', hfill, hsame, hpos, _, hendix, _⟩
  obtain rfl : b'' = b' := by
    unfold Bmh.bmhReset at h
    rw [hfill] at h
    exact Except.ok.inj h
  have hend' := (reset_kept h).end_le hend
  have hplen : b''.plen = b.plen := hsame.plen
  have hpendix' : b''.pendix = b''.plen - 1 := by
    rw [hplen]
    exact hsame.pendix.trans hpendix
  have hskip := skip_stray hend' hendix hpos hpendix' rfl (by omega) (by omega)
  unfold Bmh.bmh Bmh.bmhLoop
  simp only [hskip, bind, Except.bind]

/-- A scan that runs to its end has a pattern that fits. -/
theorem InRange.patternOk {length : Nat} {start : Except Fault Bmh} {tm : Threads}
    (h32 : length < 4294967296) (hbegun : Begun pat length content p0 start)
    (h : InRange start tm) : PatternOk pat length := by
  rcases h with ⟨b, result, hstart, hrun⟩
  have key : ∀ (b₀ : Bmh) (t : Nat → Nat), b₀.bufEnd ≤ bufsize → b₀.plen = length →
      Bmh.enter pat length (u32 ((length : Int) - 1)) 0 (fun _ => length) = .ok t →
      b₀.bmhReset = .ok b → PatternOk pat length := by
    intro b₀ t hend hplen henter hreset
    rcases enter_inTable h32 henter with ⟨hpos, hin⟩
    refine ⟨hpos, ?_, hin⟩
    by_contra hlong
    rw [reset_stray hend (by omega) (by omega) hreset] at hrun
    cases hrun
  cases hbegun with
  | init hreach =>
      rcases bmhInit_split hstart with ⟨t, henter, hreset⟩
      have hend := hreach.end_le
      exact key _ t (by exact hend) (by rfl) henter hreset
  | @reset b₁ hstarted =>
      rcases hstarted.keeps with ⟨hend, hplen, _, henter⟩
      exact key { b₁ with fp := { content := content, offset := p0 } } _ hend hplen henter hstart

theorem handed_lt {compiled : Compiled} {length : Nat} (h : handed compiled = some (pat, length)) :
    length < 4294967296 := by
  have hu32 : ∀ z : Int, u32 z < 4294967296 := by
    intro z
    simp only [u32]
    omega
  unfold handed at h
  cases hsimple : compiled.simple with
  | some text =>
      rw [hsimple] at h
      cases h
      exact hu32 _
  | none =>
      rw [hsimple] at h
      cases hlfix : compiled.lfix with
      | none =>
          rw [hlfix] at h
          cases h
      | some lfix =>
          rw [hlfix] at h
          cases h
          exact hu32 _

/-- The scanner stays inside its arrays exactly if the pattern fits, and each
window it comes to that ends with `~` matches. -/
theorem bmh_inRange_iff {compiled : Compiled} {length : Nat} {start : Except Fault Bmh}
    {tm : Threads} (hhanded : handed compiled = some (pat, length))
    (hbegun : Begun pat length content p0 start) :
    InRange start tm ↔ PatternOk pat length ∧
      ∀ m, Windows tm.icase pat length content p0 m →
        fileChar content (m + (length - 1)) = printableHigh →
          WindowMatches tm.icase pat length content m := by
  constructor
  · intro h
    have hok := h.patternOk (handed_lt hhanded) hbegun
    refine ⟨hok, ?_⟩
    intro m hm hchar
    rcases h with ⟨b, result, hstart, hrun⟩
    rcases hbegun.start hok with ⟨b', hstart', hb⟩
    rw [hstart] at hstart'
    cases hstart'
    have hscan := hb.bmh tm
    rw [hrun] at hscan
    have hstuck : ∀ m', ¬ NextWindow tm.icase pat length content m m' :=
      stuck_of_stop (Or.inr hchar)
    generalize hresult : (Except.ok result : Except Fault (Int × Threads × Bmh)) = r at hscan
    -- the scan has ended in range, so the window it ended at is not the stray one
    cases hscan with
    | found hpath _ hmatch =>
        rw [windows_unique hm hpath hstuck (stuck_of_match hmatch)]
        exact hmatch
    | missed hpath heof =>
        rw [windows_unique hm hpath hstuck (stuck_of_stop (Or.inl heof)), heof] at hchar
        exact absurd hchar (by decide)
    | stray => cases hresult
  -- and a scan that ends out of range ends at a window that does not match
  · rintro ⟨hok, hall⟩
    rcases hbegun.start hok with ⟨b, hstart, hb⟩
    have hscan := hb.bmh tm
    revert hscan
    generalize hrun : b.bmh tm = result
    intro hscan
    cases hscan with
    | found => exact ⟨b, _, hstart, hrun⟩
    | missed => exact ⟨b, _, hstart, hrun⟩
    | stray hpath hnot hchar => exact absurd (hall _ hpath hchar) hnot

/-- The literal `ab` and the file `xab`. -/
theorem bmh_inRange_iff_ab : InRange
    (Bmh.zero.bmhInit { content := [120, 97, 98], offset := 0 } [97, 98] 2) Threads.zero := by
  have hhanded : handed { exe := [], simple := some [97, 98], lfix := none, lfix0 := 0, lfixn := 0 } =
      some ([97, 98], 2) := by decide
  refine (bmh_inRange_iff hhanded (Begun.init Reachable.zero)).mpr ⟨⟨by decide, by decide, by decide⟩, ?_⟩
  intro m _ hchar
  -- no window ends with `~`
  have hall : ∀ k < 3, fileChar [120, 97, 98] k ≠ printableHigh := by decide +kernel
  rcases Nat.lt_or_ge (m + (2 - 1)) 3 with hlt | hge
  · exact absurd hchar (hall _ hlt)
  · rw [fileChar_of_ge hge] at hchar
    exact absurd hchar (by decide +kernel)

/-- The literal `ab` and the file `x~`: `badchar[119]` is read. -/
theorem bmh_strays : ∃ compiled g' pat length,
    rxvmCompile Statics.init [97, 98] = .ok (.ok compiled, g') ∧
      handed compiled = some (pat, length) ∧
      ¬ InRange (Bmh.zero.bmhInit { content := [120, 126], offset := 0 } pat length)
        Threads.zero := by
  refine ⟨_, _, _, _, rfl, rfl, ?_⟩
  rintro ⟨b, result, hstart, hrun⟩
  have hfault : ((Bmh.zero.bmhInit { content := [120, 126], offset := 0 } [97, 98] 2).bind
      fun b => (b.bmh Threads.zero).map fun r => r.1) = .error .badchar := rfl
  have hstart' : Bmh.zero.bmhInit { content := [120, 126], offset := 0 } [97, 98] 2 = .ok b := hstart
  rw [hstart'] at hfault
  simp only [Except.bind, hrun] at hfault
  cases hfault

end

end Rxvm
