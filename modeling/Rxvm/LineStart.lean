import Rxvm.FileReads
import Rxvm.Restarts

/-!
# Rxvm.LineStart — where seek_to_start_of_line leaves the file

`seek_to_start_of_line` reads backwards in chunks of `LBUF_SIZE` characters,
counted from the offset it starts at, and scans each chunk forwards. In the
first chunk that holds a newline it stops at the first one, not at the last.
-/

namespace Rxvm

/-! ## The value that is returned -/

/-- The loop of `seek_to_start_of_line`, with its `curr` apart from the offset
of the file: the value it returns, and the file. -/
def seekLineCurr (boundary : Nat) : Nat → Nat → File → Except Fault (Nat × File)
  | 0, _, _ => .error .diverges
  | fuel + 1, curr, fp => do
    if curr > boundary then
      let seekSize := if curr < lbufSize then curr else lbufSize
      let seekSize :=
        if (curr : Int) - seekSize < boundary then curr - boundary else seekSize
      let (buf, fp) ← readBackwards fp seekSize
      let curr := curr - seekSize
      match firstNewline buf with
      | some i => return (curr + i, fp.seek (fp.offset + i))
      | none => seekLineCurr boundary fuel curr fp
    else return (curr, fp)

/-- `seek_to_start_of_line`: what it returns, and the file it leaves. -/
def seekToStartOfLineRet (fp : File) (boundary : Nat) : Except Fault (Nat × File) :=
  let curr := fp.offset
  if curr = 0 then .ok (0, fp) else seekLineCurr boundary (curr + 1) curr fp

/-- The size of the chunk in front of `curr`. -/
def chunkSize (boundary curr : Nat) : Nat :=
  let seekSize := if curr < lbufSize then curr else lbufSize
  if (curr : Int) - seekSize < boundary then curr - boundary else seekSize

/-! ## Newlines and chunks -/

/-- The largest offset from `boundary` on and in front of `c` that holds a
newline, or `boundary`. -/
inductive LineStart (content : List CChar) (boundary c : Nat) : Nat → Prop
  | newline {p : Nat} (ge : boundary ≤ p) (lt : p < c) (here : at' content p = newline)
      (last : ∀ q, p < q → q < c → at' content q ≠ newline) : LineStart content boundary c p
  | boundary (none : ∀ q, boundary ≤ q → q < c → at' content q ≠ newline) :
      LineStart content boundary c boundary

/-- The number of the chunk of offset `p`, when the chunks are counted from `c`
backwards. -/
def chunkOf (c p : Nat) : Nat := (c - 1 - p) / lbufSize

/-- The last newline in front of `c` is the only one of its chunk. -/
def AloneInChunk (content : List CChar) (boundary c : Nat) : Prop :=
  ∀ p, boundary ≤ p → p < c → at' content p = newline →
    (∀ q, p < q → q < c → at' content q ≠ newline) →
    ∀ q, boundary ≤ q → q < p → at' content q = newline → chunkOf c q ≠ chunkOf c p

/-- What `seek_to_start_of_line` finds: the first newline of the first chunk
that holds one, or `boundary`. -/
inductive ChunkStart (content : List CChar) (boundary c : Nat) : Nat → Prop
  | newline {p : Nat} (ge : boundary ≤ p) (lt : p < c) (here : at' content p = newline)
      (first : ∀ q, boundary ≤ q → q < p → at' content q = newline → chunkOf c q ≠ chunkOf c p)
      (behind : ∀ q, p < q → q < c → at' content q = newline → chunkOf c q = chunkOf c p) :
      ChunkStart content boundary c p
  | boundary (none : ∀ q, boundary ≤ q → q < c → at' content q ≠ newline) :
      ChunkStart content boundary c boundary

section

variable {content : List CChar} {boundary c p : Nat} {fp fp' : File}

theorem LineStart.ge (h : LineStart content boundary c p) : boundary ≤ p := by
  cases h with
  | newline ge _ _ _ => exact ge
  | boundary _ => exact le_rfl

/-- Every stretch with a newline has a last one. -/
theorem exists_last_newline (h : boundary ≤ p ∧ p < c ∧ at' content p = newline) :
    ∃ q, p ≤ q ∧ q < c ∧ at' content q = newline ∧
      ∀ r, q < r → r < c → at' content r ≠ newline := by
  induction hn : c - p using Nat.strong_induction_on generalizing p with
  | _ n ih =>
      by_cases hlast : ∀ r, p < r → r < c → at' content r ≠ newline
      · exact ⟨p, le_rfl, h.2.1, h.2.2, hlast⟩
      · push Not at hlast
        rcases hlast with ⟨r, hlt, hc, hr⟩
        have hn' : c - r < n := by omega
        rcases ih (c - r) hn' ⟨by omega, hc, hr⟩ rfl with ⟨q, hle, hq, hnl, hafter⟩
        exact ⟨q, by omega, hq, hnl, hafter⟩

/-- What is found is the line start exactly when the last newline is alone in
its chunk. -/
theorem ChunkStart.lineStart_iff (h : ChunkStart content boundary c p) :
    LineStart content boundary c p ↔ AloneInChunk content boundary c := by
  rcases h with ⟨hge, hlt, hhere, hfirst, hbehind⟩ | hnone
  swap
  · constructor
    · intro _ q hqge hqlt hq
      exact absurd hq (hnone q hqge hqlt)
    · intro _
      exact .boundary hnone
  constructor
  · intro hstart p' hge' hlt' hnl hlast
    -- two last newlines are the same one
    have hp : p' = p := by
      rcases hstart with ⟨_, _, _, hlast'⟩ | hnone
      · rcases Nat.lt_trichotomy p p' with hgt | heq | hgt
        · exact absurd hnl (hlast' p' hgt hlt')
        · exact heq.symm
        · exact absurd hhere (hlast p hgt hlt)
      · exact absurd hhere (hnone _ hge hlt)
    subst hp
    exact hfirst
  · intro halone
    rcases exists_last_newline ⟨hge, hlt, hhere⟩ with ⟨q, hle, hq, hnl, hlast⟩
    rcases Nat.eq_or_lt_of_le hle with rfl | hgt
    · exact .newline hge hlt hhere hlast
    · -- a later newline would share the chunk
      have hsame := hbehind q hgt hq hnl
      exact absurd hsame.symm (halone q (by omega) hq hnl hlast p hge hgt hhere)

/-! ## One chunk -/

theorem chunkSize_eq (boundary curr : Nat) :
    chunkSize boundary curr = min lbufSize (curr - boundary) ∨
      (curr ≤ boundary ∧ chunkSize boundary curr ≤ curr) := by
  simp only [chunkSize]
  split_ifs <;> omega

theorem chunkSize_of_lt {curr : Nat} (h : boundary < curr) :
    chunkSize boundary curr = min lbufSize (curr - boundary) := by
  rcases chunkSize_eq boundary curr with heq | hle
  · exact heq
  · omega

/-- Reading backwards from inside the file succeeds. -/
theorem readBackwards_ok {size : Nat} (h : WithinFile content fp) (hsize : size ≤ fp.offset) :
    readBackwards fp size =
      .ok ((content.drop (fp.offset - size)).take size, fp.seek (fp.offset - size)) := by
  have hle := h.le
  have hlen : ((content.drop (fp.offset - size)).take size).length = size := by
    rw [List.length_take, List.length_drop]
    omega
  unfold readBackwards
  rw [if_neg (by omega)]
  simp only [File.fread, File.seek, h.file, hlen, ne_eq, not_true_eq_false, if_false]

theorem readBackwards_offset {size : Nat} {buf : List CChar}
    (h : readBackwards fp size = .ok (buf, fp')) : fp'.offset = fp.offset - size := by
  unfold readBackwards at h
  by_cases hsize : fp.offset < size
  · rw [if_pos hsize] at h
    cases h
  rw [if_neg hsize] at h
  by_cases hlen : ((fp.seek (fp.offset - size)).fread size).1.length ≠ size
  · simp only [if_pos hlen] at h
    cases h
  · simp only [if_neg hlen] at h
    cases h
    rfl

theorem firstNewline_none {buf : List CChar} (h : firstNewline buf = none) {i : Nat}
    (hi : i < buf.length) : at' buf i ≠ newline := by
  have hall := List.findIdx?_eq_none_iff.mp h (at' buf i) (at'_mem hi)
  simpa using hall

theorem firstNewline_some {buf : List CChar} {i : Nat} (h : firstNewline buf = some i) :
    i < buf.length ∧ at' buf i = newline ∧ ∀ j < i, at' buf j ≠ newline := by
  rcases List.findIdx?_eq_some_iff_getElem.mp h with ⟨hi, hnl, hfirst⟩
  refine ⟨hi, ?_, ?_⟩
  · rw [at'_of_lt hi]
    simpa using hnl
  · intro j hj
    have hne := hfirst j hj
    rw [at'_of_lt (by omega)]
    simpa using hne

/-! ## The loop -/

/-- The loop has come back from `c` to `curr`, and has met no newline. -/
structure Passed (content : List CChar) (boundary c curr : Nat) : Prop where
  ge : boundary ≤ curr
  le : curr ≤ c
  quiet : ∀ q, curr ≤ q → q < c → at' content q ≠ newline
  whole : lbufSize ∣ c - curr ∨ curr = boundary

theorem Passed.start (h : boundary ≤ c) : Passed content boundary c c where
  ge := h
  le := le_rfl
  quiet := by
    intro q hle hlt
    omega
  whole := Or.inl (by simp)

/-- The offsets of the next chunk have its number. -/
theorem Passed.chunkOf_eq {curr q : Nat} (h : Passed content boundary c curr)
    (hgt : boundary < curr) (hq : curr - chunkSize boundary curr ≤ q) (hlt : q < curr) :
    chunkOf c q = (c - curr) / lbufSize := by
  have hsize := chunkSize_of_lt hgt
  have hle := h.le
  rcases h.whole with ⟨n, hn⟩ | heq
  swap
  · omega
  have h16 : lbufSize = 16 := rfl
  unfold chunkOf
  rw [h16] at hn hsize ⊢
  omega

/-- A chunk without a newline. -/
theorem Passed.skip {curr : Nat} (h : Passed content boundary c curr) (hgt : boundary < curr)
    (hquiet : ∀ q, curr - chunkSize boundary curr ≤ q → q < curr → at' content q ≠ newline) :
    Passed content boundary c (curr - chunkSize boundary curr) := by
  have hsize := chunkSize_of_lt hgt
  have hle := h.le
  constructor
  · omega
  · omega
  · intro q hq hlt
    by_cases hc : q < curr
    · exact hquiet q hq hc
    · exact h.quiet q (by omega) hlt
  · rcases h.whole with ⟨n, hn⟩ | heq
    swap
    · omega
    by_cases hshort : curr - boundary ≤ lbufSize
    · right
      omega
    · left
      refine ⟨n + 1, ?_⟩
      have h16 : lbufSize = 16 := rfl
      rw [h16] at hn hsize hshort ⊢
      omega

/-- A chunk with a newline: the loop stops at the first one. -/
theorem Passed.stop {curr i : Nat} (h : Passed content boundary c curr) (hgt : boundary < curr)
    (hi : i < chunkSize boundary curr)
    (hhere : at' content (curr - chunkSize boundary curr + i) = newline)
    (hfirst : ∀ j < i, at' content (curr - chunkSize boundary curr + j) ≠ newline) :
    ChunkStart content boundary c (curr - chunkSize boundary curr + i) := by
  have hsize := chunkSize_of_lt hgt
  have hle := h.le
  have hnumber := h.chunkOf_eq hgt (Nat.le_add_right _ i) (by omega)
  refine .newline (by omega) (by omega) hhere ?_ ?_
  · intro q hge hlt hq hsame
    by_cases hin : curr - chunkSize boundary curr ≤ q
    · -- in the same chunk, but further in front
      refine hfirst (q - (curr - chunkSize boundary curr)) (by omega) ?_
      rw [Nat.add_sub_cancel' hin]
      exact hq
    · -- in an earlier chunk
      rcases h.whole with ⟨n, hn⟩ | heq
      swap
      · omega
      rw [hnumber] at hsame
      unfold chunkOf at hsame
      have h16 : lbufSize = 16 := rfl
      rw [h16] at hn hsize hsame
      omega
  · intro q hq hlt hnl
    rw [hnumber]
    by_cases hin : q < curr
    · exact h.chunkOf_eq hgt (by omega) hin
    · exact absurd hnl (h.quiet q (by omega) hlt)

/-- The loop finds the first newline of the first chunk that has one. -/
theorem seekLineLoop_chunkStart : ∀ (fuel : Nat) (fp : File), WithinFile content fp →
    Passed content boundary c fp.offset → fp.offset < fuel + boundary →
    ∃ fp', seekLineLoop boundary fuel fp = .ok fp' ∧ WithinFile content fp' ∧
      ChunkStart content boundary c fp'.offset := by
  -- each turn goes one chunk back, so the fuel bounds the way to the boundary
  intro fuel
  induction fuel with
  | zero =>
      intro fp _ hpassed hfuel
      have hge := hpassed.ge
      omega
  | succ fuel ih =>
      intro fp hwithin hpassed hfuel
      unfold seekLineLoop
      by_cases hgt : fp.offset > boundary
      swap
      · -- the boundary is reached
        have heq : fp.offset = boundary := Nat.le_antisymm (Nat.not_lt.mp hgt) hpassed.ge
        rw [if_neg hgt]
        refine ⟨fp, rfl, hwithin, ?_⟩
        rw [heq]
        exact .boundary fun q hge hlt => hpassed.quiet q (heq ▸ hge) hlt
      have hsize := chunkSize_of_lt hgt
      have h16 : lbufSize = 16 := rfl
      have hle := hwithin.le
      have hread := @readBackwards_ok _ _ (chunkSize boundary fp.offset) hwithin (by omega)
      -- what is read is the file from the start of the chunk on
      have hat : ∀ j < chunkSize boundary fp.offset,
          at' ((content.drop (fp.offset - chunkSize boundary fp.offset)).take
            (chunkSize boundary fp.offset)) j =
          at' content (fp.offset - chunkSize boundary fp.offset + j) := by
        intro j hj
        rw [at'_take hj, at'_drop]
      have hlen : ((content.drop (fp.offset - chunkSize boundary fp.offset)).take
          (chunkSize boundary fp.offset)).length = chunkSize boundary fp.offset := by
        rw [List.length_take, List.length_drop]
        omega
      rw [if_pos hgt]
      show ∃ fp', (readBackwards fp (chunkSize boundary fp.offset) >>= _) = .ok fp' ∧ _
      rw [hread]
      rcases hnl : firstNewline ((content.drop (fp.offset - chunkSize boundary fp.offset)).take
        (chunkSize boundary fp.offset)) with _ | i
      · -- no newline in the chunk: it is passed
        have hquiet : ∀ q, fp.offset - chunkSize boundary fp.offset ≤ q → q < fp.offset →
            at' content q ≠ newline := by
          intro q hq hlt
          have hj : q - (fp.offset - chunkSize boundary fp.offset) <
              chunkSize boundary fp.offset := by omega
          have hne := firstNewline_none hnl (i := q - (fp.offset - chunkSize boundary fp.offset))
            (by omega)
          rwa [hat _ hj, Nat.add_sub_cancel' hq] at hne
        simp only [bind, Except.bind, hnl]
        refine ih _ (hwithin.seek (by omega)) (hpassed.skip hgt hquiet) ?_
        show fp.offset - chunkSize boundary fp.offset < fuel + boundary
        omega
      · -- the first newline of the chunk is where the loop stops
        rcases firstNewline_some hnl with ⟨hi, hhere, hfirst⟩
        rw [hlen] at hi
        rw [hat i hi] at hhere
        simp only [bind, Except.bind, hnl]
        have hend : fp.offset - chunkSize boundary fp.offset + i ≤ content.length := by omega
        refine ⟨_, rfl, hwithin.seek hend, ?_⟩
        refine hpassed.stop hgt hi hhere ?_
        intro j hj
        rw [← hat j (by omega)]
        exact hfirst j hj

theorem seekToStartOfLine_chunkStart (h : WithinFile content fp) (hle : boundary ≤ fp.offset) :
    ∃ fp', seekToStartOfLine fp boundary = .ok fp' ∧ WithinFile content fp' ∧
      ChunkStart content boundary fp.offset fp'.offset := by
  unfold seekToStartOfLine
  by_cases hzero : fp.offset = 0
  · rw [if_pos hzero]
    refine ⟨fp, rfl, h, ?_⟩
    obtain rfl : boundary = fp.offset := by omega
    refine .boundary ?_
    intro q _ hlt
    omega
  · rw [if_neg hzero]
    exact seekLineLoop_chunkStart _ fp h (.start hle) (by omega)

/-! ## The returned value -/

theorem seekLineCurr_eq : ∀ (fuel : Nat) (fp : File),
    seekLineCurr boundary fuel fp.offset fp =
      (seekLineLoop boundary fuel fp).map fun fp' => (fp'.offset, fp') := by
  intro fuel
  induction fuel with
  | zero => exact fun _ => rfl
  | succ fuel ih =>
      intro fp
      unfold seekLineCurr seekLineLoop
      by_cases hgt : fp.offset > boundary
      swap
      · rw [if_neg hgt, if_neg hgt]
        rfl
      rw [if_pos hgt, if_pos hgt]
      show (readBackwards fp (chunkSize boundary fp.offset) >>= _) =
        (readBackwards fp (chunkSize boundary fp.offset) >>= _).map _
      rcases hread : readBackwards fp (chunkSize boundary fp.offset) with fault | ⟨buf, fp₁⟩
      · rfl
      have hoffset := readBackwards_offset hread
      simp only [bind, Except.bind]
      rcases hnl : firstNewline buf with _ | i
      · simp only
        have hrun := ih fp₁
        rw [hoffset] at hrun
        exact hrun
      · simp only
        show Except.ok (_, _) = Except.ok (_, _)
        rw [hoffset]
        rfl

/-- It returns the offset it leaves the file at. -/
theorem seekToStartOfLineRet_eq (fp : File) (boundary : Nat) :
    seekToStartOfLineRet fp boundary =
      (seekToStartOfLine fp boundary).map fun fp' => (fp'.offset, fp') := by
  unfold seekToStartOfLineRet seekToStartOfLine
  by_cases hzero : fp.offset = 0
  · simp only [if_pos hzero]
    show Except.ok (0, fp) = Except.ok (fp.offset, fp)
    rw [hzero]
  · simp only [if_neg hzero]
    exact seekLineCurr_eq _ fp

/-! ## The start of the line -/

/-- `seek_to_start_of_line` returns the start of the line, and leaves the file
there. -/
def FindsLineStart (fp : File) (boundary : Nat) : Prop :=
  ∃ p fp', seekToStartOfLineRet fp boundary = .ok (p, fp') ∧ fp'.offset = p ∧ boundary ≤ p ∧
    LineStart fp.content boundary fp.offset p

/-- The start of the line is found exactly when the last newline in front of
the offset is the only one of its chunk, or when there is none. -/
theorem seek_to_line_start_iff (hfile : fp.offset ≤ fp.content.length)
    (hle : boundary ≤ fp.offset) :
    FindsLineStart fp boundary ↔ AloneInChunk fp.content boundary fp.offset := by
  rcases seekToStartOfLine_chunkStart ⟨rfl, hfile⟩ hle with ⟨fp', hseek, _, hstart⟩
  have hrun : seekToStartOfLineRet fp boundary = .ok (fp'.offset, fp') := by
    rw [seekToStartOfLineRet_eq, hseek]
    rfl
  rw [← hstart.lineStart_iff]
  constructor
  · rintro ⟨p, fp₁, hret, _, _, hline⟩
    rw [hrun] at hret
    cases hret
    exact hline
  · intro hline
    exact ⟨_, fp', hrun, rfl, hline.ge, hline⟩

end

/-- The file `a\nbc`, from its end. -/
theorem seek_to_line_start_near : FindsLineStart ⟨[97, 10, 98, 99], 4⟩ 0 := by
  refine (seek_to_line_start_iff (by decide) (by decide)).mpr ?_
  have hone : ∀ p < 4, at' [97, 10, 98, 99] p = newline → p = 1 := by decide
  intro p _ hp hnl _ q _ hq hnl'
  have h1 := hone p hp hnl
  have h2 := hone q (hq.trans hp) hnl'
  omega

/-- Two newlines in one chunk: the file `a\nb\n` is left at offset 1. -/
theorem seek_to_earlier_line :
    seekToStartOfLineRet ⟨[97, 10, 98, 10], 4⟩ 0 = .ok (1, ⟨[97, 10, 98, 10], 1⟩) ∧
      ¬ FindsLineStart ⟨[97, 10, 98, 10], 4⟩ 0 := by
  have hrun : seekToStartOfLineRet ⟨[97, 10, 98, 10], 4⟩ 0 =
      .ok (1, ⟨[97, 10, 98, 10], 1⟩) := by decide
  refine ⟨hrun, ?_⟩
  rintro ⟨p, fp', hret, _, _, hline⟩
  rw [hrun] at hret
  cases hret
  rcases hline with ⟨_, _, _, hlast⟩ | _
  -- the newline at offset 3 stands behind
  exact hlast 3 (by decide) (by decide) (by decide)

end Rxvm
