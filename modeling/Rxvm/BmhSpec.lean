import Mathlib.Data.List.GetD
import Rxvm.Bmh
import Rxvm.Lib.Horspool

/-!
# Rxvm.BmhSpec — what the scanner does with its buffer

The buffer is a window on the file: `Loaded` says that it shows the file from
`base` on, with `EOF` behind the end. `fill` moves the window forward and
`skip` keeps the pattern inside it, so that `bmh` is a scan of the file by
moves of `Horspool.Move`.
-/

namespace Rxvm

open Relation

/-! ## The file as the scanner sees it -/

/-- The character at a position of the file; `EOF` behind its end. -/
def fileChar (content : List CChar) (k : Nat) : CChar := content.getD k eofChar

/-- How far `bmh` moves the pattern over a character that it does not end at. -/
def skipLen (pat : List CChar) (length : Nat) (c : CChar) : Nat :=
  if isprintable c then Horspool.shift (at' pat) length c else length

/-- `bmh` does not go on from a window that ends with `c`: at the end of the
file it returns, and `badchar` has no entry for `~`. -/
def Stops (c : CChar) : Prop := c = eofChar ∨ c = printableHigh

/-- The pattern stands at `m`, as `char_match` compares. -/
def WindowMatches (icase : Bool) (pat : List CChar) (length : Nat) (content : List CChar)
    (m : Nat) : Prop :=
  Horspool.Occurs (fun a b => charMatch icase a b = true) (at' pat) length (fileChar content) m

/-- `bmh` goes on from the window at `m` to the one at `m'`. -/
def NextWindow (icase : Bool) (pat : List CChar) (length : Nat) (content : List CChar) :
    Nat → Nat → Prop :=
  Horspool.Move (fun a b => charMatch icase a b = true) (at' pat) length (fileChar content) Stops
    (skipLen pat length)

/-- The windows `bmh` gets to from `m`. -/
def Windows (icase : Bool) (pat : List CChar) (length : Nat) (content : List CChar) :
    Nat → Nat → Prop :=
  ReflTransGen (NextWindow icase pat length content)

theorem fileChar_of_lt {content : List CChar} {k : Nat} (h : k < content.length) :
    fileChar content k = at' content k := by
  rw [fileChar, at', List.getD_eq_getElem _ _ h, List.getD_eq_getElem _ _ h]

theorem fileChar_of_ge {content : List CChar} {k : Nat} (h : content.length ≤ k) :
    fileChar content k = eofChar := List.getD_eq_default _ _ h

theorem lt_of_fileChar_ne {content : List CChar} {k : Nat} (h : fileChar content k ≠ eofChar) :
    k < content.length := by
  by_contra hge
  exact h (fileChar_of_ge (by omega))

/-! ## fill -/

/-- The buffer shows the file from `base` on. -/
structure Loaded (content : List CChar) (base : Nat) (b : Bmh) : Prop where
  file : b.fp.content = content
  offset : b.fp.offset = base + b.bufEnd
  size : b.bmhbuf.length = bufsize
  end_le : b.bufEnd ≤ bufsize
  same : ∀ i < bufsize, at' b.bmhbuf i = fileChar content (base + i)
  inside : 0 < b.bufEnd → base + b.bufEnd ≤ content.length
  whole : b.bufEnd < bufsize → content.length ≤ base + b.bufEnd
  endix : b.endix = u32 ((b.bufEnd : Int) - 1)

/-- What `fill` and `skip` leave as it is. -/
structure SamePattern (b b' : Bmh) : Prop where
  badchar : b'.badchar = b.badchar
  pattern : b'.pattern = b.pattern
  plen : b'.plen = b.plen
  pendix : b'.pendix = b.pendix

section

variable {content : List CChar} {base : Nat} {b b' : Bmh}

theorem SamePattern.refl (b : Bmh) : SamePattern b b := ⟨rfl, rfl, rfl, rfl⟩

theorem SamePattern.trans {b'' : Bmh} (h : SamePattern b b') (h' : SamePattern b' b'') :
    SamePattern b b'' :=
  ⟨h'.badchar.trans h.badchar, h'.pattern.trans h.pattern, h'.plen.trans h.plen,
    h'.pendix.trans h.pendix⟩

/-- What the buffer holds after `fill`: what was kept, what was read and
`EOF`. -/
theorem fill_same {kept chars : List CChar} {backup i : Nat} (hkept : kept.length = backup)
    (hi : i < bufsize) (hle : backup + chars.length ≤ bufsize) :
    at' (kept ++ chars ++ List.replicate (bufsize - (backup + chars.length)) eofChar) i =
      if i < backup then at' kept i
      else if i < backup + chars.length then at' chars (i - backup) else eofChar := by
  unfold at'
  split
  · next h =>
      rw [List.append_assoc, List.getD_append _ _ _ _ (by omega)]
  · next h =>
      split
      · next h' =>
          rw [List.getD_append _ _ _ _ (by rw [List.length_append]; omega),
            List.getD_append_right _ _ _ _ (by omega), hkept]
      · next h' =>
          rw [List.getD_append_right _ _ _ _ (by rw [List.length_append]; omega),
            List.getD_replicate _ (by rw [List.length_append]; omega)]

theorem at'_drop {l : List CChar} {n i : Nat} : at' (l.drop n) i = at' l (n + i) := by
  simp only [at', List.getD_eq_getElem?_getD, List.getElem?_drop]

theorem fread_length (fp : File) (num : Nat) :
    (fp.fread num).1.length = min num (fp.content.length - fp.offset) := by
  simp [File.fread]

theorem fill_ok {backup : Nat} (hb : backup ≤ b.bufEnd) (hend : b.bufEnd ≤ bufsize) :
    ∃ b', b.fill backup = .ok b' ∧ SamePattern b b' ∧ b'.pos = b.pos ∧
      b'.bufEnd = backup + min (bufsize - backup) (b.fp.content.length - b.fp.offset) ∧
      b'.endix = u32 ((b'.bufEnd : Int) - 1) ∧ b'.fp.content = b.fp.content ∧
      b'.fp.offset = b.fp.offset + min (bufsize - backup) (b.fp.content.length - b.fp.offset) ∧
      b'.bmhbuf = (b.bmhbuf.drop (b.bufEnd - backup)).take backup ++
        (b.fp.fread (bufsize - backup)).1 ++
        List.replicate (bufsize - (backup + (b.fp.fread (bufsize - backup)).1.length)) eofChar := by
  refine ⟨_, if_pos ⟨hb, hend⟩, ⟨rfl, rfl, rfl, rfl⟩, rfl, ?_, rfl, rfl, ?_, rfl⟩
  · have hlen := fread_length b.fp (bufsize - backup)
    have hle : min (bufsize - backup) (b.fp.content.length - b.fp.offset) ≤ bufsize - backup :=
      Nat.min_le_left _ _
    show (if (b.fp.fread (bufsize - backup)).1.length < bufsize - backup then
      backup + (b.fp.fread (bufsize - backup)).1.length else bufsize) = _
    rw [hlen]
    split <;> omega
  · have hlen := fread_length b.fp (bufsize - backup)
    show b.fp.offset + (b.fp.fread (bufsize - backup)).1.length = _
    rw [hlen]

/-- `fill` moves the window forward, `backup` characters of the old one
kept. -/
theorem Loaded.fill {backup : Nat} (h : Loaded content base b) (hb : backup ≤ b.bufEnd) :
    ∃ b', b.fill backup = .ok b' ∧ SamePattern b b' ∧ b'.pos = b.pos ∧
      Loaded content (base + (b.bufEnd - backup)) b' := by
  rcases fill_ok hb h.end_le with ⟨b', hfill, hsame, hpos, hend, hendix, hcontent, hoffset, hbuf⟩
  have hend_le := h.end_le
  have hread := fread_length b.fp (bufsize - backup)
  have hbase := h.offset
  have hmin : min (bufsize - backup) (b.fp.content.length - b.fp.offset) ≤ bufsize - backup :=
    Nat.min_le_left _ _
  have hmin' : min (bufsize - backup) (b.fp.content.length - b.fp.offset) ≤
      b.fp.content.length - b.fp.offset := Nat.min_le_right _ _
  have hkept : ((b.bmhbuf.drop (b.bufEnd - backup)).take backup).length = backup := by
    rw [List.length_take, List.length_drop, h.size]
    omega
  have hle : backup + (b.fp.fread (bufsize - backup)).1.length ≤ bufsize := by
    rw [hread]
    omega
  have hfile := h.file
  have hsize : b.fp.content.length = content.length := by rw [hfile]
  have hwhole := h.whole
  refine ⟨b', hfill, hsame, hpos, hcontent.trans hfile, by omega, ?_, by omega, ?_, ?_, ?_, hendix⟩
  · -- the kept part, the part read and the rest add up to the buffer
    rw [hbuf, List.length_append, List.length_append, hkept, List.length_replicate]
    omega
  · intro i hi
    rw [hbuf, fill_same hkept hi hle]
    split
    · -- kept
      next hlt =>
        rw [at'_take hlt, at'_drop, h.same _ (by omega)]
        congr 1
        omega
    · next hge =>
        split
        · -- read
          next hlt =>
            rw [hread] at hlt
            rw [File.fread, at'_take (by omega), at'_drop, hfile, hbase, fileChar_of_lt (by omega)]
            congr 1
            omega
        · -- behind the end of the file
          next hge' =>
            rw [hread] at hge'
            refine (fileChar_of_ge ?_).symm
            omega
  · -- a window that holds anything holds its end, wherever it stands
    intro hpos
    by_cases hcase : 0 < b.bufEnd
    · have := h.inside hcase
      omega
    · omega
  · intro hlt
    omega

end

/-! ## skip -/

/-- The pattern has been entered. -/
structure Armed (pat : List CChar) (length : Nat) (b : Bmh) : Prop where
  pos : 0 < length
  le : length ≤ bufsize
  plen : b.plen = length
  pattern : b.pattern = pat
  pendix : b.pendix = length - 1
  badchar : ∀ c, 0 ≤ atoindex c → atoindex c < asize →
    b.badchar (atoindex c).toNat = Horspool.shift (at' pat) length c

/-- `skip(num)` is about to move on to the window at `m`. -/
structure BeforeSkip (content pat : List CChar) (length m num base : Nat) (b : Bmh) : Prop where
  loaded : Loaded content base b
  armed : Armed pat length b
  num_le : num ≤ length
  pos_lt : 0 < b.bufEnd → b.pos < b.bufEnd
  fresh : b.bufEnd = 0 → b.pos + num < bufsize
  reach : length ≤ b.pos + num + 1
  target : base + b.pos + num = m + (length - 1)

/-- The window at `m` is in the buffer, and `pos` at its end. -/
structure AtWindow (content pat : List CChar) (length m base : Nat) (b : Bmh) : Prop where
  loaded : Loaded content base b
  armed : Armed pat length b
  pos_ge : length - 1 ≤ b.pos
  pos_lt : b.pos < b.bufEnd
  target : base + b.pos = m + (length - 1)

section

variable {content pat : List CChar} {length m num base : Nat} {b : Bmh}

theorem Armed.same {b' : Bmh} (h : Armed pat length b) (hsame : SamePattern b b') :
    Armed pat length b' :=
  ⟨h.pos, h.le, hsame.plen.trans h.plen, hsame.pattern.trans h.pattern,
    hsame.pendix.trans h.pendix, by rw [hsame.badchar]; exact h.badchar⟩

theorem Loaded.setPos {k : Nat} (h : Loaded content base b) :
    Loaded content base { b with pos := k } :=
  ⟨h.file, h.offset, h.size, h.end_le, h.same, h.inside, h.whole, h.endix⟩

theorem getBuf_ok {k : Nat} (h : Loaded content base b) (hk : k < bufsize) :
    b.getBuf k = .ok (fileChar content (base + k)) := by
  rw [Bmh.getBuf, if_pos hk, h.same k hk]

theorem skip_fill {b' : Bmh} (htotal : u32 ((b.pos : Int) + num) > b.endix)
    (hfill : b.fill (u32 ((b.plen : Int) - u32 ((u32 ((b.pos : Int) + num) : Int) - b.endix))) =
      .ok b') {c : CChar} (hget : ({ b' with pos := b'.pendix } : Bmh).getBuf b'.pendix = .ok c) :
    b.skip num = .ok (c, { b' with pos := b'.pendix }) := by
  unfold Bmh.skip
  simp only [if_pos htotal, hfill, bind, Except.bind]
  rw [hget]
  rfl

theorem skip_move (htotal : ¬ u32 ((b.pos : Int) + num) > b.endix) {c : CChar}
    (hget : ({ b with pos := u32 ((b.pos : Int) + num) } : Bmh).getBuf
      (u32 ((b.pos : Int) + num)) = .ok c) :
    b.skip num = .ok (c, { b with pos := u32 ((b.pos : Int) + num) }) := by
  unfold Bmh.skip
  simp only [if_neg htotal, bind, Except.bind]
  rw [hget]
  rfl

/-- `skip` returns the character at the end of the window it moves to. -/
theorem BeforeSkip.skip (h : BeforeSkip content pat length m num base b) :
    ∃ b' base', b.skip num = .ok (fileChar content (m + (length - 1)), b') ∧
      (fileChar content (m + (length - 1)) ≠ eofChar →
        AtWindow content pat length m base' b') := by
  have hloaded := h.loaded
  have hend := hloaded.end_le
  have hpos := h.armed.pos
  have hle := h.armed.le
  have hnum := h.num_le
  have hreach := h.reach
  have htarget := h.target
  have hbuf : bufsize = 8192 := rfl
  -- no overflow: `pos + num` is at most twice the buffer
  have hpos_le : b.pos + num < 2 * bufsize := by
    rcases Nat.eq_zero_or_pos b.bufEnd with h0 | h1
    · have := h.fresh h0
      omega
    · have := h.pos_lt h1
      omega
  have htotal : u32 ((b.pos : Int) + num) = b.pos + num := u32_eq (by omega) (by omega)
  by_cases hfill : u32 ((b.pos : Int) + num) > b.endix
  · -- the window ends behind the buffer
    -- before the first `fill` the buffer is empty and `endix` is the greatest 32-bit value
    have hne : 0 < b.bufEnd := by
      by_contra h0
      have hendix := hloaded.endix
      have h0' : b.bufEnd = 0 := by omega
      rw [h0'] at hendix
      have hmax : u32 ((0 : Nat) - 1 : Int) = 4294967295 := by decide
      rw [hmax] at hendix
      omega
    have hendix : b.endix = b.bufEnd - 1 := by
      rw [hloaded.endix]
      exact u32_eq (by omega) (by omega)
    have hover : u32 ((u32 ((b.pos : Int) + num) : Int) - b.endix) =
        b.pos + num + 1 - b.bufEnd := by
      rw [htotal, hendix]
      exact u32_eq (by omega) (by omega)
    have hlt := h.pos_lt hne
    have hbackup : u32 ((b.plen : Int) - u32 ((u32 ((b.pos : Int) + num) : Int) - b.endix)) =
        length - (b.pos + num + 1 - b.bufEnd) := by
      rw [hover, h.armed.plen]
      exact u32_eq (by omega) (by omega)
    -- what is kept of the old buffer is the part the new window still needs
    have hkeep : length - (b.pos + num + 1 - b.bufEnd) ≤ b.bufEnd := by omega
    rcases hloaded.fill hkeep with
      ⟨b', hok, hsame, _, hloaded'⟩
    have harmed := h.armed.same hsame
    have hpendix := harmed.pendix
    have hloaded'' := hloaded'.setPos (k := b'.pendix)
    have hget := getBuf_ok hloaded'' (k := b'.pendix) (by omega)
    have hat : base + (b.bufEnd - (length - (b.pos + num + 1 - b.bufEnd))) + b'.pendix =
        m + (length - 1) := by omega
    rw [hat] at hget
    refine ⟨_, base + (b.bufEnd - (length - (b.pos + num + 1 - b.bufEnd))),
      skip_fill hfill (by rw [hbackup]; exact hok) hget, ?_⟩
    -- a character that is not `EOF` lies in the file, so the window does
    intro hc
    have hinside := lt_of_fileChar_ne hc
    refine ⟨hloaded'', ⟨harmed.pos, harmed.le, harmed.plen, harmed.pattern, harmed.pendix,
      harmed.badchar⟩, by simp only; omega, ?_, hat⟩
    have hwhole := hloaded'.whole
    have hend' := hloaded'.end_le
    simp only
    omega
  · -- the window lies in the buffer: only `pos` moves
    have hget := getBuf_ok (hloaded.setPos (k := u32 ((b.pos : Int) + num)))
      (k := u32 ((b.pos : Int) + num)) (by
        rw [htotal]
        rcases Nat.eq_zero_or_pos b.bufEnd with h0 | h1
        · exact h.fresh h0
        · have hendix : b.endix = b.bufEnd - 1 := by
            rw [hloaded.endix]
            exact u32_eq (by omega) (by omega)
          omega)
    have hat : base + u32 ((b.pos : Int) + num) = m + (length - 1) := by
      rw [htotal]
      omega
    rw [hat] at hget
    refine ⟨_, base, skip_move hfill hget, ?_⟩
    intro hc
    have hinside := lt_of_fileChar_ne hc
    refine ⟨hloaded.setPos, ⟨h.armed.pos, h.armed.le, h.armed.plen, h.armed.pattern,
      h.armed.pendix, h.armed.badchar⟩, by simp only; omega, ?_, hat⟩
    have hwhole := hloaded.whole
    have hne : 0 < b.bufEnd := by omega
    have hendix : b.endix = b.bufEnd - 1 := by
      rw [hloaded.endix]
      exact u32_eq (by omega) (by omega)
    simp only
    omega

end

/-! ## The scan -/

section

variable {content pat : List CChar} {length m base : Nat} {b : Bmh}

theorem compareAt_ok (icase : Bool) (h : AtWindow content pat length m base b) {i : Nat} (hi : i < length) :
    b.compareAt icase i =
      .ok (charMatch icase (fileChar content (m + i)) (at' pat i)) := by
  have hpos := h.pos_ge
  have hlt := h.pos_lt
  have hend := h.loaded.end_le
  have htarget := h.target
  have hpendix := h.armed.pendix
  have hbuf : bufsize = 8192 := rfl
  have hindex : u32 ((b.pos : Int) - b.pendix) + i = b.pos - (length - 1) + i := by
    rw [u32_eq (n := b.pos - (length - 1)) (by omega) (by omega)]
  have hat : base + (b.pos - (length - 1) + i) = m + i := by omega
  have hget := getBuf_ok h.loaded (k := b.pos - (length - 1) + i) (by omega)
  rw [hat] at hget
  have hpattern : b.getPattern i = .ok (at' pat i) := by
    rw [Bmh.getPattern, if_pos (by rw [h.armed.plen]; exact hi), h.armed.pattern]
  unfold Bmh.compareAt
  simp only [hindex, hget, hpattern, bind, Except.bind]
  rfl

/-- The `do` loop compares the window from its end. -/
theorem compare_ok (icase : Bool) (h : AtWindow content pat length m base b) : ∀ (i : Nat), i < length →
    ∃ same, b.compare icase i = .ok same ∧ (same = true ↔
      ∀ j ≤ i, charMatch icase (fileChar content (m + j)) (at' pat j) = true) := by
  intro i
  induction i with
  | zero =>
      intro hi
      refine ⟨_, compareAt_ok icase h hi, ?_⟩
      constructor
      · intro hsame j hj
        obtain rfl : j = 0 := Nat.le_zero.mp hj
        exact hsame
      · intro hall
        exact hall 0 (Nat.le_refl 0)
  | succ i ih =>
      intro hi
      rcases ih (by omega) with ⟨same, hrun, hiff⟩
      unfold Bmh.compare
      simp only [compareAt_ok icase h hi, bind, Except.bind]
      by_cases hlast : charMatch icase (fileChar content (m + (i + 1))) (at' pat (i + 1)) = true
      · refine ⟨same, by rw [if_pos hlast]; exact hrun, ?_⟩
        rw [hiff]
        constructor
        · intro hall j hj
          rcases Nat.le_succ_iff.mp hj with hle | rfl
          · exact hall j hle
          · exact hlast
        · intro hall j hj
          exact hall j (by omega)
      · refine ⟨false, by rw [if_neg hlast]; rfl, ?_⟩
        refine iff_of_false (by simp) ?_
        intro hall
        exact hlast (hall (i + 1) (Nat.le_refl _))

/-- How `bmh` ends that was about to move on to the window at `m`: at the first
window that matches, at the end of the file, or at a window that does not match
and ends with `~`. -/
inductive ScanEnd (content pat : List CChar) (length m : Nat) (tm : Threads) :
    Except Fault (Int × Threads × Bmh) → Prop where
  | found {m' base : Nat} {b : Bmh} (hpath : Windows tm.icase pat length content m m')
      (hat : AtWindow content pat length m' base b)
      (hmatch : WindowMatches tm.icase pat length content m') :
      ScanEnd content pat length m tm
        (.ok (1, { tm with matchStart := m', matchEnd := m' + length + 1 }, b))
  | missed {m' : Nat} {b : Bmh} (hpath : Windows tm.icase pat length content m m')
      (heof : fileChar content (m' + (length - 1)) = eofChar) :
      ScanEnd content pat length m tm (.ok (0, tm, b))
  | stray {m' : Nat} (hpath : Windows tm.icase pat length content m m')
      (hnot : ¬ WindowMatches tm.icase pat length content m')
      (hchar : fileChar content (m' + (length - 1)) = printableHigh) :
      ScanEnd content pat length m tm (.error .badchar)

theorem ScanEnd.head {m' : Nat} {tm : Threads} {result : Except Fault (Int × Threads × Bmh)}
    (hstep : NextWindow tm.icase pat length content m m')
    (h : ScanEnd content pat length m' tm result) : ScanEnd content pat length m tm result := by
  cases h with
  | found hpath hat hmatch => exact .found (.head hstep hpath) hat hmatch
  | missed hpath heof => exact .missed (.head hstep hpath) heof
  | stray hpath hnot hchar => exact .stray (.head hstep hpath) hnot hchar

/-- The characters `badchar` has an entry for, among those looked up. -/
theorem isprintable_index {c : CChar} (hc : c ≠ printableHigh) (h : isprintable c = true) :
    0 ≤ atoindex c ∧ atoindex c < asize := by
  have hne : c.toInt ≠ 126 := fun h126 => hc (Int8.toInt_inj.mp h126)
  have hsize : (asize : Int) = 119 := by decide
  have hlow : wsLow.toInt = 7 := by decide
  simp only [isprintable, Bool.or_eq_true, Bool.and_eq_true, decide_eq_true_eq,
    Int8.le_iff_toInt_le] at h
  have h1 : printableLow.toInt = 32 := by decide
  have h2 : printableHigh.toInt = 126 := by decide
  have h3 : wsHigh.toInt = 13 := by decide
  rw [h1, h2, h3, hlow] at h
  rw [atoindex, hlow, hsize]
  omega

theorem atoindex_printableHigh : ¬ (0 ≤ atoindex printableHigh ∧ atoindex printableHigh < asize) := by
  decide

theorem skipLen_le {c : CChar} : skipLen pat length c ≤ length := by
  unfold skipLen
  split
  · exact Horspool.shift_le
  · exact Nat.le_refl _

theorem skipLen_pos {c : CChar} (h : 0 < length) : 0 < skipLen pat length c := by
  unfold skipLen
  split
  · exact Horspool.shift_pos h
  · exact h

/-- `match_start` and `match_end`, computed back from the offset of the file. -/
theorem AtWindow.offsets (h : AtWindow content pat length m base b) :
    ((b.fp.offset : Int) - 1 - b.pendix - u32 ((b.endix : Int) - b.pos)).toNat = m ∧
      ((b.fp.offset : Int) + 1 - u32 ((b.endix : Int) - b.pos)).toNat = m + length + 1 := by
  have hlt := h.pos_lt
  have hend := h.loaded.end_le
  have hoffset := h.loaded.offset
  have htarget := h.target
  have hpendix := h.armed.pendix
  have hpos := h.armed.pos
  have hbuf : bufsize = 8192 := rfl
  have hendix : b.endix = b.bufEnd - 1 := by
    rw [h.loaded.endix]
    exact u32_eq (by omega) (by omega)
  have hback : u32 ((b.endix : Int) - b.pos) = b.bufEnd - 1 - b.pos := by
    rw [hendix]
    exact u32_eq (by omega) (by omega)
  rw [hback, hoffset, hpendix]
  omega

/-- The look-up of the next distance. -/
theorem AtWindow.nextSkip (h : AtWindow content pat length m base b) {c : CChar}
    (hc : c ≠ printableHigh) : b.nextSkip c = .ok (skipLen pat length c) := by
  unfold Bmh.nextSkip skipLen
  by_cases hp : isprintable c = true
  · rw [if_pos hp, if_pos hp]
    have hindex := isprintable_index hc hp
    rw [Bmh.getBadchar, if_pos hindex, h.armed.badchar c hindex.1 hindex.2]
  · rw [if_neg hp, if_neg hp, h.armed.plen]

theorem bmhLoop_scan : ∀ (fuel m num base : Nat) (b : Bmh) (tm : Threads), 1 ≤ fuel →
    content.length + 1 ≤ m + fuel → BeforeSkip content pat length m num base b →
    ScanEnd content pat length m tm (Bmh.bmhLoop fuel num b tm) := by
  -- the fuel counts the windows left: each move is one character at least
  intro fuel
  induction fuel with
  | zero =>
      intro m num base b tm h1
      omega
  | succ fuel ih =>
      intro m num base b tm _ hfuel h
      rcases h.skip with ⟨b', base', hskip, hwindow⟩
      unfold Bmh.bmhLoop
      simp only [hskip, bind, Except.bind]
      set c := fileChar content (m + (length - 1)) with hc
      -- `skip` ran into the end of the file
      by_cases heof : c = eofChar
      · rw [if_pos heof]
        exact .missed .refl heof
      rw [if_neg heof]
      have hat := hwindow heof
      have hpos := h.armed.pos
      have hpendix : b'.pendix < length := by
        rw [hat.armed.pendix]
        omega
      rcases compare_ok tm.icase hat b'.pendix hpendix with ⟨same, hcompare, hiff⟩
      -- the loop compares from the end of the window down to its start
      have hmatches : same = true ↔ WindowMatches tm.icase pat length content m := by
        rw [hiff, hat.armed.pendix]
        constructor
        · intro hall i hi
          exact hall i (by omega)
        · intro hall i hi
          exact hall i (by omega)
      rw [hcompare]
      by_cases hsame : same = true
      · simp only [if_pos hsame]
        rcases hat.offsets with ⟨hstart, hend⟩
        rw [hstart, hend]
        exact .found .refl hat (hmatches.mp hsame)
      · simp only [if_neg hsame]
        have hnot : ¬ WindowMatches tm.icase pat length content m := fun hm => hsame (hmatches.mpr hm)
        by_cases hhigh : c = printableHigh
        · -- `badchar` is read behind its end
          have hbad : b'.nextSkip c = .error .badchar := by
            rw [hhigh, Bmh.nextSkip, if_pos (by decide), Bmh.getBadchar,
              if_neg atoindex_printableHigh]
          rw [hbad]
          exact .stray .refl hnot hhigh
        · -- the next window starts `skipLen` further on
          rw [hat.nextSkip hhigh]
          have hstep : NextWindow tm.icase pat length content m (m + skipLen pat length c) :=
            ⟨fun hstop => hstop.elim heof hhigh, hnot, rfl⟩
          have hle : skipLen pat length c ≤ length := skipLen_le
          have hlow : 0 < skipLen pat length c := skipLen_pos hpos
          have hinside := lt_of_fileChar_ne heof
          have hbefore : BeforeSkip content pat length (m + skipLen pat length c)
              (skipLen pat length c) base' b' := by
            have hge := hat.pos_ge
            have hlt := hat.pos_lt
            have htarget := hat.target
            exact ⟨hat.loaded, hat.armed, hle, fun _ => hlt, by omega, by omega, by omega⟩
          exact (ih _ _ base' b' tm (by omega) (by omega) hbefore).head hstep

end

/-! ## bmh_init and bmh_reset -/

/-- The character has an entry in `badchar`. -/
def InTable (c : CChar) : Prop := 0 ≤ atoindex c ∧ atoindex c < asize

instance (c : CChar) : Decidable (InTable c) := inferInstanceAs (Decidable (_ ∧ _))

/-- A pattern the scanner can be given: not empty, not longer than the buffer,
and with an entry for each character but the last, which is not entered. -/
structure PatternOk (pat : List CChar) (length : Nat) : Prop where
  pos : 0 < length
  le : length ≤ bufsize
  inTable : ∀ i < length - 1, InTable (at' pat i)

/-- The statics after a reset at `p0`. -/
def Start (content pat : List CChar) (length p0 : Nat) (b : Bmh) : Prop :=
  BeforeSkip content pat length p0 (length - 1) p0 b

section

variable {content pat : List CChar} {length : Nat} {b b' : Bmh} {file : File}

theorem atoindex_inj {a c : CChar} (ha : InTable a) (hc : InTable c)
    (h : (atoindex a).toNat = (atoindex c).toNat) : a = c := by
  rcases ha with ⟨ha, _⟩
  rcases hc with ⟨hc, _⟩
  apply Int8.toInt_inj.mp
  simp only [atoindex] at ha hc h
  omega

theorem enter_succ {left i : Nat} {t : Nat → Nat} (hi : i < length) (hin : InTable (at' pat i)) :
    Bmh.enter pat length (left + 1) i t = Bmh.enter pat length left (i + 1)
      (Function.update t (atoindex (at' pat i)).toNat (u32 ((length : Int) - i - 1))) := by
  rw [Bmh.enter, if_pos hi]
  exact if_pos hin

theorem enter_stray {left i : Nat} {t : Nat → Nat} (hi : i < length)
    (hin : ¬ InTable (at' pat i)) : Bmh.enter pat length (left + 1) i t = .error .badchar := by
  rw [Bmh.enter, if_pos hi]
  exact if_neg hin

/-- The entry for `c` that the loop leaves. -/
theorem enter_ok (hlen : length < 4294967296) : ∀ (left i : Nat) (t : Nat → Nat),
    i + left ≤ length → (∀ j, i ≤ j → j < i + left → InTable (at' pat j)) →
    ∃ t', Bmh.enter pat length left i t = .ok t' ∧ ∀ c, InTable c →
      t' (atoindex c).toNat = (List.range' i left).foldl
        (fun d j => if at' pat j = c then length - j - 1 else d) (t (atoindex c).toNat) := by
  intro left
  induction left with
  | zero =>
      intro i t _ _
      exact ⟨t, rfl, fun c _ => rfl⟩
  | succ left ih =>
      intro i t hle hall
      have hin := hall i (Nat.le_refl i) (by omega)
      rw [enter_succ (by omega) hin]
      rcases ih (i + 1) _ (by omega) (fun j h1 h2 => hall j (by omega) (by omega)) with
        ⟨t', hrun, hentry⟩
      refine ⟨t', hrun, ?_⟩
      intro c hc
      rw [hentry c hc, List.range'_succ, List.foldl_cons]
      congr 1
      by_cases heq : at' pat i = c
      · rw [if_pos heq, heq, Function.update_self]
        exact u32_eq (by omega) (by omega)
      · rw [if_neg heq, Function.update_of_ne]
        intro hindex
        exact heq (atoindex_inj hc hin hindex).symm

theorem enter_fails : ∀ (left i : Nat) (t : Nat → Nat), i + left ≤ length →
    (∃ j, i ≤ j ∧ j < i + left ∧ ¬ InTable (at' pat j)) →
    Bmh.enter pat length left i t = .error .badchar := by
  intro left
  induction left with
  | zero =>
      rintro i t _ ⟨j, h1, h2, _⟩
      omega
  | succ left ih =>
      rintro i t hle ⟨j, h1, h2, hj⟩
      by_cases hin : InTable (at' pat i)
      · rw [enter_succ (by omega) hin]
        refine ih (i + 1) _ (by omega) ⟨j, ?_, by omega, hj⟩
        rcases Nat.eq_or_lt_of_le h1 with rfl | hlt
        · exact absurd hin hj
        · exact hlt
      · exact enter_stray (by omega) hin

/-- The table `bmh_init` fills. -/
theorem enter_table (hlen : length ≤ bufsize) (hpos : 0 < length)
    (hin : ∀ i < length - 1, InTable (at' pat i)) :
    ∃ t, Bmh.enter pat length (u32 ((length : Int) - 1)) 0 (fun _ => length) = .ok t ∧
      ∀ c, InTable c → t (atoindex c).toNat = Horspool.shift (at' pat) length c := by
  have hbuf : bufsize = 8192 := rfl
  rw [u32_eq (n := length - 1) (by omega) (by omega)]
  rcases @enter_ok pat length (by omega) (length - 1) 0 (fun _ => length)
    (by omega) (fun j _ h2 => hin j (by omega)) with ⟨t, hrun, hentry⟩
  refine ⟨t, hrun, ?_⟩
  intro c hc
  rw [hentry c hc, Horspool.shift, List.range_eq_range']

/-- A reset makes the buffer show the file from its offset on. -/
theorem bmhReset_ok (hpos : 0 < length) (hle : length ≤ bufsize) (hplen : b.plen = length)
    (hpattern : b.pattern = pat)
    (hbadchar : ∀ c, InTable c → b.badchar (atoindex c).toNat = Horspool.shift (at' pat) length c)
    (hend : b.bufEnd ≤ bufsize) :
    ∃ b', b.bmhReset = .ok b' ∧ Start b.fp.content pat length b.fp.offset b' := by
  have hbuf : bufsize = 8192 := rfl
  have hpendix : u32 ((b.plen : Int) - 1) = length - 1 := u32_eq (by omega) (by omega)
  rcases @fill_ok { b with pos := 0, pendix := u32 ((b.plen : Int) - 1) } 0
    (Nat.zero_le _) hend with
    ⟨b', hfill, hsame, hpos', hend', hendix, hcontent, hoffset, hcells⟩
  have hread := fread_length b.fp (bufsize - 0)
  have hchars : (b.fp.fread (bufsize - 0)).1 = (b.fp.content.drop b.fp.offset).take bufsize := rfl
  have hmin : min (bufsize - 0) (b.fp.content.length - b.fp.offset) ≤ bufsize :=
    Nat.min_le_left _ _
  have hmin' : min (bufsize - 0) (b.fp.content.length - b.fp.offset) ≤
      b.fp.content.length - b.fp.offset := Nat.min_le_right _ _
  simp only at hend' hcontent hoffset hcells hpos'
  refine ⟨b', hfill, ⟨hcontent, by omega, ?_, by omega, ?_, by omega, by omega, hendix⟩,
    ⟨hpos, hle, hsame.plen.trans hplen, hsame.pattern.trans hpattern,
      hsame.pendix.trans hpendix, ?_⟩, by omega, by omega, by omega, by omega, by omega⟩
  · rw [hcells, List.length_append, List.length_append, List.length_take, List.length_replicate]
    omega
  · intro i hi
    have hnone : ((b.bmhbuf.drop (b.bufEnd - 0)).take 0).length = 0 := by simp
    rw [hcells, fill_same hnone hi (by omega), if_neg (Nat.not_lt_zero i)]
    split
    · next hlt =>
        rw [hchars, Nat.sub_zero, at'_take hi, at'_drop, fileChar_of_lt (by omega)]
    · next hge =>
        exact (fileChar_of_ge (by omega)).symm
  · intro c h1 h2
    rw [hsame.badchar]
    exact hbadchar c ⟨h1, h2⟩

theorem bmhInit_ok (hok : PatternOk pat length) (hend : b.bufEnd ≤ bufsize) :
    ∃ b', b.bmhInit file pat length = .ok b' ∧ Start file.content pat length file.offset b' := by
  rcases enter_table hok.le hok.pos hok.inTable with ⟨t, henter, hentry⟩
  unfold Bmh.bmhInit
  simp only [henter, bind, Except.bind]
  exact bmhReset_ok (b := { b with badchar := t, pattern := pat, fp := file, plen := length })
    hok.pos hok.le rfl rfl hentry hend

/-- The scan from the start. -/
theorem Start.bmh {p0 : Nat} (h : Start content pat length p0 b) (tm : Threads) :
    ScanEnd content pat length p0 tm (b.bmh tm) := by
  have hrun := bmhLoop_scan (content.length + 2) p0 (length - 1) p0 b tm (by omega) (by omega) h
  rw [← h.armed.pendix, ← h.loaded.file] at hrun
  rw [← h.loaded.file]
  exact hrun

end

end Rxvm
