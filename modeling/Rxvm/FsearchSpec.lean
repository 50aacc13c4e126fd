import Rxvm.LiteralSpec
import Rxvm.Scanner

/-!
# Rxvm.FsearchSpec — literals in files

For an expression of literals `rxvm_fsearch` hands the stored text to the
scanner as it is, with its backslashes. So it looks for the text as it is
written, and the expression is found as in a string if it has no escape.
-/

namespace Rxvm

/-- The result of a search of a file that finds the string `w`: the file is left
at its first occurrence, and the size is the length of `w`. -/
def FoundInFile (w content : List CChar) (result : FsearchResult) : Prop :=
  (∃ m, FirstAt (OccursAt w content) 0 m ∧
      result = { ret := 1, matchSize := some (w.length : Int), offset := m }) ∨
    ((∀ m, ¬ OccursAt w content m) ∧ result.ret = 0)

section

variable {text content : List CChar}

theorem unescape_plain (h : derefSym ∉ text) : unescape text = text := by
  induction text with
  | nil => rfl
  | cons c rest ih =>
      rw [unescape_cons (fun hc => h (hc ▸ List.mem_cons_self)),
        ih (fun hmem => h (List.mem_cons_of_mem _ hmem))]

theorem unescape_length_le (h : escapesClosed text = true) :
    (unescape text).length ≤ text.length := by
  induction text using unescape.induct with
  | case1 => exact Nat.le_refl 0
  | case2 => simp [escapesClosed] at h
  | case3 d rest ih =>
      rw [escapesClosed_escaped] at h
      rw [unescape_deref]
      have := ih h
      simp only [List.length_cons]
      omega
  | case4 c rest hc ih =>
      rw [escapesClosed_cons hc] at h
      rw [unescape_cons hc]
      have := ih h
      simp only [List.length_cons]
      omega

/-- A text with an escape is longer than what it stands for. -/
theorem unescape_length_lt (h : escapesClosed text = true) (hmem : derefSym ∈ text) :
    (unescape text).length < text.length := by
  induction text using unescape.induct with
  | case1 => cases hmem
  | case2 => simp [escapesClosed] at h
  | case3 d rest =>
      rw [escapesClosed_escaped] at h
      rw [unescape_deref]
      have := unescape_length_le h
      simp only [List.length_cons]
      omega
  | case4 c rest hc ih =>
      rw [escapesClosed_cons hc] at h
      rw [unescape_cons hc]
      have hrest : derefSym ∈ rest := by
        rcases List.mem_cons.mp hmem with heq | hrest
        · exact absurd heq.symm hc
        · exact hrest
      have := ih h hrest
      simp only [List.length_cons]
      omega

/-- For literals the search of a file is the scan for the stored text. -/
theorem rxvmFsearch_simple {compiled : Compiled} {b : Bmh} {fileBuffer : FileBuffer}
    {fp : File} {flags : Flags} (hsimple : compiled.simple = some text) {b₁ b₂ : Bmh} {ret : Int} {tm : Threads}
    (hinit : b.bmhInit fp text (u32 text.length) = .ok b₁)
    (hscan : b₁.bmh (fsearchThreads flags) = .ok (ret, tm, b₂)) :
    rxvmFsearch b fileBuffer compiled fp flags = .ok (fsearchResult tm b₂.fp) := by
  have hhanded : handed compiled = some (text, u32 text.length) := by
    unfold handed
    rw [hsimple]
  unfold rxvmFsearch
  simp only [hhanded, hsimple, Option.isSome_some, if_true, bind, Except.bind, hinit, hscan]
  rfl

/-- A file is searched for an expression of literals as a string is, exactly if
the expression has no escape, or neither what it stands for nor its text is in
the file. -/
theorem rxvmFsearch_literal_iff {g g' : Statics} {exp : List CChar} {compiled : Compiled}
    {b : Bmh} {fileBuffer : FileBuffer} (h : rxvmCompile g exp = .ok (.ok compiled, g'))
    (hsimple : compiled.simple.isSome = true) (hpos : 0 < (cstring exp).length)
    (hle : (cstring exp).length ≤ bufsize) (hchars : ∀ c ∈ cstring exp, Scannable c)
    (hfile : ∀ c ∈ content, c ≠ eofChar ∧ c ≠ printableHigh) (hreach : Reachable b) :
    ∃ result, rxvmFsearch b fileBuffer compiled ⟨content, 0⟩ {} = .ok result ∧
      (FoundInFile (unescape (cstring exp)) content result ↔
        derefSym ∉ cstring exp ∨
          (∀ m, ¬ OccursAt (cstring exp) content m) ∧
            ∀ m, ¬ OccursAt (unescape (cstring exp)) content m) := by
  obtain ⟨text, htext⟩ := Option.isSome_iff_exists.mp hsimple
  rcases rxvmCompile_simple h htext with ⟨rfl, hclosed⟩
  have hbuf : bufsize = 8192 := rfl
  -- the fast path hands the scanner the text itself, escapes included
  have hlen : u32 ((cstring exp).length : Int) = (cstring exp).length := u32_eq rfl (by omega)
  have hbegun : Begun (cstring exp) (cstring exp).length content 0
      (b.bmhInit { content := content, offset := 0 } (cstring exp) (cstring exp).length) :=
    Begun.init hreach
  have hicase : (fsearchThreads {}).icase = false := rfl
  rcases bmh_scannable hchars hpos hle hfile hicase hbegun with
    ⟨b₁, ret, tm, b₂, hinit, hscan, hscans⟩
  refine ⟨fsearchResult tm b₂.fp,
    rxvmFsearch_simple htext (by rw [hlen]; exact hinit) hscan, ?_⟩
  rcases hscans.findsFirst with ⟨m, hfirst, _, hstart, hend⟩ | ⟨hnone, _, hend⟩
  · -- the text has been found
    have hresult : fsearchResult tm b₂.fp =
        { ret := 1, matchSize := some ((cstring exp).length : Int), offset := m } := by
      unfold fsearchResult
      rw [if_pos (by omega)]
      simp only [seekToStartOfMatch, File.seek, hstart, hend]
      congr 2
      omega
    rw [hresult]
    constructor
    · -- a match of the right size means that nothing has been unescaped
      rintro (⟨m', _, heq⟩ | ⟨_, hret⟩)
      · left
        intro hmem
        have hsize : (cstring exp).length = (unescape (cstring exp)).length := by
          have hsome := congrArg FsearchResult.matchSize heq
          simpa using hsome
        have := unescape_length_lt hclosed hmem
        omega
      · cases hret
    · rintro (hplain | ⟨hno, _⟩)
      · rw [unescape_plain hplain]
        exact Or.inl ⟨m, hfirst, rfl⟩
      · exact absurd hfirst.2.1 (hno m)
  · -- the text has not been found
    have hzero : tm.matchEnd = 0 := hend
    have hresult : (fsearchResult tm b₂.fp).ret = 0 := by
      unfold fsearchResult
      rw [if_neg (by omega)]
    have hnot : ∀ m, ¬ OccursAt (cstring exp) content m := fun m => hnone m (Nat.zero_le m)
    constructor
    · -- what it stands for has been found, or is not there either
      rintro (⟨_, _, heq⟩ | ⟨hno, _⟩)
      · rw [heq] at hresult
        cases hresult
      · exact Or.inr ⟨hnot, hno⟩
    · rintro (hplain | ⟨_, hno⟩)
      · refine Or.inr ⟨?_, hresult⟩
        rw [unescape_plain hplain]
        exact hnot
      · exact Or.inr ⟨hno, hresult⟩

/-- The expression `ab` and the file `xab`. -/
theorem rxvmFsearch_literal_iff_ab : ∃ compiled g' result,
    rxvmCompile Statics.init [97, 98] = .ok (.ok compiled, g') ∧
      rxvmFsearch Bmh.zero FileBuffer.zero compiled ⟨[120, 97, 98], 0⟩ {} = .ok result ∧
      FoundInFile (unescape (cstring [97, 98])) [120, 97, 98] result := by
  have h : ∃ compiled g', rxvmCompile Statics.init [97, 98] = .ok (.ok compiled, g') ∧
      compiled.simple.isSome = true := ⟨_, _, rfl, rfl⟩
  rcases h with ⟨compiled, g', h, hsimple⟩
  have hfile : ∀ c ∈ ([120, 97, 98] : List CChar), c ≠ eofChar ∧ c ≠ printableHigh := by
    decide +kernel
  rcases @rxvmFsearch_literal_iff [120, 97, 98] _ _ _ _ _ FileBuffer.zero h hsimple (by decide)
    (by decide) (by unfold Scannable; decide +kernel) hfile Reachable.zero with ⟨result, hrun, hiff⟩
  -- there is no escape in it
  have hplain : derefSym ∉ cstring [97, 98] := by decide
  exact ⟨compiled, g', result, h, hrun, hiff.mpr (Or.inl hplain)⟩

/-- The expression `\*` is not found in the file `*`. -/
theorem rxvmFsearch_misses_literal : ∃ compiled g' result,
    rxvmCompile Statics.init [92, 42] = .ok (.ok compiled, g') ∧
      rxvmFsearch Bmh.zero FileBuffer.zero compiled ⟨[42], 0⟩ {} = .ok result ∧
      ¬ FoundInFile (unescape (cstring [92, 42])) [42] result := by
  refine ⟨_, _, _, rfl, rfl, ?_⟩
  rintro (⟨_, _, heq⟩ | ⟨hnone, _⟩)
  · cases heq
  · exact hnone 0 (List.prefix_refl _)

end

end Rxvm
