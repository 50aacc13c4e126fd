import Rxvm.FileSearch
import Rxvm.FinalNewline
import Rxvm.Fuzz
import Rxvm.Lib.Lines
import Rxvm.Regex

/-!
# Rxvm.LineSearch — searching for whole lines

A search that goes on where an attempt has failed can run past a match. It does
not for `^(e)$`, when `e` reads no newline: no attempt gets over the newline in
front of a line, so with `RXVM_MULTILINE` an attempt is made at every line. The
loop of examples/rxvm_search.c and repeated calls of `rxvm_fsearch` then list the
lines that `rxvm_match` accepts, in order, none left out.
-/

namespace Rxvm

open Relation Lines

/-! ## Attempts and newlines -/

section

variable {ml : Bool} {s : List CChar} {exe : List Inst} {a b r : Nat}

theorem at'_eq_newline_iff : at' s b = newline ↔ s[b]? = some newline := by
  rw [at', List.getD_eq_getElem?_getD]
  cases s[b]? with
  | none => simp; decide
  | some c => simp

theorem lt_of_newline (h : at' s b = newline) : b < s.length :=
  (List.getElem?_eq_some_iff.mp (at'_eq_newline_iff.mp h)).1

theorem solAt_iff : SolAt true s a ↔ StartsAt newline s a := by
  simp [SolAt, StartsAt, at'_eq_newline_iff]

/-- No path gets over a newline that nothing reads. -/
theorem NfaPath.le_newline (hblind : ∀ inst ∈ exe, inst.eats false newline = false)
    (hb : at' s b = newline) {x y : Nat × Nat} (h : NfaPath false ml s exe x y) (hx : x.2 ≤ b) :
    y.2 ≤ b := by
  induction h with
  | refl => exact hx
  | tail _ hstep ih =>
      cases hstep with
      | @eat ip p inst hi hp he =>
          have hpb : p ≤ b := ih
          show p + 1 ≤ b
          by_contra hlast
          obtain rfl : p = b := by omega
          rw [hb, hblind inst (List.mem_of_getElem? hi)] at he
          cases he
      | sol => exact ih
      | eol => exact ih
      | branchX => exact ih
      | branchY => exact ih
      | jmp => exact ih

/-- Behind an attempt that fails in front of a newline another one is made, at
the latest behind the newline. -/
theorem exists_nextAttempt_le (hblind : ∀ inst ∈ exe, inst.eats false newline = false)
    (hb : at' s b = newline) (hab : a ≤ b) (hfails : ∀ p, ¬ Matched false ml s exe a p) :
    ∃ a', NextAttempt false ml s exe a a' ∧ a' ≤ b + 1 := by
  classical
  -- the last position the attempt gets to
  let alive : Nat → Prop := fun q => ∃ v, Reach false ml s exe a q v
  have hstart : alive a := ⟨0, .refl⟩
  have hlast : alive (Nat.findGreatest alive b) := Nat.findGreatest_spec hab hstart
  have hge : a ≤ Nat.findGreatest alive b := Nat.le_findGreatest hab hstart
  have hle : Nat.findGreatest alive b ≤ b := Nat.findGreatest_le b
  have hdead : ∀ v, ¬ Reach false ml s exe a (Nat.findGreatest alive b + 1) v := by
    intro v hv
    have hnext : Nat.findGreatest alive b + 1 ≤ b := NfaPath.le_newline hblind hb hv hab
    exact Nat.findGreatest_is_greatest (Nat.lt_succ_self _) hnext ⟨v, hv⟩
  have hlt := lt_of_newline hb
  exact ⟨_, ⟨hfails, _, hge, by omega, hlast, hdead, rfl⟩, by omega⟩

/-- A search makes an attempt behind every newline it comes to. -/
theorem attempts_behind_newline (hblind : ∀ inst ∈ exe, inst.eats false newline = false)
    (hra : r ≤ a) (ha : a = r ∨ at' s (a - 1) = newline)
    (hfails : ∀ k, r ≤ k → k < a → ∀ p, ¬ Matched false ml s exe k p) :
    ReflTransGen (NextAttempt false ml s exe) r a := by
  induction hd : a - r using Nat.strong_induction_on generalizing r with
  | _ d ih =>
    rcases ha with rfl | hnl
    · exact .refl
    · rcases hra.eq_or_lt with rfl | hlt
      · exact .refl
      · rcases exists_nextAttempt_le hblind hnl (by omega) (hfails r (Nat.le_refl r) hlt) with
          ⟨r', hnext, hle⟩
        have hgt := hnext.lt
        exact .head hnext (ih (a - r') (by omega) (by omega) (.inr hnl)
          (fun k hk => hfails k (by omega)) rfl)

theorem attempts_bounds {icase : Bool} (h : ReflTransGen (NextAttempt icase ml s exe) r a)
    (hr : r ≤ s.length) : r ≤ a ∧ a ≤ s.length := by
  induction h with
  | refl => exact ⟨Nat.le_refl r, hr⟩
  | tail _ hstep ih => exact ⟨ih.1.trans hstep.lt.le, hstep.le_length⟩

end

/-! ## Programs for lines -/

/-- The program matches the lines that pass the test, and reads no newline. -/
structure MatchesLines (exe : List Inst) (good : List CChar → Bool) : Prop where
  wellFormed : WellFormed exe
  blind : ∀ inst ∈ exe, inst.eats false newline = false
  matched : ∀ {s i j}, NoNul s → i ≤ s.length → (Matched false true s exe i j ↔
    LineWith newline s good i ∧ j = i + (lineAt newline s i).length)

section

variable {exe : List Inst} {good : List CChar → Bool} {s : List CChar} {r : Nat} {ng : Bool}
  {tm : Threads}

/-- A search from `r` on ends with the first line that passes the test. -/
theorem MatchesLines.searchEnd (h : MatchesLines exe good) (hs : NoNul s) (hr : r ≤ s.length)
    (hend : SearchEnd false true s exe ng r tm) :
    (tm.matchEnd = 0 ∧ ∀ a, r ≤ a → ¬ LineWith newline s good a) ∨
      ∃ a, r ≤ a ∧ LineWith newline s good a ∧
        (∀ k, r ≤ k → k < a → ¬ LineWith newline s good k) ∧
        tm.matchStart = a ∧ tm.matchEnd = a + (lineAt newline s a).length + 1 := by
  by_cases hex : ∃ a, r ≤ a ∧ LineWith newline s good a
  · rcases Nat.find_spec hex with ⟨hra, hline⟩
    have hfirst : ∀ k, r ≤ k → k < Nat.find hex → ¬ LineWith newline s good k :=
      fun k hk hlt hkline => Nat.find_min hex hlt ⟨hk, hkline⟩
    generalize Nat.find hex = a at hra hline hfirst
    have ha := hline.1.le_length
    have hmatch := (h.matched hs ha).mpr ⟨hline, rfl⟩
    have hstart : a = r ∨ at' s (a - 1) = newline := by
      rcases hline.1 with h0 | hnl
      · exact .inl (by omega)
      · exact .inr (at'_eq_newline_iff.mpr hnl)
    have hpath := @attempts_behind_newline true s exe a r h.blind hra hstart fun k hk hlt p hm =>
      -- the attempts come by every start of a line
      hfirst k hk hlt ((h.matched hs (by omega)).mp hm).1
    rcases hend with ⟨a', q, hpath', hm, _, htm, hfin⟩ | ⟨_, hnone⟩
    · obtain rfl := attempted_matched_unique hpath hmatch hpath' hm
      obtain rfl := ((h.matched hs ha).mp hm).2
      exact .inr ⟨a, hra, hline, hfirst, htm, hfin⟩
    · exact absurd hmatch (hnone a _ hpath)
  · refine .inl ⟨?_, fun a ha hline => hex ⟨a, ha, hline⟩⟩
    rcases hend with ⟨a, q, hpath, hm, _⟩ | ⟨hzero, _⟩
    · have hbounds := attempts_bounds hpath hr
      exact absurd ⟨a, hbounds.1, ((h.matched hs hbounds.2).mp hm).1⟩ hex
    · exact hzero

/-! ## Where the loops go on -/

/-- The loops of the example programs go on from the start of the text, or from
the end of a line that is not empty. -/
def GoesOn (s : List CChar) (p : Nat) : Prop :=
  p ≤ s.length ∧ (p = 0 ∨ ¬ StartsAt newline s p ∧ lineAt newline s p = [])

variable {p a : Nat}

theorem goesOn_behind (ha : StartsAt newline s a) (hpos : 0 < (lineAt newline s a).length) :
    GoesOn s (a + (lineAt newline s a).length) := by
  have hle : a + (lineAt newline s a).length ≤ s.length := lineAt_le ha.le_length
  refine ⟨hle, .inr ⟨not_startsAt_inside (by omega) (Nat.le_refl _), ?_⟩⟩
  rcases @lineAt_end _ _ newline s a ha.le_length with hend | hnl
  · rw [hend, lineAt, List.drop_length]
    rfl
  · rw [lineAt, List.drop_eq_getElem?_toList_append, hnl]
    simp

/-- The rest of a string has the same lines, but for an empty one at its start. -/
theorem GoesOn.lineWith_drop (h : GoesOn s p) (hempty : good [] = false) :
    LineWith newline (s.drop p) good a ↔ LineWith newline s good (p + a) := by
  rw [LineWith, LineWith, lineAt_drop]
  rcases Nat.eq_zero_or_pos a with rfl | ha
  · rcases h.2 with rfl | ⟨_, hline⟩
    · rw [List.drop_zero, Nat.zero_add]
    · rw [Nat.add_zero, hline, hempty]
      simp
  · rw [startsAt_drop ha]

theorem lineAt_seenFrom (ha : p ≤ a) : lineAt newline (seenFrom s p) a = lineAt newline s a := by
  rw [lineAt, lineAt, seenFrom, List.drop_append, List.drop_eq_nil_of_le (by simpa using ha),
    List.nil_append, List.length_replicate, List.drop_drop, show p + (a - p) = a by omega]

/-- The file as a call sees it has the same lines from there on. -/
theorem GoesOn.lineWith_seenFrom (h : GoesOn s p) (ha : p ≤ a) :
    LineWith newline (seenFrom s p) good a ↔ LineWith newline s good a := by
  rw [LineWith, LineWith, lineAt_seenFrom ha, ← solAt_iff, ← solAt_iff]
  refine and_congr_left fun _ => ⟨fun hsol => hsol.of_seenFrom ha, fun hsol => ?_⟩
  refine hsol.to_seenFrom ?_
  rcases h.2 with hzero | ⟨hinside, _⟩
  · exact .inr hzero
  · refine .inl (lt_of_le_of_ne ha ?_)
    rintro rfl
    exact hinside (solAt_iff.mp hsol)

/-! ## One call -/

variable {compiled : Compiled} {flags : Flags}

/-- `rxvm_search` reports the first line that passes the test. -/
theorem MatchesLines.search (h : MatchesLines compiled.exe good) (hprogram : compiled.simple = none)
    (hs : NoNul s) (hicase : flags.icase = false) (hml : flags.multiline = true) :
    (rxvmSearch compiled s flags = some { ret := 0, start := none, fin := none } ∧
        ∀ a, ¬ LineWith newline s good a) ∨
      ∃ a, LineWith newline s good a ∧ (∀ k < a, ¬ LineWith newline s good k) ∧
        rxvmSearch compiled s flags =
          some ⟨1, some (a : Int), some ((a : Int) + (lineAt newline s a).length - 1)⟩ := by
  rcases vmExecute_searchEnd h.wellFormed hs flags with ⟨res, hres, hend⟩
  rw [hicase, hml] at hend
  have hsearch : rxvmSearch compiled s flags = some (searchResult res.2.tm) := by
    unfold rxvmSearch
    simp only [hprogram, hres, Option.map_some]
  rw [hsearch]
  rcases h.searchEnd hs (Nat.zero_le _) hend with ⟨hzero, hnone⟩ |
    ⟨a, _, hline, hfirst, hstart, hfin⟩
  · exact .inl ⟨congrArg some (searchResult_missing hzero), fun a => hnone a (Nat.zero_le a)⟩
  · refine .inr ⟨a, hline, fun k hk => hfirst k (Nat.zero_le k) hk, ?_⟩
    rw [searchResult, if_neg (by omega), hstart, hfin]
    refine congrArg some ?_
    simp only [SearchResult.mk.injEq, true_and, Option.some.injEq]
    push_cast
    omega

/-- So does `rxvm_fsearch`, from the offset of the file on. -/
theorem MatchesLines.fsearch (h : MatchesLines compiled.exe good)
    (hprogram : compiled.simple = none) (hlfix : compiled.lfix = none) (b : Bmh)
    (fileBuffer : FileBuffer) (hfile : ∀ c ∈ s, c ≠ 0 ∧ c ≠ eofChar) (hp : GoesOn s p)
    (hicase : flags.icase = false)
    (hml : flags.multiline = true) :
    (∃ r, rxvmFsearch b fileBuffer compiled ⟨s, p⟩ flags = .ok r ∧ r.ret = 0 ∧
        ∀ a, p ≤ a → ¬ LineWith newline s good a) ∨
      ∃ a, p ≤ a ∧ LineWith newline s good a ∧
        (∀ k, p ≤ k → k < a → ¬ LineWith newline s good k) ∧
        rxvmFsearch b fileBuffer compiled ⟨s, p⟩ flags =
          .ok ⟨1, some ((lineAt newline s a).length : Int), a⟩ := by
  have hcoupled : Coupled s p 0 (FileBuf.fresh fileBuffer ⟨s, p⟩) :=
    @Coupled.start (FileBuf.fresh fileBuffer ⟨s, p⟩) fileBuffer.2 rfl hp.1
  rcases @executeFile_search s p compiled.exe flags (FileBuf.fresh fileBuffer ⟨s, p⟩)
    { fsearchThreads flags with chars := p } h.wellFormed hfile hcoupled hp.1 rfl rfl rfl rfl
    rfl with ⟨tm, d, hexec, _, hend⟩
  rw [hicase, hml] at hend
  -- neither fast path: the machine reads the file
  have hcall : rxvmFsearch b fileBuffer compiled ⟨s, p⟩ flags = .ok (fsearchResult tm d.fp) := by
    have hhanded : handed compiled = none := by
      unfold handed
      rw [hprogram, hlfix]
      rfl
    unfold rxvmFsearch
    simp only [hhanded, hexec, bind, Except.bind]
    rfl
  have hnul : NoNul (seenFrom s p) := noNul_seenFrom fun c hc => (hfile c hc).1
  rcases h.searchEnd hnul (by rw [length_seenFrom hp.1]; exact hp.1) hend with ⟨hzero, hnone⟩ |
    ⟨a, hpa, hline, hfirst, hstart, hfin⟩
  · refine .inl ⟨_, hcall, fsearchResult_failed d.fp hzero, fun a ha hline => ?_⟩
    exact hnone a ha ((hp.lineWith_seenFrom ha).mpr hline)
  · rw [lineAt_seenFrom hpa] at hfin
    refine .inr ⟨a, hpa, (hp.lineWith_seenFrom hpa).mp hline, fun k hk hlt hkline => ?_, ?_⟩
    · exact hfirst k hk hlt ((hp.lineWith_seenFrom hk).mpr hkline)
    · have hres : fsearchResult tm d.fp =
          ⟨1, some ((tm.matchEnd : Int) - tm.matchStart - 1), tm.matchStart⟩ := by
        unfold fsearchResult
        rw [if_pos (by omega)]
        rfl
      rw [hcall, hres, hstart, hfin]
      simp only [Except.ok.injEq, FsearchResult.mk.injEq, Option.some.injEq, and_true, true_and]
      push_cast
      omega

/-! ## The loops -/

/-- What repeated searches report of the lines that pass the test: where each starts,
and its size. -/
def reported (good : List CChar → Bool) (s : List CChar) (p : Nat) : List (Int × Int) :=
  (linesWith newline s good p).map fun x => ((x.1 : Int), (x.2.length : Int))

theorem reported_nil (h : ∀ a, p ≤ a → ¬ LineWith newline s good a) : reported good s p = [] := by
  rw [reported, linesWith_eq_nil h]
  rfl

theorem reported_cons (hline : LineWith newline s good a) (hpa : p ≤ a)
    (hfirst : ∀ k, p ≤ k → k < a → ¬ LineWith newline s good k)
    (hpos : 0 < (lineAt newline s a).length) :
    reported good s p = ((a : Int), ((lineAt newline s a).length : Int)) ::
      reported good s (a + (lineAt newline s a).length) := by
  rw [reported, linesWith_eq_cons hline hpa hfirst hpos]
  rfl

/-- The loop of examples/rxvm_search.c reports the lines that pass the test. -/
theorem MatchesLines.loop (h : MatchesLines compiled.exe good) (hprogram : compiled.simple = none)
    (hempty : good [] = false) (hs : NoNul s) (hicase : flags.icase = false)
    (hml : flags.multiline = true) (fuel : Nat) : ∀ {p : Nat}, GoesOn s p →
      findInString compiled flags fuel p (s.drop p) = some ((reported good s p).take fuel) := by
  -- by induction on the rounds that are left
  induction fuel with
  | zero =>
      intro p _
      rw [List.take_zero]
      rfl
  | succ fuel ih =>
      intro p hp
      have hrest : NoNul (s.drop p) := fun c hc => hs c (List.mem_of_mem_drop hc)
      unfold findInString
      rcases h.search hprogram hrest hicase hml with ⟨hsearch, hnone⟩ |
        ⟨a, hline, hfirst, hsearch⟩
      · have hnil : reported good s p = [] := by
          refine reported_nil fun a ha hline => hnone (a - p) ?_
          rw [hp.lineWith_drop hempty, show p + (a - p) = a by omega]
          exact hline
        rw [hsearch, hnil]
        rfl
      · rw [hp.lineWith_drop hempty] at hline
        rw [lineAt_drop] at hsearch
        have hpos := hline.length_pos hempty
        -- the line found is the first one reported, and the rest begins behind it
        have hcons := reported_cons hline (Nat.le_add_right p a)
          (fun k hk hlt hkline => hfirst (k - p) (by omega) (by
            rw [hp.lineWith_drop hempty, show p + (k - p) = k by omega]
            exact hkline)) hpos
        have hnext := ih (goesOn_behind hline.1 hpos)
        rw [hsearch, hcons, List.take_succ_cons]
        generalize (lineAt newline s (p + a)).length = n at hnext ⊢
        have hdrop : ((a : Int) + n - 1 + 1).toNat = a + n := by omega
        rw [Nat.add_assoc, ← List.drop_drop] at hnext
        show ((findInString compiled flags fuel (p + ((a : Int) + n - 1 + 1).toNat)
          ((s.drop p).drop ((a : Int) + n - 1 + 1).toNat)) >>= _) = _
        rw [hdrop, hnext]
        refine congrArg some (congrArg₂ List.cons ?_ (by rw [Nat.add_assoc]))
        show ((p : Int) + (a : Int), (a : Int) + n - 1 + 1 - (a : Int)) = _
        refine Prod.ext ?_ ?_
        · exact (Nat.cast_add p a).symm
        · show (a : Int) + n - 1 + 1 - a = n
          omega

/-- So do repeated calls of `rxvm_fsearch`, without a fixed substring. -/
theorem MatchesLines.fileLoop (h : MatchesLines compiled.exe good)
    (hprogram : compiled.simple = none) (hlfix : compiled.lfix = none) (hempty : good [] = false)
    (hfile : ∀ c ∈ s, c ≠ 0 ∧ c ≠ eofChar) (hicase : flags.icase = false)
    (hml : flags.multiline = true) (fuel : Nat) :
    ∀ {calls : Nat → Bmh × FileBuffer} {p : Nat}, GoesOn s p →
      repeatFsearch compiled flags fuel calls ⟨s, p⟩ = .ok ((reported good s p).take fuel) := by
  -- as for a string, with the file position in place of the suffix
  induction fuel with
  | zero =>
      intro calls p _
      rw [List.take_zero]
      rfl
  | succ fuel ih =>
      intro calls p hp
      unfold repeatFsearch
      rcases h.fsearch hprogram hlfix (calls 0).1 (calls 0).2 hfile hp hicase hml with ⟨r, hcall, hret, hnone⟩ |
        ⟨a, hpa, hline, hfirst, hcall⟩
      · rw [hcall, reported_nil hnone]
        exact if_pos hret
      · have hpos := hline.length_pos hempty
        have hnext := @ih (fun n => calls (n + 1)) _ (goesOn_behind hline.1 hpos)
        rw [hcall, reported_cons hline hpa hfirst hpos, List.take_succ_cons]
        generalize (lineAt newline s a).length = n at hnext ⊢
        show ((repeatFsearch compiled flags fuel (fun n => calls (n + 1))
          ⟨s, ((a : Int) + (n : Int)).toNat⟩) >>= _) = _
        rw [show ((a : Int) + (n : Int)).toNat = a + n by omega, hnext]
        rfl

end

/-! ## The expression `^(e)$` -/

/-- The expression `^(r)$`. -/
def Expr.wholeLine (r : Expr .re) : Expr .re :=
  .ofSimple (.concat (.concat (.ofBasic (.ofElem .sol)) (.ofElem (.group r))) (.ofElem .eol))

/-- A text of it, for a text of `r`. -/
def wholeLineText (exp : List CChar) : List CChar :=
  solSym :: lparenSym :: (exp ++ [rparenSym, eolSym])

section

variable {e : Expr .re} {exp s : List CChar} {i j : Nat}

theorem Expr.lexemes_wholeLine (e : Expr .re) :
    e.wholeLine.lexemes = [.sol, .lparen] ++ (e.lexemes ++ [.rparen, .eol]) := by
  simp [Expr.wholeLine, Expr.lexemes]

theorem Expr.mem_wholeLine {x : Lexeme} (hx : x ∈ e.wholeLine.lexemes) :
    x = .sol ∨ x = .lparen ∨ x ∈ e.lexemes ∨ x = .rparen ∨ x = .eol := by
  simpa [Expr.lexemes_wholeLine] using hx

theorem Expr.wholeLine_admissible (h : e.Admissible) : e.wholeLine.Admissible := by
  intro x hx
  rcases Expr.mem_wholeLine hx with rfl | rfl | hx | rfl | rfl
  · trivial
  · trivial
  · exact h x hx
  · trivial
  · trivial

theorem Expr.wholeLine_not_literalOnly : ¬ e.wholeLine.LiteralOnly := by
  intro h
  cases h .sol (by simp [Expr.lexemes_wholeLine])

theorem spells_wholeLine (hspell : Concat Spells e.lexemes exp) :
    Concat Spells e.wholeLine.lexemes (wholeLineText exp) := by
  have hopen : Concat Spells [.sol, .lparen] [solSym, lparenSym] :=
    .cons (Spells.written .sol) (.cons (Spells.written .lparen) .nil)
  have hclose : Concat Spells [.rparen, .eol] [rparenSym, eolSym] :=
    .cons (Spells.written .rparen) (.cons (Spells.written .eol) .nil)
  rw [Expr.lexemes_wholeLine]
  exact hopen.append (hspell.append hclose)

theorem Expr.matches_wholeLine {ml : Bool} : e.wholeLine.Matches ml s i j ↔
    SolAt ml s i ∧ e.Matches ml s i j ∧ EolAt ml s j := by
  constructor
  · rintro ⟨_, ⟨_, ⟨rfl, hsol⟩, he⟩, rfl, heol⟩
    exact ⟨hsol, he, heol⟩
  · rintro ⟨hsol, he, heol⟩
    exact ⟨j, ⟨i, ⟨rfl, hsol⟩, he⟩, rfl, heol⟩

/-- A whole line is one that `e` matches, if `e` reads no newline. -/
theorem Expr.matches_wholeLine_iff (hanchors : ∀ x ∈ e.lexemes, x ≠ .sol ∧ x ≠ .eol)
    (hnl : e.NeverReads newline) (hs : NoNul s) (hi : i ≤ s.length) :
    e.wholeLine.Matches true s i j ↔ StartsAt newline s i ∧
      lineAt newline s i ∈ e.regex.matches' ∧ j = i + (lineAt newline s i).length := by
  have hword : ∀ ml, e.Matches ml s i j ↔
      i ≤ j ∧ j ≤ s.length ∧ (s.take j).drop i ∈ e.regex.matches' :=
    fun ml => (e.spans hanchors).iff_mem hi
  rw [Expr.matches_wholeLine, hword, solAt_iff]
  refine and_congr_right fun _ => ?_
  constructor
  · rintro ⟨⟨hij, hj, hmem⟩, heol⟩
    -- what is matched has no newline, so it does not reach behind the line
    have hno : newline ∉ (s.take j).drop i := by
      intro hin
      rcases List.getElem_of_mem hin with ⟨k, hk, hget⟩
      rw [List.length_drop, List.length_take] at hk
      refine hnl s i j hs ((hword false).mpr ⟨hij, hj, hmem⟩) (i + k) (by omega) (by omega) ?_
      rw [List.getElem_drop, List.getElem_take] at hget
      rw [at', List.getD_eq_getElem _ _ (by omega), hget]
    have hend : j = s.length ∨ s[j]? = some newline := by
      rcases heol with hend | ⟨_, hend⟩
      · exact .inl hend
      · exact .inr (at'_eq_newline_iff.mp hend)
    have hline := lineAt_eq hij hj hno hend
    have hlen : ((s.take j).drop i).length = j - i := by
      rw [List.length_drop, List.length_take, Nat.min_eq_left hj]
    rw [hline, hlen]
    exact ⟨hmem, by omega⟩
  · rintro ⟨hmem, rfl⟩
    refine ⟨⟨Nat.le_add_right _ _, lineAt_le hi, ?_⟩, ?_⟩
    · rw [lineAt_part]
      exact hmem
    · rcases @lineAt_end _ _ newline s i hi with hend | hnl
      · exact .inl hend
      · exact .inr ⟨rfl, at'_eq_newline_iff.mpr hnl⟩

/-- The program of `^(e)$` matches the lines that `e` matches. -/
theorem ProgramOf.matchesLines {compiled : Compiled} (h : ProgramOf e.wholeLine compiled)
    (hwf : WellFormed compiled.exe) (hadm : e.Admissible)
    (hanchors : ∀ x ∈ e.lexemes, x ≠ .sol ∧ x ≠ .eol) (hnl : e.NeverReads newline)
    {good : List CChar → Bool} (hgood : ∀ w, NoNul w → (good w = true ↔ w ∈ e.regex.matches')) :
    MatchesLines compiled.exe good := by
  refine ⟨hwf, ?_, fun hs hi => ?_⟩
  · refine h.all (P := fun inst => inst.eats false newline = false)
      ⟨fun _ _ => rfl, fun _ => rfl⟩ rfl (Expr.wholeLine_admissible hadm) ?_
    intro x hx inst hinst
    rcases Expr.mem_wholeLine hx with rfl | rfl | hx | rfl | rfl
    · cases hinst
      rfl
    · cases hinst
    · exact hnl.lexemes hadm hanchors (by decide) x hx inst hinst
    · cases hinst
    · cases hinst
      rfl
  · rename_i s i j
    have hline : NoNul (lineAt newline s i) := fun c hc =>
      hs c (List.mem_of_mem_drop (lineAt_isPrefix.subset hc))
    refine (h.meaning true s i j).trans ?_
    rw [Expr.matches_wholeLine_iff hanchors hnl hs hi, LineWith, hgood _ hline, and_assoc]

/-! ## Two compiled expressions -/

variable {g g' g₁ g₁' : Statics} {whole line : Compiled} {flags : Flags}

/-- `rxvm_match` accepts the text. -/
def Matching (whole : Compiled) (w : List CChar) : Bool := decide (rxvmMatch whole w {} = some 1)

/-- What is compiled from a text of `e` accepts the words of `e`. -/
theorem matching_iff (hg : g.isNchar = false) (hadm : e.Admissible)
    (hanchors : ∀ x ∈ e.lexemes, x ≠ .sol ∧ x ≠ .eol) (hspell : Concat Spells e.lexemes exp)
    (hwhole : rxvmCompile g exp = .ok (.ok whole, g')) {w : List CChar} (hw : NoNul w) :
    Matching whole w = true ↔ w ∈ e.regex.matches' := by
  rcases rxvmCompile_taken hg hadm hspell with ⟨compiled, g'', hrun, _, hdecides, _⟩
  cases hrun.symm.trans hwhole
  rcases hdecides w hw with ⟨ret, hret, _, hiff⟩
  rw [Matching, decide_eq_true_iff, hret, Option.some.injEq, hiff]
  exact (e.spans hanchors).whole

/-- What is compiled from the text of `^(e)$` is a program for it. -/
theorem programOf_wholeLine (hg₁ : g₁.isNchar = false) (hadm : e.Admissible)
    (hspell : Concat Spells e.lexemes exp)
    (hline : rxvmCompile g₁ (wholeLineText exp) = .ok (.ok line, g₁')) :
    ProgramOf e.wholeLine line := by
  rcases rxvmCompile_programOf hg₁ (Expr.wholeLine_admissible hadm)
    Expr.wholeLine_not_literalOnly (spells_wholeLine hspell) with ⟨compiled, g'', hrun, hprog⟩
  cases hrun.symm.trans hline
  exact hprog

theorem matchesLines_wholeLine (hg : g.isNchar = false) (hg₁ : g₁.isNchar = false)
    (hadm : e.Admissible) (hanchors : ∀ x ∈ e.lexemes, x ≠ .sol ∧ x ≠ .eol)
    (hnl : e.NeverReads newline) (hempty : ¬ e.Matches false [] 0 0)
    (hspell : Concat Spells e.lexemes exp) (hwhole : rxvmCompile g exp = .ok (.ok whole, g'))
    (hline : rxvmCompile g₁ (wholeLineText exp) = .ok (.ok line, g₁')) :
    MatchesLines line.exe (Matching whole) ∧ Matching whole [] = false := by
  have hprog := programOf_wholeLine hg₁ hadm hspell hline
  have hwf := rxvmCompile_wellFormed hline hprog.program
  refine ⟨hprog.matchesLines hwf hadm hanchors hnl
    fun w hw => matching_iff hg hadm hanchors hspell hwhole hw, ?_⟩
  rw [← Bool.not_eq_true, matching_iff hg hadm hanchors hspell hwhole (by simp [NoNul])]
  exact fun h => hempty ((e.spans hanchors).whole.mpr h)

/-- With `RXVM_MULTILINE` the loop of examples/rxvm_search.c finds for `^(e)$`
the lines that `rxvm_match` accepts for `e`: all of them, in order. -/
theorem findInString_wholeLines (hg : g.isNchar = false) (hg₁ : g₁.isNchar = false)
    (hadm : e.Admissible) (hanchors : ∀ x ∈ e.lexemes, x ≠ .sol ∧ x ≠ .eol)
    (hnl : e.NeverReads newline) (hempty : ¬ e.Matches false [] 0 0)
    (hspell : Concat Spells e.lexemes exp) (hwhole : rxvmCompile g exp = .ok (.ok whole, g'))
    (hline : rxvmCompile g₁ (wholeLineText exp) = .ok (.ok line, g₁')) (hs : NoNul s)
    (hicase : flags.icase = false) (hml : flags.multiline = true) (fuel : Nat) :
    findInString line flags fuel 0 s = some ((reported (Matching whole) s 0).take fuel) := by
  have hprogram := (programOf_wholeLine hg₁ hadm hspell hline).program
  rcases matchesLines_wholeLine hg hg₁ hadm hanchors hnl hempty hspell hwhole hline with
    ⟨hlines, hnot⟩
  exact hlines.loop hprogram hnot hs hicase hml fuel ⟨Nat.zero_le _, .inl rfl⟩

/-- The expressions `a` and `^(a)$`. -/
theorem exists_wholeLine_a : ∃ (e : Expr .re) (whole line : Compiled) (g' g₁' : Statics),
    e.Admissible ∧ (∀ x ∈ e.lexemes, x ≠ .sol ∧ x ≠ .eol) ∧ e.NeverReads newline ∧
      ¬ e.Matches false [] 0 0 ∧ Concat Spells e.lexemes [97] ∧
      rxvmCompile Statics.init [97] = .ok (.ok whole, g') ∧
      rxvmCompile Statics.init (wholeLineText [97]) = .ok (.ok line, g₁') ∧ line.lfix = none := by
  rcases exists_char_a with ⟨e, htext, hadm, hanchors, hnl, hmatches⟩
  have hempty : ¬ e.Matches false [] 0 0 := by
    intro hm
    have hlen := (hmatches _ _ _ hm).1
    omega
  have hspell : Concat Spells e.lexemes [97] := by
    rw [← htext]
    exact .flatMap .written e.lexemes
  exact ⟨e, _, _, _, _, hadm, hanchors, hnl, hempty, hspell, rfl, rfl, rfl⟩

/-- The lines `a`, `ba` and `a`. -/
theorem findInString_wholeLines_a : ∃ whole line g' g₁',
    rxvmCompile Statics.init [97] = .ok (.ok whole, g') ∧
      rxvmCompile Statics.init (wholeLineText [97]) = .ok (.ok line, g₁') ∧
      findInString line { multiline := true } 5 0 [97, 10, 98, 97, 10, 97] =
        some ((reported (Matching whole) [97, 10, 98, 97, 10, 97] 0).take 5) := by
  rcases exists_wholeLine_a with
    ⟨e, whole, line, g', g₁', hadm, hanchors, hnl, hempty, hspell, hwhole, hline, _⟩
  exact ⟨whole, line, g', g₁', hwhole, hline, findInString_wholeLines rfl rfl hadm hanchors hnl
    hempty hspell hwhole hline (by decide) rfl rfl 5⟩

/-- So do repeated calls of `rxvm_fsearch` in a file, without a fixed substring. -/
theorem repeatFsearch_wholeLines (hg : g.isNchar = false) (hg₁ : g₁.isNchar = false)
    (hadm : e.Admissible) (hanchors : ∀ x ∈ e.lexemes, x ≠ .sol ∧ x ≠ .eol)
    (hnl : e.NeverReads newline) (hempty : ¬ e.Matches false [] 0 0)
    (hspell : Concat Spells e.lexemes exp) (hwhole : rxvmCompile g exp = .ok (.ok whole, g'))
    (hline : rxvmCompile g₁ (wholeLineText exp) = .ok (.ok line, g₁')) (hlfix : line.lfix = none)
    (hfile : ∀ c ∈ s, c ≠ 0 ∧ c ≠ eofChar) (hicase : flags.icase = false)
    (hml : flags.multiline = true) (calls : Nat → Bmh × FileBuffer) (fuel : Nat) :
    repeatFsearch line flags fuel calls ⟨s, 0⟩ =
      .ok ((reported (Matching whole) s 0).take fuel) := by
  have hprogram := (programOf_wholeLine hg₁ hadm hspell hline).program
  rcases matchesLines_wholeLine hg hg₁ hadm hanchors hnl hempty hspell hwhole hline with
    ⟨hlines, hnot⟩
  exact hlines.fileLoop hprogram hlfix hnot hfile hicase hml fuel ⟨Nat.zero_le _, .inl rfl⟩

/-- The same lines in a file. -/
theorem repeatFsearch_wholeLines_a : ∃ whole line g' g₁',
    rxvmCompile Statics.init [97] = .ok (.ok whole, g') ∧
      rxvmCompile Statics.init (wholeLineText [97]) = .ok (.ok line, g₁') ∧
      repeatFsearch line { multiline := true } 5 (fun _ => (Bmh.zero, FileBuffer.zero))
          ⟨[97, 10, 98, 97, 10, 97], 0⟩ =
        .ok ((reported (Matching whole) [97, 10, 98, 97, 10, 97] 0).take 5) := by
  rcases exists_wholeLine_a with
    ⟨e, whole, line, g', g₁', hadm, hanchors, hnl, hempty, hspell, hwhole, hline, hlfix⟩
  exact ⟨whole, line, g', g₁', hwhole, hline, repeatFsearch_wholeLines rfl rfl hadm hanchors hnl
    hempty hspell hwhole hline hlfix (by decide +kernel) rfl rfl _ 5⟩

/-- Without `RXVM_MULTILINE`, `rxvm_search` of `^(e)$` is `rxvm_match` of `e`. -/
theorem rxvmSearch_wholeText (hg : g.isNchar = false) (hg₁ : g₁.isNchar = false)
    (hadm : e.Admissible) (hanchors : ∀ x ∈ e.lexemes, x ≠ .sol ∧ x ≠ .eol)
    (hspell : Concat Spells e.lexemes exp) (hwhole : rxvmCompile g exp = .ok (.ok whole, g'))
    (hline : rxvmCompile g₁ (wholeLineText exp) = .ok (.ok line, g₁')) (hs : NoNul s)
    (hicase : flags.icase = false) (hml : flags.multiline = false) :
    rxvmSearch line s flags = some (if rxvmMatch whole s {} = some 1
      then ⟨1, some 0, some ((s.length : Int) - 1)⟩ else ⟨0, none, none⟩) := by
  have hprog := programOf_wholeLine hg₁ hadm hspell hline
  have hwf := rxvmCompile_wellFormed hline hprog.program
  have hmatch : rxvmMatch whole s {} = some 1 ↔ s ∈ e.regex.matches' := by
    rw [← decide_eq_true_iff (p := rxvmMatch whole s {} = some 1)]
    exact matching_iff hg hadm hanchors hspell hwhole hs
  -- `^` holds at the start only and `$` at the end only
  have hmatched : ∀ i j, Matched false false s line.exe i j ↔
      i = 0 ∧ j = s.length ∧ s ∈ e.regex.matches' := by
    intro i j
    refine (hprog.meaning false s i j).trans ?_
    rw [Expr.matches_wholeLine]
    simp only [SolAt, EolAt, Bool.false_eq_true, false_and, or_false]
    refine and_congr_right ?_
    rintro rfl
    refine (and_comm.trans (and_congr_right ?_))
    rintro rfl
    exact (e.spans hanchors).whole
  rcases vmExecute_searchEnd hwf hs flags with ⟨res, hres, hend⟩
  rw [hicase, hml] at hend
  have hsearch : rxvmSearch line s flags = some (searchResult res.2.tm) := by
    unfold rxvmSearch
    simp only [hprog.program, hres, Option.map_some]
  rw [hsearch]
  refine congrArg some ?_
  by_cases hmem : s ∈ e.regex.matches'
  · rw [if_pos (hmatch.mpr hmem)]
    have hzero : Matched false false s line.exe 0 s.length := (hmatched _ _).mpr ⟨rfl, rfl, hmem⟩
    rcases hend with ⟨i, j, _, hm, _, hstart, hfin⟩ | ⟨_, hnone⟩
    · rcases (hmatched i j).mp hm with ⟨rfl, rfl, _⟩
      rw [searchResult, if_neg (by omega), hstart, hfin]
      simp only [SearchResult.mk.injEq, true_and, Option.some.injEq]
      refine ⟨rfl, ?_⟩
      push_cast
      omega
    · exact absurd hzero (hnone 0 _ .refl)
  · rw [if_neg (hmatch.not.mpr hmem)]
    rcases hend with ⟨i, j, _, hm, _⟩ | ⟨hzero, _⟩
    · exact absurd ((hmatched i j).mp hm).2.2 hmem
    · exact searchResult_missing hzero

/-- The expression `a` and the input `a`. -/
theorem rxvmSearch_wholeText_a : ∃ whole line g' g₁',
    rxvmCompile Statics.init [97] = .ok (.ok whole, g') ∧
      rxvmCompile Statics.init (wholeLineText [97]) = .ok (.ok line, g₁') ∧
      rxvmSearch line [97] {} = some (if rxvmMatch whole [97] {} = some 1
        then ⟨1, some 0, some (([97] : List CChar).length - 1 : Int)⟩ else ⟨0, none, none⟩) := by
  rcases exists_wholeLine_a with
    ⟨e, whole, line, g', g₁', hadm, hanchors, _, _, hspell, hwhole, hline, _⟩
  exact ⟨whole, line, g', g₁', hwhole, hline, rxvmSearch_wholeText rfl rfl hadm hanchors hspell
    hwhole hline (by decide) rfl rfl⟩

end

end Rxvm
