import Rxvm.Ground
import Rxvm.Lib.Last
import Rxvm.Reading

/-!
# Rxvm.Longest — the counters of the fixed substring in one turn

The longest run of literals so far is a word the code outside all groups
requires, and the run that is being read stands at the end of the buffer. A
turn keeps this if it does not go wrong in one of the ways `LfixKept` excludes.
What goes wrong with a run that a longer one takes the place of plays no part.
-/

namespace Rxvm

open Last

/-! ## Turns that do not go wrong -/

/-- The counters `lfix_stop` is called with in this turn. -/
def Context.ending (text : List CChar) (cp : Context) : LfixStatics :=
  if cp.tok.isop then (opStatics text cp).lfix else cp.statics.lfix

/-- `lfix_stop` makes the run the longest one. -/
def LfixStatics.Commits (l : LfixStatics) : Prop := l.lfixCurrent > l.lfixLongest

instance (l : LfixStatics) : Decidable l.Commits := inferInstanceAs (Decidable (_ > _))

/-- The turn ends the run of literals, and makes it the longest one. -/
def Commits (text : List CChar) (cp : Context) : Prop :=
  cp.inCharc = false ∧ cp.tok ≠ .literal ∧ (cp.ending text).Commits

instance (text : List CChar) (cp : Context) : Decidable (Commits text cp) :=
  inferInstanceAs (Decidable (_ ∧ _ ∧ _))

/-- No turn from this one on makes a run the longest one. -/
def Standing (text : List CChar) : Nat × Context → Prop :=
  Never (nextCtx text) fun r => Commits text r.2

/-- The turn makes the run the longest one that is recorded in the end. -/
def Records (text : List CChar) : Nat × Context → Prop :=
  IsLast (nextCtx text) fun r => Commits text r.2

/-- The operand is a character. -/
def OperandIsChar (cp : Context) : Prop :=
  ∃ n, cp.operand = some n ∧ ∃ c, (cp.mem.item n).data = .opChar c

/-- The run the turn ends has no backslash in it, and its last character is not
the operand of a count that can skip it without `lfix_dec`. -/
structure RunKept (text : List CChar) (cp : Context) : Prop where
  escapes : derefSym ∉ (cp.ending text).run text
  counts : opKeeps text cp = true →
    (runText (text.take cp.statics.lex.lp1) cp.statics.lfix.ltemp0).length ≠
      cp.statics.lfix.runLength

/-- The turn makes no character optional that belongs to a run an empty class has
ended. -/
def ClassKept (text : List CChar) (cp : Context) : Prop :=
  cp.inCharc = false → cp.lasttok = .charcClose → opSkips text cp = true → cp.depth = 0 →
    0 < cp.statics.lfix.lfixLongest → ¬ OperandIsChar cp

/-- The turn does not go wrong with the fixed substring: it leaves no group
stranded; and it spoils neither the run that it records, nor the one that has been
recorded before it. -/
structure LfixKept (text : List CChar) (input : Nat) (cp : Context) : Prop where
  groups : ¬ Strands cp
  records : Records text (input, cp) → RunKept text cp
  standing : Standing text (input, cp) → ClassKept text cp

/-! ## The invariant -/

/-- The longest run so far is a word the code requires. -/
def Longest (text : List CChar) (l : LfixStatics) (code : List Inst) : Prop :=
  0 < l.lfixLongest → Requires code (lfixToStr text l.lfix0 l.lfixn)

/-- The run of literals in front of the token at position `k`: there is none;
or the loop has just been entered, where the counters are as the literals at
the start have left them; or the run is at the end of the buffer. -/
inductive RunState (text : List CChar) (k : Nat) (cp : Context) (T : List Inst) : Prop
  | none (hlfixs : cp.statics.lfix.lfixs = false) (h0 : cp.statics.lfix.ltemp0 = 0)
      (hn : cp.statics.lfix.ltempn = 0) : RunState text k cp T
  | start (htok : cp.tok ≠ .literal) (hin : cp.inCharc = false) (hgroups : cp.groups = [])
      (h0 : cp.statics.lfix.ltemp0 = 0)
      (hn : cp.statics.lfix.ltempn = 0 ∨ cp.statics.lfix.ltempn = 4294967295) :
      RunState text k cp T
  | run (hin : cp.inCharc = false) (hgroups : cp.groups = [])
      (hlfixs : cp.tok = .literal → cp.statics.lfix.lfixs = true) (pre : List Inst)
      (chars : List CChar) (hT : T = pre ++ chars.map .opChar)
      (hrun : RunAt text k cp.statics.lfix.ltemp0 chars)
      (hle : cp.statics.lfix.ltemp0 ≤ cp.statics.lfix.ltempn)
      (hlen : cp.statics.lfix.ltempn + 1 ≤ cp.statics.lfix.ltemp0 + chars.length) :
      RunState text k cp T

/-- What holds of the counters in front of the token at position `k`, where `P`
is the code of the program and `T` what is in the buffer. The longest run, if it
stays the longest one, does not need the last instruction of the buffer, unless a
class has come between. -/
structure LfixHolds (text : List CChar) (k : Nat) (cp : Context) (P T : List Inst)
    (stays : Prop) : Prop where
  longest : stays → Longest text cp.statics.lfix (P ++ T)
  settled : stays → Longest text cp.statics.lfix (P ++ T.dropLast) ∨
    (cp.inCharc = true ∨ cp.lasttok = .charcClose) ∧ ∃ c, T.getLast? = some (.opChar c)
  run : RunState text k cp T

/-- The operator of the turn can skip the last instruction of the buffer. -/
structure SkipsLast (text : List CChar) (cp : Context) (T : List Inst) : Prop where
  main : cp.inCharc = false
  isop : cp.tok.isop = true
  groups : cp.groups = []
  skips : opSkips text cp = true
  operand : ∃ n, cp.operand = some n ∧ T.getLast? = some (cp.mem.item n).data

/-- In front of a turn the code requires the word, also without the last
instruction of the buffer if the turn can skip that. -/
structure Needed (text : List CChar) (cp : Context) (P T : List Inst) (w : List CChar) : Prop where
  whole : Requires (P ++ T) w
  skip : SkipsLast text cp T → Requires (P ++ T.dropLast) w
  last : Requires (P ++ T.dropLast) w ∨ ∃ ch, T.getLast? = some (.opChar ch)

section

variable {text : List CChar} {k input : Nat} {cp cp' : Context} {P T P' T' X c d : List Inst}
  {l : LfixStatics}

/-! ## The counters -/

theorem lfixStop_longest (l : LfixStatics) :
    l.lfixStop.lfix0 = (if l.Commits then l.ltemp0 else l.lfix0) ∧
      l.lfixStop.lfixn = (if l.Commits then l.ltempn else l.lfixn) := by
  have hupdate : l.lfixUpdateLongest = if l.Commits then l.lfixSetLongest else l := rfl
  unfold LfixStatics.lfixStop
  rw [hupdate]
  by_cases h : l.Commits
  · rw [if_pos h, if_pos h, if_pos h]
    exact ⟨rfl, rfl⟩
  · rw [if_neg h, if_neg h, if_neg h]
    exact ⟨rfl, rfl⟩

theorem Longest.stop (h : ¬ l.Commits → Longest text l c)
    (hrun : l.Commits → Requires c (lfixToStr text l.ltemp0 l.ltempn)) :
    Longest text l.lfixStop c := by
  rcases lfixStop_longest l with ⟨h0, hn⟩
  unfold Longest LfixStatics.lfixLongest
  rw [h0, hn]
  by_cases hc : l.Commits
  · rw [if_pos hc, if_pos hc]
    exact fun _ => hrun hc
  · rw [if_neg hc, if_neg hc]
    exact h hc

theorem lfixDec_eq (l : LfixStatics) : l.lfixDec.ltemp0 = l.ltemp0 ∧
    l.lfixDec.lfix0 = l.lfix0 ∧ l.lfixDec.lfixn = l.lfixn := by
  unfold LfixStatics.lfixDec
  split <;> exact ⟨rfl, rfl, rfl⟩

theorem not_commits (h : l.ltempn = l.ltemp0) : ¬ l.Commits := by
  have hzero : l.lfixCurrent = 0 := by
    unfold LfixStatics.lfixCurrent
    rw [h, Int.sub_self]
    rfl
  unfold LfixStatics.Commits
  rw [hzero]
  exact Nat.not_lt_zero _

/-- A run of one character never becomes the longest one. -/
theorem lt_of_commits (h : l.Commits) (hle : l.ltemp0 ≤ l.ltempn) : l.ltemp0 < l.ltempn := by
  rcases Nat.lt_or_eq_of_le hle with hlt | heq
  · exact hlt
  · exact absurd h (not_commits heq.symm)

theorem runLength_eq (hle : l.ltemp0 ≤ l.ltempn) (hn : l.ltempn < 2147483648) :
    l.runLength = l.ltempn + 1 - l.ltemp0 := by
  unfold LfixStatics.runLength
  rw [i32_eq (by omega) (by omega), i32_eq (by omega) (by omega)]
  omega

/-- The counters the literals at the start leave when a newline is the first of
them delimit nothing. -/
theorem lfixToStr_wrapped (h0 : l.ltemp0 = 0) (hn : 4294967294 ≤ l.ltempn)
    (hlt : l.ltempn < 4294967296) : lfixToStr text l.ltemp0 l.ltempn = [] := by
  have hneg : i32 l.ltempn < i32 l.ltemp0 := by
    unfold i32
    rw [h0]
    simp only [Int.bmod_def]
    omega
  unfold lfixToStr
  rw [lfixToStrLoop_nil _ hneg]
  rfl

/-! ## Making the run the longest one -/

theorem opKeeps_rep (h : opKeeps text cp = true) : cp.tok = .rep := by
  unfold opKeeps at h
  split at h
  · assumption
  · cases h

theorem Context.ending_eq (text : List CChar) (cp : Context) :
    cp.ending text = if cp.tok.isop = true ∧ opDecs text cp = true then cp.statics.lfix.lfixDec
      else cp.statics.lfix := by
  unfold Context.ending opStatics
  cases cp.tok.isop <;> cases opDecs text cp <;> rfl

/-- The last character of the run is left out if there is one to spare and the
operator calls `lfix_dec`. -/
theorem ending_counters (hn : cp.statics.lfix.ltempn < 4294967296) :
    (cp.ending text).ltemp0 = cp.statics.lfix.ltemp0 ∧
      ((cp.ending text).ltempn = cp.statics.lfix.ltempn ∧
          (cp.tok.isop = true → opDecs text cp = true →
            cp.statics.lfix.ltempn ≤ cp.statics.lfix.ltemp0) ∨
        cp.statics.lfix.ltemp0 < cp.statics.lfix.ltempn ∧
          (cp.ending text).ltempn = cp.statics.lfix.ltempn - 1) := by
  rw [Context.ending_eq]
  by_cases hdec : cp.tok.isop = true ∧ opDecs text cp = true
  · rw [if_pos hdec]
    unfold LfixStatics.lfixDec
    by_cases hlt : cp.statics.lfix.ltempn > cp.statics.lfix.ltemp0
    · rw [if_pos hlt]
      refine ⟨rfl, Or.inr ⟨hlt, ?_⟩⟩
      exact u32_eq (by omega) (by omega)
    · rw [if_neg hlt]
      exact ⟨rfl, Or.inl ⟨rfl, fun _ _ => by omega⟩⟩
  · rw [if_neg hdec]
    exact ⟨rfl, Or.inl ⟨rfl, fun hop hdecs => absurd ⟨hop, hdecs⟩ hdec⟩⟩

/-- What is copied of a run without a backslash comes first in it. -/
theorem lfixToStr_isPrefix {chars : List CChar} (hrun : RunAt text k l.ltemp0 chars)
    (hmem : derefSym ∉ l.run text) {n : Nat} (hlen : l.runLength ≤ n) (hn : n ≤ chars.length) :
    lfixToStr text l.ltemp0 l.ltempn <+: chars.take n := by
  have htake : l.run text = chars.take l.runLength := by
    rcases hrun.runText with ⟨rest, hrest⟩
    unfold LfixStatics.run
    rw [← hrest, List.take_append_of_le_length (hlen.trans hn)]
  rw [lfixToStr_run hmem]
  refine (cstring_isPrefix _).trans ?_
  rw [htake]
  exact List.take_prefix_take_left hlen

/-- What is made the longest run stands at the end of the buffer, and in front
of its last character if an operator can skip that. -/
theorem RunState.commit (hrun : RunState text k cp T) (hkept : RunKept text cp)
    (hc : Commits text cp) (hk : k < 2147483648) (hlp1 : cp.tok = .rep → cp.statics.lex.lp1 = k) :
    ∃ pre chars, T = pre ++ chars.map .opChar ∧
      lfixToStr text (cp.ending text).ltemp0 (cp.ending text).ltempn <+: chars ∧
      (cp.tok.isop = true → opSkips text cp = true →
        lfixToStr text (cp.ending text).ltemp0 (cp.ending text).ltempn <+: chars.dropLast) := by
  have hcommits := hc.2.2
  cases hrun with
  | none _ h0 hn =>
      rcases @ending_counters text cp (by omega) with ⟨h0', hn'⟩
      exact absurd hcommits (not_commits (by omega))
  | start _ _ _ h0 hn =>
      rcases @ending_counters text cp (by omega) with ⟨h0', hn'⟩
      rcases hn with hn | hn
      · exact absurd hcommits (not_commits (by omega))
      · rw [lfixToStr_wrapped (h0'.trans h0) (by omega) (by omega)]
        exact ⟨T, [], (List.append_nil T).symm, List.nil_prefix, fun _ _ => List.nil_prefix⟩
  | run _ _ _ pre chars hT hrun hle hlen =>
      have hbound := hrun.length_le
      rcases @ending_counters text cp (by omega) with ⟨h0', hn'⟩
      have hlt := lt_of_commits hcommits (by omega)
      have hlength : (cp.ending text).runLength =
          (cp.ending text).ltempn + 1 - (cp.ending text).ltemp0 :=
        runLength_eq (by omega) (by omega)
      -- the run that ends is the one the counters delimit, or it without its last character
      have hrun' : RunAt text k (cp.ending text).ltemp0 chars := by rwa [h0']
      have hcopied := @lfixToStr_isPrefix text k (cp.ending text) chars hrun' hkept.escapes
      have hall := hcopied (show _ ≤ chars.length by omega) (Nat.le_refl _)
      rw [List.take_length] at hall
      refine ⟨pre, chars, hT, hall, ?_⟩
      intro hop hskips
      rw [List.dropLast_eq_take]
      refine hcopied ?_ (Nat.sub_le _ _)
      rcases hn' with ⟨hn', hnodec⟩ | ⟨_, hn'⟩
      · -- the count keeps the whole run, so its last character is not in it
        have hkeeps : opKeeps text cp = true := by
          rcases Bool.or_eq_true_iff.mp hskips with hdecs | hkeeps
          · have := hnodec hop hdecs
            omega
          · exact hkeeps
        have hne := hkept.counts hkeeps
        rw [hlp1 (opKeeps_rep hkeeps), hrun.runText_take, runLength_eq hle (by omega)] at hne
        omega
      · omega

theorem requires_run {chars w : List CChar} (hP : Closed P) (hX : Atoms X) (h : w <+: chars) :
    Requires (P ++ (X ++ chars.map .opChar)) w := by
  refine Requires.behind (Requires.behind ?_ hX.closed (closed_chars chars)) hP
    (hX.closed.append (closed_chars chars))
  exact (requires_chars chars).shorten h

theorem RunState.needed (hrun : RunState text k cp T) (hkept : RunKept text cp)
    (hc : Commits text cp) (hk : k < 2147483648) (hlp1 : cp.tok = .rep → cp.statics.lex.lp1 = k)
    (hP : Closed P) (hT : Atoms T) : Needed text cp P T
      (lfixToStr text (cp.ending text).ltemp0 (cp.ending text).ltempn) := by
  rcases hrun.commit hkept hc hk hlp1 with ⟨pre, chars, rfl, hall, hskip⟩
  have hpre : Atoms pre := fun inst hinst => hT inst (List.mem_append_left _ hinst)
  by_cases hnil : chars = []
  · rw [hnil] at hall
    rw [List.prefix_nil.mp hall]
    exact ⟨requires_nil _, fun _ => requires_nil _, Or.inl (requires_nil _)⟩
  · refine ⟨requires_run hP hpre hall, ?_, Or.inr ⟨chars.getLast hnil, ?_⟩⟩
    · intro hskips
      rw [List.dropLast_append_of_ne_nil (by simpa using hnil), ← List.map_dropLast]
      exact requires_run hP hpre (hskip hskips.isop hskips.skips)
    · rw [List.getLast?_append_of_ne_nil _ (by simpa using hnil), List.getLast?_map,
        List.getLast?_eq_getLast_of_ne_nil hnil]
      rfl

/-! ## What a turn keeps -/

/-- A turn keeps such a word. -/
theorem GroundTurn.keeps {w : List CChar} (hturn : GroundTurn text cp P T cp' P' T')
    (hread : ReadAt text k input cp) (heos : cp.tok ≠ .eos) (herr : ∀ e, cp.tok ≠ .error e)
    (hP : Closed P) (hT : Atoms T) (hneeded : Needed text cp P T w) :
    Requires (P' ++ T') w ∧ (Requires (P' ++ T'.dropLast) w ∨
      (cp'.inCharc = true ∨ cp.tok = .charcClose) ∧ ∃ ch, T'.getLast? = some (.opChar ch)) := by
  have hPT := hP.append hT.closed
  rcases hneeded with ⟨h, hskip, hlast⟩
  cases hturn with
  | put hmain hop hparen _ hin _ X hX hXT =>
      -- what has been put behind the program has an empty buffer behind it
      have hmove : ∀ Y, Closed Y → Requires (P ++ X ++ (T ++ Y)) w := by
        intro Y hY
        rcases hXT with rfl | rfl
        · rw [List.append_nil, ← List.append_assoc]
          exact h.append hPT hY
        · rw [List.append_nil] at h
          rw [List.nil_append, List.append_assoc]
          exact h.append hP (hX.append hY)
      cases hinst : singleInst text cp with
      | some inst =>
          have hatom := singleInst_isAtom hinst
          refine ⟨hmove _ (Atoms.nil.concat hatom).closed, Or.inl ?_⟩
          rw [Option.toList_some, List.dropLast_concat]
          have hnil := hmove [] Closed.nil
          rwa [List.append_nil] at hnil
      | none =>
          have hclass : cp'.inCharc = true ∨ cp.tok = .charcClose := by
            rcases hread.quiet hmain hop hparen heos herr hinst with htok | htok
            · exact Or.inl (hin.trans (decide_eq_true htok))
            · exact Or.inr htok
          refine ⟨hmove [] Closed.nil, ?_⟩
          rw [Option.toList_none, List.append_nil]
          rcases hlast with hdrop | hchar
          · left
            rcases hXT with rfl | rfl
            · rwa [List.append_nil]
            · exact hmove [] Closed.nil
          · exact Or.inr ⟨hclass, hchar⟩
  | hide _ _ _ _ _ X hX hXT =>
      have hall : Requires (P ++ X ++ []) w := by
        rw [List.append_nil]
        rcases hXT with rfl | rfl
        · exact h
        · rw [List.append_nil] at h
          exact h.append hP hX
      exact ⟨hall, Or.inl hall⟩
  | operate hmain hop _ _ hgroups x hx hdata c hc hstarts =>
      have hsplit : T = T.dropLast ++ [x] := (List.dropLast_append_getLast? x hx).symm
      have hinit : Closed (P ++ T.dropLast) := by
        refine hP.append (Atoms.closed ?_)
        exact fun inst hinst => hT inst (List.mem_of_mem_dropLast hinst)
      have hall : Requires (P ++ T.dropLast ++ c ++ []) w := by
        rw [List.append_nil]
        by_cases hskips : opSkips text cp = true
        · rcases hdata with ⟨n, hn, rfl⟩
          exact (hskip ⟨hmain, hop, hgroups, hskips, n, hn, hx⟩).append hinit hc
        · rw [hsplit, ← List.append_assoc] at h
          have hx : Closed [x] := Atoms.closed fun inst hinst => hT inst (by
            rw [hsplit]
            exact List.mem_append_right _ hinst)
          exact h.starts (hstarts (by simpa using hskips)) hinit hx hc
      exact ⟨hall, Or.inl hall⟩
  | operateGroup _ _ _ _ _ hnil X hX =>
      have hall : Requires (P ++ X ++ []) w := by
        rw [hnil, List.append_nil] at h
        rw [List.append_nil]
        exact h.append hP hX
      exact ⟨hall, Or.inl hall⟩
  | charc hcharc _ hin _ _ hT' =>
      rcases hT' with rfl | ⟨inst, hatom, rfl⟩
      · refine ⟨h, hlast.imp_right fun hchar => ⟨?_, hchar⟩⟩
        by_cases htok : cp.tok = .charcClose
        · exact Or.inr htok
        · exact Or.inl (hin.trans (decide_eq_true htok))
      · rw [List.dropLast_concat, ← List.append_assoc]
        exact ⟨h.append hPT (Atoms.nil.concat hatom).closed, Or.inl h⟩

/-- What a turn does to the counters: nothing, a further literal, or the end of
the run. -/
def LfixTurned (text : List CChar) (cp cp' : Context) : Prop :=
  (cp'.statics.lfix = cp.statics.lfix ∧ ¬ (cp.inCharc = false ∧ cp.tok ≠ .literal)) ∨
  (cp'.statics.lfix = cp.statics.lfix.lfixContinue cp.statics.lex.lp1 ∧ cp.tok = .literal ∧
    cp.inCharc = false ∧ cp.depth = 0) ∨
  (cp'.statics.lfix = (cp.ending text).lfixStop ∧ cp.inCharc = false ∧ cp.tok ≠ .literal)

theorem lfixTurned_main (hmain : cp.inCharc = false) (hop : cp.tok.isop = false)
    (hstat : cp'.statics = mainStatics cp) : LfixTurned text cp cp' := by
  unfold mainStatics at hstat
  unfold LfixTurned
  rw [Context.ending_eq, if_neg (by simp [hop])]
  split_ifs at hstat with htok hcount
  · exact Or.inr (Or.inl ⟨by rw [hstat], htok, hmain, hcount.2⟩)
  · exact Or.inl ⟨by rw [hstat], fun hne => hne.2 htok⟩
  · exact Or.inr (Or.inr ⟨by rw [hstat], hmain, htok⟩)

theorem lfixTurned_operator (hmain : cp.inCharc = false) (hop : cp.tok.isop = true)
    (hstat : cp'.statics = { opStatics text cp with lfix := (opStatics text cp).lfix.lfixStop }) :
    LfixTurned text cp cp' := by
  refine Or.inr (Or.inr ⟨?_, hmain, ?_⟩)
  · rw [hstat, Context.ending, if_pos hop]
  · intro htok
    rw [htok] at hop
    cases hop

theorem lfixTurned_charc (hcharc : cp.inCharc = true)
    (hlfix : cp'.statics.lfix = cp.statics.lfix) : LfixTurned text cp cp' := by
  refine Or.inl ⟨hlfix, ?_⟩
  intro hne
  rw [hcharc] at hne
  cases hne.1

/-- The counters behind a turn. -/
theorem GroundTurn.lfix (hturn : GroundTurn text cp P T cp' P' T') : LfixTurned text cp cp' := by
  cases hturn with
  | put hin hop _ hstat => exact lfixTurned_main hin hop hstat
  | hide hin hop hstat => exact lfixTurned_main hin hop hstat
  | operate hin hop hstat => exact lfixTurned_operator hin hop hstat
  | operateGroup hin hop hstat => exact lfixTurned_operator hin hop hstat
  | charc hcharc hlfix => exact lfixTurned_charc hcharc hlfix

theorem ending_longest (text : List CChar) (cp : Context) :
    (cp.ending text).lfix0 = cp.statics.lfix.lfix0 ∧
      (cp.ending text).lfixn = cp.statics.lfix.lfixn := by
  rw [Context.ending_eq]
  split
  · exact ⟨(lfixDec_eq _).2.1, (lfixDec_eq _).2.2⟩
  · exact ⟨rfl, rfl⟩

/-- The longest run behind a turn is the run the turn makes the longest one, or the
one before. -/
theorem LfixTurned.longest (h : LfixTurned text cp cp') :
    cp'.statics.lfix.lfix0 =
        (if Commits text cp then (cp.ending text).ltemp0 else cp.statics.lfix.lfix0) ∧
      cp'.statics.lfix.lfixn =
        (if Commits text cp then (cp.ending text).ltempn else cp.statics.lfix.lfixn) := by
  rcases h with ⟨hlfix, hquiet⟩ | ⟨hlfix, hlit, _⟩ | ⟨hlfix, hmain, htok⟩
  · have hno : ¬ Commits text cp := fun hc => hquiet ⟨hc.1, hc.2.1⟩
    rw [if_neg hno, if_neg hno, hlfix]
    exact ⟨rfl, rfl⟩
  · have hno : ¬ Commits text cp := fun hc => hc.2.1 hlit
    rw [if_neg hno, if_neg hno, hlfix]
    unfold LfixStatics.lfixContinue
    split <;> exact ⟨rfl, rfl⟩
  · have hiff : Commits text cp ↔ (cp.ending text).Commits :=
      ⟨fun hc => hc.2.2, fun hc => ⟨hmain, htok, hc⟩⟩
    have hstop := lfixStop_longest (cp.ending text)
    rw [(ending_longest text cp).1, (ending_longest text cp).2] at hstop
    rw [hlfix]
    simp only [hiff]
    exact hstop

/-- What the counters of the longest run delimit behind a turn, if that stays the
longest one from there on. -/
theorem LfixHolds.needed {r' : Nat × Context}
    (h : LfixHolds text k cp P T (Standing text (input, cp))) (hkept : LfixKept text input cp)
    (hk : k < 2147483648) (hread : ReadAt text k input cp) (hdepth : cp.groups = [] → cp.depth = 0)
    (hP : Closed P) (hT : Atoms T) (hturn : GroundTurn text cp P T cp' P' T')
    (hnext : nextCtx text (input, cp) = some r') (hstays : Standing text r')
    (hpos : 0 < cp'.statics.lfix.lfixLongest) :
    Needed text cp P T (lfixToStr text cp'.statics.lfix.lfix0 cp'.statics.lfix.lfixn) := by
  rcases hturn.lfix.longest with ⟨h0, hn⟩
  by_cases hc : Commits text cp
  -- the run the turn ends becomes the longest one
  · rw [if_pos hc] at h0 hn
    rw [h0, hn]
    exact h.run.needed (hkept.records (Never.isLast hstays hnext hc)) hc hk hread.lp1 hP hT
  -- the longest run stays the same
  · rw [if_neg hc] at h0 hn
    have hstands : Standing text (input, cp) := Never.cons hstays hnext hc
    unfold LfixStatics.lfixLongest at hpos
    rw [h0, hn] at hpos ⊢
    refine ⟨h.longest hstands hpos, ?_, ?_⟩
    · intro hskips
      rcases h.settled hstands with hsettled | ⟨hclass, ch, hch⟩
      · exact hsettled hpos
      · exfalso
        have hlast : cp.lasttok = .charcClose := by
          rcases hclass with hin | hlast
          · rw [hskips.main] at hin
            cases hin
          · exact hlast
        rcases hskips.operand with ⟨n, hn', hdata⟩
        refine hkept.standing hstands hskips.main hlast hskips.skips (hdepth hskips.groups) hpos ?_
        exact ⟨n, hn', ch, Option.some.inj (hdata.symm.trans hch)⟩
    · exact (h.settled hstands).imp (fun hsettled => hsettled hpos) fun hclass => hclass.2

/-- A literal outside the groups begins a run or goes on with it, or is not
counted. -/
theorem RunState.literal {cp₂ : Context} (h : RunState text k cp T) (hk : k < 2147483648)
    (htok : cp.tok = .literal) (hlit : LiteralAt text k input cp.statics.lex.lp1)
    (hlfix : cp₂.statics.lfix = cp.statics.lfix ∨
      cp₂.statics.lfix = cp.statics.lfix.lfixContinue cp.statics.lex.lp1)
    (hin : cp₂.inCharc = false) (hgroups : cp₂.groups = []) :
    RunState text input cp₂ (T ++ [.opChar (at' text cp.statics.lex.lp1)]) := by
  have hlp1 : cp.statics.lex.lp1 ≤ k + 1 := by
    generalize cp.statics.lex.lp1 = lp1 at hlit
    cases hlit <;> omega
  cases h with
  | none hlfixs h0 hn =>
      rcases hlfix with hlfix | hlfix
      · rw [← hlfix] at hlfixs h0 hn
        exact .none hlfixs h0 hn
      -- the literal begins a run of its own
      · have hstart : cp₂.statics.lfix.lfixs = true ∧
            cp₂.statics.lfix.ltemp0 = cp.statics.lex.lp1 ∧
            cp₂.statics.lfix.ltempn = cp.statics.lex.lp1 := by
          rw [hlfix, LfixStatics.lfixContinue, if_neg (by simp [hlfixs])]
          exact ⟨rfl, u32_eq rfl (by omega), u32_eq rfl (by omega)⟩
        rcases hstart with ⟨hs, h0', hn'⟩
        refine .run hin hgroups (fun _ => hs) T [at' text cp.statics.lex.lp1] rfl ?_ ?_ ?_
        · rw [h0']
          exact .single hlit
        · omega
        · rw [h0', hn', List.length_singleton]
  | start htok' => exact absurd htok htok'
  | run _ _ hlfixs pre chars hT hrun hle hlen =>
      have hbound := hrun.length_le
      -- the run goes on, whether the literal is counted or not
      have hnext : cp₂.statics.lfix.lfixs = true ∧
          cp₂.statics.lfix.ltemp0 = cp.statics.lfix.ltemp0 ∧
          cp.statics.lfix.ltempn ≤ cp₂.statics.lfix.ltempn ∧
          cp₂.statics.lfix.ltempn ≤ cp.statics.lfix.ltempn + 1 := by
        rcases hlfix with hlfix | hlfix
        · rw [hlfix]
          exact ⟨hlfixs htok, rfl, Nat.le_refl _, Nat.le_succ _⟩
        · have hu32 : u32 ((cp.statics.lfix.ltempn : Int) + 1) = cp.statics.lfix.ltempn + 1 :=
            u32_eq (by push_cast; rfl) (by omega)
          rw [hlfix, LfixStatics.lfixContinue, if_pos (hlfixs htok)]
          exact ⟨hlfixs htok, rfl, (Nat.le_succ _).trans (Nat.le_of_eq hu32.symm), Nat.le_of_eq hu32⟩
      rcases hnext with ⟨hs, h0', hge', hle'⟩
      refine .run hin hgroups (fun _ => hs) pre (chars ++ [at' text cp.statics.lex.lp1]) ?_ ?_ ?_ ?_
      · rw [hT, List.map_append, List.append_assoc]
        rfl
      · rw [h0']
        exact hrun.concat hlit
      · omega
      · rw [List.length_append, List.length_singleton]
        omega

/-- The run behind a turn. -/
theorem RunState.turn {cp₂ : Context} (h : RunState text k cp T) (hk : k < 2147483648)
    (hread : ReadAt text k input cp) (hdepth : cp.groups = [] → cp.depth = 0)
    (hturn : GroundTurn text cp P T cp' P' T') (hlfix : cp₂.statics.lfix = cp'.statics.lfix)
    (hin : cp₂.inCharc = cp'.inCharc) (hgroups : cp₂.groups = cp'.groups) :
    RunState text input cp₂ T' := by
  have hcases := hturn.lfix
  unfold LfixTurned at hcases
  rw [← hlfix] at hcases
  -- the counters stay as they are and delimit nothing
  have hsame : cp₂.statics.lfix = cp.statics.lfix → (cp.inCharc = true ∨ cp.groups ≠ [] ∧
      cp.tok = .literal) → RunState text input cp₂ T' := by
    intro heq hcase
    cases h with
    | none hlfixs h0 hn =>
        rw [← heq] at hlfixs h0 hn
        exact .none hlfixs h0 hn
    | start htok hmain hg =>
        rcases hcase with hcharc | ⟨_, hlit⟩
        · rw [hmain] at hcharc
          cases hcharc
        · exact absurd hlit htok
    | run hmain hg =>
        rcases hcase with hcharc | ⟨hne, _⟩
        · rw [hmain] at hcharc
          cases hcharc
        · exact absurd hg hne
  by_cases hstop : cp₂.statics.lfix = (cp.ending text).lfixStop
  · refine .none ?_ ?_ ?_
    all_goals rw [hstop]; rfl
  have hliteral : cp.inCharc = false → cp.tok = .literal ∧ (cp₂.statics.lfix = cp.statics.lfix ∨
      cp₂.statics.lfix = cp.statics.lfix.lfixContinue cp.statics.lex.lp1 ∧ cp.depth = 0) := by
    intro hmain
    rcases hcases with ⟨heq, hne⟩ | ⟨heq, htok, _, hd⟩ | ⟨heq, _⟩
    · exact ⟨by simpa [hmain] using hne, Or.inl heq⟩
    · exact ⟨htok, Or.inr ⟨heq, hd⟩⟩
    · exact absurd heq hstop
  cases hturn with
  | put hmain _ _ _ hin' hgroups' =>
      rcases hliteral hmain with ⟨htok, heq⟩
      have hinst : singleInst text cp = some (.opChar (at' text cp.statics.lex.lp1)) := by
        unfold singleInst
        rw [htok]
        rfl
      rw [hinst]
      refine h.literal hk htok (hread.literalAt hmain htok) (heq.imp_right And.left) ?_ ?_
      · rw [hin, hin', htok]
        rfl
      · rw [hgroups, hgroups']
  | hide hmain _ _ _ hdeep =>
      rcases hliteral hmain with ⟨htok, heq⟩
      have hne := hdeep htok
      rcases heq with heq | ⟨_, hd⟩
      · exact hsame heq (Or.inr ⟨fun hg => hne (hdepth hg), htok⟩)
      · exact absurd hd hne
  | operate hmain hop =>
      rw [(hliteral hmain).1] at hop
      cases hop
  | operateGroup hmain hop =>
      rw [(hliteral hmain).1] at hop
      cases hop
  | charc hcharc hlfix' => exact hsame (hlfix.trans hlfix') (Or.inl hcharc)

/-- A turn that does not go wrong keeps what holds of the counters. -/
theorem LfixHolds.turn {r' : Nat × Context}
    (h : LfixHolds text k cp P T (Standing text (input, cp))) (hkept : LfixKept text input cp)
    (hk : k < 2147483648) (hread : ReadAt text k input cp) (heos : cp.tok ≠ .eos)
    (herr : ∀ e, cp.tok ≠ .error e) (hdepth : cp.groups = [] → cp.depth = 0)
    (hP : Closed P) (hT : Atoms T) (hturn : GroundTurn text cp P T cp' P' T')
    (hnext : nextCtx text (input, cp) = some r') (hlfix : r'.2.statics.lfix = cp'.statics.lfix)
    (hin : r'.2.inCharc = cp'.inCharc) (hgroups : r'.2.groups = cp'.groups)
    (hlast : r'.2.lasttok = cp.tok) :
    LfixHolds text input r'.2 P' T' (Standing text r') := by
  have hkeeps : Standing text r' → 0 < cp'.statics.lfix.lfixLongest → _ := fun hstays hpos =>
    hturn.keeps hread heos herr hP hT
      (h.needed hkept hk hread hdepth hP hT hturn hnext hstays hpos)
  refine ⟨?_, ?_, h.run.turn hk hread hdepth hturn hlfix hin hgroups⟩
  · intro hstays
    rw [hlfix]
    exact fun hpos => (hkeeps hstays hpos).1
  · intro hstays
    rw [hlfix, hin, hlast]
    by_cases hpos : 0 < cp'.statics.lfix.lfixLongest
    · exact (hkeeps hstays hpos).2.imp (fun hsettled _ => hsettled) id
    · exact Or.inl fun hpos' => absurd hpos' hpos

end

end Rxvm
