import Rxvm.Fuzz
import Rxvm.Lib.Attempts
import Rxvm.Regex

/-!
# Rxvm.Viable — a search in terms of the language

Where no anchor stands, every thread can still get to `match`: from any
instruction of a compiled program on, there is a text that leads there. So an
attempt gets as far as words of the language begin with the text, and where the
next attempt starts is a matter of the language too. Then so is all that
`rxvm_search` returns, and the search by derivatives returns the same.
-/

namespace Rxvm

open Relation Language

/-! ## No dead ends -/

/-- Some character passes the test of the instruction. An anchor takes none. -/
def Inst.Passable : Inst → Prop
  | .opBranch _ _ | .opJmp _ | .opMatch => True
  | inst => ∃ c, inst.eats false c = true

theorem Inst.Passable.straight : Straight Inst.Passable := ⟨fun _ _ => trivial, fun _ => trivial⟩

theorem SetItem.Has.bounds {item : SetItem} {c : CChar} (h : item.Has c) :
    0 < c.toInt ∧ c.toInt < 127 := by
  cases item with
  | char l =>
      obtain rfl : c = l.c := h
      exact isprintable_bounds l.printable
  | range lo hi =>
      have hlo := isprintable_bounds lo.printable
      have hhi := isprintable_bounds hi.printable
      simp only [SetItem.Has, Int8.le_iff_toInt_le] at h
      omega

/-- An item is not empty. -/
theorem SetItem.exists_has (item : SetItem) : ∃ c, item.Has c := by
  cases item with
  | char l => exact ⟨l.c, rfl⟩
  | range lo hi =>
      refine ⟨lo.c, ?_⟩
      rcases Int.le_total lo.c.toInt hi.c.toInt with hle | hle
      · exact .inl ⟨Int8.le_refl _, Int8.le_iff_toInt_le.mpr hle⟩
      · exact .inr ⟨Int8.le_iff_toInt_le.mpr hle, Int8.le_refl _⟩

theorem Lexeme.passable {x : Lexeme} (hx : x ≠ .sol ∧ x ≠ .eol) {inst : Inst}
    (h : x.inst = some inst) : inst.Passable := by
  cases x with
  | sol => exact absurd rfl hx.1
  | eol => exact absurd rfl hx.2
  | char l =>
      cases h
      exact ⟨l.c, by simp [Inst.eats, charMatch]⟩
  | any =>
      cases h
      exact ⟨127, by decide⟩
  | set negated item items =>
      cases h
      cases negated with
      | false =>
          rcases item.exists_has with ⟨c, hc⟩
          refine ⟨c, ccsMatch_false.mpr ?_⟩
          exact SetItem.mem_flatMap_chars.mpr ⟨item, List.mem_cons_self, hc⟩
      | true =>
          -- no item of a class has the character 127
          refine ⟨127, ?_⟩
          show (!ccsMatch false ((item :: items).flatMap SetItem.chars) 127) = true
          rw [Bool.not_eq_true', ← Bool.not_eq_true, ccsMatch_false]
          intro hmem
          rcases SetItem.mem_flatMap_chars.mp hmem with ⟨y, _, hhas⟩
          exact absurd hhas.bounds.2 (by decide)
  | _ => cases h

/-! ## Paths and the text they have read -/

section

variable {ml : Bool} {s s' : List CChar} {exe : List Inst} {q : Nat}

theorem NfaStep.congr (hpass : ∀ inst ∈ exe, inst.Passable) (htake : s.take q = s'.take q)
    {a b : Nat × Nat} (h : NfaStep false ml s exe a b) (hb : b.2 ≤ q) :
    NfaStep false ml s' exe a b := by
  cases h with
  | @eat ip p inst hi hp he =>
      have hq : p < q := hb
      have hlen := congrArg List.length htake
      rw [List.length_take, List.length_take] at hlen
      have hchar : at' s p = at' s' p := by rw [← at'_take hq, htake, at'_take hq]
      rw [hchar] at he
      exact .eat hi (by omega) he
  | sol hi =>
      rcases hpass _ (List.mem_of_getElem? hi) with ⟨c, hc⟩
      cases hc
  | eol hi =>
      rcases hpass _ (List.mem_of_getElem? hi) with ⟨c, hc⟩
      cases hc
  | branchX hi => exact .branchX hi
  | branchY hi => exact .branchY hi
  | jmp hi => exact .jmp hi

/-- A path depends on the text up to where it ends. -/
theorem NfaPath.congr (hpass : ∀ inst ∈ exe, inst.Passable) (htake : s.take q = s'.take q)
    {a b : Nat × Nat} (h : NfaPath false ml s exe a b) (hb : b.2 ≤ q) :
    NfaPath false ml s' exe a b := by
  induction h with
  | refl => exact .refl
  | tail _ hstep ih => exact (ih (hstep.pos_le.1.trans hb)).tail (hstep.congr hpass htake hb)

/-- A path is at each position between its ends. -/
theorem NfaPath.at_pos {icase : Bool} {a b : Nat × Nat} (h : NfaPath icase ml s exe a b)
    (ha : a.2 ≤ q) (hb : q ≤ b.2) : ∃ v, NfaPath icase ml s exe a (v, q) := by
  induction h with
  | refl =>
      obtain rfl : q = a.2 := hb.antisymm ha
      exact ⟨a.1, .refl⟩
  | @tail b c hpath hstep ih =>
      by_cases hq : q ≤ b.2
      · exact ih hq
      · obtain rfl : q = c.2 := by
          have := hstep.pos_le.2
          omega
        exact ⟨c.1, hpath.tail hstep⟩

/-- From the instruction on, a text leads to `match`. -/
def Alive (exe : List Inst) (v : Nat) : Prop :=
  ∃ w, ∀ ml u, ∃ m, exe[m]? = some .opMatch ∧
    NfaPath false ml (u ++ w) exe (v, u.length) (m, u.length + w.length)

theorem Alive.eat {v : Nat} {inst : Inst} {c : CChar} (hi : exe[v]? = some inst)
    (hc : inst.eats false c = true) (h : Alive exe (v + 1)) : Alive exe v := by
  rcases h with ⟨w, hw⟩
  refine ⟨c :: w, fun ml u => ?_⟩
  rcases hw ml (u ++ [c]) with ⟨m, hm, hpath⟩
  rw [List.append_assoc, List.singleton_append, List.length_append, List.length_singleton] at hpath
  have hstep : NfaStep false ml (u ++ c :: w) exe (v, u.length) (v + 1, u.length + 1) := by
    refine .eat hi (by simp) ?_
    rw [show at' (u ++ c :: w) u.length = c by simp [at']]
    exact hc
  refine ⟨m, hm, .head hstep ?_⟩
  rw [List.length_cons, Nat.add_comm w.length, ← Nat.add_assoc]
  exact hpath

theorem Alive.step {v v' : Nat}
    (hstep : ∀ ml s p, NfaStep false ml s exe (v, p) (v', p)) (h : Alive exe v') : Alive exe v := by
  rcases h with ⟨w, hw⟩
  refine ⟨w, fun ml u => ?_⟩
  rcases hw ml u with ⟨m, hm, hpath⟩
  exact ⟨m, hm, .head (hstep ml _ _) hpath⟩

/-- No instruction of a well made program without anchors is a dead end: its
jumps and the second targets of its branches lead forward. -/
theorem ProgramOk.alive (hok : ProgramOk exe) (hpass : ∀ inst ∈ exe, inst.Passable) {v : Nat}
    (hv : v < exe.length) : Alive exe v := by
  -- by strong induction on the distance to the end of the program
  induction hn : exe.length - v using Nat.strong_induction_on generalizing v with
  | _ n ih =>
    have hi := List.getElem?_eq_getElem hv
    generalize exe[v] = inst at hi
    have hleads := hok.leads v inst hi
    have hsome := hpass inst (List.mem_of_getElem? hi)
    have heat : (∃ c, inst.eats false c = true) → inst ≠ .opMatch → Alive exe v := by
      rintro ⟨c, hc⟩ hne
      have hlt := hok.wellFormed.succ_lt hi hne
      exact .eat hi hc (ih _ (by omega) hlt rfl)
    cases inst with
    | opMatch => exact ⟨[], fun ml u => ⟨v, hi, .refl⟩⟩
    | opJmp x =>
        simp only [Inst.leads] at hleads
        exact .step (fun _ _ _ => .jmp hi) (ih _ (by omega) (by omega) rfl)
    | opBranch x y =>
        simp only [Inst.leads] at hleads
        -- `y` of a branch leads forward
        exact .step (fun _ _ _ => .branchY hi) (ih _ (by omega) (by omega) rfl)
    | opChar | opAny | opClass | opNclass => exact heat hsome (by simp)
    | opSol | opEol =>
        rcases hsome with ⟨c, hc⟩
        cases hc

end

/-! ## The attempts of a search -/

/-- A well made program without anchors, and the language it accepts. -/
structure Recognizes (exe : List Inst) (L : Language CChar) : Prop where
  ok : ProgramOk exe
  passable : ∀ inst ∈ exe, inst.Passable
  accepts : ∀ {ml s i j}, i ≤ s.length → (Accepts false ml s exe i j ↔ L.Occurs s i j)

section

variable {ml ng : Bool} {s : List CChar} {exe : List Inst} {L : Language CChar} {r q : Nat}

/-- The automaton gets as far as words begin with the text: a thread that is
alive can be led to `match`, by a text that then ends a word. -/
theorem Recognizes.reach_iff (h : Recognizes exe L) (hr : r ≤ s.length) :
    (∃ v, Reach false ml s exe r q v) ↔ L.Begins s r q := by
  constructor
  · rintro ⟨v, hv⟩
    have hq : q ≤ s.length := NfaPath.pos_le_length hv hr
    have hrq : r ≤ q := NfaPath.pos_le hv
    have hlen : (s.take q).length = q := by simpa using hq
    have hlt : v < exe.length := reach_lt h.ok.wellFormed hv
    -- what is read so far can be continued to a word
    rcases h.ok.alive h.passable hlt with ⟨w, hw⟩
    rcases hw ml (s.take q) with ⟨m, hm, hpath⟩
    rw [hlen] at hpath
    have hstart : Reach false ml (s.take q ++ w) exe r q v :=
      NfaPath.congr h.passable (by rw [List.take_left' hlen]) hv (Nat.le_refl q)
    have hoccurs := (h.accepts (by simp; omega)).mp ⟨m, hm, hstart.trans hpath⟩
    rcases occurs_iff.mp hoccurs with ⟨_, _, hword⟩
    rw [List.take_of_length_le (by simp), List.drop_append_of_le_length (by omega)] at hword
    exact begins_iff.mpr ⟨hrq, hq, w, hword⟩
  · intro hbegins
    -- the path of the whole word passes through here
    rcases begins_iff.mp hbegins with ⟨hrq, hq, v, hword⟩
    have hlen : (s.take q).length = q := by simpa using hq
    have hoccurs : L.Occurs (s.take q ++ v) r (q + v.length) := by
      refine occurs_iff.mpr ⟨by omega, by simp; omega, ?_⟩
      rw [List.take_of_length_le (by simp), List.drop_append_of_le_length (by omega)]
      exact hword
    rcases (@Recognizes.accepts _ _ h ml _ _ _ (by simp; omega)).mpr hoccurs with ⟨m, _, hpath⟩
    rcases NfaPath.at_pos hpath hrq (Nat.le_add_right q _) with ⟨x, hx⟩
    exact ⟨x, NfaPath.congr h.passable (List.take_left' hlen) hx (Nat.le_refl q)⟩

theorem Recognizes.matched_iff (h : Recognizes exe L) (hr : r ≤ s.length) :
    Matched false ml s exe r q ↔ L.Occurs s r q := h.accepts hr

theorem Recognizes.nextAttempt_iff (h : Recognizes exe L) (hr : r ≤ s.length) {r' : Nat} :
    NextAttempt false ml s exe r r' ↔ L.Skips s r r' := by
  constructor
  · rintro ⟨hno, q, _, hq, halive, hdead, hr'⟩
    refine ⟨fun j hj => hno j ((h.matched_iff hr).mpr hj), q, hq, (h.reach_iff hr).mp halive,
      ?_, hr'⟩
    intro hbegins
    rcases (h.reach_iff hr).mpr hbegins with ⟨v, hv⟩
    exact hdead v hv
  · rintro ⟨hno, q, hq, hbegins, hdead, hr'⟩
    refine ⟨fun p hp => hno p ((h.matched_iff hr).mp hp), q, hbegins.le.1, hq,
      (h.reach_iff hr).mpr hbegins, fun v hv => hdead ((h.reach_iff hr).mp ⟨v, hv⟩), hr'⟩

theorem Recognizes.attempted_iff (h : Recognizes exe L) {i : Nat} :
    Attempted false ml s exe i ↔ ReflTransGen (L.Skips s) 0 i := by
  constructor
  · intro hpath
    induction hpath with
    | refl => exact .refl
    | tail hpath hstep ih =>
        exact ih.tail ((h.nextAttempt_iff (Attempted.le_length hpath)).mp hstep)
  · intro hpath
    induction hpath with
    | refl => exact .refl
    | tail _ hstep ih =>
        exact ih.tail ((h.nextAttempt_iff (Attempted.le_length ih)).mpr hstep)

/-- What the machine reports, as the two ends of the match. -/
def Threads.extent (tm : Threads) : Option (Nat × Nat) :=
  if tm.matchEnd = 0 then none else some (tm.matchStart, tm.matchEnd - 1)

/-- The machine's search ends where a search for the language does. -/
theorem Recognizes.finds (h : Recognizes exe L) {tm : Threads}
    (hend : SearchEnd false ml s exe ng 0 tm) : L.Finds s ng 0 tm.extent := by
  rcases hend with ⟨i, j, hpath, hm, hkeeps, hstart, hfin⟩ | ⟨hzero, hnone⟩
  · have hi := Attempted.le_length hpath
    rw [Threads.extent, hfin, if_neg (Nat.succ_ne_zero j), hstart]
    refine ⟨h.attempted_iff.mp hpath, (h.matched_iff hi).mp hm, fun j' hj' => ?_⟩
    exact hkeeps j' ((h.matched_iff hi).mpr hj')
  · rw [Threads.extent, if_pos hzero]
    intro i j hpath hoccurs
    have hattempted : Attempted false ml s exe i := h.attempted_iff.mpr hpath
    exact hnone i j hattempted ((h.matched_iff hattempted.le_length).mpr hoccurs)

end

/-! ## rxvm_search -/

/-- What `rxvm_search` returns for a match between two positions, or for none. -/
def SearchResult.ofExtent : Option (Nat × Nat) → SearchResult
  | some (i, j) => { ret := 1, start := some (i : Int), fin := some ((j : Int) - 1) }
  | none => { ret := 0, start := none, fin := none }

theorem searchResult_eq (tm : Threads) : searchResult tm = .ofExtent tm.extent := by
  by_cases h : tm.matchEnd = 0
  · rw [searchResult, Threads.extent, if_pos h, if_pos h]
    rfl
  · have hfin : ((tm.matchEnd - 1 : Nat) : Int) - 1 = (tm.matchEnd : Int) - 2 := by omega
    rw [searchResult, Threads.extent, if_neg h, if_neg h]
    simp only [SearchResult.ofExtent, hfin]

section

variable {e : Expr .re} {exp : List CChar} {g : Statics}

theorem ProgramOf.recognizes {compiled : Compiled} (h : ProgramOf e compiled) (hadm : e.Admissible)
    (hanchors : ∀ x ∈ e.lexemes, x ≠ .sol ∧ x ≠ .eol) (hok : ProgramOk compiled.exe) :
    Recognizes compiled.exe e.regex.matches' := by
  refine ⟨hok, h.all Inst.Passable.straight trivial hadm fun x hx _ => ?_, ?_⟩
  · exact Lexeme.passable (hanchors x hx)
  · intro ml s i j hi
    rw [h.meaning, e.spans hanchors i j hi]
    rfl

/-- The words of the language can be led to from the first instruction. -/
theorem Recognizes.nonempty {exe : List Inst} {L : Language CChar} (h : Recognizes exe L) :
    ∃ w, w ∈ L := by
  have hbegins : L.Begins [] 0 0 :=
    (@Recognizes.reach_iff false _ _ _ _ 0 h (Nat.le_refl 0)).mp ⟨0, .refl⟩
  rcases hbegins with ⟨w, v, hw, _⟩
  exact ⟨w ++ v, hw⟩

/-- An expression without anchors is compiled to a program that recognizes its
words. -/
theorem rxvmCompile_recognizes (hg : g.isNchar = false) (hadm : e.Admissible)
    (hanchors : ∀ x ∈ e.lexemes, x ≠ .sol ∧ x ≠ .eol) (hlit : ¬ e.LiteralOnly)
    (hspell : Concat Spells e.lexemes exp) :
    ∃ compiled g', rxvmCompile g exp = .ok (.ok compiled, g') ∧ compiled.simple = none ∧
      Recognizes compiled.exe e.regex.matches' := by
  rcases rxvmCompile_programOf hg hadm hlit hspell with ⟨compiled, g', hrun, hprog⟩
  rcases rxvmCompile_program hrun hprog.program with ⟨_, _, _, _, _, _, _, _, _, _, hok, _⟩
  exact ⟨compiled, g', hrun, hprog.program, hprog.recognizes hadm hanchors hok⟩

/-- The search of a program that recognizes a language is one for the language. -/
theorem rxvmSearch_finds {compiled : Compiled} {L : Language CChar} (h : Recognizes compiled.exe L)
    (hprogram : compiled.simple = none) {s : List CChar} (hs : NoNul s) {flags : Flags}
    (hicase : flags.icase = false) :
    ∃ res, L.Finds s flags.nongreedy 0 res ∧
      rxvmSearch compiled s flags = some (.ofExtent res) := by
  rcases vmExecute_searchEnd h.ok.wellFormed hs flags with ⟨res, hres, hend⟩
  rw [hicase] at hend
  refine ⟨res.2.tm.extent, h.finds hend, ?_⟩
  unfold rxvmSearch
  simp only [hprogram, hres, Option.map_some, searchResult_eq]

/-- `rxvm_search` on the compiled expression returns what the search by
derivatives finds. -/
theorem rxvmSearch_find (hg : g.isNchar = false) (hadm : e.Admissible)
    (hanchors : ∀ x ∈ e.lexemes, x ≠ .sol ∧ x ≠ .eol) (hlit : ¬ e.LiteralOnly)
    (hspell : Concat Spells e.lexemes exp) :
    ∃ compiled g', rxvmCompile g exp = .ok (.ok compiled, g') ∧
      ∀ s flags, NoNul s → flags.icase = false →
        rxvmSearch compiled s flags = some (.ofExtent (e.regex.find flags.nongreedy s)) := by
  rcases rxvmCompile_recognizes hg hadm hanchors hlit hspell with
    ⟨compiled, g', hrun, hprogram, hrec⟩
  refine ⟨compiled, g', hrun, fun s flags hs hicase => ?_⟩
  rcases rxvmSearch_finds hrec hprogram hs hicase with ⟨res, hfinds, hres⟩
  rw [hres, hfinds.unique (RegularExpression.find_finds hrec.nonempty)]

/-- The expression `(a|.)*`. -/
theorem rxvmSearch_find_alternative : ∃ e : Expr .re, e.text = [40, 97, 124, 46, 41, 42] ∧
    ∃ compiled g', rxvmCompile Statics.init e.text = .ok (.ok compiled, g') ∧
      ∀ s flags, NoNul s → flags.icase = false →
        rxvmSearch compiled s flags = some (.ofExtent (e.regex.find flags.nongreedy s)) := by
  rcases exists_alternative with ⟨e, htext, hadm, hanchors, hlit⟩
  exact ⟨e, htext, rxvmSearch_find rfl hadm hanchors hlit (.flatMap .written e.lexemes)⟩

/-- What `rxvm_search` returns does not depend on how the language is written. -/
theorem rxvmSearch_language {e' : Expr .re} {exp' : List CChar} {g₀ : Statics}
    (hg : g.isNchar = false) (hadm : e.Admissible)
    (hanchors : ∀ x ∈ e.lexemes, x ≠ .sol ∧ x ≠ .eol) (hlit : ¬ e.LiteralOnly)
    (hspell : Concat Spells e.lexemes exp)
    (hg₀ : g₀.isNchar = false) (hadm' : e'.Admissible)
    (hanchors' : ∀ x ∈ e'.lexemes, x ≠ .sol ∧ x ≠ .eol) (hlit' : ¬ e'.LiteralOnly)
    (hspell' : Concat Spells e'.lexemes exp') (hsame : e.regex.matches' = e'.regex.matches') :
    ∃ compiled g' compiled' g₀', rxvmCompile g exp = .ok (.ok compiled, g') ∧
      rxvmCompile g₀ exp' = .ok (.ok compiled', g₀') ∧
      ∀ s flags, NoNul s → flags.icase = false →
        rxvmSearch compiled s flags = rxvmSearch compiled' s flags := by
  rcases rxvmCompile_recognizes hg hadm hanchors hlit hspell with
    ⟨compiled, g', hrun, hprogram, hrec⟩
  rcases rxvmCompile_recognizes hg₀ hadm' hanchors' hlit' hspell' with
    ⟨compiled', g₀', hrun', hprogram', hrec'⟩
  rw [← hsame] at hrec'
  refine ⟨compiled, g', compiled', g₀', hrun, hrun', fun s flags hs hicase => ?_⟩
  rcases rxvmSearch_finds hrec hprogram hs hicase with ⟨res, hfinds, hres⟩
  rcases rxvmSearch_finds hrec' hprogram' hs hicase with ⟨res', hfinds', hres'⟩
  rw [hres, hres', hfinds.unique hfinds']

/-- One of two characters. -/
def Expr.either (l l' : Literal false) : Expr .re :=
  .union (.ofSimple (.ofBasic (.ofElem (.char l)))) (.ofBasic (.ofElem (.char l')))

/-- The expressions `a|b` and `b|a`. -/
theorem rxvmSearch_language_swapped : ∃ compiled g' compiled' g₀',
    rxvmCompile Statics.init [97, 124, 98] = .ok (.ok compiled, g') ∧
      rxvmCompile Statics.init [98, 124, 97] = .ok (.ok compiled', g₀') ∧
      ∀ s flags, NoNul s → flags.icase = false →
        rxvmSearch compiled s flags = rxvmSearch compiled' s flags := by
  have hliteral : ∀ c : CChar, isprintable c = true → c ∉ metaSyms →
      ∃ l : Literal false, l.c = c ∧ l.esc = false := fun c hc hmeta =>
    ⟨⟨c, false, by simp, fun _ => ⟨hc, .inl hmeta⟩⟩, rfl, rfl⟩
  rcases hliteral 97 (by decide) (by decide +kernel) with ⟨a, ha, haesc⟩
  rcases hliteral 98 (by decide) (by decide +kernel) with ⟨b, hb, hbesc⟩
  have hadm : ∀ l l', (Expr.either l l').Admissible := by
    intro l l'
    simp [Expr.either, Expr.Admissible, Expr.lexemes, Lexeme.Admissible]
  have hanchors : ∀ l l', ∀ x ∈ (Expr.either l l').lexemes, x ≠ .sol ∧ x ≠ .eol := by
    intro l l'
    simp [Expr.either, Expr.lexemes]
  have hlit : ∀ l l', ¬ (Expr.either l l').LiteralOnly := by
    intro l l'
    simp [Expr.either, Expr.LiteralOnly, Expr.lexemes, Lexeme.isChar]
  have hab : (Expr.either a b).text = [97, 124, 98] := by
    simp [Expr.either, Expr.text, Expr.lexemes, Lexeme.text, Literal.text, ha, hb, haesc, hbesc]
    decide
  have hba : (Expr.either b a).text = [98, 124, 97] := by
    simp [Expr.either, Expr.text, Expr.lexemes, Lexeme.text, Literal.text, ha, hb, haesc, hbesc]
    decide
  have hsame : (Expr.either a b).regex.matches' = (Expr.either b a).regex.matches' :=
    add_comm (RegularExpression.char a.c).matches' (RegularExpression.char b.c).matches'
  rw [← hab, ← hba]
  exact rxvmSearch_language rfl (hadm a b) (hanchors a b) (hlit a b) (.flatMap .written _)
    rfl (hadm b a) (hanchors b a) (hlit b a) (.flatMap .written _) hsame

end

end Rxvm
