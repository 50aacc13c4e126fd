import Mathlib.Computability.RegularExpressions
import Rxvm.Lib.Spans
import Rxvm.Taken

/-!
# Rxvm.Regex — the machine and derivatives

An expression without anchors is a regular expression in the mathematical sense.
There another algorithm decides whether it matches a word: the derivative by
each character in turn. Compiling the expression and running the machine on the
program comes to the same.
-/

namespace Rxvm

open Relation Language

/-! ## The regular expression -/

/-- One of these characters. -/
def oneOf : List CChar → RegularExpression CChar
  | [] => 0
  | c :: cs => .char c + oneOf cs

/-- Every value of a `char`. -/
def allChars : List CChar := (List.range 256).map Int8.ofNat

theorem mem_allChars (c : CChar) : c ∈ allChars :=
  List.mem_map.mpr ⟨c.toBitVec.toNat, List.mem_range.mpr c.toBitVec.isLt, by simp⟩

theorem mem_oneOf {cs : List CChar} {w : List CChar} :
    w ∈ (oneOf cs).matches' ↔ ∃ c, c ∈ cs ∧ w = [c] := by
  induction cs with
  | nil =>
      constructor
      · intro h
        exact h.elim
      · rintro ⟨c, hc, _⟩
        cases hc
  | cons a cs ih =>
      rw [oneOf, RegularExpression.matches'_add, Language.mem_add, ih]
      constructor
      · rintro (h | ⟨c, hc, rfl⟩)
        · exact ⟨a, List.mem_cons_self, h⟩
        · exact ⟨c, List.mem_cons_of_mem _ hc, rfl⟩
      · rintro ⟨c, hc, rfl⟩
        rcases List.mem_cons.mp hc with rfl | hc
        · exact .inl rfl
        · exact .inr ⟨c, hc, rfl⟩

/-- The characters that satisfy a test. -/
def charsWith (p : CChar → Bool) : RegularExpression CChar := oneOf (allChars.filter p)

/-- A count. -/
def Reps.regex (r : RegularExpression CChar) : Reps → RegularExpression CChar
  | .repN n => r ^ n.value.toNat
  | .repRange n m =>
    r ^ (min n.value m.value).toNat *
      (1 + r) ^ ((max n.value m.value).toNat - (min n.value m.value).toNat)
  | .repMore n => r ^ n.value.toNat * r.star
  | .repLess m => (1 + r) ^ m.value.toNat

/-- The expression as a regular expression. The anchors have none. -/
def Expr.regex : {n : NonTerm} → Expr n → RegularExpression CChar
  | _, .ofSimple e => e.regex
  | _, .union e f => e.regex + f.regex
  | _, .ofBasic e => e.regex
  | _, .concat e f => e.regex * f.regex
  | _, .ofElem e => e.regex
  | _, .zero e => e.regex.star
  | _, .one e => e.regex * e.regex.star
  | _, .onezero e => 1 + e.regex
  | _, .rep e reps => reps.regex e.regex
  | _, .group e => e.regex
  | _, .any => charsWith (· != newline)
  | _, .eol => 0
  | _, .sol => 0
  | _, .char l => .char l.c
  | _, .set negated item items =>
    charsWith fun c => (c ∈ (item :: items).flatMap SetItem.chars : Bool) != negated

/-! ## What it matches -/

section

variable {ml : Bool} {s : List CChar}

theorem spans_charsWith {p : CChar → Bool} {P : CChar → Prop} (h : ∀ c, p c = true ↔ P c) :
    Spans s (Expr.Eats s P) (charsWith p).matches' := by
  refine Spans.single ?_
  intro w
  rw [charsWith, mem_oneOf]
  simp only [List.mem_filter, mem_allChars, true_and, h]

theorem Reps.spans {M : Nat → Nat → Prop} {r : RegularExpression CChar}
    (h : Spans s M r.matches') (reps : Reps) :
    Spans s (fun i j => ∃ k, reps.Allows k ∧ Times M k i j) (reps.regex r).matches' := by
  cases reps with
  | repN n =>
      rw [Reps.regex, RegularExpression.matches'_pow]
      refine (h.pow n.value.toNat).congr ?_
      simp [Reps.Allows]
  | repRange n m =>
      have hn := n.value_nonneg
      have hm := m.value_nonneg
      rw [Reps.regex, RegularExpression.matches'_mul, RegularExpression.matches'_pow,
        RegularExpression.matches'_pow, RegularExpression.matches'_add]
      refine (h.between _ _).congr ?_
      intro i j
      refine exists_congr fun k => ?_
      rw [← and_assoc]
      refine and_congr ?_ Iff.rfl
      simp only [Reps.Allows]
      omega
  | repMore n =>
      have hn := n.value_nonneg
      rw [Reps.regex, RegularExpression.matches'_mul, RegularExpression.matches'_pow,
        RegularExpression.matches'_star]
      refine (h.atLeast _).congr ?_
      intro i j
      refine exists_congr fun k => and_congr ?_ Iff.rfl
      simp only [Reps.Allows]
      omega
  | repLess m =>
      have hm := m.value_nonneg
      rw [Reps.regex, RegularExpression.matches'_pow, RegularExpression.matches'_add]
      refine (h.upTo _).congr ?_
      intro i j
      rw [upTo_iff_times]
      refine exists_congr fun k => and_congr ?_ Iff.rfl
      simp only [Reps.Allows]
      omega

/-- The expression matches the words of its regular expression. -/
theorem Expr.spans : ∀ {n : NonTerm} (e : Expr n),
    (∀ x ∈ e.lexemes, x ≠ .sol ∧ x ≠ .eol) → Spans s (e.Matches ml s) e.regex.matches' := by
  intro n e
  induction e with
  | ofSimple e ih | ofBasic e ih | ofElem e ih => exact ih
  | union e f ihe ihf =>
      intro h
      have he := ihe fun x hx => h x (List.mem_append_left _ hx)
      have hf := ihf fun x hx => h x (List.mem_append_right _ (List.mem_cons_of_mem _ hx))
      exact he.add hf
  | concat e f ihe ihf =>
      intro h
      have he := ihe fun x hx => h x (List.mem_append_left _ hx)
      have hf := ihf fun x hx => h x (List.mem_append_right _ hx)
      exact he.mul hf
  | zero e ih =>
      intro h
      exact (ih fun x hx => h x (List.mem_append_left _ hx)).kstar
  | one e ih =>
      intro h
      have he := ih fun x hx => h x (List.mem_append_left _ hx)
      have hone := he.atLeast 1
      rw [pow_one] at hone
      exact hone
  | onezero e ih =>
      intro h
      exact Spans.one.add (ih fun x hx => h x (List.mem_append_left _ hx))
  | rep e reps ih =>
      intro h
      have he := ih fun x hx => h x (List.mem_append_left _ hx)
      exact (Reps.spans he reps).congr fun i j => Expr.matches_rep e reps
  | group e ih =>
      intro h
      exact ih fun x hx => h x (List.mem_cons_of_mem _ (List.mem_append_left _ hx))
  | any =>
      intro _
      exact spans_charsWith (by simp)
  | sol =>
      intro h
      exact absurd rfl (h _ (List.mem_singleton_self _)).1
  | eol =>
      intro h
      exact absurd rfl (h _ (List.mem_singleton_self _)).2
  | char l =>
      intro _
      refine Spans.single ?_
      intro w
      constructor
      · intro hw
        exact ⟨_, rfl, hw⟩
      · rintro ⟨c, rfl, rfl⟩
        rfl
  | set negated item items =>
      intro _
      refine spans_charsWith ?_
      intro c
      rw [← SetItem.mem_flatMap_chars]
      cases negated <;> simp

end

/-! ## The machine and derivatives -/

section

variable {e : Expr .re} {exp : List CChar} {g : Statics}

/-- The expression `(a|.)*`. -/
theorem exists_alternative : ∃ e : Expr .re, e.text = [40, 97, 124, 46, 41, 42] ∧ e.Admissible ∧
    (∀ x ∈ e.lexemes, x ≠ .sol ∧ x ≠ .eol) ∧ ¬ e.LiteralOnly := by
  obtain ⟨l, hl, hesc⟩ : ∃ l : Literal false, l.c = 97 ∧ l.esc = false :=
    ⟨⟨97, false, by simp, fun _ => ⟨by decide, Or.inl (by decide +kernel)⟩⟩, rfl, rfl⟩
  refine ⟨.ofSimple (.ofBasic (.zero (.group
    (.union (.ofSimple (.ofBasic (.ofElem (.char l)))) (.ofBasic (.ofElem .any)))))), ?_, ?_, ?_, ?_⟩
  · simp [Expr.text, Expr.lexemes, Lexeme.text, Literal.text, hl, hesc]
    decide
  · simp [Expr.Admissible, Expr.lexemes, Lexeme.Admissible]
  · simp [Expr.lexemes]
  · simp [Expr.LiteralOnly, Expr.lexemes, Lexeme.isChar]

/-- `rxvm_match` on the compiled expression returns what the derivatives of the
regular expression say. -/
theorem rxvmMatch_derivatives (hg : g.isNchar = false) (hadm : e.Admissible)
    (hanchors : ∀ x ∈ e.lexemes, x ≠ .sol ∧ x ≠ .eol) (hspell : Concat Spells e.lexemes exp) :
    ∃ compiled g', rxvmCompile g exp = .ok (.ok compiled, g') ∧
      ∀ s, NoNul s → rxvmMatch compiled s {} = some (if e.regex.rmatch s then 1 else 0) := by
  rcases rxvmCompile_taken hg hadm hspell with ⟨compiled, g', hrun, _, hdecides, _⟩
  refine ⟨compiled, g', hrun, ?_⟩
  intro s hs
  rcases hdecides s hs with ⟨ret, hret, hcases, hiff⟩
  rw [(e.spans hanchors).whole, ← RegularExpression.rmatch_iff_matches'] at hiff
  rw [hret]
  by_cases hmatch : e.regex.rmatch s = true
  · rw [if_pos hmatch, hiff.mpr hmatch]
  · rw [if_neg hmatch]
    exact congrArg some (hcases.resolve_left fun hone => hmatch (hiff.mp hone))

/-- The expression `(a|.)*`. -/
theorem rxvmMatch_derivatives_alternative : ∃ e : Expr .re, e.text = [40, 97, 124, 46, 41, 42] ∧
    ∃ compiled g', rxvmCompile Statics.init e.text = .ok (.ok compiled, g') ∧
      ∀ s, NoNul s → rxvmMatch compiled s {} = some (if e.regex.rmatch s then 1 else 0) := by
  rcases exists_alternative with ⟨e, htext, hadm, hanchors, _⟩
  exact ⟨e, htext, rxvmMatch_derivatives rfl hadm hanchors (.flatMap .written e.lexemes)⟩

theorem SearchEnd.reports {flags : Flags} {s : List CChar} {exe : List Inst} {tm : Threads}
    (h : SearchEnd false flags.multiline s exe flags.nongreedy 0 tm)
    (hret : (searchResult tm).ret = 1) :
    ∃ i j : Nat, (searchResult tm).start = some (i : Int) ∧
      (searchResult tm).fin.map (· + 1) = some (j : Int) ∧ Extent flags s exe i j := by
  have hend : tm.matchEnd ≠ 0 := by
    intro h0
    simp [searchResult, h0] at hret
  rcases h.extent hend with ⟨i, j, hstart, hme, hextent⟩
  refine ⟨i, j, by simp [searchResult, hend, hstart], ?_, hextent⟩
  simp [searchResult, hme]
  omega

/-- What `rxvm_search` reports is a word of the regular expression, and the
longest or the shortest one from where it starts. -/
theorem rxvmSearch_derivatives (hg : g.isNchar = false) (hadm : e.Admissible)
    (hanchors : ∀ x ∈ e.lexemes, x ≠ .sol ∧ x ≠ .eol) (hlit : ¬ e.LiteralOnly)
    (hspell : Concat Spells e.lexemes exp) :
    ∃ compiled g', rxvmCompile g exp = .ok (.ok compiled, g') ∧
      ∀ s flags, NoNul s → flags.icase = false →
        ∃ result, rxvmSearch compiled s flags = some result ∧ (result.ret = 1 →
          ∃ i j : Nat, result.start = some (i : Int) ∧ result.fin.map (· + 1) = some (j : Int) ∧
            i ≤ j ∧ j ≤ s.length ∧ e.regex.rmatch ((s.take j).drop i) = true ∧
            ∀ j', i ≤ j' → j' ≤ s.length → e.regex.rmatch ((s.take j').drop i) = true →
              if flags.nongreedy then j ≤ j' else j' ≤ j) := by
  rcases rxvmCompile_programOf hg hadm hlit hspell with ⟨compiled, g', hrun, hprog⟩
  refine ⟨compiled, g', hrun, ?_⟩
  intro s flags hs hicase
  have hword : ∀ {i j}, i ≤ s.length → (Accepts false flags.multiline s compiled.exe i j ↔
      i ≤ j ∧ j ≤ s.length ∧ e.regex.rmatch ((s.take j).drop i) = true) := by
    intro i j hi
    rw [hprog.meaning, (e.spans hanchors).iff_mem hi, RegularExpression.rmatch_iff_matches']
  rcases vmExecute_searchEnd (rxvmCompile_wellFormed hrun hprog.program) hs flags with
    ⟨res, hres, hend⟩
  rw [hicase] at hend
  refine ⟨searchResult res.2.tm, ?_, ?_⟩
  · unfold rxvmSearch
    simp only [hprog.program, hres]
    rfl
  · intro hret
    rcases hend.reports hret with ⟨i, j, hstart, hfin, hextent⟩
    have hi := hextent.le.trans hextent.le_length
    refine ⟨i, j, hstart, hfin, hextent.le, hextent.le_length,
      ((hword hi).mp hextent.accepts).2.2, ?_⟩
    intro j' hij' hj' hmatch
    have haccepts := (hword hi).mpr ⟨hij', hj', hmatch⟩
    cases hng : flags.nongreedy with
    | true => exact hextent.shortest hng j' haccepts
    | false => exact hextent.longest hng j' haccepts

/-- The expression `(a|.)*`. -/
theorem rxvmSearch_derivatives_alternative : ∃ e : Expr .re, e.text = [40, 97, 124, 46, 41, 42] ∧
    ∃ compiled g', rxvmCompile Statics.init e.text = .ok (.ok compiled, g') ∧
      ∀ s flags, NoNul s → flags.icase = false →
        ∃ result, rxvmSearch compiled s flags = some result ∧ (result.ret = 1 →
          ∃ i j : Nat, result.start = some (i : Int) ∧ result.fin.map (· + 1) = some (j : Int) ∧
            i ≤ j ∧ j ≤ s.length ∧ e.regex.rmatch ((s.take j).drop i) = true ∧
            ∀ j', i ≤ j' → j' ≤ s.length → e.regex.rmatch ((s.take j').drop i) = true →
              if flags.nongreedy then j ≤ j' else j' ≤ j) := by
  rcases exists_alternative with ⟨e, htext, hadm, hanchors, hlit⟩
  exact ⟨e, htext, rxvmSearch_derivatives rfl hadm hanchors hlit (.flatMap .written e.lexemes)⟩

end

end Rxvm
