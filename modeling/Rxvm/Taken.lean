import Rxvm.Respelled
import Rxvm.LiteralSpec
import Rxvm.Instructions

/-!
# Rxvm.Taken — every admissible expression is compiled

An expression of characters only is stored as it is, any other is compiled to a
program. Either way `rxvm_match` decides what the expression matches, and the
compilation leaves nothing behind that the next one could stumble over.
-/

namespace Rxvm

/-! ## Expressions of characters only -/

theorem unescape_literals : ∀ (ls : List (Literal false)),
    unescape (ls.flatMap Literal.text) = ls.map Literal.c := by
  intro ls
  induction ls with
  | nil => rfl
  | cons l ls ih =>
      cases hesc : l.esc with
      | true => simp [Literal.text, hesc, unescape_deref, ih]
      | false =>
          have hplain := (l.plain hesc).2.imp_right And.right
          have hderef : l.c ≠ derefSym := plain_ne hplain (by decide) (by decide)
          simp [Literal.text, hesc, unescape_cons hderef, ih]

theorem noNul_literals (ls : List (Literal false)) : NoNul (ls.flatMap Literal.text) := by
  intro c hc
  rcases List.mem_flatMap.mp hc with ⟨l, _, hc⟩
  cases hesc : l.esc with
  | true =>
      have hc' : c = derefSym ∨ c = l.c := by simpa [Literal.text, hesc] using hc
      rcases hc' with rfl | rfl
      · decide
      · exact isprintable_ne_zero l.printable
  | false =>
      obtain rfl : c = l.c := by simpa [Literal.text, hesc] using hc
      exact isprintable_ne_zero l.printable

theorem length_literals (ls : List (Literal false)) :
    ls.length ≤ (ls.flatMap Literal.text).length := by
  induction ls with
  | nil => exact Nat.le_refl _
  | cons l ls ih =>
      have hpos := l.text_pos
      rw [List.flatMap_cons, List.length_append, List.length_cons]
      omega

/-- What the first loop makes of an expression of characters only. -/
theorem stage1_of_literalLoop {g : Statics} {exp : List CChar} {input : Nat}
    {simple : Option Nat} {cp : Context}
    (h : literalLoop exp (exp.length + 1) 0 none (stage1Init g) = .ok (input, simple, cp))
    (heos : cp.tok = .eos) :
    stage1 g exp = .ok (.simple (checkSimpleForLfix exp) cp.statics) := by
  unfold stage1
  rw [h]
  exact if_pos heos

/-- An expression of characters only is stored as it is. -/
theorem rxvmCompile_chars (g : Statics) (ls : List (Literal false)) :
    ∃ compiled g', rxvmCompile g (ls.flatMap Literal.text) = .ok (.ok compiled, g') ∧
      compiled.simple = some (ls.flatMap Literal.text) := by
  let exp := ls.flatMap Literal.text
  have hdrop : exp.drop 0 = ls.flatMap Literal.text ++ [] := (List.append_nil _).symm
  have heos : ∀ lexs : LexStatics, (lex exp (0 + exp.length) lexs).1 = .eos :=
    fun _ => lex_past (Nat.le_add_left _ _)
  have hfuel : ls.length < exp.length + 1 := Nat.lt_succ_of_le (length_literals ls)
  rcases @literalLoop_chars exp [] ls 0 (exp.length + 1) none (stage1Init g) hdrop hfuel rfl
    (fun lexs _ => by rw [heos]; simp) with ⟨input, cp, hloop, lexs, _, hlex⟩
  have htok : cp.tok = .eos := (congrArg (·.1) hlex).trans (heos lexs)
  have hstage := stage1_of_literalLoop hloop htok
  have hrun : ∃ compiled, rxvmCompile g exp = .ok (.ok compiled, cp.statics) ∧
      compiled.simple = some (cstring exp) := by
    unfold rxvmCompile
    rw [hstage]
    exact ⟨_, rfl, rfl⟩
  rcases hrun with ⟨compiled, hrun, hsimple⟩
  exact ⟨compiled, _, hrun, hsimple.trans (congrArg some (cstring_eq_self (noNul_literals ls)))⟩

/-! ## What a compilation leaves -/

theorem stage1End_isNchar {cp cp' : Context} {lfix0 lfixn : Nat} {stk : StackId → Stk}
    {index : Option Nat} (hholds : Holds cp stk index)
    (h : stage1End cp = .ok (.ir lfix0 lfixn cp')) :
    cp'.statics.isNchar = cp.statics.isNchar := by
  have hfinish := hholds.finish
  rw [h] at hfinish
  generalize hresult : (Except.ok (Stage1.ir lfix0 lfixn cp') : Run Stage1) = result at hfinish
  cases hfinish with
  | eclass => cases hresult
  | eparen => cases hresult
  | ir m' groups ids' hcharc hgroups hshows =>
      cases hresult
      rfl

/-- A compilation without an error leaves the flag for negation clear. -/
theorem rxvmCompile_isNchar {g g' : Statics} {exp : List CChar} {compiled : Compiled}
    (hg : g.isNchar = false) (h : rxvmCompile g exp = .ok (.ok compiled, g')) :
    g'.isNchar = false := by
  have halike : Alike (stage1 g exp) (stage1 Statics.init exp) := stage1_alike hg
  unfold rxvmCompile at h
  rcases hstage : stage1 g exp with stop | result
  · rw [hstage] at h
    cases h
  · rw [hstage] at h
    cases result with
    | fail e cp => cases h
    | simple lfixn g₁ =>
        cases h
        rcases stage1_simple hstage with ⟨_, input, simple, cp, hloop, heos⟩
        cases hstage.symm.trans (stage1_of_literalLoop hloop heos)
        -- literals alone do not touch the flag
        rcases literalLoop_frame hloop with ⟨_, tok, lexs, rfl⟩
        exact hg
    | ir lfix0 lfixn cp' =>
        -- a program: the same contexts as in a fresh process
        have hinit : stage1 Statics.init exp = .ok (.ir lfix0 lfixn cp') := by
          rw [hstage] at halike
          generalize hresult : (Except.ok (Stage1.ir lfix0 lfixn cp') : Run Stage1) = result
            at halike ⊢
          generalize stage1 Statics.init exp = result' at halike ⊢
          cases halike with
          | same => rfl
          | fail => cases hresult
          | simple => cases hresult
        rcases stage1_ir hinit with ⟨input, cp, hvisit, heos, hend⟩
        rcases hvisit.wellMade with ⟨stk, index, hholds, hwell⟩
        have hkeep := stage1End_isNchar hholds hend
        rcases stage2_ir hholds hend with ⟨hcharc, _, _⟩
        have hstatics : g' = cp'.statics := by
          rcases hstage2 : stage2 cp' with stop | exe
          · simp only [bind, Except.bind, hstage2] at h
            cases h
          · simp only [bind, Except.bind, hstage2] at h
            cases h
            rfl
        rw [hstatics, hkeep]
        exact hvisit.isNchar_false hcharc

/-! ## What the expression of characters matches -/

section

variable {ml : Bool} {s : List CChar}

/-- Text that stands at a position of the input. -/
theorem append_isPrefix_drop {u v : List CChar} {i : Nat} :
    u ++ v <+: s.drop i ↔ u <+: s.drop i ∧ v <+: s.drop (i + u.length) := by
  constructor
  · rintro ⟨t, ht⟩
    have hu : s.drop i = u ++ (v ++ t) := by rw [← ht, List.append_assoc]
    exact ⟨⟨_, hu.symm⟩, ⟨t, (drop_of_drop_append hu).symm⟩⟩
  · rintro ⟨⟨t, ht⟩, ⟨t', ht'⟩⟩
    refine ⟨t', ?_⟩
    rw [List.append_assoc, ht', drop_of_drop_append ht.symm, ht]

theorem exists_chars {l : List Lexeme} (h : ∀ x ∈ l, x.isChar = true) :
    ∃ ls : List (Literal false), l = ls.map .char := by
  induction l with
  | nil => exact ⟨[], rfl⟩
  | cons x l ih =>
      rcases ih fun y hy => h y (List.mem_cons_of_mem _ hy) with ⟨ls, rfl⟩
      have hx := h x List.mem_cons_self
      cases x with
      | char c => exact ⟨c :: ls, rfl⟩
      | _ => cases hx

theorem isChar_of_mem {l : List Lexeme} {ls : List (Literal false)} (h : l = ls.map .char)
    {x : Lexeme} (hx : x ∈ l) : x.isChar = true := by
  subst h
  rcases List.mem_map.mp hx with ⟨c, _, rfl⟩
  rfl

/-- An expression of characters matches these characters. -/
theorem Expr.matches_chars : ∀ {n : NonTerm} (e : Expr n) {ls : List (Literal false)} {i j : Nat},
    e.lexemes = ls.map .char →
    (e.Matches ml s i j ↔ j = i + ls.length ∧ ls.map Literal.c <+: s.drop i) := by
  intro n e
  -- by induction on the expression
  induction e with
  | ofSimple e ih | ofBasic e ih | ofElem e ih => exact ih
  | concat e f ihe ihf =>
      intro ls i j h
      rcases List.append_eq_map_iff.mp h with ⟨l₁, l₂, rfl, he, hf⟩
      rw [List.map_append, append_isPrefix_drop, List.length_append, List.length_map, Expr.Matches]
      constructor
      · rintro ⟨k, hek, hfk⟩
        rcases (ihe he.symm).mp hek with ⟨rfl, hpre⟩
        rcases (ihf hf.symm).mp hfk with ⟨rfl, hpre'⟩
        exact ⟨by omega, hpre, hpre'⟩
      · rintro ⟨rfl, hpre, hpre'⟩
        exact ⟨_, (ihe he.symm).mpr ⟨rfl, hpre⟩, (ihf hf.symm).mpr ⟨by omega, hpre'⟩⟩
  | char l =>
      intro ls i j h
      obtain rfl : ls = [l] := by
        rcases List.map_eq_singleton_iff.mp h.symm with ⟨l', hl', hl⟩
        cases hl
        exact hl'
      refine and_congr Iff.rfl ?_
      rw [List.map_singleton, List.singleton_prefix_iff_head?_eq_some, List.head?_drop]
      simp
  -- the other constructors have a lexeme that is no character
  | union e f =>
      intro ls i j h
      cases isChar_of_mem h (x := .alt) (by simp [Expr.lexemes])
  | zero e =>
      intro ls i j h
      cases isChar_of_mem h (x := .zero) (by simp [Expr.lexemes])
  | one e =>
      intro ls i j h
      cases isChar_of_mem h (x := .one) (by simp [Expr.lexemes])
  | onezero e =>
      intro ls i j h
      cases isChar_of_mem h (x := .onezero) (by simp [Expr.lexemes])
  | rep e reps =>
      intro ls i j h
      cases isChar_of_mem h (x := .rep reps) (by simp [Expr.lexemes])
  | group e =>
      intro ls i j h
      cases isChar_of_mem h (x := .lparen) (by simp [Expr.lexemes])
  | any | eol | sol | set =>
      intro ls i j h
      cases isChar_of_mem h (List.mem_singleton_self _)

end

/-! ## Both kinds of expressions -/

/-- `rxvm_match` decides for the compiled expression what the derivation
matches. -/
def Decides (e : Expr .re) (compiled : Compiled) : Prop :=
  ∀ s, NoNul s → ∃ ret, rxvmMatch compiled s {} = some ret ∧ (ret = 1 ∨ ret = 0) ∧
    (ret = 1 ↔ e.Matches true s 0 s.length)

theorem decides_chars {e : Expr .re} {ls : List (Literal false)} (hls : e.lexemes = ls.map .char)
    {compiled : Compiled} (hsimple : compiled.simple = some (ls.flatMap Literal.text)) :
    Decides e compiled := by
  intro s hs
  rcases rxvmMatch_simple hsimple (noNul_literals ls) hs {} with ⟨ret, hret, hcases, hiff⟩
  refine ⟨ret, hret, hcases, hiff.trans ?_⟩
  rw [sameChars_false, unescape_literals, e.matches_chars hls, List.drop_zero]
  constructor
  · rintro rfl
    simp
  · rintro ⟨hlen, hpre⟩
    exact hpre.eq_of_length (by simpa using hlen.symm)

theorem ProgramOf.decides {e : Expr .re} {compiled : Compiled} (h : ProgramOf e compiled)
    (hwf : WellFormed compiled.exe) : Decides e compiled := by
  intro s hs
  rcases rxvmMatch_spec h.program hwf hs {} with ⟨ret, hret, hcases, hiff⟩
  exact ⟨ret, hret, hcases, hiff.trans (h.meaning true s 0 s.length)⟩

/-- Every spelling of an admissible expression is compiled. -/
theorem rxvmCompile_taken {e : Expr .re} {exp : List CChar} {g : Statics}
    (hg : g.isNchar = false) (hadm : e.Admissible) (hspell : Concat Spells e.lexemes exp) :
    ∃ compiled g', rxvmCompile g exp = .ok (.ok compiled, g') ∧ g'.isNchar = false ∧
      Decides e compiled ∧
      ((∃ ls : List (Literal false), e.lexemes = ls.map .char ∧
          compiled.simple = some (ls.flatMap Literal.text)) ∨ ProgramOf e compiled) := by
  by_cases hlit : e.LiteralOnly
  · rcases exists_chars hlit with ⟨ls, hls⟩
    obtain rfl : exp = ls.flatMap Literal.text := Concat.chars (hls ▸ hspell)
    rcases rxvmCompile_chars g ls with ⟨compiled, g', hrun, hsimple⟩
    exact ⟨compiled, g', hrun, rxvmCompile_isNchar hg hrun, decides_chars hls hsimple,
      .inl ⟨ls, hls, hsimple⟩⟩
  · rcases rxvmCompile_programOf hg hadm hlit hspell with ⟨compiled, g', hrun, hprog⟩
    exact ⟨compiled, g', hrun, rxvmCompile_isNchar hg hrun,
      hprog.decides (rxvmCompile_wellFormed hrun hprog.program), .inr hprog⟩

end Rxvm
