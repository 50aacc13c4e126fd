import Rxvm.Backlog
import Rxvm.ParenSpec

/-!
# Rxvm.Reading — where the tokens of a run are read

The lexer and the loop of `stage1` each keep a flag for being in a class. They
agree in every context of a run, so that its token is what the lexer makes of
the text there.
-/

namespace Rxvm

/-- The token of the context has been read at position `k`, in a class or not. -/
def ReadAt (text : List CChar) (k input : Nat) (cp : Context) : Prop :=
  ∃ l, l.literal = cp.inCharc ∧ (cp.tok, input, cp.statics.lex) = lex text k l

section

variable {g : Statics} {text : List CChar} {k input : Nat} {cp cp' : Context}
  {stk stk' : StackId → Stk} {index index' : Option Nat} {simple : Option Nat}

/-- A count starts where its token has been read. -/
theorem ReadAt.lp1 (h : ReadAt text k input cp) (htok : cp.tok = .rep) :
    cp.statics.lex.lp1 = k := by
  rcases h with ⟨l, _, hlex⟩
  have hrep : (lex text k l).1 = .rep := by
    rw [← hlex]
    exact htok
  have hlp1 := lex_rep_lp1 hrep
  rw [← hlex] at hlp1
  exact hlp1

theorem ReadAt.literalAt (h : ReadAt text k input cp) (hmain : cp.inCharc = false)
    (htok : cp.tok = .literal) : LiteralAt text k input cp.statics.lex.lp1 := by
  rcases h with ⟨l, hl, hlex⟩
  have hlit : (lex text k l).1 = .literal := by
    rw [← hlex]
    exact htok
  have hat := lex_literalAt (hl.trans hmain) hlit
  rw [← hlex] at hat
  exact hat

/-- Outside a class a token that puts nothing in the buffer opens or closes
one, unless it is a parenthesis. -/
theorem ReadAt.quiet (h : ReadAt text k input cp) (hmain : cp.inCharc = false)
    (hop : cp.tok.isop = false) (hparen : cp.tok ≠ .lparen ∧ cp.tok ≠ .rparen)
    (heos : cp.tok ≠ .eos) (herr : ∀ e, cp.tok ≠ .error e) (hsingle : singleInst text cp = none) :
    cp.tok = .charcOpen ∨ cp.tok = .charcClose := by
  rcases h with ⟨l, hl, hlex⟩
  have hmode := @lex_mode text k l (by rw [← hlex]; exact herr)
  rcases hmode.2 (hl.trans hmain) with ⟨hrange, hinvalid⟩
  rw [← hlex] at hrange hinvalid
  unfold singleInst at hsingle
  cases htok : cp.tok <;> simp_all [Tok.isop]

/-! ## The contexts of a run -/

/-- The loop is in a class from `[` to `]`. -/
theorem Turn.inCharc (hturn : Turn text cp stk index cp' stk' index') :
    cp'.inCharc = (if cp.tok = .charcOpen then true else if cp.tok = .charcClose then false
      else cp.inCharc) := by
  have hflushed : ∀ {cp₁ : Context} {stk₁ : StackId → Stk} {index₁ : Option Nat},
      FlushedTo cp stk index cp₁ stk₁ index₁ → cp₁.inCharc = cp.inCharc := by
    intro cp₁ stk₁ index₁ hto
    rcases hto.flushed.frame with ⟨m₁, groups₁, buf₁, hcp₁⟩
    rw [hcp₁]
  cases hturn with
  | operate _ hop =>
      have hne : cp.tok ≠ .charcOpen ∧ cp.tok ≠ .charcClose := by
        refine ⟨?_, ?_⟩ <;> intro htok <;> simp [htok, Tok.isop] at hop
      rw [if_neg hne.1, if_neg hne.2]
  | single _ cp₁ stk₁ index₁ hflush inst hinst =>
      have hne : cp.tok ≠ .charcOpen ∧ cp.tok ≠ .charcClose := by
        refine ⟨?_, ?_⟩ <;> intro htok <;> simp [singleInst, htok] at hinst
      have h₁ := hflushed hflush
      rw [if_neg hne.1, if_neg hne.2]
      exact h₁
  | quiet hmain cp₁ stk₁ index₁ hflush =>
      have h₁ := hflushed hflush
      show (if cp.tok = .charcOpen then true else cp₁.inCharc) = _
      rw [h₁, hmain]
      simp
  | opening hmain cp₁ stk₁ index₁ hflush htok =>
      have h₁ := hflushed hflush
      rw [htok]
      exact h₁
  | closing hmain cp₁ stk₁ index₁ hflush htok =>
      have h₁ := hflushed hflush
      rw [htok]
      exact h₁
  | charc _ htok =>
      rcases htok with htok | htok <;> rw [htok] <;> rfl
  | noCcs _ htok =>
      rw [htok]
      rfl
  | ccs _ htok =>
      rw [htok]
      rfl

/-- The token behind a turn. -/
theorem ReadAt.next (h : ReadAt text k input cp) (herr : ∀ e, cp.tok ≠ .error e)
    (hturn : Turn text cp stk index cp' stk' index') :
    ReadAt text input (lexInto text input { cp' with lasttok := cp'.tok }).1
      (lexInto text input { cp' with lasttok := cp'.tok }).2 := by
  rcases h with ⟨l, hl, hlex⟩
  have hmode := (@lex_mode text k l (by rw [← hlex]; exact herr)).1
  rw [← hlex] at hmode
  refine ⟨cp'.statics.lex, ?_, rfl⟩
  show cp'.statics.lex.literal = cp'.inCharc
  rw [hturn.lex_eq, hturn.inCharc, hmode, hl]

theorem ReadAt.lt (h : ReadAt text k input cp) (heos : cp.tok ≠ .eos)
    (herr : ∀ e, cp.tok ≠ .error e) : k < input ∧ input ≤ text.length := by
  rcases h with ⟨l, _, hlex⟩
  have hadv := lex_advances text k l
  rw [← hlex] at hadv
  rcases hadv with heos' | ⟨e, herr'⟩ | hlt
  · exact absurd heos' heos
  · exact absurd herr' (herr e)
  · exact hlt

/-- Where the first token is read that is no literal. -/
theorem ReadAt.start (h : literalLoop text (text.length + 1) 0 none (stage1Init g) =
    .ok (input, simple, cp)) :
    ∃ n w, LiteralTokens text n 0 w ∧ n ≤ text.length ∧
      ReadAt text n input (loopStart text simple cp) ∧
      (simple = some n ∧ w ≠ [] ∨ simple = none ∧ n = 0) := by
  rcases literalLoop_tokens h rfl (Or.inl rfl) with ⟨n, w, l, htoks, hl, hlex, hsimple⟩
  rcases literalLoop_frame h with ⟨_, tok, lex, hcp⟩
  rcases loopStart_layout h with ⟨_, _, m', operand, l', heq⟩
  refine ⟨n, w, htoks, htoks.literals.le_length (Nat.zero_le _), ⟨l, ?_, ?_⟩, ?_⟩
  · rw [heq, hcp]
    exact hl
  · rw [heq]
    exact hlex
  · rcases hsimple with ⟨hsome, hne⟩ | ⟨hnone, _, hn⟩
    · exact Or.inl ⟨hsome, hne rfl⟩
    · exact Or.inr ⟨hnone, hn⟩

end

end Rxvm
