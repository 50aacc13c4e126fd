import Rxvm.CompileSpec
import Rxvm.LexSpec

/-!
# Rxvm.Progress — the compiler's loops end

Every token but the last moves the lexer on, so the loops over the tokens end
inside the text. The range loop of a class is the one that may not: `rlo++`
never passes 127.
-/

namespace Rxvm

/-! ## The lexer -/

section

variable {text : List CChar} {k : Nat} {l : LexStatics}

theorem at'_of_ge (h : text.length ≤ k) : at' text k = 0 := by
  simp [at', List.getD_eq_getElem?_getD, List.getElem?_eq_none h]

theorem lt_length_of_at' (h : at' text k ≠ 0) : k < text.length := by
  by_contra hge
  exact h (at'_of_ge (Nat.not_lt.mp hge))

/-- A token, if it is no error, ends behind position `k` and in the text. -/
def Advances (text : List CChar) (k : Nat) (r : Tok × Nat × LexStatics) : Prop :=
  (∃ e, r.1 = .error e) ∨ (k < r.2.1 ∧ r.2.1 ≤ text.length)

theorem lexRange_advances {j : Nat} (hj : j < k) (hk : k ≤ text.length) :
    Advances text j (lexRange text k l) := by
  unfold lexRange
  split_ifs with h0 hderef hnull hprint hplain
  · exact Or.inr ⟨hj, hk⟩
  · exact Or.inl ⟨_, rfl⟩
  · have := lt_length_of_at' hnull
    exact Or.inr ⟨by simp only [lexEnd]; omega, this⟩
  · exact Or.inl ⟨_, rfl⟩
  · have := lt_length_of_at' h0
    exact Or.inr ⟨by simp only [lexEnd]; omega, this⟩
  · exact Or.inl ⟨_, rfl⟩

theorem lexLiteral_advances {j : Nat} (hj : j ≤ k) (hk : at' text k ≠ 0) :
    Advances text j (lexLiteral text k l) := by
  have hlt := lt_length_of_at' hk
  unfold lexLiteral
  generalize (if at' text k = newline then { l with newlineSeen := true } else l) = l'
  simp only
  split_ifs with herr hrange
  · exact Or.inl ⟨_, rfl⟩
  · have := lt_length_of_at' (show at' text (k + 1) ≠ 0 by rw [hrange.1]; decide)
    exact lexRange_advances (by omega) this
  · exact Or.inr ⟨by simp only [lexEnd]; omega, hlt⟩

theorem lexRep_advances (first : CChar) : ∀ (rest : List CChar) (prev : CChar) (comma : Bool)
    (k : Nat), rest = text.drop k → k ≤ text.length →
    (lexRep first rest prev comma k).1 = .rep →
      k < (lexRep first rest prev comma k).2 ∧
        (lexRep first rest prev comma k).2 ≤ text.length := by
  intro rest
  -- by induction on the text behind the brace
  induction rest with
  | nil =>
      intro prev comma k _ _ h
      cases h
  | cons c rest ih =>
      intro prev comma k hdrop hle h
      have hlt : k < text.length := by
        by_contra hge
        rw [List.drop_eq_nil_of_le (by omega)] at hdrop
        cases hdrop
      have hrest : rest = text.drop (k + 1) := by
        rw [← List.tail_drop, ← hdrop]
        rfl
      unfold lexRep at h ⊢
      split_ifs at h ⊢ with h0 hclose hmrep hcomma hseen hdigit
      · exact ⟨Nat.lt_succ_self k, hlt⟩
      · rcases ih c true (k + 1) hrest hlt h with ⟨h1, h2⟩
        exact ⟨by omega, h2⟩
      · rcases ih c comma (k + 1) hrest hlt h with ⟨h1, h2⟩
        exact ⟨by omega, h2⟩

/-- Every call of `lex` returns `END` or an error, or moves on. -/
theorem lex_advances (text : List CChar) (k : Nat) (l : LexStatics) :
    (lex text k l).1 = .eos ∨ Advances text k (lex text k l) := by
  have hcase := lex_cases text k l
  generalize lex text k l = r at hcase ⊢
  -- every token but the end of the input has a character
  cases hcase with
  | eos => exact Or.inl rfl
  | trail => exact Or.inr (Or.inl ⟨_, rfl⟩)
  | escaped _ hnull => exact Or.inr (lexLiteral_advances (Nat.le_succ k) hnull)
  | close hclose =>
      have := lt_length_of_at' (show at' text k ≠ 0 by rw [hclose]; decide)
      exact Or.inr (Or.inr ⟨Nat.lt_succ_self k, this⟩)
  | inside _ h0 => exact Or.inr (lexLiteral_advances (Nat.le_refl k) h0)
  | rep _ hopen input h =>
      have hlt := lt_length_of_at' (show at' text k ≠ 0 by rw [hopen]; decide)
      rcases lexRep_advances (at' text (k + 1)) _ repOpenSym false (k + 1) rfl hlt (by rw [h]) with
        ⟨h1, h2⟩
      rw [h] at h1 h2
      exact Or.inr (Or.inr ⟨by simp only [lexEnd]; omega, h2⟩)
  | badRep => exact Or.inr (Or.inl ⟨_, rfl⟩)
  | symbol _ tok hmeta =>
      have hne : at' text k ≠ 0 := by
        intro h0
        rw [h0] at hmeta
        cases hmeta
      exact Or.inr (Or.inr ⟨Nat.lt_succ_self k, lt_length_of_at' hne⟩)
  | plain _ _ h0 => exact Or.inr (lexLiteral_advances (Nat.le_refl k) h0)
  | invalid => exact Or.inr (Or.inl ⟨_, rfl⟩)

/-- At the end of the text there is `END`. -/
theorem lex_past (h : text.length ≤ k) : (lex text k l).1 = .eos := by
  simp [lex, at'_of_ge h]

end

/-! ## The range loop -/

theorem toInt_succ {c : CChar} (h : c.toInt < 127) : (c + 1).toInt = c.toInt + 1 := by
  have hlow := Int8.le_toInt c
  have h1 : (1 : Int8).toInt = 1 := by decide
  rw [Int8.toInt_add, h1]
  exact Int.bmod_eq_of_le (by omega) (by omega)

theorem ne_zero_of_toInt {c : CChar} (h : c.toInt ≠ 0) : c ≠ 0 := by
  rintro rfl
  exact h (by decide)

theorem isprintable_bounds {c : CChar} (h : isprintable c = true) :
    0 < c.toInt ∧ c.toInt < 127 := by
  have h7 : wsLow.toInt = 7 := by decide
  have h13 : wsHigh.toInt = 13 := by decide
  have h32 : printableLow.toInt = 32 := by decide
  have h126 : printableHigh.toInt = 126 := by decide
  simp only [isprintable, Bool.or_eq_true, Bool.and_eq_true, decide_eq_true_eq,
    Int8.le_iff_toInt_le] at h
  omega

/-- Up to 127 the loop does not end. -/
theorem expandLoop_endless {rhi : CChar} (h : rhi.toInt = 127) : ∀ (fuel : Nat) (rlo : CChar),
    expandLoop rhi fuel rlo = .error .diverges := by
  intro fuel
  induction fuel with
  | zero => exact fun _ => rfl
  | succ fuel ih =>
      intro rlo
      have hle : rlo ≤ rhi := by
        have := Int8.toInt_lt rlo
        rw [Int8.le_iff_toInt_le]
        omega
      unfold expandLoop
      rw [if_pos hle, ih]
      rfl

/-- Up to any other character it makes the characters between the two. -/
theorem expandLoop_range {rhi : CChar} (h : rhi.toInt < 127) : ∀ (fuel : Nat) (rlo : CChar),
    rhi.toInt - rlo.toInt + 1 < fuel → 0 < fuel →
    ∃ chars, expandLoop rhi fuel rlo = .ok chars ∧ ∀ c, c ∈ chars ↔ rlo ≤ c ∧ c ≤ rhi := by
  intro fuel
  -- by induction on the distance to the end, which is below 127 and so is passed
  induction fuel with
  | zero =>
      intro rlo _ h0
      omega
  | succ fuel ih =>
      intro rlo hfuel _
      unfold expandLoop
      by_cases hle : rlo ≤ rhi
      · have hle' := Int8.le_iff_toInt_le.mp hle
        have hsucc := toInt_succ (show rlo.toInt < 127 by omega)
        rcases ih (rlo + 1) (by rw [hsucc]; omega) (by omega) with ⟨chars, hrun, hmem⟩
        refine ⟨rlo :: chars, by rw [if_pos hle, hrun]; rfl, ?_⟩
        intro c
        rw [List.mem_cons, hmem]
        simp only [Int8.le_iff_toInt_le, hsucc, ← Int8.toInt_inj]
        omega
      · refine ⟨[], if_neg hle, ?_⟩
        intro c
        simp only [List.not_mem_nil, false_iff, Int8.le_iff_toInt_le] at hle ⊢
        omega

/-- The class is about to be given a range up to the character 127. -/
def EndlessRange (text : List CChar) (cp : Context) : Prop :=
  cp.inCharc = true ∧ cp.tok = .charRange ∧
    (rangeBounds text cp.statics.lex.lp1).2.toInt = 127

/-- The range loop of `expand_char_range`. -/
theorem expandLoop_bounds (text : List CChar) (lp1 : Nat)
    (h : (rangeBounds text lp1).2.toInt ≠ 127) :
    ∃ chars, expandLoop (rangeBounds text lp1).2 257 (rangeBounds text lp1).1 = .ok chars ∧
      ∀ c, c ∈ chars ↔ (rangeBounds text lp1).1 ≤ c ∧ c ≤ (rangeBounds text lp1).2 := by
  have hlt := Int8.toInt_lt (rangeBounds text lp1).2
  have hge := Int8.le_toInt (rangeBounds text lp1).1
  have hhigh : (rangeBounds text lp1).2.toInt < 127 := by omega
  exact expandLoop_range hhigh 257 _ (by omega) (by decide)

/-! ## The loops over the tokens -/

section

variable {g : Statics} {text : List CChar}

/-- The loop over the literals at the start ends in the text. -/
theorem literalLoop_ends : ∀ {fuel input : Nat} {simple : Option Nat} {cp : Context},
    input ≤ text.length → text.length + 1 ≤ fuel + input →
    ∃ input' simple' cp', literalLoop text fuel input simple cp = .ok (input', simple', cp') ∧
      (cp'.tok = .eos ∨ (∃ e, cp'.tok = .error e) ∧ input < text.length ∨
        input < input' ∧ input' ≤ text.length) := by
  intro fuel
  -- by induction on the text that is left: a literal takes a character of it
  induction fuel with
  | zero =>
      intro input simple cp hle hfuel
      omega
  | succ fuel ih =>
      intro input simple cp hle hfuel
      have hadv := lex_advances text input cp.statics.lex
      by_cases htok : (lexInto text input cp).2.tok = .literal
      · have hlit : (lex text input cp.statics.lex).1 = .literal := htok
        rw [literalLoop_literal htok]
        have hmove : input < (lexInto text input cp).1 ∧ (lexInto text input cp).1 ≤ text.length := by
          rcases hadv with heos | ⟨e, he⟩ | hmove
          · cases hlit.symm.trans heos
          · cases hlit.symm.trans he
          · exact hmove
        rcases @ih (lexInto text input cp).1 (some (lexInto text input cp).1)
          (lexInto text input cp).2 hmove.2 (by omega) with ⟨input', simple', cp', hrun, hend⟩
        refine ⟨input', simple', cp', hrun, ?_⟩
        rcases hend with heos | ⟨herr, _⟩ | ⟨h1, h2⟩
        · exact Or.inl heos
        · exact Or.inr (Or.inl ⟨herr, by omega⟩)
        · exact Or.inr (Or.inr ⟨by omega, h2⟩)
      · rw [literalLoop_other htok]
        refine ⟨_, _, _, rfl, ?_⟩
        rcases hadv with heos | ⟨e, he⟩ | hmove
        · exact Or.inl heos
        · right; left
          refine ⟨⟨e, he⟩, ?_⟩
          by_contra hge
          have heos := lex_past (l := cp.statics.lex) (Nat.not_lt.mp hge)
          cases he.symm.trans heos
        · exact Or.inr (Or.inr hmove)

/-- With a round left for each character behind the lexer, the token loop ends
at a context of the run. -/
theorem stage1Loop_ends_at : ∀ {fuel input : Nat} {cp : Context}, Visited g text input cp →
    cp.tok ≠ .eos → 1 ≤ fuel →
    ((∃ e, cp.tok = .error e) ∨ input ≤ text.length ∧ text.length + 1 ≤ fuel + input) →
    ∃ input' cp', Visited g text input' cp' ∧ Ends text cp' (stage1Loop text fuel input cp) := by
  intro fuel
  -- by induction on the text that is left: a turn takes a token of it
  induction fuel with
  | zero =>
      intro input cp _ _ h1
      omega
  | succ fuel ih =>
      intro input cp h heos _ hfuel
      by_cases herr : ∃ e, cp.tok = .error e
      · rcases herr with ⟨e, he⟩
        rw [stage1Loop_error he]
        exact ⟨input, cp, h, .lexError e he⟩
      have herr' : ∀ e, cp.tok ≠ .error e := fun e he => herr ⟨e, he⟩
      rcases hfuel with he | ⟨hle, hfuel⟩
      · exact absurd he herr
      rw [stage1Loop_step herr']
      rcases hstep : stage1Step text cp with s | ⟨err, cp'⟩
      · exact ⟨input, cp, h, .stops s herr' heos hstep⟩
      · cases err with
        | some e => exact ⟨input, cp, h, .stepError e cp' herr' heos hstep⟩
        | none =>
            have hvisit := h.turn heos herr' hstep
            have hadv := lex_advances text input cp'.statics.lex
            set next := lexInto text input { cp' with lasttok := cp'.tok } with hnext
            show ∃ input' cp', _ ∧ Ends text cp' (if next.2.tok = .eos then stage1End next.2
              else stage1Loop text fuel next.1 next.2)
            by_cases heos' : next.2.tok = .eos
            · rw [if_pos heos']
              exact ⟨next.1, next.2, hvisit, .eos heos'⟩
            · rw [if_neg heos']
              -- behind the text there is only the end of the input
              have hlt : input < text.length := by
                by_contra hge
                exact heos' (lex_past (Nat.not_lt.mp hge))
              refine ih hvisit heos' (by omega) ?_
              rcases hadv with h0 | herr | ⟨h1, h2⟩
              · exact absurd h0 heos'
              · exact Or.inl herr
              · exact Or.inr ⟨h2, by rw [hnext]; show text.length + 1 ≤ fuel + (lex text input cp'.statics.lex).2.1; omega⟩

/-- `stage1` reads literals only, or ends at a context of its loop. -/
theorem stage1_ends_at (g : Statics) (text : List CChar) :
    (∃ input simple cp, literalLoop text (text.length + 1) 0 none (stage1Init g) =
        .ok (input, simple, cp) ∧ cp.tok = .eos ∧
        stage1 g text = .ok (.simple (checkSimpleForLfix text) cp.statics)) ∨
      ∃ input cp, Visited g text input cp ∧ Ends text cp (stage1 g text) := by
  rcases @literalLoop_ends text (text.length + 1) 0 none (stage1Init g) (Nat.zero_le _) (by omega)
    with ⟨input, simple, cp, h, hend⟩
  have heq := stage1_eq g text h
  by_cases heos : cp.tok = .eos
  · rw [if_pos heos] at heq
    exact Or.inl ⟨input, simple, cp, h, heos, heq⟩
  · rw [if_neg heos] at heq
    rw [heq]
    right
    have htok := loopStart_tok text simple cp
    refine stage1Loop_ends_at (.start h heos) (by rw [htok]; exact heos) (by omega) ?_
    rw [htok]
    rcases hend with h0 | ⟨herr, _⟩ | ⟨h1, h2⟩
    · exact absurd h0 heos
    · exact Or.inl herr
    · exact Or.inr ⟨h2, by omega⟩

/-! ## One turn -/

/-- A turn runs for ever in an endless range only. -/
theorem stage1Step_diverges_iff {cp : Context} {stk : StackId → Stk} {index : Option Nat}
    (h : Holds cp stk index) : stage1Step text cp = .error .diverges ↔ EndlessRange text cp := by
  constructor
  · intro hstep
    rcases h.layout with ⟨ids, hlay⟩
    have hresult := stage1Step_result text hlay h.charc
    rw [hstep] at hresult
    generalize hrun : (Except.error Stop.diverges : Coded) = run at hresult
    -- only the expansion of a range can go on for ever
    cases hresult with
    | lost => cases hrun
    | diverges hcharc htok =>
        refine ⟨hcharc, htok, ?_⟩
        by_contra hne
        rcases expandLoop_bounds text cp.statics.lex.lp1 hne with ⟨chars, hchars, _⟩
        unfold stage1Step stage1CharcState at hstep
        rw [if_pos hcharc, htok] at hstep
        simp only [expandCharRange, hchars, bind, Except.bind] at hstep
        cases hstep
    | abandoned _ _ _ _ _ _ hab =>
        rcases hab with ⟨m', hab, _⟩
        rw [hab] at hrun
        cases hrun
    | failed => cases hrun
    | turned => cases hrun
  · rintro ⟨hcharc, htok, hhigh⟩
    unfold stage1Step stage1CharcState
    rw [if_pos hcharc, htok]
    simp only [expandCharRange, expandLoop_endless hhigh, bind, Except.bind]

end

/-! ## rxvm_compile -/

/-- What is to be shown of the compiler: each call of the lexer returns `END`,
an error or a token that moves it on, and the compilation comes to an end. -/
def Terminates (g : Statics) (exp : List CChar) : Prop :=
  (∀ k l, (lex exp k l).1 = .eos ∨ Advances exp k (lex exp k l)) ∧
    rxvmCompile g exp ≠ .error .diverges

section

variable {g : Statics} {exp : List CChar}

/-- The second stage ends, so the compilation does if the first stage does. -/
theorem rxvmCompile_diverges_iff :
    rxvmCompile g exp = .error .diverges ↔ stage1 g exp = .error .diverges := by
  unfold rxvmCompile
  rcases hstage : stage1 g exp with stop | result
  · constructor
    · intro h
      cases h
      rfl
    · intro h
      cases h
      rfl
  · refine iff_of_false ?_ (by simp)
    cases result with
    | fail e cp => intro h; cases h
    | simple lfixn g => intro h; cases h
    | ir lfix0 lfixn cp' =>
        -- `stage2` of a program that `stage1` has made comes to its end
        rcases stage1_ir hstage with ⟨input, cp, hvisit, _, hend⟩
        rcases hvisit.wellMade with ⟨stk, index, hholds, hwell⟩
        rcases stage2_program hholds hwell hend with ⟨_, _, exe, hstage2, _⟩
        simp only [bind, Except.bind, hstage2]
        intro h
        cases h

/-- A context no other one follows is where the run ends. -/
theorem Visited.ends {input : Nat} {cp : Context} (h : Visited g exp input cp)
    (hlast : nextCtx exp (input, cp) = none) : Ends exp cp (stage1 g exp) := by
  rcases stage1_ends_at g exp with
    ⟨input', simple, cp', hrun, heos, _⟩ | ⟨input', cp', hvisit', hends⟩
  · exfalso
    rcases visited_iff.mp h with ⟨n, hn⟩
    have hnone : ctxAt g exp 0 = none := by
      rw [ctxAt, hrun]
      exact if_pos heos
    exact Nat.not_lt_zero n (lt_of_ctxAt hn hnone)
  -- two contexts without a next one are the same
  · have hlast' : nextCtx exp (input', cp') = none := by
      cases hnext : nextCtx exp (input', cp') with
      | none => rfl
      | some r =>
          rcases nextCtx_eq_some.mp hnext with ⟨heos, herr, cp₁, hstep', _⟩
          generalize stage1 g exp = result at hends
          cases hends with
          | lexError e htok => exact absurd htok (herr e)
          | stepError e _ _ _ hstep => cases hstep.symm.trans hstep'
          | stops s _ _ hstep => cases hstep.symm.trans hstep'
          | eos htok => exact absurd htok heos
    obtain rfl := h.last_unique hlast hvisit' hlast'
    exact hends

/-- A run that comes to the end of the text finishes there. -/
theorem Visited.stage1_eq {input : Nat} {cp : Context} (h : Visited g exp input cp)
    (heos : cp.tok = .eos) : stage1 g exp = stage1End cp := by
  have hends := h.ends (nextCtx_eos heos)
  generalize stage1 g exp = result at hends ⊢
  cases hends with
  | lexError e htok => rw [heos] at htok; cases htok
  | stepError _ _ _ hne => exact absurd heos hne
  | stops _ _ hne => exact absurd heos hne
  | eos => rfl

/-- A run that comes to an endless range does not end. -/
theorem Visited.diverges {input : Nat} {cp : Context} (h : Visited g exp input cp)
    (hendless : EndlessRange exp cp) : rxvmCompile g exp = .error .diverges := by
  rcases h.wellMade with ⟨stk, index, hholds, _⟩
  have hstep := (stage1Step_diverges_iff hholds).mpr hendless
  have hlast : nextCtx exp (input, cp) = none := by
    cases hnext : nextCtx exp (input, cp) with
    | none => rfl
    | some r =>
        rcases nextCtx_eq_some.mp hnext with ⟨_, _, cp', hstep', _⟩
        cases hstep.symm.trans hstep'
  have hends := h.ends hlast
  rw [rxvmCompile_diverges_iff]
  generalize stage1 g exp = result at hends
  cases hends with
  | lexError e htok => cases hendless.2.1.symm.trans htok
  | stepError e _ _ _ hstep' => cases hstep.symm.trans hstep'
  | stops s _ _ hstep' =>
      cases hstep.symm.trans hstep'
      rfl
  | eos htok => cases hendless.2.1.symm.trans htok

end

/-- `rxvm_compile` terminates exactly if it comes to no range up to the
character 127. -/
theorem rxvmCompile_terminates_iff (g : Statics) (exp : List CChar) :
    Terminates g exp ↔ ∀ input cp, Visited g exp input cp → ¬ EndlessRange exp cp := by
  constructor
  · rintro ⟨_, hruns⟩ input cp hvisit hendless
    exact hruns (hvisit.diverges hendless)
  · intro hall
    refine ⟨lex_advances exp, ?_⟩
    intro h
    have hstage := rxvmCompile_diverges_iff.mp h
    rcases stage1_ends_at g exp with ⟨_, _, _, _, _, hrun⟩ | ⟨input, cp, hvisit, hends⟩
    · cases hstage.symm.trans hrun
    · rw [hstage] at hends
      rcases hvisit.wellMade with ⟨stk, index, hholds, _⟩
      generalize hresult : (Except.error Stop.diverges : Run Stage1) = result at hends
      cases hends with
      | lexError => cases hresult
      | stepError => cases hresult
      | stops s _ _ hstep =>
          cases hresult
          exact hall input cp hvisit ((stage1Step_diverges_iff hholds).mp hstep)
      | eos htok =>
          have hfinish := hholds.finish
          rw [← hresult] at hfinish
          cases hfinish

/-- The class `[`, `\`, DEL, `-a]`, with an escaped DEL as an end of its range,
is never compiled. -/
theorem rxvmCompile_endless : ¬ Terminates Statics.init [91, 92, 127, 45, 97, 93] := by
  rintro ⟨_, hruns⟩
  have hat : ∃ input cp, ctxAt Statics.init [91, 92, 127, 45, 97, 93] 1 = some (input, cp) ∧
      EndlessRange [91, 92, 127, 45, 97, 93] cp := ⟨_, _, rfl, rfl, rfl, rfl⟩
  rcases hat with ⟨input, cp, hat, hendless⟩
  exact hruns ((visited_iff.mpr ⟨1, hat⟩).diverges hendless)

end Rxvm
