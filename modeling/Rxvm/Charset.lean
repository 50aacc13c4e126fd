import Rxvm.ClassSpec
import Rxvm.Reading

/-!
# Rxvm.Charset — the supported character set

The lexer checks a character in the states that look at it, and a backslash
takes the next one without a check. What has been read is in the supported set
but for these characters, and `RXVM_EINVAL` comes from a character outside the
set but for a class that stops behind the `-` of a range.
-/

namespace Rxvm

/-- Every character of the expression is in the supported set. -/
def AllSupported (exp : List CChar) : Prop := ∀ c ∈ cstring exp, isprintable c = true

instance (exp : List CChar) : Decidable (AllSupported exp) :=
  List.decidableBAll (fun c => isprintable c = true) (cstring exp)

/-- The verdict of `rxvm_compile` on the characters of the expression. -/
structure CharsetRight (exp : List CChar) (result : Except Err Compiled) : Prop where
  einval : result = .error .einval → ¬ AllSupported exp
  ok : ∀ c, result = .ok c → AllSupported exp

/-- A backslash stands in front of a character outside the supported set. -/
def EscapesUnsupported (exp : List CChar) : Prop :=
  ∃ j, at' (cstring exp) j = derefSym ∧ at' (cstring exp) (j + 1) ≠ 0 ∧
    isprintable (at' (cstring exp) (j + 1)) = false

/-- The first loop finds nothing but literals. -/
def ReadAsLiterals (g : Statics) (exp : List CChar) : Prop :=
  ∃ input simple cp, literalLoop exp (exp.length + 1) 0 none (stage1Init g) =
    .ok (input, simple, cp) ∧ cp.tok = .eos

/-- The compiler takes all tokens of the expression: they are literals, or the
token loop gets to the end of the input outside a class and with no group
open. -/
def ReadThrough (g : Statics) (exp : List CChar) : Prop :=
  ReadAsLiterals g exp ∨
    ∃ input cp, Visited g exp input cp ∧ cp.tok = .eos ∧ cp.inCharc = false ∧ cp.groupsLeft = []

/-- No class of a supported expression ends behind the `-` of a range, and an
expression that is read to its end escapes no unsupported character. -/
structure CharsetExcused (g : Statics) (exp : List CChar) : Prop where
  cut : ∀ input cp, Visited g exp input cp → cp.inCharc = true → cp.tok = .invalidsym →
    ¬ AllSupported exp
  escapes : ReadThrough g exp → ¬ EscapesUnsupported exp

/-- Up to position `k` every character is in the supported set or stands behind
a backslash. -/
def Vetted (text : List CChar) (k : Nat) : Prop :=
  ∀ i < k, at' text i ≠ 0 ∧
    (isprintable (at' text i) = true ∨ ∃ j, i = j + 1 ∧ at' text j = derefSym)

section

variable {text : List CChar} {k j : Nat} {l : LexStatics}

theorem Vetted.zero (text : List CChar) : Vetted text 0 := fun i hi => absurd hi (Nat.not_lt_zero i)

theorem Vetted.printable (h : Vetted text k) (hp : isprintable (at' text k) = true) :
    Vetted text (k + 1) := by
  intro i hi
  rcases Nat.lt_succ_iff_lt_or_eq.mp hi with hlt | rfl
  · exact h i hlt
  · exact ⟨isprintable_ne_zero hp, Or.inl hp⟩

/-- A backslash takes the character behind it. -/
theorem Vetted.escape (h : Vetted text k) (hderef : at' text k = derefSym)
    (hnull : at' text (k + 1) ≠ 0) : Vetted text (k + 2) := by
  have hnext : Vetted text (k + 1) := h.printable (by rw [hderef]; decide)
  intro i hi
  rcases Nat.lt_succ_iff_lt_or_eq.mp hi with hlt | rfl
  · exact hnext i hlt
  · exact ⟨hnull, Or.inr ⟨k, rfl, hderef⟩⟩

/-! ## The lexer -/

theorem lexRange_vetted (h : Vetted text k) (herr : ∀ e, (lexRange text k l).1 ≠ .error e) :
    Vetted text (lexRange text k l).2.1 := by
  unfold lexRange at herr ⊢
  split_ifs at herr ⊢ with h0 hderef hnull hp hplain
  · exact h
  · exact absurd rfl (herr _)
  · exact h.escape hderef (isprintable_ne_zero hp)
  · exact absurd rfl (herr _)
  · rw [Bool.and_eq_true] at hplain
    exact h.printable hplain.1
  · exact absurd rfl (herr _)

/-- The character at `k` has been taken care of. -/
theorem lexLiteral_vetted (h : Vetted text (k + 1))
    (herr : ∀ e, (lexLiteral text k l).1 ≠ .error e) : Vetted text (lexLiteral text k l).2.1 := by
  unfold lexLiteral at herr ⊢
  generalize (if at' text k = newline then { l with newlineSeen := true } else l) = l' at herr ⊢
  simp only at herr ⊢
  split_ifs at herr ⊢ with hsep hrange
  · exact absurd rfl (herr _)
  · -- the `-` of a range, and its second end
    refine lexRange_vetted (h.printable ?_) herr
    rw [hrange.1]
    decide
  · exact h

theorem isprintable_of_isdigit {c : CChar} (h : isdigit c = true) : isprintable c = true := by
  simp only [isdigit, isprintable, Bool.and_eq_true, Bool.or_eq_true, decide_eq_true_eq] at h ⊢
  have hlow : printableLow ≤ chr '0' := by decide
  have hhigh : chr '9' ≤ printableHigh := by decide
  exact Or.inl ⟨Int8.le_trans hlow h.1, Int8.le_trans h.2 hhigh⟩

theorem lexRep_vetted (first : CChar) : ∀ (rest : List CChar) (prev : CChar) (comma : Bool)
    (k : Nat), rest = text.drop k → Vetted text k →
    (lexRep first rest prev comma k).1 = .rep → Vetted text (lexRep first rest prev comma k).2 := by
  intro rest
  induction rest with
  | nil =>
      intro prev comma k _ _ h
      cases h
  | cons c rest ih =>
      intro prev comma k hdrop hvet h
      rcases drop_cons hdrop with ⟨hget, hrest⟩
      unfold lexRep at h ⊢
      split_ifs at h ⊢ with h0 hclose hmrep hcomma hseen hdigit
      · exact hvet.printable (by rw [hget, hclose]; decide)
      · exact ih _ _ _ hrest (hvet.printable (by rw [hget, hcomma]; decide)) h
      · -- a digit
        refine ih _ _ _ hrest (hvet.printable ?_) h
        rw [hget]
        exact isprintable_of_isdigit (by simpa using hdigit)

theorem metaTok_isprintable {c : CChar} {tok : Tok} (h : metaTok c = some tok) :
    isprintable c = true ∧ tok ≠ .error .einval := by
  have hall : ∀ p ∈ metaTable, isprintable p.1 = true ∧ p.2 ≠ .error .einval := by decide +kernel
  exact hall (c, tok) (mem_metaTable h)

/-- A character outside the set is an error where a token starts. -/
theorem lex_unsupported (h0 : at' text k ≠ 0) (hp : isprintable (at' text k) = false) :
    (lex text k l).1 = .error .einval := by
  have hne : ∀ c, isprintable c = true → at' text k ≠ c := by
    rintro c hc rfl
    rw [hc] at hp
    cases hp
  have hmeta : metaTok (at' text k) = none := by
    cases h : metaTok (at' text k) with
    | none => rfl
    | some tok => exact absurd rfl (hne _ (metaTok_isprintable h).1)
  unfold lex
  simp only
  rw [if_neg h0, if_neg (hne derefSym (by decide)), if_neg (hne charcCloseSym (by decide)),
    if_neg (hne repOpenSym (by decide)), hmeta]
  simp [hp]

/-- What stands in front of the next token has been vetted. -/
theorem lex_vetted (h : Vetted text k) (herr : ∀ e, (lex text k l).1 ≠ .error e) :
    Vetted text (lex text k l).2.1 := by
  by_cases h0 : at' text k = 0
  · unfold lex
    simp only [if_pos h0]
    exact h
  have hp : isprintable (at' text k) = true := by
    by_contra hp
    exact absurd (lex_unsupported h0 (by simpa using hp)) (herr _)
  have hnext : Vetted text (k + 1) := h.printable hp
  have hcase := lex_cases text k l
  generalize lex text k l = r at hcase herr ⊢
  cases hcase with
  | eos => exact h
  | trail => exact absurd rfl (herr _)
  | escaped hderef hnull => exact lexLiteral_vetted (h.escape hderef hnull) herr
  | close => exact hnext
  | inside => exact lexLiteral_vetted hnext herr
  | rep _ _ input hrep =>
      have hvet := lexRep_vetted _ _ repOpenSym false _ rfl hnext (by rw [hrep])
      rw [hrep] at hvet
      exact hvet
  | badRep => exact absurd rfl (herr _)
  | symbol => exact hnext
  | plain => exact lexLiteral_vetted hnext herr
  | invalid => exact absurd rfl (herr _)

theorem lexLiteral_ne_einval : (lexLiteral text k l).1 ≠ .error .einval := by
  unfold lexLiteral lexRange
  simp only
  split_ifs <;> simp [lexEnd]

theorem lexRep_ne_einval (first : CChar) : ∀ (rest : List CChar) (prev : CChar) (comma : Bool)
    (k : Nat), (lexRep first rest prev comma k).1 ≠ .error .einval := by
  intro rest
  induction rest with
  | nil =>
      intro _ _ _ h
      cases h
  | cons c rest ih =>
      intro prev comma k
      unfold lexRep
      split_ifs
      all_goals first | exact ih _ _ _ | simp

/-- The lexer finds no other fault with a character outside the set, and this
one with no other character. -/
theorem lex_einval (h : (lex text k l).1 = .error .einval) :
    at' text k ≠ 0 ∧ isprintable (at' text k) = false := by
  have h0 : at' text k ≠ 0 := by
    intro h0
    unfold lex at h
    simp only [if_pos h0] at h
    cases h
  refine ⟨h0, ?_⟩
  have hcase := lex_cases text k l
  generalize lex text k l = r at hcase h
  cases hcase with
  | invalid hp => exact hp
  | escaped => exact absurd h lexLiteral_ne_einval
  | inside => exact absurd h lexLiteral_ne_einval
  | plain => exact absurd h lexLiteral_ne_einval
  | badRep _ _ e _ _ hrep =>
      have hne := lexRep_ne_einval (at' text (k + 1)) (text.drop (k + 1)) repOpenSym false (k + 1)
      rw [hrep] at hne
      exact absurd h hne
  | symbol _ tok hmeta => exact absurd h (metaTok_isprintable hmeta).2
  | eos => cases h
  | trail => cases h
  | close => cases h
  | rep => cases h

/-! ## The string -/

/-- The string that has been read. -/
theorem Vetted.cstring_eq (h : Vetted text k) :
    cstring text = text.take k ++ cstring (text.drop k) := by
  induction k with
  | zero => rfl
  | succ k ih =>
      have h0 := (h k (Nat.lt_succ_self k)).1
      have hget := getElem?_of_at'_ne_zero h0
      rw [ih (fun i hi => h i (Nat.lt_succ_of_lt hi)), cstring_drop_of_ne h0, List.take_add_one,
        hget]
      simp

theorem mem_of_at'_ne_zero (h : at' text k ≠ 0) : at' text k ∈ text :=
  List.mem_of_getElem? (getElem?_of_at'_ne_zero h)

/-- A character outside the set where a token starts. -/
theorem Vetted.unsupported (h : Vetted text k) (h0 : at' text k ≠ 0)
    (hp : isprintable (at' text k) = false) : ¬ AllSupported text := by
  intro hall
  have hmem : at' text k ∈ cstring text := by
    rw [h.cstring_eq, cstring_drop_of_ne h0]
    exact List.mem_append_right _ List.mem_cons_self
  rw [hall _ hmem] at hp
  cases hp

/-- When all has been read, only a backslash can have let a character pass. -/
theorem Vetted.allSupported_iff (h : Vetted text k) (h0 : at' text k = 0) :
    AllSupported text ↔ ¬ EscapesUnsupported text := by
  have hstring : cstring text = text.take k := by
    rw [h.cstring_eq, cstring_drop_of_eq h0, List.append_nil]
  constructor
  · rintro hall ⟨j, _, hnull, hp⟩
    rw [hall _ (mem_of_at'_ne_zero hnull)] at hp
    cases hp
  · intro hno c hc
    rw [hstring] at hc
    rcases List.mem_iff_getElem?.mp hc with ⟨i, hi⟩
    have hlt : i < k := by
      by_contra hge
      rw [List.getElem?_eq_none (by rw [List.length_take]; omega)] at hi
      cases hi
    have hat : at' text i = c := by
      rw [← at'_take hlt]
      simp [at', List.getD_eq_getElem?_getD, hi]
    rcases h i hlt with ⟨hne, hp | ⟨j, rfl, hderef⟩⟩
    · rw [← hat]
      exact hp
    · by_contra hp
      refine hno ⟨j, ?_, ?_, ?_⟩
      · rw [hstring, at'_take (by omega)]
        exact hderef
      · rw [hstring, at'_take hlt]
        exact hne
      · rw [hstring, at'_take hlt, hat]
        simpa using hp

end

/-! ## The contexts of a run -/

section

variable {g : Statics} {text : List CChar} {k input : Nat} {cp : Context}

theorem LiteralTokens.vetted {n : Nat} {w : List CChar} (h : LiteralTokens text n k w)
    (hvet : Vetted text k) : Vetted text n := by
  induction h with
  | done => exact hvet
  | literal l _ htok _ ih => exact ih (lex_vetted hvet (by simp [htok]))

/-- In every context of a run the text in front of the token has been vetted. -/
theorem Visited.vetted (h : Visited g text input cp) :
    ∃ k, ReadAt text k input cp ∧ Vetted text k := by
  have hinv := h.invariant (P := fun input cp _ _ => ∃ k, ReadAt text k input cp ∧ Vetted text k)
    ?_ ?_
  · rcases hinv with ⟨_, _, _, hread⟩
    exact hread
  · intro input simple cp hloop _
    rcases ReadAt.start hloop with ⟨n, w, htoks, _, hread, _⟩
    exact ⟨n, hread, htoks.vetted (Vetted.zero text)⟩
  · rintro input cp stk index cp' stk' index' _ _ ⟨k, hread, hvet⟩ _ herr hturn _ _ _
    refine ⟨input, hread.next herr hturn, ?_⟩
    rcases hread with ⟨l, _, hlex⟩
    have htok : cp.tok = (lex text k l).1 := congrArg (·.1) hlex
    have hinput : input = (lex text k l).2.1 := congrArg (·.2.1) hlex
    rw [hinput]
    exact lex_vetted hvet (by rw [← htok]; exact herr)

/-! ## The verdict -/

theorem Visited.entered (h : Visited g text input cp) : ∃ input simple cp,
    literalLoop text (text.length + 1) 0 none (stage1Init g) = .ok (input, simple, cp) ∧
      cp.tok ≠ .eos := by
  induction h with
  | start h heos => exact ⟨_, _, _, h, heos⟩
  | turn _ _ _ _ ih => exact ih

theorem Visited.not_readAsLiterals (h : Visited g text input cp) : ¬ ReadAsLiterals g text := by
  rintro ⟨input', simple, cp', hloop, heos⟩
  rcases h.entered with ⟨_, _, cp₀, hloop₀, hne⟩
  rw [hloop] at hloop₀
  cases hloop₀
  exact hne heos

theorem stage1Step_invalidsym (hcharc : cp.inCharc = true) (htok : cp.tok = .invalidsym) :
    stage1Step text cp = .ok (some .einval, cp) := by
  unfold stage1Step stage1CharcState
  rw [if_pos hcharc, htok]
  rfl

/-- The last context of a run decides. -/
theorem charsetExcused_iff_of_last (hvisit : Visited g text input cp)
    (hlast : nextCtx text (input, cp) = none) : CharsetExcused g text ↔
      (cp.inCharc = true → cp.tok = .invalidsym → ¬ AllSupported text) ∧
      (cp.tok = .eos → cp.inCharc = false → cp.groupsLeft = [] → ¬ EscapesUnsupported text) := by
  constructor
  · intro h
    constructor
    · exact h.cut _ _ hvisit
    · intro heos hmain hgroups
      exact h.escapes (Or.inr ⟨_, _, hvisit, heos, hmain, hgroups⟩)
  · rintro ⟨hcut, hend⟩
    constructor
    · intro input' cp' hvisit' hcharc htok
      have hlast' : nextCtx text (input', cp') = none :=
        nextCtx_failed (stage1Step_invalidsym hcharc htok)
      have hcp := hvisit.last_unique hlast hvisit' hlast'
      rw [← hcp] at hcharc htok
      exact hcut hcharc htok
    · rintro (⟨input', simple, cp', hloop, heos⟩ | ⟨input', cp', hvisit', heos, hmain, hgroups⟩)
      · exact absurd ⟨input', simple, cp', hloop, heos⟩ hvisit.not_readAsLiterals
      · have hlast' : nextCtx text (input', cp') = none := nextCtx_eos heos
        have hcp := hvisit.last_unique hlast hvisit' hlast'
        rw [← hcp] at heos hmain hgroups
        exact hend heos hmain hgroups

/-- The token of a class that the code returns `RXVM_EINVAL` for. -/
theorem ReadAt.invalidsym (h : ReadAt text k input cp) (hcharc : cp.inCharc = true)
    (heos : cp.tok ≠ .eos) (herr : ∀ e, cp.tok ≠ .error e)
    (htok : cp.tok ≠ .literal ∧ cp.tok ≠ .charRange ∧ cp.tok ≠ .charcClose) :
    cp.tok = .invalidsym := by
  rcases h with ⟨l, hl, hlex⟩
  have hclass := @lex_inside text k l (hl.trans hcharc)
  rw [← hlex] at hclass
  generalize cp.tok = tok at *
  cases hclass with
  | close => exact absurd rfl htok.2.2
  | single => exact absurd rfl htok.1
  | range => exact absurd rfl htok.2.1
  | stop _ _ _ hstop =>
      rcases hstop with hstop | hstop | ⟨e, hstop⟩
      · exact absurd hstop heos
      · exact hstop
      · exact absurd hstop (herr e)

/-- A turn of the token loop fails with `RXVM_EINVAL` at a cut off class only. -/
theorem stage1Step_einval {stk : StackId → Stk} {index : Option Nat} {e : Err} {cp' : Context}
    (hholds : Holds cp stk index) (hread : ReadAt text k input cp) (heos : cp.tok ≠ .eos)
    (herr : ∀ e, cp.tok ≠ .error e) (hstep : stage1Step text cp = .ok (some e, cp')) :
    e = .einval ↔ cp.inCharc = true ∧ cp.tok = .invalidsym := by
  constructor
  · rintro rfl
    rcases hholds.layout with ⟨ids, hlay⟩
    have hresult := stage1Step_result text hlay hholds.charc
    rw [hstep] at hresult
    generalize hrun : (Except.ok (some Err.einval, cp') : Coded) = run at hresult
    cases hresult with
    | lost => cases hrun
    | diverges => cases hrun
    | abandoned _ _ _ _ _ _ hab =>
        rcases hab with ⟨m', hab, _⟩
        rw [hab] at hrun
        cases hrun
    | failed e' _ _ _ _ _ hwhy =>
        cases hrun
        cases hwhy with
        | charc hcharc htok => exact ⟨hcharc, hread.invalidsym hcharc heos herr htok⟩
    | turned => cases hrun
  · rintro ⟨hcharc, htok⟩
    rw [stage1Step_invalidsym hcharc htok] at hstep
    cases hstep
    rfl

/-- The verdict on the character set is right exactly if no class is cut off
behind the `-` of a range and no character has passed behind a backslash. -/
theorem rxvmCompile_charsetRight_iff {exp : List CChar} {result : Except Err Compiled}
    {g' : Statics} (h : rxvmCompile g exp = .ok (result, g')) :
    CharsetRight exp result ↔ CharsetExcused g exp := by
  -- an accepted expression is right exactly if all its escapes are supported
  have haccepted : ∀ c k, Vetted exp k → at' exp k = 0 →
      (CharsetRight exp (.ok c) ↔ ¬ EscapesUnsupported exp) := by
    intro c k hvet h0
    rw [← hvet.allSupported_iff h0]
    exact ⟨fun hright => hright.ok c rfl, fun hall => ⟨by simp, fun _ _ => hall⟩⟩
  cases rxvmCompile_verdict h with
  | simple c input simple cp hloop heos =>
      -- nothing but literals: the text was read to its end
      rcases literalLoop_tokens hloop rfl (Or.inl rfl) with ⟨k, w, l, htoks, _, hlex, _⟩
      have hvet : Vetted exp k := htoks.vetted (Vetted.zero exp)
      have htok : cp.tok = (lex exp k l).1 := congrArg (·.1) hlex
      rw [haccepted c k hvet (lex_eos (htok.symm.trans heos)).1]
      constructor
      · intro hno
        constructor
        · intro _ _ hvisit
          exact absurd ⟨input, simple, cp, hloop, heos⟩ hvisit.not_readAsLiterals
        · intro _
          exact hno
      · intro hexcused
        exact hexcused.escapes (Or.inl ⟨input, simple, cp, hloop, heos⟩)
  | lexError e input cp hvisit htok =>
      have hlast : nextCtx exp (input, cp) = none := by
        unfold nextCtx
        rw [htok]
      have hexcused : CharsetExcused g exp := by
        rw [charsetExcused_iff_of_last hvisit hlast, htok]
        -- the lexer has refused a character that is not supported
        exact ⟨by simp, by simp⟩
      refine iff_of_true ⟨?_, by simp⟩ hexcused
      intro he
      cases he
      rcases hvisit.vetted with ⟨k, ⟨l, _, hlex⟩, hvet⟩
      have hfirst : cp.tok = (lex exp k l).1 := congrArg (·.1) hlex
      rcases lex_einval (hfirst.symm.trans htok) with ⟨h0, hp⟩
      exact hvet.unsupported h0 hp
  | stepError e input cp cp' hvisit herr heos hstep =>
      rcases visited_iff.mp hvisit with ⟨n, hat⟩
      rcases ctxAt_counted hat with ⟨stk, index, hholds, _⟩
      rcases hvisit.vetted with ⟨k, hread, _⟩
      -- in a turn only a range that is cut off gives `einval`
      have heinval := stage1Step_einval hholds hread heos herr hstep
      rw [charsetExcused_iff_of_last hvisit (nextCtx_failed hstep)]
      constructor
      · intro hright
        refine ⟨fun hcharc htok => ?_, fun h => absurd h heos⟩
        exact hright.einval (by rw [heinval.mpr ⟨hcharc, htok⟩])
      · rintro ⟨hcut, _⟩
        refine ⟨fun he => ?_, by simp⟩
        rcases heinval.mp (Except.error.inj he) with ⟨hcharc, htok⟩
        exact hcut hcharc htok
  | eclass input cp hvisit heos hcharc =>
      -- a class left open is not about characters
      refine iff_of_true ⟨by simp, by simp⟩ ?_
      rw [charsetExcused_iff_of_last hvisit (nextCtx_eos heos), heos, hcharc]
      exact ⟨by simp, by simp⟩
  | eparen input cp hvisit heos hmain hgroups =>
      -- nor are open parentheses
      refine iff_of_true ⟨by simp, by simp⟩ ?_
      rw [charsetExcused_iff_of_last hvisit (nextCtx_eos heos), heos, hmain]
      exact ⟨by simp, fun _ _ hnil => absurd hnil hgroups⟩
  | accepted c input cp hvisit heos hmain hgroups =>
      -- the loop has read the whole text
      rcases hvisit.vetted with ⟨k, ⟨l, _, hlex⟩, hvet⟩
      have htok : cp.tok = (lex exp k l).1 := congrArg (·.1) hlex
      rw [haccepted c k hvet (lex_eos (htok.symm.trans heos)).1,
        charsetExcused_iff_of_last hvisit (nextCtx_eos heos), heos, hmain]
      constructor
      · intro hno
        exact ⟨by simp, fun _ _ _ => hno⟩
      · intro hexcused
        exact hexcused.2 rfl rfl hgroups

/-- The expression `a\*+`. -/
theorem rxvmCompile_charsetRight_iff_plus : ∃ c g',
    rxvmCompile Statics.init [97, 92, 42, 43] = .ok (.ok c, g') ∧
      CharsetRight [97, 92, 42, 43] (.ok c) := by
  have h : ∃ c g', rxvmCompile Statics.init [97, 92, 42, 43] = .ok (.ok c, g') := ⟨_, _, rfl⟩
  rcases h with ⟨c, g', h⟩
  refine ⟨c, g', h, (rxvmCompile_charsetRight_iff h).mpr ⟨?_, fun _ => ?_⟩⟩
  · intro input cp hvisit hcharc htok
    rcases visited_iff.mp hvisit with ⟨n, hn⟩
    have hlast : ctxAt Statics.init [97, 92, 42, 43] 5 = none := rfl
    have hall : ∀ n < 5, ∀ r ∈ ctxAt Statics.init [97, 92, 42, 43] n,
        ¬ (r.2.inCharc = true ∧ r.2.tok = .invalidsym) := by decide
    exact absurd ⟨hcharc, htok⟩ (hall n (lt_of_ctxAt hn hlast) (input, cp) hn)
  · -- the one backslash stands in front of `*`
    rintro ⟨j, hderef, hnull, hbad⟩
    have hlt : j < (cstring [97, 92, 42, 43]).length :=
      lt_length_of_at' (by rw [hderef]; decide)
    have hall : ∀ j < (cstring [97, 92, 42, 43]).length,
        at' (cstring [97, 92, 42, 43]) j = derefSym →
        isprintable (at' (cstring [97, 92, 42, 43]) (j + 1)) = true := by decide
    rw [hall j hlt hderef] at hbad
    cases hbad

/-- `[a-` is made of supported characters, and `rxvm_compile` returns
`RXVM_EINVAL`; a backslash and the character 1 are accepted. -/
theorem rxvmCompile_charset_wrong :
    (∃ g', rxvmCompile Statics.init [91, 97, 45] = .ok (.error .einval, g') ∧
      ¬ CharsetRight [91, 97, 45] (.error .einval)) ∧
    ∃ c g', rxvmCompile Statics.init [92, 1] = .ok (.ok c, g') ∧ ¬ CharsetRight [92, 1] (.ok c) := by
  constructor
  · refine ⟨_, rfl, ?_⟩
    intro h
    have hall : AllSupported [91, 97, 45] := by decide
    exact h.einval rfl hall
  · refine ⟨_, _, rfl, ?_⟩
    intro h
    have hall : ¬ AllSupported [92, 1] := by decide
    exact hall (h.ok _ rfl)

end

end Rxvm
