import Rxvm.ParenSpec

/-!
# Rxvm.Instructions — what the instructions of a program compare with

The character of a `char` is not NUL, and the string of a class is not empty:
the lexer lets no NUL through, and a range starts at the lesser of two ends
that are not NUL. No operator, and neither the linking of alternatives nor
`stage2`, makes an instruction that compares.
-/

namespace Rxvm

open Function Relation

/-- Some character passes the test of the instruction, and none is NUL. -/
def Inst.Matchable : Inst → Prop
  | .opChar c => c ≠ 0
  | .opClass ccs => ccs ≠ [] ∧ NoNul ccs
  | _ => True

/-- All instructions are. -/
def Matchables (code : List Inst) : Prop := ∀ inst ∈ code, inst.Matchable

/-! ## The tokens -/

section

variable {text : List CChar} {k : Nat} {l : LexStatics}

/-- The second end of a range that starts at `j`. -/
def rangeEnd (text : List CChar) (j : Nat) : CChar :=
  if at' text (j + 2) = derefSym then at' text (j + 3) else at' text (j + 2)

/-- The token starts with a character, and a range ends with one. -/
structure TokenText (text : List CChar) (r : Tok × Nat × LexStatics) : Prop where
  literal : r.1 = .literal → at' text r.2.2.lp1 ≠ 0
  range : r.1 = .charRange → at' text r.2.2.lp1 ≠ 0 ∧ isprintable (rangeEnd text r.2.2.lp1) = true

theorem TokenText.other {r : Tok × Nat × LexStatics} (h : r.1 ≠ .literal ∧ r.1 ≠ .charRange) :
    TokenText text r := ⟨fun e => absurd e h.1, fun e => absurd e h.2⟩

theorem lexRange_text (h0 : at' text k ≠ 0) (hlp1 : l.lp1 = k) :
    TokenText text (lexRange text (k + 2) l) := by
  unfold lexRange
  split_ifs with hnul hderef hnull hp hplain
  · exact .other (by simp [lexEnd])
  · exact .other (by simp)
  · refine ⟨by simp [lexEnd], fun _ => ?_⟩
    simp only [lexEnd, hlp1, rangeEnd, if_pos hderef]
    exact ⟨h0, hp⟩
  · exact .other (by simp)
  · refine ⟨by simp [lexEnd], fun _ => ?_⟩
    simp only [lexEnd, hlp1, rangeEnd, if_neg hderef]
    exact ⟨h0, (Bool.and_eq_true_iff.mp hplain).1⟩
  · exact .other (by simp)

theorem lexLiteral_text (h0 : at' text k ≠ 0) (hlp1 : l.lp1 = k) :
    TokenText text (lexLiteral text k l) := by
  have hlp1' : (if at' text k = newline then { l with newlineSeen := true } else l).lp1 = k := by
    split_ifs <;> exact hlp1
  unfold lexLiteral
  generalize (if at' text k = newline then { l with newlineSeen := true } else l) = l' at hlp1'
  simp only
  split_ifs
  · exact .other (by simp)
  · exact lexRange_text h0 hlp1'
  · refine ⟨fun _ => ?_, by simp [lexEnd]⟩
    simp only [lexEnd, hlp1']
    exact h0

theorem lex_text (text : List CChar) (k : Nat) (l : LexStatics) : TokenText text (lex text k l) := by
  have hcase := lex_cases text k l
  generalize lex text k l = r at hcase ⊢
  cases hcase with
  | eos => exact .other (by simp)
  | trail => exact .other (by simp)
  | escaped _ hnull => exact lexLiteral_text hnull rfl
  | close => exact .other (by simp [lexEnd])
  | inside _ h0 => exact lexLiteral_text h0 rfl
  | rep => exact .other (by simp [lexEnd])
  | badRep => exact .other (by simp)
  | symbol _ tok hmeta =>
      have hall : ∀ p ∈ metaTable, p.2 ≠ .literal ∧ p.2 ≠ .charRange := by decide
      exact .other (hall _ (mem_metaTable hmeta))
  | plain _ _ h0 => exact lexLiteral_text h0 rfl
  | invalid => exact .other (by simp)

end

/-! ## The class string -/

section

variable {g : Statics} {text : List CChar} {input : Nat} {cp cp' : Context}

/-- The string of the class that is being read does not start with NUL. -/
def StrbText (cp : Context) : Prop :=
  cp.inCharc = true → ∃ s, cp.strb = some s ∧ s.head? ≠ some 0

theorem Visited.tokenText (h : Visited g text input cp) :
    TokenText text (cp.tok, input, cp.statics.lex) := by
  rcases h.lexed with ⟨k, l, hlex⟩
  rw [hlex]
  exact lex_text text k l

theorem rangeBounds_ne_zero {lp1 : Nat} (h0 : at' text lp1 ≠ 0)
    (hend : isprintable (rangeEnd text lp1) = true) : (rangeBounds text lp1).1 ≠ 0 := by
  have heq : rangeBounds text lp1 = if at' text lp1 > rangeEnd text lp1 then
      (rangeEnd text lp1, at' text lp1) else (at' text lp1, rangeEnd text lp1) := rfl
  rw [heq]
  split_ifs
  · exact isprintable_ne_zero hend
  · exact h0

theorem head_append_ne_zero {s t : List CChar} (hs : s.head? ≠ some 0) (ht : t.head? ≠ some 0) :
    (s ++ t).head? ≠ some 0 := by
  cases s with
  | nil => exact ht
  | cons => exact hs

theorem expandLoop_head {rhi rlo : CChar} {fuel : Nat} {chars : List CChar} (h0 : rlo ≠ 0)
    (h : expandLoop rhi fuel rlo = .ok chars) : chars.head? ≠ some 0 := by
  cases fuel with
  | zero => cases h
  | succ fuel =>
      unfold expandLoop at h
      split_ifs at h
      · cases hrest : expandLoop rhi fuel (rlo + 1) with
        | error s =>
            simp only [hrest, bind, Except.bind] at h
            cases h
        | ok rest =>
            simp only [hrest, bind, Except.bind, pure, Except.pure] at h
            cases h
            simpa using h0
      · cases h
        simp

/-- A turn keeps the string free of a leading NUL. -/
theorem StrbText.turn (h : StrbText cp) (hvisit : Visited g text input cp)
    (hstep : stage1Step text cp = .ok (none, cp')) : StrbText cp' := by
  have htext := hvisit.tokenText
  by_cases hin : cp.inCharc = true
  · rcases h hin with ⟨s, hs, hhead⟩
    unfold stage1Step at hstep
    rw [if_pos hin] at hstep
    unfold stage1CharcState at hstep
    split at hstep
    · -- a single character: the `^` that negates the class is not kept
      next htok =>
        by_cases hsol : cp.lp1Char text = solSym ∧ cp.statics.isNchar = false
        · rw [if_pos hsol] at hstep
          cases hstep
          exact h
        · rw [if_neg hsol] at hstep
          cases hstep
          intro _
          refine ⟨s ++ [cp.lp1Char text], by simp [Context.addc, hs], ?_⟩
          have hne : cp.lp1Char text ≠ 0 := htext.literal htok
          exact head_append_ne_zero hhead (by simpa using hne)
    · next htok =>
        -- a range starts with a character of the text
        rcases htext.range htok with ⟨h0, hend⟩
        rcases hchars : expandLoop (rangeBounds text cp.statics.lex.lp1).2 257
          (rangeBounds text cp.statics.lex.lp1).1 with stop | chars
        · simp only [expandCharRange, hchars, bind, Except.bind] at hstep
          cases hstep
        · simp only [expandCharRange, hchars, bind, Except.bind, pure, Except.pure] at hstep
          cases hstep
          intro _
          exact ⟨s ++ chars, by simp [hs],
            head_append_ne_zero hhead (expandLoop_head (rangeBounds_ne_zero h0 hend) hchars)⟩
    · -- `]` ends the class, and only a class has a string
      cases hstep
      intro hin'
      cases hin'
    · cases hstep
  · rcases hvisit.wellMade with ⟨stk, index, hholds, _⟩
    rcases hholds.turn hstep input with ⟨stk', index', hturn, _, _⟩
    have hmain : cp.inCharc = false := by simpa using hin
    -- the flush does not open a class
    have hkeep : ∀ {cp₁ : Context} {stk₁ : StackId → Stk} {index₁ : Option Nat},
        Flushed cp stk index cp₁ stk₁ index₁ → cp₁.inCharc = false := by
      intro cp₁ stk₁ index₁ hflush
      cases hflush <;> exact hmain
    intro hin'
    cases hturn with
    | operate => rw [show cp.inCharc = true from hin'] at hmain; cases hmain
    | single _ cp₁ _ _ hflush =>
        have := hkeep hflush.flushed
        rw [show cp₁.inCharc = true from hin'] at this
        cases this
    | quiet _ cp₁ _ _ hflush =>
        -- only `[` opens a class, with an empty string
        by_cases htok : cp.tok = .charcOpen
        · exact ⟨[], if_pos htok, by simp⟩
        · have hcharc : (if cp.tok = .charcOpen then true else cp₁.inCharc) = true := hin'
          rw [if_neg htok, hkeep hflush.flushed] at hcharc
          cases hcharc
    | opening _ cp₁ _ _ hflush =>
        have := hkeep hflush.flushed
        rw [show cp₁.inCharc = true from hin'] at this
        cases this
    | closing _ cp₁ _ _ hflush =>
        have := hkeep hflush.flushed
        rw [show cp₁.inCharc = true from hin'] at this
        cases this
    | charc hcharc => rw [hmain] at hcharc; cases hcharc
    | noCcs hcharc => rw [hmain] at hcharc; cases hcharc
    | ccs hcharc => rw [hmain] at hcharc; cases hcharc

theorem Visited.strbText (h : Visited g text input cp) : StrbText cp := by
  induction h with
  | start hloop _ =>
      rcases literalLoop_frame hloop with ⟨_, tok, lex, hcp⟩
      rcases loopStart_layout hloop with ⟨_, _, m', operand, l, heq⟩
      rw [heq, hcp]
      intro hin
      cases hin
  | turn hvisit _ _ hstep ih =>
      have hturn := ih.turn hvisit hstep
      rw [lexInto_frame]
      exact hturn

theorem cstring_ne_nil {s : List CChar} (hs : s ≠ []) (h : s.head? ≠ some 0) : cstring s ≠ [] := by
  cases s with
  | nil => exact absurd rfl hs
  | cons c s =>
      have hc : c ≠ 0 := by simpa using h
      simp [cstring, hc]

/-- The instruction of a class that is put out. -/
theorem ccsInst_matchable (h : StrbText cp) (hin : cp.inCharc = true) (hstrb : cp.strb ≠ some []) :
    (ccsInst cp).Matchable := by
  rcases h hin with ⟨s, hs, hhead⟩
  unfold ccsInst
  split_ifs
  · trivial
  · rw [hs, Option.getD_some]
    refine ⟨cstring_ne_nil ?_ hhead, noNul_cstring s⟩
    rintro rfl
    exact hstrb hs

end

/-! ## The literals at the start -/

/-- From `k` to `n` the text is literals, and they stand for the characters
given. -/
inductive Literals (text : List CChar) (n : Nat) : Nat → List CChar → Prop
  | done : Literals text n n []
  | plain {k : Nat} {w : List CChar} (h0 : at' text k ≠ 0) (hderef : at' text k ≠ derefSym)
      (rest : Literals text n (k + 1) w) : Literals text n k (at' text k :: w)
  | escaped {k : Nat} {w : List CChar} (hderef : at' text k = derefSym)
      (hnull : at' text (k + 1) ≠ 0) (rest : Literals text n (k + 2) w) :
      Literals text n k (at' text (k + 1) :: w)

section

variable {g : Statics} {text : List CChar} {n k : Nat} {w : List CChar}

theorem Literals.le (h : Literals text n k w) : k ≤ n := by
  induction h with
  | done => exact Nat.le_refl _
  | plain _ _ _ ih => omega
  | escaped _ _ _ ih => omega

theorem Literals.noNul (h : Literals text n k w) : NoNul w := by
  induction h with
  | done => simp [NoNul]
  | plain h0 _ _ ih =>
      intro c hc
      rcases List.mem_cons.mp hc with rfl | hc
      · exact h0
      · exact ih c hc
  | escaped _ hnull _ ih =>
      intro c hc
      rcases List.mem_cons.mp hc with rfl | hc
      · exact hnull
      · exact ih c hc

/-- The first loop of `stage1` reads literals. -/
theorem literalLoop_literals : ∀ {fuel input : Nat} {simple : Option Nat} {cp : Context}
    {input' : Nat} {simple' : Option Nat} {cp' : Context},
    literalLoop text fuel input simple cp = .ok (input', simple', cp') →
    cp.statics.lex.literal = false → (∀ n, simple = some n → n = input) →
    ∀ n, simple' = some n → ∃ w, Literals text n input w := by
  intro fuel
  -- by induction on the tokens; `simple` is where the last literal ended
  induction fuel with
  | zero =>
      intro input simple cp input' simple' cp' h
      cases h
  | succ fuel ih =>
      intro input simple cp input' simple' cp' h hl hsimple n hn
      by_cases htok : (lexInto text input cp).2.tok = .literal
      · rw [literalLoop_literal htok] at h
        rcases lex_literal hl htok with ⟨hl', hcase⟩
        rcases ih h hl' (fun n hn => (Option.some.inj hn).symm) n hn with ⟨w, hrest⟩
        rcases hcase with ⟨hderef, hnull, hnext⟩ | ⟨hderef, h0, hnext⟩
        · have hinput : (lexInto text input cp).1 = input + 2 := hnext
          rw [hinput] at hrest
          exact ⟨_, .escaped hderef hnull hrest⟩
        · have hinput : (lexInto text input cp).1 = input + 1 := hnext
          rw [hinput] at hrest
          exact ⟨_, .plain h0 hderef hrest⟩
      · rw [literalLoop_other htok] at h
        cases h
        obtain rfl := hsimple n hn
        exact ⟨[], .done⟩

/-- The backlog is the code of the literals. -/
theorem Literals.backlogCode_eq (h : Literals text n k w) : ∀ {fuel : Nat}, n < k + fuel →
    backlogCode text n fuel k = w.map .opChar := by
  -- by induction on the literals: the loop makes an item for each of them
  induction h with
  | done =>
      intro fuel hfuel
      obtain ⟨fuel, rfl⟩ : ∃ f, fuel = f + 1 := ⟨fuel - 1, by omega⟩
      rw [backlogCode, if_pos rfl]
      rfl
  | @plain k w _ hderef rest ih =>
      intro fuel hfuel
      have hle := rest.le
      obtain ⟨fuel, rfl⟩ : ∃ f, fuel = f + 1 := ⟨fuel - 1, by omega⟩
      rw [backlogCode, if_neg (by omega)]
      simp only [if_neg hderef]
      rw [ih (by omega)]
      rfl
  | @escaped k w hderef _ rest ih =>
      intro fuel hfuel
      have hle := rest.le
      obtain ⟨fuel, rfl⟩ : ∃ f, fuel = f + 1 := ⟨fuel - 1, by omega⟩
      rw [backlogCode, if_neg (by omega)]
      simp only [if_pos hderef]
      rw [ih (by omega)]
      rfl

/-- The code of the literals at the start. -/
theorem backlogCode_literals {input : Nat} {cp : Context}
    (h : literalLoop text (text.length + 1) 0 none (stage1Init g) = .ok (input, some n, cp)) :
    ∃ w, Literals text n 0 w ∧ backlogCode text n (n + 1) 0 = w.map .opChar := by
  rcases literalLoop_literals h rfl (by simp) n rfl with ⟨w, hw⟩
  exact ⟨w, hw, hw.backlogCode_eq (by omega)⟩

end

/-! ## The stacks -/

section

variable {g : Statics} {text : List CChar} {cp : Context} {stk : StackId → Stk}
  {index : Option Nat} {c d : List Inst}

theorem Matchables.nil : Matchables [] := by
  intro inst h
  simp at h

theorem Matchables.append (hc : Matchables c) (hd : Matchables d) : Matchables (c ++ d) := by
  intro inst h
  rcases List.mem_append.mp h with h | h
  · exact hc inst h
  · exact hd inst h

theorem Matchables.cons {inst : Inst} (hi : inst.Matchable) (hc : Matchables c) :
    Matchables (inst :: c) := by
  intro inst' h
  rcases List.mem_cons.mp h with rfl | h
  · exact hi
  · exact hc inst' h

theorem Matchables.single {inst : Inst} (hi : inst.Matchable) : Matchables [inst] :=
  .cons hi .nil

theorem Matchables.copies (hc : Matchables c) (n : Nat) : Matchables (copies c n) := by
  induction n with
  | zero => exact .nil
  | succ n ih =>
      rw [copies_succ]
      exact hc.append ih

theorem Matchables.optional (hc : Matchables c) (n : Nat) : Matchables (optionalCode c n) := by
  induction n with
  | zero => exact .nil
  | succ n ih => exact .cons trivial (hc.append ih)

theorem Matchables.repCode {repN repM : Int} (hc : Matchables c)
    (h : repCode c repN repM = some d) : Matchables d := by
  unfold Rxvm.repCode repRangeCode repLessCode at h
  split_ifs at h
  all_goals cases h
  · exact hc.copies _
  · exact .cons trivial hc
  · exact (hc.copies _).append (hc.optional _)
  · exact (hc.copies _).append (.single trivial)
  · exact .cons trivial hc
  · exact hc.optional _
  · exact hc.copies _
  · exact .cons trivial (hc.append (.single trivial))
  · exact .nil

theorem Matchables.setX (hc : Matchables c) (j : Nat) (x : Int) :
    Matchables (c.modify j (Inst.setX x)) := by
  intro inst h
  rcases List.getElem?_of_mem h with ⟨i, hi⟩
  rw [List.getElem?_modify] at hi
  rcases Option.map_eq_some_iff.mp hi with ⟨inst', hget, rfl⟩
  have hinst := hc inst' (List.mem_of_getElem? hget)
  split_ifs
  · cases inst' <;> exact hinst
  · exact hinst

theorem Matchables.attach {s : Stk} (h : Matchables s.code) : Matchables s.attach.code := by
  unfold Stk.attach
  split
  · exact h
  · exact h.setX _ _

theorem Matchables.alt {s : Stk} (h : Matchables s.code) : Matchables s.alt.code :=
  .cons trivial (h.attach.append (.single trivial))

theorem Matchables.opResult {s s' : Stk} {e : List Inst} (hs : Matchables s.code)
    (he : Matchables e) (h : opResult text cp s e = some s') : Matchables s'.code := by
  unfold Rxvm.opResult at h
  split at h
  · rcases Option.map_eq_some_iff.mp h with ⟨code, hcode, rfl⟩
    exact hs.append (he.repCode hcode)
  · obtain rfl := Option.some.inj h
    exact hs.append (he.append (.single trivial))
  · obtain rfl := Option.some.inj h
    exact hs.append (.cons trivial (he.append (.single trivial)))
  · obtain rfl := Option.some.inj h
    exact hs.append (.cons trivial he)
  · obtain rfl := Option.some.inj h
    exact Matchables.alt (hs.append he)
  · obtain rfl := Option.some.inj h
    exact hs

/-- In all stacks. -/
def AllMatchable (stk : StackId → Stk) : Prop := ∀ k, Matchables (stk k).code

theorem AllMatchable.update (h : AllMatchable stk) (k : StackId) {s : Stk}
    (hs : Matchables s.code) : AllMatchable (update stk k s) := by
  intro k'
  by_cases e : k' = k
  · rw [e, update_self]
    exact hs
  · rw [update_of_ne e]
    exact h k'

theorem AllMatchable.flush {cp₁ : Context} {stk₁ : StackId → Stk} {index₁ : Option Nat}
    (h : AllMatchable stk) (hflush : Flushed cp stk index cp₁ stk₁ index₁) :
    AllMatchable stk₁ := by
  cases hflush with
  | popped => exact h.update _ ((h _).append (h _))
  | kept => exact h

/-- A turn puts out instructions of its token, and ones that compare with
nothing. -/
theorem AllMatchable.turn {cp' : Context} {stk' : StackId → Stk} {index' : Option Nat}
    (h : AllMatchable stk) (hturn : Turn text cp stk index cp' stk' index')
    (hsingle : ∀ inst, singleInst text cp = some inst → inst.Matchable)
    (hccs : cp.inCharc = true → cp.strb ≠ some [] → (ccsInst cp).Matchable) :
    AllMatchable stk' := by
  cases hturn with
  | operate _ _ s hs =>
      refine (h.update _ ?_).update _ .nil
      cases hs with
      | operand i _ hop =>
          -- the operand and what is in front of it are parts of the buffer
          refine Matchables.opResult ((h _).append ?_) ?_ hop
          · intro inst hinst
            exact h _ inst (List.mem_of_mem_take hinst)
          · intro inst hinst
            exact h _ inst (List.mem_of_mem_drop hinst)
      | empty _ _ hs =>
          rw [hs]
          exact (h _).alt
  | single _ _ _ _ hflush inst hinst =>
      have h₁ := h.flush hflush.flushed
      exact h₁.update _ ((h₁ _).append (.single (hsingle inst hinst)))
  | quiet _ _ _ _ hflush => exact h.flush hflush.flushed
  | opening _ _ _ _ hflush =>
      have h₁ := h.flush hflush.flushed
      exact ((h₁.update _ ((h₁ _).append (h₁ _))).update _ .nil).update _ .nil
  | closing _ cp₁ stk₁ _ hflush _ cur below _ m' operand stk' hsame =>
      have h₁ := h.flush hflush.flushed
      have hclosed : AllMatchable (closed cp₁ stk₁) :=
        (h₁.update _ (Matchables.attach ((h₁ _).append (h₁ _)))).update _ .nil
      intro k
      rw [(hsame k).1]
      exact hclosed k
  | charc => exact h
  | noCcs => exact h
  | ccs hin _ hstrb => exact h.update _ ((h _).append (.single (hccs hin hstrb)))

/-! ## The program -/

theorem singleInst_matchable {input : Nat} (h : Visited g text input cp) {inst : Inst}
    (hinst : singleInst text cp = some inst) : inst.Matchable := by
  have htext := h.tokenText
  unfold singleInst at hinst
  split at hinst
  · next htok =>
      obtain rfl := Option.some.inj hinst
      exact htext.literal htok
  · obtain rfl := Option.some.inj hinst
    trivial
  · obtain rfl := Option.some.inj hinst
    trivial
  · obtain rfl := Option.some.inj hinst
    trivial
  · cases hinst

theorem startStk_matchable {input : Nat} {simple : Option Nat}
    (h : literalLoop text (text.length + 1) 0 none (stage1Init g) = .ok (input, simple, cp)) :
    AllMatchable (startStk text simple cp.base) := by
  have hinit : AllMatchable (initStk cp.base) := by
    intro k
    rw [(initStk_eq cp.base k).1]
    exact .nil
  cases simple with
  | none => exact hinit
  | some n =>
      rcases backlogCode_literals h with ⟨w, hw, hcode⟩
      refine hinit.update cp.base ?_
      rw [hcode]
      intro inst hinst
      rcases List.mem_map.mp hinst with ⟨c, hc, rfl⟩
      exact hw.noNul c hc

/-- Whatever the stacks hold in a context of a run, all of it is matchable. -/
theorem ctxAt_matchable {n input : Nat} (h : ctxAt g text n = some (input, cp)) :
    ∃ stk index, Holds cp stk index ∧ WellMade cp cp.closing stk ∧ AllMatchable stk := by
  refine ctxAt_invariant (P := fun _ _ cp stk _ => WellMade cp cp.closing stk ∧ AllMatchable stk)
    ?_ ?_ h
  · intro input simple cp hloop _
    exact ⟨WellMade.start _ _ _, startStk_matchable hloop⟩
  · rintro n input cp stk index cp' stk' index' hat hholds ⟨hwell, hall⟩ _ _ hturn htok _ _
    have hvisit : Visited g text input cp := visited_iff.mpr ⟨n, hat⟩
    exact ⟨hwell.next hholds hturn htok input, hall.turn hturn
      (fun inst => singleInst_matchable hvisit) (ccsInst_matchable hvisit.strbText)⟩

theorem Inst.Matchable.relocate {inst : Inst} (h : inst.Matchable) (i : Nat) :
    (inst.relocate i).Matchable := by
  cases inst <;> exact h

theorem Matchables.relocateFrom (h : Matchables c) (i : Nat) : Matchables (relocateFrom i c) := by
  induction c generalizing i with
  | nil => exact .nil
  | cons inst c ih =>
      refine .cons ((h inst List.mem_cons_self).relocate i) (ih ?_ (i + 1))
      intro inst' hinst
      exact h inst' (List.mem_cons_of_mem _ hinst)

theorem AllMatchable.endProgram (h : AllMatchable stk) : Matchables (endProgram cp stk) := by
  have hmatch : Matchables [Inst.opMatch] := .single trivial
  refine Matchables.relocateFrom (Matchables.append ?_ hmatch) 0
  unfold endStk
  split
  · exact Matchables.attach (((h _).append (h _)).append (h _))
  · exact Matchables.attach ((h _).append (h _))

end

/-- Every program of `rxvm_compile` is matchable. -/
theorem rxvmCompile_matchable {g g' : Statics} {exp : List CChar} {compiled : Compiled}
    (h : rxvmCompile g exp = .ok (.ok compiled, g')) (hprogram : compiled.simple = none) :
    Matchables compiled.exe := by
  rcases rxvmCompile_ir h hprogram with
    ⟨input, cp, lfix0, lfixn, cp', hvisit, _, hend, hstage2, _⟩
  rcases visited_iff.mp hvisit with ⟨n, hat⟩
  rcases ctxAt_matchable hat with ⟨stk, index, hholds, hwell, hall⟩
  rcases stage2_program hholds hwell hend with ⟨_, _, exe, hexe, _, hmem, _⟩
  cases hstage2.symm.trans hexe
  intro inst hinst
  rcases hmem inst hinst with hjmp | hinst
  · cases inst with
    | opJmp => trivial
    | _ => cases hjmp
  · exact hall.endProgram inst hinst

end Rxvm
