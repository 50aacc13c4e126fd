import Rxvm.LexSpec

/-!
# Rxvm.History — what a compilation keeps of the ones before it

`stage1_init` and `lex_init` reset the statics but for the positions of the
last token, the flag `lfixs` and the flag `is_nchar`. The first two are
written before they are read: the lexer sets the positions with each token,
and the first token that is no literal stops the run of literals that `lfixs`
would continue. Only `is_nchar` is read as an earlier compilation has left it.
-/

namespace Rxvm

/-! ## The flag lfixs -/

/-- The context with another `lfixs`. -/
def Context.withLfixs (b : Bool) (cp : Context) : Context :=
  { cp with statics := { cp.statics with lfix := { cp.statics.lfix with lfixs := b } } }

/-- What an emitter returns, with another `lfixs`. -/
def Coded.withLfixs (b : Bool) (r : Coded) : Coded := r.map fun r => (r.1, r.2.withLfixs b)

section

variable (b : Bool) (cp : Context) (i : Option ItemId)

theorem bind_withLfixs {b : Bool} (r : Run Context) {f : Context → Coded}
    (h : ∀ cp, f (cp.withLfixs b) = (f cp).withLfixs b) :
    ((r.map (Context.withLfixs b)) >>= f) = Coded.withLfixs b (r >>= f) := by
  cases r with
  | error => rfl
  | ok cp => exact h cp

theorem catOperand_withLfixs :
    (cp.withLfixs b).catOperand i = (cp.catOperand i).map (Context.withLfixs b) := by
  show (stackCatFromItem cp.target cp.bufStack.head (cp.mem.itemCount + 1) cp.mem i >>=
    fun m => pure { cp.withLfixs b with mem := m }) = _
  unfold Context.catOperand
  cases stackCatFromItem cp.target cp.bufStack.head (cp.mem.itemCount + 1) cp.mem i <;> rfl

theorem dupeOperand_withLfixs :
    (cp.withLfixs b).dupeOperand i = (cp.dupeOperand i).map (Context.withLfixs b) := by
  show (stackDupeFromItem cp.target cp.bufStack.head (cp.mem.itemCount + 1) cp.mem i >>=
    fun m => pure { cp.withLfixs b with mem := m }) = _
  unfold Context.dupeOperand
  cases stackDupeFromItem cp.target cp.bufStack.head (cp.mem.itemCount + 1) cp.mem i <;> rfl

theorem dupeTimes_withLfixs (n : Nat) :
    (cp.withLfixs b).dupeTimes i n = (cp.dupeTimes i n).map (Context.withLfixs b) := by
  induction n generalizing cp with
  | zero => rfl
  | succ n ih =>
      unfold Context.dupeTimes
      rw [dupeOperand_withLfixs]
      cases cp.dupeOperand i with
      | error => rfl
      | ok cp => exact ih cp

theorem codeRepN_withLfixs (repN : Int) :
    codeRepN (cp.withLfixs b) repN i = (codeRepN cp repN i).withLfixs b := by
  unfold codeRepN
  split
  · rfl
  · rw [dupeTimes_withLfixs]
    refine bind_withLfixs _ fun cp => ?_
    rw [catOperand_withLfixs]
    exact bind_withLfixs _ fun _ => rfl

theorem codeOne_withLfixs (size : Nat) :
    codeOne (cp.withLfixs b) size i = (codeOne cp size i).withLfixs b := by
  unfold codeOne
  rw [catOperand_withLfixs]
  exact bind_withLfixs _ fun _ => rfl

theorem emit_withLfixs (inst : Inst) :
    (cp.withLfixs b).emit inst = (cp.emit inst).withLfixs b := rfl

theorem codeZero_withLfixs (size : Nat) :
    codeZero (cp.withLfixs b) size i = (codeZero cp size i).withLfixs b := by
  unfold codeZero
  rw [emit_withLfixs, catOperand_withLfixs]
  exact bind_withLfixs _ fun _ => rfl

theorem codeOnezero_withLfixs (size : Nat) :
    codeOnezero (cp.withLfixs b) size i = (codeOnezero cp size i).withLfixs b := by
  unfold codeOnezero
  rw [emit_withLfixs, catOperand_withLfixs]
  exact bind_withLfixs _ fun _ => rfl

theorem codeOptional_withLfixs (size rounds : Nat) :
    codeOptional size i rounds (cp.withLfixs b) =
      (codeOptional size i rounds cp).map (Context.withLfixs b) := by
  induction rounds generalizing cp with
  | zero => rfl
  | succ rounds ih =>
      unfold codeOptional
      by_cases h : rounds = 0
      · simp only [if_pos h, emit_withLfixs, catOperand_withLfixs]
        cases (cp.emit (.opBranch 1 ((size + 1) * (rounds + 1)))).catOperand i with
        | error => rfl
        | ok cp => exact ih cp
      · simp only [if_neg h, emit_withLfixs, dupeOperand_withLfixs]
        cases (cp.emit (.opBranch 1 ((size + 1) * (rounds + 1)))).dupeOperand i with
        | error => rfl
        | ok cp => exact ih cp

theorem codeRepRange_withLfixs (repN repM : Int) (size : Nat) :
    codeRepRange (cp.withLfixs b) repN repM size i =
      (codeRepRange cp repN repM size i).withLfixs b := by
  unfold codeRepRange
  split
  · exact codeRepN_withLfixs b cp i repN
  · split
    · exact codeOnezero_withLfixs b cp i size
    · simp only [dupeTimes_withLfixs]
      refine bind_withLfixs _ fun cp => ?_
      rw [codeOptional_withLfixs]
      exact bind_withLfixs _ fun _ => rfl

theorem codeRepMore_withLfixs (repN : Int) (size : Nat) :
    codeRepMore (cp.withLfixs b) repN size i = (codeRepMore cp repN size i).withLfixs b := by
  unfold codeRepMore
  rw [dupeTimes_withLfixs]
  refine bind_withLfixs _ fun cp => ?_
  rw [catOperand_withLfixs]
  exact bind_withLfixs _ fun _ => rfl

theorem codeRepLess_withLfixs (repM : Int) (size : Nat) :
    codeRepLess (cp.withLfixs b) repM size i = (codeRepLess cp repM size i).withLfixs b := by
  unfold codeRepLess
  split
  · rfl
  · split
    · exact codeOnezero_withLfixs b cp i size
    · rw [codeOptional_withLfixs]
      exact bind_withLfixs _ fun _ => rfl

theorem attachDanglingAlt_withLfixs :
    attachDanglingAlt (cp.withLfixs b) = (attachDanglingAlt cp).withLfixs b := by
  have htarget : (cp.withLfixs b).targetStack = cp.targetStack := rfl
  cases h : cp.targetStack.danglingAlt with
  | none => simp only [attachDanglingAlt, htarget, h]
  | some d =>
      simp only [attachDanglingAlt, htarget, h]
      rfl

theorem altTail_withLfixs : altTail (cp.withLfixs b) = (altTail cp).withLfixs b := by
  have hchained : (if (cp.withLfixs b).targetStack.dsize ≠ 0 ∧ (cp.withLfixs b).chained = false
      then { cp.withLfixs b with chained := true } else cp.withLfixs b) =
      (if cp.targetStack.dsize ≠ 0 ∧ cp.chained = false then { cp with chained := true }
        else cp).withLfixs b := by
    by_cases h : cp.targetStack.dsize ≠ 0 ∧ cp.chained = false
    · rw [if_pos h]
      exact if_pos h
    · rw [if_neg h]
      exact if_neg h
  unfold altTail
  simp only [hchained, attachDanglingAlt_withLfixs]
  rfl

theorem codeAlt_withLfixs : codeAlt (cp.withLfixs b) i = (codeAlt cp i).withLfixs b := by
  cases i with
  | none =>
      rw [codeAlt_none, codeAlt_none, altTail_withLfixs]
      rfl
  | some n =>
      have hcat := catOperand_withLfixs b cp (some n)
      cases h : cp.catOperand (some n) with
      | error e =>
          rw [h] at hcat
          rw [codeAlt, codeAlt, if_neg (by simp), if_neg (by simp), hcat, h]
          rfl
      | ok cp' =>
          rw [h] at hcat
          rw [codeAlt_some h, codeAlt_some hcat, altTail_withLfixs]
          rfl

/-! ## A turn -/

theorem lfixDec_withLfixs : (cp.withLfixs b).lfixDec = cp.lfixDec.withLfixs b := by
  show Context.mk .. = _
  unfold Context.lfixDec Context.withLfixs LfixStatics.lfixDec
  by_cases h : cp.statics.lfix.ltempn > cp.statics.lfix.ltemp0
  · simp only [if_pos h]
  · simp only [if_neg h]

/-- `lfix_stop` ends the run of literals, whatever `lfixs` was. -/
theorem lfixStop_withLfixs : (cp.withLfixs b).lfixStop = cp.lfixStop := by
  have hlongest : ({ cp.statics.lfix with lfixs := b } : LfixStatics).lfixUpdateLongest =
      { cp.statics.lfix.lfixUpdateLongest with lfixs := b } := by
    unfold LfixStatics.lfixUpdateLongest
    by_cases h : cp.statics.lfix.lfixCurrent > cp.statics.lfix.lfixLongest
    · rw [if_pos h]
      exact if_pos h
    · rw [if_neg h]
      exact if_neg h
  have hstop : (cp.withLfixs b).statics.lfix.lfixStop = cp.statics.lfix.lfixStop := by
    show LfixStatics.lfixStop ({ cp.statics.lfix with lfixs := b } : LfixStatics) = _
    unfold LfixStatics.lfixStop
    rw [hlongest]
  show ({ cp with statics := { cp.statics with
    lfix := (cp.withLfixs b).statics.lfix.lfixStop } } : Context) = cp.lfixStop
  rw [hstop]
  rfl

/-- An operator that shortens the fixed substring. -/
theorem dec_withLfixs (r : Coded) :
    (r.withLfixs b >>= fun r => pure (r.1, if r.1 = none then r.2.lfixDec else r.2)) =
      Coded.withLfixs b (r >>= fun r => pure (r.1, if r.1 = none then r.2.lfixDec else r.2)) := by
  cases r with
  | error => rfl
  | ok r =>
      rcases r with ⟨err, cp⟩
      cases err with
      | some e => rfl
      | none =>
          show (pure (none, (cp.withLfixs b).lfixDec) : Coded) = _
          rw [lfixDec_withLfixs]
          rfl

theorem processOpRep_withLfixs (repN repM : Int) (size : Nat) :
    processOpRep (cp.withLfixs b) repN repM size i =
      (processOpRep cp repN repM size i).withLfixs b := by
  unfold processOpRep
  split_ifs
  · exact codeRepRange_withLfixs b cp i repN repM size
  · exact codeRepMore_withLfixs b cp i repN size
  · rw [codeRepLess_withLfixs]
    exact dec_withLfixs b _
  · exact codeRepN_withLfixs b cp i repN
  · rw [codeZero_withLfixs]
    exact dec_withLfixs b _
  · rfl

theorem processOpSwitch_withLfixs (text : List CChar) (size : Nat) :
    processOpSwitch text (cp.withLfixs b) size i =
      (processOpSwitch text cp size i).withLfixs b := by
  have htok : (cp.withLfixs b).tok = cp.tok := rfl
  unfold processOpSwitch
  cases h : cp.tok with
  | rep =>
      simp only [htok, h]
      exact processOpRep_withLfixs b cp i _ _ size
  | one =>
      simp only [htok, h]
      exact codeOne_withLfixs b cp i size
  | zero =>
      simp only [htok, h, codeZero_withLfixs]
      exact dec_withLfixs b _
  | onezero =>
      simp only [htok, h, codeOnezero_withLfixs]
      exact dec_withLfixs b _
  | alt =>
      simp only [htok, h, codeAlt_withLfixs]
      cases codeAlt cp i with
      | error => rfl
      | ok r =>
          rcases r with ⟨err, cp⟩
          -- outside the groups `|` sets a flag of its own, whatever `lfixs` is
          by_cases hd : err = none ∧ cp.depth = 0
          · simp only [Coded.withLfixs, Except.map, bind, Except.bind, pure, Except.pure]
            rw [if_pos hd, if_pos (show err = none ∧ (cp.withLfixs b).depth = 0 from hd)]
            rfl
          · simp only [Coded.withLfixs, Except.map, bind, Except.bind, pure, Except.pure]
            rw [if_neg hd, if_neg (show ¬ (err = none ∧ (cp.withLfixs b).depth = 0) from hd)]
  | _ =>
      simp only [htok, h]
      rfl

/-- `process_op` ends with `lfix_stop`. -/
theorem processOpEnd_withLfixs : processOpEnd (cp.withLfixs b) = processOpEnd cp := by
  unfold processOpEnd
  rw [lfixStop_withLfixs]

/-- What matters of a turn: the error, or the context. -/
def turnResult (r : Coded) : Run (Except Err Context) :=
  r.map fun r => match r with
    | (some e, _) => .error e
    | (none, cp) => .ok cp

theorem processOp_withLfixs (text : List CChar) :
    turnResult (processOp text (cp.withLfixs b)) = turnResult (processOp text cp) := by
  -- `process_op` ends in both with `lfix_stop`, which clears `lfixs`
  have hend : ∀ run : Coded,
      turnResult (run.withLfixs b >>= fun r => match r with
        | (some e, cp) => pure (some e, cp)
        | (none, cp) => pure (none, processOpEnd cp)) =
      turnResult (run >>= fun r => match r with
        | (some e, cp) => pure (some e, cp)
        | (none, cp) => pure (none, processOpEnd cp)) := by
    intro run
    cases run with
    | error => rfl
    | ok r =>
        rcases r with ⟨err, cp⟩
        cases err with
        | some e => rfl
        | none =>
            show Except.ok (Except.ok (processOpEnd (cp.withLfixs b))) = _
            rw [processOpEnd_withLfixs]
            rfl
  -- only `|` may stand behind an empty buffer
  by_cases hhead : cp.bufStack.head = none
  · have hhead' : (cp.withLfixs b).bufStack.head = none := hhead
    by_cases htok : cp.tok = .alt
    · have htok' : (cp.withLfixs b).tok = .alt := htok
      rw [processOp, processOp, if_pos hhead, if_pos hhead', if_pos htok, if_pos htok']
      simp only [processOpSwitch_withLfixs]
      exact hend _
    · have htok' : (cp.withLfixs b).tok ≠ .alt := htok
      rw [processOp, processOp, if_pos hhead, if_pos hhead', if_neg htok, if_neg htok']
      rfl
  · have hhead' : (cp.withLfixs b).bufStack.head ≠ none := hhead
    rw [processOp, processOp, if_neg hhead, if_neg hhead']
    show turnResult (walkToOperand cp.target cp.operand (cp.mem.itemCount + 1) cp.mem
      cp.bufStack.tail cp.bufStack.size >>= _) = _
    cases walkToOperand cp.target cp.operand (cp.mem.itemCount + 1) cp.mem
        cp.bufStack.tail cp.bufStack.size with
    | error => rfl
    | ok r =>
        -- the walk to the operand reads the memory only
        have hswitch := processOpSwitch_withLfixs b { cp with mem := r.1 } cp.operand text
          r.2
        show turnResult (processOpSwitch text (Context.withLfixs b { cp with mem := r.1 }) r.2
          cp.operand >>= _) = _
        rw [hswitch]
        exact hend _

/-- A token that is no literal stops the run of literals, so `lfixs` makes no
difference to its turn. -/
theorem stage1MainState_withLfixs (text : List CChar) (htok : cp.tok ≠ .literal) :
    turnResult (stage1MainState text (cp.withLfixs b)) =
      turnResult (stage1MainState text cp) := by
  by_cases hop : cp.tok.isop = true
  · have hop' : (cp.withLfixs b).tok.isop = true := hop
    rw [stage1MainState, stage1MainState, if_pos hop, if_pos hop']
    exact processOp_withLfixs b cp text
  have hop' : ¬ (cp.withLfixs b).tok.isop = true := hop
  rw [stage1MainState, stage1MainState, if_neg hop, if_neg hop']
  -- nor does it look at the counters
  have hflush : flushGroup (cp.withLfixs b) = (flushGroup cp).map (Context.withLfixs b) := by
    by_cases h : cp.lasttok = .rparen ∧ cp.bufStack.size > 0
    · rw [flushGroup, flushGroup, if_pos h,
        if_pos (show (cp.withLfixs b).lasttok = .rparen ∧ (cp.withLfixs b).bufStack.size > 0 from h)]
      show (cp.mem.stackCat cp.target cp.buf >>= _) = _
      cases cp.mem.stackCat cp.target cp.buf <;> rfl
    · rw [flushGroup, flushGroup, if_neg h, if_neg
        (show ¬ ((cp.withLfixs b).lasttok = .rparen ∧ (cp.withLfixs b).bufStack.size > 0) from h)]
      rfl
  -- the flush does not touch the token
  have hkeep : ∀ cp₁, flushGroup cp = .ok cp₁ → cp₁.tok ≠ .literal := by
    intro cp₁ h
    unfold flushGroup at h
    split at h
    · cases hcat : cp.mem.stackCat cp.target cp.buf with
      | error =>
          rw [hcat] at h
          cases h
      | ok m =>
          rw [hcat] at h
          obtain rfl := Except.ok.inj h
          exact htok
    · obtain rfl := Except.ok.inj h
      exact htok
  rw [hflush]
  cases hrun : flushGroup cp with
  | error => rfl
  | ok cp₁ =>
      have hne : cp₁.tok ≠ .literal := hkeep cp₁ hrun
      have hne' : (cp₁.withLfixs b).tok ≠ .literal := hne
      simp only [Except.map, bind, Except.bind]
      rw [if_neg hne, if_neg hne', lfixStop_withLfixs]

theorem stage1Step_withLfixs (text : List CChar) (htok : cp.tok ≠ .literal)
    (hcharc : cp.inCharc = false) :
    turnResult (stage1Step text (cp.withLfixs b)) = turnResult (stage1Step text cp) := by
  have hcharc' : (cp.withLfixs b).inCharc = false := hcharc
  rw [stage1Step, stage1Step, if_neg (by simp [hcharc']), if_neg (by simp [hcharc])]
  exact stage1MainState_withLfixs b cp text htok

end

/-! ## Whole compilations -/

/-- Runs of `stage1` that `rxvm_compile` makes the same of. -/
inductive Alike : Run Stage1 → Run Stage1 → Prop
  | same (r : Run Stage1) : Alike r r
  | fail (e : Err) (cp cp' : Context) : Alike (.ok (.fail e cp)) (.ok (.fail e cp'))
  | simple (lfixn : Nat) (g g' : Statics) :
      Alike (.ok (.simple lfixn g)) (.ok (.simple lfixn g'))

theorem Alike.of_turnResult {r r' : Coded} {f : Context → Run Stage1}
    (h : turnResult r = turnResult r') :
    Alike (r >>= fun r => match r with | (some e, cp) => pure (.fail e cp) | (none, cp) => f cp)
      (r' >>= fun r => match r with | (some e, cp) => pure (.fail e cp) | (none, cp) => f cp) := by
  rcases r with s | ⟨_ | e, cp⟩ <;> rcases r' with s' | ⟨_ | e', cp'⟩ <;>
    simp only [turnResult, Except.map, Except.ok.injEq, Except.error.injEq, reduceCtorEq] at h
  · subst h
    exact .same _
  · subst h
    exact .same _
  · subst h
    exact .fail e cp cp'

/-- The token loop, from a token that is no literal. -/
theorem stage1Loop_withLfixs (text : List CChar) (fuel input : Nat) (b : Bool) (cp : Context)
    (htok : cp.tok ≠ .literal) (hcharc : cp.inCharc = false) :
    Alike (stage1Loop text fuel input (cp.withLfixs b)) (stage1Loop text fuel input cp) := by
  cases fuel with
  | zero => exact .same _
  | succ fuel =>
      by_cases herr : ∃ e, cp.tok = .error e
      · rcases herr with ⟨e, he⟩
        have he' : (cp.withLfixs b).tok = .error e := he
        rw [stage1Loop, stage1Loop, he, he']
        exact .fail e _ _
      · have h : ∀ e, cp.tok ≠ .error e := fun e he => herr ⟨e, he⟩
        have h' : ∀ e, (cp.withLfixs b).tok ≠ .error e := h
        rw [stage1Loop_step h, stage1Loop_step h']
        exact .of_turnResult (stage1Step_withLfixs b cp text htok hcharc)

/-! ## The literals at the start -/

theorem literalLoop_withLfixs (text : List CChar) (b : Bool) : ∀ (fuel input : Nat)
    (simple : Option Nat) (cp : Context), literalLoop text fuel input simple (cp.withLfixs b) =
      (literalLoop text fuel input simple cp).map fun r => (r.1, r.2.1, r.2.2.withLfixs b) := by
  intro fuel
  induction fuel with
  | zero => exact fun _ _ _ => rfl
  | succ fuel ih =>
      intro input simple cp
      by_cases htok : (lexInto text input cp).2.tok = .literal
      · have htok' : (lexInto text input (cp.withLfixs b)).2.tok = .literal := htok
        rw [literalLoop_literal htok, literalLoop_literal htok', ← ih]
        rfl
      · have htok' : (lexInto text input (cp.withLfixs b)).2.tok ≠ .literal := htok
        rw [literalLoop_other htok, literalLoop_other htok']
        rfl

theorem backlogLoop_withLfixs (text : List CChar) (simple : Nat) (b : Bool) :
    ∀ (fuel orig : Nat) (fixtemp delimit : Int) (cp : Context),
      backlogLoop text simple fuel orig fixtemp delimit (cp.withLfixs b) =
        ((backlogLoop text simple fuel orig fixtemp delimit cp).1,
          (backlogLoop text simple fuel orig fixtemp delimit cp).2.1,
          (backlogLoop text simple fuel orig fixtemp delimit cp).2.2.1,
          (backlogLoop text simple fuel orig fixtemp delimit cp).2.2.2.withLfixs b) := by
  intro fuel
  induction fuel with
  | zero => exact fun _ _ _ _ => rfl
  | succ fuel ih =>
      intro orig fixtemp delimit cp
      unfold backlogLoop
      by_cases h : orig = simple
      · simp only [if_pos h]
      · simp only [if_neg h]
        rw [← ih]
        rfl

theorem loopStart_withLfixs (text : List CChar) (simple : Option Nat) (b : Bool) (cp : Context) :
    loopStart text simple (cp.withLfixs b) = (loopStart text simple cp).withLfixs b := by
  cases simple with
  | none => rfl
  | some simple =>
      show compileSimpleBacklog text simple (cp.withLfixs b) = _
      unfold compileSimpleBacklog
      rw [backlogLoop_withLfixs]
      rfl

/-! ## The first token -/

/-- Results of the lexer that differ in its statics only, at a token that ends
the compilation. -/
def LexAlike (r r' : Tok × Nat × LexStatics) : Prop :=
  r = r' ∨ r.1 = r'.1 ∧ (r.1 = .eos ∨ ∃ e, r.1 = .error e)

theorem lexRange_alike (text : List CChar) (input : Nat) (l : LexStatics) (n : Nat) :
    LexAlike (lexRange text input { l with lpn := n }) (lexRange text input l) := by
  unfold lexRange
  split_ifs
  · exact Or.inl rfl
  · exact Or.inr ⟨rfl, Or.inr ⟨_, rfl⟩⟩
  · exact Or.inl rfl
  · exact Or.inr ⟨rfl, Or.inr ⟨_, rfl⟩⟩
  · exact Or.inl rfl
  · exact Or.inr ⟨rfl, Or.inr ⟨_, rfl⟩⟩

theorem lexLiteral_alike (text : List CChar) (input : Nat) (l : LexStatics) (n : Nat) :
    LexAlike (lexLiteral text input { l with lpn := n }) (lexLiteral text input l) := by
  have hset : (if at' text input = newline then
      { ({ l with lpn := n } : LexStatics) with newlineSeen := true } else { l with lpn := n }) =
      { (if at' text input = newline then { l with newlineSeen := true } else l) with
        lpn := n } := by
    split <;> rfl
  unfold lexLiteral
  simp only [hset]
  split_ifs
  · exact Or.inr ⟨rfl, Or.inr ⟨_, rfl⟩⟩
  · exact lexRange_alike text _ _ n
  · exact Or.inl rfl
  · exact Or.inr ⟨rfl, Or.inr ⟨_, rfl⟩⟩
  · exact lexRange_alike text _ _ n
  · exact Or.inl rfl

/-- The lexer writes the positions of the token before it reads them. -/
theorem lex_alike (text : List CChar) (input : Nat) (l : LexStatics) (m n : Nat) :
    LexAlike (lex text input { l with lp1 := m, lpn := n }) (lex text input l) := by
  unfold lex
  by_cases h0 : at' text input = 0
  · simp only [if_pos h0]
    exact Or.inr ⟨rfl, Or.inl rfl⟩
  by_cases hderef : at' text input = derefSym
  · simp only [if_neg h0, if_pos hderef]
    split_ifs
    · exact Or.inr ⟨rfl, Or.inr ⟨_, rfl⟩⟩
    -- `lp1` is set here and `lpn` where the token ends; only an error leaves it as it was
    · exact lexLiteral_alike text _ { l with lp1 := input + 1 } n
  by_cases hclose : at' text input = charcCloseSym
  · simp only [if_neg h0, if_neg hderef, if_pos hclose]
    exact Or.inl rfl
  by_cases hopen : at' text input = repOpenSym
  · simp only [if_neg h0, if_neg hderef, if_neg hclose, if_pos hopen]
    split_ifs
    · exact lexLiteral_alike text _ { l with lp1 := input } n
    · have htok := lexRep_tok (at' text (input + 1)) (text.drop (input + 1)) (at' text input)
        false (input + 1)
      generalize lexRep (at' text (input + 1)) (text.drop (input + 1)) (at' text input) false
        (input + 1) = r at htok ⊢
      rcases r with ⟨ret, input'⟩
      rcases htok with rfl | ⟨e, rfl⟩
      · exact Or.inl rfl
      · cases e with
        | erep => exact Or.inl rfl
        | _ => exact Or.inr ⟨rfl, Or.inr ⟨_, rfl⟩⟩
  simp only [if_neg h0, if_neg hderef, if_neg hclose, if_neg hopen]
  cases metaTok (at' text input) with
  | some tok =>
      by_cases hlit : l.literal = true
      · simp only [if_pos hlit]
        exact lexLiteral_alike text _ { l with lp1 := input } n
      · simp only [if_neg hlit]
        refine Or.inl ?_
        split <;> rfl
  | none =>
      by_cases hp : isprintable (at' text input) = true
      · simp only [if_pos hp]
        exact lexLiteral_alike text _ { l with lp1 := input } n
      · simp only [if_neg hp]
        exact Or.inr ⟨rfl, Or.inr ⟨_, rfl⟩⟩

/-! ## Compilations that do not depend on the past -/

section

variable {g g' : Statics} {text : List CChar}

/-- Behind a first token that is read the same way the contexts differ in
`lfixs` only. -/
theorem firstToken_withLfixs (h : g.isNchar = g'.isNchar)
    (hlex : lex text 0 (lexInit g.lex) = lex text 0 (lexInit g'.lex)) :
    lexInto text 0 (stage1Init g) = ((lexInto text 0 (stage1Init g')).1,
      (lexInto text 0 (stage1Init g')).2.withLfixs g.lfix.lfixs) := by
  have hinto : ∀ g : Statics, lexInto text 0 (stage1Init g) =
      ((lex text 0 (lexInit g.lex)).2.1, { stage1Init g with
        tok := (lex text 0 (lexInit g.lex)).1
        statics := { (stage1Init g).statics with lex := (lex text 0 (lexInit g.lex)).2.2 } }) :=
    fun _ => rfl
  rw [hinto, hinto, hlex]
  unfold Context.withLfixs stage1Init LfixStatics.lfixZero
  simp only [h]

theorem literalLoop_start_withLfixs (h : g.isNchar = g'.isNchar)
    (hlex : lex text 0 (lexInit g.lex) = lex text 0 (lexInit g'.lex)) (fuel : Nat) :
    literalLoop text (fuel + 1) 0 none (stage1Init g) =
      (literalLoop text (fuel + 1) 0 none (stage1Init g')).map
        fun r => (r.1, r.2.1, r.2.2.withLfixs g.lfix.lfixs) := by
  have hinto := firstToken_withLfixs h hlex
  by_cases htok : (lexInto text 0 (stage1Init g')).2.tok = .literal
  · have htok' : (lexInto text 0 (stage1Init g)).2.tok = .literal := by
      rw [hinto]
      exact htok
    rw [literalLoop_literal htok, literalLoop_literal htok', hinto, literalLoop_withLfixs]
  · have htok' : (lexInto text 0 (stage1Init g)).2.tok ≠ .literal := by
      rw [hinto]
      exact htok
    rw [literalLoop_other htok, literalLoop_other htok', hinto]
    rfl

/-- Of what earlier compilations have left `stage1` only depends on
`is_nchar`. -/
theorem stage1_alike (h : g.isNchar = g'.isNchar) : Alike (stage1 g text) (stage1 g' text) := by
  have hlex : LexAlike (lex text 0 (lexInit g.lex)) (lex text 0 (lexInit g'.lex)) :=
    lex_alike text 0 (lexInit g'.lex) g.lex.lp1 g.lex.lpn
  rcases hlex with hlex | ⟨htok, hend⟩
  · have hloop := literalLoop_start_withLfixs h hlex text.length
    rcases hrun : literalLoop text (text.length + 1) 0 none (stage1Init g') with
      s | ⟨input, simple, cp⟩
    · rw [hrun] at hloop
      rw [stage1, stage1, hrun, hloop]
      exact .same _
    · rw [hrun] at hloop
      rw [stage1_eq g' text hrun, stage1_eq g text hloop]
      by_cases heos : cp.tok = .eos
      · rw [if_pos heos, if_pos (show (cp.withLfixs g.lfix.lfixs).tok = .eos from heos)]
        exact .simple _ _ _
      · rw [if_neg heos, if_neg (show (cp.withLfixs g.lfix.lfixs).tok ≠ .eos from heos),
          loopStart_withLfixs]
        rcases literalLoop_frame hrun with ⟨htok, tok, lex, hcp⟩
        rcases loopStart_layout hrun with ⟨_, _, m', operand, l, hstart⟩
        refine stage1Loop_withLfixs _ _ _ _ _ ?_ ?_
        · rw [loopStart_tok]
          exact htok
        · rw [hstart, hcp]
          rfl
  · -- the first token is the last one
    -- the first token ends both runs
    have hlit : (lex text 0 (lexInit g.lex)).1 ≠ .literal := by
      rcases hend with he | ⟨e, he⟩ <;> simp [he]
    have hrun : literalLoop text (text.length + 1) 0 none (stage1Init g) = _ :=
      literalLoop_other hlit
    have hlit' : (lex text 0 (lexInit g'.lex)).1 ≠ .literal := fun he => hlit (htok.trans he)
    have hrun' : literalLoop text (text.length + 1) 0 none (stage1Init g') = _ :=
      literalLoop_other hlit'
    rw [stage1_eq g text hrun, stage1_eq g' text hrun']
    rcases hend with he | ⟨e, he⟩
    · rw [if_pos (show (lexInto text 0 (stage1Init g)).2.tok = .eos from he),
        if_pos (show (lexInto text 0 (stage1Init g')).2.tok = .eos from htok.symm.trans he)]
      exact .simple _ _ _
    · have he' : (lexInto text 0 (stage1Init g)).2.tok = .error e := he
      have he'' : (lexInto text 0 (stage1Init g')).2.tok = .error e := htok.symm.trans he
      rw [if_neg (by simp [he']), if_neg (by simp [he''])]
      show Alike (stage1Loop text _ _ (lexInto text 0 (stage1Init g)).2)
        (stage1Loop text _ _ (lexInto text 0 (stage1Init g')).2)
      rw [stage1Loop_error he', stage1Loop_error he'']
      exact .fail e _ _

/-- What `rxvm_compile` returns, without the statics it leaves. -/
def compileResult (g : Statics) (exp : List CChar) : Run (Except Err Compiled) :=
  (rxvmCompile g exp).map Prod.fst

theorem compileResult_congr (h : g.isNchar = g'.isNchar) (exp : List CChar) :
    compileResult g exp = compileResult g' exp := by
  have halike : Alike (stage1 g exp) (stage1 g' exp) := stage1_alike h
  unfold compileResult rxvmCompile
  generalize stage1 g exp = r at halike ⊢
  generalize stage1 g' exp = r' at halike ⊢
  cases halike with
  | same => rfl
  | fail => rfl
  | simple => rfl

/-- Compilations one after the other, and the statics they leave. -/
def compileAll (g : Statics) : List (List CChar) → Run Statics
  | [] => .ok g
  | exp :: rest => do
    let (_, g) ← rxvmCompile g exp
    compileAll g rest

/-- `[^a`, which fails inside a negated class, and the class `[a]`, which is a
negated class behind it. -/
theorem compileResult_not_fresh : ∃ history g exp, compileAll Statics.init history = .ok g ∧
    compileResult g exp ≠ compileResult Statics.init exp := by
  refine ⟨[[91, 94, 97]], { Statics.init with isNchar := true, lex := ⟨true, false, 2, 3⟩ },
    [91, 97, 93], rfl, ?_⟩
  intro heq
  have hset : compileResult { Statics.init with isNchar := true, lex := ⟨true, false, 2, 3⟩ }
      [91, 97, 93] = .ok (.ok { exe := [.opNclass [97], .opMatch], simple := none, lfix := none,
                                lfix0 := 0, lfixn := 0 }) := rfl
  have hfresh : compileResult Statics.init [91, 97, 93] =
      .ok (.ok { exe := [.opClass [97], .opMatch], simple := none, lfix := none, lfix0 := 0,
                 lfixn := 0 }) := rfl
  rw [hset, hfresh] at heq
  simp at heq

/-- The class `[a]` tells the two values of `is_nchar` apart. -/
theorem compileResult_class (h : compileResult g [91, 97, 93] =
    compileResult Statics.init [91, 97, 93]) : g.isNchar = false := by
  by_contra hne
  have htrue : g.isNchar = ({ Statics.init with isNchar := true } : Statics).isNchar := by
    simpa using hne
  have hset : compileResult { Statics.init with isNchar := true } [91, 97, 93] =
      .ok (.ok { exe := [.opNclass [97], .opMatch], simple := none, lfix := none, lfix0 := 0,
                 lfixn := 0 }) := rfl
  have hfresh : compileResult Statics.init [91, 97, 93] =
      .ok (.ok { exe := [.opClass [97], .opMatch], simple := none, lfix := none, lfix0 := 0,
                 lfixn := 0 }) := rfl
  rw [compileResult_congr htrue, hset, hfresh] at h
  simp at h

/-- A compilation behind others gives what it gives in a fresh process, for
every expression, if and only if the flag `is_nchar` has not been left set. -/
theorem compileResult_fresh_iff (history : List (List CChar)) :
    ∀ g, compileAll Statics.init history = .ok g →
      ((∀ exp, compileResult g exp = compileResult Statics.init exp) ↔ g.isNchar = false) := by
  intro g _
  constructor
  · intro hall
    exact compileResult_class (hall _)
  · intro hfalse exp
    exact compileResult_congr hfalse exp

/-- `[a]` behind `a)`, which fails with `RXVM_BADPAREN`. -/
theorem compileResult_fresh_badparen :
    compileResult { Statics.init with lex := ⟨false, false, 1, 2⟩, lfix := ⟨0, 0, 0, 0, false⟩ }
      [91, 97, 93] = compileResult Statics.init [91, 97, 93] :=
  (compileResult_fresh_iff [[97, 41]] _ rfl).mpr rfl [91, 97, 93]

end

end Rxvm
