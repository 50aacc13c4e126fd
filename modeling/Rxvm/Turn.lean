import Rxvm.Steps

/-!
# Rxvm.Turn — one turn of the token loop

`stage1Step_turn` says once what a turn of the loop of `stage1` can do to the
stacks: everything that is proved about all runs of the compiler goes through
the cases of `Turn`.
-/

namespace Rxvm

open Function Linked

/-! ## The cases -/

/-- The flush of a closed group: it goes to the target when it holds
something. -/
inductive Flushed (cp : Context) (stk : StackId → Stk) (index : Option Nat) :
    Context → (StackId → Stk) → Option Nat → Prop
  | popped (m' : Mem) (hclosing : cp.closing = true) (hbuf : (stk cp.buf).code ≠ []) :
      Flushed cp stk index { cp with mem := m', groups := cp.groups.tail, buf := cp.base }
        (update stk cp.target ((stk cp.target).append (stk cp.buf).code)) none
  | kept (h : ¬ (cp.closing = true ∧ (stk cp.buf).code ≠ [])) : Flushed cp stk index cp stk index

/-- The flush, with the layout it leaves. -/
structure FlushedTo (cp : Context) (stk : StackId → Stk) (index : Option Nat) (cp₁ : Context)
    (stk₁ : StackId → Stk) (index₁ : Option Nat) : Prop where
  flushed : Flushed cp stk index cp₁ stk₁ index₁
  layout : ∃ ids₁, Layout cp₁ false ids₁ stk₁ index₁

/-- The instruction of a token that goes to the buffer as it is. -/
def singleInst (text : List CChar) (cp : Context) : Option Inst :=
  match cp.tok with
  | .literal => some (.opChar (cp.lp1Char text))
  | .any => some .opAny
  | .sol => some .opSol
  | .eol => some .opEol
  | _ => none

/-- The statics a token leaves that is no operator. -/
def mainStatics (cp : Context) : Statics :=
  if cp.tok = .literal then
    if cp.statics.lex.newlineSeen = false ∧ cp.depth = 0 then
      { cp.statics with lfix := cp.statics.lfix.lfixContinue cp.statics.lex.lp1 }
    else cp.statics
  else { cp.statics with lfix := cp.statics.lfix.lfixStop }

/-- The instruction of a class. -/
def ccsInst (cp : Context) : Inst :=
  if cp.statics.isNchar then .opNclass (cstring (cp.strb.getD []))
  else .opClass (cstring (cp.strb.getD []))

/-- `s` is what an operator puts on the target. -/
inductive OpOn (text : List CChar) (cp : Context) (stk : StackId → Stk) (index : Option Nat)
    (s : Stk) : Prop
  | operand (i : Nat) (hindex : index = some i)
      (hop : opResult text cp ((stk cp.target).append ((stk cp.buf).code.take i))
        ((stk cp.buf).code.drop i) = some s)
  | empty (hbuf : (stk cp.buf).code = []) (htok : cp.tok = .alt) (hs : s = (stk cp.target).alt)

/-- A turn that succeeds, with the context and the stacks it leaves, and where
the operand is then. Behind an operator nothing is said of the operand. -/
inductive Turn (text : List CChar) (cp : Context) (stk : StackId → Stk) (index : Option Nat) :
    Context → (StackId → Stk) → Option Nat → Prop
  | operate (hmain : cp.inCharc = false) (hop : cp.tok.isop = true) (s : Stk)
      (hs : OpOn text cp stk index s) (m' : Mem) (chained : Bool) (index' : Option Nat) :
      Turn text cp stk index
        { cp with
          mem := m'
          groups := if cp.closing then cp.groups.tail else cp.groups
          buf := cp.base
          chained := chained
          statics := { opStatics text cp with lfix := (opStatics text cp).lfix.lfixStop } }
        (operated cp stk s) index'
  | single (hmain : cp.inCharc = false) (cp₁ : Context) (stk₁ : StackId → Stk) (index₁ : Option Nat)
      (hflush : FlushedTo cp stk index cp₁ stk₁ index₁) (inst : Inst)
      (hinst : singleInst text cp = some inst) (m' : Mem) (operand : Option ItemId) :
      Turn text cp stk index
        { cp₁ with mem := m', operand := operand, statics := mainStatics cp }
        (update stk₁ cp₁.buf ((stk₁ cp₁.buf).append [inst]))
        (some (stk₁ cp₁.buf).code.length)
  | quiet (hmain : cp.inCharc = false) (cp₁ : Context) (stk₁ : StackId → Stk) (index₁ : Option Nat)
      (hflush : FlushedTo cp stk index cp₁ stk₁ index₁) (hop : cp.tok.isop = false)
      (hinst : singleInst text cp = none) (hparen : cp.tok ≠ .lparen ∧ cp.tok ≠ .rparen) :
      Turn text cp stk index
        { cp₁ with
          inCharc := if cp.tok = .charcOpen then true else cp₁.inCharc
          strb := if cp.tok = .charcOpen then some [] else cp₁.strb
          statics := mainStatics cp } stk₁ index₁
  | opening (hmain : cp.inCharc = false) (cp₁ : Context) (stk₁ : StackId → Stk)
      (index₁ : Option Nat) (hflush : FlushedTo cp stk index cp₁ stk₁ index₁)
      (htok : cp.tok = .lparen) (m' : Mem) (hfresh : cp₁.mem.stackCount ∉ cp₁.live) :
      Turn text cp stk index
        { cp₁ with
          mem := m'
          groups := cp₁.mem.stackCount :: cp₁.groups
          target := cp₁.mem.stackCount
          depth := u32 (cp₁.depth + 1)
          statics := mainStatics cp } (opened cp₁ stk₁)
        (if cp₁.buf = cp₁.base then none else index₁)
  | closing (hmain : cp.inCharc = false) (cp₁ : Context) (stk₁ : StackId → Stk)
      (index₁ : Option Nat) (hflush : FlushedTo cp stk index cp₁ stk₁ index₁)
      (htok : cp.tok = .rparen) (cur : StackId) (below : List StackId)
      (hgroups : cp₁.groups = cur :: below) (m' : Mem) (operand : Option ItemId)
      (stk' : StackId → Stk) (hsame : SameCode (closed cp₁ stk₁) stk') :
      Turn text cp stk index
        { cp₁ with
          mem := m'
          operand := operand
          buf := cur
          target := below.headD cp₁.prog
          depth := u32 (cp₁.depth - 1)
          statics := mainStatics cp } stk'
        (if (stk' cur).code = [] then none else some 0)
  | charc (hcharc : cp.inCharc = true) (htok : cp.tok = .literal ∨ cp.tok = .charRange)
      (strb : Option (List CChar)) (isNchar : Bool) :
      Turn text cp stk index
        { cp with strb := strb, statics := { cp.statics with isNchar := isNchar } } stk index
  | noCcs (hcharc : cp.inCharc = true) (htok : cp.tok = .charcClose) (hstrb : cp.strb = some []) :
      Turn text cp stk index
        { cp with
          strb := none
          inCharc := false
          statics := { cp.statics with isNchar := false } } stk index
  | ccs (hcharc : cp.inCharc = true) (htok : cp.tok = .charcClose) (hstrb : cp.strb ≠ some [])
      (m' : Mem) (operand : Option ItemId) :
      Turn text cp stk index
        { cp with
          mem := m'
          operand := operand
          strb := none
          inCharc := false
          statics := { cp.statics with isNchar := false } }
        (update stk cp.base ((stk cp.base).append [ccsInst cp]))
        (if cp.buf = cp.base then some (stk cp.base).code.length else none)

/-! ## The flush -/

section

variable {text : List CChar} {cp : Context} {ids : StackId → List ItemId} {stk : StackId → Stk}
  {index : Option Nat}

theorem Layout.flushed (h : Layout cp cp.closing ids stk index) :
    ∃ cp₁ ids₁ stk₁ index₁, flushGroup cp = .ok cp₁ ∧ Flushed cp stk index cp₁ stk₁ index₁ ∧
      Layout cp₁ false ids₁ stk₁ index₁ := by
  have hflush := h.flush
  by_cases hc : cp.closing = true ∧ (stk cp.buf).code ≠ []
  · rw [if_pos hc] at hflush
    rcases hflush with ⟨m', ids', hrun, hlay⟩
    exact ⟨_, ids', _, none, hrun, .popped m' hc.1 hc.2, hlay⟩
  · rw [if_neg hc] at hflush
    exact ⟨cp, ids, stk, index, hflush.1, .kept hc, hflush.2⟩

/-- The flush leaves everything but the stacks as it is. -/
theorem Flushed.frame {cp₁ : Context} {stk₁ : StackId → Stk} {index₁ : Option Nat}
    (h : Flushed cp stk index cp₁ stk₁ index₁) :
    ∃ m' groups buf, cp₁ = { cp with mem := m', groups := groups, buf := buf } := by
  cases h with
  | popped m' _ _ => exact ⟨m', cp.groups.tail, cp.base, rfl⟩
  | kept _ => exact ⟨cp.mem, cp.groups, cp.buf, rfl⟩

/-- A layout says nothing of tokens, statics and the string builder. -/
theorem Layout.control {closing : Bool} (h : Layout cp closing ids stk index) (cp' : Context)
    (hcp : cp' = { cp with
      strb := cp'.strb, tok := cp'.tok, lasttok := cp'.lasttok, depth := cp'.depth,
      chained := cp'.chained, inCharc := cp'.inCharc, statics := cp'.statics }) :
    Layout cp' closing ids stk index := by
  rw [hcp]
  refine ⟨h.store, h.distinct, ?_, h.baseJmp, h.bufJmp, h.located, h.null, h.capBase, h.capBuf,
    h.uncapped, h.justClosed⟩
  cases h.place with
  | opened ht hb => exact .opened ht hb
  | closed g below hg ht hb hj => exact .closed g below hg ht hb hj

/-! ## Every turn is one of the cases -/

/-- Why a turn fails with the stacks as they were: an operator without an
operand, a `)` without a group, a `]` without a class, or a token that has no
place in a class. -/
inductive Refused (cp : Context) (stk : StackId → Stk) (index : Option Nat) : Err → Prop
  | operator (hop : cp.tok.isop = true) (hbuf : (stk cp.buf).code = []) (htok : cp.tok ≠ .alt) :
      Refused cp stk index .badop
  | rparen (htok : cp.tok = .rparen) (cp₁ : Context) (stk₁ : StackId → Stk)
      (index₁ : Option Nat) (hflush : Flushed cp stk index cp₁ stk₁ index₁)
      (hgroups : cp₁.groups = []) : Refused cp stk index .badparen
  | charcClose (hmain : cp.inCharc = false) (htok : cp.tok = .charcClose) :
      Refused cp stk index .badclass
  | charc (hcharc : cp.inCharc = true)
      (htok : cp.tok ≠ .literal ∧ cp.tok ≠ .charRange ∧ cp.tok ≠ .charcClose) :
      Refused cp stk index .einval

/-- The results of a turn. It stops when an operator has lost its operand, or
in a range of characters; it fails with a layout intact, or in the middle of
an operator; or it is a `Turn`. -/
inductive StepResult (text : List CChar) (cp : Context) (ids : StackId → List ItemId)
    (stk : StackId → Stk) (index : Option Nat) : Coded → Prop
  | lost (hmain : cp.inCharc = false) (hop : cp.tok.isop = true) (hindex : index = none)
      (hbuf : (stk cp.buf).code ≠ []) : StepResult text cp ids stk index (.error .nullItem)
  | diverges (hcharc : cp.inCharc = true) (htok : cp.tok = .charRange) :
      StepResult text cp ids stk index (.error .diverges)
  | abandoned (hmain : cp.inCharc = false) (hop : cp.tok.isop = true) (i : Nat)
      (hindex : index = some i)
      (hres : opResult text cp ((stk cp.target).append ((stk cp.buf).code.take i))
        ((stk cp.buf).code.drop i) = none) (run : Coded) (h : Abandoned cp ids stk i run) :
      StepResult text cp ids stk index run
  | failed (e : Err) (cp' : Context) (ids' : StackId → List ItemId) (stk' : StackId → Stk)
      (index' : Option Nat) (h : ∃ closing, Layout cp' closing ids' stk' index')
      (hwhy : Refused cp stk index e) :
      StepResult text cp ids stk index (.ok (some e, cp'))
  | turned (cp' : Context) (ids' : StackId → List ItemId) (stk' : StackId → Stk)
      (index' : Option Nat) (hturn : Turn text cp stk index cp' stk' index') (htok : cp'.tok = cp.tok)
      (h : Layout cp' (decide (cp.tok = .rparen)) ids' stk' index')
      (hcharc : cp'.inCharc = true → cp.tok ≠ .rparen) :
      StepResult text cp ids stk index (.ok (none, cp'))

theorem processOp_result (h : Layout cp cp.closing ids stk index) (hmain : cp.inCharc = false)
    (hop : cp.tok.isop = true) : StepResult text cp ids stk index (processOp text cp) := by
  have hparen : decide (cp.tok = .rparen) = false := by
    cases htok : cp.tok <;> simp_all [Tok.isop]
  have hturned : ∀ s, OpOn text cp stk index s → Operated text cp stk s (processOp text cp) →
      StepResult text cp ids stk index (processOp text cp) := by
    rintro s hs ⟨m', ids', index', chained, hrun, hlay⟩
    rw [hrun]
    refine .turned _ ids' _ index' (.operate hmain hop s hs m' chained index') rfl ?_ ?_
    · rw [hparen]
      exact hlay
    · intro hin
      exact absurd (hmain.symm.trans hin) (by simp)
  by_cases hbuf : (stk cp.buf).code = []
  · have hrun := processOp_empty text h hbuf
    by_cases htok : cp.tok = .alt
    · rw [if_pos htok] at hrun
      exact hturned _ (.empty hbuf htok rfl) hrun
    · rw [if_neg htok] at hrun
      rw [hrun]
      exact .failed .badop cp ids stk index ⟨_, h⟩ (.operator hop hbuf htok)
  · cases hindex : index with
    | none =>
        rw [hindex] at h
        rw [processOp_missing h hbuf]
        exact .lost hmain hop rfl hbuf
    | some i =>
        subst hindex
        have hrun := processOp_found text h
        cases hres : opResult text cp ((stk cp.target).append ((stk cp.buf).code.take i))
            ((stk cp.buf).code.drop i) with
        | none =>
            rw [hres] at hrun
            exact .abandoned hmain hop i rfl hres _ hrun
        | some s =>
            rw [hres] at hrun
            exact hturned s (.operand i rfl hres) hrun

/-- A token that goes to the buffer as it is, or to no stack at all. -/
theorem stage1MainState_plain {cp₁ : Context} (hop : cp.tok.isop = false)
    (hflush : flushGroup cp = .ok cp₁) {m' : Mem} {groups : List StackId} {buf : StackId}
    (hcp₁ : cp₁ = { cp with mem := m', groups := groups, buf := buf })
    (hparen : cp.tok ≠ .lparen ∧ cp.tok ≠ .rparen) (hclose : cp.tok ≠ .charcClose) :
    stage1MainState text cp = .ok (none, match singleInst text cp with
      | some inst => addSingle { cp₁ with statics := mainStatics cp } inst
      | none => { cp₁ with
          inCharc := if cp.tok = .charcOpen then true else cp₁.inCharc
          strb := if cp.tok = .charcOpen then some [] else cp₁.strb
          statics := mainStatics cp }) := by
  subst hcp₁
  unfold stage1MainState
  rw [if_neg (by simp [hop]), hflush]
  show (if cp.tok = .literal then _ else _) = _
  cases htok : cp.tok with
  | literal =>
      by_cases hlit : cp.statics.lex.newlineSeen = false ∧ cp.depth = 0
      · simp [singleInst, mainStatics, htok, hlit, pure, Except.pure, Context.lp1Char]
      · simp [singleInst, mainStatics, htok, hlit, pure, Except.pure, Context.lp1Char]
  | lparen => exact absurd htok hparen.1
  | rparen => exact absurd htok hparen.2
  | charcClose => exact absurd htok hclose
  | _ =>
      simp [singleInst, mainStatics, htok, pure, Except.pure, Context.lfixStop] 

theorem stage1MainState_lparen {cp₁ : Context} (htok : cp.tok = .lparen)
    (hflush : flushGroup cp = .ok cp₁) {m' : Mem} {groups : List StackId} {buf : StackId}
    (hcp₁ : cp₁ = { cp with mem := m', groups := groups, buf := buf }) :
    stage1MainState text cp = (do
      let cp' ← openGroup { cp₁ with statics := mainStatics cp }
      return (none, cp')) := by
  subst hcp₁
  unfold stage1MainState
  rw [if_neg (by simp [htok, Tok.isop]), hflush]
  show (if cp.tok = .literal then _ else _) = _
  simp [mainStatics, htok, Context.lfixStop]

theorem stage1MainState_rparen {cp₁ : Context} (htok : cp.tok = .rparen)
    (hflush : flushGroup cp = .ok cp₁) {m' : Mem} {groups : List StackId} {buf : StackId}
    (hcp₁ : cp₁ = { cp with mem := m', groups := groups, buf := buf }) :
    stage1MainState text cp = closeGroup { cp₁ with statics := mainStatics cp } := by
  subst hcp₁
  unfold stage1MainState
  rw [if_neg (by simp [htok, Tok.isop]), hflush]
  show (if cp.tok = .literal then _ else _) = _
  simp [mainStatics, htok, Context.lfixStop]

theorem stage1MainState_charcClose {cp₁ : Context} (htok : cp.tok = .charcClose)
    (hflush : flushGroup cp = .ok cp₁) {m' : Mem} {groups : List StackId} {buf : StackId}
    (hcp₁ : cp₁ = { cp with mem := m', groups := groups, buf := buf }) :
    stage1MainState text cp = .ok (some .badclass, { cp₁ with statics := mainStatics cp }) := by
  subst hcp₁
  unfold stage1MainState
  rw [if_neg (by simp [htok, Tok.isop]), hflush]
  show (if cp.tok = .literal then _ else _) = _
  simp [mainStatics, htok, Context.lfixStop, pure, Except.pure]

theorem mainState_result (h : Layout cp cp.closing ids stk index) (hmain : cp.inCharc = false)
    (hop : cp.tok.isop = false) : StepResult text cp ids stk index (stage1MainState text cp) := by
  rcases h.flushed with ⟨cp₁, ids₁, stk₁, index₁, hrun, hflush, hlay⟩
  rcases hflush.frame with ⟨m₁, groups₁, buf₁, hcp₁⟩
  have hto : FlushedTo cp stk index cp₁ stk₁ index₁ := ⟨hflush, ids₁, hlay⟩
  have htok₁ : cp₁.tok = cp.tok := by rw [hcp₁]
  have hin₁ : cp₁.inCharc = false := by rw [hcp₁]; exact hmain
  have hstat : Layout { cp₁ with statics := mainStatics cp } false ids₁ stk₁ index₁ :=
    hlay.control _ rfl
  -- the lexemes in the order of the cases of the source
  by_cases hlp : cp.tok = .lparen
  · rcases hstat.open with ⟨m', ids', hopen, hlay', hfresh⟩
    rw [stage1MainState_lparen hlp hrun hcp₁, hopen]
    have hparen : decide (cp.tok = .rparen) = false := by simp [hlp]
    rw [← hparen] at hlay'
    exact .turned _ ids' _ _ (.opening hmain cp₁ stk₁ index₁ hto hlp m' hfresh) htok₁ hlay'
      fun _ => by simp [hlp]
  by_cases hrp : cp.tok = .rparen
  · rw [stage1MainState_rparen hrp hrun hcp₁]
    -- no group is open: `badparen`
    by_cases hg : cp₁.groups = []
    · have hrun' : closeGroup { cp₁ with statics := mainStatics cp } =
          .ok (some .badparen, { cp₁ with statics := mainStatics cp }) := closeGroup_nil hg
      rw [hrun']
      exact .failed .badparen _ ids₁ stk₁ index₁ ⟨_, hstat⟩
        (.rparen hrp cp₁ stk₁ index₁ hflush hg)
    · rcases List.exists_cons_of_ne_nil hg with ⟨cur, below, hg⟩
      rcases hstat.close hg with ⟨m', ids', stk', hclose, hlay', hsame⟩
      rw [hclose]
      have hparen : decide (cp.tok = .rparen) = true := by simp [hrp]
      rw [← hparen] at hlay'
      refine .turned _ ids' stk' _ (.closing hmain cp₁ stk₁ index₁ hto hrp cur below
        hg m' _ stk' hsame) htok₁ hlay' ?_
      intro hin
      exact absurd (hin₁.symm.trans hin) (by simp)
  have hparen : decide (cp.tok = .rparen) = false := by simp [hrp]
  -- `]` outside a class
  by_cases hclose : cp.tok = .charcClose
  · rw [stage1MainState_charcClose hclose hrun hcp₁]
    exact .failed .badclass _ ids₁ stk₁ index₁ ⟨_, hstat⟩ (.charcClose hmain hclose)
  rw [stage1MainState_plain hop hrun hcp₁ ⟨hlp, hrp⟩ hclose]
  cases hinst : singleInst text cp with
  | some inst =>
      rcases hstat.single inst with ⟨ids', hlay'⟩
      rw [← hparen] at hlay'
      exact .turned _ ids' _ _ (.single hmain cp₁ stk₁ index₁ hto inst hinst _ _) htok₁ hlay'
        fun _ => hrp
  | none =>
      -- a lexeme without instruction, as `[`
      refine .turned _ ids₁ stk₁ index₁
        (.quiet hmain cp₁ stk₁ index₁ hto hop hinst ⟨hlp, hrp⟩) htok₁ ?_ fun _ => hrp
      rw [hparen]
      exact hlay.control _ rfl

theorem expandLoop_error {rhi : CChar} : ∀ {fuel : Nat} {rlo : CChar} {e : Stop},
    expandLoop rhi fuel rlo = .error e → e = .diverges := by
  intro fuel
  induction fuel with
  | zero =>
      intro rlo e h
      exact (Except.error.inj h).symm
  | succ fuel ih =>
      intro rlo e h
      unfold expandLoop at h
      split at h
      · cases hrest : expandLoop rhi fuel (rlo + 1) with
        | error e' =>
            rw [hrest] at h
            obtain rfl : e' = e := Except.error.inj h
            exact ih hrest
        | ok rest =>
            rw [hrest] at h
            cases h
      · cases h

theorem charcState_result (h : Layout cp cp.closing ids stk index) (hcharc : cp.inCharc = true)
    (hclosing : cp.closing = false) :
    StepResult text cp ids stk index (stage1CharcState text cp) := by
  rw [hclosing] at h
  unfold stage1CharcState
  split
  · next htok =>
      have hparen : decide (cp.tok = .rparen) = false := by simp [htok]
      -- the first `^` negates the class
      by_cases hn : cp.lp1Char text = solSym ∧ cp.statics.isNchar = false
      · simp only [if_pos hn]
        refine .turned _ ids stk index (.charc hcharc (Or.inl htok) cp.strb true) rfl ?_ ?_
        · rw [hparen]
          exact h.control _ rfl
        · simp [htok]
      · simp only [if_neg hn]
        refine .turned _ ids stk index
          (.charc hcharc (Or.inl htok) (cp.addc (cp.lp1Char text)).strb cp.statics.isNchar) rfl ?_ ?_
        · rw [hparen]
          exact h.control _ rfl
        · simp [htok]
  · next htok =>
      have hparen : decide (cp.tok = .rparen) = false := by simp [htok]
      cases hexp : expandLoop (rangeBounds text cp.statics.lex.lp1).2 257
          (rangeBounds text cp.statics.lex.lp1).1 with
      -- the loop over a range ends, or goes round for ever
      | error e =>
          obtain rfl := expandLoop_error hexp
          have hrun : expandCharRange text cp = .error .diverges := by
            simp only [expandCharRange, hexp]
            rfl
          simp only [hrun]
          exact .diverges hcharc htok
      | ok chars =>
          have hrun : expandCharRange text cp =
              .ok { cp with strb := some (cp.strb.getD [] ++ chars) } := by
            simp only [expandCharRange, hexp]
            rfl
          simp only [hrun]
          refine .turned _ ids stk index
            (.charc hcharc (Or.inr htok) _ cp.statics.isNchar) rfl ?_ ?_
          · rw [hparen]
            exact h.control _ rfl
          · simp [htok]
  · next htok =>
      have hparen : decide (cp.tok = .rparen) = false := by simp [htok]
      -- an empty class makes no instruction
      by_cases hstrb : cp.strb = some []
      · simp only [codeCcs, if_pos hstrb]
        refine .turned _ ids stk index (.noCcs hcharc htok hstrb) rfl ?_ ?_
        · rw [hparen]
          exact h.control _ rfl
        · simp [htok]
      · rcases h.ccs (ccsInst cp) none with ⟨ids', hlay⟩
        simp only [codeCcs, if_neg hstrb]
        rw [← hparen] at hlay
        exact .turned _ ids' _ _ (.ccs hcharc htok hstrb _ (some cp.mem.itemCount)) rfl
          (hlay.control _ rfl) fun _ => by simp [htok]
  · -- any other token in a class is an error
    next hlit hrange hclose =>
      exact .failed .einval cp ids stk index ⟨_, h⟩ (.charc hcharc ⟨hlit, hrange, hclose⟩)

/-- Every turn of the loop is one of the cases. -/
theorem stage1Step_result (text : List CChar) (h : Layout cp cp.closing ids stk index)
    (hclosing : cp.inCharc = true → cp.closing = false) :
    StepResult text cp ids stk index (stage1Step text cp) := by
  unfold stage1Step
  cases hin : cp.inCharc with
  | true =>
      rw [if_pos rfl]
      exact charcState_result h hin (hclosing hin)
  | false =>
      rw [if_neg (by simp)]
      cases hop : cp.tok.isop with
      | true =>
          have hmain : stage1MainState text cp = processOp text cp := by
            rw [stage1MainState, if_pos hop]
          rw [hmain]
          exact processOp_result h hin hop
      | false => exact mainState_result h hin hop

end

end Rxvm
