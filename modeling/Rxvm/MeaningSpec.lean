import Rxvm.ClassSpec
import Rxvm.Instructions
import Rxvm.Lexemes

/-!
# Rxvm.MeaningSpec — compilation preserves meaning

A run of the compiler on the text of an expression goes through the lexemes
with the machine of `Frames`: before each lexeme the stacks hold what the
machine holds. So it makes the code the machine makes, which leads over the
input where the expression matches.
-/

namespace Rxvm

open Function

/-! ## A run at a position of the expression -/

/-- The run has come to the token at position `k`, and the stacks hold what
the frames say. -/
structure At (exp : List CChar) (F : Frames) (k input : Nat) (cp : Context)
    (stk : StackId → Stk) (index : Option Nat) : Prop where
  visited : Visited Statics.init exp input cp
  token : ∃ g, g.literal = cp.inCharc ∧ (cp.tok, input, cp.statics.lex) = lex exp k g
  holds : Holds cp stk index
  wellMade : WellMade cp cp.closing stk
  framed : Framed cp cp.closing stk index F

section

variable {exp post : List CChar} {F F' : Frames} {k input : Nat} {cp cp' : Context}
  {stk : StackId → Stk} {index : Option Nat}

/-- What the lexer has returned for the token. -/
theorem At.lexes {tok : Tok} {j lp1 : Nat} {literal : Bool} (h : At exp F k input cp stk index)
    (hlex : ∀ g : LexStatics, g.literal = cp.inCharc → Lexes exp k g tok j lp1 literal) :
    cp.tok = tok ∧ input = j ∧ cp.statics.lex.lp1 = lp1 ∧ cp.statics.lex.lpn = j ∧
      cp.statics.lex.literal = literal := by
  rcases h.token with ⟨g, hg, heq⟩
  have hread := hlex g hg
  refine ⟨?_, ?_, ?_, ?_, ?_⟩
  · rw [← hread.tok, ← heq]
  · rw [← hread.input, ← heq]
  · rw [← hread.lp1, ← heq]
  · rw [← hread.lpn, ← heq]
  · rw [← hread.literal, ← heq]

/-- A turn that succeeds, and leaves what the frames `F'` say. -/
theorem At.next (h : At exp F k input cp stk index) (heos : cp.tok ≠ .eos)
    (herr : ∀ e, cp.tok ≠ .error e) (hstep : stage1Step exp cp = .ok (none, cp'))
    {inCharc : Bool} (hlit : cp.statics.lex.literal = inCharc)
    (hframed : ∀ ids' stk' index', Turn exp cp stk index cp' stk' index' →
      Layout cp' (decide (cp.tok = .rparen)) ids' stk' index' →
      Framed cp' (decide (cp.tok = .rparen)) stk' index' F' ∧ cp'.inCharc = inCharc) :
    cp'.inCharc = inCharc ∧
      ∃ stk' index', At exp F' input (lexInto exp input { cp' with lasttok := cp'.tok }).1
        (lexInto exp input { cp' with lasttok := cp'.tok }).2 stk' index' := by
  rcases h.holds.turn hstep input with ⟨stk', index', hturn, htok, hholds'⟩
  rcases hholds'.layout with ⟨ids', hlay'⟩
  have hclosing : (lexInto exp input { cp' with lasttok := cp'.tok }).2.closing =
      decide (cp.tok = .rparen) := by
    rw [lexInto_frame]
    simp [Context.closing, htok]
  rw [hclosing] at hlay'
  rcases hframed ids' stk' index' hturn (hlay'.control cp' rfl) with ⟨hframed', hcharc⟩
  refine ⟨hcharc, stk', index', h.visited.turn heos herr hstep, ⟨cp'.statics.lex, ?_, rfl⟩, hholds',
    h.wellMade.next h.holds hturn htok input, ?_⟩
  · rw [hturn.lex_eq]
    exact hlit.trans hcharc.symm
  · rw [hclosing]
    exact hframed'.control ⟨rfl, rfl, rfl, rfl, rfl⟩

/-- The run is at position `k`, outside a set. -/
def Reached (exp : List CChar) (F : Frames) (k : Nat) : Prop :=
  ∃ input cp stk index, At exp F k input cp stk index ∧ cp.inCharc = false

/-- The run is at position `k` inside a set, with the characters and the sign
of the set so far. -/
def Inside (exp : List CChar) (F : Frames) (k : Nat) (negated : Bool) (chars : List CChar) : Prop :=
  ∃ input cp stk index, At exp F k input cp stk index ∧ cp.inCharc = true ∧
    cp.strb = some chars ∧ cp.statics.isNchar = negated

/-! ## Lexemes of one token -/

/-- The token of a lexeme, where the text goes on with it. -/
theorem At.lexeme {x : Lexeme} (h : At exp F k input cp stk index) (hmain : cp.inCharc = false)
    (hset : ∀ negated item items, x ≠ .set negated item items) (hadm : x.Admissible)
    (hdrop : exp.drop k = x.text ++ post) :
    x.Token exp cp ∧ input = k + x.text.length ∧ cp.statics.lex.literal = false := by
  have hsymbol : ∀ (c : CChar) (tok : Tok), x.text = [c] → metaTok c = some tok →
      (c ≠ derefSym ∧ c ≠ charcCloseSym ∧ c ≠ repOpenSym) → c ≠ charcOpenSym →
      cp.tok = tok ∧ input = k + x.text.length ∧ cp.statics.lex.literal = false := by
    intro c tok htext hmeta hc hopen
    rw [htext] at hdrop ⊢
    rcases h.lexes fun g hg => lex_symbol hdrop (hg.trans hmain) hmeta hc with
      ⟨htok, hinput, _, _, hlit⟩
    exact ⟨htok, hinput, hlit.trans (decide_eq_false hopen)⟩
  cases x with
  | char l =>
      rcases h.lexes fun g hg => lex_char l hdrop (hg.trans hmain) with
        ⟨htok, hinput, hlp1, _, hlit⟩
      refine ⟨⟨htok, ?_⟩, hinput, hlit⟩
      rw [Context.lp1Char, hlp1]
      exact (l.read hdrop).1
  | set negated item items => exact absurd rfl (hset negated item items)
  | rep reps =>
      rcases h.lexes fun g hg => lex_rep reps hdrop (hg.trans hmain) with
        ⟨htok, hinput, hlp1, hlpn, hlit⟩
      refine ⟨⟨htok, ?_⟩, hinput, hlit⟩
      rw [hlp1, hlpn]
      exact parseRep_eq reps hadm hdrop
  | any => exact hsymbol anySym .any rfl rfl (by decide) (by decide)
  | sol => exact hsymbol solSym .sol rfl rfl (by decide) (by decide)
  | eol => exact hsymbol eolSym .eol rfl rfl (by decide) (by decide)
  | zero => exact hsymbol zeroSym .zero rfl rfl (by decide) (by decide)
  | one => exact hsymbol oneSym .one rfl rfl (by decide) (by decide)
  | onezero => exact hsymbol onezeroSym .onezero rfl rfl (by decide) (by decide)
  | alt => exact hsymbol altSym .alt rfl rfl (by decide) (by decide)
  | lparen => exact hsymbol lparenSym .lparen rfl rfl (by decide) (by decide)
  | rparen => exact hsymbol rparenSym .rparen rfl rfl (by decide) (by decide)

theorem Lexeme.Token.proper {x : Lexeme} (hx : x.Token exp cp) :
    cp.tok ≠ .eos ∧ ∀ e, cp.tok ≠ .error e := by
  cases x with
  | char | rep => simp [hx.1]
  | set => exact hx.elim
  | _ =>
      simp only [Token] at hx
      simp [hx]

/-- The run goes on behind a lexeme of one token. -/
theorem Reached.token {x : Lexeme} (h : Reached exp F k)
    (hset : ∀ negated item items, x ≠ .set negated item items) (hadm : x.Admissible)
    (hdrop : exp.drop k = x.text ++ post) (htake : F.take x = some F') :
    Reached exp F' (k + x.text.length) := by
  rcases h with ⟨input, cp, stk, index, hat, hmain⟩
  rcases hat.lexeme hmain hset hadm hdrop with ⟨hx, rfl, hlit⟩
  rcases hat.holds.layout with ⟨ids, hlay⟩
  rcases hat.framed.succeeds hlay hmain hx htake with ⟨cp', hstep⟩
  rcases hat.next hx.proper.1 hx.proper.2 hstep hlit
    (fun ids' stk' index' hturn hlay' => hat.framed.turn hlay hmain hx htake hturn hlay') with
    ⟨hmain', stk', index', hat'⟩
  exact ⟨_, _, stk', index', hat', hmain'⟩

/-! ## Sets -/

/-- The `[` of a set. -/
theorem Reached.open_set (h : Reached exp F k) (hdrop : exp.drop k = charcOpenSym :: post) :
    Inside exp F.flush (k + 1) false [] := by
  rcases h with ⟨input, cp, stk, index, hat, hmain⟩
  rcases hat.lexes fun g hg => lex_symbol hdrop (hg.trans hmain) rfl (by decide) with
    ⟨htok, rfl, _, _, hlit⟩
  rcases hat.holds.layout with ⟨ids, hlay⟩
  have hop : cp.tok.isop = false := by rw [htok]; rfl
  have hresult := stage1Step_result exp hlay fun hin => by rw [hmain] at hin; cases hin
  -- `[` is no operator and closes nothing, so the turn does not fail
  have hstep : ∃ cp', stage1Step exp cp = .ok (none, cp') := by
    generalize stage1Step exp cp = run at hresult ⊢
    cases hresult with
    | lost _ hop' => rw [hop] at hop'; cases hop'
    | diverges hcharc => rw [hmain] at hcharc; cases hcharc
    | abandoned _ hop' => rw [hop] at hop'; cases hop'
    | failed e cp' ids' stk' index' _ hwhy =>
        cases hwhy with
        | operator hop' => rw [hop] at hop'; cases hop'
        | rparen htok' => rw [htok] at htok'; cases htok'
        | charcClose _ htok' => rw [htok] at htok'; cases htok'
        | charc hcharc => rw [hmain] at hcharc; cases hcharc
    | turned cp' => exact ⟨cp', rfl⟩
  rcases hstep with ⟨cp', hstep⟩
  -- of the turns only the quiet one is made on `[`
  have hquiet : ∀ {stk' : StackId → Stk} {index' : Option Nat},
      Turn exp cp stk index cp' stk' index' → Framed cp' false stk' index' F.flush ∧
        cp'.inCharc = true ∧ cp'.strb = some [] ∧ cp'.statics.isNchar = false := by
    intro stk' index' hturn
    cases hturn with
    | quiet _ cp₁ stk₁ index₁ hflush =>
        have h₁ := hat.framed.flush hlay hflush.flushed
        refine ⟨h₁.control ⟨rfl, rfl, rfl, rfl, rfl⟩, if_pos htok, if_pos htok, ?_⟩
        have hN := hat.visited.isNchar_false hmain
        show (mainStatics cp).isNchar = false
        unfold mainStatics
        split_ifs <;> exact hN
    | operate _ hop' => rw [hop] at hop'; cases hop'
    | single _ _ _ _ _ inst hinst => simp [singleInst, htok] at hinst
    | opening _ _ _ _ _ htok' => rw [htok] at htok'; cases htok'
    | closing _ _ _ _ _ htok' => rw [htok] at htok'; cases htok'
    | charc hcharc => rw [hmain] at hcharc; cases hcharc
    | noCcs hcharc => rw [hmain] at hcharc; cases hcharc
    | ccs hcharc => rw [hmain] at hcharc; cases hcharc
  have hframed : ∀ ids' stk' index', Turn exp cp stk index cp' stk' index' →
      Layout cp' (decide (cp.tok = .rparen)) ids' stk' index' →
      Framed cp' (decide (cp.tok = .rparen)) stk' index' F.flush ∧ cp'.inCharc = true := by
    intro ids' stk' index' hturn _
    rw [decide_eq_false (by simp [htok])]
    exact ⟨(hquiet hturn).1, (hquiet hturn).2.1⟩
  rcases hat.holds.turn hstep 0 with ⟨_, _, hturn, _⟩
  rcases hquiet hturn with ⟨_, _, hstrb, hN⟩
  rcases hat.next (by simp [htok]) (by simp [htok]) hstep hlit hframed with
    ⟨hin, stk', index', hat'⟩
  exact ⟨_, _, stk', index', hat', hin, hstrb, hN⟩

/-- Inside a set the stacks stay as they are. -/
theorem Turn.inside {stk' : StackId → Stk} {index' : Option Nat}
    (h : Turn exp cp stk index cp' stk' index') (hin : cp.inCharc = true)
    (hclose : cp.tok ≠ .charcClose) : stk' = stk ∧ index' = index := by
  cases h with
  -- the turns of a class but that on `]` leave the stacks
  | charc => exact ⟨rfl, rfl⟩
  | noCcs _ htok => exact absurd htok hclose
  | ccs _ htok => exact absurd htok hclose
  -- the turns outside a class
  | operate hmain => rw [hin] at hmain; cases hmain
  | single hmain => rw [hin] at hmain; cases hmain
  | quiet hmain => rw [hin] at hmain; cases hmain
  | opening hmain => rw [hin] at hmain; cases hmain
  | closing hmain => rw [hin] at hmain; cases hmain

/-- A turn inside a set that goes on with it. -/
theorem At.inside {chars : List CChar} {negated : Bool} (h : At exp F k input cp stk index)
    (hin : cp.inCharc = true) (htok : cp.tok = .literal ∨ cp.tok = .charRange)
    (hlit : cp.statics.lex.literal = true)
    (hstep : stage1Step exp cp = .ok (none, cp'))
    (hcp' : cp' = { cp with
      strb := some chars, statics := { cp.statics with isNchar := negated } }) :
    Inside exp F input negated chars := by
  have hproper : cp.tok ≠ .rparen ∧ cp.tok ≠ .charcClose ∧ cp.tok ≠ .eos ∧
      ∀ e, cp.tok ≠ .error e := by
    rcases htok with htok | htok <;> simp [htok]
  have hclosing : decide (cp.tok = .rparen) = cp.closing := by
    rw [h.holds.charc hin]
    exact decide_eq_false hproper.1
  have hframed : ∀ ids' stk' index', Turn exp cp stk index cp' stk' index' →
      Layout cp' (decide (cp.tok = .rparen)) ids' stk' index' →
      Framed cp' (decide (cp.tok = .rparen)) stk' index' F ∧ cp'.inCharc = true := by
    intro ids' stk' index' hturn _
    rcases hturn.inside hin hproper.2.1 with ⟨hstk, hindex⟩
    rw [hclosing, hstk, hindex, hcp']
    exact ⟨h.framed.control ⟨rfl, rfl, rfl, rfl, rfl⟩, hin⟩
  rcases h.next hproper.2.2.1 hproper.2.2.2 hstep hlit hframed with ⟨hin', stk', index', hat'⟩
  subst hcp'
  exact ⟨_, _, stk', index', hat', hin', rfl, rfl⟩

/-- The `^` of a negated set. -/
theorem Inside.negate (h : Inside exp F k false []) (hdrop : exp.drop k = solSym :: post)
    {d : CChar} {t : List CChar} (hpost : post = d :: t) (hd : d ≠ rangeSepSym) :
    Inside exp F (k + 1) true [] := by
  rcases h with ⟨input, cp, stk, index, hat, hin, hstrb, hN⟩
  rcases hat.lexes fun g hg => lex_setNegated hdrop (hg.trans hin) hpost hd with
    ⟨htok, rfl, hlp1, _, hlit⟩
  have hchar : cp.lp1Char exp = solSym := by
    rw [Context.lp1Char, hlp1]
    exact at'_of_drop hdrop
  have hstep : stage1Step exp cp =
      .ok (none, { cp with statics := { cp.statics with isNchar := true } }) := by
    unfold stage1Step stage1CharcState
    rw [if_pos hin, htok]
    simp only [hchar, hN, and_self, if_true]
    rfl
  exact hat.inside hin (Or.inl htok) hlit hstep (by rw [← hstrb])

/-- An item of a set. -/
theorem Inside.item {item : SetItem} {negated : Bool} {chars : List CChar}
    (h : Inside exp F k negated chars) (hadm : item.Admissible)
    (hdrop : exp.drop k = item.text ++ post) {d : CChar} {t : List CChar} (hpost : post = d :: t)
    (hd : d ≠ rangeSepSym) :
    Inside exp F (k + item.text.length) negated (chars ++ item.chars) := by
  rcases h with ⟨input, cp, stk, index, hat, hin, hstrb, hN⟩
  cases item with
  | char l =>
      rcases hat.lexes fun g hg => lex_setChar l hdrop (hg.trans hin) hpost hd with
        ⟨htok, hinput, hlp1, _, hlit⟩
      have hchar : cp.lp1Char exp = l.c := by
        rw [Context.lp1Char, hlp1]
        exact (l.read hdrop).1
      -- a `^` at the front would have been the sign of the set
      have hsol : ¬ (cp.lp1Char exp = solSym ∧ cp.statics.isNchar = false) := by
        rw [hchar]
        exact fun h => hadm h.1
      rw [show k + (SetItem.char l).text.length = input from hinput.symm]
      have hstep : stage1Step exp cp = .ok (none, cp.addc l.c) := by
        unfold stage1Step stage1CharcState
        rw [if_pos hin, htok]
        simp only [if_neg hsol]
        rw [hchar]
        rfl
      refine hat.inside hin (Or.inl htok) hlit hstep ?_
      rw [Context.addc, hstrb, ← hN]
      rfl
  | range lo hi =>
      rcases hat.lexes fun g hg => (lex_setRange lo hi hdrop (hg.trans hin)).1 with
        ⟨htok, hinput, hlp1, _, hlit⟩
      -- the lexer has stopped at the range, whose ends may stand the wrong way round
      have hbounds : rangeBounds exp cp.statics.lex.lp1 = (min lo.c hi.c, max lo.c hi.c) := by
        rw [hlp1]
        rcases hat.token with ⟨g, hg, _⟩
        exact (lex_setRange lo hi hdrop (hg.trans hin)).2
      rcases SetItem.chars_range lo hi with ⟨range, hrange, hchars, _⟩
      rw [show k + (SetItem.range lo hi).text.length = input from hinput.symm]
      have hstep : stage1Step exp cp =
          .ok (none, { cp with strb := some (cp.strb.getD [] ++ range) }) := by
        unfold stage1Step stage1CharcState
        rw [if_pos hin]
        simp only [htok, expandCharRange, hbounds, hrange, bind, Except.bind, pure, Except.pure]
      refine hat.inside hin (Or.inr htok) hlit hstep ?_
      rw [hchars, hstrb, ← hN]
      rfl

/-- The items of a set, up to its `]`. -/
theorem Inside.items : ∀ {items : List SetItem} {k : Nat} {negated : Bool} {chars : List CChar},
    Inside exp F k negated chars → (∀ x ∈ items, x.Admissible) →
    exp.drop k = items.flatMap SetItem.text ++ charcCloseSym :: post →
    Inside exp F (k + (items.flatMap SetItem.text).length) negated
      (chars ++ items.flatMap SetItem.chars) := by
  intro items
  induction items with
  | nil =>
      intro k negated chars h _ _
      simpa using h
  | cons item items ih =>
      intro k negated chars h hadm hdrop
      rw [List.flatMap_cons, List.append_assoc] at hdrop
      -- what follows an item is the next one or the `]`, neither of which starts with `-`
      have hnext : ∃ d t, items.flatMap SetItem.text ++ charcCloseSym :: post = d :: t ∧
          d ≠ rangeSepSym := by
        cases items with
        | nil => exact ⟨charcCloseSym, post, rfl, by decide⟩
        | cons item' items' =>
            rw [List.flatMap_cons, List.append_assoc]
            exact item'.head _
      rcases hnext with ⟨d, t, hpost, hd⟩
      have hitem := h.item (hadm item List.mem_cons_self) hdrop hpost hd
      have hrest := ih hitem (fun x hx => hadm x (List.mem_cons_of_mem item hx))
        (drop_of_drop_append hdrop)
      rw [List.flatMap_cons, List.flatMap_cons, List.length_append, ← Nat.add_assoc,
        ← List.append_assoc]
      exact hrest

theorem SetItem.chars_noNul (items : List SetItem) : NoNul (items.flatMap SetItem.chars) := by
  intro c hc
  rcases SetItem.mem_flatMap_chars.mp hc with ⟨item, _, hhas⟩
  have hpos : 0 < c.toInt := by
    cases item with
    | char l =>
        obtain rfl : c = l.c := hhas
        exact (isprintable_bounds l.printable).1
    | range lo hi =>
        have hlo := (isprintable_bounds lo.printable).1
        have hhi := (isprintable_bounds hi.printable).1
        simp only [SetItem.Has, Int8.le_iff_toInt_le] at hhas
        omega
  rintro rfl
  exact absurd hpos (by decide)

/-- The `]` of a set. -/
theorem Inside.close {items : List SetItem} {negated : Bool}
    (h : Inside exp F k negated (items.flatMap SetItem.chars))
    (hne : items.flatMap SetItem.chars ≠ []) (hdrop : exp.drop k = charcCloseSym :: post) :
    Reached exp (F.atom (Lexeme.setInst negated items)) (k + 1) := by
  rcases h with ⟨input, cp, stk, index, hat, hin, hstrb, hN⟩
  rcases hat.lexes fun g _ => lex_setClose hdrop with ⟨htok, rfl, _, _, hlit⟩
  rcases stage1Step_charcClose exp hin htok with ⟨cp', hstep, _⟩
  rcases hat.holds.layout with ⟨ids, hlay⟩
  have hclosing := hat.holds.charc hin
  have hframed := hat.framed
  rw [hclosing] at hframed hlay
  have hinst : ccsInst cp = Lexeme.setInst negated items := by
    unfold ccsInst Lexeme.setInst
    rw [hstrb, hN, Option.getD_some, cstring_eq_self (SetItem.chars_noNul items)]
  have hatom : F.atom (Lexeme.setInst negated items) =
      { F with buf := F.buf ++ [Lexeme.setInst negated items] } := by
    rw [Frames.atom, Frames.flush_eq_self (hframed.plain rfl).1]
  have hnext : ∀ ids' stk' index', Turn exp cp stk index cp' stk' index' →
      Layout cp' (decide (cp.tok = .rparen)) ids' stk' index' →
      Framed cp' (decide (cp.tok = .rparen)) stk' index' (F.atom (Lexeme.setInst negated items)) ∧
        cp'.inCharc = false := by
    intro ids' stk' index' hturn _
    rw [decide_eq_false (by simp [htok]), hatom]
    -- the class has a character, so it makes its instruction
    cases hturn with
    | ccs _ _ _ m' operand =>
        rw [hinst, if_pos (hframed.plain rfl).2.1]
        exact ⟨hframed.single hlay rfl ⟨rfl, rfl, rfl, rfl, rfl⟩, rfl⟩
    | noCcs _ _ hnil =>
        rw [hstrb] at hnil
        exact absurd (Option.some.inj hnil) hne
    | charc _ htok' => rcases htok' with htok' | htok' <;> rw [htok] at htok' <;> cases htok'
    | operate hmain => rw [hin] at hmain; cases hmain
    | single hmain => rw [hin] at hmain; cases hmain
    | quiet hmain => rw [hin] at hmain; cases hmain
    | opening hmain => rw [hin] at hmain; cases hmain
    | closing hmain => rw [hin] at hmain; cases hmain
  rcases hat.next (by simp [htok]) (by simp [htok]) hstep hlit hnext with
    ⟨hmain, stk', index', hat'⟩
  exact ⟨_, _, stk', index', hat', hmain⟩

theorem SetItem.chars_ne_nil (item : SetItem) : item.chars ≠ [] := by
  have hhas : ∃ x, item.Has x := by
    cases item with
    | char l => exact ⟨l.c, rfl⟩
    | range lo hi =>
        refine ⟨lo.c, ?_⟩
        simp only [SetItem.Has, Int8.le_iff_toInt_le]
        omega
  rcases hhas with ⟨x, hx⟩
  exact List.ne_nil_of_mem ((item.mem_chars x).mpr hx)

/-- The run goes on behind a set. -/
theorem Reached.set {negated : Bool} {item : SetItem} {items : List SetItem} (h : Reached exp F k)
    (hadm : ∀ x ∈ item :: items, x.Admissible)
    (hdrop : exp.drop k = (Lexeme.set negated item items).text ++ post) :
    Reached exp (F.atom (Lexeme.setInst negated (item :: items)))
      (k + (Lexeme.set negated item items).text.length) := by
  have hne : (item :: items).flatMap SetItem.chars ≠ [] := by
    rw [List.flatMap_cons]
    exact List.append_ne_nil_of_left_ne_nil item.chars_ne_nil _
  have hflush : F.flush.atom (Lexeme.setInst negated (item :: items)) =
      F.atom (Lexeme.setInst negated (item :: items)) := by
    rw [Frames.atom, Frames.atom, Frames.flush_eq_self F.flush_closed]
  -- from the first item on
  have hbody : ∀ {j : Nat}, Inside exp F.flush j negated [] →
      exp.drop j = (item :: items).flatMap SetItem.text ++ charcCloseSym :: post →
      Reached exp (F.atom (Lexeme.setInst negated (item :: items)))
        (j + ((item :: items).flatMap SetItem.text).length + 1) := by
    intro j hinside hdrop'
    have hitems := hinside.items hadm hdrop'
    rw [List.nil_append] at hitems
    rw [← hflush]
    exact hitems.close hne (drop_of_drop_append hdrop')
  cases negated with
  | false =>
      have hopen : exp.drop k =
          charcOpenSym :: ((item :: items).flatMap SetItem.text ++ charcCloseSym :: post) := by
        rw [hdrop]
        simp [Lexeme.text]
      have hlen : k + (Lexeme.set false item items).text.length =
          k + 1 + ((item :: items).flatMap SetItem.text).length + 1 := by
        simp only [Lexeme.text, Bool.false_eq_true, if_false, List.nil_append, List.length_cons,
          List.length_append, List.length_nil]
        omega
      rw [hlen]
      -- the items, behind the bracket
      exact hbody (h.open_set hopen) (drop_succ_of_drop hopen)
  | true =>
      have hopen : exp.drop k = charcOpenSym :: solSym ::
          ((item :: items).flatMap SetItem.text ++ charcCloseSym :: post) := by
        rw [hdrop]
        simp [Lexeme.text]
      have hlen : k + (Lexeme.set true item items).text.length =
          k + 1 + 1 + ((item :: items).flatMap SetItem.text).length + 1 := by
        simp only [Lexeme.text, if_true, List.cons_append, List.nil_append, List.length_cons,
          List.length_append, List.length_nil]
        omega
      -- the items, behind the bracket and the `^`
      have hsol := drop_succ_of_drop hopen
      rcases item.head (items.flatMap SetItem.text ++ charcCloseSym :: post) with ⟨d, t, hpost, hd⟩
      rw [← List.append_assoc, ← List.flatMap_cons] at hpost
      rw [hlen]
      exact hbody ((h.open_set hopen).negate hsol hpost hd) (drop_succ_of_drop hsol)

/-! ## Whole expressions -/

/-- The run goes on behind every lexeme the machine takes. -/
theorem Reached.take {x : Lexeme} (h : Reached exp F k) (hadm : x.Admissible)
    (hdrop : exp.drop k = x.text ++ post) (htake : F.take x = some F') :
    Reached exp F' (k + x.text.length) := by
  by_cases hset : ∃ negated item items, x = .set negated item items
  · rcases hset with ⟨negated, item, items, rfl⟩
    have hatom : F.atom (Lexeme.setInst negated (item :: items)) = F' := by
      refine Option.some.inj (Eq.trans ?_ htake)
      cases negated <;> rfl
    rw [← hatom]
    exact h.set hadm hdrop
  · refine h.token ?_ hadm hdrop htake
    rintro negated item items rfl
    exact hset ⟨negated, item, items, rfl⟩

theorem Reached.takeAll : ∀ {l : List Lexeme} {F : Frames} {k : Nat}, Reached exp F k →
    (∀ x ∈ l, x.Admissible) → exp.drop k = l.flatMap Lexeme.text ++ post →
    F.takeAll l = some F' → Reached exp F' (k + (l.flatMap Lexeme.text).length) := by
  intro l
  induction l with
  | nil =>
      intro F k h _ _ htake
      obtain rfl := Option.some.inj htake
      exact h
  | cons x l ih =>
      intro F k h hadm hdrop htake
      rw [Frames.takeAll_cons] at htake
      rcases Option.bind_eq_some_iff.mp htake with ⟨F₁, hx, hrest⟩
      rw [List.flatMap_cons, List.append_assoc] at hdrop
      have h₁ := h.take (hadm x List.mem_cons_self) hdrop hx
      rw [List.flatMap_cons, List.length_append, ← Nat.add_assoc]
      exact ih h₁ (fun y hy => hadm y (List.mem_cons_of_mem x hy)) (drop_of_drop_append hdrop) hrest

end

/-! ## The literals at the start -/

section

variable {exp post : List CChar} {k : Nat} {g : LexStatics}

theorem literals_of_drop : ∀ {ls : List (Literal false)} {k : Nat},
    exp.drop k = ls.flatMap Literal.text ++ post →
    Literals exp (k + (ls.flatMap Literal.text).length) k (ls.map Literal.c) := by
  intro ls
  induction ls with
  | nil => exact fun _ => .done
  | cons l ls ih =>
      intro k hdrop
      rw [List.flatMap_cons, List.append_assoc] at hdrop
      have hrest := ih (drop_of_drop_append hdrop)
      have hne := isprintable_ne_zero l.printable
      rw [List.flatMap_cons, List.length_append, ← Nat.add_assoc, List.map_cons]
      cases hesc : l.esc with
      | true =>
          have htext : l.text = [derefSym, l.c] := by simp [Literal.text, hesc]
          rw [htext] at hdrop hrest ⊢
          have hc : at' exp (k + 1) = l.c := at'_of_drop (drop_succ_of_drop hdrop)
          have hstep := Literals.escaped (at'_of_drop hdrop) (by rw [hc]; exact hne) hrest
          rwa [hc] at hstep
      | false =>
          have htext : l.text = [l.c] := by simp [Literal.text, hesc]
          rw [htext] at hdrop hrest ⊢
          have hc : at' exp k = l.c := at'_of_drop hdrop
          have hplain := (l.plain hesc).2.imp_right And.right
          have hderef : l.c ≠ derefSym := plain_ne hplain (by decide) (by decide)
          have hstep := Literals.plain (by rw [hc]; exact hne) (by rw [hc]; exact hderef) hrest
          rwa [hc] at hstep

/-- The first loop of `stage1` reads the characters up to another lexeme. -/
theorem literalLoop_chars : ∀ {ls : List (Literal false)} {k fuel : Nat} {simple : Option Nat}
    {cp : Context}, exp.drop k = ls.flatMap Literal.text ++ post → ls.length < fuel →
    cp.statics.lex.literal = false →
    (∀ g : LexStatics, g.literal = false →
      (lex exp (k + (ls.flatMap Literal.text).length) g).1 ≠ .literal) →
    ∃ input cp', literalLoop exp fuel k simple cp = .ok (input,
        if ls = [] then simple else some (k + (ls.flatMap Literal.text).length), cp') ∧
      ∃ g, g.literal = false ∧ (cp'.tok, input, cp'.statics.lex) =
        lex exp (k + (ls.flatMap Literal.text).length) g := by
  intro ls
  -- by induction on the literals; what follows them is none
  induction ls with
  | nil =>
      intro k fuel simple cp _ hfuel hlit hother
      obtain ⟨fuel, rfl⟩ : ∃ f, fuel = f + 1 := ⟨fuel - 1, by simp at hfuel; omega⟩
      have htok : (lexInto exp k cp).2.tok ≠ .literal := hother cp.statics.lex hlit
      exact ⟨_, _, literalLoop_other htok, cp.statics.lex, hlit, rfl⟩
  | cons l ls ih =>
      intro k fuel simple cp hdrop hfuel hlit hother
      obtain ⟨fuel, rfl⟩ : ∃ f, fuel = f + 1 := ⟨fuel - 1, by simp at hfuel; omega⟩
      rw [List.flatMap_cons, List.append_assoc] at hdrop
      rw [List.flatMap_cons, List.length_append, ← Nat.add_assoc] at hother ⊢
      have hread := lex_char l hdrop hlit
      have htok : (lexInto exp k cp).2.tok = .literal := hread.tok
      have hinput : (lexInto exp k cp).1 = k + l.text.length := hread.input
      have hlit' : (lexInto exp k cp).2.statics.lex.literal = false := hread.literal
      rcases @ih _ _ (some (lexInto exp k cp).1) _ (drop_of_drop_append hdrop)
        (by simpa using hfuel) hlit' hother with ⟨input, cp', hrun, hlex⟩
      refine ⟨input, cp', ?_, hlex⟩
      rw [literalLoop_literal htok, hinput]
      rw [hinput] at hrun
      rw [hrun, if_neg (List.cons_ne_nil l ls)]
      by_cases hnil : ls = []
      · rw [if_pos hnil, hnil]
        rfl
      · rw [if_neg hnil]

/-- The token of a lexeme that is no character. -/
theorem lex_other {x : Lexeme} (hx : x.isChar = false) (hdrop : exp.drop k = x.text ++ post)
    (hg : g.literal = false) : (lex exp k g).1 ≠ .literal ∧ (lex exp k g).1 ≠ .eos := by
  have hsymbol : ∀ (c : CChar) (t : List CChar) (tok : Tok), x.text ++ post = c :: t →
      metaTok c = some tok → (c ≠ derefSym ∧ c ≠ charcCloseSym ∧ c ≠ repOpenSym) →
      tok ≠ .literal ∧ tok ≠ .eos → (lex exp k g).1 ≠ .literal ∧ (lex exp k g).1 ≠ .eos := by
    intro c t tok htext hmeta hc htok
    rw [(lex_symbol (hdrop.trans htext) hg hmeta hc).tok]
    exact htok
  cases x with
  | char => cases hx
  | rep reps =>
      rw [(lex_rep reps hdrop hg).tok]
      simp
  | set => exact hsymbol charcOpenSym _ .charcOpen rfl rfl (by decide) (by simp)
  | any => exact hsymbol anySym _ .any rfl rfl (by decide) (by simp)
  | sol => exact hsymbol solSym _ .sol rfl rfl (by decide) (by simp)
  | eol => exact hsymbol eolSym _ .eol rfl rfl (by decide) (by simp)
  | zero => exact hsymbol zeroSym _ .zero rfl rfl (by decide) (by simp)
  | one => exact hsymbol oneSym _ .one rfl rfl (by decide) (by simp)
  | onezero => exact hsymbol onezeroSym _ .onezero rfl rfl (by decide) (by simp)
  | alt => exact hsymbol altSym _ .alt rfl rfl (by decide) (by simp)
  | lparen => exact hsymbol lparenSym _ .lparen rfl rfl (by decide) (by simp)
  | rparen => exact hsymbol rparenSym _ .rparen rfl rfl (by decide) (by simp)

/-- The machine behind the characters at the start. -/
def Frames.backlog (ls : List (Literal false)) : Frames :=
  { Frames.start with buf := (ls.map Literal.c).map .opChar }

theorem Frames.takeAll_chars (ls : List (Literal false)) :
    Frames.start.takeAll (ls.map Lexeme.char) = some (Frames.backlog ls) := by
  have hall : ∀ (ls : List (Literal false)) (F : Frames), F.closed = none →
      F.takeAll (ls.map Lexeme.char) =
        some { F with buf := F.buf ++ (ls.map Literal.c).map .opChar } := by
    intro ls
    induction ls with
    | nil =>
        intro F _
        simp
    | cons l ls ih =>
        intro F hclosed
        have hstep : F.take (.char l) = some { F with buf := F.buf ++ [.opChar l.c] } := by
          rw [Frames.take, Frames.atom, Frames.flush_eq_self hclosed]
        rw [List.map_cons, Frames.takeAll_cons, hstep, Option.bind_some]
        refine (ih { F with buf := F.buf ++ [.opChar l.c] } hclosed).trans ?_
        simp
  exact hall ls Frames.start rfl

theorem startStk_literals {ls : List (Literal false)} {base : StackId}
    (hdrop : exp.drop 0 = ls.flatMap Literal.text ++ post) :
    startStk exp (if ls = [] then none else some (0 + (ls.flatMap Literal.text).length)) base =
        backlogStk base (Frames.backlog ls).buf ∧
      startIndex exp (if ls = [] then none else some (0 + (ls.flatMap Literal.text).length)) =
        if (Frames.backlog ls).buf = [] then none
        else some ((Frames.backlog ls).buf.length - 1) := by
  by_cases hnil : ls = []
  · subst hnil
    refine ⟨?_, rfl⟩
    rw [if_pos rfl, backlogStk]
    exact (update_idem _ _ _).symm
  · have hcode : backlogCode exp (0 + (ls.flatMap Literal.text).length)
        (0 + (ls.flatMap Literal.text).length + 1) 0 = (Frames.backlog ls).buf :=
      (literals_of_drop hdrop).backlogCode_eq (by omega)
    rw [if_neg hnil, startStk, startIndex, hcode]
    exact ⟨rfl, rfl⟩

/-- The run is behind the characters at the start, at a token of another
kind. -/
theorem reached_backlog {ls : List (Literal false)} (hexp : exp = ls.flatMap Literal.text ++ post)
    (hother : ∀ g : LexStatics, g.literal = false →
      (lex exp (0 + (ls.flatMap Literal.text).length) g).1 ≠ .literal ∧
        (lex exp (0 + (ls.flatMap Literal.text).length) g).1 ≠ .eos) :
    Reached exp (Frames.backlog ls) (0 + (ls.flatMap Literal.text).length) := by
  have hdrop : exp.drop 0 = ls.flatMap Literal.text ++ post := hexp
  have hfuel : ls.length < exp.length + 1 := by
    have hle : ls.length ≤ (ls.flatMap Literal.text).length := by
      have hsum := List.length_le_sum_of_one_le (ls.map fun l => l.text.length) ?_
      · rw [List.length_map] at hsum
        rwa [List.length_flatMap]
      · intro n hn
        rcases List.mem_map.mp hn with ⟨l, _, rfl⟩
        exact l.text_pos
    rw [hexp, List.length_append]
    omega
  rcases literalLoop_chars hdrop hfuel (show (stage1Init Statics.init).statics.lex.literal = false
    from rfl) (fun g hg => (hother g hg).1) with ⟨input, cp, hloop, g, hg, hlex⟩
  have heos : cp.tok ≠ .eos := by
    rw [show cp.tok = _ from congrArg (·.1) hlex]
    exact (hother g hg).2
  rcases literalLoop_frame hloop with ⟨_, tok, lexs, hcp⟩
  rcases loopStart_layout hloop with ⟨_, _, m', operand, l, hstart⟩
  rcases @startStk_literals exp post ls cp.base hdrop with ⟨hstk, hindex⟩
  refine ⟨input, _, _, _, ⟨.start hloop heos, ⟨g, ?_, ?_⟩, Holds.start hloop,
    WellMade.start _ _ _, ?_⟩, ?_⟩
  · rw [hstart, hcp, hg]
    rfl
  · rw [hstart]
    exact hlex
  · rw [hstk, hindex, hstart, hcp]
    refine ⟨rfl, fun h => absurd h Bool.false_ne_true, fun _ => ⟨rfl, rfl, ?_, rfl, ?_⟩⟩
    · simp [backlogStk]
    · intro hne
      exact if_neg hne
  · rw [hstart, hcp]
    rfl

/-- The run is at the first lexeme that is no character. -/
theorem reached_start {ls : List (Literal false)} {x : Lexeme} (hx : x.isChar = false)
    (hexp : exp = ls.flatMap Literal.text ++ (x.text ++ post)) :
    Reached exp (Frames.backlog ls) (0 + (ls.flatMap Literal.text).length) := by
  have hdrop : exp.drop 0 = ls.flatMap Literal.text ++ (x.text ++ post) := hexp
  exact reached_backlog hexp fun g hg => lex_other hx (drop_of_drop_append hdrop) hg

end

/-! ## The program -/

/-- The characters at the start of an expression, and its first lexeme of
another kind. -/
theorem exists_chars_split : ∀ {l : List Lexeme}, (¬ ∀ x ∈ l, x.isChar = true) →
    ∃ (ls : List (Literal false)) (x : Lexeme) (rest : List Lexeme),
      l = ls.map .char ++ x :: rest ∧ x.isChar = false := by
  intro l
  induction l with
  | nil => exact fun h => absurd (by simp) h
  | cons x l ih =>
      intro h
      cases hx : x.isChar with
      | false => exact ⟨[], x, l, rfl, hx⟩
      | true =>
          rcases ih fun hl => h (by simpa [hx] using hl) with ⟨ls, y, rest, rfl, hy⟩
          cases x with
          | char c => exact ⟨c :: ls, y, rest, rfl, hy⟩
          | _ => cases hx

section

variable {exp : List CChar} {F : Frames} {k : Nat}

/-- At the end all that is on the stacks is the code of the level. -/
theorem Framed.ends {cp : Context} {ids : StackId → List ItemId} {stk : StackId → Stk}
    {index : Option Nat} (h : Framed cp cp.closing stk index F)
    (hlay : Layout cp cp.closing ids stk index) (hbelow : F.below = []) :
    endGroups cp stk = [] ∧ endStk cp stk = F.level.attach := by
  have hlevels := h.levels
  rw [Context.levels, hbelow, List.map_append] at hlevels
  cases hc : cp.closing with
  | true =>
      rw [hc] at h hlay hlevels
      rcases h.group rfl with ⟨hclosed, hne, hbuf⟩
      -- a closed group is still waiting in its buffer
      have hflush : endFlush cp stk := ⟨hc, hne⟩
      have hlevels' : cp.groups.tail.map stk ++ [stk cp.prog] = [] ++ [F.top] := hlevels
      rcases List.append_inj' hlevels' rfl with ⟨hgroups, htop⟩
      refine ⟨?_, ?_⟩
      · rw [endGroups, if_pos hflush]
        exact List.map_eq_nil_iff.mp hgroups
      · rw [endStk, if_pos hflush, (hlay.justClosed rfl).2.1, Stk.append_nil, Frames.level,
          Frames.pending, hclosed, hbuf, Option.getD_some, List.append_nil]
        rw [(List.cons.inj htop).1]
  | false =>
      rw [hc] at h hlevels
      rcases h.plain rfl with ⟨hclosed, _, hbase, _⟩
      have hflush : ¬ endFlush cp stk := by
        rintro ⟨hcl, _⟩
        rw [hc] at hcl
        cases hcl
      have hlevels' : cp.groups.map stk ++ [stk cp.prog] = [] ++ [F.top] := hlevels
      rcases List.append_inj' hlevels' rfl with ⟨hgroups, htop⟩
      refine ⟨?_, ?_⟩
      · rw [endGroups, if_neg hflush]
        exact List.map_eq_nil_iff.mp hgroups
      · rw [endStk, if_neg hflush, hbase, Frames.level, Frames.pending, hclosed, Option.getD_none,
          List.nil_append]
        rw [(List.cons.inj htop).1]

/-- The program the compiler makes of the frames at the end of the
expression. -/
theorem Reached.program (h : Reached exp F k) (hend : exp.drop k = []) (hbelow : F.below = []) :
    ∃ chained compiled g', rxvmCompile Statics.init exp = .ok (.ok compiled, g') ∧
      compiled.simple = none ∧ Closed F.level.attach.code ∧
      linked chained F.level.attach.code = .ok compiled.exe := by
  rcases h with ⟨input, cp, stk, index, hat, hmain⟩
  rcases hat.holds.layout with ⟨ids, hlay⟩
  have heos : cp.tok = .eos := by
    rcases hat.token with ⟨g, _, hlex⟩
    rw [show cp.tok = _ from congrArg (·.1) hlex]
    unfold lex
    simp only [at'_of_drop_nil hend, if_true]
  have hstage1 := hat.visited.stage1_eq heos
  rcases hat.framed.ends hlay hbelow with ⟨hgroups, hstk⟩
  -- no class and no group is open, so there is a program
  have hir : ∃ lfix0 lfixn cp', stage1End cp = .ok (.ir lfix0 lfixn cp') := by
    have hfinish := hat.holds.finish
    generalize stage1End cp = result at hfinish ⊢
    cases hfinish with
    | eclass _ hcharc => rw [hmain] at hcharc; cases hcharc
    | eparen _ _ hne => exact absurd hgroups hne
    | ir => exact ⟨_, _, _, rfl⟩
  rcases hir with ⟨lfix0, lfixn, cp', hir⟩
  rcases stage2_program hat.holds hat.wellMade hir with ⟨_, _, exe, hexe, _⟩
  have hstage2 := (stage2_ir hat.holds hir).2.2
  rw [hexe, hstk] at hstage2
  refine ⟨cp.chained, ⟨exe, none, lfixOf exp lfix0 lfixn, lfix0, lfixn⟩, cp'.statics, ?_, rfl, ?_,
    hstage2.symm⟩
  · unfold rxvmCompile
    simp only [hstage1, hir, hexe, bind, Except.bind, pure, Except.pure]
  · rw [← hstk]
    exact hat.wellMade.endStk hlay

/-- It does what the code of the frames does. -/
theorem Reached.compiled (h : Reached exp F k) (hend : exp.drop k = []) (hbelow : F.below = []) :
    ∃ compiled g', rxvmCompile Statics.init exp = .ok (.ok compiled, g') ∧
      compiled.simple = none ∧ ∀ icase ml s i j, Accepts icase ml s compiled.exe i j ↔
        Flow icase ml s F.level.attach.code i j := by
  rcases h.program hend hbelow with ⟨chained, compiled, g', hrun, hsimple, hclosed, hexe⟩
  refine ⟨compiled, g', hrun, hsimple, ?_⟩
  intro icase ml s i j
  rcases linked_spec hclosed chained with ⟨exe, hlinked, _, _, haccepts⟩
  obtain rfl : exe = compiled.exe := Except.ok.inj (hlinked.symm.trans hexe)
  rw [haccepts, accepts_iff_flow hclosed]

end

/-- The compiler takes the lexemes the machine takes. -/
theorem reached_lexemes {l : List Lexeme} {F : Frames} (hadm : ∀ x ∈ l, x.Admissible)
    (hlit : ¬ ∀ x ∈ l, x.isChar = true) (htake : Frames.start.takeAll l = some F) :
    ∃ k, Reached (l.flatMap Lexeme.text) F k ∧ (l.flatMap Lexeme.text).drop k = [] := by
  rcases exists_chars_split hlit with ⟨ls, x, rest, hsplit, hx⟩
  have hchars : (ls.map Lexeme.char).flatMap Lexeme.text = ls.flatMap Literal.text := by
    rw [List.flatMap_map]
    rfl
  have htext : l.flatMap Lexeme.text =
      ls.flatMap Literal.text ++ (x :: rest).flatMap Lexeme.text := by
    rw [hsplit, List.flatMap_append, hchars]
  -- the machine is at the first lexeme that is no character, and takes the others
  rw [hsplit, Frames.takeAll_append, Frames.takeAll_chars, Option.bind_some] at htake
  have hstart : Reached (l.flatMap Lexeme.text) (Frames.backlog ls)
      (0 + (ls.flatMap Literal.text).length) := reached_start hx htext
  have hdrop : (l.flatMap Lexeme.text).drop (0 + (ls.flatMap Literal.text).length) =
      (x :: rest).flatMap Lexeme.text ++ [] := by
    rw [List.append_nil]
    exact drop_of_drop_append htext
  have hadm' : ∀ y ∈ x :: rest, y.Admissible := by
    intro y hy
    exact hadm y (by rw [hsplit]; exact List.mem_append_right _ hy)
  exact ⟨_, hstart.takeAll hadm' hdrop htake, drop_of_drop_append hdrop⟩

/-- An expression is accepted, and its program does what a code does that means
the expression. -/
theorem Expr.compiled (e : Expr .re) (hadm : e.Admissible) (hlit : ¬ e.LiteralOnly) :
    ∃ compiled g' code, rxvmCompile Statics.init e.text = .ok (.ok compiled, g') ∧
      compiled.simple = none ∧ (∀ icase ml s i j, Accepts icase ml s compiled.exe i j ↔
        Flow icase ml s code i j) ∧
      ∀ ml s i j, Flow false ml s code i j ↔ e.Matches ml s i j := by
  rcases e.takeAll hadm Frames.start Frames.start_tidy fun _ => rfl with
    ⟨F, code, htake, ⟨_, hbelow, hcode⟩, hM⟩
  rcases reached_lexemes hadm hlit htake with ⟨k, hreached, hend⟩
  rcases hreached.compiled hend hbelow with ⟨compiled, g', hrun, hsimple, haccepts⟩
  rw [hcode] at haccepts
  exact ⟨compiled, g', code, hrun, hsimple, haccepts, hM.flow⟩

/-- Compilation preserves the meaning of every expression of the grammar that
is admissible and not literal-only. -/
theorem rxvmCompile_preserves (e : Expr .re) (hadm : e.Admissible) (hlit : ¬ e.LiteralOnly) :
    ∃ compiled g', rxvmCompile Statics.init e.text = .ok (.ok compiled, g') ∧
      compiled.simple = none ∧ ∀ ml s i j, Accepts false ml s compiled.exe i j ↔
        e.Matches ml s i j := by
  rcases e.compiled hadm hlit with ⟨compiled, g', code, hrun, hsimple, haccepts, hflow⟩
  refine ⟨compiled, g', hrun, hsimple, ?_⟩
  intro ml s i j
  rw [haccepts, hflow]

/-- The expression `(a|b)[^c]{2,0}`. -/
theorem rxvmCompile_preserves_group : ∃ e : Expr .re,
    e.text = [40, 97, 124, 98, 41, 91, 94, 99, 93, 123, 50, 44, 48, 125] ∧
      ∃ compiled g', rxvmCompile Statics.init e.text = .ok (.ok compiled, g') ∧
        compiled.simple = none ∧ ∀ ml s i j, Accepts false ml s compiled.exe i j ↔
          e.Matches ml s i j := by
  have hchar : ∀ c : CChar, isprintable c = true → c ∉ metaSyms → ∀ inSet,
      ∃ l : Literal inSet, l.c = c ∧ l.esc = false := by
    intro c hp hc inSet
    exact ⟨⟨c, false, by simp, fun _ => ⟨hp, Or.inl hc⟩⟩, rfl, rfl⟩
  rcases hchar 97 (by decide) (by decide) false with ⟨a, ha, hae⟩
  rcases hchar 98 (by decide) (by decide) false with ⟨b, hb, hbe⟩
  rcases hchar 99 (by decide) (by decide) true with ⟨c, hc, hce⟩
  refine ⟨.ofSimple (.concat (.ofBasic (.ofElem (.group
    (.union (.ofSimple (.ofBasic (.ofElem (.char a)))) (.ofBasic (.ofElem (.char b)))))))
    (.rep (.set true (.char c) []) (.repRange ⟨[50], by simp, by decide +kernel⟩
      ⟨[48], by simp, by decide +kernel⟩))),
    ?_, rxvmCompile_preserves _ ?_ ?_⟩
  · simp [Expr.text, Expr.lexemes, Lexeme.text, Literal.text, SetItem.text, Reps.text, ha, hae, hb,
      hbe, hc, hce]
    decide
  · simp [Expr.Admissible, Expr.lexemes, Lexeme.Admissible, SetItem.Admissible, Reps.Admissible, hc]
    decide
  · simp [Expr.LiteralOnly, Expr.lexemes, Lexeme.isChar]

end Rxvm
