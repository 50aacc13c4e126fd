import Rxvm.Progress
import Rxvm.ParenSpec

/-!
# Rxvm.ClassSpec — character classes

The items of a class are read from its text, and compared with the instruction
that `code_ccs` makes of the class string. The string holds the characters of
all items but one: the first `^` that is an item of its own, wherever it stands
and whether or not it is escaped, makes the class a negated one.
-/

namespace Rxvm

/-! ## The items of a class -/

/-- An item of a class: a character, or a range with its two ends. -/
inductive ClassItem where
  | single (c : CChar)
  | range (a b : CChar)
deriving DecidableEq, Repr

/-- The characters up to the first `]` that is not escaped, each with the flag
that it stands behind a backslash. -/
def classChars : List CChar → List (Bool × CChar)
  | [] => []
  | c :: rest =>
    if c = derefSym then
      match rest with
      | [] => []
      | d :: rest => (true, d) :: classChars rest
    else if c = charcCloseSym then []
    else (false, c) :: classChars rest

/-- Two characters with a `-` between them that is not escaped are a range. -/
def itemsOf : List (Bool × CChar) → List ClassItem
  | a :: sep :: b :: rest =>
    if sep = (false, rangeSepSym) then .range a.2 b.2 :: itemsOf rest
    else .single a.2 :: itemsOf (sep :: b :: rest)
  | [a, b] => [.single a.2, .single b.2]
  | [a] => [.single a.2]
  | [] => []

/-- The items from position `k` of the expression on. -/
def classItems (exp : List CChar) (k : Nat) : List ClassItem :=
  itemsOf (classChars (cstring (exp.drop k)))

/-- The characters of an item; the ends of a range stand in either order. -/
def ClassItem.Has : ClassItem → CChar → Prop
  | .single d, c => c = d
  | .range a b, c => (a ≤ c ∧ c ≤ b) ∨ (b ≤ c ∧ c ≤ a)

/-- The characters the item is written with are in the supported set. -/
def ClassItem.Supported : ClassItem → Prop
  | .single d => isprintable d = true
  | .range a b => isprintable a = true ∧ isprintable b = true

instance (item : ClassItem) : Decidable item.Supported :=
  match item with
  | .single _ => inferInstanceAs (Decidable (_ = true))
  | .range _ _ => inferInstanceAs (Decidable (_ ∧ _))

section

variable {exp : List CChar} {k : Nat}

theorem classChars_deref (d : CChar) (rest : List CChar) :
    classChars (derefSym :: d :: rest) = (true, d) :: classChars rest := by
  rw [classChars.eq_def]
  exact if_pos rfl

theorem classChars_plain {c : CChar} (rest : List CChar) (hderef : c ≠ derefSym)
    (hclose : c ≠ charcCloseSym) : classChars (c :: rest) = (false, c) :: classChars rest := by
  rw [classChars.eq_def]
  simp [hderef, hclose]

/-- The characters of the class from position `k` on. -/
theorem classChars_escaped_at (hderef : at' exp k = derefSym) (hnull : at' exp (k + 1) ≠ 0) :
    classChars (cstring (exp.drop k)) =
      (true, at' exp (k + 1)) :: classChars (cstring (exp.drop (k + 2))) := by
  rw [cstring_drop_of_ne (by rw [hderef]; decide), hderef, cstring_drop_of_ne hnull,
    classChars_deref]

theorem classChars_plain_at (h0 : at' exp k ≠ 0) (hderef : at' exp k ≠ derefSym)
    (hclose : at' exp k ≠ charcCloseSym) :
    classChars (cstring (exp.drop k)) =
      (false, at' exp k) :: classChars (cstring (exp.drop (k + 1))) := by
  rw [cstring_drop_of_ne h0, classChars_plain _ hderef hclose]

theorem classChars_close_at (hclose : at' exp k = charcCloseSym) :
    classChars (cstring (exp.drop k)) = [] := by
  rw [cstring_drop_of_ne (by rw [hclose]; decide), hclose, classChars.eq_def]
  exact (if_neg (by decide)).trans (if_pos rfl)

/-- A `-` that is not escaped is there if the text has it. -/
theorem classChars_sep {rest : List (Bool × CChar)}
    (h : classChars (cstring (exp.drop k)) = (false, rangeSepSym) :: rest) :
    at' exp k = rangeSepSym := by
  by_cases h0 : at' exp k = 0
  · rw [cstring_drop_of_eq h0] at h
    cases h
  by_cases hderef : at' exp k = derefSym
  · by_cases hnull : at' exp (k + 1) = 0
    · rw [cstring_drop_of_ne h0, hderef, cstring_drop_of_eq hnull] at h
      cases h
    · rw [classChars_escaped_at hderef hnull] at h
      cases h
  by_cases hclose : at' exp k = charcCloseSym
  · rw [classChars_close_at hclose] at h
    cases h
  · rw [classChars_plain_at h0 hderef hclose] at h
    simp only [List.cons.injEq, Prod.mk.injEq, true_and] at h
    exact h.1

theorem itemsOf_range (e f : Bool) (a b : CChar) (rest : List (Bool × CChar)) :
    itemsOf ((e, a) :: (false, rangeSepSym) :: (f, b) :: rest) = .range a b :: itemsOf rest := by
  rw [itemsOf]
  exact if_pos rfl

theorem itemsOf_single (e : Bool) (a : CChar) (rest : List (Bool × CChar))
    (h : ∀ rest', rest ≠ (false, rangeSepSym) :: rest') :
    itemsOf ((e, a) :: rest) = .single a :: itemsOf rest := by
  rcases rest with _ | ⟨b, _ | ⟨d, rest⟩⟩
  · rfl
  · rfl
  · rw [itemsOf]
    refine if_neg ?_
    rintro rfl
    exact h _ rfl

/-! ## The tokens of a class -/

/-- What the lexer returns inside a class: the `]`, an item, or a token that
ends the compilation. -/
inductive ClassToken (exp : List CChar) (k : Nat) : Tok × Nat × LexStatics → Prop
  | close (j : Nat) (l : LexStatics) (hitems : classItems exp k = []) :
      ClassToken exp k (.charcClose, j, l)
  | single (j : Nat) (l : LexStatics) (hlit : l.literal = true)
      (hitems : classItems exp k = .single (at' exp l.lp1) :: classItems exp j) :
      ClassToken exp k (.literal, j, l)
  | range (j : Nat) (l : LexStatics) (hlit : l.literal = true) (a b : CChar)
      (hitems : classItems exp k = .range a b :: classItems exp j)
      (hbounds : rangeBounds exp l.lp1 = if a > b then (b, a) else (a, b)) :
      ClassToken exp k (.charRange, j, l)
  | stop (tok : Tok) (j : Nat) (l : LexStatics)
      (htok : tok = .eos ∨ tok = .invalidsym ∨ ∃ e, tok = .error e) : ClassToken exp k (tok, j, l)

variable {l : LexStatics}

/-- Behind `a-` the second end of the range is read. -/
theorem lexRange_inside {j : Nat} {e : Bool} (hlit : l.literal = true)
    (hchars : classChars (cstring (exp.drop k)) =
      (e, at' exp j) :: classChars (cstring (exp.drop (j + 1))))
    (hsep : at' exp (j + 1) = rangeSepSym) (hlp1 : l.lp1 = j) :
    ClassToken exp k (lexRange exp (j + 2) l) := by
  have hsep' : classChars (cstring (exp.drop (j + 1))) =
      (false, rangeSepSym) :: classChars (cstring (exp.drop (j + 2))) := by
    rw [classChars_plain_at (by rw [hsep]; decide) (by rw [hsep]; decide) (by rw [hsep]; decide),
      hsep]
  have hbounds : ∀ b, (if at' exp (j + 2) = derefSym then at' exp (j + 3) else at' exp (j + 2)) = b →
      rangeBounds exp l.lp1 = if at' exp j > b then (b, at' exp j) else (at' exp j, b) := by
    rintro b rfl
    rw [hlp1]
    rfl
  -- the second end: cut off, escaped, plain, or a character that may not stand there
  unfold lexRange
  split_ifs with h0 hderef hnull hp hplain
  · exact .stop _ _ _ (Or.inr (Or.inl rfl))
  · exact .stop _ _ _ (Or.inr (Or.inr ⟨_, rfl⟩))
  · refine .range _ _ hlit (at' exp j) (at' exp (j + 3)) ?_ (hbounds _ (if_pos hderef))
    rw [classItems, hchars, hsep', classChars_escaped_at hderef hnull, itemsOf_range]
    rfl
  · exact .stop _ _ _ (Or.inr (Or.inr ⟨_, rfl⟩))
  · refine .range _ _ hlit (at' exp j) (at' exp (j + 2)) ?_ (hbounds _ (if_neg hderef))
    have hclose : at' exp (j + 2) ≠ charcCloseSym := by
      intro h
      simp [isreserved, h] at hplain
    rw [classItems, hchars, hsep', classChars_plain_at h0 hderef hclose, itemsOf_range]
    rfl
  · exact .stop _ _ _ (Or.inr (Or.inr ⟨_, rfl⟩))

/-- The character at `j` is an item, or the first end of a range. -/
theorem lexLiteral_inside {j : Nat} {e : Bool} (hlit : l.literal = true)
    (hchars : classChars (cstring (exp.drop k)) =
      (e, at' exp j) :: classChars (cstring (exp.drop (j + 1)))) (hlp1 : l.lp1 = j) :
    ClassToken exp k (lexLiteral exp j l) := by
  have hkeep : ∀ g : LexStatics, g = (if at' exp j = newline then { l with newlineSeen := true }
      else l) → g.literal = true ∧ g.lp1 = j := by
    rintro g rfl
    split_ifs
    · exact ⟨hlit, hlp1⟩
    · exact ⟨hlit, hlp1⟩
  unfold lexLiteral
  generalize hg : (if at' exp j = newline then { l with newlineSeen := true } else l) = g
  rcases hkeep g hg.symm with ⟨hlit', hlp1'⟩
  simp only
  split_ifs with herr hrange
  · exact .stop _ _ _ (Or.inr (Or.inr ⟨_, rfl⟩))
  · exact lexRange_inside hlit' hchars hrange.1 hlp1'
  · refine .single _ _ hlit' ?_
    show _ = ClassItem.single (at' exp g.lp1) :: _
    rw [hlp1', classItems, hchars, itemsOf_single]
    · rfl
    · intro rest hrest
      exact hrange ⟨classChars_sep hrest, hlit'⟩

/-- Inside a class the lexer reads the items of its text. -/
theorem lex_inside (hlit : l.literal = true) : ClassToken exp k (lex exp k l) := by
  have hcase := lex_cases exp k l
  generalize lex exp k l = r at hcase ⊢
  cases hcase with
  | eos => exact .stop _ _ _ (Or.inl rfl)
  | trail => exact .stop _ _ _ (Or.inr (Or.inr ⟨_, rfl⟩))
  | escaped hderef hnull =>
      exact lexLiteral_inside hlit (classChars_escaped_at hderef hnull) rfl
  | close hclose =>
      refine .close _ _ ?_
      rw [classItems, classChars_close_at hclose]
      rfl
  | inside _ h0 hderef hclose =>
      exact lexLiteral_inside hlit (classChars_plain_at h0 hderef hclose) rfl
  | rep hlit' => rw [hlit] at hlit'; cases hlit'
  | badRep hlit' => rw [hlit] at hlit'; cases hlit'
  | symbol hlit' => rw [hlit] at hlit'; cases hlit'
  | plain hlit' => rw [hlit] at hlit'; cases hlit'
  | invalid => exact .stop _ _ _ (Or.inr (Or.inr ⟨_, rfl⟩))

end

/-! ## The run through a class -/

/-- In a fresh process the compiler reads the class whose `[` stands before
position `start`: the contexts behind the `[`, up to the one with its `]`. -/
inductive InClass (exp : List CChar) (start : Nat) : Nat → Context → Prop
  | opened {cp cp' : Context} (h : Visited Statics.init exp start cp) (hmain : cp.inCharc = false)
      (htok : cp.tok = .charcOpen) (hstep : stage1Step exp cp = .ok (none, cp')) :
      InClass exp start (lexInto exp start { cp' with lasttok := cp'.tok }).1
        (lexInto exp start { cp' with lasttok := cp'.tok }).2
  | item {input : Nat} {cp cp' : Context} (h : InClass exp start input cp)
      (htok : cp.tok ≠ .charcClose) (heos : cp.tok ≠ .eos) (herr : ∀ e, cp.tok ≠ .error e)
      (hstep : stage1Step exp cp = .ok (none, cp')) :
      InClass exp start (lexInto exp input { cp' with lasttok := cp'.tok }).1
        (lexInto exp input { cp' with lasttok := cp'.tok }).2

theorem InClass.first {exp : List CChar} {n start : Nat} {cp : Context} {r : Nat × Context}
    (h : ctxAt Statics.init exp n = some (start, cp))
    (htok : cp.inCharc = false ∧ cp.tok = .charcOpen) (hnext : nextCtx exp (start, cp) = some r) :
    InClass exp start r.1 r.2 := by
  rcases nextCtx_eq_some.mp hnext with ⟨_, _, cp', hstep, rfl⟩
  exact .opened (visited_iff.mpr ⟨n, h⟩) htok.1 htok.2 hstep

theorem InClass.next {exp : List CChar} {start input : Nat} {cp : Context} {r : Nat × Context}
    (h : InClass exp start input cp) (htok : cp.tok ≠ .charcClose)
    (hnext : nextCtx exp (input, cp) = some r) : InClass exp start r.1 r.2 := by
  rcases nextCtx_eq_some.mp hnext with ⟨heos, herr, cp', hstep, rfl⟩
  exact h.item htok heos herr hstep

/-- The item that makes the class a negated one is not in the string. -/
def kept (items : List ClassItem) : List ClassItem := items.erase (.single solSym)

/-- The characters of some items. -/
def HasAny (items : List ClassItem) (c : CChar) : Prop := ∃ item ∈ items, item.Has c

/-- In a context inside the class: the items in `done` have been read before
its token, and their characters are in the string. -/
structure Reading (exp : List CChar) (start input : Nat) (cp : Context) (done : List ClassItem) :
    Prop where
  charc : cp.inCharc = true
  token : ∃ k l, l.literal = true ∧ (cp.tok, input, cp.statics.lex) = lex exp k l ∧
    classItems exp start = done ++ classItems exp k
  strb : ∃ s, cp.strb = some s ∧ ∀ c, c ∈ s ↔ HasAny (kept done) c
  isNchar : cp.statics.isNchar = decide (.single solSym ∈ done)

section

variable {exp : List CChar} {start input : Nat} {cp cp' : Context} {done : List ClassItem}

theorem hasAny_append {items items' : List ClassItem} {c : CChar} :
    HasAny (items ++ items') c ↔ HasAny items c ∨ HasAny items' c := by
  simp only [HasAny, List.mem_append]
  constructor
  · rintro ⟨item, hitem | hitem, hc⟩
    · exact Or.inl ⟨item, hitem, hc⟩
    · exact Or.inr ⟨item, hitem, hc⟩
  · rintro (⟨item, hitem, hc⟩ | ⟨item, hitem, hc⟩)
    · exact ⟨item, Or.inl hitem, hc⟩
    · exact ⟨item, Or.inr hitem, hc⟩

theorem hasAny_singleton {item : ClassItem} {c : CChar} : HasAny [item] c ↔ item.Has c := by
  simp [HasAny]

theorem kept_of_notMem {items : List ClassItem} (h : .single solSym ∉ items) : kept items = items :=
  List.erase_of_not_mem h

/-- An item that is no first `^` is kept. -/
theorem kept_concat {item : ClassItem} (h : item = .single solSym → .single solSym ∈ done) :
    kept (done ++ [item]) = kept done ++ [item] := by
  unfold kept
  by_cases hmem : ClassItem.single solSym ∈ done
  · exact List.erase_append_left _ hmem
  · have hne : item ≠ .single solSym := fun e => hmem (h e)
    rw [List.erase_append_right _ hmem, List.erase_of_not_mem hmem,
      List.erase_of_not_mem (by simpa using hne.symm)]

theorem kept_concat_sol (h : .single solSym ∉ done) :
    kept (done ++ [.single solSym]) = kept done := by
  unfold kept
  rw [List.erase_append_right _ h, List.erase_of_not_mem h]
  simp

/-- The range loop adds the characters of the range. -/
theorem expandCharRange_has {a b : CChar}
    (hbounds : rangeBounds exp cp.statics.lex.lp1 = if a > b then (b, a) else (a, b))
    (hstep : expandCharRange exp cp = .ok cp') :
    ∃ chars, cp' = { cp with strb := some (cp.strb.getD [] ++ chars) } ∧
      ∀ c, c ∈ chars ↔ (ClassItem.range a b).Has c := by
  unfold expandCharRange at hstep
  by_cases hend : (rangeBounds exp cp.statics.lex.lp1).2.toInt = 127
  · simp only [expandLoop_endless hend, bind, Except.bind] at hstep
    cases hstep
  · rcases expandLoop_bounds exp cp.statics.lex.lp1 hend with ⟨chars, hchars, hmem⟩
    simp only [hchars, bind, Except.bind, pure, Except.pure] at hstep
    cases hstep
    refine ⟨chars, rfl, ?_⟩
    intro c
    rw [hmem, hbounds]
    unfold ClassItem.Has
    split_ifs with hgt
    all_goals
      simp only [gt_iff_lt, Int8.lt_iff_toInt_lt, Int8.le_iff_toInt_le] at hgt ⊢
      omega

/-- A turn inside the class reads its token. -/
theorem Reading.item (h : Reading exp start input cp done) (hclose : cp.tok ≠ .charcClose)
    (heos : cp.tok ≠ .eos) (herr : ∀ e, cp.tok ≠ .error e)
    (hstep : stage1Step exp cp = .ok (none, cp')) :
    ∃ done', Reading exp start (lexInto exp input { cp' with lasttok := cp'.tok }).1
      (lexInto exp input { cp' with lasttok := cp'.tok }).2 done' := by
  rcases h.token with ⟨k, l, hlit, hlex, hitems⟩
  rcases h.strb with ⟨s, hs, hmem⟩
  have htoken := @lex_inside exp k l hlit
  rw [← hlex] at htoken
  unfold stage1Step at hstep
  rw [if_pos h.charc] at hstep
  unfold stage1CharcState at hstep
  generalize hr : (cp.tok, input, cp.statics.lex) = r at htoken
  -- the tokens of a class, one case each
  cases htoken with
  | close j l' hnil =>
      simp only [Prod.mk.injEq] at hr
      exact absurd hr.1 hclose
  | single j l' hlit' hread =>
      simp only [Prod.mk.injEq] at hr
      rcases hr with ⟨htok, rfl, rfl⟩
      rw [htok] at hstep
      have hread' : classItems exp start =
          (done ++ [.single (at' exp cp.statics.lex.lp1)]) ++ classItems exp input := by
        rw [hitems, hread, List.append_assoc]
        rfl
      refine ⟨done ++ [.single (at' exp cp.statics.lex.lp1)], ?_⟩
      by_cases hsol : cp.lp1Char exp = solSym ∧ cp.statics.isNchar = false
      · -- the `^` that negates the class
        rw [if_pos hsol] at hstep
        cases hstep
        -- the negation is pending, so no `^` has been read before
        have hnot : ClassItem.single solSym ∉ done := by
          have := h.isNchar
          rw [hsol.2] at this
          exact of_decide_eq_false this.symm
        have hchar : at' exp cp.statics.lex.lp1 = solSym := hsol.1
        rw [hchar] at hread' ⊢
        refine ⟨h.charc, ⟨input, cp.statics.lex, hlit', rfl, hread'⟩, ⟨s, hs, ?_⟩, ?_⟩
        · rw [kept_concat_sol hnot]
          exact hmem
        · simp [lexInto_frame]
      · -- any other character goes to the string of the class
        rw [if_neg hsol] at hstep
        cases hstep
        -- a `^` here is not the first one: the first one has set the flag
        have hkept : ClassItem.single (at' exp cp.statics.lex.lp1) = .single solSym →
            ClassItem.single solSym ∈ done := by
          intro e
          have hN := h.isNchar
          by_contra hnot
          rw [decide_eq_false hnot] at hN
          exact hsol ⟨ClassItem.single.inj e, hN⟩
        refine ⟨h.charc, ⟨input, cp.statics.lex, hlit', rfl, hread'⟩,
          ⟨s ++ [at' exp cp.statics.lex.lp1], ?_, ?_⟩, ?_⟩
        · rw [lexInto_frame]
          simp only [Context.addc, Context.lp1Char, hs, Option.getD_some]
        · intro c
          rw [kept_concat hkept, hasAny_append, hasAny_singleton, List.mem_append, hmem]
          simp [ClassItem.Has]
        · rw [lexInto_frame]
          show cp.statics.isNchar = _
          rw [h.isNchar, decide_eq_decide, List.mem_append, List.mem_singleton]
          exact ⟨Or.inl, fun hor => hor.elim id fun e => hkept e.symm⟩
  -- a range is spelled out into the string
  | range j l' hlit' a b hread hbounds =>
      simp only [Prod.mk.injEq] at hr
      rcases hr with ⟨htok, rfl, rfl⟩
      rw [htok] at hstep
      rcases hexp : expandCharRange exp cp with stop | cp₁
      · simp only [hexp, bind, Except.bind] at hstep
        cases hstep
      · simp only [hexp, bind, Except.bind, pure, Except.pure] at hstep
        cases hstep
        rcases expandCharRange_has hbounds hexp with ⟨chars, rfl, hchars⟩
        refine ⟨done ++ [.range a b], h.charc,
          ⟨input, cp.statics.lex, hlit', rfl, ?_⟩, ⟨s ++ chars, ?_, ?_⟩, ?_⟩
        · rw [hitems, hread, List.append_assoc]
          rfl
        · rw [lexInto_frame]
          simp only [hs, Option.getD_some]
        · intro c
          rw [kept_concat (by simp), hasAny_append, hasAny_singleton, List.mem_append, hmem, hchars]
        · rw [lexInto_frame]
          show cp.statics.isNchar = _
          rw [h.isNchar, decide_eq_decide, List.mem_append, List.mem_singleton]
          exact ⟨Or.inl, fun hor => hor.elim id (by simp)⟩
  -- an error, or the end of the text, is no turn
  | stop tok j l' hstop =>
      simp only [Prod.mk.injEq] at hr
      rcases hr with ⟨rfl, rfl, rfl⟩
      rcases hstop with htok | htok | ⟨e, htok⟩
      · exact absurd htok heos
      · rw [htok] at hstep
        cases hstep
      · exact absurd htok (herr e)

/-- Outside a class the flag for negation is clear. -/
theorem Visited.isNchar_false (h : Visited Statics.init exp input cp) (hmain : cp.inCharc = false) :
    cp.statics.isNchar = false := by
  have hinv := h.invariant
    (P := fun _ cp _ _ => cp.inCharc = false → cp.statics.isNchar = false) ?_ ?_
  · rcases hinv with ⟨_, _, _, hP⟩
    exact hP hmain
  · intro input simple cp hloop _ _
    rcases literalLoop_frame hloop with ⟨_, tok, lex, hcp⟩
    rcases loopStart_layout hloop with ⟨_, _, m', operand, l, heq⟩
    -- a fresh process, and the literals in front leave the flag alone
    rw [heq, hcp]
    rfl
  · intro input cp stk index cp' stk' index' _ _ hP _ _ hturn _ _ _ hmain'
    have hkeep : (mainStatics cp).isNchar = cp.statics.isNchar := by
      unfold mainStatics
      split_ifs <;> rfl
    rw [lexInto_frame] at hmain' ⊢
    cases hturn with
    | operate hmain => exact hP hmain
    | single hmain => exact hkeep.trans (hP hmain)
    | quiet hmain => exact hkeep.trans (hP hmain)
    | opening hmain => exact hkeep.trans (hP hmain)
    | closing hmain => exact hkeep.trans (hP hmain)
    | charc hcharc =>
        -- a turn inside a class stays there; the turn that ends it clears the flag
        have : cp.inCharc = false := hmain'
        rw [hcharc] at this
        cases this
    | noCcs => rfl
    | ccs => rfl

/-- The `[` that opens a class switches the lexer to literals. -/
theorem lex_charcOpen {k : Nat} {l : LexStatics} (h : (lex exp k l).1 = .charcOpen) :
    (lex exp k l).2.2.literal = true := by
  have hcase := lex_cases exp k l
  generalize lex exp k l = r at hcase h ⊢
  have hlit : ∀ j l', (lexLiteral exp j l').1 ≠ .charcOpen := by
    intro j l'
    unfold lexLiteral lexRange
    simp only
    split_ifs <;> simp [lexEnd]
  cases hcase with
  | eos => cases h
  | trail => cases h
  | escaped => exact absurd h (hlit _ _)
  | close => cases h
  | inside => exact absurd h (hlit _ _)
  | rep => cases h
  | badRep => cases h
  | symbol _ tok hmeta =>
      obtain rfl : tok = .charcOpen := h
      have hopen : ∀ p ∈ metaTable, p.2 = .charcOpen → p.1 = charcOpenSym := by decide
      have := hopen _ (mem_metaTable hmeta) rfl
      simp only [lexEnd]
      rw [if_pos this]
  | plain => exact absurd h (hlit _ _)
  | invalid => cases h

/-- Behind the `[` nothing has been read. -/
theorem Reading.opened (h : Visited Statics.init exp start cp) (hmain : cp.inCharc = false)
    (htok : cp.tok = .charcOpen) (hstep : stage1Step exp cp = .ok (none, cp')) :
    Reading exp start (lexInto exp start { cp' with lasttok := cp'.tok }).1
      (lexInto exp start { cp' with lasttok := cp'.tok }).2 [] := by
  rcases h.wellMade with ⟨stk, index, hholds, _⟩
  rcases hholds.turn hstep start with ⟨stk', index', hturn, _, _⟩
  rcases h.lexed with ⟨k, l, hlex⟩
  have hlit : cp.statics.lex.literal = true := by
    have hopen := @lex_charcOpen exp k l (by rw [← hlex]; exact htok)
    rw [← hlex] at hopen
    exact hopen
  have hkeep : (mainStatics cp).isNchar = false ∧ (mainStatics cp).lex = cp.statics.lex := by
    have := h.isNchar_false hmain
    unfold mainStatics
    split_ifs <;> exact ⟨this, rfl⟩
  -- `[` makes no instruction; every other turn has another token
  cases hturn with
  | quiet _ cp₁ stk₁ index₁ =>
      refine ⟨?_, ⟨start, (mainStatics cp).lex, ?_, rfl, by simp⟩, ⟨[], ?_, ?_⟩, ?_⟩
      · rw [lexInto_frame]
        exact if_pos htok
      · rw [hkeep.2]
        exact hlit
      · rw [lexInto_frame]
        exact if_pos htok
      · simp [kept, HasAny]
      · rw [lexInto_frame]
        exact hkeep.1
  | operate _ hop => rw [htok] at hop; cases hop
  | single _ _ _ _ _ inst hinst => simp [singleInst, htok] at hinst
  | opening _ _ _ _ _ htok' => rw [htok] at htok'; cases htok'
  | closing _ _ _ _ _ htok' => rw [htok] at htok'; cases htok'
  | charc hcharc => rw [hmain] at hcharc; cases hcharc
  | noCcs hcharc => rw [hmain] at hcharc; cases hcharc
  | ccs hcharc => rw [hmain] at hcharc; cases hcharc

/-- Every context inside a class has read some of its items. -/
theorem InClass.reading (h : InClass exp start input cp) :
    ∃ done, Reading exp start input cp done := by
  induction h with
  | opened h hmain htok hstep => exact ⟨[], Reading.opened h hmain htok hstep⟩
  | item _ htok heos herr hstep ih =>
      rcases ih with ⟨done, hreading⟩
      exact hreading.item htok heos herr hstep

end

/-! ## The instruction -/

/-- The turn that leaves `cp'` adds the instruction to the stack at the end of
`parens`. -/
def AddsInst (cp cp' : Context) (inst : Inst) : Prop :=
  cp'.mem = (cp.mem.stackAddInstHead cp.base inst).1

/-- The opcode is `OP_NCLASS`. -/
def isNclass : Inst → Bool
  | .opNclass _ => true
  | _ => false

/-- The class string of an instruction. -/
def ccsOf : Inst → List CChar
  | .opClass ccs => ccs
  | .opNclass ccs => ccs
  | _ => []

/-- The items of the class. A `^` behind the `[` makes it a negated one and is
none of them, whatever stands behind this `^`. -/
def listed (exp : List CChar) (start : Nat) : List ClassItem :=
  classItems exp (if at' exp start = solSym then start + 1 else start)

/-- The compiler accepts the class, and comes with its `]` to the context. -/
def Accepted (exp : List CChar) (start : Nat) (cp : Context) : Prop :=
  ∃ input, InClass exp start input cp ∧ cp.tok = .charcClose

/-- The instruction the class is lowered to: `OP_NCLASS` exactly if a `^` stands
behind the `[`, with the characters of the listed items for its string. -/
structure LoweredTo (exp : List CChar) (start : Nat) (inst : Inst) : Prop where
  negated : isNclass inst = true ↔ at' exp start = solSym
  chars : ∀ c, c ∈ ccsOf inst ↔ HasAny (listed exp start) c

/-- The `]` of the class emits the instruction for it. -/
def Lowered (exp : List CChar) (start : Nat) (cp : Context) : Prop :=
  ∃ cp' inst, stage1Step exp cp = .ok (none, cp') ∧ AddsInst cp cp' inst ∧ LoweredTo exp start inst

/-- A `^` negates where it should: one behind the `[` is not the first end of a
range, and without one there no item is a `^`. -/
def SolRight (exp : List CChar) (start : Nat) : Prop :=
  if at' exp start = solSym then (classItems exp start).head? = some (.single solSym)
  else .single solSym ∉ classItems exp start

instance (exp : List CChar) (start : Nat) : Decidable (SolRight exp start) :=
  inferInstanceAs (Decidable (if at' exp start = solSym then
    (classItems exp start).head? = some (.single solSym)
  else .single solSym ∉ classItems exp start))

example : SolRight [91, 94, 97, 45, 99, 93] 1 ∧ ¬ SolRight [91, 94, 45, 97, 94, 93] 1 := by decide

/-- The `^` behind the `[` is taken for the first end of a range, but a `^` further
on makes up for it, and the characters of the range and of what is left behind it
happen to be those of the items. -/
def SolLucky (exp : List CChar) (start : Nat) : Prop :=
  at' exp start = solSym ∧ ∃ b rest, classItems exp start = .range solSym b :: rest ∧
    .single solSym ∈ rest ∧
    ∀ c, HasAny (.range solSym b :: rest) c ↔ HasAny (listed exp start) c

section

variable {exp : List CChar} {start : Nat} {cp cp' : Context}

theorem addHead_data (m : Mem) (k : StackId) (inst : Inst) :
    ((m.stackAddInstHead k inst).1.item m.itemCount).data = inst := by
  simp [Mem.stackAddInstHead, Mem.createItem, Mem.setItem]

theorem addHead_ne_self (m : Mem) (k : StackId) (inst : Inst) :
    (m.stackAddInstHead k inst).1 ≠ m := by
  intro h
  have hcount := congrArg Mem.itemCount h
  simp only [Mem.stackAddInstHead, linkHead_items, Mem.createItem] at hcount
  omega

theorem addsInst_unique {inst inst' : Inst} (h : AddsInst cp cp' inst) (h' : AddsInst cp cp' inst') :
    inst = inst' := by
  have hdata := addHead_data cp.mem cp.base inst
  rw [← h, h', addHead_data] at hdata
  exact hdata.symm

@[simp] theorem isNclass_ccsInst (cp : Context) : isNclass (ccsInst cp) = cp.statics.isNchar := by
  unfold ccsInst
  cases cp.statics.isNchar <;> rfl

@[simp] theorem ccsOf_ccsInst (cp : Context) : ccsOf (ccsInst cp) = cstring (cp.strb.getD []) := by
  unfold ccsInst
  cases cp.statics.isNchar <;> rfl

/-- The turn of a `]`: an empty class puts out nothing. -/
theorem stage1Step_charcClose (exp : List CChar) (hcharc : cp.inCharc = true)
    (htok : cp.tok = .charcClose) : ∃ cp', stage1Step exp cp = .ok (none, cp') ∧
      (cp.strb = some [] ∧ cp'.mem = cp.mem ∨ cp.strb ≠ some [] ∧ AddsInst cp cp' (ccsInst cp)) := by
  unfold stage1Step stage1CharcState
  rw [if_pos hcharc, htok]
  refine ⟨_, rfl, ?_⟩
  unfold codeCcs
  by_cases hstrb : cp.strb = some []
  · rw [if_pos hstrb]
    exact Or.inl ⟨hstrb, rfl⟩
  · rw [if_neg hstrb]
    exact Or.inr ⟨hstrb, rfl⟩

/-- At the `]` all items have been read. -/
theorem Accepted.read (h : Accepted exp start cp) : cp.inCharc = true ∧
    (∃ s, cp.strb = some s ∧ ∀ c, c ∈ s ↔ HasAny (kept (classItems exp start)) c) ∧
    (cp.statics.isNchar = true ↔ .single solSym ∈ classItems exp start) := by
  rcases h with ⟨input, h, htok⟩
  rcases h.reading with ⟨done, hreading⟩
  rcases hreading.token with ⟨k, l, hlit, hlex, hitems⟩
  have htoken := @lex_inside exp k l hlit
  rw [← hlex, htok] at htoken
  have hnil : classItems exp k = [] := by
    cases htoken with
    | close _ _ hnil => exact hnil
    | stop _ _ _ hstop => rcases hstop with h | h | ⟨_, h⟩ <;> cases h
  rw [hnil, List.append_nil] at hitems
  rw [hitems]
  exact ⟨hreading.charc, hreading.strb, by rw [hreading.isNchar, decide_eq_true_iff]⟩

theorem ClassItem.Has.ne_zero {item : ClassItem} {c : CChar} (h : item.Has c)
    (hsupp : item.Supported) : c ≠ 0 := by
  rintro rfl
  cases item with
  | single d =>
      obtain rfl : (0 : CChar) = d := h
      exact absurd (isprintable_bounds hsupp).1 (by decide)
  | range a b =>
      have ha := (isprintable_bounds hsupp.1).1
      have hb := (isprintable_bounds hsupp.2).1
      have h0 : (0 : CChar).toInt = 0 := by decide
      simp only [ClassItem.Has, Int8.le_iff_toInt_le, h0] at h
      omega

/-- A supported class has no NUL in its string. -/
theorem Accepted.cstring_eq (hsupp : ∀ item ∈ classItems exp start, item.Supported) {s : List CChar}
    (hs : ∀ c, c ∈ s ↔ HasAny (kept (classItems exp start)) c) : cstring s = s := by
  rw [cstring, List.takeWhile_eq_self_iff]
  intro c hc
  rcases (hs c).mp hc with ⟨item, hitem, hhas⟩
  simpa using hhas.ne_zero (hsupp item (List.mem_of_mem_erase hitem))

theorem ClassItem.range_has_left (a b : CChar) : (ClassItem.range a b).Has a := by
  rcases Int.le_total a.toInt b.toInt with h | h
  · exact Or.inl ⟨Int8.le_refl a, Int8.le_iff_toInt_le.mpr h⟩
  · exact Or.inr ⟨Int8.le_iff_toInt_le.mpr h, Int8.le_refl a⟩

/-- Every item has a character. -/
theorem ClassItem.exists_has (item : ClassItem) : ∃ c, item.Has c := by
  cases item with
  | single d => exact ⟨d, rfl⟩
  | range a b => exact ⟨a, ClassItem.range_has_left a b⟩

/-- The first character of the class starts its first item. -/
theorem classItems_sol (h : at' exp start = solSym) :
    classItems exp start = .single solSym :: listed exp start ∨
      ∃ b rest, classItems exp start = .range solSym b :: rest := by
  unfold listed
  rw [if_pos h]
  unfold classItems
  rw [classChars_plain_at (by rw [h]; decide) (by rw [h]; decide) (by rw [h]; decide), h]
  generalize classChars (cstring (exp.drop (start + 1))) = rest
  rcases rest with _ | ⟨b, _ | ⟨d, rest⟩⟩
  · exact Or.inl rfl
  · exact Or.inl rfl
  · rw [itemsOf]
    split_ifs
    · exact Or.inr ⟨_, _, rfl⟩
    · exact Or.inl rfl

/-- The `^` that is not kept is missed in no class with a range from `^`. -/
theorem hasAny_kept_range (b : CChar) (rest : List ClassItem) (c : CChar) :
    HasAny (kept (.range solSym b :: rest)) c ↔ HasAny (.range solSym b :: rest) c := by
  unfold kept HasAny
  constructor
  · rintro ⟨item, hitem, hc⟩
    exact ⟨item, List.mem_of_mem_erase hitem, hc⟩
  · rintro ⟨item, hitem, hc⟩
    by_cases hsol : item = .single solSym
    · obtain rfl : c = solSym := by
        rw [hsol] at hc
        exact hc
      exact ⟨.range solSym b, by simp, ClassItem.range_has_left _ _⟩
    · exact ⟨item, (List.mem_erase_of_ne hsol).mpr hitem, hc⟩

/-- The string has the characters that are listed, and the `^` negates where it
should. -/
theorem solRight_or_lucky_iff : SolRight exp start ∨ SolLucky exp start ↔
    (at' exp start = solSym ↔ .single solSym ∈ classItems exp start) ∧
      ∀ c, HasAny (kept (classItems exp start)) c ↔ HasAny (listed exp start) c := by
  unfold SolRight SolLucky
  by_cases hsol : at' exp start = solSym
  · rw [if_pos hsol]
    rcases classItems_sol hsol with heq | ⟨b, rest, heq⟩
    · -- the `^` is an item, and is not kept
      rw [heq]
      simp [hsol, kept]
    · -- the `^` is the first end of a range
      rw [heq]
      simp only [hasAny_kept_range]
      constructor
      · rintro (hhead | ⟨_, b', rest', hitems, hmem, hall⟩)
        · cases hhead
        · cases hitems
          exact ⟨iff_of_true hsol (List.mem_cons_of_mem _ hmem), hall⟩
      · rintro ⟨hiff, hall⟩
        have hmem : .single solSym ∈ rest := by simpa using hiff.mp hsol
        exact Or.inr ⟨hsol, b, rest, rfl, hmem, hall⟩
  · rw [if_neg hsol]
    constructor
    · rintro (hnot | ⟨hsol', _⟩)
      · refine ⟨iff_of_false hsol hnot, ?_⟩
        intro c
        unfold listed
        rw [if_neg hsol, kept_of_notMem hnot]
      · exact absurd hsol' hsol
    · rintro ⟨hiff, _⟩
      exact Or.inl fun hmem => hsol (hiff.mpr hmem)

/-- The instruction that the `]` emits. -/
theorem Accepted.emits (hacc : Accepted exp start cp)
    (hsupp : ∀ item ∈ classItems exp start, item.Supported) : ∃ cp',
    stage1Step exp cp = .ok (none, cp') ∧
      (cp'.mem = cp.mem ∧ (∀ c, ¬ HasAny (kept (classItems exp start)) c) ∨
        ∃ inst, AddsInst cp cp' inst ∧
          (isNclass inst = true ↔ .single solSym ∈ classItems exp start) ∧
          ∀ c, c ∈ ccsOf inst ↔ HasAny (kept (classItems exp start)) c) := by
  rcases hacc.read with ⟨hcharc, ⟨s, hstrb, hs⟩, hnchar⟩
  rcases hacc with ⟨input, hclass, htok⟩
  rcases stage1Step_charcClose exp hcharc htok with ⟨cp', hstep, hcase⟩
  refine ⟨cp', hstep, ?_⟩
  rcases hcase with ⟨hempty, hmem⟩ | ⟨_, hadds⟩
  · refine Or.inl ⟨hmem, ?_⟩
    intro c hc
    have hin := (hs c).mpr hc
    rw [Option.some.inj (hstrb.symm.trans hempty)] at hin
    cases hin
  · refine Or.inr ⟨ccsInst cp, hadds, ?_, ?_⟩
    · rw [isNclass_ccsInst]
      exact hnchar
    · intro c
      rw [ccsOf_ccsInst, hstrb, Option.getD_some, Accepted.cstring_eq hsupp hs, hs]

/-- A class is lowered to the right instruction exactly if a `^` negates where it
should, or by luck. -/
theorem class_lowered_iff (hacc : Accepted exp start cp)
    (hsupp : ∀ item ∈ classItems exp start, item.Supported) (hitems : listed exp start ≠ []) :
    Lowered exp start cp ↔ SolRight exp start ∨ SolLucky exp start := by
  rw [solRight_or_lucky_iff]
  rcases hacc.emits hsupp with ⟨cp', hstep, hcase⟩
  constructor
  · rintro ⟨cp'', inst, hstep', hadds, hto⟩
    obtain rfl : cp' = cp'' := by simpa using hstep.symm.trans hstep'
    rcases hcase with ⟨hmem, _⟩ | ⟨inst', hadds', hneg, hchars⟩
    · exact absurd (hadds.symm.trans hmem) (addHead_ne_self _ _ _)
    · obtain rfl := addsInst_unique hadds hadds'
      exact ⟨hto.negated.symm.trans hneg, fun c => (hchars c).symm.trans (hto.chars c)⟩
  · rintro ⟨hiff, hall⟩
    rcases hcase with ⟨_, hnone⟩ | ⟨inst, hadds, hneg, hchars⟩
    · -- some item has a character, so the string is not empty
      rcases List.exists_mem_of_ne_nil _ hitems with ⟨item, hitem⟩
      rcases item.exists_has with ⟨c, hc⟩
      exact absurd ((hall c).mpr ⟨item, hitem, hc⟩) (hnone c)
    · exact ⟨cp', inst, hstep, hadds, hneg.trans hiff.symm,
        fun c => (hchars c).trans (hall c)⟩

end

/-- The class `[^a-c]`. -/
theorem class_lowered_iff_negated :
    ∃ cp, Accepted [91, 94, 97, 45, 99, 93] 1 cp ∧ Lowered [91, 94, 97, 45, 99, 93] 1 cp := by
  have hcls : ∃ cp, Accepted [91, 94, 97, 45, 99, 93] 1 cp := by
    have hfirst := @InClass.first [91, 94, 97, 45, 99, 93] 0 1 _ _ rfl ⟨rfl, rfl⟩ rfl
    have hsol := hfirst.next (by decide) rfl
    have hrange := hsol.next (by decide) rfl
    exact ⟨_, _, hrange, rfl⟩
  rcases hcls with ⟨cp, hacc⟩
  exact ⟨cp, hacc, (class_lowered_iff hacc (by decide) (by decide)).mpr (Or.inl (by decide))⟩

/-- The class `[a^]` is compiled to the negated class of `a`. -/
theorem class_misread :
    (∃ c g', rxvmCompile Statics.init [91, 97, 94, 93] = .ok (.ok c, g') ∧
      c.exe = [.opNclass [97], .opMatch]) ∧
    ∃ cp, Accepted [91, 97, 94, 93] 1 cp ∧ ¬ Lowered [91, 97, 94, 93] 1 cp := by
  refine ⟨⟨_, _, rfl, rfl⟩, ?_⟩
  have hcls : ∃ cp, Accepted [91, 97, 94, 93] 1 cp := by
    have hfirst := @InClass.first [91, 97, 94, 93] 0 1 _ _ rfl ⟨rfl, rfl⟩ rfl
    have ha := hfirst.next (by decide) rfl
    have hsol := ha.next (by decide) rfl
    exact ⟨_, _, hsol, rfl⟩
  rcases hcls with ⟨cp, hacc⟩
  refine ⟨cp, hacc, ?_⟩
  rintro ⟨cp', inst, hstep, hadds, hto⟩
  rcases hacc.emits (by decide) with ⟨cp'', hstep', hcase⟩
  obtain rfl : cp' = cp'' := by simpa using hstep.symm.trans hstep'
  rcases hcase with ⟨hmem, _⟩ | ⟨inst', hadds', hneg, _⟩
  · exact absurd (hadds.symm.trans hmem) (addHead_ne_self _ _ _)
  · obtain rfl := addsInst_unique hadds hadds'
    exact absurd (hto.negated.mp (hneg.mpr (by decide))) (by decide)

end Rxvm
