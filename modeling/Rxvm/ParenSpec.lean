import Rxvm.CompileSpec
import Rxvm.LexSpec

/-!
# Rxvm.ParenSpec — the compiler's verdict on parentheses

The compiler keeps no depth: a group is opened with `(`, and popped when an
operator or another token follows its `)`, but only if its buffer holds
something or the token is an operator. A group that is closed with an empty
buffer and followed by something else stays on the list for good. `strands`
counts these groups; the groups on the list are the parentheses that are open,
and these.
-/

namespace Rxvm

open Function Brackets

/-- The parentheses of the expression. -/
def exprParens (exp : List CChar) : List Bracket := parens false (cstring exp)

/-- A group has just been closed with nothing in its buffer, and what follows
is no operator. -/
def Strands (cp : Context) : Prop :=
  cp.closing = true ∧ cp.bufStack.head = none ∧ cp.tok.isop = false

instance (cp : Context) : Decidable (Strands cp) := inferInstanceAs (Decidable (_ ∧ _ ∧ _))

/-- The groups left stranded before the `n`-th context of a run. -/
def strands (g : Statics) (text : List CChar) : Nat → Nat
  | 0 => 0
  | n + 1 =>
    match ctxAt g text n with
    | some r => if Strands r.2 then strands g text n + 1 else strands g text n
    | none => strands g text n

section

variable {g : Statics} {text : List CChar} {n input : Nat} {cp : Context}

theorem strands_succ_of (h : ctxAt g text n = some (input, cp)) (hs : Strands cp) :
    strands g text (n + 1) = strands g text n + 1 := by
  simp only [strands, h]
  exact if_pos hs

theorem strands_succ_of_not (h : ctxAt g text n = some (input, cp)) (hs : ¬ Strands cp) :
    strands g text (n + 1) = strands g text n := by
  simp only [strands, h]
  exact if_neg hs

theorem strands_le_succ (g : Statics) (text : List CChar) (n : Nat) :
    strands g text n ≤ strands g text (n + 1) := by
  cases h : ctxAt g text n with
  | none => simp [strands, h]
  | some r =>
      by_cases hs : Strands r.2
      · rw [strands_succ_of h hs]
        exact Nat.le_succ _
      · rw [strands_succ_of_not h hs]

theorem strands_eq_zero_iff : strands g text n = 0 ↔
    ∀ k < n, ∀ r, ctxAt g text k = some r → ¬ Strands r.2 := by
  induction n with
  | zero => simp [strands]
  | succ n ih =>
      constructor
      · intro h k hk r hr
        rcases Nat.lt_succ_iff_lt_or_eq.mp hk with hk | rfl
        · have := strands_le_succ g text n
          exact ih.mp (by omega) k hk r hr
        · intro hs
          rw [strands_succ_of hr hs] at h
          omega
      · intro h
        have hn := ih.mpr fun k hk => h k (Nat.lt_succ_of_lt hk)
        cases hr : ctxAt g text n with
        | none => simp [strands, hr, hn]
        | some r => rw [strands_succ_of_not hr (h n (Nat.lt_succ_self n) r hr), hn]

/-! ## Counting groups -/

/-- The counts behind a word of parentheses: how many groups are on the list,
how many were stranded, and whether the last one has just been closed. -/
structure Tally (groups strands : Nat) (closing : Bool) (past : List Bracket) : Prop where
  count : (groups : Int) = excess past + strands + (if closing then 1 else 0)
  covered : strands = 0 → Covered past
  unclosed : ∀ u v, past = u ++ .opening :: v → Covered v →
    1 + excess v + (if closing then 1 else 0) ≤ (groups : Int)

theorem Tally.nil : Tally 0 0 false [] := by
  refine ⟨rfl, fun _ => Covered.nil, ?_⟩
  intro u v h
  simp at h

variable {groups k : Nat} {past : List Bracket}

/-- The group that has been closed is popped. -/
theorem Tally.pop (h : Tally (groups + 1) k true past) : Tally groups k false past := by
  have hcount := h.count
  rw [if_pos rfl] at hcount
  push_cast at hcount
  refine ⟨by simp; omega, h.covered, ?_⟩
  intro u v hpast hv
  have := h.unclosed u v hpast hv
  rw [if_pos rfl] at this
  push_cast at this
  simp
  omega

/-- The group that has been closed is left where it is. -/
theorem Tally.strand (h : Tally groups k true past) : Tally groups (k + 1) false past := by
  have hcount := h.count
  rw [if_pos rfl] at hcount
  refine ⟨by push_cast; simp; omega, fun h0 => absurd h0 (Nat.succ_ne_zero k), ?_⟩
  intro u v hpast hv
  have := h.unclosed u v hpast hv
  rw [if_pos rfl] at this
  simp
  omega

theorem eq_concat_of_append_cons {u v : List Bracket} {a b : Bracket}
    (h : past ++ [a] = u ++ b :: v) :
    (v = [] ∧ a = b ∧ past = u) ∨ ∃ v', v = v' ++ [a] ∧ past = u ++ b :: v' := by
  induction v using List.reverseRecOn with
  | nil =>
      left
      have := List.append_inj' h rfl
      simp only [List.cons.injEq, and_true] at this
      exact ⟨rfl, this.2, this.1⟩
  | append_singleton v c _ =>
      right
      rw [← List.cons_append, ← List.append_assoc] at h
      have := List.append_inj' h rfl
      simp only [List.cons.injEq, and_true] at this
      exact ⟨v, by rw [this.2], this.1⟩

theorem Tally.opening (h : Tally groups k false past) :
    Tally (groups + 1) k false (past ++ [.opening]) := by
  have hcount := h.count
  rw [if_neg (by simp)] at hcount
  refine ⟨?_, ?_, ?_⟩
  · simp [Bracket.weight]
    omega
  · intro h0
    have hcov := h.covered h0
    have := hcov.excess_nonneg
    refine hcov.concat ?_
    simp [Bracket.weight]
    omega
  · intro u v hpast hv
    rcases eq_concat_of_append_cons hpast with ⟨rfl, _, _⟩ | ⟨v', rfl, hpast'⟩
    · simp
    · have := h.unclosed u v' hpast' hv.of_append
      rw [if_neg (by simp)] at this
      simp [Bracket.weight]
      omega

theorem Tally.closing (h : Tally groups k false past) (hpos : 0 < groups) :
    Tally groups k true (past ++ [.closing]) := by
  have hcount := h.count
  rw [if_neg (by simp)] at hcount
  refine ⟨?_, ?_, ?_⟩
  · simp [Bracket.weight]
    omega
  · intro h0
    refine (h.covered h0).concat ?_
    simp [Bracket.weight]
    omega
  · intro u v hpast hv
    rcases eq_concat_of_append_cons hpast with ⟨_, hcontra, _⟩ | ⟨v', rfl, hpast'⟩
    · cases hcontra
    · have := h.unclosed u v' hpast' hv.of_append
      rw [if_neg (by simp)] at this
      simp [Bracket.weight]
      omega

/-! ## The groups of a context -/

/-- The parentheses read before the token of a context, and its groups. -/
structure Counted (g : Statics) (text : List CChar) (n input : Nat) (cp : Context)
    (past : List Bracket) : Prop where
  read : (∀ e, cp.tok ≠ .error e) → exprParens text =
    past ++ cp.tok.brackets ++ parens cp.statics.lex.literal (cstring (text.drop input))
  tally : Tally cp.groups.length (strands g text n) cp.closing past

variable {ids : StackId → List ItemId} {stk : StackId → Stk} {index : Option Nat}

theorem strands_iff (hlay : Layout cp cp.closing ids stk index) (hop : cp.tok.isop = false) :
    Strands cp ↔ cp.closing = true ∧ (stk cp.buf).code = [] := by
  have hhead : cp.bufStack.head = none ↔ (stk cp.buf).code = [] :=
    (hlay.store.shows _ hlay.buf_live).head_none_iff
  unfold Strands
  rw [hhead, hop]
  simp

theorem Layout.groups_length (hlay : Layout cp cp.closing ids stk index)
    (hclosing : cp.closing = true) : cp.groups.length = cp.groups.tail.length + 1 := by
  rcases (hlay.justClosed hclosing).1 with ⟨below, hg, _⟩
  rw [hg]
  rfl

/-- The flush pops the group that has been closed, or strands it. -/
theorem Tally.flush {cp₁ : Context} {stk₁ : StackId → Stk} {index₁ : Option Nat}
    (h : Tally cp.groups.length (strands g text n) cp.closing past)
    (hat : ctxAt g text n = some (input, cp)) (hlay : Layout cp cp.closing ids stk index)
    (hop : cp.tok.isop = false) (hflush : Flushed cp stk index cp₁ stk₁ index₁) :
    Tally cp₁.groups.length (strands g text (n + 1)) false past := by
  have hiff := strands_iff hlay hop
  cases hflush with
  | popped m' hclosing hbuf =>
      -- the flush pops the closed group
      rw [strands_succ_of_not hat fun hs => hbuf (hiff.mp hs).2]
      rw [hclosing, hlay.groups_length hclosing] at h
      exact h.pop
  | kept hcond =>
      cases hclosing : cp.closing with
      | true =>
          have hbuf : (stk cp.buf).code = [] := by
            by_contra hne
            exact hcond ⟨hclosing, hne⟩
          -- a closed group with an empty buffer: it stays, and is stranded
          rw [strands_succ_of hat (hiff.mpr ⟨hclosing, hbuf⟩)]
          rw [hclosing] at h
          exact h.strand
      | false =>
          have hnot : ¬ Strands cp := fun hs => by
            rw [hs.1] at hclosing
            cases hclosing
          rw [strands_succ_of_not hat hnot]
          rw [hclosing] at h
          exact h

theorem brackets_of_isop {tok : Tok} (h : tok.isop = true) : tok.brackets = [] := by
  cases tok <;> first | rfl | cases h

theorem brackets_of_paren {tok : Tok} (h : tok ≠ .lparen ∧ tok ≠ .rparen) : tok.brackets = [] := by
  cases tok <;> first | rfl | exact absurd rfl h.1 | exact absurd rfl h.2

/-- What a turn does to the counts. -/
theorem Tally.turn {cp' : Context} {stk' : StackId → Stk} {index' : Option Nat}
    (h : Tally cp.groups.length (strands g text n) cp.closing past)
    (hat : ctxAt g text n = some (input, cp)) (hlay : Layout cp cp.closing ids stk index)
    (hcharc : cp.inCharc = true → cp.closing = false)
    (hturn : Turn text cp stk index cp' stk' index') :
    Tally cp'.groups.length (strands g text (n + 1)) (decide (cp.tok = .rparen))
      (past ++ cp.tok.brackets) := by
  -- inside a class only the token `]` or a character can come
  have hquiet : cp.inCharc = true → cp.tok ≠ .rparen → cp.tok.brackets = [] →
      Tally cp.groups.length (strands g text (n + 1)) (decide (cp.tok = .rparen))
        (past ++ cp.tok.brackets) := by
    intro hin htok hbr
    have hclosing := hcharc hin
    have hnot : ¬ Strands cp := fun hs => by
      rw [hs.1] at hclosing
      cases hclosing
    rw [hclosing] at h
    rw [hbr, List.append_nil, decide_eq_false htok, strands_succ_of_not hat hnot]
    exact h
  cases hturn with
  | operate hmain hop s hs m' chained index' =>
      -- behind a `)` an operator is no stranded group
      have hnot : ¬ Strands cp := fun hs => by
        rw [hs.2.2] at hop
        cases hop
      have htok : cp.tok ≠ .rparen := by
        intro e
        rw [e] at hop
        cases hop
      rw [brackets_of_isop hop, List.append_nil, decide_eq_false htok, strands_succ_of_not hat hnot]
      -- the operator takes the group it stands behind from the list
      show Tally (if cp.closing then cp.groups.tail else cp.groups).length _ false past
      by_cases hclosing : cp.closing = true
      · rw [hclosing, hlay.groups_length hclosing] at h
        rw [if_pos hclosing]
        exact h.pop
      · rw [if_neg hclosing]
        have hfalse : cp.closing = false := by simpa using hclosing
        rw [hfalse] at h
        exact h
  | single hmain cp₁ stk₁ index₁ hflush inst hinst m' operand =>
      -- a lexeme that is no bracket: only the flush changes the counts
      have hparen : cp.tok ≠ .lparen ∧ cp.tok ≠ .rparen := by
        constructor <;>
        · intro e
          simp [singleInst, e] at hinst
      have hop : cp.tok.isop = false := by
        cases htok : cp.tok <;> first | rfl | simp [singleInst, htok] at hinst
      have hnext := h.flush hat hlay hop hflush.flushed
      rw [brackets_of_paren hparen, List.append_nil, decide_eq_false hparen.2]
      exact hnext
  | quiet hmain cp₁ stk₁ index₁ hflush hop hinst hparen =>
      have hnext := h.flush hat hlay hop hflush.flushed
      rw [brackets_of_paren hparen, List.append_nil, decide_eq_false hparen.2]
      exact hnext
  | opening hmain cp₁ stk₁ index₁ hflush htok m' hfresh =>
      have hop : cp.tok.isop = false := by rw [htok]; rfl
      have hnext := (h.flush hat hlay hop hflush.flushed).opening
      simp only [htok]
      exact hnext
  | closing hmain cp₁ stk₁ index₁ hflush htok cur below hgroups m' operand stk' hsame =>
      have hop : cp.tok.isop = false := by rw [htok]; rfl
      have hnext := (h.flush hat hlay hop hflush.flushed).closing (by rw [hgroups]; simp)
      simp only [htok]
      exact hnext
  | charc hin htok strb isNchar =>
      rcases htok with htok | htok
      · exact hquiet hin (by simp [htok]) (by rw [htok]; rfl)
      · exact hquiet hin (by simp [htok]) (by rw [htok]; rfl)
  | noCcs hin htok hstrb => exact hquiet hin (by simp [htok]) (by rw [htok]; rfl)
  | ccs hin htok hstrb m' operand => exact hquiet hin (by simp [htok]) (by rw [htok]; rfl)

/-- A turn leaves the statics of the lexer as they are. -/
theorem Turn.lex_eq {cp' : Context} {stk' : StackId → Stk} {index' : Option Nat}
    (hturn : Turn text cp stk index cp' stk' index') : cp'.statics.lex = cp.statics.lex := by
  have hmain : (mainStatics cp).lex = cp.statics.lex := by
    unfold mainStatics
    split_ifs <;> rfl
  cases hturn with
  | operate => rfl
  | single => exact hmain
  | quiet => exact hmain
  | opening => exact hmain
  | closing => exact hmain
  | charc => rfl
  | noCcs => rfl
  | ccs => rfl

/-! ## Whole runs -/

theorem literalLoop_parens : ∀ {fuel input : Nat} {simple : Option Nat} {cp : Context}
    {input' : Nat} {simple' : Option Nat} {cp' : Context},
    literalLoop text fuel input simple cp = .ok (input', simple', cp') →
    (∀ e, cp'.tok ≠ .error e) →
    parens cp.statics.lex.literal (cstring (text.drop input)) =
      cp'.tok.brackets ++ parens cp'.statics.lex.literal (cstring (text.drop input')) := by
  intro fuel
  induction fuel with
  | zero =>
      intro input simple cp input' simple' cp' h
      cases h
  | succ fuel ih =>
      intro input simple cp input' simple' cp' h herr
      have hlexed := lex_lexed text input cp.statics.lex
      by_cases htok : (lexInto text input cp).2.tok = .literal
      · rw [literalLoop_literal htok] at h
        have htok' : (lex text input cp.statics.lex).1 = .literal := htok
        rw [hlexed (by simp [htok']), htok']
        exact ih h herr
      · rw [literalLoop_other htok] at h
        cases h
        exact hlexed herr

/-- The groups on the list are counted in every context of a run. -/
theorem ctxAt_counted (h : ctxAt g text n = some (input, cp)) :
    ∃ stk index, Holds cp stk index ∧ ∃ past, Counted g text n input cp past := by
  refine ctxAt_invariant (P := fun n input cp _ _ => ∃ past, Counted g text n input cp past)
    ?_ ?_ h
  · intro input simple cp hloop _
    rcases literalLoop_frame hloop with ⟨_, tok, lex, hcp⟩
    rcases loopStart_layout hloop with ⟨_, _, m', operand, l, hstart⟩
    -- at the start: the literals of the fast path have no parenthesis
    refine ⟨[], ?_, ?_⟩
    · intro herr
      have htok := loopStart_tok text simple cp
      have hlex : (loopStart text simple cp).statics.lex = cp.statics.lex := by rw [hstart]
      rw [htok] at herr ⊢
      rw [hlex]
      exact literalLoop_parens hloop herr
    · have hgroups : (loopStart text simple cp).groups = [] := by
        rw [hstart, hcp]
        rfl
      have hclosing : (loopStart text simple cp).closing = false := by
        rw [hstart, hcp]
        rfl
      rw [hgroups, hclosing]
      exact Tally.nil
  · rintro n input cp stk index cp' stk' index' hat hholds ⟨past, hcounted⟩ _ herr hturn htok _ _
    rcases hholds.layout with ⟨ids, hlay⟩
    -- a turn: its token is read, its parentheses are tallied
    refine ⟨past ++ cp.tok.brackets, ?_, ?_⟩
    · intro herr'
      have hlexed := lex_lexed text input cp'.statics.lex
      have hnext := hlexed herr'
      rw [hcounted.read herr, ← hturn.lex_eq, hnext]
      exact (List.append_assoc _ _ _).symm
    · have htally := hcounted.tally.turn hat hlay hholds.charc hturn
      have hclosing : (lexInto text input { cp' with lasttok := cp'.tok }).2.closing =
          decide (cp.tok = .rparen) := by
        rw [lexInto_frame]
        simp [Context.closing, htok]
      rw [hclosing]
      exact htally

/-! ## The verdict -/

/-- The first token that is no literal has been read at some position. -/
theorem literalLoop_lexed : ∀ {fuel input : Nat} {simple : Option Nat} {cp : Context}
    {input' : Nat} {simple' : Option Nat} {cp' : Context},
    literalLoop text fuel input simple cp = .ok (input', simple', cp') →
    ∃ k l, (cp'.tok, input', cp'.statics.lex) = lex text k l := by
  intro fuel
  induction fuel with
  | zero =>
      intro input simple cp input' simple' cp' h
      cases h
  | succ fuel ih =>
      intro input simple cp input' simple' cp' h
      by_cases htok : (lexInto text input cp).2.tok = .literal
      · rw [literalLoop_literal htok] at h
        exact ih h
      · rw [literalLoop_other htok] at h
        cases h
        exact ⟨input, cp.statics.lex, rfl⟩

/-- Every token has been read at some position of the text. -/
theorem Visited.lexed (h : Visited g text input cp) :
    ∃ k l, (cp.tok, input, cp.statics.lex) = lex text k l := by
  cases h with
  | start hloop _ =>
      rcases loopStart_layout hloop with ⟨_, _, m', operand, l, heq⟩
      have hlexed := literalLoop_lexed hloop
      rw [heq]
      exact hlexed
  | @turn input cp cp' _ _ _ _ => exact ⟨input, cp'.statics.lex, rfl⟩

/-- At the end of the text all parentheses have been read. -/
theorem Counted.read_eos {past : List Bracket} (h : Counted g text n input cp past)
    (hvisit : Visited g text input cp) (heos : cp.tok = .eos) : exprParens text = past := by
  rcases hvisit.lexed with ⟨k, l, hlex⟩
  have htok : cp.tok = (lex text k l).1 := congrArg (·.1) hlex
  have hinput : input = (lex text k l).2.1 := congrArg (·.2.1) hlex
  rcases lex_eos (htok.symm.trans heos) with ⟨h0, hk⟩
  have hread := h.read (by simp [heos])
  rw [hinput, hk, cstring_drop_of_eq h0, heos] at hread
  simpa [Tok.brackets, parens] using hread

/-- The result of a compilation is right about the parentheses: it succeeds
only if they are balanced, returns `RXVM_EPAREN` only if some `(` is never
closed, and `RXVM_BADPAREN` only if some prefix has more `)` than `(`. -/
structure ParensRight (exp : List CChar) (result : Except Err Compiled) : Prop where
  ok : ∀ c, result = .ok c → Balanced (exprParens exp)
  eparen : result = .error .eparen → Unclosed (exprParens exp)
  badparen : result = .error .badparen → ¬ Covered (exprParens exp)

/-- No group is left stranded. -/
def StrandFree (g : Statics) (exp : List CChar) : Prop :=
  ∀ input cp, Visited g exp input cp → ¬ Strands cp

/-- If the token loop gets to the end of the expression outside a class, it
has left no group stranded, or some `(` is never closed anyway. -/
def StrandsExcused (g : Statics) (exp : List CChar) : Prop :=
  ∀ input cp, Visited g exp input cp → cp.tok = .eos → cp.inCharc = false →
    StrandFree g exp ∨ Unclosed (exprParens exp)

/-- The groups stranded in a whole run. -/
theorem strandFree_iff (hat : ctxAt g text n = some (input, cp))
    (hlast : nextCtx text (input, cp) = none) :
    StrandFree g text ↔ strands g text (n + 1) = 0 := by
  rw [strands_eq_zero_iff]
  constructor
  · intro h k _ r hr
    exact h r.1 r.2 (visited_iff.mpr ⟨k, hr⟩)
  · intro h input' cp' hvisit
    rcases visited_iff.mp hvisit with ⟨k, hk⟩
    have hnone : ctxAt g text (n + 1) = none := by rw [ctxAt, hat, Option.bind_some, hlast]
    exact h k (lt_of_ctxAt hk hnone) _ hk

/-- The groups left at the end of the input, counted. -/
theorem tally_end {stk : StackId → Stk} {index : Option Nat} {past : List Bracket}
    (hat : ctxAt g text n = some (input, cp)) (hholds : Holds cp stk index)
    (hcounted : Counted g text n input cp past) (heos : cp.tok = .eos) :
    Tally (endGroups cp stk).length (strands g text (n + 1)) false past := by
  rcases hholds.layout with ⟨ids, hlay⟩
  have hop : cp.tok.isop = false := by rw [heos]; rfl
  by_cases hend : endFlush cp stk
  · have hflush := hcounted.tally.flush hat hlay hop (.popped cp.mem hend.1 hend.2)
    rw [endGroups, if_pos hend]
    exact hflush
  · have hflush := hcounted.tally.flush hat hlay hop (.kept hend)
    rw [endGroups, if_neg hend]
    exact hflush

/-- A `)` without a group to close is one too many. -/
theorem badparen_right {stk : StackId → Stk} {index : Option Nat} {past : List Bracket}
    {cp₁ : Context} {stk₁ : StackId → Stk} {index₁ : Option Nat}
    (hat : ctxAt g text n = some (input, cp)) (hholds : Holds cp stk index)
    (hcounted : Counted g text n input cp past) (htok : cp.tok = .rparen)
    (hflush : Flushed cp stk index cp₁ stk₁ index₁) (hnil : cp₁.groups = []) :
    ¬ Covered (exprParens text) := by
  rcases hholds.layout with ⟨ids, hlay⟩
  have htally := hcounted.tally.flush hat hlay (by rw [htok]; rfl) hflush
  have hcount := htally.count
  rw [hnil] at hcount
  have hread := hcounted.read (by simp [htok])
  rw [htok] at hread
  intro hcov
  have hprefix : past ++ [.closing] <+: exprParens text := by
    rw [hread]
    exact List.prefix_append _ _
  have := hcov _ hprefix
  simp [Bracket.weight] at this hcount
  omega

/-- The result at the end of the input is right unless a stranded group
decides it. -/
theorem parensRight_end {stk : StackId → Stk} {index : Option Nat} {past : List Bracket}
    {result : Except Err Compiled} (hat : ctxAt g text n = some (input, cp))
    (hholds : Holds cp stk index) (hcounted : Counted g text n input cp past)
    (heos : cp.tok = .eos) (hcharc : cp.inCharc = false)
    (hok : ∀ c, result = .ok c → endGroups cp stk = [])
    (herr : ∀ e, result = .error e → e = .eparen ∧ endGroups cp stk ≠ []) :
    ParensRight text result ↔ StrandsExcused g text := by
  have hvisit : Visited g text input cp := visited_iff.mpr ⟨n, hat⟩
  have hlast : nextCtx text (input, cp) = none := nextCtx_eos heos
  have htally := tally_end hat hholds hcounted heos
  have hcount := htally.count
  rw [if_neg (by simp)] at hcount
  have hpast : exprParens text = past := hcounted.read_eos hvisit heos
  have hfree : StrandFree g text ↔ strands g text (n + 1) = 0 := strandFree_iff hat hlast
  -- the last context decides alone
  have hexcused : StrandsExcused g text ↔ StrandFree g text ∨ Unclosed past := by
    rw [← hpast]
    constructor
    · intro h
      exact h input cp hvisit heos hcharc
    · intro h _ _ _ _ _
      exact h
  rw [hexcused]
  cases result with
  | error e =>
      rcases herr e rfl with ⟨rfl, hgroups⟩
      have hpos := List.length_pos_iff.mpr hgroups
      have hright : ParensRight text (.error .eparen) ↔ Unclosed past := by
        rw [← hpast]
        constructor
        · intro h
          exact h.eparen rfl
        · intro h
          exact ⟨by simp, fun _ => h, by simp⟩
      rw [hright]
      constructor
      · exact Or.inr
      · rintro (h | h)
        · have h0 := hfree.mp h
          exact unclosed_of_excess_pos _ past le_rfl (by omega)
        · exact h
  | ok c =>
      rw [hok c rfl] at hcount htally
      simp only [List.length_nil] at hcount htally
      have hright : ParensRight text (.ok c) ↔ Balanced past := by
        rw [← hpast]
        constructor
        · intro h
          exact h.ok c rfl
        · intro h
          exact ⟨fun _ _ => h, by simp, by simp⟩
      rw [hright]
      constructor
      · intro h
        have := h.2
        exact Or.inl (hfree.mpr (by omega))
      · rintro (h | ⟨u, v, hsplit, hv⟩)
        · have h0 := hfree.mp h
          exact ⟨htally.covered h0, by omega⟩
        · -- an open parenthesis would have left a group
          have hopen := htally.unclosed u v hsplit hv
          have hv := hv.excess_nonneg
          simp at hopen
          omega

/-- No context of the run is at the end of the input outside a class. -/
theorem strandsExcused_of_last (hvisit : Visited g text input cp)
    (hlast : nextCtx text (input, cp) = none) (h : cp.tok = .eos → cp.inCharc = true) :
    StrandsExcused g text := by
  intro input' cp' hvisit' heos' hcharc'
  have hlast' : nextCtx text (input', cp') = none := nextCtx_eos heos'
  rw [← hvisit.last_unique hlast hvisit' hlast'] at heos' hcharc'
  rw [h heos'] at hcharc'
  cases hcharc'

theorem nextCtx_failed {e : Err} {cp' : Context} (hstep : stage1Step text cp = .ok (some e, cp')) :
    nextCtx text (input, cp) = none := by
  unfold nextCtx
  simp only [hstep]
  split <;> rfl

/-- The verdict of a turn that fails. -/
theorem parensRight_step {stk : StackId → Stk} {index : Option Nat} {past : List Bracket} {e : Err}
    {cp' : Context} (hat : ctxAt g text n = some (input, cp)) (hholds : Holds cp stk index)
    (hcounted : Counted g text n input cp past)
    (hstep : stage1Step text cp = .ok (some e, cp')) : ParensRight text (.error e) := by
  rcases hholds.layout with ⟨ids, hlay⟩
  have hresult := stage1Step_result text hlay hholds.charc
  rw [hstep] at hresult
  generalize hrun : (Except.ok (some e, cp') : Coded) = run at hresult
  cases hresult with
  | lost => cases hrun
  | diverges => cases hrun
  | abandoned _ _ _ _ _ _ hab =>
      -- neither a refused class nor a lost operand is an error of the parentheses
      rcases hab with ⟨m', hab, _⟩
      rw [hab] at hrun
      cases hrun
      exact ⟨by simp, by simp, by simp⟩
  | failed e' _ _ _ _ _ hwhy =>
      cases hrun
      cases hwhy with
      | rparen htok cp₁ stk₁ index₁ hflush hnil =>
          -- a `)` that closes no group
          exact ⟨by simp, by simp, fun _ => badparen_right hat hholds hcounted htok hflush hnil⟩
      | operator => exact ⟨by simp, by simp, by simp⟩
      | charcClose => exact ⟨by simp, by simp, by simp⟩
      | charc => exact ⟨by simp, by simp, by simp⟩
  | turned => cases hrun

/-- The results of `rxvm_compile` and where they come from: the first loop, a
token that is an error, a turn that fails, or the end of the input. -/
inductive Verdict (g : Statics) (text : List CChar) : Except Err Compiled → Prop
  | simple (c : Compiled) (input : Nat) (simple : Option Nat) (cp : Context)
      (hloop : literalLoop text (text.length + 1) 0 none (stage1Init g) = .ok (input, simple, cp))
      (heos : cp.tok = .eos) : Verdict g text (.ok c)
  | lexError (e : Err) (input : Nat) (cp : Context) (hvisit : Visited g text input cp)
      (htok : cp.tok = .error e) : Verdict g text (.error e)
  | stepError (e : Err) (input : Nat) (cp cp' : Context) (hvisit : Visited g text input cp)
      (herr : ∀ e, cp.tok ≠ .error e) (heos : cp.tok ≠ .eos)
      (hstep : stage1Step text cp = .ok (some e, cp')) : Verdict g text (.error e)
  | eclass (input : Nat) (cp : Context) (hvisit : Visited g text input cp) (heos : cp.tok = .eos)
      (hcharc : cp.inCharc = true) : Verdict g text (.error .eclass)
  | eparen (input : Nat) (cp : Context) (hvisit : Visited g text input cp) (heos : cp.tok = .eos)
      (hmain : cp.inCharc = false) (hgroups : cp.groupsLeft ≠ []) :
      Verdict g text (.error .eparen)
  | accepted (c : Compiled) (input : Nat) (cp : Context) (hvisit : Visited g text input cp)
      (heos : cp.tok = .eos) (hmain : cp.inCharc = false) (hgroups : cp.groupsLeft = []) :
      Verdict g text (.ok c)

theorem rxvmCompile_ok {r : Except Err Compiled} {g' : Statics}
    (h : rxvmCompile g text = .ok (r, g')) : ∃ s, stage1 g text = .ok s ∧
      ∀ e, (∃ cp, s = .fail e cp) ↔ r = .error e := by
  unfold rxvmCompile at h
  rcases hstage : stage1 g text with stop | result
  · rw [hstage] at h
    cases h
  rw [hstage] at h
  refine ⟨result, rfl, fun e => ?_⟩
  cases result with
  | fail e' cp =>
      cases h
      constructor
      · rintro ⟨cp', hfail⟩
        cases hfail
        rfl
      · intro he
        cases he
        exact ⟨cp, rfl⟩
  | simple lfixn g₁ =>
      cases h
      constructor
      · rintro ⟨cp', hfail⟩
        cases hfail
      · intro he
        cases he
  | ir lfix0 lfixn cp =>
      rcases hstage2 : stage2 cp with stop | exe
      · simp only [bind, Except.bind, hstage2] at h
        cases h
      · simp only [bind, Except.bind, hstage2] at h
        cases h
        constructor
        · rintro ⟨cp', hfail⟩
          cases hfail
        · intro he
          cases he

theorem rxvmCompile_verdict {result : Except Err Compiled} {g' : Statics}
    (h : rxvmCompile g text = .ok (result, g')) : Verdict g text result := by
  rcases rxvmCompile_ok h with ⟨s, hstage, hfail⟩
  -- a result of `stage1` that is no failure is a success of `rxvm_compile`
  have hfailed : ∀ e cp, s = .fail e cp → result = .error e := fun e cp hs => (hfail e).mp ⟨cp, hs⟩
  have hok : (∀ e cp, s ≠ .fail e cp) → ∃ c, result = .ok c := by
    intro hs
    cases result with
    | error e =>
        rcases (hfail e).mpr rfl with ⟨cp, hcp⟩
        exact absurd hcp (hs e cp)
    | ok c => exact ⟨c, rfl⟩
  -- the literals alone, a fault, or the loop of `stage1`
  rcases stage1_ends g text with ⟨input, simple, cp, hloop, heos, hrun⟩ | hrun |
    ⟨input, cp, hvisit, hends⟩
  · rw [hstage] at hrun
    cases hrun
    rcases hok (by simp) with ⟨c, rfl⟩
    exact .simple c input simple cp hloop heos
  · rw [hstage] at hrun
    cases hrun
  · rw [hstage] at hends
    generalize hrun : (Except.ok s : Run Stage1) = run at hends
    cases hends with
    | lexError e htok =>
        cases hrun
        rw [hfailed _ _ rfl]
        exact .lexError e input cp hvisit htok
    | stepError e cp' herr heos hstep =>
        cases hrun
        rw [hfailed _ _ rfl]
        exact .stepError e input cp cp' hvisit herr heos hstep
    | stops => cases hrun
    | eos heos =>
        -- the end of the input: an open class, an open group, or a program
        rcases visited_iff.mp hvisit with ⟨n, hat⟩
        rcases ctxAt_counted hat with ⟨stk, index, hholds, _⟩
        have hfinish := hholds.finish
        rw [← hrun] at hfinish
        generalize hend : (Except.ok s : Run Stage1) = run at hfinish
        cases hfinish with
        | eclass cp' hcharc =>
            cases hend
            rw [hfailed _ _ rfl]
            exact .eclass input cp hvisit heos hcharc
        | eparen cp' hcharc hgroups =>
            cases hend
            rw [hfailed _ _ rfl]
            rw [← hholds.groupsLeft_eq] at hgroups
            exact .eparen input cp hvisit heos hcharc hgroups
        | ir m' groups ids' hcharc hgroups =>
            cases hend
            rcases hok (by simp) with ⟨c, rfl⟩
            rw [← hholds.groupsLeft_eq] at hgroups
            exact .accepted c input cp hvisit heos hcharc hgroups

theorem exprParens_simple {simple : Option Nat}
    (hloop : literalLoop text (text.length + 1) 0 none (stage1Init g) = .ok (input, simple, cp))
    (heos : cp.tok = .eos) : exprParens text = [] := by
  have hparens := literalLoop_parens hloop (by simp [heos])
  rcases literalLoop_lexed hloop with ⟨k, l, hlex⟩
  have htok : cp.tok = (lex text k l).1 := congrArg (·.1) hlex
  have hinput : input = (lex text k l).2.1 := congrArg (·.2.1) hlex
  rcases lex_eos (htok.symm.trans heos) with ⟨h0, hk⟩
  rw [hinput, hk, cstring_drop_of_eq h0, heos] at hparens
  rw [exprParens]
  simpa [Tok.brackets, parens, stage1Init, lexInit] using hparens

/-- An expression of literals has no parentheses, and no contexts. -/
theorem parensRight_simple {simple : Option Nat} {c : Compiled}
    (hloop : literalLoop text (text.length + 1) 0 none (stage1Init g) = .ok (input, simple, cp))
    (heos : cp.tok = .eos) : ParensRight text (.ok c) ∧ StrandsExcused g text := by
  constructor
  · refine ⟨?_, by simp, by simp⟩
    intro _ _
    rw [exprParens_simple hloop heos]
    exact ⟨Covered.nil, rfl⟩
  · have hnone : ctxAt g text 0 = none := by
      unfold ctxAt
      rw [hloop]
      exact if_pos heos
    intro input' cp' hvisit
    rcases visited_iff.mp hvisit with ⟨k, hk⟩
    exact absurd (lt_of_ctxAt hk hnone) (Nat.not_lt_zero k)

theorem Visited.counted (hvisit : Visited g text input cp) : ∃ n stk index past,
    ctxAt g text n = some (input, cp) ∧ Holds cp stk index ∧ Counted g text n input cp past := by
  rcases visited_iff.mp hvisit with ⟨n, hat⟩
  rcases ctxAt_counted hat with ⟨stk, index, hholds, past, hcounted⟩
  exact ⟨n, stk, index, past, hat, hholds, hcounted⟩

/-- An expression that has been read to its end, outside a class, with no group
left. -/
theorem parensRight_accepted {c : Compiled} (hvisit : Visited g text input cp)
    (heos : cp.tok = .eos) (hmain : cp.inCharc = false) (hgroups : cp.groupsLeft = []) :
    ParensRight text (.ok c) ↔ StrandsExcused g text := by
  rcases hvisit.counted with ⟨n, stk, index, past, hat, hholds, hcounted⟩
  rw [hholds.groupsLeft_eq] at hgroups
  exact parensRight_end hat hholds hcounted heos hmain (fun _ _ => hgroups) (by simp)

/-- The verdict on the parentheses is right exactly if no stranded group
decides it. -/
theorem rxvmCompile_parensRight_iff {exp : List CChar} {result : Except Err Compiled}
    {g' : Statics} (h : rxvmCompile g exp = .ok (result, g')) :
    ParensRight exp result ↔ StrandsExcused g exp := by
  cases rxvmCompile_verdict h with
  | simple c input simple cp hloop heos =>
      have hright := parensRight_simple (c := c) hloop heos
      exact iff_of_true hright.1 hright.2
  | lexError e input cp hvisit htok =>
      rcases hvisit.lexed with ⟨k, l, hlex⟩
      have hfirst : cp.tok = (lex exp k l).1 := congrArg (·.1) hlex
      have hne := lex_error (hfirst.symm.trans htok)
      -- an error of the lexer is not one of parentheses, and the end is not reached
      refine iff_of_true ⟨by simp, ?_, ?_⟩ (strandsExcused_of_last hvisit ?_ ?_)
      · intro he
        exact absurd (Except.error.inj he) hne.2
      · intro he
        exact absurd (Except.error.inj he) hne.1
      · unfold nextCtx
        rw [htok]
      · intro heos
        rw [htok] at heos
        cases heos
  | stepError e input cp cp' hvisit herr heos hstep =>
      rcases hvisit.counted with ⟨n, stk, index, past, hat, hholds, hcounted⟩
      refine iff_of_true (parensRight_step hat hholds hcounted hstep)
        (strandsExcused_of_last hvisit (nextCtx_failed hstep) ?_)
      intro heos'
      exact absurd heos' heos
  | eclass input cp hvisit heos hcharc =>
      refine iff_of_true ⟨by simp, by simp, by simp⟩
        (strandsExcused_of_last hvisit (nextCtx_eos heos) ?_)
      intro _
      exact hcharc
  | eparen input cp hvisit heos hcharc hgroups =>
      rcases hvisit.counted with ⟨n, stk, index, past, hat, hholds, hcounted⟩
      -- `RXVM_EPAREN` at the end: right if nothing is stranded or a group is unclosed
      rw [hholds.groupsLeft_eq] at hgroups
      refine parensRight_end hat hholds hcounted heos hcharc (by simp) ?_
      intro e he
      exact ⟨(Except.error.inj he).symm, hgroups⟩
  | accepted c input cp hvisit heos hcharc hgroups =>
      exact parensRight_accepted hvisit heos hcharc hgroups

/-- The expression `(a)`. -/
theorem rxvmCompile_parensRight_iff_group : ∃ c g',
    rxvmCompile Statics.init [40, 97, 41] = .ok (.ok c, g') ∧ ParensRight [40, 97, 41] (.ok c) := by
  have h : ∃ c g', rxvmCompile Statics.init [40, 97, 41] = .ok (.ok c, g') := ⟨_, _, rfl⟩
  rcases h with ⟨c, g', h⟩
  refine ⟨c, g', h, (rxvmCompile_parensRight_iff h).mpr ?_⟩
  intro _ _ _ _ _
  left
  intro input cp hvisit
  rcases visited_iff.mp hvisit with ⟨n, hn⟩
  have hlast : ctxAt Statics.init [40, 97, 41] 4 = none := rfl
  have hall : ∀ n < 4, ∀ r ∈ ctxAt Statics.init [40, 97, 41] n, ¬ Strands r.2 := by decide
  exact hall n (lt_of_ctxAt hn hlast) _ hn

/-- The expression `()a` is balanced, and `rxvm_compile` returns
`RXVM_EPAREN`. -/
theorem rxvmCompile_parens_wrong : ∃ g', rxvmCompile Statics.init [40, 41, 97] =
    .ok (.error .eparen, g') ∧ ¬ ParensRight [40, 41, 97] (.error .eparen) := by
  refine ⟨_, rfl, ?_⟩
  intro h
  have hclosed : ¬ Unclosed (exprParens [40, 41, 97]) := by decide
  exact hclosed (h.eparen rfl)

end

end Rxvm
