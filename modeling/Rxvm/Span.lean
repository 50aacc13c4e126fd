import Rxvm.Recorded

/-!
# Rxvm.Span — the span of the fixed substring

`lfix0` and `lfixn` delimit a run of literals: its first character, and as many
behind it as the run has further ones. `lfix_to_str` reads the text from there
on and leaves out every backslash, also one that is a literal itself; and the
literals at the start are counted by two functions of their own, which treat a
newline among them each in its own way.
-/

namespace Rxvm

/-! ## What lfix_to_str copies -/

section

variable {exp : List CChar} {a n : Nat}

end

/-! ## Tokens and where they stand -/

/-- What a token does to the number of open groups. -/
def Tok.nesting : Tok → Int
  | .lparen => 1
  | .rparen => -1
  | _ => 0

/-- A token starts at position `k`, in a class or not, behind so many groups
that have been opened and not closed. -/
inductive TokenAt (text : List CChar) : Nat → Bool → Int → Prop
  | start : TokenAt text 0 false 0
  | next {k : Nat} {d : Int} (l : LexStatics) (h : TokenAt text k l.literal d)
      (herr : ∀ e, (lex text k l).1 ≠ .error e) (heos : (lex text k l).1 ≠ .eos) :
      TokenAt text (lex text k l).2.1 (lex text k l).2.2.literal (d + (lex text k l).1.nesting)

/-- The string is what so many literals in a row stand for that are outside
groups and classes. -/
def LiteralBlock (exp s : List CChar) : Prop :=
  ∃ k n, TokenAt exp k false 0 ∧ LiteralTokens exp n k s

section

variable {text w : List CChar} {k n a : Nat} {d : Int} {l : LexStatics} {charc : Bool}

theorem TokenAt.bounds (h : TokenAt text k charc d) : -(k : Int) ≤ d ∧ d ≤ k := by
  induction h with
  | start => exact ⟨le_refl _, le_refl _⟩
  | @next k d l _ herr heos ih =>
      have hlt : k < (lex text k l).2.1 := by
        rcases lex_advances text k l with h | ⟨e, h⟩ | h
        · exact absurd h heos
        · exact absurd h (herr e)
        · exact h.1
      have hnesting : -1 ≤ (lex text k l).1.nesting ∧ (lex text k l).1.nesting ≤ 1 := by
        cases (lex text k l).1 <;> simp [Tok.nesting]
      omega

theorem TokenAt.literals (h : TokenAt text k false d) (htoks : LiteralTokens text n k w) :
    TokenAt text n false d := by
  induction htoks with
  | done => exact h
  | @literal k w l hl htok _ ih =>
      apply ih
      have hnext := TokenAt.next l (by rw [hl]; exact h) (by simp [htok]) (by simp [htok])
      rw [htok, (lex_literal hl htok).1] at hnext
      simpa [Tok.nesting] using hnext

theorem LiteralTokens.concat (h : LiteralTokens text n k w) (hl : l.literal = false)
    (htok : (lex text n l).1 = .literal) :
    LiteralTokens text (lex text n l).2.1 k (w ++ [at' text (lex text n l).2.2.lp1]) := by
  induction h with
  | done => exact .literal l hl htok .done
  | literal l' hl' htok' _ ih => exact .literal l' hl' htok' ih

theorem LiteralTokens.take (h : LiteralTokens text n k w) (m : Nat) :
    ∃ n', LiteralTokens text n' k (w.take m) := by
  induction h generalizing m with
  | done =>
      rw [List.take_nil]
      exact ⟨n, .done⟩
  | @literal k w l hl htok _ ih =>
      cases m with
      | zero => exact ⟨k, .done⟩
      | succ m =>
          rcases ih m with ⟨n', hrest⟩
          exact ⟨n', .literal l hl htok hrest⟩

end

/-! ## The counters of a run -/

/-- Up to position `k` there is a run of literals outside groups and classes
that starts at `a`, and it has `n` characters or more. -/
def SpanRun (text : List CChar) (k a n : Nat) : Prop :=
  ∃ k₀ chars, TokenAt text k₀ false 0 ∧ LiteralTokens text k k₀ chars ∧ RunAt text k a chars ∧
    n ≤ chars.length

/-- The counters of the longest run delimit nothing, or such a run. -/
def LfixStatics.Settled (text : List CChar) (k : Nat) (l : LfixStatics) : Prop :=
  l.lfix0 = 0 ∧ l.lfixn = 0 ∨
    l.lfix0 < l.lfixn ∧ ∃ j ≤ k, SpanRun text j l.lfix0 (l.lfixn + 1 - l.lfix0)

/-- The counters of the run that is being read, in front of the token at
position `k`. At the start of the loop `lfixs` may be left from a compilation
that has failed. -/
inductive SpanState (text : List CChar) (k : Nat) (cp : Context) : Prop
  | none (h0 : cp.statics.lfix.ltemp0 = 0) (hn : cp.statics.lfix.ltempn = 0)
      (hlfixs : cp.statics.lfix.lfixs = false ∨ cp.tok ≠ .literal ∧ cp.inCharc = false) :
      SpanState text k cp
  | run (hin : cp.inCharc = false) (hdepth : cp.depth = 0)
      (hlfixs : cp.tok = .literal → cp.statics.lfix.lfixs = true)
      (hle : cp.statics.lfix.ltemp0 ≤ cp.statics.lfix.ltempn)
      (hrun : SpanRun text k cp.statics.lfix.ltemp0
        (cp.statics.lfix.ltempn + 1 - cp.statics.lfix.ltemp0)) : SpanState text k cp

/-- What holds of the counters in front of the token at position `k`. -/
structure SpanInv (text : List CChar) (k input : Nat) (cp : Context) : Prop where
  read : ReadAt text k input cp
  le : k ≤ text.length
  token : ∃ d, TokenAt text k cp.inCharc d ∧ cp.depth = u32 d
  settled : cp.statics.lfix.Settled text k
  state : SpanState text k cp

/-- The expression starts with a newline, escaped or not. -/
def StartsWithNewline (exp : List CChar) : Prop :=
  at' exp 0 = newline ∨ at' exp 0 = derefSym ∧ at' exp 1 = newline

instance (exp : List CChar) : Decidable (StartsWithNewline exp) :=
  inferInstanceAs (Decidable (_ ∨ _ ∧ _))

section

variable {g : Statics} {text w : List CChar} {k j n m a d lp1 input : Nat} {l : LexStatics}
  {lf : LfixStatics} {simple : Option Nat} {cp cp' : Context} {stk stk' : StackId → Stk}
  {index index' : Option Nat}

theorem SpanRun.mono (h : SpanRun text k a n) (hm : m ≤ n) : SpanRun text k a m := by
  rcases h with ⟨k₀, chars, htoken, htoks, hrun, hn⟩
  exact ⟨k₀, chars, htoken, htoks, hrun, hm.trans hn⟩

theorem SpanRun.le (h : SpanRun text k a n) : a + n ≤ k := by
  rcases h with ⟨k₀, chars, _, _, hrun, hn⟩
  have := hrun.length_le
  omega

theorem SpanRun.single (h : TokenAt text k false 0) (hl : l.literal = false)
    (htok : (lex text k l).1 = .literal) :
    SpanRun text (lex text k l).2.1 (lex text k l).2.2.lp1 1 :=
  ⟨k, _, h, .literal l hl htok .done, .single (lex_literalAt hl htok), Nat.le_refl 1⟩

theorem SpanRun.concat (h : SpanRun text k a n) (hl : l.literal = false)
    (htok : (lex text k l).1 = .literal) : SpanRun text (lex text k l).2.1 a (n + 1) := by
  rcases h with ⟨k₀, chars, htoken, htoks, hrun, hn⟩
  refine ⟨k₀, _, htoken, htoks.concat hl htok, hrun.concat (lex_literalAt hl htok), ?_⟩
  rw [List.length_append]
  exact Nat.add_le_add_right hn 1

/-- The characters of the run are literals one after the other. -/
theorem SpanRun.block (h : SpanRun text k a n) : LiteralBlock text ((runText text a).take n) ∧
    ((runText text a).take n).length = n := by
  rcases h with ⟨k₀, chars, htoken, htoks, hrun, hn⟩
  rcases hrun.runText with ⟨rest, hrest⟩
  rw [← hrest, List.take_append_of_le_length hn]
  constructor
  · rcases htoks.take n with ⟨n', htake⟩
    exact ⟨k₀, n', htoken, htake⟩
  · rw [List.length_take]
    exact Nat.min_eq_left hn

theorem LfixStatics.Settled.mono (h : lf.Settled text k) (hj : k ≤ j) : lf.Settled text j := by
  rcases h with h | ⟨hlt, i, hi, hrun⟩
  · exact Or.inl h
  · exact Or.inr ⟨hlt, i, hi.trans hj, hrun⟩

/-- The longest run is the one before or the one that ends. -/
theorem LfixStatics.Settled.stop (h : lf.Settled text k) (hle : lf.ltemp0 ≤ lf.ltempn)
    (hrun : lf.ltemp0 < lf.ltempn → SpanRun text k lf.ltemp0 (lf.ltempn + 1 - lf.ltemp0)) :
    lf.lfixStop.Settled text k := by
  rcases lfixStop_longest lf with ⟨h0, hn⟩
  unfold LfixStatics.Settled
  rw [h0, hn]
  by_cases hc : lf.Commits
  · rw [if_pos hc, if_pos hc]
    have hlt := lt_of_commits hc hle
    exact Or.inr ⟨hlt, k, Nat.le_refl k, hrun hlt⟩
  · rw [if_neg hc, if_neg hc]
    exact h

/-! ## The start -/

theorem Literals.startsWithNewline {c : CChar} (h : Literals text n 0 (c :: w)) (hc : c = newline) :
    StartsWithNewline text := by
  cases h with
  | plain => exact Or.inl hc
  | escaped hderef => exact Or.inr ⟨hderef, hc⟩

theorem SpanInv.start (hlen : text.length < 2147483648) (hnl : ¬ StartsWithNewline text)
    (h : literalLoop text (text.length + 1) 0 none (stage1Init g) = .ok (input, simple, cp)) :
    ∃ k, SpanInv text k input (loopStart text simple cp) := by
  rcases ReadAt.start h with ⟨n, w, htoks, hle, hread, hsimple⟩
  have hlits := htoks.literals
  have hwlen := hlits.length_le
  rcases loopStart_counters hlits (by omega) (hsimple.imp_left And.left) h with
    ⟨h0, hn, htemp0, htempn⟩
  rcases loopStart_plain h with ⟨_, _, _, _, _, hdepth, _, hin, htok⟩
  have htoken : TokenAt text n false 0 := TokenAt.start.literals htoks
  refine ⟨n, hread, hle, ⟨0, ?_, hdepth⟩, Or.inl ⟨h0, hn⟩, ?_⟩
  · rw [hin]
    exact htoken
  · rcases hsimple with ⟨rfl, hne⟩ | ⟨rfl, _⟩
    · -- the literals at the start are the run
      rw [if_neg (by simp)] at htempn
      rcases w with _ | ⟨c, w⟩
      · exact absurd rfl hne
      have hc : c ≠ newline := fun hc => hnl (hlits.startsWithNewline hc)
      have hend := @backlogEnd_le w c (by omega) hc
      refine .run hin hdepth (fun h => absurd h htok) (by omega) ?_
      rw [htemp0, htempn]
      refine ⟨0, c :: w, .start, htoks, ?_, hend⟩
      unfold RunAt
      rw [if_pos rfl]
      exact hlits
    · rw [if_pos rfl] at htempn
      exact .none htemp0 htempn (Or.inr ⟨htok, hin⟩)

/-! ## The turns -/

/-- `cp->depth` is the number of open groups, as an `unsigned int`. -/
theorem Turn.depth {d : Int} (hturn : Turn text cp stk index cp' stk' index')
    (hd : cp.depth = u32 d) : cp'.depth = u32 (d + cp.tok.nesting) := by
  have hflushed : ∀ {cp₁ : Context} {stk₁ : StackId → Stk} {index₁ : Option Nat},
      FlushedTo cp stk index cp₁ stk₁ index₁ → cp₁.depth = cp.depth := by
    intro cp₁ stk₁ index₁ hto
    rcases hto.flushed.frame with ⟨m₁, groups₁, buf₁, hcp₁⟩
    rw [hcp₁]
  -- only a parenthesis outside a class changes the depth
  have hzero : cp.tok.nesting = 0 → cp.depth = u32 (d + cp.tok.nesting) := by
    intro h
    rw [h, add_zero]
    exact hd
  cases hturn with
  | operate _ hop =>
      refine hzero ?_
      cases htok : cp.tok <;> simp_all [Tok.isop, Tok.nesting]
  | single _ cp₁ _ _ hflush inst hinst =>
      refine (hflushed hflush).trans (hzero ?_)
      unfold singleInst at hinst
      cases htok : cp.tok <;> simp_all [Tok.nesting]
  | quiet _ cp₁ _ _ hflush _ _ hparen =>
      refine (hflushed hflush).trans (hzero ?_)
      cases htok : cp.tok <;> simp_all [Tok.nesting]
  | opening _ cp₁ _ _ hflush htok =>
      show u32 (cp₁.depth + 1) = _
      rw [hflushed hflush, hd, htok]
      -- both sides are taken modulo 2^32
      show u32 ((u32 d : Int) + 1) = u32 (d + 1)
      unfold u32
      omega
  | closing _ cp₁ _ _ hflush htok =>
      show u32 (cp₁.depth - 1) = _
      rw [hflushed hflush, hd, htok]
      show u32 ((u32 d : Int) - 1) = u32 (d + -1)
      unfold u32
      omega
  | charc _ htok =>
      refine hzero ?_
      rcases htok with htok | htok <;> rw [htok] <;> rfl
  | noCcs _ htok => exact hzero (by rw [htok]; rfl)
  | ccs _ htok => exact hzero (by rw [htok]; rfl)

/-- Outside the groups the token stands outside the groups of the text. -/
theorem SpanInv.outside (h : SpanInv text k input cp) (hlen : text.length < 2147483648)
    (hin : cp.inCharc = false) (hdepth : cp.depth = 0) : TokenAt text k false 0 := by
  rcases h.token with ⟨d, htoken, hd⟩
  have hbounds := htoken.bounds
  have hle := h.le
  rw [hin] at htoken
  have hzero : d = 0 := by
    rw [hdepth] at hd
    unfold u32 at hd
    omega
  rw [← hzero]
  exact htoken

/-- The counters behind a literal that is counted. -/
theorem SpanState.count (h : SpanInv text k input cp) (hlen : text.length < 2147483648)
    (hin : cp.inCharc = false) (hdepth : cp.depth = 0) (htok : cp.tok = .literal)
    (hcp' : cp'.statics.lfix = cp.statics.lfix.lfixContinue cp.statics.lex.lp1)
    (hin' : cp'.inCharc = false) (hdepth' : cp'.depth = 0) : SpanState text input cp' := by
  rcases h.read with ⟨l, hl, hlex⟩
  have hl' : l.literal = false := hl.trans hin
  have hlit : (lex text k l).1 = .literal := by
    rw [← hlex]
    exact htok
  have hle := h.le
  have hlt := (h.read.lt (by rw [htok]; simp) (by rw [htok]; simp)).2
  have hsingle := SpanRun.single (h.outside hlen hin hdepth) hl' hlit
  rw [← hlex] at hsingle
  have hlp1 : cp.statics.lex.lp1 + 1 ≤ input := hsingle.le
  -- a literal that begins a run
  have hstart : cp.statics.lfix.lfixs = false → SpanState text input cp' := by
    intro hlfixs
    unfold LfixStatics.lfixContinue at hcp'
    rw [if_neg (by simp [hlfixs])] at hcp'
    have hu32 : u32 (cp.statics.lex.lp1 : Int) = cp.statics.lex.lp1 := u32_eq rfl (by omega)
    refine .run hin' hdepth' (fun _ => by rw [hcp']; rfl) (by rw [hcp']; exact Nat.le_refl _) ?_
    rw [hcp']
    unfold LfixStatics.lfixStart
    simp only [hu32]
    rw [Nat.add_sub_cancel_left]
    exact hsingle
  -- a literal that goes on with the run, unless none has begun
  cases h.state with
  | none _ _ hlfixs =>
      rcases hlfixs with hlfixs | ⟨hne, _⟩
      · exact hstart hlfixs
      · exact absurd htok hne
  | run _ _ hlfixs hle' hrun =>
      unfold LfixStatics.lfixContinue at hcp'
      rw [if_pos (hlfixs htok)] at hcp'
      have hbound := hrun.le
      have hnext := hrun.concat hl' hlit
      rw [← hlex] at hnext
      have hu32 : u32 ((cp.statics.lfix.ltempn : Int) + 1) = cp.statics.lfix.ltempn + 1 :=
        u32_eq (by push_cast; rfl) (by omega)
      refine .run hin' hdepth' (fun _ => by rw [hcp']; exact hlfixs htok) ?_ ?_
      · rw [hcp']
        simp only [hu32]
        omega
      · rw [hcp']
        simp only [hu32]
        refine hnext.mono ?_
        omega

/-- The run the turn ends. -/
theorem SpanInv.ending (h : SpanInv text k input cp) (hlen : text.length < 2147483648) :
    (cp.ending text).ltemp0 ≤ (cp.ending text).ltempn ∧
      ((cp.ending text).ltemp0 < (cp.ending text).ltempn → SpanRun text k
        (cp.ending text).ltemp0 ((cp.ending text).ltempn + 1 - (cp.ending text).ltemp0)) := by
  cases h.state with
  | none h0 hn =>
      rcases @ending_counters text cp (by omega) with ⟨h0', hn'⟩
      refine ⟨by omega, fun hlt => ?_⟩
      omega
  | run _ _ _ hle hrun =>
      have hbound := hrun.le
      have hk := h.le
      rcases @ending_counters text cp (by omega) with ⟨h0', hn'⟩
      refine ⟨by omega, fun _ => ?_⟩
      rw [h0']
      exact hrun.mono (by omega)

theorem SpanInv.turn (h : SpanInv text k input cp) (hlen : text.length < 2147483648)
    (heos : cp.tok ≠ .eos) (herr : ∀ e, cp.tok ≠ .error e)
    (hturn : Turn text cp stk index cp' stk' index') :
    SpanInv text input (lexInto text input { cp' with lasttok := cp'.tok }).1
      (lexInto text input { cp' with lasttok := cp'.tok }).2 := by
  rcases h.read.lt heos herr with ⟨hlt, hle⟩
  have hk := h.le
  have hread := h.read.next herr hturn
  have hin' : (lexInto text input { cp' with lasttok := cp'.tok }).2.inCharc = cp'.inCharc := rfl
  have hdepth' : (lexInto text input { cp' with lasttok := cp'.tok }).2.depth = cp'.depth := rfl
  have hlfix' : (lexInto text input { cp' with lasttok := cp'.tok }).2.statics.lfix =
      cp'.statics.lfix := rfl
  generalize (lexInto text input { cp' with lasttok := cp'.tok }).1 = input',
    (lexInto text input { cp' with lasttok := cp'.tok }).2 = cp₁ at *
  have htoken : ∃ d, TokenAt text input cp₁.inCharc d ∧ cp₁.depth = u32 d := by
    rcases h.token with ⟨d, htoken, hd⟩
    rcases h.read with ⟨l, hl, hlex⟩
    have htok : cp.tok = (lex text k l).1 := congrArg (·.1) hlex
    have hnext := TokenAt.next l (by rw [hl]; exact htoken) (by rw [← htok]; exact herr)
      (by rw [← htok]; exact heos)
    have hmode := (@lex_mode text k l (by rw [← htok]; exact herr)).1
    rw [← hlex] at hnext hmode
    refine ⟨d + cp.tok.nesting, ?_, ?_⟩
    · rw [hin', hturn.inCharc]
      rw [hl] at hmode
      rw [← hmode]
      exact hnext
    · rw [hdepth']
      exact hturn.depth hd
  -- a run is outside the groups, and a literal leaves it there
  have hplain : cp.inCharc = false → cp.depth = 0 → cp.tok = .literal →
      cp₁.inCharc = false ∧ cp₁.depth = 0 := by
    intro hin hdepth htok
    rw [hin', hdepth', hturn.inCharc, @Turn.depth _ _ _ _ _ _ _ 0 hturn hdepth, htok, hin]
    exact ⟨rfl, rfl⟩
  -- a turn leaves the counters alone, counts a literal, or ends the run
  rcases hturn.lfix with ⟨hsame, hkeep⟩ | ⟨hcount, htok, hin, hdepth⟩ | ⟨hstop, hin, htok⟩
  · refine ⟨hread, hle, htoken, ?_, ?_⟩
    · rw [hlfix', hsame]
      exact h.settled.mono hlt.le
    · cases h.state with
      | none h0 hn hlfixs =>
          refine .none (by rw [hlfix', hsame]; exact h0) (by rw [hlfix', hsame]; exact hn) ?_
          rw [hlfix', hsame]
          rcases hlfixs with hlfixs | ⟨hne, hin⟩
          · exact Or.inl hlfixs
          · exact absurd ⟨hin, hne⟩ hkeep
      | run hin hdepth hlfixs hle' hrun =>
          -- untouched inside a run: a literal of it that is not counted
          have htok : cp.tok = .literal := by
            by_contra hne
            exact hkeep ⟨hin, hne⟩
          rcases hplain hin hdepth htok with ⟨hin₁, hdepth₁⟩
          rcases h.read with ⟨l, hl, hlex⟩
          have hlit : (lex text k l).1 = .literal := by
            rw [← hlex]
            exact htok
          have hnext := hrun.concat (hl.trans hin) hlit
          rw [← hlex] at hnext
          refine .run hin₁ hdepth₁ (fun _ => ?_) ?_ ?_
          · rw [hlfix', hsame]
            exact hlfixs htok
          · rw [hlfix', hsame]
            exact hle'
          · rw [hlfix', hsame]
            exact hnext.mono (Nat.le_succ _)
  · rcases hplain hin hdepth htok with ⟨hin₁, hdepth₁⟩
    refine ⟨hread, hle, htoken, ?_, ?_⟩
    · have hsame : cp₁.statics.lfix.lfix0 = cp.statics.lfix.lfix0 ∧
          cp₁.statics.lfix.lfixn = cp.statics.lfix.lfixn := by
        rw [hlfix', hcount]
        unfold LfixStatics.lfixContinue LfixStatics.lfixStart
        split <;> exact ⟨rfl, rfl⟩
      unfold LfixStatics.Settled
      rw [hsame.1, hsame.2]
      exact h.settled.mono hlt.le
    · exact SpanState.count h hlen hin hdepth htok (hlfix'.trans hcount) hin₁ hdepth₁
  -- `lfix_stop` records the run if it is longer than the one recorded
  · have hrun := h.ending hlen
    have hsettled : (cp.ending text).Settled text k := by
      unfold LfixStatics.Settled
      rw [(ending_longest text cp).1, (ending_longest text cp).2]
      exact h.settled
    refine ⟨hread, hle, htoken, ?_, ?_⟩
    · rw [hlfix', hstop]
      exact (hsettled.stop hrun.1 hrun.2).mono hlt.le
    · refine .none ?_ ?_ (Or.inl ?_)
      all_goals rw [hlfix', hstop]; rfl

end

/-! ## The string of a span -/

section

variable {exp w : List CChar} {k j n a b : Nat} {d : Int} {charc : Bool} {c : Compiled}

theorem TokenAt.vetted (h : TokenAt exp k charc d) : Vetted exp k := by
  induction h with
  | start => exact Vetted.zero exp
  | next l _ herr _ ih => exact lex_vetted ih herr

theorem Vetted.le_length (h : Vetted exp k) : k ≤ (cstring exp).length := by
  have hle : k ≤ exp.length := by
    by_contra hlt
    have hlast := (h (k - 1) (by omega)).1
    have := lt_length_of_at' hlast
    omega
  rw [h.cstring_eq, List.length_append, List.length_take, Nat.min_eq_left hle]
  exact Nat.le_add_right _ _

theorem SpanRun.le_length (h : SpanRun exp k a n) : a + n ≤ (cstring exp).length := by
  have hle := h.le
  rcases h with ⟨k₀, chars, htoken, htoks, _, _⟩
  exact hle.trans (htoks.vetted htoken.vetted).le_length

end

/-! ## The verdict -/

section

variable {g g' : Statics} {exp w : List CChar} {input k a b n : Nat} {cp : Context} {c : Compiled}

/-- The span the token loop leaves. -/
theorem SpanInv.stop (h : SpanInv exp k input cp) :
    cp.statics.lfix.lfixStop.Settled exp k := by
  apply h.settled.stop
  · cases h.state with
    | none h0 hn => omega
    | run _ _ _ hle => exact hle
  · intro hlt
    cases h.state with
    | none h0 hn => omega
    | run _ _ _ _ hrun => exact hrun

theorem StartsWithNewline.literal {l : LexStatics} (h : StartsWithNewline exp)
    (hl : l.literal = false) : (lex exp 0 l).1 = .literal := by
  rcases h with h0 | ⟨hderef, h1⟩
  · rcases @lexLiteral_outside exp 0 { l with lp1 := 0 } hl with ⟨seen, heq⟩
    have hmeta : metaTok newline = none := by decide
    have hprint : isprintable newline = true := by decide
    unfold lex
    simp only
    rw [h0, if_neg (by decide), if_neg (by decide), if_neg (by decide), if_neg (by decide), hmeta]
    simp only [hprint, if_true, heq]
  · rcases @lexLiteral_outside exp 1 { l with lp1 := 1 } hl with ⟨seen, heq⟩
    unfold lex
    simp only
    rw [hderef, if_neg (by decide), if_pos rfl, if_neg (by rw [h1]; decide)]
    simp only [Nat.zero_add, heq]

end

end Rxvm
