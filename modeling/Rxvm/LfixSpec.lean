import Rxvm.Longest
import Rxvm.Realizes

/-!
# Rxvm.LfixSpec — the fixed substring is in every match

The fixed substring `rxvm_compile` leaves stands in every string the program
accepts, if no turn of the compilation goes wrong with it.
-/

namespace Rxvm

open Function Relation Last

/-- The turn of an alternation outside the groups. -/
def AltTurn (cp : Context) : Prop := cp.inCharc = false ∧ cp.tok = .alt ∧ cp.depth = 0

instance (cp : Context) : Decidable (AltTurn cp) := inferInstanceAs (Decidable (_ ∧ _ ∧ _))

/-- What holds of a run that does not go wrong, in front of the token read at
position `k`. -/
structure LfixInv (text : List CChar) (k input : Nat) (cp : Context) (stk : StackId → Stk)
    (index : Option Nat) : Prop where
  read : ReadAt text k input cp
  le : k ≤ text.length
  orderly : Orderly k cp cp.closing stk index
  counters : cp.statics.altSeen = false → (stk cp.prog).jmp = none ∧
    LfixHolds text k cp (stk cp.prog).code (groundBuf cp.groups (stk cp.base))
      (Standing text (input, cp))

section

variable {g g' : Statics} {text exp : List CChar} {k input : Nat} {cp cp' : Context}
  {ids : StackId → List ItemId} {stk stk' : StackId → Stk} {index index' : Option Nat}
  {simple : Option Nat}

theorem Orderly.depth_eq (h : Orderly k cp cp.closing stk index) (hg : cp.groups = []) :
    cp.depth = 0 := by
  rw [h.depth, hg]
  split <;> rfl

/-! ## The start -/

theorem startStk_prog (text : List CChar) (simple : Option Nat) {base prog : StackId}
    (h : prog ≠ base) : startStk text simple base prog = Stk.empty := by
  cases simple with
  | none =>
      show initStk base prog = Stk.empty
      rw [initStk, update_of_ne h]
  | some n =>
      show backlogStk base _ prog = Stk.empty
      rw [backlogStk, update_of_ne h, initStk, update_of_ne h]

/-- The literals at the start are in the base buffer. -/
theorem startStk_base {n : Nat} {w : List CChar} (h : Literals text n 0 w)
    (hsimple : simple = some n ∨ simple = none ∧ n = 0) (base : StackId) :
    (startStk text simple base base).code = w.map .opChar ∧
      (w ≠ [] → startIndex text simple = some (w.length - 1)) := by
  rcases hsimple with rfl | ⟨rfl, rfl⟩
  · have hcode : backlogCode text n (n + 1) 0 = w.map .opChar := h.backlogCode_eq (by omega)
    unfold startStk startIndex backlogStk
    simp only [update_self, hcode]
    refine ⟨trivial, fun hw => ?_⟩
    rw [if_neg (by simpa using hw), List.length_map]
  · obtain rfl : w = [] := List.eq_nil_of_length_eq_zero (by have := h.length_le; omega)
    unfold startStk initStk
    simp only [update_self]
    exact ⟨rfl, fun hw => absurd rfl hw⟩

/-- The context the token loop starts with is in no class and no group. -/
theorem loopStart_plain
    (h : literalLoop text (text.length + 1) 0 none (stage1Init g) = .ok (input, simple, cp)) :
    (loopStart text simple cp).groups = [] ∧ (loopStart text simple cp).base = cp.base ∧
      (loopStart text simple cp).buf = cp.base ∧
      (loopStart text simple cp).target = (loopStart text simple cp).prog ∧
      (loopStart text simple cp).prog ≠ cp.base ∧ (loopStart text simple cp).depth = 0 ∧
      (loopStart text simple cp).closing = false ∧ (loopStart text simple cp).inCharc = false ∧
      (loopStart text simple cp).tok ≠ .literal := by
  rcases literalLoop_frame h with ⟨htok, tok, lex, hcp⟩
  rcases loopStart_layout h with ⟨_, _, m', operand, l, heq⟩
  rw [heq]
  refine ⟨?_, rfl, ?_, ?_, ?_, ?_, ?_, ?_, htok⟩
  all_goals rw [hcp]
  · rfl
  · rfl
  · rfl
  · exact Nat.zero_ne_one
  · rfl
  · rfl
  · rfl

/-- The counters the token loop starts with. -/
theorem loopStart_counters {n : Nat} {w : List CChar} (hlits : Literals text n 0 w)
    (hn : n < 2147483648) (hsimple : simple = some n ∨ simple = none ∧ n = 0)
    (h : literalLoop text (text.length + 1) 0 none (stage1Init g) = .ok (input, simple, cp)) :
    (loopStart text simple cp).statics.lfix.lfix0 = 0 ∧
      (loopStart text simple cp).statics.lfix.lfixn = 0 ∧
      (loopStart text simple cp).statics.lfix.ltemp0 = 0 ∧
      (loopStart text simple cp).statics.lfix.ltempn =
        if simple = none then 0 else backlogEnd w := by
  rcases literalLoop_frame h with ⟨_, tok, lex, hcp⟩
  rcases hsimple with rfl | ⟨rfl, rfl⟩
  · rw [loopStart, compileSimpleBacklog_lfix hlits hn cp, hcp, if_neg (by simp)]
    exact ⟨rfl, rfl, rfl, rfl⟩
  · rw [loopStart, hcp]
    exact ⟨rfl, rfl, rfl, rfl⟩

theorem LfixInv.start (hlen : text.length < 2147483648)
    (h : literalLoop text (text.length + 1) 0 none (stage1Init g) = .ok (input, simple, cp)) :
    ∃ k, LfixInv text k input (loopStart text simple cp) (startStk text simple cp.base)
      (startIndex text simple) := by
  rcases ReadAt.start h with ⟨n, w, htoks, hle, hread, hsimple⟩
  have hlits := htoks.literals
  replace hsimple := hsimple.imp_left And.left
  rcases loopStart_counters hlits (by omega) hsimple h with ⟨h0, hn, htemp0, htempn⟩
  -- at the start everything is in the base, outside all groups
  rcases loopStart_plain h with
    ⟨hgroups, hbase, hbuf, htarget, hne, hdepth, hclosing, hin, htok⟩
  rcases startStk_base hlits hsimple cp.base with ⟨hcode, hindex⟩
  have hwlen := hlits.length_le
  generalize loopStart text simple cp = cp₀ at *
  refine ⟨n, hread, hle, ?_, fun _ => ?_⟩
  · refine ⟨fun _ => hbuf.trans hbase.symm, fun _ => ?_, ?_, ?_, ?_⟩
    · rw [htarget, hgroups]
      rfl
    · rw [hdepth, hclosing, hgroups]
      rfl
    · rw [hgroups]
      exact Nat.zero_le n
    · rw [hbase, hcode, List.length_map]
      exact fun _ hw => hindex (by simpa using hw)
  · rw [startStk_prog text simple hne, groundBuf, if_pos hgroups, hbase, hcode]
    -- no substring has been found yet
    have hzero : cp₀.statics.lfix.lfixLongest = 0 := by
      unfold LfixStatics.lfixLongest
      rw [h0, hn]
      rfl
    have hlongest : ∀ c, Longest text cp₀.statics.lfix c := by
      intro c hpos
      rw [hzero] at hpos
      exact absurd hpos (Nat.lt_irrefl 0)
    refine ⟨rfl, fun _ => hlongest _, fun _ => Or.inl (hlongest _), ?_⟩
    -- no literals, an end that wrapped round, or one inside the literals at the start
    have hcases : cp₀.statics.lfix.ltempn = 0 ∨ cp₀.statics.lfix.ltempn = 4294967295 ∨
        cp₀.statics.lfix.ltempn + 1 ≤ w.length := by
      rw [htempn]
      split
      · exact Or.inl rfl
      · exact Or.inr (backlogEnd_cases (by omega))
    rcases hcases with hzero | hwrap | hle
    · exact .start htok hin hgroups htemp0 (Or.inl hzero)
    · exact .start htok hin hgroups htemp0 (Or.inr hwrap)
    · -- the end lies inside them: they are a run from 0 on
      refine .run hin hgroups (fun h => absurd h htok) [] w rfl ?_ ?_ ?_
      · rw [htemp0]
        exact hlits
      · rw [htemp0]
        exact Nat.zero_le _
      · rw [htemp0]
        omega

/-! ## The turns -/

theorem Turn.prog_eq (hturn : Turn text cp stk index cp' stk' index') : cp'.prog = cp.prog := by
  have hflushed : ∀ {cp₁ : Context} {stk₁ : StackId → Stk} {index₁ : Option Nat},
      FlushedTo cp stk index cp₁ stk₁ index₁ → cp₁.prog = cp.prog := by
    intro cp₁ stk₁ index₁ hto
    rcases hto.flushed.frame with ⟨m₁, groups₁, buf₁, hcp₁⟩
    rw [hcp₁]
  cases hturn with
  | single _ cp₁ _ _ hflush =>
      have h₁ := hflushed hflush
      exact h₁
  | quiet _ cp₁ _ _ hflush =>
      have h₁ := hflushed hflush
      exact h₁
  | opening _ cp₁ _ _ hflush =>
      have h₁ := hflushed hflush
      exact h₁
  | closing _ cp₁ _ _ hflush =>
      have h₁ := hflushed hflush
      exact h₁
  | operate => rfl
  | charc => rfl
  | noCcs => rfl
  | ccs => rfl

/-- An alternation outside the groups is seen from its turn on. -/
theorem Turn.altSeen (hturn : Turn text cp stk index cp' stk' index') :
    cp'.statics.altSeen = (cp.statics.altSeen || decide (AltTurn cp)) := by
  have hother : cp.tok ≠ .alt → (cp.statics.altSeen || decide (AltTurn cp)) =
      cp.statics.altSeen := by
    intro htok
    rw [decide_eq_false (fun h : AltTurn cp => htok h.2.1), Bool.or_false]
  have hmain : cp.tok ≠ .alt →
      (mainStatics cp).altSeen = (cp.statics.altSeen || decide (AltTurn cp)) := by
    intro htok
    rw [hother htok]
    unfold mainStatics
    split_ifs <;> rfl
  have hcharc : cp.inCharc = true →
      cp.statics.altSeen = (cp.statics.altSeen || decide (AltTurn cp)) := by
    intro hin
    rw [decide_eq_false (fun h : AltTurn cp => by simp [h.1] at hin), Bool.or_false]
  cases hturn with
  | operate hin => simp [opStatics, AltTurn, hin]
  | single _ _ _ _ _ inst hinst =>
      have hop := (singleInst_tok hinst).1
      exact hmain fun htok => by simp [htok, Tok.isop] at hop
  | quiet _ _ _ _ _ hop => exact hmain fun htok => by simp [htok, Tok.isop] at hop
  | opening _ _ _ _ _ htok => exact hmain (by rw [htok]; simp)
  | closing _ _ _ _ _ htok => exact hmain (by rw [htok]; simp)
  | charc hin => exact hcharc hin
  | noCcs hin => exact hcharc hin
  | ccs hin => exact hcharc hin

theorem LfixInv.turn (h : LfixInv text k input cp stk index) (hlen : text.length < 2147483648)
    (hkept : LfixKept text input cp) (hholds : Holds cp stk index)
    (hwell : WellMade cp cp.closing stk) (heos : cp.tok ≠ .eos) (herr : ∀ e, cp.tok ≠ .error e)
    (hturn : Turn text cp stk index cp' stk' index') (htok : cp'.tok = cp.tok)
    (hnext : nextCtx text (input, cp) =
      some (lexInto text input { cp' with lasttok := cp'.tok })) :
    LfixInv text input (lexInto text input { cp' with lasttok := cp'.tok }).1
      (lexInto text input { cp' with lasttok := cp'.tok }).2 stk' index' := by
  rcases hholds.layout with ⟨ids, hlay⟩
  rcases h.read.lt heos herr with ⟨hlt, hle⟩
  have hk := h.le
  refine ⟨h.read.next herr hturn, hle, ?_, ?_⟩
  · rcases h.orderly.turn hlay hkept.groups hholds.charc (by omega) hturn with
      ⟨hbuf, htarget, hdepth, hbound, hoperand⟩
    have hclosing : (lexInto text input { cp' with lasttok := cp'.tok }).2.closing =
        decide (cp.tok = .rparen) := by
      rw [← htok]
      rfl
    rw [hclosing]
    exact ⟨hbuf, htarget, hdepth, hbound.trans hlt, hoperand⟩
  · intro halt
    have halt' : cp'.statics.altSeen = false := halt
    rcases h.counters (Bool.or_eq_false_iff.mp (hturn.altSeen.symm.trans halt')).1 with ⟨hjmp, hcounters⟩
    have hP : Closed (stk cp.prog).code := (hwell.good _ (Layout.prog_live cp)).closed hjmp
    rcases h.orderly.ground hlay hwell hkept.groups hjmp hturn halt' with ⟨hjmp', hground⟩
    have hprog : (lexInto text input { cp' with lasttok := cp'.tok }).2.prog = cp.prog :=
      hturn.prog_eq
    rw [hprog]
    refine ⟨hjmp', hcounters.turn hkept (by omega) h.read heos herr h.orderly.depth_eq hP
      (groundBuf_atoms hwell) hground hnext rfl rfl rfl htok⟩

theorem Stk.attach_of_none {s : Stk} (h : s.jmp = none) : s.attach = s := by
  unfold Stk.attach
  rw [h]

/-- The program at the end of the expression, when there is no alternation
outside the groups. -/
theorem endStk_ground (hlay : Layout cp cp.closing ids stk index)
    (hwell : WellMade cp cp.closing stk) (hgroups : endGroups cp stk = [])
    (hjmp : (stk cp.prog).jmp = none) : ∃ X, Closed X ∧ (endStk cp stk).code =
      (stk cp.prog).code ++ groundBuf cp.groups (stk cp.base) ++ X := by
  unfold endGroups at hgroups
  unfold endStk
  by_cases hflush : endFlush cp stk
  · rw [if_pos hflush] at hgroups ⊢
    rcases hlay.justClosed hflush.1 with ⟨⟨below, hg, _⟩, hbase, _⟩
    refine ⟨(stk cp.buf).code, (hwell.good _ hlay.buf_live).closed hlay.bufJmp, ?_⟩
    have hnone : (((stk cp.prog).append (stk cp.buf).code).append (stk cp.base).code).jmp = none :=
      hjmp
    rw [Stk.attach_of_none hnone, hbase, groundBuf_nil (by rw [hg]; simp), List.append_nil]
    simp
  · rw [if_neg hflush] at hgroups ⊢
    have hnone : ((stk cp.prog).append (stk cp.base).code).jmp = none := hjmp
    refine ⟨[], Closed.nil, ?_⟩
    rw [Stk.attach_of_none hnone, groundBuf, if_pos hgroups, List.append_nil]
    rfl

/-- At the end of the expression the code requires the longest run. -/
theorem LfixInv.longest (h : LfixInv text k input cp stk index) (hlen : text.length < 2147483648)
    (hkept : LfixKept text input cp) (hholds : Holds cp stk index)
    (hwell : WellMade cp cp.closing stk) (heos : cp.tok = .eos) (hin : cp.inCharc = false) (hgroups : endGroups cp stk = [])
    (halt : cp.statics.altSeen = false) :
    Longest text cp.statics.lfix.lfixStop (endStk cp stk).code := by
  rcases hholds.layout with ⟨ids, hlay⟩
  rcases h.counters halt with ⟨hjmp, hcounters⟩
  have hle := h.le
  have hP : Closed (stk cp.prog).code := (hwell.good _ (Layout.prog_live cp)).closed hjmp
  have hT := groundBuf_atoms hwell
  have hending : cp.ending text = cp.statics.lfix := by
    rw [Context.ending, if_neg (by rw [heos]; simp [Tok.isop])]
  have hcode : Longest text cp.statics.lfix.lfixStop
      ((stk cp.prog).code ++ groundBuf cp.groups (stk cp.base)) := by
    -- the end of the input ends the last run
    have hlast : nextCtx text (input, cp) = none := nextCtx_eos heos
    have hcommits : cp.statics.lfix.Commits → Commits text cp := by
      intro hc
      refine ⟨hin, by rw [heos]; simp, ?_⟩
      rw [hending]
      exact hc
    refine Longest.stop (fun hc => ?_) fun hc => ?_
    · refine hcounters.longest (never_of_end hlast ?_)
      rintro ⟨_, _, hc'⟩
      rw [hending] at hc'
      exact hc hc'
    · have hrun := hkept.records (isLast_of_end hlast (hcommits hc))
      have hneeded := hcounters.run.needed hrun (hcommits hc) (by omega) h.read.lp1 hP hT
      rw [hending] at hneeded
      exact hneeded.whole
  rcases endStk_ground hlay hwell hgroups hjmp with ⟨X, hX, hend⟩
  rw [hend]
  exact fun hpos => (hcode hpos).append (hP.append hT.closed) hX

end

end Rxvm
