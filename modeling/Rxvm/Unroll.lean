import Rxvm.Follow
import Rxvm.Spelling

/-!
# Rxvm.Unroll — counts as copies of a group

An operator with a count makes the code that the copies of its group make,
and the counts that mean the same make the same code. The machine stands
behind the group as it stands behind the copies, wherever the group is: so
the programs are equal where the program is the machine's.
-/

namespace Rxvm

open Brackets

/-! ## The two texts -/

/-- The group `g` with an operator, and the text that is said to make the same
program. -/
inductive Unrolling (g : List CChar) : List CChar → List CChar → Prop
  | times (n : Integer) (hn : 1 ≤ n.value) (hfits : n.value < 2147483648) :
      Unrolling g (g ++ (Lexeme.rep (.repN n)).text) (List.replicate n.value.toNat g).flatten
  | more (n : Integer) (hn : 1 ≤ n.value) (hfits : n.value < 2147483648) :
      Unrolling g (g ++ (Lexeme.rep (.repMore n)).text)
        ((List.replicate (n.value.toNat - 1) g).flatten ++ g ++ Lexeme.one.text)
  | any (z : Integer) (hz : z.value = 0) :
      Unrolling g (g ++ (Lexeme.rep (.repMore z)).text) (g ++ Lexeme.zero.text)
  | swapped (n m : Integer) (hn : 1 ≤ n.value) (hm : 1 ≤ m.value) (hnfits : n.value < 2147483648)
      (hmfits : m.value < 2147483648) :
      Unrolling g (g ++ (Lexeme.rep (.repRange n m)).text) (g ++ (Lexeme.rep (.repRange m n)).text)
  | less (z m : Integer) (hz : z.value = 0) (hm : 1 ≤ m.value) (hfits : m.value < 2147483648) :
      Unrolling g (g ++ (Lexeme.rep (.repRange z m)).text) (g ++ (Lexeme.rep (.repLess m)).text)
  | optional (z m : Integer) (hz : z.value = 0) (hm : m.value = 1) :
      Unrolling g (g ++ (Lexeme.rep (.repRange z m)).text) (g ++ Lexeme.onezero.text)

/-! ## The code -/

section

variable (c : List Inst) {n m : Int}

theorem repCode_times (hn : 1 ≤ n) : repCode c n repNoField = some (copies c n.toNat) := by
  have hlen : (n - 1).toNat + 1 = n.toNat := by omega
  unfold repCode
  rw [if_neg (by simp [repNoField]), if_neg (by simp [repNoField, repFieldEmpty]),
    if_neg (by simp [repNoField]), if_pos ⟨by omega, rfl⟩, if_neg (by omega), repNCode, hlen]

theorem repCode_more (hn : 1 ≤ n) :
    repCode c n repFieldEmpty = some (copies c (n.toNat - 1) ++ oneCode c) := by
  have hlen : (n - 1).toNat = n.toNat - 1 := by omega
  unfold repCode
  rw [if_neg (by simp [repFieldEmpty]), if_pos ⟨by omega, rfl⟩, repMoreCode, copies_succ', hlen,
    oneCode, List.append_assoc]

theorem repCode_any : repCode c 0 repFieldEmpty = some (zeroCode c) := rfl

theorem repCode_swapped (hn : 1 ≤ n) (hm : 1 ≤ m) : repCode c n m = repCode c m n := by
  have hrange : ∀ {n m : Int}, 1 ≤ n → 1 ≤ m → repCode c n m = some (if n = m then repNCode c n
      else copies c (min n m).toNat ++ optionalCode c (max n m - min n m).toNat) := by
    intro n m hn hm
    unfold repCode repRangeCode
    rw [if_pos (by omega)]
    by_cases h : n = m
    · rw [if_pos h, if_pos h, if_neg (by omega)]
    · rw [if_neg h, if_neg h, if_neg (by omega)]
  rw [hrange hn hm, hrange hm hn, min_comm, max_comm]
  by_cases h : n = m
  · rw [h]
  · rw [if_neg h, if_neg (Ne.symm h)]

theorem repCode_less (hm : 1 ≤ m) : repCode c 0 m = repCode c repFieldEmpty m := by
  have hrange : repCode c 0 m = repRangeCode c 0 m := by
    unfold repCode
    rw [if_pos ⟨le_refl _, by omega⟩]
  have hless : repCode c repFieldEmpty m = repLessCode c m := by
    unfold repCode
    rw [if_neg (by simp [repFieldEmpty]), if_neg (by simp [repFieldEmpty]),
      if_pos ⟨rfl, by omega⟩]
  rw [hrange, hless]
  unfold repRangeCode repLessCode
  rw [if_neg (show ¬ 0 = m by omega), if_neg (show ¬ m = 0 by omega)]
  by_cases h : m = 1
  · rw [if_pos (Or.inl ⟨rfl, h⟩), if_pos h]
  · have hmin : min 0 m = 0 := by omega
    have hmax : max 0 m = m := by omega
    rw [if_neg (by omega), if_neg h, hmin, hmax, Int.sub_zero]
    rfl

theorem repCode_optional : repCode c 0 1 = some (onezeroCode c) := rfl

end

/-! ## Operators behind a group -/

/-- The text is that of an operator, with its piece and what it makes of its
operand. -/
structure Operates (u : List CChar) (p : Piece) (code : List Inst → Option (List Inst)) : Prop where
  crosses : Crosses false u [] false
  operator : Machine.Operator p code
  reads : ∀ (text : List CChar) (k : Nat) (rest : List CChar), text.drop k = u ++ rest →
    Reads text k false [p] (k + u.length) false

theorem operates_rep (reps : Reps) (hfits : reps.Fits) : Operates (Lexeme.rep reps).text
    (.rep reps.fields.1 reps.fields.2) fun e => repCode e reps.fields.1 reps.fields.2 := by
  refine ⟨reps.crosses, ⟨fun _ => rfl, by simp, by simp⟩, ?_⟩
  intro text k rest hdrop
  exact .single (glimpse_rep reps hfits hdrop)

theorem operates_symbol {c : CChar} {tok : Tok} {code : List Inst → Option (List Inst)}
    (hmeta : metaTok c = some tok) (hc : c ≠ derefSym ∧ c ≠ charcCloseSym ∧ c ≠ repOpenSym)
    (hpiece : ∀ text j l, pieceOf text (tok, j, l) = some (.sign tok))
    (hinside : (Piece.sign tok).inside false = false) (hcross : Crosses false [c] [] false)
    (hoperator : Machine.Operator (.sign tok) code) : Operates [c] (.sign tok) code := by
  refine ⟨hcross, hoperator, ?_⟩
  intro text k rest hdrop
  have h := Reads.single (glimpse_symbol hdrop hmeta hc (hpiece text))
  rwa [hinside] at h

theorem operates_zero :
    Operates Lexeme.zero.text (.sign .zero) fun e => some (zeroCode e) :=
  operates_symbol rfl (by decide) (fun _ _ _ => rfl) rfl (Lexeme.crosses .zero) ⟨fun _ => rfl, by simp, by simp⟩

theorem operates_one : Operates Lexeme.one.text (.sign .one) fun e => some (oneCode e) :=
  operates_symbol rfl (by decide) (fun _ _ _ => rfl) rfl (Lexeme.crosses .one) ⟨fun _ => rfl, by simp, by simp⟩

theorem operates_onezero :
    Operates Lexeme.onezero.text (.sign .onezero) fun e => some (onezeroCode e) :=
  operates_symbol rfl (by decide) (fun _ _ _ => rfl) rfl (Lexeme.crosses .onezero) ⟨fun _ => rfl, by simp, by simp⟩

/-! ## The group in its text -/

section

variable {u v pre post text text' : List CChar} {w : List Bracket} {b b' : Bool} {k k' j j' n : Nat}
  {e : Expr .re} {ps qs rs ops T T' : List Piece} {c : Compiled} {g' : Statics}

theorem cstring_append (h : NoNul u) (v : List CChar) : cstring (u ++ v) = u ++ cstring v :=
  List.takeWhile_append_of_pos fun d hd => by simpa using h d hd

/-- What it means that the `(` behind a text opens a group. -/
theorem opens_group (h : exprParens (pre ++ [lparenSym]) = exprParens pre ++ [.opening]) :
    Crosses false pre (exprParens pre) false := by
  have hnul : NoNul pre := by
    by_contra hnul
    -- the expression ends in front of the `(`
    have hsame : cstring (pre ++ [lparenSym]) = cstring pre := by
      unfold cstring
      rw [List.takeWhile_append, if_neg]
      intro hlen
      have heq := (cstring_isPrefix pre).eq_of_length hlen
      exact hnul fun d hd => by
        rw [← heq] at hd
        simpa using List.mem_takeWhile_imp hd
    rw [exprParens, exprParens, hsame] at h
    have hlen := congrArg List.length h
    rw [List.length_append] at hlen
    simp at hlen
  have hself := cstring_eq_self hnul
  refine ⟨?_, by rw [exprParens, hself], hnul⟩
  rw [exprParens, exprParens, cstring_append hnul, hself,
    cstring_eq_self (by decide), parens_concat_lparen] at h
  by_contra hmode
  rw [if_neg hmode] at h
  have hlen := congrArg List.length h
  rw [List.length_append, List.length_append] at hlen
  simp at hlen

/-- Balanced parentheses stay balanced where a text with balanced ones is put
into the expression. -/
theorem balanced_around (hpre : Crosses false pre (exprParens pre) false)
    (hu : Crosses false u w false) (hw : Balanced w)
    (h : Balanced (exprParens (pre ++ post))) :
    Balanced (exprParens (pre ++ u ++ post)) := by
  have hself := cstring_eq_self hpre.noNul
  have hplain : exprParens (pre ++ post) = exprParens pre ++ parens false (cstring post) := by
    rw [exprParens, cstring_append hpre.noNul, parens_append hpre.mode, exprParens, hself]
  have hput : exprParens (pre ++ u ++ post) =
      exprParens pre ++ w ++ parens false (cstring post) := by
    rw [exprParens, List.append_assoc, cstring_append hpre.noNul, cstring_append hu.noNul,
      parens_append hpre.mode, parens_append hu.mode, hu.parens, exprParens, hself,
      List.append_assoc]
  rw [hplain] at h
  rw [hput]
  exact (balanced_insert hw).mpr h

theorem groupText_crosses (e : Expr .re) : Crosses false (groupText e.text)
    (.opening :: (e.lexemes.flatMap Lexeme.brackets ++ [.closing])) false := by
  have h := Lexeme.crosses_flatMap (.lparen :: (e.lexemes ++ [.rparen]))
  have htext : (Lexeme.lparen :: (e.lexemes ++ [.rparen])).flatMap Lexeme.text =
      groupText e.text := by
    rw [List.flatMap_cons, List.flatMap_append]
    rfl
  have hbrackets : (Lexeme.lparen :: (e.lexemes ++ [.rparen])).flatMap Lexeme.brackets =
      .opening :: (e.lexemes.flatMap Lexeme.brackets ++ [.closing]) := by
    rw [List.flatMap_cons, List.flatMap_append]
    rfl
  rwa [htext, hbrackets] at h

/-- Copies of a group, and an operator behind them, are balanced. -/
theorem copies_crosses (e : Expr .re) (hv : Crosses false v [] false) : ∀ n : Nat,
    ∃ w, Crosses false ((List.replicate n (groupText e.text)).flatten ++ v) w false ∧
      Balanced w := by
  intro n
  induction n with
  | zero => exact ⟨[], hv, .nil⟩
  | succ n ih =>
      rcases ih with ⟨w, hw, hbal⟩
      rw [List.replicate_succ, List.flatten_cons, List.append_assoc]
      exact ⟨_, (groupText_crosses e).append hw, e.balanced.wrap.append hbal⟩

/-- The pieces in front of the group and in it. -/
structure Site (pre r : List CChar) (ps qs : List Piece) : Prop where
  front : ReadAs pre lparenSym ps
  group : ReadAs r rparenSym qs

/-- The pieces of an expression with copies of a group, and what the machine
makes of them. -/
theorem copies_machine (hpre : Crosses false pre (exprParens pre) false)
    (hbal : Balanced (exprParens (pre ++ post))) (hv : Crosses false v [] false)
    (htext : text = pre ++ ((List.replicate (n + 1) (groupText e.text)).flatten ++ v) ++ post)
    (hrun : rxvmCompile Statics.init text = .ok (.ok c, g')) :
    ∃ j rs M, Reads text 0 false rs j false ∧ at' text j = 0 ∧ Machine.start.takeAll rs = some M ∧
      linked M.chained M.frames.level.attach.code = .ok c.exe := by
  have hopened : exprParens text ≠ [] := by
    have hl : ∀ t, cstring (lparenSym :: t) = lparenSym :: cstring t :=
      fun t => @cstring_append [lparenSym] (by decide) t
    have hfirst : text = pre ++ lparenSym :: (e.text ++ [rparenSym] ++
        (List.replicate n (groupText e.text)).flatten ++ v ++ post) := by
      rw [htext, List.replicate_succ, List.flatten_cons]
      simp [groupText]
    rw [hfirst, exprParens, cstring_append hpre.noNul, parens_append hpre.mode, hl, parens_lparen]
    simp
  have hbal' : Balanced (exprParens text) := by
    rcases copies_crosses e hv (n + 1) with ⟨w, hw, hbw⟩
    rw [htext]
    exact balanced_around hpre hw hbw hbal
  rcases rxvmCompile_machine hrun hbal' hopened with ⟨j, rs, M, hrs, hend, htake, _, hlinked⟩
  exact ⟨j, rs, M, hrs, hend, htake, hlinked⟩

/-- An expression with a group that is accepted shows the pieces in front of
the group and in it. -/
theorem exists_site (hpre : Crosses false pre (exprParens pre) false)
    (hbal : Balanced (exprParens (pre ++ post))) (hv : Crosses false v [] false)
    (hrun : rxvmCompile Statics.init
      (pre ++ ((List.replicate 1 (groupText e.text)).flatten ++ v) ++ post) = .ok (.ok c, g')) :
    ∃ ps qs, Site pre e.text ps qs := by
  rcases @copies_machine v pre post _ 0 e c g' hpre hbal hv rfl hrun with
    ⟨j, rs, _, hreads, hend, _⟩
  generalize htext : pre ++ ((List.replicate 1 (groupText e.text)).flatten ++ v) ++ post = text at hreads hend
  have hbody : Crosses false e.text _ false := Lexeme.crosses_flatMap e.lexemes
  have hdrop : text.drop 0 = pre ++ lparenSym :: (e.text ++ rparenSym :: (v ++ post)) := by
    rw [← htext]
    simp [groupText]
  rcases hreads.split_at (Or.inl rfl) hend hdrop hpre.noNul hpre.mode with
    ⟨ps, rs₁, rfl, hps, hrest⟩
  have hopen := drop_of_drop_append hdrop
  have hl : glimpse text (0 + pre.length) false = some (.sign .lparen, 0 + pre.length + 1) :=
    glimpse_symbol hopen rfl (by decide) fun _ _ => rfl
  have hopened : Reads text (0 + pre.length) false [.sign .lparen] (0 + pre.length + 1) false :=
    .single hl
  rcases hopened.rest hend hrest with ⟨rs₂, rfl, hinner⟩
  have hdrop₂ := drop_succ_of_drop hopen
  rcases hinner.split_at (Or.inr rfl) hend hdrop₂ hbody.noNul hbody.mode with
    ⟨qs, rs₃, rfl, hqs, _⟩
  exact ⟨ps, qs, readAs_of_reads hps hdrop, readAs_of_reads hqs hdrop₂⟩

/-- What follows a text is read in the same way in two places. -/
theorem tail_unique (h : Reads text k false T j b) (h' : Reads text' k' false T' j' b')
    (hend : at' text j = 0) (hend' : at' text' j' = 0) (hdrop : text.drop k = text'.drop k') :
    T = T' := by
  have hw : ∀ n, Window text k text' k' n := by
    intro n
    rw [Window, hdrop]
  have hle := h.le
  rcases h.window (hw (j - k + 1)) (by omega) (fun hb => absurd hb Bool.false_ne_true) with
    ⟨i, hreads, hi⟩
  have hat := (hw (j - k + 1)).at (Nat.lt_succ_self (j - k))
  rw [show k + (j - k) = j by omega, show k' + (j - k) = i by omega, hend] at hat
  exact hreads.unique h' hat.symm hend'

/-- The program of an expression with copies of a group, where the pieces are
known. -/
theorem Site.program (h : Site pre e.text ps qs) (hpre : Crosses false pre (exprParens pre) false)
    (hbal : Balanced (exprParens (pre ++ post))) (hv : Crosses false v [] false)
    (hreads : ∀ (text : List CChar) (k : Nat) (rest : List CChar), text.drop k = v ++ rest →
      Reads text k false ops (k + v.length) false)
    (htext : text = pre ++ ((List.replicate (n + 1) (groupText e.text)).flatten ++ v) ++ post)
    (hrun : rxvmCompile Statics.init text = .ok (.ok c, g')) :
    ∃ T j b M₀ M₁ M, Reads text (text.length - post.length) false T j b ∧ at' text j = 0 ∧
      Machine.start.takeAll ps = some M₀ ∧ M₀.charc = none ∧
      M₀.takeAll ((List.replicate (n + 1) (groupPieces qs)).flatten ++ ops) = some M₁ ∧
      M₁.takeAll T = some M ∧ linked M.chained M.frames.level.attach.code = .ok c.exe := by
  rcases copies_machine hpre hbal hv htext hrun with ⟨j, rs, M, hrs, hend, htake, hlinked⟩
  have hfirst : text.drop 0 = pre ++ lparenSym :: (e.text ++ rparenSym ::
      ((List.replicate n (groupText e.text)).flatten ++ v ++ post)) := by
    rw [List.drop_zero, htext, List.replicate_succ, List.flatten_cons]
    simp [groupText]
  -- the pieces up to the text behind the group
  have hfront := h.front text 0 _ hfirst
  have hcopies : text.drop (0 + pre.length) =
      (List.replicate (n + 1) (groupText e.text)).flatten ++ (v ++ post) := by
    rw [Nat.zero_add, htext, List.append_assoc, List.drop_left, List.append_assoc]
  have hmid := (h.group.copies hcopies).append (hreads text _ post (drop_of_drop_append hcopies))
  have hlen : 0 + pre.length + (List.replicate (n + 1) (groupText e.text)).flatten.length +
      v.length = text.length - post.length := by
    rw [htext]
    simp only [List.length_append]
    omega
  rw [hlen] at hmid
  rcases (hfront.append hmid).rest hend hrs with ⟨T, rfl, hT⟩
  rw [List.append_assoc, Machine.takeAll_append] at htake
  rcases Option.bind_eq_some_iff.mp htake with ⟨M₀, htake₀, hrest⟩
  rw [Machine.takeAll_append] at hrest
  rcases Option.bind_eq_some_iff.mp hrest with ⟨M₁, htake₁, htake₂⟩
  refine ⟨T, j, false, M₀, M₁, M, hT, hend, htake₀, ?_, htake₁, htake₂, hlinked⟩
  simpa using Machine.takeAll_inside hfront rfl htake₀

end

/-! ## Equal programs -/

section

variable {pre post u₁ u₂ : List CChar} {n n₁ n₂ : Nat} {e : Expr .re} {ps qs ops : List Piece}
  {p₁ p₂ : Piece} {code₁ code₂ : List Inst → Option (List Inst)} {c₁ c₂ : Compiled}
  {g₁ g₂ : Statics} {M M' : Machine}

/-- A group that is taken has code. -/
theorem groupCode_of_copies (hM : M.charc = none) (hbal : Balanced (qs.flatMap Piece.brackets))
    (h : M.takeAll ((List.replicate (n + 1) (groupPieces qs)).flatten ++ ops) = some M') :
    ∃ c ch, groupCode qs = some (c, ch) := by
  rw [List.replicate_succ, List.flatten_cons, List.append_assoc, Machine.takeAll_append,
    Machine.takeAll_group hM hbal] at h
  rcases Option.bind_eq_some_iff.mp h with ⟨N, hN, _⟩
  rcases Option.map_eq_some_iff.mp hN with ⟨⟨c, ch⟩, hcode, _⟩
  exact ⟨c, ch, hcode⟩

theorem drop_behind {u post : List CChar} : (u ++ post).drop ((u ++ post).length - post.length) =
    post := by
  rw [List.length_append, Nat.add_sub_cancel, List.drop_left]

/-- Two operators behind copies of a group that make the same code of it. -/
theorem Site.operated (h : Site pre e.text ps qs)
    (hpre : Crosses false pre (exprParens pre) false) (hbal : Balanced (exprParens (pre ++ post)))
    (hu₁ : Operates u₁ p₁ code₁) (hu₂ : Operates u₂ p₂ code₂)
    (hcode : ∀ c, (code₁ c).map (copies c n₁ ++ ·) = (code₂ c).map (copies c n₂ ++ ·))
    (h₁ : rxvmCompile Statics.init
      (pre ++ ((List.replicate (n₁ + 1) (groupText e.text)).flatten ++ u₁) ++ post) =
        .ok (.ok c₁, g₁))
    (h₂ : rxvmCompile Statics.init
      (pre ++ ((List.replicate (n₂ + 1) (groupText e.text)).flatten ++ u₂) ++ post) =
        .ok (.ok c₂, g₂)) : c₁.exe = c₂.exe := by
  rcases h.program hpre hbal hu₁.crosses hu₁.reads rfl h₁ with
    ⟨T, j, b, M₀, M₁, M, hT, hend, htake₀, hcharc, htake₁, htake, hlinked⟩
  rcases h.program hpre hbal hu₂.crosses hu₂.reads rfl h₂ with
    ⟨T', j', b', M₀', M₁', M', hT', hend', htake₀', _, htake₁', htake', hlinked'⟩
  have hqs := h.group.balanced (by decide)
  rcases groupCode_of_copies hcharc hqs htake₁ with ⟨c, ch, hgroup⟩
  obtain rfl : M₀ = M₀' := Option.some.inj (htake₀.symm.trans htake₀')
  obtain rfl : T = T' := tail_unique hT hT' hend hend' (drop_behind.trans drop_behind.symm)
  -- the machine stands behind the same code
  have hsame : M₁ = M₁' := by
    rw [Machine.takeAll_operated hcharc hqs hgroup hu₁.operator] at htake₁
    rw [Machine.takeAll_operated hcharc hqs hgroup hu₂.operator] at htake₁'
    have heq := congrArg (Option.map fun d => M₀.behind d ch none) (hcode c)
    rw [Option.map_map, Option.map_map] at heq
    exact Option.some.inj (htake₁.symm.trans (heq.trans htake₁'))
  subst hsame
  obtain rfl : M = M' := Option.some.inj (htake.symm.trans htake')
  exact Except.ok.inj (hlinked.symm.trans hlinked')

/-- An operator that makes copies, and the copies. -/
theorem Site.unrolled (h : Site pre e.text ps qs)
    (hpre : Crosses false pre (exprParens pre) false) (hbal : Balanced (exprParens (pre ++ post)))
    (hu : Operates u₁ p₁ code₁) (hcode : ∀ c, code₁ c = some (copies c (n + 1)))
    (h₁ : rxvmCompile Statics.init
      (pre ++ ((List.replicate 1 (groupText e.text)).flatten ++ u₁) ++ post) = .ok (.ok c₁, g₁))
    (h₂ : rxvmCompile Statics.init
      (pre ++ ((List.replicate (n + 1) (groupText e.text)).flatten ++ []) ++ post) =
        .ok (.ok c₂, g₂)) : c₁.exe = c₂.exe := by
  rcases @Site.program u₁ pre post _ 0 e ps qs [p₁] c₁ g₁ h hpre hbal hu.crosses hu.reads rfl h₁ with
    ⟨T, j, b, M₀, M₁, M, hT, hend, htake₀, hcharc, htake₁, htake, hlinked⟩
  rcases @Site.program [] pre post _ n e ps qs [] c₂ g₂ h hpre hbal (.nil false)
    (fun _ _ _ _ => .done) rfl h₂ with
    ⟨T', j', b', M₀', M₁', M', hT', hend', htake₀', _, htake₁', htake', hlinked'⟩
  have hqs := h.group.balanced (by decide)
  rcases groupCode_of_copies hcharc hqs htake₁ with ⟨c, ch, hgroup⟩
  obtain rfl : M₀ = M₀' := Option.some.inj (htake₀.symm.trans htake₀')
  obtain rfl : T = T' := tail_unique hT hT' hend hend' (drop_behind.trans drop_behind.symm)
  -- the copies stand where the operator has put them, but for the last one
  rw [Machine.takeAll_operated hcharc hqs hgroup hu.operator, hcode, Option.map_some,
    copies_zero, List.nil_append, copies_succ'] at htake₁
  rw [List.append_nil, Machine.takeAll_copies hcharc hqs hgroup] at htake₁'
  obtain rfl := Option.some.inj htake₁
  obtain rfl := Option.some.inj htake₁'
  rcases Machine.takeAll_flushed htake with ⟨N, hN, hsame⟩
  obtain rfl : N = M' := Option.some.inj (hN.symm.trans htake')
  rw [hsame.chained, hsame.level] at hlinked'
  exact Except.ok.inj (hlinked.symm.trans hlinked')

/-- A count is literal unrolling: where the parentheses around the group are
balanced, both texts have the same program. -/
theorem rxvmCompile_unrolled {lhs rhs : List CChar}
    (hplaced : exprParens (pre ++ [lparenSym]) = exprParens pre ++ [.opening])
    (hbal : Balanced (exprParens (pre ++ post))) (h : Unrolling (groupText e.text) lhs rhs)
    (h₁ : rxvmCompile Statics.init (pre ++ lhs ++ post) = .ok (.ok c₁, g₁))
    (h₂ : rxvmCompile Statics.init (pre ++ rhs ++ post) = .ok (.ok c₂, g₂)) :
    c₁.exe = c₂.exe := by
  have hpre := opens_group hplaced
  -- the group with one operator is one copy of it, and the operator
  have hone : ∀ u, groupText e.text ++ u = (List.replicate 1 (groupText e.text)).flatten ++ u := by
    intro u
    rw [List.replicate_one, List.flatten_singleton]
  have hsame : ∀ {u₁ u₂ : List CChar} {p₁ p₂ : Piece} {code₁ code₂ : List Inst → Option (List Inst)},
      Operates u₁ p₁ code₁ → Operates u₂ p₂ code₂ → (∀ c, code₁ c = code₂ c) →
      rxvmCompile Statics.init (pre ++ (groupText e.text ++ u₁) ++ post) = .ok (.ok c₁, g₁) →
      rxvmCompile Statics.init (pre ++ (groupText e.text ++ u₂) ++ post) = .ok (.ok c₂, g₂) →
      c₁.exe = c₂.exe := by
    intro u₁ u₂ p₁ p₂ code₁ code₂ hu₁ hu₂ hcode h₁ h₂
    rw [hone] at h₁ h₂
    rcases exists_site hpre hbal hu₁.crosses h₁ with ⟨ps, qs, hsite⟩
    exact hsite.operated hpre hbal hu₁ hu₂ (fun c => by rw [hcode]) h₁ h₂
  -- by the form of the unrolling
  cases h with
  | times n hn hfits =>
      have hlen : n.value.toNat = n.value.toNat - 1 + 1 := by omega
      have hu := operates_rep (.repN n) hfits
      rw [hone] at h₁
      rw [hlen, ← List.append_nil (List.replicate _ _).flatten] at h₂
      rcases exists_site hpre hbal hu.crosses h₁ with ⟨ps, qs, hsite⟩
      refine hsite.unrolled hpre hbal hu ?_ h₁ h₂
      intro c
      rw [← hlen]
      exact repCode_times c hn
  | more n hn hfits =>
      have hu := operates_rep (.repMore n) hfits
      rw [hone] at h₁
      rw [show (List.replicate (n.value.toNat - 1) (groupText e.text)).flatten ++ groupText e.text =
        (List.replicate (n.value.toNat - 1 + 1) (groupText e.text)).flatten by
          rw [List.replicate_succ', List.flatten_append, List.flatten_singleton]] at h₂
      rcases exists_site hpre hbal hu.crosses h₁ with ⟨ps, qs, hsite⟩
      refine hsite.operated hpre hbal hu operates_one ?_ h₁ h₂
      intro c
      have hcode : repCode c (Reps.repMore n).fields.1 (Reps.repMore n).fields.2 =
          some (copies c (n.value.toNat - 1) ++ oneCode c) := repCode_more c hn
      rw [hcode]
      rfl
  | any z hz =>
      refine hsame (operates_rep (.repMore z) ?_) operates_zero ?_ h₁ h₂
      · show z.value < 2147483648
        omega
      · intro c
        show repCode c z.value repFieldEmpty = _
        rw [hz]
        exact repCode_any c
  | swapped n m hn hm hnfits hmfits =>
      refine hsame (operates_rep (.repRange n m) ⟨hnfits, hmfits⟩)
        (operates_rep (.repRange m n) ⟨hmfits, hnfits⟩) ?_ h₁ h₂
      intro c
      exact repCode_swapped c hn hm
  | less z m hz hm hfits =>
      refine hsame (operates_rep (.repRange z m) ⟨?_, hfits⟩) (operates_rep (.repLess m) hfits) ?_
        h₁ h₂
      · omega
      · intro c
        show repCode c z.value m.value = repCode c repFieldEmpty m.value
        rw [hz]
        exact repCode_less c hm
  | optional z m hz hm =>
      refine hsame (operates_rep (.repRange z m) ⟨?_, ?_⟩) operates_onezero ?_ h₁ h₂
      · omega
      · omega
      · intro c
        show repCode c z.value m.value = _
        rw [hz, hm]
        exact repCode_optional c

end

/-- The count of `{2}`. -/
def two : Integer := { digits := [50], nonempty := by decide, decimal := by decide +kernel }

/-- A character of an expression that is no metacharacter. -/
def letter (c : CChar) (h : isprintable c = true ∧ c ∉ metaSyms) : Expr .elem :=
  .char { c := c, esc := false, escaped := by simp, plain := fun _ => ⟨h.1, Or.inl h.2⟩ }

theorem two_value : two.value = 2 := by decide +kernel

/-- The group with `{2}`, and two copies of it. -/
theorem unrolling_two (g : List CChar) : Unrolling g (g ++ [123, 50, 125]) (g ++ g) := by
  have h := Unrolling.times (g := g) two (by rw [two_value]; decide) (by rw [two_value]; decide)
  rw [two_value] at h
  rwa [show (List.replicate (Int.toNat 2) g).flatten = g ++ g by simp [List.replicate]] at h

/-- The expressions `(a){2}` and `(a)(a)`. -/
theorem rxvmCompile_unrolled_twice : ∃ c₁ c₂ g₁ g₂,
    rxvmCompile Statics.init [40, 97, 41, 123, 50, 125] = .ok (.ok c₁, g₁) ∧
    rxvmCompile Statics.init [40, 97, 41, 40, 97, 41] = .ok (.ok c₂, g₂) ∧ c₁.exe = c₂.exe := by
  have h₁ : ∃ c g, rxvmCompile Statics.init [40, 97, 41, 123, 50, 125] = .ok (.ok c, g) :=
    ⟨_, _, rfl⟩
  have h₂ : ∃ c g, rxvmCompile Statics.init [40, 97, 41, 40, 97, 41] = .ok (.ok c, g) :=
    ⟨_, _, rfl⟩
  have he : ∃ e : Expr .re, e.text = [97] :=
    ⟨.ofSimple (.ofBasic (.ofElem (letter 97 (by decide)))), rfl⟩
  rcases h₁ with ⟨c₁, g₁, h₁⟩
  rcases h₂ with ⟨c₂, g₂, h₂⟩
  rcases he with ⟨e, he⟩
  have hunroll : Unrolling (groupText e.text) [40, 97, 41, 123, 50, 125]
      [40, 97, 41, 40, 97, 41] := by
    rw [he]
    exact unrolling_two (groupText [97])
  exact ⟨c₁, c₂, g₁, g₂, h₁, h₂, @rxvmCompile_unrolled [] [] e c₁ c₂ g₁ g₂ _ _ (by decide)
    (by decide) hunroll h₁ h₂⟩

/-- The group `(a*b)` in `()x(a*b){2})` and in `()x(a*b)(a*b))`: the group that
is closed empty stays on the list, and with the count the `x` is copied, too. -/
theorem group_not_unrolled : ∃ e : Expr .re, ∃ c₁ c₂ g₁ g₂, e.text = [97, 42, 98] ∧
    exprParens ([40, 41, 120] ++ [lparenSym]) = exprParens [40, 41, 120] ++ [.opening] ∧
    Unrolling (groupText e.text) [40, 97, 42, 98, 41, 123, 50, 125]
      [40, 97, 42, 98, 41, 40, 97, 42, 98, 41] ∧
    rxvmCompile Statics.init ([40, 41, 120] ++ [40, 97, 42, 98, 41, 123, 50, 125] ++ [41]) =
      .ok (.ok c₁, g₁) ∧
    rxvmCompile Statics.init ([40, 41, 120] ++ [40, 97, 42, 98, 41, 40, 97, 42, 98, 41] ++ [41]) =
      .ok (.ok c₂, g₂) ∧ c₁.exe ≠ c₂.exe := by
  have he : ∃ e : Expr .re, e.text = [97, 42, 98] :=
    ⟨.ofSimple (.concat (.ofBasic (.zero (letter 97 (by decide))))
      (.ofElem (letter 98 (by decide)))), rfl⟩
  rcases he with ⟨e, he⟩
  refine ⟨e, _, _, _, _, he, by decide, ?_, rfl, rfl, ?_⟩
  · rw [he]
    exact unrolling_two (groupText [97, 42, 98])
  · decide +kernel

end Rxvm
