import Rxvm.Realizes

/-!
# Rxvm.Requires — words that code cannot do without

`Requires` says that every way through code reads a word somewhere. Code that
is put behind or in front keeps it; an operator keeps a word that ends in its
operand if each way through its code starts with a way through the operand.
-/

namespace Rxvm

open Relation Blocks

/-- The word stands in the input between two positions. -/
def Between (w s : List CChar) (i j : Nat) : Prop :=
  ∃ k, i ≤ k ∧ k + w.length ≤ j ∧ w <+: s.drop k

/-- Every way through the code reads the word. -/
def Requires (code : List Inst) (w : List CChar) : Prop :=
  ∀ ml s i j, Flow false ml s code i j → Between w s i j

/-- The counts `process_op_rep` does not call `lfix_dec` for though their
operand can be skipped. -/
def repKeeps (repN repM : Int) : Bool :=
  if repN ≥ 0 ∧ repM ≥ 0 then decide (repN ≠ repM ∧ min repN repM = 0)
  else decide (¬ (repN > 0 ∧ repM = repFieldEmpty) ∧ ¬ (repN = repFieldEmpty ∧ repM ≥ 0) ∧
    ¬ (repN ≥ 0 ∧ repM = repNoField) ∧ ¬ (repN = 0 ∧ repM = repFieldEmpty))

/-- The token is such a count. -/
def opKeeps (text : List CChar) (cp : Context) : Bool :=
  match cp.tok with
  | .rep =>
    let (repN, repM) := parseRep text cp.statics.lex.lp1 cp.statics.lex.lpn
    repKeeps repN repM
  | _ => false

/-- The operator lets its operand be skipped. -/
def opSkips (text : List CChar) (cp : Context) : Bool := opDecs text cp || opKeeps text cp

/-- Every way through `d` starts with a way through `c`. -/
def Starts (c d : List Inst) : Prop :=
  ∀ ml s i j, Flow false ml s d i j → ∃ k, k ≤ j ∧ Flow false ml s c i k

section

variable {icase ml : Bool} {s w w' chars : List CChar} {c d e : List Inst} {i j : Nat}

theorem Flow.le (h : Flow icase ml s c i j) : i ≤ j := NfaPath.pos_le h

/-! ## Words -/

theorem Between.mono {i' j' : Nat} (h : Between w s i j) (hi : i' ≤ i) (hj : j ≤ j') :
    Between w s i' j' := by
  rcases h with ⟨k, hik, hkj, hpre⟩
  exact ⟨k, by omega, by omega, hpre⟩

theorem Between.shorten (h : Between w s i j) (hw : w' <+: w) : Between w' s i j := by
  rcases h with ⟨k, hik, hkj, hpre⟩
  have := hw.length_le
  exact ⟨k, hik, by omega, hw.trans hpre⟩

theorem Requires.shorten (h : Requires c w) (hw : w' <+: w) : Requires c w' :=
  fun ml s i j hflow => (h ml s i j hflow).shorten hw

theorem requires_nil (c : List Inst) : Requires c [] :=
  fun _ _ i _ hflow => ⟨i, Nat.le_refl i, hflow.le, List.nil_prefix⟩

/-! ## Code in front and behind -/

theorem Requires.append (h : Requires c w) (hc : Closed c) (hd : Closed d) :
    Requires (c ++ d) w := by
  intro ml s i j hflow
  rcases (flow_append hc hd).mp hflow with ⟨k, hck, hdk⟩
  exact (h ml s i k hck).mono (Nat.le_refl i) hdk.le

theorem Requires.behind (h : Requires d w) (hc : Closed c) (hd : Closed d) :
    Requires (c ++ d) w := by
  intro ml s i j hflow
  rcases (flow_append hc hd).mp hflow with ⟨k, hck, hdk⟩
  exact (h ml s k j hdk).mono hck.le (Nat.le_refl j)

/-- A word that ends in an operand is required with an operator that cannot
skip it. -/
theorem Requires.starts (h : Requires (c ++ e) w) (hstarts : Starts e d) (hc : Closed c)
    (he : Closed e) (hd : Closed d) : Requires (c ++ d) w := by
  intro ml s i j hflow
  rcases (flow_append hc hd).mp hflow with ⟨k, hck, hdk⟩
  rcases hstarts ml s k j hdk with ⟨l, hlj, hel⟩
  exact (h ml s i l ((flow_append hc he).mpr ⟨k, hck, hel⟩)).mono (Nat.le_refl i) hlj

/-! ## Characters -/

theorem flow_char (ch : CChar) : Flow false ml s [.opChar ch] i j ↔
    j = i + 1 ∧ s[i]? = some ch := by
  refine (flow_atom rfl).trans ?_
  have heats : ∀ x, (Inst.opChar ch).eats false x = true ↔ x = ch := by
    intro x
    simp [Inst.eats, charMatch]
  refine (eats_iff heats).trans ?_
  simp [Expr.Eats]

theorem closed_chars (chars : List CChar) : Closed (chars.map .opChar) := by
  refine Atoms.closed ?_
  intro inst hinst
  rcases List.mem_map.mp hinst with ⟨ch, _, rfl⟩
  rfl

/-- The code of characters reads them. -/
theorem flow_chars : Flow false ml s (chars.map .opChar) i j →
    j = i + chars.length ∧ chars <+: s.drop i := by
  induction chars generalizing i with
  | nil =>
      intro h
      exact ⟨(flow_nil.mp h).symm, List.nil_prefix⟩
  | cons ch chars ih =>
      intro h
      rcases (flow_append (closed_chars [ch]) (closed_chars chars)).mp h with ⟨k, hk, hrest⟩
      rcases (flow_char ch).mp hk with ⟨rfl, hget⟩
      rcases ih hrest with ⟨rfl, hpre⟩
      refine ⟨by rw [List.length_cons]; omega, ?_⟩
      rw [List.drop_eq_getElem?_toList_append, hget]
      exact (List.prefix_cons_inj ch).mpr hpre

theorem requires_chars (chars : List CChar) : Requires (chars.map .opChar) chars := by
  intro ml s i j hflow
  rcases flow_chars hflow with ⟨rfl, hpre⟩
  exact ⟨i, Nat.le_refl i, Nat.le_refl _, hpre⟩

/-! ## Operators -/

theorem Starts.refl (c : List Inst) : Starts c c :=
  fun _ _ _ j hflow => ⟨j, Nat.le_refl j, hflow⟩

theorem Starts.append (h : Starts e c) (hc : Closed c) (hd : Closed d) : Starts e (c ++ d) := by
  intro ml s i j hflow
  rcases (flow_append hc hd).mp hflow with ⟨k, hck, hdk⟩
  rcases h ml s i k hck with ⟨l, hlk, hel⟩
  exact ⟨l, hlk.trans hdk.le, hel⟩

theorem starts_oneCode (he : Closed e) (hpos : 0 < e.length) : Starts e (oneCode e) := by
  intro ml s i j hflow
  rw [flow_oneCode he hpos, TransGen.head'_iff] at hflow
  rcases hflow with ⟨k, hek, hrest⟩
  refine ⟨k, ?_, hek⟩
  induction hrest with
  | refl => exact Nat.le_refl k
  | tail _ hstep ih => exact ih.trans (Flow.le hstep)

theorem starts_copies (he : Closed e) (n : Nat) : Starts e (copies e (n + 1)) := by
  rw [copies_succ]
  exact (Starts.refl e).append he (closed_copies he n)

theorem starts_repCode (he : Closed e) (hpos : 0 < e.length) {repN repM : Int}
    (h : repCode e repN repM = some c) (hdecs : repDecs repN repM = false)
    (hkeeps : repKeeps repN repM = false) : Starts e c := by
  have hcopies : ∀ n : Nat, 0 < n → Starts e (copies e n) := by
    intro n hn
    obtain ⟨n, rfl⟩ : ∃ m, n = m + 1 := ⟨n - 1, by omega⟩
    exact starts_copies he n
  unfold repDecs at hdecs
  unfold repKeeps at hkeeps
  unfold repCode at h
  split_ifs at h hkeeps with hrange hmore hless hn hn0 hzero
  · simp only [decide_eq_false_iff_not] at hkeeps
    unfold repRangeCode at h
    split_ifs at h with heq hn0 hone
    · obtain rfl := Option.some.inj h
      exact starts_copies he _
    · omega
    · obtain rfl := Option.some.inj h
      exact (hcopies _ (by omega)).append (closed_copies he _) (closed_optionalCode he _)
  · obtain rfl := Option.some.inj h
    rw [repMoreCode_eq]
    cases (repN - 1).toNat with
    | zero => exact starts_oneCode he hpos
    | succ n => exact (starts_copies he n).append (closed_copies he _) (closed_oneCode he hpos)
  · simp [hless] at hdecs
  · obtain rfl := Option.some.inj h
    exact starts_copies he _
  · simp [hzero] at hdecs
  · simp only [decide_eq_false_iff_not] at hkeeps
    exact absurd ⟨hmore, hless, hn, hzero⟩ hkeeps

/-- What an operator other than the alternation appends to the target. -/
theorem opResult_code {text : List CChar} {cp : Context} {s t : Stk} (he : Closed e)
    (hpos : 0 < e.length) (hop : cp.tok.isop = true) (halt : cp.tok ≠ .alt)
    (h : opResult text cp s e = some t) :
    ∃ c, t = s.append c ∧ Closed c ∧ (opSkips text cp = false → Starts e c) := by
  unfold opResult at h
  unfold opSkips opDecs opKeeps
  cases htok : cp.tok with
  | rep =>
      simp only [htok] at h ⊢
      rcases Option.map_eq_some_iff.mp h with ⟨c, hc, rfl⟩
      refine ⟨c, rfl, closed_repCode he hpos hc, ?_⟩
      intro hskips
      rcases Bool.or_eq_false_iff.mp hskips with ⟨hdecs, hkeeps⟩
      exact starts_repCode he hpos hc hdecs hkeeps
  | one =>
      simp only [htok] at h
      obtain rfl := Option.some.inj h
      exact ⟨_, rfl, closed_oneCode he hpos, fun _ => starts_oneCode he hpos⟩
  | zero =>
      simp only [htok] at h
      obtain rfl := Option.some.inj h
      exact ⟨_, rfl, closed_zeroCode he hpos, by simp⟩
  | onezero =>
      simp only [htok] at h
      obtain rfl := Option.some.inj h
      exact ⟨_, rfl, closed_onezeroCode he, by simp⟩
  | alt => exact absurd htok halt
  | _ =>
      rw [htok] at hop
      cases hop

end

end Rxvm
