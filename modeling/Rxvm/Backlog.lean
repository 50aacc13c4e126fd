import Rxvm.Progress
import Rxvm.RunText

/-!
# Rxvm.Backlog — the literals at the start of an expression

What the first loop of `stage1` has read when the token loop starts, and the
counters `compile_simple_backlog` leaves.
-/

namespace Rxvm

/-- `fixtemp` behind the literals, of which `j` come before the ones given: the
first newline sets it, and the next one again while it is still 0. -/
def backlogFix : List CChar → Nat → Int → Int
  | [], _, fixtemp => fixtemp
  | c :: w, j, fixtemp =>
    backlogFix w (j + 1) (if fixtemp = 0 ∧ c = newline then (j : Int) - 1 else fixtemp)

/-- The end of the run the literals at the start are. -/
def backlogEnd (w : List CChar) : Nat :=
  u32 (if backlogFix w 0 0 ≠ 0 then backlogFix w 0 0 else (w.length : Int) - 1)

section

variable {g : Statics} {text w : List CChar} {n k input : Nat} {simple : Option Nat}
  {cp : Context}

theorem Literals.le_length (h : Literals text n k w) (hk : k ≤ text.length) : n ≤ text.length := by
  induction h with
  | done => exact hk
  | plain h0 _ _ ih =>
      have := lt_length_of_at' h0
      exact ih (by omega)
  | escaped _ hnull _ ih =>
      have := lt_length_of_at' hnull
      exact ih (by omega)

/-! ## The first loop -/

/-- From `k` to `n` the lexer reads literals outside a class, and `w` is what
they stand for. -/
inductive LiteralTokens (text : List CChar) (n : Nat) : Nat → List CChar → Prop
  | done : LiteralTokens text n n []
  | literal {k : Nat} {w : List CChar} (l : LexStatics) (hl : l.literal = false)
      (htok : (lex text k l).1 = .literal)
      (rest : LiteralTokens text n (lex text k l).2.1 w) :
      LiteralTokens text n k (at' text (lex text k l).2.2.lp1 :: w)

theorem LiteralTokens.literals (h : LiteralTokens text n k w) : Literals text n k w := by
  induction h with
  | done => exact .done
  | @literal k w l hl htok _ ih =>
      have hat := lex_literalAt hl htok
      generalize (lex text k l).2.1 = j, (lex text k l).2.2.lp1 = lp1 at hat ih ⊢
      cases hat with
      | plain h0 hderef => exact .plain h0 hderef ih
      | escaped hderef hnull => exact .escaped hderef hnull ih

/-- The first loop reads literals up to the first other token. -/
theorem literalLoop_tokens : ∀ {fuel input : Nat} {simple : Option Nat} {cp : Context}
    {input' : Nat} {simple' : Option Nat} {cp' : Context},
    literalLoop text fuel input simple cp = .ok (input', simple', cp') →
    cp.statics.lex.literal = false → (simple = none ∨ simple = some input) →
    ∃ n w l, LiteralTokens text n input w ∧ l.literal = false ∧
      (cp'.tok, input', cp'.statics.lex) = lex text n l ∧
      (simple' = some n ∧ (simple = none → w ≠ []) ∨ simple' = none ∧ simple = none ∧ n = input) := by
  intro fuel
  induction fuel with
  | zero =>
      intro input simple cp input' simple' cp' h
      cases h
  | succ fuel ih =>
      intro input simple cp input' simple' cp' h hl hsimple
      by_cases htok : (lexInto text input cp).2.tok = .literal
      · rw [literalLoop_literal htok] at h
        rcases ih h (lex_literal hl htok).1 (Or.inr rfl) with ⟨n, w, l, hrest, hlit, hlex, hn⟩
        refine ⟨n, _, l, .literal cp.statics.lex hl htok hrest, hlit, hlex, Or.inl ⟨?_, ?_⟩⟩
        · rcases hn with hn | hnone
          · exact hn.1
          · cases hnone.2.1
        · intro _
          exact List.cons_ne_nil _ _
      · rw [literalLoop_other htok] at h
        cases h
        refine ⟨input, [], cp.statics.lex, .done, hl, rfl, ?_⟩
        rcases hsimple with hsimple | hsimple
        · exact Or.inr ⟨hsimple, hsimple, rfl⟩
        · refine Or.inl ⟨hsimple, fun hnone => ?_⟩
          rw [hnone] at hsimple
          cases hsimple

/-! ## The counters -/

theorem backlogLoop_statics (text : List CChar) (simple : Nat) :
    ∀ (fuel orig : Nat) (fixtemp delimit : Int) (cp : Context),
      (backlogLoop text simple fuel orig fixtemp delimit cp).2.2.2.statics = cp.statics := by
  intro fuel
  induction fuel with
  | zero => exact fun _ _ _ _ => rfl
  | succ fuel ih =>
      intro orig fixtemp delimit cp
      unfold backlogLoop
      split
      · rfl
      · exact ih _ _ _ _

/-- The counters of `compile_simple_backlog` behind the literals. `j` literals
come before those given. -/
theorem Literals.backlogLoop_eq (h : Literals text n k w) (hn : n < 2147483648) :
    ∀ {fuel j : Nat} {fixtemp delimit : Int} {cp : Context}, n < k + fuel → j ≤ k → delimit + j = k →
    (backlogLoop text n fuel k fixtemp delimit cp).1 = n ∧
      (backlogLoop text n fuel k fixtemp delimit cp).2.1 = backlogFix w j fixtemp ∧
      (backlogLoop text n fuel k fixtemp delimit cp).2.2.1 + j + w.length = n := by
  induction h with
  | done =>
      intro fuel j fixtemp delimit cp hfuel hjk hj
      obtain ⟨fuel, rfl⟩ : ∃ f, fuel = f + 1 := ⟨fuel - 1, by omega⟩
      rw [backlogLoop, if_pos rfl]
      refine ⟨rfl, rfl, ?_⟩
      show delimit + j + 0 = (n : Int)
      omega
  | @plain k w _ hderef rest ih =>
      intro fuel j fixtemp delimit cp hfuel hjk hj
      have hle := rest.le
      obtain ⟨fuel, rfl⟩ : ∃ f, fuel = f + 1 := ⟨fuel - 1, by omega⟩
      rw [backlogLoop, if_neg (by omega)]
      simp only [if_neg hderef]
      -- `orig - 1 - delimit` counts the literals, not the characters
      have hnum : i32 ((k : Int) - 1 - delimit) = (j : Int) - 1 := by
        rw [i32_eq (by omega) (by omega)]
        omega
      rw [hnum]
      rcases @ih fuel (j + 1) _ delimit _ (by omega) (by omega) (by push_cast; omega) with ⟨h₁, h₂, h₃⟩
      refine ⟨h₁, h₂, ?_⟩
      rw [← h₃, List.length_cons]
      push_cast
      omega
  | @escaped k w hderef _ rest ih =>
      intro fuel j fixtemp delimit cp hfuel hjk hj
      have hle := rest.le
      obtain ⟨fuel, rfl⟩ : ∃ f, fuel = f + 1 := ⟨fuel - 1, by omega⟩
      rw [backlogLoop, if_neg (by omega)]
      simp only [if_pos hderef]
      have hnum : i32 (((k + 1 : Nat) : Int) - 1 - (delimit + 1)) = (j : Int) - 1 := by
        rw [i32_eq (by omega) (by omega)]
        omega
      rw [hnum]
      rcases @ih fuel (j + 1) _ (delimit + 1) _ (by omega) (by omega) (by push_cast; omega) with ⟨h₁, h₂, h₃⟩
      refine ⟨h₁, h₂, ?_⟩
      show (backlogLoop text n fuel (k + 2) _ (delimit + 1) _).2.2.1 + (j : Int) +
        ((w.length + 1 : Nat) : Int) = n
      push_cast at h₃ ⊢
      omega

/-- The counters the token loop starts with when there are literals. -/
theorem compileSimpleBacklog_lfix (h : Literals text n 0 w) (hn : n < 2147483648) (cp : Context) :
    (compileSimpleBacklog text n cp).statics.lfix =
      cp.statics.lfix.setLtempn (backlogEnd w) := by
  rcases @Literals.backlogLoop_eq text w n 0 h hn (n + 1) 0 0 0 cp (by omega) (Nat.le_refl 0) rfl
    with ⟨h₁, h₂, h₃⟩
  have hend : ((backlogLoop text n (n + 1) 0 0 0 cp).1 : Int) - 1 -
      (backlogLoop text n (n + 1) 0 0 0 cp).2.2.1 = (w.length : Int) - 1 := by
    rw [h₁]
    push_cast at h₃
    omega
  unfold compileSimpleBacklog
  simp only
  rw [hend, h₂, backlogLoop_statics]
  rfl

/-- A newline that sets `fixtemp` comes behind as many literals. -/
theorem backlogFix_cases : ∀ (w : List CChar) (j : Nat) (fixtemp : Int),
    backlogFix w j fixtemp = fixtemp ∨
      (j : Int) - 1 ≤ backlogFix w j fixtemp ∧ backlogFix w j fixtemp + 1 < j + w.length := by
  intro w
  induction w with
  | nil => exact fun _ _ => Or.inl rfl
  | cons c w ih =>
      intro j fixtemp
      unfold backlogFix
      rw [List.length_cons]
      rcases ih (j + 1) (if fixtemp = 0 ∧ c = newline then (j : Int) - 1 else fixtemp) with h | h
      · rw [h]
        split
        · right
          push_cast
          omega
        · exact Or.inl rfl
      · right
        push_cast at h ⊢
        omega

/-- The counters delimit literals when the first one is no newline. -/
theorem backlogEnd_le {c : CChar} (hw : (c :: w).length < 2147483648) (hc : c ≠ newline) :
    backlogEnd (c :: w) + 1 ≤ (c :: w).length := by
  have hfix : backlogFix (c :: w) 0 0 = backlogFix w 1 0 := by
    rw [backlogFix, if_neg (by simp [hc])]
  unfold backlogEnd u32
  rw [hfix]
  simp only [List.length_cons] at hw ⊢
  rcases backlogFix_cases w 1 0 with h | h
  · rw [h]
    simp only [ne_eq, not_true_eq_false, if_false]
    omega
  · split <;> omega

/-- The counters delimit literals, or have wrapped. -/
theorem backlogEnd_cases (hw : w.length < 2147483648) :
    backlogEnd w = 4294967295 ∨ backlogEnd w + 1 ≤ w.length := by
  unfold backlogEnd u32
  rcases backlogFix_cases w 0 0 with h | h
  · rw [h]
    simp only [ne_eq, not_true_eq_false, if_false]
    omega
  · split <;> omega

end

end Rxvm
