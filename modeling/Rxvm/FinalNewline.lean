import Rxvm.Leftmost
import Rxvm.Words

/-!
# Rxvm.FinalNewline — `$` in front of a newline at the end of the input

Without `RXVM_MULTILINE` the machine takes `$` at the end of the input only. So
on an input that ends with a newline, an expression that ends with `$` and reads
no newline matches behind the newline, if it matches the empty substring, and
nowhere else.
-/

namespace Rxvm

open Relation

/-- The expression `(r)$`. -/
def Expr.dollar (r : Expr .re) : Expr .re :=
  .ofSimple (.concat (.ofBasic (.ofElem (.group r))) (.ofElem .eol))

/-- No substring that the expression matches has the character. -/
def Expr.NeverReads (r : Expr .re) (c : CChar) : Prop :=
  ∀ s i j, NoNul s → r.Matches false s i j → ∀ k, i ≤ k → k < j → at' s k ≠ c

section

variable {r : Expr .re} {s : List CChar} {exe : List Inst}

theorem Expr.dollar_text (r : Expr .re) :
    r.dollar.text = lparenSym :: (r.text ++ [rparenSym, eolSym]) := by
  simp [Expr.dollar, Expr.text, Expr.lexemes, Lexeme.text]

theorem Expr.dollar_admissible (h : r.Admissible) : r.dollar.Admissible := by
  intro x hx
  have hx' : x = .lparen ∨ x ∈ r.lexemes ∨ x = .rparen ∨ x = .eol := by
    simpa [Expr.dollar, Expr.lexemes] using hx
  rcases hx' with rfl | hx | rfl | rfl
  · trivial
  · exact h x hx
  · trivial
  · trivial

theorem Expr.dollar_not_literalOnly : ¬ r.dollar.LiteralOnly := by
  intro h
  have := h .lparen (by simp [Expr.dollar, Expr.lexemes])
  cases this

/-- A match of `(r)$` ends at the end of the input. -/
theorem Expr.matches_dollar {i j : Nat} :
    r.dollar.Matches false s i j ↔ j = s.length ∧ r.Matches false s i s.length := by
  constructor
  · rintro ⟨k, hr, rfl, hend | ⟨h, _⟩⟩
    · exact ⟨hend, hend ▸ hr⟩
    · cases h
  · rintro ⟨rfl, hr⟩
    exact ⟨s.length, hr, rfl, Or.inl rfl⟩

/-- What no match has, no lexeme reads. -/
theorem Expr.NeverReads.lexemes {c : CChar} (h : r.NeverReads c) (hadm : r.Admissible)
    (hanchors : ∀ x ∈ r.lexemes, x ≠ .sol ∧ x ≠ .eol) (hc : c ≠ 0) :
    ∀ x ∈ r.lexemes, ∀ inst, x.inst = some inst → inst.eats false c = false := by
  intro x hx inst hinst
  by_contra hreads
  rcases (r.spelled hadm hanchors hc).reads x hx inst hinst (by simpa using hreads) with
    ⟨w, ⟨hnul, hw⟩, hmem⟩
  have hmatch := hw [] []
  rw [List.append_nil, List.nil_append] at hmatch
  rcases List.getElem_of_mem hmem with ⟨k, hk, hget⟩
  refine h w 0 w.length hnul hmatch k (Nat.zero_le k) hk ?_
  rw [← hget]
  simp [at', hk]

/-! ## A newline that nothing reads -/

/-- No path gets over the newline. -/
theorem NfaPath.before_newline (hno : ∀ inst ∈ exe, inst.eats false newline = false)
    {a b : Nat × Nat} (h : NfaPath false false (s ++ [newline]) exe a b) (ha : a.2 ≤ s.length) :
    b.2 ≤ s.length := by
  induction h with
  | refl => exact ha
  | tail _ hstep ih =>
      cases hstep with
      | @eat ip p i hi hp he =>
          have hp' : p ≤ s.length := ih
          show p + 1 ≤ s.length
          by_contra hlast
          obtain rfl : p = s.length := by omega
          have hat : at' (s ++ [newline]) s.length = newline := by simp [at']
          rw [hat, hno i (List.mem_of_getElem? hi)] at he
          cases he
      | sol => exact ih
      | eol => exact ih
      | branchX => exact ih
      | branchY => exact ih
      | jmp => exact ih

/-- So an attempt in front of it fails, and another one follows. -/
theorem exists_nextAttempt (hno : ∀ inst ∈ exe, inst.eats false newline = false) {i : Nat}
    (hi : i ≤ s.length) (hfails : ∀ p, ¬ Matched false false (s ++ [newline]) exe i p) :
    ∃ i', NextAttempt false false (s ++ [newline]) exe i i' := by
  have hdead : ∀ v, ¬ Reach false false (s ++ [newline]) exe i (s.length + 1) v := by
    intro v hv
    have := hv.before_newline hno hi
    omega
  -- the last position the attempt gets to
  obtain ⟨q, hiq, hq, halive, hend⟩ : ∃ q, i ≤ q ∧ q ≤ s.length ∧
      (∃ v, Reach false false (s ++ [newline]) exe i q v) ∧
      ∀ v, ¬ Reach false false (s ++ [newline]) exe i (q + 1) v := by
    by_contra hnone
    have hall : ∀ d, i + d ≤ s.length + 1 →
        ∃ v, Reach false false (s ++ [newline]) exe i (i + d) v := by
      intro d
      induction d with
      | zero => exact fun _ => ⟨0, .refl⟩
      | succ d ih =>
          intro hd
          by_contra hstop
          exact hnone ⟨i + d, by omega, by omega, ih (by omega), fun v hv => hstop ⟨v, hv⟩⟩
    rcases hall (s.length + 1 - i) (by omega) with ⟨v, hv⟩
    rw [show i + (s.length + 1 - i) = s.length + 1 by omega] at hv
    exact hdead v hv
  exact ⟨_, hfails, q, hiq, by simp; omega, halive, hend, rfl⟩

/-- In the end the search makes an attempt behind the newline. -/
theorem attempted_behind_newline (hno : ∀ inst ∈ exe, inst.eats false newline = false)
    (hfails : ∀ i ≤ s.length, ∀ p, ¬ Matched false false (s ++ [newline]) exe i p) :
    Attempted false false (s ++ [newline]) exe (s.length + 1) := by
  have hrun : ∀ (d i : Nat), s.length + 1 - i = d → Attempted false false (s ++ [newline]) exe i →
      Attempted false false (s ++ [newline]) exe (s.length + 1) := by
    intro d
    induction d using Nat.strong_induction_on with
    | _ d ih =>
    intro i hd hat
    have hle := hat.le_length
    rw [List.length_append, List.length_singleton] at hle
    by_cases hi : i = s.length + 1
    · rw [← hi]
      exact hat
    · rcases exists_nextAttempt hno (by omega) (hfails i (by omega)) with ⟨i', hnext⟩
      have hlt := hnext.lt
      exact ih _ (by omega) i' rfl (hat.tail hnext)
  exact hrun _ 0 rfl .refl

/-! ## Two searches -/

/-- A search with flags 0 fails if no attempt matches, and reports the end of a
match otherwise. -/
theorem rxvmSearch_attempts {compiled : Compiled} (hprogram : compiled.simple = none)
    (hwf : WellFormed compiled.exe) (hs : NoNul s) :
    ∃ result, rxvmSearch compiled s {} = some result ∧
      ((result = { ret := 0, start := none, fin := none } ∧
          ∀ i, Attempted false false s compiled.exe i → ∀ j, ¬ Accepts false false s compiled.exe i j) ∨
        ∃ i j : Nat, Attempted false false s compiled.exe i ∧
          Accepts false false s compiled.exe i j ∧ result.fin = some ((j : Int) - 1)) := by
  rcases vmExecute_search hwf hs {} rfl with ⟨res, hres, hout⟩
  refine ⟨searchResult res.2.tm, ?_, ?_⟩
  · unfold rxvmSearch
    simp only [hprogram, hres]
    rfl
  · rcases hout with ⟨i, j, hpath, hm, _, _, hme⟩ | ⟨h0, hnone⟩
    · right
      refine ⟨i, j, hpath, hm, ?_⟩
      rw [searchResult, if_neg (by omega), hme]
      apply congrArg some
      push_cast
      omega
    · left
      exact ⟨searchResult_missing h0, fun i hi j hj => hnone i j hi hj⟩

/-- On an input with a newline behind it, `(r)$` finds the empty substring behind
the newline if `r` matches that, and nothing otherwise. -/
theorem attempts_newline (hno : ∀ inst ∈ exe, inst.eats false newline = false)
    (haccepts : ∀ i j, Accepts false false (s ++ [newline]) exe i j ↔
      j = s.length + 1 ∧ r.Matches false (s ++ [newline]) i (s.length + 1)) :
    (∀ i, Attempted false false (s ++ [newline]) exe i →
      ∀ j, ¬ Accepts false false (s ++ [newline]) exe i j) ↔
      ¬ r.Matches false (s ++ [newline]) (s.length + 1) (s.length + 1) := by
  have hfails : ∀ i ≤ s.length, ∀ p, ¬ Matched false false (s ++ [newline]) exe i p := by
    intro i hi p hm
    rcases (haccepts i p).mp hm with ⟨rfl, _⟩
    rcases hm with ⟨v, _, hreach⟩
    have := hreach.before_newline hno hi
    omega
  constructor
  · intro hnone hempty
    exact hnone _ (attempted_behind_newline hno hfails) _ ((haccepts _ _).mpr ⟨rfl, hempty⟩)
  · intro hempty i hat j hm
    have hle := hat.le_length
    rw [List.length_append, List.length_singleton] at hle
    rcases (haccepts i j).mp hm with ⟨rfl, hr⟩
    by_cases hi : i ≤ s.length
    · exact hfails i hi _ hm
    · obtain rfl : i = s.length + 1 := by omega
      exact hempty hr

end

/-- `(r)$` gives the same result on an input and on the input followed by a
newline if and only if it finds no match in either: `r` does not match the empty
substring, and no attempt that the search makes on the input is one of a match
up to the end. -/
theorem rxvmSearch_finalNewline_iff (r : Expr .re) (hadm : r.Admissible)
    (hanchors : ∀ x ∈ r.lexemes, x ≠ .sol ∧ x ≠ .eol) (hnl : r.NeverReads newline)
    {s : List CChar} (hs : NoNul s) :
    ∃ compiled g', rxvmCompile Statics.init r.dollar.text = .ok (.ok compiled, g') ∧
      ((∃ result, rxvmSearch compiled s {} = some result ∧
          rxvmSearch compiled (s ++ [newline]) {} = some result) ↔
        ¬ r.Matches false (s ++ [newline]) (s.length + 1) (s.length + 1) ∧
          ∀ i, Attempted false false s compiled.exe i → ¬ r.Matches false s i s.length) := by
  have hdollar := Expr.dollar_admissible hadm
  rcases r.dollar.compiled hdollar Expr.dollar_not_literalOnly with
    ⟨compiled, g', code, hrun, hprogram, hcode, hflow⟩
  have haccepts : ∀ ml s i j, Accepts false ml s compiled.exe i j ↔ r.dollar.Matches ml s i j :=
    fun ml s i j => (hcode false ml s i j).trans (hflow ml s i j)
  refine ⟨compiled, g', hrun, ?_⟩
  have hwf := rxvmCompile_wellFormed hrun hprogram
  have hs' : NoNul (s ++ [newline]) := forall_mem_append hs (by simp; decide)
  -- no instruction of the program reads a newline
  have hno : ∀ inst ∈ compiled.exe, inst.eats false newline = false := by
    refine rxvmCompile_lexemes hdollar Expr.dollar_not_literalOnly hrun
      ⟨fun _ _ => rfl, fun _ => rfl⟩ rfl ?_
    intro x hx inst hinst
    have hx' : x = .lparen ∨ x ∈ r.lexemes ∨ x = .rparen ∨ x = .eol := by
      simpa [Expr.dollar, Expr.lexemes] using hx
    rcases hx' with rfl | hx | rfl | rfl
    · cases hinst
    · exact hnl.lexemes hadm hanchors (by decide) x hx inst hinst
    · cases hinst
    · cases hinst
      rfl
  have haccepts' : ∀ i j, Accepts false false (s ++ [newline]) compiled.exe i j ↔
      j = s.length + 1 ∧ r.Matches false (s ++ [newline]) i (s.length + 1) := by
    intro i j
    rw [haccepts, Expr.matches_dollar, List.length_append, List.length_singleton]
  have hnone : (∀ i, Attempted false false s compiled.exe i →
      ∀ j, ¬ Accepts false false s compiled.exe i j) ↔
      ∀ i, Attempted false false s compiled.exe i → ¬ r.Matches false s i s.length := by
    simp only [haccepts, Expr.matches_dollar]
    exact ⟨fun h i hi hr => h i hi _ ⟨rfl, hr⟩, fun h i hi j hj => h i hi hj.2⟩
  rw [← attempts_newline hno haccepts', ← hnone]
  rcases rxvmSearch_attempts hprogram hwf hs with ⟨result, hresult, hfound⟩
  rcases rxvmSearch_attempts hprogram hwf hs' with ⟨result', hresult', hfound'⟩
  constructor
  · rintro ⟨res, hres, hres'⟩
    obtain rfl := Option.some.inj (hresult.symm.trans hres)
    obtain rfl := Option.some.inj (hresult'.symm.trans hres')
    -- two matches have different ends
    rcases hfound with ⟨heq, hmiss⟩ | ⟨i, j, _, hm, hfin⟩
    · rcases hfound' with ⟨_, hmiss'⟩ | ⟨i', j', _, _, hfin'⟩
      · exact ⟨hmiss', hmiss⟩
      · rw [heq] at hfin'
        cases hfin'
    · obtain rfl := (Expr.matches_dollar.mp ((haccepts _ _ _ _).mp hm)).1
      rcases hfound' with ⟨heq', _⟩ | ⟨i', j', _, hm', hfin'⟩
      · rw [heq'] at hfin
        cases hfin
      · obtain rfl := ((haccepts' _ _).mp hm').1
        have := Option.some.inj (hfin.symm.trans hfin')
        omega
  · rintro ⟨hmiss', hmiss⟩
    rcases hfound with ⟨rfl, _⟩ | ⟨i, j, hat, hm, _⟩
    · rcases hfound' with ⟨rfl, _⟩ | ⟨i, j, hat, hm, _⟩
      · exact ⟨_, hresult, hresult'⟩
      · exact absurd hm (hmiss' i hat j)
    · exact absurd hm (hmiss i hat j)

/-- The expression `a`. -/
theorem exists_char_a : ∃ r : Expr .re, r.text = [97] ∧ r.Admissible ∧
    (∀ x ∈ r.lexemes, x ≠ .sol ∧ x ≠ .eol) ∧ r.NeverReads newline ∧
      ∀ s i j, r.Matches false s i j → j = i + 1 ∧ s[i]? = some 97 := by
  obtain ⟨l, hl, hesc⟩ : ∃ l : Literal false, l.c = 97 ∧ l.esc = false :=
    ⟨⟨97, false, by simp, fun _ => ⟨by decide, Or.inl (by decide +kernel)⟩⟩, rfl, rfl⟩
  have hmatches : ∀ s i j, (Expr.ofSimple (.ofBasic (.ofElem (.char l)))).Matches false s i j →
      j = i + 1 ∧ s[i]? = some 97 := by
    rintro s i j ⟨hj, x, hx, hxl⟩
    exact ⟨hj, by rw [hx, hxl, hl]⟩
  refine ⟨.ofSimple (.ofBasic (.ofElem (.char l))), ?_, ?_, ?_, ?_, ?_⟩
  · simp [Expr.text, Expr.lexemes, Lexeme.text, Literal.text, hl, hesc]
  · intro x hx
    rw [List.mem_singleton.mp hx]
    trivial
  · intro x hx
    rw [List.mem_singleton.mp hx]
    simp
  · intro s i j _ hm k hik hkj
    rcases hmatches s i j hm with ⟨rfl, hx⟩
    obtain rfl : k = i := by omega
    rw [at', List.getD_eq_getElem?_getD, hx]
    decide
  · exact hmatches

/-- On `b`, `(a)$` gives what it gives on `b` and a newline. -/
theorem rxvmSearch_finalNewline_missing : ∃ r : Expr .re, r.text = [97] ∧ ∃ compiled g',
    rxvmCompile Statics.init r.dollar.text = .ok (.ok compiled, g') ∧ ∃ result,
      rxvmSearch compiled [98] {} = some result ∧
        rxvmSearch compiled ([98] ++ [newline]) {} = some result := by
  rcases exists_char_a with ⟨r, htext, hadm, hanchors, hnl, hmatches⟩
  rcases rxvmSearch_finalNewline_iff r hadm hanchors hnl (show NoNul [98] by decide) with
    ⟨compiled, g', hrun, hiff⟩
  refine ⟨r, htext, compiled, g', hrun, hiff.mpr ⟨?_, ?_⟩⟩
  · intro hm
    have := (hmatches _ _ _ hm).1
    omega
  · intro i _ hm
    rcases hmatches _ _ _ hm with ⟨hi, hb⟩
    obtain rfl : i = 0 := by simpa using hi.symm
    cases hb

/-- On `a` followed by a newline `(a)$` has no match. -/
theorem rxvmSearch_finalNewline_found : ∃ r : Expr .re, r.text = [97] ∧ r.Admissible ∧
    (∀ x ∈ r.lexemes, x ≠ .sol ∧ x ≠ .eol) ∧ r.NeverReads newline ∧ ∃ compiled g',
      rxvmCompile Statics.init r.dollar.text = .ok (.ok compiled, g') ∧
        rxvmSearch compiled [97] {} = some { ret := 1, start := some 0, fin := some 0 } ∧
        rxvmSearch compiled [97, newline] {} = some { ret := 0, start := none, fin := none } := by
  rcases exists_char_a with ⟨r, htext, hadm, hanchors, hnl, _⟩
  refine ⟨r, htext, hadm, hanchors, hnl, ?_⟩
  rw [Expr.dollar_text, htext]
  exact ⟨_, _, rfl, rfl, rfl⟩

end Rxvm
