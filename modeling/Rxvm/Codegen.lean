import Rxvm.MeaningSpec

/-!
# Rxvm.Codegen — the code of an expression, by its derivation

The compiler reads an expression once, from left to right, and moves code
between its lists as the operators come. What comes out is the code that the
derivation of the expression says: the code of the parts, put together at each
rule of the grammar. So the number of instructions is known beforehand.
-/

namespace Rxvm

/-! ## Code and size -/

/-- The number of instructions a count makes of an operand of `size`
instructions. -/
def Reps.size (size : Nat) : Reps → Nat
  | .repN n => n.value.toNat * size
  | .repRange n m =>
    (min n.value m.value).toNat * size + (size + 1) * (max n.value m.value - min n.value m.value).toNat
  | .repMore n => if n.value = 0 then size + 2 else n.value.toNat * size + 1
  | .repLess m => (size + 1) * m.value.toNat

namespace Expr

/-- The code of an expression. An alternative stands in front of the jump over
the next one, an operator behind its operand or around it. -/
def code : {n : NonTerm} → Expr n → List Inst
  | _, ofSimple e => e.code
  | _, union e f => forkCode e.code f.code
  | _, ofBasic e => e.code
  | _, concat e f => e.code ++ f.code
  | _, ofElem e => e.code
  | _, zero e => zeroCode e.code
  | _, one e => oneCode e.code
  | _, onezero e => onezeroCode e.code
  | _, rep e reps => (reps.code e.code).getD []
  | _, group e => e.code
  | _, any => [.opAny]
  | _, eol => [.opEol]
  | _, sol => [.opSol]
  | _, char l => [.opChar l.c]
  | _, set negated item items => [Lexeme.setInst negated (item :: items)]

/-- The number of instructions of an expression. -/
def size : {n : NonTerm} → Expr n → Nat
  | _, ofSimple e => e.size
  | _, union e f => e.size + f.size + 2
  | _, ofBasic e => e.size
  | _, concat e f => e.size + f.size
  | _, ofElem e => e.size
  | _, zero e => e.size + 2
  | _, one e => e.size + 1
  | _, onezero e => e.size + 1
  | _, rep e reps => reps.size e.size
  | _, group e => e.size
  | _, any => 1
  | _, eol => 1
  | _, sol => 1
  | _, char _ => 1
  | _, set _ _ _ => 1

end Expr

section

variable {e : List Inst}

theorem length_forkCode (c d : List Inst) : (forkCode c d).length = c.length + d.length + 2 := by
  simp only [forkCode, List.length_append, List.length_cons]
  omega

theorem length_zeroCode (e : List Inst) : (zeroCode e).length = e.length + 2 := by
  simp [zeroCode]

theorem length_oneCode (e : List Inst) : (oneCode e).length = e.length + 1 := by
  simp [oneCode]

theorem length_onezeroCode (e : List Inst) : (onezeroCode e).length = e.length + 1 := by
  simp [onezeroCode]

theorem length_repNCode {n : Int} (hn : 0 < n) : (repNCode e n).length = n.toNat * e.length := by
  rw [repNCode, length_copies]
  congr 1
  omega

/-- A count that is admissible makes code of the size it says. -/
theorem Reps.length_code {reps : Reps} (hadm : reps.Admissible) :
    ∃ c, reps.code e = some c ∧ c.length = reps.size e.length := by
  have hno : repNoField = -1 := rfl
  have hempty : repFieldEmpty = -2 := rfl
  -- the cases of `repCode`, in the order of the source
  cases reps with
  | repN n =>
      have hn := n.value_nonneg
      have hne := hadm.1
      refine ⟨repNCode e n.value, ?_, length_repNCode (by omega)⟩
      show repCode e n.value repNoField = _
      unfold repCode
      rw [if_neg (by omega), if_neg (by omega), if_neg (by omega), if_pos ⟨hn, rfl⟩, if_neg hne]
  | repRange n m =>
      have hn := n.value_nonneg
      have hm := m.value_nonneg
      have hne := hadm.1
      have hcode : (Reps.repRange n m).code e = repRangeCode e n.value m.value := by
        show repCode e n.value m.value = _
        unfold repCode
        rw [if_pos ⟨hn, hm⟩]
      rw [hcode]
      unfold repRangeCode
      by_cases heq : n.value = m.value
      · rw [if_pos heq, if_neg (by omega)]
        refine ⟨_, rfl, ?_⟩
        rw [length_repNCode (by omega), Reps.size, ← heq]
        simp
      · rw [if_neg heq]
        by_cases hone : (n.value = 0 ∧ m.value = 1) ∨ (n.value = 1 ∧ m.value = 0)
        · -- the operator `?` is the same as at most one copy
          rw [if_pos hone]
          refine ⟨_, rfl, ?_⟩
          have hmin : min n.value m.value = 0 := by omega
          have hmax : max n.value m.value = 1 := by omega
          rw [length_onezeroCode, Reps.size, hmin, hmax]
          simp
        · rw [if_neg hone]
          refine ⟨_, rfl, ?_⟩
          rw [List.length_append, length_copies, length_optionalCode, Reps.size]
  | repMore n =>
      have hn := n.value_nonneg
      by_cases hzero : n.value = 0
      · refine ⟨zeroCode e, ?_, ?_⟩
        · show repCode e n.value repFieldEmpty = _
          unfold repCode
          rw [if_neg (by omega), if_neg (by omega), if_neg (by omega), if_neg (by omega),
            if_pos ⟨hzero, rfl⟩]
        · rw [length_zeroCode, Reps.size, if_pos hzero]
      · refine ⟨repMoreCode e n.value, ?_, ?_⟩
        · show repCode e n.value repFieldEmpty = _
          unfold repCode
          rw [if_neg (by omega), if_pos ⟨by omega, rfl⟩]
        · have hn' : (n.value - 1).toNat + 1 = n.value.toNat := by omega
          rw [repMoreCode, List.length_append, length_copies, Reps.size, if_neg hzero, hn']
          rfl
  | repLess m =>
      have hm := m.value_nonneg
      have hne := hadm.1
      have hcode : (Reps.repLess m).code e = repLessCode e m.value := by
        show repCode e repFieldEmpty m.value = _
        unfold repCode
        rw [if_neg (by omega), if_neg (by omega), if_pos ⟨rfl, hm⟩]
      rw [hcode]
      unfold repLessCode
      rw [if_neg hne]
      by_cases hone : m.value = 1
      · rw [if_pos hone]
        refine ⟨_, rfl, ?_⟩
        rw [length_onezeroCode, Reps.size, hone]
        simp
      · rw [if_neg hone]
        exact ⟨_, rfl, by rw [length_optionalCode, Reps.size]⟩

end

/-- An admissible count keeps something of its operand. -/
theorem Reps.size_pos {reps : Reps} (hadm : reps.Admissible) {size : Nat} (h : 0 < size) :
    0 < reps.size size := by
  cases reps with
  | repN n =>
      have hn := n.value_nonneg
      have hne := hadm.1
      exact Nat.mul_pos (by omega) h
  | repRange n m =>
      have hn := n.value_nonneg
      have hm := m.value_nonneg
      have hne := hadm.1
      by_cases hmin : min n.value m.value = 0
      · have hpos : 0 < (max n.value m.value - min n.value m.value).toNat := by omega
        exact Nat.add_pos_right _ (Nat.mul_pos (Nat.succ_pos size) hpos)
      · exact Nat.add_pos_left (Nat.mul_pos (by omega) h) _
  | repMore n =>
      show 0 < if n.value = 0 then size + 2 else n.value.toNat * size + 1
      split_ifs
      · exact Nat.succ_pos _
      · exact Nat.succ_pos _
  | repLess m =>
      have hm := m.value_nonneg
      have hne := hadm.1
      exact Nat.mul_pos (Nat.succ_pos size) (by omega)

section

variable {n : NonTerm}

/-- The code of an expression has the size of the expression, and there is
some. -/
theorem Expr.length_code (e : Expr n) (hadm : e.Admissible) :
    e.code.length = e.size ∧ 0 < e.size := by
  induction e with
  | ofSimple e ih | ofBasic e ih | ofElem e ih => exact ih hadm
  | union e f ihe ihf =>
      have he := ihe (hadm.left rfl)
      have hf := ihf fun x hx => hadm x (by simp [lexemes, hx])
      refine ⟨?_, ?_⟩
      · rw [code, length_forkCode, he.1, hf.1, size]
      · rw [size]
        omega
  | concat e f ihe ihf =>
      have he := ihe (hadm.left rfl)
      have hf := ihf fun x hx => hadm x (by simp [lexemes, hx])
      refine ⟨?_, Nat.add_pos_left he.2 _⟩
      rw [code, List.length_append, he.1, hf.1, size]
  | zero e ih =>
      have he := ih (hadm.left rfl)
      exact ⟨by rw [code, length_zeroCode, he.1, size], Nat.succ_pos _⟩
  | one e ih =>
      have he := ih (hadm.left rfl)
      exact ⟨by rw [code, length_oneCode, he.1, size], Nat.succ_pos _⟩
  | onezero e ih =>
      have he := ih (hadm.left rfl)
      exact ⟨by rw [code, length_onezeroCode, he.1, size], Nat.succ_pos _⟩
  | rep e reps ih =>
      have he := ih (hadm.left rfl)
      have hreps : reps.Admissible := hadm (.rep reps) (by simp [lexemes])
      rcases @Reps.length_code e.code reps hreps with ⟨c, hc, hlen⟩
      refine ⟨?_, Reps.size_pos hreps he.2⟩
      rw [code, hc, Option.getD_some, hlen, he.1, size]
  | group e ih => exact ih fun x hx => hadm x (by simp [lexemes, hx])
  | any | eol | sol | char | set => exact ⟨rfl, Nat.one_pos⟩

/-! ## The machine on lexemes makes it -/

theorem Frames.take_atom_code {F : Frames} (h : F.Tidy) {x : Lexeme} {inst : Inst}
    (htake : F.take x = some (F.atom inst)) :
    ∃ F', F.takeAll [x] = some F' ∧ F.Reads F' [inst] .elem :=
  ⟨_, by rw [takeAll_cons, htake]; rfl, h.atom inst⟩

theorem Frames.take_operator_code {F F' : Frames} {e c : List Inst} {l : List Lexeme} {x : Lexeme}
    (code : List Inst → Option (List Inst)) (hl : F.takeAll l = some F')
    (helem : Frames.Element F F' e) (htake : F'.take x = F'.operate code)
    (hcode : code e = some c) :
    ∃ F'', F.takeAll (l ++ [x]) = some F'' ∧ F.Reads F'' c .basic := by
  rcases helem.operate hcode with ⟨F'', hop, hext⟩
  refine ⟨F'', ?_, hext⟩
  rw [takeAll_append, hl, Option.bind_some, takeAll_cons, htake, hop]
  rfl

/-- The machine takes every expression, and makes the code of its derivation. -/
theorem Expr.takes (e : Expr n) (hadm : e.Admissible) (F : Frames) (hF : F.Tidy)
    (hlevel : n = .re → F.level = Stk.empty) :
    ∃ F', F.takeAll e.lexemes = some F' ∧ F.Reads F' e.code n := by
  -- induction on the derivation: what `F` holds outside the expression is untouched
  induction e generalizing F with
  | ofSimple e ih =>
      rcases ih hadm F hF (by simp) with ⟨F', htake, hext⟩
      refine ⟨F', htake, hext.tidy, hext.below, ?_⟩
      rw [hext.level, hlevel rfl]
      rfl
  | union e f ihe ihf =>
      have hright : f.Admissible := fun x hx => hadm x (by simp [lexemes, hx])
      rcases ihe (hadm.left rfl) F hF hlevel with ⟨F₁, htake₁, htidy₁, hbelow₁, hcode₁⟩
      -- an `|` starts a new level of code, on which the right side is read
      have htidy : F₁.alternate.Tidy := fun _ => rfl
      rcases ihf hright F₁.alternate htidy (by simp) with ⟨F₂, htake₂, hext⟩
      refine ⟨F₂, ?_, hext.tidy, hext.below.trans hbelow₁, ?_⟩
      · show F.takeAll (e.lexemes ++ .alt :: f.lexemes) = some F₂
        rw [Frames.takeAll_append, htake₁, Option.bind_some, Frames.takeAll_cons]
        exact htake₂
      · have hlevel₁ : F₁.alternate.level = F₁.level.alt := by
          simp [Frames.alternate, Frames.level, Frames.pending]
        rw [hext.level, hlevel₁, Stk.alt_append_attach, hcode₁]
        rfl
  | ofBasic e ih => exact ih hadm F hF (by simp)
  | concat e f ihe ihf =>
      have hright : f.Admissible := fun x hx => hadm x (by simp [lexemes, hx])
      rcases ihe (hadm.left rfl) F hF (by simp) with ⟨F₁, htake₁, hext₁⟩
      rcases ihf hright F₁ hext₁.tidy (by simp) with ⟨F₂, htake₂, hext₂⟩
      refine ⟨F₂, ?_, hext₁.trans hext₂⟩
      show F.takeAll (e.lexemes ++ f.lexemes) = some F₂
      rw [Frames.takeAll_append, htake₁]
      exact htake₂
  | ofElem e ih =>
      rcases ih hadm F hF (by simp) with ⟨F', htake, helem⟩
      exact ⟨F', htake, helem.extended⟩
  | zero e ih =>
      rcases ih (hadm.left rfl) F hF (by simp) with ⟨F', htake, helem⟩
      exact Frames.take_operator_code (fun e => some (zeroCode e)) htake helem rfl rfl
  | one e ih =>
      rcases ih (hadm.left rfl) F hF (by simp) with ⟨F', htake, helem⟩
      exact Frames.take_operator_code (fun e => some (oneCode e)) htake helem rfl rfl
  | onezero e ih =>
      rcases ih (hadm.left rfl) F hF (by simp) with ⟨F', htake, helem⟩
      exact Frames.take_operator_code (fun e => some (onezeroCode e)) htake helem rfl rfl
  | rep e reps ih =>
      rcases ih (hadm.left rfl) F hF (by simp) with ⟨F', htake, helem⟩
      have hreps : reps.Admissible := hadm (.rep reps) (by simp [lexemes])
      rcases @Reps.length_code e.code reps hreps with ⟨c, hcode, _⟩
      rw [code, hcode, Option.getD_some]
      exact Frames.take_operator_code (fun e => reps.code e) htake helem rfl hcode
  | group e ih =>
      have hinner : e.Admissible := fun x hx => hadm x (by simp [lexemes, hx])
      -- the group is read on a level of its own, which is empty at first
      have hopen := hF.openLevel
      rcases ih hinner F.openLevel (by rw [hopen]; exact fun _ => rfl)
        (fun _ => by rw [hopen]; rfl) with ⟨F₁, htake, htidy, hbelow, hcode⟩
      have hne : F₁.level.attach.code ≠ [] := by
        have hlen := e.length_code hinner
        rw [hcode]
        exact List.ne_nil_of_length_pos (by omega)
      rcases htidy.closeLevel (F := F) (by rw [hbelow, hopen]) hne with ⟨F₂, hclose, helem⟩
      rw [hcode] at helem
      refine ⟨F₂, ?_, helem⟩
      show F.takeAll (.lparen :: (e.lexemes ++ [.rparen])) = some F₂
      rw [Frames.takeAll_cons]
      show Frames.takeAll F.openLevel (e.lexemes ++ [.rparen]) = some F₂
      rw [Frames.takeAll_append, htake, Option.bind_some, Frames.takeAll_cons]
      show (F₁.closeLevel.bind _) = _
      rw [hclose]
      rfl
  | any | eol | sol | char => exact Frames.take_atom_code hF rfl
  | set negated item items =>
      refine Frames.take_atom_code hF ?_
      cases negated <;> rfl

/-- The code of an expression leads over what the expression matches. -/
theorem Expr.realizes (e : Expr .re) (hadm : e.Admissible) :
    Realizes (fun ml s i j => e.Matches ml s i j) e.code := by
  rcases e.takeAll hadm Frames.start Frames.start_tidy fun _ => rfl with
    ⟨F, code, htake, ⟨_, _, hcode⟩, hM⟩
  rcases e.takes hadm Frames.start Frames.start_tidy fun _ => rfl with ⟨F', htake', _, _, hcode'⟩
  obtain rfl : F' = F := Option.some.inj (htake'.symm.trans htake)
  rw [← hcode', hcode]
  exact hM

end

end Rxvm
