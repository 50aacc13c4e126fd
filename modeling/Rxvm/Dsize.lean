import Rxvm.Lib.Ensures
import Rxvm.Stage1

/-!
# Rxvm.Dsize — what changes `dsize` and `chained`

`code_alt` sets `dsize` of the target, and `chained` when `dsize` of the
target was set before. Nothing else does: a stack is created with `dsize` 0,
and every other token leaves both as they are.
-/

namespace Rxvm

open Function Outcome

/-! ## The stacks -/

/-- The stacks have the same `dsize`. -/
def SameDsize (m m' : Mem) : Prop := ∀ k, (m'.stack k).dsize = (m.stack k).dsize

section

variable {m m' m'' : Mem} {k : StackId}

theorem SameDsize.refl (m : Mem) : SameDsize m m := fun _ => rfl

theorem SameDsize.trans (h : SameDsize m m') (h' : SameDsize m' m'') : SameDsize m m'' :=
  fun k => (h' k).trans (h k)

/-- Writing a stack with the `dsize` it had, behind any writes to items. -/
theorem sameDsize_setStack {m₁ : Mem} {s : IrStack} (hstack : m₁.stack = m.stack)
    (h : s.dsize = (m.stack k).dsize) : SameDsize m (m₁.setStack k s) := by
  intro k'
  show (update m₁.stack k s k').dsize = _
  rw [hstack]
  by_cases e : k' = k
  · rw [e, update_self, h]
  · rw [update_of_ne e]

theorem sameDsize_linkHead (n : ItemId) : SameDsize m (m.linkHead k n) := by
  unfold Mem.linkHead
  simp only
  split
  · exact sameDsize_setStack rfl rfl
  · exact sameDsize_setStack rfl rfl

theorem sameDsize_addInstHead (inst : Inst) : SameDsize m (m.stackAddInstHead k inst).1 :=
  sameDsize_linkHead (m := (m.createItem inst).1) _

theorem sameDsize_addInstTail (inst : Inst) : SameDsize m (m.stackAddInstTail k inst).1 := by
  unfold Mem.stackAddInstTail Mem.stackPointNewTail
  simp only
  split
  · exact sameDsize_setStack rfl rfl
  · exact sameDsize_setStack rfl rfl

theorem sameDsize_reset : SameDsize m (m.stackReset k) := sameDsize_setStack rfl rfl

theorem pointNewHead_dsize (n : Option ItemId) :
    Ensures (m.stackPointNewHead k n) (SameDsize m) := by
  cases n with
  | some n => exact .ok (sameDsize_linkHead n)
  | none =>
      unfold Mem.stackPointNewHead
      simp only
      split
      · exact .ok (sameDsize_setStack rfl rfl)
      · exact .error

theorem stackCat_dsize (k k' : StackId) : Ensures (m.stackCat k k') (SameDsize m) := by
  unfold Mem.stackCat
  simp only
  split
  · exact .ok (sameDsize_setStack rfl rfl)
  · exact .ok (sameDsize_setStack rfl rfl)
  · exact .error
  · exact .ok (.refl m)

theorem stackCatFromItem_dsize (stop : Option ItemId) : ∀ (fuel : Nat) (m : Mem)
    (n : Option ItemId), Ensures (stackCatFromItem k stop fuel m n) (SameDsize m) := by
  intro fuel
  induction fuel with
  | zero => exact fun _ _ => .error
  | succ fuel ih =>
      intro m n
      unfold stackCatFromItem
      refine (pointNewHead_dsize n).bind ?_
      intro m₁ h₁
      refine .ite (fun _ => .ok h₁) ?_
      intro _
      cases n with
      | none => exact .error
      | some n => exact (ih m₁ _).mono fun _ => h₁.trans

theorem stackDupeFromItem_dsize (stop : Option ItemId) : ∀ (fuel : Nat) (m : Mem)
    (n : Option ItemId), Ensures (stackDupeFromItem k stop fuel m n) (SameDsize m) := by
  intro fuel
  induction fuel with
  | zero => exact fun _ _ => .error
  | succ fuel ih =>
      intro m n
      cases n with
      | none => exact .error
      | some n =>
          have h₁ := sameDsize_addInstHead (m := m) (k := k) (m.item n).data
          unfold stackDupeFromItem
          refine .ite (fun _ => .ok h₁) ?_
          intro _
          exact (ih _ _).mono fun _ => h₁.trans

theorem walkToOperand_dsize (operand : Option ItemId) : ∀ (fuel : Nat) (m : Mem)
    (n : Option ItemId) (size : Nat),
    Ensures (walkToOperand k operand fuel m n size) fun r => SameDsize m r.1 := by
  intro fuel
  induction fuel with
  | zero => exact fun _ _ _ => .error
  | succ fuel ih =>
      intro m n size
      unfold walkToOperand
      refine .ite (fun _ => .ok (.refl m)) ?_
      intro _
      refine (pointNewHead_dsize n).bind ?_
      intro m₁ h₁
      cases n with
      | none => exact .error
      | some n => exact (ih m₁ _ _).mono fun _ => h₁.trans

end

/-! ## The emitters -/

/-- The context has the target, the mark for chains and the stacks' `dsize` of
another one. -/
structure Unmarked (cp cp' : Context) : Prop where
  target : cp'.target = cp.target
  chained : cp'.chained = cp.chained
  dsize : SameDsize cp.mem cp'.mem

section

variable {cp cp' cp'' : Context}

theorem Unmarked.refl (cp : Context) : Unmarked cp cp := ⟨rfl, rfl, .refl _⟩

theorem Unmarked.trans (h : Unmarked cp cp') (h' : Unmarked cp' cp'') : Unmarked cp cp'' :=
  ⟨h'.target.trans h.target, h'.chained.trans h.chained, h.dsize.trans h'.dsize⟩

/-- An emitter that sets no mark, whether it fails or not. -/
def EmitsUnmarked (cp : Context) (run : Coded) : Prop :=
  Ensures run fun r => Unmarked cp r.2

theorem unmarked_emit (inst : Inst) : Unmarked cp (cp.emit inst) :=
  ⟨rfl, rfl, sameDsize_addInstHead inst⟩

theorem catOperand_unmarked (i : Option ItemId) : Ensures (cp.catOperand i) (Unmarked cp) := by
  unfold Context.catOperand
  refine (stackCatFromItem_dsize _ _ _ _).bind ?_
  intro m h
  exact .ok ⟨rfl, rfl, h⟩

theorem dupeOperand_unmarked (i : Option ItemId) : Ensures (cp.dupeOperand i) (Unmarked cp) := by
  unfold Context.dupeOperand
  refine (stackDupeFromItem_dsize _ _ _ _).bind ?_
  intro m h
  exact .ok ⟨rfl, rfl, h⟩

theorem dupeTimes_unmarked (i : Option ItemId) : ∀ (n : Nat) (cp : Context),
    Ensures (Context.dupeTimes i n cp) (Unmarked cp) := by
  intro n
  induction n with
  | zero => exact fun cp => .ok (.refl cp)
  | succ n ih =>
      intro cp
      unfold Context.dupeTimes
      refine (dupeOperand_unmarked i).bind ?_
      intro cp₁ h₁
      exact (ih cp₁).mono fun _ => h₁.trans

theorem codeOptional_unmarked (size : Nat) (i : Option ItemId) : ∀ (rounds : Nat) (cp : Context),
    Ensures (codeOptional size i rounds cp) (Unmarked cp) := by
  intro rounds
  induction rounds with
  | zero => exact fun cp => .ok (.refl cp)
  | succ rounds ih =>
      intro cp
      unfold codeOptional
      simp only
      have hemit := @unmarked_emit cp (.opBranch 1 ((size + 1) * (rounds + 1)))
      have hrest : ∀ cp₁, Unmarked (cp.emit (.opBranch 1 ((size + 1) * (rounds + 1)))) cp₁ →
          Ensures (codeOptional size i rounds cp₁) (Unmarked cp) :=
        fun cp₁ h₁ => (ih cp₁).mono fun _ => (hemit.trans h₁).trans
      refine .ite (fun _ => ?_) fun _ => ?_
      · exact (catOperand_unmarked i).bind hrest
      · exact (dupeOperand_unmarked i).bind hrest

theorem codeRepN_unmarked (repN : Int) (i : Option ItemId) :
    EmitsUnmarked cp (codeRepN cp repN i) := by
  unfold codeRepN
  refine .ite (fun _ => .ok (.refl cp)) ?_
  intro _
  refine (dupeTimes_unmarked i _ cp).bind ?_
  intro cp₁ h₁
  refine (catOperand_unmarked i).bind ?_
  intro cp₂ h₂
  exact .ok (h₁.trans h₂)

theorem codeOne_unmarked (size : Nat) (i : Option ItemId) :
    EmitsUnmarked cp (codeOne cp size i) := by
  unfold codeOne
  refine (catOperand_unmarked i).bind ?_
  intro cp₁ h₁
  exact .ok (h₁.trans (unmarked_emit _))

theorem codeZero_unmarked (size : Nat) (i : Option ItemId) :
    EmitsUnmarked cp (codeZero cp size i) := by
  unfold codeZero
  refine (catOperand_unmarked i).bind ?_
  intro cp₁ h₁
  exact .ok (((unmarked_emit _).trans h₁).trans (unmarked_emit _))

theorem codeOnezero_unmarked (size : Nat) (i : Option ItemId) :
    EmitsUnmarked cp (codeOnezero cp size i) := by
  unfold codeOnezero
  refine (catOperand_unmarked i).bind ?_
  intro cp₁ h₁
  exact .ok ((unmarked_emit _).trans h₁)

theorem codeRepRange_unmarked (repN repM : Int) (size : Nat) (i : Option ItemId) :
    EmitsUnmarked cp (codeRepRange cp repN repM size i) := by
  unfold codeRepRange
  refine .ite (fun _ => codeRepN_unmarked repN i) fun _ => ?_
  refine .ite (fun _ => codeOnezero_unmarked size i) fun _ => ?_
  refine (dupeTimes_unmarked i _ cp).bind ?_
  intro cp₁ h₁
  refine (codeOptional_unmarked size i _ cp₁).bind ?_
  intro cp₂ h₂
  exact .ok (h₁.trans h₂)

theorem codeRepMore_unmarked (repN : Int) (size : Nat) (i : Option ItemId) :
    EmitsUnmarked cp (codeRepMore cp repN size i) := by
  unfold codeRepMore
  refine (dupeTimes_unmarked i _ cp).bind ?_
  intro cp₁ h₁
  refine (catOperand_unmarked i).bind ?_
  intro cp₂ h₂
  exact .ok ((h₁.trans h₂).trans (unmarked_emit _))

theorem codeRepLess_unmarked (repM : Int) (size : Nat) (i : Option ItemId) :
    EmitsUnmarked cp (codeRepLess cp repM size i) := by
  unfold codeRepLess
  refine .ite (fun _ => .ok (.refl cp)) fun _ => ?_
  refine .ite (fun _ => codeOnezero_unmarked size i) fun _ => ?_
  refine (codeOptional_unmarked size i _ cp).bind ?_
  intro cp₁ h₁
  exact .ok h₁

/-- `lfix_dec` behind an emitter. -/
theorem EmitsUnmarked.dec {run : Coded} (h : EmitsUnmarked cp run) :
    EmitsUnmarked cp (do
      let (err, cp) ← run
      return (err, if err = none then cp.lfixDec else cp)) := by
  refine h.bind ?_
  rintro ⟨err, cp₁⟩ h₁
  refine .ok ?_
  show Unmarked cp (if err = none then cp₁.lfixDec else cp₁)
  split
  · exact ⟨h₁.target, h₁.chained, h₁.dsize⟩
  · exact h₁

theorem processOpRep_unmarked (repN repM : Int) (size : Nat) (i : Option ItemId) :
    EmitsUnmarked cp (processOpRep cp repN repM size i) := by
  unfold processOpRep
  refine .ite (fun _ => codeRepRange_unmarked repN repM size i) fun _ => ?_
  refine .ite (fun _ => codeRepMore_unmarked repN size i) fun _ => ?_
  refine .ite (fun _ => (codeRepLess_unmarked repM size i).dec) fun _ => ?_
  refine .ite (fun _ => codeRepN_unmarked repN i) fun _ => ?_
  refine .ite (fun _ => (codeZero_unmarked size i).dec) fun _ => ?_
  exact .ok (.refl cp)

/-! ## Alternations -/

theorem unmarked_attach (cp : Context) : Unmarked cp (attachDanglingAlt cp) := by
  unfold attachDanglingAlt
  simp only
  split
  · exact .refl cp
  · exact ⟨rfl, rfl, sameDsize_setStack rfl rfl⟩

/-- What an alternation does to the marks: chains are marked when `dsize` of
the target was set, and `dsize` of the target is set. -/
structure AltMarked (cp cp' : Context) : Prop where
  chained : cp'.chained = (cp.chained || decide (cp.targetStack.dsize ≠ 0))
  dsize : ∀ k, k ≠ cp.target → (cp'.mem.stack k).dsize = (cp.mem.stack k).dsize

theorem Unmarked.marked (h : Unmarked cp cp') (h' : AltMarked cp' cp'') : AltMarked cp cp'' := by
  constructor
  · rw [h'.chained, h.chained, Context.targetStack, h.target, h.dsize]
    rfl
  · intro k hk
    rw [h'.dsize k (h.target ▸ hk), h.dsize]

theorem AltMarked.unmarked (h : AltMarked cp cp') (h' : Unmarked cp' cp'') : AltMarked cp cp'' :=
  ⟨h'.chained.trans h.chained, fun k hk => (h'.dsize k).trans (h.dsize k hk)⟩

/-- Where `code_alt` sets the mark. -/
theorem marked_chained (cp : Context) : AltMarked cp
    (if cp.targetStack.dsize ≠ 0 ∧ cp.chained = false then { cp with chained := true } else cp) ∧
    (if cp.targetStack.dsize ≠ 0 ∧ cp.chained = false then { cp with chained := true }
      else cp).target = cp.target := by
  by_cases h : cp.targetStack.dsize ≠ 0 ∧ cp.chained = false
  · rw [if_pos h]
    refine ⟨⟨?_, fun _ _ => rfl⟩, rfl⟩
    simp [h.1]
  · rw [if_neg h]
    refine ⟨⟨?_, fun _ _ => rfl⟩, rfl⟩
    cases hch : cp.chained with
    | true => rfl
    | false =>
        have hd : ¬ cp.targetStack.dsize ≠ 0 := fun hd => h ⟨hd, hch⟩
        rw [decide_eq_false hd]
        rfl

theorem codeAlt_marked (i : Option ItemId) : Ensures (codeAlt cp i) fun r => AltMarked cp r.2 := by
  unfold codeAlt
  have hrest : ∀ cp₁, Unmarked cp cp₁ → Ensures (do
      let cp := if cp₁.targetStack.dsize ≠ 0 ∧ cp₁.chained = false then
        { cp₁ with chained := true } else cp₁
      let cp := attachDanglingAlt cp
      let inst := Inst.opBranch 1 (cp.targetStack.size + 2)
      let cp := { cp with mem := (cp.mem.stackAddInstTail cp.target inst).1 }
      let jmp := cp.mem.stackAddInstHead cp.target (.opJmp 0)
      let s := jmp.1.stack cp.target
      return (none, { cp with
        mem := jmp.1.setStack cp.target { s with danglingAlt := some jmp.2, dsize := s.size } }) :
      Coded) fun r => AltMarked cp r.2 := by
    intro cp₁ h₁
    rcases marked_chained cp₁ with ⟨hmark, htarget⟩
    simp only
    generalize (if cp₁.targetStack.dsize ≠ 0 ∧ cp₁.chained = false then
      { cp₁ with chained := true } else cp₁) = cp₂ at hmark htarget ⊢
    have hattach := unmarked_attach cp₂
    refine .ok (h₁.marked ?_)
    generalize attachDanglingAlt cp₂ = cp₃ at hattach ⊢
    -- the last write is to the target, so the other stacks are as they were
    refine ⟨(hmark.unmarked hattach).chained, ?_⟩
    intro k hk
    have hk₃ : k ≠ cp₃.target := by
      rw [hattach.target, htarget]
      exact hk
    rw [← (hmark.unmarked hattach).dsize k hk]
    refine (congrArg IrStack.dsize (update_of_ne hk₃ _ _)).trans ?_
    exact ((sameDsize_addInstTail _).trans (sameDsize_addInstHead _)) k
  by_cases hi : i = none
  · rw [if_pos hi]
    exact hrest cp (.refl cp)
  · rw [if_neg hi]
    exact (catOperand_unmarked i).bind hrest

/-! ## Operators -/

/-- What an operator does to the marks. -/
def OperatorMarks (cp cp' : Context) : Prop :=
  if cp.tok = .alt then AltMarked cp cp' else Unmarked cp cp'

theorem processOpSwitch_marks (text : List CChar) (size : Nat) (i : Option ItemId) :
    Ensures (processOpSwitch text cp size i) fun r => OperatorMarks cp r.2 := by
  have hplain : cp.tok ≠ .alt → ∀ {run : Coded}, EmitsUnmarked cp run →
      Ensures run fun r => OperatorMarks cp r.2 := by
    intro htok run h
    refine h.mono fun r hr => ?_
    rw [OperatorMarks, if_neg htok]
    exact hr
  unfold processOpSwitch
  split
  · next htok => exact hplain (by simp [htok]) (processOpRep_unmarked _ _ size i)
  · next htok => exact hplain (by simp [htok]) (codeOne_unmarked size i)
  · next htok => exact hplain (by simp [htok]) (codeZero_unmarked size i).dec
  · next htok => exact hplain (by simp [htok]) (codeOnezero_unmarked size i).dec
  · next htok =>
      -- `|` alone writes `dsize`
      refine (codeAlt_marked i).bind ?_
      rintro ⟨err, cp₁⟩ h₁
      refine .ok ?_
      rw [OperatorMarks, if_pos htok]
      show AltMarked cp (if err = none ∧ cp₁.depth = 0 then _ else cp₁)
      split
      · exact ⟨h₁.chained, h₁.dsize⟩
      · exact h₁
  · next h₁ h₂ h₃ h₄ h₅ => exact hplain h₅ (.ok (.refl cp))

theorem processOpEnd_marks (h : OperatorMarks cp cp') : OperatorMarks cp (processOpEnd cp') := by
  have hend : Unmarked cp' (processOpEnd cp') := by
    unfold processOpEnd
    simp only
    split
    · exact ⟨rfl, rfl, sameDsize_reset⟩
    · exact ⟨rfl, rfl, sameDsize_reset⟩
  unfold OperatorMarks at h ⊢
  split_ifs at h ⊢
  · exact h.unmarked hend
  · exact h.trans hend

theorem processOp_marks (text : List CChar) (cp : Context) :
    Ensures (processOp text cp) fun r => OperatorMarks cp r.2 := by
  -- what comes before the switch marks nothing
  have hswitch : ∀ cp₁, Unmarked cp cp₁ → cp₁.tok = cp.tok → ∀ size i,
      Ensures (processOpSwitch text cp₁ size i) fun r => OperatorMarks cp r.2 := by
    intro cp₁ h₁ htok size i
    refine (processOpSwitch_marks text size i).mono ?_
    intro r h₂
    unfold OperatorMarks at h₂ ⊢
    rw [htok] at h₂
    split_ifs at h₂ ⊢
    · exact h₁.marked h₂
    · exact h₁.trans h₂
  unfold processOp
  refine .ite (fun _ => ?_) fun _ => ?_
  · refine .ite (fun _ => ?_) fun htok => .ok ?_
    · refine (hswitch cp (.refl cp) rfl _ _).bind ?_
      rintro ⟨_ | e, cp₂⟩ h₂
      · exact .ok (processOpEnd_marks h₂)
      · exact .ok h₂
    · rw [OperatorMarks, if_neg htok]
      exact .refl cp
  · refine (walkToOperand_dsize _ _ _ _ _).bind ?_
    rintro ⟨m, size⟩ hm
    refine (hswitch { cp with mem := m } ⟨rfl, rfl, hm⟩ rfl size cp.operand).bind ?_
    rintro ⟨_ | e, cp₂⟩ h₂
    · exact .ok (processOpEnd_marks h₂)
    · exact .ok h₂

/-! ## Turns -/

theorem flushGroup_unmarked (cp : Context) :
    Ensures (flushGroup cp) fun cp₁ => Unmarked cp cp₁ ∧ cp₁.tok = cp.tok := by
  unfold flushGroup
  refine .ite (fun _ => ?_) fun _ => .ok ⟨.refl cp, rfl⟩
  refine (stackCat_dsize _ _).bind ?_
  intro m hm
  exact .ok ⟨⟨rfl, rfl, hm⟩, rfl⟩

theorem unmarked_addSingle (cp : Context) (inst : Inst) : Unmarked cp (addSingle cp inst) :=
  ⟨rfl, rfl, sameDsize_addInstHead inst⟩

/-- A group starts with `dsize` 0. -/
theorem openGroup_dsize (cp : Context) : Ensures (openGroup cp) fun cp' =>
    cp'.chained = cp.chained ∧ (cp'.mem.stack cp'.target).dsize = 0 ∧
      ∀ k, k ≠ cp'.target → (cp'.mem.stack k).dsize = (cp.mem.stack k).dsize := by
  unfold openGroup
  refine (stackCat_dsize _ _).bind ?_
  intro m hm
  refine .ok ⟨rfl, ?_, ?_⟩
  · show (update (m.stackReset cp.base).stack (m.stackReset cp.base).stackCount _
      (m.stackReset cp.base).stackCount).dsize = 0
    rw [update_self]
  · intro k hk
    refine (congrArg IrStack.dsize (update_of_ne hk _ _)).trans ?_
    exact hm.trans sameDsize_reset k

theorem closeGroup_dsize (cp : Context) : Ensures (closeGroup cp) fun r =>
    r.2.chained = cp.chained ∧ SameDsize cp.mem r.2.mem := by
  unfold closeGroup
  split
  · exact .ok ⟨rfl, .refl _⟩
  · refine (stackCat_dsize _ _).bind ?_
    intro m hm
    have hattach := unmarked_attach { cp with mem := m }
    exact .ok ⟨hattach.chained, (hm.trans hattach.dsize).trans sameDsize_reset⟩

/-- What a turn does to the marks. -/
structure TurnMarks (cp cp' : Context) : Prop where
  alt : cp.inCharc = false → cp.tok = .alt → AltMarked cp cp'
  chained : ¬ (cp.inCharc = false ∧ cp.tok = .alt) → cp'.chained = cp.chained
  opening : cp.inCharc = false → cp.tok = .lparen → (cp'.mem.stack cp'.target).dsize = 0 ∧
    ∀ k, k ≠ cp'.target → (cp'.mem.stack k).dsize = (cp.mem.stack k).dsize
  other : ¬ (cp.inCharc = false ∧ (cp.tok = .alt ∨ cp.tok = .lparen)) → SameDsize cp.mem cp'.mem

/-- A turn that sets no mark and opens no group. -/
theorem TurnMarks.same (h : ¬ (cp.inCharc = false ∧ (cp.tok = .alt ∨ cp.tok = .lparen)))
    (hchained : cp'.chained = cp.chained) (hsame : SameDsize cp.mem cp'.mem) :
    TurnMarks cp cp' where
  alt hmain htok := absurd ⟨hmain, Or.inl htok⟩ h
  chained _ := hchained
  opening hmain htok := absurd ⟨hmain, Or.inr htok⟩ h
  other _ := hsame

theorem mainState_marks (text : List CChar) (hmain : cp.inCharc = false) :
    Ensures (stage1MainState text cp) fun r => TurnMarks cp r.2 := by
  unfold stage1MainState
  refine .ite (fun hop => ?_) fun hop => ?_
  · refine (processOp_marks text cp).mono ?_
    rintro ⟨err, cp'⟩ h
    by_cases htok : cp.tok = .alt
    · rw [OperatorMarks, if_pos htok] at h
      refine ⟨fun _ _ => h, fun hne => absurd ⟨hmain, htok⟩ hne, ?_, ?_⟩
      · intro _ hlp
        rw [htok] at hlp
        cases hlp
      · intro hne
        exact absurd ⟨hmain, Or.inl htok⟩ hne
    · rw [OperatorMarks, if_neg htok] at h
      refine .same ?_ h.chained h.dsize
      rintro ⟨_, htok' | hlp⟩
      · exact htok htok'
      · rw [hlp] at hop
        cases hop
  refine (flushGroup_unmarked cp).bind ?_
  rintro cp₁ ⟨h₁, htok₁⟩
  -- no operator: the alternation is out of the way
  have halt : cp.tok ≠ .alt := by
    intro htok
    rw [htok] at hop
    exact hop rfl
  have hsame : cp.tok ≠ .lparen → ∀ {cp' : Context}, cp'.chained = cp₁.chained →
      SameDsize cp₁.mem cp'.mem → TurnMarks cp cp' := by
    intro hlp cp' hchained hd
    refine .same ?_ (hchained.trans h₁.chained) (h₁.dsize.trans hd)
    rintro ⟨_, h | h⟩
    · exact halt h
    · exact hlp h
  have hsingle : cp.tok ≠ .lparen → ∀ {cp₂ : Context} (inst : Inst), Unmarked cp₁ cp₂ →
      TurnMarks cp (addSingle cp₂ inst) := by
    intro hlp cp₂ inst h₂
    have h₃ := h₂.trans (unmarked_addSingle cp₂ inst)
    exact hsame hlp h₃.chained h₃.dsize
  have hstop : Unmarked cp₁ cp₁.lfixStop := ⟨rfl, rfl, .refl _⟩
  refine .ite (fun hlit => ?_) fun _ => ?_
  · rw [htok₁] at hlit
    refine .ok (hsingle (by simp [hlit]) _ ?_)
    split
    · exact ⟨rfl, rfl, .refl _⟩
    · exact .refl cp₁
  · simp only
    split
    · next htok => exact .ok (hsingle (by simp [← htok₁, show cp₁.tok = .any from htok]) _ hstop)
    · next htok => exact .ok (hsingle (by simp [← htok₁, show cp₁.tok = .sol from htok]) _ hstop)
    · next htok => exact .ok (hsingle (by simp [← htok₁, show cp₁.tok = .eol from htok]) _ hstop)
    · next htok =>
        exact .ok (hsame (by simp [← htok₁, show cp₁.tok = .charcOpen from htok]) rfl (.refl _))
    · next htok =>
        have hlp : cp.tok = .lparen := htok₁.symm.trans htok
        -- a group is opened: its stack has no `dsize` yet
        refine (openGroup_dsize cp₁.lfixStop).bind ?_
        rintro cp₂ ⟨hchained, hnew, hold⟩
        refine .ok ⟨fun _ h => absurd h halt, fun _ => hchained.trans h₁.chained, ?_, ?_⟩
        · intro _ _
          exact ⟨hnew, fun k hk => (hold k hk).trans (h₁.dsize k)⟩
        · intro hne
          exact absurd ⟨hmain, Or.inr hlp⟩ hne
    · next htok =>
        refine (closeGroup_dsize cp₁.lfixStop).mono ?_
        rintro ⟨err, cp₂⟩ ⟨hchained, hd⟩
        exact hsame (by simp [← htok₁, show cp₁.tok = .rparen from htok]) hchained hd
    · next htok =>
        exact .ok (hsame (by simp [← htok₁, show cp₁.tok = .charcClose from htok]) rfl (.refl _))
    · next hlp _ _ => exact .ok (hsame (fun e => hlp (htok₁.trans e)) rfl (.refl _))

theorem charcState_marks (text : List CChar) (hcharc : cp.inCharc = true) :
    Ensures (stage1CharcState text cp) fun r => TurnMarks cp r.2 := by
  have hsame : ∀ {cp' : Context}, cp'.chained = cp.chained → SameDsize cp.mem cp'.mem →
      TurnMarks cp cp' := by
    intro cp' hchained hd
    refine .same ?_ hchained hd
    rintro ⟨hmain, _⟩
    rw [hcharc] at hmain
    cases hmain
  unfold stage1CharcState
  split
  · exact .ite (fun _ => .ok (hsame rfl (.refl _))) fun _ => .ok (hsame rfl (.refl _))
  -- a range only makes the string builder longer
  · unfold expandCharRange
    simp only [bind_assoc]
    refine Ensures.bind (fun _ _ => trivial) ?_
    intro chars _
    exact .ok (hsame rfl (.refl _))
  · refine .ok (hsame ?_ ?_)
    · show (codeCcs cp cp.statics.isNchar).chained = _
      unfold codeCcs
      split <;> rfl
    · show SameDsize cp.mem (codeCcs cp cp.statics.isNchar).mem
      unfold codeCcs
      split
      · exact .refl _
      · exact sameDsize_addInstHead _
  · exact .ok (hsame rfl (.refl _))

/-- What a turn does to the marks, whether it fails or not. -/
theorem stage1Step_marks (text : List CChar) (cp : Context) :
    Ensures (stage1Step text cp) fun r => TurnMarks cp r.2 := by
  unfold stage1Step
  refine .ite (fun hin => charcState_marks text hin) fun hin => mainState_marks text ?_
  simpa using hin

end

end Rxvm
