import Rxvm.Chains

/-!
# Rxvm.CompileSpec — what rxvm_compile makes of an expression

A compilation that succeeds has reached the end of the expression with all
groups closed; its program is what `stage2` makes of the code the stacks hold
there.
-/

namespace Rxvm

open Relation

section

variable {g : Statics} {text : List CChar}

/-- `stage1` makes an IR at the end of the input only. -/
theorem stage1_ir {lfix0 lfixn : Nat} {cp' : Context}
    (h : stage1 g text = .ok (.ir lfix0 lfixn cp')) :
    ∃ input cp, Visited g text input cp ∧ cp.tok = .eos ∧
      stage1End cp = .ok (.ir lfix0 lfixn cp') := by
  rcases stage1_ends g text with ⟨_, _, _, _, _, hrun⟩ | hrun | ⟨input, cp, hvisit, hends⟩
  · cases h.symm.trans hrun
  · cases h.symm.trans hrun
  · refine ⟨input, cp, hvisit, ?_⟩
    rw [h] at hends
    generalize hresult : (Except.ok (Stage1.ir lfix0 lfixn cp') : Run Stage1) = result at hends
    cases hends with
    | lexError => cases hresult
    | stepError => cases hresult
    | stops => cases hresult
    | eos htok => exact ⟨htok, rfl⟩

/-- The result of an expression of literals comes from the first loop. -/
theorem stage1_simple {lfixn : Nat} {g₁ : Statics} (h : stage1 g text = .ok (.simple lfixn g₁)) :
    lfixn = checkSimpleForLfix text ∧ ∃ input simple cp,
      literalLoop text (text.length + 1) 0 none (stage1Init g) = .ok (input, simple, cp) ∧
        cp.tok = .eos := by
  rcases stage1_ends g text with ⟨input, simple, cp, hloop, heos, hrun⟩ | hrun |
    ⟨input, cp, hvisit, hends⟩
  · cases h.symm.trans hrun
    exact ⟨rfl, input, simple, cp, hloop, heos⟩
  · cases h.symm.trans hrun
  · rw [h] at hends
    generalize hresult : (Except.ok (Stage1.simple lfixn g₁) : Run Stage1) = result at hends
    cases hends with
    | lexError => cases hresult
    | stepError => cases hresult
    | stops => cases hresult
    | eos htok =>
        rcases hvisit.wellMade with ⟨stk, index, hholds, _⟩
        have hfinish := hholds.finish
        rw [← hresult] at hfinish
        cases hfinish

/-- The code of a context at the end of the input, as an array. -/
def endProgram (cp : Context) (stk : StackId → Stk) : List Inst :=
  relocateFrom 0 ((endStk cp stk).code ++ [.opMatch])

/-- What `stage2` makes of code: it relocates the offsets, and optimises the
chains of jumps if the compiler has seen one. -/
def linked (chained : Bool) (code : List Inst) : Run (List Inst) :=
  if chained then optimiseChains (relocateFrom 0 (code ++ [.opMatch]))
  else .ok (relocateFrom 0 (code ++ [.opMatch]))

/-- It makes a program that is well made, has the instructions of the code and
accepts what it accepts. -/
theorem linked_spec {code : List Inst} (h : Closed code) (chained : Bool) :
    ∃ exe, linked chained code = .ok exe ∧ ProgramOk exe ∧
      (∀ inst ∈ exe, inst.isJmp = true ∨ inst ∈ relocateFrom 0 (code ++ [.opMatch])) ∧
      ∀ icase ml s i j, Accepts icase ml s exe i j ↔
        Accepts icase ml s (relocateFrom 0 (code ++ [.opMatch])) i j := by
  cases chained with
  | true => exact optimiseChains_spec h.programOk
  | false => exact ⟨_, rfl, h.programOk, fun _ => Or.inr, fun _ _ _ _ _ => Iff.rfl⟩

/-- `stage2` on the IR of `stage1`. -/
theorem stage2_ir {cp cp' : Context} {lfix0 lfixn : Nat} {stk : StackId → Stk}
    {index : Option Nat} (hholds : Holds cp stk index)
    (h : stage1End cp = .ok (.ir lfix0 lfixn cp')) :
    cp.inCharc = false ∧ endGroups cp stk = [] ∧
      stage2 cp' = linked cp.chained (endStk cp stk).code := by
  have hfinish := hholds.finish
  rw [h] at hfinish
  generalize hresult : (Except.ok (Stage1.ir lfix0 lfixn cp') : Run Stage1) = result at hfinish
  cases hfinish with
  | eclass => cases hresult
  | eparen => cases hresult
  | ir m' groups ids' hcharc hgroups hshows =>
      refine ⟨hcharc, hgroups, ?_⟩
      obtain rfl : cp' = _ := by
        injection hresult with hresult
        injection hresult
      exact stage2_shows { cp with
        mem := m'
        groups := groups
        statics := { cp.statics with lfix := cp.statics.lfix.lfixStop } } hshows

/-- `stage2` succeeds on the IR of `stage1`, and makes a program of it that is
well made, has the instructions of the code and accepts what it accepts. -/
theorem stage2_program {cp cp' : Context} {lfix0 lfixn : Nat} {stk : StackId → Stk}
    {index : Option Nat} (hholds : Holds cp stk index)
    (hwell : WellMade cp cp.closing stk)
    (h : stage1End cp = .ok (.ir lfix0 lfixn cp')) :
    cp.inCharc = false ∧ endGroups cp stk = [] ∧ ∃ exe, stage2 cp' = .ok exe ∧ ProgramOk exe ∧
      (∀ inst ∈ exe, inst.isJmp = true ∨ inst ∈ endProgram cp stk) ∧ ∀ icase ml s i j, Accepts icase ml s exe i j ↔
        Accepts icase ml s (endProgram cp stk) i j := by
  rcases hholds.layout with ⟨ids, hlay⟩
  rcases stage2_ir hholds h with ⟨hcharc, hgroups, hstage2⟩
  refine ⟨hcharc, hgroups, ?_⟩
  rw [hstage2]
  exact linked_spec (hwell.endStk hlay) cp.chained

/-- The literals `rxvm_compile` stores, and their fixed substring. -/
theorem rxvmCompile_literals {exp s : List CChar} {c : Compiled} {g' : Statics}
    (h : rxvmCompile g exp = .ok (.ok c, g')) (hsimple : c.simple = some s) :
    s = cstring exp ∧ (∃ input simple cp,
      literalLoop exp (exp.length + 1) 0 none (stage1Init g) = .ok (input, simple, cp) ∧
        cp.tok = .eos) ∧
      c.lfix = lfixOf exp 0 (checkSimpleForLfix exp) ∧ c.lfix0 = 0 ∧
      c.lfixn = checkSimpleForLfix exp := by
  unfold rxvmCompile at h
  rcases hstage : stage1 g exp with stop | result
  · rw [hstage] at h
    cases h
  · rw [hstage] at h
    cases result with
    | fail e cp => cases h
    | simple lfixn g₁ =>
        cases h
        rcases stage1_simple hstage with ⟨rfl, hloop⟩
        exact ⟨(Option.some.inj hsimple).symm, hloop, rfl, rfl, rfl⟩
    | ir lfix0 lfixn cp' =>
        rcases hstage2 : stage2 cp' with stop | exe
        · simp only [bind, Except.bind, hstage2] at h
          cases h
        · simp only [bind, Except.bind, hstage2] at h
          cases h
          cases hsimple

/-- A program of `rxvm_compile` is what `stage2` makes of the last context of
the run, which has the counters of the fixed substring too. -/
theorem rxvmCompile_ir {exp : List CChar} {c : Compiled} {g' : Statics}
    (h : rxvmCompile g exp = .ok (.ok c, g')) (hprogram : c.simple = none) :
    ∃ input cp lfix0 lfixn cp', Visited g exp input cp ∧ cp.tok = .eos ∧
      stage1End cp = .ok (.ir lfix0 lfixn cp') ∧ stage2 cp' = .ok c.exe ∧
      c.lfix = lfixOf exp lfix0 lfixn ∧ c.lfix0 = lfix0 ∧ c.lfixn = lfixn := by
  unfold rxvmCompile at h
  rcases hstage : stage1 g exp with stop | result
  · rw [hstage] at h
    cases h
  · rw [hstage] at h
    cases result with
    | fail e cp => cases h
    | simple lfixn g =>
        cases h
        cases hprogram
    | ir lfix0 lfixn cp' =>
        rcases stage1_ir hstage with ⟨input, cp, hvisit, heos, hend⟩
        rcases hstage2 : stage2 cp' with stop | exe
        · simp only [bind, Except.bind, hstage2] at h
          cases h
        · simp only [bind, Except.bind, hstage2] at h
          cases h
          exact ⟨input, cp, lfix0, lfixn, cp', hvisit, heos, hend, hstage2, rfl, rfl, rfl⟩

/-- A program of `rxvm_compile`, with the end of the run that made it. -/
theorem rxvmCompile_program {exp : List CChar} {c : Compiled} {g' : Statics}
    (h : rxvmCompile g exp = .ok (.ok c, g')) (hprogram : c.simple = none) :
    ∃ input cp stk index, Visited g exp input cp ∧ cp.tok = .eos ∧ Holds cp stk index ∧
      WellMade cp cp.closing stk ∧ cp.inCharc = false ∧ endGroups cp stk = [] ∧
      ProgramOk c.exe ∧ ∀ icase ml s i j, Accepts icase ml s c.exe i j ↔
        Accepts icase ml s (endProgram cp stk) i j := by
  rcases rxvmCompile_ir h hprogram with
    ⟨input, cp, lfix0, lfixn, cp', hvisit, heos, hend, hstage2, _⟩
  rcases hvisit.wellMade with ⟨stk, index, hholds, hwell⟩
  rcases stage2_program hholds hwell hend with
    ⟨hcharc, hgroups, exe, hexe, hok, _, haccepts⟩
  cases hstage2.symm.trans hexe
  exact ⟨input, cp, stk, index, hvisit, heos, hholds, hwell, hcharc, hgroups, hok, haccepts⟩

/-- The machine may be given the program. -/
theorem rxvmCompile_wellFormed {exp : List CChar} {c : Compiled} {g' : Statics}
    (h : rxvmCompile g exp = .ok (.ok c, g')) (hprogram : c.simple = none) : WellFormed c.exe := by
  rcases rxvmCompile_program h hprogram with ⟨_, _, _, _, _, _, _, _, _, _, hok, _⟩
  exact hok.wellFormed

/-- Every program `rxvm_compile` makes is well made. -/
theorem rxvmCompile_programOk {exp : List CChar} {c : Compiled} {g' : Statics}
    (h : rxvmCompile g exp = .ok (.ok c, g')) (hprogram : c.simple = none) :
    ProgramOk c.exe := by
  rcases rxvmCompile_program h hprogram with ⟨_, _, _, _, _, _, _, _, _, _, hok, _⟩
  exact hok

/-- The expression `a|b*|c`, with a chain of jumps. -/
theorem rxvmCompile_programOk_alternatives :
    ProgramOk [.opBranch 1 8, .opBranch 2 4, .opChar 97, .opJmp 9, .opBranch 5 7, .opChar 98,
      .opBranch 5 7, .opJmp 9, .opChar 99, .opMatch] := by
  have h : ∃ g', rxvmCompile Statics.init [97, 124, 98, 42, 124, 99] = .ok (.ok {
      exe := [.opBranch 1 8, .opBranch 2 4, .opChar 97, .opJmp 9, .opBranch 5 7, .opChar 98,
        .opBranch 5 7, .opJmp 9, .opChar 99, .opMatch]
      simple := none
      lfix := none
      lfix0 := 0
      lfixn := 0 }, g') := ⟨_, rfl⟩
  rcases h with ⟨g', h⟩
  exact rxvmCompile_programOk h rfl

end

end Rxvm
