import Rxvm.GenExact
import Rxvm.RandexpSpec
import Rxvm.Taken
import Rxvm.Words

/-!
# Rxvm.Fuzz — test_fuzz_full_rxvm_match.c

The fuzz test makes a random expression, compiles it, makes inputs for the
compiled expression and matches each of them. No round of it can fail: the
expression is one the compiler takes, and each input is one it matches.
-/

namespace Rxvm

/-! ## The test -/

/-- What is counted for one expression. -/
structure FuzzCount where
  passed : Nat
  failed : Nat
  itersize : Nat
deriving DecidableEq, Repr

/-- What a run of the test depends on: the two configurations, the number of
inputs for each expression, the bound for the generators, and the values
`rand()` returns while expression `i` is made, and its input `j`. -/
structure FuzzEnv where
  ecfg : RandexpCfg
  icfg : GenCfg
  numIter : Nat
  fuel : Nat
  expRand : Nat → Nat → Nat
  genRand : Nat → Nat → Nat → Nat

/-- The loop over the inputs, with `left` of them to go. A match without a
result is counted as a failure. -/
def fuzzInputs (E : FuzzEnv) (i : Nat) (compiled : Compiled) : Nat → FuzzCount → Option FuzzCount
  | 0, t => some t
  | left + 1, t => do
    let gen ← rxvmGen (E.genRand i left) E.fuel compiled (some E.icfg)
    let t := match rxvmMatch compiled gen.str {} with
      | some ret => if ret ≠ 0 then { t with passed := t.passed + 1 }
        else { t with failed := t.failed + 1 }
      | none => { t with failed := t.failed + 1 }
    fuzzInputs E i compiled left { t with itersize := t.itersize + gen.len.getD 0 }

/-- One expression. What is undefined in the compiler is counted as a failure,
as an error it returns. -/
def fuzzExpression (E : FuzzEnv) (i : Nat) (g : Statics) : Option (FuzzCount × Statics) := do
  let (exp, _) ← genRandexp initCharmap (E.expRand i) E.fuel E.ecfg 0
  match rxvmCompile g exp with
  | .ok (.ok compiled, g) => do
    let t ← fuzzInputs E i compiled E.numIter ⟨0, 0, 0⟩
    return (t, g)
  | .ok (.error _, g) => return (⟨0, 1, 0⟩, g)
  | .error _ => return (⟨0, 1, 0⟩, g)

/-- `test_fuzz_full_rxvm_match`, with `left` expressions to go: what is counted
for each of them. -/
def testFuzzFullRxvmMatch (E : FuzzEnv) : Nat → Nat → Statics → Option (List FuzzCount × Statics)
  | 0, _, g => some ([], g)
  | left + 1, i, g => do
    let (t, g) ← fuzzExpression E i g
    let (ts, g) ← testFuzzFullRxvmMatch E left (i + 1) g
    return (t :: ts, g)

/-! ## Inputs -/

/-- What the instructions of the lexemes have, the code of the expression has. -/
theorem Expr.all_code {P : Inst → Prop} (hP : Straight P) (e : Expr .re) (hadm : e.Admissible)
    (hl : ∀ x ∈ e.lexemes, ∀ inst, x.inst = some inst → P inst) : ∀ inst ∈ e.code, P inst := by
  rcases e.takes hadm Frames.start Frames.start_tidy fun _ => rfl with ⟨F, htake, _, _, hcode⟩
  have hstart : Frames.start.All P :=
    ⟨List.forall_mem_nil P, fun _ ht => absurd ht List.not_mem_nil,
      List.forall_mem_nil P, fun _ hc => absurd hc (Option.not_mem_none _)⟩
  rw [← hcode]
  exact hP.attach (hstart.takeAll hP hl htake).level

theorem Inst.Generable.straight : Straight Inst.Generable :=
  ⟨fun _ _ => trivial, fun _ => trivial⟩

/-- The generator of inputs takes what the generator of expressions writes: no
anchors, and sets that lack a character. -/
theorem Lexeme.Drawn.generable {x : Lexeme} (hx : x.Drawn) {inst : Inst}
    (h : x.inst = some inst) : inst.Generable := by
  cases x with
  | sol | eol => exact hx.elim
  | char | any =>
      cases h
      trivial
  | set negated item items =>
      cases h
      cases negated with
      | false => trivial
      | true =>
          refine ⟨122, by decide, by decide, ?_⟩
          intro hz
          rcases SetItem.mem_flatMap_chars.mp hz with ⟨y, hy, hhas⟩
          exact SetItem.Drawn.omits (hx y hy) hhas
  | _ => cases h

/-- What the instructions of the lexemes have, the program has. -/
theorem ProgramOf.all {P : Inst → Prop} (hP : Straight P) (hmatch : P .opMatch) {e : Expr .re}
    {compiled : Compiled} (h : ProgramOf e compiled) (hadm : e.Admissible)
    (hl : ∀ x ∈ e.lexemes, ∀ inst, x.inst = some inst → P inst) : ∀ inst ∈ compiled.exe, P inst := by
  have hcode := e.all_code hP hadm hl
  intro inst hinst
  rcases h.code.mem hinst with hjmp | hinst
  · cases inst with
    | opJmp => exact hP.jmp _
    | _ => cases hjmp
  · rcases List.getElem?_of_mem hinst with ⟨i, hi⟩
    rw [getElem?_relocateFrom] at hi
    rcases Option.map_eq_some_iff.mp hi with ⟨inst', hinst', rfl⟩
    refine hP.relocate ?_ _
    rcases List.mem_append.mp (List.mem_of_getElem? hinst') with hmem | hmem
    · exact hcode inst' hmem
    · obtain rfl := List.mem_singleton.mp hmem
      exact hmatch

theorem ProgramOf.generable {e : Expr .re} {compiled : Compiled} (h : ProgramOf e compiled)
    (hdrawn : ∀ x ∈ e.lexemes, x.Drawn) : ∀ inst ∈ compiled.exe, inst.Generable :=
  h.all Inst.Generable.straight trivial (fun x hx => (hdrawn x hx).admissible)
    fun x hx _ => (hdrawn x hx).generable

/-- A random expression is one `rxvm_compile` takes, and the compiled expression
matches what the derivation it was written from does. -/
theorem genRandexp_compiles {rand : Nat → Nat} {fuel calls calls' : Nat} {cfg : RandexpCfg}
    {exp : List CChar} (h : genRandexp initCharmap rand fuel cfg calls = some (exp, calls'))
    {g : Statics} (hg : g.isNchar = false) :
    ∃ (e : Expr .re) (compiled : Compiled) (g' : Statics),
      Concat Spells e.lexemes exp ∧ (∀ x ∈ e.lexemes, x.Drawn) ∧
      rxvmCompile g exp = .ok (.ok compiled, g') ∧ g'.isNchar = false ∧
      ∀ s, NoNul s → ∃ ret, rxvmMatch compiled s {} = some ret ∧ (ret = 1 ∨ ret = 0) ∧
        (ret = 1 ↔ e.Matches true s 0 s.length) := by
  rcases genRandexp_derives h with ⟨e, hspell, hdrawn⟩
  rcases rxvmCompile_taken hg (fun x hx => (hdrawn x hx).admissible) hspell with
    ⟨compiled, g', hrun, hg', hdecides, _⟩
  exact ⟨e, compiled, g', hspell, hdrawn, hrun, hg', hdecides⟩

/-- An expression made with `3 * (n + 3) * (n + 7)` for the random values. -/
theorem genRandexp_compiles_some : ∃ exp calls',
    genRandexp initCharmap (fun n => 3 * (n + 3) * (n + 7)) 30 ⟨25, 25, 50, 6⟩ 0 =
      some (exp, calls') ∧
    ∃ (e : Expr .re) (compiled : Compiled) (g' : Statics),
      Concat Spells e.lexemes exp ∧ (∀ x ∈ e.lexemes, x.Drawn) ∧
      rxvmCompile Statics.init exp = .ok (.ok compiled, g') ∧ g'.isNchar = false ∧
      ∀ s, NoNul s → ∃ ret, rxvmMatch compiled s {} = some ret ∧ (ret = 1 ∨ ret = 0) ∧
        (ret = 1 ↔ e.Matches true s 0 s.length) := by
  have hsome : (genRandexp initCharmap (fun n => 3 * (n + 3) * (n + 7)) 30
      ⟨25, 25, 50, 6⟩ 0).isSome = true := by decide +kernel
  rcases Option.isSome_iff_exists.mp hsome with ⟨⟨exp, calls'⟩, h⟩
  exact ⟨exp, calls', h, genRandexp_compiles h rfl⟩

/-! ## The rounds -/

/-- The inputs `rxvm_gen` makes are matched. -/
def MatchesInputs (compiled : Compiled) : Prop :=
  ∀ rand fuel cfg gen, rxvmGen rand fuel compiled cfg = some gen →
    rxvmMatch compiled gen.str {} = some 1

theorem MatchesInputs.ofChars {compiled : Compiled} {ls : List (Literal false)}
    (hsimple : compiled.simple = some (ls.flatMap Literal.text))
    (hclosed : escapesClosed (ls.flatMap Literal.text) = true) : MatchesInputs compiled := by
  intro rand fuel cfg gen hrun
  unfold rxvmGen at hrun
  rw [hsimple] at hrun
  cases hrun
  have hnul : NoNul (unescape (ls.flatMap Literal.text)) :=
    fun c hc => noNul_literals ls c (mem_unescape hclosed hc)
  rcases rxvmMatch_simple hsimple (noNul_literals ls) hnul {} with ⟨ret, hret, _, hiff⟩
  simp only [genSimple_eq hclosed]
  rw [hret, hiff.mpr (sameChars_false.mpr rfl)]

theorem MatchesInputs.ofProgram {compiled : Compiled} (hsimple : compiled.simple = none)
    (hwf : WellFormed compiled.exe) (hchars : Matchables compiled.exe)
    (hgen : ∀ inst ∈ compiled.exe, inst.Generable) : MatchesInputs compiled := by
  intro rand fuel cfg gen hrun
  unfold rxvmGen at hrun
  rw [hsimple] at hrun
  rcases Option.bind_eq_some_iff.mp hrun with ⟨out, hloop, hout⟩
  cases hout
  rcases genLoop_accepted hwf hchars hgen hloop with ⟨hnul, haccepts⟩
  rcases rxvmMatch_spec hsimple hwf hnul {} with ⟨ret, hret, _, hiff⟩
  show rxvmMatch compiled out {} = some 1
  rw [hret, hiff.mpr haccepts]

/-- A random expression is compiled, and its inputs are matched. -/
theorem genRandexp_matched {rand : Nat → Nat} {fuel calls calls' : Nat} {cfg : RandexpCfg}
    {exp : List CChar} (h : genRandexp initCharmap rand fuel cfg calls = some (exp, calls'))
    {g : Statics} (hg : g.isNchar = false) :
    ∃ compiled g', rxvmCompile g exp = .ok (.ok compiled, g') ∧ g'.isNchar = false ∧
      MatchesInputs compiled := by
  rcases genRandexp_derives h with ⟨e, hspell, hdrawn⟩
  rcases rxvmCompile_taken hg (fun x hx => (hdrawn x hx).admissible) hspell with
    ⟨compiled, g', hrun, hg', _, ⟨ls, _, hsimple⟩ | hprog⟩
  · rcases rxvmCompile_simple hrun hsimple with ⟨_, hclosed⟩
    exact ⟨compiled, g', hrun, hg', .ofChars hsimple hclosed⟩
  · have hwf := rxvmCompile_wellFormed hrun hprog.program
    have hchars := rxvmCompile_matchable hrun hprog.program
    exact ⟨compiled, g', hrun, hg',
      .ofProgram hprog.program hwf hchars (hprog.generable hdrawn)⟩

section

variable {E : FuzzEnv}

/-- The loop over the inputs counts each of them as passed. -/
theorem fuzzInputs_passes {i : Nat} {compiled : Compiled} (h : MatchesInputs compiled) :
    ∀ {left : Nat} {t t' : FuzzCount}, fuzzInputs E i compiled left t = some t' →
      t'.passed = t.passed + left ∧ t'.failed = t.failed := by
  intro left
  induction left with
  | zero =>
      intro t t' hrun
      cases hrun
      exact ⟨rfl, rfl⟩
  | succ left ih =>
      intro t t' hrun
      unfold fuzzInputs at hrun
      rcases Option.bind_eq_some_iff.mp hrun with ⟨gen, hgen, hrun⟩
      rw [h _ _ _ _ hgen] at hrun
      rcases ih hrun with ⟨hpassed, hfailed⟩
      exact ⟨hpassed.trans (Nat.add_right_comm _ 1 left), hfailed⟩

theorem fuzzExpression_passes {i : Nat} {g g' : Statics} {t : FuzzCount} (hg : g.isNchar = false)
    (h : fuzzExpression E i g = some (t, g')) :
    t.passed = E.numIter ∧ t.failed = 0 ∧ g'.isNchar = false := by
  unfold fuzzExpression at h
  rcases Option.bind_eq_some_iff.mp h with ⟨⟨exp, calls⟩, hexp, h⟩
  rcases genRandexp_matched hexp hg with ⟨compiled, g₁, hrun, hg₁, hmatches⟩
  simp only [hrun] at h
  rcases Option.bind_eq_some_iff.mp h with ⟨t', hinputs, h⟩
  cases h
  rcases fuzzInputs_passes hmatches hinputs with ⟨hpassed, hfailed⟩
  exact ⟨hpassed.trans (Nat.zero_add _), hfailed, hg₁⟩

/-- No run of the fuzz test has a failure to report: every expression is
compiled, and every input is matched. -/
theorem testFuzzFullRxvmMatch_passes : ∀ {left i : Nat} {g g' : Statics} {ts : List FuzzCount},
    g.isNchar = false → testFuzzFullRxvmMatch E left i g = some (ts, g') →
    ts.length = left ∧ ∀ t ∈ ts, t.passed = E.numIter ∧ t.failed = 0 := by
  intro left
  induction left with
  | zero =>
      intro i g g' ts _ h
      cases h
      exact ⟨rfl, by simp⟩
  | succ left ih =>
      intro i g g' ts hg h
      unfold testFuzzFullRxvmMatch at h
      rcases Option.bind_eq_some_iff.mp h with ⟨⟨t, g₁⟩, hfirst, h⟩
      rcases Option.bind_eq_some_iff.mp h with ⟨⟨ts', g₂⟩, hrest, h⟩
      cases h
      rcases fuzzExpression_passes hg hfirst with ⟨hpassed, hfailed, hg₁⟩
      rcases ih hg₁ hrest with ⟨hlen, hall⟩
      refine ⟨congrArg Nat.succ hlen, ?_⟩
      intro t' ht'
      rcases List.mem_cons.mp ht' with rfl | ht'
      · exact ⟨hpassed, hfailed⟩
      · exact hall t' ht'

/-- Two expressions, with two inputs for each. -/
theorem testFuzzFullRxvmMatch_passes_two : ∃ E ts g',
    testFuzzFullRxvmMatch E 2 0 Statics.init = some (ts, g') ∧
      ts.length = 2 ∧ ∀ t ∈ ts, t.passed = 2 ∧ t.failed = 0 := by
  have hsome : (testFuzzFullRxvmMatch ⟨⟨25, 25, 50, 6⟩, ⟨80, 10, 20⟩, 2, 60,
      fun i n => (n + 3) * (n + 7 + i), fun i j n => 37 * n + i + 5 * j⟩ 2 0
      Statics.init).isSome = true := by decide +kernel
  rcases Option.isSome_iff_exists.mp hsome with ⟨⟨ts, g'⟩, h⟩
  exact ⟨_, ts, g', h, testFuzzFullRxvmMatch_passes rfl h⟩

end

end Rxvm
