import Rxvm.GenSpec
import Rxvm.MeaningSpec

/-!
# Rxvm.GenLimit — how far rxvm_gen goes beyond the limit

One step of the walk writes at most one character. Behind the limit, and with no
generosity at all, it always takes `y` at a branch, and `y` and the jumps of a
compiled program lead forward. So the index of the instruction grows, and the
walk is at `match` before it has made as many steps as there are instructions.
The only thing that can stop it is `rand_range`, which divides by zero for a
class whose length is a multiple of 2^32.
-/

namespace Rxvm

open Relation

section

variable {rand : Nat → Nat} {n : Nat}

/-! ## The random values -/

theorem randRange_some {low high : Nat} (hle : low ≤ high) (hhigh : high + 1 < 4294967296) :
    ∃ r, randRange rand n low high = some (r, n + 1) := by
  have hdiff : u32 ((high : Int) - low) = high - low := by
    unfold u32
    omega
  have hcount : u32 (((high - low : Nat) : Int) + 1) ≠ 0 := by
    unfold u32
    omega
  unfold randRange
  rw [hdiff]
  simp only
  rw [if_neg hcount]
  exact ⟨_, rfl⟩

theorem choice_some (prob : Nat) : ∃ b, choice rand n prob = some (b, n + 1) := by
  rcases @randRange_some rand n 0 100 (by omega) (by omega) with ⟨r, hr⟩
  refine ⟨decide (r < prob), ?_⟩
  unfold choice
  rw [hr]
  rfl

/-- With probability 0 the choice is always the other one. -/
theorem choice_zero {b : Bool} {n' : Nat} (h : choice rand n 0 = some (b, n')) : b = false := by
  unfold choice at h
  rcases Option.bind_eq_some_iff.mp h with ⟨⟨r, m⟩, _, h⟩
  obtain ⟨hb, -⟩ := Prod.mk.inj (Option.some.inj h)
  simpa using hb.symm

theorem genAny_some (whitespace : Nat) : ∃ r, genAny rand n whitespace = some r := by
  rcases @choice_some rand n whitespace with ⟨ws, hws⟩
  unfold genAny
  rw [hws, Option.bind_eq_bind, Option.bind_some]
  cases ws with
  | true =>
      have hrange : wsLow.toInt.toNat ≤ wsHigh.toInt.toNat ∧
          wsHigh.toInt.toNat + 1 < 4294967296 := by decide
      rcases @randRange_some rand (n + 1) _ _ hrange.1 hrange.2 with ⟨r, hr⟩
      simp only [if_true]
      rw [hr]
      exact ⟨_, rfl⟩
  | false =>
      have hrange : printableLow.toInt.toNat ≤ printableHigh.toInt.toNat ∧
          printableHigh.toInt.toNat + 1 < 4294967296 := by decide
      rcases @randRange_some rand (n + 1) _ _ hrange.1 hrange.2 with ⟨r, hr⟩
      simp only [Bool.false_eq_true, if_false]
      rw [hr]
      exact ⟨_, rfl⟩

theorem findNchar_some (ccs : List CChar) : ∃ r, findNchar rand n ccs = some r := by
  have hbounds := printable_bounds
  have hrange : printableLow.toInt.toNat ≤ printableHigh.toInt.toNat ∧
      printableHigh.toInt.toNat + 1 < 4294967296 := by decide
  rcases @randRange_some rand n _ _ hrange.1 hrange.2 with ⟨r, hr⟩
  have hmem := chr_range printableLow printableHigh (by decide) (by decide) hr
  rcases findNcharLoop_finds ccs 191 (Int8.ofNat r) 0 (by omega) (by omega) (by omega) (by omega)
    with ⟨c, hc, _⟩
  refine ⟨(c, n + 1), ?_⟩
  unfold findNchar
  rw [hr, Option.bind_eq_bind, Option.bind_some]
  simp only
  rw [hc]
  rfl

/-- The number of characters of a class is taken as an `unsigned int`. -/
theorem genClass_some_iff {ccs : List CChar} (hccs : ccs ≠ []) :
    (∃ r, genClass rand n ccs = some r) ↔ u32 ccs.length ≠ 0 := by
  have hpos := List.length_pos_iff.mpr hccs
  have hcount : u32 ((u32 ((u32 ((ccs.length : Int) - 1) : Int) - (0 : Nat)) : Int) + 1) =
      u32 ccs.length := by
    unfold u32
    omega
  unfold genClass randRange
  simp only [hcount]
  by_cases h0 : u32 ccs.length = 0
  · simp [h0]
  · rw [if_neg h0, Option.bind_eq_bind, Option.bind_some]
    exact ⟨fun _ => h0, fun _ => ⟨_, rfl⟩⟩

end

/-! ## One step -/

/-- Where the walk is: the instruction, what has been written, and the number
of calls of `rand`. -/
structure GenState where
  ip : Nat
  strb : List CChar
  n : Nat

/-- One round of the loop of `rxvm_gen`, which ends at `match`. -/
def genStep (rand : Nat → Nat) (exe : List Inst) (generosity whitespace limit : Nat)
    (st : GenState) : Option GenState :=
  match fetch exe st.ip with
  | .opMatch => none
  | .opChar c => some ⟨st.ip + 1, st.strb ++ [c], st.n⟩
  | .opAny => (genAny rand st.n whitespace).map fun r => ⟨st.ip + 1, st.strb ++ [r.1], r.2⟩
  | .opSol => some ⟨st.ip + 1, if st.strb ≠ [] ∧ st.strb.getLast? ≠ some newline then
      st.strb ++ [newline] else st.strb, st.n⟩
  | .opEol => some ⟨st.ip + 1, if exe.length > st.ip ∧
      fetch exe (st.ip + 1 : Nat) ≠ .opChar newline then st.strb ++ [newline] else st.strb, st.n⟩
  | .opClass ccs => (genClass rand st.n ccs).map fun r => ⟨st.ip + 1, st.strb ++ [r.1], r.2⟩
  | .opNclass ccs => (findNchar rand st.n ccs).map fun r => ⟨st.ip + 1, st.strb ++ [r.1], r.2⟩
  | .opBranch x y =>
    (choice rand st.n (if st.strb.length ≥ limit then 0 else generosity)).map fun r =>
      ⟨(if r.1 then x else y).toNat, st.strb, r.2⟩
  | .opJmp x => some ⟨x.toNat, st.strb, st.n⟩

section

variable {rand : Nat → Nat} {exe : List Inst} {generosity whitespace limit : Nat}
  {st st' : GenState}

/-- The loop makes one step after the other. -/
theorem genLoop_succ (fuel : Nat) :
    genLoop rand exe generosity whitespace limit (fuel + 1) st.ip st.strb st.n =
      if fetch exe st.ip = .opMatch then some st.strb
      else (genStep rand exe generosity whitespace limit st).bind fun st' =>
        genLoop rand exe generosity whitespace limit fuel st'.ip st'.strb st'.n := by
  rw [genLoop, genStep]
  -- the instructions that draw nothing, and then those that do
  cases fetch exe st.ip with
  | opMatch => rfl
  | opChar => rfl
  | opSol => rfl
  | opEol => rfl
  | opJmp => rfl
  | opAny =>
      refine Eq.trans ?_ (if_neg (by simp)).symm
      simp only
      cases genAny rand st.n whitespace <;> rfl
  | opClass ccs =>
      refine Eq.trans ?_ (if_neg (by simp)).symm
      simp only
      cases genClass rand st.n ccs <;> rfl
  | opNclass ccs =>
      refine Eq.trans ?_ (if_neg (by simp)).symm
      simp only
      cases findNchar rand st.n ccs <;> rfl
  | opBranch x y =>
      refine Eq.trans ?_ (if_neg (by simp)).symm
      simp only
      cases choice rand st.n (if st.strb.length ≥ limit then 0 else generosity) <;> rfl

/-- Branches are not left for `x` any more. -/
def Limited (generosity limit : Nat) (st : GenState) : Prop :=
  limit ≤ st.strb.length ∨ generosity = 0

/-- What a step of a compiled program does. -/
structure StepsOn (exe : List Inst) (generosity limit : Nat) (st st' : GenState) : Prop where
  inside : st'.ip < exe.length
  grows : st.strb.length ≤ st'.strb.length
  writes : st'.strb.length ≤ st.strb.length + 1
  forward : Limited generosity limit st → st.ip < st'.ip

theorem StepsOn.limited (h : StepsOn exe generosity limit st st')
    (hlim : Limited generosity limit st) : Limited generosity limit st' := by
  rcases hlim with hlim | hlim
  · exact Or.inl (hlim.trans h.grows)
  · exact Or.inr hlim

/-- The instruction writes one character. -/
theorem StepsOn.write (hwf : WellFormed exe) {inst : Inst} (hi : exe[st.ip]? = some inst)
    (hmatch : inst ≠ .opMatch) (c : CChar) (n : Nat) :
    StepsOn exe generosity limit st ⟨st.ip + 1, st.strb ++ [c], n⟩ :=
  ⟨hwf.succ_lt hi hmatch, by simp, by simp, fun _ => Nat.lt_succ_self _⟩

/-- It writes a newline, or nothing. -/
theorem StepsOn.newline (hwf : WellFormed exe) {inst : Inst} (hi : exe[st.ip]? = some inst)
    (hmatch : inst ≠ .opMatch) (p : Prop) [Decidable p] :
    StepsOn exe generosity limit st
      ⟨st.ip + 1, if p then st.strb ++ [Rxvm.newline] else st.strb, st.n⟩ := by
  have hlen : (if p then st.strb ++ [Rxvm.newline] else st.strb).length =
      st.strb.length + if p then 1 else 0 := by
    split <;> simp
  refine ⟨hwf.succ_lt hi hmatch, ?_, ?_, fun _ => Nat.lt_succ_self _⟩
  · show _ ≤ (if p then st.strb ++ [Rxvm.newline] else st.strb).length
    omega
  · show (if p then st.strb ++ [Rxvm.newline] else st.strb).length ≤ _
    rw [hlen]
    split <;> omega

theorem genStep_advances (hok : ProgramOk exe) (hip : st.ip < exe.length)
    (h : genStep rand exe generosity whitespace limit st = some st') :
    StepsOn exe generosity limit st st' := by
  have hwf := hok.wellFormed
  obtain ⟨inst, hi⟩ : ∃ inst, exe[st.ip]? = some inst := ⟨_, List.getElem?_eq_getElem hip⟩
  have hleads := hok.leads st.ip inst hi
  rw [genStep, fetch_eq hi] at h
  cases inst with
  | opMatch => cases h
  -- an instruction that writes a character goes to the next one
  | opChar c =>
      cases h
      exact .write hwf hi (by simp) c _
  | opAny =>
      rcases Option.map_eq_some_iff.mp h with ⟨r, _, rfl⟩
      exact .write hwf hi (by simp) _ _
  | opSol =>
      cases h
      exact .newline hwf hi (by simp) _
  | opEol =>
      cases h
      exact .newline hwf hi (by simp) _
  | opClass ccs =>
      rcases Option.map_eq_some_iff.mp h with ⟨r, _, rfl⟩
      exact .write hwf hi (by simp) _ _
  | opNclass ccs =>
      rcases Option.map_eq_some_iff.mp h with ⟨r, _, rfl⟩
      exact .write hwf hi (by simp) _ _
  | opBranch x y =>
      rcases Option.map_eq_some_iff.mp h with ⟨⟨b, n'⟩, hchoice, rfl⟩
      simp only [Inst.leads] at hleads
      refine ⟨?_, le_rfl, Nat.le_succ _, ?_⟩
      · show (if b then x else y).toNat < exe.length
        split <;> omega
      · -- with probability 0 the walk goes on at `y`
        intro hlim
        have hzero : (if st.strb.length ≥ limit then 0 else generosity) = 0 := by
          rcases hlim with hlim | hlim
          · exact if_pos hlim
          · rw [hlim, ite_self]
        rw [hzero] at hchoice
        rw [choice_zero hchoice]
        show st.ip < y.toNat
        omega
  -- a jump leads on in the program
  | opJmp x =>
      cases h
      simp only [Inst.leads] at hleads
      refine ⟨?_, le_rfl, Nat.le_succ _, fun _ => ?_⟩
      · show x.toNat < exe.length
        omega
      · show st.ip < x.toNat
        omega

/-- `rand_range` can be asked for an index into the class. -/
def Inst.Drawable : Inst → Prop
  | .opClass ccs => u32 ccs.length ≠ 0
  | _ => True

/-- The walk has a next step but at `match` and where it divides by zero. -/
theorem genStep_some_iff (hchars : Matchables exe) {inst : Inst} (hi : exe[st.ip]? = some inst)
    (hmatch : inst ≠ .opMatch) :
    (∃ st', genStep rand exe generosity whitespace limit st = some st') ↔ inst.Drawable := by
  rw [genStep, fetch_eq hi]
  cases inst with
  | opMatch => exact absurd rfl hmatch
  | opChar => exact ⟨fun _ => trivial, fun _ => ⟨_, rfl⟩⟩
  | opSol => exact ⟨fun _ => trivial, fun _ => ⟨_, rfl⟩⟩
  | opEol => exact ⟨fun _ => trivial, fun _ => ⟨_, rfl⟩⟩
  | opJmp => exact ⟨fun _ => trivial, fun _ => ⟨_, rfl⟩⟩
  | opAny =>
      rcases @genAny_some rand st.n whitespace with ⟨r, hr⟩
      exact ⟨fun _ => trivial, fun _ => ⟨_, by simp only [hr]; rfl⟩⟩
  | opNclass ccs =>
      rcases @findNchar_some rand st.n ccs with ⟨r, hr⟩
      exact ⟨fun _ => trivial, fun _ => ⟨_, by simp only [hr]; rfl⟩⟩
  | opBranch x y =>
      rcases @choice_some rand st.n
        (if st.strb.length ≥ limit then 0 else generosity) with ⟨b, hb⟩
      exact ⟨fun _ => trivial, fun _ => ⟨_, by simp only [hb]; rfl⟩⟩
  | opClass ccs =>
      -- only a class may have nothing to draw from
      have hccs : ccs ≠ [] ∧ NoNul ccs := hchars _ (List.mem_of_getElem? hi)
      refine Iff.trans ?_ (@genClass_some_iff rand st.n ccs hccs.1)
      constructor
      · rintro ⟨st', hst'⟩
        rcases Option.map_eq_some_iff.mp hst' with ⟨r, hr, _⟩
        exact ⟨r, hr⟩
      · rintro ⟨r, hr⟩
        exact ⟨_, by simp only [hr]; rfl⟩

/-! ## The walk -/

/-- The walk of `rxvm_gen` comes by the state. -/
def Walks (rand : Nat → Nat) (exe : List Inst) (generosity whitespace limit : Nat)
    (st : GenState) : Prop :=
  ReflTransGen (fun a b => genStep rand exe generosity whitespace limit a = some b) ⟨0, [], 0⟩ st

theorem Walks.inside (hok : ProgramOk exe) (h : Walks rand exe generosity whitespace limit st) :
    st.ip < exe.length := by
  induction h with
  | refl => exact hok.length_pos
  | tail _ hstep ih => exact (genStep_advances hok ih hstep).inside

/-- Behind the limit the walk ends if it meets no class it cannot draw from. -/
theorem genLoop_ends (hok : ProgramOk exe) (hchars : Matchables exe) : ∀ (fuel : Nat)
    (st : GenState), Walks rand exe generosity whitespace limit st →
    Limited generosity limit st → exe.length ≤ st.ip + fuel →
    (∀ st' inst, Walks rand exe generosity whitespace limit st' →
      Limited generosity limit st' → exe[st'.ip]? = some inst → inst.Drawable) →
    ∃ out, genLoop rand exe generosity whitespace limit fuel st.ip st.strb st.n = some out := by
  intro fuel
  -- by induction on the instructions ahead: behind the limit every step goes forward
  induction fuel with
  | zero =>
      intro st hwalk _ hfuel _
      have := hwalk.inside hok
      omega
  | succ fuel ih =>
      intro st hwalk hlim hfuel hdraw
      have hip := hwalk.inside hok
      obtain ⟨inst, hi⟩ : ∃ inst, exe[st.ip]? = some inst := ⟨_, List.getElem?_eq_getElem hip⟩
      rw [genLoop_succ, fetch_eq hi]
      by_cases hmatch : inst = .opMatch
      · exact ⟨st.strb, if_pos hmatch⟩
      · rw [if_neg hmatch]
        rcases (genStep_some_iff hchars hi hmatch).mpr (hdraw st inst hwalk hlim hi) with
          ⟨st', hstep⟩
        have hadv := genStep_advances hok hip hstep
        have hforward := hadv.forward hlim
        rw [hstep, Option.bind_some]
        exact ih st' (hwalk.tail hstep) (hadv.limited hlim) (by omega) hdraw

/-- Behind the limit it writes no more characters than there are instructions
left. -/
theorem genLoop_limited (hok : ProgramOk exe) : ∀ (fuel : Nat) (st : GenState)
    (out : List CChar), st.ip < exe.length → Limited generosity limit st →
    genLoop rand exe generosity whitespace limit fuel st.ip st.strb st.n = some out →
    out.length + st.ip < st.strb.length + exe.length := by
  intro fuel
  induction fuel with
  | zero =>
      intro st out _ _ h
      cases h
  | succ fuel ih =>
      intro st out hip hlim h
      rw [genLoop_succ] at h
      split at h
      · obtain rfl := Option.some.inj h
        omega
      · rcases Option.bind_eq_some_iff.mp h with ⟨st', hstep, h⟩
        have hadv := genStep_advances hok hip hstep
        have hout := ih st' out hadv.inside (hadv.limited hlim) h
        have := hadv.forward hlim
        have := hadv.writes
        omega

/-- From any state in front of the limit. -/
theorem genLoop_length (hok : ProgramOk exe) : ∀ (fuel : Nat) (st : GenState)
    (out : List CChar), st.ip < exe.length → st.strb.length ≤ limit →
    genLoop rand exe generosity whitespace limit fuel st.ip st.strb st.n = some out →
    out.length ≤ limit + exe.length := by
  intro fuel
  induction fuel with
  | zero =>
      intro st out _ _ h
      cases h
  | succ fuel ih =>
      intro st out hip hle h
      by_cases hlim : limit ≤ st.strb.length
      · have := genLoop_limited hok (fuel + 1) st out hip (Or.inl hlim) h
        omega
      · rw [genLoop_succ] at h
        split at h
        · obtain rfl := Option.some.inj h
          omega
        · rcases Option.bind_eq_some_iff.mp h with ⟨st', hstep, h⟩
          have hadv := genStep_advances hok hip hstep
          have := hadv.writes
          exact ih st' out hadv.inside (by omega) h

end

/-- The limit `rxvm_gen` works with. -/
def limitOf (cfg : Option GenCfg) : Nat := (cfg.map (·.limit)).getD defaultLimit

/-- Whatever the configuration and the random values: wherever the walk is when
it has reached the limit, or from the start on without generosity, it comes to
`match` in fewer further steps than the program has instructions. -/
def StopsSoon (exe : List Inst) : Prop :=
  ∀ rand generosity whitespace limit st, Walks rand exe generosity whitespace limit st →
    Limited generosity limit st →
    ∃ out, genLoop rand exe generosity whitespace limit exe.length st.ip st.strb st.n = some out

/-- A string that `rxvm_gen` returns is not much longer than the limit. The
walk stops soon behind the limit if and only if it meets no class there whose
length is a multiple of 2^32. -/
theorem rxvmGen_limit_iff {g g' : Statics} {exp : List CChar} {compiled : Compiled}
    (h : rxvmCompile g exp = .ok (.ok compiled, g')) (hprogram : compiled.simple = none) :
    (∀ rand fuel cfg gen, rxvmGen rand fuel compiled cfg = some gen →
      gen.str.length ≤ limitOf cfg + compiled.exe.length) ∧
    (StopsSoon compiled.exe ↔ ∀ rand generosity whitespace limit st ccs,
      Walks rand compiled.exe generosity whitespace limit st → Limited generosity limit st →
      compiled.exe[st.ip]? = some (.opClass ccs) → u32 ccs.length ≠ 0) := by
  rcases rxvmCompile_program h hprogram with ⟨_, _, _, _, _, _, _, _, _, _, hok, _⟩
  have hchars := rxvmCompile_matchable h hprogram
  refine ⟨?_, ?_, ?_⟩
  · intro rand fuel cfg gen hrun
    unfold rxvmGen at hrun
    rw [hprogram] at hrun
    rcases Option.bind_eq_some_iff.mp hrun with ⟨out, hloop, hout⟩
    cases hout
    exact genLoop_length hok fuel ⟨0, [], 0⟩ out hok.length_pos (Nat.zero_le _) hloop
  -- a walk that stops has drawn from the class it stands at
  · intro hstops rand generosity whitespace limit st ccs hwalk hlim hi
    rcases hstops rand generosity whitespace limit st hwalk hlim with ⟨out, hout⟩
    obtain ⟨fuel, hfuel⟩ : ∃ f, compiled.exe.length = f + 1 :=
      ⟨compiled.exe.length - 1, by have := hok.length_pos; omega⟩
    rw [hfuel, genLoop_succ, fetch_eq hi, if_neg (by simp)] at hout
    rcases Option.bind_eq_some_iff.mp hout with ⟨st', hstep, _⟩
    exact (genStep_some_iff hchars hi (by simp)).mp ⟨st', hstep⟩
  -- classes can be drawn from, so every step is possible
  · intro hdraw rand generosity whitespace limit st hwalk hlim
    refine genLoop_ends hok hchars _ st hwalk hlim (Nat.le_add_left _ _) ?_
    intro st' inst hwalk' hlim' hi
    cases inst with
    | opClass ccs => exact hdraw rand generosity whitespace limit st' ccs hwalk' hlim' hi
    | _ => trivial

/-! ## A class that is too long -/

/-- The program of a class that repeats one character. -/
theorem rxvmCompile_repeated (n : Nat) : ∃ compiled g',
    rxvmCompile Statics.init (charcOpenSym :: List.replicate (n + 1) 97 ++ [charcCloseSym]) =
      .ok (.ok compiled, g') ∧ compiled.simple = none ∧
      compiled.exe = [.opClass (List.replicate (n + 1) 97), .opMatch] := by
  obtain ⟨l, hl, hesc⟩ : ∃ l : Literal true, l.c = 97 ∧ l.esc = false :=
    ⟨⟨97, false, by simp, fun _ => ⟨by decide, Or.inl (by decide +kernel)⟩⟩, rfl, rfl⟩
  have hitems : SetItem.char l :: List.replicate n (.char l) = List.replicate (n + 1) (.char l) := rfl
  have htext : (List.replicate (n + 1) (SetItem.char l)).flatMap SetItem.text =
      List.replicate (n + 1) 97 := by
    simp [List.flatMap_replicate, SetItem.text, Literal.text, hl, hesc]
  have hchars : (List.replicate (n + 1) (SetItem.char l)).flatMap SetItem.chars =
      List.replicate (n + 1) 97 := by
    simp [List.flatMap_replicate, SetItem.chars, hl]
  set x := Lexeme.set false (.char l) (List.replicate n (.char l)) with hx
  have hexp : charcOpenSym :: List.replicate (n + 1) 97 ++ [charcCloseSym] = x.text := by
    simp [hx, Lexeme.text, hitems, htext]
  have hadm : x.Admissible := by
    intro item hitem
    rw [hitems] at hitem
    rw [List.eq_of_mem_replicate hitem]
    show l.c ≠ solSym
    rw [hl]
    decide
  have hstart : Reached x.text (Frames.backlog []) 0 := by
    have hsplit : x.text = ([] : List (Literal false)).flatMap Literal.text ++ (x.text ++ []) := by
      simp
    exact reached_start rfl hsplit
  have hdrop : x.text.drop 0 = x.text ++ [] := by simp
  have hreached := hstart.take hadm hdrop rfl
  rcases hreached.program (by simp) rfl with ⟨chained, compiled, g', hrun, hsimple, _, hexe⟩
  refine ⟨compiled, g', by rw [hexp]; exact hrun, hsimple, ?_⟩
  -- no jumps, so no chains
  have hprog : ∀ i, Direct [.opClass (List.replicate (n + 1) 97), .opMatch] i := by
    intro i y hi
    rcases i with _ | _ | i <;> cases hi
  have hlinked : linked chained [.opClass (List.replicate (n + 1) 97)] =
      .ok [.opClass (List.replicate (n + 1) 97), .opMatch] := by
    cases chained with
    | true => exact optimiseChainsLoop_direct hprog _ _
    | false => rfl
  rw [← hchars] at hlinked ⊢
  exact Except.ok.inj (hexe.symm.trans hlinked)

/-- The walk stands still in front of its first step if it cannot draw from the
class there. -/
theorem genLoop_stuck {exe : List Inst} {ccs : List CChar} (hchars : Matchables exe)
    (hi : exe[0]? = some (.opClass ccs)) (hcount : u32 ccs.length = 0) (rand : Nat → Nat)
    (fuel : Nat) : genLoop rand exe 0 0 0 fuel 0 [] 0 = none := by
  cases fuel with
  | zero => rfl
  | succ fuel =>
      have hnone : genStep rand exe 0 0 0 ⟨0, [], 0⟩ = none := by
        by_contra hsome
        rcases Option.ne_none_iff_exists'.mp hsome with ⟨st', hst'⟩
        exact (genStep_some_iff hchars hi (by simp)).mp ⟨st', hst'⟩ hcount
      refine (@genLoop_succ rand exe 0 0 0 ⟨0, [], 0⟩ fuel).trans ?_
      rw [hnone, fetch_eq hi, if_neg (by simp), Option.bind_none]

theorem rxvmGen_stuck {compiled : Compiled} {ccs : List CChar} (hsimple : compiled.simple = none)
    (hchars : Matchables compiled.exe) (hi : compiled.exe[0]? = some (.opClass ccs))
    (hcount : u32 ccs.length = 0) : ¬ StopsSoon compiled.exe ∧
      ∀ rand fuel, rxvmGen rand fuel compiled (some ⟨0, 0, 0⟩) = none := by
  constructor
  · intro hstops
    rcases hstops (fun _ => 0) 0 0 0 ⟨0, [], 0⟩ .refl (Or.inr rfl) with ⟨out, hout⟩
    cases (genLoop_stuck hchars hi hcount _ _).symm.trans hout
  · intro rand fuel
    have hgen : rxvmGen rand fuel compiled (some ⟨0, 0, 0⟩) =
        (genLoop rand compiled.exe 0 0 0 fuel 0 [] 0).bind fun str =>
          some ⟨str, some (str.length + 1)⟩ := by
      unfold rxvmGen
      rw [hsimple]
      rfl
    rw [hgen, genLoop_stuck hchars hi hcount, Option.bind_none]

/-- The class `[aa...a]` of 2^32 characters has length 0 as an `unsigned int`. -/
theorem rxvmGen_limit_repeated : ∃ compiled g',
    rxvmCompile Statics.init (charcOpenSym :: List.replicate 4294967296 97 ++ [charcCloseSym]) =
      .ok (.ok compiled, g') ∧ compiled.simple = none ∧ ¬ StopsSoon compiled.exe ∧
      ∀ rand fuel, rxvmGen rand fuel compiled (some ⟨0, 0, 0⟩) = none := by
  rcases rxvmCompile_repeated 4294967295 with ⟨compiled, g', hrun, hsimple, hexe⟩
  have hi : compiled.exe[0]? = some (.opClass (List.replicate (4294967295 + 1) 97)) := by
    rw [hexe, List.getElem?_cons_zero]
  have hcount : u32 (List.replicate (4294967295 + 1) (97 : CChar)).length = 0 := by
    rw [List.length_replicate]
    decide
  exact ⟨compiled, g', hrun, hsimple,
    rxvmGen_stuck hsimple (rxvmCompile_matchable hrun hsimple) hi hcount⟩

/-- The expression `a*` has no class. -/
theorem rxvmGen_limit_star : ∃ compiled g',
    rxvmCompile Statics.init [97, 42] = .ok (.ok compiled, g') ∧ StopsSoon compiled.exe ∧
      ∀ rand fuel cfg gen, rxvmGen rand fuel compiled cfg = some gen →
        gen.str.length ≤ limitOf cfg + compiled.exe.length := by
  have h : ∃ compiled g', rxvmCompile Statics.init [97, 42] = .ok (.ok compiled, g') ∧
      compiled.simple = none ∧
      compiled.exe = [.opBranch 1 3, .opChar 97, .opBranch 1 3, .opMatch] :=
    ⟨_, _, rfl, rfl, rfl⟩
  rcases h with ⟨compiled, g', hrun, hsimple, hexe⟩
  have hlimit := rxvmGen_limit_iff hrun hsimple
  refine ⟨compiled, g', hrun, hlimit.2.mpr ?_, hlimit.1⟩
  intro rand generosity whitespace limit st ccs _ _ hi
  rw [hexe] at hi
  have hmem := List.mem_of_getElem? hi
  simp at hmem

end Rxvm
