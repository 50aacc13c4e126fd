import Rxvm.GenLimit

/-!
# Rxvm.GenExact — every match can be generated

What `rxvm_gen` writes is matched. Conversely the values `rand()` returns can be
such that `rxvm_gen` follows a given path of the automaton: every string of
printable characters below the limit that is matched is written by some run.
-/

namespace Rxvm

open Relation

/-! ## Values of rand -/

/-- From call `n` on, `rand` returns these values. -/
def Rolls (rand : Nat → Nat) : Nat → List Nat → Prop
  | _, [] => True
  | n, v :: vs => rand n = v ∧ Rolls rand (n + 1) vs

section

variable {rand : Nat → Nat} {n randMax : Nat}

theorem rolls_append : ∀ {us vs : List Nat} {n : Nat},
    Rolls rand n (us ++ vs) ↔ Rolls rand n us ∧ Rolls rand (n + us.length) vs := by
  intro us
  induction us with
  | nil => simp [Rolls]
  | cons u us ih =>
      intro vs n
      have hn : n + 1 + us.length = n + (us.length + 1) := by omega
      simp only [List.cons_append, Rolls, ih, List.length_cons, and_assoc, hn]

/-- Any values up to `RAND_MAX` may be returned. -/
theorem exists_rolls (vs : List Nat) (hmax : ∀ v ∈ vs, v ≤ randMax) :
    ∃ rand, (∀ n, rand n ≤ randMax) ∧ Rolls rand 0 vs := by
  have hall : ∀ (vs us : List Nat), Rolls (fun m => (us ++ vs).getD m 0) us.length vs := by
    intro vs
    induction vs with
    | nil => exact fun _ => trivial
    | cons v vs ih =>
        intro us
        refine ⟨by simp, ?_⟩
        have h := ih (us ++ [v])
        rwa [List.append_assoc, List.length_append] at h
  refine ⟨_, ?_, hall vs []⟩
  intro n
  rw [List.nil_append, List.getD_eq_getElem?_getD]
  cases hn : vs[n]? with
  | none => exact Nat.zero_le _
  | some v => exact hmax v (List.mem_of_getElem? hn)

/-- Some values of `rand` up to `RAND_MAX` make a random choice come out as `a`. -/
def Obtains {α : Type} (randMax : Nat) (f : (Nat → Nat) → Nat → Option (α × Nat)) (a : α) : Prop :=
  ∃ vs : List Nat, (∀ v ∈ vs, v ≤ randMax) ∧
    ∀ rand n, Rolls rand n vs → f rand n = some (a, n + vs.length)

/-- One choice behind another. -/
theorem Obtains.bind {α β : Type} {f : (Nat → Nat) → Nat → Option (α × Nat)}
    {k : α → (Nat → Nat) → Nat → Option (β × Nat)} {a : α} {b : β} (hf : Obtains randMax f a)
    (hk : Obtains randMax (k a) b) :
    Obtains randMax (fun rand n => (f rand n).bind fun r => k r.1 rand r.2) b := by
  rcases hf with ⟨us, hus, hf⟩
  rcases hk with ⟨vs, hvs, hk⟩
  refine ⟨us ++ vs, List.forall_mem_append.mpr ⟨hus, hvs⟩, ?_⟩
  intro rand n h
  rcases rolls_append.mp h with ⟨hfirst, hsecond⟩
  show (f rand n).bind _ = _
  rw [hf rand n hfirst, Option.bind_some, hk rand _ hsecond, List.length_append, Nat.add_assoc]

theorem randRange_obtains {low high v : Nat} (hlow : low ≤ v) (hhigh : v ≤ high)
    (hlt : high + 1 < 4294967296) (hmax : high - low ≤ randMax) :
    Obtains randMax (fun rand n => randRange rand n low high) v := by
  refine ⟨[v - low], by simp; omega, ?_⟩
  intro rand n h
  have hcount : u32 ((u32 ((high : Int) - low) : Int) + 1) = high - low + 1 := by
    unfold u32
    omega
  show randRange rand n low high = some (v, n + 1)
  unfold randRange
  simp only [hcount]
  rw [if_neg (Nat.succ_ne_zero _), h.1, Nat.mod_eq_of_lt (by omega)]
  have hval : u32 ((low : Int) + (v - low : Nat)) = v := by
    unfold u32
    omega
  rw [hval]

/-- Both ways of a choice are open, if its probability is neither 0 nor above
100. -/
theorem choice_obtains {prob : Nat} (h0 : 0 < prob) (h100 : prob ≤ 100) (hmax : 100 ≤ randMax)
    (b : Bool) : Obtains randMax (fun rand n => choice rand n prob) b := by
  have hv : ∃ v, v ≤ 100 ∧ decide (v < prob) = b := by
    cases b with
    | true => exact ⟨0, by omega, by simpa using h0⟩
    | false => exact ⟨100, by omega, by simpa using h100⟩
  rcases hv with ⟨v, hv, hb⟩
  rcases randRange_obtains (Nat.zero_le v) hv (by omega) hmax with ⟨vs, hle, hvs⟩
  refine ⟨vs, hle, ?_⟩
  intro rand n h
  show choice rand n prob = _
  unfold choice
  have hrun : randRange rand n 0 100 = some (v, n + vs.length) := hvs rand n h
  rw [hrun, ← hb]
  rfl

theorem choice_obtains_false {prob : Nat} (h100 : prob ≤ 100) (hmax : 100 ≤ randMax) :
    Obtains randMax (fun rand n => choice rand n prob) false := by
  rcases randRange_obtains (Nat.zero_le 100) (Nat.le_refl 100) (by omega) hmax with ⟨vs, hle, hvs⟩
  refine ⟨vs, hle, ?_⟩
  intro rand n h
  show choice rand n prob = _
  unfold choice
  have hrun : randRange rand n 0 100 = some (100, n + vs.length) := hvs rand n h
  rw [hrun]
  have hfalse : decide (100 < prob) = false := by simpa using h100
  simp only [Option.bind_eq_bind, Option.bind_some, hfalse]
  rfl

/-! ## The characters that are written -/

/-- A printable character that is no whitespace but a blank. -/
def Visible (c : CChar) : Prop := printableLow ≤ c ∧ c ≤ printableHigh

theorem Visible.toInt {c : CChar} (h : Visible c) : 32 ≤ c.toInt ∧ c.toInt ≤ 126 :=
  ⟨Int8.le_iff_toInt_le.mp h.1, Int8.le_iff_toInt_le.mp h.2⟩

theorem Visible.ne_zero {c : CChar} (h : Visible c) : c ≠ 0 := by
  rintro rfl
  exact absurd h.toInt.1 (by decide)

/-- A random character of the printable ones. -/
theorem visible_obtains {c : CChar} (h : Visible c) (hmax : 100 ≤ randMax) :
    Obtains randMax (fun rand n => (randRange rand n printableLow.toInt.toNat
      printableHigh.toInt.toNat).bind fun r => some (Int8.ofNat r.1, r.2)) c := by
  have hc := h.toInt
  have hb := printable_bounds
  have hrange : Obtains randMax (fun rand n => randRange rand n printableLow.toInt.toNat
      printableHigh.toInt.toNat) c.toInt.toNat :=
    randRange_obtains (by omega) (by omega) (by omega) (by omega)
  refine hrange.bind (k := fun r _ n => some (Int8.ofNat r, n)) ⟨[], by simp, ?_⟩
  intro rand n _
  show some (Int8.ofNat c.toInt.toNat, n) = some (c, n + 0)
  have hval : Int8.ofNat c.toInt.toNat = c := by
    apply Int8.toInt_inj.mp
    rw [Int8.toInt_ofNat_of_lt (by omega)]
    omega
  rw [hval]
  rfl

theorem genAny_obtains {c : CChar} (h : Visible c) {whitespace : Nat} (hws : whitespace ≤ 100)
    (hmax : 100 ≤ randMax) : Obtains randMax (fun rand n => genAny rand n whitespace) c := by
  rcases choice_obtains_false hws hmax with ⟨us, hule, hus⟩
  rcases visible_obtains h hmax with ⟨vs, hvle, hvs⟩
  refine ⟨us ++ vs, List.forall_mem_append.mpr ⟨hule, hvle⟩, ?_⟩
  intro rand n hrolls
  rcases rolls_append.mp hrolls with ⟨hfirst, hsecond⟩
  show genAny rand n whitespace = _
  unfold genAny
  have hchoice : choice rand n whitespace = some (false, n + us.length) := hus rand n hfirst
  rw [hchoice]
  have hrange := hvs rand _ hsecond
  rw [List.length_append, ← Nat.add_assoc, ← hrange]
  rfl

theorem genClass_obtains {ccs : List CChar} {c : CChar} (hc : c ∈ ccs)
    (hlen : ccs.length < 4294967296) (hmax : ccs.length ≤ randMax + 1) :
    Obtains randMax (fun rand n => genClass rand n ccs) c := by
  rcases List.getElem_of_mem hc with ⟨ix, hix, hget⟩
  have hhigh : u32 ((ccs.length : Int) - 1) = ccs.length - 1 := by
    unfold u32
    omega
  have hrange : Obtains randMax (fun rand n => randRange rand n 0 (u32 ((ccs.length : Int) - 1)))
      ix := by
    rw [hhigh]
    exact randRange_obtains (Nat.zero_le _) (by omega) (by omega) (by omega)
  refine hrange.bind (k := fun r _ n => some (at' ccs r, n)) ⟨[], by simp, ?_⟩
  intro rand n _
  have hat : at' ccs ix = c := by
    simp [at', hix, hget]
  show some (at' ccs ix, n) = _
  rw [hat]
  rfl

theorem findNchar_obtains {ccs : List CChar} {c : CChar} (h : Visible c) (hc : c ∉ ccs)
    (hmax : 100 ≤ randMax) : Obtains randMax (fun rand n => findNchar rand n ccs) c := by
  rcases visible_obtains h hmax with ⟨vs, hle, hvs⟩
  refine ⟨vs, hle, ?_⟩
  intro rand n hrolls
  rcases Option.bind_eq_some_iff.mp (hvs rand n hrolls) with ⟨⟨r, n'⟩, hrange, hr⟩
  obtain ⟨hval, rfl⟩ := Prod.mk.inj (Option.some.inj hr)
  show findNchar rand n ccs = _
  unfold findNchar
  rw [hrange]
  have hfind : findNcharLoop ccs 191 (Int8.ofNat r) 0 = some c := by
    rw [hval, findNcharLoop, if_neg hc]
  simp only [Option.bind_eq_bind, Option.bind_some, hfind]
  rfl

end

/-! ## The walk along a path -/

/-- `rand()` can come to each character of a class: there is a value up to
`RAND_MAX` for each. -/
def Inst.Sampled (randMax : Nat) : Inst → Prop
  | .opClass ccs => ccs.length ≤ randMax + 1
  | _ => True

/-- What `RAND_MAX` may be: an `int`, and 32767 at least. -/
structure RandMax (randMax : Nat) : Prop where
  ge : 32767 ≤ randMax
  lt : randMax < 2147483648

/-- Some values of `rand` up to `RAND_MAX` lead the walk from an instruction to the
whole string. -/
def Leads (randMax : Nat) (exe : List Inst) (generosity whitespace limit : Nat) (s : List CChar)
    (ip p : Nat) : Prop :=
  ∃ vs : List Nat, (∀ v ∈ vs, v ≤ randMax) ∧ ∀ rand n, Rolls rand n vs →
    ∃ fuel, genLoop rand exe generosity whitespace limit fuel ip (s.take p) n = some s

section

variable {exe : List Inst} {generosity whitespace limit randMax : Nat} {s : List CChar}
  {ip p : Nat}

/-- An instruction that reads the next character writes it. -/
theorem Leads.write (hmax : RandMax randMax) {inst : Inst} {c : CChar} (hi : exe[ip]? = some inst) (hp : s[p]? = some c)
    (hc : Visible c) (he : inst.eats false c = true) (hws : whitespace ≤ 100)
    (hsampled : inst.Sampled randMax)
    (h : Leads randMax exe generosity whitespace limit s (ip + 1) (p + 1)) :
    Leads randMax exe generosity whitespace limit s ip p := by
  have htake : s.take (p + 1) = s.take p ++ [c] := by rw [List.take_add_one, hp]; rfl
  have hge := hmax.ge
  have hlt := hmax.lt
  rcases h with ⟨vs, hvle, h⟩
  rw [htake] at h
  -- the values of this choice, and then the ones of the rest
  have hdraw : ∀ f : (Nat → Nat) → Nat → Option (CChar × Nat), Obtains randMax f c →
      (∀ rand n fuel, genLoop rand exe generosity whitespace limit (fuel + 1) ip (s.take p) n =
        (f rand n).bind fun r =>
          genLoop rand exe generosity whitespace limit fuel (ip + 1) (s.take p ++ [r.1]) r.2) →
      Leads randMax exe generosity whitespace limit s ip p := by
    rintro f ⟨us, hule, hf⟩ hloop
    refine ⟨us ++ vs, List.forall_mem_append.mpr ⟨hule, hvle⟩, ?_⟩
    intro rand n hrolls
    rcases rolls_append.mp hrolls with ⟨hus, hvs⟩
    rcases h rand _ hvs with ⟨fuel, hrest⟩
    refine ⟨fuel + 1, ?_⟩
    rw [hloop, hf rand n hus]
    exact hrest
  have hloop : ∀ rand n fuel, genLoop rand exe generosity whitespace limit (fuel + 1) ip
      (s.take p) n = _ := fun rand n fuel => by rw [genLoop, fetch_eq hi]
  -- the instruction draws `c` with values of its own
  cases inst with
  | opChar d =>
      obtain rfl : c = d := charMatch_false.mp he
      exact hdraw (fun _ n => some (c, n)) ⟨[], by simp, fun _ _ _ => rfl⟩ hloop
  | opAny => exact hdraw _ (genAny_obtains hc hws (by omega)) hloop
  | opClass ccs =>
      have hlen : ccs.length ≤ randMax + 1 := hsampled
      exact hdraw _ (genClass_obtains (ccsMatch_false.mp he) (by omega) hlen) hloop
  | opNclass ccs =>
      have hout : c ∉ ccs := by
        intro hmem
        simp [Inst.eats, ccsMatch_false.mpr hmem] at he
      exact hdraw _ (findNchar_obtains hc hout (by omega)) hloop
  | _ => cases he

/-- A branch is taken either way. -/
theorem Leads.branch (hmax : RandMax randMax) {x y : Int} (hi : exe[ip]? = some (.opBranch x y)) (b : Bool)
    (h0 : 0 < generosity) (h100 : generosity ≤ 100) (hlen : s.length < limit)
    (h : Leads randMax exe generosity whitespace limit s (if b then x else y).toNat p) :
    Leads randMax exe generosity whitespace limit s ip p := by
  have hge := hmax.ge
  rcases @choice_obtains randMax _ h0 h100 (by omega) b with ⟨us, hule, hus⟩
  rcases h with ⟨vs, hvle, h⟩
  refine ⟨us ++ vs, List.forall_mem_append.mpr ⟨hule, hvle⟩, ?_⟩
  intro rand n hrolls
  rcases rolls_append.mp hrolls with ⟨hfirst, hsecond⟩
  rcases h rand _ hsecond with ⟨fuel, hrest⟩
  refine ⟨fuel + 1, ?_⟩
  have hval : ¬ (s.take p).length ≥ limit := by
    rw [List.length_take]
    omega
  have hchoice : choice rand n generosity = some (b, n + us.length) := hus rand n hfirst
  rw [genLoop, fetch_eq hi]
  simp only [if_neg hval, hchoice]
  exact hrest

theorem Leads.jmp {x : Int} (hi : exe[ip]? = some (.opJmp x))
    (h : Leads randMax exe generosity whitespace limit s x.toNat p) :
    Leads randMax exe generosity whitespace limit s ip p := by
  rcases h with ⟨vs, hle, h⟩
  refine ⟨vs, hle, ?_⟩
  intro rand n hrolls
  rcases h rand n hrolls with ⟨fuel, hrest⟩
  refine ⟨fuel + 1, ?_⟩
  rw [genLoop, fetch_eq hi]
  exact hrest

theorem Leads.opMatch (hi : exe[ip]? = some .opMatch) :
    Leads randMax exe generosity whitespace limit s ip s.length := by
  refine ⟨[], by simp, ?_⟩
  intro rand n _
  refine ⟨1, ?_⟩
  rw [genLoop, fetch_eq hi, List.take_length]

/-- A path to the end can be walked: by induction on the path, from its end. -/
theorem leads_of_path (hmax : RandMax randMax) {m : Nat} (hm : exe[m]? = some .opMatch)
    (hgen : ∀ inst ∈ exe, inst.Generable) (hsampled : ∀ inst ∈ exe, inst.Sampled randMax)
    (hs : ∀ c ∈ s, Visible c) (hws : whitespace ≤ 100) (h0 : 0 < generosity)
    (h100 : generosity ≤ 100) (hlen : s.length < limit) {a : Nat × Nat}
    (h : NfaPath false true s exe a (m, s.length)) :
    Leads randMax exe generosity whitespace limit s a.1 a.2 := by
  induction h using ReflTransGen.head_induction_on with
  | refl => exact .opMatch hm
  | head hstep _ ih =>
      cases hstep with
      | eat hi hp he =>
          have hmem := List.mem_of_getElem? hi
          have hc := at'_getElem? hp
          exact .write hmax hi hc (hs _ (List.mem_of_getElem? hc)) he hws (hsampled _ hmem) ih
      | sol hi => exact (hgen _ (List.mem_of_getElem? hi)).elim
      | eol hi => exact (hgen _ (List.mem_of_getElem? hi)).elim
      | branchX hi => exact .branch hmax hi true h0 h100 hlen ih
      | branchY hi => exact .branch hmax hi false h0 h100 hlen ih
      | jmp hi => exact .jmp hi ih

end

/-! ## What is generated -/

/-- What the loop writes is accepted. -/
theorem genLoop_accepted {exe : List Inst} (hwf : WellFormed exe) (hchars : Matchables exe)
    (hgen : ∀ inst ∈ exe, inst.Generable) {rand : Nat → Nat}
    {generosity whitespace limit fuel : Nat} {out : List CChar}
    (h : genLoop rand exe generosity whitespace limit fuel 0 [] 0 = some out) :
    NoNul out ∧ Accepts false true out exe 0 out.length := by
  rcases genLoop_walked hwf hchars hgen _ _ _ _ _ hwf.length_pos h with
    ⟨rest, m, hrest, hnul, hm, hpath⟩
  obtain rfl : out = rest := hrest
  exact ⟨hnul, m, hm, hpath⟩

def generosityOf (cfg : Option GenCfg) : Nat :=
  (cfg.map (·.generosity.toNat)).getD defaultGenProb

def whitespaceOf (cfg : Option GenCfg) : Nat :=
  (cfg.map (·.whitespace.toNat)).getD defaultWsProb

/-- The configuration leaves both ways of a branch open, and does not write
whitespace only. -/
structure Fair (cfg : Option GenCfg) : Prop where
  pos : 0 < generosityOf cfg
  le : generosityOf cfg ≤ 100
  whitespace : whitespaceOf cfg ≤ 100

/-- Below the limit `rxvm_gen` can write a string of printable characters, with
values of `rand()` up to `RAND_MAX`, exactly if `rxvm_match` accepts it. -/
theorem rxvmGen_iff_match {g g' : Statics} {exp : List CChar} {compiled : Compiled}
    {randMax : Nat} (hmax : RandMax randMax) (h : rxvmCompile g exp = .ok (.ok compiled, g'))
    (hgen : ∀ inst ∈ compiled.exe, inst.Generable)
    (hsampled : ∀ inst ∈ compiled.exe, inst.Sampled randMax) {cfg : Option GenCfg}
    (hfair : Fair cfg) {s : List CChar} (hs : ∀ c ∈ s, Visible c) (hlen : s.length < limitOf cfg) :
    (∃ rand fuel gen, (∀ n, rand n ≤ randMax) ∧ rxvmGen rand fuel compiled cfg = some gen ∧
      gen.str = s) ↔ rxvmMatch compiled s {} = some 1 := by
  have hnul : NoNul s := fun c hc => (hs c hc).ne_zero
  cases hsimple : compiled.simple with
  | some text =>
      -- a text of literals: generation draws nothing
      rcases rxvmCompile_simple h hsimple with ⟨rfl, hclosed⟩
      rcases rxvmMatch_simple hsimple (noNul_cstring exp) hnul {} with ⟨ret, hret, _, hiff⟩
      have hmatch : rxvmMatch compiled s {} = some 1 ↔ unescape (cstring exp) = s := by
        rw [hret, Option.some_inj, hiff, sameChars_false]
      have hstr : ∀ rand fuel gen, rxvmGen rand fuel compiled cfg = some gen →
          gen.str = unescape (cstring exp) := by
        intro rand fuel gen hrun
        unfold rxvmGen at hrun
        rw [hsimple] at hrun
        cases hrun
        exact genSimple_eq hclosed _
      rw [hmatch]
      constructor
      · rintro ⟨rand, fuel, gen, _, hrun, rfl⟩
        exact (hstr rand fuel gen hrun).symm
      · rintro rfl
        have hrun : ∃ gen, rxvmGen (fun _ => 0) 0 compiled cfg = some gen := by
          unfold rxvmGen
          rw [hsimple]
          exact ⟨_, rfl⟩
        rcases hrun with ⟨gen, hrun⟩
        exact ⟨_, _, gen, fun _ => Nat.zero_le _, hrun, hstr _ _ gen hrun⟩
  | none =>
      have hwf := rxvmCompile_wellFormed h hsimple
      rcases rxvmMatch_spec hsimple hwf hnul {} with ⟨ret, hret, _, hiff⟩
      rw [hret, Option.some_inj, hiff]
      constructor
      · rintro ⟨rand, fuel, gen, _, hrun, rfl⟩
        unfold rxvmGen at hrun
        rw [hsimple] at hrun
        rcases Option.bind_eq_some_iff.mp hrun with ⟨out, hloop, hout⟩
        cases hout
        exact (genLoop_accepted hwf (rxvmCompile_matchable h hsimple) hgen hloop).2
      · rintro ⟨m, hm, hpath⟩
        -- the path of the match, with the values that lead along it
        rcases leads_of_path hmax hm hgen hsampled hs hfair.whitespace hfair.pos hfair.le hlen
          hpath with ⟨vs, hle, hleads⟩
        rcases exists_rolls vs hle with ⟨rand, hbound, hrolls⟩
        rcases hleads rand 0 hrolls with ⟨fuel, hloop⟩
        refine ⟨rand, fuel, ⟨s, cfg.map fun _ => s.length + 1⟩, hbound, ?_, rfl⟩
        unfold rxvmGen
        rw [hsimple]
        exact Option.bind_eq_some_iff.mpr ⟨s, hloop, rfl⟩

/-- The expression `a[^b]+` and the string `acc`, which is matched. -/
theorem rxvmGen_iff_match_nclass : ∃ compiled g',
    rxvmCompile Statics.init [97, 91, 94, 98, 93, 43] = .ok (.ok compiled, g') ∧
      ∃ rand fuel gen, (∀ n, rand n ≤ 32767) ∧ rxvmGen rand fuel compiled none = some gen ∧
        gen.str = [97, 99, 99] := by
  have h : ∃ compiled g', rxvmCompile Statics.init [97, 91, 94, 98, 93, 43] =
      .ok (.ok compiled, g') ∧
      compiled.exe = [.opChar 97, .opNclass [98], .opBranch 1 3, .opMatch] ∧
      rxvmMatch compiled [97, 99, 99] {} = some 1 := ⟨_, _, rfl, rfl, by decide⟩
  rcases h with ⟨compiled, g', h, hexe, hmatch⟩
  refine ⟨compiled, g', h, (rxvmGen_iff_match ⟨Nat.le_refl _, by decide⟩ h ?_ ?_
    ⟨by decide, by decide, by decide⟩ ?_ ?_).mpr hmatch⟩
  · have homits : Omits [98] := ⟨97, by decide, by decide, by decide⟩
    rw [hexe]
    simp [Inst.Generable, homits]
  · rw [hexe]
    simp [Inst.Sampled]
  · simp only [Visible]
    decide +kernel
  · decide

end Rxvm
