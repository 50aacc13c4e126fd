import Rxvm.Gen
import Rxvm.Instructions
import Rxvm.LiteralSpec
import Rxvm.Progress

/-!
# Rxvm.GenSpec — what rxvm_gen writes is matched

The walk of `rxvm_gen` is a path of the automaton on the string it writes: each
character it writes passes the test of its instruction. So the string is
accepted, and `rxvm_match` decides acceptance. The string of a literal-only
expression is the one `simple_match` compares the input with.
-/

namespace Rxvm

open Relation

/-! ## Random choices -/

section

variable {rand : Nat → Nat} {n low high : Nat}

/-- `rand_range` stays in its range. -/
theorem randRange_mem {r n' : Nat} (hle : low ≤ high) (hhigh : high < 4294967296)
    (h : randRange rand n low high = some (r, n')) : low ≤ r ∧ r ≤ high := by
  unfold randRange at h
  have hdiff : u32 ((high : Int) - low) = high - low := by
    unfold u32
    omega
  rw [hdiff] at h
  simp only at h
  by_cases hcount : u32 (((high - low : Nat) : Int) + 1) = 0
  · rw [if_pos hcount] at h
    cases h
  · rw [if_neg hcount] at h
    have hpos := Nat.pos_of_ne_zero hcount
    have hval : u32 (((high - low : Nat) : Int) + 1) ≤ high - low + 1 := by
      unfold u32
      omega
    have hmod := Nat.mod_lt (rand n) hpos
    obtain ⟨rfl, rfl⟩ := Prod.mk.inj (Option.some.inj h)
    unfold u32 at hmod hval ⊢
    omega

theorem chr_range (low high : CChar) (h0 : 0 ≤ low.toInt) (hle : low.toInt ≤ high.toInt)
    {r n' : Nat} (h : randRange rand n low.toInt.toNat high.toInt.toNat = some (r, n')) :
    low.toInt ≤ (Int8.ofNat r).toInt ∧ (Int8.ofNat r).toInt ≤ high.toInt := by
  have hlt := Int8.toInt_lt high
  have hr := randRange_mem (by omega) (by omega) h
  rw [Int8.toInt_ofNat_of_lt (by omega)]
  omega

theorem printable_bounds : printableLow.toInt = 32 ∧ printableHigh.toInt = 126 := by decide

/-- `case OP_ANY` writes a character that is neither NUL nor a newline. -/
theorem genAny_eats {whitespace : Nat} {c : CChar} {n' : Nat}
    (h : genAny rand n whitespace = some (c, n')) : c ≠ 0 ∧ c ≠ newline := by
  have hws : wsLow.toInt = 7 ∧ wsHigh.toInt = 13 := by decide
  have hnl : newline.toInt = 10 := by decide
  unfold genAny at h
  rcases Option.bind_eq_some_iff.mp h with ⟨⟨ws, m⟩, _, h⟩
  cases ws with
  | true =>
      simp only [if_true] at h
      rcases Option.bind_eq_some_iff.mp h with ⟨⟨r, m'⟩, hrange, h⟩
      have hr := chr_range wsLow wsHigh (by decide) (by decide) hrange
      obtain ⟨rfl, -⟩ := Prod.mk.inj (Option.some.inj h)
      split_ifs with hline
      · exact ⟨by decide, by decide⟩
      · have hval : (Int8.ofNat r).toInt ≠ 0 := by omega
        exact ⟨ne_zero_of_toInt hval, hline⟩
  | false =>
      simp only [Bool.false_eq_true, if_false] at h
      rcases Option.bind_eq_some_iff.mp h with ⟨⟨r, m'⟩, hrange, h⟩
      have hr := chr_range printableLow printableHigh (by decide) (by decide) hrange
      have hbounds := printable_bounds
      obtain ⟨rfl, -⟩ := Prod.mk.inj (Option.some.inj h)
      have hval : (Int8.ofNat r).toInt ≠ 0 := by omega
      refine ⟨ne_zero_of_toInt hval, ?_⟩
      intro e
      rw [e] at hr
      omega

/-- `case OP_CLASS` writes a character of the class. -/
theorem genClass_mem {ccs : List CChar} {c : CChar} {n' : Nat} (hccs : ccs ≠ [])
    (h : genClass rand n ccs = some (c, n')) : c ∈ ccs := by
  unfold genClass at h
  rcases Option.bind_eq_some_iff.mp h with ⟨⟨ix, m⟩, hrange, h⟩
  obtain ⟨rfl, -⟩ := Prod.mk.inj (Option.some.inj h)
  have hpos := List.length_pos_iff.mpr hccs
  have hlast : u32 ((ccs.length : Int) - 1) ≤ ccs.length - 1 ∧
      u32 ((ccs.length : Int) - 1) < 4294967296 := by
    unfold u32
    omega
  have hix := randRange_mem (Nat.zero_le _) hlast.2 hrange
  have hlt : ix < ccs.length := by omega
  exact List.mem_of_getElem? (at'_getElem? hlt)

/-! ## find_nchar -/

/-- A printable character that the class omits, and that the scan has not
passed by yet. -/
def Ahead (ccs : List CChar) (c : CChar) (wraps : Nat) : Prop :=
  ∃ d : CChar, printableLow ≤ d ∧ d ≤ printableHigh ∧ d ∉ ccs ∧ (wraps = 0 ∨ c ≤ d)

/-- The loop of `find_nchar` ends in two passes over the printable characters,
and finds one that the class omits. -/
theorem findNcharLoop_finds (ccs : List CChar) : ∀ (fuel : Nat) (c : CChar) (wraps : Nat),
    wraps ≤ 1 → 32 ≤ c.toInt → c.toInt ≤ 126 → 126 - c.toInt + 95 * (1 - wraps : Nat) < fuel →
    ∃ c', findNcharLoop ccs fuel c wraps = some c' ∧
      (Ahead ccs c wraps → c' ∉ ccs ∧ c' ≠ 0) := by
  have hbounds := printable_bounds
  intro fuel
  -- the fuel counts the candidates left in both passes
  induction fuel with
  | zero =>
      intro c wraps _ _ _ hfuel
      omega
  | succ fuel ih =>
      intro c wraps hwraps hlow hhigh hfuel
      unfold findNcharLoop
      by_cases hmem : c ∈ ccs
      · rw [if_pos hmem]
        by_cases hlt : c < printableHigh
        · rw [if_pos hlt]
          rw [Int8.lt_iff_toInt_lt] at hlt
          have hsucc := toInt_succ (show c.toInt < 127 by omega)
          rcases ih (c + 1) wraps hwraps (by omega) (by omega) (by omega) with ⟨c', hrun, hspec⟩
          refine ⟨c', hrun, ?_⟩
          rintro ⟨d, hd1, hd2, hd, hahead⟩
          refine hspec ⟨d, hd1, hd2, hd, ?_⟩
          -- the candidate itself is listed, so the omitted one lies behind it
          rcases hahead with h0 | hle
          · exact Or.inl h0
          · right
            have hne : c.toInt ≠ d.toInt := by
              intro e
              exact hd (Int8.toInt_inj.mp e ▸ hmem)
            rw [Int8.le_iff_toInt_le] at hle ⊢
            omega
        · rw [if_neg hlt]
          rw [Int8.lt_iff_toInt_lt] at hlt
          by_cases hwrap : wraps + 1 > 1
          · -- the second pass has come to its end
            rw [if_pos hwrap]
            refine ⟨0, rfl, ?_⟩
            rintro ⟨d, _, hd2, hd, hahead⟩
            exfalso
            rcases hahead with h0 | hle
            · omega
            · rw [Int8.le_iff_toInt_le] at hle hd2
              have heq : c.toInt = d.toInt := by omega
              exact hd (Int8.toInt_inj.mp heq ▸ hmem)
          · -- the second pass starts at the first printable character
            rw [if_neg hwrap]
            obtain rfl : wraps = 0 := by omega
            rcases ih printableLow 1 (by omega) (by omega) (by omega) (by omega) with
              ⟨c', hrun, hspec⟩
            refine ⟨c', hrun, ?_⟩
            rintro ⟨d, hd1, hd2, hd, _⟩
            exact hspec ⟨d, hd1, hd2, hd, Or.inr hd1⟩
      · -- the candidate is not listed
        rw [if_neg hmem]
        exact ⟨c, rfl, fun _ => ⟨hmem, ne_zero_of_toInt (by omega)⟩⟩

/-- The class omits a printable character. -/
def Omits (ccs : List CChar) : Prop :=
  ∃ c : CChar, printableLow ≤ c ∧ c ≤ printableHigh ∧ c ∉ ccs

theorem findNchar_omitted {ccs : List CChar} {c : CChar} {n' : Nat} (homits : Omits ccs)
    (h : findNchar rand n ccs = some (c, n')) : c ∉ ccs ∧ c ≠ 0 := by
  have hbounds := printable_bounds
  unfold findNchar at h
  rcases Option.bind_eq_some_iff.mp h with ⟨⟨r, m⟩, hrange, h⟩
  rcases Option.bind_eq_some_iff.mp h with ⟨c', hloop, h⟩
  obtain ⟨rfl, -⟩ := Prod.mk.inj (Option.some.inj h)
  have hr := chr_range printableLow printableHigh (by decide) (by decide) hrange
  rcases findNcharLoop_finds ccs 191 (Int8.ofNat r) 0 (by omega) (by omega) (by omega) (by omega)
    with ⟨c₁, hrun, hspec⟩
  obtain rfl : c₁ = c' := Option.some.inj (hrun.symm.trans hloop)
  rcases homits with ⟨d, hd1, hd2, hd⟩
  exact hspec ⟨d, hd1, hd2, hd, Or.inl rfl⟩

end

/-! ## The walk -/

/-- The instruction is none that `rxvm_gen` may miss: no anchor, and no negated
class of all printable characters. -/
def Inst.Generable : Inst → Prop
  | .opSol | .opEol => False
  | .opNclass ccs => Omits ccs
  | _ => True

section

variable {rand : Nat → Nat} {exe : List Inst} {generosity whitespace limit : Nat}

theorem ccsMatch_false {ccs : List CChar} {c : CChar} : ccsMatch false ccs c = true ↔ c ∈ ccs := by
  simp [ccsMatch, charMatch]

/-- From instruction `ip`, with `strb` written, there is a path to `match` on the
string the walk ends with. -/
def Walked (exe : List Inst) (ip : Nat) (strb out : List CChar) : Prop :=
  ∃ rest m, out = strb ++ rest ∧ NoNul rest ∧ exe[m]? = some .opMatch ∧
    NfaPath false true out exe (ip, strb.length) (m, out.length)

/-- A step that stays at its position. -/
theorem Walked.stay {ip ip' : Nat} {strb out : List CChar}
    (hstep : NfaStep false true out exe (ip, strb.length) (ip', strb.length))
    (h : Walked exe ip' strb out) : Walked exe ip strb out := by
  rcases h with ⟨rest, m, hout, hnul, hm, hpath⟩
  exact ⟨rest, m, hout, hnul, hm, .head hstep hpath⟩

/-- A step that reads the character that has been written for it. -/
theorem Walked.write {ip : Nat} {strb out : List CChar} {inst : Inst} {c : CChar}
    (hi : exe[ip]? = some inst) (hc : c ≠ 0) (he : inst.eats false c = true)
    (h : Walked exe (ip + 1) (strb ++ [c]) out) : Walked exe ip strb out := by
  rcases h with ⟨rest, m, hout, hnul, hm, hpath⟩
  have hout' : out = strb ++ c :: rest := by
    rw [hout, List.append_assoc]
    rfl
  have hlen : strb.length < out.length := by
    rw [hout']
    simp
  have hat : at' out strb.length = c := by
    rw [hout']
    simp [at']
  rw [List.length_append] at hpath
  refine ⟨c :: rest, m, hout', ?_, hm, .head (.eat hi hlen ?_) hpath⟩
  · intro d hd
    rcases List.mem_cons.mp hd with rfl | hd
    · exact hc
    · exact hnul d hd
  · rw [hat]
    exact he

/-- The walk is a path of the automaton: by induction on its steps. -/
theorem genLoop_walked (hwf : WellFormed exe) (hchars : Matchables exe)
    (hgen : ∀ inst ∈ exe, inst.Generable) : ∀ (fuel ip : Nat) (strb : List CChar) (n : Nat)
    (out : List CChar), ip < exe.length →
    genLoop rand exe generosity whitespace limit fuel ip strb n = some out →
    Walked exe ip strb out := by
  intro fuel
  induction fuel with
  | zero =>
      intro ip strb n out _ h
      cases h
  | succ fuel ih =>
      intro ip strb n out hip h
      obtain ⟨inst, hi⟩ : ∃ inst, exe[ip]? = some inst := ⟨_, List.getElem?_eq_getElem hip⟩
      have hmem := List.mem_of_getElem? hi
      have hsucc : inst ≠ .opMatch → ip + 1 < exe.length := hwf.succ_lt hi
      unfold genLoop at h
      rw [fetch_eq hi] at h
      cases inst with
      | opMatch =>
          cases h
          exact ⟨[], ip, by simp, by simp [NoNul], hi, .refl⟩
      -- an instruction that reads writes a character it accepts
      | opChar c =>
          have hc : c ≠ 0 := hchars _ hmem
          exact .write hi hc (by simp [Inst.eats, charMatch]) (ih _ _ _ _ (hsucc (by simp)) h)
      | opAny =>
          rcases Option.bind_eq_some_iff.mp h with ⟨⟨c, n'⟩, hany, h⟩
          have hc := genAny_eats hany
          exact .write hi hc.1 (by simpa [Inst.eats] using hc.2) (ih _ _ _ _ (hsucc (by simp)) h)
      | opClass ccs =>
          rcases Option.bind_eq_some_iff.mp h with ⟨⟨c, n'⟩, hclass, h⟩
          have hccs : ccs ≠ [] ∧ NoNul ccs := hchars _ hmem
          have hc := genClass_mem hccs.1 hclass
          exact .write hi (hccs.2 c hc) (ccsMatch_false.mpr hc) (ih _ _ _ _ (hsucc (by simp)) h)
      | opNclass ccs =>
          rcases Option.bind_eq_some_iff.mp h with ⟨⟨c, n'⟩, hnclass, h⟩
          have homits : Omits ccs := hgen _ hmem
          have hc := findNchar_omitted homits hnclass
          have he : (Inst.opNclass ccs).eats false c = true := by
            simp only [Inst.eats, Bool.not_eq_true', Bool.eq_false_iff, ne_eq, ccsMatch_false]
            exact hc.1
          exact .write hi hc.2 he (ih _ _ _ _ (hsucc (by simp)) h)
      -- a random branch is one of the two
      | opBranch x y =>
          rcases Option.bind_eq_some_iff.mp h with ⟨⟨b, n'⟩, _, h⟩
          have hx := hwf.targets_mem _ _ hi x (by simp [Inst.targets])
          have hy := hwf.targets_mem _ _ hi y (by simp [Inst.targets])
          cases b with
          | true => exact .stay (.branchX hi) (ih _ _ _ _ (by show x.toNat < _; omega) h)
          | false => exact .stay (.branchY hi) (ih _ _ _ _ (by show y.toNat < _; omega) h)
      | opJmp x =>
          have hx := hwf.targets_mem _ _ hi x (by simp [Inst.targets])
          exact .stay (.jmp hi) (ih _ _ _ _ (by omega) h)
      -- anchors cannot be generated
      | opSol => exact (hgen _ hmem).elim
      | opEol => exact (hgen _ hmem).elim

/-- The literals, without their backslashes. -/
theorem genSimple_eq {text : List CChar} (hclosed : escapesClosed text = true) (size : Nat) :
    (genSimple text size).1 = unescape text := by
  induction text using unescape.induct generalizing size with
  | case1 => rfl
  | case2 => simp [escapesClosed] at hclosed
  | case3 d rest ih =>
      rw [escapesClosed_escaped] at hclosed
      rw [unescape_deref, genSimple.eq_def]
      simp only [if_true]
      rw [ih hclosed]
  | case4 d rest hd ih =>
      rw [escapesClosed_cons hd] at hclosed
      rw [unescape_cons hd, genSimple.eq_def]
      simp only [if_neg hd]
      rw [ih hclosed]

end

/-- What `rxvm_gen` returns is matched by the expression it is made for. -/
theorem rxvmGen_matches {g g' : Statics} {exp : List CChar} {compiled : Compiled}
    (h : rxvmCompile g exp = .ok (.ok compiled, g'))
    (hgen : ∀ inst ∈ compiled.exe, inst.Generable) {rand : Nat → Nat} {fuel : Nat}
    {cfg : Option GenCfg} {gen : Generated} (hrun : rxvmGen rand fuel compiled cfg = some gen) :
    rxvmMatch compiled gen.str {} = some 1 := by
  unfold rxvmGen at hrun
  cases hsimple : compiled.simple with
  | some text =>
      rcases rxvmCompile_simple h hsimple with ⟨rfl, hclosed⟩
      have htext := noNul_cstring exp
      rw [hsimple] at hrun
      cases hrun
      simp only [genSimple_eq hclosed]
      have hnul : NoNul (unescape (cstring exp)) :=
        fun c hc => htext c (mem_unescape hclosed hc)
      rcases rxvmMatch_simple hsimple htext hnul {} with ⟨ret, hret, _, hiff⟩
      rw [hret, hiff.mpr (sameChars_false.mpr rfl)]
  | none =>
      have hwf := rxvmCompile_wellFormed h hsimple
      rw [hsimple] at hrun
      rcases Option.bind_eq_some_iff.mp hrun with ⟨out, hloop, hout⟩
      cases hout
      rcases genLoop_walked hwf (rxvmCompile_matchable h hsimple) hgen _ _ _ _ _ hwf.length_pos
        hloop with ⟨rest, m, hrest, hnul, hm, hpath⟩
      obtain rfl : out = rest := hrest
      rcases rxvmMatch_spec hsimple hwf hnul {} with ⟨ret, hret, _, hiff⟩
      rw [hret, hiff.mpr ⟨m, hm, hpath⟩]

/-- The expression `a[^b]+`, with 0, 37, 74 and so on for the random values. -/
theorem rxvmGen_matches_nclass : ∃ compiled g' gen,
    rxvmCompile Statics.init [97, 91, 94, 98, 93, 43] = .ok (.ok compiled, g') ∧
      rxvmGen (fun n => 37 * n) 20 compiled none = some gen ∧
      rxvmMatch compiled gen.str {} = some 1 := by
  have h : ∃ compiled g' gen, rxvmCompile Statics.init [97, 91, 94, 98, 93, 43] =
      .ok (.ok compiled, g') ∧ rxvmGen (fun n => 37 * n) 20 compiled none = some gen ∧
      compiled.exe = [.opChar 97, .opNclass [98], .opBranch 1 3, .opMatch] :=
    ⟨_, _, _, rfl, rfl, rfl⟩
  rcases h with ⟨compiled, g', gen, h, hrun, hexe⟩
  refine ⟨compiled, g', gen, h, hrun, rxvmGen_matches h ?_ hrun⟩
  have homits : Omits [98] := ⟨97, by decide, by decide, by decide⟩
  rw [hexe]
  simp [Inst.Generable, homits]

/-- `size` is the length of the literals without their backslashes. -/
theorem genSimple_size {text : List CChar} (hclosed : escapesClosed text = true) (size : Nat) :
    (genSimple text (text.length + size)).2 = (unescape text).length + size := by
  induction text using unescape.induct generalizing size with
  | case1 => rw [genSimple, unescape, List.length_nil]
  | case2 => simp [escapesClosed] at hclosed
  | case3 d rest ih =>
      rw [escapesClosed_escaped] at hclosed
      rw [unescape_deref, genSimple.eq_def]
      simp only [if_true, List.length_cons]
      have hsize : rest.length + 1 + 1 + size - 1 = rest.length + (size + 1) := by omega
      rw [hsize, ih hclosed]
      omega
  | case4 d rest hd ih =>
      rw [escapesClosed_cons hd] at hclosed
      rw [unescape_cons hd, genSimple.eq_def]
      simp only [if_neg hd, List.length_cons]
      have hsize : rest.length + 1 + size = rest.length + (size + 1) := by omega
      rw [hsize, ih hclosed]
      omega

/-- The `len` of the configuration counts the string and its NUL. -/
theorem rxvmGen_len {g g' : Statics} {exp : List CChar} {compiled : Compiled}
    (h : rxvmCompile g exp = .ok (.ok compiled, g')) {rand : Nat → Nat} {fuel : Nat}
    {cfg : Option GenCfg} {gen : Generated} (hrun : rxvmGen rand fuel compiled cfg = some gen) :
    gen.len = cfg.map fun _ => gen.str.length + 1 := by
  unfold rxvmGen at hrun
  cases hsimple : compiled.simple with
  | some text =>
      have hclosed := (rxvmCompile_simple h hsimple).2
      rw [hsimple] at hrun
      cases hrun
      simp only [genSimple_size hclosed, genSimple_eq hclosed]
  | none =>
      rw [hsimple] at hrun
      rcases Option.bind_eq_some_iff.mp hrun with ⟨out, _, hout⟩
      cases hout
      rfl

end Rxvm
