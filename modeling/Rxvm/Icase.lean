import Rxvm.Case
import Rxvm.LiteralSpec

/-!
# Rxvm.Icase — what RXVM_ICASE ignores

The macro `tolower` adds 32 to every character up to `Z`, so besides letters it
identifies `;<=>?@` with the six characters between `Z` and `a`. Matching with
`RXVM_ICASE` is matching after these pairs have been merged and letters have
been folded. It is matching with folded letters as long as no test that is
reached compares the two characters of a pair.
-/

namespace Rxvm

open Relation

/-! ## The pairs -/

/-- The six characters between `Z` and `a` to those 32 below, every other one to
itself. -/
def merge (c : CChar) : CChar := if 91 ≤ c.toInt ∧ c.toInt ≤ 96 then c - 32 else c

/-- What the macro compares. -/
def mergeLower (c : CChar) : CChar := lower (merge c)

/-- Two characters that are compared as equal, and are not with letters
folded. -/
def Confusable (a b : CChar) : Prop := mergeLower a = mergeLower b ∧ lower a ≠ lower b

theorem merge_toInt (c : CChar) : (merge c).toInt =
    if 91 ≤ c.toInt ∧ c.toInt ≤ 96 then c.toInt - 32 else c.toInt := by
  unfold merge
  split_ifs with h
  · have h32 : (32 : Int8).toInt = 32 := by decide
    rw [Int8.toInt_sub, h32]
    exact Int.bmod_eq_of_le (by omega) (by omega)
  · rfl

theorem mergeLower_toInt (c : CChar) : (mergeLower c).toInt =
    if 65 ≤ c.toInt ∧ c.toInt ≤ 90 then c.toInt + 32
    else if 91 ≤ c.toInt ∧ c.toInt ≤ 96 then c.toInt - 32 else c.toInt := by
  unfold mergeLower
  rw [lower_toInt, merge_toInt]
  split_ifs <;> omega

/-- The macro compares letters without their case, and merges the pairs. -/
theorem charMatch_merge {a b : CChar} :
    charMatch true a b = true ↔ mergeLower a = mergeLower b := by
  rw [← Int8.toInt_inj, mergeLower_toInt, mergeLower_toInt]
  simp only [charMatch, if_true, beq_iff_eq, tolower]
  split_ifs <;> omega

/-- The two characters of a pair, in either order. -/
theorem confusable_iff {a b : CChar} : Confusable a b ↔
    59 ≤ a.toInt ∧ a.toInt ≤ 64 ∧ b.toInt = a.toInt + 32 ∨
      59 ≤ b.toInt ∧ b.toInt ≤ 64 ∧ a.toInt = b.toInt + 32 := by
  have hlower : lower a ≠ lower b ↔ (lower a).toInt ≠ (lower b).toInt := Int8.toInt_inj.not.symm
  unfold Confusable
  rw [hlower, ← Int8.toInt_inj, mergeLower_toInt, mergeLower_toInt, lower_toInt, lower_toInt]
  split_ifs <;> omega

/-- Where no pair is compared, the macro folds letters. -/
theorem mergeLower_eq_iff {a b : CChar} (h : ¬ Confusable a b) :
    mergeLower a = mergeLower b ↔ lower a = lower b := by
  constructor
  · intro hm
    by_contra hl
    exact h ⟨hm, hl⟩
  · intro hl
    rw [← Int8.toInt_inj, lower_toInt, lower_toInt] at hl
    rw [← Int8.toInt_inj, mergeLower_toInt, mergeLower_toInt]
    split_ifs at hl ⊢ <;> omega

/-! ## Programs with mapped characters -/

/-- The instruction with its characters mapped. -/
def Inst.mapChars (f : CChar → CChar) : Inst → Inst
  | .opChar c => .opChar (f c)
  | .opClass ccs => .opClass (ccs.map f)
  | .opNclass ccs => .opNclass (ccs.map f)
  | inst => inst

/-- The input is accepted when every test, of an instruction or of a literal,
compares characters after mapping both of them with `f`. -/
def MatchesMapped (f : CChar → CChar) (compiled : Compiled) (s : List CChar) : Prop :=
  match compiled.simple with
  | some text => (unescape text).map f = s.map f
  | none => Accepts false true (s.map f) (compiled.exe.map (Inst.mapChars f)) 0 s.length

section

variable {icase ml : Bool} {f : CChar → CChar} {s : List CChar} {exe : List Inst} {i j : Nat}

theorem at'_map (f : CChar → CChar) {p : Nat} (hp : p < s.length) :
    at' (s.map f) p = f (at' s p) := by
  simp [at', hp]

theorem at'_map_newline (hnl : ∀ c, f c = newline ↔ c = newline) (p : Nat) :
    at' (s.map f) p = newline ↔ at' s p = newline := by
  by_cases hp : p < s.length
  · rw [at'_map f hp]
    exact hnl _
  · have h0 : ∀ t : List CChar, t.length ≤ p → at' t p = 0 := by
      intro t ht
      simp [at', ht]
    rw [h0 s (by omega), h0 (s.map f) (by simp; omega)]

/-- The test of an instruction is the test of the mapped one. -/
def TestMapped (icase : Bool) (f : CChar → CChar) (c : CChar) (inst : Inst) : Prop :=
  (inst.mapChars f).eats false (f c) = inst.eats icase c

theorem step_mapped_iff (hnl : ∀ c, f c = newline ↔ c = newline) {ip p : Nat} {b : Nat × Nat}
    (htest : ∀ inst, exe[ip]? = some inst → p < s.length → TestMapped icase f (at' s p) inst) :
    NfaStep false ml (s.map f) (exe.map (Inst.mapChars f)) (ip, p) b ↔
      NfaStep icase ml s exe (ip, p) b := by
  -- both programs have the same instruction at each index, up to its characters
  have hget : ∀ inst, (exe.map (Inst.mapChars f))[ip]? = some inst ↔
      ∃ inst', exe[ip]? = some inst' ∧ inst'.mapChars f = inst := by
    intro inst
    rw [List.getElem?_map, Option.map_eq_some_iff]
  constructor
  · intro h
    cases h with
    -- what is read passes the mapped test exactly if it passes the test
    | eat hi hp he =>
        rcases (hget _).mp hi with ⟨inst, hi', rfl⟩
        rw [List.length_map] at hp
        rw [at'_map f hp, htest inst hi' hp] at he
        exact .eat hi' hp he
    -- the mapping keeps newlines, and with them the anchors
    | sol hi h =>
        rcases (hget _).mp hi with ⟨inst, hi, heq⟩
        cases inst <;> cases heq
        exact .sol hi (h.imp id fun h => ⟨h.1, (at'_map_newline hnl _).mp h.2⟩)
    | eol hi h =>
        rcases (hget _).mp hi with ⟨inst, hi, heq⟩
        cases inst <;> cases heq
        exact .eol hi (h.imp (fun h => by simpa using h)
          fun h => ⟨h.1, (at'_map_newline hnl _).mp h.2⟩)
    | branchX hi =>
        rcases (hget _).mp hi with ⟨inst, hi, heq⟩
        cases inst <;> cases heq
        exact .branchX hi
    | branchY hi =>
        rcases (hget _).mp hi with ⟨inst, hi, heq⟩
        cases inst <;> cases heq
        exact .branchY hi
    | jmp hi =>
        rcases (hget _).mp hi with ⟨inst, hi, heq⟩
        cases inst <;> cases heq
        exact .jmp hi
  · intro h
    cases h with
    | eat hi hp he =>
        refine .eat ((hget _).mpr ⟨_, hi, rfl⟩) (by simpa using hp) ?_
        rw [at'_map f hp, htest _ hi hp]
        exact he
    | sol hi h =>
        exact .sol ((hget _).mpr ⟨_, hi, rfl⟩)
          (h.imp id fun h => ⟨h.1, (at'_map_newline hnl _).mpr h.2⟩)
    | eol hi h =>
        exact .eol ((hget _).mpr ⟨_, hi, rfl⟩) (h.imp (fun h => by simpa using h)
          fun h => ⟨h.1, (at'_map_newline hnl _).mpr h.2⟩)
    | branchX hi => exact .branchX ((hget _).mpr ⟨_, hi, rfl⟩)
    | branchY hi => exact .branchY ((hget _).mpr ⟨_, hi, rfl⟩)
    | jmp hi => exact .jmp ((hget _).mpr ⟨_, hi, rfl⟩)

/-- Where all tests that are reached agree with the mapped ones, the mapped
program accepts the mapped input exactly if the program accepts the input. -/
theorem accepts_mapped_iff (hnl : ∀ c, f c = newline ↔ c = newline)
    (htest : ∀ ip p inst, Reach icase ml s exe i p ip → exe[ip]? = some inst → p < s.length →
      TestMapped icase f (at' s p) inst) :
    Accepts false ml (s.map f) (exe.map (Inst.mapChars f)) i j ↔ Accepts icase ml s exe i j := by
  have hpaths : ∀ b, NfaPath false ml (s.map f) (exe.map (Inst.mapChars f)) (0, i) b ↔
      NfaPath icase ml s exe (0, i) b := by
    intro b
    constructor
    · intro h
      induction h with
      | refl => exact .refl
      | @tail b c _ hstep ih =>
          exact ih.tail ((step_mapped_iff hnl fun inst => htest b.1 b.2 inst ih).mp hstep)
    · intro h
      induction h with
      | refl => exact .refl
      | @tail b c hpath hstep ih =>
          exact ih.tail ((step_mapped_iff hnl fun inst => htest b.1 b.2 inst hpath).mpr hstep)
  constructor
  · rintro ⟨m, hm, hpath⟩
    rw [List.getElem?_map, Option.map_eq_some_iff] at hm
    rcases hm with ⟨inst, hm, heq⟩
    cases inst <;> cases heq
    exact ⟨m, hm, (hpaths _).mp hpath⟩
  · rintro ⟨m, hm, hpath⟩
    exact ⟨m, by rw [List.getElem?_map, hm]; rfl, (hpaths _).mpr hpath⟩

/-! ## RXVM_ICASE -/

theorem mergeLower_newline (c : CChar) : mergeLower c = newline ↔ c = newline := by
  have hnl : newline.toInt = 10 := by decide
  rw [← Int8.toInt_inj, ← Int8.toInt_inj, mergeLower_toInt, hnl]
  split_ifs <;> omega

theorem lower_newline (c : CChar) : lower c = newline ↔ c = newline := by
  have hnl : newline.toInt = 10 := by decide
  rw [← Int8.toInt_inj, ← Int8.toInt_inj, lower_toInt, hnl]
  split_ifs <;> omega

theorem anyMapped (hnl : ∀ c, f c = newline ↔ c = newline) (c : CChar) :
    (f c != newline) = (c != newline) := by
  rw [Bool.eq_iff_iff, bne_iff_ne, bne_iff_ne, ne_eq, hnl]

/-- The test of a class is whether the mapped character is in the mapped
class. -/
theorem ccsMatch_mapped {ccs : List CChar} {c : CChar}
    (h : ∀ a ∈ ccs, charMatch icase a c = true ↔ f a = f c) :
    ccsMatch false (ccs.map f) (f c) = ccsMatch icase ccs c := by
  rw [Bool.eq_iff_iff]
  simp only [ccsMatch, List.any_eq_true, List.mem_map]
  constructor
  · rintro ⟨_, ⟨a, ha, rfl⟩, hc⟩
    exact ⟨a, ha, (h a ha).mpr (charMatch_false.mp hc)⟩
  · rintro ⟨a, ha, hc⟩
    exact ⟨f a, ⟨a, ha, rfl⟩, charMatch_false.mpr ((h a ha).mp hc)⟩

/-- With the pairs merged, all tests are those of the machine. -/
theorem testMapped_merge (c : CChar) (inst : Inst) : TestMapped true mergeLower c inst := by
  unfold TestMapped
  cases inst with
  | opChar a => exact Bool.eq_iff_iff.mpr (charMatch_false.trans charMatch_merge.symm)
  | opAny => exact anyMapped mergeLower_newline c
  | opClass ccs => exact ccsMatch_mapped fun a _ => charMatch_merge
  | opNclass ccs => exact congrArg Bool.not (ccsMatch_mapped fun a _ => charMatch_merge)
  | _ => rfl

/-- The test of the instruction takes two characters of a pair for equal, and
with them takes the character or refuses it. -/
def Inst.Confused (c : CChar) : Inst → Prop
  | .opChar a => Confusable c a
  | .opClass ccs => (∃ a ∈ ccs, Confusable a c) ∧ ∀ a ∈ ccs, lower a ≠ lower c
  | .opNclass ccs => (∃ a ∈ ccs, Confusable a c) ∧ ∀ a ∈ ccs, lower a ≠ lower c
  | _ => False

theorem ccsMatch_unconfused {ccs : List CChar} {c : CChar}
    (h : ¬ ((∃ a ∈ ccs, Confusable a c) ∧ ∀ a ∈ ccs, lower a ≠ lower c)) :
    ccsMatch false (ccs.map lower) (lower c) = ccsMatch true ccs c := by
  rw [← @ccsMatch_mapped true mergeLower ccs c fun a _ => charMatch_merge, Bool.eq_iff_iff]
  simp only [ccsMatch, List.any_eq_true, List.mem_map, charMatch_false]
  constructor
  · rintro ⟨_, ⟨a, ha, rfl⟩, hc⟩
    have hm : mergeLower a = mergeLower c := by
      by_contra hne
      have hiff := mergeLower_eq_iff (a := a) (b := c) fun hconf => hne hconf.1
      exact hne (hiff.mpr hc)
    exact ⟨_, ⟨a, ha, rfl⟩, hm⟩
  · rintro ⟨_, ⟨a, ha, rfl⟩, hc⟩
    by_contra hnone
    have hne : ∀ a ∈ ccs, lower a ≠ lower c := fun a ha heq => hnone ⟨_, ⟨a, ha, rfl⟩, heq⟩
    exact h ⟨⟨a, ha, hc, hne a ha⟩, hne⟩

/-- A test that is not confused folds letters, and does nothing else. -/
theorem testMapped_lower {c : CChar} {inst : Inst} (h : ¬ inst.Confused c) :
    TestMapped true lower c inst := by
  unfold TestMapped
  cases inst with
  | opChar a =>
      refine Bool.eq_iff_iff.mpr ?_
      exact charMatch_false.trans ((mergeLower_eq_iff h).symm.trans charMatch_merge.symm)
  | opAny => exact anyMapped lower_newline c
  | opClass ccs => exact ccsMatch_unconfused h
  | opNclass ccs => exact congrArg Bool.not (ccsMatch_unconfused h)
  | _ => rfl

/-- No test that is reached on the input is confused: none of the machine, and
none of `simple_match`, which compares up to the first difference. -/
def Unconfused (compiled : Compiled) (s : List CChar) : Prop :=
  match compiled.simple with
  | some text => ∀ k a c, (unescape text)[k]? = some a → s[k]? = some c →
      ((unescape text).take k).map mergeLower = (s.take k).map mergeLower → ¬ Confusable a c
  | none => ∀ ip p inst, Reach true true s compiled.exe 0 p ip → compiled.exe[ip]? = some inst →
      p < s.length → ¬ inst.Confused (at' s p)

variable {compiled : Compiled}

theorem sameChars_true {w : List CChar} :
    SameChars true w s ↔ w.map mergeLower = s.map mergeLower := by
  have hrel : (fun a b : CChar => charMatch true a b = true) =
      fun a b => mergeLower a = mergeLower b := by
    funext a b
    exact propext charMatch_merge
  rw [SameChars, hrel, ← List.forall₂_eq_eq_eq, List.forall₂_map_left_iff,
    List.forall₂_map_right_iff]

/-- Two strings that are the same with the pairs merged are the same with
letters folded, if no pair stands in one place of them. -/
theorem map_lower_of_unconfused {w : List CChar}
    (h : ∀ k a c, w[k]? = some a → s[k]? = some c →
      (w.take k).map mergeLower = (s.take k).map mergeLower → ¬ Confusable a c) :
    w.map mergeLower = s.map mergeLower ↔ w.map lower = s.map lower := by
  have hlen : w.map mergeLower = s.map mergeLower ∨ w.map lower = s.map lower →
      w.length = s.length := by
    rintro (heq | heq)
    · simpa using congrArg List.length heq
    · simpa using congrArg List.length heq
  constructor
  · intro heq
    have hlen := hlen (Or.inl heq)
    refine List.ext_getElem (by simpa using hlen) ?_
    intro k hk hk'
    have hk₁ : k < w.length := by simpa using hk
    have hk₂ : k < s.length := by simpa using hk'
    rw [List.getElem_map, List.getElem_map]
    have hsame : mergeLower w[k] = mergeLower s[k] := by
      have := congrArg (·[k]?) heq
      simpa [hk₁, hk₂] using this
    -- the texts agree up to `k`, so the pair at `k` is not confused
    have hprefix : (w.take k).map mergeLower = (s.take k).map mergeLower := by
      rw [List.map_take, List.map_take, heq]
    exact (mergeLower_eq_iff (h k _ _ (List.getElem?_eq_getElem hk₁)
      (List.getElem?_eq_getElem hk₂) hprefix)).mp hsame
  · intro heq
    have hlen := hlen (Or.inr heq)
    refine List.ext_getElem (by simpa using hlen) ?_
    intro k hk hk'
    have hk₁ : k < w.length := by simpa using hk
    have hk₂ : k < s.length := by simpa using hk'
    rw [List.getElem_map, List.getElem_map]
    have hsame : lower w[k] = lower s[k] := by
      have := congrArg (·[k]?) heq
      simpa [hk₁, hk₂] using this
    exact (mergeLower_eq_iff fun hconf => hconf.2 hsame).mpr hsame

/-- With `RXVM_ICASE` the pairs are merged: this is what `rxvm_match` decides, on
every input. -/
theorem rxvmMatch_merged {g g' : Statics} {exp : List CChar}
    (h : rxvmCompile g exp = .ok (.ok compiled, g')) (hs : NoNul s) {flags : Flags}
    (hicase : flags.icase = true) :
    ∃ ret, rxvmMatch compiled s flags = some ret ∧
      (ret = 1 ↔ MatchesMapped mergeLower compiled s) := by
  unfold MatchesMapped
  cases hsimple : compiled.simple with
  | some text =>
      rcases rxvmCompile_simple h hsimple with ⟨rfl, _⟩
      rcases rxvmMatch_simple hsimple (noNul_cstring exp) hs flags with ⟨ret, hret, _, hiff⟩
      rw [hicase] at hiff
      exact ⟨ret, hret, hiff.trans sameChars_true⟩
  | none =>
      have hwf := rxvmCompile_wellFormed h hsimple
      rcases rxvmMatch_spec hsimple hwf hs flags with ⟨ret, hret, _, hiff⟩
      rw [hicase] at hiff
      have hmerge := @accepts_mapped_iff true true mergeLower s compiled.exe 0 s.length
        mergeLower_newline fun _ _ inst _ _ _ => testMapped_merge _ inst
      exact ⟨ret, hret, hiff.trans hmerge.symm⟩

/-- Where no test that is reached compares the two characters of a pair, it makes
no difference to merge them. -/
theorem Unconfused.merged_iff (h : Unconfused compiled s) :
    MatchesMapped mergeLower compiled s ↔ MatchesMapped lower compiled s := by
  unfold Unconfused at h
  unfold MatchesMapped
  cases hsimple : compiled.simple with
  | some text =>
      rw [hsimple] at h
      exact map_lower_of_unconfused h
  | none =>
      rw [hsimple] at h
      -- both maps keep the tests on the way, and with them the paths
      have hmerge := @accepts_mapped_iff true true mergeLower s compiled.exe 0 s.length
        mergeLower_newline fun _ _ inst _ _ _ => testMapped_merge _ inst
      have hlower := @accepts_mapped_iff true true lower s compiled.exe 0 s.length
        lower_newline fun ip p inst hreach hi hp => testMapped_lower (h ip p inst hreach hi hp)
      exact hmerge.trans hlower.symm

/-- `rxvm_match` with `RXVM_ICASE` matches the input with letters folded, whenever
no test that is reached compares the two characters of a pair. -/
theorem rxvmMatch_icase_iff {g g' : Statics} {exp : List CChar}
    (h : rxvmCompile g exp = .ok (.ok compiled, g')) (hs : NoNul s) {flags : Flags}
    (hicase : flags.icase = true) (hun : Unconfused compiled s) :
    ∃ ret, rxvmMatch compiled s flags = some ret ∧
      (ret = 1 ↔ MatchesMapped lower compiled s) := by
  rcases rxvmMatch_merged h hs hicase with ⟨ret, hret, hiff⟩
  exact ⟨ret, hret, hiff.trans hun.merged_iff⟩

/-- The expression `aB` on `Ab`. -/
theorem rxvmMatch_icase_iff_letters : ∃ compiled g',
    rxvmCompile Statics.init [97, 66] = .ok (.ok compiled, g') ∧
      rxvmMatch compiled [65, 98] { icase := true } = some 1 := by
  have h : ∃ compiled g', rxvmCompile Statics.init [97, 66] = .ok (.ok compiled, g') ∧
      compiled.simple = some [97, 66] := ⟨_, _, rfl, rfl⟩
  rcases h with ⟨compiled, g', h, hsimple⟩
  have hun : Unconfused compiled [65, 98] := by
    unfold Unconfused
    rw [hsimple]
    intro k a c ha hc _
    have ha' : ([97, 66] : List CChar)[k]? = some a := ha
    have hk : k = 0 ∨ k = 1 := by
      have hlt : k < 2 := (List.getElem?_eq_some_iff.mp ha').1
      omega
    rcases hk with rfl | rfl
    · cases ha
      cases hc
      rw [confusable_iff]
      decide
    · cases ha
      cases hc
      rw [confusable_iff]
      decide
  have hmatches : MatchesMapped lower compiled [65, 98] := by
    unfold MatchesMapped
    rw [hsimple]
    show (unescape [97, 66]).map lower = [65, 98].map lower
    decide
  have hicase : ({ icase := true } : Flags).icase = true := rfl
  rcases rxvmMatch_icase_iff h (by decide) hicase hun with ⟨ret, hret, hiff⟩
  rw [hiff.mpr hmatches] at hret
  exact ⟨compiled, g', h, hret⟩

/-- The expression `@` matches a backquote, and `[^@]` does not. -/
theorem rxvmMatch_icase_confused :
    (∃ compiled g', rxvmCompile Statics.init [64] = .ok (.ok compiled, g') ∧
      rxvmMatch compiled [96] { icase := true } = some 1 ∧
      ¬ MatchesMapped lower compiled [96]) ∧
    ∃ compiled g', rxvmCompile Statics.init [91, 94, 64, 93] = .ok (.ok compiled, g') ∧
      rxvmMatch compiled [96] { icase := true } = some 0 ∧ MatchesMapped lower compiled [96] := by
  refine ⟨⟨_, _, rfl, rfl, ?_⟩, _, _, rfl, rfl, ?_⟩
  · show ¬ (unescape [64]).map lower = [96].map lower
    decide
  · exact ⟨1, rfl, .single (.eat rfl (by decide) rfl)⟩

end

end Rxvm
