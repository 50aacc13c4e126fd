import Mathlib.Tactic.Ring
import Rxvm.Lib.Blocks
import Rxvm.Programs

/-!
# Rxvm.Meaning — what code matches

The positions of the input that code leads from and to, wherever it stands in
a program; and what the operators make of the meaning of their operand. Code
is a block in the sense of `Lib.Blocks`, so this is a matter of finding the
operand in the code of each operator.
-/

namespace Rxvm

open Blocks Relation

/-! ## Code as a block -/

section

variable (icase ml : Bool) (s : List CChar)

/-- What an instruction at index `ip` does at position `p`. -/
def Inst.moves (ip p : Nat) : Inst → Nat × Nat → Prop
  | .opBranch x y, b => b = (x.toNat, p) ∨ b = (y.toNat, p)
  | .opJmp x, b => b = (x.toNat, p)
  | .opSol, b => b = (ip + 1, p) ∧ SolAt ml s p
  | .opEol, b => b = (ip + 1, p) ∧ EolAt ml s p
  | .opMatch, _ => False
  | .opChar c, b => b = (ip + 1, p + 1) ∧ p < s.length ∧ (Inst.opChar c).eats icase (at' s p) = true
  | .opAny, b => b = (ip + 1, p + 1) ∧ p < s.length ∧ Inst.opAny.eats icase (at' s p) = true
  | .opClass ccs, b =>
    b = (ip + 1, p + 1) ∧ p < s.length ∧ (Inst.opClass ccs).eats icase (at' s p) = true
  | .opNclass ccs, b =>
    b = (ip + 1, p + 1) ∧ p < s.length ∧ (Inst.opNclass ccs).eats icase (at' s p) = true

/-- The code leads from position `i` to position `j`. -/
def Flow (code : List Inst) (i j : Nat) : Prop :=
  NfaPath icase ml s (relocateFrom 0 code) (0, i) (code.length, j)

end

section

variable {icase ml : Bool} {s : List CChar} {exe code c d e : List Inst} {i j : Nat}

theorem nfaStep_iff {a b : Nat × Nat} : NfaStep icase ml s exe a b ↔
    ∃ inst, exe[a.1]? = some inst ∧ inst.moves icase ml s a.1 a.2 b := by
  constructor
  · intro h
    cases h with
    | @eat ip p inst hi hp he =>
        refine ⟨inst, hi, ?_⟩
        cases inst with
        | opChar | opAny | opClass | opNclass => exact ⟨rfl, hp, he⟩
        | opBranch | opJmp | opSol | opEol | opMatch => cases he
    | sol hi h => exact ⟨_, hi, rfl, h⟩
    | eol hi h => exact ⟨_, hi, rfl, h⟩
    | branchX hi => exact ⟨_, hi, Or.inl rfl⟩
    | branchY hi => exact ⟨_, hi, Or.inr rfl⟩
    | jmp hi => exact ⟨_, hi, rfl⟩
  · rcases a with ⟨ip, p⟩
    rintro ⟨inst, hi, hmoves⟩
    cases inst with
    | opChar | opAny | opClass | opNclass =>
        rcases hmoves with ⟨rfl, hp, he⟩
        exact .eat hi hp he
    | opBranch x y =>
        rcases hmoves with rfl | rfl
        · exact .branchX hi
        · exact .branchY hi
    | opJmp x =>
        obtain rfl := hmoves
        exact .jmp hi
    | opSol =>
        rcases hmoves with ⟨rfl, h⟩
        exact .sol hi h
    | opEol =>
        rcases hmoves with ⟨rfl, h⟩
        exact .eol hi h
    | opMatch => cases hmoves

/-- An instruction does the same at every place its code is put. -/
theorem Inst.moves_shift {inst : Inst} {k len : Nat} (h : inst.fits k len) (off p : Nat)
    (x : Nat × Nat) : (inst.relocate (off + k)).moves icase ml s (off + k) p x ↔
      ∃ y, x = (off + y.1, y.2) ∧ (inst.relocate k).moves icase ml s k p y := by
  cases inst with
  | opChar | opAny | opClass | opNclass | opSol | opEol =>
      simp only [Inst.relocate, Inst.moves]
      constructor
      · rintro ⟨rfl, h⟩
        exact ⟨_, rfl, rfl, h⟩
      · rintro ⟨y, rfl, rfl, h⟩
        exact ⟨rfl, h⟩
  | opBranch x₁ y₁ =>
      simp only [Inst.fits] at h
      have hx : (x₁ + ((off + k : Nat) : Int)).toNat = off + (x₁ + (k : Int)).toNat := by omega
      have hy : (y₁ + ((off + k : Nat) : Int)).toNat = off + (y₁ + (k : Int)).toNat := by omega
      simp only [Inst.relocate, Inst.moves, hx, hy]
      constructor
      · rintro (rfl | rfl)
        · exact ⟨_, rfl, Or.inl rfl⟩
        · exact ⟨_, rfl, Or.inr rfl⟩
      · rintro ⟨y, rfl, rfl | rfl⟩
        · exact Or.inl rfl
        · exact Or.inr rfl
  | opJmp x₁ =>
      simp only [Inst.fits] at h
      have hx : (x₁ + ((off + k : Nat) : Int)).toNat = off + (x₁ + (k : Int)).toNat := by omega
      simp only [Inst.relocate, Inst.moves, hx]
      constructor
      · rintro rfl
        exact ⟨_, rfl, rfl⟩
      · rintro ⟨y, rfl, rfl⟩
        rfl
  | opMatch => exact h.elim

theorem Inst.moves_inside {inst : Inst} {k len p : Nat} {x : Nat × Nat} (h : inst.fits k len)
    (hk : k < len) (hmoves : (inst.relocate k).moves icase ml s k p x) : x.1 ≤ len := by
  cases inst with
  | opChar | opAny | opClass | opNclass | opSol | opEol =>
      rcases hmoves with ⟨rfl, _⟩
      exact hk
  | opBranch =>
      simp only [Inst.fits] at h
      rcases hmoves with rfl | rfl <;> simp only <;> omega
  | opJmp =>
      simp only [Inst.fits] at h
      obtain rfl := hmoves
      simp only
      omega
  | opMatch => exact h.elim

theorem relocated_get (code : List Inst) (k : Nat) :
    (relocateFrom 0 code)[k]? = code[k]?.map (Inst.relocate k) := by
  rw [getElem?_relocateFrom, Nat.zero_add]

/-- Code whose offsets stay inside, as a block. -/
def codeBlock (icase ml : Bool) (s : List CChar) (h : Closed code) : Block Nat where
  len := code.length
  step := NfaStep icase ml s (relocateFrom 0 code)
  inside := by
    intro x y hstep
    rcases nfaStep_iff.mp hstep with ⟨inst, hi, hmoves⟩
    rw [relocated_get] at hi
    rcases Option.map_eq_some_iff.mp hi with ⟨inst', hi', rfl⟩
    have hlt := (List.getElem?_eq_some_iff.mp hi').1
    exact ⟨hlt, Inst.moves_inside (h _ _ hi') hlt hmoves⟩

/-- Code that stands in other code is embedded there. -/
theorem embeds_code (hc : Closed c) (hd : Closed d) {off : Nat}
    (hsame : ∀ k < c.length, d[off + k]? = getElem? c k) :
    Embeds (codeBlock icase ml s hc) (codeBlock icase ml s hd) off := by
  intro k hk p x
  have hget := hsame k hk
  rcases hinst : getElem? c k with _ | inst
  · rw [List.getElem?_eq_none_iff] at hinst
    exact absurd hk (Nat.not_lt.mpr hinst)
  · rw [hinst] at hget
    have hfrom : ∀ y, (codeBlock icase ml s hc).step (k, p) y ↔
        (inst.relocate k).moves icase ml s k p y := by
      intro y
      refine nfaStep_iff.trans ?_
      rw [relocated_get, hinst]
      simp
    have hto : (codeBlock icase ml s hd).step (off + k, p) x ↔
        (inst.relocate (off + k)).moves icase ml s (off + k) p x := by
      refine nfaStep_iff.trans ?_
      rw [relocated_get, hget]
      simp
    rw [hto, Inst.moves_shift (hc k inst hinst)]
    simp only [hfrom]

theorem embeds_left (hc : Closed c) (hcd : Closed (c ++ d)) :
    Embeds (codeBlock icase ml s hc) (codeBlock icase ml s hcd) 0 := by
  refine embeds_code hc hcd ?_
  intro k hk
  rw [Nat.zero_add, List.getElem?_append_left hk]

theorem embeds_right (hd : Closed d) (hcd : Closed (c ++ d)) :
    Embeds (codeBlock icase ml s hd) (codeBlock icase ml s hcd) c.length := by
  refine embeds_code hd hcd ?_
  intro k _
  rw [List.getElem?_append_right (Nat.le_add_right _ _), Nat.add_sub_cancel_left]

theorem codeBlock_step (h : Closed code) {k p : Nat} {inst : Inst} (hinst : code[k]? = some inst)
    (x : Nat × Nat) : (codeBlock icase ml s h).step (k, p) x ↔
      (inst.relocate k).moves icase ml s k p x := by
  refine nfaStep_iff.trans ?_
  rw [relocated_get, hinst]
  simp

/-- A program accepts what its code leads over. -/
theorem accepts_iff_flow (h : Closed code) :
    Accepts icase ml s (relocateFrom 0 (code ++ [.opMatch])) i j ↔ Flow icase ml s code i j := by
  have hprog : relocateFrom 0 (code ++ [.opMatch]) = relocateFrom 0 code ++ [.opMatch] := by
    rw [relocateFrom_append]
    rfl
  have hlen := length_relocateFrom 0 code
  have hmatch : ∀ ip, (relocateFrom 0 (code ++ [.opMatch]))[ip]? = some .opMatch ↔
      ip = code.length := by
    intro ip
    rw [relocated_get]
    constructor
    · intro hip
      rcases Option.map_eq_some_iff.mp hip with ⟨inst, hinst, hrel⟩
      have hm : inst = .opMatch := by
        cases inst <;> first | rfl | cases hrel
      subst hm
      rcases Nat.lt_or_ge ip code.length with hlt | hge
      · rw [List.getElem?_append_left hlt] at hinst
        exact (h ip _ hinst).elim
      · have := (List.getElem?_eq_some_iff.mp hinst).1
        rw [List.length_append, List.length_singleton] at this
        omega
    · rintro rfl
      simp [Inst.relocate]
  -- the steps of the code are those of the program, but for the last instruction
  have hstep : ∀ a b : Nat × Nat, a.1 < code.length →
      (NfaStep icase ml s (relocateFrom 0 (code ++ [.opMatch])) a b ↔
        NfaStep icase ml s (relocateFrom 0 code) a b) := by
    intro a b ha
    rw [nfaStep_iff, nfaStep_iff, hprog, List.getElem?_append_left (by rw [hlen]; exact ha)]
  constructor
  · rintro ⟨ip, hip, hpath⟩
    obtain rfl := (hmatch ip).mp hip
    have hall : ∀ a : Nat × Nat, NfaPath icase ml s (relocateFrom 0 (code ++ [.opMatch])) a
        (code.length, j) → NfaPath icase ml s (relocateFrom 0 code) a (code.length, j) := by
      intro a hpath
      induction hpath using ReflTransGen.head_induction_on with
      | refl => exact .refl
      | @head a b hab _ ih =>
          refine .head ((hstep a b ?_).mp hab) ih
          rcases nfaStep_iff.mp hab with ⟨inst, hi, hmoves⟩
          have hlt := (List.getElem?_eq_some_iff.mp hi).1
          rw [length_relocateFrom, List.length_append, List.length_singleton] at hlt
          by_contra hge
          have heq : a.1 = code.length := by omega
          rw [(hmatch a.1).mpr heq] at hi
          obtain rfl := Option.some.inj hi
          exact hmoves
    exact hall _ hpath
  · intro hpath
    refine ⟨code.length, (hmatch _).mpr rfl, ?_⟩
    refine ReflTransGen.mono ?_ _ _ hpath
    intro a b hab
    exact (hstep a b ((codeBlock icase ml s h).inside hab).1).mpr hab

/-! ## The operators -/

theorem flow_append (hc : Closed c) (hd : Closed d) : Flow icase ml s (c ++ d) i j ↔
    ∃ k, Flow icase ml s c i k ∧ Flow icase ml s d k j :=
  run_append (embeds_left hc (hc.append hd)) (embeds_right hd (hc.append hd))
    (List.length_append ..)

theorem flow_nil : Flow icase ml s [] i j ↔ i = j := by
  constructor
  · intro h
    exact Block.stops (D := codeBlock icase ml s Closed.nil) h rfl
  · rintro rfl
    exact .refl

theorem flow_copies (hc : Closed e) (n : Nat) : Flow icase ml s (copies e (n + 1)) i j ↔
    ∃ k, Flow icase ml s e i k ∧ Flow icase ml s (copies e n) k j := by
  rw [copies_succ]
  exact flow_append hc (closed_copies hc n)

/-- `code_one` repeats its operand. -/
theorem flow_oneCode (he : Closed e) (hne : 0 < e.length) :
    Flow icase ml s (oneCode e) i j ↔ TransGen (Flow icase ml s e) i j := by
  have hclosed := closed_oneCode he hne
  refine run_loop (D := codeBlock icase ml s hclosed) (embeds_left he hclosed)
    (List.length_append ..) ?_
  intro p x
  have hget : (oneCode e)[e.length]? = some (.opBranch (-(e.length : Int)) 1) := by
    simp [oneCode]
  have hlen : (oneCode e).length = e.length + 1 := by simp [oneCode]
  refine (codeBlock_step hclosed hget x).trans ?_
  have h1 : (-(e.length : Int) + (e.length : Int)).toNat = 0 := by omega
  have h2 : ((1 : Int) + (e.length : Int)).toNat = e.length + 1 := by omega
  show x = _ ∨ x = _ ↔ x = _ ∨ x = ((oneCode e).length, p)
  rw [h1, h2, hlen]

/-- `code_onezero` makes its operand optional. -/
theorem flow_onezeroCode (he : Closed e) :
    Flow icase ml s (onezeroCode e) i j ↔ i = j ∨ Flow icase ml s e i j := by
  have hclosed := closed_onezeroCode he
  have hembeds : Embeds (codeBlock icase ml s he) (codeBlock icase ml s hclosed) 1 := by
    refine embeds_code he hclosed ?_
    intro k _
    rw [onezeroCode, Nat.add_comm 1, List.getElem?_cons_succ]
  refine run_skip hembeds rfl ?_
  intro p x
  have hget : (onezeroCode e)[0]? = some (.opBranch 1 ((e.length : Int) + 1)) := rfl
  refine (codeBlock_step hclosed hget x).trans ?_
  have h2 : ((e.length : Int) + 1 + ((0 : Nat) : Int)).toNat = e.length + 1 := by omega
  show x = (((1 : Int) + ((0 : Nat) : Int)).toNat, p) ∨ x = _ ↔ x = _ ∨ x = (e.length + 1, p)
  rw [h2]
  rfl

/-- `code_zero` is the optional form of `code_one`. -/
theorem zeroCode_eq_onezeroCode (e : List Inst) : zeroCode e = onezeroCode (oneCode e) := by
  rw [zeroCode_eq, onezeroCode]
  congr 2
  simp [oneCode]
  omega

theorem flow_zeroCode (he : Closed e) (hne : 0 < e.length) :
    Flow icase ml s (zeroCode e) i j ↔ ReflTransGen (Flow icase ml s e) i j := by
  rw [zeroCode_eq_onezeroCode, flow_onezeroCode (closed_oneCode he hne), flow_oneCode he hne,
    reflTransGen_iff_eq_or_transGen, eq_comm]

/-- Each round of `code_rep_less` is optional, and so are those behind it. -/
theorem optionalCode_succ (e : List Inst) (rounds : Nat) :
    optionalCode e (rounds + 1) = onezeroCode (e ++ optionalCode e rounds) := by
  rw [optionalCode, onezeroCode, List.cons_append]
  congr 2
  rw [List.length_append, length_optionalCode]
  push_cast
  ring

theorem flow_optionalCode (he : Closed e) (rounds : Nat) :
    Flow icase ml s (optionalCode e (rounds + 1)) i j ↔ i = j ∨
      ∃ k, Flow icase ml s e i k ∧ Flow icase ml s (optionalCode e rounds) k j := by
  have hrest := closed_optionalCode he rounds
  rw [optionalCode_succ, flow_onezeroCode (he.append hrest), flow_append he hrest]

/-- `code_rep_more` repeats the last copy. -/
theorem repMoreCode_eq (e : List Inst) (repN : Int) :
    repMoreCode e repN = copies e (repN - 1).toNat ++ oneCode e := by
  rw [repMoreCode, copies_succ', oneCode, List.append_assoc]

end

end Rxvm
