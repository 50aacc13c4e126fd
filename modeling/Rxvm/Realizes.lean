import Rxvm.Frames
import Rxvm.Progress

/-!
# Rxvm.Realizes — the code of an expression means what it does

By induction on the derivation of an expression: the machine on lexemes takes
all of it, and the code it makes of it leads over what the expression matches.
-/

namespace Rxvm

open Blocks Relation

/-- The code leads over what `M` matches. -/
structure Realizes (M : Bool → List CChar → Nat → Nat → Prop) (code : List Inst) : Prop where
  nonempty : 0 < code.length
  closed : Closed code
  flow : ∀ ml s i j, Flow false ml s code i j ↔ M ml s i j

/-! ## The elements -/

section

variable {icase ml : Bool} {s : List CChar} {c d e : List Inst} {i j : Nat} {inst : Inst}

theorem flow_atom (h : inst.isAtom = true) :
    Flow icase ml s [inst] i j ↔ inst.moves icase ml s 0 i (1, j) := by
  have hatoms : Atoms [inst] := by
    intro inst' hinst
    obtain rfl := List.mem_singleton.mp hinst
    exact h
  refine run_single (D := codeBlock icase ml s hatoms.closed)
    (R := fun a b => inst.moves icase ml s 0 a (1, b)) rfl ?_
  intro a x
  have hget : [inst][0]? = some inst := rfl
  refine (codeBlock_step hatoms.closed hget x).trans ?_
  rcases x with ⟨k, p⟩
  cases inst with
  | opChar | opAny | opClass | opNclass | opSol | opEol =>
      simp only [Inst.relocate, Inst.moves, Prod.mk.injEq]
      tauto
  | opBranch | opJmp | opMatch => cases h

theorem realizes_atom {M : Bool → List CChar → Nat → Nat → Prop} (h : inst.isAtom = true)
    (hM : ∀ ml s i j, inst.moves false ml s 0 i (1, j) ↔ M ml s i j) : Realizes M [inst] := by
  refine ⟨Nat.one_pos, Atoms.closed ?_, fun ml s i j => (flow_atom h).trans (hM ml s i j)⟩
  intro inst' hinst
  obtain rfl := List.mem_singleton.mp hinst
  exact h

/-- An instruction that consumes a character. -/
theorem eats_iff {P : CChar → Prop} (h : ∀ c, inst.eats false c = true ↔ P c) :
    ((1, j) = (0 + 1, i + 1) ∧ i < s.length ∧ inst.eats false (at' s i) = true) ↔
      Expr.Eats s P i j := by
  simp only [h, Expr.Eats, Prod.mk.injEq, true_and, Nat.zero_add]
  constructor
  · rintro ⟨rfl, hlt, hP⟩
    refine ⟨rfl, s[i], List.getElem?_eq_getElem hlt, ?_⟩
    simpa [at', List.getD_eq_getElem?_getD, hlt] using hP
  · rintro ⟨rfl, x, hx, hP⟩
    have hlt := (List.getElem?_eq_some_iff.mp hx).1
    refine ⟨rfl, hlt, ?_⟩
    simpa [at', List.getD_eq_getElem?_getD, hx] using hP

/-! ## Sets -/

theorem metaSyms_printable : ∀ c ∈ metaSyms, isprintable c = true := by decide +kernel

theorem Literal.printable {inSet : Bool} (l : Literal inSet) : isprintable l.c = true := by
  cases h : l.esc with
  | true => exact metaSyms_printable _ (l.escaped h)
  | false => exact (l.plain h).1

/-- The bounds of a range, in order. -/
theorem min_max_eq (a b : CChar) : (min a b, max a b) = if a > b then (b, a) else (a, b) := by
  have hmin : min a b = if a ≤ b then a else b := rfl
  have hmax : max a b = if a ≤ b then b else a := rfl
  rw [hmin, hmax]
  split_ifs with hle hgt hgt
  all_goals first
    | rfl
    | simp only [gt_iff_lt, Int8.lt_iff_toInt_lt, Int8.le_iff_toInt_le] at hle hgt
      omega

theorem SetItem.chars_range (lo hi : Literal true) :
    ∃ chars, expandLoop (max lo.c hi.c) 257 (min lo.c hi.c) = .ok chars ∧
      (SetItem.range lo hi).chars = chars ∧
      ∀ x, x ∈ chars ↔ (SetItem.range lo hi).Has x := by
  have hlo := isprintable_bounds lo.printable
  have hhi := isprintable_bounds hi.printable
  rcases Prod.mk.inj ((min_max_eq lo.c hi.c).trans Prod.mk.eta.symm) with ⟨hmin, hmax⟩
  have hend : (max lo.c hi.c).toInt < 127 := by
    rw [hmax]
    split_ifs
    · exact hlo.2
    · exact hhi.2
  have hstart : 0 < (min lo.c hi.c).toInt := by
    rw [hmin]
    split_ifs
    · exact hhi.1
    · exact hlo.1
  rcases expandLoop_range hend 257 (min lo.c hi.c) (by omega) (by decide) with
    ⟨chars, hchars, hmem⟩
  refine ⟨chars, hchars, by rw [SetItem.chars, hchars], ?_⟩
  intro x
  rw [hmem, hmin, hmax]
  unfold SetItem.Has
  split_ifs with hgt
  all_goals
    simp only [gt_iff_lt, Int8.lt_iff_toInt_lt, Int8.le_iff_toInt_le] at hgt ⊢
    omega

theorem SetItem.mem_chars (item : SetItem) (x : CChar) : x ∈ item.chars ↔ item.Has x := by
  cases item with
  | char l => exact List.mem_singleton
  | range lo hi =>
      rcases SetItem.chars_range lo hi with ⟨chars, _, heq, hmem⟩
      rw [heq]
      exact hmem x

theorem SetItem.mem_flatMap_chars {items : List SetItem} {x : CChar} :
    x ∈ items.flatMap SetItem.chars ↔ ∃ y ∈ items, y.Has x := by
  rw [List.mem_flatMap]
  constructor
  · rintro ⟨y, hy, hx⟩
    exact ⟨y, hy, (y.mem_chars x).mp hx⟩
  · rintro ⟨y, hy, hx⟩
    exact ⟨y, hy, (y.mem_chars x).mpr hx⟩

/-- The instruction of a set. -/
def Lexeme.setInst (negated : Bool) (items : List SetItem) : Inst :=
  if negated then .opNclass (items.flatMap SetItem.chars)
  else .opClass (items.flatMap SetItem.chars)

theorem Lexeme.setInst_isAtom (negated : Bool) (items : List SetItem) :
    (Lexeme.setInst negated items).isAtom = true := by
  cases negated <;> rfl

theorem Lexeme.setInst_eats (negated : Bool) (items : List SetItem) (x : CChar) :
    (Lexeme.setInst negated items).eats false x = true ↔
      (negated = false ↔ ∃ y ∈ items, y.Has x) := by
  have hccs : ccsMatch false (items.flatMap SetItem.chars) x = true ↔
      ∃ y ∈ items, y.Has x := by
    rw [← SetItem.mem_flatMap_chars]
    simp [ccsMatch, charMatch]
  cases negated with
  | false => simpa [Lexeme.setInst, Inst.eats] using hccs
  | true => simpa [Lexeme.setInst, Inst.eats] using not_congr hccs

theorem realizes_set (negated : Bool) (items : List SetItem) :
    Realizes (fun _ s i j => Expr.Eats s (fun x => negated = false ↔ ∃ y ∈ items, y.Has x) i j)
      [Lexeme.setInst negated items] := by
  refine realizes_atom (Lexeme.setInst_isAtom negated items) ?_
  intro ml s i j
  have heats := eats_iff (s := s) (i := i) (j := j) (Lexeme.setInst_eats negated items)
  cases negated with
  | false => exact heats
  | true => exact heats

/-! ## The operators -/

theorem flow_copies_iff (he : Closed e) (n : Nat) :
    Flow icase ml s (copies e n) i j ↔ Times (Flow icase ml s e) n i j := by
  induction n generalizing i with
  | zero => exact flow_nil
  | succ n ih =>
      rw [flow_copies he]
      simp only [ih]
      rfl

theorem flow_optional_iff (he : Closed e) (n : Nat) :
    Flow icase ml s (optionalCode e n) i j ↔ UpTo (Flow icase ml s e) n i j := by
  induction n generalizing i with
  | zero => exact flow_nil
  | succ n ih =>
      rw [flow_optionalCode he]
      simp only [ih]
      rfl

variable {M : Bool → List CChar → Nat → Nat → Prop}

/-- Code that leads over as many rounds of the operand as `K` allows. -/
theorem Realizes.rounds {K : Nat → Prop} (h : Realizes M e) (hpos : 0 < c.length) (hc : Closed c)
    (hflow : ∀ ml s i j, Flow false ml s c i j ↔ ∃ k, K k ∧ Times (Flow false ml s e) k i j) :
    Realizes (fun ml s i j => ∃ k, K k ∧ Times (M ml s) k i j) c := by
  refine ⟨hpos, hc, ?_⟩
  intro ml s i j
  rw [hflow]
  simp only [Times.congr (h.flow ml s)]

theorem Realizes.zero (h : Realizes M e) :
    Realizes (fun ml s i j => ∃ k, Times (M ml s) k i j) (zeroCode e) := by
  have hrounds := h.rounds (K := fun _ => True) (c := zeroCode e) (by simp [zeroCode])
    (closed_zeroCode h.closed h.nonempty) ?_
  · simpa using hrounds
  · intro ml s i j
    rw [flow_zeroCode h.closed h.nonempty, reflTransGen_iff_times]
    simp

theorem Realizes.one (h : Realizes M e) :
    Realizes (fun ml s i j => ∃ k, 1 ≤ k ∧ Times (M ml s) k i j) (oneCode e) := by
  refine h.rounds (by simp [oneCode]) (closed_oneCode h.closed h.nonempty) ?_
  intro ml s i j
  rw [flow_oneCode h.closed h.nonempty, transGen_iff_times]

theorem Realizes.onezero (h : Realizes M e) :
    Realizes (fun ml s i j => i = j ∨ M ml s i j) (onezeroCode e) := by
  refine ⟨by simp [onezeroCode], closed_onezeroCode h.closed, ?_⟩
  intro ml s i j
  rw [flow_onezeroCode h.closed, h.flow]

/-! ## Counts -/

theorem digitsValue_nonneg : ∀ {digits : List CChar} {n : Int}, 0 ≤ n →
    (∀ d ∈ digits, isdigit d = true) → 0 ≤ digitsValue n digits := by
  intro digits
  induction digits with
  | nil => exact fun hn _ => hn
  | cons d digits ih =>
      intro n hn hdigits
      refine ih ?_ fun x hx => hdigits x (List.mem_cons_of_mem d hx)
      have hd := hdigits d List.mem_cons_self
      simp only [isdigit, Bool.and_eq_true, decide_eq_true_eq, Int8.le_iff_toInt_le] at hd
      show 0 ≤ n * 10 + (d.toInt - (chr '0').toInt)
      omega

theorem Integer.value_nonneg (n : Integer) : 0 ≤ n.value := digitsValue_nonneg le_rfl n.decimal

/-- The numbers of rounds a count allows. -/
def Reps.Allows (k : Nat) : Reps → Prop
  | .repN n => k = n.value.toNat
  | .repRange n m => min n.value m.value ≤ k ∧ k ≤ max n.value m.value
  | .repMore n => n.value ≤ k
  | .repLess m => k ≤ m.value

theorem Expr.matches_rep {ml : Bool} {s : List CChar} (f : Expr .elem) (reps : Reps) {i j : Nat} :
    (Expr.rep f reps).Matches ml s i j ↔ ∃ k, reps.Allows k ∧ Times (f.Matches ml s) k i j := by
  cases reps with
  | repN n => simp [Expr.Matches, Reps.Allows]
  | repRange n m => simp [Expr.Matches, Reps.Allows, and_assoc]
  | repMore n => rfl
  | repLess m => rfl

theorem onezeroCode_eq (e : List Inst) : onezeroCode e = optionalCode e 1 := by
  rw [optionalCode_succ]
  simp [optionalCode]

theorem Realizes.copies (h : Realizes M e) (n : Nat) :
    Realizes (fun ml s i j => ∃ k, k = n + 1 ∧ Times (M ml s) k i j) (copies e (n + 1)) := by
  refine h.rounds ?_ (closed_copies h.closed _) ?_
  · have := h.nonempty
    rw [copies_succ, List.length_append]
    omega
  · intro ml s i j
    rw [flow_copies_iff h.closed]
    simp

theorem Realizes.optional (h : Realizes M e) (n : Nat) :
    Realizes (fun ml s i j => ∃ k, k ≤ n + 1 ∧ Times (M ml s) k i j) (optionalCode e (n + 1)) := by
  refine h.rounds (by simp [optionalCode]) (closed_optionalCode h.closed _) ?_
  intro ml s i j
  rw [flow_optional_iff h.closed, upTo_iff_times]

/-- The copies that are needed, and those that are optional. -/
theorem Realizes.range (h : Realizes M e) (n m : Nat) :
    Realizes (fun ml s i j => ∃ k, (n ≤ k ∧ k ≤ n + (m + 1)) ∧ Times (M ml s) k i j)
      (Rxvm.copies e n ++ optionalCode e (m + 1)) := by
  have hcopies := closed_copies h.closed n
  have hoptional := closed_optionalCode h.closed (m + 1)
  refine h.rounds (by simp [optionalCode]) (hcopies.append hoptional) ?_
  intro ml s i j
  rw [flow_append hcopies hoptional]
  simp only [flow_copies_iff h.closed, flow_optional_iff h.closed]
  rw [times_upTo]
  simp only [and_assoc]

theorem Realizes.more (h : Realizes M e) (n : Nat) :
    Realizes (fun ml s i j => ∃ k, n + 1 ≤ k ∧ Times (M ml s) k i j)
      (Rxvm.copies e n ++ oneCode e) := by
  have hcopies := closed_copies h.closed n
  have hone := closed_oneCode h.closed h.nonempty
  refine h.rounds (by simp [oneCode]) (hcopies.append hone) ?_
  intro ml s i j
  rw [flow_append hcopies hone]
  simp only [flow_copies_iff h.closed, flow_oneCode h.closed h.nonempty, transGen_iff_times]
  constructor
  · rintro ⟨c, hac, k, hk, hcb⟩
    exact ⟨n + k, by omega, (times_add n k).mpr ⟨c, hac, hcb⟩⟩
  · rintro ⟨k, hk, h⟩
    obtain ⟨l, rfl⟩ := Nat.exists_eq_add_of_le (show n ≤ k by omega)
    rcases (times_add n l).mp h with ⟨c, hac, hcb⟩
    exact ⟨c, hac, l, by omega, hcb⟩

theorem Realizes.congr {N : Bool → List CChar → Nat → Nat → Prop} (h : Realizes M e)
    (hMN : ∀ ml s i j, M ml s i j ↔ N ml s i j) : Realizes N e :=
  ⟨h.nonempty, h.closed, fun ml s i j => (h.flow ml s i j).trans (hMN ml s i j)⟩

theorem Realizes.repN (h : Realizes M e) {n : Int} (hn : 0 < n) :
    Realizes (fun ml s i j => ∃ k, k = n.toNat ∧ Times (M ml s) k i j) (repNCode e n) := by
  refine (h.copies (n - 1).toNat).congr ?_
  intro ml s i j
  rw [show (n - 1).toNat + 1 = n.toNat by omega]

/-- The code of a count, for any operand. -/
theorem Realizes.reps (h : Realizes M e) (reps : Reps) (hadm : reps.Admissible) :
    ∃ c, reps.code e = some c ∧
      Realizes (fun ml s i j => ∃ k, reps.Allows k ∧ Times (M ml s) k i j) c := by
  have hno : repNoField = -1 := rfl
  have hempty : repFieldEmpty = -2 := rfl
  -- the cases of `repCode`, in the order of the source
  cases reps with
  | repN n =>
      have hn := n.value_nonneg
      have hne := hadm.1
      refine ⟨repNCode e n.value, ?_, h.repN (by omega)⟩
      show repCode e n.value repNoField = _
      unfold repCode
      rw [if_neg (by omega), if_neg (by omega), if_neg (by omega), if_pos ⟨hn, rfl⟩, if_neg hne]
  | repRange n m =>
      have hn := n.value_nonneg
      have hm := m.value_nonneg
      have hne := hadm.1
      have hcode : (Reps.repRange n m).code e = repRangeCode e n.value m.value := by
        show repCode e n.value m.value = _
        unfold repCode
        rw [if_pos ⟨hn, hm⟩]
      rw [hcode]
      unfold repRangeCode
      -- equal bounds are a plain count
      by_cases heq : n.value = m.value
      · rw [if_pos heq, if_neg (by omega)]
        refine ⟨_, rfl, (h.repN (by omega)).congr ?_⟩
        intro ml s i j
        simp only [Reps.Allows, ← heq, min_self, max_self]
        have hk : ∀ k : Nat, k = n.value.toNat ↔ n.value ≤ k ∧ (k : Int) ≤ n.value := by
          intro k
          omega
        simp only [hk]
      · rw [if_neg heq]
        -- `{0,1}` and `{1,0}` are the operator `?`
        by_cases hone : (n.value = 0 ∧ m.value = 1) ∨ (n.value = 1 ∧ m.value = 0)
        · rw [if_pos hone, onezeroCode_eq]
          refine ⟨_, rfl, (h.optional 0).congr ?_⟩
          intro ml s i j
          have hk : ∀ k : Nat, k ≤ 0 + 1 ↔ (Reps.repRange n m).Allows k := by
            intro k
            simp only [Reps.Allows]
            omega
          simp only [hk]
        · -- the bounds may come the wrong way round: the code takes the least first
          rw [if_neg hone]
          obtain ⟨d, hd⟩ : ∃ d, (max n.value m.value - min n.value m.value).toNat = d + 1 :=
            ⟨(max n.value m.value - min n.value m.value).toNat - 1, by omega⟩
          rw [hd]
          refine ⟨_, rfl, (h.range _ d).congr ?_⟩
          intro ml s i j
          have hk : ∀ k : Nat, ((min n.value m.value).toNat ≤ k ∧
              k ≤ (min n.value m.value).toNat + (d + 1)) ↔ (Reps.repRange n m).Allows k := by
            intro k
            simp only [Reps.Allows]
            omega
          simp only [hk]
  | repMore n =>
      have hn := n.value_nonneg
      -- `{0,}` is the operator `*`
      by_cases hzero : n.value = 0
      · refine ⟨zeroCode e, ?_, h.zero.congr ?_⟩
        · show repCode e n.value repFieldEmpty = _
          unfold repCode
          rw [if_neg (by omega), if_neg (by omega), if_neg (by omega), if_neg (by omega),
            if_pos ⟨hzero, rfl⟩]
        · intro ml s i j
          simp [Reps.Allows, hzero]
      · -- the first `n` repetitions are forced, the last of them with `+`
        refine ⟨repMoreCode e n.value, ?_, ?_⟩
        · show repCode e n.value repFieldEmpty = _
          unfold repCode
          rw [if_neg (by omega), if_pos ⟨by omega, rfl⟩]
        · rw [repMoreCode_eq]
          refine (h.more _).congr ?_
          intro ml s i j
          have hk : ∀ k : Nat, (n.value - 1).toNat + 1 ≤ k ↔ (Reps.repMore n).Allows k := by
            intro k
            simp only [Reps.Allows]
            omega
          simp only [hk]
  | repLess m =>
      have hm := m.value_nonneg
      have hne := hadm.1
      have hcode : (Reps.repLess m).code e = some (optionalCode e m.value.toNat) := by
        show repCode e repFieldEmpty m.value = _
        unfold repCode
        rw [if_neg (by omega), if_neg (by omega), if_pos ⟨rfl, hm⟩]
        unfold repLessCode
        -- `{,m}`, where `{,1}` is the operator `?`
        rw [if_neg hne]
        split_ifs with hone
        · rw [hone, onezeroCode_eq]
          rfl
        · rfl
      obtain ⟨d, hd⟩ : ∃ d, m.value.toNat = d + 1 := ⟨m.value.toNat - 1, by omega⟩
      refine ⟨_, hcode, ?_⟩
      rw [hd]
      refine (h.optional d).congr ?_
      intro ml s i j
      have hk : ∀ k : Nat, k ≤ d + 1 ↔ (Reps.repLess m).Allows k := by
        intro k
        simp only [Reps.Allows]
        omega
      simp only [hk]

/-! ## Alternatives -/

/-- Two alternatives, with the jump behind the first one completed. -/
def forkCode (c d : List Inst) : List Inst :=
  .opBranch 1 ((c.length : Int) + 2) :: c ++ .opJmp ((d.length : Int) + 1) :: d

theorem modify_append_cons {α : Type*} (l r : List α) (a : α) (f : α → α) :
    (l ++ a :: r).modify l.length f = l ++ f a :: r := by
  induction l with
  | nil => rfl
  | cons b l ih => rw [List.cons_append, List.length_cons, List.modify_succ_cons, ih]; rfl

/-- What a level holds behind a second alternative. -/
theorem Stk.alt_append_attach (t : Stk) (d : List Inst) :
    (t.alt.append d).attach.code = forkCode t.attach.code d := by
  have hcode : (t.alt.append d).code =
      (.opBranch 1 ((t.attach.code.length : Int) + 2) :: t.attach.code) ++ .opJmp 0 :: d := by
    simp [Stk.alt, Stk.fork]
  have hattach : (t.alt.append d).attach.code = (t.alt.append d).code.modify
      (t.attach.code.length + 1)
      (Inst.setX (((t.alt.append d).code.length : Int) - ((t.attach.code.length + 1 : Nat) : Int))) := rfl
  rw [hattach, hcode]
  have hlen : (.opBranch 1 ((t.attach.code.length : Int) + 2) :: t.attach.code : List Inst).length =
      t.attach.code.length + 1 := List.length_cons
  rw [← hlen, modify_append_cons, forkCode]
  congr 2
  simp only [Inst.setX, List.length_append, List.length_cons]
  congr 1
  push_cast
  ring

theorem closed_forkCode (hc : Closed c) (hd : Closed d) : Closed (forkCode c d) := by
  have hjump : Closed (.opJmp ((d.length : Int) + 1) :: d) := by
    refine Closed.cons ?_ hd
    simp only [Inst.fits]
    omega
  rw [forkCode, List.cons_append]
  refine Closed.cons ?_ (hc.append hjump)
  simp only [Inst.fits, List.length_append, List.length_cons]
  omega

theorem flow_forkCode (hc : Closed c) (hd : Closed d) : Flow icase ml s (forkCode c d) i j ↔
    Flow icase ml s c i j ∨ Flow icase ml s d i j := by
  have hfork := closed_forkCode hc hd
  have hlen : (forkCode c d).length = c.length + 2 + d.length := by
    simp [forkCode]
    omega
  have hhead : (forkCode c d)[0]? = some (.opBranch 1 ((c.length : Int) + 2)) := rfl
  have hjump : (forkCode c d)[c.length + 1]? = some (.opJmp ((d.length : Int) + 1)) := by
    simp [forkCode]
  have hfirst : Embeds (codeBlock icase ml s hc) (codeBlock icase ml s hfork) 1 := by
    refine embeds_code hc hfork ?_
    intro k hk
    rw [forkCode, List.cons_append, Nat.add_comm 1, List.getElem?_cons_succ,
      List.getElem?_append_left hk]
  have hsecond : Embeds (codeBlock icase ml s hd) (codeBlock icase ml s hfork) (c.length + 2) := by
    refine embeds_code hd hfork ?_
    intro k _
    have hk : c.length + 2 + k - (.opBranch 1 ((c.length : Int) + 2) :: c : List Inst).length =
        k + 1 := by
      simp only [List.length_cons]
      omega
    rw [forkCode, List.getElem?_append_right (by simp; omega), hk, List.getElem?_cons_succ]
  refine run_fork hfirst hsecond hlen ?_ ?_
  · intro a x
    refine (codeBlock_step hfork hhead x).trans ?_
    have h1 : ((1 : Int) + ((0 : Nat) : Int)).toNat = 1 := rfl
    have h2 : ((c.length : Int) + 2 + ((0 : Nat) : Int)).toNat = c.length + 2 := by omega
    show x = _ ∨ x = _ ↔ x = _ ∨ x = (c.length + 2, a)
    rw [h1, h2]
  · intro a x
    refine (codeBlock_step hfork hjump x).trans ?_
    have h1 : ((d.length : Int) + 1 + ((c.length + 1 : Nat) : Int)).toNat = (forkCode c d).length := by
      omega
    show x = _ ↔ x = ((forkCode c d).length, a)
    rw [h1]

theorem Realizes.fork {N : Bool → List CChar → Nat → Nat → Prop} (hc : Realizes M c)
    (hd : Realizes N d) : Realizes (fun ml s i j => M ml s i j ∨ N ml s i j) (forkCode c d) := by
  refine ⟨by simp [forkCode], closed_forkCode hc.closed hd.closed, ?_⟩
  intro ml s i j
  rw [flow_forkCode hc.closed hd.closed, hc.flow, hd.flow]

theorem Realizes.append {N : Bool → List CChar → Nat → Nat → Prop} (hc : Realizes M c)
    (hd : Realizes N d) :
    Realizes (fun ml s i j => ∃ k, M ml s i k ∧ N ml s k j) (c ++ d) := by
  refine ⟨?_, hc.closed.append hd.closed, ?_⟩
  · have := hc.nonempty
    rw [List.length_append]
    omega
  · intro ml s i j
    rw [flow_append hc.closed hd.closed]
    simp only [hc.flow, hd.flow]

end

/-! ## Derivations -/

/-- What the machine has made of a nonterminal, as code. An expression is read
from the start of a level. -/
def Frames.Reads (F F' : Frames) (code : List Inst) : NonTerm → Prop
  | .re => F'.Tidy ∧ F'.below = F.below ∧ F'.level.attach.code = code
  | .elem => Frames.Element F F' code
  | _ => Frames.Extended F F' code

theorem Expr.Admissible.left {n m : NonTerm} {e : Expr n} {f : Expr m} {l : List Lexeme}
    (h : f.Admissible) (heq : f.lexemes = e.lexemes ++ l) : e.Admissible := by
  intro x hx
  exact h x (by rw [heq]; exact List.mem_append_left _ hx)

theorem Frames.take_atom {F : Frames} (h : F.Tidy) {x : Lexeme} {inst : Inst}
    {M : Bool → List CChar → Nat → Nat → Prop} (htake : F.take x = some (F.atom inst))
    (hM : Realizes M [inst]) :
    ∃ F' code, F.takeAll [x] = some F' ∧ F.Reads F' code .elem ∧ Realizes M code :=
  ⟨_, [inst], by rw [takeAll_cons, htake]; rfl, h.atom inst, hM⟩

/-- An operator behind an element. -/
theorem Frames.take_operator {F F' : Frames} {e c : List Inst} {l : List Lexeme} {x : Lexeme}
    {M : Bool → List CChar → Nat → Nat → Prop} (code : List Inst → Option (List Inst))
    (hl : F.takeAll l = some F') (helem : Frames.Element F F' e)
    (htake : F'.take x = F'.operate code) (hcode : code e = some c) (hM : Realizes M c) :
    ∃ F'' code, F.takeAll (l ++ [x]) = some F'' ∧ F.Reads F'' code .basic ∧ Realizes M code := by
  rcases helem.operate hcode with ⟨F'', hop, hext⟩
  refine ⟨F'', c, ?_, hext, hM⟩
  rw [takeAll_append, hl, Option.bind_some, takeAll_cons, htake, hop]
  rfl

/-- The machine takes every expression, and makes code of its meaning. -/
theorem Expr.takeAll {n : NonTerm} (e : Expr n) (hadm : e.Admissible) (F : Frames) (hF : F.Tidy)
    (hlevel : n = .re → F.level = Stk.empty) :
    ∃ F' code, F.takeAll e.lexemes = some F' ∧ F.Reads F' code n ∧
      Realizes (fun ml s i j => e.Matches ml s i j) code := by
  -- induction on the derivation: what `F` holds outside the expression is untouched
  induction e generalizing F with
  | ofSimple e ih =>
      rcases ih hadm F hF (by simp) with ⟨F', code, htake, hext, hM⟩
      refine ⟨F', code, htake, ⟨hext.tidy, hext.below, ?_⟩, hM⟩
      rw [hext.level, hlevel rfl]
      rfl
  | union e f ihe ihf =>
      have hleft : e.Admissible := hadm.left rfl
      have hright : f.Admissible := fun x hx => hadm x (by simp [lexemes, hx])
      rcases ihe hleft F hF hlevel with ⟨F₁, c, htake₁, ⟨htidy₁, hbelow₁, hcode₁⟩, hc⟩
      -- an `|` starts a new level of code, on which the right side is read
      have htidy : F₁.alternate.Tidy := fun _ => rfl
      rcases ihf hright F₁.alternate htidy (by simp) with ⟨F₂, d, htake₂, hext, hd⟩
      refine ⟨F₂, forkCode c d, ?_, ⟨hext.tidy, hext.below.trans hbelow₁, ?_⟩, hc.fork hd⟩
      · show F.takeAll (e.lexemes ++ .alt :: f.lexemes) = some F₂
        rw [Frames.takeAll_append, htake₁, Option.bind_some, Frames.takeAll_cons]
        exact htake₂
      · -- the jump of the `|` is attached when the right side ends
        have hlevel₁ : F₁.alternate.level = F₁.level.alt := by
          simp [Frames.alternate, Frames.level, Frames.pending]
        rw [hext.level, hlevel₁, Stk.alt_append_attach, hcode₁]
  | ofBasic e ih => exact ih hadm F hF (by simp)
  | concat e f ihe ihf =>
      have hleft : e.Admissible := hadm.left rfl
      have hright : f.Admissible := fun x hx => hadm x (by simp [lexemes, hx])
      rcases ihe hleft F hF (by simp) with ⟨F₁, c, htake₁, hext₁, hc⟩
      rcases ihf hright F₁ hext₁.tidy (by simp) with ⟨F₂, d, htake₂, hext₂, hd⟩
      refine ⟨F₂, c ++ d, ?_, hext₁.trans hext₂, hc.append hd⟩
      show F.takeAll (e.lexemes ++ f.lexemes) = some F₂
      rw [Frames.takeAll_append, htake₁]
      exact htake₂
  | ofElem e ih =>
      rcases ih hadm F hF (by simp) with ⟨F', code, htake, helem, hM⟩
      exact ⟨F', code, htake, helem.extended, hM⟩
  | zero e ih =>
      rcases ih (hadm.left rfl) F hF (by simp) with ⟨F', code, htake, helem, hM⟩
      exact Frames.take_operator (fun e => some (zeroCode e)) htake helem rfl rfl hM.zero
  | one e ih =>
      rcases ih (hadm.left rfl) F hF (by simp) with ⟨F', code, htake, helem, hM⟩
      exact Frames.take_operator (fun e => some (oneCode e)) htake helem rfl rfl hM.one
  | onezero e ih =>
      rcases ih (hadm.left rfl) F hF (by simp) with ⟨F', code, htake, helem, hM⟩
      exact Frames.take_operator (fun e => some (onezeroCode e)) htake helem rfl rfl hM.onezero
  | rep e reps ih =>
      rcases ih (hadm.left rfl) F hF (by simp) with ⟨F', code, htake, helem, hM⟩
      have hreps : reps.Admissible := hadm (.rep reps) (by simp [lexemes])
      rcases hM.reps reps hreps with ⟨c, hcode, hc⟩
      refine Frames.take_operator (fun e => reps.code e) htake helem rfl hcode (hc.congr ?_)
      intro ml s i j
      exact (Expr.matches_rep e reps).symm
  | group e ih =>
      have hinner : e.Admissible := fun x hx => hadm x (by simp [lexemes, hx])
      -- the group is read on a level of its own, which is empty at first
      have hopen := hF.openLevel
      rcases ih hinner F.openLevel (by rw [hopen]; exact fun _ => rfl)
        (fun _ => by rw [hopen]; rfl) with ⟨F₁, code, htake, ⟨htidy, hbelow, hcode⟩, hM⟩
      -- a group has code, so `)` has something to close
      have hne : F₁.level.attach.code ≠ [] := by
        rw [hcode]
        exact List.ne_nil_of_length_pos hM.nonempty
      rcases htidy.closeLevel (F := F) (by rw [hbelow, hopen]) hne with ⟨F₂, hclose, helem⟩
      rw [hcode] at helem
      refine ⟨F₂, code, ?_, helem, hM⟩
      show F.takeAll (.lparen :: (e.lexemes ++ [.rparen])) = some F₂
      rw [Frames.takeAll_cons]
      show Frames.takeAll F.openLevel (e.lexemes ++ [.rparen]) = some F₂
      rw [Frames.takeAll_append, htake, Option.bind_some, Frames.takeAll_cons]
      show (F₁.closeLevel.bind _) = _
      rw [hclose]
      rfl
  | any =>
      refine Frames.take_atom hF rfl (realizes_atom rfl ?_)
      intro ml s i j
      exact eats_iff (by simp [Inst.eats])
  | eol =>
      refine Frames.take_atom hF rfl (realizes_atom rfl ?_)
      intro ml s i j
      simp [Inst.moves, Matches, eq_comm]
  | sol =>
      refine Frames.take_atom hF rfl (realizes_atom rfl ?_)
      intro ml s i j
      simp [Inst.moves, Matches, eq_comm]
  | char l =>
      refine Frames.take_atom hF rfl (realizes_atom rfl ?_)
      intro ml s i j
      exact eats_iff (by simp [Inst.eats, charMatch])
  | set negated item items =>
      refine Frames.take_atom hF ?_ (realizes_set negated (item :: items))
      cases negated <;> rfl

end Rxvm
