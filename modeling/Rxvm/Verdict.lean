import Rxvm.Parse
import Rxvm.Requires
import Rxvm.Taken
import Rxvm.Words

/-!
# Rxvm.Verdict — the compiler as a parser

On a text that spells lexemes `rxvm_compile` does what `parse` does: it returns
the error that the parser ends with, or a program that matches what the tree
does. So it takes exactly the derivations of the grammar with empty
alternatives. An empty group is left out, which the compiler does not close.
-/

namespace Rxvm

open Relation

/-! ## The code of a tree -/

def Atom.inst : Atom → Inst
  | char l => .opChar l.c
  | any => .opAny
  | sol => .opSol
  | eol => .opEol
  | set negated item items => Lexeme.setInst negated (item :: items)

def Operator.code : Operator → List Inst → Option (List Inst)
  | zero, e => some (zeroCode e)
  | one, e => some (oneCode e)
  | onezero, e => some (onezeroCode e)
  | rep reps, e => reps.code e

theorem Frames.take_atomLexeme (F : Frames) (a : Atom) :
    F.take a.lexeme = some (F.atom a.inst) := by
  cases a with
  | set negated item items => cases negated <;> rfl
  | _ => rfl

theorem Frames.take_operatorLexeme (F : Frames) (op : Operator) :
    F.take op.lexeme = F.operate op.code := by
  cases op <;> rfl

def Tree.code : {n : NonTerm} → Tree n → List Inst
  | _, .ofSimple t => t.code
  | _, .union t u => forkCode t.code u.code
  | _, .empty => []
  | _, .concat t u => t.code ++ u.code
  | _, .ofElem t => t.code
  | _, .operator t op => (op.code t.code).getD []
  | _, .group t => t.code
  | _, .atom a => [a.inst]

/-- Counts are admissible, and no group is empty. -/
def Tree.Solid : {n : NonTerm} → Tree n → Prop
  | _, .ofSimple t => t.Solid
  | _, .union t u => t.Solid ∧ u.Solid
  | _, .empty => True
  | _, .concat t u => t.Solid ∧ u.Solid
  | _, .ofElem t => t.Solid
  | _, .operator t op => t.Solid ∧ op.lexeme.Admissible
  | _, .group t => t.Solid ∧ 0 < t.code.length
  | _, .atom _ => True

/-- The code, which may be none, leads over what `M` matches. -/
structure LeadsOver (M : Bool → List CChar → Nat → Nat → Prop) (code : List Inst) : Prop where
  closed : Closed code
  flow : ∀ ml s i j, Flow false ml s code i j ↔ M ml s i j

section

variable {M N : Bool → List CChar → Nat → Nat → Prop} {c d e : List Inst}

theorem Realizes.leads (h : Realizes M c) : LeadsOver M c := ⟨h.closed, h.flow⟩

theorem LeadsOver.realizes (h : LeadsOver M c) (hne : 0 < c.length) : Realizes M c :=
  ⟨hne, h.closed, h.flow⟩

theorem LeadsOver.fork (hc : LeadsOver M c) (hd : LeadsOver N d) :
    LeadsOver (fun ml s i j => M ml s i j ∨ N ml s i j) (forkCode c d) := by
  refine ⟨closed_forkCode hc.closed hd.closed, fun ml s i j => ?_⟩
  rw [flow_forkCode hc.closed hd.closed, hc.flow, hd.flow]

theorem LeadsOver.append (hc : LeadsOver M c) (hd : LeadsOver N d) :
    LeadsOver (fun ml s i j => ∃ k, M ml s i k ∧ N ml s k j) (c ++ d) := by
  refine ⟨hc.closed.append hd.closed, fun ml s i j => ?_⟩
  rw [flow_append hc.closed hd.closed]
  simp only [hc.flow, hd.flow]

theorem Atom.realizes (a : Atom) : Realizes (fun ml s i j => a.Matches ml s i j) [a.inst] := by
  cases a with
  | char l =>
      refine realizes_atom rfl fun ml s i j => ?_
      exact eats_iff (by simp [Inst.eats, charMatch])
  | any =>
      refine realizes_atom rfl fun ml s i j => ?_
      exact eats_iff (by simp [Inst.eats])
  | sol =>
      refine realizes_atom rfl fun ml s i j => ?_
      show Inst.opSol.moves false ml s 0 i (1, j) ↔ i = j ∧ SolAt ml s i
      simp [Inst.moves, eq_comm]
  | eol =>
      refine realizes_atom rfl fun ml s i j => ?_
      show Inst.opEol.moves false ml s 0 i (1, j) ↔ i = j ∧ EolAt ml s i
      simp [Inst.moves, eq_comm]
  | set negated item items => exact realizes_set negated (item :: items)

/-- An operator is applied to code that leads on. -/
theorem Realizes.operator (h : Realizes M e) (op : Operator) (hadm : op.lexeme.Admissible) :
    ∃ c, op.code e = some c ∧
      Realizes (fun ml s i j => ∃ k, op.Allows k ∧ Times (M ml s) k i j) c := by
  cases op with
  | zero =>
      refine ⟨_, rfl, h.zero.congr fun ml s i j => ?_⟩
      simp [Operator.Allows]
  | one => exact ⟨_, rfl, h.one⟩
  | onezero =>
      refine ⟨_, rfl, h.onezero.congr fun ml s i j => ?_⟩
      simp only [Operator.Allows, Nat.le_one_iff_eq_zero_or_eq_one, or_and_right, exists_or,
        exists_eq_left, times_one]
      rfl
  | rep reps => exact h.reps reps hadm

end

/-- The code of a tree leads over what the tree matches, and an element has
some. -/
theorem Tree.leads : ∀ {n : NonTerm} (t : Tree n), t.Solid →
    LeadsOver (fun ml s i j => t.Matches ml s i j) t.code ∧
      (n = .elem ∨ n = .basic → 0 < t.code.length) := by
  intro n t
  induction t with
  | ofSimple t ih => exact fun h => ⟨(ih h).1, by simp⟩
  | union t u iht ihu => exact fun h => ⟨(iht h.1).1.fork (ihu h.2).1, by simp⟩
  | empty => exact fun _ => ⟨⟨.nil, fun ml s i j => flow_nil⟩, by simp⟩
  | concat t u iht ihu => exact fun h => ⟨(iht h.1).1.append (ihu h.2).1, by simp⟩
  | ofElem t ih => exact fun h => ⟨(ih h).1, fun _ => (ih h).2 (.inl rfl)⟩
  | operator t op ih =>
      intro h
      have hoperand := (ih h.1).1.realizes ((ih h.1).2 (.inl rfl))
      rcases hoperand.operator op h.2 with ⟨c, hc, hM⟩
      rw [code, hc, Option.getD_some]
      exact ⟨hM.leads, fun _ => hM.nonempty⟩
  | group t ih => exact fun h => ⟨(ih h.1).1, fun _ => h.2⟩
  | atom a => exact fun _ => ⟨a.realizes.leads, fun _ => Nat.one_pos⟩

/-! ## The levels of both -/

namespace ParseLevel

/-- The code of the last element. -/
def lastCode (L : ParseLevel) : List Inst :=
  match L.last with
  | none => []
  | some t => t.code

/-- The stack of the level holds the code of all but the last element; the jump
behind the alternatives that are done is open. -/
def Holds (L : ParseLevel) (S : Stk) : Prop :=
  match L.done with
  | none => S = Stk.empty.append L.seq.code
  | some t => ∃ S₀ : Stk, S₀.attach.code = t.code ∧ S = S₀.alt.append L.seq.code

/-- It holds the code of all elements. -/
def HoldsAll (L : ParseLevel) (S : Stk) : Prop := ∃ S₀, L.Holds S₀ ∧ S = S₀.append L.lastCode

structure Solid (L : ParseLevel) : Prop where
  done : ∀ t, L.done = some t → t.Solid
  seq : L.seq.Solid
  last : ∀ t, L.last = some t → t.Solid

variable {L : ParseLevel} {S : Stk}

theorem simple_code (L : ParseLevel) : L.simple.code = L.seq.code ++ L.lastCode := by
  unfold simple lastCode
  cases L.last with
  | none => exact (List.append_nil _).symm
  | some t => rfl

theorem Solid.simple (h : L.Solid) : L.simple.Solid := by
  unfold ParseLevel.simple
  cases hlast : L.last with
  | none => exact h.seq
  | some t => exact ⟨h.seq, h.last t hlast⟩

theorem Solid.re (h : L.Solid) : L.re.Solid := by
  unfold ParseLevel.re
  cases hdone : L.done with
  | none => exact h.simple
  | some t => exact ⟨h.done t hdone, h.simple⟩

theorem Solid.push (h : L.Solid) {t : Tree .elem} (ht : t.Solid) : (L.push t).Solid := by
  refine ⟨h.done, h.simple, fun u hu => ?_⟩
  obtain rfl := Option.some.inj hu
  exact ht

theorem solid_fresh : fresh.Solid := ⟨nofun, trivial, nofun⟩

/-- Elements are put behind the others. -/
theorem Holds.extend (h : L.Holds S) {u : Tree .simple} {c : List Inst}
    (hu : u.code = L.seq.code ++ c) (last : Option (Tree .elem)) :
    ({ L with seq := u, last := last } : ParseLevel).Holds (S.append c) := by
  unfold Holds at h ⊢
  cases hdone : L.done with
  | none =>
      rw [hdone] at h
      simp only [hu]
      rw [show S = _ from h, Stk.append_append]
  | some t =>
      rw [hdone] at h
      rcases h with ⟨S₀, hS₀, rfl⟩
      simp only [hu]
      exact ⟨S₀, hS₀, Stk.append_append ..⟩

/-- The elements that have been read are those in front of the next one. -/
theorem HoldsAll.push (h : L.HoldsAll S) (t : Tree .elem) : (L.push t).Holds S := by
  rcases h with ⟨S₀, hholds, rfl⟩
  exact hholds.extend L.simple_code _

/-- The code of a level, with its last jump led to its end. -/
theorem HoldsAll.code (h : L.HoldsAll S) : S.attach.code = L.re.code := by
  rcases h with ⟨S₀, hholds, rfl⟩
  unfold Holds at hholds
  unfold re
  cases hdone : L.done with
  | none =>
      rw [hdone] at hholds
      rw [show S₀ = _ from hholds, Stk.append_append, ← simple_code]
      rfl
  | some u =>
      rw [hdone] at hholds
      rcases hholds with ⟨S₁, hS₁, rfl⟩
      rw [Stk.append_append, ← simple_code, Stk.alt_append_attach, hS₁]
      rfl

end ParseLevel

/-! ## The simulation -/

/-- The frames and the parser have read the same. -/
structure Sim (F : Frames) (P : ParseState) : Prop where
  tidy : F.Tidy
  noOperand : P.top.last = none → F.operand = none ∧ P.top.Holds F.level
  operand : ∀ t, P.top.last = some t →
    ∃ pre, F.operand = some (pre, t.code) ∧ P.top.Holds (F.top.append pre)
  below : List.Forall₂ (fun S L => ParseLevel.HoldsAll L S) F.below P.below
  solid : P.top.Solid
  solidBelow : ∀ L ∈ P.below, L.Solid

/-- Why the frames do not take a lexeme, and the error for it. -/
inductive Frames.Refuses (F : Frames) : Lexeme → Err → Prop
  | operator (op : Operator) (h : F.operand = none) : Refuses F op.lexeme .badop
  | rparen (h : F.below = []) : Refuses F .rparen .badparen

section

variable {F F' : Frames} {P P' : ParseState} {x : Lexeme}

theorem Sim.start : Sim .start .start :=
  ⟨Frames.start_tidy, fun _ => ⟨rfl, rfl⟩, nofun, .nil, ParseLevel.solid_fresh, nofun⟩

theorem Sim.full (h : Sim F P) : P.top.HoldsAll F.level := by
  cases hlast : P.top.last with
  | none =>
      refine ⟨F.level, (h.noOperand hlast).2, ?_⟩
      rw [ParseLevel.lastCode, hlast, Stk.append_nil]
  | some t =>
      rcases h.operand t hlast with ⟨pre, hop, hholds⟩
      refine ⟨_, hholds, ?_⟩
      rw [Frames.level, h.tidy.pending_of_operand hop, ParseLevel.lastCode, hlast,
        Stk.append_append]

/-- An element has been read. -/
theorem Sim.element (h : Sim F P) {t : Tree .elem} (ht : t.Solid)
    (helem : Frames.Element F F' t.code) : Sim F' { P with top := P.top.push t } := by
  rcases helem.operand with ⟨pre, hop, hpre⟩
  refine ⟨helem.tidy, nofun, fun u hu => ?_, ?_, h.solid.push ht, h.solidBelow⟩
  · obtain rfl := Option.some.inj hu
    exact ⟨pre, hop, hpre ▸ h.full.push _⟩
  · rw [helem.below]
    exact h.below

/-- An operator has taken the last element. -/
theorem Sim.operator (h : Sim F P) {t : Tree .elem} (hlast : P.top.last = some t) (op : Operator)
    (hadm : op.lexeme.Admissible) : ∃ F', F.operate op.code = some F' ∧
      Sim F' { P with top := { P.top with
        seq := .concat P.top.seq (.operator t op), last := none } } := by
  rcases h.operand t hlast with ⟨pre, hop, hholds⟩
  have ht := h.solid.last t hlast
  rcases (t.leads ht).1.realizes ((t.leads ht).2 (.inl rfl)) |>.operator op hadm with ⟨c, hc, _⟩
  refine ⟨{ F with top := F.top.append (pre ++ c), buf := [], closed := none }, ?_, fun _ => rfl,
    fun _ => ⟨rfl, ?_⟩, nofun, h.below, ⟨h.solid.done, ⟨h.solid.seq, ht, hadm⟩, nofun⟩,
    h.solidBelow⟩
  · unfold Frames.operate
    rw [hop, Option.bind_some, hc]
    rfl
  · have hcode : (Tree.concat P.top.seq (.operator t op)).code = P.top.seq.code ++ c := by
      rw [Tree.code, Tree.code, hc, Option.getD_some]
    show ParseLevel.Holds _ ((F.top.append (pre ++ c)).append [])
    rw [Stk.append_nil, ← Stk.append_append]
    exact hholds.extend hcode none

theorem Sim.alternate (h : Sim F P) : Sim F.alternate
    { P with top := { done := some P.top.re, seq := .empty, last := none } } := by
  refine ⟨fun _ => rfl, fun _ => ⟨rfl, ?_⟩, nofun, h.below, ⟨fun t ht => ?_, trivial, nofun⟩,
    h.solidBelow⟩
  · exact ⟨F.level, h.full.code, rfl⟩
  · obtain rfl := Option.some.inj ht
    exact h.solid.re

theorem Sim.openLevel (h : Sim F P) :
    Sim F.openLevel { top := .fresh, below := P.top :: P.below } := by
  rw [h.tidy.openLevel]
  refine ⟨fun _ => rfl, fun _ => ⟨rfl, rfl⟩, nofun, .cons h.full h.below,
    ParseLevel.solid_fresh, ?_⟩
  intro L hL
  rcases List.mem_cons.mp hL with rfl | hL
  · exact h.solid
  · exact h.solidBelow L hL

/-- A group that is not empty has been closed. -/
theorem Sim.closeLevel (h : Sim F P) {L : ParseLevel} {below : List ParseLevel}
    (hbelow : P.below = L :: below) (hne : 0 < P.top.re.code.length) :
    ∃ F', F.closeLevel = some F' ∧ Sim F' { top := L.push (.group P.top.re), below := below } := by
  have hall := h.below
  have hsolid := h.solidBelow
  rw [hbelow] at hall hsolid
  cases hFbelow : F.below with
  | nil =>
      rw [hFbelow] at hall
      cases hall
  | cons S belowS =>
      rw [hFbelow] at hall
      cases hall with
      | cons hS hrest =>
          have hcode := h.full.code
          have hF' : F.closeLevel =
              some { top := S, below := belowS, buf := [], closed := some P.top.re.code } := by
            unfold Frames.closeLevel
            rw [hFbelow, h.tidy.flush_level, hcode]
            exact if_neg (List.ne_nil_of_length_pos hne)
          refine ⟨_, hF', fun _ => rfl, nofun, fun u hu => ?_, hrest, ?_, ?_⟩
          · obtain rfl := Option.some.inj hu
            exact ⟨[], rfl, (Stk.append_nil S).symm ▸ hS.push _⟩
          · exact (hsolid L List.mem_cons_self).push ⟨h.solid.re, hne⟩
          · exact fun L' hL' => hsolid L' (List.mem_cons_of_mem L hL')

/-- One lexeme: the frames take it as the parser does, or refuse it for the
same reason. -/
theorem Sim.step (h : Sim F P) (hadm : x.Admissible)
    (hgroup : x = .rparen → P.below ≠ [] → 0 < P.top.re.code.length) :
    (∃ F' P', P.step x = .ok P' ∧ F.take x = some F' ∧ Sim F' P') ∨
      ∃ e, P.step x = .error e ∧ F.Refuses x e := by
  cases x.kind with
  | atom a =>
      refine .inl ⟨_, _, P.step_atom a, F.take_atomLexeme a, ?_⟩
      exact @Sim.element _ _ _ h (.atom a) trivial (h.tidy.atom a.inst)
  | operator op =>
      rw [P.step_operator, F.take_operatorLexeme]
      unfold ParseState.operator
      cases hlast : P.top.last with
      -- nothing in front of the operator: both refuse it
      | none => exact .inr ⟨_, rfl, .operator op (h.noOperand hlast).1⟩
      | some t =>
          rcases h.operator hlast op hadm with ⟨F', hF', hsim⟩
          exact .inl ⟨F', _, rfl, hF', hsim⟩
  | alt => exact .inl ⟨_, _, rfl, rfl, h.alternate⟩
  | lparen => exact .inl ⟨_, _, rfl, rfl, h.openLevel⟩
  | rparen =>
      show (∃ F' P', P.close = .ok P' ∧ F.closeLevel = some F' ∧ Sim F' P') ∨
        ∃ e, P.close = .error e ∧ F.Refuses .rparen e
      unfold ParseState.close
      cases hbelow : P.below with
      | nil =>
          -- no group is open, in the parser and in the frames
          have hall := h.below
          rw [hbelow] at hall
          exact .inr ⟨_, rfl, .rparen (List.forall₂_nil_right_iff.mp hall)⟩
      | cons L below =>
          rcases h.closeLevel hbelow (hgroup rfl (by simp [hbelow])) with ⟨F', hF', hsim⟩
          exact .inl ⟨F', _, rfl, hF', hsim⟩

/-- A level that has read something has code. -/
theorem ParseLevel.Solid.code_pos {L : ParseLevel} (h : L.Solid)
    (hread : L.done ≠ none ∨ L.last ≠ none ∨ ∃ u b, L.seq = .concat u b) :
    0 < L.re.code.length := by
  unfold ParseLevel.re
  cases hdone : L.done with
  | some t =>
      show 0 < (forkCode t.code L.simple.code).length
      rw [length_forkCode]
      omega
  | none =>
      show 0 < L.simple.code.length
      rw [L.simple_code, List.length_append]
      rcases hread with hread | hread | ⟨u, b, hseq⟩
      · exact absurd hdone hread
      · rcases Option.ne_none_iff_exists'.mp hread with ⟨t, ht⟩
        have hpos := (t.leads (h.last t ht)).2 (.inl rfl)
        rw [ParseLevel.lastCode, ht]
        exact Nat.add_pos_right _ hpos
      · have hb : b.Solid := by
          have := h.seq
          rw [hseq] at this
          exact this.2
        have hpos := (b.leads hb).2 (.inr rfl)
        rw [hseq, Tree.code, List.length_append]
        omega

/-- Behind a lexeme other than `(` the level is not empty. -/
theorem Sim.code_pos (h : Sim F' P') (hstep : P.step x = .ok P') (hx : x ≠ .lparen) :
    0 < P'.top.re.code.length := by
  refine h.solid.code_pos ?_
  cases x.kind with
  | atom a =>
      rw [P.step_atom] at hstep
      cases hstep
      exact .inr (.inl nofun)
  | operator op =>
      rw [P.step_operator] at hstep
      unfold ParseState.operator at hstep
      split at hstep
      · cases hstep
      · cases hstep
        exact .inr (.inr ⟨_, _, rfl⟩)
  | alt =>
      cases hstep
      exact .inl nofun
  -- only a group that has just been opened has no code
  | lparen => exact absurd rfl hx
  | rparen =>
      have hclose : P.close = .ok P' := hstep
      unfold ParseState.close at hclose
      split at hclose
      · cases hclose
      · cases hclose
        exact .inr (.inl nofun)

/-- No `)` stands behind its `(`. -/
def NoEmptyGroup (l : List Lexeme) : Prop := ∀ pre post, l ≠ pre ++ .lparen :: .rparen :: post

/-- Where a run of the parser comes to, and with it the frames. -/
inductive RunsTo (F : Frames) (P : ParseState) (l : List Lexeme) : Prop
  | taken (F' : Frames) (P' : ParseState) (hrun : P.run l = .ok P') (htake : F.takeAll l = some F')
      (hsim : Sim F' P')
  | refused (pre : List Lexeme) (x : Lexeme) (post : List Lexeme) (F' : Frames) (e : Err)
      (hl : l = pre ++ x :: post) (hrun : P.run l = .error e) (htake : F.takeAll pre = some F')
      (hrefuses : F'.Refuses x e)

theorem Sim.run : ∀ {l : List Lexeme} {F : Frames} {P : ParseState}, Sim F P →
    (∀ x ∈ l, x.Admissible) → NoEmptyGroup l →
    (l.head? = some .rparen → P.below ≠ [] → 0 < P.top.re.code.length) → RunsTo F P l := by
  intro l
  -- induction on the lexemes: a group that is to be closed has code
  induction l with
  | nil => exact fun h _ _ _ => .taken _ _ rfl rfl h
  | cons x l ih =>
      intro F P h hadm hgroups hhead
      have hx : x = .rparen → P.below ≠ [] → 0 < P.top.re.code.length := by
        rintro rfl
        exact hhead rfl
      rcases h.step (hadm x List.mem_cons_self) hx with
        ⟨F₁, P₁, hstep, htake, hsim⟩ | ⟨e, hstep, hrefuses⟩
      · have hhead₁ : l.head? = some .rparen → P₁.below ≠ [] → 0 < P₁.top.re.code.length := by
          intro hrparen _
          refine hsim.code_pos hstep ?_
          rintro rfl
          rcases List.head?_eq_some_iff.mp hrparen with ⟨post, rfl⟩
          exact hgroups [] post rfl
        have hgroups₁ : NoEmptyGroup l := by
          rintro pre post rfl
          exact hgroups (x :: pre) post rfl
        cases ih hsim (fun y hy => hadm y (List.mem_cons_of_mem x hy)) hgroups₁ hhead₁ with
        | taken F' P' hrun htakeAll hsim' =>
            refine .taken F' P' ((P.run_cons_ok hstep).trans hrun) ?_ hsim'
            rw [Frames.takeAll_cons, htake, Option.bind_some, htakeAll]
        | refused pre y post F' e hl hrun htakeAll hrefuses =>
            refine .refused (x :: pre) y post F' e (by rw [hl, List.cons_append])
              ((P.run_cons_ok hstep).trans hrun) ?_ hrefuses
            rw [Frames.takeAll_cons, htake, Option.bind_some, htakeAll]
      · refine .refused [] x l F e rfl ?_ rfl hrefuses
        rw [P.run_cons, hstep]
        rfl

end

/-! ## The errors of the compiler -/

section

variable {exp post : List CChar} {F : Frames} {k : Nat} {x : Lexeme} {e : Err}

theorem Operator.isop {cp : Context} {op : Operator} (hx : op.lexeme.Token exp cp) :
    cp.tok.isop = true ∧ cp.tok ≠ .alt := by
  cases op with
  | zero =>
      have htok : cp.tok = .zero := hx
      simp [htok, Tok.isop]
  | one =>
      have htok : cp.tok = .one := hx
      simp [htok, Tok.isop]
  | onezero =>
      have htok : cp.tok = .onezero := hx
      simp [htok, Tok.isop]
  | rep reps =>
      have htok : cp.tok = .rep := hx.1
      simp [htok, Tok.isop]

/-- The turn fails where the frames refuse the lexeme. -/
theorem Framed.refuses {cp : Context} {ids : StackId → List ItemId} {stk : StackId → Stk}
    {index : Option Nat} (h : Framed cp cp.closing stk index F)
    (hlay : Layout cp cp.closing ids stk index) (hmain : cp.inCharc = false)
    (hx : x.Token exp cp) (hrefuses : F.Refuses x e) :
    ∃ cp', stage1Step exp cp = .ok (some e, cp') := by
  have hstep : stage1Step exp cp = stage1MainState exp cp := by
    unfold stage1Step
    rw [if_neg (by simp [hmain])]
  rw [hstep]
  cases hrefuses with
  | operator op hop =>
      -- the buffer is empty, and only `|` does without an operand
      have hrun := processOp_empty exp hlay (h.operand_none hop).2.1
      rw [if_neg (Operator.isop hx).2] at hrun
      refine ⟨cp, ?_⟩
      unfold stage1MainState
      rw [if_pos (Operator.isop hx).1, hrun]
  | rparen hbelow =>
      have htok : cp.tok = .rparen := hx
      rcases hlay.flushed with ⟨cp₁, ids₁, stk₁, index₁, hflush, hflushed, _⟩
      rcases hflushed.frame with ⟨m₁, groups₁, buf₁, hcp₁⟩
      have hlevels : (cp₁.groups ++ [cp₁.prog]).map stk₁ = F.flush.top :: F.flush.below :=
        (h.flush hlay hflushed).levels
      rw [F.flush_below, hbelow, List.map_append] at hlevels
      have hgroups : cp₁.groups = [] := by
        have hlen := congrArg List.length hlevels
        simpa using hlen
      rw [stage1MainState_rparen htok hflush hcp₁]
      exact ⟨_, closeGroup_nil hgroups⟩

/-- A compilation that comes to a lexeme that is refused fails. -/
theorem Reached.refuses (h : Reached exp F k) (hadm : x.Admissible)
    (hdrop : exp.drop k = x.text ++ post) (hrefuses : F.Refuses x e) :
    ∃ g', rxvmCompile Statics.init exp = .ok (.error e, g') := by
  rcases h with ⟨input, cp, stk, index, hat, hmain⟩
  have hset : ∀ negated item items, x ≠ .set negated item items := by
    cases hrefuses with
    | operator op => cases op <;> exact nofun
    | rparen => exact nofun
  rcases hat.lexeme hmain hset hadm hdrop with ⟨hx, _, _⟩
  rcases hat.holds.layout with ⟨ids, hlay⟩
  rcases hat.framed.refuses hlay hmain hx hrefuses with ⟨cp', hstep⟩
  have hlast : nextCtx exp (input, cp) = none := by
    cases hnext : nextCtx exp (input, cp) with
    | none => rfl
    | some r =>
        rcases nextCtx_eq_some.mp hnext with ⟨_, _, cp₁, hstep', _⟩
        cases hstep.symm.trans hstep'
  have hends := hat.visited.ends hlast
  unfold rxvmCompile
  generalize stage1 Statics.init exp = result at hends ⊢
  -- the step fails, so the loop ends here and with this error
  cases hends with
  | lexError e' htok => exact absurd htok (hx.proper.2 e')
  | stepError e' cp₁ _ _ hstep' =>
      cases hstep.symm.trans hstep'
      exact ⟨_, rfl⟩
  | stops s _ _ hstep' => cases hstep.symm.trans hstep'
  | eos htok => exact absurd htok hx.proper.1

/-- A compilation that comes to the end with an open group fails. -/
theorem Reached.unclosed (h : Reached exp F k) (hend : exp.drop k = []) (hbelow : F.below ≠ []) :
    ∃ g', rxvmCompile Statics.init exp = .ok (.error .eparen, g') := by
  rcases h with ⟨input, cp, stk, index, hat, hmain⟩
  have heos : cp.tok = .eos := by
    rcases hat.token with ⟨g, _, hlex⟩
    rw [show cp.tok = _ from congrArg (·.1) hlex]
    unfold lex
    simp only [at'_of_drop_nil hend, if_true]
  -- a frame below is a group that is still open when the loop ends
  have hgroups : endGroups cp stk ≠ [] := by
    intro hnil
    have hlevels := congrArg List.length hat.framed.levels
    have hclosing : endFlush cp stk ↔ cp.closing = true :=
      ⟨And.left, fun hc => ⟨hc, (hat.framed.group hc).2.1⟩⟩
    unfold endGroups at hnil
    simp only [hclosing] at hnil
    rw [Context.levels, hnil] at hlevels
    exact hbelow (by simpa using hlevels)
  have hfinish := hat.holds.finish
  unfold rxvmCompile
  rw [hat.visited.stage1_eq heos]
  generalize stage1End cp = result at hfinish ⊢
  cases hfinish with
  | eclass _ hcharc =>
      rw [hmain] at hcharc
      cases hcharc
  | eparen => exact ⟨_, rfl⟩
  | ir _ _ _ _ hnil => exact absurd hnil hgroups

end

/-! ## Expressions of characters only -/

/-- Characters are read where they stand. -/
theorem flow_chars_iff {ml : Bool} {s chars : List CChar} : ∀ {i j : Nat},
    Flow false ml s (chars.map .opChar) i j ↔ j = i + chars.length ∧ chars <+: s.drop i := by
  induction chars with
  | nil =>
      intro i j
      refine flow_nil.trans ?_
      simp [eq_comm]
  | cons ch chars ih =>
      intro i j
      constructor
      · exact flow_chars
      · rintro ⟨rfl, hpre⟩
        have hsplit : [ch] <+: s.drop i ∧ chars <+: s.drop (i + 1) :=
          append_isPrefix_drop.mp hpre
        have hget : s[i]? = some ch := by
          rw [← List.head?_drop]
          exact List.singleton_prefix_iff_head?_eq_some.mp hsplit.1
        have hrest : Flow false ml s (chars.map .opChar) (i + 1) (i + (ch :: chars).length) :=
          ih.mpr ⟨by rw [List.length_cons]; omega, hsplit.2⟩
        exact (flow_append (closed_chars [ch]) (closed_chars chars)).mpr
          ⟨_, (flow_char ch).mpr ⟨rfl, hget⟩, hrest⟩

/-! ## The compiler and the parser -/

/-- The compiled expression does what the tree does. -/
structure Tree.CompiledTo (t : Tree .re) (compiled : Compiled) : Prop where
  program : compiled.simple = none →
    ∀ ml s i j, Accepts false ml s compiled.exe i j ↔ t.Matches ml s i j
  decides : ∀ s, NoNul s → ∃ ret, rxvmMatch compiled s {} = some ret ∧ (ret = 1 ∨ ret = 0) ∧
    (ret = 1 ↔ t.Matches true s 0 s.length)

section

variable {exp : List CChar} {F : Frames} {P : ParseState} {g : Statics}

/-- The compiler comes behind what the frames take, where a lexeme of another
kind follows. -/
theorem reached_behind {l rest : List Lexeme} {x : Lexeme}
    (hspell : Concat Spells (l ++ x :: rest) exp) (hadm : ∀ y ∈ l, y.Admissible)
    (hx : x.isChar = false) (htake : Frames.start.takeAll l = some F) :
    ∃ k, Reached exp F k ∧ Concat Spells (x :: rest) (exp.drop k) := by
  by_cases hlit : ∀ y ∈ l, y.isChar = true
  · rcases exists_chars hlit with ⟨ls, rfl⟩
    rcases hspell.split with ⟨t, u, rfl, hchars, hrest⟩
    obtain rfl := hchars.chars
    obtain rfl := Option.some.inj ((Frames.takeAll_chars ls).symm.trans htake)
    refine ⟨_, reached_chars hx hrest, ?_⟩
    rw [Nat.zero_add, List.drop_left]
    exact hrest
  · rcases exists_chars_split hlit with ⟨ls, y, l', rfl, hy⟩
    rw [List.append_assoc] at hspell
    rcases hspell.split with ⟨t, u, rfl, hchars, hbehind⟩
    obtain rfl := hchars.chars
    have hstart := @reached_chars ls _ _ _ hy hbehind
    rcases hbehind.split with ⟨v, w, rfl, hl', hrest⟩
    rw [Frames.takeAll_append, Frames.takeAll_chars, Option.bind_some] at htake
    have hdrop : (ls.flatMap Literal.text ++ (v ++ w)).drop
        (0 + (ls.flatMap Literal.text).length) = v ++ w := drop_of_drop_append rfl
    refine ⟨_, .spelledAll hl' hstart (fun z hz => hadm z (List.mem_append_right _ hz)) hdrop
      htake, ?_⟩
    rw [drop_of_drop_append hdrop]
    exact hrest

/-- What is refused is no character, and has one spelling. -/
theorem Frames.Refuses.written {x : Lexeme} {e : Err} (h : F.Refuses x e) :
    x.isChar = false ∧ ∀ t, Spells x t → t = x.text := by
  cases h with
  | operator op =>
      cases op <;>
      · refine ⟨rfl, ?_⟩
        rintro t ⟨⟩
        rfl
  | rparen =>
      refine ⟨rfl, ?_⟩
      rintro t ⟨⟩
      rfl

/-- The compiler fails where the parser fails. -/
theorem rxvmCompile_refused {pre post : List Lexeme} {x : Lexeme} {e : Err}
    (hspell : Concat Spells (pre ++ x :: post) exp)
    (hadm : ∀ y ∈ pre ++ x :: post, y.Admissible)
    (htake : Frames.start.takeAll pre = some F) (hrefuses : F.Refuses x e) :
    ∃ g', rxvmCompile Statics.init exp = .ok (.error e, g') := by
  rcases reached_behind hspell (fun y hy => hadm y (List.mem_append_left _ hy))
    hrefuses.written.1 htake with ⟨k, hreached, hrest⟩
  generalize hdrop : exp.drop k = text at hrest
  cases hrest with
  | cons head tail =>
      obtain rfl := hrefuses.written.2 _ head
      have hx : x.Admissible := hadm x (List.mem_append_right _ List.mem_cons_self)
      exact hreached.refuses hx hdrop hrefuses

/-- The frames that have read what the parser has hold the code of its tree. -/
theorem Sim.leads (h : Sim F P) :
    LeadsOver (fun ml s i j => P.top.re.Matches ml s i j) F.level.attach.code := by
  rw [h.full.code]
  exact (P.top.re.leads h.solid.re).1

/-- Characters only: the text is stored. -/
theorem Sim.compiled_chars {ls : List (Literal false)} (h : Sim (Frames.backlog ls) P) :
    ∃ compiled g', rxvmCompile g (ls.flatMap Literal.text) = .ok (.ok compiled, g') ∧
      P.top.re.CompiledTo compiled := by
  rcases rxvmCompile_chars g ls with ⟨compiled, g', hrun, hsimple⟩
  refine ⟨compiled, g', hrun, fun hprogram => ?_, fun s hs => ?_⟩
  · cases hsimple.symm.trans hprogram
  · rcases rxvmMatch_simple hsimple (noNul_literals ls) hs {} with ⟨ret, hret, hcases, hiff⟩
    have hcode : (Frames.backlog ls).level.attach.code = (ls.map Literal.c).map .opChar := rfl
    have hflow := h.leads.flow true s 0 s.length
    rw [hcode, flow_chars_iff, List.drop_zero, Nat.zero_add] at hflow
    refine ⟨ret, hret, hcases, hiff.trans (Iff.trans ?_ hflow)⟩
    rw [sameChars_false, unescape_literals]
    constructor
    · rintro rfl
      exact ⟨rfl, List.prefix_rfl⟩
    · rintro ⟨hlen, hpre⟩
      exact hpre.eq_of_length hlen.symm

/-- Otherwise there is a program. -/
theorem Sim.compiled_program {k : Nat} (h : Sim F P) (hg : g.isNchar = false)
    (hreached : Reached exp F k) (hend : exp.drop k = []) (hbelow : F.below = []) :
    ∃ compiled g', rxvmCompile g exp = .ok (.ok compiled, g') ∧ P.top.re.CompiledTo compiled := by
  rcases hreached.compiled hend hbelow with ⟨compiled, g', hrun, hsimple, haccepts⟩
  rcases rxvmCompile_unaffected hg hrun with ⟨g'', hrun'⟩
  have hmeaning : ∀ ml s i j, Accepts false ml s compiled.exe i j ↔
      P.top.re.Matches ml s i j :=
    fun ml s i j => (haccepts false ml s i j).trans (h.leads.flow ml s i j)
  refine ⟨compiled, g'', hrun', fun _ => hmeaning, fun s hs => ?_⟩
  have hwf := rxvmCompile_wellFormed hrun hsimple
  rcases rxvmMatch_spec hsimple hwf hs {} with ⟨ret, hret, hcases, hiff⟩
  exact ⟨ret, hret, hcases, hiff.trans (hmeaning true s 0 s.length)⟩

variable {l : List Lexeme}

/-- The compiler does what the parser does. -/
theorem rxvmCompile_asParsed (hg : g.isNchar = false) (hadm : ∀ x ∈ l, x.Admissible)
    (hgroups : NoEmptyGroup l) (hspell : Concat Spells l exp) :
    (∃ t compiled g', parse l = .ok t ∧ rxvmCompile g exp = .ok (.ok compiled, g') ∧
      t.CompiledTo compiled) ∨
    ∃ e g', parse l = .error e ∧ rxvmCompile g exp = .ok (.error e, g') := by
  have hfails : ∀ {e : Err}, parse l = .error e →
      (∃ g', rxvmCompile Statics.init exp = .ok (.error e, g')) →
      ∃ e g', parse l = .error e ∧ rxvmCompile g exp = .ok (.error e, g') := by
    rintro e hparse ⟨g', hrun⟩
    rcases rxvmCompile_unaffected hg hrun with ⟨g'', hrun'⟩
    exact ⟨e, g'', hparse, hrun'⟩
  cases Sim.start.run hadm hgroups (fun _ hbelow => absurd rfl hbelow) with
  | refused pre x post F' e hl hrun htake hrefuses =>
      -- the parser stops at a lexeme that the turn refuses too
      subst hl
      refine .inr (hfails ?_ (rxvmCompile_refused hspell hadm htake hrefuses))
      unfold parse
      rw [hrun]
  | taken F' P' hrun htake hsim =>
      have hparse : parse l = if P'.below = [] then .ok P'.top.re else .error .eparen := by
        unfold parse
        rw [hrun]
      by_cases hbelow : P'.below = []
      -- every group is closed: a text of characters is stored, any other compiled
      · rw [if_pos hbelow] at hparse
        refine .inl ⟨P'.top.re, ?_⟩
        have hlevels := hsim.below
        rw [hbelow] at hlevels
        have hopen : F'.below = [] := List.forall₂_nil_right_iff.mp hlevels
        by_cases hlit : ∀ x ∈ l, x.isChar = true
        · rcases exists_chars hlit with ⟨ls, rfl⟩
          obtain rfl := hspell.chars
          obtain rfl := Option.some.inj ((Frames.takeAll_chars ls).symm.trans htake)
          rcases hsim.compiled_chars with ⟨compiled, g', hrun', hcompiled⟩
          exact ⟨compiled, g', hparse, hrun', hcompiled⟩
        · rcases reached_spelling hspell hadm hlit htake with ⟨k, hreached, hend⟩
          rcases hsim.compiled_program hg hreached hend hopen with
            ⟨compiled, g', hrun', hcompiled⟩
          exact ⟨compiled, g', hparse, hrun', hcompiled⟩
      -- a group is open at the end: `RXVM_EPAREN`
      · rw [if_neg hbelow] at hparse
        have hopen : F'.below ≠ [] := by
          intro hnil
          have hlevels := hsim.below
          rw [hnil] at hlevels
          exact hbelow (List.forall₂_nil_left_iff.mp hlevels)
        -- a text of characters opens no group
        have hlit : ¬ ∀ x ∈ l, x.isChar = true := by
          intro hlit
          rcases exists_chars hlit with ⟨ls, rfl⟩
          obtain rfl := Option.some.inj ((Frames.takeAll_chars ls).symm.trans htake)
          exact hopen rfl
        rcases reached_spelling hspell hadm hlit htake with ⟨k, hreached, hend⟩
        exact .inr (hfails hparse (hreached.unclosed hend hopen))

/-- `rxvm_compile` takes the texts of the trees and no others: the compiled
expression does what the tree does, and the error for any other text is that of
the parser. -/
theorem rxvmCompile_parse (hg : g.isNchar = false) (hadm : ∀ x ∈ l, x.Admissible)
    (hgroups : NoEmptyGroup l) (hspell : Concat Spells l exp) :
    ((∃ compiled g', rxvmCompile g exp = .ok (.ok compiled, g')) ↔
      ∃ t : Tree .re, t.lexemes = l) ∧
    (∀ t : Tree .re, t.lexemes = l →
      ∃ compiled g', rxvmCompile g exp = .ok (.ok compiled, g') ∧ t.CompiledTo compiled) ∧
    ∀ e, parse l = .error e → ∃ g', rxvmCompile g exp = .ok (.error e, g') := by
  rcases rxvmCompile_asParsed hg hadm hgroups hspell with
    ⟨t, compiled, g', hparse, hrun, hcompiled⟩ | ⟨e, g', hparse, hrun⟩
  · refine ⟨⟨fun _ => ⟨t, parse_sound hparse⟩, fun _ => ⟨compiled, g', hrun⟩⟩, ?_, ?_⟩
    · intro t' ht'
      obtain rfl : t = t' := Except.ok.inj (hparse.symm.trans (parse_iff.mpr ht'))
      exact ⟨compiled, g', hrun, hcompiled⟩
    · intro e he
      cases hparse.symm.trans he
  · have hnone : ∀ t : Tree .re, t.lexemes ≠ l := by
      intro t ht
      cases hparse.symm.trans (parse_iff.mpr ht)
    refine ⟨⟨?_, fun ⟨t, ht⟩ => absurd ht (hnone t)⟩, fun t ht => absurd ht (hnone t), ?_⟩
    · rintro ⟨compiled, g'', hrun'⟩
      cases hrun.symm.trans hrun'
    · intro e' he'
      cases hparse.symm.trans he'
      exact ⟨g', hrun⟩

/-- `a|` matches `a` and nothing else but the empty text, and `a**` is
refused. -/
theorem rxvmCompile_parse_optional :
    (∃ t : Tree .re, (∀ ml s i j, t.Matches ml s i j ↔ Expr.Eats s (· = 97) i j ∨ i = j) ∧
      ∃ compiled g', rxvmCompile Statics.init [97, 124] = .ok (.ok compiled, g') ∧
        t.CompiledTo compiled) ∧
    ∃ g', rxvmCompile Statics.init [97, 42, 42] = .ok (.error .badop, g') := by
  have ha : ∃ a : Literal false, a.c = 97 ∧ a.esc = false :=
    ⟨⟨97, false, by simp, fun _ => ⟨by decide, .inl (by decide +kernel)⟩⟩, rfl, rfl⟩
  rcases ha with ⟨a, ha, haesc⟩
  have htext : Spells (.char a) [97] := by
    have hwritten := Spells.written (.char a)
    rwa [show (Lexeme.char a).text = [97] by simp [Lexeme.text, Literal.text, ha, haesc]]
      at hwritten
  have hgroups : ∀ l : List Lexeme, .lparen ∉ l → NoEmptyGroup l := by
    rintro l hl pre post rfl
    exact hl (List.mem_append_right pre List.mem_cons_self)
  constructor
  · let t : Tree .re := .union (.ofSimple (.concat .empty (.ofElem (.atom (.char a))))) .empty
    refine ⟨t, ?_, (rxvmCompile_parse rfl ?_ (hgroups _ ?_) ?_).2.1 t rfl⟩
    · intro ml s i j
      simp [t, Tree.Matches, Atom.Matches, ha]
    · simp [t, Tree.lexemes, Atom.lexeme, Lexeme.Admissible]
    · simp [t, Tree.lexemes, Atom.lexeme]
    · exact .cons htext (.cons (Spells.written .alt) .nil)
  · have hspell : Concat Spells [.char a, .zero, .zero] [97, 42, 42] :=
      .cons htext (.cons (Spells.written .zero) (.cons (Spells.written .zero) .nil))
    refine (rxvmCompile_parse rfl ?_ (hgroups _ ?_) hspell).2.2 .badop rfl
    · simp [Lexeme.Admissible]
    · simp

end

end Rxvm
