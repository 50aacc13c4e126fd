import Rxvm.Groups
import Rxvm.Mirror
import Rxvm.Outside

/-!
# Rxvm.Follow — the program of an expression that is accepted

The machine follows a run that strands no group from its first token to the
end. So the program of an expression with balanced parentheses is the one the
machine makes of the pieces of the expression, and two expressions whose
pieces leave the machine with the same code have the same program.
-/

namespace Rxvm

open Brackets Function Outcome

/-- The run has come to the token at `k`, and the machine has taken the pieces
in front of it. -/
def Mirrored (exp : List CChar) (k input : Nat) (cp : Context) (ps : List Piece) (M : Machine) :
    Prop :=
  ∃ stk index, Holds cp stk index ∧ Holding cp cp.closing stk index M ∧ ReadAt exp k input cp ∧
    Reads exp 0 false ps k cp.inCharc ∧ Machine.start.takeAll ps = some M

section

variable {exp text : List CChar} {k n input : Nat} {cp cp' : Context} {w : List CChar}
  {simple : Option Nat} {stk : StackId → Stk} {index : Option Nat} {M : Machine} {closing : Bool}

/-! ## The first token -/

theorem backlogLoop_dsize (text : List CChar) (simple : Nat) :
    ∀ (fuel orig : Nat) (fixtemp delimit : Int) (cp : Context),
      SameDsize cp.mem (backlogLoop text simple fuel orig fixtemp delimit cp).2.2.2.mem := by
  intro fuel
  induction fuel with
  | zero => exact fun _ _ _ cp => .refl cp.mem
  | succ fuel ih =>
      intro orig fixtemp delimit cp
      unfold backlogLoop
      split
      · exact .refl cp.mem
      · exact (sameDsize_addInstHead _).trans (ih _ _ _ _)

theorem loopStart_dsize (text : List CChar) (simple : Option Nat) (cp : Context) :
    SameDsize cp.mem (loopStart text simple cp).mem := by
  cases simple with
  | none => exact .refl cp.mem
  | some simple =>
      rcases compileSimpleBacklog_eq text simple cp with ⟨l, heq⟩
      rw [loopStart, heq]
      exact backlogLoop_dsize text simple _ _ _ _ cp

/-- The literals at the start are pieces. -/
theorem LiteralTokens.reads (h : LiteralTokens text n k w) :
    Reads text k false (w.map .literal) n false := by
  induction h with
  | done => exact .done
  | @literal k w l hl htok _ ih =>
      have hpiece : pieceOf text (lex text k l) = some (.literal (at' text (lex text k l).2.2.lp1)) := by
        unfold pieceOf
        rw [htok]
      have hglimpse := glimpse_of_lex hpiece
      rw [hl] at hglimpse
      exact .step hglimpse ih

/-- The machine behind literals. -/
theorem Machine.takeAll_literals : ∀ {w : List CChar} {buf : List Inst},
    Machine.takeAll { start with frames := { Frames.start with buf := buf } } (w.map .literal) =
      some { start with frames := { Frames.start with buf := buf ++ w.map .opChar } } := by
  intro w
  induction w with
  | nil =>
      intro buf
      simp
  | cons c w ih =>
      intro buf
      have hstep : Machine.take { start with frames := { Frames.start with buf := buf } }
          (.literal c) =
            some { start with frames := { Frames.start with buf := buf ++ [.opChar c] } } := rfl
      rw [List.map_cons, takeAll_cons, hstep, Option.bind_some, ih, List.map_cons,
        List.append_assoc, List.singleton_append]

/-- The base buffer holds the literals at the start. -/
theorem startStk_tokens (htoks : LiteralTokens exp n 0 w) (base : StackId)
    (hsimple : simple = some n ∧ w ≠ [] ∨ simple = none ∧ n = 0) :
    startStk exp simple base = backlogStk base (w.map .opChar) ∧
      startIndex exp simple = if w.map Inst.opChar = [] then none
        else some ((w.map Inst.opChar).length - 1) := by
  rcases hsimple with ⟨rfl, _⟩ | ⟨rfl, rfl⟩
  · have hcode : backlogCode exp n (n + 1) 0 = w.map .opChar :=
      htoks.literals.backlogCode_eq (by omega)
    rw [startStk, startIndex, hcode]
    exact ⟨rfl, rfl⟩
  · have hw : w = [] := by
      cases htoks with
      | done => rfl
      | literal l _ htok rest =>
          have hle := rest.literals.le
          rcases lex_advances exp 0 l with h | ⟨e, h⟩ | h
          · rw [htok] at h
            cases h
          · rw [htok] at h
            cases h
          · omega
    subst hw
    refine ⟨?_, rfl⟩
    rw [startStk, backlogStk]
    exact (update_idem _ _ _).symm

theorem Mirrored.start (hloop : literalLoop exp (exp.length + 1) 0 none (stage1Init Statics.init) =
    .ok (input, simple, cp)) :
    ∃ k ps M, Mirrored exp k input (loopStart exp simple cp) ps M := by
  rcases ReadAt.start hloop with ⟨n, w, htoks, _, hread, hsimple⟩
  rcases literalLoop_frame hloop with ⟨_, tok, lex, hcp⟩
  rcases loopStart_layout hloop with ⟨_, _, m', operand, l, hstart⟩
  rcases startStk_tokens htoks cp.base hsimple with ⟨hstk, hindex⟩
  have hdsize := loopStart_dsize exp simple cp
  have htake : Machine.start.takeAll (w.map .literal) =
      some { Machine.start with frames := { Frames.start with buf := w.map .opChar } } :=
    @Machine.takeAll_literals w []
  refine ⟨n, w.map .literal, _, _, _, Holds.start hloop, ?_, hread, ?_, htake⟩
  · rw [hstk, hindex]
    rw [hstart] at hdsize ⊢
    rw [hcp] at hdsize ⊢
    refine ⟨⟨rfl, fun h => absurd h Bool.false_ne_true,
      fun _ => ⟨rfl, rfl, by simp [backlogStk], rfl, fun hne => if_neg hne⟩⟩, ?_, rfl, rfl, ?_,
      fun _ => rfl⟩
    · -- the only level is the program
      intro k hk _
      obtain rfl := List.mem_singleton.mp hk
      exact hdsize _
    · intro _ _ hnone
      cases hnone
  · rw [hstart, hcp]
    exact htoks.reads

/-! ## The other tokens -/

/-- The next token changes nothing of what the machine holds. -/
theorem Holding.lexed (h : Holding cp closing stk index M) (text : List CChar) (input : Nat)
    (last : Tok) :
    Holding (lexInto text input { cp with lasttok := last }).2 closing stk index M :=
  ⟨h.shaped.control ⟨rfl, rfl, rfl, rfl, rfl⟩, h.unset, h.chained, h.inCharc, h.charc, h.plain⟩

/-- One turn. -/
theorem Mirrored.turn {ps : List Piece} (h : Mirrored exp k input cp ps M) (heos : cp.tok ≠ .eos)
    (herr : ∀ e, cp.tok ≠ .error e) (hfree : ¬ Strands cp)
    (hstep : stage1Step exp cp = .ok (none, cp')) :
    ∃ p M', Mirrored exp input (lexInto exp input { cp' with lasttok := cp'.tok }).1
      (lexInto exp input { cp' with lasttok := cp'.tok }).2 (ps ++ [p]) M' := by
  rcases h with ⟨stk, index, hholds, hholding, hread, hreads, htake⟩
  rcases @exists_pieceOf exp (cp.tok, input, cp.statics.lex) heos herr with ⟨p, hpiece⟩
  rcases hholds.turn hstep input with ⟨stk', index', hturn, htok, hholds'⟩
  rcases hholds'.layout with ⟨ids', hlay'⟩
  have hclosing : (lexInto exp input { cp' with lasttok := cp'.tok }).2.closing =
      decide (cp.tok = .rparen) := by
    rw [lexInto_frame]
    simp [Context.closing, htok]
  rw [hclosing] at hlay'
  rcases hholding.turn hholds hread heos herr hfree hpiece hstep hturn (hlay'.control cp' rfl) with
    ⟨M', htake', hholding'⟩
  have hnext := hread.next herr hturn
  -- what the lexer has read here is the piece
  have hglimpse : glimpse exp k cp.inCharc = some (p, input) := by
    rcases hread with ⟨l, hl, hlex⟩
    rw [hlex] at hpiece
    have := glimpse_of_lex hpiece
    rwa [hl, ← hlex] at this
  -- the piece leads from class to class as the turn does
  have hinside : p.inside cp.inCharc = cp'.inCharc := by
    rw [hturn.inCharc]
    exact (pieceOf_inside hpiece cp.inCharc).1.symm
  refine ⟨p, M', stk', index', hholds', ?_, hnext, ?_, ?_⟩
  · rw [hclosing]
    exact hholding'.lexed exp input cp'.tok
  · have hsingle := Reads.single hglimpse
    rw [hinside] at hsingle
    exact hreads.append hsingle
  · rw [Machine.takeAll_append, htake, Option.bind_some, Machine.takeAll_cons, htake']
    rfl

/-- The machine follows a run that strands no group. -/
theorem Visited.mirrored (h : Visited Statics.init exp input cp)
    (hfree : StrandFree Statics.init exp) : ∃ k ps M, Mirrored exp k input cp ps M := by
  induction h with
  | start hloop => exact Mirrored.start hloop
  | turn hvisit heos herr hstep ih =>
      rcases ih with ⟨k, ps, M, hM⟩
      rcases hM.turn heos herr (hfree _ _ hvisit) hstep with ⟨p, M', hM'⟩
      exact ⟨_, _, M', hM'⟩

/-! ## The end of the expression -/

variable {ps : List Piece} {c : Compiled} {g' : Statics}

/-- Balanced parentheses leave the outermost level only. -/
theorem Mirrored.below (h : Mirrored exp k input cp ps M) (hend : at' exp k = 0)
    (hbal : Balanced (exprParens exp)) : M.frames.below = [] := by
  rcases h with ⟨_, _, _, _, _, hreads, htake⟩
  have hparens := hreads.parens_eq
  rw [cstring_drop_of_eq hend, parens, List.append_nil, List.drop_zero] at hparens
  have hdepth := Machine.takeAll_depth htake
  rw [← hparens, show parens false (cstring exp) = exprParens exp from rfl, hbal.2] at hdepth
  simpa [Machine.start, Frames.start] using hdepth

/-- At the end of the expression the machine has the program. -/
theorem Mirrored.program (h : Mirrored exp k input cp ps M)
    (hvisit : Visited Statics.init exp input cp) (heos : cp.tok = .eos)
    (hfree : ¬ Strands cp) (hbal : Balanced (exprParens exp))
    (hrun : rxvmCompile Statics.init exp = .ok (.ok c, g')) :
    at' exp k = 0 ∧ linked M.chained M.frames.level.attach.code = .ok c.exe := by
  have hend : at' exp k = 0 := by
    rcases h with ⟨_, _, _, _, ⟨l, _, hlex⟩, _⟩
    refine (@lex_eos exp k l ?_).1
    rw [← hlex]
    exact heos
  have hbelow := h.below hend hbal
  rcases h with ⟨stk, index, hholds, hholding, _, _, _⟩
  rcases hholds.layout with ⟨ids, hlay⟩
  have hop : cp.tok.isop = false := by
    rw [heos]
    rfl
  have hframed := hholding.shaped.framed fun hc hnil => hfree ((strands_iff hlay hop).mpr ⟨hc, hnil⟩)
  have hstk := (hframed.ends hlay hbelow).2
  refine ⟨hend, ?_⟩
  unfold rxvmCompile at hrun
  rw [hvisit.stage1_eq heos] at hrun
  have hfinish := hholds.finish
  generalize hresult : stage1End cp = result at hfinish hrun
  cases hfinish with
  | eclass => cases hrun
  | eparen => cases hrun
  | ir m' groups ids' =>
      have hstage2 := (stage2_ir hholds hresult).2.2
      rw [hstk] at hstage2
      rw [← hholding.chained, ← hstage2]
      simp only [bind, Except.bind] at hrun
      split at hrun
      · cases hrun
      · next exe hexe =>
          rw [hexe]
          cases hrun
          rfl

/-- An expression that is accepted, and whose parentheses are balanced, has
the program the machine makes of its pieces. -/
theorem rxvmCompile_machine (hrun : rxvmCompile Statics.init exp = .ok (.ok c, g'))
    (hbal : Balanced (exprParens exp)) (hne : exprParens exp ≠ []) :
    ∃ k ps M, Reads exp 0 false ps k false ∧ at' exp k = 0 ∧
      Machine.start.takeAll ps = some M ∧ M.charc = none ∧
      linked M.chained M.frames.level.attach.code = .ok c.exe := by
  generalize hresult : (Except.ok c : Except Err Compiled) = result at hrun
  cases rxvmCompile_verdict hrun with
  | simple c' input simple cp hloop heos =>
      -- literals have no parentheses
      exact absurd (exprParens_simple hloop heos) hne
  | accepted c' input cp hvisit heos hmain hgroups =>
      obtain rfl : c = c' := Except.ok.inj hresult
      have hexcused : StrandsExcused Statics.init exp := by
        refine (parensRight_accepted (c := c) hvisit heos hmain hgroups).mp
          ⟨fun _ _ => hbal, ?_, ?_⟩
        · intro he
          cases he
        · intro he
          cases he
      have hfree := (hexcused input cp hvisit heos hmain).resolve_right hbal.not_unclosed
      rcases hvisit.mirrored hfree with ⟨k, ps, M, hM⟩
      rcases hM.program hvisit heos (hfree input cp hvisit) hbal hrun with ⟨hend, hlinked⟩
      rcases hM with ⟨_, _, _, _, _, hreads, htake⟩
      rw [hmain] at hreads
      refine ⟨k, ps, M, hreads, hend, htake, ?_, hlinked⟩
      simpa using Machine.takeAll_inside hreads rfl htake
  | lexError => cases hresult
  | stepError => cases hresult
  | eclass => cases hresult
  | eparen => cases hresult

end

end Rxvm
