import Rxvm.Dsize
import Rxvm.Machine
import Rxvm.MeaningSpec

/-!
# Rxvm.Mirror — a run of the compiler is a run of the machine

In a run that leaves no group stranded, the compiler does with every token
what the machine does with its piece. So an expression that is accepted has
the program the machine makes of its pieces.
-/

namespace Rxvm

open Function Outcome

/-! ## The marks for chains -/

/-- A level without a dangling jump has `dsize` 0. -/
def Unset (cp : Context) (closing : Bool) (stk : StackId → Stk) : Prop :=
  ∀ k ∈ cp.levels closing, (stk k).jmp = none → (cp.mem.stack k).dsize = 0

section

variable {text : List CChar} {cp cp' cp₁ : Context} {ids ids' : StackId → List ItemId}
  {stk stk' stk₁ : StackId → Stk} {index index' index₁ : Option Nat} {F F' : Frames}

theorem levels_live {closing : Bool} : ∀ k ∈ cp.levels closing, k ∈ cp.live := by
  intro k hk
  rcases List.mem_append.mp hk with hk | hk
  · refine List.mem_cons_of_mem _ (List.mem_cons_of_mem _ ?_)
    cases closing with
    | true => exact List.mem_of_mem_tail hk
    | false => exact hk
  · rw [List.mem_singleton.mp hk]
    exact Layout.prog_live cp

/-- The flush of a group leaves the levels and their dangling jumps. -/
theorem Flushed.levels (hflush : Flushed cp stk index cp₁ stk₁ index₁)
    (hne : cp.closing = true → (stk cp.buf).code ≠ []) :
    cp₁.levels false = cp.levels cp.closing ∧ (∀ k, (stk₁ k).jmp = (stk k).jmp) ∧
      cp₁.base = cp.base := by
  cases hflush with
  | popped m' hclosing hbuf =>
      refine ⟨?_, ?_, rfl⟩
      · rw [hclosing]
        rfl
      · intro k
        by_cases e : k = cp.target
        · rw [e, update_self, Stk.append_jmp]
        · rw [update_of_ne e]
  | kept hcond =>
      have hclosing : cp.closing = false := by
        cases hc : cp.closing with
        | false => rfl
        | true => exact absurd ⟨hc, hne hc⟩ hcond
      rw [hclosing]
      exact ⟨rfl, fun _ => rfl, rfl⟩

theorem opResult_jmp {s s' : Stk} {e : List Inst} (h : opResult text cp s e = some s') :
    if cp.tok = .alt then s'.jmp ≠ none else s'.jmp = s.jmp := by
  unfold opResult at h
  split at h
  · next htok =>
      rcases Option.map_eq_some_iff.mp h with ⟨c, _, rfl⟩
      simp [htok]
  · next htok =>
      obtain rfl := Option.some.inj h
      simp [htok]
  · next htok =>
      obtain rfl := Option.some.inj h
      simp [htok]
  · next htok =>
      obtain rfl := Option.some.inj h
      simp [htok]
  · next htok =>
      obtain rfl := Option.some.inj h
      simp [htok, Stk.alt, Stk.fork]
  · next h₁ h₂ h₃ h₄ h₅ =>
      obtain rfl := Option.some.inj h
      exact (if_neg h₅).mpr rfl

theorem OpOn.jmp {s : Stk} (hs : OpOn text cp stk index s) :
    if cp.tok = .alt then s.jmp ≠ none else s.jmp = (stk cp.target).jmp := by
  cases hs with
  | operand i _ hres =>
      have hjmp := opResult_jmp hres
      rwa [Stk.append_jmp] at hjmp
  | empty _ htok hs =>
      rw [if_pos htok, hs]
      simp [Stk.alt, Stk.fork]

/-- A turn keeps the levels without a dangling jump at 0. -/
theorem Unset.turn (h : Unset cp cp.closing stk) (hlay : Layout cp cp.closing ids stk index)
    (hshaped : Shaped cp cp.closing stk index F) (hcharc : cp.inCharc = true → cp.closing = false)
    (hne : cp.tok.isop = false → cp.closing = true → (stk cp.buf).code ≠ [])
    (hmarks : TurnMarks cp cp') (hturn : Turn text cp stk index cp' stk' index') :
    Unset cp' (decide (cp.tok = .rparen)) stk' := by
  -- the same levels, the same jumps, the same `dsize`
  have hsame : (∀ k ∈ cp'.levels (decide (cp.tok = .rparen)), k ∈ cp.levels cp.closing ∧
      (stk' k).jmp = (stk k).jmp) → SameDsize cp.mem cp'.mem →
      Unset cp' (decide (cp.tok = .rparen)) stk' := by
    intro hlevels hd k hk hjmp
    rcases hlevels k hk with ⟨hk', hj⟩
    rw [hd k]
    exact h k hk' (hj.symm.trans hjmp)
  have hclass : cp.inCharc = true → cp.tok ≠ .rparen → SameDsize cp.mem cp'.mem ∧
      decide (cp.tok = .rparen) = cp.closing := by
    intro hin htok
    refine ⟨hmarks.other ?_, ?_⟩
    · rintro ⟨hmain, _⟩
      rw [hin] at hmain
      cases hmain
    · rw [hcharc hin]
      exact decide_eq_false htok
  cases hturn with
  | operate hmain hop s hs m' chained index' =>
      rcases hshaped.target hlay with ⟨rest, hcons, hnodup, _, _, hother⟩
      have htok : cp.tok ≠ .rparen := by
        intro e
        rw [e] at hop
        cases hop
      have hlevels : ∀ k ∈ cp.levels cp.closing, k = cp.target ∨
          k ≠ cp.target ∧ operated cp stk s k = stk k := by
        intro k hk
        by_cases e : k = cp.target
        · exact Or.inl e
        · rw [hcons] at hk
          exact Or.inr ⟨e, operated_of_ne (hother k hk).2 e⟩
      have hjmp := hs.jmp
      rw [decide_eq_false htok] at hsame ⊢
      by_cases halt : cp.tok = .alt
      · rw [if_pos halt] at hjmp
        intro k hk hnone
        rcases hlevels k hk with rfl | ⟨hk', heq⟩
        · rw [hlay.operated_target] at hnone
          exact absurd hnone hjmp
        · rw [(hmarks.alt hmain halt).dsize k hk']
          rw [heq] at hnone
          exact h k hk hnone
      · rw [if_neg halt] at hjmp
        refine hsame ?_ (hmarks.other ?_)
        · intro k hk
          refine ⟨hk, ?_⟩
          rcases hlevels k hk with rfl | ⟨_, heq⟩
          · rw [hlay.operated_target]
            exact hjmp
          · rw [heq]
        · rintro ⟨_, htok' | htok'⟩
          · exact halt htok'
          · rw [htok'] at hop
            cases hop
  | single hmain cp₁ stk₁ index₁ hflush inst hinst m' operand =>
      have hplain : cp.tok ≠ .lparen ∧ cp.tok ≠ .rparen ∧ cp.tok.isop = false := by
        cases htok : cp.tok <;> simp [singleInst, htok, Tok.isop] at hinst ⊢
      rcases hflush.flushed.levels (hne hplain.2.2) with ⟨hlevels, hjmp, _⟩
      rw [decide_eq_false hplain.2.1] at hsame ⊢
      refine hsame ?_ (hmarks.other ?_)
      · intro k hk
        refine ⟨hlevels ▸ hk, ?_⟩
        rw [← hjmp k]
        by_cases e : k = cp₁.buf
        · rw [e, update_self, Stk.append_jmp]
        · rw [update_of_ne e]
      · rintro ⟨_, htok | htok⟩
        · rw [htok] at hplain
          cases hplain.2.2
        · exact hplain.1 htok
  | quiet hmain cp₁ stk₁ index₁ hflush hop hinst hparen =>
      rcases hflush.flushed.levels (hne hop) with ⟨hlevels, hjmp, _⟩
      rw [decide_eq_false hparen.2] at hsame ⊢
      refine hsame (fun k hk => ⟨hlevels ▸ hk, hjmp k⟩) (hmarks.other ?_)
      rintro ⟨_, htok | htok⟩
      · rw [htok] at hop
        cases hop
      · exact hparen.1 htok
  | opening hmain cp₁ stk₁ index₁ hflush htok m' hfresh =>
      rcases hflush.layout with ⟨ids₁, hlay₁⟩
      rcases hflush.flushed.levels (hne (by rw [htok]; rfl)) with ⟨hlevels, hjmp, _⟩
      rcases hmarks.opening hmain htok with ⟨hnew, hold⟩
      rw [decide_eq_false (by simp [htok])]
      intro k hk hnone
      have hk : k ∈ cp₁.mem.stackCount :: cp₁.levels false := hk
      rcases List.mem_cons.mp hk with rfl | hk
      · exact hnew
      · have hk₁ : k ≠ cp₁.mem.stackCount := fun e => hfresh (e ▸ levels_live k hk)
        have hbase : k ≠ cp₁.base := by
          rintro rfl
          refine hlay₁.base_notMem ?_
          rcases List.mem_append.mp hk with hk | hk
          · exact List.mem_cons_of_mem _ hk
          · rw [List.mem_singleton.mp hk]
            exact List.mem_cons_self
        have heq : (opened cp₁ stk₁ k).jmp = (stk₁ k).jmp := by
          rw [opened, update_of_ne hk₁, update_of_ne hbase]
          by_cases e : k = cp₁.target
          · rw [e, update_self, Stk.append_jmp]
          · rw [update_of_ne e]
        rw [hold k hk₁]
        refine h k (hlevels ▸ hk) ?_
        rw [← hjmp k, ← heq]
        exact hnone
  | closing hmain cp₁ stk₁ index₁ hflush htok cur below hgroups m' operand stk' hsc =>
      rcases hflush.layout with ⟨ids₁, hlay₁⟩
      rcases hflush.flushed.levels (hne (by rw [htok]; rfl)) with ⟨hlevels, hjmp, _⟩
      rw [decide_eq_true htok] at hsame ⊢
      refine hsame ?_ (hmarks.other ?_)
      · intro k hk
        have hk : k ∈ cp₁.groups.tail ++ [cp₁.prog] := hk
        rw [hgroups, List.tail_cons] at hk
        -- the innermost level is the one that is closed
        have h₁ := (hshaped.framed (hne (by rw [htok]; rfl))).flush hlay hflush.flushed
        rcases h₁.shaped.target hlay₁ with ⟨rest, hcons, hnodup, _, _, hother⟩
        have hrest : rest = below ++ [cp₁.prog] := by
          have hcons' : cp₁.groups ++ [cp₁.prog] = cp₁.target :: rest := hcons
          rw [hgroups] at hcons'
          exact (List.cons.inj hcons').2.symm
        rw [← hrest] at hk
        have hk₁ : k ∈ cp₁.target :: rest := List.mem_cons_of_mem _ hk
        have htarget : k ≠ cp₁.target := fun e => (List.nodup_cons.mp hnodup).1 (e ▸ hk)
        refine ⟨?_, ?_⟩
        · rw [← hlevels, hcons]
          exact hk₁
        · rw [(hsc k).2, closed, update_of_ne (hother k hk₁).1, update_of_ne htarget, hjmp]
      · rintro ⟨_, htok' | htok'⟩ <;> rw [htok] at htok' <;> cases htok'
  | charc hin htok strb isNchar =>
      have htok' : cp.tok ≠ .rparen := by
        rcases htok with htok | htok <;> simp [htok]
      rcases hclass hin htok' with ⟨hd, hclosing⟩
      refine hsame (fun k hk => ⟨?_, rfl⟩) hd
      rw [hclosing] at hk
      exact hk
  | noCcs hin htok hstrb =>
      rcases hclass hin (by simp [htok]) with ⟨hd, hclosing⟩
      refine hsame (fun k hk => ⟨?_, rfl⟩) hd
      rw [hclosing] at hk
      exact hk
  | ccs hin htok hstrb m' operand =>
      rcases hclass hin (by simp [htok]) with ⟨hd, hclosing⟩
      refine hsame (fun k hk => ⟨?_, ?_⟩) hd
      · rw [hclosing] at hk
        exact hk
      · by_cases e : k = cp.base
        · rw [e, update_self, Stk.append_jmp]
        · rw [update_of_ne e]

end

/-! ## One turn -/

/-- The context is at a token, and the machine has what its stacks and its
class hold. -/
structure Holding (cp : Context) (closing : Bool) (stk : StackId → Stk) (index : Option Nat)
    (M : Machine) : Prop where
  shaped : Shaped cp closing stk index M.frames
  unset : Unset cp closing stk
  chained : cp.chained = M.chained
  inCharc : cp.inCharc = M.charc.isSome
  charc : ∀ negated chars, M.charc = some (negated, chars) →
    cp.strb = some chars ∧ cp.statics.isNchar = negated
  plain : M.charc = none → cp.statics.isNchar = false

section

variable {text : List CChar} {cp cp' : Context} {ids ids' : StackId → List ItemId}
  {stk stk' : StackId → Stk} {index index' : Option Nat} {k input : Nat} {M : Machine} {p : Piece}

/-- A token that is neither the end of the text nor an error has a piece. -/
theorem exists_pieceOf {r : Tok × Nat × LexStatics} (heos : r.1 ≠ .eos)
    (herr : ∀ e, r.1 ≠ .error e) : ∃ p, pieceOf text r = some p := by
  rcases r with ⟨tok, j, l⟩
  cases tok with
  | eos => exact absurd rfl heos
  | error e => exact absurd rfl (herr e)
  | _ => exact ⟨_, rfl⟩

/-- What an operator that is no alternation makes of its operand. -/
theorem pieceOf_operator (hop : cp.tok.isop = true) (halt : cp.tok ≠ .alt)
    (hpiece : pieceOf text (cp.tok, input, cp.statics.lex) = some p) :
    ∃ code, Machine.Operator p code ∧ ∀ s e, opResult text cp s e = (code e).map s.append := by
  cases htok : cp.tok with
  | rep =>
      rw [htok] at hpiece
      obtain rfl := Option.some.inj hpiece
      refine ⟨fun e => repCode e _ _, ⟨fun _ => rfl, by simp, by simp⟩, ?_⟩
      intro s e
      simp [opResult, htok]
  | zero =>
      rw [htok] at hpiece
      obtain rfl := Option.some.inj hpiece
      refine ⟨fun e => some (zeroCode e), ⟨fun _ => rfl, by simp, by simp⟩, ?_⟩
      intro s e
      simp [opResult, htok]
  | one =>
      rw [htok] at hpiece
      obtain rfl := Option.some.inj hpiece
      refine ⟨fun e => some (oneCode e), ⟨fun _ => rfl, by simp, by simp⟩, ?_⟩
      intro s e
      simp [opResult, htok]
  | onezero =>
      rw [htok] at hpiece
      obtain rfl := Option.some.inj hpiece
      refine ⟨fun e => some (onezeroCode e), ⟨fun _ => rfl, by simp, by simp⟩, ?_⟩
      intro s e
      simp [opResult, htok]
  | alt => exact absurd htok halt
  | _ =>
      rw [htok] at hop
      cases hop

/-- What an operator leaves is what the machine makes of its frames. -/
theorem Shaped.step {F : Frames} {s : Stk} (h : Shaped cp cp.closing stk index F)
    (hlay : Layout cp cp.closing ids stk index) (hop : cp.tok.isop = true)
    (hpiece : pieceOf text (cp.tok, input, cp.statics.lex) = some p)
    (hs : OpOn text cp stk index s) :
    F.step p = some { F with top := s, buf := [], closed := none } := by
  rcases h.target hlay with ⟨_, _, _, htop, _, _⟩
  by_cases hollow : cp.closing = true ∧ (stk cp.buf).code = []
  · -- an alternation behind an empty group
    rcases h.group hollow.1 with ⟨hclosed, hbuf⟩
    rw [hollow.2] at hclosed
    cases hs with
    | operand i hindex =>
        subst hindex
        exact absurd hollow.2 hlay.code_ne_nil
    | empty _ htok hs =>
        rw [htok] at hpiece
        obtain rfl := Option.some.inj hpiece
        rw [hs, htop]
        simp [Frames.step, Frames.alternate, Frames.level, Frames.pending, hclosed, hbuf]
  · have hframed := h.framed fun hc hnil => hollow ⟨hc, hnil⟩
    by_cases halt : cp.tok = .alt
    · rw [halt] at hpiece
      obtain rfl := Option.some.inj hpiece
      exact congrArg some (hframed.alternated hlay halt hs)
    · rcases pieceOf_operator hop halt hpiece with ⟨code, hcode, hresult⟩
      rw [hcode.1]
      exact hframed.operates hlay halt hresult hs

/-- The mark for chains, where an alternation sets it. -/
theorem Holding.dsize (h : Holding cp cp.closing stk index M)
    (hlay : Layout cp cp.closing ids stk index) :
    decide (cp.targetStack.dsize ≠ 0) = M.frames.top.jmp.isSome := by
  rcases h.shaped.target hlay with ⟨rest, hcons, _, htop, _, _⟩
  have hdangling := (hlay.store.shows _ hlay.target_live).dangling
  rw [← htop]
  cases hjmp : (stk cp.target).jmp with
  | none =>
      have hzero := h.unset cp.target (by rw [hcons]; exact List.mem_cons_self) hjmp
      simp [Context.targetStack, hzero]
  | some j =>
      rw [hjmp] at hdangling
      have hd : cp.targetStack.dsize = j + 1 := hdangling.2.2
      simp [hd]

/-- A piece of one symbol is that of its token only. -/
theorem pieceOf_eq_sign {r : Tok × Nat × LexStatics} (h : pieceOf text r = some p) {tok : Tok}
    (htok : tok ≠ .literal ∧ tok ≠ .charRange ∧ tok ≠ .rep) : p = .sign tok ↔ r.1 = tok := by
  rcases r with ⟨tok', j, l⟩
  rcases htok with ⟨hliteral, hrange, hrep⟩
  cases tok' with
  | eos | error => cases h
  | literal | charRange | rep =>
      obtain rfl := Option.some.inj h
      constructor
      · intro hp
        cases hp
      · rintro rfl
        contradiction
  | _ =>
      obtain rfl := Option.some.inj h
      simp

/-- The piece of a token that goes to the buffer as it is. -/
theorem pieceOf_single {inst : Inst} (hinst : singleInst text cp = some inst)
    (hpiece : pieceOf text (cp.tok, input, cp.statics.lex) = some p) :
    (∀ F : Frames, F.step p = some (F.atom inst)) ∧ cp.tok ≠ .rparen ∧ cp.tok ≠ .charcOpen ∧
      cp.tok.isop = false := by
  unfold singleInst at hinst
  cases htok : cp.tok with
  | literal | any | sol | eol =>
      simp only [htok, Option.some.injEq] at hinst hpiece
      rw [← hinst, ← Option.some.inj hpiece]
      refine ⟨fun F => rfl, by simp, by simp, rfl⟩
  | _ =>
      simp only [htok] at hinst
      cases hinst

/-- The mark for chains behind a turn outside a class. -/
theorem Holding.chained_next (h : Holding cp cp.closing stk index M)
    (hlay : Layout cp cp.closing ids stk index) (hmain : cp.inCharc = false)
    (hmarks : TurnMarks cp cp') (hpiece : pieceOf text (cp.tok, input, cp.statics.lex) = some p) :
    cp'.chained = (M.chained || (decide (p = .sign .alt) && M.frames.top.jmp.isSome)) := by
  have hiff := @pieceOf_eq_sign text p _ hpiece .alt (by simp)
  by_cases halt : cp.tok = .alt
  · rw [(hmarks.alt hmain halt).chained, h.chained, h.dsize hlay, decide_eq_true (hiff.mpr halt),
      Bool.true_and]
  · rw [hmarks.chained (fun hne => halt hne.2), h.chained,
      decide_eq_false (fun hp => halt (hiff.mp hp)), Bool.false_and, Bool.or_false]

/-! ## The cases of a turn -/

/-- Outside a class a turn on a token that strands no group leaves what the
machine makes of the levels. -/
theorem Shaped.turn {F : Frames} (h : Shaped cp cp.closing stk index F)
    (hlay : Layout cp cp.closing ids stk index) (hmain : cp.inCharc = false)
    (hne : cp.tok.isop = false → cp.closing = true → (stk cp.buf).code ≠ [])
    (hquiet : cp.tok.isop = false → singleInst text cp = none →
      cp.tok ≠ .lparen ∧ cp.tok ≠ .rparen → cp.tok = .charcOpen)
    (hpiece : pieceOf text (cp.tok, input, cp.statics.lex) = some p)
    (hturn : Turn text cp stk index cp' stk' index')
    (hlay' : Layout cp' (decide (cp.tok = .rparen)) ids' stk' index') :
    ∃ F', F.step p = some F' ∧ Shaped cp' (decide (cp.tok = .rparen)) stk' index' F' := by
  -- the flush, which goes before every token that is no operator
  have hflushed : ∀ {cp₁ : Context} {stk₁ : StackId → Stk} {index₁ : Option Nat},
      cp.tok.isop = false → Flushed cp stk index cp₁ stk₁ index₁ →
      Framed cp₁ false stk₁ index₁ F.flush := by
    intro cp₁ stk₁ index₁ hop hflush
    exact (h.framed (hne hop)).flush hlay hflush
  cases hturn with
  | operate _ hop s hs m' chained index' =>
      have htok : decide (cp.tok = .rparen) = false := by
        refine decide_eq_false ?_
        intro e
        rw [e] at hop
        cases hop
      rw [htok]
      refine ⟨_, h.step hlay hop hpiece hs, Framed.shaped ?_⟩
      exact h.operated hlay ⟨rfl, rfl, rfl, rfl, rfl⟩
  | single _ cp₁ stk₁ index₁ hflush inst hinst m' operand =>
      rcases pieceOf_single hinst hpiece with ⟨hatom, htok, _, hop⟩
      rcases hflush.layout with ⟨ids₁, hlay₁⟩
      have h₁ := hflushed hop hflush.flushed
      rw [decide_eq_false htok]
      refine ⟨_, hatom F, Framed.shaped ?_⟩
      exact h₁.single hlay₁ (h₁.plain rfl).2.1 ⟨rfl, rfl, rfl, rfl, rfl⟩
  | quiet _ cp₁ stk₁ index₁ hflush hop hinst hparen =>
      have htok := hquiet hop hinst hparen
      have hp := (@pieceOf_eq_sign text p _ hpiece .charcOpen (by simp)).mpr htok
      subst hp
      rw [decide_eq_false hparen.2]
      refine ⟨_, rfl, Framed.shaped ?_⟩
      exact (hflushed hop hflush.flushed).control ⟨rfl, rfl, rfl, rfl, rfl⟩
  | opening _ cp₁ stk₁ index₁ hflush htok m' hfresh =>
      have hp := (@pieceOf_eq_sign text p _ hpiece .lparen (by simp)).mpr htok
      subst hp
      rcases hflush.layout with ⟨ids₁, hlay₁⟩
      have h₁ := hflushed (by rw [htok]; rfl) hflush.flushed
      rw [decide_eq_false (by simp [htok])]
      refine ⟨F.openLevel, rfl, Framed.shaped ?_⟩
      rw [Frames.openLevel, ← Frames.flush_below F]
      exact h₁.opened hlay₁ hfresh ⟨rfl, rfl, rfl, rfl, rfl⟩
  | closing _ cp₁ stk₁ index₁ hflush htok cur below hgroups m' operand stk' hsame =>
      have hp := (@pieceOf_eq_sign text p _ hpiece .rparen (by simp)).mpr htok
      subst hp
      rcases hflush.layout with ⟨ids₁, hlay₁⟩
      have h₁ := hflushed (by rw [htok]; rfl) hflush.flushed
      rw [decide_eq_true htok] at hlay' ⊢
      -- the group that is closed is a level, and there is one below it
      have hlevels : (cp₁.groups ++ [cp₁.prog]).map stk₁ = F.flush.top :: F.flush.below :=
        h₁.levels
      rw [hgroups, List.cons_append, List.map_cons] at hlevels
      have hbelow : ∃ t belowF, F.flush.below = t :: belowF := by
        rw [← (List.cons.inj hlevels).2, List.map_append]
        rcases below with _ | ⟨k, below⟩
        · exact ⟨_, _, rfl⟩
        · exact ⟨_, _, rfl⟩
      rcases hbelow with ⟨t, belowF, hbelow⟩
      have hbelow' : F.below = t :: belowF := F.flush_below ▸ hbelow
      have hshut : F.step (.sign .rparen) = some
          { top := t
            below := belowF
            buf := []
            closed := some (F.flush.top.append F.flush.buf).attach.code } := by
        simp only [Frames.step, Frames.shut, hbelow']
      refine ⟨_, hshut, h₁.shut hlay₁ hgroups hsame ?_ hlay' hbelow⟩
      exact ⟨rfl, rfl, rfl, rfl, rfl⟩
  | charc hcharc => rw [hmain] at hcharc; cases hcharc
  | noCcs hcharc => rw [hmain] at hcharc; cases hcharc
  | ccs hcharc => rw [hmain] at hcharc; cases hcharc

/-- Outside a class the sign of the class stays, and a `[` starts the
characters of one. -/
theorem Turn.outside (hturn : Turn text cp stk index cp' stk' index') (hmain : cp.inCharc = false) :
    cp'.statics.isNchar = cp.statics.isNchar ∧ (cp.tok = .charcOpen → cp'.strb = some []) := by
  have hstatics : (mainStatics cp).isNchar = cp.statics.isNchar := by
    unfold mainStatics
    split_ifs <;> rfl
  cases hturn with
  | operate _ hop =>
      refine ⟨rfl, ?_⟩
      intro htok
      rw [htok] at hop
      cases hop
  | single _ _ _ _ _ inst hinst =>
      refine ⟨hstatics, ?_⟩
      intro htok
      simp [singleInst, htok] at hinst
  | quiet =>
      refine ⟨hstatics, ?_⟩
      intro htok
      exact if_pos htok
  | opening _ _ _ _ _ htok =>
      refine ⟨hstatics, ?_⟩
      intro htok'
      rw [htok] at htok'
      cases htok'
  | closing _ _ _ _ _ htok =>
      refine ⟨hstatics, ?_⟩
      intro htok'
      rw [htok] at htok'
      cases htok'
  | charc hcharc => rw [hmain] at hcharc; cases hcharc
  | noCcs hcharc => rw [hmain] at hcharc; cases hcharc
  | ccs hcharc => rw [hmain] at hcharc; cases hcharc

/-- A `]` outside a class is an error. -/
theorem stage1Step_unopened (hlay : Layout cp cp.closing ids stk index)
    (hmain : cp.inCharc = false) (hstep : stage1Step text cp = .ok (none, cp')) :
    cp.tok ≠ .charcClose := by
  intro htok
  rcases hlay.flushed with ⟨cp₁, _, _, _, hrun, hflush, _⟩
  rcases hflush.frame with ⟨m₁, groups₁, buf₁, hcp₁⟩
  unfold stage1Step at hstep
  rw [if_neg (by simp [hmain]), stage1MainState_charcClose htok hrun hcp₁] at hstep
  cases hstep

/-- A turn outside a class. -/
theorem Holding.turn_outside (h : Holding cp cp.closing stk index M) (hholds : Holds cp stk index)
    (hmain : cp.inCharc = false) (hread : ReadAt text k input cp) (heos : cp.tok ≠ .eos)
    (herr : ∀ e, cp.tok ≠ .error e) (hfree : ¬ Strands cp)
    (hpiece : pieceOf text (cp.tok, input, cp.statics.lex) = some p)
    (hstep : stage1Step text cp = .ok (none, cp'))
    (hturn : Turn text cp stk index cp' stk' index')
    (hlay' : Layout cp' (decide (cp.tok = .rparen)) ids' stk' index') :
    ∃ M', M.take p = some M' ∧ Holding cp' (decide (cp.tok = .rparen)) stk' index' M' := by
  rcases hholds.layout with ⟨ids, hlay⟩
  have hmarks : TurnMarks cp cp' := stage1Step_marks text cp _ hstep
  have hunopened := stage1Step_unopened hlay hmain hstep
  have hne : cp.tok.isop = false → cp.closing = true → (stk cp.buf).code ≠ [] := by
    intro hop hc hnil
    exact hfree ((strands_iff hlay hop).mpr ⟨hc, hnil⟩)
  -- of the lexemes without instruction only `[` opens a class
  have hquiet : cp.tok.isop = false → singleInst text cp = none →
      cp.tok ≠ .lparen ∧ cp.tok ≠ .rparen → cp.tok = .charcOpen := by
    intro hop hinst hparen
    exact (hread.quiet hmain hop hparen heos herr hinst).resolve_right hunopened
  have hin := hturn.inCharc
  have hopen := @pieceOf_eq_sign text p _ hpiece .charcOpen (by simp)
  -- outside a class the machine is not in one
  have hcharc : M.charc = none := by
    have := h.inCharc
    rw [hmain] at this
    simpa using this.symm
  rcases hturn.outside hmain with ⟨hN, hstrb⟩
  rcases h.shaped.turn hlay hmain hne hquiet hpiece hturn hlay' with ⟨F', hF, hshaped⟩
  -- the machine takes the piece as the frames do
  have htake : M.take p = some
      { frames := F'
        chained := M.chained || (decide (p = .sign .alt) && M.frames.top.jmp.isSome)
        charc := if p = .sign .charcOpen then some (false, []) else none } := by
    rw [Machine.take_outside hcharc, Machine.takeOutside, hF]
    rfl
  -- the frames follow the turn; the flags are compared one by one
  refine ⟨_, htake, ⟨hshaped, ?_, h.chained_next hlay hmain hmarks hpiece, ?_, ?_, ?_⟩⟩
  · exact h.unset.turn hlay h.shaped hholds.charc hne hmarks hturn
  · rw [hin, if_neg hunopened, hmain]
    by_cases htok : cp.tok = .charcOpen
    · rw [if_pos htok, if_pos (hopen.mpr htok)]
      rfl
    · rw [if_neg htok, if_neg (fun hp => htok (hopen.mp hp))]
      rfl
  · -- a class starts with no characters and no sign
    intro negated chars hclass
    by_cases hp : p = .sign .charcOpen
    · rw [if_pos hp] at hclass
      obtain ⟨rfl, rfl⟩ := Prod.mk.inj (Option.some.inj hclass)
      exact ⟨hstrb (hopen.mp hp), hN.trans (h.plain hcharc)⟩
    · rw [if_neg hp] at hclass
      cases hclass
  · intro _
    exact hN.trans (h.plain hcharc)

/-- A turn in a class. -/
theorem Holding.turn_inside (h : Holding cp cp.closing stk index M) (hholds : Holds cp stk index)
    (hin : cp.inCharc = true)
    (hpiece : pieceOf text (cp.tok, input, cp.statics.lex) = some p)
    (hstep : stage1Step text cp = .ok (none, cp'))
    (hturn : Turn text cp stk index cp' stk' index') :
    ∃ M', M.take p = some M' ∧ Holding cp' (decide (cp.tok = .rparen)) stk' index' M' := by
  rcases hholds.layout with ⟨ids, hlay⟩
  have hmarks : TurnMarks cp cp' := stage1Step_marks text cp _ hstep
  have hclosing := hholds.charc hin
  have hchained : cp'.chained = M.chained := by
    rw [hmarks.chained (fun hmain => by rw [hin] at hmain; cases hmain.1)]
    exact h.chained
  have hunset := h.unset.turn hlay h.shaped hholds.charc
    (fun _ hc => by rw [hclosing] at hc; cases hc) hmarks hturn
  have hclass : ∃ negated chars, M.charc = some (negated, chars) := by
    have := h.inCharc
    rw [hin] at this
    rcases Option.isSome_iff_exists.mp this.symm with ⟨⟨negated, chars⟩, hc⟩
    exact ⟨negated, chars, hc⟩
  rcases hclass with ⟨negated, chars, hclass⟩
  rcases h.charc negated chars hclass with ⟨hstrb, hN⟩
  have htake : M.take p = M.takeInside negated chars p := by
    unfold Machine.take
    rw [hclass]
  rw [htake]
  -- a turn that stays in the class
  have hstay : ∀ {negated' : Bool} {chars' : List CChar}, cp.tok ≠ .charcClose →
      cp.tok ≠ .rparen → cp' = { cp with
        strb := some chars', statics := { cp.statics with isNchar := negated' } } →
      Holding cp' (decide (cp.tok = .rparen)) stk' index'
        { M with charc := some (negated', chars') } := by
    intro negated' chars' hclose hparen hcp'
    rcases hturn.inside hin hclose with ⟨hstk, hindex⟩
    rw [decide_eq_false hparen] at hunset ⊢
    refine ⟨?_, hunset, hchained, ?_, ?_, ?_⟩
    · have hshaped := h.shaped
      rw [hclosing] at hshaped
      rw [hcp', hstk, hindex]
      exact hshaped.control ⟨rfl, rfl, rfl, rfl, rfl⟩
    · rw [hcp']
      exact hin
    · intro negated₁ chars₁ heq
      obtain ⟨rfl, rfl⟩ := Prod.mk.inj (Option.some.inj heq)
      rw [hcp']
      exact ⟨rfl, rfl⟩
    · intro hnone
      cases hnone
  unfold stage1Step stage1CharcState at hstep
  rw [if_pos hin] at hstep
  split at hstep
  · next htok =>
      rw [htok] at hpiece
      obtain rfl := Option.some.inj hpiece
      have hchar : at' text cp.statics.lex.lp1 = cp.lp1Char text := rfl
      refine ⟨_, rfl, ?_⟩
      rw [hchar, ← hN]
      by_cases hsol : cp.lp1Char text = solSym ∧ cp.statics.isNchar = false
      · rw [if_pos hsol] at hstep ⊢
        have hcp' := (Prod.mk.inj (Except.ok.inj hstep)).2.symm
        refine hstay (by simp [htok]) (by simp [htok]) ?_
        rw [hcp', ← hstrb]
      · rw [if_neg hsol] at hstep ⊢
        have hcp' := (Prod.mk.inj (Except.ok.inj hstep)).2.symm
        refine hstay (by simp [htok]) (by simp [htok]) ?_
        rw [hcp', Context.addc, hstrb]
        rfl
  · next htok =>
      rw [htok] at hpiece
      obtain rfl := Option.some.inj hpiece
      rw [Machine.takeInside_range]
      simp only [expandCharRange] at hstep
      rcases hrange : expandLoop (rangeBounds text cp.statics.lex.lp1).2 257
          (rangeBounds text cp.statics.lex.lp1).1 with e | range
      · rw [hrange] at hstep
        cases hstep
      · rw [hrange] at hstep
        have hcp' := (Prod.mk.inj (Except.ok.inj hstep)).2.symm
        refine ⟨_, rfl, hstay (by simp [htok]) (by simp [htok]) ?_⟩
        rw [hcp', hstrb, ← hN]
        rfl
  · next htok =>
      have hp := (@pieceOf_eq_sign text p _ hpiece .charcClose (by simp)).mpr htok
      subst hp
      rw [Machine.takeInside_close]
      refine ⟨_, rfl, ?_⟩
      rw [decide_eq_false (by simp [htok])] at hunset ⊢
      have hshaped := h.shaped
      rw [hclosing] at hshaped hlay
      have hframed := hshaped.framed (fun hc => absurd hc Bool.false_ne_true)
      cases hturn with
      | noCcs _ _ hnil =>
          rw [hstrb] at hnil
          obtain rfl := Option.some.inj hnil
          refine ⟨?_, hunset, hchained, rfl, ?_, fun _ => rfl⟩
          · rw [if_pos rfl]
            exact hshaped.control ⟨rfl, rfl, rfl, rfl, rfl⟩
          · intro _ _ hnone
            cases hnone
      | ccs _ _ hne m' operand =>
          have hchars : chars ≠ [] := by
            rintro rfl
            exact hne hstrb
          have hinst : ccsInst cp = Machine.ccs negated chars := by
            unfold ccsInst Machine.ccs
            rw [hstrb, hN, Option.getD_some]
          refine ⟨?_, hunset, hchained, rfl, ?_, fun _ => rfl⟩
          · rw [if_neg hchars, hinst, if_pos (hframed.plain rfl).2.1, Frames.atom,
              Frames.flush_eq_self (hframed.plain rfl).1]
            refine Framed.shaped ?_
            exact hframed.single hlay rfl ⟨rfl, rfl, rfl, rfl, rfl⟩
          · intro _ _ hnone
            cases hnone
      | charc _ htok' => rcases htok' with htok' | htok' <;> rw [htok] at htok' <;> cases htok'
      | operate hmain => rw [hin] at hmain; cases hmain
      | single hmain => rw [hin] at hmain; cases hmain
      | quiet hmain => rw [hin] at hmain; cases hmain
      | opening hmain => rw [hin] at hmain; cases hmain
      | closing hmain => rw [hin] at hmain; cases hmain
  · cases hstep

/-- The machine does with the piece what the compiler does with its token. -/
theorem Holding.turn (h : Holding cp cp.closing stk index M) (hholds : Holds cp stk index)
    (hread : ReadAt text k input cp) (heos : cp.tok ≠ .eos) (herr : ∀ e, cp.tok ≠ .error e)
    (hfree : ¬ Strands cp) (hpiece : pieceOf text (cp.tok, input, cp.statics.lex) = some p)
    (hstep : stage1Step text cp = .ok (none, cp'))
    (hturn : Turn text cp stk index cp' stk' index')
    (hlay' : Layout cp' (decide (cp.tok = .rparen)) ids' stk' index') :
    ∃ M', M.take p = some M' ∧ Holding cp' (decide (cp.tok = .rparen)) stk' index' M' := by
  cases hin : cp.inCharc with
  | true => exact h.turn_inside hholds hin hpiece hstep hturn
  | false => exact h.turn_outside hholds hin hread heos herr hfree hpiece hstep hturn hlay'

end

end Rxvm
