import Rxvm.ParenSpec
import Rxvm.Requires

/-!
# Rxvm.Ground — what is outside all groups

The code outside all groups is what the program holds and, while no group is
open, what the literal buffer holds. A run that leaves no group stranded is
orderly, and each of its turns does one of a few things to this code.
-/

namespace Rxvm

open Function

/-- The shape of a context of a run that leaves no group stranded; its token
has been read at position `k`. -/
structure Orderly (k : Nat) (cp : Context) (closing : Bool) (stk : StackId → Stk)
    (index : Option Nat) : Prop where
  buf : closing = false → cp.buf = cp.base
  target : closing = false → cp.target = cp.groups.headD cp.prog
  depth : cp.depth = (if closing then cp.groups.tail else cp.groups).length
  bound : cp.groups.length ≤ k
  operand : closing = false → (stk cp.base).code ≠ [] →
    index = some ((stk cp.base).code.length - 1)

/-- The part of the code outside all groups that is still in the buffer. -/
def groundBuf (groups : List StackId) (base : Stk) : List Inst :=
  if groups = [] then base.code else []

/-- What a turn does to the code `P` of the program and the part `T` in the
buffer, as long as there is no alternation outside the groups. -/
inductive GroundTurn (text : List CChar) (cp : Context) (P T : List Inst) (cp' : Context) :
    List Inst → List Inst → Prop
  /-- A token goes to the buffer, or to no stack at all. -/
  | put (hmain : cp.inCharc = false) (hop : cp.tok.isop = false)
      (hparen : cp.tok ≠ .lparen ∧ cp.tok ≠ .rparen) (hstat : cp'.statics = mainStatics cp)
      (hin : cp'.inCharc = decide (cp.tok = .charcOpen))
      (hgroups : cp'.groups = []) (X : List Inst) (hX : Closed X) (hXT : X = [] ∨ T = []) :
      GroundTurn text cp P T cp' (P ++ X) (T ++ (singleInst text cp).toList)
  /-- A token is read in a group, or opens one. -/
  | hide (hmain : cp.inCharc = false) (hop : cp.tok.isop = false)
      (hstat : cp'.statics = mainStatics cp) (hin : cp'.inCharc = decide (cp.tok = .charcOpen))
      (hdepth : cp.tok = .literal → cp.depth ≠ 0) (X : List Inst) (hX : Closed X)
      (hXT : X = T ∨ T = []) : GroundTurn text cp P T cp' (P ++ X) []
  /-- An operator takes the last instruction of the buffer. -/
  | operate (hmain : cp.inCharc = false) (hop : cp.tok.isop = true)
      (hstat : cp'.statics = { opStatics text cp with lfix := (opStatics text cp).lfix.lfixStop })
      (hin : cp'.inCharc = false) (hgroups : cp.groups = []) (x : Inst) (hlast : T.getLast? = some x)
      (hdata : ∃ n, cp.operand = some n ∧ (cp.mem.item n).data = x) (c : List Inst) (hc : Closed c)
      (hstarts : opSkips text cp = false → Starts [x] c) :
      GroundTurn text cp P T cp' (P ++ T.dropLast ++ c) []
  /-- An operator takes a group, or something in a group. -/
  | operateGroup (hmain : cp.inCharc = false) (hop : cp.tok.isop = true)
      (hstat : cp'.statics = { opStatics text cp with lfix := (opStatics text cp).lfix.lfixStop })
      (hin : cp'.inCharc = false) (hgroups : cp.groups ≠ []) (hT : T = []) (X : List Inst)
      (hX : Closed X) : GroundTurn text cp P T cp' (P ++ X) []
  /-- A token is read in a class. -/
  | charc (hcharc : cp.inCharc = true) (hlfix : cp'.statics.lfix = cp.statics.lfix)
      (hin : cp'.inCharc = decide (cp.tok ≠ .charcClose)) (hgroups : cp'.groups = cp.groups)
      (T' : List Inst) (hT : T' = T ∨ ∃ inst, inst.isAtom = true ∧ T' = T ++ [inst]) :
      GroundTurn text cp P T cp' P T'

section

variable {text : List CChar} {k : Nat} {cp cp' : Context} {ids : StackId → List ItemId}
  {stk stk' : StackId → Stk} {index index' : Option Nat}

/-! ## Orderly contexts -/

theorem not_closing_of_groups (hlay : Layout cp cp.closing ids stk index) (h : cp.groups = []) :
    cp.closing = false := by
  cases hc : cp.closing with
  | false => rfl
  | true =>
      rcases (hlay.justClosed hc).1 with ⟨below, hg, _⟩
      rw [h] at hg
      cases hg

theorem Orderly.flush {cp₁ : Context} {stk₁ : StackId → Stk} {index₁ : Option Nat}
    (h : Orderly k cp cp.closing stk index) (hlay : Layout cp cp.closing ids stk index)
    (hop : cp.tok.isop = false) (hfree : ¬ Strands cp)
    (hflush : Flushed cp stk index cp₁ stk₁ index₁) : Orderly k cp₁ false stk₁ index₁ := by
  cases hflush with
  | popped m' hclosing hbuf =>
      rcases hlay.justClosed hclosing with ⟨⟨below, hg, ht⟩, hbase, _⟩
      refine ⟨fun _ => rfl, fun _ => ?_, ?_, ?_, fun _ hne => absurd ?_ hne⟩
      · show cp.target = cp.groups.tail.headD cp.prog
        rw [ht, hg]
        rfl
      · show cp.depth = cp.groups.tail.length
        rw [h.depth, hclosing]
        rfl
      · have := h.bound
        show cp.groups.tail.length ≤ k
        rw [List.length_tail]
        omega
      · show (update stk cp.target _ cp.base).code = []
        rw [update_of_ne hlay.target_ne_base.symm]
        exact hbase
  | kept hcond =>
      have hclosing : cp.closing = false := by
        by_contra hc
        have hc' : cp.closing = true := by simpa using hc
        refine hfree ((strands_iff hlay hop).mpr ⟨hc', ?_⟩)
        by_contra hne
        exact hcond ⟨hc', hne⟩
      rw [hclosing] at h
      exact h

/-- A turn that strands no group keeps the shape. -/
theorem Orderly.turn (h : Orderly k cp cp.closing stk index)
    (hlay : Layout cp cp.closing ids stk index) (hfree : ¬ Strands cp)
    (hcharc : cp.inCharc = true → cp.closing = false) (hk : k < 4294967295)
    (hturn : Turn text cp stk index cp' stk' index') :
    Orderly (k + 1) cp' (decide (cp.tok = .rparen)) stk' index' := by
  have hbound := h.bound
  -- a turn that neither opens nor leaves a group keeps the order, one lexeme later
  have hinside : ∀ (cp₁ : Context) (stk₁ : StackId → Stk) (index₁ : Option Nat),
      Orderly k cp₁ false stk₁ index₁ → cp.tok ≠ .rparen →
      Orderly (k + 1) cp₁ (decide (cp.tok = .rparen)) stk₁ index₁ := by
    intro cp₁ stk₁ index₁ h₁ htok
    rw [decide_eq_false htok]
    exact ⟨h₁.buf, h₁.target, h₁.depth, Nat.le_succ_of_le h₁.bound, h₁.operand⟩
  cases hturn with
  | operate hmain hop s hs m' chained index' =>
      have htok : cp.tok ≠ .rparen := by
        intro htok
        rw [htok] at hop
        cases hop
      rw [decide_eq_false htok]
      refine ⟨fun _ => rfl, fun _ => ?_, ?_, ?_, fun _ hne => absurd ?_ hne⟩
      · show cp.target = (if cp.closing then cp.groups.tail else cp.groups).headD cp.prog
        -- an operator behind a `)` leaves the group, whose target is the next one out
        cases hc : cp.closing with
        | true =>
            rcases (hlay.justClosed hc).1 with ⟨below, hg, ht⟩
            rw [if_pos rfl, ht, hg]
            rfl
        | false =>
            rw [if_neg (by simp)]
            exact h.target hc
      · exact h.depth
      · show (if cp.closing then cp.groups.tail else cp.groups).length ≤ k + 1
        split
        · rw [List.length_tail]
          omega
        · omega
      · -- the operand has gone to the target, so the base holds nothing
        show (operated cp stk s cp.base).code = []
        by_cases e : cp.base = cp.buf
        · rw [e, operated_buf]
        · rw [operated_of_ne e hlay.target_ne_base.symm]
          cases hc : cp.closing with
          | true => exact (hlay.justClosed hc).2.1
          | false => exact absurd (h.buf hc).symm e
  | single hmain cp₁ stk₁ index₁ hflush inst hinst m' operand =>
      have hop : cp.tok.isop = false := by
        unfold singleInst at hinst
        split at hinst <;> simp_all [Tok.isop]
      have htok : cp.tok ≠ .rparen := by
        intro htok
        simp [singleInst, htok] at hinst
      have h₁ := h.flush hlay hop hfree hflush.flushed
      refine hinside _ _ _ ⟨fun _ => h₁.buf rfl, fun _ => h₁.target rfl, h₁.depth, h₁.bound, ?_⟩ htok
      -- the operand is now the instruction just put at the end of the buffer
      intro _ _
      show some _ = some ((update stk₁ cp₁.buf _ cp₁.base).code.length - 1)
      rw [h₁.buf rfl, update_self]
      simp
  | quiet hmain cp₁ stk₁ index₁ hflush hop hinst hparen =>
      have h₁ := h.flush hlay hop hfree hflush.flushed
      exact hinside _ _ _ ⟨fun _ => h₁.buf rfl, fun _ => h₁.target rfl, h₁.depth, h₁.bound,
        h₁.operand⟩ hparen.2
  | opening hmain cp₁ stk₁ index₁ hflush htok m' hfresh =>
      have h₁ := h.flush hlay (by rw [htok]; rfl) hfree hflush.flushed
      have hbound₁ := h₁.bound
      have hdepth₁ : cp₁.depth = cp₁.groups.length := h₁.depth
      rw [decide_eq_false (by rw [htok]; simp)]
      refine ⟨fun _ => h₁.buf rfl, fun _ => rfl, ?_, ?_, fun _ hne => absurd ?_ hne⟩
      · -- the depth is a 32-bit counter; the bound on the groups keeps it exact
        show u32 (cp₁.depth + 1) = cp₁.groups.length + 1
        rw [hdepth₁]
        exact u32_eq (by push_cast; rfl) (by omega)
      · show cp₁.groups.length + 1 ≤ k + 1
        omega
      · show (opened cp₁ stk₁ cp₁.base).code = []
        have hnew : cp₁.base ≠ cp₁.mem.stackCount := by
          intro e
          exact hfresh (e ▸ Layout.base_live cp₁)
        simp [opened, hnew]
  | closing hmain cp₁ stk₁ index₁ hflush htok cur below hgroups m' operand stk' hsame =>
      have h₁ := h.flush hlay (by rw [htok]; rfl) hfree hflush.flushed
      have hbound₁ := h₁.bound
      have hdepth₁ : cp₁.depth = cp₁.groups.length := h₁.depth
      rw [decide_eq_true htok]
      refine ⟨by simp, by simp, ?_, ?_, by simp⟩
      · show u32 (cp₁.depth - 1) = cp₁.groups.tail.length
        rw [hdepth₁, hgroups] at *
        simp only [List.length_cons, List.tail_cons] at hbound₁ ⊢
        exact u32_eq (by push_cast; omega) (by omega)
      · exact Nat.le_succ_of_le hbound₁
  | charc hin htok strb isNchar =>
      -- inside a class the turn behind a `)` is long past
      have hc := hcharc hin
      rw [hc] at h
      refine hinside _ _ _ ⟨h.buf, h.target, h.depth, h.bound, h.operand⟩ ?_
      rcases htok with htok | htok <;> simp [htok]
  | noCcs hin htok hstrb =>
      have hc := hcharc hin
      rw [hc] at h
      exact hinside _ _ _ ⟨h.buf, h.target, h.depth, h.bound, h.operand⟩ (by simp [htok])
  | ccs hin htok hstrb m' operand =>
      have hc := hcharc hin
      rw [hc] at h
      refine hinside _ _ _ ⟨h.buf, h.target, h.depth, h.bound, ?_⟩ (by simp [htok])
      intro _ _
      show (if cp.buf = cp.base then _ else _) = _
      rw [if_pos (h.buf rfl)]
      show some _ = some ((update stk cp.base _ cp.base).code.length - 1)
      rw [update_self]
      simp

/-! ## The code outside all groups -/

theorem groundBuf_nil {groups : List StackId} (h : groups ≠ []) (base : Stk) :
    groundBuf groups base = [] := if_neg h

theorem groundBuf_of_base {base : Stk} (h : base.code = []) (groups : List StackId) :
    groundBuf groups base = [] := by
  unfold groundBuf
  split
  · exact h
  · rfl

theorem groundBuf_atoms (hwell : WellMade cp cp.closing stk) :
    Atoms (groundBuf cp.groups (stk cp.base)) := by
  unfold groundBuf
  split
  · exact hwell.base
  · exact Atoms.nil

/-- The flush of a group that is in no other one puts it behind the program. -/
theorem Flushed.ground {cp₁ : Context} {stk₁ : StackId → Stk} {index₁ : Option Nat}
    (hlay : Layout cp cp.closing ids stk index) (hwell : WellMade cp cp.closing stk)
    (hflush : Flushed cp stk index cp₁ stk₁ index₁) :
    (stk₁ cp.prog).jmp = (stk cp.prog).jmp ∧
      groundBuf cp₁.groups (stk₁ cp₁.base) = groundBuf cp.groups (stk cp.base) ∧
      ∃ X, Closed X ∧ (X = [] ∨ groundBuf cp.groups (stk cp.base) = []) ∧
        (stk₁ cp.prog).code = (stk cp.prog).code ++ X := by
  cases hflush with
  | popped m' hclosing hbuf =>
      rcases hlay.justClosed hclosing with ⟨⟨below, hg, _⟩, hbase, _⟩
      have hnil : groundBuf cp.groups (stk cp.base) = [] := groundBuf_nil (by simp [hg]) _
      have hbase' : (update stk cp.target ((stk cp.target).append (stk cp.buf).code)
          cp.base).code = [] := by
        rw [update_of_ne hlay.target_ne_base.symm]
        exact hbase
      refine ⟨?_, ?_, ?_⟩
      · by_cases e : cp.prog = cp.target
        · rw [e, update_self]
          rfl
        · rw [update_of_ne e]
      · rw [hnil]
        exact groundBuf_of_base hbase' _
      · by_cases e : cp.prog = cp.target
        · refine ⟨(stk cp.buf).code, (hwell.good _ hlay.buf_live).closed hlay.bufJmp, Or.inr hnil, ?_⟩
          rw [e, update_self]
          rfl
        · refine ⟨[], Closed.nil, Or.inl rfl, ?_⟩
          rw [update_of_ne e, List.append_nil]
  | kept _ => exact ⟨rfl, rfl, [], Closed.nil, Or.inl rfl, (List.append_nil _).symm⟩

theorem singleInst_tok {inst : Inst} (h : singleInst text cp = some inst) :
    cp.tok.isop = false ∧ cp.tok ≠ .charcOpen ∧ cp.tok ≠ .lparen ∧ cp.tok ≠ .rparen := by
  unfold singleInst at h
  split at h <;> simp_all [Tok.isop]

theorem headD_ne_self {l : List StackId} {p : StackId} (h : (p :: l).Nodup) (hl : l ≠ []) :
    l.headD p ≠ p := by
  cases l with
  | nil => exact absurd rfl hl
  | cons a l =>
      intro e
      obtain rfl : a = p := e
      exact (List.nodup_cons.mp h).1 List.mem_cons_self

/-- Behind an operator nothing is in the buffer. -/
theorem Orderly.operated_base (h : Orderly k cp cp.closing stk index)
    (hlay : Layout cp cp.closing ids stk index) (s : Stk) :
    (operated cp stk s cp.base).code = [] := by
  by_cases e : cp.base = cp.buf
  · rw [e, operated_buf]
  · rw [operated_of_ne e hlay.target_ne_base.symm]
    cases hc : cp.closing with
    | true => exact (hlay.justClosed hc).2.1
    | false => exact absurd (h.buf hc).symm e

/-- An operator outside the groups takes the last instruction of the buffer. -/
theorem Orderly.ground_operate {s : Stk} (h : Orderly k cp cp.closing stk index)
    (hlay : Layout cp cp.closing ids stk index) (hwell : WellMade cp cp.closing stk)
    (hjmp : (stk cp.prog).jmp = none) (hmain : cp.inCharc = false) (hop : cp.tok.isop = true)
    (hs : OpOn text cp stk index s) (hg : cp.groups = []) (hnalt : cp.depth = 0 → cp.tok ≠ .alt)
    (hstat : cp'.statics = { opStatics text cp with lfix := (opStatics text cp).lfix.lfixStop })
    (hin : cp'.inCharc = cp.inCharc) :
    (operated cp stk s cp.prog).jmp = none ∧ GroundTurn text cp (stk cp.prog).code
      (groundBuf cp.groups (stk cp.base)) cp' (operated cp stk s cp.prog).code [] := by
  have hclosing := not_closing_of_groups hlay hg
  have hbuf := h.buf hclosing
  -- outside all groups the target is the program and the buffer is the base
  have htarget : cp.target = cp.prog := by
    rw [h.target hclosing, hg]
    rfl
  have hdepth : cp.depth = 0 := by
    rw [h.depth, hclosing, hg]
    rfl
  have hT : groundBuf cp.groups (stk cp.base) = (stk cp.buf).code := by
    rw [groundBuf, if_pos hg, hbuf]
  have hstk : operated cp stk s cp.prog = s := by
    rw [← htarget]
    exact hlay.operated_target s
  rw [hstk]
  cases hs with
  | empty _ htok => exact absurd htok (hnalt hdepth)
  -- the operand is the last instruction of the buffer: all before it stays
  | operand i hindex hres =>
      subst hindex
      rcases hwell.split hlay with ⟨hpre, he, hpos⟩
      rcases hlay.located.found i rfl with ⟨n, hn, hget⟩
      have hne : (stk cp.buf).code ≠ [] := by
        intro hnil
        simp [hnil] at hpos
      have hi : i = (stk cp.buf).code.length - 1 := by
        have hop := h.operand hclosing (by rw [← hbuf]; exact hne)
        rw [← hbuf] at hop
        exact Option.some.inj hop
      have hlen := List.length_pos_iff.mpr hne
      have hdata : (stk cp.buf).code[i]? = some (cp.mem.item n).data := by
        rw [← (hlay.store.shows _ hlay.buf_live).code, List.getElem?_map, hget]
        rfl
      have hlast : (stk cp.buf).code.getLast? = some (cp.mem.item n).data := by
        rw [List.getLast?_eq_getElem?, ← hi, hdata]
      have hdrop : (stk cp.buf).code.drop i = [(cp.mem.item n).data] := by
        rw [List.drop_eq_getElem?_toList_append, hdata, List.drop_eq_nil_of_le (by omega)]
        rfl
      have htake : (stk cp.buf).code.take i = (stk cp.buf).code.dropLast := by
        rw [hi, List.dropLast_eq_take]
      rw [hdrop] at he hres hpos
      rw [htake] at hres
      -- what the operator makes of one instruction starts with it
      rcases opResult_code he hpos hop (hnalt hdepth) hres with ⟨c, rfl, hc, hstarts⟩
      rw [htarget, hT]
      exact ⟨hjmp, .operate hmain hop hstat (hin.trans hmain) hg _ hlast ⟨n, hn, rfl⟩ c hc hstarts⟩

/-- An operator in the groups leaves the code outside them as it is, or puts
the code of a group behind it. -/
theorem Orderly.ground_operateGroup {s : Stk} (h : Orderly k cp cp.closing stk index)
    (hlay : Layout cp cp.closing ids stk index) (hwell : WellMade cp cp.closing stk)
    (hjmp : (stk cp.prog).jmp = none) (hmain : cp.inCharc = false) (hop : cp.tok.isop = true)
    (hs : OpOn text cp stk index s) (hg : cp.groups ≠ []) (hnalt : cp.depth = 0 → cp.tok ≠ .alt)
    (hstat : cp'.statics = { opStatics text cp with lfix := (opStatics text cp).lfix.lfixStop })
    (hin : cp'.inCharc = cp.inCharc) :
    (operated cp stk s cp.prog).jmp = none ∧ GroundTurn text cp (stk cp.prog).code
      (groundBuf cp.groups (stk cp.base)) cp' (operated cp stk s cp.prog).code [] := by
  have hnodup := hlay.groups_nodup
  by_cases htarget : cp.target = cp.prog
  · -- the target is the program only when a group has just been closed that is in no other one
    have hclosing : cp.closing = true := by
      by_contra hc
      rw [h.target (by simpa using hc)] at htarget
      exact headD_ne_self hnodup hg htarget
    rcases (hlay.justClosed hclosing).1 with ⟨below, hgroups, ht⟩
    have hbelow : below = [] := by
      by_contra hne
      rw [hgroups] at hnodup
      have hsub : (cp.prog :: below).Nodup :=
        hnodup.sublist (List.Sublist.cons_cons _ (List.sublist_cons_self _ _))
      exact headD_ne_self hsub hne (ht.symm.trans htarget)
    have hdepth : cp.depth = 0 := by
      rw [h.depth, hclosing, hgroups, hbelow]
      rfl
    have hstk : operated cp stk s cp.prog = s := by
      rw [← htarget]
      exact hlay.operated_target s
    rw [hstk]
    cases hs with
    | empty _ htok => exact absurd htok (hnalt hdepth)
    | operand i hindex hres =>
        subst hindex
        rcases hwell.split hlay with ⟨hpre, he, hpos⟩
        rcases opResult_code he hpos hop (hnalt hdepth) hres with ⟨c, rfl, hc, _⟩
        rw [htarget]
        refine ⟨hjmp, ?_⟩
        rw [Stk.append_code, Stk.append_code, List.append_assoc]
        exact .operateGroup hmain hop hstat (hin.trans hmain) hg (groundBuf_nil hg _) _
          (hpre.append hc)
  · -- the operator works in an enclosing group: the program keeps its code
    have hbuf : cp.prog ≠ cp.buf := by
      have := hlay.buf_mem
      intro e
      rw [← e] at this
      rcases List.mem_cons.mp this with hbase | hmem
      · exact hlay.prog_ne_base hbase
      · exact (List.nodup_cons.mp hnodup).1 hmem
    rw [operated_of_ne hbuf (Ne.symm htarget)]
    refine ⟨hjmp, ?_⟩
    have hturn : GroundTurn text cp (stk cp.prog).code (groundBuf cp.groups (stk cp.base)) cp'
        ((stk cp.prog).code ++ []) [] :=
      .operateGroup hmain hop hstat (hin.trans hmain) hg (groundBuf_nil hg _) [] Closed.nil
    rwa [List.append_nil] at hturn

/-- A token that is no operator, in a group: the stack of the program is as the
flush has left it. -/
theorem Orderly.ground_hide {cp₁ : Context} {stk₁ : StackId → Stk} {index₁ : Option Nat}
    (h : Orderly k cp cp.closing stk index) (hlay : Layout cp cp.closing ids stk index)
    (hwell : WellMade cp cp.closing stk) (hfree : ¬ Strands cp)
    (hjmp : (stk cp.prog).jmp = none) (hmain : cp.inCharc = false) (hop : cp.tok.isop = false)
    (hflush : FlushedTo cp stk index cp₁ stk₁ index₁) (hstat : cp'.statics = mainStatics cp)
    (hin : cp'.inCharc = decide (cp.tok = .charcOpen)) (hg : cp₁.groups ≠ []) :
    (stk₁ cp.prog).jmp = none ∧ GroundTurn text cp (stk cp.prog).code
      (groundBuf cp.groups (stk cp.base)) cp' (stk₁ cp.prog).code [] := by
  have h₁ := h.flush hlay hop hfree hflush.flushed
  rcases hflush.flushed.ground hlay hwell with ⟨hjmp₁, hbuf, X, hX, _, hP⟩
  rw [groundBuf_nil hg] at hbuf
  rw [hP]
  refine ⟨hjmp₁.trans hjmp, .hide hmain hop hstat hin ?_ X hX (Or.inr hbuf.symm)⟩
  intro _ h0
  rcases hflush.flushed.frame with ⟨m₁, groups₁, buf₁, hcp₁⟩
  have hdepth : cp₁.depth = cp.depth := by rw [hcp₁]
  have hlen : cp₁.depth = cp₁.groups.length := h₁.depth
  exact hg (List.length_eq_zero_iff.mp (hlen.symm.trans (hdepth.trans h0)))

/-- The same for a token that opens and closes no group, in a group or not. -/
theorem Orderly.ground_put {cp₁ : Context} {stk₁ : StackId → Stk} {index₁ : Option Nat}
    {T' : List Inst} (h : Orderly k cp cp.closing stk index)
    (hlay : Layout cp cp.closing ids stk index) (hwell : WellMade cp cp.closing stk)
    (hfree : ¬ Strands cp) (hjmp : (stk cp.prog).jmp = none) (hmain : cp.inCharc = false)
    (hop : cp.tok.isop = false) (hparen : cp.tok ≠ .lparen ∧ cp.tok ≠ .rparen)
    (hflush : FlushedTo cp stk index cp₁ stk₁ index₁) (hstat : cp'.statics = mainStatics cp)
    (hin : cp'.inCharc = decide (cp.tok = .charcOpen)) (hgroups : cp'.groups = cp₁.groups)
    (hT : T' = if cp₁.groups = [] then (stk₁ cp₁.base).code ++ (singleInst text cp).toList else []) :
    (stk₁ cp.prog).jmp = none ∧ GroundTurn text cp (stk cp.prog).code
      (groundBuf cp.groups (stk cp.base)) cp' (stk₁ cp.prog).code T' := by
  rw [hT]
  by_cases hg : cp₁.groups = []
  · rcases hflush.flushed.ground hlay hwell with ⟨hjmp₁, hbuf, X, hX, hXT, hP⟩
    rw [groundBuf, if_pos hg] at hbuf
    rw [if_pos hg, hP, hbuf]
    exact ⟨hjmp₁.trans hjmp, .put hmain hop hparen hstat hin (hgroups.trans hg) X hX hXT⟩
  · rw [if_neg hg]
    exact h.ground_hide hlay hwell hfree hjmp hmain hop hflush hstat hin hg

/-- A turn does one of these things to the code outside the groups. -/
theorem Orderly.ground (h : Orderly k cp cp.closing stk index)
    (hlay : Layout cp cp.closing ids stk index) (hwell : WellMade cp cp.closing stk)
    (hfree : ¬ Strands cp) (hjmp : (stk cp.prog).jmp = none)
    (hturn : Turn text cp stk index cp' stk' index')
    (halt : cp'.statics.altSeen = false) :
    (stk' cp.prog).jmp = none ∧ GroundTurn text cp (stk cp.prog).code
      (groundBuf cp.groups (stk cp.base)) cp' (stk' cp.prog).code
      (groundBuf cp'.groups (stk' cp'.base)) := by
  have hbaseprog := hlay.prog_ne_base
  -- the flush before a lexeme that is no operator, in the terms of the ground
  have hflushed : ∀ {cp₁ : Context} {stk₁ : StackId → Stk} {index₁ : Option Nat},
      FlushedTo cp stk index cp₁ stk₁ index₁ → cp.tok.isop = false →
      cp₁.buf = cp₁.base ∧ cp₁.target = cp₁.groups.headD cp.prog ∧ cp₁.prog = cp.prog ∧
        cp₁.base = cp.base ∧ cp₁.inCharc = cp.inCharc ∧ (cp.prog :: cp₁.groups).Nodup := by
    intro cp₁ stk₁ index₁ hto hop
    rcases hto.layout with ⟨ids₁, hlay₁⟩
    rcases hto.flushed.frame with ⟨m₁, groups₁, buf₁, hcp₁⟩
    have h₁ := h.flush hlay hop hfree hto.flushed
    have hprog : cp₁.prog = cp.prog := by rw [hcp₁]
    have htarget := h₁.target rfl
    have hnodup := hlay₁.groups_nodup
    rw [hprog] at htarget hnodup
    refine ⟨h₁.buf rfl, htarget, hprog, ?_, ?_, hnodup⟩
    all_goals rw [hcp₁]
  cases hturn with
  | operate hmain hop s hs m' chained index' =>
      -- an `|` outside all groups would have marked the program
      have hnalt : cp.depth = 0 → cp.tok ≠ .alt := by
        intro hdepth htok
        have : (opStatics text cp).altSeen = false := halt
        simp [opStatics, htok, hdepth] at this
      rw [groundBuf_of_base (h.operated_base hlay s)]
      by_cases hg : cp.groups = []
      · exact h.ground_operate hlay hwell hjmp hmain hop hs hg hnalt rfl rfl
      · exact h.ground_operateGroup hlay hwell hjmp hmain hop hs hg hnalt rfl rfl
  | single hmain cp₁ stk₁ index₁ hflush inst hinst m' operand =>
      rcases singleInst_tok hinst with ⟨hop, hopen, hparen⟩
      rcases hflushed hflush hop with ⟨hbuf, _, _, hbase, hin, _⟩
      -- the buffer is the base, never the program
      have hne : cp.prog ≠ cp₁.buf := by
        rw [hbuf, hbase]
        exact hbaseprog
      have hin' : cp₁.inCharc = decide (cp.tok = .charcOpen) := by
        rw [hin, hmain, decide_eq_false hopen]
      rw [update_of_ne hne]
      refine h.ground_put hlay hwell hfree hjmp hmain hop hparen hflush rfl hin' rfl ?_
      show groundBuf cp₁.groups (update stk₁ cp₁.buf _ cp₁.base) = _
      rw [hbuf, update_self, hinst]
      rfl
  | quiet hmain cp₁ stk₁ index₁ hflush hop hinst hparen =>
      rcases hflushed hflush hop with ⟨_, _, _, _, hin, _⟩
      have hin' : (if cp.tok = .charcOpen then true else cp₁.inCharc) =
          decide (cp.tok = .charcOpen) := by
        rw [hin, hmain]
        split <;> simp_all
      refine h.ground_put hlay hwell hfree hjmp hmain hop hparen hflush rfl hin' rfl ?_
      rw [hinst, Option.toList_none, List.append_nil]
      rfl
  | opening hmain cp₁ stk₁ index₁ hflush htok m' hfresh =>
      have hop : cp.tok.isop = false := by rw [htok]; rfl
      rcases hflushed hflush hop with ⟨hbuf, htarget, hprog, hbase, hin, hnodup⟩
      rcases hflush.flushed.ground hlay hwell with ⟨hjmp₁, hT, X, hX, hXT, hP⟩
      have hin' : cp₁.inCharc = decide (cp.tok = .charcOpen) := by
        rw [hin, hmain, htok]
        rfl
      -- the fresh stack of the group is not the program
      have hnew : cp.prog ≠ cp₁.mem.stackCount := by
        intro e
        rw [← hprog] at e
        exact hfresh (e ▸ Layout.prog_live cp₁)
      rw [groundBuf_nil (List.cons_ne_nil _ _)]
      -- the outermost `(` puts the code of the base behind the program
      by_cases hg : cp₁.groups = []
      · have hopened : opened cp₁ stk₁ cp.prog =
            (stk₁ cp.prog).append (stk₁ cp₁.base).code := by
          rw [hg] at htarget
          simp [opened, hnew, hbase, hbaseprog, show cp₁.target = cp.prog from htarget]
        have hcode : (stk₁ cp₁.base).code = groundBuf cp.groups (stk cp.base) := by
          rw [← hT, groundBuf, if_pos hg]
        rw [hopened]
        refine ⟨hjmp₁.trans hjmp, ?_⟩
        rw [Stk.append_code, hP, hcode, List.append_assoc]
        refine GroundTurn.hide hmain hop ?_ ?_ (by simp [htok]) _
          (hX.append (groundBuf_atoms hwell).closed) ?_
        · rfl
        · exact hin'
        · rcases hXT with rfl | hnil
          · exact Or.inl rfl
          · exact Or.inr hnil
      · -- a nested `(` writes to the target of its group, not to the program
        have hother : opened cp₁ stk₁ cp.prog = stk₁ cp.prog := by
          have hne : cp.prog ≠ cp₁.target := by
            rw [htarget]
            exact (headD_ne_self hnodup hg).symm
          simp [opened, hnew, hbase, hbaseprog, hne]
        rw [hother]
        refine h.ground_hide hlay hwell hfree hjmp hmain hop hflush ?_ ?_ hg
        · rfl
        · exact hin'
  | closing hmain cp₁ stk₁ index₁ hflush htok cur below hgroups m' operand stk' hsame =>
      have hop : cp.tok.isop = false := by rw [htok]; rfl
      rcases hflushed hflush hop with ⟨_, htarget, _, hbase, hin, hnodup⟩
      have hin' : cp₁.inCharc = decide (cp.tok = .charcOpen) := by
        rw [hin, hmain, htok]
        rfl
      have hg : cp₁.groups ≠ [] := by simp [hgroups]
      -- a `)` writes to the stack of its group, which is not the program
      have hclosed : closed cp₁ stk₁ cp.prog = stk₁ cp.prog := by
        have hne : cp.prog ≠ cp₁.target := by
          rw [htarget]
          exact (headD_ne_self hnodup hg).symm
        simp [closed, hbase, hbaseprog, hne]
      rcases hsame cp.prog with ⟨hcode, hjmp'⟩
      rw [groundBuf_nil hg, hcode, hjmp', hclosed]
      refine h.ground_hide hlay hwell hfree hjmp hmain hop hflush ?_ ?_ hg
      · rfl
      · exact hin'
  | charc hin htok strb isNchar =>
      have hclose : cp.inCharc = decide (cp.tok ≠ .charcClose) := by
        rw [hin]
        rcases htok with htok | htok
        · simp [htok]
        · simp [htok]
      refine ⟨hjmp, GroundTurn.charc hin ?_ ?_ ?_ _ (Or.inl rfl)⟩
      · rfl
      · exact hclose
      · rfl
  | noCcs hin htok hstrb =>
      refine ⟨hjmp, GroundTurn.charc hin ?_ ?_ ?_ _ (Or.inl rfl)⟩
      · rfl
      · simp [htok]
      · rfl
  | ccs hin htok hstrb m' operand =>
      rw [update_of_ne hbaseprog]
      refine ⟨hjmp, GroundTurn.charc hin ?_ ?_ ?_ _ ?_⟩
      · rfl
      · simp [htok]
      · rfl
      · rw [update_self]
        -- the class is one more atom of the base; in a group the ground does not see it
        by_cases hg : cp.groups = []
        · right
          refine ⟨ccsInst cp, ccsInst_isAtom cp, ?_⟩
          rw [groundBuf, groundBuf, if_pos hg, if_pos hg]
          rfl
        · left
          rw [groundBuf_nil hg, groundBuf_nil hg]

end

end Rxvm
