import Rxvm.Inventory

/-!
# Rxvm.Balance — the stacks hold the items made

Turn by turn, a run of `stage1` keeps the items it makes on its stacks. The
exception is a repetition whose counts have wrapped round: its operand is in no
stack any more.
-/

namespace Rxvm

open Function Linked

/-! ## One operator -/

section

variable {text : List CChar} {cp cp' : Context} {ids : StackId → List ItemId}
  {stk : StackId → Stk} {index : Option Nat} {s : Stk}

theorem processOpEnd_items (cp : Context) :
    (processOpEnd cp).mem.itemCount = cp.mem.itemCount := by
  rw [processOpEnd_eq]
  rfl

/-- The `switch` an operator with an operand comes to. -/
theorem processOp_switched (h : Layout cp cp.closing ids stk (some i))
    (hrun : processOp text cp = .ok (none, cp')) :
    ∃ m₁ cp₁, Moving { cp with mem := m₁ } (cp.live \ {cp.buf})
        (update ids cp.target (ids cp.target ++ (ids cp.buf).take i))
        (update stk cp.target ((stk cp.target).append ((stk cp.buf).code.take i)))
        ((ids cp.buf).drop i) ((stk cp.buf).code.drop i) ∧
      processOpSwitch text { cp with mem := m₁ } ((stk cp.buf).code.drop i).length
        ((ids cp.buf).drop i).head? = .ok (none, cp₁) ∧
      m₁.itemCount = cp.mem.itemCount ∧ cp'.mem.itemCount = cp₁.mem.itemCount := by
  rcases h.walk with ⟨m₁, hwalk, hmoving, hoper, _⟩
  rw [processOp, if_neg h.head_ne_none] at hrun
  simp only [hwalk, bind, Except.bind] at hrun
  cases hsw : processOpSwitch text { cp with mem := m₁ } ((stk cp.buf).code.drop i).length
      cp.operand with
  | error e =>
      -- the switch stops, and so does `process_op`
      rw [hsw] at hrun
      cases hrun
  | ok r =>
      -- the switch has succeeded: what follows it makes no item
      rcases r with ⟨err, cp₁⟩
      rw [hsw] at hrun
      cases err with
      | some e => cases hrun
      | none =>
          cases hrun
          refine ⟨m₁, cp₁, hmoving, ?_, walkToOperand_items hwalk, processOpEnd_items cp₁⟩
          rw [← hoper]
          exact hsw

/-- An operator makes what it puts on the target, but for what it takes out of
the buffer. -/
theorem processOp_items (h : Layout cp cp.closing ids stk index) (hmain : cp.inCharc = false)
    (hop : cp.tok.isop = true) (hs : OpOn text cp stk index s) (hnone : ¬ WrappedRep text cp)
    (hrun : processOp text cp = .ok (none, cp')) :
    cp'.mem.itemCount + (stk cp.target).code.length + (stk cp.buf).code.length =
      cp.mem.itemCount + s.code.length := by
  cases hs with
  | operand i hindex hres =>
      -- what is in front of the operand is moved, the operand goes through the switch
      subst hindex
      rcases processOp_switched h hrun with ⟨m₁, cp₁, hmoving, hsw, hwalked, hended⟩
      have hres' : opResult text { cp with mem := m₁ }
          (update stk cp.target ((stk cp.target).append ((stk cp.buf).code.take i)) cp.target)
          ((stk cp.buf).code.drop i) = some s := by
        rw [update_self]
        exact hres
      have hitems := hmoving.switch_items hop
        (fun htok hrep => hnone ⟨hmain, htok, hrep, h.head_ne_none⟩) hres' hsw
      have hsplit : (stk cp.buf).code.length =
          ((stk cp.buf).code.take i).length + ((stk cp.buf).code.drop i).length := by
        rw [← List.length_append, List.take_append_drop]
      simp only [update_self, Stk.append_code, List.length_append] at hitems
      omega
  | empty hbuf htok hs =>
      -- an alternation behind an empty buffer, the only operator that may stand there
      have hhead : cp.bufStack.head = none := (h.store.shows _ h.buf_live).head_none_iff.mpr hbuf
      rw [processOp, if_pos hhead, if_pos htok] at hrun
      simp only [bind, Except.bind] at hrun
      cases hsw : processOpSwitch text cp
          (cp.mem.stack (cp.groups.headD cp.base)).size none with
      | error e =>
          rw [hsw] at hrun
          cases hrun
      | ok r =>
          rcases r with ⟨err, cp₁⟩
          rw [hsw] at hrun
          cases err with
          | some e => cases hrun
          | none =>
              cases hrun
              rw [processOpEnd_items, switch_alt htok (codeAlt_none cp) hsw, altTail_items, hbuf, hs,
                alt_length, List.length_nil]
              omega

/-- A repetition whose counts have wrapped round drops its operand. -/
theorem processOp_loses (h : Layout cp cp.closing ids stk index) (hs : OpOn text cp stk index s)
    (hwrap : WrappedRep text cp) (hrun : processOp text cp = .ok (none, cp')) :
    cp.mem.itemCount + s.code.length <
      cp'.mem.itemCount + (stk cp.target).code.length + (stk cp.buf).code.length := by
  rcases hwrap with ⟨_, htok, hrep, hhead⟩
  cases hs with
  | operand i hindex hres =>
      subst hindex
      rcases processOp_switched h hrun with ⟨m₁, cp₁, hmoving, hsw, hwalked, hended⟩
      have hpos := hmoving.length_pos
      -- the counts fit no case of `process_op_rep`: the operand is in no list any more
      have hsw' : processOpSwitch text { cp with mem := m₁ } ((stk cp.buf).code.drop i).length
          ((ids cp.buf).drop i).head? = .ok (none, { cp with mem := m₁ }) := by
        rw [processOpSwitch, htok]
        exact processOpRep_none hrep _ _
      rw [hsw'] at hsw
      cases hsw
      rw [opResult, htok] at hres
      simp only [repCode_none hrep, Option.map_some, Option.some.injEq] at hres
      have hsplit : (stk cp.buf).code.length =
          ((stk cp.buf).code.take i).length + ((stk cp.buf).code.drop i).length := by
        rw [← List.length_append, List.take_append_drop]
      rw [← hres]
      simp only [Stk.append_code, List.length_append, List.append_nil]
      simp only at hended
      omega
  | empty hbuf _ _ =>
      exact absurd ((h.store.shows _ h.buf_live).head_none_iff.mpr hbuf) hhead

/-! ## The other tokens -/

theorem flushGroup_items {cp₁ : Context} (h : flushGroup cp = .ok cp₁) :
    cp₁.mem.itemCount = cp.mem.itemCount := by
  unfold flushGroup at h
  split at h
  · cases hcat : cp.mem.stackCat cp.target cp.buf with
    | error e =>
        rw [hcat] at h
        cases h
    | ok m =>
        rw [hcat] at h
        cases h
        exact stackCat_items hcat
  · cases h
    rfl

theorem addSingle_items (cp : Context) (inst : Inst) :
    (addSingle cp inst).mem.itemCount = cp.mem.itemCount + 1 := stackAddInstHead_items

theorem openGroup_items (h : openGroup cp = .ok cp') : cp'.mem.itemCount = cp.mem.itemCount := by
  unfold openGroup at h
  cases hcat : cp.mem.stackCat cp.target cp.base with
  | error e =>
      rw [hcat] at h
      cases h
  | ok m =>
      rw [hcat] at h
      cases h
      show m.itemCount = cp.mem.itemCount
      exact stackCat_items hcat

theorem closeGroup_items {err : Option Err} (h : closeGroup cp = .ok (err, cp')) :
    cp'.mem.itemCount = cp.mem.itemCount := by
  unfold closeGroup at h
  split at h
  · cases h
    rfl
  · cases hcat : cp.mem.stackCat cp.target cp.base with
    | error e =>
        rw [hcat] at h
        cases h
    | ok m =>
        rw [hcat] at h
        cases h
        simp only [Mem.stackReset, Mem.setStack, attachDanglingAlt_items]
        exact stackCat_items hcat

/-- Outside a class a token that is no operator makes at most one item. -/
theorem mainState_items {err : Option Err} (h : Layout cp cp.closing ids stk index)
    (hop : cp.tok.isop = false) (hrun : stage1MainState text cp = .ok (err, cp')) :
    cp'.mem.itemCount = cp.mem.itemCount + (if (singleInst text cp).isSome then 1 else 0) := by
  rcases h.flushed with ⟨cp₁, ids₁, stk₁, index₁, hflush, hcase, _⟩
  rcases hcase.frame with ⟨m₁, groups₁, buf₁, hcp₁⟩
  have hitems := flushGroup_items hflush
  -- a group is opened: a stack is made, and no item
  by_cases hlp : cp.tok = .lparen
  · have hnone : (singleInst text cp).isSome = false := by simp [singleInst, hlp]
    rw [stage1MainState_lparen hlp hflush hcp₁] at hrun
    cases hopen : openGroup { cp₁ with statics := mainStatics cp } with
    | error e =>
        rw [hopen] at hrun
        cases hrun
    | ok cp₂ =>
        rw [hopen] at hrun
        cases hrun
        rw [openGroup_items hopen, hnone]
        exact hitems
  -- a group is closed: its items go to the buffer
  by_cases hrp : cp.tok = .rparen
  · have hnone : (singleInst text cp).isSome = false := by simp [singleInst, hrp]
    rw [stage1MainState_rparen hrp hflush hcp₁] at hrun
    rw [closeGroup_items hrun, hnone]
    exact hitems
  -- a `]` outside a class is an error
  by_cases hclose : cp.tok = .charcClose
  · have hnone : (singleInst text cp).isSome = false := by simp [singleInst, hclose]
    rw [stage1MainState_charcClose hclose hflush hcp₁] at hrun
    cases hrun
    rw [hnone]
    exact hitems
  -- any other token makes an item if it stands for an instruction
  rw [stage1MainState_plain hop hflush hcp₁ ⟨hlp, hrp⟩ hclose] at hrun
  cases hinst : singleInst text cp with
  | some inst =>
      rw [hinst] at hrun
      cases hrun
      rw [addSingle_items, ← hitems]
      rfl
  | none =>
      rw [hinst] at hrun
      cases hrun
      exact hitems

/-- In a class only its end makes an item. -/
theorem charcState_items {err : Option Err} (hrun : stage1CharcState text cp = .ok (err, cp')) :
    cp'.mem.itemCount =
      cp.mem.itemCount + (if cp.tok = .charcClose ∧ cp.strb ≠ some [] then 1 else 0) := by
  unfold stage1CharcState at hrun
  -- a literal of the class, or a range: the string builder grows
  split at hrun
  · next htok =>
      rw [if_neg (by simp [htok])]
      split at hrun <;> · cases hrun; rfl
  · next htok =>
      rw [if_neg (by simp [htok])]
      cases hexp : expandCharRange text cp with
      | error e =>
          rw [hexp] at hrun
          cases hrun
      | ok cp₁ =>
          rw [hexp] at hrun
          cases hrun
          unfold expandCharRange at hexp
          cases hloop : expandLoop (rangeBounds text cp.statics.lex.lp1).2 257
              (rangeBounds text cp.statics.lex.lp1).1 with
          | error e =>
              simp only [hloop] at hexp
              cases hexp
          | ok chars =>
              simp only [hloop] at hexp
              cases hexp
              rfl
  · next htok =>
      cases hrun
      -- the end of the class: one item for its instruction, unless it is empty
      by_cases hstrb : cp.strb = some []
      · rw [if_neg (by simp [hstrb])]
        simp [codeCcs, hstrb]
      · rw [if_pos ⟨htok, hstrb⟩]
        simp [codeCcs, hstrb]
  · next hclose =>
      rw [if_neg (by tauto)]
      cases hrun
      rfl

/-! ## One turn -/

theorem total_perm {l l' : List StackId} (h : l.Perm l') : total l stk = total l' stk :=
  (h.map _).sum_eq

/-- The group that has just been closed is emptied into another stack, and
taken off the list. -/
theorem total_pop (stk : StackId → Stk) {cp : Context} {below : List StackId} {k : StackId}
    (hg : cp.groups = cp.buf :: below) (hnodup : cp.stacks.Nodup)
    (hk : k ∈ cp.base :: cp.prog :: below) (s : Stk) :
    total (cp.base :: cp.prog :: below) (update stk k s) + (stk k).code.length +
      (stk cp.buf).code.length = total cp.stacks stk + s.code.length := by
  have hperm : cp.stacks.Perm (cp.buf :: cp.base :: cp.prog :: below) := by
    rw [Context.stacks, hg]
    exact @List.perm_middle _ cp.buf [cp.base, cp.prog] below
  have hrest := (List.nodup_cons.mp (hperm.nodup_iff.mp hnodup)).2
  have hupdate := total_update stk s hrest hk
  have hall : total cp.stacks stk =
      (stk cp.buf).code.length + total (cp.base :: cp.prog :: below) stk := by
    rw [total_perm hperm, total_cons]
  omega

/-- What an operator leaves on the stacks. -/
theorem Layout.operated_total (h : Layout cp cp.closing ids stk index) (s : Stk) :
    total (cp.base :: cp.prog :: (if cp.closing then cp.groups.tail else cp.groups))
        (operated cp stk s) + (stk cp.target).code.length + (stk cp.buf).code.length =
      total cp.stacks stk + s.code.length := by
  -- behind a closed group its stack is the buffer, and it is popped
  by_cases hclosing : cp.closing = true
  · rcases (h.justClosed hclosing).1 with ⟨below, hg, ht⟩
    have hmem : cp.target ∈ cp.base :: cp.prog :: below := by
      rw [ht]
      exact List.mem_cons_of_mem _ (headD_mem below cp.prog)
    have hnot : cp.buf ∉ cp.base :: cp.prog :: below := by
      have hd := h.distinct
      rw [hg] at hd
      simp only [List.nodup_cons, List.mem_cons, not_or] at hd ⊢
      exact ⟨fun e => hd.1.2.1 e.symm, fun e => hd.2.1.1 e.symm, hd.2.2.1⟩
    rw [if_pos hclosing, hg, List.tail_cons, operated, total_update_of_notMem hnot]
    exact total_pop stk hg h.distinct hmem s
  · rw [if_neg hclosing]
    have htarget := total_update stk s h.distinct
      (List.mem_cons_of_mem cp.base h.target_mem)
    have hbuf := total_update (update stk cp.target s)
      { Stk.empty with capped := decide (cp.buf = cp.base) } h.distinct h.buf_live
    have hnil : ({ Stk.empty with capped := decide (cp.buf = cp.base) } : Stk).code.length = 0 := rfl
    rw [update_of_ne h.buf_ne_target, hnil] at hbuf
    have hst : cp.stacks = cp.base :: cp.prog :: cp.groups := rfl
    rw [operated, hst]
    omega

/-- The flush of a closed group. -/
theorem Flushed.total {cp₁ : Context} {stk₁ : StackId → Stk} {index₁ : Option Nat}
    (hflush : Flushed cp stk index cp₁ stk₁ index₁) (h : Layout cp cp.closing ids stk index) :
    total cp₁.stacks stk₁ = total cp.stacks stk := by
  cases hflush with
  | kept _ => rfl
  | popped m' hclosing hbuf =>
      rcases (h.justClosed hclosing).1 with ⟨below, hg, ht⟩
      have hmem : cp.target ∈ cp.base :: cp.prog :: below := by
        rw [ht]
        exact List.mem_cons_of_mem _ (headD_mem below cp.prog)
      have hpop := total_pop stk hg h.distinct hmem
        ((stk cp.target).append (stk cp.buf).code)
      simp only [Stk.append_code, List.length_append] at hpop
      show Rxvm.total (cp.base :: cp.prog :: cp.groups.tail) _ = _
      rw [hg, List.tail_cons]
      omega

/-- A `(`. -/
theorem Layout.opened_total {closing : Bool} (h : Layout cp closing ids stk index)
    (hfresh : cp.mem.stackCount ∉ cp.live) :
    total (cp.base :: cp.prog :: cp.mem.stackCount :: cp.groups) (opened cp stk) =
      total cp.stacks stk := by
  have hperm : (cp.base :: cp.prog :: cp.mem.stackCount :: cp.groups).Perm
      (cp.mem.stackCount :: cp.stacks) :=
    @List.perm_middle _ cp.mem.stackCount [cp.base, cp.prog] cp.groups
  have hdistinct : cp.stacks.Nodup := h.distinct
  have hnot : cp.mem.stackCount ∉ cp.stacks := hfresh
  rw [total_perm hperm, total_cons, opened, update_self, total_update_of_notMem hnot,
    total_pour hdistinct (List.mem_cons_of_mem _ h.target_mem) List.mem_cons_self h.target_ne_base]
  · simp
  · simp
  · rfl

/-- A `)`. -/
theorem Layout.closed_total {closing : Bool} (h : Layout cp closing ids stk index)
    {stk' : StackId → Stk} (hsame : SameCode (closed cp stk) stk') :
    total cp.stacks stk' = total cp.stacks stk := by
  have hdistinct : cp.stacks.Nodup := h.distinct
  rw [total_congr (closed cp stk) fun k _ => by rw [(hsame k).1], closed,
    total_pour hdistinct (List.mem_cons_of_mem _ h.target_mem) List.mem_cons_self h.target_ne_base]
  · rw [attach_code_length]
    simp
  · rfl

/-- One item on a stack. -/
theorem total_single (cp : Context) (stk : StackId → Stk) {k : StackId} (hnodup : cp.stacks.Nodup)
    (hk : k ∈ cp.stacks) (inst : Inst) :
    total cp.stacks (update stk k ((stk k).append [inst])) = total cp.stacks stk + 1 := by
  have := total_update stk ((stk k).append [inst]) hnodup hk
  simp only [Stk.append_code, List.length_append, List.length_singleton] at this
  omega

theorem stage1Step_main (hmain : cp.inCharc = false) :
    stage1Step text cp = stage1MainState text cp := by
  rw [stage1Step, if_neg (by simp [hmain])]

theorem stage1Step_charc (hcharc : cp.inCharc = true) :
    stage1Step text cp = stage1CharcState text cp := by
  rw [stage1Step, if_pos hcharc]

/-- A turn outside a class, without operator. -/
theorem mainStep_items {err : Option Err} (h : Layout cp cp.closing ids stk index)
    (hmain : cp.inCharc = false) (hop : cp.tok.isop = false)
    (hstep : stage1Step text cp = .ok (err, cp')) :
    cp'.mem.itemCount = cp.mem.itemCount + (if (singleInst text cp).isSome then 1 else 0) := by
  rw [stage1Step_main hmain] at hstep
  exact mainState_items h hop hstep

theorem charcStep_items {err : Option Err} (hcharc : cp.inCharc = true)
    (hstep : stage1Step text cp = .ok (err, cp')) :
    cp'.mem.itemCount =
      cp.mem.itemCount + (if cp.tok = .charcClose ∧ cp.strb ≠ some [] then 1 else 0) := by
  rw [stage1Step_charc hcharc] at hstep
  exact charcState_items hstep

theorem singleInst_isop {inst : Inst} (h : singleInst text cp = some inst) :
    cp.tok.isop = false := by
  unfold singleInst at h
  cases htok : cp.tok <;> simp_all [Tok.isop]

/-- A turn puts on the stacks what it makes. -/
theorem Turn.balanced {stk' : StackId → Stk} {index' : Option Nat}
    (hturn : Turn text cp stk index cp' stk' index') (h : Layout cp cp.closing ids stk index)
    (hstep : stage1Step text cp = .ok (none, cp')) (hnone : ¬ WrappedRep text cp) :
    cp'.mem.itemCount + total cp.stacks stk = cp.mem.itemCount + total cp'.stacks stk' := by
  cases hturn with
  | operate hmain hop s hs m' chained index' =>
      rw [stage1Step_op hmain hop] at hstep
      -- the operator: what `process_op` makes is what the code grows by
      have hitems := processOp_items h hmain hop hs hnone hstep
      have htotal := h.operated_total s
      show _ = cp.mem.itemCount + total (cp.base :: cp.prog ::
        (if cp.closing then cp.groups.tail else cp.groups)) (operated cp stk s)
      omega
  | single hmain cp₁ stk₁ index₁ hflush inst hinst m' operand =>
      -- one item for one instruction; a flush moves items only
      rcases hflush.layout with ⟨ids₁, hlay₁⟩
      have hitems := mainStep_items h hmain (singleInst_isop hinst) hstep
      have htotal := hflush.flushed.total h
      have hsingle := total_single cp₁ stk₁ hlay₁.distinct hlay₁.buf_live inst
      simp only [hinst, Option.isSome_some, if_true] at hitems
      show m'.itemCount + _ = cp.mem.itemCount + total cp₁.stacks _
      omega
  | quiet hmain cp₁ stk₁ index₁ hflush hop hinst hparen =>
      have hitems := mainStep_items h hmain hop hstep
      have htotal := hflush.flushed.total h
      simp only [hinst, Option.isSome_none, Bool.false_eq_true, if_false] at hitems
      show cp₁.mem.itemCount + _ = cp.mem.itemCount + total cp₁.stacks stk'
      omega
  | opening hmain cp₁ stk₁ index₁ hflush htok m' hfresh =>
      rcases hflush.layout with ⟨ids₁, hlay₁⟩
      have hitems := mainStep_items h hmain (by rw [htok]; rfl) hstep
      have hinst : (singleInst text cp).isSome = false := by simp [singleInst, htok]
      have htotal := hflush.flushed.total h
      have hopened := hlay₁.opened_total hfresh
      simp only [hinst, Bool.false_eq_true, if_false] at hitems
      show m'.itemCount + _ = cp.mem.itemCount + total (cp₁.base :: cp₁.prog :: cp₁.mem.stackCount :: cp₁.groups) _
      omega
  | closing hmain cp₁ stk₁ index₁ hflush htok cur below hgroups m' operand stk' hsame =>
      rcases hflush.layout with ⟨ids₁, hlay₁⟩
      have hitems := mainStep_items h hmain (by rw [htok]; rfl) hstep
      have hinst : (singleInst text cp).isSome = false := by simp [singleInst, htok]
      have htotal := hflush.flushed.total h
      have hclosed := hlay₁.closed_total hsame
      simp only [hinst, Bool.false_eq_true, if_false] at hitems
      show m'.itemCount + _ = cp.mem.itemCount + total cp₁.stacks stk'
      omega
  | charc hcharc htok strb isNchar =>
      -- a character of a class goes to the string builder
      have hitems := charcStep_items hcharc hstep
      rw [if_neg (by rcases htok with htok | htok <;> simp [htok])] at hitems
      show _ = cp.mem.itemCount + total cp.stacks stk
      omega
  | noCcs hcharc htok hstrb =>
      have hitems := charcStep_items hcharc hstep
      rw [if_neg (by simp [hstrb])] at hitems
      show _ = cp.mem.itemCount + total cp.stacks stk
      omega
  | ccs hcharc htok hstrb m' operand =>
      have hitems := charcStep_items hcharc hstep
      have hsingle := total_single cp stk h.distinct (Layout.base_live cp)
        (ccsInst cp)
      rw [if_pos ⟨htok, hstrb⟩] at hitems
      show _ = cp.mem.itemCount + total cp.stacks _
      omega

/-- A repetition whose counts have wrapped round leaves items behind. -/
theorem Turn.loses {stk' : StackId → Stk} {index' : Option Nat}
    (hturn : Turn text cp stk index cp' stk' index') (h : Layout cp cp.closing ids stk index)
    (hstep : stage1Step text cp = .ok (none, cp')) (hwrap : WrappedRep text cp) :
    cp.mem.itemCount + total cp'.stacks stk' < cp'.mem.itemCount + total cp.stacks stk := by
  have hop : cp.tok.isop = true := by
    rw [hwrap.2.1]
    rfl
  rw [stage1Step_op hwrap.1 hop] at hstep
  cases hturn with
  | operate hmain hop s hs m' chained index' =>
      have hitems := processOp_loses h hs hwrap hstep
      have htotal := h.operated_total s
      show cp.mem.itemCount + total (cp.base :: cp.prog ::
        (if cp.closing then cp.groups.tail else cp.groups)) (operated cp stk s) < _
      omega
  | single hmain cp₁ stk₁ index₁ hflush inst hinst m' operand =>
      -- no other turn has an operator for its token
      rw [singleInst_isop hinst] at hop
      cases hop
  | quiet hmain cp₁ stk₁ index₁ hflush hnot hinst hparen =>
      rw [hnot] at hop
      cases hop
  | opening hmain cp₁ stk₁ index₁ hflush htok =>
      rw [htok] at hop
      cases hop
  | closing hmain cp₁ stk₁ index₁ hflush htok =>
      rw [htok] at hop
      cases hop
  | charc hcharc htok =>
      rcases htok with htok | htok
      · rw [htok] at hop
        cases hop
      · rw [htok] at hop
        cases hop
  | noCcs hcharc htok =>
      rw [htok] at hop
      cases hop
  | ccs hcharc htok =>
      rw [htok] at hop
      cases hop

end

/-! ## Whole runs -/

section

variable {g : Statics} {text : List CChar}

theorem backlogLoop_items (text : List CChar) (simple : Nat) : ∀ (fuel orig : Nat)
    (fixtemp delimit : Int) (cp : Context),
    (backlogLoop text simple fuel orig fixtemp delimit cp).2.2.2.mem.itemCount =
      cp.mem.itemCount + (backlogCode text simple fuel orig).length := by
  intro fuel
  induction fuel with
  | zero => exact fun _ _ _ _ => rfl
  | succ fuel ih =>
      intro orig fixtemp delimit cp
      unfold backlogLoop backlogCode
      split
      · rfl
      · simp only [ih, stackAddInstHead_items, List.length_cons]
        omega

/-- The literals at the start are all on the base buffer. -/
theorem loopStart_items {input : Nat} {simple : Option Nat} {cp : Context}
    (h : literalLoop text (text.length + 1) 0 none (stage1Init g) = .ok (input, simple, cp)) :
    (loopStart text simple cp).mem.itemCount =
      total (loopStart text simple cp).stacks (startStk text simple cp.base) := by
  rcases literalLoop_frame h with ⟨_, tok, lex, hcp⟩
  rcases loopStart_layout h with ⟨_, _, m', operand, l, heq⟩
  have hstacks : (loopStart text simple cp).stacks = [cp.base, cp.prog] := by
    rw [heq, hcp]
    rfl
  have hzero : cp.mem.itemCount = 0 := by
    rw [hcp]
    rfl
  have hne : cp.prog ≠ cp.base := by
    rw [hcp]
    show (0 : Nat) ≠ 1
    omega
  rw [hstacks]
  cases simple with
  | none =>
      show cp.mem.itemCount = _
      rw [hzero]
      simp [total, startStk, initStk, hne]
  | some simple =>
      -- the literals at the start are in the base buffer, an item each
      rcases compileSimpleBacklog_eq text simple cp with ⟨l', heq'⟩
      show (compileSimpleBacklog text simple cp).mem.itemCount = _
      rw [heq']
      simp only [backlogLoop_items, hzero]
      simp [total, startStk, backlogStk, initStk, hne]

/-- In every context of a run the stacks hold the items made, if no repetition
before has wrapped round. -/
theorem ctxAt_items : ∀ {n input : Nat} {cp : Context}, ctxAt g text n = some (input, cp) →
    ∃ stk index, Holds cp stk index ∧ total cp.stacks stk ≤ cp.mem.itemCount ∧
      (cp.mem.itemCount = total cp.stacks stk ↔
        ∀ m < n, ∀ r, ctxAt g text m = some r → ¬ WrappedRep text r.2) := by
  -- by induction on the turns; the balance holds as long as nothing has been lost
  intro n
  induction n with
  | zero =>
      intro input cp h
      unfold ctxAt at h
      split at h
      · next hloop =>
          split at h
          · cases h
          · next heos =>
              obtain ⟨rfl, rfl⟩ := Prod.mk.inj (Option.some.inj h)
              have hitems := loopStart_items hloop
              exact ⟨_, _, Holds.start hloop, Nat.le_of_eq hitems.symm, by simp [hitems]⟩
      · cases h
  | succ n ih =>
      intro input cp h
      rw [ctxAt, Option.bind_eq_some_iff] at h
      rcases h with ⟨⟨input', cp₁⟩, hprev, hnext⟩
      rcases nextCtx_eq_some.mp hnext with ⟨heos, herr, cp₂, hstep, hr⟩
      have hcp : cp = (lexInto text input' { cp₂ with lasttok := cp₂.tok }).2 :=
        congrArg Prod.snd hr
      have hmem : cp.mem = cp₂.mem := by
        rw [hcp]
        rfl
      have hstacks : cp.stacks = cp₂.stacks := by
        rw [hcp]
        rfl
      rcases ih hprev with ⟨stk, index, hholds, hle, hiff⟩
      rcases hholds.turn hstep input' with ⟨stk', index', hturn, _, hholds'⟩
      rcases hholds.layout with ⟨ids, hlay⟩
      rw [← hcp] at hholds'
      refine ⟨stk', index', hholds', ?_⟩
      rw [hmem, hstacks]
      by_cases hwrap : WrappedRep text cp₁
      · -- what is lost stays lost
        have hloses := hturn.loses hlay hstep hwrap
        refine ⟨by omega, ?_⟩
        constructor
        · intro heq
          omega
        · intro hall
          exact absurd hwrap (hall n (Nat.lt_succ_self n) _ hprev)
      · have hbalanced := hturn.balanced hlay hstep hwrap
        refine ⟨by omega, ?_⟩
        rw [show cp₂.mem.itemCount = total cp₂.stacks stk' ↔
          cp₁.mem.itemCount = total cp₁.stacks stk by omega, hiff]
        constructor
        · intro hall m hm r hr
          rcases Nat.lt_succ_iff_lt_or_eq.mp hm with hm | rfl
          · exact hall m hm r hr
          · rw [hprev] at hr
            cases hr
            exact hwrap
        · intro hall m hm
          exact hall m (Nat.lt_succ_of_lt hm)

/-- The last context of a run. -/
theorem Visited.items {input : Nat} {cp : Context} (h : Visited g text input cp)
    (hlast : nextCtx text (input, cp) = none) (hnot : ¬ WrappedRep text cp) :
    ∃ stk index, Holds cp stk index ∧ total cp.stacks stk ≤ cp.mem.itemCount ∧
      (cp.mem.itemCount = total cp.stacks stk ↔
        ∀ input' cp', Visited g text input' cp' → ¬ WrappedRep text cp') := by
  rcases visited_iff.mp h with ⟨n, hn⟩
  rcases ctxAt_items hn with ⟨stk, index, hholds, hle, hiff⟩
  refine ⟨stk, index, hholds, hle, hiff.trans ?_⟩
  constructor
  · intro hall input' cp' hvisit
    rcases visited_iff.mp hvisit with ⟨m, hm⟩
    have hend : ctxAt g text (n + 1) = none := by
      rw [ctxAt, hn]
      exact hlast
    rcases Nat.lt_succ_iff_lt_or_eq.mp (lt_of_ctxAt hm hend) with hlt | rfl
    · exact hall m hlt _ hm
    · rw [hn] at hm
      cases hm
      exact hnot
  · intro hall m _ r hr
    exact hall r.1 r.2 (visited_iff.mpr ⟨m, hr⟩)

end

end Rxvm
