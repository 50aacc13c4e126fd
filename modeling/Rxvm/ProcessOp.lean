import Rxvm.Layout

/-!
# Rxvm.ProcessOp — what process_op does

The operand is moved to the target with the literals in front of it and the
code of the operator around it; the buffer is emptied, and the base buffer is
the buffer again.
-/

namespace Rxvm

open Function Linked

/-! ## The operators -/

/-- What the target holds behind the operator `cp.tok`, where `s` is what it
holds in front of the operand `e`; `none` is `RXVM_BADOP`. -/
def opResult (text : List CChar) (cp : Context) (s : Stk) (e : List Inst) : Option Stk :=
  match cp.tok with
  | .rep =>
    let (repN, repM) := parseRep text cp.statics.lex.lp1 cp.statics.lex.lpn
    (repCode e repN repM).map s.append
  | .one => some (s.append (oneCode e))
  | .zero => some (s.append (zeroCode e))
  | .onezero => some (s.append (onezeroCode e))
  | .alt => some (s.append e).alt
  | _ => some s

/-- Whether the operator shortens the fixed substring. -/
def opDecs (text : List CChar) (cp : Context) : Bool :=
  match cp.tok with
  | .rep =>
    let (repN, repM) := parseRep text cp.statics.lex.lp1 cp.statics.lex.lpn
    repDecs repN repM
  | .zero | .onezero => true
  | _ => false

/-- The statics the `switch` of `process_op` leaves. -/
def opStatics (text : List CChar) (cp : Context) : Statics :=
  { cp.statics with
    lfix := if opDecs text cp then cp.statics.lfix.lfixDec else cp.statics.lfix
    altSeen := cp.statics.altSeen || decide (cp.tok = .alt ∧ cp.depth = 0) }

theorem attach_capped (s : Stk) : s.attach.capped = s.capped := by
  unfold Stk.attach
  split <;> rfl

theorem alt_capped (s : Stk) : s.alt.capped = s.capped := attach_capped s

theorem opResult_capped {text : List CChar} {cp : Context} {s s' : Stk} {e : List Inst}
    (h : opResult text cp s e = some s') : s'.capped = s.capped := by
  unfold opResult at h
  split at h
  · rcases Option.map_eq_some_iff.mp h with ⟨c, _, rfl⟩
    rfl
  · obtain rfl := Option.some.inj h
    rfl
  · obtain rfl := Option.some.inj h
    rfl
  · obtain rfl := Option.some.inj h
    rfl
  · obtain rfl := Option.some.inj h
    exact alt_capped _
  · obtain rfl := Option.some.inj h
    rfl

section

variable {text : List CChar} {cp : Context} {live : Set StackId} {ids : StackId → List ItemId}
  {stk : StackId → Stk} {rest : List ItemId} {e : List Inst}

/-- What the `switch` of `process_op` returns: `RXVM_BADOP`, with nothing
changed, or the context with `s` on the target. -/
def Switched (text : List CChar) (cp : Context) (live : Set StackId) (stk : StackId → Stk)
    (run : Coded) : Option Stk → Prop
  | none => run = .ok (some .badop, cp)
  | some s => ∃ m' ids' chained,
      run = .ok (none, { cp with mem := m', chained := chained, statics := opStatics text cp }) ∧
      Store m' live ids' (update stk cp.target s) [] [] ∧ Moved cp.mem m' cp.target

theorem OperatesOr.switched {run : Coded} {dec : Bool} {code : Option (List Inst)}
    (h : OperatesOr cp live stk run dec code) (hdec : dec = opDecs text cp)
    (halt : cp.tok ≠ .alt) :
    Switched text cp live stk run (code.map (stk cp.target).append) := by
  cases code with
  | none => exact h
  | some code =>
      rcases h with ⟨m', hrun, ⟨ids', hst⟩, hmoved⟩
      refine ⟨m', ids', cp.chained, ?_, hst, hmoved⟩
      rw [hrun, hdec]
      cases hd : opDecs text cp with
      | false => simp [Context.decIf, opStatics, hd, halt]
      | true => simp [Context.decIf, Context.lfixDec, opStatics, hd, halt]

/-- The `switch` of `process_op`, with the operand on its way. -/
theorem Moving.switch (h : Moving cp live ids stk rest e) :
    Switched text cp live stk (processOpSwitch text cp e.length rest.head?)
      (opResult text cp (stk cp.target) e) := by
  unfold processOpSwitch opResult
  cases htok : cp.tok with
  | rep =>
      have hdec : repDecs (parseRep text cp.statics.lex.lp1 cp.statics.lex.lpn).1
          (parseRep text cp.statics.lex.lp1 cp.statics.lex.lpn).2 = opDecs text cp := by
        simp only [opDecs, htok]
      exact (h.processOpRep _ _).switched hdec (by simp [htok])
  | one =>
      have hop : OperatesOr cp live stk _ false (some (oneCode e)) := EmitsOr.operates h.codeOne
      exact hop.switched (by simp only [opDecs, htok]) (by simp [htok])
  | zero =>
      have hop : OperatesOr cp live stk _ true (some (zeroCode e)) :=
        EmitsOr.operates_dec h.codeZero
      exact hop.switched (by simp only [opDecs, htok]) (by simp [htok])
  | onezero =>
      have hop : OperatesOr cp live stk _ true (some (onezeroCode e)) :=
        EmitsOr.operates_dec h.codeOnezero
      exact hop.switched (by simp only [opDecs, htok]) (by simp [htok])
  | alt =>
      rcases h.cat with ⟨m₁, hcat, ⟨ids₁, hst₁⟩, hmoved₁⟩
      have htarget : ({ cp with mem := m₁ } : Context).target ∈ live := h.target
      have hst₁' : Store ({ cp with mem := m₁ } : Context).mem live ids₁
          (update stk cp.target ((stk cp.target).append e)) [] [] := hst₁
      -- the operand goes to the target, and the alternative is made there
      rcases altTail_spec hst₁' htarget with
        ⟨m₂, ids₂, chained, htail, hst₂, hmoved₂⟩
      obtain ⟨n, hn⟩ : ∃ n, rest.head? = some n := by
        cases rest with
        | nil => exact absurd rfl h.nonempty
        | cons n rest => exact ⟨n, rfl⟩
      rw [hn] at hcat
      refine ⟨m₂, ids₂, chained, ?_, ?_, hmoved₁.trans hmoved₂⟩
      · simp only [hn, codeAlt_some hcat, htail]
        have hdec : opDecs text cp = false := by simp only [opDecs, htok]
        by_cases hd : cp.depth = 0
        · simp [bind, Except.bind, pure, Except.pure, opStatics, hdec, htok, hd]
        · simp [bind, Except.bind, pure, Except.pure, opStatics, hdec, htok, hd]
      · simpa using hst₂
  | _ =>
      have hop : OperatesOr cp live stk (pure (none, cp)) false (some []) :=
        ⟨cp.mem, rfl, h.lost⟩
      have hsw : Switched text cp live stk _ _ :=
        hop.switched (by simp only [opDecs, htok]) (by simp [htok])
      rwa [Option.map_some, Stk.append_nil] at hsw

end

section

variable {cp : Context} {closing : Bool} {ids : StackId → List ItemId} {stk : StackId → Stk}
  {index : Option Nat}

/-! ## The end of an operator -/

theorem processOpEnd_eq (cp : Context) :
    processOpEnd cp = { cp with
      mem := cp.mem.stackReset cp.buf
      groups := if cp.closing then cp.groups.tail else cp.groups
      buf := cp.base
      statics := { cp.statics with lfix := cp.statics.lfix.lfixStop } } := by
  unfold processOpEnd
  by_cases h : cp.lasttok = .rparen
  · simp [Context.lfixStop, Context.closing, h]
  · simp [Context.lfixStop, Context.closing, h]

/-- The stacks when an operator is done and `s` is what the target holds. -/
def operated (cp : Context) (stk : StackId → Stk) (s : Stk) : StackId → Stk :=
  update (update stk cp.target s) cp.buf { Stk.empty with capped := decide (cp.buf = cp.base) }

theorem operated_buf (cp : Context) (stk : StackId → Stk) (s : Stk) :
    (operated cp stk s cp.buf).code = [] := by
  simp [operated]

theorem operated_of_ne {k : StackId} {s : Stk} (hb : k ≠ cp.buf) (ht : k ≠ cp.target) :
    operated cp stk s k = stk k := by
  simp [operated, hb, ht]

theorem Layout.operated_target (h : Layout cp closing ids stk index) (s : Stk) :
    operated cp stk s cp.target = s := by
  simp [operated, h.buf_ne_target.symm]

/-- The layout an operator leaves. -/
theorem Layout.operate (h : Layout cp cp.closing ids stk index) {m' : Mem}
    {ids' : StackId → List ItemId} {s : Stk} (chained : Bool) (statics : Statics)
    (hst : Store m' (cp.live \ {cp.buf}) ids' (update stk cp.target s) [] [])
    (hmoved : Moved cp.mem m' cp.target) (hcap : s.capped = false) :
    ∃ ids'' index', Layout { cp with
      mem := m'.stackReset cp.buf
      groups := if cp.closing then cp.groups.tail else cp.groups
      buf := cp.base
      chained := chained
      statics := statics } false ids'' (operated cp stk s) index' := by
  -- the buffer of the operand goes back to the pool, or is the base, emptied
  have hlt : cp.buf < m'.stackCount := by
    rw [hmoved.stackCount]
    exact h.store.stack_lt _ h.buf_live
  have hd : (m'.stack cp.buf).danglingAlt = none := by
    rw [hmoved.stack _ h.buf_ne_target]
    exact h.buf_dangling
  have hreset := hst.reset hlt hd (decide (cp.buf = cp.base))
  have hgroups : ∀ k ∈ (if cp.closing then cp.groups.tail else cp.groups), k ∈ cp.groups := by
    intro k hk
    split at hk
    · exact List.mem_of_mem_tail hk
    · exact hk
  have hbase : cp.base ≠ cp.buf → operated cp stk s cp.base = stk cp.base :=
    fun e => operated_of_ne e h.target_ne_base.symm
  rcases exists_located cp.operand (update ids' cp.buf [] cp.base) with ⟨index', hloc⟩
  refine ⟨update ids' cp.buf [], index', ?_, ?_, ?_, ?_, ?_, hloc, ?_, ?_, ?_, ?_, by simp⟩
  · -- of the live stacks at most the buffer and the closed group are gone
    refine hreset.mono ?_
    intro k hk
    by_cases e : k = cp.buf
    · exact Or.inl e
    · refine Or.inr ⟨?_, e⟩
      have hk' : k ∈ cp.base :: cp.prog :: (if cp.closing then cp.groups.tail else cp.groups) := hk
      simp only [List.mem_cons] at hk'
      rcases hk' with hk' | hk' | hk'
      · rw [hk']
        exact Layout.base_live cp
      · rw [hk']
        exact Layout.prog_live cp
      · exact List.mem_cons_of_mem _ (List.mem_cons_of_mem _ (hgroups k hk'))
  · refine h.distinct.sublist ?_
    refine List.Sublist.cons_cons _ (List.Sublist.cons_cons _ ?_)
    show List.Sublist (if cp.closing then cp.groups.tail else cp.groups) cp.groups
    split
    · exact List.tail_sublist _
    · exact List.Sublist.refl _
  · -- behind a `)` the target is now that of the enclosing group
    by_cases hclosing : cp.closing = true
    · rcases (h.justClosed hclosing).1 with ⟨below, hg, ht⟩
      refine .opened ?_ (Or.inl rfl)
      simp only [hclosing, if_true, hg, List.tail_cons]
      exact ht
    · simp only [hclosing, Bool.false_eq_true, if_false]
      cases h.place with
      | opened ht _ => exact .opened ht (Or.inl rfl)
      | closed g below hg ht hb hj =>
          refine .closed g below hg ht (Or.inl rfl) ?_
          -- a group of an earlier `)` is not the target, so its jumps are as they were
          by_cases e : g = cp.buf
          · rw [e]
            simp [operated]
          · rw [operated_of_ne e]
            · exact hj
            · rintro rfl
              have hnodup := h.groups_nodup
              rw [hg] at hnodup
              simp only [List.nodup_cons, List.mem_cons, not_or] at hnodup
              have hmem := headD_mem below cp.prog
              rw [← ht] at hmem
              rcases List.mem_cons.mp hmem with e' | hmem
              · exact hnodup.1.1 e'.symm
              · exact hnodup.2.1 hmem
  · show (operated cp stk s cp.base).jmp = none
    by_cases e : cp.base = cp.buf
    · rw [e]
      simp [operated]
    · rw [hbase e]
      exact h.baseJmp
  · show (operated cp stk s cp.base).jmp = none
    by_cases e : cp.base = cp.buf
    · rw [e]
      simp [operated]
    · rw [hbase e]
      exact h.baseJmp
  · -- no operand is left: the base was empty already, or has been emptied
    intro hnone
    show (operated cp stk s cp.base).code = [] ∧ (operated cp stk s cp.base).code = []
    rw [and_self]
    by_cases e : cp.base = cp.buf
    · rw [e]
      exact operated_buf cp stk s
    · rw [hbase e]
      exact (h.null hnone).2
  · show (operated cp stk s cp.base).capped = true
    by_cases e : cp.base = cp.buf
    · simp [operated, e]
    · rw [hbase e]
      exact h.capBase
  · intro _
    show (operated cp stk s cp.base).capped = true
    by_cases e : cp.base = cp.buf
    · simp [operated, e]
    · rw [hbase e]
      exact h.capBase
  · -- only the base is capped
    intro k hk hne
    have hk' : k ∈ cp.prog :: cp.groups := by
      rcases List.mem_cons.mp hk with hk | hk
      · rw [hk]
        exact List.mem_cons_self
      · exact List.mem_cons_of_mem _ (hgroups k hk)
    show (operated cp stk s k).capped = false
    by_cases e : k = cp.buf
    · have hkb : cp.buf ≠ cp.base := fun e' => hne (e.trans e')
      rw [e]
      simp [operated, hkb]
    · by_cases e' : k = cp.target
      · rw [e', h.operated_target]
        exact hcap
      · rw [operated_of_ne e e']
        exact h.uncapped k hk' e

/-! ## The whole of process_op -/

/-- A context in which an operator has put `s` on the target. -/
def Operated (text : List CChar) (cp : Context) (stk : StackId → Stk) (s : Stk) (run : Coded) :
    Prop :=
  ∃ m' ids' index' chained,
    run = .ok (none, { cp with
      mem := m'
      groups := if cp.closing then cp.groups.tail else cp.groups
      buf := cp.base
      chained := chained
      statics := { opStatics text cp with lfix := (opStatics text cp).lfix.lfixStop } }) ∧
    Layout { cp with
      mem := m'
      groups := if cp.closing then cp.groups.tail else cp.groups
      buf := cp.base
      chained := chained
      statics := { opStatics text cp with lfix := (opStatics text cp).lfix.lfixStop } }
      false ids' (operated cp stk s) index'

/-- `process_op` has failed: what stood in front of the operand, at `i`, is on
the target already, and the buffer still points to it. -/
def Abandoned (cp : Context) (ids : StackId → List ItemId) (stk : StackId → Stk) (i : Nat)
    (run : Coded) : Prop :=
  ∃ m', run = .ok (some .badop, { cp with mem := m' }) ∧
    Store m' (cp.live \ {cp.buf})
      (update ids cp.target (ids cp.target ++ (ids cp.buf).take i))
      (update stk cp.target ((stk cp.target).append ((stk cp.buf).code.take i)))
      ((ids cp.buf).drop i) ((stk cp.buf).code.drop i) ∧
    Moved cp.mem m' cp.target ∧
    ∀ x ∉ (ids cp.buf).take i, (m'.item x).next = (cp.mem.item x).next

/-- The call of the `switch` for an empty buffer. -/
theorem processOp_headless {text : List CChar} {cp cp' : Context} (h : cp.bufStack.head = none)
    (htok : cp.tok = .alt)
    (hsw : ∀ size, processOpSwitch text cp size none = .ok (none, cp')) :
    processOp text cp = .ok (none, processOpEnd cp') := by
  rw [processOp, if_pos h, if_pos htok]
  simp only [hsw, bind, Except.bind]
  rfl

theorem processOp_switch {text : List CChar} {cp cp' : Context} {m : Mem} {size : Nat}
    {err : Option Err} (h : cp.bufStack.head ≠ none)
    (hwalk : walkToOperand cp.target cp.operand (cp.mem.itemCount + 1) cp.mem
      cp.bufStack.tail cp.bufStack.size = .ok (m, size))
    (hsw : processOpSwitch text { cp with mem := m } size cp.operand = .ok (err, cp')) :
    processOp text cp = .ok (err, if err = none then processOpEnd cp' else cp') := by
  rw [processOp, if_neg h]
  simp only [hwalk, hsw, bind, Except.bind]
  cases err <;> rfl

theorem processOp_fault {text : List CChar} {cp : Context} {e : Stop}
    (h : cp.bufStack.head ≠ none)
    (hwalk : walkToOperand cp.target cp.operand (cp.mem.itemCount + 1) cp.mem
      cp.bufStack.tail cp.bufStack.size = .error e) :
    processOp text cp = .error e := by
  rw [processOp, if_neg h]
  simp only [hwalk, bind, Except.bind]

/-- Without items in the buffer only an alternation goes through. -/
theorem processOp_empty (text : List CChar) (h : Layout cp cp.closing ids stk index)
    (hbuf : (stk cp.buf).code = []) :
    if cp.tok = .alt then Operated text cp stk (stk cp.target).alt (processOp text cp)
    else processOp text cp = .ok (some .badop, cp) := by
  have hhead : cp.bufStack.head = none := (h.store.shows _ h.buf_live).head_none_iff.mpr hbuf
  by_cases htok : cp.tok = .alt
  · rw [if_pos htok]
    have hlive : cp.target ∈ cp.live \ {cp.buf} := ⟨h.target_live, h.buf_ne_target.symm⟩
    have hst : Store cp.mem (cp.live \ {cp.buf}) ids stk [] [] := h.store.mono fun _ hk => hk.1
    rcases altTail_spec hst hlive with ⟨m', ids', chained, htail, hst', hmoved⟩
    have hcap : (stk cp.target).alt.capped = false := by
      rw [alt_capped]
      exact h.target_uncapped
    have hsw : ∀ size, processOpSwitch text cp size none = .ok (none,
        { cp with mem := m', chained := chained, statics := opStatics text cp }) := by
      intro size
      have hdec : opDecs text cp = false := by simp only [opDecs, htok]
      simp only [processOpSwitch, htok, codeAlt_none, htail]
      by_cases hd : cp.depth = 0
      · simp [bind, Except.bind, pure, Except.pure, opStatics, hdec, htok, hd]
      · simp [bind, Except.bind, pure, Except.pure, opStatics, hdec, htok, hd]
    rcases h.operate chained { opStatics text cp with
      lfix := (opStatics text cp).lfix.lfixStop } hst' hmoved hcap with ⟨ids'', index', hlay⟩
    refine ⟨m'.stackReset cp.buf, ids'', index', chained, ?_, hlay⟩
    rw [processOp_headless hhead htok hsw, processOpEnd_eq]
    rfl
  · rw [if_neg htok, processOp, if_pos hhead, if_neg htok]
    rfl

/-- The items from the operand on are what the loop of `process_op` leaves in
the buffer. -/
theorem Layout.walk (h : Layout cp cp.closing ids stk (some i)) :
    ∃ m', walkToOperand cp.target cp.operand (cp.mem.itemCount + 1) cp.mem
        cp.bufStack.tail cp.bufStack.size = .ok (m', ((stk cp.buf).code.drop i).length) ∧
      Moving { cp with mem := m' } (cp.live \ {cp.buf})
        (update ids cp.target (ids cp.target ++ (ids cp.buf).take i))
        (update stk cp.target ((stk cp.target).append ((stk cp.buf).code.take i)))
        ((ids cp.buf).drop i) ((stk cp.buf).code.drop i) ∧
      cp.operand = ((ids cp.buf).drop i).head? ∧ Moved cp.mem m' cp.target ∧
      ∀ x ∉ (ids cp.buf).take i, (m'.item x).next = (cp.mem.item x).next := by
  have hbuf := h.store.shows _ h.buf_live
  rcases h.located.found i rfl with ⟨n, hn, hget⟩
  have hlt : i < (ids cp.buf).length := (List.getElem?_eq_some_iff.mp hget).1
  -- the operand is at place `i`, so the loop stops after the items before it
  have hoper : cp.operand = ((ids cp.buf).drop i).head? := by
    rw [hn, List.head?_drop, hget]
  have hne : (ids cp.buf).drop i ≠ [] := by
    intro e
    have := List.drop_eq_nil_iff.mp e
    omega
  have hst := h.store.detach h.buf_live
  rw [← List.take_append_drop i (ids cp.buf), ← List.take_append_drop i (stk cp.buf).code] at hst
  have hlen : ((ids cp.buf).take i).length = ((stk cp.buf).code.take i).length := by
    simp [hbuf.code_length]
  have hlive : cp.target ∈ cp.live \ {cp.buf} := ⟨h.target_live, h.buf_ne_target.symm⟩
  -- it takes no more turns than there are items
  have hfuel : ((ids cp.buf).take i).length < cp.mem.itemCount + 1 := by
    have := hst.rest_length
    rw [List.length_append] at this
    omega
  -- the deepest item of the buffer has nothing below, also where it moves first
  have hbottom : ids cp.target = [] →
      ∀ n ∈ ((ids cp.buf).take i ++ (ids cp.buf).drop i).head?, (cp.mem.item n).next = none := by
    intro _
    rw [List.take_append_drop]
    exact hbuf.bottom
  rcases walkToOperand_moves cp.bufStack.size hst hlen hlive hne hfuel hbottom
    h.target_uncapped with ⟨m', hrun, hst', hmoved, hnext⟩
  refine ⟨m', ?_, ⟨hst', hlive, fun hk => hk.2 rfl, ?_, hne, ?_, ?_⟩, hoper, hmoved, hnext⟩
  · -- `next` of the last item moved is what the loop takes for the new tail
    have htail : cp.bufStack.tail = ((ids cp.buf).take i ++ (ids cp.buf).drop i).head? := by
      rw [List.take_append_drop]
      exact hbuf.tail
    have hsize : cp.bufStack.size - ((ids cp.buf).take i).length =
        ((stk cp.buf).code.drop i).length := by
      have : cp.bufStack.size = (ids cp.buf).length := hbuf.size
      rw [this, List.length_take, List.length_drop, ← hbuf.code_length]
      omega
    rw [hoper, htail, hrun, hsize]
  · -- the head stays: it is the operand or stands above it
    show (m'.stack cp.buf).head = _
    rw [hmoved.stack _ h.buf_ne_target, hbuf.head, List.getLast?_drop, if_neg (by omega)]
  · intro hnil
    have hnil' : ids cp.target ++ (ids cp.buf).take i = [] := by simpa using hnil
    have hpre : (ids cp.buf).take i = [] := (List.append_eq_nil_iff.mp hnil').2
    intro x hx
    rw [hnext x (by simp [hpre])]
    have hx' : x ∈ (ids cp.buf).head? := by
      have := List.take_append_drop i (ids cp.buf)
      rw [hpre, List.nil_append] at this
      rwa [this] at hx
    exact hbuf.bottom x hx'
  · simpa using h.target_uncapped

theorem Layout.head_ne_none (h : Layout cp cp.closing ids stk (some i)) :
    cp.bufStack.head ≠ none := by
  have hbuf := h.store.shows _ h.buf_live
  rcases h.located.found i rfl with ⟨n, _, hget⟩
  intro hnone
  have hcode := hbuf.head_none_iff.mp hnone
  have hlen := hbuf.code_length
  rw [hcode, List.length_nil] at hlen
  have hlt := (List.getElem?_eq_some_iff.mp hget).1
  omega

/-- `process_op` with the operand at index `i` of the buffer. -/
theorem processOp_found (text : List CChar) (h : Layout cp cp.closing ids stk (some i)) :
    match opResult text cp ((stk cp.target).append ((stk cp.buf).code.take i))
      ((stk cp.buf).code.drop i) with
    | none => Abandoned cp ids stk i (processOp text cp)
    | some s => Operated text cp stk s (processOp text cp) := by
  rcases h.walk with ⟨m', hwalk, hmoving, hoper, hmoved, hnext⟩
  have hswitch : Switched text _ _ _ _ _ := hmoving.switch
  have hstk : update stk cp.target ((stk cp.target).append ((stk cp.buf).code.take i))
      cp.target = (stk cp.target).append ((stk cp.buf).code.take i) := update_self _ _ _
  have hres : opResult text { cp with mem := m' } (update stk cp.target
      ((stk cp.target).append ((stk cp.buf).code.take i)) cp.target)
      ((stk cp.buf).code.drop i) =
      opResult text cp ((stk cp.target).append ((stk cp.buf).code.take i))
        ((stk cp.buf).code.drop i) := by
    rw [hstk]
    rfl
  -- the items that were in front of the operand are on the target by now
  simp only [hres] at hswitch
  rw [← hoper] at hswitch
  cases hopr : opResult text cp ((stk cp.target).append ((stk cp.buf).code.take i))
      ((stk cp.buf).code.drop i) with
  | none =>
      rw [hopr] at hswitch
      have hrun := processOp_switch h.head_ne_none hwalk hswitch
      rw [if_neg (by simp)] at hrun
      exact ⟨m', hrun, hmoving.store, hmoved, hnext⟩
  | some s =>
      rw [hopr] at hswitch
      rcases hswitch with ⟨m'', ids'', chained, hsw, hst, hmoved'⟩
      have hcap : s.capped = false := by
        rw [opResult_capped hopr]
        exact h.target_uncapped
      rw [update_idem] at hst
      rcases h.operate chained { opStatics text cp with
        lfix := (opStatics text cp).lfix.lfixStop } hst (hmoved.trans hmoved') hcap with
        ⟨ids₃, index', hlay⟩
      refine ⟨m''.stackReset cp.buf, ids₃, index', chained, ?_, hlay⟩
      rw [processOp_switch h.head_ne_none hwalk hsw, if_pos rfl, processOpEnd_eq]
      rfl

/-- With the operand in another stack `process_op` runs off the end of the
buffer. -/
theorem processOp_missing {text : List CChar} (h : Layout cp cp.closing ids stk none)
    (hbuf : (stk cp.buf).code ≠ []) : processOp text cp = .error .nullItem := by
  have hshows := h.store.shows _ h.buf_live
  have hhead : cp.bufStack.head ≠ none := fun e => hbuf (hshows.head_none_iff.mp e)
  have hclosing : cp.closing = false := by
    cases hc : cp.closing with
    | false => rfl
    | true => exact absurd ((h.justClosed hc).2.2 hbuf) (by simp)
  obtain ⟨o, ho⟩ : ∃ o, cp.operand = some o := by
    cases hoper : cp.operand with
    | none => exact absurd (h.null hoper).1 hbuf
    | some o => exact ⟨o, rfl⟩
  have hst := h.store.detach h.buf_live
  have hne : ids cp.buf ≠ [] := by
    intro e
    have := hshows.code_length
    rw [e] at this
    exact hbuf (List.length_eq_zero_iff.mp this.symm)
  have hlive : cp.target ∈ cp.live \ {cp.buf} := ⟨h.target_live, h.buf_ne_target.symm⟩
  have hfuel : (ids cp.buf).length < cp.mem.itemCount + 1 := Nat.lt_succ_of_le hst.rest_length
  have hrun := walkToOperand_runs_off cp.bufStack.size hst hlive hne hfuel
    (h.located.missing rfl o ho) (hshows.cap (h.capBuf (Or.inl hclosing)))
    (fun _ => hshows.bottom) h.target_uncapped
  refine processOp_fault hhead ?_
  have htail : cp.bufStack.tail = (ids cp.buf).head? := hshows.tail
  rw [ho, htail]
  exact hrun

end

end Rxvm
