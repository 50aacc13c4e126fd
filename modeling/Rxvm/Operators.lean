import Rxvm.Moves

/-!
# Rxvm.Operators — the code of the operators

What each emitter of `vmcode.c` puts on the target, as a function of the
operand's instructions, and that the emitters do put it there.
-/

namespace Rxvm

open Function Linked

/-! ## The code -/

/-- `n` copies of the operand. -/
def copies (e : List Inst) (n : Nat) : List Inst := (List.replicate n e).flatten

/-- `code_one`. -/
def oneCode (e : List Inst) : List Inst := e ++ [.opBranch (-(e.length : Int)) 1]

/-- `code_zero`. -/
def zeroCode (e : List Inst) : List Inst :=
  .opBranch 1 ((e.length : Int) + 2) :: e ++ [.opBranch (-(e.length : Int)) 1]

/-- `code_onezero`. -/
def onezeroCode (e : List Inst) : List Inst := .opBranch 1 ((e.length : Int) + 1) :: e

/-- The rounds of optional copies `code_rep_range` and `code_rep_less` end
with: a branch leads behind all of them. -/
def optionalCode (e : List Inst) : Nat → List Inst
  | 0 => []
  | rounds + 1 =>
    .opBranch 1 (((e.length : Int) + 1) * ((rounds : Int) + 1)) :: e ++ optionalCode e rounds

/-- `code_rep_n`, with a count that is not 0. -/
def repNCode (e : List Inst) (repN : Int) : List Inst := copies e ((repN - 1).toNat + 1)

/-- `code_rep_range`; `none` is `RXVM_BADOP`. -/
def repRangeCode (e : List Inst) (repN repM : Int) : Option (List Inst) :=
  if repN = repM then
    if repN = 0 then none else some (repNCode e repN)
  else if (repN = 0 ∧ repM = 1) ∨ (repN = 1 ∧ repM = 0) then
    some (onezeroCode e)
  else
    some (copies e (min repN repM).toNat ++
      optionalCode e (max repN repM - min repN repM).toNat)

/-- `code_rep_more`. -/
def repMoreCode (e : List Inst) (repN : Int) : List Inst :=
  copies e ((repN - 1).toNat + 1) ++ [.opBranch (-(e.length : Int)) 1]

/-- `code_rep_less`; `none` is `RXVM_BADOP`. -/
def repLessCode (e : List Inst) (repM : Int) : Option (List Inst) :=
  if repM = 0 then none
  else if repM = 1 then some (onezeroCode e)
  else some (optionalCode e repM.toNat)

/-- `process_op_rep`; `none` is `RXVM_BADOP`. The last case is not meant to be
reached: a count that has wrapped round leads there, and the operand is lost. -/
def repCode (e : List Inst) (repN repM : Int) : Option (List Inst) :=
  if repN ≥ 0 ∧ repM ≥ 0 then repRangeCode e repN repM
  else if repN > 0 ∧ repM = repFieldEmpty then some (repMoreCode e repN)
  else if repN = repFieldEmpty ∧ repM ≥ 0 then repLessCode e repM
  else if repN ≥ 0 ∧ repM = repNoField then
    if repN = 0 then none else some (repNCode e repN)
  else if repN = 0 ∧ repM = repFieldEmpty then some (zeroCode e)
  else some []

/-- The branch in front of the first alternative and the jump behind it. -/
def Stk.fork (s : Stk) : Stk :=
  { s with code := .opBranch 1 ((s.code.length : Int) + 2) :: s.code ++ [.opJmp 0],
           jmp := some (s.code.length + 1) }

/-- `code_alt`, on what the target holds with the operand. -/
def Stk.alt (s : Stk) : Stk := s.attach.fork

@[simp] theorem copies_zero (e : List Inst) : copies e 0 = [] := rfl

theorem copies_succ (e : List Inst) (n : Nat) : copies e (n + 1) = e ++ copies e n := by
  simp [copies, List.replicate_succ]

theorem copies_succ' (e : List Inst) (n : Nat) : copies e (n + 1) = copies e n ++ e := by
  simp [copies, List.replicate_succ']

/-! ## The emitters -/

/-- `cp->operand` and what follows it in the buffer, `rest`, are on their way
to the target. -/
structure Moving (cp : Context) (live : Set StackId) (ids : StackId → List ItemId)
    (stk : StackId → Stk) (rest : List ItemId) (e : List Inst) : Prop where
  store : Store cp.mem live ids stk rest e
  target : cp.target ∈ live
  buf : cp.buf ∉ live
  stop : (cp.mem.stack cp.buf).head = rest.getLast?
  nonempty : rest ≠ []
  bottom : ids cp.target = [] → ∀ n ∈ rest.head?, (cp.mem.item n).next = none
  uncapped : (stk cp.target).capped = false

/-- The target has taken over `code`; nothing is on its way any more. -/
structure Arrived (cp : Context) (live : Set StackId) (stk : StackId → Stk) (code : List Inst)
    (m' : Mem) : Prop where
  store : ∃ ids, Store m' live ids (update stk cp.target ((stk cp.target).append code)) [] []
  moved : Moved cp.mem m' cp.target

section

variable {cp : Context} {live : Set StackId} {ids : StackId → List ItemId}
  {stk : StackId → Stk} {rest : List ItemId} {e code : List Inst}

theorem Moving.buf_ne (h : Moving cp live ids stk rest e) : cp.buf ≠ cp.target :=
  fun hk => h.buf (hk ▸ h.target)

theorem Moving.length_pos (h : Moving cp live ids stk rest e) : 0 < e.length := by
  rw [h.store.rest_code_length]
  exact List.length_pos_iff.mpr h.nonempty

/-- `stack_add_inst_head` on the target. -/
theorem Moving.emit (h : Moving cp live ids stk rest e) (inst : Inst) :
    Moving (cp.emit inst) live (update ids cp.target (ids cp.target ++ [cp.mem.itemCount]))
        (update stk cp.target ((stk cp.target).append [inst])) rest e ∧
      Moved cp.mem (cp.emit inst).mem cp.target := by
  have hmoved : Moved cp.mem (cp.emit inst).mem cp.target := moved_addHead inst
  refine ⟨⟨h.store.addHead h.target inst, h.target, h.buf, ?_, h.nonempty, ?_, ?_⟩, hmoved⟩
  · rw [← h.stop]
    exact congrArg IrStack.head (hmoved.stack cp.buf h.buf_ne)
  · intro hnil
    have hcons : update ids cp.target (ids cp.target ++ [cp.mem.itemCount]) cp.target = [] := hnil
    simp at hcons
  · show (update stk cp.target ((stk cp.target).append [inst]) cp.target).capped = false
    simpa using h.uncapped

/-- `stack_dupe_from_item` on the target. -/
theorem Moving.dupe (h : Moving cp live ids stk rest e) :
    ∃ m' ids', cp.dupeOperand rest.head? = .ok { cp with mem := m' } ∧
      Moving { cp with mem := m' } live ids'
        (update stk cp.target ((stk cp.target).append e)) rest e ∧
      Moved cp.mem m' cp.target := by
  have hfuel : rest.length ≤ cp.mem.itemCount + 1 := Nat.le_succ_of_le h.store.rest_length
  have hstore : Store cp.mem live ids stk ([] ++ rest) ([] ++ e) := h.store
  rcases stackDupeFromItem_copies hstore rfl h.target h.nonempty hfuel with
    ⟨m', new, hrun, hnew, hst, hmoved⟩
  refine ⟨m', _, ?_, ⟨hst, h.target, h.buf, ?_, h.nonempty, ?_, ?_⟩, hmoved⟩
  · rw [Context.dupeOperand, Context.bufStack, h.stop, hrun]
    rfl
  · rw [← h.stop]
    exact congrArg IrStack.head (hmoved.stack cp.buf h.buf_ne)
  · intro hnil
    have hcons : update ids cp.target (ids cp.target ++ new) cp.target = [] := hnil
    simp [hnew] at hcons
  · show (update stk cp.target ((stk cp.target).append e) cp.target).capped = false
    simpa using h.uncapped

/-- `stack_cat_from_item` on the target. -/
theorem Moving.cat (h : Moving cp live ids stk rest e) :
    ∃ m', cp.catOperand rest.head? = .ok { cp with mem := m' } ∧ Arrived cp live stk e m' := by
  have hfuel : rest.length ≤ cp.mem.itemCount + 1 := Nat.le_succ_of_le h.store.rest_length
  rcases stackCatFromItem_moves h.store h.target h.nonempty hfuel h.bottom h.uncapped with
    ⟨m', hrun, hst, hmoved⟩
  refine ⟨m', ?_, ⟨_, hst⟩, hmoved⟩
  rw [Context.catOperand, Context.bufStack, h.stop, hrun]
  rfl

theorem Arrived.after {m₁ m₂ : Mem} {c₁ c₂ : List Inst} (hmoved : Moved cp.mem m₁ cp.target)
    (h : Arrived { cp with mem := m₁ } live
      (update stk cp.target ((stk cp.target).append c₁)) c₂ m₂) :
    Arrived cp live stk (c₁ ++ c₂) m₂ := by
  rcases h with ⟨⟨ids, hst⟩, hmoved'⟩
  refine ⟨⟨ids, ?_⟩, hmoved.trans hmoved'⟩
  simpa using hst

theorem Arrived.emit {m : Mem} (h : Arrived cp live stk code m) (hk : cp.target ∈ live)
    (inst : Inst) : Arrived cp live stk (code ++ [inst]) (m.stackAddInstHead cp.target inst).1 := by
  rcases h with ⟨⟨ids, hst⟩, hmoved⟩
  have hst' := hst.addHead hk inst
  rw [update_self, Stk.append_append, update_idem] at hst'
  exact ⟨⟨_, hst'⟩, hmoved.trans (moved_addHead inst)⟩

/-- A run of an emitter that succeeds, and puts `code` on the target. -/
def Emits (cp : Context) (live : Set StackId) (stk : StackId → Stk) (run : Coded)
    (code : List Inst) : Prop :=
  ∃ m', run = .ok (none, { cp with mem := m' }) ∧ Arrived cp live stk code m'

theorem Moving.codeOne (h : Moving cp live ids stk rest e) :
    Emits cp live stk (codeOne cp e.length rest.head?) (oneCode e) := by
  rcases h.cat with ⟨m, hrun, harr⟩
  refine ⟨_, ?_, harr.emit h.target _⟩
  rw [Rxvm.codeOne, hrun]
  rfl

theorem Moving.codeZero (h : Moving cp live ids stk rest e) :
    Emits cp live stk (codeZero cp e.length rest.head?) (zeroCode e) := by
  rcases h.emit (.opBranch 1 ((e.length : Int) + 2)) with ⟨h', hmoved⟩
  rcases h'.cat with ⟨m, hrun, harr⟩
  have harr' := (Arrived.after hmoved harr).emit h.target (.opBranch (-(e.length : Int)) 1)
  refine ⟨_, ?_, by simpa [zeroCode] using harr'⟩
  rw [Rxvm.codeZero, hrun]
  rfl

theorem Moving.codeOnezero (h : Moving cp live ids stk rest e) :
    Emits cp live stk (codeOnezero cp e.length rest.head?) (onezeroCode e) := by
  rcases h.emit (.opBranch 1 ((e.length : Int) + 1)) with ⟨h', hmoved⟩
  rcases h'.cat with ⟨m, hrun, harr⟩
  refine ⟨m, ?_, by simpa [onezeroCode] using Arrived.after hmoved harr⟩
  rw [Rxvm.codeOnezero, hrun]
  rfl

theorem Moving.dupeTimes : ∀ (n : Nat) {cp : Context} {ids : StackId → List ItemId}
    {stk : StackId → Stk}, Moving cp live ids stk rest e →
    ∃ m' ids', Context.dupeTimes rest.head? n cp = .ok { cp with mem := m' } ∧
      Moving { cp with mem := m' } live ids'
        (update stk cp.target ((stk cp.target).append (copies e n))) rest e ∧
      Moved cp.mem m' cp.target := by
  intro n
  induction n with
  | zero =>
      intro cp ids stk h
      refine ⟨cp.mem, ids, rfl, ?_, Moved.refl _ _⟩
      simpa using h
  | succ n ih =>
      intro cp ids stk h
      rcases h.dupe with ⟨m₁, ids₁, hrun₁, h₁, hmoved₁⟩
      rcases ih h₁ with ⟨m₂, ids₂, hrun₂, h₂, hmoved₂⟩
      refine ⟨m₂, ids₂, ?_, ?_, hmoved₁.trans hmoved₂⟩
      · rw [Context.dupeTimes, hrun₁]
        exact hrun₂
      · simpa [copies_succ] using h₂

theorem Moving.codeRepN (h : Moving cp live ids stk rest e) {repN : Int} (hN : repN ≠ 0) :
    Emits cp live stk (codeRepN cp repN rest.head?) (repNCode e repN) := by
  rcases Moving.dupeTimes (repN - 1).toNat h with ⟨m₁, ids₁, hrun₁, h₁, hmoved₁⟩
  rcases h₁.cat with ⟨m₂, hrun₂, harr⟩
  refine ⟨m₂, ?_, ?_⟩
  · rw [Rxvm.codeRepN, if_neg hN, hrun₁]
    show (do let cp ← Context.catOperand { cp with mem := m₁ } rest.head?; return (none, cp)) = _
    rw [hrun₂]
    rfl
  · rw [repNCode, copies_succ']
    exact Arrived.after hmoved₁ harr

theorem Moving.codeRepMore (h : Moving cp live ids stk rest e) (repN : Int) :
    Emits cp live stk (codeRepMore cp repN e.length rest.head?) (repMoreCode e repN) := by
  rcases Moving.dupeTimes (repN - 1).toNat h with ⟨m₁, ids₁, hrun₁, h₁, hmoved₁⟩
  rcases h₁.cat with ⟨m₂, hrun₂, harr⟩
  have harr' := (Arrived.after hmoved₁ harr).emit h.target (.opBranch (-(e.length : Int)) 1)
  refine ⟨_, ?_, by rw [repMoreCode, copies_succ']; exact harr'⟩
  rw [Rxvm.codeRepMore, hrun₁]
  show (do
    let cp ← Context.catOperand { cp with mem := m₁ } rest.head?
    return (none, cp.emit (.opBranch (-(e.length : Int)) 1))) = _
  rw [hrun₂]
  rfl

theorem Moving.codeOptional : ∀ (rounds : Nat) {cp : Context} {ids : StackId → List ItemId}
    {stk : StackId → Stk}, Moving cp live ids stk rest e →
    ∃ m', codeOptional e.length rest.head? (rounds + 1) cp = .ok { cp with mem := m' } ∧
      Arrived cp live stk (optionalCode e (rounds + 1)) m' := by
  intro rounds
  induction rounds with
  | zero =>
      intro cp ids stk h
      rcases h.emit (.opBranch 1 (((e.length : Int) + 1) * (((0 : Nat) : Int) + 1))) with
        ⟨h', hmoved⟩
      rcases h'.cat with ⟨m, hrun, harr⟩
      refine ⟨m, ?_, by simpa [optionalCode] using Arrived.after hmoved harr⟩
      simp only [Rxvm.codeOptional, if_true]
      rw [hrun]
      rfl
  | succ rounds ih =>
      intro cp ids stk h
      rcases h.emit (.opBranch 1 (((e.length : Int) + 1) * (((rounds + 1 : Nat) : Int) + 1))) with
        ⟨h', hmoved⟩
      rcases h'.dupe with ⟨m₁, ids₁, hrun₁, h₁, hmoved₁⟩
      rcases ih h₁ with ⟨m₂, hrun₂, harr⟩
      refine ⟨m₂, ?_, ?_⟩
      · rw [Rxvm.codeOptional, if_neg (Nat.succ_ne_zero rounds)]
        simp only [hrun₁]
        exact hrun₂
      · have harr' := Arrived.after hmoved (Arrived.after hmoved₁ harr)
        simpa [optionalCode] using harr'

/-- What is left of the operand when no code is made for it. -/
theorem Moving.lost (h : Moving cp live ids stk rest e) : Arrived cp live stk [] cp.mem := by
  have hst : Store cp.mem live ids stk (rest ++ []) (e ++ []) := by simpa using h.store
  refine ⟨⟨ids, ?_⟩, Moved.refl _ _⟩
  simpa using hst.leave h.store.rest_code_length.symm

/-- What `code_rep_range` and its like return for a code that may be missing:
`RXVM_BADOP`, with the operand still on its way, or the code on the target. -/
def EmitsOr (cp : Context) (live : Set StackId) (stk : StackId → Stk) (run : Coded) :
    Option (List Inst) → Prop
  | none => run = .ok (some .badop, cp)
  | some code => Emits cp live stk run code

theorem Moving.codeRepRange (h : Moving cp live ids stk rest e) {repN repM : Int} :
    EmitsOr cp live stk (codeRepRange cp repN repM e.length rest.head?)
      (repRangeCode e repN repM) := by
  unfold Rxvm.codeRepRange repRangeCode
  by_cases heq : repN = repM
  · rw [if_pos heq, if_pos heq]
    by_cases h0 : repN = 0
    · rw [if_pos h0]
      show Rxvm.codeRepN cp repN rest.head? = .ok (some .badop, cp)
      rw [Rxvm.codeRepN, if_pos h0]
    · rw [if_neg h0]
      exact h.codeRepN h0
  · rw [if_neg heq, if_neg heq]
    by_cases hone : (repN = 0 ∧ repM = 1) ∨ (repN = 1 ∧ repM = 0)
    · rw [if_pos hone, if_pos hone]
      exact h.codeOnezero
    · rw [if_neg hone, if_neg hone]
      obtain ⟨rounds, hrounds⟩ :
          ∃ r, (max repN repM - min repN repM).toNat = r + 1 :=
        ⟨(max repN repM - min repN repM).toNat - 1, by omega⟩
      rcases Moving.dupeTimes (min repN repM).toNat h with ⟨m₁, ids₁, hrun₁, h₁, hmoved₁⟩
      rcases Moving.codeOptional rounds h₁ with ⟨m₂, hrun₂, harr⟩
      refine ⟨m₂, ?_, ?_⟩
      · simp only [hrun₁, hrounds]
        show (do
          let cp ← Rxvm.codeOptional e.length rest.head? (rounds + 1) { cp with mem := m₁ }
          return (none, cp)) = _
        rw [hrun₂]
        rfl
      · rw [hrounds]
        exact Arrived.after hmoved₁ harr

theorem Moving.codeRepLess (h : Moving cp live ids stk rest e) {repM : Int} (hM : 0 ≤ repM) :
    EmitsOr cp live stk (codeRepLess cp repM e.length rest.head?) (repLessCode e repM) := by
  unfold Rxvm.codeRepLess repLessCode
  by_cases h0 : repM = 0
  · rw [if_pos h0, if_pos h0]
    rfl
  · rw [if_neg h0, if_neg h0]
    by_cases h1 : repM = 1
    · rw [if_pos h1, if_pos h1]
      exact h.codeOnezero
    · rw [if_neg h1, if_neg h1]
      obtain ⟨rounds, hrounds⟩ : ∃ r, repM.toNat = r + 1 := ⟨repM.toNat - 1, by omega⟩
      rcases Moving.codeOptional rounds h with ⟨m, hrun, harr⟩
      refine ⟨m, ?_, by rw [hrounds]; exact harr⟩
      simp only [hrounds, hrun]
      rfl

end

/-! ## code_alt -/

/-- What `code_alt` does once the operand is on the target. -/
def altTail (cp : Context) : Context :=
  let cp := if cp.targetStack.dsize ≠ 0 ∧ cp.chained = false then
    { cp with chained := true } else cp
  let cp := attachDanglingAlt cp
  let inst := Inst.opBranch 1 (cp.targetStack.size + 2)
  let cp := { cp with mem := (cp.mem.stackAddInstTail cp.target inst).1 }
  let (m, jmp) := cp.mem.stackAddInstHead cp.target (.opJmp 0)
  let s := m.stack cp.target
  { cp with mem := m.setStack cp.target { s with danglingAlt := some jmp, dsize := s.size } }

theorem codeAlt_none (cp : Context) : codeAlt cp none = .ok (none, altTail cp) := rfl

theorem codeAlt_some {cp cp' : Context} {n : ItemId} (h : cp.catOperand (some n) = .ok cp') :
    codeAlt cp (some n) = .ok (none, altTail cp') := by
  rw [codeAlt, if_neg (by simp), h]
  rfl

section

variable {cp : Context} {live : Set StackId} {ids : StackId → List ItemId}
  {stk : StackId → Stk}

theorem altTail_spec (h : Store cp.mem live ids stk [] []) (hk : cp.target ∈ live) :
    ∃ m' ids' chained, altTail cp = { cp with mem := m', chained := chained } ∧
      Store m' live ids' (update stk cp.target (stk cp.target).alt) [] [] ∧
      Moved cp.mem m' cp.target := by
  -- whether the flag of the chain is set depends on the jump before
  obtain ⟨chained, hch⟩ : ∃ chained, (if cp.targetStack.dsize ≠ 0 ∧ cp.chained = false then
      { cp with chained := true } else cp) = { cp with chained := chained } := by
    split
    · exact ⟨true, rfl⟩
    · exact ⟨cp.chained, rfl⟩
  have h₁ : Store ({ cp with chained := chained } : Context).mem live ids stk [] [] := h
  rcases h₁.attach hk with ⟨m₂, hattach, h₂, hstack₂, hitems₂, hstacks₂⟩
  -- the jump of the alternative before is completed first
  set s := (stk cp.target).attach with hs
  have hsize : (m₂.stack cp.target).size = s.code.length := by
    have := (h₂.shows _ hk).size_eq
    simpa using this
  have hjmp : s.jmp = none := by
    rw [hs, Stk.attach]
    split
    · next hj => exact hj
    · rfl
  -- the fork goes in front of all, the jump behind all
  rcases h₂.addTail hk (by simpa using hjmp) (.opBranch 1 ((s.code.length : Int) + 2)) with
    ⟨h₃, hstack₃, hitems₃, hstacks₃⟩
  set m₃ := (m₂.stackAddInstTail cp.target (.opBranch 1 ((s.code.length : Int) + 2))).1
  have h₄ := h₃.addHead hk (.opJmp 0)
  have hmoved₄ : Moved m₃ (m₃.stackAddInstHead cp.target (.opJmp 0)).1 cp.target := moved_addHead _
  set m₄ := (m₃.stackAddInstHead cp.target (.opJmp 0)).1
  -- the jump is left dangling at the head of the stack
  set m₅ := m₄.setStack cp.target { m₄.stack cp.target with
    danglingAlt := some m₃.itemCount, dsize := (m₄.stack cp.target).size }
  have h₅ : ∃ ids', Store m₅ live ids' (update stk cp.target (stk cp.target).alt) [] [] := by
    have hdangle := h₄.dangle hk (update_self _ _ _)
      (c := .opBranch 1 ((s.code.length : Int) + 2) :: s.code) (i := .opJmp 0) (by simp)
    simp only [update_idem, update_self] at hdangle
    exact ⟨_, hdangle⟩
  rcases h₅ with ⟨ids', h₅⟩
  refine ⟨m₅, ids', chained, ?_, h₅, ?_, ?_, ?_⟩
  · unfold altTail
    simp only [hch, hattach]
    have hsize' : (({ cp with chained := chained, mem := m₂ } : Context).targetStack.size : Int) =
        s.code.length := congrArg Nat.cast hsize
    simp only [hsize']
    rfl
  · intro k' hne
    have hstack₅ : m₅.stack k' = m₄.stack k' := by simp [m₅, Mem.setStack, hne]
    rw [hstack₅, hmoved₄.stack k' hne, hstack₃ k' hne, hstack₂ k' hne]
  · have := hmoved₄.itemCount
    have hitems₂' : m₂.itemCount = cp.mem.itemCount := hitems₂
    show cp.mem.itemCount ≤ m₄.itemCount
    omega
  · show m₄.stackCount = cp.mem.stackCount
    rw [hmoved₄.stackCount, hstacks₃, hstacks₂]

end

/-! ## process_op -/

/-- The operators that make their operand optional shorten the fixed
substring; `code_rep_range` is not among them. -/
def repDecs (repN repM : Int) : Bool :=
  decide ((repN = repFieldEmpty ∧ repM ≥ 0) ∨ (repN = 0 ∧ repM = repFieldEmpty))

/-- `lfix_dec ()` where the flag says so. -/
def Context.decIf (b : Bool) (cp : Context) : Context := if b then cp.lfixDec else cp

/-- The result of an operator other than the alternation: `RXVM_BADOP`, or the
code on the target and the counters of the fixed substring. -/
def OperatesOr (cp : Context) (live : Set StackId) (stk : StackId → Stk) (run : Coded)
    (dec : Bool) : Option (List Inst) → Prop
  | none => run = .ok (some .badop, cp)
  | some code => ∃ m', run = .ok (none, ({ cp with mem := m' } : Context).decIf dec) ∧
      Arrived cp live stk code m'

section

variable {cp : Context} {live : Set StackId} {ids : StackId → List ItemId}
  {stk : StackId → Stk} {rest : List ItemId} {e code : List Inst}

theorem EmitsOr.operates {run : Coded} {code : Option (List Inst)}
    (h : EmitsOr cp live stk run code) : OperatesOr cp live stk run false code := by
  cases code with
  | none => exact h
  | some code => exact h

theorem EmitsOr.operates_dec {run : Coded} {code : Option (List Inst)}
    (h : EmitsOr cp live stk run code) :
    OperatesOr cp live stk
      (do
        let (err, cp) ← run
        return (err, if err = none then cp.lfixDec else cp)) true code := by
  cases code with
  | none =>
      have hrun : run = .ok (some .badop, cp) := h
      rw [hrun]
      rfl
  | some code =>
      rcases h with ⟨m', hrun, harr⟩
      refine ⟨m', ?_, harr⟩
      rw [hrun]
      rfl

theorem Moving.processOpRep (h : Moving cp live ids stk rest e) (repN repM : Int) :
    OperatesOr cp live stk (processOpRep cp repN repM e.length rest.head?) (repDecs repN repM)
      (repCode e repN repM) := by
  unfold Rxvm.processOpRep repCode
  -- the cases of `process_op_rep`, in its order
  by_cases h₁ : repN ≥ 0 ∧ repM ≥ 0
  · have hdec : repDecs repN repM = false := by
      refine decide_eq_false ?_
      simp only [repFieldEmpty]
      omega
    rw [if_pos h₁, if_pos h₁, hdec]
    exact h.codeRepRange.operates
  rw [if_neg h₁, if_neg h₁]
  by_cases h₂ : repN > 0 ∧ repM = repFieldEmpty
  · have hdec : repDecs repN repM = false := by
      refine decide_eq_false ?_
      simp only [repFieldEmpty] at h₂ ⊢
      omega
    rw [if_pos h₂, if_pos h₂, hdec]
    exact EmitsOr.operates (h.codeRepMore repN)
  rw [if_neg h₂, if_neg h₂]
  by_cases h₃ : repN = repFieldEmpty ∧ repM ≥ 0
  · have hdec : repDecs repN repM = true := by simp [repDecs, h₃]
    rw [if_pos h₃, if_pos h₃, hdec]
    exact (h.codeRepLess h₃.2).operates_dec
  rw [if_neg h₃, if_neg h₃]
  by_cases h₄ : repN ≥ 0 ∧ repM = repNoField
  · have hdec : repDecs repN repM = false := by
      refine decide_eq_false ?_
      simp only [repFieldEmpty, repNoField] at h₄ ⊢
      omega
    rw [if_pos h₄, if_pos h₄, hdec]
    -- `{0}` is refused where it is made
    by_cases h0 : repN = 0
    · rw [if_pos h0]
      show Rxvm.codeRepN cp repN rest.head? = .ok (some .badop, cp)
      rw [Rxvm.codeRepN, if_pos h0]
    · rw [if_neg h0]
      exact EmitsOr.operates (h.codeRepN h0)
  rw [if_neg h₄, if_neg h₄]
  by_cases h₅ : repN = 0 ∧ repM = repFieldEmpty
  · have hdec : repDecs repN repM = true := by simp [repDecs, h₅]
    rw [if_pos h₅, if_pos h₅, hdec]
    exact EmitsOr.operates_dec h.codeZero
  · -- no case: only of counts that the lexer does not give
    have hdec : repDecs repN repM = false := by
      refine decide_eq_false ?_
      tauto
    rw [if_neg h₅, if_neg h₅, hdec]
    exact ⟨cp.mem, rfl, h.lost⟩

end

end Rxvm
