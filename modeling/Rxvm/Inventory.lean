import Rxvm.Ownership

/-!
# Rxvm.Inventory — the items stage1 makes

Every item is counted where it is made and where it is held. An emitter puts
as many items on the target as it makes and takes over; so what the stacks of
a context hold grows with the items made, turn by turn. Only a repetition
whose counts have wrapped round takes items out of the buffer and puts them
nowhere.
-/

namespace Rxvm

open Function Linked

/-- The instructions on the stacks `l`. -/
def total (l : List StackId) (stk : StackId → Stk) : Nat :=
  (l.map fun k => (stk k).code.length).sum

/-- The stacks of a context. -/
def Context.stacks (cp : Context) : List StackId := cp.base :: cp.prog :: cp.groups

/-- The items on the stacks of a context, by their `size` fields. -/
def Context.held (cp : Context) : Nat := (cp.stacks.map fun k => (cp.mem.stack k).size).sum

/-- The counts `process_op_rep` has no case for. The lexer gives none of them,
but `parse_rep` may wrap round to one. -/
def RepNone (repN repM : Int) : Prop :=
  ¬ (repN ≥ 0 ∧ repM ≥ 0) ∧ ¬ (repN > 0 ∧ repM = repFieldEmpty) ∧
    ¬ (repN = repFieldEmpty ∧ repM ≥ 0) ∧ ¬ (repN ≥ 0 ∧ repM = repNoField) ∧
    ¬ (repN = 0 ∧ repM = repFieldEmpty)

instance (repN repM : Int) : Decidable (RepNone repN repM) :=
  inferInstanceAs (Decidable (_ ∧ _ ∧ _ ∧ _ ∧ _))

/-- A repetition whose counts have wrapped round. -/
def WrappedRep (text : List CChar) (cp : Context) : Prop :=
  cp.inCharc = false ∧ cp.tok = .rep ∧
    RepNone (parseRep text cp.statics.lex.lp1 cp.statics.lex.lpn).1
      (parseRep text cp.statics.lex.lp1 cp.statics.lex.lpn).2 ∧
    cp.bufStack.head ≠ none

instance (text : List CChar) (cp : Context) : Decidable (WrappedRep text cp) :=
  inferInstanceAs (Decidable (_ ∧ _ ∧ _ ∧ _))

/-! ## Sums over stacks -/

section

variable {l : List StackId} {stk stk' : StackId → Stk} {k : StackId} {s : Stk}

theorem total_congr (stk : StackId → Stk)
    (h : ∀ k ∈ l, (stk' k).code.length = (stk k).code.length) :
    total l stk' = total l stk := by
  unfold total
  rw [List.map_congr_left h]

theorem total_update_of_notMem (hk : k ∉ l) : total l (update stk k s) = total l stk := by
  refine total_congr stk fun k' hk' => ?_
  have hne : k' ≠ k := ne_of_mem_of_not_mem hk' hk
  rw [update_of_ne hne]

theorem total_cons : total (k :: l) stk = (stk k).code.length + total l stk := by
  simp [total]

/-- One stack changes. -/
theorem total_update (stk : StackId → Stk) (s : Stk) (hnodup : l.Nodup) (hk : k ∈ l) :
    total l (update stk k s) + (stk k).code.length = total l stk + s.code.length := by
  induction l with
  | nil => simp at hk
  | cons a l ih =>
      rcases List.nodup_cons.mp hnodup with ⟨ha, hnodup⟩
      rw [total_cons, total_cons]
      by_cases e : k = a
      · subst e
        rw [total_update_of_notMem ha, update_self]
        omega
      · have hmem : k ∈ l := (List.mem_cons.mp hk).resolve_left e
        have := ih hnodup hmem
        rw [update_of_ne (Ne.symm e)]
        omega

/-- The code of one stack goes behind that of another one, and the stack is
emptied. -/
theorem total_pour {k₁ k₂ : StackId} {s₁ s₂ : Stk} (hnodup : l.Nodup) (h₁ : k₁ ∈ l) (h₂ : k₂ ∈ l)
    (hne : k₁ ≠ k₂) (hs₁ : s₁.code.length = (stk k₁).code.length + (stk k₂).code.length)
    (hs₂ : s₂.code = []) : total l (update (update stk k₁ s₁) k₂ s₂) = total l stk := by
  have hfirst := total_update stk s₁ hnodup h₁
  have hsecond := total_update (update stk k₁ s₁) s₂ hnodup h₂
  rw [update_of_ne hne.symm, hs₂, List.length_nil] at hsecond
  omega

end

section

variable {cp cp' : Context} {closing : Bool} {ids : StackId → List ItemId} {stk : StackId → Stk}
  {index : Option Nat}

/-- The `size` fields of stacks that show their lists. -/
theorem Store.held (cp : Context) {live : Set StackId} {rest : List ItemId} {code : List Inst}
    (h : Store cp.mem live ids stk rest code) (hlive : cp.live ⊆ live) :
    cp.held = total cp.stacks stk := by
  unfold Context.held total
  have hsize : ∀ k ∈ cp.stacks, (cp.mem.stack k).size = (stk k).code.length :=
    fun k hk => (h.shows k (hlive hk)).size_eq
  rw [List.map_congr_left hsize]

theorem Layout.held (h : Layout cp closing ids stk index) : cp.held = total cp.stacks stk :=
  Store.held cp h.store (Set.Subset.refl _)

end

/-! ## The items made -/

section

variable {m m' : Mem} {k : StackId} {inst : Inst}

@[simp] theorem stackAddInstHead_items :
    (m.stackAddInstHead k inst).1.itemCount = m.itemCount + 1 := by
  simp [Mem.stackAddInstHead, Mem.createItem]

@[simp] theorem stackAddInstTail_items :
    (m.stackAddInstTail k inst).1.itemCount = m.itemCount + 1 := by
  simp only [Mem.stackAddInstTail, Mem.stackPointNewTail, Mem.createItem, Mem.setStack, Mem.setItem]
  split <;> rfl

theorem stackCat_items {k₁ k₂ : StackId} (h : m.stackCat k₁ k₂ = .ok m') :
    m'.itemCount = m.itemCount := by
  unfold Mem.stackCat at h
  simp only at h
  split at h
  · obtain rfl := Except.ok.inj h
    rfl
  · obtain rfl := Except.ok.inj h
    rfl
  · cases h
  · obtain rfl := Except.ok.inj h
    rfl

@[simp] theorem attachDanglingAlt_items (cp : Context) :
    (attachDanglingAlt cp).mem.itemCount = cp.mem.itemCount := by
  unfold attachDanglingAlt
  simp only
  split <;> rfl

theorem stackPointNewHead_items {i : Option ItemId} (h : m.stackPointNewHead k i = .ok m') :
    m'.itemCount = m.itemCount := by
  unfold Mem.stackPointNewHead at h
  split at h
  · obtain rfl := Except.ok.inj h
    exact linkHead_items
  · simp only at h
    split at h
    · obtain rfl := Except.ok.inj h
      rfl
    · cases h

/-- `stack_cat_from_item` makes no item. -/
theorem stackCatFromItem_items {stop : Option ItemId} : ∀ {fuel : Nat} {m : Mem}
    {i : Option ItemId}, stackCatFromItem k stop fuel m i = .ok m' →
    m'.itemCount = m.itemCount := by
  intro fuel
  -- by induction on the items that are moved
  induction fuel with
  | zero =>
      intro m i h
      cases h
  | succ fuel ih =>
      intro m i h
      rw [stackCatFromItem] at h
      cases hlink : m.stackPointNewHead k i with
      | error e =>
          rw [hlink] at h
          cases h
      | ok m₁ =>
          have hitems := stackPointNewHead_items hlink
          simp only [hlink, bind, Except.bind] at h
          split at h
          · obtain rfl := Except.ok.inj h
            exact hitems
          · split at h
            · cases h
            · rw [ih h, hitems]

/-- Nor does the loop of `process_op`. -/
theorem walkToOperand_items {operand : Option ItemId} : ∀ {fuel : Nat} {m : Mem}
    {i : Option ItemId} {size size' : Nat},
    walkToOperand k operand fuel m i size = .ok (m', size') → m'.itemCount = m.itemCount := by
  intro fuel
  induction fuel with
  | zero =>
      intro m i size size' h
      cases h
  | succ fuel ih =>
      intro m i size size' h
      rw [walkToOperand] at h
      split at h
      · cases h
        rfl
      · cases hlink : m.stackPointNewHead k i with
        | error e =>
            rw [hlink] at h
            cases h
        | ok m₁ =>
            simp only [hlink, bind, Except.bind] at h
            split at h
            · cases h
            · rw [ih h, stackPointNewHead_items hlink]

theorem linkHead_size {n : ItemId} : ((m.linkHead k n).stack k).size = (m.stack k).size + 1 := by
  cases h : (m.stack k).head with
  | none => rw [linkHead_of_none h]; simp [Mem.setStack]
  | some a => rw [linkHead_of_some h]; simp [Mem.setStack]

theorem stackAddInstHead_size :
    ((m.stackAddInstHead k inst).1.stack k).size = (m.stack k).size + 1 := by
  simp only [Mem.stackAddInstHead, linkHead_size]
  rfl

/-- `stack_dupe_from_item` makes what it puts on the stack. -/
theorem stackDupeFromItem_items {stop : Option ItemId} : ∀ {fuel : Nat} {m : Mem}
    {i : Option ItemId}, stackDupeFromItem k stop fuel m i = .ok m' →
    m'.itemCount + (m.stack k).size = m.itemCount + (m'.stack k).size := by
  intro fuel
  -- by induction on the items that are copied: one new item for each
  induction fuel with
  | zero =>
      intro m i h
      cases h
  | succ fuel ih =>
      intro m i h
      cases i with
      | none => cases h
      | some n =>
          rw [stackDupeFromItem] at h
          have hcount : (m.stackAddInstHead k (m.item n).data).1.itemCount = m.itemCount + 1 :=
            stackAddInstHead_items
          have hsize : ((m.stackAddInstHead k (m.item n).data).1.stack k).size =
              (m.stack k).size + 1 := stackAddInstHead_size
          split at h
          · obtain rfl := Except.ok.inj h
            omega
          · have := ih h
            omega

end

/-! ## The emitters -/

theorem copies_length (e : List Inst) (n : Nat) : (copies e n).length = n * e.length := by
  induction n with
  | zero => simp
  | succ n ih =>
      rw [copies_succ, List.length_append, ih]
      ring

theorem optionalCode_length (e : List Inst) (rounds : Nat) :
    (optionalCode e rounds).length = rounds * (e.length + 1) := by
  induction rounds with
  | zero => simp [optionalCode]
  | succ rounds ih =>
      rw [optionalCode, List.length_append, List.length_cons, ih]
      ring

/-- An emitter that succeeds makes the items of `code`, but for those of the
operand `e`, which it takes over. -/
def Makes (cp : Context) (e code : List Inst) (run : Coded) : Prop :=
  ∀ cp', run = .ok (none, cp') →
    cp'.mem.itemCount + e.length = cp.mem.itemCount + code.length

section

variable {cp cp' : Context} {live : Set StackId} {ids : StackId → List ItemId}
  {stk : StackId → Stk} {rest : List ItemId} {e : List Inst}

theorem catOperand_items {i : Option ItemId} (h : cp.catOperand i = .ok cp') :
    cp'.mem.itemCount = cp.mem.itemCount := by
  unfold Context.catOperand at h
  cases hrun : stackCatFromItem cp.target cp.bufStack.head (cp.mem.itemCount + 1) cp.mem i with
  | error s =>
      rw [hrun] at h
      cases h
  | ok m =>
      rw [hrun] at h
      cases h
      exact stackCatFromItem_items hrun

theorem emit_items (cp : Context) (inst : Inst) :
    (cp.emit inst).mem.itemCount = cp.mem.itemCount + 1 :=
  stackAddInstHead_items

/-- A copy of the operand. -/
theorem Moving.dupe_items (h : Moving cp live ids stk rest e) :
    ∃ m' ids', cp.dupeOperand rest.head? = .ok { cp with mem := m' } ∧
      Moving { cp with mem := m' } live ids'
        (update stk cp.target ((stk cp.target).append e)) rest e ∧
      m'.itemCount = cp.mem.itemCount + e.length := by
  rcases h.dupe with ⟨m', ids', hrun, hmoving, _⟩
  refine ⟨m', ids', hrun, hmoving, ?_⟩
  have hitems : m'.itemCount + (cp.mem.stack cp.target).size =
      cp.mem.itemCount + (m'.stack cp.target).size := by
    unfold Context.dupeOperand at hrun
    cases hdupe : stackDupeFromItem cp.target cp.bufStack.head (cp.mem.itemCount + 1) cp.mem
        rest.head? with
    | error s =>
        rw [hdupe] at hrun
        cases hrun
    | ok m₁ =>
        rw [hdupe] at hrun
        obtain rfl : m₁ = m' := congrArg Context.mem (Except.ok.inj hrun)
        exact stackDupeFromItem_items hdupe
  -- the target has grown by the operand
  have hbefore := (h.store.shows _ h.target).size_eq
  have hafter := (hmoving.store.shows _ h.target).size_eq
  simp only [update_self, Stk.append, List.length_append] at hafter
  omega

theorem Moving.dupeTimes_items : ∀ (n : Nat) {cp : Context} {ids : StackId → List ItemId}
    {stk : StackId → Stk}, Moving cp live ids stk rest e →
    ∀ {cp' : Context}, Context.dupeTimes rest.head? n cp = .ok cp' →
      cp'.mem.itemCount = cp.mem.itemCount + n * e.length := by
  intro n
  induction n with
  | zero =>
      intro cp ids stk _ cp' hrun
      cases hrun
      simp
  | succ n ih =>
      intro cp ids stk h cp' hrun
      rcases h.dupe_items with ⟨m₁, ids₁, hrun₁, h₁, hitems⟩
      rw [Context.dupeTimes, hrun₁] at hrun
      rw [ih h₁ hrun, hitems]
      ring

theorem Moving.codeOptional_items : ∀ (rounds : Nat) {cp : Context} {ids : StackId → List ItemId}
    {stk : StackId → Stk}, Moving cp live ids stk rest e →
    ∀ {cp' : Context}, Rxvm.codeOptional e.length rest.head? (rounds + 1) cp = .ok cp' →
      cp'.mem.itemCount + e.length = cp.mem.itemCount + (rounds + 1) * (e.length + 1) := by
  intro rounds
  induction rounds with
  | zero =>
      intro cp ids stk h cp' hrun
      -- the last round moves the operand itself
      rw [Rxvm.codeOptional] at hrun
      set cp₁ := cp.emit (.opBranch 1 (((e.length : Int) + 1) * (((0 : Nat) : Int) + 1))) with hcp₁
      have hemit : cp₁.mem.itemCount = cp.mem.itemCount + 1 := emit_items _ _
      cases hcat : cp₁.catOperand rest.head? with
      | error s =>
          simp only [if_true, hcat] at hrun
          cases hrun
      | ok cp₂ =>
          simp only [if_true, hcat] at hrun
          cases hrun
          have := catOperand_items hcat
          omega
  | succ rounds ih =>
      intro cp ids stk h cp' hrun
      rcases h.emit (.opBranch 1 (((e.length : Int) + 1) * (((rounds + 1 : Nat) : Int) + 1))) with
        ⟨h₁, _⟩
      rcases h₁.dupe_items with ⟨m₂, ids₂, hrun₂, h₂, hitems⟩
      rw [Rxvm.codeOptional, if_neg (Nat.succ_ne_zero rounds)] at hrun
      simp only [hrun₂] at hrun
      have hrest := ih h₂ hrun
      have hemit := emit_items cp
        (.opBranch 1 (((e.length : Int) + 1) * (((rounds + 1 : Nat) : Int) + 1)))
      have hround : (rounds + 1 + 1) * (e.length + 1) =
          (rounds + 1) * (e.length + 1) + (e.length + 1) := by ring
      simp only at hrest
      omega

theorem codeOne_makes (cp : Context) (e : List Inst) (size : Nat) (i : Option ItemId) :
    Makes cp e (oneCode e) (codeOne cp size i) := by
  intro cp' hrun
  unfold codeOne at hrun
  cases hcat : cp.catOperand i with
  | error s =>
      rw [hcat] at hrun
      cases hrun
  | ok cp₁ =>
      rw [hcat] at hrun
      cases hrun
      have hitems := catOperand_items hcat
      have hemit := emit_items cp₁ (.opBranch (-size) 1)
      simp only [oneCode, List.length_append, List.length_singleton]
      omega

theorem codeZero_makes (cp : Context) (e : List Inst) (size : Nat) (i : Option ItemId) :
    Makes cp e (zeroCode e) (codeZero cp size i) := by
  intro cp' hrun
  unfold codeZero at hrun
  have hemit := emit_items cp (.opBranch 1 (size + 2))
  cases hcat : (cp.emit (.opBranch 1 (size + 2))).catOperand i with
  | error s =>
      rw [hcat] at hrun
      cases hrun
  | ok cp₁ =>
      rw [hcat] at hrun
      cases hrun
      have hitems := catOperand_items hcat
      have hemit' := emit_items cp₁ (.opBranch (-size) 1)
      simp only [zeroCode, List.length_append, List.length_cons, List.length_nil]
      omega

theorem codeOnezero_makes (cp : Context) (e : List Inst) (size : Nat) (i : Option ItemId) :
    Makes cp e (onezeroCode e) (codeOnezero cp size i) := by
  intro cp' hrun
  unfold codeOnezero at hrun
  have hemit := emit_items cp (.opBranch 1 (size + 1))
  cases hcat : (cp.emit (.opBranch 1 (size + 1))).catOperand i with
  | error s =>
      rw [hcat] at hrun
      cases hrun
  | ok cp₁ =>
      rw [hcat] at hrun
      cases hrun
      have hitems := catOperand_items hcat
      simp only [onezeroCode, List.length_cons]
      omega

/-- Copies of the operand, and the operand. -/
theorem Moving.dupeCat_items (h : Moving cp live ids stk rest e) {n : Nat} {cp₁ cp₂ : Context}
    (hdupe : Context.dupeTimes rest.head? n cp = .ok cp₁)
    (hcat : cp₁.catOperand rest.head? = .ok cp₂) :
    cp₂.mem.itemCount + e.length = cp.mem.itemCount + (copies e (n + 1)).length := by
  rw [catOperand_items hcat, h.dupeTimes_items n hdupe, copies_length]
  ring

theorem Moving.codeRepN_makes (h : Moving cp live ids stk rest e) (repN : Int) :
    Makes cp e (repNCode e repN) (Rxvm.codeRepN cp repN rest.head?) := by
  intro cp' hrun
  unfold Rxvm.codeRepN at hrun
  split at hrun
  · cases hrun
  · cases hdupe : cp.dupeTimes rest.head? (repN - 1).toNat with
    | error s =>
        rw [hdupe] at hrun
        cases hrun
    | ok cp₁ =>
        cases hcat : cp₁.catOperand rest.head? with
        | error s =>
            simp only [hdupe, hcat, bind, Except.bind] at hrun
            cases hrun
        | ok cp₂ =>
            simp only [hdupe, hcat, bind, Except.bind] at hrun
            cases hrun
            exact h.dupeCat_items hdupe hcat

theorem Moving.codeRepMore_makes (h : Moving cp live ids stk rest e) (repN : Int) :
    Makes cp e (repMoreCode e repN) (Rxvm.codeRepMore cp repN e.length rest.head?) := by
  intro cp' hrun
  unfold Rxvm.codeRepMore at hrun
  cases hdupe : cp.dupeTimes rest.head? (repN - 1).toNat with
  | error s =>
      rw [hdupe] at hrun
      cases hrun
  | ok cp₁ =>
      cases hcat : cp₁.catOperand rest.head? with
      | error s =>
          simp only [hdupe, hcat, bind, Except.bind] at hrun
          cases hrun
      | ok cp₂ =>
          simp only [hdupe, hcat, bind, Except.bind] at hrun
          cases hrun
          have hitems := h.dupeCat_items hdupe hcat
          have hemit := emit_items cp₂ (.opBranch (-(e.length : Int)) 1)
          simp only [repMoreCode, List.length_append, List.length_singleton]
          omega

theorem Moving.codeRepRange_makes (h : Moving cp live ids stk rest e) {repN repM : Int}
    {code : List Inst} (hcode : repRangeCode e repN repM = some code) :
    Makes cp e code (Rxvm.codeRepRange cp repN repM e.length rest.head?) := by
  unfold repRangeCode at hcode
  unfold Rxvm.codeRepRange
  split at hcode
  · next heq =>
      -- `{n,n}` is `{n}`
      rw [if_pos heq]
      split at hcode
      · cases hcode
      · obtain rfl := Option.some.inj hcode
        exact h.codeRepN_makes repN
  · next heq =>
      rw [if_neg heq]
      split at hcode
      · next hone =>
          obtain rfl := Option.some.inj hcode
          -- `{0,1}` is `?`
          rw [if_pos hone]
          exact codeOnezero_makes cp e e.length rest.head?
      · next hone =>
          obtain rfl := Option.some.inj hcode
          rw [if_neg hone]
          intro cp' hrun
          -- the copies that must match, and then those that may
          obtain ⟨rounds, hrounds⟩ :
              ∃ r, (max repN repM - min repN repM).toNat = r + 1 :=
            ⟨(max repN repM - min repN repM).toNat - 1, by omega⟩
          rcases Moving.dupeTimes (min repN repM).toNat h with ⟨m₁, ids₁, hdupe, h₁, _⟩
          have hcopies := h.dupeTimes_items _ hdupe
          simp only [hdupe, hrounds, bind, Except.bind] at hrun
          cases hopt : Rxvm.codeOptional e.length rest.head? (rounds + 1)
              { cp with mem := m₁ } with
          | error s =>
              rw [hopt] at hrun
              cases hrun
          | ok cp₂ =>
              rw [hopt] at hrun
              cases hrun
              have hitems := Moving.codeOptional_items rounds h₁ hopt
              rw [List.length_append, copies_length, hrounds, optionalCode_length]
              simp only at hitems hcopies
              omega

theorem Moving.codeRepLess_makes (h : Moving cp live ids stk rest e) {repM : Int} (hM : 0 ≤ repM)
    {code : List Inst} (hcode : repLessCode e repM = some code) :
    Makes cp e code (Rxvm.codeRepLess cp repM e.length rest.head?) := by
  unfold repLessCode at hcode
  unfold Rxvm.codeRepLess
  split at hcode
  · cases hcode
  · next hzero =>
      rw [if_neg hzero]
      split at hcode
      · next hone =>
          obtain rfl := Option.some.inj hcode
          -- `{,1}` is `?`
          rw [if_pos hone]
          exact codeOnezero_makes cp e e.length rest.head?
      · next hone =>
          obtain rfl := Option.some.inj hcode
          rw [if_neg hone]
          intro cp' hrun
          obtain ⟨rounds, hrounds⟩ : ∃ r, repM.toNat = r + 1 := ⟨repM.toNat - 1, by omega⟩
          rw [hrounds] at hrun
          cases hopt : Rxvm.codeOptional e.length rest.head? (rounds + 1) cp with
          | error s =>
              rw [hopt] at hrun
              cases hrun
          | ok cp₂ =>
              rw [hopt] at hrun
              cases hrun
              rw [hrounds, optionalCode_length]
              exact Moving.codeOptional_items rounds h hopt

end

/-! ## process_op -/

theorem alt_length (s : Stk) : s.alt.code.length = s.code.length + 2 := by
  simp [Stk.alt, Stk.fork, attach_code_length]

/-- The fork and the jump of an alternation. -/
theorem altTail_items (cp : Context) : (altTail cp).mem.itemCount = cp.mem.itemCount + 2 := by
  have hchain : (if cp.targetStack.dsize ≠ 0 ∧ cp.chained = false then
      { cp with chained := true } else cp).mem = cp.mem := by
    split <;> rfl
  unfold altTail
  simp only [Mem.setStack, stackAddInstHead_items, stackAddInstTail_items,
    attachDanglingAlt_items, hchain]

/-- The errors and the counters of the fixed substring do not matter. -/
theorem Makes.dec {cp : Context} {e code : List Inst} {run : Coded} (h : Makes cp e code run) :
    Makes cp e code (do
      let (err, cp) ← run
      return (err, if err = none then cp.lfixDec else cp)) := by
  intro cp' hrun
  cases run with
  | error s => cases hrun
  | ok r =>
      rcases r with ⟨err, cp₁⟩
      cases err with
      | some e => cases hrun
      | none =>
          cases hrun
          exact h cp₁ rfl

section

variable {text : List CChar} {cp cp' : Context} {live : Set StackId}
  {ids : StackId → List ItemId} {stk : StackId → Stk} {rest : List ItemId} {e : List Inst}
  {repN repM : Int}

theorem repCode_none (h : RepNone repN repM) : repCode e repN repM = some [] := by
  rcases h with ⟨h₁, h₂, h₃, h₄, h₅⟩
  rw [repCode, if_neg h₁, if_neg h₂, if_neg h₃, if_neg h₄, if_neg h₅]

theorem processOpRep_none (h : RepNone repN repM) (size : Nat) (i : Option ItemId) :
    processOpRep cp repN repM size i = .ok (none, cp) := by
  rcases h with ⟨h₁, h₂, h₃, h₄, h₅⟩
  rw [processOpRep, if_neg h₁, if_neg h₂, if_neg h₃, if_neg h₄, if_neg h₅]
  rfl

/-- A repetition with a case of its own. -/
theorem Moving.processOpRep_makes (h : Moving cp live ids stk rest e) (hnone : ¬ RepNone repN repM)
    {code : List Inst} (hcode : repCode e repN repM = some code) :
    Makes cp e code (Rxvm.processOpRep cp repN repM e.length rest.head?) := by
  unfold repCode at hcode
  unfold Rxvm.processOpRep
  -- the cases of `process_op_rep`, in its order
  by_cases h₁ : repN ≥ 0 ∧ repM ≥ 0
  · rw [if_pos h₁] at hcode ⊢
    exact h.codeRepRange_makes hcode
  rw [if_neg h₁] at hcode ⊢
  by_cases h₂ : repN > 0 ∧ repM = repFieldEmpty
  · rw [if_pos h₂] at hcode ⊢
    obtain rfl := Option.some.inj hcode
    exact h.codeRepMore_makes repN
  rw [if_neg h₂] at hcode ⊢
  by_cases h₃ : repN = repFieldEmpty ∧ repM ≥ 0
  · rw [if_pos h₃] at hcode ⊢
    exact Makes.dec (h.codeRepLess_makes h₃.2 hcode)
  rw [if_neg h₃] at hcode ⊢
  by_cases h₄ : repN ≥ 0 ∧ repM = repNoField
  · rw [if_pos h₄] at hcode ⊢
    split at hcode
    · cases hcode
    · obtain rfl := Option.some.inj hcode
      exact h.codeRepN_makes repN
  rw [if_neg h₄] at hcode ⊢
  by_cases h₅ : repN = 0 ∧ repM = repFieldEmpty
  · rw [if_pos h₅] at hcode ⊢
    obtain rfl := Option.some.inj hcode
    exact Makes.dec (codeZero_makes cp e e.length rest.head?)
  · exact absurd ⟨h₁, h₂, h₃, h₄, h₅⟩ hnone

theorem switch_alt {cp₁ : Context} {size : Nat} {i : Option ItemId} (htok : cp.tok = .alt)
    (halt : codeAlt cp i = .ok (none, cp₁))
    (hrun : processOpSwitch text cp size i = .ok (none, cp')) : cp'.mem = cp₁.mem := by
  unfold processOpSwitch at hrun
  simp only [htok, halt] at hrun
  obtain rfl := (Prod.mk.inj (Except.ok.inj hrun)).2
  split <;> rfl

/-- The `switch` of `process_op` makes what it puts on the target, but for the
operand. -/
theorem Moving.switch_items (h : Moving cp live ids stk rest e) (hop : cp.tok.isop = true)
    (hnone : cp.tok = .rep → ¬ RepNone (parseRep text cp.statics.lex.lp1 cp.statics.lex.lpn).1
      (parseRep text cp.statics.lex.lp1 cp.statics.lex.lpn).2) {s : Stk}
    (hres : opResult text cp (stk cp.target) e = some s)
    (hrun : processOpSwitch text cp e.length rest.head? = .ok (none, cp')) :
    cp'.mem.itemCount + (stk cp.target).code.length + e.length =
      cp.mem.itemCount + s.code.length := by
  have hmakes : ∀ {code : List Inst} {run : Coded}, Makes cp e code run → run = .ok (none, cp') →
      s = (stk cp.target).append code →
      cp'.mem.itemCount + (stk cp.target).code.length + e.length =
        cp.mem.itemCount + s.code.length := by
    intro code run hmake hrun hs
    have := hmake cp' hrun
    rw [hs]
    simp only [Stk.append, List.length_append]
    omega
  unfold processOpSwitch at hrun
  unfold opResult at hres
  cases htok : cp.tok with
  | rep =>
      simp only [htok] at hrun hres
      rcases Option.map_eq_some_iff.mp hres with ⟨code, hcode, hs⟩
      exact hmakes (h.processOpRep_makes (hnone htok) hcode) hrun hs.symm
  | one =>
      simp only [htok] at hrun hres
      exact hmakes (codeOne_makes cp e e.length rest.head?) hrun (Option.some.inj hres).symm
  | zero =>
      simp only [htok] at hrun hres
      -- the branches around the operand; `lfix_dec` makes no item
      exact hmakes (Makes.dec (codeZero_makes cp e e.length rest.head?)) hrun
        (Option.some.inj hres).symm
  | onezero =>
      simp only [htok] at hrun hres
      exact hmakes (Makes.dec (codeOnezero_makes cp e e.length rest.head?)) hrun
        (Option.some.inj hres).symm
  | alt =>
      simp only [htok] at hres
      obtain rfl := Option.some.inj hres
      -- `|` moves the operand, and makes the branch
      rcases h.cat with ⟨m₁, hcat, _⟩
      obtain ⟨n, hn⟩ : ∃ n, rest.head? = some n := by
        cases rest with
        | nil => exact absurd rfl h.nonempty
        | cons n rest => exact ⟨n, rfl⟩
      rw [hn] at hcat hrun
      have hitems : m₁.itemCount = cp.mem.itemCount := catOperand_items hcat
      have htail := altTail_items { cp with mem := m₁ }
      rw [switch_alt htok (codeAlt_some hcat) hrun, htail, alt_length]
      simp only [Stk.append, List.length_append]
      omega
  | _ => simp [htok, Tok.isop] at hop

end

end Rxvm
