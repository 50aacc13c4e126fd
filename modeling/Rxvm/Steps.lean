import Rxvm.ProcessOp

/-!
# Rxvm.Steps — what the other tokens do

The cases of `stage1_main_state` and `stage1_charc_state` that are no
operators: what each of them adds to which stack, and the layout it leaves.
-/

namespace Rxvm

open Function Linked

/-- Two families of stacks hold the same code. -/
def SameCode (stk stk' : StackId → Stk) : Prop :=
  ∀ k, (stk' k).code = (stk k).code ∧ (stk' k).jmp = (stk k).jmp

theorem SameCode.refl (stk : StackId → Stk) : SameCode stk stk := fun _ => ⟨rfl, rfl⟩

theorem SameCode.trans {stk₁ stk₂ stk₃ : StackId → Stk} (h₁ : SameCode stk₁ stk₂)
    (h₂ : SameCode stk₂ stk₃) : SameCode stk₁ stk₃ :=
  fun k => ⟨(h₂ k).1.trans (h₁ k).1, (h₂ k).2.trans (h₁ k).2⟩

theorem SameCode.recap (stk : StackId → Stk) (k : StackId) (capped : Bool) :
    SameCode stk (update stk k { stk k with capped := capped }) := by
  intro k'
  by_cases e : k' = k
  · subst e
    simp
  · simp [e]

section

variable {cp : Context} {closing : Bool} {ids : StackId → List ItemId} {stk : StackId → Stk}
  {index : Option Nat}

/-! ## goto single -/

/-- `goto single`. -/
theorem Layout.single (h : Layout cp false ids stk index) (inst : Inst) :
    ∃ ids', Layout (addSingle cp inst) false ids'
      (update stk cp.buf ((stk cp.buf).append [inst])) (some (stk cp.buf).code.length) := by
  have hst := h.store.addHead h.buf_live inst
  have hlen := (h.store.shows _ h.buf_live).code_length
  refine ⟨_, hst, h.distinct, ?_, ?_, ?_, ?_, ?_, ?_, ?_, ?_, by simp⟩
  · cases h.place with
    | opened ht hb => exact .opened ht hb
    | closed g below hg ht hb hj =>
        refine .closed g below hg ht hb ?_
        by_cases e : g = cp.buf
        · subst e
          simpa using hj
        · simpa [e] using hj
  · show (update stk cp.buf ((stk cp.buf).append [inst]) cp.base).jmp = none
    by_cases e : cp.base = cp.buf
    · rw [e]
      simpa using h.bufJmp
    · simpa [e] using h.baseJmp
  · show (update stk cp.buf ((stk cp.buf).append [inst]) cp.buf).jmp = none
    simpa using h.bufJmp
  · refine ⟨?_, by simp⟩
    intro i hi
    refine ⟨cp.mem.itemCount, rfl, ?_⟩
    show (update ids cp.buf (ids cp.buf ++ [cp.mem.itemCount]) cp.buf)[i]? = _
    obtain rfl := Option.some.inj hi
    simp [← hlen]
  · intro hnone
    exact absurd (show (some cp.mem.itemCount : Option ItemId) = none from hnone) (by simp)
  · show (update stk cp.buf ((stk cp.buf).append [inst]) cp.base).capped = true
    by_cases e : cp.base = cp.buf
    · rw [e]
      simpa using e ▸ h.capBase
    · simpa [e] using h.capBase
  · intro _
    show (update stk cp.buf ((stk cp.buf).append [inst]) cp.buf).capped = true
    simpa using h.capBuf (Or.inl rfl)
  · intro k hk hne
    show (update stk cp.buf ((stk cp.buf).append [inst]) k).capped = false
    have hne' : k ≠ cp.buf := hne
    simpa [hne'] using h.uncapped k hk hne'

/-! ## Character classes -/

/-- `code_ccs`, on a class that is not empty. -/
theorem Layout.ccs (h : Layout cp false ids stk index) (inst : Inst) (strb : Option (List CChar)) :
    ∃ ids', Layout { cp with
      mem := (cp.mem.stackAddInstHead cp.base inst).1
      operand := some cp.mem.itemCount
      strb := strb } false ids' (update stk cp.base ((stk cp.base).append [inst]))
      (if cp.buf = cp.base then some (stk cp.base).code.length else none) := by
  have hst := h.store.addHead (Layout.base_live cp) inst
  have hlen := (h.store.shows _ (Layout.base_live cp)).code_length
  -- a capped base is not the stack of a group
  refine ⟨_, hst, h.distinct, ?_, ?_, ?_, ?_, ?_, ?_, ?_, ?_, by simp⟩
  · cases h.place with
    | opened ht hb => exact .opened ht hb
    | closed g below hg ht hb hj =>
        refine .closed g below hg ht hb ?_
        -- the group whose jumps are closed is another stack
        have hne : g ≠ cp.base := by
          rintro rfl
          exact h.base_notMem (by simp [hg])
        simpa [hne] using hj
  · show (update stk cp.base ((stk cp.base).append [inst]) cp.base).jmp = none
    simpa using h.baseJmp
  · show (update stk cp.base ((stk cp.base).append [inst]) cp.buf).jmp = none
    by_cases e : cp.buf = cp.base
    · rw [e]
      simpa using h.baseJmp
    · simpa [e] using h.bufJmp
  · -- the class is the operand when the buffer is the base
    show Located (some cp.mem.itemCount)
      (update ids cp.base (ids cp.base ++ [cp.mem.itemCount]) cp.buf) _
    by_cases e : cp.buf = cp.base
    · rw [if_pos e, e]
      refine ⟨?_, by simp⟩
      intro i hi
      obtain rfl := Option.some.inj hi
      exact ⟨cp.mem.itemCount, rfl, by simp [← hlen]⟩
    · rw [if_neg e, update_of_ne e]
      refine ⟨by simp, ?_⟩
      intro _ n hn
      obtain rfl := Option.some.inj hn
      exact h.store.fresh _ h.buf_live
  · intro hnone
    exact absurd (show (some cp.mem.itemCount : Option ItemId) = none from hnone) (by simp)
  · show (update stk cp.base ((stk cp.base).append [inst]) cp.base).capped = true
    simpa using h.capBase
  · intro _
    show (update stk cp.base ((stk cp.base).append [inst]) cp.buf).capped = true
    by_cases e : cp.buf = cp.base
    · rw [e]
      simpa using h.capBase
    · simpa [e] using h.capBuf (Or.inl rfl)
  · intro k hk hne
    show (update stk cp.base ((stk cp.base).append [inst]) k).capped = false
    have hne' : k ≠ cp.base := by
      rintro rfl
      exact h.base_notMem hk
    simpa [hne'] using h.uncapped k hk hne

/-! ## Groups -/

/-- A closed group that stays because its buffer is empty. -/
theorem Layout.strand (h : Layout cp closing ids stk index)
    (hbuf : closing = false ∨ (stk cp.buf).code = []) : Layout cp false ids stk index :=
  { h with capBuf := fun _ => h.capBuf hbuf, justClosed := by simp }

/-- The flush of a closed group that no operator follows. -/
theorem Layout.flush (h : Layout cp cp.closing ids stk index) :
    if cp.closing = true ∧ (stk cp.buf).code ≠ [] then
      ∃ m' ids', flushGroup cp = .ok { cp with mem := m', groups := cp.groups.tail, buf := cp.base } ∧
        Layout { cp with mem := m', groups := cp.groups.tail, buf := cp.base } false ids'
          (update stk cp.target ((stk cp.target).append (stk cp.buf).code)) none
    else flushGroup cp = .ok cp ∧ Layout cp false ids stk index := by
  have hshows := h.store.shows _ h.buf_live
  -- `size` counts the instructions, so the guard is on the code
  have hsize : cp.bufStack.size > 0 ↔ (stk cp.buf).code ≠ [] := by
    have : cp.bufStack.size = (stk cp.buf).code.length := hshows.size_eq
    rw [this]
    exact List.length_pos_iff
  have hiff : (cp.lasttok = .rparen ∧ cp.bufStack.size > 0) ↔
      (cp.closing = true ∧ (stk cp.buf).code ≠ []) := by
    rw [hsize]
    simp [Context.closing]
  by_cases hcond : cp.closing = true ∧ (stk cp.buf).code ≠ []
  · rw [if_pos hcond]
    -- the buffer of the closed group goes behind the code of its target
    rcases h.justClosed hcond.1 with ⟨⟨below, hg, ht⟩, hbase, _⟩
    rcases h.store.cat h.target_live h.buf_live h.buf_ne_target.symm h.target_uncapped with
      ⟨m', hcat, hst, hframe⟩
    have hbufbase : cp.buf ≠ cp.base := by
      intro e
      exact h.base_notMem (by rw [← e, hg]; simp)
    have hbase' : update stk cp.target ((stk cp.target).append (stk cp.buf).code) cp.base =
        stk cp.base := update_of_ne h.target_ne_base.symm _ _
    -- the base of a group just closed holds nothing
    have hidsbase : ids cp.base = [] := by
      have := (h.store.shows _ (Layout.base_live cp)).code_length
      rw [hbase, List.length_nil] at this
      exact List.length_eq_zero_iff.mp this
    refine ⟨m', update ids cp.target (ids cp.target ++ ids cp.buf), ?_, ?_⟩
    · rw [flushGroup, if_pos (hiff.mpr hcond), hcat]
      rfl
    · refine ⟨hst.mono ?_, ?_, .opened ?_ (Or.inl rfl), ?_, ?_, ?_, ?_, ?_, ?_, ?_, by simp⟩
      · -- the group itself is no longer live
        intro k hk
        have hk' : k ∈ cp.base :: cp.prog :: cp.groups.tail := hk
        refine ⟨?_, ?_⟩
        · simp only [List.mem_cons] at hk'
          rcases hk' with rfl | rfl | hk'
          · exact Layout.base_live cp
          · exact Layout.prog_live cp
          · exact List.mem_cons_of_mem _ (List.mem_cons_of_mem _ (List.mem_of_mem_tail hk'))
        · rintro rfl
          have hd := h.distinct
          rw [hg] at hd hk'
          simp only [List.nodup_cons, List.mem_cons, not_or] at hd
          simp only [List.mem_cons, List.tail_cons] at hk'
          rcases hk' with e | e | e
          · exact hbufbase e
          · exact hd.2.1.1 e.symm
          · exact hd.2.2.1 e
      · exact h.distinct.sublist (List.Sublist.cons_cons _ (List.Sublist.cons_cons _
          (List.tail_sublist _)))
      · show cp.target = cp.groups.tail.headD cp.prog
        rw [hg]
        exact ht
      · show (update stk cp.target ((stk cp.target).append (stk cp.buf).code) cp.base).jmp = none
        rw [hbase']
        exact h.baseJmp
      · show (update stk cp.target ((stk cp.target).append (stk cp.buf).code) cp.base).jmp = none
        rw [hbase']
        exact h.baseJmp
      · -- no operand is known: nothing of the base is
        refine ⟨by simp, ?_⟩
        intro _ n _
        show n ∉ update ids cp.target (ids cp.target ++ ids cp.buf) cp.base
        rw [update_of_ne h.target_ne_base.symm, hidsbase]
        simp
      · intro _
        show (update stk cp.target ((stk cp.target).append (stk cp.buf).code) cp.base).code = [] ∧
          (update stk cp.target ((stk cp.target).append (stk cp.buf).code) cp.base).code = []
        rw [hbase']
        exact ⟨hbase, hbase⟩
      · show (update stk cp.target ((stk cp.target).append (stk cp.buf).code) cp.base).capped = true
        rw [hbase']
        exact h.capBase
      · intro _
        show (update stk cp.target ((stk cp.target).append (stk cp.buf).code) cp.base).capped = true
        rw [hbase']
        exact h.capBase
      · intro k hk _
        have hk' : k ∈ cp.prog :: cp.groups.tail := hk
        have hmem : k ∈ cp.prog :: cp.groups := by
          rcases List.mem_cons.mp hk' with e | e
          · rw [e]
            exact List.mem_cons_self
          · exact List.mem_cons_of_mem _ (List.mem_of_mem_tail e)
        -- the buffer was the closed group, which is not in the list any more
        have hne : k ≠ cp.buf := by
          rintro rfl
          have hd := h.groups_nodup
          rw [hg] at hd hk'
          simp only [List.nodup_cons, List.mem_cons, not_or] at hd
          simp only [List.mem_cons, List.tail_cons] at hk'
          rcases hk' with e | e
          · exact hd.1.1 e.symm
          · exact hd.2.1 e
        show (update stk cp.target ((stk cp.target).append (stk cp.buf).code) k).capped = false
        by_cases e : k = cp.target
        · subst e
          simpa using h.target_uncapped
        · simpa [e] using h.uncapped k hmem hne
  · -- nothing to flush: the group, if there is one, was empty
    rw [if_neg hcond]
    refine ⟨?_, h.strand ?_⟩
    · rw [flushGroup, if_neg fun hc => hcond (hiff.mp hc)]
      rfl
    · cases hc : cp.closing with
      | false => exact Or.inl rfl
      | true =>
          right
          by_contra hne
          exact hcond ⟨hc, hne⟩

/-- `stack_cat (cp->target, base)` and `stack_reset (base)`. -/
theorem Layout.catBase (h : Layout cp closing ids stk index) :
    ∃ m' ids', cp.mem.stackCat cp.target cp.base = .ok m' ∧
      Store (m'.stackReset cp.base) cp.live ids'
        (update (update stk cp.target ((stk cp.target).append (stk cp.base).code)) cp.base
          { Stk.empty with capped := true }) [] [] ∧
      (∀ k, k ≠ cp.target → k ≠ cp.base → ids' k = ids k) ∧ ids' cp.base = [] ∧
      m'.stackCount = cp.mem.stackCount := by
  rcases h.store.cat h.target_live (Layout.base_live cp) h.target_ne_base h.target_uncapped with
    ⟨m', hcat, hst, hframe⟩
  have hlt : cp.base < m'.stackCount := by
    rw [hframe.stackCount]
    exact h.store.stack_lt _ (Layout.base_live cp)
  have hd : (m'.stack cp.base).danglingAlt = none := by
    rw [hframe.stack _ h.target_ne_base.symm]
    have := (h.store.shows _ (Layout.base_live cp)).dangling
    rwa [h.baseJmp] at this
  have hreset := hst.reset hlt hd true
  refine ⟨m', _, hcat, hreset.mono ?_, ?_, update_self _ _ _, hframe.stackCount⟩
  · intro k hk
    by_cases e : k = cp.base
    · exact Or.inl e
    · exact Or.inr ⟨hk, e⟩
  · intro k ht hb
    rw [update_of_ne hb, update_of_ne ht]

/-- The stacks behind a `(`: the literals so far go to the target, and a new
group is the target. -/
def opened (cp : Context) (stk : StackId → Stk) : StackId → Stk :=
  update (update (update stk cp.target ((stk cp.target).append (stk cp.base).code)) cp.base
    { Stk.empty with capped := true }) cp.mem.stackCount Stk.empty

/-- `case LPAREN`. -/
theorem Layout.open (h : Layout cp false ids stk index) :
    ∃ m' ids', openGroup cp = .ok { cp with
        mem := m'
        groups := cp.mem.stackCount :: cp.groups
        target := cp.mem.stackCount
        depth := u32 (cp.depth + 1) } ∧
      Layout { cp with
        mem := m'
        groups := cp.mem.stackCount :: cp.groups
        target := cp.mem.stackCount
        depth := u32 (cp.depth + 1) } false ids' (opened cp stk)
        (if cp.buf = cp.base then none else index) ∧
      cp.mem.stackCount ∉ cp.live := by
  rcases h.catBase with ⟨m', ids₁, hcat, hst₁, hids₁, hidsbase, hcount⟩
  have hcount' : (m'.stackReset cp.base).stackCount = cp.mem.stackCount := hcount
  have hst₂ := hst₁.createStack
  rw [hcount'] at hst₂
  -- the stack of the new group is fresh
  have hnew : ∀ k ∈ cp.live, k ≠ cp.mem.stackCount :=
    fun k hk => Nat.ne_of_lt (h.store.stack_lt k hk)
  -- the base has gone to the old target and is empty again
  have hbase : opened cp stk cp.base = { Stk.empty with capped := true } := by
    simp [opened, hnew _ (Layout.base_live cp)]
  have hother : ∀ k ∈ cp.live, k ≠ cp.base → k ≠ cp.target → opened cp stk k = stk k := by
    intro k hk hb ht
    simp [opened, hnew k hk, hb, ht]
  have hbuf : cp.buf ≠ cp.base → opened cp stk cp.buf = stk cp.buf :=
    fun e => hother _ h.buf_live e h.buf_ne_target
  refine ⟨(m'.stackReset cp.base).createStack.1, update ids₁ cp.mem.stackCount [], ?_, ?_,
    fun hk => hnew _ hk rfl⟩
  · rw [openGroup, hcat]
    show Except.ok { cp with
      mem := (m'.stackReset cp.base).createStack.1
      groups := (m'.stackReset cp.base).stackCount :: cp.groups
      target := (m'.stackReset cp.base).stackCount
      depth := u32 (cp.depth + 1) } = _
    rw [hcount']
  · refine ⟨hst₂.mono ?_, ?_, .opened rfl ?_, ?_, ?_, ?_, ?_, ?_, ?_, ?_, by simp⟩
    · intro k hk
      have hk' : k ∈ cp.base :: cp.prog :: cp.mem.stackCount :: cp.groups := hk
      simp only [List.mem_cons] at hk'
      rcases hk' with rfl | rfl | rfl | hk'
      · exact Or.inr (Layout.base_live cp)
      · exact Or.inr (Layout.prog_live cp)
      · exact Or.inl rfl
      · exact Or.inr (List.mem_cons_of_mem _ (List.mem_cons_of_mem _ hk'))
    · -- the new stack stands in front of the groups
      show (cp.base :: cp.prog :: cp.mem.stackCount :: cp.groups).Nodup
      have hd := h.distinct
      have hb := hnew _ (Layout.base_live cp)
      have hp := hnew _ (Layout.prog_live cp)
      have hg : cp.mem.stackCount ∉ cp.groups := fun hk =>
        hnew _ (List.mem_cons_of_mem _ (List.mem_cons_of_mem _ hk)) rfl
      simp only [List.nodup_cons, List.mem_cons, not_or] at hd ⊢
      exact ⟨⟨hd.1.1, hb, hd.1.2⟩, ⟨hp, hd.2.1⟩, hg, hd.2.2⟩
    · rcases List.mem_cons.mp h.buf_mem with e | e
      · exact Or.inl e
      · exact Or.inr e
    · show (opened cp stk cp.base).jmp = none
      rw [hbase]
      rfl
    · show (opened cp stk cp.buf).jmp = none
      by_cases e : cp.buf = cp.base
      · rw [e, hbase]
        rfl
      · rw [hbuf e]
        exact h.bufJmp
    · -- the operand is lost when it was in the base
      show Located cp.operand (update ids₁ cp.mem.stackCount [] cp.buf) _
      rw [update_of_ne (hnew _ h.buf_live)]
      by_cases e : cp.buf = cp.base
      · rw [if_pos e, e, hidsbase]
        exact ⟨by simp, by simp⟩
      · rw [if_neg e, hids₁ _ h.buf_ne_target e]
        exact h.located
    · intro hnone
      show (opened cp stk cp.buf).code = [] ∧ (opened cp stk cp.base).code = []
      rw [hbase]
      refine ⟨?_, rfl⟩
      by_cases e : cp.buf = cp.base
      · rw [e, hbase]
        rfl
      · rw [hbuf e]
        exact (h.null hnone).1
    · show (opened cp stk cp.base).capped = true
      rw [hbase]
    · intro _
      show (opened cp stk cp.buf).capped = true
      by_cases e : cp.buf = cp.base
      · rw [e, hbase]
      · rw [hbuf e]
        exact h.capBuf (Or.inl rfl)
    · -- the new stack has no cap, nor has the old target
      intro k hk hne
      show (opened cp stk k).capped = false
      have hk' : k ∈ cp.prog :: cp.mem.stackCount :: cp.groups := hk
      by_cases e : k = cp.mem.stackCount
      · rw [e]
        simp [opened, Stk.empty]
      · have hmem : k ∈ cp.prog :: cp.groups := by
          simp only [List.mem_cons] at hk' ⊢
          tauto
        have hb : k ≠ cp.base := by
          rintro rfl
          exact h.base_notMem hmem
        by_cases e' : k = cp.target
        · rw [e']
          simp [opened, h.target_ne_base, hnew _ h.target_live, h.target_uncapped]
        · rw [hother k (List.mem_cons_of_mem _ hmem) hb e']
          exact h.uncapped k hmem hne

/-- The stacks behind a `)`: the literals so far go to the target, and its
dangling jump is completed. -/
def closed (cp : Context) (stk : StackId → Stk) : StackId → Stk :=
  update (update stk cp.target ((stk cp.target).append (stk cp.base).code).attach) cp.base
    { Stk.empty with capped := true }

theorem attach_jmp (s : Stk) : s.attach.jmp = none := by
  unfold Stk.attach
  split
  · next h => exact h
  · rfl

theorem closeGroup_nil {cp : Context} (h : cp.groups = []) :
    closeGroup cp = .ok (some .badparen, cp) := by
  rw [closeGroup, h]
  rfl

theorem closeGroup_cons {cp : Context} {cur : StackId} {below : List StackId} {m m' : Mem}
    (h : cp.groups = cur :: below) (hcat : cp.mem.stackCat cp.target cp.base = .ok m)
    (hattach : attachDanglingAlt { cp with mem := m } = { cp with mem := m' }) :
    closeGroup cp = .ok (none, { cp with
      mem := m'.stackReset cp.base
      operand := ((m'.stackReset cp.base).stack cur).tail
      buf := cur
      target := below.headD cp.prog
      depth := u32 (cp.depth - 1) }) := by
  unfold closeGroup
  split
  · next hg =>
      rw [h] at hg
      cases hg
  · next cur' below' hg =>
      obtain ⟨rfl, rfl⟩ := List.cons.inj (h.symm.trans hg)
      simp only [hcat, hattach, bind, Except.bind]
      rfl

/-- The two stores of an attached target and an emptied base buffer. -/
theorem Layout.attachBase (h : Layout cp closing ids stk index) :
    ∃ m₁ m₂ ids', cp.mem.stackCat cp.target cp.base = .ok m₁ ∧
      attachDanglingAlt { cp with mem := m₁ } = { cp with mem := m₂ } ∧
      Store (m₂.stackReset cp.base) cp.live ids' (closed cp stk) [] [] ∧
      m₂.stackCount = cp.mem.stackCount := by
  rcases h.store.cat h.target_live (Layout.base_live cp) h.target_ne_base h.target_uncapped with
    ⟨m₁, hcat, hst₁, hframe⟩
  have hlive : cp.target ∈ cp.live \ {cp.base} := ⟨h.target_live, h.target_ne_base⟩
  have hst₁' : Store ({ cp with mem := m₁ } : Context).mem (cp.live \ {cp.base})
    (update ids cp.target (ids cp.target ++ ids cp.base))
    (update stk cp.target ((stk cp.target).append (stk cp.base).code)) [] [] := hst₁
  rcases hst₁'.attach hlive with ⟨m₂, hattach, hst₂, hstack, _, hcount⟩
  have hcount' : m₂.stackCount = cp.mem.stackCount := hcount.trans hframe.stackCount
  have hlt : cp.base < m₂.stackCount := by
    rw [hcount']
    exact h.store.stack_lt _ (Layout.base_live cp)
  have hd : (m₂.stack cp.base).danglingAlt = none := by
    rw [hstack _ h.target_ne_base.symm]
    show (m₁.stack cp.base).danglingAlt = none
    rw [hframe.stack _ h.target_ne_base.symm]
    have := (h.store.shows _ (Layout.base_live cp)).dangling
    rwa [h.baseJmp] at this
  have hreset := hst₂.reset hlt hd true
  rw [update_self, update_idem] at hreset
  refine ⟨m₁, m₂, _, hcat, hattach, hreset.mono ?_, hcount'⟩
  intro k hk
  by_cases e : k = cp.base
  · exact Or.inl e
  · exact Or.inr ⟨hk, e⟩

theorem Layout.closed_jmp (h : Layout cp false ids stk index) {cur : StackId}
    {below : List StackId} (hg : cp.groups = cur :: below) : (closed cp stk cur).jmp = none := by
  have hcurbase : cur ≠ cp.base := by
    rintro rfl
    exact h.base_notMem (by simp [hg])
  by_cases e : cur = cp.target
  · rw [e]
    simp [closed, h.target_ne_base, attach_jmp]
  · have hstk : closed cp stk cur = stk cur := by simp [closed, hcurbase, e]
    rw [hstk]
    cases h.place with
    | opened ht _ => exact absurd (by rw [ht, hg]; rfl) e
    | closed g below' hg' _ _ hj =>
        obtain rfl : g = cur := (List.cons.inj (hg'.symm.trans hg)).1
        exact hj

/-- `case RPAREN`. -/
theorem Layout.close (h : Layout cp false ids stk index) {cur : StackId} {below : List StackId}
    (hg : cp.groups = cur :: below) :
    ∃ m' ids' stk', closeGroup cp = .ok (none, { cp with
        mem := m'
        operand := (m'.stack cur).tail
        buf := cur
        target := below.headD cp.prog
        depth := u32 (cp.depth - 1) }) ∧
      Layout { cp with
        mem := m'
        operand := (m'.stack cur).tail
        buf := cur
        target := below.headD cp.prog
        depth := u32 (cp.depth - 1) } true ids' stk'
        (if (stk' cur).code = [] then none else some 0) ∧
      SameCode (closed cp stk) stk' := by
  rcases h.attachBase with ⟨m₁, m₂, ids', hcat, hattach, hst, hcount⟩
  have hrun := closeGroup_cons hg hcat hattach
  have hcurmem : cur ∈ cp.prog :: cp.groups := by simp [hg]
  have hcurbase : cur ≠ cp.base := fun e => h.base_notMem (e ▸ hcurmem)
  -- the old buffer is no buffer any more, and the closed group is one
  set stk₁ := update (closed cp stk) cp.buf { closed cp stk cp.buf with
    capped := decide (cp.buf = cp.base) } with hstk₁
  set stk₂ := update stk₁ cur { stk₁ cur with capped := decide ((stk₁ cur).code = []) } with hstk₂
  have hsame : SameCode (closed cp stk) stk₂ :=
    (SameCode.recap _ _ _).trans (SameCode.recap _ _ _)
  have hbase : closed cp stk cp.base = { Stk.empty with capped := true } := by simp [closed]
  have hst₁ : Store (m₂.stackReset cp.base) cp.live ids' stk₁ [] [] := by
    refine hst.recap _ _ ?_
    intro hc
    right
    rw [of_decide_eq_true hc, hbase]
  have hst₂ : Store (m₂.stackReset cp.base) cp.live ids' stk₂ [] [] :=
    hst₁.recap _ _ fun hc => Or.inl (of_decide_eq_true hc)
  have hbase₂ : stk₂ cp.base = { Stk.empty with capped := true } := by
    rw [hstk₂, update_of_ne hcurbase.symm, hstk₁]
    by_cases e : cp.base = cp.buf
    · rw [← e, update_self, hbase]
      simp
    · rw [update_of_ne e, hbase]
  have hcur₂ : (stk₂ cur).capped = decide ((stk₂ cur).code = []) := by
    rw [hstk₂, update_self]
  have hshows := hst₂.shows cur (List.mem_cons_of_mem _ hcurmem)
  have htail : ((m₂.stackReset cp.base).stack cur).tail = (ids' cur).head? := hshows.tail
  have hnil : (stk₂ cur).code = [] ↔ ids' cur = [] := by
    rw [← List.length_eq_zero_iff, ← hshows.code_length, List.length_eq_zero_iff]
  refine ⟨m₂.stackReset cp.base, ids', stk₂, hrun, ⟨hst₂, h.distinct,
    .closed cur below hg rfl (Or.inr rfl) ?_, ?_, ?_, ?_, ?_, ?_, ?_, ?_, ?_⟩, hsame⟩
  · rw [(hsame cur).2]
    exact h.closed_jmp hg
  · show (stk₂ cp.base).jmp = none
    rw [hbase₂]
    rfl
  · show (stk₂ cur).jmp = none
    rw [(hsame cur).2]
    exact h.closed_jmp hg
  · show Located ((m₂.stackReset cp.base).stack cur).tail (ids' cur) _
    rw [htail]
    by_cases e : (stk₂ cur).code = []
    · rw [if_pos e, hnil.mp e]
      exact ⟨by simp, by simp⟩
    · rw [if_neg e]
      refine ⟨?_, by simp⟩
      intro i hi
      obtain rfl := Option.some.inj hi
      cases hl : ids' cur with
      | nil => exact absurd (hnil.mpr hl) e
      | cons n l => exact ⟨n, rfl, rfl⟩
  · intro hnone
    have hnone' : ((m₂.stackReset cp.base).stack cur).tail = none := hnone
    rw [htail, List.head?_eq_none_iff] at hnone'
    refine ⟨hnil.mpr hnone', ?_⟩
    show (stk₂ cp.base).code = []
    rw [hbase₂]
    rfl
  · show (stk₂ cp.base).capped = true
    rw [hbase₂]
  · intro hc
    show (stk₂ cur).capped = true
    have hcode : (stk₂ cur).code = [] := hc.resolve_left (by simp)
    rw [hcur₂, hcode]
    simp
  · intro k hk hne
    have hk' : k ∈ cp.prog :: cp.groups := hk
    have hne' : k ≠ cur := hne
    have hkb : k ≠ cp.base := fun e => h.base_notMem (e ▸ hk')
    show (stk₂ k).capped = false
    rw [hstk₂, update_of_ne hne', hstk₁]
    by_cases e : k = cp.buf
    · have hbufbase : cp.buf ≠ cp.base := fun e' => hkb (e.trans e')
      rw [e, update_self]
      simp [hbufbase]
    · rw [update_of_ne e, closed, update_of_ne hkb]
      by_cases e' : k = cp.target
      · rw [e', update_self, attach_capped]
        exact h.target_uncapped
      · rw [update_of_ne e']
        exact h.uncapped k hk' e
  · intro _
    refine ⟨⟨below, hg, rfl⟩, ?_, ?_⟩
    · show (stk₂ cp.base).code = []
      rw [hbase₂]
      rfl
    · intro hne
      rw [if_neg hne]

end

end Rxvm
