import Rxvm.Operators

/-!
# Rxvm.Layout — the stacks of a context

Which stacks a context of the compiler holds, which of them is the target and
which the literal buffer, and where the operand is. In a regular run the
buffer is the base buffer, or the group that has just been closed. A group
that is closed with an empty buffer stays where it is unless an alternation
follows: it goes on as the buffer, and a later `)` closes it once more.
-/

namespace Rxvm

open Function Linked

/-- The stacks of a context. -/
def Context.live (cp : Context) : Set StackId := {k | k ∈ cp.base :: cp.prog :: cp.groups}

/-- The target is the innermost group, and the buffer is the base buffer or a
group further out; or the innermost group has been closed, and the target is
the next one. -/
inductive Place (cp : Context) (stk : StackId → Stk) : Prop
  | opened (target : cp.target = cp.groups.headD cp.prog)
      (buf : cp.buf = cp.base ∨ cp.buf ∈ cp.groups.tail)
  | closed (g : StackId) (below : List StackId) (groups : cp.groups = g :: below)
      (target : cp.target = below.headD cp.prog) (buf : cp.buf = cp.base ∨ cp.buf = g)
      (jmp : (stk g).jmp = none)

/-- `index` is where the operand is in the buffer, if it is there. -/
structure Located (operand : Option ItemId) (buf : List ItemId) (index : Option Nat) : Prop where
  found : ∀ i, index = some i → ∃ n, operand = some n ∧ buf[i]? = some n
  missing : index = none → ∀ n, operand = some n → n ∉ buf

/-- The layout of a context. The flag says that the last token was the `)` of
a group that is still the buffer. -/
structure Layout (cp : Context) (closing : Bool) (ids : StackId → List ItemId)
    (stk : StackId → Stk) (index : Option Nat) : Prop where
  store : Store cp.mem cp.live ids stk [] []
  distinct : (cp.base :: cp.prog :: cp.groups).Nodup
  place : Place cp stk
  baseJmp : (stk cp.base).jmp = none
  bufJmp : (stk cp.buf).jmp = none
  located : Located cp.operand (ids cp.buf) index
  null : cp.operand = none → (stk cp.buf).code = [] ∧ (stk cp.base).code = []
  capBase : (stk cp.base).capped = true
  capBuf : closing = false ∨ (stk cp.buf).code = [] → (stk cp.buf).capped = true
  uncapped : ∀ k ∈ cp.prog :: cp.groups, k ≠ cp.buf → (stk k).capped = false
  justClosed : closing = true → (∃ below, cp.groups = cp.buf :: below ∧
    cp.target = below.headD cp.prog) ∧ (stk cp.base).code = [] ∧
    ((stk cp.buf).code ≠ [] → index = some 0)

/-- Whether the group that has just been closed is still the buffer. -/
def Context.closing (cp : Context) : Bool := decide (cp.lasttok = .rparen)

section

variable {cp : Context} {closing : Bool} {ids : StackId → List ItemId} {stk : StackId → Stk}
  {index : Option Nat}

theorem exists_located (operand : Option ItemId) (buf : List ItemId) :
    ∃ index, Located operand buf index := by
  by_cases h : ∃ n, operand = some n ∧ n ∈ buf
  · rcases h with ⟨n, hn, hmem⟩
    rcases List.getElem?_of_mem hmem with ⟨i, hi⟩
    exact ⟨some i, fun j hj => ⟨n, hn, by rw [← Option.some.inj hj]; exact hi⟩, by simp⟩
  · exact ⟨none, by simp, fun _ n hn hmem => h ⟨n, hn, hmem⟩⟩

/-! ## Targets and buffers are different stacks -/

theorem headD_mem (l : List StackId) (k : StackId) : l.headD k ∈ k :: l := by
  cases l <;> simp

theorem Layout.target_mem (h : Layout cp closing ids stk index) :
    cp.target ∈ cp.prog :: cp.groups := by
  cases h.place with
  | opened ht _ => rw [ht]; exact headD_mem _ _
  | closed g below hg ht _ _ =>
      rw [ht, hg]
      have := headD_mem below cp.prog
      simp only [List.mem_cons] at this ⊢
      tauto

theorem Layout.target_live (h : Layout cp closing ids stk index) : cp.target ∈ cp.live :=
  List.mem_cons_of_mem _ h.target_mem

theorem Layout.base_live (cp : Context) : cp.base ∈ cp.live := List.mem_cons_self

theorem Layout.prog_live (cp : Context) : cp.prog ∈ cp.live :=
  List.mem_cons_of_mem _ List.mem_cons_self

theorem Layout.buf_mem (h : Layout cp closing ids stk index) : cp.buf ∈ cp.base :: cp.groups := by
  cases h.place with
  | opened _ hb =>
      rcases hb with hb | hb
      · simp [hb]
      · exact List.mem_cons_of_mem _ (List.mem_of_mem_tail hb)
  | closed g below hg _ hb _ =>
      rcases hb with hb | hb
      · simp [hb]
      · simp [hb, hg]

theorem Layout.buf_live (h : Layout cp closing ids stk index) : cp.buf ∈ cp.live := by
  rcases List.mem_cons.mp h.buf_mem with hb | hb
  · rw [hb]
    exact Layout.base_live cp
  · exact List.mem_cons_of_mem _ (List.mem_cons_of_mem _ hb)

theorem Layout.base_notMem (h : Layout cp closing ids stk index) :
    cp.base ∉ cp.prog :: cp.groups := (List.nodup_cons.mp h.distinct).1

theorem Layout.target_ne_base (h : Layout cp closing ids stk index) : cp.target ≠ cp.base :=
  fun e => h.base_notMem (e ▸ h.target_mem)

theorem Layout.groups_nodup (h : Layout cp closing ids stk index) :
    (cp.prog :: cp.groups).Nodup := (List.nodup_cons.mp h.distinct).2

theorem headD_ne {l : List StackId} {k x : StackId} (h : (k :: l).Nodup) (hx : x ∈ l.tail) :
    x ≠ l.headD k := by
  cases l with
  | nil => simp at hx
  | cons a l =>
      rintro rfl
      exact (List.nodup_cons.mp (List.nodup_cons.mp h).2).1 hx

theorem Layout.buf_ne_target (h : Layout cp closing ids stk index) : cp.buf ≠ cp.target := by
  cases h.place with
  | opened ht hb =>
      rcases hb with hb | hb
      · rw [hb]
        exact h.target_ne_base.symm
      · rw [ht]
        exact headD_ne h.groups_nodup hb
  | closed g below hg ht hb _ =>
      rcases hb with hb | hb
      · rw [hb]
        exact h.target_ne_base.symm
      · have hnodup := h.groups_nodup
        rw [hg] at hnodup
        rw [hb, ht]
        intro e
        have hmem : g ∈ cp.prog :: below := by
          rw [e]
          exact headD_mem below cp.prog
        simp only [List.nodup_cons, List.mem_cons, not_or] at hnodup
        rcases List.mem_cons.mp hmem with rfl | hmem
        · exact hnodup.1.1 rfl
        · exact hnodup.2.1 hmem

theorem Layout.target_uncapped (h : Layout cp closing ids stk index) :
    (stk cp.target).capped = false :=
  h.uncapped _ h.target_mem h.buf_ne_target.symm

theorem Layout.buf_dangling (h : Layout cp closing ids stk index) :
    (cp.mem.stack cp.buf).danglingAlt = none := by
  have := (h.store.shows _ h.buf_live).dangling
  rwa [h.bufJmp] at this

end

end Rxvm
