import Rxvm.CompileSpec

/-!
# Rxvm.Operand — the operand is in the literal buffer

`code_ccs` puts a class into the base buffer and makes it the operand, also
while the buffer is a group that was closed when it was empty. As long as this
does not happen, the operand is in the buffer whenever the buffer holds
something, and no operator runs off the end of it.
-/

namespace Rxvm

open Function Relation

/-- When the buffer is not empty, following `previous` from its tail leads to
the operand. -/
def OperandInBuf (cp : Context) : Prop :=
  cp.bufStack.head ≠ none → ∃ t n, cp.bufStack.tail = some t ∧ cp.operand = some n ∧
    ReflTransGen (fun a b => (cp.mem.item a).previous = some b) t n

/-- A class that is not empty is closed while the buffer is not the base
buffer. -/
def ClassAstray (cp : Context) : Prop :=
  cp.inCharc = true ∧ cp.tok = .charcClose ∧ cp.strb ≠ some [] ∧ cp.buf ≠ cp.base

instance (cp : Context) : Decidable (ClassAstray cp) :=
  inferInstanceAs (Decidable (_ ∧ _ ∧ _ ∧ _))

/-- The operand is in the buffer, and only the base buffer holds anything that
is not in a group. -/
structure Tracked (cp : Context) (stk : StackId → Stk) (index : Option Nat) : Prop where
  base : cp.buf ≠ cp.base → (stk cp.base).code = []
  index : (stk cp.buf).code ≠ [] → index ≠ none

section

variable {g : Statics} {text : List CChar} {cp : Context} {ids : StackId → List ItemId}
  {stk : StackId → Stk} {index : Option Nat}

theorem Tracked.flush {cp₁ : Context} {stk₁ : StackId → Stk} {index₁ : Option Nat}
    (h : Tracked cp stk index) (hlay : Layout cp cp.closing ids stk index)
    (hflush : Flushed cp stk index cp₁ stk₁ index₁) : Tracked cp₁ stk₁ index₁ := by
  cases hflush with
  | popped m' hclosing hbuf =>
      refine ⟨fun hne => absurd rfl hne, fun hne => absurd ?_ hne⟩
      show (update stk cp.target ((stk cp.target).append (stk cp.buf).code) cp.base).code = []
      rw [update_of_ne hlay.target_ne_base.symm]
      exact (hlay.justClosed hclosing).2.1
  | kept _ => exact h

/-- A turn keeps the operand in the buffer, unless it closes a class while the
buffer is a group. -/
theorem Tracked.turn {cp' : Context} {stk' : StackId → Stk} {index' : Option Nat}
    (h : Tracked cp stk index) (hlay : Layout cp cp.closing ids stk index)
    (hastray : ¬ ClassAstray cp) (hturn : Turn text cp stk index cp' stk' index') :
    Tracked cp' stk' index' := by
  cases hturn with
  | operate hmain hop s hs m' chained index' =>
      -- the operator has taken what the base held
      refine ⟨fun hne => absurd rfl hne, fun hne => absurd ?_ hne⟩
      show (operated cp stk s cp.base).code = []
      by_cases e : cp.base = cp.buf
      · rw [e, operated_buf]
      · rw [operated_of_ne e hlay.target_ne_base.symm]
        exact h.base (Ne.symm e)
  | single hmain cp₁ stk₁ index₁ hflush inst hinst m' operand =>
      have h₁ := h.flush hlay hflush.flushed
      refine ⟨?_, by simp⟩
      intro hne
      show (update stk₁ cp₁.buf _ cp₁.base).code = []
      rw [update_of_ne (Ne.symm hne)]
      exact h₁.base hne
  | quiet hmain cp₁ stk₁ index₁ hflush hop hinst hparen =>
      have h₁ := h.flush hlay hflush.flushed
      exact ⟨h₁.base, h₁.index⟩
  | opening hmain cp₁ stk₁ index₁ hflush htok m' hfresh =>
      rcases hflush.layout with ⟨ids₁, hlay₁⟩
      have h₁ := h.flush hlay hflush.flushed
      have hnew : ∀ k ∈ cp₁.live, k ≠ cp₁.mem.stackCount := fun k hk e => hfresh (e ▸ hk)
      have hbase : (opened cp₁ stk₁ cp₁.base).code = [] := by
        simp [opened, hnew _ (Layout.base_live cp₁)]
      refine ⟨fun _ => hbase, ?_⟩
      intro hne
      have hne' : (opened cp₁ stk₁ cp₁.buf).code ≠ [] := hne
      -- what the base held has gone to the target, and the operand with it
      by_cases e : cp₁.buf = cp₁.base
      · rw [e] at hne'
        exact absurd hbase hne'
      · rw [if_neg e]
        refine h₁.index ?_
        have hsame : opened cp₁ stk₁ cp₁.buf = stk₁ cp₁.buf := by
          simp [opened, hnew _ hlay₁.buf_live, e, hlay₁.buf_ne_target]
        rwa [hsame] at hne'
  | closing hmain cp₁ stk₁ index₁ hflush htok cur below hgroups m' operand stk' hsame =>
      refine ⟨?_, ?_⟩
      · intro _
        show (stk' cp₁.base).code = []
        rw [(hsame cp₁.base).1]
        simp [closed]
      · -- the base is the buffer again, and empty
        intro hne
        rw [if_neg hne]
        simp
  | charc hin htok strb isNchar => exact ⟨h.base, h.index⟩
  | noCcs hin htok hstrb => exact ⟨h.base, h.index⟩
  | ccs hin htok hstrb m' operand =>
      -- where the buffer is a group, the class would leave its operand in the base
      have hbuf : cp.buf = cp.base := by
        by_contra hne
        exact hastray ⟨hin, htok, hstrb, hne⟩
      exact ⟨fun hne => absurd hbuf hne, fun _ => by simp [hbuf]⟩

theorem Tracked.start {input : Nat} {simple : Option Nat}
    (h : literalLoop text (text.length + 1) 0 none (stage1Init g) = .ok (input, simple, cp)) :
    Tracked (loopStart text simple cp) (startStk text simple cp.base) (startIndex text simple) := by
  rcases literalLoop_frame h with ⟨_, tok, lex, hcp⟩
  rcases loopStart_layout h with ⟨_, _, m', operand, l, hstart⟩
  have hbuf : (loopStart text simple cp).buf = cp.base := by
    rw [hstart, hcp]
    rfl
  have hbase : (loopStart text simple cp).base = cp.base := by rw [hstart]
  refine ⟨fun hne => absurd (hbuf.trans hbase.symm) hne, ?_⟩
  rw [hbuf]
  cases simple with
  | none =>
      intro hne
      exact absurd (initStk_eq cp.base cp.base).1 hne
  | some simple =>
      intro hne
      have hcode : backlogCode text simple (simple + 1) 0 ≠ [] := by
        simpa [startStk, backlogStk] using hne
      simp [startIndex, hcode]

/-- In a run without classes astray the operand is in the buffer. -/
theorem Visited.tracked (hruns : ∀ input cp, Visited g text input cp → ¬ ClassAstray cp)
    {input : Nat} (h : Visited g text input cp) :
    ∃ stk index, Holds cp stk index ∧ Tracked cp stk index := by
  refine h.invariant (P := fun _ cp stk index => Tracked cp stk index) ?_ ?_
  · intro input simple cp h _
    exact Tracked.start h
  · intro input cp stk index cp' stk' index' hvisit hholds htracked _ _ hturn _ _ _
    rcases hholds.layout with ⟨ids, hlay⟩
    have h' := htracked.turn hlay (hruns input cp hvisit) hturn
    exact ⟨h'.base, h'.index⟩

theorem Tracked.operandInBuf (h : Tracked cp stk index) {closing : Bool}
    (hlay : Layout cp closing ids stk index) : OperandInBuf cp := by
  intro hhead
  have hshows := hlay.store.shows _ hlay.buf_live
  have hcode : (stk cp.buf).code ≠ [] := fun e => hhead (hshows.head_none_iff.mpr e)
  cases hindex : index with
  | none => exact absurd hindex (h.index hcode)
  | some i =>
      rcases hlay.located.found i hindex with ⟨n, hn, hget⟩
      have hmem := List.mem_of_getElem? hget
      cases hids : ids cp.buf with
      | nil =>
          rw [hids] at hmem
          cases hmem
      | cons t l =>
          have htail : (ids cp.buf).head? = some t := by rw [hids]; rfl
          exact ⟨t, n, hshows.tail.trans htail, hn, hshows.linked.walkable.reaches htail hmem⟩

/-- `stage1` only stops where a turn of its loop does. -/
theorem stage1_stops {s : Stop} (h : stage1 g text = .error s) :
    s = .diverges ∨ ∃ input cp, Visited g text input cp ∧ stage1Step text cp = .error s := by
  rcases stage1_ends g text with ⟨_, _, _, _, _, hrun⟩ | hrun | ⟨input, cp, hvisit, hends⟩
  · cases h.symm.trans hrun
  · exact Or.inl (Except.error.inj (h.symm.trans hrun))
  · rw [h] at hends
    generalize hresult : (Except.error s : Run Stage1) = result at hends
    cases hends with
    | lexError => cases hresult
    | stepError => cases hresult
    | stops s' _ _ hstep =>
        obtain rfl := Except.error.inj hresult
        exact Or.inr ⟨input, cp, hvisit, hstep⟩
    | eos htok =>
        rcases hvisit.wellMade with ⟨stk, index, hholds, _⟩
        have hfinish := hholds.finish
        rw [← hresult] at hfinish
        cases hfinish

/-- `rxvm_compile` only stops where `stage1` does. -/
theorem rxvmCompile_stops {s : Stop} (h : rxvmCompile g text = .error s) :
    stage1 g text = .error s := by
  unfold rxvmCompile at h
  rcases hstage : stage1 g text with stop | result
  · rw [hstage] at h
    obtain rfl : stop = s := Except.error.inj h
    rfl
  · rw [hstage] at h
    cases result with
    | fail e cp => cases h
    | simple lfixn g => cases h
    | ir lfix0 lfixn cp' =>
        rcases stage1_ir hstage with ⟨input, cp, hvisit, _, hend⟩
        rcases hvisit.wellMade with ⟨stk, index, hholds, hwell⟩
        rcases stage2_program hholds hwell hend with ⟨_, _, exe, hstage2, _⟩
        simp only [bind, Except.bind, hstage2] at h
        cases h

/-- In a run that closes no class astray every operator finds its operand in
the buffer, and no NULL item is met. -/
theorem operand_in_buffer (hruns : ∀ input cp, Visited g text input cp → ¬ ClassAstray cp) :
    (∀ input cp, Visited g text input cp → cp.inCharc = false → cp.tok.isop = true →
      OperandInBuf cp) ∧ rxvmCompile g text ≠ .error .nullItem := by
  constructor
  · intro input cp hvisit _ _
    rcases hvisit.tracked hruns with ⟨stk, index, hholds, htracked⟩
    rcases hholds.layout with ⟨ids, hlay⟩
    exact htracked.operandInBuf hlay
  · intro hnull
    rcases stage1_stops (rxvmCompile_stops hnull) with hs | ⟨input, cp, hvisit, hstep⟩
    · cases hs
    · rcases hvisit.tracked hruns with ⟨stk, index, hholds, htracked⟩
      rcases hholds.layout with ⟨ids, hlay⟩
      have hresult := stage1Step_result text hlay hholds.charc
      rw [hstep] at hresult
      generalize hrun : (Except.error .nullItem : Coded) = run at hresult
      cases hresult with
      | lost _ _ hindex hbuf => exact htracked.index hbuf hindex
      | diverges => cases hrun
      | abandoned _ _ _ _ _ _ hab =>
          rcases hab with ⟨m', hab, _⟩
          cases hrun.trans hab
      | failed => cases hrun
      | turned => cases hrun

/-- The expression `[a]*` has no groups. -/
theorem operand_in_buffer_class : rxvmCompile Statics.init [91, 97, 93, 42] ≠ .error .nullItem := by
  refine (operand_in_buffer ?_).2
  intro input cp hvisit
  rcases visited_iff.mp hvisit with ⟨n, hn⟩
  have hlast : ctxAt Statics.init [91, 97, 93, 42] 5 = none := rfl
  have hall : ∀ n < 5, ∀ r ∈ ctxAt Statics.init [91, 97, 93, 42] n, ¬ ClassAstray r.2 := by decide
  exact hall n (lt_of_ctxAt hn hlast) _ hn

/-- The expression `()a[b]*`: the class is closed while the buffer is the
empty group. -/
theorem operand_lost : rxvmCompile Statics.init [40, 41, 97, 91, 98, 93, 42] = .error .nullItem :=
  rfl

end

end Rxvm
