import Rxvm.CompileSpec

/-!
# Rxvm.Ownership — what stage1_err_cleanup releases

`stack_free` follows `next` from the head of a stack and releases each item.
When `stage1` fails, no item is met twice, but for one case: a repetition of
zero times whose operand is not the first item of the literal buffer. What
stands in front of the operand is on the target by then, and the item of the
operand still points to it. That no item is left out either is another matter
(`ReleasedOnce`).
-/

namespace Rxvm

open Function Linked Relation

/-- The stacks `stage1_err_cleanup` frees. -/
def cleanupStacks (cp : Context) : List StackId := cp.groups ++ [cp.base, cp.prog]

/-- `stage1_err_cleanup` comes to the end of every stack, and meets no item
twice. -/
def MetOnce (cp : Context) : Prop :=
  ∃ walk : StackId → List ItemId,
    (∀ k ∈ cleanupStacks cp, Walk (fun n => (cp.mem.item n).next) (cp.mem.stack k).head (walk k)) ∧
      ((cleanupStacks cp).flatMap walk).Nodup

/-- The counts for which `process_op_rep` returns `RXVM_BADOP`: `{0}`,
`{0,0}` and `{,0}`. -/
def RepBad (repN repM : Int) : Prop :=
  repN = 0 ∧ (repM = 0 ∨ repM = repNoField) ∨ repN = repFieldEmpty ∧ repM = 0

instance (repN repM : Int) : Decidable (RepBad repN repM) :=
  inferInstanceAs (Decidable (_ ∨ _))

/-- A repetition of zero times, with an operand that is not the first item of
the buffer. -/
def ZeroRepBehind (text : List CChar) (cp : Context) : Prop :=
  cp.inCharc = false ∧ cp.tok = .rep ∧
    RepBad (parseRep text cp.statics.lex.lp1 cp.statics.lex.lpn).1
      (parseRep text cp.statics.lex.lp1 cp.statics.lex.lpn).2 ∧
    cp.bufStack.head ≠ none ∧ cp.operand ≠ cp.bufStack.tail

instance (text : List CChar) (cp : Context) : Decidable (ZeroRepBehind text cp) :=
  inferInstanceAs (Decidable (_ ∧ _ ∧ _ ∧ _ ∧ _))

section

variable {g : Statics} {text : List CChar} {cp cp' : Context} {ids : StackId → List ItemId}
  {stk : StackId → Stk} {index : Option Nat}

theorem repCode_eq_none_iff {e : List Inst} {repN repM : Int} :
    repCode e repN repM = none ↔ RepBad repN repM := by
  unfold repCode repRangeCode repLessCode RepBad repNoField repFieldEmpty
  split_ifs <;> simp <;> omega

theorem opResult_eq_none_iff {s : Stk} {e : List Inst} : opResult text cp s e = none ↔
    cp.tok = .rep ∧ RepBad (parseRep text cp.statics.lex.lp1 cp.statics.lex.lpn).1
      (parseRep text cp.statics.lex.lp1 cp.statics.lex.lpn).2 := by
  unfold opResult
  cases htok : cp.tok <;> simp [repCode_eq_none_iff]

theorem cleanupStacks_nodup (h : (cp.base :: cp.prog :: cp.groups).Nodup) :
    (cleanupStacks cp).Nodup := by
  have hperm : (cleanupStacks cp).Perm (cp.base :: cp.prog :: cp.groups) := by
    unfold cleanupStacks
    exact List.perm_append_comm
  exact hperm.nodup_iff.mpr h

theorem mem_cleanupStacks {k : StackId} :
    k ∈ cleanupStacks cp ↔ k ∈ cp.base :: cp.prog :: cp.groups := by
  simp only [cleanupStacks, List.mem_append, List.mem_cons, List.not_mem_nil, or_false]
  tauto

/-- Walks through lists without common items meet no item twice. -/
theorem released_of_walks (ids : StackId → List ItemId)
    (hdistinct : (cp.base :: cp.prog :: cp.groups).Nodup)
    (hwalk : ∀ k ∈ cp.live, Walk (fun n => (cp.mem.item n).next) (cp.mem.stack k).head
      (ids k).reverse)
    (hnodup : ∀ k ∈ cp.live, (ids k).Nodup)
    (hdisjoint : ∀ k ∈ cp.live, ∀ k' ∈ cp.live, k ≠ k' → (ids k).Disjoint (ids k')) :
    MetOnce cp := by
  refine ⟨fun k => (ids k).reverse, fun k hk => hwalk k (mem_cleanupStacks.mp hk), ?_⟩
  rw [List.nodup_flatMap]
  constructor
  · intro k hk
    exact List.nodup_reverse.mpr (hnodup k (mem_cleanupStacks.mp hk))
  · refine (cleanupStacks_nodup hdistinct).imp_of_mem ?_
    intro k k' hk hk' hne
    have := hdisjoint k (mem_cleanupStacks.mp hk) k' (mem_cleanupStacks.mp hk') hne
    simpa [Function.onFun] using this

theorem Shows.walk {m : Mem} {k : StackId} {l : List ItemId} {s : Stk} (h : Shows m k l s) :
    Walk (fun n => (m.item n).next) (m.stack k).head l.reverse := by
  rw [h.head]
  exact h.linked.walk h.bottom

/-- Stacks that own their items are released without meeting an item twice. -/
theorem Owned.metOnce (h : Owned cp) : MetOnce cp := by
  rcases h with ⟨hdistinct, ids, stk, hst⟩
  exact released_of_walks ids hdistinct (fun k hk => (hst.shows k hk).walk) hst.nodup hst.disjoint

/-- An operator that fails on the first item of the buffer has moved nothing. -/
theorem Abandoned.metOnce (hlay : Layout cp cp.closing ids stk index) {m' : Mem}
    (hst : Store m' (cp.live \ {cp.buf}) (update ids cp.target (ids cp.target ++ (ids cp.buf).take 0))
      (update stk cp.target ((stk cp.target).append ((stk cp.buf).code.take 0)))
      ((ids cp.buf).drop 0) ((stk cp.buf).code.drop 0))
    (hmoved : Moved cp.mem m' cp.target)
    (hnext : ∀ x ∉ (ids cp.buf).take 0, (m'.item x).next = (cp.mem.item x).next) :
    MetOnce { cp with mem := m' } := by
  simp only [List.take_zero, List.append_nil, Stk.append_nil, update_eq_self, List.drop_zero]
    at hst
  refine released_of_walks ids hlay.distinct ?_ hlay.store.nodup hlay.store.disjoint
  intro k hk
  by_cases e : k = cp.buf
  · subst e
    have hwalk := (hlay.store.shows _ hlay.buf_live).walk
    have hlinks : (fun n => (m'.item n).next) = fun n => (cp.mem.item n).next :=
      funext fun n => hnext n (by simp)
    have hstack : m'.stack cp.buf = cp.mem.stack cp.buf := hmoved.stack _ hlay.buf_ne_target
    show Walk (fun n => (m'.item n).next) (m'.stack cp.buf).head _
    rw [hlinks, hstack]
    exact hwalk
  · exact (hst.shows k ⟨hk, e⟩).walk

/-- Behind other items, the operand's item points into the target. -/
theorem Abandoned.shared {i : Nat} {run : Coded} (hlay : Layout cp cp.closing ids stk (some i))
    (hi : i ≠ 0) (hab : Abandoned cp ids stk i run) :
    ∃ m', run = .ok (some .badop, { cp with mem := m' }) ∧
      ¬ MetOnce { cp with mem := m' } := by
  rcases hab with ⟨m', hrun, hst, hmoved, hnext⟩
  refine ⟨m', hrun, ?_⟩
  rintro ⟨walk, hwalk, hnodup⟩
  have hshows := hlay.store.shows _ hlay.buf_live
  have hids := hlay.store.nodup _ hlay.buf_live
  rcases hlay.located.found i rfl with ⟨_, _, hget⟩
  have hlt := (List.getElem?_eq_some_iff.mp hget).1
  obtain ⟨j, rfl⟩ : ∃ j, i = j + 1 := ⟨i - 1, by omega⟩
  obtain ⟨x, hx⟩ : ∃ x, (ids cp.buf)[j]? = some x :=
    ⟨_, List.getElem?_eq_getElem (by omega)⟩
  have hdrop : (ids cp.buf).drop j = x :: (ids cp.buf).drop (j + 1) := by
    rw [List.drop_eq_getElem?_toList_append, hx]
    rfl
  -- the item in front of the operand is on the target
  have htarget : x ∈ walk cp.target := by
    have hmem : cp.target ∈ cleanupStacks cp := mem_cleanupStacks.mpr hlay.target_live
    have hshown := (hst.shows cp.target ⟨hlay.target_live, hlay.buf_ne_target.symm⟩).walk
    rw [Walk.unique (hwalk _ hmem) hshown]
    have hin : x ∈ (ids cp.buf).take (j + 1) := by
      refine List.mem_of_getElem? (i := j) ?_
      rw [List.getElem?_take, if_pos (Nat.lt_succ_self j)]
      exact hx
    simp [hin]
  -- and it is still reached from the head of the buffer
  have hbuf : x ∈ walk cp.buf := by
    have hmem : cp.buf ∈ cleanupStacks cp := mem_cleanupStacks.mpr hlay.buf_live
    have hseg : Segment (fun n => (cp.mem.item n).next) (fun n => (cp.mem.item n).previous)
        (x :: (ids cp.buf).drop (j + 1)) := by
      rw [← hdrop]
      exact hshows.linked.drop j
    have hchain : Walkable (fun n => (m'.item n).next) ((ids cp.buf).drop j).reverse := by
      rw [Walkable, List.isChain_reverse, hdrop]
      refine List.IsChain.imp_of_mem_tail_imp ?_ hseg
      intro a b _ hb hab
      have hb' : b ∉ (ids cp.buf).take (j + 1) := by
        intro hin
        have hdis := List.disjoint_take_drop hids (Nat.le_refl (j + 1))
        exact hdis hin hb
      rw [hnext b hb']
      exact hab.2
    have hhead : ((ids cp.buf).drop j).reverse.head? = (m'.stack cp.buf).head := by
      rw [hmoved.stack _ hlay.buf_ne_target, hshows.head, List.head?_reverse, List.getLast?_drop,
        if_neg (by omega)]
    obtain ⟨t, ht⟩ : ∃ t, (m'.stack cp.buf).head = some t := by
      cases h : (m'.stack cp.buf).head with
      | none => rw [h, hdrop] at hhead; simp at hhead
      | some t => exact ⟨t, rfl⟩
    have hreach := hchain.reaches (hhead.trans ht)
      (show x ∈ ((ids cp.buf).drop j).reverse by rw [hdrop]; simp)
    exact (hwalk _ hmem).mem_of_reaches ht hreach
  rw [List.nodup_flatMap] at hnodup
  have : Std.Symm (Function.onFun List.Disjoint walk) := ⟨fun _ _ h => h.symm⟩
  have hdisjoint := hnodup.2.forall (mem_cleanupStacks.mpr hlay.buf_live)
    (mem_cleanupStacks.mpr hlay.target_live) hlay.buf_ne_target
  exact hdisjoint hbuf htarget

theorem stage1Step_op (hmain : cp.inCharc = false) (hop : cp.tok.isop = true) :
    stage1Step text cp = processOp text cp := by
  rw [stage1Step, if_neg (by simp [hmain]), stage1MainState, if_pos hop]

/-- With its operand in the buffer such a repetition fails, and leaves an item
in two stacks. -/
theorem ZeroRepBehind.step (h : ZeroRepBehind text cp)
    (hlay : Layout cp cp.closing ids stk index) :
    stage1Step text cp = .error .nullItem ∨
      ∃ cp', stage1Step text cp = .ok (some .badop, cp') ∧ ¬ MetOnce cp' := by
  rcases h with ⟨hmain, htok, hbad, hhead, hoperand⟩
  rw [stage1Step_op hmain (by rw [htok]; rfl)]
  have hshows := hlay.store.shows _ hlay.buf_live
  cases hindex : index with
  | none =>
      rw [hindex] at hlay
      exact Or.inl (processOp_missing hlay fun e => hhead (hshows.head_none_iff.mpr e))
  | some i =>
      rw [hindex] at hlay
      have hfound := processOp_found text hlay
      rw [opResult_eq_none_iff.mpr ⟨htok, hbad⟩] at hfound
      have hi : i ≠ 0 := by
        rintro rfl
        rcases hlay.located.found 0 rfl with ⟨n, hn, hget⟩
        refine hoperand ?_
        have htail : cp.bufStack.tail = (ids cp.buf).head? := hshows.tail
        rw [hn, htail, List.head?_eq_getElem?, hget]
      rcases Abandoned.shared hlay hi hfound with ⟨m', hrun, hnot⟩
      exact Or.inr ⟨_, hrun, hnot⟩

theorem ZeroRepBehind.last (h : ZeroRepBehind text cp) (hlay : Layout cp cp.closing ids stk index)
    (input : Nat) : nextCtx text (input, cp) = none := by
  cases hnext : nextCtx text (input, cp) with
  | none => rfl
  | some r =>
      rcases nextCtx_eq_some.mp hnext with ⟨_, _, cp', hstep, _⟩
      rcases h.step hlay with hrun | ⟨_, hrun, _⟩
      · cases hstep.symm.trans hrun
      · cases hstep.symm.trans hrun

/-- A turn that fails leaves an item in two stacks only if it is such a
repetition. -/
theorem stepError_metOnce {e : Err} (hlay : Layout cp cp.closing ids stk index)
    (hcharc : cp.inCharc = true → cp.closing = false)
    (hstep : stage1Step text cp = .ok (some e, cp')) (hzero : ¬ ZeroRepBehind text cp) :
    MetOnce cp' := by
  have hresult := stage1Step_result text hlay hcharc
  rw [hstep] at hresult
  generalize hrun : (Except.ok (some e, cp') : Coded) = run at hresult
  cases hresult with
  | lost => cases hrun
  | diverges => cases hrun
  | abandoned hmain hop i hindex hres run hab =>
      subst hindex
      by_cases hi : i = 0
      · subst hi
        rcases hab with ⟨m', hok, hst, hmoved, hnext⟩
        obtain ⟨-, rfl⟩ : e = .badop ∧ cp' = { cp with mem := m' } := by
          simpa using hrun.trans hok
        exact Abandoned.metOnce hlay hst hmoved hnext
      · rcases opResult_eq_none_iff.mp hres with ⟨htok, hbad⟩
        refine absurd ⟨hmain, htok, hbad, hlay.head_ne_none, ?_⟩ hzero
        rcases hlay.located.found i rfl with ⟨n, hn, hget⟩
        have htail : cp.bufStack.tail = (ids cp.buf).head? :=
          (hlay.store.shows _ hlay.buf_live).tail
        rw [hn, htail, List.head?_eq_getElem?]
        intro hsame
        have hlt := (List.getElem?_eq_some_iff.mp hget).1
        have heq : (ids cp.buf)[0]? = (ids cp.buf)[i]? := hsame.symm.trans hget.symm
        have := (List.getElem?_inj (by omega) (hlay.store.nodup _ hlay.buf_live)).mp heq
        exact hi this.symm
  | failed e' cp'' ids' stk' index' hlay' _ =>
      obtain ⟨-, rfl⟩ : some e = some e' ∧ cp' = cp'' := by simpa using hrun
      rcases hlay' with ⟨_, hlay'⟩
      exact hlay'.owned.metOnce
  | turned => cases hrun

/-- A run that comes to such a repetition leaves an item in two stacks. -/
theorem ZeroRepBehind.not_metOnce {e : Err} {input : Nat} {cp₀ : Context}
    (h : stage1 g text = .ok (.fail e cp)) (hvisit₀ : Visited g text input cp₀)
    (hzero : ZeroRepBehind text cp₀) : ¬ MetOnce cp := by
  rcases stage1_ends g text with ⟨_, _, _, _, _, hrun⟩ | hrun | ⟨input', cpl, hvisit, hends⟩
  · cases h.symm.trans hrun
  · cases h.symm.trans hrun
  rw [h] at hends
  rcases hvisit₀.wellMade with ⟨stk₀, index₀, hholds₀, _⟩
  rcases hholds₀.layout with ⟨ids₀, hlay₀⟩
  have hsame : nextCtx text (input', cpl) = none → cp₀ = cpl := fun hlast =>
    hvisit₀.last_unique (hzero.last hlay₀ input) hvisit hlast
  generalize hresult : (Except.ok (Stage1.fail e cp) : Run Stage1) = result at hends
  cases hends with
  | lexError e' htok =>
      have := hsame (by simp [nextCtx, htok])
      rw [← this, hzero.2.1] at htok
      cases htok
  | stepError e' cp' herr heos hstep =>
      obtain ⟨-, rfl⟩ : e = e' ∧ cp = cp' := by simpa using hresult
      have hlast : nextCtx text (input', cpl) = none := by
        cases hnext : nextCtx text (input', cpl) with
        | none => rfl
        | some r =>
            rcases nextCtx_eq_some.mp hnext with ⟨_, _, _, hstep', _⟩
            cases hstep.symm.trans hstep'
      obtain rfl := hsame hlast
      rcases hzero.step hlay₀ with hrun | ⟨cp', hrun, hnot⟩
      · cases hstep.symm.trans hrun
      · obtain ⟨-, rfl⟩ : e' = .badop ∧ cp = cp' := by simpa using hstep.symm.trans hrun
        exact hnot
  | stops => cases hresult
  | eos htok =>
      have := hsame (by simp [nextCtx, htok])
      rw [← this, hzero.2.1] at htok
      cases htok

/-- Any other run that fails leaves the stacks with items of their own. -/
theorem metOnce_of_fail {e : Err} (h : stage1 g text = .ok (.fail e cp))
    (hall : ∀ input cp₀, Visited g text input cp₀ → ¬ ZeroRepBehind text cp₀) :
    MetOnce cp := by
  rcases stage1_ends g text with ⟨_, _, _, _, _, hrun⟩ | hrun | ⟨input, cpl, hvisit, hends⟩
  · cases h.symm.trans hrun
  · cases h.symm.trans hrun
  rcases hvisit.wellMade with ⟨stk, index, hholds, _⟩
  rcases hholds.layout with ⟨ids, hlay⟩
  rw [h] at hends
  generalize hresult : (Except.ok (Stage1.fail e cp) : Run Stage1) = result at hends
  cases hends with
  | lexError e' htok =>
      obtain ⟨-, rfl⟩ : e = e' ∧ cp = cpl := by simpa using hresult
      exact hlay.owned.metOnce
  | stepError e' cp' herr heos hstep =>
      obtain ⟨-, rfl⟩ : e = e' ∧ cp = cp' := by simpa using hresult
      exact stepError_metOnce hlay hholds.charc hstep (hall _ _ hvisit)
  | stops => cases hresult
  | eos htok =>
      have hfinish := hholds.finish
      rw [← hresult] at hfinish
      cases hfinish with
      | eclass _ _ howned => exact howned.metOnce
      | eparen _ _ _ howned => exact howned.metOnce

/-- When `stage1` fails, `stage1_err_cleanup` meets no item twice, unless the run
comes to a repetition of zero times whose operand is not the first item of the
buffer. -/
theorem cleanup_meets_once {e : Err} (h : stage1 g text = .ok (.fail e cp)) :
    MetOnce cp ↔ ∀ input cp₀, Visited g text input cp₀ → ¬ ZeroRepBehind text cp₀ := by
  constructor
  · intro hmet input cp₀ hvisit hzero
    exact hzero.not_metOnce h hvisit hmet
  · exact metOnce_of_fail h

end

end Rxvm
