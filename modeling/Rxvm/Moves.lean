import Mathlib.Data.List.Perm.Subperm
import Rxvm.Heap
import Rxvm.Stage1

/-!
# Rxvm.Moves — moving and copying the operand

The three loops that follow `previous`: `stack_cat_from_item`,
`stack_dupe_from_item` and the loop of `process_op` that moves the literals in
front of the operand. Each is an induction on the list of items it walks
through.
-/

namespace Rxvm

open Function Linked

section

variable {m : Mem} {k : StackId} {n : ItemId} {live : Set StackId}
  {ids : StackId → List ItemId} {stk : StackId → Stk} {rest : List ItemId} {code : List Inst}

/-! ## The items on their way -/

theorem Store.rest_length (h : Store m live ids stk rest code) : rest.length ≤ m.itemCount := by
  have hsub : rest ⊆ List.range m.itemCount := by
    intro n hn
    exact List.mem_range.mpr (h.rest_lt n hn)
  have := (List.subperm_of_subset h.rest_nodup hsub).length_le
  rwa [List.length_range] at this

theorem Store.rest_code_length (h : Store m live ids stk rest code) :
    code.length = rest.length := by
  rw [← h.rest_code, List.length_map]

/-- Items that are on their way may be left behind. -/
theorem Store.leave {lost : List ItemId} {lostCode : List Inst}
    (h : Store m live ids stk (lost ++ rest) (lostCode ++ code))
    (hlen : lost.length = lostCode.length) : Store m live ids stk rest code where
  shows := h.shows
  nodup := h.nodup
  disjoint := h.disjoint
  item_lt := h.item_lt
  stack_lt := h.stack_lt
  rest_walk := List.IsChain.right_of_append h.rest_walk
  rest_nodup := (List.nodup_append'.mp h.rest_nodup).2.1
  rest_disjoint := fun k hk => (List.disjoint_append_right.mp (h.rest_disjoint k hk)).2
  rest_lt := fun n hn => h.rest_lt n (by simp [hn])
  rest_code := by
    have hc := h.rest_code
    rw [List.map_append] at hc
    exact (List.append_inj hc (by simpa using hlen)).2

/-- The first item on its way arrives at the head of a stack. -/
theorem Store.arrive {i : Inst} (h : Store m live ids stk (n :: rest) (i :: code)) (hk : k ∈ live)
    (hbottom : ids k = [] → (m.item n).next = none) (hcap : (stk k).capped = false) :
    Store (m.linkHead k n) live (update ids k (ids k ++ [n]))
        (update stk k ((stk k).append [i])) rest code ∧
      ((m.linkHead k n).item n).previous = (m.item n).previous := by
  have hleave : Store m live ids stk rest code := by
    have h' : Store m live ids stk ([n] ++ rest) ([i] ++ code) := h
    exact h'.leave rfl
  have hfree : ∀ k ∈ live, n ∉ ids k := by
    intro k hk hn
    exact h.rest_disjoint k hk hn (by simp)
  have hi : (m.item n).data = i := by
    have hc := h.rest_code
    rw [List.map_cons] at hc
    exact (List.cons.inj hc).1
  have hlink := hleave.linkHead hk (h.rest_lt n (by simp)) hfree
    (List.nodup_cons.mp h.rest_nodup).1 hbottom (by simp [hcap])
  rw [hi] at hlink
  exact ⟨hlink, linkHead_previous_of_ne fun e => hfree k hk (h.head_mem hk e.symm)⟩

/-- Where a walk goes on from the first item. -/
theorem Store.previous_head (h : Store m live ids stk (n :: rest) code) (hne : rest ≠ []) :
    (m.item n).previous = rest.head? := by
  cases rest with
  | nil => exact absurd rfl hne
  | cons b rest =>
      have := (Walkable.cons_iff.mp h.rest_walk).1 b rfl
      simpa using this

theorem Store.getLast_eq_iff (h : Store m live ids stk (n :: rest) code) :
    some n = (n :: rest).getLast? ↔ rest = [] := by
  constructor
  · intro e
    cases rest with
    | nil => rfl
    | cons b rest =>
        rw [List.getLast?_cons_cons] at e
        have hmem : n ∈ b :: rest := List.mem_of_mem_getLast? (Option.mem_def.mpr e.symm)
        exact absurd hmem (List.nodup_cons.mp h.rest_nodup).1
  · rintro rfl
    rfl

/-- What a loop over the operand does to the memory: it changes the stack
`k`. -/
structure Moved (m m' : Mem) (k : StackId) : Prop where
  stack : ∀ k' ≠ k, m'.stack k' = m.stack k'
  itemCount : m.itemCount ≤ m'.itemCount
  stackCount : m'.stackCount = m.stackCount

theorem Moved.refl (m : Mem) (k : StackId) : Moved m m k :=
  ⟨fun _ _ => rfl, Nat.le_refl _, rfl⟩

theorem Moved.trans {m₁ m₂ m₃ : Mem} (h₁ : Moved m₁ m₂ k) (h₂ : Moved m₂ m₃ k) :
    Moved m₁ m₃ k where
  stack := fun k' hk => (h₂.stack k' hk).trans (h₁.stack k' hk)
  itemCount := Nat.le_trans h₁.itemCount h₂.itemCount
  stackCount := h₂.stackCount.trans h₁.stackCount

theorem moved_linkHead : Moved m (m.linkHead k n) k where
  stack := fun _ hk => linkHead_stack_of_ne hk
  itemCount := by rw [linkHead_items]
  stackCount := linkHead_stacks

theorem moved_addHead (inst : Inst) : Moved m (m.stackAddInstHead k inst).1 k where
  stack := fun _ hk => linkHead_stack_of_ne hk
  itemCount := by
    simp only [Mem.stackAddInstHead, linkHead_items]
    exact Nat.le_succ _
  stackCount := by
    simp only [Mem.stackAddInstHead, linkHead_stacks]
    rfl

/-! ## The loops -/

/-- `stack_cat_from_item`: the operand goes to `k`. -/
theorem stackCatFromItem_moves : ∀ {rest : List ItemId} {fuel : Nat} {m : Mem}
    {ids : StackId → List ItemId} {stk : StackId → Stk} {code : List Inst},
    Store m live ids stk rest code → k ∈ live → rest ≠ [] → rest.length ≤ fuel →
    (ids k = [] → ∀ n ∈ rest.head?, (m.item n).next = none) → (stk k).capped = false →
    ∃ m', stackCatFromItem k rest.getLast? fuel m rest.head? = .ok m' ∧
      Store m' live (update ids k (ids k ++ rest)) (update stk k ((stk k).append code)) [] [] ∧
      Moved m m' k := by
  intro rest
  induction rest with
  | nil =>
      intro fuel m ids stk code _ _ hne
      exact absurd rfl hne
  | cons n rest ih =>
      intro fuel m ids stk code h hk _ hfuel hbottom hcap
      obtain ⟨fuel, rfl⟩ : ∃ f, fuel = f + 1 := ⟨fuel - 1, by simp at hfuel; omega⟩
      rcases code with _ | ⟨i, code⟩
      · have := h.rest_code_length
        simp at this
      rcases h.arrive hk (fun e => hbottom e n rfl) hcap with ⟨hstore, hprev⟩
      by_cases hrest : rest = []
      · subst hrest
        have hcode : code = [] := by
          have := h.rest_code_length
          simpa using this
        subst hcode
        refine ⟨m.linkHead k n, ?_, hstore, moved_linkHead⟩
        simp [stackCatFromItem, Mem.stackPointNewHead]
      · have hstop : some n ≠ (n :: rest).getLast? := fun e => hrest (h.getLast_eq_iff.mp e)
        have hlast : (n :: rest).getLast? = rest.getLast? := by
          cases rest with
          | nil => exact absurd rfl hrest
          | cons b rest => rw [List.getLast?_cons_cons]
        rcases ih hstore hk hrest (by simpa using hfuel) (by simp) (by simpa using hcap) with ⟨m', hrun, hst, hmoved⟩
        refine ⟨m', ?_, ?_, moved_linkHead.trans hmoved⟩
        · rw [List.head?_cons, stackCatFromItem]
          simp only [Mem.stackPointNewHead]
          rw [← hrun, ← h.previous_head hrest, ← hprev, ← hlast]
          simp [hstop]
          rfl
        · simpa using hst

/-- The loop of `process_op`: what stands in front of the operand goes to
`k`. -/
theorem walkToOperand_moves : ∀ {pre rest : List ItemId} {fuel : Nat} {m : Mem}
    {ids : StackId → List ItemId} {stk : StackId → Stk} {preCode code : List Inst} (size : Nat),
    Store m live ids stk (pre ++ rest) (preCode ++ code) → pre.length = preCode.length →
    k ∈ live → rest ≠ [] → pre.length < fuel →
    (ids k = [] → ∀ n ∈ (pre ++ rest).head?, (m.item n).next = none) → (stk k).capped = false →
    ∃ m', walkToOperand k rest.head? fuel m (pre ++ rest).head? size =
        .ok (m', size - pre.length) ∧
      Store m' live (update ids k (ids k ++ pre)) (update stk k ((stk k).append preCode))
        rest code ∧
      Moved m m' k ∧ ∀ x ∉ pre, (m'.item x).next = (m.item x).next := by
  -- on what stands in front of the operand
  intro pre
  induction pre with
  | nil =>
      intro rest fuel m ids stk preCode code size h hlen _ _ hfuel _ _
      obtain ⟨fuel, rfl⟩ : ∃ f, fuel = f + 1 := ⟨fuel - 1, by simp at hfuel; omega⟩
      obtain rfl : preCode = [] := by simpa using hlen.symm
      refine ⟨m, ?_, ?_, Moved.refl m k, fun _ _ => rfl⟩
      · simp [walkToOperand]
      · simpa using h
  | cons n pre ih =>
      intro rest fuel m ids stk preCode code size h hlen hk hne hfuel hbottom hcap
      obtain ⟨fuel, rfl⟩ : ∃ f, fuel = f + 1 := ⟨fuel - 1, by simp at hfuel; omega⟩
      rcases preCode with _ | ⟨i, preCode⟩
      · simp at hlen
      have h' : Store m live ids stk (n :: (pre ++ rest)) (i :: (preCode ++ code)) := h
      rcases h'.arrive hk (fun e => hbottom e n rfl) hcap with ⟨hstore, hprev⟩
      have hrest : pre ++ rest ≠ [] := by simp [hne]
      -- the operand is not among these, so the loop does not stop
      have hoper : some n ≠ rest.head? := by
        intro e
        have : n ∈ rest := List.mem_of_mem_head? (Option.mem_def.mpr e.symm)
        exact (List.nodup_cons.mp h'.rest_nodup).1 (by simp [this])
      rcases ih (size - 1) hstore (by simpa using hlen) hk hne (by simpa using hfuel) (by simp)
          (by simpa using hcap) with
        ⟨m', hrun, hst, hmoved, hnext⟩
      refine ⟨m', ?_, ?_, moved_linkHead.trans hmoved, ?_⟩
      · rw [List.cons_append, List.head?_cons, walkToOperand]
        simp only [Mem.stackPointNewHead, if_neg hoper]
        have hsize : size - (n :: pre).length = size - 1 - pre.length := by
          simp only [List.length_cons]
          omega
        rw [hsize, ← hrun, ← h'.previous_head hrest, ← hprev]
        rfl
      · simpa using hst
      · intro x hx
        rw [hnext x (by simp at hx; exact hx.2)]
        exact linkHead_next_of_ne (by simp at hx; exact hx.1)

/-- Where the operand is not among the items, the walk runs off their end. -/
theorem walkToOperand_runs_off : ∀ {rest : List ItemId} {fuel : Nat} {m : Mem}
    {ids : StackId → List ItemId} {stk : StackId → Stk} {code : List Inst} {o : ItemId} (size : Nat),
    Store m live ids stk rest code → k ∈ live → rest ≠ [] → rest.length < fuel → o ∉ rest →
    (∀ n ∈ rest.getLast?, (m.item n).previous = none) →
    (ids k = [] → ∀ n ∈ rest.head?, (m.item n).next = none) → (stk k).capped = false →
    walkToOperand k (some o) fuel m rest.head? size = .error .nullItem := by
  intro rest
  induction rest with
  | nil =>
      intro fuel m ids stk code o size _ _ hne
      exact absurd rfl hne
  | cons n rest ih =>
      intro fuel m ids stk code o size h hk _ hfuel ho hlast hbottom hcap
      obtain ⟨fuel, rfl⟩ : ∃ f, fuel = f + 1 := ⟨fuel - 1, by simp at hfuel; omega⟩
      rcases code with _ | ⟨i, code⟩
      · have := h.rest_code_length
        simp at this
      rcases h.arrive hk (fun e => hbottom e n rfl) hcap with ⟨hstore, hprev⟩
      -- the walk does not stop at this item
      have hoper : some n ≠ some o := fun e => ho (by simp [Option.some.inj e])
      rw [List.head?_cons, walkToOperand]
      simp only [Mem.stackPointNewHead, if_neg hoper]
      -- it has run past the last item, and reads the pointer behind it
      by_cases hrest : rest = []
      · subst hrest
        have hnone : ((m.linkHead k n).item n).previous = none := by
          rw [hprev]
          exact hlast n rfl
        have hhead : ((m.linkHead k n).stack k).head = some n := by
          rw [(hstore.shows k hk).head]
          simp
        obtain ⟨fuel, rfl⟩ : ∃ f, fuel = f + 1 := ⟨fuel - 1, by simp at hfuel; omega⟩
        show walkToOperand k (some o) (fuel + 1) (m.linkHead k n)
          ((m.linkHead k n).item n).previous (size - 1) = _
        rw [hnone, walkToOperand]
        simp only [Mem.stackPointNewHead, hhead]
        rfl
      · -- the last item is still the end of what moves
        have hlast' : ∀ x ∈ rest.getLast?, ((m.linkHead k n).item x).previous = none := by
          intro x hx
          have hmem : x ∈ rest := List.mem_of_mem_getLast? hx
          have hx' : x ∈ (n :: rest).getLast? := by
            cases rest with
            | nil => exact absurd rfl hrest
            | cons b rest => rwa [List.getLast?_cons_cons]
          rw [linkHead_previous_of_ne fun e => h.rest_disjoint k hk (h.head_mem hk e.symm)
            (by simp [hmem])]
          exact hlast x hx'
        have := ih (size - 1) hstore hk hrest (by simpa using hfuel)
          (fun hmem => ho (List.mem_cons_of_mem n hmem)) hlast' (by simp) (by simpa using hcap)
        rw [← this, ← h.previous_head hrest, ← hprev]
        rfl

/-- `stack_dupe_from_item`: copies of the operand, or of what is left of it,
go to `k`. -/
theorem stackDupeFromItem_copies : ∀ {rest pre : List ItemId} {fuel : Nat} {m : Mem}
    {ids : StackId → List ItemId} {stk : StackId → Stk} {preCode code : List Inst},
    Store m live ids stk (pre ++ rest) (preCode ++ code) → pre.length = preCode.length →
    k ∈ live → rest ≠ [] → rest.length ≤ fuel →
    ∃ m' new, stackDupeFromItem k rest.getLast? fuel m rest.head? = .ok m' ∧ new ≠ [] ∧
      Store m' live (update ids k (ids k ++ new)) (update stk k ((stk k).append code))
        (pre ++ rest) (preCode ++ code) ∧
      Moved m m' k := by
  -- on what is still to be copied
  intro rest
  induction rest with
  | nil =>
      intro pre fuel m ids stk preCode code _ _ _ hne
      exact absurd rfl hne
  | cons n rest ih =>
      intro pre fuel m ids stk preCode code h hlen hk _ hfuel
      obtain ⟨fuel, rfl⟩ : ∃ f, fuel = f + 1 := ⟨fuel - 1, by simp at hfuel; omega⟩
      have hcodelen := (h.leave hlen).rest_code_length
      rcases code with _ | ⟨i, code⟩
      · simp at hcodelen
      have hi : (m.item n).data = i := by
        have hc := (h.leave hlen).rest_code
        rw [List.map_cons] at hc
        exact (List.cons.inj hc).1
      have hadd := h.addHead hk i
      -- the last item: the loop stops behind its copy
      by_cases hrest : rest = []
      · subst hrest
        have hcode : code = [] := by simpa using hcodelen
        subst hcode
        refine ⟨(m.stackAddInstHead k i).1, [m.itemCount], ?_, by simp, hadd, moved_addHead i⟩
        simp [stackDupeFromItem, hi]
      · have hsuffix := hadd.leave hlen
        have hstop : some n ≠ (n :: rest).getLast? :=
          fun e => hrest (hsuffix.getLast_eq_iff.mp e)
        have hlast : (n :: rest).getLast? = rest.getLast? := by
          cases rest with
          | nil => exact absurd rfl hrest
          | cons b rest => rw [List.getLast?_cons_cons]
        -- the copy has gone to `k`, and the next item is copied from the same list
        have hadd' : Store (m.stackAddInstHead k i).1 live (update ids k (ids k ++ [m.itemCount]))
            (update stk k ((stk k).append [i])) (pre ++ [n] ++ rest) (preCode ++ [i] ++ code) := by
          simpa using hadd
        rcases ih hadd' (by simp [hlen]) hk hrest (by simpa using hfuel) with
          ⟨m', new, hrun, _, hst, hmoved⟩
        refine ⟨m', m.itemCount :: new, ?_, by simp, ?_, (moved_addHead i).trans hmoved⟩
        · rw [List.head?_cons, stackDupeFromItem]
          rw [← hlast] at hrun
          rw [hi, if_neg hstop, hsuffix.previous_head hrest]
          exact hrun
        · simpa using hst

end

end Rxvm
