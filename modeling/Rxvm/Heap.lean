import Mathlib.Data.Set.Basic
import Mathlib.Data.List.Nodup
import Rxvm.Lib.Linked
import Rxvm.Vmcode

/-!
# Rxvm.Heap — what the compiler's memory holds

A stack of the compiler is a list of instructions, in program order, and the
index of its dangling jump. `Shows` relates the pointers of one stack to such
a list; `Store` says that the memory shows a list for each of a set of stacks,
that no item belongs to two of them, and which items are on their way from one
stack to another.
-/

namespace Rxvm

open Function Linked

/-! ## Lists in memory -/

/-- The contents of a stack, in program order; `jmp` is the index of the jump
that `attach_dangling_alt` has still to complete. Where `capped` is set,
following `previous` ends at the head. -/
structure Stk where
  code : List Inst
  jmp : Option Nat
  capped : Bool
deriving DecidableEq, Repr

namespace Stk

def empty : Stk := { code := [], jmp := none, capped := false }

def append (s : Stk) (code : List Inst) : Stk := { s with code := s.code ++ code }

/-- `attach_dangling_alt`: the jump leads behind all that is there. -/
def attach (s : Stk) : Stk :=
  match s.jmp with
  | none => s
  | some j => { s with code := s.code.modify j (Inst.setX ((s.code.length : Int) - j)), jmp := none }

@[simp] theorem append_nil (s : Stk) : s.append [] = s := by simp [append]

@[simp] theorem append_append (s : Stk) (c d : List Inst) :
    (s.append c).append d = s.append (c ++ d) := by simp [append]

@[simp] theorem append_code (s : Stk) (c : List Inst) : (s.append c).code = s.code ++ c := rfl

@[simp] theorem append_jmp (s : Stk) (c : List Inst) : (s.append c).jmp = s.jmp := rfl

@[simp] theorem append_capped (s : Stk) (c : List Inst) : (s.append c).capped = s.capped := rfl

@[simp] theorem empty_code : empty.code = [] := rfl

@[simp] theorem empty_jmp : empty.jmp = none := rfl

end Stk

/-- The dangling jump recorded in a stack is the item at the given index. -/
def Dangles (st : IrStack) (ids : List ItemId) : Option Nat → Prop
  | none => st.danglingAlt = none
  | some j => j < ids.length ∧ st.danglingAlt = ids[j]? ∧ st.dsize = j + 1

/-- The stack `k` is the list of the items `ids`, from tail to head, and they
hold the instructions of `s`. -/
structure Shows (m : Mem) (k : StackId) (ids : List ItemId) (s : Stk) : Prop where
  head : (m.stack k).head = ids.getLast?
  tail : (m.stack k).tail = ids.head?
  size : (m.stack k).size = ids.length
  linked : Segment (fun n => (m.item n).next) (fun n => (m.item n).previous) ids
  bottom : ∀ n ∈ ids.head?, (m.item n).next = none
  code : ids.map (fun n => (m.item n).data) = s.code
  dangling : Dangles (m.stack k) ids s.jmp
  cap : s.capped = true → ∀ n ∈ ids.getLast?, (m.item n).previous = none

/-- The stacks `live` show their lists and share no item. The items `rest` are
in none of them: they are being moved, and a walk along `previous` leads
through them. -/
structure Store (m : Mem) (live : Set StackId) (ids : StackId → List ItemId)
    (stk : StackId → Stk) (rest : List ItemId) (code : List Inst) : Prop where
  shows : ∀ k ∈ live, Shows m k (ids k) (stk k)
  nodup : ∀ k ∈ live, (ids k).Nodup
  disjoint : ∀ k ∈ live, ∀ k' ∈ live, k ≠ k' → (ids k).Disjoint (ids k')
  item_lt : ∀ k ∈ live, ∀ n ∈ ids k, n < m.itemCount
  stack_lt : ∀ k ∈ live, k < m.stackCount
  rest_walk : Walkable (fun n => (m.item n).previous) rest
  rest_nodup : rest.Nodup
  rest_disjoint : ∀ k ∈ live, (ids k).Disjoint rest
  rest_lt : ∀ n ∈ rest, n < m.itemCount
  rest_code : rest.map (fun n => (m.item n).data) = code

section

variable {m m' : Mem} {k k' : StackId} {l : List ItemId} {s : Stk} {n x : ItemId}
  {live : Set StackId} {ids : StackId → List ItemId} {stk : StackId → Stk}
  {rest : List ItemId} {code : List Inst}

theorem Shows.congr (h : Shows m k l s) (hstack : m'.stack k = m.stack k)
    (hitem : ∀ n ∈ l, m'.item n = m.item n) : Shows m' k l s where
  head := by rw [hstack]; exact h.head
  tail := by rw [hstack]; exact h.tail
  size := by rw [hstack]; exact h.size
  linked := h.linked.congr (fun n hn => by rw [hitem n hn]) (fun n hn => by rw [hitem n hn])
  bottom := by
    intro n hn
    rw [hitem n (List.mem_of_mem_head? hn)]
    exact h.bottom n hn
  code := by
    rw [← h.code]
    exact List.map_congr_left fun n hn => by rw [hitem n hn]
  dangling := by rw [hstack]; exact h.dangling
  cap := by
    intro hc n hn
    rw [hitem n (List.mem_of_mem_getLast? hn)]
    exact h.cap hc n hn

theorem Shows.code_length (h : Shows m k l s) : l.length = s.code.length := by
  rw [← h.code, List.length_map]

theorem Shows.size_eq (h : Shows m k l s) : (m.stack k).size = s.code.length := by
  rw [h.size, h.code_length]

theorem Shows.head_none_iff (h : Shows m k l s) : (m.stack k).head = none ↔ s.code = [] := by
  rw [h.head, List.getLast?_eq_none_iff, ← h.code, List.map_eq_nil_iff]

theorem Dangles.append (st : IrStack) {j : Option Nat} (h : Dangles st l j) (l' : List ItemId) :
    Dangles st (l ++ l') j := by
  cases j with
  | none => exact h
  | some j =>
      rcases h with ⟨hlt, hd, hsize⟩
      refine ⟨by simp; omega, ?_, hsize⟩
      rw [hd, List.getElem?_append_left hlt]

/-- One stack takes a new list. What the other stacks and the moving items
hold is as before. -/
theorem Store.change (h : Store m live ids stk rest code) {live' : Set StackId}
    (hlive : ∀ k' ∈ live', k' ≠ k → k' ∈ live) (hshows : Shows m' k l s) (hnodup : l.Nodup)
    (hfree : ∀ k' ∈ live', k' ≠ k → (ids k').Disjoint l) (hrest : l.Disjoint rest)
    (hlt : ∀ n ∈ l, n < m'.itemCount) (hk : k < m'.stackCount)
    (hstack : ∀ k' ∈ live', k' ≠ k → m'.stack k' = m.stack k')
    (hitem : ∀ k' ∈ live', k' ≠ k → ∀ n ∈ ids k', m'.item n = m.item n)
    (hprev : ∀ n ∈ rest, (m'.item n).previous = (m.item n).previous)
    (hdata : ∀ n ∈ rest, (m'.item n).data = (m.item n).data)
    (hitems : m.itemCount ≤ m'.itemCount) (hstacks : m.stackCount ≤ m'.stackCount) :
    Store m' live' (update ids k l) (update stk k s) rest code := by
  constructor
  · -- each field of the store asks first whether the stack is the one that changed
    intro k' hk'
    by_cases e : k' = k
    · subst e
      simpa only [update_self] using hshows
    · simp only [update_of_ne e]
      exact (h.shows k' (hlive k' hk' e)).congr (hstack k' hk' e) (hitem k' hk' e)
  · intro k' hk'
    by_cases e : k' = k
    · subst e
      simpa only [update_self] using hnodup
    · simp only [update_of_ne e]
      exact h.nodup k' (hlive k' hk' e)
  · intro k₁ h₁ k₂ h₂ hne
    by_cases e₁ : k₁ = k
    · subst e₁
      simp only [update_self, update_of_ne hne.symm]
      exact fun x hx hx₂ => hfree k₂ h₂ hne.symm hx₂ hx
    · by_cases e₂ : k₂ = k
      · subst e₂
        simp only [update_self, update_of_ne e₁]
        exact hfree k₁ h₁ e₁
      · simp only [update_of_ne e₁, update_of_ne e₂]
        exact h.disjoint k₁ (hlive k₁ h₁ e₁) k₂ (hlive k₂ h₂ e₂) hne
  · intro k' hk' n hn
    by_cases e : k' = k
    · subst e
      exact hlt n (by simpa only [update_self] using hn)
    · simp only [update_of_ne e] at hn
      exact Nat.lt_of_lt_of_le (h.item_lt k' (hlive k' hk' e) n hn) hitems
  · intro k' hk'
    by_cases e : k' = k
    · rw [e]
      exact hk
    · exact Nat.lt_of_lt_of_le (h.stack_lt k' (hlive k' hk' e)) hstacks
  · exact h.rest_walk.congr hprev
  · exact h.rest_nodup
  · intro k' hk'
    by_cases e : k' = k
    · subst e
      simpa only [update_self] using hrest
    · simp only [update_of_ne e]
      exact h.rest_disjoint k' (hlive k' hk' e)
  · intro n hn
    exact Nat.lt_of_lt_of_le (h.rest_lt n hn) hitems
  · rw [← h.rest_code]
    exact List.map_congr_left hdata

theorem Store.head_mem (h : Store m live ids stk rest code) (hk : k ∈ live)
    (hx : (m.stack k).head = some x) : x ∈ ids k := by
  rw [(h.shows k hk).head] at hx
  exact List.mem_of_mem_getLast? hx

/-! ## One item at the head -/

theorem linkHead_of_none (h : (m.stack k).head = none) :
    m.linkHead k n = m.setStack k
      { m.stack k with tail := some n, head := some n, size := (m.stack k).size + 1 } := by
  simp only [Mem.linkHead, h]

theorem linkHead_of_some {a : ItemId} (h : (m.stack k).head = some a) :
    m.linkHead k n =
      ((m.setItem a { m.item a with previous := some n }).setItem n
        { (m.setItem a { m.item a with previous := some n }).item n with next := some a }).setStack
        k { m.stack k with head := some n, size := (m.stack k).size + 1 } := by
  simp only [Mem.linkHead, h]

@[simp] theorem linkHead_data : ((m.linkHead k n).item x).data = (m.item x).data := by
  cases h : (m.stack k).head with
  | none => rw [linkHead_of_none h]; rfl
  | some a =>
      rw [linkHead_of_some h]
      simp only [Mem.setItem, Mem.setStack, update_apply]
      split_ifs with h₁ h₂ h₂ <;> simp_all

@[simp] theorem linkHead_items : (m.linkHead k n).itemCount = m.itemCount := by
  cases h : (m.stack k).head with
  | none => rw [linkHead_of_none h]; rfl
  | some a => rw [linkHead_of_some h]; rfl

@[simp] theorem linkHead_stacks : (m.linkHead k n).stackCount = m.stackCount := by
  cases h : (m.stack k).head with
  | none => rw [linkHead_of_none h]; rfl
  | some a => rw [linkHead_of_some h]; rfl

theorem linkHead_stack_of_ne (hk : k' ≠ k) : (m.linkHead k n).stack k' = m.stack k' := by
  cases h : (m.stack k).head with
  | none => rw [linkHead_of_none h]; simp [Mem.setStack, hk]
  | some a => rw [linkHead_of_some h]; simp [Mem.setItem, Mem.setStack, hk]

theorem linkHead_next_of_ne (hx : x ≠ n) :
    ((m.linkHead k n).item x).next = (m.item x).next := by
  cases h : (m.stack k).head with
  | none => rw [linkHead_of_none h]; rfl
  | some a =>
      rw [linkHead_of_some h]
      simp only [Mem.setItem, Mem.setStack, update_apply, if_neg hx]
      split_ifs with h₁ <;> simp_all

theorem linkHead_previous_of_ne (hx : some x ≠ (m.stack k).head) :
    ((m.linkHead k n).item x).previous = (m.item x).previous := by
  cases h : (m.stack k).head with
  | none => rw [linkHead_of_none h]; rfl
  | some a =>
      have hxa : x ≠ a := fun e => hx (by rw [h, e])
      rw [linkHead_of_some h]
      simp only [Mem.setItem, Mem.setStack, update_apply, if_neg hxa]
      split_ifs with h₁ h₂ <;> simp_all

theorem linkHead_item_of_ne (hx : x ≠ n) (hh : some x ≠ (m.stack k).head) :
    (m.linkHead k n).item x = m.item x := by
  have hd : ((m.linkHead k n).item x).data = (m.item x).data := linkHead_data
  have hn : ((m.linkHead k n).item x).next = (m.item x).next := linkHead_next_of_ne hx
  have hp : ((m.linkHead k n).item x).previous = (m.item x).previous :=
    linkHead_previous_of_ne hh
  cases hy : (m.linkHead k n).item x with
  | mk data next previous =>
      rw [hy] at hd hn hp
      cases hz : m.item x with
      | mk data' next' previous' => simp_all

theorem linkHead_stack_some {a : ItemId} (h : (m.stack k).head = some a) :
    (m.linkHead k n).stack k =
      { m.stack k with head := some n, size := (m.stack k).size + 1 } := by
  rw [linkHead_of_some h]
  simp [Mem.setStack]

theorem linkHead_next_self {a : ItemId} (h : (m.stack k).head = some a) :
    ((m.linkHead k n).item n).next = some a := by
  rw [linkHead_of_some h]
  simp [Mem.setItem, Mem.setStack]

theorem linkHead_previous_head {a : ItemId} (h : (m.stack k).head = some a) (hn : a ≠ n) :
    ((m.linkHead k n).item a).previous = some n := by
  rw [linkHead_of_some h]
  simp [Mem.setItem, Mem.setStack, hn]

/-- `stack_point_new_head` puts the item behind the others. -/
theorem Shows.linkHead (h : Shows m k l s) (hnodup : l.Nodup) (hn : n ∉ l)
    (hbottom : l = [] → (m.item n).next = none)
    (hcap : s.capped = true → (m.item n).previous = none) :
    Shows (m.linkHead k n) k (l ++ [n]) (s.append [(m.item n).data]) := by
  -- the data of the items does not change, only their pointers
  have hcode : (l ++ [n]).map (fun x => ((m.linkHead k n).item x).data) =
      (s.append [(m.item n).data]).code := by
    simp [h.code]
  -- the item is the new head, and its `previous` stays what it was
  have hcap' : (s.append [(m.item n).data]).capped = true → ∀ x ∈ (l ++ [n]).getLast?,
      ((m.linkHead k n).item x).previous = none := by
    intro hc x hx
    obtain rfl : n = x := by simpa using hx
    rw [linkHead_previous_of_ne]
    · exact hcap hc
    · intro e
      rw [h.head] at e
      exact hn (List.mem_of_mem_getLast? (Option.mem_def.mpr e.symm))
  rcases List.eq_nil_or_concat' l with rfl | ⟨l, a, rfl⟩
  · -- an empty stack: the item is its head and its tail
    have hhead : (m.stack k).head = none := by simpa using h.head
    have hmem := linkHead_of_none (n := n) hhead
    refine ⟨?_, ?_, ?_, Segment.singleton n, ?_, hcode, ?_, hcap'⟩
    · simp [hmem, Mem.setStack]
    · simp [hmem, Mem.setStack]
    · simp [hmem, Mem.setStack, h.size]
    · intro x hx
      obtain rfl : n = x := by simpa using hx
      rw [hmem]
      exact hbottom rfl
    · have hd := Dangles.append _ h.dangling [n]
      rw [hmem]
      cases hj : s.jmp with
      | none => simpa [hj, Dangles, Mem.setStack] using hd
      | some j => simpa [hj, Dangles, Mem.setStack] using hd
  · -- the head `a` gets the item behind it: two pointers change, `a` back and the item on
    have hhead : (m.stack k).head = some a := by simpa using h.head
    have hstack := linkHead_stack_some (n := n) hhead
    have ha : a ≠ n := fun e => hn (by simp [e])
    have hal : a ∉ l := by
      intro hmem
      exact (List.nodup_append.mp hnodup).2.2 a hmem a (by simp) rfl
    have hne : ∀ x ∈ l, x ≠ a := fun x hx e => hal (e ▸ hx)
    have hnl : ∀ x ∈ l ++ [a], x ≠ n := fun x hx e => hn (e ▸ hx)
    refine ⟨?_, ?_, ?_, ?_, ?_, hcode, ?_, hcap'⟩
    · simp [hstack]
    · rw [hstack]
      have := h.tail
      cases l with
      | nil => simpa using this
      | cons b l => simpa using this
    · rw [hstack]
      simp [h.size]
    · -- the item becomes a segment of its own, linked to the old one at `a`
      refine Segment.append h.linked (Segment.singleton n) ?_ ?_ ?_ ?_ ?_ ?_
      · intro x hx
        exact linkHead_previous_of_ne (by rw [hhead]; simpa using hne x hx)
      · intro x hx
        exact linkHead_next_of_ne (hnl x hx)
      · intro x hx
        obtain rfl : x = n := by simpa using hx
        exact linkHead_previous_of_ne (by rw [hhead]; simpa using ha.symm)
      · simp
      · exact linkHead_previous_head hhead ha
      · exact linkHead_next_self hhead
    · -- the tail of the stack is the old one, and its `next` with it
      intro x hx
      have hx' : x ∈ (l ++ [a]).head? := by
        cases l with
        | nil => simpa using hx
        | cons b l => simpa using hx
      have : ((m.linkHead k n).item x).next = (m.item x).next :=
        linkHead_next_of_ne (hnl x (List.mem_of_mem_head? hx'))
      rw [this]
      exact h.bottom x hx'
    · have hd := Dangles.append _ h.dangling [n]
      rw [hstack]
      cases hj : s.jmp with
      | none => simpa [hj, Dangles] using hd
      | some j => simpa [hj, Dangles] using hd

/-- The item goes from nowhere, or from the front of `rest`, to a stack. -/
theorem Store.linkHead (h : Store m live ids stk rest code) (hk : k ∈ live) (hn : n < m.itemCount)
    (hfree : ∀ k ∈ live, n ∉ ids k) (hrest : n ∉ rest)
    (hbottom : ids k = [] → (m.item n).next = none)
    (hcap : (stk k).capped = true → (m.item n).previous = none) :
    Store (m.linkHead k n) live (update ids k (ids k ++ [n]))
      (update stk k ((stk k).append [(m.item n).data])) rest code := by
  have hother : ∀ k' ∈ live, k' ≠ k → ∀ x ∈ ids k', (m.linkHead k n).item x = m.item x := by
    intro k' hk' hne x hx
    refine linkHead_item_of_ne (fun e => hfree k' hk' (e ▸ hx)) ?_
    intro e
    exact h.disjoint k' hk' k hk hne hx (h.head_mem hk e.symm)
  have hshows := (h.shows k hk).linkHead (h.nodup k hk) (hfree k hk) hbottom hcap
  refine h.change (fun k' hk' _ => hk') hshows ?_ ?_ ?_ ?_ ?_ ?_ hother ?_ ?_ ?_ ?_
  · rw [List.nodup_append']
    exact ⟨h.nodup k hk, List.nodup_singleton n, by simpa using hfree k hk⟩
  · intro k' hk' hne
    rw [List.disjoint_append_right]
    exact ⟨h.disjoint k' hk' k hk hne, by simpa using hfree k' hk'⟩
  · rw [List.disjoint_append_left]
    exact ⟨h.rest_disjoint k hk, by simpa using hrest⟩
  · intro x hx
    rw [linkHead_items]
    rcases List.mem_append.mp hx with hx | hx
    · exact h.item_lt k hk x hx
    · obtain rfl : x = n := by simpa using hx
      exact hn
  · rw [linkHead_stacks]
    exact h.stack_lt k hk
  · intro k' _ hne
    exact linkHead_stack_of_ne hne
  · intro x hx
    exact linkHead_previous_of_ne fun e => h.rest_disjoint k hk (h.head_mem hk e.symm) hx
  · intro x _
    exact linkHead_data
  · rw [linkHead_items]
  · rw [linkHead_stacks]

/-! ## Fresh items and stacks -/

theorem createItem_item_of_lt (inst : Inst) (hx : x < m.itemCount) :
    (m.createItem inst).1.item x = m.item x := by
  simp [Mem.createItem, Mem.setItem, Nat.ne_of_lt hx]

theorem createItem_self (inst : Inst) :
    (m.createItem inst).1.item m.itemCount = { data := inst, next := none, previous := none } := by
  simp [Mem.createItem, Mem.setItem]

theorem Store.createItem (h : Store m live ids stk rest code) (inst : Inst) :
    Store (m.createItem inst).1 live ids stk rest code where
  shows := by
    intro k hk
    exact (h.shows k hk).congr rfl fun n hn => createItem_item_of_lt inst (h.item_lt k hk n hn)
  nodup := h.nodup
  disjoint := h.disjoint
  item_lt := by
    intro k hk n hn
    exact Nat.lt_succ_of_lt (h.item_lt k hk n hn)
  stack_lt := h.stack_lt
  rest_walk := h.rest_walk.congr fun n hn => by rw [createItem_item_of_lt inst (h.rest_lt n hn)]
  rest_nodup := h.rest_nodup
  rest_disjoint := h.rest_disjoint
  rest_lt := fun n hn => Nat.lt_succ_of_lt (h.rest_lt n hn)
  rest_code := by
    rw [← h.rest_code]
    exact List.map_congr_left fun n hn => by rw [createItem_item_of_lt inst (h.rest_lt n hn)]

theorem Store.fresh (h : Store m live ids stk rest code) : ∀ k ∈ live, m.itemCount ∉ ids k := by
  intro k hk hn
  exact Nat.lt_irrefl _ (h.item_lt k hk _ hn)

/-- `stack_add_inst_head`. -/
theorem Store.addHead (h : Store m live ids stk rest code) (hk : k ∈ live) (inst : Inst) :
    Store (m.stackAddInstHead k inst).1 live (update ids k (ids k ++ [m.itemCount]))
      (update stk k ((stk k).append [inst])) rest code := by
  have hlink := (h.createItem inst).linkHead hk (Nat.lt_succ_self m.itemCount) h.fresh
    (fun hn => Nat.lt_irrefl _ (h.rest_lt _ hn)) (fun _ => by rw [createItem_self])
    (fun _ => by rw [createItem_self])
  rw [createItem_self] at hlink
  exact hlink

theorem Store.createStack (h : Store m live ids stk rest code) :
    Store m.createStack.1 (insert m.stackCount live) (update ids m.stackCount [])
      (update stk m.stackCount Stk.empty) rest code := by
  have hne : ∀ k ∈ live, k ≠ m.stackCount := fun k hk => Nat.ne_of_lt (h.stack_lt k hk)
  have hempty : Shows m.createStack.1 m.stackCount [] Stk.empty := by
    refine ⟨?_, ?_, ?_, Segment.nil, ?_, rfl, ?_, ?_⟩
    all_goals simp [Mem.createStack, Mem.setStack, Dangles]
  refine h.change ?_ hempty List.nodup_nil (by simp) (by simp) (by simp) (Nat.lt_succ_self _) ?_
    (fun _ _ _ _ _ => rfl) (fun _ _ => rfl) (fun _ _ => rfl) (Nat.le_refl _) (Nat.le_succ _)
  · intro k hk hkne
    exact hk.resolve_left hkne
  · intro k _ hkne
    simp [Mem.createStack, Mem.setStack, hkne]

/-! ## Whole stacks -/

theorem Store.mono (h : Store m live ids stk rest code) {live' : Set StackId}
    (hsub : live' ⊆ live) : Store m live' ids stk rest code where
  shows := fun k hk => h.shows k (hsub hk)
  nodup := fun k hk => h.nodup k (hsub hk)
  disjoint := fun k hk k' hk' => h.disjoint k (hsub hk) k' (hsub hk')
  item_lt := fun k hk => h.item_lt k (hsub hk)
  stack_lt := fun k hk => h.stack_lt k (hsub hk)
  rest_walk := h.rest_walk
  rest_nodup := h.rest_nodup
  rest_disjoint := fun k hk => h.rest_disjoint k (hsub hk)
  rest_lt := h.rest_lt
  rest_code := h.rest_code

/-- The lists of the stacks that are not alive do not matter. -/
theorem Store.congr (h : Store m live ids stk rest code) {ids' : StackId → List ItemId}
    {stk' : StackId → Stk} (hids : ∀ k ∈ live, ids' k = ids k) (hstk : ∀ k ∈ live, stk' k = stk k) :
    Store m live ids' stk' rest code where
  shows := fun k hk => by rw [hids k hk, hstk k hk]; exact h.shows k hk
  nodup := fun k hk => by rw [hids k hk]; exact h.nodup k hk
  disjoint := fun k hk k' hk' => by rw [hids k hk, hids k' hk']; exact h.disjoint k hk k' hk'
  item_lt := fun k hk => by rw [hids k hk]; exact h.item_lt k hk
  stack_lt := h.stack_lt
  rest_walk := h.rest_walk
  rest_nodup := h.rest_nodup
  rest_disjoint := fun k hk => by rw [hids k hk]; exact h.rest_disjoint k hk
  rest_lt := h.rest_lt
  rest_code := h.rest_code

/-- The flag `capped` may be lowered, and raised on an empty stack. -/
theorem Store.recap (h : Store m live ids stk rest code) (k : StackId) (capped : Bool)
    (hcap : capped = true → (stk k).code = [] ∨ (stk k).capped = true) :
    Store m live ids (update stk k { stk k with capped := capped }) rest code where
  shows := by
    intro k' hk'
    by_cases e : k' = k
    · subst e
      have hs := h.shows k' hk'
      rw [update_self]
      refine { hs with cap := ?_ }
      intro hc n hn
      rcases hcap hc with hnil | hold
      · have hlen := hs.code_length
        rw [hnil, List.length_nil] at hlen
        rw [List.length_eq_zero_iff.mp hlen] at hn
        simp at hn
      · exact hs.cap hold n hn
    · rw [update_of_ne e]
      exact h.shows k' hk'
  nodup := h.nodup
  disjoint := h.disjoint
  item_lt := h.item_lt
  stack_lt := h.stack_lt
  rest_walk := h.rest_walk
  rest_nodup := h.rest_nodup
  rest_disjoint := h.rest_disjoint
  rest_lt := h.rest_lt
  rest_code := h.rest_code

/-- The items of a stack set out for another one. -/
theorem Store.detach (h : Store m live ids stk [] []) (hk : k ∈ live) :
    Store m (live \ {k}) ids stk (ids k) (stk k).code :=
  have hsub : live \ {k} ⊆ live := fun _ hx => hx.1
  { h.mono hsub with
    rest_walk := (h.shows k hk).linked.walkable
    rest_nodup := h.nodup k hk
    rest_disjoint := fun k' hk' => h.disjoint k' (hsub hk') k hk hk'.2
    rest_lt := h.item_lt k hk
    rest_code := (h.shows k hk).code }

/-- `stack_reset` of a stack whose items are elsewhere by now. -/
theorem Store.reset (h : Store m live ids stk rest code) (hlt : k < m.stackCount)
    (hd : (m.stack k).danglingAlt = none) (capped : Bool) :
    Store (m.stackReset k) (insert k live) (update ids k [])
      (update stk k { Stk.empty with capped := capped }) rest code := by
  have hempty : Shows (m.stackReset k) k [] { Stk.empty with capped := capped } := by
    refine ⟨?_, ?_, ?_, Segment.nil, ?_, rfl, ?_, ?_⟩
    all_goals simp [Mem.stackReset, Mem.setStack, Dangles, hd]
  refine h.change ?_ hempty List.nodup_nil (by simp) (by simp) (by simp) hlt ?_
    (fun _ _ _ _ _ => rfl) (fun _ _ => rfl) (fun _ _ => rfl) (Nat.le_refl _) (Nat.le_refl _)
  · intro k' hk' hne
    exact hk'.resolve_left hne
  · intro k' _ hne
    simp [Mem.stackReset, Mem.setStack, hne]

/-- What an operation on one stack leaves alone. -/
structure Frame (m m' : Mem) (k : StackId) (l : List ItemId) : Prop where
  stack : ∀ k' ≠ k, m'.stack k' = m.stack k'
  item : ∀ x ∉ l, m'.item x = m.item x
  data : ∀ x, (m'.item x).data = (m.item x).data
  itemCount : m'.itemCount = m.itemCount
  stackCount : m'.stackCount = m.stackCount

theorem stackCat_of_none {k₁ k₂ : StackId} (h : (m.stack k₁).head = none) :
    m.stackCat k₁ k₂ = .ok (m.setStack k₁ { m.stack k₁ with
      head := (m.stack k₂).head, tail := (m.stack k₂).tail, size := (m.stack k₂).size }) := by
  simp only [Mem.stackCat, h]

theorem stackCat_none {k₁ k₂ : StackId} {a : ItemId} (h₁ : (m.stack k₁).head = some a)
    (h₂ : (m.stack k₂).head = none) : m.stackCat k₁ k₂ = .ok m := by
  simp only [Mem.stackCat, h₁, h₂]

theorem stackCat_of_some {k₁ k₂ : StackId} {a b c : ItemId} (h₁ : (m.stack k₁).head = some a)
    (h₂ : (m.stack k₂).head = some c) (h₃ : (m.stack k₂).tail = some b) :
    m.stackCat k₁ k₂ = .ok
      (((m.setItem a { m.item a with previous := some b }).setItem b
        { (m.setItem a { m.item a with previous := some b }).item b with
          next := some a }).setStack k₁ { m.stack k₁ with
            head := some c, size := (m.stack k₁).size + (m.stack k₂).size }) := by
  simp only [Mem.stackCat, h₁, h₂, h₃]

/-- `stack_cat` of two lists. -/
theorem Shows.cat {k₁ k₂ : StackId} {l₁ l₂ : List ItemId} {s₁ s₂ : Stk}
    (h₁ : Shows m k₁ l₁ s₁) (h₂ : Shows m k₂ l₂ s₂) (hd₁ : l₁.Nodup) (hd₂ : l₂.Nodup)
    (hdis : l₁.Disjoint l₂) (hcap : s₁.capped = false) :
    ∃ m', m.stackCat k₁ k₂ = .ok m' ∧ Shows m' k₁ (l₁ ++ l₂) (s₁.append s₂.code) ∧
      Frame m m' k₁ (l₁ ++ l₂) := by
  have hcap' : (s₁.append s₂.code).capped ≠ true := by simp [hcap]
  rcases List.eq_nil_or_concat' l₁ with rfl | ⟨l₁, a, rfl⟩
  · -- the first stack takes over the pointers of the second one
    have hhead : (m.stack k₁).head = none := by simpa using h₁.head
    have hcode : s₁.code = [] := by simpa using h₁.code.symm
    refine ⟨_, stackCat_of_none hhead, ?_, ?_⟩
    · refine ⟨?_, ?_, ?_, h₂.linked, h₂.bottom, ?_, ?_, fun hc => absurd hc hcap'⟩
      · simp [Mem.setStack, h₂.head]
      · simp [Mem.setStack, h₂.tail]
      · simp [Mem.setStack, h₂.size]
      · simpa [hcode, Mem.setStack] using h₂.code
      · have hd := h₁.dangling.append _ l₂
        cases hj : s₁.jmp with
        | none => simpa [hj, Dangles, Mem.setStack] using hd
        | some j =>
            have := h₁.dangling
            rw [hj] at this
            exact absurd this.1 (by simp)
    · exact ⟨fun k' hk => by simp [Mem.setStack, hk], fun _ _ => rfl, fun _ => rfl, rfl, rfl⟩
  have hhead₁ : (m.stack k₁).head = some a := by simpa using h₁.head
  cases l₂ with
  -- nothing to put behind the first stack
  | nil =>
      have hhead₂ : (m.stack k₂).head = none := by simpa using h₂.head
      have hcode : s₂.code = [] := by simpa using h₂.code.symm
      refine ⟨m, stackCat_none hhead₁ hhead₂, ?_, ?_⟩
      · simpa [hcode] using h₁
      · exact ⟨fun _ _ => rfl, fun _ _ => rfl, fun _ => rfl, rfl, rfl⟩
  -- the head `a` of the first stack and the tail `b` of the second are linked
  | cons b l₂ =>
      have htail₂ : (m.stack k₂).tail = some b := by simpa using h₂.tail
      rcases hlast : (b :: l₂).getLast? with _ | c
      · simp at hlast
      have hhead₂ : (m.stack k₂).head = some c := by rw [h₂.head, hlast]
      have hab : a ≠ b := fun e => hdis (a := a) (by simp) (by simp [e])
      have hal : ∀ x ∈ l₁, x ≠ a := by
        intro x hx e
        exact (List.nodup_append.mp hd₁).2.2 x hx a (by simp) e
      have hbl : ∀ x ∈ l₂, x ≠ b := by
        intro x hx e
        exact (List.nodup_cons.mp hd₂).1 (e ▸ hx)
      have hb₁ : ∀ x ∈ l₁ ++ [a], x ≠ b := fun x hx e => hdis hx (by simp [e])
      have ha₂ : ∀ x ∈ b :: l₂, x ≠ a := fun x hx e => hdis (a := a) (by simp) (e ▸ hx)
      refine ⟨_, stackCat_of_some hhead₁ hhead₂ htail₂, ?_, ?_⟩
      · refine ⟨?_, ?_, ?_, ?_, ?_, ?_, ?_, fun hc => absurd hc hcap'⟩
        · simp only [Mem.setStack, Mem.setItem, update_self]
          rw [List.getLast?_append, hlast]
          rfl
        · have := h₁.tail
          cases l₁ <;> simpa [Mem.setStack, Mem.setItem] using this
        · simp only [Mem.setStack, Mem.setItem, update_self, h₁.size, h₂.size,
            List.length_append]
        · -- only the two items at the joint have a pointer changed
          refine Segment.append h₁.linked h₂.linked ?_ ?_ ?_ ?_ ?_ ?_
          · intro x hx
            simp [Mem.setStack, Mem.setItem, hal x hx, hb₁ x (by simp [hx])]
          · intro x hx
            simp only [Mem.setStack, Mem.setItem, update_of_ne (hb₁ x hx)]
            by_cases e : x = a
            · simp [e]
            · simp [e]
          · intro x hx
            by_cases e : x = b
            · simp [Mem.setStack, Mem.setItem, e, hab.symm]
            · simp [Mem.setStack, Mem.setItem, e, ha₂ x hx]
          · intro x hx
            simp [Mem.setStack, Mem.setItem, hbl x hx, ha₂ x (by simp [hx])]
          · simp [Mem.setStack, Mem.setItem, hab]
          · simp [Mem.setStack, Mem.setItem]
        · intro x hx
          have hx' : x ∈ (l₁ ++ [a]).head? := by
            cases l₁ <;> simpa using hx
          have hmem := List.mem_of_mem_head? hx'
          have hold := h₁.bottom x hx'
          simp only [Mem.setStack, Mem.setItem, update_of_ne (hb₁ x hmem)]
          by_cases e : x = a
          · simpa [e] using e ▸ hold
          · simpa [e] using hold
        · -- no item changes its data
          have hdata : ∀ x, ((((m.setItem a { m.item a with previous := some b }).setItem b
              { (m.setItem a { m.item a with previous := some b }).item b with
                next := some a })).item x).data = (m.item x).data := by
            intro x
            simp only [Mem.setItem, update_apply]
            split_ifs <;> simp_all
          have hc : (l₁ ++ [a] ++ b :: l₂).map (fun n => (m.item n).data) =
              (s₁.append s₂.code).code := by
            rw [List.map_append, h₁.code, h₂.code]
            rfl
          rw [← hc]
          exact List.map_congr_left fun x _ => hdata x
        · have hd := h₁.dangling.append _ (b :: l₂)
          cases hj : s₁.jmp with
          | none => simpa [hj, Dangles, Mem.setStack, Mem.setItem] using hd
          | some j => simpa [hj, Dangles, Mem.setStack, Mem.setItem] using hd
      · -- outside both lists nothing has changed
        refine ⟨?_, ?_, ?_, rfl, rfl⟩
        · intro k' hk
          simp [Mem.setStack, Mem.setItem, hk]
        · intro x hx
          have hxa : x ≠ a := fun e => hx (by simp [e])
          have hxb : x ≠ b := fun e => hx (by simp [e])
          simp [Mem.setStack, Mem.setItem, hxa, hxb]
        · intro x
          simp only [Mem.setStack, Mem.setItem, update_apply]
          split_ifs <;> simp_all

/-- `stack_cat`: the items of the second stack are the first one's now. -/
theorem Store.cat (h : Store m live ids stk rest code) {k₁ k₂ : StackId} (h₁ : k₁ ∈ live)
    (h₂ : k₂ ∈ live) (hne : k₁ ≠ k₂) (hcap : (stk k₁).capped = false) :
    ∃ m', m.stackCat k₁ k₂ = .ok m' ∧
      Store m' (live \ {k₂}) (update ids k₁ (ids k₁ ++ ids k₂))
        (update stk k₁ ((stk k₁).append (stk k₂).code)) rest code ∧
      Frame m m' k₁ (ids k₁ ++ ids k₂) := by
  have hdis := h.disjoint k₁ h₁ k₂ h₂ hne
  rcases (h.shows k₁ h₁).cat (h.shows k₂ h₂) (h.nodup k₁ h₁) (h.nodup k₂ h₂) hdis hcap with
    ⟨m', hm, hshows, hframe⟩
  have hrest : (ids k₁ ++ ids k₂).Disjoint rest := by
    rw [List.disjoint_append_left]
    exact ⟨h.rest_disjoint k₁ h₁, h.rest_disjoint k₂ h₂⟩
  have hfree : ∀ k' ∈ live \ {k₂}, k' ≠ k₁ → (ids k').Disjoint (ids k₁ ++ ids k₂) := by
    intro k' hk' hk
    rw [List.disjoint_append_right]
    exact ⟨h.disjoint k' hk'.1 k₁ h₁ hk, h.disjoint k' hk'.1 k₂ h₂ hk'.2⟩
  refine ⟨m', hm, ?_, hframe⟩
  refine h.change (fun k' hk' _ => hk'.1) hshows ?_ hfree hrest ?_ ?_ ?_ ?_ ?_ ?_ ?_ ?_
  · rw [List.nodup_append']
    exact ⟨h.nodup k₁ h₁, h.nodup k₂ h₂, hdis⟩
  · intro x hx
    rw [hframe.itemCount]
    rcases List.mem_append.mp hx with hx | hx
    · exact h.item_lt k₁ h₁ x hx
    · exact h.item_lt k₂ h₂ x hx
  · rw [hframe.stackCount]
    exact h.stack_lt k₁ h₁
  · intro k' _ hk
    exact hframe.stack k' hk
  · intro k' hk' hk x hx
    exact hframe.item x (hfree k' hk' hk hx)
  · intro x hx
    rw [hframe.item x fun hx' => hrest hx' hx]
  · intro x _
    exact hframe.data x
  · rw [hframe.itemCount]
  · rw [hframe.stackCount]

/-! ## The dangling jump and the branch in front -/

/-- One item takes another instruction. -/
theorem Shows.complete (h : Shows m k l s) (hnodup : l.Nodup) {j : Nat} (hj : j < l.length)
    (f : Inst → Inst) :
    Shows ((m.setItem l[j] { m.item l[j] with data := f (m.item l[j]).data }).setStack k
      { m.stack k with danglingAlt := none }) k l { s with code := s.code.modify j f, jmp := none } := by
  refine ⟨?_, ?_, ?_, ?_, ?_, ?_, ?_, ?_⟩
  · simp [Mem.setStack, Mem.setItem, h.head]
  · simp [Mem.setStack, Mem.setItem, h.tail]
  · simp [Mem.setStack, Mem.setItem, h.size]
  · refine h.linked.congr ?_ ?_
    all_goals
      intro x _
      simp only [Mem.setStack, Mem.setItem, update_apply]
      split_ifs with e
      · rw [e]
      · rfl
  · intro x hx
    simp only [Mem.setStack, Mem.setItem, update_apply]
    split_ifs with e
    · exact h.bottom _ (e ▸ hx)
    · exact h.bottom x hx
  · simp only [← h.code]
    refine List.ext_getElem (by simp) ?_
    intro i hi _
    have hi' : i < l.length := by simpa using hi
    have hinj : l[i] = l[j] ↔ i = j := hnodup.getElem_inj_iff
    simp only [Mem.setStack, Mem.setItem, List.getElem_map, update_apply, hinj,
      List.getElem_modify]
    by_cases e : i = j
    · subst e
      simp
    · simp [e, Ne.symm e]
  · simp [Mem.setStack, Dangles]
  · intro hc x hx
    simp only [Mem.setStack, Mem.setItem, update_apply]
    split_ifs with e
    · exact h.cap hc _ (e ▸ hx)
    · exact h.cap hc x hx

theorem attachDanglingAlt_of_none {cp : Context} (h : cp.targetStack.danglingAlt = none) :
    attachDanglingAlt cp = cp := by
  simp only [attachDanglingAlt, h]

theorem attachDanglingAlt_of_some {cp : Context} {d : ItemId}
    (h : cp.targetStack.danglingAlt = some d) :
    attachDanglingAlt cp = { cp with
      mem := (cp.mem.setItem d { cp.mem.item d with
        data := Inst.setX ((cp.targetStack.size : Int) - cp.targetStack.dsize + 1)
          (cp.mem.item d).data }).setStack cp.target
        { cp.mem.stack cp.target with danglingAlt := none } } := by
  simp only [attachDanglingAlt, h]
  rfl

/-- `attach_dangling_alt`. -/
theorem Store.attach {cp : Context} (h : Store cp.mem live ids stk rest code)
    (hk : cp.target ∈ live) :
    ∃ m', attachDanglingAlt cp = { cp with mem := m' } ∧
      Store m' live ids (update stk cp.target (stk cp.target).attach) rest code ∧
      (∀ k ≠ cp.target, m'.stack k = cp.mem.stack k) ∧
      m'.itemCount = cp.mem.itemCount ∧ m'.stackCount = cp.mem.stackCount := by
  have hshows := h.shows _ hk
  have hd := hshows.dangling
  cases hj : (stk cp.target).jmp with
  | none =>
      -- no dangling jump: `attach` does nothing
      rw [hj] at hd
      have hnone : cp.targetStack.danglingAlt = none := hd
      refine ⟨cp.mem, ?_, ?_, fun _ _ => rfl, rfl, rfl⟩
      · exact attachDanglingAlt_of_none hnone
      · have : (stk cp.target).attach = stk cp.target := by simp [Stk.attach, hj]
        rwa [this, update_eq_self]
  | some j =>
      -- the dangling item `d` is the one at place `j` of the target
      rw [hj] at hd
      rcases hd with ⟨hlt, hdang, hdsize⟩
      set l := ids cp.target with hl
      set d := l[j] with hdef
      have hmem : d ∈ l := List.getElem_mem hlt
      have hdang' : cp.targetStack.danglingAlt = some d := by
        rw [Context.targetStack, hdang, List.getElem?_eq_getElem hlt]
      -- `size - dsize + 1` is the number of instructions from `d` to the end
      have hx : ((cp.targetStack.size : Int) - cp.targetStack.dsize + 1) =
          ((stk cp.target).code.length : Int) - j := by
        have hsize : cp.targetStack.size = (stk cp.target).code.length := hshows.size_eq
        have hdsize' : cp.targetStack.dsize = j + 1 := hdsize
        rw [hsize, hdsize']
        omega
      refine ⟨_, attachDanglingAlt_of_some hdang', ?_, ?_, rfl, rfl⟩
      · have hattach : (stk cp.target).attach =
            { stk cp.target with
              code := (stk cp.target).code.modify j
                (Inst.setX (((stk cp.target).code.length : Int) - j)), jmp := none } := by
          simp only [Stk.attach, hj]
        have hshows' := hshows.complete (h.nodup _ hk) hlt
          (Inst.setX (((stk cp.target).code.length : Int) - j))
        rw [← hattach] at hshows'
        -- `d` belongs to the target, so no other list sees the change
        have hne : ∀ {l' : List ItemId}, l'.Disjoint l → ∀ x ∈ l', x ≠ d :=
          fun hdis x hx e => hdis hx (e ▸ hmem)
        have hchange := h.change (fun k' hk' _ => hk') hshows' (h.nodup _ hk)
          (fun k' hk' e => h.disjoint k' hk' _ hk e) (h.rest_disjoint _ hk)
          (fun x hx => h.item_lt _ hk x hx) (h.stack_lt _ hk)
          (fun k' _ e => by simp [Mem.setStack, Mem.setItem, e])
          (fun k' hk' e x hx => by
            have := hne (h.disjoint k' hk' _ hk e) x hx
            simp [Mem.setStack, Mem.setItem, ← hdef, this])
          (fun x hx => by
            have : x ≠ d := fun e => h.rest_disjoint _ hk hmem (e ▸ hx)
            simp [Mem.setStack, Mem.setItem, ← hdef, this])
          (fun x hx => by
            have : x ≠ d := fun e => h.rest_disjoint _ hk hmem (e ▸ hx)
            simp [Mem.setStack, Mem.setItem, ← hdef, this])
          (Nat.le_refl _) (Nat.le_refl _)
        have hself : update ids cp.target l = ids := update_eq_self _ _
        rw [hself] at hchange
        rw [hx]
        exact hchange
      · intro k hne
        simp [Mem.setStack, Mem.setItem, hne]

/-- An item in front of all others. -/
theorem Shows.addTail (h : Shows m k l s) (hnodup : l.Nodup) (hn : n ∉ l)
    (hnext : (m.item n).next = none) (hprev : (m.item n).previous = none) (hjmp : s.jmp = none) :
    Shows (m.stackPointNewTail k n) k (n :: l) { s with code := (m.item n).data :: s.code } ∧
      Frame m (m.stackPointNewTail k n) k (n :: l) := by
  have hd := h.dangling
  rw [hjmp] at hd
  cases l with
  -- the item is the whole stack
  | nil =>
      have htail : (m.stack k).tail = none := by simpa using h.tail
      have hcode : s.code = [] := by simpa using h.code.symm
      have hmem : m.stackPointNewTail k n = m.setStack k
          { m.stack k with head := some n, tail := some n, size := (m.stack k).size + 1 } := by
        simp only [Mem.stackPointNewTail, htail]
      rw [hmem]
      refine ⟨⟨?_, ?_, ?_, Segment.singleton n, ?_, ?_, ?_, ?_⟩, ?_⟩
      · simp [Mem.setStack]
      · simp [Mem.setStack]
      · simp [Mem.setStack, h.size]
      · simpa [Mem.setStack] using hnext
      · simp [Mem.setStack, hcode]
      · simpa [Mem.setStack, Dangles, hjmp] using hd
      · intro _ x hx
        obtain rfl : n = x := by simpa using hx
        exact hprev
      · exact ⟨fun k' hk => by simp [Mem.setStack, hk], fun _ _ => rfl, fun _ => rfl, rfl, rfl⟩
  -- the old tail `b` gets the item in front of it
  | cons b l =>
      have htail : (m.stack k).tail = some b := by simpa using h.tail
      have hbn : b ≠ n := fun e => hn (by simp [e])
      have hbl : ∀ x ∈ l, x ≠ b := by
        intro x hx e
        exact (List.nodup_cons.mp hnodup).1 (e ▸ hx)
      have hne : ∀ x ∈ b :: l, x ≠ n := fun x hx e => hn (e ▸ hx)
      have hmem : m.stackPointNewTail k n =
          ((m.setItem b { m.item b with next := some n }).setItem n
            { (m.setItem b { m.item b with next := some n }).item n with
              previous := some b }).setStack k
            { m.stack k with tail := some n, size := (m.stack k).size + 1 } := by
        simp only [Mem.stackPointNewTail, htail]
      have hdata : ∀ x, ((m.stackPointNewTail k n).item x).data = (m.item x).data := by
        intro x
        rw [hmem]
        simp only [Mem.setStack, Mem.setItem, update_apply]
        split_ifs <;> simp_all
      have hcode : (n :: b :: l).map (fun x => ((m.stackPointNewTail k n).item x).data) =
          (m.item n).data :: s.code := by
        rw [List.map_congr_left fun x _ => hdata x, List.map_cons, h.code]
      rw [hmem] at hcode hdata ⊢
      refine ⟨⟨?_, ?_, ?_, ?_, ?_, hcode, ?_, ?_⟩, ?_, ?_, hdata, rfl, rfl⟩
      · simp only [Mem.setStack, update_self, Mem.setItem, h.head]
        rw [List.getLast?_cons_cons]
      · simp [Mem.setStack]
      · simp [Mem.setStack, Mem.setItem, h.size]
      · -- the item is a segment of its own, linked to the old one at `b`
        have hone : Segment (fun x => (m.item x).next) (fun x => (m.item x).previous)
            ([] ++ [n]) := Segment.singleton n
        refine Segment.append hone h.linked (by simp) ?_ ?_ ?_ ?_ ?_
        · intro x hx
          obtain rfl : x = n := by simpa using hx
          simp [Mem.setStack, Mem.setItem, hbn.symm]
        · intro x hx
          by_cases e : x = b
          · simp [Mem.setStack, Mem.setItem, e, hbn]
          · simp [Mem.setStack, Mem.setItem, e, hne x hx]
        · intro x hx
          simp [Mem.setStack, Mem.setItem, hne x (by simp [hx]), hbl x hx]
        · simp [Mem.setStack, Mem.setItem]
        · simp [Mem.setStack, Mem.setItem, hbn]
      · intro x hx
        obtain rfl : n = x := by simpa using hx
        simpa [Mem.setStack, Mem.setItem, hbn.symm] using hnext
      · simpa [Mem.setStack, Mem.setItem, Dangles, hjmp] using hd
      · -- the head is where it was, now with an item more below it
        intro hc x hx
        rw [List.getLast?_cons_cons] at hx
        have hold := h.cap hc x hx
        simp only [Mem.setStack, Mem.setItem, update_of_ne (hne x (List.mem_of_mem_getLast? hx))]
        by_cases e : x = b
        · simpa [e] using e ▸ hold
        · simpa [e] using hold
      · intro k' hk
        simp [Mem.setStack, Mem.setItem, hk]
      · intro x hx
        have hxn : x ≠ n := fun e => hx (by simp [e])
        have hxb : x ≠ b := fun e => hx (by simp [e])
        simp [Mem.setStack, Mem.setItem, hxn, hxb]

/-- `stack_add_inst_tail`, on a stack without dangling jump: the index of the
jump would change. -/
theorem Store.addTail (h : Store m live ids stk rest code) (hk : k ∈ live)
    (hjmp : (stk k).jmp = none) (inst : Inst) :
    Store (m.stackAddInstTail k inst).1 live (update ids k (m.itemCount :: ids k))
      (update stk k { stk k with code := inst :: (stk k).code }) rest code ∧
      (∀ k' ≠ k, (m.stackAddInstTail k inst).1.stack k' = m.stack k') ∧
      (m.stackAddInstTail k inst).1.itemCount = m.itemCount + 1 ∧
      (m.stackAddInstTail k inst).1.stackCount = m.stackCount := by
  have h' := h.createItem inst
  have hitem : (m.createItem inst).1.item m.itemCount =
      { data := inst, next := none, previous := none } := createItem_self inst
  rcases (h'.shows k hk).addTail (h'.nodup k hk) (h.fresh k hk) (by rw [hitem])
      (by rw [hitem]) hjmp with
    ⟨hshows, hframe⟩
  rw [hitem] at hshows
  have hrest : (m.itemCount :: ids k).Disjoint rest := by
    rw [List.disjoint_cons_left]
    exact ⟨fun hn => Nat.lt_irrefl _ (h.rest_lt _ hn), h.rest_disjoint k hk⟩
  have hfree : ∀ k' ∈ live, k' ≠ k → (ids k').Disjoint (m.itemCount :: ids k) := by
    intro k' hk' hne
    rw [List.disjoint_cons_right]
    exact ⟨h.fresh k' hk', h.disjoint k' hk' k hk hne⟩
  refine ⟨?_, hframe.stack, hframe.itemCount, hframe.stackCount⟩
  refine h'.change (fun k' hk' _ => hk') hshows ?_ hfree hrest ?_ ?_ ?_ ?_ ?_ ?_ ?_ ?_
  · exact List.nodup_cons.mpr ⟨h.fresh k hk, h.nodup k hk⟩
  · intro x hx
    have : x < m.itemCount + 1 := by
      rcases List.mem_cons.mp hx with rfl | hx
      · exact Nat.lt_succ_self _
      · exact Nat.lt_succ_of_lt (h.item_lt k hk x hx)
    exact Nat.lt_of_lt_of_le this (Nat.le_of_eq hframe.itemCount.symm)
  · exact Nat.lt_of_lt_of_le (h.stack_lt k hk) (Nat.le_of_eq hframe.stackCount.symm)
  · intro k' _ hne
    exact hframe.stack k' hne
  · intro k' hk' hne x hx
    exact hframe.item x (hfree k' hk' hne hx)
  · intro x hx
    have hx' : x ∉ m.itemCount :: ids k := fun hx' => hrest hx' hx
    rw [show (m.stackAddInstTail k inst).1.item x = (m.createItem inst).1.item x from
      hframe.item x hx']
  · intro x _
    exact hframe.data x
  · exact Nat.le_of_eq hframe.itemCount.symm
  · exact Nat.le_of_eq hframe.stackCount.symm

/-- The instruction at the head becomes the dangling jump. -/
theorem Store.dangle (h : Store m live ids stk rest code) (hk : k ∈ live) {l : List ItemId}
    {c : List Inst} {i : Inst} (hids : ids k = l ++ [n]) (hstk : (stk k).code = c ++ [i]) :
    Store (m.setStack k { m.stack k with danglingAlt := some n, dsize := (m.stack k).size }) live
      ids (update stk k { stk k with jmp := some c.length }) rest code := by
  have hs := h.shows k hk
  have hlen : l.length = c.length := by
    have := hs.code_length
    rw [hids, hstk] at this
    simpa using this
  have hshows : Shows (m.setStack k
      { m.stack k with danglingAlt := some n, dsize := (m.stack k).size }) k (ids k)
      { stk k with jmp := some c.length } := by
    refine ⟨?_, ?_, ?_, hs.linked, hs.bottom, hs.code, ?_, hs.cap⟩
    · simp [Mem.setStack, hs.head]
    · simp [Mem.setStack, hs.tail]
    · simp [Mem.setStack, hs.size]
    · refine ⟨?_, ?_, ?_⟩
      · simp [hids, hlen]
      · simp [Mem.setStack, hids, ← hlen]
      · simp [Mem.setStack, hs.size, hids, hlen]
  have hchange := h.change (fun k' hk' _ => hk') hshows (h.nodup k hk)
    (fun k' hk' e => h.disjoint k' hk' k hk e) (h.rest_disjoint k hk) (h.item_lt k hk)
    (h.stack_lt k hk) (fun k' _ e => by simp [Mem.setStack, e]) (fun _ _ _ _ _ => rfl)
    (fun _ _ => rfl) (fun _ _ => rfl) (Nat.le_refl _) (Nat.le_refl _)
  rwa [update_eq_self] at hchange

end

end Rxvm
