import Mathlib.Logic.Function.Basic
import Rxvm.Basic

/-!
# Rxvm.Stack — stack.c

The doubly linked lists of the compiler, with their pointers. `Mem` is the
memory the compiler allocates: the list items and the `ir_stack_t` records,
each addressed by the number of its allocation. Allocation always succeeds.

A stack grows at its head. `next` points from the head towards the tail,
`previous` from the tail towards the head, so the instructions of a stack in
program order are met by following `previous` from the tail.
-/

namespace Rxvm

abbrev ItemId := Nat
abbrev StackId := Nat

/-- `stackitem_t`, holding an instruction. -/
structure StackItem where
  data : Inst
  next : Option ItemId
  previous : Option ItemId
deriving DecidableEq, Repr

/-- `ir_stack_t`. -/
structure IrStack where
  head : Option ItemId
  tail : Option ItemId
  danglingAlt : Option ItemId
  size : Nat
  dsize : Nat
deriving DecidableEq, Repr

/-- The allocated items and stacks; `itemCount` and `stackCount` are the next free
addresses. -/
structure Mem where
  item : ItemId → StackItem
  itemCount : Nat
  stack : StackId → IrStack
  stackCount : Nat

namespace Mem

def setItem (m : Mem) (n : ItemId) (v : StackItem) : Mem :=
  { m with item := Function.update m.item n v }

def setStack (m : Mem) (k : StackId) (v : IrStack) : Mem :=
  { m with stack := Function.update m.stack k v }

/-- Memory before anything is allocated. -/
def empty : Mem where
  item := fun _ => { data := .opMatch, next := none, previous := none }
  itemCount := 0
  stack := fun _ =>
    { head := none, tail := none, danglingAlt := none, size := 0, dsize := 0 }
  stackCount := 0

/-- `create_item`. -/
def createItem (m : Mem) (data : Inst) : Mem × ItemId :=
  ({ m.setItem m.itemCount { data := data, next := none, previous := none } with
      itemCount := m.itemCount + 1 }, m.itemCount)

/-- `create_stack`. -/
def createStack (m : Mem) : Mem × StackId :=
  ({ m.setStack m.stackCount
      { head := none, tail := none, danglingAlt := none, size := 0, dsize := 0 } with
      stackCount := m.stackCount + 1 }, m.stackCount)

/-- `stack_point_new_head` on an item. -/
def linkHead (m : Mem) (k : StackId) (new : ItemId) : Mem :=
  let s := m.stack k
  match s.head with
  | none => m.setStack k { s with tail := some new, head := some new, size := s.size + 1 }
  | some h =>
    let m := m.setItem h { m.item h with previous := some new }
    let m := m.setItem new { m.item new with next := some h }
    m.setStack k { s with head := some new, size := s.size + 1 }

/-- `stack_point_new_head`: on a NULL item it only goes through while the
stack is empty, since `new->next` is then not written. -/
def stackPointNewHead (m : Mem) (k : StackId) : Option ItemId → Run Mem
  | some new => .ok (m.linkHead k new)
  | none =>
    let s := m.stack k
    match s.head with
    | none => .ok (m.setStack k { s with tail := none, head := none, size := s.size + 1 })
    | some _ => .error .nullItem

/-- `stack_point_new_tail` on an item. -/
def stackPointNewTail (m : Mem) (k : StackId) (new : ItemId) : Mem :=
  let s := m.stack k
  match s.tail with
  | none => m.setStack k { s with head := some new, tail := some new, size := s.size + 1 }
  | some t =>
    let m := m.setItem t { m.item t with next := some new }
    let m := m.setItem new { m.item new with previous := some t }
    m.setStack k { s with tail := some new, size := s.size + 1 }

/-- `stack_add_inst_head`: `stack_add_head` on a fresh copy of the
instruction. -/
def stackAddInstHead (m : Mem) (k : StackId) (inst : Inst) : Mem × ItemId :=
  let (m, new) := m.createItem inst
  (m.linkHead k new, new)

/-- `stack_add_inst_tail`. -/
def stackAddInstTail (m : Mem) (k : StackId) (inst : Inst) : Mem × ItemId :=
  let (m, new) := m.createItem inst
  (m.stackPointNewTail k new, new)

/-- `stack_cat`. -/
def stackCat (m : Mem) (k₁ k₂ : StackId) : Run Mem :=
  let s₁ := m.stack k₁
  let s₂ := m.stack k₂
  match s₁.head, s₂.head, s₂.tail with
  | none, _, _ =>
    .ok (m.setStack k₁ { s₁ with head := s₂.head, tail := s₂.tail, size := s₂.size })
  | some h₁, some h₂, some t₂ =>
    let m := m.setItem h₁ { m.item h₁ with previous := some t₂ }
    let m := m.setItem t₂ { m.item t₂ with next := some h₁ }
    .ok (m.setStack k₁ { s₁ with head := some h₂, size := s₁.size + s₂.size })
  | some _, some _, none => .error .nullItem
  | some _, none, _ => .ok m

/-- `stack_reset` of `stage1.c`; the dangling jump and `dsize` stay. -/
def stackReset (m : Mem) (k : StackId) : Mem :=
  m.setStack k { m.stack k with size := 0, head := none, tail := none }

end Mem

end Rxvm
