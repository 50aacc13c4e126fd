import Mathlib.Logic.Relation
import Mathlib.Order.Basic
import Mathlib.Data.Nat.Init
import Rxvm.Vm

/-!
# Rxvm.Nfa — the meaning of a program

What the machine is for: a program is a nondeterministic automaton whose
states are pairs of an instruction index and a position of the input.
`NfaStep` is its step relation, and `Reach` its runs from an attempt's start.

`reach_succ` is what the machine's proofs rest on: the runs that end at a
position are the runs that end one position earlier, one consuming step, and
steps that stay at the position.
-/

namespace Rxvm

open Relation

/-! ## Programs -/

/-- The targets an instruction names. -/
def Inst.targets : Inst → List Int
  | .opBranch x y => [x, y]
  | .opJmp x => [x]
  | _ => []

/-- The programs the machine may be given: not empty, with every target
inside, and `match` at the end. -/
structure WellFormed (exe : List Inst) : Prop where
  targets_lt : ∀ i ∈ exe, ∀ t ∈ i.targets, 0 ≤ t ∧ t < exe.length
  last : exe.getLast? = some .opMatch

instance (exe : List Inst) : Decidable (WellFormed exe) :=
  decidable_of_iff ((∀ i ∈ exe, ∀ t ∈ i.targets, 0 ≤ t ∧ t < exe.length) ∧
    exe.getLast? = some .opMatch) ⟨fun h => ⟨h.1, h.2⟩, fun h => ⟨h.1, h.2⟩⟩

theorem WellFormed.targets_mem {exe : List Inst} (h : WellFormed exe) (ip : Nat) (i : Inst)
    (hi : exe[ip]? = some i) : ∀ t ∈ i.targets, 0 ≤ t ∧ t < exe.length :=
  h.targets_lt i (List.mem_of_getElem? hi)

theorem WellFormed.length_pos {exe : List Inst} (h : WellFormed exe) : 0 < exe.length := by
  have hlast := h.last
  cases exe with
  | nil => simp at hlast
  | cons => simp

/-- Every instruction but `match` has one behind it. -/
theorem WellFormed.succ_lt {exe : List Inst} (h : WellFormed exe) {ip : Nat} {i : Inst}
    (hi : exe[ip]? = some i) (hm : i ≠ .opMatch) : ip + 1 < exe.length := by
  have hlt : ip < exe.length := (List.getElem?_eq_some_iff.mp hi).1
  have hlast := h.last
  rw [List.getLast?_eq_getElem?] at hlast
  have hne : ip ≠ exe.length - 1 := by
    intro heq
    rw [heq, hlast] at hi
    exact hm (Option.some.inj hi).symm
  omega

/-! ## Steps -/

/-- `^` holds at a position: the start of the input, or with `ml` behind a
newline. -/
def SolAt (ml : Bool) (s : List CChar) (p : Nat) : Prop :=
  p = 0 ∨ (ml = true ∧ at' s (p - 1) = newline)

/-- `$` holds at a position: the end of the input, or with `ml` before a
newline. -/
def EolAt (ml : Bool) (s : List CChar) (p : Nat) : Prop :=
  p = s.length ∨ (ml = true ∧ at' s p = newline)

instance (ml : Bool) (s : List CChar) (p : Nat) : Decidable (SolAt ml s p) :=
  inferInstanceAs (Decidable (_ ∨ _))

instance (ml : Bool) (s : List CChar) (p : Nat) : Decidable (EolAt ml s p) :=
  inferInstanceAs (Decidable (_ ∨ _))

/-- The instruction consumes the character. -/
def Inst.eats (icase : Bool) (c : CChar) : Inst → Bool
  | .opChar ic => charMatch icase c ic
  | .opAny => c != newline
  | .opClass ccs => ccsMatch icase ccs c
  | .opNclass ccs => !ccsMatch icase ccs c
  | .opBranch _ _ | .opJmp _ | .opSol | .opEol | .opMatch => false

/-- One step of the automaton on the input `s`. -/
inductive NfaStep (icase ml : Bool) (s : List CChar) (exe : List Inst) :
    Nat × Nat → Nat × Nat → Prop where
  | eat {ip p : Nat} {i : Inst} (hi : exe[ip]? = some i) (hp : p < s.length)
      (he : i.eats icase (at' s p) = true) : NfaStep icase ml s exe (ip, p) (ip + 1, p + 1)
  | sol {ip p : Nat} (hi : exe[ip]? = some .opSol) (h : SolAt ml s p) :
      NfaStep icase ml s exe (ip, p) (ip + 1, p)
  | eol {ip p : Nat} (hi : exe[ip]? = some .opEol) (h : EolAt ml s p) :
      NfaStep icase ml s exe (ip, p) (ip + 1, p)
  | branchX {ip p : Nat} {x y : Int} (hi : exe[ip]? = some (.opBranch x y)) :
      NfaStep icase ml s exe (ip, p) (x.toNat, p)
  | branchY {ip p : Nat} {x y : Int} (hi : exe[ip]? = some (.opBranch x y)) :
      NfaStep icase ml s exe (ip, p) (y.toNat, p)
  | jmp {ip p : Nat} {x : Int} (hi : exe[ip]? = some (.opJmp x)) :
      NfaStep icase ml s exe (ip, p) (x.toNat, p)

/-- A path of the automaton. -/
def NfaPath (icase ml : Bool) (s : List CChar) (exe : List Inst) : Nat × Nat → Nat × Nat → Prop :=
  ReflTransGen (NfaStep icase ml s exe)

/-- The program accepts `s[i..j)` at `i`: there is a path from instruction 0 at
position `i` to a `match` instruction at position `j`. -/
def Accepts (icase ml : Bool) (s : List CChar) (exe : List Inst) (i j : Nat) : Prop :=
  ∃ ip, exe[ip]? = some .opMatch ∧ NfaPath icase ml s exe (0, i) (ip, j)

section

variable {icase ml : Bool} {s : List CChar} {exe : List Inst}

theorem NfaStep.pos_le {a b : Nat × Nat} (h : NfaStep icase ml s exe a b) :
    a.2 ≤ b.2 ∧ b.2 ≤ a.2 + 1 := by
  cases h <;> simp

theorem NfaStep.pos_le_length {a b : Nat × Nat} (h : NfaStep icase ml s exe a b)
    (ha : a.2 ≤ s.length) : b.2 ≤ s.length := by
  cases h with
  | eat _ hp _ => exact hp
  | sol _ _ => exact ha
  | eol _ _ => exact ha
  | branchX _ => exact ha
  | branchY _ => exact ha
  | jmp _ => exact ha

theorem NfaPath.pos_le {a b : Nat × Nat} (h : NfaPath icase ml s exe a b) : a.2 ≤ b.2 := by
  induction h with
  | refl => exact Nat.le_refl _
  | tail _ hstep ih => exact Nat.le_trans ih hstep.pos_le.1

theorem NfaPath.pos_le_length {a b : Nat × Nat} (h : NfaPath icase ml s exe a b)
    (ha : a.2 ≤ s.length) : b.2 ≤ s.length := by
  induction h with
  | refl => exact ha
  | tail _ hstep ih => exact hstep.pos_le_length ih

theorem NfaStep.ip_lt (hwf : WellFormed exe) {a b : Nat × Nat}
    (h : NfaStep icase ml s exe a b) : b.1 < exe.length := by
  cases h with
  | eat hi _ he =>
      apply hwf.succ_lt hi
      rintro rfl
      simp [Inst.eats] at he
  | sol hi _ => exact hwf.succ_lt hi (by simp)
  | eol hi _ => exact hwf.succ_lt hi (by simp)
  | branchX hi =>
      have := hwf.targets_mem _ _ hi _ (List.mem_cons_self)
      simp only; omega
  | branchY hi =>
      have := hwf.targets_mem _ _ hi _ (List.mem_cons_of_mem _ List.mem_cons_self)
      simp only; omega
  | jmp hi =>
      have := hwf.targets_mem _ _ hi _ (List.mem_cons_self)
      simp only; omega

/-! ## Runs, position by position -/

/-- The automaton, started at instruction 0 at position `r`, can be at
instruction `v` at position `p`. -/
def Reach (icase ml : Bool) (s : List CChar) (exe : List Inst) (r p v : Nat) : Prop :=
  NfaPath icase ml s exe (0, r) (v, p)

/-- Steps that stay at position `p`. -/
def Eps (icase ml : Bool) (s : List CChar) (exe : List Inst) (p u v : Nat) : Prop :=
  NfaStep icase ml s exe (u, p) (v, p)

/-- The consuming step at position `p`. -/
def Eat (icase ml : Bool) (s : List CChar) (exe : List Inst) (p u v : Nat) : Prop :=
  NfaStep icase ml s exe (u, p) (v, p + 1)

theorem eps_star_path {p u v : Nat} (h : ReflTransGen (Eps icase ml s exe p) u v) :
    NfaPath icase ml s exe (u, p) (v, p) := by
  induction h with
  | refl => exact .refl
  | tail _ hstep ih => exact ih.tail hstep

/-- At the start of an attempt the automaton has made no consuming step. -/
theorem reach_start {r v : Nat} :
    Reach icase ml s exe r r v ↔ ReflTransGen (Eps icase ml s exe r) 0 v := by
  constructor
  · intro h
    have key : ∀ b : Nat × Nat, NfaPath icase ml s exe (0, r) b → b.2 = r →
        ReflTransGen (Eps icase ml s exe r) 0 b.1 := by
      intro b hb
      induction hb with
      | refl => intro _; exact .refl
      | @tail b c hpath hstep ih =>
          intro hc
          have hb : b.2 = r := by
            have h1 := NfaPath.pos_le hpath
            have h2 := hstep.pos_le.1
            simp only at h1
            omega
          obtain ⟨u, p⟩ := b
          obtain ⟨w, q⟩ := c
          simp only at hb hc
          subst hb hc
          exact (ih rfl).tail hstep
    exact key (v, r) h rfl
  · exact eps_star_path

theorem reach_succ {r p v : Nat} (hp : r ≤ p) :
    Reach icase ml s exe r (p + 1) v ↔ ∃ u w, Reach icase ml s exe r p u ∧
      Eat icase ml s exe p u w ∧ ReflTransGen (Eps icase ml s exe (p + 1)) w v := by
  constructor
  · intro h
    have key : ∀ b : Nat × Nat, NfaPath icase ml s exe (0, r) b → b.2 = p + 1 →
        ∃ u w, Reach icase ml s exe r p u ∧ Eat icase ml s exe p u w ∧
          ReflTransGen (Eps icase ml s exe (p + 1)) w b.1 := by
      intro b hb
      induction hb with
      | refl => intro hr; simp only at hr; omega
      | @tail b c hpath hstep ih =>
          intro hc
          have hle := hstep.pos_le
          obtain ⟨u, q⟩ := b
          obtain ⟨w, q'⟩ := c
          simp only at hc hle
          subst hc
          rcases Nat.lt_or_ge q (p + 1) with hlt | hge
          · -- the last step is the consuming one
            obtain rfl : q = p := by omega
            exact ⟨u, w, hpath, hstep, .refl⟩
          · obtain rfl : q = p + 1 := by omega
            obtain ⟨u', w', h1, h2, h3⟩ := ih rfl
            exact ⟨u', w', h1, h2, h3.tail hstep⟩
    exact key (v, p + 1) h rfl
  · rintro ⟨u, w, h1, h2, h3⟩
    exact (ReflTransGen.tail h1 h2).trans (eps_star_path h3)

/-- An attempt that is nowhere at a position is nowhere behind it. -/
theorem reach_dead {r p : Nat} (hr : r ≤ p) (hdead : ∀ v, ¬ Reach icase ml s exe r p v) :
    ∀ q v, p ≤ q → ¬ Reach icase ml s exe r q v := by
  intro q v hq
  induction q, hq using Nat.le_induction generalizing v with
  | base => exact hdead v
  | succ q hpq ih =>
      intro h
      obtain ⟨u, _, h1, _⟩ := (reach_succ (Nat.le_trans hr hpq)).mp h
      exact ih u h1

theorem reach_lt (hwf : WellFormed exe) {r p v : Nat} (h : Reach icase ml s exe r p v) :
    v < exe.length := by
  have key : ∀ b, NfaPath icase ml s exe (0, r) b → b.1 < exe.length := by
    intro b hb
    cases hb with
    | refl => exact hwf.length_pos
    | tail _ hstep => exact hstep.ip_lt hwf
  exact key (v, p) h

end

end Rxvm
