import Mathlib.Tactic.Ring
import Mathlib.Tactic.Positivity
import Mathlib.Tactic.Linarith
import Rxvm.Runs

/-!
# Rxvm.Fragments — code whose offsets stay inside it

The offsets of the code a stack holds lead to instructions of that code, or
behind it. This survives everything the compiler does with code: putting it
behind other code, copying it, and framing it with branches and jumps. Only a
dangling jump has no offset yet.
-/

namespace Rxvm

open Function

/-- The offsets of the instruction at index `i` stay inside code of length
`len`: a jump leads forward, the second target of a branch leads forward, and
the first one away from the branch. -/
def Inst.fits (i len : Nat) : Inst → Prop
  | .opJmp x => 0 < x ∧ i + x ≤ len
  | .opBranch x y => x ≠ 0 ∧ 0 ≤ i + x ∧ i + x ≤ len ∧ 0 < y ∧ i + y ≤ len
  | .opMatch => False
  | _ => True

/-- An instruction without targets, other than `match`. -/
def Inst.isAtom : Inst → Bool
  | .opJmp _ | .opBranch _ _ | .opMatch => false
  | _ => true

/-- All offsets stay inside the code. -/
def Closed (code : List Inst) : Prop :=
  ∀ (i : Nat) (inst : Inst), code[i]? = some inst → inst.fits i code.length

/-- No instruction of the code has targets. -/
def Atoms (code : List Inst) : Prop := ∀ inst ∈ code, inst.isAtom = true

/-- All offsets stay inside the code of a stack, but for the dangling jump. -/
structure Good (s : Stk) : Prop where
  dangling : ∀ j, s.jmp = some j → s.code[j]? = some (.opJmp 0)
  fits : ∀ (i : Nat) (inst : Inst), s.code[i]? = some inst → s.jmp ≠ some i →
    inst.fits i s.code.length

section

variable {c d e : List Inst} {s : Stk}

/-! ## Code behind other code -/

theorem Inst.fits.mono {inst : Inst} {i len len' : Nat} (h : inst.fits i len) (hle : len ≤ len') :
    inst.fits i len' := by
  cases inst <;> simp only [Inst.fits] at h ⊢
  · omega
  · omega

theorem Inst.fits.shift {inst : Inst} {i len : Nat} (h : inst.fits i len) (k : Nat) :
    inst.fits (k + i) (k + len) := by
  cases inst <;> simp only [Inst.fits] at h ⊢
  · omega
  · omega

theorem Inst.fits_of_isAtom {inst : Inst} (h : inst.isAtom = true) (i len : Nat) :
    inst.fits i len := by
  cases inst <;> simp_all [Inst.isAtom, Inst.fits]

theorem Closed.nil : Closed [] := by
  intro i inst h
  simp at h

theorem Atoms.closed (h : Atoms c) : Closed c := fun i _ hi =>
  Inst.fits_of_isAtom (h _ (List.mem_of_getElem? hi)) i _

theorem Closed.append (hc : Closed c) (hd : Closed d) : Closed (c ++ d) := by
  intro i inst h
  rw [List.length_append]
  rcases Nat.lt_or_ge i c.length with hlt | hge
  · rw [List.getElem?_append_left hlt] at h
    exact (hc i inst h).mono (Nat.le_add_right _ _)
  · rw [List.getElem?_append_right hge] at h
    have := (hd _ inst h).shift c.length
    rwa [Nat.add_sub_cancel' hge] at this

/-- An instruction in front of code, with offsets that stay inside both. -/
theorem Closed.cons {inst : Inst} (hi : inst.fits 0 (c.length + 1)) (hc : Closed c) :
    Closed (inst :: c) := by
  intro i inst' h
  cases i with
  | zero =>
      obtain rfl : inst = inst' := by simpa using h
      exact hi
  | succ i =>
      have := (hc i inst' (by simpa using h)).shift 1
      rwa [Nat.add_comm 1 i, Nat.add_comm 1 c.length] at this

/-- An instruction behind code, with offsets that stay inside both. -/
theorem Closed.concat {inst : Inst} (hc : Closed c) (hi : inst.fits c.length (c.length + 1)) :
    Closed (c ++ [inst]) := by
  intro i inst' h
  rw [List.length_append, List.length_singleton]
  rcases Nat.lt_or_ge i c.length with hlt | hge
  · rw [List.getElem?_append_left hlt] at h
    exact (hc i inst' h).mono (Nat.le_succ _)
  · rw [List.getElem?_append_right hge] at h
    have hzero : i - c.length = 0 := by
      have := (List.getElem?_eq_some_iff.mp h).1
      simp at this
      omega
    have hieq : i = c.length := by omega
    rw [hzero] at h
    obtain rfl : inst = inst' := by simpa using h
    rw [hieq]
    exact hi

/-! ## The code of the operators -/

theorem closed_copies (he : Closed e) (n : Nat) : Closed (copies e n) := by
  induction n with
  | zero => exact Closed.nil
  | succ n ih =>
      rw [copies_succ]
      exact he.append ih

theorem length_copies (e : List Inst) (n : Nat) : (copies e n).length = n * e.length := by
  simp [copies]

theorem closed_oneCode (he : Closed e) (hne : 0 < e.length) : Closed (oneCode e) := by
  refine he.concat ?_
  simp only [Inst.fits]
  omega

theorem zeroCode_eq (e : List Inst) :
    zeroCode e = .opBranch 1 ((e.length : Int) + 2) :: oneCode e := rfl

theorem closed_zeroCode (he : Closed e) (hne : 0 < e.length) : Closed (zeroCode e) := by
  rw [zeroCode_eq]
  refine Closed.cons ?_ (closed_oneCode he hne)
  simp only [Inst.fits, oneCode, List.length_append, List.length_singleton]
  omega

theorem closed_onezeroCode (he : Closed e) : Closed (onezeroCode e) := by
  refine Closed.cons ?_ he
  simp only [Inst.fits]
  omega

theorem length_optionalCode (e : List Inst) (rounds : Nat) :
    (optionalCode e rounds).length = (e.length + 1) * rounds := by
  induction rounds with
  | zero => rfl
  | succ rounds ih =>
      simp only [optionalCode, List.length_append, List.length_cons, ih]
      ring

theorem closed_optionalCode (he : Closed e) (rounds : Nat) : Closed (optionalCode e rounds) := by
  induction rounds with
  | zero => exact Closed.nil
  | succ rounds ih =>
      rw [optionalCode, List.cons_append]
      refine Closed.cons ?_ (he.append ih)
      have hlen : ((e ++ optionalCode e rounds).length + 1 : Nat) =
          (e.length + 1) * (rounds + 1) := by
        rw [List.length_append, length_optionalCode]
        ring
      have hlen' : (((e ++ optionalCode e rounds).length + 1 : Nat) : Int) =
          ((e.length : Int) + 1) * ((rounds : Int) + 1) := by
        rw [hlen]
        push_cast
        ring
      have hpos : (0 : Int) < ((e.length : Int) + 1) * ((rounds : Int) + 1) := by positivity
      simp only [Inst.fits]
      omega

theorem closed_repCode (he : Closed e) (hne : 0 < e.length) {repN repM : Int}
    (h : repCode e repN repM = some c) : Closed c := by
  have hcopies := closed_copies he
  unfold repCode at h
  split_ifs at h
  · unfold repRangeCode at h
    split_ifs at h
    · obtain rfl := Option.some.inj h
      exact hcopies _
    · obtain rfl := Option.some.inj h
      exact closed_onezeroCode he
    · obtain rfl := Option.some.inj h
      exact (hcopies _).append (closed_optionalCode he _)
  · obtain rfl := Option.some.inj h
    refine (hcopies _).concat ?_
    have hle : e.length ≤ (copies e ((repN - 1).toNat + 1)).length := by
      rw [length_copies]
      exact Nat.le_mul_of_pos_left _ (Nat.succ_pos _)
    simp only [Inst.fits]
    omega
  · unfold repLessCode at h
    split_ifs at h
    · obtain rfl := Option.some.inj h
      exact closed_onezeroCode he
    · obtain rfl := Option.some.inj h
      exact closed_optionalCode he _
  · obtain rfl := Option.some.inj h
    exact hcopies _
  · obtain rfl := Option.some.inj h
    exact closed_zeroCode he hne
  · obtain rfl := Option.some.inj h
    exact Closed.nil

/-! ## Stacks -/

theorem Good.of_closed (h : Closed s.code) (hj : s.jmp = none) : Good s :=
  ⟨by simp [hj], fun i inst hi _ => h i inst hi⟩

theorem Good.closed (h : Good s) (hj : s.jmp = none) : Closed s.code :=
  fun i inst hi => h.fits i inst hi (by simp [hj])

theorem Good.append (h : Good s) (hc : Closed c) : Good (s.append c) := by
  constructor
  · intro j hj
    have hold := h.dangling j hj
    have hlt := (List.getElem?_eq_some_iff.mp hold).1
    rw [Stk.append_code, List.getElem?_append_left hlt]
    exact hold
  · intro i inst hi hj
    rw [Stk.append_code] at hi ⊢
    rw [List.length_append]
    rcases Nat.lt_or_ge i s.code.length with hlt | hge
    · rw [List.getElem?_append_left hlt] at hi
      exact (h.fits i inst hi hj).mono (Nat.le_add_right _ _)
    · rw [List.getElem?_append_right hge] at hi
      have := (hc _ inst hi).shift s.code.length
      rwa [Nat.add_sub_cancel' hge] at this

theorem attach_code_length (s : Stk) : s.attach.code.length = s.code.length := by
  unfold Stk.attach
  split
  · rfl
  · simp

/-- The dangling jump, once it is completed, leads to the end of the code. -/
theorem Good.attach (h : Good s) : Closed s.attach.code := by
  cases hj : s.jmp with
  | none =>
      have : s.attach = s := by simp only [Stk.attach, hj]
      rw [this]
      exact h.closed hj
  | some j =>
      have hcode : s.attach.code = s.code.modify j (Inst.setX ((s.code.length : Int) - j)) := by
        simp only [Stk.attach, hj]
      have hdangling := h.dangling j hj
      have hlt := (List.getElem?_eq_some_iff.mp hdangling).1
      intro i inst hi
      rw [attach_code_length]
      rw [hcode, List.getElem?_modify] at hi
      by_cases e : j = i
      · subst e
        rw [hdangling] at hi
        obtain rfl : Inst.opJmp ((s.code.length : Int) - j) = inst := by
          simpa [Inst.setX] using hi
        simp only [Inst.fits]
        omega
      · have hi' : s.code[i]? = some inst := by simpa [e] using hi
        exact h.fits i inst hi' (by simp [hj, e])

theorem Good.attach' (h : Good s) : Good s.attach := .of_closed h.attach (attach_jmp s)

theorem good_fork (h : Closed s.code) : Good s.fork := by
  have hlen : s.fork.code.length = s.code.length + 2 := by simp [Stk.fork]
  have hlast : s.fork.code[s.code.length + 1]? = some (.opJmp 0) := by
    simp [Stk.fork]
  constructor
  · intro j hj
    obtain rfl : s.code.length + 1 = j := by simpa [Stk.fork] using hj
    exact hlast
  · intro i inst hi hj
    rw [hlen]
    have hne : i ≠ s.code.length + 1 := fun e => hj (by simp [Stk.fork, e])
    cases i with
    | zero =>
        obtain rfl : Inst.opBranch 1 ((s.code.length : Int) + 2) = inst := by
          simpa [Stk.fork] using hi
        simp only [Inst.fits]
        omega
    | succ i =>
        have hlt : i < s.code.length := by
          have := (List.getElem?_eq_some_iff.mp hi).1
          omega
        have hi' : s.code[i]? = some inst := by
          rw [← hi]
          simp [Stk.fork, List.getElem?_append_left hlt]
        have := ((h i inst hi').shift 1).mono (show 1 + s.code.length ≤ s.code.length + 2 by omega)
        rwa [Nat.add_comm 1 i] at this

theorem Good.alt (h : Good s) : Good s.alt := good_fork h.attach

end

end Rxvm
