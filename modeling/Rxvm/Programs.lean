import Rxvm.Fragments
import Rxvm.Nfa

/-!
# Rxvm.Programs — the programs the compiler makes

All offsets stay inside the stacks at every turn of the compiler, so those of
the program do; `optimise_chains` lets jumps to jumps lead to where the last
one leads.
-/

namespace Rxvm

open Function

/-! ## The stacks of a run -/

/-- What all runs of the compiler keep: the offsets of every stack stay inside
it, and a buffer that is still being filled has no offsets. -/
structure WellMade (cp : Context) (closing : Bool) (stk : StackId → Stk) : Prop where
  good : ∀ k ∈ cp.live, Good (stk k)
  base : Atoms (stk cp.base).code
  buf : closing = false → Atoms (stk cp.buf).code

section

variable {text : List CChar} {cp : Context} {ids : StackId → List ItemId} {stk : StackId → Stk}
  {index : Option Nat}

theorem Atoms.nil : Atoms [] := by
  intro inst h
  simp at h

theorem Atoms.concat {c : List Inst} {inst : Inst} (h : Atoms c) (hi : inst.isAtom = true) :
    Atoms (c ++ [inst]) := by
  intro inst' h'
  rcases List.mem_append.mp h' with h' | h'
  · exact h inst' h'
  · obtain rfl : inst' = inst := by simpa using h'
    exact hi

theorem Atoms.good {s : Stk} (h : Atoms s.code) (hj : s.jmp = none) : Good s :=
  .of_closed h.closed hj

theorem singleInst_isAtom {inst : Inst} (h : singleInst text cp = some inst) :
    inst.isAtom = true := by
  unfold singleInst at h
  split at h
  all_goals first
    | exact Option.some.inj h ▸ rfl
    | cases h

theorem ccsInst_isAtom (cp : Context) : (ccsInst cp).isAtom = true := by
  unfold ccsInst
  split <;> rfl

theorem WellMade.flush {cp₁ : Context} {stk₁ : StackId → Stk} {index₁ : Option Nat}
    (h : WellMade cp cp.closing stk) (hlay : Layout cp cp.closing ids stk index)
    (hflush : Flushed cp stk index cp₁ stk₁ index₁) : WellMade cp₁ false stk₁ := by
  cases hflush with
  | popped m' hclosing hbuf =>
      have hbase : update stk cp.target ((stk cp.target).append (stk cp.buf).code) cp.base =
          stk cp.base := update_of_ne hlay.target_ne_base.symm _ _
      have hclosed := (h.good _ hlay.buf_live).closed hlay.bufJmp
      refine ⟨?_, ?_, ?_⟩
      · intro k hk
        have hk' : k ∈ cp.live := by
          have hk' : k ∈ cp.base :: cp.prog :: cp.groups.tail := hk
          simp only [List.mem_cons] at hk'
          rcases hk' with rfl | rfl | hk'
          · exact Layout.base_live cp
          · exact Layout.prog_live cp
          · exact List.mem_cons_of_mem _ (List.mem_cons_of_mem _ (List.mem_of_mem_tail hk'))
        by_cases e : k = cp.target
        · rw [e, update_self]
          exact (h.good _ hlay.target_live).append hclosed
        · rw [update_of_ne e]
          exact h.good k hk'
      · show Atoms (update stk cp.target _ cp.base).code
        rw [hbase]
        exact h.base
      · intro _
        show Atoms (update stk cp.target _ cp.base).code
        rw [hbase]
        exact h.base
  | kept hcond =>
      refine ⟨h.good, h.base, fun _ => ?_⟩
      cases hc : cp.closing with
      | false => exact h.buf hc
      | true =>
          have hnil : (stk cp.buf).code = [] := by
            by_contra hne
            exact hcond ⟨hc, hne⟩
          rw [hnil]
          exact Atoms.nil

/-- What is in front of the operand, and the operand, are code of their own. -/
theorem WellMade.split (h : WellMade cp cp.closing stk) {i : Nat}
    (hlay : Layout cp cp.closing ids stk (some i)) :
    Closed ((stk cp.buf).code.take i) ∧ Closed ((stk cp.buf).code.drop i) ∧
      0 < ((stk cp.buf).code.drop i).length := by
  have hpos : 0 < ((stk cp.buf).code.drop i).length := by
    rcases hlay.located.found i rfl with ⟨n, _, hget⟩
    have hlt := (List.getElem?_eq_some_iff.mp hget).1
    rw [List.length_drop, ← (hlay.store.shows _ hlay.buf_live).code_length]
    omega
  cases hc : cp.closing with
  | true =>
      have hne : (stk cp.buf).code ≠ [] := by
        intro e
        simp [e] at hpos
      obtain rfl : i = 0 := by simpa using (hlay.justClosed hc).2.2 hne
      exact ⟨Closed.nil, (h.good _ hlay.buf_live).closed hlay.bufJmp, hpos⟩
  | false =>
      have hatoms := h.buf hc
      refine ⟨Atoms.closed ?_, Atoms.closed ?_, hpos⟩
      · intro inst hi
        exact hatoms inst (List.mem_of_mem_take hi)
      · intro inst hi
        exact hatoms inst (List.mem_of_mem_drop hi)

theorem opResult_good {s s' : Stk} {e : List Inst} (hs : Good s) (he : Closed e)
    (hpos : 0 < e.length) (h : opResult text cp s e = some s') : Good s' := by
  unfold opResult at h
  split at h
  · rcases Option.map_eq_some_iff.mp h with ⟨c, hc, rfl⟩
    exact hs.append (closed_repCode he hpos hc)
  · obtain rfl := Option.some.inj h
    exact hs.append (closed_oneCode he hpos)
  · obtain rfl := Option.some.inj h
    exact hs.append (closed_zeroCode he hpos)
  · obtain rfl := Option.some.inj h
    exact hs.append (closed_onezeroCode he)
  · obtain rfl := Option.some.inj h
    exact (hs.append he).alt
  · obtain rfl := Option.some.inj h
    exact hs

theorem WellMade.opOn {s : Stk} (h : WellMade cp cp.closing stk)
    (hlay : Layout cp cp.closing ids stk index) (hs : OpOn text cp stk index s) : Good s := by
  cases hs with
  | operand i hindex hop =>
      subst hindex
      rcases h.split hlay with ⟨hpre, he, hpos⟩
      exact opResult_good ((h.good _ hlay.target_live).append hpre) he hpos hop
  | empty _ _ hs =>
      rw [hs]
      exact (h.good _ hlay.target_live).alt

theorem SameCode.good {stk' : StackId → Stk} (h : SameCode stk stk') {k : StackId}
    (hk : Good (stk k)) : Good (stk' k) := by
  rcases h k with ⟨hcode, hjmp⟩
  exact ⟨by rw [hcode, hjmp]; exact hk.dangling, by rw [hcode, hjmp]; exact hk.fits⟩

/-- A turn keeps the offsets inside the stacks. -/
theorem WellMade.turn {cp' : Context} {stk' : StackId → Stk} {index' : Option Nat}
    (h : WellMade cp cp.closing stk) (hlay : Layout cp cp.closing ids stk index)
    (hturn : Turn text cp stk index cp' stk' index')
    (hcharc : cp.inCharc = true → cp.closing = false) :
    WellMade cp' (decide (cp.tok = .rparen)) stk' := by
  cases hturn with
  | operate hmain hop s hs m' chained index' =>
      -- where the base is the buffer, the operator has emptied it
      have hbase : Atoms (operated cp stk s cp.base).code := by
        by_cases e : cp.base = cp.buf
        · rw [e, operated_buf]
          exact Atoms.nil
        · rw [operated_of_ne e hlay.target_ne_base.symm]
          exact h.base
      refine ⟨?_, hbase, fun _ => hbase⟩
      intro k hk
      -- after a `)` the operator also leaves the group: the live stacks are fewer
      have hk' : k ∈ cp.live := by
        have hk' : k ∈ cp.base :: cp.prog ::
          (if cp.closing then cp.groups.tail else cp.groups) := hk
        simp only [List.mem_cons] at hk'
        rcases hk' with rfl | rfl | hk'
        · exact Layout.base_live cp
        · exact Layout.prog_live cp
        · refine List.mem_cons_of_mem _ (List.mem_cons_of_mem _ ?_)
          split at hk'
          · exact List.mem_of_mem_tail hk'
          · exact hk'
      by_cases eb : k = cp.buf
      · rw [eb]
        exact Good.of_closed (by rw [operated_buf]; exact Closed.nil) (by simp [operated])
      · by_cases et : k = cp.target
        · -- the target takes the code of the operator, which closes its own jumps
          rw [et, hlay.operated_target]
          exact h.opOn hlay hs
        · rw [operated_of_ne eb et]
          exact h.good k hk'
  | single hmain cp₁ stk₁ index₁ hflush inst hinst m' operand =>
      rcases hflush.layout with ⟨ids₁, hlay₁⟩
      have h₁ := h.flush hlay hflush.flushed
      have hatom := singleInst_isAtom hinst
      -- the new instruction is an atom, so the buffer stays a run of atoms
      have hbuf : Atoms (update stk₁ cp₁.buf ((stk₁ cp₁.buf).append [inst]) cp₁.buf).code := by
        rw [update_self]
        exact (h₁.buf rfl).concat hatom
      refine ⟨?_, ?_, fun _ => hbuf⟩
      · intro k hk
        by_cases e : k = cp₁.buf
        · rw [e, update_self]
          exact ((h₁.buf rfl).concat hatom).good hlay₁.bufJmp
        · rw [update_of_ne e]
          exact h₁.good k hk
      · show Atoms (update stk₁ cp₁.buf _ cp₁.base).code
        by_cases e : cp₁.base = cp₁.buf
        · rw [e]
          exact hbuf
        · rw [update_of_ne e]
          exact h₁.base
  | quiet hmain cp₁ stk₁ index₁ hflush hop hinst hparen =>
      have h₁ := h.flush hlay hflush.flushed
      exact ⟨h₁.good, h₁.base, fun _ => h₁.buf rfl⟩
  | opening hmain cp₁ stk₁ index₁ hflush htok m' hfresh =>
      rcases hflush.layout with ⟨ids₁, hlay₁⟩
      have h₁ := h.flush hlay hflush.flushed
      -- the stack of the new group is fresh: no live stack changes with it
      have hnew : ∀ k ∈ cp₁.live, k ≠ cp₁.mem.stackCount := fun k hk e => hfresh (e ▸ hk)
      have hbase : opened cp₁ stk₁ cp₁.base = { Stk.empty with capped := true } := by
        simp [opened, hnew _ (Layout.base_live cp₁)]
      have hother : ∀ k ∈ cp₁.live, k ≠ cp₁.base → k ≠ cp₁.target →
          opened cp₁ stk₁ k = stk₁ k := by
        intro k hk hb ht
        simp [opened, hnew k hk, hb, ht]
      refine ⟨?_, ?_, ?_⟩
      · intro k hk
        by_cases e : k = cp₁.mem.stackCount
        · rw [e]
          exact Good.of_closed (by simp [opened, Closed.nil]) (by simp [opened])
        · have hk' : k ∈ cp₁.live := by
            have hk' : k ∈ cp₁.base :: cp₁.prog :: cp₁.mem.stackCount :: cp₁.groups := hk
            simp only [List.mem_cons] at hk'
            show k ∈ cp₁.base :: cp₁.prog :: cp₁.groups
            simp only [List.mem_cons]
            tauto
          by_cases eb : k = cp₁.base
          · rw [eb, hbase]
            exact Good.of_closed Closed.nil rfl
          · by_cases et : k = cp₁.target
            · -- the target takes over the code put aside in the base
              have : opened cp₁ stk₁ cp₁.target =
                  (stk₁ cp₁.target).append (stk₁ cp₁.base).code := by
                simp [opened, hnew _ hlay₁.target_live, hlay₁.target_ne_base]
              rw [et, this]
              exact (h₁.good _ hlay₁.target_live).append h₁.base.closed
            · rw [hother k hk' eb et]
              exact h₁.good k hk'
      · show Atoms (opened cp₁ stk₁ cp₁.base).code
        rw [hbase]
        exact Atoms.nil
      · intro _
        show Atoms (opened cp₁ stk₁ cp₁.buf).code
        by_cases eb : cp₁.buf = cp₁.base
        · rw [eb, hbase]
          exact Atoms.nil
        · rw [hother _ hlay₁.buf_live eb hlay₁.buf_ne_target]
          exact h₁.buf rfl
  | closing hmain cp₁ stk₁ index₁ hflush htok cur below hgroups m' operand stk' hsame =>
      rcases hflush.layout with ⟨ids₁, hlay₁⟩
      have h₁ := h.flush hlay hflush.flushed
      refine ⟨?_, ?_, by simp [htok]⟩
      · intro k hk
        -- `stk'` only repeats the stacks of the closed group, code and jumps
        refine hsame.good ?_
        by_cases eb : k = cp₁.base
        · rw [eb]
          exact Good.of_closed (by simp [closed, Closed.nil]) (by simp [closed])
        · by_cases et : k = cp₁.target
          · have : closed cp₁ stk₁ cp₁.target =
                ((stk₁ cp₁.target).append (stk₁ cp₁.base).code).attach := by
              simp [closed, hlay₁.target_ne_base]
            rw [et, this]
            exact ((h₁.good _ hlay₁.target_live).append h₁.base.closed).attach'
          · have : closed cp₁ stk₁ k = stk₁ k := by simp [closed, eb, et]
            rw [this]
            exact h₁.good k hk
      · show Atoms (stk' cp₁.base).code
        rw [(hsame cp₁.base).1]
        simp [closed, Atoms.nil]
  -- inside a class no stack changes
  | charc hin htok strb isNchar => exact ⟨h.good, h.base, fun _ => h.buf (hcharc hin)⟩
  | noCcs hin htok hstrb => exact ⟨h.good, h.base, fun _ => h.buf (hcharc hin)⟩
  | ccs hin htok hstrb m' operand =>
      -- the `]` puts the one instruction of its class at the end of the base
      have hatom := ccsInst_isAtom cp
      have hbase : Atoms (update stk cp.base ((stk cp.base).append [ccsInst cp]) cp.base).code := by
        rw [update_self]
        exact h.base.concat hatom
      refine ⟨?_, hbase, ?_⟩
      · intro k hk
        by_cases e : k = cp.base
        · rw [e, update_self]
          exact (h.base.concat hatom).good hlay.baseJmp
        · rw [update_of_ne e]
          exact h.good k hk
      · intro _
        show Atoms (update stk cp.base _ cp.buf).code
        by_cases e : cp.buf = cp.base
        · rw [e]
          exact hbase
        · rw [update_of_ne e]
          exact h.buf (hcharc hin)

/-! ## The start and the end of a run -/

theorem backlogCode_atoms (text : List CChar) (simple : Nat) : ∀ fuel orig : Nat,
    Atoms (backlogCode text simple fuel orig) := by
  intro fuel
  induction fuel with
  | zero => exact fun _ => Atoms.nil
  | succ fuel ih =>
      intro orig
      unfold backlogCode
      split
      · exact Atoms.nil
      · intro inst hi
        rcases List.mem_cons.mp hi with rfl | hi
        · rfl
        · exact ih _ inst hi

theorem initStk_eq (base k : StackId) :
    (initStk base k).code = [] ∧ (initStk base k).jmp = none := by
  simp only [initStk, update_apply]
  split <;> exact ⟨rfl, rfl⟩

/-- The stacks at the start hold literals, and no jump dangles. -/
theorem startStk_atoms (text : List CChar) (simple : Option Nat) (base k : StackId) :
    Atoms (startStk text simple base k).code ∧ (startStk text simple base k).jmp = none := by
  rcases initStk_eq base k with ⟨hcode, hjmp⟩
  cases simple with
  | none =>
      refine ⟨?_, hjmp⟩
      show Atoms (initStk base k).code
      rw [hcode]
      exact Atoms.nil
  | some simple =>
      show Atoms (backlogStk base _ k).code ∧ (backlogStk base _ k).jmp = none
      by_cases e : k = base
      · subst e
        simp only [backlogStk, update_self]
        exact ⟨backlogCode_atoms text simple _ _, trivial⟩
      · simp only [backlogStk, update_of_ne e]
        rw [hcode]
        exact ⟨Atoms.nil, hjmp⟩

theorem WellMade.start (text : List CChar) (simple : Option Nat) (cp : Context) :
    WellMade (loopStart text simple cp) (loopStart text simple cp).closing
      (startStk text simple cp.base) := by
  have hatoms := startStk_atoms text simple cp.base
  exact ⟨fun k _ => (hatoms k).1.good (hatoms k).2, (hatoms _).1, fun _ => (hatoms _).1⟩

/-- What a turn keeps, in the context with the next token. -/
theorem WellMade.next {cp' : Context} {stk' : StackId → Stk} {index' : Option Nat}
    (h : WellMade cp cp.closing stk) (hholds : Holds cp stk index)
    (hturn : Turn text cp stk index cp' stk' index') (htok : cp'.tok = cp.tok) (input : Nat) :
    WellMade (lexInto text input { cp' with lasttok := cp'.tok }).2
      (lexInto text input { cp' with lasttok := cp'.tok }).2.closing stk' := by
  rcases hholds.layout with ⟨ids, hlay⟩
  have hwell' := h.turn hlay hturn hholds.charc
  have hclosing : (lexInto text input { cp' with lasttok := cp'.tok }).2.closing =
      decide (cp.tok = .rparen) := by
    rw [lexInto_frame]
    simp [Context.closing, htok]
  rw [hclosing]
  exact ⟨hwell'.good, hwell'.base, hwell'.buf⟩

/-- The offsets stay inside the stacks in every context of a run. -/
theorem Visited.wellMade {g : Statics} {input : Nat} (h : Visited g text input cp) :
    ∃ stk index, Holds cp stk index ∧ WellMade cp cp.closing stk := by
  refine h.invariant (P := fun _ cp stk _ => WellMade cp cp.closing stk) ?_ ?_
  · intro input simple cp _ _
    exact WellMade.start _ _ _
  · intro input cp stk index cp' stk' index' _ hholds hwell _ _ hturn htok _ _
    exact hwell.next hholds hturn htok input

theorem WellMade.endStk (h : WellMade cp cp.closing stk) (hlay : Layout cp cp.closing ids stk index) :
    Closed (endStk cp stk).code := by
  have hprog := h.good _ (Layout.prog_live cp)
  have hbase : Closed (stk cp.base).code := h.base.closed
  have hbuf := (h.good _ hlay.buf_live).closed hlay.bufJmp
  unfold Rxvm.endStk
  split
  · exact ((hprog.append hbuf).append hbase).attach
  · exact (hprog.append hbase).attach

end

/-! ## The program -/

/-- What an instruction at index `i` of a program of length `len` may be. -/
def Inst.leads (i len : Nat) : Inst → Prop
  | .opJmp x => (i : Int) < x ∧ x < len
  | .opBranch x y => x ≠ i ∧ 0 ≤ x ∧ x < len ∧ (i : Int) < y ∧ y < len
  | .opMatch => i + 1 = len
  | _ => True

/-- A program as the compiler makes it: `match` is its last instruction and no
other one, jumps lead forward, branches lead forward with `y` and away from
themselves with `x`, and all targets are inside. -/
structure ProgramOk (exe : List Inst) : Prop where
  last : exe.getLast? = some .opMatch
  leads : ∀ (i : Nat) (inst : Inst), exe[i]? = some inst → inst.leads i exe.length

theorem ProgramOk.length_pos {exe : List Inst} (h : ProgramOk exe) : 0 < exe.length := by
  have hlast := h.last
  cases exe with
  | nil => simp at hlast
  | cons => simp

theorem ProgramOk.jmp {exe : List Inst} (h : ProgramOk exe) {i : Nat} {x : Int}
    (hi : exe[i]? = some (.opJmp x)) : (i : Int) < x ∧ x < exe.length := h.leads i _ hi

/-- The machine can be given such a program. -/
theorem ProgramOk.wellFormed {exe : List Inst} (h : ProgramOk exe) : WellFormed exe := by
  refine ⟨?_, h.last⟩
  intro inst hinst t ht
  rcases List.getElem?_of_mem hinst with ⟨i, hi⟩
  have hleads := h.leads i inst hi
  cases inst <;> simp only [Inst.targets, List.mem_cons, List.not_mem_nil, or_false] at ht
  · simp only [Inst.leads] at hleads
    rcases ht with rfl | rfl <;> omega
  · simp only [Inst.leads] at hleads
    subst ht
    omega

theorem relocateFrom_append (k : Nat) (c d : List Inst) :
    relocateFrom k (c ++ d) = relocateFrom k c ++ relocateFrom (k + c.length) d := by
  induction c generalizing k with
  | nil => rfl
  | cons inst c ih =>
      rw [List.cons_append, relocateFrom, ih, relocateFrom, List.length_cons, List.cons_append,
        Nat.add_assoc, Nat.add_comm 1]

theorem length_relocateFrom (k : Nat) (c : List Inst) : (relocateFrom k c).length = c.length := by
  induction c generalizing k with
  | nil => rfl
  | cons inst c ih => rw [relocateFrom, List.length_cons, ih, List.length_cons]

theorem getElem?_relocateFrom (k : Nat) (code : List Inst) (i : Nat) :
    (relocateFrom k code)[i]? = code[i]?.map (Inst.relocate (k + i)) := by
  induction code generalizing k i with
  | nil => rfl
  | cons inst code ih =>
      cases i with
      | zero => rfl
      | succ i =>
          rw [relocateFrom, List.getElem?_cons_succ, List.getElem?_cons_succ, ih]
          congr 2
          omega

theorem Inst.fits.leads {inst : Inst} {i len : Nat} (h : inst.fits i len) :
    (inst.relocate i).leads i (len + 1) := by
  cases inst <;> simp only [Inst.fits] at h <;> simp only [Inst.relocate, Inst.leads]
  · omega
  · omega

/-- `stage2` makes a program of code with offsets that stay inside. -/
theorem Closed.programOk {c : List Inst} (h : Closed c) :
    ProgramOk (relocateFrom 0 (c ++ [.opMatch])) := by
  have hrel : relocateFrom 0 (c ++ [.opMatch]) = relocateFrom 0 c ++ [.opMatch] := by
    rw [relocateFrom_append]
    rfl
  have hlen : (relocateFrom 0 (c ++ [.opMatch])).length = c.length + 1 := by
    rw [length_relocateFrom, List.length_append, List.length_singleton]
  refine ⟨by simp [hrel], ?_⟩
  intro i inst hi
  rw [hlen]
  rw [getElem?_relocateFrom, Nat.zero_add] at hi
  rcases Option.map_eq_some_iff.mp hi with ⟨inst', hi', rfl⟩
  rcases Nat.lt_or_ge i c.length with hlt | hge
  · rw [List.getElem?_append_left hlt] at hi'
    exact (h i inst' hi').leads
  · rw [List.getElem?_append_right hge, List.getElem?_singleton] at hi'
    split at hi'
    · obtain rfl := Option.some.inj hi'
      simp only [Inst.relocate, Inst.leads]
      omega
    · cases hi'

end Rxvm
