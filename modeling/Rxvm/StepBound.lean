import Rxvm.FileReads
import Rxvm.Lib.Repeat
import Rxvm.TableSpec

/-!
# Rxvm.StepBound — the machine does not backtrack

The time `vm_execute` takes is linear in the input: each character is looked at
by at most two rounds of threads, the second one for a new attempt, and a round
has at most a thread for each instruction. A potential bounds the steps that are
left, and every step lowers it.
-/

namespace Rxvm

open Relation

section

variable {σ : Type} (getchar : σ → CChar × σ) (exe : List Inst)

/-- A step of `vm_execute`. -/
def VmNext (st st' : VmPoint σ) : Prop := vmStep getchar exe st = some st'

/-- `vm_execute` has returned. -/
def Returned (st : VmPoint σ) : Prop := ∃ ret, st.pc = .returned ret

end

/-! ## The potential -/

/-- What is left for a character behind its threads: nothing if the attempt has
started at it, or another round for a new attempt. -/
def roundsLeft (size : Nat) (tm : TableThreads) : Nat :=
  if tm.chars - 1 = tm.matchStart then 1 else size + 4

/-- A bound of the steps up to the next character. -/
def phase {σ : Type} (size : Nat) (st : VmPoint σ) : Nat :=
  match st.pc with
  | .entry => 2
  | .vmStart => 1
  | .readChar => 0
  | .skipReadchar => roundsLeft size st.tm + size + 3
  | .loop t => roundsLeft size st.tm + 2 + (size - t)
  | .behind => roundsLeft size st.tm + 1
  | .returned _ => 0

/-- A bound of all the steps that are left, where the last character is the one
that is read as number `last`. -/
def potential {σ : Type} (size last : Nat) (st : VmPoint σ) : Nat :=
  (last - st.tm.chars) * (2 * size + 8) + phase size st

section

variable {σ : Type} {getchar : σ → CChar × σ} {exe : List Inst} {st st' : VmPoint σ}

theorem roundsLeft_bounds (size : Nat) (tm : TableThreads) :
    1 ≤ roundsLeft size tm ∧ roundsLeft size tm ≤ size + 4 := by
  unfold roundsLeft
  split <;> omega

/-- No character is at hand. -/
def VmPc.Waits : VmPc → Prop
  | .entry | .vmStart | .readChar => True
  | _ => False

/-- The threads look at a character. -/
def VmPc.Looks : VmPc → Prop
  | .skipReadchar | .loop _ | .behind => True
  | _ => False

/-- The calls of `getchar` on `d` since `chars` was `p`. The character at hand
is the last one that was read; the end comes as number `n`, and nothing is read
behind it. -/
structure Clocked (getchar : σ → CChar × σ) (exe : List Inst) (d : σ) (p n : Nat)
    (st : VmPoint σ) : Prop where
  inv : PointInv exe st
  final : nthChar getchar d n = st.tm.endchar
  ge : p ≤ st.tm.chars
  data : st.data = (fun d => (getchar d).2)^[st.tm.chars - p] d
  waits : st.pc.Waits → st.tm.chars ≤ p + n
  looks : st.pc.Looks → p < st.tm.chars ∧ st.tm.chars ≤ p + n + 1 ∧
    st.c = nthChar getchar d (st.tm.chars - 1 - p)

variable {d : σ} {p n : Nat}

/-- A step that reads nothing. -/
theorem Clocked.keep (h : Clocked getchar exe d p n st) (hinv : PointInv exe st')
    (htm : Threads.Controls st.tm.view st'.tm.view) (hdata : st'.data = st.data)
    (hwaits : st'.pc.Waits → st.tm.chars ≤ p + n)
    (hlooks : st'.pc.Looks → st.pc.Looks ∧ st'.c = st.c) : Clocked getchar exe d p n st' := by
  have hchars : st'.tm.chars = st.tm.chars := htm.chars
  have hend : st'.tm.endchar = st.tm.endchar := htm.endchar
  refine ⟨hinv, h.final.trans hend.symm, hchars ▸ h.ge, ?_, hchars ▸ hwaits, ?_⟩
  · rw [hdata, hchars]
    exact h.data
  · intro hpc
    rcases hlooks hpc with ⟨hpc', hc⟩
    rw [hchars, hc]
    exact h.looks hpc'

/-- Behind a character that is not the end, another one may be read. -/
theorem Clocked.before_end (h : Clocked getchar exe d p n st) (hpc : st.pc = .behind)
    (hend : st.c ≠ st.tm.endchar) : st.tm.chars ≤ p + n := by
  rcases h.looks (by rw [hpc]; trivial) with ⟨hlt, hle, hc⟩
  by_contra hgt
  have hn : st.tm.chars - 1 - p = n := by omega
  rw [hn, h.final] at hc
  exact hend hc

theorem runInst_matchStart (tm : Threads) (c : CChar) (ii : Nat) (i : Inst) :
    (tm.runInst c ii i).1.matchStart = tm.matchStart := by
  cases i <;> simp only [Threads.runInst, Threads.addThreadCurr, Threads.addThreadNext] <;>
    split_ifs <;> rfl

theorem addThreadCurr_matchStart (tm : Threads) (v : Nat) :
    (tm.addThreadCurr v).matchStart = tm.matchStart := by
  unfold Threads.addThreadCurr
  split <;> rfl

/-- The bound of the steps left at the character at hand. -/
theorem potential_lt {size last : Nat} (hchars : st'.tm.chars = st.tm.chars)
    (h : phase size st' < phase size st) : potential size last st' < potential size last st := by
  unfold potential
  rw [hchars]
  exact Nat.add_lt_add_left h _

theorem roundsLeft_congr {size : Nat} {tm tm' : TableThreads} (hchars : tm'.chars = tm.chars)
    (hstart : tm'.matchStart = tm.matchStart) : roundsLeft size tm' = roundsLeft size tm := by
  unfold roundsLeft
  rw [hchars, hstart]

/-- Every step lowers the potential, up to the return. -/
theorem Clocked.step (hwf : WellFormed exe) (h : Clocked getchar exe d p n st)
    (hgoes : ¬ Returned st) :
    ∃ st', VmNext getchar exe st st' ∧ Clocked getchar exe d p n st' ∧
      potential exe.length (p + n + 1) st' < potential exe.length (p + n + 1) st := by
  have hbounds := roundsLeft_bounds exe.length st.tm
  rcases hpc : st.pc with _ | _ | _ | _ | t | _ | ret
  · -- entry
    rcases @PointInv.entry_step _ getchar _ _ h.inv hpc with ⟨tm', hrun, hfollows⟩
    have hchars : tm'.chars = st.tm.chars := congrArg Threads.chars hfollows.view
    refine ⟨_, hrun, h.keep (hfollows.inv (.cleared _)) ?_ rfl ?_ ?_, potential_lt hchars ?_⟩
    · rw [hfollows.view]
      exact ⟨rfl, rfl, rfl⟩
    · exact fun _ => h.waits (by rw [hpc]; trivial)
    · exact fun hlooks => hlooks.elim
    · simp only [phase, hpc]
      omega
  · -- the start of an attempt
    rcases @PointInv.start_step _ getchar _ _ hwf h.inv hpc with ⟨tm', hrun, hfollows, hs⟩
    have hcontrols : Threads.Controls st.tm.view tm'.view := by
      rw [hfollows.view]
      exact Threads.Controls.trans (b := { st.tm.view with matchStart := st.tm.chars })
        ⟨rfl, rfl, rfl⟩ (Threads.addThreadCurr_controls _ _)
    refine ⟨_, hrun, h.keep (hfollows.inv hs) hcontrols rfl ?_ ?_,
      potential_lt hcontrols.chars ?_⟩
    · exact fun _ => h.waits (by rw [hpc]; trivial)
    · exact fun hlooks => hlooks.elim
    · simp only [phase, hpc]
      omega
  · -- a character is read
    have hs := h.inv.sound (by simp [hpc])
    have hle := h.waits (by rw [hpc]; trivial)
    have hge := h.ge
    let st₁ : VmPoint σ :=
      { pc := .skipReadchar, tm := { st.tm with lastinput := st.c, chars := st.tm.chars + 1 },
        data := (getchar st.data).2, c := (getchar st.data).1 }
    have hcount : st.tm.chars + 1 - p = st.tm.chars - p + 1 := by omega
    refine ⟨st₁, ?_, ⟨⟨h.inv.placed.same ⟨rfl, rfl, rfl, rfl, rfl⟩, fun _ =>
      ⟨hs.curr, hs.next, hs.curr_lt, hs.next_lt⟩⟩, h.final, Nat.le_succ_of_le h.ge, ?_,
      fun hwaits => hwaits.elim, fun _ => ⟨?_, ?_, ?_⟩⟩, ?_⟩
    · show vmStep getchar exe st = some st₁
      unfold vmStep
      simp only [hpc]
      rfl
    · show (getchar st.data).2 = _
      rw [show st₁.tm.chars - p = st.tm.chars - p + 1 from hcount, Function.iterate_succ_apply',
        ← h.data]
    · show p < st.tm.chars + 1
      omega
    · show st.tm.chars + 1 ≤ p + n + 1
      omega
    · show (getchar st.data).1 = nthChar getchar d (st.tm.chars + 1 - 1 - p)
      rw [Nat.add_sub_cancel, nthChar, ← h.data]
    · have hnew := roundsLeft_bounds exe.length st₁.tm
      obtain ⟨k, hk⟩ : ∃ k, p + n + 1 - st.tm.chars = k + 1 := ⟨p + n - st.tm.chars, by omega⟩
      have hk' : p + n + 1 - st₁.tm.chars = k := by
        show p + n + 1 - (st.tm.chars + 1) = k
        omega
      unfold potential
      rw [hk, hk', Nat.succ_mul k]
      simp only [phase, hpc, st₁] at hnew ⊢
      omega
  · -- the first round of threads
    have hs := h.inv.sound (by simp [hpc])
    have hrun : VmNext getchar exe st { st with pc := .loop 0 } := by
      unfold VmNext vmStep
      simp only [hpc]
    refine ⟨_, hrun, h.keep ⟨h.inv.placed, fun _ => hs⟩ (.refl _) rfl (fun hwaits => hwaits.elim)
      (fun _ => ⟨by rw [hpc]; trivial, rfl⟩), potential_lt rfl ?_⟩
    simp only [phase, hpc]
    omega
  · -- a thread
    by_cases ht : t < st.tm.csize
    · rcases h.inv.thread_step hwf hpc ht with ⟨ii, tm', done, _, hrun, _, hfollows, hs⟩
      have hle := (h.inv.sound (by simp [hpc])).csize_le
      have hcontrols : Threads.Controls st.tm.view tm'.view := by
        rw [hfollows.view]
        exact (Threads.runInst_controls _ _ _ _).1
      have hstart : tm'.matchStart = st.tm.matchStart :=
        (congrArg Threads.matchStart hfollows.view).trans (runInst_matchStart _ _ _ _)
      refine ⟨_, hrun, h.keep (hfollows.inv hs) hcontrols rfl ?_ ?_,
        potential_lt hcontrols.chars ?_⟩
      · cases done <;> exact fun hwaits => hwaits.elim
      · exact fun _ => ⟨by rw [hpc]; trivial, rfl⟩
      · have hrounds := @roundsLeft_congr exe.length _ _ hcontrols.chars hstart
        cases done with
        | true =>
            simp only [phase, hpc, if_true]
            omega
        | false =>
            simp only [phase, hpc, Bool.false_eq_true, if_false]
            rw [hrounds]
            omega
    · have hs := h.inv.sound (by simp [hpc])
      have hrun : VmNext getchar exe st { st with pc := .behind } := by
        unfold VmNext vmStep
        simp only [hpc, if_neg ht]
      refine ⟨_, hrun, h.keep ⟨h.inv.placed, fun _ => hs⟩ (.refl _) rfl
        (fun hwaits => hwaits.elim) (fun _ => ⟨by rw [hpc]; trivial, rfl⟩), potential_lt rfl ?_⟩
      simp only [phase, hpc]
      omega
  · -- behind the threads
    have hs := h.inv.sound (by simp [hpc])
    by_cases hend : st.c = st.tm.endchar
    · have hrun : VmNext getchar exe st { st with pc := .returned 0 } := by
        unfold VmNext vmStep
        simp only [hpc, if_pos hend]
      refine ⟨_, hrun, h.keep ⟨h.inv.placed, fun _ => hs⟩ (.refl _) rfl
        (fun hwaits => hwaits.elim) (fun hlooks => hlooks.elim), potential_lt rfl ?_⟩
      simp only [phase, hpc]
      omega
    have hle := h.before_end hpc hend
    by_cases hnone : st.tm.nsize = 0
    · by_cases hsearch : st.tm.search = false ∨ st.tm.matchEnd ≠ 0
      · have hrun : VmNext getchar exe st { st with pc := .returned 1 } := by
          unfold VmNext vmStep
          simp only [hpc, if_neg hend, if_pos hnone, if_pos hsearch]
        refine ⟨_, hrun, h.keep ⟨h.inv.placed, fun _ => hs⟩ (.refl _) rfl
          (fun hwaits => hwaits.elim) (fun hlooks => hlooks.elim), potential_lt rfl ?_⟩
        simp only [phase, hpc]
        omega
      · rcases @PointInv.restart_step _ getchar _ _ hwf h.inv hpc hend hnone hsearch with
          ⟨tm', hrun, hfollows, hs'⟩
        by_cases hmoved : st.tm.chars - 1 ≠ st.tm.matchStart
        · -- another round for the same character
          simp only [if_pos hmoved] at hrun hfollows hs'
          have hcontrols : Threads.Controls st.tm.view tm'.view := by
            rw [hfollows.view]
            exact Threads.Controls.trans
              (b := { st.tm.view.clearCurr with matchStart := st.tm.chars - 1 })
              ⟨rfl, rfl, rfl⟩ (Threads.addThreadCurr_controls _ _)
          have hstart : tm'.matchStart = st.tm.chars - 1 :=
            (congrArg Threads.matchStart hfollows.view).trans (addThreadCurr_matchStart _ _)
          have hchars : tm'.chars = st.tm.chars := hcontrols.chars
          refine ⟨_, hrun, h.keep (hfollows.inv hs') hcontrols rfl (fun hwaits => hwaits.elim)
            (fun _ => ⟨by rw [hpc]; trivial, rfl⟩), potential_lt hchars ?_⟩
          simp only [phase, hpc, roundsLeft]
          rw [hchars, hstart, if_pos rfl, if_neg hmoved]
          omega
        · simp only [if_neg hmoved] at hrun hfollows hs'
          have hcontrols : Threads.Controls st.tm.view tm'.view := by
            rw [hfollows.view]
            exact ⟨rfl, rfl, rfl⟩
          refine ⟨_, hrun, h.keep (hfollows.inv hs') hcontrols rfl (fun _ => hle)
            (fun hlooks => hlooks.elim), potential_lt hcontrols.chars ?_⟩
          simp only [phase, hpc]
          omega
    · rcases @PointInv.swap_step _ getchar _ _ h.inv hpc hend hnone with
        ⟨tm', hrun, hfollows, hs'⟩
      have hcontrols : Threads.Controls st.tm.view tm'.view := by
        rw [hfollows.view]
        exact ⟨rfl, rfl, rfl⟩
      refine ⟨_, hrun, h.keep (hfollows.inv hs') hcontrols rfl (fun _ => hle)
        (fun hlooks => hlooks.elim), potential_lt hcontrols.chars ?_⟩
      simp only [phase, hpc]
      omega
  · exact absurd ⟨ret, hpc⟩ hgoes

/-- `vm_execute` returns, and where the end comes as character number `n` it takes
at most `2 * size + 8` steps for each of the `n + 1` characters, and two more.
What it returns, and the threads it leaves, are those of the machine on lists. -/
theorem vmExecute_linear (hwf : WellFormed exe) (h : VmReached getchar exe st)
    (hpc : st.pc = .entry) (hend : nthChar getchar st.data n = st.tm.endchar) :
    ∃ k ≤ (n + 1) * (2 * exe.length + 8) + 2, ∃ st', Times (VmNext getchar exe) k st st' ∧
      Returned st' ∧ ∀ fuel ret vs,
        vmExecute getchar exe fuel st.tm.view st.data = some (ret, vs) →
          st'.pc = .returned ret ∧ st'.tm.view = vs.tm := by
  have hinv := h.inv hwf
  have hclocked : Clocked getchar exe st.data st.tm.chars n st := by
    refine ⟨hinv, hend, Nat.le_refl _, ?_, fun _ => Nat.le_add_right _ _, ?_⟩
    · rw [Nat.sub_self]
      rfl
    · rw [hpc]
      exact fun hlooks => hlooks.elim
  have hstart : potential exe.length (st.tm.chars + n + 1) st =
      (n + 1) * (2 * exe.length + 8) + 2 := by
    have hn : st.tm.chars + n + 1 - st.tm.chars = n + 1 := by omega
    simp only [potential, phase, hpc, hn]
  rcases times_of_measure (potential exe.length (st.tm.chars + n + 1))
    (fun a ha hgoes => ha.step hwf hgoes) _ st (Nat.le_refl _) hclocked with
    ⟨k, hk, st', hsteps, ret', hret'⟩
  refine ⟨k, hstart ▸ hk, st', hsteps, ⟨ret', hret'⟩, ?_⟩
  intro fuel ret vs hrun
  rcases vmExecute_runs hwf hinv hpc hrun with ⟨tm', hsteps', hview⟩
  have hdet : Relator.RightUnique (VmNext getchar exe) := by
    intro a b c hb hc
    exact Option.some.inj (hb.symm.trans hc)
  have hfix : ∀ (a : VmPoint σ) (ret : Int), a.pc = .returned ret →
      ∀ x, VmNext getchar exe a x → x = a := by
    intro a ret ha x hx
    unfold VmNext vmStep at hx
    simp only [ha] at hx
    exact (Option.some.inj hx).symm
  obtain rfl := fixed_unique hdet (reflTransGen_iff_times.mpr ⟨k, hsteps⟩) hsteps'
    (hfix st' ret' hret') (hfix _ ret rfl)
  exact ⟨rfl, hview⟩

end

/-- The program `a` on the input `b`. -/
theorem vmExecute_linear_a : ∃ st : VmPoint Nat,
    ∃ k ≤ 26, ∃ st', Times (VmNext (getcharStr [98]) [.opChar 97, .opMatch]) k st st' ∧
      Returned st' ∧ ∀ fuel ret vs,
        vmExecute (getcharStr [98]) [.opChar 97, .opMatch] fuel st.tm.view st.data =
          some (ret, vs) → st'.pc = .returned ret ∧ st'.tm.view = vs.tm := by
  have hreached := @VmReached.first _ (getcharStr [98]) [.opChar 97, .opMatch] zeroThreads _
    (fun _ => 7) (fun _ => 7) 0 0 ⟨rfl, rfl, rfl, rfl, rfl⟩
  rcases vmExecute_linear (n := 1) (by decide) hreached rfl rfl with ⟨k, hk, hrest⟩
  exact ⟨_, k, by simpa using hk, hrest⟩

end Rxvm
