import Rxvm.Scan

/-!
# Rxvm.MatchSpec — rxvm_match decides the language of the program

`rxvm_match` runs the machine once, from the start of the input. The run
invariant is `AtPos` with `match_end` at most the position: an end recorded
earlier points at a character, so only a `match` at the end of the input can
make the last test of `rxvm_match` succeed.
-/

namespace Rxvm

section

variable {icase ml : Bool} {s : List CChar} {exe : List Inst} {p : Nat} {st : VmState Nat}

/-- What `rxvm_match` makes of the end of `vm_execute`. -/
def matchOutcome (s : List CChar) (r : Int × VmState Nat) : Int :=
  if r.1 = 0 then matchResult s r.2.tm else 0

/-- The test `tm.match_end && !*(sot + (tm.match_end - 1))`. -/
theorem matchResult_eq_one_iff (hs : NoNul s) {tm : Threads} :
    matchResult s tm = 1 ↔ s.length < tm.matchEnd := by
  unfold matchResult
  split
  · next h =>
      have := (at'_eq_zero_iff hs _).mp h.2
      omega
  · next h =>
      constructor
      · intro h01
        omega
      · intro hlt
        exact absurd ⟨by omega, (at'_eq_zero_iff hs _).mpr (by omega)⟩ h

theorem matchResult_cases (tm : Threads) : matchResult s tm = 1 ∨ matchResult s tm = 0 := by
  unfold matchResult
  split <;> simp

/-- The run from position `p` on: it ends, and its outcome is whether `match`
is reached at the end of the input. -/
theorem match_run (hwf : WellFormed exe) (hs : NoNul s) :
    ∀ (k p fuel : Nat) (st : VmState Nat), ahead s 0 p = k → Lasts s 0 p fuel →
      AtPos icase ml s exe 0 p st → st.tm.search = false → st.tm.nongreedy = false →
      st.tm.matchEnd ≤ p →
      ∃ r, vmLoop (getcharStr s) exe fuel .skipReadchar st = some r ∧ (r.1 = 0 ∨ r.1 = 1) ∧
        (matchOutcome s r = 1 ↔ Matched icase ml s exe 0 s.length) := by
  intro k
  induction k using Nat.strong_induction_on with
  | _ k ih =>
  intro p fuel st hk hlasts hat hsearch hng hend
  cases hat.looked hwf hs hlasts with
  | returned tm' hrun hng' =>
      -- only a non-greedy run returns at a match
      rw [hng] at hng'
      cases hng'
  | ended tm' hscan hquiet hrun hp =>
      subst hp
      refine ⟨_, hrun, Or.inl rfl, ?_⟩
      unfold matchOutcome
      rw [if_pos rfl, matchResult_eq_one_iff hs]
      by_cases hm : Matched icase ml s exe 0 s.length
      · rw [hscan.matched hm]
        simp [hm]
      · rw [hscan.unmatched hm]
        simp only [hm, iff_false]
        omega
  | dead tm' hscan hquiet hrun hp hdead hstop =>
      -- the attempt dies before the end of the input
      refine ⟨_, hrun, Or.inr rfl, ?_⟩
      have hnot : ¬ Matched icase ml s exe 0 s.length := by
        rintro ⟨v, _, hv⟩
        exact reach_dead (Nat.zero_le _) hdead _ v (by omega) hv
      simp [matchOutcome, hnot]
  | again tm' hscan hquiet st' fuel' hrun hp hdead hsearch' =>
      -- only a search makes another attempt
      rw [hsearch] at hsearch'
      cases hsearch'
  | goesOn tm' hscan hquiet st' fuel' hrun hp halive hless hlasts' hat' hkept =>
      have hend' : st'.tm.matchEnd ≤ p + 1 := by
        rw [hkept.matchEnd]
        by_cases hm : Matched icase ml s exe 0 p
        · exact (hscan.matched hm).le
        · rw [hscan.unmatched hm]
          omega
      rcases ih _ (hk ▸ hless) (p + 1) fuel' st' rfl hlasts' hat' (hkept.search.trans hsearch)
        (hkept.nongreedy.trans hng) hend' with ⟨r, hr, hres⟩
      exact ⟨r, hrun.trans hr, hres⟩

end

theorem rxvmMatch_spec {compiled : Compiled} (hsimple : compiled.simple = none)
    (hwf : WellFormed compiled.exe) {s : List CChar} (hs : NoNul s) (flags : Flags) :
    ∃ ret, rxvmMatch compiled s flags = some ret ∧ (ret = 1 ∨ ret = 0) ∧
      (ret = 1 ↔ Accepts flags.icase true s compiled.exe 0 s.length) := by
  have hat := AtPos.ofStart (s := s) (r := 0) (c := 0) hwf (Nat.zero_le _)
    (show (matchThreads flags).chars = 0 from rfl) (fun h => absurd rfl h) rfl rfl rfl rfl rfl rfl rfl
  obtain ⟨r, hr, hret, hiff⟩ := match_run hwf hs _ 0 (4 * s.length + 3) _ rfl
    (lasts_self.mpr (by omega)) hat rfl rfl (Nat.le_refl _)
  refine ⟨matchOutcome s r, ?_, ?_, hiff⟩
  · have hexec : vmExecute (getcharStr s) compiled.exe (stringFuel s) (matchThreads flags) 0 =
        some r := by
      simp only [vmExecute, stringFuel, vmLoop]
      exact hr
    simp only [rxvmMatch, hsimple, hexec, Option.map_some]
    rfl
  · unfold matchOutcome
    split
    · exact matchResult_cases _
    · exact Or.inr rfl

/-- `rxvm_match` returns 1 if and only if the program has a path from
instruction 0 at the start of the input to a `match` at its end, and 0
otherwise. -/
theorem rxvmMatch_decides {compiled : Compiled} (hsimple : compiled.simple = none)
    (hwf : WellFormed compiled.exe) {s : List CChar} (hs : NoNul s) :
    (Accepts false true s compiled.exe 0 s.length → rxvmMatch compiled s {} = some 1) ∧
    (¬ Accepts false true s compiled.exe 0 s.length → rxvmMatch compiled s {} = some 0) := by
  obtain ⟨ret, hret, hcases, hiff⟩ := rxvmMatch_spec hsimple hwf hs {}
  rw [hret]
  constructor
  · intro h
    rw [hiff.mpr h]
  · intro h
    rcases hcases with h1 | h0
    · exact absurd (hiff.mp h1) h
    · rw [h0]

/-- `a*` and the input `aa`. -/
theorem rxvmMatch_decides_astar :
    rxvmMatch { exe := [.opBranch 1 3, .opChar 97, .opBranch 1 3, .opMatch], simple := none,
                lfix := none, lfix0 := 0, lfixn := 0 } [97, 97] {} = some 1 := by
  apply (rxvmMatch_decides rfl (by decide) (by decide)).1
  refine ⟨3, rfl, ?_⟩
  refine .head (.branchX rfl) (.head (.eat rfl (by decide) rfl) ?_)
  refine .head (.branchX rfl) (.head (.eat rfl (by decide) rfl) ?_)
  exact .single (.branchY (y := 3) rfl)

end Rxvm
