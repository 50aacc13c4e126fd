import Rxvm.Scan
import Rxvm.SimpleSpec

/-!
# Rxvm.Reads — how often the matchers call getchar

`vm_execute` and `simple_match` come back, whatever the flags, and have read
the input once by then. The state behind `getchar_str` is the index of the next
character, so it counts the calls.
-/

namespace Rxvm

/-- After `k` calls of `getchar` no character has been read twice, and if the
end character has been returned, then by the last call. -/
def ReadOnce (s : List CChar) (k : Nat) : Prop :=
  k ≤ s.length + 1 ∧ ∀ i, i + 1 < k → at' s i ≠ 0

/-- `tm` behind `vm_init`, with the flags and the mode. -/
def modeThreads (flags : Flags) (search : Bool) : Threads :=
  { Threads.zero with icase := flags.icase, nongreedy := flags.nongreedy,
                      multiline := flags.multiline, search := search }

section

variable {icase ml search : Bool} {s text : List CChar} {exe : List Inst} {k r p : Nat}

theorem readOnce_of_le (hs : NoNul s) (h : k ≤ s.length + 1) : ReadOnce s k := by
  refine ⟨h, ?_⟩
  intro i hi h0
  have := (at'_eq_zero_iff hs i).mp h0
  omega

/-! ## vm_execute -/

/-- From position `p` of the attempt started at `r` on. -/
theorem vmLoop_reads (hwf : WellFormed exe) (hs : NoNul s) :
    ∀ (k p r fuel : Nat) (st : VmState Nat), ahead s r p = k → Lasts s r p fuel →
      AtPos icase ml s exe r p st →
      ∃ res, vmLoop (getcharStr s) exe fuel .skipReadchar st = some res ∧
        res.2.data ≤ s.length + 1 := by
  intro k
  induction k using Nat.strong_induction_on with
  | _ k ih =>
  intro p r fuel st hk hlasts hat
  -- the call for the character at `p` is the last one so far
  have hdata : st.data ≤ s.length + 1 := by
    rw [hat.data]
    have := hat.le_length
    omega
  cases hat.looked hwf hs hlasts with
  | returned tm' hrun => exact ⟨_, hrun, hdata⟩
  | ended tm' hscan hquiet hrun => exact ⟨_, hrun, hdata⟩
  | dead tm' hscan hquiet hrun => exact ⟨_, hrun, hdata⟩
  | again tm' hscan hquiet st' fuel' hrun hp hdead hsearch hzero hless hlasts' hat' =>
      rcases ih _ (hk ▸ hless) _ _ fuel' st' rfl hlasts' hat' with ⟨res, hres, hout⟩
      exact ⟨res, hrun.trans hres, hout⟩
  | goesOn tm' hscan hquiet st' fuel' hrun hp halive hless hlasts' hat' =>
      rcases ih _ (hk ▸ hless) _ _ fuel' st' rfl hlasts' hat' with ⟨res, hres, hout⟩
      exact ⟨res, hrun.trans hres, hout⟩

theorem vmExecute_reads (hwf : WellFormed exe) (hs : NoNul s) (flags : Flags) (search : Bool) :
    ∃ res, vmExecute (getcharStr s) exe (stringFuel s) (modeThreads flags search) 0 = some res ∧
      ReadOnce s res.2.data := by
  have hat := AtPos.ofStart (s := s) (r := 0) (c := 0) hwf (Nat.zero_le _)
    (show (modeThreads flags search).chars = 0 from rfl) (fun h => absurd rfl h) rfl rfl rfl rfl
    rfl rfl rfl
  obtain ⟨res, hres, hout⟩ := vmLoop_reads hwf hs _ 0 0 (4 * s.length + 3) _ rfl
    (lasts_self.mpr (by omega)) hat
  refine ⟨res, ?_, readOnce_of_le hs hout⟩
  simp only [vmExecute, stringFuel, vmLoop]
  exact hres

/-! ## simple_match -/

/-- `simple_match` has read `st.data` characters, none of them the end. -/
structure SimplePos (s : List CChar) (st : SimpleState) : Prop where
  chars : st.tm.chars = st.data
  le : st.data ≤ s.length
  endchar : st.tm.endchar = 0
  unmatched : st.tm.matchEnd = 0

/-- How `simple_match` ends. A match ends where the input has been read to,
and is not empty if the text is not. -/
structure SimpleEnd (s text : List CChar) (st : SimpleState) : Prop where
  data : st.data ≤ s.length + 1
  matched : st.tm.matchEnd ≠ 0 → st.tm.matchEnd = st.tm.chars + 1 ∧ st.tm.chars ≤ s.length ∧
    (at' text 0 ≠ 0 → 0 < st.tm.chars)

theorem simpleLoop_reads (hs : NoNul s) : ∀ (k fuel : Nat) (st : SimpleState),
    s.length - st.data = k → 3 * k + 1 ≤ fuel → SimplePos s st → (st.simple ≠ 0 → 0 < st.data) →
    ∃ res, simpleLoop s text fuel .loop st = some res ∧ SimpleEnd s text res.2 := by
  intro k
  induction k using Nat.strong_induction_on with
  | _ k ih =>
  intro fuel st hk hfuel hpos hsome
  obtain ⟨fuel, rfl⟩ : ∃ f, fuel = f + 1 := ⟨fuel - 1, by omega⟩
  rcases hpos with ⟨hchars, hle, hendchar, hunmatched⟩
  by_cases hend : at' text st.simple = 0
  · refine ⟨_, simpleLoop_whole hend, by show st.data ≤ _; omega, fun _ => ⟨rfl, ?_, ?_⟩⟩
    · show st.tm.chars ≤ s.length
      omega
    · intro h0
      have hne : st.simple ≠ 0 := fun h => h0 (h ▸ hend)
      show 0 < st.tm.chars
      rw [hchars]
      exact hsome hne
  by_cases hc : at' s st.data = st.tm.endchar
  · refine ⟨_, simpleLoop_end hend hc, by show st.data + 1 ≤ _; omega, fun hm => ?_⟩
    exact absurd hunmatched hm
  have hlt : st.data < s.length := by
    by_contra hge
    rw [hendchar] at hc
    exact hc ((at'_eq_zero_iff hs _).mpr (by omega))
  obtain ⟨fuel, rfl⟩ : ∃ f, fuel = f + 2 := ⟨fuel - 2, by omega⟩
  -- a character that has been read leads to the next one, at the latest when it has been
  -- compared with the first one of the text too
  have hnext : ∀ (f : Nat) (st' : SimpleState), 3 * (s.length - (st.data + 1)) + 1 ≤ f →
      SimplePos s st' → st'.data = st.data + 1 →
      ∃ res, simpleLoop s text f .loop st' = some res ∧ SimpleEnd s text res.2 := by
    intro f st' hf hpos' hdata
    exact ih _ (by omega) f st' (by rw [hdata]) hf hpos' (fun _ => by omega)
  have hfirst : ∀ (f : Nat) (st' : SimpleState), 3 * (s.length - (st.data + 1)) + 2 ≤ f →
      SimplePos s st' → st'.data = st.data + 1 → st'.simple = 0 →
      ∃ res, simpleLoop s text f .skipReadchar st' = some res ∧ SimpleEnd s text res.2 := by
    intro f st' hf hpos' hdata h0
    obtain ⟨f, rfl⟩ : ∃ n, f = n + 1 := ⟨f - 1, by omega⟩
    rcases hpos' with ⟨hchars', hle', hendchar', hunmatched'⟩
    cases hmatch : charMatch st'.tm.icase (at' text st'.simple) st'.c with
    | true =>
        rw [simpleLoop_equal hmatch]
        exact hnext f _ (by omega) ⟨hchars', hle', hendchar', hunmatched'⟩ hdata
    | false =>
        by_cases hsearch : st'.tm.search = true
        · rw [simpleLoop_fresh hmatch hsearch h0]
          exact hnext f _ (by omega) ⟨hchars', hle', hendchar', hunmatched'⟩ hdata
        · refine ⟨(0, st'), ?_, by show st'.data ≤ _; omega, fun hm => absurd hunmatched' hm⟩
          rw [simpleLoop, if_neg (by simp [hmatch]), if_pos (by simpa using hsearch)]
  rw [simpleLoop_read hend hc]
  generalize hread : (SimpleState.mk { st.tm with chars := st.tm.chars + 1 } (st.data + 1)
    (at' s st.data) (if at' text st.simple = derefSym then st.simple + 1 else st.simple)) = st'
  have hpos' : SimplePos s st' := by
    rw [← hread]
    exact ⟨by show st.tm.chars + 1 = st.data + 1; rw [hchars], hlt, hendchar, hunmatched⟩
  have hdata : st'.data = st.data + 1 := by rw [← hread]
  clear hread
  by_cases h0 : st'.simple = 0
  · exact hfirst _ st' (by omega) hpos' hdata h0
  rcases hpos' with ⟨hchars', hle', hendchar', hunmatched'⟩
  cases hmatch : charMatch st'.tm.icase (at' text st'.simple) st'.c with
  | true =>
      rw [simpleLoop_equal hmatch]
      exact hnext _ _ (by omega) ⟨hchars', hle', hendchar', hunmatched'⟩ hdata
  | false =>
      by_cases hsearch : st'.tm.search = true
      · rw [simpleLoop_again hmatch hsearch h0]
        exact hfirst _ _ (by omega) ⟨hchars', hle', hendchar', hunmatched'⟩ hdata rfl
      · refine ⟨(0, st'), ?_, by show st'.data ≤ _; omega, fun hm => absurd hunmatched' hm⟩
        rw [simpleLoop, if_neg (by simp [hmatch]), if_pos (by simpa using hsearch)]

theorem simpleMatch_end (hs : NoNul s) (text : List CChar) (flags : Flags) (search : Bool) :
    ∃ res, simpleMatch (stringFuel s) s text (modeThreads flags search) = some res ∧
      SimpleEnd s text res.2 :=
  simpleLoop_reads hs _ _ _ rfl (by simp [stringFuel]; omega) ⟨rfl, Nat.zero_le _, rfl, rfl⟩
    fun h => absurd rfl h

/-! ## Both -/

/-- Whatever the flags and the mode, `vm_execute` and `simple_match` come back
and have read the input once. -/
theorem matchers_readOnce (hs : NoNul s) (flags : Flags) (search : Bool) :
    (∀ exe, WellFormed exe → ∃ res,
      vmExecute (getcharStr s) exe (stringFuel s) (modeThreads flags search) 0 = some res ∧
        ReadOnce s res.2.data) ∧
    ∀ text, ∃ res, simpleMatch (stringFuel s) s text (modeThreads flags search) = some res ∧
      ReadOnce s res.2.data := by
  constructor
  · exact fun exe hwf => vmExecute_reads hwf hs flags search
  · intro text
    rcases simpleMatch_end hs text flags search with ⟨res, hres, hend⟩
    exact ⟨res, hres, readOnce_of_le hs hend.data⟩

/-- The program of `a*` on `ab`, and the text `ab` in match mode. -/
theorem matchers_readOnce_ab :
    (∃ res, vmExecute (getcharStr [97, 98]) [.opBranch 1 3, .opChar 97, .opBranch 1 3, .opMatch]
        (stringFuel [97, 98]) (modeThreads {} false) 0 = some res ∧
      ReadOnce [97, 98] res.2.data) ∧
    ∃ res, simpleMatch (stringFuel [97, 98]) [97, 98] [97, 98] (modeThreads {} false) = some res ∧
      ReadOnce [97, 98] res.2.data :=
  ⟨(matchers_readOnce (by decide) {} false).1 _ (by decide),
    (matchers_readOnce (by decide) {} false).2 _⟩

end

end Rxvm
