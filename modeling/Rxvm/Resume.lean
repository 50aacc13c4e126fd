import Rxvm.Leftmost
import Rxvm.Reads

/-!
# Rxvm.Resume — one search beside another

A search that stops at the first end it meets reports the same start as the one
that goes on to the last end. And a caller that searches again behind the match
it has got makes progress, unless the match is the empty one at the position it
searched from: `*end` is then the character in front of that position.
-/

namespace Rxvm

open Relation

section

variable {s : List CChar} {exe : List Inst}

/-! ## With and without RXVM_NONGREEDY -/

/-- Whatever is kept of the matches of an attempt, the search ends with the
same attempt. -/
theorem SearchEnd.same_start {icase ml ng ng' : Bool} {r : Nat} {tm tm' : Threads}
    (h : SearchEnd icase ml s exe ng r tm) (h' : SearchEnd icase ml s exe ng' r tm')
    (hend : tm.matchEnd ≠ 0) : tm'.matchEnd ≠ 0 ∧ tm'.matchStart = tm.matchStart := by
  rcases h with ⟨a, q, hpath, hm, _, hstart, _⟩ | ⟨h0, _⟩
  · rcases h' with ⟨b, q', hpath', hm', _, hstart', hme'⟩ | ⟨_, hnone⟩
    · refine ⟨by rw [hme']; exact Nat.succ_ne_zero q', ?_⟩
      rw [hstart, hstart']
      exact attempted_matched_unique hpath' hm' hpath hm
    · exact absurd hm (hnone a q hpath)
  · exact absurd h0 hend

/-- The first end of an attempt is not behind its last one. -/
theorem SearchEnd.first_le {icase ml : Bool} {r : Nat} {tm tm' : Threads}
    (h : SearchEnd icase ml s exe false r tm) (h' : SearchEnd icase ml s exe true r tm')
    (hend : tm.matchEnd ≠ 0) : tm'.matchEnd ≤ tm.matchEnd := by
  rcases h with ⟨a, q, hpath, hm, _, _, hme⟩ | ⟨h0, _⟩
  · rcases h' with ⟨b, q', hpath', hm', hkeeps, _, hme'⟩ | ⟨_, hnone⟩
    · obtain rfl := attempted_matched_unique hpath hm hpath' hm'
      have hle : q' ≤ q := hkeeps q hm
      omega
    · exact absurd hm (hnone a q hpath)
  · exact absurd h0 hend

/-- `RXVM_NONGREEDY` changes nothing but the end of a match, and moves that to
the left if at all. -/
theorem rxvmSearch_nongreedy {compiled : Compiled} (hprogram : compiled.simple = none)
    (hwf : WellFormed compiled.exe) (hs : NoNul s) (icase multiline : Bool) :
    ∃ greedy nongreedy,
      rxvmSearch compiled s { icase := icase, nongreedy := false, multiline := multiline } =
        some greedy ∧
      rxvmSearch compiled s { icase := icase, nongreedy := true, multiline := multiline } =
        some nongreedy ∧
      nongreedy.ret = greedy.ret ∧
      (greedy.ret = 1 → nongreedy.start = greedy.start ∧ ∃ i j : Int,
        nongreedy.fin = some i ∧ greedy.fin = some j ∧ i ≤ j) := by
  rcases vmExecute_searchEnd hwf hs
    { icase := icase, nongreedy := false, multiline := multiline } with ⟨res, hres, hout⟩
  rcases vmExecute_searchEnd hwf hs
    { icase := icase, nongreedy := true, multiline := multiline } with ⟨res', hres', hout'⟩
  refine ⟨searchResult res.2.tm, searchResult res'.2.tm, ?_, ?_, ?_⟩
  · unfold rxvmSearch
    simp only [hprogram, hres]
    rfl
  · unfold rxvmSearch
    simp only [hprogram, hres']
    rfl
  · unfold searchResult
    by_cases hend : res.2.tm.matchEnd = 0
    · have hend' : res'.2.tm.matchEnd = 0 := by
        by_contra hne
        exact (SearchEnd.same_start hout' hout hne).1 hend
      rw [if_pos hend, if_pos hend']
      exact ⟨rfl, fun hret => by cases hret⟩
    · rcases SearchEnd.same_start hout hout' hend with ⟨hend', hstart⟩
      rw [if_neg hend, if_neg hend']
      have hle := SearchEnd.first_le hout hout' hend
      refine ⟨rfl, fun _ => ⟨congrArg (fun n : Nat => some (n : Int)) hstart, _, _, rfl, rfl, ?_⟩⟩
      omega

/-- The program of `a+` on `baa`: the same start, and the ends differ. -/
theorem rxvmSearch_nongreedy_aplus :
    ∃ greedy nongreedy,
      rxvmSearch { exe := [.opChar 97, .opBranch 0 2, .opMatch], simple := none, lfix := none,
                   lfix0 := 0, lfixn := 0 } [98, 97, 97]
        { icase := false, nongreedy := false, multiline := true } = some greedy ∧
      rxvmSearch { exe := [.opChar 97, .opBranch 0 2, .opMatch], simple := none, lfix := none,
                   lfix0 := 0, lfixn := 0 } [98, 97, 97]
        { icase := false, nongreedy := true, multiline := true } = some nongreedy ∧
      nongreedy.ret = greedy.ret ∧
      (greedy.ret = 1 → nongreedy.start = greedy.start ∧ ∃ i j : Int,
        nongreedy.fin = some i ∧ greedy.fin = some j ∧ i ≤ j) :=
  rxvmSearch_nongreedy rfl (by decide) (by decide) false true

/-! ## Searching again behind a match -/

/-- The empty substring at the start of the input is all that the search can
keep of the attempt made there. -/
def StartsEmpty (compiled : Compiled) (flags : Flags) (s : List CChar) : Prop :=
  match compiled.simple with
  | some text => text = []
  | none => Accepts flags.icase flags.multiline s compiled.exe 0 0 ∧
      (flags.nongreedy = false →
        ∀ j, Accepts flags.icase flags.multiline s compiled.exe 0 j → j = 0)

/-- A search from position `p` on succeeds, and the caller goes on at `q`, which
is one character behind `*end`. -/
def Resumes (compiled : Compiled) (flags : Flags) (s : List CChar) (p q : Nat) : Prop :=
  ∃ result fin, rxvmSearch compiled (s.drop p) flags = some result ∧ result.ret = 1 ∧
    result.fin = some fin ∧ (q : Int) = p + fin + 1

/-- The iteration of the callers always moves on inside the input, and ends. -/
structure MakesProgress (compiled : Compiled) (flags : Flags) (s : List CChar) : Prop where
  moves : ∀ p q, ReflTransGen (Resumes compiled flags s) 0 p → Resumes compiled flags s p q →
    p < q ∧ q ≤ s.length
  ends : ¬ ∃ f : Nat → Nat, f 0 = 0 ∧ ∀ n, Resumes compiled flags s (f n) (f (n + 1))

/-- Where the match found by `vm_execute` ends. -/
theorem SearchEnd.end_zero_iff {icase ml ng : Bool} {tm : Threads}
    (h : SearchEnd icase ml s exe ng 0 tm) :
    tm.matchEnd ≤ s.length + 1 ∧ (tm.matchEnd = 1 ↔ Accepts icase ml s exe 0 0 ∧
      (ng = false → ∀ j, Accepts icase ml s exe 0 j → j = 0)) := by
  rcases h with ⟨a, q, hpath, hm, hkeeps, _, hme⟩ | ⟨h0, hnone⟩
  · have hle := hm.le_length (Attempted.le_length hpath)
    refine ⟨by omega, ?_, ?_⟩
    · intro h1
      obtain rfl : q = 0 := by omega
      obtain rfl : a = 0 := Nat.le_zero.mp hm.ge
      refine ⟨hm, ?_⟩
      intro hng j hj
      have hk := hkeeps j hj
      rw [hng] at hk
      exact Nat.le_zero.mp hk
    · rintro ⟨hzero, hall⟩
      -- the attempt at the start matches, so it is the last one
      obtain rfl := attempted_matched_unique hpath hm .refl hzero
      have hk := hkeeps 0 hzero
      cases hng : ng with
      | true =>
          rw [hng] at hk
          have hq : q ≤ 0 := hk
          omega
      | false =>
          have hq := hall hng q hm
          omega
  · refine ⟨by omega, fun h1 => absurd h0 (by omega), ?_⟩
    rintro ⟨hzero, _⟩
    exact absurd hzero (hnone 0 0 .refl)

/-- Where the match found by `simple_match` ends. -/
theorem simpleMatch_end_zero_iff (hs : NoNul s) {text : List CChar} (htext : NoNul text)
    (flags : Flags) :
    ∃ res, simpleMatch (stringFuel s) s text (searchThreads flags) = some res ∧
      res.2.tm.matchEnd ≤ s.length + 1 ∧ (res.2.tm.matchEnd = 1 ↔ text = []) := by
  by_cases hnil : text = []
  · subst hnil
    obtain ⟨fuel, hfuel⟩ : ∃ f, stringFuel s = f + 1 := ⟨4 * s.length + 4, rfl⟩
    have hrun : simpleLoop s [] (fuel + 1) .loop
        ⟨{ searchThreads flags with matchStart := 0 }, 0, 0, 0⟩ = _ := simpleLoop_whole rfl
    rw [← hfuel] at hrun
    refine ⟨_, hrun, ?_⟩
    show 0 + 1 ≤ s.length + 1 ∧ (0 + 1 = 1 ↔ _)
    simp
  · have hfirst : at' text 0 ≠ 0 := by
      intro h0
      have := (at'_eq_zero_iff htext 0).mp h0
      exact hnil (List.length_eq_zero_iff.mp (by omega))
    rcases simpleMatch_end hs text flags true with ⟨res, hres, hend⟩
    refine ⟨res, hres, ?_⟩
    by_cases hm : res.2.tm.matchEnd = 0
    · exact ⟨by omega, fun h1 => absurd hm (by omega), fun h => absurd h hnil⟩
    · rcases hend.matched hm with ⟨heq, hle, hpos⟩
      have hchars := hpos hfirst
      exact ⟨by omega, fun h1 => absurd h1 (by omega), fun h => absurd h hnil⟩

/-- A search of an input: where the match ends, and when it is empty and at the
start. -/
theorem rxvmSearch_ends {g g' : Statics} {exp : List CChar} {compiled : Compiled}
    (h : rxvmCompile g exp = .ok (.ok compiled, g')) (hs : NoNul s) (flags : Flags) :
    ∃ tm, rxvmSearch compiled s flags = some (searchResult tm) ∧
      tm.matchEnd ≤ s.length + 1 ∧ (tm.matchEnd = 1 ↔ StartsEmpty compiled flags s) := by
  cases hsimple : compiled.simple with
  | some text =>
      rcases rxvmCompile_simple h hsimple with ⟨rfl, _⟩
      rcases simpleMatch_end_zero_iff hs (noNul_cstring exp) flags with ⟨res, hres, hend⟩
      refine ⟨res.2.tm, ?_, ?_⟩
      · unfold rxvmSearch
        simp only [hsimple, hres]
        rfl
      · unfold StartsEmpty
        rw [hsimple]
        exact hend
  | none =>
      have hwf := rxvmCompile_wellFormed h hsimple
      rcases vmExecute_searchEnd hwf hs flags with ⟨res, hres, hout⟩
      refine ⟨res.2.tm, ?_, ?_⟩
      · unfold rxvmSearch
        simp only [hsimple, hres]
        rfl
      · unfold StartsEmpty
        rw [hsimple]
        exact hout.end_zero_iff

/-- Where the callers go on, in terms of the end of the match. -/
theorem resumes_iff {compiled : Compiled} {flags : Flags} {p q : Nat} {tm : Threads}
    (htm : rxvmSearch compiled (s.drop p) flags = some (searchResult tm)) :
    Resumes compiled flags s p q ↔ tm.matchEnd ≠ 0 ∧ q + 1 = p + tm.matchEnd := by
  constructor
  · rintro ⟨result, fin, hrun, hret, hfin, hq⟩
    obtain rfl := Option.some.inj (htm.symm.trans hrun)
    have hne : tm.matchEnd ≠ 0 := by
      intro h0
      rw [searchResult, if_pos h0] at hret
      cases hret
    rw [searchResult, if_neg hne] at hfin
    have := Option.some.inj hfin
    exact ⟨hne, by omega⟩
  · rintro ⟨hne, hq⟩
    have hresult : searchResult tm =
        { ret := 1, start := some tm.matchStart, fin := some ((tm.matchEnd : Int) - 2) } :=
      if_neg hne
    refine ⟨_, (tm.matchEnd : Int) - 2, htm, ?_, ?_, by omega⟩
    · rw [hresult]
    · rw [hresult]

section

variable {g g' : Statics} {exp : List CChar} {compiled : Compiled} {flags : Flags}

theorem noNul_drop (hs : NoNul s) (p : Nat) : NoNul (s.drop p) :=
  fun c hc => hs c (List.mem_of_mem_drop hc)

/-- One step of the iteration. -/
theorem Resumes.step (h : rxvmCompile g exp = .ok (.ok compiled, g')) (hs : NoNul s) {p q : Nat}
    (hp : p ≤ s.length) (hstep : Resumes compiled flags s p q) :
    p ≤ q ∧ q ≤ s.length ∧ (p = q ↔ StartsEmpty compiled flags (s.drop p)) := by
  rcases rxvmSearch_ends h (noNul_drop hs p) flags with ⟨tm, htm, hle, hone⟩
  rcases (resumes_iff htm).mp hstep with ⟨hne, hq⟩
  rw [List.length_drop] at hle
  rw [← hone]
  omega

/-- Where the search keeps an empty match, the callers stand still. -/
theorem StartsEmpty.resumes (h : rxvmCompile g exp = .ok (.ok compiled, g')) (hs : NoNul s)
    {p : Nat} (hempty : StartsEmpty compiled flags (s.drop p)) :
    Resumes compiled flags s p p := by
  rcases rxvmSearch_ends h (noNul_drop hs p) flags with ⟨tm, htm, _, hone⟩
  have hend := hone.mpr hempty
  exact (resumes_iff htm).mpr ⟨by omega, by omega⟩

/-- The iteration stays inside the input. -/
theorem Resumes.run (h : rxvmCompile g exp = .ok (.ok compiled, g')) (hs : NoNul s) {p : Nat}
    (hrun : ReflTransGen (Resumes compiled flags s) 0 p) : p ≤ s.length := by
  induction hrun with
  | refl => exact Nat.zero_le _
  | tail _ hstep ih => exact (hstep.step h hs ih).2.1

/-- The iteration of the callers makes progress if and only if no search it
makes keeps the empty match at the position it starts from. -/
theorem rxvmSearch_progress_iff (h : rxvmCompile g exp = .ok (.ok compiled, g')) (hs : NoNul s)
    (flags : Flags) :
    MakesProgress compiled flags s ↔
      ∀ p, ReflTransGen (Resumes compiled flags s) 0 p →
        ¬ StartsEmpty compiled flags (s.drop p) := by
  constructor
  · intro hprogress p hrun hempty
    have hlt := (hprogress.moves p p hrun (hempty.resumes h hs)).1
    omega
  · intro hall
    have hmoves : ∀ p q, ReflTransGen (Resumes compiled flags s) 0 p →
        Resumes compiled flags s p q → p < q ∧ q ≤ s.length := by
      intro p q hrun hstep
      rcases hstep.step h hs (Resumes.run h hs hrun) with ⟨hle, hq, hiff⟩
      have hne : p ≠ q := fun heq => hall p hrun (hiff.mp heq)
      omega
    refine ⟨hmoves, ?_⟩
    rintro ⟨f, h0, hf⟩
    -- an endless iteration would get behind the end of the input
    have hrun : ∀ n, ReflTransGen (Resumes compiled flags s) 0 (f n) := by
      intro n
      induction n with
      | zero => rw [h0]
      | succ n ih => exact ih.tail (hf n)
    have hge : ∀ n, n ≤ f n := by
      intro n
      induction n with
      | zero => exact Nat.zero_le _
      | succ n ih =>
          have := (hmoves _ _ (hrun n) (hf n)).1
          omega
    have hlast := hge (s.length + 1)
    have := Resumes.run h hs (hrun (s.length + 1))
    omega

/-- The expression `a+` on `ab`. -/
theorem rxvmSearch_progress_plus : ∃ compiled g',
    rxvmCompile Statics.init [97, 43] = .ok (.ok compiled, g') ∧
      MakesProgress compiled {} [97, 98] := by
  have h : ∃ compiled g', rxvmCompile Statics.init [97, 43] = .ok (.ok compiled, g') ∧
      compiled.simple = none ∧ compiled.exe = [.opChar 97, .opBranch 0 2, .opMatch] :=
    ⟨_, _, rfl, rfl, rfl⟩
  rcases h with ⟨compiled, g', hrun, hsimple, hexe⟩
  refine ⟨compiled, g', hrun, (rxvmSearch_progress_iff hrun (by decide) {}).mpr ?_⟩
  intro p _ hempty
  unfold StartsEmpty at hempty
  rw [hsimple, hexe] at hempty
  rcases hempty.1 with ⟨m, hm, hpath⟩
  rcases ReflTransGen.cases_head hpath with heq | ⟨b, hstep, hrest⟩
  · cases heq
    cases hm
  · -- the first instruction reads a character
    cases hstep with
    | eat hi =>
        have := NfaPath.pos_le hrest
        omega
    | sol hi => cases hi
    | eol hi => cases hi
    | branchX hi => cases hi
    | branchY hi => cases hi
    | jmp hi => cases hi

/-- The expression `a*` on `b`: the search from the start ends where it has
begun, and so does the next one. -/
theorem rxvmSearch_progress_star : ∃ compiled g',
    rxvmCompile Statics.init [97, 42] = .ok (.ok compiled, g') ∧
      ¬ MakesProgress compiled {} [98] ∧ ∃ f : Nat → Nat, f 0 = 0 ∧
        ∀ n, Resumes compiled {} [98] (f n) (f (n + 1)) := by
  have h : ∃ compiled g', rxvmCompile Statics.init [97, 42] = .ok (.ok compiled, g') ∧
      rxvmSearch compiled [98] {} = some { ret := 1, start := some 0, fin := some (-1) } :=
    ⟨_, _, rfl, rfl⟩
  rcases h with ⟨compiled, g', hrun, hsearch⟩
  have hstep : Resumes compiled {} [98] 0 0 := ⟨_, _, hsearch, rfl, rfl, rfl⟩
  refine ⟨compiled, g', hrun, ?_, fun _ => 0, rfl, fun _ => hstep⟩
  intro hprogress
  exact absurd (hprogress.moves 0 0 .refl hstep).1 (Nat.lt_irrefl 0)

end

end

end Rxvm
