import Rxvm.Scan

/-!
# Rxvm.SearchSpec — what a search of vm_execute finds

`rxvm_search` does not try every position. When the attempt started at `r`
has no thread left behind position `q`, the next attempt starts at `q`, or at
`r + 1` when nothing was consumed; an attempt that is still alive at the end of
the input is the last one. `NextAttempt` is this relation, in terms of the
automaton only, and `search_run` says that the machine finds the first
attempted position with a match.
-/

namespace Rxvm

open Relation

section

variable (icase ml : Bool) (s : List CChar) (exe : List Inst)

/-- The attempt started at `r` fails, and the next one starts at `r'`: `q` is
the last position the attempt gets to. -/
def NextAttempt (r r' : Nat) : Prop :=
  (∀ p, ¬ Matched icase ml s exe r p) ∧
    ∃ q, r ≤ q ∧ q < s.length ∧ (∃ v, Reach icase ml s exe r q v) ∧
      (∀ v, ¬ Reach icase ml s exe r (q + 1) v) ∧ r' = max (r + 1) q

/-- The search makes an attempt at position `i`. -/
def Attempted (i : Nat) : Prop := ReflTransGen (NextAttempt icase ml s exe) 0 i

/-- `match_end` records the last match before position `p` of the attempt
started at `r`. -/
def EndBefore (r p m : Nat) : Prop :=
  (m = 0 ∧ ∀ q < p, ¬ Matched icase ml s exe r q) ∨
    ∃ q < p, Matched icase ml s exe r q ∧ m = q + 1 ∧
      ∀ q', q < q' → q' < p → ¬ Matched icase ml s exe r q'

/-- How a search ends that was at an attempt started at `r`: at a later or the
same attempt with a match, whose last end is recorded, or with no match in any
attempt. -/
def SearchOutcome (r : Nat) (tm : Threads) : Prop :=
  (∃ r' q, ReflTransGen (NextAttempt icase ml s exe) r r' ∧ Matched icase ml s exe r' q ∧
      (∀ q', Matched icase ml s exe r' q' → q' ≤ q) ∧
      tm.matchStart = r' ∧ tm.matchEnd = q + 1) ∨
    (tm.matchEnd = 0 ∧ ∀ r' q, ReflTransGen (NextAttempt icase ml s exe) r r' →
      ¬ Matched icase ml s exe r' q)

/-- Of the matches of an attempt, a search keeps the longest one, or with
`RXVM_NONGREEDY` the shortest one. -/
def Keeps (nongreedy : Bool) (q q' : Nat) : Prop := if nongreedy then q ≤ q' else q' ≤ q

/-- How a search ends, greedy or not. -/
def SearchEnd (nongreedy : Bool) (r : Nat) (tm : Threads) : Prop :=
  (∃ r' q, ReflTransGen (NextAttempt icase ml s exe) r r' ∧ Matched icase ml s exe r' q ∧
      (∀ q', Matched icase ml s exe r' q' → Keeps nongreedy q q') ∧
      tm.matchStart = r' ∧ tm.matchEnd = q + 1) ∨
    (tm.matchEnd = 0 ∧ ∀ r' q, ReflTransGen (NextAttempt icase ml s exe) r r' →
      ¬ Matched icase ml s exe r' q)

end

section

variable {icase ml : Bool} {s : List CChar} {exe : List Inst} {r p : Nat} {ng : Bool}

theorem Matched.ge (h : Matched icase ml s exe r p) : r ≤ p := by
  obtain ⟨_, _, hreach⟩ := h
  exact NfaPath.pos_le hreach

theorem Matched.le_length (hr : r ≤ s.length) (h : Matched icase ml s exe r p) :
    p ≤ s.length := by
  obtain ⟨_, _, hreach⟩ := h
  exact NfaPath.pos_le_length hreach hr

/-- An attempt that has ended behind `q` is at no later position. -/
theorem le_of_alive {q q' v : Nat} (hr : r ≤ q + 1)
    (hdead : ∀ v, ¬ Reach icase ml s exe r (q + 1) v) (h : Reach icase ml s exe r q' v) :
    q' ≤ q := by
  by_contra hlt
  exact reach_dead hr hdead q' v (by omega) h

theorem NextAttempt.unique {a b : Nat} (ha : NextAttempt icase ml s exe r a)
    (hb : NextAttempt icase ml s exe r b) : a = b := by
  obtain ⟨_, q, hrq, _, ⟨v, hv⟩, hdead, rfl⟩ := ha
  obtain ⟨_, q', hrq', _, ⟨v', hv'⟩, hdead', rfl⟩ := hb
  have h1 := le_of_alive (by omega) hdead hv'
  have h2 := le_of_alive (by omega) hdead' hv
  have : q = q' := by omega
  rw [this]

theorem NextAttempt.lt {a : Nat} (h : NextAttempt icase ml s exe r a) : r < a := by
  obtain ⟨_, _, _, _, _, _, rfl⟩ := h
  omega

theorem NextAttempt.le_length {a : Nat} (h : NextAttempt icase ml s exe r a) : a ≤ s.length := by
  obtain ⟨_, _, _, _, _, _, rfl⟩ := h
  omega

theorem Attempted.le_length {i : Nat} (h : Attempted icase ml s exe i) : i ≤ s.length := by
  cases h with
  | refl => omega
  | tail _ hstep => exact hstep.le_length

/-- There is one attempt with a match at most, and no attempt follows it. -/
theorem attempted_matched_unique {a b qa qb : Nat}
    (ha : ReflTransGen (NextAttempt icase ml s exe) r a) (hma : Matched icase ml s exe a qa)
    (hb : ReflTransGen (NextAttempt icase ml s exe) r b) (hmb : Matched icase ml s exe b qb) :
    a = b := by
  induction ha using ReflTransGen.head_induction_on with
  | refl =>
      cases hb using ReflTransGen.head_induction_on with
      | refl => rfl
      | head hstep _ => exact absurd hma (hstep.1 qa)
  | head hstep _ ih =>
      cases hb using ReflTransGen.head_induction_on with
      | refl => exact absurd hmb (hstep.1 qb)
      | head hstep' hb' =>
          obtain rfl := hstep.unique hstep'
          exact ih hb'

theorem EndBefore.zero : EndBefore icase ml s exe r r 0 := by
  refine Or.inl ⟨rfl, ?_⟩
  intro q hq hm
  have := hm.ge
  omega

theorem EndBefore.ne_zero {m : Nat} (h : EndBefore icase ml s exe r p m) (hm : m ≠ 0) :
    ∃ q < p, Matched icase ml s exe r q ∧ m = q + 1 ∧
      ∀ q', q < q' → q' < p → ¬ Matched icase ml s exe r q' := by
  rcases h with ⟨rfl, _⟩ | h
  · exact absurd rfl hm
  · exact h

theorem EndBefore.eq_zero {m : Nat} (h : EndBefore icase ml s exe r p m) (hm : m = 0) :
    ∀ q < p, ¬ Matched icase ml s exe r q := by
  rcases h with ⟨_, h⟩ | ⟨q, _, _, hq, _⟩
  · exact h
  · omega

/-- The thread loop at position `p` carries the recorded end over it. -/
theorem Scanned.endBefore {tm tm' : Threads} (h : Scanned icase ml s exe r p tm tm')
    (hend : EndBefore icase ml s exe r p tm.matchEnd) :
    EndBefore icase ml s exe r (p + 1) tm'.matchEnd := by
  by_cases hm : Matched icase ml s exe r p
  · rw [h.matched hm]
    refine Or.inr ⟨p, by omega, hm, rfl, ?_⟩
    intro q' h1 h2
    omega
  · rw [h.unmatched hm]
    rcases hend with ⟨h0, hall⟩ | ⟨q, hq, hmq, hmend, hall⟩
    · refine Or.inl ⟨h0, ?_⟩
      intro q hq
      rcases Nat.lt_or_ge q p with hlt | hge
      · exact hall q hlt
      · obtain rfl : q = p := by omega
        exact hm
    · refine Or.inr ⟨q, by omega, hmq, hmend, ?_⟩
      intro q' h1 h2
      rcases Nat.lt_or_ge q' p with hlt | hge
      · exact hall q' h1 hlt
      · obtain rfl : q' = p := by omega
        exact hm

/-- A search whose attempt records an end stops with that attempt's last
match, once no later match can come. -/
theorem SearchEnd.found {tm : Threads} {m : Nat} (hng : ng = false)
    (hend : EndBefore icase ml s exe r p m)
    (hm : m ≠ 0) (hlate : ∀ q, p ≤ q → ¬ Matched icase ml s exe r q)
    (hstart : tm.matchStart = r) (hme : tm.matchEnd = m) :
    SearchEnd icase ml s exe ng r tm := by
  obtain ⟨q, hq, hmq, rfl, hall⟩ := hend.ne_zero hm
  refine Or.inl ⟨r, q, .refl, hmq, ?_, hstart, hme⟩
  intro q' hq'
  rw [Keeps, hng]
  show q' ≤ q
  by_contra hlt
  rcases Nat.lt_or_ge q' p with h | h
  · exact hall q' (by omega) h hq'
  · exact hlate q' h hq'

/-- A search that stops at the first match of an attempt. -/
theorem SearchEnd.first {tm : Threads} (hng : ng = true) (hend : EndBefore icase ml s exe r p 0)
    (hm : Matched icase ml s exe r p) (hstart : tm.matchStart = r) (hme : tm.matchEnd = p + 1) :
    SearchEnd icase ml s exe ng r tm := by
  refine Or.inl ⟨r, p, .refl, hm, ?_, hstart, hme⟩
  intro q hq
  rw [Keeps, hng]
  show p ≤ q
  by_contra hlt
  exact hend.eq_zero rfl q (by omega) hq

/-- A failed attempt hands its outcome to the next one. -/
theorem SearchEnd.head {a : Nat} {tm : Threads} (hstep : NextAttempt icase ml s exe r a)
    (h : SearchEnd icase ml s exe ng a tm) : SearchEnd icase ml s exe ng r tm := by
  rcases h with ⟨r', q, hpath, hrest⟩ | ⟨h0, hall⟩
  · exact Or.inl ⟨r', q, .head hstep hpath, hrest⟩
  · refine Or.inr ⟨h0, ?_⟩
    intro r' q hpath hm
    cases hpath using ReflTransGen.head_induction_on with
    | refl => exact hstep.1 q hm
    | head hstep' hpath' =>
        obtain rfl := hstep.unique hstep'
        exact hall r' q hpath' hm

/-- A greedy search keeps the longest match. -/
theorem searchEnd_false {tm : Threads} :
    SearchEnd icase ml s exe false r tm ↔ SearchOutcome icase ml s exe r tm := Iff.rfl

/-- The attempt at `r` is over at position `p`: it had no match, and the next
attempt starts at `p` or behind it. -/
theorem nextAttempt_of_dead (hp : p < s.length) (hr : r ≤ p)
    (halive : ∃ v, Reach icase ml s exe r p v)
    (hdead : ∀ v, ¬ Reach icase ml s exe r (p + 1) v)
    (hnone : ∀ q < p + 1, ¬ Matched icase ml s exe r q) :
    NextAttempt icase ml s exe r (max (r + 1) p) := by
  refine ⟨?_, p, hr, hp, halive, hdead, rfl⟩
  intro q hq
  obtain ⟨v, _, hv⟩ := id hq
  have := le_of_alive (by omega) hdead hv
  exact hnone q (by omega) hq

/-- The search from position `p` of the attempt started at `r`. The measure
counts two for each position left, and one while the attempt can still be
restarted at the same position. -/
theorem search_run (hwf : WellFormed exe) (hs : NoNul s) :
    ∀ (k p r fuel : Nat) (st : VmState Nat), ahead s r p = k → Lasts s r p fuel →
      AtPos icase ml s exe r p st → st.tm.search = true → st.tm.nongreedy = ng →
      EndBefore icase ml s exe r p st.tm.matchEnd → (ng = true → st.tm.matchEnd = 0) →
      (∃ v, Reach icase ml s exe r p v) →
      ∃ res, vmLoop (getcharStr s) exe fuel .skipReadchar st = some res ∧
        SearchEnd icase ml s exe ng r res.2.tm := by
  intro k
  induction k using Nat.strong_induction_on with
  | _ k ih =>
  intro p r fuel st hk hlasts hat hsearch hng hend hzero halive
  have hle := hat.le_length
  have hrp := hat.le
  -- a non-greedy search has recorded no match before it returns
  have hunmatched : ∀ {tm' : Threads}, Scanned icase ml s exe r p st.tm tm' →
      (st.tm.nongreedy = true → ¬ Matched icase ml s exe r p) → ng = true → tm'.matchEnd = 0 := by
    intro tm' hscan hquiet h
    rw [hscan.unmatched (hquiet (hng.trans h))]
    exact hzero h
  have hgreedy : ∀ {tm' : Threads}, Scanned icase ml s exe r p st.tm tm' →
      (st.tm.nongreedy = true → ¬ Matched icase ml s exe r p) → tm'.matchEnd ≠ 0 → ng = false := by
    intro tm' hscan hquiet hm
    by_contra h
    exact hm (hunmatched hscan hquiet (by simpa using h))
  have hstart : ∀ {tm' : Threads}, Scanned icase ml s exe r p st.tm tm' → tm'.matchStart = r := by
    intro tm' hscan
    rw [hscan.frame]
    exact hat.matchStart
  cases hat.looked hwf hs hlasts with
  | returned tm' hrun hstop hm hstart' hme =>
      -- a non-greedy search returns at its first match
      have hng' : ng = true := hng.symm.trans hstop
      rw [hzero hng'] at hend
      exact ⟨_, hrun, SearchEnd.first hng' hend hm hstart' hme⟩
  | ended tm' hscan hquiet hrun hp =>
      -- the end of the input: this attempt is the last one
      refine ⟨_, hrun, ?_⟩
      have hend' := hscan.endBefore hend
      have hlate : ∀ q, p + 1 ≤ q → ¬ Matched icase ml s exe r q := by
        intro q hq hm
        have := hm.le_length (by omega)
        omega
      by_cases hm : tm'.matchEnd = 0
      · refine Or.inr ⟨hm, ?_⟩
        intro r' q hpath hmq
        cases hpath using ReflTransGen.head_induction_on with
        | refl =>
            rcases Nat.lt_or_ge q (p + 1) with h | h
            · exact hend'.eq_zero hm q h hmq
            · exact hlate q h hmq
        | head hstep _ =>
            obtain ⟨_, q', hrq', hq', _, hdead, _⟩ := hstep
            obtain ⟨v, hv⟩ := halive
            have := le_of_alive (by omega) hdead hv
            omega
      · exact SearchEnd.found (hgreedy hscan hquiet hm) hend' hm hlate (hstart hscan) rfl
  | dead tm' hscan hquiet hrun hp hdead hstop =>
      -- the attempt is over, and has matched
      have hm : tm'.matchEnd ≠ 0 := by
        rcases hstop with hstop | hstop
        · rw [hsearch] at hstop
          cases hstop
        · exact hstop
      refine ⟨_, hrun, ?_⟩
      refine SearchEnd.found (hgreedy hscan hquiet hm) (hscan.endBefore hend) hm ?_ (hstart hscan) rfl
      intro q hq hmq
      obtain ⟨v, _, hv⟩ := hmq
      have := le_of_alive (by omega) hdead hv
      omega
  | again tm' hscan hquiet st' fuel' hrun hp hdead hsearch' hm hless hlasts' hat' hkept =>
      -- the attempt has failed
      have hstep := nextAttempt_of_dead hp hrp halive hdead ((hscan.endBefore hend).eq_zero hm)
      rcases ih _ (hk ▸ hless) _ _ fuel' st' rfl hlasts' hat' (hkept.search.trans hsearch)
        (hkept.nongreedy.trans hng) (by rw [hkept.matchEnd]; exact EndBefore.zero)
        (fun _ => hkept.matchEnd) ⟨0, .refl⟩ with ⟨res, hres, hout⟩
      exact ⟨res, hrun.trans hres, hout.head hstep⟩
  | goesOn tm' hscan hquiet st' fuel' hrun hp halive' hless hlasts' hat' hkept =>
      rcases ih _ (hk ▸ hless) _ _ fuel' st' rfl hlasts' hat' (hkept.search.trans hsearch)
        (hkept.nongreedy.trans hng) (by rw [hkept.matchEnd]; exact hscan.endBefore hend)
        (by rw [hkept.matchEnd]; exact hunmatched hscan hquiet) halive' with ⟨res, hres, hout⟩
      exact ⟨res, hrun.trans hres, hout⟩

/-- The whole search from the start of the input, greedy or not. -/
theorem vmExecute_searchEnd (hwf : WellFormed exe) (hs : NoNul s) (flags : Flags) :
    ∃ res, vmExecute (getcharStr s) exe (stringFuel s) (searchThreads flags) 0 = some res ∧
      SearchEnd flags.icase flags.multiline s exe flags.nongreedy 0 res.2.tm := by
  have hat := AtPos.ofStart (s := s) (r := 0) (c := 0) hwf (Nat.zero_le _)
    (show (searchThreads flags).chars = 0 from rfl) (fun h => absurd rfl h) rfl rfl rfl rfl rfl
    rfl rfl
  obtain ⟨res, hres, hout⟩ := search_run hwf hs _ 0 0 (4 * s.length + 3) _ rfl
    (lasts_self.mpr (by omega)) hat rfl rfl EndBefore.zero (fun _ => rfl) ⟨0, .refl⟩
  refine ⟨res, ?_, hout⟩
  simp only [vmExecute, stringFuel, vmLoop]
  exact hres

/-- The whole greedy search from the start of the input. -/
theorem vmExecute_search (hwf : WellFormed exe) (hs : NoNul s) (flags : Flags)
    (hng : flags.nongreedy = false) :
    ∃ res, vmExecute (getcharStr s) exe (stringFuel s) (searchThreads flags) 0 = some res ∧
      SearchOutcome flags.icase flags.multiline s exe 0 res.2.tm := by
  rcases vmExecute_searchEnd hwf hs flags with ⟨res, hres, hend⟩
  rw [hng] at hend
  exact ⟨res, hres, searchEnd_false.mp hend⟩

end

/-! ## The reported extent -/

/-- The extent of a reported match: the program accepts `s[i..j)` at `i`, and
no match from `i` is longer, or with `RXVM_NONGREEDY` none is shorter. -/
structure Extent (flags : Flags) (s : List CChar) (exe : List Inst) (i j : Nat) : Prop where
  le : i ≤ j
  le_length : j ≤ s.length
  accepts : Accepts false flags.multiline s exe i j
  longest : flags.nongreedy = false →
    ∀ j', Accepts false flags.multiline s exe i j' → j' ≤ j
  shortest : flags.nongreedy = true →
    ∀ j', Accepts false flags.multiline s exe i j' → j ≤ j'

/-- The extent a search ends with. -/
theorem SearchEnd.extent {flags : Flags} {s : List CChar} {exe : List Inst} {tm : Threads}
    (h : SearchEnd false flags.multiline s exe flags.nongreedy 0 tm) (hend : tm.matchEnd ≠ 0) :
    ∃ i j, tm.matchStart = i ∧ tm.matchEnd = j + 1 ∧ Extent flags s exe i j := by
  rcases h with ⟨i, j, hpath, hm, hkeeps, hstart, hme⟩ | ⟨h0, _⟩
  · refine ⟨i, j, hstart, hme, hm.ge, hm.le_length (Attempted.le_length hpath), hm, ?_, ?_⟩
    · intro hng j' hj'
      have hk := hkeeps j' hj'
      rwa [Keeps, hng] at hk
    · intro hng j' hj'
      have hk := hkeeps j' hj'
      rwa [Keeps, hng] at hk
  · exact absurd h0 hend

/-- What `rxvm_search` reports of a program is a match from the reported start,
and the longest or the shortest one. `*end` is the last character, so the match
ends one behind it. -/
theorem rxvmSearch_extent {compiled : Compiled} {s : List CChar} {flags : Flags}
    (hprogram : compiled.simple = none) (hwf : WellFormed compiled.exe) (hs : NoNul s)
    (hicase : flags.icase = false) :
    ∃ result, rxvmSearch compiled s flags = some result ∧
      (result.ret = 1 → ∃ i j : Nat, result.start = some (i : Int) ∧
        result.fin.map (· + 1) = some (j : Int) ∧ Extent flags s compiled.exe i j) := by
  rcases vmExecute_searchEnd hwf hs flags with ⟨res, hres, hout⟩
  refine ⟨searchResult res.2.tm, ?_, ?_⟩
  · unfold rxvmSearch
    simp only [hprogram, hres]
    rfl
  · intro hret
    have hend : res.2.tm.matchEnd ≠ 0 := by
      intro h0
      simp [searchResult, h0] at hret
    rw [hicase] at hout
    rcases hout.extent hend with ⟨i, j, hstart, hme, hextent⟩
    refine ⟨i, j, ?_, ?_, hextent⟩
    · simp [searchResult, hend, hstart]
    · have hfin : (searchResult res.2.tm).fin = some ((res.2.tm.matchEnd : Int) - 2) := by
        simp [searchResult, hend]
      rw [hfin, hme, Option.map_some]
      apply congrArg some
      push_cast
      omega

/-- `a+` in `baa`, non-greedy. -/
theorem rxvmSearch_extent_aplus :
    ∃ result, rxvmSearch { exe := [.opChar 97, .opBranch 0 2, .opMatch], simple := none,
                           lfix := none, lfix0 := 0, lfixn := 0 } [98, 97, 97]
        { nongreedy := true } = some result ∧
      (result.ret = 1 → ∃ i j : Nat, result.start = some (i : Int) ∧
        result.fin.map (· + 1) = some (j : Int) ∧
        Extent { nongreedy := true } [98, 97, 97] [.opChar 97, .opBranch 0 2, .opMatch] i j) :=
  rxvmSearch_extent rfl (by decide) (by decide) rfl

end Rxvm
