import Rxvm.Search
import Rxvm.Threads

/-!
# Rxvm.Scan — one character of the input

`AtPos` relates the state of `vm_execute`, where it has read the character at
position `p` in an attempt started at `r`, to the automaton: the current list
generates what the automaton reaches at `p`. `AtPos.scan_any` says what the thread
loop then computes, `AtPos.swap` that the full swap leads to the next position
and `AtPos.ofStart` that an attempt begins so. `AtPos.looked` is the case
analysis of a turn that the runs of `rxvm_match` and `rxvm_search` go by.
-/

namespace Rxvm

open Relation

/-! ## The ways out of the thread loop -/

section

variable {σ : Type} {getchar : σ → CChar × σ} {exe : List Inst} {st : VmState σ} {tm : Threads}

theorem vmLoop_return (fuel : Nat)
    (hrun : st.tm.runThreads exe st.c (exe.length + 1) 0 = some (tm, true)) :
    vmLoop getchar exe (fuel + 1) .skipReadchar st = some (1, { st with tm := tm }) := by
  simp only [vmLoop, hrun]

theorem vmLoop_end (fuel : Nat)
    (hrun : st.tm.runThreads exe st.c (exe.length + 1) 0 = some (tm, false))
    (hc : st.c = tm.endchar) :
    vmLoop getchar exe (fuel + 1) .skipReadchar st = some (0, { st with tm := tm }) := by
  simp only [vmLoop, hrun, if_pos hc]

theorem vmLoop_dead (fuel : Nat)
    (hrun : st.tm.runThreads exe st.c (exe.length + 1) 0 = some (tm, false))
    (hc : st.c ≠ tm.endchar) (hnp : tm.np = []) (h : tm.search = false ∨ tm.matchEnd ≠ 0) :
    vmLoop getchar exe (fuel + 1) .skipReadchar st = some (1, { st with tm := tm }) := by
  simp only [vmLoop, hrun, if_neg hc, if_pos hnp, if_pos h]

theorem vmLoop_restart (fuel : Nat)
    (hrun : st.tm.runThreads exe st.c (exe.length + 1) 0 = some (tm, false))
    (hc : st.c ≠ tm.endchar) (hnp : tm.np = []) (h : ¬ (tm.search = false ∨ tm.matchEnd ≠ 0))
    (hstart : tm.chars - 1 ≠ tm.matchStart) :
    vmLoop getchar exe (fuel + 1) .skipReadchar st =
      vmLoop getchar exe fuel .skipReadchar { st with
        tm := ({ tm.clearCurr with matchStart := tm.chars - 1 } : Threads).addThreadCurr 0 } := by
  simp only [vmLoop, hrun, if_neg hc, if_pos hnp, if_neg h, if_pos hstart]

theorem vmLoop_next (fuel : Nat)
    (hrun : st.tm.runThreads exe st.c (exe.length + 1) 0 = some (tm, false))
    (hc : st.c ≠ tm.endchar) (hnp : tm.np = []) (h : ¬ (tm.search = false ∨ tm.matchEnd ≠ 0))
    (hstart : tm.chars - 1 = tm.matchStart) :
    vmLoop getchar exe (fuel + 1) .skipReadchar st =
      vmLoop getchar exe fuel .vmStart { st with tm := tm.clearCurr } := by
  simp only [vmLoop, hrun, if_neg hc, if_pos hnp, if_neg h, ne_eq, hstart, not_true_eq_false,
    if_false]

theorem vmLoop_swap (fuel : Nat)
    (hrun : st.tm.runThreads exe st.c (exe.length + 1) 0 = some (tm, false))
    (hc : st.c ≠ tm.endchar) (hnp : tm.np ≠ []) :
    vmLoop getchar exe (fuel + 1) .skipReadchar st =
      vmLoop getchar exe fuel .readChar { st with tm := tm.swap } := by
  simp only [vmLoop, hrun, if_neg hc, if_neg hnp]

end

/-! ## Positions -/

theorem at'_of_lt {s : List CChar} {p : Nat} (h : p < s.length) : at' s p = s[p] := by
  simp [at', h]

theorem at'_eq_zero_iff {s : List CChar} (hs : NoNul s) (p : Nat) :
    at' s p = 0 ↔ s.length ≤ p := by
  constructor
  · intro h
    by_contra hlt
    have hlt : p < s.length := by omega
    rw [at'_of_lt hlt] at h
    exact hs _ (List.getElem_mem hlt) h
  · intro h
    simp [at', List.getD_eq_getElem?_getD, List.getElem?_eq_none h]

/-- A `match` instruction is reached at `p` by the attempt started at `r`. -/
def Matched (icase ml : Bool) (s : List CChar) (exe : List Inst) (r p : Nat) : Prop :=
  ∃ v, exe[v]? = some .opMatch ∧ Reach icase ml s exe r p v

/-- `vm_execute` has read the character at position `p`, in the attempt
started at position `r`. -/
structure AtPos (icase ml : Bool) (s : List CChar) (exe : List Inst) (r p : Nat)
    (st : VmState Nat) : Prop where
  chars : st.tm.chars = p + 1
  data : st.data = p + 1
  c : st.c = at' s p
  last : p ≠ 0 → st.tm.lastinput = at' s (p - 1)
  endchar : st.tm.endchar = 0
  icase_eq : st.tm.icase = icase
  multiline : st.tm.multiline = ml
  matchStart : st.tm.matchStart = r
  le : r ≤ p
  le_length : p ≤ s.length
  ready : Threads.Ready exe st.tm
  front : ∀ v, Reach icase ml s exe r p v ↔
    ∃ u ∈ st.tm.cp, ReflTransGen (Eps icase ml s exe p) u v

/-- What the thread loop leaves at position `p`: the current list is what the
automaton reaches, and the next list what it reaches by a consuming step. -/
structure Scanned (icase ml : Bool) (s : List CChar) (exe : List Inst) (r p : Nat)
    (tm tm' : Threads) : Prop where
  frame : tm' = { tm with cp := tm'.cp, cpLookup := tm'.cpLookup, np := tm'.np,
                          npLookup := tm'.npLookup, matchEnd := tm'.matchEnd }
  curr : Marked tm'.cp tm'.cpLookup
  next : Marked tm'.np tm'.npLookup
  curr_lt : ∀ v ∈ tm'.cp, v < exe.length
  next_lt : ∀ v ∈ tm'.np, v < exe.length
  mem_cp : ∀ v, v ∈ tm'.cp ↔ Reach icase ml s exe r p v
  mem_np : ∀ v, v ∈ tm'.np ↔
    ∃ u, Reach icase ml s exe r p u ∧ v ∈ (fetch exe u).nextSucc icase (at' s p) u
  matched : Matched icase ml s exe r p → tm'.matchEnd = p + 1
  unmatched : ¬ Matched icase ml s exe r p → tm'.matchEnd = tm.matchEnd

section

variable {icase ml : Bool} {s : List CChar} {exe : List Inst} {r p : Nat} {st : VmState Nat}

theorem AtPos.isSol (h : AtPos icase ml s exe r p st) :
    st.tm.isSol = decide (SolAt ml s p) := by
  rw [Bool.eq_iff_iff, decide_eq_true_iff]
  simp only [Threads.isSol, SolAt, h.chars, h.multiline, Bool.or_eq_true, beq_iff_eq,
    Bool.and_eq_true]
  by_cases hp : p = 0
  · simp [hp]
  · rw [h.last hp]
    simp [hp]

theorem AtPos.isEol (hs : NoNul s) (h : AtPos icase ml s exe r p st) :
    st.tm.isEol st.c = decide (EolAt ml s p) := by
  have hle := h.le_length
  have hend : at' s p = 0 ↔ p = s.length := by
    rw [at'_eq_zero_iff hs]
    omega
  rw [Bool.eq_iff_iff, decide_eq_true_iff]
  simp only [Threads.isEol, EolAt, h.c, h.endchar, h.multiline, Bool.or_eq_true, beq_iff_eq,
    Bool.and_eq_true, hend]

/-- The threads added for the current character are the steps of the
automaton that stay at the position. -/
theorem mem_currSucc_iff {u v : Nat} (hu : u < exe.length) :
    v ∈ (fetch exe u).currSucc (decide (SolAt ml s p)) (decide (EolAt ml s p)) u ↔
      Eps icase ml s exe p u v := by
  have hi := Threads.fetch_eq hu
  constructor
  · intro hv
    -- only the jumps and the anchors add a thread at this position
    cases hf : fetch exe u <;> rw [hf] at hi hv <;> simp only [Inst.currSucc] at hv
    case opBranch x y =>
      simp only [List.mem_cons, List.not_mem_nil, or_false] at hv
      rcases hv with rfl | rfl
      · exact .branchX hi
      · exact .branchY hi
    case opJmp x =>
      simp only [List.mem_cons, List.not_mem_nil, or_false] at hv
      subst hv
      exact .jmp hi
    case opSol =>
      by_cases hsol : SolAt ml s p
      · simp only [hsol, decide_true, if_true, List.mem_cons, List.not_mem_nil, or_false] at hv
        subst hv
        exact .sol hi hsol
      · simp [hsol] at hv
    case opEol =>
      by_cases heol : EolAt ml s p
      · simp only [heol, decide_true, if_true, List.mem_cons, List.not_mem_nil, or_false] at hv
        subst hv
        exact .eol hi heol
      · simp [heol] at hv
    all_goals simp at hv
  · intro h
    unfold Eps at h
    generalize ha : (u, p) = a at h
    generalize hb : (v, p) = b at h
    cases h <;> simp only [Prod.mk.injEq] at ha hb <;> obtain ⟨rfl, rfl⟩ := ha
    case eat => omega
    all_goals
      rename_i hi'
      simp_all [Inst.currSucc]

/-- The thread added for the next character is the consuming step. -/
theorem mem_nextSucc_iff {u v : Nat} (hu : u < exe.length) (hp : p < s.length) :
    v ∈ (fetch exe u).nextSucc icase (at' s p) u ↔ Eat icase ml s exe p u v := by
  have hi := Threads.fetch_eq hu
  unfold Inst.nextSucc
  constructor
  · intro hv
    split at hv
    · next he =>
        simp only [List.mem_cons, List.not_mem_nil, or_false] at hv
        subst hv
        exact .eat hi hp he
    · simp at hv
  · intro h
    unfold Eat at h
    generalize ha : (u, p) = a at h
    generalize hb : (v, p + 1) = b at h
    cases h with
    | eat hi' _ he =>
        simp only [Prod.mk.injEq] at ha hb
        obtain ⟨rfl, rfl⟩ := ha
        rw [hi] at hi'
        rw [Option.some.inj hi', if_pos he, hb.1]
        simp
    | _ => simp only [Prod.mk.injEq] at ha hb; omega

theorem matched_iff_fetch (hwf : WellFormed exe) :
    Matched icase ml s exe r p ↔
      ∃ v, Reach icase ml s exe r p v ∧ fetch exe v = .opMatch := by
  constructor
  · rintro ⟨v, hv, hr⟩
    have := Threads.fetch_eq (reach_lt hwf hr)
    exact ⟨v, hr, Option.some.inj (this.symm.trans hv)⟩
  · rintro ⟨v, hr, hv⟩
    exact ⟨v, hv ▸ Threads.fetch_eq (reach_lt hwf hr), hr⟩

/-- The thread loop on one character, once all threads have been run. -/
theorem AtPos.scanned {tm' : Threads} {t' : Nat} (hwf : WellFormed exe) (hs : NoNul s)
    (h : AtPos icase ml s exe r p st) (hinv : Threads.LoopInv exe st.c st.tm t' tm')
    (ht : t' = tm'.cp.length) : Scanned icase ml s exe r p st.tm tm' := by
  have htake : tm'.cp.take t' = tm'.cp := by rw [ht, List.take_length]
  have hclosed := hinv.closed
  have hreached := hinv.reached
  have hnexts := hinv.nexts
  have hmatched := hinv.matched
  rw [htake] at hclosed hnexts hmatched
  rw [h.isSol, h.isEol hs] at hclosed hreached
  -- the listed threads are those reached: the loop has closed the list it was given
  have hcp : ∀ v, v ∈ tm'.cp ↔ Reach icase ml s exe r p v := by
    intro v
    rw [h.front v]
    constructor
    · intro hv
      obtain ⟨u, hu, hpath⟩ := hreached v hv
      refine ⟨u, hu, ?_⟩
      have hu_lt := h.ready.curr_lt u hu
      clear hv
      induction hpath with
      | refl => exact .refl
      | @tail b d hbd hstep ih =>
          -- every index on the way is listed, so it is inside the program
          have hb : b ∈ tm'.cp := by
            clear ih hstep
            induction hbd with
            | refl => exact hinv.start u hu
            | tail _ hstep ih => exact hclosed _ ih _ hstep
          exact ih.tail ((mem_currSucc_iff (hinv.curr_lt b hb)).mp hstep)
    · rintro ⟨u, hu, hpath⟩
      induction hpath with
      | refl => exact hinv.start u hu
      | tail _ hstep ih => exact hclosed _ ih _ ((mem_currSucc_iff (hinv.curr_lt _ ih)).mpr hstep)
  have hmiff : Matched icase ml s exe r p ↔ ∃ u ∈ tm'.cp, fetch exe u = .opMatch := by
    rw [matched_iff_fetch hwf]
    simp only [hcp]
  refine ⟨hinv.frame, hinv.curr, hinv.next, hinv.curr_lt, hinv.next_lt, hcp, ?_, ?_, ?_⟩
  · intro v
    rw [hnexts v, h.ready.np, h.icase_eq, h.c]
    simp only [hcp, List.not_mem_nil, false_or]
  · intro hm
    rw [hmatched, if_pos (hmiff.mp hm), h.chars]
  · intro hm
    rw [hmatched, if_neg (fun hx => hm (hmiff.mpr hx))]

/-- What the loop lists is reached at this position. -/
theorem AtPos.reach_of_listed {tm' : Threads} {t' : Nat} (hwf : WellFormed exe) (hs : NoNul s)
    (h : AtPos icase ml s exe r p st) (hinv : Threads.LoopInv exe st.c st.tm t' tm') {v : Nat}
    (hv : v ∈ tm'.cp) : Reach icase ml s exe r p v := by
  have hreached := hinv.reached
  rw [h.isSol, h.isEol hs] at hreached
  rcases hreached v hv with ⟨u, hu, hpath⟩
  have hall : ReflTransGen (Eps icase ml s exe p) u v ∧ v < exe.length := by
    clear hv
    induction hpath with
    | refl => exact ⟨.refl, h.ready.curr_lt u hu⟩
    | tail _ hstep ih =>
        exact ⟨ih.1.tail ((mem_currSucc_iff ih.2).mp hstep), Threads.currSucc_lt hwf ih.2 hstep⟩
  exact (h.front v).mpr ⟨u, hu, hall.1⟩

/-- The thread loop on one character: it runs all threads, and a non-greedy
run has no match there then; or a non-greedy run returns at a match. -/
theorem AtPos.scan_any (hwf : WellFormed exe) (hs : NoNul s) (h : AtPos icase ml s exe r p st) :
    ∃ tm', (st.tm.runThreads exe st.c (exe.length + 1) 0 = some (tm', false) ∧
        Scanned icase ml s exe r p st.tm tm' ∧
        (st.tm.nongreedy = true → ¬ Matched icase ml s exe r p)) ∨
      (st.tm.runThreads exe st.c (exe.length + 1) 0 = some (tm', true) ∧
        st.tm.nongreedy = true ∧ Matched icase ml s exe r p ∧
        tm'.matchStart = st.tm.matchStart ∧ tm'.matchEnd = p + 1) := by
  rcases Threads.runThreads_inv hwf (c := st.c) (exe.length + 1) 0 st.tm
    (Threads.LoopInv.init h.ready) (by omega) with ⟨tm', t', hinv, ⟨hrun, ht⟩ | ⟨hrun, hng, hmatch⟩⟩
  -- the loop has run all threads, so a nongreedy search has met no match
  · have hscan := h.scanned hwf hs hinv ht
    refine ⟨tm', Or.inl ⟨hrun, hscan, ?_⟩⟩
    rintro hng ⟨v, hv, hreach⟩
    rcases List.getElem?_of_mem ((hscan.mem_cp v).mpr hreach) with ⟨k, hk⟩
    have hquiet := (Threads.runThreads_quiet _ _ _ _ hrun hng).2 k v (Nat.zero_le _) hk
    have hfetch := Threads.fetch_eq (hscan.curr_lt v ((hscan.mem_cp v).mpr hreach))
    exact hquiet (Option.some.inj (hfetch.symm.trans hv))
  -- a nongreedy search has stopped at a match
  · refine ⟨tm', Or.inr ⟨hrun, hng, ?_, ?_, ?_⟩⟩
    · rcases hmatch with ⟨u, hu, hfetch⟩
      have hmem := List.mem_of_mem_take hu
      refine ⟨u, ?_, h.reach_of_listed hwf hs hinv hmem⟩
      rw [← hfetch]
      exact Threads.fetch_eq (hinv.curr_lt u hmem)
    · rw [hinv.frame]
    · rw [hinv.matched, if_pos hmatch, h.chars]

/-- The next list is empty exactly when the attempt ends at this character. -/
theorem Scanned.np_nil_iff {tm tm' : Threads} (hwf : WellFormed exe) (hr : r ≤ p)
    (hp : p < s.length) (h : Scanned icase ml s exe r p tm tm') :
    tm'.np = [] ↔ ∀ v, ¬ Reach icase ml s exe r (p + 1) v := by
  rw [List.eq_nil_iff_forall_not_mem]
  constructor
  · intro hnil v hv
    obtain ⟨u, w, hu, huw, _⟩ := (reach_succ hr).mp hv
    exact hnil w ((h.mem_np w).mpr ⟨u, hu, (mem_nextSucc_iff (reach_lt hwf hu) hp).mpr huw⟩)
  · intro hdead w hw
    obtain ⟨u, hu, huw⟩ := (h.mem_np w).mp hw
    exact hdead w ((reach_succ hr).mpr
      ⟨u, w, hu, (mem_nextSucc_iff (reach_lt hwf hu) hp).mp huw, .refl⟩)

/-- The full swap and the next `getchar` lead to the next position. -/
theorem AtPos.swap {tm' : Threads} (hwf : WellFormed exe) (h : AtPos icase ml s exe r p st)
    (hscan : Scanned icase ml s exe r p st.tm tm') (hp : p < s.length) :
    AtPos icase ml s exe r (p + 1)
      { tm := { tm'.swap with lastinput := st.c, chars := tm'.swap.chars + 1 },
        data := (getcharStr s st.data).2, c := (getcharStr s st.data).1 } := by
  have hframe := hscan.frame
  constructor
  · simp only [Threads.swap]; rw [hframe]; simp only; rw [h.chars]
  · simp [getcharStr, h.data]
  · simp [getcharStr, h.data]
  · intro _; simpa using h.c
  · simp only [Threads.swap]; rw [hframe]; exact h.endchar
  · simp only [Threads.swap]; rw [hframe]; exact h.icase_eq
  · simp only [Threads.swap]; rw [hframe]; exact h.multiline
  · simp only [Threads.swap]; rw [hframe]; exact h.matchStart
  · have := h.le; omega
  · omega
  · exact ⟨hscan.next, hscan.next_lt, rfl, rfl⟩
  · intro v
    -- what was added for the next position is reached by one character more
    rw [reach_succ h.le]
    simp only [Threads.swap]
    constructor
    · rintro ⟨u, w, hu, huw, hwv⟩
      exact ⟨w, (hscan.mem_np w).mpr ⟨u, hu, (mem_nextSucc_iff (reach_lt hwf hu) hp).mpr huw⟩, hwv⟩
    · rintro ⟨w, hw, hwv⟩
      obtain ⟨u, hu, huw⟩ := (hscan.mem_np w).mp hw
      exact ⟨u, w, hu, (mem_nextSucc_iff (reach_lt hwf hu) hp).mp huw, hwv⟩

theorem ready_single (hwf : WellFormed exe) {tm : Threads} (hcp : tm.cp = [])
    (hcl : tm.cpLookup = fun _ => false) (hnp : tm.np = []) (hnl : tm.npLookup = fun _ => false) :
    Threads.Ready exe (tm.addThreadCurr 0) ∧ (tm.addThreadCurr 0).cp = [0] := by
  have hmark : Marked tm.cp tm.cpLookup := by rw [hcp, hcl]; exact Marked.nil
  have hadd : (tm.addThreadCurr 0).cp = [0] := by
    unfold Threads.addThreadCurr
    rw [hcl, hcp]
    simp
  refine ⟨⟨Threads.addThreadCurr_marked hmark 0, ?_, ?_, ?_⟩, hadd⟩
  · intro v hv
    rw [hadd] at hv
    simp only [List.mem_singleton] at hv
    have := hwf.length_pos
    omega
  · unfold Threads.addThreadCurr
    split <;> exact hnp
  · unfold Threads.addThreadCurr
    split <;> exact hnl

/-- An attempt starts with the single thread 0. -/
theorem front_single {tm : Threads} (hcp : tm.cp = [0]) (v : Nat) :
    Reach icase ml s exe r r v ↔ ∃ u ∈ tm.cp, ReflTransGen (Eps icase ml s exe r) u v := by
  rw [reach_start, hcp]
  simp

/-- `vm_start` and the `getchar` behind it begin an attempt at the next
character. -/
theorem AtPos.ofStart (hwf : WellFormed exe) {tm : Threads} {c : CChar} (hr : r ≤ s.length)
    (hchars : tm.chars = r) (hc : r ≠ 0 → c = at' s (r - 1)) (hend : tm.endchar = 0)
    (hicase : tm.icase = icase) (hml : tm.multiline = ml) (hcp : tm.cp = [])
    (hcl : tm.cpLookup = fun _ => false) (hnp : tm.np = [])
    (hnl : tm.npLookup = fun _ => false) :
    AtPos icase ml s exe r r
      { tm := { ({ tm with matchStart := tm.chars } : Threads).addThreadCurr 0 with
                lastinput := c,
                chars := (({ tm with matchStart := tm.chars } : Threads).addThreadCurr 0).chars + 1 },
        data := r + 1, c := at' s r } := by
  set tm₁ : Threads := { tm with matchStart := tm.chars } with htm₁
  obtain ⟨hready, hsingle⟩ := ready_single hwf (show tm₁.cp = [] from hcp) hcl hnp hnl
  have hframe : tm₁.addThreadCurr 0 = { tm₁ with
      cp := (tm₁.addThreadCurr 0).cp, cpLookup := (tm₁.addThreadCurr 0).cpLookup } := by
    unfold Threads.addThreadCurr; split <;> rfl
  constructor
  · simp only; rw [hframe]; simp [htm₁, hchars]
  · rfl
  · rfl
  · exact hc
  · simp only; rw [hframe]; exact hend
  · simp only; rw [hframe]; exact hicase
  · simp only; rw [hframe]; exact hml
  · simp only; rw [hframe]; exact hchars
  · exact Nat.le_refl _
  · exact hr
  · exact ⟨hready.curr, hready.curr_lt, hready.np, hready.npLookup⟩
  · exact front_single hsingle

/-- The shorter version of the swap leaves both tables cleared. -/
theorem Scanned.clear_lookups {tm tm' : Threads} (hscan : Scanned icase ml s exe r p tm tm')
    (hnp : tm'.np = []) :
    (tm'.clearCurr.cpLookup = fun _ => false) ∧ (tm'.clearCurr.npLookup = fun _ => false) := by
  constructor
  · funext v
    simp only [Threads.clearCurr]
    by_cases hv : v ∈ tm'.cp
    · simp [hv]
    · simp only [hv, if_false]
      by_contra hne
      exact hv ((hscan.curr.mark v).mp (by simpa using hne))
  · funext v
    by_contra hne
    have : v ∈ tm'.np := (hscan.next.mark v).mp (by simpa [Threads.clearCurr] using hne)
    simp [hnp] at this

/-- `goto skip_readchar`: a new attempt begins at the character that ended the
one before. -/
theorem AtPos.restart (hwf : WellFormed exe) (h : AtPos icase ml s exe r p st) {tm' : Threads}
    (hscan : Scanned icase ml s exe r p st.tm tm') (hnp : tm'.np = []) :
    AtPos icase ml s exe p p
      { st with tm := ({ tm'.clearCurr with
                         matchStart := tm'.chars - 1 } : Threads).addThreadCurr 0 } := by
  set tm₁ : Threads := { tm'.clearCurr with matchStart := tm'.chars - 1 } with htm₁
  -- both lookup tables are clear again, as no thread was added
  have hframe' := hscan.frame
  obtain ⟨hcl, hnl⟩ := hscan.clear_lookups hnp
  obtain ⟨hready, hsingle⟩ := ready_single hwf (show tm₁.cp = [] from rfl) hcl hnp hnl
  have hframe : tm₁.addThreadCurr 0 = { tm₁ with
      cp := (tm₁.addThreadCurr 0).cp, cpLookup := (tm₁.addThreadCurr 0).cpLookup } := by
    unfold Threads.addThreadCurr; split <;> rfl
  have hchars : tm'.chars = p + 1 := by rw [hframe']; exact h.chars
  constructor
  · simp only; rw [hframe]; exact hchars
  · exact h.data
  · exact h.c
  · intro hp
    simp only; rw [hframe]
    simp only [htm₁, Threads.clearCurr]; rw [hframe']
    exact h.last hp
  · simp only; rw [hframe]; simp only [htm₁, Threads.clearCurr]; rw [hframe']; exact h.endchar
  · simp only; rw [hframe]; simp only [htm₁, Threads.clearCurr]; rw [hframe']; exact h.icase_eq
  · simp only; rw [hframe]; simp only [htm₁, Threads.clearCurr]; rw [hframe']; exact h.multiline
  · simp only; rw [hframe]; simp only [htm₁]; omega
  · exact Nat.le_refl _
  · exact h.le_length
  · exact ⟨hready.curr, hready.curr_lt, hready.np, hready.npLookup⟩
  · exact front_single hsingle

end

/-! ## A turn of the loop -/

/-- What a run has still to do that is at position `p` of the attempt started
at `r`: two for each position left, and one while the attempt can be restarted
at the same position. -/
def ahead (s : List CChar) (r p : Nat) : Nat := 2 * (s.length - p) + (if r < p then 1 else 0)

/-- The fuel lasts to the end of the input. -/
def Lasts (s : List CChar) (r p fuel : Nat) : Prop :=
  4 * (s.length - p) + (if r < p then 1 else 0) + 1 ≤ fuel

theorem ahead_self (s : List CChar) (r : Nat) : ahead s r r = 2 * (s.length - r) := by
  simp [ahead]

theorem lasts_self {s : List CChar} {r fuel : Nat} :
    Lasts s r r fuel ↔ 4 * (s.length - r) + 1 ≤ fuel := by
  simp [Lasts]

/-- A turn leaves the modes as they are, and `m` in `match_end`. -/
structure KeepsModes (tm tm' : Threads) (m : Nat) : Prop where
  search : tm'.search = tm.search
  nongreedy : tm'.nongreedy = tm.nongreedy
  matchEnd : tm'.matchEnd = m

/-- How the machine goes on when it has looked at the character at position `p`
of the attempt started at `r`. -/
inductive Looked (icase ml : Bool) (s : List CChar) (exe : List Inst) (r p : Nat) (st : VmState Nat)
    (fuel : Nat) : Prop
  | returned (tm' : Threads)
      (hrun : vmLoop (getcharStr s) exe fuel .skipReadchar st = some (1, { st with tm := tm' }))
      (hng : st.tm.nongreedy = true) (hmatched : Matched icase ml s exe r p)
      (hstart : tm'.matchStart = r) (hend : tm'.matchEnd = p + 1)
  | ended (tm' : Threads) (hscan : Scanned icase ml s exe r p st.tm tm')
      (hquiet : st.tm.nongreedy = true → ¬ Matched icase ml s exe r p)
      (hrun : vmLoop (getcharStr s) exe fuel .skipReadchar st = some (0, { st with tm := tm' }))
      (hp : p = s.length)
  | dead (tm' : Threads) (hscan : Scanned icase ml s exe r p st.tm tm')
      (hquiet : st.tm.nongreedy = true → ¬ Matched icase ml s exe r p)
      (hrun : vmLoop (getcharStr s) exe fuel .skipReadchar st = some (1, { st with tm := tm' }))
      (hp : p < s.length) (hdead : ∀ v, ¬ Reach icase ml s exe r (p + 1) v)
      (hstop : st.tm.search = false ∨ tm'.matchEnd ≠ 0)
  | again (tm' : Threads) (hscan : Scanned icase ml s exe r p st.tm tm')
      (hquiet : st.tm.nongreedy = true → ¬ Matched icase ml s exe r p) (st' : VmState Nat)
      (fuel' : Nat)
      (hrun : vmLoop (getcharStr s) exe fuel .skipReadchar st =
        vmLoop (getcharStr s) exe fuel' .skipReadchar st')
      (hp : p < s.length) (hdead : ∀ v, ¬ Reach icase ml s exe r (p + 1) v)
      (hsearch : st.tm.search = true) (hzero : tm'.matchEnd = 0)
      (hless : ahead s (max (r + 1) p) (max (r + 1) p) < ahead s r p)
      (hlasts : Lasts s (max (r + 1) p) (max (r + 1) p) fuel')
      (hat : AtPos icase ml s exe (max (r + 1) p) (max (r + 1) p) st')
      (hkept : KeepsModes st.tm st'.tm 0)
  | goesOn (tm' : Threads) (hscan : Scanned icase ml s exe r p st.tm tm')
      (hquiet : st.tm.nongreedy = true → ¬ Matched icase ml s exe r p) (st' : VmState Nat)
      (fuel' : Nat)
      (hrun : vmLoop (getcharStr s) exe fuel .skipReadchar st =
        vmLoop (getcharStr s) exe fuel' .skipReadchar st')
      (hp : p < s.length) (halive : ∃ v, Reach icase ml s exe r (p + 1) v)
      (hless : ahead s r (p + 1) < ahead s r p) (hlasts : Lasts s r (p + 1) fuel')
      (hat : AtPos icase ml s exe r (p + 1) st') (hkept : KeepsModes st.tm st'.tm tm'.matchEnd)

section

variable {icase ml : Bool} {s : List CChar} {exe : List Inst} {r p fuel : Nat} {st : VmState Nat}

/-- A dead attempt of a search is followed by one at the character that ended
it, or behind it when nothing has been consumed. -/
theorem AtPos.looked_again (hwf : WellFormed exe) (h : AtPos icase ml s exe r p st)
    (hlasts : Lasts s r p (fuel + 1)) {tm' : Threads}
    (hrun : st.tm.runThreads exe st.c (exe.length + 1) 0 = some (tm', false))
    (hscan : Scanned icase ml s exe r p st.tm tm')
    (hquiet : st.tm.nongreedy = true → ¬ Matched icase ml s exe r p) (hp : p < s.length)
    (hc : st.c ≠ tm'.endchar) (hnp : tm'.np = [])
    (hdead : ∀ v, ¬ Reach icase ml s exe r (p + 1) v)
    (hgo : ¬ (tm'.search = false ∨ tm'.matchEnd ≠ 0)) :
    Looked icase ml s exe r p st (fuel + 1) := by
  have hframe := hscan.frame
  have hle := h.le
  have hchars : tm'.chars = p + 1 := by rw [hframe]; exact h.chars
  have hstart : tm'.matchStart = r := by rw [hframe]; exact h.matchStart
  have hsearch : st.tm.search = tm'.search := by rw [hframe]
  have hng : st.tm.nongreedy = tm'.nongreedy := by rw [hframe]
  have hgo' : tm'.search = true ∧ tm'.matchEnd = 0 := by simpa using hgo
  unfold Lasts at hlasts
  by_cases hrp : r < p
  -- the attempt has read a character: the next one starts where it failed
  · have hmax : max (r + 1) p = p := by omega
    rw [if_pos hrp] at hlasts
    refine .again tm' hscan hquiet _ fuel
      (vmLoop_restart fuel hrun hc hnp hgo (by omega)) hp hdead (hsearch.trans hgo'.1) hgo'.2 ?_ ?_
      ?_ ⟨?_, ?_, ?_⟩
    · rw [hmax, ahead_self, ahead, if_pos hrp]
      omega
    · rw [hmax, lasts_self]
      omega
    · rw [hmax]
      exact h.restart hwf hscan hnp
    · rw [hsearch]
      simp [Threads.clearCurr]
    · rw [hng]
      simp [Threads.clearCurr]
    · simp [Threads.clearCurr, hgo'.2]
  -- it has read none: the next one starts one further on
  · obtain rfl : r = p := by omega
    obtain ⟨fuel, rfl⟩ : ∃ f, fuel = f + 2 := ⟨fuel - 2, by omega⟩
    have hmax : max (r + 1) r = r + 1 := by omega
    obtain ⟨hcl, hnl⟩ := hscan.clear_lookups hnp
    have hendchar : tm'.endchar = 0 := by rw [hframe]; exact h.endchar
    have hicase : tm'.icase = icase := by rw [hframe]; exact h.icase_eq
    have hml : tm'.multiline = ml := by rw [hframe]; exact h.multiline
    have hat := AtPos.ofStart (s := s) (c := st.c) hwf (r := r + 1) (by omega)
      (show tm'.clearCurr.chars = r + 1 from hchars) (fun _ => h.c) hendchar hicase hml rfl hcl hnp
      hnl
    refine .again tm' hscan hquiet _ fuel ?_ hp hdead (hsearch.trans hgo'.1) hgo'.2 ?_ ?_
      (by rw [hmax]; exact hat) ⟨?_, ?_, ?_⟩
    · rw [vmLoop_next (fuel + 2) hrun hc hnp hgo (by omega)]
      simp only [vmLoop, getcharStr, h.data]
    · rw [hmax, ahead_self, ahead_self]
      omega
    · rw [hmax, lasts_self]
      simp only [Nat.lt_irrefl, if_false] at hlasts
      omega
    · rw [hsearch]
      simp [Threads.clearCurr]
    · rw [hng]
      simp [Threads.clearCurr]
    · simp [Threads.clearCurr, hgo'.2]

/-- Every turn of the loop is one of these. -/
theorem AtPos.looked (hwf : WellFormed exe) (hs : NoNul s) (h : AtPos icase ml s exe r p st)
    (hlasts : Lasts s r p fuel) : Looked icase ml s exe r p st fuel := by
  have hle := h.le
  have hlen := h.le_length
  obtain ⟨fuel, rfl⟩ : ∃ f, fuel = f + 1 := ⟨fuel - 1, by unfold Lasts at hlasts; omega⟩
  obtain ⟨tm', ⟨hrun, hscan, hquiet⟩ | ⟨hrun, hng, hm, hstart, hend⟩⟩ := h.scan_any hwf hs
  swap
  -- a nongreedy search ends inside the loop over the threads
  · exact .returned tm' (vmLoop_return fuel hrun) hng hm (hstart.trans h.matchStart) hend
  have hframe := hscan.frame
  have hendchar : tm'.endchar = 0 := by rw [hframe]; exact h.endchar
  have hc : st.c = tm'.endchar ↔ p = s.length := by
    rw [h.c, hendchar, at'_eq_zero_iff hs]
    omega
  by_cases hp : p = s.length
  · exact .ended tm' hscan hquiet (vmLoop_end fuel hrun (hc.mpr hp)) hp
  have hp' : p < s.length := by omega
  have hc' : st.c ≠ tm'.endchar := fun e => hp (hc.mp e)
  by_cases hnp : tm'.np = []
  · have hdead := (hscan.np_nil_iff hwf hle hp').mp hnp
    by_cases hgo : tm'.search = false ∨ tm'.matchEnd ≠ 0
    · have hsearch : st.tm.search = tm'.search := by rw [hframe]
      exact .dead tm' hscan hquiet (vmLoop_dead fuel hrun hc' hnp hgo) hp' hdead (hsearch ▸ hgo)
    · exact h.looked_again hwf hlasts hrun hscan hquiet hp' hc' hnp hdead hgo
  · obtain ⟨fuel, rfl⟩ : ∃ f, fuel = f + 1 := ⟨fuel - 1, by unfold Lasts at hlasts; omega⟩
    -- some thread is alive: swap, and read the next character
    have halive : ∃ v, Reach icase ml s exe r (p + 1) v := by
      by_contra hdead
      exact hnp ((hscan.np_nil_iff hwf hle hp').mpr fun v hv => hdead ⟨v, hv⟩)
    refine .goesOn tm' hscan hquiet _ fuel ?_ hp' halive ?_ ?_ (h.swap hwf hscan hp') ⟨?_, ?_, rfl⟩
    · rw [vmLoop_swap (fuel + 1) hrun hc' hnp]
      simp only [vmLoop]
    · unfold ahead
      rw [if_pos (Nat.lt_succ_of_le hle)]
      omega
    · unfold Lasts at hlasts ⊢
      rw [if_pos (Nat.lt_succ_of_le hle)]
      omega
    · show tm'.search = st.tm.search
      rw [hframe]
    · show tm'.nongreedy = st.tm.nongreedy
      rw [hframe]

end

end Rxvm
