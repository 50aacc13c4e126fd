import Mathlib.Data.List.Nodup
import Mathlib.Data.Fintype.Card
import Rxvm.Nfa

/-!
# Rxvm.Threads — what the thread loop of vm_execute computes

The `for` loop over the threads of the current character appends to the list
it walks over. `LoopInv` is its invariant: the threads before index `t` have
been run, their successors are listed, and nothing is listed that is not
reached. When the loop ends, the current list is closed under the steps that
read no character (`runThreads_spec`).
-/

namespace Rxvm

open Relation

/-! ## Lists with a lookup table -/

/-- The lookup table marks exactly the entries of a list without repetitions. -/
structure Marked (list : List Nat) (lookup : Nat → Bool) : Prop where
  nodup : list.Nodup
  mark : ∀ v, lookup v = true ↔ v ∈ list

theorem Marked.nil : Marked [] (fun _ => false) := ⟨List.nodup_nil, by simp⟩

theorem Marked.concat {list : List Nat} {lookup : Nat → Bool} (h : Marked list lookup)
    {v : Nat} (hv : lookup v = false) :
    Marked (list ++ [v]) (Function.update lookup v true) := by
  have hmem : v ∉ list := fun hm => by simp [(h.mark v).mpr hm] at hv
  constructor
  · simpa using List.nodup_append.mpr ⟨h.nodup, by simp, by
      intro a ha b hb hab
      simp only [List.mem_singleton] at hb
      exact hmem (hb ▸ hab ▸ ha)⟩
  · intro w
    by_cases hw : w = v
    · simp [hw]
    · simp [h.mark w, hw]

/-- A list without repetitions of indices below `n` has at most `n` entries. -/
theorem Marked.length_le {list : List Nat} {lookup : Nat → Bool} (h : Marked list lookup)
    {n : Nat} (hlt : ∀ v ∈ list, v < n) : list.length ≤ n := by
  have hsub : list ⊆ List.range n := fun v hv => List.mem_range.mpr (hlt v hv)
  have := (List.subperm_of_subset h.nodup hsub).length_le
  simpa using this

/-! ## One thread -/

/-- The threads an instruction adds for the current character. -/
def Inst.currSucc (sol eol : Bool) (ii : Nat) : Inst → List Nat
  | .opSol => if sol then [ii + 1] else []
  | .opEol => if eol then [ii + 1] else []
  | .opBranch x y => [x.toNat, y.toNat]
  | .opJmp x => [x.toNat]
  | _ => []

/-- The threads an instruction adds for the next character. -/
def Inst.nextSucc (icase : Bool) (c : CChar) (ii : Nat) (i : Inst) : List Nat :=
  if i.eats icase c then [ii + 1] else []

namespace Threads

/-- Adding several threads in turn. -/
def addCurrs (tm : Threads) (vs : List Nat) : Threads := vs.foldl addThreadCurr tm

def addNexts (tm : Threads) (vs : List Nat) : Threads := vs.foldl addThreadNext tm

theorem eq_set_matchEnd {tm : Threads} {m : Nat} (h : tm.matchEnd = m) :
    tm = { tm with matchEnd := m } := by
  subst h; rfl

@[simp] theorem addThreadCurr_matchEnd (tm : Threads) (v : Nat) :
    (tm.addThreadCurr v).matchEnd = tm.matchEnd := by
  unfold addThreadCurr; split <;> rfl

@[simp] theorem addThreadNext_matchEnd (tm : Threads) (v : Nat) :
    (tm.addThreadNext v).matchEnd = tm.matchEnd := by
  unfold addThreadNext; split <;> rfl

/-- What the switch does, as the three things it can do. -/
theorem runInst_eq (tm : Threads) (c : CChar) (ii : Nat) (i : Inst) :
    tm.runInst c ii i =
      ({ (tm.addCurrs (i.currSucc tm.isSol (tm.isEol c) ii)).addNexts
            (i.nextSucc tm.icase c ii) with
          matchEnd := if i = .opMatch then tm.chars else tm.matchEnd },
        i = .opMatch && tm.nongreedy) := by
  cases i <;>
    simp only [runInst, Inst.currSucc, Inst.nextSucc, Inst.eats, addCurrs, addNexts,
      List.foldl_nil, List.foldl_cons, reduceCtorEq, decide_false, Bool.false_and, if_false,
      Prod.mk.injEq, and_true, decide_true, Bool.true_and, if_true]
  case opBranch x y => exact eq_set_matchEnd (by simp)
  case opJmp x => exact eq_set_matchEnd (by simp)
  all_goals
    split
    all_goals simp_all
    all_goals try exact eq_set_matchEnd (by simp)

/-! ## What adding threads changes -/

@[simp] theorem addThreadCurr_search (tm : Threads) (v : Nat) :
    (tm.addThreadCurr v).search = tm.search := by
  unfold addThreadCurr; split <;> rfl

@[simp] theorem addThreadCurr_nongreedy (tm : Threads) (v : Nat) :
    (tm.addThreadCurr v).nongreedy = tm.nongreedy := by
  unfold addThreadCurr; split <;> rfl

theorem addThreadCurr_marked {tm : Threads} (h : Marked tm.cp tm.cpLookup) (v : Nat) :
    Marked (tm.addThreadCurr v).cp (tm.addThreadCurr v).cpLookup := by
  unfold addThreadCurr
  split
  · exact h
  · next hv => exact h.concat (by simpa using hv)

theorem mem_addThreadCurr {tm : Threads} (h : Marked tm.cp tm.cpLookup) (v w : Nat) :
    w ∈ (tm.addThreadCurr v).cp ↔ w ∈ tm.cp ∨ w = v := by
  unfold addThreadCurr
  split
  · next hv =>
      have := (h.mark v).mp hv
      constructor
      · exact Or.inl
      · rintro (hw | rfl)
        · exact hw
        · exact this
  · simp

/-- `tm'` differs from `tm` in the current list only, which has been extended
by `vs`. -/
structure CurrExt (tm tm' : Threads) (vs : List Nat) : Prop where
  eq : tm' = { tm with cp := tm'.cp, cpLookup := tm'.cpLookup }
  marked : Marked tm'.cp tm'.cpLookup
  tail : ∃ ws, tm'.cp = tm.cp ++ ws
  mem : ∀ w, w ∈ tm'.cp ↔ w ∈ tm.cp ∨ w ∈ vs

theorem addCurrs_ext {tm : Threads} (h : Marked tm.cp tm.cpLookup) (vs : List Nat) :
    CurrExt tm (tm.addCurrs vs) vs := by
  induction vs generalizing tm with
  | nil => exact ⟨rfl, h, ⟨[], by simp [addCurrs]⟩, by simp [addCurrs]⟩
  | cons v vs ih =>
      have ih := ih (addThreadCurr_marked h v)
      have heq : tm.addThreadCurr v =
          { tm with cp := (tm.addThreadCurr v).cp, cpLookup := (tm.addThreadCurr v).cpLookup } := by
        unfold addThreadCurr; split <;> rfl
      have htail : ∃ ws, (tm.addThreadCurr v).cp = tm.cp ++ ws := by
        unfold addThreadCurr
        split
        · exact ⟨[], by simp⟩
        · exact ⟨[v], rfl⟩
      have hcons : tm.addCurrs (v :: vs) = (tm.addThreadCurr v).addCurrs vs := rfl
      rw [hcons]
      refine ⟨?_, ih.marked, ?_, ?_⟩
      · rw [ih.eq, heq]
      · obtain ⟨ws, hws⟩ := ih.tail
        obtain ⟨us, hus⟩ := htail
        exact ⟨us ++ ws, by rw [hws, hus, List.append_assoc]⟩
      · intro w
        rw [ih.mem w, mem_addThreadCurr h, List.mem_cons, or_assoc]

/-- As `CurrExt`, for the next list. -/
structure NextExt (tm tm' : Threads) (vs : List Nat) : Prop where
  eq : tm' = { tm with np := tm'.np, npLookup := tm'.npLookup }
  marked : Marked tm'.np tm'.npLookup
  mem : ∀ w, w ∈ tm'.np ↔ w ∈ tm.np ∨ w ∈ vs

theorem addNexts_ext {tm : Threads} (h : Marked tm.np tm.npLookup) (icase : Bool) (c : CChar)
    (ii : Nat) (i : Inst) :
    NextExt tm (tm.addNexts (i.nextSucc icase c ii)) (i.nextSucc icase c ii) := by
  unfold Inst.nextSucc
  split
  · simp only [addNexts, List.foldl_cons, List.foldl_nil, addThreadNext]
    split
    · next hv =>
        have := (h.mark _).mp hv
        exact ⟨rfl, h, by simp_all⟩
    · next hv => exact ⟨rfl, h.concat (by simpa using hv), by simp⟩
  · exact ⟨rfl, h, by simp [addNexts]⟩

/-! ## The loop -/

/-- The loop over the current threads, entered with `tm₀`, has run the threads
before index `t`. -/
structure LoopInv (exe : List Inst) (c : CChar) (tm₀ : Threads) (t : Nat) (tm : Threads) :
    Prop where
  frame : tm = { tm₀ with cp := tm.cp, cpLookup := tm.cpLookup, np := tm.np,
                          npLookup := tm.npLookup, matchEnd := tm.matchEnd }
  curr : Marked tm.cp tm.cpLookup
  next : Marked tm.np tm.npLookup
  curr_lt : ∀ v ∈ tm.cp, v < exe.length
  next_lt : ∀ v ∈ tm.np, v < exe.length
  le : t ≤ tm.cp.length
  start : ∀ v ∈ tm₀.cp, v ∈ tm.cp
  closed : ∀ u ∈ tm.cp.take t, ∀ v ∈ (fetch exe u).currSucc tm₀.isSol (tm₀.isEol c) u, v ∈ tm.cp
  reached : ∀ v ∈ tm.cp, ∃ u ∈ tm₀.cp,
    ReflTransGen (fun a b : Nat => b ∈ (fetch exe a).currSucc tm₀.isSol (tm₀.isEol c) a) u v
  nexts : ∀ v, v ∈ tm.np ↔ v ∈ tm₀.np ∨
    ∃ u ∈ tm.cp.take t, v ∈ (fetch exe u).nextSucc tm₀.icase c u
  matched : tm.matchEnd =
    if ∃ u ∈ tm.cp.take t, fetch exe u = .opMatch then tm₀.chars else tm₀.matchEnd

theorem fetch_eq {exe : List Inst} {u : Nat} (h : u < exe.length) :
    exe[u]? = some (fetch exe u) := by
  simp [fetch, List.getD_eq_getElem?_getD, h]

/-- The successors of a listed thread are inside the program. -/
theorem currSucc_lt {exe : List Inst} (hwf : WellFormed exe) {u v : Nat} {sol eol : Bool}
    (hu : u < exe.length) (hv : v ∈ (fetch exe u).currSucc sol eol u) : v < exe.length := by
  have hi := fetch_eq hu
  cases hf : fetch exe u <;> rw [hf] at hi hv <;> simp only [Inst.currSucc] at hv
  case opBranch x y =>
    have hx := hwf.targets_mem _ _ hi x (by simp [Inst.targets])
    have hy := hwf.targets_mem _ _ hi y (by simp [Inst.targets])
    simp only [List.mem_cons, List.not_mem_nil, or_false] at hv
    omega
  case opJmp x =>
    have hx := hwf.targets_mem _ _ hi x (by simp [Inst.targets])
    simp only [List.mem_cons, List.not_mem_nil, or_false] at hv
    omega
  case opSol =>
    have := hwf.succ_lt hi (by simp)
    split at hv <;> simp_all
  case opEol =>
    have := hwf.succ_lt hi (by simp)
    split at hv <;> simp_all
  all_goals simp at hv

theorem nextSucc_lt {exe : List Inst} (hwf : WellFormed exe) {u v : Nat} {icase : Bool}
    {c : CChar} (hu : u < exe.length) (hv : v ∈ (fetch exe u).nextSucc icase c u) :
    v < exe.length := by
  have hi := fetch_eq hu
  unfold Inst.nextSucc at hv
  split at hv
  · next he =>
      simp only [List.mem_cons, List.not_mem_nil, or_false] at hv
      rw [hv]
      apply hwf.succ_lt hi
      intro hm
      simp [hm, Inst.eats] at he
  · simp at hv

theorem take_concat_of_getElem? {l : List Nat} {t u : Nat} (h : l[t]? = some u) :
    l.take (t + 1) = l.take t ++ [u] := by
  rw [List.take_add_one, h]
  rfl

/-- One round of the loop. -/
theorem LoopInv.step {exe : List Inst} (hwf : WellFormed exe) {c : CChar} {tm₀ tm : Threads}
    {t u : Nat} (h : LoopInv exe c tm₀ t tm) (hu : tm.cp[t]? = some u) :
    LoopInv exe c tm₀ (t + 1) (tm.runInst c u (fetch exe u)).1 := by
  have humem : u ∈ tm.cp := List.mem_of_getElem? hu
  have hult := h.curr_lt u humem
  have hsol : tm.isSol = tm₀.isSol := by rw [h.frame]; rfl
  have heol : tm.isEol c = tm₀.isEol c := by rw [h.frame]; rfl
  have hicase : tm.icase = tm₀.icase := by rw [h.frame]
  have hchars : tm.chars = tm₀.chars := by rw [h.frame]
  rw [runInst_eq, hsol, heol, hicase, hchars]
  set cs := (fetch exe u).currSucc tm₀.isSol (tm₀.isEol c) u with hcs
  set ns := (fetch exe u).nextSucc tm₀.icase c u with hns
  have hc := addCurrs_ext h.curr cs
  have hnp : (tm.addCurrs cs).np = tm.np := by rw [hc.eq]
  have hnl : (tm.addCurrs cs).npLookup = tm.npLookup := by rw [hc.eq]
  have hmarked : Marked (tm.addCurrs cs).np (tm.addCurrs cs).npLookup := by
    rw [hnp, hnl]
    exact h.next
  have hn := addNexts_ext hmarked tm₀.icase c u (fetch exe u)
  rw [← hns] at hn
  set tm' := tm.addCurrs cs
  set tm'' := tm'.addNexts ns
  have hcp : tm''.cp = tm'.cp := by rw [hn.eq]
  have hcl : tm''.cpLookup = tm'.cpLookup := by rw [hn.eq]
  obtain ⟨ws, hws⟩ := hc.tail
  -- the threads run so far, with the one just run
  have htake : tm'.cp.take (t + 1) = tm.cp.take t ++ [u] := by
    have hlt : t < tm.cp.length := (List.getElem?_eq_some_iff.mp hu).1
    rw [hws, List.take_append_of_le_length (by omega), take_concat_of_getElem? hu]
  constructor
  · simp only
    rw [hn.eq, hc.eq, h.frame]
  · simpa only [hcp, hcl] using hc.marked
  · exact hn.marked
  · intro v hv
    simp only [hcp, hc.mem] at hv
    rcases hv with hv | hv
    · exact h.curr_lt v hv
    · exact currSucc_lt hwf hult hv
  · intro v hv
    simp only [hn.mem, hnp] at hv
    rcases hv with hv | hv
    · exact h.next_lt v hv
    · exact nextSucc_lt hwf hult hv
  · have hlt : t < tm.cp.length := (List.getElem?_eq_some_iff.mp hu).1
    simp only [hcp, hws, List.length_append]
    omega
  · intro v hv
    simp only [hcp, hc.mem]
    exact Or.inl (h.start v hv)
  · intro w hw v hv
    simp only [hcp, htake, List.mem_append, List.mem_singleton] at hw
    simp only [hcp, hc.mem]
    rcases hw with hw | rfl
    · exact Or.inl (h.closed w hw v hv)
    · exact Or.inr hv
  · intro v hv
    simp only [hcp, hc.mem] at hv
    rcases hv with hv | hv
    · exact h.reached v hv
    · obtain ⟨w, hw, hwu⟩ := h.reached u humem
      exact ⟨w, hw, hwu.tail hv⟩
  · intro v
    simp only [hcp, htake, hn.mem, hnp, h.nexts, List.mem_append, List.mem_singleton]
    constructor
    · rintro ((hv | ⟨w, hw, hv⟩) | hv)
      · exact Or.inl hv
      · exact Or.inr ⟨w, Or.inl hw, hv⟩
      · exact Or.inr ⟨u, Or.inr rfl, hv⟩
    · rintro (hv | ⟨w, hw | rfl, hv⟩)
      · exact Or.inl (Or.inl hv)
      · exact Or.inl (Or.inr ⟨w, hw, hv⟩)
      · exact Or.inr hv
  · have hrun : (∃ w ∈ tm''.cp.take (t + 1), fetch exe w = .opMatch) ↔
        (∃ w ∈ tm.cp.take t, fetch exe w = .opMatch) ∨ fetch exe u = .opMatch := by
      simp only [hcp, htake, List.mem_append, List.mem_singleton, or_and_right, exists_or,
        exists_eq_left]
    simp only [h.matched, hrun]
    by_cases hm : fetch exe u = .opMatch
    · simp [hm]
    · simp [hm]

/-- The lists a character starts with. -/
structure Ready (exe : List Inst) (tm : Threads) : Prop where
  curr : Marked tm.cp tm.cpLookup
  curr_lt : ∀ v ∈ tm.cp, v < exe.length
  np : tm.np = []
  npLookup : tm.npLookup = fun _ => false

theorem LoopInv.init {exe : List Inst} {c : CChar} {tm : Threads} (h : Ready exe tm) :
    LoopInv exe c tm 0 tm where
  frame := rfl
  curr := h.curr
  next := by rw [h.np, h.npLookup]; exact Marked.nil
  curr_lt := h.curr_lt
  next_lt := by simp [h.np]
  le := Nat.zero_le _
  start := fun _ hv => hv
  closed := by simp
  reached := fun v hv => ⟨v, hv, .refl⟩
  nexts := by simp
  matched := by simp

/-- The loop ends with every thread run, or at the first `match` of a
non-greedy run. -/
theorem runThreads_inv {exe : List Inst} (hwf : WellFormed exe) {c : CChar} {tm₀ : Threads} :
    ∀ (fuel t : Nat) (tm : Threads), LoopInv exe c tm₀ t tm → exe.length < fuel + t →
      ∃ tm' t', LoopInv exe c tm₀ t' tm' ∧
        ((tm.runThreads exe c fuel t = some (tm', false) ∧ t' = tm'.cp.length) ∨
          (tm.runThreads exe c fuel t = some (tm', true) ∧ tm₀.nongreedy = true ∧
            ∃ u ∈ tm'.cp.take t', fetch exe u = .opMatch)) := by
  intro fuel
  induction fuel with
  -- a list without repetition is not longer than the program
  | zero =>
      intro t tm h hlt
      have := h.curr.length_le h.curr_lt
      have := h.le
      omega
  | succ fuel ih =>
      intro t tm h hlt
      -- the next thread, if there is one
      cases hu : tm.cp[t]? with
      | none =>
          refine ⟨tm, t, h, Or.inl ⟨by simp [runThreads, hu], ?_⟩⟩
          have := List.getElem?_eq_none_iff.mp hu
          have := h.le
          omega
      | some u =>
          have hstep := h.step hwf hu
          have hflag : (tm.runInst c u (fetch exe u)).2 =
              (decide (fetch exe u = .opMatch) && tm.nongreedy) := by
            rw [runInst_eq]
          have hng : tm.nongreedy = tm₀.nongreedy := by rw [h.frame]
          cases hrun : tm.runInst c u (fetch exe u) with
          | mk tm₁ flag =>
              rw [hrun] at hstep hflag
              simp only at hstep hflag
              cases flag with
              | true =>
                  have hflag := hflag.symm
                  simp only [Bool.and_eq_true, decide_eq_true_eq] at hflag
                  -- the `match` is among the threads that have been run
                  have hmem : u ∈ tm₁.cp.take (t + 1) := by
                    have h1 := runInst_eq tm c u (fetch exe u)
                    rw [hrun, hflag.1] at h1
                    simp only [Inst.currSucc, Inst.nextSucc, Inst.eats, addCurrs, addNexts,
                      List.foldl_nil, Prod.mk.injEq] at h1
                    have hcp : tm₁.cp = tm.cp := by rw [h1.1]; rfl
                    rw [hcp, take_concat_of_getElem? hu]
                    simp
                  exact ⟨tm₁, t + 1, hstep, Or.inr ⟨by simp [runThreads, hu, hrun],
                    by rw [← hng]; exact hflag.2, u, hmem, hflag.1⟩⟩
              | false =>
                  obtain ⟨tm', t', hinv, hres⟩ := ih (t + 1) tm₁ hstep (by omega)
                  refine ⟨tm', t', hinv, ?_⟩
                  simpa only [runThreads, hu, hrun] using hres

theorem runInst_cp_prefix (tm : Threads) (c : CChar) (ii : Nat) (i : Inst) :
    tm.cp <+: (tm.runInst c ii i).1.cp := by
  have hcurr : ∀ (tm : Threads) (v : Nat), tm.cp <+: (tm.addThreadCurr v).cp := by
    intro tm v
    unfold addThreadCurr
    split
    · exact List.prefix_refl _
    · exact List.prefix_append _ _
  have hnext : ∀ (tm : Threads) (v : Nat), (tm.addThreadNext v).cp = tm.cp := by
    intro tm v
    unfold addThreadNext
    split <;> rfl
  cases i <;> simp only [runInst]
  case opBranch x y => exact (hcurr _ _).trans (hcurr _ _)
  case opJmp x => exact hcurr _ _
  case opMatch => exact List.prefix_refl _
  all_goals
    split
    all_goals first | exact hcurr _ _ | (rw [hnext]) | exact List.prefix_refl _

/-- A non-greedy run of the loop that does not return has met no `match`. -/
theorem runThreads_quiet {exe : List Inst} {c : CChar} : ∀ (fuel t : Nat) (tm tm' : Threads),
    tm.runThreads exe c fuel t = some (tm', false) → tm.nongreedy = true →
    tm.cp <+: tm'.cp ∧ ∀ k u, t ≤ k → tm'.cp[k]? = some u → fetch exe u ≠ .opMatch := by
  intro fuel
  induction fuel with
  | zero =>
      intro t tm tm' h
      cases h
  | succ fuel ih =>
      intro t tm tm' h hng
      cases hu : tm.cp[t]? with
      -- all threads have been run: none was left
      | none =>
          simp only [runThreads, hu, Option.some.injEq, Prod.mk.injEq, and_true] at h
          subst h
          refine ⟨List.prefix_refl _, ?_⟩
          intro k u hk hget
          have h1 := List.getElem?_eq_none_iff.mp hu
          have h2 := (List.getElem?_eq_some_iff.mp hget).1
          omega
      | some v =>
          have hflag : (tm.runInst c v (fetch exe v)).2 = decide (fetch exe v = .opMatch) := by
            rw [runInst_eq]
            simp [hng]
          have hng' : (tm.runInst c v (fetch exe v)).1.nongreedy = tm.nongreedy := by
            cases hrun : fetch exe v <;> simp only [runInst]
            all_goals first | (split <;> simp [addThreadNext] <;> split <;> rfl) | simp
          have hpre := runInst_cp_prefix tm c v (fetch exe v)
          rcases hrun : tm.runInst c v (fetch exe v) with ⟨tm₁, flag⟩
          rw [hrun] at hflag hng' hpre
          cases flag with
          | true =>
              simp only [runThreads, hu, hrun, Option.some.injEq, Prod.mk.injEq] at h
              exact absurd h.2 (by simp)
          | false =>
              simp only [runThreads, hu, hrun] at h
              rcases ih (t + 1) tm₁ tm' h (hng'.trans hng) with ⟨hpre', hall⟩
              refine ⟨hpre.trans hpre', ?_⟩
              intro k u hk hget
              -- the thread itself was no `match`, or the loop had returned
              rcases Nat.eq_or_lt_of_le hk with rfl | hlt
              · have hlt : t < tm.cp.length := (List.getElem?_eq_some_iff.mp hu).1
                rcases hpre.trans hpre' with ⟨l, hl⟩
                rw [← hl, List.getElem?_append_left hlt, hu] at hget
                obtain rfl := Option.some.inj hget
                have hflag : false = decide (fetch exe v = .opMatch) := hflag
                simpa using hflag.symm
              · exact hall k u hlt hget

end Threads

end Rxvm
