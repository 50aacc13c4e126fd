import Mathlib.Data.List.GetD
import Rxvm.FileReads
import Rxvm.SearchSpec

/-!
# Rxvm.FileRun — a run on a file as a run on a string

`vm_execute` knows its input by the characters `getchar` returns, and by the end
character. So a run on a file that starts with an empty buffer finds what a run
on the string finds that starts at the same position; only what stands in front
of its first character is not known to it, and a `^` there does not hold.
-/

namespace Rxvm

open Relation

/-! ## Two ways to be fed -/

/-- The same character, or the end character of each side. -/
def SameChar (e₁ e₂ c₁ c₂ : CChar) : Prop := (c₁ = e₁ ∧ c₂ = e₂) ∨ (c₁ = c₂ ∧ c₁ ≠ e₁ ∧ c₂ ≠ e₂)

namespace Threads

/-- The flags a run was started with. -/
def modes (tm : Threads) : Flags :=
  { icase := tm.icase, nongreedy := tm.nongreedy, multiline := tm.multiline }

/-- Two runs that are fed alike differ in the end character, and in what stood in
front of the first character. The next list agrees while the input goes on. -/
structure Alike (flags : Flags) (e₁ e₂ : CChar) (goes : Prop) (tm₁ tm₂ : Threads) : Prop where
  frame : tm₂ = { tm₁ with endchar := tm₂.endchar, lastinput := tm₂.lastinput, np := tm₂.np,
                           npLookup := tm₂.npLookup }
  last : tm₂.lastinput = newline ↔ tm₁.lastinput = newline
  next : goes → tm₂.np = tm₁.np ∧ tm₂.npLookup = tm₁.npLookup
  endchar₁ : tm₁.endchar = e₁
  endchar₂ : tm₂.endchar = e₂
  modes : tm₁.modes = flags

section

variable {flags : Flags} {e₁ e₂ c₁ c₂ : CChar} {goes : Prop} {tm₁ tm₂ : Threads}

theorem Alike.isSol (h : Alike flags e₁ e₂ goes tm₁ tm₂) : tm₂.isSol = tm₁.isSol := by
  have hlast := h.last
  unfold Threads.isSol
  rw [h.frame]
  simp only
  congr 2
  rw [Bool.eq_iff_iff, beq_iff_eq, beq_iff_eq]
  exact hlast

theorem Alike.isEol (h : Alike flags e₁ e₂ goes tm₁ tm₂) (hc : SameChar e₁ e₂ c₁ c₂) :
    tm₂.isEol c₂ = tm₁.isEol c₁ := by
  have hml : tm₂.multiline = tm₁.multiline := by rw [h.frame]
  unfold Threads.isEol
  rw [h.endchar₁, h.endchar₂, hml]
  rcases hc with ⟨rfl, rfl⟩ | ⟨rfl, h₁, h₂⟩
  · rw [beq_self_eq_true, beq_self_eq_true, Bool.true_or, Bool.true_or]
  · rw [beq_eq_false_iff_ne.mpr h₁, beq_eq_false_iff_ne.mpr h₂]

theorem Alike.addThreadCurr (h : Alike flags e₁ e₂ goes tm₁ tm₂) (v : Nat) :
    Alike flags e₁ e₂ goes (tm₁.addThreadCurr v) (tm₂.addThreadCurr v) := by
  rcases h with ⟨hframe, hlast, hnext, h₁, h₂, hmodes⟩
  have hlook : tm₂.cpLookup = tm₁.cpLookup := by rw [hframe]
  unfold Threads.addThreadCurr
  rw [hlook]
  cases tm₁.cpLookup v with
  | true => exact ⟨hframe, hlast, hnext, h₁, h₂, hmodes⟩
  | false =>
      refine ⟨?_, hlast, hnext, h₁, h₂, hmodes⟩
      simp only [Bool.false_eq_true, if_false]
      rw [hframe]

theorem addThreadNext_frame (tm : Threads) (v : Nat) : tm.addThreadNext v =
    { tm with np := (tm.addThreadNext v).np, npLookup := (tm.addThreadNext v).npLookup } := by
  unfold addThreadNext
  split <;> rfl

/-- Behind the last character only one of the two may add a thread. -/
theorem Alike.addThreadNext (h : Alike flags e₁ e₂ goes tm₁ tm₂) (v : Nat) {a b : Bool}
    (hab : goes → a = b) : Alike flags e₁ e₂ goes (if a then tm₁.addThreadNext v else tm₁)
      (if b then tm₂.addThreadNext v else tm₂) := by
  rcases h with ⟨hframe, hlast, hnext, h₁, h₂, hmodes⟩
  have hadd : ∀ (tm : Threads) (d : Bool), ∃ np npLookup,
      (if d then tm.addThreadNext v else tm) = { tm with np := np, npLookup := npLookup } := by
    intro tm d
    cases d with
    | true => exact ⟨_, _, addThreadNext_frame tm v⟩
    | false => exact ⟨_, _, rfl⟩
  have hgoes : goes → (if b then tm₂.addThreadNext v else tm₂).np =
        (if a then tm₁.addThreadNext v else tm₁).np ∧
      (if b then tm₂.addThreadNext v else tm₂).npLookup =
        (if a then tm₁.addThreadNext v else tm₁).npLookup := by
    intro hg
    rcases hnext hg with ⟨hnp, hlook⟩
    rw [hab hg]
    cases b with
    | true =>
        simp only [if_true]
        unfold Threads.addThreadNext
        rw [hlook]
        split
        · exact ⟨hnp, hlook⟩
        · rw [hnp]
          exact ⟨rfl, rfl⟩
    | false => exact ⟨hnp, hlook⟩
  rcases hadd tm₁ a with ⟨np₁, l₁, heq₁⟩
  rcases hadd tm₂ b with ⟨np₂, l₂, heq₂⟩
  rw [heq₁, heq₂] at hgoes ⊢
  refine ⟨?_, hlast, hgoes, h₁, h₂, hmodes⟩
  rw [hframe]

/-- One thread. -/
theorem Alike.runInst (h : Alike flags e₁ e₂ (c₁ ≠ e₁) tm₁ tm₂) (hc : SameChar e₁ e₂ c₁ c₂) (ii : Nat)
    (i : Inst) : Alike flags e₁ e₂ (c₁ ≠ e₁) (tm₁.runInst c₁ ii i).1 (tm₂.runInst c₂ ii i).1 ∧
      (tm₂.runInst c₂ ii i).2 = (tm₁.runInst c₁ ii i).2 := by
  -- up to the end character both threads look at the same
  have hsame : c₁ ≠ e₁ → c₁ = c₂ := by
    intro hne
    rcases hc with ⟨heq, _⟩ | ⟨heq, _⟩
    · exact absurd heq hne
    · exact heq
  have hicase : tm₂.icase = tm₁.icase := by rw [h.frame]
  have hng : tm₂.nongreedy = tm₁.nongreedy := by rw [h.frame]
  cases i with
  -- an instruction that reads adds the same threads
  | opChar ic =>
      refine ⟨h.addThreadNext _ fun hne => ?_, rfl⟩
      rw [hsame hne, hicase]
  | opAny =>
      have hadd := h.addThreadNext (ii + 1) (a := decide (c₁ ≠ newline))
        (b := decide (c₂ ≠ newline)) fun hne => by rw [hsame hne]
      simp only [decide_eq_true_eq] at hadd
      exact ⟨hadd, rfl⟩
  -- an anchor holds on both sides or on neither
  | opSol =>
      simp only [Threads.runInst, h.isSol]
      refine ⟨?_, trivial⟩
      split
      · exact h.addThreadCurr _
      · exact h
  | opEol =>
      simp only [Threads.runInst, h.isEol hc]
      refine ⟨?_, trivial⟩
      split
      · exact h.addThreadCurr _
      · exact h
  | opClass ccs =>
      refine ⟨h.addThreadNext _ fun hne => ?_, rfl⟩
      rw [hsame hne, hicase]
  | opNclass ccs =>
      have hflip : ∀ (p : Bool) (x y : Threads), (if p then x else y) = if !p then y else x := by
        intro p x y
        cases p <;> rfl
      have hadd := h.addThreadNext (ii + 1) (a := !ccsMatch tm₁.icase ccs c₁)
        (b := !ccsMatch tm₂.icase ccs c₂) fun hne => by rw [hsame hne, hicase]
      rw [← hflip, ← hflip] at hadd
      exact ⟨hadd, rfl⟩
  | opBranch x y => exact ⟨(h.addThreadCurr _).addThreadCurr _, rfl⟩
  | opJmp x => exact ⟨h.addThreadCurr _, rfl⟩
  | opMatch =>
      rcases h with ⟨hframe, hlast, hnext, h₁, h₂, hmodes⟩
      refine ⟨⟨?_, hlast, hnext, h₁, h₂, hmodes⟩, hng⟩
      simp only [Threads.runInst]
      rw [hframe]

theorem Alike.runThreads {exe : List Inst} (hc : SameChar e₁ e₂ c₁ c₂) : ∀ (fuel t : Nat)
    {tm₁ tm₂ tm₂' : Threads} {out : Bool}, Alike flags e₁ e₂ (c₁ ≠ e₁) tm₁ tm₂ →
    tm₂.runThreads exe c₂ fuel t = some (tm₂', out) →
    ∃ tm₁', tm₁.runThreads exe c₁ fuel t = some (tm₁', out) ∧ Alike flags e₁ e₂ (c₁ ≠ e₁) tm₁' tm₂' := by
  intro fuel
  induction fuel with
  | zero =>
      intro t tm₁ tm₂ tm₂' out _ hrun
      cases hrun
  | succ fuel ih =>
      intro t tm₁ tm₂ tm₂' out h hrun
      have hcp : tm₂.cp = tm₁.cp := by rw [h.frame]
      unfold Threads.runThreads at hrun ⊢
      rw [hcp] at hrun
      cases hget : tm₁.cp[t]? with
      | none =>
          rw [hget] at hrun
          cases hrun
          exact ⟨tm₁, rfl, h⟩
      | some ii =>
          rw [hget] at hrun
          rcases h.runInst hc ii (fetch exe ii) with ⟨halike, hstop⟩
          rcases hinst₁ : tm₁.runInst c₁ ii (fetch exe ii) with ⟨tm₁', stop⟩
          rcases hinst₂ : tm₂.runInst c₂ ii (fetch exe ii) with ⟨tm₂'', stop₂⟩
          rw [hinst₁, hinst₂] at halike hstop
          obtain rfl : stop₂ = stop := hstop
          simp only [hinst₁, hinst₂] at hrun ⊢
          cases stop₂ with
          | true =>
              cases hrun
              exact ⟨tm₁', rfl, halike⟩
          | false => exact ih _ halike hrun

theorem Alike.mono {goes' : Prop} (h : Alike flags e₁ e₂ goes tm₁ tm₂) (hgoes : goes' → goes) :
    Alike flags e₁ e₂ goes' tm₁ tm₂ :=
  ⟨h.frame, h.last, fun hg => h.next (hgoes hg), h.endchar₁, h.endchar₂, h.modes⟩

theorem Alike.swap (h : Alike flags e₁ e₂ True tm₁ tm₂) : Alike flags e₁ e₂ True tm₁.swap tm₂.swap := by
  rcases h.next trivial with ⟨hnp, hlook⟩
  refine ⟨?_, h.last, fun _ => ⟨rfl, rfl⟩, h.endchar₁, h.endchar₂, h.modes⟩
  unfold Threads.swap
  rw [hnp, hlook, h.frame]

theorem Alike.clearCurr (h : Alike flags e₁ e₂ goes tm₁ tm₂) :
    Alike flags e₁ e₂ goes tm₁.clearCurr tm₂.clearCurr := by
  refine ⟨?_, h.last, h.next, h.endchar₁, h.endchar₂, h.modes⟩
  unfold Threads.clearCurr
  rw [h.frame]

theorem Alike.setStart (h : Alike flags e₁ e₂ goes tm₁ tm₂) {n₁ n₂ : Nat} (hn : n₂ = n₁) :
    Alike flags e₁ e₂ goes { tm₁ with matchStart := n₁ } { tm₂ with matchStart := n₂ } := by
  refine ⟨?_, h.last, h.next, h.endchar₁, h.endchar₂, h.modes⟩
  rw [hn, h.frame]

theorem Alike.read (h : Alike flags e₁ e₂ goes tm₁ tm₂) (hc : c₂ = newline ↔ c₁ = newline) :
    Alike flags e₁ e₂ goes { tm₁ with lastinput := c₁, chars := tm₁.chars + 1 }
      { tm₂ with lastinput := c₂, chars := tm₂.chars + 1 } := by
  refine ⟨?_, hc, h.next, h.endchar₁, h.endchar₂, h.modes⟩
  rw [h.frame]

end

end Threads

section

variable {σ τ : Type} {getchar₁ : σ → CChar × σ} {getchar₂ : τ → CChar × τ} {exe : List Inst}
  {flags : Flags} {e₁ e₂ : CChar} {d₁ : σ} {d₂ : τ}

/-- The two runs have made `n` calls. -/
structure Twins (getchar₁ : σ → CChar × σ) (getchar₂ : τ → CChar × τ) (flags : Flags)
    (e₁ e₂ : CChar) (d₁ : σ) (d₂ : τ) (goes : Prop) (n : Nat) (st₁ : VmState σ) (st₂ : VmState τ) : Prop where
  alike : Threads.Alike flags e₁ e₂ goes st₁.tm st₂.tm
  data₁ : st₁.data = (fun d => (getchar₁ d).2)^[n] d₁
  data₂ : st₂.data = (fun d => (getchar₂ d).2)^[n] d₂

/-- Each call is given the same on both sides, up to the end character. -/
def FedAlike (getchar₁ : σ → CChar × σ) (getchar₂ : τ → CChar × τ) (e₁ e₂ : CChar) (d₁ : σ)
    (d₂ : τ) : Prop :=
  ∀ n, (∀ k < n, nthChar getchar₁ d₁ k ≠ e₁) →
    SameChar e₁ e₂ (nthChar getchar₁ d₁ n) (nthChar getchar₂ d₂ n)

/-- What two runs that are fed alike find is the same. -/
theorem vmLoop_alike (hfed : FedAlike getchar₁ getchar₂ e₁ e₂ d₁ d₂) : ∀ (fuel n : Nat)
    (st₁ : VmState σ) (st₂ : VmState τ) (res₂ : Int × VmState τ),
    (∀ k < n, nthChar getchar₁ d₁ k ≠ e₁) →
    (∀ label, label = .vmStart ∨ label = .readChar →
      Twins getchar₁ getchar₂ flags e₁ e₂ d₁ d₂ True n st₁ st₂ → (st₂.c = newline ↔ st₁.c = newline) →
      vmLoop getchar₂ exe fuel label st₂ = some res₂ →
      ∃ res₁, vmLoop getchar₁ exe fuel label st₁ = some res₁ ∧
        Threads.Alike flags e₁ e₂ False res₁.2.tm res₂.2.tm) ∧
    (Twins getchar₁ getchar₂ flags e₁ e₂ d₁ d₂ (st₁.c ≠ e₁) (n + 1) st₁ st₂ →
      st₁.c = nthChar getchar₁ d₁ n → st₂.c = nthChar getchar₂ d₂ n →
      vmLoop getchar₂ exe fuel .skipReadchar st₂ = some res₂ →
      ∃ res₁, vmLoop getchar₁ exe fuel .skipReadchar st₁ = some res₁ ∧
        Threads.Alike flags e₁ e₂ False res₁.2.tm res₂.2.tm) := by
  -- both labels that read come before the one that runs threads, at the same fuel
  intro fuel
  induction fuel with
  | zero =>
      intro n st₁ st₂ res₂ _
      constructor
      · intro label _ _ _ hrun
        cases hrun
      · intro _ _ _ hrun
        cases hrun
  | succ fuel ih =>
      intro n st₁ st₂ res₂ hunended
      constructor
      · rintro label (rfl | rfl) ⟨halike, hdata₁, hdata₂⟩ hc hrun
        · -- vm_start
          have hchars : st₂.tm.chars = st₁.tm.chars := by rw [halike.frame]
          unfold vmLoop at hrun ⊢
          refine (ih n _ _ res₂ hunended).1 .readChar (Or.inr rfl) ?_ ?_ hrun
          · exact ⟨(halike.setStart hchars).addThreadCurr 0, hdata₁, hdata₂⟩
          · exact hc
        · -- read_char
          unfold vmLoop at hrun ⊢
          refine (ih n _ _ res₂ hunended).2 ?_ ?_ ?_ hrun
          · refine ⟨(halike.read hc).mono fun _ => trivial, ?_, ?_⟩
            · show (getchar₁ st₁.data).2 = _
              rw [hdata₁, Function.iterate_succ_apply']
            · show (getchar₂ st₂.data).2 = _
              rw [hdata₂, Function.iterate_succ_apply']
          · show (getchar₁ st₁.data).1 = _
            rw [hdata₁]
            rfl
          · show (getchar₂ st₂.data).1 = _
            rw [hdata₂]
            rfl
      · rintro ⟨halike, hdata₁, hdata₂⟩ hc₁ hc₂ hrun
        -- the two runs look at the `n`-th call, which is the same until the file ends
        have hsame : SameChar e₁ e₂ st₁.c st₂.c := by
          rw [hc₁, hc₂]
          exact hfed n hunended
        unfold vmLoop at hrun ⊢
        rcases hthreads₂ : st₂.tm.runThreads exe st₂.c (exe.length + 1) 0 with _ | ⟨tm₂, out⟩
        · rw [hthreads₂] at hrun
          cases hrun
        rcases halike.runThreads hsame _ _ hthreads₂ with ⟨tm₁, hthreads₁, halike'⟩
        rw [hthreads₂] at hrun
        rw [hthreads₁]
        cases out with
        | true =>
            cases hrun
            exact ⟨_, rfl, halike'.mono False.elim⟩
        | false =>
            simp only at hrun ⊢
            rw [halike'.endchar₂] at hrun
            rw [halike'.endchar₁]
            -- the end character ends both runs, each its own
            by_cases hend : st₁.c = e₁
            · have hend₂ : st₂.c = e₂ := by
                rcases hsame with ⟨_, h⟩ | ⟨_, h, _⟩
                · exact h
                · exact absurd hend h
              rw [if_pos hend₂] at hrun
              rw [if_pos hend]
              cases hrun
              exact ⟨_, rfl, halike'.mono False.elim⟩
            have hend₂ : st₂.c ≠ e₂ ∧ st₁.c = st₂.c := by
              rcases hsame with ⟨h, _⟩ | ⟨heq, _, h⟩
              · exact absurd h hend
              · exact ⟨h, heq⟩
            have hunended' : ∀ k < n + 1, nthChar getchar₁ d₁ k ≠ e₁ := by
              intro k hk
              rcases Nat.lt_succ_iff_lt_or_eq.mp hk with hlt | rfl
              · exact hunended k hlt
              · rw [← hc₁]
                exact hend
            have hnext := halike'.next hend
            have halike : Threads.Alike flags e₁ e₂ True tm₁ tm₂ := halike'.mono fun _ => hend
            have hframe := halike.frame
            have hsearch : tm₂.search = tm₁.search := by rw [hframe]
            have hmatch : tm₂.matchEnd = tm₁.matchEnd := by rw [hframe]
            have hchars : tm₂.chars = tm₁.chars := by rw [hframe]
            have hstart : tm₂.matchStart = tm₁.matchStart := by rw [hframe]
            have hnl : st₂.c = newline ↔ st₁.c = newline := by rw [hend₂.2]
            rw [if_neg hend₂.1, hnext.1, hsearch, hmatch, hchars, hstart] at hrun
            -- from here both runs go the same way on the same threads
            rw [if_neg hend]
            by_cases hnp : tm₁.np = []
            -- some thread is alive: the next call is read
            swap
            · rw [if_neg hnp] at hrun ⊢
              refine (ih (n + 1) _ _ res₂ hunended').1 .readChar (Or.inr rfl) ?_ ?_ hrun
              · exact ⟨halike.swap, hdata₁, hdata₂⟩
              · exact hnl
            rw [if_pos hnp] at hrun ⊢
            by_cases hgo : tm₁.search = false ∨ tm₁.matchEnd ≠ 0
            · rw [if_pos hgo] at hrun ⊢
              cases hrun
              exact ⟨_, rfl, halike'.mono False.elim⟩
            rw [if_neg hgo] at hrun ⊢
            -- no thread is alive: the same character is looked at again, from here
            by_cases hagain : tm₁.chars - 1 ≠ tm₁.matchStart
            · rw [if_pos hagain] at hrun ⊢
              refine (ih n _ _ res₂ hunended).2 ?_ ?_ ?_ hrun
              · refine ⟨?_, hdata₁, hdata₂⟩
                exact ((halike.clearCurr.setStart rfl).addThreadCurr 0).mono fun _ => trivial
              · exact hc₁
              · exact hc₂
            · -- the attempt began with this call: the next one is read
              rw [if_neg hagain] at hrun ⊢
              refine (ih (n + 1) _ _ res₂ hunended').1 .vmStart (Or.inl rfl) ?_ ?_ hrun
              · exact ⟨halike.clearCurr, hdata₁, hdata₂⟩
              · exact hnl

end

/-! ## A run on a file -/

/-- The file as a run from offset `p` sees it: it does not know what stands in
front of its first character. -/
def seenFrom (content : List CChar) (p : Nat) : List CChar :=
  List.replicate p (chr ' ') ++ content.drop p

section

variable {content : List CChar} {p : Nat}

theorem length_seenFrom (hp : p ≤ content.length) : (seenFrom content p).length = content.length := by
  rw [seenFrom, List.length_append, List.length_replicate, List.length_drop]
  omega

theorem at'_seenFrom {k : Nat} (hk : p ≤ k) : at' (seenFrom content p) k = at' content k := by
  unfold at' seenFrom
  rw [List.getD_append_right _ _ _ _ (by rw [List.length_replicate]; exact hk),
    List.length_replicate]
  simp only [List.getD_eq_getElem?_getD, List.getElem?_drop]
  congr 2
  omega

theorem at'_seenFrom_before {k : Nat} (hk : k < p) : at' (seenFrom content p) k = chr ' ' := by
  unfold at' seenFrom
  rw [List.getD_append _ _ _ _ (by rw [List.length_replicate]; exact hk), List.getD_replicate _ hk]

theorem noNul_seenFrom (h : NoNul content) : NoNul (seenFrom content p) := by
  intro c hc
  rcases List.mem_append.mp hc with hc | hc
  · rw [(List.mem_replicate.mp hc).2]
    decide
  · exact h c (List.mem_of_mem_drop hc)

theorem nthChar_getcharStr (s : List CChar) (p n : Nat) :
    nthChar (getcharStr s) p n = at' s (p + n) := by
  have hdata : (fun d => (getcharStr s d).2)^[n] p = p + n := by
    induction n with
    | zero => rfl
    | succ n ih =>
        rw [Function.iterate_succ_apply', ih]
        rfl
  unfold nthChar
  rw [hdata]
  rfl

/-- A run that starts with an empty buffer is fed as one on the string. -/
theorem Coupled.fedAlike {d : FileBuf} (h : Coupled content p 0 d) (hp : p ≤ content.length)
    (hfile : ∀ c ∈ content, c ≠ 0 ∧ c ≠ eofChar) :
    FedAlike getcharFile (getcharStr (seenFrom content p)) eofChar 0 d p := by
  intro n hunended
  have hright : ∀ k, p + k ≤ content.length → FedRight content p d k :=
    fun k => h.fedRight fun c hc => (hfile c hc).2
  have hle : p + n ≤ content.length := by
    by_contra hlt
    have hend : delivered d (content.length - p) = eofChar :=
      (hright _ (by omega)).eof.mpr (by omega)
    exact hunended (content.length - p) (by omega) hend
  have hchar : nthChar getcharFile d n = delivered d n := rfl
  rw [nthChar_getcharStr, at'_seenFrom (Nat.le_add_right p n), hchar]
  rcases Nat.lt_or_eq_of_le hle with hlt | heq
  · right
    have hmem := hfile _ (at'_mem hlt)
    rw [(hright n hle).byte hlt]
    exact ⟨rfl, hmem.2, hmem.1⟩
  · left
    refine ⟨(hright n hle).eof.mpr heq.ge, ?_⟩
    simp [at', List.getD_eq_getElem?_getD, List.getElem?_eq_none heq.ge]

theorem SearchEnd.congr {icase ml ng : Bool} {s : List CChar} {exe : List Inst} {r : Nat}
    {tm tm' : Threads} (h : SearchEnd icase ml s exe ng r tm) (hstart : tm.matchStart = tm'.matchStart)
    (hend : tm.matchEnd = tm'.matchEnd) : SearchEnd icase ml s exe ng r tm' := by
  unfold SearchEnd at h ⊢
  rw [← hstart, ← hend]
  exact h

/-- What a run on a file finds that starts with an empty buffer. -/
theorem executeFile_search {exe : List Inst} {flags : Flags} {d : FileBuf} {tm : Threads}
    (hwf : WellFormed exe) (hfile : ∀ c ∈ content, c ≠ 0 ∧ c ≠ eofChar)
    (hcoupled : Coupled content p 0 d) (hp : p ≤ content.length) (hchars : tm.chars = p)
    (hzero : tm.matchEnd = 0) (hsearch : tm.search = true) (hend : tm.endchar = eofChar)
    (hmodes : tm.modes = flags) :
    ∃ tm' d', executeFile exe d tm = .ok (tm', d') ∧ tm'.modes = flags ∧
      SearchEnd flags.icase flags.multiline (seenFrom content p) exe flags.nongreedy p tm' := by
  have hnul : NoNul (seenFrom content p) := noNul_seenFrom fun c hc => (hfile c hc).1
  have hlen := length_seenFrom hp
  -- the run on the string, from the same position
  obtain ⟨tm₂, htm₂⟩ : ∃ tm₂ : Threads, tm₂ =
      { tm with cp := [], np := [], cpLookup := fun _ => false, npLookup := fun _ => false,
                endchar := 0 } := ⟨_, rfl⟩
  have hchars₂ : tm₂.chars = p := by
    rw [htm₂]
    exact hchars
  have hmodes₂ : tm₂.modes = flags := by
    rw [htm₂]
    exact hmodes
  have hat := AtPos.ofStart (s := seenFrom content p) (r := p) (c := chr ' ') hwf (by omega) hchars₂
    (fun h0 => (at'_seenFrom_before (Nat.sub_lt (Nat.pos_of_ne_zero h0) Nat.one_pos)).symm)
    (by rw [htm₂]) rfl rfl (by rw [htm₂]) (by rw [htm₂]) (by rw [htm₂]) (by rw [htm₂])
  have hstring : ∃ res₂, vmLoop (getcharStr (seenFrom content p)) exe (fileFuel d.fp) .vmStart
      { tm := tm₂, data := p, c := chr ' ' } = some res₂ ∧
      SearchEnd flags.icase flags.multiline (seenFrom content p) exe flags.nongreedy p res₂.2.tm := by
    obtain ⟨fuel, hfuel⟩ : ∃ fuel, fileFuel d.fp = fuel + 2 := ⟨fileFuel d.fp - 2, rfl⟩
    have henough : Lasts (seenFrom content p) p p fuel := by
      rw [lasts_self, hlen, ← hcoupled.file]
      unfold fileFuel at hfuel
      omega
    have hzero₂ : tm₂.matchEnd = 0 := by
      rw [htm₂]
      exact hzero
    rcases search_run hwf hnul _ p p fuel _ rfl henough hat
      (by simp only [Threads.addThreadCurr_search, htm₂, hsearch])
      (show _ = tm₂.nongreedy by simp only [Threads.addThreadCurr_nongreedy])
      (by simp only [Threads.addThreadCurr_matchEnd, hzero₂]; exact EndBefore.zero)
      (by simp only [Threads.addThreadCurr_matchEnd, hzero₂, implies_true])
      ⟨0, .refl⟩ with ⟨res₂, hrun₂, hout⟩
    refine ⟨res₂, ?_, ?_⟩
    · rw [hfuel]
      simp only [vmLoop, getcharStr]
      exact hrun₂
    · rw [← hmodes₂]
      exact hout
  rcases hstring with ⟨res₂, hrun₂, hout⟩
  have halike : Threads.Alike flags eofChar 0 True
      { tm with cp := [], np := [], cpLookup := fun _ => false, npLookup := fun _ => false } tm₂ := by
    rw [htm₂]
    exact ⟨rfl, Iff.rfl, fun _ => ⟨rfl, rfl⟩, hend, rfl, hmodes⟩
  rcases (vmLoop_alike (hcoupled.fedAlike hp hfile) (fileFuel d.fp) 0
    { tm := { tm with cp := [], np := [], cpLookup := fun _ => false, npLookup := fun _ => false },
      data := d, c := 0 } { tm := tm₂, data := p, c := chr ' ' } res₂
    (fun k hk => absurd hk (Nat.not_lt_zero k))).1 .vmStart (Or.inl rfl) ⟨halike, rfl, rfl⟩
    (show chr ' ' = newline ↔ (0 : CChar) = newline by decide) hrun₂ with ⟨⟨ret, st⟩, hrun₁, halike'⟩
  refine ⟨st.tm, st.data, ?_, halike'.modes, ?_⟩
  · unfold executeFile vmExecute
    simp only [hrun₁]
  · have hframe := halike'.frame
    refine hout.congr ?_ ?_
    · rw [hframe]
    · rw [hframe]

/-! ## What a run sees -/

variable {icase ml : Bool} {exe : List Inst} {a b : Nat × Nat} {r q : Nat}

theorem SolAt.of_seenFrom {k : Nat} (hk : p ≤ k) (h : SolAt ml (seenFrom content p) k) :
    SolAt ml content k := by
  rcases h with rfl | ⟨hml, hnl⟩
  · exact Or.inl rfl
  · right
    refine ⟨hml, ?_⟩
    by_cases hlt : k - 1 < p
    · rw [at'_seenFrom_before hlt] at hnl
      exact absurd hnl (by decide)
    · rwa [at'_seenFrom (by omega)] at hnl

theorem SolAt.to_seenFrom {k : Nat} (hk : p < k ∨ p = 0) (h : SolAt ml content k) :
    SolAt ml (seenFrom content p) k := by
  rcases h with rfl | ⟨hml, hnl⟩
  · exact Or.inl rfl
  · right
    refine ⟨hml, ?_⟩
    rwa [at'_seenFrom (by omega)]

theorem eolAt_seenFrom (hp : p ≤ content.length) {k : Nat} (hk : p ≤ k) :
    EolAt ml (seenFrom content p) k ↔ EolAt ml content k := by
  unfold EolAt
  rw [length_seenFrom hp, at'_seenFrom hk]

theorem NfaStep.of_seenFrom (hp : p ≤ content.length) (ha : p ≤ a.2)
    (h : NfaStep icase ml (seenFrom content p) exe a b) : NfaStep icase ml content exe a b := by
  cases h with
  | eat hi hlt he =>
      rw [length_seenFrom hp] at hlt
      rw [at'_seenFrom ha] at he
      exact .eat hi hlt he
  | sol hi hsol => exact .sol hi (hsol.of_seenFrom ha)
  | eol hi heol => exact .eol hi ((eolAt_seenFrom hp ha).mp heol)
  | branchX hi => exact .branchX hi
  | branchY hi => exact .branchY hi
  | jmp hi => exact .jmp hi

theorem NfaStep.to_seenFrom (hp : p ≤ content.length) (ha : p < a.2 ∨ p = 0)
    (h : NfaStep icase ml content exe a b) : NfaStep icase ml (seenFrom content p) exe a b := by
  have hle : p ≤ a.2 := by omega
  cases h with
  | eat hi hlt he =>
      refine .eat hi ?_ ?_
      · rw [length_seenFrom hp]
        exact hlt
      · rw [at'_seenFrom hle]
        exact he
  | sol hi hsol => exact .sol hi (hsol.to_seenFrom ha)
  | eol hi heol => exact .eol hi ((eolAt_seenFrom hp hle).mpr heol)
  | branchX hi => exact .branchX hi
  | branchY hi => exact .branchY hi
  | jmp hi => exact .jmp hi

/-- What a run from `p` takes for a match is one. -/
theorem Matched.of_seenFrom (hp : p ≤ content.length) (hr : p ≤ r)
    (h : Matched icase ml (seenFrom content p) exe r q) : Matched icase ml content exe r q := by
  rcases h with ⟨v, hv, hreach⟩
  have key : ∀ b, NfaPath icase ml (seenFrom content p) exe (0, r) b →
      NfaPath icase ml content exe (0, r) b := by
    intro b hb
    induction hb with
    | refl => exact .refl
    | tail hpath hstep ih => exact ih.tail (hstep.of_seenFrom hp (hr.trans (NfaPath.pos_le hpath)))
  exact ⟨v, hv, key _ hreach⟩

/-- Behind its first character a run from `p` misses no match. -/
theorem matched_seenFrom (hp : p ≤ content.length) (hr : p < r ∨ p = 0) :
    Matched icase ml (seenFrom content p) exe r q ↔ Matched icase ml content exe r q := by
  constructor
  · exact Matched.of_seenFrom hp (by omega)
  · rintro ⟨v, hv, hreach⟩
    have key : ∀ b, NfaPath icase ml content exe (0, r) b →
        NfaPath icase ml (seenFrom content p) exe (0, r) b := by
      intro b hb
      induction hb with
      | refl => exact .refl
      | tail hpath hstep ih =>
          have hle := NfaPath.pos_le hpath
          exact ih.tail (hstep.to_seenFrom hp (by simp only at hle; omega))
    exact ⟨v, hv, key _ hreach⟩

end

end Rxvm
