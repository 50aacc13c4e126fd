import Rxvm.Charset
import Rxvm.LfixSpec

/-!
# Rxvm.Recorded — the run that is recorded

What `rxvm_compile` records at the end of the input are the counters of the last
turn that has made a run the longest one, unless there has been an alternation
outside the groups.
-/

namespace Rxvm

open Last

section

variable {g : Statics} {text : List CChar} {input : Nat} {cp cp' : Context}
  {stk stk' : StackId → Stk} {index index' : Option Nat} {r r' : Nat × Context}

/-! ## The contexts of a run -/

theorem ctxAt_path {m n : Nat} (hm : ctxAt g text m = some r) (hn : ctxAt g text n = some r')
    (hle : m ≤ n) : Path (nextCtx text) r r' := by
  induction n, hle using Nat.le_induction generalizing r' with
  | base =>
      obtain rfl : r = r' := Option.some.inj (hm.symm.trans hn)
      exact .refl
  | succ n _ ih =>
      rw [ctxAt, Option.bind_eq_some_iff] at hn
      rcases hn with ⟨r₁, hprev, hnext⟩
      exact (ih hprev).tail hnext

theorem Visited.next (h : Visited g text r.1 r.2) (hnext : nextCtx text r = some r') :
    Visited g text r'.1 r'.2 := by
  rcases visited_iff.mp h with ⟨n, hn⟩
  refine visited_iff.mpr ⟨n + 1, ?_⟩
  rw [ctxAt, hn]
  exact hnext

/-- Every context is on the way from the first one to the last one. -/
theorem Visited.between (h : Visited g text r.1 r.2) (hlast : Visited g text input cp)
    (hend : nextCtx text (input, cp) = none) :
    Path (nextCtx text) r (input, cp) ∧
      ∃ r₀, ctxAt g text 0 = some r₀ ∧ Path (nextCtx text) r₀ r := by
  rcases visited_iff.mp h with ⟨n, hn⟩
  rcases visited_iff.mp hlast with ⟨m, hm⟩
  have hnone : ctxAt g text (m + 1) = none := by rw [ctxAt, hm, Option.bind_some, hend]
  refine ⟨ctxAt_path hn hm (Nat.le_of_lt_succ (lt_of_ctxAt hn hnone)), ?_⟩
  cases h0 : ctxAt g text 0 with
  | none =>
      have hnone := ctxAt_none h0 n
      rw [Nat.zero_add, hn] at hnone
      cases hnone
  | some r₀ => exact ⟨r₀, rfl, ctxAt_path h0 hn (Nat.zero_le n)⟩

/-- The turn between two contexts of a run. -/
theorem Visited.turned (h : Visited g text r.1 r.2) (hnext : nextCtx text r = some r') :
    ∃ stk index cp' stk' index', Turn text r.2 stk index cp' stk' index' ∧
      r'.2.statics.lfix = cp'.statics.lfix ∧ r'.2.statics.altSeen = cp'.statics.altSeen := by
  rcases h.invariant (P := fun _ _ _ _ => True) (fun _ _ _ _ _ => trivial)
    (fun _ _ _ _ _ _ _ _ _ _ _ _ _ _ _ _ => trivial) with ⟨stk, index, hholds, _⟩
  rcases nextCtx_eq_some.mp hnext with ⟨_, _, cp', hstep, rfl⟩
  rcases hholds.turn hstep r.1 with ⟨stk', index', hturn, _, _⟩
  exact ⟨stk, index, cp', stk', index', hturn, rfl, rfl⟩

/-! ## Alternations -/

/-- The counters behind a turn. -/
theorem Turn.lfix (hturn : Turn text cp stk index cp' stk' index') : LfixTurned text cp cp' := by
  cases hturn with
  | operate hin hop => exact lfixTurned_operator hin hop rfl
  | single hin _ _ _ _ inst hinst => exact lfixTurned_main hin (singleInst_tok hinst).1 rfl
  | quiet hin _ _ _ _ hop => exact lfixTurned_main hin hop rfl
  | opening hin _ _ _ _ htok => exact lfixTurned_main hin (by rw [htok]; rfl) rfl
  | closing hin _ _ _ _ htok => exact lfixTurned_main hin (by rw [htok]; rfl) rfl
  | charc hin => exact lfixTurned_charc hin rfl
  | noCcs hin => exact lfixTurned_charc hin rfl
  | ccs hin => exact lfixTurned_charc hin rfl

end

end Rxvm
