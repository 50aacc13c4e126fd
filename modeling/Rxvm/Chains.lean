import Rxvm.Programs

/-!
# Rxvm.Chains — optimise_chains preserves the program's meaning

`optimise_chains` lets every jump of a chain of jumps lead to where the last
one leads. `Shortcut` says what that changes, whatever has been changed before;
it keeps programs well made and accepts what the program accepted. At the end
of the run no jump leads to a jump.
-/

namespace Rxvm

open Function Relation

/-! ## Chains of jumps -/

/-- The instruction at index `i` is a jump to `j`. -/
def JumpTo (exe : List Inst) (i j : Nat) : Prop := exe[i]? = some (.opJmp j)

/-- All jumps lead forward, and stay inside the program. -/
structure JumpsForward (exe : List Inst) : Prop where
  jmp : ∀ {i : Nat} {x : Int}, exe[i]? = some (.opJmp x) → (i : Int) < x ∧ x < exe.length

/-- If the instruction at index `i` is a jump, then not to another one. -/
def Direct (exe : List Inst) (i : Nat) : Prop :=
  ∀ x, exe[i]? = some (.opJmp x) → (fetch exe x).isJmp = false

/-- `exe'` is `exe` with some jumps leading to the end of a chain of jumps
that starts with them. -/
structure Shortcut (exe exe' : List Inst) : Prop where
  length : exe'.length = exe.length
  inst : ∀ i, exe'[i]? = exe[i]? ∨
    ∃ fin, exe'[i]? = some (.opJmp fin) ∧ TransGen (JumpTo exe) i fin.toNat ∧ 0 ≤ fin

section

variable {exe exe' : List Inst}

theorem JumpTo.unique {i j k : Nat} (hj : JumpTo exe i j) (hk : JumpTo exe i k) : j = k := by
  have h := hj.symm.trans hk
  simpa using h

theorem fetch_jmp {i : Nat} (hi : (fetch exe i).isJmp = true) :
    ∃ x, exe[i]? = some (.opJmp x) := by
  unfold fetch at hi
  rw [Int.toNat_natCast, List.getD_eq_getElem?_getD] at hi
  cases h : exe[i]? with
  | none =>
      rw [h] at hi
      cases hi
  | some inst =>
      rw [h, Option.getD_some] at hi
      cases inst with
      | opJmp x => exact ⟨x, rfl⟩
      | _ => cases hi

theorem fetch_eq {i : Nat} {inst : Inst} (h : exe[i]? = some inst) : fetch exe i = inst := by
  rw [fetch, Int.toNat_natCast, List.getD_eq_getElem?_getD, h]
  rfl

theorem ProgramOk.jumpsForward (h : ProgramOk exe) : JumpsForward exe := ⟨h.jmp⟩

theorem JumpsForward.jumpTo (h : JumpsForward exe) {i : Nat} {x : Int}
    (hi : exe[i]? = some (.opJmp x)) : JumpTo exe i x.toNat ∧ ((x.toNat : Nat) : Int) = x := by
  have hx := h.jmp hi
  have hcast : ((x.toNat : Nat) : Int) = x := Int.toNat_of_nonneg (by omega)
  exact ⟨by rw [JumpTo, hcast]; exact hi, hcast⟩

theorem JumpsForward.jumpTo_lt (h : JumpsForward exe) {i j : Nat} (hij : JumpTo exe i j) :
    i < j ∧ j < exe.length := by
  have := h.jmp hij
  omega

theorem JumpsForward.chain_lt (h : JumpsForward exe) {i j : Nat}
    (hij : TransGen (JumpTo exe) i j) : i < j ∧ j < exe.length := by
  induction hij with
  | single hij => exact h.jumpTo_lt hij
  | tail _ hstep ih =>
      have := h.jumpTo_lt hstep
      omega

/-! ## Following a chain -/

/-- The jumps of `chain` all lead to its first entry, which is a jump, and they
have been met from the first index on. -/
structure ChainTo (exe : List Inst) (chain : List Nat) (h : Nat) : Prop where
  head : chain.head? = some h
  jump : ∃ x, exe[h]? = some (.opJmp x)
  leads : ∀ e ∈ chain, ReflTransGen (JumpTo exe) e h
  sorted : chain.Pairwise (· > ·)

theorem ChainTo.singleton {h : Nat} (hj : (fetch exe h).isJmp = true) : ChainTo exe [h] h := by
  refine ⟨rfl, fetch_jmp hj, ?_, List.pairwise_singleton _ _⟩
  intro e he
  rw [List.mem_singleton.mp he]

/-- The chain goes on with the jump its last one leads to. -/
theorem ChainTo.cons {chain : List Nat} {h h' : Nat} (hfwd : JumpsForward exe)
    (hchain : ChainTo exe chain h) (hjump : JumpTo exe h h') (hj : (fetch exe h').isJmp = true) :
    ChainTo exe (h' :: chain) h' := by
  refine ⟨rfl, fetch_jmp hj, ?_, List.pairwise_cons.mpr ⟨?_, hchain.sorted⟩⟩
  · intro e he
    rcases List.mem_cons.mp he with rfl | he
    · exact .refl
    · exact (hchain.leads e he).tail hjump
  · intro e he
    exact (hfwd.chain_lt (.tail' (hchain.leads e he) hjump)).1

theorem ChainTo.lt_length {chain : List Nat} {h e : Nat} (hfwd : JumpsForward exe)
    (hchain : ChainTo exe chain h) (he : e ∈ chain) : e < exe.length := by
  rcases hchain.jump with ⟨x, hx⟩
  have hlast := hfwd.chain_lt (.tail' (hchain.leads e he) (hfwd.jumpTo hx).1)
  omega

/-- There is room for the chain in an array as long as the program. -/
theorem ChainTo.length_le {chain : List Nat} {h : Nat} (hfwd : JumpsForward exe)
    (hchain : ChainTo exe chain h) : chain.length ≤ exe.length := by
  have hnodup : chain.Nodup := hchain.sorted.imp fun h => Nat.ne_of_gt h
  have hsub : chain ⊆ List.range exe.length := by
    intro e he
    exact List.mem_range.mpr (hchain.lt_length hfwd he)
  have hle := (List.subperm_of_subset hnodup hsub).length_le
  rwa [List.length_range] at hle

/-- The loop of `optimise_chain` ends, since jumps lead forward, and it ends at
a jump that leads to no other one. `lookup` has the chain besides what it had
before. -/
theorem followChain_spec (hfwd : JumpsForward exe) (lookup₀ : Nat → Bool) :
    ∀ (fuel h : Nat) (chain : List Nat) (lookup : Nat → Bool), exe.length + 1 ≤ h + fuel →
      ChainTo exe chain h → (∀ k, lookup k = true ↔ lookup₀ k = true ∨ k ∈ chain) →
      ∃ chain' lookup' h', followChain exe fuel (fetch exe h) chain lookup =
        .ok (chain', lookup') ∧ ChainTo exe chain' h' ∧ Direct exe h' ∧
        (∀ k, lookup' k = true ↔ lookup₀ k = true ∨ k ∈ chain') ∧ ∀ e ∈ chain, e ∈ chain' := by
  intro fuel
  -- by induction on the fuel: every jump leads further on in the program
  induction fuel with
  | zero =>
      intro h chain lookup hfuel hchain _
      rcases hchain.jump with ⟨x, hx⟩
      have := (List.getElem?_eq_some_iff.mp hx).1
      omega
  | succ fuel ih =>
      intro h chain lookup hfuel hchain hlookup
      rcases hchain.jump with ⟨x, hx⟩
      rcases hfwd.jumpTo hx with ⟨hjump, hcast⟩
      have hlt := hfwd.jumpTo_lt hjump
      have hfetch := fetch_eq hx
      have hnext : fetch exe x = fetch exe (x.toNat : Int) := by rw [hcast]
      rw [followChain, if_pos (by rw [hfetch]; rfl), hfetch]
      show ∃ chain' lookup' h', (if (fetch exe x).isJmp then
        followChain exe fuel (fetch exe x) (x.toNat :: chain) (update lookup x.toNat true)
        else followChain exe fuel (fetch exe x) chain lookup) = _ ∧ _
      by_cases hj : (fetch exe x).isJmp = true
      · rw [if_pos hj, hnext]
        rw [hnext] at hj
        -- one jump more in the chain, and its mark
        have hlookup' : ∀ k, update lookup x.toNat true k = true ↔
            lookup₀ k = true ∨ k ∈ x.toNat :: chain := by
          intro k
          by_cases hk : k = x.toNat
          · simp [hk]
          · rw [update_of_ne hk, hlookup, List.mem_cons, or_iff_right hk]
        rcases ih x.toNat _ _ (by omega) (hchain.cons hfwd hjump hj) hlookup' with
          ⟨chain', lookup', h', hrun, hto, hdirect, hmarks, hsub⟩
        exact ⟨chain', lookup', h', hrun, hto, hdirect, hmarks,
          fun e he => hsub e (List.mem_cons_of_mem _ he)⟩
      · rw [if_neg hj]
        -- the chain ends here: the loop stops at an instruction that is no jump
        refine ⟨chain, lookup, h, ?_, hchain, ?_, hlookup, fun _ => id⟩
        · obtain ⟨fuel, rfl⟩ : ∃ f, fuel = f + 1 := ⟨fuel - 1, by omega⟩
          rw [followChain, if_neg hj]
        · intro y hy
          obtain rfl : x = y := by simpa using hx.symm.trans hy
          exact Bool.eq_false_iff.mpr hj

theorem foldl_setExeX_length (fin : Int) (l : List Nat) (exe : List Inst) :
    (l.foldl (setExeX fin) exe).length = exe.length := by
  induction l generalizing exe with
  | nil => rfl
  | cons a l ih => rw [List.foldl_cons, ih, setExeX, List.length_modify]

theorem getElem?_foldl_setExeX (fin : Int) (l : List Nat) (exe : List Inst) (i : Nat) :
    (l.foldl (setExeX fin) exe)[i]? =
      if i ∈ l then exe[i]?.map (Inst.setX fin) else exe[i]? := by
  induction l generalizing exe with
  | nil => rfl
  | cons a l ih =>
      rw [List.foldl_cons, ih, setExeX, List.getElem?_modify]
      by_cases e : a = i
      · subst e
        cases h : exe[a]? with
        | none => simp
        | some inst =>
            have hidem : Inst.setX fin (Inst.setX fin inst) = Inst.setX fin inst := by
              cases inst <;> rfl
            simp [hidem]
      · have e' : i ≠ a := fun h => e h.symm
        simp [e, e']

/-- What `optimise_chain` does at index `ix`: `chain` holds the jumps it has
followed, and they have become direct ones. -/
structure ChainCut (exe : List Inst) (lookup : Nat → Bool) (ix : Nat) (chain : List Nat)
    (exe' : List Inst) (lookup' : Nat → Bool) : Prop where
  follows : followChain exe (exe.length + 1) (fetch exe ix) [ix] (update lookup ix true) =
    .ok (chain, lookup')
  run : optimiseChain exe lookup ix = .ok (exe', lookup')
  cut : Shortcut exe exe'
  start : ix ∈ chain
  fits : chain.length ≤ exe.length
  inside : ∀ e ∈ chain, e < exe.length
  marks : ∀ k, lookup' k = true ↔ lookup k = true ∨ k ∈ chain
  direct : ∀ k, k ∈ chain ∨ Direct exe k → Direct exe' k

/-- Which instructions are jumps does not change. -/
theorem Shortcut.isJmp_fetch (h : Shortcut exe exe') (x : Int) :
    (fetch exe' x).isJmp = (fetch exe x).isJmp := by
  simp only [fetch, List.getD_eq_getElem?_getD]
  rcases h.inst x.toNat with heq | ⟨fin, heq, hchain, _⟩
  · rw [heq]
  · rcases TransGen.head'_iff.mp hchain with ⟨j, hj, _⟩
    rw [heq, show exe[x.toNat]? = some (.opJmp j) from hj]
    rfl

theorem optimiseChain_spec (hfwd : JumpsForward exe) (lookup : Nat → Bool) {ix : Nat}
    (hix : (fetch exe ix).isJmp = true) :
    ∃ chain exe' lookup', ChainCut exe lookup ix chain exe' lookup' := by
  have hmarks : ∀ k, update lookup ix true k = true ↔ lookup k = true ∨ k ∈ [ix] := by
    intro k
    by_cases hk : k = ix
    · simp [hk]
    · simp [hk]
  -- the chain of jumps is followed to its last jump `h`, which leads to `x`
  rcases followChain_spec hfwd lookup (exe.length + 1) ix [ix] (update lookup ix true) (by omega)
    (.singleton hix) hmarks with ⟨chain, lookup', h, hrun, hto, hdirect, hmarks', hsub⟩
  rcases hto.jump with ⟨x, hx⟩
  rcases hfwd.jumpTo hx with ⟨hjump, hcast⟩
  have hheadD : chain.headD ix = h := by
    rw [List.headD_eq_head?_getD, hto.head]
    rfl
  -- every jump of the chain now leads to `x`, where it led before on some path
  have hcut : Shortcut exe (chain.reverse.foldl (setExeX x) exe) := by
    refine ⟨foldl_setExeX_length _ _ _, ?_⟩
    intro i
    rw [getElem?_foldl_setExeX]
    by_cases hi : i ∈ chain.reverse
    · rw [if_pos hi]
      right
      have hpath : TransGen (JumpTo exe) i x.toNat :=
        TransGen.tail' (hto.leads i (List.mem_reverse.mp hi)) hjump
      refine ⟨x, ?_, hpath, by omega⟩
      rcases TransGen.head'_iff.mp hpath with ⟨j, hj, _⟩
      rw [hj]
      rfl
    · rw [if_neg hi]
      exact Or.inl rfl
  refine ⟨chain, _, lookup', hrun, ?_, hcut, hsub ix List.mem_cons_self, hto.length_le hfwd,
    fun e he => hto.lt_length hfwd he, hmarks', ?_⟩
  · have hfin : (fetch exe (chain.headD ix)).x = x := by
      rw [hheadD, fetch_eq hx]
      rfl
    simp only [optimiseChain, hrun, bind, Except.bind]
    rw [hfin]
    rfl
  · intro k hk y hy
    rw [hcut.isJmp_fetch]
    rw [getElem?_foldl_setExeX] at hy
    by_cases hmem : k ∈ chain.reverse
    · -- a jump of the chain leads where its last one led
      rw [if_pos hmem] at hy
      rcases Option.map_eq_some_iff.mp hy with ⟨inst, hinst, hset⟩
      have hlt : k < exe.length := hto.lt_length hfwd (List.mem_reverse.mp hmem)
      obtain rfl : y = x := by
        cases inst <;> cases hset
        rfl
      exact hdirect _ hx
    · -- a jump outside the chain is as it was
      rw [if_neg hmem] at hy
      rcases hk with hk | hk
      · exact absurd (List.mem_reverse.mpr hk) hmem
      · exact hk y hy

/-! ## What a shortcut preserves -/

theorem Shortcut.programOk (h : Shortcut exe exe') (hok : ProgramOk exe) : ProgramOk exe' := by
  constructor
  · have hlast := hok.last
    rw [List.getLast?_eq_getElem?] at hlast ⊢
    rw [h.length]
    rcases h.inst (exe.length - 1) with heq | ⟨fin, _, hchain, _⟩
    · rw [heq]
      exact hlast
    · have := hok.jumpsForward.chain_lt hchain
      omega
  · intro i inst hi
    rw [h.length]
    rcases h.inst i with heq | ⟨fin, heq, hchain, hpos⟩
    · rw [heq] at hi
      exact hok.leads i inst hi
    · rw [heq] at hi
      obtain rfl := Option.some.inj hi
      have := hok.jumpsForward.chain_lt hchain
      simp only [Inst.leads]
      omega

theorem Shortcut.jumpsForward (h : Shortcut exe exe') (hfwd : JumpsForward exe) :
    JumpsForward exe' := by
  constructor
  intro i x hi
  rw [h.length]
  rcases h.inst i with heq | ⟨fin, heq, hchain, hpos⟩
  · rw [heq] at hi
    exact hfwd.jmp hi
  · obtain rfl : fin = x := by simpa using heq.symm.trans hi
    have := hfwd.chain_lt hchain
    omega

theorem Shortcut.refl (exe : List Inst) : Shortcut exe exe := ⟨rfl, fun _ => Or.inl rfl⟩

/-- A jump of the new program stands for a chain of the old one. -/
theorem Shortcut.chain (h : Shortcut exe exe') {i j : Nat} (hij : TransGen (JumpTo exe') i j) :
    TransGen (JumpTo exe) i j := by
  have hstep : ∀ {i j : Nat}, JumpTo exe' i j → TransGen (JumpTo exe) i j := by
    intro i j hij
    rcases h.inst i with heq | ⟨fin, heq, hchain, _⟩
    · exact .single (heq.symm.trans hij)
    · obtain rfl : fin = j := by simpa using heq.symm.trans hij
      simpa using hchain
  induction hij with
  | single hij => exact hstep hij
  | tail _ hij ih => exact ih.trans (hstep hij)

theorem Shortcut.trans {exe'' : List Inst} (h : Shortcut exe exe') (h' : Shortcut exe' exe'') :
    Shortcut exe exe'' := by
  refine ⟨h'.length.trans h.length, ?_⟩
  intro i
  rcases h'.inst i with heq | ⟨fin, heq, hchain, hpos⟩
  · rw [heq]
    exact h.inst i
  · exact Or.inr ⟨fin, heq, h.chain hchain, hpos⟩

section

variable {icase ml : Bool} {s : List CChar}

theorem JumpTo.step {i j : Nat} (h : JumpTo exe i j) (p : Nat) :
    NfaStep icase ml s exe (i, p) (j, p) := .jmp (x := (j : Int)) h

/-- The only step from a jump is the jump. -/
theorem JumpTo.step_eq {i j p : Nat} {b : Nat × Nat} (h : JumpTo exe i j)
    (hstep : NfaStep icase ml s exe (i, p) b) : b = (j, p) := by
  cases hstep with
  | eat hi _ he =>
      obtain rfl := Option.some.inj (h.symm.trans hi)
      cases he
  | sol hi _ => cases h.symm.trans hi
  | eol hi _ => cases h.symm.trans hi
  | branchX hi => cases h.symm.trans hi
  | branchY hi => cases h.symm.trans hi
  | jmp hi =>
      obtain rfl : ((j : Nat) : Int) = _ := by simpa using h.symm.trans hi
      simp

theorem jumps_path {i j : Nat} (h : ReflTransGen (JumpTo exe) i j) (p : Nat) :
    NfaPath icase ml s exe (i, p) (j, p) := by
  induction h with
  | refl => exact .refl
  | tail _ hstep ih => exact ih.tail (hstep.step p)

/-- A step at an instruction is a step of every program that has it there. -/
theorem NfaStep.of_same {ip p : Nat} {b : Nat × Nat} (h : NfaStep icase ml s exe (ip, p) b)
    (hsame : exe'[ip]? = exe[ip]?) : NfaStep icase ml s exe' (ip, p) b := by
  cases h with
  | eat hi hp he => exact .eat (hsame.trans hi) hp he
  | sol hi h => exact .sol (hsame.trans hi) h
  | eol hi h => exact .eol (hsame.trans hi) h
  | branchX hi => exact .branchX (hsame.trans hi)
  | branchY hi => exact .branchY (hsame.trans hi)
  | jmp hi => exact .jmp (hsame.trans hi)

theorem Shortcut.path (h : Shortcut exe exe') {a b : Nat × Nat}
    (hpath : NfaPath icase ml s exe' a b) : NfaPath icase ml s exe a b := by
  induction hpath with
  | refl => exact .refl
  | @tail b c _ hstep ih =>
      refine ih.trans ?_
      rcases b with ⟨ip, p⟩
      rcases h.inst ip with heq | ⟨fin, heq, hchain, hpos⟩
      · exact .single (hstep.of_same heq.symm)
      · have hjump : JumpTo exe' ip fin.toNat := by
          rw [JumpTo, Int.toNat_of_nonneg hpos]
          exact heq
        rw [hjump.step_eq hstep]
        exact jumps_path hchain.to_reflTransGen p

/-- A path to `match` goes through the whole chain of jumps it meets, so the
shortcut only leaves jumps out. -/
theorem Shortcut.path_match (h : Shortcut exe exe') {a b : Nat × Nat}
    (hpath : NfaPath icase ml s exe a b) (hm : exe[b.1]? = some .opMatch) :
    ∀ f, ReflTransGen (JumpTo exe) a.1 f → NfaPath icase ml s exe' (f, a.2) b := by
  -- from `opMatch` backwards; `f` is where the jumps at the head of the path lead
  induction hpath using ReflTransGen.head_induction_on with
  | refl =>
      intro f hf
      rcases ReflTransGen.cases_head hf with hf | ⟨c, hc, _⟩
      · rw [← hf]
        exact .refl
      · cases hm.symm.trans hc
  | @head a c hstep _ ih =>
      rcases a with ⟨ip, p⟩
      intro f hf
      rcases ReflTransGen.cases_head hf with rfl | ⟨x, hx, hxf⟩
      -- the instruction is the same, or it is a jump of a chain and now goes to its end
      · rcases h.inst ip with heq | ⟨fin, heq, hchain, hpos⟩
        · exact .head (hstep.of_same heq) (ih c.1 .refl)
        · have hjump : JumpTo exe' ip fin.toNat := by
            rw [JumpTo, Int.toNat_of_nonneg hpos]
            exact heq
          rcases TransGen.head'_iff.mp hchain with ⟨x, hx, hxf⟩
          obtain rfl := hx.step_eq hstep
          exact .head (hjump.step p) (ih _ hxf)
      · obtain rfl := hx.step_eq hstep
        exact ih f hxf

theorem Shortcut.accepts_iff (h : Shortcut exe exe') (i j : Nat) :
    Accepts icase ml s exe' i j ↔ Accepts icase ml s exe i j := by
  constructor
  · rintro ⟨m, hm, hpath⟩
    refine ⟨m, ?_, h.path hpath⟩
    rcases h.inst m with heq | ⟨fin, heq, _, _⟩
    · rw [← heq]
      exact hm
    · cases hm.symm.trans heq
  · rintro ⟨m, hm, hpath⟩
    refine ⟨m, ?_, h.path_match hpath hm 0 .refl⟩
    rcases h.inst m with heq | ⟨fin, _, hchain, _⟩
    · rw [heq]
      exact hm
    · rcases TransGen.head'_iff.mp hchain with ⟨x, hx, _⟩
      cases hm.symm.trans hx

end

/-! ## All chains -/

/-- The states `optimise_chains` comes to: the program and `lookup` in front of
index `i`. -/
inductive ChainsAt (exe : List Inst) : Nat → List Inst → (Nat → Bool) → Prop where
  | start : ChainsAt exe 0 exe fun _ => false
  | skip {i : Nat} {exe₁ : List Inst} {lookup : Nat → Bool} : ChainsAt exe i exe₁ lookup →
      i + 1 < exe.length → ¬ ((fetch exe₁ i).isJmp ∧ (fetch exe₁ (fetch exe₁ i).x).isJmp ∧
        lookup i = false) → ChainsAt exe (i + 1) exe₁ lookup
  | chain {i : Nat} {exe₁ exe₂ : List Inst} {lookup lookup₂ : Nat → Bool} :
      ChainsAt exe i exe₁ lookup → i + 1 < exe.length → (fetch exe₁ i).isJmp ∧
        (fetch exe₁ (fetch exe₁ i).x).isJmp ∧ lookup i = false →
      optimiseChain exe₁ lookup i = .ok (exe₂, lookup₂) → ChainsAt exe (i + 1) exe₂ lookup₂

/-- What holds there: the jumps in front of `i` are direct, and those that
`lookup` has too. -/
structure ChainsInv (exe : List Inst) (i : Nat) (exe₁ : List Inst) (lookup : Nat → Bool) :
    Prop where
  cut : Shortcut exe exe₁
  passed : ∀ k < i, Direct exe₁ k
  marked : ∀ k, lookup k = true → k < exe.length ∧ Direct exe₁ k

theorem direct_of_not {i : Nat} (h : ¬ ((fetch exe i).isJmp ∧
    (fetch exe (fetch exe i).x).isJmp)) : Direct exe i := by
  intro x hx
  rw [fetch_eq hx] at h
  exact Bool.eq_false_iff.mpr fun hj => h ⟨rfl, hj⟩

/-- What `optimise_chain` does in a state of the run. -/
theorem ChainsInv.cuts {i : Nat} {exe₁ : List Inst} {lookup : Nat → Bool}
    (hfwd : JumpsForward exe) (h : ChainsInv exe i exe₁ lookup)
    (hj : (fetch exe₁ i).isJmp = true) :
    ∃ chain exe₂ lookup₂, ChainCut exe₁ lookup i chain exe₂ lookup₂ ∧
      ChainsInv exe (i + 1) exe₂ lookup₂ := by
  rcases optimiseChain_spec (h.cut.jumpsForward hfwd) lookup hj with ⟨chain, exe₂, lookup₂, hcut⟩
  refine ⟨chain, exe₂, lookup₂, hcut, h.cut.trans hcut.cut, ?_, ?_⟩
  · intro k hk
    apply hcut.direct
    by_cases hki : k = i
    · exact Or.inl (hki ▸ hcut.start)
    · exact Or.inr (h.passed k (by omega))
  · intro k hk
    rcases (hcut.marks k).mp hk with hk | hk
    · exact ⟨(h.marked k hk).1, hcut.direct k (Or.inr (h.marked k hk).2)⟩
    · exact ⟨h.cut.length ▸ hcut.inside k hk, hcut.direct k (Or.inl hk)⟩

theorem ChainsInv.skip {i : Nat} {exe₁ : List Inst} {lookup : Nat → Bool}
    (h : ChainsInv exe i exe₁ lookup) (hskip : ¬ ((fetch exe₁ i).isJmp ∧
      (fetch exe₁ (fetch exe₁ i).x).isJmp ∧ lookup i = false)) :
    ChainsInv exe (i + 1) exe₁ lookup := by
  refine ⟨h.cut, ?_, h.marked⟩
  intro k hk
  by_cases hki : k = i
  · subst hki
    cases hlook : lookup k with
    | true => exact (h.marked k hlook).2
    | false => exact direct_of_not fun hj => hskip ⟨hj.1, hj.2, hlook⟩
  · exact h.passed k (by omega)

theorem ChainsInv.start (exe : List Inst) : ChainsInv exe 0 exe fun _ => false :=
  ⟨.refl exe, fun k hk => absurd hk (by omega), fun _ hk => by cases hk⟩

/-- The invariant holds in every state of the run. -/
theorem ChainsAt.inv {i : Nat} {exe₁ : List Inst} {lookup : Nat → Bool}
    (hfwd : JumpsForward exe) (h : ChainsAt exe i exe₁ lookup) : ChainsInv exe i exe₁ lookup := by
  induction h with
  | start => exact .start exe
  | skip _ _ hskip ih => exact ih.skip hskip
  | chain _ _ hcond hrun ih =>
      rcases ih.cuts hfwd hcond.1 with ⟨_, exe₂, lookup₂, hcut, hinv⟩
      cases hcut.run.symm.trans hrun
      exact hinv

/-- The loop of `optimise_chains` ends, and the invariant holds behind it. -/
theorem optimiseChainsLoop_spec (hfwd : JumpsForward exe) : ∀ (left i : Nat) {exe₁ : List Inst}
    {lookup : Nat → Bool}, ChainsInv exe i exe₁ lookup → ∃ exe' lookup',
      optimiseChainsLoop (List.range' i left) exe₁ lookup = .ok exe' ∧
        ChainsInv exe (i + left) exe' lookup' := by
  intro left
  induction left with
  | zero => exact fun i {exe₁ lookup} h => ⟨exe₁, lookup, rfl, h⟩
  | succ left ih =>
      intro i exe₁ lookup h
      rw [List.range'_succ, optimiseChainsLoop, show i + (left + 1) = i + 1 + left by omega]
      split
      · next hcond =>
          rcases h.cuts hfwd hcond.1 with ⟨_, exe₂, lookup₂, hcut, hinv⟩
          simp only [hcut.run, bind, Except.bind]
          exact ih (i + 1) hinv
      · next hcond => exact ih (i + 1) (h.skip hcond)

/-- Where all jumps are direct there is nothing to do. -/
theorem optimiseChainsLoop_direct (h : ∀ i, Direct exe i) : ∀ (l : List Nat) (lookup : Nat → Bool),
    optimiseChainsLoop l exe lookup = .ok exe := by
  intro l
  induction l with
  | nil => exact fun _ => rfl
  | cons i l ih =>
      intro lookup
      rw [optimiseChainsLoop]
      refine (if_neg ?_).trans (ih lookup)
      rintro ⟨hj, hjj, _⟩
      rcases fetch_jmp hj with ⟨x, hx⟩
      rw [fetch_eq hx] at hjj
      exact absurd hjj (by rw [show (Inst.opJmp x).x = x from rfl, h i x hx]; exact Bool.false_ne_true)

/-- A shortcut changes jumps only. -/
theorem Shortcut.mem (h : Shortcut exe exe') {inst : Inst} (hinst : inst ∈ exe') :
    inst.isJmp = true ∨ inst ∈ exe := by
  rcases List.getElem?_of_mem hinst with ⟨i, hi⟩
  rcases h.inst i with heq | ⟨fin, heq, _, _⟩
  · rw [heq] at hi
    exact Or.inr (List.mem_of_getElem? hi)
  · rw [heq] at hi
    obtain rfl := Option.some.inj hi
    exact Or.inl rfl

/-- `optimise_chains` ends, it makes shortcuts, and leaves no chain behind. -/
theorem optimiseChains_shortcut (hfwd : JumpsForward exe) (hlast : exe.getLast? = some .opMatch) :
    ∃ exe', optimiseChains exe = .ok exe' ∧ Shortcut exe exe' ∧ ∀ i, Direct exe' i := by
  rcases optimiseChainsLoop_spec hfwd (exe.length - 1) 0 (.start exe) with
    ⟨exe', lookup', hrun, hinv⟩
  rw [Nat.zero_add] at hinv
  refine ⟨exe', by rw [optimiseChains, List.range_eq_range']; exact hrun, hinv.cut, ?_⟩
  intro i x hi
  -- the loop stops in front of the last instruction, which is no jump
  have hlt := (List.getElem?_eq_some_iff.mp hi).1
  rw [hinv.cut.length] at hlt
  refine hinv.passed i ?_ x hi
  by_contra hge
  obtain rfl : i = exe.length - 1 := by omega
  rw [List.getLast?_eq_getElem?] at hlast
  rcases hinv.cut.inst (exe.length - 1) with heq | ⟨_, _, hchain, _⟩
  · cases hlast.symm.trans (heq.symm.trans hi)
  · have := hfwd.chain_lt hchain
    omega

/-- What `optimise_chains` makes of a program is well made, has the same
instructions apart from jumps, and accepts the same. -/
theorem optimiseChains_spec (hok : ProgramOk exe) :
    ∃ exe', optimiseChains exe = .ok exe' ∧ ProgramOk exe' ∧
      (∀ inst ∈ exe', inst.isJmp = true ∨ inst ∈ exe) ∧
      ∀ icase ml s i j, Accepts icase ml s exe' i j ↔ Accepts icase ml s exe i j := by
  rcases optimiseChains_shortcut hok.jumpsForward hok.last with ⟨exe', hrun, hcut, _⟩
  exact ⟨exe', hrun, hcut.programOk hok, fun _ => hcut.mem, fun _ _ _ => hcut.accepts_iff⟩

/-! ## The whole pass -/

/-- The program `exe'` is `exe` with every jump leading to the first instruction
of its chain that is no jump. -/
structure Unchained (exe exe' : List Inst) : Prop where
  length : exe'.length = exe.length
  other : ∀ (i : Nat) (inst : Inst), exe[i]? = some inst → inst.isJmp = false → exe'[i]? = some inst
  jump : ∀ (i : Nat) (x : Int), exe[i]? = some (.opJmp x) → ∃ (fin : Nat) (inst : Inst),
    exe'[i]? = some (.opJmp fin) ∧ TransGen (JumpTo exe) i fin ∧ exe[fin]? = some inst ∧
      inst.isJmp = false

theorem Shortcut.unchained (hfwd : JumpsForward exe) (h : Shortcut exe exe')
    (hdirect : ∀ i, Direct exe' i) : Unchained exe exe' := by
  refine ⟨h.length, ?_, ?_⟩
  · intro i inst hi hj
    rcases h.inst i with heq | ⟨_, _, hchain, _⟩
    · exact heq.trans hi
    · rcases TransGen.head'_iff.mp hchain with ⟨j, hij, _⟩
      cases hij.symm.trans hi
      cases hj
  · intro i x hi
    obtain ⟨fin, hfin, hchain⟩ : ∃ fin : Nat, exe'[i]? = some (.opJmp fin) ∧
        TransGen (JumpTo exe) i fin := by
      rcases h.inst i with heq | ⟨fin, heq, hchain, hpos⟩
      · rcases hfwd.jumpTo hi with ⟨hjump, _⟩
        exact ⟨x.toNat, heq.trans hjump, .single hjump⟩
      · exact ⟨fin.toNat, by rw [heq, Int.toNat_of_nonneg hpos], hchain⟩
    have hlt := (hfwd.chain_lt hchain).2
    have hinst := List.getElem?_eq_getElem hlt
    refine ⟨fin, _, hfin, hchain, hinst, ?_⟩
    rw [← fetch_eq hinst, ← h.isJmp_fetch]
    exact hdirect i _ hfin

/-- `optimise_chains` on a program whose jumps lead forward and that ends with
`match`. Whenever it calls `optimise_chain` its two arrays are long enough. It
ends with a program in which every jump leads to the first instruction of its
chain that is no jump, on which it would change nothing more, and which accepts
what the program accepted. -/
theorem optimiseChains_preserves (hlast : exe.getLast? = some .opMatch)
    (hjmp : ∀ (i : Nat) (x : Int), exe[i]? = some (.opJmp x) → (i : Int) < x ∧ x < exe.length) :
    (∀ i exe₁ lookup, ChainsAt exe i exe₁ lookup → (fetch exe₁ i).isJmp = true →
      ∃ chain lookup', followChain exe₁ (exe₁.length + 1) (fetch exe₁ i) [i]
          (update lookup i true) = .ok (chain, lookup') ∧ chain.length ≤ exe.length ∧
        (∀ e ∈ chain, e < exe.length) ∧ ∀ k, lookup' k = true → k < exe.length) ∧
    ∃ exe', optimiseChains exe = .ok exe' ∧ Unchained exe exe' ∧ (∀ i, Direct exe' i) ∧
      optimiseChains exe' = .ok exe' ∧
      ∀ icase ml s i j, Accepts icase ml s exe' i j ↔ Accepts icase ml s exe i j := by
  have hfwd : JumpsForward exe := ⟨fun {i x} => hjmp i x⟩
  constructor
  · intro i exe₁ lookup hat hj
    have hinv := hat.inv hfwd
    rcases hinv.cuts hfwd hj with ⟨chain, _, lookup', hcut, hinv'⟩
    refine ⟨chain, lookup', hcut.follows, ?_, ?_, fun k hk => (hinv'.marked k hk).1⟩
    · rw [← hinv.cut.length]
      exact hcut.fits
    · rw [← hinv.cut.length]
      exact hcut.inside
  · rcases optimiseChains_shortcut hfwd hlast with ⟨exe', hrun, hcut, hdirect⟩
    exact ⟨exe', hrun, hcut.unchained hfwd hdirect, hdirect,
      optimiseChainsLoop_direct hdirect _ _, fun _ _ _ => hcut.accepts_iff⟩

/-- Three jumps in a row, each to the next one. -/
theorem optimiseChains_preserves_row :
    ∃ exe', optimiseChains [.opJmp 1, .opJmp 2, .opJmp 3, .opMatch] = .ok exe' ∧
      Unchained [.opJmp 1, .opJmp 2, .opJmp 3, .opMatch] exe' ∧ (∀ i, Direct exe' i) ∧
      optimiseChains exe' = .ok exe' ∧ ∀ icase ml s i j, Accepts icase ml s exe' i j ↔
        Accepts icase ml s [.opJmp 1, .opJmp 2, .opJmp 3, .opMatch] i j := by
  refine (optimiseChains_preserves rfl ?_).2
  intro i x hi
  rcases i with _ | _ | _ | _ | i
  · cases hi
    decide
  · cases hi
    decide
  · cases hi
    decide
  · cases hi
  · cases hi

end

end Rxvm
