import Rxvm.FastPath
import Rxvm.Resume

/-!
# Rxvm.FileSearch — searching files and strings

Without a fixed substring `rxvm_fsearch` runs the machine from the offset of the
file on. What is in front of the offset plays no part unless the program asks
for the start of a line, so a call finds what `rxvm_search` finds in the rest of
the content. Repeated calls, each from behind the match before, then come to the
same matches as the loop of examples/rxvm_search.c.
-/

namespace Rxvm

open Relation

/-! ## Behind a prefix of the input -/

/-- The program does not ask for the start of a line. -/
def SolFree (exe : List Inst) : Prop := ∀ ip : Nat, exe[ip]? ≠ some .opSol

section

variable {icase ml ng : Bool} {u v : List CChar} {exe : List Inst} {a b i j r p : Nat}

theorem at'_append_right (k : Nat) : at' (u ++ v) (u.length + k) = at' v k := by
  simp [at', List.getElem?_append_right]

theorem eolAt_append : EolAt ml (u ++ v) (u.length + i) ↔ EolAt ml v i := by
  simp only [EolAt, at'_append_right, List.length_append, Nat.add_left_cancel_iff]

/-- A step behind a prefix. -/
theorem nfaStep_append (hsol : SolFree exe) :
    NfaStep icase ml (u ++ v) exe (a, u.length + i) (b, u.length + j) ↔
      NfaStep icase ml v exe (a, i) (b, j) := by
  have hpos : ∀ {k : Nat}, u.length + i + 1 = u.length + k → k = i + 1 := by
    intro k hk
    omega
  constructor
  · generalize hx : (a, u.length + i) = x
    generalize hy : (b, u.length + j) = y
    intro h
    cases h with
    | sol hi => exact absurd hi (hsol _)
    | eat hi hp he =>
        cases hx
        obtain ⟨rfl, hj⟩ := Prod.mk.inj hy
        obtain rfl := hpos hj.symm
        rw [at'_append_right] at he
        exact .eat hi (by simpa using hp) he
    | eol hi he =>
        cases hx
        obtain ⟨rfl, hj⟩ := Prod.mk.inj hy
        obtain rfl := Nat.add_left_cancel hj
        exact .eol hi (eolAt_append.mp he)
    | branchX hi =>
        cases hx
        obtain ⟨rfl, hj⟩ := Prod.mk.inj hy
        obtain rfl := Nat.add_left_cancel hj
        exact .branchX hi
    | branchY hi =>
        cases hx
        obtain ⟨rfl, hj⟩ := Prod.mk.inj hy
        obtain rfl := Nat.add_left_cancel hj
        exact .branchY hi
    | jmp hi =>
        cases hx
        obtain ⟨rfl, hj⟩ := Prod.mk.inj hy
        obtain rfl := Nat.add_left_cancel hj
        exact .jmp hi
  · intro h
    cases h with
    | sol hi => exact absurd hi (hsol _)
    | eat hi hp he => exact .eat hi (by simpa using hp) (by rwa [at'_append_right])
    | eol hi he => exact .eol hi (eolAt_append.mpr he)
    | branchX hi => exact .branchX hi
    | branchY hi => exact .branchY hi
    | jmp hi => exact .jmp hi

theorem reach_append (hsol : SolFree exe) :
    Reach icase ml (u ++ v) exe (u.length + r) (u.length + p) a ↔ Reach icase ml v exe r p a := by
  constructor
  · intro h
    have hall : ∀ y : Nat × Nat, NfaPath icase ml (u ++ v) exe (0, u.length + r) y →
        ∃ q, y.2 = u.length + q ∧ NfaPath icase ml v exe (0, r) (y.1, q) := by
      intro y hy
      -- along the path the positions differ by the length of `u`
      induction hy with
      | refl => exact ⟨r, rfl, .refl⟩
      | @tail x y _ hstep ih =>
          rcases ih with ⟨q, hq, hpath⟩
          obtain ⟨x, _⟩ := x
          obtain ⟨y, k⟩ := y
          obtain rfl : _ = u.length + q := hq
          have hle := hstep.pos_le.1
          obtain ⟨q', rfl⟩ : ∃ q', k = u.length + q' := ⟨k - u.length, by simp only at hle; omega⟩
          exact ⟨q', rfl, hpath.tail ((nfaStep_append hsol).mp hstep)⟩
    rcases hall _ h with ⟨q, hq, hpath⟩
    obtain rfl := Nat.add_left_cancel hq
    exact hpath
  · intro h
    have hall : ∀ y : Nat × Nat, NfaPath icase ml v exe (0, r) y →
        NfaPath icase ml (u ++ v) exe (0, u.length + r) (y.1, u.length + y.2) := by
      intro y hy
      induction hy with
      | refl => exact .refl
      | tail _ hstep ih => exact ih.tail ((nfaStep_append hsol).mpr hstep)
    exact hall _ h

theorem matched_append (hsol : SolFree exe) :
    Matched icase ml (u ++ v) exe (u.length + r) (u.length + p) ↔ Matched icase ml v exe r p :=
  exists_congr fun _ => and_congr_right fun _ => reach_append hsol

/-- A match behind the prefix ends behind it. -/
theorem Matched.exists_append (hsol : SolFree exe) {q : Nat}
    (h : Matched icase ml (u ++ v) exe (u.length + r) q) :
    ∃ p, q = u.length + p ∧ Matched icase ml v exe r p := by
  have hge := h.ge
  obtain ⟨p, rfl⟩ : ∃ p, q = u.length + p := ⟨q - u.length, by omega⟩
  exact ⟨p, rfl, (matched_append hsol).mp h⟩

theorem nextAttempt_append (hsol : SolFree exe) {x : Nat} :
    NextAttempt icase ml (u ++ v) exe (u.length + r) x ↔
      ∃ r', x = u.length + r' ∧ NextAttempt icase ml v exe r r' := by
  constructor
  · rintro ⟨hno, q, hrq, hq, ⟨w, hw⟩, hdead, rfl⟩
    obtain ⟨q, rfl⟩ : ∃ p, q = u.length + p := ⟨q - u.length, by omega⟩
    refine ⟨max (r + 1) q, by omega, fun p hm => hno _ ((matched_append hsol).mpr hm), q, by omega,
      by simpa using hq, ⟨w, (reach_append hsol).mp hw⟩, fun w' hw' => ?_, rfl⟩
    exact hdead w' ((reach_append (p := q + 1) hsol).mpr hw')
  · rintro ⟨_, rfl, hno, q, hrq, hq, ⟨w, hw⟩, hdead, rfl⟩
    refine ⟨?_, u.length + q, by omega, by simpa using hq, ⟨w, (reach_append hsol).mpr hw⟩,
      fun w' hw' => ?_, by omega⟩
    · intro p hm
      rcases hm.exists_append hsol with ⟨k, _, hk⟩
      exact hno k hk
    · exact hdead w' ((reach_append (p := q + 1) hsol).mp hw')

theorem attempts_append (hsol : SolFree exe) {x : Nat} :
    ReflTransGen (NextAttempt icase ml (u ++ v) exe) u.length x ↔
      ∃ r', x = u.length + r' ∧ Attempted icase ml v exe r' := by
  constructor
  · intro h
    induction h with
    | refl => exact ⟨0, rfl, .refl⟩
    | tail _ hstep ih =>
        rcases ih with ⟨r', rfl, hpath⟩
        rcases (nextAttempt_append hsol).mp hstep with ⟨r'', rfl, hnext⟩
        exact ⟨r'', rfl, hpath.tail hnext⟩
  · rintro ⟨r', rfl, h⟩
    induction h with
    | refl => exact .refl
    | tail _ hstep ih => exact ih.tail ((nextAttempt_append hsol).mpr ⟨_, rfl, hstep⟩)

/-- Where a search ends is determined. -/
theorem SearchEnd.unique {s : List CChar} {tm tm' : Threads}
    (h : SearchEnd icase ml s exe ng r tm) (h' : SearchEnd icase ml s exe ng r tm') :
    tm.matchEnd = tm'.matchEnd ∧ (tm'.matchEnd ≠ 0 → tm.matchStart = tm'.matchStart) := by
  rcases h with ⟨a, q, hpath, hm, hkeeps, hstart, hme⟩ | ⟨h0, hnone⟩
  · rcases h' with ⟨b, q', hpath', hm', hkeeps', hstart', hme'⟩ | ⟨_, hnone'⟩
    · obtain rfl := attempted_matched_unique hpath hm hpath' hm'
      have hq : q = q' := (hkeeps q' hm').antisymm (hkeeps' q hm)
      rw [hstart, hstart', hme, hme', hq]
      exact ⟨rfl, fun _ => rfl⟩
    · exact absurd hm (hnone' a q hpath)
  · rcases h' with ⟨b, q', hpath', hm', _⟩ | ⟨h0', _⟩
    · exact absurd hm' (hnone b q' hpath')
    · exact ⟨h0.trans h0'.symm, fun hend => absurd h0' hend⟩

/-- The end of a search of the rest, as one behind the prefix. -/
def Threads.behind (p : Nat) (tm : Threads) : Threads :=
  { tm with
    matchStart := p + tm.matchStart
    matchEnd := if tm.matchEnd = 0 then 0 else p + tm.matchEnd }

theorem SearchEnd.behind (hsol : SolFree exe) {tm : Threads}
    (h : SearchEnd icase ml v exe ng 0 tm) :
    SearchEnd icase ml (u ++ v) exe ng u.length (tm.behind u.length) := by
  rcases h with ⟨a, q, hpath, hm, hkeeps, hstart, hme⟩ | ⟨h0, hnone⟩
  · refine .inl ⟨u.length + a, u.length + q, (attempts_append hsol).mpr ⟨a, rfl, hpath⟩,
      (matched_append hsol).mpr hm, ?_, congrArg (u.length + ·) hstart, ?_⟩
    · intro q' hm'
      rcases hm'.exists_append hsol with ⟨k, rfl, hk⟩
      have hkeep := hkeeps k hk
      unfold Keeps at hkeep ⊢
      cases ng with
      | true => exact Nat.add_le_add_left hkeep _
      | false => exact Nat.add_le_add_left hkeep _
    · show (if tm.matchEnd = 0 then 0 else u.length + tm.matchEnd) = _
      rw [hme, if_neg (Nat.succ_ne_zero q), Nat.add_assoc]
  · refine .inr ⟨if_pos h0, ?_⟩
    intro x q hpath hm
    rcases (attempts_append hsol).mp hpath with ⟨r', rfl, hpath'⟩
    rcases hm.exists_append hsol with ⟨k, _, hk⟩
    exact hnone r' k hpath' hk

end

/-- The end that is recorded is in the input, or just behind it. -/
theorem SearchEnd.end_le {s : List CChar} {icase ml ng : Bool} {exe : List Inst} {tm : Threads}
    (h : SearchEnd icase ml s exe ng 0 tm) : tm.matchEnd ≤ s.length + 1 := by
  rcases h with ⟨a, q, hpath, hm, _, _, hme⟩ | ⟨h0, _⟩
  · have hq := hm.le_length (Attempted.le_length hpath)
    omega
  · omega

/-! ## One call -/

/-- What `rxvm_fsearch` reports of a file of `len` characters is what
`rxvm_search` reports of its content from `p` on. -/
structure SameMatch (p len : Nat) (r : FsearchResult) (result : SearchResult) : Prop where
  ret : r.ret = result.ret
  offset : r.ret ≠ 0 → result.start = some ((r.offset : Int) - p)
  size : r.ret ≠ 0 → ∃ size, r.matchSize = some size ∧
    result.fin = some ((r.offset : Int) - p + size - 1)
  next : r.ret ≠ 0 → ∀ size, r.matchSize = some size →
    (p : Int) ≤ r.offset + size ∧ r.offset + size ≤ len

section

variable {compiled : Compiled} {content : List CChar} {flags : Flags} {p : Nat}

theorem fsearchResult_same {tm tm' : Threads} (fp : File) (hend : tm.matchEnd =
      if tm'.matchEnd = 0 then 0 else p + tm'.matchEnd)
    (hstart : tm.matchEnd ≠ 0 → tm.matchStart = p + tm'.matchStart) {len : Nat}
    (hlen : p + tm'.matchEnd ≤ len + 1) :
    SameMatch p len (fsearchResult tm fp) (searchResult tm') := by
  -- no match, on either side
  by_cases h0 : tm'.matchEnd = 0
  · rw [if_pos h0] at hend
    have hres : fsearchResult tm fp = ⟨0, none, fp.offset⟩ := by
      unfold fsearchResult
      rw [if_neg (not_not.mpr hend)]
    rw [hres, searchResult_missing h0]
    exact ⟨rfl, fun h => absurd rfl h, fun h => absurd rfl h, fun h => absurd rfl h⟩
  · rw [if_neg h0] at hend
    have hne : tm.matchEnd ≠ 0 := by omega
    have hres : fsearchResult tm fp =
        ⟨1, some ((tm.matchEnd : Int) - tm.matchStart - 1), tm.matchStart⟩ := by
      unfold fsearchResult
      rw [if_pos hne]
      rfl
    have hres' : searchResult tm' =
        ⟨1, some (tm'.matchStart : Int), some ((tm'.matchEnd : Int) - 2)⟩ := if_neg h0
    rw [hres, hres', hend, hstart hne]
    refine ⟨rfl, fun _ => ?_, fun _ => ⟨_, rfl, ?_⟩, ?_⟩
    · simp
    · push_cast
      congr 1
      omega
    · rintro _ size hsize
      cases hsize
      push_cast
      omega

/-- A call of `rxvm_fsearch` without a fixed substring finds what `rxvm_search`
finds in the rest of the content. -/
theorem rxvmFsearch_rest (b : Bmh) (fileBuffer : FileBuffer)
    (hprogram : compiled.simple = none) (hlfix : compiled.lfix = none)
    (hwf : WellFormed compiled.exe)
    (hfile : ∀ c ∈ content, c ≠ 0 ∧ c ≠ eofChar) (hp : p ≤ content.length)
    (hsol : SolFree compiled.exe) (flags : Flags) :
    ∃ r result, rxvmFsearch b fileBuffer compiled ⟨content, p⟩ flags = .ok r ∧
      rxvmSearch compiled (content.drop p) flags = some result ∧
      SameMatch p content.length r result := by
  have hcoupled : Coupled content p 0 (FileBuf.fresh fileBuffer ⟨content, p⟩) :=
    @Coupled.start (FileBuf.fresh fileBuffer ⟨content, p⟩) fileBuffer.2 rfl hp
  rcases @executeFile_search content p compiled.exe flags (FileBuf.fresh fileBuffer ⟨content, p⟩)
    { fsearchThreads flags with chars := p } hwf hfile hcoupled hp rfl rfl rfl rfl rfl with
    ⟨tm, d, hexec, _, hout⟩
  have hrest : NoNul (content.drop p) := fun c hc => (hfile c (List.mem_of_mem_drop hc)).1
  rcases vmExecute_searchEnd hwf hrest flags with ⟨res, hres, hout'⟩
  have hlen : (List.replicate p (chr ' ')).length = p := List.length_replicate
  -- the machine on the file cannot tell what is in front of `p`
  have hbehind := hout'.behind (u := List.replicate p (chr ' ')) hsol
  rw [hlen] at hbehind
  rcases hout.unique hbehind with ⟨hend, hstart⟩
  have hle := hout'.end_le
  rw [List.length_drop] at hle
  refine ⟨fsearchResult tm d.fp, searchResult res.2.tm, ?_, ?_,
    fsearchResult_same d.fp hend (fun h => hstart (hend ▸ h)) (by omega)⟩
  · have hhanded : handed compiled = none := by
      unfold handed
      rw [hprogram, hlfix]
      rfl
    unfold rxvmFsearch
    simp only [hhanded, hexec, bind, Except.bind]
    rfl
  · unfold rxvmSearch
    simp only [hprogram, hres]
    rfl

/-! ## Repeated searches -/

/-- Repeated calls of `rxvm_fsearch`, until one finds nothing, and at most `fuel` of
them: where each match starts, and its size. The next call starts behind it. Call
number `n` finds `calls n`: the statics of `bmh.c` as they have been left, and
whatever its array holds. -/
def repeatFsearch (compiled : Compiled) (flags : Flags) :
    Nat → (Nat → Bmh × FileBuffer) → File → Except Fault (List (Int × Int))
  | 0, _, _ => .ok []
  | fuel + 1, calls, fp => do
    let r ← rxvmFsearch (calls 0).1 (calls 0).2 compiled fp flags
    if r.ret = 0 then return []
    else
      let size := r.matchSize.getD 0
      let rest ← repeatFsearch compiled flags fuel (fun n => calls (n + 1))
        (fp.seek ((r.offset : Int) + size).toNat)
      return ((r.offset : Int), size) :: rest

/-- The loop of examples/rxvm_search.c, for at most `fuel` matches, the same way; `p`
characters are in front of the input. -/
def findInString (compiled : Compiled) (flags : Flags) :
    Nat → Nat → List CChar → Option (List (Int × Int))
  | 0, _, _ => some []
  | fuel + 1, p, input => do
    let r ← rxvmSearch compiled input flags
    if r.ret = 0 then return []
    else
      let start := r.start.getD 0
      let next := (r.fin.getD 0 + 1).toNat
      let rest ← findInString compiled flags fuel (p + next) (input.drop next)
      return (p + start, r.fin.getD 0 + 1 - start) :: rest

/-- Both find the same matches, in the same order. -/
theorem repeatFsearch_eq_findInString {g g' : Statics} {exp : List CChar}
    (h : rxvmCompile g exp = .ok (.ok compiled, g')) (hprogram : compiled.simple = none)
    (hlfix : compiled.lfix = none) (hsol : SolFree compiled.exe)
    (hfile : ∀ c ∈ content, c ≠ 0 ∧ c ≠ eofChar) (flags : Flags) (fuel : Nat) :
    ∀ (calls : Nat → Bmh × FileBuffer), ∀ p ≤ content.length,
      ∃ l, repeatFsearch compiled flags fuel calls ⟨content, p⟩ = .ok l ∧
      findInString compiled flags fuel p (content.drop p) = some l := by
  have hwf := rxvmCompile_wellFormed h hprogram
  -- by induction on the rounds: file position and suffix move on together
  induction fuel with
  | zero => exact fun calls p _ => ⟨[], rfl, rfl⟩
  | succ fuel ih =>
      intro calls p hp
      rcases rxvmFsearch_rest (calls 0).1 (calls 0).2 hprogram hlfix hwf hfile hp hsol flags with
        ⟨r, result, hfsearch, hsearch, hsame⟩
      unfold repeatFsearch findInString
      rw [hfsearch, hsearch]
      by_cases hret : r.ret = 0
      · have hret' : result.ret = 0 := hsame.ret.symm.trans hret
        refine ⟨[], ?_, ?_⟩
        · exact if_pos hret
        · exact if_pos hret'
      · have hret' : result.ret ≠ 0 := fun h0 => hret (hsame.ret.trans h0)
        rcases hsame.size hret with ⟨size, hsize, hfin⟩
        have hstart := hsame.offset hret
        have hnext := hsame.next hret size hsize
        -- the next calls start at the same place
        obtain ⟨q, hq⟩ : ∃ q : Nat, (r.offset : Int) + size = p + q :=
          ⟨((r.offset : Int) + size - p).toNat, by omega⟩
        rcases ih (fun n => calls (n + 1)) (p + q) (by omega) with ⟨l, hfiles, hstrings⟩
        have hseek : ((r.offset : Int) + size).toNat = p + q := by omega
        have hdrop : ((r.offset : Int) - p + size - 1 + 1).toNat = q := by omega
        rw [← List.drop_drop] at hstrings
        refine ⟨((r.offset : Int), size) :: l, ?_, ?_⟩
        · refine (if_neg hret).trans ?_
          rw [hsize]
          show (repeatFsearch compiled flags fuel (fun n => calls (n + 1))
            ⟨content, ((r.offset : Int) + size).toNat⟩ >>= _) = _
          rw [hseek, hfiles]
          rfl
        · refine (if_neg hret').trans ?_
          rw [hstart, hfin]
          show (findInString compiled flags fuel (p + ((r.offset : Int) - p + size - 1 + 1).toNat)
            ((content.drop p).drop ((r.offset : Int) - p + size - 1 + 1).toNat) >>= _) = _
          rw [hdrop, hstrings]
          refine congrArg (fun x => some (x :: l)) ?_
          show ((p : Int) + ((r.offset : Int) - p), (r.offset : Int) - p + size - 1 + 1 -
            ((r.offset : Int) - p)) = _
          congr 1 <;> omega

/-- The expression `[ab]+` and the content `xabcb`. -/
theorem repeatFsearch_eq_findInString_class : ∃ calls compiled g' l,
    rxvmCompile Statics.init [91, 97, 98, 93, 43] = .ok (.ok compiled, g') ∧
      repeatFsearch compiled {} 3 calls ⟨[120, 97, 98, 99, 98], 0⟩ = .ok l ∧
      findInString compiled {} 3 0 [120, 97, 98, 99, 98] = some l := by
  have h : ∃ compiled g', rxvmCompile Statics.init [91, 97, 98, 93, 43] =
      .ok (.ok compiled, g') ∧ compiled.simple = none ∧ compiled.lfix = none ∧
      compiled.exe = [.opClass [97, 98], .opBranch 0 2, .opMatch] := ⟨_, _, rfl, rfl, rfl, rfl⟩
  rcases h with ⟨compiled, g', h, hprogram, hlfix, hexe⟩
  have hsol : SolFree compiled.exe := by
    intro ip hip
    have hmem := List.mem_of_getElem? hip
    rw [hexe] at hmem
    simp at hmem
  have hfile : ∀ c ∈ ([120, 97, 98, 99, 98] : List CChar), c ≠ 0 ∧ c ≠ eofChar := by
    decide +kernel
  rcases repeatFsearch_eq_findInString h hprogram hlfix hsol hfile {} 3
    (fun _ => (Bmh.zero, FileBuffer.zero)) 0 (Nat.zero_le _) with ⟨l, hfiles, hstrings⟩
  exact ⟨_, compiled, g', l, h, hfiles, hstrings⟩

end

end Rxvm
