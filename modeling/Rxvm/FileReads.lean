import Rxvm.Fsearch
import Rxvm.Scan

/-!
# Rxvm.FileReads — what getchar_file delivers

`getchar_file` reads through a buffer that is filled again when it has been
used up. `bufpos` belongs to `rxvm_fsearch`, not to a run of `vm_execute`: a run
that starts with an empty buffer is given the file from its offset on, and a
run behind a failed one starts with what the failed one has left.
-/

namespace Rxvm

/-! ## The characters of a run -/

/-- The buffer behind a call of `getchar_file`. -/
def nextBuf (d : FileBuf) : FileBuf := (getcharFile d).2

/-- The character of the `k`-th call. -/
def delivered (d : FileBuf) (k : Nat) : CChar := (getcharFile (nextBuf^[k] d)).1

/-- The character of the `k`-th call is the one at offset `p + k`, and it is
`EOF` exactly at the end of the file. -/
structure FedRight (content : List CChar) (p : Nat) (d : FileBuf) (k : Nat) : Prop where
  byte : p + k < content.length → delivered d k = at' content (p + k)
  eof : delivered d k = eofChar ↔ content.length ≤ p + k

/-- A run of `vm_execute` is fed right: all the characters of its calls are, and
it makes so many calls as it counts. -/
structure RunFed (exe : List Inst) (tm : Threads) (d : FileBuf) : Prop where
  feeds : ∀ k, k = 0 ∨ tm.chars + k ≤ d.fp.content.length → FedRight d.fp.content tm.chars d k
  ends : ∀ tm' d', executeFile exe d tm = .ok (tm', d') →
    ∃ n, tm'.chars = tm.chars + n ∧ d' = nextBuf^[n] d ∧
      ∀ k < n, k = 0 ∨ tm.chars + k ≤ d.fp.content.length

/-! ## The buffer -/

/-- After `n` calls of a run that has started at offset `p`, what is left in the
buffer is the file from `p + n` on, and the file stands behind it. -/
structure Coupled (content : List CChar) (p n : Nat) (d : FileBuf) : Prop where
  file : d.fp.content = content
  length : d.fbuf.length = fbufSize
  le : d.bufpos ≤ fbufSize
  offset : d.fp.offset = min content.length (p + n + (fbufSize - d.bufpos))
  rest : ∀ i, d.bufpos ≤ i → i < fbufSize →
    (p + n + (i - d.bufpos) < content.length →
      at' d.fbuf i = at' content (p + n + (i - d.bufpos))) ∧
    (p + n + (i - d.bufpos) = content.length → at' d.fbuf i = eofChar)
  aligned : fbufSize ∣ n + (fbufSize - d.bufpos)

/-- The buffer that is read from: a used up one is filled again. -/
def FileBuf.filled (d : FileBuf) : FileBuf :=
  if d.bufpos = fbufSize then
    let (chars, fp) := d.fp.fread fbufSize
    let fbuf := chars ++ d.fbuf.drop chars.length
    { fbuf := if chars.length < fbufSize then fbuf.set chars.length eofChar else fbuf,
      bufpos := 0, fp := fp }
  else d

section

variable {content : List CChar} {p n i : Nat} {d : FileBuf}

theorem getcharFile_eq (d : FileBuf) : getcharFile d =
    (at' d.filled.fbuf d.filled.bufpos, { d.filled with bufpos := d.filled.bufpos + 1 }) := rfl

/-- A run with an empty buffer. -/
theorem Coupled.start (hlength : d.fbuf.length = fbufSize) (hpos : d.bufpos = fbufSize)
    (hle : d.fp.offset ≤ d.fp.content.length) : Coupled d.fp.content d.fp.offset 0 d := by
  constructor
  · rfl
  · exact hlength
  · exact hpos.le
  · rw [hpos, Nat.sub_self]
    exact (Nat.min_eq_right hle).symm
  · intro i hi hlt
    omega
  · rw [hpos]
    exact Nat.dvd_of_mod_eq_zero rfl

/-- What `fread` puts into the buffer, with the `EOF` behind it. -/
theorem at'_refill {chars old : List CChar} (hold : old.length = fbufSize)
    (hchars : chars.length ≤ fbufSize) (hi : i < fbufSize) :
    at' (if chars.length < fbufSize then (chars ++ old.drop chars.length).set chars.length eofChar
      else chars ++ old.drop chars.length) i =
      if i < chars.length then at' chars i else if i = chars.length then eofChar else at' old i := by
  have happ : ∀ i, at' (chars ++ old.drop chars.length) i =
      if i < chars.length then at' chars i else at' old i := by
    intro i
    unfold at'
    rw [List.getD_eq_getElem?_getD, List.getElem?_append]
    split
    · rw [List.getD_eq_getElem?_getD]
    · rw [List.getElem?_drop, List.getD_eq_getElem?_getD]
      congr 3
      omega
  have hlength : (chars ++ old.drop chars.length).length = fbufSize := by
    rw [List.length_append, List.length_drop]
    omega
  -- a short read is followed by EOF, and then by what the buffer held before
  by_cases hshort : chars.length < fbufSize
  · rw [if_pos hshort]
    by_cases heq : i = chars.length
    · subst heq
      rw [if_neg (Nat.lt_irrefl _), if_pos rfl]
      unfold at'
      rw [List.getD_eq_getElem?_getD, List.getElem?_set_self (by omega)]
      rfl
    · have hset : at' ((chars ++ old.drop chars.length).set chars.length eofChar) i =
          at' (chars ++ old.drop chars.length) i := by
        unfold at'
        rw [List.getD_eq_getElem?_getD, List.getElem?_set_ne (Ne.symm heq),
          List.getD_eq_getElem?_getD]
      rw [hset, happ, if_neg heq]
  · rw [if_neg hshort, happ]
    rw [if_pos (by omega), if_pos (by omega)]

/-- A full buffer is coupled as the used up one was. -/
theorem Coupled.filled (h : Coupled content p n d) (hle : p + n ≤ content.length) :
    Coupled content p n d.filled ∧ d.filled.bufpos < fbufSize := by
  unfold FileBuf.filled
  by_cases hpos : d.bufpos = fbufSize
  swap
  · rw [if_neg hpos]
    exact ⟨h, Nat.lt_of_le_of_ne h.le hpos⟩
  rw [if_pos hpos]
  -- a used up buffer ends where the next part of the file starts
  have hoffset : d.fp.offset = p + n := by
    rw [h.offset, hpos, Nat.sub_self]
    exact Nat.min_eq_right hle
  have hcontent := h.file
  have hlength := h.length
  have haligned := h.aligned
  rw [hpos, Nat.sub_self] at haligned
  obtain ⟨chars, hchars⟩ : ∃ chars, (content.drop (p + n)).take fbufSize = chars := ⟨_, rfl⟩
  have hlen : chars.length = min fbufSize (content.length - (p + n)) := by
    rw [← hchars, List.length_take, List.length_drop]
  have hat : ∀ i < chars.length, at' chars i = at' content (p + n + i) := by
    intro i hi
    rw [← hchars, at'_take (by omega)]
    simp [at', List.getD_eq_getElem?_getD]
  have hread : d.fp.fread fbufSize = (chars, { d.fp with offset := p + n + chars.length }) := by
    have hchars' : (d.fp.content.drop (p + n)).take fbufSize = chars := by rw [hcontent, hchars]
    unfold File.fread
    simp only [hoffset, hchars']
  rw [hread]
  have hsize : fbufSize = 256 := rfl
  refine ⟨⟨hcontent, ?_, Nat.zero_le _, ?_, ?_, ?_⟩, Nat.zero_lt_succ 255⟩
  · have happ : (chars ++ d.fbuf.drop chars.length).length = fbufSize := by
      rw [List.length_append, List.length_drop]
      omega
    show (if chars.length < fbufSize then _ else _ : List CChar).length = fbufSize
    split
    · rw [List.length_set]
      exact happ
    · exact happ
  · show p + n + chars.length = min content.length (p + n + (fbufSize - 0))
    omega
  · -- the part read is that of the file, and `EOF` stands behind it when it is short
    intro i _ hi
    have hrefill := @at'_refill i chars d.fbuf hlength (by omega) hi
    show (_ → at' (if chars.length < fbufSize then _ else _) i = _) ∧
      (_ → at' (if chars.length < fbufSize then _ else _) i = _)
    rw [hrefill, Nat.sub_zero]
    constructor
    · intro hlt
      rw [if_pos (by omega)]
      exact hat i (by omega)
    · intro heq
      rw [if_neg (by omega), if_pos (by omega)]
  · show fbufSize ∣ n + (fbufSize - 0)
    rw [Nat.sub_zero]
    exact (Nat.dvd_add_right haligned).mpr (Nat.dvd_refl _)

/-- A call that is fed from a coupled buffer. -/
theorem Coupled.call (h : Coupled content p n d) (hle : p + n ≤ content.length) :
    (p + n < content.length → (getcharFile d).1 = at' content (p + n)) ∧
      (p + n = content.length → (getcharFile d).1 = eofChar) ∧
      Coupled content p (n + 1) (nextBuf d) ∧ 0 < (nextBuf d).bufpos := by
  rcases h.filled hle with ⟨hfilled, hlt⟩
  -- `getchar_file` fills the buffer if it is used up, and takes one byte
  have hnext : nextBuf d = { d.filled with bufpos := d.filled.bufpos + 1 } := rfl
  rcases hfilled.rest _ (Nat.le_refl _) hlt with ⟨hbyte, heof⟩
  rw [Nat.sub_self, Nat.add_zero] at hbyte heof
  refine ⟨hbyte, heof, ?_, Nat.succ_pos _⟩
  rw [hnext]
  have hoffset := hfilled.offset
  have haligned := hfilled.aligned
  have hle' := hfilled.le
  constructor
  · exact hfilled.file
  · exact hfilled.length
  · exact hlt
  · show d.filled.fp.offset = min content.length (p + (n + 1) + (fbufSize - (d.filled.bufpos + 1)))
    rw [hoffset]
    congr 1
    omega
  · intro i hi hi'
    have hi : d.filled.bufpos + 1 ≤ i := hi
    have hrest := hfilled.rest i (by omega) hi'
    have heq : p + (n + 1) + (i - (d.filled.bufpos + 1)) = p + n + (i - d.filled.bufpos) := by omega
    show (p + (n + 1) + (i - (d.filled.bufpos + 1)) < content.length →
        at' d.filled.fbuf i = at' content (p + (n + 1) + (i - (d.filled.bufpos + 1)))) ∧
      (p + (n + 1) + (i - (d.filled.bufpos + 1)) = content.length → at' d.filled.fbuf i = eofChar)
    rw [heq]
    exact hrest
  · show fbufSize ∣ n + 1 + (fbufSize - (d.filled.bufpos + 1))
    have heq : n + 1 + (fbufSize - (d.filled.bufpos + 1)) = n + (fbufSize - d.filled.bufpos) := by
      omega
    rw [heq]
    exact haligned

/-- The buffer stays coupled up to the end of the file. -/
theorem Coupled.iterate (h : Coupled content p 0 d) : ∀ (n : Nat), p + n ≤ content.length + 1 →
    Coupled content p n (nextBuf^[n] d) := by
  intro n
  induction n with
  | zero => exact fun _ => h
  | succ n ih =>
      intro hle
      rw [Function.iterate_succ_apply']
      exact ((ih (by omega)).call (by omega)).2.2.1

theorem at'_mem (h : i < content.length) : at' content i ∈ content := by
  rw [at'_of_lt h]
  exact List.getElem_mem h

theorem Coupled.fedRight (h : Coupled content p 0 d) (hfile : ∀ c ∈ content, c ≠ eofChar) {k : Nat}
    (hle : p + k ≤ content.length) : FedRight content p d k := by
  rcases (h.iterate k (by omega)).call hle with ⟨hbyte, heof, _⟩
  refine ⟨hbyte, ?_, fun hge => heof (by omega)⟩
  intro hc
  by_contra hlt
  have hlt : p + k < content.length := by omega
  have hchar : delivered d k = at' content (p + k) := hbyte hlt
  exact hfile _ (at'_mem hlt) (hchar.symm.trans hc)

/-- The buffer is used up behind the `EOF` exactly if the calls fill it. -/
theorem Coupled.used_iff (h : Coupled content p 0 d) (hp : p ≤ content.length) :
    (nextBuf^[content.length + 1 - p] d).bufpos = fbufSize ↔ fbufSize ∣ content.length + 1 - p := by
  have hend := h.iterate (content.length + 1 - p) (by omega)
  obtain ⟨n, hn⟩ : ∃ n, content.length + 1 - p = n + 1 := ⟨content.length - p, by omega⟩
  have hpos : 0 < (nextBuf^[content.length + 1 - p] d).bufpos := by
    rw [hn, Function.iterate_succ_apply']
    exact ((h.iterate n (by omega)).call (by omega)).2.2.2
  have haligned := hend.aligned
  have hle := hend.le
  generalize (nextBuf^[content.length + 1 - p] d).bufpos = b at *
  constructor
  · intro hb
    rw [hb, Nat.sub_self] at haligned
    exact haligned
  · intro hdvd
    have hrest : fbufSize ∣ fbufSize - b := (Nat.dvd_add_right hdvd).mp haligned
    by_contra hne
    have := Nat.le_of_dvd (by omega) hrest
    omega

end

/-! ## The calls of vm_execute -/

namespace Threads

/-- What the thread loop leaves as it is; it returns behind a match. -/
structure Controls (tm tm' : Threads) : Prop where
  chars : tm'.chars = tm.chars
  search : tm'.search = tm.search
  endchar : tm'.endchar = tm.endchar

theorem Controls.refl (tm : Threads) : Controls tm tm := ⟨rfl, rfl, rfl⟩

theorem Controls.trans {a b c : Threads} (h : Controls a b) (h' : Controls b c) : Controls a c :=
  ⟨h'.chars.trans h.chars, h'.search.trans h.search, h'.endchar.trans h.endchar⟩

theorem addThreadCurr_controls (tm : Threads) (v : Nat) : Controls tm (tm.addThreadCurr v) := by
  unfold addThreadCurr
  split <;> exact ⟨rfl, rfl, rfl⟩

theorem addThreadNext_controls (tm : Threads) (v : Nat) : Controls tm (tm.addThreadNext v) := by
  unfold addThreadNext
  split <;> exact ⟨rfl, rfl, rfl⟩

theorem runInst_controls (tm : Threads) (c : CChar) (ii : Nat) (i : Inst) :
    Controls tm (tm.runInst c ii i).1 ∧
      ((tm.runInst c ii i).2 = true → (tm.runInst c ii i).1.matchEnd = tm.chars) := by
  cases i <;> simp only [runInst]
  case opBranch x y =>
    refine ⟨?_, by simp⟩
    exact (addThreadCurr_controls _ _).trans (addThreadCurr_controls _ _)
  case opJmp x => exact ⟨addThreadCurr_controls _ _, by simp⟩
  case opMatch => exact ⟨⟨rfl, rfl, rfl⟩, by simp⟩
  all_goals
    refine ⟨?_, by simp⟩
    split
    all_goals first
      | exact Controls.refl _
      | exact addThreadNext_controls _ _
      | exact addThreadCurr_controls _ _

theorem runThreads_controls {exe : List Inst} {c : CChar} : ∀ (fuel t : Nat) {tm tm' : Threads}
    {out : Bool}, tm.runThreads exe c fuel t = some (tm', out) →
    Controls tm tm' ∧ (out = true → tm'.matchEnd = tm.chars) := by
  intro fuel
  -- by induction on the threads that are left
  induction fuel with
  | zero =>
      intro t tm tm' out h
      cases h
  | succ fuel ih =>
      intro t tm tm' out h
      unfold runThreads at h
      cases hget : tm.cp[t]? with
      | none =>
          rw [hget] at h
          obtain ⟨rfl, rfl⟩ := Prod.mk.inj (Option.some.inj h)
          exact ⟨Controls.refl _, by simp⟩
      | some ii =>
          rw [hget] at h
          have hinst := runInst_controls tm c ii (fetch exe ii)
          rcases hrun : tm.runInst c ii (fetch exe ii) with ⟨tm₁, stop⟩
          rw [hrun] at hinst
          simp only [hrun] at h
          cases stop with
          | true =>
              obtain ⟨rfl, rfl⟩ := Prod.mk.inj (Option.some.inj h)
              exact hinst
          | false =>
              rcases ih _ h with ⟨hcontrols, hmatch⟩
              refine ⟨hinst.1.trans hcontrols, fun hout => ?_⟩
              rw [hmatch hout]
              exact hinst.1.chars

end Threads

section

variable {σ : Type} (getchar : σ → CChar × σ) (exe : List Inst)

/-- The character of the `k`-th call on the state `d`. -/
def nthChar (d : σ) (k : Nat) : CChar := (getchar ((fun d => (getchar d).2)^[k] d)).1

/-- `vm_execute` has made `n` calls in search mode since the run started at `p`
on `d`, and none of the first `m` has returned the end character. -/
structure Calls (d : σ) (p : Nat) (e : CChar) (n m : Nat) (tm : Threads) (data : σ) :
    Prop where
  data : data = (fun d => (getchar d).2)^[n] d
  chars : tm.chars = p + n
  search : tm.search = true
  endchar : tm.endchar = e
  unended : ∀ k < m, nthChar getchar d k ≠ e

/-- How a run ends: behind the end character, or it has found a match. -/
structure CallsDone (d : σ) (p : Nat) (e : CChar) (n : Nat) (st : VmState σ) : Prop where
  calls : Calls getchar d p e (n + 1) n st.tm st.data
  failed : st.tm.matchEnd = 0 → nthChar getchar d n = e

end

section

variable {σ : Type} {getchar : σ → CChar × σ} {exe : List Inst} {d : σ} {p n m : Nat}
  {e : CChar} {st : VmState σ} {tm : Threads} {res : Int × VmState σ}

theorem Calls.controls {tm' : Threads} {data : σ} (h : Calls getchar d p e n m tm data)
    (htm : Threads.Controls tm tm') : Calls getchar d p e n m tm' data :=
  ⟨h.data, htm.chars.trans h.chars, htm.search.trans h.search, htm.endchar.trans h.endchar,
    h.unended⟩

/-- The calls from a label of `vm_execute` on. At `skipReadchar` the last
character read is still to be looked at. -/
theorem vmLoop_calls : ∀ (fuel : Nat) (n : Nat) (st : VmState σ),
    (Calls getchar d p e n n st.tm st.data →
      (vmLoop getchar exe fuel .vmStart st = some res ∨
        vmLoop getchar exe fuel .readChar st = some res) →
      ∃ n', CallsDone getchar d p e n' res.2) ∧
    (Calls getchar d p e (n + 1) n st.tm st.data → st.c = nthChar getchar d n →
      vmLoop getchar exe fuel .skipReadchar st = some res →
      ∃ n', CallsDone getchar d p e n' res.2) := by
  intro fuel
  induction fuel with
  | zero =>
      intro n st
      constructor
      · rintro _ (hrun | hrun) <;> cases hrun
      · intro _ _ hrun
        cases hrun
  | succ fuel ih =>
      intro n st
      constructor
      · rintro hcalls (hrun | hrun)
        · -- vm_start
          refine (ih n _).1 ?_ (Or.inr hrun)
          apply @Calls.controls σ getchar d p n n e { st.tm with matchStart := st.tm.chars }
          · exact ⟨hcalls.data, hcalls.chars, hcalls.search, hcalls.endchar, hcalls.unended⟩
          · exact Threads.addThreadCurr_controls _ _
        · -- read_char
          refine (ih n _).2 ?_ ?_ hrun
          · refine ⟨?_, ?_, hcalls.search, hcalls.endchar, hcalls.unended⟩
            · show (getchar st.data).2 = _
              rw [hcalls.data, Function.iterate_succ_apply']
            · show st.tm.chars + 1 = p + (n + 1)
              rw [hcalls.chars, Nat.add_assoc]
          · show (getchar st.data).1 = _
            rw [hcalls.data]
            rfl
      · intro hcalls hc hrun
        unfold vmLoop at hrun
        rcases hthreads : st.tm.runThreads exe st.c (exe.length + 1) 0 with _ | ⟨tm, out⟩
        · rw [hthreads] at hrun
          cases hrun
        rcases Threads.runThreads_controls _ _ hthreads with ⟨hcontrols, hmatch⟩
        have hcalls' := hcalls.controls hcontrols
        rw [hthreads] at hrun
        cases out with
        | true =>
            -- a match of a non-greedy run
            cases hrun
            refine ⟨n, hcalls', fun hzero => ?_⟩
            have hchars := hcalls.chars
            have hend : tm.matchEnd = st.tm.chars := hmatch rfl
            have hzero : tm.matchEnd = 0 := hzero
            omega
        | false =>
            by_cases heof : st.c = tm.endchar
            · simp only [if_pos heof] at hrun
              cases hrun
              exact ⟨n, hcalls', fun _ => hc.symm.trans (heof.trans hcalls'.endchar)⟩
            simp only [if_neg heof] at hrun
            have hunended : ∀ k < n + 1, nthChar getchar d k ≠ e := by
              intro k hk
              rcases Nat.lt_succ_iff_lt_or_eq.mp hk with hlt | rfl
              · exact hcalls.unended k hlt
              · rw [← hc, ← hcalls'.endchar]
                exact heof
            by_cases hnp : tm.np = []
            swap
            · simp only [if_neg hnp] at hrun
              refine (ih (n + 1) _).1 ?_ (Or.inr hrun)
              exact ⟨hcalls'.data, hcalls'.chars, hcalls'.search, hcalls'.endchar, hunended⟩
            simp only [if_pos hnp] at hrun
            by_cases hgo : tm.search = false ∨ tm.matchEnd ≠ 0
            · simp only [if_pos hgo] at hrun
              cases hrun
              refine ⟨n, hcalls', fun hzero => ?_⟩
              rcases hgo with hsearch | hne
              · have htrue := hcalls'.search
                rw [hsearch] at htrue
                cases htrue
              · exact absurd hzero hne
            simp only [if_neg hgo] at hrun
            by_cases hstart : tm.chars - 1 ≠ tm.matchStart
            · simp only [if_pos hstart] at hrun
              refine (ih n _).2 ?_ ?_ hrun
              · apply @Calls.controls σ getchar d p (n + 1) n e
                  { tm.clearCurr with matchStart := tm.chars - 1 }
                · exact ⟨hcalls'.data, hcalls'.chars, hcalls'.search, hcalls'.endchar,
                    hcalls'.unended⟩
                · exact Threads.addThreadCurr_controls _ _
              · exact hc
            · simp only [if_neg hstart] at hrun
              refine (ih (n + 1) _).1 ?_ (Or.inl hrun)
              exact ⟨hcalls'.data, hcalls'.chars, hcalls'.search, hcalls'.endchar, hunended⟩

end

/-- What a run of `vm_execute` on a file leaves: it has made `n + 1` calls, and
only the last of them can have been given `EOF`. -/
structure Executed (d : FileBuf) (tm : Threads) (n : Nat) (tm' : Threads) (d' : FileBuf) :
    Prop where
  chars : tm'.chars = tm.chars + (n + 1)
  data : d' = nextBuf^[n + 1] d
  search : tm'.search = true
  endchar : tm'.endchar = eofChar
  unended : ∀ k < n, delivered d k ≠ eofChar
  failed : tm'.matchEnd = 0 → delivered d n = eofChar

theorem executeFile_calls {exe : List Inst} {d d' : FileBuf} {tm tm' : Threads}
    (hsearch : tm.search = true) (hendchar : tm.endchar = eofChar)
    (h : executeFile exe d tm = .ok (tm', d')) : ∃ n, Executed d tm n tm' d' := by
  unfold executeFile vmExecute at h
  rcases hrun : vmLoop getcharFile exe (fileFuel d.fp) .vmStart
    { tm := { tm with cp := [], np := [], cpLookup := fun _ => false,
                      npLookup := fun _ => false }, data := d, c := 0 } with _ | ⟨ret, st⟩
  · rw [hrun] at h
    cases h
  rw [hrun] at h
  cases h
  have hcalls : Calls getcharFile d tm.chars eofChar 0 0
      { tm with cp := [], np := [], cpLookup := fun _ => false, npLookup := fun _ => false } d :=
    ⟨rfl, rfl, hsearch, hendchar, fun k hk => absurd hk (Nat.not_lt_zero k)⟩
  rcases (vmLoop_calls _ 0 _).1 hcalls (Or.inl hrun) with ⟨n, hdone⟩
  have hcalls' := hdone.calls
  exact ⟨n, hcalls'.chars, hcalls'.data, hcalls'.search, hcalls'.endchar, hcalls'.unended,
    hdone.failed⟩

section

variable {exe : List Inst} {d d' : FileBuf} {tm tm' : Threads}

/-- A run that starts with an empty buffer at the offset it counts from is fed
right. -/
theorem RunFed.start (hlength : d.fbuf.length = fbufSize) (hpos : d.bufpos = fbufSize)
    (hchars : tm.chars = d.fp.offset) (hfile : ∀ c ∈ d.fp.content, c ≠ eofChar)
    (hsearch : tm.search = true) (hendchar : tm.endchar = eofChar) : RunFed exe tm d := by
  have hfed : ∀ k, k = 0 ∨ tm.chars + k ≤ d.fp.content.length →
      FedRight d.fp.content tm.chars d k := by
    intro k hk
    rw [hchars] at hk ⊢
    by_cases hle : d.fp.offset ≤ d.fp.content.length
    · have hcoupled := Coupled.start hlength hpos hle
      exact hcoupled.fedRight hfile (by omega)
    · -- the file is behind its end, and there is nothing to be read
      obtain rfl : k = 0 := by omega
      constructor
      · intro hlt
        omega
      · have heof : delivered d 0 = eofChar := by
          show (getcharFile d).1 = eofChar
          have hread : d.fp.fread fbufSize = ([], d.fp) := by
            unfold File.fread
            rw [List.drop_eq_nil_of_le (by omega)]
            rfl
          rw [getcharFile_eq]
          unfold FileBuf.filled
          rw [if_pos hpos, hread]
          show at' (if 0 < fbufSize then (d.fbuf.drop 0).set 0 eofChar else d.fbuf.drop 0) 0 = _
          have hsize : 0 < fbufSize := Nat.zero_lt_succ 255
          rw [if_pos hsize, List.drop_zero]
          unfold at'
          rw [List.getD_eq_getElem?_getD, List.getElem?_set_self (by omega)]
          rfl
        exact iff_of_true heof (by omega)
  refine ⟨hfed, ?_⟩
  intro tm' d' hrun
  rcases executeFile_calls hsearch hendchar hrun with ⟨n, hdone⟩
  refine ⟨n + 1, hdone.chars, hdone.data, ?_⟩
  -- a call behind the end of the file would have an EOF in front of it
  intro k hk
  by_contra hnot
  have hfile' : FedRight d.fp.content tm.chars d (d.fp.content.length - tm.chars) :=
    hfed _ (by omega)
  exact hdone.unended (d.fp.content.length - tm.chars) (by omega) (hfile'.eof.mpr (by omega))

/-- A run that fails has read the file to its end, and the `EOF` behind it. -/
theorem RunFed.fails (hfed : RunFed exe tm d) (hle : tm.chars ≤ d.fp.content.length)
    (hsearch : tm.search = true) (hendchar : tm.endchar = eofChar)
    (hrun : executeFile exe d tm = .ok (tm', d')) (hfail : tm'.matchEnd = 0) :
    d' = nextBuf^[d.fp.content.length + 1 - tm.chars] d ∧
      tm'.search = true ∧ tm'.endchar = eofChar := by
  rcases executeFile_calls hsearch hendchar hrun with ⟨n, hdone⟩
  rcases hfed.ends tm' d' hrun with ⟨n', hchars', _, hcalls⟩
  obtain rfl : n' = n + 1 := by
    have := hdone.chars
    omega
  have hn := hcalls n (Nat.lt_succ_self n)
  have hge := (hfed.feeds n hn).eof.mp (hdone.failed hfail)
  refine ⟨?_, hdone.search, hdone.endchar⟩
  rw [hdone.data]
  congr 2
  omega

end

end Rxvm
