import Rxvm.FileSearch
import Rxvm.FsearchSpec

/-!
# Rxvm.LiteralLoop — all occurrences of a string in a file

For an expression of literals each call of `rxvm_fsearch` is a scan for the
stored text, whatever the calls before have left in the statics of `bmh.c`.
Repeated calls, each from behind the match before, then find every occurrence
that does not overlap one that has been reported.
-/

namespace Rxvm

/-! ## Sweeps -/

/-- The places that a sweep from `p` on picks, which goes on `n` behind each
place it picks. -/
structure Sweep (Occ : Nat → Prop) (n p : Nat) (l : List Nat) : Prop where
  occurs : ∀ a ∈ l, p ≤ a ∧ Occ a
  apart : l.Pairwise fun a b => a + n ≤ b
  covers : ∀ m, p ≤ m → Occ m → ∃ a ∈ l, a ≤ m ∧ m < a + n

section

variable {Occ : Nat → Prop} {n p a : Nat} {l : List Nat}

theorem Sweep.nil (h : ∀ m, p ≤ m → ¬ Occ m) : Sweep Occ n p [] :=
  ⟨fun _ ha => absurd ha List.not_mem_nil, .nil, fun m hm hocc => absurd hocc (h m hm)⟩

/-- The first place, and a sweep from behind it. -/
theorem Sweep.cons (ha : FirstAt Occ p a) (h : Sweep Occ n (a + n) l) : Sweep Occ n p (a :: l) := by
  refine ⟨?_, ?_, ?_⟩
  · intro b hb
    rcases List.mem_cons.mp hb with rfl | hb
    · exact ⟨ha.1, ha.2.1⟩
    · have hle := (h.occurs b hb).1
      exact ⟨by have := ha.1; omega, (h.occurs b hb).2⟩
  · exact List.pairwise_cons.mpr ⟨fun b hb => (h.occurs b hb).1, h.apart⟩
  · intro m hm hocc
    by_cases hnext : a + n ≤ m
    · rcases h.covers m hnext hocc with ⟨b, hb, hcover⟩
      exact ⟨b, List.mem_cons_of_mem a hb, hcover⟩
    · refine ⟨a, List.mem_cons_self, ?_, by omega⟩
      by_contra hlt
      exact ha.2.2 m hm (by omega) hocc

end

/-! ## One call -/

section

variable {compiled : Compiled} {w content : List CChar} {flags : Flags} {p : Nat}

/-- A call from offset `p` on finds the first occurrence there or behind. -/
theorem rxvmFsearch_text {b : Bmh} {fileBuffer : FileBuffer} (hsimple : compiled.simple = some w)
    (hpos : 0 < w.length) (hle : w.length ≤ bufsize) (hchars : ∀ c ∈ w, Scannable c)
    (hfile : ∀ c ∈ content, c ≠ eofChar ∧ c ≠ printableHigh) (hicase : flags.icase = false)
    (hreach : Reachable b) :
    (∃ m, FirstAt (OccursAt w content) p m ∧
        rxvmFsearch b fileBuffer compiled ⟨content, p⟩ flags =
          .ok ⟨1, some (w.length : Int), m⟩) ∨
      ((∀ m, p ≤ m → ¬ OccursAt w content m) ∧
        ∃ r, rxvmFsearch b fileBuffer compiled ⟨content, p⟩ flags = .ok r ∧ r.ret = 0) := by
  have hbuf : bufsize = 8192 := rfl
  have hlen : u32 (w.length : Int) = w.length := u32_eq rfl (by omega)
  have hbegun : Begun w w.length content p (b.bmhInit ⟨content, p⟩ w w.length) := Begun.init hreach
  have hicase' : (fsearchThreads flags).icase = false := hicase
  rcases bmh_scannable hchars hpos hle hfile hicase' hbegun with
    ⟨b₁, ret, tm, b₂, hinit, hscan, hscans⟩
  have hcall : rxvmFsearch b fileBuffer compiled ⟨content, p⟩ flags =
      .ok (fsearchResult tm b₂.fp) :=
    rxvmFsearch_simple hsimple (by rw [hlen]; exact hinit) hscan
  rw [hcall]
  rcases hscans with ⟨m, hfirst, _, rfl⟩ | ⟨hnone, _, rfl⟩
  · refine .inl ⟨m, hfirst, congrArg Except.ok ?_⟩
    unfold fsearchResult
    rw [if_pos (Nat.succ_ne_zero _)]
    simp only [seekToStartOfMatch, File.seek]
    congr 2
    push_cast
    omega
  · exact .inr ⟨hnone, _, rfl, fsearchResult_failed b₂.fp rfl⟩

/-! ## Repeated calls -/

theorem repeatFsearch_sweep (hsimple : compiled.simple = some w) (hpos : 0 < w.length)
    (hle : w.length ≤ bufsize) (hchars : ∀ c ∈ w, Scannable c)
    (hfile : ∀ c ∈ content, c ≠ eofChar ∧ c ≠ printableHigh) (hicase : flags.icase = false) :
    ∀ {fuel : Nat} {calls : Nat → Bmh × FileBuffer} {p : Nat}, (∀ n, Reachable (calls n).1) →
      content.length < p + fuel → p ≤ content.length →
      ∃ l, Sweep (OccursAt w content) w.length p l ∧
        repeatFsearch compiled flags fuel calls ⟨content, p⟩ =
          .ok (l.map fun a => ((a : Int), (w.length : Int))) := by
  intro fuel
  induction fuel with
  | zero =>
      intro calls p _ hfuel hp
      omega
  | succ fuel ih =>
      intro calls p hreach hfuel hp
      unfold repeatFsearch
      rcases rxvmFsearch_text hsimple hpos hle hchars hfile hicase (hreach 0) (p := p) with
        ⟨m, hfirst, hcall⟩ | ⟨hnone, r, hcall, hret⟩
      · have hm : p ≤ m := hfirst.1
        have hend : m + w.length ≤ content.length := by
          have hprefix := hfirst.2.1.length_le
          rw [List.length_drop] at hprefix
          omega
        rcases ih (fun n => hreach (n + 1)) (p := m + w.length) (by omega) hend with
          ⟨l, hsweep, hrest⟩
        refine ⟨m :: l, hsweep.cons hfirst, ?_⟩
        rw [hcall]
        show ((repeatFsearch compiled flags fuel (fun n => calls (n + 1))
          ⟨content, ((m : Int) + (w.length : Int)).toNat⟩) >>= _) = _
        rw [show ((m : Int) + (w.length : Int)).toNat = m + w.length by omega, hrest]
        rfl
      · refine ⟨[], .nil hnone, ?_⟩
        rw [hcall]
        exact if_pos hret

/-- For an expression of literals repeated calls report every occurrence of the
stored text that does not overlap one before it, and nothing else. -/
theorem repeatFsearch_literals {g g' : Statics} {exp : List CChar} {calls : Nat → Bmh × FileBuffer}
    (h : rxvmCompile g exp = .ok (.ok compiled, g')) (hsimple : compiled.simple.isSome = true)
    (hpos : 0 < (cstring exp).length) (hle : (cstring exp).length ≤ bufsize)
    (hchars : ∀ c ∈ cstring exp, Scannable c)
    (hfile : ∀ c ∈ content, c ≠ eofChar ∧ c ≠ printableHigh) (hicase : flags.icase = false)
    (hreach : ∀ n, Reachable (calls n).1) (hp : p ≤ content.length) {fuel : Nat}
    (hfuel : content.length < p + fuel) :
    ∃ l, Sweep (OccursAt (cstring exp) content) (cstring exp).length p l ∧
      repeatFsearch compiled flags fuel calls ⟨content, p⟩ =
        .ok (l.map fun a => ((a : Int), ((cstring exp).length : Int))) := by
  rcases Option.isSome_iff_exists.mp hsimple with ⟨text, htext⟩
  rcases rxvmCompile_simple h htext with ⟨rfl, _⟩
  exact repeatFsearch_sweep htext hpos hle hchars hfile hicase hreach hfuel hp

/-- The expression `ab` and the file `xabab`. -/
theorem repeatFsearch_literals_ab : ∃ compiled g' l,
    rxvmCompile Statics.init [97, 98] = .ok (.ok compiled, g') ∧
      Sweep (OccursAt (cstring [97, 98]) [120, 97, 98, 97, 98]) (cstring [97, 98]).length 0 l ∧
      repeatFsearch compiled {} 6 (fun _ => (Bmh.zero, FileBuffer.zero)) ⟨[120, 97, 98, 97, 98], 0⟩ =
        .ok (l.map fun a => ((a : Int), ((cstring [97, 98]).length : Int))) := by
  have h : ∃ compiled g', rxvmCompile Statics.init [97, 98] = .ok (.ok compiled, g') ∧
      compiled.simple.isSome = true := ⟨_, _, rfl, rfl⟩
  rcases h with ⟨compiled, g', h, hsimple⟩
  have hchars : ∀ c ∈ cstring [97, 98], Scannable c := by
    unfold Scannable
    decide +kernel
  have hfile : ∀ c ∈ ([120, 97, 98, 97, 98] : List CChar), c ≠ eofChar ∧ c ≠ printableHigh := by
    decide +kernel
  have hicase : ({} : Flags).icase = false := rfl
  have hfuel : ([120, 97, 98, 97, 98] : List CChar).length < 0 + 6 := by decide
  have hreach : ∀ n : Nat, Reachable ((fun _ => (Bmh.zero, FileBuffer.zero)) n).1 :=
    fun _ => Reachable.zero
  rcases repeatFsearch_literals h hsimple (by decide) (by decide) hchars hfile hicase hreach
    (Nat.zero_le _) hfuel with ⟨l, hsweep, hloop⟩
  exact ⟨compiled, g', l, h, hsweep, hloop⟩

end

end Rxvm
