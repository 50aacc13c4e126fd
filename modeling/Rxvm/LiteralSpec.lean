import Rxvm.Leftmost
import Rxvm.MatchSpec

/-!
# Rxvm.LiteralSpec — literals uncompiled and as a program

An expression of literals only is not compiled: `simple_match` compares its
stored text. `literalProgram` is the program it would have been compiled to.
The two agree unless the first character of the expression, escaped backslashes
aside, is an escaped one: then a resumed attempt of `simple_match` compares a
backslash the expression does not have.
-/

namespace Rxvm

open Relation

/-- One `char` instruction for each character, and `match`. -/
def literalProgram (w : List CChar) : List Inst := w.map .opChar ++ [.opMatch]

/-- The first difference between `w` and the input behind `r` is at `m`, before
the end of the input. -/
def Mismatch (w s : List CChar) (r m : Nat) : Prop :=
  m < w.length ∧ r + m < s.length ∧ w.take m <+: s.drop r ∧ w[m]? ≠ s[r + m]?

/-- Behind its leading escaped backslashes the text goes on with an escaped
character. -/
def escapesFirst : List CChar → Bool
  | [] => false
  | c :: rest =>
    if c = derefSym then
      match rest with
      | [] => false
      | d :: rest => if d = derefSym then escapesFirst rest else true
    else false

/-! ## The program of a literal -/

section

variable {icase ml : Bool} {w s : List CChar} {r p u v : Nat}

theorem literalProgram_get (hu : u < w.length) :
    (literalProgram w)[u]? = some (.opChar (at' w u)) := by
  rw [literalProgram, List.getElem?_append_left (by simpa using hu), List.getElem?_map,
    at'_getElem? hu]
  rfl

theorem literalProgram_get_length : (literalProgram w)[w.length]? = some .opMatch := by
  simp [literalProgram]

theorem literalProgram_get_none (hu : w.length < u) : (literalProgram w)[u]? = none := by
  simp [literalProgram]
  omega

theorem literalProgram_wellFormed (w : List CChar) : WellFormed (literalProgram w) := by
  refine ⟨?_, by simp [literalProgram]⟩
  intro i hi t ht
  simp only [literalProgram, List.mem_append, List.mem_map, List.mem_singleton] at hi
  rcases hi with ⟨c, _, rfl⟩ | rfl
  · simp [Inst.targets] at ht
  · simp [Inst.targets] at ht

theorem literalProgram_cases {i : Inst} (h : (literalProgram w)[u]? = some i) :
    (u < w.length ∧ i = .opChar (at' w u)) ∨ (u = w.length ∧ i = .opMatch) := by
  rcases Nat.lt_trichotomy u w.length with hlt | rfl | hlt
  · rw [literalProgram_get hlt] at h
    exact Or.inl ⟨hlt, (Option.some.inj h).symm⟩
  · rw [literalProgram_get_length] at h
    exact Or.inr ⟨rfl, (Option.some.inj h).symm⟩
  · rw [literalProgram_get_none hlt] at h
    cases h

/-- A step of the program reads one character that compares equal. -/
theorem literalProgram_step {q : Nat} :
    NfaStep icase ml s (literalProgram w) (u, p) (v, q) ↔
      v = u + 1 ∧ q = p + 1 ∧ u < w.length ∧ p < s.length ∧
        charMatch icase (at' s p) (at' w u) = true := by
  constructor
  · intro h
    cases h with
    | eat hi hp he =>
        rcases literalProgram_cases hi with ⟨hu, rfl⟩ | ⟨_, rfl⟩
        · exact ⟨rfl, rfl, hu, hp, he⟩
        · cases he
    | sol hi _ => rcases literalProgram_cases hi with ⟨_, h⟩ | ⟨_, h⟩ <;> cases h
    | eol hi _ => rcases literalProgram_cases hi with ⟨_, h⟩ | ⟨_, h⟩ <;> cases h
    | branchX hi => rcases literalProgram_cases hi with ⟨_, h⟩ | ⟨_, h⟩ <;> cases h
    | branchY hi => rcases literalProgram_cases hi with ⟨_, h⟩ | ⟨_, h⟩ <;> cases h
    | jmp hi => rcases literalProgram_cases hi with ⟨_, h⟩ | ⟨_, h⟩ <;> cases h
  · rintro ⟨rfl, rfl, hu, hp, hc⟩
    exact .eat (literalProgram_get hu) hp hc

/-- The program is at instruction `v` when `v` characters have compared equal. -/
theorem literalProgram_reach (hr : r ≤ s.length) :
    Reach false ml s (literalProgram w) r p v ↔
      p = r + v ∧ v ≤ w.length ∧ p ≤ s.length ∧ w.take v <+: s.drop r := by
  constructor
  · intro h
    have key : ∀ b : Nat × Nat, NfaPath false ml s (literalProgram w) (0, r) b →
        b.2 = r + b.1 ∧ b.1 ≤ w.length ∧ b.2 ≤ s.length ∧ w.take b.1 <+: s.drop r := by
      intro b hb
      -- along the path, each step consumes one character of `w`
      induction hb with
      | refl => exact ⟨rfl, Nat.zero_le _, hr, by simp⟩
      | @tail b c _ hstep ih =>
          rcases ih with ⟨hpos, _, _, htake⟩
          rcases literalProgram_step.mp hstep with ⟨hv, hq, hu, hp, hc⟩
          rw [hv, hq]
          refine ⟨by omega, hu, hp, take_succ_isPrefix hu htake ?_⟩
          rw [← hpos, at'_getElem? hu, at'_getElem? hp, charMatch_false.mp hc]
    exact key (v, p) h
  · rintro ⟨rfl, hv, hle, htake⟩
    -- the only path to `v` goes through `v - 1`
    induction v with
    | zero => exact .refl
    | succ v ih =>
        have hprefix : w.take v <+: s.drop r := by
          refine List.IsPrefix.trans ?_ htake
          rw [take_succ_eq_concat hv]
          exact List.prefix_append _ _
        refine (ih (by omega) (by omega) hprefix).tail ?_
        apply literalProgram_step.mpr
        refine ⟨rfl, rfl, hv, by omega, charMatch_false.mpr ?_⟩
        have heq := getElem?_of_isPrefix (m := v) (by simp; omega) htake
        rw [List.getElem?_take_of_lt (by omega), at'_getElem? hv, at'_getElem? (by omega)] at heq
        exact (Option.some.inj heq).symm

theorem literalProgram_matched (ml : Bool) (hr : r ≤ s.length) :
    Matched false ml s (literalProgram w) r p ↔ p = r + w.length ∧ w <+: s.drop r := by
  constructor
  · rintro ⟨v, hmatch, hreach⟩
    rcases literalProgram_cases hmatch with ⟨_, h⟩ | ⟨rfl, _⟩
    · cases h
    · rcases (literalProgram_reach hr).mp hreach with ⟨hp, _, _, htake⟩
      rw [List.take_length] at htake
      exact ⟨hp, htake⟩
  · rintro ⟨rfl, hprefix⟩
    refine ⟨w.length, literalProgram_get_length, (literalProgram_reach hr).mpr ?_⟩
    have hlen := hprefix.length_le
    rw [List.length_drop] at hlen
    refine ⟨rfl, Nat.le_refl _, by omega, ?_⟩
    rwa [List.take_length]

theorem Mismatch.not_prefix {m : Nat} (h : Mismatch w s r m) : ¬ w <+: s.drop r :=
  fun hprefix => h.2.2.2 (getElem?_of_isPrefix h.1 hprefix)

theorem literalProgram_next (ml : Bool) (hr : r ≤ s.length) {r' : Nat} :
    NextAttempt false ml s (literalProgram w) r r' ↔
      ∃ m, Mismatch w s r m ∧ r' = max (r + 1) (r + m) := by
  constructor
  -- the attempt dies at the first character that differs
  · rintro ⟨hnone, q, _, hq, ⟨m, hreach⟩, hdead, rfl⟩
    rcases (literalProgram_reach hr).mp hreach with ⟨rfl, hm, _, htake⟩
    have hlt : m < w.length := by
      by_contra hge
      obtain rfl : m = w.length := by omega
      rw [List.take_length] at htake
      exact hnone _ ((literalProgram_matched ml hr).mpr ⟨rfl, htake⟩)
    refine ⟨m, ⟨hlt, hq, htake, ?_⟩, rfl⟩
    intro heq
    exact hdead (m + 1) ((literalProgram_reach hr).mpr
      ⟨rfl, hlt, hq, take_succ_isPrefix hlt htake heq⟩)
  · rintro ⟨m, h, rfl⟩
    refine ⟨?_, r + m, Nat.le_add_right _ _, h.2.1, ⟨m, ?_⟩, ?_, rfl⟩
    · intro p hp
      exact h.not_prefix ((literalProgram_matched ml hr).mp hp).2
    · exact (literalProgram_reach hr).mpr ⟨rfl, h.1.le, h.2.1.le, h.2.2.1⟩
    · intro v hv
      rcases (literalProgram_reach hr).mp hv with ⟨hp, hle, _, htake⟩
      obtain rfl : v = m + 1 := by omega
      apply h.2.2.2
      have heq := getElem?_of_isPrefix (m := m) (by simp; omega) htake
      rwa [List.getElem?_take_of_lt (by omega)] at heq

end

/-! ## The attempts of the two searches -/

theorem escapesFirst_cons {c : CChar} (hc : c ≠ derefSym) (rest : List CChar) :
    escapesFirst (c :: rest) = false := by
  rw [escapesFirst.eq_def]
  exact if_neg hc

theorem escapesFirst_escaped {d : CChar} (hd : d ≠ derefSym) (rest : List CChar) :
    escapesFirst (derefSym :: d :: rest) = true := by
  rw [escapesFirst.eq_def]
  exact (if_pos rfl).trans (if_neg hd)

theorem escapesFirst_backslash (rest : List CChar) :
    escapesFirst (derefSym :: derefSym :: rest) = escapesFirst rest := by
  rw [escapesFirst.eq_def]
  exact (if_pos rfl).trans (if_pos rfl)

theorem escapesClosed_escaped (d : CChar) (rest : List CChar) :
    escapesClosed (derefSym :: d :: rest) = escapesClosed rest := by
  rw [escapesClosed.eq_def]
  exact if_pos rfl

theorem escapesClosed_cons {c : CChar} (hc : c ≠ derefSym) (rest : List CChar) :
    escapesClosed (c :: rest) = escapesClosed rest := by
  rw [escapesClosed.eq_def]
  exact if_neg hc

/-- A backslash in front of a text that does not begin with an escape is the
backslash of an escape. -/
theorem unescape_shift {rest : List CChar} (hclosed : escapesClosed rest = true)
    (hfirst : escapesFirst rest = false) :
    unescape (derefSym :: rest) = unescape rest ∨ ∀ c ∈ unescape rest, c = derefSym := by
  induction rest using escapesFirst.induct with
  | case1 => exact Or.inr (by simp [unescape])
  | case2 => simp [escapesClosed] at hclosed
  | case3 rest ih =>
      rw [escapesClosed_escaped] at hclosed
      rw [escapesFirst_backslash] at hfirst
      rw [unescape_deref, unescape_deref]
      rcases ih hclosed hfirst with h | h
      · exact Or.inl (by rw [h])
      · exact Or.inr (List.forall_mem_cons.mpr ⟨rfl, h⟩)
  | case4 d rest hd =>
      rw [escapesFirst_escaped hd] at hfirst
      cases hfirst
  | case5 c rest hc => exact Or.inl (by rw [unescape_deref, unescape_cons hc])

/-- A text that begins with no escape but escaped backslashes is resumed with
the right string, or is made of backslashes. -/
theorem rawPattern_unescape {text : List CChar} (hclosed : escapesClosed text = true)
    (hfirst : escapesFirst text = false) (hne : unescape text ≠ []) :
    (unescape text)[0]? = some (at' text 0) ∧
      (rawPattern text = unescape text ∨ ∀ c ∈ unescape text, c = derefSym) := by
  cases text using escapesFirst.fun_cases with
  | case1 => exact absurd rfl hne
  | case2 => simp [escapesClosed] at hclosed
  | case3 rest =>
      rw [escapesClosed_escaped] at hclosed
      rw [escapesFirst_backslash] at hfirst
      have hraw : rawPattern (derefSym :: derefSym :: rest) =
          derefSym :: unescape (derefSym :: rest) := rfl
      rw [hraw, unescape_deref]
      refine ⟨rfl, ?_⟩
      rcases unescape_shift hclosed hfirst with h | h
      · exact Or.inl (by rw [h])
      · exact Or.inr (List.forall_mem_cons.mpr ⟨rfl, h⟩)
  | case4 d rest hd =>
      rw [escapesFirst_escaped hd] at hfirst
      cases hfirst
  | case5 c rest hc =>
      rw [unescape_cons hc]
      exact ⟨rfl, Or.inl rfl⟩

/-- A text that begins with another escape is resumed with one backslash too
many. -/
theorem unescape_deref_escapesFirst {text : List CChar} (h : escapesFirst text = true) :
    unescape (derefSym :: text) = derefSym :: unescape text := by
  induction text using escapesFirst.induct with
  | case1 => cases h
  | case2 => cases h
  | case3 rest ih =>
      rw [escapesFirst_backslash] at h
      rw [unescape_deref, unescape_deref, ih h]
  | case4 d rest hd => rw [unescape_deref, unescape_deref, unescape_cons hd]
  | case5 c rest hc =>
      rw [escapesFirst_cons hc] at h
      cases h

theorem rawPattern_escapesFirst {text : List CChar} (h : escapesFirst text = true) :
    at' text 0 = derefSym ∧ rawPattern text = derefSym :: unescape text := by
  cases text using escapesFirst.fun_cases with
  | case1 => cases h
  | case2 => cases h
  | case3 rest =>
      rw [escapesFirst_backslash] at h
      have hraw : rawPattern (derefSym :: derefSym :: rest) =
          derefSym :: unescape (derefSym :: rest) := rfl
      exact ⟨rfl, by rw [hraw, unescape_deref, unescape_deref_escapesFirst h]⟩
  | case4 d rest hd =>
      have hraw : rawPattern (derefSym :: d :: rest) = derefSym :: unescape (d :: rest) := rfl
      exact ⟨rfl, by rw [hraw, unescape_deref, unescape_cons hd]⟩
  | case5 c rest hc =>
      rw [escapesFirst_cons hc] at h
      cases h

/-- The backslashes such a text begins with, and the first other character. -/
theorem unescape_escapesFirst {text : List CChar} (h : escapesFirst text = true) :
    ∃ n y u, y ≠ derefSym ∧ unescape text = List.replicate n derefSym ++ y :: u := by
  induction text using escapesFirst.induct with
  | case1 => cases h
  | case2 => cases h
  | case3 rest ih =>
      rw [escapesFirst_backslash] at h
      rcases ih h with ⟨n, y, u, hy, heq⟩
      refine ⟨n + 1, y, u, hy, ?_⟩
      rw [unescape_deref, heq]
      rfl
  | case4 d rest hd => exact ⟨0, d, unescape rest, hd, unescape_deref d rest⟩
  | case5 c rest hc =>
      rw [escapesFirst_cons hc] at h
      cases h

section

variable {ml : Bool} {text s : List CChar} {r : Nat} {b : LitAttempt}

theorem litNext_iff {a b : LitAttempt} : LitNext text s a b ↔ ∃ m, Mismatch a.2 s a.1 m ∧
    b = if at' text 0 = at' s (a.1 + m) then (a.1 + m, rawPattern text)
      else (a.1 + m + 1, unescape text) := by
  constructor
  · rintro ⟨m, h1, h2, h3, h4, h5⟩
    exact ⟨m, ⟨h1, h2, h3, h4⟩, h5⟩
  · rintro ⟨m, ⟨h1, h2, h3, h4⟩, h5⟩
    exact ⟨m, h1, h2, h3, h4, h5⟩

/-- An attempt of `simple_match` that follows another one is one or two
attempts of the program further on. -/
theorem litNext_simulated (ml : Bool) (hclosed : escapesClosed text = true) (hfirst : escapesFirst text = false)
    (hr : r ≤ s.length) (h : LitNext text s (r, unescape text) b) :
    b.2 = unescape text ∧
      TransGen (NextAttempt false ml s (literalProgram (unescape text))) r b.1 := by
  rcases litNext_iff.mp h with ⟨m, hm, rfl⟩
  have hne : unescape text ≠ [] := by
    intro h0
    have hlt : m < (unescape text).length := hm.1
    rw [h0] at hlt
    exact Nat.not_lt_zero m hlt
  rcases rawPattern_unescape hclosed hfirst hne with ⟨hhead, hraw⟩
  have hnext := (literalProgram_next ml hr).mpr ⟨m, hm, rfl⟩
  rcases hm with ⟨hlt, hp, htake, hdiff⟩
  simp only at hlt hp htake hdiff
  by_cases heq : at' text 0 = at' s (r + m)
  · -- the character that failed begins the text
    simp only [if_pos heq]
    have hm0 : m ≠ 0 := by
      rintro rfl
      apply hdiff
      rw [hhead, heq, at'_getElem? hp]
    have hsame : rawPattern text = unescape text := by
      rcases hraw with hraw | hall
      · exact hraw
      · exfalso
        apply hdiff
        have hlast := hall _ (List.getElem_mem hlt)
        have hbegin : at' text 0 = derefSym := by
          apply hall
          exact List.mem_of_getElem? hhead
        rw [at'_getElem? hp, ← heq, hbegin, List.getElem?_eq_getElem hlt, hlast]
    refine ⟨hsame, .single ?_⟩
    have hmax : max (r + 1) (r + m) = r + m := by omega
    rwa [hmax] at hnext
  · simp only [if_neg heq, true_and]
    by_cases hm0 : m = 0
    · subst hm0
      exact .single (by simpa using hnext)
    · -- the program makes an attempt at the character, which fails at once
      have hmax : max (r + 1) (r + m) = r + m := by omega
      rw [hmax] at hnext
      refine (TransGen.single hnext).tail ?_
      apply (literalProgram_next ml hp.le).mpr
      refine ⟨0, ⟨List.length_pos_of_ne_nil hne, hp, by simp, ?_⟩, by omega⟩
      rw [hhead, Nat.add_zero, at'_getElem? hp]
      simpa using heq

theorem litNext_path_simulated (ml : Bool) (hclosed : escapesClosed text = true)
    (hfirst : escapesFirst text = false)
    (h : ReflTransGen (LitNext text s) (0, unescape text) b) :
    b.2 = unescape text ∧ Attempted false ml s (literalProgram (unescape text)) b.1 := by
  induction h with
  | refl => exact ⟨rfl, .refl⟩
  | @tail a b _ hstep ih =>
      rcases ih with ⟨ha, hpath⟩
      have hle := Attempted.le_length hpath
      have hstep' : LitNext text s (a.1, unescape text) b := by
        rw [← ha]
        exact hstep
      rcases litNext_simulated ml hclosed hfirst hle hstep' with ⟨hb, hrun⟩
      exact ⟨hb, hpath.trans hrun.to_reflTransGen⟩

/-- No attempt follows one that matches, so every attempt leads to it. -/
theorem attempted_leads {icase : Bool} {exe : List Inst} {c r' q : Nat}
    (h : ReflTransGen (NextAttempt icase ml s exe) r r') (hm : Matched icase ml s exe r' q)
    (hc : ReflTransGen (NextAttempt icase ml s exe) r c) :
    ReflTransGen (NextAttempt icase ml s exe) c r' := by
  have hunique : Relator.RightUnique (NextAttempt icase ml s exe) := by
    intro a b c hb hc
    exact hb.unique hc
  rcases ReflTransGen.total_of_right_unique hunique h hc with hpath | hpath
  · cases hpath using ReflTransGen.head_induction_on with
    | refl => exact .refl
    | head hstep _ => exact absurd hm (hstep.1 q)
  · exact hpath

theorem nextAttempt_trans_lt {icase : Bool} {exe : List Inst} {c : Nat}
    (h : TransGen (NextAttempt icase ml s exe) r c) : r < c := by
  induction h with
  | single hstep => exact hstep.lt
  | tail _ hstep ih => exact Nat.lt_trans ih hstep.lt

/-- What the program finds, `simple_match` finds. -/
theorem attempted_simulated (hclosed : escapesClosed text = true)
    (hfirst : escapesFirst text = false) {r' : Nat} (hr : r ≤ s.length)
    (h : ReflTransGen (NextAttempt false ml s (literalProgram (unescape text))) r r')
    (hm : unescape text <+: s.drop r') (hr' : r' ≤ s.length) :
    ReflTransGen (LitNext text s) (r, unescape text) (r', unescape text) := by
  -- by the distance left
  obtain ⟨k, hk⟩ : ∃ k, s.length - r = k := ⟨_, rfl⟩
  induction k using Nat.strong_induction_on generalizing r with
  | _ k ih =>
      have hmatched := (literalProgram_matched ml hr').mpr ⟨rfl, hm⟩
      cases h using ReflTransGen.head_induction_on with
      | refl => exact .refl
      | head hstep hrest =>
          rcases (literalProgram_next ml hr).mp hstep with ⟨m, hmis, _⟩
          have hnext : ∃ b, LitNext text s (r, unescape text) b :=
            ⟨_, litNext_iff.mpr ⟨m, hmis, rfl⟩⟩
          rcases hnext with ⟨b, hlit⟩
          rcases litNext_simulated ml hclosed hfirst hr hlit with ⟨hb, hrun⟩
          have hpath := attempted_leads (hrest.head hstep) hmatched hrun.to_reflTransGen
          have hlt := nextAttempt_trans_lt hrun
          have hble : b.1 ≤ s.length := by
            rcases TransGen.tail'_iff.mp hrun with ⟨_, _, hnext⟩
            exact hnext.le_length
          have hpair : b = (b.1, unescape text) := Prod.ext rfl hb
          have hlit' : LitNext text s (r, unescape text) (b.1, unescape text) := by
            rwa [hpair] at hlit
          exact (ih _ (by omega) hble hpath rfl).head hlit'

/-- Both searches end with the same match, or with none. -/
theorem searchResult_agrees {ng : Bool} {tm tm' : Threads} (hclosed : escapesClosed text = true)
    (hfirst : escapesFirst text = false) (h : LitOutcome text s (0, unescape text) tm)
    (h' : SearchEnd false ml s (literalProgram (unescape text)) ng 0 tm') :
    searchResult tm = searchResult tm' := by
  rcases h with ⟨b, hpath, hm, hstart, hend⟩ | ⟨h0, hall⟩
  · rcases litNext_path_simulated ml hclosed hfirst hpath with ⟨hb, hattempted⟩
    have hle := Attempted.le_length hattempted
    rw [LitMatched, hb] at hm
    have hmatched := (literalProgram_matched ml hle).mpr ⟨rfl, hm⟩
    rcases h' with ⟨r', q, hpath', hm', _, hstart', hend'⟩ | ⟨_, hall'⟩
    · obtain rfl := attempted_matched_unique hattempted hmatched hpath' hm'
      have hq := ((literalProgram_matched ml hle).mp hm').1
      rw [hb] at hend
      simp only [searchResult, hstart, hend, hstart', hend', hq]
    · exact absurd hmatched (hall' _ _ hattempted)
  · rcases h' with ⟨r', q, hpath', hm', _⟩ | ⟨h0', _⟩
    · have hle : r' ≤ s.length := Attempted.le_length hpath'
      have hprefix := ((literalProgram_matched ml hle).mp hm').2
      exact absurd hprefix
        (hall _ (attempted_simulated hclosed hfirst (Nat.zero_le _) hpath' hprefix hle))
    · rw [searchResult_missing h0, searchResult_missing h0']

theorem LitNext.fst_le {a : LitAttempt} (h : LitNext text s a b) : a.1 ≤ b.1 := by
  rcases litNext_iff.mp h with ⟨m, _, rfl⟩
  split <;> simp only <;> omega

theorem litPath_fst_le {a : LitAttempt} (h : ReflTransGen (LitNext text s) a b) : a.1 ≤ b.1 := by
  induction h with
  | refl => exact Nat.le_refl _
  | tail _ hstep ih => exact Nat.le_trans ih hstep.fst_le

/-- An input the two searches tell apart: the backslashes the expression begins
with (one, when it begins with none) stand once more in front of it. -/
theorem searchResult_differs {ng : Bool} {tm tm' : Threads} {n k : Nat} {y : CChar}
    {u : List CChar} (hfirst : escapesFirst text = true) (hy : y ≠ derefSym)
    (hu : unescape text = List.replicate n derefSym ++ y :: u) (hk : k = max 1 n)
    (hs : s = List.replicate (k + n) derefSym ++ y :: u)
    (h : LitOutcome text s (0, unescape text) tm)
    (h' : SearchEnd false ml s (literalProgram (unescape text)) ng 0 tm') :
    searchResult tm ≠ searchResult tm' := by
  rcases rawPattern_escapesFirst hfirst with ⟨htext0, hraw⟩
  have hget : ∀ i < k + n, s[i]? = some derefSym := by
    intro i hi
    rw [hs, List.getElem?_append_left (by simpa using hi), List.getElem?_replicate, if_pos hi]
  have hgety : s[k + n]? = some y := by
    rw [hs, List.getElem?_append_right (by simp)]
    simp
  have hlen : s.length = k + n + u.length + 1 := by
    rw [hs]
    simp
    omega
  have hwlen : (unescape text).length = n + u.length + 1 := by
    rw [hu]
    simp
    omega
  have hwy : (unescape text)[n]? = some y := by
    rw [hu, List.getElem?_append_right (by simp)]
    simp
  have hdrop : ∀ i, i ≤ k + n → s.drop i = List.replicate (k + n - i) derefSym ++ y :: u := by
    intro i hi
    rw [hs, List.drop_append_of_le_length (by simpa using hi), List.drop_replicate]
  -- the first attempt fails behind the backslashes
  have hmis : Mismatch (unescape text) s 0 n := by
    refine ⟨by omega, by omega, ?_, ?_⟩
    · rw [hdrop 0 (Nat.zero_le _), hu, List.take_left' (by simp)]
      refine List.IsPrefix.trans ?_ (List.prefix_append _ _)
      rw [List.prefix_replicate_iff]
      simp
    · rw [hwy, Nat.zero_add, hget n (by omega)]
      simpa using hy
  -- the program is tried and matches behind the ones put in front
  have hattempted : Attempted false ml s (literalProgram (unescape text)) k := by
    apply ReflTransGen.single
    exact (literalProgram_next ml (Nat.zero_le _)).mpr ⟨n, hmis, by omega⟩
  have hprefix : unescape text <+: s.drop k := by
    rw [hdrop k (by omega), hu, Nat.add_sub_cancel_left]
  have hmatched := (literalProgram_matched ml (show k ≤ s.length by omega)).mpr ⟨rfl, hprefix⟩
  have hfound : (searchResult tm').start = some (k : Int) := by
    rcases h' with ⟨r', q, hpath, hm, _, hstart, hend⟩ | ⟨_, hall⟩
    · rw [(searchResult_found (by omega)).2, hstart,
        attempted_matched_unique hpath hm hattempted hmatched]
    · exact absurd hmatched (hall _ _ hattempted)
  -- the literal search is resumed there with a backslash too many
  have hnext : LitNext text s (0, unescape text) (n, derefSym :: unescape text) := by
    refine litNext_iff.mpr ⟨n, hmis, ?_⟩
    have hat : at' s n = derefSym := by
      have hgetn := hget n (by omega)
      rw [at'_getElem? (by omega)] at hgetn
      exact Option.some.inj hgetn
    simp only [Nat.zero_add]
    rw [htext0, hat, if_pos rfl, hraw]
  have hother : ∀ c, ReflTransGen (LitNext text s) (0, unescape text) c → LitMatched s c →
      c.1 ≠ k := by
    intro c hpath hm
    rcases Nat.eq_zero_or_pos n with rfl | hn
    · have hthere : LitMatched s (0, derefSym :: unescape text) := by
        rw [LitMatched, hdrop 0 (Nat.zero_le _), hu]
        have hk1 : k = 1 := hk
        rw [hk1]
        exact List.prefix_refl _
      rw [← litMatched_unique (.single hnext) hthere hpath hm]
      show 0 ≠ k
      omega
    · have hkn : k = n := by omega
      have hmis' : Mismatch (derefSym :: unescape text) s n n := by
        refine ⟨by rw [List.length_cons]; omega, by omega, ?_, ?_⟩
        · rw [hdrop n (by omega), hu, ← List.cons_append, ← List.replicate_succ,
            List.take_append_of_le_length (by simp), List.take_replicate]
          refine List.IsPrefix.trans ?_ (List.prefix_append _ _)
          rw [List.prefix_replicate_iff]
          simp
          omega
        · have hlast : (derefSym :: unescape text)[n]? = some derefSym := by
            rw [hu, ← List.cons_append, ← List.replicate_succ,
              List.getElem?_append_left (by simp), List.getElem?_replicate, if_pos (by omega)]
          have hyn : s[n + n]? = some y := by
            rw [← hgety, hkn]
          rw [hlast, hyn]
          simpa using hy.symm
      have hnext' : LitNext text s (n, derefSym :: unescape text) (n + n + 1, unescape text) := by
        refine litNext_iff.mpr ⟨n, hmis', ?_⟩
        have hat : at' s (n + n) = y := by
          have hgetn := hgety
          rw [hkn, at'_getElem? (by omega)] at hgetn
          exact Option.some.inj hgetn
        simp only
        rw [htext0, hat, if_neg (Ne.symm hy)]
      have hpast : n + n + 1 ≤ c.1 := by
        cases hpath using ReflTransGen.head_induction_on with
        | refl => exact absurd hm hnext.not_matched
        | head hstep hpath =>
            obtain rfl := hnext.unique hstep
            cases hpath using ReflTransGen.head_induction_on with
            | refl => exact absurd hm hnext'.not_matched
            | head hstep hpath =>
                obtain rfl := hnext'.unique hstep
                exact litPath_fst_le hpath
      omega
  intro heq
  rw [← heq] at hfound
  rcases h with ⟨b, hpath, hm, hstart, hend⟩ | ⟨h0, _⟩
  · rw [(searchResult_found (by omega)).2, hstart] at hfound
    exact hother b hpath hm (by simpa using hfound)
  · rw [searchResult_missing h0] at hfound
    cases hfound

end

/-! ## rxvm_match -/

/-- The input has the characters of the literal, one by one. -/
def SameChars (icase : Bool) (w s : List CChar) : Prop :=
  List.Forall₂ (fun a b => charMatch icase a b = true) w s

/-- `simple_match` is about to read the character at position `m` of a match,
all before it having compared equal. -/
structure MatchPos (icase : Bool) (text s : List CChar) (m : Nat) (st : SimpleState) : Prop where
  same : SameChars icase (unescape text) s ↔
    SameChars icase (unescape (text.drop st.simple)) (s.drop m)
  le_length : m ≤ s.length
  chars : st.tm.chars = m
  data : st.data = m
  matchEnd : st.tm.matchEnd = 0
  endchar : st.tm.endchar = 0
  search : st.tm.search = false
  icase_eq : st.tm.icase = icase

section

variable {icase : Bool} {text s : List CChar}

/-- What `rxvm_match` makes of the end of `simple_match`. -/
def simpleOutcome (s : List CChar) (r : Int × SimpleState) : Int :=
  if r.1 = 0 then 0 else matchResult s r.2.tm

theorem simple_match_run (htext : NoNul text) (hs : NoNul s) :
    ∀ (k m fuel : Nat) (st : SimpleState), s.length - m = k → 2 * k + 1 ≤ fuel →
      MatchPos icase text s m st →
      ∃ r, simpleLoop s text fuel .loop st = some r ∧
        (simpleOutcome s r = 1 ∨ simpleOutcome s r = 0) ∧
        (simpleOutcome s r = 1 ↔ SameChars icase (unescape text) s) := by
  -- induction on what is left of the input
  intro k
  induction k with
  | zero =>
      intro m fuel st hk hfuel h
      obtain ⟨fuel, rfl⟩ : ∃ f, fuel = f + 1 := ⟨fuel - 1, by omega⟩
      have hle := h.le_length
      obtain rfl : m = s.length := by omega
      have hsame := h.same
      rw [List.drop_length] at hsame
      -- both have ended, so all of both has been compared
      by_cases hend : at' text st.simple = 0
      · refine ⟨_, simpleLoop_whole hend, ?_, ?_⟩
        · exact matchResult_cases _
        · rw [hsame, (at'_eq_zero_iff_drop htext _).mp hend]
          refine iff_of_true ((matchResult_eq_one_iff hs).mpr ?_) List.Forall₂.nil
          simp [h.chars]
      · -- the input ends first, and `matchEnd` is still 0
        have hc : at' s st.data = st.tm.endchar := by
          rw [h.data, h.endchar]
          exact (at'_eq_zero_iff hs _).mpr (Nat.le_refl _)
        refine ⟨_, simpleLoop_end hend hc, ?_, ?_⟩
        · exact matchResult_cases _
        · have hdrop : text.drop st.simple ≠ [] := by
            intro hnil
            exact hend ((at'_eq_zero_iff_drop htext _).mpr hnil)
          rw [hsame, unescape_drop hdrop]
          refine iff_of_false ?_ ?_
          · intro hone
            have hlt := (matchResult_eq_one_iff hs).mp hone
            simp [h.matchEnd] at hlt
          · intro hall
            cases hall
  | succ k ih =>
      intro m fuel st hk hfuel h
      obtain ⟨fuel, rfl⟩ : ∃ f, fuel = f + 2 := ⟨fuel - 2, by omega⟩
      have hm : m < s.length := by omega
      have hsame := h.same
      -- the text ends first: fewer characters than the input has were read
      by_cases hend : at' text st.simple = 0
      · refine ⟨_, simpleLoop_whole hend, ?_, ?_⟩
        · exact matchResult_cases _
        · rw [hsame, (at'_eq_zero_iff_drop htext _).mp hend, List.drop_eq_getElem_cons hm]
          refine iff_of_false ?_ ?_
          · intro hone
            have hlt := (matchResult_eq_one_iff hs).mp hone
            simp only [h.chars] at hlt
            omega
          · intro hall
            cases hall
      · -- one more character of each is compared, a `\` of the text skipped
        have hc : at' s st.data ≠ st.tm.endchar := by
          rw [h.data, h.endchar]
          intro h0
          have := (at'_eq_zero_iff hs m).mp h0
          omega
        have hdrop : text.drop st.simple ≠ [] := by
          intro hnil
          exact hend ((at'_eq_zero_iff_drop htext _).mpr hnil)
        rw [unescape_drop hdrop, List.drop_eq_getElem_cons hm, ← at'_of_lt hm] at hsame
        rw [simpleLoop_read hend hc, h.data]
        set j := if at' text st.simple = derefSym then st.simple + 1 else st.simple
        by_cases hmatch : charMatch icase (at' text j) (at' s m) = true
        · have hpos : MatchPos icase text s (m + 1)
              { tm := { st.tm with chars := st.tm.chars + 1 }, data := m + 1, c := at' s m,
                simple := j + 1 } := by
            refine ⟨?_, hm, by simp [h.chars], rfl, h.matchEnd, h.endchar, h.search, h.icase_eq⟩
            rw [hsame]
            constructor
            · intro hall
              cases hall with
              | cons _ hrest => exact hrest
            · exact List.Forall₂.cons hmatch
          rcases ih (m + 1) fuel _ (by omega) (by omega) hpos with ⟨r, hr, hres⟩
          refine ⟨r, ?_, hres⟩
          exact (simpleLoop_equal (by rw [← h.icase_eq] at hmatch; exact hmatch)).trans hr
        · -- `rxvm_match` does not search: the first difference ends it
          have hfail : ∀ st' : SimpleState, st'.tm.icase = icase → st'.tm.search = false →
              st'.c = at' s m → st'.simple = j →
              simpleLoop s text (fuel + 1) .skipReadchar st' = some (0, st') := by
            intro st' hicase hsearch hc' hsimple
            rw [simpleLoop, if_neg (by rw [hicase, hc', hsimple]; exact hmatch), if_pos hsearch]
          refine ⟨_, hfail _ h.icase_eq h.search rfl rfl, Or.inr rfl, ?_⟩
          rw [hsame]
          refine iff_of_false (by simp [simpleOutcome]) ?_
          intro hall
          cases hall with
          | cons hhead _ => exact hmatch hhead

/-- `rxvm_match` of a literal-only expression compares the whole input. -/
theorem rxvmMatch_simple {compiled : Compiled} (hsimple : compiled.simple = some text)
    (htext : NoNul text) (hs : NoNul s) (flags : Flags) :
    ∃ ret, rxvmMatch compiled s flags = some ret ∧ (ret = 1 ∨ ret = 0) ∧
      (ret = 1 ↔ SameChars flags.icase (unescape text) s) := by
  have hpos : MatchPos flags.icase text s 0
      { tm := { matchThreads flags with matchStart := (matchThreads flags).chars },
        data := 0, c := 0, simple := 0 } :=
    ⟨by simp, Nat.zero_le _, rfl, rfl, rfl, rfl, rfl, rfl⟩
  rcases simple_match_run htext hs s.length 0 (stringFuel s) _ (by omega)
    (by simp [stringFuel]; omega) hpos with ⟨r, hr, hcases, hiff⟩
  refine ⟨simpleOutcome s r, ?_, hcases, hiff⟩
  unfold rxvmMatch
  simp only [hsimple, simpleMatch, hr]
  rfl

theorem sameChars_false {w : List CChar} : SameChars false w s ↔ w = s := by
  have hrel : (fun a b : CChar => charMatch false a b = true) = Eq := by
    funext a b
    exact propext charMatch_false
  rw [SameChars, hrel, List.forall₂_eq_eq_eq]

end

/-! ## The two agree -/

/-- The compiled expression, had its literals been compiled. -/
def asProgram (compiled : Compiled) (text : List CChar) : Compiled :=
  { compiled with exe := literalProgram (unescape text), simple := none }

/-- The two compiled forms give the same results on an input. -/
def Agree (a b : Compiled) (s : List CChar) (flags : Flags) : Prop :=
  ∃ ret result, rxvmMatch a s flags = some ret ∧ rxvmMatch b s flags = some ret ∧
    rxvmSearch a s flags = some result ∧ rxvmSearch b s flags = some result

section

variable {compiled : Compiled} {text s : List CChar} {flags : Flags}

theorem rxvmMatch_agrees (hsimple : compiled.simple = some text) (htext : NoNul text)
    (hs : NoNul s) (hicase : flags.icase = false) :
    ∃ ret, rxvmMatch compiled s flags = some ret ∧
      rxvmMatch (asProgram compiled text) s flags = some ret := by
  rcases rxvmMatch_simple hsimple htext hs flags with ⟨ret, hret, hcases, hiff⟩
  rcases @rxvmMatch_spec (asProgram compiled text) rfl
    (literalProgram_wellFormed _) s hs flags with ⟨ret', hret', hcases', hiff'⟩
  -- the program of the unescaped text accepts that text only
  have hsame : Accepts false true s (literalProgram (unescape text)) 0 s.length ↔
      unescape text = s := by
    rw [← matched_iff_accepts, literalProgram_matched true (Nat.zero_le _)]
    constructor
    · rintro ⟨hlen, hprefix⟩
      exact hprefix.eq_of_length (by rw [List.drop_zero]; omega)
    · rintro rfl
      exact ⟨by simp, List.prefix_refl _⟩
  have heq : ret = ret' := by
    rw [hicase, sameChars_false] at hiff
    rw [hicase] at hiff'
    have hone := hiff.trans (hsame.symm.trans hiff'.symm)
    rcases hcases with rfl | rfl
    · exact (hone.mp rfl).symm
    · rcases hcases' with rfl | rfl
      · exact hone.mpr rfl
      · rfl
  exact ⟨ret, hret, by rw [heq]; exact hret'⟩

/-- The two searches, as the results of `LitOutcome` and `SearchEnd`. -/
theorem rxvmSearch_both (hsimple : compiled.simple = some text) (htext : NoNul text)
    (hs : NoNul s) (hicase : flags.icase = false) :
    ∃ tm tm', rxvmSearch compiled s flags = some (searchResult tm) ∧
      rxvmSearch (asProgram compiled text) s flags = some (searchResult tm') ∧
      LitOutcome text s (0, unescape text) tm ∧
      SearchEnd false flags.multiline s (literalProgram (unescape text)) flags.nongreedy 0 tm' := by
  rcases simpleMatch_search htext hs flags hicase with ⟨res, hres, hout⟩
  rcases vmExecute_searchEnd (literalProgram_wellFormed (unescape text)) hs flags with
    ⟨res', hres', hout'⟩
  rw [hicase] at hout'
  refine ⟨res.2.tm, res'.2.tm, ?_, ?_, hout, hout'⟩
  · unfold rxvmSearch
    simp only [hsimple, hres]
    rfl
  · unfold rxvmSearch
    simp only [asProgram, hres']
    rfl

theorem mem_unescape {text : List CChar} {c : CChar} (hclosed : escapesClosed text = true)
    (h : c ∈ unescape text) : c ∈ text := by
  induction text using unescape.induct with
  | case1 => exact h
  | case2 => simp [escapesClosed] at hclosed
  | case3 d rest ih =>
      rw [escapesClosed_escaped] at hclosed
      rw [unescape_deref] at h
      rcases List.mem_cons.mp h with rfl | h
      · simp
      · exact List.mem_cons_of_mem _ (List.mem_cons_of_mem _ (ih hclosed h))
  | case4 d rest hd ih =>
      rw [escapesClosed_cons hd] at hclosed
      rw [unescape_cons hd] at h
      rcases List.mem_cons.mp h with rfl | h
      · exact List.mem_cons_self
      · exact List.mem_cons_of_mem _ (ih hclosed h)

/-- The literal path and the machine agree on every input exactly if the
expression does not begin, behind escaped backslashes, with an escaped
character. -/
theorem literal_agrees_iff {g g' : Statics} {exp : List CChar}
    (h : rxvmCompile g exp = .ok (.ok compiled, g')) (hsimple : compiled.simple = some text)
    (hicase : flags.icase = false) :
    (∀ s, NoNul s → Agree compiled (asProgram compiled text) s flags) ↔
      escapesFirst (cstring exp) = false := by
  rcases rxvmCompile_simple h hsimple with ⟨rfl, hclosed⟩
  have htext := noNul_cstring exp
  constructor
  · intro hall
    by_contra hfirst
    rw [Bool.not_eq_false] at hfirst
    rcases unescape_escapesFirst hfirst with ⟨n, y, u, hy, hu⟩
    -- an escape in front: this is the input that tells the two apart
    set s := List.replicate (max 1 n + n) derefSym ++ y :: u with hs
    have hnul : NoNul s := by
      intro c hc
      rcases List.mem_append.mp hc with hc | hc
      · rw [List.eq_of_mem_replicate hc]
        decide
      · apply htext
        apply mem_unescape hclosed
        rw [hu]
        exact List.mem_append_right _ hc
    rcases rxvmSearch_both hsimple htext hnul hicase with ⟨tm, tm', hrun, hrun', hout, hout'⟩
    rcases hall s hnul with ⟨_, result, _, _, hres, hres'⟩
    have hdiff := searchResult_differs hfirst hy hu rfl hs hout hout'
    rw [hrun] at hres
    rw [hrun'] at hres'
    exact hdiff (Option.some.inj (hres.trans hres'.symm))
  -- no escape in front: the two resume at the same place after every failed attempt
  · intro hfirst s hs
    rcases rxvmMatch_agrees hsimple htext hs hicase with ⟨ret, hret, hret'⟩
    rcases rxvmSearch_both hsimple htext hs hicase with ⟨tm, tm', hrun, hrun', hout, hout'⟩
    refine ⟨ret, searchResult tm, hret, hret', hrun, ?_⟩
    rw [searchResult_agrees hclosed hfirst hout hout']
    exact hrun'

/-- The expression `a\*`. -/
theorem literal_agrees_iff_astar : ∃ compiled g',
    rxvmCompile Statics.init [97, 92, 42] = .ok (.ok compiled, g') ∧
      ((∀ s, NoNul s → Agree compiled (asProgram compiled [97, 92, 42]) s {}) ↔
        escapesFirst (cstring [97, 92, 42]) = false) := by
  have h : ∃ compiled g', rxvmCompile Statics.init [97, 92, 42] = .ok (.ok compiled, g') ∧
      compiled.simple = some [97, 92, 42] := ⟨_, _, rfl, rfl⟩
  rcases h with ⟨compiled, g', h, hsimple⟩
  exact ⟨compiled, g', h, literal_agrees_iff h hsimple rfl⟩

/-- The expression `\*` on the input `\*`: the literal path reports a match at
0, where the backslash is, and the machine one at 1. -/
theorem literal_disagrees : ∃ compiled g' text,
    rxvmCompile Statics.init [92, 42] = .ok (.ok compiled, g') ∧ compiled.simple = some text ∧
      ¬ Agree compiled (asProgram compiled text) [92, 42] {} := by
  refine ⟨_, _, _, rfl, rfl, ?_⟩
  rintro ⟨_, result, _, _, hres, hres'⟩
  have h0 : result.start = some 0 := by
    rw [← Option.some.inj hres]
    rfl
  have h1 : result.start = some 1 := by
    rw [← Option.some.inj hres']
    rfl
  rw [h0] at h1
  cases h1

end

end Rxvm
