import Mathlib.Logic.Relation
import Rxvm.Search
import Rxvm.Scan

/-!
# Rxvm.SimpleSpec — what a search of simple_match finds

The text of a literal-only expression is stored with its escapes, and
`simple_match` skips a backslash when it reads the next character of the
input. A failed comparison is resumed with the character that failed, against
`*simple` at the start of the text: there the backslash is not skipped. So an
attempt compares the input with one of two strings: the unescaped text, or,
behind a failure, `rawPattern`, whose first character is the first one stored.
-/

namespace Rxvm

open Relation

/-- The characters a stored text stands for. A backslash with nothing behind it
is compared with the NUL, which no input holds. -/
def unescape : List CChar → List CChar
  | [] => []
  | c :: rest =>
    if c = derefSym then
      match rest with
      | [] => [0]
      | d :: rest => d :: unescape rest
    else c :: unescape rest

/-- The string an attempt compares when it starts behind a failure. -/
def rawPattern (text : List CChar) : List CChar := at' text 0 :: unescape (text.drop 1)

theorem unescape_cons {c : CChar} (hc : c ≠ derefSym) (rest : List CChar) :
    unescape (c :: rest) = c :: unescape rest := by
  rw [unescape.eq_def]
  exact if_neg hc

theorem unescape_deref (d : CChar) (rest : List CChar) :
    unescape (derefSym :: d :: rest) = d :: unescape rest := by
  rw [unescape.eq_def]
  exact if_pos rfl

/-- Every backslash has a character behind it. -/
def escapesClosed : List CChar → Bool
  | [] => true
  | c :: rest =>
    if c = derefSym then
      match rest with
      | [] => false
      | _ :: rest => escapesClosed rest
    else escapesClosed rest

/-- An attempt: where it starts, and the string it compares. -/
abbrev LitAttempt := Nat × List CChar

/-- The attempt `a` fails at input position `a.1 + m`, and the next one is
`b`. -/
def LitNext (text s : List CChar) (a b : LitAttempt) : Prop :=
  ∃ m, m < a.2.length ∧ a.1 + m < s.length ∧ a.2.take m <+: s.drop a.1 ∧
    a.2[m]? ≠ s[a.1 + m]? ∧
    b = if at' text 0 = at' s (a.1 + m) then (a.1 + m, rawPattern text)
      else (a.1 + m + 1, unescape text)

/-- The string of an attempt stands in the input where the attempt starts. -/
def LitMatched (s : List CChar) (a : LitAttempt) : Prop := a.2 <+: s.drop a.1

/-- How a search ends that was at the attempt `a`. -/
def LitOutcome (text s : List CChar) (a : LitAttempt) (tm : Threads) : Prop :=
  (∃ b, ReflTransGen (LitNext text s) a b ∧ LitMatched s b ∧
      tm.matchStart = b.1 ∧ tm.matchEnd = b.1 + b.2.length + 1) ∨
    (tm.matchEnd = 0 ∧ ∀ b, ReflTransGen (LitNext text s) a b → ¬ LitMatched s b)

section

variable {text s : List CChar} {a b : LitAttempt}

/-! ## Attempts -/

theorem take_succ_eq_concat {w : List CChar} {m : Nat} (h : m < w.length) :
    w.take (m + 1) = w.take m ++ [w[m]] := by
  simp

/-- One more character compared equal. -/
theorem take_succ_isPrefix {w s : List CChar} {r m : Nat} (hm : m < w.length)
    (htake : w.take m <+: s.drop r) (heq : w[m]? = s[r + m]?) : w.take (m + 1) <+: s.drop r := by
  rw [List.prefix_iff_eq_take] at htake ⊢
  have hlen : (w.take (m + 1)).length = m + 1 := by simp; omega
  have hlen' : (w.take m).length = m := by simp; omega
  rw [hlen'] at htake
  rw [hlen, List.take_add_one, htake, List.take_add_one, heq, List.getElem?_drop]

theorem getElem?_of_isPrefix {w s : List CChar} {r m : Nat} (hm : m < w.length)
    (h : w <+: s.drop r) : w[m]? = s[r + m]? := by
  obtain ⟨t, ht⟩ := h
  have : (w ++ t)[m]? = s[r + m]? := by rw [ht, List.getElem?_drop]
  rwa [List.getElem?_append_left hm] at this

theorem LitNext.not_matched (h : LitNext text s a b) : ¬ LitMatched s a := by
  obtain ⟨m, hm, _, _, hne, _⟩ := h
  intro hmatch
  exact hne (getElem?_of_isPrefix hm hmatch)

theorem LitNext.unique {c : LitAttempt} (hb : LitNext text s a b) (hc : LitNext text s a c) :
    b = c := by
  obtain ⟨m, hm, _, htake, hne, rfl⟩ := hb
  obtain ⟨n, hn, _, htake', hne', rfl⟩ := hc
  have key : ∀ {i j : Nat}, i < j → j < a.2.length → a.2.take j <+: s.drop a.1 →
      a.2[i]? = s[a.1 + i]? := by
    intro i j hij hj htake
    have := getElem?_of_isPrefix (m := i) (by simp; omega) htake
    rwa [List.getElem?_take_of_lt hij] at this
  rcases Nat.lt_trichotomy m n with hlt | rfl | hlt
  · exact absurd (key hlt hn htake') hne
  · rfl
  · exact absurd (key hlt hm htake) hne'

/-- There is one attempt with a match at most. -/
theorem litMatched_unique {b c : LitAttempt} (hb : ReflTransGen (LitNext text s) a b)
    (hmb : LitMatched s b) (hc : ReflTransGen (LitNext text s) a c) (hmc : LitMatched s c) :
    b = c := by
  induction hb using ReflTransGen.head_induction_on with
  | refl =>
      cases hc using ReflTransGen.head_induction_on with
      | refl => rfl
      | head hstep _ => exact absurd hmb hstep.not_matched
  | head hstep _ ih =>
      cases hc using ReflTransGen.head_induction_on with
      | refl => exact absurd hmc hstep.not_matched
      | head hstep' hc' =>
          obtain rfl := hstep.unique hstep'
          exact ih hc'

theorem LitOutcome.head {tm : Threads} (hstep : LitNext text s a b)
    (h : LitOutcome text s b tm) : LitOutcome text s a tm := by
  rcases h with ⟨c, hpath, hrest⟩ | ⟨h0, hall⟩
  · exact Or.inl ⟨c, .head hstep hpath, hrest⟩
  · refine Or.inr ⟨h0, ?_⟩
    intro c hpath hm
    cases hpath using ReflTransGen.head_induction_on with
    | refl => exact hstep.not_matched hm
    | head hstep' hpath' =>
        obtain rfl := hstep.unique hstep'
        exact hall c hpath' hm

/-! ## The run -/

/-- `simple_match` is about to read the character at position `a.1 + m`, the
`m` characters of the attempt before it having compared equal. -/
structure LitPos (text s : List CChar) (a : LitAttempt) (m : Nat) (st : SimpleState) : Prop where
  simple : unescape (text.drop st.simple) = a.2.drop m
  le : m ≤ a.2.length
  same : a.2.take m <+: s.drop a.1
  chars : st.tm.chars = a.1 + m
  data : st.data = a.1 + m
  matchStart : st.tm.matchStart = a.1
  matchEnd : st.tm.matchEnd = 0
  endchar : st.tm.endchar = 0
  search : st.tm.search = true
  icase : st.tm.icase = false
  le_length : a.1 + m ≤ s.length

theorem at'_eq_head (k : Nat) : at' text k = (text.drop k).headD 0 := by
  simp [at', List.getD_eq_getElem?_getD, List.headD_eq_head?_getD, List.head?_drop]

theorem at'_eq_zero_iff_drop (htext : NoNul text) (k : Nat) :
    at' text k = 0 ↔ text.drop k = [] := by
  rw [at'_eq_zero_iff htext, List.drop_eq_nil_iff]

/-- The character compared next, and what is left of the text behind it. -/
theorem unescape_drop {k : Nat} (hk : text.drop k ≠ []) :
    unescape (text.drop k) =
      at' text (if at' text k = derefSym then k + 1 else k) ::
        unescape (text.drop ((if at' text k = derefSym then k + 1 else k) + 1)) := by
  rw [at'_eq_head k]
  cases hdrop : text.drop k with
  | nil => exact absurd hdrop hk
  | cons c rest =>
      have hrest : text.drop (k + 1) = rest := by
        rw [← List.drop_drop, hdrop]; rfl
      have hrest' : text.drop (k + 1 + 1) = rest.drop 1 := by
        rw [← List.drop_drop, hrest]
      by_cases hc : c = derefSym
      · simp only [List.headD_cons, hc, if_true]
        rw [at'_eq_head, hrest, hrest']
        cases rest with
        | nil => simp [unescape]
        | cons d rest => simp [unescape]
      · simp only [List.headD_cons, hc, if_false]
        rw [at'_eq_head, hdrop, hrest]
        exact unescape_cons hc rest

theorem at'_getElem? {l : List CChar} {k : Nat} (h : k < l.length) : l[k]? = some (at' l k) := by
  rw [at'_of_lt h]
  simp [h]

theorem litAttempt_failed (text : List CChar) {m : Nat} (hm : m < a.2.length) (hp : a.1 + m < s.length)
    (hsame : a.2.take m <+: s.drop a.1) (hne : at' a.2 m ≠ at' s (a.1 + m)) :
    LitNext text s a (if at' text 0 = at' s (a.1 + m) then (a.1 + m, rawPattern text)
      else (a.1 + m + 1, unescape text)) := by
  refine ⟨m, hm, hp, hsame, ?_, rfl⟩
  rw [at'_getElem? hm, at'_getElem? hp]
  simpa using hne

/-! ## One turn of the loop -/

section

variable {fuel : Nat} {st : SimpleState}

theorem simpleLoop_whole (hend : at' text st.simple = 0) :
    simpleLoop s text (fuel + 1) .loop st =
      some (1, { st with tm := { st.tm with matchEnd := st.tm.chars + 1 } }) := by
  rw [simpleLoop, if_pos hend]

theorem simpleLoop_end (hend : at' text st.simple ≠ 0) (hc : at' s st.data = st.tm.endchar) :
    simpleLoop s text (fuel + 1) .loop st =
      some (1, { tm := { st.tm with chars := st.tm.chars + 1 }, data := st.data + 1,
                 c := at' s st.data, simple := st.simple }) := by
  rw [simpleLoop, if_neg hend]
  exact if_pos hc

theorem simpleLoop_read (hend : at' text st.simple ≠ 0) (hc : at' s st.data ≠ st.tm.endchar) :
    simpleLoop s text (fuel + 1) .loop st = simpleLoop s text fuel .skipReadchar
      { tm := { st.tm with chars := st.tm.chars + 1 }, data := st.data + 1, c := at' s st.data,
        simple := if at' text st.simple = derefSym then st.simple + 1 else st.simple } := by
  rw [simpleLoop, if_neg hend]
  exact if_neg hc

theorem simpleLoop_equal (h : charMatch st.tm.icase (at' text st.simple) st.c = true) :
    simpleLoop s text (fuel + 1) .skipReadchar st =
      simpleLoop s text fuel .loop { st with simple := st.simple + 1 } := by
  rw [simpleLoop, if_pos h]

theorem simpleLoop_again (h : charMatch st.tm.icase (at' text st.simple) st.c = false)
    (hsearch : st.tm.search = true) (h0 : st.simple ≠ 0) :
    simpleLoop s text (fuel + 1) .skipReadchar st = simpleLoop s text fuel .skipReadchar
      { st with simple := 0, tm := { st.tm with matchStart := st.tm.chars - 1 } } := by
  rw [simpleLoop, if_neg (by simp [h]), if_neg (by simp [hsearch]), if_pos h0]

theorem simpleLoop_fresh (h : charMatch st.tm.icase (at' text st.simple) st.c = false)
    (hsearch : st.tm.search = true) (h0 : st.simple = 0) :
    simpleLoop s text (fuel + 1) .skipReadchar st = simpleLoop s text fuel .loop
      { st with tm := { st.tm with matchStart := st.tm.chars } } := by
  rw [simpleLoop, if_neg (by simp [h]), if_neg (by simp [hsearch]), if_neg (by simp [h0])]

end

/-- The search from the attempt `a`, `m` characters of which have compared
equal. -/
theorem lit_run (htext : NoNul text) (hs : NoNul s) :
    ∀ (k fuel m : Nat) (a : LitAttempt) (st : SimpleState), s.length - (a.1 + m) = k →
      3 * k + 1 ≤ fuel → LitPos text s a m st →
      ∃ res, simpleLoop s text fuel .loop st = some res ∧ LitOutcome text s a res.2.tm := by
  intro k
  induction k using Nat.strong_induction_on with
  | _ k ih =>
  intro fuel m a st hk hfuel h
  obtain ⟨fuel, rfl⟩ : ∃ f, fuel = f + 1 := ⟨fuel - 1, by omega⟩
  by_cases hend : at' text st.simple = 0
  · -- the whole string has been compared
    refine ⟨_, simpleLoop_whole hend, Or.inl ⟨a, .refl, ?_, ?_⟩⟩
    all_goals
      have hnil : a.2.drop m = [] := by
        rw [← h.simple, (at'_eq_zero_iff_drop htext _).mp hend]; rfl
      have hlen : a.2.length = m := by
        have := List.drop_eq_nil_iff.mp hnil
        have := h.le
        omega
    · have hsame := h.same
      rwa [← hlen, List.take_length] at hsame
    · exact ⟨h.matchStart, by simp [h.chars, hlen]⟩
  have hcons := unescape_drop (fun hd => hend ((at'_eq_zero_iff_drop htext _).mpr hd))
  rw [h.simple] at hcons
  set j := if at' text st.simple = derefSym then st.simple + 1 else st.simple with hj
  have hm : m < a.2.length := by
    by_contra hge
    rw [List.drop_eq_nil_iff.mpr (by omega)] at hcons
    exact absurd hcons (by simp)
  have hwm : at' a.2 m = at' text j := by
    rw [at'_eq_head, hcons]; rfl
  have hrest : a.2.drop (m + 1) = unescape (text.drop (j + 1)) := by
    rw [← List.drop_drop, hcons]; rfl
  by_cases hc : at' s (a.1 + m) = 0
  · -- the end of the input
    have hlen : a.1 + m = s.length := by
      have := (at'_eq_zero_iff hs _).mp hc
      have := h.le_length
      omega
    refine ⟨_, simpleLoop_end hend (by rw [h.data, h.endchar, hc]), Or.inr ⟨h.matchEnd, ?_⟩⟩
    intro b hpath hmb
    have hnot : ¬ LitMatched s a := by
      intro hma
      have := hma.length_le
      simp only [List.length_drop] at this
      omega
    cases hpath using ReflTransGen.head_induction_on with
    | refl => exact hnot hmb
    | head hstep _ =>
        obtain ⟨n, hn, hpn, _, hne, _⟩ := hstep
        have := getElem?_of_isPrefix (m := n) (by simp; omega) h.same
        rw [List.getElem?_take_of_lt (by omega)] at this
        exact hne this
  have hp : a.1 + m < s.length := by
    by_contra hge
    exact hc ((at'_eq_zero_iff hs _).mpr (by omega))
  -- the character is read and compared
  set st₁ : SimpleState := { tm := { st.tm with chars := st.tm.chars + 1 }, data := a.1 + m + 1,
                             c := at' s (a.1 + m), simple := j } with hst₁
  have hread : simpleLoop s text (fuel + 1) .loop st = simpleLoop s text fuel .skipReadchar st₁ := by
    rw [simpleLoop_read hend (by rw [h.data, h.endchar]; exact hc), hst₁, h.data]
  rw [hread]
  obtain ⟨fuel, rfl⟩ : ∃ f, fuel = f + 2 := ⟨fuel - 2, by omega⟩
  by_cases heq : at' text j = at' s (a.1 + m)
  · have hmatch : charMatch st₁.tm.icase (at' text st₁.simple) st₁.c = true := by
      simp [hst₁, h.icase, charMatch, heq]
    have hpos : LitPos text s a (m + 1) { st₁ with simple := j + 1 } := by
      refine ⟨hrest.symm, hm, ?_, ?_, ?_, h.matchStart, h.matchEnd, h.endchar, h.search, h.icase, hp⟩
      · apply take_succ_isPrefix hm h.same
        rw [at'_getElem? hm, at'_getElem? hp, hwm, heq]
      · simp [hst₁, h.chars, Nat.add_assoc]
      · simp [hst₁, Nat.add_assoc]
    obtain ⟨res, hres, hout⟩ := ih (s.length - (a.1 + (m + 1))) (by omega) (fuel + 1) (m + 1) a _ rfl
      (by omega) hpos
    exact ⟨res, (simpleLoop_equal hmatch).trans hres, hout⟩
  have hmatch : charMatch st₁.tm.icase (at' text st₁.simple) st₁.c = false := by
    simp [hst₁, h.icase, charMatch, heq]
  have hsearch : st₁.tm.search = true := h.search
  have hfail := litAttempt_failed text hm hp h.same (by rw [hwm]; exact heq)
  -- a fresh attempt at the next character
  have hfresh : ∀ tm : Threads, tm = { st₁.tm with matchStart := a.1 + m + 1 } →
      at' text 0 ≠ at' s (a.1 + m) → ∀ f, 3 * (s.length - (a.1 + m + 1)) + 1 ≤ f →
      ∃ res, simpleLoop s text f .loop { st₁ with tm := tm, simple := 0 } = some res ∧
        LitOutcome text s a res.2.tm := by
    rintro tm rfl hne f hf
    rw [if_neg hne] at hfail
    have hpos : LitPos text s (a.1 + m + 1, unescape text) 0
        { st₁ with tm := { st₁.tm with matchStart := a.1 + m + 1 }, simple := 0 } := by
      refine ⟨rfl, Nat.zero_le _, by simp, ?_, rfl, rfl, h.matchEnd, h.endchar, h.search, h.icase, hp⟩
      simp [hst₁, h.chars]
    obtain ⟨res, hres, hout⟩ := ih _ (by omega) f 0 _ _ rfl (by simpa using hf) hpos
    exact ⟨res, hres, hout.head hfail⟩
  by_cases hj0 : j = 0
  · have hne : at' text 0 ≠ at' s (a.1 + m) := hj0 ▸ heq
    obtain ⟨res, hres, hout⟩ := hfresh _ rfl hne (fuel + 1) (by omega)
    refine ⟨res, ?_, hout⟩
    rw [simpleLoop_fresh hmatch hsearch hj0]
    simpa [hst₁, h.chars, hj0] using hres
  -- the character is compared again, with the first one stored
  set st₂ : SimpleState := { st₁ with simple := 0, tm := { st₁.tm with matchStart := a.1 + m } }
    with hst₂
  have hagain : simpleLoop s text (fuel + 2) .skipReadchar st₁ =
      simpleLoop s text (fuel + 1) .skipReadchar st₂ := by
    rw [simpleLoop_again hmatch hsearch hj0]
    simp [hst₂, hst₁, h.chars]
  rw [hagain]
  by_cases hfirst : at' text 0 = at' s (a.1 + m)
  · rw [if_pos hfirst] at hfail
    have hmatch₂ : charMatch st₂.tm.icase (at' text st₂.simple) st₂.c = true := by
      simp [hst₂, hst₁, h.icase, charMatch, hfirst]
    have hpos : LitPos text s (a.1 + m, rawPattern text) 1 { st₂ with simple := 1 } := by
      refine ⟨rfl, by simp [rawPattern], ?_, ?_, ?_, rfl, h.matchEnd, h.endchar, h.search, h.icase,
        hp⟩
      · simp only [rawPattern, List.take_succ_cons, List.take_zero]
        rw [hfirst, at'_of_lt hp, List.drop_eq_getElem_cons hp]
        exact List.prefix_append [s[a.1 + m]] _
      · simp [hst₂, hst₁, h.chars]
      · simp [hst₂, hst₁]
    obtain ⟨res, hres, hout⟩ := ih _ (by simp only; omega) fuel 1 _ _ rfl (by simp only; omega) hpos
    exact ⟨res, (simpleLoop_equal hmatch₂).trans hres, hout.head hfail⟩
  · have hmatch₂ : charMatch st₂.tm.icase (at' text st₂.simple) st₂.c = false := by
      simp [hst₂, hst₁, h.icase, charMatch, hfirst]
    obtain ⟨res, hres, hout⟩ := hfresh _ rfl hfirst fuel (by omega)
    refine ⟨res, ?_, hout⟩
    rw [simpleLoop_fresh hmatch₂ h.search rfl]
    simpa [hst₂, hst₁, h.chars] using hres

/-- The whole search, from the start of the input. -/
theorem simpleMatch_search (htext : NoNul text) (hs : NoNul s) (flags : Flags)
    (hicase : flags.icase = false) :
    ∃ res, simpleMatch (stringFuel s) s text (searchThreads flags) = some res ∧
      LitOutcome text s (0, unescape text) res.2.tm := by
  have hpos : LitPos text s (0, unescape text) 0
      { tm := { searchThreads flags with matchStart := (searchThreads flags).chars },
        data := 0, c := 0, simple := 0 } :=
    ⟨rfl, Nat.zero_le _, by simp, rfl, rfl, rfl, rfl, rfl, rfl, hicase, by simp⟩
  exact lit_run htext hs _ _ 0 _ _ rfl (by simp [stringFuel]; omega) hpos

/-! ## A match of an attempt is a match of the expression -/

/-- A stored backslash put in front of a text that starts with an escape
shifts the escapes behind it, until a character without one is met. -/
theorem unescape_deref_cons : ∀ {rest : List CChar}, escapesClosed rest = true →
    unescape (derefSym :: rest) = derefSym :: unescape rest ∨
      unescape (derefSym :: rest) = unescape rest ∨ 0 ∈ unescape (derefSym :: rest)
  | [], _ => by simp [unescape]
  | c :: rest, h => by
    by_cases hc : c = derefSym
    · subst hc
      match rest, h with
      | [], h => simp [escapesClosed] at h
      | d :: rest, h =>
        have h' : escapesClosed rest = true := by simpa [escapesClosed] using h
        by_cases hd : d = derefSym
        · subst hd
          have ih := unescape_deref_cons h'
          rw [unescape_deref, unescape_deref]
          -- two backslashes: one character of the text, and the same question for the rest
          rcases ih with ih | ih | ih
          · exact Or.inl (by rw [ih])
          · exact Or.inr (Or.inl (by rw [ih]))
          · exact Or.inr (Or.inr (List.mem_cons_of_mem _ ih))
        · left
          rw [unescape_deref, unescape_cons hd, unescape_deref]
    · right; left
      rw [unescape_deref, unescape_cons hc]

theorem not_isPrefix_of_zero_mem {w : List CChar} (hs : NoNul s) {r : Nat} (hw : (0 : CChar) ∈ w) :
    ¬ w <+: s.drop r := by
  intro h
  exact hs 0 (List.mem_of_mem_drop (h.subset hw)) rfl

/-- Where the resumed comparison succeeds, the expression matches there or one
character behind. -/
theorem rawPattern_matched (hesc : escapesClosed text = true) (htext : text ≠ []) (hs : NoNul s)
    {r : Nat} (h : rawPattern text <+: s.drop r) :
    unescape text <+: s.drop r ∨ unescape text <+: s.drop (r + 1) := by
  cases text with
  | nil => exact absurd rfl htext
  | cons c rest =>
      have hraw : rawPattern (c :: rest) = c :: unescape rest := by simp [rawPattern, at']
      rw [hraw] at h
      by_cases hc : c = derefSym
      · subst hc
        cases rest with
        | nil => simp [escapesClosed] at hesc
        | cons d rest =>
            have h' : escapesClosed rest = true := by simpa [escapesClosed] using hesc
            have hu : unescape (derefSym :: d :: rest) = d :: unescape rest := unescape_deref d rest
            have htail : unescape (d :: rest) <+: s.drop (r + 1) := by
              rw [← List.drop_drop]
              have := h.drop 1
              simpa using this
            -- the text begins with an escaped backslash, and so does the pattern
            by_cases hd : d = derefSym
            · subst hd
              rw [hu]
              rcases unescape_deref_cons h' with e | e | e
              · right
                rwa [e] at htail
              · left
                rwa [e] at h
              · exact absurd h (not_isPrefix_of_zero_mem hs (List.mem_cons_of_mem _ e))
            · right
              rwa [hu, ← unescape_cons hd]
      · left
        rwa [unescape_cons hc]

/-- The string of every attempt is one of the two. -/
theorem litAttempt_string (h : ReflTransGen (LitNext text s) (0, unescape text) a) :
    a.1 ≤ s.length ∧ (a.2 = unescape text ∨ a.2 = rawPattern text) := by
  induction h with
  | refl => exact ⟨Nat.zero_le _, Or.inl rfl⟩
  | tail _ hstep _ =>
      obtain ⟨m, _, hp, _, _, rfl⟩ := hstep
      split
      · exact ⟨by simp only; omega, Or.inr rfl⟩
      · exact ⟨by simp only; omega, Or.inl rfl⟩

end

end Rxvm
