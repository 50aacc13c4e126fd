import Rxvm.Pieces

/-!
# Rxvm.Outside — where a text can be taken apart

A parenthesis that is neither escaped nor in a class is a token of its own, so
the lexer stops in front of it: no token in front of it reaches it.
-/

namespace Rxvm

open Brackets

/-- Whether the text behind `u` is in a class; none if it starts with a
character that is escaped. -/
def modeBehind : Bool → List CChar → Option Bool
  | b, [] => some b
  | b, c :: rest =>
    if c = derefSym then
      match rest with
      | [] => none
      | _ :: rest => modeBehind b rest
    else modeBehind (if c = charcOpenSym then true else if c = charcCloseSym then false else b) rest

section

variable {u v w : List CChar} {b b' : Bool} {c d : CChar}

@[simp] theorem modeBehind_nil : modeBehind b [] = some b := rfl

theorem modeBehind_deref : modeBehind b (derefSym :: c :: u) = modeBehind b u := by
  rw [modeBehind.eq_def]
  exact if_pos rfl

theorem modeBehind_cons (hc : c ≠ derefSym) : modeBehind b (c :: u) =
    modeBehind (if c = charcOpenSym then true else if c = charcCloseSym then false else b) u := by
  rw [modeBehind.eq_def]
  exact if_neg hc

/-- A character that neither escapes nor opens or closes a class. -/
theorem modeBehind_plain (hc : c ≠ derefSym) (hopen : c ≠ charcOpenSym)
    (hclose : c ≠ charcCloseSym) : modeBehind b (c :: u) = modeBehind b u := by
  rw [modeBehind_cons hc, if_neg hopen, if_neg hclose]

theorem modeBehind_append (h : modeBehind b u = some b') (v : List CChar) :
    modeBehind b (u ++ v) = modeBehind b' v := by
  fun_induction modeBehind b u with
  | case1 b =>
      obtain rfl := Option.some.inj h
      rfl
  | case2 => cases h
  | case3 b c rest ih =>
      rw [List.cons_append, List.cons_append, modeBehind_deref]
      exact ih h
  | case4 b c rest hc ih =>
      rw [List.cons_append, modeBehind_cons hc]
      exact ih h

/-- What a character is that escapes nothing, and how the text goes on behind
it. -/
theorem parens_step (b : Bool) (hc : c ≠ derefSym) : ∃ w, ∀ t, parens b (c :: t) =
    w ++ parens (if c = charcOpenSym then true else if c = charcCloseSym then false else b) t := by
  cases b with
  | true =>
      -- inside a class only `]` changes the mode
      have hmode : (if c = charcOpenSym then true else if c = charcCloseSym then false else true)
          = decide (c ≠ charcCloseSym) := by
        by_cases hopen : c = charcOpenSym
        · subst hopen
          decide
        · rw [if_neg hopen]
          by_cases hclose : c = charcCloseSym <;> simp [hclose]
      refine ⟨[], fun t => ?_⟩
      rw [hmode, parens_charc hc]
      rfl
  | false =>
      by_cases hopen : c = charcOpenSym
      · subst hopen
        exact ⟨[], parens_charcOpen⟩
      have hmode : (if c = charcOpenSym then true else if c = charcCloseSym then false else false)
          = false := by
        rw [if_neg hopen, ite_self]
      rw [hmode]
      by_cases hl : c = lparenSym
      · subst hl
        exact ⟨[.opening], parens_lparen⟩
      by_cases hr : c = rparenSym
      · subst hr
        exact ⟨[.closing], parens_rparen⟩
      exact ⟨[], fun t => parens_plain hc hopen hl hr⟩

/-- The parentheses of a text that is put behind another one. -/
theorem parens_append (h : modeBehind b u = some b') (v : List CChar) :
    parens b (u ++ v) = parens b u ++ parens b' v := by
  fun_induction modeBehind b u with
  | case1 b =>
      obtain rfl := Option.some.inj h
      simp [parens]
  | case2 => cases h
  | case3 b c rest ih =>
      rw [List.cons_append, List.cons_append, parens_deref, parens_deref]
      exact ih h
  | case4 b c rest hc ih =>
      rcases parens_step b hc with ⟨w, hw⟩
      rw [List.cons_append, hw, hw, ih h, List.append_assoc]

/-- Whether a `(` behind a text opens a group. -/
theorem parens_concat_lparen (b : Bool) (u : List CChar) : parens b (u ++ [lparenSym]) =
    parens b u ++ if modeBehind b u = some false then [.opening] else [] := by
  fun_induction modeBehind b u with
  | case1 b => cases b <;> decide
  | case2 b => cases b <;> decide
  | case3 b c rest ih =>
      rw [List.cons_append, List.cons_append, parens_deref, parens_deref]
      exact ih
  | case4 b c rest hc ih =>
      rcases parens_step b hc with ⟨w, hw⟩
      rw [List.cons_append, hw, hw, ih, List.append_assoc]

end

/-! ## No token reaches a parenthesis -/

section

variable {text u v : List CChar} {k i j : Nat} {b b' : Bool} {c : CChar} {p : Piece}
  {l : LexStatics}

/-- What stands in front of a parenthesis outside a class: the token stops
inside it. -/
def StopsIn (u : List CChar) (k : Nat) (b : Bool) (j : Nat) : Prop :=
  ∃ m, m ≤ u.length ∧ j = k + m ∧ modeBehind b (u.drop m) = some false

theorem StopsIn.here (h : modeBehind b u = some false) : StopsIn u k b k :=
  ⟨0, Nat.zero_le _, rfl, h⟩

theorem StopsIn.cons {d : CChar} (h : StopsIn u (k + 1) b j) : StopsIn (d :: u) k b j := by
  rcases h with ⟨m, hm, rfl, hmode⟩
  exact ⟨m + 1, Nat.succ_le_succ hm, by omega, hmode⟩

/-- In a class there is more to come. -/
theorem exists_cons_of_modeBehind (h : modeBehind true u = some false) : ∃ d w, u = d :: w := by
  cases u with
  | nil => cases h
  | cons d w => exact ⟨d, w, rfl⟩

theorem lexRange_stops (hdrop : text.drop k = u ++ v) (hmode : modeBehind true u = some false)
    (hpiece : pieceOf text (lexRange text k l) = some p) :
    StopsIn u k true (lexRange text k l).2.1 := by
  rcases exists_cons_of_modeBehind hmode with ⟨d, w, rfl⟩
  rw [List.cons_append] at hdrop
  have hd := at'_of_drop hdrop
  replace hdrop := drop_succ_of_drop hdrop
  unfold lexRange at hpiece ⊢
  rw [hd] at hpiece ⊢
  by_cases h0 : d = 0
  · rw [if_pos h0]
    exact .here hmode
  rw [if_neg h0] at hpiece ⊢
  by_cases hderef : d = derefSym
  · subst hderef
    rw [if_pos rfl] at hpiece ⊢
    cases w with
    | nil => cases hmode
    | cons d' w =>
        rw [List.cons_append] at hdrop
        rw [at'_of_drop hdrop] at hpiece ⊢
        rw [modeBehind_deref] at hmode
        split_ifs at hpiece ⊢ with hnull hp
        · cases hpiece
        · exact (StopsIn.here hmode).cons.cons
        · cases hpiece
  · rw [if_neg hderef] at hpiece ⊢
    split_ifs at hpiece ⊢ with hplain
    · -- a bound that is not escaped is no bracket
      have hres : isreserved d = false := by simpa using (Bool.and_eq_true_iff.mp hplain).2
      have hne : d ≠ charcOpenSym ∧ d ≠ charcCloseSym := by
        constructor <;>
        · rintro rfl
          revert hres
          decide
      rw [modeBehind_plain hderef hne.1 hne.2] at hmode
      exact (StopsIn.here hmode).cons
    · cases hpiece

/-- Behind the character of a literal, which may start a range. -/
theorem lexLiteral_stops (hdrop : text.drop (k + 1) = u ++ v)
    (hmode : modeBehind l.literal u = some false)
    (hpiece : pieceOf text (lexLiteral text k l) = some p) :
    StopsIn u (k + 1) l.literal (lexLiteral text k l).2.1 := by
  cases hl : l.literal with
  | false =>
      rcases @lexLiteral_outside text k l hl with ⟨seen, heq⟩
      rw [heq]
      rw [hl] at hmode
      exact .here hmode
  | true =>
      rw [hl] at hmode
      -- a bare `-` is an error, and no piece
      have hbare : ¬ (at' text k = rangeSepSym ∧ at' text (k - 1) ≠ derefSym) := by
        intro hbare
        rw [lexLiteral_bare hl hbare] at hpiece
        cases hpiece
      rcases lexLiteral_set hl hbare with ⟨seen, heq⟩
      rw [heq] at hpiece ⊢
      by_cases hsep : at' text (k + 1) = rangeSepSym
      · rw [if_pos hsep] at hpiece ⊢
        rcases exists_cons_of_modeBehind hmode with ⟨d, w, rfl⟩
        rw [List.cons_append] at hdrop
        have hd : d = rangeSepSym := (at'_of_drop hdrop).symm.trans hsep
        subst hd
        rw [modeBehind_plain (by decide) (by decide) (by decide)] at hmode
        exact (lexRange_stops (drop_succ_of_drop hdrop) hmode hpiece).cons
      · rw [if_neg hsep]
        exact .here hmode

/-- A count reaches no parenthesis. -/
theorem lexRep_stops {first : CChar} (hc : c = lparenSym ∨ c = rparenSym) :
    ∀ {u : List CChar} {prev : CChar} {comma : Bool} {k j : Nat}, modeBehind false u = some false →
    lexRep first (u ++ c :: v) prev comma k = (.rep, j) → StopsIn u k false j := by
  intro u
  -- by induction on the text in front of the parenthesis, which no count contains
  induction u with
  | nil =>
      intro prev comma k j _ h
      rcases hc with rfl | rfl <;> cases h
  | cons d u ih =>
      intro prev comma k j hmode h
      have hplain : d ≠ derefSym → d ≠ charcOpenSym → modeBehind false u = some false := by
        intro hd ho
        rw [modeBehind_cons hd, if_neg ho, ite_self] at hmode
        exact hmode
      rw [List.cons_append] at h
      by_cases h0 : d = 0
      · rw [lexRep, if_pos h0] at h
        cases h
      by_cases hclose : d = repCloseSym
      · rw [lexRep, if_neg h0, if_pos hclose] at h
        split_ifs at h
        · cases h
        · obtain rfl : k + 1 = j := congrArg Prod.snd h
          exact (StopsIn.here (hplain (by rw [hclose]; decide) (by rw [hclose]; decide))).cons
      by_cases hcomma : d = commaSym
      · have hmode' := hplain (by rw [hcomma]; decide) (by rw [hcomma]; decide)
        rw [lexRep, if_neg h0, if_neg hclose, if_pos hcomma] at h
        split_ifs at h
        · cases h
        · exact (ih hmode' h).cons
      by_cases hdigit : (!isdigit d) = true
      · rw [lexRep, if_neg h0, if_neg hclose, if_neg hcomma, if_pos hdigit] at h
        cases h
      · have hd : isdigit d = true := by simpa using hdigit
        have hmode' := hplain (isdigit_ne hd rfl) (isdigit_ne hd rfl)
        rw [lexRep, if_neg h0, if_neg hclose, if_neg hcomma, if_neg hdigit] at h
        exact (ih hmode' h).cons

theorem lex_stops (hc : c = lparenSym ∨ c = rparenSym) (hdrop : text.drop k = u ++ c :: v)
    (hmode : modeBehind l.literal u = some false) (hne : u ≠ [])
    (hpiece : pieceOf text (lex text k l) = some p) :
    StopsIn u k (p.inside l.literal) (lex text k l).2.1 := by
  rcases List.exists_cons_of_ne_nil hne with ⟨d, w, rfl⟩
  rw [List.cons_append] at hdrop
  have hd := at'_of_drop hdrop
  have hrest := drop_succ_of_drop hdrop
  have hinside := (pieceOf_inside hpiece l.literal).1
  have hcase := lex_cases text k l
  generalize lex text k l = r at hcase hpiece hinside ⊢
  rw [← hinside]
  -- a literal neither opens nor closes a class
  have hliteral : ∀ {i : Nat} {l' : LexStatics}, l'.literal = l.literal →
      (if (lexLiteral text i l').1 = .charcOpen then true
        else if (lexLiteral text i l').1 = .charcClose then false else l.literal) = l'.literal := by
    intro i l' hl'
    rcases @lexLiteral_mode text i l' with ⟨_, hopen, hclose, _⟩
    rw [if_neg hopen, if_neg hclose, hl']
  cases hcase with
  | eos => cases hpiece
  | trail => cases hpiece
  | badRep => cases hpiece
  | invalid => cases hpiece
  | escaped hderef hnull =>
      obtain rfl : d = derefSym := hd.symm.trans hderef
      rw [@hliteral (k + 1) { l with lp1 := k + 1 } rfl]
      -- the escaped character is not the parenthesis: the mode is known behind it
      cases w with
      | nil => cases hmode
      | cons d' w =>
          rw [modeBehind_deref] at hmode
          rw [List.cons_append] at hrest
          exact (lexLiteral_stops (l := { l with lp1 := k + 1 }) (drop_succ_of_drop hrest) hmode
            hpiece).cons.cons
  | close hclose =>
      obtain rfl : d = charcCloseSym := hd.symm.trans hclose
      rw [modeBehind_cons (by decide)] at hmode
      exact (StopsIn.here hmode).cons
  | inside hlit h0 hderef hclose =>
      rw [hd] at hderef hclose
      rw [modeBehind_cons hderef, if_neg hclose, hlit, ite_self] at hmode
      have hmode : modeBehind l.literal w = some false := by
        rw [hlit]
        exact hmode
      rw [@hliteral k { l with lp1 := k } rfl]
      exact (lexLiteral_stops (l := { l with lp1 := k }) hrest hmode hpiece).cons
  | rep hlit hopen input h =>
      obtain rfl : d = repOpenSym := hd.symm.trans hopen
      rw [modeBehind_plain (by decide) (by decide) (by decide), hlit] at hmode
      rw [hrest] at h
      have hstops := lexRep_stops hc hmode h
      rw [hlit]
      exact hstops.cons
  | symbol hlit tok hmeta =>
      rw [hd] at hmeta ⊢
      have hsigns : ∀ q ∈ metaTable, q.1 ≠ derefSym ∧
          (if q.2 = .charcOpen then true else if q.2 = .charcClose then false else false) =
            (if q.1 = charcOpenSym then true else if q.1 = charcCloseSym then false else false) := by
        decide +kernel
      rcases hsigns _ (mem_metaTable hmeta) with ⟨hderef, heq⟩
      rw [modeBehind_cons hderef, hlit, ← heq] at hmode
      rw [hlit]
      exact (StopsIn.here hmode).cons
  | plain hlit hmeta h0 hderef =>
      rw [hd] at hmeta hderef
      rw [modeBehind_cons hderef, if_neg (metaTok_none hmeta).1, hlit, ite_self] at hmode
      have hmode : modeBehind l.literal w = some false := by
        rw [hlit]
        exact hmode
      rw [@hliteral k { l with lp1 := k } rfl]
      exact (lexLiteral_stops (l := { l with lp1 := k }) hrest hmode hpiece).cons

/-- The pieces of a text come apart at a parenthesis. -/
theorem Reads.split_at {ps : List Piece} (h : Reads text k b ps j b')
    (hc : c = lparenSym ∨ c = rparenSym) (hend : at' text j = 0) : ∀ {u : List CChar},
    text.drop k = u ++ c :: v → NoNul u → modeBehind b u = some false →
    ∃ qs rs, ps = qs ++ rs ∧ Reads text k b qs (k + u.length) false ∧
      Reads text (k + u.length) false rs j b' := by
  have hc0 : c ≠ 0 := by
    rcases hc with rfl | rfl <;> decide
  induction h with
  | @done k b =>
      intro u hdrop hnul _
      -- the text goes on here
      exfalso
      cases u with
      | nil => exact hc0 ((at'_of_drop hdrop).symm.trans hend)
      | cons d u => exact hnul d List.mem_cons_self ((at'_of_drop hdrop).symm.trans hend)
  | @step k i j b b' p ps hp hrest ih =>
      intro u hdrop hnul hmode
      by_cases hnil : u = []
      · subst hnil
        obtain rfl : b = false := Option.some.inj hmode
        exact ⟨[], p :: ps, rfl, .done, .step hp hrest⟩
      rcases glimpse_lex hp with ⟨l, rfl, hpiece, rfl⟩
      rcases lex_stops hc hdrop hmode hnil hpiece with ⟨m, hm, hi, hmode'⟩
      rw [hi] at hp hrest ih
      have hdrop' : text.drop (k + m) = u.drop m ++ c :: v := by
        rw [← List.drop_drop, hdrop, List.drop_append_of_le_length hm]
      rcases ih hend hdrop' (fun d hd => hnul d (List.mem_of_mem_drop hd)) hmode' with
        ⟨qs, rs, rfl, hqs, hrs⟩
      have hlen : k + m + (u.drop m).length = k + u.length := by
        rw [List.length_drop]
        omega
      rw [hlen] at hqs hrs
      exact ⟨p :: qs, rs, rfl, .step hp hqs, hrs⟩

end

end Rxvm
