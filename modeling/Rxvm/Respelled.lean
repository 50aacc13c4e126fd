import Rxvm.Chains
import Rxvm.Codegen
import Rxvm.History

/-!
# Rxvm.Respelled — sets with bare metacharacters

Inside a set most metacharacters stand for themselves, so that `[(.*]` and
`[\(\.\*]` are the same set. A text spells an expression when it is the text
of the expression but for such characters. The compiler makes the code of the
expression of each of its spellings.
-/

namespace Rxvm

/-! ## Spellings -/

/-- A metacharacter that needs no backslash inside a set. -/
def Bare (c : CChar) : Prop :=
  c ∈ metaSyms ∧ c ≠ charcCloseSym ∧ c ≠ rangeSepSym ∧ c ≠ derefSym ∧ c ≠ solSym

instance (c : CChar) : Decidable (Bare c) := inferInstanceAs (Decidable (_ ∧ _))

/-- Texts of the members of a list, one behind the other. -/
inductive Concat {α : Type} (R : α → List CChar → Prop) : List α → List CChar → Prop
  | nil : Concat R [] []
  | cons {x : α} {xs : List α} {t ts : List CChar} (head : R x t) (tail : Concat R xs ts) :
      Concat R (x :: xs) (t ++ ts)

/-- The text is one of the item, where a metacharacter may stand bare. -/
inductive SpellsItem : SetItem → List CChar → Prop
  | written (item : SetItem) : SpellsItem item item.text
  | bare (l : Literal true) (hesc : l.esc = true) (hbare : Bare l.c) : SpellsItem (.char l) [l.c]

/-- The text is one of the lexeme. -/
inductive Spells : Lexeme → List CChar → Prop
  | written (x : Lexeme) : Spells x x.text
  | set (negated : Bool) (item : SetItem) (items : List SetItem) {body : List CChar}
      (hbody : Concat SpellsItem (item :: items) body) :
      Spells (.set negated item items)
        (charcOpenSym :: ((if negated then [solSym] else []) ++ body) ++ [charcCloseSym])

section

variable {α : Type} {R : α → List CChar → Prop} {xs ys : List α} {t u : List CChar}

theorem Concat.append (hx : Concat R xs t) (hy : Concat R ys u) : Concat R (xs ++ ys) (t ++ u) := by
  induction hx with
  | nil => exact hy
  | cons head tail ih =>
      rw [List.cons_append, List.append_assoc]
      exact .cons head ih

theorem Concat.single {x : α} (h : R x t) : Concat R [x] t := by
  have hcons := Concat.cons h .nil
  rwa [List.append_nil] at hcons

theorem Concat.split : ∀ {xs : List α} {t : List CChar}, Concat R (xs ++ ys) t →
    ∃ u v, t = u ++ v ∧ Concat R xs u ∧ Concat R ys v := by
  intro xs
  induction xs with
  | nil =>
      intro t h
      exact ⟨[], t, rfl, .nil, h⟩
  | cons x xs ih =>
      intro t h
      cases h with
      | cons head tail =>
          rcases ih tail with ⟨u, v, rfl, hu, hv⟩
          exact ⟨_, v, (List.append_assoc ..).symm, .cons head hu, hv⟩

end

theorem Concat.flatMap {α : Type} {f : α → List CChar} {R : α → List CChar → Prop}
    (h : ∀ x, R x (f x)) (xs : List α) : Concat R xs (xs.flatMap f) := by
  induction xs with
  | nil => exact .nil
  | cons x xs ih => exact .cons (h x) ih

/-- Spelled characters are written. -/
theorem Concat.chars {ls : List (Literal false)} {t : List CChar}
    (h : Concat Spells (ls.map .char) t) : t = ls.flatMap Literal.text := by
  induction ls generalizing t with
  | nil =>
      cases h
      rfl
  | cons l ls ih =>
      cases h with
      | cons head tail =>
          cases head with
          | written => rw [List.flatMap_cons, ih tail]; rfl

/-! ## The lexer on a bare metacharacter -/

section

variable {exp post : List CChar} {k : Nat} {g : LexStatics} {c : CChar}

/-- No spelled item starts with `-`. -/
theorem SpellsItem.head {item : SetItem} {t : List CChar} (h : SpellsItem item t)
    (rest : List CChar) : ∃ d u, t ++ rest = d :: u ∧ d ≠ rangeSepSym := by
  cases h with
  | written => exact item.head rest
  | bare l _ hbare => exact ⟨l.c, rest, rfl, hbare.2.2.1⟩

theorem lex_bare (hc : at' exp k = c) (hbare : Bare c) (hg : g.literal = true) :
    lex exp k g = lexLiteral exp k { g with lp1 := k } := by
  rcases hbare with ⟨hmeta, hclose, _, hderef, _⟩
  have h0 : c ≠ 0 := isprintable_ne_zero (metaSyms_printable c hmeta)
  unfold lex
  simp only [hc, if_neg h0, if_neg hderef, if_neg hclose, hg, if_true]
  -- `{` has a case of its own, the others are in the table of metacharacters
  by_cases hopen : c = repOpenSym
  · rw [if_pos hopen]
  · rw [if_neg hopen]
    cases metaTok c with
    | some tok => rfl
    | none => simp [metaSyms_printable c hmeta]

theorem lex_setBare (h : exp.drop k = c :: post) (hbare : Bare c) (hg : g.literal = true)
    {d : CChar} {t : List CChar} (hpost : post = d :: t) (hd : d ≠ rangeSepSym) :
    Lexes exp k g .literal (k + 1) k true := by
  have hat := at'_of_drop h
  have hsep : ¬ (at' exp k = rangeSepSym ∧ at' exp (k - 1) ≠ derefSym) := by
    rw [hat]
    exact fun h => hbare.2.2.1 h.1
  have hnext : at' exp (k + 1) ≠ rangeSepSym := by
    rw [at'_of_drop ((drop_succ_of_drop h).trans hpost)]
    exact hd
  rcases @lexLiteral_set exp k { g with lp1 := k } hg hsep with ⟨seen, heq⟩
  rw [if_neg hnext] at heq
  exact .of_eq ((lex_bare hat hbare hg).trans heq) rfl rfl hg

/-! ## Runs on a spelling -/

variable {F F' : Frames} {negated : Bool} {chars : List CChar}

/-- An item of a set, however it is spelled. -/
theorem Inside.spelledItem {item : SetItem} {t : List CChar} (h : Inside exp F k negated chars)
    (hadm : item.Admissible) (hspell : SpellsItem item t) (hdrop : exp.drop k = t ++ post)
    {d : CChar} {u : List CChar} (hpost : post = d :: u) (hd : d ≠ rangeSepSym) :
    Inside exp F (k + t.length) negated (chars ++ item.chars) := by
  cases hspell with
  | written => exact h.item hadm hdrop hpost hd
  | bare l hesc hbare =>
      rcases h with ⟨input, cp, stk, index, hat, hin, hstrb, hN⟩
      rcases hat.lexes fun g hg => lex_setBare hdrop hbare (hg.trans hin) hpost hd with
        ⟨htok, hinput, hlp1, _, hlit⟩
      have hchar : cp.lp1Char exp = l.c := by
        rw [Context.lp1Char, hlp1]
        exact at'_of_drop hdrop
      have hsol : ¬ (cp.lp1Char exp = solSym ∧ cp.statics.isNchar = false) := by
        rw [hchar]
        exact fun h => hadm h.1
      rw [show k + [l.c].length = input from hinput.symm]
      have hstep : stage1Step exp cp = .ok (none, cp.addc l.c) := by
        unfold stage1Step stage1CharcState
        rw [if_pos hin, htok]
        simp only [if_neg hsol]
        rw [hchar]
        rfl
      refine hat.inside hin (Or.inl htok) hlit hstep ?_
      rw [Context.addc, hstrb, ← hN]
      rfl

theorem Inside.spelledItems : ∀ {items : List SetItem} {body : List CChar} {k : Nat}
    {chars : List CChar}, Concat SpellsItem items body → Inside exp F k negated chars →
    (∀ x ∈ items, x.Admissible) → exp.drop k = body ++ charcCloseSym :: post →
    Inside exp F (k + body.length) negated (chars ++ items.flatMap SetItem.chars) := by
  intro items body k chars hbody
  induction hbody generalizing k chars with
  | nil =>
      intro h _ _
      simpa using h
  | @cons item items t ts head tail ih =>
      intro h hadm hdrop
      rw [List.append_assoc] at hdrop
      -- what follows is another item or the `]`, and neither starts with `-`
      have hnext : ∃ d u, ts ++ charcCloseSym :: post = d :: u ∧ d ≠ rangeSepSym := by
        cases tail with
        | nil => exact ⟨charcCloseSym, post, rfl, by decide⟩
        | cons head' _ =>
            rw [List.append_assoc]
            exact head'.head _
      rcases hnext with ⟨d, u, hpost, hd⟩
      have hitem := h.spelledItem (hadm item List.mem_cons_self) head hdrop hpost hd
      have hrest := ih hitem (fun x hx => hadm x (List.mem_cons_of_mem item hx))
        (drop_of_drop_append hdrop)
      rw [List.flatMap_cons, List.length_append, ← Nat.add_assoc, ← List.append_assoc]
      exact hrest

/-- The run goes on behind a set, however its items are spelled. -/
theorem Reached.spelledSet {item : SetItem} {items : List SetItem} {body : List CChar}
    (h : Reached exp F k) (hadm : ∀ x ∈ item :: items, x.Admissible)
    (hbody : Concat SpellsItem (item :: items) body)
    (hdrop : exp.drop k = charcOpenSym :: ((if negated then [solSym] else []) ++ body) ++
      [charcCloseSym] ++ post) :
    Reached exp (F.atom (Lexeme.setInst negated (item :: items)))
      (k + (charcOpenSym :: ((if negated then [solSym] else []) ++ body) ++
        [charcCloseSym]).length) := by
  have hne : (item :: items).flatMap SetItem.chars ≠ [] := by
    rw [List.flatMap_cons]
    exact List.append_ne_nil_of_left_ne_nil item.chars_ne_nil _
  have hflush : F.flush.atom (Lexeme.setInst negated (item :: items)) =
      F.atom (Lexeme.setInst negated (item :: items)) := by
    rw [Frames.atom, Frames.atom, Frames.flush_eq_self F.flush_closed]
  -- from the first item on
  have hitems : ∀ {j : Nat}, Inside exp F.flush j negated [] →
      exp.drop j = body ++ charcCloseSym :: post →
      Reached exp (F.atom (Lexeme.setInst negated (item :: items))) (j + body.length + 1) := by
    intro j hinside hdrop'
    have hlast := Inside.spelledItems hbody hinside hadm hdrop'
    rw [List.nil_append] at hlast
    rw [← hflush]
    exact hlast.close hne (drop_of_drop_append hdrop')
  cases negated with
  | false =>
      have hopen : exp.drop k = charcOpenSym :: (body ++ charcCloseSym :: post) := by
        rw [hdrop]
        simp
      have hlen : (charcOpenSym :: ((if false then [solSym] else []) ++ body) ++
          [charcCloseSym]).length = 1 + body.length + 1 := by
        simp
        omega
      have hend := hitems (h.open_set hopen) (drop_succ_of_drop hopen)
      rw [hlen, ← Nat.add_assoc, ← Nat.add_assoc]
      exact hend
  | true =>
      have hopen : exp.drop k = charcOpenSym :: solSym :: (body ++ charcCloseSym :: post) := by
        rw [hdrop]
        simp
      have hlen : (charcOpenSym :: ((if true then [solSym] else []) ++ body) ++
          [charcCloseSym]).length = 1 + 1 + body.length + 1 := by
        simp
        omega
      have hsol := drop_succ_of_drop hopen
      have hhead : ∃ d u, body ++ charcCloseSym :: post = d :: u ∧ d ≠ rangeSepSym := by
        cases hbody with
        | cons head _ =>
            rw [List.append_assoc]
            exact head.head _
      rcases hhead with ⟨d, u, hpost, hd⟩
      have hend := hitems ((h.open_set hopen).negate hsol hpost hd) (drop_succ_of_drop hsol)
      rw [hlen, ← Nat.add_assoc, ← Nat.add_assoc, ← Nat.add_assoc]
      exact hend

/-- The run goes on behind a lexeme, however it is spelled. -/
theorem Reached.spelled {x : Lexeme} {t : List CChar} (h : Reached exp F k) (hadm : x.Admissible)
    (hspell : Spells x t) (hdrop : exp.drop k = t ++ post) (htake : F.take x = some F') :
    Reached exp F' (k + t.length) := by
  cases hspell with
  | written => exact h.take hadm hdrop htake
  | set negated item items hbody =>
      have hatom : F.atom (Lexeme.setInst negated (item :: items)) = F' := by
        refine Option.some.inj (Eq.trans ?_ htake)
        cases negated <;> rfl
      rw [← hatom]
      exact h.spelledSet hadm hbody hdrop

theorem Reached.spelledAll {l : List Lexeme} {t : List CChar} (hspell : Concat Spells l t) :
    ∀ {F : Frames} {k : Nat}, Reached exp F k → (∀ x ∈ l, x.Admissible) →
    exp.drop k = t ++ post → F.takeAll l = some F' → Reached exp F' (k + t.length) := by
  induction hspell with
  | nil =>
      intro F k h _ _ htake
      obtain rfl := Option.some.inj htake
      exact h
  | @cons x l t ts head tail ih =>
      intro F k h hadm hdrop htake
      rw [Frames.takeAll_cons] at htake
      rcases Option.bind_eq_some_iff.mp htake with ⟨F₁, hx, hrest⟩
      rw [List.append_assoc] at hdrop
      have h₁ := h.spelled (hadm x List.mem_cons_self) head hdrop hx
      rw [List.length_append, ← Nat.add_assoc]
      exact ih h₁ (fun y hy => hadm y (List.mem_cons_of_mem x hy)) (drop_of_drop_append hdrop) hrest

end

/-- The run is behind the characters a text starts with. -/
theorem reached_chars {ls : List (Literal false)} {x : Lexeme} {rest : List Lexeme}
    {u : List CChar} (hx : x.isChar = false) (hrest : Concat Spells (x :: rest) u) :
    Reached (ls.flatMap Literal.text ++ u) (Frames.backlog ls)
      (0 + (ls.flatMap Literal.text).length) := by
  refine reached_backlog rfl ?_
  intro g hg
  have hdrop : (ls.flatMap Literal.text ++ u).drop (0 + (ls.flatMap Literal.text).length) = u :=
    drop_of_drop_append rfl
  cases hrest with
  | cons head tail =>
      cases head with
      | written => exact lex_other hx hdrop hg
      | set negated item items hbody =>
          -- the lexer has seen no more of a set than its `[`
          rw [(lex_symbol hdrop hg rfl (by decide)).tok]
          simp

/-- The compiler takes a text that spells lexemes the machine takes. -/
theorem reached_spelling {l : List Lexeme} {exp : List CChar} {F : Frames}
    (hspell : Concat Spells l exp) (hadm : ∀ x ∈ l, x.Admissible)
    (hlit : ¬ ∀ x ∈ l, x.isChar = true) (htake : Frames.start.takeAll l = some F) :
    ∃ k, Reached exp F k ∧ exp.drop k = [] := by
  rcases exists_chars_split hlit with ⟨ls, x, rest, rfl, hx⟩
  rcases hspell.split with ⟨t, u, rfl, hchars, hrest⟩
  obtain rfl := hchars.chars
  -- the machine is at the first lexeme that is no character, and takes the others
  rw [Frames.takeAll_append, Frames.takeAll_chars, Option.bind_some] at htake
  have hdrop : (ls.flatMap Literal.text ++ u).drop (0 + (ls.flatMap Literal.text).length) =
      u ++ [] := by
    rw [List.append_nil]
    exact drop_of_drop_append rfl
  have hadm' : ∀ y ∈ x :: rest, y.Admissible := fun y hy => hadm y (List.mem_append_right _ hy)
  exact ⟨_, .spelledAll hrest (reached_chars hx hrest) hadm' hdrop htake, drop_of_drop_append hdrop⟩

/-- Linking changes nothing but the targets of jumps, which lead on along their
chains. -/
theorem linked_shortcut {code exe : List Inst} (h : Closed code) {chained : Bool}
    (hlinked : linked chained code = .ok exe) :
    Shortcut (relocateFrom 0 (code ++ [.opMatch])) exe := by
  cases chained with
  | false =>
      obtain rfl := Except.ok.inj hlinked
      exact .refl _
  | true =>
      have hok := h.programOk
      rcases optimiseChains_shortcut hok.jumpsForward hok.last with ⟨exe', hexe', hshort, _⟩
      obtain rfl : exe' = exe := Except.ok.inj (hexe'.symm.trans hlinked)
      exact hshort

section

variable {e : Expr .re} {exp : List CChar}

/-- The program of an expression is the code of its derivation. -/
structure ProgramOf (e : Expr .re) (compiled : Compiled) : Prop where
  program : compiled.simple = none
  code : Shortcut (relocateFrom 0 (e.code ++ [.opMatch])) compiled.exe
  meaning : ∀ ml s i j, Accepts false ml s compiled.exe i j ↔ e.Matches ml s i j

theorem ProgramOf.length {compiled : Compiled} (h : ProgramOf e compiled) (hadm : e.Admissible) :
    compiled.exe.length = e.size + 1 := by
  rw [h.code.length, length_relocateFrom, List.length_append, (e.length_code hadm).1]
  rfl

/-- An earlier compilation matters only where it has left `is_nchar` set. -/
theorem rxvmCompile_unaffected {g g' : Statics} (hg : g.isNchar = false)
    {result : Except Err Compiled} (h : rxvmCompile Statics.init exp = .ok (result, g')) :
    ∃ g'', rxvmCompile g exp = .ok (result, g'') := by
  have hresult : compileResult g exp = compileResult Statics.init exp :=
    compileResult_congr hg exp
  unfold compileResult at hresult
  rw [h] at hresult
  rcases hrun : rxvmCompile g exp with stop | ⟨result', g''⟩
  · rw [hrun] at hresult
    cases hresult
  · rw [hrun] at hresult
    cases hresult
    exact ⟨g'', rfl⟩

theorem rxvmCompile_programOf {g : Statics} (hg : g.isNchar = false) (hadm : e.Admissible)
    (hlit : ¬ e.LiteralOnly) (hspell : Concat Spells e.lexemes exp) :
    ∃ compiled g', rxvmCompile g exp = .ok (.ok compiled, g') ∧ ProgramOf e compiled := by
  rcases e.takes hadm Frames.start Frames.start_tidy fun _ => rfl with
    ⟨F, htake, _, hbelow, hcode⟩
  rcases reached_spelling hspell hadm hlit htake with ⟨k, hreached, hend⟩
  rcases hreached.program hend hbelow with ⟨chained, compiled, g', hrun, hsimple, hclosed, hlinked⟩
  rw [hcode] at hclosed hlinked
  have hshort := linked_shortcut hclosed hlinked
  rcases rxvmCompile_unaffected hg hrun with ⟨g'', hrun'⟩
  refine ⟨compiled, g'', hrun', hsimple, hshort, ?_⟩
  intro ml s i j
  rw [hshort.accepts_iff, accepts_iff_flow hclosed, (e.realizes hadm).flow]

/-- Whatever the spelling of its sets, an expression is compiled to the code of
its derivation, which has the size of the expression: only the targets of jumps
differ, where they lead to a jump. The program accepts what the expression
matches. -/
theorem rxvmCompile_spelled {g : Statics} (hg : g.isNchar = false) (hadm : e.Admissible)
    (hlit : ¬ e.LiteralOnly) (hspell : Concat Spells e.lexemes exp) :
    ∃ compiled g', rxvmCompile g exp = .ok (.ok compiled, g') ∧ compiled.simple = none ∧
      compiled.exe.length = e.size + 1 ∧
      Shortcut (relocateFrom 0 (e.code ++ [.opMatch])) compiled.exe ∧
      ∀ ml s i j, Accepts false ml s compiled.exe i j ↔ e.Matches ml s i j := by
  rcases rxvmCompile_programOf hg hadm hlit hspell with ⟨compiled, g', hrun, hprog⟩
  exact ⟨compiled, g', hrun, hprog.program, hprog.length hadm, hprog.code, hprog.meaning⟩

/-- The expression `[\(\.]+`, spelled `[(.]+`. -/
theorem rxvmCompile_spelled_bare : ∃ e : Expr .re,
    e.text = [91, 92, 40, 92, 46, 93, 43] ∧ ∃ compiled g',
      rxvmCompile Statics.init [91, 40, 46, 93, 43] = .ok (.ok compiled, g') ∧
        compiled.simple = none ∧ compiled.exe.length = e.size + 1 ∧
        Shortcut (relocateFrom 0 (e.code ++ [.opMatch])) compiled.exe ∧
        ∀ ml s i j, Accepts false ml s compiled.exe i j ↔ e.Matches ml s i j := by
  have hbare : ∀ c : CChar, Bare c → ∃ l : Literal true, l.c = c ∧ l.esc = true :=
    fun c hc => ⟨⟨c, true, fun _ => hc.1, by simp⟩, rfl, rfl⟩
  rcases hbare 40 (by decide +kernel) with ⟨a, ha, hae⟩
  rcases hbare 46 (by decide +kernel) with ⟨b, hb, hbe⟩
  refine ⟨.ofSimple (.ofBasic (.one (.set false (.char a) [.char b]))), ?_,
    rxvmCompile_spelled rfl ?_ ?_ ?_⟩
  · simp [Expr.text, Expr.lexemes, Lexeme.text, Literal.text, SetItem.text, ha, hae, hb, hbe]
    decide
  · simp [Expr.Admissible, Expr.lexemes, Lexeme.Admissible, SetItem.Admissible, ha, hb]
    decide
  · simp [Expr.LiteralOnly, Expr.lexemes, Lexeme.isChar]
  · have hitems : Concat SpellsItem [.char a, .char b] ([a.c] ++ ([b.c] ++ [])) :=
      .cons (.bare a hae (by rw [ha]; decide +kernel))
        (.cons (.bare b hbe (by rw [hb]; decide +kernel)) .nil)
    have hset := Spells.set false _ _ hitems
    rw [ha, hb] at hset
    exact .cons hset (.cons (Spells.written .one) .nil)

end

end Rxvm
