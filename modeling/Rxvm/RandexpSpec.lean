import Rxvm.GenSpec
import Rxvm.Randexp
import Rxvm.Respelled

/-!
# Rxvm.RandexpSpec — random expressions are derived from the grammar

Each function of the generator appends a spelling of a derivation of its
nonterminal. The characters of the sets come from the table of characters,
which has no `z`, so no set and no range has all printable characters.
-/

namespace Rxvm

open RandexpEnv

/-! ## The table of characters -/

/-- The first part of the table: no metacharacters. -/
theorem charmap_literal : ∀ c ∈ initCharmap.take numLiterals,
    c ∈ initCharmap ∧ isprintable c = true ∧ c ∉ metaSyms ∧ c.toInt < 122 := by decide +kernel

/-- The whole table: no `z`, and metacharacters that may stand bare in a set
unless they are sorted out. -/
theorem charmap_char : ∀ c ∈ initCharmap, isprintable c = true ∧ c ≠ 122 ∧
    (isBadCcsChar c = false → c ≠ solSym ∧ (c ∈ metaSyms → Bare c)) := by decide +kernel

/-! ## What the generator draws -/

/-- The item has its characters from the table. -/
def SetItem.Drawn : SetItem → Prop
  | .char l => l.c ∈ initCharmap ∧ isBadCcsChar l.c = false
  | .range lo hi => lo.c ∈ initCharmap.take numLiterals ∧ hi.c ∈ initCharmap.take numLiterals

/-- The counts are between 1 and `MAX_REP`. -/
def Reps.Drawn : Reps → Prop
  | .repN n => 1 ≤ n.value ∧ n.value ≤ maxRep
  | .repRange n m => (1 ≤ n.value ∧ n.value ≤ maxRep) ∧ 1 ≤ m.value ∧ m.value ≤ maxRep
  | .repMore n => 1 ≤ n.value ∧ n.value ≤ maxRep
  | .repLess m => 1 ≤ m.value ∧ m.value ≤ maxRep

/-- The lexeme is one the generator can write: it has no anchors. -/
def Lexeme.Drawn : Lexeme → Prop
  | sol | eol => False
  | set _ item items => ∀ x ∈ item :: items, x.Drawn
  | rep reps => reps.Drawn
  | _ => True

theorem Reps.Drawn.admissible {reps : Reps} (h : reps.Drawn) : reps.Admissible := by
  have hmax : maxRep = 10 := rfl
  cases reps with
  | repN n | repMore n | repLess n =>
      have hn : 1 ≤ n.value ∧ n.value ≤ maxRep := h
      simp only [Reps.Admissible]
      omega
  | repRange n m =>
      have hn := h.1
      have hm := h.2
      simp only [Reps.Admissible]
      omega

theorem Lexeme.Drawn.admissible {x : Lexeme} (h : x.Drawn) : x.Admissible := by
  cases x with
  | set negated item items =>
      intro y hy
      have hdrawn := h y hy
      cases y with
      | char l => exact ((charmap_char _ hdrawn.1).2.2 hdrawn.2).1
      | range lo hi => trivial
  | rep reps => exact Reps.Drawn.admissible h
  | _ => trivial

/-- No drawn item has the character `z`. -/
theorem SetItem.Drawn.omits {item : SetItem} (h : item.Drawn) : ¬ item.Has 122 := by
  cases item with
  | char l =>
      rintro hz
      exact (charmap_char _ h.1).2.1 (Eq.symm hz)
  | range lo hi =>
      have hlo := (charmap_literal _ h.1).2.2.2
      have hhi := (charmap_literal _ h.2).2.2.2
      have hz : (122 : CChar).toInt = 122 := by decide
      simp only [SetItem.Has, Int8.le_iff_toInt_le]
      omega

/-! ## Texts that are appended -/

/-- The generator has appended a spelling of the members of a list. -/
def Appends {α : Type} (R : α → List CChar → Prop) (P : α → Prop) (st st' : RandexpState)
    (xs : List α) : Prop :=
  ∃ t, st'.strb = st.strb ++ t ∧ Concat R xs t ∧ ∀ x ∈ xs, P x

/-- It has appended a spelling of a derivation. -/
def Derives (n : NonTerm) (st st' : RandexpState) : Prop :=
  ∃ e : Expr n, Appends Spells Lexeme.Drawn st st' e.lexemes

section

variable {α : Type} {R : α → List CChar → Prop} {P : α → Prop} {a b c : RandexpState}
  {xs ys : List α}

theorem Appends.trans (h : Appends R P a b xs) (h' : Appends R P b c ys) :
    Appends R P a c (xs ++ ys) := by
  rcases h with ⟨t, hb, ht, hxs⟩
  rcases h' with ⟨u, hc, hu, hys⟩
  refine ⟨t ++ u, ?_, ht.append hu, ?_⟩
  · rw [hc, hb, List.append_assoc]
  · intro x hx
    rcases List.mem_append.mp hx with hx | hx
    · exact hxs x hx
    · exact hys x hx

theorem Appends.single {x : α} {t : List CChar} (hb : b.strb = a.strb ++ t) (hx : R x t)
    (hP : P x) : Appends R P a b [x] := by
  refine ⟨t, hb, .single hx, ?_⟩
  intro y hy
  obtain rfl := List.mem_singleton.mp hy
  exact hP

/-- A symbol of the grammar. -/
theorem Appends.symbol (x : Lexeme) {s : CChar} (htext : x.text = [s]) (hdrawn : x.Drawn) :
    Appends Spells Lexeme.Drawn a (a.addc s) [x] :=
  .single rfl (htext ▸ Spells.written x) hdrawn

/-- What has been written before does not matter. -/
theorem Appends.same (h : Appends R P a b xs) (ha : a.strb = c.strb) : Appends R P c b xs := by
  rcases h with ⟨t, hb, ht, hxs⟩
  exact ⟨t, by rw [hb, ha], ht, hxs⟩

end

theorem Derives.same {n : NonTerm} {a b c : RandexpState} (h : Derives n a b)
    (ha : a.strb = c.strb) : Derives n c b := by
  rcases h with ⟨e, he⟩
  exact ⟨e, he.same ha⟩

section

variable {E : RandexpEnv} {st st' : RandexpState}

/-! ## Random values -/

theorem range_spec {low high r : Nat} (hle : low ≤ high) (hhigh : high < 4294967296)
    (h : E.range low high st = some (r, st')) : low ≤ r ∧ r ≤ high ∧ st'.strb = st.strb := by
  unfold RandexpEnv.range at h
  rcases Option.bind_eq_some_iff.mp h with ⟨⟨r', calls⟩, hrange, h⟩
  cases h
  have hmem := randRange_mem hle hhigh hrange
  exact ⟨hmem.1, hmem.2, rfl⟩

theorem chance_spec {prob : UInt8} {b : Bool} (h : E.chance prob st = some (b, st')) :
    st'.strb = st.strb := by
  unfold chance at h
  rcases Option.bind_eq_some_iff.mp h with ⟨⟨b', calls⟩, _, h⟩
  cases h
  rfl

/-- A literal of the table. -/
theorem getRandLiteral_spec (hmap : E.charmap = initCharmap) {withMeta : Bool} {c : CChar}
    (h : E.getRandLiteral withMeta st = some (c, st')) :
    c ∈ initCharmap ∧ (withMeta = false → c ∈ initCharmap.take numLiterals) ∧
      st'.strb = st.strb := by
  have hlen : initCharmap.length = 100 ∧ numLiterals = 85 ∧ numMeta = 15 := by decide +kernel
  unfold getRandLiteral at h
  rcases Option.bind_eq_some_iff.mp h with ⟨⟨r, st₁⟩, hrange, h⟩
  obtain ⟨rfl, rfl⟩ := Prod.mk.inj (Option.some.inj h)
  rw [hmap]
  have hget : ∀ {k n : Nat}, k < n → n ≤ 100 → at' initCharmap k ∈ initCharmap.take n := by
    intro k n hk hn
    rw [← at'_take hk]
    refine List.mem_of_getElem? (at'_getElem? ?_)
    rw [List.length_take, hlen.1]
    omega
  -- the metacharacters are the last of the map, and are left out here or not
  cases withMeta with
  | true =>
      have hr := range_spec (Nat.zero_le _) (by rw [if_pos rfl]; omega) hrange
      rw [if_pos rfl] at hr
      refine ⟨List.mem_of_mem_take (hget (k := r) (n := 100) (by omega) le_rfl), by simp, hr.2.2⟩
  | false =>
      have hr := range_spec (Nat.zero_le _) (by rw [if_neg Bool.false_ne_true]; omega) hrange
      rw [if_neg Bool.false_ne_true] at hr
      have hmem := hget (k := r) (n := numLiterals) (by omega) (by omega)
      exact ⟨List.mem_of_mem_take hmem, fun _ => hmem, hr.2.2⟩

/-! ## Sets -/

/-- A character of the first part of the table, as a literal. -/
theorem exists_literal {c : CChar} (hc : c ∈ initCharmap.take numLiterals) (inSet : Bool) :
    ∃ l : Literal inSet, l.c = c ∧ l.text = [c] := by
  have h := charmap_literal c hc
  exact ⟨⟨c, false, by simp, fun _ => ⟨h.2.1, Or.inl h.2.2.1⟩⟩, rfl, rfl⟩

theorem nontermRange_appends (hmap : E.charmap = initCharmap)
    (h : E.nontermRange st = some st') :
    ∃ item, Appends SpellsItem SetItem.Drawn st st' [item] := by
  unfold nontermRange at h
  rcases Option.bind_eq_some_iff.mp h with ⟨⟨c, st₁⟩, hlo, h⟩
  rcases Option.bind_eq_some_iff.mp h with ⟨⟨d, st₂⟩, hhi, h⟩
  cases h
  have hlo := getRandLiteral_spec hmap hlo
  have hhi := getRandLiteral_spec hmap hhi
  rcases exists_literal (hlo.2.1 rfl) true with ⟨lo, hloc, hlot⟩
  rcases exists_literal (hhi.2.1 rfl) true with ⟨hi, hhic, hhit⟩
  refine ⟨.range lo hi, .single ?_ (.written _) ⟨?_, ?_⟩⟩
  · simp [RandexpState.addc, hlo.2.2, hhi.2.2, SetItem.text, hlot, hhit]
  · exact hloc ▸ hlo.2.1 rfl
  · exact hhic ▸ hhi.2.1 rfl

/-- A character for a set: the bad ones are drawn again. -/
theorem nontermCharCcs_appends (hmap : E.charmap = initCharmap) : ∀ (fuel : Nat)
    {st : RandexpState}, E.nontermCharCcs fuel st = some st' →
    ∃ item, Appends SpellsItem SetItem.Drawn st st' [item] := by
  intro fuel
  -- by induction on the draws: a character that may not stand in a class is drawn again
  induction fuel with
  | zero => exact fun h => nomatch h
  | succ fuel ih =>
      intro st h
      unfold nontermCharCcs at h
      rcases Option.bind_eq_some_iff.mp h with ⟨⟨c, st₁⟩, hc, h⟩
      have hc := getRandLiteral_spec hmap hc
      cases hbad : isBadCcsChar c with
      | true =>
          simp only [hbad, if_true] at h
          rcases ih h with ⟨item, hitem⟩
          exact ⟨item, hitem.same hc.2.2⟩
      | false =>
          simp only [hbad, Bool.false_eq_true, if_false] at h
          cases h
          have hchar := charmap_char c hc.1
          have hstrb : (st₁.addc c).strb = st.strb ++ [c] := by rw [← hc.2.2]; rfl
          -- a metacharacter stands there without its backslash
          by_cases hmeta : c ∈ metaSyms
          · exact ⟨.char ⟨c, true, fun _ => hmeta, by simp⟩,
              .single hstrb (.bare _ rfl ((hchar.2.2 hbad).2 hmeta)) ⟨hc.1, hbad⟩⟩
          · exact ⟨.char ⟨c, false, by simp, fun _ => ⟨hchar.1, Or.inl hmeta⟩⟩,
              .single hstrb (.written _) ⟨hc.1, hbad⟩⟩

theorem nontermSetitem_appends (hmap : E.charmap = initCharmap) {fuel : Nat}
    (h : E.nontermSetitem fuel st = some st') :
    ∃ item, Appends SpellsItem SetItem.Drawn st st' [item] := by
  unfold nontermSetitem at h
  rcases Option.bind_eq_some_iff.mp h with ⟨⟨b, st₁⟩, hchance, h⟩
  have hst₁ := chance_spec hchance
  cases b with
  | true =>
      rcases nontermCharCcs_appends hmap fuel h with ⟨item, hitem⟩
      exact ⟨item, hitem.same hst₁⟩
  | false =>
      simp only [Bool.false_eq_true, if_false] at h
      rcases Option.bind_eq_some_iff.mp h with ⟨⟨r, st₂⟩, hrange, h⟩
      have hst₂ := (range_spec (Nat.zero_le _) (by decide) hrange).2.2
      have hitem : ∃ item, Appends SpellsItem SetItem.Drawn st₂ st' [item] := by
        cases r with
        | zero => exact nontermRange_appends hmap h
        | succ r => exact nontermCharCcs_appends hmap fuel h
      rcases hitem with ⟨item, hitem⟩
      exact ⟨item, hitem.same (hst₂.trans hst₁)⟩

/-- The items of a set, of which there is one at least. -/
theorem nontermSetitems_appends (hmap : E.charmap = initCharmap) : ∀ (fuel : Nat)
    {st : RandexpState}, E.nontermSetitems fuel st = some st' →
    ∃ item items, Appends SpellsItem SetItem.Drawn st st' (item :: items) := by
  intro fuel
  induction fuel with
  | zero => exact fun h => nomatch h
  | succ fuel ih =>
      intro st h
      unfold nontermSetitems at h
      rcases Option.bind_eq_some_iff.mp h with ⟨st₁, hitem, h⟩
      rcases Option.bind_eq_some_iff.mp h with ⟨⟨b, st₂⟩, hchance, h⟩
      rcases nontermSetitem_appends hmap hitem with ⟨item, hfirst⟩
      have hst₂ := chance_spec hchance
      cases b with
      | true =>
          rcases ih h with ⟨item', items, hitems⟩
          exact ⟨item, item' :: items, hfirst.trans (hitems.same hst₂)⟩
      | false =>
          cases h
          rcases hfirst with ⟨t, hst₁, ht⟩
          exact ⟨item, [], t, hst₂.trans hst₁, ht⟩

theorem appends_set {st₁ st₂ : RandexpState} (negated : Bool) {item : SetItem}
    {items : List SetItem} (hopen : st₁.strb = st.strb ++
      charcOpenSym :: if negated then [solSym] else [])
    (h : Appends SpellsItem SetItem.Drawn st₁ st₂ (item :: items)) :
    Derives .elem st (st₂.addc charcCloseSym) := by
  rcases h with ⟨body, hst₂, hbody, hdrawn⟩
  refine ⟨.set negated item items, .single ?_ (.set negated item items hbody) hdrawn⟩
  show st₂.strb ++ [charcCloseSym] = _
  rw [hst₂, hopen]
  simp

theorem nontermSet_derives (hmap : E.charmap = initCharmap) {fuel : Nat}
    (h : E.nontermSet fuel st = some st') : Derives .elem st st' := by
  unfold nontermSet at h
  rcases Option.bind_eq_some_iff.mp h with ⟨st₁, hitems, h⟩
  cases h
  rcases nontermSetitems_appends hmap fuel hitems with ⟨item, items, hitems⟩
  exact appends_set false rfl hitems

theorem nontermNset_derives (hmap : E.charmap = initCharmap) {fuel : Nat}
    (h : E.nontermNset fuel st = some st') : Derives .elem st st' := by
  unfold nontermNset at h
  rcases Option.bind_eq_some_iff.mp h with ⟨st₁, hitems, h⟩
  cases h
  rcases nontermSetitems_appends hmap fuel hitems with ⟨item, items, hitems⟩
  refine appends_set true ?_ hitems
  simp [RandexpState.addc]

/-! ## Characters and counts -/

theorem nontermChar_derives (hmap : E.charmap = initCharmap) (h : E.nontermChar st = some st') :
    Derives .elem st st' := by
  unfold nontermChar at h
  rcases Option.bind_eq_some_iff.mp h with ⟨⟨b, st₁⟩, hchance, h⟩
  have hst₁ := chance_spec hchance
  cases b with
  | true =>
      simp only [if_true] at h
      rcases Option.bind_eq_some_iff.mp h with ⟨⟨r, st₂⟩, hrange, h⟩
      cases h
      rcases range_spec (Nat.zero_le _) (by decide) hrange with ⟨_, hr, hst₂⟩
      have hmem : at' metaSyms r ∈ metaSyms := by
        have hlen : metaSyms.length = numMeta := rfl
        have hpos : 0 < numMeta := by decide
        exact List.mem_of_getElem? (at'_getElem? (by omega))
      -- an escaped metacharacter
      refine ⟨.char ⟨at' metaSyms r, true, fun _ => hmem, by simp⟩,
        .single ?_ (Spells.written _) trivial⟩
      show st₂.strb ++ [at' metaSyms r] = st.strb ++ [derefSym, at' metaSyms r]
      rw [hst₂, RandexpState.addc, hst₁]
      simp
  | false =>
      simp only [Bool.false_eq_true, if_false] at h
      rcases Option.bind_eq_some_iff.mp h with ⟨⟨c, st₂⟩, hliteral, h⟩
      cases h
      -- a literal that needs no escape
      rcases getRandLiteral_spec hmap hliteral with ⟨_, hc, hst₂⟩
      rcases exists_literal (hc rfl) false with ⟨l, _, htext⟩
      refine ⟨.char l, .single ?_ (Spells.written _) trivial⟩
      show st₂.strb ++ [c] = st.strb ++ l.text
      rw [hst₂, hst₁, htext]

/-- A random count is an integer of the grammar. -/
theorem exists_integer {r : Nat} (hlow : 1 ≤ r) (hhigh : r ≤ maxRep) :
    ∃ n : Integer, n.digits = decimal r ∧ 1 ≤ n.value ∧ n.value ≤ maxRep := by
  have hall : ∀ r ≤ maxRep, (∀ d ∈ decimal r, isdigit d = true) ∧ decimal r ≠ [] ∧
      digitsValue 0 (decimal r) = r := by decide +kernel
  rcases hall r hhigh with ⟨hdigits, hne, hvalue⟩
  refine ⟨⟨decimal r, hne, hdigits⟩, rfl, ?_⟩
  rw [Integer.value, hvalue]
  omega

theorem range_count {r : Nat} (h : E.range 1 maxRep st = some (r, st')) :
    ∃ n : Integer, n.digits = decimal r ∧ (1 ≤ n.value ∧ n.value ≤ maxRep) ∧
      st'.strb = st.strb := by
  rcases range_spec (by decide) (by decide) h with ⟨hlow, hhigh, hstrb⟩
  rcases exists_integer hlow hhigh with ⟨n, hn, hvalue⟩
  exact ⟨n, hn, hvalue, hstrb⟩

/-- `nonterm_reps` writes what stands between the braces. -/
theorem nontermReps_spec (h : E.nontermReps st = some st') :
    ∃ reps : Reps, reps.Drawn ∧ st'.strb = st.strb ++ reps.text := by
  unfold nontermReps at h
  rcases Option.bind_eq_some_iff.mp h with ⟨⟨k, st₀⟩, hrange, h⟩
  have hst₀ := (range_spec (Nat.zero_le _) (by decide) hrange).2.2
  dsimp only at h
  -- the four forms of a count; the numbers are written by `addu`
  split at h
  · unfold nontermRepn at h
    rcases Option.bind_eq_some_iff.mp h with ⟨⟨r, st₁⟩, hr, h⟩
    rcases range_count hr with ⟨n, hn, hvalue, hst₁⟩
    cases h
    exact ⟨.repN n, hvalue, by simp [RandexpState.addu, Reps.text, hst₁, hst₀, hn]⟩
  · unfold nontermReprange at h
    rcases Option.bind_eq_some_iff.mp h with ⟨⟨r, st₁⟩, hr, h⟩
    rcases Option.bind_eq_some_iff.mp h with ⟨⟨r', st₂⟩, hr', h⟩
    rcases range_count hr with ⟨n, hn, hvalue, hst₁⟩
    rcases range_count hr' with ⟨m, hm, hvalue', hst₂⟩
    cases h
    refine ⟨.repRange n m, ⟨hvalue, hvalue'⟩, ?_⟩
    simp [RandexpState.addu, RandexpState.addc, Reps.text, hst₂, hst₁, hst₀, hn, hm]
  · unfold nontermRepmore at h
    rcases Option.bind_eq_some_iff.mp h with ⟨⟨r, st₁⟩, hr, h⟩
    rcases range_count hr with ⟨n, hn, hvalue, hst₁⟩
    cases h
    refine ⟨.repMore n, hvalue, ?_⟩
    simp [RandexpState.addu, RandexpState.addc, Reps.text, hst₁, hst₀, hn]
  · unfold nontermRepless at h
    rcases Option.bind_eq_some_iff.mp h with ⟨⟨r, st₁⟩, hr, h⟩
    rcases range_count hr with ⟨n, hn, hvalue, hst₁⟩
    cases h
    refine ⟨.repLess n, hvalue, ?_⟩
    simp [RandexpState.addu, RandexpState.addc, Reps.text, hst₁, hst₀, hn]

/-! ## The nonterminals that call each other -/

/-- An operator of one symbol behind an element. -/
theorem Derives.operator {st₁ : RandexpState} {s : CChar} (h : Derives .elem st st₁)
    (op : Expr .elem → Expr .basic) (x : Lexeme) (hop : ∀ e, (op e).lexemes = e.lexemes ++ [x])
    (htext : x.text = [s]) (hdrawn : x.Drawn) : Derives .basic st (st₁.addc s) := by
  rcases h with ⟨e, he⟩
  exact ⟨op e, hop e ▸ he.trans (.symbol x htext hdrawn)⟩

/-- What the functions do in runs with so much fuel. -/
structure AllDerive (E : RandexpEnv) (fuel : Nat) : Prop where
  re : ∀ {st st'}, E.nontermRe fuel st = some st' → Derives .re st st'
  union : ∀ {st st'}, E.nontermUnion fuel st = some st' → Derives .re st st'
  simple : ∀ {st st'}, E.nontermSimple fuel st = some st' → Derives .simple st st'
  concat : ∀ {st st'}, E.nontermConcat fuel st = some st' → Derives .simple st st'
  basic : ∀ {st st'}, E.nontermBasic fuel st = some st' → Derives .basic st st'
  zero : ∀ {st st'}, E.nontermZero fuel st = some st' → Derives .basic st st'
  one : ∀ {st st'}, E.nontermOne fuel st = some st' → Derives .basic st st'
  onezero : ∀ {st st'}, E.nontermOnezero fuel st = some st' → Derives .basic st st'
  rep : ∀ {st st'}, E.nontermRep fuel st = some st' → Derives .basic st st'
  elem : ∀ {st st'}, E.nontermElem fuel st = some st' → Derives .elem st st'
  group : ∀ {st st'}, E.nontermGroup fuel st = some st' → Derives .elem st st'

/-- A derivation of one nonterminal as one of another. -/
theorem Derives.lift {n m : NonTerm} (h : Derives n st st') (f : Expr n → Expr m)
    (hf : ∀ e, (f e).lexemes = e.lexemes) : Derives m st st' := by
  rcases h with ⟨e, he⟩
  exact ⟨f e, hf e ▸ he⟩

/-- One more call: by what the functions it calls do. -/
theorem AllDerive.step {fuel : Nat} (hmap : E.charmap = initCharmap) (ih : AllDerive E fuel) :
    AllDerive E (fuel + 1) where
  re := by
    intro st st' h
    unfold nontermRe at h
    rcases Option.bind_eq_some_iff.mp h with ⟨⟨b, st₁⟩, hchance, h⟩
    have hst₁ := chance_spec hchance
    cases b with
    | true => exact (ih.union h).same hst₁
    | false => exact ((ih.simple h).same hst₁).lift .ofSimple fun _ => rfl
  union := by
    intro st st' h
    unfold nontermUnion at h
    rcases Option.bind_eq_some_iff.mp h with ⟨st₁, hre, h⟩
    rcases ih.re hre with ⟨e, he⟩
    rcases ih.simple h with ⟨f, hf⟩
    exact ⟨.union e f, he.trans ((Appends.symbol .alt rfl trivial).trans hf)⟩
  simple := by
    intro st st' h
    unfold nontermSimple at h
    rcases Option.bind_eq_some_iff.mp h with ⟨⟨b, st₁⟩, hchance, h⟩
    have hst₁ := chance_spec hchance
    cases b with
    | true => exact (ih.concat h).same hst₁
    | false => exact ((ih.basic h).same hst₁).lift .ofBasic fun _ => rfl
  concat := by
    intro st st' h
    unfold nontermConcat at h
    rcases Option.bind_eq_some_iff.mp h with ⟨st₁, hsimple, h⟩
    rcases ih.simple hsimple with ⟨e, he⟩
    rcases ih.basic h with ⟨f, hf⟩
    exact ⟨.concat e f, he.trans hf⟩
  basic := by
    intro st st' h
    unfold nontermBasic at h
    rcases Option.bind_eq_some_iff.mp h with ⟨⟨b, st₁⟩, hchance, h⟩
    have hst₁ := chance_spec hchance
    cases b with
    | true => exact ((ih.elem h).same hst₁).lift .ofElem fun _ => rfl
    | false =>
        simp only [Bool.false_eq_true, if_false] at h
        rcases Option.bind_eq_some_iff.mp h with ⟨⟨r, st₂⟩, hrange, h⟩
        have hst₂ := (range_spec (Nat.zero_le _) (by decide) hrange).2.2
        refine Derives.same ?_ (hst₂.trans hst₁)
        dsimp only at h
        split at h
        · exact ih.zero h
        · exact ih.one h
        · exact ih.onezero h
        · exact ih.rep h
        · exact (ih.elem h).lift .ofElem fun _ => rfl
  zero := by
    intro st st' h
    unfold nontermZero at h
    rcases Option.bind_eq_some_iff.mp h with ⟨st₁, helem, h⟩
    cases h
    exact (ih.elem helem).operator .zero .zero (fun _ => rfl) rfl trivial
  one := by
    intro st st' h
    unfold nontermOne at h
    rcases Option.bind_eq_some_iff.mp h with ⟨st₁, helem, h⟩
    cases h
    exact (ih.elem helem).operator .one .one (fun _ => rfl) rfl trivial
  onezero := by
    intro st st' h
    unfold nontermOnezero at h
    rcases Option.bind_eq_some_iff.mp h with ⟨st₁, helem, h⟩
    cases h
    exact (ih.elem helem).operator .onezero .onezero (fun _ => rfl) rfl trivial
  rep := by
    intro st st' h
    unfold nontermRep at h
    rcases Option.bind_eq_some_iff.mp h with ⟨st₁, helem, h⟩
    rcases Option.bind_eq_some_iff.mp h with ⟨st₂, hreps, h⟩
    cases h
    rcases ih.elem helem with ⟨e, he⟩
    rcases nontermReps_spec hreps with ⟨reps, hdrawn, hst₂⟩
    refine ⟨.rep e reps, he.trans (.single ?_ (Spells.written (.rep reps)) hdrawn)⟩
    show st₂.strb ++ [repCloseSym] = _
    rw [hst₂]
    simp [RandexpState.addc, Lexeme.text]
  elem := by
    intro st st' h
    unfold nontermElem at h
    rcases Option.bind_eq_some_iff.mp h with ⟨⟨b, st₁⟩, hchance, h⟩
    have hst₁ := chance_spec hchance
    cases b with
    | true => exact (nontermChar_derives hmap h).same hst₁
    | false =>
        simp only [Bool.false_eq_true, if_false] at h
        rcases Option.bind_eq_some_iff.mp h with ⟨⟨r, st₂⟩, hrange, h⟩
        have hst₂ := (range_spec (Nat.zero_le _) (by decide) hrange).2.2
        refine Derives.same ?_ (hst₂.trans hst₁)
        dsimp only at h
        split at h
        · exact ih.group h
        · cases h
          exact ⟨.any, .symbol .any rfl trivial⟩
        · exact nontermChar_derives hmap h
        · exact nontermSet_derives hmap h
        · exact nontermNset_derives hmap h
  group := by
    intro st st' h
    unfold nontermGroup at h
    rcases Option.bind_eq_some_iff.mp h with ⟨st₁, hre, h⟩
    cases h
    rcases ih.re hre with ⟨e, he⟩
    have hopen : Appends Spells Lexeme.Drawn st (st.addc lparenSym) [.lparen] :=
      .symbol .lparen rfl trivial
    exact ⟨.group e, (hopen.trans he).trans (.symbol .rparen rfl trivial)⟩

theorem allDerive (hmap : E.charmap = initCharmap) (fuel : Nat) : AllDerive E fuel := by
  induction fuel with
  | zero =>
      constructor
      all_goals
        intro st st' h
        cases h
  | succ fuel ih => exact ih.step hmap

end

/-- A random expression spells a derivation of the grammar, without anchors, with
counts from 1 to `MAX_REP` and the characters of its sets from the table. -/
theorem genRandexp_derives {rand : Nat → Nat} {fuel calls calls' : Nat} {cfg : RandexpCfg}
    {exp : List CChar} (h : genRandexp initCharmap rand fuel cfg calls = some (exp, calls')) :
    ∃ e : Expr .re, Concat Spells e.lexemes exp ∧ ∀ x ∈ e.lexemes, x.Drawn := by
  unfold genRandexp at h
  rcases Option.bind_eq_some_iff.mp h with ⟨st, hre, h⟩
  cases h
  rcases (allDerive rfl fuel).re hre with ⟨e, t, hst, hspell, hdrawn⟩
  refine ⟨e, ?_, hdrawn⟩
  rw [hst]
  exact hspell

end Rxvm
