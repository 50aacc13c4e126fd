import Rxvm.MeaningSpec

/-!
# Rxvm.Words — the words of an expression

Every instruction of a compiled expression but branches and jumps is the one of
a lexeme, and an expression without anchors matches some word wherever the word
stands. Each of its lexemes has a part in such a word, so what no match
contains no instruction reads.
-/

namespace Rxvm

open Relation

/-! ## Instructions and lexemes -/

/-- The instruction a lexeme stands for. -/
def Lexeme.inst : Lexeme → Option Inst
  | .char l => some (.opChar l.c)
  | .any => some .opAny
  | .sol => some .opSol
  | .eol => some .opEol
  | .set negated item items => some (Lexeme.setInst negated (item :: items))
  | _ => none

/-- A property of instructions that says nothing about branches and jumps. -/
structure Straight (P : Inst → Prop) : Prop where
  branch : ∀ x y, P (.opBranch x y)
  jmp : ∀ x, P (.opJmp x)

section

variable {P : Inst → Prop} {c e : List Inst} {F F' : Frames}

theorem Straight.setX (h : Straight P) {inst : Inst} (hinst : P inst) (x : Int) :
    P (inst.setX x) := by
  cases inst with
  | opJmp => exact h.jmp x
  | opBranch _ y => exact h.branch x y
  | _ => exact hinst

theorem Straight.relocate (h : Straight P) {inst : Inst} (hinst : P inst) (i : Nat) :
    P (inst.relocate i) := by
  cases inst with
  | opJmp => exact h.jmp _
  | opBranch => exact h.branch _ _
  | _ => exact hinst

theorem Straight.copies (he : ∀ i ∈ e, P i) (n : Nat) : ∀ i ∈ copies e n, P i := by
  intro i hi
  rcases List.mem_flatten.mp hi with ⟨l, hl, hi⟩
  rw [List.eq_of_mem_replicate hl] at hi
  exact he i hi

theorem Straight.optional (h : Straight P) (he : ∀ i ∈ e, P i) (rounds : Nat) :
    ∀ i ∈ optionalCode e rounds, P i := by
  induction rounds with
  | zero =>
      intro i hi
      cases hi
  | succ rounds ih =>
      intro i hi
      rw [optionalCode, List.cons_append, List.mem_cons, List.mem_append] at hi
      rcases hi with rfl | hi | hi
      · exact h.branch _ _
      · exact he i hi
      · exact ih i hi

theorem Straight.one (h : Straight P) (he : ∀ i ∈ e, P i) : ∀ i ∈ oneCode e, P i := by
  intro i hi
  rcases List.mem_append.mp hi with hi | hi
  · exact he i hi
  · rw [List.mem_singleton.mp hi]
    exact h.branch _ _

theorem Straight.onezero (h : Straight P) (he : ∀ i ∈ e, P i) : ∀ i ∈ onezeroCode e, P i := by
  rw [onezeroCode_eq]
  exact h.optional he 1

theorem Straight.zero (h : Straight P) (he : ∀ i ∈ e, P i) : ∀ i ∈ zeroCode e, P i := by
  rw [zeroCode_eq_onezeroCode]
  exact h.onezero (h.one he)

theorem Straight.more (h : Straight P) (he : ∀ i ∈ e, P i) (repN : Int) :
    ∀ i ∈ repMoreCode e repN, P i := by
  intro i hi
  rcases List.mem_append.mp hi with hi | hi
  · exact Straight.copies he _ i hi
  · rw [List.mem_singleton.mp hi]
    exact h.branch _ _

/-- What an operator with a count makes of its operand. -/
theorem Straight.reps (h : Straight P) (he : ∀ i ∈ e, P i) {repN repM : Int}
    (hcode : repCode e repN repM = some c) : ∀ i ∈ c, P i := by
  have hrange : ∀ {c : List Inst}, repRangeCode e repN repM = some c → ∀ i ∈ c, P i := by
    intro c hc
    unfold repRangeCode at hc
    split_ifs at hc <;> obtain rfl := Option.some.inj hc
    · exact Straight.copies he _
    · exact h.onezero he
    · intro i hi
      rcases List.mem_append.mp hi with hi | hi
      · exact Straight.copies he _ i hi
      · exact h.optional he _ i hi
  have hless : ∀ {c : List Inst}, repLessCode e repM = some c → ∀ i ∈ c, P i := by
    intro c hc
    unfold repLessCode at hc
    split_ifs at hc <;> obtain rfl := Option.some.inj hc
    · exact h.onezero he
    · exact h.optional he _
  unfold repCode at hcode
  split_ifs at hcode
  · exact hrange hcode
  · obtain rfl := Option.some.inj hcode
    exact h.more he _
  · exact hless hcode
  · obtain rfl := Option.some.inj hcode
    exact Straight.copies he _
  · obtain rfl := Option.some.inj hcode
    exact h.zero he
  · obtain rfl := Option.some.inj hcode
    intro i hi
    cases hi

theorem Straight.attach (h : Straight P) {s : Stk} (hs : ∀ i ∈ s.code, P i) :
    ∀ i ∈ s.attach.code, P i := by
  intro i hi
  unfold Stk.attach at hi
  split at hi
  · exact hs i hi
  · next j _ =>
      rcases List.getElem?_of_mem hi with ⟨k, hk⟩
      rw [List.getElem?_modify] at hk
      rcases Option.map_eq_some_iff.mp hk with ⟨inst, hinst, rfl⟩
      have hP := hs inst (List.mem_of_getElem? hinst)
      split
      · exact h.setX hP _
      · exact hP

/-- All instructions of the frames have the property. -/
structure Frames.All (P : Inst → Prop) (F : Frames) : Prop where
  top : ∀ i ∈ F.top.code, P i
  below : ∀ t ∈ F.below, ∀ i ∈ t.code, P i
  buf : ∀ i ∈ F.buf, P i
  closed : ∀ c ∈ F.closed, ∀ i ∈ c, P i

theorem forall_mem_append {α : Type*} {P : α → Prop} {l l' : List α} (h : ∀ a ∈ l, P a)
    (h' : ∀ a ∈ l', P a) : ∀ a ∈ l ++ l', P a := by
  intro a ha
  rcases List.mem_append.mp ha with ha | ha
  · exact h a ha
  · exact h' a ha

theorem Frames.All.flush (h : F.All P) : F.flush.All P := by
  unfold Frames.flush
  split
  · next c hc =>
      exact ⟨forall_mem_append h.top (h.closed c hc), h.below, h.buf, fun _ hc' => by cases hc'⟩
  · exact h

theorem Frames.All.level (h : F.All P) : ∀ i ∈ F.level.code, P i := by
  refine forall_mem_append h.top (forall_mem_append ?_ h.buf)
  cases hc : F.closed with
  | none => exact fun i hi => by cases hi
  | some c => exact h.closed c hc

theorem Frames.All.operate (h : F.All P) (code : List Inst → Option (List Inst))
    (hcode : ∀ e c, (∀ i ∈ e, P i) → code e = some c → ∀ i ∈ c, P i)
    (hop : F.operate code = some F') : F'.All P := by
  rcases Option.bind_eq_some_iff.mp hop with ⟨⟨pre, e⟩, hoperand, hmap⟩
  rcases Option.map_eq_some_iff.mp hmap with ⟨c, hc, rfl⟩
  have hparts : (∀ i ∈ pre, P i) ∧ ∀ i ∈ e, P i := by
    unfold Frames.operand at hoperand
    split at hoperand
    · next c' hc' =>
        obtain ⟨rfl, rfl⟩ := Prod.mk.inj (Option.some.inj hoperand)
        exact ⟨List.forall_mem_nil P, h.closed _ hc'⟩
    · rcases Option.map_eq_some_iff.mp hoperand with ⟨inst, hlast, hpair⟩
      obtain ⟨rfl, rfl⟩ := Prod.mk.inj hpair
      refine ⟨fun i hi => h.buf i (List.mem_of_mem_dropLast hi), ?_⟩
      intro i hi
      rw [List.mem_singleton.mp hi]
      exact h.buf inst (List.mem_of_getLast? hlast)
  exact ⟨forall_mem_append h.top (forall_mem_append hparts.1 (hcode e c hparts.2 hc)), h.below,
    List.forall_mem_nil P, fun _ hc' => absurd hc' (Option.not_mem_none _)⟩

/-- A lexeme adds its own instruction at most. -/
theorem Frames.All.take (hP : Straight P) (h : F.All P) {x : Lexeme}
    (hx : ∀ inst, x.inst = some inst → P inst) (htake : F.take x = some F') : F'.All P := by
  -- a literal or a class goes behind what the flush leaves
  have hatom : ∀ {inst : Inst}, P inst → (F.atom inst).All P := by
    intro inst hinst
    have hflush := h.flush
    refine ⟨hflush.top, hflush.below, forall_mem_append hflush.buf ?_, hflush.closed⟩
    intro i hi
    rw [List.mem_singleton.mp hi]
    exact hinst
  cases x with
  -- what reads one character
  | char | any | sol | eol =>
      obtain rfl := Option.some.inj htake
      exact hatom (hx _ rfl)
  | set negated item items =>
      have heq : F.atom (Lexeme.setInst negated (item :: items)) = F' := by
        refine Option.some.inj (Eq.trans ?_ htake)
        cases negated <;> rfl
      rw [← heq]
      exact hatom (hx _ rfl)
  | zero =>
      refine h.operate (fun e => some (zeroCode e)) ?_ htake
      rintro e c he hc
      obtain rfl := Option.some.inj hc
      exact hP.zero he
  | one =>
      refine h.operate (fun e => some (oneCode e)) ?_ htake
      rintro e c he hc
      obtain rfl := Option.some.inj hc
      exact hP.one he
  | onezero =>
      refine h.operate (fun e => some (onezeroCode e)) ?_ htake
      rintro e c he hc
      obtain rfl := Option.some.inj hc
      exact hP.onezero he
  | rep reps =>
      refine h.operate (fun e => reps.code e) ?_ htake
      intro e c he hc
      rw [Reps.code_eq] at hc
      exact hP.reps he hc
  | alt =>
      obtain rfl := Option.some.inj htake
      -- the level is closed between a fork and a jump
      refine ⟨?_, h.below, List.forall_mem_nil P, fun _ hc => absurd hc (Option.not_mem_none _)⟩
      show ∀ i ∈ Inst.opBranch 1 _ :: F.level.attach.code ++ [Inst.opJmp 0], P i
      refine forall_mem_append ?_ ?_
      · intro i hi
        rcases List.mem_cons.mp hi with rfl | hi
        · exact hP.branch _ _
        · exact hP.attach h.level i hi
      · intro i hi
        rw [List.mem_singleton.mp hi]
        exact hP.jmp _
  | lparen =>
      obtain rfl := Option.some.inj htake
      -- what was waiting goes to the level that `(` leaves
      have hflush := h.flush
      refine ⟨List.forall_mem_nil P, ?_, List.forall_mem_nil P,
        fun _ hc => absurd hc (Option.not_mem_none _)⟩
      intro t ht
      rcases List.mem_cons.mp ht with rfl | ht
      · exact forall_mem_append hflush.top hflush.buf
      · exact h.below t ht
  | rparen =>
      have hflush := h.flush
      simp only [Frames.take, Frames.closeLevel] at htake
      split at htake
      · cases htake
      · -- `)` makes the level of the group what waits for an operator
        next t below hbelow =>
          split_ifs at htake
          obtain rfl := Option.some.inj htake
          refine ⟨h.below t (by rw [hbelow]; exact List.mem_cons_self),
            fun t' ht' => h.below t' (by rw [hbelow]; exact List.mem_cons_of_mem _ ht'),
            List.forall_mem_nil P, ?_⟩
          intro c hc
          obtain rfl := Option.some.inj hc
          exact hP.attach (forall_mem_append hflush.top hflush.buf)

theorem Frames.All.takeAll (hP : Straight P) : ∀ {l : List Lexeme} {F : Frames}, F.All P →
    (∀ x ∈ l, ∀ inst, x.inst = some inst → P inst) → F.takeAll l = some F' → F'.All P := by
  intro l
  induction l with
  | nil =>
      intro F h _ htake
      obtain rfl := Option.some.inj htake
      exact h
  | cons x l ih =>
      intro F h hl htake
      rw [Frames.takeAll_cons] at htake
      rcases Option.bind_eq_some_iff.mp htake with ⟨F₁, hx, hrest⟩
      exact ih (h.take hP (hl x List.mem_cons_self) hx)
        (fun y hy => hl y (List.mem_cons_of_mem _ hy)) hrest

end

/-- Every instruction of the program of an expression belongs to one of its
lexemes, but for branches, jumps and the last one. -/
theorem rxvmCompile_lexemes {e : Expr .re} (hadm : e.Admissible) (hlit : ¬ e.LiteralOnly)
    {compiled : Compiled} {g' : Statics}
    (h : rxvmCompile Statics.init e.text = .ok (.ok compiled, g')) {P : Inst → Prop}
    (hP : Straight P) (hmatch : P .opMatch)
    (hl : ∀ x ∈ e.lexemes, ∀ inst, x.inst = some inst → P inst) :
    ∀ inst ∈ compiled.exe, P inst := by
  rcases e.takeAll hadm Frames.start Frames.start_tidy fun _ => rfl with
    ⟨F, code, htake, ⟨_, hbelow, _⟩, _⟩
  have hstart : Frames.start.All P := ⟨List.forall_mem_nil P, fun _ ht => absurd ht List.not_mem_nil,
    List.forall_mem_nil P, fun _ hc => absurd hc (Option.not_mem_none _)⟩
  have hall := hP.attach (hstart.takeAll hP hl htake).level
  rcases reached_lexemes hadm hlit htake with ⟨k, hreached, hend⟩
  rcases hreached.program hend hbelow with ⟨chained, compiled', g₁, hrun, _, hclosed, hexe⟩
  obtain rfl : compiled' = compiled := by
    have heq := Except.ok.inj (hrun.symm.trans h)
    exact Except.ok.inj (Prod.mk.inj heq).1
  rcases linked_spec hclosed chained with ⟨exe, hlinked, _, hmem, _⟩
  obtain rfl : exe = compiled'.exe := Except.ok.inj (hlinked.symm.trans hexe)
  intro inst hinst
  rcases hmem inst hinst with hjmp | hcode
  · cases inst with
    | opJmp x => exact hP.jmp x
    | _ => cases hjmp
  · rcases List.getElem?_of_mem hcode with ⟨i, hi⟩
    rw [getElem?_relocateFrom] at hi
    rcases Option.map_eq_some_iff.mp hi with ⟨inst', hinst', rfl⟩
    refine hP.relocate ?_ _
    refine forall_mem_append hall ?_ inst' (List.mem_of_getElem? hinst')
    intro i hi
    rw [List.mem_singleton.mp hi]
    exact hmatch

/-! ## Words -/

/-- An admissible count allows some copy. -/
theorem Reps.Admissible.allows {reps : Reps} (h : reps.Admissible) :
    ∃ k : Nat, reps.Allows (k + 1) := by
  cases reps with
  | repN n =>
      have hn := n.value_nonneg
      have h0 := h.1
      refine ⟨n.value.toNat - 1, ?_⟩
      simp only [Reps.Allows]
      omega
  | repRange n m =>
      have hn := n.value_nonneg
      have hm := m.value_nonneg
      have h0 := h.1
      refine ⟨(max n.value m.value).toNat - 1, ?_⟩
      simp only [Reps.Allows]
      omega
  | repMore n =>
      have hn := n.value_nonneg
      refine ⟨n.value.toNat, ?_⟩
      simp only [Reps.Allows]
      omega
  | repLess m =>
      have hm := m.value_nonneg
      have h0 := h.1
      refine ⟨m.value.toNat - 1, ?_⟩
      simp only [Reps.Allows]
      omega

theorem SetItem.Has.pos {item : SetItem} {x : CChar} (h : item.Has x) : 0 < x.toInt := by
  cases item with
  | char l =>
      rw [show x = l.c from h]
      exact (isprintable_bounds l.printable).1
  | range lo hi =>
      have hlo := (isprintable_bounds lo.printable).1
      have hhi := (isprintable_bounds hi.printable).1
      rcases h with h | h
      · have := Int8.le_iff_toInt_le.mp h.1
        omega
      · have := Int8.le_iff_toInt_le.mp h.1
        omega

namespace Expr

/-- The relation holds between the two ends of the word wherever it stands. -/
def Spells (M : List CChar → Nat → Nat → Prop) (w : List CChar) : Prop :=
  NoNul w ∧ ∀ pre post, M (pre ++ w ++ post) pre.length (pre ++ w).length

section

variable {M N : List CChar → Nat → Nat → Prop} {v w : List CChar} {c : CChar}

theorem Spells.imp (h : Spells M w) (himp : ∀ s i j, M s i j → N s i j) : Spells N w :=
  ⟨h.1, fun pre post => himp _ _ _ (h.2 pre post)⟩

theorem Spells.nil : Spells (fun _ i j => i = j) [] := by
  refine ⟨fun c hc => absurd hc List.not_mem_nil, ?_⟩
  intro pre post
  rw [List.append_nil]

theorem Spells.append (hw : Spells M w) (hv : Spells N v) :
    Spells (fun s i j => ∃ k, M s i k ∧ N s k j) (w ++ v) := by
  refine ⟨forall_mem_append hw.1 hv.1, ?_⟩
  intro pre post
  refine ⟨(pre ++ w).length, ?_, ?_⟩
  · have h := hw.2 pre (v ++ post)
    rwa [← List.append_assoc (pre ++ w), List.append_assoc pre] at h
  · have h := hv.2 (pre ++ w) post
    rwa [List.append_assoc pre] at h

/-- A word as often as one likes. -/
theorem Spells.times (h : Spells M w) (k : Nat) :
    Spells (fun s => Times (M s) k) (List.replicate k w).flatten := by
  induction k with
  | zero => exact Spells.nil
  | succ k ih =>
      rw [List.replicate_succ, List.flatten_cons]
      exact h.append ih

theorem Spells.eats {P : CChar → Prop} (h0 : c ≠ 0) (hc : P c) :
    Spells (fun s => Eats s P) [c] := by
  refine ⟨by simpa [NoNul] using h0, ?_⟩
  intro pre post
  refine ⟨by simp, c, by simp, hc⟩

end

/-- Some word of the expression, and one with the character `c`, if a lexeme
reads that. -/
structure Spelled {n : NonTerm} (e : Expr n) (c : CChar) : Prop where
  word : ∃ w, Spells (fun s => e.Matches false s) w
  reads : ∀ x ∈ e.lexemes, ∀ inst, x.inst = some inst → inst.eats false c = true →
    ∃ w, Spells (fun s => e.Matches false s) w ∧ c ∈ w

/-- Some character is read by the lexeme, and by no other way than its test. -/
theorem Spelled.atom {n : NonTerm} {e : Expr n} {x : Lexeme} {inst : Inst} {P : CChar → Prop}
    {c d : CChar} (hc : c ≠ 0) (hlex : e.lexemes = [x]) (hinst : x.inst = some inst)
    (hM : ∀ s i j, e.Matches false s i j ↔ Eats s P i j)
    (heats : ∀ c, inst.eats false c = true ↔ P c) (hd : P d) (hd0 : d ≠ 0) :
    e.Spelled c := by
  have hword : ∀ {a : CChar}, a ≠ 0 → P a → Spells (fun s => e.Matches false s) [a] := by
    intro a ha0 ha
    exact (Spells.eats ha0 ha).imp fun s i j h => (hM s i j).mpr h
  refine ⟨⟨[d], hword hd0 hd⟩, ?_⟩
  intro y hy inst' hinst' hreads
  rw [hlex] at hy
  obtain rfl := List.mem_singleton.mp hy
  obtain rfl := Option.some.inj (hinst.symm.trans hinst')
  exact ⟨[c], hword hc ((heats c).mp hreads), List.mem_singleton_self c⟩

/-- Some number of rounds is allowed, and not only none. -/
theorem Spelled.rounds {f : Expr .elem} {e : Expr .basic} {c : CChar} {x : Lexeme} (k : Nat)
    (h : f.Spelled c) (hlex : e.lexemes = f.lexemes ++ [x]) (hx : x.inst = none)
    (hM : ∀ s i j, Times (f.Matches false s) (k + 1) i j → e.Matches false s i j) :
    e.Spelled c := by
  rcases h.word with ⟨v, hv⟩
  constructor
  · exact ⟨_, (hv.times (k + 1)).imp hM⟩
  · intro y hy inst hinst hreads
    rw [hlex] at hy
    rcases List.mem_append.mp hy with hy | hy
    · rcases h.reads y hy inst hinst hreads with ⟨w, hw, hc⟩
      -- one round with the character, and the others anyhow
      exact ⟨w ++ (List.replicate k v).flatten, (hw.append (hv.times k)).imp hM,
        List.mem_append_left _ hc⟩
    · rw [List.mem_singleton.mp hy, hx] at hinst
      cases hinst

/-- A set reads some character. -/
theorem exists_inSet (negated : Bool) (item : SetItem) (items : List SetItem) :
    ∃ d : CChar, (negated = false ↔ ∃ y ∈ item :: items, y.Has d) ∧ d ≠ 0 := by
  cases negated with
  | false =>
      rcases List.exists_mem_of_ne_nil _ item.chars_ne_nil with ⟨d, hd⟩
      have hhas := (item.mem_chars d).mp hd
      refine ⟨d, ⟨fun _ => ⟨item, List.mem_cons_self, hhas⟩, fun _ => rfl⟩, ?_⟩
      exact ne_zero_of_toInt (ne_of_gt (SetItem.Has.pos hhas))
  | true =>
      -- no item has a character with a negative code
      refine ⟨-1, ⟨fun h => absurd h (by simp), ?_⟩, by decide⟩
      rintro ⟨y, _, hy⟩
      exact absurd (SetItem.Has.pos hy) (by decide)

/-- Every expression without anchors has a word, and all its lexemes have a part
in some. -/
theorem spelled {n : NonTerm} (e : Expr n) (hadm : e.Admissible)
    (hanchors : ∀ x ∈ e.lexemes, x ≠ .sol ∧ x ≠ .eol) {c : CChar} (hc : c ≠ 0) :
    e.Spelled c := by
  induction e with
  | ofSimple e ih => exact ⟨(ih hadm hanchors).word, (ih hadm hanchors).reads⟩
  | ofBasic e ih => exact ⟨(ih hadm hanchors).word, (ih hadm hanchors).reads⟩
  | ofElem e ih => exact ⟨(ih hadm hanchors).word, (ih hadm hanchors).reads⟩
  | union e f ihe ihf =>
      have hl := ihe (hadm.left rfl) fun x hx => hanchors x (List.mem_append_left _ hx)
      have hr := ihf (fun x hx => hadm x (by simp [lexemes, hx]))
        fun x hx => hanchors x (List.mem_append_right _ (List.mem_cons_of_mem _ hx))
      -- a word of either side is a word of both
      rcases hl.word with ⟨w, hw⟩
      refine ⟨⟨w, hw.imp fun s i j h => Or.inl h⟩, ?_⟩
      intro x hx inst hinst hreads
      rcases List.mem_append.mp hx with hx | hx
      · rcases hl.reads x hx inst hinst hreads with ⟨w, hw, hmem⟩
        exact ⟨w, hw.imp fun s i j h => Or.inl h, hmem⟩
      · rcases List.mem_cons.mp hx with rfl | hx
        · cases hinst
        · rcases hr.reads x hx inst hinst hreads with ⟨w, hw, hmem⟩
          exact ⟨w, hw.imp fun s i j h => Or.inr h, hmem⟩
  | concat e f ihe ihf =>
      have hl := ihe (hadm.left rfl) fun x hx => hanchors x (List.mem_append_left _ hx)
      have hr := ihf (fun x hx => hadm x (by simp [lexemes, hx]))
        fun x hx => hanchors x (List.mem_append_right _ hx)
      rcases hl.word with ⟨w, hw⟩
      rcases hr.word with ⟨v, hv⟩
      -- a part in one side becomes a part of the whole between words of the other
      refine ⟨⟨w ++ v, hw.append hv⟩, ?_⟩
      intro x hx inst hinst hreads
      rcases List.mem_append.mp hx with hx | hx
      · rcases hl.reads x hx inst hinst hreads with ⟨w', hw', hmem⟩
        exact ⟨w' ++ v, hw'.append hv, List.mem_append_left _ hmem⟩
      · rcases hr.reads x hx inst hinst hreads with ⟨v', hv', hmem⟩
        exact ⟨w ++ v', hw.append hv', List.mem_append_right _ hmem⟩
  | zero e ih =>
      have h := ih (hadm.left rfl) fun x hx => hanchors x (List.mem_append_left _ hx)
      -- one round is allowed, so a word of `e` is a word
      exact h.rounds 0 rfl rfl fun s i j hij => ⟨1, hij⟩
  | one e ih =>
      have h := ih (hadm.left rfl) fun x hx => hanchors x (List.mem_append_left _ hx)
      exact h.rounds 0 rfl rfl fun s i j hij => ⟨1, le_rfl, hij⟩
  | onezero e ih =>
      have h := ih (hadm.left rfl) fun x hx => hanchors x (List.mem_append_left _ hx)
      exact h.rounds 0 rfl rfl fun s i j hij => Or.inr (times_one.mp hij)
  | rep e reps ih =>
      have h := ih (hadm.left rfl) fun x hx => hanchors x (List.mem_append_left _ hx)
      have hreps : reps.Admissible := hadm (.rep reps) (by simp [lexemes])
      -- some number of rounds, not none, is allowed
      obtain ⟨k, hk⟩ : ∃ k : Nat, reps.Allows (k + 1) := hreps.allows
      exact h.rounds k rfl rfl fun s i j hij => (matches_rep e reps).mpr ⟨k + 1, hk, hij⟩
  | group e ih =>
      have h := ih (fun x hx => hadm x (by simp [lexemes, hx]))
        fun x hx => hanchors x (by simp [lexemes, hx])
      refine ⟨h.word, ?_⟩
      -- the parentheses read nothing
      intro x hx inst hinst hreads
      rcases List.mem_cons.mp hx with rfl | hx
      · cases hinst
      · rcases List.mem_append.mp hx with hx | hx
        · exact h.reads x hx inst hinst hreads
        · rw [List.mem_singleton.mp hx] at hinst
          cases hinst
  | any =>
      exact Spelled.atom hc rfl rfl (fun _ _ _ => Iff.rfl) (by simp [Inst.eats])
        (show (97 : CChar) ≠ newline by decide) (by decide)
  | eol => exact absurd rfl (hanchors .eol (List.mem_singleton_self _)).2
  | sol => exact absurd rfl (hanchors .sol (List.mem_singleton_self _)).1
  | char l =>
      exact Spelled.atom hc rfl rfl (fun _ _ _ => Iff.rfl) (by simp [Inst.eats, charMatch])
        (rfl : l.c = l.c) (isprintable_ne_zero l.printable)
  | set negated item items =>
      rcases exists_inSet negated item items with ⟨d, hd, hd0⟩
      exact Spelled.atom hc rfl rfl (fun _ _ _ => Iff.rfl)
        (Lexeme.setInst_eats negated (item :: items)) hd hd0

end Expr

end Rxvm
