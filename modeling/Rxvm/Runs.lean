import Rxvm.Turn
import Rxvm.Compile

/-!
# Rxvm.Runs — whole runs of the compiler

The contexts a run of `stage1` passes through, the induction over them, and
what `stage1` and `stage2` make of the last one.
-/

namespace Rxvm

open Function Linked

/-! ## The start -/

/-- The stacks before the first token. -/
def initStk (base : StackId) : StackId → Stk :=
  update (fun _ => Stk.empty) base { Stk.empty with capped := true }

theorem layout_init (g : Statics) :
    Layout (stage1Init g) false (fun _ => []) (initStk (stage1Init g).base) none := by
  -- no stack holds an item
  have hshows : ∀ k (s : Stk), s.code = [] → s.jmp = none → Shows (stage1Init g).mem k [] s := by
    intro k s hcode hjmp
    have hstack : (stage1Init g).mem.stack k =
        { head := none, tail := none, danglingAlt := none, size := 0, dsize := 0 } := by
      show update (update _ _ _) _ _ k = _
      simp only [update_apply]
      split_ifs <;> rfl
    refine ⟨?_, ?_, ?_, Segment.nil, ?_, ?_, ?_, ?_⟩
    · rw [hstack]; rfl
    · rw [hstack]; rfl
    · rw [hstack]; rfl
    · simp
    · simp [hcode]
    · rw [hjmp, hstack]
      rfl
    · simp
  have hcode : ∀ k, (initStk (stage1Init g).base k).code = [] ∧
      (initStk (stage1Init g).base k).jmp = none := by
    intro k
    simp only [initStk, update_apply]
    split_ifs <;> exact ⟨rfl, rfl⟩
  -- the base is the buffer, the target the program, and no operand is known
  refine ⟨⟨?_, ?_, ?_, ?_, ?_, ?_, ?_, ?_, ?_, ?_⟩, ?_, .opened rfl (Or.inl rfl), (hcode _).2,
    (hcode _).2, ⟨by simp, by simp⟩, fun _ => ⟨(hcode _).1, (hcode _).1⟩, ?_, ?_, ?_, by simp⟩
  · intro k _
    exact hshows k _ (hcode k).1 (hcode k).2
  · simp
  · simp
  · simp
  · intro k hk
    have hk' : k ∈ [(stage1Init g).base, (stage1Init g).prog] := hk
    simp only [List.mem_cons, List.not_mem_nil, or_false] at hk'
    rcases hk' with rfl | rfl
    · exact Nat.one_lt_two
    · exact Nat.zero_lt_two
  · exact List.isChain_nil
  · simp
  · simp
  · simp
  · simp
  · show [1, 0].Nodup
    decide
  · simp [initStk]
  · intro _
    show (initStk (stage1Init g).base (stage1Init g).base).capped = true
    simp [initStk]
  · intro k hk hne
    have hne' : k ≠ (stage1Init g).base := hne
    simp [initStk, hne', Stk.empty]

/-! ## The literals at the start -/

theorem literalLoop_literal {text : List CChar} {fuel input : Nat} {simple : Option Nat}
    {cp : Context} (h : (lexInto text input cp).2.tok = .literal) :
    literalLoop text (fuel + 1) input simple cp =
      literalLoop text fuel (lexInto text input cp).1 (some (lexInto text input cp).1)
        (lexInto text input cp).2 := by
  rw [literalLoop]
  exact if_pos h

theorem literalLoop_other {text : List CChar} {fuel input : Nat} {simple : Option Nat}
    {cp : Context} (h : (lexInto text input cp).2.tok ≠ .literal) :
    literalLoop text (fuel + 1) input simple cp =
      .ok ((lexInto text input cp).1, simple, (lexInto text input cp).2) := by
  rw [literalLoop]
  exact if_neg h

/-- The first loop only reads tokens. -/
theorem literalLoop_frame {text : List CChar} : ∀ {fuel input : Nat} {simple : Option Nat}
    {cp : Context} {input' : Nat} {simple' : Option Nat} {cp' : Context},
    literalLoop text fuel input simple cp = .ok (input', simple', cp') →
    cp'.tok ≠ .literal ∧ ∃ tok lex, cp' = { cp with
      tok := tok, statics := { cp.statics with lex := lex } } := by
  intro fuel
  induction fuel with
  | zero =>
      intro input simple cp input' simple' cp' h
      cases h
  | succ fuel ih =>
      intro input simple cp input' simple' cp' h
      by_cases htok : (lexInto text input cp).2.tok = .literal
      · rw [literalLoop_literal htok] at h
        rcases ih h with ⟨htok', tok, lex, hcp⟩
        exact ⟨htok', tok, lex, hcp⟩
      · rw [literalLoop_other htok] at h
        cases h
        exact ⟨htok, _, _, rfl⟩

/-- The instructions `compile_simple_backlog` makes of the literals from
`orig` to `simple`. -/
def backlogCode (text : List CChar) (simple : Nat) : Nat → Nat → List Inst
  | 0, _ => []
  | fuel + 1, orig =>
    if orig = simple then []
    else
      let orig := if at' text orig = derefSym then orig + 1 else orig
      .opChar (at' text orig) :: backlogCode text simple fuel (orig + 1)

section

variable {text : List CChar} {simple : Nat}

/-- The loop of `compile_simple_backlog` appends to the buffer. -/
theorem backlogLoop_store (text : List CChar) (simple : Nat) : ∀ (fuel orig : Nat) (fixtemp delimit : Int) {cp : Context}
    {live : Set StackId} {ids : StackId → List ItemId} {stk : StackId → Stk},
    Store cp.mem live ids stk [] [] → cp.buf ∈ live →
    ∃ m' ids', (backlogLoop text simple fuel orig fixtemp delimit cp).2.2.2 =
        { cp with mem := m' } ∧
      Store m' live ids'
        (update stk cp.buf ((stk cp.buf).append (backlogCode text simple fuel orig))) [] [] := by
  -- by induction on the literals that are left
  intro fuel
  induction fuel with
  | zero =>
      intro orig fixtemp delimit cp live ids stk h _
      exact ⟨cp.mem, ids, rfl, by simpa [backlogCode] using h⟩
  | succ fuel ih =>
      intro orig fixtemp delimit cp live ids stk h hbuf
      unfold backlogLoop backlogCode
      by_cases horig : orig = simple
      · rw [if_pos horig, if_pos horig]
        exact ⟨cp.mem, ids, rfl, by simpa using h⟩
      · rw [if_neg horig, if_neg horig]
        -- the character behind a backslash is the one that is added
        set orig' := if at' text orig = derefSym then orig + 1 else orig with horig'
        have hadd := h.addHead hbuf (.opChar (at' text orig'))
        set cp₁ : Context :=
          { cp with mem := (cp.mem.stackAddInstHead cp.buf (.opChar (at' text orig'))).1 } with hcp₁
        have hadd₁ : Store cp₁.mem live (update ids cp.buf (ids cp.buf ++ [cp.mem.itemCount]))
          (update stk cp.buf ((stk cp.buf).append [.opChar (at' text orig')])) [] [] := hadd
        have hbuf₁ : cp₁.buf ∈ live := hbuf
        rcases ih (orig' + 1)
          (if fixtemp = 0 ∧ at' text orig' = newline then
            i32 (orig' - 1 - (if at' text orig = derefSym then delimit + 1 else delimit))
            else fixtemp)
          (if at' text orig = derefSym then delimit + 1 else delimit) hadd₁ hbuf₁ with
          ⟨m', ids', hrun, hst⟩
        refine ⟨m', ids', ?_, ?_⟩
        · simpa [hcp₁, horig'] using hrun
        · simpa [hcp₁] using hst

theorem backlogLoop_tok (text : List CChar) (simple : Nat) :
    ∀ (fuel orig : Nat) (fixtemp delimit : Int) (cp : Context),
      (backlogLoop text simple fuel orig fixtemp delimit cp).2.2.2.tok = cp.tok := by
  intro fuel
  induction fuel with
  | zero => exact fun _ _ _ _ => rfl
  | succ fuel ih =>
      intro orig fixtemp delimit cp
      unfold backlogLoop
      split
      · rfl
      · exact ih _ _ _ _

/-- The stacks behind the literals at the start. -/
def backlogStk (base : StackId) (code : List Inst) : StackId → Stk :=
  update (initStk base) base { code := code, jmp := none, capped := true }

theorem compileSimpleBacklog_eq (text : List CChar) (simple : Nat) (cp : Context) : ∃ l,
    compileSimpleBacklog text simple cp =
      { (backlogLoop text simple (simple + 1) 0 0 0 cp).2.2.2 with
        operand := ((backlogLoop text simple (simple + 1) 0 0 0 cp).2.2.2.mem.stack
          (backlogLoop text simple (simple + 1) 0 0 0 cp).2.2.2.buf).head
        statics := { (backlogLoop text simple (simple + 1) 0 0 0 cp).2.2.2.statics with
          lfix := l } } :=
  ⟨_, rfl⟩

/-- The literals at the start are in the base buffer, and the last one is the
operand. -/
theorem layout_backlog {cp : Context} {ids : StackId → List ItemId} {index : Option Nat}
    (h : Layout cp false ids (initStk cp.base) index) (hbuf : cp.buf = cp.base) {code : List Inst}
    (hcode : backlogCode text simple (simple + 1) 0 = code) :
    ∃ ids' m' operand l, compileSimpleBacklog text simple cp =
        { cp with mem := m', operand := operand, statics := { cp.statics with lfix := l } } ∧
      Layout (compileSimpleBacklog text simple cp) false ids' (backlogStk cp.base code)
        (if code = [] then none else some (code.length - 1)) := by
  rcases backlogLoop_store text simple (simple + 1) 0 0 0 h.store
    h.buf_live with ⟨m', ids', hrun, hst⟩
  rcases compileSimpleBacklog_eq text simple cp with ⟨l, heq⟩
  rw [hrun] at heq
  have hstk : update (initStk cp.base) cp.buf ((initStk cp.base cp.buf).append
      (backlogCode text simple (simple + 1) 0)) = backlogStk cp.base code := by
    rw [hbuf, hcode]
    simp [backlogStk, initStk, Stk.append, Stk.empty]
  rw [hstk] at hst
  have hbase : backlogStk cp.base code cp.base = { code := code, jmp := none, capped := true } := by
    simp [backlogStk]
  have hother : ∀ k, k ≠ cp.base → backlogStk cp.base code k = Stk.empty := by
    intro k hk
    simp [backlogStk, initStk, hk]
  have hshows := hst.shows _ (Layout.base_live cp)
  have hlen : (ids' cp.base).length = code.length := by
    rw [hshows.code_length, hbase]
  have hhead : (m'.stack cp.base).head = (ids' cp.base).getLast? := hshows.head
  refine ⟨ids', m', _, l, heq, ?_⟩
  rw [heq]
  refine ⟨hst, h.distinct, ?_, ?_, ?_, ?_, ?_, ?_, ?_, ?_, by simp⟩
  · -- no group is open, so the place of the target does not change
    cases h.place with
    | opened ht hb => exact .opened ht hb
    | closed g below hg ht hb hj =>
        refine .closed g below hg ht hb ?_
        have hne : g ≠ cp.base := by
          rintro rfl
          exact h.base_notMem (by simp [hg])
        rw [hother g hne]
        rfl
  · show (backlogStk cp.base code cp.base).jmp = none
    rw [hbase]
  · show (backlogStk cp.base code cp.buf).jmp = none
    rw [hbuf, hbase]
  · -- the operand is the item of the last literal, if there is one
    show Located (m'.stack cp.buf).head (ids' cp.buf) _
    rw [hbuf, hhead]
    by_cases e : code = []
    · rw [e, List.length_nil] at hlen
      rw [if_pos e, List.length_eq_zero_iff.mp hlen]
      exact ⟨by simp, by simp⟩
    · have hpos : 0 < code.length := List.length_pos_iff.mpr e
      rw [if_neg e]
      refine ⟨?_, by simp⟩
      intro i hi
      obtain rfl := Option.some.inj hi
      rw [List.getLast?_eq_getElem?, hlen]
      obtain ⟨n, hn⟩ : ∃ n, (ids' cp.base)[code.length - 1]? = some n :=
        ⟨_, List.getElem?_eq_getElem (by omega)⟩
      exact ⟨n, hn, hn⟩
  · -- no operand means that the literals made no code
    intro hnone
    have hnone' : (m'.stack cp.buf).head = none := hnone
    rw [hbuf, hhead, List.getLast?_eq_none_iff] at hnone'
    rw [hnone', List.length_nil] at hlen
    have hnil : code = [] := List.length_eq_zero_iff.mp hlen.symm
    show (backlogStk cp.base code cp.buf).code = [] ∧ (backlogStk cp.base code cp.base).code = []
    rw [hbuf, hbase]
    exact ⟨hnil, hnil⟩
  · show (backlogStk cp.base code cp.base).capped = true
    rw [hbase]
  · intro _
    show (backlogStk cp.base code cp.buf).capped = true
    rw [hbuf, hbase]
  · -- the stacks but the base are still empty
    intro k _ hne
    have hne' : k ≠ cp.buf := hne
    show (backlogStk cp.base code k).capped = false
    rw [hother k (by rw [← hbuf]; exact hne')]
    rfl

end

/-! ## The contexts of a run -/

/-- The context the token loop starts with. -/
def loopStart (text : List CChar) (simple : Option Nat) (cp : Context) : Context :=
  match simple with
  | some simple => compileSimpleBacklog text simple cp
  | none => cp

/-- The contexts in which `stage1` is about to look at a token: the first one
behind the literals at the start, and those behind a turn of the loop. -/
inductive Visited (g : Statics) (text : List CChar) : Nat → Context → Prop
  | start {input : Nat} {simple : Option Nat} {cp : Context}
      (h : literalLoop text (text.length + 1) 0 none (stage1Init g) = .ok (input, simple, cp))
      (heos : cp.tok ≠ .eos) :
      Visited g text input (loopStart text simple cp)
  | turn {input : Nat} {cp cp' : Context} (h : Visited g text input cp) (heos : cp.tok ≠ .eos)
      (herr : ∀ e, cp.tok ≠ .error e) (hstep : stage1Step text cp = .ok (none, cp')) :
      Visited g text (lexInto text input { cp' with lasttok := cp'.tok }).1
        (lexInto text input { cp' with lasttok := cp'.tok }).2

/-- The context behind the one given, when the turn succeeds. -/
def nextCtx (text : List CChar) (r : Nat × Context) : Option (Nat × Context) :=
  match r.2.tok with
  | .eos | .error _ => none
  | _ =>
    match stage1Step text r.2 with
    | .ok (none, cp') => some (lexInto text r.1 { cp' with lasttok := cp'.tok })
    | _ => none

/-- The contexts of a run in order, each with the position of the lexer. -/
def ctxAt (g : Statics) (text : List CChar) : Nat → Option (Nat × Context)
  | 0 =>
    match literalLoop text (text.length + 1) 0 none (stage1Init g) with
    | .ok (input, simple, cp) =>
      if cp.tok = .eos then none else some (input, loopStart text simple cp)
    | .error _ => none
  | n + 1 => (ctxAt g text n).bind (nextCtx text)

/-- How the loop of `stage1` ends at a context. -/
inductive Ends (text : List CChar) (cp : Context) : Run Stage1 → Prop
  | lexError (e : Err) (htok : cp.tok = .error e) : Ends text cp (.ok (.fail e cp))
  | stepError (e : Err) (cp' : Context) (herr : ∀ e, cp.tok ≠ .error e) (heos : cp.tok ≠ .eos)
      (hstep : stage1Step text cp = .ok (some e, cp')) : Ends text cp (.ok (.fail e cp'))
  | stops (s : Stop) (herr : ∀ e, cp.tok ≠ .error e) (heos : cp.tok ≠ .eos)
      (hstep : stage1Step text cp = .error s) : Ends text cp (.error s)
  | eos (htok : cp.tok = .eos) : Ends text cp (stage1End cp)

section

variable {g : Statics} {text : List CChar}

theorem nextCtx_eos {input : Nat} {cp : Context} (heos : cp.tok = .eos) :
    nextCtx text (input, cp) = none := by
  unfold nextCtx
  rw [heos]

theorem nextCtx_eq_some {input : Nat} {cp : Context} {r : Nat × Context} :
    nextCtx text (input, cp) = some r ↔ cp.tok ≠ .eos ∧ (∀ e, cp.tok ≠ .error e) ∧
      ∃ cp', stage1Step text cp = .ok (none, cp') ∧
        r = lexInto text input { cp' with lasttok := cp'.tok } := by
  constructor
  · intro h
    unfold nextCtx at h
    split at h
    · cases h
    · cases h
    · next heos herr =>
        refine ⟨heos, herr, ?_⟩
        split at h
        · next cp' hstep => exact ⟨cp', hstep, (Option.some.inj h).symm⟩
        · cases h
  · rintro ⟨heos, herr, cp', hstep, rfl⟩
    unfold nextCtx
    split
    · next htok => exact absurd htok heos
    · next e htok => exact absurd htok (herr e)
    · simp only [hstep]

/-- The visited contexts are the contexts of the run. -/
theorem visited_iff {input : Nat} {cp : Context} :
    Visited g text input cp ↔ ∃ n, ctxAt g text n = some (input, cp) := by
  constructor
  -- each turn is one further index
  · intro h
    induction h with
    | start h heos => exact ⟨0, by simp only [ctxAt, h]; rw [if_neg heos]⟩
    | @turn input cp cp' _ heos herr hstep ih =>
        rcases ih with ⟨n, hn⟩
        refine ⟨n + 1, ?_⟩
        rw [ctxAt, hn, Option.bind_some]
        exact nextCtx_eq_some.mpr ⟨heos, herr, cp', hstep, rfl⟩
  -- and each index a turn
  · rintro ⟨n, hn⟩
    induction n generalizing input cp with
    | zero =>
        unfold ctxAt at hn
        split at hn
        · next h =>
            split at hn
            · cases hn
            · next heos =>
                obtain ⟨rfl, rfl⟩ := Prod.mk.inj (Option.some.inj hn)
                exact .start h heos
        · cases hn
    | succ n ih =>
        rw [ctxAt, Option.bind_eq_some_iff] at hn
        rcases hn with ⟨⟨input', cp'⟩, hprev, hnext⟩
        rcases nextCtx_eq_some.mp hnext with ⟨heos, herr, cp₁, hstep, hr⟩
        have hturn := (ih hprev).turn heos herr hstep
        rw [← hr] at hturn
        exact hturn

theorem ctxAt_none {n : Nat} (h : ctxAt g text n = none) (k : Nat) :
    ctxAt g text (n + k) = none := by
  induction k with
  | zero => exact h
  | succ k ih => rw [← Nat.add_assoc, ctxAt, ih, Option.bind_none]

theorem lt_of_ctxAt {m n : Nat} {r : Nat × Context} (hn : ctxAt g text n = some r)
    (hm : ctxAt g text m = none) : n < m := by
  by_contra hge
  have hnone := ctxAt_none hm (n - m)
  rw [Nat.add_sub_cancel' (by omega), hn] at hnone
  cases hnone

/-- A run has one last context at most. -/
theorem Visited.last_unique {input input' : Nat} {cp cp' : Context} (h : Visited g text input cp)
    (hlast : nextCtx text (input, cp) = none) (h' : Visited g text input' cp')
    (hlast' : nextCtx text (input', cp') = none) : cp = cp' := by
  rcases visited_iff.mp h with ⟨n, hn⟩
  rcases visited_iff.mp h' with ⟨n', hn'⟩
  have hnone : ctxAt g text (n + 1) = none := by rw [ctxAt, hn, Option.bind_some, hlast]
  have hnone' : ctxAt g text (n' + 1) = none := by rw [ctxAt, hn', Option.bind_some, hlast']
  have hle := lt_of_ctxAt hn hnone'
  have hge := lt_of_ctxAt hn' hnone
  obtain rfl : n = n' := by omega
  have heq := hn.symm.trans hn'
  simp only [Option.some.injEq, Prod.mk.injEq] at heq
  exact heq.2

theorem stage1Loop_error {fuel input : Nat} {cp : Context} {e : Err} (h : cp.tok = .error e) :
    stage1Loop text (fuel + 1) input cp = .ok (.fail e cp) := by
  rw [stage1Loop, h]
  rfl

theorem stage1Loop_step {fuel input : Nat} {cp : Context} (h : ∀ e, cp.tok ≠ .error e) :
    stage1Loop text (fuel + 1) input cp = (do
      match ← stage1Step text cp with
      | (some e, cp) => return .fail e cp
      | (none, cp) =>
        let (input, cp) := lexInto text input { cp with lasttok := cp.tok }
        if cp.tok = .eos then stage1End cp
        else stage1Loop text fuel input cp) := by
  rw [stage1Loop]
  split
  · next e he => exact absurd he (h e)
  · rfl

/-- The loop passes through visited contexts until it ends at one of them, or
runs out of fuel. -/
theorem stage1Loop_ends : ∀ {fuel input : Nat} {cp : Context}, Visited g text input cp →
    cp.tok ≠ .eos →
    stage1Loop text fuel input cp = .error .diverges ∨
      ∃ input' cp', Visited g text input' cp' ∧ Ends text cp' (stage1Loop text fuel input cp) := by
  intro fuel
  induction fuel with
  | zero =>
      intro input cp _ _
      exact Or.inl rfl
  | succ fuel ih =>
      intro input cp h heos
      -- an error of the lexer ends the loop before the turn
      by_cases herr : ∃ e, cp.tok = .error e
      · rcases herr with ⟨e, he⟩
        rw [stage1Loop_error he]
        exact Or.inr ⟨input, cp, h, .lexError e he⟩
      have herr' : ∀ e, cp.tok ≠ .error e := fun e he => herr ⟨e, he⟩
      rw [stage1Loop_step herr']
      -- the turn stops, fails, or leads to the next context
      rcases hstep : stage1Step text cp with s | ⟨err, cp'⟩
      · exact Or.inr ⟨input, cp, h, .stops s herr' heos hstep⟩
      · cases err with
        | some e => exact Or.inr ⟨input, cp, h, .stepError e cp' herr' heos hstep⟩
        | none =>
            have hvisit := h.turn heos herr' hstep
            set next := lexInto text input { cp' with lasttok := cp'.tok } with hnext
            show (if next.2.tok = .eos then stage1End next.2
              else stage1Loop text fuel next.1 next.2) = _ ∨ ∃ input' cp', _ ∧
                Ends text cp' (if next.2.tok = .eos then stage1End next.2
                  else stage1Loop text fuel next.1 next.2)
            -- the loop looks for the end of the input behind each turn
            by_cases heos' : next.2.tok = .eos
            · rw [if_pos heos']
              exact Or.inr ⟨next.1, next.2, hvisit, .eos heos'⟩
            · rw [if_neg heos']
              exact ih hvisit heos'

theorem literalLoop_error : ∀ {fuel input : Nat} {simple : Option Nat} {cp : Context} {s : Stop},
    literalLoop text fuel input simple cp = .error s → s = .diverges := by
  intro fuel
  induction fuel with
  | zero =>
      intro input simple cp s h
      exact (Except.error.inj h).symm
  | succ fuel ih =>
      intro input simple cp s h
      by_cases htok : (lexInto text input cp).2.tok = .literal
      · rw [literalLoop_literal htok] at h
        exact ih h
      · rw [literalLoop_other htok] at h
        cases h

theorem stage1_eq (g : Statics) (text : List CChar) {input : Nat} {simple : Option Nat}
    {cp : Context}
    (h : literalLoop text (text.length + 1) 0 none (stage1Init g) = .ok (input, simple, cp)) :
    stage1 g text = if cp.tok = .eos then .ok (.simple (checkSimpleForLfix text) cp.statics)
      else stage1Loop text (text.length + 1) input (loopStart text simple cp) := by
  unfold stage1
  rw [h]
  cases simple <;> rfl

theorem loopStart_tok (text : List CChar) (simple : Option Nat) (cp : Context) :
    (loopStart text simple cp).tok = cp.tok := by
  cases simple with
  | none => rfl
  | some simple =>
      rcases compileSimpleBacklog_eq text simple cp with ⟨l, heq⟩
      show (compileSimpleBacklog text simple cp).tok = cp.tok
      rw [heq]
      exact backlogLoop_tok text simple _ _ _ _ cp

/-- `stage1` reads literals only, runs out of fuel, or ends at a context of
its loop. -/
theorem stage1_ends (g : Statics) (text : List CChar) :
    (∃ input simple cp, literalLoop text (text.length + 1) 0 none (stage1Init g) =
        .ok (input, simple, cp) ∧ cp.tok = .eos ∧
        stage1 g text = .ok (.simple (checkSimpleForLfix text) cp.statics)) ∨
      stage1 g text = .error .diverges ∨
      ∃ input cp, Visited g text input cp ∧ Ends text cp (stage1 g text) := by
  rcases h : literalLoop text (text.length + 1) 0 none (stage1Init g) with
    s | ⟨input, simple, cp⟩
  · obtain rfl := literalLoop_error h
    right; left
    rw [stage1, h]
    rfl
  · have heq := stage1_eq g text h
    by_cases heos : cp.tok = .eos
    · rw [if_pos heos] at heq
      exact Or.inl ⟨input, simple, cp, rfl, heos, heq⟩
    · rw [if_neg heos] at heq
      rw [heq]
      right
      refine stage1Loop_ends (.start h heos) ?_
      rw [loopStart_tok]
      exact heos

/-! ## Invariants of runs -/

/-- The stacks the token loop starts with. -/
def startStk (text : List CChar) (simple : Option Nat) (base : StackId) : StackId → Stk :=
  match simple with
  | some simple => backlogStk base (backlogCode text simple (simple + 1) 0)
  | none => initStk base

/-- Where the operand is when the token loop starts. -/
def startIndex (text : List CChar) (simple : Option Nat) : Option Nat :=
  match simple with
  | some simple =>
    if backlogCode text simple (simple + 1) 0 = [] then none
    else some ((backlogCode text simple (simple + 1) 0).length - 1)
  | none => none

theorem loopStart_layout {input : Nat} {simple : Option Nat} {cp : Context}
    (h : literalLoop text (text.length + 1) 0 none (stage1Init g) = .ok (input, simple, cp)) :
    ∃ ids, Layout (loopStart text simple cp) false ids (startStk text simple cp.base)
        (startIndex text simple) ∧
      ∃ m' operand l, loopStart text simple cp =
        { cp with mem := m', operand := operand, statics := { cp.statics with lfix := l } } := by
  rcases literalLoop_frame h with ⟨_, tok, lex, hcp⟩
  have hlay : Layout cp false (fun _ => []) (initStk cp.base) none := by
    rw [hcp]
    exact (layout_init g).control _ rfl
  cases simple with
  | none => exact ⟨_, hlay, cp.mem, cp.operand, cp.statics.lfix, rfl⟩
  | some simple =>
      have hbuf : cp.buf = cp.base := by
        rw [hcp]
        rfl
      rcases layout_backlog hlay hbuf rfl with ⟨ids', m', operand, l, heq, hlay'⟩
      exact ⟨ids', hlay', m', operand, l, heq⟩

/-- A context of a run, with what its stacks hold. -/
structure Holds (cp : Context) (stk : StackId → Stk) (index : Option Nat) : Prop where
  layout : ∃ ids, Layout cp cp.closing ids stk index
  charc : cp.inCharc = true → cp.closing = false

theorem lexInto_frame (text : List CChar) (input : Nat) (cp : Context) :
    (lexInto text input cp).2 = { cp with
      tok := (lex text input cp.statics.lex).1
      statics := { cp.statics with lex := (lex text input cp.statics.lex).2.2 } } := rfl

theorem Holds.start {input : Nat} {simple : Option Nat} {cp : Context}
    (h : literalLoop text (text.length + 1) 0 none (stage1Init g) = .ok (input, simple, cp)) :
    Holds (loopStart text simple cp) (startStk text simple cp.base) (startIndex text simple) := by
  rcases literalLoop_frame h with ⟨_, tok, lex, hcp⟩
  rcases loopStart_layout h with ⟨ids, hlay, m', operand, l, heq⟩
  have hclosing : (loopStart text simple cp).closing = false := by
    rw [heq, hcp]
    rfl
  refine ⟨⟨ids, ?_⟩, fun _ => hclosing⟩
  rw [hclosing]
  exact hlay

/-- A turn that succeeds, as a case of `Turn`. -/
theorem Holds.turn {cp cp' : Context} {stk : StackId → Stk} {index : Option Nat}
    (h : Holds cp stk index) (hstep : stage1Step text cp = .ok (none, cp')) (input : Nat) :
    ∃ stk' index', Turn text cp stk index cp' stk' index' ∧ cp'.tok = cp.tok ∧
      Holds (lexInto text input { cp' with lasttok := cp'.tok }).2 stk' index' := by
  rcases h.layout with ⟨ids, hlay⟩
  have hresult := stage1Step_result text hlay h.charc
  rw [hstep] at hresult
  generalize hrun : (Except.ok (none, cp') : Coded) = run at hresult
  -- of the ways a turn can end only one returns no error
  cases hresult with
  | lost => cases hrun
  | diverges => cases hrun
  | abandoned _ _ _ _ _ _ hab =>
      rcases hab with ⟨m', hab, _⟩
      rw [hab] at hrun
      cases hrun
  | failed => cases hrun
  | turned cp'' ids' stk' index' hturn htok hlay' hcharc =>
      obtain ⟨-, rfl⟩ : (none : Option Err) = none ∧ cp' = cp'' := by
        simpa using hrun
      have hclosing : (lexInto text input { cp' with lasttok := cp'.tok }).2.closing =
          decide (cp.tok = .rparen) := by
        rw [lexInto_frame]
        simp [Context.closing, htok]
      refine ⟨stk', index', hturn, htok, ⟨ids', ?_⟩, ?_⟩
      · rw [hclosing, lexInto_frame]
        exact hlay'.control _ rfl
      · intro hin
        rw [hclosing]
        have hin' : cp'.inCharc = true := by
          rw [lexInto_frame] at hin
          exact hin
        simp [hcharc hin']

/-- The induction over the contexts of a run: what the start establishes and
each turn preserves holds of all of them. -/
theorem ctxAt_invariant {P : Nat → Nat → Context → (StackId → Stk) → Option Nat → Prop}
    (hstart : ∀ input simple cp,
      literalLoop text (text.length + 1) 0 none (stage1Init g) = .ok (input, simple, cp) →
      cp.tok ≠ .eos →
      P 0 input (loopStart text simple cp) (startStk text simple cp.base) (startIndex text simple))
    (hturn : ∀ n input cp stk index cp' stk' index', ctxAt g text n = some (input, cp) →
      Holds cp stk index → P n input cp stk index → cp.tok ≠ .eos → (∀ e, cp.tok ≠ .error e) →
      Turn text cp stk index cp' stk' index' → cp'.tok = cp.tok →
      Holds (lexInto text input { cp' with lasttok := cp'.tok }).2 stk' index' →
      nextCtx text (input, cp) = some (lexInto text input { cp' with lasttok := cp'.tok }) →
      P (n + 1) (lexInto text input { cp' with lasttok := cp'.tok }).1
        (lexInto text input { cp' with lasttok := cp'.tok }).2 stk' index') :
    ∀ {n input : Nat} {cp : Context}, ctxAt g text n = some (input, cp) →
      ∃ stk index, Holds cp stk index ∧ P n input cp stk index := by
  intro n
  -- by induction on the turns, with the stacks that go with a context
  induction n with
  | zero =>
      intro input cp h
      unfold ctxAt at h
      split at h
      · next hloop =>
          split at h
          · cases h
          · next heos =>
              obtain ⟨rfl, rfl⟩ := Prod.mk.inj (Option.some.inj h)
              exact ⟨_, _, Holds.start hloop, hstart _ _ _ hloop heos⟩
      · cases h
  | succ n ih =>
      intro input cp h
      rw [ctxAt, Option.bind_eq_some_iff] at h
      rcases h with ⟨⟨input', cp'⟩, hprev, hnext⟩
      rcases nextCtx_eq_some.mp hnext with ⟨heos, herr, cp₁, hstep, hr⟩
      obtain ⟨rfl, rfl⟩ := Prod.mk.inj hr
      rcases ih hprev with ⟨stk, index, hholds, hP⟩
      rcases hholds.turn hstep _ with ⟨stk', index', hcase, htok, hholds'⟩
      exact ⟨stk', index', hholds',
        hturn _ _ _ _ _ _ _ _ hprev hholds hP heos herr hcase htok hholds' hnext⟩

/-- The same, for what does not depend on the number of turns. -/
theorem Visited.invariant {P : Nat → Context → (StackId → Stk) → Option Nat → Prop}
    (hstart : ∀ input simple cp,
      literalLoop text (text.length + 1) 0 none (stage1Init g) = .ok (input, simple, cp) →
      cp.tok ≠ .eos →
      P input (loopStart text simple cp) (startStk text simple cp.base) (startIndex text simple))
    (hturn : ∀ input cp stk index cp' stk' index', Visited g text input cp → Holds cp stk index →
      P input cp stk index → cp.tok ≠ .eos → (∀ e, cp.tok ≠ .error e) →
      Turn text cp stk index cp' stk' index' → cp'.tok = cp.tok →
      Holds (lexInto text input { cp' with lasttok := cp'.tok }).2 stk' index' →
      nextCtx text (input, cp) = some (lexInto text input { cp' with lasttok := cp'.tok }) →
      P (lexInto text input { cp' with lasttok := cp'.tok }).1
        (lexInto text input { cp' with lasttok := cp'.tok }).2 stk' index')
    {input : Nat} {cp : Context} (h : Visited g text input cp) :
    ∃ stk index, Holds cp stk index ∧ P input cp stk index := by
  rcases visited_iff.mp h with ⟨n, hn⟩
  refine ctxAt_invariant (P := fun _ => P) hstart ?_ hn
  intro n input cp stk index cp' stk' index' hat
  exact hturn input cp stk index cp' stk' index' (visited_iff.mpr ⟨n, hat⟩)

/-! ## The end of the input -/

/-- Whether a closed group is flushed at the end of the input. -/
def endFlush (cp : Context) (stk : StackId → Stk) : Prop :=
  cp.closing = true ∧ (stk cp.buf).code ≠ []

instance (cp : Context) (stk : StackId → Stk) : Decidable (endFlush cp stk) :=
  inferInstanceAs (Decidable (_ ∧ _))

/-- The groups left at the end of the input. -/
def endGroups (cp : Context) (stk : StackId → Stk) : List StackId :=
  if endFlush cp stk then cp.groups.tail else cp.groups

/-- The program at the end of the input, without its `match`. -/
def endStk (cp : Context) (stk : StackId → Stk) : Stk :=
  ((if endFlush cp stk then (stk cp.prog).append (stk cp.buf).code else stk cp.prog).append
    (stk cp.base).code).attach

/-- The stacks of a context own their items. -/
def Owned (cp : Context) : Prop :=
  (cp.base :: cp.prog :: cp.groups).Nodup ∧
    ∃ ids stk, Store cp.mem cp.live ids stk [] []

/-- The results of `stage1` at the end of the input. -/
inductive EndResult (cp : Context) (stk : StackId → Stk) : Run Stage1 → Prop
  | eclass (cp' : Context) (hcharc : cp.inCharc = true) (h : Owned cp') :
      EndResult cp stk (.ok (.fail .eclass cp'))
  | eparen (cp' : Context) (hcharc : cp.inCharc = false) (hgroups : endGroups cp stk ≠ [])
      (h : Owned cp') : EndResult cp stk (.ok (.fail .eparen cp'))
  | ir (m' : Mem) (groups : List StackId) (ids' : List ItemId) (hcharc : cp.inCharc = false)
      (hgroups : endGroups cp stk = [])
      (h : Shows m' cp.prog ids' ((endStk cp stk).append [.opMatch])) :
      EndResult cp stk (.ok (.ir
        (if cp.statics.altSeen then 0 else cp.statics.lfix.lfixStop.lfix0)
        (if cp.statics.altSeen then 0 else cp.statics.lfix.lfixStop.lfixn)
        { cp with
          mem := m'
          groups := groups
          statics := { cp.statics with lfix := cp.statics.lfix.lfixStop } }))

/-- What `stage1` does at the end of the input behind the flush. -/
def endTail (cp : Context) : Run Stage1 := do
  if cp.inCharc then
    return .fail .eclass cp
  else if cp.groups ≠ [] then
    return .fail .eparen cp
  else
    let cp := cp.lfixStop
    let m ← cp.mem.stackCat cp.prog cp.base
    let cp := codeMatch (attachDanglingAlt { cp with mem := m })
    if cp.statics.altSeen then
      return .ir 0 0 cp
    else
      return .ir cp.statics.lfix.lfix0 cp.statics.lfix.lfixn cp

theorem stage1End_flush {cp : Context} {m : Mem}
    (h : cp.lasttok = .rparen ∧ cp.bufStack.size > 0)
    (hcat : cp.mem.stackCat cp.prog cp.buf = .ok m) :
    stage1End cp = endTail { cp with mem := m, groups := cp.groups.tail } := by
  unfold stage1End
  rw [if_pos h, hcat]
  rfl

theorem stage1End_noFlush {cp : Context} (h : ¬ (cp.lasttok = .rparen ∧ cp.bufStack.size > 0)) :
    stage1End cp = endTail cp := by
  unfold stage1End
  rw [if_neg h]
  rfl

theorem endTail_ir {cp : Context} {m m' : Mem} (hin : cp.inCharc = false) (hg : cp.groups = [])
    (hcat : cp.mem.stackCat cp.prog cp.base = .ok m)
    (hattach : attachDanglingAlt { cp.lfixStop with mem := m } = { cp.lfixStop with mem := m' }) :
    endTail cp = .ok (.ir (if cp.statics.altSeen then 0 else cp.statics.lfix.lfixStop.lfix0)
      (if cp.statics.altSeen then 0 else cp.statics.lfix.lfixStop.lfixn)
      { cp.lfixStop with mem := (m'.stackAddInstHead cp.prog .opMatch).1 }) := by
  unfold endTail
  rw [if_neg (by simp [hin]), if_neg (by simp [hg])]
  have hcat' : cp.lfixStop.mem.stackCat cp.lfixStop.prog cp.lfixStop.base = .ok m := hcat
  simp only [bind, Except.bind, hcat', hattach]
  cases halt : cp.statics.altSeen with
  | true =>
      show (if cp.statics.altSeen then _ else _) = _
      rw [if_pos halt]
      rfl
  | false =>
      show (if cp.statics.altSeen then _ else _) = _
      rw [if_neg (by simp [halt])]
      rfl

theorem endTail_eclass {cp : Context} (hin : cp.inCharc = true) :
    endTail cp = .ok (.fail .eclass cp) := by
  unfold endTail
  rw [if_pos hin]
  rfl

theorem endTail_eparen {cp : Context} (hin : cp.inCharc = false) (hg : cp.groups ≠ []) :
    endTail cp = .ok (.fail .eparen cp) := by
  unfold endTail
  rw [if_neg (by simp [hin]), if_pos hg]
  rfl

/-- The base buffer goes to the program, which is complete then. -/
theorem endTail_result (cp : Context) {live : Set StackId} {ids : StackId → List ItemId}
    {stk : StackId → Stk} (hst : Store cp.mem live ids stk [] []) (hprog : cp.prog ∈ live)
    (hbase : cp.base ∈ live) (hne : cp.prog ≠ cp.base) (hcap : (stk cp.prog).capped = false)
    (htarget : cp.target = cp.prog) (hin : cp.inCharc = false) (hg : cp.groups = []) :
    ∃ m' ids', Shows m' cp.prog ids'
        (((stk cp.prog).append (stk cp.base).code).attach.append [.opMatch]) ∧
      endTail cp = .ok (.ir (if cp.statics.altSeen then 0 else cp.statics.lfix.lfixStop.lfix0)
        (if cp.statics.altSeen then 0 else cp.statics.lfix.lfixStop.lfixn)
        { cp.lfixStop with mem := m' }) := by
  -- the buffer is put behind the program, the last alternative is attached, `match` is added
  rcases hst.cat hprog hbase hne hcap with ⟨m₁, hcat, hst₁, _⟩
  have hlive : ({ cp.lfixStop with mem := m₁ } : Context).target ∈ live \ {cp.base} := by
    show cp.target ∈ _
    rw [htarget]
    exact ⟨hprog, hne⟩
  have hst₁' : Store ({ cp.lfixStop with mem := m₁ } : Context).mem (live \ {cp.base})
    (update ids cp.prog (ids cp.prog ++ ids cp.base))
    (update stk cp.prog ((stk cp.prog).append (stk cp.base).code)) [] [] := hst₁
  rcases hst₁'.attach hlive with ⟨m₂, hattach, hst₂, _⟩
  have htarget' : ({ cp.lfixStop with mem := m₁ } : Context).target = cp.prog := htarget
  rw [htarget', update_self, update_idem] at hst₂
  have hadd := hst₂.addHead (show cp.prog ∈ live \ {cp.base} from ⟨hprog, hne⟩) .opMatch
  have hshows := hadd.shows cp.prog ⟨hprog, hne⟩
  simp only [update_self] at hshows
  exact ⟨_, _, hshows, endTail_ir hin hg hcat hattach⟩

theorem Layout.prog_ne_base {cp : Context} {closing : Bool} {ids : StackId → List ItemId}
    {stk : StackId → Stk} {index : Option Nat} (h : Layout cp closing ids stk index) :
    cp.prog ≠ cp.base := fun e => h.base_notMem (e ▸ List.mem_cons_self)

theorem Layout.owned {cp : Context} {closing : Bool} {ids : StackId → List ItemId}
    {stk : StackId → Stk} {index : Option Nat} (h : Layout cp closing ids stk index) : Owned cp :=
  ⟨h.distinct, ids, stk, h.store⟩

/-- The test of the code for a closed group at the end. -/
theorem Layout.endFlush_iff {cp : Context} {closing : Bool} {ids : StackId → List ItemId}
    {stk : StackId → Stk} {index : Option Nat} (h : Layout cp closing ids stk index) :
    (cp.lasttok = .rparen ∧ cp.bufStack.size > 0) ↔ endFlush cp stk := by
  have hsize : cp.bufStack.size = (stk cp.buf).code.length :=
    (h.store.shows _ h.buf_live).size_eq
  rw [hsize, gt_iff_lt, List.length_pos_iff]
  simp [endFlush, Context.closing]

/-- The groups that are open at the end of the input, behind the flush. -/
def Context.groupsLeft (cp : Context) : List StackId :=
  if cp.lasttok = .rparen ∧ cp.bufStack.size > 0 then cp.groups.tail else cp.groups

theorem Holds.groupsLeft_eq {cp : Context} {stk : StackId → Stk} {index : Option Nat}
    (h : Holds cp stk index) : cp.groupsLeft = endGroups cp stk := by
  rcases h.layout with ⟨ids, hlay⟩
  unfold Context.groupsLeft endGroups
  exact if_congr hlay.endFlush_iff rfl rfl

/-- The end of the input, for a context of a run. -/
theorem Holds.finish {cp : Context} {stk : StackId → Stk} {index : Option Nat}
    (h : Holds cp stk index) : EndResult cp stk (stage1End cp) := by
  rcases h.layout with ⟨ids, hlay⟩
  have hflush := hlay.endFlush_iff
  -- a closed group is still waiting: it goes to the program first
  by_cases hend : endFlush cp stk
  · rcases (hlay.justClosed hend.1).1 with ⟨below, hg, ht⟩
    have hbufprog : cp.prog ≠ cp.buf := by
      intro e
      have hd := hlay.groups_nodup
      rw [hg, e] at hd
      simp at hd
    have hbufbase : cp.base ≠ cp.buf := by
      intro e
      exact hlay.base_notMem (by rw [hg, e]; simp)
    have hprogcap := hlay.uncapped cp.prog List.mem_cons_self hbufprog
    rcases hlay.store.cat (Layout.prog_live cp) hlay.buf_live hbufprog hprogcap with
      ⟨m, hcat, hst, _⟩
    rw [stage1End_flush (hflush.mpr hend) hcat]
    have hgroups : endGroups cp stk = cp.groups.tail := by rw [endGroups, if_pos hend]
    -- on an error what the groups hold is given back as it stands
    have howned : Owned { cp with mem := m, groups := cp.groups.tail } := by
      refine ⟨?_, _, _, hst.mono ?_⟩
      · exact hlay.distinct.sublist (List.Sublist.cons_cons _ (List.Sublist.cons_cons _
          (List.tail_sublist _)))
      · intro k hk
        have hk' : k ∈ cp.base :: cp.prog :: cp.groups.tail := hk
        simp only [List.mem_cons] at hk'
        rcases hk' with rfl | rfl | hk'
        · exact ⟨Layout.base_live cp, hbufbase⟩
        · exact ⟨Layout.prog_live cp, hbufprog⟩
        · refine ⟨List.mem_cons_of_mem _ (List.mem_cons_of_mem _ (List.mem_of_mem_tail hk')), ?_⟩
          rintro rfl
          have hd := hlay.groups_nodup
          rw [hg] at hd hk'
          simp only [List.nodup_cons] at hd
          exact hd.2.1 hk'
    by_cases hin : cp.inCharc = true
    · have hrun : endTail { cp with mem := m, groups := cp.groups.tail } =
          .ok (.fail .eclass { cp with mem := m, groups := cp.groups.tail }) := endTail_eclass hin
      rw [hrun]
      exact .eclass _ hin howned
    have hin' : cp.inCharc = false := by simpa using hin
    -- all groups are closed, so the target is the program
    by_cases hnil : cp.groups.tail = []
    · have hbelow : below = [] := by simpa [hg] using hnil
      have htarget : cp.target = cp.prog := by rw [ht, hbelow]; rfl
      have hcapped : (update stk cp.prog ((stk cp.prog).append (stk cp.buf).code)
          cp.prog).capped = false := by simpa using hprogcap
      rcases endTail_result { cp with mem := m, groups := cp.groups.tail } hst
        ⟨Layout.prog_live cp, hbufprog⟩ ⟨Layout.base_live cp, hbufbase⟩ hlay.prog_ne_base
        hcapped htarget hin' hnil with ⟨m', ids', hsh, hrun⟩
      rw [hrun]
      refine .ir m' cp.groups.tail ids' hin' (hgroups.trans hnil) ?_
      rw [endStk, if_pos hend]
      simpa [hlay.prog_ne_base.symm] using hsh
    · have hrun : endTail { cp with mem := m, groups := cp.groups.tail } =
          .ok (.fail .eparen { cp with mem := m, groups := cp.groups.tail }) :=
        endTail_eparen hin' hnil
      rw [hrun]
      exact .eparen _ hin' (by rw [hgroups]; exact hnil) howned
  · -- nothing is waiting
    rw [stage1End_noFlush fun hc => hend (hflush.mp hc)]
    have hgroups : endGroups cp stk = cp.groups := by rw [endGroups, if_neg hend]
    by_cases hin : cp.inCharc = true
    · rw [endTail_eclass hin]
      exact .eclass _ hin hlay.owned
    have hin' : cp.inCharc = false := by simpa using hin
    by_cases hnil : cp.groups = []
    · have htarget : cp.target = cp.prog := by
        cases hlay.place with
        | opened ht _ => rw [ht, hnil]; rfl
        | closed g below hg => rw [hnil] at hg; cases hg
      have hbuf : cp.buf = cp.base := by
        have := hlay.buf_mem
        rw [hnil] at this
        simpa using this
      have hprogcap := hlay.uncapped cp.prog List.mem_cons_self
        (by rw [hbuf]; exact hlay.prog_ne_base)
      rcases endTail_result cp hlay.store (Layout.prog_live cp) (Layout.base_live cp)
        hlay.prog_ne_base hprogcap htarget hin' hnil with ⟨m', ids', hsh, hrun⟩
      rw [hrun]
      refine .ir m' cp.groups ids' hin' (hgroups.trans hnil) ?_
      rw [endStk, if_neg hend]
      exact hsh
    · rw [endTail_eparen hin' hnil]
      exact .eparen _ hin' (by rw [hgroups]; exact hnil) hlay.owned

/-! ## stage2 -/

/-- `stage2` before the chains are optimised: targets become indices. -/
def relocateFrom (i : Nat) : List Inst → List Inst
  | [] => []
  | inst :: rest => inst.relocate i :: relocateFrom (i + 1) rest

theorem stage2Loop_shows {m : Mem} : ∀ {l : List ItemId} (i : Nat),
    Linked.Walkable (fun n => (m.item n).previous) l →
    stage2Loop m l.length i l.head? = .ok (relocateFrom i (l.map fun n => (m.item n).data)) := by
  intro l
  induction l with
  | nil =>
      intro i _
      rfl
  | cons n l ih =>
      intro i h
      have hrest : Walkable (fun n => (m.item n).previous) l := h.tail
      -- `previous` of an item is the next one in program order
      have hprev : l = [] ∨ (m.item n).previous = l.head? := by
        cases l with
        | nil => exact Or.inl rfl
        | cons b l =>
            right
            have := (Walkable.cons_iff.mp h).1 b rfl
            simpa using this
      have hloop : stage2Loop m l.length (i + 1) (m.item n).previous =
          .ok (relocateFrom (i + 1) (l.map fun n => (m.item n).data)) := by
        rcases hprev with rfl | hprev
        · rfl
        · rw [hprev]
          exact ih (i + 1) hrest
      rw [List.length_cons, List.head?_cons, stage2Loop]
      simp only [hloop, bind, Except.bind]
      rfl

theorem stage2_shows (cp : Context) {l : List ItemId} {s : Stk}
    (h : Shows cp.mem cp.prog l s) :
    stage2 cp = if cp.chained then optimiseChains (relocateFrom 0 s.code)
      else .ok (relocateFrom 0 s.code) := by
  unfold stage2
  have hloop := stage2Loop_shows 0 h.linked.walkable
  rw [h.code] at hloop
  simp only [h.size, h.tail, hloop, bind, Except.bind]
  rfl

end

end Rxvm
