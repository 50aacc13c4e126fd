import Rxvm.Frames
import Rxvm.Turn

/-!
# Rxvm.Framed — the compiler does with its heap what the machine does

The stacks of a context are the levels and the buffer of the machine on
lexemes; a turn on the token of a lexeme succeeds when the machine takes the
lexeme, and leaves the levels and the buffer the machine has then.
-/

namespace Rxvm

open Function

/-! ## The heap as frames -/

/-- The stacks of the levels, from the innermost one out. The flag says that
the innermost group has been closed and is the buffer. -/
def Context.levels (cp : Context) (closing : Bool) : List StackId :=
  (if closing then cp.groups.tail else cp.groups) ++ [cp.prog]

/-- The stacks of a context hold what the frames say. -/
structure Framed (cp : Context) (closing : Bool) (stk : StackId → Stk) (index : Option Nat)
    (F : Frames) : Prop where
  levels : (cp.levels closing).map stk = F.top :: F.below
  group : closing = true → F.closed = some (stk cp.buf).code ∧ (stk cp.buf).code ≠ [] ∧ F.buf = []
  plain : closing = false → F.closed = none ∧ cp.buf = cp.base ∧ (stk cp.base).code = F.buf ∧
    cp.target = cp.groups.headD cp.prog ∧ (F.buf ≠ [] → index = some (F.buf.length - 1))

/-- The same, where the group that has just been closed may hold nothing. -/
structure Shaped (cp : Context) (closing : Bool) (stk : StackId → Stk) (index : Option Nat)
    (F : Frames) : Prop where
  levels : (cp.levels closing).map stk = F.top :: F.below
  group : closing = true → F.closed = some (stk cp.buf).code ∧ F.buf = []
  plain : closing = false → F.closed = none ∧ cp.buf = cp.base ∧ (stk cp.base).code = F.buf ∧
    cp.target = cp.groups.headD cp.prog ∧ (F.buf ≠ [] → index = some (F.buf.length - 1))

section

variable {text : List CChar} {cp cp' : Context} {closing : Bool} {ids : StackId → List ItemId}
  {stk stk' : StackId → Stk} {index index' : Option Nat} {F F' : Frames}

theorem Framed.shaped (h : Framed cp closing stk index F) : Shaped cp closing stk index F :=
  ⟨h.levels, fun hc => ⟨(h.group hc).1, (h.group hc).2.2⟩, h.plain⟩

theorem Shaped.framed (h : Shaped cp closing stk index F)
    (hne : closing = true → (stk cp.buf).code ≠ []) : Framed cp closing stk index F :=
  ⟨h.levels, fun hc => ⟨(h.group hc).1, hne hc, (h.group hc).2⟩, h.plain⟩

theorem levels_cons (l : List StackId) (k : StackId) :
    l ++ [k] = l.headD k :: (l ++ [k]).tail := by
  cases l <;> rfl

theorem map_update_head {k : StackId} {l : List StackId} (h : (k :: l).Nodup) (s : Stk) :
    (k :: l).map (update stk k s) = s :: l.map stk := by
  rw [List.map_cons, update_self]
  congr 1
  refine List.map_congr_left ?_
  intro k' hk'
  refine update_of_ne ?_ _ _
  rintro rfl
  exact (List.nodup_cons.mp h).1 hk'

theorem Framed.tidy (h : Framed cp closing stk index F) : F.Tidy := by
  intro hclosed
  cases closing with
  | true => exact (h.group rfl).2.2
  | false => exact absurd (h.plain rfl).1 hclosed

/-- The target is the stack of the innermost level. -/
theorem Shaped.target (h : Shaped cp closing stk index F) (hlay : Layout cp closing ids stk index) :
    ∃ rest, cp.levels closing = cp.target :: rest ∧ (cp.target :: rest).Nodup ∧
      stk cp.target = F.top ∧ rest.map stk = F.below ∧
      ∀ k ∈ cp.target :: rest, k ≠ cp.base ∧ k ≠ cp.buf := by
  -- behind a `)` the target is that of the enclosing group
  have htarget : cp.target = (if closing then cp.groups.tail else cp.groups).headD cp.prog := by
    cases closing with
    | true =>
        rcases (hlay.justClosed rfl).1 with ⟨below, hgroups, ht⟩
        rw [ht, hgroups]
        rfl
    | false => exact (h.plain rfl).2.2.2.1
  have hcons : cp.levels closing = cp.target :: (cp.levels closing).tail := by
    rw [htarget]
    exact levels_cons _ _
  have hlevels := h.levels
  rw [hcons, List.map_cons] at hlevels
  rcases List.cons.inj hlevels with ⟨htop, hbelow⟩
  -- the levels are the stacks of the open groups, and the program
  have hsub : ∀ k ∈ cp.levels closing, k ∈ cp.prog :: cp.groups := by
    intro k hk
    rcases List.mem_append.mp hk with hk | hk
    · refine List.mem_cons_of_mem _ ?_
      cases closing with
      | true => exact List.mem_of_mem_tail hk
      | false => exact hk
    · rw [List.mem_singleton.mp hk]
      exact List.mem_cons_self
  -- a group just closed is no level any more
  have hnodup : (cp.levels closing).Nodup := by
    have hgroups := hlay.groups_nodup
    unfold Context.levels
    cases closing with
    | true =>
        rcases (hlay.justClosed rfl).1 with ⟨below, hg, _⟩
        rw [hg] at hgroups ⊢
        simp only [List.nodup_cons, List.mem_cons, not_or] at hgroups
        show (below ++ [cp.prog]).Nodup
        rw [List.nodup_append_comm]
        exact List.nodup_cons.mpr ⟨hgroups.1.2, hgroups.2.2⟩
    | false =>
        show (cp.groups ++ [cp.prog]).Nodup
        rw [List.nodup_append_comm]
        exact hgroups
  refine ⟨(cp.levels closing).tail, hcons, hcons ▸ hnodup, htop, hbelow, ?_⟩
  intro k hk
  rw [← hcons] at hk
  have hbase : k ≠ cp.base := fun e => hlay.base_notMem (e ▸ hsub k hk)
  refine ⟨hbase, ?_⟩
  -- the buffer is the base, or the group just closed
  cases closing with
  | false => rw [(h.plain rfl).2.1]; exact hbase
  | true =>
      rcases (hlay.justClosed rfl).1 with ⟨below, hg, _⟩
      have hgroups := hlay.groups_nodup
      rw [hg] at hgroups
      simp only [List.nodup_cons, List.mem_cons, not_or] at hgroups
      have hk' : k ∈ below ++ [cp.prog] := by
        rw [Context.levels, hg] at hk
        exact hk
      rintro rfl
      rcases List.mem_append.mp hk' with hmem | hmem
      · exact hgroups.2.1 hmem
      · exact hgroups.1.1 (List.mem_singleton.mp hmem).symm

/-! ## The flush -/

theorem Framed.flush {cp₁ : Context} {stk₁ : StackId → Stk} {index₁ : Option Nat}
    (h : Framed cp cp.closing stk index F) (hlay : Layout cp cp.closing ids stk index)
    (hflush : Flushed cp stk index cp₁ stk₁ index₁) : Framed cp₁ false stk₁ index₁ F.flush := by
  cases hflush with
  | popped m' hclosing hbuf =>
      rcases h.shaped.target hlay with ⟨rest, hcons, hnodup, htop, hbelow, hother⟩
      rw [hclosing] at h hlay hcons
      rcases h.group rfl with ⟨hclosed, _, hF⟩
      rcases hlay.justClosed rfl with ⟨⟨below, hgroups, htarget⟩, hbase, _⟩
      have hflush : F.flush = { F with top := F.top.append (stk cp.buf).code, closed := none } := by
        simp [Frames.flush, hclosed]
      rw [hflush]
      refine ⟨?_, by simp, fun _ => ⟨rfl, rfl, ?_, ?_, fun hne => absurd hF hne⟩⟩
      · show (cp.groups.tail ++ [cp.prog]).map _ = _
        have hlevels : cp.groups.tail ++ [cp.prog] = cp.target :: rest := hcons
        rw [hlevels, map_update_head hnodup, htop, hbelow]
      · show (update stk cp.target _ cp.base).code = F.buf
        rw [update_of_ne hlay.target_ne_base.symm, hbase, hF]
      · rw [htarget, hgroups]
        rfl
  | kept hcond =>
      have hclosing : cp.closing = false := by
        cases hc : cp.closing with
        | false => rfl
        | true => exact absurd ⟨hc, (h.group hc).2.1⟩ hcond
      rw [hclosing] at h
      rw [Frames.flush_eq_self (h.plain rfl).1]
      exact h

/-! ## Operators -/

/-- The operand of the frames is the operand of the context. -/
theorem Framed.operand (h : Framed cp closing stk index F) (hlay : Layout cp closing ids stk index)
    {pre e : List Inst} (hop : F.operand = some (pre, e)) :
    ∃ i, index = some i ∧ (stk cp.buf).code.take i = pre ∧ (stk cp.buf).code.drop i = e := by
  unfold Frames.operand at hop
  cases closing with
  | true =>
      rcases h.group rfl with ⟨hclosed, hne, _⟩
      rw [hclosed] at hop
      obtain ⟨rfl, rfl⟩ : [] = pre ∧ (stk cp.buf).code = e := by simpa using hop
      exact ⟨0, (hlay.justClosed rfl).2.2 hne, rfl, rfl⟩
  | false =>
      rcases h.plain rfl with ⟨hclosed, hbuf, hbase, _, hindex⟩
      simp only [hclosed, Option.map_eq_some_iff, Prod.mk.injEq] at hop
      rcases hop with ⟨inst, hlast, rfl, rfl⟩
      have hne : F.buf ≠ [] := by
        intro e
        simp [e] at hlast
      refine ⟨F.buf.length - 1, hindex hne, ?_, ?_⟩
      · rw [hbuf, hbase, List.dropLast_eq_take]
      · rw [hbuf, hbase, List.drop_length_sub_one hne]
        congr 1
        exact (List.getLast_eq_iff_getLast?_eq_some hne).mpr hlast

/-- The operand is missing in both. -/
theorem Framed.operand_none (h : Framed cp closing stk index F) (hop : F.operand = none) :
    closing = false ∧ (stk cp.buf).code = [] ∧ F.pending = [] := by
  cases closing with
  | true =>
      unfold Frames.operand at hop
      rw [(h.group rfl).1] at hop
      cases hop
  | false =>
      rcases h.plain rfl with ⟨hclosed, hbuf, hbase, _⟩
      simp only [Frames.operand, hclosed, Option.map_eq_none_iff, List.getLast?_eq_none_iff] at hop
      refine ⟨rfl, ?_, ?_⟩
      · rw [hbuf, hbase, hop]
      · simp [Frames.pending, hclosed, hop]

theorem Layout.code_ne_nil {i : Nat} (hlay : Layout cp closing ids stk (some i)) :
    (stk cp.buf).code ≠ [] := by
  rcases hlay.located.found i rfl with ⟨n, _, hget⟩
  have hlt := (List.getElem?_eq_some_iff.mp hget).1
  have hlen := (hlay.store.shows _ hlay.buf_live).code_length
  intro hnil
  rw [hnil, List.length_nil] at hlen
  omega

/-- The two counts of a repetition, as `parse_rep` returns them. -/
def Reps.fields : Reps → Int × Int
  | .repN n => (n.value, repNoField)
  | .repRange n m => (n.value, m.value)
  | .repMore n => (n.value, repFieldEmpty)
  | .repLess m => (repFieldEmpty, m.value)

theorem Reps.code_eq (reps : Reps) (e : List Inst) :
    reps.code e = repCode e reps.fields.1 reps.fields.2 := by
  cases reps <;> rfl

/-- The token of a lexeme that is read at once. -/
def Lexeme.Token (text : List CChar) (cp : Context) : Lexeme → Prop
  | .char l => cp.tok = .literal ∧ cp.lp1Char text = l.c
  | .any => cp.tok = .any
  | .sol => cp.tok = .sol
  | .eol => cp.tok = .eol
  | .set _ _ _ => False
  | .zero => cp.tok = .zero
  | .one => cp.tok = .one
  | .onezero => cp.tok = .onezero
  | .rep reps => cp.tok = .rep ∧
    parseRep text cp.statics.lex.lp1 cp.statics.lex.lpn = reps.fields
  | .alt => cp.tok = .alt
  | .lparen => cp.tok = .lparen
  | .rparen => cp.tok = .rparen

/-- What an operator makes of its operand, in the heap and in the frames. -/
theorem Lexeme.Token.operator {x : Lexeme} (hx : x.Token text cp) (hop : cp.tok.isop = true) :
    (x = .alt ∧ cp.tok = .alt) ∨ (cp.tok ≠ .alt ∧ ∃ code : List Inst → Option (List Inst),
      (∀ F : Frames, F.take x = F.operate code) ∧
      ∀ s e, opResult text cp s e = (code e).map s.append) := by
  cases x with
  | alt => exact Or.inl ⟨rfl, hx⟩
  | zero =>
      have htok : cp.tok = .zero := hx
      refine Or.inr ⟨by simp [htok], fun e => some (zeroCode e), fun _ => rfl, ?_⟩
      intro s e
      simp [opResult, htok]
  | one =>
      have htok : cp.tok = .one := hx
      refine Or.inr ⟨by simp [htok], fun e => some (oneCode e), fun _ => rfl, ?_⟩
      intro s e
      simp [opResult, htok]
  | onezero =>
      have htok : cp.tok = .onezero := hx
      refine Or.inr ⟨by simp [htok], fun e => some (onezeroCode e), fun _ => rfl, ?_⟩
      intro s e
      simp [opResult, htok]
  | rep reps =>
      rcases hx with ⟨htok, hparse⟩
      refine Or.inr ⟨by simp [htok], fun e => reps.code e, fun _ => rfl, ?_⟩
      intro s e
      simp [opResult, htok, hparse, Reps.code_eq]
  | char l => rw [hx.1] at hop; cases hop
  | any => rw [show cp.tok = .any from hx] at hop; cases hop
  | sol => rw [show cp.tok = .sol from hx] at hop; cases hop
  | eol => rw [show cp.tok = .eol from hx] at hop; cases hop
  | set => exact hx.elim
  | lparen => rw [show cp.tok = .lparen from hx] at hop; cases hop
  | rparen => rw [show cp.tok = .rparen from hx] at hop; cases hop

/-- What an alternation puts on the target is the level with its branch. -/
theorem Framed.alternated {s : Stk} (h : Framed cp closing stk index F)
    (hlay : Layout cp closing ids stk index) (halt : cp.tok = .alt)
    (hs : OpOn text cp stk index s) :
    F.alternate = { F with top := s, buf := [], closed := none } := by
  rcases h.shaped.target hlay with ⟨_, _, _, htop, _, _⟩
  suffices hlevel : F.level.alt = s by rw [Frames.alternate, hlevel]
  cases hs with
  | operand i hindex hres =>
      subst hindex
      rcases hoperand : F.operand with _ | ⟨pre, e⟩
      · exact absurd (h.operand_none hoperand).2.1 hlay.code_ne_nil
      · rcases h.operand hlay hoperand with ⟨i', hi', hpre, he⟩
        obtain rfl : i = i' := Option.some.inj hi'
        rw [hpre, he, htop] at hres
        simp only [opResult, halt, Option.some.injEq] at hres
        rw [← hres, Frames.level, h.tidy.pending_of_operand hoperand, ← Stk.append_append]
  | empty hbuf _ hs =>
      have hoperand : F.operand = none := by
        rcases hoperand : F.operand with _ | ⟨pre, e⟩
        · rfl
        · rcases h.operand hlay hoperand with ⟨i, rfl, _⟩
          exact absurd hbuf hlay.code_ne_nil
      rw [hs, htop, Frames.level, (h.operand_none hoperand).2.2, Stk.append_nil]

/-- What another operator puts on the target is what it makes of the frames. -/
theorem Framed.operates {s : Stk} {code : List Inst → Option (List Inst)}
    (h : Framed cp closing stk index F) (hlay : Layout cp closing ids stk index)
    (halt : cp.tok ≠ .alt) (hresult : ∀ s e, opResult text cp s e = (code e).map s.append)
    (hs : OpOn text cp stk index s) :
    F.operate code = some { F with top := s, buf := [], closed := none } := by
  rcases h.shaped.target hlay with ⟨_, _, _, htop, _, _⟩
  cases hs with
  | empty _ htok => exact absurd htok halt
  | operand i hindex hres =>
      subst hindex
      rcases hoperand : F.operand with _ | ⟨pre, e⟩
      · exact absurd (h.operand_none hoperand).2.1 hlay.code_ne_nil
      · rcases h.operand hlay hoperand with ⟨i', hi', hpre, he⟩
        obtain rfl : i = i' := Option.some.inj hi'
        rw [hpre, he, htop, hresult] at hres
        rcases Option.map_eq_some_iff.mp hres with ⟨c, hc, rfl⟩
        rw [Frames.operate, hoperand, Option.bind_some, hc, Option.map_some, Stk.append_append]

/-- What an operator puts on the target is the level the frames have then. -/
theorem Framed.opOn {x : Lexeme} {s : Stk} (h : Framed cp closing stk index F)
    (hlay : Layout cp closing ids stk index) (hx : x.Token text cp) (hop : cp.tok.isop = true)
    (htake : F.take x = some F') (hs : OpOn text cp stk index s) :
    F' = { F with top := s, buf := [], closed := none } := by
  rcases hx.operator hop with ⟨rfl, halt⟩ | ⟨hne, code, hcode, hresult⟩
  · obtain rfl : F.alternate = F' := Option.some.inj htake
    exact h.alternated hlay halt hs
  · rw [hcode, h.operates hlay hne hresult hs] at htake
    exact (Option.some.inj htake).symm

/-! ## Turns -/

/-- The frames depend on the stacks only, and on which of them is which. -/
theorem Shaped.control (h : Shaped cp closing stk index F)
    (hsame : cp'.groups = cp.groups ∧ cp'.prog = cp.prog ∧ cp'.buf = cp.buf ∧ cp'.base = cp.base ∧
      cp'.target = cp.target) : Shaped cp' closing stk index F := by
  rcases hsame with ⟨hgroups, hprog, hbuf, hbase, htarget⟩
  constructor
  · rw [Context.levels, hgroups, hprog]
    exact h.levels
  · rw [hbuf]
    exact h.group
  · rw [hbuf, hbase, htarget, hgroups, hprog]
    exact h.plain

theorem Framed.control (h : Framed cp closing stk index F)
    (hsame : cp'.groups = cp.groups ∧ cp'.prog = cp.prog ∧ cp'.buf = cp.buf ∧ cp'.base = cp.base ∧
      cp'.target = cp.target) : Framed cp' closing stk index F := by
  refine (h.shaped.control hsame).framed ?_
  rw [hsame.2.2.1]
  exact fun hc => (h.group hc).2.1

/-- An operator. -/
theorem Shaped.operated {s : Stk} (h : Shaped cp cp.closing stk index F)
    (hlay : Layout cp cp.closing ids stk index)
    (hcp' : cp'.groups = (if cp.closing then cp.groups.tail else cp.groups) ∧ cp'.prog = cp.prog ∧
      cp'.buf = cp.base ∧ cp'.base = cp.base ∧ cp'.target = cp.target) :
    Framed cp' false (operated cp stk s) index'
      { F with top := s, buf := [], closed := none } := by
  rcases h.target hlay with ⟨rest, hcons, hnodup, _, hbelow, hother⟩
  rcases hcp' with ⟨hgroups, hprog, hbuf, hbase, htarget⟩
  have hlevels : cp'.levels false = cp.target :: rest := by
    rw [← hcons]
    show cp'.groups ++ [cp'.prog] = _
    rw [hgroups, hprog]
    rfl
  refine ⟨?_, by simp, fun _ => ⟨rfl, ?_, ?_, ?_, fun hne => absurd rfl hne⟩⟩
  · have hbuf' : ∀ k ∈ cp.target :: rest, Rxvm.operated cp stk s k = update stk cp.target s k := by
      intro k hk
      exact update_of_ne (hother k hk).2 _ _
    rw [hlevels, List.map_congr_left hbuf', map_update_head hnodup, hbelow]
  · rw [hbuf, hbase]
  · show (Rxvm.operated cp stk s cp'.base).code = []
    rw [hbase]
    by_cases e : cp.base = cp.buf
    · rw [e]
      exact operated_buf cp stk s
    · rw [operated_of_ne e hlay.target_ne_base.symm]
      cases hc : cp.closing with
      | true =>
          rw [hc] at hlay
          exact (hlay.justClosed rfl).2.1
      | false => exact absurd ((h.plain hc).2.1.symm) e
  · have hhead := levels_cons cp'.groups cp'.prog
    have hlevels' : cp'.groups ++ [cp'.prog] = cp.target :: rest := hlevels
    rw [hlevels'] at hhead
    rw [htarget]
    exact (List.cons.inj hhead).1

/-- An instruction for the buffer. -/
theorem Framed.single {inst : Inst} {k : StackId} (h : Framed cp false stk index F)
    (hlay : Layout cp false ids stk index) (hk : k = cp.base)
    (hcp' : cp'.groups = cp.groups ∧ cp'.prog = cp.prog ∧ cp'.buf = cp.buf ∧ cp'.base = cp.base ∧
      cp'.target = cp.target) :
    Framed cp' false (update stk k ((stk k).append [inst])) (some (stk k).code.length)
      { F with buf := F.buf ++ [inst] } := by
  subst hk
  rcases h.shaped.target hlay with ⟨rest, hcons, _, _, _, hother⟩
  rcases h.plain rfl with ⟨hclosed, hbuf, hbase, htarget, _⟩
  suffices hframed : Framed cp false (update stk cp.base ((stk cp.base).append [inst]))
      (some (stk cp.base).code.length) { F with buf := F.buf ++ [inst] } from hframed.control hcp'
  refine ⟨?_, by simp, fun _ => ⟨hclosed, hbuf, ?_, htarget, ?_⟩⟩
  · have hsame : ∀ k ∈ cp.levels false,
        update stk cp.base ((stk cp.base).append [inst]) k = stk k := by
      intro k hk
      rw [hcons] at hk
      exact update_of_ne (hother k hk).1 _ _
    rw [List.map_congr_left hsame]
    exact h.levels
  · rw [update_self, Stk.append_code, hbase]
  · intro _
    rw [hbase]
    simp

/-- A `(`. -/
theorem Framed.opened (h : Framed cp false stk index F) (hlay : Layout cp false ids stk index)
    (hfresh : cp.mem.stackCount ∉ cp.live)
    (hcp' : cp'.groups = cp.mem.stackCount :: cp.groups ∧ cp'.prog = cp.prog ∧ cp'.buf = cp.buf ∧
      cp'.base = cp.base ∧ cp'.target = cp.mem.stackCount) :
    Framed cp' false (opened cp stk) index'
      { top := Stk.empty, below := F.top.append F.buf :: F.below, buf := [], closed := none } := by
  rcases h.shaped.target hlay with ⟨rest, hcons, hnodup, htop, hbelow, hother⟩
  rcases h.plain rfl with ⟨_, hbuf, hbase, _, _⟩
  rcases hcp' with ⟨hgroups, hprog, hbuf', hbase', htarget'⟩
  have hnew : ∀ k ∈ cp.live, k ≠ cp.mem.stackCount := fun k hk e => hfresh (e ▸ hk)
  have hlive : ∀ k ∈ cp.levels false, k ∈ cp.live := by
    intro k hk
    rcases List.mem_append.mp hk with hk | hk
    · exact List.mem_cons_of_mem _ (List.mem_cons_of_mem _ hk)
    · rw [List.mem_singleton.mp hk]
      exact Layout.prog_live cp
  refine ⟨?_, by simp, fun _ => ⟨rfl, ?_, ?_, ?_, fun hne => absurd rfl hne⟩⟩
  · have hlevels : cp'.levels false = cp.mem.stackCount :: (cp.target :: rest) := by
      rw [← hcons]
      show cp'.groups ++ [cp'.prog] = _
      rw [hgroups, hprog]
      rfl
    have hsame : ∀ k ∈ cp.target :: rest, Rxvm.opened cp stk k =
        update stk cp.target ((stk cp.target).append (stk cp.base).code) k := by
      intro k hk
      have hne := hnew k (hlive k (by rw [hcons]; exact hk))
      unfold Rxvm.opened
      rw [update_of_ne hne, update_of_ne (hother k hk).1]
    rw [hlevels, List.map_cons, List.map_congr_left hsame, map_update_head hnodup, htop, hbase,
      hbelow]
    simp [Rxvm.opened]
  · rw [hbuf', hbase', hbuf]
  · show (Rxvm.opened cp stk cp'.base).code = []
    rw [hbase']
    simp [Rxvm.opened, hnew _ (Layout.base_live cp)]
  · rw [htarget', hgroups]
    rfl

/-- A `)`, of a group that may hold nothing. -/
theorem Framed.shut {cur : StackId} {below : List StackId} {ids' : StackId → List ItemId}
    (h : Framed cp false stk index F) (hlay : Layout cp false ids stk index)
    (hgroups : cp.groups = cur :: below) (hsame : SameCode (closed cp stk) stk')
    (hcp' : cp'.groups = cp.groups ∧ cp'.prog = cp.prog ∧ cp'.buf = cur ∧ cp'.base = cp.base ∧
      cp'.target = below.headD cp.prog)
    (hlay' : Layout cp' true ids' stk' index') {t : Stk} {belowF : List Stk}
    (hbelowF : F.below = t :: belowF) :
    Shaped cp' true stk' index'
      { top := t, below := belowF, buf := [], closed := some (F.top.append F.buf).attach.code } := by
  rcases h.shaped.target hlay with ⟨rest, hcons, hnodup, htop, hbelow, hother⟩
  rcases h.plain rfl with ⟨_, _, hbase, htarget, _⟩
  rcases hcp' with ⟨hgroups', hprog', hbuf', hbase', _⟩
  have htarget' : cp.target = cur := by
    rw [htarget, hgroups]
    rfl
  -- the levels below are those of the enclosing groups
  have hrest : rest = below ++ [cp.prog] := by
    have hlevels : cp.groups ++ [cp.prog] = cp.target :: rest := hcons
    rw [hgroups] at hlevels
    exact (List.cons.inj hlevels).2.symm
  have hcode : (stk' cur).code = (F.top.append F.buf).attach.code := by
    rw [(hsame cur).1, Rxvm.closed, update_of_ne, ← htarget', update_self, htop, hbase]
    rw [← htarget']
    exact hlay.target_ne_base
  refine ⟨?_, fun _ => ⟨?_, rfl⟩, by simp⟩
  · have hlevels : cp'.levels true = rest := by
      show cp'.groups.tail ++ [cp'.prog] = rest
      rw [hgroups', hgroups, hprog', hrest]
      rfl
    -- the stacks below stay, cap and jump included
    rw [hlevels, ← hbelowF, ← hbelow]
    refine List.map_congr_left ?_
    intro k hk
    have hk' := hother k (List.mem_cons_of_mem _ hk)
    have hkt : k ≠ cp.target := fun e => (List.nodup_cons.mp hnodup).1 (e ▸ hk)
    have hstk : Rxvm.closed cp stk k = stk k := by
      rw [Rxvm.closed, update_of_ne hk'.1, update_of_ne hkt]
    have hmem : k ∈ cp.prog :: cp.groups := by
      rw [hgroups]
      rw [hrest] at hk
      rcases List.mem_append.mp hk with hk | hk
      · exact List.mem_cons_of_mem _ (List.mem_cons_of_mem _ hk)
      · rw [List.mem_singleton.mp hk]
        exact List.mem_cons_self
    have hcap := hlay.uncapped k hmem hk'.2
    have hcap' := hlay'.uncapped k (by rw [hprog', hgroups']; exact hmem)
      (by rw [hbuf', ← htarget']; exact hkt)
    rcases hsame k with ⟨hc, hj⟩
    rw [hstk] at hc hj
    rcases hs' : stk' k with ⟨code', jmp', capped'⟩
    rcases hs : stk k with ⟨code, jmp, capped⟩
    rw [hs'] at hc hj hcap'
    rw [hs] at hc hj hcap
    simp only at hc hj hcap hcap'
    rw [hc, hj, hcap, hcap']
  · rw [hbuf', hcode]

/-- A `)`. -/
theorem Framed.closed {cur : StackId} {below : List StackId} {ids' : StackId → List ItemId}
    (h : Framed cp false stk index F) (hlay : Layout cp false ids stk index)
    (hgroups : cp.groups = cur :: below) (hsame : SameCode (closed cp stk) stk')
    (hcp' : cp'.groups = cp.groups ∧ cp'.prog = cp.prog ∧ cp'.buf = cur ∧ cp'.base = cp.base ∧
      cp'.target = below.headD cp.prog)
    (hlay' : Layout cp' true ids' stk' index') {t : Stk} {belowF : List Stk}
    (hbelowF : F.below = t :: belowF) (hne : (F.top.append F.buf).attach.code ≠ []) :
    Framed cp' true stk' index'
      { top := t, below := belowF, buf := [], closed := some (F.top.append F.buf).attach.code } := by
  have hshut := h.shut hlay hgroups hsame hcp' hlay' hbelowF
  refine hshut.framed fun hc => ?_
  rwa [← Option.some.inj (hshut.group hc).1]

/-- A token that goes to the buffer as it is. -/
theorem Lexeme.Token.single {x : Lexeme} {inst : Inst} (hx : x.Token text cp)
    (hinst : singleInst text cp = some inst) :
    cp.tok ≠ .rparen ∧ ∀ F : Frames, F.take x = some (F.atom inst) := by
  unfold singleInst at hinst
  cases x with
  | char l =>
      rcases hx with ⟨htok, hchar⟩
      simp only [htok, hchar, Option.some.injEq] at hinst
      exact ⟨by simp [htok], fun F => by rw [← hinst]; rfl⟩
  | any | sol | eol =>
      simp only [Token] at hx
      simp only [hx, Option.some.injEq] at hinst
      exact ⟨by simp [hx], fun F => by rw [← hinst]; rfl⟩
  | set => exact hx.elim
  | rep =>
      rw [hx.1] at hinst
      cases hinst
  | zero | one | onezero | alt | lparen | rparen =>
      simp only [Token] at hx
      rw [hx] at hinst
      cases hinst

/-- Every token of a lexeme is an operator, an instruction or a bracket. -/
theorem Lexeme.Token.loud {x : Lexeme} (hx : x.Token text cp) (hop : cp.tok.isop = false)
    (hinst : singleInst text cp = none) : cp.tok = .lparen ∨ cp.tok = .rparen := by
  unfold singleInst at hinst
  cases x with
  | char l =>
      rw [hx.1] at hinst
      cases hinst
  | any | sol | eol =>
      simp only [Token] at hx
      rw [hx] at hinst
      cases hinst
  | set => exact hx.elim
  | rep =>
      rw [hx.1] at hop
      cases hop
  | zero | one | onezero | alt =>
      simp only [Token] at hx
      rw [hx] at hop
      cases hop
  | lparen => exact Or.inl hx
  | rparen => exact Or.inr hx

theorem Lexeme.Token.lparen_eq {x : Lexeme} (hx : x.Token text cp) (htok : cp.tok = .lparen) :
    x = .lparen := by
  cases x with
  | lparen => rfl
  | char | rep => exact absurd (htok.symm.trans hx.1) (by simp)
  | set => exact hx.elim
  | _ => exact absurd (htok.symm.trans hx) (by simp)

theorem Lexeme.Token.rparen_eq {x : Lexeme} (hx : x.Token text cp) (htok : cp.tok = .rparen) :
    x = .rparen := by
  cases x with
  | rparen => rfl
  | char | rep => exact absurd (htok.symm.trans hx.1) (by simp)
  | set => exact hx.elim
  | _ => exact absurd (htok.symm.trans hx) (by simp)

/-- A turn on the token of a lexeme does what the machine does with it. -/
theorem Framed.turn {x : Lexeme} {ids' : StackId → List ItemId}
    (h : Framed cp cp.closing stk index F) (hlay : Layout cp cp.closing ids stk index)
    (hmain : cp.inCharc = false) (hx : x.Token text cp) (htake : F.take x = some F')
    (hturn : Turn text cp stk index cp' stk' index')
    (hlay' : Layout cp' (decide (cp.tok = .rparen)) ids' stk' index') :
    Framed cp' (decide (cp.tok = .rparen)) stk' index' F' ∧ cp'.inCharc = false := by
  -- outside a class the flush does not open one
  have hkeep : ∀ {cp₁ : Context} {stk₁ : StackId → Stk} {index₁ : Option Nat},
      Flushed cp stk index cp₁ stk₁ index₁ → cp₁.inCharc = false := by
    intro cp₁ stk₁ index₁ hflush
    cases hflush <;> exact hmain
  cases hturn with
  | operate _ hop s hs m' chained index' =>
      -- an operator is no `)`
      have htok : decide (cp.tok = .rparen) = false := by
        cases e : cp.tok <;> simp_all [Tok.isop]
      rw [htok, h.opOn hlay hx hop htake hs]
      exact ⟨h.shaped.operated hlay ⟨rfl, rfl, rfl, rfl, rfl⟩, hmain⟩
  | single _ cp₁ stk₁ index₁ hflush inst hinst m' operand =>
      rcases hflush.layout with ⟨ids₁, hlay₁⟩
      have h₁ := h.flush hlay hflush.flushed
      have hbuf : cp₁.buf = cp₁.base := (h₁.plain rfl).2.1
      rcases hx.single hinst with ⟨htok, hatom⟩
      obtain rfl : F.atom inst = F' := Option.some.inj ((hatom F).symm.trans htake)
      have hin := hkeep hflush.flushed
      rw [decide_eq_false htok]
      exact ⟨h₁.single hlay₁ hbuf ⟨rfl, rfl, rfl, rfl, rfl⟩, hin⟩
  | quiet _ cp₁ stk₁ index₁ hflush hop hinst hparen =>
      -- a lexeme outside a class is an operator, a bracket or has an instruction
      rcases hx.loud hop hinst with htok | htok
      · exact absurd htok hparen.1
      · exact absurd htok hparen.2
  | opening _ cp₁ stk₁ index₁ hflush htok m' hfresh =>
      rcases hflush.layout with ⟨ids₁, hlay₁⟩
      have h₁ := h.flush hlay hflush.flushed
      obtain rfl := hx.lparen_eq htok
      obtain rfl : F.openLevel = F' := Option.some.inj htake
      have hin := hkeep hflush.flushed
      rw [decide_eq_false (by simp [htok]), Frames.openLevel, ← Frames.flush_below F]
      exact ⟨h₁.opened hlay₁ hfresh ⟨rfl, rfl, rfl, rfl, rfl⟩, hin⟩
  | closing _ cp₁ stk₁ index₁ hflush htok cur below hgroups m' operand stk' hsame =>
      rcases hflush.layout with ⟨ids₁, hlay₁⟩
      have h₁ := h.flush hlay hflush.flushed
      obtain rfl := hx.rparen_eq htok
      rw [decide_eq_true htok] at hlay' ⊢
      have hin := hkeep hflush.flushed
      refine ⟨?_, hin⟩
      -- the machine has a level to close, and code in it
      simp only [Frames.take, Frames.closeLevel] at htake
      split at htake
      · cases htake
      · next t belowF hbelow =>
          split_ifs at htake with hne
          obtain rfl := Option.some.inj htake
          rw [← Frames.flush_below F] at hbelow
          refine h₁.closed hlay₁ hgroups hsame ?_ hlay' hbelow hne
          exact ⟨rfl, rfl, rfl, rfl, rfl⟩
  -- the turns inside a class
  | charc hcharc => rw [hmain] at hcharc; cases hcharc
  | noCcs hcharc => rw [hmain] at hcharc; cases hcharc
  | ccs hcharc => rw [hmain] at hcharc; cases hcharc

/-- The turn succeeds when the machine takes the lexeme. -/
theorem Framed.succeeds {x : Lexeme} (h : Framed cp cp.closing stk index F)
    (hlay : Layout cp cp.closing ids stk index) (hmain : cp.inCharc = false)
    (hx : x.Token text cp) (htake : F.take x = some F') :
    ∃ cp', stage1Step text cp = .ok (none, cp') := by
  have hresult := stage1Step_result text hlay fun hin => by rw [hmain] at hin; cases hin
  generalize stage1Step text cp = run at hresult ⊢
  cases hresult with
  -- no operand although the buffer holds code: the machine has its operand
  | lost _ hop hindex hbuf =>
      rcases hoperand : F.operand with _ | ⟨pre, e⟩
      · exact absurd (h.operand_none hoperand).2.1 hbuf
      · rcases h.operand hlay hoperand with ⟨i, hi, _⟩
        rw [hindex] at hi
        cases hi
  | diverges hcharc => rw [hmain] at hcharc; cases hcharc
  -- the count is one that the machine refuses as well
  | abandoned _ hop i hindex hres =>
      exfalso
      rcases hx.operator hop with ⟨_, halt⟩ | ⟨_, code, hcode, hresult⟩
      · simp [opResult, halt] at hres
      · rw [hcode] at htake
        unfold Frames.operate at htake
        rcases hoperand : F.operand with _ | ⟨pre, e⟩
        · rw [hoperand] at htake
          cases htake
        · rw [hoperand] at htake
          rcases Option.map_eq_some_iff.mp htake with ⟨c, hc, _⟩
          rcases h.operand hlay hoperand with ⟨i', hi', _, he⟩
          obtain rfl : i = i' := Option.some.inj (hindex.symm.trans hi')
          rw [he, hresult, hc] at hres
          cases hres
  | failed e cp' ids' stk' index' _ hwhy =>
      exfalso
      cases hwhy with
      -- an operator without operand: the machine does not take it
      | operator hop hbuf hne =>
          rcases hx.operator hop with ⟨_, halt⟩ | ⟨_, code, hcode, _⟩
          · exact hne halt
          · rw [hcode] at htake
            unfold Frames.operate at htake
            rcases hoperand : F.operand with _ | ⟨pre, e⟩
            · rw [hoperand] at htake
              cases htake
            · rcases h.operand hlay hoperand with ⟨i, rfl, _⟩
              exact hlay.code_ne_nil hbuf
      -- a `)` without group: the machine has no level to close
      | rparen htok cp₁ stk₁ index₁ hflush hgroups =>
          have h₁ := h.flush hlay hflush
          have hlevels : (cp₁.groups ++ [cp₁.prog]).map stk₁ = F.flush.top :: F.flush.below :=
            h₁.levels
          rw [hgroups] at hlevels
          have hbelow : F.below = [] := by
            rw [← Frames.flush_below]
            exact (List.cons.inj hlevels).2.symm
          obtain rfl := hx.rparen_eq htok
          simp only [Frames.take, Frames.closeLevel, hbelow] at htake
          cases htake
      -- a `]` outside a class is no lexeme
      | charcClose _ htok =>
          have hloud := hx.loud (by simp [htok, Tok.isop]) (by simp [singleInst, htok])
          simp [htok] at hloud
      | charc hcharc => rw [hmain] at hcharc; cases hcharc
  | turned cp' => exact ⟨cp', rfl⟩

end

end Rxvm
