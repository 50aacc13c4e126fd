import Rxvm.Balance

/-!
# Rxvm.Release — what stage2 and stage1_err_cleanup release

Items are released at the end: by `stage2` when `stage1` succeeds, and by
`stage1_err_cleanup` when it fails. Both come to all items that were made,
unless the run has lost some.
-/

namespace Rxvm

open Function Linked

/-- The loop of `stage2`, from the tail along `previous` for `ir->size` items,
meets every item that was made, once. -/
def ConsumedAll (cp : Context) : Prop :=
  ∃ ids : List ItemId, ids.head? = (cp.mem.stack cp.prog).tail ∧
    Walkable (fun n => (cp.mem.item n).previous) ids ∧
    ids.length = (cp.mem.stack cp.prog).size ∧ ids.Perm (List.range cp.mem.itemCount)

/-- `stage1_err_cleanup` releases every item exactly once: it comes to the end of
every stack, meets no item twice, and leaves out none that was made. -/
def ReleasedOnce (cp : Context) : Prop :=
  ∃ walk : StackId → List ItemId,
    (∀ k ∈ cleanupStacks cp, Walk (fun n => (cp.mem.item n).next) (cp.mem.stack k).head (walk k)) ∧
      ((cleanupStacks cp).flatMap walk).Nodup ∧
      ∀ n < cp.mem.itemCount, n ∈ (cleanupStacks cp).flatMap walk

/-- `stage1_err_cleanup` meets the items that were made and no others, each once. -/
def ReleasedAll (cp : Context) : Prop :=
  ∃ walk : StackId → List ItemId,
    (∀ k ∈ cleanupStacks cp, Walk (fun n => (cp.mem.item n).next) (cp.mem.stack k).head (walk k)) ∧
      ((cleanupStacks cp).flatMap walk).Perm (List.range cp.mem.itemCount)

section

variable {g : Statics} {text : List CChar} {cp cp' : Context} {ids : StackId → List ItemId}
  {stk : StackId → Stk} {index : Option Nat}

/-- Items of their own, as many as were made, are all that were made. -/
theorem perm_range {l : List ItemId} {n : Nat} (hnodup : l.Nodup) (hlt : ∀ x ∈ l, x < n)
    (hlen : l.length = n) : l.Perm (List.range n) := by
  have hsub : l ⊆ List.range n := fun x hx => List.mem_range.mpr (hlt x hx)
  refine (List.subperm_of_subset hnodup hsub).perm_of_length_le ?_
  rw [List.length_range, hlen]

/-! ## stage2 -/

/-- The base buffer and the `match` at the end of the program. -/
theorem endTail_items (cp : Context) (hst : Store cp.mem live ids stk [] []) (hprog : cp.prog ∈ live)
    (hbase : cp.base ∈ live) (hne : cp.prog ≠ cp.base) (hcap : (stk cp.prog).capped = false)
    (htarget : cp.target = cp.prog) (hin : cp.inCharc = false) (hg : cp.groups = [])
    {lfix0 lfixn : Nat} (hrun : endTail cp = .ok (.ir lfix0 lfixn cp')) :
    ∃ ids' s, Shows cp'.mem cp'.prog ids' s ∧ ids'.Nodup ∧ (∀ n ∈ ids', n < cp'.mem.itemCount) ∧
      s.code.length = (stk cp.prog).code.length + (stk cp.base).code.length + 1 ∧
      cp'.mem.itemCount = cp.mem.itemCount + 1 := by
  -- the buffer goes to the program, the last alternative is attached, `match` is added
  rcases hst.cat hprog hbase hne hcap with ⟨m₁, hcat, hst₁, _⟩
  have hlive : ({ cp.lfixStop with mem := m₁ } : Context).target ∈ live \ {cp.base} := by
    show cp.target ∈ _
    rw [htarget]
    exact ⟨hprog, hne⟩
  have hst₁' : Store ({ cp.lfixStop with mem := m₁ } : Context).mem (live \ {cp.base})
    (update ids cp.prog (ids cp.prog ++ ids cp.base))
    (update stk cp.prog ((stk cp.prog).append (stk cp.base).code)) [] [] := hst₁
  rcases hst₁'.attach hlive with ⟨m₂, hattach, hst₂, _, hitems₂, _⟩
  have htarget' : ({ cp.lfixStop with mem := m₁ } : Context).target = cp.prog := htarget
  rw [htarget', update_self, update_idem] at hst₂
  have hmem : cp.prog ∈ live \ {cp.base} := ⟨hprog, hne⟩
  have hadd := hst₂.addHead hmem .opMatch
  rw [endTail_ir hin hg hcat hattach] at hrun
  obtain ⟨-, -, rfl⟩ : _ ∧ _ ∧ { cp.lfixStop with
      mem := (m₂.stackAddInstHead cp.prog .opMatch).1 } = cp' := by simpa using hrun
  have hshows := hadd.shows cp.prog hmem
  have hnodup := hadd.nodup cp.prog hmem
  have hlt := hadd.item_lt cp.prog hmem
  refine ⟨_, _, hshows, hnodup, hlt, ?_, ?_⟩
  · simp only [update_self, Stk.append_code, List.length_append, attach_code_length,
      List.length_singleton]
  · show (m₂.stackAddInstHead cp.prog .opMatch).1.itemCount = _
    have hitems₁ : m₁.itemCount = cp.mem.itemCount := stackCat_items hcat
    have hitems : m₂.itemCount = m₁.itemCount := hitems₂
    rw [stackAddInstHead_items, hitems, hitems₁]

/-- The program holds what the stacks held, and the `match`. -/
theorem Holds.finish_items (h : Holds cp stk index) {lfix0 lfixn : Nat}
    (hrun : stage1End cp = .ok (.ir lfix0 lfixn cp')) :
    ∃ ids' s, Shows cp'.mem cp'.prog ids' s ∧ ids'.Nodup ∧ (∀ n ∈ ids', n < cp'.mem.itemCount) ∧
      s.code.length = total cp.stacks stk + 1 ∧ cp'.mem.itemCount = cp.mem.itemCount + 1 := by
  rcases h.layout with ⟨ids, hlay⟩
  have hflush := hlay.endFlush_iff
  have hin : cp.inCharc = false ∧ endGroups cp stk = [] := by
    have hfinish := h.finish
    rw [hrun] at hfinish
    generalize hresult : (Except.ok (Stage1.ir lfix0 lfixn cp') : Run Stage1) = result at hfinish
    cases hfinish with
    | eclass => cases hresult
    | eparen => cases hresult
    | ir m' groups ids' hcharc hgroups _ => exact ⟨hcharc, hgroups⟩
  -- a closed group is still waiting: it goes to the program first
  by_cases hend : endFlush cp stk
  · rcases (hlay.justClosed hend.1).1 with ⟨below, hg, ht⟩
    have hbelow : below = [] := by
      have := hin.2
      rw [endGroups, if_pos hend, hg] at this
      exact this
    rw [hbelow] at hg ht
    have hd := hlay.distinct
    rw [hg] at hd
    simp only [List.nodup_cons, List.mem_cons, List.not_mem_nil, or_false, not_or] at hd
    have hprogcap := hlay.uncapped cp.prog List.mem_cons_self hd.2.1
    rcases hlay.store.cat (Layout.prog_live cp) hlay.buf_live hd.2.1 hprogcap with
      ⟨m, hcat, hst, _⟩
    rw [stage1End_flush (hflush.mpr hend) hcat] at hrun
    have hcapped : (update stk cp.prog ((stk cp.prog).append (stk cp.buf).code)
        cp.prog).capped = false := by simpa using hprogcap
    have htail : cp.groups.tail = [] := by rw [hg]; rfl
    rcases endTail_items { cp with mem := m, groups := cp.groups.tail } hst
      ⟨Layout.prog_live cp, hd.2.1⟩ ⟨Layout.base_live cp, hd.1.2⟩ hlay.prog_ne_base hcapped ht hin.1
      htail hrun with ⟨ids', s, hshows, hnodup, hlt, hlen, hitems⟩
    refine ⟨ids', s, hshows, hnodup, hlt, ?_, ?_⟩
    · rw [hlen]
      simp only [Context.stacks, hg, total, update_self, Stk.append_code, List.length_append,
        update_of_ne hlay.prog_ne_base.symm, List.map_cons, List.map_nil, List.sum_cons,
        List.sum_nil]
      omega
    · rw [hitems]
      exact congrArg (· + 1) (stackCat_items hcat)
  -- nothing is waiting: the program and the base buffer are the two stacks
  · have hg : cp.groups = [] := by
      have := hin.2
      rwa [endGroups, if_neg hend] at this
    have htarget : cp.target = cp.prog := by
      cases hlay.place with
      | opened ht _ => rw [ht, hg]; rfl
      | closed g below hg' => rw [hg] at hg'; cases hg'
    have hbuf : cp.buf = cp.base := by
      have := hlay.buf_mem
      rw [hg] at this
      simpa using this
    have hprogcap := hlay.uncapped cp.prog List.mem_cons_self
      (by rw [hbuf]; exact hlay.prog_ne_base)
    rw [stage1End_noFlush fun hc => hend (hflush.mp hc)] at hrun
    rcases endTail_items cp hlay.store (Layout.prog_live cp) (Layout.base_live cp) hlay.prog_ne_base
      hprogcap htarget hin.1 hg hrun with ⟨ids', s, hshows, hnodup, hlt, hlen, hitems⟩
    refine ⟨ids', s, hshows, hnodup, hlt, ?_, hitems⟩
    rw [hlen]
    simp only [Context.stacks, hg, total, List.map_cons, List.map_nil, List.sum_cons, List.sum_nil]
    omega

/-- When `stage1` succeeds, `stage2` releases every item that was made, unless
the run comes to a repetition whose counts have wrapped round. -/
theorem stage2_releases_all {lfix0 lfixn : Nat} (h : stage1 g text = .ok (.ir lfix0 lfixn cp)) :
    ConsumedAll cp ↔ ∀ input cp₀, Visited g text input cp₀ → ¬ WrappedRep text cp₀ := by
  rcases stage1_ends g text with ⟨_, _, _, _, _, hrun⟩ | hrun | ⟨input, cpl, hvisit, hends⟩
  · cases h.symm.trans hrun
  · cases h.symm.trans hrun
  have heos : cpl.tok = .eos ∧ stage1End cpl = .ok (.ir lfix0 lfixn cp) := by
    rw [h] at hends
    generalize hresult : (Except.ok (Stage1.ir lfix0 lfixn cp) : Run Stage1) = result at hends
    cases hends with
    | lexError => cases hresult
    | stepError => cases hresult
    | stops => cases hresult
    | eos htok => exact ⟨htok, rfl⟩
  have hnot : ¬ WrappedRep text cpl := by
    intro hwrap
    rw [hwrap.2.1] at heos
    cases heos.1
  rcases hvisit.items (nextCtx_eos heos.1) hnot with ⟨stk, index, hholds, _, hiff⟩
  rcases hholds.finish_items heos.2 with ⟨ids, s, hshows, hnodup, hlt, hlen, hitems⟩
  rw [← hiff]
  have hcode := hshows.code_length
  constructor
  -- what is walked is as long as the program, so no item was lost
  · rintro ⟨ids', _, _, hsize, hperm⟩
    have hcount := hperm.length_eq
    rw [List.length_range, hsize, hshows.size_eq] at hcount
    omega
  · intro hbalanced
    refine ⟨ids, hshows.tail.symm, hshows.linked.walkable, hshows.size.symm,
      perm_range hnodup hlt ?_⟩
    omega

/-- The expression `(ab)+`. -/
theorem stage2_releases_all_group : ∃ lfix0 lfixn cp,
    stage1 Statics.init [40, 97, 98, 41, 43] = .ok (.ir lfix0 lfixn cp) ∧ ConsumedAll cp := by
  obtain ⟨lfix0, lfixn, cp, hrun⟩ : ∃ lfix0 lfixn cp,
      stage1 Statics.init [40, 97, 98, 41, 43] = .ok (.ir lfix0 lfixn cp) := ⟨_, _, _, rfl⟩
  refine ⟨lfix0, lfixn, cp, hrun, (stage2_releases_all hrun).mpr ?_⟩
  intro input cp hvisit
  rcases visited_iff.mp hvisit with ⟨n, hn⟩
  have hlast : ctxAt Statics.init [40, 97, 98, 41, 43] 6 = none := rfl
  have hall : ∀ n < 6, ∀ r ∈ ctxAt Statics.init [40, 97, 98, 41, 43] n,
      ¬ WrappedRep [40, 97, 98, 41, 43] r.2 := by decide +kernel
  exact hall n (lt_of_ctxAt hn hlast) _ hn

/-! ## stage1_err_cleanup -/

/-- Stacks of their own that hold all items are released once and for all. -/
theorem Owned.released_iff (h : Owned cp) : ReleasedAll cp ↔ cp.mem.itemCount = cp.held := by
  rcases h with ⟨hdistinct, ids, stk, hst⟩
  have hperm : (cleanupStacks cp).Perm cp.stacks := List.perm_append_comm
  have hlen : ((cleanupStacks cp).flatMap fun k => (ids k).reverse).length = cp.held := by
    rw [List.length_flatMap, Context.held, ← (hperm.map fun k => (cp.mem.stack k).size).sum_eq]
    refine congrArg List.sum (List.map_congr_left fun k hk => ?_)
    have hlive : k ∈ cp.live := mem_cleanupStacks.mp hk
    simp [(hst.shows k hlive).size]
  constructor
  -- the stacks hold as many items as there are
  · rintro ⟨walk, hwalk, hall⟩
    have hsame : (cleanupStacks cp).flatMap walk =
        (cleanupStacks cp).flatMap fun k => (ids k).reverse := by
      refine List.flatMap_congr fun k hk => ?_
      exact (hwalk k hk).unique (hst.shows k (mem_cleanupStacks.mp hk)).walk
    have hcount := hall.length_eq
    rw [List.length_range, hsame, hlen] at hcount
    exact hcount.symm
  · intro hcount
    -- no item is on two stacks, so as many as there are are all of them
    rcases released_of_walks ids hdistinct (fun k hk => (hst.shows k hk).walk) hst.nodup
      hst.disjoint with ⟨walk, hwalk, hnodup⟩
    have hsame : (cleanupStacks cp).flatMap walk =
        (cleanupStacks cp).flatMap fun k => (ids k).reverse := by
      refine List.flatMap_congr fun k hk => ?_
      exact (hwalk k hk).unique (hst.shows k (mem_cleanupStacks.mp hk)).walk
    refine ⟨walk, hwalk, perm_range hnodup ?_ ?_⟩
    · intro x hx
      rw [hsame] at hx
      rcases List.mem_flatMap.mp hx with ⟨k, hk, hx⟩
      exact hst.item_lt k (mem_cleanupStacks.mp hk) x (List.mem_reverse.mp hx)
    · rw [hsame, hlen, hcount]

theorem ReleasedOnce.metOnce (h : ReleasedOnce cp) : MetOnce cp := by
  rcases h with ⟨walk, hwalk, hnodup, _⟩
  exact ⟨walk, hwalk, hnodup⟩

theorem ReleasedAll.releasedOnce (h : ReleasedAll cp) : ReleasedOnce cp := by
  rcases h with ⟨walk, hwalk, hperm⟩
  refine ⟨walk, hwalk, hperm.nodup_iff.mpr List.nodup_range, ?_⟩
  intro n hn
  exact hperm.mem_iff.mpr (List.mem_range.mpr hn)

/-- On stacks that own their items there is nothing else to meet. -/
theorem Owned.releasedAll (h : Owned cp) (honce : ReleasedOnce cp) : ReleasedAll cp := by
  rcases h with ⟨_, ids, stk, hst⟩
  rcases honce with ⟨walk, hwalk, hnodup, hall⟩
  refine ⟨walk, hwalk, (List.perm_ext_iff_of_nodup hnodup List.nodup_range).mpr ?_⟩
  intro n
  rw [List.mem_range]
  constructor
  · intro hn
    rcases List.mem_flatMap.mp hn with ⟨k, hk, hmem⟩
    have hlive : k ∈ cp.live := mem_cleanupStacks.mp hk
    rw [(hwalk k hk).unique (hst.shows k hlive).walk] at hmem
    exact hst.item_lt k hlive n (List.mem_reverse.mp hmem)
  · exact hall n

/-- Where the operand is the first item, an operator that fails has moved
nothing. -/
theorem processOp_first (h : Layout cp cp.closing ids stk (some 0))
    (hres : opResult text cp ((stk cp.target).append ((stk cp.buf).code.take 0))
      ((stk cp.buf).code.drop 0) = none) : processOp text cp = .ok (some .badop, cp) := by
  rcases h.walk with ⟨m', hwalk, hmoving, hoper, _⟩
  have hstart : walkToOperand cp.target cp.operand (cp.mem.itemCount + 1) cp.mem
      cp.bufStack.tail cp.bufStack.size = .ok (cp.mem, cp.bufStack.size) := by
    have htail : cp.bufStack.tail = (ids cp.buf).head? := (h.store.shows _ h.buf_live).tail
    rw [walkToOperand, if_pos (by rw [htail, hoper]; rfl)]
  obtain ⟨rfl, hsize⟩ : cp.mem = m' ∧ cp.bufStack.size = _ := by
    rw [hstart] at hwalk
    exact Prod.mk.inj (Except.ok.inj hwalk)
  have hswitch : Switched text _ _ _ _ _ := hmoving.switch
  have hnone : opResult text { cp with mem := cp.mem } (update stk cp.target
      ((stk cp.target).append ((stk cp.buf).code.take 0)) cp.target)
      ((stk cp.buf).code.drop 0) = none := by
    rw [update_self]
    exact hres
  simp only [hnone] at hswitch
  rw [← hoper] at hswitch
  have hrun := processOp_switch h.head_ne_none hwalk hswitch
  rw [if_neg (by simp)] at hrun
  exact hrun

/-- An operand behind others is not the tail of the buffer. -/
theorem Layout.operand_ne_tail {closing : Bool} {i : Nat} (h : Layout cp closing ids stk (some i))
    (hi : i ≠ 0) : cp.operand ≠ cp.bufStack.tail := by
  rcases h.located.found i rfl with ⟨n, hn, hget⟩
  have htail : cp.bufStack.tail = (ids cp.buf).head? := (h.store.shows _ h.buf_live).tail
  rw [hn, htail, List.head?_eq_getElem?]
  intro hsame
  have hlt := (List.getElem?_eq_some_iff.mp hget).1
  have hindex := (List.getElem?_inj (by omega) (h.store.nodup _ h.buf_live)).mp
    (hsame.symm.trans hget.symm)
  exact hi hindex.symm

/-- A refusal inside a class. -/
theorem charcState_refuses {e : Err} (h : stage1CharcState text cp = .ok (some e, cp')) :
    cp' = cp := by
  unfold stage1CharcState at h
  split at h
  · split at h <;> cases h
  · cases hexp : expandCharRange text cp with
    | error s =>
        rw [hexp] at h
        cases h
    | ok cp₁ =>
        rw [hexp] at h
        cases h
  · cases h
  · cases h
    rfl

/-- A refusal outside a class, of a token that is no operator: at most a
closed group has been flushed. -/
theorem mainState_refuses {e : Err} (h : Layout cp cp.closing ids stk index)
    (hop : cp.tok.isop = false) (hrun : stage1MainState text cp = .ok (some e, cp')) :
    Owned cp' ∧ cp'.mem.itemCount = cp.mem.itemCount ∧ cp'.held = total cp.stacks stk := by
  rcases h.flushed with ⟨cp₁, ids₁, stk₁, index₁, hflush, hcase, hlay₁⟩
  rcases hcase.frame with ⟨m₁, groups₁, buf₁, hcp₁⟩
  have hstat : Layout { cp₁ with statics := mainStatics cp } false ids₁ stk₁ index₁ :=
    hlay₁.control _ rfl
  have hflushed : ∀ c, c = { cp₁ with statics := mainStatics cp } →
      Owned c ∧ c.mem.itemCount = cp.mem.itemCount ∧ c.held = total cp.stacks stk := by
    rintro c rfl
    have hitems : cp₁.mem.itemCount = cp.mem.itemCount := flushGroup_items hflush
    exact ⟨hstat.owned, hitems, hstat.held.trans (hcase.total h)⟩
  by_cases hlp : cp.tok = .lparen
  · rw [stage1MainState_lparen hlp hflush hcp₁] at hrun
    cases hopen : openGroup { cp₁ with statics := mainStatics cp } with
    | error s =>
        rw [hopen] at hrun
        cases hrun
    | ok cp₂ =>
        rw [hopen] at hrun
        cases hrun
  by_cases hrp : cp.tok = .rparen
  · rw [stage1MainState_rparen hrp hflush hcp₁] at hrun
    -- a `)` without a group is refused behind the flush
    unfold closeGroup at hrun
    split at hrun
    · cases hrun
      exact hflushed _ rfl
    · cases hcat : ({ cp₁ with statics := mainStatics cp } : Context).mem.stackCat
          ({ cp₁ with statics := mainStatics cp } : Context).target
          ({ cp₁ with statics := mainStatics cp } : Context).base with
      | error s =>
          rw [hcat] at hrun
          cases hrun
      | ok m =>
          rw [hcat] at hrun
          cases hrun
  by_cases hclose : cp.tok = .charcClose
  -- `]` outside a class, also behind the flush
  · rw [stage1MainState_charcClose hclose hflush hcp₁] at hrun
    cases hrun
    exact hflushed _ rfl
  · rw [stage1MainState_plain hop hflush hcp₁ ⟨hlp, hrp⟩ hclose] at hrun
    cases hrun

/-- A turn that is refused leaves the items on the stacks. -/
theorem stepError_held {e : Err} (hlay : Layout cp cp.closing ids stk index)
    (hstep : stage1Step text cp = .ok (some e, cp')) (hzero : ¬ ZeroRepBehind text cp) :
    Owned cp' ∧ cp'.mem.itemCount = cp.mem.itemCount ∧ cp'.held = total cp.stacks stk := by
  have hsame : cp' = cp →
      Owned cp' ∧ cp'.mem.itemCount = cp.mem.itemCount ∧ cp'.held = total cp.stacks stk := by
    rintro rfl
    exact ⟨hlay.owned, rfl, hlay.held⟩
  cases hin : cp.inCharc with
  | true =>
      rw [stage1Step_charc hin] at hstep
      -- a class is refused before it has an item
      exact hsame (charcState_refuses hstep)
  | false =>
      cases hop : cp.tok.isop with
      | false =>
          rw [stage1Step_main hin] at hstep
          exact mainState_refuses hlay hop hstep
      | true =>
          rw [stage1Step_op hin hop] at hstep
          -- an operator: the buffer is empty, has no operand, or has one at `i`
          by_cases hbuf : (stk cp.buf).code = []
          · have hrun := processOp_empty text hlay hbuf
            by_cases htok : cp.tok = .alt
            · rw [if_pos htok] at hrun
              rcases hrun with ⟨_, _, _, _, hrun, _⟩
              cases hstep.symm.trans hrun
            · rw [if_neg htok] at hrun
              cases hstep.symm.trans hrun
              exact hsame rfl
          · cases hindex : index with
            | none =>
                rw [hindex] at hlay
                cases hstep.symm.trans (processOp_missing hlay hbuf)
            | some i =>
                subst hindex
                have hfound := processOp_found text hlay
                cases hres : opResult text cp ((stk cp.target).append ((stk cp.buf).code.take i))
                    ((stk cp.buf).code.drop i) with
                | some s =>
                    rw [hres] at hfound
                    rcases hfound with ⟨_, _, _, _, hrun, _⟩
                    cases hstep.symm.trans hrun
                | none =>
                    -- the operand is the first item, or the repetition is one of zero times
                    by_cases hi : i = 0
                    · subst hi
                      cases hstep.symm.trans (processOp_first hlay hres)
                      exact hsame rfl
                    · rcases opResult_eq_none_iff.mp hres with ⟨htok, hbad⟩
                      exact absurd ⟨hin, htok, hbad, hlay.head_ne_none, hlay.operand_ne_tail hi⟩
                        hzero

/-- A repetition whose counts have wrapped round is not refused. -/
theorem WrappedRep.not_refused {e : Err} (h : WrappedRep text cp)
    (hlay : Layout cp cp.closing ids stk index) : stage1Step text cp ≠ .ok (some e, cp') := by
  rcases h with ⟨hmain, htok, hrep, hhead⟩
  rw [stage1Step_op hmain (by rw [htok]; rfl)]
  intro hstep
  have hbuf : (stk cp.buf).code ≠ [] := fun hnil =>
    hhead ((hlay.store.shows _ hlay.buf_live).head_none_iff.mpr hnil)
  cases hindex : index with
  | none =>
      rw [hindex] at hlay
      cases hstep.symm.trans (processOp_missing hlay hbuf)
  | some i =>
      subst hindex
      have hfound := processOp_found text hlay
      have hres : opResult text cp ((stk cp.target).append ((stk cp.buf).code.take i))
          ((stk cp.buf).code.drop i) =
          some (((stk cp.target).append ((stk cp.buf).code.take i)).append []) := by
        simp only [opResult, htok, repCode_none hrep, Option.map_some]
      rw [hres] at hfound
      rcases hfound with ⟨_, _, _, _, hrun, _⟩
      cases hstep.symm.trans hrun

/-- The end of the input, in a class or a group. -/
theorem stage1End_held {e : Err} (h : Holds cp stk index)
    (hrun : stage1End cp = .ok (.fail e cp')) :
    Owned cp' ∧ cp'.mem.itemCount = cp.mem.itemCount ∧ cp'.held = total cp.stacks stk := by
  rcases h.layout with ⟨ids, hlay⟩
  have hflush := hlay.endFlush_iff
  have howned : Owned cp' := by
    have hfinish := h.finish
    rw [hrun] at hfinish
    generalize hresult : (Except.ok (Stage1.fail e cp') : Run Stage1) = result at hfinish
    cases hfinish with
    | eclass cp'' _ howned =>
        obtain ⟨-, rfl⟩ : e = .eclass ∧ cp' = cp'' := by simpa using hresult
        exact howned
    | eparen cp'' _ _ howned =>
        obtain ⟨-, rfl⟩ : e = .eparen ∧ cp' = cp'' := by simpa using hresult
        exact howned
    | ir => cases hresult
  refine ⟨howned, ?_⟩
  -- neither error of the end of the input touches a stack
  have htail : ∀ {c : Context}, endTail c = .ok (.fail e cp') → cp' = c := by
    intro c hc
    by_cases hin : c.inCharc = true
    · rw [endTail_eclass hin] at hc
      cases hc
      rfl
    · have hin' : c.inCharc = false := by simpa using hin
      by_cases hg : c.groups = []
      · unfold endTail at hc
        rw [if_neg hin, if_neg (not_not.mpr hg)] at hc
        cases hcat : c.lfixStop.mem.stackCat c.lfixStop.prog c.lfixStop.base with
        | error s =>
            simp only [hcat, bind, Except.bind] at hc
            cases hc
        | ok m =>
            simp only [hcat, bind, Except.bind] at hc
            split at hc <;> cases hc
      · rw [endTail_eparen hin' hg] at hc
        cases hc
        rfl
  by_cases hend : endFlush cp stk
  · rcases (hlay.justClosed hend.1).1 with ⟨below, hg, ht⟩
    have hd := hlay.distinct
    rw [hg] at hd
    simp only [List.nodup_cons, List.mem_cons, not_or] at hd
    have hprogcap := hlay.uncapped cp.prog List.mem_cons_self hd.2.1.1
    rcases hlay.store.cat (Layout.prog_live cp) hlay.buf_live hd.2.1.1 hprogcap with
      ⟨m, hcat, hst, hframe⟩
    rw [stage1End_flush (hflush.mpr hend) hcat] at hrun
    obtain rfl := htail hrun
    refine ⟨hframe.itemCount, ?_⟩
    -- the buffer that was put behind the program is no stack of its own any more
    have hlive : ({ cp with mem := m, groups := cp.groups.tail } : Context).live ⊆
        cp.live \ {cp.buf} := by
      intro k hk
      have hk' : k ∈ cp.base :: cp.prog :: below := by
        have : k ∈ cp.base :: cp.prog :: cp.groups.tail := hk
        rwa [hg] at this
      refine ⟨?_, ?_⟩
      · show k ∈ cp.base :: cp.prog :: cp.groups
        rw [hg]
        simp only [List.mem_cons] at hk' ⊢
        tauto
      · rintro rfl
        simp only [List.mem_cons] at hk'
        rcases hk' with e | e | e
        · exact hd.1.2.1 e.symm
        · exact hd.2.1.1 e.symm
        · exact hd.2.2.1 e
    have hheld := Store.held { cp with mem := m, groups := cp.groups.tail } hst hlive
    have hpop := total_pop stk hg hlay.distinct
      (List.mem_cons_of_mem cp.base List.mem_cons_self)
      ((stk cp.prog).append (stk cp.buf).code)
    simp only [Stk.append_code, List.length_append] at hpop
    rw [hheld]
    show total (cp.base :: cp.prog :: cp.groups.tail) _ = _
    rw [hg, List.tail_cons]
    omega
  · rw [stage1End_noFlush fun hc => hend (hflush.mp hc)] at hrun
    obtain rfl := htail hrun
    exact ⟨rfl, hlay.held⟩

/-- The last turn of a run that fails: the stacks the cleanup is given. -/
theorem stage1_fails {e : Err} (h : stage1 g text = .ok (.fail e cp))
    (hzero : ∀ input cp₀, Visited g text input cp₀ → ¬ ZeroRepBehind text cp₀) :
    Owned cp ∧ (cp.mem.itemCount = cp.held ↔
      ∀ input cp₀, Visited g text input cp₀ → ¬ WrappedRep text cp₀) := by
  rcases stage1_ends g text with ⟨_, _, _, _, _, hrun⟩ | hrun | ⟨input, cpl, hvisit, hends⟩
  · cases h.symm.trans hrun
  · cases h.symm.trans hrun
  -- the context of the last turn has what the cleanup is given
  have hfrom : nextCtx text (input, cpl) = none → ¬ WrappedRep text cpl →
      (∀ stk index, Holds cpl stk index → Owned cp ∧ cp.mem.itemCount = cpl.mem.itemCount ∧
        cp.held = total cpl.stacks stk) →
      Owned cp ∧ (cp.mem.itemCount = cp.held ↔
        ∀ input cp₀, Visited g text input cp₀ → ¬ WrappedRep text cp₀) := by
    intro hlast hnot hkept
    rcases hvisit.items hlast hnot with ⟨stk, index, hholds, _, hiff⟩
    rcases hkept stk index hholds with ⟨howned, hitems, hheld⟩
    rw [hitems, hheld]
    exact ⟨howned, hiff⟩
  rw [h] at hends
  generalize hresult : (Except.ok (Stage1.fail e cp) : Run Stage1) = result at hends
  cases hends with
  | lexError e' htok =>
      obtain ⟨-, rfl⟩ : e = e' ∧ cp = cpl := by simpa using hresult
      -- an error of the lexer: the context is left as it is
      refine hfrom (by simp [nextCtx, htok]) (fun hwrap => ?_) ?_
      · rw [hwrap.2.1] at htok
        cases htok
      · intro stk index hholds
        rcases hholds.layout with ⟨ids, hlay⟩
        exact ⟨hlay.owned, rfl, hlay.held⟩
  | stepError e' cp' herr heos hstep =>
      obtain ⟨-, rfl⟩ : e = e' ∧ cp = cp' := by simpa using hresult
      have hlast : nextCtx text (input, cpl) = none := by
        cases hnext : nextCtx text (input, cpl) with
        | none => rfl
        | some r =>
            rcases nextCtx_eq_some.mp hnext with ⟨_, _, _, hstep', _⟩
            cases hstep.symm.trans hstep'
      -- an error of the turn
      refine hfrom hlast (fun hwrap => ?_) ?_
      · rcases hvisit.wellMade with ⟨stk, index, hholds, _⟩
        rcases hholds.layout with ⟨ids, hlay⟩
        exact hwrap.not_refused hlay hstep
      · intro stk index hholds
        rcases hholds.layout with ⟨ids, hlay⟩
        exact stepError_held hlay hstep (hzero _ _ hvisit)
  | stops => cases hresult
  | eos htok =>
      -- an error at the end of the input
      refine hfrom (nextCtx_eos htok) (fun hwrap => ?_) ?_
      · rw [hwrap.2.1] at htok
        cases htok
      · intro stk index hholds
        exact stage1End_held hholds hresult.symm

/-- What the cleanup is given, where no repetition of zero times came behind
other items: it releases all unless some item was lost before. -/
theorem stage1_fails_released {e : Err} (h : stage1 g text = .ok (.fail e cp))
    (hzero : ∀ input cp₀, Visited g text input cp₀ → ¬ ZeroRepBehind text cp₀) :
    ReleasedAll cp ↔ ∀ input cp₀, Visited g text input cp₀ → ¬ WrappedRep text cp₀ := by
  rcases stage1_fails h hzero with ⟨howned, hiff⟩
  exact howned.released_iff.trans hiff

/-- When `stage1` fails, `stage1_err_cleanup` releases every item exactly once,
unless the run comes to a repetition of zero times whose operand is not the first
item of the buffer, or to one whose counts have wrapped round. -/
theorem cleanup_releases_once {e : Err} (h : stage1 g text = .ok (.fail e cp)) :
    ReleasedOnce cp ↔ ∀ input cp₀, Visited g text input cp₀ →
      ¬ ZeroRepBehind text cp₀ ∧ ¬ WrappedRep text cp₀ := by
  constructor
  · intro honce
    have hzero := (cleanup_meets_once h).mp honce.metOnce
    have hall := (stage1_fails h hzero).1.releasedAll honce
    intro input cp₀ hvisit
    exact ⟨hzero input cp₀ hvisit, (stage1_fails_released h hzero).mp hall input cp₀ hvisit⟩
  · intro hvisits
    have hzero := fun input cp₀ hvisit => (hvisits input cp₀ hvisit).1
    apply ReleasedAll.releasedOnce
    apply (stage1_fails_released h hzero).mpr
    exact fun input cp₀ hvisit => (hvisits input cp₀ hvisit).2

/-- The expression `a{0}`: the operand is the first item of the buffer. -/
theorem cleanup_releases_once_first : ∃ cp,
    stage1 Statics.init [97, 123, 48, 125] = .ok (.fail .badop cp) ∧ ReleasedOnce cp := by
  obtain ⟨cp, hfail⟩ : ∃ cp, stage1 Statics.init [97, 123, 48, 125] = .ok (.fail .badop cp) :=
    ⟨_, rfl⟩
  refine ⟨cp, hfail, (cleanup_releases_once hfail).mpr ?_⟩
  intro input cp hvisit
  rcases visited_iff.mp hvisit with ⟨n, hn⟩
  have hlast : ctxAt Statics.init [97, 123, 48, 125] 1 = none := rfl
  have hzero : n = 0 := Nat.lt_one_iff.mp (lt_of_ctxAt hn hlast)
  have hall : ∀ r ∈ ctxAt Statics.init [97, 123, 48, 125] 0,
      ¬ ZeroRepBehind [97, 123, 48, 125] r.2 ∧ ¬ WrappedRep [97, 123, 48, 125] r.2 := by decide
  rw [hzero] at hn
  exact hall _ hn

/-- The expression `ab{0}`: the item of `b` still points to that of `a`, which
is on the target. -/
theorem cleanup_releases_twice : ∃ cp,
    stage1 Statics.init [97, 98, 123, 48, 125] = .ok (.fail .badop cp) ∧ ¬ ReleasedOnce cp := by
  obtain ⟨⟨input, cp⟩, hctx⟩ :=
    Option.isSome_iff_exists.mp
      (show (ctxAt Statics.init [97, 98, 123, 48, 125] 0).isSome = true by decide)
  have hall : ∀ r ∈ ctxAt Statics.init [97, 98, 123, 48, 125] 0,
      ZeroRepBehind [97, 98, 123, 48, 125] r.2 := by decide
  obtain ⟨cp', hfail⟩ : ∃ cp',
      stage1 Statics.init [97, 98, 123, 48, 125] = .ok (.fail .badop cp') := ⟨_, rfl⟩
  refine ⟨cp', hfail, ?_⟩
  intro honce
  exact (hall _ hctx).not_metOnce hfail (visited_iff.mpr ⟨0, hctx⟩) honce.metOnce

/-- When `stage1` fails, there are two ways to go wrong, and no other: an item is
released twice exactly if the run comes to a repetition of zero times behind other
items, and where none is, the items released are all that were made exactly if no
repetition had counts that have wrapped round. -/
theorem cleanup_releases_all {e : Err} (h : stage1 g text = .ok (.fail e cp)) :
    (MetOnce cp ↔ ∀ input cp₀, Visited g text input cp₀ → ¬ ZeroRepBehind text cp₀) ∧
    (MetOnce cp → (ReleasedAll cp ↔
      ∀ input cp₀, Visited g text input cp₀ → ¬ WrappedRep text cp₀)) ∧
    (ReleasedAll cp ↔ ∀ input cp₀, Visited g text input cp₀ →
      ¬ ZeroRepBehind text cp₀ ∧ ¬ WrappedRep text cp₀) := by
  refine ⟨cleanup_meets_once h, ?_, ?_⟩
  · intro hmet
    exact stage1_fails_released h ((cleanup_meets_once h).mp hmet)
  constructor
  · intro hall input cp₀ hvisit
    have hzero := (cleanup_meets_once h).mp hall.releasedOnce.metOnce
    exact ⟨hzero input cp₀ hvisit, (stage1_fails_released h hzero).mp hall input cp₀ hvisit⟩
  · intro hvisits
    apply (stage1_fails_released h fun input cp₀ hvisit => (hvisits input cp₀ hvisit).1).mpr
    exact fun input cp₀ hvisit => (hvisits input cp₀ hvisit).2

/-- The expression `a(b`. -/
theorem cleanup_releases_all_open : ∃ cp,
    stage1 Statics.init [97, 40, 98] = .ok (.fail .eparen cp) ∧ ReleasedAll cp := by
  obtain ⟨cp, hfail⟩ : ∃ cp, stage1 Statics.init [97, 40, 98] = .ok (.fail .eparen cp) :=
    ⟨_, rfl⟩
  refine ⟨cp, hfail, (cleanup_releases_all hfail).2.2.mpr ?_⟩
  intro input cp hvisit
  rcases visited_iff.mp hvisit with ⟨n, hn⟩
  have hlast : ctxAt Statics.init [97, 40, 98] 3 = none := rfl
  have hall : ∀ n < 3, ∀ r ∈ ctxAt Statics.init [97, 40, 98] n,
      ¬ ZeroRepBehind [97, 40, 98] r.2 ∧ ¬ WrappedRep [97, 40, 98] r.2 := by decide +kernel
  exact hall n (lt_of_ctxAt hn hlast) _ hn

end

end Rxvm
