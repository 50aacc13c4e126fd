import Rxvm.Table

/-!
# Rxvm.TableSpec — the thread lists inside their table

`TableThreads.view` reads the two lists and the two lookup tables out of the
table. Each step of `vm_execute` on the table is the step on the lists, as long
as the offsets are those of the four parts (`Placed`) and the lists are `Sound`.
-/

namespace Rxvm

open Function Threads

/-! ## Reading the table -/

/-- The list at an offset. -/
def Table.list (t : Table) (list n : Nat) : List Nat :=
  (List.range n).map fun i => t.ints (list + intSize * i)

/-- The lookup table at an offset. -/
def Table.marks (t : Table) (lookup : Nat) (v : Nat) : Bool :=
  decide (v < t.size ∧ t.bytes (lookup + v) ≠ 0)

/-- The threads, with the lists and lookup tables in place of their addresses. -/
def TableThreads.view (tm : TableThreads) : Threads :=
  { chars := tm.chars
    matchStart := tm.matchStart
    matchEnd := tm.matchEnd
    cp := tm.table.list tm.cp tm.csize
    np := tm.table.list tm.np tm.nsize
    cpLookup := tm.table.marks tm.cpLookup
    npLookup := tm.table.marks tm.npLookup
    endchar := tm.endchar
    lastinput := tm.lastinput
    icase := tm.icase
    nongreedy := tm.nongreedy
    multiline := tm.multiline
    search := tm.search }

/-- The offset of one of the two lists. -/
def IsList (size list : Nat) : Prop := list = 0 ∨ list = intSize * size

/-- The offset of one of the two lookup tables. -/
def IsLookup (size lookup : Nat) : Prop :=
  lookup = intSize * size * 2 ∨ lookup = intSize * size * 2 + size

/-- The four addresses are those of the four parts of the table. -/
structure Placed (size : Nat) (tm : TableThreads) : Prop where
  allocated : tm.table.size = size
  cp : IsList size tm.cp
  np : IsList size tm.np
  lists : tm.cp ≠ tm.np
  cpLookup : IsLookup size tm.cpLookup
  npLookup : IsLookup size tm.npLookup
  lookups : tm.cpLookup ≠ tm.npLookup

/-- Both lists are without repetitions, marked in their lookup tables, and
inside the program. -/
structure Sound (size : Nat) (tm : Threads) : Prop where
  curr : Marked tm.cp tm.cpLookup
  next : Marked tm.np tm.npLookup
  curr_lt : ∀ v ∈ tm.cp, v < size
  next_lt : ∀ v ∈ tm.np, v < size

section

variable {t t' : Table} {size list lookup n v : Nat}

@[simp] theorem Table.list_length (t : Table) (list n : Nat) : (t.list list n).length = n := by
  simp [Table.list]

theorem Table.list_succ (t : Table) (list n : Nat) :
    t.list list (n + 1) = t.list list n ++ [t.ints (list + intSize * n)] := by
  simp [Table.list, List.range_succ]

theorem Table.mem_list : v ∈ t.list list n ↔ ∃ i < n, t.ints (list + intSize * i) = v := by
  simp [Table.list]

/-- A list is as it was where its cells are. -/
theorem Table.list_congr (h : ∀ i < n, t'.ints (list + intSize * i) = t.ints (list + intSize * i)) :
    t'.list list n = t.list list n := by
  apply List.map_congr_left
  intro i hi
  exact h i (List.mem_range.mp hi)

theorem Table.marks_congr (hsize : t'.size = t.size)
    (h : ∀ v < t.size, t'.bytes (lookup + v) = t.bytes (lookup + v)) :
    t'.marks lookup = t.marks lookup := by
  funext v
  unfold Table.marks
  rw [hsize]
  by_cases hv : v < t.size
  · rw [h v hv]
  · simp [hv]

theorem Table.marks_eq (hv : v < t.size) : t.marks lookup v = decide (t.bytes (lookup + v) ≠ 0) := by
  simp [Table.marks, hv]

/-- The cells of the lists are in the table. -/
theorem IsList.hasInt (h : IsList t.size list) (hn : n < t.size) : t.HasInt (list + intSize * n) := by
  have h4 : intSize = 4 := rfl
  constructor
  · rcases h with rfl | rfl
    · rw [Nat.zero_add]
      exact Nat.dvd_mul_right _ _
    · exact Nat.dvd_add (Nat.dvd_mul_right _ _) (Nat.dvd_mul_right _ _)
  · rcases h with rfl | rfl
    · rw [h4]
      omega
    · rw [h4]
      omega

theorem IsLookup.hasByte (h : IsLookup t.size lookup) (hv : v < t.size) :
    t.HasByte (lookup + v) := by
  have h4 : intSize = 4 := rfl
  constructor
  · rcases h with rfl | rfl <;> omega
  · unfold vmTableSize
    rcases h with rfl | rfl
    · rw [h4]
      omega
    · rw [h4]
      omega

/-- Cells of different lists are different. -/
theorem IsList.cell_ne {list' i j : Nat} (h : IsList size list) (h' : IsList size list')
    (hne : list ≠ list') (hi : i < size) (hj : j < size) :
    list + intSize * i ≠ list' + intSize * j := by
  have h4 : intSize = 4 := rfl
  rcases h with h | h <;> rcases h' with h' | h' <;> simp only [h4] at h h' ⊢ <;> omega

theorem IsLookup.cell_ne {lookup' v w : Nat} (h : IsLookup size lookup)
    (h' : IsLookup size lookup') (hne : lookup ≠ lookup') (hv : v < size) (hw : w < size) :
    lookup + v ≠ lookup' + w := by
  rcases h with rfl | rfl <;> rcases h' with rfl | rfl <;> omega

/-! ## add_thread -/

/-- What `add_thread` leaves alone: the other list and the other lookup table. -/
structure Elsewhere (size list lookup : Nat) (t t' : Table) : Prop where
  allocated : t'.size = t.size
  others : ∀ list' n, IsList size list' → list ≠ list' → n ≤ size → t'.list list' n = t.list list' n
  otherMarks : ∀ lookup', IsLookup size lookup' → lookup ≠ lookup' → t'.marks lookup' = t.marks lookup'

theorem Elsewhere.refl (size list lookup : Nat) (t : Table) : Elsewhere size list lookup t t :=
  ⟨rfl, fun _ _ _ _ _ => rfl, fun _ _ _ => rfl⟩

/-- The list and the lookup table behind `add_thread`. -/
structure Added (t : Table) (list lookup n v : Nat) (t' : Table) (n' : Nat) : Prop where
  list : t'.list list n' =
    if t.marks lookup v then t.list list n else t.list list n ++ [v]
  marks : t'.marks lookup =
    if t.marks lookup v then t.marks lookup else update (t.marks lookup) v true

/-- `add_thread` stays inside the table: a list with an unmarked index has
fewer entries than there are instructions. -/
theorem Table.addThread_eq (hlist : IsList t.size list) (hlookup : IsLookup t.size lookup)
    (hv : v < t.size) (hmarked : Marked (t.list list n) (t.marks lookup))
    (hlt : ∀ w ∈ t.list list n, w < t.size) :
    ∃ t' n', t.addThread list lookup n v = some (t', n') ∧ Added t list lookup n v t' n' ∧
      Elsewhere t.size list lookup t t' := by
  have hbyte := hlookup.hasByte hv
  have hread : t.readByte (lookup + v) = some (t.bytes (lookup + v)) := if_pos hbyte
  unfold Table.addThread
  rw [hread]
  show ∃ t' n', (if t.bytes (lookup + v) = 0 then _ else _) = some (t', n') ∧ _
  by_cases hzero : t.bytes (lookup + v) = 0
  swap
  · -- the index is listed already
    have hmark : t.marks lookup v = true := by
      rw [Table.marks_eq hv]
      exact decide_eq_true hzero
    rw [if_neg hzero]
    refine ⟨t, n, rfl, ⟨?_, ?_⟩, .refl _ _ _ _⟩
    · rw [if_pos hmark]
    · rw [if_pos hmark]
  have hmark : t.marks lookup v = false := by
    rw [Table.marks_eq hv]
    exact decide_eq_false (not_not.mpr hzero)
  -- there is a cell left
  have hroom : n < t.size := by
    have hle := (hmarked.concat hmark).length_le (n := t.size) (by
      intro w hw
      rcases List.mem_append.mp hw with hw | hw
      · exact hlt w hw
      · rw [List.mem_singleton.mp hw]
        exact hv)
    rw [List.length_append, Table.list_length, List.length_singleton] at hle
    omega
  have hint := hlist.hasInt hroom
  have hwrite : t.writeByte (lookup + v) 1 =
      some { t with bytes := update t.bytes (lookup + v) 1 } := if_pos hbyte
  have hstore : Table.writeInt { t with bytes := update t.bytes (lookup + v) 1 }
      (list + intSize * n) v =
      some { t with
        bytes := update t.bytes (lookup + v) 1
        ints := update t.ints (list + intSize * n) v } := if_pos hint
  rw [if_pos hzero, hwrite]
  show ∃ t' n', (Table.writeInt _ _ _ >>= _) = some (t', n') ∧ _
  rw [hstore]
  refine ⟨_, n + 1, rfl, ⟨?_, ?_⟩, rfl, ?_, ?_⟩
  · simp only [hmark, Bool.false_eq_true, if_false]
    rw [Table.list_succ]
    congr 1
    · apply Table.list_congr
      intro i hi
      have h4 : intSize = 4 := rfl
      refine update_of_ne ?_ _ _
      rw [h4]
      omega
    · simp
  · simp only [hmark, Bool.false_eq_true, if_false]
    funext w
    by_cases hw : w = v
    · subst hw
      rw [update_self]
      unfold Table.marks
      exact decide_eq_true ⟨hv, by simp⟩
    · have hcell : lookup + w ≠ lookup + v := by omega
      simp only [Table.marks, update_of_ne hw, update_of_ne hcell]
  · intro list' m hlist' hne hm
    apply Table.list_congr
    intro i hi
    exact update_of_ne (hlist'.cell_ne hlist hne.symm (by omega) hroom) _ _
  · intro lookup' hlookup' hne
    refine Table.marks_congr rfl ?_
    intro w hw
    exact update_of_ne (hlookup'.cell_ne hlookup hne.symm hw hv) _ _

end

/-! ## The two lists -/

section

variable {tm : TableThreads} {size v : Nat}

theorem Sound.csize_le (h : Sound size tm.view) : tm.csize ≤ size := by
  have hle := h.curr.length_le h.curr_lt
  rwa [show tm.view.cp.length = tm.csize from Table.list_length _ _ _] at hle

theorem Sound.nsize_le (h : Sound size tm.view) : tm.nsize ≤ size := by
  have hle := h.next.length_le h.next_lt
  rwa [show tm.view.np.length = tm.nsize from Table.list_length _ _ _] at hle

/-- A step on the table that is a step on the lists. -/
structure Follows (size : Nat) (tm' : TableThreads) (view : Threads) : Prop where
  view : tm'.view = view
  placed : Placed size tm'

theorem TableThreads.addThreadCurr_view (hp : Placed size tm) (hs : Sound size tm.view)
    (hv : v < size) :
    ∃ tm', tm.addThreadCurr v = some tm' ∧ Follows size tm' (tm.view.addThreadCurr v) := by
  obtain rfl := hp.allocated
  rcases Table.addThread_eq hp.cp hp.cpLookup hv hs.curr hs.curr_lt with
    ⟨t', n', hrun, hadded, helse⟩
  refine ⟨{ tm with table := t', csize := n' }, ?_, ?_, ?_⟩
  · unfold TableThreads.addThreadCurr
    rw [hrun]
    rfl
  -- the list of the next position and its marks are elsewhere in the allocation
  · have hnp := helse.others tm.np tm.nsize hp.np hp.lists hs.nsize_le
    have hnl := helse.otherMarks tm.npLookup hp.npLookup hp.lookups
    have hlist := hadded.list
    have hmarks := hadded.marks
    unfold Threads.addThreadCurr
    show ({ tm.view with
      cp := t'.list tm.cp n'
      cpLookup := t'.marks tm.cpLookup
      np := t'.list tm.np tm.nsize
      npLookup := t'.marks tm.npLookup } : Threads) = _
    rw [hnp, hnl, hlist, hmarks]
    by_cases hmark : tm.table.marks tm.cpLookup v = true
    · rw [if_pos hmark, if_pos hmark, if_pos (show tm.view.cpLookup v = true from hmark)]
      rfl
    · rw [if_neg hmark, if_neg hmark, if_neg (show ¬ tm.view.cpLookup v = true from hmark)]
      rfl
  · exact ⟨helse.allocated, hp.cp, hp.np, hp.lists, hp.cpLookup, hp.npLookup, hp.lookups⟩

theorem TableThreads.addThreadNext_view (hp : Placed size tm) (hs : Sound size tm.view)
    (hv : v < size) :
    ∃ tm', tm.addThreadNext v = some tm' ∧ Follows size tm' (tm.view.addThreadNext v) := by
  obtain rfl := hp.allocated
  rcases Table.addThread_eq hp.np hp.npLookup hv hs.next hs.next_lt with
    ⟨t', n', hrun, hadded, helse⟩
  refine ⟨{ tm with table := t', nsize := n' }, ?_, ?_, ?_⟩
  · unfold TableThreads.addThreadNext
    rw [hrun]
    rfl
  -- the same with the two lists exchanged
  · have hcp := helse.others tm.cp tm.csize hp.cp hp.lists.symm hs.csize_le
    have hcl := helse.otherMarks tm.cpLookup hp.cpLookup hp.lookups.symm
    have hlist := hadded.list
    have hmarks := hadded.marks
    unfold Threads.addThreadNext
    show ({ tm.view with
      np := t'.list tm.np n'
      npLookup := t'.marks tm.npLookup
      cp := t'.list tm.cp tm.csize
      cpLookup := t'.marks tm.cpLookup } : Threads) = _
    rw [hcp, hcl, hlist, hmarks]
    by_cases hmark : tm.table.marks tm.npLookup v = true
    · rw [if_pos hmark, if_pos hmark, if_pos (show tm.view.npLookup v = true from hmark)]
      rfl
    · rw [if_neg hmark, if_neg hmark, if_neg (show ¬ tm.view.npLookup v = true from hmark)]
      rfl
  · exact ⟨helse.allocated, hp.cp, hp.np, hp.lists, hp.cpLookup, hp.npLookup, hp.lookups⟩

/-! ## The switch -/

theorem Sound.addThreadCurr {tm : Threads} (h : Sound size tm) (hv : v < size) :
    Sound size (tm.addThreadCurr v) := by
  have hnp : (tm.addThreadCurr v).np = tm.np ∧ (tm.addThreadCurr v).npLookup = tm.npLookup := by
    unfold Threads.addThreadCurr
    split <;> exact ⟨rfl, rfl⟩
  constructor
  · exact addThreadCurr_marked h.curr v
  · rw [hnp.1, hnp.2]
    exact h.next
  · intro w hw
    rcases (mem_addThreadCurr h.curr v w).mp hw with hw | rfl
    · exact h.curr_lt w hw
    · exact hv
  · rw [hnp.1]
    exact h.next_lt

theorem Sound.addThreadNext {tm : Threads} (h : Sound size tm) (hv : v < size) :
    Sound size (tm.addThreadNext v) := by
  unfold Threads.addThreadNext
  split
  · exact h
  next hmark =>
    refine ⟨h.curr, h.next.concat (by simpa using hmark), h.curr_lt, ?_⟩
    intro w hw
    rcases List.mem_append.mp hw with hw | hw
    · exact h.next_lt w hw
    · rw [List.mem_singleton.mp hw]
      exact hv

/-- A run on the table that has no result only where the lists have none, and
keeps them sound. -/
def Simulates (size : Nat) (run : Option TableThreads) (view : Threads) : Prop :=
  ∃ tm', run = some tm' ∧ Follows size tm' view ∧ Sound size view

theorem Simulates.same (hp : Placed size tm) (hs : Sound size tm.view) :
    Simulates size (some tm) tm.view := ⟨tm, rfl, ⟨rfl, hp⟩, hs⟩

theorem Simulates.curr (hp : Placed size tm) (hs : Sound size tm.view) (hv : v < size) :
    Simulates size (tm.addThreadCurr v) (tm.view.addThreadCurr v) := by
  rcases TableThreads.addThreadCurr_view hp hs hv with ⟨tm', hrun, hfollows⟩
  exact ⟨tm', hrun, hfollows, hs.addThreadCurr hv⟩

theorem Simulates.next (hp : Placed size tm) (hs : Sound size tm.view) (hv : v < size) :
    Simulates size (tm.addThreadNext v) (tm.view.addThreadNext v) := by
  rcases TableThreads.addThreadNext_view hp hs hv with ⟨tm', hrun, hfollows⟩
  exact ⟨tm', hrun, hfollows, hs.addThreadNext hv⟩

/-- An instruction that may add a thread. -/
theorem Simulates.ite (b : Prop) [Decidable b] {run run' : Option TableThreads}
    {view view' : Threads} (h : b → Simulates size run view) (h' : ¬ b → Simulates size run' view') :
    Simulates size (if b then run else run') (if b then view else view') := by
  by_cases hb : b
  · rw [if_pos hb, if_pos hb]
    exact h hb
  · rw [if_neg hb, if_neg hb]
    exact h' hb

/-- One thread, on the table and on the lists. -/
theorem TableThreads.runInst_view {exe : List Inst} (hwf : WellFormed exe)
    (hp : Placed exe.length tm) (hs : Sound exe.length tm.view) (c : CChar) {ii : Nat} {inst : Inst}
    (hii : exe[ii]? = some inst) :
    ∃ tm' done, tm.runInst c ii inst = some (tm', done) ∧
      (tm.view.runInst c ii inst).2 = done ∧
      Follows exe.length tm' (tm.view.runInst c ii inst).1 ∧
      Sound exe.length (tm.view.runInst c ii inst).1 := by
  -- the cases that add at most one thread
  have hone : ∀ {run : Option TableThreads} {view : Threads}, Simulates exe.length run view →
      ∃ tm' done, run.map (·, false) = some (tm', done) ∧
        (view, false).2 = done ∧ Follows exe.length tm' (view, false).1 ∧
        Sound exe.length (view, false).1 := by
    rintro run view ⟨tm', rfl, hfollows, hsound⟩
    exact ⟨tm', false, rfl, rfl, hfollows, hsound⟩
  have hsame := Simulates.same hp hs
  cases inst with
  | opChar ic =>
      have hnext := hwf.succ_lt hii (by simp)
      exact hone (.ite (charMatch tm.icase c ic = true) (fun _ => .next hp hs hnext) fun _ => hsame)
  | opAny =>
      have hnext := hwf.succ_lt hii (by simp)
      exact hone (.ite (c ≠ newline) (fun _ => .next hp hs hnext) fun _ => hsame)
  | opSol =>
      have hnext := hwf.succ_lt hii (by simp)
      exact hone (.ite (tm.isSol = true) (fun _ => .curr hp hs hnext) fun _ => hsame)
  | opEol =>
      have hnext := hwf.succ_lt hii (by simp)
      exact hone (.ite (tm.isEol c = true) (fun _ => .curr hp hs hnext) fun _ => hsame)
  | opClass ccs =>
      have hnext := hwf.succ_lt hii (by simp)
      exact hone (.ite (ccsMatch tm.icase ccs c = true) (fun _ => .next hp hs hnext) fun _ => hsame)
  | opNclass ccs =>
      have hnext := hwf.succ_lt hii (by simp)
      exact hone (.ite (ccsMatch tm.icase ccs c = true) (fun _ => hsame) fun _ => .next hp hs hnext)
  | opBranch x y =>
      -- two threads, the second on the table that the first has left
      have hx := hwf.targets_mem _ _ hii x (by simp [Inst.targets])
      have hy := hwf.targets_mem _ _ hii y (by simp [Inst.targets])
      rcases Simulates.curr hp hs (show x.toNat < exe.length by omega) with
        ⟨tm₁, hrun₁, hfollows₁, hs₁⟩
      rw [← hfollows₁.view] at hs₁
      rcases Simulates.curr hfollows₁.placed hs₁ (show y.toNat < exe.length by omega) with
        ⟨tm₂, hrun₂, hfollows₂, hs₂⟩
      rw [hfollows₁.view] at hfollows₂ hs₂
      refine ⟨tm₂, false, ?_, rfl, hfollows₂, hs₂⟩
      show (tm.addThreadCurr x.toNat >>= _) = _
      rw [hrun₁]
      show (tm₁.addThreadCurr y.toNat >>= _) = _
      rw [hrun₂]
      rfl
  | opJmp x =>
      have hx := hwf.targets_mem _ _ hii x (by simp [Inst.targets])
      exact hone (.curr hp hs (show x.toNat < exe.length by omega))
  | opMatch =>
      -- only `match_end` is written
      refine ⟨{ tm with matchEnd := tm.chars }, tm.nongreedy, rfl, rfl, ⟨rfl, ?_⟩, ?_⟩
      · exact ⟨hp.allocated, hp.cp, hp.np, hp.lists, hp.cpLookup, hp.npLookup, hp.lookups⟩
      · exact ⟨hs.curr, hs.next, hs.curr_lt, hs.next_lt⟩

/-! ## Clearing -/

/-- The loop of the short restart clears the marks of what is listed. -/
theorem Table.unmark_eq {list lookup : Nat} : ∀ (rounds i : Nat) (t : Table),
    IsList t.size list → IsLookup t.size lookup → i + rounds ≤ t.size →
    (∀ j, i ≤ j → j < i + rounds → t.ints (list + intSize * j) < t.size) →
    ∃ t', t.unmark list lookup rounds i = some t' ∧ t'.size = t.size ∧ t'.ints = t.ints ∧
      (∀ j, i ≤ j → j < i + rounds → t'.bytes (lookup + t.ints (list + intSize * j)) = 0) ∧
      ∀ off, (∀ j, i ≤ j → j < i + rounds → lookup + t.ints (list + intSize * j) ≠ off) →
        t'.bytes off = t.bytes off := by
  -- induction on what is left of the list
  intro rounds
  induction rounds with
  | zero =>
      intro i t _ _ _ _
      refine ⟨t, rfl, rfl, rfl, ?_, fun _ _ => rfl⟩
      intro j hj hlt
      omega
  | succ rounds ih =>
      intro i t hlist hlookup hle hlt
      have hv := hlt i le_rfl (by omega)
      have hread : t.readInt (list + intSize * i) = some (t.ints (list + intSize * i)) :=
        if_pos (hlist.hasInt (by omega))
      have hwrite : t.writeByte (lookup + t.ints (list + intSize * i)) 0 =
          some { t with bytes := update t.bytes (lookup + t.ints (list + intSize * i)) 0 } :=
        if_pos (hlookup.hasByte hv)
      rcases ih (i + 1) { t with bytes := update t.bytes (lookup + t.ints (list + intSize * i)) 0 }
        hlist hlookup (by show i + 1 + rounds ≤ t.size; omega)
        (fun j hj hj' => hlt j (by omega) (by omega)) with
        ⟨t', hrun, hsize, hints, hcleared, hkept⟩
      refine ⟨t', ?_, hsize, hints, ?_, ?_⟩
      · unfold Table.unmark
        rw [hread]
        show (t.writeByte (lookup + t.ints (list + intSize * i)) 0 >>= _) = _
        rw [hwrite]
        exact hrun
      · intro j hj hj'
        by_cases hlater : ∃ j', i + 1 ≤ j' ∧ j' < i + 1 + rounds ∧
            t.ints (list + intSize * j') = t.ints (list + intSize * j)
        · rcases hlater with ⟨j', h1, h2, heq⟩
          rw [← heq]
          exact hcleared j' h1 h2
        · -- it is the entry at `i`, and is not listed again
          obtain rfl : j = i := by
            by_contra hne
            exact hlater ⟨j, by omega, by omega, rfl⟩
          rw [hkept]
          · exact update_self _ _ _
          · intro j' h1 h2 heq
            exact hlater ⟨j', h1, h2, Nat.add_left_cancel heq⟩
      · -- no other byte is written
        intro off hoff
        rw [hkept off fun j' h1 h2 => hoff j' (by omega) (by omega)]
        exact update_of_ne (hoff i le_rfl (by omega)).symm _ _

theorem Sound.clearCurr {tm : Threads} (h : Sound size tm) : Sound size tm.clearCurr where
  curr := by
    refine ⟨List.nodup_nil, ?_⟩
    intro v
    show (if v ∈ tm.cp then false else tm.cpLookup v) = true ↔ v ∈ []
    by_cases hv : v ∈ tm.cp
    · simp [hv]
    · have hmark : tm.cpLookup v ≠ true := fun e => hv ((h.curr.mark v).mp e)
      simp [hv, hmark]
  next := h.next
  curr_lt := by
    intro v hv
    cases hv
  next_lt := h.next_lt

theorem Sound.swap {tm : Threads} (h : Sound size tm) : Sound size tm.swap where
  curr := h.next
  next := Marked.nil
  curr_lt := h.next_lt
  next_lt := by
    intro v hv
    cases hv

/-- The short restart. -/
theorem Simulates.clearCurr (hp : Placed size tm) (hs : Sound size tm.view) :
    Simulates size tm.clearCurr tm.view.clearCurr := by
  obtain rfl := hp.allocated
  have hlt : ∀ j, 0 ≤ j → j < 0 + tm.csize →
      tm.table.ints (tm.cp + intSize * j) < tm.table.size := by
    intro j _ hj
    exact hs.curr_lt _ (Table.mem_list.mpr ⟨j, by omega, rfl⟩)
  rcases Table.unmark_eq tm.csize 0 tm.table hp.cp hp.cpLookup
    (by rw [Nat.zero_add]; exact hs.csize_le) hlt with ⟨t', hrun, hsize, hints, hcleared, hkept⟩
  refine ⟨{ tm with table := t', csize := 0 }, ?_, ⟨?_, ?_⟩, hs.clearCurr⟩
  · unfold TableThreads.clearCurr
    rw [hrun]
    rfl
  · have hnp : t'.list tm.np tm.nsize = tm.table.list tm.np tm.nsize :=
      Table.list_congr fun i _ => by rw [hints]
    -- a mark of the other lookup table is no cell that is cleared
    have hnl : t'.marks tm.npLookup = tm.table.marks tm.npLookup := by
      refine Table.marks_congr hsize ?_
      intro v hv
      apply hkept
      intro j hj hj'
      exact hp.cpLookup.cell_ne hp.npLookup hp.lookups (hlt j hj hj') hv
    -- what was listed is unmarked, and nothing else
    have hcl : t'.marks tm.cpLookup = fun v => if v ∈ tm.table.list tm.cp tm.csize then false
        else tm.table.marks tm.cpLookup v := by
      funext v
      by_cases hv : v ∈ tm.table.list tm.cp tm.csize
      · rw [if_pos hv]
        rcases Table.mem_list.mp hv with ⟨j, hj, rfl⟩
        simp [Table.marks, hcleared j (Nat.zero_le _) (by omega)]
      · rw [if_neg hv]
        have hbyte : t'.bytes (tm.cpLookup + v) = tm.table.bytes (tm.cpLookup + v) := by
          apply hkept
          intro j _ hj heq
          exact hv (Table.mem_list.mpr ⟨j, by omega, Nat.add_left_cancel heq⟩)
        simp only [Table.marks, hsize, hbyte]
    show ({ tm.view with
      cp := t'.list tm.cp 0
      cpLookup := t'.marks tm.cpLookup
      np := t'.list tm.np tm.nsize
      npLookup := t'.marks tm.npLookup } : Threads) = _
    rw [hnp, hnl, hcl]
    rfl
  · exact ⟨hsize, hp.cp, hp.np, hp.lists, hp.cpLookup, hp.npLookup, hp.lookups⟩

/-- The full swap. -/
theorem Simulates.swap (hp : Placed size tm) (hs : Sound size tm.view) :
    Simulates size (tm.swap size) tm.view.swap := by
  obtain rfl := hp.allocated
  -- the table that is zeroed lies inside the allocation, whichever of the two it is
  have hroom : intSize * tm.table.size * 2 ≤ tm.cpLookup ∧
      tm.cpLookup + tm.table.size ≤ vmTableSize tm.table.size := by
    have h4 : intSize = 4 := rfl
    unfold vmTableSize
    rcases hp.cpLookup with h | h
    · rw [h, h4]
      omega
    · rw [h, h4]
      omega
  have hrun : tm.table.clearLookup tm.cpLookup tm.table.size =
      some (tm.table.zeroBytes tm.cpLookup tm.table.size) := if_pos hroom
  refine ⟨_, by
    unfold TableThreads.swap
    rw [hrun]
    rfl, ⟨?_, ?_⟩, hs.swap⟩
  · have hcl : (tm.table.zeroBytes tm.cpLookup tm.table.size).marks tm.npLookup =
        tm.table.marks tm.npLookup := by
      refine Table.marks_congr rfl ?_
      intro v hv
      refine if_neg ?_
      rintro ⟨hge, hlt⟩
      -- the two lookup tables are next to each other
      refine hp.npLookup.cell_ne hp.cpLookup hp.lookups.symm hv
        (show tm.npLookup + v - tm.cpLookup < tm.table.size by omega) ?_
      omega
    have hnl : (tm.table.zeroBytes tm.cpLookup tm.table.size).marks tm.cpLookup =
        fun _ => false := by
      funext v
      unfold Table.marks
      refine decide_eq_false ?_
      rintro ⟨hv, hne⟩
      have hin : tm.cpLookup ≤ tm.cpLookup + v ∧ tm.cpLookup + v < tm.cpLookup + tm.table.size := by
        have hv' : v < tm.table.size := hv
        omega
      exact hne (if_pos hin)
    unfold Threads.swap TableThreads.view
    simp only [hcl, hnl]
    rfl
  · exact ⟨rfl, hp.np, hp.cp, hp.lists.symm, hp.npLookup, hp.cpLookup, hp.lookups.symm⟩

end

/-! ## Runs -/

/-- The two lists of `vm_execute` in their table: without repetitions, inside
the program, no longer than it, and marked exactly in their lookup tables. -/
structure ListsExact (size : Nat) (tm : TableThreads) : Prop where
  currNodup : (tm.table.list tm.cp tm.csize).Nodup
  nextNodup : (tm.table.list tm.np tm.nsize).Nodup
  csize : tm.csize ≤ size
  nsize : tm.nsize ≤ size
  currLt : ∀ v ∈ tm.table.list tm.cp tm.csize, v < size
  nextLt : ∀ v ∈ tm.table.list tm.np tm.nsize, v < size
  currMark : ∀ v < size,
    tm.table.bytes (tm.cpLookup + v) ≠ 0 ↔ v ∈ tm.table.list tm.cp tm.csize
  nextMark : ∀ v < size,
    tm.table.bytes (tm.npLookup + v) ≠ 0 ↔ v ∈ tm.table.list tm.np tm.nsize

/-- The addresses are right everywhere, and the lists behind the `memset`. -/
structure PointInv {σ : Type} (exe : List Inst) (st : VmPoint σ) : Prop where
  placed : Placed exe.length st.tm
  sound : st.pc ≠ .entry → Sound exe.length st.tm.view

section

variable {σ : Type} {getchar : σ → CChar × σ} {exe : List Inst} {st : VmPoint σ}
  {tm : TableThreads} {size : Nat}

theorem Sound.listsExact (hp : Placed size tm) (hs : Sound size tm.view) : ListsExact size tm := by
  obtain rfl := hp.allocated
  constructor
  · exact hs.curr.nodup
  · exact hs.next.nodup
  · exact hs.csize_le
  · exact hs.nsize_le
  · exact hs.curr_lt
  · exact hs.next_lt
  · intro v hv
    have hmark := hs.curr.mark v
    rw [show tm.view.cpLookup v = tm.table.marks tm.cpLookup v from rfl, Table.marks_eq hv,
      decide_eq_true_eq] at hmark
    exact hmark
  · intro v hv
    have hmark := hs.next.mark v
    rw [show tm.view.npLookup v = tm.table.marks tm.npLookup v from rfl, Table.marks_eq hv,
      decide_eq_true_eq] at hmark
    exact hmark

/-- The threads `vm_execute` starts with. -/
def Threads.cleared (tm : Threads) : Threads :=
  { tm with cp := [], np := [], cpLookup := fun _ => false, npLookup := fun _ => false }

theorem Sound.cleared (tm : Threads) : Sound size tm.cleared where
  curr := Marked.nil
  next := Marked.nil
  curr_lt := by
    intro v hv
    cases hv
  next_lt := by
    intro v hv
    cases hv

/-- The `memset` of the whole table. -/
theorem Placed.clear (hp : Placed size tm) :
    ∃ table, tm.table.clear size = some table ∧
      Follows size { tm with nsize := 0, csize := 0, table := table } tm.view.cleared := by
  obtain rfl := hp.allocated
  refine ⟨_, if_pos le_rfl, ?_,
    ⟨rfl, hp.cp, hp.np, hp.lists, hp.cpLookup, hp.npLookup, hp.lookups⟩⟩
  have hmarks : ∀ lookup, IsLookup tm.table.size lookup →
      (tm.table.zeroBase (vmTableSize tm.table.size)).marks lookup = fun _ => false := by
    intro lookup hlookup
    funext v
    unfold Table.marks
    refine decide_eq_false ?_
    rintro ⟨hv, hne⟩
    exact hne (if_pos (hlookup.hasByte hv).2)
  unfold Threads.cleared TableThreads.view
  simp only [hmarks tm.cpLookup hp.cpLookup, hmarks tm.npLookup hp.npLookup]
  rfl

theorem Follows.inv {tm' : TableThreads} {view : Threads} (h : Follows exe.length tm' view)
    (hs : Sound exe.length view) {pc : VmPc} {data : σ} {c : CChar} :
    PointInv exe { pc := pc, tm := tm', data := data, c := c } :=
  ⟨h.placed, fun _ => h.view.symm ▸ hs⟩

/-- `tm` behind another call of the caller's, or behind an assignment to one of
the fields that hold no thread. -/
theorem Placed.same {tm' : TableThreads} (hp : Placed size tm) (h : SameTable tm tm') :
    Placed size tm' where
  allocated := by rw [h.table]; exact hp.allocated
  cp := by rw [h.cp]; exact hp.cp
  np := by rw [h.np]; exact hp.np
  lists := by rw [h.cp, h.np]; exact hp.lists
  cpLookup := by rw [h.cpLookup]; exact hp.cpLookup
  npLookup := by rw [h.npLookup]; exact hp.npLookup
  lookups := by rw [h.cpLookup, h.npLookup]; exact hp.lookups

/-- What `vm_init` sets the addresses to. -/
theorem placed_vmInit (hsize : 0 < size) (ints : Nat → Nat) (bytes : Nat → UInt8) :
    Placed size (tm.vmInit size ints bytes) where
  allocated := rfl
  cp := Or.inl rfl
  np := Or.inr rfl
  lists := by
    show 0 ≠ 4 * size
    omega
  cpLookup := Or.inl rfl
  npLookup := Or.inr rfl
  lookups := by
    show intSize * size * 2 ≠ intSize * size * 2 + size
    omega

/-! ## The steps -/

/-- The table is cleared first. -/
theorem PointInv.entry_step (h : PointInv exe st) (hpc : st.pc = .entry) :
    ∃ tm', vmStep getchar exe st = some { st with pc := .vmStart, tm := tm', c := 0 } ∧
      Follows exe.length tm' st.tm.view.cleared := by
  rcases h.placed.clear with ⟨table, hclear, hfollows⟩
  refine ⟨_, ?_, hfollows⟩
  unfold vmStep
  simp only [hpc, hclear]
  rfl

/-- Thread 0 is added at the start. -/
theorem PointInv.start_step (hwf : WellFormed exe) (h : PointInv exe st) (hpc : st.pc = .vmStart) :
    ∃ tm', vmStep getchar exe st = some { st with pc := .readChar, tm := tm' } ∧
      Follows exe.length tm'
        (({ st.tm.view with matchStart := st.tm.chars } : Threads).addThreadCurr 0) ∧
      Sound exe.length
        (({ st.tm.view with matchStart := st.tm.chars } : Threads).addThreadCurr 0) := by
  have hs := h.sound (by simp [hpc])
  have hp : Placed exe.length { st.tm with matchStart := st.tm.chars } :=
    h.placed.same ⟨rfl, rfl, rfl, rfl, rfl⟩
  have hs' : Sound exe.length
      ({ st.tm with matchStart := st.tm.chars } : TableThreads).view :=
    ⟨hs.curr, hs.next, hs.curr_lt, hs.next_lt⟩
  rcases Simulates.curr hp hs' hwf.length_pos with ⟨tm', hrun, hfollows, hsound⟩
  refine ⟨tm', ?_, hfollows, hsound⟩
  unfold vmStep
  simp only [hpc, hrun]
  rfl

/-- One round of the `for` loop. -/
theorem PointInv.thread_step (hwf : WellFormed exe) (h : PointInv exe st) {t : Nat}
    (hpc : st.pc = .loop t) (ht : t < st.tm.csize) :
    ∃ ii tm' done, st.tm.view.cp[t]? = some ii ∧
      vmStep getchar exe st =
        some { st with pc := if done then .returned 1 else .loop (t + 1), tm := tm' } ∧
      (st.tm.view.runInst st.c ii (fetch exe ii)).2 = done ∧
      Follows exe.length tm' (st.tm.view.runInst st.c ii (fetch exe ii)).1 ∧
      Sound exe.length (st.tm.view.runInst st.c ii (fetch exe ii)).1 := by
  have hs := h.sound (by simp [hpc])
  have hsize := h.placed.allocated
  have hle := hs.csize_le
  have hmem : st.tm.table.ints (st.tm.cp + intSize * t) ∈ st.tm.view.cp :=
    Table.mem_list.mpr ⟨t, ht, rfl⟩
  have hget : st.tm.view.cp[t]? = some (st.tm.table.ints (st.tm.cp + intSize * t)) := by
    show (st.tm.table.list st.tm.cp st.tm.csize)[t]? = _
    simp [Table.list, ht]
  -- the read of `cp[t]` is inside the list
  have hread : st.tm.table.readInt (st.tm.cp + intSize * t) =
      some (st.tm.table.ints (st.tm.cp + intSize * t)) := by
    refine if_pos (IsList.hasInt ?_ ?_)
    · rw [hsize]
      exact h.placed.cp
    · omega
  have hinst := Threads.fetch_eq (hs.curr_lt _ hmem)
  generalize st.tm.table.ints (st.tm.cp + intSize * t) = ii at hget hread hinst
  rcases TableThreads.runInst_view hwf h.placed hs st.c hinst with
    ⟨tm', done, hrun, hdone, hfollows, hsound⟩
  refine ⟨ii, tm', done, hget, ?_, hdone, hfollows, hsound⟩
  unfold vmStep
  simp only [hpc, if_pos ht, hread, Option.bind_eq_bind, Option.bind_some, hinst, hrun]
  rfl

/-- The short restart, at the character behind the last start or at the next
one. -/
theorem PointInv.restart_step (hwf : WellFormed exe) (h : PointInv exe st)
    (hpc : st.pc = .behind) (hend : st.c ≠ st.tm.endchar) (hnone : st.tm.nsize = 0)
    (hsearch : ¬ (st.tm.search = false ∨ st.tm.matchEnd ≠ 0)) :
    ∃ tm', vmStep getchar exe st =
        some { st with
          pc := if st.tm.chars - 1 ≠ st.tm.matchStart then .skipReadchar else .vmStart
          tm := tm' } ∧
      Follows exe.length tm' (if st.tm.chars - 1 ≠ st.tm.matchStart then
        ({ st.tm.view.clearCurr with matchStart := st.tm.chars - 1 } : Threads).addThreadCurr 0
        else st.tm.view.clearCurr) ∧
      Sound exe.length (if st.tm.chars - 1 ≠ st.tm.matchStart then
        ({ st.tm.view.clearCurr with matchStart := st.tm.chars - 1 } : Threads).addThreadCurr 0
        else st.tm.view.clearCurr) := by
  have hs := h.sound (by simp [hpc])
  rcases Simulates.clearCurr h.placed hs with ⟨tm₁, hrun₁, hfollows₁, hs₁⟩
  have hview := hfollows₁.view
  have hchars : tm₁.chars = st.tm.chars := congrArg Threads.chars hview
  have hstart : tm₁.matchStart = st.tm.matchStart := congrArg Threads.matchStart hview
  -- something has been consumed: the next attempt starts here
  by_cases hmoved : st.tm.chars - 1 ≠ st.tm.matchStart
  · have hp₂ : Placed exe.length { tm₁ with matchStart := tm₁.chars - 1 } :=
      hfollows₁.placed.same ⟨rfl, rfl, rfl, rfl, rfl⟩
    have hview₂ : ({ tm₁ with matchStart := tm₁.chars - 1 } : TableThreads).view =
        { st.tm.view.clearCurr with matchStart := st.tm.chars - 1 } := by
      rw [← hview, ← hchars]
      rfl
    have hs₂ : Sound exe.length
        ({ tm₁ with matchStart := tm₁.chars - 1 } : TableThreads).view := by
      rw [hview₂]
      exact ⟨hs₁.curr, hs₁.next, hs₁.curr_lt, hs₁.next_lt⟩
    rcases Simulates.curr hp₂ hs₂ hwf.length_pos with ⟨tm', hrun, hfollows, hsound⟩
    rw [hview₂] at hfollows hsound
    simp only [if_pos hmoved]
    refine ⟨tm', ?_, hfollows, hsound⟩
    unfold vmStep
    simp only [hpc, if_neg hend, if_pos hnone, if_neg hsearch, hrun₁, Option.bind_eq_bind,
      Option.bind_some]
    rw [hchars, hstart, if_pos hmoved, ← hchars, hrun]
    rfl
  · -- nothing has been consumed: `vm_start` reads on
    simp only [if_neg hmoved]
    refine ⟨tm₁, ?_, hfollows₁, hs₁⟩
    unfold vmStep
    simp only [hpc, if_neg hend, if_pos hnone, if_neg hsearch, hrun₁, Option.bind_eq_bind,
      Option.bind_some]
    rw [hchars, hstart, if_neg hmoved]
    rfl

/-- The full swap. -/
theorem PointInv.swap_step (h : PointInv exe st) (hpc : st.pc = .behind)
    (hend : st.c ≠ st.tm.endchar) (hsome : st.tm.nsize ≠ 0) :
    ∃ tm', vmStep getchar exe st = some { st with pc := .readChar, tm := tm' } ∧
      Follows exe.length tm' st.tm.view.swap ∧ Sound exe.length st.tm.view.swap := by
  have hs := h.sound (by simp [hpc])
  rcases Simulates.swap h.placed hs with ⟨tm', hrun, hfollows, hsound⟩
  refine ⟨tm', ?_, hfollows, hsound⟩
  unfold vmStep
  simp only [hpc, if_neg hend, if_neg hsome, hrun]
  rfl

/-- Every step has a result, and keeps the invariant. -/
theorem PointInv.step (hwf : WellFormed exe) (h : PointInv exe st) :
    ∃ st', vmStep getchar exe st = some st' ∧ PointInv exe st' := by
  rcases hpc : st.pc with _ | _ | _ | _ | t | _ | ret
  · -- entry
    rcases h.entry_step hpc with ⟨tm', hrun, hfollows⟩
    exact ⟨_, hrun, hfollows.inv (.cleared _)⟩
  · rcases h.start_step hwf hpc with ⟨tm', hrun, hfollows, hs⟩
    exact ⟨_, hrun, hfollows.inv hs⟩
  · -- readChar
    have hs := h.sound (by simp [hpc])
    refine ⟨_, by unfold vmStep; simp only [hpc]; rfl, ?_, ?_⟩
    · exact h.placed.same ⟨rfl, rfl, rfl, rfl, rfl⟩
    · exact fun _ => ⟨hs.curr, hs.next, hs.curr_lt, hs.next_lt⟩
  · -- skipReadchar
    have hs := h.sound (by simp [hpc])
    refine ⟨{ st with pc := .loop 0 }, ?_, h.placed, fun _ => hs⟩
    unfold vmStep
    simp only [hpc]
  · -- the loop
    by_cases ht : t < st.tm.csize
    · rcases h.thread_step hwf hpc ht with ⟨ii, tm', done, _, hrun, _, hfollows, hs⟩
      exact ⟨_, hrun, hfollows.inv hs⟩
    · have hs := h.sound (by simp [hpc])
      refine ⟨{ st with pc := .behind }, ?_, h.placed, fun _ => hs⟩
      unfold vmStep
      simp only [hpc, if_neg ht]
  · -- behind the loop
    have hs := h.sound (by simp [hpc])
    by_cases hend : st.c = st.tm.endchar
    · refine ⟨{ st with pc := .returned 0 }, ?_, h.placed, fun _ => hs⟩
      unfold vmStep
      simp only [hpc, if_pos hend]
    by_cases hnone : st.tm.nsize = 0
    · by_cases hsearch : st.tm.search = false ∨ st.tm.matchEnd ≠ 0
      · refine ⟨{ st with pc := .returned 1 }, ?_, h.placed, fun _ => hs⟩
        unfold vmStep
        simp only [hpc, if_neg hend, if_pos hnone, if_pos hsearch]
      · rcases h.restart_step hwf hpc hend hnone hsearch with ⟨tm', hrun, hfollows, hs'⟩
        exact ⟨_, hrun, hfollows.inv hs'⟩
    · rcases h.swap_step hpc hend hnone with ⟨tm', hrun, hfollows, hs'⟩
      exact ⟨_, hrun, hfollows.inv hs'⟩
  · -- returned
    exact ⟨st, by unfold vmStep; simp only [hpc], h⟩

theorem VmReached.inv (hwf : WellFormed exe) (h : VmReached getchar exe st) : PointInv exe st := by
  induction h with
  | first hsame =>
      exact ⟨(placed_vmInit hwf.length_pos _ _).same hsame, fun hpc => absurd rfl hpc⟩
  | again _ _ hsame ih => exact ⟨ih.placed.same hsame, fun hpc => absurd rfl hpc⟩
  | step _ hstep ih =>
      rcases ih.step hwf with ⟨st', hrun, hinv⟩
      rw [hrun] at hstep
      obtain rfl := Option.some.inj hstep
      exact hinv

theorem VmReached.steps (h : VmReached getchar exe st) : ∀ {st' : VmPoint σ} (n : Nat),
    (fun r => r.bind (vmStep getchar exe))^[n] (some st) = some st' →
      VmReached getchar exe st' := by
  intro st' n
  induction n generalizing st' with
  | zero =>
      intro hn
      obtain rfl := Option.some.inj hn
      exact h
  | succ n ih =>
      intro hn
      rw [iterate_succ_apply', Option.bind_eq_some_iff] at hn
      rcases hn with ⟨st₁, hprev, hnext⟩
      exact (ih hprev).step hnext

/-- In all calls of `vm_execute` on one `threads_t`, at every step behind the
`memset`, the lists are exact, and no step leaves the table or the program. -/
theorem thread_lists_exact (hwf : WellFormed exe) (h : VmReached getchar exe st) :
    (st.pc ≠ .entry → ListsExact exe.length st.tm) ∧ ∃ st', vmStep getchar exe st = some st' := by
  have hinv := h.inv hwf
  constructor
  · intro hpc
    exact (hinv.sound hpc).listsExact hinv.placed
  · rcases @PointInv.step _ getchar _ _ hwf hinv with ⟨st', hrun, _⟩
    exact ⟨st', hrun⟩

/-- A `threads_t` that has been filled with zeros. -/
def zeroThreads : TableThreads :=
  { chars := 0, matchStart := 0, matchEnd := 0, csize := 0, nsize := 0, cp := 0, np := 0,
    cpLookup := 0, npLookup := 0, table := { size := 0, ints := fun _ => 0, bytes := fun _ => 0 },
    endchar := 0, lastinput := 0, icase := false, nongreedy := false, multiline := false,
    search := false }

/-- The program of `a*` on an endless row of `a`, behind the `for` loop of the second
character: the lists have been swapped once, and both have threads in them. -/
theorem thread_lists_exact_star : ∃ st : VmPoint Nat, st.pc = .behind ∧
    st.tm.table.list st.tm.cp st.tm.csize = [2, 0, 1, 3] ∧
    st.tm.table.list st.tm.np st.tm.nsize = [2] ∧
    (st.pc ≠ .entry → ListsExact [Inst.opBranch 1 3, .opChar 97, .opJmp 0, .opMatch].length st.tm) ∧
      ∃ st', vmStep (fun n => (97, n + 1)) [.opBranch 1 3, .opChar 97, .opJmp 0, .opMatch] st =
        some st' := by
  have hfirst : VmReached (fun n => (97, n + 1)) [.opBranch 1 3, .opChar 97, .opJmp 0, .opMatch] _ :=
    @VmReached.first _ _ _ zeroThreads _ (fun _ => 7) (fun _ => 7) 0 0 ⟨rfl, rfl, rfl, rfl, rfl⟩
  have hreached := hfirst.steps 16 rfl
  exact ⟨_, rfl, rfl, rfl, thread_lists_exact (by decide) hreached⟩

/-! ## The machine on lists -/

/-- Steps of `vm_execute` on the table. -/
def VmSteps (getchar : σ → CChar × σ) (exe : List Inst) : VmPoint σ → VmPoint σ → Prop :=
  Relation.ReflTransGen fun st st' => vmStep getchar exe st = some st'

/-- Where a label of `vm_execute` is. -/
def VmLabel.pc : VmLabel → VmPc
  | .vmStart => .vmStart
  | .readChar => .readChar
  | .skipReadchar => .skipReadchar

/-- The `for` loop on the table does what it does on the lists. -/
theorem loop_runs (hwf : WellFormed exe) {view : Threads} {done : Bool} :
    ∀ (fuel t : Nat) (st : VmPoint σ), PointInv exe st → st.pc = .loop t →
    st.tm.view.runThreads exe st.c fuel t = some (view, done) →
    ∃ tm', VmSteps getchar exe st
        { st with pc := if done then .returned 1 else .behind, tm := tm' } ∧
      Follows exe.length tm' view ∧ Sound exe.length view := by
  intro fuel
  -- by induction on the threads that are left
  induction fuel with
  | zero =>
      intro t st _ _ hrun
      cases hrun
  | succ fuel ih =>
      intro t st h hpc hrun
      have hs := h.sound (by simp [hpc])
      have hlen : st.tm.view.cp.length = st.tm.csize := Table.list_length _ _ _
      unfold Threads.runThreads at hrun
      by_cases ht : t < st.tm.csize
      swap
      · -- all threads have been run
        have hget : st.tm.view.cp[t]? = none := List.getElem?_eq_none (by omega)
        rw [hget] at hrun
        obtain ⟨rfl, rfl⟩ := Prod.mk.inj (Option.some.inj hrun)
        refine ⟨st.tm, .single ?_, ⟨rfl, h.placed⟩, hs⟩
        unfold vmStep
        simp only [hpc, if_neg ht]
        rfl
      rcases h.thread_step hwf hpc ht with ⟨ii, tm', stop, hget, hstep, hstop, hfollows, hs'⟩
      rw [hget] at hrun
      simp only at hrun
      have hview := hfollows.view
      rcases hinst : st.tm.view.runInst st.c ii (fetch exe ii) with ⟨view', stop'⟩
      rw [hinst] at hrun hstop hview hfollows hs'
      obtain rfl : stop' = stop := hstop
      cases stop' with
      | true =>
          -- a match of a nongreedy search ends the loop
          obtain ⟨rfl, rfl⟩ := Prod.mk.inj (Option.some.inj hrun)
          exact ⟨tm', .single hstep, hfollows, hs'⟩
      | false =>
          have hrest : tm'.view.runThreads exe st.c fuel (t + 1) = some (view, done) := by
            rw [hview]
            exact hrun
          rcases ih (t + 1) { st with pc := .loop (t + 1), tm := tm' } (hfollows.inv hs') rfl
            hrest with ⟨tm'', hsteps, hfollows', hs''⟩
          exact ⟨tm'', .head hstep hsteps, hfollows', hs''⟩

/-- `vm_execute` on the table does what it does on the lists. -/
theorem vmLoop_runs (hwf : WellFormed exe) {ret : Int} {vs : VmState σ} :
    ∀ (fuel : Nat) (label : VmLabel) (st : VmPoint σ), PointInv exe st → st.pc = label.pc →
    vmLoop getchar exe fuel label { tm := st.tm.view, data := st.data, c := st.c } =
      some (ret, vs) →
    ∃ tm', VmSteps getchar exe st
        { pc := .returned ret, tm := tm', data := vs.data, c := vs.c } ∧ tm'.view = vs.tm := by
  intro fuel
  induction fuel with
  | zero =>
      intro label st _ _ hrun
      cases hrun
  | succ fuel ih =>
      intro label st h hpc hrun
      cases label with
      | vmStart =>
          rcases @PointInv.start_step _ getchar _ _ hwf h hpc with ⟨tm', hstep, hfollows, hs⟩
          have hrest : vmLoop getchar exe fuel .readChar
              { tm := tm'.view, data := st.data, c := st.c } = some (ret, vs) := by
            rw [hfollows.view]
            exact hrun
          rcases ih .readChar { st with pc := .readChar, tm := tm' } (hfollows.inv hs) rfl hrest
            with ⟨tm'', hsteps, hview⟩
          exact ⟨tm'', .head hstep hsteps, hview⟩
      | readChar =>
          have hs := h.sound (by simp [hpc, VmLabel.pc])
          rcases hchar : getchar st.data with ⟨c, data⟩
          have hstep : vmStep getchar exe st = some {
              pc := .skipReadchar
              tm := { st.tm with lastinput := st.c, chars := st.tm.chars + 1 }
              data := data
              c := c } := by
            unfold vmStep
            simp only [hpc, VmLabel.pc, hchar]
          have hinv : PointInv exe ({
              pc := .skipReadchar
              tm := { st.tm with lastinput := st.c, chars := st.tm.chars + 1 }
              data := data
              c := c } : VmPoint σ) :=
            ⟨h.placed.same ⟨rfl, rfl, rfl, rfl, rfl⟩,
              fun _ => ⟨hs.curr, hs.next, hs.curr_lt, hs.next_lt⟩⟩
          unfold vmLoop at hrun
          simp only [hchar] at hrun
          rcases ih .skipReadchar _ hinv rfl hrun with ⟨tm'', hsteps, hview⟩
          exact ⟨tm'', .head hstep hsteps, hview⟩
      | skipReadchar =>
          have hs := h.sound (by simp [hpc, VmLabel.pc])
          have hstep : vmStep getchar exe st = some { st with pc := .loop 0 } := by
            unfold vmStep
            simp only [hpc, VmLabel.pc]
          unfold vmLoop at hrun
          simp only at hrun
          rcases hthreads : st.tm.view.runThreads exe st.c (exe.length + 1) 0 with _ | ⟨view, done⟩
          · rw [hthreads] at hrun
            cases hrun
          rw [hthreads] at hrun
          rcases @loop_runs _ getchar _ hwf view done (exe.length + 1) 0
            { st with pc := .loop 0 } ⟨h.placed, fun _ => hs⟩ rfl hthreads with
            ⟨tm₁, hloop, hfollows₁, hs₁⟩
          have hreach : VmSteps getchar exe st _ := .head hstep hloop
          have hview₁ := hfollows₁.view
          cases done with
          | true =>
              obtain ⟨rfl, rfl⟩ := Prod.mk.inj (Option.some.inj hrun)
              exact ⟨tm₁, hreach, hview₁⟩
          | false =>
              subst hview₁
              have hinv : PointInv exe { st with pc := .behind, tm := tm₁ } := hfollows₁.inv hs₁
              have hnp : tm₁.view.np = [] ↔ tm₁.nsize = 0 := by
                rw [← List.length_eq_zero_iff,
                  show tm₁.view.np.length = tm₁.nsize from Table.list_length _ _ _]
              simp only at hrun
              -- the loop over the threads is over: the four ways on
              by_cases hend : st.c = tm₁.endchar
              -- the end of the input
              · rw [if_pos (show st.c = tm₁.view.endchar from hend)] at hrun
                obtain ⟨rfl, rfl⟩ := Prod.mk.inj (Option.some.inj hrun)
                refine ⟨tm₁, hreach.tail ?_, rfl⟩
                unfold vmStep
                simp only [if_pos hend]
                rfl
              rw [if_neg (show ¬ st.c = tm₁.view.endchar from hend)] at hrun
              by_cases hnone : tm₁.nsize = 0
              swap
              · -- the full swap
                rw [if_neg fun e => hnone (hnp.mp e)] at hrun
                rcases @PointInv.swap_step _ getchar _ _ hinv rfl hend hnone with
                  ⟨tm₂, hswap, hfollows₂, hs₂⟩
                rw [← hfollows₂.view] at hrun
                rcases ih .readChar { st with pc := .readChar, tm := tm₂ } (hfollows₂.inv hs₂) rfl
                  hrun with ⟨tm', hsteps, hview⟩
                exact ⟨tm', hreach.trans (.head hswap hsteps), hview⟩
              rw [if_pos (hnp.mpr hnone)] at hrun
              by_cases hsearch : tm₁.search = false ∨ tm₁.matchEnd ≠ 0
              -- no thread left, and a match or no search: return
              · rw [if_pos (show tm₁.view.search = false ∨ tm₁.view.matchEnd ≠ 0 from hsearch)]
                  at hrun
                obtain ⟨rfl, rfl⟩ := Prod.mk.inj (Option.some.inj hrun)
                refine ⟨tm₁, hreach.tail ?_, rfl⟩
                unfold vmStep
                simp only [if_neg hend, if_pos hnone, if_pos hsearch]
                rfl
              -- the short restart
              rw [if_neg (show ¬ (tm₁.view.search = false ∨ tm₁.view.matchEnd ≠ 0) from hsearch)]
                at hrun
              rcases @PointInv.restart_step _ getchar _ _ hwf hinv rfl hend hnone hsearch with
                ⟨tm₂, hrestart, hfollows₂, hs₂⟩
              by_cases hmoved : tm₁.chars - 1 ≠ tm₁.matchStart
              -- the first instruction looks at the same character again
              · simp only [if_pos hmoved] at hrestart hfollows₂ hs₂
                rw [if_pos (show tm₁.view.chars - 1 ≠ tm₁.view.matchStart from hmoved)] at hrun
                have hrest : vmLoop getchar exe fuel .skipReadchar
                    { tm := tm₂.view, data := st.data, c := st.c } = some (ret, vs) := by
                  rw [hfollows₂.view]
                  exact hrun
                rcases ih .skipReadchar { st with pc := .skipReadchar, tm := tm₂ }
                  (hfollows₂.inv hs₂) rfl hrest with ⟨tm', hsteps, hview⟩
                exact ⟨tm', hreach.trans (.head hrestart hsteps), hview⟩
              -- the attempt has read no further: start at the next character
              · simp only [if_neg hmoved] at hrestart hfollows₂ hs₂
                rw [if_neg (show ¬ tm₁.view.chars - 1 ≠ tm₁.view.matchStart from hmoved)] at hrun
                have hrest : vmLoop getchar exe fuel .vmStart
                    { tm := tm₂.view, data := st.data, c := st.c } = some (ret, vs) := by
                  rw [hfollows₂.view]
                  exact hrun
                rcases ih .vmStart { st with pc := .vmStart, tm := tm₂ } (hfollows₂.inv hs₂) rfl
                  hrest with ⟨tm', hsteps, hview⟩
                exact ⟨tm', hreach.trans (.head hrestart hsteps), hview⟩

/-- What a call of `vm_execute` returns, and the threads it leaves, are those of
the machine on lists. -/
theorem vmExecute_runs (hwf : WellFormed exe) (h : PointInv exe st) (hpc : st.pc = .entry)
    {fuel : Nat} {ret : Int} {vs : VmState σ}
    (hrun : vmExecute getchar exe fuel st.tm.view st.data = some (ret, vs)) :
    ∃ tm', VmSteps getchar exe st
        { pc := .returned ret, tm := tm', data := vs.data, c := vs.c } ∧ tm'.view = vs.tm := by
  rcases @PointInv.entry_step _ getchar _ _ h hpc with ⟨tm₁, hstep, hfollows⟩
  have hstart : vmLoop getchar exe fuel .vmStart { tm := tm₁.view, data := st.data, c := 0 } =
      some (ret, vs) := by
    rw [hfollows.view]
    exact hrun
  rcases vmLoop_runs hwf fuel .vmStart { st with pc := .vmStart, tm := tm₁, c := 0 }
    (hfollows.inv (.cleared _)) rfl hstart with ⟨tm', hsteps, hview⟩
  exact ⟨tm', .head hstep hsteps, hview⟩

end

end Rxvm
