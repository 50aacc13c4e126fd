import Mathlib.Data.List.TakeWhile

/-!
# Rxvm.Lib.Lines — the lines of a text

A line starts at the start of the text or behind a separator, and ends in front
of the next one. `linesWith` lists the lines that pass a test; behind each of
them the list goes on as it does from the end of the line.
-/

namespace Lines

variable {α : Type*}

def StartsAt (sep : α) (s : List α) (a : Nat) : Prop := a = 0 ∨ s[a - 1]? = some sep

section

variable {sep : α} {s : List α} {a p : Nat}

theorem StartsAt.le_length (h : StartsAt sep s a) : a ≤ s.length := by
  rcases h with rfl | h
  · exact Nat.zero_le _
  · have hlt := (List.getElem?_eq_some_iff.mp h).1
    omega

theorem startsAt_drop (ha : 0 < a) : StartsAt sep (s.drop p) a ↔ StartsAt sep s (p + a) := by
  rw [StartsAt, StartsAt, List.getElem?_drop, show p + (a - 1) = p + a - 1 by omega]
  exact or_congr (by omega) Iff.rfl

end

variable [DecidableEq α]

section

variable (sep : α) (s : List α)

instance (a : Nat) : Decidable (StartsAt sep s a) := inferInstanceAs (Decidable (_ ∨ _))

/-- The text from `a` up to the next separator. -/
def lineAt (a : Nat) : List α := (s.drop a).takeWhile (· ≠ sep)

/-- A line that passes the test starts at `a`. -/
def LineWith (good : List α → Bool) (a : Nat) : Prop :=
  StartsAt sep s a ∧ good (lineAt sep s a) = true

instance (good : List α → Bool) (a : Nat) : Decidable (LineWith sep s good a) :=
  inferInstanceAs (Decidable (_ ∧ _))

/-- The lines that pass the test, from `p` on, each with where it starts. -/
def linesWith (good : List α → Bool) (p : Nat) : List (Nat × List α) :=
  ((List.range' p (s.length + 1 - p)).filter fun a => LineWith sep s good a).map
    fun a => (a, lineAt sep s a)

end

section

variable {sep : α} {s : List α} {good : List α → Bool} {a a' b p : Nat}

theorem not_mem_lineAt : sep ∉ lineAt sep s a := by
  intro h
  have hne := List.mem_takeWhile_imp h
  simp at hne

theorem lineAt_isPrefix : lineAt sep s a <+: s.drop a := List.takeWhile_prefix _

theorem lineAt_le (ha : a ≤ s.length) : a + (lineAt sep s a).length ≤ s.length := by
  have hle := (@lineAt_isPrefix _ _ sep s a).length_le
  rw [List.length_drop] at hle
  omega

/-- A line ends with the text or in front of a separator. -/
theorem lineAt_end (ha : a ≤ s.length) :
    a + (lineAt sep s a).length = s.length ∨ s[a + (lineAt sep s a).length]? = some sep := by
  have hsplit : s.drop a = lineAt sep s a ++ (s.drop a).dropWhile (· ≠ sep) :=
    List.takeWhile_append_dropWhile.symm
  cases hrest : (s.drop a).dropWhile (· ≠ sep) with
  | nil =>
      have hlen := congrArg List.length hsplit
      rw [hrest, List.append_nil, List.length_drop] at hlen
      omega
  | cons c rest =>
      have hc : c = sep := by
        have hne : (s.drop a).dropWhile (· ≠ sep) ≠ [] := by
          rw [hrest]
          exact List.cons_ne_nil c rest
        have hhead := List.head_dropWhile_not (· ≠ sep) hne
        simp only [hrest, List.head_cons] at hhead
        simpa using hhead
      right
      rw [← List.getElem?_drop, hsplit, hrest, List.getElem?_append_right (Nat.le_refl _),
        Nat.sub_self, hc]
      rfl

theorem lineAt_eq (hab : a ≤ b) (hb : b ≤ s.length) (hno : sep ∉ (s.take b).drop a)
    (hend : b = s.length ∨ s[b]? = some sep) : lineAt sep s a = (s.take b).drop a := by
  have hsplit : s.drop a = (s.take b).drop a ++ s.drop b := by
    rw [← List.drop_append_of_le_length (by simp; omega), List.take_append_drop]
  have hpass : ∀ c ∈ (s.take b).drop a, decide (c ≠ sep) = true := by
    intro c hc
    exact decide_eq_true fun h => hno (h ▸ hc)
  rw [lineAt, hsplit, List.takeWhile_append_of_pos hpass]
  rcases hend with rfl | hsep
  · simp
  · have hhead : s.drop b = sep :: s.drop (b + 1) := by
      rw [List.drop_eq_getElem?_toList_append, hsep]
      rfl
    simp [hhead]

theorem lineAt_part : (s.take (a + (lineAt sep s a).length)).drop a = lineAt sep s a := by
  rw [List.drop_take, Nat.add_sub_cancel_left]
  exact List.prefix_iff_eq_take.mp lineAt_isPrefix |>.symm

/-- No line starts inside another one, nor at its end. -/
theorem not_startsAt_inside (ha : a < a') (ha' : a' ≤ a + (lineAt sep s a).length) :
    ¬ StartsAt sep s a' := by
  rintro (rfl | h)
  · omega
  · have hlt : a' - 1 - a < (lineAt sep s a).length := by omega
    have hget := lineAt_isPrefix.getElem hlt
    have hlast : (lineAt sep s a)[a' - 1 - a]? = some sep := by
      rw [List.getElem?_eq_getElem hlt, hget, ← List.getElem?_eq_getElem, List.getElem?_drop,
        show a + (a' - 1 - a) = a' - 1 by omega, h]
    exact not_mem_lineAt (List.mem_of_getElem? hlast)

theorem LineWith.length_pos (h : LineWith sep s good a) (hempty : good [] = false) :
    0 < (lineAt sep s a).length := by
  refine List.length_pos_iff.mpr fun hnil => ?_
  rw [LineWith, hnil, hempty] at h
  exact Bool.false_ne_true h.2

/-! ## Behind a part of the text -/

theorem lineAt_drop : lineAt sep (s.drop p) a = lineAt sep s (p + a) := by
  rw [lineAt, lineAt, List.drop_drop]

/-! ## The list of lines -/

theorem filter_range'_eq_nil {n : Nat} (h : ∀ a, p ≤ a → a < p + n → ¬ LineWith sep s good a) :
    (List.range' p n).filter (fun a => LineWith sep s good a) = [] := by
  rw [List.filter_eq_nil_iff]
  intro a ha
  rw [List.mem_range'_1] at ha
  simpa using h a ha.1 ha.2

theorem linesWith_eq_nil (h : ∀ a, p ≤ a → ¬ LineWith sep s good a) :
    linesWith sep s good p = [] := by
  rw [linesWith, filter_range'_eq_nil fun a ha _ => h a ha]
  rfl

/-- The first line from `p` on, and those behind its end. -/
theorem linesWith_eq_cons (ha : LineWith sep s good a) (hpa : p ≤ a)
    (hfirst : ∀ a', p ≤ a' → a' < a → ¬ LineWith sep s good a')
    (hpos : 0 < (lineAt sep s a).length) :
    linesWith sep s good p =
      (a, lineAt sep s a) :: linesWith sep s good (a + (lineAt sep s a).length) := by
  have hle : a + (lineAt sep s a).length ≤ s.length := lineAt_le ha.1.le_length
  generalize hn : (lineAt sep s a).length = n at hpos hle ⊢
  -- up to the line, the line itself, up to its end, and behind it
  have hrange : List.range' p (s.length + 1 - p) = List.range' p (a - p) ++
      a :: (List.range' (a + 1) (n - 1) ++ List.range' (a + n) (s.length + 1 - (a + n))) := by
    have hinside := @List.range'_append_1 (a + 1) (n - 1) (s.length + 1 - (a + n))
    rw [show a + 1 + (n - 1) = a + n by omega] at hinside
    rw [hinside, ← List.range'_succ]
    have hfront := @List.range'_append_1 p (a - p)
      (n - 1 + (s.length + 1 - (a + n)) + 1)
    rw [show p + (a - p) = a by omega] at hfront
    rw [hfront]
    congr 1
    omega
  have hskipped := @filter_range'_eq_nil _ _ sep s good p (a - p) fun a' h h' =>
    hfirst a' h (by omega)
  have hinner := @filter_range'_eq_nil _ _ sep s good (a + 1) (n - 1) fun a' h h' hline =>
    not_startsAt_inside (show a < a' by omega) (by omega) hline.1
  rw [linesWith, hrange, List.filter_append, hskipped, List.filter_cons_of_pos (by simpa using ha),
    List.filter_append, hinner]
  rfl

/-- Of the lines `1`, `2 1` and `1`, those of one character. -/
example : linesWith 10 [1, 10, 2, 1, 10, 1] (fun w => w.length = 1) 0 = [(0, [1]), (5, [1])] := by
  decide

end

end Lines
