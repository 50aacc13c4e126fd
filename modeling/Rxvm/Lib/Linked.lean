import Mathlib.Data.List.Chain
import Mathlib.Logic.Relation

/-!
# Rxvm.Lib.Linked — lists of nodes with links in both directions

A heap of nodes is given by its two link functions. A list of nodes lies in
the heap when every node points to the one behind it with `prev` and is
pointed to with `next`. Nothing is said of the two links that leave the list
at its ends.
-/

namespace Linked

variable {ι : Type*}

/-- Following `prev` leads through `l`. -/
def Walkable (prev : ι → Option ι) (l : List ι) : Prop :=
  l.IsChain fun a b => prev a = some b

/-- `l` is linked in both directions. -/
def Segment (next prev : ι → Option ι) (l : List ι) : Prop :=
  l.IsChain fun a b => prev a = some b ∧ next b = some a

section

variable {next prev next' prev' : ι → Option ι} {l l₁ l₂ : List ι} {a b : ι}

theorem Segment.walkable (h : Segment next prev l) : Walkable prev l :=
  h.imp fun _ _ hab => hab.1

theorem Segment.nil : Segment next prev ([] : List ι) := List.isChain_nil

theorem Segment.singleton (a : ι) : Segment next prev [a] := List.isChain_singleton a

/-- A walk does not depend on the links of other nodes. -/
theorem Walkable.congr (h : Walkable prev l) (hp : ∀ x ∈ l, prev' x = prev x) :
    Walkable prev' l := by
  refine List.IsChain.imp_of_mem_imp ?_ h
  intro x y hx _ hxy
  rw [hp x hx, hxy]

/-- A segment does not depend on the links of other nodes. -/
theorem Segment.congr (h : Segment next prev l) (hp : ∀ x ∈ l, prev' x = prev x)
    (hn : ∀ x ∈ l, next' x = next x) : Segment next' prev' l := by
  refine List.IsChain.imp_of_mem_imp ?_ h
  intro x y hx hy hxy
  rw [hp x hx, hn y hy]
  exact hxy

/-- Two segments become one when the ends that meet are linked. The link of
the first one's last node and that of the second one's first node may have
been anything before. -/
theorem Segment.append (h₁ : Segment next prev (l₁ ++ [a])) (h₂ : Segment next prev (b :: l₂))
    (hp₁ : ∀ x ∈ l₁, prev' x = prev x) (hn₁ : ∀ x ∈ l₁ ++ [a], next' x = next x)
    (hp₂ : ∀ x ∈ b :: l₂, prev' x = prev x) (hn₂ : ∀ x ∈ l₂, next' x = next x)
    (hab : prev' a = some b) (hba : next' b = some a) :
    Segment next' prev' (l₁ ++ [a] ++ b :: l₂) := by
  have hleft : Segment next' prev' (l₁ ++ [a]) := by
    unfold Segment at h₁ ⊢
    rw [List.isChain_append] at h₁ ⊢
    obtain ⟨hl, _, hend⟩ := h₁
    refine ⟨?_, List.isChain_singleton a, ?_⟩
    · refine List.IsChain.imp_of_mem_imp ?_ hl
      intro x y hx hy hxy
      rw [hp₁ x hx, hn₁ y (by simp [hy])]
      exact hxy
    · intro x hx y hy
      have hxl : x ∈ l₁ := List.mem_of_mem_getLast? hx
      obtain rfl : y = a := by simpa using hy.symm
      rw [hp₁ x hxl, hn₁ y (by simp)]
      exact hend x hx y (by simp)
  have hright : Segment next' prev' (b :: l₂) := by
    refine List.IsChain.imp_of_mem_tail_imp ?_ h₂
    intro x y hx hy hxy
    rw [hp₂ x hx, hn₂ y hy]
    exact hxy
  refine List.IsChain.append hleft hright ?_
  intro x hx y hy
  obtain rfl : x = a := by simpa using hx.symm
  obtain rfl : y = b := by simpa using hy.symm
  exact ⟨hab, hba⟩

theorem Walkable.cons_iff : Walkable prev (a :: l) ↔ (∀ b ∈ l.head?, prev a = some b) ∧
    Walkable prev l :=
  List.isChain_cons

/-- A walk from the first node meets every node of the list. -/
theorem Walkable.reaches {t n : ι} (h : Walkable prev l) (ht : l.head? = some t) (hn : n ∈ l) :
    Relation.ReflTransGen (fun a b => prev a = some b) t n := by
  induction l generalizing t with
  | nil => cases ht
  | cons a l ih =>
      obtain rfl : a = t := by simpa using ht
      rcases List.mem_cons.mp hn with rfl | hn
      · exact .refl
      · cases l with
        | nil => cases hn
        | cons b l =>
            have hcons := cons_iff.mp h
            exact .head (hcons.1 b rfl) (ih hcons.2 rfl hn)

/-- The nodes a loop meets that follows `next` until it is null. -/
inductive Walk (next : ι → Option ι) : Option ι → List ι → Prop
  | nil : Walk next none []
  | cons {a : ι} {l : List ι} (h : Walk next (next a) l) : Walk next (some a) (a :: l)

/-- The loop meets what can be reached along `next`. -/
theorem Walk.mem_of_reaches {i : Option ι} (h : Walk next i l) (hi : i = some a)
    (hreach : Relation.ReflTransGen (fun a b => next a = some b) a b) : b ∈ l := by
  induction h generalizing a with
  | nil => cases hi
  | @cons c l _ ih =>
      obtain rfl := Option.some.inj hi
      rcases Relation.ReflTransGen.cases_head hreach with rfl | ⟨d, hd, hreach⟩
      · exact List.mem_cons_self
      · exact List.mem_cons_of_mem _ (ih hd hreach)

theorem Walk.unique {i : Option ι} (h₁ : Walk next i l₁) (h₂ : Walk next i l₂) : l₁ = l₂ := by
  induction h₁ generalizing l₂ with
  | nil =>
      cases h₂
      rfl
  | cons _ ih =>
      cases h₂ with
      | cons h => rw [ih h]

theorem Walk.of_isChain (h : l.IsChain fun a b => next a = some b)
    (hend : ∀ x ∈ l.getLast?, next x = none) : Walk next l.head? l := by
  induction l with
  | nil => exact .nil
  | cons a l ih =>
      refine .cons ?_
      cases l with
      | nil =>
          rw [hend a rfl]
          exact .nil
      | cons b l =>
          have hcons := List.isChain_cons_cons.mp h
          rw [hcons.1]
          exact ih hcons.2 fun x hx => hend x (by simpa using hx)

/-- Following `next` from the last node. -/
theorem Segment.next_reverse (h : Segment next prev l) :
    l.reverse.IsChain fun a b => next a = some b := by
  rw [List.isChain_reverse]
  exact h.imp fun _ _ hab => hab.2

/-- The loop that starts at the last node of a segment and follows `next`. -/
theorem Segment.walk (h : Segment next prev l) (hend : ∀ x ∈ l.head?, next x = none) :
    Walk next l.getLast? l.reverse := by
  rw [← List.head?_reverse]
  exact Walk.of_isChain h.next_reverse (by simpa using hend)

end

end Linked
