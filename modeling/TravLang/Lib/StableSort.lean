import TravLang.Lib.SortedAssoc

/-!
# Stable sorting

A list is rearranged if its elements are permuted and those that compare as equal keep their order.
Moving an element past elements of other classes is such a rearrangement, and so is the merge of two
lists in order.
-/

namespace StableSort

open SortedAssoc List

variable {α : Type} {cmp : α → α → Int} {l l' l₁ l₂ s s' s₁ s₂ : List α} {x y : α}

/-- The same elements, those of each class in the same order. -/
structure Rearranges (cmp : α → α → Int) (l s : List α) : Prop where
  perm : s.Perm l
  stable : ∀ x, s.filter (fun y => cmp x y = 0) = l.filter (fun y => cmp x y = 0)

/-- Elements in non-decreasing order. -/
def InOrder (cmp : α → α → Int) (l : List α) : Prop := l.Pairwise fun x y => cmp x y ≤ 0

/-- `s` is the list `l` in non-decreasing order, where equal elements keep their order. -/
structure Sorts (cmp : α → α → Int) (l s : List α) : Prop extends Rearranges cmp l s where
  inOrder : InOrder cmp s

namespace Rearranges

theorem refl (l : List α) : Rearranges cmp l l := ⟨.refl l, fun _ => rfl⟩

theorem trans (h : Rearranges cmp l s) (h' : Rearranges cmp s s') : Rearranges cmp l s' :=
  ⟨h'.perm.trans h.perm, fun x => (h'.stable x).trans (h.stable x)⟩

theorem append (h : Rearranges cmp l s) (h' : Rearranges cmp l' s') :
    Rearranges cmp (l ++ l') (s ++ s') where
  perm := h.perm.append h'.perm
  stable x := by rw [filter_append, filter_append, h.stable, h'.stable]

theorem cons (h : Rearranges cmp l s) (x : α) : Rearranges cmp (x :: l) (x :: s) :=
  (refl [x]).append h

theorem swap (ho : TotalPreorder cmp) (h : cmp x y ≠ 0) (l : List α) :
    Rearranges cmp (x :: y :: l) (y :: x :: l) where
  perm := .swap x y l
  stable z := by
    have hclass : ¬ (cmp z x = 0 ∧ cmp z y = 0) := fun ⟨hx, hy⟩ =>
      h ((ho.congr_zero (ho.zero_symm hx) y).mpr hy)
    by_cases hx : cmp z x = 0
    · have hy : cmp z y ≠ 0 := fun hy => hclass ⟨hx, hy⟩
      simp [hx, hy]
    · simp [filter_cons, hx]

/-- An element moves to the front past elements of other classes. -/
theorem move_front (ho : TotalPreorder cmp) : ∀ {l : List α}, (∀ y ∈ l, cmp y x ≠ 0) →
    ∀ l', Rearranges cmp (l ++ x :: l') (x :: (l ++ l'))
  | [], _, l' => refl _
  | y :: l, h, l' => by
    obtain ⟨hy, hl⟩ := forall_mem_cons.mp h
    exact ((move_front ho hl l').cons y).trans (swap ho hy _)

/-- An element moves to the end past elements of other classes. -/
theorem move_back (ho : TotalPreorder cmp) : ∀ {l : List α}, (∀ y ∈ l, cmp x y ≠ 0) →
    Rearranges cmp (x :: l) (l ++ [x])
  | [], _ => refl _
  | y :: l, h => by
    obtain ⟨hy, hl⟩ := forall_mem_cons.mp h
    exact (swap ho hy l).trans ((move_back ho hl).cons y)

end Rearranges

theorem InOrder.self_sorts (h : InOrder cmp l) : Sorts cmp l l := ⟨.refl l, h⟩

theorem Sorts.of_rearranges (h : Rearranges cmp l l') (h' : Sorts cmp l' s) : Sorts cmp l s :=
  ⟨h.trans h'.toRearranges, h'.inOrder⟩

/-- A greatest element, the first of its class from the end, goes last. -/
theorem Sorts.concat (ho : TotalPreorder cmp)
    (h : Sorts cmp (l ++ l') s) (hlt : ∀ y ∈ l', cmp y x < 0) (hle : ∀ y ∈ l, cmp y x ≤ 0) :
    Sorts cmp (l ++ x :: l') (s ++ [x]) where
  toRearranges := by
    have hmove : Rearranges cmp (x :: l') (l' ++ [x]) := by
      refine .move_back ho fun y hy heq => ?_
      have := hlt y hy
      have := ho.zero_symm heq
      omega
    refine ((Rearranges.refl l).append hmove).trans ?_
    rw [← append_assoc]
    exact h.append (.refl [x])
  inOrder := by
    refine pairwise_append.mpr ⟨h.inOrder, pairwise_singleton _ _, ?_⟩
    intro y hy z hz
    obtain rfl := mem_singleton.mp hz
    rcases mem_append.mp (h.perm.subset hy) with hy | hy
    · exact hle y hy
    · exact Int.le_of_lt (hlt y hy)

/-- An element goes behind the last element that is not after it. -/
theorem Sorts.insert (ho : TotalPreorder cmp) {e : α} (h : Sorts cmp l (s₁ ++ s₂))
    (h1 : ∀ y ∈ s₁, cmp y e ≤ 0) (h2 : ∀ y ∈ s₂, cmp y e > 0) :
    Sorts cmp (l ++ [e]) (s₁ ++ e :: s₂) where
  toRearranges := by
    have hmove : Rearranges cmp (s₂ ++ [e]) (e :: s₂) := by
      have := Rearranges.move_front (l := s₂) ho (fun y hy => (show cmp y e ≠ 0 by
        have := h2 y hy
        omega)) []
      rwa [append_nil] at this
    refine (h.append (.refl [e])).trans ?_
    rw [append_assoc]
    exact (Rearranges.refl s₁).append hmove
  inOrder := by
    obtain ⟨hs1, hs2, hcross⟩ := pairwise_append.mp h.inOrder
    refine pairwise_append.mpr ⟨hs1, pairwise_cons.mpr ⟨?_, hs2⟩, ?_⟩
    · intro y hy
      exact ho.le_symm (Int.le_of_lt (h2 y hy))
    · intro x hx
      exact forall_mem_cons.mpr ⟨h1 x hx, hcross x hx⟩

/-! ## Merging -/

/-- The comparison that `List.merge` takes: the elements of the first list go first. -/
def le (cmp : α → α → Int) (x y : α) : Bool := decide (cmp x y ≤ 0)

@[simp] theorem le_iff : le cmp x y = true ↔ cmp x y ≤ 0 := decide_eq_true_iff

theorem inOrder_merge (ho : TotalPreorder cmp) (h₁ : InOrder cmp l₁) (h₂ : InOrder cmp l₂) :
    InOrder cmp (List.merge l₁ l₂ (le cmp)) := by
  refine (@List.pairwise_merge _ (le cmp) ?_ ?_ l₁ l₂ (h₁.imp ?_) (h₂.imp ?_)).imp ?_
  · intro a b c hab hbc
    exact le_iff.mpr (ho.trans a b c (le_iff.mp hab) (le_iff.mp hbc))
  · intro a b
    rcases Int.le_total (cmp a b) 0 with hab | hab
    · simp [hab]
    · simp [ho.le_symm hab]
  · exact fun {x y} h => le_iff.mpr h
  · exact fun {x y} h => le_iff.mpr h
  · exact fun {x y} h => le_iff.mp h

theorem rearranges_merge (ho : TotalPreorder cmp) : ∀ {l₁ l₂ : List α}, InOrder cmp l₁ →
    Rearranges cmp (l₁ ++ l₂) (List.merge l₁ l₂ (le cmp))
  | [], l₂, _ => by
    rw [nil_merge]
    exact .refl l₂
  | x :: l₁, [], _ => by
    rw [append_nil, List.merge_right]
    exact .refl _
  | x :: l₁, y :: l₂, h => by
    obtain ⟨hx, hl⟩ := pairwise_cons.mp h
    by_cases hxy : cmp x y ≤ 0
    · rw [cons_merge_cons_pos _ _ _ (le_iff.mpr hxy)]
      exact (rearranges_merge ho hl).cons x
    · rw [cons_merge_cons_neg _ _ _ (fun hle => hxy (le_iff.mp hle))]
      have hyx : cmp y x < 0 := (ho.neg_iff y x).mpr (Int.not_le.mp hxy)
      have hmove : ∀ z ∈ x :: l₁, cmp z y ≠ 0 := by
        intro z hz hzy
        have hxz : cmp x z ≤ 0 := by
          rcases mem_cons.mp hz with rfl | hz
          · exact Int.le_of_eq (ho.self z)
          · exact hx z hz
        have hyz := ho.lt_of_lt_of_le hyx hxz
        have := ho.zero_symm hzy
        omega
      exact (Rearranges.move_front ho hmove l₂).trans ((rearranges_merge ho h).cons y)

/-- **The merge of two sorted lists sorts their elements.** -/
theorem Sorts.merge (ho : TotalPreorder cmp) (h₁ : Sorts cmp l₁ s₁) (h₂ : Sorts cmp l₂ s₂) :
    Sorts cmp (l₁ ++ l₂) (List.merge s₁ s₂ (le cmp)) where
  toRearranges := (h₁.append h₂.toRearranges).trans (rearranges_merge ho h₁.inOrder)
  inOrder := inOrder_merge ho h₁.inOrder h₂.inOrder

end StableSort
