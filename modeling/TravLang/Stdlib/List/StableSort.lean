import TravLang.Lib.StableSort

/-!
# `List.stable_sort` (`stdlib/list.ml`)

Two merge sorts call each other: `sort` returns its elements in order and `rev_sort` in the reverse
of that order. They differ in one test, which says if the first of two elements goes to the front of
the result: `cmp x1 x2 <= 0` in the one and `cmp x1 x2 > 0` in the other.
-/

namespace TravLang.ListStableSort

open SortedAssoc StableSort List

variable {α : Type}

/-- The test of `rev_sort` and `rev_merge_rev`; that of `sort` and `rev_merge` is `le`. -/
def after (cmp : α → α → Int) (x1 x2 : α) : Bool := decide (cmp x1 x2 > 0)

/-- Pushes the elements of two lists on `accu`. -/
def revMergeBy (first : α → α → Bool) (l1 l2 accu : List α) : List α :=
  match l1, l2 with
  | [], l2 => l2.reverseAux accu
  | l1, [] => l1.reverseAux accu
  | h1 :: t1, h2 :: t2 =>
    if first h1 h2 then revMergeBy first t1 (h2 :: t2) (h1 :: accu)
    else revMergeBy first (h1 :: t1) t2 (h2 :: accu)
termination_by l1.length + l2.length

def revMerge (cmp : α → α → Int) : List α → List α → List α → List α := revMergeBy (le cmp)

def revMergeRev (cmp : α → α → Int) : List α → List α → List α → List α := revMergeBy (after cmp)

def sort2 (first : α → α → Bool) (x1 x2 : α) : List α :=
  if first x1 x2 then [x1, x2] else [x2, x1]

def sort3 (first : α → α → Bool) (x1 x2 x3 : α) : List α :=
  if first x1 x2 then
    if first x2 x3 then [x1, x2, x3]
    else if first x1 x3 then [x1, x3, x2]
    else [x3, x1, x2]
  else if first x1 x3 then [x2, x1, x3]
  else if first x2 x3 then [x2, x3, x1]
  else [x3, x2, x1]

mutual

/-- The first `n` elements of a list in order, and the other ones. Below two elements the recursion
of the source would not end. -/
def sort (cmp : α → α → Int) (n : Nat) (l : List α) : Option (List α × List α) :=
  match n, l with
  | 2, x1 :: x2 :: tl => some (sort2 (le cmp) x1 x2, tl)
  | 3, x1 :: x2 :: x3 :: tl => some (sort3 (le cmp) x1 x2 x3, tl)
  | n, l =>
    if n < 2 then none
    else do
      let n1 := n / 2
      let n2 := n - n1
      let (s1, l2) ← revSort cmp n1 l
      let (s2, tl) ← revSort cmp n2 l2
      return (revMergeRev cmp s1 s2 [], tl)
termination_by n
decreasing_by all_goals omega

def revSort (cmp : α → α → Int) (n : Nat) (l : List α) : Option (List α × List α) :=
  match n, l with
  | 2, x1 :: x2 :: tl => some (sort2 (after cmp) x1 x2, tl)
  | 3, x1 :: x2 :: x3 :: tl => some (sort3 (after cmp) x1 x2 x3, tl)
  | n, l =>
    if n < 2 then none
    else do
      let n1 := n / 2
      let n2 := n - n1
      let (s1, l2) ← sort cmp n1 l
      let (s2, tl) ← sort cmp n2 l2
      return (revMerge cmp s1 s2 [], tl)
termination_by n
decreasing_by all_goals omega

end

def stableSort (cmp : α → α → Int) (l : List α) : Option (List α) :=
  let len := l.length
  if len < 2 then some l else (sort cmp len l).map Prod.fst

/-! ## Merges -/

section Spec

variable {cmp : α → α → Int}

/-- `rev_merge` pushes the elements in the order of `List.merge`. -/
theorem revMerge_eq (cmp : α → α → Int) (l1 l2 accu : List α) :
    revMerge cmp l1 l2 accu = (List.merge l1 l2 (le cmp)).reverse ++ accu := by
  unfold revMerge
  fun_induction revMergeBy (le cmp) l1 l2 accu with
  | case1 accu l2 => rw [nil_merge, reverseAux_eq]
  | case2 accu l1 _ => rw [List.merge_right, reverseAux_eq]
  | case3 accu h1 t1 h2 t2 hle ih =>
    rw [ih, cons_merge_cons_pos _ _ _ hle, reverse_cons, append_assoc]
    rfl
  | case4 accu h1 t1 h2 t2 hgt ih =>
    rw [ih, cons_merge_cons_neg _ _ _ hgt, reverse_cons, append_assoc]
    rfl

theorem le_last (ho : TotalPreorder cmp) {x : α} {t : List α} (h : InOrder cmp (x :: t).reverse) :
    ∀ y ∈ (x :: t).reverse, cmp y x ≤ 0 := by
  rw [reverse_cons] at h ⊢
  refine forall_mem_append.mpr ⟨fun y hy => (pairwise_append.mp h).2.2 y hy x mem_cons_self, ?_⟩
  simp [ho.self]

/-- `rev_merge_rev` merges from the end. -/
theorem revMergeRev_spec (ho : TotalPreorder cmp) (l1 l2 accu : List α)
    (h1 : InOrder cmp l1.reverse) (h2 : InOrder cmp l2.reverse) :
    ∃ s, revMergeRev cmp l1 l2 accu = s ++ accu ∧ Sorts cmp (l1.reverse ++ l2.reverse) s := by
  unfold revMergeRev
  fun_induction revMergeBy (after cmp) l1 l2 accu with
  | case1 accu l2 => exact ⟨l2.reverse, reverseAux_eq, h2.self_sorts⟩
  | case2 accu l1 _ =>
    refine ⟨l1.reverse, reverseAux_eq, ?_⟩
    rw [reverse_nil, append_nil]
    exact h1.self_sorts
  | case3 accu x1 t1 x2 t2 hgt ih =>
    rw [reverse_cons] at h1
    obtain ⟨ht1, -, hx1⟩ := pairwise_append.mp h1
    obtain ⟨s, hs, hsorts⟩ := ih ht1 h2
    have hlt := (ho.neg_iff x2 x1).mpr (of_decide_eq_true hgt)
    refine ⟨s ++ [x1], by rw [hs, append_assoc]; rfl, ?_⟩
    rw [reverse_cons, append_assoc]
    exact hsorts.concat ho (fun y hy => ho.lt_of_le_of_lt (le_last ho h2 y hy) hlt) fun y hy =>
      hx1 y hy x1 mem_cons_self
  | case4 accu x1 t1 x2 t2 hle ih =>
    have hle : cmp x1 x2 ≤ 0 := Int.not_lt.mp fun hlt => hle (decide_eq_true hlt)
    rw [reverse_cons] at h2
    obtain ⟨ht2, -, hx2⟩ := pairwise_append.mp h2
    obtain ⟨s, hs, hsorts⟩ := ih h1 ht2
    refine ⟨s ++ [x2], by rw [hs, append_assoc]; rfl, ?_⟩
    have hall : ∀ y ∈ (x1 :: t1).reverse ++ t2.reverse, cmp y x2 ≤ 0 :=
      forall_mem_append.mpr ⟨fun y hy => ho.trans y x1 x2 (le_last ho h1 y hy) hle,
        fun y hy => hx2 y hy x2 mem_cons_self⟩
    rw [@List.reverse_cons _ x2 t2, ← append_assoc]
    rw [← append_nil (_ ++ _)] at hsorts
    exact hsorts.concat ho nofun hall

/-! ## Short lists -/

theorem inOrder_pair {x y : α} (h : cmp x y ≤ 0) : InOrder cmp [x, y] :=
  pairwise_pair.mpr h

theorem inOrder_triple (ho : TotalPreorder cmp) {x y z : α} (hxy : cmp x y ≤ 0)
    (hyz : cmp y z ≤ 0) : InOrder cmp [x, y, z] := by
  have hxz := ho.trans x y z hxy hyz
  refine pairwise_cons.mpr ⟨?_, inOrder_pair hyz⟩
  simp [hxy, hxz]

theorem pos_of_not_le {x y : α} (h : ¬le cmp x y = true) : 0 < cmp x y :=
  Int.not_le.mp fun hle => h (le_iff.mpr hle)

section
variable (ho : TotalPreorder cmp) {x y : α} (h : ¬le cmp x y = true)

include ho h

theorem swap_of_not_le (l : List α) : Rearranges cmp (x :: y :: l) (y :: x :: l) :=
  .swap ho (Int.ne_of_gt (pos_of_not_le h)) l

theorem le_of_not_le : cmp y x ≤ 0 := ho.le_symm (Int.le_of_lt (pos_of_not_le h))

end

theorem sort2_spec (ho : TotalPreorder cmp) (x1 x2 : α) :
    Sorts cmp [x1, x2] (sort2 (le cmp) x1 x2) := by
  unfold sort2
  split
  · next h12 => exact (inOrder_pair (le_iff.mp h12)).self_sorts
  · next h12 => exact ⟨swap_of_not_le ho h12 [], inOrder_pair (le_of_not_le ho h12)⟩

theorem sort3_spec (ho : TotalPreorder cmp) (x1 x2 x3 : α) :
    Sorts cmp [x1, x2, x3] (sort3 (le cmp) x1 x2 x3) := by
  have hswap := @swap_of_not_le _ _ ho
  have hle := @le_of_not_le _ _ ho
  unfold sort3
  split_ifs with h12 h23 h13 h13 h23
  · exact (inOrder_triple ho (le_iff.mp h12) (le_iff.mp h23)).self_sorts
  · exact ⟨(hswap h23 []).cons x1, inOrder_triple ho (le_iff.mp h13) (hle h23)⟩
  · exact ⟨((hswap h23 []).cons x1).trans (hswap h13 [x2]),
      inOrder_triple ho (hle h13) (le_iff.mp h12)⟩
  · exact ⟨hswap h12 [x3], inOrder_triple ho (hle h12) (le_iff.mp h13)⟩
  · exact ⟨(hswap h12 [x3]).trans ((hswap h13 []).cons x2),
      inOrder_triple ho (le_iff.mp h23) (hle h13)⟩
  · exact ⟨((hswap h12 [x3]).trans ((hswap h13 []).cons x2)).trans (hswap h23 [x1]),
      inOrder_triple ho (hle h23) (hle h12)⟩

theorem after_eq (x y : α) : after cmp x y = !le cmp x y := by
  unfold after le
  rw [← decide_not]
  exact decide_eq_decide.mpr Int.not_le.symm

theorem sort2_after (x1 x2 : α) : sort2 (after cmp) x1 x2 = (sort2 (le cmp) x1 x2).reverse := by
  unfold sort2
  rw [after_eq]
  cases le cmp x1 x2 <;> rfl

theorem sort3_after (ho : TotalPreorder cmp) (x1 x2 x3 : α) :
    sort3 (after cmp) x1 x2 x3 = (sort3 (le cmp) x1 x2 x3).reverse := by
  have htrans : le cmp x1 x2 = true → le cmp x2 x3 = true → le cmp x1 x3 = true :=
    fun h12 h23 => le_iff.mpr (ho.trans x1 x2 x3 (le_iff.mp h12) (le_iff.mp h23))
  have htrans' : le cmp x1 x2 = false → le cmp x2 x3 = false → le cmp x1 x3 = false := by
    intro h12 h23
    have h21 := (ho.neg_iff x2 x1).mpr (Int.not_le.mp (of_decide_eq_false h12))
    have h32 := (ho.neg_iff x3 x2).mpr (Int.not_le.mp (of_decide_eq_false h23))
    have h31 := ho.lt_of_lt_of_le h32 (Int.le_of_lt h21)
    exact decide_eq_false (Int.not_le.mpr ((ho.neg_iff x3 x1).mp h31))
  unfold sort3
  rw [after_eq, after_eq, after_eq]
  cases h12 : le cmp x1 x2 <;> cases h23 : le cmp x2 x3 <;> cases h13 : le cmp x1 x3 <;> simp_all

/-! ## The two sorts -/

/-- **`sort` and `rev_sort` return the first elements of the list in order and in the reverse
order.** -/
theorem sort_spec (ho : TotalPreorder cmp) (n : Nat) (l tl : List α) (hn : 2 ≤ n)
    (hl : l.length = n) :
    (∃ s, sort cmp n (l ++ tl) = some (s, tl) ∧ Sorts cmp l s) ∧
    (∃ s, revSort cmp n (l ++ tl) = some (s, tl) ∧ Sorts cmp l s.reverse) := by
  induction n using Nat.strongRecOn generalizing l tl with
  | ind n ih =>
    match n, l, hl with
    | 2, [x1, x2], _ =>
      exact ⟨⟨_, by simp [sort], sort2_spec ho x1 x2⟩,
        ⟨sort2 (after cmp) x1 x2, by simp [revSort],
          by rw [sort2_after, reverse_reverse]; exact sort2_spec ho x1 x2⟩⟩
    | 3, [x1, x2, x3], _ =>
      exact ⟨⟨_, by simp [sort], sort3_spec ho x1 x2 x3⟩,
        ⟨sort3 (after cmp) x1 x2 x3, by simp [revSort],
          by rw [sort3_after ho, reverse_reverse]; exact sort3_spec ho x1 x2 x3⟩⟩
    | n + 4, l, hl =>
      have h1 := ih ((n + 4) / 2) (by omega) (l.take ((n + 4) / 2))
        (l.drop ((n + 4) / 2) ++ tl) (by omega) (by rw [length_take]; omega)
      have h2 := ih (n + 4 - (n + 4) / 2) (by omega) (l.drop ((n + 4) / 2)) tl (by omega)
        (by rw [length_drop]; omega)
      rw [← append_assoc, take_append_drop] at h1
      obtain ⟨⟨s1, hs1, hsorts1⟩, r1, hr1, hrev1⟩ := h1
      obtain ⟨⟨s2, hs2, hsorts2⟩, r2, hr2, hrev2⟩ := h2
      constructor
      · obtain ⟨s, hs, hsorts⟩ := revMergeRev_spec ho r1 r2 [] hrev1.inOrder hrev2.inOrder
        refine ⟨s, ?_, ?_⟩
        · rw [sort]
          · simp [hr1, hr2, hs]
          all_goals simp
        · rw [← take_append_drop ((n + 4) / 2) l]
          exact .of_rearranges (hrev1.append hrev2.toRearranges) hsorts
      · refine ⟨(List.merge s1 s2 (le cmp)).reverse, ?_, ?_⟩
        · rw [revSort]
          · simp [hs1, hs2, revMerge_eq]
          all_goals simp
        · rw [reverse_reverse, ← take_append_drop ((n + 4) / 2) l]
          exact hsorts1.merge ho hsorts2

/-- **`stable_sort` terminates and returns the elements of the list in non-decreasing order, where
those that compare as equal keep their order.** -/
theorem stableSort_sorts (ho : TotalPreorder cmp) (l : List α) :
    ∃ s, stableSort cmp l = some s ∧ s.Perm l ∧ (s.Pairwise fun x y => cmp x y ≤ 0) ∧
      ∀ x, s.filter (fun y => cmp x y = 0) = l.filter (fun y => cmp x y = 0) := by
  have hsorts : ∃ s, stableSort cmp l = some s ∧ Sorts cmp l s := by
    unfold stableSort
    dsimp only
    split
    · next hlt =>
      refine ⟨l, rfl, InOrder.self_sorts ?_⟩
      match l with
      | [] => exact .nil
      | [x] => exact pairwise_singleton _ x
    · next hge =>
      obtain ⟨⟨s, hs, hsorts⟩, -⟩ := sort_spec ho l.length l [] (by omega) rfl
      rw [append_nil] at hs
      exact ⟨s, by rw [hs]; rfl, hsorts⟩
  obtain ⟨s, hs, hsorts⟩ := hsorts
  exact ⟨s, hs, hsorts.perm, hsorts.inOrder, hsorts.stable⟩

end Spec

/-- Pairs are compared by their first component. -/
theorem stableSort_sorts_byFirst : let byFirst := fun x y : Int × Int => x.1 - y.1
    ∃ s, stableSort byFirst [(2, 0), (1, 5), (2, 1), (1, 4)] = some s ∧
      s.Perm [(2, 0), (1, 5), (2, 1), (1, 4)] ∧ (s.Pairwise fun x y => byFirst x y ≤ 0) ∧
      ∀ x, s.filter (fun y => byFirst x y = 0) =
        [(2, 0), (1, 5), (2, 1), (1, 4)].filter (fun y => byFirst x y = 0) :=
  stableSort_sorts (TotalPreorder.sub Prod.fst) _

end TravLang.ListStableSort
