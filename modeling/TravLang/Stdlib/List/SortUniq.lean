import TravLang.Lib.SortedAssoc

/-!
# `List.sort_uniq` (`stdlib/list.ml`)

The source has two copies of a merge sort that differ in the direction of every comparison, and each
one calls the other. Here both are one function of the comparison.
-/

namespace TravLang.ListSort

open SortedAssoc List

variable {α : Type}

/-- The comparison in the opposite direction. -/
def opp (cmp : α → α → Int) (x y : α) : Int := -cmp x y

/-- Pushes the elements of two lists on `accu`, the one that comes first in `cmp` first. -/
def revMergeBy (cmp : α → α → Int) (l1 l2 accu : List α) : List α :=
  match l1, l2 with
  | [], l2 => l2.reverseAux accu
  | l1, [] => l1.reverseAux accu
  | h1 :: t1, h2 :: t2 =>
    if cmp h1 h2 = 0 then revMergeBy cmp t1 t2 (h1 :: accu)
    else if cmp h1 h2 < 0 then revMergeBy cmp t1 (h2 :: t2) (h1 :: accu)
    else revMergeBy cmp (h1 :: t1) t2 (h2 :: accu)
termination_by l1.length + l2.length

def revMerge (cmp : α → α → Int) : List α → List α → List α → List α := revMergeBy cmp

def revMergeRev (cmp : α → α → Int) : List α → List α → List α → List α := revMergeBy (opp cmp)

def sort2 (cmp : α → α → Int) (x1 x2 : α) : List α :=
  if cmp x1 x2 = 0 then [x1] else if cmp x1 x2 < 0 then [x1, x2] else [x2, x1]

def sort3 (cmp : α → α → Int) (x1 x2 x3 : α) : List α :=
  if cmp x1 x2 = 0 then sort2 cmp x2 x3
  else if cmp x1 x2 < 0 then
    if cmp x2 x3 = 0 then [x1, x2]
    else if cmp x2 x3 < 0 then [x1, x2, x3]
    else if cmp x1 x3 = 0 then [x1, x2]
    else if cmp x1 x3 < 0 then [x1, x3, x2]
    else [x3, x1, x2]
  else
    if cmp x1 x3 = 0 then [x2, x1]
    else if cmp x1 x3 < 0 then [x2, x1, x3]
    else if cmp x2 x3 = 0 then [x2, x1]
    else if cmp x2 x3 < 0 then [x2, x3, x1]
    else [x3, x2, x1]

/-- The first `n` elements of a list in order, and the other ones. Below two elements the recursion
of the source would not end. -/
def sortBy (cmp : α → α → Int) (n : Nat) (l : List α) : Option (List α × List α) :=
  match n, l with
  | 2, x1 :: x2 :: tl => some (sort2 cmp x1 x2, tl)
  | 3, x1 :: x2 :: x3 :: tl => some (sort3 cmp x1 x2 x3, tl)
  | n, l =>
    if n < 2 then none
    else do
      let n1 := n / 2
      let n2 := n - n1
      let (s1, l2) ← sortBy (opp cmp) n1 l
      let (s2, tl) ← sortBy (opp cmp) n2 l2
      return (revMergeBy (opp cmp) s1 s2 [], tl)
termination_by n
decreasing_by all_goals omega

def sort (cmp : α → α → Int) : Nat → List α → Option (List α × List α) := sortBy cmp

def revSort (cmp : α → α → Int) : Nat → List α → Option (List α × List α) := sortBy (opp cmp)

def sortUniq (cmp : α → α → Int) (l : List α) : Option (List α) :=
  let len := l.length
  if len < 2 then some l else (sort cmp len l).map Prod.fst

/-! ## What it returns -/

/-- `s` lists the elements of `l` in strictly increasing order, one of each class. -/
structure Uniq (cmp : α → α → Int) (l s : List α) : Prop where
  increasing : s.Pairwise fun x y => cmp x y < 0
  subset : ∀ x ∈ s, x ∈ l
  cover : ∀ x ∈ l, ∃ y ∈ s, cmp x y = 0

section Spec

variable {cmp : α → α → Int} {l s : List α} {a b : α}

theorem totalPreorder_opp (h : TotalPreorder cmp) : TotalPreorder (opp cmp) where
  neg_iff x y := by
    have := h.neg_iff y x
    unfold opp
    omega
  trans x y z hxy hyz := by
    unfold opp at *
    have := h.trans z y x (h.le_symm (by omega)) (h.le_symm (by omega))
    have := h.neg_iff x z
    omega

/-- In the opposite direction, the reversed list is increasing. -/
theorem Uniq.reverse (ho : TotalPreorder cmp) (h : Uniq (opp cmp) l s) :
    Uniq cmp l s.reverse where
  increasing := by
    refine pairwise_reverse.mpr (h.increasing.imp fun {x y} hxy => ?_)
    exact (ho.neg_iff y x).mpr (by unfold opp at hxy; omega)
  subset x hx := h.subset x (mem_reverse.mp hx)
  cover x hx := by
    obtain ⟨y, hy, hxy⟩ := h.cover x hx
    exact ⟨y, mem_reverse.mpr hy, by unfold opp at hxy; omega⟩

theorem Uniq.mono {l' : List α} (h : Uniq cmp l s) (hl : ∀ x, x ∈ l ↔ x ∈ l') :
    Uniq cmp l' s where
  increasing := h.increasing
  subset x hx := (hl x).mp (h.subset x hx)
  cover x hx := h.cover x ((hl x).mpr hx)

section

variable (ho : TotalPreorder cmp)

include ho

/-- A list that is increasing already. -/
theorem uniq_self (h : s.Pairwise fun x y => cmp x y < 0) : Uniq cmp s s :=
  ⟨h, fun _ hx => hx, fun x hx => ⟨x, hx, ho.self x⟩⟩

/-- Elements equal to those of a list can join it. -/
theorem Uniq.join {l' : List α} (h : Uniq cmp l s) (hl : ∀ x ∈ l, x ∈ l')
    (hl' : ∀ x ∈ l', ∃ y ∈ l, cmp x y = 0) : Uniq cmp l' s where
  increasing := h.increasing
  subset x hx := hl x (h.subset x hx)
  cover x hx := by
    obtain ⟨y, hy, hxy⟩ := hl' x hx
    obtain ⟨z, hz, hyz⟩ := h.cover y hy
    exact ⟨z, hz, (ho.congr_zero hxy z).mpr hyz⟩

/-- A least element goes first. -/
theorem Uniq.cons {x : α} (h : Uniq cmp l s) (hlt : ∀ y ∈ l, cmp x y < 0) :
    Uniq cmp (x :: l) (x :: s) where
  increasing := pairwise_cons.mpr ⟨fun y hy => hlt y (h.subset y hy), h.increasing⟩
  subset := cons_subset_cons x h.subset
  cover y hy := by
    rcases mem_cons.mp hy with rfl | hy
    · exact ⟨y, mem_cons_self, ho.self y⟩
    · obtain ⟨z, hz, hyz⟩ := h.cover y hy
      exact ⟨z, mem_cons_of_mem _ hz, hyz⟩

theorem lt_of_lt_head {x y : α} (hxy : cmp x y < 0)
    (h : (y :: l).Pairwise fun x y => cmp x y < 0) : ∀ z ∈ y :: l, cmp x z < 0 :=
  forall_mem_cons.mpr ⟨hxy, fun z hz =>
    ho.lt_of_lt_of_le hxy (Int.le_of_lt ((pairwise_cons.mp h).1 z hz))⟩

theorem revMergeBy_spec (l1 l2 accu : List α)
    (h1 : l1.Pairwise fun x y => cmp x y < 0) (h2 : l2.Pairwise fun x y => cmp x y < 0) :
    ∃ s, revMergeBy cmp l1 l2 accu = s.reverse ++ accu ∧ Uniq cmp (l1 ++ l2) s := by
  fun_induction revMergeBy cmp l1 l2 accu with
  | case1 accu l2 => exact ⟨l2, reverseAux_eq, uniq_self ho h2⟩
  | case2 accu l1 _ => exact ⟨l1, reverseAux_eq, by simpa using uniq_self ho h1⟩
  | case3 accu x1 t1 x2 t2 heq ih =>
    obtain ⟨hx1, ht1⟩ := pairwise_cons.mp h1
    obtain ⟨hx2, ht2⟩ := pairwise_cons.mp h2
    obtain ⟨s, hs, hu⟩ := ih ht1 ht2
    have hlt : ∀ y ∈ t1 ++ t2, cmp x1 y < 0 :=
      forall_mem_append.mpr ⟨hx1, fun y hy => (ho.congr_neg heq y).mpr (hx2 y hy)⟩
    refine ⟨x1 :: s, by simp [hs], (hu.cons ho hlt).join ho (by grind) ?_⟩
    -- `x2` is left out, as it equals `x1`
    intro y hy
    by_cases hy2 : y = x2
    · exact ⟨x1, mem_cons_self, hy2 ▸ ho.zero_symm heq⟩
    · exact ⟨y, by simpa [hy2] using hy, ho.self y⟩
  | case4 accu x1 t1 x2 t2 hne hlt ih =>
    obtain ⟨hx1, ht1⟩ := pairwise_cons.mp h1
    obtain ⟨s, hs, hu⟩ := ih ht1 h2
    refine ⟨x1 :: s, by simp [hs], hu.cons ho ?_⟩
    exact forall_mem_append.mpr ⟨hx1, lt_of_lt_head ho hlt h2⟩
  | case5 accu x1 t1 x2 t2 hne hlt ih =>
    have hgt : cmp x2 x1 < 0 := (ho.neg_iff x2 x1).mpr (by omega)
    obtain ⟨hx2, ht2⟩ := pairwise_cons.mp h2
    obtain ⟨s, hs, hu⟩ := ih h1 ht2
    refine ⟨x2 :: s, by simp [hs], (hu.cons ho ?_).mono (by simp [or_left_comm])⟩
    exact forall_mem_append.mpr ⟨lt_of_lt_head ho hgt h1, hx2⟩

theorem sort2_spec (x1 x2 : α) : Uniq cmp [x1, x2] (sort2 cmp x1 x2) := by
  unfold sort2
  split
  · next h =>
    have := ho.zero_symm h
    exact ⟨by simp, by simp, by simp [this, ho.self]⟩
  · next hne =>
    split
    · next h => exact uniq_self ho (by simpa using h)
    · next h =>
      have := (ho.neg_iff x2 x1).mpr (by omega)
      exact (uniq_self ho (by simpa using this)).mono (by simp [or_comm])

end

/-- Two classes of elements. -/
theorem uniq_pair (hab : cmp a b < 0) (ha : a ∈ l) (hb : b ∈ l)
    (hcover : ∀ x ∈ l, cmp x a = 0 ∨ cmp x b = 0) : Uniq cmp l [a, b] where
  increasing := by simpa using hab
  subset := by simp [ha, hb]
  cover x hx := by simpa using hcover x hx

/-- Three classes of elements. -/
theorem uniq_triple (ho : TotalPreorder cmp) {c : α} (hab : cmp a b < 0) (hbc : cmp b c < 0)
    (hl : ∀ x, x ∈ [a, b, c] ↔ x ∈ l) : Uniq cmp l [a, b, c] := by
  have hac := ho.lt_of_lt_of_le hab (Int.le_of_lt hbc)
  refine (uniq_self ho ?_).mono hl
  simp [hab, hbc, hac]

theorem sort3_spec (ho : TotalPreorder cmp) (x1 x2 x3 : α) :
    Uniq cmp [x1, x2, x3] (sort3 cmp x1 x2 x3) := by
  have hgt : ∀ {x y : α}, ¬ cmp x y = 0 → ¬ cmp x y < 0 → cmp y x < 0 :=
    fun {x y} hne hlt => (ho.neg_iff y x).mpr (by omega)
  have hself := ho.self
  unfold sort3
  split_ifs with e12 h12 e23 h23 e13 h13 e13 h13 e23 h23
  -- the first element is left out, as it equals the second one
  · exact (sort2_spec ho x2 x3).join ho (by simp +contextual) (by simp [e12, hself])
  · exact uniq_pair h12 (by simp) (by simp) (by simp [hself, ho.zero_symm e23])
  · exact uniq_triple ho h12 h23 (by simp)
  · exact uniq_pair h12 (by simp) (by simp) (by simp [hself, ho.zero_symm e13])
  · exact uniq_triple ho h13 (hgt e23 h23) (by simp [or_comm])
  · exact uniq_triple ho (hgt e13 h13) h12 (by simp [or_comm, or_left_comm])
  · exact uniq_pair (hgt e12 h12) (by simp) (by simp) (by simp [hself, ho.zero_symm e13])
  · exact uniq_triple ho (hgt e12 h12) h13 (by simp [or_left_comm])
  · exact uniq_pair (hgt e12 h12) (by simp) (by simp) (by simp [hself, ho.zero_symm e23])
  · exact uniq_triple ho h23 (hgt e13 h13) (by simp [or_comm, or_left_comm])
  · exact uniq_triple ho (hgt e23 h23) (hgt e12 h12) (by simp [or_comm, or_left_comm])

/-- **`sort` returns the first elements of the list in strictly increasing order.** -/
theorem sortBy_spec (ho : TotalPreorder cmp) (n : Nat) (l1 tl : List α) (hn : 2 ≤ n)
    (hl : l1.length = n) : ∃ s, sortBy cmp n (l1 ++ tl) = some (s, tl) ∧ Uniq cmp l1 s := by
  induction n using Nat.strongRecOn generalizing cmp l1 tl with
  | ind n ih =>
    match n, l1, hl with
    | 2, [x1, x2], _ =>
      exact ⟨sort2 cmp x1 x2, by simp [sortBy], sort2_spec ho x1 x2⟩
    | 3, [x1, x2, x3], _ =>
      exact ⟨sort3 cmp x1 x2 x3, by simp [sortBy], sort3_spec ho x1 x2 x3⟩
    | n + 4, l1, hl =>
      have ho' := totalPreorder_opp ho
      obtain ⟨s1, hs1, hu1⟩ := ih ((n + 4) / 2) (by omega) ho' (l1.take ((n + 4) / 2))
        (l1.drop ((n + 4) / 2) ++ tl) (by omega) (by rw [length_take]; omega)
      obtain ⟨s2, hs2, hu2⟩ := ih (n + 4 - (n + 4) / 2) (by omega) ho' (l1.drop ((n + 4) / 2)) tl
        (by omega) (by rw [length_drop]; omega)
      rw [← append_assoc, take_append_drop] at hs1
      obtain ⟨s, hs, hu⟩ := revMergeBy_spec ho' s1 s2 [] hu1.increasing hu2.increasing
      refine ⟨s.reverse, ?_, ?_⟩
      · rw [sortBy]
        · simp [hs1, hs2, hs]
        all_goals simp
      · refine (hu.join ho' (forall_mem_append.mpr ⟨fun x hx => mem_of_mem_take (hu1.subset x hx),
          fun x hx => mem_of_mem_drop (hu2.subset x hx)⟩) fun x hx => ?_).reverse ho
        rw [← take_append_drop ((n + 4) / 2) l1] at hx
        rcases mem_append.mp hx with hx | hx
        · obtain ⟨y, hy, hxy⟩ := hu1.cover x hx
          exact ⟨y, mem_append_left _ hy, hxy⟩
        · obtain ⟨y, hy, hxy⟩ := hu2.cover x hx
          exact ⟨y, mem_append_right _ hy, hxy⟩

theorem sortUniq_spec (ho : TotalPreorder cmp) (l : List α) :
    ∃ s, sortUniq cmp l = some s ∧ Uniq cmp l s := by
  unfold sortUniq
  dsimp only
  split
  · next hlt =>
    refine ⟨l, rfl, uniq_self ho ?_⟩
    match l with
    | [] => exact .nil
    | [x] => simp
  · next hge =>
    obtain ⟨s, hs, hu⟩ := sortBy_spec ho l.length l [] (by omega) rfl
    rw [append_nil] at hs
    exact ⟨s, by rw [sort, hs]; rfl, hu⟩

/-- **`sort_uniq` keeps one element of each class, in strictly increasing order.** -/
theorem sort_uniq_exact (ho : TotalPreorder cmp) (l : List α) :
    ∃ s, sortUniq cmp l = some s ∧ (s.Pairwise fun x y => cmp x y < 0) ∧ (∀ x ∈ s, x ∈ l) ∧
      ∀ x ∈ l, s.countP (fun y => cmp x y = 0) = 1 := by
  obtain ⟨s, hs, hu⟩ := sortUniq_spec ho l
  refine ⟨s, hs, hu.increasing, hu.subset, fun x hx => ?_⟩
  obtain ⟨y, hy, hxy⟩ := hu.cover x hx
  obtain ⟨a, b, rfl⟩ := append_of_mem hy
  obtain ⟨-, hyb, hay⟩ := pairwise_append.mp hu.increasing
  -- the elements before `y` are below `x`, and those after it above
  have ha : a.countP (fun y => cmp x y = 0) = 0 := countP_eq_zero.mpr fun z hz => by
    have := hay z hz y mem_cons_self
    have := (ho.neg_iff z y).mp this
    have := ho.congr_pos hxy z
    simp only [decide_eq_true_eq]
    omega
  have hb : b.countP (fun y => cmp x y = 0) = 0 := countP_eq_zero.mpr fun z hz => by
    have := (ho.congr_neg hxy z).mpr ((pairwise_cons.mp hyb).1 z hz)
    simp only [decide_eq_true_eq]
    omega
  rw [countP_append, countP_cons, ha, hb, if_pos (decide_eq_true hxy)]

/-- Pairs compared by their first components -/
theorem sort_uniq_exact_pairs :
    ∃ s, sortUniq (fun x y : Int × Int => x.1 - y.1) [(2, 0), (1, 1), (2, 2)] = some s ∧
      s.countP (fun y => 2 - y.1 = 0) = 1 := by
  have ho : TotalPreorder fun x y : Int × Int => x.1 - y.1 :=
    ⟨fun x y => by omega, fun x y z => by omega⟩
  obtain ⟨s, hs, -, -, hcount⟩ := sort_uniq_exact ho [(2, 0), (1, 1), (2, 2)]
  exact ⟨s, hs, hcount (2, 0) mem_cons_self⟩

end Spec

end TravLang.ListSort
