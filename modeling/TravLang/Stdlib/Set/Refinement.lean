import Mathlib.Data.Nat.Size
import TravLang.Stdlib.Set.WellFormed

/-!
# `Set.Make` refines finite sets

The comparisons of sets go through the elements in increasing order; `map` and `filter_map` put
images that may be out of order back into a tree; `of_list` builds the tree of a sorted list
directly, with subtrees whose sizes differ by at most one.
-/

namespace TravLang.Set

open List Avl.Tree Result
open Map (Exn PhysEq)
open SortedAssoc

variable {κ : Type} {cmp : κ → κ → Int} {x v : κ} {xs ys : List κ} {l r s : T κ} {h n : Nat}

theorem elementsAux_eq : ∀ (accu : List κ) (s : T κ), elementsAux accu s = s.toList ++ accu
  | accu, .empty => rfl
  | accu, .node l v r h => by
    rw [elementsAux, elementsAux_eq, elementsAux_eq]
    simp [toList]

theorem elements_eq (s : T κ) : elements s = s.toList := by
  simp [elements, elementsAux_eq]

/-! ## `compare` and `equal` -/

/-- The elements still to come. -/
def Enumeration.toList : Enumeration κ → List κ
  | .done => []
  | .more v t e => v :: (t.toList ++ e.toList)

theorem toList_consEnum : ∀ (s : T κ) (e : Enumeration κ),
    (consEnum s e).toList = s.toList ++ e.toList
  | .empty, e => rfl
  | .node l v r h, e => by
    rw [consEnum, toList_consEnum l]
    simp [Enumeration.toList, toList]

/-- The sign of a comparison of lists is the one of the lexicographic order. -/
structure Compares (cmp : κ → κ → Int) (c : Int) (xs ys : List κ) : Prop where
  neg : c < 0 ↔ List.Lex (fun x y => cmp x y < 0) xs ys
  zero : c = 0 ↔ xs = ys
  pos : 0 < c ↔ List.Lex (fun x y => cmp x y < 0) ys xs

theorem Compares.cons_same (ho : TotalOrder cmp) {c : Int} (h : Compares cmp c xs ys) :
    Compares cmp c (x :: xs) (x :: ys) := by
  have hirr : ¬ cmp x x < 0 := by
    rw [ho.self x]
    exact Int.lt_irrefl 0
  have hlex : ∀ {as bs : List κ}, List.Lex (fun x y => cmp x y < 0) (x :: as) (x :: bs) ↔
      List.Lex (fun x y => cmp x y < 0) as bs := by
    intro as bs
    constructor
    · rintro (_ | h | h)
      · exact absurd h hirr
      · exact h
    · exact .cons
  exact ⟨h.neg.trans hlex.symm, by simpa using h.zero, h.pos.trans hlex.symm⟩

theorem Compares.cons_of_ne (ho : TotalOrder cmp) {y : κ} (hne : cmp x y ≠ 0) (xs ys : List κ) :
    Compares cmp (cmp x y) (x :: xs) (y :: ys) := by
  have hxy : x ≠ y := fun heq => hne (heq ▸ ho.self x)
  have hlex : ∀ {x y : κ} {as bs : List κ}, x ≠ y →
      (List.Lex (fun x y => cmp x y < 0) (x :: as) (y :: bs) ↔ cmp x y < 0) := by
    intro x y as bs hxy
    constructor
    · rintro (_ | h | h)
      · exact h
      · exact absurd rfl hxy
    · exact fun h => .rel h
  refine ⟨(hlex hxy).symm, iff_of_false hne (by simp [hxy]), ?_⟩
  rw [hlex (Ne.symm hxy), ho.neg_iff]

theorem compareAux_spec (ho : TotalOrder cmp) : ∀ (e1 e2 : Enumeration κ),
    Compares cmp (compareAux cmp e1 e2) e1.toList e2.toList
  | .done, .done => by constructor <;> simp [compareAux, Enumeration.toList]
  | .done, .more v2 r2 e2 => by constructor <;> simp [compareAux, Enumeration.toList]
  | .more v1 r1 e1, .done => by constructor <;> simp [compareAux, Enumeration.toList]
  | .more v1 r1 e1, .more v2 r2 e2 => by
    rw [compareAux]
    split
    · next hne => exact .cons_of_ne ho hne _ _
    · next h0 =>
      obtain rfl := ho.eq_of_zero v1 v2 (not_not.mp h0)
      have ih := compareAux_spec ho (consEnum r1 e1) (consEnum r2 e2)
      rw [toList_consEnum, toList_consEnum] at ih
      exact ih.cons_same ho
termination_by e1 => e1.size
decreasing_by simp only [size_consEnum, Enumeration.size]; omega

theorem compare_spec (ho : TotalOrder cmp) (s1 s2 : T κ) :
    Compares cmp (compare cmp s1 s2) (elements s1) (elements s2) := by
  have h := compareAux_spec ho (consEnum s1 .done) (consEnum s2 .done)
  rw [toList_consEnum, toList_consEnum] at h
  simp only [Enumeration.toList, append_nil, ← elements_eq] at h
  exact h

/-- Two increasing lists with the same members are the same. -/
theorem eq_of_sorted (ho : TotalPreorder cmp) (hx : xs.Pairwise fun x y => cmp x y < 0)
    (hy : ys.Pairwise fun x y => cmp x y < 0) (hmem : ∀ x, x ∈ xs ↔ x ∈ ys) : xs = ys := by
  have hne : ∀ x y, cmp x y < 0 → x ≠ y := by
    rintro x _ hlt rfl
    rw [ho.self x] at hlt
    exact Int.lt_irrefl 0 hlt
  refine List.Perm.eq_of_pairwise ?_ hx hy ((perm_ext_iff_of_nodup
    (hx.imp @hne) (hy.imp @hne)).mpr hmem)
  intro x y _ _ hxy hyx
  have := (ho.neg_iff x y).mp hxy
  omega

theorem equal_iff (ho : TotalOrder cmp) {s1 s2 : T κ} (h1 : WellFormed cmp s1)
    (h2 : WellFormed cmp s2) :
    equal cmp s1 s2 = true ↔ ∀ x, x ∈ s1.toList ↔ x ∈ s2.toList := by
  rw [equal, decide_eq_true_iff, (compare_spec ho s1 s2).zero, elements_eq, elements_eq]
  constructor
  · intro heq x
    rw [heq]
  · exact eq_of_sorted ho.toTotalPreorder h1.sorted h2.sorted

/-! ## `subset` -/

theorem forall_mem_node {P : κ → Prop} : (∀ x ∈ (node l v r h).toList, P x) ↔
    (∀ x ∈ l.toList, P x) ∧ P v ∧ ∀ x ∈ r.toList, P x := by
  rw [toList, forall_mem_append, forall_mem_cons]

/-- Only the order of the elements matters, not the heights that the nodes store. -/
theorem subset_iff (ho : TotalOrder cmp) : ∀ (s1 s2 : T κ),
    (s1.toList.Pairwise fun x y => cmp x y < 0) → (s2.toList.Pairwise fun x y => cmp x y < 0) →
    (subset cmp s1 s2 = true ↔ ∀ x ∈ s1.toList, x ∈ s2.toList)
  | .empty, s2, _, _ => by simp [subset, toList]
  | .node l1 v1 r1 h1, .empty, _, _ => by
    rw [subset]
    · exact iff_of_false (by simp) fun h => by simpa [toList] using h v1 (by simp [toList])
    · simp
  | .node l1 v1 r1 h1, .node l2 v2 r2 h2, hs1, hs2 => by
    have ho' := ho.toTotalPreorder
    obtain ⟨hl1, hr1, hlv1, hvr1⟩ := sorted_node hs1
    obtain ⟨hl2, hr2, -, -⟩ := sorted_node hs2
    -- what is below `v2` lies left of it, and what is above lies right of it
    have hleft : cmp v1 v2 ≤ 0 → ((∀ x ∈ l1.toList, x ∈ (node l2 v2 r2 h2).toList) ↔
        ∀ x ∈ l1.toList, x ∈ l2.toList) := fun hle => forall₂_congr fun x hx =>
      mem_node_of_neg ho' hs2 (ho'.lt_of_lt_of_le (hlv1 x hx) hle)
    have hright : cmp v2 v1 ≤ 0 → ((∀ x ∈ r1.toList, x ∈ (node l2 v2 r2 h2).toList) ↔
        ∀ x ∈ r1.toList, x ∈ r2.toList) := fun hle => forall₂_congr fun x hx =>
      mem_node_of_pos ho' hs2 (ho'.lt_of_le_of_lt hle (hvr1 x hx))
    rw [subset, forall_mem_node]
    split
    · next h0 =>
      obtain rfl := ho.eq_of_zero v1 v2 h0
      rw [Bool.and_eq_true, subset_iff ho l1 l2 hl1 hl2, subset_iff ho r1 r2 hr1 hr2,
        hleft (by omega), hright (by omega)]
      simp [mem_node]
    · split
      · next hlt =>
        have hs1' : (node l1 v1 .empty 0).toList.Pairwise fun x y => cmp x y < 0 :=
          sorted_around ho' hl1 .nil hlv1 (by simp [toList])
        rw [Bool.and_eq_true, subset_iff ho _ l2 hs1' hl2, subset_iff ho r1 _ hr1 hs2,
          forall_mem_node, hleft (by omega), mem_node_of_neg ho' hs2 hlt]
        simp [toList, and_assoc]
      · next hne hnlt =>
        have hgt : cmp v2 v1 < 0 := (ho.neg_iff v2 v1).mpr (by omega)
        have hs1' : (node .empty v1 r1 0).toList.Pairwise fun x y => cmp x y < 0 :=
          sorted_around ho' .nil hr1 (by simp [toList]) hvr1
        rw [Bool.and_eq_true, subset_iff ho _ r2 hs1' hr2, subset_iff ho l1 _ hl1 hs2,
          forall_mem_node, hright (by omega), mem_node_of_pos ho' hs2 hgt]
        simp [toList, and_comm]
termination_by s1 s2 => s1.size + s2.size
decreasing_by all_goals simp only [size]; omega

/-! ## `partition` -/

theorem partition_toList (p : κ → Bool) : ∀ {s : T κ}, s.Balanced →
    ∃ t f, partition p s = .ok (t, f) ∧ t.Balanced ∧ f.Balanced ∧
      t.toList = s.toList.filter p ∧ f.toList = s.toList.filter fun x => !p x
  | .empty, _ => ⟨.empty, .empty, rfl, trivial, trivial, rfl, rfl⟩
  | .node l v r h, hb => by
    obtain ⟨hl, hr, -⟩ := balanced_node.mp hb
    obtain ⟨lt, lf, hpl, hblt, hblf, hlt, hlf⟩ := partition_toList p hl
    obtain ⟨rt, rf, hpr, hbrt, hbrf, hrt, hrf⟩ := partition_toList p hr
    simp only [partition, hpl, hpr, ok_bind, toList, filter_append, filter_cons]
    cases p v with
    | true =>
      obtain ⟨t, ht, hbt, -⟩ := Avl.join_grows (e := errors) (x := v) hblt hbrt
      obtain ⟨f, hf, hbf⟩ := Avl.concat_balanced (e := errors) hblf hbrf
      exact ⟨t, f, by simp [join, concat, ht, hf], hbt, hbf,
        by simp [Avl.join_toList ht, hlt, hrt], by simp [Avl.concat_toList hf, hlf, hrf]⟩
    | false =>
      obtain ⟨t, ht, hbt⟩ := Avl.concat_balanced (e := errors) hblt hbrt
      obtain ⟨f, hf, hbf, -⟩ := Avl.join_grows (e := errors) (x := v) hblf hbrf
      exact ⟨t, f, by simp [join, concat, ht, hf], hbt, hbf,
        by simp [Avl.concat_toList ht, hlt, hrt], by simp [Avl.join_toList hf, hlf, hrf]⟩

theorem partition_spec (p : κ → Bool) {s : T κ} (hs : WellFormed cmp s) :
    ∃ t f, partition p s = .ok (t, f) ∧ WellFormed cmp t ∧ WellFormed cmp f ∧
      (∀ x, x ∈ t.toList ↔ x ∈ s.toList ∧ p x = true) ∧
      ∀ x, x ∈ f.toList ↔ x ∈ s.toList ∧ p x = false := by
  obtain ⟨t, f, hpart, hbt, hbf, ht, hf⟩ := partition_toList p hs.balanced
  refine ⟨t, f, hpart, ⟨?_, hbt⟩, ⟨?_, hbf⟩, fun x => by simp [ht], fun x => by simp [hf]⟩
  · rw [ht]
    exact hs.sorted.filter _
  · rw [hf]
    exact hs.sorted.filter _

/-! ## `map` and `filter_map` -/

theorem maxEltOpt_spec (ho : TotalPreorder cmp) : ∀ {s : T κ},
    (s.toList.Pairwise fun x y => cmp x y < 0) →
    (s.toList = [] ∧ maxEltOpt s = none) ∨
      ∃ m ∈ s.toList, maxEltOpt s = some m ∧ ∀ x ∈ s.toList, cmp x m ≤ 0
  | .empty, _ => .inl ⟨rfl, rfl⟩
  | .node l v .empty h, hs => by
    obtain ⟨-, -, hlv, -⟩ := sorted_node hs
    refine .inr ⟨v, by simp [toList], rfl, fun x hx => ?_⟩
    rcases mem_node.mp hx with hx | rfl | hx
    · exact Int.le_of_lt (hlv x hx)
    · exact Int.le_of_eq (ho.self x)
    · cases hx
  | .node l v (.node l' v' r' h') h, hs => by
    obtain ⟨-, hr, hlv, hvr⟩ := sorted_node hs
    rcases maxEltOpt_spec ho hr with ⟨hnil, -⟩ | ⟨m, hmem, hm, hmax⟩
    · simp [toList] at hnil
    · refine .inr ⟨m, mem_node.mpr (.inr (.inr hmem)), by rw [maxEltOpt]; exact hm; simp, ?_⟩
      intro x hx
      rcases mem_node.mp hx with hx | rfl | hx
      · exact Int.le_of_lt (ho.lt_of_lt_of_le (hlv x hx) (Int.le_of_lt (hvr m hmem)))
      · exact Int.le_of_lt (hvr m hmem)
      · exact hmax x hx

theorem maxElt_eq : ∀ (s : T κ), maxElt s = (maxEltOpt s).elim (.error .notFound) .ok
  | .empty => rfl
  | .node _ _ .empty _ => rfl
  | .node _ _ (.node l v r h) _ => maxElt_eq (.node l v r h)

theorem maxElt_spec (ho : TotalPreorder cmp) (hs : s.toList.Pairwise fun x y => cmp x y < 0)
    (hne : s ≠ .empty) :
    ∃ m, maxElt s = .ok m ∧ ∀ x ∈ s.toList, cmp x m ≤ 0 := by
  rcases maxEltOpt_spec ho hs with ⟨hnil, -⟩ | ⟨m, -, hm, hmax⟩
  · cases s with
    | empty => exact absurd rfl hne
    | node l v r h => simp [toList] at hnil
  · exact ⟨m, by rw [maxElt_eq, hm]; rfl, hmax⟩

theorem minEltOpt_mem : ∀ {s : T κ} {m : κ}, minEltOpt s = some m → m ∈ s.toList
  | .node .empty v r h, m, hm => by
    cases hm
    simp [toList]
  | .node (.node l' v' r' h') v r h, m, hm => by
    rw [minEltOpt] at hm
    · exact mem_node.mpr (.inl (minEltOpt_mem hm))
    · simp

theorem any_iff (p : κ → Bool) : ∀ {s : T κ}, any p s = true ↔ ∃ x ∈ s.toList, p x = true
  | .empty => by simp [any, toList]
  | .node l v r h => by
    simp only [any, Bool.or_eq_true, any_iff p, mem_node, or_and_right, exists_or, exists_eq_left]
    rw [or_assoc, or_left_comm]

/-- The least element, and the tree without it. -/
theorem minElt_spec (hs : WellFormed cmp s) (hne : s ≠ .empty) :
    ∃ m s', minElt s = .ok m ∧ removeMinElt s = .ok s' ∧ WellFormed cmp s' ∧
      s.toList = m :: s'.toList ∧ ∀ x ∈ s'.toList, cmp m x < 0 := by
  obtain ⟨m, hm⟩ := Avl.minElt_ok (e := errors) hne
  obtain ⟨s', hs', hb, -⟩ := Avl.removeMin_grows (e := errors) hne hs.balanced
  have hlist : s.toList = m :: s'.toList := Avl.minElt_cons_removeMin hm hs'
  have hsorted := hs.sorted
  rw [hlist, pairwise_cons] at hsorted
  exact ⟨m, s', hm, hs', ⟨hsorted.2, hb⟩, hlist, hsorted.1⟩

theorem below_spec (ho : TotalPreorder cmp) (v : κ) (hl : WellFormed cmp l) :
    ∃ b, below cmp l v = .ok b ∧ (b = true → ∀ x ∈ l.toList, cmp x v < 0) := by
  cases l with
  | empty => exact ⟨true, rfl, fun _ => nofun⟩
  | node l' v' r' h =>
    obtain ⟨m, hm, hmax⟩ := maxElt_spec ho hl.sorted nofun
    refine ⟨decide (cmp m v < 0), by simp [below, isEmpty, hm], fun hb x hx => ?_⟩
    exact ho.lt_of_le_of_lt (hmax x hx) (of_decide_eq_true hb)

theorem above_spec (ho : TotalPreorder cmp) (v : κ) (hr : WellFormed cmp r) :
    ∃ b, above cmp v r = .ok b ∧ (b = true → ∀ x ∈ r.toList, cmp v x < 0) := by
  cases r with
  | empty => exact ⟨true, rfl, fun _ => nofun⟩
  | node l' v' r' h =>
    obtain ⟨m, s', hm, -, -, hlist, hmin⟩ := minElt_spec hr nofun
    refine ⟨decide (cmp v m < 0), by simp [above, isEmpty, hm], fun hb x hx => ?_⟩
    rw [hlist] at hx
    rcases mem_cons.mp hx with rfl | hx
    · exact of_decide_eq_true hb
    · exact ho.lt_of_lt_of_le (of_decide_eq_true hb) (Int.le_of_lt (hmin x hx))

/-- The test of `try_join` looks at the two elements next to `v` only. -/
theorem joinable_spec (ho : TotalPreorder cmp) (v : κ) (hl : WellFormed cmp l)
    (hr : WellFormed cmp r) : ∃ b, joinable cmp l v r = .ok b ∧
      (b = true → (∀ x ∈ l.toList, cmp x v < 0) ∧ ∀ x ∈ r.toList, cmp v x < 0) := by
  obtain ⟨bl, hbl, hl'⟩ := below_spec ho v hl
  obtain ⟨br, hbr, hr'⟩ := above_spec ho v hr
  rw [joinable, hbl, ok_bind]
  cases bl with
  | true => exact ⟨br, hbr, fun hb => ⟨hl' rfl, hr' hb⟩⟩
  | false => exact ⟨false, rfl, nofun⟩

theorem map_eq_filterMap (f : κ → κ) : ∀ (phys : PhysEq) (s : T κ),
    map cmp phys f s = filterMap cmp phys (fun x => some (f x)) s
  | _, .empty => rfl
  | phys, .node l v r h => by
    simp only [map, filterMap, map_eq_filterMap f (phys.sub 0) l, map_eq_filterMap f (phys.sub 1) r]

section

variable (ho : TotalOrder cmp)

include ho

theorem tryJoin_gives (phys : PhysEq) (v : κ) (hl : WellFormed cmp l) (hr : WellFormed cmp r) :
    Gives cmp (tryJoin cmp phys l v r) fun x => x ∈ l.toList ∨ x = v ∨ x ∈ r.toList := by
  obtain ⟨b, hb, hord⟩ := joinable_spec ho.toTotalPreorder v hl hr
  unfold tryJoin
  rw [hb, ok_bind]
  cases b with
  | true => exact join_gives ho.toTotalPreorder hl hr (hord rfl).1 (hord rfl).2
  | false =>
    obtain ⟨r', hr', hwr', hmr'⟩ := add_gives ho (phys.sub 1) v hr
    obtain ⟨t, ht, hwt, hmt⟩ := union_gives ho (phys.sub 0) l r' hl hwr'
    exact ⟨t, by simp [hr', ht], hwt, fun x => by simp only [hmt, hmr']⟩

theorem tryConcat_gives (phys : PhysEq) {t1 t2 : T κ}
    (h1 : WellFormed cmp t1) (h2 : WellFormed cmp t2) :
    Gives cmp (tryConcat cmp phys t1 t2) fun x => x ∈ t1.toList ∨ x ∈ t2.toList := by
  cases t1 with
  | empty => exact ⟨t2, by simp [tryConcat], h2, by simp [toList]⟩
  | node l v r h =>
    cases t2 with
    | empty => exact ⟨_, by simp [tryConcat], h1, by simp [toList]⟩
    | node l' v' r' h' =>
      obtain ⟨m, s', hm, hs', hw', hlist, -⟩ := minElt_spec h2 (by simp)
      obtain ⟨t, ht, hwt, hmt⟩ := tryJoin_gives ho phys m h1 hw'
      exact ⟨t, by simp [tryConcat, hm, hs', ht], hwt, fun x => by simp [hmt, hlist]⟩

/-- The tree itself if nothing has changed, else the join of the images. -/
theorem rejoin_gives (phys : PhysEq) {l' r' : T κ} (v' : κ)
    (hw : WellFormed cmp (.node l v r h)) (hl : WellFormed cmp l') (hr : WellFormed cmp r') :
    Gives cmp (if phys.same 0 l l' && phys.same 1 v v' && phys.same 2 r r'
        then return .node l v r h else tryJoin cmp (phys.sub 2) l' v' r')
      fun y => y ∈ l'.toList ∨ y = v' ∨ y ∈ r'.toList := by
  split
  · next hsame =>
    simp only [Bool.and_eq_true] at hsame
    refine ⟨_, rfl, hw, fun y => ?_⟩
    rw [mem_node, ← PhysEq.eq_of_same hsame.1.1, ← PhysEq.eq_of_same hsame.1.2,
      ← PhysEq.eq_of_same hsame.2]
  · exact tryJoin_gives ho (phys.sub 2) v' hl hr

theorem filterMap_gives (f : κ → Option κ) : ∀ (phys : PhysEq) {s : T κ}, WellFormed cmp s →
    Gives cmp (filterMap cmp phys f s) fun y => ∃ x ∈ s.toList, f x = some y
  | phys, .empty, _ => ⟨.empty, rfl, wellFormed_empty, by simp [toList]⟩
  | phys, .node l v r h, hw => by
    obtain ⟨hl, hr, -, -⟩ := hw.node
    obtain ⟨l', hl', hwl, hml⟩ := filterMap_gives f (phys.sub 0) hl
    obtain ⟨r', hr', hwr, hmr⟩ := filterMap_gives f (phys.sub 1) hr
    have hmem : ∀ y, (y ∈ l'.toList ∨ f v = some y ∨ y ∈ r'.toList) ↔
        ∃ x ∈ (node l v r h).toList, f x = some y := by
      intro y
      simp only [hml, hmr, mem_node, or_and_right, exists_or, exists_eq_left]
    rw [filterMap]
    simp only [hl', hr', ok_bind]
    cases hv : f v with
    | none =>
      obtain ⟨t, ht, hwt, hmt⟩ := tryConcat_gives ho (phys.sub 2) hwl hwr
      refine ⟨t, ht, hwt, fun y => ?_⟩
      simpa [hv, hmt] using hmem y
    | some v' =>
      obtain ⟨t, ht, hwt, hmt⟩ := rejoin_gives ho phys v' hw hwl hwr
      refine ⟨t, ht, hwt, fun y => (hmt y).trans (Iff.trans ?_ (hmem y))⟩
      rw [hv, Option.some.injEq, @eq_comm _ v']

theorem map_gives (f : κ → κ) (phys : PhysEq)
    (hw : WellFormed cmp s) : Gives cmp (map cmp phys f s) fun y => ∃ x ∈ s.toList, f x = y := by
  simpa [map_eq_filterMap] using filterMap_gives ho (fun x => some (f x)) phys hw

end

/-! ## `of_list` and `of_seq` -/

/-- The number of bits of the size of a tree that is cut in two at every level. -/
theorem size_succ (hn : 0 < n) : n.size = (n / 2).size + 1 := by
  have hbit : Nat.bit (n % 2 == 1) (n / 2) = n := by
    rw [Nat.bit_val]
    rcases Nat.mod_two_eq_zero_or_one n with h | h <;> simp [h] <;> omega
  conv_lhs => rw [← hbit]
  exact Nat.size_bit (by rw [hbit]; omega)

/-- The two halves around the middle have heights that differ by at most one. -/
theorem size_halves (hn : 0 < n) :
    (n - n / 2 - 1).size ≤ (n / 2).size ∧ (n / 2).size ≤ (n - n / 2 - 1).size + 1 := by
  constructor
  · exact Nat.size_le_size (by omega)
  · rw [Nat.size_le, Nat.pow_succ]
    have := Nat.lt_size_self (n - n / 2 - 1)
    omega

/-- `sub n l` builds the tree of the first `n` elements of `l`. -/
theorem sortedSub_spec (n : Nat) (l1 l2 : List κ) (hn : l1.length = n) :
    ∃ t : T κ, sortedSub n (l1 ++ l2) = .ok (t, l2) ∧ t.toList = l1 ∧ t.Balanced ∧
      t.height = n.size := by
  induction n using Nat.strongRecOn generalizing l1 l2 with
  | _ n ih =>
    match n, l1, hn with
    | 0, [], _ => exact ⟨.empty, by simp [sortedSub], rfl, trivial, rfl⟩
    | 1, [x0], _ =>
      exact ⟨Avl.singleton x0, by simp [sortedSub, Avl.singleton], rfl, Avl.balanced_singleton x0,
        rfl⟩
    | 2, [x0, x1], _ =>
      exact ⟨.node (Avl.singleton x0) x1 .empty 2, by simp [sortedSub, Avl.singleton], rfl,
        by simp [Avl.Tree.Balanced, Avl.singleton, depth], rfl⟩
    | 3, [x0, x1, x2], _ =>
      exact ⟨.node (Avl.singleton x0) x1 (Avl.singleton x2) 2, by simp [sortedSub, Avl.singleton],
        rfl, by simp [Avl.Tree.Balanced, Avl.singleton, depth], rfl⟩
    | n + 4, l1, hn =>
      obtain ⟨h1, h2⟩ := size_halves (n := n + 4) (by omega)
      -- the list is cut into a left part, the middle and a right part
      obtain ⟨a, mid, b, rfl, ha⟩ : ∃ a mid b, l1 = a ++ mid :: b ∧ a.length = (n + 4) / 2 := by
        have hlt : (n + 4) / 2 < l1.length := by omega
        exact ⟨l1.take ((n + 4) / 2), l1[(n + 4) / 2], l1.drop ((n + 4) / 2 + 1), by simp,
          by simp; omega⟩
      have hb : b.length = n + 4 - (n + 4) / 2 - 1 := by
        simp only [length_append, length_cons] at hn
        omega
      obtain ⟨l, hl, htl, hbl, hhl⟩ := ih _ (by omega) a (mid :: b ++ l2) ha
      obtain ⟨r, hr, htr, hbr, hhr⟩ := ih _ (by omega) b l2 hb
      refine ⟨create l mid r, ?_, by simp [create, htl, htr],
        Avl.balanced_create hbl hbr (by omega) (by omega), ?_⟩
      · rw [sortedSub]
        · simp only [append_assoc, cons_append] at hl ⊢
          simp only [Nat.add_assoc, Nat.reduceAdd, hl, ok_bind, hr]
          rfl
        all_goals omega
      · rw [create, Avl.height_create, size_succ (n := n + 4) (by omega)]
        omega

theorem ofSortedList_spec (l : List κ) : ∃ t : T κ, ofSortedList l = .ok t ∧ t.toList = l ∧
    t.Balanced := by
  obtain ⟨t, ht, hlist, hb, -⟩ := sortedSub_spec l.length l [] rfl
  rw [append_nil] at ht
  exact ⟨t, by simp [ofSortedList, ht], hlist, hb⟩

section

variable (ho : TotalOrder cmp)

include ho

theorem addSeq_gives : ∀ (i : List κ) (phys : Nat → PhysEq) {s : T κ},
    WellFormed cmp s → Gives cmp (addSeq cmp phys i s) fun x => x ∈ i ∨ x ∈ s.toList
  | [], phys, s, hs => ⟨s, rfl, hs, by simp⟩
  | x :: i, phys, s, hs => by
    obtain ⟨s', hs', hw, hmem⟩ := add_gives ho (phys 0) x hs
    obtain ⟨t, ht, hwt, hmt⟩ := addSeq_gives i (fun n => phys (n + 1)) hw
    refine ⟨t, by simp [addSeq, hs', ht], hwt, fun y => ?_⟩
    simp only [hmt, hmem, mem_cons]
    tauto

theorem ofSeq_gives (phys : Nat → PhysEq) (i : List κ) :
    Gives cmp (ofSeq cmp phys i) fun x => x ∈ i := by
  obtain ⟨t, ht, hwt, hmt⟩ := addSeq_gives ho i phys wellFormed_empty
  exact ⟨t, ht, hwt, fun x => by simp [hmt, toList]⟩

/-- The elements after the first one are inserted one by one, as `add_seq` does. -/
theorem addSeq_singleton_gives (phys : Nat → PhysEq) (x : κ) (i : List κ) :
    Gives cmp (addSeq cmp phys i (singleton x)) fun y => y ∈ x :: i := by
  obtain ⟨t, ht, hwt, hmt⟩ := addSeq_gives ho i phys (wellFormed_singleton x)
  refine ⟨t, ht, hwt, fun y => ?_⟩
  simp only [hmt, singleton, Avl.toList_singleton, mem_cons, not_mem_nil, or_false]
  tauto

theorem ofSorted_gives (l : List κ) :
    Gives cmp (match ListSort.sortUniq cmp l with
      | some l => ofSortedList l
      | none => .error .assertFailure) fun x => x ∈ l := by
  obtain ⟨s, hs, hu⟩ := ListSort.sortUniq_spec ho.toTotalPreorder l
  obtain ⟨t, ht, hlist, hb⟩ := ofSortedList_spec s
  rw [hs]
  refine ⟨t, ht, ⟨by rw [hlist]; exact hu.increasing, hb⟩, fun x => ?_⟩
  rw [hlist]
  refine ⟨hu.subset x, fun hx => ?_⟩
  obtain ⟨y, hy, h0⟩ := hu.cover x hx
  rwa [ho.eq_of_zero x y h0]

theorem ofList_gives (phys : Nat → PhysEq) (l : List κ) :
    Gives cmp (ofList cmp phys l) fun x => x ∈ l := by
  match l with
  | [] => exact ⟨.empty, rfl, wellFormed_empty, fun x => by simp [toList]⟩
  | [x0] => exact addSeq_singleton_gives ho phys x0 []
  | [x0, x1] =>
    simpa only [ofList, addSeq, bind_ok] using addSeq_singleton_gives ho phys x0 [x1]
  | [x0, x1, x2] =>
    simpa only [ofList, addSeq, bind_ok] using addSeq_singleton_gives ho phys x0 [x1, x2]
  | [x0, x1, x2, x3] =>
    simpa only [ofList, addSeq, bind_ok] using addSeq_singleton_gives ho phys x0 [x1, x2, x3]
  | [x0, x1, x2, x3, x4] =>
    simpa only [ofList, addSeq, bind_ok] using addSeq_singleton_gives ho phys x0 [x1, x2, x3, x4]
  | x0 :: x1 :: x2 :: x3 :: x4 :: x5 :: l => exact ofSorted_gives ho _

end

/-! ## The refinement -/

/-- **`Set.Make` refines finite sets**: on well-formed sets no operation raises, the results are
well formed and have the elements of the set-theoretic result, and the comparisons decide inclusion,
disjointness, equality and the lexicographic order of the elements. -/
theorem refines_finite_set (ho : TotalOrder cmp) :
    (∀ {s1 s2 : T κ}, WellFormed cmp s1 → WellFormed cmp s2 →
      (∀ phys, Gives cmp (union cmp phys s1 s2) fun x => x ∈ elements s1 ∨ x ∈ elements s2) ∧
      Gives cmp (inter cmp s1 s2) (fun x => x ∈ elements s1 ∧ x ∈ elements s2) ∧
      Gives cmp (diff cmp s1 s2) (fun x => x ∈ elements s1 ∧ x ∉ elements s2) ∧
      (subset cmp s1 s2 = true ↔ ∀ x ∈ elements s1, x ∈ elements s2) ∧
      (∀ phys, ∃ b, disjoint cmp phys s1 s2 = .ok b ∧
        (b = true ↔ ∀ x ∈ elements s1, x ∉ elements s2)) ∧
      (equal cmp s1 s2 = true ↔ ∀ x, x ∈ elements s1 ↔ x ∈ elements s2) ∧
      Compares cmp (compare cmp s1 s2) (elements s1) (elements s2)) ∧
    (∀ {s : T κ}, WellFormed cmp s →
      (elements s).Pairwise (fun x y => cmp x y < 0) ∧
      (∀ x, mem cmp x s = true ↔ x ∈ elements s) ∧
      (∀ x, ∃ l pres r, split cmp x s = .ok (l, pres, r) ∧ WellFormed cmp l ∧ WellFormed cmp r ∧
        (pres = true ↔ x ∈ elements s) ∧
        (∀ y, y ∈ elements l ↔ y ∈ elements s ∧ cmp y x < 0) ∧
        ∀ y, y ∈ elements r ↔ y ∈ elements s ∧ 0 < cmp y x) ∧
      (∀ phys f, Gives cmp (map cmp phys f s) fun y => ∃ x ∈ elements s, f x = y) ∧
      (∀ phys f, Gives cmp (filterMap cmp phys f s) fun y => ∃ x ∈ elements s, f x = some y) ∧
      ∀ p, ∃ t f, partition p s = .ok (t, f) ∧ WellFormed cmp t ∧ WellFormed cmp f ∧
        (∀ x, x ∈ elements t ↔ x ∈ elements s ∧ p x = true) ∧
        ∀ x, x ∈ elements f ↔ x ∈ elements s ∧ p x = false) ∧
    (∀ phys (l : List κ), Gives cmp (ofList cmp phys l) fun x => x ∈ l) ∧
    ∀ phys (i : List κ), Gives cmp (ofSeq cmp phys i) fun x => x ∈ i := by
  refine ⟨?_, ?_, ofList_gives ho, ofSeq_gives ho⟩
  · intro s1 s2 h1 h2
    have hcompare := compare_spec ho s1 s2
    simp only [elements_eq] at hcompare ⊢
    exact ⟨fun phys => union_gives ho phys s1 s2 h1 h2, inter_gives ho h1 h2, diff_gives ho h1 h2,
      subset_iff ho s1 s2 h1.sorted h2.sorted, fun phys => disjoint_spec ho phys h1 h2,
      equal_iff ho h1 h2, hcompare⟩
  · intro s hs
    simp only [elements_eq]
    refine ⟨hs.sorted, fun x => mem_iff ho x hs.sorted, fun x => ?_,
      fun phys f => map_gives ho f phys hs, fun phys f => filterMap_gives ho f phys hs,
      fun p => partition_spec p hs⟩
    obtain ⟨l, pres, r, hsp, hat, hpres⟩ := split_spec ho x hs
    exact ⟨l, pres, r, hsp, hat.left, hat.right, hpres, hat.mem_left, fun y => by
      rw [hat.mem_right, ho.neg_iff]⟩

theorem refines_finite_set_int :
    ∃ s t, ofList Map.intCompare (fun _ => .never) [3, 1, 4, 1, 5] = .ok s ∧
      map Map.intCompare .never (fun x => 5 - x) s = .ok t ∧
      ∀ y, y ∈ t.toList ↔ ∃ x ∈ [3, 1, 4, 1, 5], 5 - x = y := by
  obtain ⟨-, hone, hlist, -⟩ := refines_finite_set Map.totalOrder_intCompare
  obtain ⟨s, hs, hwell, hmem⟩ := hlist (fun _ => .never) [3, 1, 4, 1, 5]
  obtain ⟨-, -, -, hmap, -⟩ := hone hwell
  obtain ⟨t, ht, -, himage⟩ := hmap .never (fun x => 5 - x)
  exact ⟨s, t, hs, ht, fun y => by rw [himage]; simp only [elements_eq, hmem]⟩

end TravLang.Set
