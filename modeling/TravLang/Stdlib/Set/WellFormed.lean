import TravLang.Stdlib.Set.Basic
import TravLang.Stdlib.Map.WellFormed

/-!
# Well-formed sets

A tree is well formed when its elements strictly increase from left to right, every node stores its
real height, and the heights of siblings differ by at most two. On well-formed trees `add`, `split`,
`union`, `inter`, `diff` and `disjoint` do not raise, and they give well-formed trees with the
elements of the operation on sets.
-/

namespace TravLang.Set

open List Avl.Tree Result
open Avl (Grows)
open Map (Exn PhysEq)
open SortedAssoc

variable {κ : Type} {cmp : κ → κ → Int} {h h1 h2 : Nat} {l r s t l1 l2 r1 r2 : T κ} {v x v1 v2 : κ}
  {phys : PhysEq} {pres : Bool}

/-- The invariant of the representation. -/
structure WellFormed (cmp : κ → κ → Int) (s : T κ) : Prop where
  sorted : s.toList.Pairwise fun x y => cmp x y < 0
  balanced : s.Balanced

/-- A well-formed set with these elements. -/
def Gives (cmp : κ → κ → Int) (res : Except Exn (T κ)) (P : κ → Prop) : Prop :=
  ∃ s, res = .ok s ∧ WellFormed cmp s ∧ ∀ x, x ∈ s.toList ↔ P x

theorem wellFormed_empty : WellFormed cmp (.empty : T κ) := ⟨.nil, trivial⟩

theorem wellFormed_singleton (x : κ) : WellFormed cmp (singleton x) :=
  ⟨by simp [singleton], Avl.balanced_singleton x⟩

theorem mem_node :
    x ∈ (node l v r h).toList ↔ x ∈ l.toList ∨ x = v ∨ x ∈ r.toList := by
  simp [toList]

/-- What a sorted node says about its subtrees and about its element. -/
theorem sorted_node :
    ((node l v r h).toList.Pairwise fun x y => cmp x y < 0) →
    (l.toList.Pairwise fun x y => cmp x y < 0) ∧ (r.toList.Pairwise fun x y => cmp x y < 0) ∧
      (∀ x ∈ l.toList, cmp x v < 0) ∧ ∀ x ∈ r.toList, cmp v x < 0 := by
  intro hs
  obtain ⟨hl, hvr, hlr⟩ := pairwise_append.mp hs
  obtain ⟨hv, hr⟩ := pairwise_cons.mp hvr
  exact ⟨hl, hr, fun x hx => hlr x hx v mem_cons_self, hv⟩

theorem WellFormed.node (hw : WellFormed cmp (.node l v r h)) :
    WellFormed cmp l ∧ WellFormed cmp r ∧ (∀ x ∈ l.toList, cmp x v < 0) ∧
      ∀ x ∈ r.toList, cmp v x < 0 := by
  obtain ⟨hl, hr, hlv, hvr⟩ := sorted_node hw.sorted
  obtain ⟨hbl, hbr, -⟩ := balanced_node.mp hw.balanced
  exact ⟨⟨hl, hbl⟩, ⟨hr, hbr⟩, hlv, hvr⟩

/-- Elements in order around another one. -/
theorem sorted_around (ho : TotalPreorder cmp) {l r : List κ}
    (hl : l.Pairwise fun x y => cmp x y < 0) (hr : r.Pairwise fun x y => cmp x y < 0)
    (hlv : ∀ x ∈ l, cmp x v < 0) (hvr : ∀ x ∈ r, cmp v x < 0) :
    (l ++ v :: r).Pairwise fun x y => cmp x y < 0 := by
  refine pairwise_append.mpr ⟨hl, pairwise_cons.mpr ⟨hvr, hr⟩, fun x hx y hy => ?_⟩
  rcases mem_cons.mp hy with rfl | hy
  · exact hlv x hx
  · exact ho.lt_of_lt_of_le (hlv x hx) (Int.le_of_lt (hvr y hy))

theorem join_gives (ho : TotalPreorder cmp) (hl : WellFormed cmp l) (hr : WellFormed cmp r)
    (hlv : ∀ x ∈ l.toList, cmp x v < 0) (hvr : ∀ x ∈ r.toList, cmp v x < 0) :
    Gives cmp (join l v r) fun x => x ∈ l.toList ∨ x = v ∨ x ∈ r.toList := by
  obtain ⟨t, ht, hb, -⟩ := Avl.join_grows (e := errors) (x := v) hl.balanced hr.balanced
  have hlist := Avl.join_toList ht
  refine ⟨t, ht, ⟨?_, hb⟩, fun x => by simp [hlist]⟩
  rw [hlist]
  exact sorted_around ho hl.sorted hr.sorted hlv hvr

theorem concat_gives (hl : WellFormed cmp l) (hr : WellFormed cmp r)
    (hlr : ∀ x ∈ l.toList, ∀ y ∈ r.toList, cmp x y < 0) :
    Gives cmp (concat l r) fun x => x ∈ l.toList ∨ x ∈ r.toList := by
  obtain ⟨t, ht, hb⟩ := Avl.concat_balanced (e := errors) hl.balanced hr.balanced
  have hlist := Avl.concat_toList ht
  refine ⟨t, ht, ⟨?_, hb⟩, fun x => by simp [hlist]⟩
  rw [hlist]
  exact pairwise_append.mpr ⟨hl.sorted, hr.sorted, hlr⟩

/-! ## `add` -/

theorem descends_add : Map.Descends errors (cmp x) fun phys => add cmp phys x := by
  intro phys l v r h h0
  dsimp only
  rw [add, if_neg h0]
  rfl

theorem add_grows (cmp : κ → κ → Int) (x : κ) (phys : PhysEq) (hs : s.Balanced) :
    Grows (add cmp phys x s) (s.height - 1) (s.height + 1) := by
  refine descends_add.grows (fun phys => ?_) (fun phys l v r h h0 hb => ?_) phys hs
  · exact ⟨_, rfl, Avl.balanced_singleton x, by simp, by simp⟩
  · rw [add, if_pos h0]
    exact ⟨_, rfl, hb, by simp, by simp⟩

/-- `add` keeps an element that compares equal. -/
theorem add_edited (h : add cmp phys x s = .ok t) :
    Map.Edited (cmp x) (fun v o => o = [v.getD x]) s.toList t.toList := by
  refine descends_add.edited (fun {phys t} h => ?_) (fun {phys l v r k t} h0 h => ?_) h
  · cases h
    rfl
  · rw [add, if_pos h0] at h
    cases h
    exact ⟨[v], by simp [toList], rfl⟩

/-- The elements after `add`, for a comparison that only finds equal elements equal but need not be
an order. -/
theorem mem_add (hx : ∀ y, cmp x y = 0 → x = y) (phys : PhysEq)
    (h : add cmp phys x s = .ok t) (y : κ) : y ∈ t.toList ↔ y = x ∨ y ∈ s.toList := by
  obtain ⟨L, v, R, _, hs, ht, hv, rfl, -⟩ := add_edited h
  cases v with
  | none =>
    simp only [hs, ht, mem_append, Option.getD_none, mem_singleton, Option.toList_none, not_mem_nil]
    tauto
  | some v =>
    obtain rfl := hx v (hv v rfl)
    simp only [hs, ht, mem_append, Option.getD_some, mem_singleton, Option.toList_some]
    tauto

theorem ordered_of_sorted (ho : TotalPreorder cmp) (hs : s.toList.Pairwise fun x y => cmp x y < 0)
    (x : κ) : Avl.Ordered (cmp x) s.toList :=
  hs.imp fun hab => ho.between hab

theorem add_sorted (ho : TotalOrder cmp) (hs : s.toList.Pairwise fun x y => cmp x y < 0)
    (h : add cmp phys x s = .ok t) : t.toList.Pairwise fun x y => cmp x y < 0 := by
  obtain ⟨L, v, R, _, hlist, ht, hv, rfl, hsides⟩ := add_edited h
  obtain ⟨hL, hR⟩ := hsides (ordered_of_sorted ho.toTotalPreorder hs x)
  have hx : v.getD x = x := by
    cases v with
    | none => rfl
    | some v => exact (ho.eq_of_zero x v (hv v rfl)).symm
  rw [hlist, append_assoc] at hs
  obtain ⟨hsL, hs, -⟩ := pairwise_append.mp hs
  rw [ht, hx, append_assoc]
  exact sorted_around ho.toTotalPreorder hsL (pairwise_append.mp hs).2.1
    (fun y hy => (ho.neg_iff y x).mpr (hL y hy)) hR

theorem add_gives (ho : TotalOrder cmp) (phys : PhysEq) (x : κ) (hs : WellFormed cmp s) :
    Gives cmp (add cmp phys x s) fun y => y = x ∨ y ∈ s.toList := by
  obtain ⟨t, ht, hb, -⟩ := add_grows cmp x phys hs.balanced
  exact ⟨t, ht, ⟨add_sorted ho hs.sorted ht, hb⟩, mem_add (ho.eq_of_zero x) phys ht⟩

/-! ## `remove` -/

theorem descends_remove : Map.Descends errors (cmp x) fun phys => remove cmp phys x := by
  intro phys l v r h h0
  dsimp only
  rw [remove, if_neg h0]
  rfl

theorem remove_grows (cmp : κ → κ → Int) (x : κ) (phys : PhysEq) (hs : s.Balanced) :
    Grows (remove cmp phys x s) (s.height - 1) (s.height + 1) := by
  refine descends_remove.grows (fun phys => ?_) (fun phys l v r h h0 hb => ?_) phys hs
  · exact ⟨_, rfl, trivial, by simp, by simp⟩
  · obtain ⟨hl, hr, hk, h1, h2⟩ := balanced_node.mp hb
    rw [remove, if_pos h0]
    exact (Avl.glue_grows hl hr h1 h2).mono (by omega) (by omega)

theorem remove_edited (h : remove cmp phys x s = .ok t) :
    Map.Edited (cmp x) (fun _ o => o = []) s.toList t.toList := by
  refine descends_remove.edited (fun {phys t} h => ?_) (fun {phys l v r k t} h0 h => ?_) h
  · cases h
    rfl
  · rw [remove, if_pos h0] at h
    exact ⟨[], by simp [Avl.glue_toList h], rfl⟩

theorem remove_gives (ho : TotalOrder cmp) (phys : PhysEq) (x : κ) (hs : WellFormed cmp s) :
    Gives cmp (remove cmp phys x s) fun y => y ∈ s.toList ∧ y ≠ x := by
  obtain ⟨t, ht, hb, -⟩ := remove_grows cmp x phys hs.balanced
  obtain ⟨L, v, R, _, hlist, hlist', hv, rfl, hsides⟩ := remove_edited ht
  obtain ⟨hL, hR⟩ := hsides (ordered_of_sorted ho.toTotalPreorder hs.sorted x)
  have hself := ho.self x
  have hsub : (L ++ [] ++ R).Sublist (L ++ v.toList ++ R) :=
    ((nil_sublist _).append_left L).append_right R
  refine ⟨t, ht, ⟨hlist' ▸ (hlist ▸ hs.sorted).sublist hsub, hb⟩, fun y => ?_⟩
  rw [hlist, hlist']
  refine ⟨fun hy => ⟨hsub.subset hy, ?_⟩, fun ⟨hy, hne⟩ => ?_⟩
  · rintro rfl
    rw [append_nil, mem_append] at hy
    rcases hy with hy | hy
    · exact absurd (hL y hy) (by omega)
    · exact absurd (hR y hy) (by omega)
  · have hmid : y ∉ v.toList := fun hy => hne (ho.eq_of_zero x y (hv y (by simpa using hy))).symm
    simpa [hmid] using hy

section

variable (ho : TotalPreorder cmp) (hs : (node l v r h).toList.Pairwise fun x y => cmp x y < 0)

include ho hs

/-- The elements of the left subtree of a sorted node. -/
theorem mem_node_of_neg (hlt : cmp x v < 0) : x ∈ (node l v r h).toList ↔ x ∈ l.toList := by
  obtain ⟨-, -, -, hvr⟩ := sorted_node hs
  have hanti := ho.neg_iff x v
  refine ⟨fun hx => ?_, fun hx => mem_node.mpr (.inl hx)⟩
  rcases mem_node.mp hx with hx | rfl | hx
  · exact hx
  · omega
  · have := hvr x hx
    omega

/-- The elements of the right subtree of a sorted node. -/
theorem mem_node_of_pos (hlt : cmp v x < 0) : x ∈ (node l v r h).toList ↔ x ∈ r.toList := by
  obtain ⟨-, -, hlv, -⟩ := sorted_node hs
  have hanti := ho.neg_iff v x
  refine ⟨fun hx => ?_, fun hx => mem_node.mpr (.inr (.inr hx))⟩
  rcases mem_node.mp hx with hx | rfl | hx
  · have := hlv x hx
    omega
  · omega
  · exact hx

end

theorem mem_iff (ho : TotalOrder cmp) (x : κ) : ∀ {s : T κ},
    (s.toList.Pairwise fun x y => cmp x y < 0) → (mem cmp x s = true ↔ x ∈ s.toList)
  | .empty, _ => by simp [mem, toList]
  | .node l v r h, hs => by
    have ho' := ho.toTotalPreorder
    obtain ⟨hl, hr, -, -⟩ := sorted_node hs
    rw [mem]
    by_cases h0 : cmp x v = 0
    · obtain rfl := ho.eq_of_zero x v h0
      simp [h0, mem_node]
    · simp only [h0, decide_false, Bool.false_or]
      split
      · next hneg => rw [mem_iff ho x hl, mem_node_of_neg ho' hs hneg]
      · next hneg =>
        rw [mem_iff ho x hr, mem_node_of_pos ho' hs ((ho.neg_iff v x).mpr (by omega))]

/-! ## `split` -/

/-- The elements below a point, above it, and whether it is an element itself. -/
structure SplitAt (cmp : κ → κ → Int) (x : κ) (s l r : T κ) : Prop where
  left : WellFormed cmp l
  right : WellFormed cmp r
  mem_left : ∀ y, y ∈ l.toList ↔ y ∈ s.toList ∧ cmp y x < 0
  mem_right : ∀ y, y ∈ r.toList ↔ y ∈ s.toList ∧ cmp x y < 0

/-- A cut of the list of elements is a split. -/
theorem SplitAt.of_append (ho : TotalPreorder cmp) (mid : List κ) (hs : WellFormed cmp s)
    (hbl : l.Balanced) (hbr : r.Balanced) (hlist : s.toList = l.toList ++ (mid ++ r.toList))
    (hl : ∀ y ∈ l.toList, cmp y x < 0) (hmid : ∀ y ∈ mid, cmp x y = 0)
    (hr : ∀ y ∈ r.toList, cmp x y < 0) : SplitAt cmp x s l r := by
  have hsorted := hs.sorted
  rw [hlist] at hsorted
  obtain ⟨hsl, hsmr, -⟩ := pairwise_append.mp hsorted
  refine ⟨⟨hsl, hbl⟩, ⟨(pairwise_append.mp hsmr).2.1, hbr⟩, fun y => ?_, fun y => ?_⟩
  · rw [hlist, mem_append, mem_append]
    refine ⟨fun hy => ⟨.inl hy, hl y hy⟩, ?_⟩
    have := ho.neg_iff y x
    rintro ⟨hy | hy | hy, hlt⟩
    · exact hy
    · have := hmid y hy
      omega
    · have := hr y hy
      omega
  · rw [hlist, mem_append, mem_append]
    refine ⟨fun hy => ⟨.inr (.inr hy), hr y hy⟩, ?_⟩
    have := ho.neg_iff y x
    rintro ⟨hy | hy | hy, hlt⟩
    · have := hl y hy
      omega
    · have := hmid y hy
      omega
    · exact hy

/-- At the element of a node, the subtrees are the two halves. -/
theorem SplitAt.root (ho : TotalOrder cmp) (hw : WellFormed cmp (.node l v r h)) :
    SplitAt cmp v (.node l v r h) l r := by
  obtain ⟨hl, hr, hlv, hvr⟩ := hw.node
  exact .of_append ho.toTotalPreorder [v] hw hl.balanced hr.balanced rfl hlv
    (by simpa using ho.self v) hvr

/-- Elements of a set that are neither below `x` nor above it. -/
theorem SplitAt.cases (ho : TotalOrder cmp) {y : κ} (h : SplitAt cmp x s l r) (hy : y ∈ s.toList) :
    y ∈ l.toList ∨ y = x ∨ y ∈ r.toList := by
  have := ho.neg_iff x y
  rcases Int.lt_trichotomy (cmp y x) 0 with hlt | heq | hgt
  · exact .inl ((h.mem_left y).mpr ⟨hy, hlt⟩)
  · exact .inr (.inl (ho.eq_of_zero y x heq))
  · exact .inr (.inr ((h.mem_right y).mpr ⟨hy, by omega⟩))

theorem splitAux_spec (ho : TotalOrder cmp) (x : κ) (hs : WellFormed cmp s) :
    ∃ l mid r, Avl.split errors (cmp x) s = .ok (l, mid, r) ∧ SplitAt cmp x s l r ∧
      (mid.isSome = true ↔ x ∈ s.toList) := by
  have ho' := ho.toTotalPreorder
  obtain ⟨l, mid, r, hsp, hbl, hbr⟩ := Avl.split_balanced (e := errors) (c := cmp x) hs.balanced
  obtain ⟨hl, hmid, hr⟩ := Avl.split_sides (ordered_of_sorted ho' hs.sorted x) hsp
  have hlist := Avl.split_toList hsp
  rw [append_assoc] at hlist
  have hself := ho'.self x
  refine ⟨l, mid, r, hsp, .of_append ho' _ hs hbl hbr hlist
    (fun y hy => (ho.neg_iff y x).mpr (hl y hy)) (by simpa using hmid) hr, ?_⟩
  rw [hlist, mem_append, mem_append, Option.isSome_iff_exists]
  constructor
  · rintro ⟨y, rfl⟩
    exact .inr (.inl (by simp [ho.eq_of_zero x y (hmid y (by simp))]))
  · rintro (hx | hx | hx)
    · have := hl x hx
      omega
    · exact ⟨x, by simpa using hx⟩
    · have := hr x hx
      omega

theorem split_spec (ho : TotalOrder cmp) (x : κ) (hs : WellFormed cmp s) :
    ∃ l pres r, split cmp x s = .ok (l, pres, r) ∧ SplitAt cmp x s l r ∧
      (pres = true ↔ x ∈ s.toList) := by
  obtain ⟨l, mid, r, hsp, hat, hmid⟩ := splitAux_spec ho x hs
  exact ⟨l, mid.isSome, r, by simp [split, hsp], hat, hmid⟩

/-! ## Union, intersection and difference -/

/-- A tree of height 1 is a single node. -/
theorem eq_empty_of_height_one (h : (node l v r 1).Balanced) :
    l = .empty ∧ r = .empty := by
  obtain ⟨hl, hr, hk, -⟩ := balanced_node.mp h
  have hzero : ∀ {t : T κ}, t.Balanced → t.height = 0 → t = .empty := by
    intro t ht h0
    cases t with
    | empty => rfl
    | node l' v' r' k =>
      have := Avl.Tree.Balanced.height_pos ht
      simp at h0
      omega
  exact ⟨hzero hl (by omega), hzero hr (by omega)⟩

/-- `union` when the first tree is not the lower one. -/
theorem union_left {l2' r2' : T κ} (hge : h1 ≥ h2) (hne : h2 ≠ 1)
    (hsp : split cmp v1 (.node l2 v2 r2 h2) = .ok (l2', pres, r2')) :
    union cmp phys (.node l1 v1 r1 h1) (.node l2 v2 r2 h2) = (do
      let r ← union cmp (phys.sub 1) r1 r2'
      let l ← union cmp (phys.sub 2) l1 l2'
      join l v1 r) := by
  rw [union, if_pos hge, if_neg hne]
  split
  · next he => cases hsp.symm.trans he
  · next he =>
    cases hsp.symm.trans he
    rfl

/-- `union` when the second tree is the higher one. -/
theorem union_right {l1' r1' : T κ} (hlt : ¬ h1 ≥ h2) (hne : h1 ≠ 1)
    (hsp : split cmp v2 (.node l1 v1 r1 h1) = .ok (l1', pres, r1')) :
    union cmp phys (.node l1 v1 r1 h1) (.node l2 v2 r2 h2) = (do
      let r ← union cmp (phys.sub 1) r1' r2
      let l ← union cmp (phys.sub 2) l1' l2
      join l v2 r) := by
  rw [union, if_neg hlt, if_neg hne]
  split
  · next he => cases hsp.symm.trans he
  · next he =>
    cases hsp.symm.trans he
    rfl

section

variable (ho : TotalOrder cmp)

include ho

/-- The halves of a result around an element that belongs to it, or does not. -/
theorem halves_gives (keep : Bool) {P : κ → Prop} (hl : WellFormed cmp l) (hr : WellFormed cmp r)
    (hml : ∀ x, x ∈ l.toList ↔ P x ∧ cmp x v < 0) (hmr : ∀ x, x ∈ r.toList ↔ P x ∧ cmp v x < 0)
    (hv : P v ↔ keep = true) : Gives cmp (if keep then join l v r else concat l r) P := by
  have hlv : ∀ x ∈ l.toList, cmp x v < 0 := fun x hx => ((hml x).mp hx).2
  have hvr : ∀ x ∈ r.toList, cmp v x < 0 := fun x hx => ((hmr x).mp hx).2
  have hcases : ∀ x, P x → x ∈ l.toList ∨ x = v ∨ x ∈ r.toList := by
    intro x hx
    have := ho.neg_iff v x
    rcases Int.lt_trichotomy (cmp x v) 0 with hlt | heq | hgt
    · exact .inl ((hml x).mpr ⟨hx, hlt⟩)
    · exact .inr (.inl (ho.eq_of_zero x v heq))
    · exact .inr (.inr ((hmr x).mpr ⟨hx, by omega⟩))
  cases keep with
  | true =>
    obtain ⟨t, ht, hwt, hmem⟩ := join_gives ho.toTotalPreorder hl hr hlv hvr
    refine ⟨t, ht, hwt, fun x => ?_⟩
    rw [hmem]
    refine ⟨?_, hcases x⟩
    rintro (hx | rfl | hx)
    · exact ((hml x).mp hx).1
    · exact hv.mpr rfl
    · exact ((hmr x).mp hx).1
  | false =>
    obtain ⟨t, ht, hwt, hmem⟩ := concat_gives hl hr fun x hx y hy =>
      ho.lt_of_lt_of_le (hlv x hx) (Int.le_of_lt (hvr y hy))
    refine ⟨t, ht, hwt, fun x => ?_⟩
    rw [hmem]
    constructor
    · rintro (hx | hx)
      · exact ((hml x).mp hx).1
      · exact ((hmr x).mp hx).1
    · intro hx
      rcases hcases x hx with hx' | rfl | hx'
      · exact .inl hx'
      · cases hv.mp hx
      · exact .inr hx'

/-- Both sides of an element, each a union. -/
theorem union_step {phys' : PhysEq} {s1 s2 : T κ} (h1 : SplitAt cmp v s1 l1 r1)
    (h2 : SplitAt cmp v s2 l2 r2) (hv : v ∈ s1.toList ∨ v ∈ s2.toList)
    (hl : Gives cmp (union cmp phys l1 l2) fun x => x ∈ l1.toList ∨ x ∈ l2.toList)
    (hr : Gives cmp (union cmp phys' r1 r2) fun x => x ∈ r1.toList ∨ x ∈ r2.toList) :
    Gives cmp (do
      let r ← union cmp phys' r1 r2
      let l ← union cmp phys l1 l2
      join l v r) fun x => x ∈ s1.toList ∨ x ∈ s2.toList := by
  obtain ⟨l, hl, hwl, hml⟩ := hl
  obtain ⟨r, hr, hwr, hmr⟩ := hr
  simp only [hr, hl, ok_bind]
  refine halves_gives ho true hwl hwr (fun x => ?_) (fun x => ?_) (by simpa using hv)
  · simp only [hml, h1.mem_left, h2.mem_left]
    tauto
  · simp only [hmr, h1.mem_right, h2.mem_right]
    tauto

theorem union_gives (phys : PhysEq) (s1 s2 : T κ) (hw1 : WellFormed cmp s1)
    (hw2 : WellFormed cmp s2) :
    Gives cmp (union cmp phys s1 s2) fun x => x ∈ s1.toList ∨ x ∈ s2.toList := by
  induction hn : s1.size + s2.size using Nat.strongRecOn generalizing phys s1 s2 with
  | _ n ih =>
    cases s1 with
    | empty => exact ⟨s2, by simp [union], hw2, fun x => by simp [toList]⟩
    | node l1 v1 r1 h1 =>
      cases s2 with
      | empty => exact ⟨_, by simp [union], hw1, fun x => by simp [toList]⟩
      | node l2 v2 r2 h2 =>
        obtain ⟨hl1, hr1, -, -⟩ := hw1.node
        obtain ⟨hl2, hr2, -, -⟩ := hw2.node
        by_cases hge : h1 ≥ h2
        · by_cases hone : h2 = 1
          · subst hone
            obtain ⟨rfl, rfl⟩ := eq_empty_of_height_one hw2.balanced
            rw [union, if_pos hge, if_pos rfl]
            obtain ⟨t, ht, hwt, hmem⟩ := add_gives ho (phys.sub 0) v2 hw1
            exact ⟨t, ht, hwt, fun x => by rw [hmem]; simp [toList, or_comm]⟩
          · obtain ⟨l2', pres, r2', hsp, hat, -⟩ := split_spec ho v1 hw2
            have hsize := split_size hsp
            rw [union_left hge hone hsp]
            simp only [size] at hn hsize
            exact union_step ho (SplitAt.root ho hw1) hat (.inl (by simp [toList]))
              (ih _ (by omega) _ l1 l2' hl1 hat.left rfl)
              (ih _ (by omega) _ r1 r2' hr1 hat.right rfl)
        · by_cases hone : h1 = 1
          · subst hone
            obtain ⟨rfl, rfl⟩ := eq_empty_of_height_one hw1.balanced
            rw [union, if_neg hge, if_pos rfl]
            obtain ⟨t, ht, hwt, hmem⟩ := add_gives ho (phys.sub 0) v1 hw2
            exact ⟨t, ht, hwt, fun x => by rw [hmem]; simp [toList]⟩
          · obtain ⟨l1', pres, r1', hsp, hat, -⟩ := split_spec ho v2 hw1
            have hsize := split_size hsp
            rw [union_right hge hone hsp]
            simp only [size] at hn hsize
            exact union_step ho hat (SplitAt.root ho hw2) (.inr (by simp [toList]))
              (ih _ (by omega) _ l1' l2 hat.left hl2 rfl)
              (ih _ (by omega) _ r1' r2 hat.right hr2 rfl)

theorem inter_gives : ∀ {s1 s2 : T κ}, WellFormed cmp s1 → WellFormed cmp s2 →
    Gives cmp (inter cmp s1 s2) fun x => x ∈ s1.toList ∧ x ∈ s2.toList
  | .empty, s2, _, _ => ⟨.empty, by simp [inter], wellFormed_empty, by simp [toList]⟩
  | .node l1 v1 r1 h1, .empty, _, _ =>
    ⟨.empty, by simp [inter], wellFormed_empty, by simp [toList]⟩
  | .node l1 v1 r1 h1, .node l2 v2 r2 h2, hw1, hw2 => by
    obtain ⟨hl1, hr1, -, -⟩ := hw1.node
    have h1 := SplitAt.root ho hw1
    obtain ⟨l2', pres, r2', hsp, h2, hpres⟩ := split_spec ho v1 hw2
    obtain ⟨l, hl, hwl, hml⟩ := inter_gives hl1 h2.left
    obtain ⟨r, hr, hwr, hmr⟩ := inter_gives hr1 h2.right
    rw [inter]
    · simp only [hsp, hl, hr, ok_bind]
      refine halves_gives ho pres hwl hwr (fun x => ?_) (fun x => ?_) ?_
      · simp only [hml, h1.mem_left, h2.mem_left]
        tauto
      · simp only [hmr, h1.mem_right, h2.mem_right]
        tauto
      · rw [hpres, mem_node]
        tauto
    · simp

theorem diff_gives : ∀ {s1 s2 : T κ}, WellFormed cmp s1 → WellFormed cmp s2 →
    Gives cmp (diff cmp s1 s2) fun x => x ∈ s1.toList ∧ x ∉ s2.toList
  | .empty, s2, _, _ => ⟨.empty, by simp [diff], wellFormed_empty, by simp [toList]⟩
  | .node l1 v1 r1 h1, .empty, hw1, _ => ⟨_, by simp [diff], hw1, by simp [toList]⟩
  | .node l1 v1 r1 h1, .node l2 v2 r2 h2, hw1, hw2 => by
    obtain ⟨hl1, hr1, -, -⟩ := hw1.node
    have h1 := SplitAt.root ho hw1
    obtain ⟨l2', pres, r2', hsp, h2, hpres⟩ := split_spec ho v1 hw2
    obtain ⟨l, hl, hwl, hml⟩ := diff_gives hl1 h2.left
    obtain ⟨r, hr, hwr, hmr⟩ := diff_gives hr1 h2.right
    rw [diff]
    · simp only [hsp, hl, hr, ok_bind]
      have heq : (if pres = true then concat l r else join l v1 r) =
          if (!pres) = true then join l v1 r else concat l r := by cases pres <;> rfl
      rw [heq]
      refine halves_gives ho (!pres) hwl hwr (fun x => ?_) (fun x => ?_) ?_
      · simp only [hml, h1.mem_left, h2.mem_left]
        tauto
      · simp only [hmr, h1.mem_right, h2.mem_right]
        tauto
      · rw [Bool.not_eq_true', ← Bool.not_eq_true, hpres, mem_node]
        tauto
    · simp

end

/-! ## `disjoint` -/

/-- `split_bis` computes the right half of `split` on demand, and no half if the element is found.
-/
theorem splitBis_eq (cmp : κ → κ → Int) (x : κ) : ∀ {s : T κ}, s.Balanced → ∃ l mid r,
    Avl.split errors (cmp x) s = .ok (l, mid, r) ∧ l.Balanced ∧ r.Balanced ∧
    ((splitBis cmp x s = .ok .found ∧ mid.isSome = true) ∨
      ∃ f, splitBis cmp x s = .ok (.notFound l f) ∧ f () = .ok r ∧ mid.isSome = false)
  | .empty, _ => ⟨.empty, none, .empty, rfl, trivial, trivial, .inr ⟨_, rfl, rfl, rfl⟩⟩
  | .node l v r h, hb => by
    obtain ⟨hl, hr, -⟩ := balanced_node.mp hb
    rw [Avl.split, splitBis]
    split
    · exact ⟨l, some v, r, rfl, hl, hr, .inl ⟨rfl, rfl⟩⟩
    · split
      · obtain ⟨ll, mid, rl, hsp, hbl, hbr, hcases⟩ := splitBis_eq cmp x hl
        obtain ⟨t, ht, hbt, -⟩ := Avl.join_grows (e := errors) (x := v) hbr hr
        refine ⟨ll, mid, t, by simp [hsp, ht], hbl, hbt, ?_⟩
        rcases hcases with ⟨hbis, hmid⟩ | ⟨f, hbis, hf, hmid⟩
        · exact .inl ⟨by rw [hbis]; rfl, hmid⟩
        · exact .inr ⟨_, by rw [hbis]; rfl, by simpa [hf, join] using ht, hmid⟩
      · obtain ⟨lr, mid, rr, hsp, hbl, hbr, hcases⟩ := splitBis_eq cmp x hr
        obtain ⟨t, ht, hbt, -⟩ := Avl.join_grows (e := errors) (x := v) hl hbl
        refine ⟨t, mid, rr, by simp [hsp, ht], hbt, hbr, ?_⟩
        rcases hcases with ⟨hbis, hmid⟩ | ⟨f, hbis, hf, hmid⟩
        · exact .inl ⟨by rw [hbis]; rfl, hmid⟩
        · exact .inr ⟨f, by rw [hbis]; simp [join, ht], hf, hmid⟩

theorem splitBis_spec (ho : TotalOrder cmp) (x : κ) (hs : WellFormed cmp s) :
    (splitBis cmp x s = .ok .found ∧ x ∈ s.toList) ∨
    ∃ l f r, splitBis cmp x s = .ok (.notFound l f) ∧ f () = .ok r ∧ SplitAt cmp x s l r ∧
      x ∉ s.toList := by
  obtain ⟨l, mid, r, hsp, hat, hmid⟩ := splitAux_spec ho x hs
  obtain ⟨l', mid', r', hsp', -, -, hcases⟩ := splitBis_eq cmp x hs.balanced
  cases hsp.symm.trans hsp'
  rcases hcases with ⟨hbis, hsome⟩ | ⟨f, hbis, hf, hnone⟩
  · exact .inl ⟨hbis, hmid.mp hsome⟩
  · exact .inr ⟨l, f, r, hbis, hf, hat, fun hx => by simp [hmid.mpr hx] at hnone⟩

theorem disjoint_spec (ho : TotalOrder cmp) : ∀ (phys : PhysEq) {s1 s2 : T κ}, WellFormed cmp s1 →
    WellFormed cmp s2 → ∃ b, disjoint cmp phys s1 s2 = .ok b ∧
      (b = true ↔ ∀ x ∈ s1.toList, x ∉ s2.toList)
  | phys, .empty, s2, _, _ => ⟨true, by simp [disjoint], by simp [toList]⟩
  | phys, .node l1 v1 r1 h1, .empty, _, _ => ⟨true, by simp [disjoint], by simp [toList]⟩
  | phys, .node l1 v1 r1 h1, .node l2 v2 r2 h2, hw1, hw2 => by
    have hv1 : v1 ∈ (node l1 v1 r1 h1).toList := by simp [toList]
    obtain ⟨hl1, hr1, -, -⟩ := hw1.node
    have h1 := SplitAt.root ho hw1
    rw [disjoint]
    · split
      · next hsame =>
        refine ⟨false, rfl, iff_of_false (by simp) fun hall => hall v1 hv1 ?_⟩
        rw [← PhysEq.eq_of_same hsame]
        exact hv1
      · rcases splitBis_spec ho v1 hw2 with ⟨hsp, hx⟩ | ⟨l2', f, r2', hsp, hf, h2, hx⟩
        · exact ⟨false, by rw [hsp]; rfl, iff_of_false (by simp) fun hall => hall v1 hv1 hx⟩
        · obtain ⟨b, hb, hbl⟩ := disjoint_spec ho (phys.sub 0) hl1 h2.left
          obtain ⟨b', hb', hbr⟩ := disjoint_spec ho (phys.sub 1) hr1 h2.right
          refine ⟨b && b', ?_, ?_⟩
          · cases b <;> simp [hsp, hb, hf, hb']
          · rw [Bool.and_eq_true, hbl, hbr]
            constructor
            · rintro ⟨hl, hr⟩ x hx1 hx2
              rcases h1.cases ho hx1 with hx1 | rfl | hx1
              · exact hl x hx1 ((h2.mem_left x).mpr ⟨hx2, ((h1.mem_left x).mp hx1).2⟩)
              · exact hx hx2
              · exact hr x hx1 ((h2.mem_right x).mpr ⟨hx2, ((h1.mem_right x).mp hx1).2⟩)
            · intro hall
              exact ⟨fun x hx1 hx2 => hall x ((h1.mem_left x).mp hx1).1 ((h2.mem_left x).mp hx2).1,
                fun x hx1 hx2 => hall x ((h1.mem_right x).mp hx1).1 ((h2.mem_right x).mp hx2).1⟩
    · simp

end TravLang.Set
