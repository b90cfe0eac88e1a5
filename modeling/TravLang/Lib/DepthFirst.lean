import Mathlib.Data.Fintype.Card

/-!
# Depth-first search

A search over a graph `g : α → List α` keeps its marks, and whatever else it computes, in a state
of type `σ`. `visit` is the recursive search with a bound on its depth; `Visits` is the same
search as a relation, on which the properties are proved by induction.

`FinishOrder` is what the order of leaving nodes says about reachability. From it follows the
theorem behind Kosaraju's algorithm, `newlyMarked_iff`: a search of the transposed graph that
starts from the node left last finds exactly the strongly connected component of that node.
-/

namespace DepthFirst

open List

variable {α σ : Type}

/-! ## Reachability -/

/-- There is a path from `v` to `w`. -/
def Reach (g : α → List α) : α → α → Prop := Relation.ReflTransGen fun v w => w ∈ g v

variable {g : α → List α}

theorem Reach.refl (v : α) : Reach g v v := Relation.ReflTransGen.refl

variable {v w : α} {gt : α → List α}

theorem Reach.edge (h : w ∈ g v) : Reach g v w := Relation.ReflTransGen.single h

theorem Reach.trans {u v w : α} (h1 : Reach g u v) (h2 : Reach g v w) : Reach g u w :=
  Relation.ReflTransGen.trans h1 h2

/-- `v` and `w` lie on a common cycle, or are equal. -/
def Mutual (g : α → List α) (v w : α) : Prop := Reach g v w ∧ Reach g w v

theorem Mutual.symm (h : Mutual g v w) : Mutual g w v := ⟨h.2, h.1⟩

theorem Mutual.trans {u v w : α} (h1 : Mutual g u v) (h2 : Mutual g v w) : Mutual g u w :=
  ⟨h1.1.trans h2.1, h2.2.trans h1.2⟩

theorem reach_transpose (ht : ∀ v w, w ∈ gt v ↔ v ∈ g w) (h : Reach gt v w) :
    Reach g w v := by
  induction h with
  | refl => exact .refl v
  | tail _ hyz ih => exact (Reach.edge ((ht _ _).mp hyz)).trans ih

/-- `v` was left after the nodes `post`. Whatever `v` reaches is among these, or else `v` is not
the last node of its component to be left. -/
def LeftAfter (g : α → List α) (v : α) (post : List α) : Prop :=
  ∀ z, Reach g v z → z ∈ v :: post ∨ ∃ a, a ∉ v :: post ∧ Reach g v a ∧ Reach g a v

/-- An order in which a search may leave nodes, the last one first. -/
def FinishOrder (g : α → List α) : List α → Prop
  | [] => True
  | v :: post => LeftAfter g v post ∧ FinishOrder g post

variable {after before : List α}

theorem finishOrder_split (h : FinishOrder g (before ++ v :: after)) : LeftAfter g v after := by
  induction before with
  | nil => exact h.1
  | cons u before ih => exact ih h.2

/-- If `x` reaches `r`, then some node of the component of `x` is left no earlier than `r`. -/
theorem exists_mutual_before {r x : α} (horder : FinishOrder g (before ++ r :: after))
    (hnodup : (before ++ r :: after).Nodup) (hall : ∀ v, v ∈ before ++ r :: after)
    (hx : Reach g x r) :
    ∃ y, Mutual g x y ∧ (y = r ∨ y ∈ before) := by
  classical
  -- the first node of the order in the component of `x`
  obtain ⟨y, hfind⟩ : ∃ y, (before ++ r :: after).find? (fun y => decide (Mutual g x y)) = some y :=
    Option.isSome_iff_exists.mp (List.find?_isSome.mpr
      ⟨x, hall x, decide_eq_true ⟨Reach.refl x, Reach.refl x⟩⟩)
  obtain ⟨hy, as, bs, hsplit, hfirst⟩ := List.find?_eq_some_iff_append.mp hfind
  have hxy : Mutual g x y := of_decide_eq_true hy
  have hleft : LeftAfter g y bs := by
    rw [hsplit] at horder
    exact finishOrder_split horder
  refine ⟨y, hxy, ?_⟩
  rcases hleft r (hxy.2.trans hx) with hr | ⟨a, ha, hya, hay⟩
  · rcases append_eq_append_iff.mp hsplit with ⟨t, rfl, ht⟩ | ⟨t, rfl, ht⟩
    · cases t with
      | nil =>
        cases ht
        exact Or.inl rfl
      | cons u t =>
        -- `r` would stand both before and after `y`
        cases ht
        rw [hsplit] at hnodup
        have := (nodup_append.mp hnodup).2.2 r (by simp) r hr
        exact absurd rfl this
    · cases t with
      | nil =>
        cases ht
        exact Or.inl rfl
      | cons u t =>
        cases ht
        exact Or.inr (by simp)
  · -- all of the component stands from `y` on
    have hmem : a ∈ as ++ y :: bs := hsplit ▸ hall a
    rcases mem_append.mp hmem with hmem | hmem
    · have := hfirst a hmem
      simp [hxy.trans ⟨hya, hay⟩] at this
    · exact absurd hmem ha

/-! ## The search -/

variable [DecidableEq α]

/-- How a search keeps its marks, and what it does when it enters and leaves a node. -/
structure Marking (α σ : Type) [DecidableEq α] where
  marked : σ → α → Bool
  enter : α → σ → σ
  leave : α → σ → σ
  marked_enter : ∀ v s w, marked (enter v s) w = (decide (w = v) || marked s w)
  marked_leave : ∀ v s w, marked (leave v s) w = marked s w

/-- Search from `v`; `none` when the recursion is deeper than `fuel`. -/
def visit (m : Marking α σ) (g : α → List α) : Nat → α → σ → Option σ
  | 0, _, _ => none
  | fuel + 1, v, s =>
    if m.marked s v then some s
    else ((g v).foldlM (fun s w => visit m g fuel w s) (m.enter v s)).map (m.leave v)

/-- The search from each node of a list in turn. -/
inductive Visits (m : Marking α σ) (g : α → List α) : List α → σ → σ → Prop
  | nil (s : σ) : Visits m g [] s s
  | seen {v : α} {vs : List α} {s s' : σ} :
    m.marked s v = true → Visits m g vs s s' → Visits m g (v :: vs) s s'
  | fresh {v : α} {vs : List α} {s s1 s' : σ} :
    m.marked s v = false → Visits m g (g v) (m.enter v s) s1 →
    Visits m g vs (m.leave v s1) s' → Visits m g (v :: vs) s s'

variable {m : Marking α σ}

/-! ## The bounded search is a search -/

theorem visits_of_foldlM (fuel : Nat) : ∀ (vs : List α) (s s' : σ),
    vs.foldlM (fun s w => visit m g fuel w s) s = some s' → Visits m g vs s s' := by
  -- the nodes entered are searched with less fuel, the rest of the list with the same
  induction fuel with
  | zero =>
    intro vs s s' h
    cases vs with
    | nil =>
      cases h
      exact .nil s
    | cons v vs => simp [visit] at h
  | succ fuel ih =>
    intro vs
    induction vs with
    | nil =>
      intro s s' h
      cases h
      exact .nil s
    | cons v vs ihvs =>
      intro s s' h
      rw [foldlM_cons] at h
      obtain ⟨s1, h1, h2⟩ := Option.bind_eq_some_iff.mp h
      rw [visit] at h1
      split at h1
      · next hm =>
        cases h1
        exact .seen hm (ihvs s s' h2)
      · next hm =>
        obtain ⟨s2, hs2, rfl⟩ := Option.map_eq_some_iff.mp h1
        exact .fresh (Bool.eq_false_iff.mpr hm) (ih _ _ _ hs2) (ihvs _ _ h2)

variable {s s' : σ} {fuel : Nat}

theorem visits_of_visit (h : visit m g fuel v s = some s') :
    Visits m g [v] s s' := by
  refine visits_of_foldlM fuel [v] s s' ?_
  simp [h]

/-- The nodes without a mark. -/
def unmarked [Fintype α] (m : Marking α σ) (s : σ) : Finset α :=
  Finset.univ.filter fun v => m.marked s v = false

/-! ## Marks -/

variable {vs : List α}

section

variable (h : Visits m g vs s s')

include h

theorem Visits.mono (hv : m.marked s v = true) : m.marked s' v = true := by
  induction h with
  | nil s => exact hv
  | seen _ _ ih => exact ih hv
  | fresh _ _ _ ih1 ih2 =>
    refine ih2 ?_
    rw [m.marked_leave]
    refine ih1 ?_
    simp [m.marked_enter, hv]

/-- The nodes of the list are marked at the end. -/
theorem Visits.marked_of_mem : ∀ v ∈ vs, m.marked s' v = true := by
  induction h with
  | nil s => simp
  | seen hm hrest ih =>
    exact forall_mem_cons.mpr ⟨hrest.mono hm, ih⟩
  | fresh _ hin hrest _ ih =>
    intro w hw
    rcases mem_cons.mp hw with rfl | hw
    · refine hrest.mono ?_
      rw [m.marked_leave]
      exact hin.mono (by simp [m.marked_enter])
    · exact ih w hw

/-- The successors of a newly marked node are marked at the end. -/
theorem Visits.closed :
    ∀ v, m.marked s v = false → m.marked s' v = true → ∀ w ∈ g v, m.marked s' w = true := by
  induction h with
  | nil s =>
    intro v hs hs'
    rw [hs] at hs'
    cases hs'
  | seen _ _ ih => exact ih
  | @fresh v vs s s1 s' hm hin hrest ihin ihrest =>
    intro x hs hs' w hw
    -- a node marked in between belongs to the first search, and `v` itself to its start
    by_cases hx : m.marked s1 x = true
    · refine hrest.mono ?_
      rw [m.marked_leave]
      by_cases hxv : x = v
      · subst hxv
        exact hin.marked_of_mem w hw
      · refine ihin x ?_ hx w hw
        simp [m.marked_enter, hs, hxv]
    · refine ihrest x ?_ hs' w hw
      rw [m.marked_leave]
      exact Bool.eq_false_iff.mpr hx

/-- A newly marked node can be reached from the list. -/
theorem Visits.reach :
    ∀ x, m.marked s x = false → m.marked s' x = true → ∃ v ∈ vs, Reach g v x := by
  induction h with
  | nil s =>
    intro x hs hs'
    rw [hs] at hs'
    cases hs'
  | seen _ _ ih =>
    intro x hs hs'
    obtain ⟨w, hw, hr⟩ := ih x hs hs'
    exact ⟨w, mem_cons_of_mem _ hw, hr⟩
  | @fresh v vs s s1 s' hm hin hrest ihin ihrest =>
    intro x hs hs'
    by_cases hx : m.marked s1 x = true
    · refine ⟨v, mem_cons_self, ?_⟩
      by_cases hxv : x = v
      · rw [hxv]
        exact .refl v
      · obtain ⟨w, hw, hr⟩ := ihin x (by simp [m.marked_enter, hs, hxv]) hx
        exact (Reach.edge hw).trans hr
    · obtain ⟨w, hw, hr⟩ := ihrest x (by
        rw [m.marked_leave]
        exact Bool.eq_false_iff.mpr hx) hs'
      exact ⟨w, mem_cons_of_mem _ hw, hr⟩

end

/-! ## Enough fuel -/

section Fuel

variable [Fintype α]

theorem unmarked_subset_of_mono
    (h : ∀ v, m.marked s v = true → m.marked s' v = true) : unmarked m s' ⊆ unmarked m s := by
  intro v hv
  simp only [unmarked, Finset.mem_filter, Finset.mem_univ, true_and] at *
  by_contra hc
  rw [h v (by simpa using hc)] at hv
  cases hv

theorem card_unmarked_enter (h : m.marked s v = false) :
    (unmarked m (m.enter v s)).card < (unmarked m s).card := by
  refine Finset.card_lt_card (Finset.ssubset_iff_subset_ne.mpr ⟨?_, ?_⟩)
  · exact unmarked_subset_of_mono fun w hw => by simp [m.marked_enter, hw]
  · intro heq
    have hv : v ∈ unmarked m (m.enter v s) := by
      rw [heq]
      simp [unmarked, h]
    simp [unmarked, m.marked_enter] at hv

/-- With more fuel than there are nodes left to mark, the search ends. -/
theorem foldlM_visit_isSome (fuel : Nat) : ∀ (vs : List α) (s : σ),
    (unmarked m s).card < fuel → (vs.foldlM (fun s w => visit m g fuel w s) s).isSome = true := by
  induction fuel with
  | zero =>
    intro vs s h
    omega
  | succ fuel ih =>
    intro vs
    induction vs with
    | nil => exact fun _ _ => rfl
    | cons v vs ihvs =>
      intro s hs
      have hv : ∃ s1, visit m g (fuel + 1) v s = some s1 := by
        rw [visit]
        split
        · exact ⟨s, rfl⟩
        · next hm =>
          have hlt := card_unmarked_enter (Bool.eq_false_iff.mpr hm)
          obtain ⟨s1, hs1⟩ := Option.isSome_iff_exists.mp
            (ih (g v) (m.enter v s) (by omega))
          exact ⟨m.leave v s1, by rw [hs1]; rfl⟩
      obtain ⟨s1, hs1⟩ := hv
      have hsub : unmarked m s1 ⊆ unmarked m s :=
        unmarked_subset_of_mono fun w hw => (visits_of_visit hs1).mono hw
      rw [foldlM_cons, hs1]
      exact ihvs s1 (lt_of_le_of_lt (Finset.card_le_card hsub) hs)

/-- **A depth bound above the number of nodes is no bound.** -/
theorem exists_visits (hfuel : Fintype.card α < fuel) (vs : List α) (s : σ) :
    ∃ s', vs.foldlM (fun s w => visit m g fuel w s) s = some s' ∧ Visits m g vs s s' := by
  have hcard : (unmarked m s).card < fuel := lt_of_le_of_lt (Finset.card_le_univ _) hfuel
  obtain ⟨s', hs'⟩ := Option.isSome_iff_exists.mp
    (foldlM_visit_isSome (g := g) fuel vs s hcard)
  exact ⟨s', hs', visits_of_foldlM fuel vs s s' hs'⟩

end Fuel

/-! ## Labels -/

/-- A label that is written on entering a node ends up on exactly the newly marked nodes. -/
theorem Visits.label {β : Type} (lab : σ → α → β) (c : β)
    (henter : ∀ v s w, lab (m.enter v s) w = if w = v then c else lab s w)
    (hleave : ∀ v s, lab (m.leave v s) = lab s) (h : Visits m g vs s s') :
    ∀ x, (m.marked s x = true → lab s' x = lab s x) ∧
      (m.marked s x = false → m.marked s' x = true → lab s' x = c) := by
  induction h with
  | nil s =>
    intro x
    refine ⟨fun _ => rfl, fun hs hs' => ?_⟩
    rw [hs] at hs'
    cases hs'
  | seen _ _ ih => exact ih
  | @fresh v vs s s1 s' hm hin hrest ihin ihrest =>
    intro x
    have hrest1 := ihrest x
    rw [m.marked_leave, hleave] at hrest1
    have hin1 := ihin x
    rw [m.marked_enter, henter] at hin1
    constructor
    · intro hs
      have hxv : x ≠ v := by
        rintro rfl
        rw [hm] at hs
        cases hs
      have hs1 : m.marked s1 x = true := hin.mono (by simp [m.marked_enter, hs])
      rw [hrest1.1 hs1, hin1.1 (by simp [hs]), if_neg hxv]
    · intro hs hs'
      by_cases hx : m.marked s1 x = true
      · rw [hrest1.1 hx]
        by_cases hxv : x = v
        · rw [hin1.1 (by simp [hxv]), if_pos hxv]
        · exact hin1.2 (by simp [hs, hxv]) hx
      · exact hrest1.2 (Bool.eq_false_iff.mpr hx) hs'

/-! ## The order of leaving -/

/-- The invariant of a search that records in `out` the nodes it leaves, the last one first. -/
structure Recorded (m : Marking α σ) (g : α → List α) (out : σ → List α) (s : σ) : Prop where
  marked : ∀ v ∈ out s, m.marked s v = true
  closed : ∀ v ∈ out s, ∀ w ∈ g v, m.marked s w = true
  order : FinishOrder g (out s)
  nodup : (out s).Nodup

/-- The nodes entered and not left yet. -/
def Open (m : Marking α σ) (out : σ → List α) (s : σ) (v : α) : Prop :=
  m.marked s v = true ∧ v ∉ out s

/-- When `v` is left, all its successors are marked and every open node reaches it. -/
theorem leftAfter_of_recorded {out : σ → List α} (hrec : Recorded m g out s)
    (hsucc : ∀ w ∈ g v, m.marked s w = true) (hopen : ∀ a, Open m out s a → Reach g a v) :
    LeftAfter g v (out s) := by
  intro z hz
  induction hz with
  | refl => exact Or.inl mem_cons_self
  | @tail y z hy hyz ih =>
    rcases ih with hmem | hother
    · have hz : m.marked s z = true := by
        rcases mem_cons.mp hmem with rfl | hmem
        · exact hsucc z hyz
        · exact hrec.closed y hmem z hyz
      by_cases hout : z ∈ v :: out s
      · exact Or.inl hout
      · -- an open node is left later than `v`, and reaches `v`
        refine Or.inr ⟨z, hout, hy.tail hyz, hopen z ⟨hz, ?_⟩⟩
        exact fun h => hout (mem_cons_of_mem _ h)
    · exact Or.inr hother

theorem Visits.recorded (out : σ → List α) (henter : ∀ v s, out (m.enter v s) = out s)
    (hleave : ∀ v s, out (m.leave v s) = v :: out s) (h : Visits m g vs s s') : Recorded m g out s →
    (∀ a, Open m out s a → ∀ v ∈ vs, Reach g a v) →
    Recorded m g out s' ∧ ∀ a, Open m out s' a ↔ Open m out s a := by
  induction h with
  | nil s => exact fun hrec _ => ⟨hrec, fun _ => Iff.rfl⟩
  | seen _ _ ih =>
    intro hrec hopen
    exact ih hrec fun a ha v hv => hopen a ha v (mem_cons_of_mem _ hv)
  | @fresh v vs s s1 s' hm hin hrest ihin ihrest =>
    intro hrec hopen
    have hvout : v ∉ out s := by
      intro hv
      rw [hrec.marked v hv] at hm
      cases hm
    have hrec0 : Recorded m g out (m.enter v s) := by
      refine ⟨?_, ?_, ?_, ?_⟩ <;> rw [henter]
      · intro w hw
        simp [m.marked_enter, hrec.marked w hw]
      · intro w hw x hx
        simp [m.marked_enter, hrec.closed w hw x hx]
      · exact hrec.order
      · exact hrec.nodup
    -- entering `v` opens it; everything open reaches it
    have hopen0 : ∀ a, Open m out (m.enter v s) a ↔ a = v ∨ Open m out s a := by
      intro a
      unfold Open
      rw [henter, m.marked_enter]
      by_cases hav : a = v
      · simp [hav, hvout]
      · simp [hav]
    have hreach : ∀ a, Open m out (m.enter v s) a → Reach g a v := by
      intro a ha
      rcases (hopen0 a).mp ha with rfl | ha
      · exact .refl _
      · exact hopen a ha v mem_cons_self
    obtain ⟨hrec1, hopen1⟩ := ihin hrec0 fun a ha w hw => (hreach a ha).trans (.edge hw)
    have hv1 : Open m out s1 v := (hopen1 v).mpr ((hopen0 v).mpr (Or.inl rfl))
    have hrec2 : Recorded m g out (m.leave v s1) := by
      refine ⟨?_, ?_, ?_, ?_⟩ <;> rw [hleave]
      · intro w hw
        rw [m.marked_leave]
        rcases mem_cons.mp hw with rfl | hw
        · exact hv1.1
        · exact hrec1.marked w hw
      · intro w hw x hx
        rw [m.marked_leave]
        rcases mem_cons.mp hw with rfl | hw
        · exact hin.marked_of_mem x hx
        · exact hrec1.closed w hw x hx
      · refine ⟨leftAfter_of_recorded hrec1 hin.marked_of_mem fun a ha => ?_, hrec1.order⟩
        exact hreach a ((hopen1 a).mp ha)
      · exact nodup_cons.mpr ⟨hv1.2, hrec1.nodup⟩
    have hopen2 : ∀ a, Open m out (m.leave v s1) a ↔ Open m out s a := by
      intro a
      have h1 := (hopen1 a).trans (hopen0 a)
      unfold Open at *
      rw [hleave, m.marked_leave, mem_cons, not_or]
      constructor
      · rintro ⟨hma, hne, hout⟩
        rcases h1.mp ⟨hma, hout⟩ with rfl | h
        · exact absurd rfl hne
        · exact h
      · rintro h
        obtain ⟨hma, hout⟩ := h1.mpr (Or.inr h)
        refine ⟨hma, ?_, hout⟩
        rintro rfl
        rw [hm] at h
        cases h.1
    obtain ⟨hrec', hopen'⟩ := ihrest hrec2 fun a ha w hw =>
      hopen a ((hopen2 a).mp ha) w (mem_cons_of_mem _ hw)
    exact ⟨hrec', fun a => (hopen' a).trans (hopen2 a)⟩

/-! ## Components from the transposed graph -/

/-- **A search of the transposed graph from the node left last finds its component.** The marks so
far cover whole components and all nodes left later. -/
theorem newlyMarked_iff (ht : ∀ v w, w ∈ gt v ↔ v ∈ g w) {r : α}
    (horder : FinishOrder g (before ++ r :: after)) (hnodup : (before ++ r :: after).Nodup)
    (hall : ∀ v, v ∈ before ++ r :: after) (hbefore : ∀ v ∈ before, m.marked s v = true)
    (hwhole : ∀ v w, m.marked s v = true → Mutual g v w → m.marked s w = true)
    (hr : m.marked s r = false) (h : Visits m gt [r] s s') (z : α) :
    (m.marked s z = false ∧ m.marked s' z = true) ↔ Mutual g r z := by
  constructor
  · rintro ⟨hs, hs'⟩
    obtain ⟨v, hv, hreach⟩ := h.reach z hs hs'
    obtain rfl := mem_singleton.mp hv
    obtain ⟨y, hzy, hy⟩ := exists_mutual_before horder hnodup hall (reach_transpose ht hreach)
    rcases hy with rfl | hy
    · exact hzy.symm
    · rw [hwhole y z (hbefore y hy) hzy.symm] at hs
      cases hs
  · rintro ⟨hrz, hzr⟩
    have hfree : ∀ x, Mutual g r x → m.marked s x = false := by
      intro x hx
      by_contra hc
      rw [hwhole x r (by simpa using hc) hx.symm] at hr
      cases hr
    refine ⟨hfree z ⟨hrz, hzr⟩, ?_⟩
    -- follow the path from `z` to `r` backwards; it stays in the component
    have hpath : ∀ x, Reach g x r → Reach g r x → m.marked s' x = true := by
      intro x hx
      induction hx using Relation.ReflTransGen.head_induction_on with
      | refl => exact fun _ => h.marked_of_mem r (by simp)
      | @head x y hxy hyr ih =>
        intro hrx
        have hry : Reach g r y := hrx.trans (.edge hxy)
        exact h.closed y (hfree y ⟨hry, hyr⟩) (ih hry) x ((ht y x).mpr hxy)
    exact hpath z hzr hrz

end DepthFirst
