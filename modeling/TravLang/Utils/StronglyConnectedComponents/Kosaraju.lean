import TravLang.Utils.StronglyConnectedComponents.Basic

/-!
# Kosaraju's algorithm numbers the components in topological order
-/

namespace TravLang.StronglyConnectedComponents.Kosaraju

open List
open DepthFirst (Marking visit Visits Reach Mutual FinishOrder)

variable {n count : Nat} {graph : Graph n} {s s' : Marks n} {r : Fin n}

/-! ## `transpose` -/

theorem mem_foldl_transposeEdges (src v w : Fin n) : ∀ (dsts : List (Fin n)) (t : Graph n),
    w ∈ dsts.foldl (fun transposed dst =>
      Function.update transposed dst (src :: transposed dst)) t v ↔
    (w = src ∧ v ∈ dsts) ∨ w ∈ t v := by
  intro dsts
  induction dsts with
  | nil => simp
  | cons dst dsts ih =>
    intro t
    rw [foldl_cons, ih]
    by_cases h : v = dst
    · subst h
      simp only [Function.update_self, mem_cons, true_or, and_true]
      tauto
    · simp [h]

theorem mem_transpose (graph : Graph n) (v w : Fin n) :
    w ∈ transpose graph v ↔ v ∈ graph w := by
  have hfold : ∀ (srcs : List (Fin n)) (t : Graph n),
      w ∈ srcs.foldl (fun transposed src =>
        (graph src).foldl (fun transposed dst =>
          Function.update transposed dst (src :: transposed dst)) transposed) t v ↔
      (w ∈ srcs ∧ v ∈ graph w) ∨ w ∈ t v := by
    intro srcs
    induction srcs with
    | nil => simp
    | cons src srcs ih =>
      intro t
      rw [foldl_cons, ih, mem_foldl_transposeEdges]
      by_cases h : w = src
      · subst h
        simp only [true_and, mem_cons, true_or]
        tauto
      · simp [h]
  rw [transpose, hfold]
  simp

/-! ## The first pass -/

theorem depthFirstOrder_spec (graph : Graph n) :
    ∃ order, depthFirstOrder graph = .ok order ∧ FinishOrder graph order ∧ order.Nodup ∧
      ∀ v, v ∈ order := by
  obtain ⟨s, hs, hv⟩ := DepthFirst.exists_visits (m := orderMarking) (g := graph)
    (show Fintype.card (Fin n) < n + 1 by simp) (List.finRange n) ⟨fun _ => false, []⟩
  refine ⟨s.stack, ?_, ?_⟩
  · rw [depthFirstOrder, hs]
    rfl
  · have hstart : ∀ v, ¬ DepthFirst.Open orderMarking Order.stack
        (⟨fun _ => false, []⟩ : Order n) v := by
      intro v hv
      cases hv.1
    obtain ⟨hrec, hopen⟩ := hv.recorded Order.stack (fun _ _ => rfl) (fun _ _ => rfl)
      ⟨by simp, by simp, trivial, nodup_nil⟩ (fun a ha => absurd ha (hstart a))
    refine ⟨hrec.order, hrec.nodup, fun v => ?_⟩
    -- every node is marked and none is open, so every node has been pushed
    by_contra hc
    exact hstart v ((hopen v).mp ⟨hv.marked_of_mem v (mem_finRange v), hc⟩)

/-! ## The second pass -/

/-- The invariant of the loop of `mark`, when the nodes `before` have been looked at. -/
structure Numbered (graph : Graph n) (before : List (Fin n)) (s : Marks n) (count : Nat) :
    Prop where
  before_marked : ∀ v ∈ before, s.marked v = true
  /-- the marks cover whole components -/
  whole : ∀ v w, s.marked v = true → Mutual graph v w → s.marked w = true
  /-- the marks are closed under predecessors -/
  closed : ∀ v w, s.marked w = true → w ∈ graph v → s.marked v = true
  range : ∀ v, s.marked v = true → 0 ≤ s.id v ∧ s.id v < count
  same : ∀ v w, s.marked v = true → s.marked w = true → (s.id v = s.id w ↔ Mutual graph v w)
  topological : ∀ v w, s.marked w = true → w ∈ graph v → s.id v ≤ s.id w
  used : ∀ c < count, ∃ v, s.marked v = true ∧ s.id v = c

theorem numbered_start (graph : Graph n) :
    Numbered graph [] ⟨fun _ => false, fun _ => -1⟩ 0 where
  before_marked := by simp
  whole := by simp
  closed := by simp
  range := by simp
  same := by simp
  topological := by simp
  used := by simp

theorem Numbered.skip {before : List (Fin n)} (h : Numbered graph before s count)
    (hr : s.marked r = true) :
    Numbered graph (before ++ [r]) s count := by
  exact { h with
    before_marked := forall_mem_append.mpr ⟨h.before_marked, forall_mem_singleton.mpr hr⟩ }

/-- What a search with the current number does to marks and numbers. -/
theorem visits_id {vs : List (Fin n)} (h : Visits (idMarking count) graph vs s s')
    (x : Fin n) :
    (s.marked x = true → s'.marked x = true ∧ s'.id x = s.id x) ∧
    (s.marked x = false → s'.marked x = true → s'.id x = count) := by
  obtain ⟨hold, hnew⟩ := h.label (m := idMarking count) Marks.id (count : Int)
    (fun v s w => by simp [idMarking, Function.update_apply]) (fun _ _ => rfl) x
  exact ⟨fun hx => ⟨h.mono hx, hold hx⟩, hnew⟩

theorem Numbered.search {before after : List (Fin n)} (h : Numbered graph before s count)
    (hr : s.marked r = false) (horder : FinishOrder graph (before ++ r :: after))
    (hnodup : (before ++ r :: after).Nodup) (hall : ∀ v, v ∈ before ++ r :: after)
    (hv : Visits (idMarking count) (transpose graph) [r] s s') :
    Numbered graph (before ++ [r]) s' (count + 1) := by
  have hnew : ∀ z, (s.marked z = false ∧ s'.marked z = true) ↔ Mutual graph r z :=
    DepthFirst.newlyMarked_iff (m := idMarking count) (fun v w => mem_transpose graph v w)
      horder hnodup hall h.before_marked h.whole hr hv
  have hid := visits_id hv
  -- a marked node is an old one with its old number, or one of the new component
  have hcases : ∀ v, s'.marked v = true →
      (s.marked v = true ∧ s'.id v = s.id v) ∨ (Mutual graph r v ∧ s'.id v = count) := by
    intro v hm
    cases hs : s.marked v with
    | true => exact Or.inl ⟨rfl, ((hid v).1 hs).2⟩
    | false => exact Or.inr ⟨(hnew v).mp ⟨hs, hm⟩, (hid v).2 hs hm⟩
  have hnotold : ∀ v, Mutual graph r v → s.marked v = false := fun v hrv => ((hnew v).mpr hrv).1
  refine ⟨?_, ?_, ?_, ?_, ?_, ?_, ?_⟩
  · intro v hv'
    rcases mem_append.mp hv' with hv' | hv'
    · exact ((hid v).1 (h.before_marked v hv')).1
    · rw [mem_singleton.mp hv']
      exact hv.marked_of_mem r (by simp)
  · intro v w hm hvw
    rcases hcases v hm with ⟨hs, -⟩ | ⟨hrv, -⟩
    · exact ((hid w).1 (h.whole v w hs hvw)).1
    · exact ((hnew w).mpr (hrv.trans hvw)).2
  · intro v w hm hvw
    rcases hcases w hm with ⟨hs, -⟩ | ⟨hrw, -⟩
    · exact ((hid v).1 (h.closed v w hs hvw)).1
    · exact hv.closed w (hnotold w hrw) hm v ((mem_transpose graph w v).mpr hvw)
  · intro v hm
    rcases hcases v hm with ⟨hs, hi⟩ | ⟨-, hi⟩
    · have := h.range v hs
      rw [hi]
      omega
    · rw [hi]
      omega
  · intro v w hmv hmw
    rcases hcases v hmv with ⟨hsv, hiv⟩ | ⟨hrv, hiv⟩ <;>
      rcases hcases w hmw with ⟨hsw, hiw⟩ | ⟨hrw, hiw⟩
    · rw [hiv, hiw]
      exact h.same v w hsv hsw
    · have hlt := (h.range v hsv).2
      rw [hiv, hiw]
      refine ⟨fun heq => by omega, fun hvw => ?_⟩
      have := h.whole v w hsv hvw
      rw [hnotold w hrw] at this
      cases this
    · have hlt := (h.range w hsw).2
      rw [hiv, hiw]
      refine ⟨fun heq => by omega, fun hvw => ?_⟩
      have := h.whole w v hsw hvw.symm
      rw [hnotold v hrv] at this
      cases this
    · rw [hiv, hiw]
      exact ⟨fun _ => hrv.symm.trans hrw, fun _ => rfl⟩
  · intro v w hmw hvw
    rcases hcases w hmw with ⟨hsw, hiw⟩ | ⟨hrw, hiw⟩
    · rw [hiw, ((hid v).1 (h.closed v w hsw hvw)).2]
      exact h.topological v w hsw hvw
    · -- the number of the new component is the greatest
      have hmv : s'.marked v = true :=
        hv.closed w (hnotold w hrw) hmw v ((mem_transpose graph w v).mpr hvw)
      rcases hcases v hmv with ⟨hsv, hiv⟩ | ⟨-, hiv⟩
      · have := (h.range v hsv).2
        rw [hiv, hiw]
        omega
      · rw [hiv, hiw]
  · intro c hc
    by_cases hlt : c < count
    · obtain ⟨v, hs, hi⟩ := h.used c hlt
      exact ⟨v, ((hid v).1 hs).1, by rw [((hid v).1 hs).2, hi]⟩
    · have hm : s'.marked r = true := hv.marked_of_mem r (by simp)
      refine ⟨r, hm, ?_⟩
      rw [(hid r).2 hr hm, show c = count by omega]

theorem Numbered.loop : ∀ (after before : List (Fin n)) (s : Marks n)
    (count : Nat), Numbered graph before s count → FinishOrder graph (before ++ after) →
    (before ++ after).Nodup → (∀ v, v ∈ before ++ after) →
    ∃ s' count', after.foldlM (markStep (transpose graph)) (s, count) = some (s', count') ∧
      Numbered graph (before ++ after) s' count' := by
  intro after
  induction after with
  | nil =>
    intro before s count h _ _ _
    exact ⟨s, count, rfl, by simpa using h⟩
  | cons r after ih =>
    intro before s count h horder hnodup hall
    have happ : before ++ r :: after = (before ++ [r]) ++ after := by simp
    cases hr : s.marked r with
    | true =>
      have hstep : markStep (transpose graph) (s, count) r = some (s, count) := if_pos hr
      rw [foldlM_cons, hstep]
      rw [happ] at horder hnodup hall ⊢
      exact ih (before ++ [r]) s count (h.skip hr) horder hnodup hall
    | false =>
      obtain ⟨s1, hs1, hv⟩ := DepthFirst.exists_visits (m := idMarking count)
        (g := transpose graph) (show Fintype.card (Fin n) < n + 1 by simp) [r] s
      have hvisit : visit (idMarking count) (transpose graph) (n + 1) r s = some s1 := by
        simpa using hs1
      have hstep : markStep (transpose graph) (s, count) r = some (s1, count + 1) := by
        simp [markStep, hr, hvisit]
      rw [foldlM_cons, hstep]
      have hnum := h.search hr horder hnodup hall hv
      rw [happ] at horder hnodup hall ⊢
      exact ih (before ++ [r]) s1 (count + 1) hnum horder hnodup hall

/-- **The numbers are those of the strongly connected components, in topological order.** -/
theorem kosaraju_spec (graph : Graph n) :
    ∃ ncomponents components, kosaraju graph = .ok (ncomponents, components) ∧
      (∀ v, 0 ≤ components v ∧ components v < ncomponents) ∧
      (∀ v w, components v = components w ↔ Mutual graph v w) ∧
      (∀ v w, w ∈ graph v → components v ≤ components w) ∧
      ∀ c < ncomponents, ∃ v, components v = c := by
  obtain ⟨order, hdfo, horder, hnodup, hall⟩ := depthFirstOrder_spec graph
  obtain ⟨s, count, hs, hnum⟩ := Numbered.loop order [] _ 0 (numbered_start graph) horder hnodup
    hall
  have hmarked : ∀ v, s.marked v = true := fun v => hnum.before_marked v (hall v)
  refine ⟨count, s.id, ?_, ?_, ?_, ?_, ?_⟩
  · simp only [kosaraju, hdfo, Result.ok_bind, mark, hs, ofVisit, Result.pure_eq_ok]
  · exact fun v => hnum.range v (hmarked v)
  · exact fun v w => hnum.same v w (hmarked v) (hmarked w)
  · exact fun v w hvw => hnum.topological v w (hmarked w) hvw
  · intro c hc
    obtain ⟨v, -, hv⟩ := hnum.used c hc
    exact ⟨v, hv⟩

end TravLang.StronglyConnectedComponents.Kosaraju
