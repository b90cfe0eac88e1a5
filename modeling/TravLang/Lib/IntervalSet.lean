import Mathlib.Data.List.Pairwise
import Mathlib.Data.Set.Basic

/-!
# Lists of intervals as sets of integers

A list of pairs `(low, high)` stands for the union of its intervals. In a spaced list each interval
lies below the next one, with at least `gap` integers between them.
-/

namespace IntervalSet

variable {s : List (Int × Int)} {p : Int × Int} {gap c : Int}

def members (s : List (Int × Int)) : Set Int := {c | ∃ p ∈ s, p.1 ≤ c ∧ c ≤ p.2}

theorem members_nil : members [] = ∅ := by
  ext c
  simp [members]

theorem mem_cons : c ∈ members (p :: s) ↔ (p.1 ≤ c ∧ c ≤ p.2) ∨ c ∈ members s := by
  simp [members]

structure Spaced (gap : Int) (s : List (Int × Int)) : Prop where
  le : ∀ p ∈ s, p.1 ≤ p.2
  below : s.Pairwise fun p q => p.2 + gap < q.1

theorem Spaced.nil : Spaced gap [] := ⟨nofun, .nil⟩

theorem Spaced.tail (h : Spaced gap (p :: s)) : Spaced gap s :=
  ⟨fun q hq => h.le q (List.mem_cons_of_mem _ hq), (List.pairwise_cons.mp h.below).2⟩

theorem Spaced.head_le (h : Spaced gap (p :: s)) : p.1 ≤ p.2 := h.le p List.mem_cons_self

/-- What is in the other intervals is above the first one. -/
theorem Spaced.lt_of_mem (h : Spaced gap (p :: s)) (hc : c ∈ members s) : p.2 + gap < c := by
  obtain ⟨q, hq, hlow, -⟩ := hc
  have := (List.pairwise_cons.mp h.below).1 q hq
  omega

/-- Intervals that are not empty are above another one if their members are. -/
theorem Spaced.cons (h : Spaced gap s) (hp : p.1 ≤ p.2)
    (hlt : ∀ c ∈ members s, p.2 + gap < c) : Spaced gap (p :: s) := by
  refine ⟨List.forall_mem_cons.mpr ⟨hp, h.le⟩, List.pairwise_cons.mpr ⟨fun q hq => ?_, h.below⟩⟩
  exact hlt q.1 ⟨q, hq, Int.le_refl _, h.le q hq⟩

/-- The least member is the bound of the first interval. -/
theorem Spaced.le_of_mem (hgap : 0 ≤ gap) (h : Spaced gap (p :: s)) (hc : c ∈ members (p :: s)) :
    p.1 ≤ c := by
  rcases mem_cons.mp hc with ⟨hlow, -⟩ | hc
  · exact hlow
  · have := h.lt_of_mem hc
    have := h.head_le
    omega

end IntervalSet
