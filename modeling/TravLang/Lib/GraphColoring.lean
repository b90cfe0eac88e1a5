import Mathlib.Logic.Function.Basic

/-!
# Partial colorings of a graph

A graph is given by the list of the neighbours of each vertex, where only some vertices are to be
colored: the others have their color from the start, and no list of neighbours. A coloring is built
one vertex at a time; it stays proper as long as a vertex gets a color that none of its neighbours
has.
-/

namespace GraphColoring

variable {V K : Type} {free : V → Prop} {adj : V → List V} {color : V → Option K}

/-- No vertex to be colored has the color of one of its neighbours. -/
def Proper (free : V → Prop) (adj : V → List V) (color : V → Option K) : Prop :=
  ∀ v, free v → ∀ u ∈ adj v, ∀ k, color v = some k → color u ≠ some k

/-- No color yet. -/
theorem Proper.of_none (h : ∀ v, free v → color v = none) : Proper free adj color := by
  intro v hv u _ k hk
  rw [h v hv] at hk
  cases hk

/-- A vertex may be given any color that its neighbours do not have. -/
theorem Proper.assign [DecidableEq V] (h : Proper free adj color) {v : V} {k : K}
    (hirrefl : v ∉ adj v) (hsymm : ∀ u, free u → v ∈ adj u → u ∈ adj v)
    (hk : ∀ u ∈ adj v, color u ≠ some k) :
    Proper free adj (Function.update color v (some k)) := by
  intro a ha b hb c hac
  by_cases hav : a = v
  · subst hav
    have hba : b ≠ a := fun he => hirrefl (he ▸ hb)
    rw [Function.update_self] at hac
    rw [Function.update_of_ne hba]
    exact hac ▸ hk b hb
  · rw [Function.update_of_ne hav] at hac
    by_cases hbv : b = v
    · subst hbv
      rw [Function.update_self]
      intro hkc
      exact hk a (hsymm a ha hb) (hac.trans hkc.symm)
    · rw [Function.update_of_ne hbv]
      exact h a ha b hb c hac

end GraphColoring
