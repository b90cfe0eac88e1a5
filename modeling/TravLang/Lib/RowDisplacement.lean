import Mathlib.Init

/-!
# Rows that overlap in one table

Sparse rows of numbers are stored in one table of cells: a row has a place in the table and a
default value, and owns the cells of its other values. A cell that a row does not own stands for the
default of the row. So rows may overlap, as long as no cell has two owners.
-/

namespace RowDisplacement

variable {ρ ν : Type} [DecidableEq ρ]

/-- The owner of each cell and its value, if it is in use -/
abbrev Comb (ρ ν : Type) := Nat → Option (ρ × ν)

def lookup (t : Comb ρ ν) (base : Nat) (default : ν) (r : ρ) (pos : Nat) : ν :=
  match t (base + pos) with
  | some (r', v) => if r' = r then v else default
  | none => default

/-- The row `r` has taken cells that were free; the others are unchanged. -/
def Claims (r : ρ) (t t' : Comb ρ ν) : Prop :=
  ∀ j, t' j = t j ∨ t j = none ∧ ∃ v, t' j = some (r, v)

variable {t t' : Comb ρ ν} {base n : Nat} {default : ν} {r r' : ρ}

theorem Claims.lookup_eq (h : Claims r t t') (hne : r' ≠ r) (pos : Nat) :
    lookup t' base default r' pos = lookup t base default r' pos := by
  unfold lookup
  rcases h (base + pos) with heq | ⟨hfree, v, hv⟩
  · rw [heq]
  · rw [hfree, hv]
    exact if_neg (Ne.symm hne)

/-- A row is read back when it owns the cells of its values and no others. -/
theorem lookup_eq_of_owned (row : Nat → ν) {pos : Nat}
    (hown : row pos ≠ default → t (base + pos) = some (r, row pos))
    (hdefault : row pos = default → ∀ v, t (base + pos) ≠ some (r, v)) :
    lookup t base default r pos = row pos := by
  unfold lookup
  by_cases h : row pos = default
  · split
    · next r' v hcell =>
      have hr : r' ≠ r := fun heq => hdefault h v (heq ▸ hcell)
      rw [if_neg hr, h]
    · exact h.symm
  · rw [hown h]
    exact if_pos rfl

end RowDisplacement
