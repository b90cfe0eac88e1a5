import Mathlib.Order.Bounds.Basic
import Mathlib.Algebra.Order.Group.Int

/-!
# Cutting a sequence into ranges

A sequence of `n` positions is cut into ranges of consecutive positions, each of which has to be
allowed. What is the least number of ranges? The last range leaves a shorter sequence, so the answer
for `n` positions follows from the answers for less.
-/

namespace Segmentation

variable {ok : Int → Int → Prop} {n i j : Int} {p : List (Int × Int)}

/-- The ranges `p` cut the positions below `n`; the last range comes first. -/
inductive Cut (ok : Int → Int → Prop) : Int → List (Int × Int) → Prop
  | nil : Cut ok 0 []
  | cons {i j : Int} {p : List (Int × Int)} (hij : i ≤ j) (hok : ok i j) (hp : Cut ok i p) :
    Cut ok (j + 1) ((i, j) :: p)

theorem Cut.nonneg (h : Cut ok n p) : 0 ≤ n := by
  induction h with
  | nil => exact Int.le_refl 0
  | cons hij _ _ ih => omega

/-- The ranges of a cut lie below `n`. -/
theorem Cut.bounds (h : Cut ok n p) : ∀ r ∈ p, 0 ≤ r.1 ∧ r.1 ≤ r.2 ∧ r.2 < n := by
  induction h with
  | nil => nofun
  | @cons i j p hij _ hp ih =>
    refine List.forall_mem_cons.mpr ⟨⟨hp.nonneg, hij, by omega⟩, fun r hr => ?_⟩
    obtain ⟨h0, hle, hlt⟩ := ih r hr
    exact ⟨h0, hle, by omega⟩

/-- The number of ranges of a shortest cut -/
def IsLeastCut (ok : Int → Int → Prop) (n : Int) (m : Nat) : Prop :=
  IsLeast {c : Nat | ∃ p, Cut ok n p ∧ p.length = c} m

theorem isLeastCut_zero : IsLeastCut ok 0 0 :=
  ⟨⟨[], .nil, rfl⟩, fun _ _ => Nat.zero_le _⟩

/-- The last range of a shortest cut is the one that leaves the least to do. -/
theorem isLeastCut_succ {c : Int → Nat} (hc : ∀ i', 0 ≤ i' → i' ≤ j → IsLeastCut ok i' (c i'))
    (hi : 0 ≤ i) (hij : i ≤ j) (hok : ok i j)
    (hmin : ∀ i', 0 ≤ i' → i' ≤ j → ok i' j → c i ≤ c i') : IsLeastCut ok (j + 1) (c i + 1) := by
  constructor
  · obtain ⟨p, hp, hlen⟩ := (hc i hi hij).1
    exact ⟨(i, j) :: p, .cons hij hok hp, by rw [List.length_cons, hlen]⟩
  · rintro _ ⟨p, hp, rfl⟩
    generalize hn : j + 1 = n at hp
    cases hp with
    | nil => omega
    | @cons i' j' p hij' hok' hp' =>
      obtain rfl : j = j' := by omega
      have hle : c i ≤ c i' := hmin i' hp'.nonneg hij' hok'
      have hleast : c i' ≤ p.length := (hc i' hp'.nonneg hij').2 ⟨p, hp', rfl⟩
      rw [List.length_cons]
      omega

/-- Where single positions are allowed, there are not more ranges than positions. -/
theorem IsLeastCut.le_self {n m : Nat} (h : IsLeastCut ok n m)
    (hone : ∀ i : Int, 0 ≤ i → i < n → ok i i) : m ≤ n := by
  refine h.2 ?_
  clear h
  induction n with
  | zero => exact ⟨[], .nil, rfl⟩
  | succ n ih =>
    obtain ⟨p, hp, hlen⟩ := ih fun i h0 hi => hone i h0 (by omega)
    exact ⟨(n, n) :: p, .cons (Int.le_refl _) (hone n (by omega) (by omega)) hp,
      by rw [List.length_cons, hlen]⟩

end Segmentation
