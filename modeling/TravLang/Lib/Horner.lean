import Mathlib.Data.Nat.Digits.Defs

/-!
# Numbers read digit by digit

Horner's scheme from the most significant digit on, and the two tests by which fixed-width
arithmetic notices that a step of it overflows.
-/

namespace Horner

/-- The number `m` followed by digits -/
def run (b m : Nat) (ds : List Nat) : Nat := ds.foldl (fun m d => b * m + d) m

@[simp] theorem run_nil (b m : Nat) : run b m [] = m := rfl

@[simp] theorem run_cons (b m d : Nat) (ds : List Nat) :
    run b m (d :: ds) = run b (b * m + d) ds := rfl

theorem run_eq (b m : Nat) (ds : List Nat) :
    run b m ds = Nat.ofDigits b (ds.reverse ++ [m]) := by
  induction ds generalizing m with
  | nil => simp
  | cons d ds ih =>
    rw [run_cons, ih, List.reverse_cons, Nat.ofDigits_append, Nat.ofDigits_append,
      Nat.ofDigits_append, Nat.ofDigits_singleton, Nat.ofDigits_singleton, Nat.ofDigits_singleton,
      List.length_append, List.length_singleton, pow_succ]
    ring

/-- A number does not get smaller with more digits. -/
theorem le_run {b : Nat} (hb : 0 < b) (m : Nat) (ds : List Nat) : m ≤ run b m ds := by
  induction ds generalizing m with
  | nil => exact Nat.le_refl m
  | cons d ds ih =>
    calc m ≤ b * m := Nat.le_mul_of_pos_left m hb
      _ ≤ b * m + d := Nat.le_add_right _ _
      _ ≤ run b (b * m + d) ds := ih _

variable {M b m d : Nat}

/-- The test before the multiplication -/
theorem overflow_of_gt (hb : 0 < b) (h : (M - 1) / b < m) : M ≤ b * m + d := by
  have hlt : M - 1 < m * b := (Nat.div_lt_iff_lt_mul hb).mp h
  have hle : M ≤ m * b := Nat.le_of_pred_lt hlt
  rw [Nat.mul_comm]
  exact Nat.le_add_right_of_le hle

/-- The test after the addition -/
theorem wrapped_iff (hM : 0 < M) (hd : d < M) (h : m ≤ (M - 1) / b) :
    (b * m + d) % M < d ↔ M ≤ b * m + d := by
  have hmul : b * m < M := by
    have hle : b * m ≤ M - 1 :=
      (Nat.mul_le_mul_left b h).trans (Nat.mul_div_le (M - 1) b)
    exact Nat.lt_of_le_pred hM hle
  constructor
  · intro hlt
    by_contra hM'
    rw [Nat.mod_eq_of_lt (Nat.lt_of_not_le hM')] at hlt
    exact absurd hlt (Nat.not_lt.mpr (Nat.le_add_left d _))
  · intro hle
    rw [Nat.mod_eq_sub_mod hle, Nat.mod_eq_of_lt (by omega)]
    omega

end Horner
