import Mathlib.Tactic.Ring

/-!
# Comparison of binary64 numbers

A double-precision number is given by its bits. Numbers are compared as integers: a finite number is
`scaled / 2^1074`, and an infinity is above or below all of them. A NaN is not comparable.

* `scaled_inj` — only the two zeros have the same value
-/

namespace Binary64

def exponent (d : UInt64) : Nat := d.toNat / 2 ^ 52 % 2 ^ 11

def fraction (d : UInt64) : Nat := d.toNat % 2 ^ 52

def negative (d : UInt64) : Bool := 2 ^ 63 ≤ d.toNat

def isNaN (d : UInt64) : Bool := exponent d = 2047 ∧ fraction d ≠ 0

/-- The absolute value, times `2^1074`. The exponent 0 is that of subnormal numbers. -/
def magnitude (d : UInt64) : Nat :=
  if exponent d = 0 then fraction d else (2 ^ 52 + fraction d) * 2 ^ (exponent d - 1)

def scaled (d : UInt64) : Int := if negative d then -(magnitude d : Int) else magnitude d

/-- `d < d'` in C -/
def lt (d d' : UInt64) : Bool := !isNaN d && !isNaN d' && scaled d < scaled d'

/-- `d == d'` in C -/
def eq (d d' : UInt64) : Bool := !isNaN d && !isNaN d' && scaled d = scaled d'

/-- The same number, or both not numbers. -/
def Same (d d' : UInt64) : Prop := eq d d' = true ∨ isNaN d = true ∧ isNaN d' = true

theorem Same.refl (d : UInt64) : Same d d := by
  unfold Same eq
  cases isNaN d <;> simp

theorem eq_self (d : UInt64) : eq d d = !isNaN d := by
  simp [eq]

variable {d d' : UInt64}

/-- A larger exponent makes a larger number. -/
theorem magnitude_lt_of_exponent_lt (h : exponent d < exponent d') :
    magnitude d < magnitude d' := by
  have hf : fraction d < 2 ^ 52 := Nat.mod_lt _ (by decide)
  unfold magnitude
  rw [if_neg (Nat.ne_of_gt (Nat.zero_lt_of_lt h))]
  have hpow : 2 ^ 52 * 2 ^ (exponent d' - 1) ≤ (2 ^ 52 + fraction d') * 2 ^ (exponent d' - 1) :=
    Nat.mul_le_mul_right _ (Nat.le_add_right _ _)
  refine Nat.lt_of_lt_of_le ?_ hpow
  split
  · exact Nat.lt_of_lt_of_le hf (Nat.le_mul_of_pos_right _ (Nat.two_pow_pos _))
  · next h0 =>
    -- one more in the exponent doubles the value
    calc (2 ^ 52 + fraction d) * 2 ^ (exponent d - 1)
        < (2 ^ 52 + 2 ^ 52) * 2 ^ (exponent d - 1) :=
          Nat.mul_lt_mul_of_pos_right (Nat.add_lt_add_left hf _) (Nat.two_pow_pos _)
      _ = 2 ^ 52 * 2 ^ exponent d := by
          obtain ⟨e, he⟩ := Nat.exists_eq_succ_of_ne_zero h0
          rw [he, Nat.succ_sub_one, Nat.succ_eq_add_one, pow_succ]
          ring
      _ ≤ 2 ^ 52 * 2 ^ (exponent d' - 1) :=
          Nat.mul_le_mul_left _ (Nat.pow_le_pow_right (by decide) (Nat.le_pred_of_lt h))

theorem fraction_eq_of_magnitude_eq (he : exponent d = exponent d')
    (h : magnitude d = magnitude d') : fraction d = fraction d' := by
  unfold magnitude at h
  rw [he] at h
  split at h
  · exact h
  · exact Nat.add_left_cancel (Nat.eq_of_mul_eq_mul_right (Nat.two_pow_pos _) h)

/-- The bits of a number: sign, exponent, fraction. -/
theorem toNat_eq (d : UInt64) :
    d.toNat = (if negative d then 2 ^ 63 else 0) + exponent d * 2 ^ 52 + fraction d := by
  have hlt := d.toNat_lt
  simp only [negative, exponent, fraction, decide_eq_true_eq]
  split <;> omega

theorem magnitude_inj (h : magnitude d = magnitude d') :
    exponent d = exponent d' ∧ fraction d = fraction d' := by
  rcases Nat.lt_trichotomy (exponent d) (exponent d') with hlt | he | hlt
  · exact absurd h (Nat.ne_of_lt (magnitude_lt_of_exponent_lt hlt))
  · exact ⟨he, fraction_eq_of_magnitude_eq he h⟩
  · exact absurd h (Nat.ne_of_gt (magnitude_lt_of_exponent_lt hlt))

theorem magnitude_eq_zero (h : magnitude d = 0) : exponent d = 0 ∧ fraction d = 0 := by
  have hzero : magnitude 0 = 0 := rfl
  exact magnitude_inj (h.trans hzero.symm)

/-- **Numbers with the same value have the same bits, or both are zeros.** -/
theorem scaled_inj (h : scaled d = scaled d') :
    d = d' ∨ (exponent d = 0 ∧ fraction d = 0) ∧ exponent d' = 0 ∧ fraction d' = 0 := by
  have habs : magnitude d = magnitude d' := by
    have := congrArg Int.natAbs h
    unfold scaled at this
    split at this <;> split at this <;> simpa using this
  by_cases hsign : negative d = negative d'
  · refine .inl (UInt64.toNat_inj.mp ?_)
    obtain ⟨he, hf⟩ := magnitude_inj habs
    rw [toNat_eq, toNat_eq d', hsign, he, hf]
  · -- a value and its opposite
    have hzero : magnitude d = 0 := by
      unfold scaled at h
      rw [← habs] at h
      cases hn : negative d <;> cases hn' : negative d' <;> simp only [hn, hn'] at h hsign
      · exact absurd trivial hsign
      · simp at h
        omega
      · simp at h
        omega
      · exact absurd trivial hsign
    exact .inr ⟨magnitude_eq_zero hzero, magnitude_eq_zero (habs ▸ hzero)⟩

end Binary64
