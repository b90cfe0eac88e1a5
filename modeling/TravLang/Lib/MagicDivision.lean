import Mathlib.Tactic.Linarith
import Mathlib.Tactic.Ring

/-!
# Division by multiplication

A quotient `n / d` for `n` up to a bound `N` is computed as `n * m / P`, where `m / P` is slightly
greater than `1 / d`. How much greater it may be is decided by the greatest dividend below `N`
whose remainder is `d - 1`. The search for the least power of two `P` that is good enough keeps
the quotients and remainders of `P` by this number and by `d`.
-/

namespace MagicDivision

/-- The greatest number below `N` with remainder `d - 1`. -/
def critical (N d : Nat) : Nat := N - 1 - N % d

variable {N d P : Nat}

theorem critical_add_one (hd : 0 < d) (hN : d ≤ N) :
    critical N d + 1 = d * (N / d) := by
  have h1 := Nat.div_add_mod N d
  have h2 := Nat.mod_lt N hd
  unfold critical
  omega

theorem le_critical (hd : 0 < d) (hN : d ≤ N) : d ≤ critical N d + 1 := by
  rw [critical_add_one hd hN]
  exact Nat.le_mul_of_pos_right d (Nat.div_pos hN hd)

/-- `m / P` exceeds `1 / d` by so little that quotients up to `N` come out right. -/
structure Approximates (N d P m : Nat) : Prop where
  lt : P < m * d
  le : m * d ≤ P + d
  critical_mul_lt : critical N d * (m * d - P) < P
  /-- `N` itself counts only for negative dividends, hence the other comparison -/
  bound_mul_le : N % d = d - 1 → N * (m * d - P) ≤ P

/-- The multiples of `P` around `n * P / d`, compared after a multiplication by `d` -/
theorem quotient_mul (hd : 0 < d) (n P : Nat) :
    n / d * P * d ≤ n * P ∧ (n / d + 1) * P * d = n * P + (d - n % d) * P := by
  have hdiv := Nat.div_add_mod n d
  have hmod := Nat.mod_lt n hd
  constructor
  · calc n / d * P * d = d * (n / d) * P := by ring
      _ ≤ n * P := Nat.mul_le_mul_right P (by omega)
  · rw [← Nat.add_mul, show n + (d - n % d) = d * (n / d) + d by omega]
    ring

theorem Approximates.mul_eq {P m : Nat} (h : Approximates N d P m) (n : Nat) :
    n * m * d = n * P + n * (m * d - P) := by
  rw [Nat.mul_assoc, ← Nat.mul_add, Nat.add_sub_cancel' h.lt.le]

section Approximates

variable {N d P m : Nat} (hd : 0 < d) (hN : d ≤ N) (h : Approximates N d P m)

include hd hN h

/-- The excess of the approximation, scaled by a dividend, does not reach the next quotient. -/
theorem Approximates.mul_excess_lt {n : Nat} (hn : n ≤ N) (hne : n = N → N % d ≠ d - 1) :
    n * (m * d - P) < (d - n % d) * P := by
  have hcrit := h.critical_mul_lt
  have hle := le_critical hd hN
  have hsucc := critical_add_one hd hN
  have hmod := Nat.mod_lt n hd
  generalize m * d - P = δ at hcrit ⊢
  generalize critical N d = c at hcrit hle hsucc
  by_cases hc : n ≤ c
  · calc n * δ ≤ c * δ := Nat.mul_le_mul_right δ hc
      _ < P := hcrit
      _ ≤ (d - n % d) * P := Nat.le_mul_of_pos_left P (by omega)
  · -- `n` lies between the critical number and `N`, so its quotient is that of `N`
    have hq : n / d = N / d := by
      apply Nat.div_eq_of_lt_le
      · rw [Nat.mul_comm]
        omega
      · rw [Nat.add_mul, Nat.mul_comm, Nat.one_mul]
        have := Nat.div_add_mod N d
        have := Nat.mod_lt N hd
        omega
    have hr : n % d + (c + 1) = n := by
      rw [hsucc, ← hq]
      exact Nat.mod_add_div n d
    have hrN : n % d ≤ N % d := by
      have := Nat.mod_add_div N d
      omega
    have hr2 : n % d + 2 ≤ d := by
      by_contra hcon
      have hlt := Nat.mod_lt N hd
      exact hne (by have := Nat.mod_add_div N d; omega) (by omega)
    calc n * δ = c * δ + (n % d + 1) * δ := by rw [← Nat.add_mul]; congr 1; omega
      _ ≤ c * δ + c * δ := Nat.add_le_add_left (Nat.mul_le_mul_right δ (by omega)) _
      _ < 2 * P := by omega
      _ ≤ (d - n % d) * P := Nat.mul_le_mul_right P (by omega)

/-- **The quotient of a dividend below `N`.** -/
theorem Approximates.div_eq {n : Nat} (hn : n < N) : n * m / P = n / d := by
  have hexc := h.mul_excess_lt hd hN hn.le (fun he => absurd he hn.ne)
  have hscale := h.mul_eq n
  obtain ⟨hlow, hhigh⟩ := quotient_mul hd n P
  apply Nat.div_eq_of_lt_le
  · refine Nat.le_of_mul_le_mul_right ?_ hd
    omega
  · refine Nat.lt_of_mul_lt_mul_right (a := d) ?_
    omega

/-- **The quotient of a negative dividend.** Here the product lies above the quotient. -/
theorem Approximates.div_bounds {k : Nat} (hk : 0 < k) (hkN : k ≤ N) :
    k / d * P < k * m ∧ k * m ≤ (k / d + 1) * P := by
  have hexc : k * (m * d - P) ≤ (d - k % d) * P := by
    by_cases hne : k = N ∧ N % d = d - 1
    · obtain ⟨rfl, hr⟩ := hne
      rw [hr, show d - (d - 1) = 1 by omega, Nat.one_mul]
      exact h.bound_mul_le hr
    · exact (h.mul_excess_lt hd hN hkN fun he hr => hne ⟨he, hr⟩).le
  have hpos : 0 < k * (m * d - P) := Nat.mul_pos hk (Nat.sub_pos_of_lt h.lt)
  have hscale := h.mul_eq k
  obtain ⟨hlow, hhigh⟩ := quotient_mul hd k P
  constructor
  · refine Nat.lt_of_mul_lt_mul_right (a := d) ?_
    omega
  · refine Nat.le_of_mul_le_mul_right ?_ hd
    omega

/-- **Truncated division of an integer** is a multiplication, a division by `P` that rounds down,
and a correction for negative dividends. -/
theorem Approximates.tdiv_eq {x : Int} (hlo : -N ≤ x) (hhi : x < N) :
    x * m / P + (if x < 0 then 1 else 0) = x.tdiv d := by
  rcases Int.lt_or_le x 0 with hx | hx
  · obtain ⟨k, rfl⟩ : ∃ k : Nat, x = -(k : Int) := ⟨x.natAbs, by omega⟩
    obtain ⟨h1, h2⟩ := h.div_bounds hd hN (k := k) (by omega) (by omega)
    rw [if_pos hx, Int.neg_tdiv, Int.tdiv_eq_ediv_of_nonneg (by omega)]
    have hP : (0 : Int) < P := by
      have := h.critical_mul_lt
      omega
    have h1' : ((k / d : Nat) : Int) * P < k * m := by exact_mod_cast h1
    have h2' : (k : Int) * m ≤ (((k / d : Nat) : Int) + 1) * P := by exact_mod_cast h2
    generalize hq : ((k / d : Nat) : Int) = q at h1' h2'
    have hfloor : -(k : Int) * m / P = -q - 1 := by
      apply le_antisymm
      · refine Int.lt_add_one_iff.mp (Int.ediv_lt_of_lt_mul hP ?_)
        linarith
      · refine Int.le_ediv_of_mul_le hP ?_
        linarith
    rw [hfloor, ← Int.natCast_ediv, hq]
    ring
  · obtain ⟨n, rfl⟩ : ∃ n : Nat, x = n := ⟨x.toNat, by omega⟩
    rw [if_neg (by omega), Int.tdiv_eq_ediv_of_nonneg hx, Int.add_zero]
    exact_mod_cast h.div_eq hd hN (n := n) (by omega)

end Approximates

/-! ## The search for a power of two -/

/-- By how much the multiple of `d` above `P` exceeds `P`. -/
def excess (P d : Nat) : Nat := d - P % d

theorem succ_div_mul (hd : 0 < d) : (P / d + 1) * d = P + excess P d := by
  have h1 := Nat.div_add_mod P d
  have h2 := Nat.mod_lt P hd
  rw [Nat.add_mul, Nat.mul_comm, Nat.one_mul, excess]
  omega

theorem excess_pos (hd : 0 < d) : 0 < excess P d := Nat.sub_pos_of_lt (Nat.mod_lt P hd)

/-- Quotient and remainder of `2 * P` from those of `P`. -/
theorem div_mod_two_mul {c : Nat} (hc : 0 < c) :
    2 * P / c = (if c ≤ 2 * (P % c) then 2 * (P / c) + 1 else 2 * (P / c)) ∧
    2 * P % c = if c ≤ 2 * (P % c) then 2 * (P % c) - c else 2 * (P % c) := by
  have h1 := Nat.div_add_mod P c
  have h2 := Nat.mod_lt P hc
  generalize P / c = q at *
  generalize P % c = r at *
  subst h1
  split
  · next hge =>
    refine (Nat.div_mod_unique hc).mpr ⟨?_, by omega⟩
    have : c * (2 * q + 1) = 2 * (c * q) + c := by ring
    omega
  · next hlt =>
    refine (Nat.div_mod_unique hc).mpr ⟨?_, by omega⟩
    have : c * (2 * q) = 2 * (c * q) := by ring
    omega

/-- The test that ends the search, on quotient and remainder. -/
theorem search_ends_iff {c δ : Nat} (hc : 0 < c) :
    ¬ (P / c < δ ∨ (P / c = δ ∧ P % c = 0)) ↔ c * δ < P := by
  have h1 := Nat.div_add_mod P c
  have h2 := Nat.mod_lt P hc
  generalize P / c = q at *
  generalize P % c = r at *
  subst h1
  constructor
  · intro h
    rcases Nat.lt_trichotomy q δ with hlt | rfl | hgt
    · omega
    · omega
    · have : c * (δ + 1) ≤ c * q := Nat.mul_le_mul_left c hgt
      rw [Nat.mul_add, Nat.mul_one] at this
      omega
  · rintro h (hlt | ⟨rfl, rfl⟩)
    · have : c * (q + 1) ≤ c * δ := Nat.mul_le_mul_left c hlt
      rw [Nat.mul_add, Nat.mul_one] at this
      omega
    · omega

/-- A power at which the search ends gives a good multiplier. -/
theorem approximates_succ_div (hd : 0 < d) (hlt : critical N d * excess P d < P)
    (hbound : N % d = d - 1 → N * excess P d ≤ P) : Approximates N d P (P / d + 1) := by
  have hmul := succ_div_mul (P := P) hd
  have hpos := excess_pos (P := P) hd
  have hle : excess P d ≤ d := Nat.sub_le _ _
  refine ⟨by omega, by omega, ?_, ?_⟩
  · rwa [hmul, Nat.add_sub_cancel_left]
  · rwa [hmul, Nat.add_sub_cancel_left]

/-- When `N` has remainder `d - 1`, the search ends at once. -/
theorem search_ends_of_mod (hd : 2 ≤ d) (hN : d ≤ N) (hmod : N % d = d - 1) :
    critical N d * excess (2 * N) d < 2 * N ∧ N * excess (2 * N) d ≤ 2 * N := by
  have hexc : excess (2 * N) d = 2 := by
    rw [excess, (div_mod_two_mul (by omega)).2, hmod, if_pos (by omega)]
    omega
  rw [hexc]
  unfold critical
  omega

/-- A search that has not ended at `P` has a small `P`. -/
theorem le_of_not_search_ends (h : ¬ critical N d * excess P d < P) :
    P ≤ critical N d * d :=
  le_trans (Nat.le_of_not_lt h) (Nat.mul_le_mul_left _ (Nat.sub_le _ _))

/-- The multiplier is less than `2 * N`. -/
theorem succ_div_lt (hd : 2 ≤ d) (hN : d ≤ N) (h : P = 2 * N ∨ P ≤ 2 * (critical N d * d)) :
    P / d + 1 < 2 * N := by
  rcases h with rfl | h
  · have h1 : 2 * N / d ≤ 2 * N / 2 := Nat.div_le_div_left hd (by omega)
    have h2 : 2 * N / d * d ≤ 2 * N := Nat.div_mul_le_self _ _
    by_contra hc
    omega
  · have h1 : P / d ≤ 2 * critical N d := by
      rw [← Nat.mul_assoc] at h
      exact Nat.div_le_of_le_mul (by rw [Nat.mul_comm]; exact h)
    have h2 : critical N d + 1 ≤ N := by
      unfold critical
      omega
    omega

/-- For small divisors, the search ends only where the excess is at most `P / N`. -/
theorem excess_le_div (hd : 2 ≤ d) (hsmall : 2 * (d * d) ≤ N)
    (hend : critical N d * excess P d < P) (hdvd : N ∣ P)
    (hsize : P = 2 * N ∨ P ≤ 2 * (critical N d * d)) : excess P d ≤ P / N := by
  obtain ⟨t, rfl⟩ := hdvd
  have hdd : 2 * d ≤ d * d := Nat.mul_le_mul_right d hd
  rw [Nat.mul_div_cancel_left t (by omega)]
  by_contra hgt
  have hnear : N ≤ critical N d + d := by
    have := Nat.mod_lt N (by omega : 0 < d)
    unfold critical
    omega
  generalize critical N d = c at *
  -- the excess is at least `t + 1`
  have hmul : c * (t + 1) ≤ c * excess (N * t) d := Nat.mul_le_mul_left c (by omega)
  have hct : N * t ≤ (c + d) * t := Nat.mul_le_mul_right t hnear
  have hlt : c < d * t := by
    rw [Nat.mul_add] at hmul
    rw [Nat.add_mul] at hct
    omega
  rcases hsize with hsize | hsize
  · have ht : t = 2 := Nat.eq_of_mul_eq_mul_left (by omega : 0 < N) (by omega)
    subst ht
    omega
  · have : c * N < c * N :=
      calc c * N < d * t * N := Nat.mul_lt_mul_of_pos_right hlt (by omega)
        _ = d * (N * t) := by ring
        _ ≤ d * (2 * (c * d)) := Nat.mul_le_mul_left d hsize
        _ = c * (2 * (d * d)) := by ring
        _ ≤ c * N := Nat.mul_le_mul_left c hsmall
    omega

end MagicDivision
