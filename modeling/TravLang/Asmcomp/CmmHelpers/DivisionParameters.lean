import TravLang.Asmcomp.CmmHelpers.Arith
import TravLang.Lib.MagicDivision

/-!
# The parameters of a division

Words are read as unsigned numbers here. The loop of `divimm_parameters` doubles a power of two
`P`, and keeps the quotients and remainders of `P` by `nc` and by the divisor; no operation of the
loop wraps.
-/

namespace TravLang.CmmHelpers

open Cmm MagicDivision

variable {W P : Nat} {x y a d n : BitVec W}

/-! ## Unsigned comparison -/

theorem toInt_add_intMin (hW : 0 < W) (x : BitVec W) :
    (x + BitVec.intMin W).toInt = x.toNat - 2 ^ (W - 1) := by
  have hexp := Nat.two_pow_pred_mul_two hW
  have hx := x.isLt
  have hmin : (BitVec.intMin W).toNat = 2 ^ (W - 1) := by
    rw [BitVec.toNat_intMin]
    exact Nat.mod_eq_of_lt (by omega)
  have hadd := BitVec.toNat_add x (BitVec.intMin W)
  rw [hmin] at hadd
  have hcast : (2 : Int) ^ (W - 1) = ((2 ^ (W - 1) : Nat) : Int) := by
    rfl
  rw [BitVec.toInt_eq_toNat_cond, hadd, hcast]
  generalize 2 ^ (W - 1) = h at *
  rw [← hexp] at hx ⊢
  by_cases hlt : x.toNat < h
  · rw [Nat.mod_eq_of_lt (by omega), if_neg (by omega)]
    omega
  · rw [show x.toNat + h = (x.toNat - h) + h * 2 by omega, Nat.add_mod_right,
      Nat.mod_eq_of_lt (by omega), if_pos (by omega)]
    omega

theorem nativeCompare_lt : nativeCompare x y < 0 ↔ x.toInt < y.toInt := by
  unfold nativeCompare
  split <;> [skip; split] <;> omega

theorem ucompare_lt (hW : 0 < W) : ucompare x y < 0 ↔ x.toNat < y.toNat := by
  rw [ucompare, nativeCompare_lt, toInt_add_intMin hW, toInt_add_intMin hW]
  omega

theorem ucompare_ge (hW : 0 < W) : ucompare x y ≥ 0 ↔ y.toNat ≤ x.toNat := by
  have := ucompare_lt hW (x := x) (y := y)
  omega

/-! ## Quotients and remainders -/

/-- The pair holds the quotient and the remainder of `P` by `c`. -/
def DivMod (qr : BitVec W × BitVec W) (P c : Nat) : Prop :=
  qr.1.toNat = P / c ∧ qr.2.toNat = P % c

theorem toNat_shiftLeft_one (h : 2 * a.toNat < 2 ^ W) :
    (a <<< 1).toNat = 2 * a.toNat := by
  rw [BitVec.toNat_shiftLeft, Nat.shiftLeft_eq, Nat.pow_one, Nat.mul_comm, Nat.mod_eq_of_lt h]

theorem toNat_add_one (h : a.toNat + 1 < 2 ^ W) : (a + 1).toNat = a.toNat + 1 := by
  have hone : (1 : BitVec W).toNat = 1 := by
    show 1 % 2 ^ W = 1
    exact Nat.mod_eq_of_lt (by omega)
  rw [BitVec.toNat_add, hone, Nat.mod_eq_of_lt h]

theorem pos_of_lt_two_pow {k : Nat} (h0 : 0 < k) (h : k < 2 ^ (W - 1)) : 0 < W := by
  rcases Nat.eq_zero_or_pos W with rfl | hW
  · rw [Nat.zero_sub, Nat.pow_zero] at h
    omega
  · exact hW

theorem toInt_of_lt_two_pow (hW : 0 < W) (hlt : d.toNat < 2 ^ (W - 1)) :
    d.toInt = d.toNat := by
  have hexp := Nat.two_pow_pred_mul_two hW
  exact BitVec.toInt_eq_toNat_of_lt (by omega)

theorem toNat_half_sdiv (hW : 0 < W) (hlt : d.toNat < 2 ^ (W - 1)) :
    ((n >>> 1).sdiv d).toNat = n.toNat / 2 / d.toNat := by
  have hexp := Nat.two_pow_pred_mul_two hW
  have hhalf : (n >>> 1).toNat = n.toNat / 2 := by
    rw [BitVec.toNat_ushiftRight, Nat.shiftRight_eq_div_pow, Nat.pow_one]
  have hmsb1 : (n >>> 1).msb = false := by
    rw [BitVec.msb_eq_false_iff_two_mul_lt, hhalf]
    omega
  have hmsb2 : d.msb = false := by
    rw [BitVec.msb_eq_false_iff_two_mul_lt]
    omega
  rw [BitVec.sdiv_eq, hmsb1, hmsb2]
  show ((n >>> 1).udiv d).toNat = _
  rw [← hhalf]
  exact BitVec.toNat_udiv

/-- **`udivmod` divides.** The quotient of the half is doubled, and corrected by at most one. -/
theorem udivmod_spec (hd : 0 < d.toNat) (hlt : d.toNat < 2 ^ (W - 1)) :
    DivMod (udivmod n d) n.toNat d.toNat := by
  have hW := pos_of_lt_two_pow hd hlt
  have hdiv := Nat.div_add_mod (n.toNat / 2) d.toNat
  have hmod := Nat.mod_lt (n.toNat / 2) hd
  have hq0 := toNat_half_sdiv hW (n := n) hlt
  generalize n.toNat / 2 / d.toNat = q0 at *
  generalize n.toNat / 2 % d.toNat = r0 at *
  have hprod : q0 ≤ d.toNat * q0 := Nat.le_mul_of_pos_left q0 hd
  have hassoc : 2 * q0 * d.toNat = 2 * (d.toNat * q0) := by ring
  have hcomm : d.toNat * (2 * q0) = 2 * (d.toNat * q0) := by ring
  have hq : (((n >>> 1).sdiv d) <<< 1).toNat = 2 * q0 := by
    rw [toNat_shiftLeft_one (by omega), hq0]
  have hqd : (((n >>> 1).sdiv d) <<< 1 * d).toNat = 2 * (d.toNat * q0) := by
    rw [BitVec.toNat_mul, hq, hassoc, Nat.mod_eq_of_lt (by omega)]
  have hr : (n - ((n >>> 1).sdiv d) <<< 1 * d).toNat = n.toNat - 2 * (d.toNat * q0) := by
    rw [BitVec.toNat_sub_of_le (by rw [BitVec.le_def]; omega), hqd]
  have hneg : ¬ d.toInt < 0 := by
    rw [toInt_of_lt_two_pow hW hlt]
    omega
  simp only [udivmod, if_neg hneg, ucompare_ge hW, hr]
  split
  · next hge =>
    have huniq := (Nat.div_mod_unique (a := n.toNat) (d := 2 * q0 + 1)
      (c := n.toNat - 2 * (d.toNat * q0) - d.toNat) hd).mpr
      ⟨by rw [Nat.mul_add, hcomm]; omega, by omega⟩
    constructor
    · show (((n >>> 1).sdiv d) <<< 1 + 1).toNat = _
      rw [toNat_add_one (by omega), hq, huniq.1]
    · show (n - ((n >>> 1).sdiv d) <<< 1 * d - d).toNat = _
      rw [BitVec.toNat_sub_of_le (by rw [BitVec.le_def]; omega), hr, huniq.2]
  · next hge =>
    have huniq := (Nat.div_mod_unique (a := n.toNat) (d := 2 * q0)
      (c := n.toNat - 2 * (d.toNat * q0)) hd).mpr
      ⟨by rw [hcomm]; omega, by omega⟩
    exact ⟨hq.trans huniq.1.symm, hr.trans huniq.2.symm⟩

/-- One round of the loop doubles the dividend. -/
theorem doubleDivmod_spec {c : BitVec W} {qr : BitVec W × BitVec W} (hc : 0 < c.toNat)
    (hlt : c.toNat < 2 ^ (W - 1)) (hq : 2 * P / c.toNat < 2 ^ W) (h : DivMod qr P c.toNat) :
    DivMod (doubleDivmod c qr) (2 * P) c.toNat := by
  obtain ⟨hq1, hr1⟩ := h
  have hW := pos_of_lt_two_pow hc hlt
  have hexp := Nat.two_pow_pred_mul_two hW
  have hmod := Nat.mod_lt P hc
  obtain ⟨hdiv2, hmod2⟩ := div_mod_two_mul (P := P) hc
  have hr2 : (qr.2 <<< 1).toNat = 2 * (P % c.toNat) := by
    rw [toNat_shiftLeft_one (by omega), hr1]
  have hq2 : (qr.1 <<< 1).toNat = 2 * (P / c.toNat) := by
    rw [toNat_shiftLeft_one, hq1]
    split at hdiv2 <;> omega
  simp only [doubleDivmod, ucompare_ge hW, hr2]
  split
  · next hge =>
    rw [if_pos hge] at hdiv2 hmod2
    constructor
    · show (qr.1 <<< 1 + 1).toNat = _
      rw [toNat_add_one (by omega), hq2, hdiv2]
    · show (qr.2 <<< 1 - c).toNat = _
      rw [BitVec.toNat_sub_of_le (by rw [BitVec.le_def]; omega), hr2, hmod2]
  · next hge =>
    rw [if_neg hge] at hdiv2 hmod2
    exact ⟨hq2.trans hdiv2.symm, hr2.trans hmod2.symm⟩

/-! ## The search -/

/-- The test that repeats a round. -/
theorem continue_iff {nc : BitVec W} {qr1 qr2 : BitVec W × BitVec W} (hc : 0 < nc.toNat)
    (hd : 0 < d.toNat) (hlt : d.toNat < 2 ^ (W - 1)) (h1 : DivMod qr1 P nc.toNat)
    (h2 : DivMod qr2 P d.toNat) :
    (ucompare qr1.1 (d - qr2.2) < 0 || (qr1.1 = d - qr2.2 && qr1.2 = 0)) = true ↔
      ¬ nc.toNat * excess P d.toNat < P := by
  have hW := pos_of_lt_two_pow hd hlt
  have hmod := Nat.mod_lt P hd
  have hdelta : (d - qr2.2).toNat = excess P d.toNat := by
    rw [BitVec.toNat_sub_of_le (by rw [BitVec.le_def, h2.2]; omega), h2.2, excess]
  rw [← search_ends_iff hc, Decidable.not_not]
  simp only [Bool.or_eq_true, Bool.and_eq_true, decide_eq_true_eq, ucompare_lt hW, BitVec.toNat_eq,
    hdelta, h1.1, h1.2]
  rfl

/-! ### Exact arithmetic -/

/-- `doubleDivmod` on natural numbers -/
def exactDouble (c : Nat) (qr : Nat × Nat) : Nat × Nat :=
  let q := 2 * qr.1
  let r := 2 * qr.2
  if c ≤ r then (q + 1, r - c) else (q, r)

/-- `divimmLoop` on natural numbers -/
def exactLoop (W d nc : Nat) : Nat → Nat → Nat × Nat → Nat × Nat → Option (Nat × Nat)
  | 0, _, _, _ => none
  | fuel + 1, p, qr1, qr2 =>
    let p := p + 1
    let (q1, r1) := exactDouble nc qr1
    let (q2, r2) := exactDouble d qr2
    let delta := d - r2
    if q1 < delta ∨ (q1 = delta ∧ r1 = 0) then exactLoop W d nc fuel p (q1, r1) (q2, r2)
    else some (q2 + 1, p - W)

/-- `divimmParameters` on natural numbers -/
def exactParameters (W d : Nat) : Option (Nat × Nat) :=
  let twopsm1 := 2 ^ (W - 1)
  let nc := twopsm1 - 1 - twopsm1 % d
  exactLoop W d nc W (W - 1) (twopsm1 / nc, twopsm1 % nc) (twopsm1 / d, twopsm1 % d)

theorem exactDouble_spec {c : Nat} (hc : 0 < c) :
    exactDouble c (P / c, P % c) = (2 * P / c, 2 * P % c) := by
  obtain ⟨hdiv, hmod⟩ := div_mod_two_mul (P := P) hc
  rw [hdiv, hmod]
  unfold exactDouble
  by_cases h : c ≤ 2 * (P % c)
  · simp only [if_pos h]
  · simp only [if_neg h]

/-- One round, on the quotients and remainders of `2 ^ p` -/
theorem exactLoop_succ {W d nc : Nat} (hd : 0 < d) (hc : 0 < nc) (fuel p : Nat) :
    exactLoop W d nc (fuel + 1) p (2 ^ p / nc, 2 ^ p % nc) (2 ^ p / d, 2 ^ p % d) =
      if nc * excess (2 ^ (p + 1)) d < 2 ^ (p + 1) then some (2 ^ (p + 1) / d + 1, p + 1 - W)
      else exactLoop W d nc fuel (p + 1) (2 ^ (p + 1) / nc, 2 ^ (p + 1) % nc)
        (2 ^ (p + 1) / d, 2 ^ (p + 1) % d) := by
  have hdouble : 2 ^ (p + 1) = 2 * 2 ^ p := Nat.pow_succ'
  have htest := search_ends_iff (P := 2 ^ (p + 1)) (δ := excess (2 ^ (p + 1)) d) hc
  rw [exactLoop, exactDouble_spec hc, exactDouble_spec hd, ← hdouble]
  dsimp only
  rw [← excess]
  split
  · next h => rw [if_neg (by rw [← htest]; exact not_not_intro h)]
  · next h => rw [if_pos (htest.mp h)]

section Search

variable {N : Nat} {d nc : BitVec W} (hN : N = 2 ^ (W - 1)) (hd : 2 ≤ d.toNat) (hlt : d.toNat < N)
  (hnc : nc.toNat = critical N d.toNat)

include hN hd hlt

theorem two_le_critical : 2 ≤ critical N d.toNat := by
  have hfour : 4 ≤ N := by
    obtain ⟨k, hk⟩ : ∃ k, W - 1 = k + 2 := by
      refine ⟨W - 1 - 2, ?_⟩
      have : ¬ W - 1 ≤ 1 := by
        intro hle
        have := Nat.pow_le_pow_right (by omega : 0 < 2) hle
        omega
      omega
    have hpos : 0 < 2 ^ k := Nat.two_pow_pos k
    rw [hN, hk, Nat.pow_add]
    omega
  have hsucc := critical_add_one (by omega) hlt.le
  have hq : 1 ≤ N / d.toNat := Nat.div_pos hlt.le (by omega)
  rcases Nat.lt_or_eq_of_le hq with hq | hq
  · have : d.toNat * 2 ≤ d.toNat * (N / d.toNat) := Nat.mul_le_mul_left _ hq
    omega
  · have hmod := Nat.div_add_mod N d.toNat
    have hr := Nat.mod_lt N (by omega : 0 < d.toNat)
    rw [← hq, Nat.mul_one] at hsucc hmod
    omega

theorem critical_lt : critical N d.toNat < N := by
  unfold critical
  omega

/-- The dividend of the loop stays below the square of `N`. -/
theorem exponent_lt {p : Nat} (hle : 2 ^ p ≤ critical N d.toNat * d.toNat) : p < 2 * W - 2 := by
  have hsq : 2 ^ p < N * N :=
    calc 2 ^ p ≤ critical N d.toNat * d.toNat := hle
      _ < N * N := Nat.mul_lt_mul'' (critical_lt hN hd hlt) hlt
  rw [hN, ← Nat.pow_add] at hsq
  have := (Nat.pow_lt_pow_iff_right (by omega : 1 < 2)).mp hsq
  omega

include hnc

/-- **The loop ends, within `W` rounds, and computes as on natural numbers.**

When a round is repeated, the power of two is at most `critical N d * d`. When `N` has the
remainder `d - 1`, no round is repeated. -/
theorem divimmLoop_exact (fuel : Nat) : ∀ (p : Nat) (qr1 qr2 : BitVec W × BitVec W),
    2 * W - 1 ≤ p + fuel → W - 1 ≤ p →
    DivMod qr1 (2 ^ p) nc.toNat → DivMod qr2 (2 ^ p) d.toNat →
    (p = W - 1 ∨ 2 ^ p ≤ critical N d.toNat * d.toNat ∧ N % d.toNat ≠ d.toNat - 1) →
    ∃ m k, divimmLoop d nc fuel p qr1 qr2 = some (m, k) ∧
      exactLoop W d.toNat nc.toNat fuel p (2 ^ p / nc.toNat, 2 ^ p % nc.toNat)
        (2 ^ p / d.toNat, 2 ^ p % d.toNat) = some (m.toNat, k) ∧ k ≤ W - 2 ∧
      m.toNat = 2 ^ (W + k) / d.toNat + 1 ∧
      critical N d.toNat * excess (2 ^ (W + k)) d.toNat < 2 ^ (W + k) ∧
      (k = 0 ∨ 2 ^ (W + k) ≤ 2 * (critical N d.toNat * d.toNat) ∧
        N % d.toNat ≠ d.toNat - 1) := by
  have hW := pos_of_lt_two_pow (by omega : 0 < d.toNat) (hN ▸ hlt)
  have hexp := Nat.two_pow_pred_mul_two hW
  have hc2 := two_le_critical hN hd hlt
  have hcN := critical_lt hN hd hlt
  induction fuel with
  | zero =>
    rintro p qr1 qr2 hfuel hp h1 h2 (hs | ⟨hs, -⟩)
    · omega
    · have := exponent_lt hN hd hlt hs
      omega
  | succ fuel ih =>
    intro p qr1 qr2 hfuel hp h1 h2 hs
    have hdouble : 2 ^ (p + 1) = 2 * 2 ^ p := Nat.pow_succ'
    have hsize : 2 ^ (p + 1) = 2 * N ∨ 2 ^ (p + 1) ≤ 2 * (critical N d.toNat * d.toNat) := by
      rcases hs with rfl | ⟨hs, -⟩
      · exact .inl (by rw [hdouble, hN])
      · exact .inr (by omega)
    have hqd : 2 ^ (p + 1) / d.toNat + 1 < 2 ^ W := by
      have := succ_div_lt hd hlt.le hsize
      omega
    have hqc : 2 ^ (p + 1) / nc.toNat < 2 ^ W := by
      rw [hnc]
      rcases hsize with hs | hs
      · rw [hs]
        calc 2 * N / critical N d.toNat ≤ 2 * N / 2 := Nat.div_le_div_left hc2 (by omega)
          _ < 2 ^ W := by omega
      · have : 2 ^ (p + 1) / critical N d.toNat ≤ 2 * d.toNat :=
          Nat.div_le_of_le_mul (le_trans hs (le_of_eq (by ring)))
        omega
    have h1' := doubleDivmod_spec (by omega) (by omega) (by rwa [← hdouble]) h1
    have h2' := doubleDivmod_spec (by omega) (by omega) (by rw [← hdouble]; omega) h2
    rw [← hdouble] at h1' h2'
    have htest := continue_iff (by omega) (by omega) (by omega) h1' h2'
    rw [exactLoop_succ (by omega) (by omega)]
    by_cases hend : nc.toNat * excess (2 ^ (p + 1)) d.toNat < 2 ^ (p + 1)
    · have hk : W + (p + 1 - W) = p + 1 := by omega
      have hm : ((doubleDivmod d qr2).1 + 1).toNat = 2 ^ (p + 1) / d.toNat + 1 := by
        rw [toNat_add_one (by rw [h2'.1]; exact hqd), h2'.1]
      refine ⟨(doubleDivmod d qr2).1 + 1, p + 1 - W, ?_, ?_, ?_, ?_, ?_, ?_⟩
      · simp only [divimmLoop]
        rw [if_neg (by rw [htest]; exact not_not_intro hend)]
      · rw [if_pos hend, hm]
      · rcases hs with rfl | ⟨hs, -⟩
        · omega
        · have := exponent_lt hN hd hlt hs
          omega
      · rw [hm, hk]
      · rwa [hk, ← hnc]
      · rcases hs with rfl | ⟨hs, hmod⟩
        · exact .inl (by omega)
        · exact .inr ⟨by rw [hk]; omega, hmod⟩
    · simp only [divimmLoop]
      rw [if_pos (htest.mpr hend), if_neg hend]
      rw [hnc] at hend
      refine ih (p + 1) _ _ (by omega) (by omega) h1' h2' (.inr ⟨le_of_not_search_ends hend, ?_⟩)
      intro hmod
      rcases hs with rfl | ⟨-, hs⟩
      · rw [hdouble, ← hN] at hend
        exact hend (search_ends_of_mod hd hlt.le hmod).1
      · exact hs hmod

omit hnc in

/-- What the loop starts with -/
theorem divimmParameters_eq_loop : ∃ (nc : BitVec W) (qr1 qr2 : BitVec W × BitVec W),
    divimmParameters d = divimmLoop d nc W (W - 1) qr1 qr2 ∧ nc.toNat = critical N d.toNat ∧
    DivMod qr1 (2 ^ (W - 1)) nc.toNat ∧ DivMod qr2 (2 ^ (W - 1)) d.toNat := by
  have hW := pos_of_lt_two_pow (by omega : 0 < d.toNat) (hN ▸ hlt)
  have hexp := Nat.two_pow_pred_mul_two hW
  have hmin : (BitVec.intMin W).toNat = 2 ^ (W - 1) := by
    rw [BitVec.toNat_intMin]
    exact Nat.mod_eq_of_lt (by omega)
  have hdm : DivMod (udivmod (BitVec.intMin W) d) (2 ^ (W - 1)) d.toNat := by
    rw [← hmin]
    exact udivmod_spec (by omega) (hN ▸ hlt)
  have hone : (1 : BitVec W).toNat = 1 := by
    show 1 % 2 ^ W = 1
    exact Nat.mod_eq_of_lt (by omega)
  have hmod := Nat.mod_lt (2 ^ (W - 1)) (by omega : 0 < d.toNat)
  have hnc : (BitVec.intMin W - 1 - (udivmod (BitVec.intMin W) d).2).toNat =
      critical N d.toNat := by
    have hpred : (BitVec.intMin W - 1).toNat = 2 ^ (W - 1) - 1 := by
      rw [BitVec.toNat_sub_of_le (by rw [BitVec.le_def]; omega), hmin, hone]
    rw [BitVec.toNat_sub_of_le (by rw [BitVec.le_def, hpred, hdm.2]; omega), hpred, hdm.2, hN]
    rfl
  have hc2 := two_le_critical hN hd hlt
  have hcN := critical_lt hN hd hlt
  unfold divimmParameters
  rw [if_pos (by rw [toInt_of_lt_two_pow hW (hN ▸ hlt)]; omega)]
  refine ⟨_, _, _, rfl, hnc, ?_, hdm⟩
  rw [← hmin]
  exact udivmod_spec (by omega) (by omega)

omit hnc in

/-- **The parameters of a division exist, and are good.** -/
theorem divimmParameters_spec : ∃ m k, divimmParameters d = some (m, k) ∧ k ≤ W - 2 ∧
    Approximates N d.toNat (2 ^ (W + k)) m.toNat := by
  have hW := pos_of_lt_two_pow (by omega : 0 < d.toNat) (hN ▸ hlt)
  obtain ⟨nc, qr1, qr2, heq, hnc, h1, h2⟩ := divimmParameters_eq_loop hN hd hlt
  have hexp := Nat.two_pow_pred_mul_two hW
  obtain ⟨m, k, hrun, -, hk, hm, hend, hsize⟩ :=
    divimmLoop_exact hN hd hlt hnc W (W - 1) qr1 qr2 (by omega) (le_refl _) h1 h2 (.inl rfl)
  refine ⟨m, k, heq.trans hrun, hk, hm ▸ approximates_succ_div (by omega) hend fun hmod => ?_⟩
  rcases hsize with rfl | ⟨-, hne⟩
  · have hpow : 2 ^ (W + 0) = 2 * N := by
      rw [Nat.add_zero, ← hexp, Nat.mul_comm, ← hN]
    rw [hpow]
    exact (search_ends_of_mod hd hlt.le hmod).2
  · exact absurd hmod hne

end Search

/-! ## How far the multiplier is from `1 / d` -/

/-- **The parameters of a division are those of exact arithmetic.** They approximate `1 / d`; for
small divisors, the product exceeds the power of two by at most `2 ^ (p + 1)`. -/
theorem divimmParameters_bounds (d : BitVec W) (hd : 2 ≤ d.toNat) (hlt : d.toNat < 2 ^ (W - 1)) :
    ∃ m p, divimmParameters d = some (m, p) ∧ exactParameters W d.toNat = some (m.toNat, p) ∧
      2 ^ (W + p) < m.toNat * d.toNat ∧
      (m.toNat * d.toNat - 2 ^ (W + p)) * (2 ^ (W - 1) - 1 - 2 ^ (W - 1) % d.toNat) <
        2 ^ (W + p) ∧
      (2 * (d.toNat * d.toNat) ≤ 2 ^ (W - 1) →
        m.toNat * d.toNat ≤ 2 ^ (W + p) + 2 ^ (p + 1)) := by
  have hW := pos_of_lt_two_pow (by omega : 0 < d.toNat) hlt
  have hexp := Nat.two_pow_pred_mul_two hW
  obtain ⟨nc, qr1, qr2, heq, hnc, h1, h2⟩ := divimmParameters_eq_loop rfl hd hlt
  obtain ⟨m, k, hrun, hexact, -, hm, hend, hsize⟩ :=
    divimmLoop_exact rfl hd hlt hnc W (W - 1) qr1 qr2 (by omega) (le_refl _) h1 h2 (.inl rfl)
  have hmul := succ_div_mul (P := 2 ^ (W + k)) (by omega : 0 < d.toNat)
  have hpos := excess_pos (P := 2 ^ (W + k)) (by omega : 0 < d.toNat)
  rw [← hm] at hmul
  refine ⟨m, k, heq.trans hrun, ?_, by omega, ?_, fun hsmall => ?_⟩
  · rw [exactParameters]
    rw [hnc] at hexact
    exact hexact
  · rw [hmul, Nat.add_sub_cancel_left, Nat.mul_comm]
    exact hend
  · have hsplit : 2 ^ (W + k) = 2 ^ (W - 1) * 2 ^ (k + 1) := by
      rw [← Nat.pow_add]
      congr 1
      omega
    have hbound := excess_le_div hd hsmall hend ⟨_, hsplit⟩ (by
      rcases hsize with rfl | ⟨hsize, -⟩
      · exact .inl (by rw [Nat.add_zero]; omega)
      · exact .inr hsize)
    have hdiv : 2 ^ (W + k) / 2 ^ (W - 1) = 2 ^ (k + 1) := by
      rw [hsplit, Nat.mul_div_cancel_left _ (Nat.two_pow_pos _)]
    omega

theorem divimmParameters_bounds_seven :
    ∃ m p, divimmParameters (7 : BitVec 64) = some (m, p) ∧
      exactParameters 64 7 = some (m.toNat, p) ∧ 2 ^ (64 + p) < m.toNat * 7 ∧
      m.toNat * 7 ≤ 2 ^ (64 + p) + 2 ^ (p + 1) := by
  obtain ⟨m, p, hrun, hexact, hlt, -, hle⟩ :=
    divimmParameters_bounds (7 : BitVec 64) (by decide) (by decide)
  exact ⟨m, p, hrun, hexact, hlt, hle (by decide)⟩

/-- A divisor below `2 ^ 53`: with the exponent `64 + 51`, the product exceeds the power of two by
4506681280719728, and `2 ^ 52` is 4503599627370496. -/
theorem divimmParameters_exceeds :
    divimmParameters (6546191159972912 : BitVec 64) = some (6345426501179428733, 51) ∧
      2 ^ (64 + 51) + 2 ^ (51 + 1) < 6345426501179428733 * 6546191159972912 := by
  decide +kernel

end TravLang.CmmHelpers
