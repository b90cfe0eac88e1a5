import TravLang.Asmcomp.CmmHelpers.DivisionParameters

/-!
# Division by a constant

The code for a division by a constant computes the quotient that is truncated toward zero, and the
code for a modulus the corresponding remainder.
-/

namespace TravLang.CmmHelpers

open Cmm MagicDivision Result
open BitVec hiding not_or

variable {W l : Nat} {n : Host W}

/-! ## Words of a given sign -/

theorem toNat_eq_of_neg {w : Nat} {v : BitVec w} (h : v.toInt < 0) :
    (v.toNat : Int) = v.toInt + 2 ^ w := by
  have hv := toInt_eq_toNat_cond v
  push_cast at hv
  split at hv <;> omega

/-- The top `l` bits of a word whose top `l` bits are equal. -/
theorem toNat_ushiftRight_sign (hl : l ≤ W) {v : BitVec W} (hlo : -2 ^ (W - l) ≤ v.toInt)
    (hhi : v.toInt < 2 ^ (W - l)) :
    ((v >>> (W - l)).toNat : Int) = if v.toInt < 0 then 2 ^ l - 1 else 0 := by
  have hpow : (2 : Int) ^ W = 2 ^ l * 2 ^ (W - l) := by
    rw [← pow_add]
    congr 1
    omega
  have hpos : (0 : Int) < 2 ^ (W - l) := by positivity
  rw [toNat_ushiftRight, Nat.shiftRight_eq_div_pow]
  push_cast
  split
  · next hneg =>
    rw [toNat_eq_of_neg hneg, hpow, Int.add_mul_ediv_right _ _ hpos.ne']
    have : v.toInt / 2 ^ (W - l) = -1 := by
      apply le_antisymm
      · exact Int.lt_add_one_iff.mp (Int.ediv_lt_of_lt_mul hpos (by omega))
      · exact Int.le_ediv_of_mul_le hpos (by omega)
    omega
  · next hneg =>
    rw [toNat_eq_toInt (by omega)]
    exact Int.ediv_eq_zero_of_lt (by omega) hhi

/-! ## Powers of two -/

/-- What is added to a dividend before it is shifted. -/
def rounding (l : Nat) (x : Int) : Int := if x < 0 then 2 ^ l - 1 else 0

theorem rounded_div (l : Nat) (x : Int) : (x + rounding l x) / 2 ^ l = x.tdiv (2 ^ l) := by
  have hpos : (0 : Int) < 2 ^ l := by positivity
  unfold rounding
  split
  · next hneg =>
    obtain ⟨k, rfl⟩ : ∃ k : Nat, x = -(k : Int) := ⟨x.natAbs, by omega⟩
    rw [Int.neg_tdiv, Int.tdiv_eq_ediv_of_nonneg (by omega)]
    have hdiv := Int.mul_ediv_add_emod k (2 ^ l)
    have hmod := Int.emod_nonneg (k : Int) hpos.ne'
    have hlt := Int.emod_lt_of_pos (k : Int) hpos
    generalize (k : Int) / 2 ^ l = q at *
    generalize (k : Int) % 2 ^ l = r at *
    apply le_antisymm
    · exact Int.lt_add_one_iff.mp (Int.ediv_lt_of_lt_mul hpos (by linarith))
    · exact Int.le_ediv_of_mul_le hpos (by linarith)
  · next hneg =>
    rw [Int.add_zero, Int.tdiv_eq_ediv_of_nonneg (by omega)]

/-! ### Shifts by small constants -/

section Counts

variable (hW : 8 ≤ W) {k : Nat} (hk : k < W) {env : Env W} {c : Expr W} {v : BitVec W}

include hW hk

theorem natConst_range : 0 ≤ (BitVec.ofNat (W - 1) k).toInt ∧
    (BitVec.ofNat (W - 1) k).toInt < W ∧ (BitVec.ofNat (W - 1) k).toInt.toNat = k := by
  have := toInt_natConst hW (by omega : k < 2 * W)
  omega

theorem eval_asr_natConst (hc : eval env c = .ok v) :
    eval env (.op2 .asr c (natConst k)) = .ok (v.sshiftRight k) := by
  obtain ⟨h0, hlt, hn⟩ := natConst_range hW hk
  simp only [natConst, eval, hc, ok_bind, evalOp2]
  rw [eval_shift_const h0 hlt, hn]

theorem eval_asrInt_natConst (hc : eval env c = .ok v) :
    eval env (asrInt c (natConst k)) = .ok (v.sshiftRight k) := by
  obtain ⟨h0, hlt, -⟩ := natConst_range hW hk
  exact (eval_asrInt c hW env h0 hlt).trans (eval_asr_natConst hW hk hc)

theorem eval_lsrInt_natConst (hc : eval env c = .ok v) :
    eval env (lsrInt c (natConst k)) = .ok (v >>> k) := by
  obtain ⟨h0, hlt, hn⟩ := natConst_range hW hk
  rw [natConst, eval_lsrInt c hW env h0 hlt]
  simp only [eval, hc, ok_bind, evalOp2]
  rw [eval_shift_const h0 hlt, hn]

end Counts

/-! ### The quotient -/

theorem eval_roundedDividend (hW : 8 ≤ W) (env : Env W) (x : Ident) (hl0 : 0 < l) (hl : l < W) :
    eval env (roundedDividend (.var x) l) =
      .ok (BitVec.ofInt W ((env.var x).toInt + rounding l (env.var x).toInt)) := by
  have ht := eval_lsrInt_natConst hW (by omega : W - l < W) <|
    eval_asrInt_natConst hW (by omega : l - 1 < W) (rfl : eval env (.var x) = .ok (env.var x))
  rw [roundedDividend, eval_addInt hW, ht]
  simp only [eval, map2, ok_bind]
  generalize env.var x = X
  have hlo := le_toInt (x := X)
  have hhi := toInt_lt (x := X)
  have hpow : (2 : Int) ^ (W - 1) = 2 ^ (W - l) * 2 ^ (l - 1) := by
    rw [← pow_add]
    congr 1
    omega
  have hpos : (0 : Int) < 2 ^ (l - 1) := by positivity
  have hv : (X.sshiftRight (l - 1)).toInt = X.toInt / 2 ^ (l - 1) := by
    rw [toInt_sshiftRight, Int.shiftRight_eq_div_pow]
    rfl
  have hsign : (X.sshiftRight (l - 1)).toInt < 0 ↔ X.toInt < 0 := by
    have hnonneg := Int.ediv_nonneg_iff_of_pos (a := X.toInt) hpos
    omega
  have htop := toNat_ushiftRight_sign (l := l) (by omega) (v := X.sshiftRight (l - 1))
    (by rw [hv]; exact Int.le_ediv_of_mul_le hpos (by linarith))
    (by rw [hv]; exact Int.ediv_lt_of_lt_mul hpos (by linarith))
  rw [ofInt_add, ofInt_toInt, rounding, ← if_congr hsign rfl rfl, ← htop,
    ofInt_natCast, ofNat_toNat]
  simp

/-- **The quotient by a power of two.** -/
theorem toInt_rounded (hW : 8 ≤ W) (hl : l < W) (X : BitVec W) :
    (BitVec.ofInt W (X.toInt + rounding l X.toInt)).toInt = X.toInt + rounding l X.toInt := by
  have hlo := le_toInt (x := X)
  have hhi := toInt_lt (x := X)
  have hle : (2 : Int) ^ l ≤ 2 ^ (W - 1) := by
    exact_mod_cast Nat.pow_le_pow_right (by omega) (by omega)
  have hpos : (0 : Int) < 2 ^ l := by positivity
  have hr : 0 ≤ rounding l X.toInt ∧ X.toInt + rounding l X.toInt < 2 ^ (W - 1) := by
    unfold rounding
    split <;> omega
  exact toInt_ofInt_eq_self (by omega) (by omega) hr.2

theorem sshiftRight_rounded (hW : 8 ≤ W) (hl : l < W) (X : BitVec W) :
    (BitVec.ofInt W (X.toInt + rounding l X.toInt)).sshiftRight l =
      BitVec.ofInt W (X.toInt.tdiv (2 ^ l)) := by
  rw [← rounded_div, ← ofInt_toInt (x := BitVec.sshiftRight _ _), toInt_sshiftRight,
    Int.shiftRight_eq_div_pow, toInt_rounded hW hl]
  rfl

theorem and_neg_twoPow (a : BitVec W) :
    a &&& -BitVec.twoPow W l = (a.sshiftRight l) <<< l := by
  have hmask : -BitVec.twoPow W l = BitVec.allOnes W <<< l := by
    rw [shiftLeft_eq_mul_twoPow, ← neg_one_eq_allOnes, neg_mul, BitVec.one_mul]
  rw [hmask]
  ext i hi
  simp only [getElem_and, getElem_shiftLeft, getElem_allOnes,
    getElem_sshiftRight]
  by_cases hil : i < l
  · simp [hil]
  · simp [hil, show l + (i - l) = i by omega, hi]

/-! ## Other divisors -/

theorem eval_natintConstUntagged (hW : 8 ≤ W) (env : Env W) (m : BitVec W) :
    eval env (natintConstUntagged m) = .ok m := by
  unfold natintConstUntagged
  split
  · rfl
  · next h =>
    rw [Bool.or_eq_true, decide_eq_true_eq, decide_eq_true_eq, not_or, maxInt, minInt] at h
    have hmin := toInt_intMin_of_pos (v := W - 1) (by omega)
    have hmax := toInt_lt (x := BitVec.intMax (W - 1))
    rw [eval, signExtend_eq, toInt_ofInt_eq_self (by omega) (by omega) (by omega),
      ofInt_toInt]

/-- The product with the multiplier, divided by `2 ^ W`: a multiplier that is negative as a signed
word needs a correction. -/
theorem eval_mulhi_corrected (hW : 8 ≤ W) (env : Env W) (x : Ident) (m : BitVec W) :
    eval env (if m.toInt < 0 then
        .op2 .addi (.op2 .mulhi (.var x) (natintConstUntagged m)) (.var x)
      else .op2 .mulhi (.var x) (natintConstUntagged m)) =
      .ok (BitVec.ofInt W ((env.var x).toInt * m.toNat / 2 ^ W)) := by
  have hpos : (0 : Int) < 2 ^ W := by positivity
  split
  · next hneg =>
    simp only [eval, eval_natintConstUntagged hW, ok_bind, evalOp2, mulhi]
    rw [toNat_eq_of_neg hneg, Int.mul_add, Int.add_mul_ediv_right _ _ hpos.ne', ofInt_add,
      ofInt_toInt]
  · next hneg =>
    simp only [eval, eval_natintConstUntagged hW, ok_bind, evalOp2, mulhi]
    rw [toNat_eq_toInt (by omega)]

theorem toInt_mulhi_corrected (hW : 8 ≤ W) (X m : BitVec W) :
    (BitVec.ofInt W (X.toInt * m.toNat / 2 ^ W)).toInt = X.toInt * m.toNat / 2 ^ W := by
  have hlo := le_toInt (x := X)
  have hhi := toInt_lt (x := X)
  have hpos : (0 : Int) < 2 ^ W := by positivity
  have hm : (m.toNat : Int) < 2 ^ W := by exact_mod_cast m.isLt
  have hm0 : (0 : Int) ≤ m.toNat := by omega
  apply toInt_ofInt_eq_self (by omega)
  · refine Int.le_ediv_of_mul_le hpos ?_
    calc -2 ^ (W - 1) * 2 ^ W ≤ -2 ^ (W - 1) * (m.toNat : Int) := by nlinarith
      _ ≤ X.toInt * m.toNat := Int.mul_le_mul_of_nonneg_right hlo hm0
  · refine Int.ediv_lt_of_lt_mul hpos ?_
    calc X.toInt * m.toNat ≤ (2 ^ (W - 1) - 1) * (m.toNat : Int) :=
          Int.mul_le_mul_of_nonneg_right (by omega) hm0
      _ < 2 ^ (W - 1) * 2 ^ W := by nlinarith

theorem ushiftRight_sign (hW : 8 ≤ W) (X : BitVec W) :
    X >>> (W - 1) = BitVec.ofInt W (if X.toInt < 0 then 1 else 0) := by
  have hlo := le_toInt (x := X)
  have hhi := toInt_lt (x := X)
  have htop := toNat_ushiftRight_sign (l := 1) (by omega) hlo hhi
  rw [pow_one, show (2 : Int) - 1 = 1 by rfl] at htop
  rw [← htop, ofInt_natCast, ofNat_toNat]
  simp

/-- **The quotient by a multiplication.** -/
theorem eval_mulDivision (hW : 8 ≤ W) (env : Env W) (x : Ident) {d : Nat} {m : BitVec W} {p : Nat}
    (hd : 0 < d) (hdN : d ≤ 2 ^ (W - 1)) (hp : p < W)
    (h : Approximates (2 ^ (W - 1)) d (2 ^ (W + p)) m.toNat) :
    eval env (mulDivision m p (.var x)) = .ok (BitVec.ofInt W ((env.var x).toInt.tdiv d)) := by
  have ht := eval_mulhi_corrected hW env x m
  have hsx := eval_lsrInt_natConst hW (by omega : W - 1 < W)
    (rfl : eval env (.var x) = .ok (env.var x))
  have hlo := le_toInt (x := env.var x)
  have hhi := toInt_lt (x := env.var x)
  have hquo := h.tdiv_eq hd hdN (x := (env.var x).toInt) (by exact_mod_cast hlo)
    (by exact_mod_cast hhi)
  have hshift : (env.var x).toInt * m.toNat / 2 ^ W / 2 ^ p =
      (env.var x).toInt * m.toNat / ((2 ^ (W + p) : Nat) : Int) := by
    rw [Int.ediv_ediv_of_nonneg (by positivity), ← pow_add]
    rfl
  -- with or without the shift by `p`
  have htp : ∀ t, eval env t = .ok (BitVec.ofInt W ((env.var x).toInt * m.toNat / 2 ^ W)) →
      eval env (if p > 0 then .op2 .asr t (natConst p) else t) =
        .ok (BitVec.ofInt W ((env.var x).toInt * m.toNat / ((2 ^ (W + p) : Nat) : Int))) := by
    intro t ht
    split
    · next hp0 =>
      rw [eval_asr_natConst hW hp ht, ← ofInt_toInt (x := BitVec.sshiftRight _ _),
        toInt_sshiftRight, Int.shiftRight_eq_div_pow, toInt_mulhi_corrected hW, ← hshift]
      rfl
    · next hp0 =>
      obtain rfl : p = 0 := by omega
      rw [ht, ← hshift, pow_zero, Int.ediv_one]
  simp only [mulDivision]
  rw [eval_addInt hW, htp _ ht, hsx, ushiftRight_sign hW, ← hquo, ofInt_add]
  rfl

/-! ## Shift counts -/

theorem shiftsOk_roundedDividend (hW : 8 ≤ W) (x : Ident) (hl0 : 0 < l) (hl : l < W) :
    ShiftsOk (roundedDividend (.var x) l : Expr W) := by
  obtain ⟨h10, h1, -⟩ := natConst_range hW (by omega : l - 1 < W)
  obtain ⟨h20, h2, -⟩ := natConst_range hW (by omega : W - l < W)
  exact shiftsOk_addInt trivial (shiftsOk_lsrInt (shiftsOk_asrInt trivial h10 h1) h20 h2)

theorem shiftsOk_natintConstUntagged (m : BitVec W) : ShiftsOk (natintConstUntagged m) := by
  unfold natintConstUntagged
  split <;> trivial

theorem shiftsOk_mulDivision (hW : 8 ≤ W) (x : Ident) (m : BitVec W) {p : Nat} (hp : p < W) :
    ShiftsOk (mulDivision m p (.var x)) := by
  obtain ⟨h10, h1, -⟩ := natConst_range hW hp
  obtain ⟨h20, h2, -⟩ := natConst_range hW (by omega : W - 1 < W)
  have hm := shiftsOk_natintConstUntagged m
  refine shiftsOk_addInt ?_ (shiftsOk_lsrInt trivial h20 h2)
  split
  · refine shiftsOk_shift ?_ h10 h1
    split <;> simp [ShiftsOk, hm]
  · split <;> simp [ShiftsOk, hm]

/-! ## The code of a division -/

/-- The generated code computes the function `f` of the variable `x`, modulo `2 ^ W`, and shifts by
constants in `[0, W)` only. No identifier is created. -/
def Computes (gen : Gen (Expr W)) (x : Ident) (f : Int → Int) : Prop :=
  ∀ stamp, ∃ e, gen stamp = some (e, stamp) ∧ ShiftsOk e ∧
    ∀ env, eval env e = .ok (BitVec.ofInt W (f (env.var x).toInt))

theorem Computes.map {gen : Gen (Expr W)} {x : Ident} {f f' : Int → Int} {F : Expr W → Expr W}
    (h : Computes gen x f) (hshifts : ∀ e, ShiftsOk e → ShiftsOk (F e))
    (heval : ∀ env e, eval env e = .ok (BitVec.ofInt W (f (env.var x).toInt)) →
      eval env (F e) = .ok (BitVec.ofInt W (f' (env.var x).toInt))) :
    Computes (F <$> gen) x f' := by
  intro stamp
  obtain ⟨e, hgen, hs, he⟩ := h stamp
  refine ⟨F e, ?_, hshifts e hs, fun env => heval env e (he env)⟩
  show (StateT.map F gen) stamp = _
  simp [StateT.map, hgen]

theorem minInt_neg (hW : 8 ≤ W) : (minInt : Host W).toInt < 0 := by
  have hmin : (minInt : Host W).toInt = -2 ^ (W - 1 - 1) := toInt_intMin_of_pos (by omega)
  have hpos : (0 : Int) < 2 ^ (W - 1 - 1) := by positivity
  omega

theorem minInt_word (hW : 8 ≤ W) :
    (minInt : Host W).signExtend W ≠ 0 ∧ (minInt : Host W).signExtend W ≠ -1#W := by
  have hmin : (minInt : Host W).toInt = -2 ^ (W - 1 - 1) := toInt_intMin_of_pos (by omega)
  have hword := toInt_signExtend (minInt : Host W)
  have hpow : (2 : Int) * W ≤ 2 ^ (W - 1 - 1) := by exact_mod_cast two_mul_le_pow hW
  constructor
  · intro h0
    have := congrArg BitVec.toInt h0
    rw [hword, hmin] at this
    simp at this
  · intro h1
    rw [h1, neg_one_eq_allOnes, toInt_allOnes, if_pos (by omega)] at hword
    omega

/-- The divisor `min_int` goes to the machine's division, with or without a check. -/
theorem checkedDivision_computes (hW : 8 ≤ W) {op : Op2} (noCheck : Bool) (x : Ident)
    {f : Int → Int} (hop : op ≠ .lsl ∧ op ≠ .lsr ∧ op ≠ .asr)
    (hf : ∀ X : BitVec W, evalOp2 op X ((minInt : Host W).signExtend W) =
      .ok (BitVec.ofInt W (f X.toInt))) :
    Computes (checkedDivision op noCheck (.var x) (.constInt (minInt : Host W))) x f := by
  have hshifts : ShiftsOk (.op2 op (.var x) (.constInt (minInt : Host W))) :=
    ⟨fun h => by simp_all, trivial, trivial⟩
  intro stamp
  cases noCheck with
  | true => exact ⟨_, rfl, hshifts, fun env => hf (env.var x)⟩
  | false =>
    refine ⟨_, rfl, ⟨trivial, hshifts, trivial⟩, fun env => ?_⟩
    simp only [eval, ok_bind]
    rw [if_pos (minInt_word hW).1]
    exact hf (env.var x)

theorem divide_minInt (hW : 8 ≤ W) (f : BitVec W → BitVec W → BitVec W) (X : BitVec W) :
    divide f X ((minInt : Host W).signExtend W) = .ok (f X ((minInt : Host W).signExtend W)) := by
  obtain ⟨h0, h1⟩ := minInt_word hW
  exact if_neg (by rintro (h | ⟨-, h⟩) <;> contradiction)

/-- The branches of `div_int` for a dividend that is a variable. -/
theorem divInt_var (noCheck : Bool) (x : Ident) (h0 : n ≠ 0) (h1 : n ≠ 1) (hmin : n ≠ minInt) :
    divInt noCheck (.var x) (.constInt n) =
      if isPower2 n then
        pure (.op2 .asr (roundedDividend (.var x) (log2 n.toInt)) (natConst (log2 n.toInt)))
      else if n.toInt < 0 then
        (subInt (.constInt 0) ·) <$> divInt noCheck (.var x) (.constInt (-n))
      else
        match divimmParameters (n.signExtend W) with
        | none => failure
        | some (m, p) => pure (mulDivision m p (.var x)) := by
  rw [divInt, if_neg h0, if_neg h1]
  simp only [constOf, dif_neg hmin, isPower2, decide_eq_true_eq, bindArg, pure_bind]
  rfl

theorem toInt_host_one (hW : 8 ≤ W) : n.toInt = 1 ↔ n = 1 := by
  have hone : (1 : Host W).toInt = 1 := toInt_one (by omega)
  constructor
  · intro h
    exact eq_of_toInt_eq (h.trans hone.symm)
  · rintro rfl
    exact hone

theorem log2_pos (hW : 8 ≤ W) (hp : isPower2 n = true) (h1 : n ≠ 1) :
    0 < log2 n.toInt := by
  obtain ⟨hpow, -⟩ := isPower2_spec hW hp
  rcases Nat.eq_zero_or_pos (log2 n.toInt) with hzero | hpos
  · rw [hzero, pow_zero, toInt_host_one hW] at hpow
    contradiction
  · exact hpos

section

variable (hW : 8 ≤ W) (noCheck : Bool) (x : Ident)

include hW noCheck x

/-- The code for a power of two. -/
theorem divInt_power_computes (h0 : n ≠ 0) (h1 : n ≠ 1) (hmin : n ≠ minInt)
    (hp : isPower2 n = true) :
    Computes (divInt noCheck (.var x) (.constInt n)) x (fun X => X.tdiv n.toInt) := by
  obtain ⟨hpow, hl⟩ := isPower2_spec hW hp
  have hl0 := log2_pos hW hp h1
  obtain ⟨hc0, hc, -⟩ := natConst_range hW (by omega : log2 n.toInt < W)
  intro stamp
  rw [divInt_var noCheck x h0 h1 hmin, if_pos hp]
  refine ⟨_, rfl, shiftsOk_shift (shiftsOk_roundedDividend hW x hl0 (by omega)) hc0 hc,
    fun env => ?_⟩
  rw [eval_asr_natConst hW (by omega) (eval_roundedDividend hW env x hl0 (by omega)),
    sshiftRight_rounded hW (by omega), ← hpow]

/-- The code for the other positive divisors. -/
theorem divInt_mul_computes (h1 : 1 < n.toInt) (hmin : n ≠ minInt) (hp : ¬ isPower2 n = true) :
    Computes (divInt noCheck (.var x) (.constInt n)) x (fun X => X.tdiv n.toInt) := by
  have hd := toNat_signExtend (by omega : 0 ≤ n.toInt)
  have hlt : (n.signExtend W).toNat < 2 ^ (W - 1) := by
    have h2 := two_mul_toInt_lt (x := n)
    zify
    omega
  obtain ⟨m, k, hparam, hk, happrox⟩ := divimmParameters_spec rfl (by omega) hlt
  intro stamp
  rw [divInt_var noCheck x (by rintro rfl; simp at h1) (by rw [Ne, ← toInt_host_one hW]; omega)
    hmin, if_neg hp, if_neg (by omega), hparam]
  refine ⟨_, rfl, shiftsOk_mulDivision hW x m (by omega), fun env => ?_⟩
  rw [eval_mulDivision hW env x (by omega) hlt.le (by omega) happrox, hd]

theorem divInt_pos_computes (hn : 0 < n.toInt) (hmin : n ≠ minInt) :
    Computes (divInt noCheck (.var x) (.constInt n)) x (fun X => X.tdiv n.toInt) := by
  have h0 : n ≠ 0 := by
    rintro rfl
    simp at hn
  by_cases h1 : n = 1
  · intro stamp
    refine ⟨.var x, ?_, trivial, fun env => ?_⟩
    · rw [divInt, if_neg h0, if_pos h1]
      rfl
    · show _ = Except.ok (BitVec.ofInt W ((env.var x).toInt.tdiv n.toInt))
      rw [(toInt_host_one hW).mpr h1, Int.tdiv_one, ofInt_toInt, eval]
  · by_cases hp : isPower2 n = true
    · exact divInt_power_computes hW noCheck x h0 h1 hmin hp
    · exact divInt_mul_computes hW noCheck x (by rw [← toInt_host_one hW] at h1; omega) hmin hp

/-- A negative divisor is replaced by its opposite. -/
theorem divInt_neg_computes (hn : n.toInt < 0) (hmin : n ≠ minInt) :
    Computes (divInt noCheck (.var x) (.constInt n)) x (fun X => X.tdiv n.toInt) := by
  have hopp : (-n).toInt = -n.toInt := toInt_neg_of_ne_intMin hmin
  have hmin' : -n ≠ minInt := by
    intro h
    have hmin0 := minInt_neg hW
    rw [← h] at hmin0
    omega
  have hp : ¬ isPower2 n = true := by
    intro hp
    have hpow := (isPower2_spec hW hp).1
    have : (0 : Int) < 2 ^ log2 n.toInt := by positivity
    omega
  rw [divInt_var noCheck x (by rintro rfl; simp at hn) (by rw [Ne, ← toInt_host_one hW]; omega)
    hmin, if_neg hp, if_pos hn]
  refine (divInt_pos_computes hW noCheck x (by omega : 0 < (-n).toInt) hmin').map
    (fun e he => shiftsOk_subInt trivial he) fun env e he => ?_
  rw [hopp] at he
  simp only [eval_subInt hW, he, eval, map2, ok_bind, Int.tdiv_neg, ofInt_neg]
  simp

/-- **Division by a constant.** -/
theorem divInt_computes (hn : n ≠ 0) :
    Computes (divInt noCheck (.var x) (.constInt n)) x (fun X => X.tdiv n.toInt) := by
  by_cases hmin : n = minInt
  · have hneg : n.toInt < 0 := by
      rw [hmin]
      exact minInt_neg hW
    rw [divInt, if_neg hn, if_neg (by rw [← toInt_host_one hW]; omega)]
    simp only [constOf, dif_pos hmin]
    subst hmin
    refine checkedDivision_computes hW noCheck x (by decide) fun X => ?_
    have hquo := toInt_sdiv_of_ne_or_ne X _ (.inr (minInt_word hW).2)
    rw [evalOp2, divide_minInt hW, ← ofInt_toInt (x := BitVec.sdiv _ _), hquo,
      toInt_signExtend]
  · rcases Int.lt_trichotomy n.toInt 0 with hneg | hzero | hpos
    · exact divInt_neg_computes hW noCheck x hneg hmin
    · exact absurd (eq_of_toInt_eq (by simpa using hzero)) hn
    · exact divInt_pos_computes hW noCheck x hpos hmin

end

/-! ## The code of a modulus -/

/-- The branches of `mod_int` for a dividend that is a variable. -/
theorem modInt_var (noCheck : Bool) (x : Ident) (h0 : n ≠ 0) (h1 : ¬ (n = 1 ∨ n = -1))
    (hmin : n ≠ minInt) :
    modInt noCheck (.var x) (.constInt n) =
      if isPower2 n then
        pure (subInt (.var x)
          (.op2 .and (roundedDividend (.var x) (log2 n.toInt)) (.constInt (-n))))
      else
        (fun q => subInt (.var x) (mulInt q (.constInt n))) <$>
          divInt noCheck (.var x) (.constInt n) := by
  rw [modInt, if_neg h0, if_neg h1]
  simp only [constOf, if_neg hmin, isPower2, decide_eq_true_eq, bindArg]
  rfl

theorem ofInt_remainder (X : BitVec W) (n q : Int) :
    BitVec.ofInt W (X.toInt - n * q) = X - BitVec.ofInt W q * BitVec.ofInt W n := by
  rw [Int.sub_eq_add_neg, ofInt_add, ofInt_neg, ofInt_mul, ofInt_toInt]
  ring

theorem toInt_neg_one (hW : 8 ≤ W) : (-1 : Host W).toInt = -1 := by
  show (-1#(W - 1)).toInt = -1
  rw [neg_one_eq_allOnes, toInt_allOnes, if_pos (by omega)]

/-- The code for a modulus by a power of two: the mask clears the low bits of the rounded
dividend. -/
theorem modInt_power_computes (hW : 8 ≤ W) (noCheck : Bool) (x : Ident) (h0 : n ≠ 0)
    (h1 : ¬ (n = 1 ∨ n = -1)) (hmin : n ≠ minInt) (hp : isPower2 n = true) :
    Computes (modInt noCheck (.var x) (.constInt n)) x
      (fun X => X - n.toInt * X.tdiv n.toInt) := by
  obtain ⟨hpow, hl⟩ := isPower2_spec hW hp
  have hl0 := log2_pos hW hp fun h => h1 (.inl h)
  have hmask : (-n).signExtend W = -BitVec.twoPow W (log2 n.toInt) := by
    rw [signExtend_neg hmin, signExtend_eq, ← ofInt_two_pow, ← hpow]
  intro stamp
  rw [modInt_var noCheck x h0 h1 hmin, if_pos hp]
  refine ⟨_, rfl, shiftsOk_subInt trivial ?_, fun env => ?_⟩
  · exact ⟨by simp, shiftsOk_roundedDividend hW x hl0 (by omega), trivial⟩
  · simp only [eval_subInt hW, eval, eval_roundedDividend hW env x hl0
      (by omega : log2 n.toInt < W),
      evalOp2, map2, ok_bind, hmask, and_neg_twoPow]
    rw [sshiftRight_rounded hW (by omega), shiftLeft_eq_mul_twoPow, ← ofInt_two_pow, ← hpow,
      ofInt_remainder]

/-- **Modulus by a constant.** -/
theorem modInt_computes (hW : 8 ≤ W) (noCheck : Bool) (x : Ident) (hn : n ≠ 0) :
    Computes (modInt noCheck (.var x) (.constInt n)) x
      (fun X => X - n.toInt * X.tdiv n.toInt) := by
  by_cases h1 : n = 1 ∨ n = -1
  · intro stamp
    refine ⟨.sequence (.var x) (.constInt 0), ?_, ⟨trivial, trivial⟩, fun env => ?_⟩
    · rw [modInt, if_neg hn, if_pos h1]
      rfl
    · have hzero : (env.var x).toInt - n.toInt * (env.var x).toInt.tdiv n.toInt = 0 := by
        rcases h1 with h1 | h1
        · rw [(toInt_host_one hW).mpr h1, Int.tdiv_one]
          omega
        · rw [h1, toInt_neg_one hW, Int.tdiv_neg, Int.tdiv_one]
          omega
      simp [eval, hzero]
  by_cases hmin : n = minInt
  · rw [modInt, if_neg hn, if_neg h1]
    simp only [constOf, if_pos hmin]
    subst hmin
    refine checkedDivision_computes hW noCheck x (by decide) fun X => ?_
    rw [evalOp2, divide_minInt hW, ← ofInt_toInt (x := BitVec.srem _ _), toInt_srem,
      toInt_signExtend, Int.tmod_def]
  · by_cases hp : isPower2 n = true
    · exact modInt_power_computes hW noCheck x hn h1 hmin hp
    · rw [modInt_var noCheck x hn h1 hmin, if_neg hp]
      refine (divInt_computes hW noCheck x hn).map
        (fun e he => shiftsOk_subInt trivial (shiftsOk_mulInt hW he trivial)) fun env e he => ?_
      simp only [eval_subInt hW, eval_mulInt hW, he, eval, map2, ok_bind, ofInt_remainder,
        signExtend_eq]

/-- **Division and modulus by a constant are compiled correctly.** The quotient is truncated
toward zero. -/
theorem divInt_modInt_correct (hW : 8 ≤ W) (noCheck : Bool) (x : Ident) (n : Host W) (hn : n ≠ 0) :
    Computes (divInt noCheck (.var x) (.constInt n)) x (fun X => X.tdiv n.toInt) ∧
      Computes (modInt noCheck (.var x) (.constInt n)) x (fun X => X - n.toInt * X.tdiv n.toInt) :=
  ⟨divInt_computes hW noCheck x hn, modInt_computes hW noCheck x hn⟩

theorem divInt_modInt_correct_byNegativeSeven :
    Computes (divInt true (.var ⟨"x", 0⟩) (.constInt (-7 : Host 64))) ⟨"x", 0⟩
        (fun X => X.tdiv (-7)) ∧
      Computes (modInt true (.var ⟨"x", 0⟩) (.constInt (-7 : Host 64))) ⟨"x", 0⟩
        (fun X => X - -7 * X.tdiv (-7)) :=
  divInt_modInt_correct (by decide) true ⟨"x", 0⟩ (-7 : Host 64) (by decide)

end TravLang.CmmHelpers
