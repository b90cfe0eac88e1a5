import Mathlib.Data.BitVec
import Mathlib.Tactic.Linarith
import Mathlib.Tactic.Ring
import TravLang.Asmcomp.CmmHelpers.Basic
import TravLang.Lib.Result

/-!
# The smart constructors compute what they should

Each constructor is compared with the plain operation: the value is the same in wrapping
arithmetic, and so is the way in which the evaluation stops, if it does.
-/

namespace TravLang.CmmHelpers

open Cmm BitVec

variable {W w : Nat} {a b n k : Host W} {c c1 c2 : Expr W} {f : BitVec W → BitVec W}

/-! ## Constants of the compiler as words -/

theorem signExtend_eq (n : Host W) : n.signExtend W = BitVec.ofInt W n.toInt := rfl

theorem toInt_signExtend (n : Host W) : (n.signExtend W).toInt = n.toInt :=
  toInt_signExtend_of_le (Nat.sub_le W 1)

theorem signExtend_add (hW : 8 ≤ W) (h : noOverflowAdd a b = true) :
    (a + b).signExtend W = a.signExtend W + b.signExtend W := by
  have hno : ¬ a.saddOverflow b = true := by
    have hpos : decide (0 < W - 1) = true := decide_eq_true (by omega)
    rw [saddOverflow_eq]
    simp only [noOverflowAdd, msb_or, msb_xor, msb_not, hpos] at h
    revert h
    cases a.msb <;> cases b.msb <;> cases (a + b).msb <;> simp
  rw [signExtend_eq, toInt_add_of_not_saddOverflow hno, ofInt_add]
  rfl

theorem signExtend_sub (hW : 8 ≤ W) (h : noOverflowSub a b = true) :
    (a - b).signExtend W = a.signExtend W - b.signExtend W := by
  have hno : ¬ a.ssubOverflow b = true := by
    have hpos : decide (0 < W - 1) = true := decide_eq_true (by omega)
    rw [ssubOverflow_eq]
    simp only [noOverflowSub, msb_or, msb_xor, msb_not, hpos] at h
    revert h
    cases a.msb <;> cases b.msb <;> cases (a - b).msb <;> simp
  rw [signExtend_eq, toInt_sub_of_not_ssubOverflow hno, Int.sub_eq_add_neg, ofInt_add,
    ofInt_neg, sub_eq_add_neg]
  rfl

theorem signExtend_neg (h : n ≠ minInt) :
    (-n).signExtend W = - n.signExtend W := by
  rw [signExtend_eq, toInt_neg_of_ne_intMin h, ofInt_neg]
  rfl

@[simp] theorem signExtend_zero : (0#(W - 1)).signExtend W = 0#W := by
  rw [signExtend_eq]
  simp

/-! ## Sums -/

/-- The value of a binary operation that cannot fail. -/
def map2 (f : BitVec W → BitVec W → BitVec W) (x y : Except (Stop W) (BitVec W)) :
    Except (Stop W) (BitVec W) := do
  let a ← x
  let b ← y
  .ok (f a b)

theorem eval_addNoOverflow (hW : 8 ≤ W) {x : Host W} (h : noOverflowAdd n x = true) (env : Env W)
    (c : Expr W) : eval env (addNoOverflow n x c) =
      map2 (· + ·) (eval env c) (.ok (n.signExtend W + x.signExtend W)) := by
  rw [← signExtend_add hW h]
  unfold addNoOverflow
  split
  · next h0 =>
    rw [h0]
    cases eval env c <;> simp [map2]
  · rfl

/-- **`add_const` adds a constant.** -/
theorem eval_addConst (hW : 8 ≤ W) (env : Env W) (c : Expr W) (n : Host W) :
    eval env (addConst c n) = map2 (· + ·) (eval env c) (.ok (n.signExtend W)) := by
  fun_induction addConst c n with
  | case1 c => cases eval env c <;> simp [map2]
  | case2 n hn x h => simp [eval, map2, signExtend_add hW h]
  | case3 => rfl
  | case4 n hn x y h | case5 n hn x y h1 h =>
    rw [eval_addNoOverflow hW h]
    simp [eval, evalOp2, map2]
    ring
  | case6 => rfl
  | case7 n hn x c' hc h | case9 n hn c' x hc h =>
    rw [eval_addNoOverflow hW h]
    simp only [eval, evalOp2, map2]
    cases eval env c' with
    | error e => rfl
    | ok v =>
      simp
      ring
  | case8 => rfl
  | case10 => rfl
  | case11 n hn x y h =>
    simp [eval, evalOp2, map2, signExtend_add hW h]
    ring
  | case12 n hn x y h1 h ih =>
    rw [ih, signExtend_sub hW h]
    simp [eval, evalOp2, map2]
    ring
  | case13 => rfl
  | case14 n hn x c' hc h =>
    simp only [eval, evalOp2, map2, signExtend_add hW h]
    cases eval env c' with
    | error e => rfl
    | ok v =>
      simp
      ring
  | case15 => rfl
  | case16 n hn c' x hc h ih =>
    rw [ih, signExtend_sub hW h]
    simp only [eval, evalOp2, map2]
    cases eval env c' with
    | error e => rfl
    | ok v =>
      simp
      ring
  | case17 => rfl
  | case18 => rfl

/-- **`add_int` adds.** -/
theorem eval_addInt (hW : 8 ≤ W) (env : Env W) (c1 c2 : Expr W) :
    eval env (addInt c1 c2) = map2 (· + ·) (eval env c1) (eval env c2) := by
  fun_induction addInt c1 c2 with
  | case1 n c =>
    rw [eval_addConst hW]
    cases eval env c <;> simp [map2, eval, add_comm]
  | case2 c n _ => rw [eval_addConst hW, eval]
  | case3 c1 n1 c2 _ ih | case4 c1 c2 n2 _ _ ih =>
    rw [eval_addConst hW, ih]
    simp only [eval, evalOp2]
    cases eval env c1 <;> cases eval env c2 <;> simp [map2]
    ring
  | case5 => rfl

/-- **`sub_int` subtracts.** -/
theorem eval_subInt (hW : 8 ≤ W) (env : Env W) (c1 c2 : Expr W) :
    eval env (subInt c1 c2) = map2 (· - ·) (eval env c1) (eval env c2) := by
  fun_induction subInt c1 c2 with
  | case1 c1 n2 h =>
    rw [eval_addConst hW, signExtend_neg h]
    cases eval env c1 <;> simp [map2, eval, sub_eq_add_neg]
  | case2 n2 h c1 n1 ih =>
    rw [eval_addConst hW, ih]
    simp only [eval, evalOp2]
    cases eval env c1 <;> simp [map2]
    ring
  | case3 => rfl
  | case4 c1 n1 c2 n2 h ih | case6 c1 c2 n2 _ h ih =>
    rw [eval_addConst hW, ih, signExtend_neg h]
    simp only [eval, evalOp2]
    cases eval env c1 <;> cases eval env c2 <;> simp [map2]
    ring
  | case5 c1 n1 c2 n2 h ih | case8 c1 n1 c2 _ _ ih =>
    rw [eval_addConst hW, ih]
    simp only [eval, evalOp2]
    cases eval env c1 <;> cases eval env c2 <;> simp [map2]
    ring
  | case7 => rfl
  | case9 => rfl

/-! ## Shift counts -/

theorem two_mul_le_pow (hW : 8 ≤ W) : 2 * W ≤ 2 ^ (W - 1 - 1) := by
  induction W, hW using Nat.le_induction with
  | base => decide
  | succ n hn ih =>
    rw [show n + 1 - 1 - 1 = (n - 1 - 1) + 1 by omega, Nat.pow_succ]
    omega

theorem toInt_natConst (hW : 8 ≤ W) {k : Nat} (hk : k < 2 * W) :
    (BitVec.ofNat (W - 1) k).toInt = k := by
  have hpow := two_mul_le_pow hW
  have hexp := Nat.two_pow_pred_mul_two (w := W - 1) (by omega)
  have hmod : k % 2 ^ (W - 1) = k := Nat.mod_eq_of_lt (by omega)
  rw [toInt_eq_toNat_of_lt] <;> rw [toNat_ofNat, hmod]
  omega

theorem toNat_eq_toInt {k : BitVec w} (h : 0 ≤ k.toInt) : (k.toNat : Int) = k.toInt := by
  have hk := toInt_eq_toNat_cond k
  split at hk <;> omega

/-- The count of a shift by a constant in range. -/
theorem toNat_signExtend (h : 0 ≤ n.toInt) : (n.signExtend W).toNat = n.toInt := by
  rw [toNat_eq_toInt (by rwa [toInt_signExtend]), toInt_signExtend]

theorem eval_shift_const (h0 : 0 ≤ n.toInt) (hlt : n.toInt < W) (f : Nat → BitVec W) :
    shift f (n.signExtend W) = .ok (f n.toInt.toNat) := by
  have hn := toNat_signExtend h0
  rw [shift, if_pos (by omega), show (n.signExtend W).toNat = n.toInt.toNat by omega]

theorem shift_undefined {f : Nat → BitVec W} {b : BitVec W} (h : W ≤ b.toNat) :
    shift f b = .error .undefined := if_neg (by omega)

theorem shift_zero (hW : 8 ≤ W) (f : Nat → BitVec W) : shift f 0#W = .ok (f 0) :=
  if_pos (by rw [toNat_ofNat, Nat.zero_mod]; omega)

/-! ## Products -/

theorem ofInt_two_pow (k : Nat) : BitVec.ofInt w (2 ^ k) = BitVec.twoPow w k := by
  have hcast : (2 : Int) ^ k = ((2 ^ k : Nat) : Int) := by
    rfl
  rw [hcast, ofInt_natCast]
  apply eq_of_toNat_eq
  rw [toNat_ofNat, toNat_twoPow]

theorem shiftLeft_eq_ofInt (a : BitVec w) (k : Nat) :
    a <<< k = BitVec.ofInt w (a.toInt * 2 ^ k) := by
  rw [ofInt_mul, ofInt_toInt, ofInt_two_pow, shiftLeft_eq_mul_twoPow]

theorem toInt_shiftLeft_of_range (hw : 0 < w) {a : BitVec w} {k : Nat}
    (hlo : -2 ^ (w - 1) ≤ a.toInt * 2 ^ k) (hhi : a.toInt * 2 ^ k < 2 ^ (w - 1)) :
    (a <<< k).toInt = a.toInt * 2 ^ k := by
  rw [shiftLeft_eq_ofInt, toInt_ofInt_eq_self hw hlo hhi]

theorem signExtend_lsl (hW : 8 ≤ W) (h : noOverflowLsl a k = true) :
    (a <<< k.toNat).signExtend W = a.signExtend W <<< k.toNat := by
  simp only [noOverflowLsl, Bool.and_eq_true, decide_eq_true_eq, minInt, maxInt,
    toInt_sshiftRight, Int.shiftRight_eq_div_pow] at h
  obtain ⟨⟨⟨h0, hk⟩, hmin⟩, hmax⟩ := h
  have hkn := toNat_eq_toInt h0
  have hpow : (0 : Int) < 2 ^ k.toNat := by positivity
  -- the least integer is a multiple of the power, as the count is small
  have hdvd : ((2 ^ k.toNat : Nat) : Int) ∣ (BitVec.intMin (W - 1)).toInt := by
    rw [toInt_intMin_of_pos (by omega)]
    exact (Int.dvd_neg).mpr (by exact_mod_cast Nat.pow_dvd_pow 2 (by omega))
  have hlo : -2 ^ (W - 1 - 1) ≤ a.toInt * 2 ^ k.toNat := by
    have hm := toInt_intMin_of_pos (v := W - 1) (by omega)
    have := Int.ediv_mul_cancel hdvd
    push_cast at this hmin
    nlinarith
  have hhi : a.toInt * 2 ^ k.toNat < 2 ^ (W - 1 - 1) := by
    have hm := toInt_lt (x := BitVec.intMax (W - 1))
    have := (Int.le_ediv_iff_mul_le (by positivity)).mp hmax
    push_cast at this
    linarith
  rw [signExtend_eq, toInt_shiftLeft_of_range (by omega) hlo hhi, shiftLeft_eq_ofInt,
    toInt_signExtend]

/-- A sum of two counts, as long as it is not taken modulo `2 ^ (W - 1)`. -/
theorem toInt_add_counts (hW : 8 ≤ W) (hn : 0 ≤ n.toInt) (hk0 : 0 ≤ k.toInt) (hk : k.toInt < W) :
    (n.toInt < W → (n + k).toInt = n.toInt + k.toInt) ∧
      ((n + k).toInt < W → (W : Int) ≤ n.toInt → (n + k).toInt < 0) := by
  have hpow := two_mul_le_pow hW
  have hexp := Nat.two_pow_pred_mul_two (w := W - 1) (by omega)
  have hnlt : 2 * n.toInt < ((2 ^ (W - 1) : Nat) : Int) := by
    exact_mod_cast two_mul_toInt_lt (x := n)
  have hmod : (n.toInt + k.toInt) % ((2 ^ (W - 1) : Nat) : Int) = n.toInt + k.toInt :=
    Int.emod_eq_of_lt (by omega) (by omega)
  rw [toInt_add, Int.bmod_def, hmod]
  constructor <;> intros <;> split <;> omega

theorem le_toNat_of_neg (hW : 8 ≤ W) (h : n.toInt < 0) :
    W ≤ (n.signExtend W).toNat := by
  have hi := toInt_signExtend n
  have hpow := two_mul_le_pow hW
  have hexp := Nat.two_pow_pred_mul_two (w := W) (by omega)
  have hexp' := Nat.two_pow_pred_mul_two (w := W - 1) (by omega)
  rw [toInt_eq_toNat_cond] at hi
  zify at *
  split at hi <;> omega

/-- **`lsl_int` shifts to the left.** -/
theorem eval_lslInt (hW : 8 ≤ W) (env : Env W) (c : Expr W) (h0 : 0 ≤ k.toInt) (hk : k.toInt < W) :
    eval env (lslInt c (.constInt k)) = eval env (.op2 .lsl c (.constInt k)) := by
  generalize hc2 : Expr.constInt k = c2
  fun_induction lslInt c c2 with
  | case1 c n1 n2 h =>
    obtain rfl : k = n2 := Expr.constInt.inj hc2
    simp only [gt_iff_lt, Bool.and_eq_true, decide_eq_true_eq] at h
    obtain ⟨⟨hn1, hn2⟩, hlt⟩ := h
    obtain ⟨hsum, hwrap⟩ := toInt_add_counts hW (by omega : 0 ≤ n1.toInt) h0 hk
    simp only [eval, evalOp2]
    cases eval env c with
    | error e => rfl
    | ok v =>
      by_cases hn : n1.toInt < W
      · have hs := hsum hn
        simp only [Result.ok_bind]
        rw [eval_shift_const (by omega) hlt, eval_shift_const (by omega) hn]
        simp only [Result.ok_bind]
        rw [eval_shift_const h0 hk, ← shiftLeft_add]
        congr 2
        omega
      · -- neither shift is defined: the sum of the counts is negative
        have hneg := hwrap hlt (by omega)
        have hn1' := toNat_signExtend (by omega : 0 ≤ n1.toInt)
        simp only [Result.ok_bind]
        rw [shift_undefined (le_toNat_of_neg hW hneg),
          shift_undefined (b := n1.signExtend W) (by omega)]
        rfl
  | case2 => rfl
  | case3 c n1 n2 h ih =>
    obtain rfl : k = n2 := Expr.constInt.inj hc2
    rw [eval_addConst hW, ih rfl, signExtend_lsl hW h]
    simp only [eval, evalOp2]
    cases eval env c with
    | error e => rfl
    | ok v =>
      have hk' := toNat_eq_toInt h0
      simp only [Result.ok_bind, map2]
      rw [eval_shift_const h0 hk, eval_shift_const h0 hk]
      simp only [Result.ok_bind]
      rw [shiftLeft_add_distrib, show k.toInt.toNat = k.toNat by omega]
  | case4 => rfl
  | case5 => rfl

/-! ### Powers of two -/

theorem log2_spec {n : Int} (h : 1 ≤ n) : 2 ^ log2 n ≤ n ∧ n < 2 ^ (log2 n + 1) := by
  fun_induction log2 n with
  | case1 n hn =>
    obtain rfl : n = 1 := by omega
    decide
  | case2 n hn ih =>
    constructor
    · rw [Nat.add_comm, pow_succ]
      omega
    · rw [Nat.add_comm 1, pow_succ]
      omega

theorem log2_of_le_one {n : Int} (h : n ≤ 1) : log2 n = 0 := by
  rw [log2, if_pos h]

theorem isPower2_spec (hW : 8 ≤ W) (h : isPower2 n = true) :
    n.toInt = 2 ^ log2 n.toInt ∧ log2 n.toInt < W - 2 := by
  simp only [isPower2, decide_eq_true_eq] at h
  have hone : (1 : Host W).toInt = 1 := toInt_one (by omega)
  by_cases hn : n.toInt ≤ 1
  · rw [log2_of_le_one hn] at h ⊢
    refine ⟨?_, by omega⟩
    rw [h]
    simpa using hone
  · obtain ⟨hlo, -⟩ := log2_spec (by omega : 1 ≤ n.toInt)
    have hlt := toInt_lt (x := n)
    have hl : log2 n.toInt < W - 2 :=
      (Nat.pow_lt_pow_iff_right (by omega : 1 < 2)).mp (by zify; exact lt_of_le_of_lt hlo hlt)
    have hrange : (2 : Int) ^ log2 n.toInt < 2 ^ (W - 1 - 1) := lt_of_le_of_lt hlo hlt
    refine ⟨?_, hl⟩
    conv_lhs => rw [h]
    rw [toInt_shiftLeft_of_range (by omega)] <;> rw [hone, one_mul]
    · have : (0 : Int) < 2 ^ log2 n.toInt := by positivity
      omega
    · exact hrange

theorem toInt_mul_of_noOverflow (hW : 8 ≤ W) (h : noOverflowMul a b = true) :
    (a * b).toInt = a.toInt * b.toInt := by
  simp only [noOverflowMul, Bool.not_eq_true', Bool.or_eq_false_iff, Bool.and_eq_false_iff,
    decide_eq_false_iff_not, Decidable.not_not] at h
  obtain ⟨hmin, hdiv⟩ := h
  by_cases hb : b = 0
  · rw [hb]
    simp
  · have hq : (a * b).sdiv b = a := hdiv.resolve_left hb
    -- the quotient itself cannot overflow
    have hne : a * b ≠ BitVec.intMin (W - 1) ∨ b ≠ -1#(W - 1) := by
      by_cases hb1 : b = -1#(W - 1)
      · left
        intro hab
        rw [hab, hb1, intMin_sdiv_neg_one] at hq
        have hbneg : b.toInt < 0 := by
          rw [hb1, neg_one_eq_allOnes, toInt_allOnes, if_pos (by omega)]
          decide
        rcases hmin with hmin | hmin
        · exact hmin hq.symm
        · exact hmin hbneg
      · exact .inr hb1
    have hquo := toInt_sdiv_of_ne_or_ne _ _ hne
    rw [hq] at hquo
    have hrem := Int.tmod_add_tdiv_mul (a * b).toInt b.toInt
    rw [← hquo] at hrem
    have hdvd : ((2 ^ (W - 1) : Nat) : Int) ∣ (a * b).toInt.tmod b.toInt := by
      rw [show (a * b).toInt.tmod b.toInt = (a * b).toInt - a.toInt * b.toInt by omega,
        toInt_mul]
      exact Int.dvd_bmod_sub_self
    have hzero : (a * b).toInt.tmod b.toInt = 0 := by
      apply Int.eq_zero_of_dvd_of_natAbs_lt_natAbs hdvd
      have hbpos : 0 < b.toInt.natAbs := by
        rw [Int.natAbs_pos]
        intro hb0
        exact hb (eq_of_toInt_eq (by simpa using hb0))
      have hlt : 2 * b.toInt.natAbs ≤ 2 ^ (W - 1) := by
        have hlo := le_two_mul_toInt (x := b)
        have hhi := two_mul_toInt_lt (x := b)
        zify
        rcases abs_cases b.toInt with ⟨habs, -⟩ | ⟨habs, -⟩ <;> omega
      have hmod := Nat.mod_lt (a * b).toInt.natAbs hbpos
      rw [Int.natAbs_tmod, Int.natAbs_natCast]
      omega
    omega

theorem signExtend_mul (hW : 8 ≤ W) (h : noOverflowMul a b = true) :
    (a * b).signExtend W = a.signExtend W * b.signExtend W := by
  rw [signExtend_eq, toInt_mul_of_noOverflow hW h, ofInt_mul]
  rfl

theorem eval_multPower2 (hW : 8 ≤ W) (env : Env W) (c : Expr W) (h : isPower2 n = true) :
    eval env (multPower2 c n) = map2 (· * ·) (eval env c) (.ok (n.signExtend W)) := by
  obtain ⟨hn, hl⟩ := isPower2_spec hW h
  have hconst := toInt_natConst hW (by omega : log2 n.toInt < 2 * W)
  rw [multPower2, natConst, eval_lslInt hW _ _ (by omega) (by omega)]
  simp only [eval, evalOp2, map2]
  cases eval env c with
  | error e => rfl
  | ok v =>
    simp only [Result.ok_bind]
    rw [eval_shift_const (by omega) (by omega), hconst, signExtend_eq, hn, ofInt_two_pow,
      ← hn, Int.toNat_natCast, shiftLeft_eq_mul_twoPow]

theorem eq_constInt_of_constOf (h : constOf c = some n) :
    c = .constInt n := by
  cases c <;> simp_all [constOf]

theorem signExtend_one (hW : 8 ≤ W) : (1#(W - 1)).signExtend W = 1#W := by
  rw [signExtend_eq, toInt_one (by omega)]
  rfl

theorem signExtend_neg_one (hW : 8 ≤ W) : (-1#(W - 1)).signExtend W = -1#W := by
  rw [signExtend_eq, neg_one_eq_allOnes, toInt_allOnes, if_pos (by omega),
    ofInt_neg]
  rfl

/-- **`mul_int` multiplies.** -/
theorem eval_mulInt (hW : 8 ≤ W) (env : Env W) (c1 c2 : Expr W) :
    eval env (mulInt c1 c2) = map2 (· * ·) (eval env c1) (eval env c2) := by
  fun_induction mulInt c1 c2 with
  | case1 c1 c2 h =>
    rw [eq_constInt_of_constOf h]
    simp only [eval]
    cases eval env c1 <;> simp [map2]
  | case2 c1 c2 _ h =>
    rw [eq_constInt_of_constOf h]
    simp only [eval]
    cases eval env c2 <;> simp [map2]
  | case3 c1 c2 _ _ h =>
    rw [eq_constInt_of_constOf h]
    cases eval env c1 <;> simp [map2, eval, signExtend_one hW]
  | case4 c1 c2 _ _ _ h =>
    rw [eq_constInt_of_constOf h]
    cases eval env c2 <;> simp [map2, eval, signExtend_one hW]
  | case5 c1 c2 _ _ _ _ h =>
    rw [eq_constInt_of_constOf h, eval_subInt hW]
    cases eval env c1 <;> simp [map2, eval, signExtend_neg_one hW]
  | case6 c1 c2 _ _ _ _ _ h =>
    rw [eq_constInt_of_constOf h, eval_subInt hW]
    cases eval env c2 <;> simp [map2, eval, signExtend_neg_one hW]
  | case7 c n h => rw [eval_multPower2 hW _ _ h, eval]
  | case8 n _ n1 h =>
    rw [eval_multPower2 hW _ _ h]
    simp [map2, eval, mul_comm]
  | case9 => rfl
  | case10 n _ c n1 h _ _ _ _ _ _ ih | case14 n _ c n1 h _ _ _ _ _ _ _ ih =>
    rw [eval_addConst hW, ih, signExtend_mul hW h]
    simp only [eval, evalOp2]
    cases eval env c <;> simp [map2]
    ring
  | case11 => rfl
  | case12 => rfl
  | case13 n c _ h =>
    rw [eval_multPower2 hW _ _ h]
    cases eval env c <;> simp [map2, eval, mul_comm]
  | case15 => rfl
  | case16 => rfl
  | case17 => rfl

/-! ## Shifts to the right -/

/-- An operation that does not depend on the lowest bit of its argument. -/
def IgnoresLowBit (f : BitVec W → BitVec W) : Prop :=
  ∀ a b, (∀ i, 0 < i → a.getLsbD i = b.getLsbD i) → f a = f b

theorem ignoresLowBit_ushiftRight {k : Nat} (hk : 0 < k) :
    IgnoresLowBit (fun a : BitVec W => a >>> k) := by
  intro a b hab
  ext i hi
  rw [getElem_ushiftRight, getElem_ushiftRight]
  exact hab (k + i) (by omega)

theorem ignoresLowBit_sshiftRight {k : Nat} (hW : 8 ≤ W) (hk : 0 < k) :
    IgnoresLowBit (fun a : BitVec W => a.sshiftRight k) := by
  intro a b hab
  have hmsb : a.msb = b.msb := by
    rw [msb_eq_getLsbD_last, msb_eq_getLsbD_last]
    exact hab _ (by omega)
  ext i hi
  simp only [getElem_sshiftRight, hmsb]
  split
  · next h => simpa only [getLsbD_eq_getElem h] using hab (k + i) (by omega)
  · rfl

theorem IgnoresLowBit.or_one (hf : IgnoresLowBit f) (a : BitVec W) :
    f (a ||| 1#W) = f a := by
  apply hf
  intro i hi
  rw [getLsbD_or, getLsbD_one, decide_eq_false (by omega : ¬ i = 0)]
  simp

theorem IgnoresLowBit.shiftLeft_add_one (hf : IgnoresLowBit f) (a : BitVec W) {k : Nat}
    (hk : 0 < k) : f (a <<< k + 1#W) = f (a <<< k) := by
  have hand : a <<< k &&& 1#W = 0#W := by
    ext i hi
    simp
    omega
  rw [add_eq_or_of_and_eq_zero _ _ hand, hf.or_one]

section

variable (hW : 8 ≤ W) (env : Env W) (c)

include hW

/-- Without the low bit, the result of such an operation is the same. -/
theorem eval_ignoreLowBitInt (hf : IgnoresLowBit f) :
    (eval env (ignoreLowBitInt c)).map f = (eval env c).map f := by
  fun_cases ignoreLowBitInt c with
  | case1 c' n k h =>
    obtain ⟨rfl, hn⟩ := h
    have hn' := toNat_signExtend (by omega : 0 ≤ n.toInt)
    simp only [eval, evalOp2]
    cases eval env c' with
    | error e => rfl
    | ok v =>
      simp only [Result.ok_bind]
      by_cases hlt : n.toInt < W
      · rw [eval_shift_const (by omega) hlt]
        have := hf.shiftLeft_add_one v (by omega : 0 < n.toInt.toNat)
        simp [Except.map, signExtend_one hW, this]
      · rw [shift_undefined (by omega)]
        rfl
  | case2 => rfl
  | case3 c' =>
    simp only [eval, evalOp2]
    cases eval env c' with
    | error e => rfl
    | ok v => simp [Except.map, signExtend_one hW, hf.or_one]
  | case4 => rfl
  | case5 => rfl

theorem eval_shift_ignoreLowBit {f : Nat → BitVec W → BitVec W} (h0 : 0 ≤ k.toInt)
    (hk : k.toInt < W) (hf : IgnoresLowBit (f k.toInt.toNat)) :
    (do let a ← eval env (ignoreLowBitInt c); shift (fun n => f n a) (k.signExtend W)) =
      (do let a ← eval env c; shift (fun n => f n a) (k.signExtend W)) := by
  have h := eval_ignoreLowBitInt c hW env hf
  simp only [eval_shift_const h0 hk]
  exact h

/-- **`lsr_int` shifts to the right.** -/
theorem eval_lsrInt (h0 : 0 ≤ k.toInt) (hk : k.toInt < W) :
    eval env (lsrInt c (.constInt k)) = eval env (.op2 .lsr c (.constInt k)) := by
  simp only [lsrInt]
  split
  · next hzero =>
    subst hzero
    simp only [eval, evalOp2]
    cases eval env c <;> simp [shift_zero hW]
  · split
    · next hpos =>
      exact eval_shift_ignoreLowBit c hW env h0 hk
        (f := fun n a => a >>> n) (ignoresLowBit_ushiftRight (by omega))
    · rfl

/-- **`asr_int` shifts to the right, and keeps the sign.** -/
theorem eval_asrInt (h0 : 0 ≤ k.toInt) (hk : k.toInt < W) :
    eval env (asrInt c (.constInt k)) = eval env (.op2 .asr c (.constInt k)) := by
  simp only [asrInt]
  split
  · next hzero =>
    subst hzero
    simp only [eval, evalOp2]
    cases eval env c <;> simp [shift_zero hW]
  · split
    · next hpos =>
      exact eval_shift_ignoreLowBit c hW env h0 hk
        (f := fun n a => a.sshiftRight n) (ignoresLowBit_sshiftRight hW (by omega))
    · rfl

end

/-! ## Shift counts stay in range -/

theorem shiftsOk_addNoOverflow {x : Host W} (h : ShiftsOk c) :
    ShiftsOk (addNoOverflow n x c) := by
  unfold addNoOverflow
  split
  · exact h
  · simp [ShiftsOk, h]

theorem shiftsOk_addConst (h : ShiftsOk c) :
    ShiftsOk (addConst c n) := by
  fun_induction addConst c n with
  | case4 | case5 => exact shiftsOk_addNoOverflow trivial
  | _ => simp_all [ShiftsOk, shiftsOk_addNoOverflow]

theorem shiftsOk_addInt (h1 : ShiftsOk c1) (h2 : ShiftsOk c2) :
    ShiftsOk (addInt c1 c2) := by
  fun_induction addInt c1 c2 <;> simp_all [ShiftsOk, shiftsOk_addConst]

theorem shiftsOk_subInt (h1 : ShiftsOk c1) (h2 : ShiftsOk c2) :
    ShiftsOk (subInt c1 c2) := by
  fun_induction subInt c1 c2 <;> simp_all [ShiftsOk, shiftsOk_addConst]

theorem shiftsOk_shift {op : Op2} (h : ShiftsOk c) (h0 : 0 ≤ k.toInt) (hk : k.toInt < W) :
    ShiftsOk (.op2 op c (.constInt k)) :=
  ⟨fun _ => ⟨k, rfl, h0, hk⟩, h, trivial⟩

theorem shiftsOk_lslInt (hW : 8 ≤ W) (h : ShiftsOk c) (h0 : 0 ≤ k.toInt) (hk : k.toInt < W) :
    ShiftsOk (lslInt c (.constInt k)) := by
  generalize hc2 : Expr.constInt k = c2
  fun_induction lslInt c c2 with
  | case1 c n1 n2 hlt =>
    obtain rfl : k = n2 := Expr.constInt.inj hc2
    simp only [gt_iff_lt, Bool.and_eq_true, decide_eq_true_eq] at hlt
    obtain ⟨n, hn, hn0, hnW⟩ := h.1 (.inl rfl)
    obtain rfl := Expr.constInt.inj hn
    have hsum := (toInt_add_counts hW hn0 h0 hk).1 hnW
    exact shiftsOk_shift h.2.1 (by omega) hlt.2
  | case3 c n1 n2 _ ih => exact shiftsOk_addConst (ih h.2.1 hc2)
  | _ =>
    rw [← hc2]
    exact shiftsOk_shift h h0 hk

theorem shiftsOk_multPower2 (hW : 8 ≤ W) (h : ShiftsOk c) (hn : isPower2 n = true) :
    ShiftsOk (multPower2 c n) := by
  obtain ⟨-, hl⟩ := isPower2_spec hW hn
  have hconst := toInt_natConst hW (by omega : log2 n.toInt < 2 * W)
  exact shiftsOk_lslInt hW h (by omega) (by omega)

theorem shiftsOk_mulInt (hW : 8 ≤ W) (h1 : ShiftsOk c1) (h2 : ShiftsOk c2) :
    ShiftsOk (mulInt c1 c2) := by
  fun_induction mulInt c1 c2 with
  | case5 => exact shiftsOk_subInt trivial h1
  | case6 => exact shiftsOk_subInt trivial h2
  | case8 n _ n1 h => exact shiftsOk_multPower2 hW trivial h
  | _ => simp_all [ShiftsOk, shiftsOk_addConst, shiftsOk_multPower2]

theorem shiftsOk_ignoreLowBitInt (h : ShiftsOk c) :
    ShiftsOk (ignoreLowBitInt c) := by
  fun_cases ignoreLowBitInt c <;> simp_all [ShiftsOk]

theorem shiftsOk_lsrInt (h : ShiftsOk c) (h0 : 0 ≤ k.toInt) (hk : k.toInt < W) :
    ShiftsOk (lsrInt c (.constInt k)) := by
  simp only [lsrInt]
  split
  · exact h
  · split
    · exact shiftsOk_shift (shiftsOk_ignoreLowBitInt h) h0 hk
    · exact shiftsOk_shift h h0 hk

theorem shiftsOk_asrInt (h : ShiftsOk c) (h0 : 0 ≤ k.toInt) (hk : k.toInt < W) :
    ShiftsOk (asrInt c (.constInt k)) := by
  simp only [asrInt]
  split
  · exact h
  · split
    · exact shiftsOk_shift (shiftsOk_ignoreLowBitInt h) h0 hk
    · exact shiftsOk_shift h h0 hk

/-! ## All constructors -/

theorem eval_lsl_const (env : Env W) (c : Expr W) (h0 : 0 ≤ k.toInt) (hk : k.toInt < W) :
    eval env (.op2 .lsl c (.constInt k)) = (eval env c).map fun v : BitVec W =>
      v <<< k.toInt.toNat := by
  simp only [eval, evalOp2]
  cases eval env c with
  | error e => rfl
  | ok v => exact eval_shift_const h0 hk _

/-- **The smart constructors for sums and products compute as the plain operations do.** -/
theorem eval_smartConstructors (hW : 8 ≤ W) (env : Env W) (c c1 c2 : Expr W) (n k : Host W)
    (h0 : 0 ≤ k.toInt) (hk : k.toInt < W) :
    eval env (addConst c n) = map2 (· + ·) (eval env c) (.ok (n.signExtend W)) ∧
      eval env (addInt c1 c2) = map2 (· + ·) (eval env c1) (eval env c2) ∧
      eval env (subInt c1 c2) = map2 (· - ·) (eval env c1) (eval env c2) ∧
      eval env (lslInt c1 (.constInt k)) = ((eval env c1).map fun v : BitVec W =>
        v <<< k.toInt.toNat) ∧
      eval env (mulInt c1 c2) = map2 (· * ·) (eval env c1) (eval env c2) := by
  refine ⟨eval_addConst hW env c n, eval_addInt hW env c1 c2, eval_subInt hW env c1 c2, ?_,
    eval_mulInt hW env c1 c2⟩
  rw [eval_lslInt hW env c1 h0 hk, eval_lsl_const env c1 h0 hk]

/-- The greatest `int` is added to `x + 1`, and `x + 1` is shifted by 63: the constants are not
combined. -/
theorem eval_smartConstructors_maxInt :
    eval ⟨fun _ => 7, fun _ => 0, fun _ => none⟩
        (addConst (.op2 .addi (.var ⟨"x", 0⟩) (.constInt 1)) (maxInt : Host 64)) =
        .ok 4611686018427387911 ∧
      eval ⟨fun _ => 7, fun _ => 0, fun _ => none⟩
        (lslInt (.op2 .addi (.var ⟨"x", 0⟩) (.constInt 0)) (.constInt (63 : Host 64))) =
        .ok (BitVec.intMin 64) := by
  obtain ⟨hadd, -, -, hlsl, -⟩ := eval_smartConstructors (by decide)
    ⟨fun _ => 7, fun _ => 0, fun _ => none⟩ (.op2 .addi (.var ⟨"x", 0⟩) (.constInt 1))
    (.op2 .addi (.var ⟨"x", 0⟩) (.constInt 0)) (.var ⟨"x", 0⟩) (maxInt : Host 64) (63 : Host 64)
    (by decide) (by decide)
  exact ⟨hadd, hlsl⟩

end TravLang.CmmHelpers
