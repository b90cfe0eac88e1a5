import TravLang.Asmcomp.CmmHelpers.Tagging

/-!
# Bounds checks

`Ccheckbound` compares its arguments as unsigned words. In front of a constant index, the shift that
takes a length out of a header is moved to the index.
-/

namespace TravLang.CmmHelpers

open Cmm

variable {W : Nat}

/-- `make_checkbound`; of the operation `Ccheckbound` that it returns, the arguments -/
def makeCheckbound (args : List (Expr W)) : List (Expr W) :=
  match args with
  | [.op2 .lsr a1 (.constInt n), .constInt m] =>
    if (m <<< n.toNat).toInt > n.toInt then
      [a1, .constInt (m <<< n.toNat + (1 : Host W) <<< n.toNat - 1)]
    else args
  | args => args

/-- Whether the check succeeds: the index, which comes second, is below the bound. -/
def checkbound (env : Env W) (args : List (Expr W)) : Except (Stop W) Bool :=
  match args with
  | [bound, index] => do
    let b ← eval env bound
    let i ← eval env index
    .ok (i.toNat < b.toNat)
  | _ => .error .undefined

/-- A shifted word that is above zero has room for the next multiple of the power. -/
theorem shifted_add_le (hW : 2 ≤ W) {m : Host W} {n : Nat} (hpos : 0 < (m <<< n).toInt) :
    n < W - 1 ∧ (m <<< n).toInt + 2 ^ n ≤ 2 ^ (W - 2) := by
  have hn : n < W - 1 := by
    by_contra hge
    rw [BitVec.shiftLeft_eq_zero (not_lt.mp hge), BitVec.toInt_zero] at hpos
    omega
  refine ⟨hn, ?_⟩
  have hdvd : (2 : Int) ^ n ∣ (m <<< n).toInt := by
    have hword : (2 : Int) ^ n ∣ ((2 ^ (W - 1) : Nat) : Int) := by
      push_cast
      exact pow_dvd_pow 2 hn.le
    rw [shiftLeft_eq_ofInt, BitVec.toInt_ofInt]
    exact (Int.dvd_iff_dvd_of_dvd_sub (hword.trans Int.dvd_bmod_sub_self)).mpr (dvd_mul_left _ _)
  have hlt : (m <<< n).toInt < 2 ^ (W - 2) := by
    have := BitVec.toInt_lt (x := m <<< n)
    rwa [show W - 1 - 1 = W - 2 by omega] at this
  -- both sides are multiples of the power
  obtain ⟨c, hc⟩ := hdvd
  have hsplit : (2 : Int) ^ (W - 2) = 2 ^ n * 2 ^ (W - 2 - n) := by
    rw [← pow_add]
    congr 1
    omega
  rw [hc, hsplit] at hlt ⊢
  have hpow : (0 : Int) < 2 ^ n := by positivity
  have hsucc := mul_le_mul_of_nonneg_left (Int.add_one_le_of_lt (lt_of_mul_lt_mul_left hlt hpow.le))
    hpow.le
  linarith

/-- The index that the check of an unshifted bound is for -/
theorem toInt_shifted_index (hW : 8 ≤ W) {m : Host W} {n : Nat} (hpos : 0 < (m <<< n).toInt) :
    (m <<< n + (1 : Host W) <<< n - 1).toInt = (m <<< n).toInt + 2 ^ n - 1 := by
  have hone := toInt_host_one' hW
  have hpow : (0 : Int) < 2 ^ n := by positivity
  obtain ⟨-, hle⟩ := shifted_add_le (by omega) hpos
  have hsum : m <<< n + (1 : Host W) <<< n - 1 =
      BitVec.ofInt (W - 1) ((m <<< n).toInt + 2 ^ n - 1) := by
    have hlit : (1 : Host W) = BitVec.ofInt (W - 1) 1 := rfl
    rw [sub_eq_add_neg _ (1 : Int), BitVec.ofInt_add, BitVec.ofInt_add, BitVec.ofInt_toInt,
      shiftLeft_eq_ofInt (1 : Host W), hone, one_mul, sub_eq_add_neg, hlit, ← BitVec.ofInt_neg]
  rw [show W - 2 = W - 1 - 1 by omega] at hle
  rw [hsum]
  apply BitVec.toInt_ofInt_eq_self (by omega) <;> omega

/-- A shifted bound is above `m` if the bound is above all that is shifted to `m`. -/
theorem lt_div_two_pow_iff {v i m n : Nat} (hi : i + 1 = (m + 1) * 2 ^ n) :
    m < v / 2 ^ n ↔ i < v := by
  rw [Nat.lt_iff_add_one_le, Nat.le_div_iff_mul_le (Nat.two_pow_pos n), ← hi]
  rfl

theorem checkbound_const (env : Env W) (bound : Expr W) (m : Host W) :
    checkbound env [bound, .constInt m] =
      (eval env bound).map fun b => decide ((m.signExtend W).toNat < b.toNat) := by
  simp only [checkbound, eval]
  cases eval env bound with
  | error e => rfl
  | ok b => rfl

theorem checkbound_lsr_const (env : Env W) (a1 : Expr W) {n : Host W} (hn0 : 0 ≤ n.toInt)
    (hn : n.toInt < W) (m : Host W) :
    checkbound env [.op2 .lsr a1 (.constInt n), .constInt m] =
      (eval env a1).map fun b => decide ((m.signExtend W).toNat < b.toNat / 2 ^ n.toNat) := by
  have hnat := toNat_eq_toInt hn0
  rw [checkbound_const, eval_lsr_const env a1 hn0 hn, show n.toInt.toNat = n.toNat by omega]
  cases eval env a1 with
  | error e => rfl
  | ok v => simp only [Except.map, BitVec.toNat_ushiftRight, Nat.shiftRight_eq_div_pow]

/-- **Moving the shift to the index does not change the check**, exactly if the guard is false or
the shifted index is an `int`. -/
theorem checkbound_makeCheckbound (hW : 8 ≤ W) (n m : Host W) (hn0 : 0 ≤ n.toInt)
    (hn : n.toInt < W) :
    (∀ env a1, checkbound env (makeCheckbound [.op2 .lsr a1 (.constInt n), .constInt m]) =
      checkbound env [.op2 .lsr a1 (.constInt n), .constInt m]) ↔
    (m <<< n.toNat).toInt ≤ n.toInt ∨
      -2 ^ (W - 2) ≤ m.toInt * 2 ^ n.toNat ∧ m.toInt * 2 ^ n.toNat < 2 ^ (W - 2) := by
  unfold makeCheckbound
  dsimp only
  by_cases hguard : (m <<< n.toNat).toInt > n.toInt
  · have hpow : (0 : Int) < 2 ^ n.toNat := by positivity
    obtain ⟨hlt, hle⟩ := shifted_add_le (by omega) (hn0.trans_lt hguard)
    have hindex := toInt_shifted_index hW (hn0.trans_lt hguard)
    have hi := toNat_signExtend (n := m <<< n.toNat + (1 : Host W) <<< n.toNat - 1) (by omega)
    rw [hindex] at hi
    rw [or_iff_right (not_le.mpr hguard)]
    simp only [if_pos hguard, checkbound_const, checkbound_lsr_const _ _ hn0 hn]
    generalize ((m <<< n.toNat + (1 : Host W) <<< n.toNat - 1).signExtend W).toNat = i at *
    constructor
    · intro h
      -- the least bound that passes the check of the new index
      have hword : (2 : Int) ^ W = 4 * 2 ^ (W - 2) := by
        rw [show W = W - 2 + 2 by omega, pow_add, mul_comm]
        rfl
      have hb : (BitVec.ofNat W (i + 1)).toNat = i + 1 := by
        rw [BitVec.toNat_ofNat, Nat.mod_eq_of_lt]
        zify
        omega
      have hcheck := h ⟨fun _ => BitVec.ofNat W (i + 1), fun _ => 0, fun _ => none⟩
        (.var ⟨"hdr", 0⟩)
      simp only [eval, Except.map, Except.ok.injEq, decide_eq_decide, hb, Nat.lt_succ_self,
        true_iff] at hcheck
      have hmul := (Nat.le_div_iff_mul_le (Nat.two_pow_pos n.toNat)).mp hcheck
      have hm : m.toInt = (m.signExtend W).toNat := by
        have hlt : (m.signExtend W).toNat < i + 1 := hcheck.trans_le (Nat.div_le_self _ _)
        rw [← toInt_signExtend, BitVec.toInt_eq_toNat_of_lt]
        zify
        omega
      rw [hm]
      zify at hmul
      have hnonneg : 0 ≤ ((m.signExtend W).toNat : Int) * 2 ^ n.toNat := by positivity
      constructor <;> linarith
    · rintro ⟨hlo, hhi⟩ env a1
      rw [show W - 2 = W - 1 - 1 by omega] at hlo hhi
      have hfit := toInt_shiftLeft_of_range (by omega) hlo hhi
      have hm := toNat_signExtend (n := m) (nonneg_of_mul_nonneg_left (by omega) hpow)
      cases eval env a1 with
      | error e => rfl
      | ok v =>
        simp only [Except.map, Except.ok.injEq, decide_eq_decide]
        refine (lt_div_two_pow_iff ?_).symm
        zify
        rw [hi, hm, hfit]
        ring
  · simp only [if_neg hguard]
    exact iff_of_true (fun _ _ => trivial) (.inl (not_lt.mp hguard))

theorem checkbound_makeCheckbound_third :
    checkbound ⟨fun _ => 4096, fun _ => 0, fun _ => none⟩
      (makeCheckbound [.op2 .lsr (.var ⟨"hdr", 0⟩) (.constInt (9 : Host 64)), .constInt 7]) =
    checkbound ⟨fun _ => 4096, fun _ => 0, fun _ => none⟩
      [.op2 .lsr (.var ⟨"hdr", 0⟩) (.constInt (9 : Host 64)), .constInt 7] :=
  (checkbound_makeCheckbound (by decide) 9 7 (by decide) (by decide)).mpr
    (.inr ⟨by decide, by decide⟩) _ _

/-- The index `2 ^ 53`, which is the word `2 ^ 54 + 1`, of an array of length 4: the shifted index
wraps around to a small one. -/
theorem makeCheckbound_wraps :
    let args : List (Expr 64) :=
      [.op2 .lsr (.var ⟨"hdr", 0⟩) (.constInt 9), .constInt 18014398509481985]
    checkbound ⟨fun _ => 4096, fun _ => 0, fun _ => none⟩ args = .ok false ∧
      makeCheckbound args = [.var ⟨"hdr", 0⟩, .constInt 1023] ∧
      checkbound ⟨fun _ => 4096, fun _ => 0, fun _ => none⟩ (makeCheckbound args) = .ok true := by
  decide

end TravLang.CmmHelpers
