import TravLang.Asmcomp.CmmHelpers.Arith

/-!
# Tagged integers

An integer `n` of the program is the word `2 n + 1`. `tag_int` and `untag_int` combine the shift
with those in their argument.
-/

namespace TravLang.CmmHelpers

open Cmm

variable {W : Nat} {k : Host W}

/-! ## Definitions -/

def maxReprInt : Host W := maxInt.sshiftRight 1

def minReprInt : Host W := minInt.sshiftRight 1

def intConst (n : Host W) : Expr W :=
  if n.toInt ≤ (maxReprInt : Host W).toInt && n.toInt ≥ (minReprInt : Host W).toInt then
    .constInt ((n <<< 1) + 1)
  else .constNatint (n.signExtend W <<< 1 + 1)

def incrInt (c : Expr W) : Expr W := addConst c 1

def tagInt (i : Expr W) : Expr W :=
  match i with
  | .constInt n => intConst n
  | .op2 .asr c (.constInt n) =>
    if n.toInt > 0 then .op2 .or (asrInt c (.constInt (n - 1))) (.constInt 1)
    else incrInt (lslInt i (.constInt 1))
  | c => incrInt (lslInt c (.constInt 1))

def untagInt (i : Expr W) : Expr W :=
  match i with
  | .constInt n => .constInt (n.sshiftRight 1)
  | .op2 .or (.op2 .asr c (.constInt n)) (.constInt k) =>
    if k = 1 ∧ n.toInt > 0 ∧ n.toInt < W then .op2 .asr c (.constInt (n + 1))
    else asrInt i (.constInt 1)
  | .op2 .or (.op2 .lsr c (.constInt n)) (.constInt k) =>
    if k = 1 ∧ n.toInt > 0 ∧ n.toInt < W then .op2 .lsr c (.constInt (n + 1))
    else asrInt i (.constInt 1)
  | c => asrInt c (.constInt 1)

/-! ## Shifts of the value -/

/-- The value after an operation on words -/
theorem eval_shift_op {op : Op2} {f : BitVec W → Nat → BitVec W}
    (hop : ∀ a b : BitVec W, evalOp2 op a b = shift (f a) b) (env : Env W) (c : Expr W)
    (h0 : 0 ≤ k.toInt) (hk : k.toInt < W) :
    eval env (.op2 op c (.constInt k)) = (eval env c).map fun v => f v k.toInt.toNat := by
  simp only [eval, hop]
  cases eval env c with
  | error e => rfl
  | ok v => exact eval_shift_const h0 hk _

theorem eval_asr_const (env : Env W) (c : Expr W) (h0 : 0 ≤ k.toInt) (hk : k.toInt < W) :
    eval env (.op2 .asr c (.constInt k)) =
      (eval env c).map fun v : BitVec W => v.sshiftRight k.toInt.toNat :=
  eval_shift_op (f := BitVec.sshiftRight) (fun _ _ => rfl) env c h0 hk

theorem eval_lsr_const (env : Env W) (c : Expr W) (h0 : 0 ≤ k.toInt) (hk : k.toInt < W) :
    eval env (.op2 .lsr c (.constInt k)) =
      (eval env c).map fun v : BitVec W => v >>> k.toInt.toNat :=
  eval_shift_op (f := fun v n => v >>> n) (fun _ _ => rfl) env c h0 hk

theorem toInt_host_one' (hW : 8 ≤ W) : (1 : Host W).toInt = 1 := BitVec.toInt_one (by omega)

/-- The value and the lowest bit set -/
theorem eval_or_one (hW : 8 ≤ W) (env : Env W) (c : Expr W) :
    eval env (.op2 .or c (.constInt 1)) = (eval env c).map fun v : BitVec W => v ||| 1#W := by
  simp only [eval, evalOp2]
  cases eval env c with
  | error e => rfl
  | ok v =>
    simp [Except.map, signExtend_one hW]

/-! ## Words -/

theorem two_mul_eq_shiftLeft (v : BitVec W) : 2#W * v = v <<< 1 := by
  apply BitVec.eq_of_toNat_eq
  rw [BitVec.toNat_mul, BitVec.toNat_shiftLeft, Nat.shiftLeft_eq, Nat.pow_one, Nat.mul_comm]
  rw [BitVec.toNat_ofNat, Nat.mul_mod_mod]

/-- The lowest bit is shifted out and set again. -/
theorem or_one_eq (v : BitVec W) : v ||| 1#W = 2#W * v.sshiftRight 1 + 1#W := by
  have hand : v.sshiftRight 1 <<< 1 &&& 1#W = 0#W := by
    ext i hi
    simp
    omega
  rw [two_mul_eq_shiftLeft, BitVec.add_eq_or_of_and_eq_zero _ _ hand]
  ext i hi
  simp only [BitVec.getElem_or, BitVec.getElem_shiftLeft, BitVec.getElem_sshiftRight]
  cases i with
  | zero => simp
  | succ i => simp [hi, Nat.add_comm 1 i]

theorem sshiftRight_or_one (hW : 8 ≤ W) (v : BitVec W) (n : Nat) :
    (v.sshiftRight n ||| 1#W).sshiftRight 1 = v.sshiftRight (n + 1) := by
  have hlow := (ignoresLowBit_sshiftRight (W := W) hW Nat.one_pos).or_one (v.sshiftRight n)
  rw [hlow, ← BitVec.sshiftRight_add]

theorem ushiftRight_or_one (hW : 8 ≤ W) (v : BitVec W) {n : Nat} (hn : 0 < n) :
    (v >>> n ||| 1#W).sshiftRight 1 = v >>> (n + 1) := by
  have hlow := (ignoresLowBit_sshiftRight (W := W) hW Nat.one_pos).or_one (v >>> n)
  have hmsb : (v >>> n).msb = false := by
    rw [BitVec.msb_eq_getLsbD_last, BitVec.getLsbD_ushiftRight]
    exact BitVec.getLsbD_of_ge v _ (by omega)
  rw [hlow, BitVec.sshiftRight_eq_of_msb_false hmsb, BitVec.shiftRight_add]

/-! ## Tagging -/

theorem toInt_add_of_range {w : Nat} {a b : BitVec w} (hlo : -2 ^ (w - 1) ≤ a.toInt + b.toInt)
    (hhi : a.toInt + b.toInt < 2 ^ (w - 1)) : (a + b).toInt = a.toInt + b.toInt := by
  apply BitVec.toInt_add_of_not_saddOverflow
  simp only [BitVec.saddOverflow, Bool.or_eq_true, decide_eq_true_eq]
  omega

section

variable (hW : 8 ≤ W)

include hW

variable {n : Host W}

/-- A small constant is tagged without overflow. -/
theorem signExtend_shiftLeft_one_add_one (hmax : n.toInt ≤ (maxReprInt : Host W).toInt)
    (hmin : n.toInt ≥ (minReprInt : Host W).toInt) :
    ((n <<< 1) + 1).signExtend W = n.signExtend W <<< 1 + 1#W := by
  have hone := toInt_host_one' hW
  have hexp : (2 : Int) ^ (W - 1 - 1) = 2 * 2 ^ (W - 1 - 2) := by
    rw [show W - 1 - 1 = (W - 1 - 2) + 1 by omega, pow_succ, mul_comm]
  have hmaxInt := BitVec.toInt_lt (x := (maxInt : Host W))
  have hminInt : (minInt : Host W).toInt = -2 ^ (W - 1 - 1) := BitVec.toInt_intMin_of_pos (by omega)
  rw [maxReprInt, BitVec.toInt_sshiftRight, Int.shiftRight_eq_div_pow] at hmax
  rw [minReprInt, BitVec.toInt_sshiftRight, Int.shiftRight_eq_div_pow, hminInt] at hmin
  have hshift : (n <<< 1).toInt = n.toInt * 2 ^ 1 := by
    apply toInt_shiftLeft_of_range (by omega) <;> omega
  have hadd : (n <<< 1 + 1).toInt = n.toInt * 2 ^ 1 + 1 := by
    rw [toInt_add_of_range, hshift, hone] <;> rw [hshift, hone] <;> omega
  rw [signExtend_eq, hadd, BitVec.ofInt_add, shiftLeft_eq_ofInt, toInt_signExtend]
  rfl

theorem eval_intConst (env : Env W) (n : Host W) :
    eval env (intConst n) = .ok (2#W * n.signExtend W + 1#W) := by
  rw [two_mul_eq_shiftLeft]
  unfold intConst
  split
  · next h =>
    rw [Bool.and_eq_true, decide_eq_true_eq, decide_eq_true_eq] at h
    simp only [eval, signExtend_shiftLeft_one_add_one hW h.1 h.2]
  · rfl

theorem eval_incrInt (env : Env W) (c : Expr W) :
    eval env (incrInt c) = (eval env c).map fun v : BitVec W => v + 1#W := by
  rw [incrInt, eval_addConst hW]
  cases eval env c with
  | error e => rfl
  | ok v => simp [map2, Except.map, signExtend_one hW]

theorem eval_incrInt_lslInt (env : Env W) (c : Expr W) :
    eval env (incrInt (lslInt c (.constInt 1))) =
      (eval env c).map fun v : BitVec W => 2#W * v + 1#W := by
  have hone := toInt_host_one' hW
  rw [eval_incrInt hW, eval_lslInt hW env c (by omega) (by omega),
    eval_lsl_const env c (by omega) (by omega), hone]
  cases eval env c with
  | error e => rfl
  | ok v => simp [Except.map, two_mul_eq_shiftLeft]

theorem toInt_sub_one (h : 0 < n.toInt) : (n - 1).toInt = n.toInt - 1 := by
  have hone := toInt_host_one' hW
  have hlt := BitVec.toInt_lt (x := n)
  rw [BitVec.toInt_sub_of_not_ssubOverflow, hone]
  simp only [BitVec.ssubOverflow, Bool.or_eq_true, decide_eq_true_eq, hone]
  omega

theorem toInt_add_one (h : 0 < n.toInt) (hn : n.toInt < W) :
    (n + 1).toInt = n.toInt + 1 := by
  have hone := toInt_host_one' hW
  rw [(toInt_add_counts hW (by omega) (by omega) (by omega)).1 hn, hone]

/-- **`tag_int` tags.** -/
theorem eval_tagInt (env : Env W) (e : Expr W) (hshifts : ShiftsOk e) :
    eval env (tagInt e) = (eval env e).map fun v : BitVec W => 2#W * v + 1#W := by
  fun_cases tagInt e with
  | case1 n => exact eval_intConst hW env n
  | case2 c n h =>
    obtain ⟨k, hk, hk0, hkW⟩ := hshifts.1 (.inr (.inr rfl))
    obtain rfl := Expr.constInt.inj hk
    have hsub := toInt_sub_one hW h
    have hnat : n.toInt.toNat = (n.toInt - 1).toNat + 1 := by omega
    rw [eval_or_one hW, eval_asrInt c hW env (by omega) (by omega),
      eval_asr_const env c (by omega) (by omega), eval_asr_const env c hk0 hkW, hsub, hnat]
    cases eval env c with
    | error e => rfl
    | ok v => simp [Except.map, or_one_eq, BitVec.sshiftRight_add]
  | case3 | case4 => exact eval_incrInt_lslInt hW env _

theorem shiftsOk_tagInt {e : Expr W} (h : ShiftsOk e) : ShiftsOk (tagInt e) := by
  have hone := toInt_host_one' hW
  fun_cases tagInt e with
  | case1 n =>
    unfold intConst
    split <;> trivial
  | case2 c n hn =>
    obtain ⟨k, hk, hk0, hkW⟩ := h.1 (.inr (.inr rfl))
    obtain rfl := Expr.constInt.inj hk
    have hsub := toInt_sub_one hW hn
    exact ⟨nofun, shiftsOk_asrInt h.2.1 (by omega) (by omega), trivial⟩
  | case3 c n _ | case4 c => exact shiftsOk_addConst (shiftsOk_lslInt hW h (by omega) (by omega))

end

/-! ## Untagging -/

/-- The shift by `W - 1` under a tag, whose count `untag_int` increases to `W` -/
def LastShift (e : Expr W) : Prop :=
  ∃ op c n, (op = .asr ∨ op = .lsr) ∧ e = .op2 .or (.op2 op c (.constInt n)) (.constInt 1) ∧
    n.toInt = W - 1

/-- **`untag_int` shifts by one**, but for the shift by `W - 1`. -/
theorem eval_untagInt (hW : 8 ≤ W) (env : Env W) (e : Expr W) (hlast : ¬ LastShift e) :
    eval env (untagInt e) = (eval env e).map fun v : BitVec W => v.sshiftRight 1 := by
  have hone := toInt_host_one' hW
  have hasr : ∀ c : Expr W, eval env (asrInt c (.constInt 1)) =
      (eval env c).map fun v : BitVec W => v.sshiftRight 1 := by
    intro c
    rw [eval_asrInt c hW env (by omega) (by omega), eval_asr_const env c (by omega) (by omega),
      hone]
    rfl
  fun_cases untagInt e with
  | case1 n =>
    have hshift : (n.sshiftRight 1).signExtend W = (n.signExtend W).sshiftRight 1 := by
      apply BitVec.eq_of_toInt_eq
      rw [toInt_signExtend, BitVec.toInt_sshiftRight, BitVec.toInt_sshiftRight, toInt_signExtend]
    exact congrArg Except.ok hshift
  | case2 c n k h =>
    obtain ⟨rfl, hn0, hnW⟩ := h
    have hne : n.toInt ≠ W - 1 := fun hn => hlast ⟨_, c, n, .inl rfl, rfl, hn⟩
    have hadd := toInt_add_one hW hn0 hnW
    have hnat : (n.toInt + 1).toNat = n.toInt.toNat + 1 := by omega
    rw [eval_or_one hW, eval_asr_const env c (by omega) (by omega),
      eval_asr_const env c (by omega) hnW, hadd, hnat]
    cases eval env c with
    | error e => rfl
    | ok v => simp [Except.map, sshiftRight_or_one hW]
  | case3 => exact hasr _
  | case4 c n k h =>
    obtain ⟨rfl, hn0, hnW⟩ := h
    have hne : n.toInt ≠ W - 1 := fun hn => hlast ⟨_, c, n, .inr rfl, rfl, hn⟩
    have hadd := toInt_add_one hW hn0 hnW
    have hnat : (n.toInt + 1).toNat = n.toInt.toNat + 1 := by omega
    have hpos : 0 < n.toInt.toNat := by omega
    rw [eval_or_one hW, eval_lsr_const env c (by omega) (by omega),
      eval_lsr_const env c (by omega) hnW, hadd, hnat]
    cases eval env c with
    | error e => rfl
    | ok v => simp [Except.map, ushiftRight_or_one hW v hpos]
  | case5 => exact hasr _
  | case6 => exact hasr _

theorem shiftsOk_untagInt (hW : 8 ≤ W) {e : Expr W} (h : ShiftsOk e) (hlast : ¬ LastShift e) :
    ShiftsOk (untagInt e) := by
  have hone := toInt_host_one' hW
  fun_cases untagInt e with
  | case1 n => trivial
  | case2 c n k hk | case4 c n k hk =>
    obtain ⟨rfl, hn0, hnW⟩ := hk
    have hne : n.toInt ≠ W - 1 := fun hn => hlast ⟨_, c, n, by simp, rfl, hn⟩
    have hadd := toInt_add_one hW hn0 hnW
    exact shiftsOk_shift h.2.1.2.1 (by omega) (by omega)
  | case3 | case5 | case6 => exact shiftsOk_asrInt h (by omega) (by omega)

/-- The count `W` that `untag_int` makes of it is out of range. -/
theorem LastShift.not_shiftsOk (hW : 8 ≤ W) {e : Expr W} (hlast : LastShift e) :
    ¬ ShiftsOk (untagInt e) := by
  obtain ⟨op, c, n, hop, rfl, hn⟩ := hlast
  have hadd := toInt_add_one hW (n := n) (by omega) (by omega)
  have huntag : untagInt (.op2 .or (.op2 op c (.constInt n)) (.constInt 1)) =
      .op2 op c (.constInt (n + 1)) := by
    rcases hop with rfl | rfl <;> exact if_pos ⟨rfl, by omega, by omega⟩
  rw [huntag]
  rintro ⟨hcount, -⟩
  obtain ⟨k, hk, -, hlt⟩ := hcount (by rcases hop with rfl | rfl <;> simp)
  obtain rfl := Expr.constInt.inj hk
  omega

end TravLang.CmmHelpers
