import TravLang.Asmcomp.Cmm

/-!
# Building C-- arithmetic (`asmcomp/cmm_helpers.ml`)

An OCaml `int` of the compiler is a `BitVec (W - 1)`, a `nativeint` is a `BitVec W`. Functions
that create identifiers run in `Gen`: the state is the next stamp, and `none` is an exception of
the compiler itself.

Where the source matches on a pattern with a guard, a failing guard leads to the next pattern; the
chains of tests below are in the order of the source.
-/

namespace TravLang.CmmHelpers

open Cmm

variable {W : Nat}

/-- An OCaml `int`. -/
abbrev Host (W : Nat) := BitVec (W - 1)

def minInt : Host W := BitVec.intMin (W - 1)

def maxInt : Host W := BitVec.intMax (W - 1)

/-! ## `Misc` -/

/-- `Misc.log2`; `n asr 1` is the quotient rounded down. -/
def log2 (n : Int) : Nat := if n ≤ 1 then 0 else 1 + log2 (n / 2)
termination_by n.toNat
decreasing_by omega

def noOverflowAdd (a b : Host W) : Bool := ((a ^^^ b) ||| (a ^^^ ~~~(a + b))).msb

def noOverflowSub (a b : Host W) : Bool := ((a ^^^ ~~~b) ||| (b ^^^ (a - b))).msb

def noOverflowMul (a b : Host W) : Bool :=
  !((a = minInt && b.toInt < 0) || (b ≠ 0 && (a * b).sdiv b ≠ a))

def noOverflowLsl (a k : Host W) : Bool :=
  0 ≤ k.toInt && k.toInt < W - 1 && (minInt.sshiftRight k.toNat : Host W).toInt ≤ a.toInt &&
    a.toInt ≤ (maxInt.sshiftRight k.toNat : Host W).toInt

/-! ## Generated identifiers -/

abbrev Gen (α : Type) := StateT Nat Option α

/-- `Backend_var.create_local`. -/
def createLocal (name : String) : Gen Ident := do
  let stamp ← get
  set (stamp + 1)
  return { name, stamp }

/-- `bind`: names the argument, unless it is a variable or a constant. -/
def bindArg (name : String) (arg : Expr W) (fn : Expr W → Gen (Expr W)) : Gen (Expr W) :=
  match arg with
  | .var _ | .constInt _ | .constNatint _ | .constSymbol _ => fn arg
  | _ => do
    let id ← createLocal name
    return .letIn id arg (← fn (.var id))

/-! ## Constants -/

/-- A small constant. -/
def natConst (n : Nat) : Expr W := .constInt (BitVec.ofNat (W - 1) n)

def natintConstUntagged (n : BitVec W) : Expr W :=
  if n.toInt > (maxInt : Host W).toInt || n.toInt < (minInt : Host W).toInt then .constNatint n
  else .constInt (BitVec.ofInt (W - 1) n.toInt)

/-- The value of an integer constant. -/
def constOf : Expr W → Option (Host W)
  | .constInt n => some n
  | _ => none

/-! ## Sums -/

def addNoOverflow (n x : Host W) (c : Expr W) : Expr W :=
  if n + x = 0 then c else .op2 .addi c (.constInt (n + x))

def addConst (c : Expr W) (n : Host W) : Expr W :=
  if n = 0 then c
  else
    match c with
    | .constInt x =>
      if noOverflowAdd x n then .constInt (x + n) else .op2 .addi (.constInt x) (.constInt n)
    | .op2 .addi (.constInt x) (.constInt y) =>
      if noOverflowAdd n x then addNoOverflow n x (.constInt y)
      else if noOverflowAdd n y then addNoOverflow n y (.constInt x)
      else .op2 .addi c (.constInt n)
    | .op2 .addi (.constInt x) c' =>
      if noOverflowAdd n x then addNoOverflow n x c' else .op2 .addi c (.constInt n)
    | .op2 .addi c' (.constInt x) =>
      if noOverflowAdd n x then addNoOverflow n x c' else .op2 .addi c (.constInt n)
    | .op2 .subi (.constInt x) (.constInt y) =>
      if noOverflowAdd n x then .op2 .subi (.constInt (n + x)) (.constInt y)
      else if noOverflowSub n y then addConst (.constInt x) (n - y)
      else .op2 .addi c (.constInt n)
    | .op2 .subi (.constInt x) c' =>
      if noOverflowAdd n x then .op2 .subi (.constInt (n + x)) c'
      else .op2 .addi c (.constInt n)
    | .op2 .subi c' (.constInt x) =>
      if noOverflowSub n x then addConst c' (n - x) else .op2 .addi c (.constInt n)
    | _ => .op2 .addi c (.constInt n)

def addInt (c1 c2 : Expr W) : Expr W :=
  match c1, c2 with
  | .constInt n, c => addConst c n
  | c, .constInt n => addConst c n
  | .op2 .addi c1 (.constInt n1), c2 => addConst (addInt c1 c2) n1
  | c1, .op2 .addi c2 (.constInt n2) => addConst (addInt c1 c2) n2
  | c1, c2 => .op2 .addi c1 c2
termination_by sizeOf c1 + sizeOf c2

def subInt (c1 c2 : Expr W) : Expr W :=
  match c1, c2 with
  | c1, .constInt n2 =>
    if n2 ≠ minInt then addConst c1 (-n2)
    else
      match c1 with
      | .op2 .addi c1 (.constInt n1) => addConst (subInt c1 (.constInt n2)) n1
      | c1 => .op2 .subi c1 (.constInt n2)
  | .op2 .addi c1 (.constInt n1), .op2 .addi c2 (.constInt n2) =>
    if n2 ≠ minInt then addConst (subInt (.op2 .addi c1 (.constInt n1)) c2) (-n2)
    else addConst (subInt c1 (.op2 .addi c2 (.constInt n2))) n1
  | c1, .op2 .addi c2 (.constInt n2) =>
    if n2 ≠ minInt then addConst (subInt c1 c2) (-n2)
    else .op2 .subi c1 (.op2 .addi c2 (.constInt n2))
  | .op2 .addi c1 (.constInt n1), c2 => addConst (subInt c1 c2) n1
  | c1, c2 => .op2 .subi c1 c2
termination_by sizeOf c1 + sizeOf c2

/-! ## Products -/

def lslInt (c1 c2 : Expr W) : Expr W :=
  match c1, c2 with
  | .op2 .lsl c (.constInt n1), .constInt n2 =>
    if n1.toInt > 0 && n2.toInt > 0 && (n1 + n2).toInt < W then
      .op2 .lsl c (.constInt (n1 + n2))
    else .op2 .lsl c1 c2
  | .op2 .addi c (.constInt n1), .constInt n2 =>
    if noOverflowLsl n1 n2 then addConst (lslInt c (.constInt n2)) (n1 <<< n2.toNat)
    else .op2 .lsl c1 c2
  | _, _ => .op2 .lsl c1 c2

def isPower2 (n : Host W) : Bool := n = (1 : Host W) <<< log2 n.toInt

def multPower2 (c : Expr W) (n : Host W) : Expr W := lslInt c (natConst (log2 n.toInt))

def mulInt (c1 c2 : Expr W) : Expr W :=
  if constOf c2 = some 0 then .sequence c1 (.constInt 0)
  else if constOf c1 = some 0 then .sequence c2 (.constInt 0)
  else if constOf c2 = some 1 then c1
  else if constOf c1 = some 1 then c2
  else if constOf c2 = some (-1) then subInt (.constInt 0) c1
  else if constOf c1 = some (-1) then subInt (.constInt 0) c2
  else
    match c1, c2 with
    | c, .constInt n =>
      if isPower2 n then multPower2 c n
      else
        match c with
        | .constInt n1 => if isPower2 n1 then multPower2 c2 n1 else .op2 .muli c1 c2
        | .op2 .addi c (.constInt n1) =>
          if noOverflowMul n1 n then addConst (mulInt c (.constInt n)) (n1 * n)
          else .op2 .muli c1 c2
        | _ => .op2 .muli c1 c2
    | .constInt n, c =>
      if isPower2 n then multPower2 c n
      else
        match c with
        | .op2 .addi c (.constInt n1) =>
          if noOverflowMul n1 n then addConst (mulInt c (.constInt n)) (n1 * n)
          else .op2 .muli c1 c2
        | _ => .op2 .muli c1 c2
    | _, _ => .op2 .muli c1 c2
termination_by sizeOf c1 + sizeOf c2

/-! ## Shifts to the right -/

def ignoreLowBitInt (c : Expr W) : Expr W :=
  match c with
  | .op2 .addi (.op2 .lsl c' (.constInt n)) (.constInt k) =>
    if k = 1 ∧ n.toInt > 0 then .op2 .lsl c' (.constInt n) else c
  | .op2 .or c' (.constInt k) => if k = 1 then c' else c
  | c => c

def lsrInt (c1 c2 : Expr W) : Expr W :=
  match c2 with
  | .constInt n =>
    if n = 0 then c1
    else if n.toInt > 0 then .op2 .lsr (ignoreLowBitInt c1) c2
    else .op2 .lsr c1 c2
  | _ => .op2 .lsr c1 c2

def asrInt (c1 c2 : Expr W) : Expr W :=
  match c2 with
  | .constInt n =>
    if n = 0 then c1
    else if n.toInt > 0 then .op2 .asr (ignoreLowBitInt c1) c2
    else .op2 .asr c1 c2
  | _ => .op2 .asr c1 c2

/-! ## Division parameters -/

/-- `Nativeint.compare`. -/
def nativeCompare (x y : BitVec W) : Int :=
  if x.toInt < y.toInt then -1 else if x.toInt > y.toInt then 1 else 0

def ucompare (x y : BitVec W) : Int :=
  nativeCompare (x + BitVec.intMin W) (y + BitVec.intMin W)

def udivmod (n d : BitVec W) : BitVec W × BitVec W :=
  if d.toInt < 0 then
    if ucompare n d < 0 then (0, n) else (1, n - d)
  else
    let q := ((n >>> 1).sdiv d) <<< 1
    let r := n - q * d
    if ucompare r d ≥ 0 then (q + 1, r - d) else (q, r)

/-- Doubles a quotient and a remainder by `c`. -/
def doubleDivmod (c : BitVec W) (qr : BitVec W × BitVec W) : BitVec W × BitVec W :=
  let q := qr.1 <<< 1
  let r := qr.2 <<< 1
  if ucompare r c ≥ 0 then (q + 1, r - c) else (q, r)

/-- The function `loop` of `divimm_parameters`, for at most `fuel` rounds. -/
def divimmLoop (d nc : BitVec W) : Nat → Nat → BitVec W × BitVec W → BitVec W × BitVec W →
    Option (BitVec W × Nat)
  | 0, _, _, _ => none
  | fuel + 1, p, qr1, qr2 =>
    let p := p + 1
    let (q1, r1) := doubleDivmod nc qr1
    let (q2, r2) := doubleDivmod d qr2
    let delta := d - r2
    if ucompare q1 delta < 0 || (q1 = delta && r1 = 0) then
      divimmLoop d nc fuel p (q1, r1) (q2, r2)
    else
      some (q2 + 1, p - W)

/-- `none` is a failed assertion, or a loop of more than `W` rounds. -/
def divimmParameters (d : BitVec W) : Option (BitVec W × Nat) :=
  if d.toInt > 0 then
    let twopsm1 := BitVec.intMin W
    let nc := (twopsm1 - 1) - (udivmod twopsm1 d).2
    divimmLoop d nc W (W - 1) (udivmod twopsm1 nc) (udivmod twopsm1 d)
  else none

/-! ## Division and modulus -/

def raiseSymbol (symb : String) : Expr W := .op1 .raise (.constSymbol symb)

/-- The last patterns of `div_int` and `mod_int`. `noCheck` says that a zero divisor need not be
checked for (`!Clflags.unsafe || is_safe = Lambda.Unsafe`). -/
def checkedDivision (op : Op2) (noCheck : Bool) (c1 c2 : Expr W) : Gen (Expr W) :=
  if noCheck then return .op2 op c1 c2
  else
    bindArg "divisor" c2 fun c2 =>
      bindArg "dividend" c1 fun c1 =>
        return .ifThenElse c2 (.op2 op c1 c2) (raiseSymbol "caml_exn_Division_by_zero")

/-- The dividend, increased by `n - 1` if it is negative, for `n = 1 lsl l`. -/
def roundedDividend (c1 : Expr W) (l : Nat) : Expr W :=
  let t := asrInt c1 (natConst (l - 1))
  let t := lsrInt t (natConst (W - l))
  addInt c1 t

/-- The quotient by a constant with the parameters `m` and `p`. -/
def mulDivision (m : BitVec W) (p : Nat) (c1 : Expr W) : Expr W :=
  let t := .op2 .mulhi c1 (natintConstUntagged m)
  let t := if m.toInt < 0 then .op2 .addi t c1 else t
  let t := if p > 0 then .op2 .asr t (natConst p) else t
  addInt t (lsrInt c1 (natConst (W - 1)))

/-- The opposite of a negative constant is not negative. -/
theorem neg_toInt_nonneg {n : Host W} (hmin : n ≠ minInt) : ¬ (n.toInt < 0 ∧ (-n).toInt < 0) := by
  rintro ⟨hn, hneg⟩
  rw [BitVec.toInt_neg_of_ne_intMin hmin] at hneg
  omega

def divInt (noCheck : Bool) (c1 c2 : Expr W) : Gen (Expr W) :=
  match c2 with
  | .constInt n =>
    if n = 0 then return .sequence c1 (raiseSymbol "caml_exn_Division_by_zero")
    else if n = 1 then return c1
    else if let some n1 := constOf c1 then return .constInt (n1.sdiv n)
    else if _hmin : n = minInt then checkedDivision .divi noCheck c1 (.constInt n)
    else
      let l := log2 n.toInt
      if n = (1 : Host W) <<< l then do
        return .op2 .asr (← bindArg "dividend" c1 fun c1 => return roundedDividend c1 l)
          (natConst l)
      else if _hneg : n.toInt < 0 then do
        return subInt (.constInt 0) (← divInt noCheck c1 (.constInt (-n)))
      else
        match divimmParameters (n.signExtend W) with
        | none => failure
        | some (m, p) => bindArg "dividend" c1 fun c1 => return mulDivision m p c1
  | c2 => checkedDivision .divi noCheck c1 c2
termination_by (match c2 with
  | .constInt n => if n.toInt < 0 then 1 else 0
  | _ => 0 : Nat)
decreasing_by
  have := neg_toInt_nonneg _hmin
  simp only [_hneg, if_true]
  split <;> omega

def modInt (noCheck : Bool) (c1 c2 : Expr W) : Gen (Expr W) :=
  match c2 with
  | .constInt n =>
    if n = 0 then return .sequence c1 (raiseSymbol "caml_exn_Division_by_zero")
    else if n = 1 ∨ n = -1 then return .sequence c1 (.constInt 0)
    else if let some n1 := constOf c1 then return .constInt (n1.srem n)
    else if n = minInt then checkedDivision .modi noCheck c1 (.constInt n)
    else
      let l := log2 n.toInt
      if n = (1 : Host W) <<< l then
        bindArg "dividend" c1 fun c1 =>
          return subInt c1 (.op2 .and (roundedDividend c1 l) (.constInt (-n)))
      else
        bindArg "dividend" c1 fun c1 => do
          let q ← divInt noCheck c1 (.constInt n)
          return subInt c1 (mulInt q (.constInt n))
  | c2 => checkedDivision .modi noCheck c1 c2

end TravLang.CmmHelpers
