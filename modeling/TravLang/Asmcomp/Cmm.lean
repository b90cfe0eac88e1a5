import Mathlib.Algebra.Group.Int.Defs
import Mathlib.Algebra.Group.Nat.Defs

/-!
# C-- expressions (`asmcomp/cmm.mli`) and their meaning

The fragment of C-- that computes with machine words, for a word size of `W` bits. An OCaml `int`
of the compiler has one bit less than a word. Operations are sorted by their number of arguments;
debugging information is left out.

`eval` gives the meaning of an expression: a word, or the way in which the evaluation stops
without a word. What the machine leaves open (a shift by `W` or more, a division by zero, a load
outside of the memory) is `Stop.undefined`.
-/

namespace TravLang.Cmm

/-- `Backend_var.t`. -/
structure Ident where
  name : String
  stamp : Nat
  deriving DecidableEq, Repr

/-- `integer_comparison`. -/
inductive Comparison where
  | ceq | cne | clt | cgt | cle | cge
  deriving DecidableEq, Repr

/-- The operations with one argument. -/
inductive Op1 where
  | load
  | raise
  deriving DecidableEq, Repr

/-- The operations with two arguments. -/
inductive Op2 where
  | addi | subi | muli | mulhi | divi | modi
  | and | or | xor | lsl | lsr | asr
  | cmpi (c : Comparison)
  | adda
  deriving DecidableEq, Repr

/-- `expression`. The only `Ccatch` is the one with a single handler that takes no argument. -/
inductive Expr (W : Nat) where
  | constInt (n : BitVec (W - 1))
  | constNatint (n : BitVec W)
  | constSymbol (s : String)
  | var (id : Ident)
  | letIn (id : Ident) (arg body : Expr W)
  | op1 (op : Op1) (arg : Expr W)
  | op2 (op : Op2) (arg1 arg2 : Expr W)
  | sequence (e1 e2 : Expr W)
  | ifThenElse (cond ifso ifnot : Expr W)
  | catch (i : Nat) (body handler : Expr W)
  | exit (i : Nat)
  deriving DecidableEq

/-! ## Evaluation -/

/-- The ways to stop without a value. -/
inductive Stop (W : Nat) where
  | raise (v : BitVec W)
  | exit (i : Nat)
  | undefined
  deriving DecidableEq, Repr

structure Env (W : Nat) where
  var : Ident → BitVec W
  symbol : String → BitVec W
  /-- the words in memory, by their addresses -/
  memory : BitVec W → Option (BitVec W)

def Env.bind {W : Nat} (env : Env W) (id : Ident) (v : BitVec W) : Env W :=
  { env with var := fun id' => if id' = id then v else env.var id' }

variable {W : Nat}

def Comparison.holds : Comparison → BitVec W → BitVec W → Bool
  | .ceq, a, b => a = b
  | .cne, a, b => a ≠ b
  | .clt, a, b => a.toInt < b.toInt
  | .cgt, a, b => b.toInt < a.toInt
  | .cle, a, b => a.toInt ≤ b.toInt
  | .cge, a, b => b.toInt ≤ a.toInt

/-- The high word of the signed product. -/
def mulhi (a b : BitVec W) : BitVec W := BitVec.ofInt W (a.toInt * b.toInt / 2 ^ W)

def evalOp1 (env : Env W) : Op1 → BitVec W → Except (Stop W) (BitVec W)
  | .load, a =>
    match env.memory a with
    | some v => .ok v
    | none => .error .undefined
  | .raise, a => .error (.raise a)

/-- A shift by `b` bits. -/
def shift (f : Nat → BitVec W) (b : BitVec W) : Except (Stop W) (BitVec W) :=
  if b.toNat < W then .ok (f b.toNat) else .error .undefined

/-- A signed division, of which zero divisors and overflow are excluded. -/
def divide (f : BitVec W → BitVec W → BitVec W) (a b : BitVec W) :
    Except (Stop W) (BitVec W) :=
  if b = 0 ∨ (a = BitVec.intMin W ∧ b = -1) then .error .undefined else .ok (f a b)

def evalOp2 : Op2 → BitVec W → BitVec W → Except (Stop W) (BitVec W)
  | .addi, a, b => .ok (a + b)
  | .subi, a, b => .ok (a - b)
  | .muli, a, b => .ok (a * b)
  | .mulhi, a, b => .ok (mulhi a b)
  | .divi, a, b => divide BitVec.sdiv a b
  | .modi, a, b => divide BitVec.srem a b
  | .and, a, b => .ok (a &&& b)
  | .or, a, b => .ok (a ||| b)
  | .xor, a, b => .ok (a ^^^ b)
  | .lsl, a, b => shift (fun n => a <<< n) b
  | .lsr, a, b => shift (fun n => a >>> n) b
  | .asr, a, b => shift (fun n => a.sshiftRight n) b
  | .cmpi c, a, b => .ok (if c.holds a b then 1 else 0)
  | .adda, a, b => .ok (a + b)

def eval (env : Env W) : Expr W → Except (Stop W) (BitVec W)
  | .constInt n => .ok (n.signExtend W)
  | .constNatint n => .ok n
  | .constSymbol s => .ok (env.symbol s)
  | .var id => .ok (env.var id)
  | .letIn id arg body => do
    let v ← eval env arg
    eval (env.bind id v) body
  | .op1 op arg => do
    let a ← eval env arg
    evalOp1 env op a
  | .op2 op arg1 arg2 => do
    let a ← eval env arg1
    let b ← eval env arg2
    evalOp2 op a b
  | .sequence e1 e2 => do
    let _ ← eval env e1
    eval env e2
  | .ifThenElse cond ifso ifnot => do
    let c ← eval env cond
    if c ≠ 0 then eval env ifso else eval env ifnot
  | .catch i body handler =>
    match eval env body with
    | .error (.exit j) => if j = i then eval env handler else .error (.exit j)
    | res => res
  | .exit i => .error (.exit i)

/-- The shift counts of the expression are constants in `[0, W)`. -/
def ShiftsOk : Expr W → Prop
  | .letIn _ arg body => ShiftsOk arg ∧ ShiftsOk body
  | .op1 _ arg => ShiftsOk arg
  | .op2 op arg1 arg2 =>
    ((op = .lsl ∨ op = .lsr ∨ op = .asr) →
      ∃ n, arg2 = .constInt n ∧ 0 ≤ n.toInt ∧ n.toInt < W) ∧
    ShiftsOk arg1 ∧ ShiftsOk arg2
  | .sequence e1 e2 => ShiftsOk e1 ∧ ShiftsOk e2
  | .ifThenElse cond ifso ifnot => ShiftsOk cond ∧ ShiftsOk ifso ∧ ShiftsOk ifnot
  | .catch _ body handler => ShiftsOk body ∧ ShiftsOk handler
  | _ => True

end TravLang.Cmm
