import TravLang.Runtime.Words

/-!
# Pseudo-registers (`asmcomp/reg.ml`, `asmcomp/proc.mli`)

What the register allocators see of a pseudo-register and of the processor. A register is known by
its stamp, which has a bound `n`; its fields are kept in a table over the stamps.
-/

namespace TravLang.Asmcomp

/-- `Cmm.machtype_component` -/
inductive MachtypeComponent where
  | val
  | addr
  | int
  | float
  deriving DecidableEq, Repr

/-- `stack_location` -/
inductive StackLocation where
  | «local» (n : Nat)
  | incoming (n : Int)
  | outgoing (n : Int)
  | domainstate (n : Int)
  deriving DecidableEq, Repr

/-- `location` -/
inductive Location where
  | unknown
  | reg (n : Int)
  | stack (s : StackLocation)
  deriving DecidableEq, Repr

/-- The description of a processor in `proc.mli`. -/
structure Proc where
  numRegisterClasses : Nat
  registerClass : MachtypeComponent → Fin numRegisterClasses
  numAvailableRegisters : Fin numRegisterClasses → Nat
  firstAvailableRegister : Fin numRegisterClasses → Int
  rotateRegisters : Bool

/-- The type `Reg.t`. The name of a register and its `part` are for printing. -/
structure Reg (n : Nat) where
  typ : MachtypeComponent
  loc : Location := .unknown
  spill : Bool := false
  interf : List (Fin n) := []
  prefer : List (Fin n × Int) := []
  degree : Int := 0
  spillCost : Int := 0
  visited : Int := 0
  deriving DecidableEq, Repr

end TravLang.Asmcomp
