import TravLang.Asmcomp.Reg
import TravLang.Stdlib.Array.Basic
import TravLang.Stdlib.Set.Basic

/-!
# Register allocation by coloring of the interference graph (`asmcomp/coloring.ml`)

The registers of a function are `Fin n`; what the allocator changes of them, its reference cells and
its arrays are one state. Scores and the products of the spill cost measure are integers of the
language and wrap around. The recursion of `walk` is on a bound for its depth; it always has enough.
-/

namespace TravLang.Coloring

open TravLang.Asmcomp
open TravLang.Runtime (Host)

inductive Exn where
  | array (e : Arrays.Exn)
  | set (e : Map.Exn)
  /-- `walk` went deeper than its bound -/
  | tooDeep
  deriving DecidableEq, Repr

/-- What `allocate_registers` reads and writes. -/
structure State (proc : Proc) (n : Nat) where
  regs : Fin n → Reg n
  constrained : Set.T (Fin n)
  unconstrained : List (Fin n)
  numStackSlots : Fin proc.numRegisterClasses → Nat
  startRegister : Fin proc.numRegisterClasses → Nat
  /-- `Reg.visit_generation` -/
  visitGeneration : Int

variable {proc : Proc} {n : Nat}

/-- `Proc.register_class` -/
def registerClass (st : State proc n) (r : Fin n) : Fin proc.numRegisterClasses :=
  proc.registerClass (st.regs r).typ

/-- A change of the fields of a register -/
def State.setReg (st : State proc n) (r : Fin n) (reg : Reg n) : State proc n :=
  { st with regs := Function.update st.regs r reg }

/-! ## The order of `OrderedRegSet` -/

def compare (host : Host) (regs : Fin n → Reg n) (r1 r2 : Fin n) : Int :=
  let c1 := (regs r1).spillCost
  let d1 := (regs r1).degree
  let c2 := (regs r2).spillCost
  let d2 := (regs r2).degree
  let m := host.int (host.int (c2 * d1) - host.int (c1 * d2))
  if m ≠ 0 then m
  else
    let m := host.int (c2 - c1)
    if m ≠ 0 then m
    else
      let m := host.int (d1 - d2)
      if m ≠ 0 then m else host.int (r1.val - r2.val)

/-! ## Arrays -/

/-- `a.(i)` -/
def get {α : Type} (a : List α) (i : Int) : Except Exn α := (Arrays.getAt a i).mapError .array

/-- `a.(i) <- x` -/
def set {α : Type} (a : List α) (i : Int) (x : α) : Except Exn (List α) :=
  (Arrays.setAt a i x).mapError .array

/-- `score.(i) <- score.(i) + w` -/
def addScore (host : Host) (score : List Int) (i w : Int) : Except Exn (List Int) := do
  let x ← get score i
  set score i (host.int (x + w))

/-! ## Preallocation -/

/-- The slots of the registers that interfere with a spilled register -/
def markConflicts (st : State proc n) (cl : Fin proc.numRegisterClasses) (interf : List (Fin n))
    (conflict : List Bool) : Except Exn (List Bool) :=
  interf.foldlM (fun conflict r =>
    match (st.regs r).loc with
    | .stack (.local k) =>
      if registerClass st r = cl then set conflict k true else .ok conflict
    | _ => .ok conflict) conflict

/-- `while !slot < nslots && conflict.(!slot) do incr slot done` -/
def skipConflicts : Nat → List Bool → Nat
  | slot, true :: conflict => skipConflicts (slot + 1) conflict
  | slot, _ => slot

/-- `remove_reg` -/
def removeReg (host : Host) (phys : Fin n → Map.PhysEq) (st : State proc n) (reg : Fin n) :
    Except Exn (State proc n) :=
  let cl := registerClass st reg
  if (st.regs reg).spill then do
    let nslots := st.numStackSlots cl
    let conflict ← markConflicts st cl (st.regs reg).interf (List.replicate nslots false)
    let slot := skipConflicts 0 conflict
    let st := st.setReg reg { st.regs reg with loc := .stack (.local slot) }
    if slot ≥ nslots then
      return { st with numStackSlots := Function.update st.numStackSlots cl (slot + 1) }
    else return st
  else if (st.regs reg).degree < proc.numAvailableRegisters cl then
    .ok { st with unconstrained := reg :: st.unconstrained }
  else do
    let constrained ←
      (Set.add (compare host st.regs) (phys reg) reg st.constrained).mapError .set
    return { st with constrained }

/-! ## Preferences -/

/-- `Reg.mark_visited` -/
def markVisited (st : State proc n) (r : Fin n) : State proc n :=
  st.setReg r { st.regs r with visited := st.visitGeneration }

/-- `Reg.is_visited` -/
def isVisited (st : State proc n) (r : Fin n) : Bool := (st.regs r).visited = st.visitGeneration

/-- `Reg.clear_visited_marks` -/
def clearVisitedMarks (host : Host) (st : State proc n) : State proc n :=
  { st with visitGeneration := host.int (st.visitGeneration + 1) }

/-- The scores given to the places of a class, with what is done for a register and a weight -/
abbrev Scoring (proc : Proc) (n : Nat) :=
  State proc n → Fin n → Int → List Int → Except Exn (List Int)

/-- The function `walk` of `iter_preferred` -/
def walk (f : Scoring proc n) : Nat → Fin n → Int → State proc n × List Int →
    Except Exn (State proc n × List Int)
  | depth, r, w, (st, score) =>
    if isVisited st r then .ok (st, score)
    else
      match depth with
      | 0 => .error .tooDeep
      | depth + 1 => do
        let st := markVisited st r
        let score ← f st r w score
        (st.regs r).prefer.foldlM (fun s (r1, w1) => walk f depth r1 (min w w1) s) (st, score)

/-- `iter_preferred` -/
def iterPreferred (host : Host) (f : Scoring proc n) (reg : Fin n) (st : State proc n)
    (score : List Int) : Except Exn (State proc n × List Int) := do
  let (st, score) ←
    (st.regs reg).prefer.foldlM (fun s (r, w) => walk f n r w s) (st, score)
  return (clearVisitedMarks host st, score)

/-! ## Scores of hardware registers -/

/-- What is done for a register located in a hardware register, if it is an available one -/
def atRegister (first : Int) (numRegs : Nat) (loc : Location) (score : List Int)
    (f : Int → Except Exn (List Int)) : Except Exn (List Int) :=
  match loc with
  | .reg k => if k - first < numRegs then f (k - first) else .ok score
  | _ => .ok score

/-- Favor the registers of the preferred pseudo-registers. -/
def favorRegister (host : Host) (first : Int) (numRegs : Nat) : Scoring proc n :=
  fun st r w score =>
    match (st.regs r).loc with
    | .reg k => atRegister first numRegs (.reg k) score fun k => addScore host score k w
    | .unknown =>
      (st.regs r).interf.foldlM (fun score neighbour =>
        atRegister first numRegs (st.regs neighbour).loc score fun k =>
          addScore host score k (-w)) score
    | .stack _ => .ok score

/-- Avoid the registers of the pseudo-registers that a neighbour prefers. -/
def avoidRegister (host : Host) (first : Int) (numRegs : Nat) : Scoring proc n :=
  fun st r w score =>
    atRegister first numRegs (st.regs r).loc score fun k =>
      addScore host score k (-(w - 1))

/-- Prohibit the register of a neighbour, and avoid those it prefers. -/
def scoreNeighbour (host : Host) (first : Int) (numRegs : Nat) :
    State proc n × List Int → Fin n → Except Exn (State proc n × List Int) :=
  fun (st, score) neighbour => do
    let score ← atRegister first numRegs (st.regs neighbour).loc score fun k =>
      set score k (-1000000)
    iterPreferred host (avoidRegister host first numRegs) neighbour st score

/-- One turn of the loops that pick a place: the best score and the best place so far -/
def pickBest (score : List Int) (best : Int × Int) (k : Nat) : Except Exn (Int × Int) := do
  let x ← get score k
  return if x > best.1 then (x, k) else best

/-- The register to use, or -1 -/
def bestRegister (host : Host) (st : State proc n) (reg : Fin n) :
    Except Exn (State proc n × Int) := do
  let cl := registerClass st reg
  let first := proc.firstAvailableRegister cl
  let numRegs := proc.numAvailableRegisters cl
  let start := st.startRegister cl
  if numRegs ≠ 0 then
    let (st, score) ← iterPreferred host (favorRegister host first numRegs) reg st
      (List.replicate numRegs 0)
    let (st, score) ← (st.regs reg).interf.foldlM (scoreNeighbour host first numRegs) (st, score)
    let best ← (List.range' start (numRegs - start)).foldlM (pickBest score) (-1000000, -1)
    let best ← (List.range start).foldlM (pickBest score) best
    return (st, best.2)
  else return (st, -1)

/-! ## Scores of stack slots -/

/-- What is done for a register located in a local stack slot -/
def atSlot (loc : Location) (score : List Int) (f : Int → Except Exn (List Int)) :
    Except Exn (List Int) :=
  match loc with
  | .stack (.local k) => f k
  | _ => .ok score

def favorSlot (host : Host) : Scoring proc n :=
  fun st r w score =>
    match (st.regs r).loc with
    | .stack (.local k) => addScore host score k w
    | .unknown =>
      (st.regs r).interf.foldlM (fun score neighbour =>
        atSlot (st.regs neighbour).loc score fun k => addScore host score k (-w)) score
    | _ => .ok score

def avoidSlot (host : Host) : Scoring proc n :=
  fun st r w score => atSlot (st.regs r).loc score fun k => addScore host score k (-w)

/-- Prohibit the slot of a neighbour, and avoid those it prefers. -/
def slotNeighbour (host : Host) (st : State proc n) (score : List Int) (neighbour : Fin n) :
    Except Exn (List Int) := do
  let score ← atSlot (st.regs neighbour).loc score fun k => set score k (-1000000)
  (st.regs neighbour).prefer.foldlM (fun score (r, w) => avoidSlot host st r w score) score

/-- The slot to use, or -1 -/
def bestSlot (host : Host) (st : State proc n) (reg : Fin n) : Except Exn Int := do
  let nslots := st.numStackSlots (registerClass st reg)
  let score ← (st.regs reg).prefer.foldlM (fun score (r, w) => favorSlot host st r w score)
    (List.replicate nslots 0)
  let score ← (st.regs reg).interf.foldlM (slotNeighbour host st) score
  let best ← (List.range nslots).foldlM (pickBest score) (-1000000, -1)
  return best.2

/-! ## Assignment -/

/-- `assign_location` -/
def assignLocation (host : Host) (st : State proc n) (reg : Fin n) :
    Except Exn (State proc n) := do
  let cl := registerClass st reg
  let (st, bestReg) ← bestRegister host st reg
  if bestReg ≥ 0 then
    let loc := .reg (proc.firstAvailableRegister cl + bestReg)
    let start := st.startRegister cl + 1
    let start := if start ≥ proc.numAvailableRegisters cl then 0 else start
    let st := st.setReg reg { st.regs reg with loc, prefer := [] }
    return if proc.rotateRegisters then
      { st with startRegister := Function.update st.startRegister cl start } else st
  else
    let nslots := st.numStackSlots cl
    let slot ← bestSlot host st reg
    if slot ≥ 0 then
      return st.setReg reg
        { st.regs reg with loc := .stack (.local slot.toNat), spill := true, prefer := [] }
    else
      let st := st.setReg reg
        { st.regs reg with loc := .stack (.local nslots), spill := true, prefer := [] }
      return { st with numStackSlots := Function.update st.numStackSlots cl (nslots + 1) }

/-- `allocate_registers`, on the registers and the visit generation it finds. `all` is
`Reg.all_registers()`; the stack slot counts it returns are those of the final state. -/
def allocateRegisters (host : Host) (proc : Proc) (phys : Fin n → Map.PhysEq) (all : List (Fin n))
    (regs : Fin n → Reg n) (visitGeneration : Int) : Except Exn (State proc n) := do
  let st : State proc n :=
    { regs, constrained := Set.empty, unconstrained := [], numStackSlots := fun _ => 0,
      startRegister := fun _ => 0, visitGeneration }
  let st ← all.foldlM (removeReg host phys) st
  let st ← Set.iter (assignLocation host) st.constrained st
  st.unconstrained.foldlM (assignLocation host) st

end TravLang.Coloring
