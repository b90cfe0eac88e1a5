import TravLang.Asmcomp.Interval
import TravLang.Stdlib.Array.Basic
import TravLang.Stdlib.Set.Refinement

/-!
# Linear scan register allocation (`asmcomp/linscan.ml`)

Intervals are mutable: a table gives the current fields of the interval of each register stamp, and
the sets of intervals hold handles, which are what their order looks at. The dummy register of
`split_by_pos` has the stamp -1.

`allocate_free_register` raises `Not_found` before it has changed anything, hence
`allocate_blocked_register` goes on from the same state.
-/

namespace TravLang.Linscan

open TravLang.Asmcomp
open Map (PhysEq intCompare)

inductive Exn where
  | notFound
  | invalidArg (msg : String)
  | assertFailure
  /-- `Invalid_argument "index out of bounds"` -/
  | indexOutOfBounds
  deriving DecidableEq, Repr

/-- A set operation -/
def ofSet {α : Type} (x : Except Map.Exn α) : Except Exn α :=
  x.mapError fun
    | .invalidArg msg => .invalidArg msg
    | .notFound => .notFound
    | .assertFailure => .assertFailure

/-- An array operation -/
def ofArray {α : Type} (x : Except Arrays.Exn α) : Except Exn α :=
  x.mapError fun _ => .indexOutOfBounds

/-! ## Sets of intervals -/

/-- An interval in a set: the fields that `IntervalSet` compares, which do not change -/
structure Elt where
  iend : Int
  stamp : Int
  deriving DecidableEq, Repr

/-- The order of `IntervalSet` -/
def compare (i j : Elt) : Int :=
  let c := intCompare i.iend j.iend
  if c = 0 then intCompare i.stamp j.stamp else c

/-- The order of `SlotSet` -/
def slotCompare (m n : Nat) : Int := intCompare m n

abbrev IntervalSet := Set.T Elt

structure ClassIntervals where
  fixed : IntervalSet
  active : IntervalSet
  inactive : IntervalSet
  /-- spilled stack slots still in use -/
  spilled : IntervalSet
  /-- expired stack slots available for reuse -/
  freeSlots : Set.T Nat

def ClassIntervals.empty : ClassIntervals :=
  ⟨Set.empty, Set.empty, Set.empty, Set.empty, Set.empty⟩

structure State (proc : Proc) where
  intervals : Int → Interval.T
  /-- the array `active` -/
  active : Fin proc.numRegisterClasses → ClassIntervals
  numStackSlots : Fin proc.numRegisterClasses → Nat

variable {proc : Proc}

/-- `Proc.register_class i.reg` -/
def registerClass (st : State proc) (i : Int) : Fin proc.numRegisterClasses :=
  proc.registerClass (st.intervals i).typ

def State.elt (st : State proc) (i : Int) : Elt := ⟨(st.intervals i).iend, i⟩

/-- A change of the intervals of a class -/
def State.setClass (st : State proc) (cl : Fin proc.numRegisterClasses) (ci : ClassIntervals) :
    State proc :=
  { st with active := Function.update st.active cl ci }

/-- A change of the fields of an interval -/
def State.setInterval (st : State proc) (i : Int) (x : Interval.T) : State proc :=
  { st with intervals := Function.update st.intervals i x }

def slotOfSpilled (st : State proc) (i : Elt) : Except Exn Nat :=
  match (st.intervals i.stamp).loc with
  | .stack (.local ss) => .ok ss
  | _ => .error (.invalidArg "Linscan.slot_of_spilled")

def splitByPos (intervals : IntervalSet) (pos : Int) : Except Exn (IntervalSet × IntervalSet) := do
  let (before, dividerInSet, after) ← ofSet (Set.split compare ⟨pos, -1⟩ intervals)
  if dividerInSet then .error .assertFailure else .ok (before, after)

/-! ## Expired intervals -/

def removeExpiredRanges (st : State proc) (intervals : IntervalSet) (pos : Int) : State proc :=
  Set.fold (fun i st => st.setInterval i.stamp
    (Interval.removeExpiredRanges (st.intervals i.stamp) pos)) intervals st

def releaseExpiredSpilled (phys : PhysEq) (st : State proc) (cl : Fin proc.numRegisterClasses)
    (pos : Int) : Except Exn (State proc) := do
  let ci := st.active cl
  let (expired, rest) ← splitByPos ci.spilled pos
  let freeSlots ← Set.iter (fun free i => do
    let ss ← slotOfSpilled st i
    ofSet (Set.add slotCompare (phys.sub ss) ss free)) expired ci.freeSlots
  return st.setClass cl { ci with freeSlots, spilled := rest }

def releaseExpiredFixed (st : State proc) (cl : Fin proc.numRegisterClasses) (pos : Int) :
    Except Exn (State proc) := do
  let ci := st.active cl
  let (_, rest) ← splitByPos ci.fixed pos
  let st := removeExpiredRanges st rest pos
  return st.setClass cl { ci with fixed := rest }

def partitionLive (st : State proc) (intervals : IntervalSet) (pos : Int) :
    Except Exn (IntervalSet × IntervalSet) :=
  ofSet (Set.partition (fun i => Interval.isLive (st.intervals i.stamp) pos) intervals)

def releaseExpiredActive (phys : PhysEq) (st : State proc) (cl : Fin proc.numRegisterClasses)
    (pos : Int) : Except Exn (State proc) := do
  let ci := st.active cl
  let (_, rest) ← splitByPos ci.active pos
  let st := removeExpiredRanges st rest pos
  let (active, inactive) ← partitionLive st rest pos
  let inactive ← ofSet (Set.union compare phys inactive ci.inactive)
  return st.setClass cl { ci with active, inactive }

def releaseExpiredInactive (phys : PhysEq) (st : State proc) (cl : Fin proc.numRegisterClasses)
    (pos : Int) : Except Exn (State proc) := do
  let ci := st.active cl
  let (_, rest) ← splitByPos ci.inactive pos
  let st := removeExpiredRanges st rest pos
  let (active, inactive) ← partitionLive st rest pos
  let active ← ofSet (Set.union compare phys active ci.active)
  return st.setClass cl { ci with active, inactive }

/-! ## Stack slots -/

def allocateStackSlot (phys : PhysEq) (st : State proc) (i : Int) : Except Exn (State proc) := do
  let cl := registerClass st i
  let ci := st.active cl
  let (ss, freeSlots, numStackSlots) ←
    match Set.minEltOpt ci.freeSlots with
    | some ss => do
      let freeSlots ← ofSet (Set.remove slotCompare (phys.sub 0) ss ci.freeSlots)
      .ok (ss, freeSlots, st.numStackSlots)
    | none =>
      let ss := st.numStackSlots cl
      .ok (ss, ci.freeSlots, Function.update st.numStackSlots cl (ss + 1))
  let spilled ← ofSet (Set.add compare (phys.sub 1) (st.elt i) ci.spilled)
  let st := st.setInterval i
    { st.intervals i with loc := .stack (.local ss), spill := true }
  return { st.setClass cl { ci with freeSlots, spilled } with numStackSlots }

/-! ## Registers -/

/-- Remove the registers of active intervals from the mask. -/
def maskActive (st : State proc) (r0 : Int) (rn : Nat) (regmask : List Bool) (j : Elt) :
    Except Exn (List Bool) :=
  match (st.intervals j.stamp).loc with
  | .reg r => if r - r0 < rn then ofArray (Arrays.setAt regmask (r - r0) false) else .ok regmask
  | _ => .ok regmask

/-- `remove_bound_overlapping` -/
def removeBoundOverlapping (st : State proc) (r0 : Int) (rn : Nat) (i : Int) (regmask : List Bool)
    (j : Elt) : Except Exn (List Bool) :=
  match (st.intervals j.stamp).loc with
  | .reg r =>
    if r - r0 < rn then do
      let free ← ofArray (Arrays.getAt regmask (r - r0))
      if free && Interval.overlap (st.intervals j.stamp) (st.intervals i) then
        ofArray (Arrays.setAt regmask (r - r0) false)
      else .ok regmask
    else .ok regmask
  | _ => .ok regmask

/-- The function `assign` of `allocate_free_register`: the first free register from `r` on -/
def firstFree : Nat → List Bool → Except Exn Nat
  | _, [] => .error .notFound
  | r, true :: _ => .ok r
  | r, false :: regmask => firstFree (r + 1) regmask

def allocateFreeRegister (phys : PhysEq) (st : State proc) (i : Int) : Except Exn (State proc) :=
  match (st.intervals i).loc, (st.intervals i).spill with
  | .unknown, true => allocateStackSlot phys st i
  | .unknown, false => do
    let cl := registerClass st i
    let rn := proc.numAvailableRegisters cl
    if rn = 0 then .error .notFound
    else
      let ci := st.active cl
      let r0 := proc.firstAvailableRegister cl
      let regmask ← Set.iter (maskActive st r0 rn) ci.active (List.replicate rn true)
      let regmask ← Set.iter (removeBoundOverlapping st r0 rn i) ci.inactive regmask
      let regmask ← Set.iter (removeBoundOverlapping st r0 rn i) ci.fixed regmask
      let r ← firstFree 0 regmask
      let active ← ofSet (Set.add compare phys (st.elt i) ci.active)
      let st := st.setInterval i { st.intervals i with loc := .reg (r0 + r), spill := false }
      return st.setClass cl { ci with active }
  | _, _ => .ok st

def allocateBlockedRegister (phys : PhysEq) (st : State proc) (i : Int) :
    Except Exn (State proc) := do
  let cl := registerClass st i
  let ci := st.active cl
  match Set.maxEltOpt ci.active with
  | some ilast =>
    let chk := fun (r : Elt) => (st.intervals r.stamp).loc = (st.intervals ilast.stamp).loc &&
      Interval.overlap (st.intervals r.stamp) (st.intervals i)
    if ilast.iend > (st.intervals i).iend ∧ ¬(Set.any chk ci.fixed || Set.any chk ci.inactive) then
      let il ← ofSet (Set.remove compare (phys.sub 0) ilast ci.active)
      match (st.intervals ilast.stamp).loc with
      | .reg r =>
        let active ← ofSet (Set.add compare (phys.sub 1) (st.elt i) il)
        let st := st.setInterval i { st.intervals i with loc := .reg r }
        allocateStackSlot (phys.sub 2) (st.setClass cl { ci with active }) ilast.stamp
      | _ => .error .assertFailure
    else allocateStackSlot (phys.sub 2) st i
  | none => allocateStackSlot (phys.sub 2) st i

/-! ## The scan -/

/-- The start of an interval, `i.ibegin land (lnot 0x01)` -/
def startPos (i : Interval.T) : Int := i.ibegin - i.ibegin % 2

/-- Release all intervals of a class that have expired at the current position. -/
def releaseExpired (phys : PhysEq) (pos : Int) (st : State proc)
    (cl : Fin proc.numRegisterClasses) : Except Exn (State proc) := do
  let st ← releaseExpiredFixed st cl pos
  let st ← releaseExpiredActive (phys.sub 0) st cl pos
  let st ← releaseExpiredInactive (phys.sub 1) st cl pos
  releaseExpiredSpilled (phys.sub 2) st cl pos

def walkInterval (phys : PhysEq) (st : State proc) (i : Int) : Except Exn (State proc) := do
  let pos := startPos (st.intervals i)
  let st ← (List.finRange proc.numRegisterClasses).foldlM
    (fun st (cl : Fin proc.numRegisterClasses) => releaseExpired (phys.sub cl) pos st cl) st
  match allocateFreeRegister phys st i with
  | .error .notFound => allocateBlockedRegister phys st i
  | res => res

/-- Add a fixed interval. -/
def addFixed (phys : PhysEq) (st : State proc) (i : Int) : Except Exn (State proc) := do
  let cl := registerClass st i
  let ci := st.active cl
  let fixed ← ofSet (Set.add compare phys (st.elt i) ci.fixed)
  return st.setClass cl { ci with fixed }

/-- `allocate_registers`, of lists of the stamps of intervals -/
def allocateRegisters (proc : Proc) (phys : Int → PhysEq) (table : Int → Interval.T)
    (intervals fixedIntervals : List Int) : Except Exn (State proc) := do
  let st : State proc :=
    { intervals := table, active := fun _ => .empty, numStackSlots := fun _ => 0 }
  let st ← fixedIntervals.foldlM (fun st i => addFixed (phys i) st i) st
  intervals.foldlM (fun st i => walkInterval (phys i) st i) st

end TravLang.Linscan
