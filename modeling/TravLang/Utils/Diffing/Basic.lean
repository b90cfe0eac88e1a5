import Mathlib.Algebra.Group.Int.Defs
import Mathlib.Algebra.Group.Nat.Defs

/-!
# Diffing (`utils/diffing.ml`)

A matrix of cells is filled as in the algorithm of Wagner and Fischer, but each cell has a state,
and computing a state may extend the sequences that are compared. The matrix is filled again, in a
greater shape, until no state asks for more.

An array of arrays with `lines + 1` rows and `columns + 1` columns is a function of two indices,
and the functions that fill cells return the new matrix. Weights are integers of 63 bits.
-/

namespace TravLang.Diffing

inductive Change (L R E D : Type) where
  | delete (x : L)
  | insert (y : R)
  | keep (x : L) (y : R) (eq : E)
  | change (x : L) (y : R) (diff : D)
  deriving DecidableEq, Repr

structure FullState (L R S : Type) where
  line : List L
  column : List R
  state : S

/-- The exceptions that building a patch may raise. -/
inductive Exn where
  | assertFailure
  | invalidArg (msg : String)
  deriving DecidableEq, Repr

variable {L R E D S : Type}

/-! ## Integers and loops -/

def maxInt : Int := 2 ^ 62 - 1

/-- Addition of 63-bit integers. -/
def addInt (a b : Int) : Int := (a + b).bmod (2 ^ 63)

/-- `for i = 0 to l do for j = 0 to c do f i j done done`. -/
def forCells {σ : Type} (l c : Nat) (f : σ → Nat → Nat → σ) (s : σ) : σ :=
  (List.range (l + 1)).foldl (fun s i => (List.range (c + 1)).foldl (fun s j => f s i j) s) s

/-! ## `Matrix` -/

structure Shape where
  l : Nat
  c : Nat
  deriving DecidableEq, Repr

structure Matrix (L R E D S : Type) where
  states : Nat → Nat → Option (FullState L R S)
  weight : Nat → Nat → Int
  diff : Nat → Nat → Option (Change L R E D)
  lines : Nat
  columns : Nat

namespace Matrix

def line (m : Matrix L R E D S) (i j : Nat) : Option L :=
  (m.states i j).bind fun st => st.line[i]?

def column (m : Matrix L R E D S) (i j : Nat) : Option R :=
  (m.states i j).bind fun st => st.column[j]?

/-- The assignment `a.(i).(j) <- x`. -/
def assign {β : Type} (a : Nat → Nat → β) (i j : Nat) (x : β) : Nat → Nat → β :=
  fun i' j' => if i' = i ∧ j' = j then x else a i' j'

def set (m : Matrix L R E D S) (i j : Nat) (diff : Option (Change L R E D)) (weight : Int)
    (state : FullState L R S) : Matrix L R E D S :=
  { m with
    weight := assign m.weight i j weight
    states := assign m.states i j (some state)
    diff := assign m.diff i j diff }

def shapeAt (m : Matrix L R E D S) (i j : Nat) : Option Shape :=
  (m.states i j).map fun st => { l := st.line.length, c := st.column.length }

def realShape (m : Matrix L R E D S) : Shape :=
  forCells m.lines m.columns (fun shape i j =>
    match m.shapeAt i j with
    | some here =>
      { l := if here.l > shape.l then here.l else shape.l
        c := if here.c > shape.c then here.c else shape.c }
    | none => shape) { l := m.lines, c := m.columns }

def make (shape : Shape) : Matrix L R E D S where
  states _ _ := none
  weight _ _ := maxInt
  diff _ _ := none
  lines := shape.l
  columns := shape.c

def reshape (shape : Shape) (m : Matrix L R E D S) : Matrix L R E D S :=
  let copy {β : Type} (default : β) (a : Nat → Nat → β) : Nat → Nat → β := fun i j =>
    if i ≤ m.lines ∧ j ≤ m.columns then a i j else default
  { states := copy none m.states
    weight := copy maxInt m.weight
    diff := copy none m.diff
    lines := shape.l
    columns := shape.c }

end Matrix

/-! ## Building the patch -/

def maybeFinal (m : Matrix L R E D S) (i j : Nat) : Bool :=
  match m.shapeAt i j with
  | some here => here.l = i && here.c = j
  | none => false

def bestState (m : Matrix L R E D S) (best : Nat × Nat × Int) (i j : Nat) : Nat × Nat × Int :=
  if m.weight i j < best.2.2 then (i, j, m.weight i j) else best

def selectFinalState (m : Matrix L R E D S) : Except Exn (Nat × Nat) :=
  let res := forCells m.lines m.columns
    (fun res i j => if maybeFinal m i j then bestState m res i j else res) (0, 0, maxInt)
  if res.1 ≠ 0 ∨ res.2.1 ≠ 0 then .ok (res.1, res.2.1) else .error .assertFailure

/-- The cell before `(i, j)`; an index `-1` raises as soon as the cell is looked at. -/
def next : Change L R E D → Nat → Nat → Except Exn (Nat × Nat)
  | .keep .., i + 1, j + 1 => .ok (i, j)
  | .change .., i + 1, j + 1 => .ok (i, j)
  | .delete _, i + 1, j => .ok (i, j)
  | .insert _, i, j + 1 => .ok (i, j)
  | _, _, _ => .error (.invalidArg "index out of bounds")

theorem next_lt {d : Change L R E D} {i j i' j' : Nat} (h : next d i j = .ok (i', j')) :
    i' + j' < i + j := by
  unfold next at h
  split at h <;> cases h <;> omega

/-- The function `aux` of `construct_patch`. -/
def walk (m : Matrix L R E D S) (acc : List (Change L R E D)) (i j : Nat) :
    Except Exn (List (Change L R E D)) :=
  if i = 0 ∧ j = 0 then .ok acc
  else
    match m.diff i j with
    | none => .error .assertFailure
    | some d =>
      match _h : next d i j with
      | .error e => .error e
      | .ok (i', j') => walk m (d :: acc) i' j'
termination_by i + j
decreasing_by exact next_lt (by assumption)

def constructPatch (m : Matrix L R E D S) : Except Exn (List (Change L R E D)) := do
  let (i, j) ← selectFinalState m
  walk m [] i j

/-! ## Computing cells -/

def compareProposition {β : Type} : Option (Int × β) → Option (Int × β) → Option (Int × β)
  | none, o => o
  | o, none => o
  | some (currM, curr), some (m, res) => some (if currM ≤ m then (currM, curr) else (m, res))

def selectBestProposition {β : Type} (l : List (Option (Int × β))) : Option (Int × β) :=
  l.foldl compareProposition none

/-- `Full_core`, with an update of the full state. -/
structure FullCore (L R E D S : Type) where
  weight : Change L R E D → Int
  test : S → L → R → Except D E
  update : Change L R E D → FullState L R S → FullState L R S

section Generic

variable (X : FullCore L R E D S)

def computeColumn0 (tbl : Matrix L R E D S) (i : Nat) : Matrix L R E D S :=
  match tbl.states (i - 1) 0 with
  | none => tbl
  | some st =>
    match tbl.line (i - 1) 0 with
    | none => tbl
    | some line =>
      let diff := .delete line
      tbl.set i 0 (some diff) (addInt (X.weight diff) (tbl.weight (i - 1) 0)) (X.update diff st)

def computeLine0 (tbl : Matrix L R E D S) (j : Nat) : Matrix L R E D S :=
  match tbl.states 0 (j - 1) with
  | none => tbl
  | some st =>
    match tbl.column 0 (j - 1) with
    | none => tbl
    | some column =>
      let diff := .insert column
      tbl.set 0 j (some diff) (addInt (X.weight diff) (tbl.weight 0 (j - 1))) (X.update diff st)

def computeProposition (tbl : Matrix L R E D S) (i j : Nat) (diff : Option (Change L R E D)) :
    Option (Int × (Change L R E D × FullState L R S)) := do
  let diff ← diff
  let localstate ← tbl.states i j
  return (addInt (X.weight diff) (tbl.weight i j), (diff, localstate))

/-- The change on the diagonal from the cell `(i, j)`. -/
def diagonal (tbl : Matrix L R E D S) (i j : Nat) : Option (Change L R E D) := do
  let state ← tbl.states i j
  let line ← tbl.line i j
  let column ← tbl.column i j
  match X.test state.state line column with
  | .ok ok => return .keep line column ok
  | .error err => return .change line column err

def computeInnerCell (tbl : Matrix L R E D S) (i j : Nat) : Matrix L R E D S :=
  let del := computeProposition X tbl (i - 1) j ((tbl.line (i - 1) j).map .delete)
  let insert := computeProposition X tbl i (j - 1) ((tbl.column i (j - 1)).map .insert)
  let diag := computeProposition X tbl (i - 1) (j - 1) (diagonal X tbl (i - 1) (j - 1))
  match selectBestProposition [diag, del, insert] with
  | none => tbl
  | some (newweight, (diff, localstate)) =>
    tbl.set i j (some diff) newweight (X.update diff localstate)

def computeCell (m : Matrix L R E D S) (i j : Nat) : Matrix L R E D S :=
  if (m.diff i j).isSome then m
  else
    match i, j with
    | 0, 0 => m
    | 0, j => computeLine0 X m j
    | i, 0 => computeColumn0 X m i
    | i, j => computeInnerCell X m i j

/-- The function `loop` of `compute_matrix`; `none` when it does not end within `fuel` rounds. -/
def loop : Nat → Matrix L R E D S → Option (Matrix L R E D S)
  | 0, _ => none
  | fuel + 1, m =>
    let newShape := m.realShape
    if newShape.l > m.lines ∨ newShape.c > m.columns then
      loop fuel (forCells newShape.l newShape.c (computeCell X) (m.reshape newShape))
    else
      some m

def computeMatrix (fuel : Nat) (state0 : FullState L R S) : Option (Matrix L R E D S) :=
  loop X fuel ((Matrix.make { l := 0, c := 0 }).set 0 0 none 0 state0)

end Generic

/-! ## The three interfaces -/

/-- `Parameters`; an update of a state returns a `U`. -/
structure Parameters (L R E D S U : Type) where
  weight : Change L R E D → Int
  test : S → L → R → Except D E
  update : Change L R E D → S → U

/-- `Simple(X).diff`, and likewise for the two functors below, within `fuel` rounds. -/
def diffWith (X : FullCore L R E D S) (fuel : Nat) (state : S) (line : List L)
    (column : List R) : Option (Except Exn (List (Change L R E D))) :=
  (computeMatrix X fuel { line, column, state }).map constructPatch

namespace Simple

def internal (X : Parameters L R E D S S) : FullCore L R E D S where
  weight := X.weight
  test := X.test
  update d fs := { fs with state := X.update d fs.state }

def diff (X : Parameters L R E D S S) (fuel : Nat) (state : S) (line : List L)
    (column : List R) : Option (Except Exn (List (Change L R E D))) :=
  diffWith (internal X) fuel state line column

end Simple

def mayAppend {β : Type} (x : List β) : List β → List β
  | [] => x
  | y => x ++ y

namespace LeftVariadic

def internal (X : Parameters L R E D S (S × List L)) : FullCore L R E D S where
  weight := X.weight
  test := X.test
  update d fs :=
    let (state, a) := X.update d fs.state
    { fs with state, line := mayAppend fs.line a }

def diff (X : Parameters L R E D S (S × List L)) (fuel : Nat) (state : S) (line : List L)
    (column : List R) : Option (Except Exn (List (Change L R E D))) :=
  diffWith (internal X) fuel state line column

end LeftVariadic

namespace RightVariadic

def internal (X : Parameters L R E D S (S × List R)) : FullCore L R E D S where
  weight := X.weight
  test := X.test
  update d fs :=
    let (state, a) := X.update d fs.state
    { fs with state, column := mayAppend fs.column a }

def diff (X : Parameters L R E D S (S × List R)) (fuel : Nat) (state : S) (line : List L)
    (column : List R) : Option (Except Exn (List (Change L R E D))) :=
  diffWith (internal X) fuel state line column

end RightVariadic

end TravLang.Diffing
