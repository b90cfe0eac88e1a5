import Mathlib.Algebra.Group.Int.Defs
import Mathlib.Algebra.Group.Nat.Defs
import TravLang.Lib.Result

/-!
# Clusters of cases (`lambda/switch.ml`)

Arrays are lists, and integers have `W` bits: where an operation of the source may overflow, its
result is wrapped. The parameter of the functor is a structure `S`; the operations that make names
take a counter of names and return its new value. This counter is the state of the code generator.
Where the source leaves the order of evaluation open, arguments are evaluated from right to left.
-/

namespace TravLang.Switch

inductive Exn where
  | assertFailure
  | invalidArgument (msg : String)
  /-- the bound on the depth of a recursion, which is not reached -/
  | depthBound
  deriving DecidableEq, Repr

def indexOutOfBounds : Exn := .invalidArgument "index out of bounds"

/-- An integer of `W` bits. -/
def wrap (W : Nat) (z : Int) : Int := z.bmod (2 ^ W)

def minInt (W : Nat) : Int := -2 ^ (W - 1)

def maxInt (W : Nat) : Nat := 2 ^ (W - 1) - 1

/-! ## Arrays -/

section Arrays

variable {α : Type}

/-- `a.(i)`. -/
def get (a : List α) (i : Int) : Except Exn α :=
  if 0 ≤ i then
    match a[i.toNat]? with
    | some x => .ok x
    | none => .error indexOutOfBounds
  else .error indexOutOfBounds

/-- `a.(i) <- x`. -/
def set (a : List α) (i : Int) (x : α) : Except Exn (List α) :=
  if 0 ≤ i ∧ i.toNat < a.length then .ok (a.set i.toNat x) else .error indexOutOfBounds

/-- `Array.make`. -/
def make (n : Int) (x : α) : Except Exn (List α) :=
  if 0 ≤ n then .ok (List.replicate n.toNat x) else .error (.invalidArgument "Array.make")

/-- The values of the variable of a loop `for i = low to high`. -/
def forRange (low high : Int) : List Int :=
  (List.range (high + 1 - low).toNat).map fun (k : Nat) => low + (k : Int)

end Arrays

/-! ## Cases -/

/-- An interval and the index of its action. -/
abbrev Case := Int × Int × Nat

abbrev Cases := List Case

def getLow (cases : Cases) (i : Int) : Except Exn Int := do
  let (r, _, _) ← get cases i
  return r

def getHigh (cases : Cases) (i : Int) : Except Exn Int := do
  let (_, r, _) ← get cases i
  return r

/-! ## The parameter of the functor -/

inductive Shared (α : Type) where
  | shared (a : α)
  | single (a : α)

/-- Constructors of code. `bind` returns a variable, and the code that binds it around a body. -/
structure S where
  Loc : Type
  Arg : Type
  Act : Type
  bind : Arg → Nat → (Arg × (Act → Act)) × Nat
  makeOffset : Arg → Int → Arg
  makeSwitch : Loc → Arg → List Nat → List Act → Nat → Act × Nat

/-- The state of the code generator. -/
structure World where
  /-- the counter of names -/
  names : Nat

abbrev M := StateT World (Except Exn)

/-- An operation of the functor's parameter that makes names. -/
def named {α : Type} (f : Nat → α × Nat) : M α := do
  let w ← MonadState.get
  let (a, names) := f w.names
  MonadState.set { w with names := names }
  return a

/-- An argument, and what has been added to it. -/
structure Ctx (A : S) where
  off : Int
  arg : A.Arg

/-- Cases, and what their actions are for an argument. -/
structure Inter (α : Type) where
  cases : Cases
  actions : List α

/-! ## Clusters -/

section Clusters

variable (W : Nat) {A : S}

/-- The arrays `min_clusters` and `k`. -/
structure Clustering where
  minClusters : List Nat
  k : List Int

section CompClusters

variable {m : Type → Type} [Monad m] [MonadLiftT (Except Exn) m] (dense : Int → Int → m Bool)

def getMin (minClusters : List Nat) (i : Int) : Except Exn Nat :=
  if i < 0 then .ok 0 else get minClusters i

/-- The body of the inner loop. -/
def clusterStep (i : Int) (c : Clustering) (j : Int) : m Clustering := do
  if ← dense j i then
    let n := (← getMin c.minClusters (j - 1)) + 1
    if n < (← get c.minClusters i) then
      return ⟨← set c.minClusters i n, ← set c.k i j⟩
    else return c
  else return c

def compClusters (len : Nat) : m (Nat × List Int) := do
  let c ← (forRange 0 ((len : Int) - 1)).foldlM
    (fun c i => (forRange 0 i).foldlM (clusterStep dense i) c)
    ⟨List.replicate len (maxInt W), List.replicate len 0⟩
  return (← get c.minClusters ((len : Int) - 1), c.k)

end CompClusters

/-- The local table of `make_switch`: the indices of the actions. -/
structure Indices where
  t : List (Nat × Nat)
  index : Nat

def Indices.getIndex (x : Indices) (act : Nat) : Nat × Indices :=
  match x.t.lookup act with
  | some i => (i, x)
  | none => (x.index, ⟨(act, x.index) :: x.t, x.index + 1⟩)

/-- One case of a jump table. -/
def fillCase (ll : Int) (st : Indices × List Nat) (c : Case) : Except Exn (Indices × List Nat) := do
  let (l, h, act) := c
  let (index, x) := st.1.getIndex act
  let tbl ← (forRange (wrap W (l - ll)) (wrap W (h - ll))).foldlM (fun tbl kk => set tbl kk index)
    st.2
  return (x, tbl)

def makeSwitch (loc : A.Loc) (s : Inter A.Act) (i j : Int) :
    Except Exn (Ctx A → M A.Act) := do
  let ll ← getLow s.cases i
  let hh ← getHigh s.cases j
  let tbl ← make (wrap W (hh - ll + 1)) 0
  let (x, tbl) ← (forRange i j).foldlM (fun st k => do fillCase W ll st (← get s.cases k))
    (⟨[], 0⟩, tbl)
  let acts ← make x.index (← get s.actions 0)
  let acts ← x.t.foldlM (fun acts p => do set acts p.2 (← get s.actions p.1)) acts
  return fun ctx => do
    let off := wrap W (-ll - ctx.off)
    if off = 0 then named (A.makeSwitch loc ctx.arg tbl acts)
    else
      let (arg, close) ← named (A.bind (A.makeOffset ctx.arg off))
      let code ← named (A.makeSwitch loc arg tbl acts)
      return close code

/-- The local variables of `make_clusters`: the cases of the clusters, and their actions by keys. -/
structure Building (A : S) where
  r : Cases
  t : List (Nat × Nat × (Ctx A → M A.Act))
  index : Nat
  bidon : Nat

def Building.getIndex (actions : List A.Act) (b : Building A) (act : Nat) : Nat × Building A :=
  match b.t.lookup act with
  | some (i, _) => (i, b)
  | none =>
    (b.index, { b with
      t := (act, b.index, fun _ => get actions act) :: b.t
      index := b.index + 1 })

def Building.addIndex (b : Building A) (act : Ctx A → M A.Act) : Nat × Building A :=
  (b.index, { b with
    t := (b.bidon + 1, b.index, act) :: b.t
    index := b.index + 1
    bidon := b.bidon + 1 })

/-- One cluster, which is a case or a jump table. -/
def addCluster (loc : A.Loc) (s : Inter A.Act) (i j ir : Int) (b : Building A) :
    Except Exn (Building A) := do
  if i = j then
    let (l, h, act) ← get s.cases i
    let (index, b) := b.getIndex s.actions act
    return { b with r := ← set b.r ir (l, h, index) }
  else
    let l ← getLow s.cases i
    let h ← getHigh s.cases j
    let (index, b) := b.addIndex (← makeSwitch W loc s i j)
    return { b with r := ← set b.r ir (l, h, index) }

/-- The local function `zyva` of `make_clusters`; the first argument bounds its recursion. -/
def makeClustersFrom (loc : A.Loc) (s : Inter A.Act) (k : List Int) :
    Nat → Int → Int → Building A → Except Exn (Building A)
  | 0, _, _, _ => .error .depthBound
  | depth + 1, j, ir, b => do
    let i ← get k j
    let b ← addCluster W loc s i j ir b
    if i > 0 then makeClustersFrom loc s k depth (i - 1) (ir - 1) b else return b

def makeClusters (loc : A.Loc) (s : Inter A.Act) (nClusters : Nat) (k : List Int) :
    Except Exn (Inter (Ctx A → M A.Act)) := do
  let len := s.cases.length
  let r ← make nClusters (0, 0, 0)
  let b ← makeClustersFrom W loc s k len ((len : Int) - 1) ((nClusters : Int) - 1)
    ⟨r, [], 0, s.actions.length⟩
  let acts ← make b.index fun _ => throw .assertFailure
  let acts ← b.t.foldlM (fun acts p => set acts p.2.1 p.2.2) acts
  return ⟨b.r, acts⟩

end Clusters

end TravLang.Switch
