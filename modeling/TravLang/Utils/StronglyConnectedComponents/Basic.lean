import Mathlib.Data.Finset.Sort
import TravLang.Lib.DepthFirst
import TravLang.Stdlib.Set.Basic

/-!
# Strongly connected components (`utils/strongly_connected_components.ml`)

An `int list array` whose entries are indices of the array is a function `Fin n → List (Fin n)`;
the other arrays with one cell for each node are functions on `Fin n` too, and an assignment is
`Function.update`. The arrays with one cell for each component are lists, since their length is
computed; an index out of bounds raises.

The two recursive searches are `DepthFirst.visit` with a depth bound above the number of nodes.
-/

namespace TravLang.StronglyConnectedComponents

open Function
open DepthFirst (Marking visit)

/-- The exceptions of the module, and the end of the depth bound of a search. -/
inductive Exn where
  | invalidArg (msg : String)
  | notFound
  | assertFailure
  | fatalError (msg : String)
  | depthBound
  deriving DecidableEq, Repr

def Exn.ofMap : Map.Exn → Exn
  | .invalidArg msg => .invalidArg msg
  | .notFound => .notFound
  | .assertFailure => .assertFailure

def ofMap {β : Type} (res : Except Map.Exn β) : Except Exn β := res.mapError Exn.ofMap

def ofVisit {β : Type} (res : Option β) : Except Exn β :=
  match res with
  | some b => .ok b
  | none => .error .depthBound

/-! ## Arrays -/

def outOfBounds : Exn := .invalidArg "index out of bounds"

/-- `a.(i)`. -/
def get {β : Type} (a : List β) (i : Int) : Except Exn β :=
  if 0 ≤ i then
    match a[i.toNat]? with
    | some b => .ok b
    | none => .error outOfBounds
  else .error outOfBounds

/-- `a.(i) <- b`. -/
def set {β : Type} (a : List β) (i : Int) (b : β) : Except Exn (List β) :=
  if 0 ≤ i ∧ i.toNat < a.length then .ok (a.set i.toNat b) else .error outOfBounds

/-- `Array.init n f` for an `f` that may raise. -/
def arrayInit {n : Nat} {β : Type} (f : Fin n → Except Exn (List β)) :
    Except Exn (Fin n → List β) :=
  (List.finRange n).foldlM (fun a i => do return update a i (← f i)) fun _ => []

/-! ## `Kosaraju` -/

namespace Kosaraju

variable {n : Nat}

abbrev Graph (n : Nat) := Fin n → List (Fin n)

def transpose (graph : Graph n) : Graph n :=
  (List.finRange n).foldl (fun transposed src =>
    (graph src).foldl (fun transposed dst =>
      update transposed dst (src :: transposed dst)) transposed) fun _ => []

/-- The state of `depth_first_order`. The cells of the array `stack` below `pos` are a list, the
last one first. -/
structure Order (n : Nat) where
  marked : Fin n → Bool
  stack : List (Fin n)

/-- The function `aux` of `depth_first_order` marks a node and, after its successors, pushes it. -/
def orderMarking : Marking (Fin n) (Order n) where
  marked s v := s.marked v
  enter v s := { s with marked := update s.marked v true }
  leave v s := { s with stack := v :: s.stack }
  marked_enter v s w := by
    by_cases h : w = v <;> simp [update, h]
  marked_leave _ _ _ := rfl

def depthFirstOrder (graph : Graph n) : Except Exn (List (Fin n)) := do
  let s ← ofVisit <| (List.finRange n).foldlM
    (fun s i => visit orderMarking graph (n + 1) i s) ⟨fun _ => false, []⟩
  return s.stack

/-- The arrays of `mark`. -/
structure Marks (n : Nat) where
  marked : Fin n → Bool
  id : Fin n → Int

/-- The function `aux` of `mark` marks a node and gives it the current number. -/
def idMarking (count : Nat) : Marking (Fin n) (Marks n) where
  marked s v := s.marked v
  enter v s :=
    { marked := update s.marked v true, id := update s.id v count }
  leave _ s := s
  marked_enter v s w := by
    by_cases h : w = v <;> simp [update, h]
  marked_leave _ _ _ := rfl

/-- The body of the loop of `mark`. -/
def markStep (graph : Graph n) (st : Marks n × Nat) (node : Fin n) : Option (Marks n × Nat) :=
  if st.1.marked node then some st
  else (visit (idMarking st.2) graph (n + 1) node st.1).map fun s => (s, st.2 + 1)

/-- The loop reads `order` from its last cell down, which is the order of the list. -/
def mark (order : List (Fin n)) (graph : Graph n) : Except Exn ((Fin n → Int) × Nat) := do
  let graph := transpose graph
  let (s, count) ← ofVisit <| order.foldlM (markStep graph) (⟨fun _ => false, fun _ => -1⟩, 0)
  return (s.id, count)

def kosaraju (graph : Graph n) : Except Exn (Nat × (Fin n → Int)) := do
  let dfo ← depthFirstOrder graph
  let (components, ncomponents) ← mark dfo graph
  return (ncomponents, components)

structure ComponentGraph (n : Nat) where
  sortedConnectedComponents : List (List (Fin n))
  componentEdges : List (List Int)

def addComponentDep (graph : Graph n) (components : Fin n → Int) (node : Fin n)
    (set : Finset Int) : Finset Int :=
  (graph node).foldl (fun set dep => insert (components dep) set) set

/-- The body of the loop of `component_graph`. -/
def componentStep (graph : Graph n) (components : Fin n → Int)
    (st : List (List (Fin n)) × List (Finset Int)) (node : Fin n) :
    Except Exn (List (List (Fin n)) × List (Finset Int)) := do
  let component := components node
  let idScc ← set st.1 component (node :: (← get st.1 component))
  let edges ← set st.2 component
    (addComponentDep graph components node (← get st.2 component))
  return (idScc, edges)

def componentGraph (graph : Graph n) : Except Exn (ComponentGraph n) := do
  let (ncomponents, components) ← kosaraju graph
  let (idScc, edges) ← (List.finRange n).foldlM (componentStep graph components)
    (List.replicate ncomponents [], List.replicate ncomponents ∅)
  return { sortedConnectedComponents := idScc, componentEdges := edges.map fun s => s.sort }

end Kosaraju

/-! ## `Make` -/

variable {κ : Type}

/-- `directed_graph`. -/
abbrev DirectedGraph (κ : Type) := Map.T κ (Set.T κ)

inductive Component (κ : Type) where
  | hasLoop (ids : List κ)
  | noLoop (id : κ)
  deriving DecidableEq, Repr

/-- The result of `number`. -/
structure Numbering (κ : Type) where
  size : Nat
  forth : Fin size → κ
  integerGraph : Kosaraju.Graph size

/-- The function that `number` folds over the destinations of a node. -/
def addDest {n : Nat} (cmp : κ → κ → Int) (print : κ → String) (back : Map.T κ (Fin n))
    (dest : κ) (acc : Except Exn (List (Fin n))) : Except Exn (List (Fin n)) := do
  let acc ← acc
  match Map.find cmp dest back with
  | .ok v => return v :: acc
  | .error .notFound =>
    throw (.fatalError ("Strongly_connected_components: missing dependency " ++ print dest))
  | .error e => throw (Exn.ofMap e)

/-- `phys i` answers the physical equalities of the `i`-th `Id.Map.add`. -/
def number (cmp : κ → κ → Int) (print : κ → String) (phys : Nat → Map.PhysEq)
    (graph : DirectedGraph κ) : Except Exn (Numbering κ) := do
  let a := Map.bindings graph
  let size := a.length
  let forth : Fin size → κ := fun i => (a.get i).1
  let back ← ofMap <| (List.finRange size).foldlM
    (fun back (i : Fin size) => Map.add cmp (phys i) (forth i) i back) Map.empty
  let integerGraph ← arrayInit fun i : Fin size =>
    Set.fold (addDest cmp print back) (a.get i).2 (.ok [])
  return { size, forth, integerGraph }

/-- The function that `component_graph` applies to each component. -/
def nameComponent (num : Numbering κ) (componentEdges : List (List Int))
    (nodes : List (Fin num.size)) (component : Nat) : Except Exn (Component κ × List Int) :=
  match nodes with
  | [] => .error .assertFailure
  | [node] => do
    let edges ← get componentEdges component
    return (if node ∈ num.integerGraph node then .hasLoop [num.forth node]
      else .noLoop (num.forth node), edges)
  | nodes => do
    let edges ← get componentEdges component
    return (.hasLoop (nodes.map num.forth), edges)

def componentGraph (cmp : κ → κ → Int) (print : κ → String) (phys : Nat → Map.PhysEq)
    (graph : DirectedGraph κ) : Except Exn (List (Component κ × List Int)) := do
  let num ← number cmp print phys graph
  let cg ← Kosaraju.componentGraph num.integerGraph
  cg.sortedConnectedComponents.zipIdx.mapM fun nodes =>
    nameComponent num cg.componentEdges nodes.1 nodes.2

def connectedComponentsSortedFromRootsToLeaf (cmp : κ → κ → Int) (print : κ → String)
    (phys : Nat → Map.PhysEq) (graph : DirectedGraph κ) : Except Exn (List (Component κ)) := do
  return (← componentGraph cmp print phys graph).map Prod.fst

end TravLang.StronglyConnectedComponents
