import TravLang.Lib.Trail
import Mathlib.Data.Int.Order.Basic

/-!
# Type expressions and their log (`typing/types.ml`)

Type nodes, and the references inside of types, are mutable: they are the addresses of a heap. A
mutable record that is the argument of a constructor (`FKvar`, `Cvar`) is a reference of its own.
`None` is the result of a function that does not return: chains of links may be cyclic, and the
functions that follow them have fuel.
-/

namespace TravLang.Types

open Trail (Cell Log)

inductive Exn where
  | invalidArg (msg : String)
  | failure (msg : String)
  | assertFailure
  deriving DecidableEq, Repr

/-! ## Type expressions -/

/-- The address of a type node -/
abbrev TypeExpr := Nat

/-- `field_kind`; the argument is the address of the mutable field. -/
inductive FieldKind where
  | fkVar (r : Nat)
  | fkPublic
  | fkAbsent
  deriving DecidableEq, Repr

/-- `any field_kind_gen`, the contents of an `FKvar` -/
inductive AnyFieldKind where
  | fkPrivate
  | kind (k : FieldKind)
  deriving DecidableEq, Repr

/-- `commutable` -/
inductive Commutable where
  | cok
  | cvar (r : Nat)
  deriving DecidableEq, Repr

/-- `any commutable_gen`, the contents of a `Cvar` -/
inductive AnyCommutable where
  | cunknown
  | commu (c : Commutable)
  deriving DecidableEq, Repr

inductive RowField where
  | rfPresent (ty : Option TypeExpr)
  | rfEither (noArg : Bool) (argType : List TypeExpr) (matched : Bool) (ext : Nat)
  | rfAbsent
  deriving DecidableEq, Repr

/-- The contents of the field `ext` of `RFeither` -/
inductive RowFieldExt where
  | rfNone
  | field (f : RowField)
  deriving DecidableEq, Repr

inductive ArgLabel where
  | nolabel
  | labelled (s : String)
  | optional (s : String)
  deriving DecidableEq, Repr

section Desc

variable (Path Longident : Type)

inductive FixedExplanation where
  | univar (ty : TypeExpr)
  | fixedPrivate
  | reified (p : Path)
  | rigid
  deriving DecidableEq, Repr

structure RowDesc where
  rowFields : List (String × RowField)
  rowMore : TypeExpr
  rowClosed : Bool
  rowFixed : Option (FixedExplanation Path)
  rowName : Option (Path × List TypeExpr)
  deriving DecidableEq, Repr

inductive TypeDesc where
  | tvar (name : Option String)
  | tarrow (label : ArgLabel) (arg res : TypeExpr) (c : Commutable)
  | ttuple (tl : List TypeExpr)
  /-- with the address of its `abbrev_memo` -/
  | tconstr (p : Path) (args : List TypeExpr) (memo : Nat)
  /-- with the address of its name -/
  | tobject (fields : TypeExpr) (nm : Nat)
  | tfield (label : String) (k : FieldKind) (ty rest : TypeExpr)
  | tnil
  | tlink (ty : TypeExpr)
  | tsubst (ty : TypeExpr) (row : Option TypeExpr)
  | tvariant (row : RowDesc Path)
  | tunivar (name : Option String)
  | tpoly (ty : TypeExpr) (vars : List TypeExpr)
  | tpackage (p : Path) (fl : List (Longident × TypeExpr))
  deriving DecidableEq, Repr

/-- `transient_expr` -/
structure Node where
  desc : TypeDesc Path Longident
  level : Int
  scope : Int
  id : Int
  deriving DecidableEq, Repr

/-- Mutable references with contents in `α`: those with an address below `size` exist. -/
structure Refs (α : Type) where
  get : Nat → α
  size : Nat

structure Heap where
  nodes : Refs (Node Path Longident)
  /-- `(Path.t * type_expr list) option ref` -/
  names : Refs (Option (Path × List TypeExpr))
  rows : Refs RowFieldExt
  kinds : Refs AnyFieldKind
  commus : Refs AnyCommutable
  /-- `type_expr option ref` -/
  univars : Refs (Option TypeExpr)

inductive Change where
  | ctype (ty : TypeExpr) (desc : TypeDesc Path Longident)
  | ccompress (ty : TypeExpr) (desc desc' : TypeDesc Path Longident)
  | clevel (ty : TypeExpr) (level : Int)
  | cscope (ty : TypeExpr) (scope : Int)
  | cname (r : Nat) (v : Option (Path × List TypeExpr))
  | crow (r : Nat)
  | ckind (r : Nat)
  | ccommu (r : Nat)
  | cuniv (r : Nat) (v : Option TypeExpr)

/-- The global state: the log with its end `trail`, the last identifier of a node, and the one at
the last snapshot -/
structure State where
  heap : Heap Path Longident
  trail : Log (Change Path Longident)
  newId : Int
  lastSnapshot : Int

end Desc

def Refs.set {α : Type} (rs : Refs α) (r : Nat) (x : α) : Refs α :=
  { rs with get := Function.update rs.get r x }

/-- A new reference, at the address `size` -/
def Refs.alloc {α : Type} (rs : Refs α) (x : α) : Refs α :=
  ⟨Function.update rs.get rs.size x, rs.size + 1⟩

variable {Path Longident : Type}

namespace Heap

variable (h : Heap Path Longident)

def setDesc (ty : TypeExpr) (d : TypeDesc Path Longident) : Heap Path Longident :=
  { h with nodes := h.nodes.set ty { h.nodes.get ty with desc := d } }

def setLevel (ty : TypeExpr) (lv : Int) : Heap Path Longident :=
  { h with nodes := h.nodes.set ty { h.nodes.get ty with level := lv } }

def setScope (ty : TypeExpr) (sc : Int) : Heap Path Longident :=
  { h with nodes := h.nodes.set ty { h.nodes.get ty with scope := sc } }

def setName (r : Nat) (v : Option (Path × List TypeExpr)) : Heap Path Longident :=
  { h with names := h.names.set r v }

def setRow (r : Nat) (v : RowFieldExt) : Heap Path Longident := { h with rows := h.rows.set r v }

def setKind (r : Nat) (v : AnyFieldKind) : Heap Path Longident :=
  { h with kinds := h.kinds.set r v }

def setCommu (r : Nat) (v : AnyCommutable) : Heap Path Longident :=
  { h with commus := h.commus.set r v }

def setUnivar (r : Nat) (v : Option TypeExpr) : Heap Path Longident :=
  { h with univars := h.univars.set r v }

end Heap

namespace State

variable (st : State Path Longident)

def node (ty : TypeExpr) : Node Path Longident := st.heap.nodes.get ty

def setDesc (ty : TypeExpr) (d : TypeDesc Path Longident) : State Path Longident :=
  { st with heap := st.heap.setDesc ty d }

end State

def logChange (st : State Path Longident) (ch : Change Path Longident) : State Path Longident :=
  { st with trail := st.trail.push ch }

/-! ## Representatives -/

def fieldKindInternalRepr (h : Heap Path Longident) : Nat → FieldKind → Option FieldKind
  | 0, _ => none
  | fuel + 1, k =>
    match k with
    | .fkVar r =>
      match h.kinds.get r with
      | .kind fk => fieldKindInternalRepr h fuel fk
      | .fkPrivate => some k
    | k => some k

/-- The node that a `Tlink`, or a `Tfield` of an absent method, stands for -/
def nextLink (h : Heap Path Longident) (fuel : Nat) (d : TypeDesc Path Longident) :
    Option (Option TypeExpr) :=
  match d with
  | .tlink t' => some (some t')
  | .tfield _ k _ t' => do
    let k ← fieldKindInternalRepr h fuel k
    return if k = .fkAbsent then some t' else none
  | _ => some none

/-- `repr_link t d t'`: the path from `t` is compressed to `d`. -/
def reprLink (t : TypeExpr) : Nat → State Path Longident → TypeDesc Path Longident → TypeExpr →
    Option (TypeExpr × State Path Longident)
  | 0, _, _, _ => none
  | fuel + 1, st, d, t' => do
    let d' := (st.node t').desc
    match ← nextLink st.heap fuel d' with
    | some t'' => reprLink t fuel st d' t''
    | none =>
      let st := logChange st (.ccompress t (st.node t).desc d)
      return (t', st.setDesc t d)

def reprLink1 (fuel : Nat) (st : State Path Longident) (t t' : TypeExpr) :
    Option (TypeExpr × State Path Longident) := do
  let d' := (st.node t').desc
  match ← nextLink st.heap fuel d' with
  | some t'' => reprLink t fuel st d' t''
  | none => return (t', st)

def repr (fuel : Nat) (st : State Path Longident) (t : TypeExpr) :
    Option (TypeExpr × State Path Longident) := do
  match ← nextLink st.heap fuel (st.node t).desc with
  | some t' => reprLink1 fuel st t t'
  | none => return (t, st)

/-! ## Creators -/

/-- `create_expr` -/
def createExpr (st : State Path Longident) (desc : TypeDesc Path Longident) (level scope id : Int) :
    State Path Longident :=
  { st with heap := { st.heap with nodes := st.heap.nodes.alloc { desc, level, scope, id } } }

def newty3 (st : State Path Longident) (level scope : Int) (desc : TypeDesc Path Longident) :
    State Path Longident :=
  createExpr { st with newId := st.newId + 1 } desc level scope (st.newId + 1)

/-! ## Backtracking -/

def undoChange (ch : Change Path Longident) (h : Heap Path Longident) : Heap Path Longident :=
  match ch with
  | .ctype ty desc => h.setDesc ty desc
  | .ccompress ty desc _ => h.setDesc ty desc
  | .clevel ty level => h.setLevel ty level
  | .cscope ty scope => h.setScope ty scope
  | .cname r v => h.setName r v
  | .crow r => h.setRow r .rfNone
  | .ckind r => h.setKind r .fkPrivate
  | .ccommu r => h.setCommu r .cunknown
  | .cuniv r v => h.setUnivar r v

def logType (st : State Path Longident) (ty : TypeExpr) : State Path Longident :=
  if (st.node ty).id ≤ st.lastSnapshot then logChange st (.ctype ty (st.node ty).desc) else st

def linkType (fuel : Nat) (st : State Path Longident) (ty ty' : TypeExpr) :
    Option (State Path Longident) := do
  let (ty, st) ← repr fuel st ty
  let (ty', st) ← repr fuel st ty'
  if ty = ty' then return st
  else
    let st := logType st ty
    let desc := (st.node ty).desc
    let st := st.setDesc ty (.tlink ty')
    match desc, (st.node ty').desc with
    | .tvar name, .tvar name' =>
      match name, name' with
      | some _, none => return (logType st ty').setDesc ty' (.tvar name)
      | none, some _ => return st
      | some _, some _ =>
        if (st.node ty).level < (st.node ty').level then
          return (logType st ty').setDesc ty' (.tvar name)
        else return st
      | none, none => return st
    | _, _ => return st

/-- `set_type_desc`; `phys` says whether `td` is the very description of the node. -/
def setTypeDesc (fuel : Nat) (st : State Path Longident) (ty : TypeExpr)
    (td : TypeDesc Path Longident) (phys : Bool) : Option (State Path Longident) := do
  let (ty, st) ← repr fuel st ty
  if !phys then return (logType st ty).setDesc ty td else return st

def setLevel (fuel : Nat) (st : State Path Longident) (ty : TypeExpr) (level : Int) :
    Option (State Path Longident) := do
  let (ty, st) ← repr fuel st ty
  if level ≠ (st.node ty).level then
    let st := if (st.node ty).id ≤ st.lastSnapshot then
      logChange st (.clevel ty (st.node ty).level) else st
    return { st with heap := st.heap.setLevel ty level }
  else return st

def setScope (fuel : Nat) (st : State Path Longident) (ty : TypeExpr) (scope : Int) :
    Option (State Path Longident) := do
  let (ty, st) ← repr fuel st ty
  if scope ≠ (st.node ty).scope then
    let st := if (st.node ty).id ≤ st.lastSnapshot then
      logChange st (.cscope ty (st.node ty).scope) else st
    return { st with heap := st.heap.setScope ty scope }
  else return st

def setUnivar (st : State Path Longident) (rty : Nat) (ty : TypeExpr) : State Path Longident :=
  let st := logChange st (.cuniv rty (st.heap.univars.get rty))
  { st with heap := st.heap.setUnivar rty (some ty) }

def setName (st : State Path Longident) (nm : Nat) (v : Option (Path × List TypeExpr)) :
    State Path Longident :=
  let st := logChange st (.cname nm (st.heap.names.get nm))
  { st with heap := st.heap.setName nm v }

def linkRowFieldExt (st : State Path Longident) : Nat → RowField → RowField →
    Option (Except Exn (State Path Longident))
  | 0, _, _ => none
  | fuel + 1, inside, v =>
    match inside with
    | .rfEither _ _ _ e =>
      match st.heap.rows.get e with
      | .rfNone =>
        let st := logChange st (.crow e)
        some (.ok { st with heap := st.heap.setRow e (.field v) })
      | .field rf => linkRowFieldExt st fuel rf v
    | _ => some (.error (.invalidArg "Types.link_row_field_ext"))

def linkKind (st : State Path Longident) : Nat → FieldKind → FieldKind →
    Option (Except Exn (State Path Longident))
  | 0, _, _ => none
  | fuel + 1, inside, k =>
    match inside with
    | .fkVar rk =>
      match st.heap.kinds.get rk with
      | .fkPrivate => do
        -- prevent a loop by normalizing k and comparing it with inside
        let k ← fieldKindInternalRepr st.heap fuel k
        if k ≠ inside then
          let st := logChange st (.ckind rk)
          return .ok { st with heap := st.heap.setKind rk (.kind k) }
        else return .ok st
      | .kind inside => linkKind st fuel inside k
    | _ => some (.error (.invalidArg "Types.link_kind"))

def commuRepr (h : Heap Path Longident) : Nat → Commutable → Option Commutable
  | 0, _ => none
  | fuel + 1, c =>
    match c with
    | .cvar r =>
      match h.commus.get r with
      | .commu c => commuRepr h fuel c
      | .cunknown => some c
    | c => some c

def linkCommu (st : State Path Longident) : Nat → Commutable → Commutable →
    Option (Except Exn (State Path Longident))
  | 0, _, _ => none
  | fuel + 1, inside, c =>
    match inside with
    | .cvar rc =>
      match st.heap.commus.get rc with
      | .cunknown => do
        -- prevent a loop by normalizing c and comparing it with inside
        let c ← commuRepr st.heap fuel c
        if c ≠ inside then
          let st := logChange st (.ccommu rc)
          return .ok { st with heap := st.heap.setCommu rc (.commu c) }
        else return .ok st
      | .commu inside => linkCommu st fuel inside c
    | _ => some (.error (.invalidArg "Types.link_commu"))

structure Snapshot where
  changes : Nat
  old : Int
  deriving DecidableEq, Repr

def snapshot (st : State Path Longident) : Snapshot × State Path Longident :=
  (⟨st.trail.last, st.lastSnapshot⟩, { st with lastSnapshot := st.newId })

/-- `rev_log`, with the cells that it makes invalid -/
def revLog {χ : Type} : Nat → List χ → Cell χ → (Nat → Cell χ) →
    Except Exn (List χ × (Nat → Cell χ))
  | _, accu, .unchanged, cells => .ok (accu, cells)
  | _, _, .invalid, _ => .error .assertFailure
  | 0, _, .change _ _, _ => .error .assertFailure
  | fuel + 1, accu, .change ch next, cells =>
    revLog fuel (ch :: accu) (cells next) (Function.update cells next .invalid)

/-- `backtrack`; a cell points to a younger one, so that there are less than `size` to follow. -/
def backtrack (st : State Path Longident) (s : Snapshot) : Except Exn (State Path Longident) :=
  match st.trail.cells s.changes with
  | .unchanged => .ok { st with lastSnapshot := s.old }
  | .invalid => .error (.failure "Types.backtrack")
  | .change ch next => do
    let (backlog, cells) ← revLog st.trail.size [] (.change ch next) st.trail.cells
    let heap := backlog.foldl (fun h ch => undoChange ch h) st.heap
    return { st with
      heap
      trail := { st.trail with
        cells := Function.update cells s.changes .unchanged
        last := s.changes }
      lastSnapshot := s.old }

/-! ## Sequences -/

/-- The operations of a client -/
inductive Op (Path Longident : Type) where
  | repr (ty : TypeExpr)
  | linkType (ty ty' : TypeExpr)
  | setTypeDesc (ty : TypeExpr) (td : TypeDesc Path Longident) (phys : Bool)
  | setLevel (ty : TypeExpr) (level : Int)
  | setScope (ty : TypeExpr) (scope : Int)
  | setUnivar (rty : Nat) (ty : TypeExpr)
  | setName (nm : Nat) (v : Option (Path × List TypeExpr))
  | linkRowFieldExt (inside v : RowField)
  | linkKind (inside k : FieldKind)
  | linkCommu (inside c : Commutable)
  | newty3 (level scope : Int) (desc : TypeDesc Path Longident)
  /-- the nodes of saved signatures, whose identifiers are negative -/
  | newpersty (desc : TypeDesc Path Longident) (level scope : Int) (n : Nat)
  | newName (v : Option (Path × List TypeExpr))
  | newRow
  | newKind
  | newCommu
  | newUnivar (v : Option TypeExpr)
  | snapshot
  /-- a backtrack to the snapshot at an index of those that were taken -/
  | backtrack (k : Nat)

/-- The state after a call that has returned or raised an exception -/
def settled (st : State Path Longident) (res : Option (Except Exn (State Path Longident))) :
    Option (State Path Longident) :=
  res.map fun
    | .ok st' => st'
    | .error _ => st

/-- An operation that is not a snapshot or a backtrack -/
def execPlain (fuel : Nat) (st : State Path Longident) :
    Op Path Longident → Option (State Path Longident)
  | .repr ty => (repr fuel st ty).map Prod.snd
  | .linkType ty ty' => linkType fuel st ty ty'
  | .setTypeDesc ty td phys => setTypeDesc fuel st ty td phys
  | .setLevel ty level => setLevel fuel st ty level
  | .setScope ty scope => setScope fuel st ty scope
  | .setUnivar rty ty => some (setUnivar st rty ty)
  | .setName nm v => some (setName st nm v)
  | .linkRowFieldExt inside v => settled st (linkRowFieldExt st fuel inside v)
  | .linkKind inside k => settled st (linkKind st fuel inside k)
  | .linkCommu inside c => settled st (linkCommu st fuel inside c)
  | .newty3 level scope desc => some (newty3 st level scope desc)
  | .newpersty desc level scope n => some (createExpr st desc level scope (-(n : Int) - 1))
  | .newName v => some { st with heap := { st.heap with names := st.heap.names.alloc v } }
  | .newRow => some { st with heap := { st.heap with rows := st.heap.rows.alloc .rfNone } }
  | .newKind => some { st with heap := { st.heap with kinds := st.heap.kinds.alloc .fkPrivate } }
  | .newCommu => some { st with heap := { st.heap with commus := st.heap.commus.alloc .cunknown } }
  | .newUnivar v => some { st with heap := { st.heap with univars := st.heap.univars.alloc v } }
  | .snapshot => none
  | .backtrack _ => none

/-- One operation, given the snapshots that have been taken -/
def exec (fuel : Nat) (st : State Path Longident) (taken : List Snapshot) :
    Op Path Longident → Option (State Path Longident × List Snapshot)
  | .snapshot =>
    let (s, st) := snapshot st
    some (st, taken ++ [s])
  | .backtrack k => do
    let s ← taken[k]?
    let st ← settled st (some (backtrack st s))
    return (st, taken)
  | op => do
    let st ← execPlain fuel st op
    return (st, taken)

/-- A sequence of operations, all of which return or raise an exception -/
def run (fuel : Nat) : State Path Longident → List Snapshot → List (Op Path Longident) →
    Option (State Path Longident × List Snapshot)
  | st, taken, [] => some (st, taken)
  | st, taken, op :: ops => do
    let (st, taken) ← exec fuel st taken op
    run fuel st taken ops

/-- The state at the start of the type checker -/
def initial : State Path Longident where
  heap := ⟨⟨fun _ => ⟨.tnil, 0, 0, 0⟩, 0⟩, ⟨fun _ => none, 0⟩, ⟨fun _ => .rfNone, 0⟩,
    ⟨fun _ => .fkPrivate, 0⟩,
    ⟨fun _ => .cunknown, 0⟩, ⟨fun _ => none, 0⟩⟩
  trail := .empty
  newId := -1
  lastSnapshot := 0

end TravLang.Types
