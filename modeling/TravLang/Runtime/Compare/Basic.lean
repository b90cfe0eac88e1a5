import TravLang.Lib.Binary64
import TravLang.Lib.Result
import TravLang.Lib.Simulation
import TravLang.Runtime.Mlvalues

/-!
# Structural comparison (`runtime/compare.c`)

`do_compare_val` is a machine: a step is one round of its inner loop, or the polling between two
runs of that loop. The functions of custom blocks, the memory for a larger stack and the pending
actions are those of a `System`; pending actions leave the values as they are.
-/

namespace TravLang.Runtime

/-- `struct custom_operations`, with what comparison and hashing use. A function is known by its
address. -/
structure CustomOps where
  identifier : Bytes
  compare : Option Nat
  compareExt : Option Nat
  hash : Option Nat
  deriving DecidableEq, Repr

/-- The block that a value points to. -/
def Heap.obj {C : Type} (heap : Heap C) : Value → Option (Obj Value C)
  | .long _ => none
  | .atom tag => some (.structured tag [])
  | .block a => heap.get a

namespace Compare

inductive Exn where
  | outOfMemory
  | invalidArgument (msg : String)
  /-- raised by a pending action, or by a function of a custom block -/
  | raised (e : Nat)
  /-- a read outside of the blocks of the heap: undefined behaviour in C -/
  | badAccess
  deriving DecidableEq, Repr

/-- What comparison gets from the rest of the system. -/
structure System where
  /-- whether the `compare` function at an address leaves `compare_unordered` set, with its result
  -/
  call : Nat → Value → Value → Except Exn (Int × Bool)
  /-- whether there is memory for a stack of so many items -/
  alloc : Nat → Bool
  /-- the exception that pending actions raise when they are run, if any -/
  pending : Nat → Option Nat

def compareStackInitSize : Nat := 8
def compareStackMinAllocSize : Nat := 32
def compareStackMaxSize : Nat := 1024 * 1024
def comparePollPeriod : Nat := 1024

def LESS : Int := -1
def EQUAL : Int := 0
def GREATER : Int := 1

/-- The smallest `intnat` -/
def UNORDERED (host : Host) : Int := -2 ^ (host.wordBits - 1)

/-- `memcmp` on the first `n` bytes -/
def memcmp : Bytes → Bytes → Nat → Int
  | a :: s1, b :: s2, n + 1 => if a = b then memcmp s1 s2 n else (a.toNat : Int) - b.toNat
  | _, _, _ => 0

def strcmp : Bytes → Bytes → Int
  | a :: s1, b :: s2 => if a = b then strcmp s1 s2 else (a.toNat : Int) - b.toNat
  | [], [] => 0
  | [], b :: _ => -(b.toNat : Int)
  | a :: _, [] => a.toNat

/-- What follows from a comparison of two values. -/
inductive Next where
  | returns (r : Int)
  | nextItem
  /-- compare these values instead -/
  | continues (v1 v2 : Value)
  /-- compare the fields of two blocks of the same size -/
  | fields (fields1 fields2 : List Value)
  deriving DecidableEq, Repr

/-- `Forward_val` -/
def forwardVal {C : Type} (o : Obj Value C) : Except Exn Value :=
  match o.fields with
  | v :: _ => .ok v
  | [] => .error .badAccess

/-- `Oid_val` -/
def oidVal {C : Type} (o : Obj Value C) : Except Exn Int :=
  match o.fields with
  | _ :: .long n :: _ => .ok n
  | _ => .error .badAccess

/-- A call to the `compare` or the `compare_ext` function of a custom block -/
def callCompare (host : Host) (sys : System) (total : Bool) (compare : Nat) (v1 v2 : Value) :
    Except Exn Next := do
  let (res, compareUnordered) ← sys.call compare v1 v2
  if compareUnordered && !total then
    return .returns (UNORDERED host)
  if res ≠ 0 then
    return .returns res
  return .nextItem

/-- `v1` is an integer and `o2` the block of `v2`. -/
def compareLongBlock (host : Host) (sys : System) (total : Bool) (v1 v2 : Value)
    (o2 : Obj Value CustomOps) : Except Exn Next :=
  if o2.tag = forwardTag then do
    let v2 ← forwardVal o2
    return .continues v1 v2
  else
    match o2 with
    | .custom ⟨_, _, some compare, _⟩ _ => callCompare host sys total compare v1 v2
    | _ => .ok (.returns LESS)

/-- `o1` is the block of `v1`, and `v2` an integer. -/
def compareBlockLong (host : Host) (sys : System) (total : Bool) (v1 v2 : Value)
    (o1 : Obj Value CustomOps) : Except Exn Next :=
  if o1.tag = forwardTag then do
    let v1 ← forwardVal o1
    return .continues v1 v2
  else
    match o1 with
    | .custom ⟨_, _, some compare, _⟩ _ => callCompare host sys total compare v1 v2
    | _ => .ok (.returns GREATER)

def compareStrings (host : Host) (s1 s2 : Bytes) : Next :=
  let len1 := s1.length
  let len2 := s2.length
  let res := memcmp s1 s2 (if len1 ≤ len2 then len1 else len2)
  if res < 0 then .returns LESS
  else if res > 0 then .returns GREATER
  else if len1 ≠ len2 then .returns (host.intnat (len1 - len2))
  else .nextItem

/-- NaN is equal to itself and smaller than any other number, unless this is a partial comparison.
-/
def compareDoubles (host : Host) (total : Bool) (d1 d2 : UInt64) : Next :=
  if Binary64.lt d1 d2 then .returns LESS
  else if Binary64.lt d2 d1 then .returns GREATER
  else if Binary64.eq d1 d2 then .nextItem
  else if !total then .returns (UNORDERED host)
  else if Binary64.eq d1 d1 then .returns GREATER
  else if Binary64.eq d2 d2 then .returns LESS
  else .nextItem

/-- The loop over two float arrays -/
def compareDoubleArrays (host : Host) (total : Bool) : List UInt64 → List UInt64 → Next
  | d1 :: ds1, d2 :: ds2 =>
    match compareDoubles host total d1 d2 with
    | .nextItem => compareDoubleArrays host total ds1 ds2
    | next => next
  | _, _ => .nextItem

def compareCustom (host : Host) (sys : System) (total : Bool) (v1 v2 : Value)
    (ops1 ops2 : CustomOps) : Except Exn Next :=
  if ops1.compare ≠ ops2.compare then
    .ok (.returns (if strcmp ops1.identifier ops2.identifier < 0 then LESS else GREATER))
  else
    match ops1.compare with
    | none => .error (.invalidArgument "compare: abstract value")
    | some compare => callCompare host sys total compare v1 v2

/-- Two blocks of fields, with the tag `t1` -/
def compareStructured (host : Host) (t1 : Nat) (o1 o2 : Obj Value CustomOps) : Except Exn Next :=
  if t1 = forwardTag then do
    let v1 ← forwardVal o1
    let v2 ← forwardVal o2
    return .continues v1 v2
  else if t1 = closureTag ∨ t1 = infixTag then
    .error (.invalidArgument "compare: functional value")
  else if t1 = contTag then
    .error (.invalidArgument "compare: continuation value")
  else if t1 = objectTag then do
    let oid1 ← oidVal o1
    let oid2 ← oidVal o2
    return if oid1 ≠ oid2 then .returns (host.intnat (oid1 - oid2)) else .nextItem
  else
    let sz1 := o1.wosize host
    let sz2 := o2.wosize host
    if sz1 ≠ sz2 then .ok (.returns (host.intnat (sz1 - sz2)))
    else if sz1 = 0 then .ok .nextItem
    else .ok (.fields o1.fields o2.fields)

/-- The `switch` on the common tag `t1` of two blocks -/
def compareSameTag (host : Host) (sys : System) (total : Bool) (t1 : Nat) (v1 v2 : Value)
    (o1 o2 : Obj Value CustomOps) : Except Exn Next :=
  match o1, o2 with
  | .string s1, .string s2 => .ok (if v1 = v2 then .nextItem else compareStrings host s1 s2)
  | .double d1, .double d2 => .ok (compareDoubles host total d1 d2)
  | .doubleArray ds1, .doubleArray ds2 =>
    if ds1.length ≠ ds2.length then
      .ok (.returns (host.intnat (ds1.length - ds2.length)))
    else .ok (compareDoubleArrays host total ds1 ds2)
  | .abstract _, .abstract _ => .error (.invalidArgument "compare: abstract value")
  | .custom ops1 _, .custom ops2 _ => compareCustom host sys total v1 v2 ops1 ops2
  | .structured _ _, .structured _ _ =>
    if t1 < abstractTag then compareStructured host t1 o1 o2
    else .error .badAccess
  | _, _ => .error .badAccess

/-- A pointer into a closure is compared as a closure. -/
def closureTagOf (t : Nat) : Nat := if t = infixTag then closureTag else t

def compareBlocks (host : Host) (sys : System) (total : Bool) (v1 v2 : Value)
    (o1 o2 : Obj Value CustomOps) : Except Exn Next :=
  let t1 := o1.tag
  let t2 := o2.tag
  if t1 ≠ t2 then
    if t1 = forwardTag then do
      let v1 ← forwardVal o1
      return .continues v1 v2
    else if t2 = forwardTag then do
      let v2 ← forwardVal o2
      return .continues v1 v2
    else
      let t1 := closureTagOf t1
      let t2 := closureTagOf t2
      if t1 ≠ t2 then .ok (.returns (host.intnat (t1 - t2)))
      else compareSameTag host sys total t1 v1 v2 o1 o2
  else compareSameTag host sys total t1 v1 v2 o1 o2

/-- The block of a value that is not an integer -/
def blockOf (heap : Heap CustomOps) (v : Value) : Except Exn (Obj Value CustomOps) :=
  match heap.obj v with
  | some o => .ok o
  | none => .error .badAccess

/-- The body of the inner loop, up to `next_item` -/
def compareValues (host : Host) (heap : Heap CustomOps) (sys : System) (total : Bool)
    (v1 v2 : Value) : Except Exn Next :=
  if v1 = v2 ∧ total then .ok .nextItem
  else
    match v1, v2 with
    | .long n1, .long n2 =>
      if n1 = n2 then .ok .nextItem else .ok (.returns (host.intnat (n1 - n2)))
    | .long _, _ => do
      compareLongBlock host sys total v1 v2 (← blockOf heap v2)
    | _, .long _ => do
      compareBlockLong host sys total v1 v2 (← blockOf heap v1)
    | _, _ => do
      compareBlocks host sys total v1 v2 (← blockOf heap v1) (← blockOf heap v2)

/-! ## The stack -/

/-- `struct compare_item`: two blocks, with the fields from `offset` on still to be compared -/
structure CompareItem where
  v1 : Value
  v2 : Value
  offset : Nat
  size : Nat
  deriving DecidableEq, Repr

/-- The variables of `do_compare_val` and its `struct compare_stack` -/
structure State where
  v1 : Value
  v2 : Value
  /-- the items up to `sp`, the last one first -/
  stack : List CompareItem
  /-- `stk->stack != stk->init_stack` -/
  allocated : Bool
  /-- the items that the stack has room for -/
  limit : Nat
  pollTimer : Nat
  /-- how often pending actions have been run -/
  polls : Nat
  deriving DecidableEq, Repr

/-- `Field(v, i)`, with the heap for memory -/
def field (heap : Heap CustomOps) (v : Value) (i : Nat) : Except Exn Value :=
  match heap.obj v with
  | some o =>
    match o.fields[i]? with
    | some u => .ok u
    | none => .error .badAccess
  | none => .error .badAccess

/-- `compare_resize_stack` -/
def compareResizeStack (sys : System) (s : State) : Except Exn State :=
  let newsize := if s.allocated then 2 * s.limit else compareStackMinAllocSize
  if s.allocated ∧ newsize ≥ compareStackMaxSize then .error .outOfMemory
  else if sys.alloc newsize then .ok { s with allocated := true, limit := newsize }
  else .error .outOfMemory

/-- Remember the fields `1 ... sz - 1` of `s.v1` and `s.v2`. -/
def pushItem (sys : System) (s : State) (sz : Nat) : Except Exn State :=
  if sz > 1 then do
    let s ← if s.stack.length ≥ s.limit then compareResizeStack sys s else pure s
    return { s with stack := ⟨s.v1, s.v2, 1, sz⟩ :: s.stack }
  else return s

/-- The comparison goes on with the fields of `s.v1` and `s.v2`. -/
def pushFields (heap : Heap CustomOps) (sys : System) (s : State) (sz : Nat) :
    Except Exn State := do
  let s ← pushItem sys s sz
  let v1 ← field heap s.v1 0
  let v2 ← field heap s.v2 0
  return { s with v1, v2 }

/-- The code at `next_item` -/
def nextItem (heap : Heap CustomOps) (s : State) : State ⊕ Except Exn Int :=
  match s.stack with
  | [] => .inr (.ok EQUAL)
  | last :: stack =>
    match field heap last.v1 last.offset, field heap last.v2 last.offset with
    | .ok v1, .ok v2 =>
      let offset := last.offset + 1
      .inl { s with
        v1, v2, stack := if offset = last.size then stack else { last with offset } :: stack }
    | .error e, _ => .inr (.error e)
    | _, .error e => .inr (.error e)

/-- `run_pending_actions`, after which the inner loop starts again -/
def pollStep (sys : System) (s : State) : State ⊕ Except Exn Int :=
  match sys.pending s.polls with
  | some e => .inr (.error (.raised e))
  | none => .inl { s with pollTimer := comparePollPeriod, polls := s.polls + 1 }

/-- One round of `do_compare_val` -/
def compareStep (host : Host) (heap : Heap CustomOps) (sys : System) (total : Bool) (s : State) :
    State ⊕ Except Exn Int :=
  let s := { s with pollTimer := s.pollTimer - 1 }
  if s.pollTimer > 0 then
    match compareValues host heap sys total s.v1 s.v2 with
    | .error e => .inr (.error e)
    | .ok (.returns r) => .inr (.ok r)
    | .ok .nextItem => nextItem heap s
    | .ok (.continues v1 v2) => .inl { s with v1, v2 }
    | .ok (.fields fields1 _) =>
      match pushFields heap sys s fields1.length with
      | .ok s => .inl s
      | .error e => .inr (.error e)
  else pollStep sys s

/-- The state in which `compare_val` starts `do_compare_val` -/
def initial (v1 v2 : Value) : State where
  v1 := v1
  v2 := v2
  stack := []
  allocated := false
  limit := compareStackInitSize
  pollTimer := comparePollPeriod
  polls := 0

/-- `compare_val`; there is no result without enough fuel. -/
def compareVal (fuel : Nat) (host : Host) (heap : Heap CustomOps) (sys : System) (v1 v2 : Value)
    (total : Bool) : Option (Except Exn Int) :=
  Machine.run (compareStep host heap sys total) fuel (initial v1 v2)

/-! ## Primitives -/

section Primitives

variable (fuel : Nat) (host : Host) (heap : Heap CustomOps) (sys : System) (v1 v2 : Value)

/-- A primitive that compares, and returns what `result` makes of the outcome -/
def primitive {α : Type} (total : Bool) (result : Int → α) : Option (Except Exn α) :=
  (compareVal fuel host heap sys v1 v2 total).map (Except.map result)

def camlCompare : Option (Except Exn Int) :=
  primitive fuel host heap sys v1 v2 true fun res =>
    if res < 0 then LESS else if res > 0 then GREATER else EQUAL

def camlEqual : Option (Except Exn Bool) :=
  primitive fuel host heap sys v1 v2 false fun res => res = 0

def camlNotequal : Option (Except Exn Bool) :=
  primitive fuel host heap sys v1 v2 false fun res => res ≠ 0

def camlLessthan : Option (Except Exn Bool) :=
  primitive fuel host heap sys v1 v2 false fun res => res < 0 ∧ res ≠ UNORDERED host

def camlLessequal : Option (Except Exn Bool) :=
  primitive fuel host heap sys v1 v2 false fun res => res ≤ 0 ∧ res ≠ UNORDERED host

def camlGreaterthan : Option (Except Exn Bool) :=
  primitive fuel host heap sys v1 v2 false fun res => res > 0

def camlGreaterequal : Option (Except Exn Bool) :=
  primitive fuel host heap sys v1 v2 false fun res => res ≥ 0

end Primitives

end Compare

end TravLang.Runtime
