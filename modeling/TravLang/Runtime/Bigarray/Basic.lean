import TravLang.Lib.Result
import TravLang.Runtime.Mlvalues

/-!
# Bigarrays (`runtime/bigarray.c`)

Allocation, indexing and the operations that make a view of the elements of another bigarray. Words
wrap around, as the C code is compiled with `-fwrapv`. A dimension is read and written by its
number: an access outside of `dim[0..num_dims-1]` is an error of its own.

The kind and the layout of the flags are kept. The other flags and the proxies are for finalisation,
which is outside of the model; the proxy of a view does not change its data nor its dimensions.
-/

namespace TravLang.Runtime.Bigarray

inductive Exn where
  | outOfMemory
  | invalidArgument (msg : String)
  /-- `caml_array_bound_error` -/
  | arrayBound
  /-- a read or a write outside of `dim[0..num_dims-1]`, or of the array for the indices -/
  | badDim
  deriving DecidableEq, Repr

/-- `enum caml_ba_kind` -/
inductive Kind where
  | float32
  | float64
  | sint8
  | uint8
  | sint16
  | uint16
  | int32
  | int64
  | camlInt
  | nativeInt
  | complex32
  | complex64
  | char
  | float16
  deriving DecidableEq, Repr

/-- `caml_ba_element_size` -/
def Kind.elementSize (host : Host) : Kind → Nat
  | float32 => 4
  | float64 => 8
  | sint8 => 1
  | uint8 => 1
  | sint16 => 2
  | uint16 => 2
  | int32 => 4
  | int64 => 8
  | camlInt => host.wordSize
  | nativeInt => host.wordSize
  | complex32 => 8
  | complex64 => 16
  | char => 1
  | float16 => 2

/-- `enum caml_ba_layout` -/
inductive Layout where
  /-- row major, indices start at 0 -/
  | c
  /-- column major, indices start at 1 -/
  | fortran
  deriving DecidableEq, Repr

def camlBaMaxNumDims : Nat := 16

/-- `struct caml_ba_array` -/
structure BaArray where
  /-- an address; 0 is `NULL` -/
  data : Nat
  kind : Kind
  layout : Layout
  dim : List Int
  deriving DecidableEq, Repr

namespace BaArray

def numDims (b : BaArray) : Nat := b.dim.length

def elementSize (host : Host) (b : BaArray) : Nat := b.kind.elementSize host

/-- `b->dim[i]` -/
def readDim (b : BaArray) (i : Int) : Except Exn Int :=
  if 0 ≤ i then
    match b.dim[i.toNat]? with
    | some d => .ok d
    | none => .error .badDim
  else .error .badDim

/-- `b->dim[i] = d` -/
def writeDim (b : BaArray) (i d : Int) : Except Exn BaArray :=
  if 0 ≤ i ∧ i < b.numDims then .ok { b with dim := b.dim.set i.toNat d } else .error .badDim

end BaArray

/-- `(char *) data + n` -/
def pointerAdd (host : Host) (data : Nat) (n : Int) : Nat := host.uintnat (data + n)

/-- `caml_umul_overflow`; `none` is an overflow. -/
def camlUmulOverflow (host : Host) (a b : Nat) : Option Nat :=
  if a * b < 2 ^ host.wordBits then some (a * b) else none

/-- `caml_ba_num_elts` -/
def camlBaNumElts (host : Host) (b : BaArray) : Nat :=
  b.dim.foldl (fun numElts (d : Int) => host.uintnat (numElts * d)) 1

/-- The number of elements in `caml_ba_alloc`, with a check at each multiplication -/
def checkedNumElts (host : Host) (dim : List Int) : Option Nat :=
  dim.foldlM (fun numElts (d : Int) => camlUmulOverflow host numElts (host.uintnat d)) 1

/-- What `malloc` returns; `none` is `NULL`. -/
abbrev Malloc := Nat → Option Nat

/-- `caml_ba_alloc` -/
def camlBaAlloc (host : Host) (malloc : Malloc) (kind : Kind) (layout : Layout) (data : Nat)
    (dim : List Int) : Except Exn BaArray :=
  match checkedNumElts host dim with
  | none => .error .outOfMemory
  | some numElts =>
    match camlUmulOverflow host numElts (kind.elementSize host) with
    | none => .error .outOfMemory
    | some size =>
      if data = 0 then
        match malloc size with
        | some data => .ok { data, kind, layout, dim }
        | none => if size ≠ 0 then .error .outOfMemory else .ok { data := 0, kind, layout, dim }
      else .ok { data, kind, layout, dim }

/-- `caml_ba_create` -/
def camlBaCreate (host : Host) (malloc : Malloc) (kind : Kind) (layout : Layout)
    (vdim : List Int) : Except Exn BaArray :=
  if vdim.length > camlBaMaxNumDims then
    .error (.invalidArgument "Bigarray.create: bad number of dimensions")
  else if vdim.any (· < 0) then
    .error (.invalidArgument "Bigarray.create: negative dimension")
  else camlBaAlloc host malloc kind layout 0 vdim

/-! ## Indexing -/

/-- The loops of `caml_ba_offset`, over pairs of a dimension and an index that starts at 0 -/
def offsetLoop (host : Host) : Int → List (Int × Int) → Except Exn Int
  | offset, [] => .ok offset
  | offset, (dim, index) :: rest =>
    if host.uintnat index ≥ host.uintnat dim then .error .arrayBound
    else offsetLoop host (host.intnat (offset * dim + index)) rest

/-- `caml_ba_offset`, of an index for each dimension -/
def camlBaOffset (host : Host) (b : BaArray) (index : List Int) : Except Exn Int :=
  match b.layout with
  | .c => offsetLoop host 0 (b.dim.zip index)
  | .fortran =>
    offsetLoop host 0 ((b.dim.zip index).reverse.map fun (d, i) => (d, host.intnat (i - 1)))

/-- The address of an element -/
def elementAddress (host : Host) (b : BaArray) (offset : Int) : Nat :=
  pointerAdd host b.data (offset * b.elementSize host)

/-- `caml_ba_get_N`, up to the conversion of the bytes of the element -/
def camlBaGetN (host : Host) (mem : Nat → UInt8) (b : BaArray) (vind : List Int) :
    Except Exn (List UInt8) := do
  if vind.length ≠ b.numDims then
    throw (.invalidArgument "Bigarray.get: wrong number of indices")
  let offset ← camlBaOffset host b vind
  return (List.range (b.elementSize host)).map fun i => mem (elementAddress host b offset + i)

/-! ## Views -/

/-- `caml_ba_slice` -/
def camlBaSlice (host : Host) (malloc : Malloc) (b : BaArray) (vind : List Int) :
    Except Exn BaArray := do
  -- an `int`, which a word is cut to
  let numInds := (vind.length : Int).bmod (2 ^ 32)
  if numInds > b.numDims then
    throw (.invalidArgument "Bigarray.slice: too many indices")
  if numInds < 0 ∧ b.layout = .fortran ∧ b.numDims - numInds > camlBaMaxNumDims then throw .badDim
  let index :=
    match b.layout with
    | .c => vind.take numInds.toNat ++ List.replicate (b.numDims - numInds.toNat) 0
    | .fortran => List.replicate (b.numDims - numInds.toNat) 1 ++ vind.take numInds.toNat
  let offset ← camlBaOffset host b index
  -- `num_dims - num_inds` dimensions are read
  if numInds < 0 then throw .badDim
  let subDims :=
    match b.layout with
    | .c => b.dim.drop numInds.toNat
    | .fortran => b.dim.take (b.numDims - numInds.toNat)
  camlBaAlloc host malloc b.kind b.layout (elementAddress host b offset) subDims

/-- `caml_ba_change_layout` -/
def camlBaChangeLayout (host : Host) (malloc : Malloc) (b : BaArray) (layout : Layout) :
    Except Exn BaArray :=
  if layout ≠ b.layout then camlBaAlloc host malloc b.kind layout b.data b.dim.reverse
  else .ok b

/-- The product of dimensions in `caml_ba_sub` -/
def mulDims (host : Host) (dim : List Int) : Int := dim.foldl (fun mul d => host.intnat (mul * d)) 1

/-- `caml_ba_sub` -/
def camlBaSub (host : Host) (malloc : Malloc) (b : BaArray) (vofs vlen : Int) :
    Except Exn BaArray := do
  let (mul, changedDim, ofs) :=
    match b.layout with
    | .c => (mulDims host (b.dim.drop 1), (0 : Int), vofs)
    | .fortran => (mulDims host b.dim.dropLast, (b.numDims : Int) - 1, host.intnat (vofs - 1))
  if ofs < 0 ∨ vlen < 0 then
    throw (.invalidArgument "Bigarray.sub: bad sub-array")
  let d ← b.readDim changedDim
  if host.intnat (ofs + vlen) > d then
    throw (.invalidArgument "Bigarray.sub: bad sub-array")
  let subData := pointerAdd host b.data (ofs * mul * b.elementSize host)
  let res ← camlBaAlloc host malloc b.kind b.layout subData b.dim
  res.writeDim changedDim vlen

/-- `caml_ba_reshape` -/
def camlBaReshape (host : Host) (malloc : Malloc) (b : BaArray) (vdim : List Int) :
    Except Exn BaArray :=
  if vdim.length > camlBaMaxNumDims then
    .error (.invalidArgument "Bigarray.reshape: bad number of dimensions")
  else if vdim.any (· < 0) then
    .error (.invalidArgument "Bigarray.reshape: negative dimension")
  else if vdim.foldl (fun numElts (d : Int) => host.uintnat (numElts * d)) 1 ≠
      camlBaNumElts host b then
    .error (.invalidArgument "Bigarray.reshape: size mismatch")
  else camlBaAlloc host malloc b.kind b.layout b.data vdim

inductive Op where
  | sub (ofs len : Int)
  | slice (vind : List Int)
  | changeLayout (layout : Layout)
  | reshape (vdim : List Int)
  deriving DecidableEq, Repr

/-- A view of a bigarray -/
def Op.apply (host : Host) (malloc : Malloc) (b : BaArray) : Op → Except Exn BaArray
  | .sub ofs len => camlBaSub host malloc b ofs len
  | .slice vind => camlBaSlice host malloc b vind
  | .changeLayout layout => camlBaChangeLayout host malloc b layout
  | .reshape vdim => camlBaReshape host malloc b vdim

end TravLang.Runtime.Bigarray
