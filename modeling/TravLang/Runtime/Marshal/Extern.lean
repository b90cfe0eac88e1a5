import TravLang.Lib.BigEndian
import TravLang.Lib.LinearProbing
import TravLang.Lib.Simulation
import TravLang.Runtime.Mlvalues

/-!
# Marshalling (`runtime/extern.c`)

The traversal of a value is a machine: a state is the value to marshal next and the stack of fields
that are still to come. Output goes to one sequence of bytes, whereas the source fills a chain of
buffers. The traversal raises `Out_of_memory` when the size of its hash table overflows; memory
itself is never exhausted. `EXTERN_STACK_MAX_SIZE` and `INTERN_STACK_MAX_SIZE` are left out: the
reader pushes an item for a block of size 1 and the writer does not, so `2 ^ 26 - 1` pairs nested to
the left around `Some 0` are written and not read.

Code pointers are not modelled: a closure raises `unsupported`.
-/

namespace TravLang.Runtime.Marshal

open BigEndian

inductive Exn where
  | failure (msg : String)
  | invalidArgument (msg : String)
  | fatalError (msg : String)
  | outOfMemory
  /-- an access outside of the memory that the code owns -/
  | outOfBounds
  /-- closures -/
  | unsupported
  deriving DecidableEq, Repr

/-! ## The codes of `intext.h` -/

def prefixSmallBlock : Nat := 0x80
def prefixSmallInt : Nat := 0x40
def prefixSmallString : Nat := 0x20

@[match_pattern] def codeInt8 : Nat := 0x0
@[match_pattern] def codeInt16 : Nat := 0x1
@[match_pattern] def codeInt32 : Nat := 0x2
@[match_pattern] def codeInt64 : Nat := 0x3
@[match_pattern] def codeShared8 : Nat := 0x4
@[match_pattern] def codeShared16 : Nat := 0x5
@[match_pattern] def codeShared32 : Nat := 0x6
@[match_pattern] def codeShared64 : Nat := 0x14
@[match_pattern] def codeBlock32 : Nat := 0x8
@[match_pattern] def codeBlock64 : Nat := 0x13
@[match_pattern] def codeString8 : Nat := 0x9
@[match_pattern] def codeString32 : Nat := 0xA
@[match_pattern] def codeString64 : Nat := 0x15
@[match_pattern] def codeDoubleBig : Nat := 0xB
@[match_pattern] def codeDoubleLittle : Nat := 0xC
@[match_pattern] def codeDoubleArray8Big : Nat := 0xD
@[match_pattern] def codeDoubleArray8Little : Nat := 0xE
@[match_pattern] def codeDoubleArray32Big : Nat := 0xF
@[match_pattern] def codeDoubleArray32Little : Nat := 0x7
@[match_pattern] def codeDoubleArray64Big : Nat := 0x16
@[match_pattern] def codeDoubleArray64Little : Nat := 0x17
@[match_pattern] def codeCodepointer : Nat := 0x10
@[match_pattern] def codeInfixpointer : Nat := 0x11
@[match_pattern] def oldCodeCustom : Nat := 0x12
@[match_pattern] def codeCustomLen : Nat := 0x18
@[match_pattern] def codeCustomFixed : Nat := 0x19

def codeDoubleNative (host : Host) : Nat :=
  if host.bigEndian then codeDoubleBig else codeDoubleLittle

def codeDoubleArray8Native (host : Host) : Nat :=
  if host.bigEndian then codeDoubleArray8Big else codeDoubleArray8Little

def codeDoubleArray32Native (host : Host) : Nat :=
  if host.bigEndian then codeDoubleArray32Big else codeDoubleArray32Little

def codeDoubleArray64Native (host : Host) : Nat :=
  if host.bigEndian then codeDoubleArray64Big else codeDoubleArray64Little

/-! ## State -/

structure Flags where
  noSharing : Bool
  compat32 : Bool
  compressed : Bool
  deriving DecidableEq, Repr

/-- No flag. -/
def Flags.default : Flags := ⟨false, false, false⟩

/-- The operations of a kind of custom blocks. Serialization gives the bytes it writes and the two
sizes it reports, deserialization the contents, the size it reports and the bytes it has not read.
-/
structure CustomOps (D : Type) where
  identifier : Bytes
  serialize : Option (D → Bytes × Nat × Nat)
  deserialize : Bytes → Except Exn (D × Nat × Bytes)
  /-- `bsize_32` and `bsize_64` -/
  fixedLength : Option (Nat × Nat)

structure Custom (D : Type) where
  ops : CustomOps D
  data : D

/-- The bit of `present` is set where there is an entry: an object and its position. -/
structure PositionTable where
  shift : Nat
  size : Nat
  mask : Nat
  threshold : Nat
  entries : List (Option (Nat × Nat))

structure ExternState where
  objCounter : Nat
  size32 : Nat
  size64 : Nat
  posTable : PositionTable
  output : Bytes

def ExternState.write (s : ExternState) (bs : Bytes) : ExternState :=
  { s with output := s.output ++ bs }

def ExternState.addSizes (s : ExternState) (words32 words64 : Nat) : ExternState :=
  { s with size32 := s.size32 + words32, size64 := s.size64 + words64 }

/-! ## The hash table of objects that have been seen -/

def hashFactor (host : Host) : Nat :=
  if host.sixtyFour then 11400714819323198486 else 2654435769

def hash (host : Host) (shift v : Nat) : Nat :=
  (v * hashFactor host % 2 ^ host.wordBits) >>> shift

def threshold (size : Nat) : Nat := size * 2 / 3

def posTableInitSizeLog2 : Nat := 8

def externInitPositionTable (host : Host) : PositionTable where
  shift := host.wordBits - posTableInitSizeLog2
  size := 2 ^ posTableInitSizeLog2
  mask := 2 ^ posTableInitSizeLog2 - 1
  threshold := threshold (2 ^ posTableInitSizeLog2)
  entries := List.replicate (2 ^ posTableInitSizeLog2) none

def externResizePositionTable (host : Host) (old : PositionTable) : Except Exn PositionTable :=
  let (newSize, newShift) :=
    if old.size < 1000000 then (8 * old.size % 2 ^ host.wordBits, old.shift - 3)
    else (2 * old.size % 2 ^ host.wordBits, old.shift - 1)
  -- an entry takes two words
  if newSize = 0 ∨ 2 ^ host.wordBits ≤ newSize * (2 * host.wordSize) then .error .outOfMemory
  else
    match Probing.fill (hash host newShift) (newSize - 1) old.entries
        (List.replicate newSize none) with
    | none => .error .outOfBounds
    | some entries =>
      .ok { shift := newShift, size := newSize, mask := newSize - 1,
            threshold := threshold newSize, entries := entries }

/-- The position of an object that has been seen, or the slot for an object that has not. -/
def externLookupPosition (host : Host) (t : PositionTable) (obj : Nat) :
    Except Exn (Nat ⊕ Nat) :=
  match Probing.probe (Probing.stopsAt obj) t.mask t.entries t.size (hash host t.shift obj) with
  | none => .error .outOfBounds
  | some h =>
    match t.entries[h]? with
    | some (some (_, pos)) => .ok (.inl pos)
    | _ => .ok (.inr h)

def externRecordLocation (host : Host) (flags : Flags) (s : ExternState) (obj h : Nat) :
    Except Exn ExternState :=
  if flags.noSharing then .ok s
  else
    let t := { s.posTable with entries := s.posTable.entries.set h (some (obj, s.objCounter)) }
    let s := { s with posTable := t, objCounter := s.objCounter + 1 }
    if t.threshold ≤ s.objCounter then do
      let t ← externResizePositionTable host t
      .ok { s with posTable := t }
    else .ok s

/-! ## Items of the output -/

def writebyte (n : Nat) : Bytes := [UInt8.ofNat n]

def writecode8 (code : Nat) (val : Int) : Bytes := UInt8.ofNat code :: store 1 val
def writecode16 (code : Nat) (val : Int) : Bytes := UInt8.ofNat code :: store 2 val
def writecode32 (code : Nat) (val : Int) : Bytes := UInt8.ofNat code :: store 4 val
def writecode64 (code : Nat) (val : Int) : Bytes := UInt8.ofNat code :: store 8 val

/-- A float in memory. -/
def doubleBytes (host : Host) (d : UInt64) : Bytes :=
  if host.bigEndian then store 8 d.toNat else (store 8 d.toNat).reverse

def externInt (host : Host) (flags : Flags) (n : Int) : Except Exn Bytes :=
  if 0 ≤ n ∧ n < 0x40 then .ok (writebyte (prefixSmallInt + n.toNat))
  else if -2 ^ 7 ≤ n ∧ n < 2 ^ 7 then .ok (writecode8 codeInt8 n)
  else if -2 ^ 15 ≤ n ∧ n < 2 ^ 15 then .ok (writecode16 codeInt16 n)
  else if host.sixtyFour ∧ (n < -2 ^ 30 ∨ 2 ^ 30 ≤ n) then
    if flags.compat32 then
      .error (.failure "output_value: integer cannot be read back on 32-bit platform")
    else .ok (writecode64 codeInt64 n)
  else .ok (writecode32 codeInt32 n)

def externSharedReference (host : Host) (d : Nat) : Bytes :=
  if d < 0x100 then writecode8 codeShared8 d
  else if d < 0x10000 then writecode16 codeShared16 d
  else if host.sixtyFour ∧ 2 ^ 32 ≤ d then writecode64 codeShared64 d
  else writecode32 codeShared32 d

/-- `Make_header`, with the colour `NOT_MARKABLE` -/
def makeHeader (sz tag : Nat) : Nat := sz <<< 10 + 3 <<< 8 + tag

def externHeader (host : Host) (flags : Flags) (sz tag : Nat) : Except Exn Bytes :=
  if tag < 16 ∧ sz < 8 then .ok (writebyte (prefixSmallBlock + tag + sz <<< 4))
  else
    let hd := makeHeader sz tag
    if host.sixtyFour then
      if 0x3FFFFF < sz ∧ flags.compat32 then
        .error (.failure "output_value: array cannot be read back on 32-bit platform")
      else if hd < 2 ^ 32 then .ok (writecode32 codeBlock32 hd)
      else .ok (writecode64 codeBlock64 hd)
    else .ok (writecode32 codeBlock32 hd)

/-- The length of a string or of a float array: from 256 on it takes four bytes, or eight. -/
def externLength (host : Host) (flags : Flags) (limit : Nat) (msg : String)
    (code8 code32 code64 len : Nat) : Except Exn Bytes :=
  if len < 0x100 then .ok (writecode8 code8 len)
  else if host.sixtyFour then
    if limit < len ∧ flags.compat32 then .error (.failure msg)
    else if len < 2 ^ 32 then .ok (writecode32 code32 len)
    else .ok (writecode64 code64 len)
  else .ok (writecode32 code32 len)

def externStringLength (host : Host) (flags : Flags) (len : Nat) : Except Exn Bytes :=
  if len < 0x20 then .ok (writebyte (prefixSmallString + len))
  else
    externLength host flags 0xFFFFFB "output_value: string cannot be read back on 32-bit platform"
      codeString8 codeString32 codeString64 len

def externString (host : Host) (flags : Flags) (s : Bytes) : Except Exn Bytes := do
  let len ← externStringLength host flags s.length
  .ok (len ++ s)

def externDouble (host : Host) (d : UInt64) : Bytes :=
  writebyte (codeDoubleNative host) ++ doubleBytes host d

def externDoubleArrayLength (host : Host) (flags : Flags) (nfloats : Nat) : Except Exn Bytes :=
  externLength host flags 0x1FFFFF
    "output_value: float array cannot be read back on 32-bit platform"
    (codeDoubleArray8Native host) (codeDoubleArray32Native host) (codeDoubleArray64Native host)
    nfloats

def externDoubleArray (host : Host) (flags : Flags) (ds : List UInt64) : Except Exn Bytes := do
  let len ← externDoubleArrayLength host flags ds.length
  .ok (len ++ ds.flatMap (doubleBytes host))

variable {D : Type}

/-- A C string as text. -/
def textOf (s : Bytes) : String := String.ofList (s.map fun b => Char.ofNat b.toNat)

/-- The bytes written, and the two sizes of the contents. -/
def externCustom (c : Custom D) : Except Exn (Bytes × Nat × Nat) :=
  match c.ops.serialize with
  | none => .error (.invalidArgument "output_value: abstract value (Custom)")
  | some serialize =>
    let (payload, sz32, sz64) := serialize c.data
    match c.ops.fixedLength with
    | none =>
      .ok (writebyte codeCustomLen ++ (c.ops.identifier ++ [0]) ++
        (store 4 sz32 ++ store 8 sz64) ++ payload, sz32, sz64)
    | some (bsize32, bsize64) =>
      if sz32 ≠ bsize32 ∨ sz64 ≠ bsize64 then
        .error (.fatalError ("output_value: incorrect fixed sizes specified by " ++
          textOf c.ops.identifier))
      else .ok (writebyte codeCustomFixed ++ (c.ops.identifier ++ [0]) ++ payload, sz32, sz64)

/-! ## The traversal -/

/-- Where the loop goes on: with a value, or with the fields on the stack. -/
inductive Next where
  | value (v : Value) (stack : List (List Value))
  | nextItem (stack : List (List Value))

/-- The value in a forwarding block, unless the block has to be kept. -/
def shortCircuit (heap : Heap (Custom D)) : Obj Value (Custom D) → Option Value
  | .structured tag (f :: _) =>
    if tag = forwardTag ∧ heap.tagVal f ∉
        [some forwardTag, some lazyTag, some forcingTag, some doubleTag] then some f
    else none
  | _ => none

/-- The contents of a block that has not been seen. -/
def externContents (host : Host) (flags : Flags) (s : ExternState) (a h : Nat)
    (stack : List (List Value)) : Obj Value (Custom D) → Except Exn (ExternState × Next)
  | .string str => do
    let bs ← externString host flags str
    let s := (s.write bs).addSizes (1 + (str.length + 4) / 4) (1 + (str.length + 8) / 8)
    let s ← externRecordLocation host flags s a h
    .ok (s, .nextItem stack)
  | .double d => do
    let s := (s.write (externDouble host d)).addSizes (1 + 2) (1 + 1)
    let s ← externRecordLocation host flags s a h
    .ok (s, .nextItem stack)
  | .doubleArray ds => do
    let bs ← externDoubleArray host flags ds
    let s := (s.write bs).addSizes (1 + ds.length * 2) (1 + ds.length)
    let s ← externRecordLocation host flags s a h
    .ok (s, .nextItem stack)
  | .abstract _ => .error (.invalidArgument "output_value: abstract value (Abstract)")
  | .custom c _ => do
    let (bs, sz32, sz64) ← externCustom c
    let s := (s.write bs).addSizes (2 + (sz32 + 3) >>> 2) (2 + (sz64 + 7) >>> 3)
    let s ← externRecordLocation host flags s a h
    .ok (s, .nextItem stack)
  | .structured tag fields =>
    if tag = infixTag ∨ tag = closureTag then .error .unsupported
    else if tag = contTag then .error (.invalidArgument "output_value: continuation value")
    else do
      let bs ← externHeader host flags fields.length tag
      let s := (s.write bs).addSizes (1 + fields.length) (1 + fields.length)
      let s ← externRecordLocation host flags s a h
      match fields with
      | [] => .error .outOfBounds
      | [v] => .ok (s, .value v stack)
      | v :: rest => .ok (s, .value v (rest :: stack))

/-- One round of the loop, up to `next_item`. -/
def externItem (host : Host) (flags : Flags) (heap : Heap (Custom D)) (s : ExternState)
    (stack : List (List Value)) : Value → Except Exn (ExternState × Next)
  | .long n => do
    let bs ← externInt host flags n
    .ok (s.write bs, .nextItem stack)
  | .atom tag =>
    if tag = forwardTag then .error .outOfBounds
    else do
      let bs ← externHeader host flags 0 tag
      .ok (s.write bs, .nextItem stack)
  | .block a =>
    match heap.get a with
    | none => .error .outOfBounds
    | some o =>
      match shortCircuit heap o with
      | some f => .ok (s, .value f stack)
      | none =>
        -- the field of a forwarding block without fields
        if o.tag = forwardTag ∧ o.wosize host = 0 then .error .outOfBounds
        else if o.wosize host = 0 then do
          let bs ← externHeader host flags 0 o.tag
          .ok (s.write bs, .nextItem stack)
        else if flags.noSharing then externContents host flags s a 0 stack o
        else do
          match ← externLookupPosition host s.posTable a with
          | .inl pos =>
            let d := if flags.compressed then pos else s.objCounter - pos
            .ok (s.write (externSharedReference host d), .nextItem stack)
          | .inr h => externContents host flags s a h stack o

/-- Pops one more item. -/
def popItem : List (List Value) → Option (Value × List (List Value))
  | [] => none
  | [] :: stack => popItem stack
  | [v] :: stack => some (v, stack)
  | (v :: rest) :: stack => some (v, rest :: stack)

def externStep (host : Host) (flags : Flags) (heap : Heap (Custom D)) :
    ExternState × Value × List (List Value) →
      (ExternState × Value × List (List Value)) ⊕ Except Exn ExternState
  | (s, v, stack) =>
    match externItem host flags heap s stack v with
    | .error e => .inr (.error e)
    | .ok (s, .value v stack) => .inl (s, v, stack)
    | .ok (s, .nextItem stack) =>
      match popItem stack with
      | none => .inr (.ok s)
      | some (v, stack) => .inl (s, v, stack)

/-- The state that `extern_value` starts from. -/
def externInit (host : Host) : ExternState where
  objCounter := 0
  size32 := 0
  size64 := 0
  posTable := externInitPositionTable host
  output := []

/-- The first argument bounds the number of rounds. -/
def externRec (fuel : Nat) (host : Host) (flags : Flags) (heap : Heap (Custom D)) (v : Value) :
    Option (Except Exn ExternState) :=
  Machine.run (externStep host flags heap) fuel (externInit host, v, [])

/-! ## Messages -/

def intextMagicNumberSmall : Nat := 0x8495A6BE
def intextMagicNumberBig : Nat := 0x8495A6BF
def intextMagicNumberCompressed : Nat := 0x8495A6BD

/-- The digits of a number in base 128 above the last one, the least significant one last. The
first argument bounds their number. -/
def vlqDigits : Nat → Nat → Bytes → Bytes
  | 0, _, acc => acc
  | fuel + 1, n, acc =>
    if n = 0 then acc else vlqDigits fuel (n >>> 7) (UInt8.ofNat (0x80 ||| (n &&& 0x7F)) :: acc)

def storevlq (n : Nat) : Bytes := vlqDigits n (n >>> 7) [UInt8.ofNat (n &&& 0x7F)]

/-- The header of a message. `zstd` is the compressor, if there is one. -/
def externHeaderOf (host : Host) (flags : Flags) (zstd : Option (Bytes → Option Bytes))
    (s : ExternState) : Except Exn (Bytes × Bytes) :=
  let tooBig : Exn := .failure "output_value: object too big to be read back on 32-bit platform"
  match flags.compressed, zstd with
  | true, some compress =>
    match compress s.output with
    | none => .error .outOfMemory
    | some data =>
      if host.sixtyFour ∧ flags.compat32 ∧ (2 ^ 32 ≤ s.output.length ∨ 2 ^ 32 ≤ data.length ∨
          2 ^ 32 ≤ s.size32 ∨ 2 ^ 32 ≤ s.size64) then .error tooBig
      else
        let lengths := storevlq data.length ++ storevlq s.output.length ++ storevlq s.objCounter ++
          storevlq s.size32 ++ storevlq s.size64
        .ok (store 4 intextMagicNumberCompressed ++
          UInt8.ofNat (5 + lengths.length) :: lengths, data)
  | _, _ =>
    if host.sixtyFour ∧ (2 ^ 32 ≤ s.output.length ∨ 2 ^ 32 ≤ s.size32 ∨ 2 ^ 32 ≤ s.size64) then
      if flags.compat32 then .error tooBig
      else
        .ok (store 4 intextMagicNumberBig ++ store 4 0 ++
          store 8 s.output.length ++ store 8 s.objCounter ++
          store 8 s.size64, s.output)
    else
      .ok (store 4 intextMagicNumberSmall ++ store 4 s.output.length ++
        store 4 s.objCounter ++ store 4 s.size32 ++
        store 4 s.size64, s.output)

/-- The flags that are left without a compressor, or when the output goes to a buffer of the
caller. -/
def Flags.effective (flags : Flags) (zstd : Option (Bytes → Option Bytes)) (toBlock : Bool) :
    Flags :=
  { flags with compressed := flags.compressed && zstd.isSome && !toBlock }

/-- The header of a message, its data, and the state at the end of the traversal. -/
def externValue (fuel : Nat) (host : Host) (zstd : Option (Bytes → Option Bytes)) (toBlock : Bool)
    (flags : Flags) (heap : Heap (Custom D)) (v : Value) :
    Option (Except Exn (Bytes × Bytes × ExternState)) :=
  let flags := flags.effective zstd toBlock
  (externRec fuel host flags heap v).map fun r => do
    let s ← r
    let (header, data) ← externHeaderOf host flags zstd s
    .ok (header, data, s)

end TravLang.Runtime.Marshal
