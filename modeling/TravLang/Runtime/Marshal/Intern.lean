import TravLang.Runtime.Marshal.Extern
import TravLang.Runtime.Words

/-!
# Unmarshalling (`runtime/intern.c`)

The reader is a machine whose state holds the bytes still to be read and the stack of places that
are still to be filled. Blocks are numbered in the order in which they are allocated, and a field
is absent until it has been read. The region of the minor heap that `intern_alloc_storage` gets is
kept as the number of words that are left in it; a block that does not fit there, an entry beyond
the end of the table of objects and a read beyond the end of the message raise `outOfBounds`.

Code pointers and infix pointers are not modelled.
-/

namespace TravLang.Runtime.Marshal

/-! ## Reading numbers -/

def readblock (len : Nat) (src : Bytes) : Except Exn (Bytes × Bytes) :=
  if len ≤ src.length then .ok (src.take len, src.drop len) else .error .outOfBounds

def readUnsigned (k : Nat) (src : Bytes) : Except Exn (Nat × Bytes) := do
  let (bs, src) ← readblock k src
  .ok (BigEndian.load bs, src)

def readSigned (k : Nat) (src : Bytes) : Except Exn (Int × Bytes) := do
  let (bs, src) ← readblock k src
  .ok (BigEndian.loadSigned bs, src)

def read8u : Bytes → Except Exn (Nat × Bytes) := readUnsigned 1
def read16u : Bytes → Except Exn (Nat × Bytes) := readUnsigned 2
def read32u : Bytes → Except Exn (Nat × Bytes) := readUnsigned 4
def read64u : Bytes → Except Exn (Nat × Bytes) := readUnsigned 8
def read8s : Bytes → Except Exn (Int × Bytes) := readSigned 1
def read16s : Bytes → Except Exn (Int × Bytes) := readSigned 2
def read32s : Bytes → Except Exn (Int × Bytes) := readSigned 4

/-- `Tag_hd` -/
def tagHd (hd : Nat) : Nat := hd % 2 ^ 8

/-- `Wosize_hd` -/
def wosizeHd (host : Host) (hd : Nat) : Nat := (hd % 2 ^ host.wordBits) >>> 10

/-- The float that eight bytes of memory hold. -/
def doubleOfBytes (host : Host) (bs : Bytes) : UInt64 :=
  UInt64.ofNat (BigEndian.load (if host.bigEndian then bs else bs.reverse))

def readfloat (host : Host) (code : Nat) (src : Bytes) : Except Exn (UInt64 × Bytes) := do
  let (bs, src) ← readblock 8 src
  let bs := if code ≠ codeDoubleNative host then bs.reverse else bs
  .ok (doubleOfBytes host bs, src)

/-- Pieces of eight bytes. -/
def chunks8 : Nat → Bytes → List Bytes
  | 0, _ => []
  | len + 1, bs => bs.take 8 :: chunks8 len (bs.drop 8)

def readfloats (host : Host) (code len : Nat) (src : Bytes) :
    Except Exn (List UInt64 × Bytes) := do
  let (bs, src) ← readblock (len * 8) src
  -- the codes for arrays with lengths of eight bytes are in neither test of the source
  let fixup (d : Bytes) :=
    if code ≠ codeDoubleArray8Native host ∧ code ≠ codeDoubleArray32Native host then d.reverse
    else d
  .ok ((chunks8 len bs).map fun d => doubleOfBytes host (fixup d), src)

/-! ## State -/

inductive Dest where
  | root
  | field (a i : Nat)
  deriving DecidableEq, Repr

/-- The next word. -/
def Dest.next : Dest → Dest
  | root => root
  | field a i => field a (i + 1)

inductive InternItem where
  | readItems (dest : Dest) (n : Nat)
  | freshOID (a : Nat)
  deriving DecidableEq, Repr

/-- `intern_obj_table`, with `size` entries of which the first ones are filled. -/
structure ObjTable where
  size : Nat
  entries : List Value
  deriving Repr

structure InternState (D : Type) where
  internSrc : Bytes
  /-- whether references to shared objects are absolute -/
  compressed : Bool
  internObjTable : Option ObjTable
  /-- the number of words left in the region of the minor heap -/
  internDest : Option Nat
  heap : List (Obj (Option Value) (Custom D))
  /-- the number of words allocated, headers included -/
  allocated : Nat
  result : Option Value
  /-- `caml_fresh_oo_id` -/
  oid : Int

namespace InternState

variable {D : Type}

def objCounter (s : InternState D) : Nat :=
  match s.internObjTable with
  | none => 0
  | some t => t.entries.length

/-- `*dest = v` -/
def store (s : InternState D) (v : Value) : Dest → Except Exn (InternState D)
  | .root => .ok { s with result := some v }
  | .field a i =>
    match s.heap[a]? with
    | some (.structured tag fields) =>
      if i < fields.length then
        .ok { s with heap := s.heap.set a (.structured tag (fields.set i (some v))) }
      else .error .outOfBounds
    | _ => .error .outOfBounds

end InternState

def maxYoungWosize : Nat := 256

variable {D : Type}

/-- The state before `intern_rec`, for a message with these counts in its header. -/
def internAllocStorage (src : Bytes) (compressed : Bool) (oid : Int) (whsize numObjects : Nat) :
    InternState D where
  internSrc := src
  compressed := compressed
  internObjTable := if whsize = 0 ∨ numObjects = 0 then none else some ⟨numObjects, []⟩
  internDest :=
    if whsize ≠ 0 ∧ whsize - 1 ≤ maxYoungWosize ∧ whsize - 1 ≠ 0 then some whsize else none
  heap := []
  allocated := 0
  result := none
  oid := oid

def internAllocObj (s : InternState D) (wosize : Nat) (o : Obj (Option Value) (Custom D)) :
    Except Exn (Nat × InternState D) :=
  let s' := { s with heap := s.heap ++ [o], allocated := s.allocated + (1 + wosize) }
  match s.internDest with
  | none => .ok (s.heap.length, s')
  | some left =>
    if 1 + wosize ≤ left then
      .ok (s.heap.length, { s' with internDest := some (left - (1 + wosize)) })
    else .error .outOfBounds

/-- `s->intern_obj_table[s->obj_counter++] = v`, if there is a table -/
def internRecordObj (s : InternState D) (v : Value) : Except Exn (InternState D) :=
  match s.internObjTable with
  | none => .ok s
  | some t =>
    if t.entries.length < t.size then
      .ok { s with internObjTable := some { t with entries := t.entries ++ [v] } }
    else .error .outOfBounds

/-- The macro `ReadItems`. -/
def readItems (dest : Dest) (n : Nat) : List InternItem :=
  if 0 < n then [.readItems dest n] else []

/-! ## The codes -/

/-- What a code and the numbers that follow it ask for: the labels of `intern_rec`. -/
inductive Label where
  | value (n : Int)
  | readBlock (tag size : Nat)
  | readString (len : Nat)
  | readShared (ofs : Nat)
  | readDouble (code : Nat)
  | readDoubleArray (code len : Nat)
  | readCustom (code : Nat)
  deriving DecidableEq, Repr

def illFormed (funName : String) : Exn := .failure (funName ++ ": ill-formed message")

def dispatch (funName : String) (host : Host) (code : Nat) (src : Bytes) :
    Except Exn (Label × Bytes) :=
  if prefixSmallInt ≤ code then
    if prefixSmallBlock ≤ code then .ok (.readBlock (code &&& 0xF) (code >>> 4 &&& 0x7), src)
    else .ok (.value (code &&& 0x3F : Nat), src)
  else if prefixSmallString ≤ code then .ok (.readString (code &&& 0x1F), src)
  else
    match code with
    | codeInt8 => do
      let (n, src) ← read8s src
      .ok (.value (host.int n), src)
    | codeInt16 => do
      let (n, src) ← read16s src
      .ok (.value (host.int n), src)
    | codeInt32 => do
      let (n, src) ← read32s src
      .ok (.value (host.int n), src)
    | codeInt64 =>
      if host.sixtyFour then do
        let (n, src) ← read64u src
        .ok (.value (host.int n), src)
      else .error (.failure (funName ++ ": integer too large"))
    | codeShared8 => do
      let (ofs, src) ← read8u src
      .ok (.readShared ofs, src)
    | codeShared16 => do
      let (ofs, src) ← read16u src
      .ok (.readShared ofs, src)
    | codeShared32 => do
      let (ofs, src) ← read32u src
      .ok (.readShared ofs, src)
    | codeShared64 =>
      if host.sixtyFour then do
        let (ofs, src) ← read64u src
        .ok (.readShared ofs, src)
      else .error (illFormed funName)
    | codeBlock32 => do
      let (hd, src) ← read32u src
      .ok (.readBlock (tagHd hd) (wosizeHd host hd), src)
    | codeBlock64 =>
      if host.sixtyFour then do
        let (hd, src) ← read64u src
        .ok (.readBlock (tagHd hd) (wosizeHd host hd), src)
      else .error (illFormed funName)
    | codeString8 => do
      let (len, src) ← read8u src
      .ok (.readString len, src)
    | codeString32 => do
      let (len, src) ← read32u src
      .ok (.readString len, src)
    | codeString64 =>
      if host.sixtyFour then do
        let (len, src) ← read64u src
        .ok (.readString len, src)
      else .error (illFormed funName)
    | codeDoubleLittle => .ok (.readDouble code, src)
    | codeDoubleBig => .ok (.readDouble code, src)
    | codeDoubleArray8Little => do
      let (len, src) ← read8u src
      .ok (.readDoubleArray code len, src)
    | codeDoubleArray8Big => do
      let (len, src) ← read8u src
      .ok (.readDoubleArray code len, src)
    | codeDoubleArray32Little => do
      let (len, src) ← read32u src
      .ok (.readDoubleArray code len, src)
    | codeDoubleArray32Big => do
      let (len, src) ← read32u src
      .ok (.readDoubleArray code len, src)
    | codeDoubleArray64Little =>
      if host.sixtyFour then do
        let (len, src) ← read64u src
        .ok (.readDoubleArray code len, src)
      else .error (illFormed funName)
    | codeDoubleArray64Big =>
      if host.sixtyFour then do
        let (len, src) ← read64u src
        .ok (.readDoubleArray code len, src)
      else .error (illFormed funName)
    | codeCodepointer => .error .unsupported
    | codeInfixpointer => .error .unsupported
    | oldCodeCustom =>
      .error (.failure (funName ++ ": custom blocks serialized with travlang 4.08.0 (or prior) " ++
        "are no longer supported"))
    | codeCustomLen => .ok (.readCustom code, src)
    | codeCustomFixed => .ok (.readCustom code, src)
    | _ => .error (illFormed funName)

def readCode (funName : String) (host : Host) (src : Bytes) : Except Exn (Label × Bytes) := do
  let (code, src) ← read8u src
  dispatch funName host code src

/-! ## Building values -/

/-- The identifier of a custom block, up to the null byte. -/
def readIdentifier : Bytes → Except Exn (Bytes × Bytes)
  | [] => .error .outOfBounds
  | b :: src =>
    if b = 0 then .ok ([], src)
    else do
      let (name, src) ← readIdentifier src
      .ok (b :: name, src)

/-- The size that the writer has announced for the contents of a custom block. -/
def readExpectedSize (host : Host) (src : Bytes) : Option (Nat × Nat) →
    Except Exn (Nat × Bytes)
  | some (bsize32, bsize64) => .ok (if host.sixtyFour then bsize64 else bsize32, src)
  | none =>
    if host.sixtyFour then do
      let (_, src) ← readblock 4 src
      read64u src
    else do
      let (expected, src) ← read32u src
      let (_, src) ← readblock 8 src
      .ok (expected, src)

def readCustom (funName : String) (host : Host) (findOps : Bytes → Option (CustomOps D))
    (s : InternState D) (code : Nat) : Except Exn (Value × InternState D) := do
  let (name, src) ← readIdentifier s.internSrc
  match findOps name with
  | none =>
    .error (.failure (funName ++ ": unknown custom block identifier " ++ textOf name))
  | some ops =>
    if code = codeCustomFixed ∧ ops.fixedLength = none then
      .error (.failure (funName ++ ": expected a fixed-size custom block " ++ textOf name))
    else do
      let (expected, src) ← readExpectedSize host src
        (if code = codeCustomFixed then ops.fixedLength else none)
      let (data, size, src) ← ops.deserialize src
      let words := (expected + host.wordSize - 1) / host.wordSize
      let (a, s) ← internAllocObj { s with internSrc := src } (1 + words)
        (.custom ⟨ops, data⟩ words)
      if size ≠ expected then
        .error (.failure (funName ++ ": error while deserializing custom block " ++ textOf name))
      else do
        let s ← internRecordObj s (.block a)
        .ok (.block a, s)

/-- A new block with the bytes that follow as its contents. -/
def internLeaf (s : InternState D) (src : Bytes) (wosize : Nat)
    (o : Obj (Option Value) (Custom D)) : Except Exn (Value × InternState D × List InternItem) := do
  let (a, s) ← internAllocObj { s with internSrc := src } wosize o
  let s ← internRecordObj s (.block a)
  .ok (.block a, s, [])

/-- The value at a label, and the requests that it puts on the stack. -/
def internLabel (funName : String) (host : Host) (findOps : Bytes → Option (CustomOps D))
    (s : InternState D) : Label → Except Exn (Value × InternState D × List InternItem)
  | .value n => .ok (.long n, s, [])
  | .readBlock tag size =>
    if size = 0 then .ok (.atom tag, s, [])
    else do
      let (a, s) ← internAllocObj s size (.structured tag (List.replicate size none))
      let s ← internRecordObj s (.block a)
      if tag = objectTag then
        -- the source asserts that an object has two fields
        if size < 2 then .error .outOfBounds
        else
          .ok (.block a, s, readItems (.field a 0) 2 ++ .freshOID a ::
            readItems (.field a 2) (size - 2))
      else .ok (.block a, s, readItems (.field a 0) size)
  | .readString len => do
    let (str, src) ← readblock len s.internSrc
    internLeaf s src ((len + host.wordSize) / host.wordSize) (.string str)
  | .readShared ofs =>
    match s.internObjTable with
    | none => .error .outOfBounds
    | some t =>
      let ofs' := if s.compressed then ofs else t.entries.length - ofs
      -- the subtraction wraps around below zero
      if ¬ s.compressed ∧ t.entries.length < ofs then .error .outOfBounds
      else
        match t.entries[ofs']? with
        | none => .error .outOfBounds
        | some v => .ok (v, s, [])
  | .readDouble code => do
    let (d, src) ← readfloat host code s.internSrc
    internLeaf s src host.doubleWosize (.double d)
  | .readDoubleArray code len => do
    let (ds, src) ← readfloats host code len s.internSrc
    internLeaf s src (len * host.doubleWosize) (.doubleArray ds)
  | .readCustom code => do
    let (v, s) ← readCustom funName host findOps s code
    .ok (v, s, [])

/-- Reads a value. -/
def internValue (funName : String) (host : Host) (findOps : Bytes → Option (CustomOps D))
    (s : InternState D) : Except Exn (Value × InternState D × List InternItem) := do
  let (label, src) ← readCode funName host s.internSrc
  internLabel funName host findOps { s with internSrc := src } label

/-- Renews the identity of an object, but not that of a predefined exception. Only integers are
below zero. -/
def freshOID (s : InternState D) (a : Nat) : Except Exn (InternState D) :=
  match s.heap[a]? with
  | some (.structured _ (_ :: some (.long n) :: _)) =>
    if 0 ≤ n then do
      let s ← s.store (.long s.oid) (.field a 1)
      .ok { s with oid := s.oid + 1 }
    else .ok s
  | some (.structured _ (_ :: _ :: _)) => do
    let s ← s.store (.long s.oid) (.field a 1)
    .ok { s with oid := s.oid + 1 }
  | _ => .error .outOfBounds

/-! ## The loop -/

/-- One round for the item on top of the stack. -/
def internItem (funName : String) (host : Host) (findOps : Bytes → Option (CustomOps D))
    (s : InternState D) (stack : List InternItem) :
    InternItem → Except Exn (InternState D × List InternItem)
  | .freshOID a => do
    let s ← freshOID s a
    .ok (s, stack)
  | .readItems dest n => do
    let stack := readItems dest.next (n - 1) ++ stack
    let (v, s, items) ← internValue funName host findOps s
    let s ← s.store v dest
    .ok (s, items ++ stack)

def internStep (funName : String) (host : Host) (findOps : Bytes → Option (CustomOps D)) :
    InternState D × List InternItem →
      (InternState D × List InternItem) ⊕ Except Exn (InternState D)
  | (s, []) => .inr (.ok s)
  | (s, item :: stack) =>
    match internItem funName host findOps s stack item with
    | .error e => .inr (.error e)
    | .ok (s, stack) => .inl (s, stack)

/-- The first argument bounds the number of rounds. -/
def internRec (fuel : Nat) (funName : String) (host : Host)
    (findOps : Bytes → Option (CustomOps D)) (s : InternState D) :
    Option (Except Exn (InternState D)) :=
  Machine.run (internStep funName host findOps) fuel (s, readItems .root 1)

end TravLang.Runtime.Marshal
