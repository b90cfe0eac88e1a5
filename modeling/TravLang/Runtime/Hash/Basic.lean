import TravLang.Runtime.Compare.Basic

/-!
# The generic hash function (`runtime/hash.c`)

`caml_hash` is a machine with the labels of its loop and of `again`. Its queue is an array of
`HASH_QUEUE_SIZE` entries, which are not initialised: an access outside of the array, or to an entry
that has not been written, is an error of its own.

A pointer into a closure points to a block with the tag `Infix_tag`, whose size is the offset from
the start of the closure.
-/

namespace TravLang.Runtime.Hash

/-! ## Mixing -/

def rotl32 (x n : UInt32) : UInt32 := x <<< n ||| x >>> (32 - n)

def mix (h d : UInt32) : UInt32 :=
  let d := d * 0xcc9e2d51
  let d := rotl32 d 15
  let d := d * 0x1b873593
  let h := h ^^^ d
  let h := rotl32 h 13
  h * 5 + 0xe6546b64

def finalMix (h : UInt32) : UInt32 :=
  let h := h ^^^ (h >>> 16)
  let h := h * 0x85ebca6b
  let h := h ^^^ (h >>> 13)
  let h := h * 0xc2b2ae35
  h ^^^ (h >>> 16)

def camlHashMixUint32 (h d : UInt32) : UInt32 := mix h d

/-- A platform-native integer -/
def camlHashMixIntnat (host : Host) (h : UInt32) (d : Int) : UInt32 :=
  if host.sixtyFour then
    let d := BitVec.ofInt 64 d
    let n := d.sshiftRight 32 ^^^ d.sshiftRight 63 ^^^ d
    mix h (UInt32.ofNat n.toNat)
  else mix h (UInt32.ofInt d)

/-- A double-precision number. Both zeros are treated identically, and all NaNs. -/
def camlHashMixDouble (hash : UInt32) (d : UInt64) : UInt32 :=
  let h := (d >>> 32).toUInt32
  let l := d.toUInt32
  let (h, l) :=
    if h &&& 0x7FF00000 = 0x7FF00000 ∧ l ||| (h &&& 0xFFFFF) ≠ 0 then (0x7FF00000, 0x00000001)
    else if h = 0x80000000 ∧ l = 0 then (0, l)
    else (h, l)
  mix (mix hash l) h

/-- The bytes of a string, by 32-bit blocks, and up to 3 bytes at the end -/
def mixBytes : UInt32 → Bytes → UInt32
  | h, a :: b :: c :: d :: s =>
    mixBytes (mix h (a.toUInt32 ||| (b.toUInt32 <<< 8) ||| (c.toUInt32 <<< 16) |||
      (d.toUInt32 <<< 24))) s
  | h, [a, b, c] => mix h ((c.toUInt32 <<< 16) ||| (b.toUInt32 <<< 8) ||| a.toUInt32)
  | h, [a, b] => mix h ((b.toUInt32 <<< 8) ||| a.toUInt32)
  | h, [a] => mix h a.toUInt32
  | h, [] => h

def camlHashMixString (h : UInt32) (s : Bytes) : UInt32 := mixBytes h s ^^^ UInt32.ofNat s.length

/-! ## Memory -/

/-- What hashing reads, apart from the contents of blocks. -/
structure Memory where
  heap : Heap CustomOps
  /-- the colour bits in the header of the block at an address, or of an atom -/
  color : Value → Nat
  /-- the addresses of the atoms -/
  atomAddress : Nat → Nat
  /-- the hash functions of custom blocks, by their addresses -/
  hash : Nat → Value → Int

/-- The word that a value is -/
def word (host : Host) (mem : Memory) : Value → Int
  | .long n => host.intnat (2 * n + 1)
  | .atom tag => mem.atomAddress tag
  | .block a => a

/-- `Hd_val` -/
def hdVal (host : Host) (mem : Memory) (v : Value) (o : Obj Value CustomOps) : Nat :=
  o.wosize host * 2 ^ 10 + mem.color v % 4 * 2 ^ 8 + o.tag

def headerTagMask : Nat := 2 ^ 8 - 1

def headerWosizeMask (host : Host) : Nat := (2 ^ (host.wordBits - 10) - 1) <<< 10

/-- `Cleanhd_hd` -/
def cleanhdHd (host : Host) (hd : Nat) : Nat := hd &&& (headerTagMask ||| headerWosizeMask host)

/-- `Infix_offset_val` -/
def infixOffsetVal (host : Host) (o : Obj Value CustomOps) : Nat := o.wosize host * host.wordSize

/-- `Start_env_closinfo` -/
def startEnvClosinfo (host : Host) (info : Nat) : Nat := info * 2 ^ 8 % 2 ^ host.wordBits / 2 ^ 9

/-! ## The traversal -/

def hashQueueSize : Nat := 256
def maxForwardDereference : Nat := 1000

inductive Exn where
  /-- a read or a write outside of the queue, or a read of what was not written -/
  | queueBounds
  /-- a read outside of the blocks of the heap -/
  | badAccess
  deriving DecidableEq, Repr

/-- The variables of `caml_hash` -/
structure State where
  queue : List (Option Value)
  rd : Nat
  wr : Nat
  sz : Nat
  num : Int
  h : UInt32
  deriving DecidableEq, Repr

/-- `queue[i]` -/
def readQueue (queue : List (Option Value)) (i : Nat) : Except Exn Value :=
  match queue[i]? with
  | some (some v) => .ok v
  | _ => .error .queueBounds

/-- `queue[i] = v` -/
def writeQueue (queue : List (Option Value)) (i : Nat) (v : Value) :
    Except Exn (List (Option Value)) :=
  if i < queue.length then .ok (queue.set i (some v)) else .error .queueBounds

/-- The loop that copies fields into the queue, not exceeding the total size `sz` -/
def enqueue : List Value → State → Except Exn State
  | [], s => .ok s
  | v :: fields, s =>
    if s.wr ≥ s.sz then .ok s
    else do
      let queue ← writeQueue s.queue s.wr v
      enqueue fields { s with queue, wr := s.wr + 1 }

/-- The loop over a float array -/
def hashDoubles : List UInt64 → State → State
  | [], s => s
  | d :: ds, s =>
    let s := { s with h := camlHashMixDouble s.h d, num := s.num - 1 }
    if s.num ≤ 0 then s else hashDoubles ds s

/-- The loop over the code pointers of a closure -/
def hashWords (host : Host) (mem : Memory) : List Value → State → State
  | [], s => s
  | v :: vs, s =>
    hashWords host mem vs
      { s with h := camlHashMixIntnat host s.h (word host mem v), num := s.num - 1 }

/-- The loop that follows Forward links, up to `i` of them; `none` is to give up. -/
def derefForward (heap : Heap CustomOps) : Nat → Obj Value CustomOps → Except Exn (Option Value)
  | 0, _ => .ok none
  | i + 1, o =>
    match o.fields with
    | [] => .error .badAccess
    | v :: _ =>
      match v with
      | .long _ => .ok (some v)
      | _ =>
        match heap.obj v with
        | none => .error .badAccess
        | some o => if o.tag ≠ forwardTag then .ok (some v) else derefForward heap i o

def hashClosure (host : Host) (mem : Memory) (s : State) (v : Value) (o : Obj Value CustomOps) :
    Except Exn State :=
  match o.fields with
  | _ :: closinfo :: _ =>
    let startenv := startEnvClosinfo host (word host mem closinfo % 2 ^ host.wordBits).toNat
    let hd := UInt32.ofNat (cleanhdHd host (hdVal host mem v o))
    let s := { s with h := camlHashMixUint32 s.h hd }
    if startenv ≤ o.fields.length then
      enqueue (o.fields.drop startenv) (hashWords host mem (o.fields.take startenv) s)
    else .error .badAccess
  | _ => .error .badAccess

/-- What follows the `switch` on the tag of a block -/
inductive After where
  /-- the next round of the loop -/
  | loop (s : State)
  /-- `goto again` -/
  | again (s : State) (v : Value)

def hashForward (heap : Heap CustomOps) (s : State) (o : Obj Value CustomOps) :
    Except Exn After := do
  match ← derefForward heap maxForwardDereference o with
  | some v => return .again s v
  | none => return .loop s

/-- The block `o` of `v`, if it has fields -/
def hashStructured (host : Host) (mem : Memory) (s : State) (v : Value) (tag : Nat)
    (o : Obj Value CustomOps) : Except Exn After :=
  if tag = infixTag then
    match v with
    | .block a =>
      let offset := infixOffsetVal host o
      .ok (.again { s with h := camlHashMixUint32 s.h (UInt32.ofNat offset) } (.block (a - offset)))
    | _ => .error .badAccess
  else if tag = forwardTag then hashForward mem.heap s o
  else if tag = objectTag then
    match o.fields with
    | _ :: .long oid :: _ =>
      .ok (.loop { s with h := camlHashMixIntnat host s.h oid, num := s.num - 1 })
    | _ => .error .badAccess
  else if tag = closureTag then do
    return .loop (← hashClosure host mem s v o)
  else if tag = contTag then .ok (.loop s)
  else do
    let hd := UInt32.ofNat (cleanhdHd host (hdVal host mem v o))
    return .loop (← enqueue o.fields { s with h := camlHashMixUint32 s.h hd })

/-- The code at `again` -/
def hashValue (host : Host) (mem : Memory) (s : State) (v : Value) : Except Exn After :=
  match v with
  | .long _ =>
    .ok (.loop { s with h := camlHashMixIntnat host s.h (word host mem v), num := s.num - 1 })
  | _ =>
    match mem.heap.obj v with
    | none => .error .badAccess
    | some o =>
      match o with
      | .string str => .ok (.loop { s with h := camlHashMixString s.h str, num := s.num - 1 })
      | .double d => .ok (.loop { s with h := camlHashMixDouble s.h d, num := s.num - 1 })
      | .doubleArray ds => .ok (.loop (hashDoubles ds s))
      | .abstract _ => .ok (.loop s)
      | .custom ops _ =>
        match ops.hash with
        | some hash =>
          let n := UInt32.ofInt (mem.hash hash v)
          .ok (.loop { s with h := camlHashMixUint32 s.h n, num := s.num - 1 })
        | none => .ok (.loop s)
      | .structured tag _ =>
        if tag < abstractTag then hashStructured host mem s v tag o else .error .badAccess

/-- One step: the head of the loop, or the code at `again` -/
def hashStep (host : Host) (mem : Memory) : After → After ⊕ Except Exn Int
  | .loop s =>
    if s.rd < s.wr ∧ s.num > 0 then
      match readQueue s.queue s.rd with
      | .ok v => .inl (.again { s with rd := s.rd + 1 } v)
      | .error e => .inr (.error e)
    else .inr (.ok ((finalMix s.h &&& 0x3FFFFFFF).toNat : Int))
  | .again s v =>
    match hashValue host mem s v with
    | .ok next => .inl next
    | .error e => .inr (.error e)

/-- The state before the loop -/
def initial (count limit seed : Int) (obj : Value) : Except Exn State := do
  let sz := if limit < 0 ∨ limit > hashQueueSize then hashQueueSize else limit.toNat
  let queue ← writeQueue (List.replicate hashQueueSize none) 0 obj
  return { queue, rd := 0, wr := 1, sz, num := count, h := UInt32.ofInt seed }

/-- `caml_hash`, with integers for the tagged integers `count`, `limit` and `seed`; there is no
result without enough fuel. -/
def camlHash (fuel : Nat) (host : Host) (mem : Memory) (count limit seed : Int) (obj : Value) :
    Option (Except Exn Int) :=
  match initial count limit seed obj with
  | .ok s => Machine.run (hashStep host mem) fuel (.loop s)
  | .error e => some (.error e)

end TravLang.Runtime.Hash
