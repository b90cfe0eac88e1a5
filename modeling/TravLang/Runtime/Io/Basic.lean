import Mathlib.Init

/-!
# Buffered input (`runtime/io.c`, `stdlib/stdlib.ml`)

The file has fixed contents, and a read of the descriptor returns as many bytes as the system likes,
at least one of those that are left. Pointers into the buffer are offsets from its start `buff`. An
exception leaves the channel as it is at that point, hence a function gives its result together with
the channel.
-/

namespace TravLang.Io

inductive Exn where
  | endOfFile
  | invalidArg (msg : String)
  | sysError
  deriving DecidableEq, Repr

abbrev Byte := UInt8

/-- `'\n'` -/
def newline : Byte := 10

/-- `INT_MAX` -/
def intMax : Int := 2147483647

/-- The operating system: the contents of the file, and how many bytes the reads are willing to
return; and the size of the buffers -/
structure Sys where
  file : List Byte
  short : Nat → Nat
  /-- `IO_BUFFER_SIZE`, which is an `int` -/
  ioBufferSize : Nat
  ioBufferSize_pos : 0 < ioBufferSize
  ioBufferSize_lt : (ioBufferSize : Int) < intMax

/-- `struct channel`, with the position of its descriptor in the file, and the number of reads -/
structure Channel where
  offset : Int
  curr : Int
  max : Int
  buff : Int → Byte
  fd : Nat
  reads : Nat

variable (sys : Sys)

/-- `end`, as an offset -/
def Sys.bufferEnd : Int := sys.ioBufferSize

/-- The number of bytes that a read of `n` bytes returns -/
def Sys.count (ch : Channel) (n : Int) : Nat :=
  if n ≤ 0 ∨ sys.file.length ≤ ch.fd then 0
  else Nat.max 1 (Nat.min (sys.short ch.reads) (Nat.min n.toNat (sys.file.length - ch.fd)))

/-- `caml_read_fd`, to the address `p` -/
def readFd (ch : Channel) (p n : Int) : Int × Channel :=
  let k := sys.count ch n
  (k, { ch with
    buff := fun j =>
      if p ≤ j ∧ j < p + k then sys.file.getD (ch.fd + (j - p).toNat) 0 else ch.buff j
    fd := ch.fd + k
    reads := ch.reads + 1 })

/-- `caml_open_descriptor_in`, of a descriptor at the position `fd` -/
def openDescriptorIn (fd : Nat) : Channel where
  offset := fd
  curr := 0
  max := 0
  buff := fun _ => 0
  fd := fd
  reads := 0

/-- `caml_refill` -/
def refill (ch : Channel) : Except Exn Byte × Channel :=
  let (n, ch) := readFd sys ch 0 sys.bufferEnd
  if n = 0 then (.error .endOfFile, ch)
  else (.ok (ch.buff 0), { ch with offset := ch.offset + n, max := n, curr := 1 })

/-- `Getch` -/
def getch (ch : Channel) : Except Exn Byte × Channel :=
  if ch.curr ≥ ch.max then refill sys ch
  else (.ok (ch.buff ch.curr), { ch with curr := ch.curr + 1 })

/-- The `n` bytes at the address `p` -/
def Channel.bytes (ch : Channel) (p n : Int) : List Byte :=
  (List.range n.toNat).map fun (j : Nat) => ch.buff (p + j)

/-- `caml_getblock`, and the bytes that it copies -/
def getblock (ch : Channel) (len : Int) : List Byte × Channel :=
  let n := if len ≥ intMax then intMax else len
  let avail := ch.max - ch.curr
  if n ≤ avail then (ch.bytes ch.curr n, { ch with curr := ch.curr + n })
  else if avail > 0 then (ch.bytes ch.curr avail, { ch with curr := ch.curr + avail })
  else
    let (nread, ch) := readFd sys ch 0 sys.bufferEnd
    let ch := { ch with offset := ch.offset + nread, max := nread }
    let n := if n > nread then nread else n
    (ch.bytes 0 n, { ch with curr := n })

/-- The bytes `s` with `bs` from the index `ofs` on -/
def blit (s : List Byte) (ofs : Nat) (bs : List Byte) : List Byte :=
  s.take ofs ++ bs ++ s.drop (ofs + bs.length)

/-- `caml_ml_input`, which repeats `caml_getblock`: the result, and the bytes `s` after it -/
def unsafeInput (ch : Channel) (s : List Byte) (ofs len : Int) : (Int × List Byte) × Channel :=
  let (bs, ch) := getblock sys ch len
  ((bs.length, blit s ofs.toNat bs), ch)

/-- `caml_seek_in`; the descriptor is a file in binary mode, and `lseek` fails on negative
positions only. -/
def seekIn (ch : Channel) (dest : Int) : Except Exn Unit × Channel :=
  if dest ≥ ch.offset - ch.max ∧ dest ≤ ch.offset then
    (.ok (), { ch with curr := ch.max - (ch.offset - dest) })
  else if dest < 0 then (.error .sysError, ch)
  else (.ok (), { ch with fd := dest.toNat, offset := dest, curr := 0, max := 0 })

/-- `caml_pos_in` -/
def posIn (ch : Channel) : Int := ch.offset - (ch.max - ch.curr)

/-! ## Lines -/

/-- Make some room in the buffer by shifting the unread portion to the beginning. -/
def makeRoom (ch : Channel) : Channel :=
  if ch.curr > 0 then
    { ch with
      buff := fun j => if 0 ≤ j ∧ j < ch.max - ch.curr then ch.buff (ch.curr + j) else ch.buff j
      curr := 0
      max := ch.max - ch.curr }
  else ch

/-- What the loop of `caml_input_scan_line` does when all bytes of the buffer have been looked at:
it has the result, or more bytes. -/
def fillMore (ch : Channel) : Option Int × Channel :=
  let ch := makeRoom ch
  if ch.max ≥ sys.bufferEnd then (some (-(ch.max - ch.curr)), ch)
  else
    let (n, ch) := readFd sys ch ch.max (sys.bufferEnd - ch.max)
    if n = 0 then (some (-(ch.max - ch.curr)), ch)
    else (none, { ch with offset := ch.offset + n, max := ch.max + n })

/-- The loop of `caml_input_scan_line`. It looks at one byte more of those in the buffer each time;
the fuel is the size of the buffer. -/
def scanLoop : Nat → Channel → Int → Int × Channel
  | 0, ch, _ => (0, ch)
  | fuel + 1, ch, p =>
    if p ≥ ch.max then
      let n := ch.curr
      match fillMore sys ch with
      | (some res, ch) => (res, ch)
      | (none, ch) =>
        let p := p - n
        if ch.buff p ≠ newline then scanLoop fuel ch (p + 1) else (p + 1 - ch.curr, ch)
    else if ch.buff p ≠ newline then scanLoop fuel ch (p + 1)
    else (p + 1 - ch.curr, ch)

/-- `caml_input_scan_line` -/
def inputScanLine (ch : Channel) : Int × Channel :=
  scanLoop sys (sys.ioBufferSize + 1) ch ch.curr

/-! ## The functions of `Stdlib` -/

/-- The arguments of `input` and `really_input` do not designate a part of the bytes. -/
def outOfBytes (s : List Byte) (ofs len : Int) : Prop := ofs < 0 ∨ len < 0 ∨ ofs > s.length - len

instance (s : List Byte) (ofs len : Int) : Decidable (outOfBytes s ofs len) :=
  inferInstanceAs (Decidable (_ ∨ _ ∨ _))

def inputChar (ch : Channel) : Except Exn Byte × Channel := getch sys ch

def input (ch : Channel) (s : List Byte) (ofs len : Int) :
    (Except Exn Int × List Byte) × Channel :=
  if outOfBytes s ofs len then ((.error (.invalidArg "input"), s), ch)
  else
    let ((n, s), ch) := unsafeInput sys ch s ofs len
    ((.ok n, s), ch)

/-- `unsafe_really_input`; a call reads at least one byte, and the fuel is `len`. -/
def unsafeReallyInput : Nat → Channel → List Byte → Int → Int →
    (Except Exn Unit × List Byte) × Channel
  | 0, ch, s, _, _ => ((.ok (), s), ch)
  | fuel + 1, ch, s, ofs, len =>
    if len ≤ 0 then ((.ok (), s), ch)
    else
      let ((r, s), ch) := unsafeInput sys ch s ofs len
      if r = 0 then ((.error .endOfFile, s), ch)
      else unsafeReallyInput fuel ch s (ofs + r) (len - r)

def reallyInput (ch : Channel) (s : List Byte) (ofs len : Int) :
    (Except Exn Unit × List Byte) × Channel :=
  if outOfBytes s ofs len then ((.error (.invalidArg "really_input"), s), ch)
  else unsafeReallyInput sys len.toNat ch s ofs len

def bytesCreate (n : Int) : List Byte := List.replicate n.toNat 0

/-- `build_result` -/
def buildResult (buf : List Byte) (pos : Int) : List (List Byte) → List Byte
  | [] => buf
  | hd :: tl =>
    let len : Int := hd.length
    buildResult (blit buf (pos - len).toNat hd) (pos - len) tl

/-- The function `scan` of `input_line`; a call without a result consumes a byte of the file, and
the fuel is their number. -/
def scan : Nat → Channel → List (List Byte) → Int → Except Exn (List Byte) × Channel
  | 0, ch, _, _ => (.error .endOfFile, ch)
  | fuel + 1, ch, accu, len =>
    let (n, ch) := inputScanLine sys ch
    if n = 0 then
      match accu with
      | [] => (.error .endOfFile, ch)
      | _ => (.ok (buildResult (bytesCreate len) len accu), ch)
    else if n > 0 then
      let ((_, res), ch) := unsafeInput sys ch (bytesCreate (n - 1)) 0 (n - 1)
      -- skip the newline
      match inputChar sys ch with
      | (.error e, ch) => (.error e, ch)
      | (.ok _, ch) =>
        match accu with
        | [] => (.ok res, ch)
        | _ =>
          let len := len + n - 1
          (.ok (buildResult (bytesCreate len) len (res :: accu)), ch)
    else
      let ((_, beg), ch) := unsafeInput sys ch (bytesCreate (-n)) 0 (-n)
      scan fuel ch (beg :: accu) (len - n)

def inputLine (ch : Channel) : Except Exn (List Byte) × Channel :=
  scan sys (sys.file.length + 1) ch [] 0

/-! ## Sequences of operations -/

inductive Op where
  | inputChar
  | input (s : List Byte) (ofs len : Int)
  | reallyInput (s : List Byte) (ofs len : Int)
  | inputLine
  | seekIn (pos : Int)
  | posIn
  deriving DecidableEq, Repr

/-- What the caller of an operation sees, including the bytes that it has passed -/
inductive Result where
  | char (r : Except Exn Byte)
  | input (r : Except Exn Int) (s : List Byte)
  | reallyInput (r : Except Exn Unit) (s : List Byte)
  | line (r : Except Exn (List Byte))
  | seek (r : Except Exn Unit)
  | pos (p : Int)

def exec (ch : Channel) : Op → Result × Channel
  | .inputChar =>
    let (r, ch) := inputChar sys ch
    (.char r, ch)
  | .input s ofs len =>
    let ((r, s), ch) := input sys ch s ofs len
    (.input r s, ch)
  | .reallyInput s ofs len =>
    let ((r, s), ch) := reallyInput sys ch s ofs len
    (.reallyInput r s, ch)
  | .inputLine =>
    let (r, ch) := inputLine sys ch
    (.line r, ch)
  | .seekIn pos =>
    let (r, ch) := seekIn ch pos
    (.seek r, ch)
  | .posIn => (.pos (posIn ch), ch)

/-- The results of a sequence of operations, each with the channel after it -/
def run (ch : Channel) : List Op → List (Result × Channel)
  | [] => []
  | op :: ops =>
    let (r, ch) := exec sys ch op
    (r, ch) :: run ch ops

end TravLang.Io
