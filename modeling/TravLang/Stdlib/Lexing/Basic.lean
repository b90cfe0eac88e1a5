import TravLang.Lib.Result
import TravLang.Lib.Simulation
import TravLang.Stdlib.Bytes

/-!
# The run-time library for lexers (`stdlib/lexing.ml`, `runtime/lexing.c`)

The two automata, the refill function of a buffer made by `from_function`, and the program that a
generated lexer runs with them (`lex/output.ml`).

The C code reads its tables and the memory cells without checks: a read outside of them is
`Exn.undefined`. Positions are natural numbers, as they never become negative; memory cells may
hold `-1`. The position `dummy_pos`, which the source recognizes by its address, is `none`.
-/

namespace TravLang.Lexing

inductive Exn where
  | failure (msg : String)
  | invalidArgument (msg : String)
  /-- what the C code leaves undefined -/
  | undefined
  deriving DecidableEq, Repr

def cannotGrow : Exn := .failure "Lexing.lex_refill: cannot grow buffer"

def emptyToken : Exn := .failure "lexing: empty token"

def indexOutOfBounds : Exn := .invalidArgument "index out of bounds"

def orElse {α : Type} (e : Exn) : Option α → Except Exn α
  | some a => .ok a
  | none => .error e

/-! ## Buffers and tables -/

structure Position where
  posFname : Bytes
  posLnum : Int
  posBol : Int
  posCnum : Int
  deriving DecidableEq, Repr

/-- `lexbuf`, apart from the refill function. -/
structure Lexbuf where
  lexBuffer : Bytes
  lexBufferLen : Nat
  lexAbsPos : Nat
  lexStartPos : Nat
  lexCurrPos : Nat
  lexLastPos : Nat
  lexLastAction : Int
  lexEofReached : Bool
  lexMem : List Int
  lexStartP : Option Position
  lexCurrP : Option Position
  deriving DecidableEq, Repr

structure LexTables where
  lexBase : Bytes
  lexBacktrk : Bytes
  lexDefault : Bytes
  lexTrans : Bytes
  lexCheck : Bytes
  lexBaseCode : Bytes
  lexBacktrkCode : Bytes
  lexDefaultCode : Bytes
  lexTransCode : Bytes
  lexCheckCode : Bytes
  lexCode : Bytes

/-- `UShort`: two bytes, the low one first. -/
def ushort (tbl : Bytes) (n : Nat) : Except Exn Nat := do
  let lo ← orElse .undefined tbl[2 * n]?
  let hi ← orElse .undefined tbl[2 * n + 1]?
  return lo.toNat + 256 * hi.toNat

/-- `Short`: the same, with a sign. -/
def short (tbl : Bytes) (n : Nat) : Except Exn Int := do
  let v ← ushort tbl n
  return if v < 32768 then (v : Int) else v - 65536

/-! ## Memory code -/

/-- The source of a move; `0xff` stands for `value`. -/
def operand (value : Int) (mem : List Int) (src : UInt8) : Except Exn Int :=
  if src = 0xff then .ok value else orElse .undefined mem[src.toNat]?

/-- A list of moves, up to the byte `0xff`. -/
def runCode (value : Int) : Bytes → List Int → Except Exn (List Int)
  | [], _ => .error .undefined
  | [dst], mem => if dst = 0xff then .ok mem else .error .undefined
  | dst :: src :: pc, mem =>
    if dst = 0xff then .ok mem
    else do
      let v ← operand value mem src
      if dst.toNat < mem.length then runCode value pc (mem.set dst.toNat v)
      else .error .undefined

def runMem (pc : Bytes) (mem : List Int) (currPos : Nat) : Except Exn (List Int) :=
  runCode currPos pc mem

def runTag (pc : Bytes) (mem : List Int) : Except Exn (List Int) := runCode (-1) pc mem

/-- What an automaton does with the memory cells: when it stops in a state, when a state is a
backtrack point, and on a transition. -/
structure MemoryCode where
  perform : Nat → List Int → Except Exn (List Int)
  backtrack : Nat → List Int → Except Exn (List Int)
  transition : Nat → Nat → Nat → List Int → Except Exn (List Int)

/-- `caml_lex_engine` has no memory code. -/
def noMemory : MemoryCode where
  perform _ mem := .ok mem
  backtrack _ mem := .ok mem
  transition _ _ _ mem := .ok mem

/-- The offset of the code of a transition. -/
def transitionCode (tbl : LexTables) (pstate c : Nat) : Except Exn Nat := do
  let baseCode ← ushort tbl.lexBaseCode pstate
  let check ← short tbl.lexCheckCode (baseCode + c)
  if check = pstate then ushort tbl.lexTransCode (baseCode + c)
  else ushort tbl.lexDefaultCode pstate

/-- The memory code of `caml_new_lex_engine`. -/
def withMemory (tbl : LexTables) : MemoryCode where
  perform state mem := do
    let pcOff ← ushort tbl.lexBaseCode state
    runTag (tbl.lexCode.drop pcOff) mem
  backtrack state mem := do
    let pcOff ← ushort tbl.lexBacktrkCode state
    runTag (tbl.lexCode.drop pcOff) mem
  transition pstate c currPos mem := do
    let pcOff ← transitionCode tbl pstate c
    if pcOff > 0 then runMem (tbl.lexCode.drop pcOff) mem currPos else .ok mem

/-! ## The automata -/

section Engine

variable (tbl : LexTables) (code : MemoryCode)

/-- Records a backtrack point. -/
def recordBacktrack (state : Nat) (lexbuf : Lexbuf) : Except Exn Lexbuf := do
  let backtrk ← short tbl.lexBacktrk state
  if backtrk ≥ 0 then
    let mem ← code.backtrack state lexbuf.lexMem
    return { lexbuf with
      lexMem := mem, lexLastPos := lexbuf.lexCurrPos, lexLastAction := backtrk }
  else return lexbuf

/-- The next character; 256 is the end of the file. -/
def nextChar (lexbuf : Lexbuf) : Except Exn (Nat × Lexbuf) :=
  if lexbuf.lexCurrPos ≥ lexbuf.lexBufferLen then .ok (256, lexbuf)
  else do
    let c ← orElse .undefined lexbuf.lexBuffer[lexbuf.lexCurrPos]?
    return (c.toNat, { lexbuf with lexCurrPos := lexbuf.lexCurrPos + 1 })

/-- The state after the character `c`, negative if there is none. -/
def nextState (state base c : Nat) : Except Exn Int := do
  let check ← short tbl.lexCheck (base + c)
  if check = state then short tbl.lexTrans (base + c) else short tbl.lexDefault state

/-- One round of the loop: it goes on in another state, or returns. -/
def engineRound (state : Nat) (lexbuf : Lexbuf) :
    Except Exn ((Nat × Lexbuf) ⊕ (Int × Lexbuf)) := do
  let base ← short tbl.lexBase state
  if base < 0 then do
    let mem ← code.perform state lexbuf.lexMem
    return .inr (-base - 1, { lexbuf with lexMem := mem })
  else do
    let lexbuf ← recordBacktrack tbl code state lexbuf
    if lexbuf.lexCurrPos ≥ lexbuf.lexBufferLen ∧ lexbuf.lexEofReached = false then
      return .inr (-state - 1, lexbuf)
    else do
      let (c, lexbuf) ← nextChar lexbuf
      let next ← nextState tbl state base.toNat c
      if next < 0 then
        if lexbuf.lexLastAction = -1 then .error emptyToken
        else return .inr (lexbuf.lexLastAction, { lexbuf with lexCurrPos := lexbuf.lexLastPos })
      else do
        let mem ← code.transition state c lexbuf.lexCurrPos lexbuf.lexMem
        return .inl (next.toNat, { lexbuf with
          lexMem := mem
          lexEofReached := if c = 256 then false else lexbuf.lexEofReached })

def engineLoop : Nat → Nat → Lexbuf → Except Exn (Int × Lexbuf)
  | 0, _, _ => .error .undefined
  | fuel + 1, state, lexbuf => do
    match ← engineRound tbl code state lexbuf with
    | .inl (state, lexbuf) => engineLoop fuel state lexbuf
    | .inr res => return res

/-- A first entry, or a reentry after a refill. -/
def enter (startState : Int) (lexbuf : Lexbuf) : Nat × Lexbuf :=
  if startState ≥ 0 then
    (startState.toNat, { lexbuf with
      lexLastPos := lexbuf.lexCurrPos, lexStartPos := lexbuf.lexCurrPos, lexLastAction := -1 })
  else ((-startState - 1).toNat, lexbuf)

/-- A round reads a byte, or it is one of the last two rounds. -/
def lexEngine (startState : Int) (lexbuf : Lexbuf) : Except Exn (Int × Lexbuf) :=
  let (state, lexbuf) := enter startState lexbuf
  engineLoop tbl code (lexbuf.lexBufferLen - lexbuf.lexCurrPos + 2) state lexbuf

/-- The part of `engine` and `new_engine` after the call to C. -/
def updatePositions (res : Int × Lexbuf) : Int × Lexbuf :=
  match res.2.lexCurrP with
  | some p =>
    if res.1 ≥ 0 then
      (res.1, { res.2 with
        lexStartP := some p
        lexCurrP := some { p with posCnum := res.2.lexAbsPos + res.2.lexCurrPos } })
    else res
  | none => res

def engine (state : Int) (buf : Lexbuf) : Except Exn (Int × Lexbuf) := do
  return updatePositions (← lexEngine tbl noMemory state buf)

def newEngine (state : Int) (buf : Lexbuf) : Except Exn (Int × Lexbuf) := do
  return updatePositions (← lexEngine tbl (withMemory tbl) state buf)

end Engine

/-! ## Refilling the buffer -/

/-- What a reader delivers at once into a buffer of 512 bytes. -/
def Chunk : Type := { data : Bytes // data ≠ [] ∧ data.length ≤ 512 }

/-- A reader, by the chunks that it still delivers. After them it returns 0. -/
abbrev Reader := List Chunk

def Reader.read : Reader → Bytes × Reader
  | [] => ([], [])
  | chunk :: rest => (chunk.val, rest)

/-- All that a reader still delivers. -/
def Reader.contents (rd : Reader) : Bytes := rd.flatMap Subtype.val

/-- The allocation of byte sequences. The contents of a new one are not specified. -/
structure Runtime where
  create : Nat → Bytes
  length_create : ∀ n, (create n).length = n
  maxStringLength : Nat

/-- A position or memory cell after the data was shifted by `s`. -/
def rebase (s : Nat) (v : Int) : Int := if v ≥ 0 then v - s else v

section Refill

variable (rt : Runtime)

/-- Where `size` bytes fit: in the buffer itself, or in a new one of twice the length. -/
def roomFor (size : Nat) (buffer : Bytes) : Except Exn Bytes :=
  if size ≤ buffer.length then .ok buffer
  else
    let newlen := min (2 * buffer.length) rt.maxStringLength
    if size > newlen then .error cannotGrow else .ok (rt.create newlen)

/-- Shifts the valid data to the beginning, so that `n` bytes fit behind it. -/
def makeRoom (n : Nat) (lexbuf : Lexbuf) : Except Exn Lexbuf := do
  let s := lexbuf.lexStartPos
  let len := lexbuf.lexBufferLen - s
  let target ← roomFor rt (len + n) lexbuf.lexBuffer
  let buffer ← orElse (.invalidArgument "Bytes.blit") (Bytes.blit lexbuf.lexBuffer s target 0 len)
  return { lexbuf with
    lexBuffer := buffer
    lexAbsPos := lexbuf.lexAbsPos + s
    lexCurrPos := lexbuf.lexCurrPos - s
    lexStartPos := 0
    lexLastPos := lexbuf.lexLastPos - s
    lexBufferLen := lexbuf.lexBufferLen - s
    lexMem := lexbuf.lexMem.map (rebase s) }

/-- Makes room for `n` bytes, unless there is enough at the end of the buffer. -/
def ensureRoom (n : Nat) (lexbuf : Lexbuf) : Except Exn Lexbuf :=
  if lexbuf.lexBufferLen + n > lexbuf.lexBuffer.length then makeRoom rt n lexbuf else .ok lexbuf

/-- The end of the file is reached when nothing was read. -/
def markEof (n : Nat) (lexbuf : Lexbuf) : Lexbuf :=
  if n > 0 then lexbuf else { lexbuf with lexEofReached := true }

def lexRefill (rd : Reader) (lexbuf : Lexbuf) : Except Exn (Lexbuf × Reader) := do
  let data := rd.read.1
  let n := data.length
  let lexbuf ← ensureRoom rt n (markEof n lexbuf)
  let buffer ← orElse (.invalidArgument "Bytes.blit")
    (Bytes.blit data 0 lexbuf.lexBuffer lexbuf.lexBufferLen n)
  return ({ lexbuf with lexBuffer := buffer, lexBufferLen := lexbuf.lexBufferLen + n }, rd.read.2)

def zeroPos : Position where
  posFname := []
  posLnum := 1
  posBol := 0
  posCnum := 0

def fromFunction (withPositions : Bool) : Lexbuf where
  lexBuffer := rt.create 1024
  lexBufferLen := 0
  lexAbsPos := 0
  lexStartPos := 0
  lexCurrPos := 0
  lexLastPos := 0
  lexLastAction := 0
  lexMem := []
  lexEofReached := false
  lexStartP := if withPositions then some zeroPos else none
  lexCurrP := if withPositions then some zeroPos else none

end Refill

def lexeme (lexbuf : Lexbuf) : Except Exn Bytes :=
  orElse (.invalidArgument "String.sub / Bytes.sub")
    (Bytes.sub lexbuf.lexBuffer lexbuf.lexStartPos (lexbuf.lexCurrPos - lexbuf.lexStartPos))

/-! ## The generated lexer -/

/-- `memory_action`. -/
inductive MemoryAction where
  | copy (tgt src : Nat)
  | set (tgt : Nat)

/-- An entry point. The memory, if the entry needs any, is given by its size and by the moves that
initialize it. -/
structure Entry where
  initNum : Nat
  mem : Option (Nat × List MemoryAction)

/-- What the program can observe of a token. -/
structure Token where
  action : Int
  lexeme : Bytes
  startPos : Nat
  endPos : Nat
  /-- the memory cells, relative to the start of the token -/
  mem : List Int
  startP : Option Position
  currP : Option Position
  deriving DecidableEq, Repr

/-- The tokens of a run, and the exception that ended it, if any. -/
structure Outcome where
  tokens : List Token
  error : Option Exn
  deriving DecidableEq, Repr

def setCell (mem : List Int) (i : Nat) (v : Int) : Except Exn (List Int) :=
  if i < mem.length then .ok (mem.set i v) else .error indexOutOfBounds

def memoryAction (currPos : Nat) (mem : List Int) : MemoryAction → Except Exn (List Int)
  | .copy tgt src => do
    let v ← orElse indexOutOfBounds mem[src]?
    setCell mem tgt v
  | .set tgt => setCell mem tgt currPos

/-- The code of an entry point before the automaton is run. -/
def Entry.start (e : Entry) (lexbuf : Lexbuf) : Except Exn Lexbuf :=
  match e.mem with
  | none => .ok lexbuf
  | some (size, moves) => do
    let mem ← moves.foldlM (memoryAction lexbuf.lexCurrPos) (List.replicate size (-1))
    return { lexbuf with lexMem := mem }

def Entry.engine (tbl : LexTables) (e : Entry) : Int → Lexbuf → Except Exn (Int × Lexbuf) :=
  if e.mem.isSome then newEngine tbl else Lexing.engine tbl

def Entry.token (e : Entry) (action : Int) (lexbuf : Lexbuf) : Except Exn Token := do
  let lexeme ← Lexing.lexeme lexbuf
  return {
    action
    lexeme
    startPos := lexbuf.lexAbsPos + lexbuf.lexStartPos
    endPos := lexbuf.lexAbsPos + lexbuf.lexCurrPos
    mem := if e.mem.isSome then lexbuf.lexMem.map (rebase lexbuf.lexStartPos) else []
    startP := lexbuf.lexStartP
    currP := lexbuf.lexCurrP }

/-- Between two tokens, or in the function `__travlang_lex_…_rec` of an entry point. -/
inductive Control where
  | between (tokens : List Token) (lexbuf : Lexbuf) (rd : Reader)
  | inside (e : Entry) (state : Int) (tokens : List Token) (lexbuf : Lexbuf) (rd : Reader)

/-- A step goes on, or halts with an exception. -/
def halting {σ : Type} (tokens : List Token) : Except Exn σ → σ ⊕ Outcome
  | .ok s => .inl s
  | .error e => .inr ⟨tokens, some e⟩

/-- The program. It chooses the next entry point by the tokens so far. A negative result of the
automaton asks for a refill. -/
def lexStep (rt : Runtime) (tbl : LexTables) (next : List Token → Option Entry) :
    Control → Control ⊕ Outcome
  | .between tokens lexbuf rd =>
    match next tokens with
    | none => .inr ⟨tokens, none⟩
    | some e => halting tokens do
      let lexbuf ← e.start lexbuf
      return .inside e e.initNum tokens lexbuf rd
  | .inside e state tokens lexbuf rd => halting tokens do
    let (result, lexbuf) ← e.engine tbl state lexbuf
    if result ≥ 0 then
      let token ← e.token result lexbuf
      return .between (tokens ++ [token]) lexbuf rd
    else
      let (lexbuf, rd) ← lexRefill rt rd lexbuf
      return .inside e result tokens lexbuf rd

/-- A lexer that is run on a reader ends with this outcome. -/
def Lexes (rt : Runtime) (tbl : LexTables) (next : List Token → Option Entry)
    (withPositions : Bool) (rd : Reader) : Outcome → Prop :=
  Machine.Halts (lexStep rt tbl next) (.between [] (fromFunction rt withPositions) rd)

end TravLang.Lexing
