import TravLang.Stdlib.Lexing.Basic

/-!
# Lexing a string

The purpose of the automata, without a buffer: a token is scanned on the rest of the input, which is
known as a whole, and all positions are relative to the start of the token.
-/

namespace TravLang.Lexing

open List

/-- The automaton in the middle of a token. -/
structure Scan where
  state : Nat
  curr : Nat
  last : Nat
  lastAction : Int
  mem : List Int

/-- The character at a position; 256 is the end of the file. -/
def charAt (input : Bytes) (i : Nat) : Nat :=
  match input[i]? with
  | some c => c.toNat
  | none => 256

/-- The position after a character. The end of the file has no width. -/
def posAfter (input : Bytes) (i : Nat) : Nat := if i < input.length then i + 1 else i

section Scan

variable (tbl : LexTables) (code : MemoryCode)

def Scan.record (s : Scan) : Except Exn Scan := do
  let backtrk ← short tbl.lexBacktrk s.state
  if backtrk ≥ 0 then
    let mem ← code.backtrack s.state s.mem
    return { s with mem, last := s.curr, lastAction := backtrk }
  else return s

/-- One character of the input. At the end there is an action, the length of the token and its
memory. -/
def scanRound (input : Bytes) (s : Scan) : Except Exn (Scan ⊕ (Int × Nat × List Int)) := do
  let base ← short tbl.lexBase s.state
  if base < 0 then do
    let mem ← code.perform s.state s.mem
    return .inr (-base - 1, s.curr, mem)
  else do
    let s ← s.record tbl code
    let next ← nextState tbl s.state base.toNat (charAt input s.curr)
    if next < 0 then
      if s.lastAction = -1 then .error emptyToken
      else return .inr (s.lastAction, s.last, s.mem)
    else do
      let mem ← code.transition s.state (charAt input s.curr) (posAfter input s.curr) s.mem
      return .inl { s with state := next.toNat, curr := posAfter input s.curr, mem }

end Scan

/-- Where a token starts: its offset in the whole input, the rest of the input from there on, and
the fields `lex_start_p` and `lex_curr_p`. -/
structure Place where
  offset : Nat
  input : Bytes
  pos : Option Position × Option Position

/-- The program between two tokens, or inside of one. -/
inductive StringControl where
  | between (tokens : List Token) (place : Place)
  | inside (e : Entry) (tokens : List Token) (place : Place) (s : Scan)

def Entry.code (tbl : LexTables) (e : Entry) : MemoryCode :=
  if e.mem.isSome then withMemory tbl else noMemory

/-- The memory at the start of a token. -/
def Entry.startMem (e : Entry) (currPos : Nat) : Except Exn (List Int) :=
  match e.mem with
  | none => .ok []
  | some (size, moves) => moves.foldlM (memoryAction currPos) (List.replicate size (-1))

/-- The positions after a token that ends at the offset `endPos`. -/
def positionsAfter (pos : Option Position × Option Position) (endPos : Nat) :
    Option Position × Option Position :=
  match pos.2 with
  | some p => (some p, some { p with posCnum := endPos })
  | none => pos

/-- The place after a token of length `len`. -/
def Place.after (place : Place) (len : Nat) : Place where
  offset := place.offset + len
  input := place.input.drop len
  pos := positionsAfter place.pos (place.offset + len)

def Place.token (place : Place) (e : Entry) (action : Int) (len : Nat) (mem : List Int) :
    Token where
  action
  lexeme := place.input.take len
  startPos := place.offset
  endPos := place.offset + len
  mem := if e.mem.isSome then mem else []
  startP := (place.after len).pos.1
  currP := (place.after len).pos.2

def stringStep (tbl : LexTables) (next : List Token → Option Entry) :
    StringControl → StringControl ⊕ Outcome
  | .between tokens place =>
    match next tokens with
    | none => .inr ⟨tokens, none⟩
    | some e => halting tokens do
      let mem ← e.startMem 0
      return .inside e tokens place ⟨e.initNum, 0, 0, -1, mem⟩
  | .inside e tokens place s => halting tokens do
    match ← scanRound tbl (e.code tbl) place.input s with
    | .inl s => return .inside e tokens place s
    | .inr (action, len, mem) =>
      return .between (tokens ++ [place.token e action len mem]) (place.after len)

/-! ## Memory code does not depend on the origin of positions -/

/-- The cells hold the same positions, relative to `start`. -/
def MemRel (start : Nat) (mem mem' : List Int) : Prop := mem' = mem.map (rebase start)

theorem rebase_add (start k : Nat) : rebase start ((start + k : Nat) : Int) = k := by
  unfold rebase
  rw [if_pos (by omega)]
  omega

theorem MemRel.length {start : Nat} {mem mem' : List Int} (h : MemRel start mem mem') :
    mem'.length = mem.length := by
  rw [h, length_map]

theorem MemRel.set {start : Nat} {mem mem' : List Int} (h : MemRel start mem mem') (i : Nat)
    (v : Int) : MemRel start (mem.set i v) (mem'.set i (rebase start v)) := by
  rw [MemRel, h, map_set]

variable {mem mem' : List Int} {start : Nat}

theorem MemRel.get (h : MemRel start mem mem') (e : Exn) (i : Nat) :
    Result.Rel (fun v v' => v' = rebase start v) (orElse e mem[i]?) (orElse e mem'[i]?) := by
  rw [h, List.getElem?_map]
  cases mem[i]? <;> exact rfl

theorem runCode_rel (value : Int) :
    ∀ (pc : Bytes) {mem mem' : List Int}, MemRel start mem mem' →
      Result.Rel (MemRel start) (runCode value pc mem) (runCode (rebase start value) pc mem')
  | [], _, _, _ => rfl
  | [dst], mem, mem', h => by
    simp only [runCode]
    split
    · exact h
    · rfl
  | dst :: src :: pc, mem, mem', h => by
    simp only [runCode]
    split
    · exact h
    · refine Result.Rel.bind (R := fun v v' => v' = rebase start v) ?_ ?_
      · unfold operand
        split
        · rfl
        · exact h.get _ _
      · rintro v _ rfl
        rw [h.length]
        split
        · exact runCode_rel value pc (h.set _ v)
        · rfl

theorem runTag_rel (pc : Bytes) (h : MemRel start mem mem') :
    Result.Rel (MemRel start) (runTag pc mem) (runTag pc mem') :=
  runCode_rel _ pc h

theorem runMem_rel {k : Nat} (pc : Bytes) (h : MemRel start mem mem') :
    Result.Rel (MemRel start) (runMem pc mem (start + k)) (runMem pc mem' k) := by
  have := runCode_rel ((start + k : Nat) : Int) pc h
  rwa [rebase_add] at this

theorem memoryAction_rel (h : MemRel start mem mem') :
    ∀ mv : MemoryAction,
      Result.Rel (MemRel start) (memoryAction start mem mv) (memoryAction 0 mem' mv) := by
  have hset : ∀ (i : Nat) (v : Int),
      Result.Rel (MemRel start) (setCell mem i v) (setCell mem' i (rebase start v)) := by
    intro i v
    unfold setCell
    rw [h.length]
    split
    · exact h.set i v
    · rfl
  intro mv
  cases mv with
  | copy tgt src =>
    refine Result.Rel.bind (h.get _ src) ?_
    rintro v _ rfl
    exact hset tgt v
  | set tgt =>
    have := hset tgt start
    rwa [show rebase start start = ((0 : Nat) : Int) from rebase_add start 0] at this

/-- What the memory code of an entry point keeps. An entry without memory never looks at the
cells. -/
def CellsRel (e : Entry) (start : Nat) (mem mem' : List Int) : Prop :=
  e.mem.isSome = true → MemRel start mem mem'

theorem Entry.startMem_rel (e : Entry) (start : Nat) :
    Result.Rel (CellsRel e start) (e.startMem start) (e.startMem 0) := by
  unfold Entry.startMem
  split
  · next he => exact fun h => by simp [he] at h
  · next size moves he =>
    have hloop : ∀ (moves : List MemoryAction) {mem mem' : List Int}, MemRel start mem mem' →
        Result.Rel (MemRel start) (moves.foldlM (memoryAction start) mem)
          (moves.foldlM (memoryAction 0) mem') := by
      intro moves
      induction moves with
      | nil => exact fun h => h
      | cons mv moves ih =>
        intro mem mem' h
        rw [foldlM_cons, foldlM_cons]
        exact (memoryAction_rel h mv).bind fun _ _ h => ih h
    exact (hloop moves (by simp [MemRel, rebase])).mono fun _ _ h _ => h

section MemoryCode

variable (tbl : LexTables) {e : Entry} {start : Nat} {mem mem' : List Int}
  (h : CellsRel e start mem mem')

include h

theorem perform_backtrack_rel (state : Nat) :
    Result.Rel (CellsRel e start) ((e.code tbl).perform state mem)
      ((e.code tbl).perform state mem') ∧
    Result.Rel (CellsRel e start) ((e.code tbl).backtrack state mem)
      ((e.code tbl).backtrack state mem') := by
  unfold Entry.code
  split
  · next he =>
    constructor <;>
      exact Result.Rel.bind_same fun pcOff _ => (runTag_rel _ (h he)).mono fun _ _ hr _ => hr
  · exact ⟨h, h⟩

theorem transition_rel (pstate c k : Nat) : Result.Rel (CellsRel e start)
    ((e.code tbl).transition pstate c (start + k) mem)
    ((e.code tbl).transition pstate c k mem') := by
  unfold Entry.code
  split
  · next he =>
    refine Result.Rel.bind_same fun pcOff _ => ?_
    split
    · exact (runMem_rel _ (h he)).mono fun _ _ hr _ => hr
    · exact h
  · exact h

end MemoryCode

end TravLang.Lexing
